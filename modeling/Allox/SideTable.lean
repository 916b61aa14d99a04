import Allox.Arena
import Allox.Large

/-!
# The side table of the arena

`BIG_MAP` has one word for each 64 KiB unit of the reservation: the master of the big span there, the
master of the medium span or the header of the large region with a tag bit, or zero. It is written one
word at a time, by the carving and the unmapping of spans and by the registration of large regions.

Which spans are kept, cooled or unmapped, and where a freed region goes, is for the caps to decide and
left open here: `ArenaEnv.pick` chooses.
-/

namespace Allox

open Resumption

def largeTableTag : Nat := 1
def mediumTableTag : Nat := 2

/-- Where `alloc_large_ex` puts the header of a region at `base`. -/
def largeHeaderAt (base align : Nat) : Nat := alignUp (base + largeHeaderSize) align - largeHeaderSize

/-- The table word that belongs to a slice with this role, when the reservation is at `start`. -/
def Role.entry (s : Slice) : Role → Nat → Nat
  | .plain, _ => 0
  | .parked, _ => 0
  | .span .medium _, start => (start + s.off) ||| mediumTableTag
  | .span .big _, start => start + s.off
  | .large alignLog, start => largeHeaderAt (start + s.off) (2 ^ alignLog) ||| largeTableTag

namespace ArenaWorld

def bigPageIndex (w : ArenaWorld) (p : Nat) : Option Nat :=
  if w.arena.status ≠ .ready then none
  else if p < w.arena.start || w.arena.limit ≤ p then none
  else
    let idx := (p - w.arena.start) / arenaAlign
    if bigMapSlots ≤ idx then none else some idx

def bigPageRange (w : ArenaWorld) (s : Slice) : Option Nat :=
  if s.pages = 0 || w.arena.status ≠ .ready then none
  else
    let last := s.off + (s.pages - 1) * arenaAlign
    if w.arena.limit - w.arena.start ≤ last then none
    else
      let idx := s.off / arenaAlign
      if bigMapSlots ≤ idx || bigMapSlots - idx < s.pages then none else some idx

/-- Null is zero in the three lookups. -/
def bigTableGet (w : ArenaWorld) (p : Nat) : Nat :=
  match w.bigPageIndex p with
  | some idx =>
      let raw := w.bigMap idx
      if raw &&& (largeTableTag ||| mediumTableTag) ≠ 0 then 0 else raw
  | none => 0

def largeTableGet (w : ArenaWorld) (p : Nat) : Nat :=
  match w.bigPageIndex p with
  | some idx =>
      let raw := w.bigMap idx
      if raw &&& largeTableTag = 0 then 0 else raw - largeTableTag
  | none => 0

def mediumTableGet (w : ArenaWorld) (p : Nat) : Nat :=
  match w.bigPageIndex p with
  | some idx =>
      let raw := w.bigMap idx
      if raw &&& mediumTableTag = 0 then 0 else raw - mediumTableTag
  | none => 0

end ArenaWorld

namespace SideTable

/-- One release store. The word is an address, so it depends on where the reservation is. -/
def store (i : Nat) (word : Nat → Nat) : ArenaAct Unit :=
  Act.atomic fun _ w => ({ w with bigMap := Function.update w.bigMap i (word w.arena.start) }, ())

def storeFrom (word : Nat → Nat) : Nat → Nat → ArenaAct Unit
  | _, 0 => pure ()
  | i, n + 1 => do
      store i word
      storeFrom word (i + 1) n

/-- The common shape of `*_table_set` and `*_table_clear`. -/
def tableStore (s : Slice) (word : Nat → Nat) : ArenaAct Unit := do
  match ← Act.atomic fun _ w => (w, w.bigPageRange s) with
  | some start => storeFrom word start s.pages
  | none => pure ()

def bigTableSet (s master : Slice) : ArenaAct Unit :=
  tableStore s (Role.entry master (.span .big .inUse))

def mediumTableSet (s master : Slice) : ArenaAct Unit :=
  tableStore s (Role.entry master (.span .medium .inUse))

def largeTableSet (s region : Slice) (alignLog : Nat) : ArenaAct Unit :=
  tableStore s (Role.entry region (.large alignLog))

def bigTableClear (s : Slice) : ArenaAct Unit := tableStore s fun _ => 0

def mediumTableClear (s : Slice) : ArenaAct Unit := tableStore s fun _ => 0

def largeTableClear (s : Slice) : ArenaAct Unit := tableStore s fun _ => 0

def spanTableSet : SpanTier → Slice → ArenaAct Unit
  | .big, s => bigTableSet s s
  | .medium, s => mediumTableSet s s

def spanTableClear : SpanTier → Slice → ArenaAct Unit
  | .big, s => bigTableClear s
  | .medium, s => mediumTableClear s

def contains (s : Slice) : ArenaAct Bool :=
  Act.atomic fun _ w => (w, w.arena.contains (w.arena.start + s.off) s.len)

/-! ### Spans -/

/-- The last part of `take_blocks`: commit a span and enter every page of it. -/
def carveSpan (tier : SpanTier) (pages spins : Nat) : ArenaAct Unit := do
  match ← Arena.commit pages spins with
  | some (off, _) =>
      spanTableSet tier ⟨off, pages⟩
      Arena.settle [⟨off, pages⟩] ⟨off, pages⟩ (.span tier .inUse)
  | none => pure ()

def choose : ArenaAct Nat := Act.atomic fun e w => (w, e.pick)

/-- `mrelease_inner` or `brelease_inner` on the last blocks of a span, then `mact_fate` or
`bact_fate`. -/
def releaseSpan (tier : SpanTier) : ArenaAct Unit := do
  let (s, _) ← Arena.takeSlice (· = .span tier .inUse)
  match ← choose with
  | 0 => Arena.settle [s] s (.span tier .empty)
  | 1 => do
      Arena.discard s
      Arena.settle [s] s (.span tier .cold)
  | _ => do
      if ← contains s then spanTableClear tier s
      Arena.release s

/-- `take_blocks` pops an empty span, or carves a cold one again: the table is not written. -/
def reuseSpan (tier : SpanTier) : ArenaAct Unit := do
  let (s, _) ← Arena.takeSlice fun r => r = .span tier .empty || r = .span tier .cold
  Arena.settle [s] s (.span tier .inUse)

/-! ### Large regions -/

/-- Whether `size` bytes at the aligned address behind the header fit the region. -/
def fits (s : Slice) (size alignLog : Nat) : ArenaAct Bool :=
  Act.atomic fun _ w =>
    let base := w.arena.start + s.off
    (w, alignUp (base + largeHeaderSize) (2 ^ alignLog) + size ≤ base + s.len)

def registerLargeRegion (s : Slice) (alignLog : Nat) : ArenaAct Unit := do
  if ← contains s then largeTableSet s s alignLog

def unregisterLargeRegion (s : Slice) : ArenaAct Unit := do
  if ← contains s then largeTableClear s

/-- `alloc_large_ex` on a fresh region of `pages`. -/
def allocLarge (pages spins size alignLog : Nat) : ArenaAct Unit := do
  match ← Arena.commit pages spins with
  | some (off, _) =>
      if ← fits ⟨off, pages⟩ size alignLog then do
        registerLargeRegion ⟨off, pages⟩ alignLog
        Arena.settle [⟨off, pages⟩] ⟨off, pages⟩ (.large alignLog)
      else Arena.release ⟨off, pages⟩
  | none => pure ()

/-- `alloc_large_ex` on a region out of a stash or a shard; a calloc may purge it first. -/
def reuseLarge (size alignLog : Nat) (purge : Bool) : ArenaAct Unit := do
  let (s, _) ← Arena.takeSlice (· = .parked)
  if ← fits s size alignLog then do
    if purge then Arena.discard s
    registerLargeRegion s alignLog
    Arena.settle [s] s (.large alignLog)
  else Arena.release s

/-- `free_large`: unregister, then stash, shard, cold shard or give back. -/
def freeLarge : ArenaAct Unit := do
  let (s, _) ← Arena.takeSlice fun r => match r with
    | .large _ => true
    | _ => false
  unregisterLargeRegion s
  match ← choose with
  | 0 => Arena.settle [s] s .parked
  | 1 => do
      Arena.discard s
      Arena.settle [s] s .parked
  | _ => Arena.release s

/-- A stash or a shard gives a region back. -/
def dropParked : ArenaAct Unit := do
  let (s, _) ← Arena.takeSlice (· = .parked)
  Arena.release s

/-- `try_grow_large_frontier` once the size does not fit: grow the slice, then enter the added pages. -/
def growLarge (newPages : Nat) : ArenaAct Unit := do
  let (s, role) ← Arena.takeSlice fun r => match r with
    | .large _ => true
    | _ => false
  if ← Arena.growFrontier s newPages then do
    tableStore (Arena.addedSlice s newPages) (Role.entry s role)
    Arena.settle [s, Arena.addedSlice s newPages] ⟨s.off, newPages⟩ role
  else Arena.settle [s] s role

end SideTable

inductive TableOp where
  | arena (op : ArenaOp)
  | carveSpan (tier : SpanTier) (pages spins : Nat)
  | releaseSpan (tier : SpanTier)
  | reuseSpan (tier : SpanTier)
  | allocLarge (pages spins size alignLog : Nat)
  | reuseLarge (size alignLog : Nat) (purge : Bool)
  | freeLarge
  | dropParked
  | growLarge (newPages : Nat)

def tableOps : TableOp → ArenaAct Unit
  | .arena op => arenaOps op
  | .carveSpan tier pages spins => SideTable.carveSpan tier pages spins
  | .releaseSpan tier => SideTable.releaseSpan tier
  | .reuseSpan tier => SideTable.reuseSpan tier
  | .allocLarge pages spins size alignLog => SideTable.allocLarge pages spins size alignLog
  | .reuseLarge size alignLog purge => SideTable.reuseLarge size alignLog purge
  | .freeLarge => SideTable.freeLarge
  | .dropParked => SideTable.dropParked
  | .growLarge newPages => SideTable.growLarge newPages

end Allox
