import Allox.Lib.Resumption
import Allox.Classes

/-!
# The virtual-memory arena

One reservation, a bump frontier, and a store of returned slices. A slice is claimed by a
compare-and-swap on the frontier or by popping a hole under the hole lock, and committed afterwards;
a failed commit pushes the claim back.

Offsets are bytes from the start of the reservation, a slice is a run of 64 KiB units. The lists
`pool`, `hands`, `lost` and the counter `clashes` are not in the code: they record who has which
slice, and whether a commit or a discard ever hit somebody else's.
-/

namespace Allox

def arenaAlign : Nat := 64 * 1024
def arenaSize : Nat := 16 * 1024 * 1024 * 1024
def holeSlots : Nat := 4096
def holeCapBytes : Nat := 4 * 1024 * 1024 * 1024
def exactBucketMax : Nat := 128
def emptyBucket : Nat := 65535
def bigMapSlots : Nat := arenaSize / arenaAlign
def usizeLimit : Nat := 2 ^ 64

/-! ### The hole store -/

/-- Entries are (offset in bytes, pages); only those below `len` are meaningful. -/
structure HoleStore where
  len : Nat
  bytes : Nat
  entries : Nat → Nat × Nat
  exact : Nat → Nat

namespace HoleStore

def new : HoleStore :=
  { len := 0, bytes := 0, entries := fun _ => (0, 0), exact := fun _ => emptyBucket }

def refreshExact (h : HoleStore) (pages : Nat) : HoleStore :=
  if exactBucketMax < pages then h
  else
    let found := ((List.range h.len).find? fun i => (h.entries i).2 == pages).getD emptyBucket
    { h with exact := Function.update h.exact pages found }

/-- The best-fit scan from index `i` on, with `n` entries left and `best` so far. -/
def scan (h : HoleStore) (pages : Nat) : Nat → Nat → Option Nat → Option Nat
  | _, 0, best => best
  | i, n + 1, best =>
      let p := (h.entries i).2
      if p = pages then some i
      else if pages < p && best.all fun b => p < (h.entries b).2 then h.scan pages (i + 1) n (some i)
      else h.scan pages (i + 1) n best

/-- The index whose size is exactly `pages`, through the hint, repaired once if it is stale. -/
def exactIndex (h : HoleStore) (pages : Nat) : HoleStore × Option Nat :=
  if exactBucketMax < pages then (h, none)
  else
    let index := h.exact pages
    let h' := if h.len ≤ index || (h.entries index).2 != pages then h.refreshExact pages else h
    let index := h'.exact pages
    if index < h'.len && (h'.entries index).2 == pages then (h', some index) else (h', none)

def splitAt (h : HoleStore) (i pages : Nat) : HoleStore :=
  let off := (h.entries i).1
  let p := (h.entries i).2
  let h := { h with entries := Function.update h.entries i (off + pages * arenaAlign, p - pages) }
  let h := h.refreshExact p
  let remainder := p - pages
  if exactBucketMax < remainder then h
  else { h with exact := Function.update h.exact remainder i }

def swapRemove (h : HoleStore) (i : Nat) : HoleStore :=
  let p := (h.entries i).2
  let last := h.len - 1
  let h := { h with
    entries := Function.update (Function.update h.entries i (h.entries last)) last (0, 0)
    len := last }
  h.refreshExact p

/-- `holes_take` under the lock: the offset of the taken part. -/
def take (h : HoleStore) (pages : Nat) : HoleStore × Option Nat :=
  let (h, hint) := h.exactIndex pages
  match hint.orElse fun _ => h.scan pages 0 h.len none with
  | none => (h, none)
  | some i =>
      let off := (h.entries i).1
      let p := (h.entries i).2
      let h := { h with bytes := h.bytes - pages * arenaAlign }
      if pages < p then (h.splitAt i pages, some off) else (h.swapRemove i, some off)

/-- `holes_give` under the lock; `none` when the slice is abandoned. -/
def give (h : HoleStore) (off pages : Nat) : Option HoleStore :=
  let bytes := pages * arenaAlign
  if h.len < holeSlots && h.bytes + bytes ≤ holeCapBytes then
    let h' := { h with
      entries := Function.update h.entries h.len (off, pages)
      len := h.len + 1
      bytes := h.bytes + bytes }
    some (if exactBucketMax < pages then h'
      else { h' with exact := Function.update h'.exact pages h.len })
  else none

end HoleStore

/-! ### The arena and its surroundings -/

inductive ArenaStatus where
  | uninit
  | ready
  | disabled
  deriving DecidableEq

/-- `limit` is the source's `end`. -/
structure Arena where
  status : ArenaStatus
  start : Nat
  limit : Nat
  bump : Nat
  holes : HoleStore
  holeCount : Nat
  abandoned : Nat
  size : Nat

structure Slice where
  off : Nat
  pages : Nat
  deriving DecidableEq

def Slice.len (s : Slice) : Nat := s.pages * arenaAlign

def Slice.overlaps (s r : Slice) : Bool := s.off < r.off + r.len && r.off < s.off + s.len

/-- A span is in use, or parked with its pages kept (empty) or dropped (cold). -/
inductive SpanState where
  | inUse
  | empty
  | cold
  deriving DecidableEq

/-- What the holder of a slice uses it for: a small page (`plain`), a span, a live large region with
the base-two logarithm of the alignment it was asked for, or a large region in a stash or a shard. -/
inductive Role where
  | plain
  | span (tier : SpanTier) (state : SpanState)
  | large (alignLog : Nat)
  | parked
  deriving DecidableEq

structure ArenaWorld where
  arena : Arena
  bigMap : Nat → Nat
  pool : List (Slice × Role)
  hands : List Slice
  lost : List Slice
  clashes : Nat

/-- What the outside decides: where the reservation lands, whether a commit succeeds, which slice at
rest an operation is called on. -/
structure ArenaEnv where
  reserve : Option Nat
  committed : Bool
  pick : Nat

abbrev ArenaAct := Resumption.Act ArenaWorld Unit ArenaEnv

namespace Arena

def withSize (size : Nat) : Arena :=
  { status := .uninit, start := 0, limit := 0, bump := 0, holes := .new, holeCount := 0,
    abandoned := 0, size }

def init (a : Arena) (reserve : Option Nat) : Arena :=
  match a.status with
  | .uninit =>
      if usizeLimit ≤ a.size + arenaAlign then { a with status := .disabled }
      else
        match reserve with
        | none => { a with status := .disabled }
        | some raw =>
            let aligned := (raw + arenaAlign - 1) / arenaAlign * arenaAlign
            { a with start := aligned, limit := aligned + a.size, bump := 0, status := .ready }
  | _ => a

def contains (a : Arena) (base len : Nat) : Bool :=
  a.status = .ready && a.start ≤ base && base + len ≤ a.limit

def holeSlices (a : Arena) : List Slice :=
  (List.range a.holes.len).map fun i => ⟨(a.holes.entries i).1, (a.holes.entries i).2⟩

end Arena

namespace ArenaWorld

def new (size : Nat) : ArenaWorld :=
  { arena := .withSize size, bigMap := fun _ => 0, pool := [], hands := [], lost := [],
    clashes := 0 }

/-- Every slice anybody but the operation working on `s` has. -/
def others (w : ArenaWorld) (s : Slice) : List Slice :=
  w.pool.map Prod.fst ++ w.hands.erase s ++ w.arena.holeSlices ++ w.lost

/-- A `MAP_FIXED` commit or a discard over `s`. -/
def touch (w : ArenaWorld) (s : Slice) : ArenaWorld :=
  if (w.others s).any s.overlaps then { w with clashes := w.clashes + 1 } else w

/-- `holes_take`: the taken slice moves to the hand of the operation. -/
def takeHole (w : ArenaWorld) (pages : Nat) : ArenaWorld × Option Nat :=
  let (h, off) := w.arena.holes.take pages
  let a := { w.arena with holes := h, holeCount := h.len }
  match off with
  | none => ({ w with arena := a }, none)
  | some off => ({ w with arena := a, hands := ⟨off, pages⟩ :: w.hands }, some off)

/-- `holes_give`: the slice is parked, or abandoned when the store is full. -/
def giveHole (w : ArenaWorld) (s : Slice) : ArenaWorld :=
  match w.arena.holes.give s.off s.pages with
  | some h =>
      { w with arena := { w.arena with holes := h, holeCount := h.len }, hands := w.hands.erase s }
  | none =>
      { w with arena := { w.arena with abandoned := w.arena.abandoned + 1 }
               hands := w.hands.erase s
               lost := s :: w.lost }

end ArenaWorld

open Resumption

namespace Arena

/-- Reserve once per instance. -/
def ensureInit : ArenaAct Bool :=
  Act.atomic fun e w =>
    let a := w.arena.init e.reserve
    ({ w with arena := a }, a.status = .ready)

/-- The unlocked read of the hole count, then the locked pop. -/
def holesTake (pages : Nat) : ArenaAct (Option Nat) := do
  let count ← Act.atomic fun _ w => (w, w.arena.holeCount)
  if count = 0 then pure none
  else
    Act.atomic fun _ w => w.takeHole pages

def holesGive (s : Slice) : ArenaAct Unit :=
  Act.atomic fun _ w => (w.giveHole s, ())

def commitRange (s : Slice) : ArenaAct Bool :=
  Act.atomic fun e w => (w.touch s, e.committed)

def discard (s : Slice) : ArenaAct Unit :=
  Act.atomic fun _ w => (w.touch s, ())

def loadBump : ArenaAct (Nat × Nat) :=
  Act.atomic fun _ w => (w, w.arena.bump, w.arena.size)

/-- The compare-and-swap on the frontier; on success the units passed over are claimed as `s`. -/
def casBump (old new : Nat) (s : Slice) : ArenaAct Bool :=
  Act.atomic fun _ w =>
    if w.arena.bump = old then
      ({ w with arena := { w.arena with bump := new }, hands := s :: w.hands }, true)
    else (w, false)

/-- Bump claim, with at most `spins` attempts at the compare-and-swap. -/
def bumpCommit (pages : Nat) : Nat → ArenaAct (Option (Nat × Bool))
  | 0 => pure none
  | spins + 1 => do
      let (off, size) ← loadBump
      let new := off + pages * arenaAlign
      if size < new then pure none
      else if ← casBump off new ⟨off, pages⟩ then
        if ← commitRange ⟨off, pages⟩ then pure (some (off, true))
        else do
          holesGive ⟨off, pages⟩
          pure none
      else bumpCommit pages spins

/-- `Arena::commit`: the offset and the `fresh` flag, or null. The slice is then in hand. -/
def commit (pages spins : Nat) : ArenaAct (Option (Nat × Bool)) :=
  if pages = 0 || usizeLimit ≤ pages * arenaAlign then pure none
  else do
    if ← ensureInit then
      match ← holesTake pages with
      | some off =>
          if ← commitRange ⟨off, pages⟩ then pure (some (off, false))
          else do
            holesGive ⟨off, pages⟩
            pure none
      | none => bumpCommit pages spins
    else pure none

/-- The slice `grow_frontier` adds behind `s`. -/
def addedSlice (s : Slice) (newPages : Nat) : Slice := ⟨s.off + s.len, newPages - s.pages⟩

/-- `Arena::grow_frontier` on the slice `s` of the caller. -/
def growFrontier (s : Slice) (newPages : Nat) : ArenaAct Bool :=
  if s.pages = 0 || newPages ≤ s.pages || usizeLimit ≤ newPages * arenaAlign then pure false
  else do
    let owned ← Act.atomic fun _ w => (w, w.arena.contains (w.arena.start + s.off) s.len)
    if !owned then pure false
    else do
      let oldEnd := s.off + s.len
      let newEnd := oldEnd + (newPages * arenaAlign - s.len)
      let (bump, size) ← loadBump
      if size < newEnd || bump != oldEnd then pure false
      else if ← casBump oldEnd newEnd (addedSlice s newPages) then
        if ← commitRange (addedSlice s newPages) then pure true
        else do
          holesGive (addedSlice s newPages)
          pure false
      else pure false

/-- `Arena::release`: discard first, then park or abandon. -/
def release (s : Slice) : ArenaAct Unit :=
  if s.pages = 0 || usizeLimit ≤ s.len then pure ()
  else do
    discard s
    holesGive s

/-! ### Who holds what -/

/-- An operation is called on a slice at rest whose role is `want`ed: it moves to the operation. -/
def takeSlice (want : Role → Bool) : ArenaAct (Slice × Role) :=
  Act.atomicOk (fun e w => (w.pool[e.pick]?).any fun s => want s.2) fun e w =>
    let s := w.pool.getD e.pick (⟨0, 0⟩, .plain)
    ({ w with pool := w.pool.eraseIdx e.pick, hands := s.1 :: w.hands }, s)

/-- The operation is over: the slices it has in hand are at rest again, as one slice. -/
def settle (parts : List Slice) (s : Slice) (role : Role) : ArenaAct Unit :=
  Act.atomic fun _ w =>
    ({ w with hands := w.hands.diff parts, pool := (s, role) :: w.pool }, ())

/-- A caller of `Arena::commit` keeps the slice. -/
def commitOp (pages spins : Nat) : ArenaAct Unit := do
  match ← commit pages spins with
  | some (off, _) => settle [⟨off, pages⟩] ⟨off, pages⟩ .plain
  | none => pure ()

/-- A holder gives a slice back. -/
def releaseOp : ArenaAct Unit := do
  let (s, _) ← takeSlice (· = .plain)
  release s

/-- A holder tries to grow its slice. -/
def growOp (newPages : Nat) : ArenaAct Unit := do
  let (s, _) ← takeSlice (· = .plain)
  if ← growFrontier s newPages then
    settle [s, addedSlice s newPages] ⟨s.off, newPages⟩ .plain
  else settle [s] s .plain

end Arena

inductive ArenaOp where
  | commit (pages spins : Nat)
  | release
  | grow (newPages : Nat)

def arenaOps : ArenaOp → ArenaAct Unit
  | .commit pages spins => Arena.commitOp pages spins
  | .release => Arena.releaseOp
  | .grow newPages => Arena.growOp newPages

/-- An arena nobody has used, and threads that have not started. -/
def arenaStart (ι : Type) (size : Nat) : Pool ι ArenaWorld Unit ArenaEnv :=
  { shared := .new size, threads := fun _ => .done () () }

end Allox
