import Allox.Lib.ByteMemory
import Allox.SideTable

/-!
# The ownership check of `free`

`free` gets an address and nothing else. In the arena the side table says what the page belongs to; a
large region mapped by itself is found through the registry of headers, and then its header is read.
What neither knows is looked up through the bytes at the start of the page.

Threads work on the arena as before. A region outside it goes through stages of its own: its header is
written, it is counted, linked into the registry, and taken out again by `free`. The chain of a bucket
is a list here, so `registry_next` does not appear.
-/

namespace Allox

open Resumption

def pageMagic : Nat := 0xA110CCA7E5A11E5D
def spanMagic : Nat := 0xA110CCA75EED5A11
def spanSubmagic : Nat := 0xA110CCA75EED5A12
def bigMagic : Nat := 0x0A110CCA7B165A13
def largeMagic : Nat := 0x00B10C5A6E0FF1CE

def SpanTier.magic : SpanTier → Nat
  | medium => spanMagic
  | big => bigMagic

/-- A region outside the arena is cached, in the hands of a thread, or somewhere between the two
with a header in it. `user` says where that header ends. -/
inductive LegacyStage where
  | parked
  | hand
  | headed
  | counted
  | live
  deriving DecidableEq

structure LegacyRegion where
  base : Nat
  mapped : Nat
  user : Nat
  stage : LegacyStage

structure FreeWorld (ι : Type) where
  pool : Pool ι ArenaWorld Unit ArenaEnv
  mem : ByteMemory
  registry : Nat → List Nat
  registryLen : Nat
  regions : List LegacyRegion

/-- Where `dealloc_impl` sends an address. -/
inductive FreeRoute where
  | nothing
  | large
  | small
  | span (tier : SpanTier) (master : Nat)
  | corruptPointer
  deriving DecidableEq

/-! ### The probes

A probe reads memory, and faults on an unmapped address. -/

/-- `contains` of the two masters. -/
def spanContains (m : ByteMemory) (tier : SpanTier) (master p : Nat) : Option Bool := do
  let magic ← m.load master 8
  if magic ≠ tier.magic then pure false
  else
    let c ← m.load (master + 40) 2
    let npages ← m.load (master + 44) 4
    pure (c < tier.num && 0 < npages && master < p
      && p < (master + npages * pageSize) % usizeLimit)

/-- `large_header_of`. -/
def largeHeaderOf (m : ByteMemory) (p : Nat) : Option (Option (Nat × Nat)) :=
  if p < largeHeaderSize then pure none
  else
    let hdr := p - largeHeaderSize
    if hdr % minAlign ≠ 0 then pure none
    else do
      let magic ← m.load hdr 8
      if magic ≠ largeMagic then pure none
      else
        let mapped ← m.load (hdr + 8) 8
        let base ← m.load (hdr + 16) 8
        if mapped < largeHeaderSize || mapped % pageSize ≠ 0 then pure none
        else
          let off := (p + usizeLimit - base) % usizeLimit
          if off = 0 || mapped ≤ off then pure none else pure (some (base, mapped))

/-- `init_large_header`. -/
def initLargeHeader (m : ByteMemory) (hdr base mapped requested : Nat) : ByteMemory :=
  ((((m.store hdr largeMagic 8).store (hdr + 8) mapped 8).store (hdr + 16) base 8).store (hdr + 24)
    requested 8).store (hdr + 32) 0 8

namespace FreeWorld

variable {ι : Type} (w : FreeWorld ι)

def legacyLargeContains (p : Nat) : Bool :=
  if w.registryLen = 0 then false
  else if p < largeHeaderSize || (p - largeHeaderSize) % minAlign ≠ 0 then false
  else
    let expected := p - largeHeaderSize
    (w.registry (legacyBucket expected)).contains expected

def largeRegionKnown (p : Nat) : Option Bool :=
  if w.pool.shared.arena.contains p 1 then pure (w.pool.shared.largeTableGet p ≠ 0)
  else if w.legacyLargeContains p then do
    let header ← largeHeaderOf w.mem p
    pure header.isSome
  else pure false

/-- `SpanMaster::of`; null is zero. -/
def spanMasterOf (p : Nat) : Option Nat :=
  if w.pool.shared.arena.contains p 1 then pure (w.pool.shared.mediumTableGet p)
  else
    let base := p / pageSize * pageSize
    do
      let magic ← w.mem.load base 8
      if magic = spanMagic then pure base
      else if magic = spanSubmagic then w.mem.load (base + 8) 8
      else pure 0

/-- Whether the span that `of` finds claims `p`. -/
def spanProbe (p : Nat) : Option Bool := do
  let span ← w.spanMasterOf p
  if span = 0 then pure false else spanContains w.mem .medium span p

/-- The last part of `dealloc_impl`: the page header, then the span. -/
def pageProbe (p : Nat) : Option FreeRoute := do
  let maskedMagic ← w.mem.load (p / pageSize * pageSize) 8
  if maskedMagic = pageMagic then pure .small
  else
    let span ← w.spanMasterOf p
    if ← w.spanProbe p then pure (.span .medium span) else pure .corruptPointer

/-- `dealloc_impl` up to the free it selects, if no read faults. -/
def deallocImpl (p : Nat) : Option FreeRoute :=
  let a := w.pool.shared
  if p = 0 then pure .nothing
  else if p < largeHeaderSize then pure .corruptPointer
  else if a.arena.contains p 1 then
    if a.largeTableGet p ≠ 0 then pure .large
    else if a.mediumTableGet p ≠ 0 then do
      if ← spanContains w.mem .medium (a.mediumTableGet p) p
      then pure (.span .medium (a.mediumTableGet p)) else pure .corruptPointer
    else if a.bigTableGet p ≠ 0 then do
      if ← spanContains w.mem .big (a.bigTableGet p) p
      then pure (.span .big (a.bigTableGet p)) else pure .corruptPointer
    else w.pageProbe p
  else do
    if ← w.largeRegionKnown p then pure .large else w.pageProbe p

/-! ### The registry -/

def registerLegacyLarge (hdr : Nat) : FreeWorld ι :=
  let bucket := legacyBucket hdr
  { w with registry := Function.update w.registry bucket (hdr :: w.registry bucket) }

def unregisterLegacyLarge (hdr : Nat) : FreeWorld ι :=
  let bucket := legacyBucket hdr
  if (w.registry bucket).contains hdr then
    { w with
      registry := Function.update w.registry bucket ((w.registry bucket).erase hdr)
      registryLen := w.registryLen - 1 }
  else w

end FreeWorld

/-! ### Steps -/

def LegacyStage.hasHeader : LegacyStage → Bool
  | parked => false
  | hand => false
  | headed => true
  | counted => true
  | live => true

namespace LegacyRegion

def hdr (r : LegacyRegion) : Nat := r.user - largeHeaderSize

def Apart (r x : LegacyRegion) : Prop :=
  r.base + r.mapped ≤ x.base ∨ x.base + x.mapped ≤ r.base

/-- The reservation of the arena is somewhere else. -/
def Outside (r : LegacyRegion) (a : Arena) : Prop :=
  a.status = .ready → r.base + r.mapped ≤ a.start ∨ a.limit ≤ r.base

end LegacyRegion

variable {ι : Type} [DecidableEq ι]

/-- One step of anybody. The OS maps whole kernel pages where nothing is mapped, and never at zero.
Memory is the program's own except for the first three words of a header, which only the allocator
writes. -/
inductive FreeStep : FreeWorld ι → FreeWorld ι → Prop
  | arena {w : FreeWorld ι} (pool : Pool ι ArenaWorld Unit ArenaEnv)
      (hstep : Resumption.Step tableOps w.pool pool)
      (hstart : pool.shared.arena.status = .ready → 0 < pool.shared.arena.start)
      (houtside : ∀ r ∈ w.regions, r.Outside pool.shared.arena) :
      FreeStep w { w with pool }
  | memory {w : FreeWorld ι} (mem : ByteMemory)
      (hheaders : ∀ r ∈ w.regions, r.stage.hasHeader → ∀ i < 24, mem (r.hdr + i) = w.mem (r.hdr + i)) :
      FreeStep w { w with mem }
  | map {w : FreeWorld ι} (r : LegacyRegion) (hstage : r.stage = .hand) (hbase : 0 < r.base)
      (hkernel : 4096 ∣ r.base) (hpages : pageSize ∣ r.mapped) (hmapped : 0 < r.mapped)
      (hend : r.base + r.mapped ≤ usizeLimit) (hapart : ∀ x ∈ w.regions, r.Apart x)
      (houtside : r.Outside w.pool.shared.arena) :
      FreeStep w { w with regions := r :: w.regions }
  | initHeader {w : FreeWorld ι} (r : LegacyRegion) (rest : List LegacyRegion)
      (size alignLog : Nat) (hperm : w.regions.Perm (r :: rest)) (hstage : r.stage = .hand)
      (hsize : 0 < size)
      (hfits : alignUp (r.base + largeHeaderSize) (2 ^ alignLog) + size ≤ r.base + r.mapped) :
      FreeStep w
        { w with
          mem := initLargeHeader w.mem (largeHeaderAt r.base (2 ^ alignLog)) r.base r.mapped size
          regions := { r with
            user := alignUp (r.base + largeHeaderSize) (2 ^ alignLog), stage := .headed } :: rest }
  | count {w : FreeWorld ι} (r : LegacyRegion) (rest : List LegacyRegion)
      (hperm : w.regions.Perm (r :: rest)) (hstage : r.stage = .headed) :
      FreeStep w
        { w with
          registryLen := w.registryLen + 1
          regions := { r with stage := .counted } :: rest }
  | register {w : FreeWorld ι} (r : LegacyRegion) (rest : List LegacyRegion)
      (hperm : w.regions.Perm (r :: rest)) (hstage : r.stage = .counted) :
      FreeStep w
        { w.registerLegacyLarge r.hdr with regions := { r with stage := .live } :: rest }
  | unregister {w : FreeWorld ι} (r : LegacyRegion) (rest : List LegacyRegion)
      (hperm : w.regions.Perm (r :: rest)) (hstage : r.stage = .live) :
      FreeStep w
        { w.unregisterLegacyLarge r.hdr with regions := { r with stage := .hand } :: rest }
  | park {w : FreeWorld ι} (r : LegacyRegion) (rest : List LegacyRegion)
      (hperm : w.regions.Perm (r :: rest)) (hstage : r.stage = .hand) :
      FreeStep w { w with regions := { r with stage := .parked } :: rest }
  | take {w : FreeWorld ι} (r : LegacyRegion) (rest : List LegacyRegion)
      (hperm : w.regions.Perm (r :: rest)) (hstage : r.stage = .parked) :
      FreeStep w { w with regions := { r with stage := .hand } :: rest }
  | unmap {w : FreeWorld ι} (r : LegacyRegion) (rest : List LegacyRegion)
      (hperm : w.regions.Perm (r :: rest)) (hstage : r.stage = .hand) :
      FreeStep w { w with regions := rest }

def FreeWorld.new (ι : Type) : FreeWorld ι :=
  { pool := arenaStart ι arenaSize, mem := fun _ => none, registry := fun _ => [], registryLen := 0,
    regions := [] }

inductive FreeReach : FreeWorld ι → Prop
  | new : FreeReach (FreeWorld.new ι)
  | step {w w' : FreeWorld ι} (hreach : FreeReach w) (hstep : FreeStep w w') : FreeReach w'

end Allox
