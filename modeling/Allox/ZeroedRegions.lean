import Allox.Proof.LargePlacement
import Allox.Proof.Conservation

/-!
# Regions that need no memset

The large tier next to the bytes of memory. A region goes from hand to hand whole: out of a mapping, a stash
or a shard, through `alloc_large_ex` to a user, and back through `free_large`. Each access of a stash and of
a shard is one step, and so is each purge, each header that is written and each byte of a user. What
`map_large_region` returns reads as zero, and so does what a discard reports as zeroed.
-/

namespace Allox

open Function

/-- A byte of the extent, given as base and pages. -/
def InExtent (e : Nat × Nat) (a : Nat) : Prop := e.1 ≤ a ∧ a < e.1 + e.2 * pageSize

/-- A region with its header, about to be returned at `ret`; `zeroed` is `known_zeroed`. -/
structure PlacedRegion where
  region : Nat × Nat
  ret : Nat
  size : Nat
  zeroed : Bool

/-- `ι` are the caches, of threads or retired. Regions in `hand` are carried by some thread, which knows
whether they are zero. -/
structure RegionStore (ι : Type) where
  stashes : ι → ThreadCache
  shards : Fin numLargeShards → LargeRegionCache
  hand : Multiset ((Nat × Nat) × Bool)
  placed : Multiset PlacedRegion
  live : Multiset (Nat × Nat)
  mem : Nat → UInt8

/-- The entries of a shard, hot and cold. -/
def LargeRegionCache.items (s : LargeRegionCache) : Multiset TakenRegion := s.hot.items + s.cold.items

def TakenRegion.region (x : TakenRegion) : Nat × Nat := (x.base, x.pages)

namespace RegionStore

variable {ι : Type}

def new (ι : Type) (mem : Nat → UInt8) : RegionStore ι :=
  { stashes := fun _ => .new, shards := fun _ => .new, hand := 0, placed := 0, live := 0, mem }

/-- All regions there are. -/
def regions [Fintype ι] (s : RegionStore ι) : Multiset (Nat × Nat) :=
  s.hand.map Prod.fst + (s.placed.map PlacedRegion.region + (s.live
    + (∑ t, (s.stashes t).largeEntries + ∑ i, (s.shards i).items.map TakenRegion.region)))

/-- What `zero_large_allocation` writes. -/
def zeroLargeAllocation (mem : Nat → UInt8) (p size : Nat) (knownZeroed : Bool) (a : Nat) : UInt8 :=
  if knownZeroed = false ∧ p ≤ a ∧ a < p + size then 0 else mem a

/-- A region for which there was no room goes on to `unmap_or_return`. -/
def dropped (e : Nat × Nat) : Fate → Multiset ((Nat × Nat) × Bool)
  | .unmap _ => {(e, false)}
  | _ => 0

inductive Step [Fintype ι] [DecidableEq ι] : RegionStore ι → RegionStore ι → Prop
  /-- `map_large_region`. -/
  | map {s : RegionStore ι} (e : Nat × Nat) (mem : Nat → UInt8) (hextents : Extents ({e} + s.regions))
      (hbelow : e.1 + e.2 * pageSize ≤ addressLimit) (helsewhere : ∀ a, ¬InExtent e a → mem a = s.mem a)
      (hzero : ∀ a, InExtent e a → mem a = 0) :
      Step s { s with hand := {(e, true)} + s.hand, mem }
  /-- `unmap_or_return`. -/
  | unmap {s : RegionStore ι} (e : Nat × Nat) (zeroed : Bool) (hand : Multiset ((Nat × Nat) × Bool))
      (hhand : s.hand = {(e, zeroed)} + hand) :
      Step s { s with hand }
  /-- `take_large_stash`, and `flush_all`, which takes them all. -/
  | takeStash {s : RegionStore ι} (t : ι) (i : Nat) (hi : i < (s.stashes t).largeLen) :
      Step s { s with
        stashes := update s.stashes t ((s.stashes t).removeStash i).2
        hand := {(((s.stashes t).removeStash i).1, false)} + s.hand }
  | pushStash {s : RegionStore ι} (t : ι) (e : Nat × Nat) (zeroed : Bool)
      (hand : Multiset ((Nat × Nat) × Bool)) (c : ThreadCache) (hhand : s.hand = {(e, zeroed)} + hand)
      (hpush : (s.stashes t).pushLargeStash e.1 e.2 = some c) :
      Step s { s with stashes := update s.stashes t c, hand }
  | takeFit {s : RegionStore ι} (i : Fin numLargeShards) (mapped : Nat) (x : TakenRegion)
      (htake : ((s.shards i).takeFit mapped).2 = some x) :
      Step s { s with
        shards := update s.shards i ((s.shards i).takeFit mapped).1
        hand := {(x.region, x.zeroed)} + s.hand }
  /-- The section of `free_large`, with the discard in it. -/
  | park {s : RegionStore ι} (i : Fin numLargeShards) (e : Nat × Nat) (zeroed : Bool) (d : Discarded)
      (hand : Multiset ((Nat × Nat) × Bool)) (mem : Nat → UInt8) (hhand : s.hand = {(e, zeroed)} + hand)
      (helsewhere : ∀ a, ¬InExtent e a → mem a = s.mem a)
      (hzero : d.zeroed = true → ((s.shards i).park d e.1 e.2 (e.2 * pageSize)).2 = .cooled d →
        ∀ a, InExtent e a → mem a = 0) :
      Step s { s with
        shards := update s.shards i ((s.shards i).park d e.1 e.2 (e.2 * pageSize)).1
        hand := dropped e ((s.shards i).park d e.1 e.2 (e.2 * pageSize)).2 + hand
        mem }
  /-- `purge_for_handoff`. -/
  | purge {s : RegionStore ι} (e : Nat × Nat) (zeroed : Bool) (d : Discarded)
      (hand : Multiset ((Nat × Nat) × Bool)) (mem : Nat → UInt8) (hhand : s.hand = {(e, zeroed)} + hand)
      (helsewhere : ∀ a, ¬InExtent e a → mem a = s.mem a)
      (hzero : d.zeroed = true → ∀ a, InExtent e a → mem a = 0) :
      Step s { s with hand := {(e, d.zeroed)} + hand, mem }
  /-- The header is written before the aligned pointer, if there is room. No layout has a larger size. -/
  | place {s : RegionStore ι} (e : Nat × Nat) (zeroed : Bool) (hand : Multiset ((Nat × Nat) × Bool))
      (size alignLog : Nat) (mem : Nat → UInt8) (hhand : s.hand = {(e, zeroed)} + hand)
      (hlog : alignLog < 64) (hsize : size < 2 ^ 63)
      (hfits : placeFits e.1 (e.2 * pageSize) size (2 ^ alignLog) = true)
      (helsewhere : ∀ a, ¬(placeAt e.1 (2 ^ alignLog) - largeHeaderSize ≤ a ∧
        a < placeAt e.1 (2 ^ alignLog)) → mem a = s.mem a) :
      Step s { s with
        hand
        placed := {⟨e, placeAt e.1 (2 ^ alignLog), size, zeroed⟩} + s.placed
        mem }
  /-- `alloc_large` returns the region as it is. -/
  | give {s : RegionStore ι} (x : PlacedRegion) (placed : Multiset PlacedRegion)
      (hplaced : s.placed = {x} + placed) :
      Step s { s with placed, live := {x.region} + s.live }
  /-- `alloc_zeroed_impl` returns the region. -/
  | giveZeroed {s : RegionStore ι} (x : PlacedRegion) (placed : Multiset PlacedRegion)
      (hplaced : s.placed = {x} + placed) :
      Step s { s with
        placed
        live := {x.region} + s.live
        mem := zeroLargeAllocation s.mem x.ret x.size x.zeroed }
  /-- `unregister_legacy_large` writes to the header of another region. -/
  | header {s : RegionStore ι} (x : PlacedRegion) (a : Nat) (v : UInt8) (hplaced : x ∈ s.placed)
      (ha : InExtent x.region a) (hbefore : a < x.ret) :
      Step s { s with mem := update s.mem a v }
  /-- `free_large` has the region out of the registry. -/
  | free {s : RegionStore ι} (e : Nat × Nat) (live : Multiset (Nat × Nat)) (hlive : s.live = {e} + live) :
      Step s { s with hand := {(e, false)} + s.hand, live }
  /-- A user writes to its region, or the allocator to its header. -/
  | write {s : RegionStore ι} (e : Nat × Nat) (live : Multiset (Nat × Nat)) (a : Nat) (v : UInt8)
      (hlive : s.live = {e} + live) (ha : InExtent e a) :
      Step s { s with mem := update s.mem a v }
  /-- `try_grow_large_frontier`. -/
  | grow {s : RegionStore ι} (e : Nat × Nat) (added : Nat) (live : Multiset (Nat × Nat))
      (mem : Nat → UInt8) (hlive : s.live = {e} + live)
      (hextents : Extents ({(e.1, e.2 + added)} + regions { s with live }))
      (hbelow : e.1 + (e.2 + added) * pageSize ≤ addressLimit)
      (helsewhere : ∀ a, ¬InExtent (e.1, e.2 + added) a → mem a = s.mem a) :
      Step s { s with live := {(e.1, e.2 + added)} + live, mem }

/-- Any run, from any memory. -/
inductive Reach [Fintype ι] [DecidableEq ι] : RegionStore ι → Prop
  | new (mem : Nat → UInt8) : Reach (new ι mem)
  | step {s s' : RegionStore ι} (h : Reach s) (hstep : Step s s') : Reach s'

end RegionStore

end Allox
