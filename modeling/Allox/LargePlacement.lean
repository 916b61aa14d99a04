import Allox.Cache
import Allox.Arena

/-!
# Placing a large request

The length to map is computed with checked additions. The region then comes from the stash of the
calling thread, from a shard, or from a mapping of its own; the header goes right before the aligned
pointer, in arithmetic that wraps at the width of a word. A cached region that turns out too small is
evicted, and the next source is tried.
-/

namespace Allox

def checkedAdd (a b : Nat) : Option Nat := if a + b < usizeLimit then some (a + b) else none

/-- The length `alloc_large_ex` maps, if no checked addition overflows. -/
def mappedLength (size align slack : Nat) : Option Nat := do
  let total ← checkedAdd size align
  let total ← checkedAdd total largeHeaderSize
  let total ← checkedAdd total slack
  let v ← checkedAdd (max total largeHeaderSize) (pageSize - 1)
  pure (v / pageSize * pageSize)

/-- `(mapped / PAGE_SIZE) as u32`. -/
def pageCount (mapped : Nat) : Nat := mapped / pageSize % 2 ^ 32

/-- `align_up` on words, for a power of two. -/
def alignUpWord (v align : Nat) : Nat :=
  ((v + align) % usizeLimit + (usizeLimit - 1)) % usizeLimit / align * align

/-- The user pointer in a region. -/
def placeAt (base align : Nat) : Nat := alignUpWord ((base + largeHeaderSize) % usizeLimit) align

/-- The test `ret + size <= base + region_size`. -/
def placeFits (base regionSize size align : Nat) : Bool :=
  (placeAt base align + size) % usizeLimit ≤ (base + regionSize) % usizeLimit

/-- What a successful `alloc_large_ex` returns, and the header it wrote at `hdr`. -/
structure Placement where
  ret : Nat
  hdr : Nat
  header : LargeHeader
  fresh : Bool
  knownZeroed : Bool

/-- The caches of freed regions, and the regions an allocation dropped from them. -/
structure RegionCaches where
  own : Option ThreadCache
  shards : Fin numLargeShards → LargeRegionCache
  evicted : List (Nat × Nat)

/-- What the outside decides: the address of the thread cache, whether a purge leaves a region zeroed,
and where a fresh region is mapped, if it is, and whether its memory is new. -/
structure LargeEnv where
  salt : Nat
  purged : Nat → Nat → Bool
  mapping : Nat → Option (Nat × Bool)

def placement (base regionSize size align : Nat) (fresh knownZeroed : Bool) : Placement :=
  let ret := placeAt base align
  { ret, hdr := ret - largeHeaderSize, header := ⟨regionSize, base, size⟩, fresh, knownZeroed }

namespace RegionCaches

def new : RegionCaches := { own := some .new, shards := fun _ => .new, evicted := [] }

variable (e : LargeEnv)

def evict (s : RegionCaches) (base bytes : Nat) : RegionCaches :=
  { s with evicted := (base, bytes) :: s.evicted }

/-- Tier 1. -/
def fromStash (s : RegionCaches) (mappedPages size align : Nat) (zeroedRequested : Bool) :
    RegionCaches × Option Placement :=
  match s.own.bind fun c => c.takeLargeStash mappedPages with
  | none => (s, none)
  | some ((base, pages), left) =>
      let s := { s with own := some left }
      let regionSize := pages * pageSize
      if placeFits base regionSize size align then
        (s, some (placement base regionSize size align false
          (zeroedRequested && e.purged base regionSize)))
      else (s.evict base regionSize, none)

/-- The shard a request looks into; the salt is 0 when there is no thread cache. -/
def shardOf (s : RegionCaches) (mappedPages : Nat) : Fin numLargeShards :=
  largeShard mappedPages (if s.own.isSome then e.salt else 0)

/-- Tiers 2 and 3. -/
def fromShard (s : RegionCaches) (mapped mappedPages size align : Nat) (zeroedRequested : Bool) :
    RegionCaches × Option Placement :=
  let i := s.shardOf e mappedPages
  match (s.shards i).takeFit mapped with
  | (_, none) => (s, none)
  | (left, some x) =>
      let s := { s with shards := Function.update s.shards i left }
      let regionSize := x.pages * pageSize
      if placeFits x.base regionSize size align then
        (s, some (placement x.base regionSize size align false
          (if zeroedRequested && !x.zeroed then e.purged x.base regionSize else x.zeroed)))
      else (s.evict x.base regionSize, none)

/-- A mapping of its own; one that is too small is unmapped again. -/
def fromMapping (mapped size align : Nat) : Option Placement :=
  match e.mapping mapped with
  | none => none
  | some (base, _) =>
      if placeFits base mapped size align then some (placement base mapped size align true true)
      else none

/-- `alloc_large_ex`. -/
def allocLargeEx (s : RegionCaches) (size align : Nat) (zeroedRequested : Bool) (slack : Nat) :
    RegionCaches × Option Placement :=
  match mappedLength size align slack with
  | none => (s, none)
  | some mapped =>
      let mappedPages := pageCount mapped
      match s.fromStash e mappedPages size align zeroedRequested with
      | (s, some x) => (s, some x)
      | (s, none) =>
          match s.fromShard e mapped mappedPages size align zeroedRequested with
          | (s, some x) => (s, some x)
          | (s, none) => (s, fromMapping e mapped size align)

end RegionCaches

end Allox
