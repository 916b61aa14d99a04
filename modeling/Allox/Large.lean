import Allox.SmallHeap

/-!
# Large regions

A large region is a mapping of its own with a header before the user pointer. Freed regions go to a
per-thread stash, then to one of eight shards, each with a hot and a cold array, then back to the
system. The arrays keep hints of where each page count was last seen.
-/

namespace Allox

def numLargeShards : Nat := 8
def largeShardSlots : Nat := 64
def largeShardCapBytes : Nat := 32 * 1024 * 1024
def largeColdCapBytes : Nat := 64 * 1024 * 1024
def largeColdSlots : Nat := 512
def largeExactMaxPages : Nat := largeColdCapBytes / pageSize
def emptyLargeIndex : Nat := 65535

/-- The hot array with its hints, or the cold one. Entries are (base, pages); nothing hot is
decommitted. -/
structure RegionArray where
  len : Nat
  bytes : Nat
  entries : Nat → Nat × Nat
  zeroed : Nat → Bool
  decommitted : Nat → Bool
  exact : Nat → Nat

/-- What `take_fit` returns. -/
structure TakenRegion where
  base : Nat
  pages : Nat
  zeroed : Bool
  decommitted : Bool

namespace RegionArray

def new : RegionArray :=
  { len := 0, bytes := 0, entries := fun _ => (0, 0), zeroed := fun _ => false,
    decommitted := fun _ => false, exact := fun _ => emptyLargeIndex }

/-- `refresh_large_exact`. -/
def refreshExact (a : RegionArray) (pages : Nat) : RegionArray :=
  if largeExactMaxPages < pages then a
  else
    let found := ((List.range a.len).find? fun i => (a.entries i).2 == pages).getD emptyLargeIndex
    { a with exact := Function.update a.exact pages found }

/-- `index_hot` and `index_cold`. -/
def index (a : RegionArray) (i pages : Nat) : RegionArray :=
  if largeExactMaxPages < pages then a
  else
    let current := a.exact pages
    if current = emptyLargeIndex then { a with exact := Function.update a.exact pages i }
    else if a.len ≤ current || (a.entries current).2 != pages then a.refreshExact pages
    else a

/-- `exact_hot` and `exact_cold`. -/
def exactAt (a : RegionArray) (wanted : Nat) : Option Nat :=
  if largeExactMaxPages < wanted then none
  else
    let i := a.exact wanted
    if i < a.len && (a.entries i).2 == wanted then some i else none

/-- The last entry moves from `last` into the gap at `i`. -/
def swapOut (a : RegionArray) (i last : Nat) : RegionArray :=
  { a with
    entries := Function.update (Function.update a.entries i (a.entries last)) last (0, 0)
    zeroed := Function.update (Function.update a.zeroed i (a.zeroed last)) last false
    decommitted := Function.update (Function.update a.decommitted i (a.decommitted last)) last false
    len := last
    bytes := a.bytes - (a.entries i).2 * pageSize }

/-- The hint of the entry that moved follows it. -/
def moveHint (a : RegionArray) (i last : Nat) : RegionArray :=
  let moved := (a.entries i).2
  if i < a.len && moved ≤ largeExactMaxPages && a.exact moved == last then
    { a with exact := Function.update a.exact moved i }
  else a

/-- The hint for the size that was removed is looked up again if it is off. -/
def dropHint (a : RegionArray) (i removed : Nat) : RegionArray :=
  let bucket := a.exact removed
  if removed ≤ largeExactMaxPages &&
      (bucket = i || a.len ≤ bucket || (a.entries bucket).2 != removed) then
    a.refreshExact removed
  else a

/-- `remove_hot` and `remove_cold`. -/
def remove (a : RegionArray) (i : Nat) : RegionArray × TakenRegion :=
  let last := a.len - 1
  let entry := a.entries i
  (((a.swapOut i last).moveHint i last).dropHint i entry.2,
    ⟨entry.1, entry.2, a.zeroed i, a.decommitted i⟩)

def push (a : RegionArray) (base pages mapped : Nat) (zeroed decommitted : Bool) : RegionArray :=
  let i := a.len
  let a := { a with
    entries := Function.update a.entries i (base, pages)
    zeroed := Function.update a.zeroed i zeroed
    decommitted := Function.update a.decommitted i decommitted
    len := i + 1
    bytes := a.bytes + mapped }
  a.index i pages

/-- The first entry of exactly this size. -/
def firstEqual (a : RegionArray) (wanted : Nat) : Option Nat :=
  (List.range a.len).find? fun i => (a.entries i).2 == wanted

/-- The smallest entry that fits, the first of them on a tie. -/
def bestFit (a : RegionArray) (mapped : Nat) : Option Nat :=
  (List.range a.len).foldl (fun best i =>
    let pages := (a.entries i).2
    if mapped ≤ pages * pageSize && best.all fun b => pages < (a.entries b).2 then some i
    else best) none

end RegionArray

structure LargeRegionCache where
  hot : RegionArray
  cold : RegionArray

namespace LargeRegionCache

def new : LargeRegionCache := { hot := .new, cold := .new }

def removeHot (s : LargeRegionCache) (i : Nat) : LargeRegionCache × TakenRegion :=
  let (hot, taken) := s.hot.remove i
  ({ s with hot }, taken)

def removeCold (s : LargeRegionCache) (i : Nat) : LargeRegionCache × TakenRegion :=
  let (cold, taken) := s.cold.remove i
  ({ s with cold }, taken)

/-- `take_fit`: exact sizes through the hints, then by search, hot before cold, then best fit. -/
def takeFit (s : LargeRegionCache) (mapped : Nat) : LargeRegionCache × Option TakenRegion :=
  let wanted := mapped / pageSize % 2 ^ 32
  let hot (i : Nat) := let (s, x) := s.removeHot i; (s, some x)
  let cold (i : Nat) := let (s, x) := s.removeCold i; (s, some x)
  match s.hot.exactAt wanted, s.cold.exactAt wanted, s.hot.firstEqual wanted,
    s.cold.firstEqual wanted, s.hot.bestFit mapped, s.cold.bestFit mapped with
  | some i, _, _, _, _, _ => hot i
  | none, some i, _, _, _, _ => cold i
  | none, none, some i, _, _, _ => hot i
  | none, none, none, some i, _, _ => cold i
  | none, none, none, none, some i, _ => hot i
  | none, none, none, none, none, some i => cold i
  | none, none, none, none, none, none => (s, none)

/-- The tail of `free_large` under the shard lock: hot, else cold with its memory dropped, else out. -/
def park (s : LargeRegionCache) (d : Discarded) (base pages mapped : Nat) :
    LargeRegionCache × Fate :=
  if s.hot.len < largeShardSlots && s.hot.bytes + mapped ≤ largeShardCapBytes then
    ({ s with hot := s.hot.push base pages mapped false false }, .keep)
  else if s.cold.len < largeColdSlots && s.cold.bytes + mapped ≤ largeColdCapBytes then
    let cold := s.cold.push base pages mapped d.zeroed (d.physical && !d.zeroed)
    ({ s with cold }, .cooled d)
  else (s, .unmap mapped)

end LargeRegionCache

instance : NeZero numLargeShards := ⟨by decide⟩

def largeShard (mappedPages salt : Nat) : Fin numLargeShards :=
  Fin.ofNat numLargeShards (mappedPages ^^^ (salt >>> 6))

/-- `magic` and `registry_next` are left out: the registry is kept beside the headers. -/
structure LargeHeader where
  mappedSize : Nat
  base : Nat
  requestedSize : Nat

def alignUp (v align : Nat) : Nat := (v + align - 1) / align * align

def largeRegistryBuckets : Nat := 4096

/-- Fibonacci hashing of the header's address. -/
def legacyBucket (hdr : Nat) : Nat :=
  ((hdr * 0x9E3779B97F4A7C15 % 2 ^ 64) >>> 52) &&& (largeRegistryBuckets - 1)

end Allox
