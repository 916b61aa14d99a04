import Allox.BigGrowth

/-!
# The entry points

`GlobalAlloc` on unix with std. A request is routed by its size and alignment alone, and so is a free;
`realloc` also decides by sizes when the block can stay. What the layers below answer is from outside:
the free block of a class that is handed out, the cached regions and the mappings, the frontier. What is
in the blocks is left out.
-/

namespace Allox

/-- A layout with a nonzero size. -/
structure Layout where
  size : Nat
  alignLog : Nat
  pos : 0 < size
  size_lt : size < 2 ^ 63
  log_lt : alignLog < 64

def Layout.align (lay : Layout) : Nat := 2 ^ lay.alignLog

/-- A block as it was made: carved for a class of a packed tier, or in a region of its own. -/
inductive Backing where
  | small (cls : Fin numClasses) (p : Nat)
  | span (t : SpanTier) (cls : Fin t.num) (p : Nat)
  | large (r : LargeBlock)

namespace Backing

def ptr : Backing → Nat
  | small _ p => p
  | span _ _ p => p
  | large r => r.p

/-- The bytes from the pointer on. -/
def capacity : Backing → Nat
  | small cls _ => classSize cls
  | span t cls _ => t.blockSize cls
  | large r => r.capacity

/-- `try_grow_large_frontier`, which knows the pointers of large regions only. -/
def tryGrow (a : Reservation) (f : Frontier) (size : Nat) : Backing → Option Backing
  | large r => (r.tryGrowLargeFrontier a f size).map large
  | _ => none

end Backing

/-- What the side tables have for the pointer. Behind a large region there can be a stale entry in the
big table. -/
def Reservation.lookup (a : Reservation) (stale : Option (Fin SpanTier.big.num)) : Backing → BigLookup
  | .large r => ⟨a.contains r.p 1, a.contains r.p 1, stale⟩
  | .span .big cls _ => ⟨true, false, some cls⟩
  | b => ⟨a.contains b.ptr 1, false, none⟩

def SpanTier.classOf (t : SpanTier) (size : Nat) : Fin t.num :=
  ⟨t.classForSize size, Nat.lt_of_le_of_lt (scanFrom_le _ _ _ _) (by cases t <;> decide)⟩

/-- The free blocks of each class, in the caches of the threads and in the heap. -/
structure Pools where
  small : Fin numClasses → List Backing
  spans : (t : SpanTier) → Fin t.num → List Backing

/-- Where a block of a class is from. -/
inductive Pick where
  | free (i : Nat)
  | carved (p : Nat)
  | unavailable

/-- The block picked, and the free blocks left. -/
def Pick.take (pick : Pick) (pool : List Backing) (carve : Nat → Backing) :
    Option (Backing × List Backing) :=
  match pick with
  | free i => pool[i]?.map fun b => (b, pool.eraseIdx i)
  | carved p => some (carve p, pool)
  | unavailable => none

/-- What an allocation meets. -/
structure Answers where
  pick : Pick
  env : LargeEnv
  caches : RegionCaches

def Answers.allocLarge (e : Answers) (size align : Nat) (zeroed : Bool) : Option Backing :=
  (e.caches.allocLargeEx e.env size align zeroed 0).2.map fun x => .large x.block

/-- What a free meets: whether the thread has a cache to use, and the big table behind a region. -/
structure FreeAnswers where
  cached : Bool
  stale : Option (Fin SpanTier.big.num)

/-- What a `realloc` meets: for a promotion, for two tries at the frontier, and for a move. -/
structure ReallocAnswers where
  promotion : Answers
  frontier : Frontier
  again : Frontier
  move : Answers
  free : FreeAnswers

/-- Must this size and alignment be served by the large-region path? -/
def needsLarge (size align : Nat) : Bool := minAlign < align || maxBigBlock < size

/-- The identity test of `realloc_slow` for two medium sizes. -/
def sameMediumClass (align old new : Nat) : Bool :=
  align ≤ minAlign && maxSmallSize < old && old ≤ maxMediumBlock && maxSmallSize < new
    && new ≤ maxMediumBlock && SpanTier.medium.classForSize old == SpanTier.medium.classForSize new

inductive Resized where
  | stays (b : Backing)
  | moved (b : Backing)
  | failed

namespace Pools

def setSmall (h : Pools) (cls : Fin numClasses) (pool : List Backing) : Pools :=
  { h with small := Function.update h.small cls pool }

def setSpans (h : Pools) (t : SpanTier) (cls : Fin t.num) (pool : List Backing) : Pools :=
  { h with spans := Function.update h.spans t (Function.update (h.spans t) cls pool) }

def pushSmall (h : Pools) (cls : Fin numClasses) (b : Backing) : Pools :=
  h.setSmall cls (b :: h.small cls)

def pushSpan (h : Pools) (t : SpanTier) (cls : Fin t.num) (b : Backing) : Pools :=
  h.setSpans t cls (b :: h.spans t cls)

/-- A block goes back where it was carved, a region to the caches of regions. -/
def release (h : Pools) : Backing → Pools
  | .small cls p => h.pushSmall cls (.small cls p)
  | .span t cls p => h.pushSpan t cls (.span t cls p)
  | .large _ => h

/-! ### Allocation -/

def allocSmall (h : Pools) (pick : Pick) (cls : Fin numClasses) : Pools × Option Backing :=
  match pick.take (h.small cls) (.small cls) with
  | none => (h, none)
  | some (b, left) => (h.setSmall cls left, some b)

/-- `alloc_medium` and `alloc_big`. -/
def allocSpan (h : Pools) (pick : Pick) (t : SpanTier) (cls : Fin t.num) : Pools × Option Backing :=
  match pick.take (h.spans t cls) (.span t cls) with
  | none => (h, none)
  | some (b, left) => (h.setSpans t cls left, some b)

/-- The big tier, where a large region stands in if there is no block. -/
def allocBig (h : Pools) (e : Answers) (size align : Nat) (zeroed : Bool) : Pools × Option Backing :=
  match h.allocSpan e.pick .big (SpanTier.big.classOf size) with
  | (h, none) => (h, e.allocLarge size align zeroed)
  | (h, some b) => (h, some b)

def allocTiered (h : Pools) (e : Answers) (size align : Nat) : Pools × Option Backing :=
  if needsLarge size align then (h, e.allocLarge size align false)
  else if maxMediumBlock < size then h.allocBig e size align false
  else if maxSmallSize < size then h.allocSpan e.pick .medium (SpanTier.medium.classOf size)
  else h.allocSmall e.pick (classForSize size)

def allocImpl (h : Pools) (e : Answers) (size align : Nat) : Pools × Option Backing :=
  if size ≤ maxSmallSize && align ≤ minAlign then h.allocSmall e.pick (classForSize size)
  else h.allocTiered e size align

def allocZeroedImpl (h : Pools) (e : Answers) (size align : Nat) : Pools × Option Backing :=
  if needsLarge size align then (h, e.allocLarge size align true)
  else if maxMediumBlock < size then h.allocBig e size align true
  else if maxSmallSize < size then h.allocSpan e.pick .medium (SpanTier.medium.classOf size)
  else h.allocSmall e.pick (classForSize size)

/-! ### Release -/

/-- `dealloc_tiered`; none where it aborts. -/
def deallocTiered (h : Pools) (a : Reservation) (e : FreeAnswers) (b : Backing) (size align : Nat) :
    Option Pools :=
  if needsLarge size align then some h
  else if maxMediumBlock < size then
    let look := a.lookup e.stale b
    if !look.arena || look.large then some h
    else
      match look.big with
      | none => none
      | some cls => some (if e.cached then h.pushSpan .big cls b else h.release b)
  else
    some (if e.cached then h.pushSpan .medium (SpanTier.medium.classOf size) b else h.release b)

def deallocWithLayout (h : Pools) (a : Reservation) (e : FreeAnswers) (b : Backing)
    (size align : Nat) : Option Pools :=
  if size ≤ maxSmallSize && align ≤ minAlign then
    some (if e.cached then h.pushSmall (classForSize size) b else h.release b)
  else h.deallocTiered a e b size align

/-! ### Reallocation -/

def reallocSmall (h : Pools) (e : ReallocAnswers) (b : Backing) (old new : Nat) : Pools × Resized :=
  match h.allocSmall e.move.pick (classForSize new) with
  | (h, none) => (h, .failed)
  | (h, some b') =>
      (if e.free.cached then h.pushSmall (classForSize old) b else h.release b, .moved b')

/-- Growth from one big size to another: the promotion, else the region grows where it is. -/
def reallocBig (h : Pools) (a : Reservation) (e : ReallocAnswers) (b : Backing) (lay : Layout)
    (new : Nat) : Option (Pools × Resized) :=
  if lay.align ≤ minAlign && maxMediumBlock < lay.size && maxMediumBlock < new then
    match (if new ≤ maxBigBlock && lay.size ≤ maxBigBlock then
        tryPromoteBigGrow e.promotion.env e.promotion.caches (a.lookup e.free.stale b) new lay.align
      else none) with
    | some x => some (h.release b, .moved (.large x.block))
    | none => (b.tryGrow a e.frontier new).map fun b' => (h, .stays b')
  else none

def reallocLarge (h : Pools) (a : Reservation) (e : ReallocAnswers) (b : Backing) (lay : Layout)
    (new : Nat) : Option (Pools × Resized) :=
  if minAlign < lay.align || maxBigBlock < lay.size then
    (b.tryGrow a e.again new).map fun b' => (h, .stays b')
  else none

/-- The end of `realloc_slow`: allocate, copy and free. -/
def reallocMove (h : Pools) (a : Reservation) (e : ReallocAnswers) (b : Backing) (lay : Layout)
    (new : Nat) : Option (Pools × Resized) :=
  match h.allocImpl e.move new lay.align with
  | (h, none) => some (h, .failed)
  | (h, some b') => (h.deallocWithLayout a e.free b lay.size lay.align).map fun h => (h, .moved b')

def reallocSlow (h : Pools) (a : Reservation) (e : ReallocAnswers) (b : Backing) (lay : Layout)
    (new : Nat) : Option (Pools × Resized) :=
  if lay.align ≤ minAlign && lay.size ≤ maxSmallSize && new ≤ maxSmallSize then
    some (h.reallocSmall e b lay.size new)
  else if sameMediumClass lay.align lay.size new then some (h, .stays b)
  else if sameBigClass (.global lay.align) lay.size new then some (h, .stays b)
  else
    match h.reallocBig a e b lay new with
    | some r => some r
    | none =>
        match h.reallocLarge a e b lay new with
        | some r => some r
        | none => h.reallocMove a e b lay new

def realloc (h : Pools) (a : Reservation) (e : ReallocAnswers) (b : Backing) (lay : Layout)
    (new : Nat) : Option (Pools × Resized) :=
  if lay.align ≤ minAlign && lay.size ≤ maxSmallSize && new ≤ maxSmallSize
      && classForSize lay.size == classForSize new then
    some (h, .stays b)
  else h.reallocSlow a e b lay new

end Pools

/-! ### Requests -/

/-- A live block with its current layout. -/
structure Allocation where
  layout : Layout
  block : Backing

structure Allocations where
  live : List Allocation
  pools : Pools

inductive Request where
  | alloc (lay : Layout) (zeroed : Bool) (e : Answers)
  | dealloc (i : Nat) (e : FreeAnswers)
  | realloc (i : Nat) (new : Nat) (pos : 0 < new) (size_lt : new < 2 ^ 63) (e : ReallocAnswers)

/-- The layout after a `realloc`. -/
def Layout.resize (lay : Layout) (new : Nat) (pos : 0 < new) (size_lt : new < 2 ^ 63) : Layout :=
  { lay with size := new, pos, size_lt }

namespace Allocations

def empty : Allocations := { live := [], pools := { small := fun _ => [], spans := fun _ _ => [] } }

/-- The live blocks after a `realloc` of the `i`th. -/
def resized (s : Allocations) (i : Nat) (lay : Layout) : Pools × Resized → Allocations
  | (h, .failed) => { s with pools := h }
  | (h, .stays b) => { live := s.live.set i ⟨lay, b⟩, pools := h }
  | (h, .moved b) => { live := s.live.set i ⟨lay, b⟩, pools := h }

/-- One call; none if it aborts or the block is not live. -/
def step (a : Reservation) (s : Allocations) : Request → Option Allocations
  | .alloc lay zeroed e =>
      match (if zeroed then s.pools.allocZeroedImpl e lay.size lay.align
        else s.pools.allocImpl e lay.size lay.align) with
      | (h, none) => some { s with pools := h }
      | (h, some b) => some { live := ⟨lay, b⟩ :: s.live, pools := h }
  | .dealloc i e => do
      let x ← s.live[i]?
      let h ← s.pools.deallocWithLayout a e x.block x.layout.size x.layout.align
      pure { live := s.live.eraseIdx i, pools := h }
  | .realloc i new pos size_lt e => do
      let x ← s.live[i]?
      let r ← s.pools.realloc a e x.block x.layout new
      pure (s.resized i (x.layout.resize new pos size_lt) r)

end Allocations

end Allox
