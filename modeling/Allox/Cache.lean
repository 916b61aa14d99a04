import Allox.SpanHeap
import Allox.Large

/-!
# The thread cache

Bins of free blocks by class, one active list a class for each span tier, a stash of large regions, and
the counters that decide when blocks go back. What is here touches the cache alone.

The counters are `usize` and `u32`. A subtraction that would go below zero, and a saturating one that
would saturate, is counted in `faults`, which is not in the code.
-/

namespace Allox

def defaultThreadCacheBudget : Nat := 32 * 1024 * 1024
def driftGateDiv : Nat := 2
def foreignShedDiv : Nat := 8
def largeStashSlots : Nat := 8
def largeStashCapBytes : Nat := 32 * 1024 * 1024
def largeStashHugeCapBytes : Nat := 64 * 1024 * 1024
def largeStashHugeThreshold : Nat := 4 * 1024 * 1024
def flushChunk : Nat := 2048
def retiredSlotCount : Nat := 8
def retiredSlotBytes : Nat := 8 * 1024 * 1024

/-- `MFLUSH_CHUNK` and `BFLUSH_CHUNK`. -/
def SpanTier.flushChunk : SpanTier → Nat
  | medium => 256
  | big => 64

/-- A `SmallBin`, or a `Bin` of a span tier with its entry of `mvirgin` or `bvirgin`. The last `virgin`
blocks of the chain have been dirtied in their link word only. -/
structure Bin where
  blocks : List Nat
  len : Nat
  virgin : Nat

/-- `ActiveMedium` and `ActiveBig`: the window is `[base, stop)`. -/
structure Active where
  span : Nat
  base : Nat
  stop : Nat
  list : Bin

/-- `bins`; `mbins` and `bigbins`; `mactive` and `bactive`. -/
structure ThreadCache where
  bins : Fin numClasses → Bin
  spanBins : (t : SpanTier) → Fin t.num → Bin
  active : (t : SpanTier) → Fin t.num → Active
  cachedBytes : Nat
  tierCachedBytes : Nat
  budget : Nat
  budgetEpoch : Nat
  foreignBytes : Nat
  exitArmed : Bool
  retiredReclaimed : Bool
  large : Nat → Nat × Nat
  largeLen : Nat
  largeBytes : Nat
  faults : Nat

namespace Bin

def empty : Bin := { blocks := [], len := 0, virgin := 0 }

/-- Taking the first block of the chain off: the block, and whether it was virgin. -/
def pop (b : Bin) : Option (Nat × Bool × Bin) :=
  match b.blocks with
  | [] => none
  | p :: rest =>
      let below := b.len - 1
      let zeroed := decide (below < b.virgin)
      some (p, zeroed,
        { blocks := rest, len := below, virgin := if zeroed then b.virgin - 1 else b.virgin })

def push (b : Bin) (p : Nat) : Bin := { b with blocks := p :: b.blocks, len := b.len + 1 }

end Bin

def Active.empty : Active := { span := 0, base := 0, stop := 0, list := .empty }

namespace ThreadCache

variable {t : SpanTier}

def new : ThreadCache :=
  { bins := fun _ => .empty
    spanBins := fun _ _ => .empty
    active := fun _ _ => .empty
    cachedBytes := 0
    tierCachedBytes := 0
    budget := defaultThreadCacheBudget
    budgetEpoch := 0
    foreignBytes := 0
    exitArmed := false
    retiredReclaimed := false
    large := fun _ => (0, 0)
    largeLen := 0
    largeBytes := 0
    faults := 0 }

def setBin (c : ThreadCache) (cls : Fin numClasses) (b : Bin) : ThreadCache :=
  { c with bins := Function.update c.bins cls b }

def setSpanBin (c : ThreadCache) (t : SpanTier) (cls : Fin t.num) (b : Bin) : ThreadCache :=
  { c with spanBins := Function.update c.spanBins t (Function.update (c.spanBins t) cls b) }

def setActive (c : ThreadCache) (t : SpanTier) (cls : Fin t.num) (a : Active) : ThreadCache :=
  { c with active := Function.update c.active t (Function.update (c.active t) cls a) }

def fault (c : ThreadCache) (bad : Bool) : ThreadCache :=
  if bad then { c with faults := c.faults + 1 } else c

/-- `cached_bytes -= n`. -/
def subCached (c : ThreadCache) (n : Nat) : ThreadCache :=
  { c.fault (c.cachedBytes < n) with cachedBytes := c.cachedBytes - n }

/-- The same and `tier_cached_bytes` with it. -/
def subTierCached (c : ThreadCache) (n : Nat) : ThreadCache :=
  { (c.subCached n).fault (c.tierCachedBytes < n) with tierCachedBytes := c.tierCachedBytes - n }

def addCached (c : ThreadCache) (n : Nat) : ThreadCache :=
  { c with cachedBytes := c.cachedBytes + n }

def addTierCached (c : ThreadCache) (n : Nat) : ThreadCache :=
  { c with cachedBytes := c.cachedBytes + n, tierCachedBytes := c.tierCachedBytes + n }

/-! ### Gates -/

/-- `saturating_mul(2)` on a `usize`. -/
def twice (n : Nat) : Nat := min (n * 2) (2 ^ 64 - 1)

/-- The subtraction saturates. -/
def smallCachedBytes (c : ThreadCache) : Nat := c.cachedBytes - c.tierCachedBytes

def driftGateOpen (c : ThreadCache) : Bool :=
  if c.tierCachedBytes = 0 then c.budget / driftGateDiv < c.cachedBytes
  else c.budget / driftGateDiv < c.smallCachedBytes
    || twice c.budget / driftGateDiv < c.tierCachedBytes

def driftGateOpenSmall (c : ThreadCache) (budget : Nat) : Bool :=
  budget / driftGateDiv < c.cachedBytes

def shouldShedSmall (c : ThreadCache) (budget : Nat) : Bool :=
  budget < c.cachedBytes || budget / foreignShedDiv ≤ c.foreignBytes

def shouldShed (c : ThreadCache) : Bool :=
  if c.tierCachedBytes = 0 then
    c.budget < c.cachedBytes || c.budget / foreignShedDiv ≤ c.foreignBytes
  else
    c.budget < c.smallCachedBytes || twice c.budget < c.tierCachedBytes
      || c.budget / foreignShedDiv ≤ c.foreignBytes

def smallFreeIsWarm (c : ThreadCache) : Bool :=
  c.exitArmed && c.cachedBytes ≤ c.budget / driftGateDiv

/-! ### Small bins -/

/-- The pop that opens `alloc`, `alloc_zeroed` and the second look of `refill`. -/
def popSmall (c : ThreadCache) (cls : Fin numClasses) : Option (Nat × Bool × ThreadCache) :=
  match (c.bins cls).pop with
  | none => none
  | some (p, zeroed, b) =>
      some (p, zeroed,
        ((c.setBin cls b).fault ((c.bins cls).len < 1)).subCached (classSize cls))

def pushSmall (c : ThreadCache) (cls : Fin numClasses) (p : Nat) : ThreadCache :=
  (c.setBin cls ((c.bins cls).push p)).addCached (classSize cls)

/-- The end of `refill`: the chain behind its first block goes into the bin. -/
def fillSmall (c : ThreadCache) (cls : Fin numClasses) (rest : List Nat) (count : Nat)
    (virgin : Bool) : ThreadCache :=
  (c.setBin cls
    { blocks := rest, len := (c.bins cls).len + (count - 1)
      virgin := if virgin then count - 1 else 0 }).addCached (classSize cls * (count - 1))

/-! ### The span tiers -/

/-- `active_medium_alloc` and `active_big_alloc`. When its list is empty the big window is cleared, the
medium one is not. -/
def activeAlloc (c : ThreadCache) (t : SpanTier) (cls : Fin t.num) :
    Option (Nat × Bool) × ThreadCache :=
  let a := c.active t cls
  match a.list.pop with
  | none => (none, if t = .big then c.setActive t cls .empty else c)
  | some (p, zeroed, b) =>
      (some (p, zeroed),
        ((c.setActive t cls { a with list := b }).fault (a.list.len < 1)).subTierCached
          (t.blockSize cls))

def popSpanBin (c : ThreadCache) (t : SpanTier) (cls : Fin t.num) :
    Option (Nat × Bool × ThreadCache) :=
  match (c.spanBins t cls).pop with
  | none => none
  | some (p, zeroed, b) =>
      some (p, zeroed,
        ((c.setSpanBin t cls b).fault ((c.spanBins t cls).len < 1)).subTierCached
          (t.blockSize cls))

/-- `active_medium_contains` looks at the window only, `active_big_contains` at the span too. -/
def activeContains (c : ThreadCache) (t : SpanTier) (cls : Fin t.num) (p span : Nat) : Bool :=
  let a := c.active t cls
  match t with
  | .medium => a.span ≠ 0 && a.base ≤ p && p < a.stop
  | .big => a.span = span && a.span ≠ 0 && a.base ≤ p && p < a.stop

/-- `active_medium_dealloc` and `active_big_dealloc`. -/
def activeDealloc (c : ThreadCache) (t : SpanTier) (cls : Fin t.num) (p : Nat) : ThreadCache :=
  let a := c.active t cls
  c.setActive t cls { a with list := a.list.push p }

def binDealloc (c : ThreadCache) (t : SpanTier) (cls : Fin t.num) (p : Nat) : ThreadCache :=
  c.setSpanBin t cls ((c.spanBins t cls).push p)

/-- A refill all of whose blocks are of one span makes that span the active one. -/
def fillActive (c : ThreadCache) (t : SpanTier) (cls : Fin t.num) (span mappedBytes : Nat)
    (rest : List Nat) (count : Nat) (virgin : Bool) : ThreadCache :=
  let c := c.setActive t cls
    { span, base := span, stop := span + mappedBytes
      list := { blocks := rest, len := count - 1, virgin := if virgin then count - 1 else 0 } }
  let c := c.addTierCached (t.blockSize cls * (count - 1))
  c.setSpanBin t cls { c.spanBins t cls with virgin := 0 }

/-- Any other refill goes into the bin: `mbins` has its length set, `bigbins` has it increased. -/
def fillSpanBin (c : ThreadCache) (t : SpanTier) (cls : Fin t.num) (rest : List Nat) (count : Nat)
    (virgin : Bool) : ThreadCache :=
  let len := if t = .medium then count - 1 else (c.spanBins t cls).len + (count - 1)
  (c.setSpanBin t cls
    { blocks := rest, len, virgin := if virgin then count - 1 else 0 }).addTierCached
      (t.blockSize cls * (count - 1))

/-! ### The large stash -/

def removeStash (c : ThreadCache) (i : Nat) : (Nat × Nat) × ThreadCache :=
  let last := c.largeLen - 1
  let entry := c.large i
  (entry,
    { c.fault (c.largeBytes < entry.2 * pageSize) with
      large := Function.update (Function.update c.large i (c.large last)) last (0, 0)
      largeLen := last
      largeBytes := c.largeBytes - entry.2 * pageSize })

/-- An entry of exactly the size, else the smallest that fits. -/
def takeLargeStash (c : ThreadCache) (pagesNeeded : Nat) : Option ((Nat × Nat) × ThreadCache) :=
  let indices := List.range c.largeLen
  match indices.find? fun i => (c.large i).2 == pagesNeeded with
  | some i => some (c.removeStash i)
  | none =>
      let best := indices.foldl (fun best i =>
        let pages := (c.large i).2
        if pagesNeeded ≤ pages && best.all fun b => pages < (c.large b).2 then some i
        else best) none
      best.map c.removeStash

def pushLargeStash (c : ThreadCache) (base pages : Nat) : Option ThreadCache :=
  let bytes := pages * pageSize
  let cap := if largeStashHugeThreshold ≤ bytes then largeStashHugeCapBytes else largeStashCapBytes
  if largeStashSlots ≤ c.largeLen || cap < c.largeBytes + bytes then none
  else some { c with
    large := Function.update c.large c.largeLen (base, pages)
    largeLen := c.largeLen + 1
    largeBytes := c.largeBytes + bytes }

/-! ### Choosing what to flush -/

/-- The class with the most bytes among those that may be chosen, the first of them on a tie. -/
def bestOf {n : Nat} (may : Fin n → Bool) (bytes : Fin n → Nat) : Option (Fin n × Nat) :=
  (List.finRange n).foldl (fun best i =>
    if may i && (best.map Prod.snd).getD 0 < bytes i then some (i, bytes i) else best) none

def bestBin (c : ThreadCache) : Option (Fin numClasses × Nat) :=
  bestOf (fun i => refillBatch < (c.bins i).len) fun i => (c.bins i).len * classSize i

def bestActive (c : ThreadCache) (t : SpanTier) : Option (Fin t.num × Nat) :=
  bestOf (fun i => 0 < (c.active t i).list.len) fun i => (c.active t i).list.len * t.blockSize i

def bestSpanBin (c : ThreadCache) (t : SpanTier) : Option (Fin t.num × Nat) :=
  bestOf (fun i => 0 < (c.spanBins t i).len) fun i => (c.spanBins t i).len * t.blockSize i

/-! ### Flushing, as far as the cache is concerned -/

/-- `b` joins the group of its page, or opens one. There is room for a group for each popped block. -/
def addToPage (groups : List PageReleaseChunk) (b : Nat) : List PageReleaseChunk :=
  match groups with
  | [] => [⟨pageOf b, [b], b, 1⟩]
  | g :: rest =>
      if g.page = pageOf b then { g with chain := g.chain ++ [b], tail := b, n := g.n + 1 } :: rest
      else g :: addToPage rest b

def addToSpan (groups : List ReleaseChunk) (span b : Nat) : List ReleaseChunk :=
  match groups with
  | [] => [⟨span, [b], b, 1⟩]
  | g :: rest =>
      if g.span = span then { g with chain := g.chain ++ [b], tail := b, n := g.n + 1 } :: rest
      else g :: addToSpan rest span b

/-- The inner loop of `flush_bin`, at most `n` pops. -/
def flushPops (cls : Fin numClasses) (floor : Nat) : Nat → ThreadCache → List PageReleaseChunk →
    ThreadCache × List PageReleaseChunk
  | 0, c, groups => (c, groups)
  | n + 1, c, groups =>
      if (c.bins cls).len ≤ floor then (c, groups)
      else
        match c.popSmall cls with
        | none => (c, groups)
        | some (b, _, c) => flushPops cls floor n c (addToPage groups b)

/-- `flush_bin_exit` counts the blocks of each page. -/
def countPages (chain : List Nat) : List SmallHeap.PageCount :=
  chain.foldl (fun groups b => add groups (pageOf b)) []
where
  add (groups : List SmallHeap.PageCount) (page : Nat) : List SmallHeap.PageCount :=
    match groups with
    | [] => [⟨page, 1⟩]
    | g :: rest => if g.page = page then { g with n := g.n + 1 } :: rest else g :: add rest page

/-- What `flush_bin_exit` leaves in the cache. -/
def dropBin (c : ThreadCache) (cls : Fin numClasses) : ThreadCache :=
  let len := (c.bins cls).len
  (c.subCached (classSize cls * len)).setBin cls .empty

/-- What `flush_active_medium` and `flush_active_big` leave in the cache. -/
def dropActive (c : ThreadCache) (t : SpanTier) (cls : Fin t.num) : ThreadCache :=
  (c.subTierCached (t.blockSize cls * (c.active t cls).list.len)).setActive t cls .empty

/-- The counters and windows `flush_all` resets once every list has been flushed. -/
def resetLists (c : ThreadCache) : ThreadCache :=
  { c with
    cachedBytes := 0
    tierCachedBytes := 0
    foreignBytes := 0
    retiredReclaimed := false
    bins := fun cls => { c.bins cls with virgin := 0 }
    spanBins := fun t cls => { c.spanBins t cls with virgin := 0 }
    active := fun _ _ => .empty }

/-! ### Adoption -/

/-- One class of `steal_empty_bins`: the bin moves when the source has one and the target none. -/
def stealBin (dst src : ThreadCache) (cls : Fin numClasses) : ThreadCache × ThreadCache :=
  let b := src.bins cls
  if b.blocks = [] || (dst.bins cls).blocks ≠ [] then (dst, src)
  else ((dst.setBin cls b).addCached (classSize cls * b.len), src.setBin cls .empty)

def stealEmptyBins (dst src : ThreadCache) : ThreadCache × ThreadCache :=
  (List.finRange numClasses).foldl (fun s cls => stealBin s.1 s.2 cls) (dst, src)

/-- Taking over a whole retired cache: the hook state and the budget stay the thread's own. -/
def adopt (c adopted : ThreadCache) : ThreadCache :=
  { adopted with
    exitArmed := c.exitArmed
    budget := c.budget
    budgetEpoch := c.budgetEpoch
    retiredReclaimed := true }

end ThreadCache

end Allox
