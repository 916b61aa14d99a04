import Allox.Cache
import Allox.Lib.Loop

/-!
# Trimming

`trim` as the cache sees it: what leaves the lists, and the calls of the heaps that get it. Each round
flushes one list: half of the largest small bin that has more than a batch, else a whole active list,
else half of the largest bin of the span tiers.

The heap is looked into for the span of a block only, which is a parameter here.
-/

namespace Allox

/-- A call of `release_many`, or of `release_blocks` for one chunk. -/
inductive Release where
  | pages (cls : Fin numClasses) (chunks : List PageReleaseChunk)
  | spans (t : SpanTier) (cls : Fin t.num) (chunks : List ReleaseChunk)

/-- What a trim finds outside the cache: the budget and its epoch, whether the exit hook gets installed,
and the span of a block. -/
structure TrimEnv where
  budget : Nat
  epoch : Nat
  installed : Bool
  spanOf : SpanTier → Nat → Nat

/-- The cache, and the calls so far. -/
structure Trimming where
  cache : ThreadCache
  calls : List Release

namespace Trimming

variable (e : TrimEnv)

def call (s : Trimming) (left : ThreadCache) (r : List Release) : Trimming :=
  { cache := left, calls := s.calls ++ r }

/-- A round of the outer loop of `flush_bin`; it ends when nothing could be popped. -/
def flushBinStep (cls : Fin numClasses) (floor : Nat) (s : Trimming) : Option Trimming :=
  if (s.cache.bins cls).len ≤ floor then none
  else
    let (left, groups) := s.cache.flushPops cls floor flushChunk []
    if groups.isEmpty then none else some (s.call left [.pages cls groups])

/-- `flush_bin`. -/
def flushBin (s : Trimming) (cls : Fin numClasses) (floor : Nat) : Trimming :=
  Loop.run (flushBinStep cls floor) (s.cache.bins cls).len s

/-- `flush_active_medium` and `flush_active_big`. -/
def flushActive (s : Trimming) (t : SpanTier) (cls : Fin t.num) : Trimming :=
  let a := s.cache.active t cls
  if (t = .big && a.span = 0) || a.list.blocks.isEmpty || a.list.len = 0 then
    if t = .big then s.call (s.cache.setActive t cls .empty) [] else s
  else
    s.call (s.cache.dropActive t cls)
      [.spans t cls [⟨a.span, a.list.blocks, a.list.blocks.getLast?.getD 0, a.list.len⟩]]

/-- The inner loop of `flush_mbin` and `flush_bbin`, at most `n` pops. There is room for a group for
each. -/
def flushSpanPops (t : SpanTier) (cls : Fin t.num) (floor : Nat) :
    Nat → ThreadCache → List ReleaseChunk → ThreadCache × List ReleaseChunk
  | 0, c, groups => (c, groups)
  | n + 1, c, groups =>
      if (c.spanBins t cls).len ≤ floor then (c, groups)
      else
        match c.popSpanBin t cls with
        | none => (c, groups)
        | some (b, _, c) =>
            flushSpanPops t cls floor n c (ThreadCache.addToSpan groups (e.spanOf t b) b)

/-- `MediumHeap::release_many` takes all groups, `flush_bbin` releases them one by one. -/
def releaseGroups (t : SpanTier) (cls : Fin t.num) (groups : List ReleaseChunk) : List Release :=
  match t with
  | .medium => [.spans .medium cls groups]
  | .big => groups.map fun g => .spans .big cls [g]

def flushSpanBinStep (t : SpanTier) (cls : Fin t.num) (floor : Nat) (s : Trimming) :
    Option Trimming :=
  if (s.cache.spanBins t cls).len ≤ floor then none
  else
    let (left, groups) := flushSpanPops e t cls floor t.flushChunk s.cache []
    if groups.isEmpty then none else some (s.call left (releaseGroups t cls groups))

/-- `flush_mbin` and `flush_bbin`. -/
def flushSpanBin (s : Trimming) (t : SpanTier) (cls : Fin t.num) (floor : Nat) : Trimming :=
  Loop.run (flushSpanBinStep e t cls floor) (s.cache.spanBins t cls).len s

/-- The part of a round of `trim` behind the active lists. -/
def trimSpanBins (s : Trimming) : Option Trimming :=
  let medium := s.cache.bestSpanBin .medium
  match (s.cache.bestSpanBin .big).filter fun b => (medium.map Prod.snd).getD 0 < b.2 with
  | some (cls, _) => some (s.flushSpanBin e .big cls ((s.cache.spanBins .big cls).len / 2))
  | none =>
      match medium with
      | some (cls, _) => some (s.flushSpanBin e .medium cls ((s.cache.spanBins .medium cls).len / 2))
      | none => none

/-- A round of `trim`, if there is anything to flush. -/
def trimRound (s : Trimming) : Option Trimming :=
  match s.cache.bestBin with
  | some (cls, _) => some (s.flushBin cls ((s.cache.bins cls).len / 2))
  | none =>
      match s.cache.bestActive .medium with
      | some (cls, _) => some (s.flushActive .medium cls)
      | none =>
          match s.cache.bestActive .big with
          | some (cls, _) => some (s.flushActive .big cls)
          | none => s.trimSpanBins e

def trimStep (target : Nat) (s : Trimming) : Option Trimming :=
  if s.cache.cachedBytes ≤ target then none else s.trimRound e

/-- The loop of `trim`, for at most `n` rounds. -/
def trimLoop (target n : Nat) (s : Trimming) : Trimming := Loop.run (trimStep e target) n s

end Trimming

namespace ThreadCache

variable (e : TrimEnv)

def refreshBudget (c : ThreadCache) : ThreadCache :=
  if c.budgetEpoch ≠ e.epoch then { c with budget := e.budget, budgetEpoch := e.epoch } else c

def armExitHook (c : ThreadCache) : ThreadCache :=
  if c.exitArmed then c
  else { c.refreshBudget e with exitArmed := (c.refreshBudget e).exitArmed || e.installed }

/-- What `trim` starts its loop with. -/
def trimStart (c : ThreadCache) : ThreadCache := (c.armExitHook e).refreshBudget e

/-- `target`. -/
def trimTarget (c : ThreadCache) : Nat := c.budget / 2 + min c.tierCachedBytes (twice c.budget)

/-- `trim`, for at most `n` rounds. -/
def trim (n : Nat) (c : ThreadCache) : Trimming :=
  let c := c.trimStart e
  Trimming.trimLoop e c.trimTarget n ⟨c, []⟩

/-- `shed`; each round takes at least a byte out of the cache. -/
def shed (c : ThreadCache) : ThreadCache :=
  { (c.trim e c.cachedBytes).cache with foreignBytes := 0 }

/-- `dealloc` up to its shed. Whether the block is of another thread is looked up under pressure only. -/
def freeSmall (c : ThreadCache) (cls : Fin numClasses) (p : Nat) (foreign : Bool) : ThreadCache :=
  let foreign := !c.smallFreeIsWarm && c.driftGateOpenSmall c.budget && foreign
  let own := { c with foreignBytes := c.foreignBytes + if foreign then classSize cls else 0 }
  own.pushSmall cls p

/-- `dealloc_medium` and `dealloc_big` up to their shed. -/
def freeSpan (c : ThreadCache) (t : SpanTier) (cls : Fin t.num) (p span : Nat) (foreign : Bool) :
    ThreadCache :=
  let foreign := c.driftGateOpen && foreign
  let pushed :=
    if c.activeContains t cls p span then c.activeDealloc t cls p else c.binDealloc t cls p
  let own := pushed.addTierCached (t.blockSize cls)
  { own with foreignBytes := own.foreignBytes + if foreign then t.blockSize cls else 0 }

/-- The least budget that `set_budget` stores. -/
def minBudget : Nat := refillBatch * 16

/-- The caches a thread can have. The heaps, the system and the other threads supply what they like. -/
inductive Reach : ThreadCache → Prop
  | new : Reach .new
  | refresh {c : ThreadCache} (e : TrimEnv) (h : Reach c) (hbudget : minBudget ≤ e.budget) :
      Reach (c.refreshBudget e)
  | arm {c : ThreadCache} (e : TrimEnv) (h : Reach c) (hbudget : minBudget ≤ e.budget) :
      Reach (c.armExitHook e)
  | popSmall {c left : ThreadCache} {cls : Fin numClasses} {p : Nat} {zeroed : Bool} (h : Reach c)
      (hpop : c.popSmall cls = some (p, zeroed, left)) : Reach left
  | fillSmall {c : ThreadCache} {cls : Fin numClasses} (h : Reach c) (hempty : (c.bins cls).blocks = [])
      (rest : List Nat) (virgin : Bool) : Reach (c.fillSmall cls rest (rest.length + 1) virgin)
  | freeSmall {c : ThreadCache} (h : Reach c) (cls : Fin numClasses) (p : Nat) (foreign : Bool) :
      Reach (c.freeSmall cls p foreign)
  | activeAlloc {c : ThreadCache} (h : Reach c) (t : SpanTier) (cls : Fin t.num) :
      Reach (c.activeAlloc t cls).2
  | popSpanBin {c left : ThreadCache} {t : SpanTier} {cls : Fin t.num} {p : Nat} {zeroed : Bool}
      (h : Reach c) (hpop : c.popSpanBin t cls = some (p, zeroed, left)) : Reach left
  | fillActive {c : ThreadCache} {t : SpanTier} {cls : Fin t.num} (h : Reach c)
      (hempty : (c.active t cls).list.blocks = []) (hbin : (c.spanBins t cls).blocks = []) {span : Nat}
      (hspan : span ≠ 0) (mappedBytes : Nat) (rest : List Nat) (virgin : Bool) :
      Reach (c.fillActive t cls span mappedBytes rest (rest.length + 1) virgin)
  | fillSpanBin {c : ThreadCache} {t : SpanTier} {cls : Fin t.num} (h : Reach c)
      (hbin : (c.spanBins t cls).blocks = []) (rest : List Nat) (virgin : Bool) :
      Reach (c.fillSpanBin t cls rest (rest.length + 1) virgin)
  | freeSpan {c : ThreadCache} (h : Reach c) (t : SpanTier) (cls : Fin t.num) (p span : Nat)
      (foreign : Bool) : Reach (c.freeSpan t cls p span foreign)
  | trim {c : ThreadCache} (e : TrimEnv) (h : Reach c) (hbudget : minBudget ≤ e.budget) :
      Reach (c.trim e c.cachedBytes).cache
  | shed {c : ThreadCache} (e : TrimEnv) (h : Reach c) (hbudget : minBudget ≤ e.budget) :
      Reach (c.shed e)
  | takeStash {c left : ThreadCache} {pages : Nat} {r : Nat × Nat} (h : Reach c)
      (htake : c.takeLargeStash pages = some (r, left)) : Reach left
  | pushStash {c left : ThreadCache} {base pages : Nat} (h : Reach c) (hbase : base ≠ 0)
      (hpages : pages ≠ 0) (hpush : c.pushLargeStash base pages = some left) : Reach left
  | flushBin {c : ThreadCache} (h : Reach c) (cls : Fin numClasses) (floor : Nat) :
      Reach (Trimming.flushBin ⟨c, []⟩ cls floor).cache
  | dropBin {c : ThreadCache} (h : Reach c) (cls : Fin numClasses) : Reach (c.dropBin cls)
  | flushActive {c : ThreadCache} {t : SpanTier} {cls : Fin t.num} (h : Reach c)
      (hsome : (c.active t cls).list.blocks ≠ []) : Reach (Trimming.flushActive ⟨c, []⟩ t cls).cache
  | flushSpanBin {c : ThreadCache} (e : TrimEnv) (h : Reach c) (t : SpanTier) (cls : Fin t.num)
      (floor : Nat) : Reach (Trimming.flushSpanBin e ⟨c, []⟩ t cls floor).cache
  /-- The end of `flush_all`. -/
  | reset {c : ThreadCache} (h : Reach c) (hbins : ∀ cls, (c.bins cls).blocks = [])
      (hspanBins : ∀ t cls, (c.spanBins t cls).blocks = [])
      (hactive : ∀ t cls, (c.active t cls).list.blocks = []) :
      Reach { c.resetLists with large := fun _ => (0, 0), largeLen := 0, largeBytes := 0 }
  | adopt {c adopted : ThreadCache} (h : Reach c) (hadopted : Reach adopted) : Reach (c.adopt adopted)
  | steal {c adopted : ThreadCache} (h : Reach c) (hadopted : Reach adopted) :
      Reach (c.stealEmptyBins adopted).1
  | reclaimed {c : ThreadCache} (h : Reach c) : Reach { c with retiredReclaimed := true }

end ThreadCache

end Allox
