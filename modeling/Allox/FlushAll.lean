import Allox.Trim

/-!
# The full flush

`flush_all` as the cache sees it. Lists that are empty are passed over; what is left of a small bin in
one chunk leaves the cache at once.
-/

namespace Allox

namespace ThreadCache

variable (e : TrimEnv)

/-- `flush_bin_exit`, for a bin that has blocks. -/
def flushBinExit (c : ThreadCache) (cls : Fin numClasses) : ThreadCache :=
  if (c.bins cls).len = 0 then c
  else if flushChunk < (c.bins cls).len then (Trimming.flushBin ⟨c, []⟩ cls 0).cache
  else c.dropBin cls

def flushBinAll (c : ThreadCache) (cls : Fin numClasses) : ThreadCache :=
  if (c.bins cls).blocks = [] then c else c.flushBinExit cls

def flushActiveAll (t : SpanTier) (c : ThreadCache) (cls : Fin t.num) : ThreadCache :=
  if (c.active t cls).list.blocks = [] then c else (Trimming.flushActive ⟨c, []⟩ t cls).cache

def flushSpanBinAll (t : SpanTier) (c : ThreadCache) (cls : Fin t.num) : ThreadCache :=
  if (c.spanBins t cls).blocks = [] then c else (Trimming.flushSpanBin e ⟨c, []⟩ t cls 0).cache

/-- The lists of `flush_all`: the two lists of a big class go together. -/
def flushLists (c : ThreadCache) : ThreadCache :=
  let c := (List.finRange numClasses).foldl flushBinAll c
  let c := (List.finRange SpanTier.medium.num).foldl (flushActiveAll .medium) c
  let c := (List.finRange SpanTier.medium.num).foldl (flushSpanBinAll e .medium) c
  (List.finRange SpanTier.big.num).foldl
    (fun c cls => flushSpanBinAll e .big (flushActiveAll .big c cls) cls) c

/-- The end of `flush_all`, where the stashed regions are unmapped. -/
def dropStash (c : ThreadCache) : ThreadCache :=
  { c with
    large := fun i => if i < c.largeLen ∧ (c.large i).1 ≠ 0 then (0, 0) else c.large i
    largeLen := 0
    largeBytes := 0 }

/-- `flush_all`. -/
def flushAll (c : ThreadCache) : ThreadCache := (c.flushLists e).resetLists.dropStash

end ThreadCache

end Allox
