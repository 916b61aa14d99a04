import Allox.SmallHeap

/-!
# Batches and chains

`take_blocks` with the mapping in its middle, and `release_blocks` for any page of the heap, with the two
halves of `release_inner`: the chain is spliced in front of the free list and counted, then the page goes
where it belongs.
-/

namespace Allox.SmallHeap

/-- `take_blocks`. The page that was mapped comes with the heap of that moment. -/
def takeBlocks (h : SmallHeap) (c : Fin numClasses) (mapping : Option (SmallHeap × Nat)) : Fill :=
  let (_, f) := h.takeLocked c
  if f.count = 0 then
    match mapping with
    | some (h', raw) => (h'.takeMapped c raw f).2
    | none => { f with virgin := false }
  else f

/-- The first half of `release_inner`: the header of the page. -/
def spliceBlocks (h : SmallHeap) (x : PageReleaseChunk) : SmallHeap :=
  let g := h.header x.page
  h.setHeader x.page { g with
    virgin := false
    free := spliceAt x.chain x.tail g.free
    freeCount := g.freeCount + x.n
    used := g.used - x.n }

/-- The second half: an empty page is parked, any other is in the partial list. -/
def settlePage (h : SmallHeap) (c : Fin numClasses) (d : Discarded) (p : Nat) : SmallHeap × Fate :=
  if (h.header p).used = 0 then h.parkEmptyPage c d p
  else if (h.header p).inPartial then (h, .keep)
  else (h.linkPartial c p, .keep)

/-- `release_blocks_with_tail`. -/
def releaseBlocksWithTail (h : SmallHeap) (d : Discarded) (x : PageReleaseChunk) : SmallHeap × Fate :=
  h.releaseInner (h.header x.page).cls d x

/-- `release_blocks`: the head of the chain is passed for its tail. -/
def releaseBlocks (h : SmallHeap) (d : Discarded) (page : Nat) (chain : List Nat) (n : Nat) :
    SmallHeap × Fate :=
  h.releaseBlocksWithTail d ⟨page, chain, chain.headD 0, n⟩

end Allox.SmallHeap
