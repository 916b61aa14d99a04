import Allox.Cache
import Allox.PageRelease

/-!
# Emptying a small bin

The two flushes of a bin with their arrays of groups, as a single thread runs them. `flush_bin` groups the
blocks it pops and releases the groups in batches. At exit the blocks are counted by page, and linked up in
a second walk under the lock, which finds the slot of a page anew only when the page changes.

The arrays are bounded. A block that finds no room for its page, or no slot, would be dropped; `dropped`
counts these and is not in the code.
-/

namespace Allox

def maxFlushGroups : Nat := flushChunk + 8
def pageReleaseRetired : Nat := 0x8000

/-- Groups under construction. -/
structure Grouped (α : Type) where
  groups : List α
  dropped : Nat

/-- One block of the inner loop of `flush_bin`. -/
def groupBlock (s : Grouped PageReleaseChunk) (b : Nat) : Grouped PageReleaseChunk :=
  if s.groups.any (fun g => g.page == pageOf b) || s.groups.length < maxFlushGroups then
    { s with groups := ThreadCache.addToPage s.groups b }
  else { s with dropped := s.dropped + 1 }

/-- One block of the first loop of `flush_bin_exit`. -/
def countBlock (s : Grouped SmallHeap.PageCount) (b : Nat) : Grouped SmallHeap.PageCount :=
  if s.groups.any (fun g => g.page == pageOf b) || s.groups.length < maxFlushGroups then
    { s with groups := ThreadCache.countPages.add s.groups (pageOf b) }
  else { s with dropped := s.dropped + 1 }

/-- A chunk of `release_bin_chunks`: the flag is in `n`, and the chain is what the walk has linked. -/
structure RoutedChunk where
  page : Nat
  n : Nat
  chain : List Nat

namespace RoutedChunk

def retired (x : RoutedChunk) : Bool := x.n &&& pageReleaseRetired != 0

/-- `n & !PAGE_RELEASE_RETIRED`. -/
def count (x : RoutedChunk) : Nat := x.n &&& (0xFFFF ^^^ pageReleaseRetired)

def link (x : RoutedChunk) (b : Nat) : RoutedChunk :=
  if x.retired then x else { x with chain := x.chain ++ [b] }

end RoutedChunk

/-- The heap after a flush. -/
structure Flushed where
  heap : SmallHeap
  fates : List (Nat × Fate)
  dropped : Nat

namespace SmallHeap

/-- `release_many`, for at most `n` batches. -/
def releaseMany (c : Fin numClasses) : Nat → SmallHeap → (Nat → Discarded) → List PageReleaseChunk →
    SmallHeap × List (Nat × Fate)
  | 0, h, _, _ => (h, [])
  | n + 1, h, d, chunks =>
      if chunks.isEmpty then (h, [])
      else
        let (h, fates) := releaseBatch c h d (chunks.take 128)
        let (h, fates') := releaseMany c n h (fun i => d (i + 128)) (chunks.drop 128)
        (h, fates ++ fates')

/-- The outer loop of `flush_bin`, for at most `n` rounds; each pops at least one block. -/
def flushRounds (c : Fin numClasses) (floor : Nat) : Nat → SmallHeap → (Nat → Discarded) → List Nat →
    Flushed
  | 0, h, _, _ => ⟨h, [], 0⟩
  | n + 1, h, d, chain =>
      if chain.length ≤ floor then ⟨h, [], 0⟩
      else
        let popped := chain.take (min flushChunk (chain.length - floor))
        let s := popped.foldl groupBlock ⟨[], 0⟩
        let (h, fates) := releaseMany c s.groups.length h d s.groups
        let r := flushRounds c floor n h (fun i => d (i + flushChunk)) (chain.drop popped.length)
        ⟨r.heap, fates ++ r.fates, s.dropped + r.dropped⟩

/-- `flush_bin`, for a bin with this chain. -/
def flushBin (h : SmallHeap) (c : Fin numClasses) (d : Nat → Discarded) (floor : Nat) (chain : List Nat) :
    Flushed :=
  flushRounds c floor chain.length h d chain

/-- Whether all blocks of a page come back, packed into the count. -/
def decideRetire (h : SmallHeap) (g : PageCount) : RoutedChunk :=
  let count := g.n &&& (0xFFFF ^^^ pageReleaseRetired)
  let retire := count == (h.header g.page).used
  { page := g.page, n := count ||| (if retire then pageReleaseRetired else 0), chain := [] }

/-- The slot of the page of `b`; `last` is the last page and its slot. -/
def slotOf (chunks : List RoutedChunk) (last : Option (Nat × Nat)) (b : Nat) : Option Nat :=
  let found := chunks.findIdx? fun g => g.page == pageOf b
  match last with
  | some (page, slot) => if page = pageOf b then some slot else found
  | none => found

/-- The walk of `release_bin_chunks`. -/
def route (chunks : List RoutedChunk) (last : Option (Nat × Nat)) (dropped : Nat) :
    List Nat → List RoutedChunk × Nat
  | [] => (chunks, dropped)
  | b :: rest =>
      match slotOf chunks last b with
      | none => route chunks last (dropped + 1) rest
      | some i => route (chunks.modify i fun g => g.link b) (some (pageOf b, i)) dropped rest

/-- The last loop under the lock. -/
def releaseRouted (c : Fin numClasses) : SmallHeap → (Nat → Discarded) → List RoutedChunk →
    SmallHeap × List (Nat × Fate)
  | h, _, [] => (h, [])
  | h, d, x :: rest =>
      let (h, fate) :=
        if x.retired then h.retirePageInner c (d 0) x.page
        else h.releaseInner c (d 0) ⟨x.page, x.chain, x.chain.getLast?.getD 0, x.count⟩
      let (h, fates) := releaseRouted c h (fun i => d (i + 1)) rest
      (h, (x.page, fate) :: fates)

/-- `release_bin_chunks`. -/
def releaseBinChunksWalk (h : SmallHeap) (c : Fin numClasses) (d : Nat → Discarded) (chain : List Nat)
    (groups : List PageCount) : Flushed :=
  if chain.isEmpty || groups.isEmpty then ⟨h, [], 0⟩
  else
    let chunks := groups.map h.decideRetire
    let (chunks, dropped) :=
      if chunks.any fun x => !x.retired then route chunks none 0 chain else (chunks, 0)
    let (h, fates) := releaseRouted c h d chunks
    ⟨h, fates, dropped⟩

/-- `flush_bin_exit`, for a bin with this chain. -/
def flushBinExit (h : SmallHeap) (c : Fin numClasses) (d : Nat → Discarded) (chain : List Nat) : Flushed :=
  if chain.length = 0 then ⟨h, [], 0⟩
  else if flushChunk < chain.length then h.flushBin c d 0 chain
  else
    let s := chain.foldl countBlock ⟨[], 0⟩
    let r := h.releaseBinChunksWalk c d chain s.groups
    { r with dropped := s.dropped + r.dropped }

/-- The blocks of a chain one at a time. -/
def releaseSingly : SmallHeap → (Nat → Discarded) → List Nat → SmallHeap × List (Nat × Fate)
  | h, _, [] => (h, [])
  | h, d, b :: rest =>
      let (h, fate) := h.releaseBlocks (d 0) (pageOf b) [b] 1
      let (h, fates) := releaseSingly h (fun i => d (i + 1)) rest
      (h, (pageOf b, fate) :: fates)

end SmallHeap

end Allox
