import Allox.Proof.PartialList
import Allox.Cache

/-!
# Blocks that need no memset

`alloc_zeroed_impl` clears only the link word of a small block that is reported virgin. Here the small
tier stands next to the bytes of memory: the heap, the bins of all caches, the blocks on their way
between a bin, the heap and a user, and everything that is written.

Each critical section of the heap is one step, each pop and each push of a bin is one, and so is each
byte that a user or the allocator writes. The system promises that a page it maps reads as zero, and
`discard` that a page it reports as zeroed does.
-/

namespace Allox

open Function

def linkBytes : Nat := 8

/-- The bytes of a block behind its link word. -/
def Block.Interior (b : Block) (a : Nat) : Prop := b.addr + linkBytes ≤ a ∧ a < b.addr + classSize b.cls

/-- `ι` are the caches, of threads or retired. Blocks in `hand` are carried by some thread, which knows
whether they are virgin. Fresh pages are mapped and not in the heap yet, doomed ones not in it any
more. -/
structure SmallTier (ι : Type) where
  heap : SmallHeap
  bins : ι → Fin numClasses → Bin
  hand : Multiset (Block × Bool)
  live : Multiset Block
  fresh : Multiset Nat
  doomed : Multiset Nat
  mapped : Multiset Nat
  mem : Nat → UInt8

/-- A chain in hand. -/
def chainInHand (c : Fin numClasses) (virgin : Bool) (chain : List Nat) : Multiset (Block × Bool) :=
  ↑(chain.map fun p => ((⟨c, p⟩ : Block), virgin))

namespace SmallTier

variable {ι : Type}

def new (ι : Type) (mem : Nat → UInt8) : SmallTier ι :=
  { heap := .new, bins := fun _ _ => .empty, hand := 0, live := 0, fresh := 0, doomed := 0, mapped := 0,
    mem }

def cached [Fintype ι] (s : SmallTier ι) : Multiset Block :=
  ∑ t, ∑ c, blocksOf c (s.bins t c).blocks

/-- All blocks outside the heap. -/
def out [Fintype ι] (s : SmallTier ι) : Multiset Block := s.live + (s.hand.map Prod.fst + s.cached)

def setBin [DecidableEq ι] (s : SmallTier ι) (t : ι) (c : Fin numClasses) (b : Bin) : SmallTier ι :=
  { s with bins := update s.bins t (update (s.bins t) c b) }

/-- What `alloc_zeroed_impl` writes to the block it got. -/
def zeroFill (mem : Nat → UInt8) (p size : Nat) (virgin : Bool) (a : Nat) : UInt8 :=
  if p ≤ a ∧ a < p + (if virgin then linkBytes else size) then 0 else mem a

/-- What a page that was given back may read as. -/
structure Settles (p : Nat) (fate : Fate) (mem mem' : Nat → UInt8) : Prop where
  elsewhere : ∀ a, pageOf a ≠ p → mem' a = mem a
  kept : fate = .keep → mem' = mem
  zeroed : ∀ d, fate = .cooled d → d.zeroed = true → ∀ a, pageOf a = p → mem' a = 0

inductive Step [DecidableEq ι] : SmallTier ι → SmallTier ι → Prop
  /-- `map_heap_pages`. -/
  | map {s : SmallTier ι} (p : Nat) (mem : Nat → UInt8) (haligned : p % pageSize = 0)
      (hunmapped : p ∉ s.mapped) (helsewhere : ∀ a, pageOf a ≠ p → mem a = s.mem a)
      (hzero : ∀ a, pageOf a = p → mem a = 0) :
      Step s { s with fresh := {p} + s.fresh, mapped := {p} + s.mapped, mem }
  | unmap {s : SmallTier ι} (p : Nat) (doomed mapped : Multiset Nat) (hdoomed : s.doomed = {p} + doomed)
      (hmapped : s.mapped = {p} + mapped) :
      Step s { s with doomed, mapped }
  /-- The first section of `take_blocks`. -/
  | takeLocked {s : SmallTier ι} (c : Fin numClasses) :
      Step s { s with
        heap := (s.heap.takeLocked c).1
        hand := s.hand + chainInHand c (s.heap.takeLocked c).2.virgin (s.heap.takeLocked c).2.chain }
  /-- The second one, with the page that was mapped between the two. -/
  | takeMapped {s : SmallTier ι} (c : Fin numClasses) (p : Nat) (virgin : Bool) (fresh : Multiset Nat)
      (hfresh : s.fresh = {p} + fresh) :
      Step s { s with
        heap := (s.heap.takeMapped c p ⟨[], 0, virgin⟩).1
        hand := s.hand + chainInHand c (s.heap.takeMapped c p ⟨[], 0, virgin⟩).2.virgin
          (s.heap.takeMapped c p ⟨[], 0, virgin⟩).2.chain
        fresh }
  /-- The end of `refill`: the bin is empty and gets the chain behind the first block. -/
  | install {s : SmallTier ι} (t : ι) (c : Fin numClasses) (virgin : Bool) (rest : List Nat)
      (hand : Multiset (Block × Bool)) (hempty : (s.bins t c).blocks = [])
      (hhand : s.hand = chainInHand c virgin rest + hand) :
      Step s { s.setBin t c
          { blocks := rest, len := (s.bins t c).len + rest.length
            virgin := if virgin then rest.length else 0 } with hand }
  | pop {s : SmallTier ι} (t : ι) (c : Fin numClasses) (p : Nat) (virgin : Bool) (b : Bin)
      (hpop : (s.bins t c).pop = some (p, virgin, b)) :
      Step s { s.setBin t c b with hand := {(⟨c, p⟩, virgin)} + s.hand }
  /-- The end of `dealloc`. -/
  | push {s : SmallTier ι} (t : ι) (c : Fin numClasses) (p : Nat) (virgin : Bool)
      (hand : Multiset (Block × Bool)) (hhand : s.hand = {(⟨c, p⟩, virgin)} + hand) :
      Step s { s.setBin t c ((s.bins t c).push p) with hand }
  /-- `flush_bin_exit` takes the chain whole. -/
  | drain {s : SmallTier ι} (t : ι) (c : Fin numClasses) :
      Step s { s.setBin t c .empty with hand := s.hand + chainInHand c false (s.bins t c).blocks }
  /-- The end of `flush_all`. -/
  | forget {s : SmallTier ι} (t : ι) (c : Fin numClasses) :
      Step s (s.setBin t c { s.bins t c with virgin := 0 })
  /-- `steal_empty_bins`. -/
  | steal {s : SmallTier ι} (t u : ι) (c : Fin numClasses) (hne : t ≠ u)
      (hempty : (s.bins t c).blocks = []) :
      Step s ((s.setBin t c (s.bins u c)).setBin u c .empty)
  /-- `release_inner`, in any section that releases. -/
  | release {s : SmallTier ι} (c : Fin numClasses) (x : PageReleaseChunk) (d : Discarded)
      (hand back : Multiset (Block × Bool)) (mem : Nat → UInt8) (hx : SmallHeap.Chunk c x)
      (hhand : s.hand = hand + back) (hback : back.map Prod.fst = blocksOf c x.chain)
      (hmem : Settles x.page (s.heap.releaseInner c d x).2 s.mem mem) :
      Step s { s with
        heap := (s.heap.releaseInner c d x).1
        hand
        doomed := SmallHeap.unmapped x.page (s.heap.releaseInner c d x).2 + s.doomed
        mem }
  /-- `retire_page_inner`, when all blocks of the page come back at once. -/
  | retire {s : SmallTier ι} (c : Fin numClasses) (x : PageReleaseChunk) (d : Discarded)
      (hand back : Multiset (Block × Bool)) (mem : Nat → UInt8) (hx : SmallHeap.Chunk c x)
      (hall : x.n = (s.heap.header x.page).used) (hhand : s.hand = hand + back)
      (hback : back.map Prod.fst = blocksOf c x.chain)
      (hmem : Settles x.page (s.heap.retirePageInner c d x.page).2 s.mem mem) :
      Step s { s with
        heap := (s.heap.retirePageInner c d x.page).1
        hand
        doomed := SmallHeap.unmapped x.page (s.heap.retirePageInner c d x.page).2 + s.doomed
        mem }
  /-- `alloc` returns a block as it is. -/
  | give {s : SmallTier ι} (b : Block) (virgin : Bool) (hand : Multiset (Block × Bool))
      (hhand : s.hand = {(b, virgin)} + hand) :
      Step s { s with hand, live := {b} + s.live }
  /-- `alloc_zeroed_impl` returns a block. -/
  | giveZeroed {s : SmallTier ι} (b : Block) (virgin : Bool) (hand : Multiset (Block × Bool)) (size : Nat)
      (hhand : s.hand = {(b, virgin)} + hand) :
      Step s { s with hand, live := {b} + s.live, mem := zeroFill s.mem b.addr size virgin }
  | free {s : SmallTier ι} (b : Block) (live : Multiset Block) (hlive : s.live = {b} + live) :
      Step s { s with hand := {(b, false)} + s.hand, live }
  /-- A user writes to its block. -/
  | write {s : SmallTier ι} (b : Block) (a : Nat) (v : UInt8) (hlive : b ∈ s.live) (hlow : b.addr ≤ a)
      (hhigh : a < b.addr + classSize b.cls) :
      Step s { s with mem := update s.mem a v }
  /-- The allocator writes to the header of a page. -/
  | header {s : SmallTier ι} (a : Nat) (v : UInt8) (hmapped : pageOf a ∈ s.mapped)
      (hhigh : a < pageOf a + headerSize) :
      Step s { s with mem := update s.mem a v }
  /-- The allocator writes to the link word of a block. -/
  | link {s : SmallTier ι} (p : Nat) (g : PageHeader) (i a : Nat) (v : UInt8)
      (hpage : s.heap.pages p = some (.active g)) (hi : i < g.capacity)
      (hlow : PageHeader.blockAt p g.cls i ≤ a) (hhigh : a < PageHeader.blockAt p g.cls i + linkBytes) :
      Step s { s with mem := update s.mem a v }

/-- Any run, from any memory. -/
inductive Reach [DecidableEq ι] : SmallTier ι → Prop
  | new (mem : Nat → UInt8) : Reach (new ι mem)
  | step {s s' : SmallTier ι} (h : Reach s) (hstep : Step s s') : Reach s'

end SmallTier

end Allox
