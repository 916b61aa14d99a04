import Allox.Classes
import Mathlib.Logic.Function.Basic

/-!
# The small heap

One 64 KiB page holds blocks of one class. A page provisions its blocks lazily, the class list keeps
the pages with blocks to give, a few empty pages, and a stack of cold pages whose memory was dropped.
Each function here runs inside one critical section of the class lock.

A chain threaded through free blocks is the list of its addresses; the counters beside it are kept
apart, as in the code. Null is zero.
-/

namespace Allox

def refillBatch : Nat := 64
def emptyPageCachePerClass : Nat := 4
def maxColdPageSlots : Nat := 256
def maxColdPageBytesPerClass : Nat := 16 * 1024 * 1024

/-- `PageHeader::of`. -/
def pageOf (p : Nat) : Nat := p / pageSize * pageSize

/-- What `sys::discard` reports: whether it dropped the pages, and whether they now read as zero. -/
structure Discarded where
  physical : Bool
  zeroed : Bool
  deriving DecidableEq

/-- `cls` is the source's `class`. -/
structure PageHeader where
  cls : Fin numClasses
  free : List Nat
  freeCount : Nat
  used : Nat
  inPartial : Bool
  virgin : Bool
  needsReinit : Bool

namespace PageHeader

def init (c : Fin numClasses) : PageHeader :=
  { cls := c, free := [], freeCount := 0, used := 0, inPartial := false, virgin := true,
    needsReinit := false }

def capacity (g : PageHeader) : Nat := (pageSize - headerSize) / classSize g.cls

def blockAt (page : Nat) (c : Fin numClasses) (i : Nat) : Nat :=
  page + headerSize + i * classSize c

/-- The first free block is taken. -/
def popped (g : PageHeader) (rest : List Nat) : PageHeader :=
  { g with free := rest, freeCount := g.freeCount - 1, used := g.used + 1 }

/-- Carve up to `max` further blocks of the page, in front of its free list. -/
def provision (g : PageHeader) (page : Nat) (max : Nat) : PageHeader × Nat :=
  let materialized := g.used + g.freeCount
  let count := min (g.capacity - materialized) max
  ({ g with
      free := (List.range' materialized count).map (blockAt page g.cls) ++ g.free
      freeCount := g.freeCount + count }, count)

end PageHeader

structure ColdPage where
  page : Nat
  decommitted : Bool
  zeroed : Bool

/-- The last cold page comes first. -/
structure ListHead where
  head : List Nat
  empty : List Nat
  emptyCount : Nat
  cold : List ColdPage
  coldBytes : Nat

/-- A cold page has no header: discarding it may have dropped that too. -/
inductive Page where
  | active (header : PageHeader)
  | cold (c : Fin numClasses)

structure SmallHeap where
  pages : Nat → Option Page
  lists : Fin numClasses → ListHead

/-- The blocks gathered so far for a refill. -/
structure Fill where
  chain : List Nat
  count : Nat
  virgin : Bool

/-- What becomes of a page or span that was given back. `cooled` is a `Keep` whose memory was discarded
under the lock. -/
inductive Fate where
  | keep
  | cooled (d : Discarded)
  | unmap (bytes : Nat)
  deriving DecidableEq

/-- A chain of `n` blocks of one page, and the pointer to its last block. -/
structure PageReleaseChunk where
  page : Nat
  chain : List Nat
  tail : Nat
  n : Nat

/-- Splicing `chain` in front of `free` by writing to its `tail`. -/
def spliceAt (chain : List Nat) (tail : Nat) (free : List Nat) : List Nat :=
  chain.takeWhile (· != tail) ++ tail :: free

namespace SmallHeap

def new : SmallHeap :=
  { pages := fun _ => none
    lists := fun _ => { head := [], empty := [], emptyCount := 0, cold := [], coldBytes := 0 } }

def header (h : SmallHeap) (p : Nat) : PageHeader :=
  match h.pages p with
  | some (.active g) => g
  | _ => .init 0

def setHeader (h : SmallHeap) (p : Nat) (g : PageHeader) : SmallHeap :=
  { h with pages := Function.update h.pages p (some (.active g)) }

def setList (h : SmallHeap) (c : Fin numClasses) (l : ListHead) : SmallHeap :=
  { h with lists := Function.update h.lists c l }

def linkPartial (h : SmallHeap) (c : Fin numClasses) (p : Nat) : SmallHeap :=
  let h := h.setList c { h.lists c with head := p :: (h.lists c).head }
  h.setHeader p { h.header p with inPartial := true }

def unlinkPartial (h : SmallHeap) (c : Fin numClasses) (p : Nat) : SmallHeap × Bool :=
  if (h.header p).inPartial then
    let h := h.setList c { h.lists c with head := (h.lists c).head.erase p }
    (h.setHeader p { h.header p with inPartial := false }, true)
  else (h, false)

/-- The inner loop of `fill_from_list`, on the first page of the list. -/
def fillPage (c : Fin numClasses) (p : Nat) : Nat → SmallHeap → Fill → SmallHeap × Fill
  | 0, h, f => (h, f)
  | n + 1, h, f =>
      if refillBatch ≤ f.count then (h, f)
      else
        let g := h.header p
        match g.free with
        | b :: rest =>
            let g := g.popped rest
            let h := h.setHeader p g
            let f := { f with chain := b :: f.chain, count := f.count + 1 }
            if g.freeCount = 0 && g.capacity ≤ g.used + g.freeCount then ((h.unlinkPartial c p).1, f)
            else fillPage c p n h f
        | [] =>
            if g.used + g.freeCount < g.capacity then
              let (g, made) := g.provision p (refillBatch - f.count)
              if made = 0 then ((h.unlinkPartial c p).1, f)
              else fillPage c p n (h.setHeader p g) f
            else ((h.unlinkPartial c p).1, f)

/-- Every round of the inner loop takes a block, provisions some, or leaves. -/
def fillPageRounds : Nat := 2 * refillBatch + 1

/-- `fill_from_list`, for at most `n` pages. -/
def fillPages (c : Fin numClasses) : Nat → SmallHeap → Fill → SmallHeap × Fill
  | 0, h, f => (h, f)
  | n + 1, h, f =>
      if refillBatch ≤ f.count then (h, f)
      else
        match (h.lists c).head with
        | [] => (h, f)
        | p :: _ =>
            let f := if (h.header p).virgin then f else { f with virgin := false }
            let before := f.count
            let (h, f) := fillPage c p fillPageRounds h f
            if f.count = before && (h.lists c).head.head? == some p then
              let (h, unlinked) := h.unlinkPartial c p
              if unlinked then fillPages c n h f else (h, f)
            else fillPages c n h f

/-- Every round of the outer loop fills the batch or takes a page off the list. -/
def fillFromList (h : SmallHeap) (c : Fin numClasses) (f : Fill) : SmallHeap × Fill :=
  fillPages c ((h.lists c).head.length + 1) h f

/-- With nothing gathered, an empty page is reused. -/
def takeEmpty (h : SmallHeap) (c : Fin numClasses) (f : Fill) : SmallHeap × Fill :=
  match f.count, (h.lists c).empty with
  | 0, p :: rest =>
      let l := h.lists c
      let h := h.setList c { l with empty := rest, emptyCount := l.emptyCount - 1 }
      let g := h.header p
      let (h, virgin) :=
        if g.needsReinit then (h.setHeader p { PageHeader.init c with virgin := false }, false)
        else (h, f.virgin && g.virgin)
      (h.linkPartial c p).fillFromList c { f with virgin }
  | _, _ => (h, f)

/-- Then a cold one, whose header is written anew. -/
def takeCold (h : SmallHeap) (c : Fin numClasses) (f : Fill) : SmallHeap × Fill :=
  match f.count, (h.lists c).cold with
  | 0, x :: rest =>
      let l := h.lists c
      let h := h.setList c { l with cold := rest, coldBytes := l.coldBytes - pageSize }
      let h := h.setHeader x.page { PageHeader.init c with virgin := x.zeroed }
      (h.linkPartial c x.page).fillFromList c { f with virgin := x.zeroed }
  | _, _ => (h, f)

/-- The part of `take_blocks` under the first lock. -/
def takeLocked (h : SmallHeap) (c : Fin numClasses) : SmallHeap × Fill :=
  let (h, f) := h.fillFromList c { chain := [], count := 0, virgin := true }
  let (h, f) := h.takeEmpty c f
  h.takeCold c f

/-- The part under the second lock, for the page `raw` just mapped. -/
def takeMapped (h : SmallHeap) (c : Fin numClasses) (raw : Nat) (f : Fill) : SmallHeap × Fill :=
  let h := h.setHeader raw (.init c)
  (h.linkPartial c raw).fillFromList c f

def parkEmptyPage (h : SmallHeap) (c : Fin numClasses) (d : Discarded) (p : Nat) :
    SmallHeap × Fate :=
  let h := (h.unlinkPartial c p).1
  let l := h.lists c
  if l.emptyCount < emptyPageCachePerClass then
    (h.setList c { l with empty := p :: l.empty, emptyCount := l.emptyCount + 1 }, .keep)
  else if l.cold.length < maxColdPageSlots && l.coldBytes + pageSize ≤ maxColdPageBytesPerClass then
    let h := h.setList c
      { l with cold := ⟨p, d.physical, d.zeroed⟩ :: l.cold, coldBytes := l.coldBytes + pageSize }
    ({ h with pages := Function.update h.pages p (some (.cold c)) }, .cooled d)
  else ({ h with pages := Function.update h.pages p none }, .unmap pageSize)

def releaseInner (h : SmallHeap) (c : Fin numClasses) (d : Discarded) (x : PageReleaseChunk) :
    SmallHeap × Fate :=
  let g := h.header x.page
  let g := { g with
    virgin := false
    free := spliceAt x.chain x.tail g.free
    freeCount := g.freeCount + x.n
    used := g.used - x.n }
  let h := h.setHeader x.page g
  if g.used = 0 then h.parkEmptyPage c d x.page
  else if g.inPartial then (h, .keep)
  else (h.linkPartial c x.page, .keep)

/-- All blocks of the page are coming back: its free list is not rebuilt. -/
def retirePageInner (h : SmallHeap) (c : Fin numClasses) (d : Discarded) (p : Nat) :
    SmallHeap × Fate :=
  let g := h.header p
  let h := h.setHeader p
    { g with virgin := false, needsReinit := true, free := [], freeCount := 0, used := 0 }
  h.parkEmptyPage c d p

/-- One critical section of `release_many`; `d` answers the discards in order. -/
def releaseBatch (c : Fin numClasses) : SmallHeap → (Nat → Discarded) → List PageReleaseChunk →
    SmallHeap × List (Nat × Fate)
  | h, _, [] => (h, [])
  | h, d, x :: rest =>
      let (h, fate) :=
        if x.n = (h.header x.page).used then h.retirePageInner c (d 0) x.page
        else h.releaseInner c (d 0) x
      let (h, fates) := releaseBatch c h (fun i => d (i + 1)) rest
      (h, (x.page, fate) :: fates)

/-- A page group counted by `flush_bin_exit`. -/
structure PageCount where
  page : Nat
  n : Nat

/-- The last loop of `release_bin_chunks`, with the decisions made for each page and the blocks of
the chain that the walk links up for it. -/
def releaseCounted (c : Fin numClasses) (chain : List Nat) : SmallHeap → (Nat → Discarded) →
    List (PageCount × Bool) → SmallHeap × List (Nat × Fate)
  | h, _, [] => (h, [])
  | h, d, (g, retire) :: rest =>
      let blocks := chain.filter (pageOf · == g.page)
      let (h, fate) :=
        if retire then h.retirePageInner c (d 0) g.page
        else h.releaseInner c (d 0) ⟨g.page, blocks, blocks.getLast?.getD 0, g.n⟩
      let (h, fates) := releaseCounted c chain h (fun i => d (i + 1)) rest
      (h, (g.page, fate) :: fates)

/-- `release_bin_chunks` under the lock: which pages come back whole is decided for all of them
first. -/
def releaseBinChunks (h : SmallHeap) (c : Fin numClasses) (d : Nat → Discarded) (chain : List Nat)
    (groups : List PageCount) : SmallHeap × List (Nat × Fate) :=
  releaseCounted c chain h d (groups.map fun g => (g, g.n == (h.header g.page).used))

end SmallHeap

end Allox
