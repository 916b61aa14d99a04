import Allox.SmallHeap

/-!
# The span heaps

Medium and big blocks come from spans of several pages that are carved at once. The two heaps are
written out twice in the code; here the tier is a parameter, and where they differ the tier decides:
how a span off the arena is carved, the batch and the caps, and how a returned chain is spliced.

`masters` is what finds the span of an address, one entry for each 64 KiB unit: the side table on the
arena, the master and sub-page headers elsewhere. The big tier lives on the arena only.
-/

namespace Allox

/-- `BigMaster` has the same fields; `cls` is `mclass` or `bclass`. -/
structure SpanMaster (t : SpanTier) where
  cls : Fin t.num
  free : List Nat
  freeCount : Nat
  used : Nat
  inPartial : Bool
  virgin : Bool
  npages : Nat

namespace SpanTier

def mediumRefillBatch : Nat := 16
def bigRefillBatch : Nat := 4

/-- `medium_refill_batch` is capped by what one span holds. -/
def refillBatch (t : SpanTier) (c : Fin t.num) : Nat :=
  match t with
  | medium =>
      min (mediumCapacityFor (SpanTier.medium.blockSize c) (SpanTier.medium.spanPages c))
        mediumRefillBatch
  | big => bigRefillBatch

def emptySpanCachePerClass : SpanTier → Nat
  | medium => 32
  | big => 4

def maxEmptySpanBytesPerClass : Nat := 8 * 1024 * 1024
def maxColdSpanSlots : Nat := 256
def maxColdSpanBytesPerClass : Nat := 256 * 1024 * 1024

/-- The blocks of `[start, stop)`, in address order. -/
def blocksFrom (size start stop : Nat) : List Nat :=
  (List.range ((stop - start) / size)).map fun i => start + i * size

/-- The blocks a carve pushes, in order. Off the arena a medium block stays inside one page. -/
def carve (t : SpanTier) (c : Fin t.num) (base npages : Nat) (onArena : Bool) : List Nat :=
  let size := t.blockSize c
  if onArena || t = big then blocksFrom size (base + spanMasterSize) (base + npages * pageSize)
  else
    ((List.range npages).map fun page =>
      let chunk := base + page * pageSize
      blocksFrom size (chunk + if page = 0 then spanMasterSize else spanSubSize)
        (chunk + pageSize)).flatten

end SpanTier

structure SpanList where
  head : List Nat
  empty : List Nat
  emptyCount : Nat
  emptyBytes : Nat
  cold : List (Nat × Nat)
  coldBytes : Nat

/-- A cold span keeps its extent only. -/
inductive Span (t : SpanTier) where
  | active (master : SpanMaster t)
  | cold (c : Fin t.num) (npages : Nat)

structure SpanHeap (t : SpanTier) where
  spans : Nat → Option (Span t)
  lists : Fin t.num → SpanList
  masters : Nat → Nat

/-- A chain of `n` blocks of one span, and the pointer to its last block. -/
structure ReleaseChunk where
  span : Nat
  chain : List Nat
  tail : Nat
  n : Nat

variable {t : SpanTier}

section

-- `arena::contains`
variable (arena : Nat → Nat → Bool)

/-- `SpanMaster::init` and `BigMaster::init`. -/
def SpanMaster.init (c : Fin t.num) (base npages : Nat) : SpanMaster t :=
  let blocks := t.carve c base npages (arena base (npages * pageSize))
  { cls := c, free := blocks.reverse, freeCount := blocks.length, used := 0, inPartial := false,
    virgin := true, npages }

/-- The first free block is taken. -/
def SpanMaster.popped (m : SpanMaster t) (rest : List Nat) : SpanMaster t :=
  { m with free := rest, freeCount := m.freeCount - 1, used := m.used + 1 }

def SpanMaster.mappedBytes (m : SpanMaster t) : Nat := m.npages * pageSize

namespace SpanHeap

def new : SpanHeap t :=
  { spans := fun _ => none
    lists := fun _ =>
      { head := [], empty := [], emptyCount := 0, emptyBytes := 0, cold := [], coldBytes := 0 }
    masters := fun _ => 0 }

/-- What a pointer to a master reads; nothing is promised if it is not one. -/
def master (h : SpanHeap t) (s : Nat) : SpanMaster t :=
  match h.spans s with
  | some (.active m) => m
  | _ => { cls := 0, free := [], freeCount := 0, used := 0, inPartial := false, virgin := false,
           npages := 0 }

/-- A write through a pointer to a master. Where there is none the write is lost on other memory. -/
def setMaster (h : SpanHeap t) (s : Nat) (m : SpanMaster t) : SpanHeap t :=
  match h.spans s with
  | some (.active _) => { h with spans := Function.update h.spans s (some (.active m)) }
  | _ => h

def setList (h : SpanHeap t) (c : Fin t.num) (l : SpanList) : SpanHeap t :=
  { h with lists := Function.update h.lists c l }

/-- `SpanMaster::of` and `big_table_get`. -/
def masterOf (h : SpanHeap t) (p : Nat) : Nat := h.masters (p / pageSize)

/-- Enter or clear the units of a span. -/
def setMasters (h : SpanHeap t) (base npages : Nat) (value : Nat) : SpanHeap t :=
  { h with masters := fun u =>
      if base / pageSize ≤ u ∧ u < base / pageSize + npages then value else h.masters u }

def linkPartial (h : SpanHeap t) (c : Fin t.num) (s : Nat) : SpanHeap t :=
  let h := h.setList c { h.lists c with head := s :: (h.lists c).head }
  h.setMaster s { h.master s with inPartial := true }

def unlinkPartial (h : SpanHeap t) (c : Fin t.num) (s : Nat) : SpanHeap t :=
  if (h.master s).inPartial then
    let h := h.setList c { h.lists c with head := (h.lists c).head.erase s }
    h.setMaster s { h.master s with inPartial := false }
  else h

/-- `mfill_from_list` and `bfill_from_list`, for at most `n` rounds. -/
def fillSpans (c : Fin t.num) (cap : Nat) : Nat → SpanHeap t → Fill → SpanHeap t × Fill
  | 0, h, f => (h, f)
  | n + 1, h, f =>
      if cap ≤ f.count then (h, f)
      else
        match (h.lists c).head with
        | [] => (h, f)
        | s :: _ =>
            let m := h.master s
            let f := if m.virgin then f else { f with virgin := false }
            match m.free with
            | b :: rest =>
                let m := m.popped rest
                let h := h.setMaster s m
                let f := { f with chain := b :: f.chain, count := f.count + 1 }
                fillSpans c cap n (if m.freeCount = 0 then h.unlinkPartial c s else h) f
            | [] => fillSpans c cap n (h.unlinkPartial c s) f

/-- Every round takes a block or takes a span off the list. -/
def fillFromList (h : SpanHeap t) (c : Fin t.num) (f : Fill) : SpanHeap t × Fill :=
  let cap := t.refillBatch c
  fillSpans c cap (cap + (h.lists c).head.length + 1) h f

/-- With nothing gathered, an empty span is reused. -/
def takeEmpty (h : SpanHeap t) (c : Fin t.num) (f : Fill) : SpanHeap t × Fill :=
  match f.count, (h.lists c).empty with
  | 0, s :: rest =>
      let l := h.lists c
      let m := h.master s
      let h := h.setList c { l with
        empty := rest
        emptyCount := l.emptyCount - 1
        emptyBytes := l.emptyBytes - m.mappedBytes }
      (h.linkPartial c s).fillFromList c { f with virgin := f.virgin && m.virgin }
  | _, _ => (h, f)

/-- Then a cold one, which is carved anew. -/
def takeCold (h : SpanHeap t) (c : Fin t.num) (f : Fill) : SpanHeap t × Fill :=
  match f.count, (h.lists c).cold with
  | 0, (base, pages) :: rest =>
      let l := h.lists c
      let h := h.setList c { l with cold := rest, coldBytes := l.coldBytes - pages * pageSize }
      let m := { SpanMaster.init arena c base pages with virgin := false }
      let h := { h with spans := Function.update h.spans base (some (.active m)) }
      (h.linkPartial c base).fillFromList c { f with virgin := false }
  | _, _ => (h, f)

/-- The part of `take_blocks` under the first lock. -/
def takeLocked (h : SpanHeap t) (c : Fin t.num) : SpanHeap t × Fill :=
  let (h, f) := h.fillFromList c { chain := [], count := 0, virgin := true }
  let (h, f) := h.takeEmpty c f
  h.takeCold arena c f

/-- Carving the span `raw` just mapped, before anybody else can see it. -/
def carveMapped (h : SpanHeap t) (c : Fin t.num) (raw : Nat) : SpanHeap t :=
  let pages := t.spanPages c
  let m := SpanMaster.init arena c raw pages
  let h := { h with spans := Function.update h.spans raw (some (.active m)) }
  h.setMasters raw pages raw

/-- The part under the second lock. -/
def takeMapped (h : SpanHeap t) (c : Fin t.num) (raw : Nat) (f : Fill) : SpanHeap t × Fill :=
  (h.linkPartial c raw).fillFromList c f

/-- A span without blocks outside: kept empty, cooled, or out of the heap. The table forgets an arena
span here, under the lock. -/
def parkEmptySpan (h : SpanHeap t) (c : Fin t.num) (d : Discarded) (s : Nat) :
    SpanHeap t × Fate :=
  let h := h.unlinkPartial c s
  let l := h.lists c
  let m := h.master s
  if l.emptyCount < t.emptySpanCachePerClass &&
      l.emptyBytes + m.mappedBytes ≤ SpanTier.maxEmptySpanBytesPerClass then
    (h.setList c { l with
      empty := s :: l.empty
      emptyCount := l.emptyCount + 1
      emptyBytes := l.emptyBytes + m.mappedBytes }, .keep)
  else if l.cold.length < SpanTier.maxColdSpanSlots &&
      l.coldBytes + m.mappedBytes ≤ SpanTier.maxColdSpanBytesPerClass then
    let h := h.setList c { l with
      cold := (s, m.npages) :: l.cold
      coldBytes := l.coldBytes + m.mappedBytes }
    ({ h with spans := Function.update h.spans s (some (.cold c m.npages)) }, .cooled d)
  else
    let h := { h with spans := Function.update h.spans s none }
    (if t = .big || arena s m.mappedBytes then h.setMasters s m.npages 0 else h,
      .unmap m.mappedBytes)

/-- The splice: the medium tier is handed the tail, the big tier walks to it. -/
def splice (t : SpanTier) (x : ReleaseChunk) (free : List Nat) : List Nat :=
  match t with
  | .medium => spliceAt x.chain x.tail free
  | .big => x.chain ++ free

/-- `mrelease_inner` and `brelease_inner`. -/
def releaseInner (h : SpanHeap t) (c : Fin t.num) (d : Discarded) (x : ReleaseChunk) :
    SpanHeap t × Fate :=
  let m := h.master x.span
  let m := { m with
    virgin := false
    free := splice t x m.free
    freeCount := m.freeCount + x.n
    used := m.used - x.n }
  let h := h.setMaster x.span m
  if m.used = 0 then h.parkEmptySpan arena c d x.span
  else if m.inPartial then (h, .keep)
  else (h.linkPartial c x.span, .keep)

/-- The critical section of `MediumHeap::release_many`; `d` answers the discards in order. -/
def releaseBatch (c : Fin t.num) : SpanHeap t → (Nat → Discarded) → List ReleaseChunk →
    SpanHeap t × List (Nat × Fate)
  | h, _, [] => (h, [])
  | h, d, x :: rest =>
      let (h, fate) := h.releaseInner arena c (d 0) x
      let (h, fates) := releaseBatch c h (fun i => d (i + 1)) rest
      (h, (x.span, fate) :: fates)

end SpanHeap

end

end Allox
