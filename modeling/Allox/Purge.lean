import Allox.Proof.LargeSections
import Allox.Proof.RegionIndex
import Allox.Lib.Residency

/-!
# What the heaps do to memory

Each section of a heap with what it does to the memory, in order: the pages, spans and regions it may
read or write, its discards and its recommits. A touch counts the whole page, span or region; where a
section walks a list, all of the list counts, of a bucket of the registry the headers. What a thread has
it may use at any time, and with a block the header of its page or span, which is read outside the locks.

A discard leaves the range inaccessible only if it dropped the pages and did not report zeros.
-/

namespace Allox

open Residency Resumption

/-- What one discard does. -/
structure Purge where
  report : Discarded
  gone : Bool
  honest : gone = true → report.physical = true ∧ report.zeroed = false

/-- `MEM_DECOMMIT`. -/
def Purge.decommit : Purge := ⟨⟨true, false⟩, true, fun _ => ⟨rfl, rfl⟩⟩

abbrev MemEvent := Event Discarded

/-- The discard of the page, span or region at `base`, if that was cooled. -/
def coolEvents (p : Purge) (base bytes : Nat) : Fate → List MemEvent
  | .cooled _ => [.drop ⟨base, bytes⟩ p.report p.gone]
  | _ => []

/-- The arrays behind the cold list of a small class: the pages, and beside them what each discard
reported. A slot is written again when the array has shrunk and grown. -/
structure ColdSlots where
  len : Nat
  cold : Nat → Nat
  zeroed : Nat → Bool
  decommitted : Nat → Bool

namespace ColdSlots

variable (a : ColdSlots)

def new : ColdSlots :=
  { len := 0, cold := fun _ => 0, zeroed := fun _ => false, decommitted := fun _ => false }

/-- The page first, then the flags of its discard. -/
def push (page : Nat) (d : Discarded) : ColdSlots :=
  { len := a.len + 1
    cold := Function.update a.cold a.len page
    zeroed := Function.update a.zeroed a.len d.zeroed
    decommitted := Function.update a.decommitted a.len d.physical }

def entry (i : Nat) : ColdPage := ⟨a.cold i, a.decommitted i, a.zeroed i⟩

def pop : ColdSlots :=
  { len := a.len - 1
    cold := Function.update a.cold (a.len - 1) 0
    zeroed := Function.update a.zeroed (a.len - 1) false
    decommitted := Function.update a.decommitted (a.len - 1) false }

/-- The entries, the last one first. -/
def list : List ColdPage := (List.range a.len).reverse.map a.entry

end ColdSlots

namespace SmallHeap

variable (h : SmallHeap) (c : Fin numClasses)

/-- The pages of the class list. -/
def listTouches : List MemEvent := ((h.lists c).head.map fun p => ⟨p, pageSize⟩).map .touch

/-- Reading and reinitialising an empty page, linking and filling from it. -/
def emptyEvents (f : Fill) : List MemEvent :=
  match f.count, (h.lists c).empty with
  | 0, p :: _ => .touch ⟨p, pageSize⟩ :: h.listTouches c
  | _, _ => []

/-- The bookkeeping of the last slot is read from the arrays, never from the page. -/
def coldEvents (f : Fill) (a : ColdSlots) : List MemEvent :=
  if f.count = 0 ∧ a.len ≠ 0 then
    let x := a.entry (a.len - 1)
    (if x.decommitted then [.commit ⟨x.page, pageSize⟩] else []) ++
      .touch ⟨x.page, pageSize⟩ :: h.listTouches c
  else []

/-- Of `takeLocked`, with the arrays before it. -/
def takeEvents (a : ColdSlots) : List MemEvent :=
  let (h₁, f₁) := h.fillFromList c { chain := [], count := 0, virgin := true }
  let (h₂, f₂) := h₁.takeEmpty c f₁
  h.listTouches c ++ h₁.emptyEvents c f₁ ++ h₂.coldEvents c f₂ a

/-- The arrays after `takeLocked`. -/
def takeSlots (a : ColdSlots) : ColdSlots :=
  let (h₁, f₁) := h.fillFromList c { chain := [], count := 0, virgin := true }
  if (h₁.takeEmpty c f₁).2.count = 0 ∧ a.len ≠ 0 then a.pop else a

/-- Of `takeMapped`. -/
def mappedEvents (raw : Nat) : List MemEvent := .touch ⟨raw, pageSize⟩ :: h.listTouches c

/-- A round of `releaseBatch`. -/
def releaseChunk (d : Discarded) (x : PageReleaseChunk) : SmallHeap × Fate :=
  if x.n = (h.header x.page).used then h.retirePageInner c d x.page else h.releaseInner c d x

/-- Of `releaseInner` and `retirePageInner`, by what becomes of the page. -/
def releaseEvents (p : Purge) (page : Nat) (fate : Fate) : List MemEvent :=
  .touch ⟨page, pageSize⟩ :: h.listTouches c ++ coolEvents p page pageSize fate

/-- The arrays after them. -/
def releaseSlots (d : Discarded) (page : Nat) (fate : Fate) (a : ColdSlots) : ColdSlots :=
  match fate with
  | .cooled _ => a.push page d
  | _ => a

end SmallHeap

namespace SpanHeap

variable {t : SpanTier} (h : SpanHeap t) (c : Fin t.num) (arena : Nat → Nat → Bool)

def listTouches : List MemEvent :=
  ((h.lists c).head.map fun s => ⟨s, (h.master s).mappedBytes⟩).map .touch

def emptyEvents (f : Fill) : List MemEvent :=
  match f.count, (h.lists c).empty with
  | 0, s :: _ => .touch ⟨s, (h.master s).mappedBytes⟩ :: h.listTouches c
  | _, _ => []

/-- The recommit is unconditional. -/
def coldEvents (f : Fill) : List MemEvent :=
  match f.count, (h.lists c).cold with
  | 0, (base, pages) :: _ =>
      .commit ⟨base, pages * pageSize⟩ :: .touch ⟨base, pages * pageSize⟩ :: h.listTouches c
  | _, _ => []

/-- Of `takeLocked`. -/
def takeEvents : List MemEvent :=
  let (h₁, f₁) := h.fillFromList c { chain := [], count := 0, virgin := true }
  let (h₂, f₂) := h₁.takeEmpty c f₁
  h.listTouches c ++ h₁.emptyEvents c f₁ ++ h₂.coldEvents c f₂

/-- Of `carveMapped` and `takeMapped`. -/
def mappedEvents (raw : Nat) : List MemEvent :=
  .touch ⟨raw, t.spanPages c * pageSize⟩ :: h.listTouches c

/-- Of `releaseInner`. -/
def releaseEvents (p : Purge) (x : ReleaseChunk) : List MemEvent :=
  .touch ⟨x.span, (h.master x.span).mappedBytes⟩ :: h.listTouches c ++
    coolEvents p x.span (h.master x.span).mappedBytes (h.releaseInner arena c p.report x).2

end SpanHeap

/-- Of `take_fit` with the recommit by its caller, to whom the region belongs then. -/
def fitEvents (taken : Option TakenRegion) : List MemEvent :=
  match taken with
  | some x => if x.decommitted then [.commit ⟨x.base, x.pages * pageSize⟩] else []
  | none => []

/-- Of `purge_for_handoff`. -/
def handoffEvents (p : Purge) (base mapped : Nat) : List MemEvent :=
  .drop ⟨base, mapped⟩ p.report p.gone ::
    if p.report.physical && !p.report.zeroed then [.commit ⟨base, mapped⟩] else []

/-- A page, span or region on a cold list, with what its reuse goes by. -/
structure ColdEntry where
  purpose : Purpose
  base : Nat
  pages : Nat
  recommits : Bool
  zeroed : Bool

def ColdEntry.stretch (e : ColdEntry) : Stretch := ⟨e.base, e.pages * pageSize⟩

/-- The flags are those of the report. A cold span has none: it is recommitted and taken for dirty. -/
def ColdEntry.Tells (e : ColdEntry) (d : Discarded) : Prop :=
  match e.purpose with
  | .small => e.recommits = d.physical ∧ e.zeroed = d.zeroed
  | .span _ => e.recommits = true ∧ e.zeroed = false
  | .large => e.recommits = (d.physical && !d.zeroed) ∧ e.zeroed = d.zeroed

namespace World

variable (w : World)

def Cold (e : ColdEntry) : Prop :=
  match e.purpose with
  | .small => e.pages = 1 ∧ ∃ c, ⟨e.base, e.recommits, e.zeroed⟩ ∈ (w.small.lists c).cold
  | .span t => e.recommits = true ∧ e.zeroed = false ∧
      ∃ c, (e.base, e.pages) ∈ ((w.spans t).lists c).cold
  | .large => ∃ i, ⟨e.base, e.pages, e.zeroed, e.recommits⟩ ∈ (w.shards i).cold.items

/-- The bytes behind a token. -/
def stretch : Token → Stretch
  | .block b _ => ⟨b.addr, classSize b.cls⟩
  | .span t b _ => ⟨b.addr, t.blockSize b.cls⟩
  | .extent m _ => ⟨m.base, m.len⟩
  | .region p => ⟨(w.regionAt p).1, (w.regionAt p).2 * pageSize⟩

/-- What the holder reads of the heap to give a token back: the page or span of a block. -/
def home : Token → Stretch
  | .block b _ => ⟨pageOf b.addr, pageSize⟩
  | .span t b _ =>
      ⟨(w.spans t).masterOf b.addr, ((w.spans t).master ((w.spans t).masterOf b.addr)).mappedBytes⟩
  | x => w.stretch x

/-- The headers of the regions in a bucket. -/
def bucketTouches (b : Nat) : List MemEvent :=
  ((w.registry b).map fun hdr => ⟨hdr, largeHeaderSize⟩).map .touch

/-- Of `unregister_large_region`. Only off the arena is there a bucket to walk. -/
def unregisterEvents (hdr base mapped : Nat) : List MemEvent :=
  .touch ⟨base, mapped⟩ :: if w.arena base mapped then [] else w.bucketTouches (legacyBucket hdr)

/-- A section: what its thread must hold, the world, the arrays and what the thread holds afterwards,
and what happens to the memory in between. -/
inductive Section (k : Fin numClasses → ColdSlots) :
    Multiset Token → World → (Fin numClasses → ColdSlots) → Multiset Token → List MemEvent → Prop
  | takeSmall (c : Fin numClasses) (z : Bool) :
      Section k 0 { w with small := (w.small.takeLocked c).1 }
        (Function.update k c (w.small.takeSlots c (k c)))
        (uniform (fun a => .block ⟨c, a⟩) z (w.small.takeLocked c).2.chain)
        (w.small.takeEvents c (k c))
  | takeMapped (c : Fin numClasses) (raw : Nat) (z virgin : Bool) {r : SmallHeap × Fill}
      (hr : r = w.small.takeMapped c raw { chain := [], count := 0, virgin }) :
      Section k {.extent ⟨raw, pageSize, .small⟩ z} { w with small := r.1 } k
        (uniform (fun a => .block ⟨c, a⟩) z r.2.chain) (w.small.mappedEvents c raw)
  | release (c : Fin numClasses) (x : PageReleaseChunk) (hx : SmallHeap.Chunk c x) (p : Purge)
      {r : SmallHeap × Fate} (hr : r = w.small.releaseChunk c p.report x) :
      Section k (blockTokens (SmallHeap.chunkBlocks c [x])) { w with small := r.1 }
        (Function.update k c (SmallHeap.releaseSlots p.report x.page r.2 (k c)))
        (fateTokens .small [(x.page, r.2)]) (w.small.releaseEvents c p x.page r.2)
  | releaseBlocks (c : Fin numClasses) (x : PageReleaseChunk) (hx : SmallHeap.Chunk c x) (p : Purge)
      {cls : Fin numClasses} {r : SmallHeap × Fate} (hcls : cls = (w.small.header x.page).cls)
      (hr : r = w.small.releaseInner cls p.report x) :
      Section k (blockTokens (SmallHeap.chunkBlocks c [x])) { w with small := r.1 }
        (Function.update k cls (SmallHeap.releaseSlots p.report x.page r.2 (k cls)))
        (fateTokens .small [(x.page, r.2)]) (w.small.releaseEvents cls p x.page r.2)
  | takeSpans (t : SpanTier) (c : Fin t.num) (z : Bool) {r : SpanHeap t × Fill}
      (hr : r = (w.spans t).takeLocked w.arena c) :
      Section k 0 (w.setSpans t r.1) k (uniform (fun a => .span t ⟨c, a, none⟩) z r.2.chain)
        ((w.spans t).takeEvents c)
  | takeMappedSpans (t : SpanTier) (c : Fin t.num) (raw : Nat) (z virgin : Bool)
      {r : SpanHeap t × Fill} (hr : r = ((w.spans t).carveMapped w.arena c raw).takeMapped c raw
        { chain := [], count := 0, virgin }) :
      Section k {.extent ⟨raw, t.spanPages c * pageSize, .span t⟩ z} (w.setSpans t r.1) k
        (uniform (fun a => .span t ⟨c, a, none⟩) z r.2.chain) ((w.spans t).mappedEvents c raw)
  | releaseSpan (t : SpanTier) (c : Fin t.num) (x : ReleaseChunk) (hx : SpanHeap.Chunk x)
      (p : Purge) {cls : Fin t.num} {r : SpanHeap t × Fate}
      (hcls : cls = if t = .big then ((w.spans t).master x.span).cls else c)
      (hr : r = (w.spans t).releaseInner w.arena cls p.report x) :
      Section k (spanTokens t (SpanHeap.chunkBlocks c x)) (w.setSpans t r.1) k
        (fateTokens (.span t) [(x.span, r.2)]) ((w.spans t).releaseEvents cls w.arena p x)
  | takeFit (i : Fin numLargeShards) (mapped : Nat) (z : Bool)
      {r : LargeRegionCache × Option TakenRegion} (hr : r = (w.shards i).takeFit mapped) :
      Section k 0 { w with shards := Function.update w.shards i r.1 } k
        (r.2.elim 0 fun x => {.extent ⟨x.base, x.pages * pageSize, .large⟩ z}) (fitEvents r.2)
  | park (i : Fin numLargeShards) (base pages : Nat) (z : Bool) (p : Purge)
      {r : LargeRegionCache × Fate}
      (hr : r = (w.shards i).park p.report base pages (pages * pageSize)) :
      Section k {.extent ⟨base, pages * pageSize, .large⟩ z}
        { w with shards := Function.update w.shards i r.1 } k
        (fateTokens .large [(base, r.2)]) (coolEvents p base (pages * pageSize) r.2)
  | handoff (base mapped : Nat) (z : Bool) (p : Purge) :
      Section k {.extent ⟨base, mapped, .large⟩ z} w k
        {.extent ⟨base, mapped, .large⟩ p.report.zeroed} (handoffEvents p base mapped)
  | register (base mapped size ret : Nat) (z : Bool) (hheader : base + largeHeaderSize ≤ ret)
      (hfits : ret + size ≤ base + mapped) :
      Section k {.extent ⟨base, mapped, .large⟩ z}
        (w.registerRegion (ret - largeHeaderSize) base mapped size) k {.region ret}
        [.touch ⟨base, mapped⟩]
  | unregister (p : Nat) {g : LargeHeader} (hg : g = w.header (p - largeHeaderSize)) :
      Section k {.region p} (w.unregisterRegion (p - largeHeaderSize) g.base g.mappedSize) k
        {.extent ⟨g.base, g.mappedSize, .large⟩ false}
        (w.unregisterEvents (p - largeHeaderSize) g.base g.mappedSize)
  | lookup (p : Nat) : Section k 0 w k 0 (w.bucketTouches (legacyBucket (p - largeHeaderSize)))
  | resize (p size : Nat) {g : LargeHeader} (hg : g = w.header (p - largeHeaderSize)) :
      Section k {.region p} (w.resizeHeader (p - largeHeaderSize) { g with requestedSize := size }) k
        {.region p} [.touch ⟨g.base, g.mappedSize⟩]
  | extend (p size newMapped : Nat) {g : LargeHeader} (hg : g = w.header (p - largeHeaderSize))
      (hgrowth : w.growth p size = .extend newMapped)
      (hcan : w.canExtend g.base g.mappedSize newMapped = true) :
      Section k {.region p} (w.extendRegion p newMapped size) k {.region p}
        [.touch ⟨g.base, g.mappedSize⟩, .commit ⟨g.base + g.mappedSize, newMapped - g.mappedSize⟩,
          .touch ⟨g.base, newMapped⟩]
  | map (x : Mapping) (z : Bool) (hcan : w.canMap x = true)
      (hlen : 0 < x.len ∧ x.len % pageSize = 0 ∧ (x.use = .small → x.len = pageSize)) :
      Section k 0 { w with mapped := x :: w.mapped } k {.extent x z} [.commit ⟨x.base, x.len⟩]
  | unmap (x : Mapping) (z taken : Bool) (htaken : taken = false → w.arena x.base x.len = false) :
      Section k {.extent x z} (w.unmap x taken) k 0 []
  | use (x : Token) : Section k {x} w k {x} [.touch (w.home x), .touch (w.stretch x)]

end World

/-- The shared state with the arrays behind its small cold lists, what threads hold, and the memory. -/
structure Purging where
  world : World
  slots : Fin numClasses → ColdSlots
  held : Multiset Token
  memory : Memory Discarded

namespace Purging

def init (arenaStart arenaEnd : Nat) : Purging :=
  ⟨.init arenaStart arenaEnd, fun _ => .new, 0, .fresh⟩

/-- A thread runs a section on some of what is held. -/
inductive Step (s : Purging) : List MemEvent → Purging → Prop
  | run {A A' R : Multiset Token} {w' : World} {k : Fin numClasses → ColdSlots}
      {events : List MemEvent} (hheld : s.held = A + R)
      (h : s.world.Section s.slots A w' k A' events) :
      Step s events ⟨w', k, A' + R, s.memory.run events⟩

inductive Reach : Purging → Prop
  | init (arenaStart arenaEnd : Nat) : Reach (.init arenaStart arenaEnd)
  | step {s s' : Purging} {events : List MemEvent} (h : Reach s) (hstep : s.Step events s') :
      Reach s'

end Purging

end Allox
