import Allox.Proof.SpanHeap
import Allox.Cache
import Allox.ZeroedBlocks

/-!
# Spans that need no memset

The span tiers next to the bytes of memory, as `ZeroedBlocks` has the small one. A bin and an active list
are both lists here; an active list has the span it is of, and `flush_active_medium` and
`flush_active_big` return it to that span without a look at the blocks. Everybody else asks
`SpanMaster::of` or `big_table_get`, and an answer stays with the block that is in hand.

A block joins an active list only if it is of its span. That is what the big tier tests; the medium tier
tests the window of addresses.
-/

namespace Allox

open Function

/-- Where the allocator writes the master and, off the arena, the sub-headers. -/
def SpanTier.InHeader (t : SpanTier) (base npages : Nat) (onArena : Bool) (a : Nat) : Prop :=
  base ≤ a ∧ a < base + spanMasterSize ∨
    ¬(onArena = true ∨ t = .big) ∧ base ≤ a ∧ a < base + npages * pageSize ∧
      (a - base) % pageSize < spanSubSize

/-- `ι` are the bins and the active lists of all caches. A list has the blocks of one class, and `span` if it
is an active one. Fresh extents are mapped and not in the heap yet, doomed ones not in it any more. -/
structure SpanStore (t : SpanTier) (ι : Type) where
  heap : SpanHeap t
  cls : ι → Fin t.num
  span : ι → Option Nat
  lists : ι → Bin
  hand : Multiset (SpanBlock t × Bool)
  live : Multiset (SpanBlock t)
  fresh : Multiset (Nat × Nat)
  doomed : Multiset (Nat × Nat)
  mapped : Multiset (Nat × Nat)
  mem : Nat → UInt8

variable {t : SpanTier} {ι : Type}

/-- A chain in hand. -/
def spansInHand (c : Fin t.num) (home : Option Nat) (virgin : Bool) (chain : List Nat) :
    Multiset (SpanBlock t × Bool) :=
  ↑(chain.map fun p => ((⟨c, p, home⟩ : SpanBlock t), virgin))

namespace SpanStore

def new (cls : ι → Fin t.num) (mem : Nat → UInt8) : SpanStore t ι :=
  { heap := .new, cls, span := fun _ => none, lists := fun _ => .empty, hand := 0, live := 0, fresh := 0,
    doomed := 0, mapped := 0, mem }

/-- The blocks of a list. -/
def blocks (s : SpanStore t ι) (k : ι) : Multiset (SpanBlock t) :=
  spanBlocks (s.cls k) (s.span k) (s.lists k).blocks

/-- All blocks outside the heap. -/
def out [Fintype ι] (s : SpanStore t ι) : Multiset (SpanBlock t) :=
  s.live + (s.hand.map Prod.fst + ∑ k, s.blocks k)

def setList [DecidableEq ι] (s : SpanStore t ι) (k : ι) (home : Option Nat) (b : Bin) : SpanStore t ι :=
  { s with span := update s.span k home, lists := update s.lists k b }

/-- What an extent that was given back may read as: if it stays in the heap it is not touched. -/
structure Settles (base npages : Nat) (fate : Fate) (mem mem' : Nat → UInt8) : Prop where
  elsewhere : ∀ a, ¬(base ≤ a ∧ a < base + npages * pageSize) → mem' a = mem a
  kept : fate = .keep → mem' = mem

-- `arena::contains`
variable (arena : Nat → Nat → Bool)

inductive Step [DecidableEq ι] : SpanStore t ι → SpanStore t ι → Prop
  /-- `map_heap_pages`. -/
  | map {s : SpanStore t ι} (e : Nat × Nat) (mem : Nat → UInt8) (hextents : Extents ({e} + s.mapped))
      (helsewhere : ∀ a, ¬(e.1 ≤ a ∧ a < e.1 + e.2 * pageSize) → mem a = s.mem a)
      (hzero : ∀ a, e.1 ≤ a → a < e.1 + e.2 * pageSize → mem a = 0) :
      Step s { s with fresh := {e} + s.fresh, mapped := {e} + s.mapped, mem }
  | unmap {s : SpanStore t ι} (e : Nat × Nat) (doomed mapped : Multiset (Nat × Nat))
      (hdoomed : s.doomed = {e} + doomed) (hmapped : s.mapped = {e} + mapped) :
      Step s { s with doomed, mapped }
  /-- The first section of `take_blocks`. -/
  | takeLocked {s : SpanStore t ι} (c : Fin t.num) :
      Step s { s with
        heap := (s.heap.takeLocked arena c).1
        hand := s.hand + spansInHand c none (s.heap.takeLocked arena c).2.virgin
          (s.heap.takeLocked arena c).2.chain }
  /-- The second one, with the span that was mapped between the two. -/
  | takeMapped {s : SpanStore t ι} (c : Fin t.num) (p : Nat) (virgin : Bool) (fresh : Multiset (Nat × Nat))
      (hfresh : s.fresh = {(p, t.spanPages c)} + fresh) :
      Step s { s with
        heap := ((s.heap.carveMapped arena c p).takeMapped c p ⟨[], 0, virgin⟩).1
        hand := s.hand + spansInHand c none
          ((s.heap.carveMapped arena c p).takeMapped c p ⟨[], 0, virgin⟩).2.virgin
          ((s.heap.carveMapped arena c p).takeMapped c p ⟨[], 0, virgin⟩).2.chain
        fresh }
  /-- `SpanMaster::of` and `big_table_get`, or what they said is forgotten. -/
  | identify {s : SpanStore t ι} (b : SpanBlock t) (home : Option Nat) (virgin : Bool)
      (hand : Multiset (SpanBlock t × Bool)) (hhand : s.hand = {(b, virgin)} + hand)
      (hhome : ∀ x, home = some x → x = s.heap.masterOf b.addr) :
      Step s { s with hand := {({ b with home }, virgin)} + hand }
  /-- The end of a refill, into the bin or, if all blocks are of one span, the active list. -/
  | install {s : SpanStore t ι} (k : ι) (home : Option Nat) (virgin : Bool) (rest : List Nat)
      (hand : Multiset (SpanBlock t × Bool)) (hempty : (s.lists k).blocks = [])
      (hhand : s.hand = spansInHand (s.cls k) home virgin rest + hand) :
      Step s { s.setList k home
          { blocks := rest, len := rest.length, virgin := if virgin then rest.length else 0 } with hand }
  | pop {s : SpanStore t ι} (k : ι) (p : Nat) (virgin : Bool) (b : Bin)
      (hpop : (s.lists k).pop = some (p, virgin, b)) :
      Step s { s.setList k (s.span k) b with hand := {(⟨s.cls k, p, s.span k⟩, virgin)} + s.hand }
  | push {s : SpanStore t ι} (k : ι) (p : Nat) (virgin : Bool) (hand : Multiset (SpanBlock t × Bool))
      (hhand : s.hand = {(⟨s.cls k, p, s.span k⟩, virgin)} + hand) :
      Step s { s.setList k (s.span k) ((s.lists k).push p) with hand }
  /-- `flush_active_medium` and `flush_active_big` take the list whole. -/
  | drain {s : SpanStore t ι} (k : ι) :
      Step s { s.setList k none .empty with
        hand := s.hand + spansInHand (s.cls k) (s.span k) false (s.lists k).blocks }
  /-- The end of `flush_all`. -/
  | forget {s : SpanStore t ι} (k : ι) :
      Step s (s.setList k (s.span k) { s.lists k with virgin := 0 })
  /-- `mrelease_inner` and `brelease_inner`, in any section that releases. -/
  | release {s : SpanStore t ι} (c : Fin t.num) (x : ReleaseChunk) (d : Discarded)
      (hand back : Multiset (SpanBlock t × Bool)) (mem : Nat → UInt8) (hx : SpanHeap.Chunk x)
      (hhand : s.hand = hand + back) (hback : back.map Prod.fst = SpanHeap.chunkBlocks c x)
      (hmem : Settles x.span (s.heap.master x.span).npages (s.heap.releaseInner arena c d x).2 s.mem
        mem) :
      Step s { s with
        heap := (s.heap.releaseInner arena c d x).1
        hand
        doomed := SpanHeap.unmapped x.span (s.heap.releaseInner arena c d x).2 + s.doomed
        mem }
  /-- `alloc_medium` and `alloc_big` return a block as it is. -/
  | give {s : SpanStore t ι} (b : SpanBlock t) (virgin : Bool) (hand : Multiset (SpanBlock t × Bool))
      (hhand : s.hand = {(b, virgin)} + hand) :
      Step s { s with hand, live := {b} + s.live }
  /-- `alloc_zeroed_impl` returns a block. -/
  | giveZeroed {s : SpanStore t ι} (b : SpanBlock t) (virgin : Bool)
      (hand : Multiset (SpanBlock t × Bool)) (size : Nat) (hhand : s.hand = {(b, virgin)} + hand) :
      Step s { s with
        hand
        live := {b} + s.live
        mem := SmallTier.zeroFill s.mem b.addr size virgin }
  | free {s : SpanStore t ι} (b : SpanBlock t) (live : Multiset (SpanBlock t))
      (hlive : s.live = {b} + live) :
      Step s { s with hand := {(b, false)} + s.hand, live }
  /-- A user writes to its block. -/
  | write {s : SpanStore t ι} (b : SpanBlock t) (a : Nat) (v : UInt8) (hlive : b ∈ s.live)
      (hlow : b.addr ≤ a) (hhigh : a < b.addr + t.blockSize b.cls) :
      Step s { s with mem := update s.mem a v }
  /-- The allocator writes to the headers of a span. -/
  | header {s : SpanStore t ι} (base a : Nat) (m : SpanMaster t) (v : UInt8)
      (hspan : s.heap.spans base = some (.active m))
      (ha : t.InHeader base m.npages (arena base (m.npages * pageSize)) a) :
      Step s { s with mem := update s.mem a v }
  /-- The allocator writes to the link word of a block. -/
  | link {s : SpanStore t ι} (base p a : Nat) (m : SpanMaster t) (v : UInt8)
      (hspan : s.heap.spans base = some (.active m))
      (hp : p ∈ t.carve m.cls base m.npages (arena base (m.npages * pageSize))) (hlow : p ≤ a)
      (hhigh : a < p + linkBytes) :
      Step s { s with mem := update s.mem a v }

/-- Any run, from any memory. -/
inductive Reach [DecidableEq ι] : SpanStore t ι → Prop
  | new (cls : ι → Fin t.num) (mem : Nat → UInt8) : Reach (new cls mem)
  | step {s s' : SpanStore t ι} (h : Reach s) (hstep : Step arena s s') : Reach s'

end SpanStore

end Allox
