import Allox.SpanHeap
import Allox.Proof.SmallHeap

/-!
# Every block of a span is in one place

The same ledger for the span heaps: the free list of a span and its blocks outside are together what
was carved. A block outside may carry the span it was found in, its `home`; blocks that sit in an
active list or in a chunk on its way back do. `loose` is the spans mapped but in no list.
-/

namespace Allox

open Function

structure SpanBlock (t : SpanTier) where
  cls : Fin t.num
  addr : Nat
  home : Option Nat
  deriving DecidableEq

variable {t : SpanTier}

def spanBlocks (c : Fin t.num) (home : Option Nat) (chain : List Nat) : Multiset (SpanBlock t) :=
  ↑(chain.map fun a => SpanBlock.mk c a home)

/-- The blocks outside that lie in the `n` pages from `s` on. -/
def outIn (out : Multiset (SpanBlock t)) (s n : Nat) : Multiset Nat :=
  out.filterMap fun b => if s ≤ b.addr ∧ b.addr < s + n * pageSize then some b.addr else none

def Span.pages : Span t → Nat
  | .active m => m.npages
  | .cold _ n => n

/-- Two extents have no byte in common. -/
def Apart (e e' : Nat × Nat) : Prop :=
  e.1 + e.2 * pageSize ≤ e'.1 ∨ e'.1 + e'.2 * pageSize ≤ e.1

/-- Mapped extents, as bases and pages. -/
structure Extents (mapped : Multiset (Nat × Nat)) : Prop where
  distinct : mapped.Nodup
  apart : ∀ e ∈ mapped, ∀ e' ∈ mapped, e ≠ e' → Apart e e'
  aligned : ∀ e ∈ mapped, e.1 % pageSize = 0 ∧ 0 < e.2

section

variable (arena : Nat → Nat → Bool)

structure SpanMaster.Balanced (m : SpanMaster t) (s : Nat) (o : Multiset Nat) : Prop where
  freeCount : m.freeCount = m.free.length
  used : m.used = o.card
  ledger : ↑m.free + o
    = (↑(t.carve m.cls s m.npages (arena s (m.npages * pageSize))) : Multiset Nat)

structure SpanHeap.Conserves (h : SpanHeap t) (out : Multiset (SpanBlock t))
    (loose mapped : Multiset (Nat × Nat)) : Prop where
  extents : ∀ e : Nat × Nat,
    (if (h.spans e.1).map Span.pages = some e.2 then 1 else 0) + loose.count e = mapped.count e
  mapped : Extents mapped
  span : ∀ s m, h.spans s = some (.active m) → m.Balanced arena s (outIn out s m.npages)
  home : ∀ b ∈ out, ∃ s m, h.spans s = some (.active m) ∧ m.cls = b.cls ∧
    (s ≤ b.addr ∧ b.addr < s + m.npages * pageSize) ∧ ∀ x, b.home = some x → x = s
  masters : ∀ s x, h.spans s = some x → ∀ u, s / pageSize ≤ u → u < s / pageSize + x.pages →
    h.masters u = s
  head : ∀ c, (h.lists c).head.Nodup ∧
    ∀ s ∈ (h.lists c).head, ∃ m, h.spans s = some (.active m) ∧ m.cls = c ∧ m.inPartial = true
  empty : ∀ c, (h.lists c).empty.Nodup ∧
    ∀ s ∈ (h.lists c).empty, ∃ m, h.spans s = some (.active m) ∧ m.cls = c ∧
      m.inPartial = false ∧ m.used = 0
  cold : ∀ c, ((h.lists c).cold.map Prod.fst).Nodup ∧
    ∀ x ∈ (h.lists c).cold, h.spans x.1 = some (.cold c x.2)

end

/-! ### What a carve makes -/

theorem blockSize_pos (t : SpanTier) (c : Fin t.num) : 16 ≤ t.blockSize c := by
  cases t
  · revert c
    decide
  · revert c
    decide

theorem mem_blocksFrom {size start stop b : Nat} (hb : b ∈ SpanTier.blocksFrom size start stop) :
    start ≤ b ∧ b + size ≤ stop := by
  obtain ⟨i, hi, rfl⟩ := List.mem_map.1 hb
  rw [List.mem_range] at hi
  have hmul : (i + 1) * size ≤ (stop - start) / size * size := Nat.mul_le_mul_right _ hi
  have hle := Nat.div_mul_le_self (stop - start) size
  rw [Nat.succ_mul] at hmul
  by_cases hsize : size = 0
  · subst hsize
    simp at hi
  · omega

theorem nodup_blocksFrom {size : Nat} (hsize : 0 < size) (start stop : Nat) :
    (SpanTier.blocksFrom size start stop).Nodup := by
  refine List.nodup_range.map fun i j hij => ?_
  exact Nat.eq_of_mul_eq_mul_right hsize (Nat.add_left_cancel hij)

theorem mem_carve {c : Fin t.num} {base npages b : Nat} {whole : Bool}
    (hb : b ∈ t.carve c base npages whole) :
    base ≤ b ∧ b + t.blockSize c ≤ base + npages * pageSize := by
  unfold SpanTier.carve at hb
  dsimp only at hb
  split at hb
  · have := mem_blocksFrom hb
    omega
  · rw [List.mem_flatten] at hb
    obtain ⟨l, hl, hb⟩ := hb
    obtain ⟨page, hpage, rfl⟩ := List.mem_map.1 hl
    have := mem_blocksFrom hb
    rw [List.mem_range] at hpage
    have hmul : (page + 1) * pageSize ≤ npages * pageSize := Nat.mul_le_mul_right _ hpage
    rw [Nat.succ_mul] at hmul
    omega

theorem nodup_carve (c : Fin t.num) (base npages : Nat) (whole : Bool) :
    (t.carve c base npages whole).Nodup := by
  have hpos : 0 < t.blockSize c := by
    have := blockSize_pos t c
    omega
  unfold SpanTier.carve
  dsimp only
  split
  · exact nodup_blocksFrom hpos _ _
  · rw [List.nodup_flatten]
    refine ⟨fun l hl => ?_, ?_⟩
    · obtain ⟨page, -, rfl⟩ := List.mem_map.1 hl
      exact nodup_blocksFrom hpos _ _
    · rw [List.pairwise_map]
      refine List.pairwise_lt_range.imp ?_
      intro i j hij b hi hj
      have hi := mem_blocksFrom hi
      have hj := mem_blocksFrom hj
      have hmul : (i + 1) * pageSize ≤ j * pageSize := Nat.mul_le_mul_right _ hij
      rw [Nat.succ_mul] at hmul
      omega

/-! ### What is outside -/

@[simp] theorem outIn_add (a b : Multiset (SpanBlock t)) (s n : Nat) :
    outIn (a + b) s n = outIn a s n + outIn b s n := Multiset.filterMap_add _ _ _

@[simp] theorem outIn_zero (s n : Nat) : outIn (0 : Multiset (SpanBlock t)) s n = 0 := rfl

theorem outIn_singleton (b : SpanBlock t) (s n : Nat) :
    outIn {b} s n = if s ≤ b.addr ∧ b.addr < s + n * pageSize then {b.addr} else 0 := by
  unfold outIn
  rw [← Multiset.cons_zero, Multiset.filterMap_cons]
  split_ifs <;> simp

theorem mem_outIn {out : Multiset (SpanBlock t)} {s n a : Nat} :
    a ∈ outIn out s n ↔ (s ≤ a ∧ a < s + n * pageSize) ∧ ∃ b ∈ out, b.addr = a := by
  simp only [outIn, Multiset.mem_filterMap, Option.ite_none_right_eq_some, Option.some.injEq]
  constructor
  · rintro ⟨b, hb, hin, rfl⟩
    exact ⟨hin, b, hb, rfl⟩
  · rintro ⟨hin, b, hb, rfl⟩
    exact ⟨b, hb, hin, rfl⟩

@[simp] theorem spanBlocks_nil (c : Fin t.num) (x : Option Nat) : spanBlocks c x [] = 0 := rfl

theorem spanBlocks_cons (c : Fin t.num) (x : Option Nat) (b : Nat) (chain : List Nat) :
    spanBlocks c x (b :: chain) = {⟨c, b, x⟩} + spanBlocks c x chain := rfl

theorem spanBlocks_append (c : Fin t.num) (x : Option Nat) (a b : List Nat) :
    spanBlocks c x (a ++ b) = spanBlocks c x a + spanBlocks c x b := by
  simp [spanBlocks]

theorem mem_spanBlocks {c : Fin t.num} {x : Option Nat} {chain : List Nat} {b : SpanBlock t} :
    b ∈ spanBlocks c x chain ↔ b.cls = c ∧ b.home = x ∧ b.addr ∈ chain := by
  obtain ⟨c', a, x'⟩ := b
  simp only [spanBlocks, Multiset.mem_coe, List.mem_map, SpanBlock.mk.injEq]
  constructor
  · rintro ⟨a', ha, rfl, rfl, rfl⟩
    exact ⟨rfl, rfl, ha⟩
  · rintro ⟨rfl, rfl, ha⟩
    exact ⟨a, ha, rfl, rfl, rfl⟩

theorem outIn_spanBlocks {c : Fin t.num} {x : Option Nat} {s n : Nat} {chain : List Nat}
    (h : ∀ b ∈ chain, s ≤ b ∧ b < s + n * pageSize) : outIn (spanBlocks c x chain) s n = ↑chain := by
  induction chain with
  | nil => rfl
  | cons b chain ih =>
      have hb := h b (List.mem_cons_self ..)
      rw [spanBlocks_cons, outIn_add, ih fun x hx => h x (List.mem_cons_of_mem _ hx),
        ← Multiset.cons_coe, ← Multiset.singleton_add]
      rw [outIn_singleton, if_pos hb]

theorem outIn_spanBlocks_of_apart {c : Fin t.num} {x : Option Nat} {s n s' n' : Nat}
    {chain : List Nat} (h : ∀ b ∈ chain, s ≤ b ∧ b < s + n * pageSize)
    (hapart : Apart (s', n') (s, n)) : outIn (spanBlocks c x chain) s' n' = 0 := by
  refine Multiset.eq_zero_of_forall_notMem fun a ha => ?_
  obtain ⟨hin, b, hb, rfl⟩ := mem_outIn.1 ha
  have hb := h _ (mem_spanBlocks.1 hb).2.2
  unfold Apart at hapart
  dsimp only at hapart
  omega

/-! ### One span -/

namespace SpanMaster.Balanced

variable {arena : Nat → Nat → Bool} {m : SpanMaster t} {s : Nat} {o : Multiset Nat}

theorem init (c : Fin t.num) (s npages : Nat) (virgin : Bool) :
    Balanced arena { SpanMaster.init arena c s npages with virgin := virgin } s 0 :=
  { freeCount := by simp [SpanMaster.init]
    used := rfl
    ledger := by simp [SpanMaster.init] }

theorem nodup (h : m.Balanced arena s o) : (↑m.free + o : Multiset Nat).Nodup := by
  rw [h.ledger]
  exact Multiset.coe_nodup.2 (nodup_carve _ _ _ _)

theorem mem_free (h : m.Balanced arena s o) {b : Nat} (hb : b ∈ m.free) :
    s ≤ b ∧ b < s + m.npages * pageSize := by
  have hmem : b ∈ (↑m.free + o : Multiset Nat) := Multiset.mem_add.2 (.inl hb)
  rw [h.ledger] at hmem
  have hcarve := mem_carve (Multiset.mem_coe.1 hmem)
  have hpos := blockSize_pos t m.cls
  omega

theorem pop (h : m.Balanced arena s o) {b : Nat} {rest : List Nat} (hfree : m.free = b :: rest) :
    (m.popped rest).Balanced arena s ({b} + o) := by
  have hcount := h.freeCount
  have hledger := h.ledger
  simp only [hfree, List.length_cons] at hcount
  constructor
  · simp [SpanMaster.popped, hcount]
  · rw [Multiset.card_add, Multiset.card_singleton, ← h.used, Nat.add_comm]
    rfl
  · simp only [SpanMaster.popped]
    rw [← hledger, hfree, ← Multiset.cons_coe, ← Multiset.singleton_add]
    ac_rfl

/-- The chain comes back: in front of the free list. -/
theorem splice {chain : List Nat} (h : m.Balanced arena s (↑chain + o)) :
    Balanced arena { m with
      virgin := false
      free := chain ++ m.free
      freeCount := m.freeCount + chain.length
      used := m.used - chain.length } s o := by
  have hused := h.used
  simp only [Multiset.card_add, Multiset.coe_card] at hused
  constructor
  · simp [h.freeCount, Nat.add_comm]
  · show m.used - chain.length = o.card
    omega
  · simp only
    rw [← h.ledger, ← Multiset.coe_add]
    ac_rfl

end SpanMaster.Balanced

/-! ### The heap -/

namespace SpanHeap

variable {arena : Nat → Nat → Bool} {h : SpanHeap t} {out out' : Multiset (SpanBlock t)}
  {loose mapped : Multiset (Nat × Nat)} {s : Nat} {m m' : SpanMaster t} {c : Fin t.num}

theorem master_eq (hs : h.spans s = some (.active m)) : h.master s = m := by
  simp [master, hs]

theorem setMaster_eq (hs : h.spans s = some (.active m)) :
    h.setMaster s m' = { h with spans := Function.update h.spans s (some (.active m')) } := by
  simp [setMaster, hs]

theorem setMaster_spans (m' : SpanMaster t) (hs : h.spans s = some (.active m)) :
    (h.setMaster s m').spans s = some (.active m') := by
  simp [setMaster_eq hs]

theorem setMaster_self (hs : h.spans s = some (.active m)) : h.setMaster s m = h := by
  rw [setMaster_eq hs, ← hs, update_eq_self]

namespace Conserves

theorem mem_mapped (hok : h.Conserves arena out loose mapped) {x : Span t}
    (hs : h.spans s = some x) : (s, x.pages) ∈ mapped := by
  have hext := hok.extents (s, x.pages)
  simp only [hs, Option.map_some, if_true] at hext
  exact Multiset.count_pos.1 (by omega)

/-- Two spans of the heap share no byte. -/
theorem apart (hok : h.Conserves arena out loose mapped) {s' : Nat} {x x' : Span t}
    (hs : h.spans s = some x) (hs' : h.spans s' = some x') (hne : s ≠ s') :
    Apart (s, x.pages) (s', x'.pages) :=
  hok.mapped.apart _ (hok.mem_mapped hs) _ (hok.mem_mapped hs') fun he => hne (congrArg Prod.fst he)

/-- Only the master of `s` is written, and only its blocks move. -/
theorem setMaster (m' : SpanMaster t) (out' : Multiset (SpanBlock t))
    (hok : h.Conserves arena out loose mapped) (hs : h.spans s = some (.active m))
    (hcls : m'.cls = m.cls) (hpages : m'.npages = m.npages) (hpart : m'.inPartial = m.inPartial)
    (hused : m.used = 0 → m.inPartial = false → m'.used = 0)
    (hbal : m'.Balanced arena s (outIn out' s m.npages))
    (hother : ∀ s' n, Apart (s', n) (s, m.npages) → outIn out' s' n = outIn out s' n)
    (hout : ∀ b ∈ out', b ∈ out ∨ b.cls = m.cls ∧ (s ≤ b.addr ∧ b.addr < s + m.npages * pageSize) ∧
      ∀ x, b.home = some x → x = s) :
    (h.setMaster s m').Conserves arena out' loose mapped := by
  rw [setMaster_eq hs]
  constructor
  case extents =>
    intro e
    have := hok.extents e
    by_cases he : e.1 = s
    · rw [he, hs] at this
      simpa [he, Span.pages, hpages] using this
    · simpa [he] using this
  case mapped => exact hok.mapped
  case span =>
    intro q x hx
    by_cases hq : q = s
    · subst hq
      simp only [update_self, Option.some.injEq, Span.active.injEq] at hx
      rw [← hx, hpages]
      exact hbal
    · simp only [update_of_ne hq] at hx
      have hapart := hok.apart hx hs hq
      simp only [Span.pages] at hapart
      rw [hother q x.npages hapart]
      exact hok.span q x hx
  case home =>
    intro b hb
    rcases hout b hb with hold | ⟨hc, hin, hhome⟩
    · obtain ⟨q, x, hx, hc, hin, hhome⟩ := hok.home b hold
      by_cases hq : q = s
      · subst hq
        cases hs.symm.trans hx
        exact ⟨q, m', by simp, hcls.trans hc, by rwa [hpages], hhome⟩
      · exact ⟨q, x, by simpa [hq] using hx, hc, hin, hhome⟩
    · exact ⟨s, m', by simp, hcls.trans hc.symm, by rwa [hpages], hhome⟩
  case masters =>
    intro q x hx
    by_cases hq : q = s
    · subst hq
      simp only [update_self, Option.some.injEq] at hx
      subst hx
      intro u hu hlt
      refine hok.masters q (.active m) hs u hu ?_
      rwa [Span.pages, hpages] at hlt
    · exact hok.masters q x (by simpa [hq] using hx)
  case head =>
    intro c
    refine ⟨(hok.head c).1, fun q hq => ?_⟩
    obtain ⟨x, hx, hc, hin⟩ := (hok.head c).2 q hq
    by_cases hqs : q = s
    · subst hqs
      cases hs.symm.trans hx
      exact ⟨m', by simp, hcls.trans hc, hpart.trans hin⟩
    · exact ⟨x, by simpa [hqs] using hx, hc, hin⟩
  case empty =>
    intro c
    refine ⟨(hok.empty c).1, fun q hq => ?_⟩
    obtain ⟨x, hx, hc, hin, hu⟩ := (hok.empty c).2 q hq
    by_cases hqs : q = s
    · subst hqs
      cases hs.symm.trans hx
      exact ⟨m', by simp, hcls.trans hc, hpart.trans hin, hused hu hin⟩
    · exact ⟨x, by simpa [hqs] using hx, hc, hin, hu⟩
  case cold =>
    intro c
    refine ⟨(hok.cold c).1, fun x hx => ?_⟩
    have hcold := (hok.cold c).2 x hx
    have hne : x.1 ≠ s := by
      intro he
      rw [he, hs] at hcold
      cases hcold
    simpa [hne] using hcold

theorem outIn_eq_zero (hok : h.Conserves arena out loose mapped) {n : Nat}
    (hmem : (s, n) ∈ mapped) (hs : ∀ m, h.spans s ≠ some (.active m)) : outIn out s n = 0 := by
  refine Multiset.eq_zero_of_forall_notMem fun a ha => ?_
  obtain ⟨hin, b, hb, rfl⟩ := mem_outIn.1 ha
  obtain ⟨q, x, hx, -, hin', -⟩ := hok.home b hb
  have hne : q ≠ s := fun he => hs x (he ▸ hx)
  have hapart := hok.mapped.apart _ hmem _ (hok.mem_mapped hx) fun he =>
    hne (congrArg Prod.fst he).symm
  simp only [Apart, Span.pages] at hapart
  omega

/-- Span `s` changes its membership in the lists of its class, the other spans do not. -/
theorem relink (hok : h.Conserves arena out loose mapped) (hs : h.spans s = some (.active m))
    (b : Bool) {l : SpanList} (hhead : l.head.Nodup)
    (hmem : ∀ q ∈ l.head, q ∈ (h.lists m.cls).head ∧ q ≠ s ∨ q = s ∧ b = true)
    (hempty : l.empty.Nodup)
    (hmem' : ∀ q ∈ l.empty,
      q ∈ (h.lists m.cls).empty ∧ q ≠ s ∨ q = s ∧ b = false ∧ m.used = 0)
    (hcold : l.cold = (h.lists m.cls).cold) :
    ((h.setList m.cls l).setMaster s { m with inPartial := b }).Conserves arena out loose mapped := by
  rw [setMaster_eq (h := h.setList m.cls l) hs]
  constructor
  case extents =>
    intro e
    have := hok.extents e
    by_cases he : e.1 = s
    · rw [he, hs] at this
      simpa [he, Span.pages] using this
    · simpa [he, setList] using this
  case mapped => exact hok.mapped
  case span =>
    intro q x hx
    by_cases hq : q = s
    · subst hq
      simp only [update_self, Option.some.injEq, Span.active.injEq] at hx
      subst hx
      have hbal := hok.span q m hs
      exact ⟨hbal.freeCount, hbal.used, hbal.ledger⟩
    · exact hok.span q x (by simpa [hq, setList] using hx)
  case home =>
    intro x hx
    obtain ⟨q, y, hy, hc, hin⟩ := hok.home x hx
    by_cases hq : q = s
    · subst hq
      cases hs.symm.trans hy
      exact ⟨q, { m with inPartial := b }, by simp, hc, hin⟩
    · exact ⟨q, y, by simpa [hq, setList] using hy, hc, hin⟩
  case masters =>
    intro q x hx
    by_cases hq : q = s
    · subst hq
      simp only [update_self, Option.some.injEq] at hx
      subst hx
      exact hok.masters q (.active m) hs
    · exact hok.masters q x (by simpa [hq, setList] using hx)
  case head =>
    intro c
    by_cases hc : c = m.cls
    · subst hc
      refine ⟨by simpa [setList] using hhead, fun q hq => ?_⟩
      rcases hmem q (by simpa [setList] using hq) with ⟨hold, hne⟩ | ⟨rfl, rfl⟩
      · simpa [setList, hne] using (hok.head m.cls).2 q hold
      · exact ⟨{ m with inPartial := true }, by simp, rfl, rfl⟩
    · simp only [setList, update_of_ne hc]
      refine ⟨(hok.head c).1, fun q hq => ?_⟩
      obtain ⟨x, hx, hxc, hin⟩ := (hok.head c).2 q hq
      have hne : q ≠ s := by
        rintro rfl
        cases hs.symm.trans hx
        exact hc hxc.symm
      exact ⟨x, by simpa [hne] using hx, hxc, hin⟩
  case empty =>
    intro c
    by_cases hc : c = m.cls
    · subst hc
      refine ⟨by simpa [setList] using hempty, fun q hq => ?_⟩
      rcases hmem' q (by simpa [setList] using hq) with ⟨hold, hne⟩ | ⟨rfl, rfl, hu⟩
      · simpa [setList, hne] using (hok.empty m.cls).2 q hold
      · exact ⟨{ m with inPartial := false }, by simp, rfl, rfl, hu⟩
    · simp only [setList, update_of_ne hc]
      refine ⟨(hok.empty c).1, fun q hq => ?_⟩
      obtain ⟨x, hx, hxc, hin⟩ := (hok.empty c).2 q hq
      have hne : q ≠ s := by
        rintro rfl
        cases hs.symm.trans hx
        exact hc hxc.symm
      exact ⟨x, by simpa [hne] using hx, hxc, hin⟩
  case cold =>
    intro c
    have hlists : ((h.setList m.cls l).lists c).cold = (h.lists c).cold := by
      by_cases hc : c = m.cls
      · subst hc
        simp [setList, hcold]
      · simp [setList, hc]
    simp only [hlists]
    refine ⟨(hok.cold c).1, fun x hx => ?_⟩
    have hspan := (hok.cold c).2 x hx
    have hne : x.1 ≠ s := by
      intro he
      rw [he, hs] at hspan
      cases hspan
    simpa [hne, setList] using hspan

theorem relist (hok : h.Conserves arena out loose mapped) (hs : h.spans s = some (.active m))
    {l : SpanList} (hhead : l.head.Nodup)
    (hmem : ∀ q ∈ l.head, q ∈ (h.lists m.cls).head ∧ q ≠ s ∨ q = s ∧ m.inPartial = true)
    (hempty : l.empty.Nodup)
    (hmem' : ∀ q ∈ l.empty,
      q ∈ (h.lists m.cls).empty ∧ q ≠ s ∨ q = s ∧ m.inPartial = false ∧ m.used = 0)
    (hcold : l.cold = (h.lists m.cls).cold) :
    (h.setList m.cls l).Conserves arena out loose mapped := by
  have hsame := hok.relink hs m.inPartial hhead hmem hempty hmem' hcold
  rwa [setMaster_self (h := h.setList m.cls l) (m := { m with inPartial := m.inPartial }) hs] at hsame

theorem ne_of_mem_head (hok : h.Conserves arena out loose mapped)
    (hs : h.spans s = some (.active m)) (hin : m.inPartial = false) {q : Nat}
    (hq : q ∈ (h.lists c).head) : q ≠ s := by
  rintro rfl
  obtain ⟨x, hx, -, hx'⟩ := (hok.head c).2 q hq
  cases hs.symm.trans hx
  rw [hin] at hx'
  cases hx'

theorem notMem_empty (hok : h.Conserves arena out loose mapped) (hs : h.spans s = some (.active m))
    (hbusy : m.inPartial = true ∨ m.used ≠ 0) : s ∉ (h.lists c).empty := by
  intro hmem
  obtain ⟨x, hx, -, hin, hu⟩ := (hok.empty c).2 s hmem
  cases hs.symm.trans hx
  rcases hbusy with hbusy | hbusy
  · rw [hin] at hbusy
    cases hbusy
  · exact hbusy hu

theorem linkPartial (hok : h.Conserves arena out loose mapped) (hs : h.spans s = some (.active m))
    (hin : m.inPartial = false) (hempty : s ∉ (h.lists m.cls).empty) :
    (h.linkPartial m.cls s).Conserves arena out loose mapped := by
  have hnot : s ∉ (h.lists m.cls).head := fun hmem => hok.ne_of_mem_head hs hin hmem rfl
  unfold SpanHeap.linkPartial
  dsimp only
  rw [master_eq (h := h.setList m.cls _) hs]
  refine hok.relink hs true (List.nodup_cons.2 ⟨hnot, (hok.head m.cls).1⟩) ?_
    (hok.empty m.cls).1 ?_ rfl
  · intro q hq
    rcases List.mem_cons.1 hq with rfl | hq
    · exact .inr ⟨rfl, rfl⟩
    · exact .inl ⟨hq, fun he => hnot (he ▸ hq)⟩
  · intro q hq
    exact .inl ⟨hq, fun he => hempty (he ▸ hq)⟩

theorem unlinkPartial (hok : h.Conserves arena out loose mapped) (hs : h.spans s = some (.active m))
    (hempty : s ∉ (h.lists m.cls).empty) :
    (h.unlinkPartial m.cls s).Conserves arena out loose mapped := by
  unfold SpanHeap.unlinkPartial
  rw [master_eq hs]
  split
  · dsimp only
    rw [master_eq (h := h.setList m.cls _) hs]
    refine hok.relink hs false ((hok.head m.cls).1.erase s) ?_ (hok.empty m.cls).1 ?_ rfl
    · intro q hq
      rw [(hok.head m.cls).1.mem_erase_iff] at hq
      exact .inl ⟨hq.2, hq.1⟩
    · intro q hq
      exact .inl ⟨hq, fun he => hempty (he ▸ hq)⟩
  · exact hok

/-- Lists may shrink. -/
theorem shrink (hok : h.Conserves arena out loose mapped) {l : SpanList}
    (hhead : l.head = (h.lists c).head) (hempty : l.empty.Sublist (h.lists c).empty)
    (hcold : l.cold.Sublist (h.lists c).cold) :
    (h.setList c l).Conserves arena out loose mapped where
  extents := hok.extents
  mapped := hok.mapped
  span := hok.span
  home := hok.home
  masters := hok.masters
  head c' := by
    by_cases hc : c' = c
    · subst hc
      simpa [setList, hhead] using hok.head c'
    · simpa [setList, hc] using hok.head c'
  empty c' := by
    by_cases hc : c' = c
    · subst hc
      have hold := hok.empty c'
      simp only [setList, update_self]
      exact ⟨hempty.nodup hold.1, fun q hq => hold.2 q (hempty.subset hq)⟩
    · simpa [setList, hc] using hok.empty c'
  cold c' := by
    by_cases hc : c' = c
    · subst hc
      have hold := hok.cold c'
      simp only [setList, update_self]
      exact ⟨(hcold.map _).nodup hold.1, fun x hx => hold.2 x (hcold.subset hx)⟩
    · simpa [setList, hc] using hok.cold c'

end Conserves

/-- What unlinking leaves of the span itself. -/
theorem unlinkPartial_spans (hs : h.spans s = some (.active m)) :
    (h.unlinkPartial c s).spans s = some (.active { m with inPartial := false }) := by
  unfold SpanHeap.unlinkPartial
  rw [master_eq hs]
  split
  · dsimp only
    rw [master_eq (h := h.setList c _) hs]
    exact setMaster_spans (h := h.setList c _) _ hs
  · rename_i hin
    rw [hs]
    cases m
    simp_all

theorem unlinkPartial_empty (hs : h.spans s = some (.active m)) (c' : Fin t.num) :
    ((h.unlinkPartial c s).lists c').empty = (h.lists c').empty := by
  unfold SpanHeap.unlinkPartial
  split
  · dsimp only
    rw [setMaster_eq (h := h.setList c _) hs]
    by_cases hc : c' = c
    · subst hc
      simp [setList]
    · simp [setList, hc]
  · rfl

/-! ### Filling a batch -/

/-- A batch gathered so far, next to the blocks that are outside anyway. -/
def Filled (arena : Nat → Nat → Bool) (c : Fin t.num) (out : Multiset (SpanBlock t))
    (loose mapped : Multiset (Nat × Nat)) (r : SpanHeap t × Fill) : Prop :=
  r.1.Conserves arena (out + spanBlocks c none r.2.chain) loose mapped ∧
    r.2.count = r.2.chain.length

theorem Filled.pop {f : Fill} (hok : Filled arena m.cls out loose mapped (h, f))
    (hs : h.spans s = some (.active m)) (hin : m.inPartial = true) {b : Nat} {rest : List Nat}
    (hfree : m.free = b :: rest) :
    Filled arena m.cls out loose mapped
      (h.setMaster s (m.popped rest), { f with chain := b :: f.chain, count := f.count + 1 }) := by
  refine ⟨?_, by simpa using hok.2⟩
  have hbal := hok.1.span s m hs
  have hb := hbal.mem_free (b := b) (by simp [hfree])
  have hpop := hok.1.setMaster (m.popped rest)
    (out + spanBlocks m.cls none f.chain + {⟨m.cls, b, none⟩}) hs rfl rfl rfl ?_ ?_ ?_ ?_
  · rwa [add_assoc, add_comm (spanBlocks _ _ _), ← spanBlocks_cons] at hpop
  · intro _ hfalse
    rw [hin] at hfalse
    cases hfalse
  · rw [outIn_add, outIn_singleton, if_pos hb, add_comm (outIn _ s m.npages)]
    exact hbal.pop hfree
  · intro q n hapart
    have hnot : ¬(q ≤ b ∧ b < q + n * pageSize) := by
      simp only [Apart] at hapart
      omega
    rw [outIn_add, outIn_singleton, if_neg hnot, add_zero]
  · intro x hx
    rcases Multiset.mem_add.1 hx with hx | hx
    · exact .inl hx
    · rw [Multiset.mem_singleton.1 hx]
      exact .inr ⟨rfl, hb, fun _ h => by cases h⟩

theorem Filled.unlink {f : Fill} (hok : Filled arena m.cls out loose mapped (h, f))
    (hs : h.spans s = some (.active m)) (hin : m.inPartial = true) :
    Filled arena m.cls out loose mapped (h.unlinkPartial m.cls s, f) :=
  ⟨hok.1.unlinkPartial hs (hok.1.notMem_empty hs (.inl hin)), hok.2⟩

theorem fillSpans_filled (cap n : Nat) {f : Fill} (hok : Filled arena c out loose mapped (h, f)) :
    Filled arena c out loose mapped (fillSpans c cap n h f) := by
  induction n generalizing h f with
  | zero => exact hok
  | succ n ih =>
      unfold fillSpans
      split
      · exact hok
      · split
        · exact hok
        · rename_i s rest hhead
          obtain ⟨m, hs, rfl, hin⟩ := (hok.1.head c).2 s (by simp [hhead])
          dsimp only
          rw [master_eq hs]
          have hstart : Filled arena m.cls out loose mapped
              (h, if m.virgin then f else { f with virgin := false }) := by
            split
            · exact hok
            · exact hok
          generalize (if m.virgin = true then f else { f with virgin := false }) = f₁ at *
          split
          · rename_i b rest' hfree
            have hpop := hstart.pop hs hin hfree
            refine ih ?_
            split
            · exact Filled.unlink (m := m.popped rest') hpop (setMaster_spans _ hs) hin
            · exact hpop
          · exact ih (hstart.unlink hs hin)

theorem fillFromList_filled {f : Fill} (hok : Filled arena c out loose mapped (h, f)) :
    Filled arena c out loose mapped (h.fillFromList c f) := fillSpans_filled _ _ hok

/-! ### Spans come and go -/

namespace Conserves

/-- A span that had no master gets one, with all its blocks free. -/
theorem activate (loose' : Multiset (Nat × Nat)) (masters' : Nat → Nat)
    (hok : h.Conserves arena out loose mapped) (hs : ∀ m, h.spans s ≠ some (.active m))
    (hcold : ∀ c, ∀ x ∈ (h.lists c).cold, x.1 ≠ s) (hbal : m.Balanced arena s 0)
    (hmem : (s, m.npages) ∈ mapped)
    (hext : ∀ e : Nat × Nat, (if ((Function.update h.spans s (some (.active m))) e.1).map Span.pages
      = some e.2 then 1 else 0) + loose'.count e = mapped.count e)
    (hmasters : ∀ u, masters' u =
      if s / pageSize ≤ u ∧ u < s / pageSize + m.npages then s else h.masters u) :
    SpanHeap.Conserves arena
      { h with spans := Function.update h.spans s (some (.active m)), masters := masters' } out
      loose' mapped where
  extents := hext
  mapped := hok.mapped
  span q x hx := by
    by_cases hq : q = s
    · subst hq
      simp only [update_self, Option.some.injEq, Span.active.injEq] at hx
      subst hx
      rw [hok.outIn_eq_zero hmem hs]
      exact hbal
    · exact hok.span q x (by simpa [hq] using hx)
  home b hb := by
    obtain ⟨q, x, hx, hc⟩ := hok.home b hb
    have hne : q ≠ s := fun he => hs x (he ▸ hx)
    exact ⟨q, x, by simpa [hne] using hx, hc⟩
  masters q x hx u hu hlt := by
    dsimp only
    rw [hmasters u]
    by_cases hq : q = s
    · subst hq
      simp only [update_self, Option.some.injEq] at hx
      subst hx
      rw [if_pos ⟨hu, hlt⟩]
    · have hx' : h.spans q = some x := by simpa [hq] using hx
      have hapart := hok.mapped.apart _ hmem _ (hok.mem_mapped hx') fun he =>
        hq (congrArg Prod.fst he).symm
      have hal := (hok.mapped.aligned _ hmem).1
      have hal' := (hok.mapped.aligned _ (hok.mem_mapped hx')).1
      have hnot : ¬(s / pageSize ≤ u ∧ u < s / pageSize + m.npages) := by
        simp only [Apart, pageSize] at hapart hal hal' hu hlt ⊢
        omega
      rw [if_neg hnot]
      exact hok.masters q x hx' u hu hlt
  head c := by
    refine ⟨(hok.head c).1, fun q hq => ?_⟩
    obtain ⟨x, hx, hc, hin⟩ := (hok.head c).2 q hq
    have hne : q ≠ s := fun he => hs x (he ▸ hx)
    exact ⟨x, by simpa [hne] using hx, hc, hin⟩
  empty c := by
    refine ⟨(hok.empty c).1, fun q hq => ?_⟩
    obtain ⟨x, hx, hc, hin⟩ := (hok.empty c).2 q hq
    have hne : q ≠ s := fun he => hs x (he ▸ hx)
    exact ⟨x, by simpa [hne] using hx, hc, hin⟩
  cold c := by
    refine ⟨(hok.cold c).1, fun x hx => ?_⟩
    simpa [hcold c x hx] using (hok.cold c).2 x hx

/-- An idle span, in no list, loses its master: it turns cold, or leaves the heap. -/
theorem deactivate (masters' : Nat → Nat) (hok : h.Conserves arena out loose mapped)
    (hs : h.spans s = some (.active m))
    (hin : m.inPartial = false) (hused : m.used = 0) (hempty : ∀ c, s ∉ (h.lists c).empty)
    {l : SpanList} {x : Option (Span t)} {loose' : Multiset (Nat × Nat)}
    (hhead : l.head = (h.lists m.cls).head) (hempty' : l.empty = (h.lists m.cls).empty)
    (hcold : l.cold = (h.lists m.cls).cold ∧ x = none ∨
      l.cold = (s, m.npages) :: (h.lists m.cls).cold ∧ x = some (.cold m.cls m.npages))
    (hext : ∀ e : Nat × Nat, (if ((Function.update h.spans s x) e.1).map Span.pages = some e.2
      then 1 else 0) + loose'.count e = mapped.count e)
    (hmasters : ∀ u, (x ≠ none ∨ ¬(s / pageSize ≤ u ∧ u < s / pageSize + m.npages)) →
      masters' u = h.masters u) :
    SpanHeap.Conserves arena
      { h.setList m.cls l with spans := Function.update h.spans s x, masters := masters' } out
      loose' mapped where
  extents := hext
  mapped := hok.mapped
  span q y hy := by
    by_cases hq : q = s
    · subst hq
      rcases hcold with ⟨-, rfl⟩ | ⟨-, rfl⟩
      · simp at hy
      · simp at hy
    · exact hok.span q y (by simpa [hq] using hy)
  home b hb := by
    obtain ⟨q, y, hy, hc, hb', hhome⟩ := hok.home b hb
    have hne : q ≠ s := by
      rintro rfl
      cases hs.symm.trans hy
      have hcard := (hok.span q m hs).used
      have hmem : b.addr ∈ outIn out q m.npages := mem_outIn.2 ⟨hb', b, hb, rfl⟩
      rw [Multiset.card_eq_zero.1 (hcard.symm.trans hused)] at hmem
      exact Multiset.notMem_zero _ hmem
    exact ⟨q, y, by simpa [hne] using hy, hc, hb', hhome⟩
  masters q y hy u hu hlt := by
    dsimp only
    by_cases hq : q = s
    · subst hq
      rcases hcold with ⟨-, rfl⟩ | ⟨-, rfl⟩
      · simp at hy
      · rw [hmasters u (.inl (by simp))]
        simp only [update_self, Option.some.injEq] at hy
        subst hy
        exact hok.masters q (.active m) hs u hu hlt
    · have hy' : h.spans q = some y := by simpa [hq] using hy
      have hapart := hok.apart hs hy' (Ne.symm hq)
      have hal := (hok.mapped.aligned _ (hok.mem_mapped hs)).1
      have hal' := (hok.mapped.aligned _ (hok.mem_mapped hy')).1
      rw [hmasters u (.inr ?_)]
      · exact hok.masters q y hy' u hu hlt
      · simp only [Apart, Span.pages, pageSize] at hapart hal hal' hu hlt ⊢
        omega
  head c := by
    have hlists : ((h.setList m.cls l).lists c).head = (h.lists c).head := by
      by_cases hc : c = m.cls
      · subst hc
        simp [setList, hhead]
      · simp [setList, hc]
    simp only [hlists]
    refine ⟨(hok.head c).1, fun q hq => ?_⟩
    have hne := hok.ne_of_mem_head hs hin hq
    simpa [hne] using (hok.head c).2 q hq
  empty c := by
    have hlists : ((h.setList m.cls l).lists c).empty = (h.lists c).empty := by
      by_cases hc : c = m.cls
      · subst hc
        simp [setList, hempty']
      · simp [setList, hc]
    simp only [hlists]
    refine ⟨(hok.empty c).1, fun q hq => ?_⟩
    have hne : q ≠ s := fun he => hempty c (he ▸ hq)
    simpa [hne] using (hok.empty c).2 q hq
  cold c := by
    have hold : ∀ y ∈ (h.lists c).cold, y.1 ≠ s := by
      intro y hy he
      have := (hok.cold c).2 y hy
      rw [he, hs] at this
      cases this
    by_cases hc : c = m.cls
    · subst hc
      simp only [setList, update_self]
      rcases hcold with ⟨hl, rfl⟩ | ⟨hl, rfl⟩
      · rw [hl]
        refine ⟨(hok.cold _).1, fun y hy => ?_⟩
        simpa [hold y hy] using (hok.cold _).2 y hy
      · rw [hl]
        refine ⟨?_, fun z hz => ?_⟩
        · rw [List.map_cons, List.nodup_cons]
          refine ⟨fun hmem => ?_, (hok.cold _).1⟩
          obtain ⟨z, hz, he⟩ := List.mem_map.1 hmem
          exact hold z hz he
        · rcases List.mem_cons.1 hz with rfl | hz
          · simp
          · simpa [hold z hz] using (hok.cold _).2 z hz
    · simp only [setList, update_of_ne hc]
      refine ⟨(hok.cold c).1, fun y hy => ?_⟩
      simpa [hold y hy] using (hok.cold c).2 y hy

end Conserves

/-! ### Taking a batch -/

theorem Filled.conserves {f : Fill} (hok : Filled arena c out loose mapped (h, f))
    (hcount : f.count = 0) : h.Conserves arena out loose mapped ∧ f.chain = [] := by
  have hnil : f.chain = [] := List.length_eq_zero_iff.1 (hok.2.symm.trans hcount)
  have hcons := hok.1
  rw [hnil, spanBlocks_nil, add_zero] at hcons
  exact ⟨hcons, hnil⟩

theorem Conserves.filled (hok : h.Conserves arena out loose mapped) {f : Fill}
    (hcount : f.count = 0) (hnil : f.chain = []) : Filled arena c out loose mapped (h, f) := by
  refine ⟨?_, by simp [hcount, hnil]⟩
  rw [hnil, spanBlocks_nil, add_zero]
  exact hok

/-- An idle span is linked and the batch filled from it. -/
theorem Conserves.linkFill (hok : h.Conserves arena out loose mapped)
    (hs : h.spans s = some (.active m)) (hcls : m.cls = c) (hin : m.inPartial = false)
    (hempty : s ∉ (h.lists c).empty) {f : Fill} (hcount : f.count = 0) (hnil : f.chain = []) :
    Filled arena c out loose mapped ((h.linkPartial c s).fillFromList c f) := by
  subst hcls
  exact fillFromList_filled ((hok.linkPartial hs hin hempty).filled hcount hnil)

theorem takeEmpty_filled {f : Fill} (hok : Filled arena c out loose mapped (h, f)) :
    Filled arena c out loose mapped (h.takeEmpty c f) := by
  unfold takeEmpty
  split
  · rename_i s rest hcount hempty
    obtain ⟨hcons, hnil⟩ := hok.conserves hcount
    have hnodup := (hcons.empty c).1
    obtain ⟨m, hs, hcls, hin, hu⟩ := (hcons.empty c).2 s (by simp [hempty])
    rw [hempty, List.nodup_cons] at hnodup
    dsimp only
    generalize hl : ({ h.lists c with
      empty := rest
      emptyCount := (h.lists c).emptyCount - 1
      emptyBytes := (h.lists c).emptyBytes - (h.master s).mappedBytes } : SpanList) = l
    have htaken := hcons.shrink (c := c) (l := l) (by rw [← hl]) (by simp [← hl, hempty])
      (by rw [← hl])
    have hnot : s ∉ ((h.setList c l).lists c).empty := by
      simpa [setList, ← hl] using hnodup.1
    have hs' : (h.setList c l).spans s = some (.active m) := hs
    exact htaken.linkFill hs' hcls hin hnot hcount hnil
  · exact hok

theorem takeCold_filled {f : Fill} (hok : Filled arena c out loose mapped (h, f)) :
    Filled arena c out loose mapped (h.takeCold arena c f) := by
  unfold takeCold
  split
  · rename_i base pages rest hcount hcold
    obtain ⟨hcons, hnil⟩ := hok.conserves hcount
    have hnodup := (hcons.cold c).1
    have hx := (hcons.cold c).2 (base, pages) (by simp [hcold])
    rw [hcold, List.map_cons, List.nodup_cons] at hnodup
    have htaken := hcons.shrink (c := c) (l := { h.lists c with
      cold := rest, coldBytes := (h.lists c).coldBytes - pages * pageSize }) rfl
      (List.Sublist.refl _) (by simp [hcold])
    have hrest : ∀ c', ∀ y ∈ ((h.setList c { h.lists c with
        cold := rest, coldBytes := (h.lists c).coldBytes - pages * pageSize }).lists c').cold,
        y.1 ≠ base := by
      intro c' y hy he
      by_cases hc : c' = c
      · subst hc
        simp only [setList, update_self] at hy
        exact hnodup.1 (List.mem_map.2 ⟨y, hy, he⟩)
      · have hy' := (htaken.cold c').2 y hy
        rw [he] at hy'
        cases hx.symm.trans hy'
        exact hc rfl
    have hx' : (h.setList c { h.lists c with
        cold := rest, coldBytes := (h.lists c).coldBytes - pages * pageSize }).spans base
        = some (.cold c pages) := hx
    dsimp only
    generalize h.setList c _ = h₁ at *
    have hfresh := htaken.activate (m := { SpanMaster.init arena c base pages with virgin := false })
      loose h₁.masters (fun m hm => by cases hx'.symm.trans hm) hrest
      (SpanMaster.Balanced.init c base pages false) (htaken.mem_mapped hx') ?_ ?_
    · refine hfresh.linkFill (m := { SpanMaster.init arena c base pages with virgin := false })
        (by simp) rfl rfl ?_ hcount hnil
      intro hmem
      obtain ⟨m, hm, -⟩ := (htaken.empty c).2 _ hmem
      cases hx'.symm.trans hm
    · intro e
      have hext := htaken.extents e
      by_cases he : e.1 = base
      · rw [he, hx'] at hext
        simpa [he, Span.pages, SpanMaster.init] using hext
      · simpa [he] using hext
    · intro u
      split
      · rename_i hu
        exact htaken.masters base _ hx' u hu.1 hu.2
      · rfl
  · exact hok

theorem takeLocked_filled (hok : h.Conserves arena out loose mapped) :
    Filled arena c out loose mapped (h.takeLocked arena c) := by
  have hfill : Filled arena c out loose mapped
      (h.fillFromList c { chain := [], count := 0, virgin := true }) :=
    fillFromList_filled (hok.filled rfl rfl)
  unfold takeLocked
  exact takeCold_filled (takeEmpty_filled (f := (h.fillFromList c _).2) hfill)

/-- The span just mapped is carved and joins the heap. -/
theorem takeMapped_filled (hok : h.Conserves arena out ({(s, t.spanPages c)} + loose) mapped)
    {f : Fill} (hcount : f.count = 0) (hnil : f.chain = []) :
    Filled arena c out loose mapped ((h.carveMapped arena c s).takeMapped c s f) := by
  have hmem : (s, t.spanPages c) ∈ mapped := by
    have hext := hok.extents (s, t.spanPages c)
    simp only [Multiset.count_add, Multiset.count_singleton_self] at hext
    exact Multiset.count_pos.1 (by omega)
  have hone : mapped.count (s, t.spanPages c) ≤ 1 :=
    Multiset.nodup_iff_count_le_one.1 hok.mapped.distinct _
  have hnone : h.spans s = none := by
    by_contra hsome
    obtain ⟨x, hx⟩ := Option.ne_none_iff_exists'.1 hsome
    by_cases hsame : (s, x.pages) = (s, t.spanPages c)
    · have hext := hok.extents (s, x.pages)
      simp only [hx, Option.map_some, if_true, Multiset.count_add, hsame,
        Multiset.count_singleton_self] at hext
      omega
    · have hapart := hok.mapped.apart _ (hok.mem_mapped hx) _ hmem hsame
      have h1 := (hok.mapped.aligned _ (hok.mem_mapped hx)).2
      have h2 := (hok.mapped.aligned _ hmem).2
      simp only [Apart, pageSize] at hapart h1 h2
      omega
  have hfresh := hok.activate (m := SpanMaster.init arena c s (t.spanPages c)) loose
    (fun u => if s / pageSize ≤ u ∧ u < s / pageSize + t.spanPages c then s else h.masters u)
    (fun m hm => by rw [hnone] at hm; cases hm)
    (fun c' x hx he => by
      have hx' := (hok.cold c').2 x hx
      rw [he, hnone] at hx'
      cases hx')
    (SpanMaster.Balanced.init c s _ true) hmem ?_ fun _ => rfl
  · unfold takeMapped carveMapped setMasters
    refine hfresh.linkFill (m := SpanMaster.init arena c s (t.spanPages c)) (by simp) rfl rfl ?_
      hcount hnil
    intro hmem'
    obtain ⟨m, hm, -⟩ := (hok.empty c).2 _ hmem'
    rw [hnone] at hm
    cases hm
  · intro e
    have hext := hok.extents e
    by_cases he : e.1 = s
    · obtain ⟨s', n⟩ := e
      dsimp only at he
      subst he
      simp only [hnone, Option.map_none, update_self, Option.map_some] at hext ⊢
      by_cases hn : n = t.spanPages c
      · subst hn
        simpa [Span.pages, SpanMaster.init, Nat.add_comm] using hext
      · have hn' : t.spanPages c ≠ n := fun h => hn h.symm
        simpa [Span.pages, SpanMaster.init, hn, hn', Multiset.count_singleton] using hext
    · have hne : e ≠ (s, t.spanPages c) := fun h => he (congrArg Prod.fst h)
      simpa [he, Multiset.count_singleton, hne] using hext

/-! ### Giving back -/

/-- What is loose after a span met its fate. -/
def unmapped (s : Nat) : Fate → Multiset (Nat × Nat)
  | .unmap bytes => {(s, bytes / pageSize)}
  | _ => 0

theorem parkEmptySpan_conserves (hok : h.Conserves arena out loose mapped)
    (hs : h.spans s = some (.active m)) (hu : m.used = 0) (hempty : s ∉ (h.lists m.cls).empty)
    (d : Discarded) :
    (h.parkEmptySpan arena m.cls d s).1.Conserves arena out
      (unmapped s (h.parkEmptySpan arena m.cls d s).2 + loose) mapped := by
  have hidle := hok.unlinkPartial hs hempty
  have hempty' : ∀ c, s ∉ ((h.unlinkPartial m.cls s).lists c).empty := by
    intro c hmem
    rw [unlinkPartial_empty hs] at hmem
    obtain ⟨x, hx, hc, -⟩ := (hok.empty c).2 s hmem
    cases hs.symm.trans hx
    exact hempty (hc ▸ hmem)
  obtain ⟨m', hs', hcls, hin, hu'⟩ : ∃ m', (h.unlinkPartial m.cls s).spans s = some (.active m') ∧
      m.cls = m'.cls ∧ m'.inPartial = false ∧ m'.used = 0 :=
    ⟨{ m with inPartial := false }, unlinkPartial_spans hs, rfl, rfl, hu⟩
  unfold parkEmptySpan
  dsimp only
  generalize h.unlinkPartial m.cls s = h₁ at *
  rw [hcls, master_eq hs']
  have hbytes : m'.mappedBytes / pageSize = m'.npages :=
    Nat.mul_div_cancel _ (by decide)
  split
  · simp only [unmapped, zero_add]
    refine hidle.relist hs' (hidle.head m'.cls).1
      (fun q hq => .inl ⟨hq, hidle.ne_of_mem_head hs' hin hq⟩)
      (List.nodup_cons.2 ⟨hempty' m'.cls, (hidle.empty m'.cls).1⟩) (fun q hq => ?_) rfl
    rcases List.mem_cons.1 hq with rfl | hq
    · exact .inr ⟨rfl, hin, hu'⟩
    · exact .inl ⟨hq, fun he => hempty' _ (he ▸ hq)⟩
  · split
    · simp only [unmapped, zero_add]
      refine hidle.deactivate h₁.masters hs' hin hu' hempty' rfl rfl
        (.inr ⟨rfl, rfl⟩) (fun e => ?_) fun _ _ => rfl
      have hext := hidle.extents e
      by_cases he : e.1 = s
      · rw [he, hs'] at hext
        simpa [he, Span.pages] using hext
      · simpa [he] using hext
    · simp only [unmapped, hbytes]
      have hgone : ∀ masters', (∀ u, ¬(s / pageSize ≤ u ∧ u < s / pageSize + m'.npages) →
          masters' u = h₁.masters u) → SpanHeap.Conserves arena
          { h₁.setList m'.cls (h₁.lists m'.cls) with
            spans := Function.update h₁.spans s none, masters := masters' } out
          ({(s, m'.npages)} + loose) mapped := by
        intro masters' hm
        refine hidle.deactivate _ hs' hin hu' hempty' rfl rfl (.inl ⟨rfl, rfl⟩) (fun e => ?_)
          fun u hu => hm u (hu.resolve_left fun hne => hne rfl)
        have hext := hidle.extents e
        by_cases he : e.1 = s
        · obtain ⟨s', n⟩ := e
          dsimp only at he
          subst he
          simp only [hs', Option.map_some, Span.pages] at hext
          by_cases hn : n = m'.npages
          · subst hn
            simpa [Nat.add_comm] using hext
          · have hn' : m'.npages ≠ n := fun h => hn h.symm
            simpa [hn, hn', Multiset.count_singleton] using hext
        · have hne : e ≠ (s, m'.npages) := fun h => he (congrArg Prod.fst h)
          simpa [he, Multiset.count_singleton, hne] using hext
      simp only [setList, update_eq_self] at hgone
      split
      · exact hgone _ fun u hu => if_neg hu
      · exact hgone h₁.masters fun _ _ => rfl

/-- A chunk as the flushes build it: a chain of blocks found in one span, its last block and length. -/
structure Chunk (x : ReleaseChunk) : Prop where
  tail : x.chain.getLast? = some x.tail
  n : x.n = x.chain.length

theorem Chunk.ne_nil {x : ReleaseChunk} (hx : Chunk x) : x.chain ≠ [] := by
  intro hnil
  have htail := hx.tail
  rw [hnil] at htail
  cases htail

/-- The blocks of a chunk, at home in its span. -/
def chunkBlocks (c : Fin t.num) (x : ReleaseChunk) : Multiset (SpanBlock t) :=
  spanBlocks c (some x.span) x.chain

theorem Conserves.chunk_span {x : ReleaseChunk}
    (hok : h.Conserves arena (out + chunkBlocks c x) loose mapped) (hx : Chunk x) :
    ∃ m, h.spans x.span = some (.active m) ∧ m.cls = c ∧ m.used ≠ 0 ∧
      (∀ b ∈ x.chain, x.span ≤ b ∧ b < x.span + m.npages * pageSize) ∧
      m.Balanced arena x.span (↑x.chain + outIn out x.span m.npages) := by
  have hall : ∀ b ∈ x.chain, ∃ m, h.spans x.span = some (.active m) ∧ m.cls = c ∧
      (x.span ≤ b ∧ b < x.span + m.npages * pageSize) := by
    intro b hb
    obtain ⟨s, m, hs, hc, hin, hhome⟩ := hok.home ⟨c, b, some x.span⟩
      (Multiset.mem_add.2 (.inr (mem_spanBlocks.2 ⟨rfl, rfl, hb⟩)))
    obtain rfl := hhome _ rfl
    exact ⟨m, hs, hc, hin⟩
  obtain ⟨b, hb⟩ := List.exists_mem_of_ne_nil _ hx.ne_nil
  obtain ⟨m, hs, hc, -⟩ := hall b hb
  have hin : ∀ b ∈ x.chain, x.span ≤ b ∧ b < x.span + m.npages * pageSize := by
    intro b hb
    obtain ⟨m', hs', -, hin⟩ := hall b hb
    cases hs.symm.trans hs'
    exact hin
  have hbal := hok.span _ m hs
  rw [outIn_add, chunkBlocks, outIn_spanBlocks hin, add_comm] at hbal
  refine ⟨m, hs, hc, fun hu => ?_, hin, hbal⟩
  have hused := hbal.used
  have hlen : x.chain.length ≠ 0 := fun hl => hx.ne_nil (List.length_eq_zero_iff.1 hl)
  simp only [Multiset.card_add, Multiset.coe_card] at hused
  omega

theorem splice_eq {free : List Nat} {x : ReleaseChunk} (hx : Chunk x)
    (hnodup : x.chain.Nodup) : splice t x free = x.chain ++ free := by
  cases t
  · exact spliceAt_eq hnodup hx.tail
  · rfl

theorem releaseInner_conserves {x : ReleaseChunk}
    (hok : h.Conserves arena (out + chunkBlocks c x) loose mapped) (hx : Chunk x) (d : Discarded) :
    (h.releaseInner arena c d x).1.Conserves arena out
      (unmapped x.span (h.releaseInner arena c d x).2 + loose) mapped := by
  obtain ⟨m, hs, rfl, hu, hin, hbal⟩ := hok.chunk_span hx
  have hnot := hok.notMem_empty (c := m.cls) hs (.inr hu)
  have hnodup : x.chain.Nodup := by
    have := hbal.nodup
    rw [Multiset.nodup_add, Multiset.nodup_add] at this
    exact Multiset.coe_nodup.1 this.2.1.1
  have hback := hok.setMaster { m with
      virgin := false
      free := x.chain ++ m.free
      freeCount := m.freeCount + x.chain.length
      used := m.used - x.chain.length } out hs rfl rfl rfl (fun hu' => absurd hu' hu) hbal.splice
    (fun q n hapart => by
      rw [outIn_add, chunkBlocks, outIn_spanBlocks_of_apart hin hapart, add_zero])
    fun b hb => .inl (Multiset.mem_add.2 (.inl hb))
  have hs' := setMaster_spans { m with
      virgin := false
      free := x.chain ++ m.free
      freeCount := m.freeCount + x.chain.length
      used := m.used - x.chain.length } hs
  unfold releaseInner
  dsimp only
  rw [master_eq hs, splice_eq hx hnodup, hx.n]
  have hnot' : x.span ∉ ((h.setMaster x.span { m with
      virgin := false
      free := x.chain ++ m.free
      freeCount := m.freeCount + x.chain.length
      used := m.used - x.chain.length }).lists m.cls).empty := by
    rwa [setMaster_eq hs]
  generalize h.setMaster x.span _ = h₁ at *
  split
  · rename_i hzero
    exact parkEmptySpan_conserves hback hs' hzero hnot' d
  · split
    · simpa only [unmapped, zero_add] using hback
    · rename_i hin'
      simpa only [unmapped, zero_add] using
        hback.linkPartial hs' (by simpa using hin') hnot'

def allUnmapped (fates : List (Nat × Fate)) : Multiset (Nat × Nat) :=
  (fates.map fun x => unmapped x.1 x.2).sum

theorem releaseBatch_conserves {chunks : List ReleaseChunk} (hchunks : ∀ x ∈ chunks, Chunk x)
    (d : Nat → Discarded)
    (hok : h.Conserves arena (out + (chunks.map (chunkBlocks c)).sum) loose mapped) :
    (releaseBatch arena c h d chunks).1.Conserves arena out
      (allUnmapped (releaseBatch arena c h d chunks).2 + loose) mapped := by
  induction chunks generalizing h d loose with
  | nil => simpa [releaseBatch, allUnmapped] using hok
  | cons x rest ih =>
      have hx := hchunks x (List.mem_cons_self ..)
      have hrest := fun y hy => hchunks y (List.mem_cons_of_mem _ hy)
      have hok' : h.Conserves arena (out + (rest.map (chunkBlocks c)).sum + chunkBlocks c x) loose
          mapped := by
        rw [add_assoc, add_comm (List.sum _)]
        simpa using hok
      have hone := releaseInner_conserves hok' hx (d 0)
      have hdone := ih hrest (fun i => d (i + 1)) hone
      unfold releaseBatch
      simpa [allUnmapped, add_left_comm, add_assoc] using hdone

/-- A block outside is found in its span. -/
theorem Conserves.masterOf (hok : h.Conserves arena out loose mapped) {b : SpanBlock t}
    (hb : b ∈ out) : ∃ m, h.spans (h.masterOf b.addr) = some (.active m) ∧ m.cls = b.cls ∧
      (h.masterOf b.addr ≤ b.addr ∧ b.addr < h.masterOf b.addr + m.npages * pageSize) ∧
      ∀ x, b.home = some x → x = h.masterOf b.addr := by
  obtain ⟨s, m, hs, hc, hin, hhome⟩ := hok.home b hb
  have hal := (hok.mapped.aligned _ (hok.mem_mapped hs)).1
  have hmaster : h.masterOf b.addr = s := by
    refine hok.masters s _ hs _ ?_ ?_
    · exact Nat.div_le_div_right hin.1
    · simp only [Span.pages, pageSize] at hal hin ⊢
      omega
  rw [hmaster]
  exact ⟨m, hs, hc, hin, hhome⟩

/-- What is known of the span of a block outside changes, with good reason. -/
theorem Conserves.rehome {b : Nat} {x y : Option Nat}
    (hok : h.Conserves arena ({⟨c, b, x⟩} + out) loose mapped)
    (hy : ∀ s, y = some s → s = h.masterOf b) :
    h.Conserves arena ({⟨c, b, y⟩} + out) loose mapped where
  extents := hok.extents
  mapped := hok.mapped
  span s m hs := by
    have hbal := hok.span s m hs
    rwa [outIn_add, outIn_singleton] at hbal ⊢
  home z hz := by
    rcases Multiset.mem_add.1 hz with hz | hz
    · rw [Multiset.mem_singleton] at hz
      subst hz
      obtain ⟨m, hs, hc, hin, -⟩ := hok.masterOf (b := ⟨c, b, x⟩) (by simp)
      exact ⟨_, m, hs, hc, hin, hy⟩
    · exact hok.home z (Multiset.mem_add.2 (.inr hz))
  masters := hok.masters
  head := hok.head
  empty := hok.empty
  cold := hok.cold

/-! ### Mapping, unmapping -/

/-- Spans are mapped or unmapped outside the heap. -/
theorem Conserves.remap (hok : h.Conserves arena out loose mapped)
    {loose' mapped' : Multiset (Nat × Nat)}
    (hext : ∀ e, loose'.count e + mapped.count e = loose.count e + mapped'.count e)
    (hmapped : Extents mapped') : h.Conserves arena out loose' mapped' :=
  { hok with
    extents := fun e => by
      have := hok.extents e
      have := hext e
      omega
    mapped := hmapped }

/-- Only whole spans are ever unmapped. -/
def PagesFate (fate : Fate) : Prop := ∀ bytes, fate = .unmap bytes → bytes % pageSize = 0

theorem parkEmptySpan_fate (arena : Nat → Nat → Bool) (h : SpanHeap t) (c : Fin t.num)
    (d : Discarded) (s : Nat) : PagesFate (h.parkEmptySpan arena c d s).2 := by
  unfold parkEmptySpan PagesFate
  dsimp only
  split
  · simp
  · split
    · simp
    · rintro bytes hbytes
      cases hbytes
      exact Nat.mul_mod_left _ _

theorem releaseInner_fate (arena : Nat → Nat → Bool) (h : SpanHeap t) (c : Fin t.num)
    (d : Discarded) (x : ReleaseChunk) : PagesFate (h.releaseInner arena c d x).2 := by
  unfold releaseInner
  dsimp only
  split
  · exact parkEmptySpan_fate _ _ _ _ _
  · split <;> simp [PagesFate]

theorem releaseBatch_fate (arena : Nat → Nat → Bool) (c : Fin t.num) (h : SpanHeap t)
    (d : Nat → Discarded) (chunks : List ReleaseChunk) :
    ∀ x ∈ (releaseBatch arena c h d chunks).2, PagesFate x.2 := by
  induction chunks generalizing h d with
  | nil => simp [releaseBatch]
  | cons x rest ih =>
      unfold releaseBatch
      dsimp only
      intro y hy
      rcases List.mem_cons.1 hy with rfl | hy
      · exact releaseInner_fate _ _ _ _ _
      · exact ih _ _ y hy

/-! ### What a fill counts, whatever the heap -/

theorem fillSpans_count (c : Fin t.num) (cap n : Nat) (h : SpanHeap t) {f : Fill}
    (hf : f.count = f.chain.length) :
    (fillSpans c cap n h f).2.count = (fillSpans c cap n h f).2.chain.length := by
  induction n generalizing h f with
  | zero => exact hf
  | succ n ih =>
      unfold fillSpans
      split
      · exact hf
      · split
        · exact hf
        · rename_i s rest hhead
          have hf' : (if (h.master s).virgin = true then f else { f with virgin := false }).count
              = (if (h.master s).virgin = true then f else { f with virgin := false }).chain.length := by
            split <;> exact hf
          dsimp only
          split
          · exact ih _ (by simpa using hf')
          · exact ih _ hf'

theorem fillFromList_count (h : SpanHeap t) (c : Fin t.num) {f : Fill}
    (hf : f.count = f.chain.length) :
    (h.fillFromList c f).2.count = (h.fillFromList c f).2.chain.length :=
  fillSpans_count c _ _ h hf

theorem takeLocked_count (arena : Nat → Nat → Bool) (h : SpanHeap t) (c : Fin t.num) :
    (h.takeLocked arena c).2.count = (h.takeLocked arena c).2.chain.length := by
  have hempty : ∀ (h : SpanHeap t) (f : Fill), f.count = f.chain.length →
      (h.takeEmpty c f).2.count = (h.takeEmpty c f).2.chain.length := by
    intro h f hf
    unfold takeEmpty
    split
    · exact fillFromList_count _ c hf
    · exact hf
  have hcold : ∀ (h : SpanHeap t) (f : Fill), f.count = f.chain.length →
      (h.takeCold arena c f).2.count = (h.takeCold arena c f).2.chain.length := by
    intro h f hf
    unfold takeCold
    split
    · exact fillFromList_count _ c hf
    · exact hf
  unfold takeLocked
  exact hcold _ _ (hempty _ _ (fillFromList_count h c rfl))

end SpanHeap

end Allox
