import Allox.SmallHeap
import Mathlib.Algebra.BigOperators.Group.List.Basic
import Mathlib.Algebra.Order.Group.Multiset
import Mathlib.Data.Multiset.Count
import Mathlib.Data.Multiset.Filter
import Mathlib.Data.List.Range

/-!
# Every block of a small page is in one place

`out` is the multiset of blocks that are outside the heap, live or in some cache. The ledger of a page
says that its free list and its blocks outside are together the blocks it has carved, each once.
`loose` is the pages that are mapped but in no list: just mapped, or about to be unmapped.
-/

namespace Allox

open Function

/-- A small block, with the class of the page it comes from. -/
structure Block where
  cls : Fin numClasses
  addr : Nat
  deriving DecidableEq

def blocksOf (cls : Fin numClasses) (chain : List Nat) : Multiset Block := ↑(chain.map (Block.mk cls))

def outAt (out : Multiset Block) (p : Nat) : Multiset Nat :=
  out.filterMap fun b => if pageOf b.addr = p then some b.addr else none

/-- The first `n` blocks of a page. -/
def carved (p : Nat) (cls : Fin numClasses) (n : Nat) : Multiset Nat :=
  ↑((List.range n).map (PageHeader.blockAt p cls))

structure PageHeader.Balanced (g : PageHeader) (p : Nat) (o : Multiset Nat) : Prop where
  freeCount : g.freeCount = g.free.length
  used : g.used = o.card
  ledger : ↑g.free + o = carved p g.cls (g.used + g.freeCount)
  room : g.used + g.freeCount ≤ g.capacity

structure SmallHeap.Conserves (h : SmallHeap) (out : Multiset Block) (loose mapped : Multiset Nat) :
    Prop where
  extents : ∀ p, (if (h.pages p).isSome then 1 else 0) + loose.count p = mapped.count p
  distinct : mapped.Nodup
  aligned : ∀ p ∈ mapped, p % pageSize = 0
  page : ∀ p g, h.pages p = some (.active g) → g.Balanced p (outAt out p)
  home : ∀ b ∈ out, ∃ g, h.pages (pageOf b.addr) = some (.active g) ∧ g.cls = b.cls
  head : ∀ c, (h.lists c).head.Nodup ∧
    ∀ p ∈ (h.lists c).head, ∃ g, h.pages p = some (.active g) ∧ g.cls = c ∧ g.inPartial = true
  empty : ∀ c, (h.lists c).empty.Nodup ∧
    ∀ p ∈ (h.lists c).empty, ∃ g, h.pages p = some (.active g) ∧ g.cls = c ∧ g.inPartial = false ∧
      g.used = 0
  cold : ∀ c, ((h.lists c).cold.map ColdPage.page).Nodup ∧
    ∀ x ∈ (h.lists c).cold, h.pages x.page = some (.cold c)

/-! ### Addresses -/

theorem classSize_pos (c : Fin numClasses) : 16 ≤ classSize c := by
  revert c
  decide

theorem capacity_le (g : PageHeader) : headerSize + g.capacity * classSize g.cls ≤ pageSize := by
  have := Nat.div_mul_le_self (pageSize - headerSize) (classSize g.cls)
  unfold PageHeader.capacity
  have : headerSize ≤ pageSize := by decide
  omega

theorem blockAt_injective (p : Nat) (c : Fin numClasses) : Injective (PageHeader.blockAt p c) := by
  intro i j hij
  have hpos := classSize_pos c
  unfold PageHeader.blockAt at hij
  exact Nat.eq_of_mul_eq_mul_right (by omega) (Nat.add_left_cancel hij)

theorem nodup_carved (p : Nat) (c : Fin numClasses) (n : Nat) : (carved p c n).Nodup := by
  exact Multiset.coe_nodup.2 (List.nodup_range.map (blockAt_injective p c))

theorem pageOf_blockAt {p : Nat} (hp : p % pageSize = 0) {g : PageHeader} {i : Nat}
    (hi : i < g.capacity) : pageOf (PageHeader.blockAt p g.cls i) = p := by
  have hcap := capacity_le g
  have hpos := classSize_pos g.cls
  have hi' : (i + 1) * classSize g.cls ≤ g.capacity * classSize g.cls := Nat.mul_le_mul_right _ hi
  rw [Nat.succ_mul] at hi'
  unfold pageOf PageHeader.blockAt
  unfold pageSize headerSize at *
  omega

theorem pageOf_of_mem_carved {p b : Nat} (hp : p % pageSize = 0) {g : PageHeader} {n : Nat}
    (hn : n ≤ g.capacity) (hb : b ∈ carved p g.cls n) : pageOf b = p := by
  simp only [carved, Multiset.mem_coe, List.mem_map, List.mem_range] at hb
  obtain ⟨i, hi, rfl⟩ := hb
  exact pageOf_blockAt hp (Nat.lt_of_lt_of_le hi hn)

/-! ### What is outside -/

@[simp] theorem outAt_add (a b : Multiset Block) (p : Nat) :
    outAt (a + b) p = outAt a p + outAt b p := Multiset.filterMap_add _ _ _

@[simp] theorem outAt_zero (p : Nat) : outAt 0 p = 0 := rfl

theorem outAt_singleton (b : Block) (p : Nat) :
    outAt {b} p = if pageOf b.addr = p then {b.addr} else 0 := by
  unfold outAt
  rw [← Multiset.cons_zero, Multiset.filterMap_cons]
  split_ifs <;> simp

theorem mem_outAt {out : Multiset Block} {p a : Nat} :
    a ∈ outAt out p ↔ pageOf a = p ∧ ∃ c, ⟨c, a⟩ ∈ out := by
  simp only [outAt, Multiset.mem_filterMap, Option.ite_none_right_eq_some, Option.some.injEq]
  constructor
  · rintro ⟨⟨c, a⟩, hb, hp, rfl⟩
    exact ⟨hp, c, hb⟩
  · rintro ⟨hp, c, hb⟩
    exact ⟨⟨c, a⟩, hb, hp, rfl⟩

@[simp] theorem blocksOf_nil (c : Fin numClasses) : blocksOf c [] = 0 := rfl

theorem blocksOf_cons (c : Fin numClasses) (b : Nat) (chain : List Nat) :
    blocksOf c (b :: chain) = {⟨c, b⟩} + blocksOf c chain := rfl

theorem blocksOf_append (c : Fin numClasses) (a b : List Nat) :
    blocksOf c (a ++ b) = blocksOf c a + blocksOf c b := by
  simp [blocksOf]

theorem mem_blocksOf {c : Fin numClasses} {chain : List Nat} {b : Block} :
    b ∈ blocksOf c chain ↔ b.cls = c ∧ b.addr ∈ chain := by
  obtain ⟨c', a⟩ := b
  simp only [blocksOf, Multiset.mem_coe, List.mem_map, Block.mk.injEq]
  constructor
  · rintro ⟨a', ha, rfl, rfl⟩
    exact ⟨rfl, ha⟩
  · rintro ⟨rfl, ha⟩
    exact ⟨a, ha, rfl, rfl⟩

theorem outAt_blocksOf {c : Fin numClasses} {p : Nat} {chain : List Nat}
    (h : ∀ b ∈ chain, pageOf b = p) : outAt (blocksOf c chain) p = ↑chain := by
  induction chain with
  | nil => rfl
  | cons b chain ih =>
      have hb := h b (List.mem_cons_self ..)
      rw [blocksOf_cons, outAt_add, ih fun x hx => h x (List.mem_cons_of_mem _ hx),
        ← Multiset.cons_coe, ← Multiset.singleton_add]
      rw [outAt_singleton, if_pos hb]

theorem outAt_blocksOf_of_ne {c : Fin numClasses} {p q : Nat} {chain : List Nat}
    (h : ∀ b ∈ chain, pageOf b = p) (hq : q ≠ p) : outAt (blocksOf c chain) q = 0 := by
  refine Multiset.eq_zero_of_forall_notMem fun a ha => ?_
  obtain ⟨hpage, c', hmem⟩ := mem_outAt.1 ha
  exact hq (hpage.symm.trans (h a (mem_blocksOf.1 hmem).2))

/-! ### One page -/

namespace PageHeader.Balanced

variable {g : PageHeader} {p : Nat} {o : Multiset Nat}

theorem init (c : Fin numClasses) (p : Nat) (virgin : Bool) :
    Balanced { PageHeader.init c with virgin := virgin } p 0 :=
  { freeCount := rfl, used := rfl, ledger := rfl, room := Nat.zero_le _ }

theorem provision (h : g.Balanced p o) (max : Nat) : (g.provision p max).1.Balanced p o := by
  have hcap : (g.provision p max).1.capacity = g.capacity := rfl
  have hroom := h.room
  have hcount : min (g.capacity - (g.used + g.freeCount)) max ≤ g.capacity - (g.used + g.freeCount) :=
    Nat.min_le_left _ _
  constructor
  · simp [PageHeader.provision, h.freeCount, Nat.add_comm]
  · exact h.used
  · have hsplit : List.range (g.used + (g.freeCount + min (g.capacity - (g.used + g.freeCount)) max))
        = List.range (g.used + g.freeCount) ++
          List.range' (g.used + g.freeCount) (min (g.capacity - (g.used + g.freeCount)) max) := by
      rw [← Nat.add_assoc, List.range_eq_range', List.range_eq_range', ← List.range'_append_1,
        Nat.zero_add]
    have hledger := h.ledger
    simp only [carved] at hledger
    simp only [PageHeader.provision, carved]
    rw [hsplit, List.map_append, ← Multiset.coe_add, ← Multiset.coe_add, ← hledger]
    ac_rfl
  · rw [hcap]
    simp only [PageHeader.provision]
    omega

theorem pop (h : g.Balanced p o) {b : Nat} {rest : List Nat} (hfree : g.free = b :: rest) :
    (g.popped rest).Balanced p ({b} + o) := by
  have hcount := h.freeCount
  have hroom := h.room
  have hledger := h.ledger
  simp only [hfree, List.length_cons] at hcount
  have hsum : g.used + 1 + (g.freeCount - 1) = g.used + g.freeCount := by omega
  constructor
  · simp [PageHeader.popped, hcount]
  · rw [Multiset.card_add, Multiset.card_singleton, ← h.used, Nat.add_comm]
    rfl
  · simp only [PageHeader.popped, hsum]
    rw [← hledger, hfree, ← Multiset.cons_coe, ← Multiset.singleton_add]
    ac_rfl
  · simp only [PageHeader.popped, hsum]
    exact hroom

theorem nodup (h : g.Balanced p o) : (↑g.free + o : Multiset Nat).Nodup := by
  rw [h.ledger]
  exact nodup_carved _ _ _

theorem pageOf_free (h : g.Balanced p o) (hp : p % pageSize = 0) {b : Nat} (hb : b ∈ g.free) :
    pageOf b = p := by
  refine pageOf_of_mem_carved hp h.room ?_
  rw [← h.ledger]
  exact Multiset.mem_add.2 (.inl hb)

/-- The chain comes back: in front of the free list. -/
theorem splice {chain : List Nat} (h : g.Balanced p (↑chain + o)) :
    Balanced { g with
      virgin := false
      free := chain ++ g.free
      freeCount := g.freeCount + chain.length
      used := g.used - chain.length } p o := by
  have hused := h.used
  have hroom := h.room
  simp only [Multiset.card_add, Multiset.coe_card] at hused
  have hsum : g.used - chain.length + (g.freeCount + chain.length) = g.used + g.freeCount := by omega
  constructor
  · simp [h.freeCount, Nat.add_comm]
  · show g.used - chain.length = o.card
    omega
  · simp only [hsum]
    rw [← h.ledger, ← Multiset.coe_add]
    ac_rfl
  · simp only [hsum]
    exact hroom

/-- All blocks outside come back: nothing of the page is carved any more. -/
theorem retire {chain : List Nat} (h : g.Balanced p (↑chain + o)) (hn : chain.length = g.used) :
    o = 0 ∧ Balanced { g with
      virgin := false, needsReinit := true, free := [], freeCount := 0, used := 0 } p 0 := by
  have hused := h.used
  simp only [Multiset.card_add, Multiset.coe_card] at hused
  refine ⟨Multiset.card_eq_zero.1 (by omega), ?_⟩
  exact { freeCount := rfl, used := rfl, ledger := rfl, room := Nat.zero_le _ }

end PageHeader.Balanced

theorem spliceAt_eq {chain free : List Nat} {tail : Nat} (hnodup : chain.Nodup)
    (htail : chain.getLast? = some tail) : spliceAt chain tail free = chain ++ free := by
  obtain ⟨init, rfl⟩ := List.getLast?_eq_some_iff.1 htail
  have hnot : tail ∉ init := by
    intro hmem
    exact (List.nodup_append.1 hnodup).2.2 tail hmem tail (List.mem_singleton_self _) rfl
  unfold spliceAt
  rw [List.takeWhile_append_of_pos]
  · simp
  · intro b hb
    simp only [bne_iff_ne, ne_eq]
    rintro rfl
    exact hnot hb

/-! ### The heap -/

namespace SmallHeap

variable {h : SmallHeap} {out out' : Multiset Block} {loose mapped : Multiset Nat} {p : Nat}
  {g g' : PageHeader} {c : Fin numClasses}

@[simp] theorem setHeader_pages : (h.setHeader p g).pages p = some (.active g) := by
  simp [setHeader]

theorem setHeader_self (hp : h.pages p = some (.active g)) : h.setHeader p g = h := by
  unfold setHeader
  rw [← hp, update_eq_self]

theorem header_eq (hp : h.pages p = some (.active g)) : h.header p = g := by
  simp [header, hp]

namespace Conserves

theorem page_aligned (hok : h.Conserves out loose mapped) {x : Page} (hp : h.pages p = some x) :
    p % pageSize = 0 := by
  have hext := hok.extents p
  simp only [hp, Option.isSome_some, if_true] at hext
  exact hok.aligned p (Multiset.count_pos.1 (by omega))

/-- Only page `p` is written, and only its blocks move. -/
theorem setHeader (g' : PageHeader) (out' : Multiset Block)
    (hok : h.Conserves out loose mapped) (hp : h.pages p = some (.active g))
    (hcls : g'.cls = g.cls) (hpart : g'.inPartial = g.inPartial)
    (hused : g.used = 0 → g.inPartial = false → g'.used = 0)
    (hpage : g'.Balanced p (outAt out' p)) (hother : ∀ q, q ≠ p → outAt out' q = outAt out q)
    (hout : ∀ b ∈ out', b ∈ out ∨ pageOf b.addr = p ∧ b.cls = g.cls) :
    (h.setHeader p g').Conserves out' loose mapped where
  extents q := by
    have := hok.extents q
    by_cases hq : q = p
    · subst hq
      simpa [SmallHeap.setHeader, hp] using this
    · simpa [SmallHeap.setHeader, hq] using this
  distinct := hok.distinct
  aligned := hok.aligned
  page q x hx := by
    by_cases hq : q = p
    · subst hq
      simp only [SmallHeap.setHeader, update_self, Option.some.injEq, Page.active.injEq] at hx
      exact hx ▸ hpage
    · rw [hother q hq]
      exact hok.page q x (by simpa [SmallHeap.setHeader, hq] using hx)
  home b hb := by
    by_cases hq : pageOf b.addr = p
    · refine ⟨g', by simp [SmallHeap.setHeader, hq], ?_⟩
      rcases hout b hb with hold | ⟨-, hc⟩
      · obtain ⟨x, hx, hc⟩ := hok.home b hold
        rw [hq, hp] at hx
        cases hx
        exact hcls.trans hc
      · exact hcls.trans hc.symm
    · rcases hout b hb with hold | ⟨hbp, -⟩
      · simpa [SmallHeap.setHeader, hq] using hok.home b hold
      · exact absurd hbp hq
  head c := by
    refine ⟨(hok.head c).1, fun q hq => ?_⟩
    obtain ⟨x, hx, hc, hin⟩ := (hok.head c).2 q hq
    by_cases hqp : q = p
    · subst hqp
      cases hp.symm.trans hx
      exact ⟨g', by simp [SmallHeap.setHeader], hcls.trans hc, hpart.trans hin⟩
    · exact ⟨x, by simpa [SmallHeap.setHeader, hqp] using hx, hc, hin⟩
  empty c := by
    refine ⟨(hok.empty c).1, fun q hq => ?_⟩
    obtain ⟨x, hx, hc, hin, hu⟩ := (hok.empty c).2 q hq
    by_cases hqp : q = p
    · subst hqp
      cases hp.symm.trans hx
      exact ⟨g', by simp [SmallHeap.setHeader], hcls.trans hc, hpart.trans hin, hused hu hin⟩
    · exact ⟨x, by simpa [SmallHeap.setHeader, hqp] using hx, hc, hin, hu⟩
  cold c := by
    refine ⟨(hok.cold c).1, fun x hx => ?_⟩
    have hcold := (hok.cold c).2 x hx
    have hne : x.page ≠ p := by
      intro he
      rw [he, hp] at hcold
      cases hcold
    simpa [SmallHeap.setHeader, hne] using hcold

theorem outAt_eq_zero (hok : h.Conserves out loose mapped)
    (hp : ∀ g, h.pages p ≠ some (.active g)) : outAt out p = 0 := by
  refine Multiset.eq_zero_of_forall_notMem fun a ha => ?_
  obtain ⟨hpage, c, hmem⟩ := mem_outAt.1 ha
  obtain ⟨g, hg, -⟩ := hok.home _ hmem
  exact hp g (hpage ▸ hg)

/-- Page `p` changes its membership in the lists of its class, the other pages do not. -/
theorem relink (hok : h.Conserves out loose mapped) (hp : h.pages p = some (.active g)) (b : Bool)
    {l : ListHead} (hhead : l.head.Nodup)
    (hmem : ∀ q ∈ l.head, q ∈ (h.lists g.cls).head ∧ q ≠ p ∨ q = p ∧ b = true)
    (hempty : l.empty.Nodup)
    (hmem' : ∀ q ∈ l.empty,
      q ∈ (h.lists g.cls).empty ∧ q ≠ p ∨ q = p ∧ b = false ∧ g.used = 0)
    (hcold : l.cold = (h.lists g.cls).cold) :
    ((h.setList g.cls l).setHeader p { g with inPartial := b }).Conserves out loose mapped where
  extents q := by
    have := hok.extents q
    by_cases hq : q = p
    · subst hq
      simpa [SmallHeap.setHeader, SmallHeap.setList, hp] using this
    · simpa [SmallHeap.setHeader, SmallHeap.setList, hq] using this
  distinct := hok.distinct
  aligned := hok.aligned
  page q x hx := by
    by_cases hq : q = p
    · subst hq
      simp only [SmallHeap.setHeader, update_self, Option.some.injEq, Page.active.injEq] at hx
      subst hx
      have hbal := hok.page q g hp
      exact ⟨hbal.freeCount, hbal.used, hbal.ledger, hbal.room⟩
    · exact hok.page q x (by simpa [SmallHeap.setHeader, SmallHeap.setList, hq] using hx)
  home x hx := by
    obtain ⟨y, hy, hc⟩ := hok.home x hx
    by_cases hq : pageOf x.addr = p
    · rw [hq] at hy
      cases hp.symm.trans hy
      exact ⟨{ g with inPartial := b }, by simp [SmallHeap.setHeader, hq], hc⟩
    · exact ⟨y, by simpa [SmallHeap.setHeader, SmallHeap.setList, hq] using hy, hc⟩
  head c := by
    by_cases hc : c = g.cls
    · subst hc
      refine ⟨by simpa [SmallHeap.setHeader, SmallHeap.setList] using hhead, fun q hq => ?_⟩
      rcases hmem q (by simpa [SmallHeap.setHeader, SmallHeap.setList] using hq) with
        ⟨hold, hne⟩ | ⟨rfl, rfl⟩
      · simpa [SmallHeap.setHeader, SmallHeap.setList, hne] using (hok.head g.cls).2 q hold
      · exact ⟨{ g with inPartial := true }, by simp [SmallHeap.setHeader], rfl, rfl⟩
    · have hlists : ((h.setList g.cls l).setHeader p { g with inPartial := b }).lists c
          = h.lists c := by simp [SmallHeap.setHeader, SmallHeap.setList, hc]
      rw [hlists]
      refine ⟨(hok.head c).1, fun q hq => ?_⟩
      obtain ⟨x, hx, hxc, hin⟩ := (hok.head c).2 q hq
      have hne : q ≠ p := by
        rintro rfl
        cases hp.symm.trans hx
        exact hc hxc.symm
      exact ⟨x, by simpa [SmallHeap.setHeader, SmallHeap.setList, hne] using hx, hxc, hin⟩
  empty c := by
    by_cases hc : c = g.cls
    · subst hc
      refine ⟨by simpa [SmallHeap.setHeader, SmallHeap.setList] using hempty, fun q hq => ?_⟩
      rcases hmem' q (by simpa [SmallHeap.setHeader, SmallHeap.setList] using hq) with
        ⟨hold, hne⟩ | ⟨rfl, rfl, hu⟩
      · simpa [SmallHeap.setHeader, SmallHeap.setList, hne] using (hok.empty g.cls).2 q hold
      · exact ⟨{ g with inPartial := false }, by simp [SmallHeap.setHeader], rfl, rfl, hu⟩
    · have hlists : ((h.setList g.cls l).setHeader p { g with inPartial := b }).lists c
          = h.lists c := by simp [SmallHeap.setHeader, SmallHeap.setList, hc]
      rw [hlists]
      refine ⟨(hok.empty c).1, fun q hq => ?_⟩
      obtain ⟨x, hx, hxc, hin⟩ := (hok.empty c).2 q hq
      have hne : q ≠ p := by
        rintro rfl
        cases hp.symm.trans hx
        exact hc hxc.symm
      exact ⟨x, by simpa [SmallHeap.setHeader, SmallHeap.setList, hne] using hx, hxc, hin⟩
  cold c := by
    have hlists : (((h.setList g.cls l).setHeader p { g with inPartial := b }).lists c).cold
        = (h.lists c).cold := by
      by_cases hc : c = g.cls
      · subst hc
        simp [SmallHeap.setHeader, SmallHeap.setList, hcold]
      · simp [SmallHeap.setHeader, SmallHeap.setList, hc]
    rw [hlists]
    refine ⟨(hok.cold c).1, fun x hx => ?_⟩
    have hpage := (hok.cold c).2 x hx
    have hne : x.page ≠ p := by
      intro he
      rw [he, hp] at hpage
      cases hpage
    simpa [SmallHeap.setHeader, SmallHeap.setList, hne] using hpage

/-- The same without a change of its header. -/
theorem relist (hok : h.Conserves out loose mapped) (hp : h.pages p = some (.active g))
    {l : ListHead} (hhead : l.head.Nodup)
    (hmem : ∀ q ∈ l.head, q ∈ (h.lists g.cls).head ∧ q ≠ p ∨ q = p ∧ g.inPartial = true)
    (hempty : l.empty.Nodup)
    (hmem' : ∀ q ∈ l.empty,
      q ∈ (h.lists g.cls).empty ∧ q ≠ p ∨ q = p ∧ g.inPartial = false ∧ g.used = 0)
    (hcold : l.cold = (h.lists g.cls).cold) : (h.setList g.cls l).Conserves out loose mapped := by
  have hsame := hok.relink hp g.inPartial hhead hmem hempty hmem' hcold
  rwa [setHeader_self (h := h.setList g.cls l) (g := { g with inPartial := g.inPartial }) hp] at hsame

theorem ne_of_mem_head (hok : h.Conserves out loose mapped) (hp : h.pages p = some (.active g))
    (hin : g.inPartial = false) {q : Nat} (hq : q ∈ (h.lists c).head) : q ≠ p := by
  rintro rfl
  obtain ⟨x, hx, -, hx'⟩ := (hok.head c).2 q hq
  cases hp.symm.trans hx
  rw [hin] at hx'
  cases hx'

theorem linkPartial (hok : h.Conserves out loose mapped) (hp : h.pages p = some (.active g))
    (hin : g.inPartial = false) (hempty : p ∉ (h.lists g.cls).empty) :
    (h.linkPartial g.cls p).Conserves out loose mapped := by
  have hnot : p ∉ (h.lists g.cls).head := fun hmem => hok.ne_of_mem_head hp hin hmem rfl
  have hheader : (h.setList g.cls { h.lists g.cls with head := p :: (h.lists g.cls).head }).header p
      = g := header_eq hp
  unfold SmallHeap.linkPartial
  simp only [hheader]
  refine hok.relink hp true (List.nodup_cons.2 ⟨hnot, (hok.head g.cls).1⟩) ?_
    (hok.empty g.cls).1 ?_ rfl
  · intro q hq
    rcases List.mem_cons.1 hq with rfl | hq
    · exact .inr ⟨rfl, rfl⟩
    · exact .inl ⟨hq, fun he => hnot (he ▸ hq)⟩
  · intro q hq
    exact .inl ⟨hq, fun he => hempty (he ▸ hq)⟩

theorem unlinkPartial (hok : h.Conserves out loose mapped) (hp : h.pages p = some (.active g))
    (hempty : p ∉ (h.lists g.cls).empty) :
    (h.unlinkPartial g.cls p).1.Conserves out loose mapped := by
  unfold SmallHeap.unlinkPartial
  rw [header_eq hp]
  split
  · rename_i hin
    have hheader : (h.setList g.cls
        { h.lists g.cls with head := (h.lists g.cls).head.erase p }).header p = g := header_eq hp
    simp only [hheader]
    refine hok.relink hp false ((hok.head g.cls).1.erase p) ?_ (hok.empty g.cls).1 ?_ rfl
    · intro q hq
      rw [(hok.head g.cls).1.mem_erase_iff] at hq
      exact .inl ⟨hq.2, hq.1⟩
    · intro q hq
      exact .inl ⟨hq, fun he => hempty (he ▸ hq)⟩
  · exact hok

end Conserves

/-- What unlinking leaves of the page itself. -/
theorem unlinkPartial_pages (hp : h.pages p = some (.active g)) :
    (h.unlinkPartial c p).1.pages p = some (.active { g with inPartial := false }) := by
  unfold SmallHeap.unlinkPartial
  rw [header_eq hp]
  split
  · rename_i hin
    simp [SmallHeap.setHeader, header_eq (h := h.setList c _) hp]
  · rename_i hin
    rw [hp]
    cases g
    simp_all

theorem unlinkPartial_empty (c' : Fin numClasses) :
    ((h.unlinkPartial c p).1.lists c').empty = (h.lists c').empty := by
  unfold SmallHeap.unlinkPartial
  split
  · by_cases hc : c' = c
    · subst hc
      simp [SmallHeap.setHeader, SmallHeap.setList]
    · simp [SmallHeap.setHeader, SmallHeap.setList, hc]
  · rfl

namespace Conserves

theorem notMem_empty (hok : h.Conserves out loose mapped) (hp : h.pages p = some (.active g))
    (hin : g.inPartial = true) : p ∉ (h.lists c).empty := by
  intro hmem
  obtain ⟨x, hx, -, hx', -⟩ := (hok.empty c).2 p hmem
  cases hp.symm.trans hx
  rw [hin] at hx'
  cases hx'

/-! ### Filling a batch -/

/-- The first block of the free list of a page leaves the heap. -/
theorem pop (hok : h.Conserves out loose mapped) (hp : h.pages p = some (.active g))
    (hin : g.inPartial = true) {b : Nat} {rest : List Nat} (hfree : g.free = b :: rest) :
    (h.setHeader p (g.popped rest)).Conserves
      (out + {⟨g.cls, b⟩}) loose mapped := by
  have hbal := hok.page p g hp
  have hb : pageOf b = p := hbal.pageOf_free (hok.page_aligned hp) (by simp [hfree])
  refine hok.setHeader _ _ hp rfl rfl ?_ ?_ ?_ ?_
  · intro _ hfalse
    rw [hin] at hfalse
    cases hfalse
  · rw [outAt_add, outAt_singleton, if_pos hb, add_comm (outAt out p)]
    exact hbal.pop hfree
  · intro q hq
    rw [outAt_add, outAt_singleton, if_neg fun he => hq (he.symm.trans hb), add_zero]
  · intro x hx
    rcases Multiset.mem_add.1 hx with hx | hx
    · exact .inl hx
    · rw [Multiset.mem_singleton.1 hx]
      exact .inr ⟨hb, rfl⟩

theorem provision (hok : h.Conserves out loose mapped) (hp : h.pages p = some (.active g))
    (max : Nat) : (h.setHeader p (g.provision p max).1).Conserves out loose mapped :=
  hok.setHeader _ _ hp rfl rfl (fun hu _ => hu) ((hok.page p g hp).provision max) (fun _ _ => rfl)
    fun _ hb => .inl hb

end Conserves

/-- A batch gathered so far, next to the blocks that are outside anyway. -/
def Filled (c : Fin numClasses) (out : Multiset Block) (loose mapped : Multiset Nat)
    (r : SmallHeap × Fill) : Prop :=
  r.1.Conserves (out + blocksOf c r.2.chain) loose mapped ∧ r.2.count = r.2.chain.length

theorem Filled.pop {f : Fill} (hok : Filled g.cls out loose mapped (h, f))
    (hp : h.pages p = some (.active g)) (hin : g.inPartial = true) {b : Nat} {rest : List Nat}
    (hfree : g.free = b :: rest) :
    Filled g.cls out loose mapped
      (h.setHeader p (g.popped rest),
        { f with chain := b :: f.chain, count := f.count + 1 }) := by
  refine ⟨?_, by simpa using hok.2⟩
  have hpop := hok.1.pop hp hin hfree
  rwa [add_assoc, add_comm (blocksOf _ _), ← blocksOf_cons] at hpop

theorem Filled.unlink {f : Fill} (hok : Filled g.cls out loose mapped (h, f))
    (hp : h.pages p = some (.active g)) (hin : g.inPartial = true) :
    Filled g.cls out loose mapped ((h.unlinkPartial g.cls p).1, f) :=
  ⟨hok.1.unlinkPartial hp (hok.1.notMem_empty hp hin), hok.2⟩

theorem fillPage_filled (n : Nat) {f : Fill} (hok : Filled g.cls out loose mapped (h, f))
    (hp : h.pages p = some (.active g)) (hin : g.inPartial = true) :
    Filled g.cls out loose mapped (fillPage g.cls p n h f) := by
  induction n generalizing h f g with
  | zero => exact hok
  | succ n ih =>
      unfold fillPage
      simp only [header_eq hp]
      split
      · exact hok
      · split
        · rename_i b rest hfree
          have hpop := hok.pop hp hin hfree
          split
          · exact Filled.unlink (g := g.popped rest) hpop setHeader_pages hin
          · exact ih (g := g.popped rest) hpop setHeader_pages hin
        · split
          · split
            · exact hok.unlink hp hin
            · exact ih (g := (g.provision p _).1) ⟨hok.1.provision hp _, hok.2⟩ setHeader_pages hin
          · exact hok.unlink hp hin

theorem fillPages_filled (n : Nat) {f : Fill} (hok : Filled c out loose mapped (h, f)) :
    Filled c out loose mapped (fillPages c n h f) := by
  induction n generalizing h f with
  | zero => exact hok
  | succ n ih =>
      unfold fillPages
      split
      · exact hok
      · split
        · exact hok
        · rename_i p rest hhead
          obtain ⟨g, hp, rfl, hin⟩ := (hok.1.head c).2 p (by simp [hhead])
          simp only [header_eq hp]
          have hstart : Filled g.cls out loose mapped
              (h, if g.virgin then f else { f with virgin := false }) := by
            split
            · exact hok
            · exact hok
          generalize (if g.virgin = true then f else { f with virgin := false }) = f₁ at *
          have hpage := fillPage_filled fillPageRounds hstart hp hin
          generalize fillPage g.cls p fillPageRounds h f₁ = r at *
          obtain ⟨h', f'⟩ := r
          dsimp only
          split
          · rename_i hstuck
            have hp' : ∃ g', h'.pages p = some (.active g') ∧ g'.cls = g.cls ∧
                g'.inPartial = true := by
              refine (hpage.1.head g.cls).2 p ?_
              simp only [Bool.and_eq_true, beq_iff_eq] at hstuck
              exact List.mem_of_mem_head? hstuck.2
            obtain ⟨g', hp', hc, hin'⟩ := hp'
            rw [← hc] at hpage ⊢
            have hunlink := hpage.unlink hp' hin'
            split
            · exact hc ▸ ih (hc ▸ hunlink)
            · exact hunlink
          · exact ih hpage

theorem fillFromList_filled {f : Fill} (hok : Filled c out loose mapped (h, f)) :
    Filled c out loose mapped (h.fillFromList c f) := fillPages_filled _ hok

/-! ### Pages come and go -/

namespace Conserves

/-- A page that had no header gets one, with nothing carved. -/
theorem activate (loose' : Multiset Nat) (hok : h.Conserves out loose mapped)
    (hp : ∀ g, h.pages p ≠ some (.active g))
    (hcold : ∀ c, ∀ x ∈ (h.lists c).cold, x.page ≠ p) (hbal : g.Balanced p 0)
    (hext : 1 + loose'.count p = mapped.count p) (hother : ∀ q ≠ p, loose'.count q = loose.count q) :
    (h.setHeader p g).Conserves out loose' mapped where
  extents q := by
    by_cases hq : q = p
    · subst hq
      simpa using hext
    · simpa [SmallHeap.setHeader, hq, hother q hq] using hok.extents q
  distinct := hok.distinct
  aligned := hok.aligned
  page q x hx := by
    by_cases hq : q = p
    · subst hq
      simp only [setHeader_pages, Option.some.injEq, Page.active.injEq] at hx
      rw [hok.outAt_eq_zero hp]
      exact hx ▸ hbal
    · exact hok.page q x (by simpa [SmallHeap.setHeader, hq] using hx)
  home b hb := by
    obtain ⟨x, hx, hc⟩ := hok.home b hb
    have hne : pageOf b.addr ≠ p := fun he => hp x (he ▸ hx)
    exact ⟨x, by simpa [SmallHeap.setHeader, hne] using hx, hc⟩
  head c := by
    refine ⟨(hok.head c).1, fun q hq => ?_⟩
    obtain ⟨x, hx, hc, hin⟩ := (hok.head c).2 q hq
    have hne : q ≠ p := fun he => hp x (he ▸ hx)
    exact ⟨x, by simpa [SmallHeap.setHeader, hne] using hx, hc, hin⟩
  empty c := by
    refine ⟨(hok.empty c).1, fun q hq => ?_⟩
    obtain ⟨x, hx, hc, hin⟩ := (hok.empty c).2 q hq
    have hne : q ≠ p := fun he => hp x (he ▸ hx)
    exact ⟨x, by simpa [SmallHeap.setHeader, hne] using hx, hc, hin⟩
  cold c := by
    refine ⟨(hok.cold c).1, fun x hx => ?_⟩
    simpa [SmallHeap.setHeader, hcold c x hx] using (hok.cold c).2 x hx

/-- Lists may shrink. -/
theorem shrink (hok : h.Conserves out loose mapped) {l : ListHead}
    (hhead : l.head = (h.lists c).head) (hempty : l.empty.Sublist (h.lists c).empty)
    (hcold : l.cold.Sublist (h.lists c).cold) : (h.setList c l).Conserves out loose mapped where
  extents := hok.extents
  distinct := hok.distinct
  aligned := hok.aligned
  page := hok.page
  home := hok.home
  head c' := by
    by_cases hc : c' = c
    · subst hc
      simpa [setList, hhead] using hok.head c'
    · simpa [setList, hc] using hok.head c'
  empty c' := by
    by_cases hc : c' = c
    · subst hc
      have hold := hok.empty c'
      simp only [setList, update_self]
      exact ⟨hempty.nodup hold.1, fun q hq => hold.2 q (hempty.subset hq)⟩
    · simpa [setList, hc] using hok.empty c'
  cold c' := by
    by_cases hc : c' = c
    · subst hc
      have hold := hok.cold c'
      simp only [setList, update_self]
      exact ⟨(hcold.map _).nodup hold.1, fun x hx => hold.2 x (hcold.subset hx)⟩
    · simpa [setList, hc] using hok.cold c'

/-- An idle page, in no list, loses its header: it turns cold, or leaves the heap. -/
theorem deactivate (l : ListHead) (x : Option Page) (loose' : Multiset Nat)
    (hok : h.Conserves out loose mapped) (hp : h.pages p = some (.active g))
    (hin : g.inPartial = false) (hused : g.used = 0) (hempty : ∀ c, p ∉ (h.lists c).empty)
    (hhead : l.head = (h.lists g.cls).head) (hempty' : l.empty = (h.lists g.cls).empty)
    (hcold : l.cold = (h.lists g.cls).cold ∧ x = none ∨
      (∃ y, y.page = p ∧ l.cold = y :: (h.lists g.cls).cold) ∧ x = some (.cold g.cls))
    (hext : (if x.isSome then 1 else 0) + loose'.count p = 1 + loose.count p)
    (hother : ∀ q ≠ p, loose'.count q = loose.count q) :
    SmallHeap.Conserves { h.setList g.cls l with pages := Function.update h.pages p x } out loose'
      mapped where
  extents q := by
    have hq' := hok.extents q
    by_cases hq : q = p
    · subst hq
      simp only [hp, Option.isSome_some, if_true] at hq'
      simpa using hext.trans hq'
    · simpa [hq, hother q hq] using hq'
  distinct := hok.distinct
  aligned := hok.aligned
  page q y hy := by
    by_cases hq : q = p
    · subst hq
      rcases hcold with ⟨-, rfl⟩ | ⟨-, rfl⟩
      · simp at hy
      · simp at hy
    · exact hok.page q y (by simpa [hq] using hy)
  home b hb := by
    obtain ⟨y, hy, hc⟩ := hok.home b hb
    have hne : pageOf b.addr ≠ p := by
      intro he
      have hcard := (hok.page p g hp).used
      have hmem : b.addr ∈ outAt out p := mem_outAt.2 ⟨he, b.cls, hb⟩
      rw [hused, Multiset.card_eq_zero.1 (hcard.symm.trans hused)] at *
      exact Multiset.notMem_zero _ hmem
    exact ⟨y, by simpa [hne] using hy, hc⟩
  head c := by
    have hlists : ((h.setList g.cls l).lists c).head = (h.lists c).head := by
      by_cases hc : c = g.cls
      · subst hc
        simp [setList, hhead]
      · simp [setList, hc]
    simp only [hlists]
    refine ⟨(hok.head c).1, fun q hq => ?_⟩
    obtain ⟨y, hy, hc, hy'⟩ := (hok.head c).2 q hq
    have hne : q ≠ p := by
      rintro rfl
      cases hp.symm.trans hy
      rw [hin] at hy'
      cases hy'
    exact ⟨y, by simpa [hne] using hy, hc, hy'⟩
  empty c := by
    have hlists : ((h.setList g.cls l).lists c).empty = (h.lists c).empty := by
      by_cases hc : c = g.cls
      · subst hc
        simp [setList, hempty']
      · simp [setList, hc]
    simp only [hlists]
    refine ⟨(hok.empty c).1, fun q hq => ?_⟩
    have hne : q ≠ p := fun he => hempty c (he ▸ hq)
    simpa [hne] using (hok.empty c).2 q hq
  cold c := by
    have hold : ∀ y ∈ (h.lists c).cold, y.page ≠ p := by
      intro y hy he
      have := (hok.cold c).2 y hy
      rw [he, hp] at this
      cases this
    by_cases hc : c = g.cls
    · subst hc
      simp only [setList, update_self]
      rcases hcold with ⟨hl, rfl⟩ | ⟨⟨y, rfl, hl⟩, rfl⟩
      · rw [hl]
        refine ⟨(hok.cold _).1, fun y hy => ?_⟩
        simpa [hold y hy] using (hok.cold _).2 y hy
      · rw [hl]
        refine ⟨?_, fun z hz => ?_⟩
        · rw [List.map_cons, List.nodup_cons]
          refine ⟨fun hmem => ?_, (hok.cold _).1⟩
          obtain ⟨z, hz, he⟩ := List.mem_map.1 hmem
          exact hold z hz he
        · rcases List.mem_cons.1 hz with rfl | hz
          · simp
          · simpa [hold z hz] using (hok.cold _).2 z hz
    · simp only [setList, update_of_ne hc]
      refine ⟨(hok.cold c).1, fun y hy => ?_⟩
      simpa [hold y hy] using (hok.cold c).2 y hy

end Conserves

/-! ### Taking a batch -/

theorem Filled.conserves {f : Fill} (hok : Filled c out loose mapped (h, f)) (hcount : f.count = 0) :
    h.Conserves out loose mapped ∧ f.chain = [] := by
  have hnil : f.chain = [] := List.length_eq_zero_iff.1 (hok.2.symm.trans hcount)
  have hcons := hok.1
  rw [hnil, blocksOf_nil, add_zero] at hcons
  exact ⟨hcons, hnil⟩

theorem Conserves.filled (hok : h.Conserves out loose mapped) {f : Fill} (hcount : f.count = 0)
    (hnil : f.chain = []) : Filled c out loose mapped (h, f) := by
  refine ⟨?_, by simp [hcount, hnil]⟩
  rw [hnil, blocksOf_nil, add_zero]
  exact hok

/-- An idle page is linked and the batch filled from it. -/
theorem Conserves.linkFill (hok : h.Conserves out loose mapped) (hp : h.pages p = some (.active g))
    (hin : g.inPartial = false) (hempty : p ∉ (h.lists g.cls).empty) {f : Fill}
    (hcount : f.count = 0) (hnil : f.chain = []) :
    Filled g.cls out loose mapped ((h.linkPartial g.cls p).fillFromList g.cls f) :=
  fillFromList_filled ((hok.linkPartial hp hin hempty).filled hcount hnil)

theorem takeEmpty_filled {f : Fill} (hok : Filled c out loose mapped (h, f)) :
    Filled c out loose mapped (h.takeEmpty c f) := by
  unfold takeEmpty
  split
  · rename_i p rest hcount hempty
    obtain ⟨hcons, hnil⟩ := hok.conserves hcount
    have hnodup := (hcons.empty c).1
    obtain ⟨g, hp, rfl, hin, hu⟩ := (hcons.empty c).2 p (by simp [hempty])
    rw [hempty, List.nodup_cons] at hnodup
    have htaken := hcons.shrink (c := g.cls) (l := { h.lists g.cls with
      empty := rest, emptyCount := (h.lists g.cls).emptyCount - 1 }) rfl (by simp [hempty])
      (List.Sublist.refl _)
    have hnot : p ∉ ((h.setList g.cls { h.lists g.cls with
      empty := rest, emptyCount := (h.lists g.cls).emptyCount - 1 }).lists g.cls).empty := by
      simpa [setList] using hnodup.1
    have hp' : (h.setList g.cls { h.lists g.cls with
      empty := rest, emptyCount := (h.lists g.cls).emptyCount - 1 }).pages p
        = some (.active g) := hp
    dsimp only
    generalize h.setList g.cls _ = h₁ at *
    rw [header_eq hp']
    split
    · rename_i hreinit
      have hzero : outAt out p = 0 :=
        Multiset.card_eq_zero.1 ((htaken.page p g hp').used.symm.trans hu)
      have hfresh := htaken.setHeader { PageHeader.init g.cls with virgin := false } out hp' rfl
        hin.symm (fun _ _ => rfl)
        (by rw [hzero]; exact PageHeader.Balanced.init g.cls p false) (fun _ _ => rfl)
        fun _ hb => .inl hb
      exact hfresh.linkFill setHeader_pages rfl hnot hcount hnil
    · exact htaken.linkFill hp' hin hnot hcount hnil
  · exact hok

theorem takeCold_filled {f : Fill} (hok : Filled c out loose mapped (h, f)) :
    Filled c out loose mapped (h.takeCold c f) := by
  unfold takeCold
  split
  · rename_i x rest hcount hcold
    obtain ⟨hcons, hnil⟩ := hok.conserves hcount
    have hnodup := (hcons.cold c).1
    have hx := (hcons.cold c).2 x (by simp [hcold])
    rw [hcold, List.map_cons, List.nodup_cons] at hnodup
    have htaken := hcons.shrink (c := c) (l := { h.lists c with
      cold := rest, coldBytes := (h.lists c).coldBytes - pageSize }) rfl (List.Sublist.refl _)
      (by simp [hcold])
    have hrest : ∀ c', ∀ y ∈ ((h.setList c { h.lists c with
        cold := rest, coldBytes := (h.lists c).coldBytes - pageSize }).lists c').cold,
        y.page ≠ x.page := by
      intro c' y hy he
      by_cases hc : c' = c
      · subst hc
        simp only [setList, update_self] at hy
        exact hnodup.1 (List.mem_map.2 ⟨y, hy, he⟩)
      · have hy' := (htaken.cold c').2 y hy
        rw [he] at hy'
        cases hx.symm.trans hy'
        exact hc rfl
    have hx' : (h.setList c { h.lists c with
        cold := rest, coldBytes := (h.lists c).coldBytes - pageSize }).pages x.page
        = some (.cold c) := hx
    dsimp only
    generalize h.setList c _ = h₁ at *
    have hext := htaken.extents x.page
    simp only [hx', Option.isSome_some, if_true] at hext
    have hfresh := htaken.activate (g := { PageHeader.init c with virgin := x.zeroed }) loose
      (fun g hg => by cases hx'.symm.trans hg) hrest (PageHeader.Balanced.init c x.page x.zeroed)
      hext fun _ _ => rfl
    refine hfresh.linkFill setHeader_pages rfl ?_ hcount hnil
    intro hmem
    obtain ⟨g, hg, -⟩ := (htaken.empty c).2 _ hmem
    cases hx'.symm.trans hg
  · exact hok

theorem takeLocked_filled (hok : h.Conserves out loose mapped) :
    Filled c out loose mapped (h.takeLocked c) := by
  have hfill : Filled c out loose mapped
      (h.fillFromList c { chain := [], count := 0, virgin := true }) :=
    fillFromList_filled (hok.filled rfl rfl)
  unfold takeLocked
  exact takeCold_filled (takeEmpty_filled (f := (h.fillFromList c _).2) hfill)

/-- The page just mapped joins the heap. -/
theorem Conserves.linkFresh (hok : h.Conserves out ({p} + loose) mapped) (c : Fin numClasses) :
    ((h.setHeader p (.init c)).linkPartial c p).Conserves out loose mapped := by
  have hext := hok.extents p
  have hone : mapped.count p ≤ 1 := Multiset.nodup_iff_count_le_one.1 hok.distinct p
  simp only [Multiset.count_add, Multiset.count_singleton_self] at hext
  have hnone : h.pages p = none := by
    by_contra hsome
    simp only [Option.isSome_iff_ne_none.2 hsome, if_true] at hext
    omega
  have hfresh := hok.activate (g := PageHeader.init c) loose
    (fun g hg => by rw [hnone] at hg; cases hg)
    (fun c' x hx he => by
      have hx' := (hok.cold c').2 x hx
      rw [he, hnone] at hx'
      cases hx')
    (PageHeader.Balanced.init c p true) (by simpa [hnone] using hext)
    fun q hq => by simp [hq]
  refine hfresh.linkPartial setHeader_pages rfl ?_
  intro hmem
  obtain ⟨g, hg, -⟩ := (hok.empty c).2 _ hmem
  rw [hnone] at hg
  cases hg

theorem takeMapped_filled (hok : h.Conserves out ({p} + loose) mapped) {f : Fill}
    (hcount : f.count = 0) (hnil : f.chain = []) :
    Filled c out loose mapped (h.takeMapped c p f) :=
  fillFromList_filled ((hok.linkFresh c).filled hcount hnil)

/-! ### Giving back -/

/-- What is loose after a page met its fate. -/
def unmapped (p : Nat) : Fate → Multiset Nat
  | .unmap _ => {p}
  | _ => 0

theorem parkEmptyPage_conserves (hok : h.Conserves out loose mapped)
    (hp : h.pages p = some (.active g)) (hu : g.used = 0) (hempty : p ∉ (h.lists g.cls).empty)
    (d : Discarded) :
    (h.parkEmptyPage g.cls d p).1.Conserves out
      (unmapped p (h.parkEmptyPage g.cls d p).2 + loose) mapped := by
  have hidle := hok.unlinkPartial hp hempty
  have hempty' : ∀ c, p ∉ ((h.unlinkPartial g.cls p).1.lists c).empty := by
    intro c hmem
    rw [unlinkPartial_empty] at hmem
    obtain ⟨x, hx, hc, -⟩ := (hok.empty c).2 p hmem
    cases hp.symm.trans hx
    exact hempty (hc ▸ hmem)
  obtain ⟨g', hp', hcls, hin, hu'⟩ : ∃ g', (h.unlinkPartial g.cls p).1.pages p = some (.active g') ∧
      g.cls = g'.cls ∧ g'.inPartial = false ∧ g'.used = 0 :=
    ⟨{ g with inPartial := false }, unlinkPartial_pages hp, rfl, rfl, hu⟩
  unfold parkEmptyPage
  dsimp only
  generalize (h.unlinkPartial g.cls p).1 = h₁ at *
  rw [hcls]
  split
  · simp only [unmapped, zero_add]
    refine hidle.relist hp' (hidle.head g'.cls).1
      (fun q hq => .inl ⟨hq, hidle.ne_of_mem_head hp' hin hq⟩)
      (List.nodup_cons.2 ⟨hempty' g'.cls, (hidle.empty g'.cls).1⟩) (fun q hq => ?_) rfl
    rcases List.mem_cons.1 hq with rfl | hq
    · exact .inr ⟨rfl, hin, hu'⟩
    · exact .inl ⟨hq, fun he => hempty' _ (he ▸ hq)⟩
  · split
    · simp only [unmapped, zero_add]
      exact hidle.deactivate _ _ _ hp' hin hu' hempty' rfl rfl (.inr ⟨⟨_, rfl, rfl⟩, rfl⟩) rfl
        fun _ _ => rfl
    · have hgone := hidle.deactivate (h₁.lists g'.cls) none ({p} + loose) hp'
        hin hu' hempty' rfl rfl (.inl ⟨rfl, rfl⟩) (by simp [Nat.add_comm])
        fun q hq => by simp [hq]
      rwa [setList, update_eq_self] at hgone

/-- A chunk as the flushes build it: a chain of blocks of one page, with its last block and length. -/
structure Chunk (c : Fin numClasses) (x : PageReleaseChunk) : Prop where
  page : ∀ b ∈ x.chain, pageOf b = x.page
  tail : x.chain.getLast? = some x.tail
  n : x.n = x.chain.length

theorem Chunk.ne_nil {x : PageReleaseChunk} (hx : Chunk c x) : x.chain ≠ [] := by
  intro hnil
  have htail := hx.tail
  rw [hnil] at htail
  cases htail

/-- The page of a chunk that is outside. -/
theorem Conserves.chunk_page {x : PageReleaseChunk}
    (hok : h.Conserves (out + blocksOf c x.chain) loose mapped) (hx : Chunk c x) :
    ∃ g, h.pages x.page = some (.active g) ∧ g.cls = c ∧ g.used ≠ 0 ∧
      g.Balanced x.page (↑x.chain + outAt out x.page) := by
  obtain ⟨b, hb⟩ := List.exists_mem_of_ne_nil _ hx.ne_nil
  obtain ⟨g, hg, hc⟩ := hok.home ⟨c, b⟩
    (Multiset.mem_add.2 (.inr (mem_blocksOf.2 ⟨rfl, hb⟩)))
  rw [hx.page b hb] at hg
  have hbal := hok.page _ g hg
  rw [outAt_add, outAt_blocksOf hx.page, add_comm] at hbal
  refine ⟨g, hg, hc, fun hu => ?_, hbal⟩
  have hused := hbal.used
  have hlen : x.chain.length ≠ 0 := fun hl => hx.ne_nil (List.length_eq_zero_iff.1 hl)
  simp only [Multiset.card_add, Multiset.coe_card] at hused
  omega

theorem Conserves.notMem_empty_of_used (hok : h.Conserves out loose mapped)
    (hp : h.pages p = some (.active g)) (hu : g.used ≠ 0) : p ∉ (h.lists c).empty := by
  intro hmem
  obtain ⟨x, hx, -, -, hx'⟩ := (hok.empty c).2 p hmem
  cases hp.symm.trans hx
  exact hu hx'

theorem releaseInner_conserves {x : PageReleaseChunk}
    (hok : h.Conserves (out + blocksOf c x.chain) loose mapped) (hx : Chunk c x) (d : Discarded) :
    (h.releaseInner c d x).1.Conserves out (unmapped x.page (h.releaseInner c d x).2 + loose)
      mapped := by
  obtain ⟨g, hp, rfl, hu, hbal⟩ := hok.chunk_page hx
  have hnot := hok.notMem_empty_of_used (c := g.cls) hp hu
  have hnodup : x.chain.Nodup := by
    have := hbal.nodup
    rw [Multiset.nodup_add, Multiset.nodup_add] at this
    exact Multiset.coe_nodup.1 this.2.1.1
  have hback := hok.setHeader
    { g with
      virgin := false
      free := x.chain ++ g.free
      freeCount := g.freeCount + x.chain.length
      used := g.used - x.chain.length } out hp rfl rfl (fun hu' => absurd hu' hu) hbal.splice
    (fun q hq => by rw [outAt_add, outAt_blocksOf_of_ne hx.page hq, add_zero])
    fun b hb => .inl (Multiset.mem_add.2 (.inl hb))
  unfold releaseInner
  dsimp only
  rw [header_eq hp, spliceAt_eq hnodup hx.tail, hx.n]
  split
  · rename_i hzero
    exact parkEmptyPage_conserves hback setHeader_pages hzero hnot d
  · split
    · simpa only [unmapped, zero_add] using hback
    · rename_i hin
      simpa only [unmapped, zero_add] using
        hback.linkPartial setHeader_pages (by simpa using hin) hnot

theorem retirePageInner_conserves {x : PageReleaseChunk}
    (hok : h.Conserves (out + blocksOf c x.chain) loose mapped) (hx : Chunk c x)
    (hall : x.n = (h.header x.page).used) (d : Discarded) :
    (h.retirePageInner c d x.page).1.Conserves out
      (unmapped x.page (h.retirePageInner c d x.page).2 + loose) mapped := by
  obtain ⟨g, hp, rfl, hu, hbal⟩ := hok.chunk_page hx
  have hnot := hok.notMem_empty_of_used (c := g.cls) hp hu
  rw [header_eq hp, hx.n] at hall
  obtain ⟨hzero, hretired⟩ := hbal.retire hall
  have hback := hok.setHeader
    { g with virgin := false, needsReinit := true, free := [], freeCount := 0, used := 0 } out hp rfl rfl
    (fun _ _ => rfl) (by rw [hzero]; exact hretired)
    (fun q hq => by rw [outAt_add, outAt_blocksOf_of_ne hx.page hq, add_zero])
    fun b hb => .inl (Multiset.mem_add.2 (.inl hb))
  unfold retirePageInner
  rw [header_eq hp]
  exact parkEmptyPage_conserves hback setHeader_pages rfl hnot d

/-- All blocks of some chunks. -/
def chunkBlocks (c : Fin numClasses) (chunks : List PageReleaseChunk) : Multiset Block :=
  (chunks.map fun x => blocksOf c x.chain).sum

def allUnmapped (fates : List (Nat × Fate)) : Multiset Nat :=
  (fates.map fun x => unmapped x.1 x.2).sum

theorem releaseBatch_conserves {chunks : List PageReleaseChunk} (hchunks : ∀ x ∈ chunks, Chunk c x)
    (d : Nat → Discarded)
    (hok : h.Conserves (out + chunkBlocks c chunks) loose mapped) :
    (releaseBatch c h d chunks).1.Conserves out
      (allUnmapped (releaseBatch c h d chunks).2 + loose) mapped := by
  induction chunks generalizing h d loose with
  | nil => simpa [releaseBatch, chunkBlocks, allUnmapped] using hok
  | cons x rest ih =>
      have hx := hchunks x (List.mem_cons_self ..)
      have hrest := fun y hy => hchunks y (List.mem_cons_of_mem _ hy)
      have hok' : h.Conserves (out + chunkBlocks c rest + blocksOf c x.chain) loose mapped := by
        rw [add_assoc, add_comm (chunkBlocks c rest)]
        simpa [chunkBlocks] using hok
      have hone : ∀ r, r = (if x.n = (h.header x.page).used then h.retirePageInner c (d 0) x.page
            else h.releaseInner c (d 0) x) →
          r.1.Conserves (out + chunkBlocks c rest) (unmapped x.page r.2 + loose) mapped := by
        rintro r rfl
        split
        · rename_i hall
          exact retirePageInner_conserves hok' hx hall (d 0)
        · exact releaseInner_conserves hok' hx (d 0)
      have hdone := ih hrest (fun i => d (i + 1)) (hone _ rfl)
      unfold releaseBatch
      simpa [allUnmapped, add_left_comm, add_assoc] using hdone

/-! ### The flush at exit -/

theorem parkEmptyPage_pages_of_ne {q : Nat} (hq : q ≠ p) (d : Discarded) :
    (h.parkEmptyPage c d p).1.pages q = h.pages q := by
  have hunlink : (h.unlinkPartial c p).1.pages q = h.pages q := by
    unfold unlinkPartial
    split <;> simp [setHeader, setList, hq]
  unfold parkEmptyPage
  dsimp only
  split
  · exact hunlink
  · split <;> simpa [setList, hq] using hunlink

theorem releaseInner_pages_of_ne {x : PageReleaseChunk} {q : Nat} (hq : q ≠ x.page)
    (d : Discarded) : (h.releaseInner c d x).1.pages q = h.pages q := by
  unfold releaseInner
  dsimp only
  split
  · rw [parkEmptyPage_pages_of_ne hq]
    simp [setHeader, hq]
  · split <;> simp [linkPartial, setHeader, setList, hq]

theorem retirePageInner_pages_of_ne {q : Nat} (hq : q ≠ p) (d : Discarded) :
    (h.retirePageInner c d p).1.pages q = h.pages q := by
  unfold retirePageInner
  rw [parkEmptyPage_pages_of_ne hq]
  simp [setHeader, hq]

/-- The chunk of a counted page. -/
def countedChunk (chain : List Nat) (g : PageCount) : PageReleaseChunk :=
  let blocks := chain.filter (pageOf · == g.page)
  ⟨g.page, blocks, blocks.getLast?.getD 0, g.n⟩

/-- The decisions are those of the heap before any page of the list is touched. -/
theorem releaseCounted_conserves {chain : List Nat} {groups : List (PageCount × Bool)}
    (hchunks : ∀ x ∈ groups, Chunk c (countedChunk chain x.1))
    (hpages : (groups.map fun x => x.1.page).Nodup)
    (hdecided : ∀ x ∈ groups, x.2 = (x.1.n == (h.header x.1.page).used)) (d : Nat → Discarded)
    (hok : h.Conserves (out + chunkBlocks c (groups.map fun x => countedChunk chain x.1)) loose
      mapped) :
    (releaseCounted c chain h d groups).1.Conserves out
      (allUnmapped (releaseCounted c chain h d groups).2 + loose) mapped := by
  induction groups generalizing h d loose with
  | nil => simpa [releaseCounted, chunkBlocks, allUnmapped] using hok
  | cons x rest ih =>
      obtain ⟨g, retire⟩ := x
      have hx := hchunks (g, retire) (List.mem_cons_self ..)
      have hretire := hdecided (g, retire) (List.mem_cons_self ..)
      have hrest := fun y hy => hchunks y (List.mem_cons_of_mem _ hy)
      rw [List.map_cons, List.nodup_cons] at hpages
      have hne : ∀ y ∈ rest, y.1.page ≠ g.page := fun y hy he =>
        hpages.1 (List.mem_map.2 ⟨y, hy, he⟩)
      have hok' : h.Conserves (out + chunkBlocks c (rest.map fun x => countedChunk chain x.1)
          + blocksOf c (countedChunk chain g).chain) loose mapped := by
        rw [add_assoc, add_comm (chunkBlocks c _)]
        simpa [chunkBlocks] using hok
      have hone : ∀ r, r = (if retire = true then h.retirePageInner c (d 0) g.page
            else h.releaseInner c (d 0) (countedChunk chain g)) →
          r.1.Conserves (out + chunkBlocks c (rest.map fun x => countedChunk chain x.1))
            (unmapped g.page r.2 + loose) mapped ∧
          ∀ y ∈ rest, r.1.pages y.1.page = h.pages y.1.page := by
        rintro r rfl
        split
        · rename_i hall
          refine ⟨retirePageInner_conserves (x := countedChunk chain g) hok' hx ?_ (d 0),
            fun y hy => retirePageInner_pages_of_ne (hne y hy) _⟩
          rw [hall] at hretire
          exact (beq_iff_eq.1 hretire.symm)
        · exact ⟨releaseInner_conserves hok' hx (d 0),
            fun y hy => releaseInner_pages_of_ne (x := countedChunk chain g) (hne y hy) _⟩
      obtain ⟨hone, hsame⟩ := hone _ rfl
      have hdone := ih hrest hpages.2 (fun y hy => by
        rw [hdecided y (List.mem_cons_of_mem _ hy)]
        unfold header
        rw [hsame y hy]) (fun i => d (i + 1)) hone
      unfold releaseCounted
      simpa [allUnmapped, add_left_comm, add_assoc, countedChunk] using hdone

/-- The groups count every block of the chain, by page. -/
structure Counted (chain : List Nat) (groups : List PageCount) : Prop where
  pages : (groups.map PageCount.page).Nodup
  n : ∀ g ∈ groups, g.n = (chain.filter (pageOf · == g.page)).length
  some : ∀ g ∈ groups, ∃ b ∈ chain, pageOf b = g.page
  all : ∀ b ∈ chain, ∃ g ∈ groups, g.page = pageOf b

theorem sum_map_ite_page (groups : List PageCount) (m : Multiset Block) {q : Nat}
    (hpages : (groups.map PageCount.page).Nodup) :
    (groups.map fun g => if q = g.page then m else 0).sum
      = if ∃ g ∈ groups, g.page = q then m else 0 := by
  induction groups with
  | nil => simp
  | cons g rest ih =>
      rw [List.map_cons, List.nodup_cons] at hpages
      rw [List.map_cons, List.sum_cons, ih hpages.2]
      by_cases hq : q = g.page
      · have hnot : ¬∃ g' ∈ rest, g'.page = q := by
          rintro ⟨g', hg', he⟩
          exact hpages.1 (List.mem_map.2 ⟨g', hg', he.trans hq⟩)
        rw [if_pos hq, if_neg hnot, if_pos ⟨g, List.mem_cons_self .., hq.symm⟩, add_zero]
      · have hiff : (∃ g' ∈ g :: rest, g'.page = q) ↔ ∃ g' ∈ rest, g'.page = q := by
          simp [Ne.symm hq]
        simp only [if_neg hq, hiff, zero_add]

/-- The chain is what its groups hold. -/
theorem blocksOf_eq_chunkBlocks {chain : List Nat} {groups : List PageCount}
    (hpages : (groups.map PageCount.page).Nodup)
    (hall : ∀ b ∈ chain, ∃ g ∈ groups, g.page = pageOf b) :
    blocksOf c chain = chunkBlocks c (groups.map (countedChunk chain)) := by
  induction chain with
  | nil =>
      simp [chunkBlocks, Function.comp_def, countedChunk]
  | cons b chain ih =>
      have hsplit : ∀ g : PageCount, blocksOf c (countedChunk (b :: chain) g).chain
          = (if pageOf b = g.page then {⟨c, b⟩} else 0) + blocksOf c (countedChunk chain g).chain := by
        intro g
        by_cases hb : pageOf b = g.page
        · simp [countedChunk, hb, blocksOf_cons]
        · simp [countedChunk, hb]
      rw [blocksOf_cons, ih fun x hx => hall x (List.mem_cons_of_mem _ hx)]
      simp only [chunkBlocks, List.map_map, Function.comp_def, hsplit]
      rw [List.sum_map_add, sum_map_ite_page groups _ hpages,
        if_pos (hall b (List.mem_cons_self ..))]

theorem Counted.chunk {chain : List Nat} {groups : List PageCount} (hcount : Counted chain groups)
    {g : PageCount} (hg : g ∈ groups) : Chunk c (countedChunk chain g) := by
  have hmem : ∀ b ∈ chain.filter (pageOf · == g.page), pageOf b = g.page := by
    intro b hb
    simpa using (List.mem_filter.1 hb).2
  refine ⟨hmem, ?_, hcount.n g hg⟩
  obtain ⟨b, hb, he⟩ := hcount.some g hg
  have hne : chain.filter (pageOf · == g.page) ≠ [] :=
    List.ne_nil_of_mem (List.mem_filter.2 ⟨hb, by simpa using he⟩)
  simp only [countedChunk]
  rw [List.getLast?_eq_some_getLast hne]
  rfl

theorem releaseBinChunks_conserves {chain : List Nat} {groups : List PageCount}
    (hcount : Counted chain groups) (d : Nat → Discarded)
    (hok : h.Conserves (out + blocksOf c chain) loose mapped) :
    (h.releaseBinChunks c d chain groups).1.Conserves out
      (allUnmapped (h.releaseBinChunks c d chain groups).2 + loose) mapped := by
  refine releaseCounted_conserves ?_ ?_ ?_ d ?_
  · intro x hx
    obtain ⟨g, hg, rfl⟩ := List.mem_map.1 hx
    exact hcount.chunk hg
  · simpa [Function.comp_def] using hcount.pages
  · intro x hx
    obtain ⟨g, hg, rfl⟩ := List.mem_map.1 hx
    rfl
  · rw [blocksOf_eq_chunkBlocks hcount.pages hcount.all] at hok
    simpa [Function.comp_def] using hok

/-! ### Mapping, unmapping -/

/-- Pages are mapped or unmapped outside the heap. -/
theorem Conserves.remap (hok : h.Conserves out loose mapped) {loose' mapped' : Multiset Nat}
    (hext : ∀ p, loose'.count p + mapped.count p = loose.count p + mapped'.count p)
    (hdistinct : mapped'.Nodup) (haligned : ∀ p ∈ mapped', p % pageSize = 0) :
    h.Conserves out loose' mapped' :=
  { hok with
    extents := fun p => by
      have := hok.extents p
      have := hext p
      omega
    distinct := hdistinct
    aligned := haligned }

/-- Only whole pages are ever unmapped. -/
def PageFate (fate : Fate) : Prop := ∀ bytes, fate = .unmap bytes → bytes = pageSize

theorem parkEmptyPage_fate (h : SmallHeap) (c : Fin numClasses) (d : Discarded) (p : Nat) :
    PageFate (h.parkEmptyPage c d p).2 := by
  unfold parkEmptyPage PageFate
  dsimp only
  split
  · simp
  · split <;> simp [eq_comm]

theorem releaseInner_fate (h : SmallHeap) (c : Fin numClasses) (d : Discarded)
    (x : PageReleaseChunk) : PageFate (h.releaseInner c d x).2 := by
  unfold releaseInner
  dsimp only
  split
  · exact parkEmptyPage_fate _ _ _ _
  · split <;> simp [PageFate]

theorem releaseBatch_fate (c : Fin numClasses) (h : SmallHeap) (d : Nat → Discarded)
    (chunks : List PageReleaseChunk) : ∀ x ∈ (releaseBatch c h d chunks).2, PageFate x.2 := by
  induction chunks generalizing h d with
  | nil => simp [releaseBatch]
  | cons x rest ih =>
      unfold releaseBatch
      dsimp only
      intro y hy
      rcases List.mem_cons.1 hy with rfl | hy
      · dsimp only
        split
        · exact parkEmptyPage_fate _ _ _ _
        · exact releaseInner_fate _ _ _ _
      · exact ih _ _ y hy

theorem releaseCounted_fate (c : Fin numClasses) (chain : List Nat) (h : SmallHeap)
    (d : Nat → Discarded) (groups : List (PageCount × Bool)) :
    ∀ x ∈ (releaseCounted c chain h d groups).2, PageFate x.2 := by
  induction groups generalizing h d with
  | nil => simp [releaseCounted]
  | cons x rest ih =>
      unfold releaseCounted
      dsimp only
      intro y hy
      rcases List.mem_cons.1 hy with rfl | hy
      · dsimp only
        split
        · exact parkEmptyPage_fate _ _ _ _
        · exact releaseInner_fate _ _ _ _
      · exact ih _ _ y hy

end SmallHeap

end Allox
