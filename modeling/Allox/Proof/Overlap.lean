import Allox.Proof.Conservation

/-!
# No two pieces of memory overlap

Everything outside the heaps and shards has bytes of its own: a block in a cache, a live one, a region,
an extent that a thread is about to unmap. Two blocks of one page or span are different blocks of its
carve, and different pages, spans and regions are different mappings.
-/

namespace Allox

open Resumption

/-- Two stretches of bytes, given as start and length, have no byte in common. -/
def Separate (a b : Nat × Nat) : Prop := a.1 + a.2 ≤ b.1 ∨ b.1 + b.2 ≤ a.1

/-- All of `a` lies in the stretch `b`. -/
def Inside (a b : Nat × Nat) : Prop := b.1 ≤ a.1 ∧ a.1 + a.2 ≤ b.1 + b.2

theorem Separate.symm {a b : Nat × Nat} (h : Separate a b) : Separate b a := Or.symm h

theorem Separate.inside {a b a' b' : Nat × Nat} (h : Separate a b) (ha : Inside a' a)
    (hb : Inside b' b) : Separate a' b' := by
  unfold Separate Inside at *
  omega

theorem Apart.separate {e e' : Nat × Nat} (h : Apart e e') :
    Separate (e.1, e.2 * pageSize) (e'.1, e'.2 * pageSize) := h

/-! ### Blocks of one page -/

theorem blockAt_inside (p : Nat) {g : PageHeader} {i : Nat} (hi : i < g.capacity) :
    Inside (PageHeader.blockAt p g.cls i, classSize g.cls) (p, pageSize) := by
  have hcap := capacity_le g
  have hlast : (i + 1) * classSize g.cls ≤ g.capacity * classSize g.cls := Nat.mul_le_mul_right _ hi
  rw [Nat.succ_mul] at hlast
  unfold Inside PageHeader.blockAt
  dsimp only
  omega

theorem blockAt_separate (p : Nat) (c : Fin numClasses) {i j : Nat} (hij : i ≠ j) :
    Separate (PageHeader.blockAt p c i, classSize c) (PageHeader.blockAt p c j, classSize c) := by
  unfold Separate PageHeader.blockAt
  dsimp only
  rcases Nat.lt_or_gt_of_ne hij with hlt | hlt
  · have hmul : (i + 1) * classSize c ≤ j * classSize c := Nat.mul_le_mul_right _ hlt
    rw [Nat.succ_mul] at hmul
    omega
  · have hmul : (j + 1) * classSize c ≤ i * classSize c := Nat.mul_le_mul_right _ hlt
    rw [Nat.succ_mul] at hmul
    omega

namespace SmallHeap.Conserves

variable {h : SmallHeap} {out : Multiset Block} {loose mapped : Multiset Nat} {a b : Block}

/-- A block outside the heap is one that its page has carved. -/
theorem placed (hok : h.Conserves out loose mapped) (hb : b ∈ out) :
    ∃ g i, h.pages (pageOf b.addr) = some (.active g) ∧ g.cls = b.cls ∧ i < g.used + g.freeCount ∧
      i < g.capacity ∧ b.addr = PageHeader.blockAt (pageOf b.addr) g.cls i := by
  obtain ⟨g, hp, hcls⟩ := hok.home b hb
  have hbal := hok.page _ g hp
  have hmem : b.addr ∈ (↑g.free + outAt out (pageOf b.addr) : Multiset Nat) :=
    Multiset.mem_add.2 (.inr (mem_outAt.2 ⟨rfl, b.cls, hb⟩))
  rw [hbal.ledger] at hmem
  obtain ⟨i, hi, haddr⟩ := List.mem_map.1 (Multiset.mem_coe.1 hmem)
  rw [List.mem_range] at hi
  exact ⟨g, i, hp, hcls, hi, Nat.lt_of_lt_of_le hi hbal.room, haddr.symm⟩

theorem page_mapped (hok : h.Conserves out loose mapped) {p : Nat} {x : Page}
    (hp : h.pages p = some x) : p ∈ mapped := by
  have hext := hok.extents p
  simp only [hp, Option.isSome_some, if_true] at hext
  exact Multiset.count_pos.1 (by omega)

theorem inside (hok : h.Conserves out loose mapped) (hb : b ∈ out) :
    Inside (b.addr, classSize b.cls) (pageOf b.addr, pageSize) ∧ pageOf b.addr ∈ mapped := by
  obtain ⟨g, i, hp, hcls, -, hi, haddr⟩ := hok.placed hb
  refine ⟨?_, hok.page_mapped hp⟩
  have hin := blockAt_inside (pageOf b.addr) hi
  rwa [← haddr, hcls] at hin

theorem separate (hok : h.Conserves ({a} + ({b} + out)) loose mapped) :
    Separate (a.addr, classSize a.cls) (b.addr, classSize b.cls) := by
  have ha : a ∈ {a} + ({b} + out) := by simp
  have hb : b ∈ {a} + ({b} + out) := by simp
  by_cases hpage : pageOf a.addr = pageOf b.addr
  · obtain ⟨g, i, hp, hcls, -, -, haddr⟩ := hok.placed ha
    obtain ⟨g', j, hp', hcls', -, -, haddr'⟩ := hok.placed hb
    rw [hpage] at hp haddr
    cases hp.symm.trans hp'
    have hnodup := (hok.page _ g hp).nodup
    rw [outAt_add, outAt_add, outAt_singleton, outAt_singleton, if_pos hpage, if_pos rfl,
      Multiset.nodup_add] at hnodup
    have hne : a.addr ≠ b.addr := by
      intro heq
      have hout := hnodup.2.1
      rw [heq, Multiset.singleton_add, Multiset.singleton_add, Multiset.nodup_cons] at hout
      exact hout.1 (Multiset.mem_cons_self _ _)
    have hsep := blockAt_separate (pageOf b.addr) g.cls (i := i) (j := j)
      (by rintro rfl; exact hne (haddr.trans haddr'.symm))
    rw [← haddr, ← haddr'] at hsep
    rwa [← hcls, ← hcls']
  · have hin := (hok.inside ha).1
    have hin' := (hok.inside hb).1
    refine Separate.inside ?_ hin hin'
    simp only [Separate, pageOf, pageSize] at hpage ⊢
    omega

end SmallHeap.Conserves

/-! ### Blocks of one span -/

variable {t : SpanTier}

theorem pairwise_blocksFrom (size start stop : Nat) :
    (SpanTier.blocksFrom size start stop).Pairwise fun a b => a + size ≤ b := by
  refine List.pairwise_map.2 (List.pairwise_lt_range.imp fun {i j} hij => ?_)
  have hmul : (i + 1) * size ≤ j * size := Nat.mul_le_mul_right _ hij
  rw [Nat.succ_mul] at hmul
  omega

theorem pairwise_carve (c : Fin t.num) (base npages : Nat) (whole : Bool) :
    (t.carve c base npages whole).Pairwise fun a b => a + t.blockSize c ≤ b := by
  unfold SpanTier.carve
  dsimp only
  split
  · exact pairwise_blocksFrom _ _ _
  · rw [List.pairwise_flatten]
    refine ⟨fun l hl => ?_, ?_⟩
    · obtain ⟨page, -, rfl⟩ := List.mem_map.1 hl
      exact pairwise_blocksFrom _ _ _
    · refine List.pairwise_map.2 (List.pairwise_lt_range.imp fun {i j} hij a ha b hb => ?_)
      have ha := mem_blocksFrom ha
      have hb := mem_blocksFrom hb
      have hmul : (i + 1) * pageSize ≤ j * pageSize := Nat.mul_le_mul_right _ hij
      rw [Nat.succ_mul] at hmul
      omega

theorem carve_separate {c : Fin t.num} {base npages a b : Nat} {whole : Bool}
    (ha : a ∈ t.carve c base npages whole) (hb : b ∈ t.carve c base npages whole) (hne : a ≠ b) :
    Separate (a, t.blockSize c) (b, t.blockSize c) := by
  have hsymm : Std.Symm fun a b => Separate (a, t.blockSize c) (b, t.blockSize c) :=
    ⟨fun _ _ h => h.symm⟩
  have hpairwise : (t.carve c base npages whole).Pairwise
      fun a b => Separate (a, t.blockSize c) (b, t.blockSize c) :=
    (pairwise_carve c base npages whole).imp fun hlt => .inl hlt
  exact hpairwise.forall ha hb hne

namespace SpanHeap.Conserves

variable {arena : Nat → Nat → Bool} {h : SpanHeap t} {out : Multiset (SpanBlock t)}
  {loose mapped : Multiset (Nat × Nat)} {a b : SpanBlock t}

theorem placed (hok : h.Conserves arena out loose mapped) (hb : b ∈ out) :
    ∃ s m, h.spans s = some (.active m) ∧ m.cls = b.cls ∧
      b.addr ∈ t.carve m.cls s m.npages (arena s (m.npages * pageSize)) ∧
      (s ≤ b.addr ∧ b.addr < s + m.npages * pageSize) ∧ ∀ x, b.home = some x → x = s := by
  obtain ⟨s, m, hs, hcls, hin, hhome⟩ := hok.home b hb
  have hmem : b.addr ∈ (↑m.free + outIn out s m.npages : Multiset Nat) :=
    Multiset.mem_add.2 (.inr (mem_outIn.2 ⟨hin, b, hb, rfl⟩))
  rw [(hok.span s m hs).ledger] at hmem
  exact ⟨s, m, hs, hcls, Multiset.mem_coe.1 hmem, hin, hhome⟩

/-- The span of a block that is out, as an extent. -/
theorem inside (hok : h.Conserves arena out loose mapped) (hb : b ∈ out) :
    ∃ s m, h.spans s = some (.active m) ∧ (s, m.npages) ∈ mapped ∧
      Inside (b.addr, t.blockSize b.cls) (s, m.npages * pageSize) := by
  obtain ⟨s, m, hs, hcls, hmem, -⟩ := hok.placed hb
  have hcarve := mem_carve hmem
  rw [hcls] at hcarve
  exact ⟨s, m, hs, hok.mem_mapped hs, hcarve⟩

theorem separate (hok : h.Conserves arena ({a} + ({b} + out)) loose mapped) :
    Separate (a.addr, t.blockSize a.cls) (b.addr, t.blockSize b.cls) := by
  have ha : a ∈ {a} + ({b} + out) := by simp
  have hb : b ∈ {a} + ({b} + out) := by simp
  obtain ⟨s, m, hs, hcls, hmem, hin, -⟩ := hok.placed ha
  obtain ⟨s', m', hs', hcls', hmem', hin', -⟩ := hok.placed hb
  by_cases hspan : s = s'
  · subst hspan
    cases hs.symm.trans hs'
    have hnodup := (hok.span s m hs).nodup
    rw [outIn_add, outIn_add, outIn_singleton, outIn_singleton, if_pos hin, if_pos hin',
      Multiset.nodup_add] at hnodup
    have hne : a.addr ≠ b.addr := by
      intro heq
      have hout := hnodup.2.1
      rw [heq, Multiset.singleton_add, Multiset.singleton_add, Multiset.nodup_cons] at hout
      exact hout.1 (Multiset.mem_cons_self _ _)
    rw [← hcls, ← hcls']
    exact carve_separate hmem hmem' hne
  · have hcarve := mem_carve hmem
    have hcarve' := mem_carve hmem'
    rw [hcls] at hcarve
    rw [hcls'] at hcarve'
    exact (hok.apart hs hs' hspan).separate.inside hcarve hcarve'

end SpanHeap.Conserves

/-! ### Everything outside -/

namespace World

variable {w : World} {m R : Multiset Token} {x y : Token}

/-- The bytes that a token stands for. -/
def bytes (w : World) : Token → Nat × Nat
  | .block b _ => (b.addr, classSize b.cls)
  | .span t b _ => (b.addr, t.blockSize b.cls)
  | .extent e _ => (e.base, e.len)
  | .region p => ((w.regionAt p).1, (w.regionAt p).2 * pageSize)

/-- The accounts of its use still hold. -/
def Vouched (w : World) (x : Token) : Prop := ∀ t, x.use = .span t → w.Trusted t

/-- Mappings of different uses are different mappings. -/
theorem Good.uses_apart (h : w.Good m) {u v : Purpose} (huv : u ≠ v) {e e' : Nat × Nat}
    (he : e ∈ w.mappedOf u) (he' : e' ∈ w.mappedOf v) : Apart e e' := by
  obtain ⟨a, ha, huse, hbase, hpages⟩ := mem_mappedOf.1 he
  obtain ⟨b, hb, huse', hbase', hpages'⟩ := mem_mappedOf.1 he'
  have hsymm : Std.Symm fun a b : Mapping => a.disjoint b = true :=
    ⟨fun a b h => by simpa [Mapping.disjoint, or_comm] using h⟩
  have hne : a ≠ b := by
    rintro rfl
    exact huv (huse.symm.trans huse')
  have hdis := h.apart.forall ha hb hne
  have hwhole := (h.placed a ha).whole
  have hwhole' := (h.placed b hb).whole
  simp only [Mapping.disjoint, Bool.or_eq_true, decide_eq_true_eq] at hdis
  simp only [Apart, ← hbase, ← hbase', ← hpages, ← hpages', pageSize] at hwhole hwhole' ⊢
  omega

theorem Good.page_seat (h : w.Good m) {p : Nat} (hp : p ∈ (w.mappedOf .small).map Prod.fst) :
    (p, 1) ∈ w.mappedOf .small := by
  obtain ⟨e, he, rfl⟩ := Multiset.mem_map.1 hp
  obtain ⟨a, ha, huse, hbase, hpages⟩ := mem_mappedOf.1 he
  rw [(h.placed a ha).page huse] at hpages
  have hone : e.2 = 1 := hpages.symm
  rwa [← hone]

/-- An extent in hand is mapped, and in no heap. -/
theorem Good.extent_seat {e : Mapping} {z : Bool} (h : w.Good ({.extent e z} + R))
    (hv : w.Vouched (.extent e z)) :
    (e.base, e.len / pageSize) ∈ w.mappedOf e.use ∧ e.len / pageSize * pageSize = e.len := by
  have hwhole := h.whole (.extent e z) (by simp)
  refine ⟨?_, Nat.div_mul_cancel (Nat.dvd_of_mod_eq_zero hwhole.1)⟩
  obtain ⟨base, len, use⟩ := e
  have hloose : looseIn use ({.extent ⟨base, len, use⟩ z} + R)
      = {(base, len / pageSize)} + looseIn use R := by
    rw [looseIn_add, looseIn, filterMap_singleton]
    simp [Token.loose?, Mapping.pages?]
  cases use with
  | small =>
      have hpart := h.part .small
      simp only [Part, hloose, Multiset.map_add, Multiset.map_singleton] at hpart
      have hext := hpart.extents base
      rw [Multiset.count_add, Multiset.count_singleton_self] at hext
      have hpage : len = pageSize := hwhole.2 rfl
      have hlen : len / pageSize = 1 := by
        rw [hpage]
        rfl
      dsimp only
      rw [hlen]
      exact h.page_seat (Multiset.count_pos.1 (by omega))
  | span t =>
      have hpart := h.part (.span t) (hv t rfl)
      rw [hloose] at hpart
      have hext := hpart.extents (base, len / pageSize)
      rw [Multiset.count_add, Multiset.count_singleton_self] at hext
      refine Multiset.count_pos.1 ?_
      rw [← hext]
      exact Nat.lt_of_lt_of_le (Nat.lt_add_right _ Nat.one_pos) (Nat.le_add_left _ _)
  | large =>
      have hext := LargeOk.extents (h.part .large)
      rw [hloose] at hext
      dsimp only
      rw [← hext]
      simp

/-- Whatever is outside lies in a mapping of its use. -/
theorem Good.seat (h : w.Good ({x} + R)) (hv : w.Vouched x) :
    ∃ e ∈ w.mappedOf x.use, Inside (w.bytes x) (e.1, e.2 * pageSize) := by
  cases x with
  | block b z =>
      have hpart := h.part .small
      have hb : b ∈ blocksIn ({.block b z} + R) := by
        rw [blocksIn_add, blocksIn, filterMap_singleton]
        simp [Token.block?]
      obtain ⟨hin, hp⟩ := SmallHeap.Conserves.inside hpart hb
      exact ⟨_, h.page_seat hp, by rwa [Nat.one_mul]⟩
  | span t b z =>
      have hpart := h.part (.span t) (hv t rfl)
      have hb : b ∈ spansIn t ({.span t b z} + R) := by
        rw [spansIn_add, spansIn, filterMap_singleton]
        simp
      obtain ⟨s, M, -, hmapped, hin⟩ := hpart.inside hb
      exact ⟨_, hmapped, hin⟩
  | extent e z =>
      obtain ⟨hmapped, hlen⟩ := h.extent_seat hv
      refine ⟨_, hmapped, ?_⟩
      dsimp only [bytes]
      rw [hlen]
      exact ⟨le_rfl, le_rfl⟩
  | region p =>
      have hp : p ∈ regionsIn ({.region p} + R) := by simp [regionsIn, Token.region?]
      exact ⟨_, h.region_mapped hp, le_rfl, le_rfl⟩

theorem Good.mapped_separate (h : w.Good m) {u : Purpose} {e e' : Nat × Nat} (he : e ∈ w.mappedOf u)
    (he' : e' ∈ w.mappedOf u) (hne : e ≠ e') {a b : Nat × Nat} (ha : Inside a (e.1, e.2 * pageSize))
    (hb : Inside b (e'.1, e'.2 * pageSize)) : Separate a b :=
  (mapped_apart h.placed h.apart he he' hne).separate.inside ha hb

theorem looseIn_extent (base len : Nat) (u : Purpose) (z : Bool) (m : Multiset Token) :
    looseIn u ({.extent ⟨base, len, u⟩ z} + m) = {(base, len / pageSize)} + looseIn u m := by
  rw [looseIn_add, looseIn, filterMap_singleton]
  simp [Token.loose?, Mapping.pages?]

/-- An extent in hand has no byte in common with anything else of its use. -/
theorem Good.extent_separate {e : Mapping} {z : Bool} (h : w.Good ({.extent e z} + ({y} + R)))
    (hv : w.Vouched (.extent e z)) (huse : e.use = y.use) : Separate (e.base, e.len) (w.bytes y) := by
  obtain ⟨hmapped, hlen⟩ := h.extent_seat hv
  obtain ⟨base, len, use⟩ := e
  have hin : Inside (base, len) (base, len / pageSize * pageSize) := by
    rw [hlen]
    exact ⟨le_rfl, le_rfl⟩
  have hy : w.Good ({y} + ({.extent ⟨base, len, use⟩ z} + R)) := by rwa [add_left_comm] at h
  cases y with
  | block b z' =>
      obtain rfl : use = .small := huse
      have hpart := h.part .small
      have hb : b ∈ blocksIn ({.extent ⟨base, len, .small⟩ z} + ({.block b z'} + R)) := by
        simp [blocksIn, Token.block?]
      obtain ⟨hinside, hpage⟩ := SmallHeap.Conserves.inside hpart hb
      obtain ⟨g, -, hp, -⟩ := SmallHeap.Conserves.placed hpart hb
      have hext := SmallHeap.Conserves.extents hpart (pageOf b.addr)
      have hone := Multiset.nodup_iff_count_le_one.1 (SmallHeap.Conserves.distinct hpart) (pageOf b.addr)
      simp only [looseIn_extent, Multiset.map_add, Multiset.map_singleton, Multiset.count_add, hp,
        Option.isSome_some, if_true] at hext
      refine h.mapped_separate hmapped (h.page_seat hpage) (fun he => ?_) hin (by rwa [Nat.one_mul])
      have hbase : base = pageOf b.addr := congrArg Prod.fst he
      rw [hbase, Multiset.count_singleton_self] at hext
      omega
  | span t b z' =>
      obtain rfl : use = .span t := huse
      have hpart := h.part (.span t) (hv t rfl)
      have hb : b ∈ spansIn t ({.extent ⟨base, len, .span t⟩ z} + ({.span t b z'} + R)) := by
        simp [spansIn]
      obtain ⟨s, M, hs, hspan, hinside⟩ := hpart.inside hb
      have hext := hpart.extents (s, M.npages)
      have hone := Multiset.nodup_iff_count_le_one.1 hpart.mapped.distinct (s, M.npages)
      simp only [looseIn_extent, Multiset.count_add, hs, Option.map_some, Span.pages, if_true] at hext
      refine h.mapped_separate hmapped hspan (fun he => ?_) hin hinside
      rw [he, Multiset.count_singleton_self] at hext
      omega
  | extent e' z' =>
      obtain ⟨base', len', use'⟩ := e'
      obtain rfl : use = use' := huse
      obtain ⟨hmapped', hlen'⟩ := hy.extent_seat (fun t ht => hv t ht)
      refine h.mapped_separate hmapped hmapped' (fun he => ?_) hin ?_
      · dsimp only at he
        have hbase : base = base' := congrArg Prod.fst he
        cases use with
        | small =>
            have hpart := h.part .small
            have hext := SmallHeap.Conserves.extents hpart base
            have hone := Multiset.nodup_iff_count_le_one.1 (SmallHeap.Conserves.distinct hpart) base
            simp only [looseIn_extent, Multiset.map_add, Multiset.map_singleton, Multiset.count_add,
              ← hbase, Multiset.count_singleton_self] at hext
            omega
        | span t =>
            have hpart := h.part (.span t) (hv t rfl)
            have hext := hpart.extents (base, len / pageSize)
            have hone := Multiset.nodup_iff_count_le_one.1 hpart.mapped.distinct (base, len / pageSize)
            simp only [looseIn_extent, Multiset.count_add, ← he, Multiset.count_singleton_self] at hext
            omega
        | large =>
            have hext := congrArg (Multiset.count (base, len / pageSize))
              (LargeOk.extents (h.part .large))
            have hone := Multiset.nodup_iff_count_le_one.1
              (Multiset.Nodup.of_map _ (mapped_nodup h.placed h.apart .large)) (base, len / pageSize)
            simp only [looseIn_extent, Multiset.count_add, ← he, Multiset.count_singleton_self] at hext
            omega
      · dsimp only [bytes]
        rw [hlen']
        exact ⟨le_rfl, le_rfl⟩
  | region p =>
      obtain rfl : use = .large := huse
      have hp : p ∈ regionsIn ({.region p} + R) := by simp [regionsIn, Token.region?]
      exact ((h.extent_apart p hp).separate.inside ⟨le_rfl, le_rfl⟩ hin).symm

/-- **Nothing overlaps.** Any two things outside the heaps and shards have no byte in common. -/
theorem Good.separate (h : w.Good ({x} + ({y} + R))) (hx : w.Vouched x) (hy : w.Vouched y) :
    Separate (w.bytes x) (w.bytes y) := by
  have h' : w.Good ({y} + ({x} + R)) := by rwa [add_left_comm] at h
  by_cases huse : x.use = y.use
  · cases x with
    | extent e z => exact h.extent_separate hx huse
    | block b z =>
        cases y with
        | extent e z' => exact (h'.extent_separate hy huse.symm).symm
        | block b' z' =>
            have hpart := h.part .small
            simp only [Part, blocksIn_add] at hpart
            exact SmallHeap.Conserves.separate hpart
        | span t b' z' => cases huse
        | region p => cases huse
    | span t b z =>
        cases y with
        | extent e z' => exact (h'.extent_separate hy huse.symm).symm
        | span t' b' z' =>
            obtain rfl : t = t' := by
              cases huse
              rfl
            have hpart := h.part (.span t) (hx t rfl)
            have hread : ∀ (b : SpanBlock t) z, spansIn t {.span t b z} = {b} := fun b z => by
              simp [spansIn, filterMap_singleton]
            simp only [spansIn_add, hread] at hpart
            exact hpart.separate
        | block b' z' => cases huse
        | region p => cases huse
    | region p =>
        cases y with
        | extent e z' => exact (h'.extent_separate hy huse.symm).symm
        | region q =>
            have hq : q ∈ regionsIn ({.region q} + R) := by simp [regionsIn, Token.region?]
            exact (h.region_apart q hq).separate.symm
        | block b' z' => cases huse
        | span t b' z' => cases huse
  · obtain ⟨e, he, hin⟩ := h.seat hx
    obtain ⟨e', he', hin'⟩ := h'.seat hy
    exact (h.uses_apart huse he he').separate.inside hin hin'

theorem Good.separate_of_le (h : w.Good m) (hle : {x} + {y} ≤ m) (hx : w.Vouched x)
    (hy : w.Vouched y) : Separate (w.bytes x) (w.bytes y) := by
  obtain ⟨R, rfl⟩ := Multiset.le_iff_exists_add.1 hle
  rw [add_assoc] at h
  exact h.separate hx hy

theorem Good.seat_of_mem (h : w.Good m) (hmem : x ∈ m) (hx : w.Vouched x) :
    ∃ e ∈ w.mapped, e.use = x.use ∧ Inside (w.bytes x) (e.base, e.len) := by
  obtain ⟨R, rfl⟩ := Multiset.exists_cons_of_mem hmem
  obtain ⟨e, he, hin⟩ := h.seat hx
  obtain ⟨a, ha, huse, hbase, hpages⟩ := mem_mappedOf.1 he
  refine ⟨a, ha, huse, ?_⟩
  rwa [← hbase, ← hpages, Nat.div_mul_cancel (Nat.dvd_of_mod_eq_zero (h.placed a ha).whole)] at hin

end World

/-! ### Over every run -/

section Runs

variable {ι : Type} [DecidableEq ι] [Fintype ι]

/-- Everything that is live lies in a mapping of its own kind, and has no byte in common with anything else
that is live or in a cache. -/
structure Exclusive (s : Pool ι World Caches Env) : Prop where
  mapped : ∀ x ∈ s.shared.live, s.shared.Vouched x.token →
    ∃ e ∈ s.shared.mapped, e.use = x.token.use ∧ Inside (s.shared.bytes x.token) (e.base, e.len)
  live : s.shared.live.Pairwise fun x y => s.shared.Vouched x.token → s.shared.Vouched y.token →
    Separate (s.shared.bytes x.token) (s.shared.bytes y.token)
  cached : ∀ x ∈ s.shared.live, ∀ t k, ∀ y ∈ (cacheOf s t k).stake, s.shared.Vouched x.token →
    s.shared.Vouched y → Separate (s.shared.bytes x.token) (s.shared.bytes y)
  retired : ∀ x ∈ s.shared.live, ∀ i, ∀ y ∈ (s.shared.retired i).stake, s.shared.Vouched x.token →
    s.shared.Vouched y → Separate (s.shared.bytes x.token) (s.shared.bytes y)

/-- **Memory safety of every run.** With any number of threads and their sections in any order, no two live
blocks overlap, of whatever tier, and none overlaps memory that a cache could hand out. Medium blocks are
included until one is pushed on the active list of a span it is not of. -/
theorem live_blocks_exclusive {arenaStart arenaEnd : Nat} {s : Pool ι World Caches Env}
    (hreach : Reach Op.run (startPool ι arenaStart arenaEnd) s) : Exclusive s := by
  obtain ⟨carried, hgood, -⟩ := run_accounts hreach
  have hlive : (↑(s.shared.live.map Live.token) : Multiset Token) ≤ s.shared.owed :=
    Multiset.le_add_right _ _
  have hmem : ∀ x ∈ s.shared.live, x.token ∈ (↑(s.shared.live.map Live.token) : Multiset Token) :=
    fun x hx => Multiset.mem_coe.2 (List.mem_map_of_mem hx)
  have hpair : ∀ {a b : Token} {m m' : Multiset Token}, a ∈ m → b ∈ m' → {a} + {b} ≤ m + m' :=
    fun ha hb => add_le_add (Multiset.singleton_le.2 ha) (Multiset.singleton_le.2 hb)
  refine ⟨fun x hx hv => ?_, ?_, fun x hx t k y hy => ?_, fun x hx i y hy => ?_⟩
  · exact hgood.seat_of_mem (Multiset.mem_add.2 (.inr (Multiset.mem_of_le hlive (hmem x hx)))) hv
  · refine List.pairwise_iff_forall_sublist.2 fun {x y} hxy => hgood.separate_of_le ?_
    have hpairs : (↑[x.token, y.token] : Multiset Token) ≤ ↑(s.shared.live.map Live.token) :=
      Multiset.coe_le.2 (hxy.map Live.token).subperm
    exact (hpairs.trans hlive).trans (Multiset.le_add_left _ _)
  · refine hgood.separate_of_le ?_
    have hstake : (cacheOf s t k).stake ≤ ∑ t, (∑ k, (cacheOf s t k).stake + carried t) :=
      (Finset.single_le_sum (f := fun k => (cacheOf s t k).stake) (fun _ _ => Multiset.zero_le _)
        (Finset.mem_univ k)).trans ((Multiset.le_add_right _ _).trans
          (Finset.single_le_sum (f := fun t => ∑ k, (cacheOf s t k).stake + carried t)
            (fun _ _ => Multiset.zero_le _) (Finset.mem_univ t)))
    exact (add_comm _ _).le.trans ((hpair hy (hmem x hx)).trans (add_le_add hstake hlive))
  · refine hgood.separate_of_le ((hpair (hmem x hx) hy).trans ?_)
    have hstake : (s.shared.retired i).stake ≤ ∑ i, (s.shared.retired i).stake :=
      Finset.single_le_sum (f := fun i => (s.shared.retired i).stake) (fun _ _ => Multiset.zero_le _)
        (Finset.mem_univ i)
    exact (add_le_add le_rfl hstake).trans (Multiset.le_add_left _ _)

theorem live_blocks_exclusive_two : ∃ s : Pool (Fin 1) World Caches Env,
    (startPool (Fin 1) 1048576 67108864).exec Op.run (largeRun.take 10) = some s ∧
      s.shared.largeLive = [2097200, 1048624] ∧ Exclusive s := by
  obtain ⟨s, hs, hlive⟩ : ∃ s,
      (startPool (Fin 1) 1048576 67108864).exec Op.run (largeRun.take 10) = some s ∧
        s.shared.largeLive = [2097200, 1048624] := ⟨_, rfl, rfl⟩
  exact ⟨s, hs, hlive, live_blocks_exclusive (Pool.exec_reach hs)⟩

end Runs

end Allox
