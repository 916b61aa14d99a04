import Allox.Proof.ColdLists
import Allox.Proof.Conservation

/-!
# Recommit before touch

What is inaccessible lies in cold entries that are recommitted when they are reused, and every cold
entry goes by the report of its own last discard. A section touches only what is mapped and not cold,
and a cold entry that it takes after the recommit.
-/

namespace Allox

open Residency Resumption

namespace World

variable {w w' : World} {m m' R : Multiset Token} {g : Memory Discarded} {p : Purge}

/-! ### Cold entries are mapped, and apart from everything else -/

/-- Mapped extents are apart or the same. -/
theorem Good.apart_or (h : w.Good m) {u v : Purpose} {e e' : Nat × Nat} (he : e ∈ w.mappedOf u)
    (he' : e' ∈ w.mappedOf v) : Apart e e' ∨ u = v ∧ e = e' := by
  by_cases hne : e = e'
  · subst hne
    obtain ⟨x, hx, rfl, hbase, hpages⟩ := mem_mappedOf.1 he
    obtain ⟨y, hy, rfl, hbase', hpages'⟩ := mem_mappedOf.1 he'
    by_cases hxy : x = y
    · exact .inr ⟨congrArg _ hxy, rfl⟩
    · have hsymm : Std.Symm fun a b : Mapping => a.disjoint b = true :=
        ⟨fun a b h => by simpa [Mapping.disjoint, or_comm] using h⟩
      have hdis := h.apart.forall hx hy hxy
      have hpos := (h.placed x hx).pos
      have hpos' := (h.placed y hy).pos
      simp only [Mapping.disjoint, Bool.or_eq_true, decide_eq_true_eq] at hdis
      omega
  · exact .inl (mapped_apart h.placed h.apart he he' hne)

theorem Good.mapped_pages (h : w.Good m) {u : Purpose} {e : Nat × Nat} (he : e ∈ w.mappedOf u) :
    0 < e.2 ∧ (u = .small → e.2 = 1) := by
  obtain ⟨x, hx, rfl, -, hpages⟩ := mem_mappedOf.1 he
  have hp := h.placed x hx
  have hpos := hp.pos
  have hwhole := hp.whole
  refine ⟨?_, fun hs => ?_⟩
  · simp only [pageSize] at hwhole hpages
    omega
  · rw [← hpages, hp.page hs]
    rfl

theorem Good.page_mapped (h : w.Good m) {p : Nat} {x : Page} (hp : w.small.pages p = some x) :
    (p, 1) ∈ w.mappedOf .small := by
  have hext := SmallHeap.Conserves.extents (h.part .small) p
  rw [hp, Option.isSome_some, if_pos rfl] at hext
  obtain ⟨e, he, hbase⟩ := Multiset.mem_map.1
    (Multiset.count_pos.1 (by omega : 0 < ((w.mappedOf .small).map Prod.fst).count p))
  have hone := (h.mapped_pages he).2 rfl
  obtain ⟨b, n⟩ := e
  simp only at hbase hone
  rw [← hbase, ← hone]
  exact he

theorem Good.span_mapped (h : w.Good m) (hsteady : w.strayed = false) {t : SpanTier} {s : Nat}
    {x : Span t} (hs : (w.spans t).spans s = some x) : (s, x.pages) ∈ w.mappedOf (.span t) :=
  SpanHeap.Conserves.mem_mapped (h.part (.span t) fun _ => hsteady) hs

theorem Good.shard_mapped (h : w.Good m) {i : Fin numLargeShards} {e : Nat × Nat}
    (he : e ∈ (w.shards i).regions) : e ∈ w.mappedOf .large := by
  rw [← LargeOk.extents (h.part .large)]
  refine Multiset.mem_add.2 (.inr ?_)
  exact Multiset.mem_sum.2 ⟨i, Finset.mem_univ _, he⟩

theorem Good.cold_mapped (h : w.Good m) (hsteady : w.strayed = false) {e : ColdEntry}
    (he : w.Cold e) : (e.base, e.pages) ∈ w.mappedOf e.purpose := by
  obtain ⟨u, base, pages, recommits, zeroed⟩ := e
  cases u with
  | small =>
      obtain ⟨hone, c, hmem⟩ := he
      have hpage := (SmallHeap.Conserves.cold (h.part .small) c).2 _ hmem
      obtain rfl : pages = 1 := hone
      exact h.page_mapped hpage
  | span t =>
      obtain ⟨-, -, c, hmem⟩ := he
      have hspan := (SpanHeap.Conserves.cold (h.part (.span t) fun _ => hsteady) c).2 _ hmem
      exact h.span_mapped hsteady hspan
  | large =>
      obtain ⟨i, hmem⟩ := he
      exact h.shard_mapped (Multiset.mem_add.2 (.inr (RegionArray.items_regions hmem)))

/-- An extent that is mapped and not cold. -/
structure Warm (w : World) (u : Purpose) (e : Nat × Nat) : Prop where
  mapped : e ∈ w.mappedOf u
  warm : ∀ x, w.Cold x → x.purpose = u → (x.base, x.pages) ≠ e

theorem Good.warm_apart (h : w.Good m) (hsteady : w.strayed = false) {u : Purpose} {e : Nat × Nat}
    (he : w.Warm u e) {x : ColdEntry} (hx : w.Cold x) : Apart (x.base, x.pages) e := by
  rcases h.apart_or (h.cold_mapped hsteady hx) he.mapped with hapart | ⟨hu, hsame⟩
  · exact hapart
  · exact absurd hsame (he.warm x hx hu)

theorem Good.page_warm (h : w.Good m) {p : Nat} {g : PageHeader}
    (hp : w.small.pages p = some (.active g)) : w.Warm .small (p, 1) := by
  refine ⟨h.page_mapped hp, fun x hx hu he => ?_⟩
  obtain ⟨u, base, pages, recommits, zeroed⟩ := x
  obtain rfl : u = .small := hu
  obtain ⟨-, c, hmem⟩ := hx
  have hcold := (SmallHeap.Conserves.cold (h.part .small) c).2 _ hmem
  obtain ⟨rfl, -⟩ := Prod.mk.inj he
  cases hp.symm.trans hcold

theorem Good.span_warm (h : w.Good m) (hsteady : w.strayed = false) {t : SpanTier} {s : Nat}
    {g : SpanMaster t} (hs : (w.spans t).spans s = some (.active g)) :
    w.Warm (.span t) (s, g.npages) := by
  refine ⟨h.span_mapped hsteady hs, fun x hx hu he => ?_⟩
  obtain ⟨u, base, pages, recommits, zeroed⟩ := x
  obtain rfl : u = .span t := hu
  obtain ⟨-, -, c, hmem⟩ := hx
  have hcold := (SpanHeap.Conserves.cold (h.part (.span t) fun _ => hsteady) c).2 _ hmem
  obtain ⟨rfl, -⟩ := Prod.mk.inj he
  cases hs.symm.trans hcold

/-- What is large and in hand is in no shard. -/
theorem Good.large_warm (h : w.Good m) {e : Nat × Nat}
    (he : e ∈ (regionsIn m).map w.regionAt + looseIn .large m) : w.Warm .large e := by
  have hext := LargeOk.extents (h.part .large)
  refine ⟨hext ▸ Multiset.mem_add.2 (.inl he), fun x hx hu hsame => ?_⟩
  obtain ⟨u, base, pages, recommits, zeroed⟩ := x
  obtain rfl : u = .large := hu
  obtain ⟨i, hmem⟩ := hx
  have hnodup := Multiset.Nodup.of_map _ (mapped_nodup h.placed h.apart .large)
  rw [← hext, Multiset.nodup_add] at hnodup
  refine Multiset.disjoint_left.1 hnodup.2.2 he ?_
  refine Multiset.mem_sum.2 ⟨i, Finset.mem_univ _, ?_⟩
  rw [← hsame]
  exact Multiset.mem_add.2 (.inr (RegionArray.items_regions hmem))

/-! ### What is inaccessible -/

/-- The inaccessible addresses lie in entries that will be recommitted, and every entry goes by the
last report from its range. -/
structure Kept (w : World) (g : Memory Discarded) : Prop where
  told : ∀ x, w.Cold x → ∃ d, g.latest x.base = some d ∧ x.Tells d
  gone : ∀ a, g.gone a = true → ∃ x, w.Cold x ∧ x.recommits = true ∧ x.stretch.has a = true

theorem Kept.congr (hk : w.Kept g) (hcold : ∀ x, w'.Cold x ↔ w.Cold x) : w'.Kept g where
  told x hx := hk.told x ((hcold x).1 hx)
  gone a ha := by
    obtain ⟨x, hx, hrest⟩ := hk.gone a ha
    exact ⟨x, (hcold x).2 hx, hrest⟩

theorem Kept.commit (hk : w.Kept g) (s : Stretch) : w.Kept (g.after (.commit s)) where
  told := hk.told
  gone a ha := by
    simp only [Memory.after, Bool.and_eq_true] at ha
    exact hk.gone a ha.1

/-- What is warm is accessible. -/
theorem Kept.clear (hk : w.Kept g) (h : w.Good m) (hsteady : w.strayed = false) {u : Purpose}
    {e : Nat × Nat} (he : w.Warm u e) {s : Stretch} (hlo : e.1 ≤ s.start)
    (hhi : s.start + s.len ≤ e.1 + e.2 * pageSize) : g.Clear s := by
  intro a ha
  by_contra hgone
  obtain ⟨x, hx, -, hin⟩ := hk.gone a (by simpa using hgone)
  have hapart := h.warm_apart hsteady he hx
  rw [Stretch.has_iff] at ha hin
  simp only [ColdEntry.stretch, Apart] at hin hapart
  omega

theorem Kept.base_ne (h : w.Good m) (hsteady : w.strayed = false) {u : Purpose} {e : Nat × Nat}
    (he : w.Warm u e) {x : ColdEntry} (hx : w.Cold x) : x.base ≠ e.1 := by
  have hapart := h.warm_apart hsteady he hx
  have hpos := (h.mapped_pages (h.cold_mapped hsteady hx)).1
  have hpos' := (h.mapped_pages he.mapped).1
  simp only [Apart, pageSize] at hapart hpos
  omega

/-- An entry that leaves the cold lists is recommitted if it must be. -/
def thaw (x : ColdEntry) : List MemEvent := if x.recommits then [.commit x.stretch] else []

theorem Kept.thaw {x : ColdEntry} (hk : w.Kept g) (hsub : ∀ y, w'.Cold y → w.Cold y)
    (hpop : ∀ y, w.Cold y → y = x ∨ w'.Cold y) : w'.Kept (g.run (World.thaw x)) := by
  refine ⟨fun y hy => ?_, fun a ha => ?_⟩
  · obtain ⟨d, hd, htells⟩ := hk.told y (hsub y hy)
    refine ⟨d, ?_, htells⟩
    unfold World.thaw
    split <;> exact hd
  · unfold World.thaw at ha
    split at ha
    · simp only [Memory.run_cons, Memory.run_nil, Memory.after, Bool.and_eq_true,
        Bool.not_eq_true'] at ha
      obtain ⟨y, hy, hrec, hin⟩ := hk.gone a ha.1
      rcases hpop y hy with rfl | hy'
      · rw [ha.2] at hin
        cases hin
      · exact ⟨y, hy', hrec, hin⟩
    · rename_i hx
      obtain ⟨y, hy, hrec, hin⟩ := hk.gone a ha
      rcases hpop y hy with rfl | hy'
      · exact absurd hrec hx
      · exact ⟨y, hy', hrec, hin⟩

/-- An entry that joins the cold lists goes by the report of its discard. -/
theorem Kept.freeze {x : ColdEntry} (hk : w.Kept g) (h : w.Good m) (hsteady : w.strayed = false)
    (hx : w.Warm x.purpose (x.base, x.pages)) (htells : x.Tells p.report)
    (hadd : ∀ y, w'.Cold y ↔ y = x ∨ w.Cold y) :
    w'.Kept (g.after (.drop x.stretch p.report p.gone)) := by
  refine ⟨fun y hy => ?_, fun a ha => ?_⟩
  · rcases (hadd y).1 hy with rfl | hy
    · exact ⟨p.report, Function.update_self _ _ _, htells⟩
    · obtain ⟨d, hd, hy'⟩ := hk.told y hy
      refine ⟨d, ?_, hy'⟩
      exact (Function.update_of_ne (Kept.base_ne h hsteady hx hy) _ _).trans hd
  · simp only [Memory.after, Bool.or_eq_true, Bool.and_eq_true] at ha
    rcases ha with ha | ⟨hgone, hin⟩
    · obtain ⟨y, hy, hrest⟩ := hk.gone a ha
      exact ⟨y, (hadd y).2 (.inr hy), hrest⟩
    · refine ⟨x, (hadd x).2 (.inl rfl), ?_, hin⟩
      obtain ⟨hphysical, hzeroed⟩ := p.honest hgone
      unfold ColdEntry.Tells at htells
      split at htells
      · exact htells.1.trans hphysical
      · exact htells.1
      · rw [htells.1, hphysical, hzeroed]
        rfl

theorem safe_coolEvents {base bytes : Nat} (fate : Fate) :
    g.Safe (coolEvents p base bytes fate) := by
  unfold coolEvents
  split <;> simp [Memory.Allows]

theorem coolEvents_eq_nil {base bytes : Nat} {fate : Fate} (h : ∀ d, fate ≠ .cooled d) :
    coolEvents p base bytes fate = [] := by
  unfold coolEvents
  split
  · rename_i d
    exact absurd rfl (h d)
  · rfl

/-- The discard of a region in hand is made good at once. -/
theorem Kept.handoff {base mapped : Nat} (hk : w.Kept g) (h : w.Good m)
    (hsteady : w.strayed = false) {n : Nat} (hx : w.Warm .large (base, n)) :
    w.Kept (g.run (handoffEvents p base mapped)) := by
  have htold : ∀ y, w.Cold y → ∃ d,
      (Function.update g.latest base (some p.report)) y.base = some d ∧ y.Tells d := by
    intro y hy
    obtain ⟨d, hd, hy'⟩ := hk.told y hy
    exact ⟨d, (Function.update_of_ne (Kept.base_ne h hsteady hx hy) _ _).trans hd, hy'⟩
  unfold handoffEvents
  split
  · refine ⟨htold, fun a ha => ?_⟩
    simp only [Memory.run_cons, Memory.run_nil, Memory.after, Bool.and_eq_true, Bool.or_eq_true,
      Bool.not_eq_true'] at ha
    rcases ha with ⟨ha | ⟨-, hin⟩, hout⟩
    · exact hk.gone a ha
    · rw [hin] at hout
      cases hout
  · rename_i hflag
    refine ⟨htold, fun a ha => ?_⟩
    simp only [Memory.run_cons, Memory.run_nil, Memory.after, Bool.and_eq_true, Bool.or_eq_true]
      at ha
    rcases ha with ha | ⟨hgone, -⟩
    · exact hk.gone a ha
    · obtain ⟨hphysical, hzeroed⟩ := p.honest hgone
      simp [hphysical, hzeroed] at hflag

/-- An extent in hand is not cold. -/
theorem Good.hand_warm {x : Mapping} {z : Bool} (h : w.Good ({.extent x z} + R))
    (hsteady : w.strayed = false) : w.Warm x.use (x.base, x.len / pageSize) := by
  have hmem : (x.base, x.len / pageSize) ∈ w.mappedOf x.use :=
    mem_mappedOf.2 ⟨x, h.mem_mapped fun _ _ _ => hsteady, rfl, rfl, rfl⟩
  have hloose : (x.base, x.len / pageSize) ∈ looseIn x.use ({.extent x z} + R) := by
    rw [looseIn_add, Multiset.mem_add]
    left
    simp [looseIn, filterMap_singleton, Token.loose?, Mapping.pages?]
  by_cases hlarge : x.use = .large
  · rw [hlarge] at hloose ⊢
    exact h.large_warm (Multiset.mem_add.2 (.inr hloose))
  · refine ⟨hmem, fun y hy hu he => ?_⟩
    obtain ⟨u, base, pages, recommits, zeroed⟩ := y
    obtain rfl : u = x.use := hu
    cases huse : x.use with
    | small =>
        rw [huse] at hy hloose
        obtain ⟨-, c, hcold⟩ := hy
        have hpart := h.part .small
        have hpage := (SmallHeap.Conserves.cold hpart c).2 _ hcold
        have hext := SmallHeap.Conserves.extents hpart x.base
        have hle := Multiset.nodup_iff_count_le_one.1 (SmallHeap.Conserves.distinct hpart) x.base
        have hcount := Multiset.count_pos.2 (Multiset.mem_map.2 ⟨_, hloose, rfl⟩ :
          x.base ∈ (looseIn .small ({.extent x z} + R)).map Prod.fst)
        obtain ⟨rfl, -⟩ := Prod.mk.inj he
        rw [hpage, Option.isSome_some, if_pos rfl] at hext
        omega
    | span t =>
        rw [huse] at hy hloose
        obtain ⟨-, -, c, hcold⟩ := hy
        have hpart := h.part (.span t) fun _ => hsteady
        have hspan := (SpanHeap.Conserves.cold hpart c).2 _ hcold
        have hext := SpanHeap.Conserves.extents hpart (x.base, x.len / pageSize)
        have hle := Multiset.nodup_iff_count_le_one.1 (SpanHeap.Conserves.mapped hpart).distinct
          (x.base, x.len / pageSize)
        have hcount := Multiset.count_pos.2 hloose
        obtain ⟨rfl, rfl⟩ := Prod.mk.inj he
        simp only [hspan, Option.map_some, Span.pages, if_true] at hext
        omega
    | large => exact absurd huse hlarge

theorem Kept.clear_hand {x : Mapping} {z : Bool} (hk : w.Kept g)
    (h : w.Good ({.extent x z} + R)) (hsteady : w.strayed = false) :
    g.Clear ⟨x.base, x.len⟩ := by
  have hwhole : x.len / pageSize * pageSize = x.len :=
    Nat.div_mul_cancel (Nat.dvd_of_mod_eq_zero (h.whole (.extent x z) (by simp)).1)
  exact hk.clear h hsteady (h.hand_warm hsteady) le_rfl (by rw [hwhole])

/-! ### Cold entries of one heap -/

theorem cold_small {h' : SmallHeap} (hsame : SmallHeap.SameCold w.small h') (x : ColdEntry) :
    Cold { w with small := h' } x ↔ w.Cold x := by
  obtain ⟨u, base, pages, recommits, zeroed⟩ := x
  cases u with
  | small => simp only [Cold, hsame _]
  | span t => rfl
  | large => rfl

theorem cold_spans {t : SpanTier} {h' : SpanHeap t} (hsame : SpanHeap.SameCold (w.spans t) h')
    (x : ColdEntry) : Cold (w.setSpans t h') x ↔ w.Cold x := by
  obtain ⟨u, base, pages, recommits, zeroed⟩ := x
  cases u with
  | small => rfl
  | span t' =>
      by_cases ht : t' = t
      · subst ht
        simp only [Cold, setSpans, Function.update_self, hsame _]
      · simp only [Cold, setSpans, Function.update_of_ne ht]
  | large => rfl

theorem Kept.clear_thaw {s : Stretch} (hs : g.Clear s) (x : ColdEntry) :
    (g.run (World.thaw x)).Clear s := by
  intro a ha
  unfold World.thaw
  split
  · simp [Memory.after, hs a ha]
  · exact hs a ha

/-! ### The small heap -/

section

variable {c : Fin numClasses}

theorem Kept.clear_page (hk : w.Kept g) (h : w.Good m) (hsteady : w.strayed = false) {q : Nat}
    {a : PageHeader} (hq : w.small.pages q = some (.active a)) : g.Clear ⟨q, pageSize⟩ :=
  hk.clear h hsteady (h.page_warm hq) le_rfl (by simp)

theorem Kept.clear_head (hk : w.Kept g) (h : w.Good m) (hsteady : w.strayed = false)
    (c : Fin numClasses) :
    ∀ s ∈ (w.small.lists c).head.map fun q => (⟨q, pageSize⟩ : Stretch), g.Clear s := by
  intro s hs
  obtain ⟨q, hq, rfl⟩ := List.mem_map.1 hs
  obtain ⟨a, ha, -⟩ := (SmallHeap.Conserves.head (h.part .small) c).2 q hq
  exact hk.clear_page h hsteady ha

theorem Good.gatherSmall {r : SmallHeap × Fill} (h : w.Good R)
    (hfill : ∀ out loose mapped, w.small.Conserves out loose mapped →
      SmallHeap.Filled c out loose mapped r) (z : Bool) :
    Good { w with small := r.1 } (uniform (fun a => .block ⟨c, a⟩) z r.2.chain + R) := by
  have h' : w.Good (0 + R) := by rwa [zero_add]
  refine h'.onSmall .zero (.uniform_block c) (whole_uniform fun _ _ => trivial) ?_
  intro out loose mapped hok
  simp only [blocksIn_uniform, looseIn_uniform_block, Multiset.map_zero, zero_add]
  rw [add_comm]
  refine (hfill _ _ _ ?_).1
  simpa [blocksIn, looseIn] using hok

theorem Kept.emptySmall (hk : w.Kept g) (h : w.Good m) (hsteady : w.strayed = false)
    (c : Fin numClasses) (f : Fill) :
    g.Safe (w.small.emptyEvents c f) ∧ g.run (w.small.emptyEvents c f) = g := by
  unfold SmallHeap.emptyEvents
  split
  · rename_i q rest hcount hempty
    obtain ⟨a, ha, -⟩ := (SmallHeap.Conserves.empty (h.part .small) c).2 q (by simp [hempty])
    exact ⟨⟨hk.clear_page h hsteady ha, Memory.safe_touches (hk.clear_head h hsteady c)⟩,
      Memory.run_touches _⟩
  · exact ⟨trivial, rfl⟩

/-- What is cold after a pop was cold before, and is not the page that was popped. -/
theorem Good.cold_popped (h : w.Good m) {h' : SmallHeap} {x : ColdPage} {rest : List ColdPage}
    (hcold : (w.small.lists c).cold = x :: rest)
    (hlists : ∀ c', (h'.lists c').cold = if c' = c then rest else (w.small.lists c').cold)
    {y : ColdEntry} (hy : Cold { w with small := h' } y) :
    w.Cold y ∧ (y.purpose = .small → (y.base, y.pages) ≠ (x.page, 1)) := by
  have hcons := SmallHeap.Conserves.cold (h.part .small)
  obtain ⟨u, base, pages, recommits, zeroed⟩ := y
  cases u with
  | small =>
      obtain ⟨hone, c', hmem⟩ := hy
      rw [hlists c'] at hmem
      by_cases hc : c' = c
      · subst hc
        rw [if_pos rfl] at hmem
        refine ⟨⟨hone, c', by rw [hcold]; exact List.mem_cons_of_mem _ hmem⟩, fun _ he => ?_⟩
        have hnodup := (hcons c').1
        rw [hcold, List.map_cons, List.nodup_cons] at hnodup
        obtain ⟨rfl, -⟩ := Prod.mk.inj he
        exact hnodup.1 (List.mem_map.2 ⟨_, hmem, rfl⟩)
      · rw [if_neg hc] at hmem
        refine ⟨⟨hone, c', hmem⟩, fun _ he => ?_⟩
        have hpage := (hcons c').2 _ hmem
        have hpage' := (hcons c).2 x (by simp [hcold])
        obtain ⟨rfl, -⟩ := Prod.mk.inj he
        cases hpage.symm.trans hpage'
        exact hc rfl
  | span t => exact ⟨hy, nofun⟩
  | large => exact ⟨hy, nofun⟩

theorem cold_or_popped {h' : SmallHeap} {x : ColdPage} {rest : List ColdPage}
    (hcold : (w.small.lists c).cold = x :: rest)
    (hlists : ∀ c', (h'.lists c').cold = if c' = c then rest else (w.small.lists c').cold)
    {y : ColdEntry} (hy : w.Cold y) :
    y = ⟨.small, x.page, 1, x.decommitted, x.zeroed⟩ ∨ Cold { w with small := h' } y := by
  obtain ⟨u, base, pages, recommits, zeroed⟩ := y
  cases u with
  | small =>
      obtain ⟨hone, c', hmem⟩ := hy
      obtain rfl : pages = 1 := hone
      by_cases hc : c' = c
      · subst hc
        rw [hcold] at hmem
        rcases List.mem_cons.1 hmem with rfl | hmem
        · exact .inl rfl
        · refine .inr ⟨rfl, c', ?_⟩
          rw [hlists c', if_pos rfl]
          exact hmem
      · refine .inr ⟨rfl, c', ?_⟩
        rw [hlists c', if_neg hc]
        exact hmem
  | span t => exact .inr hy
  | large => exact .inr hy

theorem cold_pushed {h' : SmallHeap} {x : ColdPage}
    (hlists : ∀ c', (h'.lists c').cold
      = if c' = c then x :: (w.small.lists c).cold else (w.small.lists c').cold)
    (y : ColdEntry) : Cold { w with small := h' } y ↔
      y = ⟨.small, x.page, 1, x.decommitted, x.zeroed⟩ ∨ w.Cold y := by
  obtain ⟨u, base, pages, recommits, zeroed⟩ := y
  cases u with
  | small =>
      simp only [Cold, hlists, ColdEntry.mk.injEq, true_and]
      constructor
      · rintro ⟨hone, c', hmem⟩
        by_cases hc : c' = c
        · subst hc
          rw [if_pos rfl] at hmem
          rcases List.mem_cons.1 hmem with he | hmem
          · cases he
            exact .inl ⟨rfl, hone, rfl, rfl⟩
          · exact .inr ⟨hone, c', hmem⟩
        · rw [if_neg hc] at hmem
          exact .inr ⟨hone, c', hmem⟩
      · rintro (⟨rfl, rfl, rfl, rfl⟩ | ⟨hone, c', hmem⟩)
        · exact ⟨rfl, c, by simp⟩
        · refine ⟨hone, c', ?_⟩
          split
          · rename_i hc
            exact List.mem_cons_of_mem _ (hc ▸ hmem)
          · exact hmem
  | span t => simp [Cold]
  | large => simp [Cold]

/-- The first cold page is recommitted before it is touched. -/
theorem Kept.coldSmall (hk : w.Kept g) (h : w.Good m) (hsteady : w.strayed = false) {f : Fill}
    {a : ColdSlots} (ha : a.list = (w.small.lists c).cold)
    (h' : Good { w with small := (w.small.takeCold c f).1 } m') :
    g.Safe (w.small.coldEvents c f a) ∧
      Kept { w with small := (w.small.takeCold c f).1 } (g.run (w.small.coldEvents c f a)) := by
  unfold SmallHeap.coldEvents
  by_cases hpop : f.count = 0 ∧ (w.small.lists c).cold ≠ []
  · obtain ⟨hcount, hne⟩ := hpop
    obtain ⟨x, rest, hcold⟩ := List.exists_cons_of_ne_nil hne
    rw [hcold] at ha
    obtain ⟨hlen, hentry, -⟩ := ColdSlots.list_eq_cons ha
    rw [if_pos ⟨hcount, hlen⟩, hentry]
    dsimp only
    have hlists := SmallHeap.takeCold_cold w.small hcount hcold
    have hpage := (SmallHeap.Conserves.cold (h.part .small) c).2 x (by simp [hcold])
    generalize (w.small.takeCold c f).1 = h₁ at *
    let e : ColdEntry := ⟨.small, x.page, 1, x.decommitted, x.zeroed⟩
    have hkept : Kept { w with small := h₁ } (g.run (World.thaw e)) :=
      hk.thaw (fun y hy => (h.cold_popped hcold hlists hy).1)
        fun y hy => cold_or_popped hcold hlists hy
    have hwarm : Warm { w with small := h₁ } .small (x.page, 1) :=
      ⟨h.page_mapped hpage, fun y hy => (h.cold_popped hcold hlists hy).2⟩
    have hclear : (g.run (World.thaw e)).Clear ⟨x.page, pageSize⟩ :=
      hkept.clear h' hsteady hwarm le_rfl (by simp)
    have hhead := hk.clear_head h hsteady c
    have hthaw : (if x.decommitted then [Event.commit ⟨x.page, pageSize⟩] else [])
        = World.thaw e := by
      simp [World.thaw, e, ColdEntry.stretch]
    rw [hthaw, Memory.safe_append, Memory.run_append, Memory.run_cons]
    refine ⟨⟨?_, hclear, ?_⟩, ?_⟩
    · unfold World.thaw
      split <;> simp [Memory.Allows]
    · exact Memory.safe_touches fun s hs => Kept.clear_thaw (hhead s hs) e
    · unfold SmallHeap.listTouches
      rw [Memory.run_touches]
      exact hkept
  · have hnone : ¬(f.count = 0 ∧ a.len ≠ 0) := by
      rintro ⟨hcount, hlen⟩
      refine hpop ⟨hcount, fun hnil => hlen ?_⟩
      rw [hnil] at ha
      exact ColdSlots.list_eq_nil ha
    rw [if_neg hnone, SmallHeap.takeCold_same _ hpop]
    exact ⟨trivial, hk⟩

theorem Kept.takeSmall (hk : w.Kept g) (h : w.Good R) (hsteady : w.strayed = false)
    {a : ColdSlots} (ha : a.list = (w.small.lists c).cold) :
    g.Safe (w.small.takeEvents c a) ∧
      Kept { w with small := (w.small.takeLocked c).1 } (g.run (w.small.takeEvents c a)) := by
  have hdone := (h.takeSmall c false).1
  have hfilled : ∀ out loose mapped, w.small.Conserves out loose mapped →
      SmallHeap.Filled c out loose mapped
        (w.small.fillFromList c { chain := [], count := 0, virgin := true }) :=
    fun _ _ _ hok => SmallHeap.fillFromList_filled (hok.filled rfl rfl)
  have hcold := SmallHeap.SameCold.fillFromList (c := c) (.refl w.small)
    { chain := [], count := 0, virgin := true }
  have hlist := Memory.safe_touches (hk.clear_head h hsteady c)
  unfold SmallHeap.takeEvents
  unfold SmallHeap.takeLocked at hdone ⊢
  generalize w.small.fillFromList c { chain := [], count := 0, virgin := true } = r at *
  have hkept : Kept { w with small := r.1 } g := hk.congr (cold_small hcold)
  have hgood := h.gatherSmall hfilled false
  have hempty := hkept.emptySmall hgood hsteady c r.2
  have hcold' := SmallHeap.SameCold.takeEmpty (c := c) hcold r.2
  have hfilled' : ∀ out loose mapped, w.small.Conserves out loose mapped →
      SmallHeap.Filled c out loose mapped (r.1.takeEmpty c r.2) :=
    fun _ _ _ hok => SmallHeap.takeEmpty_filled (hfilled _ _ _ hok)
  dsimp only at hdone hempty ⊢
  generalize r.1.takeEmpty c r.2 = r' at *
  have hkept' : Kept { w with small := r'.1 } g := hk.congr (cold_small hcold')
  have hgood' := h.gatherSmall hfilled' false
  obtain ⟨hsafe, hafter⟩ := hkept'.coldSmall hgood' hsteady (ha.trans (hcold' c).symm) hdone
  unfold SmallHeap.listTouches at *
  simp only [Memory.safe_append, Memory.run_append, Memory.run_touches, hempty.2]
  exact ⟨⟨⟨hlist, hempty.1⟩, hsafe⟩, hafter⟩

theorem blocksIn_chunk (c : Fin numClasses) (x : PageReleaseChunk) :
    blocksIn (blockTokens (SmallHeap.chunkBlocks c [x])) = blocksOf c x.chain := by
  simp [SmallHeap.chunkBlocks]

theorem Kept.release {x : PageReleaseChunk} {r : SmallHeap × Fate} (hk : w.Kept g)
    (h : w.Good (blockTokens (SmallHeap.chunkBlocks c [x]) + R)) (hsteady : w.strayed = false)
    (hx : SmallHeap.Chunk c x) (hr : w.small.Cools c p.report x.page r) :
    g.Safe (w.small.releaseEvents c p x.page r.2) ∧
      Kept { w with small := r.1 } (g.run (w.small.releaseEvents c p x.page r.2)) := by
  obtain ⟨a, ha, -⟩ := h.chunk_page (blocksIn_chunk c x) hx
  have hclear := hk.clear_page h hsteady ha
  have hhead := Memory.safe_touches (hk.clear_head h hsteady c)
  unfold SmallHeap.releaseEvents
  rw [Memory.safe_append, Memory.run_append, Memory.run_cons]
  unfold SmallHeap.listTouches
  rw [Memory.run_touches]
  refine ⟨⟨⟨hclear, hhead⟩, safe_coolEvents _⟩, ?_⟩
  rcases hr with ⟨hfate, hlists⟩ | ⟨hfate, hsame⟩
  · rw [hfate]
    have hfrozen := hk.freeze (x := ⟨.small, x.page, 1, p.report.physical, p.report.zeroed⟩)
      h hsteady (h.page_warm ha) ⟨rfl, rfl⟩ (cold_pushed hlists)
    rw [ColdEntry.stretch, Nat.one_mul] at hfrozen
    exact hfrozen
  · rw [coolEvents_eq_nil hfate]
    exact hk.congr (cold_small hsame)

theorem Kept.takeMapped {raw : Nat} {z virgin : Bool} (hk : w.Kept g)
    (h : w.Good ({.extent ⟨raw, pageSize, .small⟩ z} + R)) (hsteady : w.strayed = false) :
    g.Safe (w.small.mappedEvents c raw) ∧
      Kept { w with small :=
        (w.small.takeMapped c raw { chain := [], count := 0, virgin }).1 }
        (g.run (w.small.mappedEvents c raw)) := by
  have hhead := Memory.safe_touches (hk.clear_head h hsteady c)
  have hraw : g.Clear ⟨raw, pageSize⟩ := hk.clear_hand h hsteady
  unfold SmallHeap.mappedEvents
  refine ⟨⟨hraw, hhead⟩, ?_⟩
  unfold SmallHeap.listTouches
  rw [Memory.run_cons, Memory.run_touches]
  exact hk.congr (cold_small (SmallHeap.takeMapped_same _ _ _ _))

end

/-! ### The span heaps -/

section

variable {t : SpanTier} {c : Fin t.num}

theorem spans_setSpans (h' : SpanHeap t) : (w.setSpans t h').spans t = h' :=
  Function.update_self _ _ _

theorem Kept.clear_span (hk : w.Kept g) (h : w.Good m) (hsteady : w.strayed = false) {s : Nat}
    {a : SpanMaster t} (hs : (w.spans t).spans s = some (.active a)) :
    g.Clear ⟨s, ((w.spans t).master s).mappedBytes⟩ := by
  rw [SpanHeap.master_eq hs]
  exact hk.clear h hsteady (h.span_warm hsteady hs) le_rfl le_rfl

theorem Kept.clear_spans (hk : w.Kept g) (h : w.Good m) (hsteady : w.strayed = false)
    (c : Fin t.num) :
    ∀ s ∈ ((w.spans t).lists c).head.map fun q =>
      (⟨q, ((w.spans t).master q).mappedBytes⟩ : Stretch), g.Clear s := by
  intro s hs
  obtain ⟨q, hq, rfl⟩ := List.mem_map.1 hs
  obtain ⟨a, ha, -⟩ := (SpanHeap.Conserves.head (h.part (.span t) fun _ => hsteady) c).2 q hq
  exact hk.clear_span h hsteady ha

theorem Good.gatherSpans {r : SpanHeap t × Fill} (h : w.Good R)
    (hfill : ∀ out loose mapped, (w.spans t).Conserves w.arena out loose mapped →
      SpanHeap.Filled w.arena c out loose mapped r) (z : Bool) :
    Good (w.setSpans t r.1) (uniform (fun a => .span t ⟨c, a, none⟩) z r.2.chain + R) := by
  have h' : w.Good (0 + R) := by rwa [zero_add]
  refine h'.onSpans .zero (.uniform_span c none) (whole_uniform fun _ _ => trivial) ?_
  intro _ out loose mapped hok
  simp only [spansIn_uniform, looseIn_uniform_span, zero_add]
  rw [add_comm]
  refine (hfill _ _ _ ?_).1
  simpa [spansIn, looseIn] using hok

theorem Kept.emptySpans (hk : w.Kept g) (h : w.Good m) (hsteady : w.strayed = false)
    (c : Fin t.num) (f : Fill) :
    g.Safe ((w.spans t).emptyEvents c f) ∧ g.run ((w.spans t).emptyEvents c f) = g := by
  unfold SpanHeap.emptyEvents
  split
  · rename_i s rest hcount hempty
    obtain ⟨a, ha, -⟩ :=
      (SpanHeap.Conserves.empty (h.part (.span t) fun _ => hsteady) c).2 s (by simp [hempty])
    exact ⟨⟨hk.clear_span h hsteady ha, Memory.safe_touches (hk.clear_spans h hsteady c)⟩,
      Memory.run_touches _⟩
  · exact ⟨trivial, rfl⟩

theorem cold_poppedSpan {h' : SpanHeap t}
    {x : Nat × Nat} {rest : List (Nat × Nat)} (hcold : ((w.spans t).lists c).cold = x :: rest)
    (hlists : ∀ c', (h'.lists c').cold = if c' = c then rest else ((w.spans t).lists c').cold)
    {y : ColdEntry} (hy : (w.setSpans t h').Cold y) : w.Cold y := by
  obtain ⟨u, base, pages, recommits, zeroed⟩ := y
  cases u with
  | small => exact hy
  | span t' =>
      by_cases ht : t' = t
      · subst ht
        simp only [Cold, setSpans, Function.update_self, hlists] at hy
        obtain ⟨hrec, hzero, c', hmem⟩ := hy
        refine ⟨hrec, hzero, c', ?_⟩
        by_cases hc : c' = c
        · subst hc
          rw [if_pos rfl] at hmem
          rw [hcold]
          exact List.mem_cons_of_mem _ hmem
        · rwa [if_neg hc] at hmem
      · simpa only [Cold, setSpans, Function.update_of_ne ht] using hy
  | large => exact hy

theorem cold_or_poppedSpan {h' : SpanHeap t} {x : Nat × Nat} {rest : List (Nat × Nat)}
    (hcold : ((w.spans t).lists c).cold = x :: rest)
    (hlists : ∀ c', (h'.lists c').cold = if c' = c then rest else ((w.spans t).lists c').cold)
    {y : ColdEntry} (hy : w.Cold y) :
    y = ⟨.span t, x.1, x.2, true, false⟩ ∨ (w.setSpans t h').Cold y := by
  obtain ⟨u, base, pages, recommits, zeroed⟩ := y
  cases u with
  | small => exact .inr hy
  | span t' =>
      by_cases ht : t' = t
      · subst ht
        obtain ⟨hrec, hzero, c', hmem⟩ := hy
        obtain rfl : recommits = true := hrec
        obtain rfl : zeroed = false := hzero
        by_cases hc : c' = c
        · subst hc
          rw [hcold] at hmem
          rcases List.mem_cons.1 hmem with rfl | hmem
          · exact .inl rfl
          · refine .inr ⟨rfl, rfl, c', ?_⟩
            rw [spans_setSpans, hlists c', if_pos rfl]
            exact hmem
        · refine .inr ⟨rfl, rfl, c', ?_⟩
          rw [spans_setSpans, hlists c', if_neg hc]
          exact hmem
      · right
        simpa only [Cold, setSpans, Function.update_of_ne ht] using hy
  | large => exact .inr hy

theorem cold_pushedSpan {h' : SpanHeap t} {x : Nat × Nat}
    (hlists : ∀ c', (h'.lists c').cold
      = if c' = c then x :: ((w.spans t).lists c).cold else ((w.spans t).lists c').cold)
    (y : ColdEntry) : (w.setSpans t h').Cold y ↔
      y = ⟨.span t, x.1, x.2, true, false⟩ ∨ w.Cold y := by
  obtain ⟨u, base, pages, recommits, zeroed⟩ := y
  cases u with
  | small => simp [Cold, setSpans]
  | span t' =>
      by_cases ht : t' = t
      · subst ht
        simp only [Cold, setSpans, Function.update_self, hlists, ColdEntry.mk.injEq, true_and]
        constructor
        · rintro ⟨hrec, hzero, c', hmem⟩
          by_cases hc : c' = c
          · subst hc
            rw [if_pos rfl] at hmem
            rcases List.mem_cons.1 hmem with he | hmem
            · cases he
              exact .inl ⟨rfl, rfl, hrec, hzero⟩
            · exact .inr ⟨hrec, hzero, c', hmem⟩
          · rw [if_neg hc] at hmem
            exact .inr ⟨hrec, hzero, c', hmem⟩
        · rintro (⟨rfl, rfl, rfl, rfl⟩ | ⟨hrec, hzero, c', hmem⟩)
          · exact ⟨rfl, rfl, c, by simp⟩
          · refine ⟨hrec, hzero, c', ?_⟩
            split
            · rename_i hc
              exact List.mem_cons_of_mem _ (hc ▸ hmem)
            · exact hmem
      · simp [Cold, setSpans, ht]
  | large => simp [Cold, setSpans]

theorem Kept.coldSpans (hk : w.Kept g) (h : w.Good m) (hsteady : w.strayed = false) {f : Fill} :
    g.Safe ((w.spans t).coldEvents c f) ∧
      Kept (w.setSpans t ((w.spans t).takeCold w.arena c f).1)
        (g.run ((w.spans t).coldEvents c f)) := by
  unfold SpanHeap.coldEvents
  split
  · rename_i base pages rest hcount hcold
    have hlists := SpanHeap.takeCold_cold w.arena (w.spans t) hcount hcold
    let e : ColdEntry := ⟨.span t, base, pages, true, false⟩
    have hkept : Kept (w.setSpans t ((w.spans t).takeCold w.arena c f).1)
        (g.run (World.thaw e)) :=
      hk.thaw (fun y hy => cold_poppedSpan hcold hlists hy)
        fun y hy => cold_or_poppedSpan hcold hlists hy
    have hhead := hk.clear_spans h hsteady c
    refine ⟨⟨trivial, Memory.clear_commit, ?_⟩, ?_⟩
    · exact Memory.safe_touches fun s hs => Kept.clear_thaw (hhead s hs) e
    · unfold SpanHeap.listTouches
      rw [Memory.run_cons, Memory.run_cons, Memory.run_touches]
      exact hkept
  · rename_i hnone
    have hsame : (w.spans t).takeCold w.arena c f = (w.spans t, f) := by
      refine SpanHeap.takeCold_same w.arena (w.spans t) fun hcold => ?_
      obtain ⟨x, rest, hx⟩ := List.exists_cons_of_ne_nil hcold.2
      exact hnone x.1 x.2 rest hcold.1 hx
    rw [hsame, setSpans_self]
    exact ⟨trivial, hk⟩

theorem Kept.takeSpans (hk : w.Kept g) (h : w.Good R) (hsteady : w.strayed = false)
    (c : Fin t.num) :
    g.Safe ((w.spans t).takeEvents c) ∧
      Kept (w.setSpans t ((w.spans t).takeLocked w.arena c).1)
        (g.run ((w.spans t).takeEvents c)) := by
  have hfilled : ∀ out loose mapped, (w.spans t).Conserves w.arena out loose mapped →
      SpanHeap.Filled w.arena c out loose mapped
        ((w.spans t).fillFromList c { chain := [], count := 0, virgin := true }) :=
    fun _ _ _ hok => SpanHeap.fillFromList_filled (hok.filled rfl rfl)
  have hcold := SpanHeap.SameCold.fillFromList (c := c) (.refl (w.spans t))
    { chain := [], count := 0, virgin := true }
  have hlist := Memory.safe_touches (hk.clear_spans h hsteady c)
  unfold SpanHeap.takeEvents
  unfold SpanHeap.takeLocked
  generalize (w.spans t).fillFromList c { chain := [], count := 0, virgin := true } = r at *
  have htwice : ∀ h' h'' : SpanHeap t, (w.setSpans t h').setSpans t h'' = w.setSpans t h'' := by
    intro h' h''
    simp only [setSpans, Function.update_idem]
  have hkept : Kept (w.setSpans t r.1) g := hk.congr (cold_spans hcold)
  have hgood := h.gatherSpans hfilled false
  have hempty := hkept.emptySpans hgood hsteady c r.2
  rw [spans_setSpans] at hempty
  have hcold' := SpanHeap.SameCold.takeEmpty (c := c) hcold r.2
  have hfilled' : ∀ out loose mapped, (w.spans t).Conserves w.arena out loose mapped →
      SpanHeap.Filled w.arena c out loose mapped (r.1.takeEmpty c r.2) :=
    fun _ _ _ hok => SpanHeap.takeEmpty_filled (hfilled _ _ _ hok)
  dsimp only
  generalize r.1.takeEmpty c r.2 = r' at *
  have hkept' : Kept (w.setSpans t r'.1) g := hk.congr (cold_spans hcold')
  have hgood' := h.gatherSpans hfilled' false
  have hworld : (w.setSpans t r'.1).setSpans t
      (((w.setSpans t r'.1).spans t).takeCold (w.setSpans t r'.1).arena c r'.2).1
        = w.setSpans t (r'.1.takeCold w.arena c r'.2).1 := by
    rw [spans_setSpans, htwice]
    rfl
  obtain ⟨hsafe, hafter⟩ := hkept'.coldSpans (c := c) hgood' hsteady
  rw [spans_setSpans] at hsafe
  rw [hworld, spans_setSpans] at hafter
  unfold SpanHeap.listTouches at *
  simp only [Memory.safe_append, Memory.run_append, Memory.run_touches, hempty.2]
  exact ⟨⟨⟨hlist, hempty.1⟩, hsafe⟩, hafter⟩

theorem Kept.releaseSpan {x : ReleaseChunk} (hk : w.Kept g)
    (h : w.Good (spanTokens t (SpanHeap.chunkBlocks c x) + R)) (hsteady : w.strayed = false)
    (hx : SpanHeap.Chunk x) :
    let cls := if t = .big then ((w.spans t).master x.span).cls else c
    g.Safe ((w.spans t).releaseEvents cls w.arena p x) ∧
      Kept (w.setSpans t ((w.spans t).releaseInner w.arena cls p.report x).1)
        (g.run ((w.spans t).releaseEvents cls w.arena p x)) := by
  intro cls
  have hpart := h.part (.span t) fun _ => hsteady
  simp only [spansIn_add, spansIn_spanTokens] at hpart
  rw [add_comm (SpanHeap.chunkBlocks c x)] at hpart
  obtain ⟨a, ha, -⟩ := hpart.chunk_span hx
  have hclear := hk.clear_span h hsteady ha
  have hhead := Memory.safe_touches (hk.clear_spans h hsteady cls)
  unfold SpanHeap.releaseEvents
  rw [Memory.safe_append, Memory.run_append, Memory.run_cons]
  unfold SpanHeap.listTouches
  rw [Memory.run_touches]
  refine ⟨⟨⟨hclear, hhead⟩, safe_coolEvents _⟩, ?_⟩
  rcases SpanHeap.releaseInner_cold w.arena cls ha p.report with ⟨hfate, hlists⟩ | ⟨hfate, hsame⟩
  · rw [hfate, SpanHeap.master_eq ha]
    exact hk.freeze (x := ⟨.span t, x.span, a.npages, true, false⟩) h hsteady
      (h.span_warm hsteady ha) ⟨rfl, rfl⟩ (cold_pushedSpan hlists)
  · rw [coolEvents_eq_nil hfate]
    exact hk.congr (cold_spans hsame)

theorem Kept.takeMappedSpans {raw : Nat} {z virgin : Bool} (hk : w.Kept g)
    (h : w.Good ({.extent ⟨raw, t.spanPages c * pageSize, .span t⟩ z} + R))
    (hsteady : w.strayed = false) :
    g.Safe ((w.spans t).mappedEvents c raw) ∧
      Kept (w.setSpans t (((w.spans t).carveMapped w.arena c raw).takeMapped c raw
        { chain := [], count := 0, virgin }).1) (g.run ((w.spans t).mappedEvents c raw)) := by
  have hhead := Memory.safe_touches (hk.clear_spans h hsteady c)
  have hraw : g.Clear ⟨raw, t.spanPages c * pageSize⟩ := hk.clear_hand h hsteady
  unfold SpanHeap.mappedEvents
  refine ⟨⟨hraw, hhead⟩, ?_⟩
  unfold SpanHeap.listTouches
  rw [Memory.run_cons, Memory.run_touches]
  refine hk.congr (cold_spans ?_)
  refine SpanHeap.SameCold.fillFromList (.linkPartial ?_ _ _) _
  exact fun _ => rfl

end

/-! ### The shards -/

theorem cold_congr (hsmall : w'.small = w.small) (hspans : w'.spans = w.spans)
    (hshards : w'.shards = w.shards) (x : ColdEntry) : w'.Cold x ↔ w.Cold x := by
  simp only [Cold, hsmall, hspans, hshards]

/-- Cold entries other than regions of shard `i` do not see that shard. -/
theorem cold_shard {i : Fin numLargeShards} {s : LargeRegionCache}
    {base pages : Nat} {recommits zeroed : Bool} {u : Purpose} :
    Cold { w with shards := Function.update w.shards i s } ⟨u, base, pages, recommits, zeroed⟩ ↔
      w.Cold ⟨u, base, pages, recommits, zeroed⟩ ∧
          (u = .large → ∃ j, j ≠ i ∧ ⟨base, pages, zeroed, recommits⟩ ∈ (w.shards j).cold.items) ∨
        u = .large ∧ ⟨base, pages, zeroed, recommits⟩ ∈ s.cold.items := by
  cases u with
  | small => simp [Cold]
  | span t => simp [Cold]
  | large =>
      simp only [Cold, true_and, forall_const]
      constructor
      · rintro ⟨j, hj⟩
        by_cases hji : j = i
        · subst hji
          rw [Function.update_self] at hj
          exact .inr hj
        · rw [Function.update_of_ne hji] at hj
          exact .inl ⟨⟨j, hj⟩, j, hji, hj⟩
      · rintro (⟨-, j, hji, hj⟩ | hs)
        · exact ⟨j, by rwa [Function.update_of_ne hji]⟩
        · exact ⟨i, by rwa [Function.update_self]⟩

theorem cold_shard_same {i : Fin numLargeShards} {s : LargeRegionCache}
    (hsame : s.cold.items = (w.shards i).cold.items) (x : ColdEntry) :
    Cold { w with shards := Function.update w.shards i s } x ↔ w.Cold x := by
  obtain ⟨u, base, pages, recommits, zeroed⟩ := x
  cases u with
  | small => rfl
  | span t => rfl
  | large =>
      have hitems : ∀ j, (Function.update w.shards i s j).cold.items = (w.shards j).cold.items := by
        intro j
        by_cases hj : j = i
        · subst hj
          rw [Function.update_self, hsame]
        · rw [Function.update_of_ne hj]
      simp only [Cold, hitems]

theorem Kept.takeFit (hk : w.Kept g) (i : Fin numLargeShards) (mapped : Nat) :
    g.Safe (fitEvents ((w.shards i).takeFit mapped).2) ∧
      Kept { w with shards := Function.update w.shards i ((w.shards i).takeFit mapped).1 }
        (g.run (fitEvents ((w.shards i).takeFit mapped).2)) := by
  have hsafe : ∀ taken, g.Safe (fitEvents taken) := by
    intro taken
    unfold fitEvents
    split
    · split <;> simp [Memory.Allows]
    · trivial
  refine ⟨hsafe _, ?_⟩
  rcases (w.shards i).takeFit_cold mapped with ⟨x, htaken, hitems⟩ | hsame
  · rw [htaken]
    refine hk.thaw (x := ⟨.large, x.base, x.pages, x.decommitted, x.zeroed⟩) ?_ ?_
    · rintro ⟨u, base, pages, recommits, zeroed⟩ hy
      rcases cold_shard.1 hy with ⟨hold, -⟩ | ⟨rfl, hleft⟩
      · exact hold
      · exact ⟨i, by rw [hitems]; exact Multiset.mem_add.2 (.inr hleft)⟩
    · rintro ⟨u, base, pages, recommits, zeroed⟩ hy
      by_cases hu : u = .large
      · subst hu
        obtain ⟨j, hj⟩ := hy
        by_cases hji : j = i
        · subst hji
          rw [hitems] at hj
          rcases Multiset.mem_add.1 hj with hj | hj
          · left
            cases Multiset.mem_singleton.1 hj
            rfl
          · exact .inr (cold_shard.2 (.inr ⟨rfl, hj⟩))
        · exact .inr (cold_shard.2 (.inl ⟨⟨j, hj⟩, fun _ => ⟨j, hji, hj⟩⟩))
      · exact .inr (cold_shard.2 (.inl ⟨hy, fun hu' => absurd hu' hu⟩))
  · have hkept := hk.congr (cold_shard_same (i := i) hsame)
    unfold fitEvents
    split
    · split
      · exact hkept.commit _
      · exact hkept
    · exact hkept

theorem Kept.park {base pages : Nat} {z : Bool} (hk : w.Kept g)
    (h : w.Good ({.extent ⟨base, pages * pageSize, .large⟩ z} + R)) (hsteady : w.strayed = false)
    (i : Fin numLargeShards) :
    let r := (w.shards i).park p.report base pages (pages * pageSize)
    g.Safe (coolEvents p base (pages * pageSize) r.2) ∧
      Kept { w with shards := Function.update w.shards i r.1 }
        (g.run (coolEvents p base (pages * pageSize) r.2)) := by
  intro r
  have hwarm := h.hand_warm hsteady
  have hpages : pages * pageSize / pageSize = pages := Nat.mul_div_cancel _ (by decide)
  rw [hpages] at hwarm
  refine ⟨safe_coolEvents _, ?_⟩
  · rcases (w.shards i).park_cold p.report base pages (pages * pageSize)
      with ⟨hfate, hitems⟩ | ⟨hfate, hsame⟩
    · have hr : r.2 = .cooled p.report := hfate
      rw [hr]
      refine hk.freeze
        (x := ⟨.large, base, pages, p.report.physical && !p.report.zeroed, p.report.zeroed⟩)
        h hsteady hwarm ⟨rfl, rfl⟩ ?_
      rintro ⟨u, base', pages', recommits, zeroed⟩
      rw [cold_shard]
      constructor
      · rintro (⟨hy, -⟩ | ⟨rfl, hy⟩)
        · exact .inr hy
        · rw [hitems] at hy
          rcases Multiset.mem_add.1 hy with hy | hy
          · left
            cases Multiset.mem_singleton.1 hy
            rfl
          · exact .inr ⟨i, hy⟩
      · rintro (he | hy)
        · cases he
          exact .inr ⟨rfl, by rw [hitems]; simp⟩
        · by_cases hu : u = .large
          · subst hu
            obtain ⟨j, hj⟩ := hy
            by_cases hji : j = i
            · subst hji
              exact .inr ⟨rfl, by rw [hitems]; exact Multiset.mem_add.2 (.inr hj)⟩
            · exact .inl ⟨⟨j, hj⟩, fun _ => ⟨j, hji, hj⟩⟩
          · exact .inl ⟨hy, fun hu' => absurd hu' hu⟩
    · have hnone : coolEvents p base (pages * pageSize) r.2 = [] := coolEvents_eq_nil hfate
      rw [hnone]
      exact hk.congr (cold_shard_same hsame)

theorem registerRegion_cold (w : World) (hdr base mapped requested : Nat) (x : ColdEntry) :
    (w.registerRegion hdr base mapped requested).Cold x ↔ w.Cold x := by
  unfold registerRegion
  dsimp only
  split <;> exact cold_congr rfl rfl rfl x

theorem unregisterRegion_cold (w : World) (hdr base mapped : Nat) (x : ColdEntry) :
    (w.unregisterRegion hdr base mapped).Cold x ↔ w.Cold x := by
  unfold unregisterRegion
  split <;> exact cold_congr rfl rfl rfl x

theorem registerRegion_small (w : World) (hdr base mapped requested : Nat) :
    (w.registerRegion hdr base mapped requested).small = w.small := by
  unfold registerRegion
  dsimp only
  split <;> rfl

theorem unregisterRegion_small (w : World) (hdr base mapped : Nat) :
    (w.unregisterRegion hdr base mapped).small = w.small := by
  unfold unregisterRegion
  split <;> rfl

theorem registerRegion_strayed (w : World) (hdr base mapped requested : Nat) :
    (w.registerRegion hdr base mapped requested).strayed = w.strayed := by
  unfold registerRegion
  dsimp only
  split <;> rfl

theorem unregisterRegion_strayed (w : World) (hdr base mapped : Nat) :
    (w.unregisterRegion hdr base mapped).strayed = w.strayed := by
  unfold unregisterRegion
  split <;> rfl

/-- What a region is said to read as does not matter to the accounts. -/
theorem Good.reflag {base mapped : Nat} {z : Bool}
    (h : w.Good ({.extent ⟨base, mapped, .large⟩ z} + R)) (z' : Bool) :
    w.Good ({.extent ⟨base, mapped, .large⟩ z'} + R) := by
  have hdone : Good { w with shards := w.shards } ({.extent ⟨base, mapped, .large⟩ z'} + R) := by
    refine h.onShards (.singleton rfl) (.singleton rfl) ?_ ?_ ?_
    · intro x hx
      rw [Multiset.mem_singleton.1 hx]
      exact h.whole (.extent ⟨base, mapped, .large⟩ z) (by simp)
    · simp [regionsIn, filterMap_singleton, Token.region?]
    · simp [looseIn, filterMap_singleton, Token.loose?]
  exact hdone

/-! ### The start -/

theorem init_cold {arenaStart arenaEnd : Nat} (x : ColdEntry) :
    ¬(World.init arenaStart arenaEnd).Cold x := by
  obtain ⟨u, base, pages, recommits, zeroed⟩ := x
  cases u with
  | small =>
      rintro ⟨-, c, hmem⟩
      cases hmem
  | span t =>
      rintro ⟨-, -, c, hmem⟩
      cases hmem
  | large =>
      rintro ⟨i, hmem⟩
      exact absurd hmem (Multiset.notMem_zero _)

/-! ### What threads hold -/

theorem Kept.clear_region {q : Nat} (hk : w.Kept g) (h : w.Good ({.region q} + R))
    (hsteady : w.strayed = false) :
    g.Clear ⟨(w.regionAt q).1, (w.regionAt q).2 * pageSize⟩ := by
  refine hk.clear h hsteady (u := .large) (e := w.regionAt q) (h.large_warm ?_) le_rfl le_rfl
  refine Multiset.mem_add.2 (.inl (Multiset.mem_map_of_mem _ ?_))
  rw [regionsIn_region]
  simp

theorem Kept.clear_block {b : Block} {z : Bool} (hk : w.Kept g) (h : w.Good ({.block b z} + R))
    (hsteady : w.strayed = false) : g.Clear ⟨b.addr, classSize b.cls⟩ := by
  have hpart := h.part .small
  have hmem : b ∈ blocksIn ({.block b z} + R) := by
    rw [blocksIn_add, Multiset.mem_add]
    left
    simp [blocksIn, filterMap_singleton, Token.block?]
  obtain ⟨a, ha, hc⟩ := SmallHeap.Conserves.home hpart b hmem
  have hbal := SmallHeap.Conserves.page hpart _ a ha
  have hout : b.addr ∈ (↑a.free + outAt (blocksIn ({.block b z} + R)) (pageOf b.addr) :
      Multiset Nat) := Multiset.mem_add.2 (.inr (mem_outAt.2 ⟨rfl, b.cls, hmem⟩))
  rw [hbal.ledger] at hout
  simp only [carved, Multiset.mem_coe, List.mem_map, List.mem_range] at hout
  obtain ⟨i, hi, haddr⟩ := hout
  have hcap := capacity_le a
  have hfit : (i + 1) * classSize a.cls ≤ a.capacity * classSize a.cls :=
    Nat.mul_le_mul_right _ (Nat.lt_of_lt_of_le hi hbal.room)
  rw [Nat.succ_mul] at hfit
  unfold PageHeader.blockAt at haddr
  rw [← hc]
  refine hk.clear h hsteady (h.page_warm ha) ?_ ?_
  · dsimp only
    omega
  · dsimp only
    omega

theorem Kept.clear_spanBlock {t : SpanTier} {b : SpanBlock t} {z : Bool} (hk : w.Kept g)
    (h : w.Good ({.span t b z} + R)) (hsteady : w.strayed = false) :
    g.Clear ⟨b.addr, t.blockSize b.cls⟩ := by
  have hpart := h.part (.span t) fun _ => hsteady
  have hmem : b ∈ spansIn t ({.span t b z} + R) := by
    rw [spansIn_add, Multiset.mem_add]
    left
    simp [spansIn, filterMap_singleton]
  obtain ⟨s, a, hs, hc, hin, -⟩ := SpanHeap.Conserves.home hpart b hmem
  have hbal := SpanHeap.Conserves.span hpart s a hs
  have hout : b.addr ∈ (↑a.free + outIn (spansIn t ({.span t b z} + R)) s a.npages :
      Multiset Nat) := Multiset.mem_add.2 (.inr (mem_outIn.2 ⟨hin, b, hmem, rfl⟩))
  rw [hbal.ledger] at hout
  have hcarve := mem_carve (Multiset.mem_coe.1 hout)
  rw [← hc]
  exact hk.clear h hsteady (h.span_warm hsteady hs) hcarve.1 hcarve.2

/-- Whatever a thread holds is accessible. -/
theorem Kept.clear_held {x : Token} (hk : w.Kept g) (h : w.Good ({x} + R))
    (hsteady : w.strayed = false) : g.Clear (w.stretch x) := by
  cases x with
  | block b z => exact hk.clear_block h hsteady
  | span t b z => exact hk.clear_spanBlock h hsteady
  | extent e z => exact hk.clear_hand h hsteady
  | region q => exact hk.clear_region h hsteady

/-- So is the page or the span it is of. -/
theorem Kept.clear_home {x : Token} (hk : w.Kept g) (h : w.Good ({x} + R))
    (hsteady : w.strayed = false) : g.Clear (w.home x) := by
  cases x with
  | block b z =>
      obtain ⟨a, ha, -⟩ := SmallHeap.Conserves.home (h.part .small) b (by
        rw [blocksIn_add, Multiset.mem_add]
        left
        simp [blocksIn, filterMap_singleton, Token.block?])
      exact hk.clear_page h hsteady ha
  | span t b z =>
      have hpart := h.part (.span t) fun _ => hsteady
      obtain ⟨a, ha, -⟩ := SpanHeap.Conserves.masterOf hpart (b := b) (by
        rw [spansIn_add, Multiset.mem_add]
        left
        simp [spansIn, filterMap_singleton])
      exact hk.clear_span h hsteady ha
  | extent e z => exact hk.clear_hand h hsteady
  | region q => exact hk.clear_region h hsteady

/-! ### Live regions -/

/-- The headers that a walk of a bucket reads are those of live regions. -/
theorem Kept.clear_bucket (hk : w.Kept g) (h : w.Good m) (hsteady : w.strayed = false) (b : Nat) :
    ∀ s ∈ (w.registry b).map fun hdr => (⟨hdr, largeHeaderSize⟩ : Stretch), g.Clear s := by
  intro s hs
  obtain ⟨hdr, hhdr, rfl⟩ := List.mem_map.1 hs
  have hmem : hdr ∈ (↑(w.registry b) : Multiset Nat) := Multiset.mem_coe.2 hhdr
  rw [(LargeOk.registered (h.part .large)).registry b] at hmem
  obtain ⟨q, hq, rfl⟩ := Multiset.mem_map.1 hmem
  have hlive := (Multiset.mem_filter.1 hq).1
  obtain ⟨a, ha⟩ := LargeOk.headers (h.part .large) q hlive
  have hwarm : w.Warm .large (w.regionAt q) :=
    h.large_warm (Multiset.mem_add.2 (.inl (Multiset.mem_map_of_mem _ hlive)))
  have hpages := ha.pages
  have hheader := ha.header
  have hfits := ha.fits
  refine hk.clear h hsteady hwarm ?_ ?_
  · rw [ha.regionAt]
    dsimp only
    omega
  · rw [hpages, ha.regionAt]
    dsimp only
    omega

theorem Kept.walk (hk : w.Kept g) (h : w.Good m) (hsteady : w.strayed = false) (b : Nat) :
    g.Safe (w.bucketTouches b) ∧ g.run (w.bucketTouches b) = g :=
  ⟨Memory.safe_touches (hk.clear_bucket h hsteady b), Memory.run_touches _⟩

theorem Kept.unregister {q : Nat} (hk : w.Kept g) (h : w.Good ({.region q} + R))
    (hsteady : w.strayed = false) {a : LargeHeader} (ha : a = w.header (q - largeHeaderSize)) :
    let events := w.unregisterEvents (q - largeHeaderSize) a.base a.mappedSize
    g.Safe events ∧ g.run events = g := by
  subst ha
  have hregion := hk.clear_region h hsteady
  rw [h.headerOk.pages, h.headerOk.regionAt] at hregion
  obtain ⟨hsafe, hsame⟩ := hk.walk h hsteady (legacyBucket (q - largeHeaderSize))
  unfold unregisterEvents
  dsimp only
  split
  · exact ⟨⟨hregion, trivial⟩, rfl⟩
  · exact ⟨⟨hregion, hsafe⟩, hsame⟩

/-- The pages a region grows by are committed before anything is written behind its old end. -/
theorem Kept.extend {q size newMapped : Nat} (hk : w.Kept g) (h : w.Good ({.region q} + R))
    (hsteady : w.strayed = false) {a : LargeHeader} (ha : a = w.header (q - largeHeaderSize))
    (hgrowth : w.growth q size = .extend newMapped)
    (hcan : w.canExtend a.base a.mappedSize newMapped = true) (added : Stretch) :
    g.Safe [.touch ⟨a.base, a.mappedSize⟩, .commit added, .touch ⟨a.base, newMapped⟩] ∧
      (w.extendRegion q newMapped size).Kept (g.after (.commit added)) := by
  subst ha
  have hbefore := hk.clear_region h hsteady
  rw [h.headerOk.pages, h.headerOk.regionAt] at hbefore
  have hkept : (w.extendRegion q newMapped size).Kept (g.after (.commit added)) :=
    (hk.commit added).congr fun x => cold_congr rfl rfl rfl x
  have hgood := h.extend hgrowth hcan
  have hheader : (w.extendRegion q newMapped size).header (q - largeHeaderSize)
      = ⟨newMapped, (w.header (q - largeHeaderSize)).base, size⟩ := by
    rw [header, extendRegion_known]
    rfl
  have hafter := hkept.clear_region hgood hsteady
  rw [hgood.headerOk.pages, hgood.headerOk.regionAt, hheader] at hafter
  exact ⟨⟨hbefore, trivial, hafter, trivial⟩, hkept⟩

end World

namespace Purging

variable {s s' : Purging} {events : List MemEvent}

/-! ### Runs -/

structure Sound (s : Purging) : Prop where
  good : s.world.Good s.held
  steady : s.world.strayed = false
  kept : s.world.Kept s.memory
  slots : ∀ c, (s.slots c).list = (s.world.small.lists c).cold

theorem Sound.init (arenaStart arenaEnd : Nat) : (init arenaStart arenaEnd).Sound where
  good := World.init_good arenaStart arenaEnd
  steady := rfl
  kept := by
    refine ⟨fun x hx => absurd hx (World.init_cold x), fun a ha => ?_⟩
    cases ha
  slots c := rfl

/-- The arrays of one class change with its cold list. -/
theorem slots_update {k : Fin numClasses → ColdSlots} {h h' : SmallHeap} {c : Fin numClasses}
    {a : ColdSlots} (hslots : ∀ c, (k c).list = (h.lists c).cold)
    (ha : a.list = (h'.lists c).cold)
    (hother : ∀ c', c' ≠ c → (h'.lists c').cold = (h.lists c').cold) (c' : Fin numClasses) :
    (Function.update k c a c').list = (h'.lists c').cold := by
  by_cases hc : c' = c
  · subst hc
    rw [Function.update_self, ha]
  · rw [Function.update_of_ne hc, hslots c', hother c' hc]

/-- Every section finds what it touches accessible, and keeps the rest. -/
theorem Sound.keeps {w w' : World} {k k' : Fin numClasses → ColdSlots} {A A' R : Multiset Token}
    {g : Memory Discarded} (h : w.Good (A + R)) (hsteady : w.strayed = false) (hk : w.Kept g)
    (hslots : ∀ c, (k c).list = (w.small.lists c).cold) (hrun : w.Section k A w' k' A' events) :
    g.Safe events ∧ Sound ⟨w', k', A' + R, g.run events⟩ := by
  cases hrun with
  | takeSmall c z =>
      have h' : w.Good R := by rwa [zero_add] at h
      obtain ⟨hsafe, hkept⟩ := hk.takeSmall h' hsteady (hslots c)
      exact ⟨hsafe, (h'.takeSmall c z).1, hsteady, hkept, slots_update hslots
        (SmallHeap.takeSlots_list (hslots c)) fun _ => SmallHeap.takeLocked_cold_of_ne⟩
  | takeMapped c raw z virgin hr =>
      subst hr
      obtain ⟨hsafe, hkept⟩ := hk.takeMapped h hsteady
      refine ⟨hsafe, (h.takeMapped c z rfl rfl).1, hsteady, hkept, fun c' => ?_⟩
      exact (hslots c').trans (SmallHeap.takeMapped_same _ _ _ _ c').symm
  | release c x hx p hr =>
      subst hr
      have hcools := SmallHeap.releaseChunk_cold w.small c p.report x
      obtain ⟨hsafe, hkept⟩ := hk.release h hsteady hx hcools
      have hchunks : ∀ y ∈ [x], SmallHeap.Chunk c y := by
        intro y hy
        rwa [List.mem_singleton.1 hy]
      exact ⟨hsafe, h.releaseBatch hchunks fun _ => p.report, hsteady, hkept, slots_update hslots
        (hcools.slots (hslots c)) fun _ => hcools.cold_of_ne⟩
  | releaseBlocks c x hx p hcls hr =>
      have hgood := h.releaseBlocks hx p.report
      obtain ⟨a, ha, hc⟩ := h.chunk_page (World.blocksIn_chunk c x) hx
      rw [SmallHeap.header_eq ha, hc] at hcls hgood
      have hsame := hcls.symm
      subst hsame hr
      have hcools := SmallHeap.releaseInner_cold w.small c p.report x
      obtain ⟨hsafe, hkept⟩ := hk.release h hsteady hx hcools
      exact ⟨hsafe, hgood, hsteady, hkept, slots_update hslots (hcools.slots (hslots c))
        fun _ => hcools.cold_of_ne⟩
  | takeSpans t c z hr =>
      subst hr
      have h' : w.Good R := by rwa [zero_add] at h
      obtain ⟨hsafe, hkept⟩ := hk.takeSpans h' hsteady c
      exact ⟨hsafe, (h'.takeSpans c z).1, hsteady, hkept, hslots⟩
  | takeMappedSpans t c raw z virgin hr =>
      subst hr
      obtain ⟨hsafe, hkept⟩ := hk.takeMappedSpans h hsteady
      exact ⟨hsafe, (h.takeMappedSpans c z rfl rfl).1, hsteady, hkept, hslots⟩
  | releaseSpan t c x hx p hcls hr =>
      subst hcls hr
      obtain ⟨hsafe, hkept⟩ := hk.releaseSpan h hsteady hx
      exact ⟨hsafe, h.releaseSpan hx p.report, hsteady, hkept, hslots⟩
  | takeFit i mapped z hr =>
      subst hr
      have h' : w.Good R := by rwa [zero_add] at h
      obtain ⟨hsafe, hkept⟩ := hk.takeFit i mapped
      exact ⟨hsafe, h'.takeFit i mapped z, hsteady, hkept, hslots⟩
  | park i base pages z p hr =>
      subst hr
      obtain ⟨hsafe, hkept⟩ := hk.park h hsteady i
      exact ⟨hsafe, h.park rfl i p.report, hsteady, hkept, hslots⟩
  | handoff base mapped z p =>
      refine ⟨?_, ?_, hsteady, hk.handoff h hsteady (h.hand_warm hsteady), hslots⟩
      · unfold handoffEvents
        split <;> simp [Memory.Allows]
      · exact h.reflag p.report.zeroed
  | register base mapped size ret z hheader hfits =>
      refine ⟨⟨hk.clear_hand h hsteady, trivial⟩, h.register hheader hfits,
        (World.registerRegion_strayed w _ _ _ _).trans hsteady,
        hk.congr (World.registerRegion_cold w _ _ _ _), fun c => ?_⟩
      rw [World.registerRegion_small]
      exact hslots c
  | unregister p hg =>
      obtain ⟨hsafe, hsame⟩ := hk.unregister h hsteady hg
      subst hg
      rw [hsame]
      refine ⟨hsafe, h.unregister, (World.unregisterRegion_strayed w _ _ _).trans hsteady,
        hk.congr (World.unregisterRegion_cold w _ _ _), fun c => ?_⟩
      rw [World.unregisterRegion_small]
      exact hslots c
  | lookup p =>
      have h' : w.Good R := by rwa [zero_add] at h
      obtain ⟨hsafe, hsame⟩ := hk.walk h' hsteady (legacyBucket (p - largeHeaderSize))
      rw [hsame]
      exact ⟨hsafe, h, hsteady, hk, hslots⟩
  | resize p size hg =>
      subst hg
      have hregion := hk.clear_region h hsteady
      rw [h.headerOk.pages, h.headerOk.regionAt] at hregion
      exact ⟨⟨hregion, trivial⟩, h.resize, hsteady,
        hk.congr fun x => World.cold_congr rfl rfl rfl x, hslots⟩
  | extend p size newMapped hg hgrowth hcan =>
      obtain ⟨hsafe, hkept⟩ := hk.extend h hsteady hg hgrowth hcan
        ⟨_, newMapped - (w.header (p - largeHeaderSize)).mappedSize⟩
      subst hg
      exact ⟨hsafe, h.extend hgrowth hcan, hsteady, hkept, hslots⟩
  | map x z hcan hlen =>
      have h' : w.Good R := by rwa [zero_add] at h
      exact ⟨⟨trivial, trivial⟩, h'.mapExtent hcan hlen z, hsteady,
        (hk.commit _).congr fun _ => .rfl, hslots⟩
  | unmap x z taken htaken =>
      refine ⟨trivial, ?_, hsteady, hk.congr fun _ => .rfl, hslots⟩
      rw [zero_add]
      exact h.unmapExtent htaken
  | use x =>
      have hhome := hk.clear_home h hsteady
      exact ⟨⟨hhome, hk.clear_held h hsteady, trivial⟩, h, hsteady, hk, hslots⟩

theorem Sound.step (h : s.Sound) (hstep : s.Step events s') : s.memory.Safe events ∧ s'.Sound := by
  obtain ⟨hheld, hrun⟩ := hstep
  have hgood := h.good
  rw [hheld] at hgood
  exact Sound.keeps hgood h.steady h.kept h.slots hrun

theorem Reach.sound (h : s.Reach) : s.Sound := by
  induction h with
  | init arenaStart arenaEnd => exact .init _ _
  | step _ hstep ih => exact (ih.step hstep).2

/-- A region is mapped and parked in the first shard. -/
def parkMapped (s : Purging) (base pages : Nat) (p : Purge) : Purging :=
  let r := (s.world.shards 0).park p.report base pages (pages * pageSize)
  { world := { s.world with
      mapped := ⟨base, pages * pageSize, .large⟩ :: s.world.mapped
      shards := Function.update s.world.shards 0 r.1 }
    slots := s.slots
    held := fateTokens .large [(base, r.2)] + s.held
    memory := (s.memory.run [.commit ⟨base, pages * pageSize⟩]).run
      (coolEvents p base (pages * pageSize) r.2) }

theorem Reach.parkMapped (h : s.Reach) {base pages : Nat} (p : Purge) (hpages : 0 < pages)
    (hcan : s.world.canMap ⟨base, pages * pageSize, .large⟩ = true) :
    (s.parkMapped base pages p).Reach := by
  have hlen : 0 < pages * pageSize ∧ pages * pageSize % pageSize = 0 ∧
      (Purpose.large = .small → pages * pageSize = pageSize) :=
    ⟨Nat.mul_pos hpages (by decide), Nat.mul_mod_left _ _, by rintro ⟨⟩⟩
  have hmapped := h.step (.run (zero_add s.held).symm (.map ⟨base, pages * pageSize, .large⟩ true hcan hlen))
  exact hmapped.step (.run rfl (.park 0 base pages true p rfl))

/-- A region is taken from the first shard. -/
def takeFit (s : Purging) (mapped : Nat) : Purging :=
  let r := (s.world.shards 0).takeFit mapped
  { world := { s.world with shards := Function.update s.world.shards 0 r.1 }
    slots := s.slots
    held := (r.2.elim 0 fun x => {.extent ⟨x.base, x.pages * pageSize, .large⟩ false}) + s.held
    memory := s.memory.run (fitEvents r.2) }

theorem Reach.takeFit (h : s.Reach) (mapped : Nat) : (s.takeFit mapped).Reach :=
  h.step (.run (zero_add s.held).symm (.takeFit 0 mapped false rfl))

/-- `MADV_DONTNEED`: the pages read as zeros and stay accessible. -/
def inPlace : Purge := ⟨⟨true, true⟩, false, by rintro ⟨⟩⟩

/-- Behind a hot region two are cold, one purged in place and one decommitted. The first is taken, and the
second moves into its slot. -/
def swapped : Purging :=
  ((((Purging.init 0 0).parkMapped (2 ^ 24) 256 inPlace).parkMapped (2 ^ 26) 272 inPlace).parkMapped
    (2 ^ 27) 288 .decommit).takeFit (272 * pageSize)

end Purging

end Allox
