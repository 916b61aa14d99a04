import Allox.Proof.World
import Allox.System

/-!
# Every section keeps the accounts

One lemma for each critical section: what a thread must hold to run it, and what it holds afterwards.
Whatever else there is stays where it is.
-/

namespace Allox

open Resumption

namespace World

variable {w : World} {R : Multiset Token}

/-! ### The small heap -/

/-- The blocks of a refill, under either flag. -/
theorem Good.takeSmall (h : w.Good R) (c : Fin numClasses) (z : Bool) :
    Good { w with small := (w.small.takeLocked c).1 }
        (uniform (fun a => .block ⟨c, a⟩) z (w.small.takeLocked c).2.chain + R) ∧
      (w.small.takeLocked c).2.count = (w.small.takeLocked c).2.chain.length := by
  have hpart := h.part .small
  have h' : w.Good (0 + R) := by rwa [zero_add]
  refine ⟨h'.onSmall .zero (.uniform_block c) (whole_uniform fun _ _ => trivial) ?_, ?_⟩
  · intro out loose mapped hok
    simp only [blocksIn_uniform, looseIn_uniform_block, Multiset.map_zero, zero_add]
    rw [add_comm]
    refine (SmallHeap.takeLocked_filled ?_).1
    simpa [blocksIn, looseIn] using hok
  · exact (SmallHeap.takeLocked_filled hpart).2

theorem Good.takeMapped {p : Nat} {z : Bool} (c : Fin numClasses) (z' : Bool) {f : Fill}
    (h : w.Good ({.extent ⟨p, pageSize, .small⟩ z} + R)) (hcount : f.count = 0)
    (hnil : f.chain = []) :
    Good { w with small := (w.small.takeMapped c p f).1 }
        (uniform (fun a => .block ⟨c, a⟩) z' (w.small.takeMapped c p f).2.chain + R) ∧
      (w.small.takeMapped c p f).2.count = (w.small.takeMapped c p f).2.chain.length := by
  have hloose : (looseIn .small {Token.extent ⟨p, pageSize, .small⟩ z}).map Prod.fst = {p} := by
    simp [looseIn, filterMap_singleton, Token.loose?, Mapping.pages?]
  have hpart := h.part .small
  simp only [Part, blocksIn_add, looseIn_add, Multiset.map_add, hloose] at hpart
  refine ⟨h.onSmall (.singleton rfl) (.uniform_block c)
    (whole_uniform fun _ _ => trivial) ?_, ?_⟩
  · intro out loose mapped hok
    rw [hloose] at hok
    simp only [blocksIn_uniform, looseIn_uniform_block, Multiset.map_zero, zero_add]
    rw [add_comm]
    refine (SmallHeap.takeMapped_filled ?_ hcount hnil).1
    simpa [blocksIn, filterMap_singleton, Token.block?] using hok
  · exact (SmallHeap.takeMapped_filled hpart hcount hnil).2

theorem Good.releaseBatch {c : Fin numClasses} {chunks : List PageReleaseChunk}
    (h : w.Good (blockTokens (SmallHeap.chunkBlocks c chunks) + R))
    (hchunks : ∀ x ∈ chunks, SmallHeap.Chunk c x) (d : Nat → Discarded) :
    Good { w with small := (SmallHeap.releaseBatch c w.small d chunks).1 }
      (fateTokens .small (SmallHeap.releaseBatch c w.small d chunks).2 + R) := by
  refine h.onSmall (.blockTokens _) .fateTokens
    (whole_small (SmallHeap.releaseBatch_fate c w.small d chunks)) ?_
  intro out loose mapped hok
  rw [looseIn_fateTokens_small, blocksIn_fateTokens, zero_add]
  refine SmallHeap.releaseBatch_conserves hchunks d ?_
  rw [add_comm]
  simpa using hok

theorem Good.releaseBinChunks {c : Fin numClasses} {chain : List Nat}
    {groups : List SmallHeap.PageCount} (h : w.Good (blockTokens (blocksOf c chain) + R))
    (hcount : SmallHeap.Counted chain groups) (d : Nat → Discarded) :
    Good { w with small := (w.small.releaseBinChunks c d chain groups).1 }
      (fateTokens .small (w.small.releaseBinChunks c d chain groups).2 + R) := by
  refine h.onSmall (.blockTokens _) .fateTokens
    (whole_small (SmallHeap.releaseCounted_fate c chain w.small d _)) ?_
  intro out loose mapped hok
  rw [looseIn_fateTokens_small, blocksIn_fateTokens, zero_add]
  refine SmallHeap.releaseBinChunks_conserves hcount d ?_
  rw [add_comm]
  simpa using hok

/-- The page of a chunk in hand is active, and of the class of its blocks. -/
theorem Good.chunk_page {A : Multiset Token} {c : Fin numClasses} {x : PageReleaseChunk}
    (h : w.Good (A + R)) (hblocks : blocksIn A = blocksOf c x.chain) (hx : SmallHeap.Chunk c x) :
    ∃ g, w.small.pages x.page = some (.active g) ∧ g.cls = c := by
  have hpart := h.part .small
  simp only [Part, blocksIn_add, hblocks] at hpart
  rw [add_comm (blocksOf _ _)] at hpart
  obtain ⟨g, hg, hc, -⟩ := SmallHeap.Conserves.chunk_page hpart hx
  exact ⟨g, hg, hc⟩

/-- A chunk goes back under the class of its page. -/
theorem Good.releaseInner {A : Multiset Token} {c : Fin numClasses} {x : PageReleaseChunk}
    (h : w.Good (A + R)) (hA : OfUse .small A) (hblocks : blocksIn A = blocksOf c x.chain)
    (hloose : looseIn .small A = 0) (hx : SmallHeap.Chunk c x) (d : Discarded) :
    let r := w.small.releaseInner (w.small.header x.page).cls d x
    Good { w with small := r.1 } (fateTokens .small [(x.page, r.2)] + R) := by
  obtain ⟨g, hg, hc⟩ := h.chunk_page hblocks hx
  dsimp only
  rw [SmallHeap.header_eq hg, hc]
  refine h.onSmall hA .fateTokens (whole_small ?_) ?_
  · intro y hy
    rw [List.mem_singleton] at hy
    subst hy
    exact SmallHeap.releaseInner_fate _ _ _ _
  · intro out loose mapped hok
    rw [looseIn_fateTokens_small, blocksIn_fateTokens, zero_add]
    rw [hblocks, hloose, Multiset.map_zero, zero_add, add_comm] at hok
    have hdone := SmallHeap.releaseInner_conserves hok hx d
    simpa [SmallHeap.allUnmapped] using hdone

theorem Good.releaseBlocks {c : Fin numClasses} {x : PageReleaseChunk}
    (h : w.Good (blockTokens (SmallHeap.chunkBlocks c [x]) + R)) (hx : SmallHeap.Chunk c x)
    (d : Discarded) :
    let r := w.small.releaseInner (w.small.header x.page).cls d x
    Good { w with small := r.1 } (fateTokens .small [(x.page, r.2)] + R) := by
  refine h.releaseInner (.blockTokens _) ?_ ?_ hx d
  · simp [SmallHeap.chunkBlocks]
  · simp

theorem Good.releaseOne {c : Fin numClasses} {p : Nat} {z : Bool}
    (h : w.Good ({.block ⟨c, p⟩ z} + R)) (d : Discarded) :
    let r := w.small.releaseInner (w.small.header (pageOf p)).cls d ⟨pageOf p, [p], p, 1⟩
    Good { w with small := r.1 } (fateTokens .small [(pageOf p, r.2)] + R) := by
  have hchunk : SmallHeap.Chunk c ⟨pageOf p, [p], p, 1⟩ := ⟨by simp, rfl, rfl⟩
  refine h.releaseInner (x := ⟨pageOf p, [p], p, 1⟩) (.singleton rfl) ?_ ?_ hchunk d
  · simp [blocksIn, filterMap_singleton, Token.block?, blocksOf]
  · simp [looseIn, filterMap_singleton, Token.loose?]

/-! ### The span heaps -/

variable {t : SpanTier}

theorem setSpans_self (w : World) (t : SpanTier) : w.setSpans t (w.spans t) = w := by
  simp [setSpans]

theorem Good.takeSpans (h : w.Good R) (c : Fin t.num) (z : Bool) :
    Good (w.setSpans t ((w.spans t).takeLocked w.arena c).1)
        (uniform (fun a => .span t ⟨c, a, none⟩) z ((w.spans t).takeLocked w.arena c).2.chain + R) ∧
      ((w.spans t).takeLocked w.arena c).2.count
        = ((w.spans t).takeLocked w.arena c).2.chain.length := by
  have h' : w.Good (0 + R) := by rwa [zero_add]
  refine ⟨h'.onSpans .zero (.uniform_span c none) (whole_uniform fun _ _ => trivial) ?_,
    SpanHeap.takeLocked_count _ _ _⟩
  intro _ out loose mapped hok
  simp only [spansIn_uniform, looseIn_uniform_span, zero_add]
  rw [add_comm]
  refine (SpanHeap.takeLocked_filled ?_).1
  simpa [spansIn, looseIn] using hok

theorem Good.takeMappedSpans {s : Nat} {z : Bool} (c : Fin t.num) (z' : Bool) {f : Fill}
    (h : w.Good ({.extent ⟨s, t.spanPages c * pageSize, .span t⟩ z} + R)) (hcount : f.count = 0)
    (hnil : f.chain = []) :
    Good (w.setSpans t (((w.spans t).carveMapped w.arena c s).takeMapped c s f).1)
        (uniform (fun a => .span t ⟨c, a, none⟩) z'
          (((w.spans t).carveMapped w.arena c s).takeMapped c s f).2.chain + R) ∧
      (((w.spans t).carveMapped w.arena c s).takeMapped c s f).2.count
        = (((w.spans t).carveMapped w.arena c s).takeMapped c s f).2.chain.length := by
  have hloose : looseIn (.span t) {Token.extent ⟨s, t.spanPages c * pageSize, .span t⟩ z}
      = {(s, t.spanPages c)} := by
    have hpages : t.spanPages c * pageSize / pageSize = t.spanPages c :=
      Nat.mul_div_cancel _ (by decide)
    simp [looseIn, filterMap_singleton, Token.loose?, Mapping.pages?, hpages]
  refine ⟨h.onSpans (.singleton rfl) (.uniform_span c none) (whole_uniform fun _ _ => trivial) ?_,
    SpanHeap.fillFromList_count _ c (by simp [hcount, hnil])⟩
  intro _ out loose mapped hok
  rw [hloose] at hok
  simp only [spansIn_uniform, looseIn_uniform_span, zero_add]
  rw [add_comm]
  refine (SpanHeap.takeMapped_filled ?_ hcount hnil).1
  simpa [spansIn, filterMap_singleton, Token.span?] using hok

theorem Good.releaseSpan {c : Fin t.num} {x : ReleaseChunk}
    (h : w.Good (spanTokens t (SpanHeap.chunkBlocks c x) + R)) (hx : SpanHeap.Chunk x)
    (d : Discarded) :
    let r := (w.spans t).releaseInner w.arena
      (if t = .big then ((w.spans t).master x.span).cls else c) d x
    Good (w.setSpans t r.1) (fateTokens (.span t) [(x.span, r.2)] + R) := by
  refine h.onSpans (.spanTokens _) .fateTokens (whole_span ?_) ?_
  · intro y hy
    rw [List.mem_singleton] at hy
    subst hy
    exact SpanHeap.releaseInner_fate _ _ _ _ _
  · intro _ out loose mapped hok
    rw [spansIn_spanTokens, add_comm] at hok
    have hcls : (if t = .big then ((w.spans t).master x.span).cls else c) = c := by
      obtain ⟨m, hm, hc, -⟩ := hok.chunk_span hx
      rw [SpanHeap.master_eq hm, hc, ite_self]
    rw [hcls, looseIn_fateTokens_span, spansIn_fateTokens, zero_add]
    have hdone := SpanHeap.releaseInner_conserves (by simpa using hok) hx d
    simpa [SpanHeap.allUnmapped] using hdone

theorem Good.releaseGroups {c : Fin t.num} {groups : List ReleaseChunk}
    (h : w.Good (spanTokens t (ThreadCache.groupBlocks c groups) + R))
    (hgroups : ∀ x ∈ groups, SpanHeap.Chunk x) (d : Nat → Discarded) :
    Good (w.setSpans t (SpanHeap.releaseBatch w.arena c (w.spans t) d groups).1)
      (fateTokens (.span t) (SpanHeap.releaseBatch w.arena c (w.spans t) d groups).2 + R) := by
  refine h.onSpans (.spanTokens _) .fateTokens
    (whole_span (SpanHeap.releaseBatch_fate w.arena c (w.spans t) d groups)) ?_
  intro _ out loose mapped hok
  rw [looseIn_fateTokens_span, spansIn_fateTokens, zero_add]
  refine SpanHeap.releaseBatch_conserves hgroups d ?_
  rw [add_comm]
  simpa [ThreadCache.groupBlocks] using hok

/-- What a thread takes a block to be of, if the span of the block is asked for or the tier void. -/
theorem Good.rehome {c : Fin t.num} {b : Nat} {x y : Option Nat} {z z' : Bool}
    (h : w.Good ({.span t ⟨c, b, x⟩ z} + R))
    (hy : w.Trusted t → ∀ s, y = some s → s = (w.spans t).masterOf b) :
    w.Good ({.span t ⟨c, b, y⟩ z'} + R) := by
  have hread : ∀ x z, spansIn t {Token.span t ⟨c, b, x⟩ z} = {⟨c, b, x⟩} := by
    simp [spansIn, filterMap_singleton]
  have hdone : Good (w.setSpans t (w.spans t)) ({.span t ⟨c, b, y⟩ z'} + R) :=
    h.onSpans (.singleton rfl) (.singleton rfl) (by simp [Token.Whole]) (by
      intro htrust out loose mapped hok
      rw [hread] at hok ⊢
      simp only [looseIn, filterMap_singleton, Token.loose?] at hok ⊢
      exact hok.rehome (hy htrust))
  rwa [setSpans_self] at hdone

/-- The master of a known span gives the class of its blocks. -/
theorem Good.masterClass {c : Fin SpanTier.big.num} {b s : Nat} {z : Bool}
    (h : w.Good ({.span .big ⟨c, b, some s⟩ z} + R)) : ((w.spans .big).master s).cls = c := by
  have hpart := h.part (.span .big) nofun
  obtain ⟨s', m, hs, hc, -, hhome⟩ := hpart.home ⟨c, b, some s⟩ (by simp [spansIn])
  obtain rfl := hhome s rfl
  rw [SpanHeap.master_eq hs, hc]

/-- What is written to a block does not matter to the accounts. -/
theorem Good.dirty {A : Multiset Token} (h : w.Good (A + R)) : w.Good (A.map Token.dirty + R) := by
  have hread : ∀ {β : Type} {f : Token → Option β}, (∀ x, f x.dirty = f x) →
      (A.map Token.dirty + R).filterMap f = (A + R).filterMap f := by
    intro β f hf
    rw [Multiset.filterMap_add, Multiset.filterMap_add, Multiset.filterMap_map]
    congr 2
    exact funext hf
  refine { h with part := fun u => ?_, whole := fun x hx => ?_ }
  · have hpart := h.part u
    have hblocks : blocksIn (A.map Token.dirty + R) = blocksIn (A + R) := hread Token.block?_dirty
    have hspans : ∀ t, spansIn t (A.map Token.dirty + R) = spansIn t (A + R) :=
      fun t => hread (Token.span?_dirty t)
    have hloose : ∀ u, looseIn u (A.map Token.dirty + R) = looseIn u (A + R) :=
      fun u => hread (Token.loose?_dirty u)
    have hregions : regionsIn (A.map Token.dirty + R) = regionsIn (A + R) :=
      hread Token.region?_dirty
    cases u with
    | small => simpa only [Part, hblocks, hloose] using hpart
    | span t => simpa only [Part, hspans, hloose] using hpart
    | large =>
        exact ⟨by rw [hregions]; exact hpart.headers, by rw [hregions, hloose]; exact hpart.extents,
          by rw [hregions]; exact hpart.registered⟩
  · rcases Multiset.mem_add.1 hx with hx | hx
    · obtain ⟨y, hy, rfl⟩ := Multiset.mem_map.1 hx
      exact Token.whole_dirty.2 (h.whole y (Multiset.mem_add.2 (.inl hy)))
    · exact h.whole x (Multiset.mem_add.2 (.inr hx))

/-! ### The address space -/

theorem mem_mappedOf {u : Purpose} {e : Nat × Nat} :
    e ∈ w.mappedOf u ↔ ∃ x ∈ w.mapped, x.use = u ∧ x.base = e.1 ∧ x.len / pageSize = e.2 := by
  simp only [mappedOf, Multiset.mem_coe, List.mem_filterMap, Mapping.pages?,
    Option.ite_none_right_eq_some, Option.some.injEq, Prod.ext_iff]

/-- No two mapped extents share a byte, whatever list they come from. -/
theorem mapped_nodup (hplaced : ∀ e ∈ w.mapped, w.Placed e)
    (hapart : w.mapped.Pairwise fun a b => a.disjoint b = true) (u : Purpose) :
    ((w.mappedOf u).map Prod.fst).Nodup := by
  rw [mappedOf, Multiset.map_coe, Multiset.coe_nodup, List.Nodup, List.pairwise_map]
  refine List.Pairwise.filterMap _ (R := fun a b => a.base ≠ b.base) ?_ ?_
  · intro a b hne x hx y hy
    simp only [Mapping.pages?, Option.ite_none_right_eq_some, Option.some.injEq]
      at hx hy
    rw [← hx.2, ← hy.2]
    exact hne
  · refine hapart.imp_of_mem fun ha hb hab hbase => ?_
    have hpos := (hplaced _ ha).pos
    have hpos' := (hplaced _ hb).pos
    simp only [Mapping.disjoint, Bool.or_eq_true, decide_eq_true_eq] at hab
    omega

theorem mapped_apart (hplaced : ∀ e ∈ w.mapped, w.Placed e)
    (hapart : w.mapped.Pairwise fun a b => a.disjoint b = true) {u v : Purpose} {e e' : Nat × Nat}
    (he : e ∈ w.mappedOf u) (he' : e' ∈ w.mappedOf v) (hne : e ≠ e') : Apart e e' := by
  obtain ⟨x, hx, -, hbase, hpages⟩ := mem_mappedOf.1 he
  obtain ⟨y, hy, -, hbase', hpages'⟩ := mem_mappedOf.1 he'
  have hxy : x ≠ y := by
    rintro rfl
    exact hne (Prod.ext (hbase.symm.trans hbase') (hpages.symm.trans hpages'))
  have hsymm : Std.Symm fun a b : Mapping => a.disjoint b = true :=
    ⟨fun a b h => by simpa [Mapping.disjoint, or_comm] using h⟩
  have hdis := hapart.forall hx hy hxy
  have hw := (hplaced x hx).whole
  have hw' := (hplaced y hy).whole
  simp only [Mapping.disjoint, Bool.or_eq_true, decide_eq_true_eq] at hdis
  simp only [Apart, ← hbase, ← hbase', ← hpages, ← hpages', pageSize] at hw hw' ⊢
  omega

theorem mapped_extents (hplaced : ∀ e ∈ w.mapped, w.Placed e)
    (hapart : w.mapped.Pairwise fun a b => a.disjoint b = true) {u : Purpose} (hu : u ≠ .large) :
    Extents (w.mappedOf u) where
  distinct := Multiset.Nodup.of_map _ (mapped_nodup hplaced hapart u)
  apart _ he _ he' hne := mapped_apart hplaced hapart he he' hne
  aligned e he := by
    obtain ⟨x, hx, huse, hbase, hpages⟩ := mem_mappedOf.1 he
    have hp := hplaced x hx
    refine ⟨hbase ▸ hp.aligned (.inl (huse ▸ hu)), ?_⟩
    have hpos := hp.pos
    have hw := hp.whole
    simp only [pageSize] at hw hpages
    omega

/-- Extents change hands between the list of mappings and the threads. -/
theorem Part.remap {m m' : Multiset Token} {l refused : List Mapping} {u : Purpose}
    (h : w.Part m u) (hblocks : blocksIn m' = blocksIn m) (hspans : ∀ t, spansIn t m' = spansIn t m)
    (hregions : regionsIn m' = regionsIn m)
    (hplaced : ∀ e ∈ l, w.Placed e) (hapart : l.Pairwise fun a b => a.disjoint b = true)
    (hext : looseIn u m' + w.mappedOf u
      = looseIn u m + World.mappedOf { w with mapped := l, refused } u) :
    World.Part { w with mapped := l, refused } m' u := by
  have hplaced' : ∀ e ∈ l, World.Placed { w with mapped := l, refused } e :=
    fun e he => (hplaced e he).congr rfl rfl
  cases u with
  | small =>
      simp only [Part, hblocks] at h ⊢
      refine h.remap (fun p => ?_) (mapped_nodup hplaced' hapart _) ?_
      · have := congrArg (fun s => (s.map Prod.fst).count p) hext
        simpa only [Multiset.map_add, Multiset.count_add] using this
      · intro p hp
        obtain ⟨e, he, rfl⟩ := Multiset.mem_map.1 hp
        exact ((mapped_extents hplaced' hapart (u := .small) (by decide)).aligned e he).1
  | span t =>
      simp only [Part, hspans] at h ⊢
      intro htrust
      refine (h htrust).remap (fun e => ?_) (mapped_extents hplaced' hapart (by simp))
      have := congrArg (Multiset.count e) hext
      simpa only [Multiset.count_add] using this
  | large =>
      refine ⟨fun p hp => ?_, ?_, ?_⟩
      · obtain ⟨g, hg⟩ := h.headers p (hregions ▸ hp)
        exact ⟨g, { hg with }⟩
      · have hold := h.extents
        rw [hregions]
        show (regionsIn m).map w.regionAt + looseIn .large m' + ∑ i, (w.shards i).regions = _
        refine add_right_cancel (b := w.mappedOf .large) ?_
        rw [add_right_comm, add_assoc _ (looseIn _ m'), hext, ← hold]
        ac_rfl
      · rw [hregions]
        exact ⟨h.registered.table, h.registered.tabled, h.registered.registry⟩

theorem read_extent (x : Mapping) (z : Bool) (R : Multiset Token) :
    blocksIn ({.extent x z} + R) = blocksIn R ∧
      (∀ t, spansIn t ({.extent x z} + R) = spansIn t R) ∧
      regionsIn ({.extent x z} + R) = regionsIn R := by
  refine ⟨?_, fun t => ?_, ?_⟩
  · rw [blocksIn_add, blocksIn, filterMap_singleton]
    exact zero_add _
  · rw [spansIn_add, spansIn, filterMap_singleton]
    exact zero_add _
  · rw [regionsIn_add, regionsIn, filterMap_singleton]
    exact zero_add _

theorem mappedOf_cons (w : World) (x : Mapping) (u : Purpose) (z : Bool) :
    World.mappedOf { w with mapped := x :: w.mapped } u
      = looseIn u {.extent x z} + w.mappedOf u := by
  rw [mappedOf, mappedOf, looseIn, filterMap_singleton, List.filterMap_cons, Token.loose?]
  cases x.pages? u with
  | none => simp
  | some e => simp

theorem mappedOf_perm {w w' : World} (h : w.mapped.Perm w'.mapped) (u : Purpose) :
    w.mappedOf u = w'.mappedOf u :=
  Multiset.coe_eq_coe.2 (h.filterMap _)

theorem Good.mapExtent {x : Mapping} (h : w.Good R) (hcan : w.canMap x = true)
    (hlen : 0 < x.len ∧ x.len % pageSize = 0 ∧ (x.use = .small → x.len = pageSize)) (z : Bool) :
    Good { w with mapped := x :: w.mapped } ({.extent x z} + R) := by
  simp only [canMap, Bool.and_eq_true, Bool.or_eq_true, decide_eq_true_eq, List.all_eq_true] at hcan
  obtain ⟨⟨⟨⟨⟨hbase, halign⟩, hbound⟩, harena⟩, -⟩, hdis⟩ := hcan
  have hx : w.Placed x := by
    refine ⟨hbase, hlen.1, hlen.2.1, hlen.2.2, fun hal => ?_, hbound, by tauto⟩
    rcases hal with hne | har
    · simpa [mapAlign, hne] using halign
    · simpa [mapAlign, har] using halign
  have hplaced : ∀ e ∈ x :: w.mapped, w.Placed e := by
    intro e he
    rcases List.mem_cons.1 he with rfl | he
    · exact hx
    · exact h.placed e he
  have htogether : (x :: w.mapped ++ w.refused).Pairwise fun a b => a.disjoint b = true :=
    List.pairwise_cons.2 ⟨hdis, h.together⟩
  have hapart := htogether.sublist (List.sublist_append_left (x :: w.mapped) w.refused)
  refine { h with
    part := fun u => ?_
    whole := fun y hy => ?_
    placed := fun e he => (hplaced e he).congr rfl rfl
    together := htogether }
  · obtain ⟨hblocks, hspans, hregions⟩ := read_extent x z R
    refine (h.part u).remap hblocks hspans hregions hplaced hapart ?_
    rw [mappedOf_cons w x u z, looseIn_add]
    ac_rfl
  · rcases Multiset.mem_add.1 hy with hy | hy
    · rw [Multiset.mem_singleton.1 hy]
      exact hlen.2
    · exact h.whole y hy

/-- An extent in hand is mapped. -/
theorem Good.mem_mapped {x : Mapping} {z : Bool} (h : w.Good ({.extent x z} + R))
    (ht : ∀ t, x.use = .span t → w.Trusted t) : x ∈ w.mapped := by
  have hloose : (x.base, x.len / pageSize) ∈ looseIn x.use ({.extent x z} + R) := by
    rw [looseIn_add, Multiset.mem_add]
    left
    simp [looseIn, filterMap_singleton, Token.loose?, Mapping.pages?]
  have hwhole := h.whole (.extent x z) (by simp)
  have hmem : ∃ e ∈ w.mapped, e.use = x.use ∧ e.base = x.base ∧
      (x.use ≠ .small → e.len / pageSize = x.len / pageSize) := by
    have hpart := h.part x.use
    cases huse : x.use with
    | small =>
        rw [huse] at hpart hloose
        have hext := SmallHeap.Conserves.extents hpart x.base
        have hcount : 0 < ((looseIn .small ({.extent x z} + R)).map Prod.fst).count x.base :=
          Multiset.count_pos.2 (Multiset.mem_map.2 ⟨_, hloose, rfl⟩)
        obtain ⟨e, he, hbase⟩ := Multiset.mem_map.1
          (Multiset.count_pos.1 (by omega : 0 < ((w.mappedOf .small).map Prod.fst).count x.base))
        obtain ⟨y, hy, huse', hb, -⟩ := mem_mappedOf.1 he
        exact ⟨y, hy, huse', hb.trans hbase, fun hne => absurd rfl hne⟩
    | span t =>
        rw [huse] at hpart hloose
        have hext := SpanHeap.Conserves.extents (hpart (ht t huse)) (x.base, x.len / pageSize)
        have hcount := Multiset.count_pos.2 hloose
        obtain ⟨y, hy, huse', hb, hpages⟩ := mem_mappedOf.1
          (Multiset.count_pos.1
            (by omega : 0 < (w.mappedOf (.span t)).count (x.base, x.len / pageSize)))
        exact ⟨y, hy, huse', hb, fun _ => hpages⟩
    | large =>
        rw [huse] at hpart hloose
        have hext := LargeOk.extents hpart
        have hmem : (x.base, x.len / pageSize) ∈ w.mappedOf .large :=
          hext ▸ Multiset.mem_add.2 (.inl (Multiset.mem_add.2 (.inr hloose)))
        obtain ⟨y, hy, huse', hb, hpages⟩ := mem_mappedOf.1 hmem
        exact ⟨y, hy, huse', hb, fun _ => hpages⟩
  obtain ⟨e, he, huse, hbase, hpages⟩ := hmem
  have hp := h.placed e he
  have hlen : e.len = x.len := by
    by_cases hsmall : x.use = .small
    · exact (hp.page (huse.trans hsmall)).trans (hwhole.2 hsmall).symm
    · have hdiv := hpages hsmall
      have hw := hp.whole
      have hw' := hwhole.1
      simp only [pageSize] at hdiv hw hw'
      omega
  have hex : e = x := by
    cases e
    cases x
    simp only at huse hbase hlen
    rw [huse, hbase, hlen]
  exact hex ▸ he

/-- What is given up is still apart from the rest, also if the system refuses to take it. -/
theorem unmap_together (htogether : (w.mapped ++ w.refused).Pairwise fun a b => a.disjoint b = true)
    (x : Mapping) (taken : Bool) :
    ((w.unmap x taken).mapped ++ (w.unmap x taken).refused).Pairwise
      fun a b => a.disjoint b = true := by
  have hsymm : ∀ {a b : Mapping}, a.disjoint b = true → b.disjoint a = true := by
    intro a b h
    simpa [Mapping.disjoint, or_comm] using h
  unfold unmap
  dsimp only
  split
  · exact htogether.sublist (List.erase_sublist.append_right _)
  · rename_i hrefused
    simp only [Bool.or_eq_true, decide_eq_true_eq, not_or, not_not] at hrefused
    have hperm : (w.mapped.erase x ++ x :: w.refused).Perm (w.mapped ++ w.refused) :=
      List.perm_middle.trans ((List.perm_cons_erase hrefused.2).symm.append_right _)
    exact (hperm.pairwise_iff hsymm).2 htogether

theorem unmap_of_not_mem {x : Mapping} (hx : x ∉ w.mapped) (taken : Bool) : w.unmap x taken = w := by
  simp [unmap, hx, List.erase_of_not_mem hx]

theorem unmap_outside {x : Mapping} {taken : Bool}
    (houtside : ∀ e ∈ w.refused, w.arena e.base e.len = false)
    (htaken : taken = false → w.arena x.base x.len = false) :
    ∀ e ∈ (w.unmap x taken).refused, w.arena e.base e.len = false := by
  intro e he
  unfold unmap at he
  dsimp only at he
  split at he
  · exact houtside e he
  · rename_i hrefused
    simp only [Bool.or_eq_true, not_or, Bool.not_eq_true] at hrefused
    rcases List.mem_cons.1 he with rfl | he
    · exact htaken hrefused.1
    · exact houtside e he

theorem Good.unmapExtent {x : Mapping} {z taken : Bool} (h : w.Good ({.extent x z} + R))
    (htaken : taken = false → w.arena x.base x.len = false) : Good (w.unmap x taken) R := by
  have hwhole : ∀ y ∈ R, y.Whole := fun y hy => h.whole y (Multiset.mem_add.2 (.inr hy))
  obtain ⟨hblocks, hspans, hregions⟩ := read_extent x z R
  by_cases hmem : x ∈ w.mapped
  · have hplaced : ∀ e ∈ w.mapped.erase x, w.Placed e :=
      fun e he => h.placed e (List.mem_of_mem_erase he)
    have hapart : (w.mapped.erase x).Pairwise fun a b => a.disjoint b = true :=
      h.apart.sublist List.erase_sublist
    refine { h with
      part := fun u => ?_
      whole := hwhole
      placed := fun e he => (hplaced e he).congr rfl rfl
      together := unmap_together h.together x taken
      outside := unmap_outside h.outside htaken }
    refine (h.part u).remap hblocks.symm (fun t => (hspans t).symm) hregions.symm hplaced hapart ?_
    have hcons : w.mappedOf u = looseIn u {.extent x z} + (w.unmap x taken).mappedOf u := calc
      w.mappedOf u = World.mappedOf { w with mapped := x :: w.mapped.erase x } u :=
        mappedOf_perm (List.perm_cons_erase hmem) u
      _ = looseIn u {.extent x z} + World.mappedOf { w with mapped := w.mapped.erase x } u :=
        mappedOf_cons { w with mapped := w.mapped.erase x } x u z
      _ = looseIn u {.extent x z} + (w.unmap x taken).mappedOf u := rfl
    show looseIn u R + w.mappedOf u
      = looseIn u ({.extent x z} + R) + (w.unmap x taken).mappedOf u
    rw [hcons, looseIn_add]
    ac_rfl
  · rw [unmap_of_not_mem hmem]
    have hout : ¬∀ t, x.use = .span t → w.Trusted t := fun ht => hmem (h.mem_mapped ht)
    simp only [not_forall] at hout
    obtain ⟨t, huse, htrust⟩ := hout
    refine { h with part := fun u => ?_, whole := hwhole }
    by_cases hu : u = .span t
    · subst hu
      exact fun htrust' => absurd htrust' htrust
    · have h' : w.Part ({.extent x z} + R) u := h.part u
      have hdone : w.Part (0 + R) u := h'.replace (.singleton huse) .zero hu
      rwa [zero_add] at hdone

end World

end Allox
