import Allox.BinFlush
import Allox.Proof.PartialList
import Allox.Proof.Trim

/-!
# All ways of emptying a bin do the same

Each of them gives chunks of one page back, one after the other, and a page for which all blocks come
back may be retired instead. Whatever the order and however the blocks of a page are cut into chunks,
the page has them all at the end.
-/

namespace Allox

open Function

namespace SmallHeap

variable {h h' h'' : SmallHeap} {out : Multiset Block} {loose mapped : Multiset Nat}
  {c : Fin numClasses} {p q : Nat} {g : PageHeader} {d : Discarded} {x : PageReleaseChunk}
  {chunks : List PageReleaseChunk} {fates : List (Nat × Fate)}

/-! ### The page itself -/

/-- An empty page is in the empty list, in the cold list, or about to be unmapped. -/
def Parked (h : SmallHeap) (fate : Fate) (c : Fin numClasses) (p : Nat) (g : PageHeader) : Prop :=
  p ∈ (h.lists c).empty ∧ h.pages p = some (.active { g with inPartial := false }) ∨
    p ∈ (h.lists c).cold.map ColdPage.page ∧ h.pages p = some (.cold c) ∨
      h.pages p = none ∧ fate = .unmap pageSize

theorem parkEmptyPage_parked (hp : h.pages p = some (.active g)) (c : Fin numClasses) (d : Discarded) :
    Parked (h.parkEmptyPage c d p).1 (h.parkEmptyPage c d p).2 c p g := by
  have hunlinked := unlinkPartial_pages (c := c) hp
  unfold parkEmptyPage Parked
  dsimp only
  generalize (h.unlinkPartial c p).1 = h₁ at *
  split
  · refine .inl ⟨?_, hunlinked⟩
    rw [setList_self]
    exact List.mem_cons_self ..
  · split
    · refine .inr (.inl ⟨?_, update_self _ _ _⟩)
      show p ∈ ((h₁.setList c _).lists c).cold.map ColdPage.page
      rw [setList_self, List.map_cons]
      exact List.mem_cons_self ..
    · exact .inr (.inr ⟨update_self _ _ _, rfl⟩)

/-- The blocks `m` are on the free list of the page, in addition to those that were. -/
structure Back (g g' : PageHeader) (m : Multiset Nat) : Prop where
  cls : g'.cls = g.cls
  used : g'.used + m.card = g.used
  free : (g'.free : Multiset Nat) = m + g.free
  freeCount : g'.freeCount = g'.free.length

/-- All blocks of the page can be carved again. -/
structure Reset (g : PageHeader) : Prop where
  used : g.used = 0
  free : g.free = []
  freeCount : g.freeCount = 0
  needsReinit : g.needsReinit = true

/-- The blocks `m` of page `p` have come back. If others are still outside it is in the partial list,
with these on its free list; if they were all it is parked. -/
structure Restored (h h' : SmallHeap) (fates : List (Nat × Fate)) (c : Fin numClasses) (p : Nat)
    (g : PageHeader) (m : Multiset Nat) : Prop where
  page : h.pages p = some (.active g)
  cls : g.cls = c
  le : m.card ≤ g.used
  kept : m.card < g.used → p ∈ (h'.lists c).head ∧
    ∃ g', h'.pages p = some (.active g') ∧ g'.inPartial = true ∧ Back g g' m
  parked : m.card = g.used →
    (p ∈ (h'.lists c).empty ∧ ∃ g', h'.pages p = some (.active g') ∧ g'.inPartial = false ∧
        (Back g g' m ∨ Reset g')) ∨
      (p ∈ (h'.lists c).cold.map ColdPage.page ∧ h'.pages p = some (.cold c)) ∨
      h'.pages p = none ∧ (p, .unmap pageSize) ∈ fates

theorem linkPartial_pages (hp : h.pages p = some (.active g)) :
    (h.linkPartial c p).pages p = some (.active { g with inPartial := true }) := by
  have hheader : ∀ l, (h.setList c l).header p = g := fun _ => header_eq hp
  refine setHeader_pages.trans ?_
  rw [hheader]

theorem Back.inPartial {g' : PageHeader} {m : Multiset Nat} (h : Back g g' m) (inPartial : Bool) :
    Back g { g' with inPartial } m :=
  ⟨h.cls, h.used, h.free, h.freeCount⟩

theorem spliceBlocks_back (hok : h.Conserves (out + blocksOf c x.chain) loose mapped) (hx : Chunk c x) :
    ∃ g g', h.pages x.page = some (.active g) ∧ g.cls = c ∧ x.chain.length ≤ g.used ∧
      (h.spliceBlocks x).pages x.page = some (.active g') ∧ g'.inPartial = g.inPartial ∧
      Back g g' ↑x.chain := by
  obtain ⟨g, hp, hcls, -, hbal⟩ := hok.chunk_page hx
  have hused := hbal.used
  have hcount := hbal.freeCount
  simp only [Multiset.card_add, Multiset.coe_card] at hused
  have hnodup : x.chain.Nodup := by
    have hall := hbal.nodup
    rw [Multiset.nodup_add, Multiset.nodup_add] at hall
    exact Multiset.coe_nodup.1 hall.2.1.1
  refine ⟨g, _, hp, hcls, by omega, setHeader_pages, ?_, ?_⟩
  · rw [header_eq hp]
  · rw [header_eq hp, spliceAt_eq hnodup hx.tail, hx.n]
    refine ⟨rfl, ?_, (Multiset.coe_add _ _).symm, ?_⟩
    · show g.used - x.chain.length + (x.chain : Multiset Nat).card = g.used
      rw [Multiset.coe_card]
      omega
    · show g.freeCount + x.chain.length = (x.chain ++ g.free).length
      rw [List.length_append, hcount, Nat.add_comm]

theorem settlePage_restored {h₁ : SmallHeap} {g₁ : PageHeader} {m : Multiset Nat}
    (hp : h.pages p = some (.active g)) (hcls : g.cls = c) (hle : m.card ≤ g.used)
    (hp₁ : h₁.pages p = some (.active g₁)) (hback : Back g g₁ m)
    (hhead : g₁.inPartial = true → p ∈ (h₁.lists c).head) (d : Discarded) :
    Restored h (h₁.settlePage c d p).1 [(p, (h₁.settlePage c d p).2)] c p g m := by
  have hused := hback.used
  unfold settlePage
  rw [header_eq hp₁]
  split
  · rename_i hzero
    refine ⟨hp, hcls, hle, fun hlt => by omega, fun _ => ?_⟩
    obtain ⟨hempty, hactive⟩ | hcold | ⟨hnone, hfate⟩ := parkEmptyPage_parked hp₁ c d
    · exact .inl ⟨hempty, _, hactive, rfl, .inl (hback.inPartial false)⟩
    · exact .inr (.inl hcold)
    · refine .inr (.inr ⟨hnone, ?_⟩)
      rw [← hfate]
      exact List.mem_singleton_self _
  · rename_i hsome
    split
    · rename_i hin
      exact ⟨hp, hcls, hle, fun _ => ⟨hhead hin, _, hp₁, hin, hback⟩, fun hall => by omega⟩
    · have hmem : p ∈ ((h₁.linkPartial c p).lists c).head := by
        rw [linkPartial_head]
        exact List.mem_cons_self ..
      exact ⟨hp, hcls, hle, fun _ => ⟨hmem, _, linkPartial_pages hp₁, rfl, hback.inPartial true⟩,
        fun hall => by omega⟩

theorem releaseInner_restored (hok : h.Conserves (out + blocksOf c x.chain) loose mapped)
    (hlisted : Listed h) (hx : Chunk c x) (d : Discarded) :
    ∃ g, Restored h (h.releaseInner c d x).1 [(x.page, (h.releaseInner c d x).2)] c x.page g ↑x.chain := by
  obtain ⟨g, g₁, hp, hcls, hle, hp₁, hin, hback⟩ := spliceBlocks_back hok hx
  have hhead : g₁.inPartial = true → x.page ∈ ((h.spliceBlocks x).lists c).head := by
    intro hin₁
    rw [← hcls]
    exact hlisted _ g hp (hin ▸ hin₁)
  rw [releaseInner_eq]
  exact ⟨g, settlePage_restored hp hcls (by rwa [Multiset.coe_card]) hp₁ hback hhead d⟩

theorem retirePageInner_restored (hok : h.Conserves (out + blocksOf c x.chain) loose mapped)
    (hx : Chunk c x) (hall : x.n = (h.header x.page).used) (d : Discarded) :
    ∃ g, Restored h (h.retirePageInner c d x.page).1
      [(x.page, (h.retirePageInner c d x.page).2)] c x.page g ↑x.chain := by
  obtain ⟨g, hp, hcls, -, -⟩ := hok.chunk_page hx
  rw [header_eq hp, hx.n] at hall
  have hused : (x.chain : Multiset Nat).card = g.used := by rwa [Multiset.coe_card]
  have hparked : Parked (h.retirePageInner c d x.page).1 (h.retirePageInner c d x.page).2 c x.page
      { g with virgin := false, needsReinit := true, free := [], freeCount := 0, used := 0 } := by
    unfold retirePageInner
    rw [header_eq hp]
    exact parkEmptyPage_parked setHeader_pages c d
  refine ⟨g, hp, hcls, hused.le, fun hlt => absurd hused hlt.ne, fun _ => ?_⟩
  obtain ⟨hempty, hactive⟩ | hcold | ⟨hnone, hfate⟩ := hparked
  · exact .inl ⟨hempty, _, hactive, rfl, .inr ⟨rfl, rfl, rfl, rfl⟩⟩
  · exact .inr (.inl hcold)
  · refine .inr (.inr ⟨hnone, ?_⟩)
    rw [← hfate]
    exact List.mem_singleton_self _

/-! ### One chunk after the other -/

section Restored

variable {fates' : List (Nat × Fate)} {g₁ : PageHeader} {m m' : Multiset Nat}

theorem Restored.mono (hr : Restored h h' fates c p g m) (hsub : fates ⊆ fates') :
    Restored h h' fates' c p g m :=
  { hr with parked := fun hall => (hr.parked hall).imp id (Or.imp id fun hgone => ⟨hgone.1, hsub hgone.2⟩) }

theorem Restored.after_same (hr : Restored h' h'' fates c p g m) (hs : Same h h' p) :
    Restored h h'' fates c p g m :=
  { hr with page := hs.pages ▸ hr.page }

theorem Restored.then_same (hr : Restored h h' fates c p g m) (hs : Same h' h'' p) :
    Restored h h'' fates c p g m where
  page := hr.page
  cls := hr.cls
  le := hr.le
  kept hlt := by
    rw [hs.pages, hs.head]
    exact hr.kept hlt
  parked hall := by
    rw [hs.pages, hs.empty, hs.cold]
    exact hr.parked hall

theorem Back.trans {g' : PageHeader} (hb : Back g g₁ m) (hb' : Back g₁ g' m') : Back g g' (m + m') where
  cls := hb'.cls.trans hb.cls
  used := by
    rw [Multiset.card_add, ← hb.used, ← hb'.used]
    omega
  free := by
    rw [hb'.free, hb.free]
    ac_rfl
  freeCount := hb'.freeCount

/-- A page that still has blocks outside is not parked. -/
theorem Restored.back (hr : Restored h h' fates c p g m) (hp : h'.pages p = some (.active g₁))
    (hused : g₁.used ≠ 0) : Back g g₁ m := by
  by_cases hlt : m.card < g.used
  · obtain ⟨-, g', hp', -, hback⟩ := hr.kept hlt
    cases hp.symm.trans hp'
    exact hback
  · have hall : m.card = g.used := Nat.le_antisymm hr.le (Nat.not_lt.1 hlt)
    obtain ⟨-, g', hp', -, hback | hreset⟩ | ⟨-, hcold⟩ | ⟨hnone, -⟩ := hr.parked hall
    · cases hp.symm.trans hp'
      exact hback
    · cases hp.symm.trans hp'
      exact absurd hreset.used hused
    · cases hp.symm.trans hcold
    · cases hp.symm.trans hnone

theorem Restored.trans (hr : Restored h h' fates c p g m) (hr' : Restored h' h'' fates' c p g₁ m')
    (hm : m' ≠ 0) : Restored h h'' (fates ++ fates') c p g (m + m') := by
  have hle := hr'.le
  have hpos : 0 < m'.card := Multiset.card_pos.2 hm
  have hback := hr.back hr'.page (by omega)
  have hused := hback.used
  refine ⟨hr.page, hr.cls, ?_, fun hlt => ?_, fun hall => ?_⟩
  · rw [Multiset.card_add]
    omega
  · rw [Multiset.card_add] at hlt
    obtain ⟨hhead, g', hp', hin, hback'⟩ := hr'.kept (by omega)
    exact ⟨hhead, g', hp', hin, hback.trans hback'⟩
  · rw [Multiset.card_add] at hall
    obtain ⟨hempty, g', hp', hin, hfinal⟩ | hcold | ⟨hnone, hfate⟩ := hr'.parked (by omega)
    · exact .inl ⟨hempty, g', hp', hin, hfinal.imp hback.trans id⟩
    · exact .inr (.inl hcold)
    · exact .inr (.inr ⟨hnone, List.mem_append_right _ hfate⟩)

end Restored

/-- What happens to page `q` when the blocks `m` of it come back. -/
structure Outcome (h h' : SmallHeap) (fates : List (Nat × Fate)) (c : Fin numClasses) (q : Nat)
    (m : Multiset Nat) : Prop where
  none : m = 0 → Same h h' q
  some : m ≠ 0 → ∃ g, Restored h h' fates c q g m

/-- Chunks given back one after the other; a page may be retired when all its blocks come back. -/
inductive Given (c : Fin numClasses) :
    SmallHeap → List PageReleaseChunk → SmallHeap → List (Nat × Fate) → Prop
  | nil {h : SmallHeap} : Given c h [] h []
  | release {h h' : SmallHeap} {x : PageReleaseChunk} {rest : List PageReleaseChunk}
      {fates : List (Nat × Fate)} (d : Discarded) (hrest : Given c (h.releaseInner c d x).1 rest h' fates) :
      Given c h (x :: rest) h' ((x.page, (h.releaseInner c d x).2) :: fates)
  | retire {h h' : SmallHeap} {x : PageReleaseChunk} {rest : List PageReleaseChunk}
      {fates : List (Nat × Fate)} (d : Discarded) (hall : x.n = (h.header x.page).used)
      (hrest : Given c (h.retirePageInner c d x.page).1 rest h' fates) :
      Given c h (x :: rest) h' ((x.page, (h.retirePageInner c d x.page).2) :: fates)

theorem Given.append {chunks' : List PageReleaseChunk} {fates' : List (Nat × Fate)}
    (hg : Given c h chunks h' fates) (hg' : Given c h' chunks' h'' fates') :
    Given c h (chunks ++ chunks') h'' (fates ++ fates') := by
  induction hg with
  | nil => exact hg'
  | release d _ ih => exact .release d (ih hg')
  | retire d hall _ ih => exact .retire d hall (ih hg')

/-- The first chunk and the rest. -/
theorem Outcome.cons {h₁ : SmallHeap} {fate : Fate} {m : Multiset Nat} (hx : Chunk c x)
    (hsame : ∀ q, q ≠ x.page → Same h h₁ q)
    (hone : ∃ g, Restored h h₁ [(x.page, fate)] c x.page g ↑x.chain)
    (hrest : Outcome h₁ h' fates c q m) :
    Outcome h h' ((x.page, fate) :: fates) c q (outAt (blocksOf c x.chain) q + m) := by
  by_cases hq : q = x.page
  · subst hq
    have hsome : (x.chain : Multiset Nat) + m ≠ 0 := by
      intro hzero
      have hcard := congrArg Multiset.card hzero
      rw [Multiset.card_add, Multiset.coe_card, Multiset.card_zero] at hcard
      exact hx.ne_nil (List.length_eq_zero_iff.1 (by omega))
    obtain ⟨g, hr⟩ := hone
    rw [outAt_blocksOf hx.page]
    refine ⟨fun hzero => absurd hzero hsome, fun _ => ⟨g, ?_⟩⟩
    by_cases hm : m = 0
    · rw [hm, add_zero]
      exact (hr.then_same (hrest.none hm)).mono fun f hf => by
        rw [List.mem_singleton.1 hf]
        exact List.mem_cons_self ..
    · obtain ⟨g₁, hr₁⟩ := hrest.some hm
      exact hr.trans hr₁ hm
  · rw [outAt_blocksOf_of_ne hx.page hq, zero_add]
    refine ⟨fun hm => (hsame q hq).trans (hrest.none hm), fun hm => ?_⟩
    obtain ⟨g, hr⟩ := hrest.some hm
    exact ⟨g, (hr.after_same (hsame q hq)).mono fun f hf => List.mem_cons_of_mem _ hf⟩

theorem outcome_cons {h₁ : SmallHeap} {rest : List PageReleaseChunk} {fate : Fate} (hx : Chunk c x)
    (hsame : ∀ q, q ≠ x.page → Same h h₁ q)
    (hone : ∃ g, Restored h h₁ [(x.page, fate)] c x.page g ↑x.chain)
    (hrest : Reached h' out (allUnmapped fates + (unmapped x.page fate + loose)) mapped ∧
      ∀ q, Outcome h₁ h' fates c q (outAt (chunkBlocks c rest) q)) :
    Reached h' out (allUnmapped ((x.page, fate) :: fates) + loose) mapped ∧
      ∀ q, Outcome h h' ((x.page, fate) :: fates) c q (outAt (chunkBlocks c (x :: rest)) q) := by
  obtain ⟨hdone, houtcome⟩ := hrest
  have hcons : chunkBlocks c (x :: rest) = blocksOf c x.chain + chunkBlocks c rest := List.sum_cons
  refine ⟨?_, fun q => ?_⟩
  · rw [← add_assoc, add_comm (allUnmapped fates)] at hdone
    exact hdone
  · rw [hcons, outAt_add]
    exact (houtcome q).cons hx hsame hone

theorem Reached.firstChunk {rest : List PageReleaseChunk}
    (hr : Reached h (out + chunkBlocks c (x :: rest)) loose mapped) :
    Reached h (out + chunkBlocks c rest + blocksOf c x.chain) loose mapped := by
  have hcons : chunkBlocks c (x :: rest) = blocksOf c x.chain + chunkBlocks c rest := List.sum_cons
  rwa [add_assoc, add_comm (chunkBlocks c rest), ← hcons]

/-- What giving chunks back comes to, for every page. The induction is on the chunks; either way of giving
the first one back leaves a heap in use. -/
theorem Given.outcome (hgiven : Given c h chunks h' fates) (hchunks : ∀ x ∈ chunks, Chunk c x)
    (hr : Reached h (out + chunkBlocks c chunks) loose mapped) :
    Reached h' out (allUnmapped fates + loose) mapped ∧
      ∀ q, Outcome h h' fates c q (outAt (chunkBlocks c chunks) q) := by
  induction hgiven generalizing loose with
  | nil =>
      have hnil : chunkBlocks c [] = 0 := rfl
      rw [hnil, add_zero] at hr
      refine ⟨?_, fun q => ⟨fun _ => .refl _ q, fun hne => absurd rfl hne⟩⟩
      show Reached _ out (0 + loose) mapped
      rwa [zero_add]
  | release d _ ih =>
      have hx := hchunks _ (List.mem_cons_self ..)
      have hfirst := hr.firstChunk
      exact outcome_cons hx (fun q hq => same_releaseInner hq)
        (releaseInner_restored hfirst.sound.1 hfirst.sound.2 hx d)
        (ih (fun y hy => hchunks y (List.mem_cons_of_mem _ hy)) (hfirst.releaseInner d hx))
  | retire d hall _ ih =>
      have hx := hchunks _ (List.mem_cons_self ..)
      have hfirst := hr.firstChunk
      exact outcome_cons hx (fun q hq => same_retirePageInner hq)
        (retirePageInner_restored hfirst.sound.1 hx hall d)
        (ih (fun y hy => hchunks y (List.mem_cons_of_mem _ hy)) (hfirst.retirePageInner d hx hall))

/-! ### Groups -/

theorem addToPage_length (groups : List PageReleaseChunk) (b : Nat) :
    (ThreadCache.addToPage groups b).length ≤ groups.length + 1 := by
  induction groups with
  | nil => exact le_rfl
  | cons g rest ih =>
      unfold ThreadCache.addToPage
      split
      · exact Nat.le_succ _
      · exact Nat.succ_le_succ ih

theorem add_length (groups : List PageCount) (p : Nat) :
    (ThreadCache.countPages.add groups p).length ≤ groups.length + 1 := by
  induction groups with
  | nil => exact le_rfl
  | cons g rest ih =>
      unfold ThreadCache.countPages.add
      split
      · exact Nat.le_succ _
      · exact Nat.succ_le_succ ih

/-- An array with room for every block drops none. -/
theorem foldl_grouped {α : Type} {step : Grouped α → Nat → Grouped α} {add : List α → Nat → List α}
    (hstep : ∀ s b, s.groups.length < maxFlushGroups → step s b = ⟨add s.groups b, s.dropped⟩)
    (hadd : ∀ groups b, (add groups b).length ≤ groups.length + 1) (l : List Nat) (s : Grouped α)
    (hroom : s.groups.length + l.length ≤ maxFlushGroups) :
    l.foldl step s = ⟨l.foldl add s.groups, s.dropped⟩ := by
  induction l generalizing s with
  | nil => rfl
  | cons b rest ih =>
      rw [List.length_cons] at hroom
      have hone := hadd s.groups b
      rw [List.foldl_cons, List.foldl_cons, hstep s b (by omega), ih _ (by show (add s.groups b).length + _ ≤ _; omega)]

theorem foldl_groupBlock (l : List Nat) (hroom : l.length ≤ maxFlushGroups) :
    l.foldl groupBlock ⟨[], 0⟩ = ⟨l.foldl ThreadCache.addToPage [], 0⟩ := by
  refine foldl_grouped (fun s b hlt => ?_) addToPage_length l ⟨[], 0⟩ (by rwa [List.length_nil, Nat.zero_add])
  unfold groupBlock
  rw [decide_eq_true hlt, Bool.or_true, if_pos rfl]

theorem foldl_countBlock (l : List Nat) (hroom : l.length ≤ maxFlushGroups) :
    l.foldl countBlock ⟨[], 0⟩ = ⟨ThreadCache.countPages l, 0⟩ := by
  refine foldl_grouped (fun s b hlt => ?_) (fun groups b => add_length groups (pageOf b)) l ⟨[], 0⟩
    (by rwa [List.length_nil, Nat.zero_add])
  unfold countBlock
  rw [decide_eq_true hlt, Bool.or_true, if_pos rfl]

theorem foldl_addToPage (c : Fin numClasses) (l : List Nat) {groups : List PageReleaseChunk}
    (h : ∀ g ∈ groups, Chunk c g) :
    (∀ g ∈ l.foldl ThreadCache.addToPage groups, Chunk c g) ∧
      chunkBlocks c (l.foldl ThreadCache.addToPage groups) = blocksOf c l + chunkBlocks c groups := by
  induction l generalizing groups with
  | nil => exact ⟨h, (zero_add _).symm⟩
  | cons b rest ih =>
      obtain ⟨hchunks, hblocks⟩ := ThreadCache.addToPage_chunks (b := b) c h
      obtain ⟨hall, hsum⟩ := ih hchunks
      refine ⟨hall, ?_⟩
      rw [List.foldl_cons, hsum, hblocks, blocksOf_cons]
      ac_rfl

/-! ### Batches -/

theorem releaseBatch_given (d : Nat → Discarded) (chunks : List PageReleaseChunk) :
    Given c h chunks (releaseBatch c h d chunks).1 (releaseBatch c h d chunks).2 := by
  induction chunks generalizing h d with
  | nil => exact .nil
  | cons x rest ih =>
      unfold releaseBatch
      dsimp only
      by_cases hall : x.n = (h.header x.page).used
      · rw [if_pos hall]
        exact .retire (d 0) hall (ih _)
      · rw [if_neg hall]
        exact .release (d 0) (ih _)

theorem releaseMany_given (n : Nat) (d : Nat → Discarded) (chunks : List PageReleaseChunk)
    (hn : chunks.length ≤ n) :
    Given c h chunks (releaseMany c n h d chunks).1 (releaseMany c n h d chunks).2 := by
  induction n generalizing h d chunks with
  | zero =>
      rw [List.length_eq_zero_iff.1 (Nat.le_zero.1 hn)]
      exact .nil
  | succ n ih =>
      unfold releaseMany
      split
      · rename_i hempty
        rw [List.isEmpty_iff.1 hempty]
        exact .nil
      · rename_i hsome
        have hpos : 0 < chunks.length := by
          rw [List.isEmpty_iff] at hsome
          exact List.length_pos_of_ne_nil hsome
        have hrest := ih (h := (releaseBatch c h d (chunks.take 128)).1) (fun i => d (i + 128))
          (chunks.drop 128) (by rw [List.length_drop]; omega)
        have hboth := (releaseBatch_given (h := h) (c := c) d (chunks.take 128)).append hrest
        rwa [List.take_append_drop] at hboth

/-- What a flush gave back. -/
structure GivenBack (c : Fin numClasses) (h : SmallHeap) (blocks : List Nat) (r : Flushed) : Prop where
  dropped : r.dropped = 0
  given : ∃ chunks, Given c h chunks r.heap r.fates ∧ (∀ x ∈ chunks, Chunk c x) ∧
    chunkBlocks c chunks = blocksOf c blocks

theorem flushRounds_given (floor n : Nat) (d : Nat → Discarded) (chain : List Nat)
    (hn : chain.length ≤ n) :
    GivenBack c h (chain.take (chain.length - floor)) (flushRounds c floor n h d chain) := by
  induction n generalizing h d chain with
  | zero =>
      rw [List.length_eq_zero_iff.1 (Nat.le_zero.1 hn), List.take_nil]
      exact ⟨rfl, [], .nil, nofun, rfl⟩
  | succ n ih =>
      unfold flushRounds
      split
      · rename_i hle
        rw [Nat.sub_eq_zero_of_le hle]
        exact ⟨rfl, [], .nil, nofun, rfl⟩
      · rename_i hgt
        have hchunk : flushChunk ≤ maxFlushGroups := by decide
        have hsome : 0 < flushChunk := by decide
        have hlength : (chain.take (min flushChunk (chain.length - floor))).length
            = min flushChunk (chain.length - floor) := by
          rw [List.length_take]
          omega
        have hgroups := foldl_groupBlock (chain.take (min flushChunk (chain.length - floor)))
          (by rw [hlength]; exact (Nat.min_le_left _ _).trans hchunk)
        obtain ⟨hchunks, hblocks⟩ := foldl_addToPage c
          (chain.take (min flushChunk (chain.length - floor))) (show ∀ g ∈ [], Chunk c g from nofun)
        dsimp only
        rw [hgroups, hlength]
        dsimp only
        generalize (chain.take (min flushChunk (chain.length - floor))).foldl ThreadCache.addToPage []
          = groups at *
        have hfirst := releaseMany_given (h := h) (c := c) groups.length d groups le_rfl
        obtain ⟨hdropped, chunks, hgiven, hchunks', hblocks'⟩ :=
          ih (h := (releaseMany c groups.length h d groups).1) (fun i => d (i + flushChunk))
            (chain.drop (min flushChunk (chain.length - floor))) (by rw [List.length_drop]; omega)
        refine ⟨?_, groups ++ chunks, hfirst.append hgiven, fun x hx => ?_, ?_⟩
        · rw [hdropped]
        · exact (List.mem_append.1 hx).elim (hchunks x) (hchunks' x)
        · have hnil : chunkBlocks c [] = 0 := rfl
          have hsum : chunkBlocks c (groups ++ chunks) = chunkBlocks c groups + chunkBlocks c chunks := by
            unfold chunkBlocks
            rw [List.map_append, List.sum_append]
          have hcount : chain.length - floor = min flushChunk (chain.length - floor)
              + ((chain.drop (min flushChunk (chain.length - floor))).length - floor) := by
            rw [List.length_drop]
            omega
          rw [hsum, hblocks, hblocks', hnil, add_zero, ← blocksOf_append, ← List.take_add, ← hcount]

/-! ### The flush at exit -/

/-- The flag and the count do not get into each other's way. -/
theorem packed {n : Nat} (hn : n < 2 ^ 15) (retire : Bool) :
    let count := n &&& (0xFFFF ^^^ pageReleaseRetired)
    let packed := count ||| (if retire then pageReleaseRetired else 0)
    count = n ∧ (packed &&& pageReleaseRetired != 0) = retire ∧
      packed &&& (0xFFFF ^^^ pageReleaseRetired) = n := by
  have hmask : 0xFFFF ^^^ pageReleaseRetired = 2 ^ 15 - 1 := by decide
  have hflag : pageReleaseRetired = 2 ^ 15 := rfl
  have hcount : n &&& (2 ^ 15 - 1) = n := by
    rw [Nat.and_two_pow_sub_one_eq_mod]
    exact Nat.mod_eq_of_lt hn
  have hclear : n &&& 2 ^ 15 = 0 := by
    apply Nat.eq_of_testBit_eq
    intro i
    rw [Nat.testBit_and, Nat.testBit_two_pow, Nat.zero_testBit]
    by_cases hi : 15 = i
    · rw [← hi, Nat.testBit_lt_two_pow hn, Bool.false_and]
    · rw [decide_eq_false hi, Bool.and_false]
  dsimp only
  rw [hmask, hcount, hflag]
  refine ⟨rfl, ?_, ?_⟩
  · cases retire with
    | true =>
        rw [if_pos rfl, Nat.and_or_distrib_right, hclear]
        decide
    | false =>
        rw [if_neg Bool.false_ne_true, Nat.or_zero, hclear]
        rfl
  · cases retire with
    | true =>
        rw [if_pos rfl, Nat.and_or_distrib_right, hcount]
        exact Nat.or_zero n
    | false => rw [if_neg Bool.false_ne_true, Nat.or_zero, hcount]

/-- A decided page has its count, and the flag if all its blocks come back. -/
theorem decideRetire_eq {g : PageCount} (hn : g.n < 2 ^ 15) :
    (h.decideRetire g).page = g.page ∧ (h.decideRetire g).chain = [] ∧
      (h.decideRetire g).retired = (g.n == (h.header g.page).used) ∧ (h.decideRetire g).count = g.n := by
  obtain ⟨hcount, -, -⟩ := packed hn true
  obtain ⟨-, hretired, hback⟩ := packed hn (g.n == (h.header g.page).used)
  unfold decideRetire RoutedChunk.retired RoutedChunk.count
  dsimp only at *
  rw [hcount] at *
  exact ⟨rfl, rfl, hretired, hback⟩

/-- The walk links each block up for its page, in the order of the chain. -/
def finish (chain : List Nat) (x : RoutedChunk) : RoutedChunk :=
  if x.retired then x else { x with chain := x.chain ++ chain.filter (pageOf · == x.page) }

theorem link_page (y : RoutedChunk) (b : Nat) :
    (y.link b).page = y.page ∧ (y.link b).retired = y.retired := by
  unfold RoutedChunk.link
  split
  · exact ⟨rfl, rfl⟩
  · exact ⟨rfl, rfl⟩

theorem finish_cons (chain : List Nat) (b : Nat) (y : RoutedChunk) :
    finish chain (if y.page = pageOf b then y.link b else y) = finish (b :: chain) y := by
  by_cases hpage : y.page = pageOf b
  · have hfilter : (b :: chain).filter (pageOf · == y.page) = b :: chain.filter (pageOf · == y.page) :=
      List.filter_cons_of_pos (beq_iff_eq.2 hpage.symm)
    rw [if_pos hpage]
    unfold finish
    rw [(link_page y b).1, (link_page y b).2, hfilter]
    unfold RoutedChunk.link
    cases y.retired with
    | true => rfl
    | false =>
        show { y with chain := (y.chain ++ [b]) ++ _ } = { y with chain := y.chain ++ b :: _ }
        rw [List.append_assoc, List.singleton_append]
  · have hfilter : (b :: chain).filter (pageOf · == y.page) = chain.filter (pageOf · == y.page) :=
      List.filter_cons_of_neg fun heq => hpage (beq_iff_eq.1 heq).symm
    rw [if_neg hpage]
    unfold finish
    rw [hfilter]

/-- With one slot for each page the slot decides the page. -/
theorem modify_eq_map {slots : List RoutedChunk} {i page : Nat} {y : RoutedChunk}
    (hpages : (slots.map RoutedChunk.page).Nodup) (hi : slots[i]? = some y) (hy : y.page = page)
    (f : RoutedChunk → RoutedChunk) :
    slots.modify i f = slots.map fun z => if z.page = page then f z else z := by
  induction slots generalizing i with
  | nil =>
      rw [List.getElem?_nil] at hi
      cases hi
  | cons z rest ih =>
      rw [List.map_cons, List.nodup_cons] at hpages
      cases i with
      | zero =>
          rw [List.getElem?_cons_zero, Option.some.injEq] at hi
          have hrest : rest.map (fun z => if z.page = page then f z else z) = rest := by
            refine (List.map_congr_left fun w hw => ?_).trans (List.map_id rest)
            refine if_neg fun heq => hpages.1 (List.mem_map.2 ⟨w, hw, ?_⟩)
            rw [hi, heq, hy]
          rw [List.map_cons, hrest, hi, if_pos hy]
          rfl
      | succ i =>
          rw [List.getElem?_cons_succ] at hi
          have hne : z.page ≠ page := by
            intro heq
            refine hpages.1 (List.mem_map.2 ⟨y, List.mem_of_getElem? hi, ?_⟩)
            rw [hy, heq]
          rw [List.modify_succ_cons, ih hpages.2 hi, List.map_cons, if_neg hne]

theorem findIdx_slot {slots : List RoutedChunk} {page : Nat}
    (hmem : page ∈ slots.map RoutedChunk.page) :
    ∃ i y, slots.findIdx? (fun g => g.page == page) = some i ∧ slots[i]? = some y ∧ y.page = page := by
  induction slots with
  | nil => cases hmem
  | cons z rest ih =>
      by_cases hz : z.page = page
      · refine ⟨0, z, ?_, rfl, hz⟩
        rw [List.findIdx?_cons, beq_iff_eq.2 hz, if_pos rfl]
      · rw [List.map_cons, List.mem_cons] at hmem
        obtain ⟨i, y, hfound, hy, hpage⟩ := ih (hmem.resolve_left fun heq => hz heq.symm)
        refine ⟨i + 1, y, ?_, hy, hpage⟩
        rw [List.findIdx?_cons, beq_false_of_ne hz, if_neg Bool.false_ne_true, hfound]
        rfl

/-- The walk finds a slot for each block, and that of its page. The induction is on the chain; the slots
keep their pages. -/
theorem route_eq (chain : List Nat) {slots : List RoutedChunk} {last : Option (Nat × Nat)} (dropped : Nat)
    (hpages : (slots.map RoutedChunk.page).Nodup)
    (hall : ∀ b ∈ chain, pageOf b ∈ slots.map RoutedChunk.page)
    (hlast : ∀ page i, last = some (page, i) → ∃ y, slots[i]? = some y ∧ y.page = page) :
    route slots last dropped chain = (slots.map (finish chain), dropped) := by
  induction chain generalizing slots last with
  | nil =>
      have hid : slots.map (finish []) = slots := by
        refine (List.map_congr_left fun y _ => ?_).trans (List.map_id slots)
        unfold finish
        rw [List.filter_nil, List.append_nil]
        split <;> rfl
      rw [hid]
      rfl
  | cons b rest ih =>
      obtain ⟨j, z, hfound, hz, hzpage⟩ := findIdx_slot (hall b (List.mem_cons_self ..))
      obtain ⟨i, y, hslot, hi, hy⟩ : ∃ i y, slotOf slots last b = some i ∧
          slots[i]? = some y ∧ y.page = pageOf b := by
        cases last with
        | none => exact ⟨j, z, hfound, hz, hzpage⟩
        | some x =>
            obtain ⟨page, slot⟩ := x
            by_cases hsame : page = pageOf b
            · obtain ⟨y, hy, hpage⟩ := hlast page slot rfl
              exact ⟨slot, y, if_pos hsame, hy, hpage.trans hsame⟩
            · exact ⟨j, z, (if_neg hsame).trans hfound, hz, hzpage⟩
      have hmodify := modify_eq_map hpages hi hy fun g => g.link b
      have hkeep : (slots.modify i fun g => g.link b).map RoutedChunk.page
          = slots.map RoutedChunk.page := by
        rw [hmodify, List.map_map]
        refine List.map_congr_left fun w _ => ?_
        show (if w.page = pageOf b then w.link b else w).page = w.page
        split
        · exact (link_page w b).1
        · rfl
      unfold route
      rw [hslot]
      dsimp only
      rw [ih (by rwa [hkeep]) (fun b' hb' => by rw [hkeep]; exact hall b' (List.mem_cons_of_mem _ hb')) ?_]
      · rw [hmodify, List.map_map]
        refine congrArg (·, dropped) (List.map_congr_left fun w _ => ?_)
        exact finish_cons rest b w
      · intro page k hk
        cases hk
        refine ⟨y.link b, ?_, (link_page y b).1.trans hy⟩
        rw [List.getElem?_modify_eq, hi]
        rfl

theorem finish_retire {g : PageCount} (chain : List Nat) (hn : g.n < 2 ^ 15)
    (hall : g.n = (h.header g.page).used) :
    (finish chain (h.decideRetire g)).retired = true ∧ (finish chain (h.decideRetire g)).page = g.page := by
  obtain ⟨hpage, -, hretired, -⟩ := decideRetire_eq (h := h) hn
  rw [beq_iff_eq.2 hall] at hretired
  unfold finish
  rw [if_pos hretired]
  exact ⟨hretired, hpage⟩

theorem finish_keep {g : PageCount} (chain : List Nat) (hn : g.n < 2 ^ 15)
    (hsome : g.n ≠ (h.header g.page).used) :
    (finish chain (h.decideRetire g)).retired = false ∧
      (⟨(finish chain (h.decideRetire g)).page, (finish chain (h.decideRetire g)).chain,
        (finish chain (h.decideRetire g)).chain.getLast?.getD 0,
        (finish chain (h.decideRetire g)).count⟩ : PageReleaseChunk) = countedChunk chain g := by
  obtain ⟨hpage, hchain, hretired, hcount⟩ := decideRetire_eq (h := h) hn
  rw [beq_false_of_ne hsome] at hretired
  have hfinish : finish chain (h.decideRetire g)
      = { h.decideRetire g with chain := chain.filter (pageOf · == g.page) } := by
    unfold finish
    rw [hretired, if_neg Bool.false_ne_true, hchain, List.nil_append, hpage]
    rfl
  rw [hfinish]
  refine ⟨hretired, ?_⟩
  unfold countedChunk
  rw [← hpage, ← hcount]
  rfl

/-- The last loop with what the walk has linked up, as it is with the chain itself. The decisions are those
of a heap `h₀` before it. -/
theorem releaseRouted_eq (h₀ : SmallHeap) (chain : List Nat) {groups : List PageCount}
    (hn : ∀ g ∈ groups, g.n < 2 ^ 15) (d : Nat → Discarded) :
    releaseRouted c h d (groups.map fun g => finish chain (h₀.decideRetire g))
      = releaseCounted c chain h d (groups.map fun g => (g, g.n == (h₀.header g.page).used)) := by
  induction groups generalizing h d with
  | nil => rfl
  | cons g rest ih =>
      have hlt := hn g (List.mem_cons_self ..)
      have hrest := fun h' : SmallHeap =>
        ih (h := h') (fun y hy => hn y (List.mem_cons_of_mem _ hy)) fun i => d (i + 1)
      rw [List.map_cons, List.map_cons]
      unfold releaseRouted releaseCounted
      dsimp only
      by_cases hall : g.n = (h₀.header g.page).used
      · obtain ⟨hretired, hpage⟩ := finish_retire (h := h₀) chain hlt hall
        rw [hretired, hpage, beq_iff_eq.2 hall, if_pos rfl, if_pos rfl, hrest]
      · obtain ⟨hretired, hchunk⟩ := finish_keep (h := h₀) chain hlt hall
        have hpage : (finish chain (h₀.decideRetire g)).page = g.page := congrArg PageReleaseChunk.page hchunk
        rw [hretired, if_neg Bool.false_ne_true, hchunk, hpage, beq_false_of_ne hall,
          if_neg Bool.false_ne_true, hrest]
        rfl

/-- With the groups of the chain the walk does what `release_bin_chunks` is for, and drops no block. -/
theorem releaseBinChunksWalk_eq {chain : List Nat} {groups : List PageCount}
    (hcount : Counted chain groups) (hshort : chain.length < 2 ^ 15) (d : Nat → Discarded) :
    h.releaseBinChunksWalk c d chain groups
      = ⟨(h.releaseBinChunks c d chain groups).1, (h.releaseBinChunks c d chain groups).2, 0⟩ := by
  have hn : ∀ g ∈ groups, g.n < 2 ^ 15 := by
    intro g hg
    rw [hcount.n g hg]
    exact (List.length_filter_le _ _).trans_lt hshort
  have hpage : ∀ g ∈ groups, (h.decideRetire g).page = g.page := fun g hg => (decideRetire_eq (hn g hg)).1
  have hpages : (groups.map h.decideRetire).map RoutedChunk.page = groups.map PageCount.page := by
    rw [List.map_map]
    exact List.map_congr_left hpage
  have hrouted : (if (groups.map h.decideRetire).any fun x => !x.retired
      then route (groups.map h.decideRetire) none 0 chain else (groups.map h.decideRetire, 0))
        = (groups.map fun g => finish chain (h.decideRetire g), 0) := by
    split
    · rw [route_eq chain 0 (by rw [hpages]; exact hcount.pages) ?_
        (fun _ _ hlast => absurd hlast.symm (Option.some_ne_none _))]
      · exact congrArg (·, 0) List.map_map
      · intro b hb
        obtain ⟨g, hg, heq⟩ := hcount.all b hb
        rw [hpages, ← heq]
        exact List.mem_map_of_mem hg
    · rename_i hnone
      refine congrArg (·, 0) (List.map_congr_left fun g hg => ?_)
      have hretired : (h.decideRetire g).retired = true := by
        by_contra hkept
        refine hnone (List.any_eq_true.2 ⟨_, List.mem_map_of_mem hg, ?_⟩)
        rw [Bool.not_eq_true] at hkept
        rw [hkept]
        rfl
      exact (if_pos hretired).symm
  unfold releaseBinChunksWalk
  split
  · rename_i hempty
    have hnil : groups = [] := by
      obtain hchain | hgroups := Bool.or_eq_true_iff.1 hempty
      · refine List.eq_nil_iff_forall_not_mem.2 fun g hg => ?_
        obtain ⟨b, hb, -⟩ := hcount.some g hg
        rw [List.isEmpty_iff.1 hchain] at hb
        cases hb
      · exact List.isEmpty_iff.1 hgroups
    rw [hnil]
    rfl
  · dsimp only
    rw [hrouted]
    dsimp only
    rw [releaseRouted_eq h chain hn d]
    rfl

/-- The counted pages are given back one after the other. None of them comes twice, so each is as it was
when it was decided. -/
theorem releaseCounted_given {h₀ : SmallHeap} {chain : List Nat} {groups : List PageCount}
    (hpages : (groups.map PageCount.page).Nodup)
    (hheader : ∀ g ∈ groups, h.header g.page = h₀.header g.page) (d : Nat → Discarded) :
    Given c h (groups.map (countedChunk chain))
      (releaseCounted c chain h d (groups.map fun g => (g, g.n == (h₀.header g.page).used))).1
      (releaseCounted c chain h d (groups.map fun g => (g, g.n == (h₀.header g.page).used))).2 := by
  induction groups generalizing h d with
  | nil => exact .nil
  | cons g rest ih =>
      rw [List.map_cons, List.nodup_cons] at hpages
      have hg := hheader g (List.mem_cons_self ..)
      have hrest : ∀ h' : SmallHeap, (∀ q, q ≠ g.page → h'.pages q = h.pages q) →
          ∀ y ∈ rest, h'.header y.page = h₀.header y.page := by
        intro h' hsame y hy
        have hne : y.page ≠ g.page := fun heq => hpages.1 (List.mem_map.2 ⟨y, hy, heq⟩)
        rw [← hheader y (List.mem_cons_of_mem _ hy)]
        unfold header
        rw [hsame y.page hne]
      rw [List.map_cons, List.map_cons]
      unfold releaseCounted
      dsimp only
      by_cases hall : g.n = (h₀.header g.page).used
      · rw [beq_iff_eq.2 hall, if_pos rfl]
        exact .retire (x := countedChunk chain g) (d 0) (hall.trans (congrArg PageHeader.used hg.symm))
          (ih hpages.2 (hrest _ fun q hq => retirePageInner_pages_of_ne hq _) _)
      · rw [beq_false_of_ne hall, if_neg Bool.false_ne_true]
        exact .release (x := countedChunk chain g) (d 0)
          (ih hpages.2 (hrest _ fun q hq => releaseInner_pages_of_ne (x := countedChunk chain g) hq _) _)

/-- The groups of a chain are given back whole, in the order in which their pages first occur. -/
theorem releaseBinChunksWalk_given {chain : List Nat} {groups : List PageCount}
    (hcount : Counted chain groups) (hshort : chain.length < 2 ^ 15) (d : Nat → Discarded) :
    GivenBack c h chain (h.releaseBinChunksWalk c d chain groups) := by
  rw [releaseBinChunksWalk_eq hcount hshort]
  refine ⟨rfl, groups.map (countedChunk chain), releaseCounted_given hcount.pages (fun _ _ => rfl) d,
    fun x hx => ?_, (blocksOf_eq_chunkBlocks hcount.pages hcount.all).symm⟩
  obtain ⟨g, hg, rfl⟩ := List.mem_map.1 hx
  exact hcount.chunk hg

theorem flushBin_given (d : Nat → Discarded) (floor : Nat) (chain : List Nat) :
    GivenBack c h (chain.take (chain.length - floor)) (h.flushBin c d floor chain) :=
  flushRounds_given floor chain.length d chain le_rfl

theorem flushBinExit_given (d : Nat → Discarded) (chain : List Nat) :
    GivenBack c h chain (h.flushBinExit c d chain) := by
  unfold flushBinExit
  split
  · rename_i hnil
    rw [List.length_eq_zero_iff.1 hnil]
    exact ⟨rfl, [], .nil, nofun, rfl⟩
  · split
    · have hall := flushBin_given (c := c) (h := h) d 0 chain
      rwa [Nat.sub_zero, List.take_length] at hall
    · rename_i hle
      have hroom : chain.length ≤ maxFlushGroups := by
        have hchunk : flushChunk ≤ maxFlushGroups := by decide
        omega
      have hshort : chain.length < 2 ^ 15 := by
        have hchunk : flushChunk < 2 ^ 15 := by decide
        omega
      obtain ⟨hdropped, hgiven⟩ := releaseBinChunksWalk_given (c := c) (h := h)
        (ThreadCache.countPages_counted chain) hshort d
      dsimp only
      rw [foldl_countBlock chain hroom]
      exact ⟨(Nat.zero_add _).trans hdropped, hgiven⟩

theorem releaseSingly_given {chain : List Nat} (d : Nat → Discarded)
    (hok : h.Conserves (out + blocksOf c chain) loose mapped) :
    ∃ chunks, Given c h chunks (h.releaseSingly d chain).1 (h.releaseSingly d chain).2 ∧
      (∀ x ∈ chunks, Chunk c x) ∧ chunkBlocks c chunks = blocksOf c chain := by
  induction chain generalizing h d loose with
  | nil => exact ⟨[], .nil, nofun, rfl⟩
  | cons b rest ih =>
      have hx : Chunk c ⟨pageOf b, [b], b, 1⟩ := by
        refine ⟨fun b' hb' => ?_, rfl, rfl⟩
        rw [List.mem_singleton.1 hb']
      have hcons : blocksOf c (b :: rest) = blocksOf c [b] + blocksOf c rest :=
        blocksOf_append c [b] rest
      have hok' : h.Conserves (out + blocksOf c rest + blocksOf c [b]) loose mapped := by
        rwa [add_assoc, add_comm (blocksOf c rest), ← hcons]
      obtain ⟨g, hp, hcls, -, -⟩ := hok'.chunk_page hx
      have hstep : h.releaseBlocks (d 0) (pageOf b) [b] 1
          = h.releaseInner c (d 0) ⟨pageOf b, [b], b, 1⟩ := by
        unfold releaseBlocks releaseBlocksWithTail
        rw [header_eq hp, hcls]
        rfl
      obtain ⟨chunks, hgiven, hchunks, hblocks⟩ := ih (fun i => d (i + 1))
        (releaseInner_conserves hok' hx (d 0))
      unfold releaseSingly
      rw [hstep]
      refine ⟨⟨pageOf b, [b], b, 1⟩ :: chunks, .release (d 0) hgiven, fun x hmem => ?_, ?_⟩
      · obtain rfl | hmem := List.mem_cons.1 hmem
        · exact hx
        · exact hchunks x hmem
      · rw [hcons, ← hblocks]
        exact List.sum_cons

end SmallHeap

/-! ### The cache's own groups -/

namespace ThreadCache

variable {c left : ThreadCache} {k : Nat} {cls : Fin numClasses} {floor : Nat}

theorem popSmall_blocks {p : Nat} {zeroed : Bool} (hpop : c.popSmall cls = some (p, zeroed, left)) :
    (c.bins cls).blocks = p :: (left.bins cls).blocks := by
  unfold ThreadCache.popSmall at hpop
  split at hpop
  · cases hpop
  · rename_i q z b hb
    cases hpop
    have hbins : (((c.setBin cls b).fault (decide ((c.bins cls).len < 1))).subCached (classSize cls)).bins
        = (c.setBin cls b).bins :=
      (fault_fields _ _).2.1.trans (fault_fields _ _).2.1
    have hself : (c.setBin cls b).bins cls = b := update_self _ _ _
    rw [hbins, hself]
    unfold Bin.pop at hb
    split at hb
    · cases hb
    · rename_i hblocks
      cases hb
      exact hblocks

/-- The pops of one round take the front of the chain and group it. -/
theorem Books.flushPops_front (h : c.Books k) (n : Nat) (groups : List PageReleaseChunk) :
    (c.flushPops cls floor n groups).2
        = ((c.bins cls).blocks.take (min n ((c.bins cls).len - floor))).foldl addToPage groups ∧
      ((c.flushPops cls floor n groups).1.bins cls).blocks
        = (c.bins cls).blocks.drop (min n ((c.bins cls).len - floor)) := by
  induction n generalizing c groups with
  | zero =>
      rw [Nat.zero_min]
      exact ⟨rfl, rfl⟩
  | succ n ih =>
      unfold ThreadCache.flushPops
      split
      · rename_i hle
        rw [Nat.sub_eq_zero_of_le hle, Nat.min_zero]
        exact ⟨rfl, rfl⟩
      · split
        · rename_i hpop
          have hnil := popSmall_none hpop
          rw [hnil, List.take_nil, List.drop_nil]
          exact ⟨rfl, rfl⟩
        · rename_i hgt b zeroed left hpop
          obtain ⟨hleft, -, -, hlen⟩ := h.popSmall hpop
          have hcount : min (n + 1) ((c.bins cls).len - floor)
              = min n ((left.bins cls).len - floor) + 1 := by
            omega
          obtain ⟨hgroups, hblocks⟩ := ih hleft (addToPage groups b)
          rw [hgroups, hblocks, hcount, popSmall_blocks hpop, List.take_succ_cons, List.foldl_cons,
            List.drop_succ_cons]
          exact ⟨rfl, rfl⟩

/-- The round of the flush has the cache's groups, and drops no block. -/
theorem Books.flushPops_round (h : c.Books k) (cls : Fin numClasses) (floor : Nat) :
    ((c.bins cls).blocks.take (min flushChunk ((c.bins cls).blocks.length - floor))).foldl groupBlock ⟨[], 0⟩
      = ⟨(c.flushPops cls floor flushChunk []).2, 0⟩ := by
  have hchunk : flushChunk ≤ maxFlushGroups := by decide
  have hroom : ((c.bins cls).blocks.take (min flushChunk ((c.bins cls).blocks.length - floor))).length
      ≤ maxFlushGroups := by
    rw [List.length_take]
    omega
  rw [SmallHeap.foldl_groupBlock _ hroom, (h.flushPops_front _ _).1, (h.bins cls).len]

theorem Books.flushBinStep_some (h : c.Books k) (hgt : ¬(c.bins cls).len ≤ floor) (calls : List Release) :
    Trimming.flushBinStep cls floor ⟨c, calls⟩
      = some ⟨(c.flushPops cls floor flushChunk []).1,
        calls ++ [.pages cls (c.flushPops cls floor flushChunk []).2]⟩ := by
  have hne : (c.flushPops cls floor flushChunk []).2 ≠ [] := by
    intro hnil
    obtain ⟨-, hzero | hle⟩ := (h.flushPops_len flushChunk []).2 hnil
    · exact absurd hzero (by decide)
    · exact hgt hle
  unfold Trimming.flushBinStep
  rw [if_neg hgt]
  exact if_neg fun hempty => hne (List.isEmpty_iff.1 hempty)

/-- The heap takes the calls of a flush one after the other. -/
def releaseRounds (cls : Fin numClasses) : SmallHeap → (Nat → Discarded) →
    List (List PageReleaseChunk) → SmallHeap × List (Nat × Fate)
  | heap, _, [] => (heap, [])
  | heap, d, chunks :: rest =>
      let (heap, fates) := SmallHeap.releaseMany cls chunks.length heap d chunks
      let (heap, fates') := releaseRounds cls heap (fun i => d (i + flushChunk)) rest
      (heap, fates ++ fates')

theorem Books.flushRounds_simulates (h : c.Books k) {n : Nat} (hn : (c.bins cls).blocks.length ≤ n)
    (heap : SmallHeap) (d : Nat → Discarded) (calls : List Release) :
    let s := Loop.run (Trimming.flushBinStep cls floor) n ⟨c, calls⟩
    (s.cache.bins cls).blocks = (c.bins cls).blocks.drop ((c.bins cls).blocks.length - floor) ∧
      ∃ rounds, s.calls = calls ++ rounds.map (Release.pages cls) ∧
        SmallHeap.flushRounds cls floor n heap d (c.bins cls).blocks
          = ⟨(releaseRounds cls heap d rounds).1, (releaseRounds cls heap d rounds).2, 0⟩ := by
  have hlen := (h.bins cls).len
  induction n generalizing c heap d calls with
  | zero =>
      have hnil := List.length_eq_zero_iff.1 (Nat.le_zero.1 hn)
      rw [hnil, List.drop_nil]
      exact ⟨hnil, [], (List.append_nil calls).symm, rfl⟩
  | succ n ih =>
      by_cases hle : (c.bins cls).len ≤ floor
      · have hdone : Trimming.flushBinStep cls floor ⟨c, calls⟩ = none := if_pos hle
        rw [hlen] at hle
        unfold SmallHeap.flushRounds
        rw [Loop.run_of_none hdone, Nat.sub_eq_zero_of_le hle, if_pos hle]
        exact ⟨rfl, [], (List.append_nil calls).symm, rfl⟩
      · obtain ⟨hleft, -⟩ := @Books.flushPops _ _ cls floor h flushChunk [] fun g hg =>
          absurd hg List.not_mem_nil
        have hblocks : ((c.flushPops cls floor flushChunk []).1.bins cls).blocks
            = (c.bins cls).blocks.drop (min flushChunk ((c.bins cls).len - floor)) :=
          (h.flushPops_front flushChunk []).2
        have hround := h.flushPops_round cls floor
        have hstep := h.flushBinStep_some hle calls
        have hchunk : 0 < flushChunk := by decide
        rw [hlen] at hle hblocks
        have hpopped : ((c.bins cls).blocks.take
            (min flushChunk ((c.bins cls).blocks.length - floor))).length
              = min flushChunk ((c.bins cls).blocks.length - floor) := by
          rw [List.length_take]
          omega
        generalize c.flushPops cls floor flushChunk [] = r at *
        obtain ⟨left, groups⟩ := r
        dsimp only at *
        have hshort : (left.bins cls).blocks.length ≤ n := by
          rw [hblocks, List.length_drop]
          omega
        obtain ⟨hrest, rounds, hcalls, hflushed⟩ := ih hleft hshort
          (SmallHeap.releaseMany cls groups.length heap d groups).1 (fun i => d (i + flushChunk))
          (calls ++ [.pages cls groups]) (hleft.bins cls).len
        unfold SmallHeap.flushRounds
        rw [Loop.run_succ hstep, if_neg hle]
        dsimp only
        rw [hround, hpopped, ← hblocks, hflushed]
        refine ⟨?_, groups :: rounds, ?_, ?_⟩
        · rw [hrest, hblocks, List.drop_drop, List.length_drop]
          congr 1
          omega
        · rw [hcalls, List.append_assoc]
          rfl
        · rfl

/-- **The two flushes of a bin are one.** What the cache hands out in its calls, round by round, is what
the heap groups out of the chain: taking the calls one after the other is the flush of the heap, no block
is dropped, and the cache keeps the rest of the chain. -/
theorem Books.flushBin_simulates (h : c.Books k) (cls : Fin numClasses) (floor : Nat)
    (heap : SmallHeap) (d : Nat → Discarded) (calls : List Release) :
    let s := Trimming.flushBin ⟨c, calls⟩ cls floor
    (s.cache.bins cls).blocks = (c.bins cls).blocks.drop ((c.bins cls).blocks.length - floor) ∧
      ∃ rounds, s.calls = calls ++ rounds.map (Release.pages cls) ∧
        heap.flushBin cls d floor (c.bins cls).blocks
          = ⟨(releaseRounds cls heap d rounds).1, (releaseRounds cls heap d rounds).2, 0⟩ := by
  have hlen := (h.bins cls).len
  unfold Trimming.flushBin SmallHeap.flushBin
  rw [hlen]
  exact h.flushRounds_simulates (Nat.le_refl _) heap d calls

end ThreadCache

namespace SmallHeap

/-! ### All of them agree -/

inductive Whereabouts where
  | linked
  | empty
  | cold
  | unmapped
  deriving DecidableEq

def At (h : SmallHeap) (c : Fin numClasses) (p : Nat) : Whereabouts → Prop
  | .linked => p ∈ (h.lists c).head
  | .empty => p ∈ (h.lists c).empty
  | .cold => p ∈ (h.lists c).cold.map ColdPage.page
  | .unmapped => h.pages p = none

/-- Where a page in this state must be. -/
def whereabouts : Option Page → Whereabouts
  | none => .unmapped
  | some (.cold _) => .cold
  | some (.active g) => if g.inPartial then .linked else .empty

theorem At.eq {w : Whereabouts} (hok : h.Conserves out loose mapped) (hat : At h c p w) :
    w = whereabouts (h.pages p) := by
  cases w with
  | linked =>
      obtain ⟨g, hp, -, hin⟩ := (hok.head c).2 p hat
      rw [hp]
      exact (if_pos hin).symm
  | empty =>
      obtain ⟨g, hp, -, hin, -⟩ := (hok.empty c).2 p hat
      rw [hp]
      exact (if_neg (by rw [hin]; exact Bool.false_ne_true)).symm
  | cold =>
      obtain ⟨x, hx, rfl⟩ := List.mem_map.1 hat
      rw [(hok.cold c).2 x hx]
      rfl
  | unmapped =>
      have hnone : h.pages p = none := hat
      rw [hnone]
      rfl

/-- The blocks are back: every page has its own, and is in exactly one place. -/
structure Comeback (h h' : SmallHeap) (fates : List (Nat × Fate)) (out : Multiset Block)
    (loose mapped : Multiset Nat) (c : Fin numClasses) (blocks : List Nat) : Prop where
  reached : Reached h' out (allUnmapped fates + loose) mapped
  outcome : ∀ p, Outcome h h' fates c p (outAt (blocksOf c blocks) p)
  place : ∀ p, outAt (blocksOf c blocks) p ≠ 0 → ∃! w, At h' c p w

theorem Restored.at {m : Multiset Nat} (hr : Restored h h' fates c p g m) : ∃ w, At h' c p w := by
  obtain hlt | hall := Nat.lt_or_eq_of_le hr.le
  · exact ⟨.linked, (hr.kept hlt).1⟩
  · obtain ⟨hempty, -⟩ | ⟨hcold, -⟩ | ⟨hnone, -⟩ := hr.parked hall
    · exact ⟨.empty, hempty⟩
    · exact ⟨.cold, hcold⟩
    · exact ⟨.unmapped, hnone⟩

theorem Given.comeback {blocks : List Nat} (hgiven : Given c h chunks h' fates)
    (hchunks : ∀ x ∈ chunks, Chunk c x) (hblocks : chunkBlocks c chunks = blocksOf c blocks)
    (hr : Reached h (out + blocksOf c blocks) loose mapped) :
    Comeback h h' fates out loose mapped c blocks := by
  rw [← hblocks] at hr
  obtain ⟨hdone, houtcome⟩ := hgiven.outcome hchunks hr
  rw [hblocks] at houtcome
  refine ⟨hdone, houtcome, fun p hsome => ?_⟩
  obtain ⟨g, hr⟩ := (houtcome p).some hsome
  obtain ⟨w, hat⟩ := hr.at
  exact ⟨w, hat, fun w' hat' => (hat'.eq hdone.sound.1).trans (hat.eq hdone.sound.1).symm⟩

/-- Two heaps have a page alike, up to the order of its free list; an empty one may be parked in
different ways. -/
structure Agree (h h' : SmallHeap) (c : Fin numClasses) (p : Nat) : Prop where
  linked : At h c p .linked ↔ At h' c p .linked
  used : ∀ g g', h.pages p = some (.active g) → h'.pages p = some (.active g') → g.used = g'.used
  free : ∀ g g', h.pages p = some (.active g) → h'.pages p = some (.active g') → g.used ≠ 0 →
    (g.free : Multiset Nat) = g'.free ∧ g.freeCount = g'.freeCount

theorem Restored.not_linked {m : Multiset Nat} (hok : h'.Conserves out loose mapped)
    (hr : Restored h h' fates c p g m) (hall : m.card = g.used) : ¬At h' c p .linked := by
  intro hat
  have hwhere := hat.eq hok
  obtain ⟨hempty, -⟩ | ⟨hcold, -⟩ | ⟨hnone, -⟩ := hr.parked hall
  · exact Whereabouts.noConfusion (hwhere.trans (At.eq (w := .empty) hok hempty).symm)
  · exact Whereabouts.noConfusion (hwhere.trans (At.eq (w := .cold) hok hcold).symm)
  · exact Whereabouts.noConfusion (hwhere.trans (At.eq (c := c) (w := .unmapped) hok hnone).symm)

theorem Restored.used_eq_zero {m : Multiset Nat} {g' : PageHeader} (hr : Restored h h' fates c p g m)
    (hall : m.card = g.used) (hp : h'.pages p = some (.active g')) : g'.used = 0 := by
  obtain ⟨-, g₁, hp₁, -, hback | hreset⟩ | ⟨-, hcold⟩ | ⟨hnone, -⟩ := hr.parked hall
  · cases hp.symm.trans hp₁
    have hused := hback.used
    omega
  · cases hp.symm.trans hp₁
    exact hreset.used
  · cases hp.symm.trans hcold
  · cases hp.symm.trans hnone

theorem Comeback.agree {h₁ h₂ : SmallHeap} {fates₁ fates₂ : List (Nat × Fate)} {blocks : List Nat}
    (hc₁ : Comeback h h₁ fates₁ out loose mapped c blocks)
    (hc₂ : Comeback h h₂ fates₂ out loose mapped c blocks) (p : Nat) : Agree h₁ h₂ c p := by
  by_cases hm : outAt (blocksOf c blocks) p = 0
  · have hs₁ := (hc₁.outcome p).none hm
    have hs₂ := (hc₂.outcome p).none hm
    have hpages : h₁.pages p = h₂.pages p := hs₁.pages.trans hs₂.pages.symm
    refine ⟨(hs₁.head c).trans (hs₂.head c).symm, fun g g' hp hp' => ?_, fun g g' hp hp' _ => ?_⟩
    · cases hp.symm.trans (hpages.trans hp')
      rfl
    · cases hp.symm.trans (hpages.trans hp')
      exact ⟨rfl, rfl⟩
  · obtain ⟨g, hr₁⟩ := (hc₁.outcome p).some hm
    obtain ⟨g', hr₂⟩ := (hc₂.outcome p).some hm
    cases hr₁.page.symm.trans hr₂.page
    obtain hlt | hall := Nat.lt_or_eq_of_le hr₁.le
    · obtain ⟨hhead₁, g₁, hp₁, -, hback₁⟩ := hr₁.kept hlt
      obtain ⟨hhead₂, g₂, hp₂, -, hback₂⟩ := hr₂.kept hlt
      have hused : g₁.used = g₂.used := by
        have hu₁ := hback₁.used
        have hu₂ := hback₂.used
        omega
      have hfree : (g₁.free : Multiset Nat) = g₂.free := hback₁.free.trans hback₂.free.symm
      refine ⟨⟨fun _ => hhead₂, fun _ => hhead₁⟩, fun y y' hy hy' => ?_, fun y y' hy hy' _ => ?_⟩
      · cases hp₁.symm.trans hy
        cases hp₂.symm.trans hy'
        exact hused
      · cases hp₁.symm.trans hy
        cases hp₂.symm.trans hy'
        refine ⟨hfree, ?_⟩
        rw [hback₁.freeCount, hback₂.freeCount]
        exact (Multiset.coe_eq_coe.1 hfree).length_eq
    · refine ⟨⟨fun hat => absurd hat (hr₁.not_linked hc₁.reached.sound.1 hall),
        fun hat => absurd hat (hr₂.not_linked hc₂.reached.sound.1 hall)⟩, fun y y' hy hy' => ?_,
        fun y y' hy _ hused => absurd (hr₁.used_eq_zero hall hy) hused⟩
      exact (hr₁.used_eq_zero hall hy).trans (hr₂.used_eq_zero hall hy').symm

/-- However the blocks of a bin are released, no block is dropped and every page comes to the same:
at exit, by a trim that leaves `floor` blocks, or one block after the other. -/
theorem flushes_agree {chain : List Nat} (hr : Reached h (out + blocksOf c chain) loose mapped)
    (d d' d'' : Nat → Discarded) (floor : Nat) :
    let exit := h.flushBinExit c d chain
    let trim := h.flushBin c d' floor chain
    let popped := chain.take (chain.length - floor)
    let single := h.releaseSingly d'' chain
    let singly := h.releaseSingly d'' popped
    let kept := out + blocksOf c (chain.drop (chain.length - floor))
    (exit.dropped = 0 ∧ Comeback h exit.heap exit.fates out loose mapped c chain ∧
      Comeback h single.1 single.2 out loose mapped c chain ∧ ∀ p, Agree exit.heap single.1 c p) ∧
    (trim.dropped = 0 ∧ Comeback h trim.heap trim.fates kept loose mapped c popped ∧
      Comeback h singly.1 singly.2 kept loose mapped c popped ∧ ∀ p, Agree trim.heap singly.1 c p) := by
  intro exit trim popped single singly kept
  have hr' : Reached h (kept + blocksOf c popped) loose mapped := by
    have hsplit : kept + blocksOf c popped = out + blocksOf c chain := by
      rw [add_assoc, add_comm (blocksOf c _), ← blocksOf_append, List.take_append_drop]
    rwa [hsplit]
  obtain ⟨hexit, _, hgivenExit, hchunksExit, hblocksExit⟩ := flushBinExit_given (c := c) (h := h) d chain
  obtain ⟨htrim, _, hgivenTrim, hchunksTrim, hblocksTrim⟩ :=
    flushBin_given (c := c) (h := h) d' floor chain
  obtain ⟨_, hgivenSingle, hchunksSingle, hblocksSingle⟩ := releaseSingly_given d'' hr.sound.1
  obtain ⟨_, hgivenSingly, hchunksSingly, hblocksSingly⟩ := releaseSingly_given d'' hr'.sound.1
  have hcExit := hgivenExit.comeback hchunksExit hblocksExit hr
  have hcTrim := hgivenTrim.comeback hchunksTrim hblocksTrim hr'
  have hcSingle := hgivenSingle.comeback hchunksSingle hblocksSingle hr
  have hcSingly := hgivenSingly.comeback hchunksSingly hblocksSingly hr'
  exact ⟨⟨hexit, hcExit, hcSingle, hcExit.agree hcSingle⟩, htrim, hcTrim, hcSingly, hcTrim.agree hcSingly⟩

theorem firstRefill_reached (c : Fin numClasses) {page : Nat} (hpage : page % pageSize = 0) :
    Reached (firstRefill c page).1 (0 + blocksOf c (firstRefill c page).2.chain) 0 ({page} + 0) :=
  .takeMapped c true (.map .new hpage (Multiset.notMem_zero page))

/-- A second page behind the first, so that there are six blocks of the largest class outside. -/
def twoPages : SmallHeap := ((firstRefill 45 pageSize).1.takeMapped 45 (2 * pageSize) ⟨[], 0, true⟩).1

theorem twoPages_reached :
    Reached twoPages (0 + blocksOf 45 [98352, 81968, 65584] + blocksOf 45 [163888, 147504, 131120]) 0
      ({2 * pageSize} + ({pageSize} + 0)) := by
  have hfirst := firstRefill_reached 45 (show pageSize % pageSize = 0 by decide)
  have hsecond : ((firstRefill 45 pageSize).1.takeMapped 45 (2 * pageSize) ⟨[], 0, true⟩).2.chain
      = [163888, 147504, 131120] := by
    decide +kernel
  rw [firstRefill_chain] at hfirst
  rw [← hsecond]
  exact .takeMapped 45 true (.map hfirst (by decide) (by decide))

/-- The blocks of two pages in turn, all of them at exit and all but two of them in a trim. -/
theorem flushes_agree_interleaved :
    let chain := [163888, 98352, 147504, 81968, 131120, 65584]
    let single := twoPages.releaseSingly (fun _ => ⟨true, true⟩) chain
    let exit := twoPages.flushBinExit 45 (fun _ => ⟨false, false⟩) chain
    let trim := twoPages.flushBin 45 (fun _ => ⟨false, false⟩) 2 chain
    let singly := twoPages.releaseSingly (fun _ => ⟨true, true⟩) [163888, 98352, 147504, 81968]
    (exit.dropped = 0 ∧ ∀ p, Agree exit.heap single.1 45 p) ∧
      trim.dropped = 0 ∧ ∀ p, Agree trim.heap singly.1 45 p := by
  intro chain single exit trim singly
  have hperm : blocksOf 45 [98352, 81968, 65584] + blocksOf 45 [163888, 147504, 131120]
      = blocksOf 45 chain := by
    rw [← blocksOf_append]
    exact Multiset.coe_eq_coe.2 (List.Perm.map _ (by decide))
  have hr := twoPages_reached
  rw [add_assoc, hperm] at hr
  obtain ⟨⟨hexit, -, -, hagree⟩, htrim, -, -, hagree'⟩ :=
    flushes_agree hr (fun _ => ⟨false, false⟩) (fun _ => ⟨false, false⟩) (fun _ => ⟨true, true⟩) 2
  exact ⟨⟨hexit, hagree⟩, htrim, hagree'⟩


end SmallHeap

end Allox
