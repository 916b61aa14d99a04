import Allox.Proof.Refill

/-!
# The partial lists

A page is marked `in_partial` only while it is in the partial list of its class. Every critical section
of the small heap touches one page at a time, or pages of one list, so it is enough to look at that page.
-/

namespace Allox

open Function

namespace SmallHeap

variable {h h' h'' : SmallHeap} {out : Multiset Block} {loose mapped : Multiset Nat}
  {c : Fin numClasses} {p q : Nat} {g : PageHeader} {d : Discarded} {x : PageReleaseChunk}

/-! ### Other pages -/

/-- Page `q` is as it was, and in the lists it was in. -/
structure Same (h h' : SmallHeap) (q : Nat) : Prop where
  pages : h'.pages q = h.pages q
  head : ∀ c, q ∈ (h'.lists c).head ↔ q ∈ (h.lists c).head
  empty : ∀ c, q ∈ (h'.lists c).empty ↔ q ∈ (h.lists c).empty
  cold : ∀ c, q ∈ (h'.lists c).cold.map ColdPage.page ↔ q ∈ (h.lists c).cold.map ColdPage.page

theorem Same.refl (h : SmallHeap) (q : Nat) : Same h h q :=
  ⟨rfl, fun _ => Iff.rfl, fun _ => Iff.rfl, fun _ => Iff.rfl⟩

theorem Same.trans (hs : Same h h' q) (hs' : Same h' h'' q) : Same h h'' q :=
  ⟨hs'.pages.trans hs.pages, fun c => (hs'.head c).trans (hs.head c),
    fun c => (hs'.empty c).trans (hs.empty c), fun c => (hs'.cold c).trans (hs.cold c)⟩

theorem same_setHeader (hq : q ≠ p) : Same h (h.setHeader p g) q :=
  ⟨setHeader_pages_of_ne hq, fun _ => Iff.rfl, fun _ => Iff.rfl, fun _ => Iff.rfl⟩

theorem same_setPage {x : Option Page} (hq : q ≠ p) :
    Same h { h with pages := update h.pages p x } q :=
  ⟨update_of_ne hq _ _, fun _ => Iff.rfl, fun _ => Iff.rfl, fun _ => Iff.rfl⟩

theorem same_setList {l : ListHead} (hhead : q ∈ l.head ↔ q ∈ (h.lists c).head)
    (hempty : q ∈ l.empty ↔ q ∈ (h.lists c).empty)
    (hcold : q ∈ l.cold.map ColdPage.page ↔ q ∈ (h.lists c).cold.map ColdPage.page) :
    Same h (h.setList c l) q := by
  have hlists : ∀ c', (h.setList c l).lists c' = if c' = c then l else h.lists c' := by
    intro c'
    unfold setList
    split
    · rename_i heq
      rw [heq]
      exact update_self _ _ _
    · rename_i hne
      exact update_of_ne hne _ _
  refine ⟨rfl, fun c' => ?_, fun c' => ?_, fun c' => ?_⟩
  · rw [hlists]
    split
    · rename_i heq
      rw [heq, hhead]
    · rfl
  · rw [hlists]
    split
    · rename_i heq
      rw [heq, hempty]
    · rfl
  · rw [hlists]
    split
    · rename_i heq
      rw [heq, hcold]
    · rfl

theorem same_linkPartial (hq : q ≠ p) : Same h (h.linkPartial c p) q := by
  have hlist : Same h (h.setList c { h.lists c with head := p :: (h.lists c).head }) q := by
    refine same_setList ?_ Iff.rfl Iff.rfl
    rw [List.mem_cons, or_iff_right hq]
  exact hlist.trans (same_setHeader hq)

theorem same_unlinkPartial (hq : q ≠ p) : Same h (h.unlinkPartial c p).1 q := by
  unfold unlinkPartial
  split
  · have hlist : Same h (h.setList c { h.lists c with head := (h.lists c).head.erase p }) q :=
      same_setList (List.mem_erase_of_ne hq) Iff.rfl Iff.rfl
    exact hlist.trans (same_setHeader hq)
  · exact .refl h q

theorem same_parkEmptyPage (hq : q ≠ p) : Same h (h.parkEmptyPage c d p).1 q := by
  have hunlinked : Same h (h.unlinkPartial c p).1 q := same_unlinkPartial hq
  unfold parkEmptyPage
  dsimp only
  generalize (h.unlinkPartial c p).1 = h₁ at *
  split
  · refine hunlinked.trans (same_setList Iff.rfl ?_ Iff.rfl)
    rw [List.mem_cons, or_iff_right hq]
  · split
    · have hlist : Same h₁ (h₁.setList c { h₁.lists c with
          cold := ⟨p, d.physical, d.zeroed⟩ :: (h₁.lists c).cold
          coldBytes := (h₁.lists c).coldBytes + pageSize }) q := by
        refine same_setList Iff.rfl Iff.rfl ?_
        rw [List.map_cons, List.mem_cons, or_iff_right hq]
      exact (hunlinked.trans hlist).trans (same_setPage hq)
    · exact hunlinked.trans (same_setPage hq)

theorem same_releaseInner (hq : q ≠ x.page) : Same h (h.releaseInner c d x).1 q := by
  unfold releaseInner
  dsimp only
  split
  · exact (same_setHeader hq).trans (same_parkEmptyPage hq)
  · split
    · exact same_setHeader hq
    · exact (same_setHeader hq).trans (same_linkPartial hq)

theorem same_retirePageInner (hq : q ≠ p) : Same h (h.retirePageInner c d p).1 q :=
  (same_setHeader hq).trans (same_parkEmptyPage hq)

/-! ### Marked pages are in their list -/

/-- Pages that are marked as partial are in the list. -/
def Listed (h : SmallHeap) : Prop :=
  ∀ p g, h.pages p = some (.active g) → g.inPartial = true → p ∈ (h.lists g.cls).head

theorem listed_of_same (hlisted : Listed h) (hsame : ∀ q, q ≠ p → Same h h' q)
    (hp : ∀ g, h'.pages p = some (.active g) → g.inPartial = true → p ∈ (h'.lists g.cls).head) :
    Listed h' := by
  intro q g hq hin
  by_cases hqp : q = p
  · rw [hqp] at hq ⊢
    exact hp g hq hin
  · have hs := hsame q hqp
    rw [hs.pages] at hq
    exact (hs.head g.cls).2 (hlisted q g hq hin)

theorem setList_self {l : ListHead} : (h.setList c l).lists c = l := update_self _ _ _

theorem linkPartial_head : ((h.linkPartial c p).lists c).head = p :: (h.lists c).head := by
  simp only [linkPartial, setHeader, setList, update_self]

namespace Listed

theorem header (hl : Listed h) (hin : (h.header p).inPartial = true) :
    p ∈ (h.lists (h.header p).cls).head := by
  unfold SmallHeap.header at hin ⊢
  split at hin
  · rename_i g hp
    exact hl p g hp hin
  · cases hin

theorem setHeader (hl : Listed h) (hcls : g.cls = (h.header p).cls)
    (hin : g.inPartial = (h.header p).inPartial) : Listed (h.setHeader p g) := by
  refine listed_of_same hl (fun q hq => same_setHeader hq) fun g' hp hin' => ?_
  cases setHeader_pages.symm.trans hp
  rw [hcls]
  exact hl.header (hin.symm.trans hin')

theorem setFresh (hl : Listed h) (hin : g.inPartial = false) : Listed (h.setHeader p g) := by
  refine listed_of_same hl (fun q hq => same_setHeader hq) fun g' hp hin' => ?_
  cases setHeader_pages.symm.trans hp
  cases hin.symm.trans hin'

theorem setPage {x : Option Page} (hl : Listed h) (hx : ∀ g, x ≠ some (.active g)) :
    Listed { h with pages := update h.pages p x } := by
  refine listed_of_same hl (fun q hq => same_setPage hq) fun g hp _ => ?_
  have hself : update h.pages p x p = x := update_self _ _ _
  exact absurd (hself.symm.trans hp) (hx g)

theorem setList {l : ListHead} (hl : Listed h) (hhead : l.head = (h.lists c).head) :
    Listed (h.setList c l) := by
  intro p g hp hin
  have hmem := hl p g hp hin
  unfold SmallHeap.setList
  dsimp only
  by_cases hc : g.cls = c
  · rw [hc] at hmem ⊢
    rw [update_self, hhead]
    exact hmem
  · rw [update_of_ne hc]
    exact hmem

theorem linkPartial (hl : Listed h) (hcls : (h.header p).cls = c) : Listed (h.linkPartial c p) := by
  refine listed_of_same hl (fun q hq => same_linkPartial hq) fun g hp _ => ?_
  have hpages : (h.linkPartial c p).pages p = some (.active { h.header p with inPartial := true }) :=
    setHeader_pages
  cases hpages.symm.trans hp
  show p ∈ ((h.linkPartial c p).lists (h.header p).cls).head
  rw [hcls, linkPartial_head]
  exact List.mem_cons_self ..

theorem unlinkPartial (hl : Listed h) : Listed (h.unlinkPartial c p).1 := by
  refine listed_of_same hl (fun q hq => same_unlinkPartial hq) fun g hp hin => ?_
  unfold SmallHeap.unlinkPartial at hp ⊢
  split at hp
  · cases setHeader_pages.symm.trans hp
    cases hin
  · rename_i hout
    rw [if_neg hout]
    exact hl p g hp hin

/-! ### Refills -/

theorem fillPage (n : Nat) {f : Fill} (hl : Listed h) : Listed (SmallHeap.fillPage c p n h f).1 := by
  induction n generalizing h f with
  | zero => exact hl
  | succ n ih =>
      unfold SmallHeap.fillPage
      split
      · exact hl
      · dsimp only
        split
        · rename_i b rest _
          have hpopped : Listed (h.setHeader p ((h.header p).popped rest)) := hl.setHeader rfl rfl
          split
          · exact hpopped.unlinkPartial
          · exact ih hpopped
        · split
          · split
            · exact hl.unlinkPartial
            · exact ih (hl.setHeader rfl rfl)
          · exact hl.unlinkPartial

theorem fillPages (n : Nat) {f : Fill} (hl : Listed h) : Listed (SmallHeap.fillPages c n h f).1 := by
  induction n generalizing h f with
  | zero => exact hl
  | succ n ih =>
      unfold SmallHeap.fillPages
      split
      · exact hl
      · split
        · exact hl
        · rename_i p rest _
          dsimp only
          generalize (if (h.header p).virgin = true then f else { f with virgin := false }) = f'
          have hfilled : Listed (SmallHeap.fillPage c p fillPageRounds h f').1 := hl.fillPage _
          split
          · split
            · exact ih hfilled.unlinkPartial
            · exact hfilled.unlinkPartial
          · exact ih hfilled

theorem takeEmpty {f : Fill} (hl : Listed h) (hok : Filled c out loose mapped (h, f)) :
    Listed (h.takeEmpty c f).1 := by
  unfold SmallHeap.takeEmpty
  split
  · rename_i p rest hcount hempty
    obtain ⟨g, hp, hcls, -⟩ := (hok.1.empty c).2 p (hempty ▸ List.mem_cons_self ..)
    have hlist : Listed (h.setList c { h.lists c with
        empty := rest, emptyCount := (h.lists c).emptyCount - 1 }) := hl.setList rfl
    dsimp only
    split
    · refine (Listed.linkPartial (hlist.setFresh ?_) ?_).fillPages _
      · rfl
      · rw [setHeader_header]
        rfl
    · refine (hlist.linkPartial ?_).fillPages _
      exact (congrArg PageHeader.cls (header_eq hp)).trans hcls
  · exact hl

theorem takeCold {f : Fill} (hl : Listed h) : Listed (h.takeCold c f).1 := by
  unfold SmallHeap.takeCold
  split
  · rename_i x rest hcount hcold
    have hlist : Listed (h.setList c { h.lists c with
        cold := rest, coldBytes := (h.lists c).coldBytes - pageSize }) := hl.setList rfl
    refine (Listed.linkPartial (hlist.setFresh ?_) ?_).fillPages _
    · rfl
    · rw [setHeader_header]
      rfl
  · exact hl

theorem takeLocked (hl : Listed h) (hok : h.Conserves out loose mapped) :
    Listed (h.takeLocked c).1 := by
  have hfill : Filled c out loose mapped (h.fillFromList c { chain := [], count := 0, virgin := true }) :=
    fillFromList_filled (hok.filled rfl rfl)
  exact Listed.takeCold ((hl.fillPages _).takeEmpty hfill)

theorem takeMapped {f : Fill} (hl : Listed h) : Listed (h.takeMapped c p f).1 := by
  refine (Listed.linkPartial (hl.setFresh ?_) ?_).fillPages _
  · rfl
  · rw [setHeader_header]
    rfl

/-! ### Releases -/

theorem parkEmptyPage (hl : Listed h) : Listed (h.parkEmptyPage c d p).1 := by
  have hunlinked : Listed (h.unlinkPartial c p).1 := hl.unlinkPartial
  unfold SmallHeap.parkEmptyPage
  dsimp only
  generalize (h.unlinkPartial c p).1 = h₁ at *
  split
  · exact hunlinked.setList rfl
  · split
    · have hlist : Listed (h₁.setList c { h₁.lists c with
          cold := ⟨p, d.physical, d.zeroed⟩ :: (h₁.lists c).cold
          coldBytes := (h₁.lists c).coldBytes + pageSize }) := hunlinked.setList rfl
      exact hlist.setPage fun _ hx => by cases hx
    · exact hunlinked.setPage fun _ hx => by cases hx

theorem releaseInner (hl : Listed h) (hcls : (h.header x.page).cls = c) :
    Listed (h.releaseInner c d x).1 := by
  have hsplice : Listed (h.spliceBlocks x) := hl.setHeader rfl rfl
  rw [releaseInner_eq]
  unfold settlePage
  split
  · exact hsplice.parkEmptyPage
  · split
    · exact hsplice
    · refine hsplice.linkPartial ?_
      unfold spliceBlocks
      rw [setHeader_header]
      exact hcls

theorem retirePageInner (hl : Listed h) : Listed (h.retirePageInner c d p).1 :=
  Listed.parkEmptyPage (hl.setHeader rfl rfl)

end Listed

/-! ### A heap in use -/

/-- What any sequence of critical sections makes of the heap. Pages are mapped and unmapped outside it;
only whole chains of one page that are out come back. -/
inductive Reached : SmallHeap → Multiset Block → Multiset Nat → Multiset Nat → Prop
  | new : Reached .new 0 0 0
  | map {h : SmallHeap} {out : Multiset Block} {loose mapped : Multiset Nat} {p : Nat}
      (hr : Reached h out loose mapped) (haligned : p % pageSize = 0) (hfresh : p ∉ mapped) :
      Reached h out ({p} + loose) ({p} + mapped)
  | unmap {h : SmallHeap} {out : Multiset Block} {loose mapped : Multiset Nat} {p : Nat}
      (hr : Reached h out ({p} + loose) ({p} + mapped)) : Reached h out loose mapped
  | takeLocked {h : SmallHeap} {out : Multiset Block} {loose mapped : Multiset Nat} (c : Fin numClasses)
      (hr : Reached h out loose mapped) :
      Reached (h.takeLocked c).1 (out + blocksOf c (h.takeLocked c).2.chain) loose mapped
  | takeMapped {h : SmallHeap} {out : Multiset Block} {loose mapped : Multiset Nat} {p : Nat}
      (c : Fin numClasses) (virgin : Bool) (hr : Reached h out ({p} + loose) mapped) :
      Reached (h.takeMapped c p ⟨[], 0, virgin⟩).1
        (out + blocksOf c (h.takeMapped c p ⟨[], 0, virgin⟩).2.chain) loose mapped
  | releaseInner {h : SmallHeap} {out : Multiset Block} {loose mapped : Multiset Nat}
      {c : Fin numClasses} {x : PageReleaseChunk} (d : Discarded) (hx : Chunk c x)
      (hr : Reached h (out + blocksOf c x.chain) loose mapped) :
      Reached (h.releaseInner c d x).1 out (unmapped x.page (h.releaseInner c d x).2 + loose) mapped
  | retirePageInner {h : SmallHeap} {out : Multiset Block} {loose mapped : Multiset Nat}
      {c : Fin numClasses} {x : PageReleaseChunk} (d : Discarded) (hx : Chunk c x)
      (hall : x.n = (h.header x.page).used) (hr : Reached h (out + blocksOf c x.chain) loose mapped) :
      Reached (h.retirePageInner c d x.page).1 out
        (unmapped x.page (h.retirePageInner c d x.page).2 + loose) mapped

/-- The books of a heap in use balance, and its marked pages are in their lists. -/
theorem Reached.sound (hr : Reached h out loose mapped) : h.Conserves out loose mapped ∧ Listed h := by
  induction hr with
  | new => exact ⟨new_books, nofun⟩
  | map _ haligned hfresh ih =>
      refine ⟨ih.1.remap (fun q => ?_) ?_ fun q hq => ?_, ih.2⟩
      · rw [Multiset.count_add, Multiset.count_add]
        omega
      · exact Multiset.nodup_cons.2 ⟨hfresh, ih.1.distinct⟩
      · obtain hself | hold := Multiset.mem_add.1 hq
        · rwa [Multiset.mem_singleton.1 hself]
        · exact ih.1.aligned q hold
  | unmap _ ih =>
      refine ⟨ih.1.remap (fun q => ?_) ?_ fun q hq => ?_, ih.2⟩
      · rw [Multiset.count_add, Multiset.count_add]
        omega
      · exact (Multiset.nodup_cons.1 ih.1.distinct).2
      · exact ih.1.aligned q (Multiset.mem_add.2 (.inr hq))
  | takeLocked c _ ih => exact ⟨(takeLocked_filled ih.1).1, ih.2.takeLocked ih.1⟩
  | takeMapped c virgin _ ih => exact ⟨(takeMapped_filled ih.1 rfl rfl).1, ih.2.takeMapped⟩
  | releaseInner d hx _ ih =>
      obtain ⟨g, hp, hcls, -⟩ := ih.1.chunk_page hx
      refine ⟨releaseInner_conserves ih.1 hx d, ih.2.releaseInner ?_⟩
      rw [header_eq hp, hcls]
  | retirePageInner d hx hall _ ih =>
      exact ⟨retirePageInner_conserves ih.1 hx hall d, ih.2.retirePageInner⟩

end SmallHeap

end Allox
