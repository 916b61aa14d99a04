import Allox.Purge

/-!
# The cold lists

Filling a batch leaves the cold lists alone; a cold entry that is taken leaves its list and the others
stay. A page, span or region that is cooled joins one list, with the report of its discard.
-/

namespace Allox

namespace ColdSlots

variable {a : ColdSlots} {x : ColdPage} {rest : List ColdPage}

theorem list_push (page : Nat) (d : Discarded) :
    (a.push page d).list = ⟨page, d.physical, d.zeroed⟩ :: a.list := by
  have hold : ∀ i ∈ (List.range a.len).reverse, (a.push page d).entry i = a.entry i := by
    intro i hi
    have hne : i ≠ a.len := by
      rw [List.mem_reverse, List.mem_range] at hi
      omega
    simp only [entry, push, Function.update_of_ne hne]
  have hlen : (a.push page d).len = a.len + 1 := rfl
  rw [list, hlen, List.range_succ, List.reverse_append, List.reverse_singleton,
    List.singleton_append, List.map_cons, List.map_congr_left hold]
  simp only [entry, push, Function.update_self, list]

theorem list_eq_cons (h : a.list = x :: rest) :
    a.len ≠ 0 ∧ a.entry (a.len - 1) = x ∧ a.pop.list = rest := by
  cases hlen : a.len with
  | zero => simp [list, hlen] at h
  | succ n =>
      rw [list, hlen, List.range_succ, List.reverse_append, List.reverse_singleton,
        List.singleton_append, List.map_cons, List.cons.injEq] at h
      refine ⟨Nat.succ_ne_zero n, h.1, ?_⟩
      rw [← h.2, list]
      have hpop : a.pop.len = n := by simp [pop, hlen]
      rw [hpop]
      refine List.map_congr_left fun i hi => ?_
      have hne : i ≠ a.len - 1 := by
        rw [List.mem_reverse, List.mem_range] at hi
        omega
      simp only [entry, pop, Function.update_of_ne hne]

theorem list_eq_nil (h : a.list = []) : a.len = 0 := by
  have hlen := congrArg List.length h
  simpa [list] using hlen

end ColdSlots

namespace SmallHeap

variable {h h' : SmallHeap} {c : Fin numClasses} {p : Nat}

/-- The cold lists are the same. -/
def SameCold (h h' : SmallHeap) : Prop := ∀ c, (h'.lists c).cold = (h.lists c).cold

theorem SameCold.refl (h : SmallHeap) : SameCold h h := fun _ => rfl

theorem SameCold.setList {l : ListHead} (hs : SameCold h h') (hl : l.cold = (h'.lists c).cold) :
    SameCold h (h'.setList c l) := by
  intro c'
  by_cases hc : c' = c
  · subst hc
    simpa [SmallHeap.setList, hl] using hs c'
  · simpa [SmallHeap.setList, hc] using hs c'

theorem SameCold.setHeader (hs : SameCold h h') (p : Nat) (g : PageHeader) :
    SameCold h (h'.setHeader p g) := hs

theorem SameCold.linkPartial (hs : SameCold h h') (c : Fin numClasses) (p : Nat) :
    SameCold h (h'.linkPartial c p) := (hs.setList (by rfl)).setHeader _ _

theorem SameCold.unlinkPartial (hs : SameCold h h') (c : Fin numClasses) (p : Nat) :
    SameCold h (h'.unlinkPartial c p).1 := by
  unfold SmallHeap.unlinkPartial
  split
  · exact (hs.setList (by rfl)).setHeader _ _
  · exact hs

theorem SameCold.fillPage (hs : SameCold h h') (n : Nat) (f : Fill) :
    SameCold h (SmallHeap.fillPage c p n h' f).1 := by
  induction n generalizing h' f with
  | zero => exact hs
  | succ n ih =>
      unfold SmallHeap.fillPage
      split
      · exact hs
      · dsimp only
        split
        · split
          · exact (hs.setHeader _ _).unlinkPartial _ _
          · exact ih (hs.setHeader _ _) _
        · split
          · split
            · exact hs.unlinkPartial _ _
            · exact ih (hs.setHeader _ _) _
          · exact hs.unlinkPartial _ _

theorem SameCold.fillPages (hs : SameCold h h') (n : Nat) (f : Fill) :
    SameCold h (SmallHeap.fillPages c n h' f).1 := by
  induction n generalizing h' f with
  | zero => exact hs
  | succ n ih =>
      unfold SmallHeap.fillPages
      split
      · exact hs
      · split
        · exact hs
        · rename_i p rest hhead
          dsimp only
          generalize (if (h'.header p).virgin = true then f else { f with virgin := false }) = f₁
          have hpage : SameCold h (SmallHeap.fillPage c p fillPageRounds h' f₁).1 :=
            hs.fillPage _ _
          split
          · split
            · exact ih (hpage.unlinkPartial _ _) _
            · exact hpage.unlinkPartial _ _
          · exact ih hpage _

theorem SameCold.fillFromList (hs : SameCold h h') (f : Fill) :
    SameCold h (h'.fillFromList c f).1 := hs.fillPages _ _

theorem SameCold.takeEmpty (hs : SameCold h h') (f : Fill) :
    SameCold h (h'.takeEmpty c f).1 := by
  unfold SmallHeap.takeEmpty
  split
  · dsimp only
    refine SameCold.fillFromList (SameCold.linkPartial ?_ _ _) _
    split
    · exact (hs.setList (by rfl)).setHeader _ _
    · exact hs.setList (by rfl)
  · exact hs

/-- A cold page that is taken was the first of its list. -/
theorem takeCold_cold (h : SmallHeap) {f : Fill} {x : ColdPage} {rest : List ColdPage}
    (hcount : f.count = 0) (hcold : (h.lists c).cold = x :: rest) (c' : Fin numClasses) :
    ((h.takeCold c f).1.lists c').cold = if c' = c then rest else (h.lists c').cold := by
  have htaken : h.takeCold c f = SmallHeap.fillFromList
      (((h.setList c { h.lists c with
        cold := rest, coldBytes := (h.lists c).coldBytes - pageSize }).setHeader x.page
        { PageHeader.init c with virgin := x.zeroed }).linkPartial c x.page)
      c { f with virgin := x.zeroed } := by
    simp only [SmallHeap.takeCold, hcount, hcold]
  rw [htaken, SameCold.fillFromList (.linkPartial (.setHeader (.refl _) _ _) _ _) _ c']
  by_cases hc : c' = c
  · subst hc
    simp [SmallHeap.setList]
  · simp [SmallHeap.setList, hc]

theorem takeCold_same (h : SmallHeap) {f : Fill}
    (hnone : ¬(f.count = 0 ∧ (h.lists c).cold ≠ [])) : h.takeCold c f = (h, f) := by
  unfold SmallHeap.takeCold
  split
  · rename_i x rest hcount hcold
    exact absurd ⟨hcount, by simp [hcold]⟩ hnone
  · rfl

/-- A page that is parked goes on the cold list with its report, or the cold lists stay. -/
theorem parkEmptyPage_cold (h : SmallHeap) (c : Fin numClasses) (d : Discarded) (p : Nat) :
    ((h.parkEmptyPage c d p).2 = .cooled d ∧ ∀ c', ((h.parkEmptyPage c d p).1.lists c').cold
        = if c' = c then ⟨p, d.physical, d.zeroed⟩ :: (h.lists c).cold else (h.lists c').cold) ∨
      ((∀ d', (h.parkEmptyPage c d p).2 ≠ .cooled d') ∧ SameCold h (h.parkEmptyPage c d p).1) := by
  have hsame : SameCold h (h.unlinkPartial c p).1 := .unlinkPartial (.refl h) _ _
  unfold SmallHeap.parkEmptyPage
  generalize (h.unlinkPartial c p).1 = h₁ at *
  dsimp only
  split
  · exact .inr ⟨by rintro _ ⟨⟩, hsame.setList (by rfl)⟩
  · split
    · refine .inl ⟨rfl, fun c' => ?_⟩
      by_cases hc : c' = c
      · subst hc
        simp [SmallHeap.setList, hsame c']
      · simp [SmallHeap.setList, hc, hsame c']
    · exact .inr ⟨by rintro _ ⟨⟩, hsame⟩

/-- What a release does to the cold lists: its page joins the one of the class with its report, or they
stay. -/
def Cools (h : SmallHeap) (c : Fin numClasses) (d : Discarded) (page : Nat) (r : SmallHeap × Fate) :
    Prop :=
  (r.2 = .cooled d ∧ ∀ c', (r.1.lists c').cold
      = if c' = c then ⟨page, d.physical, d.zeroed⟩ :: (h.lists c).cold else (h.lists c').cold) ∨
    ((∀ d', r.2 ≠ .cooled d') ∧ SameCold h r.1)

theorem releaseInner_cold (h : SmallHeap) (c : Fin numClasses) (d : Discarded)
    (x : PageReleaseChunk) : h.Cools c d x.page (h.releaseInner c d x) := by
  unfold SmallHeap.releaseInner
  dsimp only
  split
  · exact parkEmptyPage_cold (h.setHeader x.page _) c d x.page
  · split
    · exact .inr ⟨by rintro _ ⟨⟩, fun _ => rfl⟩
    · exact .inr ⟨by rintro _ ⟨⟩, ((SameCold.refl h).setHeader x.page _).linkPartial _ _⟩

theorem releaseChunk_cold (h : SmallHeap) (c : Fin numClasses) (d : Discarded)
    (x : PageReleaseChunk) : h.Cools c d x.page (h.releaseChunk c d x) := by
  unfold SmallHeap.releaseChunk
  split
  · exact parkEmptyPage_cold (h.setHeader x.page _) c d x.page
  · exact releaseInner_cold h c d x

/-- The arrays follow the cold list through a refill. -/
theorem takeSlots_list {a : ColdSlots} (ha : a.list = (h.lists c).cold) :
    (h.takeSlots c a).list = ((h.takeLocked c).1.lists c).cold := by
  have hsame := (SameCold.refl h).fillFromList (c := c) { chain := [], count := 0, virgin := true }
  unfold takeSlots takeLocked
  generalize h.fillFromList c { chain := [], count := 0, virgin := true } = r at *
  have hempty := hsame.takeEmpty (c := c) r.2
  dsimp only
  generalize r.1.takeEmpty c r.2 = r' at *
  rw [← hempty c] at ha
  cases hcold : (r'.1.lists c).cold with
  | nil =>
      rw [hcold] at ha
      have hlen := ColdSlots.list_eq_nil ha
      rw [if_neg fun hboth => hboth.2 hlen, takeCold_same _ fun hboth => hboth.2 hcold, hcold]
      exact ha
  | cons x rest =>
      rw [hcold] at ha
      obtain ⟨hlen, -, hpop⟩ := ColdSlots.list_eq_cons ha
      by_cases hcount : r'.2.count = 0
      · rw [if_pos ⟨hcount, hlen⟩, takeCold_cold _ hcount hcold, if_pos rfl]
        exact hpop
      · rw [if_neg fun hboth => hcount hboth.1, takeCold_same _ fun hboth => hcount hboth.1, hcold]
        exact ha

theorem takeLocked_cold_of_ne {c' : Fin numClasses} (hc : c' ≠ c) :
    ((h.takeLocked c).1.lists c').cold = (h.lists c').cold := by
  have hsame := (SameCold.refl h).fillFromList (c := c) { chain := [], count := 0, virgin := true }
  unfold takeLocked
  generalize h.fillFromList c { chain := [], count := 0, virgin := true } = r at *
  have hempty := hsame.takeEmpty (c := c) r.2
  dsimp only
  generalize r.1.takeEmpty c r.2 = r' at *
  rw [← hempty c']
  by_cases hpop : r'.2.count = 0 ∧ (r'.1.lists c).cold ≠ []
  · obtain ⟨x, rest, hx⟩ := List.exists_cons_of_ne_nil hpop.2
    rw [takeCold_cold _ hpop.1 hx, if_neg hc]
  · rw [takeCold_same _ hpop]

theorem takeMapped_same (h : SmallHeap) (c : Fin numClasses) (raw : Nat) (f : Fill) :
    SameCold h (h.takeMapped c raw f).1 :=
  (((SameCold.refl h).setHeader _ _).linkPartial _ _).fillFromList _

theorem Cools.cold_of_ne {d : Discarded} {r : SmallHeap × Fate} (hr : h.Cools c d p r)
    {c' : Fin numClasses} (hc : c' ≠ c) : (r.1.lists c').cold = (h.lists c').cold := by
  rcases hr with ⟨-, hlists⟩ | ⟨-, hsame⟩
  · rw [hlists, if_neg hc]
  · exact hsame c'

/-- The arrays follow the cold list through a release. -/
theorem Cools.slots {d : Discarded} {r : SmallHeap × Fate} (hr : h.Cools c d p r) {a : ColdSlots}
    (ha : a.list = (h.lists c).cold) : (releaseSlots d p r.2 a).list = (r.1.lists c).cold := by
  unfold releaseSlots
  rcases hr with ⟨hfate, hlists⟩ | ⟨hfate, hsame⟩
  · rw [hfate, hlists, if_pos rfl, ← ha]
    exact ColdSlots.list_push _ _
  · rw [hsame c]
    split
    · rename_i d' hd
      exact absurd hd (hfate d')
    · exact ha

end SmallHeap

namespace SpanHeap

variable {t : SpanTier} {h h' : SpanHeap t} {c : Fin t.num} {s : Nat}

def SameCold (h h' : SpanHeap t) : Prop := ∀ c, (h'.lists c).cold = (h.lists c).cold

theorem SameCold.refl (h : SpanHeap t) : SameCold h h := fun _ => rfl

theorem SameCold.setList {l : SpanList} (hs : SameCold h h') (hl : l.cold = (h'.lists c).cold) :
    SameCold h (h'.setList c l) := by
  intro c'
  by_cases hc : c' = c
  · subst hc
    simpa [SpanHeap.setList, hl] using hs c'
  · simpa [SpanHeap.setList, hc] using hs c'

theorem SameCold.setMaster (hs : SameCold h h') (s : Nat) (m : SpanMaster t) :
    SameCold h (h'.setMaster s m) := by
  unfold SpanHeap.setMaster
  split
  · exact hs
  · exact hs

theorem SameCold.linkPartial (hs : SameCold h h') (c : Fin t.num) (s : Nat) :
    SameCold h (h'.linkPartial c s) := (hs.setList (by rfl)).setMaster _ _

theorem SameCold.unlinkPartial (hs : SameCold h h') (c : Fin t.num) (s : Nat) :
    SameCold h (h'.unlinkPartial c s) := by
  unfold SpanHeap.unlinkPartial
  split
  · exact (hs.setList (by rfl)).setMaster _ _
  · exact hs

theorem SameCold.fillSpans (hs : SameCold h h') (cap n : Nat) (f : Fill) :
    SameCold h (SpanHeap.fillSpans c cap n h' f).1 := by
  induction n generalizing h' f with
  | zero => exact hs
  | succ n ih =>
      unfold SpanHeap.fillSpans
      split
      · exact hs
      · split
        · exact hs
        · dsimp only
          split
          · refine ih ?_ _
            split
            · exact (hs.setMaster _ _).unlinkPartial _ _
            · exact hs.setMaster _ _
          · exact ih (hs.unlinkPartial _ _) _

theorem SameCold.fillFromList (hs : SameCold h h') (f : Fill) :
    SameCold h (h'.fillFromList c f).1 := hs.fillSpans _ _ _

theorem SameCold.takeEmpty (hs : SameCold h h') (f : Fill) :
    SameCold h (h'.takeEmpty c f).1 := by
  unfold SpanHeap.takeEmpty
  split
  · exact ((hs.setList (by rfl)).linkPartial _ _).fillFromList _
  · exact hs

theorem takeCold_cold (arena : Nat → Nat → Bool) (h : SpanHeap t) {f : Fill} {base pages : Nat}
    {rest : List (Nat × Nat)} (hcount : f.count = 0)
    (hcold : (h.lists c).cold = (base, pages) :: rest) (c' : Fin t.num) :
    ((h.takeCold arena c f).1.lists c').cold = if c' = c then rest else (h.lists c').cold := by
  have htaken : h.takeCold arena c f = SpanHeap.fillFromList
      (SpanHeap.linkPartial { h.setList c { h.lists c with
          cold := rest, coldBytes := (h.lists c).coldBytes - pages * pageSize } with
        spans := Function.update h.spans base
          (some (.active { SpanMaster.init arena c base pages with virgin := false })) } c base)
      c { f with virgin := false } := by
    simp only [SpanHeap.takeCold, hcount, hcold]
    rfl
  rw [htaken, SameCold.fillFromList (.linkPartial (.refl _) _ _) _ c']
  by_cases hc : c' = c
  · subst hc
    simp [SpanHeap.setList]
  · simp [SpanHeap.setList, hc]

theorem takeCold_same (arena : Nat → Nat → Bool) (h : SpanHeap t) {f : Fill}
    (hnone : ¬(f.count = 0 ∧ (h.lists c).cold ≠ [])) : h.takeCold arena c f = (h, f) := by
  unfold SpanHeap.takeCold
  split
  · rename_i base pages rest hcount hcold
    exact absurd ⟨hcount, by simp [hcold]⟩ hnone
  · rfl

theorem parkEmptySpan_cold (arena : Nat → Nat → Bool) (h : SpanHeap t) (c : Fin t.num)
    (d : Discarded) (s : Nat) :
    ((h.parkEmptySpan arena c d s).2 = .cooled d ∧
        ∀ c', ((h.parkEmptySpan arena c d s).1.lists c').cold
          = if c' = c then (s, ((h.unlinkPartial c s).master s).npages) :: (h.lists c).cold
            else (h.lists c').cold) ∨
      ((∀ d', (h.parkEmptySpan arena c d s).2 ≠ .cooled d') ∧
        SameCold h (h.parkEmptySpan arena c d s).1) := by
  have hsame : SameCold h (h.unlinkPartial c s) := .unlinkPartial (.refl h) _ _
  unfold SpanHeap.parkEmptySpan
  generalize h.unlinkPartial c s = h₁ at *
  dsimp only
  split
  · exact .inr ⟨by rintro _ ⟨⟩, hsame.setList (by rfl)⟩
  · split
    · refine .inl ⟨rfl, fun c' => ?_⟩
      by_cases hc : c' = c
      · subst hc
        simp [SpanHeap.setList, hsame c']
      · simp [SpanHeap.setList, hc, hsame c']
    · refine .inr ⟨by rintro _ ⟨⟩, ?_⟩
      split
      · exact hsame
      · exact hsame

/-- A span that is cooled goes on the cold list with all of its pages. -/
theorem releaseInner_cold (arena : Nat → Nat → Bool) (c : Fin t.num) {x : ReleaseChunk}
    {m : SpanMaster t} (hs : h.spans x.span = some (.active m)) (d : Discarded) :
    ((h.releaseInner arena c d x).2 = .cooled d ∧
        ∀ c', ((h.releaseInner arena c d x).1.lists c').cold
          = if c' = c then (x.span, m.npages) :: (h.lists c).cold else (h.lists c').cold) ∨
      ((∀ d', (h.releaseInner arena c d x).2 ≠ .cooled d') ∧
        SameCold h (h.releaseInner arena c d x).1) := by
  have hpark : ∀ m' : SpanMaster t, m'.npages = m.npages →
      let r := (h.setMaster x.span m').parkEmptySpan arena c d x.span
      (r.2 = .cooled d ∧ ∀ c', (r.1.lists c').cold
          = if c' = c then (x.span, m.npages) :: (h.lists c).cold else (h.lists c').cold) ∨
        ((∀ d', r.2 ≠ .cooled d') ∧ SameCold h r.1) := by
    intro m' hpages
    have hsame : SameCold h (h.setMaster x.span m') := .setMaster (.refl h) _ _
    have hs' := setMaster_spans m' hs
    generalize h.setMaster x.span m' = h₁ at *
    have hnpages : ((h₁.unlinkPartial c x.span).master x.span).npages = m.npages := by
      rw [master_eq (unlinkPartial_spans hs')]
      exact hpages
    have hpark := parkEmptySpan_cold arena h₁ c d x.span
    rw [hnpages] at hpark
    rcases hpark with ⟨hfate, hlists⟩ | ⟨hfate, hcold⟩
    · refine .inl ⟨hfate, fun c' => ?_⟩
      rw [hlists, hsame c, hsame c']
    · exact .inr ⟨hfate, fun c' => (hcold c').trans (hsame c')⟩
  unfold SpanHeap.releaseInner
  dsimp only
  rw [master_eq hs]
  split
  · exact hpark _ rfl
  · split
    · exact .inr ⟨by rintro _ ⟨⟩, (SameCold.refl h).setMaster _ _⟩
    · exact .inr ⟨by rintro _ ⟨⟩, ((SameCold.refl h).setMaster _ _).linkPartial _ _⟩

end SpanHeap

namespace RegionArray

theorem items_regions {a : RegionArray} {x : TakenRegion} (hx : x ∈ a.items) :
    (x.base, x.pages) ∈ a.regions := by
  obtain ⟨j, hj, rfl⟩ := mem_items.1 hx
  exact ArrayPrefix.mem_upto.2 ⟨j, hj, rfl⟩

end RegionArray

namespace LargeRegionCache

/-- A region that is taken was cold, with these flags, or the cold array stays as it was. -/
theorem takeFit_cold (s : LargeRegionCache) (mapped : Nat) :
    (∃ x, (s.takeFit mapped).2 = some x ∧ s.cold.items = {x} + (s.takeFit mapped).1.cold.items) ∨
      (s.takeFit mapped).1.cold.items = s.cold.items := by
  unfold takeFit
  dsimp only
  split
  · exact .inr rfl
  · rename_i h
    exact .inl ⟨_, rfl, RegionArray.remove_items (RegionArray.exactAt_lt h)⟩
  · exact .inr rfl
  · rename_i h
    exact .inl ⟨_, rfl, RegionArray.remove_items (RegionArray.firstEqual_lt h)⟩
  · exact .inr rfl
  · rename_i h
    exact .inl ⟨_, rfl, RegionArray.remove_items (RegionArray.bestFit_lt h)⟩
  · exact .inr rfl

theorem park_cold (s : LargeRegionCache) (d : Discarded) (base pages mapped : Nat) :
    ((s.park d base pages mapped).2 = .cooled d ∧ (s.park d base pages mapped).1.cold.items
        = {⟨base, pages, d.zeroed, d.physical && !d.zeroed⟩} + s.cold.items) ∨
      ((∀ d', (s.park d base pages mapped).2 ≠ .cooled d') ∧
        (s.park d base pages mapped).1.cold.items = s.cold.items) := by
  unfold park
  split
  · exact .inr ⟨by rintro _ ⟨⟩, rfl⟩
  · split
    · exact .inl ⟨rfl, RegionArray.push_items _ _ _ _ _⟩
    · exact .inr ⟨by rintro _ ⟨⟩, rfl⟩

end LargeRegionCache

end Allox
