import Allox.Proof.BinFlush
import Allox.Proof.ColdLists

/-!
# Which list a page is in

A page is in the partial list of its class while some of its blocks are outside and some are left, in
the empty list while none is outside, and in no list while all are. So a class runs out of blocks only
when all its pages are full.
-/

namespace Allox

open Function

/-- The class of a page, which a cold one keeps. -/
def Page.cls : Page → Fin numClasses
  | active g => g.cls
  | cold c => c

/-- The counters of a class count its lists, which are within their caps. -/
structure ListHead.Capped (l : ListHead) : Prop where
  emptyCount : l.emptyCount = l.empty.length
  empty : l.empty.length ≤ emptyPageCachePerClass
  coldBytes : l.coldBytes = l.cold.length * pageSize
  slots : l.cold.length ≤ maxColdPageSlots
  bytes : l.coldBytes ≤ maxColdPageBytesPerClass

theorem ListHead.Capped.new :
    Capped { head := [], empty := [], emptyCount := 0, cold := [], coldBytes := 0 } where
  emptyCount := rfl
  empty := by simp
  coldBytes := by simp
  slots := by simp
  bytes := by simp

theorem PageHeader.capacity_pos (g : PageHeader) : 0 < g.capacity := SmallHeap.capacity_pos g.cls

namespace SmallHeap

variable {h h' h'' : SmallHeap} {out : Multiset Block} {loose mapped : Multiset Nat}
  {c : Fin numClasses} {p q : Nat} {g : PageHeader} {d : Discarded} {x : PageReleaseChunk} {f : Fill}

/-! ### One page -/

/-- What the header of a page says of its place. -/
structure Seated (h : SmallHeap) (p : Nat) : Prop where
  opened : ∀ g, h.pages p = some (.active g) → g.inPartial = true →
    p ∈ (h.lists g.cls).head ∧ 0 < g.used ∧ g.used < g.capacity
  closed : ∀ g, h.pages p = some (.active g) → g.inPartial = false →
    g.used = g.capacity ∨ p ∈ (h.lists g.cls).empty
  reinit : ∀ g, h.pages p = some (.active g) → g.needsReinit = true →
    g.inPartial = false ∧ g.used = 0 ∧ g.freeCount = 0
  cold : ∀ c, h.pages p = some (.cold c) → p ∈ (h.lists c).cold.map ColdPage.page

theorem Seated.same (hs : Seated h q) (hsame : Same h h' q) : Seated h' q := by
  refine ⟨fun g hq hin => ?_, fun g hq hin => ?_, fun g hq => ?_, fun c hq => ?_⟩
  · rw [hsame.pages] at hq
    rw [hsame.head]
    exact hs.opened g hq hin
  · rw [hsame.pages] at hq
    rw [hsame.empty]
    exact hs.closed g hq hin
  · rw [hsame.pages] at hq
    exact hs.reinit g hq
  · rw [hsame.pages] at hq
    rw [hsame.cold]
    exact hs.cold c hq

theorem seated_active (hp : h.pages p = some (.active g))
    (hopened : g.inPartial = true → p ∈ (h.lists g.cls).head ∧ 0 < g.used ∧ g.used < g.capacity)
    (hclosed : g.inPartial = false → g.used = g.capacity ∨ p ∈ (h.lists g.cls).empty)
    (hreinit : g.needsReinit = true → g.inPartial = false ∧ g.used = 0 ∧ g.freeCount = 0) :
    Seated h p := by
  refine ⟨fun g' hp' => ?_, fun g' hp' => ?_, fun g' hp' => ?_, fun c hp' => ?_⟩
  · cases hp.symm.trans hp'
    exact hopened
  · cases hp.symm.trans hp'
    exact hclosed
  · cases hp.symm.trans hp'
    exact hreinit
  · cases hp.symm.trans hp'

theorem seated_cold (hp : h.pages p = some (.cold c))
    (hmem : p ∈ (h.lists c).cold.map ColdPage.page) : Seated h p := by
  refine ⟨fun g hp' => ?_, fun g hp' => ?_, fun g hp' => ?_, fun c' hp' => ?_⟩
  · cases hp.symm.trans hp'
  · cases hp.symm.trans hp'
  · cases hp.symm.trans hp'
  · cases hp.symm.trans hp'
    exact hmem

theorem seated_none (hp : h.pages p = none) : Seated h p := by
  refine ⟨fun g hp' => ?_, fun g hp' => ?_, fun g hp' => ?_, fun c' hp' => ?_⟩
  · cases hp.symm.trans hp'
  · cases hp.symm.trans hp'
  · cases hp.symm.trans hp'
  · cases hp.symm.trans hp'

/-- A page in a partial list is not to be initialised again. -/
theorem Seated.not_reinit (hs : Seated h p) (hp : h.pages p = some (.active g))
    (hin : g.inPartial = true) : g.needsReinit = false := by
  rw [← Bool.not_eq_true]
  intro hreinit
  have hout := (hs.reinit g hp hreinit).1
  rw [hin] at hout
  cases hout

theorem Conserves.openList_seated (hok : h.Conserves out loose mapped) (hseated : ∀ q, Seated h q) :
    h.OpenList c := by
  refine hok.openList fun q hq => ?_
  obtain ⟨g, hg, -, hin⟩ := (hok.head c).2 q hq
  rw [header_eq hg]
  exact ((hseated q).opened g hg hin).2.2

/-! ### Refills -/

/-- The first page of a list after its turn. What it was in before does not matter. -/
theorem Turn.drawn_seated {tail : List Nat} (ht : h.Turn p g tail f.count)
    (hreinit : g.needsReinit = false) (hseated : ∀ q, q ≠ p → Seated h q) (q : Nat) :
    Seated (h.drawn p g (share g f.count)) q := by
  by_cases hqp : q = p
  · subst hqp
    obtain ⟨hle, hpos, -⟩ := ht.share_le
    have hleft := ht.opened.left
    have hcapacity : ∀ b, ({ g.gave (share g f.count) with inPartial := b } : PageHeader).capacity
        = g.capacity := fun _ => rfl
    have hused : (g.gave (share g f.count)).used = g.used + share g f.count := rfl
    unfold PageHeader.room at hle
    refine seated_active (drawn_pages ht.listed _) (fun hin => ?_) (fun hout => .inl ?_) fun hre => ?_
    · simp only [Bool.not_eq_true', decide_eq_false_iff_not] at hin
      refine ⟨?_, ?_, ?_⟩
      · show q ∈ ((h.drawn q g (share g f.count)).lists g.cls).head
        rw [drawn_head ht.listed, if_neg hin, ht.head]
        exact List.mem_cons_self
      · dsimp only
        omega
      · rw [hcapacity]
        dsimp only
        omega
    · simp only [Bool.not_eq_false', decide_eq_true_eq] at hout
      rw [hcapacity]
      exact hout
    · cases hreinit.symm.trans hre
  · refine (hseated q hqp).same ?_
    unfold drawn
    split
    · exact (same_setHeader hqp).trans (same_unlinkPartial hqp)
    · exact same_setHeader hqp

/-- The induction is on the rounds. The first page of the list may have been linked just now. -/
theorem fillPages_seated (n : Nat) (hlist : h.OpenList c) (hroom : f.count < refillBatch)
    (hfirst : ∀ p g, (h.lists c).head.head? = some p → h.pages p = some (.active g) →
      g.needsReinit = false)
    (hseated : ∀ q, (h.lists c).head.head? ≠ some q → Seated h q) (q : Nat) :
    Seated (fillPages c (n + 1) h f).1 q := by
  induction n generalizing h f with
  | zero =>
      cases hhead : (h.lists c).head with
      | nil =>
          rw [fillPages_nil _ hhead]
          exact hseated q (by simp [hhead])
      | cons p tail =>
          obtain ⟨g, rfl, ht⟩ := hlist.turn hhead (Nat.not_le.2 hroom)
          rw [fillPages_turn ht]
          refine ht.drawn_seated (hfirst p g (by rw [hhead]; rfl) ht.page) (fun r hr => hseated r ?_) q
          rw [hhead]
          exact fun he => hr (Option.some.inj he).symm
  | succ n ih =>
      cases hhead : (h.lists c).head with
      | nil =>
          rw [fillPages_nil _ hhead]
          exact hseated q (by simp [hhead])
      | cons p tail =>
          obtain ⟨g, rfl, ht⟩ := hlist.turn hhead (Nat.not_le.2 hroom)
          rw [fillPages_turn ht]
          have hdrawn := ht.drawn_seated (hfirst p g (by rw [hhead]; rfl) ht.page) fun r hr =>
            hseated r (by rw [hhead]; exact fun he => hr (Option.some.inj he).symm)
          by_cases hfull : g.used + share g f.count = g.capacity
          · obtain ⟨-, hopen⟩ := ht.openList hlist hfull
            by_cases hmore : (Fill.taking { f with virgin := f.virgin && g.virgin }
                ((g.supply p).take (share g f.count))).count < refillBatch
            · refine ih hopen hmore (fun r y hr hy => ?_) fun r _ => hdrawn r
              obtain ⟨y', hy', -, hin, -⟩ := hopen.page r (List.mem_of_mem_head? hr)
              cases hy.symm.trans hy'
              exact (hdrawn r).not_reinit hy hin
            · rw [fillPages_full _ (Nat.not_lt.1 hmore)]
              exact hdrawn q
          · rw [fillPages_full _ (ht.last hlist hfull rfl).2]
            exact hdrawn q

theorem fillFromList_seated (hok : h.Conserves out loose mapped) (hroom : f.count < refillBatch)
    (hseated : ∀ q, Seated h q) (q : Nat) : Seated (h.fillFromList c f).1 q := by
  refine fillPages_seated _ (hok.openList_seated hseated) hroom (fun p g hp hg => ?_)
    (fun r _ => hseated r) q
  obtain ⟨g', hg', -, hin⟩ := (hok.head c).2 p (List.mem_of_mem_head? hp)
  cases hg.symm.trans hg'
  exact (hseated p).not_reinit hg hin

/-- A list with an open page gives a block. -/
theorem OpenList.fill_pos (hlist : h.OpenList c) (hcount : f.count = 0) (hne : (h.lists c).head ≠ []) :
    0 < (h.fillFromList c f).2.count := by
  obtain ⟨visited, rest, taken, hrefilled⟩ := fillPages_refilled (f := f) _ hlist (Nat.lt_succ_self _)
  have hlength := hrefilled.length
  have hgrown : (h.fillFromList c f).2.count = f.count + taken.length := hrefilled.count
  obtain ⟨p, tail, hhead⟩ := List.exists_cons_of_ne_nil hne
  have hleft := (hlist.open_header (p := p) (by rw [hhead]; exact List.mem_cons_self)).left
  have hroom : 0 < h.roomOf (h.lists c).head := by
    unfold roomOf
    rw [hhead, List.map_cons, List.sum_cons]
    exact Nat.lt_of_lt_of_le (Nat.sub_pos_of_lt hleft) (Nat.le_add_right _ _)
  have hbatch : 0 < refillBatch := by decide
  rw [hcount, Nat.sub_zero] at hlength
  omega

/-- An idle page is about to be linked; everything else is in its place. -/
structure Idle (h : SmallHeap) (c : Fin numClasses) (p : Nat) (out : Multiset Block)
    (loose mapped : Multiset Nat) : Prop where
  conserves : (h.linkPartial c p).Conserves out loose mapped
  page : ∃ g, h.pages p = some (.active g) ∧ g.used = 0 ∧ g.needsReinit = false
  seated : ∀ q, q ≠ p → Seated h q

namespace Idle

theorem head (c : Fin numClasses) : ((h.linkPartial c p).lists c).head.head? = some p := by
  rw [linkPartial_head]
  rfl

theorem openList (hidle : h.Idle c p out loose mapped) : (h.linkPartial c p).OpenList c := by
  refine hidle.conserves.openList fun q hq => ?_
  by_cases hqp : q = p
  · obtain ⟨g, hp, hused, -⟩ := hidle.page
    rw [hqp, header_eq (linkPartial_pages hp)]
    show g.used < g.capacity
    rw [hused]
    exact g.capacity_pos
  · obtain ⟨g, hg, -, hin⟩ := (hidle.conserves.head c).2 q hq
    rw [header_eq hg]
    exact (((hidle.seated q hqp).same (same_linkPartial hqp)).opened g hg hin).2.2

theorem fill_seated (hidle : h.Idle c p out loose mapped) (hcount : f.count = 0) (q : Nat) :
    Seated ((h.linkPartial c p).fillFromList c f).1 q := by
  obtain ⟨g, hp, -, hreinit⟩ := hidle.page
  refine fillPages_seated _ hidle.openList ?_ (fun r y hr hy => ?_) (fun r hr => ?_) q
  · rw [hcount]
    decide
  · cases (head c).symm.trans hr
    cases (linkPartial_pages hp).symm.trans hy
    exact hreinit
  · have hne : r ≠ p := by
      rintro rfl
      exact hr (head c)
    exact (hidle.seated r hne).same (same_linkPartial hne)

/-- The page has a block for the batch. -/
theorem fill_pos (hidle : h.Idle c p out loose mapped) (hcount : f.count = 0) :
    0 < ((h.linkPartial c p).fillFromList c f).2.count := by
  refine hidle.openList.fill_pos hcount fun hnil => ?_
  have hhead := head (h := h) (p := p) c
  rw [hnil] at hhead
  cases hhead

end Idle

/-- `h₁` is `h` but for the idle page `p`, which is out of its list, and is virgin only if `virgin`. -/
structure Woken (h h₁ : SmallHeap) (c : Fin numClasses) (p : Nat) (virgin : Bool) : Prop where
  others : ∀ q, q ≠ p → h₁.pages q = h.pages q
  cold : ∀ c', ∀ y ∈ (h₁.lists c').cold, y ∈ (h.lists c').cold
  page : ∃ g, h₁.pages p = some (.active g) ∧ g.cls = c ∧ (g.virgin = true → virgin = true)

theorem woken_setList {l : ListHead} (hp : h.pages p = some (.active g)) (hcls : g.cls = c)
    (hcold : l.cold = (h.lists c).cold) : Woken h (h.setList c l) c p g.virgin := by
  refine ⟨fun _ _ => rfl, fun c' y hy => ?_, g, hp, hcls, fun hv => hv⟩
  by_cases hc : c' = c
  · rw [hc, setList_self, hcold] at hy
    rwa [hc]
  · rwa [show ((h.setList c l).lists c') = h.lists c' from update_of_ne hc _ _] at hy

theorem Woken.setHeader {virgin virgin' : Bool} {h₁ : SmallHeap} (hw : Woken h h₁ c p virgin)
    (hcls : g.cls = c) (hv : g.virgin = true → virgin' = true) :
    Woken h (h₁.setHeader p g) c p virgin' :=
  ⟨fun q hq => (setHeader_pages_of_ne hq).trans (hw.others q hq), hw.cold, g, setHeader_pages, hcls, hv⟩

theorem takeEmpty_same (hnone : ¬(f.count = 0 ∧ (h.lists c).empty ≠ [])) :
    h.takeEmpty c f = (h, f) := by
  unfold takeEmpty
  split
  · rename_i p rest hcount hempty
    refine absurd ⟨hcount, ?_⟩ hnone
    rw [hempty]
    exact List.cons_ne_nil _ _
  · rfl

/-- The page taken from the empty list, next to the heap without it. -/
theorem takeEmpty_idle {rest : List Nat} (hok : Filled c out loose mapped (h, f))
    (hseated : ∀ q, Seated h q) (hcount : f.count = 0) (hempty : (h.lists c).empty = p :: rest) :
    ∃ (h₁ : SmallHeap) (f₁ : Fill), h.takeEmpty c f = (h₁.linkPartial c p).fillFromList c f₁ ∧
      f₁.count = 0 ∧ f₁.chain = f.chain ∧ h₁.Idle c p out loose mapped ∧
      Woken h h₁ c p (h.header p).virgin := by
  obtain ⟨hcons, -⟩ := hok.conserves hcount
  have hnodup := (hcons.empty c).1
  obtain ⟨g, hp, rfl, hin, hused⟩ := (hcons.empty c).2 p (by rw [hempty]; exact List.mem_cons_self)
  rw [hempty, List.nodup_cons] at hnodup
  have htaken := hcons.shrink (c := g.cls) (l := { h.lists g.cls with
    empty := rest, emptyCount := (h.lists g.cls).emptyCount - 1 }) rfl
    (by rw [hempty]; exact List.sublist_cons_self _ _) (List.Sublist.refl _)
  have hnot : p ∉ ((h.setList g.cls { h.lists g.cls with
      empty := rest, emptyCount := (h.lists g.cls).emptyCount - 1 }).lists g.cls).empty := by
    rw [setList_self]
    exact hnodup.1
  have hrest : ∀ r, r ≠ p → Seated (h.setList g.cls { h.lists g.cls with
      empty := rest, emptyCount := (h.lists g.cls).emptyCount - 1 }) r := by
    intro r hr
    refine (hseated r).same (same_setList Iff.rfl ?_ Iff.rfl)
    rw [hempty, List.mem_cons, or_iff_right hr]
  have hp' : (h.setList g.cls { h.lists g.cls with
      empty := rest, emptyCount := (h.lists g.cls).emptyCount - 1 }).pages p = some (.active g) := hp
  have hwoken : Woken h (h.setList g.cls { h.lists g.cls with
      empty := rest, emptyCount := (h.lists g.cls).emptyCount - 1 }) g.cls p (h.header p).virgin := by
    rw [header_eq hp]
    exact woken_setList hp rfl rfl
  cases hreinit : g.needsReinit with
  | true =>
      have hzero : outAt out p = 0 :=
        Multiset.card_eq_zero.1 ((htaken.page p g hp').used.symm.trans hused)
      have hfresh := htaken.setHeader { PageHeader.init g.cls with virgin := false } out hp' rfl
        hin.symm (fun _ _ => rfl)
        (by rw [hzero]; exact PageHeader.Balanced.init g.cls p false) (fun _ _ => rfl)
        fun _ hb => .inl hb
      have hlinked := hfresh.linkPartial (g := { PageHeader.init g.cls with virgin := false })
        setHeader_pages rfl hnot
      refine ⟨_, { f with virgin := false }, ?_, hcount, rfl, ⟨hlinked, ⟨_, setHeader_pages, rfl, rfl⟩,
        fun r hr => (hrest r hr).same (same_setHeader hr)⟩, hwoken.setHeader rfl fun hv => by cases hv⟩
      simp only [takeEmpty, hcount, hempty, header_eq hp', hreinit, if_true]
  | false =>
      refine ⟨_, { f with virgin := f.virgin && g.virgin }, ?_, hcount, rfl,
        ⟨htaken.linkPartial hp' hin hnot, ⟨g, hp', hused, hreinit⟩, hrest⟩, hwoken⟩
      simp only [takeEmpty, hcount, hempty, header_eq hp', hreinit]
      rfl

theorem takeEmpty_seated (hok : Filled c out loose mapped (h, f)) (hseated : ∀ q, Seated h q) (q : Nat) :
    Seated (h.takeEmpty c f).1 q := by
  by_cases htake : f.count = 0 ∧ (h.lists c).empty ≠ []
  · obtain ⟨p, rest, hempty⟩ := List.exists_cons_of_ne_nil htake.2
    obtain ⟨h₁, f₁, htaken, hcount, -, hidle, -⟩ := takeEmpty_idle hok hseated htake.1 hempty
    rw [htaken]
    exact hidle.fill_seated hcount q
  · rw [takeEmpty_same htake]
    exact hseated q

/-- A page that had no header gets one, and nothing else changes. -/
theorem idle_fresh {g : PageHeader} (hused : g.used = 0)
    (hreinit : g.needsReinit = false)
    (hlinked : ((h.setHeader p g).linkPartial c p).Conserves out loose mapped)
    (hseated : ∀ q, q ≠ p → Seated h q) : (h.setHeader p g).Idle c p out loose mapped :=
  ⟨hlinked, ⟨g, setHeader_pages, hused, hreinit⟩, fun q hq => (hseated q hq).same (same_setHeader hq)⟩

theorem takeCold_idle {y : ColdPage} {rest : List ColdPage} (hok : Filled c out loose mapped (h, f))
    (hseated : ∀ q, Seated h q) (hcount : f.count = 0) (hcold : (h.lists c).cold = y :: rest) :
    ∃ (h₁ : SmallHeap) (f₁ : Fill), h.takeCold c f = (h₁.linkPartial c y.page).fillFromList c f₁ ∧
      f₁.count = 0 ∧ f₁.chain = f.chain ∧ h₁.Idle c y.page out loose mapped ∧
      Woken h h₁ c y.page y.zeroed := by
  obtain ⟨hcons, -⟩ := hok.conserves hcount
  have hnodup := (hcons.cold c).1
  have hy := (hcons.cold c).2 y (by rw [hcold]; exact List.mem_cons_self)
  rw [hcold, List.map_cons, List.nodup_cons] at hnodup
  have htaken := hcons.shrink (c := c) (l := { h.lists c with
    cold := rest, coldBytes := (h.lists c).coldBytes - pageSize }) rfl (List.Sublist.refl _)
    (by rw [hcold]; exact List.sublist_cons_self _ _)
  have hothers : ∀ c', ∀ z ∈ ((h.setList c { h.lists c with
      cold := rest, coldBytes := (h.lists c).coldBytes - pageSize }).lists c').cold,
      z.page ≠ y.page := by
    intro c' z hz he
    by_cases hc : c' = c
    · subst hc
      rw [setList_self] at hz
      exact hnodup.1 (List.mem_map.2 ⟨z, hz, he⟩)
    · have hz' := (htaken.cold c').2 z hz
      rw [he] at hz'
      cases hy.symm.trans hz'
      exact hc rfl
  have hrest : ∀ r, r ≠ y.page → Seated (h.setList c { h.lists c with
      cold := rest, coldBytes := (h.lists c).coldBytes - pageSize }) r := by
    intro r hr
    refine (hseated r).same (same_setList Iff.rfl Iff.rfl ?_)
    rw [hcold, List.map_cons, List.mem_cons, or_iff_right hr]
  have hy' : (h.setList c { h.lists c with
      cold := rest, coldBytes := (h.lists c).coldBytes - pageSize }).pages y.page = some (.cold c) := hy
  have hext := htaken.extents y.page
  simp only [hy', Option.isSome_some, if_true] at hext
  have hfresh := htaken.activate (g := { PageHeader.init c with virgin := y.zeroed }) loose
    (fun g hg => by cases hy'.symm.trans hg) hothers (PageHeader.Balanced.init c y.page y.zeroed)
    hext fun _ _ => rfl
  have hnot : y.page ∉ ((h.setList c { h.lists c with
      cold := rest, coldBytes := (h.lists c).coldBytes - pageSize }).lists c).empty := by
    intro hmem
    obtain ⟨g, hg, -⟩ := (htaken.empty c).2 _ hmem
    cases hy'.symm.trans hg
  refine ⟨_, { f with virgin := y.zeroed }, ?_, hcount, rfl,
    idle_fresh rfl rfl (hfresh.linkPartial setHeader_pages rfl hnot) hrest,
    ⟨fun q hq => setHeader_pages_of_ne hq, fun c' z hz => ?_, _, setHeader_pages, rfl, fun hv => hv⟩⟩
  · simp only [takeCold, hcount, hcold]
  · by_cases hc : c' = c
    · subst hc
      have hz' : z ∈ rest := by
        rw [show (((h.setList c' { h.lists c' with
          cold := rest, coldBytes := (h.lists c').coldBytes - pageSize }).setHeader y.page
            { PageHeader.init c' with virgin := y.zeroed }).lists c').cold = rest from
          congrArg ListHead.cold setList_self] at hz
        exact hz
      rw [hcold]
      exact List.mem_cons_of_mem _ hz'
    · exact (show ((h.setList c { h.lists c with
          cold := rest, coldBytes := (h.lists c).coldBytes - pageSize }).lists c') = h.lists c' from
        update_of_ne hc _ _) ▸ hz

theorem takeCold_seated (hok : Filled c out loose mapped (h, f)) (hseated : ∀ q, Seated h q) (q : Nat) :
    Seated (h.takeCold c f).1 q := by
  by_cases htake : f.count = 0 ∧ (h.lists c).cold ≠ []
  · obtain ⟨y, rest, hcold⟩ := List.exists_cons_of_ne_nil htake.2
    obtain ⟨h₁, f₁, htaken, hcount, -, hidle, -⟩ := takeCold_idle hok hseated htake.1 hcold
    rw [htaken]
    exact hidle.fill_seated hcount q
  · rw [takeCold_same h htake]
    exact hseated q

theorem takeLocked_seated (hok : h.Conserves out loose mapped) (hseated : ∀ q, Seated h q) (q : Nat) :
    Seated (h.takeLocked c).1 q := by
  have hfill : Filled c out loose mapped (h.fillFromList c { chain := [], count := 0, virgin := true }) :=
    fillFromList_filled (hok.filled rfl rfl)
  have hempty := takeEmpty_filled (f := (h.fillFromList c { chain := [], count := 0, virgin := true }).2)
    hfill
  have hfirst : ∀ r, Seated (h.fillFromList c { chain := [], count := 0, virgin := true }).1 r :=
    fillFromList_seated hok (by decide) hseated
  exact takeCold_seated hempty (takeEmpty_seated hfill hfirst) q

theorem takeMapped_seated (hok : h.Conserves out ({p} + loose) mapped) (hcount : f.count = 0)
    (hseated : ∀ q, Seated h q) (q : Nat) : Seated (h.takeMapped c p f).1 q :=
  (idle_fresh (g := .init c) rfl rfl (hok.linkFresh c) fun r _ => hseated r).fill_seated hcount q

/-! ### Releases -/

theorem parkEmptyPage_seated (hp : h.pages p = some (.active g)) (hcls : g.cls = c) (hused : g.used = 0)
    (hreinit : g.needsReinit = true → g.freeCount = 0) (hseated : ∀ q, q ≠ p → Seated h q) (q : Nat) :
    Seated (h.parkEmptyPage c d p).1 q := by
  by_cases hqp : q = p
  · subst hqp
    obtain ⟨hempty, hactive⟩ | ⟨hcold, hpage⟩ | ⟨hnone, -⟩ := parkEmptyPage_parked hp c d
    · refine seated_active hactive (fun hin => ?_) (fun _ => .inr ?_) fun hre => ?_
      · cases hin
      · show q ∈ ((h.parkEmptyPage c d q).1.lists g.cls).empty
        rwa [hcls]
      · exact ⟨rfl, hused, hreinit hre⟩
    · exact seated_cold hpage hcold
    · exact seated_none hnone
  · exact (hseated q hqp).same (same_parkEmptyPage hqp)

theorem releaseInner_seated (hok : h.Conserves (out + blocksOf c x.chain) loose mapped) (hx : Chunk c x)
    (hseated : ∀ q, Seated h q) (q : Nat) : Seated (h.releaseInner c d x).1 q := by
  obtain ⟨g, hp, hcls, hused, hbal⟩ := hok.chunk_page hx
  have hcount := hbal.used
  have hfits := hbal.room
  have hlength : 0 < x.n := by
    rw [hx.n]
    exact List.length_pos_of_ne_nil hx.ne_nil
  have hle : x.n ≤ g.used := by
    rw [hcount, hx.n, Multiset.card_add, Multiset.coe_card]
    exact Nat.le_add_right _ _
  have hreinit : g.needsReinit ≠ true := fun hre => hused ((hseated x.page).reinit g hp hre).2.1
  have hothers : ∀ r, r ≠ x.page → Seated (h.spliceBlocks x) r :=
    fun r hr => (hseated r).same (same_setHeader hr)
  have hpage : (h.spliceBlocks x).pages x.page = some (.active { g with
      virgin := false
      free := spliceAt x.chain x.tail g.free
      freeCount := g.freeCount + x.n
      used := g.used - x.n }) := by
    unfold spliceBlocks
    rw [header_eq hp]
    exact setHeader_pages
  rw [releaseInner_eq]
  unfold settlePage
  rw [header_eq hpage]
  split
  · rename_i hzero
    exact parkEmptyPage_seated hpage hcls hzero (fun hre => absurd hre hreinit) hothers q
  · rename_i hsome
    dsimp only at hsome
    have hroom : 0 < g.used - x.n ∧ g.used - x.n < g.capacity := by omega
    by_cases hqp : q = x.page
    · subst hqp
      split
      · rename_i hin
        refine seated_active hpage (fun _ => ⟨?_, hroom⟩) (fun hout => ?_) fun hre => absurd hre hreinit
        · exact ((hseated x.page).opened g hp hin).1
        · cases hin.symm.trans hout
      · refine seated_active (linkPartial_pages hpage) (fun _ => ⟨?_, hroom⟩) (fun hout => ?_)
          fun hre => absurd hre hreinit
        · show x.page ∈ (((h.spliceBlocks x).linkPartial c x.page).lists g.cls).head
          rw [hcls, linkPartial_head]
          exact List.mem_cons_self
        · cases hout
    · split
      · exact hothers q hqp
      · exact (hothers q hqp).same (same_linkPartial hqp)

theorem retirePageInner_seated (hok : h.Conserves (out + blocksOf c x.chain) loose mapped)
    (hx : Chunk c x) (hseated : ∀ q, Seated h q) (q : Nat) :
    Seated (h.retirePageInner c d x.page).1 q := by
  obtain ⟨g, hp, hcls, -⟩ := hok.chunk_page hx
  have hcls' : (h.header x.page).cls = c := by
    rw [header_eq hp]
    exact hcls
  exact parkEmptyPage_seated
    (g := { h.header x.page with
      virgin := false, needsReinit := true, free := [], freeCount := 0, used := 0 })
    setHeader_pages hcls' rfl (fun _ => rfl) (fun r hr => (hseated r).same (same_setHeader hr)) q

/-! ### Counters and caps -/

/-- The lists of idle pages, with their counters, are the same. -/
def SameIdle (h h' : SmallHeap) : Prop := ∀ c, ∃ head, h'.lists c = { h.lists c with head }

theorem SameIdle.refl (h : SmallHeap) : SameIdle h h := fun c => ⟨(h.lists c).head, rfl⟩

theorem SameIdle.trans (hs : SameIdle h h') (hs' : SameIdle h' h'') : SameIdle h h'' := by
  intro c
  obtain ⟨head, hc⟩ := hs c
  obtain ⟨head', hc'⟩ := hs' c
  exact ⟨head', by rw [hc', hc]⟩

theorem sameIdle_setHead (head : List Nat) : SameIdle h (h.setList c { h.lists c with head }) := by
  intro c'
  by_cases hc : c' = c
  · subst hc
    exact ⟨head, setList_self⟩
  · exact ⟨(h.lists c').head, update_of_ne hc _ _⟩

theorem sameIdle_unlinkPartial : SameIdle h (h.unlinkPartial c p).1 := by
  unfold unlinkPartial
  split
  · exact sameIdle_setHead _
  · exact .refl h

theorem sameIdle_fillPage (n : Nat) : SameIdle h (fillPage c p n h f).1 := by
  induction n generalizing h f with
  | zero => exact .refl h
  | succ n ih =>
      have hset : ∀ g, SameIdle h (h.setHeader p g) := fun _ => .refl h
      unfold fillPage
      split
      · exact .refl h
      · dsimp only
        split
        · split
          · exact (hset _).trans sameIdle_unlinkPartial
          · exact (hset _).trans ih
        · split
          · split
            · exact sameIdle_unlinkPartial
            · exact (hset _).trans ih
          · exact sameIdle_unlinkPartial

theorem sameIdle_fillPages (n : Nat) : SameIdle h (fillPages c n h f).1 := by
  induction n generalizing h f with
  | zero => exact .refl h
  | succ n ih =>
      unfold fillPages
      split
      · exact .refl h
      · split
        · exact .refl h
        · rename_i p rest hhead
          dsimp only
          generalize (if (h.header p).virgin = true then f else { f with virgin := false }) = f₁
          have hpage : SameIdle h (fillPage c p fillPageRounds h f₁).1 := sameIdle_fillPage _
          split
          · split
            · exact (hpage.trans sameIdle_unlinkPartial).trans ih
            · exact hpage.trans sameIdle_unlinkPartial
          · exact hpage.trans ih

theorem sameIdle_linkFill : SameIdle h ((h.linkPartial c p).fillFromList c f).1 :=
  (sameIdle_setHead _).trans (sameIdle_fillPages _)

/-- All classes are within their caps. -/
def Capped (h : SmallHeap) : Prop := ∀ c, (h.lists c).Capped

namespace Capped

theorem same (hcap : Capped h) (hsame : SameIdle h h') : Capped h' := by
  intro c
  obtain ⟨head, hc⟩ := hsame c
  rw [hc]
  exact ⟨(hcap c).emptyCount, (hcap c).empty, (hcap c).coldBytes, (hcap c).slots, (hcap c).bytes⟩

theorem setHeader (hcap : Capped h) : Capped (h.setHeader p g) := hcap

theorem setList {l : ListHead} (hcap : Capped h) (hl : l.Capped) : Capped (h.setList c l) := by
  intro c'
  by_cases hc : c' = c
  · subst hc
    rw [setList_self]
    exact hl
  · have hsame : (h.setList c l).lists c' = h.lists c' := update_of_ne hc _ _
    rw [hsame]
    exact hcap c'

theorem takeEmpty (hcap : Capped h) : Capped (h.takeEmpty c f).1 := by
  unfold SmallHeap.takeEmpty
  split
  · rename_i p rest _ hempty
    have hold := hcap c
    have hcount := hold.emptyCount
    have hle := hold.empty
    rw [hempty, List.length_cons] at hcount hle
    have htaken : Capped (h.setList c { h.lists c with
        empty := rest, emptyCount := (h.lists c).emptyCount - 1 }) := by
      refine hcap.setList ⟨?_, ?_, hold.coldBytes, hold.slots, hold.bytes⟩
      · dsimp only
        omega
      · dsimp only
        omega
    dsimp only
    split
    · exact htaken.setHeader.same sameIdle_linkFill
    · exact htaken.same sameIdle_linkFill
  · exact hcap

theorem takeCold (hcap : Capped h) : Capped (h.takeCold c f).1 := by
  unfold SmallHeap.takeCold
  split
  · rename_i y rest _ hcold
    have hold := hcap c
    have hbytes := hold.coldBytes
    have hslots := hold.slots
    have hmax := hold.bytes
    rw [hcold, List.length_cons] at hbytes hslots
    have hmul : (rest.length + 1) * pageSize = rest.length * pageSize + pageSize := Nat.succ_mul _ _
    have htaken : Capped (h.setList c { h.lists c with
        cold := rest, coldBytes := (h.lists c).coldBytes - pageSize }) := by
      refine hcap.setList ⟨hold.emptyCount, hold.empty, ?_, ?_, ?_⟩
      · dsimp only
        omega
      · dsimp only
        omega
      · dsimp only
        omega
    exact htaken.setHeader.same sameIdle_linkFill
  · exact hcap

theorem takeLocked (hcap : Capped h) : Capped (h.takeLocked c).1 := by
  have hfill : Capped (h.fillFromList c { chain := [], count := 0, virgin := true }).1 :=
    hcap.same (sameIdle_fillPages _)
  exact hfill.takeEmpty.takeCold

theorem takeMapped (hcap : Capped h) : Capped (h.takeMapped c p f).1 :=
  hcap.setHeader.same sameIdle_linkFill

theorem parkEmptyPage (hcap : Capped h) : Capped (h.parkEmptyPage c d p).1 := by
  have hunlinked : Capped (h.unlinkPartial c p).1 := hcap.same sameIdle_unlinkPartial
  unfold SmallHeap.parkEmptyPage
  dsimp only
  generalize (h.unlinkPartial c p).1 = h₁ at *
  have hold := hunlinked c
  have hcount := hold.emptyCount
  have hbytes := hold.coldBytes
  split
  · rename_i hroom
    refine hunlinked.setList ⟨?_, ?_, hold.coldBytes, hold.slots, hold.bytes⟩
    · rw [List.length_cons, hcount]
    · rw [List.length_cons]
      omega
  · split
    · rename_i hroom
      rw [Bool.and_eq_true, decide_eq_true_eq, decide_eq_true_eq] at hroom
      refine hunlinked.setList ⟨hold.emptyCount, hold.empty, ?_, hroom.1, hroom.2⟩
      rw [List.length_cons, Nat.succ_mul, ← hbytes]
    · exact hunlinked

theorem releaseInner (hcap : Capped h) : Capped (h.releaseInner c d x).1 := by
  unfold SmallHeap.releaseInner
  dsimp only
  split
  · exact hcap.setHeader.parkEmptyPage
  · split
    · exact hcap.setHeader
    · exact hcap.setHeader.same (sameIdle_setHead _)

theorem retirePageInner (hcap : Capped h) : Capped (h.retirePageInner c d p).1 :=
  hcap.setHeader.parkEmptyPage

end Capped

/-! ### A heap in use -/

theorem Reached.seated (hr : Reached h out loose mapped) : ∀ q, Seated h q := by
  induction hr with
  | new => exact fun q => seated_none rfl
  | map _ _ _ ih => exact ih
  | unmap _ ih => exact ih
  | takeLocked c hr ih => exact takeLocked_seated hr.sound.1 ih
  | takeMapped c virgin hr ih => exact takeMapped_seated hr.sound.1 rfl ih
  | releaseInner d hx hr ih => exact releaseInner_seated hr.sound.1 hx ih
  | retirePageInner d hx _ hr ih => exact retirePageInner_seated hr.sound.1 hx ih

theorem Reached.capped (hr : Reached h out loose mapped) : Capped h := by
  induction hr with
  | new => exact fun _ => .new
  | map _ _ _ ih => exact ih
  | unmap _ ih => exact ih
  | takeLocked c _ ih => exact ih.takeLocked
  | takeMapped c virgin _ ih => exact ih.takeMapped
  | releaseInner d _ _ ih => exact ih.releaseInner
  | retirePageInner d _ _ _ ih => exact ih.retirePageInner

/-- What is in the lists of a class. -/
structure ListsExact (h : SmallHeap) (c : Fin numClasses) : Prop where
  head : ∀ p, p ∈ (h.lists c).head ↔
    ∃ g, h.pages p = some (.active g) ∧ g.cls = c ∧ 0 < g.used ∧ g.used < g.capacity
  empty : ∀ p, p ∈ (h.lists c).empty ↔ ∃ g, h.pages p = some (.active g) ∧ g.cls = c ∧ g.used = 0
  cold : ∀ p, p ∈ (h.lists c).cold.map ColdPage.page ↔ h.pages p = some (.cold c)
  once : (h.lists c).head.Nodup ∧ (h.lists c).empty.Nodup ∧
    ((h.lists c).cold.map ColdPage.page).Nodup
  reinit : ∀ p g, h.pages p = some (.active g) → g.needsReinit = true → g.used = 0 ∧ g.free = []
  capped : (h.lists c).Capped

theorem Conserves.listsExact (hok : h.Conserves out loose mapped) (hseated : ∀ q, Seated h q)
    (hcapped : Capped h) : h.ListsExact c := by
  refine ⟨fun p => ⟨fun hp => ?_, ?_⟩, fun p => ⟨fun hp => ?_, ?_⟩, fun p => ⟨fun hp => ?_, ?_⟩,
    ⟨(hok.head c).1, (hok.empty c).1, (hok.cold c).1⟩, fun p g hp hre => ?_, hcapped c⟩
  · obtain ⟨g, hg, hcls, hin⟩ := (hok.head c).2 p hp
    exact ⟨g, hg, hcls, ((hseated p).opened g hg hin).2⟩
  · rintro ⟨g, hg, rfl, hpos, hleft⟩
    cases hin : g.inPartial with
    | true => exact ((hseated p).opened g hg hin).1
    | false =>
        rcases (hseated p).closed g hg hin with hfull | hempty
        · omega
        · obtain ⟨g', hg', -, -, hzero⟩ := (hok.empty _).2 p hempty
          cases hg.symm.trans hg'
          omega
  · obtain ⟨g, hg, hcls, -, hzero⟩ := (hok.empty c).2 p hp
    exact ⟨g, hg, hcls, hzero⟩
  · rintro ⟨g, hg, rfl, hzero⟩
    cases hin : g.inPartial with
    | true =>
        have hpos := ((hseated p).opened g hg hin).2.1
        omega
    | false =>
        have hcapacity := g.capacity_pos
        refine ((hseated p).closed g hg hin).resolve_left ?_
        omega
  · obtain ⟨y, hy, rfl⟩ := List.mem_map.1 hp
    exact (hok.cold c).2 y hy
  · exact (hseated p).cold c
  · obtain ⟨-, hzero, hfree⟩ := (hseated p).reinit g hp hre
    refine ⟨hzero, List.length_eq_zero_iff.1 ?_⟩
    rw [← (hok.page p g hp).freeCount, hfree]

/-- **The lists are exact.** Whatever critical sections have run, the counter of a page says which list it
is in, each page is there once, a page that is to be initialised again has nothing carved, and the
lists of idle pages are within their caps. -/
theorem pages_listed (hr : Reached h out loose mapped) (c : Fin numClasses) : h.ListsExact c :=
  hr.sound.1.listsExact hr.seated hr.capped

/-- Of two pages whose blocks are all outside, one gets a block back and the other all three; a third page
is fresh. -/
def mixedPages : SmallHeap :=
  let one := (twoPages.releaseInner 45 ⟨false, false⟩ ⟨pageSize, [98352], 98352, 1⟩).1
  let all := (one.releaseInner 45 ⟨false, false⟩
    ⟨2 * pageSize, [163888, 147504, 131120], 131120, 3⟩).1
  (all.takeMapped 0 (3 * pageSize) ⟨[], 0, true⟩).1

theorem mixedPages_reached : ∃ out loose mapped, Reached mixedPages out loose mapped := by
  have hr := twoPages_reached
  have hback : 0 + blocksOf 45 [98352, 81968, 65584] + blocksOf 45 [163888, 147504, 131120]
      = blocksOf 45 [81968, 65584] + blocksOf 45 [163888, 147504, 131120] + blocksOf 45 [98352] := by
    rw [zero_add, ← blocksOf_append, ← blocksOf_append, ← blocksOf_append]
    exact Multiset.coe_eq_coe.2 (List.Perm.map _ (by decide))
  rw [hback] at hr
  have hone := hr.releaseInner (x := ⟨pageSize, [98352], 98352, 1⟩) ⟨false, false⟩
    ⟨by decide, rfl, rfl⟩
  have hall := hone.releaseInner (x := ⟨2 * pageSize, [163888, 147504, 131120], 131120, 3⟩)
    ⟨false, false⟩ ⟨by decide, rfl, rfl⟩
  exact ⟨_, _, _, .takeMapped 0 true (.map hall (by decide) (by decide))⟩

theorem pages_listed_mixed : ((mixedPages.lists 45).head, (mixedPages.lists 45).empty)
    = ([pageSize], [2 * pageSize]) ∧ mixedPages.ListsExact 45 := by
  obtain ⟨out, loose, mapped, hr⟩ := mixedPages_reached
  exact ⟨by decide +kernel, pages_listed hr 45⟩



/-- A refill under the lock finds no block only if the class has no page in its lists, and then changes
nothing. -/
theorem takeLocked_nil_iff (hok : h.Conserves out loose mapped) (hseated : ∀ q, Seated h q) :
    (h.takeLocked c).2.chain = [] ↔
      (h.lists c).head = [] ∧ (h.lists c).empty = [] ∧ (h.lists c).cold = [] := by
  have hcount := (takeLocked_filled (c := c) hok).2
  have hstart : Filled c out loose mapped (h, { chain := [], count := 0, virgin := true }) :=
    hok.filled rfl rfl
  have hskip : (h.lists c).head = [] → h.fillFromList c { chain := [], count := 0, virgin := true }
      = (h, { chain := [], count := 0, virgin := true }) := fillPages_nil _
  constructor
  · intro hnil
    rw [hnil, List.length_nil] at hcount
    have hhead : (h.lists c).head = [] := by
      by_contra hne
      have hpos := (hok.openList_seated hseated).fill_pos
        (f := { chain := [], count := 0, virgin := true }) rfl hne
      unfold takeLocked at hcount
      dsimp only at hcount
      rw [takeEmpty_same fun ht => hpos.ne' ht.1, takeCold_same _ fun ht => hpos.ne' ht.1] at hcount
      exact hpos.ne' hcount
    have hempty : (h.lists c).empty = [] := by
      by_contra hne
      obtain ⟨p, rest, hcons⟩ := List.exists_cons_of_ne_nil hne
      obtain ⟨h₁, f₁, htaken, hzero, -, hidle, -⟩ := takeEmpty_idle hstart hseated rfl hcons
      have hpos := hidle.fill_pos hzero
      unfold takeLocked at hcount
      rw [hskip hhead] at hcount
      dsimp only at hcount
      rw [htaken, takeCold_same _ fun ht => hpos.ne' ht.1] at hcount
      exact hpos.ne' hcount
    refine ⟨hhead, hempty, ?_⟩
    by_contra hne
    obtain ⟨y, rest, hcons⟩ := List.exists_cons_of_ne_nil hne
    obtain ⟨h₁, f₁, htaken, hzero, -, hidle, -⟩ := takeCold_idle hstart hseated rfl hcons
    have hpos := hidle.fill_pos hzero
    unfold takeLocked at hcount
    rw [hskip hhead] at hcount
    dsimp only at hcount
    rw [takeEmpty_same fun ht => ht.2 hempty] at hcount
    dsimp only at hcount
    rw [htaken] at hcount
    exact hpos.ne' hcount
  · rintro ⟨hhead, hempty, hcold⟩
    unfold takeLocked
    rw [hskip hhead]
    dsimp only
    rw [takeEmpty_same fun ht => ht.2 hempty, takeCold_same h fun ht => ht.2 hcold]

/-- **A page is mapped only when the class is full.** Whatever critical sections have run, a refill under
the lock finds no block exactly when every page of the class is active and has all its blocks outside. -/
theorem class_exhausted (hr : Reached h out loose mapped) (c : Fin numClasses) :
    (h.takeLocked c).2.chain = [] ↔
      ∀ p page, h.pages p = some page → page.cls = c → ∃ g, page = .active g ∧ g.used = g.capacity := by
  have hseated := hr.seated
  have hlists : h.ListsExact c := hr.sound.1.listsExact hseated hr.capped
  rw [takeLocked_nil_iff hr.sound.1 hseated]
  constructor
  · rintro ⟨hhead, hempty, hcold⟩ p page hp hcls
    cases page with
    | active g =>
        have hcls : g.cls = c := hcls
        refine ⟨g, rfl, ?_⟩
        cases hin : g.inPartial with
        | true =>
            have hmem := ((hseated p).opened g hp hin).1
            rw [hcls, hhead] at hmem
            cases hmem
        | false =>
            refine ((hseated p).closed g hp hin).resolve_right fun hmem => ?_
            rw [hcls, hempty] at hmem
            cases hmem
    | cold c' =>
        have hcls : c' = c := hcls
        rw [hcls] at hp
        have hmem := (hlists.cold p).2 hp
        rw [hcold] at hmem
        cases hmem
  · intro hfull
    refine ⟨List.eq_nil_iff_forall_not_mem.2 fun p hp => ?_,
      List.eq_nil_iff_forall_not_mem.2 fun p hp => ?_, List.eq_nil_iff_forall_not_mem.2 fun y hy => ?_⟩
    · obtain ⟨g, hg, hcls, -, hleft⟩ := (hlists.head p).1 hp
      obtain ⟨g', hactive, hused⟩ := hfull p _ hg hcls
      cases hactive
      omega
    · obtain ⟨g, hg, hcls, hzero⟩ := (hlists.empty p).1 hp
      obtain ⟨g', hactive, hused⟩ := hfull p _ hg hcls
      cases hactive
      have hcapacity := g.capacity_pos
      omega
    · obtain ⟨g, hactive, -⟩ := hfull y.page _ ((hlists.cold y.page).1 (List.mem_map.2 ⟨y, hy, rfl⟩)) rfl
      cases hactive

theorem class_exhausted_first : ((firstRefill 45 pageSize).1.takeLocked 45).2.chain = [] ∧
    ∃ g, (firstRefill 45 pageSize).1.pages pageSize = some (.active g) ∧ g.used = g.capacity := by
  have hnone : ((firstRefill 45 pageSize).1.takeLocked 45).2.chain = [] := by decide +kernel
  have hcls : ((firstRefill 45 pageSize).1.pages pageSize).map Page.cls = some 45 := by decide +kernel
  obtain ⟨page, hp, hpage⟩ := Option.map_eq_some_iff.1 hcls
  obtain ⟨g, rfl, hfull⟩ :=
    (class_exhausted (firstRefill_reached 45 (by decide)) 45).1 hnone pageSize page hp hpage
  exact ⟨hnone, g, hp, hfull⟩

end SmallHeap

end Allox
