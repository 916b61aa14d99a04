import Allox.ZeroedBlocks
import Allox.Proof.PageLists
import Allox.Proof.Overlap

/-!
# Virgin blocks read as zero

A byte is promised to be zero while it is behind the link word of a virgin block in hand or at the bottom of
a bin, of a block that a virgin page still has, or in a page that is fresh or was zeroed by its discard.
No step makes a promise that did not hold, and nothing is written where there is one.
-/

namespace Allox

open Function

/-- The bytes of a page behind its header. -/
def Area (p a : Nat) : Prop := pageOf a = p ∧ p + headerSize ≤ a

theorem pageOf_eq {p a : Nat} (hp : p % pageSize = 0) (hlow : p ≤ a) (hhigh : a < p + pageSize) :
    pageOf a = p := by
  unfold pageOf
  unfold pageSize at *
  omega

/-- A byte of a block is a byte of its page. -/
theorem area_blockAt {p a i : Nat} {g : PageHeader} (hp : p % pageSize = 0) (hi : i < g.capacity)
    (hlow : PageHeader.blockAt p g.cls i ≤ a) (hhigh : a < PageHeader.blockAt p g.cls i + classSize g.cls) :
    Area p a := by
  obtain ⟨hstart, hend⟩ := blockAt_inside p hi
  have hheader : p + headerSize ≤ PageHeader.blockAt p g.cls i := by
    unfold PageHeader.blockAt
    omega
  dsimp only at hstart hend
  exact ⟨pageOf_eq hp (by omega) (by omega), by omega⟩

namespace SmallHeap

variable {h h' h'' : SmallHeap} {out out' : Multiset Block} {loose mapped : Multiset Nat}
  {c : Fin numClasses} {p q a : Nat} {g : PageHeader} {d : Discarded} {x : PageReleaseChunk} {f : Fill}
  {b : Block}

/-- What the heap promises of the blocks it still has, next to those outside. -/
inductive Promises (h : SmallHeap) (out : Multiset Block) (a : Nat) : Prop
  | page (p : Nat) (g : PageHeader) (i : Nat) (hp : h.pages p = some (.active g))
      (hvirgin : g.virgin = true) (hi : i < g.capacity)
      (hout : (⟨g.cls, PageHeader.blockAt p g.cls i⟩ : Block) ∉ out)
      (ha : Block.Interior ⟨g.cls, PageHeader.blockAt p g.cls i⟩ a)
  | cold (c : Fin numClasses) (x : ColdPage) (hx : x ∈ (h.lists c).cold) (hzeroed : x.zeroed = true)
      (ha : Area x.page a)

/-- No page of `h'` is virgin or cold that was not in `h`. -/
structure Fainter (h h' : SmallHeap) : Prop where
  pages : ∀ q g', h'.pages q = some (.active g') → g'.virgin = true →
    ∃ g, h.pages q = some (.active g) ∧ g.virgin = true ∧ g.cls = g'.cls
  cold : ∀ c, ∀ x ∈ (h'.lists c).cold, x ∈ (h.lists c).cold

namespace Fainter

theorem refl (h : SmallHeap) : Fainter h h := ⟨fun _ g hp hv => ⟨g, hp, hv, rfl⟩, fun _ _ hx => hx⟩

theorem trans (hf : Fainter h h') (hf' : Fainter h' h'') : Fainter h h'' := by
  refine ⟨fun q g'' hq hv => ?_, fun c x hx => hf.cold c x (hf'.cold c x hx)⟩
  obtain ⟨g', hq', hv', hcls'⟩ := hf'.pages q g'' hq hv
  obtain ⟨g, hq, hv, hcls⟩ := hf.pages q g' hq' hv'
  exact ⟨g, hq, hv, hcls.trans hcls'⟩

theorem setHeader {g' : PageHeader} (hp : h.pages p = some (.active g)) (hcls : g.cls = g'.cls)
    (hv : g'.virgin = true → g.virgin = true) : Fainter h (h.setHeader p g') := by
  refine ⟨fun q y hq hy => ?_, fun _ _ hx => hx⟩
  by_cases hqp : q = p
  · subst hqp
    cases setHeader_pages.symm.trans hq
    exact ⟨g, hp, hv hy, hcls⟩
  · rw [setHeader_pages_of_ne hqp] at hq
    exact ⟨y, hq, hy, rfl⟩

theorem setList {l : ListHead} (hcold : l.cold = (h.lists c).cold) : Fainter h (h.setList c l) := by
  refine ⟨fun _ g hp hv => ⟨g, hp, hv, rfl⟩, fun c' y hy => ?_⟩
  by_cases hc : c' = c
  · rw [hc, setList_self, hcold] at hy
    rwa [hc]
  · rwa [show ((h.setList c l).lists c') = h.lists c' from update_of_ne hc _ _] at hy

theorem linkPartial (hp : h.pages p = some (.active g)) : Fainter h (h.linkPartial c p) := by
  have hlist : Fainter h (h.setList c { h.lists c with head := p :: (h.lists c).head }) := setList rfl
  have hg : (h.setList c { h.lists c with head := p :: (h.lists c).head }).header p = g := header_eq hp
  exact hlist.trans (setHeader hp (congrArg PageHeader.cls hg).symm
    fun hv => (congrArg PageHeader.virgin hg).symm.trans hv)

theorem unlinkPartial (hp : h.pages p = some (.active g)) : Fainter h (h.unlinkPartial c p).1 := by
  unfold SmallHeap.unlinkPartial
  split
  · have hlist : Fainter h (h.setList c { h.lists c with head := (h.lists c).head.erase p }) := setList rfl
    have hg : (h.setList c { h.lists c with head := (h.lists c).head.erase p }).header p = g :=
      header_eq hp
    exact hlist.trans (setHeader hp (congrArg PageHeader.cls hg).symm
      fun hv => (congrArg PageHeader.virgin hg).symm.trans hv)
  · exact refl h

end Fainter

/-- What is promised afterwards was promised before, if nothing came in. -/
theorem Promises.fainter (hf : Fainter h h') (hsub : ∀ b ∈ out, b ∈ out') (ha : h'.Promises out' a) :
    h.Promises out a := by
  cases ha with
  | page p g' i hp hvirgin hi hout ha =>
      obtain ⟨g, hp, hv, hcls⟩ := hf.pages p g' hp hvirgin
      rw [← hcls] at hout ha
      refine .page p g i hp hv ?_ (fun hb => hout (hsub _ hb)) ha
      rwa [PageHeader.capacity, hcls]
  | cold c x hx hzeroed ha => exact .cold c x (hf.cold c x hx) hzeroed ha

/-! ### Refills -/

theorem Turn.drawn_fainter {tail : List Nat} {count : Nat} (ht : h.Turn p g tail count) (k : Nat) :
    Fainter h (h.drawn p g k) := by
  have hgave : Fainter h (h.setHeader p (g.gave k)) := Fainter.setHeader ht.page rfl fun hv => hv
  unfold drawn
  split
  · exact hgave.trans (Fainter.unlinkPartial setHeader_pages)
  · exact hgave

/-- The induction is on the rounds. -/
theorem fillPages_fainter (n : Nat) (hlist : h.OpenList c) : Fainter h (fillPages c n h f).1 := by
  induction n generalizing h f with
  | zero => exact .refl h
  | succ n ih =>
      by_cases hroom : refillBatch ≤ f.count
      · rw [fillPages_full _ hroom]
        exact .refl h
      · cases hhead : (h.lists c).head with
        | nil =>
            rw [fillPages_nil _ hhead]
            exact .refl h
        | cons p tail =>
            obtain ⟨g, rfl, ht⟩ := hlist.turn hhead hroom
            rw [fillPages_turn ht]
            have hdrawn := ht.drawn_fainter (share g f.count)
            by_cases hfull : g.used + share g f.count = g.capacity
            · exact hdrawn.trans (ih (ht.openList hlist hfull).2)
            · rw [fillPages_full _ (ht.last hlist hfull rfl).2]
              exact hdrawn

/-- No block is outside twice. -/
theorem Conserves.nodup_out (hok : h.Conserves out loose mapped) : out.Nodup := by
  rw [Multiset.nodup_iff_ne_cons_cons]
  rintro b rest rfl
  have hsep : Separate (b.addr, classSize b.cls) (b.addr, classSize b.cls) := hok.separate
  have hsize := classSize_pos b.cls
  unfold Separate at hsep
  dsimp only at hsep
  omega

/-- A batch that is reported virgin was promised. -/
theorem OpenList.promises_chain (hlist : h.OpenList c) (hok : h.Conserves out loose mapped)
    (hcount : f.count = 0) (hchain : f.chain = []) (hvirgin : (h.fillFromList c f).2.virgin = true)
    {p : Nat} (hp : p ∈ (h.fillFromList c f).2.chain) (ha : Block.Interior ⟨c, p⟩ a) :
    h.Promises out a := by
  obtain ⟨visited, rest, taken, hr⟩ := fillPages_refilled (f := f) _ hlist (Nat.lt_succ_self _)
  have hfilled : Filled c out loose mapped (h.fillFromList c f) :=
    fillFromList_filled (hok.filled hcount hchain)
  have htaken : p ∈ taken := by
    have hmem : p ∈ taken.reverse ++ f.chain := hr.chain ▸ hp
    simpa [hchain] using hmem
  have hvisited := (hr.supplied p htaken).1
  obtain ⟨g, hg, rfl, -⟩ := hlist.page (pageOf p) (by rw [hr.list]; exact List.mem_append_left _ hvisited)
  have hv : g.virgin = true := by
    have hall := hr.virgin
    rw [show (fillPages g.cls ((h.lists g.cls).head.length + 1) h f).2.virgin = true from hvirgin] at hall
    have hboth := Bool.and_eq_true_iff.1 hall.symm
    have hpage := List.all_eq_true.1 hboth.2 _ hvisited
    rwa [header_eq hg] at hpage
  have hblock : (⟨g.cls, p⟩ : Block) ∈ blocksOf g.cls (h.fillFromList g.cls f).2.chain :=
    mem_blocksOf.2 ⟨rfl, hp⟩
  obtain ⟨g', i, -, hcls, -, hi, haddr⟩ := hfilled.1.placed (Multiset.mem_add.2 (.inr hblock))
  have hcls : g'.cls = g.cls := hcls
  have haddr : p = PageHeader.blockAt (pageOf p) g.cls i := by rw [← hcls]; exact haddr
  have hnot : (⟨g.cls, p⟩ : Block) ∉ out := by
    intro hold
    have hnodup := hfilled.1.nodup_out
    rw [Multiset.nodup_add] at hnodup
    exact Multiset.disjoint_left.1 hnodup.2.2 hold hblock
  rw [haddr] at hnot ha
  refine .page (pageOf p) g i hg hv ?_ hnot ha
  rwa [PageHeader.capacity, ← hcls]

/-- Promised after a refill: by the heap, or of its chain. -/
def Fill.Promises (c : Fin numClasses) (out : Multiset Block) (r : SmallHeap × Fill) (a : Nat) : Prop :=
  r.1.Promises (out + blocksOf c r.2.chain) a ∨
    r.2.virgin = true ∧ ∃ p ∈ r.2.chain, Block.Interior ⟨c, p⟩ a

theorem fillFromList_promises (hlist : h.OpenList c) (hok : h.Conserves out loose mapped)
    (hcount : f.count = 0) (hchain : f.chain = []) (ha : Fill.Promises c out (h.fillFromList c f) a) :
    h.Promises out a := by
  rcases ha with ha | ⟨hvirgin, p, hp, ha⟩
  · exact ha.fainter (fillPages_fainter _ hlist) fun b hb => Multiset.mem_add.2 (.inl hb)
  · exact hlist.promises_chain hok hcount hchain hvirgin hp ha

/-- Nothing has been gathered. -/
theorem Fill.promises_nil (hchain : f.chain = []) :
    Fill.Promises c out (h, f) a ↔ h.Promises out a := by
  unfold Fill.Promises
  rw [hchain]
  simp

/-- The page that was woken is filled from first. -/
theorem Idle.promises (hidle : h.Idle c p out loose mapped) (hcount : f.count = 0)
    (hchain : f.chain = []) (ha : Fill.Promises c out ((h.linkPartial c p).fillFromList c f) a) :
    h.Promises out a := by
  obtain ⟨g, hp, -⟩ := hidle.page
  have hlinked := fillFromList_promises hidle.openList hidle.conserves hcount hchain ha
  exact hlinked.fainter (Fainter.linkPartial hp) fun b hb => hb

/-- What the woken page adds to the promises. -/
theorem Woken.promises {virgin : Bool} (hw : Woken h h' c p virgin) (ha : h'.Promises out a) :
    h.Promises out a ∨ virgin = true ∧ ∃ i, i < (PageHeader.init c).capacity ∧
      (⟨c, PageHeader.blockAt p c i⟩ : Block) ∉ out ∧
        Block.Interior ⟨c, PageHeader.blockAt p c i⟩ a := by
  cases ha with
  | page q g i hq hvirgin hi hout ha =>
      by_cases hqp : q = p
      · subst hqp
        obtain ⟨g', hp, rfl, hv⟩ := hw.page
        cases hp.symm.trans hq
        exact .inr ⟨hv hvirgin, i, hi, hout, ha⟩
      · rw [hw.others q hqp] at hq
        exact .inl (.page q g i hq hvirgin hi hout ha)
  | cold c' y hy hzeroed ha => exact .inl (.cold c' y (hw.cold c' y hy) hzeroed ha)

theorem takeEmpty_promises (hok : Filled c out loose mapped (h, f)) (hseated : ∀ q, Seated h q)
    (ha : Fill.Promises c out (h.takeEmpty c f) a) : Fill.Promises c out (h, f) a := by
  by_cases htake : f.count = 0 ∧ (h.lists c).empty ≠ []
  · obtain ⟨p, rest, hempty⟩ := List.exists_cons_of_ne_nil htake.2
    obtain ⟨hcons, hnil⟩ := hok.conserves htake.1
    obtain ⟨h₁, f₁, htaken, hcount, hchain, hidle, hw⟩ := takeEmpty_idle hok hseated htake.1 hempty
    rw [htaken] at ha
    rw [Fill.promises_nil hnil]
    obtain hold | ⟨hv, i, hi, hout, ha⟩ := hw.promises (hidle.promises hcount (hchain.trans hnil) ha)
    · exact hold
    · obtain ⟨g, hp, rfl, -⟩ := (hcons.empty c).2 p (by rw [hempty]; exact List.mem_cons_self)
      rw [header_eq hp] at hv
      exact .page p g i hp hv hi hout ha
  · rwa [takeEmpty_same htake] at ha

theorem takeCold_promises (hok : Filled c out loose mapped (h, f)) (hseated : ∀ q, Seated h q)
    (ha : Fill.Promises c out (h.takeCold c f) a) : Fill.Promises c out (h, f) a := by
  by_cases htake : f.count = 0 ∧ (h.lists c).cold ≠ []
  · obtain ⟨y, rest, hcold⟩ := List.exists_cons_of_ne_nil htake.2
    obtain ⟨hcons, hnil⟩ := hok.conserves htake.1
    obtain ⟨h₁, f₁, htaken, hcount, hchain, hidle, hw⟩ := takeCold_idle hok hseated htake.1 hcold
    rw [htaken] at ha
    rw [Fill.promises_nil hnil]
    obtain hold | ⟨hzeroed, i, hi, -, hlow, hhigh⟩ :=
      hw.promises (hidle.promises hcount (hchain.trans hnil) ha)
    · exact hold
    · have hmem : y ∈ (h.lists c).cold := by
        rw [hcold]
        exact List.mem_cons_self
      have haligned := hcons.page_aligned ((hcons.cold c).2 y hmem)
      exact .cold c y hmem hzeroed (area_blockAt haligned hi (Nat.le_of_add_right_le hlow) hhigh)
  · rwa [takeCold_same h htake] at ha

/-- **A refill promises nothing new.** What is promised of its chain, if that is reported virgin, and of
what it leaves in the heap was promised before. -/
theorem takeLocked_promises (hok : h.Conserves out loose mapped) (hseated : ∀ q, Seated h q)
    (ha : Fill.Promises c out (h.takeLocked c) a) : h.Promises out a := by
  have hfill : Filled c out loose mapped (h.fillFromList c { chain := [], count := 0, virgin := true }) :=
    fillFromList_filled (hok.filled rfl rfl)
  have hempty := takeEmpty_filled (f := (h.fillFromList c { chain := [], count := 0, virgin := true }).2)
    hfill
  have hfirst : ∀ r, Seated (h.fillFromList c { chain := [], count := 0, virgin := true }).1 r :=
    fillFromList_seated hok (by decide) hseated
  have hcold := takeCold_promises hempty (takeEmpty_seated hfill hfirst) ha
  have hmid : Fill.Promises c out (h.fillFromList c { chain := [], count := 0, virgin := true }) a :=
    takeEmpty_promises (f := (h.fillFromList c { chain := [], count := 0, virgin := true }).2) hfill
      hfirst hcold
  exact fillFromList_promises (hok.openList_seated hseated) hok rfl rfl hmid

/-- The page mapped for a refill is zero behind its header. -/
theorem takeMapped_promises {virgin : Bool} (hok : h.Conserves out ({p} + loose) mapped)
    (hseated : ∀ q, Seated h q) (haligned : p % pageSize = 0)
    (ha : Fill.Promises c out (h.takeMapped c p ⟨[], 0, virgin⟩) a) :
    h.Promises out a ∨ Area p a := by
  have hidle : (h.setHeader p (.init c)).Idle c p out loose mapped :=
    idle_fresh (g := .init c) rfl rfl (hok.linkFresh c) fun r _ => hseated r
  have hw : Woken h (h.setHeader p (.init c)) c p true :=
    ⟨fun q hq => setHeader_pages_of_ne hq, fun _ _ hy => hy, _, setHeader_pages, rfl, fun hv => hv⟩
  obtain hold | ⟨-, i, hi, -, hlow, hhigh⟩ := hw.promises (hidle.promises rfl rfl ha)
  · exact .inl hold
  · exact .inr (area_blockAt haligned hi (Nat.le_of_add_right_le hlow) hhigh)

/-! ### Releases -/

/-- What becomes of the page that was given back. -/
inductive Left (h : SmallHeap) (c : Fin numClasses) (d : Discarded) (p : Nat) : Fate → Prop
  | keep (g : PageHeader) (hp : h.pages p = some (.active g)) (hv : g.virgin = false) : Left h c d p .keep
  | cooled (hp : h.pages p = some (.cold c)) : Left h c d p (.cooled d)
  | unmap (bytes : Nat) (hp : h.pages p = none) : Left h c d p (.unmap bytes)

/-- Cold pages are as before, but perhaps for the page given back. -/
def Cooled (h h' : SmallHeap) (d : Discarded) (p : Nat) (fate : Fate) : Prop :=
  ∀ c, ∀ y ∈ (h'.lists c).cold, y ∈ (h.lists c).cold ∨ fate = .cooled d ∧ y = ⟨p, d.physical, d.zeroed⟩

theorem parkEmptyPage_left (hp : h.pages p = some (.active g)) (hv : g.virgin = false) :
    Left (h.parkEmptyPage c d p).1 c d p (h.parkEmptyPage c d p).2 ∧
      Cooled h (h.parkEmptyPage c d p).1 d p (h.parkEmptyPage c d p).2 := by
  have hunlinked := unlinkPartial_pages (c := c) hp
  have hcold := (Fainter.unlinkPartial (c := c) hp).cold
  unfold parkEmptyPage Cooled
  dsimp only
  generalize (h.unlinkPartial c p).1 = h₁ at *
  split
  · refine ⟨.keep _ hunlinked hv, fun c' y hy => .inl (hcold c' y ?_)⟩
    have hlist : Fainter h₁ (h₁.setList c { h₁.lists c with
      empty := p :: (h₁.lists c).empty, emptyCount := (h₁.lists c).emptyCount + 1 }) := .setList rfl
    exact hlist.cold c' y hy
  · split
    · refine ⟨.cooled (update_self _ _ _), fun c' y hy => ?_⟩
      by_cases hc : c' = c
      · subst hc
        have hy : y ∈ ((h₁.setList c' { h₁.lists c' with
          cold := ⟨p, d.physical, d.zeroed⟩ :: (h₁.lists c').cold
          coldBytes := (h₁.lists c').coldBytes + pageSize }).lists c').cold := hy
        rw [setList_self] at hy
        rcases List.mem_cons.1 hy with rfl | hy
        · exact .inr ⟨rfl, rfl⟩
        · exact .inl (hcold c' y hy)
      · have hother : ((h₁.setList c { h₁.lists c with
          cold := ⟨p, d.physical, d.zeroed⟩ :: (h₁.lists c).cold
          coldBytes := (h₁.lists c).coldBytes + pageSize }).lists c') = h₁.lists c' :=
          update_of_ne hc _ _
        exact .inl (hcold c' y (hother ▸ hy))
    · exact ⟨.unmap _ (update_self _ _ _), fun c' y hy => .inl (hcold c' y hy)⟩

theorem releaseInner_left (hp : h.pages x.page = some (.active g)) :
    Left (h.releaseInner c d x).1 c d x.page (h.releaseInner c d x).2 ∧
      Cooled h (h.releaseInner c d x).1 d x.page (h.releaseInner c d x).2 := by
  unfold releaseInner
  dsimp only
  rw [header_eq hp]
  split
  · exact parkEmptyPage_left setHeader_pages rfl
  · split
    · exact ⟨.keep _ setHeader_pages rfl, fun c' y hy => .inl hy⟩
    · refine ⟨.keep _ (linkPartial_pages setHeader_pages) rfl, fun c' y hy => .inl ?_⟩
      exact (Fainter.linkPartial (c := c) setHeader_pages).cold c' y hy

theorem retirePageInner_left (h : SmallHeap) (c : Fin numClasses) (d : Discarded) (p : Nat) :
    Left (h.retirePageInner c d p).1 c d p (h.retirePageInner c d p).2 ∧
      Cooled h (h.retirePageInner c d p).1 d p (h.retirePageInner c d p).2 :=
  parkEmptyPage_left setHeader_pages rfl

/-- The page given back promises nothing unless its discard did; the others promise what they did. -/
theorem Left.promises {fate : Fate} (hleft : Left h' c d p fate) (hcooled : Cooled h h' d p fate)
    (hothers : ∀ q, q ≠ p → h'.pages q = h.pages q) (hout : ∀ b ∈ out', b ∈ out ∨ pageOf b.addr = p)
    (haligned : ∀ q g, h.pages q = some (.active g) → q % pageSize = 0)
    (hpage : ∀ y, h.pages p ≠ some (.cold y)) (hcold : ∀ c, ∀ y ∈ (h.lists c).cold,
      h.pages y.page = some (.cold c)) (ha : h'.Promises out a) :
    h.Promises out' a ∧ pageOf a ≠ p ∨ fate = .cooled d ∧ d.zeroed = true ∧ pageOf a = p := by
  cases ha with
  | page q g i hq hvirgin hi hnot ha =>
      have hqp : q ≠ p := by
        rintro rfl
        cases hleft with
        | keep g' hp hv =>
            cases hp.symm.trans hq
            rw [hvirgin] at hv
            cases hv
        | cooled hp => cases hp.symm.trans hq
        | unmap bytes hp => cases hp.symm.trans hq
      rw [hothers q hqp] at hq
      have harea := area_blockAt (haligned q g hq) hi (Nat.le_of_add_right_le ha.1) ha.2
      refine .inl ⟨.page q g i hq hvirgin hi (fun hb => ?_) ha, by rw [harea.1]; exact hqp⟩
      rcases hout _ hb with hold | hback
      · exact hnot hold
      · have hself := area_blockAt (a := PageHeader.blockAt q g.cls i) (haligned q g hq) hi le_rfl
          (Nat.lt_add_of_pos_right (Nat.lt_of_lt_of_le (by decide) (classSize_pos g.cls)))
        exact hqp (hself.1.symm.trans hback)
  | cold c' y hy hzeroed ha =>
      rcases hcooled c' y hy with hold | ⟨hfate, rfl⟩
      · have hne : y.page ≠ p := by
          intro he
          exact hpage c' (he ▸ hcold c' y hold)
        exact .inl ⟨.cold c' y hold hzeroed ha, by rw [ha.1]; exact hne⟩
      · exact .inr ⟨hfate, hzeroed, ha.1⟩

end SmallHeap

/-! ### Bins -/

namespace Bin

variable {b b' : Bin} {p : Nat} {zeroed : Bool}

/-- The blocks that are still as the last refill brought them. -/
def bottom (b : Bin) : List Nat := b.blocks.drop (b.len - b.virgin)

theorem bottom_sub (hp : p ∈ b.bottom) : p ∈ b.blocks := List.mem_of_mem_drop hp

theorem Ok.pop_bottom (h : b.Ok) (hpop : b.pop = some (p, zeroed, b')) :
    b.blocks = p :: b'.blocks ∧ (zeroed = true → p ∈ b.bottom) ∧ ∀ q ∈ b'.bottom, q ∈ b.bottom := by
  have hlen := h.len
  have hvirgin := h.virgin
  unfold Bin.pop at hpop
  split at hpop
  · cases hpop
  · rename_i r rest hblocks
    simp only [Option.some.injEq, Prod.mk.injEq] at hpop
    obtain ⟨rfl, rfl, rfl⟩ := hpop
    rw [hblocks, List.length_cons] at hlen
    refine ⟨hblocks, fun hz => ?_, fun q hq => ?_⟩
    · have hall : b.len - b.virgin = 0 := by
        have hlow := of_decide_eq_true hz
        omega
      unfold bottom
      rw [hall, List.drop_zero, hblocks]
      exact List.mem_cons_self
    · unfold bottom at hq ⊢
      dsimp only at hq
      rw [hblocks]
      split at hq
      · rename_i hz
        have hlow := of_decide_eq_true hz
        rw [show b.len - b.virgin = 0 by omega, List.drop_zero]
        exact List.mem_cons_of_mem _ (List.mem_of_mem_drop hq)
      · rename_i hz
        have hhigh : ¬b.len - 1 < b.virgin := by simpa using hz
        rw [show b.len - b.virgin = (b.len - 1 - b.virgin) + 1 by omega, List.drop_succ_cons]
        exact hq

theorem Ok.push_bottom (h : b.Ok) (p : Nat) : (b.push p).bottom = b.bottom := by
  have hvirgin := h.virgin
  unfold bottom Bin.push
  dsimp only
  rw [show b.len + 1 - b.virgin = (b.len - b.virgin) + 1 by omega, List.drop_succ_cons]

/-- The bin that a refill leaves. -/
theorem bottom_filled (rest : List Nat) (virgin : Bool) (hp : p ∈ bottom
    { blocks := rest, len := rest.length, virgin := if virgin then rest.length else 0 }) :
    virgin = true ∧ p ∈ rest := by
  cases virgin with
  | true => exact ⟨rfl, List.mem_of_mem_drop hp⟩
  | false =>
      unfold bottom at hp
      simp at hp

end Bin

/-! ### The tier -/

namespace SmallTier

variable {ι : Type} [Fintype ι] [DecidableEq ι] {s s' : SmallTier ι} {a : Nat} {b : Block}

/-- The byte has to be zero. -/
inductive Promised (s : SmallTier ι) (a : Nat) : Prop
  | hand (b : Block) (hb : (b, true) ∈ s.hand) (ha : b.Interior a)
  | bin (t : ι) (c : Fin numClasses) (p : Nat) (hp : p ∈ (s.bins t c).bottom)
      (ha : Block.Interior ⟨c, p⟩ a)
  | heap (h : s.heap.Promises s.out a)
  | fresh (p : Nat) (hp : p ∈ s.fresh) (ha : Area p a)

structure Sound (s : SmallTier ι) : Prop where
  reached : s.heap.Reached s.out (s.fresh + s.doomed) s.mapped
  bins : ∀ t c, (s.bins t c).Ok
  zero : ∀ a, s.Promised a → s.mem a = 0

omit [DecidableEq ι] in
theorem mem_cached {c : Fin numClasses} {p : Nat} {t : ι} (hp : p ∈ (s.bins t c).blocks) :
    (⟨c, p⟩ : Block) ∈ s.cached := by
  have hblock : (⟨c, p⟩ : Block) ∈ blocksOf c (s.bins t c).blocks := mem_blocksOf.2 ⟨rfl, hp⟩
  unfold cached
  rw [Multiset.mem_sum]
  refine ⟨t, Finset.mem_univ t, ?_⟩
  rw [Multiset.mem_sum]
  exact ⟨c, Finset.mem_univ c, hblock⟩

omit [DecidableEq ι] in
theorem cached_congr (hbins : s'.bins = s.bins) : s'.cached = s.cached := by
  unfold cached
  rw [hbins]

omit [DecidableEq ι] in
/-- A live block is neither in hand nor in a bin. -/
theorem Sound.live_apart (h : s.Sound) (hlive : b ∈ s.live) :
    b ∉ s.hand.map Prod.fst ∧ b ∉ s.cached := by
  have hnodup := h.reached.sound.1.nodup_out
  unfold out at hnodup
  rw [Multiset.nodup_add] at hnodup
  have hnot := Multiset.disjoint_left.1 hnodup.2.2 hlive
  rw [Multiset.mem_add, not_or] at hnot
  exact hnot

omit [DecidableEq ι] in
/-- A page not in the heap has no page in it. -/
theorem Sound.fresh_page (h : s.Sound) {p : Nat} (hp : p ∈ s.fresh) :
    s.heap.pages p = none ∧ p % pageSize = 0 := by
  have hok := h.reached.sound.1
  have hext := hok.extents p
  have hone := Multiset.nodup_iff_count_le_one.1 hok.distinct p
  have hpos : 0 < (s.fresh + s.doomed).count p :=
    Multiset.count_pos.2 (Multiset.mem_add.2 (.inl hp))
  refine ⟨?_, hok.aligned p (Multiset.count_pos.1 (by omega))⟩
  cases hpage : s.heap.pages p with
  | none => rfl
  | some page =>
      rw [hpage] at hext
      simp only [Option.isSome_some, if_true] at hext
      omega

/-- The place of a promised byte: in a block that is not live, or in a page without blocks. -/
inductive Place (s : SmallTier ι) (a : Nat) : Prop
  | block (p : Nat) (g : PageHeader) (i : Nat) (hp : s.heap.pages p = some (.active g))
      (hi : i < g.capacity) (hlive : (⟨g.cls, PageHeader.blockAt p g.cls i⟩ : Block) ∉ s.live)
      (ha : Block.Interior ⟨g.cls, PageHeader.blockAt p g.cls i⟩ a)
  | page (hp : ∀ g, s.heap.pages (pageOf a) ≠ some (.active g)) (ha : pageOf a + headerSize ≤ a)

omit [DecidableEq ι] in
theorem Sound.place_out (h : s.Sound) (hb : b ∈ s.out) (hlive : b ∉ s.live) (ha : b.Interior a) :
    s.Place a := by
  obtain ⟨g, i, hp, hcls, -, hi, haddr⟩ := h.reached.sound.1.placed hb
  have hblock : b = ⟨g.cls, PageHeader.blockAt (pageOf b.addr) g.cls i⟩ := by
    rw [← haddr, hcls]
  rw [hblock] at hlive ha
  exact .block _ g i hp hi hlive ha

omit [DecidableEq ι] in
theorem Sound.place (h : s.Sound) (ha : s.Promised a) : s.Place a := by
  have hok := h.reached.sound.1
  cases ha with
  | hand b hb ha =>
      have hmem : b ∈ s.hand.map Prod.fst := Multiset.mem_map.2 ⟨_, hb, rfl⟩
      refine h.place_out ?_ (fun hlive => (h.live_apart hlive).1 hmem) ha
      exact Multiset.mem_add.2 (.inr (Multiset.mem_add.2 (.inl hmem)))
  | bin t c p hp ha =>
      have hmem := mem_cached (Bin.bottom_sub hp)
      refine h.place_out ?_ (fun hlive => (h.live_apart hlive).2 hmem) ha
      exact Multiset.mem_add.2 (.inr (Multiset.mem_add.2 (.inr hmem)))
  | heap ha =>
      cases ha with
      | page p g i hp hvirgin hi hout ha =>
          exact .block p g i hp hi (fun hlive => hout (Multiset.mem_add.2 (.inl hlive))) ha
      | cold c x hx hzeroed ha =>
          have hpage := (hok.cold c).2 x hx
          rw [← ha.1] at hpage
          refine .page (fun g hg => ?_) (by rw [ha.1]; exact ha.2)
          cases hpage.symm.trans hg
  | fresh p hp ha =>
      have hpage := (h.fresh_page hp).1
      rw [← ha.1] at hpage
      refine .page (fun g hg => ?_) (by rw [ha.1]; exact ha.2)
      cases hpage.symm.trans hg

/-- Two blocks of active pages that share a byte are one. -/
theorem same_block {h : SmallHeap} {p q i j a : Nat} {g y : PageHeader} (hp : h.pages p = some (.active g))
    (hq : h.pages q = some (.active y)) (hi : i < g.capacity) (hj : j < y.capacity)
    (haligned : p % pageSize = 0) (haligned' : q % pageSize = 0)
    (hlow : PageHeader.blockAt p g.cls i ≤ a) (hhigh : a < PageHeader.blockAt p g.cls i + classSize g.cls)
    (hlow' : PageHeader.blockAt q y.cls j ≤ a)
    (hhigh' : a < PageHeader.blockAt q y.cls j + classSize y.cls) : p = q ∧ g = y ∧ i = j := by
  have hpage := (area_blockAt haligned hi hlow hhigh).1
  have hpage' := (area_blockAt haligned' hj hlow' hhigh').1
  obtain rfl : p = q := hpage.symm.trans hpage'
  cases hp.symm.trans hq
  refine ⟨rfl, rfl, ?_⟩
  by_contra hne
  have hsep := blockAt_separate p g.cls hne
  unfold Separate at hsep
  dsimp only at hsep
  omega

/-! ### Steps -/

/-- A bin changes its blocks for others. -/
theorem cached_setBin (s : SmallTier ι) (t : ι) (c : Fin numClasses) (b : Bin) :
    (s.setBin t c b).cached + blocksOf c (s.bins t c).blocks = s.cached + blocksOf c b.blocks := by
  have hclass : (∑ c', blocksOf c' (update (s.bins t) c b c').blocks) + blocksOf c (s.bins t c).blocks
      = (∑ c', blocksOf c' (s.bins t c').blocks) + blocksOf c b.blocks := by
    rw [← Finset.add_sum_erase _ _ (Finset.mem_univ c),
      ← Finset.add_sum_erase _ (fun c' => blocksOf c' (s.bins t c').blocks) (Finset.mem_univ c),
      update_self]
    have hrest : ∑ c' ∈ Finset.univ.erase c, blocksOf c' (update (s.bins t) c b c').blocks
        = ∑ c' ∈ Finset.univ.erase c, blocksOf c' (s.bins t c').blocks := by
      refine Finset.sum_congr rfl fun c' hc' => ?_
      rw [update_of_ne (Finset.ne_of_mem_erase hc')]
    rw [hrest]
    ac_rfl
  unfold cached
  rw [← Finset.add_sum_erase _ _ (Finset.mem_univ t),
    ← Finset.add_sum_erase _ (fun u => ∑ c', blocksOf c' (s.bins u c').blocks) (Finset.mem_univ t)]
  have hrest : ∑ u ∈ Finset.univ.erase t, ∑ c', blocksOf c' ((s.setBin t c b).bins u c').blocks
      = ∑ u ∈ Finset.univ.erase t, ∑ c', blocksOf c' (s.bins u c').blocks := by
    refine Finset.sum_congr rfl fun u hu => ?_
    unfold setBin
    dsimp only
    rw [update_of_ne (Finset.ne_of_mem_erase hu)]
  have hself : ∑ c', blocksOf c' ((s.setBin t c b).bins t c').blocks
      = ∑ c', blocksOf c' (update (s.bins t) c b c').blocks := by
    unfold setBin
    dsimp only
    rw [update_self]
  rw [hrest, hself, add_right_comm, hclass]
  exact add_right_comm _ _ _

omit [Fintype ι] in
theorem setBin_bins (s : SmallTier ι) (t u : ι) (c c' : Fin numClasses) (b : Bin) :
    (s.setBin t c b).bins u c' = if u = t ∧ c' = c then b else s.bins u c' := by
  unfold setBin
  dsimp only
  by_cases hu : u = t
  · subst hu
    rw [update_self]
    by_cases hc : c' = c
    · subst hc
      rw [update_self, if_pos ⟨rfl, rfl⟩]
    · rw [update_of_ne hc, if_neg fun h => hc h.2]
  · rw [update_of_ne hu, if_neg fun h => hu h.1]

omit [DecidableEq ι] in
/-- Blocks move between the hands, the bins and the users, and nothing is written. -/
theorem Sound.shuffle (h : s.Sound) (hheap : s'.heap = s.heap) (hout : s'.out = s.out)
    (hfresh : s'.fresh = s.fresh) (hdoomed : s'.doomed = s.doomed) (hmapped : s'.mapped = s.mapped)
    (hmem : ∀ a, s'.mem a = s.mem a ∨ s'.mem a = 0) (hbins : ∀ t c, (s'.bins t c).Ok)
    (hhand : ∀ b, (b, true) ∈ s'.hand →
      (b, true) ∈ s.hand ∨ ∃ t, b.addr ∈ (s.bins t b.cls).bottom)
    (hbottom : ∀ t c, ∀ p ∈ (s'.bins t c).bottom,
      (⟨c, p⟩, true) ∈ s.hand ∨ ∃ u, p ∈ (s.bins u c).bottom) : s'.Sound := by
  refine ⟨?_, hbins, fun a ha => ?_⟩
  · rw [hheap, hout, hfresh, hdoomed, hmapped]
    exact h.reached
  · have hbefore : s.Promised a := by
      cases ha with
      | hand b hb ha =>
          rcases hhand b hb with hb | ⟨t, hb⟩
          · exact .hand b hb ha
          · exact .bin t b.cls b.addr hb ha
      | bin t c p hp ha =>
          rcases hbottom t c p hp with hb | ⟨u, hp⟩
          · exact .hand _ hb ha
          · exact .bin u c p hp ha
      | heap ha =>
          rw [hheap, hout] at ha
          exact .heap ha
      | fresh p hp ha => exact .fresh p (hfresh ▸ hp) ha
    rcases hmem a with hold | hzero
    · rw [hold]
      exact h.zero a hbefore
    · exact hzero

omit [DecidableEq ι] in
/-- A byte that is not promised is written. -/
theorem Sound.store (h : s.Sound) {v : UInt8} (hnot : ¬s.Promised a) :
    Sound { s with mem := update s.mem a v } := by
  refine ⟨h.reached, h.bins, fun a' ha => ?_⟩
  have hpromised : s.Promised a' := by
    cases ha with
    | hand b hb ha => exact .hand b hb ha
    | bin t c p hp ha => exact .bin t c p hp ha
    | heap ha => exact .heap ha
    | fresh p hp ha => exact .fresh p hp ha
  have hne : a' ≠ a := by
    rintro rfl
    exact hnot hpromised
  show update s.mem a v a' = 0
  rw [update_of_ne hne]
  exact h.zero a' hpromised

omit [DecidableEq ι] in
theorem Sound.write (h : s.Sound) {v : UInt8} (hlive : b ∈ s.live) (hlow : b.addr ≤ a)
    (hhigh : a < b.addr + classSize b.cls) : Sound { s with mem := update s.mem a v } := by
  have hok := h.reached.sound.1
  refine h.store fun ha => ?_
  obtain ⟨g, i, hp, hcls, -, hi, haddr⟩ := hok.placed (b := b) (Multiset.mem_add.2 (.inl hlive))
  have hblock : b = ⟨g.cls, PageHeader.blockAt (pageOf b.addr) g.cls i⟩ := by
    rw [← haddr, hcls]
  rw [haddr] at hlow
  rw [haddr, ← hcls] at hhigh
  rcases h.place ha with ⟨q, y, j, hq, hj, hnot, hlow', hhigh'⟩ | ⟨hnone, -⟩
  · obtain ⟨hpage, rfl, rfl⟩ := same_block hp hq hi hj (hok.page_aligned hp) (hok.page_aligned hq) hlow hhigh
      (Nat.le_of_add_right_le hlow') hhigh'
    rw [← hpage, ← hblock] at hnot
    exact hnot hlive
  · have hpage := (area_blockAt (hok.page_aligned hp) hi hlow hhigh).1
    rw [hpage] at hnone
    exact hnone g hp

omit [DecidableEq ι] in
theorem Sound.header (h : s.Sound) {v : UInt8} (hhigh : a < pageOf a + headerSize) :
    Sound { s with mem := update s.mem a v } := by
  have hok := h.reached.sound.1
  refine h.store fun ha => ?_
  rcases h.place ha with ⟨q, y, j, hq, hj, -, hlow, hhigh'⟩ | ⟨-, hlow⟩
  · have harea := area_blockAt (hok.page_aligned hq) hj (Nat.le_of_add_right_le hlow) hhigh'
    have hpage := harea.1
    have hstart := harea.2
    omega
  · omega

omit [DecidableEq ι] in
theorem Sound.link (h : s.Sound) {p i : Nat} {g : PageHeader} {v : UInt8}
    (hp : s.heap.pages p = some (.active g)) (hi : i < g.capacity)
    (hlow : PageHeader.blockAt p g.cls i ≤ a) (hhigh : a < PageHeader.blockAt p g.cls i + linkBytes) :
    Sound { s with mem := update s.mem a v } := by
  have hok := h.reached.sound.1
  have hsize := classSize_pos g.cls
  have hwhole : a < PageHeader.blockAt p g.cls i + classSize g.cls := by
    unfold linkBytes at hhigh
    omega
  refine h.store fun ha => ?_
  rcases h.place ha with ⟨q, y, j, hq, hj, -, hlow', hhigh'⟩ | ⟨hnone, -⟩
  · obtain ⟨rfl, rfl, rfl⟩ := same_block hp hq hi hj (hok.page_aligned hp) (hok.page_aligned hq) hlow hwhole
      (Nat.le_of_add_right_le hlow') hhigh'
    have hbehind : PageHeader.blockAt p g.cls i + linkBytes ≤ a := hlow'
    omega
  · have hpage := (area_blockAt (hok.page_aligned hp) hi hlow hwhole).1
    rw [hpage] at hnone
    exact hnone g hp

theorem map_chainInHand (c : Fin numClasses) (virgin : Bool) (chain : List Nat) :
    (chainInHand c virgin chain).map Prod.fst = blocksOf c chain := by
  unfold chainInHand blocksOf
  rw [Multiset.map_coe, List.map_map]
  rfl

theorem mem_chainInHand {c : Fin numClasses} {virgin : Bool} {chain : List Nat} {x : Block × Bool} :
    x ∈ chainInHand c virgin chain ↔ x.1.cls = c ∧ x.1.addr ∈ chain ∧ x.2 = virgin := by
  obtain ⟨⟨c', p⟩, v⟩ := x
  simp only [chainInHand, Multiset.mem_coe, List.mem_map, Prod.mk.injEq, Block.mk.injEq]
  constructor
  · rintro ⟨q, hq, ⟨rfl, rfl⟩, rfl⟩
    exact ⟨rfl, hq, rfl⟩
  · rintro ⟨rfl, hp, rfl⟩
    exact ⟨p, hp, ⟨rfl, rfl⟩, rfl⟩

omit [DecidableEq ι] in
/-- A section of the heap hands out a chain. -/
theorem Sound.take (h : s.Sound) {c : Fin numClasses} {r : SmallHeap × Fill} {fresh : Multiset Nat}
    (hreached : r.1.Reached (s.out + blocksOf c r.2.chain) (fresh + s.doomed) s.mapped)
    (hfresh : ∀ p ∈ fresh, p ∈ s.fresh)
    (hr : ∀ a, SmallHeap.Fill.Promises c s.out r a → s.heap.Promises s.out a ∨
      ∃ p ∈ s.fresh, Area p a) :
    Sound { s with heap := r.1, hand := s.hand + chainInHand c r.2.virgin r.2.chain, fresh } := by
  have hout : (out { s with
      heap := r.1, hand := s.hand + chainInHand c r.2.virgin r.2.chain, fresh } : Multiset Block)
      = s.out + blocksOf c r.2.chain := by
    unfold out
    dsimp only
    rw [Multiset.map_add, map_chainInHand, add_right_comm, ← add_assoc]
    rfl
  refine ⟨?_, h.bins, fun a ha => h.zero a ?_⟩
  · rw [hout]
    exact hreached
  · have hheap : SmallHeap.Fill.Promises c s.out r a → s.Promised a := by
      intro ha
      rcases hr a ha with ha | ⟨p, hp, ha⟩
      · exact .heap ha
      · exact .fresh p hp ha
    cases ha with
    | hand b hb ha =>
        rcases Multiset.mem_add.1 hb with hb | hb
        · exact .hand b hb ha
        · obtain ⟨hcls, hp, hv⟩ := mem_chainInHand.1 hb
          exact hheap (.inr ⟨hv.symm, b.addr, hp, by rw [← hcls]; exact ha⟩)
    | bin t c p hp ha => exact .bin t c p hp ha
    | heap ha =>
        rw [hout] at ha
        exact hheap (.inl ha)
    | fresh p hp ha => exact .fresh p (hfresh p hp) ha

omit [DecidableEq ι] in
theorem out_back {c : Fin numClasses} {chain : List Nat} {hand back : Multiset (Block × Bool)}
    (hhand : s.hand = hand + back) (hback : back.map Prod.fst = blocksOf c chain) :
    s.out = s.live + (hand.map Prod.fst + s.cached) + blocksOf c chain := by
  unfold out
  rw [hhand, Multiset.map_add, hback, add_right_comm, ← add_assoc]

omit [DecidableEq ι] in
/-- A section of the heap takes the blocks of a page back. -/
theorem Sound.giveBack (h : s.Sound) {c : Fin numClasses} {x : PageReleaseChunk} {d : Discarded}
    {h' : SmallHeap} {fate : Fate} {hand back : Multiset (Block × Bool)} {mem : Nat → UInt8}
    (hx : SmallHeap.Chunk c x) (hhand : s.hand = hand + back)
    (hback : back.map Prod.fst = blocksOf c x.chain) (hmem : Settles x.page fate s.mem mem)
    (hleft : h'.Left c d x.page fate) (hcooled : SmallHeap.Cooled s.heap h' d x.page fate)
    (hothers : ∀ q, q ≠ x.page → h'.pages q = s.heap.pages q)
    (hreached : s.heap.Reached (s.live + (hand.map Prod.fst + s.cached) + blocksOf c x.chain)
        (s.fresh + s.doomed) s.mapped →
      h'.Reached (s.live + (hand.map Prod.fst + s.cached))
        (SmallHeap.unmapped x.page fate + (s.fresh + s.doomed)) s.mapped) :
    Sound { s with heap := h', hand, doomed := SmallHeap.unmapped x.page fate + s.doomed, mem } := by
  have hok := h.reached.sound.1
  have hout := out_back hhand hback
  have hafter := hreached (hout ▸ h.reached)
  have hok' := hafter.sound.1
  obtain ⟨g, hpage, -⟩ := SmallHeap.Conserves.chunk_page (hout ▸ hok) hx
  -- only a page that is kept still has blocks outside
  have hlast : ∀ a, ∀ b ∈ s.live + (hand.map Prod.fst + s.cached), b.Interior a →
      pageOf a = x.page → fate = .keep := by
    intro a b hb ha hpage
    obtain ⟨y, i, hy, hcls, -, hi, haddr⟩ := hok'.placed hb
    obtain ⟨hlow, hhigh⟩ := ha
    rw [haddr] at hlow
    rw [haddr, ← hcls] at hhigh
    have harea := area_blockAt (hok'.page_aligned hy) hi (Nat.le_of_add_right_le hlow) hhigh
    rw [← harea.1, hpage] at hy
    cases hleft with
    | keep g' hp hv => rfl
    | cooled hp => cases hp.symm.trans hy
    | unmap bytes hp => cases hp.symm.trans hy
  refine ⟨?_, h.bins, fun a ha => ?_⟩
  · show h'.Reached _ (s.fresh + (SmallHeap.unmapped x.page fate + s.doomed)) s.mapped
    rw [add_left_comm]
    exact hafter
  · have hstay : s.Promised a → (pageOf a = x.page → fate = .keep) → mem a = 0 := by
      intro hpromised hkeep
      by_cases hat : pageOf a = x.page
      · rw [hmem.kept (hkeep hat)]
        exact h.zero a hpromised
      · rw [hmem.elsewhere a hat]
        exact h.zero a hpromised
    cases ha with
    | hand b hb ha =>
        have hbefore : (b, true) ∈ s.hand := hhand ▸ Multiset.mem_add.2 (.inl hb)
        refine hstay (.hand b hbefore ha) (hlast a b ?_ ha)
        have hmem : b ∈ hand.map Prod.fst := Multiset.mem_map.2 ⟨_, hb, rfl⟩
        exact Multiset.mem_add.2 (.inr (Multiset.mem_add.2 (.inl hmem)))
    | bin t c p hp ha =>
        refine hstay (.bin t c p hp ha) (hlast a _ ?_ ha)
        exact Multiset.mem_add.2 (.inr (Multiset.mem_add.2 (.inr (mem_cached (Bin.bottom_sub hp)))))
    | heap ha =>
        have hchain : ∀ b ∈ s.out, b ∈ s.live + (hand.map Prod.fst + s.cached) ∨
            pageOf b.addr = x.page := by
          intro b hb
          rw [hout] at hb
          rcases Multiset.mem_add.1 hb with hb | hb
          · exact .inl hb
          · exact .inr (hx.page b.addr (mem_blocksOf.1 hb).2)
        rcases hleft.promises hcooled hothers hchain (fun q y hq => hok.page_aligned hq)
          (fun c' hc' => by cases hpage.symm.trans hc') (fun c' => (hok.cold c').2) ha with
          ⟨ha, hne⟩ | ⟨hfate, hzeroed, hat⟩
        · exact hstay (.heap ha) fun hat => absurd hat hne
        · exact hmem.zeroed d hfate hzeroed a hat
    | fresh p hp ha =>
        refine hstay (.fresh p hp ha) fun hat => ?_
        have hnone := (h.fresh_page hp).1
        rw [← ha.1, hat] at hnone
        cases hnone.symm.trans hpage

/-- Blocks that leave a bin are in hand, and the other way round. -/
theorem out_setBin {t : ι} {c : Fin numClasses} {b : Bin} {hand : Multiset (Block × Bool)}
    (hmove : hand.map Prod.fst + blocksOf c b.blocks
      = s.hand.map Prod.fst + blocksOf c (s.bins t c).blocks) :
    out { s.setBin t c b with hand } = s.out := by
  have hcached := cached_setBin s t c b
  have hsum : hand.map Prod.fst + (s.setBin t c b).cached = s.hand.map Prod.fst + s.cached := by
    ext y
    have hmove := congrArg (Multiset.count y) hmove
    have hcached := congrArg (Multiset.count y) hcached
    rw [Multiset.count_add, Multiset.count_add] at hmove hcached ⊢
    omega
  unfold out
  rw [← hsum, cached_congr (s := s.setBin t c b) rfl]
  rfl

omit [Fintype ι] in
theorem setBin_ok (hbins : ∀ u c', (s.bins u c').Ok) {t : ι} {c : Fin numClasses} {b : Bin} (hb : b.Ok)
    (u : ι) (c' : Fin numClasses) : ((s.setBin t c b).bins u c').Ok := by
  rw [setBin_bins]
  split
  · exact hb
  · exact hbins u c'

omit [Fintype ι] in
theorem setBin_bottom {t u : ι} {c c' : Fin numClasses} {b : Bin} {p : Nat}
    (hp : p ∈ ((s.setBin t c b).bins u c').bottom) :
    p ∈ (s.bins u c').bottom ∨ c' = c ∧ p ∈ b.bottom := by
  rw [setBin_bins] at hp
  split at hp
  · rename_i heq
    exact .inr ⟨heq.2, hp⟩
  · exact .inl hp

/-- One bin changes, and blocks go to it or come from it. -/
theorem Sound.rebin (h : s.Sound) {t : ι} {c : Fin numClasses} {b : Bin} {hand : Multiset (Block × Bool)}
    (hb : b.Ok)
    (hmove : hand.map Prod.fst + blocksOf c b.blocks
      = s.hand.map Prod.fst + blocksOf c (s.bins t c).blocks)
    (hhand : ∀ x, (x, true) ∈ hand → (x, true) ∈ s.hand ∨ x.cls = c ∧ x.addr ∈ (s.bins t c).bottom)
    (hbottom : ∀ p ∈ b.bottom, (⟨c, p⟩, true) ∈ s.hand ∨ p ∈ (s.bins t c).bottom) :
    Sound { s.setBin t c b with hand } := by
  refine h.shuffle rfl (out_setBin hmove) rfl rfl rfl (fun _ => .inl rfl) (setBin_ok h.bins hb)
    (fun x hx => ?_) fun u c' p hp => ?_
  · rcases hhand x hx with hold | ⟨rfl, hbottom⟩
    · exact .inl hold
    · exact .inr ⟨t, hbottom⟩
  · have hp : p ∈ ((s.setBin t c b).bins u c').bottom := hp
    rcases setBin_bottom hp with hold | ⟨rfl, hnew⟩
    · exact .inr ⟨u, hold⟩
    · rcases hbottom p hnew with hfrom | hfrom
      · exact .inl hfrom
      · exact .inr ⟨t, hfrom⟩

theorem Sound.steal (h : s.Sound) {t u : ι} {c : Fin numClasses} (hne : t ≠ u)
    (hempty : (s.bins t c).blocks = []) :
    Sound ((s.setBin t c (s.bins u c)).setBin u c .empty) := by
  have hother : (s.setBin t c (s.bins u c)).bins u c = s.bins u c := by
    rw [setBin_bins, if_neg fun heq => hne heq.1.symm]
  have hout : ((s.setBin t c (s.bins u c)).setBin u c .empty).out = s.out := by
    have hfirst := cached_setBin s t c (s.bins u c)
    have hsecond := cached_setBin (s.setBin t c (s.bins u c)) u c .empty
    rw [hempty] at hfirst
    rw [hother] at hsecond
    have hcached : ((s.setBin t c (s.bins u c)).setBin u c .empty).cached = s.cached := by
      refine add_right_cancel (b := blocksOf c (s.bins u c).blocks) (hsecond.trans ?_)
      exact (add_zero _).trans ((add_zero _).symm.trans hfirst)
    unfold out
    rw [hcached]
    rfl
  refine h.shuffle rfl hout rfl rfl rfl (fun _ => .inl rfl)
    (setBin_ok (setBin_ok h.bins (h.bins u c)) .empty) (fun x hx => .inl hx) fun v c' p hp => ?_
  rcases setBin_bottom hp with hbefore | ⟨-, hnone⟩
  · rcases setBin_bottom hbefore with hold | ⟨rfl, hstolen⟩
    · exact .inr ⟨v, hold⟩
    · exact .inr ⟨u, hstolen⟩
  · cases hnone

omit [DecidableEq ι] in
/-- A block goes from a hand to a user. -/
theorem out_give {b : Block} {virgin : Bool} {hand : Multiset (Block × Bool)}
    (hhand : s.hand = {(b, virgin)} + hand) :
    {b} + s.live + (hand.map Prod.fst + s.cached) = s.out := by
  unfold out
  rw [hhand, Multiset.map_add, Multiset.map_singleton, add_assoc, add_assoc, add_left_comm]

/-- No step breaks a promise. -/
theorem Sound.step (h : s.Sound) (hstep : Step s s') : s'.Sound := by
  cases hstep with
  | map p mem haligned hunmapped helsewhere hzero =>
      refine ⟨?_, h.bins, fun a ha => ?_⟩
      · show s.heap.Reached s.out ({p} + s.fresh + s.doomed) ({p} + s.mapped)
        rw [add_assoc]
        exact .map h.reached haligned hunmapped
      · show mem a = 0
        by_cases hpage : pageOf a = p
        · exact hzero a hpage
        · rw [helsewhere a hpage]
          apply h.zero
          cases ha with
          | hand b hb ha => exact .hand b hb ha
          | bin t c q hq ha => exact .bin t c q hq ha
          | heap ha => exact .heap ha
          | fresh q hq ha =>
              rcases Multiset.mem_add.1 hq with hq | hq
              · rw [Multiset.mem_singleton] at hq
                exact absurd (ha.1.trans hq) hpage
              · exact .fresh q hq ha
  | unmap p doomed mapped hdoomed hmapped =>
      refine ⟨?_, h.bins, fun a ha => h.zero a ?_⟩
      · have hreached := h.reached
        rw [hdoomed, hmapped, add_left_comm] at hreached
        exact .unmap hreached
      · cases ha with
        | hand b hb ha => exact .hand b hb ha
        | bin t c q hq ha => exact .bin t c q hq ha
        | heap ha => exact .heap ha
        | fresh q hq ha => exact .fresh q hq ha
  | takeLocked c =>
      refine h.take (.takeLocked c h.reached) (fun p hp => hp) fun a ha => .inl ?_
      exact SmallHeap.takeLocked_promises h.reached.sound.1 h.reached.seated ha
  | takeMapped c p virgin fresh hfresh =>
      have hp : p ∈ s.fresh := by rw [hfresh]; exact Multiset.mem_add.2 (.inl (Multiset.mem_singleton_self p))
      have hreached := h.reached
      rw [hfresh, add_assoc] at hreached
      refine h.take (.takeMapped c virgin hreached) (fun q hq => ?_) fun a ha => ?_
      · rw [hfresh]
        exact Multiset.mem_add.2 (.inr hq)
      · obtain hold | harea := SmallHeap.takeMapped_promises hreached.sound.1 hreached.seated
          (h.fresh_page hp).2 ha
        · exact .inl hold
        · exact .inr ⟨p, hp, harea⟩
  | install t c virgin rest hand hempty hhand =>
      have hlen : (s.bins t c).len = 0 := by rw [(h.bins t c).len, hempty, List.length_nil]
      rw [hlen, Nat.zero_add]
      refine h.rebin (Bin.Ok.filled rest virgin) ?_ (fun x hx => ?_) fun p hp => ?_
      · rw [hhand, hempty, Multiset.map_add, map_chainInHand, blocksOf_nil, add_zero, add_comm]
      · rw [hhand]
        exact .inl (Multiset.mem_add.2 (.inr hx))
      · obtain ⟨hvirgin, hmem⟩ := Bin.bottom_filled rest virgin hp
        rw [hhand]
        exact .inl (Multiset.mem_add.2 (.inl (mem_chainInHand.2 ⟨rfl, hmem, hvirgin.symm⟩)))
  | pop t c p virgin b hpop =>
      obtain ⟨hblocks, hvirgin, hbottom⟩ := (h.bins t c).pop_bottom hpop
      refine h.rebin ((h.bins t c).pop hpop).1 ?_ (fun x hx => ?_) fun q hq => .inr (hbottom q hq)
      · rw [hblocks, blocksOf_cons, Multiset.map_add, Multiset.map_singleton, add_assoc, add_left_comm]
      · rcases Multiset.mem_add.1 hx with hself | hold
        · rw [Multiset.mem_singleton, Prod.mk.injEq] at hself
          obtain ⟨rfl, htrue⟩ := hself
          exact .inr ⟨rfl, hvirgin htrue.symm⟩
        · exact .inl hold
  | push t c p virgin hand hhand =>
      refine h.rebin ((h.bins t c).push p).1 ?_ (fun x hx => ?_) fun q hq => .inr ?_
      · rw [hhand, Multiset.map_add, Multiset.map_singleton]
        show hand.map Prod.fst + blocksOf c (p :: (s.bins t c).blocks) = _
        rw [blocksOf_cons, add_assoc, add_left_comm]
      · rw [hhand]
        exact .inl (Multiset.mem_add.2 (.inr hx))
      · rwa [(h.bins t c).push_bottom] at hq
  | drain t c =>
      refine h.rebin .empty ?_ (fun x hx => ?_) fun q hq => by cases hq
      · rw [Multiset.map_add, map_chainInHand]
        exact add_zero _
      · rcases Multiset.mem_add.1 hx with hx | hx
        · exact .inl hx
        · cases (mem_chainInHand.1 hx).2.2
  | forget t c =>
      have hok : Bin.Ok { s.bins t c with virgin := 0 } := ⟨(h.bins t c).len, Nat.zero_le _⟩
      have hnone : Bin.bottom { s.bins t c with virgin := 0 } = [] :=
        List.drop_eq_nil_of_le (by rw [Nat.sub_zero]; exact (h.bins t c).len.ge)
      have hforgot : Sound { s.setBin t c { s.bins t c with virgin := 0 } with hand := s.hand } := by
        refine h.rebin hok rfl (fun x hx => .inl hx) fun q hq => ?_
        rw [hnone] at hq
        cases hq
      exact hforgot
  | steal t u c hne hempty => exact h.steal hne hempty
  | release c x d hand back mem hx hhand hback hmem =>
      have hok := h.reached.sound.1
      rw [out_back hhand hback] at hok
      obtain ⟨g, hpage, -⟩ := hok.chunk_page hx
      obtain ⟨hleft, hcooled⟩ := SmallHeap.releaseInner_left (c := c) (d := d) hpage
      exact h.giveBack hx hhand hback hmem hleft hcooled
        (fun q hq => SmallHeap.releaseInner_pages_of_ne hq d) fun hr => .releaseInner d hx hr
  | retire c x d hand back mem hx hall hhand hback hmem =>
      obtain ⟨hleft, hcooled⟩ := SmallHeap.retirePageInner_left s.heap c d x.page
      exact h.giveBack hx hhand hback hmem hleft hcooled
        (fun q hq => SmallHeap.retirePageInner_pages_of_ne hq d) fun hr => .retirePageInner d hx hall hr
  | give b virgin hand hhand =>
      refine h.shuffle rfl (out_give hhand) rfl rfl rfl (fun _ => .inl rfl) h.bins (fun x hx => ?_)
        fun t c p hp => .inr ⟨t, hp⟩
      rw [hhand]
      exact .inl (Multiset.mem_add.2 (.inr hx))
  | giveZeroed b virgin hand size hhand =>
      refine h.shuffle rfl (out_give hhand) rfl rfl rfl (fun a => ?_) h.bins (fun x hx => ?_)
        fun t c p hp => .inr ⟨t, hp⟩
      · show zeroFill s.mem b.addr size virgin a = s.mem a ∨ zeroFill s.mem b.addr size virgin a = 0
        unfold zeroFill
        by_cases hin : b.addr ≤ a ∧ a < b.addr + (if virgin then linkBytes else size)
        · exact .inr (if_pos hin)
        · exact .inl (if_neg hin)
      · rw [hhand]
        exact .inl (Multiset.mem_add.2 (.inr hx))
  | free b live hlive =>
      refine h.shuffle rfl ?_ rfl rfl rfl (fun _ => .inl rfl) h.bins (fun x hx => ?_)
        fun t c p hp => .inr ⟨t, hp⟩
      · show live + (Multiset.map Prod.fst ({(b, false)} + s.hand) + s.cached) = s.out
        unfold out
        rw [hlive, Multiset.map_add, Multiset.map_singleton, add_assoc {b} live, add_assoc, add_left_comm]
      · rcases Multiset.mem_add.1 hx with hx | hx
        · rw [Multiset.mem_singleton, Prod.mk.injEq] at hx
          cases hx.2
        · exact .inl hx
  | write b a v hlive hlow hhigh => exact h.write hlive hlow hhigh
  | header a v hmapped hhigh => exact h.header hhigh
  | link p g i a v hpage hi hlow hhigh => exact h.link hpage hi hlow hhigh

omit [DecidableEq ι] in
theorem Sound.new (mem : Nat → UInt8) : Sound (new ι mem) := by
  have hcached : (SmallTier.new ι mem).cached = 0 := by
    unfold cached
    exact Finset.sum_eq_zero fun t _ => Finset.sum_eq_zero fun c _ => rfl
  have hout : (SmallTier.new ι mem).out = 0 := by
    unfold out
    rw [hcached]
    rfl
  refine ⟨?_, fun _ _ => .empty, fun a ha => ?_⟩
  · rw [hout]
    exact .new
  · cases ha with
    | hand b hb ha => exact absurd hb (Multiset.notMem_zero _)
    | bin t c p hp ha => cases hp
    | heap ha =>
        cases ha with
        | page p g i hp hvirgin hi hout ha => cases hp
        | cold c x hx hzeroed ha => cases hx
    | fresh p hp ha => exact absurd hp (Multiset.notMem_zero _)

theorem Reach.sound (hr : Reach s) : s.Sound := by
  induction hr with
  | new mem => exact .new mem
  | step _ hstep ih => exact ih.step hstep

end SmallTier

end Allox
