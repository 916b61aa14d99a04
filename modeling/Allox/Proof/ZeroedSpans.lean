import Allox.ZeroedSpans
import Allox.Proof.ZeroedBlocks
import Allox.Proof.Cache

/-!
# Virgin blocks of spans read as zero

A byte is promised to be zero while it is behind the link word of a virgin block in hand, at the bottom of
a list or on the free list of a virgin span, or in a fresh extent. A span is carved at once, so its free list
says which of its blocks nobody has had; a cold span is carved anew and promises nothing.
-/

namespace Allox

open Function

variable {t : SpanTier}

/-- The bytes of a block behind its link word. -/
def SpanTier.Interior (t : SpanTier) (c : Fin t.num) (p a : Nat) : Prop :=
  p + linkBytes ≤ a ∧ a < p + t.blockSize c

theorem SpanTier.Interior.inside {c : Fin t.num} {p a : Nat} (h : t.Interior c p a) :
    p ≤ a ∧ a < p + t.blockSize c := ⟨Nat.le_of_add_right_le h.1, h.2⟩

theorem SpanTier.Interior.extent {c : Fin t.num} {base npages p a : Nat} {onArena : Bool}
    (h : t.Interior c p a) (hp : p ∈ t.carve c base npages onArena) :
    base ≤ a ∧ a < base + npages * pageSize := by
  obtain ⟨hlow, hhigh⟩ := mem_carve hp
  obtain ⟨hplow, hphigh⟩ := h.inside
  exact ⟨hlow.trans hplow, hphigh.trans_le hhigh⟩

/-- Headers and blocks have no byte in common. -/
theorem carve_header {c : Fin t.num} {base npages a p : Nat} {onArena : Bool}
    (hp : p ∈ t.carve c base npages onArena) (ha : t.InHeader base npages onArena a) :
    a < p ∨ p + t.blockSize c ≤ a := by
  unfold SpanTier.carve at hp
  dsimp only at hp
  split at hp
  · rename_i hwhole
    have hlow := (mem_blocksFrom hp).1
    have hwhole : onArena = true ∨ t = .big := by simpa using hwhole
    rcases ha with ⟨-, hmaster⟩ | ⟨hchunks, -⟩
    · omega
    · exact absurd hwhole hchunks
  · rw [List.mem_flatten] at hp
    obtain ⟨chunk, hchunk, hp⟩ := hp
    obtain ⟨page, -, rfl⟩ := List.mem_map.1 hchunk
    obtain ⟨hlow, hhigh⟩ := mem_blocksFrom hp
    unfold SpanTier.InHeader at ha
    simp only [pageSize, spanMasterSize, spanSubSize] at ha hlow hhigh
    rcases ha with ⟨hbase, hmaster⟩ | ⟨-, hbase, -, hsub⟩
    · split at hlow <;> omega
    · split at hlow <;> omega

namespace SpanHeap

variable {arena : Nat → Nat → Bool} {h h' h'' : SpanHeap t} {out : Multiset (SpanBlock t)}
  {loose mapped : Multiset (Nat × Nat)} {s a : Nat} {m m' : SpanMaster t} {c : Fin t.num} {f : Fill}
  {d : Discarded} {x : ReleaseChunk}

theorem setList_self (h : SpanHeap t) (c : Fin t.num) (l : SpanList) : (h.setList c l).lists c = l :=
  update_self _ _ _

theorem Conserves.free_carved (hok : h.Conserves arena out loose mapped)
    (hs : h.spans s = some (.active m)) {p : Nat} (hp : p ∈ m.free) :
    p ∈ t.carve m.cls s m.npages (arena s (m.npages * pageSize)) := by
  rw [← Multiset.mem_coe, ← (hok.span s m hs).ledger]
  exact Multiset.mem_add.2 (.inl hp)

/-- What the heap promises of the blocks it still has. -/
def Promises (h : SpanHeap t) (a : Nat) : Prop :=
  ∃ s m, h.spans s = some (.active m) ∧ m.virgin = true ∧ ∃ p ∈ m.free, t.Interior m.cls p a

/-- No span of `h'` is virgin that was not in `h`, and a virgin one has no block back. -/
def Fainter (h h' : SpanHeap t) : Prop :=
  ∀ s m', h'.spans s = some (.active m') → m'.virgin = true →
    ∃ m, h.spans s = some (.active m) ∧ m.virgin = true ∧ m.cls = m'.cls ∧ m'.free ⊆ m.free

namespace Fainter

theorem refl (h : SpanHeap t) : Fainter h h :=
  fun _ m hs hv => ⟨m, hs, hv, rfl, List.Subset.refl _⟩

theorem trans (hf : Fainter h h') (hf' : Fainter h' h'') : Fainter h h'' := by
  intro s m'' hs hv
  obtain ⟨m', hs', hv', hcls', hfree'⟩ := hf' s m'' hs hv
  obtain ⟨m, hs, hv, hcls, hfree⟩ := hf s m' hs' hv'
  exact ⟨m, hs, hv, hcls.trans hcls', fun p hp => hfree (hfree' hp)⟩

/-- One span changes. -/
theorem update {x : Option (Span t)} (hx : ∀ m', x = some (.active m') → m'.virgin = true →
    ∃ m, h.spans s = some (.active m) ∧ m.virgin = true ∧ m.cls = m'.cls ∧ m'.free ⊆ m.free)
    (hspans : h'.spans = Function.update h.spans s x) : Fainter h h' := by
  intro q m' hq hv
  rw [hspans] at hq
  by_cases hqs : q = s
  · subst hqs
    rw [update_self] at hq
    exact hx m' hq hv
  · rw [update_of_ne hqs] at hq
    exact ⟨m', hq, hv, rfl, List.Subset.refl _⟩

theorem setMaster (hs : h.spans s = some (.active m)) (hm : m'.virgin = true →
    m.virgin = true ∧ m.cls = m'.cls ∧ m'.free ⊆ m.free) : Fainter h (h.setMaster s m') := by
  rw [setMaster_eq hs]
  refine update (fun y hy hv => ?_) rfl
  cases hy
  exact ⟨m, hs, hm hv⟩

theorem linkPartial (hs : h.spans s = some (.active m)) : Fainter h (h.linkPartial c s) := by
  unfold SpanHeap.linkPartial
  dsimp only
  rw [master_eq (h := h.setList c _) hs]
  exact setMaster (h := h.setList c _) hs fun hv => ⟨hv, rfl, List.Subset.refl _⟩

theorem unlinkPartial (hs : h.spans s = some (.active m)) : Fainter h (h.unlinkPartial c s) := by
  unfold SpanHeap.unlinkPartial
  split
  · dsimp only
    rw [master_eq (h := h.setList c _) hs]
    exact setMaster (h := h.setList c _) hs fun hv => ⟨hv, rfl, List.Subset.refl _⟩
  · exact refl h

end Fainter

theorem Promises.fainter (hf : Fainter h h') (ha : h'.Promises a) : h.Promises a := by
  obtain ⟨s, m', hs, hv, p, hp, ha⟩ := ha
  obtain ⟨m, hs, hv, hcls, hfree⟩ := hf s m' hs hv
  exact ⟨s, m, hs, hv, p, hfree hp, hcls ▸ ha⟩

/-! ### Refills -/

/-- The partial list of a class has spans of the class. -/
def Classed (h : SpanHeap t) (c : Fin t.num) : Prop :=
  ∀ s ∈ (h.lists c).head, ∃ m, h.spans s = some (.active m) ∧ m.cls = c

theorem Conserves.classed (hok : h.Conserves arena out loose mapped) (c : Fin t.num) : h.Classed c := by
  intro s hs
  obtain ⟨m, hm, hcls, -⟩ := (hok.head c).2 s hs
  exact ⟨m, hm, hcls⟩

namespace Classed

theorem update (hc : h.Classed c) (hcls : m.cls = c)
    (hhead : ∀ q ∈ (h'.lists c).head, q = s ∨ q ∈ (h.lists c).head)
    (hspans : h'.spans = Function.update h.spans s (some (.active m))) : h'.Classed c := by
  intro q hq
  rw [hspans]
  by_cases hqs : q = s
  · exact ⟨m, by rw [hqs, update_self], hcls⟩
  · rw [update_of_ne hqs]
    exact hc q ((hhead q hq).resolve_left hqs)

theorem setMaster (hc : h.Classed c) (hs : h.spans s = some (.active m)) (hcls : m'.cls = c) :
    (h.setMaster s m').Classed c := by
  rw [setMaster_eq hs]
  exact hc.update hcls (fun q hq => .inr hq) rfl

theorem linkPartial (hc : h.Classed c) (hs : h.spans s = some (.active m)) (hcls : m.cls = c) :
    (h.linkPartial c s).Classed c := by
  unfold SpanHeap.linkPartial
  dsimp only
  rw [master_eq (h := h.setList c _) hs, setMaster_eq (h := h.setList c _) hs]
  refine hc.update (m := { m with inPartial := true }) hcls (fun q hq => ?_) rfl
  have hq : q ∈ ((h.setList c { h.lists c with head := s :: (h.lists c).head }).lists c).head := hq
  rw [setList_self] at hq
  exact List.mem_cons.1 hq

theorem unlinkPartial (hc : h.Classed c) (hs : h.spans s = some (.active m)) (hcls : m.cls = c) :
    (h.unlinkPartial c s).Classed c := by
  unfold SpanHeap.unlinkPartial
  split
  · dsimp only
    rw [master_eq (h := h.setList c _) hs, setMaster_eq (h := h.setList c _) hs]
    refine hc.update (m := { m with inPartial := false }) hcls (fun q hq => .inr ?_) rfl
    have hq : q ∈ ((h.setList c { h.lists c with head := (h.lists c).head.erase s }).lists c).head := hq
    rw [setList_self] at hq
    exact List.mem_of_mem_erase hq
  · exact hc

end Classed

/-- Promised after a refill: by the heap, or of its chain. -/
def Fill.Promises (c : Fin t.num) (r : SpanHeap t × Fill) (a : Nat) : Prop :=
  r.1.Promises a ∨ r.2.virgin = true ∧ ∃ p ∈ r.2.chain, t.Interior c p a

theorem Fill.Promises.fainter (hf : Fainter h h') (ha : Fill.Promises c (h', f) a) :
    Fill.Promises c (h, f) a :=
  ha.imp_left fun ha => ha.fainter hf

/-- The block that is taken was promised by its span, if the span is virgin. -/
theorem Fill.Promises.popped {p : Nat} {rest : List Nat} {f₁ : Fill} (hs : h.spans s = some (.active m))
    (hfree : m.free = p :: rest) (hvirgin : f₁.virgin = true → f.virgin = true ∧ m.virgin = true)
    (hchain : f₁.chain = f.chain)
    (ha : Fill.Promises m.cls (h.setMaster s (m.popped rest),
      { f₁ with chain := p :: f₁.chain, count := f₁.count + 1 }) a) :
    Fill.Promises m.cls (h, f) a := by
  rcases ha with ha | ⟨hv, q, hq, ha⟩
  · have hrest : rest ⊆ m.free := hfree ▸ List.subset_cons_self p rest
    have hpopped : Fainter h (h.setMaster s (m.popped rest)) :=
      Fainter.setMaster hs fun hv => ⟨hv, rfl, hrest⟩
    exact .inl (ha.fainter hpopped)
  · obtain ⟨hf, hm⟩ := hvirgin hv
    rcases List.mem_cons.1 hq with rfl | hq
    · exact .inl ⟨s, m, hs, hm, q, by rw [hfree]; exact List.mem_cons_self, ha⟩
    · exact .inr ⟨hf, q, hchain ▸ hq, ha⟩

/-- The induction is on the rounds. -/
theorem fillSpans_promises (cap n : Nat) (hc : h.Classed c)
    (ha : Fill.Promises c (fillSpans c cap n h f) a) : Fill.Promises c (h, f) a := by
  induction n generalizing h f with
  | zero => exact ha
  | succ n ih =>
      unfold fillSpans at ha
      split at ha
      · exact ha
      · split at ha
        · exact ha
        · rename_i s rest hhead
          obtain ⟨m, hs, rfl⟩ := hc s (by rw [hhead]; exact List.mem_cons_self)
          dsimp only at ha
          rw [master_eq hs] at ha
          have hvirgin : (if m.virgin = true then f else { f with virgin := false }).virgin = true →
              f.virgin = true ∧ m.virgin = true := by
            intro hf
            split at hf
            · rename_i hm
              exact ⟨hf, hm⟩
            · cases hf
          have hchain : (if m.virgin = true then f else { f with virgin := false }).chain = f.chain := by
            split <;> rfl
          generalize (if m.virgin = true then f else { f with virgin := false }) = f₁ at *
          split at ha
          · rename_i p rest' hfree
            have hs' := setMaster_spans (m.popped rest') hs
            have hc' : (h.setMaster s (m.popped rest')).Classed m.cls := hc.setMaster hs rfl
            refine Fill.Promises.popped hs hfree hvirgin hchain ?_
            split at ha
            · exact (ih (hc'.unlinkPartial hs' rfl) ha).fainter (Fainter.unlinkPartial hs')
            · exact ih hc' ha
          · have hrest := (ih (hc.unlinkPartial hs rfl) ha).fainter (Fainter.unlinkPartial hs)
            apply hrest.imp_right
            rintro ⟨hv, p, hp, ha⟩
            exact ⟨(hvirgin hv).1, p, hchain ▸ hp, ha⟩

theorem fillFromList_promises (hc : h.Classed c) (ha : Fill.Promises c (h.fillFromList c f) a) :
    Fill.Promises c (h, f) a :=
  fillSpans_promises _ _ hc ha

theorem takeEmpty_promises (hok : h.Conserves arena out loose mapped)
    (ha : Fill.Promises c (h.takeEmpty c f) a) : Fill.Promises c (h, f) a := by
  unfold takeEmpty at ha
  split at ha
  · rename_i s rest hcount hempty
    obtain ⟨m, hs, hcls, -⟩ := (hok.empty c).2 s (by rw [hempty]; exact List.mem_cons_self)
    dsimp only at ha
    generalize hl : ({ h.lists c with
      empty := rest
      emptyCount := (h.lists c).emptyCount - 1
      emptyBytes := (h.lists c).emptyBytes - (h.master s).mappedBytes } : SpanList) = l at ha
    have hc : (h.setList c l).Classed c := by
      intro q hq
      rw [setList_self, ← hl] at hq
      exact hok.classed c q hq
    have hs' : (h.setList c l).spans s = some (.active m) := hs
    have hfill := fillFromList_promises (hc.linkPartial hs' hcls) ha
    rcases hfill.fainter (Fainter.linkPartial hs') with ha | ⟨hv, hchain⟩
    · exact .inl ha
    · exact .inr ⟨(Bool.and_eq_true_iff.1 hv).1, hchain⟩
  · exact ha

theorem takeCold_promises (hok : h.Conserves arena out loose mapped)
    (ha : Fill.Promises c (h.takeCold arena c f) a) : Fill.Promises c (h, f) a := by
  unfold takeCold at ha
  split at ha
  · rename_i base pages rest hcount hcold
    dsimp only at ha
    generalize hl : ({ h.lists c with
      cold := rest, coldBytes := (h.lists c).coldBytes - pages * pageSize } : SpanList) = l at ha
    have hhead : ((h.setList c l).lists c).head = (h.lists c).head := by
      rw [setList_self, ← hl]
    generalize hm : ({ SpanMaster.init arena c base pages with virgin := false } : SpanMaster t) = m at ha
    have hcls : m.cls = c := by rw [← hm]; rfl
    have hvirgin : m.virgin = false := by rw [← hm]
    generalize hcarved : ({ h.setList c l with
      spans := Function.update (h.setList c l).spans base (some (.active m)) } : SpanHeap t) = h₁ at ha
    have hspans : h₁.spans = Function.update h.spans base (some (.active m)) := by rw [← hcarved]; rfl
    have hs : h₁.spans base = some (.active m) := by rw [hspans, update_self]
    have hc : h₁.Classed c := (hok.classed c).update hcls (fun q hq => .inr (by
      rw [← hhead]
      rwa [← hcarved] at hq)) hspans
    have hfaint : Fainter h h₁ := by
      refine Fainter.update (fun y hy hv => ?_) hspans
      cases hy
      rw [hvirgin] at hv
      cases hv
    have hfill := fillFromList_promises (hc.linkPartial hs hcls) ha
    rcases hfill.fainter (hfaint.trans (Fainter.linkPartial hs)) with ha | ⟨hv, -⟩
    · exact .inl ha
    · cases hv
  · exact ha

/-- **A refill promises nothing new.** What is promised of its chain, if that is reported virgin, and of
what it leaves in the heap was promised before. -/
theorem takeLocked_promises (hok : h.Conserves arena out loose mapped)
    (ha : Fill.Promises c (h.takeLocked arena c) a) : h.Promises a := by
  have hfill : Filled arena c out loose mapped
      (h.fillFromList c { chain := [], count := 0, virgin := true }) :=
    fillFromList_filled (hok.filled rfl rfl)
  have hempty := takeEmpty_filled (f := (h.fillFromList c { chain := [], count := 0, virgin := true }).2)
    hfill
  have hmid : Fill.Promises c ((h.fillFromList c { chain := [], count := 0, virgin := true }).1.takeEmpty c
      (h.fillFromList c { chain := [], count := 0, virgin := true }).2) a :=
    takeCold_promises hempty.1 ha
  have hfirst := fillFromList_promises (hok.classed c) (takeEmpty_promises hfill.1 hmid)
  rcases hfirst with ha | ⟨-, p, hp, -⟩
  · exact ha
  · cases hp

/-- The span mapped for a refill is zero but for its headers and links. -/
theorem takeMapped_promises {p : Nat} {virgin : Bool} (hok : h.Conserves arena out loose mapped)
    (ha : Fill.Promises c ((h.carveMapped arena c p).takeMapped c p ⟨[], 0, virgin⟩) a) :
    h.Promises a ∨ p ≤ a ∧ a < p + t.spanPages c * pageSize := by
  unfold takeMapped at ha
  have hspans : (h.carveMapped arena c p).spans
      = Function.update h.spans p (some (.active (SpanMaster.init arena c p (t.spanPages c)))) := rfl
  have hs : (h.carveMapped arena c p).spans p
      = some (.active (SpanMaster.init arena c p (t.spanPages c))) := by rw [hspans, update_self]
  have hc : (h.carveMapped arena c p).Classed c :=
    (hok.classed c).update (m := SpanMaster.init arena c p (t.spanPages c)) rfl (fun q hq => .inr hq) hspans
  have hfill := fillFromList_promises (hc.linkPartial hs rfl) ha
  rcases hfill.fainter (Fainter.linkPartial hs) with ha | ⟨-, q, hq, -⟩
  · obtain ⟨s, m, hsm, hv, q, hq, ha⟩ := ha
    by_cases hsp : s = p
    · rw [hsp, hs] at hsm
      cases hsm
      exact .inr (ha.extent (List.mem_reverse.1 hq))
    · rw [hspans, update_of_ne hsp] at hsm
      exact .inl ⟨s, m, hsm, hv, q, hq, ha⟩
  · cases hq

/-! ### Releases -/

/-- The span that blocks were given back to is not virgin, if it is still there, and then it was kept. -/
def Left (h : SpanHeap t) (s : Nat) (fate : Fate) : Prop :=
  ∀ m, h.spans s = some (.active m) → m.virgin = false ∧ fate = .keep

/-- A span with a master that is not virgin. -/
theorem Left.keep (hs : h.spans s = some (.active m)) (hv : m.virgin = false) : Left h s .keep := by
  intro y hy
  cases hs.symm.trans hy
  exact ⟨hv, rfl⟩

theorem Left.link (hs : h.spans s = some (.active m)) (hv : m.virgin = false) :
    Left (h.linkPartial c s) s .keep := by
  intro y hy
  refine ⟨?_, rfl⟩
  by_contra hvirgin
  obtain ⟨z, hz, hvz, -⟩ := Fainter.linkPartial hs s y hy (Bool.not_eq_false _ ▸ hvirgin)
  cases hs.symm.trans hz
  rw [hv] at hvz
  cases hvz

/-- A master that is not virgin promises nothing. -/
theorem Fainter.dirty (hs : h.spans s = some (.active m)) (hv : m'.virgin = false) :
    Fainter h (h.setMaster s m') := by
  apply Fainter.setMaster hs
  intro hv'
  rw [hv] at hv'
  cases hv'

theorem parkEmptySpan_left (hs : h.spans s = some (.active m)) (hv : m.virgin = false) :
    Left (h.parkEmptySpan arena c d s).1 s (h.parkEmptySpan arena c d s).2 ∧
      Fainter h (h.parkEmptySpan arena c d s).1 := by
  have hunlinked := unlinkPartial_spans (c := c) hs
  have hfaint := Fainter.unlinkPartial (c := c) hs
  unfold parkEmptySpan
  dsimp only
  generalize h.unlinkPartial c s = h₁ at *
  -- cold or out of the heap, it is no span with a master any more
  have hout : ∀ (x : Option (Span t)) (h₂ : SpanHeap t) (fate : Fate), (∀ m', x ≠ some (.active m')) →
      h₂.spans = Function.update h₁.spans s x → Left h₂ s fate ∧ Fainter h h₂ := by
    intro x h₂ fate hx hspans
    have hf : Fainter h₁ h₂ := Fainter.update (fun m' hm' => absurd hm' (hx m')) hspans
    refine ⟨fun y hy => ?_, hfaint.trans hf⟩
    rw [hspans, update_self] at hy
    exact absurd hy (hx y)
  split
  · exact ⟨Left.keep (h := h₁.setList c _) hunlinked hv, hfaint⟩
  · split
    · exact hout (some (.cold c (h₁.master s).npages)) _ _ (fun _ => nofun) rfl
    · split
      · exact hout none _ _ (fun _ => nofun) rfl
      · exact hout none _ _ (fun _ => nofun) rfl

theorem releaseInner_left (hs : h.spans x.span = some (.active m)) :
    Left (h.releaseInner arena c d x).1 x.span (h.releaseInner arena c d x).2 ∧
      Fainter h (h.releaseInner arena c d x).1 := by
  unfold releaseInner
  dsimp only
  rw [master_eq hs]
  split
  · exact ⟨(parkEmptySpan_left (setMaster_spans _ hs) rfl).1,
      (Fainter.dirty hs rfl).trans (parkEmptySpan_left (setMaster_spans _ hs) rfl).2⟩
  · split
    · exact ⟨Left.keep (setMaster_spans _ hs) rfl, Fainter.dirty hs rfl⟩
    · exact ⟨Left.link (setMaster_spans _ hs) rfl,
        (Fainter.dirty hs rfl).trans (Fainter.linkPartial (setMaster_spans _ hs))⟩

end SpanHeap

/-! ### The tier -/

theorem map_spansInHand (c : Fin t.num) (home : Option Nat) (virgin : Bool) (chain : List Nat) :
    (spansInHand c home virgin chain).map Prod.fst = spanBlocks c home chain := by
  unfold spansInHand spanBlocks
  rw [Multiset.map_coe, List.map_map]
  rfl

theorem mem_spansInHand {c : Fin t.num} {home : Option Nat} {virgin : Bool} {chain : List Nat}
    {x : SpanBlock t × Bool} :
    x ∈ spansInHand c home virgin chain ↔ x.1 ∈ spanBlocks c home chain ∧ x.2 = virgin := by
  unfold spansInHand spanBlocks
  rw [Multiset.mem_coe, Multiset.mem_coe, List.mem_map, List.mem_map]
  constructor
  · rintro ⟨p, hp, rfl⟩
    exact ⟨⟨p, hp, rfl⟩, rfl⟩
  · rintro ⟨⟨p, hp, hblock⟩, hv⟩
    exact ⟨p, hp, Prod.ext hblock hv.symm⟩

namespace SpanStore

variable {ι : Type} [Fintype ι] [DecidableEq ι] {arena : Nat → Nat → Bool} {s s' : SpanStore t ι} {a : Nat}
  {b : SpanBlock t} {c : Fin t.num} {p : Nat} {k : ι}

/-- Nobody has written to the block but to its link word. -/
inductive Virgin (s : SpanStore t ι) (c : Fin t.num) (p : Nat) : Prop
  | hand (home : Option Nat) (hb : (⟨c, p, home⟩, true) ∈ s.hand)
  | list (k : ι) (hcls : s.cls k = c) (hp : p ∈ (s.lists k).bottom)

/-- The byte has to be zero. -/
inductive Promised (s : SpanStore t ι) (a : Nat) : Prop
  | block (c : Fin t.num) (p : Nat) (hp : s.Virgin c p) (ha : t.Interior c p a)
  | heap (ha : s.heap.Promises a)
  | fresh (e : Nat × Nat) (he : e ∈ s.fresh) (hlow : e.1 ≤ a) (hhigh : a < e.1 + e.2 * pageSize)

structure Sound (arena : Nat → Nat → Bool) (s : SpanStore t ι) : Prop where
  conserves : s.heap.Conserves arena s.out (s.fresh + s.doomed) s.mapped
  lists : ∀ k, (s.lists k).Ok
  zero : ∀ a, s.Promised a → s.mem a = 0

omit [DecidableEq ι] in
theorem mem_out_hand {virgin : Bool} (hb : (b, virgin) ∈ s.hand) :
    b ∈ s.hand.map Prod.fst + ∑ k, s.blocks k :=
  Multiset.mem_add.2 (.inl (Multiset.mem_map.2 ⟨_, hb, rfl⟩))

omit [DecidableEq ι] in
theorem mem_out_list (hp : p ∈ (s.lists k).blocks) :
    (⟨s.cls k, p, s.span k⟩ : SpanBlock t) ∈ s.hand.map Prod.fst + ∑ k, s.blocks k := by
  refine Multiset.mem_add.2 (.inr (Multiset.mem_sum.2 ⟨k, Finset.mem_univ k, ?_⟩))
  exact mem_spanBlocks.2 ⟨rfl, rfl, hp⟩

omit [Fintype ι] [DecidableEq ι] in
/-- If the lists are the same, it is about the hands. -/
theorem Virgin.rehand (hp : s'.Virgin c p) (hcls : s'.cls = s.cls) (hlists : s'.lists = s.lists)
    (hhand : ∀ home, (⟨c, p, home⟩, true) ∈ s'.hand → s.Virgin c p) : s.Virgin c p := by
  cases hp with
  | hand home hb => exact hhand home hb
  | list k hk hp =>
      rw [hcls] at hk
      rw [hlists] at hp
      exact .list k hk hp

omit [Fintype ι] [DecidableEq ι] in
theorem Promised.mono (ha : s'.Promised a) (hvirgin : ∀ c p, s'.Virgin c p → s.Virgin c p)
    (hheap : s'.heap = s.heap) (hfresh : ∀ e ∈ s'.fresh, e ∈ s.fresh) : s.Promised a := by
  cases ha with
  | block c p hp ha => exact .block c p (hvirgin c p hp) ha
  | heap ha => exact .heap (hheap ▸ ha)
  | fresh e he hlow hhigh => exact .fresh e (hfresh e he) hlow hhigh

omit [DecidableEq ι] in
/-- A virgin block is out, and not live. -/
theorem Virgin.out (hp : s.Virgin c p) :
    ∃ home, (⟨c, p, home⟩ : SpanBlock t) ∈ s.hand.map Prod.fst + ∑ k, s.blocks k := by
  cases hp with
  | hand home hb => exact ⟨home, mem_out_hand hb⟩
  | list k hcls hp =>
      subst hcls
      exact ⟨s.span k, mem_out_list (Bin.bottom_sub hp)⟩

omit [DecidableEq ι] in
theorem Sound.live_apart (h : s.Sound arena) {b' : SpanBlock t} (hlive : b ∈ s.live)
    (hb' : b' ∈ s.hand.map Prod.fst + ∑ k, s.blocks k) : b.addr ≠ b'.addr := by
  obtain ⟨live, hlive⟩ := Multiset.exists_cons_of_mem hlive
  obtain ⟨rest, hrest⟩ := Multiset.exists_cons_of_mem hb'
  have hout : s.out = {b} + ({b'} + (live + rest)) := by
    unfold out
    rw [hlive, hrest, ← Multiset.singleton_add, ← Multiset.singleton_add, add_assoc, add_left_comm live]
  have hok := h.conserves
  rw [hout] at hok
  have hsep := hok.separate
  have hsize := blockSize_pos t b.cls
  have hsize' := blockSize_pos t b'.cls
  unfold Separate at hsep
  dsimp only at hsep
  omega

omit [DecidableEq ι] in
/-- A fresh extent is no span. -/
theorem Sound.fresh_apart (h : s.Sound arena) {e : Nat × Nat} (he : e ∈ s.fresh) {base : Nat} {x : Span t}
    (hs : s.heap.spans base = some x) : Apart e (base, x.pages) := by
  have hok := h.conserves
  have hpos : 0 < (s.fresh + s.doomed).count e := Multiset.count_pos.2 (Multiset.mem_add.2 (.inl he))
  have hext := hok.extents e
  have hone := Multiset.nodup_iff_count_le_one.1 hok.mapped.distinct e
  refine hok.mapped.apart e (Multiset.count_pos.1 (by omega)) _ (hok.mem_mapped hs) ?_
  rintro rfl
  rw [hs, Option.map_some, if_pos rfl] at hext
  omega

omit [DecidableEq ι] in
/-- A promised byte of a span is in a block that is not live, behind the link word. -/
theorem Sound.promised_in (h : s.Sound arena) {base : Nat} {m : SpanMaster t}
    (hs : s.heap.spans base = some (.active m)) (hlow : base ≤ a) (hhigh : a < base + m.npages * pageSize)
    (ha : s.Promised a) :
    ∃ p ∈ t.carve m.cls base m.npages (arena base (m.npages * pageSize)),
      (∀ b ∈ s.live, b.addr ≠ p) ∧ t.Interior m.cls p a := by
  have hok := h.conserves
  -- a span that has the byte is this one
  have hsame : ∀ base' m', s.heap.spans base' = some (.active m') → base' ≤ a →
      a < base' + m'.npages * pageSize → base' = base ∧ m' = m := by
    intro base' m' hs' hlow' hhigh'
    by_cases hne : base' = base
    · subst hne
      cases hs'.symm.trans hs
      exact ⟨rfl, rfl⟩
    · have hapart := hok.apart hs' hs hne
      simp only [Apart, Span.pages] at hapart
      omega
  cases ha with
  | block c p hp ha =>
      obtain ⟨home, hb⟩ := hp.out
      obtain ⟨base', m', hs', rfl, hcarve, hin, -⟩ := hok.placed (Multiset.mem_add.2 (.inr hb))
      obtain ⟨hlow', hhigh'⟩ := ha.extent hcarve
      obtain ⟨rfl, rfl⟩ := hsame base' m' hs' hlow' hhigh'
      exact ⟨p, hcarve, fun l hl => h.live_apart hl hb, ha⟩
  | heap ha =>
      obtain ⟨base', m', hs', -, p, hp, ha⟩ := ha
      have hcarve := hok.free_carved hs' hp
      have hroom := mem_carve hcarve
      obtain ⟨hlow', hhigh'⟩ := ha.extent hcarve
      obtain ⟨rfl, rfl⟩ := hsame base' m' hs' hlow' hhigh'
      refine ⟨p, hcarve, fun l hl haddr => ?_, ha⟩
      have hnodup := (hok.span base' m' hs').nodup
      rw [Multiset.nodup_add] at hnodup
      have hsize := blockSize_pos t m'.cls
      have hout : p ∈ outIn s.out base' m'.npages :=
        mem_outIn.2 ⟨by omega, l, Multiset.mem_add.2 (.inl hl), haddr⟩
      exact Multiset.disjoint_left.1 hnodup.2.2 (Multiset.mem_coe.2 hp) hout
  | fresh e he helow hehigh =>
      have hapart := h.fresh_apart he hs
      simp only [Apart, Span.pages] at hapart
      omega

/-! ### Steps -/

omit [DecidableEq ι] in
/-- Blocks move between the hands, the lists and the users, and what is written is zero. -/
theorem Sound.shuffle (h : s.Sound arena) (hheap : s'.heap = s.heap) (hfresh : s'.fresh = s.fresh)
    (hconserves : s.heap.Conserves arena s'.out (s.fresh + s'.doomed) s'.mapped)
    (hmem : ∀ a, s'.mem a = s.mem a ∨ s'.mem a = 0) (hlists : ∀ k, (s'.lists k).Ok)
    (hvirgin : ∀ c p, s'.Virgin c p → s.Virgin c p) : s'.Sound arena := by
  refine ⟨?_, hlists, fun a ha => ?_⟩
  · rw [hheap, hfresh]
    exact hconserves
  · have hbefore : s.Promised a := ha.mono hvirgin hheap fun e he => hfresh ▸ he
    rcases hmem a with hold | hzero
    · rw [hold]
      exact h.zero a hbefore
    · exact hzero

omit [DecidableEq ι] in
/-- A byte that is not promised is written. -/
theorem Sound.store (h : s.Sound arena) {v : UInt8} (hnot : ¬s.Promised a) :
    Sound arena { s with mem := update s.mem a v } := by
  refine ⟨h.conserves, h.lists, fun a' ha => ?_⟩
  have hpromised : s.Promised a' := by
    apply ha.mono
    · intro c p hp
      exact hp.rehand rfl rfl fun home hb => .hand home hb
    · rfl
    · exact fun e he => he
  have hne : a' ≠ a := by
    rintro rfl
    exact hnot hpromised
  show update s.mem a v a' = 0
  rw [update_of_ne hne]
  exact h.zero a' hpromised

omit [DecidableEq ι] in
theorem Sound.write (h : s.Sound arena) {v : UInt8} (hlive : b ∈ s.live) (hlow : b.addr ≤ a)
    (hhigh : a < b.addr + t.blockSize b.cls) : Sound arena { s with mem := update s.mem a v } := by
  refine h.store fun ha => ?_
  obtain ⟨base, m, hs, hcls, hcarve, -⟩ := h.conserves.placed (b := b) (Multiset.mem_add.2 (.inl hlive))
  have hroom := mem_carve hcarve
  rw [← hcls] at hhigh
  obtain ⟨p, hp, hnot, hin⟩ := h.promised_in hs (by omega) (by omega) ha
  have hsep := carve_separate hcarve hp (hnot b hlive)
  obtain ⟨hplow, hphigh⟩ := hin.inside
  unfold Separate at hsep
  dsimp only at hsep
  omega

omit [DecidableEq ι] in
theorem Sound.header (h : s.Sound arena) {v : UInt8} {base : Nat} {m : SpanMaster t}
    (hs : s.heap.spans base = some (.active m))
    (ha : t.InHeader base m.npages (arena base (m.npages * pageSize)) a) :
    Sound arena { s with mem := update s.mem a v } := by
  refine h.store fun hpromised => ?_
  have hpages := (h.conserves.mapped.aligned _ (h.conserves.mem_mapped hs)).2
  have hextent : base ≤ a ∧ a < base + m.npages * pageSize := by
    rcases ha with ⟨hlow, hhigh⟩ | ⟨-, hlow, hhigh, -⟩
    · simp only [Span.pages, pageSize, spanMasterSize] at *
      omega
    · exact ⟨hlow, hhigh⟩
  obtain ⟨p, hp, -, hin⟩ := h.promised_in hs hextent.1 hextent.2 hpromised
  obtain ⟨hplow, hphigh⟩ := hin.inside
  have hout := carve_header hp ha
  omega

omit [DecidableEq ι] in
theorem Sound.link (h : s.Sound arena) {v : UInt8} {base : Nat} {m : SpanMaster t}
    (hs : s.heap.spans base = some (.active m))
    (hp : p ∈ t.carve m.cls base m.npages (arena base (m.npages * pageSize))) (hlow : p ≤ a)
    (hhigh : a < p + linkBytes) : Sound arena { s with mem := update s.mem a v } := by
  refine h.store fun ha => ?_
  have hsize := blockSize_pos t m.cls
  have hroom := mem_carve hp
  have hword : linkBytes ≤ 16 := by decide
  obtain ⟨q, hq, -, hin⟩ := h.promised_in hs (by omega) (by omega) ha
  obtain ⟨hqlow, hqhigh⟩ := hin
  by_cases heq : p = q
  · subst heq
    omega
  · have hsep := carve_separate hp hq heq
    unfold Separate at hsep
    dsimp only at hsep
    omega

omit [DecidableEq ι] in
/-- A section of the heap hands out a chain. -/
theorem Sound.take (h : s.Sound arena) {r : SpanHeap t × Fill} {fresh : Multiset (Nat × Nat)}
    (hok : SpanHeap.Filled arena c s.out (fresh + s.doomed) s.mapped r) (hfresh : ∀ e ∈ fresh, e ∈ s.fresh)
    (hr : ∀ a, SpanHeap.Fill.Promises c r a → s.Promised a) :
    Sound arena { s with
      heap := r.1, hand := s.hand + spansInHand c none r.2.virgin r.2.chain, fresh } := by
  refine ⟨?_, h.lists, fun a ha => h.zero a ?_⟩
  · have hout : (out { s with
        heap := r.1, hand := s.hand + spansInHand c none r.2.virgin r.2.chain, fresh } :
          Multiset (SpanBlock t)) = s.out + spanBlocks c none r.2.chain := by
      unfold out
      dsimp only
      rw [Multiset.map_add, map_spansInHand, add_right_comm, ← add_assoc]
      rfl
    rw [hout]
    exact hok.1
  · cases ha with
    | block c' p hp ha =>
        cases hp with
        | hand home hb =>
            rcases Multiset.mem_add.1 hb with hold | hchain
            · exact .block c' p (.hand home hold) ha
            · obtain ⟨hblock, hv⟩ := mem_spansInHand.1 hchain
              obtain ⟨rfl, -, hp⟩ := mem_spanBlocks.1 hblock
              exact hr a (.inr ⟨hv.symm, p, hp, ha⟩)
        | list k hcls hp => exact .block c' p (.list k hcls hp) ha
    | heap ha => exact hr a (.inl ha)
    | fresh e he hlow hhigh => exact .fresh e (hfresh e he) hlow hhigh

omit [DecidableEq ι] in
/-- A section of the heap takes a chain back. -/
theorem Sound.giveBack (h : s.Sound arena) {x : ReleaseChunk} {d : Discarded}
    {hand back : Multiset (SpanBlock t × Bool)} {mem : Nat → UInt8} (hx : SpanHeap.Chunk x)
    (hhand : s.hand = hand + back) (hback : back.map Prod.fst = SpanHeap.chunkBlocks c x)
    (hmem : Settles x.span (s.heap.master x.span).npages (s.heap.releaseInner arena c d x).2 s.mem mem) :
    Sound arena { s with
      heap := (s.heap.releaseInner arena c d x).1
      hand
      doomed := SpanHeap.unmapped x.span (s.heap.releaseInner arena c d x).2 + s.doomed
      mem } := by
  have hout : s.out = s.live + (hand.map Prod.fst + ∑ k, s.blocks k) + SpanHeap.chunkBlocks c x := by
    unfold out
    rw [hhand, Multiset.map_add, hback, add_right_comm, ← add_assoc]
  have hok := h.conserves
  rw [hout] at hok
  obtain ⟨m, hspan, -⟩ := hok.chunk_span hx
  rw [SpanHeap.master_eq hspan] at hmem
  have hafter := SpanHeap.releaseInner_conserves hok hx d
  obtain ⟨hleft, hfaint⟩ := SpanHeap.releaseInner_left (c := c) (d := d) hspan
  have hleft : SpanHeap.Left (s.heap.releaseInner arena c d x).1 x.span
      (s.heap.releaseInner arena c d x).2 := hleft
  have hfaint : SpanHeap.Fainter s.heap (s.heap.releaseInner arena c d x).1 := hfaint
  generalize s.heap.releaseInner arena c d x = r at *
  refine ⟨?_, h.lists, fun a ha => ?_⟩
  · show r.1.Conserves arena (s.live + (hand.map Prod.fst + ∑ k, s.blocks k))
      (s.fresh + (SpanHeap.unmapped x.span r.2 + s.doomed)) s.mapped
    have hloose : s.fresh + (SpanHeap.unmapped x.span r.2 + s.doomed)
        = SpanHeap.unmapped x.span r.2 + (s.fresh + s.doomed) := add_left_comm _ _ _
    rw [hloose]
    exact hafter
  · have hstay : s.Promised a → (x.span ≤ a → a < x.span + m.npages * pageSize → r.2 = .keep) →
        mem a = 0 := by
      intro hpromised hkeep
      by_cases hat : x.span ≤ a ∧ a < x.span + m.npages * pageSize
      · rw [hmem.kept (hkeep hat.1 hat.2)]
        exact h.zero a hpromised
      · rw [hmem.elsewhere a hat]
        exact h.zero a hpromised
    have hother : ∀ base y, r.1.spans base = some (.active y) → base ≠ x.span →
        Apart (base, y.npages) (x.span, m.npages) := by
      intro base y hy hne
      refine hok.mapped.apart _ (hafter.mem_mapped hy) _ (hok.mem_mapped hspan) ?_
      intro heq
      exact hne (congrArg Prod.fst heq)
    -- only a span that is kept still has blocks outside
    have hlast : ∀ home c' p, (⟨c', p, home⟩ : SpanBlock t) ∈ hand.map Prod.fst + ∑ k, s.blocks k →
        t.Interior c' p a → x.span ≤ a → a < x.span + m.npages * pageSize → r.2 = .keep := by
      intro home c' p hb hin hlow hhigh
      obtain ⟨base, y, hy, rfl, hcarve, -⟩ := hafter.placed (Multiset.mem_add.2 (.inr hb))
      obtain ⟨hblow, hbhigh⟩ := hin.extent hcarve
      have hbase : base = x.span := by
        by_contra hne
        have hapart := hother base y hy hne
        simp only [Apart] at hapart
        omega
      rw [hbase] at hy
      exact (hleft y hy).2
    cases ha with
    | block c' p hp ha =>
        cases hp with
        | hand home hb =>
            have hbefore : (⟨c', p, home⟩, true) ∈ s.hand := by
              rw [hhand]
              exact Multiset.mem_add.2 (.inl hb)
            refine hstay (.block c' p (.hand home hbefore) ha) (hlast home c' p ?_ ha)
            exact Multiset.mem_add.2 (.inl (Multiset.mem_map.2 ⟨_, hb, rfl⟩))
        | list k hcls hp =>
            subst hcls
            refine hstay (.block _ p (.list k rfl hp) ha) (hlast (s.span k) _ p ?_ ha)
            refine Multiset.mem_add.2 (.inr (Multiset.mem_sum.2 ⟨k, Finset.mem_univ k, ?_⟩))
            exact mem_spanBlocks.2 ⟨rfl, rfl, Bin.bottom_sub hp⟩
    | heap ha =>
        refine hstay (.heap (ha.fainter hfaint)) fun hlow hhigh => ?_
        obtain ⟨base, y, hy, hv, p, hp, hin⟩ := ha
        have hne : base ≠ x.span := by
          rintro rfl
          rw [(hleft y hy).1] at hv
          cases hv
        obtain ⟨hblow, hbhigh⟩ := hin.extent (hafter.free_carved hy hp)
        have hapart := hother base y hy hne
        simp only [Apart] at hapart
        omega
    | fresh e he hlow hhigh =>
        refine hstay (.fresh e he hlow hhigh) fun hslow hshigh => ?_
        have hapart := h.fresh_apart he hspan
        simp only [Apart, Span.pages] at hapart
        omega

/-- A list changes its blocks for others. -/
theorem sum_setList (s : SpanStore t ι) (k : ι) (home : Option Nat) (b : Bin) :
    (∑ j, (s.setList k home b).blocks j) + s.blocks k
      = (∑ j, s.blocks j) + spanBlocks (s.cls k) home b.blocks := by
  have hblocks : ∀ j, (s.setList k home b).blocks j
      = spanBlocks (s.cls j) (update (fun j => (s.span j, s.lists j)) k (home, b) j).1
          (update (fun j => (s.span j, s.lists j)) k (home, b) j).2.blocks := by
    intro j
    show spanBlocks (s.cls j) (update s.span k home j) (update s.lists k b j).blocks = _
    by_cases hj : j = k
    · rw [hj, update_self, update_self, update_self]
    · rw [update_of_ne hj, update_of_ne hj, update_of_ne hj]
  rw [Finset.sum_congr rfl fun j _ => hblocks j]
  exact sum_update_add (fun j (x : Option Nat × Bin) => spanBlocks (s.cls j) x.1 x.2.blocks) _ k (home, b)

/-- One list changes, and blocks go to it or come from it. -/
theorem Sound.relist (h : s.Sound arena) {home : Option Nat} {b : Bin}
    {hand : Multiset (SpanBlock t × Bool)} (hb : b.Ok)
    (hmove : hand.map Prod.fst + spanBlocks (s.cls k) home b.blocks
      = s.hand.map Prod.fst + s.blocks k)
    (hhand : ∀ c p home, (⟨c, p, home⟩, true) ∈ hand → s.Virgin c p)
    (hbottom : ∀ p ∈ b.bottom, s.Virgin (s.cls k) p) :
    Sound arena { s.setList k home b with hand } := by
  have hall : hand.map Prod.fst + ∑ j, (s.setList k home b).blocks j
      = s.hand.map Prod.fst + ∑ j, s.blocks j := by
    apply add_right_cancel (b := s.blocks k)
    calc
      hand.map Prod.fst + ∑ j, (s.setList k home b).blocks j + s.blocks k
        = hand.map Prod.fst + spanBlocks (s.cls k) home b.blocks + ∑ j, s.blocks j := by
          rw [add_assoc, sum_setList]
          ac_rfl
      _ = s.hand.map Prod.fst + ∑ j, s.blocks j + s.blocks k := by
          rw [hmove]
          ac_rfl
  have hout : out { s.setList k home b with hand } = s.out := congrArg (s.live + ·) hall
  refine h.shuffle rfl rfl ?_ ?_ ?_ ?_
  · rw [hout]
    exact h.conserves
  · exact fun _ => .inl rfl
  · intro j
    show (update s.lists k b j).Ok
    by_cases hj : j = k
    · rw [hj, update_self]
      exact hb
    · rw [update_of_ne hj]
      exact h.lists j
  · intro c p hp
    cases hp with
    | hand home hmem => exact hhand c p home hmem
    | list j hcls hp =>
        have hcls : s.cls j = c := hcls
        have hp : p ∈ (update s.lists k b j).bottom := hp
        by_cases hj : j = k
        · rw [hj, update_self] at hp
          rw [← hcls, hj]
          exact hbottom p hp
        · rw [update_of_ne hj] at hp
          exact .list j hcls hp

omit [Fintype ι] [DecidableEq ι] in
/-- Of a chain in hand. -/
theorem Virgin.chain {home : Option Nat} {virgin : Bool} {chain : List Nat}
    {hand : Multiset (SpanBlock t × Bool)} (hhand : s.hand = spansInHand c home virgin chain + hand)
    (hvirgin : virgin = true) (hp : p ∈ chain) : s.Virgin c p := by
  refine .hand home ?_
  rw [hhand]
  refine Multiset.mem_add.2 (.inl (mem_spansInHand.2 ⟨?_, hvirgin.symm⟩))
  exact mem_spanBlocks.2 ⟨rfl, rfl, hp⟩

omit [Fintype ι] [DecidableEq ι] in
theorem Virgin.rest {back hand : Multiset (SpanBlock t × Bool)} (hhand : s.hand = back + hand)
    {home : Option Nat} (hb : (⟨c, p, home⟩, true) ∈ hand) : s.Virgin c p := by
  refine .hand home ?_
  rw [hhand]
  exact Multiset.mem_add.2 (.inr hb)

theorem Sound.install (h : s.Sound arena) {home : Option Nat} {virgin : Bool} {rest : List Nat}
    {hand : Multiset (SpanBlock t × Bool)} (hempty : (s.lists k).blocks = [])
    (hhand : s.hand = spansInHand (s.cls k) home virgin rest + hand) :
    Sound arena { s.setList k home
      { blocks := rest, len := rest.length, virgin := if virgin then rest.length else 0 } with hand } := by
  apply h.relist (Bin.Ok.filled rest virgin)
  · have hnone : s.blocks k = 0 := by
      unfold blocks
      rw [hempty, spanBlocks_nil]
    rw [hhand, hnone, Multiset.map_add, map_spansInHand, add_zero, add_comm]
  · intro c p home' hb
    exact Virgin.rest hhand hb
  · intro p hp
    obtain ⟨hvirgin, hmem⟩ := Bin.bottom_filled rest virgin hp
    exact Virgin.chain hhand hvirgin hmem

theorem Sound.pop (h : s.Sound arena) {virgin : Bool} {b : Bin}
    (hpop : (s.lists k).pop = some (p, virgin, b)) :
    Sound arena { s.setList k (s.span k) b with
      hand := {(⟨s.cls k, p, s.span k⟩, virgin)} + s.hand } := by
  obtain ⟨hblocks, hvirgin, hbottom⟩ := (h.lists k).pop_bottom hpop
  apply h.relist ((h.lists k).pop hpop).1
  · unfold blocks
    rw [hblocks, spanBlocks_cons, Multiset.map_add, Multiset.map_singleton, add_assoc, add_left_comm]
  · intro c q home hb
    rcases Multiset.mem_add.1 hb with hself | hold
    · rw [Multiset.mem_singleton, Prod.mk.injEq] at hself
      obtain ⟨hblock, htrue⟩ := hself
      cases hblock
      exact .list k rfl (hvirgin htrue.symm)
    · exact .hand home hold
  · intro q hq
    exact .list k rfl (hbottom q hq)

theorem Sound.push (h : s.Sound arena) {virgin : Bool} {hand : Multiset (SpanBlock t × Bool)}
    (hhand : s.hand = {(⟨s.cls k, p, s.span k⟩, virgin)} + hand) :
    Sound arena { s.setList k (s.span k) ((s.lists k).push p) with hand } := by
  apply h.relist ((h.lists k).push p).1
  · show hand.map Prod.fst + spanBlocks (s.cls k) (s.span k) (p :: (s.lists k).blocks) = _
    unfold blocks
    rw [hhand, Multiset.map_add, Multiset.map_singleton, spanBlocks_cons, add_assoc, add_left_comm]
  · intro c q home hb
    exact Virgin.rest hhand hb
  · intro q hq
    rw [(h.lists k).push_bottom] at hq
    exact .list k rfl hq

theorem Sound.drain (h : s.Sound arena) (k : ι) :
    Sound arena { s.setList k none .empty with
      hand := s.hand + spansInHand (s.cls k) (s.span k) false (s.lists k).blocks } := by
  apply h.relist .empty
  · rw [Multiset.map_add, map_spansInHand]
    exact add_zero _
  · intro c p home hb
    rcases Multiset.mem_add.1 hb with hold | hchain
    · exact .hand home hold
    · cases (mem_spansInHand.1 hchain).2
  · intro p hp
    cases hp

theorem Sound.forget (h : s.Sound arena) (k : ι) :
    Sound arena (s.setList k (s.span k) { s.lists k with virgin := 0 }) := by
  have hok : Bin.Ok { s.lists k with virgin := 0 } := ⟨(h.lists k).len, Nat.zero_le _⟩
  have hnone : Bin.bottom { s.lists k with virgin := 0 } = [] := by
    apply List.drop_eq_nil_of_le
    rw [Nat.sub_zero]
    exact (h.lists k).len.ge
  have hforgot : Sound arena { s.setList k (s.span k) { s.lists k with virgin := 0 } with
      hand := s.hand } := by
    apply h.relist hok rfl
    · intro c p home hb
      exact .hand home hb
    · intro p hp
      rw [hnone] at hp
      cases hp
  exact hforgot

omit [DecidableEq ι] in
/-- What is known of the span of a block in hand changes. -/
theorem Sound.identify (h : s.Sound arena) {home : Option Nat} {virgin : Bool}
    {hand : Multiset (SpanBlock t × Bool)} (hhand : s.hand = {(b, virgin)} + hand)
    (hhome : ∀ x, home = some x → x = s.heap.masterOf b.addr) :
    Sound arena { s with hand := {({ b with home }, virgin)} + hand } := by
  obtain ⟨c, p, old⟩ := b
  have hbefore : s.out = {⟨c, p, old⟩} + (s.live + (hand.map Prod.fst + ∑ k, s.blocks k)) := by
    unfold out
    rw [hhand, Multiset.map_add, Multiset.map_singleton, add_assoc, add_left_comm]
  have hafter : out { s with hand := {(⟨c, p, home⟩, virgin)} + hand }
      = {⟨c, p, home⟩} + (s.live + (hand.map Prod.fst + ∑ k, s.blocks k)) := by
    unfold out
    rw [Multiset.map_add, Multiset.map_singleton, add_assoc, add_left_comm]
    rfl
  have hok := h.conserves
  rw [hbefore] at hok
  refine h.shuffle rfl rfl ?_ ?_ ?_ ?_
  · rw [hafter]
    exact hok.rehome hhome
  · exact fun _ => .inl rfl
  · exact h.lists
  · intro c' q hq
    refine Virgin.rehand (s := s) hq rfl rfl fun home' hb => ?_
    rcases Multiset.mem_add.1 hb with hself | hold
    · rw [Multiset.mem_singleton, Prod.mk.injEq] at hself
      obtain ⟨hblock, hv⟩ := hself
      cases hblock
      refine .hand old ?_
      rw [hhand, hv]
      exact Multiset.mem_add.2 (.inl (Multiset.mem_singleton_self _))
    · exact Virgin.rest hhand hold

omit [DecidableEq ι] in
/-- A block goes to a user, and what is written is zero. -/
theorem Sound.give (h : s.Sound arena) {virgin : Bool} {hand : Multiset (SpanBlock t × Bool)}
    {mem : Nat → UInt8} (hhand : s.hand = {(b, virgin)} + hand)
    (hmem : ∀ a, mem a = s.mem a ∨ mem a = 0) :
    Sound arena { s with hand, live := {b} + s.live, mem } := by
  have hout : out { s with hand, live := {b} + s.live, mem } = s.out := by
    show {b} + s.live + (hand.map Prod.fst + ∑ k, s.blocks k) = s.out
    unfold out
    rw [hhand, Multiset.map_add, Multiset.map_singleton, add_assoc, add_assoc, add_left_comm]
  refine h.shuffle rfl rfl ?_ ?_ ?_ ?_
  · rw [hout]
    exact h.conserves
  · exact hmem
  · exact h.lists
  · intro c p hp
    exact hp.rehand rfl rfl fun home hb => Virgin.rest hhand hb

omit [DecidableEq ι] in
theorem Sound.free (h : s.Sound arena) {live : Multiset (SpanBlock t)} (hlive : s.live = {b} + live) :
    Sound arena { s with hand := {(b, false)} + s.hand, live } := by
  have hout : out { s with hand := {(b, false)} + s.hand, live } = s.out := by
    show live + (Multiset.map Prod.fst ({(b, false)} + s.hand) + ∑ k, s.blocks k) = s.out
    unfold out
    rw [hlive, Multiset.map_add, Multiset.map_singleton, add_assoc {b} live, add_assoc, add_left_comm]
  refine h.shuffle rfl rfl ?_ ?_ ?_ ?_
  · rw [hout]
    exact h.conserves
  · exact fun _ => .inl rfl
  · exact h.lists
  · intro c p hp
    refine Virgin.rehand (s := s) hp rfl rfl fun home hb => ?_
    rcases Multiset.mem_add.1 hb with hself | hold
    · rw [Multiset.mem_singleton, Prod.mk.injEq] at hself
      cases hself.2
    · exact .hand home hold

omit [DecidableEq ι] in
theorem Sound.map (h : s.Sound arena) {e : Nat × Nat} {mem : Nat → UInt8}
    (hextents : Extents ({e} + s.mapped))
    (helsewhere : ∀ a, ¬(e.1 ≤ a ∧ a < e.1 + e.2 * pageSize) → mem a = s.mem a)
    (hzero : ∀ a, e.1 ≤ a → a < e.1 + e.2 * pageSize → mem a = 0) :
    Sound arena { s with fresh := {e} + s.fresh, mapped := {e} + s.mapped, mem } := by
  refine ⟨?_, h.lists, fun a ha => ?_⟩
  · apply h.conserves.remap
    · intro e'
      rw [Multiset.count_add, Multiset.count_add, Multiset.count_add, Multiset.count_add]
      dsimp only
      omega
    · exact hextents
  · show mem a = 0
    by_cases hin : e.1 ≤ a ∧ a < e.1 + e.2 * pageSize
    · exact hzero a hin.1 hin.2
    · rw [helsewhere a hin]
      apply h.zero
      cases ha with
      | block c p hp ha =>
          exact .block c p (hp.rehand rfl rfl fun home hb => .hand home hb) ha
      | heap ha => exact .heap ha
      | fresh e' he' hlow hhigh =>
          rcases Multiset.mem_add.1 he' with hself | hold
          · rw [Multiset.mem_singleton] at hself
            subst hself
            exact absurd ⟨hlow, hhigh⟩ hin
          · exact .fresh e' hold hlow hhigh

omit [DecidableEq ι] in
theorem Sound.unmap (h : s.Sound arena) {e : Nat × Nat} {doomed mapped : Multiset (Nat × Nat)}
    (hdoomed : s.doomed = {e} + doomed) (hmapped : s.mapped = {e} + mapped) :
    Sound arena { s with doomed, mapped } := by
  have hok := h.conserves
  have hextents := hok.mapped
  rw [hmapped] at hextents
  have hsub : ∀ e' ∈ mapped, e' ∈ {e} + mapped := fun e' he' => Multiset.mem_add.2 (.inr he')
  refine h.shuffle rfl rfl ?_ ?_ ?_ ?_
  · apply hok.remap
    · intro e'
      rw [hdoomed, hmapped, Multiset.count_add, Multiset.count_add, Multiset.count_add,
        Multiset.count_add]
      dsimp only
      omega
    · exact ⟨(Multiset.nodup_add.1 hextents.distinct).2.1,
        fun e₁ he₁ e₂ he₂ hne => hextents.apart e₁ (hsub e₁ he₁) e₂ (hsub e₂ he₂) hne,
        fun e' he' => hextents.aligned e' (hsub e' he')⟩
  · exact fun _ => .inl rfl
  · exact h.lists
  · intro c p hp
    exact hp.rehand rfl rfl fun home hb => .hand home hb

/-- No step breaks a promise. -/
theorem Sound.step (h : s.Sound arena) (hstep : Step arena s s') : s'.Sound arena := by
  cases hstep with
  | map e mem hextents helsewhere hzero => exact h.map hextents helsewhere hzero
  | unmap e doomed mapped hdoomed hmapped => exact h.unmap hdoomed hmapped
  | takeLocked c =>
      apply h.take (SpanHeap.takeLocked_filled h.conserves)
      · exact fun e he => he
      · intro a ha
        exact .heap (SpanHeap.takeLocked_promises h.conserves ha)
  | takeMapped c p virgin fresh hfresh =>
      have hok := h.conserves
      rw [hfresh, add_assoc] at hok
      apply h.take (SpanHeap.takeMapped_filled hok rfl rfl)
      · intro e he
        rw [hfresh]
        exact Multiset.mem_add.2 (.inr he)
      · intro a ha
        rcases SpanHeap.takeMapped_promises hok ha with hold | ⟨hlow, hhigh⟩
        · exact .heap hold
        · refine .fresh (p, t.spanPages c) ?_ hlow hhigh
          rw [hfresh]
          exact Multiset.mem_add.2 (.inl (Multiset.mem_singleton_self _))
  | identify b home virgin hand hhand hhome => exact h.identify hhand hhome
  | install k home virgin rest hand hempty hhand => exact h.install hempty hhand
  | pop k p virgin b hpop => exact h.pop hpop
  | push k p virgin hand hhand => exact h.push hhand
  | drain k => exact h.drain k
  | forget k => exact h.forget k
  | release c x d hand back mem hx hhand hback hmem => exact h.giveBack hx hhand hback hmem
  | give b virgin hand hhand => exact h.give hhand fun _ => .inl rfl
  | giveZeroed b virgin hand size hhand =>
      apply h.give hhand
      intro a
      show SmallTier.zeroFill s.mem b.addr size virgin a = s.mem a ∨
        SmallTier.zeroFill s.mem b.addr size virgin a = 0
      unfold SmallTier.zeroFill
      by_cases hin : b.addr ≤ a ∧ a < b.addr + (if virgin then linkBytes else size)
      · exact .inr (if_pos hin)
      · exact .inl (if_neg hin)
  | free b live hlive => exact h.free hlive
  | write b a v hlive hlow hhigh => exact h.write hlive hlow hhigh
  | header base a m v hspan ha => exact h.header hspan ha
  | link base p a m v hspan hp hlow hhigh => exact h.link hspan hp hlow hhigh

omit [DecidableEq ι] in
theorem Sound.new (cls : ι → Fin t.num) (mem : Nat → UInt8) : Sound arena (new cls mem) := by
  have hlists : ∑ k, (SpanStore.new cls mem).blocks k = 0 := Finset.sum_eq_zero fun _ _ => rfl
  have hout : (SpanStore.new cls mem).out = 0 := by
    unfold out
    rw [hlists]
    rfl
  refine ⟨?_, fun _ => .empty, fun a ha => ?_⟩
  · rw [hout]
    exact SpanHeap.new_books arena t
  · cases ha with
    | block c p hp ha =>
        cases hp with
        | hand home hb => exact absurd hb (Multiset.notMem_zero _)
        | list k hcls hp => cases hp
    | heap ha =>
        obtain ⟨base, m, hs, -⟩ := ha
        cases hs
    | fresh e he hlow hhigh => exact absurd he (Multiset.notMem_zero _)

theorem Reach.sound (hr : Reach arena s) : s.Sound arena := by
  induction hr with
  | new cls mem => exact .new cls mem
  | step _ hstep ih => exact ih.step hstep

/-- **A medium or big block of `alloc_zeroed` reads as zero.** Whatever the caches, the heap and the users
of other blocks have done, and whatever a thread was told of the block it is about to return, all bytes
that were asked for are zero after `alloc_zeroed_impl` has written what it then writes. -/
theorem zeroed_span_blocks {size : Nat} {virgin : Bool} (hr : Reach arena s) (hb : (b, virgin) ∈ s.hand)
    (hsize : size ≤ t.blockSize b.cls) (hlow : b.addr ≤ a) (hhigh : a < b.addr + size) :
    SmallTier.zeroFill s.mem b.addr size virgin a = 0 := by
  unfold SmallTier.zeroFill
  cases virgin with
  | false => exact if_pos ⟨hlow, hhigh⟩
  | true =>
      by_cases hword : a < b.addr + linkBytes
      · exact if_pos ⟨hlow, hword⟩
      · have hbehind : t.Interior b.cls b.addr a := ⟨Nat.not_lt.1 hword, by omega⟩
        rw [if_neg fun hin => hword hin.2]
        exact hr.sound.zero a (.block b.cls b.addr (.hand b.home hb) hbehind)

/-- A fresh span of the smallest medium class next to memory full of something else. -/
def oneSpan : SpanStore .medium (Fin 1) :=
  { SpanStore.new (fun _ => 0) (fun _ => 255) with
    fresh := {(pageSize, SpanTier.medium.spanPages 0)} + 0
    mapped := {(pageSize, SpanTier.medium.spanPages 0)} + 0
    mem := fun a =>
      if pageSize ≤ a ∧ a < pageSize + SpanTier.medium.spanPages 0 * pageSize then 0 else 255 }

theorem oneSpan_reach : Reach (fun _ _ => true) oneSpan := by
  have hone : Extents ({(pageSize, SpanTier.medium.spanPages 0)} + 0) := by
    rw [add_zero]
    refine ⟨Multiset.nodup_singleton _, fun e he e' he' hne => ?_, fun e he => ?_⟩
    · rw [Multiset.mem_singleton] at he he'
      exact absurd (he.trans he'.symm) hne
    · rw [Multiset.mem_singleton] at he
      subst he
      exact ⟨by decide, by decide⟩
  exact .step (.new (fun _ => 0) fun _ => 255)
    (.map (pageSize, SpanTier.medium.spanPages 0) oneSpan.mem hone (fun _ ha => if_neg ha)
      fun _ hlow hhigh => if_pos ⟨hlow, hhigh⟩)

/-- The first two blocks of the span are in the first batch, which is virgin. -/
theorem firstBatch : ∃ rest, spansInHand 0 none
    ((oneSpan.heap.carveMapped (fun _ _ => true) 0 pageSize).takeMapped 0 pageSize
      ⟨[], 0, true⟩).2.virgin
    ((oneSpan.heap.carveMapped (fun _ _ => true) 0 pageSize).takeMapped 0 pageSize
      ⟨[], 0, true⟩).2.chain
      = {((⟨0, pageSize + spanMasterSize, none⟩ : SpanBlock .medium), true)}
        + ({(⟨0, pageSize + spanMasterSize + 18432, none⟩, true)} + rest) := by
  have hvirgin : ((oneSpan.heap.carveMapped (fun _ _ => true) 0 pageSize).takeMapped 0
      pageSize ⟨[], 0, true⟩).2.virgin = true := by
    decide +kernel
  have hfirst : pageSize + spanMasterSize ∈ ((oneSpan.heap.carveMapped
      (fun _ _ => true) 0 pageSize).takeMapped 0 pageSize ⟨[], 0, true⟩).2.chain := by
    decide +kernel
  have hsecond : pageSize + spanMasterSize + 18432 ∈ ((oneSpan.heap.carveMapped
      (fun _ _ => true) 0 pageSize).takeMapped 0 pageSize ⟨[], 0, true⟩).2.chain.erase
        (pageSize + spanMasterSize) := by
    decide +kernel
  rw [hvirgin]
  refine ⟨spansInHand 0 none true ((((oneSpan.heap.carveMapped (fun _ _ => true) 0
    pageSize).takeMapped 0 pageSize ⟨[], 0, true⟩).2.chain.erase (pageSize + spanMasterSize)).erase
      (pageSize + spanMasterSize + 18432)), ?_⟩
  exact Multiset.coe_eq_coe.2 (((List.perm_cons_erase hfirst).trans
    ((List.perm_cons_erase hsecond).cons _)).map _)

/-- A user has written to the first block of a span and freed it again; the next block is fresh. -/
theorem zeroed_span_blocks_recycled : ∃ s : SpanStore .medium (Fin 1), Reach (fun _ _ => true) s ∧
    s.mem (pageSize + spanMasterSize + 17999) = 77 ∧
    ((⟨0, pageSize + spanMasterSize, none⟩ : SpanBlock .medium), false) ∈ s.hand ∧
    ((⟨0, pageSize + spanMasterSize + 18432, none⟩ : SpanBlock .medium), true) ∈ s.hand ∧
    SmallTier.zeroFill s.mem (pageSize + spanMasterSize) 18000 false
      (pageSize + spanMasterSize + 17999) = 0 ∧
    SmallTier.zeroFill s.mem (pageSize + spanMasterSize + 18432) 18000 true
      (pageSize + spanMasterSize + 18432 + 17999) = 0 := by
  obtain ⟨rest, hchain⟩ := firstBatch
  have htake := oneSpan_reach.step (.takeMapped 0 pageSize true 0 rfl)
  rw [hchain] at htake
  have hgive := htake.step (.give ⟨0, pageSize + spanMasterSize, none⟩ true _ (zero_add _))
  have hwrite := hgive.step (.write ⟨0, pageSize + spanMasterSize, none⟩
    (pageSize + spanMasterSize + 17999) 77 (Multiset.mem_add.2 (.inl (Multiset.mem_singleton_self _)))
    (Nat.le_add_right _ _) (Nat.add_lt_add_left (by decide) _))
  have hfree := hwrite.step (.free ⟨0, pageSize + spanMasterSize, none⟩ _ rfl)
  obtain ⟨s, hreach, hmem, hhand⟩ : ∃ s : SpanStore .medium (Fin 1), Reach (fun _ _ => true) s ∧
      s.mem (pageSize + spanMasterSize + 17999) = 77 ∧
      s.hand = {(⟨0, pageSize + spanMasterSize, none⟩, false)}
        + ({(⟨0, pageSize + spanMasterSize + 18432, none⟩, true)} + rest) :=
    ⟨_, hfree, update_self (pageSize + spanMasterSize + 17999) (77 : UInt8) oneSpan.mem, rfl⟩
  have hfirst : ((⟨0, pageSize + spanMasterSize, none⟩ : SpanBlock .medium), false) ∈ s.hand := by
    rw [hhand]
    exact Multiset.mem_add.2 (.inl (Multiset.mem_singleton_self _))
  have hsecond : ((⟨0, pageSize + spanMasterSize + 18432, none⟩ : SpanBlock .medium), true) ∈ s.hand := by
    rw [hhand]
    exact Multiset.mem_add.2 (.inr (Multiset.mem_add.2 (.inl (Multiset.mem_singleton_self _))))
  refine ⟨s, hreach, hmem, hfirst, hsecond, ?_, ?_⟩
  · exact zeroed_span_blocks hreach hfirst (by decide) (Nat.le_add_right _ _) (Nat.add_lt_add_left (by decide) _)
  · exact zeroed_span_blocks hreach hsecond (by decide) (Nat.le_add_right _ _) (Nat.add_lt_add_left (by decide) _)

end SpanStore

end Allox
