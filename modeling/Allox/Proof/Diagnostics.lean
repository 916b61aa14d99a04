import Allox.Diagnostics

/-!
# What a lost batch loses

A counter that is bumped with `diag_ops` is never ahead of it, so at most one batch of `DIAG_FLUSH_OPS`
is unpublished. The two counters of `note_realloc` go with `ops` instead.
-/

namespace Allox

namespace Volume

/-- The event counters that are bumped together with `diag_ops`. -/
def ticked : List Volume :=
  [trims, flushes, ownerProbes, remoteFrees, smallRefills, mediumRefills, bigRefills, arenaFallbacks,
    zeroedCalls]

theorem events_cases {f : Volume} (hf : f ∈ events) :
    f ∈ ticked ∨ f = reallocRelocations ∨ f = reallocPromotions := by
  cases f <;> revert hf <;> decide

end Volume

namespace DiagPending

variable {p : DiagPending} {f : Volume} {n : Nat}

/-- What holds of every batch. -/
structure Batched (p : DiagPending) : Prop where
  ticks : p.diagOps < diagFlushOps
  ticked : ∀ f ∈ Volume.ticked, p.count f ≤ p.diagOps
  promotions : p.count .reallocPromotions ≤ p.count .reallocRelocations

theorem Batched.drained {ops : Nat} : Batched { ops, diagOps := 0, count := 0 } where
  ticks := Nat.zero_lt_succ _
  ticked _ _ := Nat.le_refl _
  promotions := Nat.le_refl _

/-- A batch and what it publishes are together what was in it. -/
theorem tickDiag_balance : p.tickDiag.1.count + p.tickDiag.2 = p.count := by
  unfold tickDiag
  dsimp only
  split
  · exact zero_add _
  · exact add_zero _

theorem tickOps_balance : p.tickOps.1.count + p.tickOps.2 = p.count := by
  unfold tickOps
  dsimp only
  split
  · exact zero_add _
  · exact add_zero _

theorem add_count : (p.add f n).count = p.count + Pi.single f n := by
  funext g
  by_cases hg : g = f
  · subst hg
    simp [add]
  · simp [add, hg]

theorem noteDiag_balance : (p.noteDiag f n).1.count + (p.noteDiag f n).2 = p.count + Pi.single f n := by
  unfold noteDiag
  rw [tickDiag_balance, add_count]

theorem noteTwo_balance {f' : Volume} {n' : Nat} :
    (p.noteTwo f n f' n').1.count + (p.noteTwo f n f' n').2
      = p.count + (Pi.single f n + Pi.single f' n') := by
  have hfirst := noteDiag_balance (p := p) (f := f) (n := n)
  have hsecond := noteDiag_balance (p := (p.noteDiag f n).1) (f := f') (n := n')
  unfold noteTwo
  dsimp only
  rw [add_comm (p.noteDiag f n).2, ← add_assoc, hsecond, add_right_comm, hfirst, add_assoc]

/-- Nothing is relocated on the way from `p` to `q`. -/
structure Quiet (p q : DiagPending) : Prop where
  batched : q.Batched
  relocations : q.count .reallocRelocations ≤ p.count .reallocRelocations

theorem Quiet.trans {q r : DiagPending} (h : Quiet p q) (h' : Quiet q r) : Quiet p r :=
  ⟨h'.batched, h'.relocations.trans h.relocations⟩

theorem quiet_drained {ops : Nat} : Quiet p { ops, diagOps := 0, count := 0 } :=
  ⟨.drained, Nat.zero_le _⟩

/-- A tick pays for one event of each counter. -/
theorem tickDiag_quiet {q : DiagPending} (h : p.Batched) (hops : q.diagOps = p.diagOps)
    (hticked : ∀ f ∈ Volume.ticked, q.count f ≤ p.count f + 1)
    (hrelocations : q.count .reallocRelocations = p.count .reallocRelocations)
    (hpromotions : q.count .reallocPromotions = p.count .reallocPromotions) :
    Quiet p q.tickDiag.1 := by
  unfold tickDiag
  dsimp only
  split
  · exact quiet_drained
  · rename_i hroom
    refine ⟨⟨Nat.not_le.1 hroom, fun f hf => ?_, ?_⟩, hrelocations.le⟩
    · show q.count f ≤ q.diagOps + 1
      rw [hops]
      exact (hticked f hf).trans (Nat.succ_le_succ (h.ticked f hf))
    · show q.count .reallocPromotions ≤ q.count .reallocRelocations
      rw [hrelocations, hpromotions]
      exact h.promotions

theorem add_count_of_ne {g : Volume} (hg : g ≠ f) : (p.add f n).count g = p.count g :=
  Function.update_of_ne hg _ _

theorem add_count_same : (p.add f n).count f = p.count f + n := Function.update_self _ _ _

theorem noteDiag_quiet (h : p.Batched) (hn : n ≤ 1 ∨ f ∉ Volume.ticked)
    (hrelocations : f ≠ .reallocRelocations) (hpromotions : f ≠ .reallocPromotions) :
    Quiet p (p.noteDiag f n).1 := by
  refine tickDiag_quiet h rfl (fun g hg => ?_) (add_count_of_ne hrelocations.symm)
    (add_count_of_ne hpromotions.symm)
  by_cases hgf : g = f
  · subst hgf
    rw [add_count_same]
    exact Nat.add_le_add_left (hn.resolve_right (not_not.2 hg)) _
  · rw [add_count_of_ne hgf]
    exact Nat.le_succ _

theorem noteTwo_quiet {f' : Volume} {n' : Nat} (h : p.Batched) (hn : n ≤ 1)
    (hrelocations : f ≠ .reallocRelocations) (hpromotions : f ≠ .reallocPromotions)
    (hn' : f' ∉ Volume.ticked) (hrelocations' : f' ≠ .reallocRelocations)
    (hpromotions' : f' ≠ .reallocPromotions) : Quiet p (p.noteTwo f n f' n').1 := by
  have hfirst := noteDiag_quiet h (.inl hn) hrelocations hpromotions
  exact hfirst.trans (noteDiag_quiet hfirst.batched (.inr hn') hrelocations' hpromotions')

theorem tickOps_quiet (h : p.Batched) : Quiet p p.tickOps.1 := by
  unfold tickOps
  dsimp only
  split
  · exact quiet_drained
  · exact ⟨⟨h.ticks, h.ticked, h.promotions⟩, Nat.le_refl _⟩

theorem noteZeroed_quiet (h : p.Batched) (size : Nat) : Quiet p (p.noteZeroed size).1 := by
  refine tickDiag_quiet h rfl (fun g hg => ?_) rfl rfl
  have hne : g ≠ .zeroedBytes := by
    rintro rfl
    revert hg
    decide
  rw [add_count_of_ne hne]
  by_cases hg' : g = .zeroedCalls
  · rw [hg', add_count_same]
  · rw [add_count_of_ne hg']
    exact Nat.le_succ _

/-- A relocation is published at once, or it waits for the next `ops` batch with the others. -/
theorem noteRealloc_spec (h : p.Batched) (copied : Nat) (promoted : Bool) :
    (p.noteRealloc copied promoted).1.Batched ∧
      (p.noteRealloc copied promoted).1.count .reallocRelocations
        = if flushOps ≤ p.ops + 1 then 0 else p.count .reallocRelocations + 1 := by
  obtain ⟨q, hq, hops, hdiag, hrelocations, hpromotions, hticked⟩ : ∃ q : DiagPending,
      p.noteRealloc copied promoted = q.tickOps ∧ q.ops = p.ops ∧ q.diagOps = p.diagOps ∧
        q.count .reallocRelocations = p.count .reallocRelocations + 1 ∧
        q.count .reallocPromotions ≤ p.count .reallocPromotions + 1 ∧
        ∀ f ∈ Volume.ticked, q.count f = p.count f := by
    cases promoted with
    | true =>
        refine ⟨_, rfl, rfl, rfl, rfl, Nat.le_refl _, fun f hf => ?_⟩
        cases f <;> first | rfl | exact absurd hf (by decide)
    | false =>
        refine ⟨_, rfl, rfl, rfl, rfl, Nat.le_succ _, fun f hf => ?_⟩
        cases f <;> first | rfl | exact absurd hf (by decide)
  have hbatched : q.Batched := by
    refine ⟨hdiag ▸ h.ticks, fun f hf => ?_, ?_⟩
    · rw [hticked f hf, hdiag]
      exact h.ticked f hf
    · have hle := h.promotions
      omega
  rw [hq]
  refine ⟨(tickOps_quiet hbatched).batched, ?_⟩
  unfold tickOps
  dsimp only
  rw [hops]
  split
  · rfl
  · exact hrelocations

end DiagPending

namespace Note

variable {p : DiagPending}

theorem apply_balance (n : Note) : (n.apply p).1.count + (n.apply p).2 = p.count + n.recorded := by
  cases n with
  | trim => exact DiagPending.noteDiag_balance
  | flush blocks => exact DiagPending.noteTwo_balance
  | flushed blocks => exact DiagPending.noteDiag_balance
  | ownerProbe => exact DiagPending.noteDiag_balance
  | remoteFree => exact DiagPending.noteDiag_balance
  | smallRefill blocks => exact DiagPending.noteTwo_balance
  | mediumRefill blocks => exact DiagPending.noteTwo_balance
  | bigRefill blocks => exact DiagPending.noteTwo_balance
  | arenaFallback => exact DiagPending.noteDiag_balance
  | realloc copied promoted =>
      refine DiagPending.tickOps_balance.trans ?_
      cases promoted with
      | true =>
          simp only [if_true, DiagPending.add_count, recorded, add_assoc]
      | false =>
          simp only [Bool.false_eq_true, if_false, DiagPending.add_count, recorded, add_assoc,
            Pi.single_zero, add_zero]
  | zeroed size =>
      refine DiagPending.tickDiag_balance.trans ?_
      rw [DiagPending.add_count, DiagPending.add_count, add_assoc]
      rfl
  | volume => exact DiagPending.tickOps_balance.trans (add_zero _).symm

/-- Every note but that of a relocation. -/
theorem apply_quiet (n : Note) (h : p.Batched) (hn : ∀ copied promoted, n ≠ .realloc copied promoted) :
    DiagPending.Quiet p (n.apply p).1 := by
  cases n with
  | trim => exact DiagPending.noteDiag_quiet h (.inl le_rfl) (by decide) (by decide)
  | flush blocks =>
      exact DiagPending.noteTwo_quiet h le_rfl (by decide) (by decide) (by decide) (by decide) (by decide)
  | flushed blocks => exact DiagPending.noteDiag_quiet h (.inr (by decide)) (by decide) (by decide)
  | ownerProbe => exact DiagPending.noteDiag_quiet h (.inl le_rfl) (by decide) (by decide)
  | remoteFree => exact DiagPending.noteDiag_quiet h (.inl le_rfl) (by decide) (by decide)
  | smallRefill blocks =>
      exact DiagPending.noteTwo_quiet h le_rfl (by decide) (by decide) (by decide) (by decide) (by decide)
  | mediumRefill blocks =>
      exact DiagPending.noteTwo_quiet h le_rfl (by decide) (by decide) (by decide) (by decide) (by decide)
  | bigRefill blocks =>
      exact DiagPending.noteTwo_quiet h le_rfl (by decide) (by decide) (by decide) (by decide) (by decide)
  | arenaFallback => exact DiagPending.noteDiag_quiet h (.inl le_rfl) (by decide) (by decide)
  | realloc copied promoted => exact absurd rfl (hn copied promoted)
  | zeroed size => exact DiagPending.noteZeroed_quiet h size
  | volume => exact DiagPending.tickOps_quiet h

end Note

/-! ### Runs of a thread -/

namespace DiagState

/-- Every event counter has less than a batch unpublished. -/
def Bounded (s : DiagState) : Prop :=
  ∀ f ∈ Volume.events, s.recorded f - s.published f < diagFlushOps

/-- The states of a thread whose steps all `meet` something. -/
inductive Run (meets : DiagState → DiagStep → Prop) : DiagState → Prop
  | new : Run meets .new
  | step {s : DiagState} (h : Run meets s) (x : DiagStep) (hx : meets s x) : Run meets (s.step x)

/-- Not the relocation that fills a batch: there is room for one more, or the batch goes out with it. -/
def RoomFor (s : DiagState) : DiagStep → Prop
  | .note (.realloc _ _) =>
      s.pending.count .reallocRelocations + 1 < diagFlushOps ∨ flushOps ≤ s.pending.ops + 1
  | _ => True

/-- What holds in every run. -/
structure Ok (s : DiagState) : Prop where
  balance : s.recorded = s.published + s.pending.count
  batched : s.pending.Batched

variable {s : DiagState}

theorem Ok.unpublished (h : s.Ok) (f : Volume) : s.recorded f - s.published f = s.pending.count f := by
  rw [h.balance]
  exact Nat.add_sub_cancel_left _ _

theorem Ok.bounded_iff (h : s.Ok) : s.Bounded ↔ s.pending.count .reallocRelocations < diagFlushOps := by
  constructor
  · intro hbounded
    rw [← h.unpublished]
    exact hbounded _ (by decide)
  · intro hroom f hf
    rw [h.unpublished]
    rcases Volume.events_cases hf with hf | rfl | rfl
    · exact (h.batched.ticked f hf).trans_lt h.batched.ticks
    · exact hroom
    · exact h.batched.promotions.trans_lt hroom

theorem Ok.of_balance {x : DiagStep} (h : s.Ok) (hbatched : (x.apply s.pending).1.Batched)
    (hx : (x.apply s.pending).1.count + (x.apply s.pending).2 = s.pending.count + x.recorded) :
    (s.step x).Ok where
  balance := by
    show s.recorded + x.recorded = s.published + (x.apply s.pending).2 + (x.apply s.pending).1.count
    rw [add_assoc, add_comm (x.apply s.pending).2, hx, h.balance, add_assoc]
  batched := hbatched

/-- One step, and when it keeps the bound. -/
theorem step_ok (h : s.Ok) (x : DiagStep) :
    (s.step x).Ok ∧ (s.Bounded → ((s.step x).Bounded ↔ s.RoomFor x)) := by
  have hquiet : ∀ {x : DiagStep}, DiagPending.Quiet s.pending (x.apply s.pending).1 → s.RoomFor x →
      (x.apply s.pending).1.count + (x.apply s.pending).2 = s.pending.count + x.recorded →
      (s.step x).Ok ∧ (s.Bounded → ((s.step x).Bounded ↔ s.RoomFor x)) := by
    intro x hq hroom hx
    have hok := h.of_balance hq.batched hx
    refine ⟨hok, fun hbounded => ⟨fun _ => hroom, fun _ => hok.bounded_iff.2 ?_⟩⟩
    exact hq.relocations.trans_lt (h.bounded_iff.1 hbounded)
  cases x with
  | note n =>
      by_cases hn : ∃ copied promoted, n = .realloc copied promoted
      · obtain ⟨copied, promoted, rfl⟩ := hn
        obtain ⟨hbatched, hrelocations⟩ := DiagPending.noteRealloc_spec h.batched copied promoted
        have hok := h.of_balance (x := .note (.realloc copied promoted)) hbatched (Note.apply_balance _)
        refine ⟨hok, fun _ => ?_⟩
        have hcount : (s.step (.note (.realloc copied promoted))).pending.count .reallocRelocations
            = if flushOps ≤ s.pending.ops + 1 then 0 else s.pending.count .reallocRelocations + 1 :=
          hrelocations
        rw [hok.bounded_iff, hcount]
        unfold RoomFor
        split
        · rename_i hfull
          exact ⟨fun _ => .inr hfull, fun _ => by decide⟩
        · rename_i hfull
          exact ⟨.inl, fun hroom => hroom.resolve_right hfull⟩
      · simp only [not_exists] at hn
        refine hquiet (n.apply_quiet h.batched fun copied promoted => hn copied promoted) ?_ n.apply_balance
        cases n <;> first | trivial | exact absurd rfl (hn _ _)
  | arenaPark =>
      exact hquiet (DiagPending.noteDiag_quiet h.batched (.inl le_rfl) (by decide) (by decide)) trivial
        DiagPending.noteDiag_balance
  | arenaParks count =>
      exact hquiet (DiagPending.noteDiag_quiet h.batched (.inr (by decide)) (by decide) (by decide)) trivial
        DiagPending.noteDiag_balance
  | publish => exact hquiet DiagPending.quiet_drained trivial (by simp [DiagStep.apply, DiagPending.publish, DiagPending.publishDiagnostics, DiagStep.recorded])
  | adopt => exact hquiet DiagPending.quiet_drained trivial (by simp [DiagStep.apply, DiagPending.publish, DiagPending.publishDiagnostics, DiagStep.recorded, DiagPending.new])

theorem Run.ok {meets : DiagState → DiagStep → Prop} (h : Run meets s) : s.Ok := by
  induction h with
  | new => exact ⟨rfl, .drained⟩
  | step _ x _ ih => exact (step_ok ih x).1

theorem Run.bounded (h : Run RoomFor s) : s.Bounded := by
  induction h with
  | new =>
      intro f _
      exact Nat.zero_lt_succ _
  | step h x hx ih => exact ((step_ok h.ok x).2 ih).2 hx

/-- Where no relocation fills a batch, an unpublished batch is smaller than `DIAG_FLUSH_OPS` in every
counter of events. And in any run, the first step that breaks this is such a relocation. -/
theorem pending_bounded :
    (Run RoomFor s → s.Bounded) ∧
      (Run (fun _ _ => True) s → s.Bounded → ∀ x, (s.step x).Bounded ↔ s.RoomFor x) :=
  ⟨fun h => h.bounded, fun h hbounded x => (step_ok h.ok x).2 hbounded⟩

/-- Three relocations with a refill before them. -/
theorem pending_bounded_relocations :
    ((((DiagState.new.step (.note (.smallRefill 64))).step (.note .volume)).step
      (.note (.realloc 16 false))).step (.note (.realloc 32 true))).Bounded := by
  refine pending_bounded.1 (.step (.step (.step (.step .new _ trivial) _ trivial) _ ?_) _ ?_)
  · exact .inl (by decide)
  · exact .inl (by decide)

/-- A small block is allocated, grown into the next class, and freed. -/
def growRound : List DiagStep :=
  [.note .volume, .note .volume, .note .volume, .note (.realloc 16 false), .note .volume]

/-- The same `n` times, after the refills of the two classes. -/
def growRounds : Nat → DiagState
  | 0 => (DiagState.new.step (.note (.smallRefill 64))).step (.note (.smallRefill 64))
  | n + 1 => growRound.foldl step (growRounds n)

theorem tickOps_room {p : DiagPending} (h : p.ops + 1 < flushOps) :
    p.tickOps.1 = { p with ops := p.ops + 1 } := by
  unfold DiagPending.tickOps
  dsimp only
  rw [if_neg (Nat.not_le.2 h)]

theorem volume_step (h : s.pending.ops + 1 < flushOps) :
    (s.step (.note .volume)).pending.ops = s.pending.ops + 1 ∧
      (s.step (.note .volume)).pending.count .reallocRelocations
        = s.pending.count .reallocRelocations := by
  have hpending : (s.step (.note .volume)).pending = _ := tickOps_room h
  rw [hpending]
  exact ⟨rfl, rfl⟩

theorem realloc_step (h : s.pending.ops + 1 < flushOps) :
    (s.step (.note (.realloc 16 false))).pending.ops = s.pending.ops + 1 ∧
      (s.step (.note (.realloc 16 false))).pending.count .reallocRelocations
        = s.pending.count .reallocRelocations + 1 := by
  have hpending : (s.step (.note (.realloc 16 false))).pending = _ :=
    tickOps_room (p := (s.pending.add .reallocRelocations 1).add .reallocCopyBytes 16) h
  rw [hpending]
  exact ⟨rfl, rfl⟩

theorem growRound_step (h : s.pending.ops + 5 < flushOps) :
    (growRound.foldl step s).pending.ops = s.pending.ops + 5 ∧
      (growRound.foldl step s).pending.count .reallocRelocations
        = s.pending.count .reallocRelocations + 1 := by
  obtain ⟨hops, hcount⟩ := volume_step (s := s) (by omega)
  obtain ⟨hops', hcount'⟩ := volume_step (s := s.step (.note .volume)) (by omega)
  obtain ⟨hops₁, hcount₁⟩ :=
    volume_step (s := (s.step (.note .volume)).step (.note .volume)) (by omega)
  obtain ⟨hops₂, hcount₂⟩ :=
    realloc_step (s := ((s.step (.note .volume)).step (.note .volume)).step (.note .volume)) (by omega)
  obtain ⟨hops₃, hcount₃⟩ := volume_step
    (s := (((s.step (.note .volume)).step (.note .volume)).step (.note .volume)).step
      (.note (.realloc 16 false))) (by omega)
  exact ⟨by simp only [growRound, List.foldl_cons, List.foldl_nil]; omega,
    by simp only [growRound, List.foldl_cons, List.foldl_nil]; omega⟩

theorem growRounds_spec (n : Nat) (h : 5 * n < flushOps) :
    Run (fun _ _ => True) (growRounds n) ∧ (growRounds n).pending.ops = 5 * n ∧
      (growRounds n).pending.count .reallocRelocations = n := by
  induction n with
  | zero => exact ⟨.step (.step .new _ trivial) _ trivial, rfl, rfl⟩
  | succ n ih =>
      obtain ⟨hrun, hops, hcount⟩ := ih (by omega)
      obtain ⟨hops', hcount'⟩ := growRound_step (s := growRounds n) (by omega)
      refine ⟨?_, hops'.trans (by omega), hcount'.trans (by omega)⟩
      exact .step (.step (.step (.step (.step hrun _ trivial) _ trivial) _ trivial) _ trivial) _ trivial

/-- After 1024 of them, 1024 relocations are unpublished. -/
theorem pending_unbounded : Run (fun _ _ => True) (growRounds 1024) ∧ ¬(growRounds 1024).Bounded ∧
    (growRounds 1024).recorded .reallocRelocations - (growRounds 1024).published .reallocRelocations
      = 1024 := by
  obtain ⟨hrun, -, hcount⟩ := growRounds_spec 1024 (by decide)
  refine ⟨hrun, ?_, ?_⟩
  · rw [hrun.ok.bounded_iff, hcount]
    exact Nat.lt_irrefl _
  · rw [hrun.ok.unpublished, hcount]

end DiagState

end Allox
