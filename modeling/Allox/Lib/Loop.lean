import Mathlib.Order.Basic

/-!
# Loops with a bound

A loop is a step that gives the next state or ends. It is run for at most a number of rounds; a measure
that every round decreases is a number that is enough.
-/

namespace Loop

variable {σ : Type} {step : σ → Option σ} {s : σ} {n m : Nat}

def run (step : σ → Option σ) : Nat → σ → σ
  | 0, s => s
  | n + 1, s =>
      match step s with
      | none => s
      | some s' => run step n s'

theorem run_of_none (hdone : step s = none) : run step n s = s := by
  cases n with
  | zero => rfl
  | succ n => rw [run, hdone]

theorem run_succ {s' : σ} (hstep : step s = some s') : run step (n + 1) s = run step n s' := by
  rw [run, hstep]

/-- What each round preserves. -/
theorem run_invariant {Inv : σ → Prop} (hinv : ∀ s s', Inv s → step s = some s' → Inv s')
    (hs : Inv s) : Inv (run step n s) := by
  induction n generalizing s with
  | zero => exact hs
  | succ n ih =>
      cases hstep : step s with
      | none =>
          rw [run_of_none hstep]
          exact hs
      | some s' =>
          rw [run_succ hstep]
          exact ih (hinv s s' hs hstep)

section Measure

variable {Inv : σ → Prop} {μ : σ → Nat} (hinv : ∀ s s', Inv s → step s = some s' → Inv s')
  (hless : ∀ s s', Inv s → step s = some s' → μ s' < μ s)

include hinv hless

/-- With as many rounds as the measure says the loop ends by itself. -/
theorem run_ends (hs : Inv s) (hn : μ s ≤ n) : step (run step n s) = none := by
  induction n generalizing s with
  | zero =>
      cases hstep : step s with
      | none => exact hstep
      | some s' => exact absurd (hless s s' hs hstep) (by omega)
  | succ n ih =>
      cases hstep : step s with
      | none =>
          rw [run_of_none hstep]
          exact hstep
      | some s' =>
          have hlt := hless s s' hs hstep
          rw [run_succ hstep]
          exact ih (hinv s s' hs hstep) (by omega)

/-- More rounds change nothing. -/
theorem run_enough (hs : Inv s) (hn : μ s ≤ n) (hm : μ s ≤ m) : run step n s = run step m s := by
  induction n generalizing s m with
  | zero =>
      have hdone : step s = none := run_ends hinv hless (n := 0) hs hn
      rw [run_of_none hdone, run_of_none hdone]
  | succ n ih =>
      cases hstep : step s with
      | none => rw [run_of_none hstep, run_of_none hstep]
      | some s' =>
          have hlt := hless s s' hs hstep
          obtain ⟨m, rfl⟩ : ∃ k, m = k + 1 := ⟨m - 1, by omega⟩
          rw [run_succ hstep, run_succ hstep]
          exact ih (hinv s s' hs hstep) (by omega) (by omega)

theorem run_le (hs : Inv s) : μ (run step n s) ≤ μ s := by
  induction n generalizing s with
  | zero => exact Nat.le_refl _
  | succ n ih =>
      cases hstep : step s with
      | none => exact Nat.le_of_eq (congrArg μ (run_of_none hstep))
      | some s' =>
          rw [run_succ hstep]
          exact Nat.le_trans (ih (hinv s s' hs hstep)) (Nat.le_of_lt (hless s s' hs hstep))

/-- A loop that goes round at all has decreased the measure. -/
theorem run_lt (hs : Inv s) (hn : 0 < n) (hfirst : step s ≠ none) : μ (run step n s) < μ s := by
  obtain ⟨s', hstep⟩ := Option.ne_none_iff_exists'.1 hfirst
  obtain ⟨n, rfl⟩ : ∃ k, n = k + 1 := ⟨n - 1, by omega⟩
  rw [run_succ hstep]
  exact Nat.lt_of_le_of_lt (run_le hinv hless (hinv s s' hs hstep)) (hless s s' hs hstep)

end Measure

end Loop
