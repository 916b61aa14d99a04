import Mathlib.Data.Bool.Basic
import Mathlib.Logic.Function.Basic

/-!
# Memory that may be inaccessible

A stretch of addresses can be dropped and is then perhaps inaccessible, until it is committed again. A
drop leaves a report; of the drops that begin at an address, only the last one counts. Events are safe if
nothing inaccessible is touched.
-/

namespace Residency

structure Stretch where
  start : Nat
  len : Nat
  deriving DecidableEq

def Stretch.has (s : Stretch) (a : Nat) : Bool := s.start ≤ a && a < s.start + s.len

theorem Stretch.has_iff {s : Stretch} {a : Nat} :
    s.has a = true ↔ s.start ≤ a ∧ a < s.start + s.len := by
  simp [Stretch.has]

inductive Event (ρ : Type) where
  | touch (s : Stretch)
  | drop (s : Stretch) (report : ρ) (gone : Bool)
  | commit (s : Stretch)

structure Memory (ρ : Type) where
  gone : Nat → Bool
  latest : Nat → Option ρ

namespace Memory

variable {ρ : Type} {g : Memory ρ} {s : Stretch} {l l' : List (Event ρ)}

/-- All is accessible, and nothing has been dropped yet. -/
def fresh : Memory ρ := ⟨fun _ => false, fun _ => none⟩

def after (g : Memory ρ) : Event ρ → Memory ρ
  | .touch _ => g
  | .drop s report gone =>
      ⟨fun a => g.gone a || (gone && s.has a), Function.update g.latest s.start (some report)⟩
  | .commit s => ⟨fun a => g.gone a && !s.has a, g.latest⟩

def run (g : Memory ρ) : List (Event ρ) → Memory ρ
  | [] => g
  | e :: rest => (g.after e).run rest

/-- No address of the stretch is inaccessible. -/
def Clear (g : Memory ρ) (s : Stretch) : Prop := ∀ a, s.has a = true → g.gone a = false

def Allows (g : Memory ρ) : Event ρ → Prop
  | .touch s => g.Clear s
  | _ => True

def Safe (g : Memory ρ) : List (Event ρ) → Prop
  | [] => True
  | e :: rest => g.Allows e ∧ (g.after e).Safe rest

@[simp] theorem run_nil : g.run [] = g := rfl

@[simp] theorem run_cons (e : Event ρ) : g.run (e :: l) = (g.after e).run l := rfl

@[simp] theorem safe_nil : g.Safe [] := trivial

@[simp] theorem safe_cons (e : Event ρ) : g.Safe (e :: l) ↔ g.Allows e ∧ (g.after e).Safe l := .rfl

theorem run_append : g.run (l ++ l') = (g.run l).run l' := by
  induction l generalizing g with
  | nil => rfl
  | cons e rest ih => exact ih

theorem safe_append : g.Safe (l ++ l') ↔ g.Safe l ∧ (g.run l).Safe l' := by
  induction l generalizing g with
  | nil => simp
  | cons e rest ih => rw [List.cons_append, safe_cons, safe_cons, ih, run_cons, and_assoc]

theorem run_touches (stretches : List Stretch) : g.run (stretches.map .touch) = g := by
  induction stretches with
  | nil => rfl
  | cons s rest ih => exact ih

theorem safe_touches {stretches : List Stretch} (h : ∀ s ∈ stretches, g.Clear s) :
    g.Safe (stretches.map .touch) := by
  induction stretches with
  | nil => trivial
  | cons s rest ih =>
      rw [List.forall_mem_cons] at h
      exact ⟨h.1, ih h.2⟩

theorem clear_commit : (g.after (.commit s)).Clear s := by
  intro a ha
  simp [after, ha]

end Memory

end Residency
