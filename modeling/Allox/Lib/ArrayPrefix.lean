import Mathlib.Algebra.Order.Group.Multiset
import Mathlib.Data.Multiset.MapFold
import Mathlib.Data.Multiset.Range
import Mathlib.Data.List.Find

/-!
# The used part of a fixed array

An array that is filled from the front, with a count beside it, is a multiset: the entries below the
count. An append adds one entry; a removal that moves the last entry into the gap takes one out.
-/

namespace ArrayPrefix

variable {α β : Type} {e e' : Nat → α} {i n : Nat}

/-- The entries below `n`. -/
def upto (e : Nat → α) (n : Nat) : Multiset α := (Multiset.range n).map e

@[simp] theorem upto_zero : upto e 0 = 0 := rfl

theorem upto_succ (e : Nat → α) (n : Nat) : upto e (n + 1) = {e n} + upto e n := by
  rw [upto, Multiset.range_succ, Multiset.map_cons, Multiset.singleton_add]
  rfl

theorem upto_congr (h : ∀ j < n, e j = e' j) : upto e n = upto e' n :=
  Multiset.map_congr rfl fun j hj => h j (Multiset.mem_range.1 hj)

theorem mem_upto {x : α} : x ∈ upto e n ↔ ∃ j < n, e j = x := by
  simp [upto]

theorem upto_update_of_le (hi : n ≤ i) (x : α) : upto (Function.update e i x) n = upto e n :=
  upto_congr fun j hj => Function.update_of_ne (by omega) _ _

theorem upto_append (x : α) : upto (Function.update e n x) (n + 1) = {x} + upto e n := by
  rw [upto_succ, Function.update_self, upto_update_of_le le_rfl]

/-- The entries other than the one at `i`. -/
theorem upto_eq_add_erase (hi : i < n) (e : Nat → α) :
    upto e n = {e i} + ((Multiset.range n).erase i).map e := by
  rw [upto, ← Multiset.cons_erase (Multiset.mem_range.2 hi), Multiset.map_cons,
    Multiset.cons_erase (Multiset.mem_range.2 hi), Multiset.singleton_add]

theorem upto_update (hi : i < n) (x : α) :
    {e i} + upto (Function.update e i x) n = {x} + upto e n := by
  have hrest : ((Multiset.range n).erase i).map (Function.update e i x)
      = ((Multiset.range n).erase i).map e := by
    refine Multiset.map_congr rfl fun j hj => ?_
    exact Function.update_of_ne ((Multiset.nodup_range _).mem_erase_iff.1 hj).1 _ _
  rw [upto_eq_add_erase hi e, upto_eq_add_erase hi, Function.update_self, hrest]
  exact add_left_comm _ _ _

/-- The last entry fills the gap at `i`. -/
theorem upto_swapRemove (hi : i ≤ n) :
    upto e (n + 1) = {e i} + upto (Function.update e i (e n)) n := by
  rcases hi.lt_or_eq with hlt | rfl
  · rw [upto_succ, upto_update hlt]
  · rw [upto_succ, upto_update_of_le le_rfl]

/-! ### Searching it -/

theorem find?_range_lt {p : Nat → Bool} (h : (List.range n).find? p = some i) :
    i < n ∧ p i = true :=
  ⟨List.mem_range.1 (List.mem_of_find?_eq_some h), List.find?_some h⟩

/-- A search that keeps a candidate or replaces it by the current index. -/
theorem foldl_choice {l : List Nat} {f : Option Nat → Nat → Option Nat} {P : Nat → Prop}
    (hf : ∀ best j, j ∈ l → f best j = best ∨ f best j = some j ∧ P j) {start : Option Nat}
    (hstart : ∀ j, start = some j → P j) (h : l.foldl f start = some i) : P i := by
  induction l generalizing start with
  | nil => exact hstart i h
  | cons x rest ih =>
      refine ih (fun best j hj => hf best j (List.mem_cons_of_mem _ hj)) (fun j hj => ?_) h
      rcases hf start x (List.mem_cons_self ..) with hkeep | ⟨htake, hx⟩
      · exact hstart j (hkeep.symm.trans hj)
      · rw [htake] at hj
        cases hj
        exact hx

/-- A search that keeps the first of the smallest entries that fit. -/
theorem foldl_smallest {p : Nat → Bool} {s : Nat → Nat} {f : Option Nat → Nat → Option Nat}
    (hf : ∀ best j, f best j = if p j && best.all fun b => s j < s b then some j else best)
    (n : Nat) :
    match (List.range n).foldl f none with
    | none => ∀ j < n, p j = false
    | some i => i < n ∧ p i = true ∧ ∀ j < n, p j = true → s i ≤ s j := by
  induction n with
  | zero => simp
  | succ n ih =>
      rw [List.range_succ, List.foldl_append, List.foldl_cons, List.foldl_nil, hf]
      generalize (List.range n).foldl f none = best at ih ⊢
      by_cases hfits : p n = true
      · cases best with
        | none =>
            rw [hfits]
            refine ⟨Nat.lt_succ_self n, hfits, fun j hj hfit => ?_⟩
            rcases Nat.lt_succ_iff_lt_or_eq.1 hj with hlt | rfl
            · rw [ih j hlt] at hfit
              cases hfit
            · exact le_rfl
        | some b =>
            obtain ⟨hb, hbfits, hleast⟩ := ih
            by_cases hsmall : s n < s b
            · rw [hfits, Option.all_some, decide_eq_true hsmall]
              refine ⟨Nat.lt_succ_self n, hfits, fun j hj hfit => ?_⟩
              rcases Nat.lt_succ_iff_lt_or_eq.1 hj with hlt | rfl
              · exact hsmall.le.trans (hleast j hlt hfit)
              · exact le_rfl
            · rw [hfits, Option.all_some, decide_eq_false hsmall]
              refine ⟨Nat.lt_succ_of_lt hb, hbfits, fun j hj hfit => ?_⟩
              rcases Nat.lt_succ_iff_lt_or_eq.1 hj with hlt | rfl
              · exact hleast j hlt hfit
              · exact Nat.not_lt.1 hsmall
      · rw [Bool.not_eq_true] at hfits
        rw [hfits, Bool.false_and, if_neg Bool.false_ne_true]
        cases best with
        | none =>
            intro j hj
            rcases Nat.lt_succ_iff_lt_or_eq.1 hj with hlt | rfl
            · exact ih j hlt
            · exact hfits
        | some b =>
            refine ⟨Nat.lt_succ_of_lt ih.1, ih.2.1, fun j hj hfit => ?_⟩
            rcases Nat.lt_succ_iff_lt_or_eq.1 hj with hlt | rfl
            · exact ih.2.2 j hlt hfit
            · rw [hfits] at hfit
              cases hfit

end ArrayPrefix
