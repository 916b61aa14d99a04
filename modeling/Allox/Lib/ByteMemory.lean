import Mathlib

/-!
# Byte memory

A partial map from addresses to bytes, with little-endian loads and stores of any width. A load that
meets an unmapped address gives nothing.
-/

abbrev ByteMemory := Nat → Option Nat

namespace ByteMemory

def load (m : ByteMemory) (a : Nat) : Nat → Option Nat
  | 0 => some 0
  | n + 1 => do
      let low ← m a
      let high ← m.load (a + 1) n
      pure (low + 256 * high)

def store (m : ByteMemory) (a v : Nat) : Nat → ByteMemory
  | 0 => m
  | n + 1 => store (Function.update m a (some (v % 256))) (a + 1) (v / 256) n

variable {m m' : ByteMemory} {a b v n k : Nat}

theorem load_congr (h : ∀ i < n, m (a + i) = m' (a + i)) : m.load a n = m'.load a n := by
  induction n generalizing a with
  | zero => rfl
  | succ n ih =>
      have hfirst : m a = m' a := h 0 (Nat.succ_pos n)
      have hrest : m.load (a + 1) n = m'.load (a + 1) n := by
        apply ih
        intro i hi
        have := h (i + 1) (by omega)
        rwa [show a + (i + 1) = a + 1 + i by omega] at this
      rw [load, load, hfirst, hrest]

/-- A store changes nothing outside its bytes. -/
theorem store_other (h : b < a ∨ a + n ≤ b) : m.store a v n b = m b := by
  induction n generalizing m a v with
  | zero => rfl
  | succ n ih =>
      rw [store, ih (by omega), Function.update_of_ne (by omega)]

theorem load_store_other (h : b + k ≤ a ∨ a + n ≤ b) : (m.store a v n).load b k = m.load b k :=
  load_congr fun i hi => store_other (by omega)

theorem load_store_same (h : v < 256 ^ n) : (m.store a v n).load a n = some v := by
  induction n generalizing m a v with
  | zero =>
      rw [Nat.pow_zero, Nat.lt_one_iff] at h
      rw [h]
      rfl
  | succ n ih =>
      rw [Nat.pow_succ, Nat.mul_comm] at h
      have hhigh := ih (m := Function.update m a (some (v % 256))) (a := a + 1)
        (Nat.div_lt_of_lt_mul h)
      have hlow : store (Function.update m a (some (v % 256))) (a + 1) (v / 256) n a
          = some (v % 256) := by
        rw [store_other (by omega), Function.update_self]
      have hsplit : v % 256 + 256 * (v / 256) = v := Nat.mod_add_div v 256
      rw [store, load, hlow, hhigh]
      simp only [Option.bind_eq_bind, Option.bind_some, Option.pure_def, hsplit]

end ByteMemory
