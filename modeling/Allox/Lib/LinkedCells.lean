import Allox.Lib.ByteMemory
import Mathlib.Data.List.Basic

/-!
# Lists threaded through memory

A null-terminated list whose cells keep the address of the next one in their first `n` bytes. A store
elsewhere leaves it alone, and a store of its head into a fresh cell makes it longer.
-/

namespace ByteMemory

variable {m m' : ByteMemory} {n head p : Nat} {cells : List Nat}

/-- The list from `head` on has exactly these cells. -/
def Linked (m : ByteMemory) (n : Nat) : Nat → List Nat → Prop
  | head, [] => head = 0
  | head, b :: rest => head = b ∧ b ≠ 0 ∧ ∃ next, m.load b n = some next ∧ Linked m n next rest

theorem Linked.congr (h : m.Linked n head cells)
    (hsame : ∀ b ∈ cells, ∀ i < n, m (b + i) = m' (b + i)) : m'.Linked n head cells := by
  induction cells generalizing head with
  | nil => exact h
  | cons b rest ih =>
      obtain ⟨hb, hne, next, hload, hrest⟩ := h
      refine ⟨hb, hne, next, ?_, ih hrest fun c hc => hsame c (List.mem_cons_of_mem _ hc)⟩
      rw [← load_congr (hsame b (List.mem_cons_self ..))]
      exact hload

theorem Linked.store_other {a v k : Nat} (h : m.Linked n head cells)
    (hout : ∀ b ∈ cells, b + n ≤ a ∨ a + k ≤ b) : (m.store a v k).Linked n head cells := by
  refine h.congr fun b hb i hi => (ByteMemory.store_other ?_).symm
  rcases hout b hb with hle | hle
  · exact .inl (by omega)
  · exact .inr (by omega)

/-- A fresh cell in front. -/
theorem Linked.push {b : Nat} (h : m.Linked n head cells) (hb : b ≠ 0) (hhead : head < 256 ^ n)
    (hout : ∀ c ∈ cells, c + n ≤ b ∨ b + n ≤ c) :
    (m.store b head n).Linked n b (b :: cells) :=
  ⟨rfl, hb, head, load_store_same hhead, h.store_other hout⟩

theorem Linked.head_mem (h : m.Linked n head cells) : head = 0 ∨ head ∈ cells := by
  cases cells with
  | nil => exact .inl h
  | cons b rest =>
      obtain ⟨rfl, -⟩ := h
      exact .inr (List.mem_cons_self ..)

/-- Looking for `p` in at most `steps` cells. Where `guarded` is set, a null pointer ends the search. -/
def search (m : ByteMemory) (n p : Nat) (guarded : Bool) : Nat → Nat → Option Bool
  | 0, _ => some false
  | steps + 1, cur =>
      if cur = p then some true
      else if guarded && cur = 0 then some false
      else do
        let next ← m.load cur n
        search m n p guarded steps next

/-- A search through the whole list finds its cells and nothing else. -/
theorem Linked.search_eq (h : m.Linked n head cells) (guarded : Bool) :
    m.search n p guarded cells.length head = some (decide (p ∈ cells)) := by
  induction cells generalizing head with
  | nil => rfl
  | cons b rest ih =>
      obtain ⟨rfl, hne, next, hload, hrest⟩ := h
      rw [List.length_cons, search]
      by_cases hhead : head = p
      · simp [hhead]
      · have hp : p ≠ head := Ne.symm hhead
        rw [if_neg hhead, if_neg (by simp [hne]), hload]
        simp only [Option.bind_eq_bind, Option.bind_some, ih hrest, List.mem_cons, hp, false_or]

end ByteMemory
