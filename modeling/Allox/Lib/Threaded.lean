import Mathlib

/-!
# Chains

Cells that each know the next one, up to a null. How a cell keeps its link is left open: `next` reads
it, and may fail. A chain is determined by its head, so no cell can occur in it twice.
-/

variable {α : Type*} {next next' : α → Option α} {null head after a b : α} {front rest cells : List α}

/-- From `head` on, the links go through exactly these cells. -/
def Threaded (next : α → Option α) (null : α) : α → List α → Prop
  | head, [] => head = null
  | head, b :: rest =>
      head = b ∧ b ≠ null ∧ ∃ after, next b = some after ∧ Threaded next null after rest

namespace Threaded

theorem head_eq (h : Threaded next null head cells) : head = cells.headD null := by
  cases cells with
  | nil => exact h
  | cons b rest => exact h.1

theorem congr (h : Threaded next null head cells) (hsame : ∀ b ∈ cells, next' b = next b) :
    Threaded next' null head cells := by
  induction cells generalizing head with
  | nil => exact h
  | cons b rest ih =>
      obtain ⟨hhead, hne, after, hnext, hrest⟩ := h
      refine ⟨hhead, hne, after, ?_, ih hrest fun c hc => hsame c (List.mem_cons_of_mem _ hc)⟩
      rw [hsame b List.mem_cons_self]
      exact hnext

theorem unique (h : Threaded next null head cells) (hrest : Threaded next null head rest) :
    cells = rest := by
  induction cells generalizing head rest with
  | nil =>
      cases rest with
      | nil => rfl
      | cons b rest => exact absurd (hrest.1.symm.trans h) hrest.2.1
  | cons b cells ih =>
      obtain ⟨rfl, hne, after, hnext, hcells⟩ := h
      cases rest with
      | nil => exact absurd hrest hne
      | cons c rest =>
          obtain ⟨rfl, -, after', hnext', htail⟩ := hrest
          obtain rfl : after = after' := Option.some.inj (hnext.symm.trans hnext')
          rw [ih hcells htail]

/-- Every cell heads the rest of its chain. -/
theorem suffix (h : Threaded next null head (front ++ b :: rest)) :
    Threaded next null b (b :: rest) := by
  induction front generalizing head with
  | nil => exact ⟨rfl, h.2⟩
  | cons c front ih =>
      obtain ⟨-, -, after, -, htail⟩ := h
      exact ih htail

/-- A chain with a null at its end has no cycle. -/
theorem nodup (h : Threaded next null head cells) : cells.Nodup := by
  induction cells generalizing head with
  | nil => exact List.nodup_nil
  | cons b rest ih =>
      obtain ⟨rfl, -, after, -, hrest⟩ := id h
      refine List.nodup_cons.2 ⟨fun hmem => ?_, ih hrest⟩
      obtain ⟨front, tail, rfl⟩ := List.append_of_mem hmem
      -- the second occurrence would head the same chain again
      have heq : head :: (front ++ head :: tail) = head :: tail := h.unique hrest.suffix
      have hlength := congrArg List.length heq
      simp only [List.length_cons, List.length_append] at hlength
      omega

/-- A new cell in front. -/
theorem push (h : Threaded next null head cells) (hb : b ≠ null) (hnext : next' b = some head)
    (hsame : ∀ c ∈ cells, next' c = next c) : Threaded next' null b (b :: cells) :=
  ⟨rfl, hb, head, hnext, h.congr hsame⟩

/-- A cell is taken out by letting the one before it point past it. -/
theorem bypass (h : Threaded next null head (front ++ a :: b :: rest)) (hafter : next b = some after)
    (hnext : next' a = some after) (hsame : ∀ c ∈ front ++ rest, next' c = next c) :
    Threaded next' null head (front ++ a :: rest) := by
  induction front generalizing head with
  | nil =>
      obtain ⟨hhead, hne, _, -, -, -, after', hb, hrest⟩ := h
      obtain rfl : after = after' := Option.some.inj (hafter.symm.trans hb)
      exact ⟨hhead, hne, after, hnext, hrest.congr hsame⟩
  | cons c front ih =>
      obtain ⟨hhead, hne, further, hc, htail⟩ := h
      refine ⟨hhead, hne, further, ?_, ih htail fun d hd => hsame d (List.mem_cons_of_mem _ hd)⟩
      rw [hsame c List.mem_cons_self]
      exact hc

end Threaded
