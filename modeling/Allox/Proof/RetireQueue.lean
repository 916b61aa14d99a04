import Allox.RetireQueue
import Mathlib.Algebra.BigOperators.Group.Finset.Piecewise
import Mathlib.Algebra.BigOperators.Pi
import Mathlib.Data.Fintype.Card
import Mathlib.Data.Nat.ModEq
import Mathlib.Tactic.Abel

/-!
# The retirement queue keeps every cache once

Whoever brings a slot to `writing` or `taking` owns it until the state changes again, and `SlotOk` says
what the memory of the slot is like at each stage. A thread that has published a cache owes the count
one, a thread that has taken one owes it minus one. The caches that entered the queue are those that
were flushed, those that were taken, those in a slot still to be read, and those in hand.
-/

namespace Allox

open Resumption

/-- How far the owner of a slot has got. -/
inductive Phase where
  | claimed
  | torn
  | written
  | taking
  | reading (ticket : Nat)
  | taken

/-- Slots owned, increments and decrements owed to the count, caches in hand. -/
abbrev QueueStake := (Fin retiredSlotCount → Multiset Phase) × Nat × Nat × Multiset (Nat × ThreadCache)

namespace QueueStake

def owns (i : Fin retiredSlotCount) (p : Phase) : QueueStake := (Pi.single i {p}, 0, 0, 0)
def owedPlus : QueueStake := (0, 1, 0, 0)
def owedMinus : QueueStake := (0, 0, 1, 0)
def carry (x : Nat × ThreadCache) : QueueStake := (0, 0, 0, {x})

variable {R : QueueStake} {i j : Fin retiredSlotCount} {p : Phase} {x : Nat × ThreadCache}

theorem owns_same : (owns i p + R).1 i = {p} + R.1 i := by
  simp [owns]

theorem owns_other (h : j ≠ i) : (owns i p + R).1 j = R.1 j := by
  simp [owns, h]

@[simp] theorem owns_rest : (owns i p + R).2 = R.2 := by
  simp [owns]

@[simp] theorem owedPlus_slots : (owedPlus + R).1 = R.1 := by
  simp [owedPlus]

@[simp] theorem owedPlus_rest : (owedPlus + R).2 = (1 + R.2.1, R.2.2) := by
  simp [owedPlus, Prod.ext_iff]

@[simp] theorem owedMinus_slots : (owedMinus + R).1 = R.1 := by
  simp [owedMinus]

@[simp] theorem owedMinus_rest : (owedMinus + R).2 = (R.2.1, 1 + R.2.2.1, R.2.2.2) := by
  simp [owedMinus, Prod.ext_iff]

@[simp] theorem carry_slots : (carry x + R).1 = R.1 := by
  simp [carry]

@[simp] theorem carry_rest : (carry x + R).2 = (R.2.1, R.2.2.1, {x} + R.2.2.2) := by
  simp [carry, Prod.ext_iff]

end QueueStake

open QueueStake

/-- The memory of a slot in each state, by how far its owner has got. -/
inductive SlotOk (c : SlotCell) : SlotState → Multiset Phase → Prop
  | empty (hread : c.unread = false) : SlotOk c .empty 0
  | claimed (hread : c.unread = false) : SlotOk c .writing {.claimed}
  | torn (hread : c.unread = false) : SlotOk c .writing {.torn}
  | written (hwhole : c.whole = true) (hunread : c.unread = true) : SlotOk c .writing {.written}
  | ready (hwhole : c.whole = true) (hunread : c.unread = true) : SlotOk c .ready 0
  | taking (hwhole : c.whole = true) (hunread : c.unread = true) : SlotOk c .taking {.taking}
  | reading (hwhole : c.whole = true) (hunread : c.unread = true) : SlotOk c .taking {.reading c.ticket}
  | taken (hread : c.unread = false) : SlotOk c .taking {.taken}

/-- The cache in a slot that is still to be read. -/
def SlotCell.parked (c : SlotCell) : Multiset (Nat × ThreadCache) :=
  if c.unread then {(c.ticket, c.cache)} else 0

namespace RetireQueue

variable {q : RetireQueue} {R : QueueStake} {i j : Fin retiredSlotCount} {x : Nat × ThreadCache}

def readySlots (q : RetireQueue) : Finset (Fin retiredSlotCount) :=
  Finset.univ.filter fun i => q.states i = .ready

/-- The caches in the slots. -/
def parked (q : RetireQueue) : Multiset (Nat × ThreadCache) := ∑ i, (q.cells i).parked

structure Ok (q : RetireQueue) (R : QueueStake) : Prop where
  slot : ∀ i, SlotOk (q.cells i) (q.states i) (R.1 i)
  count : q.readyCount + R.2.1 ≡ q.readySlots.card + R.2.2.1 [MOD usizeLimit]
  word : q.readyCount < usizeLimit
  entered : (q.entered : Multiset (Nat × ThreadCache))
    = q.flushed + q.taken + q.parked + R.2.2.2
  fresh : ∀ x ∈ q.entered, x.1 < q.tickets
  distinct : (q.entered.map Prod.fst).Nodup
  overwrites : q.overwrites = 0
  misreads : q.misreads = 0

/-! ### One slot changes -/

theorem sum_update_cell (f : Fin retiredSlotCount → Multiset (Nat × ThreadCache))
    (i : Fin retiredSlotCount) (m : Multiset (Nat × ThreadCache)) :
    ∑ j, Function.update f i m j + f i = m + ∑ j, f j := by
  rw [Finset.sum_update_of_mem (Finset.mem_univ i), add_assoc, add_comm _ (f i),
    ← Finset.erase_eq, Finset.add_sum_erase _ _ (Finset.mem_univ i)]

theorem parked_setCell (q : RetireQueue) (i : Fin retiredSlotCount) (c : SlotCell) :
    (q.setCell i c).parked + (q.cells i).parked = c.parked + q.parked := by
  have hcells : (fun j => ((q.setCell i c).cells j).parked)
      = Function.update (fun j => (q.cells j).parked) i c.parked := by
    funext j
    unfold setCell
    dsimp only
    by_cases h : j = i
    · subst h
      rw [Function.update_self, Function.update_self]
    · rw [Function.update_of_ne h, Function.update_of_ne h]
  unfold parked
  rw [hcells]
  exact sum_update_cell _ _ _

/-- Neither the cache nor its readiness is anybody's affair but the owner's. -/
theorem slotOk_setCell (h : ∀ j, SlotOk (q.cells j) (q.states j) (R.1 j)) {c : SlotCell} {p p' : Phase}
    {R' : QueueStake} (hR : R = owns i p + R')
    (hown : SlotOk c (q.states i) ((owns i p' + R').1 i)) :
    ∀ j, SlotOk ((q.setCell i c).cells j) (q.states j) ((owns i p' + R').1 j) := by
  intro j
  unfold setCell
  dsimp only
  by_cases hj : j = i
  · subst hj
    rw [Function.update_self]
    exact hown
  · have hother := h j
    rw [hR, owns_other hj] at hother
    rw [Function.update_of_ne hj, owns_other hj]
    exact hother

theorem slotOk_setState (h : ∀ j, SlotOk (q.cells j) (q.states j) (R.1 j)) {s : SlotState}
    {R' : QueueStake} (hother : ∀ j, j ≠ i → R'.1 j = R.1 j)
    (hown : SlotOk (q.cells i) s (R'.1 i)) :
    ∀ j, SlotOk (q.cells j) ((q.setState i s).states j) (R'.1 j) := by
  intro j
  unfold setState
  dsimp only
  by_cases hj : j = i
  · subst hj
    rw [Function.update_self]
    exact hown
  · rw [Function.update_of_ne hj, hother j hj]
    exact h j

theorem mem_readySlots : j ∈ q.readySlots ↔ q.states j = .ready := by
  unfold readySlots
  rw [Finset.mem_filter]
  exact ⟨fun h => h.2, fun h => ⟨Finset.mem_univ j, h⟩⟩

theorem setState_states (q : RetireQueue) (i j : Fin retiredSlotCount) (s : SlotState) :
    (q.setState i s).states j = if j = i then s else q.states j := Function.update_apply _ _ _ _

theorem readySlots_to_ready (h : q.states i ≠ .ready) :
    (q.setState i .ready).readySlots.card = q.readySlots.card + 1 := by
  have hinsert : (q.setState i .ready).readySlots = insert i q.readySlots := by
    ext j
    rw [Finset.mem_insert, mem_readySlots, mem_readySlots, setState_states]
    by_cases hj : j = i <;> simp [hj]
  rw [hinsert, Finset.card_insert_of_notMem (mt mem_readySlots.1 h)]

theorem readySlots_from_ready (h : q.states i = .ready) {s : SlotState} (hs : s ≠ .ready) :
    (q.setState i s).readySlots.card + 1 = q.readySlots.card := by
  have herase : (q.setState i s).readySlots = q.readySlots.erase i := by
    ext j
    rw [Finset.mem_erase, mem_readySlots, mem_readySlots, setState_states]
    by_cases hj : j = i <;> simp [hj, hs]
  rw [herase, Finset.card_erase_add_one (mem_readySlots.2 h)]

theorem readySlots_other (h : q.states i ≠ .ready) {s : SlotState} (hs : s ≠ .ready) :
    (q.setState i s).readySlots = q.readySlots := by
  ext j
  rw [mem_readySlots, mem_readySlots, setState_states]
  by_cases hj : j = i <;> simp [hj, hs, h]

/-! ### The sections -/

theorem Ok.claim (h : q.Ok R) (hstate : q.states i = .empty) :
    (q.setState i .writing).Ok (owns i .claimed + R) := by
  have hown := h.slot i
  rw [hstate] at hown
  have hne : q.states i ≠ .ready := by rw [hstate]; decide
  refine ⟨?_, ?_, h.word, ?_, h.fresh, h.distinct, h.overwrites, h.misreads⟩
  · refine slotOk_setState h.slot (fun j hj => owns_other hj) ?_
    rw [owns_same]
    generalize R.1 i = ps at hown
    cases hown with
    | empty hread => exact .claimed hread
  · rw [owns_rest, readySlots_other hne (by decide)]
    exact h.count
  · rw [owns_rest]
    exact h.entered

theorem singleton_add_inj {p p' : Phase} {m : Multiset Phase} (h : {p} + m = {p'}) :
    p = p' ∧ m = 0 := by
  have hcard := congrArg Multiset.card h
  rw [Multiset.card_add, Multiset.card_singleton, Multiset.card_singleton] at hcard
  obtain rfl : m = 0 := Multiset.card_eq_zero.1 (by omega)
  rw [add_zero, Multiset.singleton_inj] at h
  exact ⟨h, rfl⟩

theorem singleton_add_ne_zero {p : Phase} {m : Multiset Phase} (h : {p} + m = 0) : False := by
  have hcard := congrArg Multiset.card h
  rw [Multiset.card_add, Multiset.card_singleton, Multiset.card_zero] at hcard
  omega

/-- The slot of an owner who has got to `p`, and what is next to that. -/
theorem Ok.owned {p : Phase} (h : q.Ok (owns i p + R)) :
    SlotOk (q.cells i) (q.states i) {p} ∧ R.1 i = 0 := by
  have hown := h.slot i
  rw [owns_same] at hown
  have hzero : R.1 i = 0 := by
    generalize hps : {p} + R.1 i = ps at hown
    generalize q.states i = s at hown
    cases hown with
    | empty => exact (singleton_add_ne_zero hps).elim
    | ready => exact (singleton_add_ne_zero hps).elim
    | claimed => exact (singleton_add_inj hps).2
    | torn => exact (singleton_add_inj hps).2
    | written => exact (singleton_add_inj hps).2
    | taking => exact (singleton_add_inj hps).2
    | reading => exact (singleton_add_inj hps).2
    | taken => exact (singleton_add_inj hps).2
  rw [hzero, add_zero] at hown
  exact ⟨hown, hzero⟩

theorem owns_own {p : Phase} (hzero : R.1 i = 0) : (owns i p + R).1 i = {p} := by
  rw [owns_same, hzero, add_zero]

/-- What the phase of its owner says of a slot. -/
def PhaseSays (c : SlotCell) (s : SlotState) : Phase → Prop
  | .claimed | .torn => s = .writing ∧ c.unread = false
  | .written => s = .writing ∧ c.whole = true ∧ c.unread = true
  | .taking => s = .taking ∧ c.whole = true ∧ c.unread = true
  | .reading n => s = .taking ∧ c.whole = true ∧ c.unread = true ∧ c.ticket = n
  | .taken => s = .taking ∧ c.unread = false

theorem phaseSays {c : SlotCell} {s : SlotState} {p : Phase} (h : SlotOk c s {p}) :
    PhaseSays c s p := by
  generalize hps : ({p} : Multiset Phase) = ps at h
  cases h with
  | empty => exact (Multiset.singleton_ne_zero p hps).elim
  | ready => exact (Multiset.singleton_ne_zero p hps).elim
  | claimed hread =>
      obtain rfl := Multiset.singleton_inj.1 hps
      exact ⟨rfl, hread⟩
  | torn hread =>
      obtain rfl := Multiset.singleton_inj.1 hps
      exact ⟨rfl, hread⟩
  | written hwhole hunread =>
      obtain rfl := Multiset.singleton_inj.1 hps
      exact ⟨rfl, hwhole, hunread⟩
  | taking hwhole hunread =>
      obtain rfl := Multiset.singleton_inj.1 hps
      exact ⟨rfl, hwhole, hunread⟩
  | reading hwhole hunread =>
      obtain rfl := Multiset.singleton_inj.1 hps
      exact ⟨rfl, hwhole, hunread, rfl⟩
  | taken hread =>
      obtain rfl := Multiset.singleton_inj.1 hps
      exact ⟨rfl, hread⟩

theorem parked_read {c : SlotCell} (h : c.unread = false) : c.parked = 0 := by
  rw [SlotCell.parked, h]
  rfl

theorem parked_unread {c : SlotCell} (h : c.unread = true) : c.parked = {(c.ticket, c.cache)} := by
  rw [SlotCell.parked, if_pos h]

/-- The owner overwrites a cache that was read before. -/
theorem Ok.beginWrite (h : q.Ok (owns i .claimed + R)) :
    (q.beginWrite i).Ok (owns i .torn + R) := by
  obtain ⟨hown, hzero⟩ := h.owned
  obtain ⟨hstate, hread⟩ := phaseSays hown
  unfold RetireQueue.beginWrite
  dsimp only
  rw [hread, if_neg Bool.false_ne_true]
  refine ⟨?_, ?_, h.word, ?_, h.fresh, h.distinct, h.overwrites, h.misreads⟩
  · refine slotOk_setCell h.slot rfl ?_
    rw [owns_own hzero, hstate]
    exact .torn rfl
  · have hcount := h.count
    rw [owns_rest] at hcount ⊢
    exact hcount
  · have hparked := parked_setCell q i { q.cells i with whole := false, unread := false }
    rw [parked_read hread, parked_read (c := { q.cells i with whole := false, unread := false }) rfl,
      add_zero, zero_add] at hparked
    have hentered := h.entered
    rw [owns_rest] at hentered ⊢
    rw [hparked]
    exact hentered

theorem Ok.endWrite (h : q.Ok (owns i .torn + (carry x + R))) :
    (q.endWrite i x).Ok (owns i .written + R) := by
  obtain ⟨hown, hzero⟩ := h.owned
  obtain ⟨hstate, hread⟩ := phaseSays hown
  rw [carry_slots] at hzero
  unfold RetireQueue.endWrite
  refine ⟨?_, ?_, h.word, ?_, h.fresh, h.distinct, h.overwrites, h.misreads⟩
  · have hslots : ∀ j, SlotOk (q.cells j) (q.states j) ((owns i .torn + R).1 j) := fun j => by
      have := h.slot j
      rwa [Prod.fst_add, Pi.add_apply, carry_slots] at this
    refine slotOk_setCell hslots rfl ?_
    rw [owns_own hzero, hstate]
    exact .written rfl rfl
  · have hcount := h.count
    rw [owns_rest, carry_rest] at hcount
    rw [owns_rest]
    exact hcount
  · have hparked := parked_setCell q i ⟨x.2, x.1, true, true⟩
    rw [parked_read hread, parked_unread (c := ⟨x.2, x.1, true, true⟩) rfl, add_zero] at hparked
    have hentered := h.entered
    rw [owns_rest, carry_rest] at hentered
    rw [owns_rest, hparked]
    refine hentered.trans ?_
    change (q.flushed : Multiset (Nat × ThreadCache)) + q.taken + q.parked + ({x} + R.2.2.2)
      = q.flushed + q.taken + ({x} + q.parked) + R.2.2.2
    abel

theorem Ok.publish (h : q.Ok (owns i .written + R)) :
    (q.setState i .ready).Ok (owedPlus + R) := by
  obtain ⟨hown, hzero⟩ := h.owned
  obtain ⟨hstate, hwhole, hunread⟩ := phaseSays hown
  have hne : q.states i ≠ .ready := by rw [hstate]; decide
  refine ⟨?_, ?_, h.word, ?_, h.fresh, h.distinct, h.overwrites, h.misreads⟩
  · refine slotOk_setState h.slot (fun j hj => ?_) ?_
    · rw [owedPlus_slots, owns_other hj]
    · rw [owedPlus_slots, hzero]
      exact .ready hwhole hunread
  · have hcount := h.count
    rw [owns_rest] at hcount
    rw [owedPlus_rest, readySlots_to_ready hne]
    calc q.readyCount + (1 + R.2.1)
      _ = q.readyCount + R.2.1 + 1 := by omega
      _ ≡ q.readySlots.card + R.2.2.1 + 1 [MOD usizeLimit] := hcount.add_right 1
      _ = q.readySlots.card + 1 + R.2.2.1 := by omega
  · have hentered := h.entered
    rw [owns_rest] at hentered
    rw [owedPlus_rest]
    exact hentered

/-- A new count that squares with what is owed now. -/
theorem Ok.setCount {P : QueueStake} (h : q.Ok P) (hslots : R.1 = P.1) (hhand : R.2.2.2 = P.2.2.2)
    {n : Nat} (hword : n < usizeLimit)
    (hcount : n + R.2.1 ≡ q.readySlots.card + R.2.2.1 [MOD usizeLimit]) :
    ({ q with readyCount := n } : RetireQueue).Ok R := by
  refine ⟨fun j => ?_, hcount, hword, ?_, h.fresh, h.distinct, h.overwrites, h.misreads⟩
  · rw [hslots]
    exact h.slot j
  · rw [hhand]
    exact h.entered

theorem Ok.addCount (h : q.Ok (owedPlus + R)) : q.addCount.Ok R := by
  have hcount := h.count
  rw [owedPlus_rest] at hcount
  refine h.setCount (by rw [owedPlus_slots]) (by rw [owedPlus_rest]) (Nat.mod_lt _ (by decide)) ?_
  calc (q.readyCount + 1) % usizeLimit + R.2.1
    _ ≡ q.readyCount + 1 + R.2.1 [MOD usizeLimit] := (Nat.mod_modEq _ _).add_right _
    _ = q.readyCount + (1 + R.2.1) := by omega
    _ ≡ q.readySlots.card + R.2.2.1 [MOD usizeLimit] := hcount

theorem Ok.take (h : q.Ok R) (hstate : q.states i = .ready) :
    (q.setState i .taking).Ok (owns i .taking + (owedMinus + R)) := by
  have hown := h.slot i
  rw [hstate] at hown
  refine ⟨?_, ?_, h.word, ?_, h.fresh, h.distinct, h.overwrites, h.misreads⟩
  · refine slotOk_setState h.slot (fun j hj => ?_) ?_
    · rw [owns_other hj, owedMinus_slots]
    · rw [owns_same, owedMinus_slots]
      generalize R.1 i = ps at hown
      cases hown with
      | ready hwhole hunread => exact .taking hwhole hunread
  · have hcard := readySlots_from_ready hstate (s := .taking) (by decide)
    rw [owns_rest, owedMinus_rest]
    calc q.readyCount + R.2.1
      _ ≡ q.readySlots.card + R.2.2.1 [MOD usizeLimit] := h.count
      _ = (q.setState i .taking).readySlots.card + (1 + R.2.2.1) := by omega
  · rw [owns_rest, owedMinus_rest]
    exact h.entered

theorem Ok.beginRead (h : q.Ok (owns i .taking + R)) :
    (q.beginRead i).Ok (owns i (.reading (q.cells i).ticket) + R) := by
  obtain ⟨hown, hzero⟩ := h.owned
  obtain ⟨hstate, hwhole, hunread⟩ := phaseSays hown
  unfold RetireQueue.beginRead
  dsimp only
  rw [hwhole, hunread, Bool.and_self, if_pos rfl]
  refine ⟨fun j => ?_, ?_, h.word, ?_, h.fresh, h.distinct, h.overwrites, h.misreads⟩
  · by_cases hj : j = i
    · subst hj
      rw [owns_own hzero, hstate]
      exact .reading hwhole hunread
    · have hother := h.slot j
      rw [owns_other hj] at hother ⊢
      exact hother
  · have hcount := h.count
    rw [owns_rest] at hcount ⊢
    exact hcount
  · have hentered := h.entered
    rw [owns_rest] at hentered ⊢
    exact hentered

theorem Ok.endRead {n : Nat} (h : q.Ok (owns i (.reading n) + R)) :
    (q.endRead i n).Ok (owns i .taken + R) := by
  obtain ⟨hown, hzero⟩ := h.owned
  obtain ⟨hstate, hwhole, hunread, hticket⟩ := phaseSays hown
  have hgood : ((q.cells i).whole && (q.cells i).unread && (q.cells i).ticket == n) = true := by
    rw [hwhole, hunread, hticket, beq_self_eq_true]
    rfl
  unfold RetireQueue.endRead
  dsimp only
  rw [if_pos hgood]
  refine ⟨?_, ?_, h.word, ?_, h.fresh, h.distinct, h.overwrites, h.misreads⟩
  · refine slotOk_setCell h.slot rfl ?_
    rw [owns_own hzero, hstate]
    exact .taken rfl
  · have hcount := h.count
    rw [owns_rest] at hcount ⊢
    exact hcount
  · have hparked := parked_setCell q i { q.cells i with unread := false }
    rw [parked_unread hunread, parked_read (c := { q.cells i with unread := false }) rfl,
      zero_add] at hparked
    have hentered := h.entered
    rw [owns_rest] at hentered ⊢
    rw [← hparked] at hentered
    refine hentered.trans ?_
    rw [← Multiset.cons_coe, ← Multiset.singleton_add]
    generalize ({((q.cells i).ticket, (q.cells i).cache)} : Multiset (Nat × ThreadCache)) = x
    change (q.flushed : Multiset (Nat × ThreadCache)) + q.taken
      + ((q.setCell i { q.cells i with unread := false }).parked + x) + R.2.2.2
      = q.flushed + (x + q.taken)
        + (q.setCell i { q.cells i with unread := false }).parked + R.2.2.2
    abel

theorem Ok.release (h : q.Ok (owns i .taken + R)) : (q.setState i .empty).Ok R := by
  obtain ⟨hown, hzero⟩ := h.owned
  obtain ⟨hstate, hread⟩ := phaseSays hown
  have hne : q.states i ≠ .ready := by rw [hstate]; decide
  refine ⟨?_, ?_, h.word, ?_, h.fresh, h.distinct, h.overwrites, h.misreads⟩
  · refine slotOk_setState h.slot (fun j hj => ?_) ?_
    · rw [owns_other hj]
    · rw [hzero]
      exact .empty hread
  · have hcount := h.count
    rw [owns_rest] at hcount
    rw [readySlots_other hne (by decide)]
    exact hcount
  · have hentered := h.entered
    rw [owns_rest] at hentered
    exact hentered

/-- The count may wrap below zero on the way. -/
theorem Ok.subCount (h : q.Ok (owedMinus + R)) : q.subCount.Ok R := by
  have hcount := h.count
  rw [owedMinus_rest] at hcount
  refine h.setCount (by rw [owedMinus_slots]) (by rw [owedMinus_rest]) (Nat.mod_lt _ (by decide)) ?_
  have hone : 1 ≤ usizeLimit := by decide
  generalize usizeLimit = m at hcount hone ⊢
  apply Nat.ModEq.add_right_cancel' 1
  calc (q.readyCount + (m - 1)) % m + R.2.1 + 1
    _ ≡ q.readyCount + (m - 1) + R.2.1 + 1 [MOD m] :=
      ((Nat.mod_modEq _ _).add_right _).add_right _
    _ = q.readyCount + R.2.1 + m := by omega
    _ ≡ q.readyCount + R.2.1 [MOD m] := Nat.add_modEq_right
    _ ≡ q.readySlots.card + (1 + R.2.2.1) [MOD m] := hcount
    _ = q.readySlots.card + R.2.2.1 + 1 := by omega

theorem Ok.enter (h : q.Ok R) (c : ThreadCache) : (q.enter c).Ok (carry (q.tickets, c) + R) := by
  refine ⟨fun j => ?_, ?_, h.word, ?_, ?_, ?_, h.overwrites, h.misreads⟩
  · rw [carry_slots]
    exact h.slot j
  · rw [carry_rest]
    exact h.count
  · rw [carry_rest]
    have hcons : ((q.enter c).entered : Multiset (Nat × ThreadCache))
        = {(q.tickets, c)} + q.entered := by
      rw [Multiset.singleton_add]
      rfl
    rw [hcons, h.entered]
    change _ = (q.flushed : Multiset (Nat × ThreadCache)) + q.taken + q.parked
      + ({(q.tickets, c)} + R.2.2.2)
    abel
  · intro x hx
    rcases List.mem_cons.1 hx with rfl | hx
    · exact Nat.lt_succ_self _
    · exact Nat.lt_succ_of_lt (h.fresh x hx)
  · change ((q.tickets, c) :: q.entered).map Prod.fst |>.Nodup
    rw [List.map_cons, List.nodup_cons]
    refine ⟨fun hmem => ?_, h.distinct⟩
    obtain ⟨x, hx, heq⟩ := List.mem_map.1 hmem
    exact absurd heq (h.fresh x hx).ne

theorem Ok.flush (h : q.Ok (carry x + R)) : (q.flush x).Ok R := by
  have hcount := h.count
  have hentered := h.entered
  rw [carry_rest] at hcount hentered
  refine ⟨fun j => ?_, hcount, h.word, ?_, h.fresh, h.distinct, h.overwrites, h.misreads⟩
  · have hj := h.slot j
    rw [carry_slots] at hj
    exact hj
  · have hcons : ((q.flush x).flushed : Multiset (Nat × ThreadCache)) = {x} + q.flushed := by
      rw [Multiset.singleton_add]
      rfl
    rw [hcons]
    refine hentered.trans ?_
    change (q.flushed : Multiset (Nat × ThreadCache)) + q.taken + q.parked + ({x} + R.2.2.2)
      = {x} + q.flushed + q.taken + q.parked + R.2.2.2
    abel

theorem Ok.new : (RetireQueue.new).Ok 0 where
  slot := fun _ => .empty rfl
  count := by
    have hnone : RetireQueue.new.readySlots = ∅ := by decide
    rw [hnone]
    rfl
  word := by decide
  entered := by
    have hparked : RetireQueue.new.parked = 0 := Finset.sum_const_zero
    rw [hparked]
    rfl
  fresh := fun _ hx => absurd hx List.not_mem_nil
  distinct := List.nodup_nil
  overwrites := rfl
  misreads := rfl

end RetireQueue

/-! ### The operations -/

section Programs

open RetireQueue QueueAct

def noOwn : Unit → QueueStake := fun _ => 0

variable {hand : QueueStake}

theorem runs_update {f : RetireQueue → RetireQueue} (hand' : QueueStake)
    (h : ∀ q frame, q.Ok (hand + frame) → (f q).Ok (hand' + frame)) :
    Runs RetireQueue.Ok noOwn (update f) () hand fun _ _ m => m = hand' :=
  Runs.atomic fun _ q frame hq => ⟨hand', h q frame hq, rfl⟩

theorem runs_retireInto (x : Nat × ThreadCache) (slots : List (Fin retiredSlotCount)) :
    Runs RetireQueue.Ok noOwn (retireInto x slots) () (carry x) fun _ _ m => m = 0 := by
  induction slots with
  | nil =>
      refine runs_update 0 fun q frame hq => ?_
      rw [zero_add]
      exact hq.flush
  | cons i rest ih =>
      have hcas : Runs RetireQueue.Ok noOwn (compareExchange i .empty .writing) () (carry x)
          fun won _ m => m = if won then owns i .claimed + carry x else carry x := by
        refine Runs.atomic fun _ q frame hq => ?_
        by_cases hstate : q.states i = .empty
        · refine ⟨owns i .claimed + carry x, ?_, by rw [if_pos hstate]; rfl⟩
          rw [if_pos hstate, add_assoc]
          exact hq.claim hstate
        · refine ⟨carry x, ?_, by rw [if_neg hstate]; rfl⟩
          rw [if_neg hstate]
          exact hq
      refine Runs.bind hcas ?_
      rintro (_ | _) ⟨⟩ m rfl
      · exact ih
      · rw [if_pos rfl, if_pos rfl]
        refine Runs.bind (runs_update (owns i .torn + carry x) fun q frame hq => ?_) ?_
        · rw [add_assoc] at hq ⊢
          exact hq.beginWrite
        rintro ⟨⟩ ⟨⟩ m rfl
        refine Runs.bind (runs_update (owns i .written) fun q frame hq => ?_) ?_
        · rw [add_assoc] at hq
          exact hq.endWrite
        rintro ⟨⟩ ⟨⟩ m rfl
        refine Runs.bind (runs_update owedPlus fun q frame hq => hq.publish) ?_
        rintro ⟨⟩ ⟨⟩ m rfl
        refine runs_update 0 fun q frame hq => ?_
        rw [zero_add]
        exact hq.addCount

theorem runs_retire (c : ThreadCache) :
    Runs RetireQueue.Ok noOwn (retire c) () 0 fun _ _ m => m = 0 := by
  unfold retire
  dsimp only
  split
  · exact Runs.pure rfl
  · have henter : Runs RetireQueue.Ok noOwn
        (Act.atomic fun _ q => (q.enter c, q.tickets) : QueueAct Nat) () 0
        fun n _ m => m = carry (n, c) := by
      refine Runs.atomic fun _ q frame hq => ⟨carry (q.tickets, c), ?_, rfl⟩
      rw [zero_add] at hq
      exact hq.enter c
    refine Runs.bind henter ?_
    rintro n ⟨⟩ m rfl
    split
    · refine runs_update 0 fun q frame hq => ?_
      rw [zero_add]
      exact hq.flush
    · exact runs_retireInto (n, c) _

theorem runs_takeFrom (slots : List (Fin retiredSlotCount)) :
    Runs RetireQueue.Ok noOwn (takeFrom slots) () 0 fun _ _ m => m = 0 := by
  induction slots with
  | nil => exact Runs.pure rfl
  | cons i rest ih =>
      have hcas : Runs RetireQueue.Ok noOwn (compareExchange i .ready .taking) () 0
          fun won _ m => m = if won then owns i .taking + owedMinus else 0 := by
        refine Runs.atomic fun _ q frame hq => ?_
        by_cases hstate : q.states i = .ready
        · refine ⟨owns i .taking + owedMinus, ?_, by rw [if_pos hstate]; rfl⟩
          rw [if_pos hstate, add_assoc]
          rw [zero_add] at hq
          exact hq.take hstate
        · refine ⟨0, ?_, by rw [if_neg hstate]; rfl⟩
          rw [if_neg hstate]
          exact hq
      refine Runs.bind hcas ?_
      rintro (_ | _) ⟨⟩ m rfl
      · exact ih
      · rw [if_pos rfl, if_pos rfl]
        have hbegin : Runs RetireQueue.Ok noOwn
            (Act.atomic fun _ q => (q.beginRead i, (q.cells i).ticket) : QueueAct Nat) ()
            (owns i .taking + owedMinus) fun n _ m => m = owns i (.reading n) + owedMinus := by
          refine Runs.atomic fun _ q frame hq => ⟨_, ?_, rfl⟩
          rw [add_assoc] at hq ⊢
          exact hq.beginRead
        refine Runs.bind hbegin ?_
        rintro n ⟨⟩ m rfl
        have hend : Runs RetireQueue.Ok noOwn
            (Act.atomic fun _ q => (q.endRead i n, (q.cells i).cache) : QueueAct ThreadCache) ()
            (owns i (.reading n) + owedMinus) fun _ _ m => m = owns i .taken + owedMinus := by
          refine Runs.atomic fun _ q frame hq => ⟨_, ?_, rfl⟩
          rw [add_assoc] at hq ⊢
          exact hq.endRead
        refine Runs.bind hend ?_
        rintro c ⟨⟩ m rfl
        refine Runs.bind (runs_update owedMinus fun q frame hq => ?_) ?_
        · rw [add_assoc] at hq
          exact hq.release
        rintro ⟨⟩ ⟨⟩ m rfl
        refine Runs.bind (runs_update 0 fun q frame hq => ?_) ?_
        · rw [zero_add]
          exact hq.subCount
        rintro ⟨⟩ ⟨⟩ m rfl
        exact Runs.pure rfl

theorem runs_takeOne : Runs RetireQueue.Ok noOwn takeOne () 0 fun _ _ m => m = 0 := by
  unfold takeOne
  have hload : Runs RetireQueue.Ok noOwn (Act.atomic fun _ q => (q, q.readyCount) : QueueAct Nat) ()
      0 fun _ _ m => m = 0 := Runs.atomic fun _ q frame hq => ⟨0, hq, rfl⟩
  refine Runs.bind hload ?_
  rintro ready ⟨⟩ m rfl
  split
  · exact Runs.pure rfl
  · exact runs_takeFrom _

theorem runs_reclaimOne : Runs RetireQueue.Ok noOwn reclaimOne () 0 fun _ _ m => m = 0 := by
  unfold reclaimOne
  refine Runs.bind runs_takeOne ?_
  rintro taken ⟨⟩ m rfl
  cases taken with
  | none => exact Runs.pure rfl
  | some c => exact Runs.pure rfl

theorem runs_reclaimAll (rounds : Nat) :
    Runs RetireQueue.Ok noOwn (reclaimAll rounds) () 0 fun _ _ m => m = 0 := by
  induction rounds with
  | zero => exact Runs.pure rfl
  | succ rounds ih =>
      unfold reclaimAll
      refine Runs.bind runs_reclaimOne ?_
      rintro (_ | _) ⟨⟩ m rfl
      · exact Runs.pure rfl
      · exact ih

theorem queueOp_pays (op : QueueOp) :
    Pays RetireQueue.Ok noOwn (fun _ => True) (op.run.run ()) (noOwn ()) := by
  suffices h : Runs RetireQueue.Ok noOwn op.run () 0 fun _ _ m => True ∧ m = 0 from h.pays
  have hdone : ∀ {α : Type} {a : QueueAct α}, (Runs RetireQueue.Ok noOwn a () 0 fun _ _ m => m = 0) →
      Runs RetireQueue.Ok noOwn (do let _ ← a; pure ()) () 0 fun _ _ m => True ∧ m = 0 := by
    intro α a h
    refine Runs.bind h ?_
    rintro _ ⟨⟩ m rfl
    exact Runs.pure ⟨trivial, rfl⟩
  cases op with
  | retire c => exact (runs_retire c).mono fun _ _ _ h => ⟨trivial, h⟩
  | takeOne => exact hdone runs_takeOne
  | reclaimOne => exact hdone runs_reclaimOne
  | reclaimAll rounds => exact hdone (runs_reclaimAll rounds)

/-! ### Draining the queue alone -/

theorem RetireQueue.Ok.ready_or_empty {q : RetireQueue} (h : q.Ok 0) (i : Fin retiredSlotCount) :
    q.states i = .ready ∨ q.states i = .empty := by
  have hslot := h.slot i
  rw [Prod.fst_zero, Pi.zero_apply] at hslot
  generalize hps : (0 : Multiset Phase) = ps at hslot
  generalize q.states i = s at hslot
  cases hslot with
  | empty => exact .inr rfl
  | ready => exact .inl rfl
  | claimed => exact (Multiset.singleton_ne_zero _ hps.symm).elim
  | torn => exact (Multiset.singleton_ne_zero _ hps.symm).elim
  | written => exact (Multiset.singleton_ne_zero _ hps.symm).elim
  | taking => exact (Multiset.singleton_ne_zero _ hps.symm).elim
  | reading => exact (Multiset.singleton_ne_zero _ hps.symm).elim
  | taken => exact (Multiset.singleton_ne_zero _ hps.symm).elim

/-- At rest the count is the number of ready slots. -/
theorem RetireQueue.Ok.count_eq {q : RetireQueue} (h : q.Ok 0) : q.readyCount = q.readySlots.card := by
  have hcount := h.count
  have hcard : q.readySlots.card < usizeLimit := by
    refine lt_of_le_of_lt (Finset.card_le_univ _) ?_
    rw [Fintype.card_fin]
    decide
  have heq := Nat.ModEq.eq_of_lt_of_lt hcount h.word hcard
  exact heq

/-- The state after one cache is taken out of slot `i`, with nobody else about. -/
def takenAlone (q : RetireQueue) (i : Fin retiredSlotCount) : RetireQueue :=
  let q := q.setState i .taking
  (((q.beginRead i).endRead i (q.cells i).ticket).setState i .empty).subCount

theorem endRead_states (q : RetireQueue) (i : Fin retiredSlotCount) (n : Nat) :
    (q.endRead i n).states = q.states := by
  unfold RetireQueue.endRead
  dsimp only
  split <;> rfl

theorem beginRead_states (q : RetireQueue) (i : Fin retiredSlotCount) :
    (q.beginRead i).states = q.states := by
  unfold RetireQueue.beginRead
  dsimp only
  split <;> rfl

theorem setCount_states (q : RetireQueue) (n : Nat) :
    ({ q with readyCount := n } : RetireQueue).states = q.states := rfl

theorem subCount_states (q : RetireQueue) : q.subCount.states = q.states := by
  unfold RetireQueue.subCount
  exact setCount_states _ _

theorem takenAlone_states (q : RetireQueue) (i j : Fin retiredSlotCount) :
    (takenAlone q i).states j = if j = i then .empty else q.states j := by
  unfold takenAlone
  dsimp only
  rw [subCount_states, setState_states, endRead_states, beginRead_states, setState_states]
  by_cases hj : j = i <;> simp [hj]

theorem RetireQueue.Ok.take_alone {q : RetireQueue} {i : Fin retiredSlotCount} (h : q.Ok 0)
    (hstate : q.states i = .ready) : (takenAlone q i).Ok 0 := by
  have htaking := (h.take hstate).beginRead
  have hread := htaking.endRead
  exact hread.release.subCount

theorem takenAlone_card {q : RetireQueue} {i : Fin retiredSlotCount} (hstate : q.states i = .ready) :
    (takenAlone q i).readySlots.card + 1 = q.readySlots.card := by
  have herase : (takenAlone q i).readySlots = (q.setState i .empty).readySlots := by
    ext j
    rw [mem_readySlots, mem_readySlots, takenAlone_states, setState_states]
  rw [herase]
  exact readySlots_from_ready hstate (by decide)

theorem alone_compareExchange {α : Type} (i : Fin retiredSlotCount) (old new : SlotState)
    (k : Bool → Unit → Prog RetireQueue Unit Unit α) (q : RetireQueue) :
    (((compareExchange i old new).run ()).bind k).alone () q
      = if q.states i = old then (k true ()).alone () (q.setState i new)
        else (k false ()).alone () q := by
  have hrun : (((compareExchange i old new).run ()).bind k).alone () q
      = (k (if q.states i = old then (q.setState i new, true) else (q, false)).2 ()).alone ()
          (if q.states i = old then (q.setState i new, true) else (q, false)).1 := rfl
  rw [hrun]
  split <;> rfl

/-- Alone, with a ready slot somewhere in the list, `take_one` takes the first. -/
theorem takeFrom_alone {q : RetireQueue} (slots : List (Fin retiredSlotCount))
    (hready : ∃ i ∈ slots, q.states i = .ready) :
    ∃ i c, q.states i = .ready ∧
      ((takeFrom slots).run ()).alone () q = (takenAlone q i, (), some c) := by
  induction slots with
  | nil =>
      obtain ⟨i, hi, -⟩ := hready
      exact absurd hi List.not_mem_nil
  | cons i rest ih =>
      unfold takeFrom
      by_cases hstate : q.states i = .ready
      · refine ⟨i, (((q.setState i .taking).beginRead i).cells i).cache, hstate, ?_⟩
        rw [Act.run_bind, alone_compareExchange, if_pos hstate, if_pos rfl]
        simp only [Act.run_bind, Act.atomic, Act.atomicOk, update, Prog.bind_atomic, Prog.bind_done,
          Prog.alone_atomic, Act.run_pure, Prog.alone_done]
        rfl
      · obtain ⟨j, c, hj, hrun⟩ := ih (by
          obtain ⟨j, hj, hjready⟩ := hready
          rcases List.mem_cons.1 hj with rfl | hj
          · exact absurd hjready hstate
          · exact ⟨j, hj, hjready⟩)
        refine ⟨j, c, hj, ?_⟩
        rw [Act.run_bind, alone_compareExchange, if_neg hstate]
        exact hrun

/-- Alone, `reclaim_one` reports whether a slot was ready, and takes one if so. -/
theorem reclaimOne_alone {q : RetireQueue} (h : q.Ok 0) :
    (q.readySlots = ∅ ∧ ((reclaimOne).run ()).alone () q = (q, (), false)) ∨
      ∃ i, q.states i = .ready ∧ ((reclaimOne).run ()).alone () q = (takenAlone q i, (), true) := by
  have hload : ∀ k : Nat → Unit → Prog RetireQueue Unit Unit (Option ThreadCache),
      (((Act.atomic fun _ q => (q, q.readyCount) : QueueAct Nat).run ()).bind k).alone () q
        = (k q.readyCount ()).alone () q := fun _ => rfl
  unfold reclaimOne takeOne
  rw [Act.run_bind, Prog.alone_bind, Act.run_bind, hload, h.count_eq]
  by_cases hnone : q.readySlots = ∅
  · left
    rw [hnone, Finset.card_empty, if_pos rfl]
    exact ⟨rfl, rfl⟩
  · right
    obtain ⟨j, hj⟩ := Finset.nonempty_iff_ne_empty.2 hnone
    obtain ⟨i, c, hi, htake⟩ := takeFrom_alone (List.finRange retiredSlotCount)
      ⟨j, List.mem_finRange j, mem_readySlots.1 hj⟩
    have hcard : q.readySlots.card ≠ 0 := by rwa [Ne, Finset.card_eq_zero]
    refine ⟨i, hi, ?_⟩
    rw [if_neg hcard, htake]
    rfl

/-- Alone, `reclaim_all` ends with every slot empty, given a round more than there are ready slots. -/
theorem reclaimAll_alone {q : RetireQueue} (h : q.Ok 0) {rounds : Nat}
    (hrounds : q.readySlots.card < rounds) :
    (((reclaimAll rounds).run ()).alone () q).2.2 = true ∧
      ∀ i, (((reclaimAll rounds).run ()).alone () q).1.states i = .empty := by
  induction rounds generalizing q with
  | zero => exact absurd hrounds (Nat.not_lt_zero _)
  | succ rounds ih =>
      unfold reclaimAll
      rw [Act.run_bind, Prog.alone_bind]
      obtain ⟨hnone, hrun⟩ | ⟨i, hi, hrun⟩ := reclaimOne_alone h
      · rw [hrun]
        refine ⟨rfl, fun i => ?_⟩
        obtain hready | hempty := h.ready_or_empty i
        · have hmem := mem_readySlots.2 hready
          rw [hnone] at hmem
          exact absurd hmem (Finset.notMem_empty i)
        · exact hempty
      · have hcard := takenAlone_card hi
        rw [hrun]
        have hfewer : (takenAlone q i).readySlots.card < rounds := by omega
        exact ih (h.take_alone hi) hfewer

end Programs

section Runs

variable {ι : Type} [DecidableEq ι] [Fintype ι]

/-- **The retirement queue.** In every interleaving no slot is written over an unread cache and none
is read but once and whole; the caches that held memory when they were retired, all different, are
those their own threads flushed, those a taker has, those parked in a slot and those in the hands of
a thread under way. With no thread under way the count is that of the ready slots, the others are
empty, and a `reclaim_all` alone ends with all of them empty. -/
theorem retirement_queue {s : Pool ι RetireQueue Unit Unit}
    (hreach : Reach QueueOp.run (queueStart ι) s) :
    s.shared.overwrites = 0 ∧ s.shared.misreads = 0 ∧ s.shared.taken.Nodup ∧
      (s.shared.entered.map Prod.fst).Nodup ∧
      (∃ hand : ι → Multiset (Nat × ThreadCache), (∀ t, (s.threads t).Idle → hand t = 0) ∧
        (s.shared.entered : Multiset (Nat × ThreadCache))
          = s.shared.flushed + s.shared.taken + s.shared.parked + ∑ t, hand t) ∧
      ((∀ t, (s.threads t).Idle) →
        s.shared.readyCount = s.shared.readySlots.card ∧
          (∀ i, s.shared.states i = .ready ∨ s.shared.states i = .empty) ∧
          ∀ rounds, retiredSlotCount < rounds →
            let last := ((QueueAct.reclaimAll rounds).run ()).alone () s.shared
            last.2.2 = true ∧ ∀ i, last.1.states i = .empty) := by
  have hstart : (queueStart ι).Inv RetireQueue.Ok noOwn fun _ => True :=
    Pool.Inv.rest (fun _ => rfl) (fun _ => trivial) (by
      have hnone : ∑ _t : ι, noOwn () = 0 := Finset.sum_const_zero
      rw [hnone]
      exact RetireQueue.Ok.new)
  have hinv := hstart.reach (fun op _ _ => queueOp_pays op) hreach
  obtain ⟨hand, hok, hidle⟩ := hinv.displays
  have hsum : ∑ t, (noOwn (s.threads t).own + hand t) = ∑ t, hand t :=
    Finset.sum_congr rfl fun t _ => zero_add _
  rw [hsum] at hok
  have hentered := hok.entered
  have hentries : (s.shared.entered : Multiset (Nat × ThreadCache)).Nodup :=
    Multiset.coe_nodup.2 (List.Nodup.of_map _ hok.distinct)
  refine ⟨hok.overwrites, hok.misreads, ?_, hok.distinct, ?_, fun hall => ?_⟩
  · rw [hentered] at hentries
    refine Multiset.coe_nodup.1 (Multiset.nodup_of_le ?_ hentries)
    rw [add_assoc, add_assoc, add_left_comm]
    exact Multiset.le_add_right _ _
  · refine ⟨fun t => (hand t).2.2.2, fun t ht => ?_, ?_⟩
    · dsimp only
      rw [(hidle t ht).2]
      rfl
    · rw [hentered, Prod.snd_sum, Prod.snd_sum, Prod.snd_sum]
  · have hzero : ∑ t, hand t = 0 := Finset.sum_eq_zero fun t _ => (hidle t (hall t)).2
    rw [hzero] at hok
    refine ⟨hok.count_eq, hok.ready_or_empty, fun rounds hrounds => reclaimAll_alone hok ?_⟩
    refine lt_of_le_of_lt ?_ hrounds
    have hle := Finset.card_le_univ s.shared.readySlots
    rwa [Fintype.card_fin] at hle

/-- A thread retires a cache while another one looks for caches to take. -/
def queueRace : List (Fin 2 × (QueueOp ⊕ Unit)) :=
  let c : ThreadCache := { ThreadCache.new with cachedBytes := 64 }
  [(0, .inl (.retire c)), (1, .inl .takeOne), (0, .inr ()), (0, .inr ()), (0, .inr ()), (0, .inr ()),
    (0, .inr ()), (1, .inr ()), (0, .inr ())]

theorem retirement_queue_race :
    ∃ s : Pool (Fin 2) RetireQueue Unit Unit,
      Pool.exec QueueOp.run (queueStart (Fin 2)) queueRace = some s ∧
        s.shared.readyCount = 1 ∧ s.shared.misreads = 0 := by
  obtain ⟨s, hs⟩ : ∃ s, Pool.exec QueueOp.run (queueStart (Fin 2)) queueRace = some s := ⟨_, rfl⟩
  have hcount : (Pool.exec QueueOp.run (queueStart (Fin 2)) queueRace).map
      (fun s => s.shared.readyCount) = some 1 := rfl
  rw [hs] at hcount
  exact ⟨s, hs, Option.some.inj hcount, (retirement_queue (Pool.exec_reach hs)).2.1⟩

end Runs

end Allox
