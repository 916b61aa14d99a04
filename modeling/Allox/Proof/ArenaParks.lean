import Allox.Proof.Diagnostics
import Mathlib.Tactic.Linarith
import Mathlib.Tactic.Ring

/-!
# Who has recorded a park

A thread holds the parks in the batch it displays, and in hand those it has seen or published since. A
park that is recorded twice or not at all is misjudged, and then nothing is promised.
-/

namespace Allox

open Resumption

def DiagThread.parks (l : DiagThread) : ℤ := l.cache.pending.count .arenaParks

/-- The regions released are the parks published and those that are still to come. -/
structure ParkTally (w : DiagWorld) (m : ℤ) : Prop where
  slots : ∀ c ∈ w.slots, c.pending.count .arenaParks = 0
  parks : w.misjudged = 0 → (w.released : ℤ) = w.volume .arenaParks + m

namespace Diagnostics

abbrev ParkRuns {α : Type} (m : DiagAct α) (l : DiagThread) (hand : ℤ)
    (post : α → DiagThread → ℤ → Prop) : Prop :=
  Runs ParkTally DiagThread.parks m l hand post

variable {l : DiagThread} {hand : ℤ} {contains : Nat × Nat → Bool}

theorem parks_read {α : Type} {k : DiagThread → DiagAct α} {post : α → DiagThread → ℤ → Prop}
    (h : ParkRuns (k l) l hand post) : ParkRuns (Act.get >>= k) l hand post := by
  have hget : ParkRuns Act.get l hand fun own l' m => own = l ∧ l' = l ∧ m = hand :=
    Runs.get ⟨rfl, rfl, rfl⟩
  refine Runs.bind hget ?_
  rintro _ _ _ ⟨rfl, rfl, rfl⟩
  exact h

theorem parks_modify {f : DiagThread → DiagThread} (m : ℤ) (h : l.parks + hand = (f l).parks + m) :
    ParkRuns (Act.modify f) l hand fun _ l' m' => l' = f l ∧ m' = m :=
  Runs.modify h ⟨rfl, rfl⟩

/-! ### Publishing -/

theorem parks_bump (f : Volume) (n : Nat) :
    ParkRuns (bump f n) l hand fun _ l' m =>
      l' = l ∧ m = hand - if f = .arenaParks then (n : ℤ) else 0 := by
  refine Runs.atomic fun _ w frame h => ⟨_, ⟨h.slots, fun hzero => ?_⟩, rfl, rfl⟩
  have hold := h.parks hzero
  dsimp only
  split
  · rename_i hf
    rw [hf, Function.update_self, hold]
    push_cast
    ring
  · rename_i hf
    rw [Function.update_of_ne (Ne.symm hf), hold]
    ring

theorem parks_bumpUnlessZero (f : Volume) (n : Nat) :
    ParkRuns (bumpUnlessZero f n) l hand fun _ l' m =>
      l' = l ∧ m = hand - if f = .arenaParks then (n : ℤ) else 0 := by
  unfold bumpUnlessZero
  split
  · rename_i hzero
    refine Runs.pure ⟨rfl, ?_⟩
    rw [hzero, Nat.cast_zero, ite_self, sub_zero]
  · exact parks_bump f n

theorem parks_drain (batch : Batch) (fs : List Volume) :
    ParkRuns (drain batch fs) l hand fun _ l' m =>
      l' = l ∧ m = hand - fs.count .arenaParks * (batch .arenaParks : ℤ) := by
  induction fs generalizing hand with
  | nil => exact Runs.pure ⟨rfl, by simp⟩
  | cons f rest ih =>
      unfold drain
      refine Runs.bind (parks_bumpUnlessZero f _) ?_
      rintro _ _ _ ⟨rfl, rfl⟩
      refine ih.mono ?_
      rintro _ l' m ⟨rfl, rfl⟩
      refine ⟨rfl, ?_⟩
      rw [List.count_cons]
      by_cases hf : f = .arenaParks
      · rw [hf]
        simp only [if_true, beq_self_eq_true]
        push_cast
        ring
      · simp only [if_neg hf, beq_iff_eq]
        push_cast
        ring

theorem parks_record (r : DiagPending × Batch) :
    ParkRuns (record r) l hand fun p l' m =>
      p = r.1 ∧ l' = l ∧ m = hand - (r.2 .arenaParks : ℤ) := by
  refine Runs.bind (parks_drain r.2 Volume.all) ?_
  rintro _ _ _ ⟨rfl, rfl⟩
  refine Runs.pure ⟨rfl, rfl, ?_⟩
  have hone : Volume.all.count .arenaParks = 1 := by decide
  rw [hone, Nat.cast_one, one_mul]

theorem parks_publish (p : DiagPending) :
    ParkRuns (record p.publish) l (p.count .arenaParks + hand) fun p' l' m =>
      p'.count .arenaParks = 0 ∧ l' = l ∧ m = hand := by
  refine (parks_record _).mono ?_
  rintro _ _ _ ⟨rfl, rfl, rfl⟩
  exact ⟨rfl, rfl, add_sub_cancel_left _ _⟩

/-- What a note adds to the parks of a batch. -/
def Adds (n : DiagPending → DiagPending × Batch) (d : ℤ) : Prop :=
  ∀ p, ((n p).1.count .arenaParks : ℤ) + (n p).2 .arenaParks = p.count .arenaParks + d

theorem adds_of_balance {n : DiagPending → DiagPending × Batch} {recorded : Batch} {d : ℕ}
    (h : ∀ p, (n p).1.count + (n p).2 = p.count + recorded) (hd : recorded .arenaParks = d) :
    Adds n d := by
  intro p
  have hparks := congrFun (h p) .arenaParks
  simp only [Pi.add_apply, hd] at hparks
  exact_mod_cast hparks

theorem parks_recordNote {n : DiagPending → DiagPending × Batch} {d : ℤ} (hn : Adds n d)
    (p : DiagPending) (l : DiagThread) (hand : ℤ) :
    ParkRuns (record (n p)) l (p.count .arenaParks + d + hand) fun p' l' m =>
      l' = l ∧ m = p'.count .arenaParks + hand := by
  refine (parks_record _).mono ?_
  rintro _ _ _ ⟨rfl, rfl, rfl⟩
  refine ⟨rfl, ?_⟩
  rw [← hn p]
  ring

theorem parks_noteOwn {n : DiagPending → DiagPending × Batch} {d : ℤ} (hn : Adds n d) :
    ParkRuns (noteOwn n) l (d + hand) fun _ _ m => m = hand := by
  refine parks_read ?_
  refine Runs.bind (parks_record _) ?_
  rintro _ l _ ⟨rfl, rfl, rfl⟩
  refine (parks_modify hand ?_).mono fun _ _ _ h => h.2
  have := hn l.cache.pending
  simp only [DiagThread.parks]
  linarith

/-! ### Parks -/

/-- A borrowed cache may do anything that leaves the hand as it is without the borrow. -/
theorem parks_withCache {f : DiagAct Unit} {hand' : ℤ}
    (hf : l.tls = .free → ParkRuns f { l with tls := .active } hand fun _ _ m => m = hand')
    (helse : l.tls ≠ .free → hand = hand') :
    ParkRuns (withCache f) l hand fun _ l' m => m = hand' ∧ (l.tls ≠ .free → l' = l) := by
  refine parks_read ?_
  split
  · rename_i hfree
    refine Runs.bind (parks_modify hand rfl) ?_
    rintro _ _ _ ⟨rfl, rfl⟩
    refine Runs.bind (hf hfree) ?_
    rintro _ l' _ rfl
    exact (parks_modify _ rfl).mono fun _ _ _ h => ⟨h.2, fun hno => absurd hfree hno⟩
  · rename_i hbusy
    exact Runs.pure ⟨helse hbusy, fun _ => rfl⟩

theorem adds_park : Adds (fun p => p.noteArenaEvent true) (1 : ℕ) :=
  adds_of_balance (fun _ => DiagPending.noteDiag_balance) rfl

/-- A region that is parked is recorded here, or is in hand for the caller to record. -/
theorem parks_unmapOrReturn (region : Nat × Nat) (again : Bool) :
    ParkRuns (unmapOrReturn contains region again) l hand fun parked l' m =>
      m = (if again && parked then 1 else 0) + hand ∧ (l.tls ≠ .free → l' = l) := by
  unfold unmapOrReturn
  split
  · refine parks_read ?_
    have hrelease : ParkRuns (Act.atomic fun _ w => ({ w with
        released := w.released + 1
        misjudged := w.misjudged + if decide (l.tls = .free) = again then 1 else 0 }, ())) l hand
        fun _ l' m => l' = l ∧
          m = (if l.tls = .free then 1 else 0) + ((if again then 1 else 0) + hand) := by
      refine Runs.atomic fun _ w frame h => ⟨_, ⟨h.slots, fun hzero => ?_⟩, rfl, rfl⟩
      dsimp only at hzero ⊢
      have hold := h.parks (by omega)
      have hjudged : ¬decide (l.tls = .free) = again := by
        intro heq
        rw [if_pos heq] at hzero
        omega
      by_cases hfree : l.tls = .free
      · cases again with
        | true => exact absurd (by simp [hfree]) hjudged
        | false =>
            simp only [if_pos hfree, Bool.false_eq_true, if_false]
            push_cast
            linarith
      · cases again with
        | true =>
            simp only [if_neg hfree, if_true]
            push_cast
            linarith
        | false => exact absurd (by simp [hfree]) hjudged
    refine Runs.bind hrelease ?_
    rintro _ l _ ⟨rfl, rfl⟩
    have hnote : ParkRuns (withCache (noteOwn fun p => p.noteArenaEvent true)) l
        ((if l.tls = .free then 1 else 0) + ((if again then 1 else 0) + hand)) fun _ l' m =>
          m = (if again then 1 else 0) + hand ∧ (l.tls ≠ .free → l' = l) := by
      refine parks_withCache (fun hfree => ?_) fun hbusy => ?_
      · rw [if_pos hfree]
        exact parks_noteOwn adds_park
      · rw [if_neg hbusy, zero_add]
    refine Runs.bind hnote ?_
    rintro _ _ _ ⟨rfl, hsame⟩
    refine Runs.pure ⟨?_, hsame⟩
    simp only [Bool.and_true]
  · refine Runs.pure ⟨?_, fun _ => rfl⟩
    simp only [Bool.and_false, Bool.false_eq_true, if_false, zero_add]

theorem parks_releaseStash (stash : List (Nat × Nat)) :
    ParkRuns (releaseStash contains stash) l hand fun parks l' m =>
      m = (parks : ℤ) + hand ∧ (l.tls ≠ .free → l' = l) := by
  induction stash generalizing l hand with
  | nil => exact Runs.pure ⟨by simp, fun _ => rfl⟩
  | cons region rest ih =>
      unfold releaseStash
      refine Runs.bind (parks_unmapOrReturn region true) ?_
      rintro parked l₁ _ ⟨rfl, hsame⟩
      refine Runs.bind ih ?_
      rintro parks l₂ _ ⟨rfl, hsame'⟩
      refine Runs.pure ⟨?_, fun hbusy => ?_⟩
      · cases parked <;> simp [add_assoc]
      · obtain rfl := hsame hbusy
        exact hsame' hbusy

theorem parks_flushLists (p : DiagPending) (lists : List Nat) :
    ParkRuns (flushLists p lists) l (p.count .arenaParks + hand) fun p' l' m =>
      l' = l ∧ m = p'.count .arenaParks + hand := by
  induction lists generalizing p with
  | nil => exact Runs.pure ⟨rfl, rfl⟩
  | cons blocks rest ih =>
      have hadds : Adds (fun p => p.noteFlush blocks) (0 : ℕ) :=
        adds_of_balance (fun _ => DiagPending.noteTwo_balance) rfl
      have hnote := parks_recordNote hadds p l hand
      rw [Nat.cast_zero, add_zero] at hnote
      unfold flushLists
      refine Runs.bind hnote ?_
      rintro p' _ _ ⟨rfl, rfl⟩
      exact ih p'

/-- `flush_all` records in the batch of the flushed cache, which it publishes. -/
theorem parks_flushAll (c : DiagCache) :
    ParkRuns (flushAll contains c) l (c.pending.count .arenaParks + hand) fun c' l' m =>
      c'.pending.count .arenaParks = 0 ∧ m = hand ∧ (l.tls ≠ .free → l' = l) := by
  unfold flushAll
  refine Runs.bind (parks_flushLists c.pending c.lists) ?_
  rintro p _ _ ⟨rfl, rfl⟩
  refine Runs.bind (parks_releaseStash _) ?_
  rintro parks l₁ _ ⟨rfl, hsame⟩
  have hadds : Adds (fun p => p.noteArenaParks parks) parks :=
    adds_of_balance (fun _ => DiagPending.noteDiag_balance) (Pi.single_eq_same _ _)
  have hnote := parks_recordNote hadds p l₁ hand
  rw [add_comm _ (parks : ℤ), add_assoc] at hnote
  refine Runs.bind hnote ?_
  rintro p' _ _ ⟨rfl, rfl⟩
  refine Runs.bind (parks_publish p') ?_
  rintro p'' _ _ ⟨hzero, rfl, rfl⟩
  exact Runs.pure ⟨hzero, rfl, hsame⟩

/-! ### Operations -/

/-- What every operation does with the parks. -/
abbrev Settles (m : DiagAct Unit) : Prop :=
  ∀ l hand, ParkRuns m l hand fun _ _ m => m = hand

theorem settles_withCache {f : DiagAct Unit} (h : Settles f) : Settles (withCache f) :=
  fun _ _ => (parks_withCache (fun _ => h _ _) fun _ => rfl).mono fun _ _ _ h => h.1

theorem parks_takeOne :
    ParkRuns takeOne l hand fun c l' m =>
      l' = l ∧ m = hand ∧ ∀ c', c = some c' → c'.pending.count .arenaParks = 0 := by
  refine Runs.atomic fun e w frame h => ⟨hand, ⟨fun c hc => ?_, h.parks⟩, rfl, rfl, fun c' hc => ?_⟩
  · exact h.slots c (List.mem_of_mem_eraseIdx hc)
  · exact h.slots c' (List.mem_of_getElem? hc)

theorem parks_park {c : DiagCache} (hzero : c.pending.count .arenaParks = 0) :
    ParkRuns (Act.atomic fun e w => (if e.room then { w with slots := c :: w.slots } else w, e.room)) l
      hand fun _ _ m => m = hand := by
  refine Runs.atomic fun e w frame h => ⟨hand, ?_, rfl⟩
  dsimp only
  split
  · refine ⟨fun c' hc => ?_, h.parks⟩
    rcases List.mem_cons.1 hc with rfl | hc
    · exact hzero
    · exact h.slots c' hc
  · exact h

theorem parks_flushTaken {c : DiagCache} (hzero : c.pending.count .arenaParks = 0) :
    ParkRuns (flushAll contains c) l hand fun _ _ m => m = hand := by
  have h : ParkRuns (flushAll contains c) l (c.pending.count .arenaParks + hand) _ := parks_flushAll c
  rw [hzero, Nat.cast_zero, zero_add] at h
  exact h.mono fun _ _ _ hpost => hpost.2.1

theorem parks_reclaimOne : ParkRuns (reclaimOne contains) l hand fun _ _ m => m = hand := by
  unfold reclaimOne
  refine Runs.bind parks_takeOne ?_
  rintro c l _ ⟨rfl, rfl, hzero⟩
  cases c with
  | none => exact Runs.pure rfl
  | some c =>
      refine Runs.bind (parks_flushTaken (hzero c rfl)) ?_
      rintro _ _ _ rfl
      exact Runs.pure rfl

theorem parks_reclaimAll (n : Nat) : Settles (reclaimAll contains n) := by
  induction n with
  | zero => exact fun _ _ => Runs.pure rfl
  | succ n ih =>
      intro l hand
      unfold reclaimAll
      refine Runs.bind parks_reclaimOne ?_
      rintro found _ _ rfl
      split
      · exact ih _ _
      · exact Runs.pure rfl

/-- The cache of the thread is flushed while it is borrowed. -/
theorem parks_flushOwn (hbusy : l.tls ≠ .free) :
    ParkRuns (flushOwn contains) l hand fun _ _ m => m = hand := by
  unfold flushOwn
  refine parks_read ?_
  have hflush : ParkRuns (flushAll contains l.cache) l
      (l.cache.pending.count .arenaParks + (hand - l.cache.pending.count .arenaParks)) _ :=
    parks_flushAll l.cache
  rw [add_sub_cancel] at hflush
  refine Runs.bind hflush ?_
  rintro c l' _ ⟨hzero, rfl, hsame⟩
  obtain rfl := hsame hbusy
  refine (parks_modify hand ?_).mono fun _ _ _ h => h.2
  simp only [DiagThread.parks, hzero]
  ring

theorem parks_flush (n : Nat) : Settles (flush contains n) := by
  intro l hand
  unfold flush
  refine Runs.bind (parks_reclaimAll n _ _) ?_
  rintro _ _ _ rfl
  exact (parks_withCache (fun _ => parks_flushOwn nofun) fun _ => rfl).mono fun _ _ _ h => h.1

theorem parks_freeLarge (region : Nat × Nat) : Settles (freeLarge contains region) := by
  intro l hand
  unfold freeLarge
  refine Runs.bind (parks_unmapOrReturn region false) ?_
  rintro _ _ _ ⟨rfl, -⟩
  exact Runs.pure (by simp)

theorem parks_retire : Settles (retire contains) := by
  intro l hand
  unfold retire
  refine parks_read ?_
  split
  · refine Runs.bind (parks_modify (l.cache.pending.count .arenaParks + hand) ?_) ?_
    · simp only [DiagThread.parks, DiagCache.new, DiagPending.new, Pi.zero_apply, Nat.cast_zero, zero_add]
    rintro _ _ _ ⟨rfl, rfl⟩
    refine Runs.bind (parks_publish _) ?_
    rintro p _ _ ⟨hzero, rfl, rfl⟩
    dsimp only
    split
    · exact Runs.pure rfl
    · refine Runs.bind (parks_park hzero) ?_
      rintro parked _ _ rfl
      split
      · exact Runs.pure rfl
      · refine Runs.bind (parks_flushTaken hzero) ?_
        rintro _ _ _ rfl
        exact Runs.pure rfl
  · exact Runs.pure rfl

theorem parks_reclaimRetired (kept : List Nat) : Settles (reclaimRetired contains kept) := by
  intro l hand
  unfold reclaimRetired
  refine Runs.bind parks_takeOne ?_
  rintro c l hand ⟨rfl, rfl, hzero⟩
  cases c with
  | none => exact Runs.pure rfl
  | some c =>
      have hc := hzero c rfl
      refine parks_read ?_
      split
      · refine Runs.bind (parks_modify (l.cache.pending.count .arenaParks + hand) ?_) ?_
        · simp only [DiagThread.parks, hc, Nat.cast_zero, zero_add]
        rintro _ _ _ ⟨rfl, rfl⟩
        refine Runs.bind (parks_publish _) ?_
        rintro _ _ _ ⟨-, -, rfl⟩
        exact Runs.pure rfl
      · have hpublish : ParkRuns (record c.pending.publish) l (c.pending.count .arenaParks + hand) _ :=
          parks_publish _
        rw [hc, Nat.cast_zero, zero_add] at hpublish
        refine Runs.bind hpublish ?_
        rintro p _ _ ⟨hp, rfl, rfl⟩
        refine Runs.bind (parks_flushTaken hp) ?_
        rintro _ _ _ rfl
        exact Runs.pure rfl

/-- A note that is not about a park. -/
theorem parks_work (n : Note) (lists : List Nat) : Settles (work n lists) := by
  refine settles_withCache fun l hand => ?_
  have hadds : Adds n.apply (0 : ℕ) := by
    refine adds_of_balance (fun p => n.apply_balance) ?_
    cases n <;> rfl
  refine Runs.bind (parks_modify hand rfl) ?_
  rintro _ l hand ⟨-, rfl⟩
  have hnote : ParkRuns (noteOwn n.apply) l ((0 : ℕ) + hand) _ := parks_noteOwn hadds
  rwa [Nat.cast_zero, zero_add] at hnote

theorem parks_dropStashed : Settles (dropStashed contains) := by
  intro l hand
  unfold dropStashed
  refine parks_read ?_
  split
  · refine Runs.bind (parks_modify hand rfl) ?_
    rintro _ _ _ ⟨rfl, rfl⟩
    exact parks_freeLarge _ _ _
  · exact Runs.pure rfl

theorem settles_op (op : DiagOp) : Settles (op.run contains) := by
  cases op with
  | work n lists => exact parks_work n lists
  | freeLarge region => exact parks_freeLarge region
  | stashRegion region =>
      exact settles_withCache fun l hand => (parks_modify hand rfl).mono fun _ _ _ h => h.2
  | dropStashed => exact parks_dropStashed
  | reclaimRetired kept => exact settles_withCache (parks_reclaimRetired kept)
  | flush n => exact parks_flush n
  | retire => exact parks_retire
  | enterHook =>
      refine fun l hand => (parks_modify hand ?_).mono fun _ _ _ h => h.2
      split <;> rfl
  | leaveHook =>
      refine fun l hand => (parks_modify hand ?_).mono fun _ _ _ h => h.2
      split <;> rfl

end Diagnostics

/-! ### Every interleaving -/

section Runs

variable {ι : Type} [DecidableEq ι] [Fintype ι]

/-- **The counter of parks agrees with the arena.** In every run in which each region was recorded by one
of the two places, once no thread is in a call or has parks in its batch, the counter is the number of
regions that were released to the arena. -/
theorem arena_parks_counted {contains : Nat × Nat → Bool} {s : Pool ι DiagWorld DiagThread DiagEnv}
    (hreach : Reach (DiagOp.run contains) (diagStart ι) s) (hidle : ∀ t, (s.threads t).Idle)
    (hpublished : ∀ t, (s.threads t).own.cache.pending.count .arenaParks = 0)
    (hjudged : s.shared.misjudged = 0) : s.shared.volume .arenaParks = s.shared.released := by
  have hstart : (diagStart ι).Inv ParkTally DiagThread.parks fun _ => True :=
    Pool.Inv.rest (fun _ => rfl) (fun _ => trivial) (by
      have hsum : ∑ t : ι, DiagThread.parks ⟨.free, .new⟩ = 0 := Finset.sum_eq_zero fun _ _ => rfl
      rw [hsum]
      exact ⟨nofun, fun _ => rfl⟩)
  have hinv := hstart.reach
    (fun op l _ => Runs.pays _ _ _ ((Diagnostics.settles_op op l 0).mono fun _ _ _ h => ⟨trivial, h⟩))
    hreach
  obtain ⟨hand, htally, hrest⟩ := hinv.displays
  have hnone : ∑ t, ((s.threads t).own.parks + hand t) = 0 :=
    Finset.sum_eq_zero fun t _ => by
      rw [(hrest t (hidle t)).2, DiagThread.parks, hpublished t]
      rfl
  rw [hnone] at htally
  have hparks := htally.parks hjudged
  rw [add_zero] at hparks
  exact_mod_cast hparks.symm

/-- A region goes with its cache to another thread, which flushes it, and frees one of its own. -/
def recordedRun : List (Fin 2 × (DiagOp ⊕ DiagEnv)) :=
  [(0, .inl (.stashRegion (1, 1))), (0, .inl .retire), (0, .inr ⟨0, true⟩)]
    ++ [(1, .inl (.reclaimRetired [])), (1, .inr ⟨0, true⟩)]
    ++ [(1, .inl (.flush 1))] ++ List.replicate 3 (1, .inr ⟨0, true⟩)
    ++ [(1, .inl (.freeLarge (2, 1))), (1, .inr ⟨0, true⟩)]
    ++ [(1, .inl (.flush 1))] ++ List.replicate 2 (1, .inr ⟨0, true⟩)

theorem arena_parks_counted_remote : ∃ s : Pool (Fin 2) DiagWorld DiagThread DiagEnv,
    Pool.exec (DiagOp.run fun _ => true) (diagStart (Fin 2)) recordedRun = some s ∧
      s.shared.volume .arenaParks = s.shared.released ∧ s.shared.released = 2 := by
  obtain ⟨s, hs, hreleased, hjudged, hidle, hpublished⟩ :
      ∃ s, Pool.exec (DiagOp.run fun _ => true) (diagStart (Fin 2)) recordedRun = some s ∧
        s.shared.released = 2 ∧ s.shared.misjudged = 0 ∧ (∀ t, (s.threads t).Idle) ∧
        ∀ t, (s.threads t).own.cache.pending.count .arenaParks = 0 :=
    ⟨_, rfl, rfl, rfl, fun t => match t with
      | 0 => trivial
      | 1 => trivial, fun t => match t with
      | 0 => rfl
      | 1 => rfl⟩
  exact ⟨s, hs, arena_parks_counted (Pool.exec_reach hs) hidle hpublished hjudged, hreleased⟩

/-- The second thread finds the retired cache in `flush_current_thread` instead. -/
def doubledRun : List (Fin 2 × (DiagOp ⊕ DiagEnv)) :=
  [(0, .inl (.stashRegion (1, 1))), (0, .inl .retire), (0, .inr ⟨0, true⟩)]
    ++ [(1, .inl (.flush 1))] ++ List.replicate 4 (1, .inr ⟨0, true⟩)

/-- One region was parked and two parks were counted. -/
theorem arena_parks_doubled : ∃ s : Pool (Fin 2) DiagWorld DiagThread DiagEnv,
    Reach (DiagOp.run fun _ => true) (diagStart (Fin 2)) s ∧ (∀ t, (s.threads t).Idle) ∧
      (∀ t, (s.threads t).own.cache.pending = .new) ∧ s.shared.slots = [] ∧
      s.shared.released = 1 ∧ s.shared.volume .arenaParks = 2 := by
  obtain ⟨s, hs, hrest⟩ :
      ∃ s, Pool.exec (DiagOp.run fun _ => true) (diagStart (Fin 2)) doubledRun = some s ∧
        (∀ t, (s.threads t).Idle) ∧ (∀ t, (s.threads t).own.cache.pending = .new) ∧
        s.shared.slots = [] ∧ s.shared.released = 1 ∧ s.shared.volume .arenaParks = 2 :=
    ⟨_, rfl, fun t => match t with
      | 0 => trivial
      | 1 => trivial, fun t => match t with
      | 0 => rfl
      | 1 => rfl, rfl, rfl, rfl⟩
  exact ⟨s, Pool.exec_reach hs, hrest⟩

end Runs

end Allox
