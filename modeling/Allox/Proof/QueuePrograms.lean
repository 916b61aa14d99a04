import Allox.Proof.FlushPrograms

/-!
# Trims, and the queue of retired caches

Between operations a thread is tidy: its books are right and it holds no retired cache. A thread that has
moved a slot of the queue out of circulation holds the slot until it puts it back, so a cache in the queue
is never overwritten.
-/

namespace Allox

open Resumption

namespace Sys

open World ThreadCache

variable {α β : Type} {l : Caches} {hand : Multiset Token} {k : Slot} {c : ThreadCache} {n : Nat}
  {t : SpanTier}

/-! ### Between operations -/

/-- A thread between two operations: its books are right, and it holds no retired cache. -/
structure Tidy (l : Caches) : Prop where
  self : (l .self).Ok
  adopted : l .adopted = .new

/-- A program that leaves the hand as it finds it. -/
def Calm (m : Sys α) : Prop :=
  ∀ l hand, Tidy l → SysRuns m l hand fun _ l' m' => Tidy l' ∧ m' = hand

/-- And that fills no empty list. -/
def Quiet (m : Sys α) : Prop :=
  ∀ l hand, Tidy l → SysRuns m l hand fun _ l' m' =>
    Tidy l' ∧ Drains (l .self) (l' .self) ∧ m' = hand

theorem Quiet.calm {m : Sys α} (h : Quiet m) : Calm m :=
  fun l hand hl => SysRuns.mono (h l hand hl) fun _ _ _ hp => ⟨hp.1, hp.2.2⟩

theorem Quiet.pure (a : α) : Quiet (Pure.pure a : Sys α) :=
  fun _ _ hl => SysRuns.pure ⟨hl, .refl _, rfl⟩

theorem Calm.bind {m : Sys α} {f : α → Sys β} (h : Calm m) (hf : ∀ a, Calm (f a)) : Calm (m >>= f) := by
  intro l hand hl
  refine SysRuns.bind (h l hand hl) ?_
  rintro a l' m ⟨hl', rfl⟩
  exact hf a l' m hl'

theorem Quiet.bind {m : Sys α} {f : α → Sys β} (h : Quiet m) (hf : ∀ a, Quiet (f a)) :
    Quiet (m >>= f) := by
  intro l hand hl
  refine SysRuns.bind (h l hand hl) ?_
  rintro a l' m ⟨hl', hdrains, rfl⟩
  refine SysRuns.mono (hf a l' m hl') ?_
  rintro b l'' m ⟨hl'', hdrains', rfl⟩
  exact ⟨hl'', hdrains.trans hdrains', rfl⟩

theorem Quiet.read (f : World → β) : Quiet (Sys.read f) := by
  intro l hand hl
  refine SysRuns.mono (runs_read f) ?_
  rintro _ l' m ⟨rfl, rfl⟩
  exact ⟨hl, .refl _, rfl⟩

theorem Quiet.ask : Quiet Sys.ask := by
  intro l hand hl
  refine SysRuns.mono runs_ask ?_
  rintro _ l' m ⟨rfl, rfl⟩
  exact ⟨hl, .refl _, rfl⟩

theorem Quiet.ite {p : Prop} [Decidable p] {m m' : Sys α} (h : Quiet m) (h' : Quiet m') :
    Quiet (if p then m else m') := by
  split
  · exact h
  · exact h'

theorem Tidy.put (hl : Tidy l) (hc : c.Ok) : Tidy (Function.update l .self c) := by
  refine ⟨?_, ?_⟩
  · rw [Function.update_self]
    exact hc
  · rw [Function.update_of_ne (by decide)]
    exact hl.adopted

theorem Tidy.shrinks {l' : Caches} (hl : Tidy l) (h : Shrinks .self 0 l l') : Tidy l' :=
  ⟨h.books, (h.other .adopted (by decide)).trans hl.adopted⟩

theorem Calm.cache {f : ThreadCache → Sys α} (h : ∀ l hand, Tidy l →
    SysRuns (f (l .self)) l hand fun _ l' m => Tidy l' ∧ m = hand) : Calm (Sys.cache .self >>= f) :=
  fun l hand hl => runs_cache (h l hand hl)

theorem Quiet.cache {f : ThreadCache → Sys α} (h : ∀ l hand, Tidy l →
    SysRuns (f (l .self)) l hand fun _ l' m => Tidy l' ∧ Drains (l .self) (l' .self) ∧ m = hand) :
    Quiet (Sys.cache .self >>= f) :=
  fun l hand hl => runs_cache (h l hand hl)

/-- Everything but the lists and the stash may change. -/
theorem runs_fields (hl : Tidy l) (budget budgetEpoch foreignBytes : Nat)
    (exitArmed retiredReclaimed : Bool) :
    SysRuns (putCache .self
      { l .self with budget, budgetEpoch, foreignBytes, exitArmed, retiredReclaimed }) l hand
      fun _ l' m => Tidy l' ∧ Drains (l .self) (l' .self) ∧ m = hand := by
  refine SysRuns.mono (runs_put_same rfl) ?_
  rintro _ l' m ⟨rfl, rfl⟩
  refine ⟨hl.put (Books.fields hl.self _ _ _ _ _), ?_, rfl⟩
  rw [Function.update_self]
  exact Drains.of_eq (.refl _) rfl rfl rfl

theorem quiet_refreshBudget : Quiet (refreshBudget .self) := by
  refine (Quiet.read _).bind fun epoch => Quiet.cache fun l hand hl => ?_
  split
  · refine SysRuns.bind (runs_read _) ?_
    rintro budget l' m ⟨rfl, rfl⟩
    exact runs_fields hl _ _ _ _ _
  · exact SysRuns.pure ⟨hl, .refl _, rfl⟩

theorem quiet_armExitHook : Quiet (armExitHook .self) := by
  refine Quiet.cache fun l hand hl => ?_
  split
  · exact SysRuns.pure ⟨hl, .refl _, rfl⟩
  · refine (quiet_refreshBudget.bind fun _ => Quiet.ask.bind fun installed =>
      Quiet.cache fun l hand hl => ?_) l hand hl
    exact runs_fields hl _ _ _ _ _

theorem quiet_flushBin (cls : Fin numClasses) (floor : Nat) : Quiet (flushBin .self cls floor) := by
  intro l hand hl
  refine SysRuns.mono (runs_flushBin hl.self) ?_
  rintro _ l' m ⟨rfl, hshrinks, -⟩
  exact ⟨hl.shrinks hshrinks, hshrinks.drains, rfl⟩

theorem quiet_flushActive {t : SpanTier} (cls : Fin t.num) : Quiet (flushActive .self t cls) := by
  intro l hand hl
  refine SysRuns.mono (runs_flushActive hl.self) ?_
  rintro _ l' m ⟨rfl, hshrinks, -⟩
  exact ⟨hl.shrinks hshrinks, hshrinks.drains, rfl⟩

theorem quiet_flushSpanBin {t : SpanTier} (cls : Fin t.num) (floor : Nat) :
    Quiet (flushSpanBin .self t cls floor) := by
  intro l hand hl
  refine SysRuns.mono (runs_flushSpanBin hl.self) ?_
  rintro _ l' m ⟨rfl, hshrinks, -⟩
  exact ⟨hl.shrinks hshrinks, hshrinks.drains, rfl⟩

theorem quiet_trimRound (own : ThreadCache) : Quiet (trimRound own) := by
  unfold trimRound
  split
  · exact (quiet_flushBin _ _).bind fun _ => .pure _
  · exact (quiet_flushActive _).bind fun _ => .pure _
  · exact (quiet_flushActive _).bind fun _ => .pure _
  · split
    · exact (quiet_flushSpanBin _ _).bind fun _ => .pure _
    · exact (quiet_flushSpanBin _ _).bind fun _ => .pure _
    · exact .pure _

theorem quiet_trimLoop (target fuel : Nat) : Quiet (trimLoop target fuel) := by
  induction fuel with
  | zero => exact .pure _
  | succ fuel ih =>
      refine Quiet.cache fun l hand hl => ?_
      split
      · exact SysRuns.pure ⟨hl, .refl _, rfl⟩
      · exact ((quiet_trimRound _).bind fun _ => .ite ih (.pure _)) l hand hl

theorem quiet_trim : Quiet trim :=
  quiet_armExitHook.bind fun _ => quiet_refreshBudget.bind fun _ =>
    Quiet.cache fun l hand hl => quiet_trimLoop _ _ l hand hl

theorem quiet_shed : Quiet shed :=
  quiet_trim.bind fun _ => Quiet.cache fun _ _ hl => runs_fields hl _ _ _ _ _

/-! ### The queue of retired caches -/

theorem new_stake : ThreadCache.new.stake = 0 := Books.stake_eq_zero Ok.new rfl rfl

theorem Tidy.adopted_stake (hl : Tidy l) : (l .adopted).stake = 0 := by
  rw [hl.adopted, new_stake]

/-- The queue, the users' blocks and the budget are in no part of the accounts. -/
theorem bookkeep {w : World} {m : Multiset Token} (h : w.Good m)
    {retired : Fin retiredSlotCount → RetiredSlot} (readyCount : Int) (live : List Live)
    (cacheBudget budgetEpoch : Nat) (hretired : ∀ i c, retired i = .ready c → c.Ok) :
    Good { w with retired, readyCount, live, cacheBudget, budgetEpoch } m := by
  refine { h with
    part := fun u => ?_
    placed := fun e he => (h.placed e he).congr rfl rfl
    retired := hretired }
  cases u with
  | small => exact h.part .small
  | span t => exact h.part (.span t)
  | large =>
      obtain ⟨hheaders, hextents, hreg⟩ := h.part .large
      refine ⟨fun p hp => ?_, hextents, ⟨hreg.table, hreg.tabled, hreg.registry⟩⟩
      obtain ⟨g, hg⟩ := hheaders p hp
      exact ⟨g, { hg with }⟩

theorem owed_update (w : World) (i : Fin retiredSlotCount) (s : RetiredSlot) :
    World.owed { w with retired := Function.update w.retired i s } + (w.retired i).stake
      = w.owed + s.stake := by
  unfold owed
  rw [add_assoc, sum_update_add (fun _ s => RetiredSlot.stake s) w.retired i s, add_assoc]

theorem retired_update {w : World} {m : Multiset Token} (h : w.Good m) {i : Fin retiredSlotCount}
    {s : RetiredSlot} (hs : ∀ c, s = .ready c → c.Ok) :
    ∀ j c, Function.update w.retired i s j = .ready c → c.Ok := by
  intro j c hj
  by_cases hji : j = i
  · subst hji
    rw [Function.update_self] at hj
    exact hs c hj
  · rw [Function.update_of_ne hji] at hj
    exact h.retired j c hj

/-- A slot under work is in hand once. -/
theorem count_update {w : World} {slots : Multiset (Fin retiredSlotCount)} {i : Fin retiredSlotCount}
    {s : RetiredSlot} {taken given : Multiset (Fin retiredSlotCount)}
    (h : ∀ j, (taken + slots).count j = if (w.retired j).busy then 1 else 0)
    (hother : ∀ j, j ≠ i → taken.count j = given.count j)
    (hself : given.count i + (if (w.retired i).busy then 1 else 0)
      = taken.count i + if s.busy then 1 else 0) :
    ∀ j, (given + slots).count j = if (Function.update w.retired i s j).busy then 1 else 0 := by
  intro j
  have hj := h j
  rw [Multiset.count_add] at hj ⊢
  by_cases hji : j = i
  · subst hji
    rw [Function.update_self]
    omega
  · rw [Function.update_of_ne hji, ← hother j hji]
    exact hj

/-- The exchange of a slot's state, one slot of the queue and its cache at a time. -/
theorem runs_slot {run : Env → World → World × α} {taken : Multiset (Fin retiredSlotCount)}
    {post : α → Caches → Multiset Token × Multiset (Fin retiredSlotCount) → Prop}
    {slots : Multiset (Fin retiredSlotCount)} {i : Fin retiredSlotCount}
    (h : ∀ e (w : World), (taken.count i ≤ if (w.retired i).busy then 1 else 0) →
      (∀ c, w.retired i = .ready c → c.Ok) →
      ∃ s hand' given, (run e w).1 = { w with retired := Function.update w.retired i s } ∧
        (∀ c, s = .ready c → c.Ok) ∧ hand + (w.retired i).stake = hand' + s.stake ∧
        (∀ j, j ≠ i → taken.count j = given.count j) ∧
        (given.count i + (if (w.retired i).busy then 1 else 0)
          = taken.count i + if s.busy then 1 else 0) ∧
        post (run e w).2 l (hand', given + slots)) :
    Runs World.Holds displayed (Act.atomic run) l (hand, taken + slots) post := by
  refine Runs.atomic fun e w frame hw => ?_
  obtain ⟨hgood, hslots⟩ := hw
  simp only [Prod.fst_add, Prod.snd_add] at hgood hslots
  rw [add_assoc] at hslots
  have hle := hslots i
  rw [Multiset.count_add] at hle
  obtain ⟨s, hand', given, hrun, hs, hstake, hother, hself, hpost⟩ :=
    h e w (by omega) (hgood.retired i)
  refine ⟨(hand', given + slots), ?_, hpost⟩
  rw [hrun]
  refine ⟨?_, ?_⟩
  · have howed := owed_update w i s
    simp only [Prod.fst_add] at howed ⊢
    refine Eq.subst (motive := Good _) ?_ (bookkeep hgood _ _ _ _ (retired_update hgood hs))
    generalize World.owed { w with retired := Function.update w.retired i s } = o at howed ⊢
    apply add_right_cancel (b := s.stake)
    calc hand + frame.1 + w.owed + s.stake = hand + frame.1 + (w.owed + s.stake) := add_assoc _ _ _
      _ = hand + (w.retired i).stake + (frame.1 + o) := by
        rw [← howed]
        ac_rfl
      _ = hand' + frame.1 + o + s.stake := by
        rw [hstake]
        ac_rfl
  · simp only [Prod.snd_add]
    rw [add_assoc]
    exact count_update hslots hother hself

/-- What `take_one` brings. -/
def Brought (l l' : Caches) (got : Bool) : Prop :=
  if got then ∃ c, c.Ok ∧ l' = Function.update l .adopted c else l' = l

theorem runs_readyCount (f : Int → Int) :
    SysRuns (Act.atomic fun _ w => ({ w with readyCount := f w.readyCount }, ())) l hand
      fun _ l' m => l' = l ∧ m = hand :=
  runs_section fun _ _ _ hw => ⟨hand, bookkeep hw _ _ _ _ hw.retired, rfl, rfl, rfl, rfl⟩

/-- A slot under work goes back into circulation. -/
theorem runs_leave {i : Fin retiredSlotCount} {s : RetiredSlot} (hbusy : s.busy = false)
    (hok : ∀ c, s = .ready c → c.Ok) {slots : Multiset (Fin retiredSlotCount)} :
    Runs World.Holds displayed
      (Act.atomic fun (_ : Env) w => ({ w with retired := Function.update w.retired i s }, ())) l
      (s.stake + hand, {i} + slots) fun _ l' h => l' = l ∧ h = (hand, slots) := by
  refine runs_slot (i := i) fun e w hle _ => ⟨s, hand, 0, rfl, hok, ?_, fun j hj => ?_, ?_, rfl, ?_⟩
  · have hnone : (w.retired i).stake = 0 := by
      cases hslot : w.retired i with
      | ready c => simp [hslot, RetiredSlot.busy] at hle
      | _ => rfl
    rw [hnone, add_zero, add_comm]
  · rw [Multiset.count_singleton, if_neg hj, Multiset.count_zero]
  · have hmine : (w.retired i).busy = true := by
      by_contra hnot
      simp [hnot] at hle
    simp [hmine, hbusy]
  · rw [zero_add]

theorem runs_takeFrom (hfree : (l .adopted).stake = 0) (is : List (Fin retiredSlotCount)) :
    SysRuns (takeFrom is) l hand fun got l' m => m = hand ∧ Brought l l' got := by
  induction is with
  | nil => exact SysRuns.pure ⟨rfl, rfl⟩
  | cons i rest ih =>
      refine ⟨fun slots => ?_⟩
      refine Runs.bind (?_ : Runs World.Holds displayed _ l (hand, slots) fun found l' h =>
        l' = l ∧ found.elim (h = (hand, slots)) fun c => c.Ok ∧ h = (c.stake + hand, {i} + slots)) ?_
      · have hsame : slots = 0 + slots := (zero_add _).symm
        rw [hsame]
        refine runs_slot (i := i) fun e w _ hok => ?_
        cases hslot : w.retired i with
        | ready c =>
            refine ⟨.taking, c.stake + hand, {i}, rfl, by rintro _ ⟨⟩, ?_, fun j hj => ?_, ?_, rfl, hok c hslot, ?_⟩
            · exact (add_comm _ _).trans (add_zero _).symm
            · rw [Multiset.count_singleton, if_neg hj, Multiset.count_zero]
            · simp [RetiredSlot.busy]
            · rw [zero_add]
        | _ =>
            refine ⟨w.retired i, hand, 0, ?_, hok, by rw [hslot], fun _ _ => rfl, by rw [hslot], rfl, rfl⟩
            rw [Function.update_eq_self]
      rintro found l' h ⟨rfl, hfound⟩
      cases found with
      | none =>
          obtain rfl := hfound
          exact ih.runs slots
      | some c =>
          obtain ⟨hok, rfl⟩ := hfound
          have hput : SysRuns (putCache .adopted c) l' (c.stake + hand)
              fun _ l'' m => l'' = Function.update l' .adopted c ∧ m = hand :=
            runs_put _ (by rw [hfree, zero_add])
          refine Runs.bind (hput.runs _) ?_
          rintro _ l'' ⟨m, _⟩ ⟨rfl, rfl, rfl⟩
          have hleave := @runs_leave (Function.update l' .adopted c) m i .empty rfl (by rintro _ ⟨⟩) slots
          rw [show RetiredSlot.stake .empty = 0 from rfl, zero_add] at hleave
          refine Runs.bind hleave ?_
          rintro _ l'' _ ⟨rfl, rfl⟩
          have hcount : SysRuns (do
              Act.atomic fun (_ : Env) w => ({ w with readyCount := w.readyCount - 1 }, ())
              pure true) (Function.update l' .adopted c) m
              fun got l'' m' => m' = m ∧ Brought l' l'' got := by
            refine SysRuns.bind (runs_readyCount fun count => count - 1) ?_
            rintro _ l'' m' ⟨rfl, rfl⟩
            exact SysRuns.pure ⟨rfl, c, hok, rfl⟩
          exact hcount.runs slots

theorem runs_takeOne (hfree : (l .adopted).stake = 0) :
    SysRuns takeOne l hand fun got l' m => m = hand ∧ Brought l l' got := by
  refine SysRuns.bind (runs_read _) ?_
  rintro ready l' m ⟨rfl, rfl⟩
  split
  · exact SysRuns.pure ⟨rfl, rfl⟩
  · exact runs_takeFrom hfree _

theorem runs_dropAdopted (hself : (l .self).Ok) (hzero : (l .adopted).stake = 0) :
    SysRuns dropAdopted l hand fun _ l' m => Tidy l' ∧ m = hand := by
  refine SysRuns.mono (runs_put_same (new_stake.trans hzero.symm)) ?_
  rintro _ l' m ⟨rfl, rfl⟩
  refine ⟨⟨?_, Function.update_self ..⟩, rfl⟩
  rw [Function.update_of_ne (by decide)]
  exact hself

/-- A retired cache in hand is flushed and dropped. -/
theorem runs_emptyAdopted {f : Unit → Sys β} {post : β → Caches → Multiset Token → Prop}
    (hself : (l .self).Ok) (hbooks : (l .adopted).Books n)
    (hf : ∀ l', Tidy l' → SysRuns (f ()) l' hand post) :
    SysRuns (flushAll .adopted >>= fun _ => dropAdopted >>= f) l hand post := by
  refine SysRuns.bind (runs_flushAll hbooks) ?_
  rintro _ l' m ⟨rfl, hcleaned⟩
  have hsame : l' .self = l .self := hcleaned.other .self (by decide)
  refine SysRuns.bind (runs_dropAdopted (by rw [hsame]; exact hself) hcleaned.stake) ?_
  rintro _ l'' m ⟨htidy, rfl⟩
  exact hf l'' htidy

theorem calm_reclaimOne : Calm reclaimOne := by
  intro l hand hl
  refine SysRuns.bind (runs_takeOne hl.adopted_stake) ?_
  rintro got l' m ⟨rfl, hgot⟩
  cases got with
  | false =>
      obtain rfl : l' = l := hgot
      exact SysRuns.pure ⟨hl, rfl⟩
  | true =>
      obtain ⟨c, hok, rfl⟩ := hgot
      refine runs_emptyAdopted (n := 0) ?_ ?_ fun l' hl' => SysRuns.pure ⟨hl', rfl⟩
      · rw [Function.update_of_ne (by decide)]
        exact hl.self
      · rw [Function.update_self]
        exact hok

/-- Two ways to a value, and what follows. -/
theorem runs_choose {p : Prop} [Decidable p] {m m' : Sys α} {f : α → Sys β}
    {q : α → Caches → Multiset Token → Prop} {post : β → Caches → Multiset Token → Prop}
    (h : p → SysRuns m l hand q) (h' : ¬p → SysRuns m' l hand q)
    (hf : ∀ a l' hand', q a l' hand' → SysRuns (f a) l' hand' post) :
    SysRuns (if p then m >>= f else m' >>= f) l hand post := by
  split
  · rename_i hp
    exact SysRuns.bind (h hp) hf
  · rename_i hp
    exact SysRuns.bind (h' hp) hf

theorem runs_adoptWhole (hself : (l .self).stake = 0) (hok : (l .adopted).Ok) :
    SysRuns adoptWhole l hand fun _ l' m => Tidy l' ∧ m = hand := by
  obtain ⟨hadopted, hstake⟩ := Ok.adopt (l .self) hok
  refine SysRuns.modify _ ?_ ⟨⟨?_, Function.update_self ..⟩, rfl⟩
  · unfold cachesStake
    rw [Function.update_self, Function.update_of_ne (by decide), Function.update_self, hstake, hself,
      new_stake, zero_add, add_zero]
  · rw [Function.update_of_ne (by decide), Function.update_self]
    exact hadopted

theorem runs_adoptPart (hself : (l .self).Ok) (hok : (l .adopted).Ok) :
    SysRuns adoptPart l hand fun _ l' m => Tidy l' ∧ m = hand := by
  obtain ⟨hdst, ⟨n, hsrc, -⟩, hstake⟩ := Books.stealEmptyBins hself hok
  unfold adoptPart
  refine SysRuns.bind (q := fun _ l' m => m = hand ∧ (l' .self).Ok ∧ (l' .adopted).Books n) ?_ ?_
  · refine SysRuns.modify hand ?_ ?_
    · dsimp only
      unfold cachesStake
      rw [Function.update_self, Function.update_of_ne (by decide), Function.update_self, hstake]
    · dsimp only
      rw [Function.update_self, Function.update_of_ne (by decide), Function.update_self]
      exact ⟨rfl, hdst, hsrc⟩
  rintro _ l' m ⟨rfl, hself', hbooks⟩
  refine SysRuns.bind (runs_flushAll hbooks) ?_
  rintro _ l'' m ⟨rfl, hcleaned⟩
  refine runs_dropAdopted ?_ hcleaned.stake
  rw [hcleaned.other .self (by decide)]
  exact hself'

theorem calm_reclaimRetired : Calm reclaimRetired := by
  refine Calm.cache fun l hand hl => ?_
  split
  · exact SysRuns.pure ⟨hl, rfl⟩
  · refine runs_choose (q := fun whole l' m => m = hand ∧ Brought l l' whole ∧
      (whole = true → (l .self).stake = 0)) (fun hzero => ?_) (fun _ => SysRuns.pure ⟨rfl, rfl, by rintro ⟨⟩⟩) ?_
    · refine SysRuns.mono (runs_takeOne hl.adopted_stake) ?_
      rintro got l' m ⟨rfl, hgot⟩
      simp only [Bool.and_eq_true, decide_eq_true_eq] at hzero
      exact ⟨rfl, hgot, fun _ => hl.self.stake_eq_zero hzero.1 hzero.2⟩
    · rintro whole l' m ⟨rfl, hgot, hzero⟩
      cases whole with
      | true =>
          obtain ⟨c, hok, rfl⟩ := hgot
          refine runs_adoptWhole ?_ ?_
          · rw [Function.update_of_ne (by decide)]
            exact hzero rfl
          · rw [Function.update_self]
            exact hok
      | false =>
          obtain rfl : l' = l := hgot
          have hlast : ∀ reclaimed, Calm (do
              let own ← cache .self
              putCache .self { own with retiredReclaimed := own.retiredReclaimed || reclaimed }) := by
            refine fun reclaimed => (Quiet.cache fun _ _ hl => ?_).calm
            exact runs_fields hl _ _ _ _ _
          refine SysRuns.bind (runs_takeOne hl.adopted_stake) ?_
          rintro got l'' m ⟨rfl, hgot⟩
          cases got with
          | true =>
              obtain ⟨c, hok, rfl⟩ := hgot
              simp only [↓reduceIte]
              have hself : (Function.update l' .adopted c .self).Ok := by
                rw [Function.update_of_ne (by decide)]
                exact hl.self
              have hadopted : (Function.update l' .adopted c .adopted).Ok := by
                rw [Function.update_self]
                exact hok
              refine SysRuns.bind (runs_adoptPart (l := Function.update l' .adopted c) hself hadopted) ?_
              rintro _ l'' m ⟨hl'', rfl⟩
              exact hlast true l'' m hl''
          | false =>
              obtain rfl : l'' = l' := hgot
              exact (calm_reclaimOne.bind hlast) l'' m hl

/-- A cache that has left its thread goes into the queue or is flushed. -/
theorem runs_retireInto (hself : (l .self).Ok) (hok : (l .adopted).Ok) (is : List (Fin retiredSlotCount)) :
    SysRuns (retireInto is) l hand fun _ l' m => Tidy l' ∧ m = hand := by
  induction is with
  | nil =>
      refine SysRuns.bind (runs_flushAll hok) ?_
      rintro _ l' m ⟨rfl, hcleaned⟩
      refine runs_dropAdopted ?_ hcleaned.stake
      rw [hcleaned.other .self (by decide)]
      exact hself
  | cons i rest ih =>
      refine ⟨fun slots => ?_⟩
      refine Runs.bind (?_ : Runs World.Holds displayed _ l (hand, slots) fun won l' h =>
        l' = l ∧ h = (hand, if won then {i} + slots else slots)) ?_
      · have hsame : slots = 0 + slots := (zero_add _).symm
        rw [hsame]
        refine runs_slot (i := i) fun e w _ hready => ?_
        cases hslot : w.retired i with
        | empty =>
            refine ⟨.writing, hand, {i}, rfl, by rintro _ ⟨⟩, rfl, fun j hj => ?_, ?_, rfl, ?_⟩
            · rw [Multiset.count_singleton, if_neg hj, Multiset.count_zero]
            · simp [RetiredSlot.busy]
            · rw [zero_add]
              rfl
        | _ =>
            refine ⟨w.retired i, hand, 0, ?_, hready, by rw [hslot], fun _ _ => rfl, by rw [hslot], rfl,
              rfl⟩
            rw [Function.update_eq_self]
      rintro won l' h ⟨rfl, rfl⟩
      cases won with
      | false => exact ih.runs slots
      | true =>
          simp only [↓reduceIte]
          refine runs_own ?_
          have hdrop : SysRuns dropAdopted l' hand fun _ l'' m =>
              l'' = Function.update l' .adopted .new ∧ m = (l' .adopted).stake + hand :=
            runs_put _ (by rw [new_stake, zero_add])
          refine Runs.bind (hdrop.runs ({i} + slots)) ?_
          rintro _ l'' ⟨m, _⟩ ⟨rfl, rfl, rfl⟩
          refine Runs.bind (runs_leave (s := .ready (l' .adopted)) rfl ?_) ?_
          · rintro c ⟨⟩
            exact hok
          · rintro _ l'' _ ⟨rfl, rfl⟩
            have hcount : SysRuns
                (Act.atomic fun (_ : Env) w => ({ w with readyCount := w.readyCount + 1 }, ()))
                (Function.update l' .adopted .new) hand fun _ l'' m => Tidy l'' ∧ m = hand := by
              refine SysRuns.mono (runs_readyCount fun count => count + 1) ?_
              rintro _ l'' m ⟨rfl, rfl⟩
              refine ⟨⟨?_, Function.update_self ..⟩, rfl⟩
              rw [Function.update_of_ne (by decide)]
              exact hself
            exact hcount.runs slots

theorem calm_retire : Calm retire := by
  intro l hand hl
  refine SysRuns.bind (q := fun _ l' m => m = hand ∧ (l' .self).Ok ∧ (l' .adopted).Ok) ?_ ?_
  · refine SysRuns.modify hand ?_ ⟨rfl, ?_, ?_⟩
    · unfold cachesStake
      rw [Function.update_self, Function.update_of_ne (by decide), Function.update_self, hl.adopted,
        add_comm (l .self).stake]
    · rw [Function.update_self]
      exact Ok.new
    · rw [Function.update_of_ne (by decide), Function.update_self]
      exact hl.self
  · rintro _ l' m ⟨rfl, hself, hok⟩
    refine runs_cache ?_
    dsimp only
    split
    · rename_i hzero
      obtain ⟨hbytes, hlarge⟩ := Nat.add_eq_zero_iff.1 hzero
      exact runs_dropAdopted hself (hok.stake_eq_zero hbytes (hok.largeLen_eq_zero hlarge))
    · split
      · refine SysRuns.bind (runs_flushAll hok) ?_
        rintro _ l'' m ⟨rfl, hcleaned⟩
        refine runs_dropAdopted ?_ hcleaned.stake
        rw [hcleaned.other .self (by decide)]
        exact hself
      · exact runs_retireInto hself hok _

end Sys

end Allox
