import Mathlib.Tactic.Abel
import Allox.Telemetry

/-!
# Conservation of the counts

A thread displays what its batch has not published yet. During a call it is also due for every block
it has taken from the program or is about to give it: the counters are ahead of the program by the
blocks somebody is due for. Once a call went uncounted, nothing is promised.
-/

namespace Allox

open Resumption

/-- Net allocations and net bytes that are not in the counters yet, and the blocks in hand whose
header does not have the size the program asked for last. -/
abbrev CountStake := Counter × Counter × Nat

namespace LiveBlock

/-- What `note_free` counts it for. -/
def counted : LiveBlock → Nat
  | packed c => c.size
  | large requested _ => requested

def Told : LiveBlock → Prop
  | packed _ => True
  | large requested current => requested = current

instance : DecidablePred Told := fun b => by
  cases b <;> unfold Told <;> infer_instance

/-- The block is in the counters and not with the program. -/
def due (b : LiveBlock) : CountStake := (-1, -(b.counted : Counter), if b.Told then 0 else 1)

theorem Told.counted_eq {b : LiveBlock} (h : b.Told) : b.counted = b.accounted := by
  cases b with
  | packed c => rfl
  | large requested current => exact h

end LiveBlock

def Pending.value (p : Pending) : CountStake := (p.allocs - p.frees, p.bytesIn - p.bytesOut, 0)

def CountingCache.value (own : CountingCache) : CountStake := own.pending.value

def countedBytes (live : List LiveBlock) : Counter := (live.map fun b => (b.counted : Counter)).sum

def accountedBytes (live : List LiveBlock) : Counter :=
  (live.map fun b => (b.accounted : Counter)).sum

/-- The counters, with what is to come, agree with the program. -/
structure Tally (w : Telemetry) (m : CountStake) : Prop where
  allocs : w.totalAllocs - w.totalFrees + m.1 = (w.live.length : Counter)
  bytes : w.bytesIn - w.bytesOut + m.2.1 = countedBytes w.live
  hands : m.2.2 = 0
  told : ∀ b ∈ w.live, b.Told

def Counted (w : Telemetry) (m : CountStake) : Prop := w.uncounted = 0 → Tally w m

namespace Telemetry

abbrev CountRuns {α : Type} (m : TelemetryAct α) (l : CountingCache) (hand : CountStake)
    (post : α → CountingCache → CountStake → Prop) : Prop :=
  Runs Counted CountingCache.value m l hand post

variable {l : CountingCache} {hand : CountStake} {w : Telemetry} {frame : CountStake}

/-! ### Sections -/

/-- A section that only adds to the counters is owed the opposite of what it adds to their differences. -/
theorem runs_addTo {f : Telemetry → Telemetry} (a b : Counter)
    (hallocs : ∀ w, (f w).totalAllocs - (f w).totalFrees + a = w.totalAllocs - w.totalFrees)
    (hbytes : ∀ w, (f w).bytesIn - (f w).bytesOut + b = w.bytesIn - w.bytesOut)
    (hlive : ∀ w, (f w).live = w.live) (huncounted : ∀ w, (f w).uncounted = w.uncounted) :
    CountRuns (Act.atomic fun _ w => (f w, ())) l hand fun _ l' m =>
      l' = l ∧ m = (a, b, 0) + hand := by
  refine Runs.atomic fun _ w frame h => ⟨(a, b, 0) + hand, fun hzero => ?_, rfl, rfl⟩
  obtain ⟨holdAllocs, holdBytes, hhands, htold⟩ := h ((huncounted w).symm.trans hzero)
  refine ⟨?_, ?_, ?_, ?_⟩
  · rw [hlive, ← holdAllocs, ← hallocs w]
    simp only [Prod.fst_add]
    abel
  · rw [hlive, ← holdBytes, ← hbytes w]
    simp only [Prod.snd_add, Prod.fst_add]
    abel
  · simpa only [Prod.snd_add, zero_add] using hhands
  · rw [hlive]
    exact htold

theorem runs_addAllocs (n : Counter) :
    CountRuns (addAllocs n) l hand fun _ l' m => l' = l ∧ m = (-n, 0, 0) + hand := by
  refine runs_addTo (-n) 0 (fun w => ?_) (fun w => add_zero _) (fun _ => rfl) fun _ => rfl
  dsimp only
  abel

theorem runs_addFrees (n : Counter) :
    CountRuns (addFrees n) l hand fun _ l' m => l' = l ∧ m = (n, 0, 0) + hand := by
  refine runs_addTo n 0 (fun w => ?_) (fun w => add_zero _) (fun _ => rfl) fun _ => rfl
  dsimp only
  abel

theorem runs_addBytesIn (n : Counter) :
    CountRuns (addBytesIn n) l hand fun _ l' m => l' = l ∧ m = (0, -n, 0) + hand := by
  refine runs_addTo 0 (-n) (fun w => add_zero _) (fun w => ?_) (fun _ => rfl) fun _ => rfl
  dsimp only
  abel

theorem runs_addBytesOut (n : Counter) :
    CountRuns (addBytesOut n) l hand fun _ l' m => l' = l ∧ m = (0, n, 0) + hand := by
  refine runs_addTo 0 n (fun w => add_zero _) (fun w => ?_) (fun _ => rfl) fun _ => rfl
  dsimp only
  abel

/-- A section that reads, or that changes nothing the tally sees. -/
theorem runs_quiet {α : Type} {run : TelemetryEnv → Telemetry → Telemetry × α}
    (h : ∀ e w m, Counted w m → Counted (run e w).1 m) :
    CountRuns (Act.atomic run) l hand fun _ l' m => l' = l ∧ m = hand :=
  Runs.atomic fun e w _ hw => ⟨hand, h e w _ hw, rfl, rfl⟩

theorem runs_findMemory : CountRuns findMemory l hand fun _ l' m => l' = l ∧ m = hand :=
  runs_quiet fun _ _ _ h => h

/-- After a call that is not counted anything may be claimed. -/
theorem runs_passUncounted (hand' : CountStake) :
    CountRuns passUncounted l hand fun _ l' m => l' = l ∧ m = hand' :=
  Runs.atomic fun _ _ _ _ => ⟨hand', fun hzero => absurd hzero (Nat.succ_ne_zero _), rfl, rfl⟩

theorem runs_settle (b : LiveBlock) :
    CountRuns (settle b) l (b.due + hand) fun _ l' m => l' = l ∧ m = hand := by
  refine Runs.atomic fun _ w frame h => ⟨hand, fun hzero => ?_, rfl, rfl⟩
  obtain ⟨hallocs, hbytes, hhands, htold⟩ := h hzero
  have hb : b.Told := by
    by_contra hno
    simp only [LiveBlock.due, if_neg hno, Prod.snd_add] at hhands
    omega
  refine ⟨?_, ?_, ?_, ?_⟩
  · rw [List.length_cons, Nat.cast_add, Nat.cast_one, ← hallocs]
    simp only [LiveBlock.due, Prod.fst_add]
    abel
  · simp only [countedBytes, List.map_cons, List.sum_cons] at hbytes ⊢
    rw [← hbytes]
    simp only [LiveBlock.due, Prod.snd_add, Prod.fst_add]
    abel
  · simp only [Prod.snd_add] at hhands ⊢
    omega
  · intro x hx
    rcases List.mem_cons.1 hx with rfl | hx
    · exact hb
    · exact htold x hx

theorem runs_pick (want : LiveBlock → Bool) :
    CountRuns (pick want) l hand fun b l' m => want b = true ∧ l' = l ∧ m = b.due + hand := by
  refine Runs.atomicOk fun e w frame hok h => ?_
  obtain ⟨b, hget, hwant⟩ : ∃ b, w.live[e.pick]? = some b ∧ want b = true := by
    cases hget : w.live[e.pick]? with
    | none =>
        rw [hget] at hok
        cases hok
    | some b =>
        rw [hget] at hok
        exact ⟨b, rfl, hok⟩
  have hb : w.live.getD e.pick (.large 0 0) = b := by
    rw [List.getD_eq_getElem?_getD, hget]
    rfl
  have hperm : w.live.Perm (b :: w.live.eraseIdx e.pick) := by
    obtain ⟨hlt, rfl⟩ := List.getElem?_eq_some_iff.1 hget
    exact (List.getElem_cons_eraseIdx_perm hlt).symm
  dsimp only
  rw [hb]
  refine ⟨b.due + hand, fun hzero => ?_, hwant, rfl, rfl⟩
  obtain ⟨hallocs, hbytes, hhands, htold⟩ := h hzero
  have hbtold : b.Told := htold b (hperm.mem_iff.2 List.mem_cons_self)
  refine ⟨?_, ?_, ?_, fun x hx => htold x (hperm.mem_iff.2 (List.mem_cons_of_mem _ hx))⟩
  · rw [hperm.length_eq, List.length_cons, Nat.cast_add, Nat.cast_one] at hallocs
    rw [← add_right_cancel_iff (a := 1), ← hallocs]
    simp only [LiveBlock.due, Prod.fst_add]
    abel
  · have hsum : countedBytes w.live = b.counted + countedBytes (w.live.eraseIdx e.pick) := by
      unfold countedBytes
      rw [(hperm.map _).sum_eq, List.map_cons, List.sum_cons]
    rw [hsum] at hbytes
    rw [← add_left_cancel_iff (a := (b.counted : Counter)), ← hbytes]
    simp only [LiveBlock.due, Prod.snd_add, Prod.fst_add]
    abel
  · simp only [LiveBlock.due, if_pos hbtold, Prod.snd_add, zero_add] at hhands ⊢
    exact hhands

/-! ### Counting -/

theorem runs_get :
    CountRuns Act.get l hand fun own l' m => own = l ∧ l' = l ∧ m = hand :=
  Runs.get ⟨rfl, rfl, rfl⟩

theorem runs_modify {f : CountingCache → CountingCache} (m : CountStake)
    (h : l.value + hand = (f l).value + m) :
    CountRuns (Act.modify f) l hand fun _ l' m' => l' = f l ∧ m' = m :=
  Runs.modify h ⟨rfl, rfl⟩

theorem add_due_packed (c : PackedClass) (m : CountStake) :
    (1, (c.size : Counter), 0) + ((LiveBlock.packed c).due + m) = m := by
  refine Prod.ext ?_ (Prod.ext ?_ ?_)
  · exact add_neg_cancel_left 1 m.1
  · exact add_neg_cancel_left (c.size : Counter) m.2.1
  · exact (Nat.zero_add _).trans (Nat.zero_add _)

theorem runs_unlessZero (n : Counter) {add : Counter → TelemetryAct Unit}
    (gain : Counter → CountStake) (hgain : gain 0 = 0)
    (hadd : CountRuns (add n) l hand fun _ l' m => l' = l ∧ m = gain n + hand) :
    CountRuns (unlessZero n add) l hand fun _ l' m => l' = l ∧ m = gain n + hand := by
  unfold unlessZero
  split
  · rename_i hn
    refine Runs.pure ⟨rfl, ?_⟩
    rw [hn, hgain, zero_add]
  · exact hadd

theorem runs_publish :
    CountRuns publish l hand fun _ l' m => l' = { l with pending := .new } ∧ m = hand := by
  refine Runs.bind runs_get ?_
  rintro own l m ⟨rfl, rfl, rfl⟩
  refine Runs.bind (runs_unlessZero _ (fun n => (-n, 0, 0)) rfl (runs_addAllocs _)) ?_
  rintro _ _ _ ⟨rfl, rfl⟩
  refine Runs.bind (runs_unlessZero _ (fun n => (n, 0, 0)) rfl (runs_addFrees _)) ?_
  rintro _ _ _ ⟨rfl, rfl⟩
  refine Runs.bind (runs_unlessZero _ (fun n => (0, -n, 0)) rfl (runs_addBytesIn _)) ?_
  rintro _ _ _ ⟨rfl, rfl⟩
  refine Runs.bind (runs_unlessZero _ (fun n => (0, n, 0)) rfl (runs_addBytesOut _)) ?_
  rintro _ l _ ⟨rfl, rfl⟩
  refine runs_modify m ?_
  refine Prod.ext ?_ (Prod.ext ?_ ?_)
  · simp only [CountingCache.value, Pending.value, Pending.new, Prod.fst_add]
    abel
  · simp only [CountingCache.value, Pending.value, Pending.new, Prod.fst_add, Prod.snd_add]
    abel
  · simp only [CountingCache.value, Pending.value, Prod.snd_add, zero_add]

/-- A note moves what it adds to the batch out of the hand. -/
theorem runs_noteOp (f : Pending → Pending) (d : CountStake)
    (hf : ∀ p n, ({ f p with ops := n } : Pending).value = p.value + d) :
    CountRuns (noteOp f) l (d + hand) fun _ _ m => m = hand := by
  refine Runs.bind (runs_modify hand ?_) ?_
  · rw [← add_assoc]
    exact congrArg (· + hand) (hf _ _).symm
  rintro _ l m ⟨_, rfl⟩
  refine Runs.bind runs_get ?_
  rintro own _ _ ⟨rfl, rfl, rfl⟩
  split
  · exact runs_publish.mono fun _ _ _ h => h.2
  · exact Runs.pure rfl

theorem runs_noteAlloc (c : PackedClass) :
    CountRuns (noteAlloc c) l hand fun _ _ m => m = (LiveBlock.packed c).due + hand := by
  have h : CountRuns (noteAlloc c) l
      ((1, (c.size : Counter), 0) + ((LiveBlock.packed c).due + hand))
      fun _ _ m => m = (LiveBlock.packed c).due + hand :=
    runs_noteOp _ _ fun p n => by
      refine Prod.ext ?_ (Prod.ext ?_ rfl)
      · simp only [Pending.value, Prod.fst_add]
        abel
      · simp only [Pending.value, Prod.fst_add, Prod.snd_add]
        abel
  rwa [add_due_packed] at h

theorem runs_noteFree (c : PackedClass) :
    CountRuns (noteFree c) l ((LiveBlock.packed c).due + hand) fun _ _ m => m = hand :=
  runs_noteOp _ _ fun p n => by
    refine Prod.ext ?_ (Prod.ext ?_ rfl)
    · simp only [Pending.value, LiveBlock.due, Prod.fst_add]
      abel
    · simp only [Pending.value, LiveBlock.due, LiveBlock.counted, Prod.fst_add, Prod.snd_add]
      abel

theorem runs_noteRealloc : CountRuns noteRealloc l hand fun _ _ m => m = hand := by
  have h : CountRuns (noteOp id) l (0 + hand) fun _ _ m => m = hand :=
    runs_noteOp id 0 fun p n => (add_zero _).symm
  rw [zero_add] at h
  refine Runs.bind runs_get ?_
  rintro own _ _ ⟨rfl, rfl, rfl⟩
  split
  · exact h
  · exact Runs.pure rfl

theorem runs_noteLargeAlloc (size : Nat) :
    CountRuns (noteLargeAlloc size) l hand
      fun _ _ m => m = (LiveBlock.large size size).due + hand := by
  refine Runs.bind (runs_quiet fun _ _ _ h hzero =>
    ⟨(h hzero).allocs, (h hzero).bytes, (h hzero).hands, (h hzero).told⟩) ?_
  rintro _ _ _ ⟨rfl, rfl⟩
  refine Runs.bind (runs_addAllocs 1) ?_
  rintro _ _ m ⟨rfl, rfl⟩
  refine (runs_addBytesIn _).mono ?_
  rintro _ _ m' ⟨_, rfl⟩
  refine Prod.ext ?_ (Prod.ext ?_ ?_)
  · simp only [LiveBlock.due, Prod.fst_add, zero_add]
  · simp only [LiveBlock.due, LiveBlock.counted, Prod.fst_add, Prod.snd_add, zero_add]
  · simp only [LiveBlock.due, LiveBlock.Told, if_true, Prod.snd_add, zero_add]

/-- That the program asked for another size since is forgotten with the block. -/
theorem shift_told (m : CountStake) (k : Nat) : Shift Counted ((0, 0, k) + m) m := by
  intro w frame h hzero
  obtain ⟨hallocs, hbytes, hhands, htold⟩ := h hzero
  simp only [Prod.fst_add, Prod.snd_add, zero_add] at hallocs hbytes hhands
  exact ⟨hallocs, hbytes, by simp only [Prod.snd_add]; omega, htold⟩

theorem runs_noteLargeFree (requested current : Nat) :
    CountRuns (noteLargeFree requested) l ((LiveBlock.large requested current).due + hand)
      fun _ _ m => m = hand := by
  refine Runs.bind (runs_addFrees 1) ?_
  rintro _ _ _ ⟨rfl, rfl⟩
  refine (runs_addBytesOut _).weaken ?_
  rintro _ _ _ ⟨_, rfl⟩
  refine ⟨hand, ?_, rfl⟩
  have hleft : (0, (requested : Counter), 0) + ((1, 0, 0) +
      ((LiveBlock.large requested current).due + hand))
      = (0, 0, if (LiveBlock.large requested current).Told then 0 else 1) + hand := by
    refine Prod.ext ?_ (Prod.ext ?_ ?_)
    · simp only [LiveBlock.due, Prod.fst_add]
      abel
    · simp only [LiveBlock.due, LiveBlock.counted, Prod.fst_add, Prod.snd_add]
      abel
    · simp only [LiveBlock.due, Prod.snd_add, zero_add]
  rw [hleft]
  exact shift_told _ _

theorem runs_noteLargeGrowth {requested size : Nat} (current : Nat) (hle : requested ≤ size) :
    CountRuns (noteLargeGrowth requested size) l ((LiveBlock.large requested current).due + hand)
      fun _ _ m => m = (LiveBlock.large size size).due + hand := by
  refine (runs_unlessZero _ (fun n => (0, -n, 0)) rfl (runs_addBytesIn _)).weaken ?_
  rintro _ _ _ ⟨_, rfl⟩
  refine ⟨(LiveBlock.large size size).due + hand, ?_, rfl⟩
  have hsize : (size : Counter) = requested + (size - requested : Nat) := by
    rw [← Nat.cast_add, Nat.add_sub_cancel' hle]
  have hleft : (0, -((size - requested : Nat) : Counter), 0)
      + ((LiveBlock.large requested current).due + hand)
      = (0, 0, if (LiveBlock.large requested current).Told then 0 else 1)
        + ((LiveBlock.large size size).due + hand) := by
    refine Prod.ext ?_ (Prod.ext ?_ ?_)
    · simp only [LiveBlock.due, Prod.fst_add]
    · simp only [LiveBlock.due, LiveBlock.counted, Prod.fst_add, Prod.snd_add, hsize]
      abel
    · simp only [LiveBlock.due, LiveBlock.Told, if_true, Prod.snd_add, zero_add]
  rw [hleft]
  exact shift_told _ _

/-! ### Parts of calls -/

/-- What holds of both branches holds of the visit. -/
theorem runs_withCache {α : Type} {cached fallback : TelemetryAct α}
    {post : α → CountingCache → CountStake → Prop} (hcached : CountRuns cached l hand post)
    (hfallback : CountRuns fallback l hand post) :
    CountRuns (withCache cached fallback) l hand post := by
  refine Runs.bind runs_get ?_
  rintro own _ _ ⟨rfl, rfl, rfl⟩
  split
  · exact hcached
  · exact hfallback

theorem runs_takePacked (c : PackedClass) :
    CountRuns (takePacked c) l hand fun found _ m =>
      m = if found then (LiveBlock.packed c).due + hand else hand := by
  refine runs_withCache (Runs.bind runs_findMemory ?_) (Runs.bind runs_findMemory ?_)
  · rintro found _ _ ⟨rfl, rfl⟩
    cases found with
    | false => exact Runs.pure rfl
    | true =>
        refine Runs.bind (runs_noteAlloc c) ?_
        rintro _ _ _ rfl
        exact Runs.pure rfl
  · rintro found _ m ⟨rfl, rfl⟩
    cases found with
    | false => exact Runs.pure rfl
    | true =>
        refine Runs.bind (runs_passUncounted ((LiveBlock.packed c).due + m)) ?_
        rintro _ _ _ ⟨_, rfl⟩
        exact Runs.pure rfl

theorem runs_allocLarge (size : Nat) :
    CountRuns (allocLarge size) l hand fun b _ m =>
      m = b.elim hand fun b => b.due + hand := by
  refine Runs.bind runs_findMemory ?_
  rintro found _ _ ⟨rfl, rfl⟩
  cases found with
  | false => exact Runs.pure rfl
  | true =>
      refine Runs.bind (runs_noteLargeAlloc size) ?_
      rintro _ _ _ rfl
      exact Runs.pure rfl

theorem runs_alloc (request : Option PackedClass) (size : Nat) :
    CountRuns (alloc request size) l hand fun b _ m =>
      m = b.elim hand fun b => b.due + hand := by
  cases request with
  | none => exact runs_allocLarge size
  | some c =>
      refine Runs.bind (runs_takePacked c) ?_
      rintro found l' m rfl
      cases found with
      | true => exact Runs.pure rfl
      | false =>
          cases c with
          | small c => exact Runs.pure rfl
          | span t c =>
              cases t with
              | medium => exact Runs.pure rfl
              | big => exact runs_allocLarge size

theorem runs_release (b : LiveBlock) :
    CountRuns (release b) l (b.due + hand) fun _ _ m => m = hand := by
  cases b with
  | packed c =>
      refine runs_withCache (runs_noteFree c) ((runs_passUncounted hand).mono ?_)
      exact fun _ _ _ h => h.2
  | large requested current => exact runs_noteLargeFree requested current

/-- Both blocks of a relocation are in hand; one is freed and the other returned. -/
theorem runs_exchange (old b : LiveBlock) :
    CountRuns (do noteRealloc; release old; settle b) l (b.due + (old.due + hand))
      fun _ _ m => m = hand := by
  refine Runs.bind runs_noteRealloc ?_
  rintro _ _ _ rfl
  rw [add_left_comm]
  refine Runs.bind (runs_release old) ?_
  rintro _ _ _ rfl
  exact (runs_settle b).mono fun _ _ _ h => h.2

/-! ### Calls -/

theorem runs_malloc (request : Option PackedClass) (size : Nat) :
    CountRuns (malloc request size) l hand fun _ _ m => m = hand := by
  refine Runs.bind (runs_alloc request size) ?_
  rintro b _ _ rfl
  cases b with
  | none => exact Runs.pure rfl
  | some b => exact (runs_settle b).mono fun _ _ _ h => h.2

theorem runs_free : CountRuns free l hand fun _ _ m => m = hand := by
  refine Runs.bind (runs_pick _) ?_
  rintro b _ _ ⟨_, rfl, rfl⟩
  exact runs_release b

theorem runs_relocate (request : Option PackedClass) (size : Nat) :
    CountRuns (relocate request size) l hand fun _ _ m => m = hand := by
  refine Runs.bind (runs_pick _) ?_
  rintro old _ _ ⟨_, rfl, rfl⟩
  refine Runs.bind (runs_alloc request size) ?_
  rintro b _ _ rfl
  cases b with
  | none => exact (runs_settle old).mono fun _ _ _ h => h.2
  | some b => exact runs_exchange old b

theorem runs_promoteBigGrow (size : Nat) :
    CountRuns (promoteBigGrow size) l hand fun _ _ m => m = hand := by
  refine Runs.bind (runs_pick _) ?_
  rintro old _ _ ⟨_, rfl, rfl⟩
  refine Runs.bind (runs_allocLarge size) ?_
  rintro b _ _ rfl
  cases b with
  | none => exact (runs_settle old).mono fun _ _ _ h => h.2
  | some b => exact runs_exchange old b

theorem runs_relocateSmall (c : Fin numClasses) :
    CountRuns (relocateSmall c) l hand fun _ _ m => m = hand := by
  refine Runs.bind (runs_pick _) ?_
  rintro old l hand' ⟨hsmall, rfl, rfl⟩
  obtain ⟨k, rfl⟩ : ∃ k, old = .packed k := by
    cases old with
    | packed k => exact ⟨k, rfl⟩
    | large requested current => cases hsmall
  have hmoved : CountRuns
      (withCache
        (do
          if ← findMemory then do
            noteAlloc (.small c)
            noteFree k
            pure true
          else pure false)
        (do
          if ← findMemory then do
            passUncounted
            pure true
          else pure false))
      l ((LiveBlock.packed k).due + hand) fun moved _ m =>
        m = if moved then (LiveBlock.packed (.small c)).due + hand
          else (LiveBlock.packed k).due + hand := by
    refine runs_withCache (Runs.bind runs_findMemory ?_) (Runs.bind runs_findMemory ?_)
    · rintro found _ _ ⟨rfl, rfl⟩
      cases found with
      | false => exact Runs.pure rfl
      | true =>
          refine Runs.bind (runs_noteAlloc _) ?_
          rintro _ _ _ rfl
          rw [add_left_comm]
          refine Runs.bind (runs_noteFree k) ?_
          rintro _ _ _ rfl
          exact Runs.pure rfl
    · rintro found _ _ ⟨rfl, rfl⟩
      cases found with
      | false => exact Runs.pure rfl
      | true =>
          refine Runs.bind (runs_passUncounted ((LiveBlock.packed (.small c)).due + hand)) ?_
          rintro _ _ _ ⟨_, rfl⟩
          exact Runs.pure rfl
  refine Runs.bind hmoved ?_
  rintro moved _ _ rfl
  cases moved with
  | false => exact (runs_settle _).mono fun _ _ _ h => h.2
  | true =>
      refine Runs.bind runs_noteRealloc ?_
      rintro _ _ _ rfl
      exact (runs_settle _).mono fun _ _ _ h => h.2

theorem runs_growLarge (size : Nat) : CountRuns (growLarge size) l hand fun _ _ m => m = hand := by
  refine Runs.bind (runs_pick _) ?_
  rintro old _ _ ⟨_, rfl, rfl⟩
  cases old with
  | packed c => exact (runs_settle _).mono fun _ _ _ h => h.2
  | large requested current =>
      dsimp only
      split
      · exact (runs_settle _).mono fun _ _ _ h => h.2
      · rename_i hgrows
        refine Runs.bind (runs_noteLargeGrowth current (Nat.le_of_not_le hgrows)) ?_
        rintro _ _ _ rfl
        exact (runs_settle _).mono fun _ _ _ h => h.2

theorem runs_reuseSameBigClass (size : Nat) :
    CountRuns (reuseSameBigClass size) l hand fun _ _ m => m = hand := by
  refine Runs.bind (runs_pick _) ?_
  rintro old _ _ ⟨_, rfl, rfl⟩
  cases old with
  | packed c => exact (runs_settle _).mono fun _ _ _ h => h.2
  | large requested current =>
      dsimp only
      split
      · exact (runs_settle _).mono fun _ _ _ h => h.2
      · refine Runs.bind (runs_passUncounted ((LiveBlock.large requested size).due + hand)) ?_
        rintro _ _ _ ⟨rfl, rfl⟩
        exact (runs_settle _).mono fun _ _ _ h => h.2

theorem runs_retire : CountRuns retire l hand fun _ _ m => m = hand := by
  refine Runs.bind runs_get ?_
  rintro own _ m ⟨rfl, rfl, rfl⟩
  split
  · refine Runs.bind (runs_modify m rfl) ?_
    rintro _ _ _ ⟨_, rfl⟩
    exact runs_publish.mono fun _ _ _ h => h.2
  · exact Runs.pure rfl

/-- Every call leaves a thread due for nothing. -/
theorem runs_op (op : TelemetryOp) : CountRuns op.run l hand fun _ _ m => m = hand := by
  cases op with
  | malloc request size => exact runs_malloc request size
  | free => exact runs_free
  | relocate request size => exact runs_relocate request size
  | relocateSmall c => exact runs_relocateSmall c
  | promoteBigGrow size => exact runs_promoteBigGrow size
  | growLarge size => exact runs_growLarge size
  | reuseSameBigClass size => exact runs_reuseSameBigClass size
  | flush => exact runs_withCache (runs_publish.mono fun _ _ _ h => h.2) (Runs.pure rfl)
  | retire => exact runs_retire
  | enterHook =>
      refine (runs_modify hand ?_).mono fun _ _ _ h => h.2
      split <;> rfl
  | leaveHook =>
      refine (runs_modify hand ?_).mono fun _ _ _ h => h.2
      split <;> rfl

end Telemetry

/-! ### Every interleaving -/

section Runs

variable {ι : Type} [DecidableEq ι] [Fintype ι]

/-- **The counters agree with the live blocks.** In every run whose calls were all counted, once no
call is in progress and every batch is published, the net numbers of allocations and of bytes are those
of the blocks the program has. -/
theorem telemetry_conservation {s : Pool ι Telemetry CountingCache TelemetryEnv}
    (hreach : Reach TelemetryOp.run (telemetryStart ι) s) (hidle : ∀ t, (s.threads t).Idle)
    (hpublished : ∀ t, (s.threads t).own.pending = .new) (hcounted : s.shared.uncounted = 0) :
    s.shared.totalAllocs - s.shared.totalFrees = (s.shared.live.length : Counter) ∧
      s.shared.bytesIn - s.shared.bytesOut = accountedBytes s.shared.live := by
  have hstart : (telemetryStart ι).Inv Counted CountingCache.value fun _ => True :=
    Pool.Inv.rest (fun _ => rfl) (fun _ => trivial) (by
      have hsum : ∑ t : ι, CountingCache.value ⟨.free, .new⟩ = 0 := Finset.sum_eq_zero fun _ _ => rfl
      rw [hsum]
      exact fun _ =>
        ⟨by simp [telemetryStart, Telemetry.new],
          by simp [telemetryStart, Telemetry.new, countedBytes], rfl, nofun⟩)
  have hinv := hstart.reach
    (fun op l _ => Runs.pays _ _ _ ((Telemetry.runs_op op).mono fun _ _ _ h => ⟨trivial, h⟩)) hreach
  obtain ⟨hand, htally, hrest⟩ := hinv.displays
  have hnone : ∑ t, ((s.threads t).own.value + hand t) = 0 :=
    Finset.sum_eq_zero fun t _ => by
      rw [(hrest t (hidle t)).2, CountingCache.value, hpublished t]
      rfl
  rw [hnone] at htally
  obtain ⟨hallocs, hbytes, _, htold⟩ := htally hcounted
  have hsame : countedBytes s.shared.live = accountedBytes s.shared.live := by
    refine congrArg List.sum (List.map_congr_left fun b hb => ?_)
    rw [(htold b hb).counted_eq]
  rw [← hsame, ← hallocs, ← hbytes]
  exact ⟨(add_zero _).symm, (add_zero _).symm⟩

/-- A block is allocated by one thread and freed by another, a large region grows in place, and both
threads publish. -/
def countedRun : List (Fin 2 × (TelemetryOp ⊕ TelemetryEnv)) :=
  [(0, .inl (.malloc (some (.small 3)) 60))] ++ List.replicate 2 (0, .inr ⟨0, true⟩)
    ++ [(0, .inl (.malloc none 2000000))] ++ List.replicate 5 (0, .inr ⟨0, true⟩)
    ++ [(1, .inl .free), (1, .inr ⟨1, true⟩)]
    ++ [(0, .inl (.growLarge 2000100))] ++ List.replicate 3 (0, .inr ⟨0, true⟩)
    ++ [(0, .inl .flush)] ++ List.replicate 2 (0, .inr ⟨0, true⟩)
    ++ [(1, .inl .retire)] ++ List.replicate 2 (1, .inr ⟨0, true⟩)

theorem telemetry_conservation_remote : ∃ s : Pool (Fin 2) Telemetry CountingCache TelemetryEnv,
    Pool.exec TelemetryOp.run (telemetryStart (Fin 2)) countedRun = some s ∧
      s.shared.totalAllocs = 2 ∧ s.shared.totalFrees = 1 ∧
      s.shared.bytesIn - s.shared.bytesOut = accountedBytes s.shared.live ∧
      accountedBytes s.shared.live = 2000100 := by
  obtain ⟨s, hs, hallocs, hfrees, hlive, huncounted, hidle, hpublished⟩ :
      ∃ s, Pool.exec TelemetryOp.run (telemetryStart (Fin 2)) countedRun = some s ∧
        s.shared.totalAllocs = 2 ∧ s.shared.totalFrees = 1 ∧
        s.shared.live = [.large 2000100 2000100] ∧ s.shared.uncounted = 0 ∧
        (∀ t, (s.threads t).Idle) ∧ ∀ t, (s.threads t).own.pending = .new :=
    ⟨_, rfl, rfl, rfl, rfl, rfl, fun t => match t with
      | 0 => trivial
      | 1 => trivial, fun t => match t with
      | 0 => rfl
      | 1 => rfl⟩
  have h := telemetry_conservation (Pool.exec_reach hs) hidle hpublished huncounted
  exact ⟨s, hs, hallocs, hfrees, h.2, by rw [hlive]; rfl⟩

def uncountedRun : List (Fin 1 × (TelemetryOp ⊕ TelemetryEnv)) :=
  [(0, .inl .retire), (0, .inl (.malloc (some (.small 3)) 60))]
    ++ List.replicate 3 (0, .inr ⟨0, true⟩)

/-- A thread whose cache is retired allocates: one block is live and none was counted. -/
theorem telemetry_drift : ∃ s : Pool (Fin 1) Telemetry CountingCache TelemetryEnv,
    Reach TelemetryOp.run (telemetryStart (Fin 1)) s ∧ (∀ t, (s.threads t).Idle) ∧
      (∀ t, (s.threads t).own.pending = .new) ∧
      s.shared.totalAllocs - s.shared.totalFrees ≠ (s.shared.live.length : Counter) ∧
      s.shared.bytesIn - s.shared.bytesOut ≠ accountedBytes s.shared.live := by
  obtain ⟨s, hs, hcounters, hlive, hidle, hpublished⟩ :
      ∃ s, Pool.exec TelemetryOp.run (telemetryStart (Fin 1)) uncountedRun = some s ∧
        (s.shared.totalAllocs = 0 ∧ s.shared.totalFrees = 0 ∧ s.shared.bytesIn = 0 ∧
          s.shared.bytesOut = 0) ∧
        s.shared.live = [.packed (.small 3)] ∧
        (∀ t, (s.threads t).Idle) ∧ ∀ t, (s.threads t).own.pending = .new :=
    ⟨_, rfl, ⟨rfl, rfl, rfl, rfl⟩, rfl, fun t => match t with
      | 0 => trivial, fun t => match t with
      | 0 => rfl⟩
  obtain ⟨hallocs, hfrees, hin, hout⟩ := hcounters
  refine ⟨s, Pool.exec_reach hs, hidle, hpublished, ?_, ?_⟩
  · rw [hallocs, hfrees, hlive]
    decide
  · rw [hin, hout, hlive]
    decide

end Runs

end Allox
