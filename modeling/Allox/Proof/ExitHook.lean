import Allox.ExitHook
import Mathlib.Algebra.BigOperators.Group.Finset.Basic
import Mathlib.Algebra.BigOperators.Pi
import Mathlib.Algebra.Order.BigOperators.Group.Finset

/-!
# One key, and who is registered under it

The thread that has `INSTALLING` up is the only one that creates or stores a key, and what has been
seen as the key stays it. Under pthreads a thread is armed when it is registered and not otherwise.
Over FLS every registering call is misread, so there the same holds as long as none was made.
-/

namespace Allox

open Resumption

/-- How far the thread that has `INSTALLING` up has got. -/
inductive HookPhase where
  | installing
  | clear
  | made (k : Nat)

/-- The flag, keys seen to be stored, and marks of threads that are not as they should be. -/
abbrev HookStake := Multiset HookPhase × Multiset Nat × Nat

namespace HookStake

def flag (p : HookPhase) : HookStake := ({p}, 0, 0)
def knows (k : Nat) : HookStake := (0, {k}, 0)
def spare (n : Nat) : HookStake := (0, 0, n)

variable {R : HookStake} {p : HookPhase} {k n : Nat}

@[simp] theorem flag_add : flag p + R = ({p} + R.1, R.2.1, R.2.2) := by
  simp [flag, Prod.ext_iff]

@[simp] theorem knows_add : knows k + R = (R.1, {k} + R.2.1, R.2.2) := by
  simp [knows, Prod.ext_iff]

@[simp] theorem spare_add : spare n + R = (R.1, R.2.1, n + R.2.2) := by
  simp [spare, Prod.ext_iff]

end HookStake

open HookStake

/-- Under pthreads a thread that is armed without being registered, or was registered twice, is marked;
over FLS any that is armed or registered. -/
def HookOwn.marks (l : HookOwn) : HookBackend → Nat
  | .unix => if (l.exitArmed && !l.registered) || l.again then 1 else 0
  | .windows => if l.exitArmed || l.registered || l.again then 1 else 0

def hookToken (b : HookBackend) (l : HookOwn) : HookStake := spare (l.marks b)

inductive FlagOk : Bool → Option Nat → List Nat → Multiset HookPhase → Prop
  | down (key : Option Nat) : FlagOk false key key.toList 0
  | installing (key : Option Nat) : FlagOk true key key.toList {.installing}
  | clear : FlagOk true none [] {.clear}
  | made (k : Nat) : FlagOk true none [k] {.made k}

structure HookOk (b : HookBackend) (w : HookWorld) (R : HookStake) : Prop where
  flag : FlagOk w.installing w.key w.created R.1
  known : ∀ k ∈ R.2.1, w.key = some k
  strays : w.strays = 0
  misread : w.misread = match b with
    | .unix => 0
    | .windows => w.setCalls
  marks : b = .unix ∨ w.setCalls = 0 → R.2.2 = 0

variable {b : HookBackend} {w : HookWorld} {R : HookStake} {k n : Nat}

/-! ### What the flag says -/

/-- The stored key and the keys created, by how far the owner of the flag has got. -/
def HookPhase.Says (key : Option Nat) (created : List Nat) : HookPhase → Prop
  | .installing => created = key.toList
  | .clear => key = none ∧ created = []
  | .made k => key = none ∧ created = [k]

theorem flag_singleton {p : HookPhase} {m : Multiset HookPhase} {up : Bool} {key : Option Nat}
    {created : List Nat} (h : FlagOk up key created ({p} + m)) :
    m = 0 ∧ up = true ∧ p.Says key created := by
  have hone : ∀ {q : HookPhase}, {p} + m = {q} → p = q ∧ m = 0 := fun {q} hq => by
    have hcard := congrArg Multiset.card hq
    rw [Multiset.card_add, Multiset.card_singleton, Multiset.card_singleton] at hcard
    obtain rfl : m = 0 := Multiset.card_eq_zero.1 (by omega)
    rw [add_zero, Multiset.singleton_inj] at hq
    exact ⟨hq, rfl⟩
  generalize hps : {p} + m = ps at h
  cases h with
  | down =>
      have hcard := congrArg Multiset.card hps
      rw [Multiset.card_add, Multiset.card_singleton, Multiset.card_zero] at hcard
      omega
  | installing =>
      obtain ⟨rfl, hm⟩ := hone hps
      exact ⟨hm, rfl, rfl⟩
  | clear =>
      obtain ⟨rfl, hm⟩ := hone hps
      exact ⟨hm, rfl, rfl, rfl⟩
  | made k =>
      obtain ⟨rfl, hm⟩ := hone hps
      exact ⟨hm, rfl, rfl, rfl⟩

theorem HookOk.down (h : HookOk b w R) (hdown : w.installing = false) :
    w.created = w.key.toList ∧ R.1 = 0 := by
  have hflag := h.flag
  rw [hdown] at hflag
  generalize R.1 = ps at hflag
  generalize w.key = key at hflag
  generalize w.created = created at hflag
  cases hflag with
  | down => exact ⟨rfl, rfl⟩

/-! ### The sections -/

theorem HookOk.learn (h : HookOk b w R) (hkey : w.key = some k) : HookOk b w (knows k + R) := by
  refine ⟨?_, ?_, h.strays, h.misread, ?_⟩
  · rw [knows_add]
    exact h.flag
  · rw [knows_add]
    intro j hj
    rcases Multiset.mem_add.1 hj with hj | hj
    · rw [Multiset.mem_singleton.1 hj]
      exact hkey
    · exact h.known j hj
  · rw [knows_add]
    exact h.marks

theorem HookOk.claim (h : HookOk b w R) (hdown : w.installing = false) :
    HookOk b { w with installing := true } (HookStake.flag .installing + R) := by
  obtain ⟨hcreated, hzero⟩ := h.down hdown
  rw [flag_add]
  refine ⟨?_, h.known, h.strays, h.misread, h.marks⟩
  dsimp only
  rw [hzero, add_zero, hcreated]
  exact .installing w.key

/-- Looked up again under the flag, an empty key stays empty. -/
theorem HookOk.clear (h : HookOk b w (HookStake.flag .installing + R)) (hkey : w.key = none) :
    HookOk b w (HookStake.flag .clear + R) := by
  rw [flag_add] at h ⊢
  obtain ⟨hzero, hup, hcreated⟩ := flag_singleton h.flag
  refine ⟨?_, h.known, h.strays, h.misread, h.marks⟩
  have hsame : w.created = w.key.toList := hcreated
  dsimp only at hzero ⊢
  rw [hzero, add_zero, hup, hsame, hkey]
  exact .clear

theorem HookOk.createKey {e : HookEnv} (h : HookOk b w (HookStake.flag .clear + R)) :
    HookOk b (w.createKey b e).1
      ((match (w.createKey b e).2 with
        | some k => HookStake.flag (.made k)
        | none => HookStake.flag .clear) + R) := by
  unfold HookWorld.createKey
  split
  · rw [flag_add] at h
    obtain ⟨hzero, hup, hkey, hcreated⟩ := flag_singleton h.flag
    dsimp only
    rw [flag_add]
    refine ⟨?_, h.known, h.strays, h.misread, h.marks⟩
    dsimp only at hzero ⊢
    rw [hzero, add_zero, hup, hkey, hcreated]
    exact .made e.key
  · exact h

theorem HookOk.setKey (h : HookOk b w (HookStake.flag (.made k) + R)) :
    (w.setKey k).2 = k ∧ HookOk b (w.setKey k).1 (HookStake.flag .installing + (knows k + R)) := by
  rw [flag_add] at h
  obtain ⟨hzero, hup, hkey, hcreated⟩ := flag_singleton h.flag
  unfold HookWorld.setKey
  rw [hkey]
  refine ⟨rfl, ?_⟩
  rw [flag_add, knows_add]
  refine ⟨?_, fun j hj => ?_, h.strays, h.misread, h.marks⟩
  · dsimp only at hzero ⊢
    rw [hzero, add_zero, hup, hcreated]
    exact .installing (some k)
  · rcases Multiset.mem_add.1 hj with hj | hj
    · rw [Multiset.mem_singleton.1 hj]
    · -- a key seen before would have been stored already
      have hseen := h.known j hj
      rw [hkey] at hseen
      cases hseen

theorem HookOk.lower {p : HookPhase} (hp : p = .installing ∨ p = .clear)
    (h : HookOk b w (HookStake.flag p + R)) : HookOk b { w with installing := false } R := by
  rw [flag_add] at h
  obtain ⟨hzero, -, hcreated⟩ := flag_singleton h.flag
  refine ⟨?_, h.known, h.strays, h.misread, h.marks⟩
  dsimp only at hzero ⊢
  rw [hzero]
  obtain rfl | rfl := hp
  · have hsame : w.created = w.key.toList := hcreated
    rw [hsame]
    exact .down w.key
  · obtain ⟨hkey, hnone⟩ := hcreated
    rw [hnone, hkey]
    exact .down none

/-- Over FLS a registering call is misread, and lets the thread be marked. -/
theorem HookOk.setValue {e : HookEnv} (h : HookOk b w (knows k + R)) :
    HookOk b (w.setValue b k e).1 (spare (if b = .windows then 2 else 0) + R) := by
  rw [knows_add] at h
  have hkey : w.key = some k := h.known k (Multiset.mem_add.2 (.inl (Multiset.mem_singleton_self k)))
  rw [spare_add]
  refine ⟨h.flag, fun j hj => h.known j (Multiset.mem_add.2 (.inr hj)), ?_, ?_, ?_⟩
  · unfold HookWorld.setValue
    dsimp only
    rw [if_pos hkey]
    exact h.strays
  · have hmisread := h.misread
    cases b with
    | unix =>
        unfold HookWorld.setValue HookBackend.registered
        dsimp only
        rw [if_pos rfl]
        exact hmisread
    | windows =>
        have hopposite : ¬ (e.code == 0) = (e.code != 0) := by
          cases hcode : e.code == 0 <;> simp [bne, hcode]
        unfold HookWorld.setValue HookBackend.registered
        dsimp only
        rw [if_neg hopposite]
        exact congrArg (· + 1) hmisread
  · rintro (rfl | hcalls)
    · rw [if_neg (by decide), zero_add]
      exact h.marks (.inl rfl)
    · exact absurd hcalls (Nat.succ_ne_zero _)

theorem HookOk.drop (h : HookOk b w (spare n + R)) : HookOk b w R := by
  rw [spare_add] at h
  refine ⟨h.flag, h.known, h.strays, h.misread, fun hquiet => ?_⟩
  have hzero := h.marks hquiet
  dsimp only at hzero
  omega

/-! ### The operations -/

section Programs

open HookAct

variable {l : HookOwn} {hand : HookStake} {α β : Type}

abbrev HookRuns (b : HookBackend) (m : HookAct α) (l : HookOwn) (hand : HookStake)
    (post : α → HookOwn → HookStake → Prop) : Prop :=
  Runs (HookOk b) (hookToken b) m l hand post

/-- A section that gives and takes by its result and leaves the own state. -/
theorem hookRuns_section {run : HookEnv → HookWorld → HookWorld × α} {gain : α → HookStake}
    (h : ∀ e w frame, HookOk b w (hand + frame) →
      HookOk b (run e w).1 (gain (run e w).2 + frame)) :
    HookRuns b (Act.atomic run) l hand fun a l' m => l' = l ∧ m = gain a :=
  Runs.atomic fun e w frame hw => ⟨gain (run e w).2, h e w frame hw, rfl, rfl⟩

theorem hookRuns_getKey :
    HookRuns b getKey l hand fun key l' m =>
      l' = l ∧ m = match key with
        | some k => knows k + hand
        | none => hand := by
  refine hookRuns_section fun _ w frame hw => ?_
  dsimp only
  cases hkey : w.key with
  | none => exact hw
  | some k =>
      dsimp only
      rw [add_assoc]
      exact hw.learn hkey

theorem hookRuns_claim :
    HookRuns b claimInstalling l 0 fun won l' m =>
      l' = l ∧ m = if won then flag .installing else 0 := by
  refine hookRuns_section fun _ w frame hw => ?_
  rw [zero_add] at hw
  by_cases hup : w.installing = true
  · rw [if_pos hup]
    dsimp only
    rw [if_neg Bool.false_ne_true, zero_add]
    exact hw
  · rw [if_neg hup]
    dsimp only
    rw [if_pos rfl]
    exact hw.claim (Bool.not_eq_true _ ▸ hup)

/-- Under the flag: a key that is stored, or nothing and the flag as it was. -/
theorem hookRuns_install :
    HookRuns b (install b) l (flag .installing) fun key l' m =>
      l' = l ∧ ∃ p, (p = .installing ∨ p = .clear) ∧ m = match key with
        | some k => flag p + knows k
        | none => flag p := by
  have hlook : HookRuns b getKey l (flag .installing) fun key l' m =>
      l' = l ∧ m = match key with
        | some k => flag .installing + knows k
        | none => flag .clear := by
    refine hookRuns_section fun _ w frame hw => ?_
    dsimp only
    cases hkey : w.key with
    | none => exact hw.clear hkey
    | some k =>
        dsimp only
        rw [add_comm (flag _), add_assoc]
        exact hw.learn hkey
  unfold install
  refine Runs.bind hlook ?_
  rintro (_ | k) l' m ⟨rfl, rfl⟩
  · have hcreate : HookRuns b (Act.atomic fun e w => w.createKey b e) l' (flag .clear)
        fun key l'' m => l'' = l' ∧ m = match key with
          | some k => flag (.made k)
          | none => flag .clear := hookRuns_section fun _ _ _ hw => hw.createKey
    refine Runs.bind hcreate ?_
    rintro (_ | k) l'' m ⟨rfl, rfl⟩
    · exact Runs.pure ⟨rfl, .clear, .inr rfl, rfl⟩
    · have hset : HookRuns b (Act.atomic fun _ w => w.setKey k) l'' (flag (.made k))
          fun stored l' m => l' = l'' ∧ stored = k ∧ m = flag .installing + knows k := by
        refine Runs.atomic fun _ w frame hw => ⟨flag .installing + knows k, ?_, rfl, hw.setKey.1, rfl⟩
        rw [add_assoc]
        exact hw.setKey.2
      refine Runs.bind hset ?_
      rintro stored l' m ⟨rfl, rfl, rfl⟩
      exact Runs.pure ⟨rfl, .installing, .inl rfl, rfl⟩
  · exact Runs.pure ⟨rfl, .installing, .inl rfl, rfl⟩

/-- What a thread that was neither armed nor registered is like when `ensure_hook` returns, and the
marks it may take on. -/
def Ensured (b : HookBackend) (l : HookOwn) (read : Bool) (l' : HookOwn) (n : Nat) : Prop :=
  match b with
  | .unix => l' = { l with registered := read } ∧ n = 0
  | .windows => read = true → 1 ≤ n

theorem hookRuns_get :
    HookRuns b (Act.get : HookAct HookOwn) l hand fun own l' m => own = l ∧ l' = l ∧ m = hand :=
  Runs.get ⟨rfl, rfl, rfl⟩

/-- A change of the own state, paid for with the marks in hand. -/
theorem hookRuns_modify {f : HookOwn → HookOwn} {n : Nat} (n' : Nat)
    (hmarks : l.marks b + n = (f l).marks b + n') :
    HookRuns b (Act.modify f) l (spare n) fun _ l' m => l' = f l ∧ m = spare n' := by
  refine Runs.modify ?_ ⟨rfl, rfl⟩
  unfold hookToken
  rw [spare_add, spare_add]
  exact Prod.ext rfl (Prod.ext rfl hmarks)

theorem marks_le (l : HookOwn) (b : HookBackend) : l.marks b ≤ 1 := by
  unfold HookOwn.marks
  split <;> split <;> decide

theorem hookRuns_register (harmed : l.exitArmed = false)
    (hown : b = .unix → l.registered = false ∧ l.again = false) (k : Nat) :
    HookRuns b (register b k) l (knows k) fun read l' m =>
      ∃ n, m = spare n ∧ Ensured b l read l' n := by
  have hcall : HookRuns b (Act.atomic fun e w => w.setValue b k e) l (knows k) fun r l' m =>
      l' = l ∧ (b = .unix → r.1 = r.2) ∧ m = spare (if b = .windows then 2 else 0) := by
    refine Runs.atomic fun e w frame hw => ⟨_, hw.setValue, rfl, ?_, rfl⟩
    rintro rfl
    rfl
  unfold register
  refine Runs.bind hcall ?_
  rintro ⟨read, succeeded⟩ l' m ⟨rfl, hread, rfl⟩
  dsimp only at hread ⊢
  cases b with
  | unix =>
      obtain ⟨hregistered, hagain⟩ := hown rfl
      obtain rfl := hread rfl
      have hafter : ({ l' with registered := l'.registered || read,
                               again := l'.again || l'.registered } : HookOwn)
          = { l' with registered := read } := by
        rw [hregistered, hagain, Bool.false_or, Bool.or_self]
      -- registering an unarmed thread takes no mark
      refine Runs.bind (hookRuns_modify 0 ?_) ?_
      · rw [hafter, if_neg (by decide)]
        unfold HookOwn.marks
        dsimp only
        rw [harmed, hagain]
        rfl
      rintro ⟨⟩ l'' m ⟨rfl, rfl⟩
      exact Runs.pure ⟨0, rfl, hafter, rfl⟩
  | windows =>
      have hold := marks_le l' .windows
      have hnew := marks_le { l' with registered := l'.registered || succeeded,
                                      again := l'.again || l'.registered } .windows
      refine Runs.bind (hookRuns_modify
        (l'.marks .windows + 2 - HookOwn.marks
          { l' with registered := l'.registered || succeeded,
                    again := l'.again || l'.registered } .windows) ?_) ?_
      · rw [if_pos rfl]
        omega
      rintro ⟨⟩ l'' m ⟨-, rfl⟩
      exact Runs.pure ⟨_, rfl, fun _ => by omega⟩

theorem hookRuns_storeInstalled {p : HookPhase} (hp : p = .installing ∨ p = .clear) :
    HookRuns b storeInstalled l (flag p + hand) fun _ l' m => l' = l ∧ m = hand := by
  refine Runs.atomic fun _ w frame hw => ⟨hand, ?_, rfl, rfl⟩
  rw [add_assoc] at hw
  exact hw.lower hp

theorem ensured_refused (hown : b = .unix → l.registered = false ∧ l.again = false) :
    Ensured b l false l 0 := by
  cases b with
  | unix =>
      refine ⟨?_, rfl⟩
      rw [← (hown rfl).1]
  | windows => exact fun h => absurd h Bool.false_ne_true

theorem hookRuns_ensureHook (harmed : l.exitArmed = false)
    (hown : b = .unix → l.registered = false ∧ l.again = false) (rounds : Nat) :
    HookRuns b (ensureHook b rounds) l 0 fun read l' m => ∃ n, m = spare n ∧ Ensured b l read l' n := by
  induction rounds with
  | zero => exact Runs.atomicOk fun _ _ _ hok => absurd hok Bool.false_ne_true
  | succ rounds ih =>
      unfold ensureHook
      refine Runs.bind hookRuns_getKey ?_
      rintro (_ | k) l' m ⟨rfl, rfl⟩
      · refine Runs.bind hookRuns_claim ?_
        rintro (_ | _) l'' m ⟨rfl, rfl⟩
        · rw [if_neg Bool.false_ne_true, if_neg Bool.false_ne_true]
          have hwait : HookRuns b waitInstalled l'' 0 fun _ l' m => l' = l'' ∧ m = 0 :=
            Runs.atomicOk fun _ _ _ _ hw => ⟨0, hw, rfl, rfl⟩
          refine Runs.bind hwait ?_
          rintro ⟨⟩ l' m ⟨rfl, rfl⟩
          exact ih
        · rw [if_pos rfl, if_pos rfl]
          refine Runs.bind hookRuns_install ?_
          rintro (_ | k) l' m ⟨rfl, p, hp, rfl⟩
          · dsimp only
            rw [← add_zero (flag p)]
            refine Runs.bind (hookRuns_storeInstalled hp) ?_
            rintro ⟨⟩ l'' m ⟨rfl, rfl⟩
            exact Runs.pure ⟨0, rfl, ensured_refused hown⟩
          · refine Runs.bind (hookRuns_storeInstalled hp) ?_
            rintro ⟨⟩ l'' m ⟨rfl, rfl⟩
            exact hookRuns_register harmed hown k
      · dsimp only
        rw [add_zero]
        exact hookRuns_register harmed hown k

/-- Between two operations an exit hook is armed under pthreads exactly for a registered thread, which
registered once. -/
def HookOwn.Settled (b : HookBackend) (l : HookOwn) : Prop :=
  b = .unix → l.exitArmed = l.registered ∧ l.again = false

theorem hookRuns_arm (hl : l.Settled b) (rounds : Nat) :
    HookRuns b (armExitHook b rounds) l 0 fun _ l' m => l'.Settled b ∧ m = 0 := by
  unfold armExitHook
  refine Runs.bind hookRuns_get ?_
  rintro own l' m ⟨rfl, rfl, rfl⟩
  by_cases harmed : l'.exitArmed = true
  · rw [if_pos harmed]
    exact Runs.pure ⟨hl, rfl⟩
  · rw [if_neg harmed]
    rw [Bool.not_eq_true] at harmed
    have hown : b = .unix → l'.registered = false ∧ l'.again = false := fun hb =>
      ⟨(hl hb).1.symm.trans harmed, (hl hb).2⟩
    have hdrop : ∀ {n : Nat}, Shift (HookOk b) (spare n) 0 := fun {n} w frame hw => by
      rw [zero_add]
      exact hw.drop
    refine Runs.bind (hookRuns_ensureHook harmed hown rounds) ?_
    rintro (_ | _) l'' m ⟨n, rfl, hensured⟩
    · rw [if_neg Bool.false_ne_true]
      refine Runs.shift hdrop (Runs.pure ⟨fun hb => ?_, rfl⟩)
      subst hb
      obtain ⟨rfl, -⟩ := hensured
      exact ⟨harmed, (hown rfl).2⟩
    · rw [if_pos rfl]
      have hle := marks_le { l'' with exitArmed := true } b
      cases b with
      | unix =>
          obtain ⟨rfl, rfl⟩ := hensured
          obtain ⟨-, hagain⟩ := hown rfl
          refine (hookRuns_modify 0 ?_).mono ?_
          · unfold HookOwn.marks
            dsimp only
            rw [harmed, hagain]
            rfl
          · rintro ⟨⟩ l m ⟨rfl, rfl⟩
            exact ⟨fun _ => ⟨rfl, hagain⟩, rfl⟩
      | windows =>
          have hpos : 1 ≤ n := hensured rfl
          refine (hookRuns_modify (l''.marks .windows + n
            - HookOwn.marks { l'' with exitArmed := true } .windows) ?_).weaken ?_
          · omega
          · rintro ⟨⟩ l m ⟨-, rfl⟩
            exact ⟨0, hdrop, fun hb => (HookBackend.noConfusion hb : False).elim, rfl⟩

theorem hookOp_pays (op : HookOp) {l : HookOwn} (hl : l.Settled b) :
    Pays (HookOk b) (hookToken b) (HookOwn.Settled b) ((op.run b).run l) (hookToken b l) := by
  suffices h : HookRuns b (op.run b) l 0 fun _ l' m => l'.Settled b ∧ m = 0 from h.pays
  cases op with
  | arm rounds => exact hookRuns_arm hl rounds
  | free small rounds =>
      unfold HookOp.run dealloc
      dsimp only
      refine Runs.bind hookRuns_get ?_
      rintro own l' m ⟨rfl, rfl, rfl⟩
      split
      · exact Runs.pure ⟨hl, rfl⟩
      · exact hookRuns_arm hl rounds

end Programs

/-! ### Every run -/

section Runs

variable {ι : Type} [DecidableEq ι] [Fintype ι]

/-- One key at most, created and stored; nobody uses another one; every registering call is read as
the OS means it; who is armed is registered; who is registered does not register again. -/
structure HookSound (s : Pool ι HookWorld HookOwn HookEnv) : Prop where
  one : s.shared.created.length ≤ 1
  stored : ∀ k, s.shared.key = some k → s.shared.created = [k]
  strays : s.shared.strays = 0
  returns : s.shared.misread = 0
  armed : ∀ t, (s.threads t).own.exitArmed = true → (s.threads t).own.registered = true
  once : ∀ t, (s.threads t).own.again = false

theorem FlagOk.one {up : Bool} {key : Option Nat} {created : List Nat} {m : Multiset HookPhase}
    (h : FlagOk up key created m) :
    created.length ≤ 1 ∧ ∀ k, key = some k → created = [k] := by
  have hlist : ∀ o : Option Nat, o.toList.length ≤ 1 ∧ ∀ k, o = some k → o.toList = [k] := by
    rintro (_ | k)
    · exact ⟨Nat.zero_le _, fun _ h => nomatch h⟩
    · refine ⟨le_rfl, fun j hj => ?_⟩
      cases hj
      rfl
  cases h with
  | down => exact hlist key
  | installing => exact hlist key
  | clear => exact ⟨Nat.zero_le _, fun _ h => nomatch h⟩
  | made k => exact ⟨le_rfl, fun _ h => nomatch h⟩

/-- Without a mark a thread is as it should be. -/
theorem unmarked {b : HookBackend} {l : HookOwn} (h : l.marks b = 0) :
    (l.exitArmed = true → l.registered = true) ∧ l.again = false := by
  obtain ⟨exitArmed, registered, again⟩ := l
  cases b <;> cases exitArmed <;> cases registered <;> cases again <;> simp_all [HookOwn.marks]

theorem hook_invariant {b : HookBackend} {s : Pool ι HookWorld HookOwn HookEnv}
    (hreach : Reach (HookOp.run b) (hookStart ι) s) :
    ∃ R, HookOk b s.shared R ∧ ∀ t, (s.threads t).own.marks b ≤ R.2.2 := by
  have hstart : (hookStart ι).Inv (HookOk b) (hookToken b) (HookOwn.Settled b) := by
    refine Pool.Inv.rest (fun _ => rfl) (fun _ _ => ⟨rfl, rfl⟩) ?_
    have hzero : ∑ _t : ι, hookToken b ⟨false, false, false⟩ = 0 := by
      refine Finset.sum_eq_zero fun _ _ => ?_
      cases b <;> rfl
    rw [hzero]
    refine ⟨.down none, fun k hk => absurd hk (Multiset.notMem_zero k), rfl, ?_, fun _ => rfl⟩
    cases b <;> rfl
  have hinv := hstart.reach (fun op _ hl => hookOp_pays op hl) hreach
  obtain ⟨hand, hok, -⟩ := hinv.displays
  refine ⟨_, hok, fun t => ?_⟩
  rw [Prod.snd_sum, Prod.snd_sum]
  have hterm : (s.threads t).own.marks b
      ≤ (hookToken b (s.threads t).own + hand t).2.2 := Nat.le_add_right _ _
  refine hterm.trans ?_
  exact Finset.single_le_sum (f := fun t => (hookToken b (s.threads t).own + hand t).2.2)
    (fun _ _ => Nat.zero_le _) (Finset.mem_univ t)

/-- **The exit hook is installed soundly** in a state of a run exactly if the backend is pthreads, or
no thread has got as far as a registering call: over FLS each of those is misread. -/
theorem exit_hook_sound_iff {b : HookBackend} {s : Pool ι HookWorld HookOwn HookEnv}
    (hreach : Reach (HookOp.run b) (hookStart ι) s) :
    HookSound s ↔ b = .unix ∨ s.shared.setCalls = 0 := by
  obtain ⟨R, hok, hmarks⟩ := hook_invariant hreach
  have hmisread := hok.misread
  constructor
  · intro h
    cases b with
    | unix => exact .inl rfl
    | windows => exact .inr (hmisread.symm.trans h.returns)
  · intro hcond
    have hquiet := hok.marks hcond
    have hclean : ∀ t, (s.threads t).own.marks b = 0 := fun t => by
      have hle := hmarks t
      omega
    obtain ⟨hone, hstored⟩ := hok.flag.one
    refine ⟨hone, hstored, hok.strays, ?_, fun t => (unmarked (hclean t)).1,
      fun t => (unmarked (hclean t)).2⟩
    cases b with
    | unix => exact hmisread
    | windows => exact hmisread.trans (hcond.resolve_left (by decide))

/-- A thread arms the hook and frees once more; the OS reports what it reports on success. -/
def hookTwice (code : Int) : List (Fin 1 × (HookOp ⊕ HookEnv)) :=
  let e : HookEnv := ⟨code, 5⟩
  [(0, .inl (.arm 1)), (0, .inr e), (0, .inr e), (0, .inr e), (0, .inr e), (0, .inr e), (0, .inr e),
    (0, .inr e), (0, .inl (.free true 1)), (0, .inr e), (0, .inr e)]

theorem exit_hook_sound_unix :
    ∃ s : Pool (Fin 1) HookWorld HookOwn HookEnv,
      Pool.exec (HookOp.run .unix) (hookStart (Fin 1)) ((hookTwice 0).take 9) = some s ∧
        HookSound s := by
  obtain ⟨s, hs⟩ : ∃ s, Pool.exec (HookOp.run .unix) (hookStart (Fin 1)) ((hookTwice 0).take 9)
    = some s := ⟨_, rfl⟩
  exact ⟨s, hs, (exit_hook_sound_iff (Pool.exec_reach hs)).2 (.inl rfl)⟩

/-- Over FLS the successful call leaves the thread unarmed, and its next free registers again. -/
theorem exit_hook_unsound_windows :
    ∃ s : Pool (Fin 1) HookWorld HookOwn HookEnv,
      Reach (HookOp.run .windows) (hookStart (Fin 1)) s ∧
        (s.threads 0).own = ⟨false, true, true⟩ ∧ ¬ HookSound s := by
  obtain ⟨s, hs⟩ : ∃ s, Pool.exec (HookOp.run .windows) (hookStart (Fin 1)) (hookTwice 1) = some s :=
    ⟨_, rfl⟩
  have hown : (Pool.exec (HookOp.run .windows) (hookStart (Fin 1)) (hookTwice 1)).map
      (fun s => (s.threads 0).own) = some ⟨false, true, true⟩ := rfl
  rw [hs] at hown
  have hlast : (s.threads 0).own = ⟨false, true, true⟩ := Option.some.inj hown
  refine ⟨s, Pool.exec_reach hs, hlast, fun h => ?_⟩
  have honce := h.once 0
  rw [hlast] at honce
  cases honce

end Runs

end Allox
