import Mathlib

/-!
# Interleaved programs that pass resources around

A thread is a tree of atomic sections over a shared state. Between two sections it only touches
state of its own, which is displayed at every node, so an interleaving is a sequence of sections.

What a thread holds is an element of a commutative monoid. The invariant `I` relates the shared state
to everything held anywhere, and a section may exchange what its thread holds for something else as
long as the invariant survives next to *any* frame. `Keeps` is that rule for a whole program, and
`Pool.Inv.reach` turns a `Keeps` proof of every operation into an invariant of every interleaving.
-/

namespace Resumption

/-- A program over shared states `σ`, own states `L` and outside inputs `E`. The outside picks the
input of a section, within `ok`. -/
inductive Prog (σ L E : Type) (α : Type) : Type 1
  | done (own : L) (value : α)
  | atomic {β : Type} (own : L) (ok : E → σ → Bool) (run : E → σ → σ × β)
      (next : β → Prog σ L E α)

namespace Prog

variable {σ L E α β : Type}

def bind : Prog σ L E α → (α → L → Prog σ L E β) → Prog σ L E β
  | done own value, k => k value own
  | atomic own ok run next, k => atomic own ok run fun b => (next b).bind k

/-- The state of its own that a thread displays. -/
def own : Prog σ L E α → L
  | done l _ => l
  | atomic l _ _ _ => l

/-- The thread is between two operations. -/
def Idle : Prog σ L E α → Prop
  | done _ _ => True
  | atomic _ _ _ _ => False

/-- The program by itself from `s`, with the same outside input at every section: the state, the own
state and the value at its end. -/
def alone (e : E) : Prog σ L E α → σ → σ × L × α
  | done own value, s => (s, own, value)
  | atomic _ _ run next, s => (next (run e s).2).alone e (run e s).1

@[simp] theorem alone_done (e : E) (l : L) (a : α) (s : σ) :
    (done l a : Prog σ L E α).alone e s = (s, l, a) := rfl

@[simp] theorem alone_atomic (e : E) (l : L) (ok : E → σ → Bool) (run : E → σ → σ × β)
    (next : β → Prog σ L E α) (s : σ) :
    (atomic l ok run next).alone e s = (next (run e s).2).alone e (run e s).1 := rfl

@[simp] theorem bind_done (l : L) (a : α) (k : α → L → Prog σ L E β) :
    (done l a).bind k = k a l := rfl

@[simp] theorem bind_atomic {γ : Type} (l : L) (ok : E → σ → Bool) (run : E → σ → σ × γ)
    (next : γ → Prog σ L E α) (k : α → L → Prog σ L E β) :
    (atomic l ok run next).bind k = atomic l ok run fun b => (next b).bind k := rfl

theorem alone_bind (e : E) (p : Prog σ L E α) (k : α → L → Prog σ L E β) (s : σ) :
    (p.bind k).alone e s
      = (k (p.alone e s).2.2 (p.alone e s).2.1).alone e (p.alone e s).1 := by
  induction p generalizing s with
  | done l a => rfl
  | atomic l ok run next ih => exact ih _ _

end Prog

/-- A program that still awaits its own state. -/
structure Act (σ L E α : Type) where
  run : L → Prog σ L E α

namespace Act

variable {σ L E α β : Type}

instance : Monad (Act σ L E) where
  pure a := ⟨fun l => .done l a⟩
  bind m k := ⟨fun l => (m.run l).bind fun a l' => (k a).run l'⟩

def get : Act σ L E L := ⟨fun l => .done l l⟩

def set (l : L) : Act σ L E Unit := ⟨fun _ => .done l ()⟩

def modify (f : L → L) : Act σ L E Unit := ⟨fun l => .done (f l) ()⟩

/-- One section whose outside input is arbitrary within `ok`. -/
def atomicOk (ok : E → σ → Bool) (run : E → σ → σ × β) : Act σ L E β :=
  ⟨fun l => .atomic l ok run fun b => .done l b⟩

/-- One section whose outside input is arbitrary. -/
def atomic (run : E → σ → σ × β) : Act σ L E β :=
  atomicOk (fun _ _ => true) run

@[simp] theorem run_pure (a : α) (l : L) : (pure a : Act σ L E α).run l = .done l a := rfl

@[simp] theorem run_bind (m : Act σ L E α) (k : α → Act σ L E β) (l : L) :
    (m >>= k).run l = (m.run l).bind fun a l' => (k a).run l' := rfl

@[simp] theorem run_get (l : L) : (get : Act σ L E L).run l = .done l l := rfl

@[simp] theorem run_set (l l' : L) : (set l' : Act σ L E Unit).run l = .done l' () := rfl

@[simp] theorem run_modify (f : L → L) (l : L) :
    (modify f : Act σ L E Unit).run l = .done (f l) () := rfl

end Act

/-! ### Holding resources -/

section Logic

variable {σ L E M α β : Type} [AddCommMonoid M] (I : σ → M → Prop) (tok : L → M)

/-- Holding `a` is as good as holding `b`, whatever the others hold. -/
def Shift (a b : M) : Prop := ∀ s frame, I s (a + frame) → I s (b + frame)

/-- Run holding `held`, the program keeps the invariant next to any frame, never holds less than what
its own state displays, and ends in `post`. -/
def Keeps : Prog σ L E α → M → (α → L → M → Prop) → Prop
  | .done l a, held, post => ∃ held', Shift I held held' ∧ post a l held'
  | .atomic l ok run next, held, post =>
      ∃ hand, Shift I held (tok l + hand) ∧
        ∀ e s frame, ok e s = true → I s (tok l + hand + frame) →
          ∃ held', I (run e s).1 (held' + frame) ∧ Keeps (next (run e s).2) held' post

variable {I tok}

theorem Shift.refl (a : M) : Shift I a a := fun _ _ h => h

theorem Shift.trans {a b c : M} (hab : Shift I a b) (hbc : Shift I b c) : Shift I a c :=
  fun s frame h => hbc s frame (hab s frame h)

theorem Shift.of_eq {a b : M} (h : a = b) : Shift I a b := h ▸ Shift.refl a

theorem Shift.frame {a b : M} (h : Shift I a b) (r : M) : Shift I (a + r) (b + r) := by
  intro s frame hs
  rw [add_assoc] at hs ⊢
  exact h s (r + frame) hs

/-- Shifts under a sum, one summand at a time. -/
theorem Shift.sum {ι : Type} {a b : ι → M} (h : ∀ i, Shift I (a i) (b i)) (t : Finset ι) :
    Shift I (∑ i ∈ t, a i) (∑ i ∈ t, b i) := by
  classical
  induction t using Finset.induction_on with
  | empty => exact Shift.refl _
  | insert i t hnot ih =>
      rw [Finset.sum_insert hnot, Finset.sum_insert hnot]
      refine ((h i).frame _).trans ?_
      rw [add_comm (b i), add_comm (b i)]
      exact ih.frame _

theorem Keeps.shift {p : Prog σ L E α} {held held' : M} {post : α → L → M → Prop}
    (hshift : Shift I held held') (h : Keeps I tok p held' post) : Keeps I tok p held post := by
  cases p with
  | done l a =>
      obtain ⟨held'', hs, hpost⟩ := h
      exact ⟨held'', hshift.trans hs, hpost⟩
  | atomic l ok run next =>
      obtain ⟨hand, hs, hnext⟩ := h
      exact ⟨hand, hshift.trans hs, hnext⟩

theorem Keeps.done {l : L} {a : α} {held : M} {post : α → L → M → Prop} (h : post a l held) :
    Keeps I tok (.done l a : Prog σ L E α) held post :=
  ⟨held, Shift.refl _, h⟩

theorem Keeps.weaken {p : Prog σ L E α} {held : M} {post post' : α → L → M → Prop}
    (h : Keeps I tok p held post)
    (hpost : ∀ a l held, post a l held → ∃ held', Shift I held held' ∧ post' a l held') :
    Keeps I tok p held post' := by
  induction p generalizing held with
  | done l a =>
      obtain ⟨held', hs, hp⟩ := h
      obtain ⟨held'', hs', hp'⟩ := hpost _ _ _ hp
      exact ⟨held'', hs.trans hs', hp'⟩
  | atomic l ok run next ih =>
      obtain ⟨hand, hs, hnext⟩ := h
      refine ⟨hand, hs, fun e s frame hok hI => ?_⟩
      obtain ⟨held', hI', hk⟩ := hnext e s frame hok hI
      exact ⟨held', hI', ih _ hk⟩

theorem Keeps.mono {p : Prog σ L E α} {held : M} {post post' : α → L → M → Prop}
    (h : Keeps I tok p held post) (hpost : ∀ a l held, post a l held → post' a l held) :
    Keeps I tok p held post' :=
  h.weaken fun _ _ _ hp => ⟨_, Shift.refl _, hpost _ _ _ hp⟩

theorem Keeps.bind {p : Prog σ L E α} {k : α → L → Prog σ L E β} {held : M}
    {mid : α → L → M → Prop} {post : β → L → M → Prop} (h : Keeps I tok p held mid)
    (hk : ∀ a l held, mid a l held → Keeps I tok (k a l) held post) :
    Keeps I tok (p.bind k) held post := by
  induction p generalizing held with
  | done l a =>
      obtain ⟨held', hs, hp⟩ := h
      exact (hk _ _ _ hp).shift hs
  | atomic l ok run next ih =>
      obtain ⟨hand, hs, hnext⟩ := h
      refine ⟨hand, hs, fun e s frame hok hI => ?_⟩
      obtain ⟨held', hI', hkp⟩ := hnext e s frame hok hI
      exact ⟨held', hI', ih _ hkp⟩

/-- The frame rule: what a program does not need passes it by. -/
theorem Keeps.frame {p : Prog σ L E α} {held : M} {post : α → L → M → Prop}
    (h : Keeps I tok p held post) (r : M) :
    Keeps I tok p (held + r) fun a l held' => ∃ kept, held' = kept + r ∧ post a l kept := by
  induction p generalizing held with
  | done l a =>
      obtain ⟨held', hs, hp⟩ := h
      exact ⟨held' + r, hs.frame r, held', rfl, hp⟩
  | atomic l ok run next ih =>
      obtain ⟨hand, hs, hnext⟩ := h
      refine ⟨hand + r, ?_, fun e s frame hok hI => ?_⟩
      · rw [← add_assoc]
        exact hs.frame r
      · rw [← add_assoc, add_assoc _ r frame] at hI
        obtain ⟨held', hI', hk⟩ := hnext e s (r + frame) hok hI
        exact ⟨held' + r, by rwa [add_assoc], ih _ hk⟩

/-- The rule for one section. -/
theorem Keeps.atomicOk {ok : E → σ → Bool} {run : E → σ → σ × β} {l : L} {held : M}
    {post : β → L → M → Prop} (hand : M) (hheld : held = tok l + hand)
    (h : ∀ e s frame, ok e s = true → I s (held + frame) →
      ∃ held', I (run e s).1 (held' + frame) ∧ post (run e s).2 l held') :
    Keeps I tok ((Act.atomicOk ok run).run l) held post := by
  subst hheld
  refine ⟨hand, Shift.refl _, fun e s frame hok hI => ?_⟩
  obtain ⟨held', hI', hp⟩ := h e s frame hok hI
  exact ⟨held', hI', Keeps.done hp⟩

theorem Keeps.atomic {run : E → σ → σ × β} {l : L} {held : M}
    {post : β → L → M → Prop} (hand : M) (hheld : held = tok l + hand)
    (h : ∀ e s frame, I s (held + frame) →
      ∃ held', I (run e s).1 (held' + frame) ∧ post (run e s).2 l held') :
    Keeps I tok ((Act.atomic run).run l) held post :=
  Keeps.atomicOk hand hheld fun e s frame _ hI => h e s frame hI

end Logic

/-! ### Programs by what they display

The same rules for programs that await their own state. What such a program holds is what its state
displays and a rest in `hand`, and only the rest is spoken of. -/

section Runs

variable {σ L E M α β : Type} [AddCommMonoid M] (I : σ → M → Prop) (tok : L → M)

/-- From the own state `l` and with `hand` besides, the program keeps the invariant and ends in
`post`. -/
def Runs (m : Act σ L E α) (l : L) (hand : M) (post : α → L → M → Prop) : Prop :=
  Keeps I tok (m.run l) (tok l + hand) fun a l' held => ∃ hand', held = tok l' + hand' ∧ post a l' hand'

variable {I tok} {l : L} {hand : M}

theorem Runs.pure {a : α} {post : α → L → M → Prop} (h : post a l hand) :
    Runs I tok (pure a : Act σ L E α) l hand post :=
  Keeps.done ⟨hand, rfl, h⟩

theorem Runs.bind {m : Act σ L E α} {k : α → Act σ L E β} {mid : α → L → M → Prop}
    {post : β → L → M → Prop} (h : Runs I tok m l hand mid)
    (hk : ∀ a l' hand', mid a l' hand' → Runs I tok (k a) l' hand' post) :
    Runs I tok (m >>= k) l hand post := by
  refine Keeps.bind h ?_
  rintro a l' held ⟨hand', rfl, hmid⟩
  exact hk a l' hand' hmid

theorem Runs.mono {m : Act σ L E α} {post post' : α → L → M → Prop} (h : Runs I tok m l hand post)
    (hpost : ∀ a l' hand', post a l' hand' → post' a l' hand') : Runs I tok m l hand post' := by
  refine Keeps.mono h ?_
  rintro a l' held ⟨hand', hheld, hp⟩
  exact ⟨hand', hheld, hpost _ _ _ hp⟩

theorem Runs.shift {m : Act σ L E α} {hand' : M} {post : α → L → M → Prop}
    (hshift : Shift I hand hand') (h : Runs I tok m l hand' post) : Runs I tok m l hand post := by
  refine Keeps.shift ?_ h
  rw [add_comm, add_comm (tok l)]
  exact hshift.frame _

/-- What is left in hand at the end may be exchanged once more. -/
theorem Runs.weaken {m : Act σ L E α} {post post' : α → L → M → Prop}
    (h : Runs I tok m l hand post)
    (hpost : ∀ a l' hand', post a l' hand' → ∃ hand'', Shift I hand' hand'' ∧ post' a l' hand'') :
    Runs I tok m l hand post' := by
  refine Keeps.weaken h ?_
  rintro a l' held ⟨hand', rfl, hp⟩
  obtain ⟨hand'', hshift, hp'⟩ := hpost _ _ _ hp
  refine ⟨tok l' + hand'', ?_, hand'', rfl, hp'⟩
  rw [add_comm, add_comm (tok l')]
  exact hshift.frame _

theorem Runs.frame {m : Act σ L E α} {post : α → L → M → Prop} (h : Runs I tok m l hand post)
    (r : M) : Runs I tok m l (hand + r) fun a l' hand' => ∃ kept, hand' = kept + r ∧ post a l' kept := by
  have hframe := Keeps.frame h r
  rw [add_assoc] at hframe
  refine Keeps.mono hframe ?_
  rintro a l' held ⟨kept, rfl, hand', rfl, hp⟩
  exact ⟨hand' + r, add_assoc _ _ _, hand', rfl, hp⟩

theorem Runs.get {post : L → L → M → Prop} (h : post l l hand) :
    Runs I tok (Act.get : Act σ L E L) l hand post :=
  Keeps.done ⟨hand, rfl, h⟩

/-- Own state and hand change together. -/
theorem Runs.modify {f : L → L} {hand' : M} {post : Unit → L → M → Prop}
    (htok : tok l + hand = tok (f l) + hand') (h : post () (f l) hand') :
    Runs I tok (Act.modify f : Act σ L E Unit) l hand post :=
  Keeps.done ⟨hand', htok, h⟩

/-- The rule for one section. What the own state displays is part of the frame. -/
theorem Runs.atomicOk {ok : E → σ → Bool} {run : E → σ → σ × β} {post : β → L → M → Prop}
    (h : ∀ e s frame, ok e s = true → I s (hand + frame) →
      ∃ hand', I (run e s).1 (hand' + frame) ∧ post (run e s).2 l hand') :
    Runs I tok (Act.atomicOk ok run) l hand post := by
  refine Keeps.atomicOk hand rfl fun e s frame hok hI => ?_
  rw [add_assoc, add_left_comm] at hI
  obtain ⟨hand', hI', hp⟩ := h e s (tok l + frame) hok hI
  exact ⟨tok l + hand', by rwa [add_assoc, add_left_comm], hand', rfl, hp⟩

theorem Runs.atomic {run : E → σ → σ × β} {post : β → L → M → Prop}
    (h : ∀ e s frame, I s (hand + frame) →
      ∃ hand', I (run e s).1 (hand' + frame) ∧ post (run e s).2 l hand') :
    Runs I tok (Act.atomic run) l hand post :=
  Runs.atomicOk fun e s frame _ hI => h e s frame hI

end Runs

/-! ### Pools of threads -/

/-- The threads of a pool of one or of two are written as numerals. -/
instance oneThread : NeZero 1 := ⟨Nat.one_ne_zero⟩

instance twoThreads : NeZero 2 := ⟨two_ne_zero⟩

/-- The shared state and what every thread still has to do. -/
structure Pool (ι σ L E : Type) where
  shared : σ
  threads : ι → Prog σ L E Unit

section Pool

variable {ι σ L E Op : Type} [DecidableEq ι]

def Pool.setThread (s : Pool ι σ L E) (t : ι) (p : Prog σ L E Unit) : Pool ι σ L E :=
  { s with threads := Function.update s.threads t p }

/-- An idle thread starts an operation, or a running one takes its next section. -/
inductive Step (ops : Op → Act σ L E Unit) : Pool ι σ L E → Pool ι σ L E → Prop
  | start {s : Pool ι σ L E} (t : ι) (l : L) (op : Op) (hidle : s.threads t = .done l ()) :
      Step ops s (s.setThread t ((ops op).run l))
  | «section» {s : Pool ι σ L E} {β : Type} (t : ι) (l : L) (ok : E → σ → Bool)
      (run : E → σ → σ × β) (next : β → Prog σ L E Unit) (e : E)
      (hat : s.threads t = .atomic l ok run next) (hok : ok e s.shared = true) :
      Step ops s
        { shared := (run e s.shared).1
          threads := Function.update s.threads t (next (run e s.shared).2) }

inductive Reach (ops : Op → Act σ L E Unit) (init : Pool ι σ L E) : Pool ι σ L E → Prop
  | refl : Reach ops init init
  | step {s s' : Pool ι σ L E} (h : Reach ops init s) (hstep : Step ops s s') : Reach ops init s'

theorem Reach.trans {ops : Op → Act σ L E Unit} {a b c : Pool ι σ L E}
    (hab : Reach ops a b) (hbc : Reach ops b c) : Reach ops a c := by
  induction hbc with
  | refl => exact hab
  | step _ hstep ih => exact .step ih hstep

/-- One step, chosen by a scheduler: which thread moves, and the operation it starts or the outside
input its section meets. -/
def Pool.fire (ops : Op → Act σ L E Unit) (s : Pool ι σ L E) : ι × (Op ⊕ E) → Option (Pool ι σ L E)
  | (t, .inl op) =>
      match s.threads t with
      | .done l _ => some (s.setThread t ((ops op).run l))
      | .atomic _ _ _ _ => none
  | (t, .inr e) =>
      match s.threads t with
      | .done _ _ => none
      | .atomic _ ok run next =>
          if ok e s.shared then
            some { shared := (run e s.shared).1
                   threads := Function.update s.threads t (next (run e s.shared).2) }
          else none

/-- A whole schedule. -/
def Pool.exec (ops : Op → Act σ L E Unit) (s : Pool ι σ L E) :
    List (ι × (Op ⊕ E)) → Option (Pool ι σ L E)
  | [] => some s
  | x :: rest =>
      match s.fire ops x with
      | some s' => s'.exec ops rest
      | none => none

theorem Pool.fire_step {ops : Op → Act σ L E Unit} {s s' : Pool ι σ L E} {x : ι × (Op ⊕ E)}
    (h : s.fire ops x = some s') : Step ops s s' := by
  obtain ⟨t, op | e⟩ := x
  · cases hat : s.threads t with
    | done l a =>
        simp only [Pool.fire, hat, Option.some.injEq] at h
        subst h
        exact .start t l op hat
    | atomic l ok run next =>
        simp [Pool.fire, hat] at h
  · cases hat : s.threads t with
    | done l a => simp [Pool.fire, hat] at h
    | atomic l ok run next =>
        simp only [Pool.fire, hat, Option.ite_none_right_eq_some, Option.some.injEq] at h
        obtain ⟨hok, rfl⟩ := h
        exact .section t l ok run next e hat hok

/-- What a schedule reaches is reachable. -/
theorem Pool.exec_reach {ops : Op → Act σ L E Unit} {s s' : Pool ι σ L E}
    {sched : List (ι × (Op ⊕ E))} (h : s.exec ops sched = some s') : Reach ops s s' := by
  induction sched generalizing s with
  | nil => cases h; exact .refl
  | cons x rest ih =>
      unfold Pool.exec at h
      split at h
      · rename_i s₁ hfire
        exact (Reach.step .refl (Pool.fire_step hfire)).trans (ih h)
      · cases h

variable {M : Type} [AddCommMonoid M] [Fintype ι] (I : σ → M → Prop) (tok : L → M) (W : L → Prop)

/-- A thread finishes holding exactly what its own state displays. -/
def Pays (p : Prog σ L E Unit) (held : M) : Prop :=
  Keeps I tok p held fun _ l held' => W l ∧ held' = tok l

/-- An operation that ends with empty hands. -/
theorem Runs.pays {m : Act σ L E Unit} {l : L} (h : Runs I tok m l 0 fun _ l' hand => W l' ∧ hand = 0) :
    Pays I tok W (m.run l) (tok l) := by
  have hkeeps : Keeps I tok (m.run l) (tok l + 0) _ := h
  rw [add_zero] at hkeeps
  refine hkeeps.mono ?_
  rintro a l' held ⟨hand, rfl, hW, rfl⟩
  exact ⟨hW, add_zero _⟩

/-- Some division of the resources among the threads meets the invariant and lets each finish. -/
def Pool.Inv (s : Pool ι σ L E) : Prop :=
  ∃ held : ι → M, I s.shared (∑ t, held t) ∧ ∀ t, Pays I tok W (s.threads t) (held t)

variable {I tok W}

theorem sum_eq_add_erase (held : ι → M) (t : ι) :
    ∑ u, held u = held t + ∑ u ∈ Finset.univ.erase t, held u :=
  (Finset.add_sum_erase _ _ (Finset.mem_univ t)).symm

theorem sum_update (held : ι → M) (t : ι) (m : M) :
    ∑ u, Function.update held t m u = m + ∑ u ∈ Finset.univ.erase t, held u := by
  rw [sum_eq_add_erase _ t, Function.update_self]
  congr 1
  refine Finset.sum_congr rfl fun u hu => ?_
  rw [Function.update_of_ne (Finset.ne_of_mem_erase hu)]

omit [DecidableEq ι] in
/-- At rest, every thread holds what it displays. -/
theorem Pool.Inv.rest {s : Pool ι σ L E} {l : ι → L} (hidle : ∀ t, s.threads t = .done (l t) ())
    (hW : ∀ t, W (l t)) (hI : I s.shared (∑ t, tok (l t))) : s.Inv I tok W := by
  refine ⟨fun t => tok (l t), hI, fun t => ?_⟩
  rw [hidle]
  exact Keeps.done ⟨hW t, rfl⟩

theorem Pool.Inv.step {ops : Op → Act σ L E Unit}
    (hops : ∀ op l, W l → Pays I tok W ((ops op).run l) (tok l)) {s s' : Pool ι σ L E}
    (hinv : s.Inv I tok W) (hstep : Step ops s s') : s'.Inv I tok W := by
  obtain ⟨held, hI, hpays⟩ := hinv
  cases hstep with
  | start t l op hidle =>
      have ht := hpays t
      rw [hidle] at ht
      obtain ⟨held', hshift, hW, rfl⟩ := ht
      refine ⟨Function.update held t (tok l), ?_, fun u => ?_⟩
      · rw [sum_update]
        rw [sum_eq_add_erase _ t] at hI
        exact hshift _ _ hI
      · by_cases hu : u = t
        · subst hu
          simpa [Pool.setThread] using hops op l hW
        · simpa [Pool.setThread, hu] using hpays u
  | «section» t l ok run next e hat hok =>
      have ht := hpays t
      rw [hat] at ht
      obtain ⟨hand, hshift, hnext⟩ := ht
      rw [sum_eq_add_erase _ t] at hI
      obtain ⟨held', hI', hk⟩ := hnext e _ _ hok (hshift _ _ hI)
      refine ⟨Function.update held t held', ?_, fun u => ?_⟩
      · rw [sum_update]
        exact hI'
      · by_cases hu : u = t
        · subst hu
          simpa [Pays] using hk
        · simpa [hu] using hpays u

/-- **Every interleaving keeps the invariant.** It is enough that each operation, started by a thread
that holds what it displays, keeps it. -/
theorem Pool.Inv.reach {ops : Op → Act σ L E Unit} {init s : Pool ι σ L E}
    (hinit : init.Inv I tok W) (hops : ∀ op l, W l → Pays I tok W ((ops op).run l) (tok l))
    (hreach : Reach ops init s) : s.Inv I tok W := by
  induction hreach with
  | refl => exact hinit
  | step _ hstep ih => exact ih.step hops hstep

/-- What a thread holds splits into what it displays and what it has in hand. -/
theorem Pays.displays {p : Prog σ L E Unit} {held : M} (h : Pays I tok W p held) :
    ∃ hand, Shift I held (tok p.own + hand) ∧ (p.Idle → W p.own ∧ hand = 0) := by
  cases p with
  | done l a =>
      obtain ⟨held', hshift, hW, rfl⟩ := h
      exact ⟨0, by simpa [Prog.own] using hshift, fun _ => ⟨hW, rfl⟩⟩
  | atomic l ok run next =>
      obtain ⟨hand, hshift, _⟩ := h
      exact ⟨hand, hshift, fun hidle => hidle.elim⟩

omit [DecidableEq ι] in
/-- The invariant, read off the displayed states: only a running thread has anything else in hand. -/
theorem Pool.Inv.displays {s : Pool ι σ L E} (hinv : s.Inv I tok W) :
    ∃ hand : ι → M, I s.shared (∑ t, (tok (s.threads t).own + hand t)) ∧
      ∀ t, (s.threads t).Idle → W (s.threads t).own ∧ hand t = 0 := by
  obtain ⟨held, hI, hpays⟩ := hinv
  choose hand hshift hidle using fun t => (hpays t).displays
  refine ⟨hand, ?_, hidle⟩
  have hsum := Shift.sum hshift Finset.univ s.shared 0
  simpa using hsum (by simpa using hI)

end Pool

end Resumption
