import Allox.Lib.Resumption

/-!
# Critical sections are atomic

A thread that works on a shared value under a lock makes many small accesses, and other threads run
between them. A lock is a little program of its own over the words it is made of, with a place it
waits at and a word it hands back. `Lock.Excludes` is what a lock has to keep for mutual exclusion,
and from that alone `Reach.refines` shows that every interleaving of the small steps is an
interleaving of whole sections, in the sense of the pools in `Resumption`.

A section takes effect when its lock is taken: what it still has to do is then fixed, since nobody
else touches the value before the lock is handed back.
-/

namespace Critical

open Resumption

/-- What runs while a lock is held: one access of the guarded value after another. -/
inductive Body (α β : Type) : Type 1
  | done (value : β)
  | access {γ : Type} (run : α → α × γ) (next : γ → Body α β)

/-- All of it at once. -/
def Body.run {α β : Type} : Body α β → α → α × β
  | .done b, v => (v, b)
  | .access f next, v => (next (f v).2).run (f v).1

@[simp] theorem Body.run_done {α β : Type} (b : β) (v : α) : (Body.done b).run v = (v, b) := rfl

@[simp] theorem Body.run_access {α β γ : Type} (f : α → α × γ) (next : γ → Body α β) (v : α) :
    (Body.access f next).run v = (next (f v).2).run (f v).1 := rfl

/-- A thread's code: sections under one lock each. The lock `k` guards a value of type `σ k`. -/
inductive Code (κ : Type) (σ : κ → Type) : Type 1
  | done
  | under {β : Type} (k : κ) (body : Body (σ k) β) (next : β → Code κ σ)

section Prog

variable {κ : Type} [DecidableEq κ] {σ : κ → Type}

/-- The code with every section atomic. -/
def Code.prog : Code κ σ → Prog (∀ k, σ k) Unit Unit Unit
  | .done => .done () ()
  | .under k body next =>
      .atomic () (fun _ _ => true)
        (fun _ v => (Function.update v k (body.run (v k)).1, (body.run (v k)).2))
        (fun b => (next b).prog)

end Prog

/-- A lock's own program over its words `W`, with places `P` to stand at. A step from a place either
takes the lock, when no place is left to go to, or goes on; no step at all means that the thread is
parked. -/
structure Lock (κ W P : Type) where
  start : P
  step : κ → P → W → Option (W × Option P)
  unlock : κ → W → W

/-- Where a thread stands with the locks. -/
inductive Phase (κ P : Type) where
  | out
  | taking (k : κ) (place : P)
  | inside (k : κ)

/-- A thread: between sections, on its way into one, or in the middle of one. -/
inductive Thread (κ P : Type) (σ : κ → Type) : Type 1
  | out (code : Code κ σ)
  | taking {β : Type} (k : κ) (place : P) (body : Body (σ k) β) (next : β → Code κ σ)
  | inside {β : Type} (k : κ) (rest : Body (σ k) β) (next : β → Code κ σ)

section Thread

variable {κ P : Type} {σ : κ → Type}

def Thread.phase : Thread κ P σ → Phase κ P
  | .out _ => .out
  | .taking k place _ _ => .taking k place
  | .inside k _ _ => .inside k

@[simp] theorem Thread.phase_out (code : Code κ σ) :
    (Thread.out code : Thread κ P σ).phase = .out := rfl

@[simp] theorem Thread.phase_taking {β : Type} (k : κ) (place : P) (body : Body (σ k) β)
    (next : β → Code κ σ) : (Thread.taking k place body next).phase = .taking k place := rfl

@[simp] theorem Thread.phase_inside {β : Type} (k : κ) (body : Body (σ k) β)
    (next : β → Code κ σ) :
    (Thread.inside k body next : Thread κ P σ).phase = .inside k := rfl

/-- What a thread still has to do once the section it is in has taken effect. -/
def Thread.prog [DecidableEq κ] (v : ∀ k, σ k) : Thread κ P σ → Prog (∀ k, σ k) Unit Unit Unit
  | .out code => code.prog
  | .taking k _ body next => (Code.under k body next).prog
  | .inside k rest next => (next (rest.run (v k)).2).prog

/-- A value only matters to the thread inside its lock. -/
theorem Thread.prog_update [DecidableEq κ] {x : Thread κ P σ} {k : κ} (hout : x.phase ≠ .inside k)
    (v : ∀ k, σ k) (a : σ k) : x.prog (Function.update v k a) = x.prog v := by
  cases x with
  | out code => rfl
  | taking j place body next => rfl
  | inside j rest next =>
      have hne : j ≠ k := fun h => hout (by rw [← h]; rfl)
      simp only [Thread.prog, Function.update_of_ne hne]

end Thread

/-- The words of the locks, the values they guard, and the threads. -/
structure State (ι κ W P : Type) (σ : κ → Type) where
  words : W
  value : ∀ k, σ k
  threads : ι → Thread κ P σ

section Steps

variable {ι κ W P Op : Type} [DecidableEq ι] [DecidableEq κ] {L : Lock κ W P} {σ : κ → Type}

def State.setThread (s : State ι κ W P σ) (t : ι) (x : Thread κ P σ) : State ι κ W P σ :=
  { s with threads := Function.update s.threads t x }

def State.phases (s : State ι κ W P σ) (t : ι) : Phase κ P := (s.threads t).phase

/-- One small step of one thread. -/
inductive Step (L : Lock κ W P) (ops : Op → Code κ σ) : State ι κ W P σ → State ι κ W P σ → Prop
  | start {s : State ι κ W P σ} (t : ι) (op : Op) (hat : s.threads t = .out .done) :
      Step L ops s (s.setThread t (.out (ops op)))
  | enter {s : State ι κ W P σ} {β : Type} (t : ι) (k : κ) (body : Body (σ k) β)
      (next : β → Code κ σ) (hat : s.threads t = .out (.under k body next)) :
      Step L ops s (s.setThread t (.taking k L.start body next))
  | wait {s : State ι κ W P σ} {β : Type} (t : ι) (k : κ) (place place' : P)
      (body : Body (σ k) β) (next : β → Code κ σ) (w : W)
      (hat : s.threads t = .taking k place body next)
      (hstep : L.step k place s.words = some (w, some place')) :
      Step L ops s ({ s with words := w }.setThread t (.taking k place' body next))
  | acquire {s : State ι κ W P σ} {β : Type} (t : ι) (k : κ) (place : P)
      (body : Body (σ k) β) (next : β → Code κ σ) (w : W)
      (hat : s.threads t = .taking k place body next)
      (hstep : L.step k place s.words = some (w, none)) :
      Step L ops s ({ s with words := w }.setThread t (.inside k body next))
  | access {s : State ι κ W P σ} {β γ : Type} (t : ι) (k : κ) (run : σ k → σ k × γ)
      (rest : γ → Body (σ k) β) (next : β → Code κ σ)
      (hat : s.threads t = .inside k (.access run rest) next) :
      Step L ops s
        ({ s with value := Function.update s.value k (run (s.value k)).1 }.setThread t
          (.inside k (rest (run (s.value k)).2) next))
  | release {s : State ι κ W P σ} {β : Type} (t : ι) (k : κ) (b : β) (next : β → Code κ σ)
      (hat : s.threads t = .inside k (.done b) next) :
      Step L ops s ({ s with words := L.unlock k s.words }.setThread t (.out (next b)))

inductive Reach (L : Lock κ W P) (ops : Op → Code κ σ) (init : State ι κ W P σ) : State ι κ W P σ → Prop
  | refl : Reach L ops init init
  | step {s s' : State ι κ W P σ} (h : Reach L ops init s) (hstep : Step L ops s s') : Reach L ops init s'

/-- Every thread is idle. -/
def State.idle (w : W) (v : ∀ k, σ k) : State ι κ W P σ :=
  { words := w, value := v, threads := fun _ => .out .done }

end Steps

/-- What makes a lock exclude: an invariant of its words and of where every thread stands, kept by
each step and by handing the lock back, under which no two threads are inside one lock. -/
structure Lock.Excludes {ι κ W P : Type} [DecidableEq ι] (L : Lock κ W P) (w₀ : W)
    (Inv : W → (ι → Phase κ P) → Prop) : Prop where
  init : Inv w₀ fun _ => .out
  enter : ∀ w ph t k, Inv w ph → ph t = .out → Inv w (Function.update ph t (.taking k L.start))
  wait : ∀ w ph t k place w' place', Inv w ph → ph t = .taking k place →
    L.step k place w = some (w', some place') → Inv w' (Function.update ph t (.taking k place'))
  acquire : ∀ w ph t k place w', Inv w ph → ph t = .taking k place →
    L.step k place w = some (w', none) → Inv w' (Function.update ph t (.inside k))
  release : ∀ w ph t k, Inv w ph → ph t = .inside k →
    Inv (L.unlock k w) (Function.update ph t .out)
  exclusive : ∀ w ph t u k, Inv w ph → ph t = .inside k → ph u = .inside k → t = u

/-- A thread that moves outside changes nothing about who is inside. -/
theorem inside_move {ι κ P : Type} [DecidableEq ι] {ph : ι → Phase κ P} {t : ι} {x : Phase κ P}
    {k : κ} (hbefore : ph t ≠ .inside k) (hafter : x ≠ .inside k) (u : ι) :
    Function.update ph t x u = .inside k ↔ ph u = .inside k := by
  by_cases heq : u = t
  · subst heq
    simp [hbefore, hafter]
  · rw [Function.update_of_ne heq]

section Refinement

variable {ι κ W P Op : Type} [DecidableEq ι] [DecidableEq κ] {L : Lock κ W P} {σ : κ → Type}
  {ops : Op → Code κ σ} {s s' : State ι κ W P σ} {w₀ : W} {Inv : W → (ι → Phase κ P) → Prop}

omit [DecidableEq κ] in
@[simp] theorem State.phases_setThread (s : State ι κ W P σ) (t : ι) (x : Thread κ P σ) :
    (s.setThread t x).phases = Function.update s.phases t x.phase := by
  funext u
  by_cases heq : u = t
  · subst heq
    simp [State.phases, State.setThread]
  · simp [State.phases, State.setThread, heq]

theorem Lock.Excludes.step (hL : L.Excludes w₀ Inv) (hstep : Step L ops s s')
    (hinv : Inv s.words s.phases) : Inv s'.words s'.phases := by
  cases hstep with
  | start t op hat =>
      have hph : s.phases t = .out := by simp [State.phases, hat]
      rw [State.phases_setThread, Thread.phase_out, ← hph, Function.update_eq_self]
      exact hinv
  | enter t k body next hat =>
      have hph : s.phases t = .out := by simp [State.phases, hat]
      rw [State.phases_setThread]
      exact hL.enter _ _ _ _ hinv hph
  | wait t k place place' body next w hat hgo =>
      have hph : s.phases t = .taking k place := by simp [State.phases, hat]
      rw [State.phases_setThread]
      exact hL.wait _ _ _ _ _ _ _ hinv hph hgo
  | acquire t k place body next w hat hgo =>
      have hph : s.phases t = .taking k place := by simp [State.phases, hat]
      rw [State.phases_setThread]
      exact hL.acquire _ _ _ _ _ _ hinv hph hgo
  | access t k run rest next hat =>
      have hph : s.phases t = .inside k := by simp [State.phases, hat]
      rw [State.phases_setThread, Thread.phase_inside, ← hph]
      exact (Function.update_eq_self t s.phases).symm ▸ hinv
  | release t k b next hat =>
      have hph : s.phases t = .inside k := by simp [State.phases, hat]
      rw [State.phases_setThread]
      exact hL.release _ _ _ _ hinv hph

theorem Lock.Excludes.reach {v : ∀ k, σ k} (hL : L.Excludes w₀ Inv)
    (hr : Reach L ops (State.idle w₀ v) s) : Inv s.words s.phases := by
  induction hr with
  | refl => exact hL.init
  | step _ hstep ih => exact hL.step hstep ih

/-- The small state `s` next to the pool `c` of atomic sections: every section that is under way has
already taken effect in `c`. -/
structure Refines (s : State ι κ W P σ) (c : Pool ι (∀ k, σ k) Unit Unit) : Prop where
  threads : ∀ t, c.threads t = (s.threads t).prog s.value
  free : ∀ k, (∀ t, s.phases t ≠ .inside k) → c.shared k = s.value k
  held : ∀ t k (β : Type) (rest : Body (σ k) β) (next : β → Code κ σ),
    s.threads t = .inside k rest next → c.shared k = (rest.run (s.value k)).1

/-- The same operations in one piece each. -/
def whole (ops : Op → Code κ σ) (op : Op) : Act (∀ k, σ k) Unit Unit Unit :=
  ⟨fun _ => (ops op).prog⟩

variable {c : Pool ι (∀ k, σ k) Unit Unit}

/-- A thread that moves outside every lock moves alone. -/
theorem Refines.setThread {t : ι} {x : Thread κ P σ} {w : W} (h : Refines s c)
    (hbefore : ∀ k, s.phases t ≠ .inside k) (hafter : ∀ k, x.phase ≠ .inside k) :
    Refines ({ s with words := w }.setThread t x)
      { c with threads := Function.update c.threads t (x.prog s.value) } := by
  refine ⟨fun u => ?_, fun k hfree => ?_, fun u k β rest next hat => ?_⟩
  · by_cases heq : u = t
    · subst heq
      simp [State.setThread]
    · simpa [State.setThread, heq] using h.threads u
  · apply h.free k
    intro u
    by_cases heq : u = t
    · subst heq
      exact hbefore k
    · have hout := hfree u
      rw [State.phases_setThread, Function.update_of_ne heq] at hout
      exact hout
  · by_cases heq : u = t
    · subst heq
      simp only [State.setThread, Function.update_self] at hat
      exact absurd (by rw [hat]; rfl) (hafter k)
    · simp only [State.setThread, Function.update_of_ne heq] at hat
      exact h.held u k β rest next hat

/-- As long as what it still has to do stays the same, the pool does not move. -/
theorem Refines.stay {t : ι} {x : Thread κ P σ} {w : W} (h : Refines s c)
    (hbefore : ∀ k, s.phases t ≠ .inside k) (hafter : ∀ k, x.phase ≠ .inside k)
    (hsame : x.prog s.value = (s.threads t).prog s.value) :
    Refines ({ s with words := w }.setThread t x) c := by
  have hset := h.setThread (w := w) hbefore hafter
  rw [hsame, ← h.threads t, Function.update_eq_self] at hset
  exact hset

/-- Taking the lock is where the section takes effect. -/
theorem Refines.acquire {β : Type} {t : ι} {k : κ} {body : Body (σ k) β} {next : β → Code κ σ}
    {w : W} (h : Refines s c) (hbefore : ∀ j, s.phases t ≠ .inside j)
    (halone : ∀ u, s.phases u ≠ .inside k) :
    Refines ({ s with words := w }.setThread t (.inside k body next))
      { shared := Function.update c.shared k (body.run (c.shared k)).1
        threads := Function.update c.threads t (next (body.run (c.shared k)).2).prog } := by
  have hvalue : c.shared k = s.value k := h.free k halone
  refine ⟨fun u => ?_, fun j hfree => ?_, fun u j γ rest next' hat => ?_⟩
  · by_cases heq : u = t
    · subst heq
      simp [State.setThread, Thread.prog, hvalue]
    · simpa [State.setThread, heq] using h.threads u
  · have hne : j ≠ k := by
      rintro rfl
      have hout := hfree t
      rw [State.phases_setThread, Function.update_self] at hout
      exact hout rfl
    simp only [State.setThread, Function.update_of_ne hne]
    apply h.free j
    intro u
    by_cases heq : u = t
    · subst heq
      exact hbefore j
    · have hout := hfree u
      rw [State.phases_setThread, Function.update_of_ne heq] at hout
      exact hout
  · by_cases heq : u = t
    · subst heq
      simp only [State.setThread, Function.update_self] at hat
      cases hat
      simp [State.setThread, hvalue]
    · simp only [State.setThread, Function.update_of_ne heq] at hat
      have hne : j ≠ k := by
        rintro rfl
        exact halone u (by simp [State.phases, hat])
      simp only [State.setThread, Function.update_of_ne hne]
      exact h.held u j γ rest next' hat

/-- An access under the lock was already part of the section. -/
theorem Refines.access {β γ : Type} {t : ι} {k : κ} {run : σ k → σ k × γ}
    {rest : γ → Body (σ k) β} {next : β → Code κ σ} (h : Refines s c)
    (hat : s.threads t = .inside k (.access run rest) next)
    (halone : ∀ u, s.phases u = .inside k → u = t) :
    Refines
      ({ s with value := Function.update s.value k (run (s.value k)).1 }.setThread t
        (.inside k (rest (run (s.value k)).2) next)) c := by
  have hothers : ∀ u, u ≠ t → s.phases u ≠ .inside k := fun u hne hin => hne (halone u hin)
  refine ⟨fun u => ?_, fun j hfree => ?_, fun u j δ rest' next' hu => ?_⟩
  · by_cases heq : u = t
    · subst heq
      have ht := h.threads u
      rw [hat] at ht
      simpa [State.setThread, Thread.prog] using ht
    · have hu := h.threads u
      rw [← Thread.prog_update (hothers u heq) s.value (run (s.value k)).1] at hu
      simpa [State.setThread, heq] using hu
  · have hne : j ≠ k := by
      rintro rfl
      have hout := hfree t
      rw [State.phases_setThread, Function.update_self] at hout
      exact hout rfl
    simp only [State.setThread, Function.update_of_ne hne]
    apply h.free j
    intro u
    by_cases heq : u = t
    · subst heq
      intro hin
      simp only [State.phases, hat, Thread.phase_inside, Phase.inside.injEq] at hin
      exact hne hin.symm
    · have hout := hfree u
      rw [State.phases_setThread, Function.update_of_ne heq] at hout
      exact hout
  · by_cases heq : u = t
    · subst heq
      simp only [State.setThread, Function.update_self] at hu
      cases hu
      simpa [State.setThread] using h.held u k β _ next hat
    · simp only [State.setThread, Function.update_of_ne heq] at hu
      have hne : j ≠ k := by
        rintro rfl
        exact hothers u heq (by simp [State.phases, hu])
      simp only [State.setThread, Function.update_of_ne hne]
      exact h.held u j δ rest' next' hu

/-- Handing the lock back leaves the section's effect behind. -/
theorem Refines.release {β : Type} {t : ι} {k : κ} {b : β} {next : β → Code κ σ} {w : W}
    (h : Refines s c) (hat : s.threads t = .inside k (.done b) next) :
    Refines ({ s with words := w }.setThread t (.out (next b))) c := by
  refine ⟨fun u => ?_, fun j hfree => ?_, fun u j δ rest' next' hu => ?_⟩
  · by_cases heq : u = t
    · subst heq
      have ht := h.threads u
      rw [hat] at ht
      simpa [State.setThread, Thread.prog] using ht
    · simpa [State.setThread, heq] using h.threads u
  · by_cases heq : j = k
    · subst heq
      exact h.held t j β _ next hat
    · apply h.free j
      intro u
      by_cases hut : u = t
      · subst hut
        intro hin
        simp only [State.phases, hat, Thread.phase_inside, Phase.inside.injEq] at hin
        exact heq hin.symm
      · have hout := hfree u
        rw [State.phases_setThread, Function.update_of_ne hut] at hout
        exact hout
  · by_cases heq : u = t
    · subst heq
      simp only [State.setThread, Function.update_self] at hu
      cases hu
    · simp only [State.setThread, Function.update_of_ne heq] at hu
      exact h.held u j δ rest' next' hu

/-- A small step is one step of the pool, or none. -/
theorem Refines.step (hL : L.Excludes w₀ Inv) (hinv : Inv s.words s.phases) (h : Refines s c)
    (hstep : Step L ops s s') :
    ∃ c', (c' = c ∨ Resumption.Step (whole ops) c c') ∧ Refines s' c' := by
  have hinv' := hL.step hstep hinv
  cases hstep with
  | start t op hat =>
      have hc : c.threads t = .done () () := by rw [h.threads t, hat]; rfl
      have hbefore : ∀ k, s.phases t ≠ .inside k := by simp [State.phases, hat]
      exact ⟨_, .inr (.start t () op hc), h.setThread hbefore (by simp)⟩
  | enter t k body next hat =>
      have hbefore : ∀ k, s.phases t ≠ .inside k := by simp [State.phases, hat]
      exact ⟨c, .inl rfl, h.stay hbefore (by simp) (by rw [hat]; rfl)⟩
  | wait t k place place' body next w hat hgo =>
      have hbefore : ∀ k, s.phases t ≠ .inside k := by simp [State.phases, hat]
      exact ⟨c, .inl rfl, h.stay hbefore (by simp) (by rw [hat]; rfl)⟩
  | acquire t k place body next w hat hgo =>
      have hbefore : ∀ k, s.phases t ≠ .inside k := by simp [State.phases, hat]
      have halone : ∀ u, s.phases u ≠ .inside k := by
        intro u hin
        have hne : u ≠ t := by
          rintro rfl
          exact hbefore k hin
        rw [State.phases_setThread] at hinv'
        exact hne (hL.exclusive _ _ u t k hinv' (by rwa [Function.update_of_ne hne]) (by simp))
      have hc : c.threads t = (Code.under k body next).prog := by rw [h.threads t, hat]; rfl
      exact ⟨_, .inr (.section t _ _ _ _ () hc rfl), h.acquire hbefore halone⟩
  | access t k run rest next hat =>
      have hin : s.phases t = .inside k := by simp [State.phases, hat]
      exact ⟨c, .inl rfl, h.access hat fun u hu => hL.exclusive _ _ u t k hinv hu hin⟩
  | release t k b next hat => exact ⟨c, .inl rfl, h.release hat⟩

/-- Every interleaving of the small steps is one of whole sections. -/
theorem Reach.refines {v : ∀ k, σ k} (hL : L.Excludes w₀ Inv)
    (hr : Reach L ops (State.idle w₀ v) s) :
    ∃ c, Resumption.Reach (whole ops) ⟨v, fun _ => .done () ()⟩ c ∧ Refines s c := by
  induction hr with
  | refl => exact ⟨_, .refl, fun _ => rfl, fun _ _ => rfl, fun _ _ _ _ _ h => by cases h⟩
  | step hr hstep ih =>
      obtain ⟨c, hc, h⟩ := ih
      obtain ⟨c', rfl | hstep', h'⟩ := h.step hL (hL.reach hr) hstep
      · exact ⟨_, hc, h'⟩
      · exact ⟨c', .step hc hstep', h'⟩

end Refinement

/-! ### Schedules -/

section Schedule

variable {ι κ W P Op : Type} [DecidableEq ι] [DecidableEq κ] {σ : κ → Type}

/-- The thread `t` moves. If it is idle, it starts `op`. -/
def State.fire (L : Lock κ W P) (ops : Op → Code κ σ) (s : State ι κ W P σ) :
    ι × Op → Option (State ι κ W P σ)
  | (t, op) =>
      match s.threads t with
      | .out .done => some (s.setThread t (.out (ops op)))
      | .out (.under k body next) => some (s.setThread t (.taking k L.start body next))
      | .taking k place body next =>
          match L.step k place s.words with
          | none => none
          | some (w, some place') =>
              some ({ s with words := w }.setThread t (.taking k place' body next))
          | some (w, none) => some ({ s with words := w }.setThread t (.inside k body next))
      | .inside k (.access run rest) next =>
          some
            ({ s with value := Function.update s.value k (run (s.value k)).1 }.setThread t
              (.inside k (rest (run (s.value k)).2) next))
      | .inside k (.done b) next =>
          some ({ s with words := L.unlock k s.words }.setThread t (.out (next b)))

def State.exec (L : Lock κ W P) (ops : Op → Code κ σ) (s : State ι κ W P σ) :
    List (ι × Op) → Option (State ι κ W P σ)
  | [] => some s
  | x :: rest => (s.fire L ops x).bind fun s' => s'.exec L ops rest

variable {L : Lock κ W P} {ops : Op → Code κ σ} {s s' : State ι κ W P σ}

theorem State.fire_step {x : ι × Op} (h : s.fire L ops x = some s') : Step L ops s s' := by
  obtain ⟨t, op⟩ := x
  cases hat : s.threads t with
  | out code =>
      cases code with
      | done =>
          simp only [State.fire, hat, Option.some.injEq] at h
          subst h
          exact .start t op hat
      | under k body next =>
          simp only [State.fire, hat, Option.some.injEq] at h
          subst h
          exact .enter t k body next hat
  | taking k place body next =>
      cases hgo : L.step k place s.words with
      | none => simp [State.fire, hat, hgo] at h
      | some r =>
          obtain ⟨w, _ | place'⟩ := r
          · simp only [State.fire, hat, hgo, Option.some.injEq] at h
            subst h
            exact .acquire t k place body next w hat hgo
          · simp only [State.fire, hat, hgo, Option.some.injEq] at h
            subst h
            exact .wait t k place place' body next w hat hgo
  | inside k rest next =>
      cases rest with
      | done b =>
          simp only [State.fire, hat, Option.some.injEq] at h
          subst h
          exact .release t k b next hat
      | access run rest =>
          simp only [State.fire, hat, Option.some.injEq] at h
          subst h
          exact .access t k run rest next hat

theorem Reach.trans {a b c : State ι κ W P σ} (hab : Reach L ops a b) (hbc : Reach L ops b c) :
    Reach L ops a c := by
  induction hbc with
  | refl => exact hab
  | step _ hstep ih => exact .step ih hstep

/-- What a schedule reaches is reachable. -/
theorem State.exec_reach {sched : List (ι × Op)} (h : s.exec L ops sched = some s') :
    Reach L ops s s' := by
  induction sched generalizing s with
  | nil => cases h; exact .refl
  | cons x rest ih =>
      simp only [State.exec, Option.bind_eq_some_iff] at h
      obtain ⟨s₁, hfire, h⟩ := h
      exact (Reach.step .refl (State.fire_step hfire)).trans (ih h)

end Schedule

end Critical
