import Allox.Locks

/-!
# Sections under either mutex are atomic

The flag of the spin mutex is set exactly while somebody is inside. For the other one the invariant
follows a mutex through its life: storage nobody has touched, storage one thread initialises behind
`INIT_GUARD`, and from then on a mutex of the system that is free or held by the thread inside. So the
system's mutex is initialised once, and never locked before.
-/

namespace Allox

open Critical

namespace SpinRaw

variable {ι κ Op : Type} [DecidableEq ι] [DecidableEq κ]

/-- The flag tells whether somebody is inside, and there is never more than one. -/
structure Excludes (locked : κ → Bool) (ph : ι → Phase κ Place) : Prop where
  flag : ∀ k, locked k = true ↔ ∃ t, ph t = .inside k
  single : ∀ t u k, ph t = .inside k → ph u = .inside k → t = u

variable {locked : κ → Bool} {ph : ι → Phase κ Place}

omit [DecidableEq κ] in
/-- A thread that moves between places outside changes nothing. -/
theorem Excludes.move {t : ι} {x : Phase κ Place} (h : Excludes locked ph)
    (hbefore : ∀ k, ph t ≠ .inside k) (hafter : ∀ k, x ≠ .inside k) :
    Excludes locked (Function.update ph t x) := by
  refine ⟨fun k => ?_, fun u v k hu hv => ?_⟩
  · simp only [inside_move (hbefore k) (hafter k)]
    exact h.flag k
  · rw [inside_move (hbefore k) (hafter k)] at hu hv
    exact h.single u v k hu hv

omit [DecidableEq ι] in
/-- Only a `swap` that finds the flag down writes anything. -/
theorem lock_wait {k : κ} {place place' : Place} {locked' : κ → Bool}
    (hgo : lock k place locked = some (locked', some place')) : locked' = locked := by
  cases place with
  | swap spins =>
      simp only [lock, Option.some.injEq, Prod.mk.injEq, Option.ite_none_right_eq_some] at hgo
      obtain ⟨rfl, hset, -⟩ := hgo
      rw [← hset, Function.update_eq_self]
  | spin spins =>
      simp only [lock, Option.some.injEq, Prod.mk.injEq] at hgo
      exact hgo.1.symm
  | check spins =>
      simp only [lock, Option.some.injEq, Prod.mk.injEq] at hgo
      exact hgo.1.symm

omit [DecidableEq ι] in
theorem lock_acquire {k : κ} {place : Place} {locked' : κ → Bool}
    (hgo : lock k place locked = some (locked', none)) :
    locked k = false ∧ locked' = Function.update locked k true := by
  cases place with
  | swap spins =>
      simp only [lock, Option.some.injEq, Prod.mk.injEq] at hgo
      obtain ⟨rfl, hnone⟩ := hgo
      exact ⟨by simpa using hnone, rfl⟩
  | spin spins => simp [lock] at hgo
  | check spins => simp [lock] at hgo

theorem Excludes.acquire {t : ι} {k : κ} {place : Place} (h : Excludes locked ph)
    (hat : ph t = .taking k place) (hdown : locked k = false) :
    Excludes (Function.update locked k true) (Function.update ph t (.inside k)) := by
  have halone : ∀ u, ph u ≠ .inside k := by
    intro u hu
    rw [(h.flag k).2 ⟨u, hu⟩] at hdown
    cases hdown
  refine ⟨fun j => ?_, fun u v j hu hv => ?_⟩
  · by_cases heq : j = k
    · subst heq
      simp only [Function.update_self, true_iff]
      exact ⟨t, by rw [Function.update_self]⟩
    · have hbefore : ph t ≠ .inside j := by simp [hat]
      have hafter : (.inside k : Phase κ Place) ≠ .inside j := by
        simpa using fun hkj => heq hkj.symm
      simp only [Function.update_of_ne heq, inside_move hbefore hafter]
      exact h.flag j
  · by_cases heq : j = k
    · subst heq
      have hself : ∀ x, Function.update ph t (.inside j) x = .inside j → x = t := by
        intro x hx
        by_contra hne
        rw [Function.update_of_ne hne] at hx
        exact halone x hx
      rw [hself u hu, hself v hv]
    · have hafter : (.inside k : Phase κ Place) ≠ .inside j := by
        simpa using fun hkj => heq hkj.symm
      rw [inside_move (by simp [hat]) hafter] at hu hv
      exact h.single u v j hu hv

theorem Excludes.release {t : ι} {k : κ} (h : Excludes locked ph) (hat : ph t = .inside k) :
    Excludes (Function.update locked k false) (Function.update ph t .out) := by
  have hleft : ∀ u j, Function.update ph t .out u = .inside j → ph u = .inside j ∧ u ≠ t := by
    intro u j hu
    by_cases heq : u = t
    · subst heq
      simp at hu
    · rw [Function.update_of_ne heq] at hu
      exact ⟨hu, heq⟩
  refine ⟨fun j => ?_, fun u v j hu hv => h.single u v j (hleft u j hu).1 (hleft v j hv).1⟩
  by_cases heq : j = k
  · subst heq
    simp only [Function.update_self, Bool.false_eq_true, false_iff, not_exists]
    intro u hu
    obtain ⟨hu, hne⟩ := hleft u j hu
    exact hne (h.single u t j hu hat)
  · have hbefore : ph t ≠ .inside j := by
      rw [hat]
      simpa using fun hkj => heq hkj.symm
    have hafter : (.out : Phase κ Place) ≠ .inside j := by simp
    simp only [Function.update_of_ne heq, inside_move hbefore hafter]
    exact h.flag j

theorem excludes : (rawMutex : Lock κ (κ → Bool) Place).Excludes (ι := ι) new Excludes where
  init := ⟨by simp [new], by simp⟩
  enter locked ph t k h hout := h.move (by simp [hout]) (by simp)
  wait locked ph t k place locked' place' h hat hgo := by
    rw [lock_wait hgo]
    exact h.move (by simp [hat]) (by simp)
  acquire locked ph t k place locked' h hat hgo := by
    obtain ⟨hdown, rfl⟩ := lock_acquire hgo
    exact h.acquire hat hdown
  release locked ph t k h hat := h.release hat
  exclusive locked ph t u k h ht hu := h.single t u k ht hu

end SpinRaw

namespace PthreadMutex

variable {ι κ M : Type} (P : Pthread M) (Free Held : M → Prop)

/-- The thread has `INIT_GUARD`. -/
def Guardian : Phase κ Place → Prop
  | .out => False
  | .taking _ place => place = .recheck ∨ place = .init ∨ place = .store ∨ place = .clear
  | .inside _ => False

/-- What a thread may rely on where it stands. -/
def Stands (w : Words κ M) : Phase κ Place → Prop
  | .out => True
  | .taking _ .load => True
  | .taking _ .guard => True
  | .taking _ .recheck => w.initGuard = true
  | .taking k .init => w.initGuard = true ∧ w.inited k = false
  | .taking k .store => w.initGuard = true ∧ w.inited k = false ∧ Free (w.mutex k)
  | .taking k .clear => w.initGuard = true ∧ w.inited k = true
  | .taking k .lock => w.inited k = true
  | .inside k => w.inited k = true ∧ Held (w.mutex k)

structure Excludes (w : Words κ M) (ph : ι → Phase κ Place) : Prop where
  stands : ∀ t, Stands Free Held w (ph t)
  guardian : ∀ t u, Guardian (ph t) → Guardian (ph u) → t = u
  single : ∀ t u k, ph t = .inside k → ph u = .inside k → t = u
  ready : ∀ k, w.inited k = true → Free (w.mutex k) ∨ ∃ t, ph t = .inside k
  fresh : ∀ k, w.inited k = false → w.mutex k = P.zeroed ∨ ∃ t, ph t = .taking k .store

variable {P Free Held} {w w' : Words κ M} {ph : ι → Phase κ Place} {t : ι} {x : Phase κ Place}

theorem Stands.initGuard (h : Stands Free Held w x) (hx : Guardian x) : w.initGuard = true := by
  cases x with
  | out => cases hx
  | inside k => cases hx
  | taking k place =>
      obtain rfl | rfl | rfl | rfl := hx
      · exact h
      · exact h.1
      · exact h.1
      · exact h.1

/-- Who has no `INIT_GUARD` relies on `inited` and on a held mutex at most. -/
theorem Stands.keep (h : Stands Free Held w x) (hx : ¬ Guardian x)
    (hinited : ∀ k, w.inited k = true → w'.inited k = true)
    (hmutex : ∀ k, x = .inside k → Held (w.mutex k) → Held (w'.mutex k)) :
    Stands Free Held w' x := by
  cases x with
  | out => trivial
  | inside k => exact ⟨hinited k h.1, hmutex k rfl h.2⟩
  | taking k place =>
      cases place with
      | load => trivial
      | guard => trivial
      | lock => exact hinited k h
      | recheck => simp [Guardian] at hx
      | init => simp [Guardian] at hx
      | store => simp [Guardian] at hx
      | clear => simp [Guardian] at hx

/-- Nobody else relies on `INIT_GUARD` while `t` has it. -/
theorem Excludes.alone (h : Excludes P Free Held w ph) (ht : Guardian (ph t)) {u : ι}
    (hne : u ≠ t) : ¬ Guardian (ph u) :=
  fun hu => hne (h.guardian u t hu ht)

/-- `pthread_mutex_init` meets storage nobody has touched. -/
theorem Excludes.untouched {k : κ} (h : Excludes P Free Held w ph) (hat : ph t = .taking k .init) :
    w.mutex k = P.zeroed := by
  have hstands := h.stands t
  have hguardian : Guardian (ph t) := by simp [hat, Guardian]
  rw [hat] at hstands
  obtain hzero | ⟨u, hu⟩ := h.fresh k hstands.2
  · exact hzero
  · have hne : u ≠ t := by
      rintro rfl
      rw [hat] at hu
      cases hu
    exact absurd (by simp [hu, Guardian]) (h.alone hguardian hne)

variable [DecidableEq ι]

/-- One thread moves, and the others can still rely on what they relied on. -/
theorem Excludes.move (h : Excludes P Free Held w ph) (hself : Stands Free Held w' x)
    (hothers : ∀ u, u ≠ t → Stands Free Held w' (ph u))
    (hguardian : Guardian x → ∀ u, u ≠ t → ¬ Guardian (ph u))
    (hsingle : ∀ k, x = .inside k → ∀ u, u ≠ t → ph u ≠ .inside k)
    (hready : ∀ k, w'.inited k = true →
      Free (w'.mutex k) ∨ ∃ u, Function.update ph t x u = .inside k)
    (hfresh : ∀ k, w'.inited k = false →
      w'.mutex k = P.zeroed ∨ ∃ u, Function.update ph t x u = .taking k .store) :
    Excludes P Free Held w' (Function.update ph t x) := by
  refine ⟨fun u => ?_, fun u v hu hv => ?_, fun u v k hu hv => ?_, hready, hfresh⟩
  · by_cases heq : u = t
    · subst heq
      rwa [Function.update_self]
    · rw [Function.update_of_ne heq]
      exact hothers u heq
  · by_cases hut : u = t
    · subst hut
      rw [Function.update_self] at hu
      by_contra hne
      rw [Function.update_of_ne (Ne.symm hne)] at hv
      exact hguardian hu v (Ne.symm hne) hv
    · rw [Function.update_of_ne hut] at hu
      by_cases hvt : v = t
      · subst hvt
        rw [Function.update_self] at hv
        exact absurd hu (hguardian hv u hut)
      · rw [Function.update_of_ne hvt] at hv
        exact h.guardian u v hu hv
  · by_cases hut : u = t
    · subst hut
      rw [Function.update_self] at hu
      by_contra hne
      rw [Function.update_of_ne (Ne.symm hne)] at hv
      exact hsingle k hu v (Ne.symm hne) hv
    · rw [Function.update_of_ne hut] at hu
      by_cases hvt : v = t
      · subst hvt
        rw [Function.update_self] at hv
        exact absurd hu (hsingle k hv u hut)
      · rw [Function.update_of_ne hvt] at hv
        exact h.single u v k hu hv

/-- A thread that is neither inside nor about to store stays so, and takes nothing from the rest. -/
theorem Excludes.still (h : Excludes P Free Held w ph)
    (hready : ∀ k, ph t ≠ .inside k) (hfresh : ∀ k, ph t ≠ .taking k .store) :
    (∀ k, w.inited k = true → Free (w.mutex k) ∨ ∃ u, Function.update ph t x u = .inside k) ∧
    (∀ k, w.inited k = false →
      w.mutex k = P.zeroed ∨ ∃ u, Function.update ph t x u = .taking k .store) := by
  refine ⟨fun k hk => ?_, fun k hk => ?_⟩
  · obtain hfree | ⟨u, hu⟩ := h.ready k hk
    · exact .inl hfree
    · have hne : u ≠ t := by
        rintro rfl
        exact hready k hu
      exact .inr ⟨u, by rwa [Function.update_of_ne hne]⟩
  · obtain hzero | ⟨u, hu⟩ := h.fresh k hk
    · exact .inl hzero
    · have hne : u ≠ t := by
        rintro rfl
        exact hfresh k hu
      exact .inr ⟨u, by rwa [Function.update_of_ne hne]⟩

/-- A step that does not write `INIT_GUARD`, an `inited` or a mutex. -/
theorem Excludes.look (h : Excludes P Free Held w ph) (hself : Stands Free Held w x)
    (hguardian : Guardian x → Guardian (ph t)) (hx : ∀ k, x ≠ .inside k)
    (hready : ∀ k, ph t ≠ .inside k) (hfresh : ∀ k, ph t ≠ .taking k .store) :
    Excludes P Free Held w (Function.update ph t x) := by
  obtain ⟨hready', hfresh'⟩ := h.still (x := x) hready hfresh
  refine h.move hself (fun u _ => h.stands u) (fun hg u hne hu => ?_) (fun k hk => ?_) hready' hfresh'
  · exact hne (h.guardian u t hu (hguardian hg))
  · exact absurd hk (hx k)

/-- `INIT_GUARD` was down. -/
theorem Excludes.guard {k : κ} (h : Excludes P Free Held w ph) (hat : ph t = .taking k .guard)
    (hdown : w.initGuard = false) :
    Excludes P Free Held { w with initGuard := true }
      (Function.update ph t (.taking k .recheck)) := by
  have hnobody : ∀ u, ¬ Guardian (ph u) := by
    intro u hu
    rw [(h.stands u).initGuard hu] at hdown
    cases hdown
  obtain ⟨hready, hfresh⟩ := h.still (x := .taking k .recheck) (t := t) (by simp [hat]) (by simp [hat])
  refine h.move rfl (fun u _ => ?_) (fun _ u _ => hnobody u) (by simp) hready hfresh
  exact (h.stands u).keep (hnobody u) (fun _ hk => hk) (fun _ _ hk => hk)

/-- The guardian lowers `INIT_GUARD` again. -/
theorem Excludes.clear {k : κ} (h : Excludes P Free Held w ph) (hat : ph t = .taking k .clear) :
    Excludes P Free Held { w with initGuard := false }
      (Function.update ph t (.taking k .lock)) := by
  have hguardian : Guardian (ph t) := by simp [hat, Guardian]
  have hself := h.stands t
  rw [hat] at hself
  obtain ⟨hready, hfresh⟩ := h.still (x := .taking k .lock) (t := t) (by simp [hat]) (by simp [hat])
  refine h.move hself.2 (fun u hne => ?_) (by simp [Guardian]) (by simp) hready hfresh
  exact (h.stands u).keep (h.alone hguardian hne) (fun _ hk => hk) (fun _ _ hk => hk)

variable [DecidableEq κ]

theorem Excludes.init {k : κ} (h : Excludes P Free Held w ph) (hP : P.Works Free Held)
    (hat : ph t = .taking k .init) :
    Excludes P Free Held { w with mutex := Function.update w.mutex k (P.init (w.mutex k)) }
      (Function.update ph t (.taking k .store)) := by
  have hguardian : Guardian (ph t) := by simp [hat, Guardian]
  have hself := h.stands t
  rw [hat] at hself
  obtain ⟨hup, hfalse⟩ := hself
  have hfree : Free (P.init (w.mutex k)) := by
    rw [h.untouched hat]
    exact hP.init
  obtain ⟨hready, hfresh⟩ := h.still (x := .taking k .store) (t := t) (by simp [hat]) (by simp [hat])
  refine h.move ⟨hup, hfalse, by simpa using hfree⟩ (fun u hne => ?_) (fun _ u => h.alone hguardian)
    (by simp) (fun j hj => ?_) (fun j hj => ?_)
  · refine (h.stands u).keep (h.alone hguardian hne) (fun _ hj => hj) (fun j hu hheld => ?_)
    have hin := h.stands u
    rw [hu] at hin
    have htrue : w.inited j = true := hin.1
    have hjk : j ≠ k := by
      rintro rfl
      rw [hfalse] at htrue
      cases htrue
    simpa only [Function.update_of_ne hjk] using hheld
  · have hjk : j ≠ k := by
      rintro rfl
      rw [hfalse] at hj
      cases hj
    simpa only [Function.update_of_ne hjk] using hready j hj
  · by_cases hjk : j = k
    · subst hjk
      exact .inr ⟨t, Function.update_self _ _ _⟩
    · simpa only [Function.update_of_ne hjk] using hfresh j hj

theorem Excludes.store {k : κ} (h : Excludes P Free Held w ph) (hat : ph t = .taking k .store) :
    Excludes P Free Held { w with inited := Function.update w.inited k true }
      (Function.update ph t (.taking k .clear)) := by
  have hguardian : Guardian (ph t) := by simp [hat, Guardian]
  have hself := h.stands t
  rw [hat] at hself
  obtain ⟨hup, -, hfree⟩ := hself
  refine h.move ⟨hup, Function.update_self _ _ _⟩ (fun u hne => ?_) (fun _ u => h.alone hguardian)
    (by simp) (fun j hj => ?_) (fun j hj => ?_)
  · refine (h.stands u).keep (h.alone hguardian hne) (fun j hj => ?_) (fun _ _ hheld => hheld)
    by_cases hjk : j = k
    · subst hjk
      exact Function.update_self _ _ _
    · simpa only [Function.update_of_ne hjk] using hj
  · by_cases hjk : j = k
    · subst hjk
      exact .inl hfree
    · simp only [Function.update_of_ne hjk] at hj
      obtain hj | ⟨u, hu⟩ := h.ready j hj
      · exact .inl hj
      · have hne : u ≠ t := by
          rintro rfl
          rw [hat] at hu
          cases hu
        exact .inr ⟨u, by rwa [Function.update_of_ne hne]⟩
  · have hjk : j ≠ k := by
      rintro rfl
      simp at hj
    simp only [Function.update_of_ne hjk] at hj
    obtain hj | ⟨u, hu⟩ := h.fresh j hj
    · exact .inl hj
    · have hne : u ≠ t := by
        rintro rfl
        rw [hat] at hu
        cases hu
        exact hjk rfl
      exact .inr ⟨u, by rwa [Function.update_of_ne hne]⟩

/-- A mutex that is in use changes, and only who is inside it relies on that. -/
theorem Stands.elsewhere {k : κ} {m : M} (h : Stands Free Held w x) (hinited : w.inited k = true)
    (hout : x ≠ .inside k) :
    Stands Free Held { w with mutex := Function.update w.mutex k m } x := by
  cases x with
  | out => trivial
  | inside j =>
      have hjk : j ≠ k := fun hjk => hout (by rw [hjk])
      refine ⟨h.1, ?_⟩
      simpa only [Function.update_of_ne hjk] using h.2
  | taking j place =>
      cases place with
      | store =>
          have hfalse : w.inited j = false := h.2.1
          have hjk : j ≠ k := by
            rintro rfl
            rw [hfalse] at hinited
            cases hinited
          refine ⟨h.1, hfalse, ?_⟩
          simpa only [Function.update_of_ne hjk] using h.2.2
      | load => trivial
      | guard => trivial
      | recheck => exact h
      | init => exact h
      | clear => exact h
      | lock => exact h

/-- The same for a whole step on a mutex in use: `t` goes in or comes out. -/
theorem Excludes.use {k : κ} {m : M} (h : Excludes P Free Held w ph)
    (hinited : w.inited k = true) (hguardian : ¬ Guardian x) (hstore : ∀ j, ph t ≠ .taking j .store)
    (hself : Stands Free Held { w with mutex := Function.update w.mutex k m } x)
    (halone : ∀ u, u ≠ t → ph u ≠ .inside k) (hx : ∀ j, x = .inside j → j = k)
    (ht : ∀ j, ph t = .inside j → j = k)
    (hready : Free m ∨ x = .inside k) :
    Excludes P Free Held { w with mutex := Function.update w.mutex k m }
      (Function.update ph t x) := by
  refine h.move hself (fun u hne => ?_) (fun hg => absurd hg hguardian) (fun j hj u hne => ?_)
    (fun j hj => ?_) (fun j hj => ?_)
  · exact (h.stands u).elsewhere hinited (halone u hne)
  · rw [hx j hj]
    exact halone u hne
  · by_cases hjk : j = k
    · subst hjk
      obtain hfree | hin := hready
      · exact .inl (by simpa using hfree)
      · exact .inr ⟨t, by rwa [Function.update_self]⟩
    · simp only [Function.update_of_ne hjk]
      obtain hfree | ⟨u, hu⟩ := h.ready j hj
      · exact .inl hfree
      · have hne : u ≠ t := by
          rintro rfl
          exact hjk (ht j hu)
        exact .inr ⟨u, by rwa [Function.update_of_ne hne]⟩
  · have hjk : j ≠ k := by
      rintro rfl
      rw [hinited] at hj
      cases hj
    simp only [Function.update_of_ne hjk]
    obtain hzero | ⟨u, hu⟩ := h.fresh j hj
    · exact .inl hzero
    · have hne : u ≠ t := by
        rintro rfl
        exact hstore j hu
      exact .inr ⟨u, by rwa [Function.update_of_ne hne]⟩

theorem Excludes.lock {k : κ} {m : M} (h : Excludes P Free Held w ph) (hP : P.Works Free Held)
    (hat : ph t = .taking k .lock) (hlock : P.lock (w.mutex k) = some m) :
    Excludes P Free Held { w with mutex := Function.update w.mutex k m }
      (Function.update ph t (.inside k)) := by
  have hinited := h.stands t
  rw [hat] at hinited
  have hnobody : ∀ u, ph u ≠ .inside k := by
    intro u hu
    have hin := h.stands u
    rw [hu] at hin
    rw [hP.park _ hin.2] at hlock
    cases hlock
  have hheld : Held m := by
    obtain hfree | ⟨u, hu⟩ := h.ready k hinited
    · exact hP.lock _ _ hfree hlock
    · exact absurd hu (hnobody u)
  exact h.use hinited (by simp [Guardian]) (by simp [hat]) ⟨hinited, by simpa using hheld⟩
    (fun u _ => hnobody u) (by simp) (by simp [hat]) (.inr rfl)

theorem Excludes.unlock {k : κ} (h : Excludes P Free Held w ph) (hP : P.Works Free Held)
    (hat : ph t = .inside k) :
    Excludes P Free Held (unlock P k w) (Function.update ph t .out) := by
  have hin := h.stands t
  rw [hat] at hin
  obtain ⟨hinited, hheld⟩ := hin
  refine h.use hinited (by simp [Guardian]) (by simp [hat]) trivial (fun u hne hu => ?_) (by simp)
    (by simp [hat]) (.inl (hP.unlock _ hheld))
  exact hne (h.single u t k hu hat)

theorem excludes (hP : P.Works Free Held) :
    (rawMutex P : Lock κ (Words κ M) Place).Excludes (ι := ι) (new P) (Excludes P Free Held) where
  init := ⟨fun _ => trivial, fun _ _ ht => ht.elim, by simp, by simp [new], by simp [new]⟩
  enter w ph t k h hout := h.look trivial (by simp [Guardian, rawMutex]) (by simp) (by simp [hout])
    (by simp [hout])
  wait w ph t k place w' place' h hat hgo := by
    have hself := h.stands t
    rw [hat] at hself
    cases place with
    | load =>
        simp only [rawMutex, PthreadMutex.lock, Option.some.injEq, Prod.mk.injEq] at hgo
        obtain ⟨rfl, rfl⟩ := hgo
        by_cases hinited : w.inited k = true
        · rw [if_pos hinited]
          exact h.look hinited (by simp [Guardian]) (by simp) (by simp [hat]) (by simp [hat])
        · rw [if_neg hinited]
          exact h.look trivial (by simp [Guardian]) (by simp) (by simp [hat]) (by simp [hat])
    | guard =>
        simp only [rawMutex, PthreadMutex.lock, Option.some.injEq, Prod.mk.injEq] at hgo
        obtain ⟨rfl, rfl⟩ := hgo
        by_cases hup : w.initGuard = true
        · have hsame : { w with initGuard := true } = w := by rw [← hup]
          rw [if_pos hup, hsame]
          exact h.look trivial (by simp [Guardian]) (by simp) (by simp [hat]) (by simp [hat])
        · rw [if_neg hup]
          exact h.guard hat (by simpa using hup)
    | recheck =>
        simp only [rawMutex, PthreadMutex.lock, Option.some.injEq, Prod.mk.injEq] at hgo
        obtain ⟨rfl, rfl⟩ := hgo
        by_cases hinited : w.inited k = true
        · rw [if_pos hinited]
          exact h.look ⟨hself, hinited⟩ (by simp [Guardian, hat]) (by simp) (by simp [hat])
            (by simp [hat])
        · rw [if_neg hinited]
          exact h.look ⟨hself, by simpa using hinited⟩ (by simp [Guardian, hat]) (by simp)
            (by simp [hat]) (by simp [hat])
    | init =>
        simp only [rawMutex, PthreadMutex.lock, Option.some.injEq, Prod.mk.injEq] at hgo
        obtain ⟨rfl, rfl⟩ := hgo
        exact h.init hP hat
    | store =>
        simp only [rawMutex, PthreadMutex.lock, Option.some.injEq, Prod.mk.injEq] at hgo
        obtain ⟨rfl, rfl⟩ := hgo
        exact h.store hat
    | clear =>
        simp only [rawMutex, PthreadMutex.lock, Option.some.injEq, Prod.mk.injEq] at hgo
        obtain ⟨rfl, rfl⟩ := hgo
        exact h.clear hat
    | lock =>
        simp only [rawMutex, PthreadMutex.lock, Option.map_eq_some_iff, Prod.mk.injEq] at hgo
        obtain ⟨m, -, -, hnone⟩ := hgo
        cases hnone
  acquire w ph t k place w' h hat hgo := by
    cases place with
    | lock =>
        simp only [rawMutex, PthreadMutex.lock, Option.map_eq_some_iff, Prod.mk.injEq] at hgo
        obtain ⟨m, hlock, rfl, -⟩ := hgo
        exact h.lock hP hat hlock
    | load => simp [rawMutex, PthreadMutex.lock] at hgo
    | guard => simp [rawMutex, PthreadMutex.lock] at hgo
    | recheck => simp [rawMutex, PthreadMutex.lock] at hgo
    | init => simp [rawMutex, PthreadMutex.lock] at hgo
    | store => simp [rawMutex, PthreadMutex.lock] at hgo
    | clear => simp [rawMutex, PthreadMutex.lock] at hgo
  release w ph t k h hat := h.unlock hP hat
  exclusive w ph t u k h ht hu := h.single t u k ht hu

end PthreadMutex

/-! ### Sections -/

/-- A shared counter: a section reads it, then writes it back, one more. -/
def increment : Code Unit fun _ => Nat :=
  .under () (.access (fun n => (n, n)) fun n => .access (fun _ => (n + 1, ())) fun _ => .done ())
    fun _ => .done

/-- Two threads take turns. -/
def turns (moves : List (Fin 2 × Nat)) : List (Fin 2 × Unit) :=
  moves.flatMap fun m => List.replicate m.2 (m.1, ())

/-- A system mutex that only knows its state. -/
inductive Storage where
  | zeroed
  | free
  | held
deriving DecidableEq

def stateMutex : Pthread Storage :=
  { zeroed := .zeroed
    init := fun _ => .free
    lock := fun m => if m = .held then none else some .held
    unlock := fun _ => .free }

theorem stateMutex_works : stateMutex.Works (· = .free) (· = .held) where
  init := rfl
  lock m m' hfree hlock := by
    subst hfree
    simpa [stateMutex] using hlock.symm
  park m hheld := by
    subst hheld
    rfl
  unlock m _ := rfl

section Atomic

variable {ι κ Op M : Type} [DecidableEq ι] [DecidableEq κ] {σ : κ → Type} {ops : Op → Code κ σ}
  {v : ∀ k, σ k}

/-- Under the spin mutex, threads that go through their sections access by access do what they would
do section by section, and no two of them are ever inside one lock. -/
theorem spin_sections_atomic {s : State ι κ (κ → Bool) SpinRaw.Place σ}
    (hr : Reach SpinRaw.rawMutex ops (State.idle SpinRaw.new v) s) :
    (∃ c, Resumption.Reach (whole ops) ⟨v, fun _ => .done () ()⟩ c ∧ Refines s c) ∧
      ∀ t u k, s.phases t = .inside k → s.phases u = .inside k → t = u := by
  refine ⟨hr.refines SpinRaw.excludes, fun t u k ht hu => ?_⟩
  exact SpinRaw.excludes.exclusive _ _ t u k (SpinRaw.excludes.reach hr) ht hu

/-- The second thread comes while the first has read the counter but not written it, and spins. -/
theorem spin_sections_atomic_pair :
    ∃ (s : State (Fin 2) Unit (Unit → Bool) SpinRaw.Place fun _ => Nat)
      (c : Resumption.Pool (Fin 2) (Unit → Nat) Unit Unit),
      (State.idle SpinRaw.new fun _ => 0).exec SpinRaw.rawMutex (fun _ => increment)
        (turns [(0, 4), (1, 5), (0, 2), (1, 6)]) = some s ∧ s.value () = 2 ∧
      Resumption.Reach (whole fun _ : Unit => increment) ⟨fun _ => 0, fun _ => .done () ()⟩ c ∧
      Refines s c ∧ ∀ t u k, s.phases t = .inside k → s.phases u = .inside k → t = u := by
  obtain ⟨s, hs, hvalue⟩ : ∃ s : State (Fin 2) Unit (Unit → Bool) SpinRaw.Place fun _ => Nat,
      (State.idle SpinRaw.new fun _ => 0).exec SpinRaw.rawMutex (fun _ => increment)
        (turns [(0, 4), (1, 5), (0, 2), (1, 6)]) = some s ∧ s.value () = 2 := ⟨_, rfl, rfl⟩
  obtain ⟨⟨c, hc, h⟩, hone⟩ := spin_sections_atomic (State.exec_reach hs)
  exact ⟨s, c, hs, hvalue, hc, h, hone⟩

/-- The same under the system's mutex. -/
theorem pthread_sections_atomic {P : Pthread M} {Free Held : M → Prop} (hP : P.Works Free Held)
    {s : State ι κ (PthreadMutex.Words κ M) PthreadMutex.Place σ}
    (hr : Reach (PthreadMutex.rawMutex P) ops (State.idle (PthreadMutex.new P) v) s) :
    (∃ c, Resumption.Reach (whole ops) ⟨v, fun _ => .done () ()⟩ c ∧ Refines s c) ∧
      ∀ t u k, s.phases t = .inside k → s.phases u = .inside k → t = u := by
  have hexcludes := PthreadMutex.excludes (κ := κ) (ι := ι) hP
  refine ⟨hr.refines hexcludes, fun t u k ht hu => ?_⟩
  exact hexcludes.exclusive _ _ t u k (hexcludes.reach hr) ht hu

/-- Both threads find the mutex not initialised, and one of them initialises it. -/
theorem pthread_sections_atomic_pair :
    ∃ (s : State (Fin 2) Unit (PthreadMutex.Words Unit Storage) PthreadMutex.Place fun _ => Nat)
      (c : Resumption.Pool (Fin 2) (Unit → Nat) Unit Unit),
      (State.idle (PthreadMutex.new stateMutex) fun _ => 0).exec (PthreadMutex.rawMutex stateMutex)
        (fun _ => increment) (turns [(0, 4), (1, 4), (0, 6), (1, 2), (0, 2), (1, 5)]) = some s ∧
      s.value () = 2 ∧
      Resumption.Reach (whole fun _ : Unit => increment) ⟨fun _ => 0, fun _ => .done () ()⟩ c ∧
      Refines s c ∧ ∀ t u k, s.phases t = .inside k → s.phases u = .inside k → t = u := by
  obtain ⟨s, hs, hvalue⟩ :
      ∃ s : State (Fin 2) Unit (PthreadMutex.Words Unit Storage) PthreadMutex.Place fun _ => Nat,
      (State.idle (PthreadMutex.new stateMutex) fun _ => 0).exec (PthreadMutex.rawMutex stateMutex)
        (fun _ => increment) (turns [(0, 4), (1, 4), (0, 6), (1, 2), (0, 2), (1, 5)]) = some s ∧
      s.value () = 2 := ⟨_, rfl, rfl⟩
  obtain ⟨⟨c, hc, h⟩, hone⟩ := pthread_sections_atomic stateMutex_works (State.exec_reach hs)
  exact ⟨s, c, hs, hvalue, hc, h, hone⟩

/-- Every call of the system's mutex is one it promises something about: `init` meets storage nobody
has touched, `lock` a mutex that is free or held, and `unlock` one that is held. -/
theorem pthread_calls_defined {P : Pthread M} {Free Held : M → Prop} (hP : P.Works Free Held)
    {s : State ι κ (PthreadMutex.Words κ M) PthreadMutex.Place σ}
    (hr : Reach (PthreadMutex.rawMutex P) ops (State.idle (PthreadMutex.new P) v) s) (t : ι) (k : κ) :
    (s.phases t = .taking k .init → s.words.mutex k = P.zeroed) ∧
    (s.phases t = .taking k .lock → Free (s.words.mutex k) ∨ Held (s.words.mutex k)) ∧
    (s.phases t = .inside k → Held (s.words.mutex k)) := by
  have h := (PthreadMutex.excludes hP).reach hr
  refine ⟨fun hat => h.untouched hat, fun hat => ?_, fun hat => ?_⟩
  · have hinited := h.stands t
    rw [hat] at hinited
    obtain hfree | ⟨u, hu⟩ := h.ready k hinited
    · exact .inl hfree
    · have hin := h.stands u
      rw [hu] at hin
      exact .inr hin.2
  · have hin := h.stands t
    rw [hat] at hin
    exact hin.2

/-- The second thread is about to initialise while the first one's turn has not come. -/
theorem pthread_calls_defined_pair :
    ∃ s : State (Fin 2) Unit (PthreadMutex.Words Unit Storage) PthreadMutex.Place fun _ => Nat,
      (State.idle (PthreadMutex.new stateMutex) fun _ => 0).exec (PthreadMutex.rawMutex stateMutex)
        (fun _ => increment) (turns [(0, 3), (1, 5)]) = some s ∧
      s.phases 1 = .taking () .init ∧ s.words.mutex () = .zeroed := by
  obtain ⟨s, hs, hat⟩ :
      ∃ s : State (Fin 2) Unit (PthreadMutex.Words Unit Storage) PthreadMutex.Place fun _ => Nat,
      (State.idle (PthreadMutex.new stateMutex) fun _ => 0).exec (PthreadMutex.rawMutex stateMutex)
        (fun _ => increment) (turns [(0, 3), (1, 5)]) = some s ∧
      s.phases 1 = .taking () .init := ⟨_, rfl, rfl⟩
  have h := pthread_calls_defined stateMutex_works (State.exec_reach hs) 1 ()
  exact ⟨s, hs, hat, h.1 hat⟩

end Atomic

end Allox
