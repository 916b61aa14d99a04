import Allox.Lib.Critical

/-!
# The two mutexes

`Mutex<T>` sits on a `RawMutex`: a flag that is spun on where there is no `std`, and a
`pthread_mutex_t` that is initialised on first use where there is. Every atomic access is one step of
its own, in the order of the source; memory is sequentially consistent here.
-/

namespace Allox

open Critical

namespace SpinRaw

/-- Where `lock` stands, with its `spins`: at the `swap`, at the head of the inner loop, or behind
it. -/
inductive Place where
  | swap (spins : Nat)
  | spin (spins : Nat)
  | check (spins : Nat)
deriving DecidableEq

def spinLimit : Nat := 64

variable {κ : Type} [DecidableEq κ]

/-- One access of `locked`. -/
def lock (k : κ) : Place → (κ → Bool) → Option ((κ → Bool) × Option Place)
  | .swap spins, locked =>
      some (Function.update locked k true, if locked k then some (.spin spins) else none)
  | .spin spins, locked =>
      some (locked, some (if locked k && spins < spinLimit then .spin (spins + 1) else .check spins))
  | .check spins, locked =>
      -- still locked: the thread yields and starts counting again
      some (locked, some (.swap (if locked k then 0 else spins)))

def unlock (k : κ) (locked : κ → Bool) : κ → Bool := Function.update locked k false

def rawMutex : Lock κ (κ → Bool) Place :=
  { start := .swap 0, step := lock, unlock := unlock }

/-- `RawMutex::new` for every lock. -/
def new : κ → Bool := fun _ => false

end SpinRaw

/-- The system's mutex over storage of type `M`. `zeroed` is what `RawMutex::new` leaves there, and
`lock` has no result while the caller is parked. -/
structure Pthread (M : Type) where
  zeroed : M
  init : M → M
  lock : M → Option M
  unlock : M → M

/-- What the system promises for storage that went through `init` once: nothing is said about any
other. -/
structure Pthread.Works {M : Type} (P : Pthread M) (Free Held : M → Prop) : Prop where
  init : Free (P.init P.zeroed)
  lock : ∀ m m', Free m → P.lock m = some m' → Held m'
  park : ∀ m, Held m → P.lock m = none
  unlock : ∀ m, Held m → Free (P.unlock m)

namespace PthreadMutex

/-- `INIT_GUARD` is one for all mutexes. -/
structure Words (κ M : Type) where
  initGuard : Bool
  inited : κ → Bool
  mutex : κ → M

/-- Where `lock` stands: inside `ensure_init`, or at `pthread_mutex_lock`. -/
inductive Place where
  | load
  | guard
  | recheck
  | init
  | store
  | clear
  | lock
deriving DecidableEq

variable {κ M : Type} [DecidableEq κ]

def lock (P : Pthread M) (k : κ) : Place → Words κ M → Option (Words κ M × Option Place)
  | .load, w => some (w, some (if w.inited k then .lock else .guard))
  | .guard, w => some ({ w with initGuard := true }, some (if w.initGuard then .guard else .recheck))
  | .recheck, w => some (w, some (if w.inited k then .clear else .init))
  | .init, w => some ({ w with mutex := Function.update w.mutex k (P.init (w.mutex k)) }, some .store)
  | .store, w => some ({ w with inited := Function.update w.inited k true }, some .clear)
  | .clear, w => some ({ w with initGuard := false }, some .lock)
  | .lock, w =>
      (P.lock (w.mutex k)).map fun m => ({ w with mutex := Function.update w.mutex k m }, none)

def unlock (P : Pthread M) (k : κ) (w : Words κ M) : Words κ M :=
  { w with mutex := Function.update w.mutex k (P.unlock (w.mutex k)) }

def rawMutex (P : Pthread M) : Lock κ (Words κ M) Place :=
  { start := .load, step := lock P, unlock := unlock P }

/-- `RawMutex::new` for every lock. -/
def new (P : Pthread M) : Words κ M :=
  { initGuard := false, inited := fun _ => false, mutex := fun _ => P.zeroed }

end PthreadMutex

end Allox
