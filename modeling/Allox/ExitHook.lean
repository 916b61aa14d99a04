import Allox.Lib.Resumption

/-!
# Arming the thread-exit hook

One OS key for the whole process, created by whoever brings `INSTALLING` up first, and a value set
under that key by every thread that wants its exit callback. The same protocol is written twice, once
over pthread keys and once over FLS indices, which report success in different ways.

The keys created, the numbers of registering calls, of calls with another key than the stored one and
of calls whose result was misread, and what a thread has registered are not in the code.
-/

namespace Allox

inductive HookBackend where
  | unix
  | windows
  deriving DecidableEq

def flsOutOfIndexes : Nat := 0xFFFFFFFF

namespace HookBackend

/-- What the OS documents as success of `pthread_key_create` and `FlsAlloc`, and what both backends
test for. -/
def created (code : Int) (key : Nat) : HookBackend → Bool
  | unix => code == 0
  | windows => key != flsOutOfIndexes

/-- What the OS documents as success of `pthread_setspecific` and `FlsSetValue`. -/
def registered (code : Int) : HookBackend → Bool
  | unix => code == 0
  | windows => code != 0

end HookBackend

structure HookWorld where
  key : Option Nat
  installing : Bool
  created : List Nat
  setCalls : Nat
  strays : Nat
  misread : Nat

/-- `exit_armed` of the thread's cache, whether a call of its registered it, and whether it called
again after that. -/
structure HookOwn where
  exitArmed : Bool
  registered : Bool
  again : Bool
  deriving DecidableEq

/-- What the OS answers: a result code, and a key where one is asked for. -/
structure HookEnv where
  code : Int
  key : Nat

namespace HookWorld

def new : HookWorld :=
  { key := none, installing := false, created := [], setCalls := 0, strays := 0, misread := 0 }

def createKey (b : HookBackend) (e : HookEnv) (w : HookWorld) : HookWorld × Option Nat :=
  if b.created e.code e.key then ({ w with created := e.key :: w.created }, some e.key)
  else (w, none)

/-- `OnceLock::set`, and the key that its caller goes on with: where there is one already, `set` gives
back the key it was called with. -/
def setKey (k : Nat) (w : HookWorld) : HookWorld × Nat :=
  match w.key with
  | none => ({ w with key := some k }, k)
  | some _ => (w, k)

/-- The registering call with key `k`: what `ensure_hook` makes of the code, and whether the call
succeeded. -/
def setValue (b : HookBackend) (k : Nat) (e : HookEnv) (w : HookWorld) : HookWorld × Bool × Bool :=
  let read := e.code == 0
  let succeeded := b.registered e.code
  ({ w with
      setCalls := w.setCalls + 1
      strays := if w.key = some k then w.strays else w.strays + 1
      misread := if read = succeeded then w.misread else w.misread + 1 }, read, succeeded)

end HookWorld

open Resumption

abbrev HookAct := Act HookWorld HookOwn HookEnv

namespace HookAct

def getKey : HookAct (Option Nat) := Act.atomic fun _ w => (w, w.key)

/-- `INSTALLING.compare_exchange(false, true)`. -/
def claimInstalling : HookAct Bool :=
  Act.atomic fun _ w => if w.installing then (w, false) else ({ w with installing := true }, true)

def storeInstalled : HookAct Unit :=
  Act.atomic fun _ w => ({ w with installing := false }, ())

/-- The spin until `INSTALLING` is down. -/
def waitInstalled : HookAct Unit :=
  Act.atomicOk (fun _ w => !w.installing) fun _ w => (w, ())

/-- A loop that has not ended yet. -/
def pending {α : Type} (a : α) : HookAct α := Act.atomicOk (fun _ _ => false) fun _ w => (w, a)

def register (b : HookBackend) (k : Nat) : HookAct Bool := do
  let (read, succeeded) ← Act.atomic fun e w => w.setValue b k e
  Act.modify fun own =>
    { own with registered := own.registered || succeeded, again := own.again || own.registered }
  pure read

/-- The key, under `INSTALLING`: looked up again, else created and stored. -/
def install (b : HookBackend) : HookAct (Option Nat) := do
  match ← getKey with
  | some k => pure (some k)
  | none => do
      match ← Act.atomic fun e w => w.createKey b e with
      | some k => do
          let stored ← Act.atomic fun _ w => w.setKey k
          pure (some stored)
      | none => pure none

/-- `ensure_hook`, its outer loop for at most `rounds` rounds so far. -/
def ensureHook (b : HookBackend) : Nat → HookAct Bool
  | 0 => pending false
  | rounds + 1 => do
      match ← getKey with
      | some k => register b k
      | none => do
          if ← claimInstalling then do
            let key ← install b
            storeInstalled
            match key with
            | some k => register b k
            | none => pure false
          else do
            waitInstalled
            ensureHook b rounds

/-- `arm_exit_hook`; the refresh of the budget is left out. -/
def armExitHook (b : HookBackend) (rounds : Nat) : HookAct Unit := do
  let own ← Act.get
  if own.exitArmed then pure ()
  else if ← ensureHook b rounds then Act.modify fun own => { own with exitArmed := true }
  else pure ()

/-- `dealloc` as far as the hook is concerned: `small` is the other half of `small_free_is_warm`. -/
def dealloc (b : HookBackend) (small : Bool) (rounds : Nat) : HookAct Unit := do
  let own ← Act.get
  if own.exitArmed && small then pure () else armExitHook b rounds

end HookAct

/-- A slow path that arms the hook, or a free. -/
inductive HookOp where
  | arm (rounds : Nat)
  | free (small : Bool) (rounds : Nat)

def HookOp.run (b : HookBackend) : HookOp → HookAct Unit
  | .arm rounds => HookAct.armExitHook b rounds
  | .free small rounds => HookAct.dealloc b small rounds

def hookStart (ι : Type) : Pool ι HookWorld HookOwn HookEnv :=
  { shared := .new, threads := fun _ => .done ⟨false, false, false⟩ () }

end Allox
