import Allox.Arena
import Allox.LargePlacement
import Allox.Lib.Residency

/-!
# The address space

Where memory comes from on unix. The system maps at addresses of its own choice, so `map` takes 64 KiB more
than it was asked for and gives both ends back. The arena reserves its range in the same way, once, behind
a guard. Between any two calls to the system other threads make theirs.
-/

namespace Allox

open Resumption Residency

/-- `mapped` says which bytes the system has mapped for the allocator. Ranges at rest are those that `map`
and `map_any` handed out, and those that the system refused to take back. -/
structure AddressSpace where
  mapped : Nat → Bool
  pages : List Stretch
  loose : List Stretch
  lost : List Stretch
  status : ArenaStatus
  start : Nat
  limit : Nat
  bump : Nat
  guard : Bool

/-- What the outside decides: where a mapping lands, whether a range is taken back, and which range at
rest an operation is called on. -/
structure MapEnv where
  raw : Option Nat
  accepted : Bool
  pick : Nat

abbrev MapAct := Act AddressSpace Unit MapEnv

namespace AddressSpace

def empty : AddressSpace :=
  { mapped := fun _ => false, pages := [], loose := [], lost := [], status := .uninit, start := 0,
    limit := 0, bump := 0, guard := false }

/-- The range of the arena, once it can be used. -/
def reservation (w : AddressSpace) : List Stretch :=
  match w.status with
  | .ready => [⟨w.start, w.limit - w.start⟩]
  | _ => []

/-- Where the system can map: at bytes that are not, and not at null. -/
def canMap (w : AddressSpace) (s : Stretch) : Bool :=
  decide (∀ i < s.len, w.mapped (s.start + i) = false) && 0 < s.start && s.start + s.len < usizeLimit

def add (w : AddressSpace) (s : Stretch) : AddressSpace :=
  { w with mapped := fun a => w.mapped a || s.has a }

def remove (w : AddressSpace) (s : Stretch) : AddressSpace :=
  { w with mapped := fun a => w.mapped a && !s.has a }

end AddressSpace

namespace MapAct

/-! ### The system -/

def mmap (len : Nat) : MapAct (Option Nat) :=
  Act.atomicOk
    (fun e w => e.raw.all fun p => w.canMap ⟨p, len⟩)
    fun e w =>
      match e.raw with
      | none => (w, none)
      | some p => (w.add ⟨p, len⟩, some p)

def munmap (s : Stretch) : MapAct Bool :=
  Act.atomic fun e w =>
    if e.accepted then (w.remove s, true) else ({ w with lost := s :: w.lost }, false)

/-- An end that is given back, if there is one; whether the system takes it is ignored. -/
def trim (s : Stretch) : MapAct Unit :=
  if s.len = 0 then pure ()
  else do
    let _ ← munmap s
    pure ()

/-! ### `sys::unix` -/

@[irreducible] def map (size : Nat) : MapAct (Option Nat) :=
  match checkedAdd size arenaAlign with
  | none => pure none
  | some total => do
      match ← mmap total with
      | none => pure none
      | some raw => do
          let aligned := alignUp raw arenaAlign
          let front := aligned - raw
          trim ⟨raw, front⟩
          trim ⟨aligned + size, total - front - size⟩
          pure (some aligned)

def mapAny (size : Nat) : MapAct (Option Nat) := mmap size

def unmap (s : Stretch) : MapAct Bool := munmap s

/-! ### `Arena::ensure_init` -/

def status : MapAct ArenaStatus := Act.atomic fun _ w => (w, w.status)

def setStatus (s : ArenaStatus) : MapAct Unit := Act.atomic fun _ w => ({ w with status := s }, ())

def setStart (a : Nat) : MapAct Unit := Act.atomic fun _ w => ({ w with start := a }, ())

def setLimit (a : Nat) : MapAct Unit := Act.atomic fun _ w => ({ w with limit := a }, ())

def setBump (a : Nat) : MapAct Unit := Act.atomic fun _ w => ({ w with bump := a }, ())

/-- The exchange that ends the spinning. -/
def enterGuard : MapAct Unit := Act.atomicOk (fun _ w => !w.guard) fun _ w => ({ w with guard := true }, ())

def leaveGuard : MapAct Unit := Act.atomic fun _ w => ({ w with guard := false }, ())

/-- The reservation, `size` bytes at a multiple of 64 KiB. -/
def reserve (size total : Nat) : MapAct Unit := do
  match ← mmap total with
  | none => setStatus .disabled
  | some raw => do
      let aligned := alignUp raw arenaAlign
      trim ⟨raw, aligned - raw⟩
      let tail := aligned + size
      trim ⟨tail, raw + total - tail⟩
      setStart aligned
      setLimit tail
      setBump 0
      setStatus .ready

/-- Under the guard. -/
def initOnce (size : Nat) : MapAct Bool := do
  if (← status) = .uninit then
    match checkedAdd size arenaAlign with
    | none => do
        setStatus .disabled
        leaveGuard
        pure false
    | some total => do
        reserve size total
        leaveGuard
        return (← status) = .ready
  else do
    leaveGuard
    return (← status) = .ready

def ensureInit (size : Nat) : MapAct Bool := do
  if (← status) = .ready then pure true
  else if (← status) = .disabled then pure false
  else do
    enterGuard
    initOnce size

/-! ### Ranges at rest -/

def keepPages (s : Stretch) : MapAct Unit := Act.atomic fun _ w => ({ w with pages := s :: w.pages }, ())

def keepLoose (s : Stretch) : MapAct Unit := Act.atomic fun _ w => ({ w with loose := s :: w.loose }, ())

def takePages : MapAct Stretch :=
  Act.atomicOk (fun e w => e.pick < w.pages.length) fun e w =>
    ({ w with pages := w.pages.eraseIdx e.pick }, w.pages.getD e.pick ⟨0, 0⟩)

def takeLoose : MapAct Stretch :=
  Act.atomicOk (fun e w => e.pick < w.loose.length) fun e w =>
    ({ w with loose := w.loose.eraseIdx e.pick }, w.loose.getD e.pick ⟨0, 0⟩)

end MapAct

inductive MapOp where
  | map (size : Nat)
  | mapAny (size : Nat)
  | unmapPages
  | unmapLoose
  | ensureInit

/-- The operations, of an arena of `size` bytes. -/
def MapOp.run (size : Nat) : MapOp → MapAct Unit
  | .map len => do
      match ← MapAct.map len with
      | some base => MapAct.keepPages ⟨base, len⟩
      | none => pure ()
  | .mapAny len => do
      match ← MapAct.mapAny len with
      | some base => MapAct.keepLoose ⟨base, len⟩
      | none => pure ()
  | .unmapPages => do
      let s ← MapAct.takePages
      let _ ← MapAct.unmap s
      pure ()
  | .unmapLoose => do
      let s ← MapAct.takeLoose
      let _ ← MapAct.unmap s
      pure ()
  | .ensureInit => do
      let _ ← MapAct.ensureInit size
      pure ()

/-- Nothing is mapped, and no thread has started. -/
def mapStart (ι : Type) : Pool ι AddressSpace Unit MapEnv :=
  { shared := .empty, threads := fun _ => .done () () }

end Allox
