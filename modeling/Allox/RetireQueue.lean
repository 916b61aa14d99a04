import Allox.Lib.Resumption
import Allox.Cache
import Allox.Arena

/-!
# The retirement queue

Eight slots that a finished thread can leave its cache in, each with a state of its own, and a count of
the ready slots that takers read first. State and count are updated apart.

A cache is written to a slot, and read from it, in two steps, so that a write or a read that meets
another one shows. The numbers of the caches, the lists of what became of them and the two counters of
bad accesses are not in the code.
-/

namespace Allox

inductive SlotState where
  | empty
  | writing
  | ready
  | taking
  deriving DecidableEq

/-- The memory of a slot: the cache in it with its number, whether it was completely written, and
whether it is still to be read. -/
structure SlotCell where
  cache : ThreadCache
  ticket : Nat
  whole : Bool
  unread : Bool

structure RetireQueue where
  states : Fin retiredSlotCount → SlotState
  cells : Fin retiredSlotCount → SlotCell
  readyCount : Nat
  tickets : Nat
  entered : List (Nat × ThreadCache)
  flushed : List (Nat × ThreadCache)
  taken : List (Nat × ThreadCache)
  overwrites : Nat
  misreads : Nat

namespace RetireQueue

def new : RetireQueue :=
  { states := fun _ => .empty, cells := fun _ => ⟨.new, 0, false, false⟩, readyCount := 0,
    tickets := 0, entered := [], flushed := [], taken := [], overwrites := 0, misreads := 0 }

variable (q : RetireQueue) (i : Fin retiredSlotCount)

def setState (s : SlotState) : RetireQueue := { q with states := Function.update q.states i s }

def setCell (c : SlotCell) : RetireQueue := { q with cells := Function.update q.cells i c }

/-- A retired cache that holds memory gets its number. -/
def enter (c : ThreadCache) : RetireQueue :=
  { q with tickets := q.tickets + 1, entered := (q.tickets, c) :: q.entered }

/-- The thread flushes the cache it meant to retire. -/
def flush (x : Nat × ThreadCache) : RetireQueue := { q with flushed := x :: q.flushed }

def beginWrite : RetireQueue :=
  let cell := q.cells i
  let q := q.setCell i { cell with whole := false, unread := false }
  if cell.unread then { q with overwrites := q.overwrites + 1 } else q

def endWrite (x : Nat × ThreadCache) : RetireQueue := q.setCell i ⟨x.2, x.1, true, true⟩

/-- A read that finds no complete, unread cache is a bad one. -/
def beginRead : RetireQueue :=
  let cell := q.cells i
  if cell.whole && cell.unread then q else { q with misreads := q.misreads + 1 }

/-- So is one under which the cache has changed since it began. -/
def endRead (ticket : Nat) : RetireQueue :=
  let cell := q.cells i
  let q := { q.setCell i { cell with unread := false } with
    taken := (cell.ticket, cell.cache) :: q.taken }
  if cell.whole && cell.unread && cell.ticket == ticket then q
  else { q with misreads := q.misreads + 1 }

def addCount : RetireQueue := { q with readyCount := (q.readyCount + 1) % usizeLimit }

def subCount : RetireQueue := { q with readyCount := (q.readyCount + (usizeLimit - 1)) % usizeLimit }

end RetireQueue

open Resumption

abbrev QueueAct := Act RetireQueue Unit Unit

namespace QueueAct

def update (f : RetireQueue → RetireQueue) : QueueAct Unit := Act.atomic fun _ q => (f q, ())

def compareExchange (i : Fin retiredSlotCount) (old new : SlotState) : QueueAct Bool :=
  Act.atomic fun _ q => if q.states i = old then (q.setState i new, true) else (q, false)

/-- The slots of `retire` in order. -/
def retireInto (x : Nat × ThreadCache) : List (Fin retiredSlotCount) → QueueAct Unit
  | [] => update fun q => q.flush x
  | i :: rest => do
      if ← compareExchange i .empty .writing then do
        update fun q => q.beginWrite i
        update fun q => q.endWrite i x
        update fun q => q.setState i .ready
        update RetireQueue.addCount
      else retireInto x rest

/-- `retire`. -/
def retire (c : ThreadCache) : QueueAct Unit := do
  let bytes := min (c.cachedBytes + c.largeBytes) (usizeLimit - 1)
  if bytes = 0 then pure ()
  else do
    let n ← Act.atomic fun _ q => (q.enter c, q.tickets)
    if retiredSlotBytes < bytes then update fun q => q.flush (n, c)
    else retireInto (n, c) (List.finRange retiredSlotCount)

/-- The slots of `take_one` in order. -/
def takeFrom : List (Fin retiredSlotCount) → QueueAct (Option ThreadCache)
  | [] => pure none
  | i :: rest => do
      if ← compareExchange i .ready .taking then do
        let ticket ← Act.atomic fun _ q => (q.beginRead i, (q.cells i).ticket)
        let cache ← Act.atomic fun _ q => (q.endRead i ticket, (q.cells i).cache)
        update fun q => q.setState i .empty
        update RetireQueue.subCount
        pure (some cache)
      else takeFrom rest

/-- `take_one`. -/
def takeOne : QueueAct (Option ThreadCache) := do
  let ready ← Act.atomic fun _ q => (q, q.readyCount)
  if ready = 0 then pure none else takeFrom (List.finRange retiredSlotCount)

/-- `reclaim_one`; the flush of the cache it took leaves the queue alone. -/
def reclaimOne : QueueAct Bool := do
  match ← takeOne with
  | some _ => pure true
  | none => pure false

/-- `reclaim_all` for at most `rounds` rounds: did the loop end? -/
def reclaimAll : Nat → QueueAct Bool
  | 0 => pure false
  | rounds + 1 => do
      if ← reclaimOne then reclaimAll rounds else pure true

end QueueAct

inductive QueueOp where
  | retire (c : ThreadCache)
  | takeOne
  | reclaimOne
  | reclaimAll (rounds : Nat)

def QueueOp.run : QueueOp → QueueAct Unit
  | .retire c => QueueAct.retire c
  | .takeOne => do
      let _ ← QueueAct.takeOne
      pure ()
  | .reclaimOne => do
      let _ ← QueueAct.reclaimOne
      pure ()
  | .reclaimAll rounds => do
      let _ ← QueueAct.reclaimAll rounds
      pure ()

def queueStart (ι : Type) : Pool ι RetireQueue Unit Unit :=
  { shared := .new, threads := fun _ => .done () () }

end Allox
