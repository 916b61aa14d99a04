import Mathlib.Data.BitVec
import Allox.Lib.Resumption
import Allox.Classes

/-!
# Telemetry

A thread counts the packed blocks it allocates and frees in its cache and publishes the batch now and
then; large regions are counted at once. Without a cache, because it is retired or busy, a request is
served from the shared heaps directly.

Which block a call gets or is about is for the outside to decide, and so is whether there is memory.
`live` has the blocks in the hands of the program, `uncounted` the calls that changed them behind the
counters' back; neither is in the code. The counters of single classes and the sampled peak are left
out. A cache is published when it retires, so adopting one moves blocks and no counts.
-/

namespace Allox

open Resumption

def flushOps : Nat := 8192

abbrev Counter := BitVec 64

inductive PackedClass where
  | small (c : Fin numClasses)
  | span (t : SpanTier) (c : Fin t.num)

def PackedClass.size : PackedClass → Nat
  | small c => classSize c
  | span t c => t.blockSize c

/-- A large region records the size it was asked for; `current` is the size the program asked for
last. -/
inductive LiveBlock where
  | packed (c : PackedClass)
  | large (requested current : Nat)

/-- The size it is accounted for. -/
def LiveBlock.accounted : LiveBlock → Nat
  | packed c => c.size
  | large _ current => current

structure Telemetry where
  totalAllocs : Counter
  totalFrees : Counter
  bytesIn : Counter
  bytesOut : Counter
  largeAllocs : Counter
  live : List LiveBlock
  uncounted : Nat

structure Pending where
  ops : Nat
  allocs : Counter
  frees : Counter
  bytesIn : Counter
  bytesOut : Counter
  deriving DecidableEq

def Pending.new : Pending := { ops := 0, allocs := 0, frees := 0, bytesIn := 0, bytesOut := 0 }

/-- `TLS_FREE`, `TLS_ACTIVE` and `TLS_RETIRED`. -/
inductive TlsState where
  | free
  | active
  | retired
  deriving DecidableEq

structure CountingCache where
  tls : TlsState
  pending : Pending

structure TelemetryEnv where
  pick : Nat
  found : Bool

namespace Telemetry

def new : Telemetry :=
  { totalAllocs := 0, totalFrees := 0, bytesIn := 0, bytesOut := 0, largeAllocs := 0, live := [],
    uncounted := 0 }

abbrev TelemetryAct := Act Telemetry CountingCache TelemetryEnv

/-! ### Counting -/

def addAllocs (n : Counter) : TelemetryAct Unit :=
  Act.atomic fun _ w => ({ w with totalAllocs := w.totalAllocs + n }, ())

def addFrees (n : Counter) : TelemetryAct Unit :=
  Act.atomic fun _ w => ({ w with totalFrees := w.totalFrees + n }, ())

def addBytesIn (n : Counter) : TelemetryAct Unit :=
  Act.atomic fun _ w => ({ w with bytesIn := w.bytesIn + n }, ())

def addBytesOut (n : Counter) : TelemetryAct Unit :=
  Act.atomic fun _ w => ({ w with bytesOut := w.bytesOut + n }, ())

def unlessZero (n : Counter) (add : Counter → TelemetryAct Unit) : TelemetryAct Unit :=
  if n = 0 then pure () else add n

/-- `publish_telemetry`. -/
def publish : TelemetryAct Unit := do
  let own ← Act.get
  unlessZero own.pending.allocs addAllocs
  unlessZero own.pending.frees addFrees
  unlessZero own.pending.bytesIn addBytesIn
  unlessZero own.pending.bytesOut addBytesOut
  Act.modify fun own => { own with pending := .new }

/-- The common end of the notes: one operation more, and the batch goes out when it is full. -/
def noteOp (f : Pending → Pending) : TelemetryAct Unit := do
  Act.modify fun own => { own with pending := { f own.pending with ops := own.pending.ops + 1 } }
  let own ← Act.get
  if flushOps ≤ own.pending.ops then publish else pure ()

/-- `note_alloc`, `note_alloc_medium` and `note_alloc_big`. -/
def noteAlloc (c : PackedClass) : TelemetryAct Unit :=
  noteOp fun p => { p with allocs := p.allocs + 1, bytesIn := p.bytesIn + c.size }

/-- `note_free`, `note_free_medium` and `note_free_big`. -/
def noteFree (c : PackedClass) : TelemetryAct Unit :=
  noteOp fun p => { p with frees := p.frees + 1, bytesOut := p.bytesOut + c.size }

def noteLargeAlloc (size : Nat) : TelemetryAct Unit := do
  Act.atomic fun _ w => ({ w with largeAllocs := w.largeAllocs + 1 }, ())
  addAllocs 1
  addBytesIn size

def noteLargeFree (requested : Nat) : TelemetryAct Unit := do
  addFrees 1
  addBytesOut requested

def noteLargeGrowth (oldSize newSize : Nat) : TelemetryAct Unit :=
  unlessZero (newSize - oldSize : Nat) addBytesIn

/-! ### Blocks -/

/-- Whether the heap has memory. -/
def findMemory : TelemetryAct Bool := Act.atomic fun e w => (w, e.found)

/-- The program calls with a live block of the `want`ed kind, and has it in its hands for the call. -/
def pick (want : LiveBlock → Bool) : TelemetryAct LiveBlock :=
  Act.atomicOk (fun e w => (w.live[e.pick]?).any want) fun e w =>
    ({ w with live := w.live.eraseIdx e.pick }, w.live.getD e.pick (.large 0 0))

/-- The call returns with the block. -/
def settle (b : LiveBlock) : TelemetryAct Unit :=
  Act.atomic fun _ w => ({ w with live := b :: w.live }, ())

def passUncounted : TelemetryAct Unit :=
  Act.atomic fun _ w => ({ w with uncounted := w.uncounted + 1 }, ())

/-- `with_cache`. -/
def withCache {α : Type} (cached fallback : TelemetryAct α) : TelemetryAct α := do
  let own ← Act.get
  if own.tls = .free then cached else fallback

/-- `alloc` of the thread cache, or `take_one_*`: the block, or null. -/
def takePacked (c : PackedClass) : TelemetryAct Bool :=
  withCache
    (do
      if ← findMemory then do
        noteAlloc c
        pure true
      else pure false)
    (do
      if ← findMemory then do
        passUncounted
        pure true
      else pure false)

/-- `dealloc` of the thread cache, or the fallback beside it. -/
def releasePacked (c : PackedClass) : TelemetryAct Unit :=
  withCache (noteFree c) passUncounted

/-- `alloc_large_ex`. -/
def allocLarge (size : Nat) : TelemetryAct (Option LiveBlock) := do
  if ← findMemory then do
    noteLargeAlloc size
    pure (some (.large size size))
  else pure none

/-- `alloc_impl` for a size of class `c`; only a big block falls back to a large region. -/
def allocImpl (c : PackedClass) (size : Nat) : TelemetryAct (Option LiveBlock) := do
  if ← takePacked c then pure (some (.packed c))
  else
    match c with
    | .span .big _ => allocLarge size
    | _ => pure none

/-- `dealloc_impl` and `dealloc_with_layout`. -/
def release : LiveBlock → TelemetryAct Unit
  | .packed c => releasePacked c
  | .large requested _ => noteLargeFree requested

/-- `note_realloc`, without its own counters. -/
def noteRealloc : TelemetryAct Unit := withCache (noteOp id) (pure ())

/-- What a call returned, if anything, is in the hands of the program. -/
def settleSome : Option LiveBlock → TelemetryAct Unit
  | some b => settle b
  | none => pure ()

/-! ### Calls -/

/-- An allocation of class `c`, or of a large region when there is none. -/
def alloc (request : Option PackedClass) (size : Nat) : TelemetryAct (Option LiveBlock) :=
  match request with
  | some c => allocImpl c size
  | none => allocLarge size

def malloc (request : Option PackedClass) (size : Nat) : TelemetryAct Unit := do
  let b ← alloc request size
  settleSome b

def free : TelemetryAct Unit := do
  let b ← pick fun _ => true
  release b

/-- `realloc` by allocation, copy and free. -/
def relocate (request : Option PackedClass) (size : Nat) : TelemetryAct Unit := do
  let old ← pick fun _ => true
  match ← alloc request size with
  | some b => do
      noteRealloc
      release old
      settle b
  | none => settle old

/-- `realloc_small`: both halves under one visit of the cache. -/
def relocateSmall (c : Fin numClasses) : TelemetryAct Unit := do
  let old ← pick fun b => match b with
    | .packed (.small _) => true
    | _ => false
  let moved ← withCache
    (do
      if ← findMemory then do
        noteAlloc (.small c)
        match old with
        | .packed k => noteFree k
        | .large _ _ => pure ()
        pure true
      else pure false)
    (do
      if ← findMemory then do
        passUncounted
        pure true
      else pure false)
  if moved then do
    noteRealloc
    settle (.packed (.small c))
  else settle old

/-- `try_promote_big_grow`; its fallback is `relocate`. -/
def promoteBigGrow (size : Nat) : TelemetryAct Unit := do
  let old ← pick fun b => match b with
    | .packed (.span .big _) => true
    | _ => false
  match ← allocLarge size with
  | some b => do
      noteRealloc
      release old
      settle b
  | none => settle old

/-- `try_grow_large_frontier`, where the region has room or gets it. -/
def growLarge (size : Nat) : TelemetryAct Unit := do
  let old ← pick fun b => match b with
    | .large _ _ => true
    | _ => false
  match old with
  | .large requested current =>
      if size ≤ requested then settle (.large requested current)
      else do
        noteLargeGrowth requested size
        settle (.large size size)
  | b => settle b

/-- The same-class shortcut of `realloc_slow` for sizes of one big class, taken by a region that is
large: its header is not told. -/
def reuseSameBigClass (size : Nat) : TelemetryAct Unit := do
  let old ← pick fun b => match b with
    | .large _ _ => true
    | _ => false
  match old with
  | .large requested current =>
      if size = current then settle (.large requested current)
      else do
        passUncounted
        settle (.large requested size)
  | b => settle b

/-- `flush_current_thread`. -/
def flush : TelemetryAct Unit := withCache publish (pure ())

/-- The exit hook: the cache is not borrowed any more, and its last batch goes out. -/
def retire : TelemetryAct Unit := do
  let own ← Act.get
  if own.tls = .free then do
    Act.modify fun own => { own with tls := .retired }
    publish
  else pure ()

/-- The installation of the exit hook may allocate while the cache is borrowed. -/
def enterHook : TelemetryAct Unit :=
  Act.modify fun own => if own.tls = .free then { own with tls := .active } else own

def leaveHook : TelemetryAct Unit :=
  Act.modify fun own => if own.tls = .active then { own with tls := .free } else own

end Telemetry

inductive TelemetryOp where
  | malloc (request : Option PackedClass) (size : Nat)
  | free
  | relocate (request : Option PackedClass) (size : Nat)
  | relocateSmall (c : Fin numClasses)
  | promoteBigGrow (size : Nat)
  | growLarge (size : Nat)
  | reuseSameBigClass (size : Nat)
  | flush
  | retire
  | enterHook
  | leaveHook

def TelemetryOp.run : TelemetryOp → Telemetry.TelemetryAct Unit
  | malloc request size => Telemetry.malloc request size
  | free => Telemetry.free
  | relocate request size => Telemetry.relocate request size
  | relocateSmall c => Telemetry.relocateSmall c
  | promoteBigGrow size => Telemetry.promoteBigGrow size
  | growLarge size => Telemetry.growLarge size
  | reuseSameBigClass size => Telemetry.reuseSameBigClass size
  | flush => Telemetry.flush
  | retire => Telemetry.retire
  | enterHook => Telemetry.enterHook
  | leaveHook => Telemetry.leaveHook

def telemetryStart (ι : Type) : Pool ι Telemetry CountingCache TelemetryEnv :=
  { shared := .new, threads := fun _ => .done { tls := .free, pending := .new } () }

end Allox
