import Allox.Telemetry

/-!
# Diagnostic counters

The events of a thread are counted in its cache and go out to the counters of the process in batches.
`note_diag` and `note_zeroed` end a batch after `DIAG_FLUSH_OPS` of their own calls, the other notes after
`FLUSH_OPS` operations. A note returns what it publishes.

The second half is who records that a large region was parked in the arena: `unmap_or_return` itself,
through the cache of the thread if that can be borrowed, or `flush_all` for the cache it empties.
`released` and `misjudged` are not in the code.
-/

namespace Allox

open Resumption

def diagFlushOps : Nat := 1024

/-- The counters that `publish_diagnostics` drains, in its order. -/
inductive Volume where
  | trims
  | flushes
  | flushBlocks
  | ownerProbes
  | remoteFrees
  | smallRefills
  | smallRefillBlocks
  | mediumRefills
  | mediumRefillBlocks
  | bigRefills
  | bigRefillBlocks
  | arenaFallbacks
  | arenaParks
  | reallocRelocations
  | reallocCopyBytes
  | reallocPromotions
  | zeroedCalls
  | zeroedBytes
  deriving DecidableEq

namespace Volume

def all : List Volume :=
  [trims, flushes, flushBlocks, ownerProbes, remoteFrees, smallRefills, smallRefillBlocks, mediumRefills,
    mediumRefillBlocks, bigRefills, bigRefillBlocks, arenaFallbacks, arenaParks, reallocRelocations,
    reallocCopyBytes, reallocPromotions, zeroedCalls, zeroedBytes]

/-- The counters of events; the others add up blocks and bytes, and parks come in batches. -/
def events : List Volume :=
  [trims, flushes, ownerProbes, remoteFrees, smallRefills, mediumRefills, bigRefills, arenaFallbacks,
    reallocRelocations, reallocPromotions, zeroedCalls]

end Volume

abbrev Batch := Volume → Nat

/-- `Pending`, without the half that `publish_telemetry` publishes. -/
structure DiagPending where
  ops : Nat
  diagOps : Nat
  count : Batch

namespace DiagPending

def new : DiagPending := { ops := 0, diagOps := 0, count := 0 }

def add (p : DiagPending) (f : Volume) (n : Nat) : DiagPending :=
  { p with count := Function.update p.count f (p.count f + n) }

def publishDiagnostics (p : DiagPending) : DiagPending × Batch :=
  ({ p with diagOps := 0, count := 0 }, p.count)

def publish (p : DiagPending) : DiagPending × Batch :=
  let (p, batch) := p.publishDiagnostics
  ({ p with ops := 0 }, batch)

/-- The end of `note_diag` and `note_zeroed`. -/
def tickDiag (p : DiagPending) : DiagPending × Batch :=
  let p := { p with diagOps := p.diagOps + 1 }
  if diagFlushOps ≤ p.diagOps then p.publishDiagnostics else (p, 0)

/-- The end of the other notes, which begin with `ops += 1`. -/
def tickOps (p : DiagPending) : DiagPending × Batch :=
  let p := { p with ops := p.ops + 1 }
  if flushOps ≤ p.ops then p.publish else (p, 0)

/-- `note_diag`. -/
def noteDiag (p : DiagPending) (f : Volume) (n : Nat) : DiagPending × Batch := (p.add f n).tickDiag

/-- Two notes in a row. -/
def noteTwo (p : DiagPending) (f : Volume) (n : Nat) (f' : Volume) (n' : Nat) : DiagPending × Batch :=
  let (p, batch) := p.noteDiag f n
  let (p, batch') := p.noteDiag f' n'
  (p, batch + batch')

def noteArenaEvent (p : DiagPending) (park : Bool) : DiagPending × Batch :=
  if park then p.noteDiag .arenaParks 1 else p.noteDiag .arenaFallbacks 1

def noteArenaParks (p : DiagPending) (count : Nat) : DiagPending × Batch :=
  p.noteDiag .arenaParks count

def noteFlush (p : DiagPending) (blocks : Nat) : DiagPending × Batch :=
  p.noteTwo .flushes 1 .flushBlocks blocks

def noteRealloc (p : DiagPending) (copied : Nat) (promoted : Bool) : DiagPending × Batch :=
  let p := (p.add .reallocRelocations 1).add .reallocCopyBytes copied
  (if promoted then p.add .reallocPromotions 1 else p).tickOps

def noteZeroed (p : DiagPending) (size : Nat) : DiagPending × Batch :=
  ((p.add .zeroedCalls 1).add .zeroedBytes size).tickDiag

end DiagPending

/-- Where the cache of a thread records something, apart from parks. -/
inductive Note where
  | trim
  | flush (blocks : Nat)
  | flushed (blocks : Nat)
  | ownerProbe
  | remoteFree
  | smallRefill (blocks : Nat)
  | mediumRefill (blocks : Nat)
  | bigRefill (blocks : Nat)
  | arenaFallback
  | realloc (copied : Nat) (promoted : Bool)
  | zeroed (size : Nat)
  | volume

/-- `volume` is `note_alloc` or `note_free` of any tier. -/
def Note.apply (n : Note) (p : DiagPending) : DiagPending × Batch :=
  match n with
  | trim => p.noteDiag .trims 1
  | flush blocks => p.noteFlush blocks
  | flushed blocks => p.noteDiag .flushBlocks blocks
  | ownerProbe => p.noteDiag .ownerProbes 1
  | remoteFree => p.noteDiag .remoteFrees 1
  | smallRefill blocks => p.noteTwo .smallRefills 1 .smallRefillBlocks blocks
  | mediumRefill blocks => p.noteTwo .mediumRefills 1 .mediumRefillBlocks blocks
  | bigRefill blocks => p.noteTwo .bigRefills 1 .bigRefillBlocks blocks
  | arenaFallback => p.noteArenaEvent false
  | realloc copied promoted => p.noteRealloc copied promoted
  | zeroed size => p.noteZeroed size
  | volume => p.tickOps

/-- What a note records of each counter. -/
def Note.recorded : Note → Batch
  | trim => Pi.single .trims 1
  | flush blocks => Pi.single .flushes 1 + Pi.single .flushBlocks blocks
  | flushed blocks => Pi.single .flushBlocks blocks
  | ownerProbe => Pi.single .ownerProbes 1
  | remoteFree => Pi.single .remoteFrees 1
  | smallRefill blocks => Pi.single .smallRefills 1 + Pi.single .smallRefillBlocks blocks
  | mediumRefill blocks => Pi.single .mediumRefills 1 + Pi.single .mediumRefillBlocks blocks
  | bigRefill blocks => Pi.single .bigRefills 1 + Pi.single .bigRefillBlocks blocks
  | arenaFallback => Pi.single .arenaFallbacks 1
  | realloc copied promoted => Pi.single .reallocRelocations 1 + Pi.single .reallocCopyBytes copied +
      Pi.single .reallocPromotions (if promoted then 1 else 0)
  | zeroed size => Pi.single .zeroedCalls 1 + Pi.single .zeroedBytes size
  | volume => 0

/-- What happens to the batch of a thread. An adopted cache was published when it retired, and the one
it takes the place of is published. -/
inductive DiagStep where
  | note (n : Note)
  | arenaPark
  | arenaParks (count : Nat)
  | publish
  | adopt

def DiagStep.apply : DiagStep → DiagPending → DiagPending × Batch
  | note n, p => n.apply p
  | arenaPark, p => p.noteArenaEvent true
  | arenaParks count, p => p.noteArenaParks count
  | publish, p => p.publish
  | adopt, p => (.new, p.publish.2)

def DiagStep.recorded : DiagStep → Batch
  | note n => n.recorded
  | arenaPark => Pi.single .arenaParks 1
  | arenaParks count => Pi.single .arenaParks count
  | publish => 0
  | adopt => 0

/-- A thread, with all it has recorded and published. -/
structure DiagState where
  pending : DiagPending
  recorded : Batch
  published : Batch

def DiagState.new : DiagState := { pending := .new, recorded := 0, published := 0 }

def DiagState.step (s : DiagState) (x : DiagStep) : DiagState :=
  { pending := (x.apply s.pending).1
    recorded := s.recorded + x.recorded
    published := s.published + (x.apply s.pending).2 }

/-! ### Who records a park -/

/-- A cache as far as `flush_all` sees it: the lengths of its lists, and the large regions in its stash,
each with its base and pages. -/
structure DiagCache where
  pending : DiagPending
  lists : List Nat
  stash : List (Nat × Nat)

def DiagCache.new : DiagCache := { pending := .new, lists := [], stash := [] }

/-- What a thread has in its TLS. -/
structure DiagThread where
  tls : TlsState
  cache : DiagCache

/-- The counters of the process and the retired caches. `misjudged` counts the regions whose park the two
places did not record just once. -/
structure DiagWorld where
  volume : Batch
  slots : List DiagCache
  released : Nat
  misjudged : Nat

/-- The slot that is tried, and whether there is a place for a retired cache. -/
structure DiagEnv where
  slot : Nat
  room : Bool

namespace Diagnostics

abbrev DiagAct := Act DiagWorld DiagThread DiagEnv

def bump (f : Volume) (n : Nat) : DiagAct Unit :=
  Act.atomic fun _ w => ({ w with volume := Function.update w.volume f (w.volume f + n) }, ())

def bumpUnlessZero (f : Volume) (n : Nat) : DiagAct Unit := if n = 0 then pure () else bump f n

/-- The drains of `publish_diagnostics`. -/
def drain (batch : Batch) : List Volume → DiagAct Unit
  | [] => pure ()
  | f :: rest => do
      bumpUnlessZero f (batch f)
      drain batch rest

/-- A note on a batch, and what it publishes. -/
def record (r : DiagPending × Batch) : DiagAct DiagPending := do
  drain r.2 Volume.all
  pure r.1

/-- `with`: the cache is active while it is borrowed. -/
def withCache (f : DiagAct Unit) : DiagAct Unit := do
  let own ← Act.get
  if own.tls = .free then do
    Act.modify fun own => { own with tls := .active }
    f
    Act.modify fun own => { own with tls := .free }
  else pure ()

/-- A note on the cache of the thread. -/
def noteOwn (n : DiagPending → DiagPending × Batch) : DiagAct Unit := do
  let own ← Act.get
  let p ← record (n own.cache.pending)
  Act.modify fun own => { own with cache := { own.cache with pending := p } }

section

-- `arena::contains`
variable (contains : Nat × Nat → Bool)

/-- `unmap_or_return`. `again` says that the caller counts what this returns. -/
def unmapOrReturn (region : Nat × Nat) (again : Bool) : DiagAct Bool := do
  if contains region then do
    let own ← Act.get
    Act.atomic fun _ w => ({ w with
      released := w.released + 1
      misjudged := w.misjudged + if decide (own.tls = .free) = again then 1 else 0 }, ())
    withCache (noteOwn fun p => p.noteArenaEvent true)
    pure true
  else pure false

/-- The loop of `flush_all` over the stash. -/
def releaseStash : List (Nat × Nat) → DiagAct Nat
  | [] => pure 0
  | region :: rest => do
      let parked ← unmapOrReturn contains region true
      let parks ← releaseStash rest
      pure (parks + if parked then 1 else 0)

/-- The flushes of the lists. -/
def flushLists (p : DiagPending) : List Nat → DiagAct DiagPending
  | [] => pure p
  | blocks :: rest => do
      let p ← record (p.noteFlush blocks)
      flushLists p rest

/-- `flush_all`, of the cache of this thread or of one that was taken out of the queue. -/
def flushAll (c : DiagCache) : DiagAct DiagCache := do
  let p ← flushLists c.pending c.lists
  let parks ← releaseStash contains c.stash
  let p ← record (p.noteArenaParks parks)
  let p ← record p.publish
  pure { pending := p, lists := [], stash := [] }

/-- `take_one`. -/
def takeOne : DiagAct (Option DiagCache) :=
  Act.atomic fun e w => ({ w with slots := w.slots.eraseIdx e.slot }, w.slots[e.slot]?)

def reclaimOne : DiagAct Bool := do
  match ← takeOne with
  | some c => do
      let _ ← flushAll contains c
      pure true
  | none => pure false

/-- `reclaim_all`, if it finds at most `n` caches. -/
def reclaimAll : Nat → DiagAct Unit
  | 0 => pure ()
  | n + 1 => do
      if ← reclaimOne contains then reclaimAll n else pure ()

/-- `flush_all` on the cache of the thread. -/
def flushOwn : DiagAct Unit := do
  let own ← Act.get
  let c ← flushAll contains own.cache
  Act.modify fun own => { own with cache := c }

/-- `flush_current_thread`. -/
def flush (n : Nat) : DiagAct Unit := do
  reclaimAll contains n
  withCache (flushOwn contains)

/-- The exit hook and `cache::retire`. A cache that holds no memory is dropped, one that holds too much
or finds no slot is flushed. -/
def retire : DiagAct Unit := do
  let own ← Act.get
  if own.tls = .free then do
    Act.modify fun _ => { tls := .retired, cache := .new }
    let p ← record own.cache.pending.publish
    let c := { own.cache with pending := p }
    if c.lists.isEmpty && c.stash.isEmpty then pure ()
    else do
      let parked ← Act.atomic fun e w => (if e.room then { w with slots := c :: w.slots } else w, e.room)
      if parked then pure ()
      else do
        let _ ← flushAll contains c
        pure ()
  else pure ()

/-- `reclaim_retired`: an empty cache adopts a retired one whole, any other takes over some of its bins
and flushes the `kept` lists. -/
def reclaimRetired (kept : List Nat) : DiagAct Unit := do
  match ← takeOne with
  | none => pure ()
  | some c => do
      let own ← Act.get
      if own.cache.lists.isEmpty && own.cache.stash.isEmpty then do
        Act.modify fun own => { own with cache := c }
        let _ ← record own.cache.pending.publish
        pure ()
      else do
        let p ← record c.pending.publish
        let _ ← flushAll contains { c with pending := p, lists := kept }
        pure ()

/-- `free_large`, where it gives the region up; and a region from the shards that `alloc_large_ex`
drops. -/
def freeLarge (region : Nat × Nat) : DiagAct Unit := do
  let _ ← unmapOrReturn contains region false
  pure ()

/-- `free_large`, where the stash takes the region. -/
def stashRegion (region : Nat × Nat) : DiagAct Unit :=
  withCache (Act.modify fun own =>
    { own with cache := { own.cache with stash := region :: own.cache.stash } })

/-- `alloc_large_ex` drops a region from the stash. -/
def dropStashed : DiagAct Unit := do
  let own ← Act.get
  match own.tls, own.cache.stash with
  | .free, region :: rest => do
      Act.modify fun own => { own with cache := { own.cache with stash := rest } }
      freeLarge contains region
  | _, _ => pure ()

end

/-- Anything else a borrowed cache records, and what becomes of its lists. -/
def work (n : Note) (lists : List Nat) : DiagAct Unit :=
  withCache do
    Act.modify fun own => { own with cache := { own.cache with lists } }
    noteOwn n.apply

/-- The installation of the exit hook may allocate and free while the cache is borrowed. -/
def enterHook : DiagAct Unit :=
  Act.modify fun own => if own.tls = .free then { own with tls := .active } else own

def leaveHook : DiagAct Unit :=
  Act.modify fun own => if own.tls = .active then { own with tls := .free } else own

end Diagnostics

inductive DiagOp where
  | work (n : Note) (lists : List Nat)
  | freeLarge (region : Nat × Nat)
  | stashRegion (region : Nat × Nat)
  | dropStashed
  | reclaimRetired (kept : List Nat)
  | flush (n : Nat)
  | retire
  | enterHook
  | leaveHook

def DiagOp.run (contains : Nat × Nat → Bool) : DiagOp → Diagnostics.DiagAct Unit
  | work n lists => Diagnostics.work n lists
  | freeLarge region => Diagnostics.freeLarge contains region
  | stashRegion region => Diagnostics.stashRegion region
  | dropStashed => Diagnostics.dropStashed contains
  | reclaimRetired kept => Diagnostics.withCache (Diagnostics.reclaimRetired contains kept)
  | flush n => Diagnostics.flush contains n
  | retire => Diagnostics.retire contains
  | enterHook => Diagnostics.enterHook
  | leaveHook => Diagnostics.leaveHook

def diagStart (ι : Type) : Pool ι DiagWorld DiagThread DiagEnv :=
  { shared := { volume := 0, slots := [], released := 0, misjudged := 0 }
    threads := fun _ => .done { tls := .free, cache := .new } () }

end Allox
