import Allox.World

/-!
# The allocator at work

What a thread does, section by section: refills, trims and flushes, the frees, the retirement of a
cache at thread exit and its adoption, and the large regions. `Op` lists what a thread may start.

A loop whose end depends on the cache runs on a count that the cache bounds. Ownership words and
telemetry are left out: where an owner word is looked at, the outside answers.
-/

namespace Allox

open Resumption

namespace Sys

/-! ### Taking from the heaps -/

/-- `GlobalHeap::take_blocks`. -/
def takeSmall (cls : Fin numClasses) : Sys Fill := do
  let f ← onSmall fun _ h => h.takeLocked cls
  if f.count ≠ 0 then pure f
  else
    match ← mapExtent .small pageSize with
    | some raw => onSmall fun _ h => h.takeMapped cls raw f
    | none => pure { f with virgin := false }

/-- `MediumHeap::take_blocks` and `BigHeap::take_blocks`. -/
def takeSpans (t : SpanTier) (cls : Fin t.num) : Sys Fill := do
  let f ← onSpans t fun _ arena h => h.takeLocked arena cls
  if f.count ≠ 0 then pure f
  else
    match ← mapExtent (.span t) (t.spanPages cls * pageSize) with
    | some raw => onSpans t fun _ arena h => (h.carveMapped arena cls raw).takeMapped cls raw f
    | none => pure { f with virgin := false }

/-! ### Giving back to the heaps -/

/-- `act_page_fate`, `mact_fate`, `bact_fate`, after the lock. -/
def actFates (use : Purpose) : List (Nat × Fate) → Sys Unit :=
  each fun x =>
    match x.2 with
    | .unmap bytes => unmapExtent ⟨x.1, bytes, use⟩
    | _ => pure ()

def releaseBatchLen : Nat := 128

/-- `chunks(BATCH)`, at most `n` of them. -/
def batches {α : Type} : Nat → List α → List (List α)
  | 0, _ => []
  | _ + 1, [] => []
  | n + 1, x :: l =>
      (x :: l).take releaseBatchLen :: batches n ((x :: l).drop releaseBatchLen)

/-- `GlobalHeap::release_many`. -/
def releaseMany (cls : Fin numClasses) (chunks : List PageReleaseChunk) : Sys Unit :=
  each (fun batch => do
    let fates ← onSmall fun e h => SmallHeap.releaseBatch cls h e.discards batch
    actFates .small fates) (batches chunks.length chunks)

/-- `release_blocks(PageHeader::of(p), p, 1)`. -/
def releaseOne (p : Nat) : Sys Unit := do
  let fate ← onSmall fun e h =>
    h.releaseInner (h.header (pageOf p)).cls (e.discards 0) ⟨pageOf p, [p], p, 1⟩
  actFates .small [(pageOf p, fate)]

/-- `MediumHeap::release_blocks` under the class that the caller names, and `BigHeap::release_blocks`
under the class of the span. -/
def releaseSpan (t : SpanTier) (cls : Fin t.num) (x : ReleaseChunk) : Sys Unit := do
  let fate ← onSpans t fun e arena h =>
    h.releaseInner arena (if t = .big then (h.master x.span).cls else cls) (e.discards 0) x
  actFates (.span t) [(x.span, fate)]

/-- `MediumHeap::release_many`; `flush_bbin` releases its groups one by one. -/
def releaseGroups (t : SpanTier) (cls : Fin t.num) (groups : List ReleaseChunk) : Sys Unit :=
  match t with
  | .medium => do
      let fates ← onSpans .medium fun e arena h =>
        SpanHeap.releaseBatch arena cls h e.discards groups
      actFates (.span .medium) fates
  | .big => each (releaseSpan .big cls) groups

/-- `SpanMaster::of` or `big_table_get`. -/
def spanOf (t : SpanTier) (p : Nat) : Sys Nat := onSpans t fun _ _ h => (h, h.masterOf p)

/-! ### Flushing -/

def flushBinLoop (k : Slot) (cls : Fin numClasses) (floor : Nat) : Nat → Sys Unit
  | 0 => pure ()
  | n + 1 => do
      let own ← cache k
      if (own.bins cls).len ≤ floor then pure ()
      else
        let (left, groups) := own.flushPops cls floor flushChunk []
        putCache k left
        releaseMany cls groups
        if groups.isEmpty then pure () else flushBinLoop k cls floor n

/-- `flush_bin`. -/
def flushBin (k : Slot) (cls : Fin numClasses) (floor : Nat) : Sys Unit := do
  let own ← cache k
  flushBinLoop k cls floor (own.bins cls).len

/-- `flush_bin_exit`. -/
def flushBinExit (k : Slot) (cls : Fin numClasses) : Sys Unit := do
  let own ← cache k
  let bin := own.bins cls
  if bin.len = 0 then pure ()
  else if flushChunk < bin.len then flushBin k cls 0
  else
    let chain := bin.blocks.take bin.len
    putCache k (own.dropBin cls)
    let fates ← onSmall fun e h =>
      h.releaseBinChunks cls e.discards chain (ThreadCache.countPages chain)
    actFates .small fates

/-- `flush_active_medium` and `flush_active_big`. -/
def flushActive (k : Slot) (t : SpanTier) (cls : Fin t.num) : Sys Unit := do
  let own ← cache k
  let a := own.active t cls
  if (t = .big && a.span = 0) || a.list.blocks.isEmpty || a.list.len = 0 then
    if t = .big then putCache k (own.setActive t cls .empty) else pure ()
  else
    putCache k (own.dropActive t cls)
    releaseSpan t cls ⟨a.span, a.list.blocks, a.list.blocks.getLast?.getD 0, a.list.len⟩

/-- The inner loop of `flush_mbin` and `flush_bbin`, at most `n` pops. -/
def flushSpanPops (k : Slot) (t : SpanTier) (cls : Fin t.num) (floor : Nat) :
    Nat → List ReleaseChunk → Sys (List ReleaseChunk)
  | 0, groups => pure groups
  | n + 1, groups => do
      let own ← cache k
      if (own.spanBins t cls).len ≤ floor then pure groups
      else
        match own.popSpanBin t cls with
        | none => pure groups
        | some (b, _, left) => do
            putCache k left
            let span ← spanOf t b
            flushSpanPops k t cls floor n (ThreadCache.addToSpan groups span b)

def flushSpanBinLoop (k : Slot) (t : SpanTier) (cls : Fin t.num) (floor : Nat) : Nat → Sys Unit
  | 0 => pure ()
  | n + 1 => do
      let own ← cache k
      if (own.spanBins t cls).len ≤ floor then pure ()
      else
        let groups ← flushSpanPops k t cls floor t.flushChunk []
        releaseGroups t cls groups
        if groups.isEmpty then pure () else flushSpanBinLoop k t cls floor n

/-- `flush_mbin` and `flush_bbin`. -/
def flushSpanBin (k : Slot) (t : SpanTier) (cls : Fin t.num) (floor : Nat) : Sys Unit := do
  let own ← cache k
  flushSpanBinLoop k t cls floor (own.spanBins t cls).len

/-- The stash at the end of `flush_all`. An entry leaves the stash before its region is unmapped, in
the code right after. -/
def flushStash (k : Slot) : Sys Unit := do
  let own ← cache k
  each (fun i => do
    let own ← cache k
    let (base, pages) := own.large i
    if base = 0 then pure ()
    else
      putCache k { own with large := Function.update own.large i (0, 0) }
      unmapExtent ⟨base, pages * pageSize, .large⟩) (List.range own.largeLen)
  let own ← cache k
  putCache k { own with largeLen := 0, largeBytes := 0 }

/-- `flush_all`. -/
def flushAll (k : Slot) : Sys Unit := do
  each (fun cls => do
    let own ← cache k
    if (own.bins cls).blocks.isEmpty then pure () else flushBinExit k cls) (List.finRange numClasses)
  each (fun cls => do
    let own ← cache k
    if (own.active .medium cls).list.blocks.isEmpty then pure () else flushActive k .medium cls)
    (List.finRange SpanTier.medium.num)
  each (fun cls => do
    let own ← cache k
    if (own.spanBins .medium cls).blocks.isEmpty then pure () else flushSpanBin k .medium cls 0)
    (List.finRange SpanTier.medium.num)
  each (fun cls => do
    let own ← cache k
    if (own.active .big cls).list.blocks.isEmpty then pure () else flushActive k .big cls
    let own ← cache k
    if (own.spanBins .big cls).blocks.isEmpty then pure () else flushSpanBin k .big cls 0)
    (List.finRange SpanTier.big.num)
  let own ← cache k
  putCache k own.resetLists
  flushStash k

/-! ### Budget, exit hook, trim -/

def refreshBudget (k : Slot) : Sys Unit := do
  let epoch ← read World.budgetEpoch
  let own ← cache k
  if own.budgetEpoch ≠ epoch then
    let budget ← read World.cacheBudget
    putCache k { own with budget, budgetEpoch := epoch }
  else pure ()

/-- `arm_exit_hook` and `install_exit_hook`. -/
def armExitHook (k : Slot) : Sys Unit := do
  let own ← cache k
  if own.exitArmed then pure ()
  else
    refreshBudget k
    let installed ← ask
    let own ← cache k
    putCache k { own with exitArmed := own.exitArmed || installed }

/-- One round of `trim`; false when nothing is left to flush. -/
def trimRound (own : ThreadCache) : Sys Bool :=
  match own.bestBin, own.bestActive .medium, own.bestActive .big, own.bestSpanBin .big,
    own.bestSpanBin .medium with
  | some (cls, _), _, _, _, _ => do
      flushBin .self cls ((own.bins cls).len / 2)
      pure true
  | none, some (cls, _), _, _, _ => do
      flushActive .self .medium cls
      pure true
  | none, none, some (cls, _), _, _ => do
      flushActive .self .big cls
      pure true
  | none, none, none, big, medium =>
      match big.filter fun b => (medium.map Prod.snd).getD 0 < b.2, medium with
      | some (cls, _), _ => do
          flushSpanBin .self .big cls ((own.spanBins .big cls).len / 2)
          pure true
      | none, some (cls, _) => do
          flushSpanBin .self .medium cls ((own.spanBins .medium cls).len / 2)
          pure true
      | none, none => pure false

def trimLoop (target : Nat) : Nat → Sys Unit
  | 0 => pure ()
  | n + 1 => do
      let own ← cache .self
      if own.cachedBytes ≤ target then pure ()
      else if ← trimRound own then trimLoop target n else pure ()

/-- Every round flushes at least one byte. -/
def trim : Sys Unit := do
  armExitHook .self
  refreshBudget .self
  let own ← cache .self
  let allowance := min own.tierCachedBytes (ThreadCache.twice own.budget)
  trimLoop (own.budget / 2 + allowance) own.cachedBytes

def shed : Sys Unit := do
  trim
  let own ← cache .self
  putCache .self { own with foreignBytes := 0 }

/-! ### The queue of retired caches -/

/-- The slots of `take_one` in order. The slot is the taker's from the exchange of its state on. -/
def takeFrom : List (Fin retiredSlotCount) → Sys Bool
  | [] => pure false
  | i :: rest => do
      let found ← Act.atomic fun _ w =>
        match w.retired i with
        | .ready c => ({ w with retired := Function.update w.retired i .taking }, some c)
        | _ => (w, none)
      match found with
      | some c => do
          putCache .adopted c
          Act.atomic fun _ w => ({ w with retired := Function.update w.retired i .empty }, ())
          Act.atomic fun _ w => ({ w with readyCount := w.readyCount - 1 }, ())
          pure true
      | none => takeFrom rest

def takeOne : Sys Bool := do
  let ready ← read World.readyCount
  if ready = 0 then pure false else takeFrom (List.finRange retiredSlotCount)

/-- The retired cache goes out of scope; by then it holds nothing. -/
def dropAdopted : Sys Unit := putCache .adopted .new

/-- `reclaim_one`. -/
def reclaimOne : Sys Bool := do
  if ← takeOne then
    flushAll .adopted
    dropAdopted
    pure true
  else pure false

/-- Whole adoption: `mem::replace`. The cache replaced is empty. -/
def adoptWhole : Sys Unit :=
  Act.modify fun l =>
    Function.update (Function.update l .self ((l .self).adopt (l .adopted))) .adopted .new

/-- The part of a retired cache whose bins are empty here, the rest goes back. -/
def adoptPart : Sys Unit := do
  Act.modify fun l =>
    let (dst, src) := (l .self).stealEmptyBins (l .adopted)
    Function.update (Function.update l .self dst) .adopted src
  flushAll .adopted
  dropAdopted

def reclaimRetired : Sys Unit := do
  let own ← cache .self
  if own.retiredReclaimed then pure ()
  else
    let whole ←
      if own.cachedBytes = 0 && own.largeLen = 0 then takeOne else pure false
    if whole then adoptWhole
    else
      let reclaimed ←
        if ← takeOne then do
          adoptPart
          pure true
        else reclaimOne
      let own ← cache .self
      putCache .self { own with retiredReclaimed := own.retiredReclaimed || reclaimed }

/-- The slots of `retire` in order. -/
def retireInto : List (Fin retiredSlotCount) → Sys Unit
  | [] => do
      flushAll .adopted
      dropAdopted
  | i :: rest => do
      let won ← Act.atomic fun _ w =>
        match w.retired i with
        | .empty => ({ w with retired := Function.update w.retired i .writing }, true)
        | _ => (w, false)
      if won then
        let own ← cache .adopted
        dropAdopted
        Act.atomic fun _ w => ({ w with retired := Function.update w.retired i (.ready own) }, ())
        Act.atomic fun _ w => ({ w with readyCount := w.readyCount + 1 }, ())
      else retireInto rest

/-- The exit hook: the cache is moved out of its thread. -/
def retire : Sys Unit := do
  Act.modify fun l => Function.update (Function.update l .adopted (l .self)) .self .new
  let own ← cache .adopted
  let bytes := own.cachedBytes + own.largeBytes
  if bytes = 0 then dropAdopted
  else if retiredSlotBytes < bytes then
    flushAll .adopted
    dropAdopted
  else retireInto (List.finRange retiredSlotCount)

/-! ### Small blocks -/

def refill (cls : Fin numClasses) : Sys (Option (Nat × Bool)) := do
  armExitHook .self
  refreshBudget .self
  reclaimRetired
  let own ← cache .self
  match own.popSmall cls with
  | some (p, zeroed, left) => do
      putCache .self left
      pure (some (p, zeroed))
  | none => do
      if own.budget / 2 < own.smallCachedBytes then trim else pure ()
      let f ← takeSmall cls
      match f.chain with
      | [] => pure none
      | first :: rest => do
          let own ← cache .self
          putCache .self (own.fillSmall cls rest f.count f.virgin)
          pure (some (first, f.virgin))

/-- `ThreadCache::alloc` and `alloc_zeroed`, which adds whether the block reads as zero past its link. -/
def allocZeroed (cls : Fin numClasses) : Sys (Option (Nat × Bool)) := do
  let own ← cache .self
  match own.popSmall cls with
  | some (p, zeroed, left) => do
      putCache .self left
      pure (some (p, zeroed))
  | none => refill cls

/-- `take_one_small`: without a thread cache all blocks but one go straight back. -/
def takeOneSmall (cls : Fin numClasses) : Sys (Option (Nat × Bool)) := do
  let f ← takeSmall cls
  match f.chain with
  | [] => pure none
  | first :: rest => do
      each releaseOne (rest.take (f.count - 1))
      pure (some (first, f.virgin))

def deallocCold (p : Nat) (cls : Fin numClasses) : Sys Unit := do
  armExitHook .self
  let own ← cache .self
  let foreign ← if own.driftGateOpenSmall own.budget then ask else pure false
  let size := classSize cls
  let own := { own with foreignBytes := own.foreignBytes + if foreign then size else 0 }
  putCache .self (own.pushSmall cls p)
  if (own.pushSmall cls p).shouldShedSmall own.budget then shed else pure ()

/-- `ThreadCache::dealloc`. -/
def dealloc (p : Nat) (cls : Fin numClasses) : Sys Unit := do
  let own ← cache .self
  if own.smallFreeIsWarm then
    putCache .self (own.pushSmall cls p)
    if (own.pushSmall cls p).shouldShedSmall own.budget then shed else pure ()
  else deallocCold p cls

/-! ### Medium and big blocks -/

/-- The two pops that open the allocation, and again `mrefill` and `bigrefill`. -/
def popSpan (t : SpanTier) (cls : Fin t.num) : Sys (Option (Nat × Bool)) := do
  let own ← cache .self
  let (got, own) := own.activeAlloc t cls
  putCache .self own
  match got with
  | some r => pure (some r)
  | none =>
      match own.popSpanBin t cls with
      | some (p, zeroed, left) => do
          putCache .self left
          pure (some (p, zeroed))
      | none => pure none

/-- The span of each block of a refill. -/
def spansOf (t : SpanTier) : List Nat → Sys (List Nat)
  | [] => pure []
  | b :: rest => do
      let s ← spanOf t b
      let more ← spansOf t rest
      pure (s :: more)

/-- All blocks are of one span. -/
def singleSpan : List Nat → Bool
  | [] => false
  | s :: rest => s ≠ 0 && rest.all (· == s)

/-- `mrefill` and `bigrefill`. -/
def refillSpan (t : SpanTier) (cls : Fin t.num) : Sys (Option (Nat × Bool)) := do
  armExitHook .self
  refreshBudget .self
  reclaimRetired
  match ← popSpan t cls with
  | some r => pure (some r)
  | none => do
      let own ← cache .self
      if own.budget / 2 < own.smallCachedBytes then trim else pure ()
      let own ← cache .self
      if t = .big && ThreadCache.twice own.budget < own.tierCachedBytes then trim else pure ()
      let f ← takeSpans t cls
      match f.chain with
      | [] => pure none
      | first :: rest => do
          let spans ← spansOf t f.chain
          if singleSpan spans then
            let span := spans.headD 0
            let bytes ← onSpans t fun _ _ h => (h, (h.master span).mappedBytes)
            let own ← cache .self
            putCache .self (own.fillActive t cls span bytes rest f.count f.virgin)
          else
            let own ← cache .self
            putCache .self (own.fillSpanBin t cls rest f.count f.virgin)
          pure (some (first, f.virgin))

/-- `alloc_medium_zeroed` and `alloc_big_zeroed`. -/
def allocSpanZeroed (t : SpanTier) (cls : Fin t.num) : Sys (Option (Nat × Bool)) := do
  match ← popSpan t cls with
  | some r => pure (some r)
  | none => refillSpan t cls

/-- `release_blocks` of a single block, under its span. -/
def releaseOneSpan (t : SpanTier) (cls : Fin t.num) (p : Nat) : Sys Unit := do
  let span ← spanOf t p
  releaseSpan t cls ⟨span, [p], p, 1⟩

/-- `take_one_medium` and `take_one_big`. -/
def takeOneSpan (t : SpanTier) (cls : Fin t.num) : Sys (Option (Nat × Bool)) := do
  let f ← takeSpans t cls
  match f.chain with
  | [] => pure none
  | first :: rest => do
      each (releaseOneSpan t cls) (rest.take (f.count - 1))
      pure (some (first, f.virgin))

/-- Not in the code: is the block really of the span it is pushed for? -/
def noteStray (t : SpanTier) (p span : Nat) : Sys Unit :=
  Act.atomic fun _ w =>
    ({ w with strayed := w.strayed || (w.spans t).masterOf p ≠ span }, ())

/-- `dealloc_medium`, and `dealloc_big` with the span the side table gave. -/
def deallocSpan (t : SpanTier) (cls : Fin t.num) (p span : Nat) : Sys Unit := do
  armExitHook .self
  let own ← cache .self
  let foreign ← if own.driftGateOpen then ask else pure false
  let size := t.blockSize cls
  let pushed ←
    if own.activeContains t cls p span then do
      noteStray t p (own.active t cls).span
      pure (own.activeDealloc t cls p)
    else pure (own.binDealloc t cls p)
  let own := pushed.addTierCached size
  let own := { own with foreignBytes := own.foreignBytes + if foreign then size else 0 }
  putCache .self own
  if own.shouldShed then shed else pure ()

/-! ### Large regions -/

/-- A region for the request: the header goes right before the pointer, or the region is too small once
aligned and is dropped. -/
def useRegion (base bytes size align : Nat) (zeroed : Sys Bool) : Sys (Option (Nat × Bool)) :=
  let ret := alignUp (base + largeHeaderSize) align
  if ret + size ≤ base + bytes then do
    let known ← zeroed
    Act.atomic fun _ w => (w.registerRegion (ret - largeHeaderSize) base bytes size, ())
    pure (some (ret, known))
  else do
    unmapExtent ⟨base, bytes, .large⟩
    pure none

/-- `purge_for_handoff`. -/
def purgeForHandoff : Sys Bool := Act.atomic fun e w => (w, (e.discards 0).zeroed)

/-- Tier 1 of `alloc_large_ex`. -/
def fromStash (pages size align : Nat) (zeroed : Bool) : Sys (Option (Nat × Bool)) := do
  armExitHook .self
  let own ← cache .self
  match own.takeLargeStash pages with
  | some ((base, pages), left) => do
      putCache .self left
      useRegion base (pages * pageSize) size align (if zeroed then purgeForHandoff else pure false)
  | none => pure none

/-- Tiers 2 and 3. -/
def fromShard (mapped size align : Nat) (zeroed : Bool) : Sys (Option (Nat × Bool)) := do
  let taken ← Act.atomic fun e w =>
    let i := largeShard (mapped / pageSize) e.salt
    let (s, taken) := (w.shards i).takeFit mapped
    ({ w with shards := Function.update w.shards i s }, taken)
  match taken with
  | some x =>
      useRegion x.base (x.pages * pageSize) size align
        (if zeroed && !x.zeroed then purgeForHandoff else pure x.zeroed)
  | none => pure none

/-- A mapping of its own. -/
def fromMapping (mapped size align : Nat) : Sys (Option (Nat × Bool)) := do
  match ← mapExtent .large mapped with
  | some base => useRegion base mapped size align (pure true)
  | none => pure none

/-- `alloc_large_ex`: the pointer, and whether the region is known to read as zero. -/
def allocLargeEx (tls : Bool) (size align : Nat) (zeroed : Bool) (slack : Nat) :
    Sys (Option (Nat × Bool)) := do
  let total := max (size + align + largeHeaderSize + slack) largeHeaderSize
  if 2 ^ 64 ≤ total + (pageSize - 1) then pure none
  else
    let mapped := alignUp total pageSize
    let stashed ←
      if tls then fromStash (mapped / pageSize % 2 ^ 32) size align zeroed else pure none
    match stashed with
    | some r => pure (some r)
    | none => do
        match ← fromShard mapped size align zeroed with
        | some r => pure (some r)
        | none => fromMapping mapped size align

/-- `free_large`. -/
def freeLarge (tls : Bool) (p : Nat) : Sys Unit := do
  let (base, mapped) ← Act.atomic fun _ w =>
    let g := w.header (p - largeHeaderSize)
    (w.unregisterRegion (p - largeHeaderSize) g.base g.mappedSize, (g.base, g.mappedSize))
  let pages := mapped / pageSize % 2 ^ 32
  let stashed ←
    if tls then do
      armExitHook .self
      let own ← cache .self
      match own.pushLargeStash base pages with
      | some left => do
          putCache .self left
          pure true
      | none => pure false
    else pure false
  if stashed then pure ()
  else
    let fate ← Act.atomic fun e w =>
      let i := largeShard pages e.salt
      let (s, fate) := (w.shards i).park (e.discards 0) base pages mapped
      ({ w with shards := Function.update w.shards i s }, fate)
    actFates .large [(base, fate)]

end Sys

namespace World

/-- The largest power of two that divides the address. -/
def pointerAlignment (p : Nat) : Nat := if p = 0 then 1 else p &&& (2 ^ 64 - p)

/-- What `try_grow_large_frontier` has to do: refuse, use the slack of the mapping, or extend it. -/
inductive Growth where
  | refuse
  | slack
  | extend (mapped : Nat)
  deriving DecidableEq

def growth (w : World) (p size : Nat) : Growth :=
  if !w.arena p 1 || w.largeTableGet p = 0 then .refuse
  else
    let g := w.header (p - largeHeaderSize)
    if g.mappedSize < p - g.base || size ≤ g.requestedSize then .refuse
    else if size ≤ g.mappedSize - (p - g.base) then .slack
    else
      let total := size + pointerAlignment p + largeHeaderSize
      let newMapped := alignUp (max total largeHeaderSize) pageSize
      if 2 ^ 64 ≤ total || newMapped ≤ g.mappedSize ||
          2 ^ 32 ≤ newMapped / pageSize - g.mappedSize / pageSize then .refuse
      else .extend newMapped

/-- The frontier can be moved over the pages behind the region. -/
def canExtend (w : World) (base oldMapped newMapped : Nat) : Bool :=
  w.canMap ⟨base + oldMapped, newMapped - oldMapped, .large⟩
    && w.arena (base + oldMapped) (newMapped - oldMapped)

def resizeHeader (w : World) (hdr : Nat) (g : LargeHeader) : World :=
  { w with headers := Function.update w.headers hdr (some g) }

/-- The region at `p` grows to `newMapped` bytes in place. -/
def extendRegion (w : World) (p newMapped size : Nat) : World :=
  let hdr := p - largeHeaderSize
  let g := w.header hdr
  let w := w.resizeHeader hdr { g with mappedSize := newMapped, requestedSize := size }
  let w := w.setLargeTable (g.base + g.mappedSize)
    (newMapped / pageSize - g.mappedSize / pageSize) hdr
  { w with
    mapped := ⟨g.base, newMapped, .large⟩ :: w.mapped.erase ⟨g.base, g.mappedSize, .large⟩ }

end World

namespace Sys

/-- `try_grow_large_frontier`, by the owner of the region. The header, the table words of the added
pages and the frontier are the owner's meanwhile, so this is one section. -/
def growLarge (p size : Nat) : Sys Bool :=
  Act.atomicOk
    (fun e w =>
      match w.growth p size with
      | .extend newMapped =>
          let g := w.header (p - largeHeaderSize)
          !e.granted || w.canExtend g.base g.mappedSize newMapped
      | _ => true)
    fun e w =>
      let g := w.header (p - largeHeaderSize)
      match w.growth p size with
      | .refuse => (w, false)
      | .slack => (w.resizeHeader (p - largeHeaderSize) { g with requestedSize := size }, true)
      | .extend newMapped =>
          if e.granted then (w.extendRegion p newMapped size, true) else (w, false)

/-! ### Operations -/

/-- The block, if there is one, becomes the user's. -/
def handOut (kind : Kind) (got : Option (Nat × Bool)) : Sys Unit :=
  match got with
  | some (p, _) => giveLive ⟨p, kind⟩
  | none => pure ()

/-- A free, by the heap the block is of. -/
def freeKind (tls : Bool) (p : Nat) : Kind → Sys Unit
  | .small cls => if tls then dealloc p cls else releaseOne p
  | .span .medium cls =>
      if tls then deallocSpan .medium cls p 0 else releaseOneSpan .medium cls p
  | .span .big cls => do
      let span ← spanOf .big p
      if tls then
        let cls ← onSpans .big fun _ _ h => (h, (h.master span).cls)
        deallocSpan .big cls p span
      else releaseSpan .big cls ⟨span, [p], p, 1⟩
  | .large => freeLarge tls p

end Sys

/-- `tls` says whether the thread cache can be used. An alignment is given by its exponent. -/
inductive Op where
  | allocSmall (tls : Bool) (cls : Fin numClasses)
  | allocSpan (tls : Bool) (t : SpanTier) (cls : Fin t.num)
  | allocLarge (tls : Bool) (size alignLog : Nat) (zeroed : Bool) (slack : Nat)
  | free (tls : Bool) (p : Nat)
  | grow (p size : Nat)
  | setBudget (bytes : Nat)
  | flush
  | reclaim
  | exit

def Op.run : Op → Sys Unit
  | .allocSmall tls cls => do
      Sys.handOut (.small cls) (← if tls then Sys.allocZeroed cls else Sys.takeOneSmall cls)
  | .allocSpan tls t cls => do
      Sys.handOut (.span t cls)
        (← if tls then Sys.allocSpanZeroed t cls else Sys.takeOneSpan t cls)
  | .allocLarge tls size alignLog zeroed slack => do
      Sys.handOut .large (← Sys.allocLargeEx tls size (2 ^ alignLog) zeroed slack)
  | .free tls p => do
      match ← Sys.claimLive p with
      | some kind => Sys.freeKind tls p kind
      | none => pure ()
  | .grow p size => do
      match ← Sys.claimLive p with
      | some .large => do
          let _ ← Sys.growLarge p size
          Sys.giveLive ⟨p, .large⟩
      | some kind => Sys.giveLive ⟨p, kind⟩
      | none => pure ()
  | .setBudget bytes => do
      Act.atomic fun _ w => ({ w with cacheBudget := max bytes (refillBatch * 16) }, ())
      Act.atomic fun _ w => ({ w with budgetEpoch := (w.budgetEpoch + 1) % 2 ^ 32 }, ())
  | .flush => Sys.flushAll .self
  | .reclaim => do
      let _ ← Sys.reclaimOne
      pure ()
  | .exit => Sys.retire

end Allox
