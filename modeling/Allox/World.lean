import Allox.Cache
import Allox.Lib.Resumption

/-!
# The shared state

The heaps, the shards and headers of the large regions, the queue of retired caches, and the address
space under all of it. A section is one critical section of a lock, or one atomic access.

Where a mapping lands is for the outside to choose: in the arena or off it, but on nothing that is
mapped. For the arena that is what the ownership of its slices says. Off it the system may refuse to
unmap, and the code forgets the range all the same. What is mapped, what was refused and which blocks
are live is not recorded anywhere in the code.
-/

namespace Allox

open Resumption

/-- What a mapped extent is used for. -/
inductive Purpose where
  | small
  | span (t : SpanTier)
  | large
  deriving DecidableEq

structure Mapping where
  base : Nat
  len : Nat
  use : Purpose
  deriving DecidableEq

/-- Which heap handed a live block out. -/
inductive Kind where
  | small (c : Fin numClasses)
  | span (t : SpanTier) (c : Fin t.num)
  | large
  deriving DecidableEq

structure Live where
  addr : Nat
  kind : Kind
  deriving DecidableEq

/-- A slot with its state word. -/
inductive RetiredSlot where
  | empty
  | writing
  | ready (cache : ThreadCache)
  | taking

structure World where
  arenaStart : Nat
  arenaEnd : Nat
  small : SmallHeap
  spans : (t : SpanTier) → SpanHeap t
  shards : Fin numLargeShards → LargeRegionCache
  headers : Nat → Option LargeHeader
  largeTable : Nat → Nat
  registry : Nat → List Nat
  retired : Fin retiredSlotCount → RetiredSlot
  readyCount : Int
  cacheBudget : Nat
  budgetEpoch : Nat
  mapped : List Mapping
  /-- Still mapped, after an unmapping that was refused. -/
  refused : List Mapping
  live : List Live
  /-- A block was pushed on an active list whose recorded span it is not of. Not in the code. -/
  strayed : Bool

/-- What the outside chooses: the mapping, what the discards report, the address of the thread cache
that salts the shard, and the answer of a probe or an unmapping. -/
structure Env where
  granted : Bool
  base : Nat
  discards : Nat → Discarded
  salt : Nat
  answer : Bool

/-- The cache a thread owns, and the retired one that a function of it holds by value. -/
inductive Slot where
  | self
  | adopted
  deriving DecidableEq

instance : Fintype Slot := ⟨{.self, .adopted}, fun k => by cases k <;> simp⟩

abbrev Caches := Slot → ThreadCache

abbrev Sys := Act World Caches Env

def Mapping.disjoint (a b : Mapping) : Bool := a.base + a.len ≤ b.base || b.base + b.len ≤ a.base

namespace World

/-- `arena::contains`. -/
def arena (w : World) (base : Nat) (len : Nat) : Bool :=
  w.arenaEnd ≠ 0 && w.arenaStart ≤ base && base + len ≤ w.arenaEnd

/-- The alignment a mapping comes with. A region off the arena is placed by the kernel's pages. -/
def mapAlign (w : World) (m : Mapping) : Nat :=
  if m.use = .large && !w.arena m.base m.len then 4096 else pageSize

/-- A mapping may appear at `m`. Big spans exist in the arena only. -/
def canMap (w : World) (m : Mapping) : Bool :=
  m.base ≠ 0 && m.base % w.mapAlign m = 0 && m.base + m.len ≤ 2 ^ 47
    && (w.arena m.base m.len || m.base + m.len ≤ w.arenaStart || w.arenaEnd ≤ m.base)
    && (m.use ≠ .span .big || w.arena m.base m.len)
    && (w.mapped ++ w.refused).all m.disjoint

def init (arenaStart arenaEnd : Nat) : World :=
  { arenaStart
    arenaEnd
    small := .new
    spans := fun _ => .new
    shards := fun _ => .new
    headers := fun _ => none
    largeTable := fun _ => 0
    registry := fun _ => []
    retired := fun _ => .empty
    readyCount := 0
    cacheBudget := defaultThreadCacheBudget
    budgetEpoch := 0
    mapped := []
    refused := []
    live := []
    strayed := false }

/-- `m` is given up, and the system takes it or does not. -/
def unmap (w : World) (m : Mapping) (taken : Bool) : World :=
  { w with
    mapped := w.mapped.erase m
    refused := if taken || m ∉ w.mapped then w.refused else m :: w.refused }

def setSpans (w : World) (t : SpanTier) (h : SpanHeap t) : World :=
  { w with spans := Function.update w.spans t h }

/-! ### Large regions -/

def header (w : World) (hdr : Nat) : LargeHeader := (w.headers hdr).getD ⟨0, 0, 0⟩

/-- `large_table_set` and `large_table_clear`. -/
def setLargeTable (w : World) (base pages : Nat) (value : Nat) : World :=
  { w with largeTable := fun u =>
      if base / pageSize ≤ u ∧ u < base / pageSize + pages then value else w.largeTable u }

/-- `init_large_header` and `register_large_region`. -/
def registerRegion (w : World) (hdr base mapped requested : Nat) : World :=
  let w := { w with headers := Function.update w.headers hdr (some ⟨mapped, base, requested⟩) }
  if w.arena base mapped then w.setLargeTable base (mapped / pageSize) hdr
  else
    let b := legacyBucket hdr
    { w with registry := Function.update w.registry b (hdr :: w.registry b) }

/-- `unregister_large_region`. -/
def unregisterRegion (w : World) (hdr base mapped : Nat) : World :=
  if w.arena base mapped then w.setLargeTable base (mapped / pageSize) 0
  else
    let b := legacyBucket hdr
    { w with registry := Function.update w.registry b ((w.registry b).erase hdr) }

/-- `large_region_known` on the arena. -/
def largeTableGet (w : World) (p : Nat) : Nat :=
  if w.arena p 1 then w.largeTable (p / pageSize) else 0

end World

/-! ### Sections -/

namespace Sys

def cache (k : Slot) : Sys ThreadCache := do
  let l ← Act.get
  pure (l k)

def putCache (k : Slot) (c : ThreadCache) : Sys Unit := Act.modify fun l => Function.update l k c

def read {β : Type} (f : World → β) : Sys β := Act.atomic fun _ w => (w, f w)

/-- The outside answers a question nothing here depends on: whether installing the exit hook worked, or
whether an owner word names another thread. -/
def ask : Sys Bool := Act.atomic fun e w => (w, e.answer)

def onSmall {β : Type} (f : Env → SmallHeap → SmallHeap × β) : Sys β :=
  Act.atomic fun e w => let (h, b) := f e w.small; ({ w with small := h }, b)

def onSpans {β : Type} (t : SpanTier)
    (f : Env → (Nat → Nat → Bool) → SpanHeap t → SpanHeap t × β) : Sys β :=
  Act.atomic fun e w => let (h, b) := f e w.arena (w.spans t); (w.setSpans t h, b)

/-- `map_heap_pages`, `arena::commit` and `map_large_region`. -/
def mapExtent (use : Purpose) (len : Nat) : Sys (Option Nat) :=
  Act.atomicOk (fun e w => !e.granted || w.canMap ⟨e.base, len, use⟩) fun e w =>
    if e.granted then ({ w with mapped := ⟨e.base, len, use⟩ :: w.mapped }, some e.base)
    else (w, none)

/-- `arena::release`, which always succeeds, or `sys::unmap`, whose answer only the counters see. -/
def unmapExtent (m : Mapping) : Sys Unit :=
  Act.atomic fun e w => (w.unmap m (w.arena m.base m.len || e.answer), ())

def each {α : Type} (f : α → Sys Unit) : List α → Sys Unit
  | [] => pure ()
  | x :: rest => do
      f x
      each f rest

/-- A block goes to the user. -/
def giveLive (x : Live) : Sys Unit :=
  Act.atomic fun _ w => ({ w with live := x :: w.live }, ())

/-- The user gives the block at `p` up. Calls for anything else are not made. -/
def claimLive (p : Nat) : Sys (Option Kind) :=
  Act.atomic fun _ w =>
    match w.live.find? (·.addr == p) with
    | some x => ({ w with live := w.live.erase x }, some x.kind)
    | none => (w, none)

end Sys

end Allox
