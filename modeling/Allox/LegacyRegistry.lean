import Allox.FreeCheck

/-!
# The registry of legacy headers, in memory

A large region outside the arena keeps the link of its bucket's chain in its own header. Every walk
holds the lock, and a registration counts the header before it takes it, so other calls may come in
between. The count goes down with the lock held.

A walk gets a number of rounds. It gives nothing when they run out, or when it reads an unmapped
address.
-/

namespace Allox

/-- A place for a header. -/
structure HeaderAt (hdr : Nat) : Prop where
  pos : 0 < hdr
  aligned : minAlign ∣ hdr
  end_le : hdr + largeHeaderSize ≤ usizeLimit

def HeadersApart (hdr x : Nat) : Prop :=
  hdr + largeHeaderSize ≤ x ∨ x + largeHeaderSize ≤ hdr

/-- `heads` is `LARGE_REGISTRY` and `len` is `LARGE_REGISTRY_LEN`; null is zero. -/
structure LegacyRegistry where
  mem : ByteMemory
  heads : Nat → Nat
  len : Nat

namespace LegacyRegistry

variable (s : LegacyRegistry)

/-- Where `registry_next` is in a header. -/
def nextOffset : Nat := 32

def registryNext (hdr : Nat) : Option Nat :=
  s.mem.load (hdr + nextOffset) 8

def setRegistryNext (hdr next : Nat) : LegacyRegistry :=
  { s with mem := s.mem.store (hdr + nextOffset) next 8 }

def initHeader (hdr base mapped requested : Nat) : LegacyRegistry :=
  { s with mem := initLargeHeader s.mem hdr base mapped requested }

/-- The `fetch_add` of a registration. -/
def count : LegacyRegistry :=
  { s with len := (s.len + 1) % usizeLimit }

/-- The rest of a registration, under the lock. -/
def link (hdr : Nat) : LegacyRegistry :=
  let bucket := legacyBucket hdr
  let linked := s.setRegistryNext hdr (s.heads bucket)
  { linked with heads := Function.update linked.heads bucket hdr }

def registerLegacyLarge (hdr : Nat) : LegacyRegistry :=
  s.count.link hdr

/-- What `unregister_legacy_large` does with the header it found after `previous`. -/
def unlink (hdr previous next : Nat) : LegacyRegistry :=
  let linked :=
    if previous = 0 then { s with heads := Function.update s.heads (legacyBucket hdr) next }
    else s.setRegistryNext previous next
  { linked with len := (linked.len + usizeLimit - 1) % usizeLimit }

/-- The loop of `unregister_legacy_large`. -/
def unlinkFrom (hdr : Nat) : Nat → Nat → Nat → Option LegacyRegistry
  | 0, _, _ => none
  | n + 1, previous, current =>
      if current = 0 then some s
      else if current = hdr then do
        let next ← s.registryNext current
        pure (s.unlink hdr previous next)
      else do
        let next ← s.registryNext current
        unlinkFrom hdr n current next

def unregisterLegacyLarge (n hdr : Nat) : Option LegacyRegistry :=
  s.unlinkFrom hdr n 0 (s.heads (legacyBucket hdr))

/-- The loop of `legacy_large_contains`. -/
def findFrom (expected : Nat) : Nat → Nat → Option Bool
  | 0, _ => none
  | n + 1, current =>
      if current = 0 then some false
      else if current = expected then some true
      else do
        let next ← s.registryNext current
        findFrom expected n next

def legacyLargeContains (n p : Nat) : Option Bool :=
  if s.len = 0 then some false
  else if p < largeHeaderSize || (p - largeHeaderSize) % minAlign ≠ 0 then some false
  else
    let expected := p - largeHeaderSize
    s.findFrom expected n (s.heads (legacyBucket expected))

/-- The registry after some calls: `live` has the headers registered and not yet unregistered, and
`pending` those that are counted and not yet linked. A header is written before it is registered, and
lies apart from the others. Memory is the program's own, except for the links of live headers. -/
inductive Reach : LegacyRegistry → Finset Nat → Finset Nat → Prop
  | empty (mem : ByteMemory) : Reach ⟨mem, fun _ => 0, 0⟩ ∅ ∅
  | write {s : LegacyRegistry} {live pending : Finset Nat} (mem : ByteMemory)
      (hreach : Reach s live pending)
      (hlinks : ∀ hdr ∈ live, ∀ i < 8, mem (hdr + nextOffset + i) = s.mem (hdr + nextOffset + i)) :
      Reach { s with mem } live pending
  | count {s : LegacyRegistry} {live pending : Finset Nat} (hdr base mapped requested : Nat)
      (hreach : Reach s live pending) (hheader : HeaderAt hdr)
      (hapart : ∀ x ∈ live ∪ pending, HeadersApart hdr x) :
      Reach (s.initHeader hdr base mapped requested).count live (insert hdr pending)
  | link {s : LegacyRegistry} {live pending : Finset Nat} (hdr : Nat)
      (hreach : Reach s live pending) (hpending : hdr ∈ pending) :
      Reach (s.link hdr) (insert hdr live) (pending.erase hdr)
  | unregister {s s' : LegacyRegistry} {live pending : Finset Nat} (n hdr : Nat)
      (hreach : Reach s live pending) (hrun : s.unregisterLegacyLarge n hdr = some s') :
      Reach s' (live.erase hdr) pending

end LegacyRegistry

end Allox
