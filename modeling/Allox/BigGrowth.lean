import Allox.LargePlacement
import Allox.System

/-!
# Growing a promoted block

A packed big block that grows out of its class is moved once, into a large region with slack. From then
on `realloc` tries to leave it where it is: by class, inside the mapping, or by moving the frontier of
the arena when the region is the last one in front of it.
-/

namespace Allox

def bigGrowSlackFactor : Nat := 8

/-- The reservation of the arena. -/
structure Reservation where
  start : Nat
  size : Nat

/-- What `grow_frontier` finds: the frontier when it is loaded, whether the compare-and-swap then
succeeds, and whether the added range can be committed. -/
structure Frontier where
  bump : Nat
  swapped : Bool
  committed : Bool

namespace Reservation

def contains (a : Reservation) (base len : Nat) : Bool :=
  a.start ≤ base && base + len ≤ a.start + a.size

/-- `grow_frontier`. -/
def growFrontier (a : Reservation) (f : Frontier) (base oldPages newPages : Nat) : Bool :=
  if oldPages = 0 || newPages ≤ oldPages then false
  else if usizeLimit ≤ oldPages * pageSize || usizeLimit ≤ newPages * pageSize then false
  else if !a.contains base (oldPages * pageSize) then false
  else
    let oldEnd := base - a.start + oldPages * pageSize
    let newEnd := oldEnd + (newPages * pageSize - oldPages * pageSize)
    if a.size < newEnd then false
    else if f.bump ≠ oldEnd then false
    else f.swapped && f.committed

end Reservation

/-- A block in a large region of its own, registered in the side table. -/
structure LargeBlock where
  p : Nat
  header : LargeHeader

def Placement.block (x : Placement) : LargeBlock := { p := x.ret, header := x.header }

namespace LargeBlock

/-- `large_header_of`, where the magic is right. -/
def largeHeaderOf (r : LargeBlock) : Option (Nat × Nat) :=
  if r.p < largeHeaderSize || (r.p - largeHeaderSize) % minAlign ≠ 0 then none
  else
    let mapped := r.header.mappedSize
    if mapped < largeHeaderSize || mapped % pageSize ≠ 0 then none
    else
      let off := (r.p + (usizeLimit - r.header.base)) % usizeLimit
      if off = 0 || mapped ≤ off then none else some (r.header.base, mapped)

/-- The bytes from the pointer to the end of the mapping. -/
def capacity (r : LargeBlock) : Nat := r.header.mappedSize - (r.p - r.header.base)

/-- The total that `try_grow_large_frontier` rounds up. -/
def grownTotal (r : LargeBlock) (size : Nat) : Option Nat := do
  let total ← checkedAdd size (World.pointerAlignment r.p)
  checkedAdd total largeHeaderSize

/-- The end of `try_grow_large_frontier`, from the new length of the mapping on. -/
def growTo (a : Reservation) (f : Frontier) (r : LargeBlock) (size newMapped : Nat) :
    Option LargeBlock :=
  if newMapped ≤ r.header.mappedSize then none
  else if 2 ^ 32 ≤ newMapped / pageSize - r.header.mappedSize / pageSize then none
  else if a.growFrontier f r.header.base (r.header.mappedSize / pageSize) (newMapped / pageSize) then
    some { r with header := { r.header with mappedSize := newMapped, requestedSize := size } }
  else none

/-- A size the mapping has no room for. -/
def growMapping (a : Reservation) (f : Frontier) (r : LargeBlock) (size : Nat) : Option LargeBlock :=
  match r.grownTotal size with
  | none => none
  | some total => r.growTo a f size (alignUp (max total largeHeaderSize) pageSize)

/-- `try_grow_large_frontier`: the block with its header as it is written, or false. -/
def tryGrowLargeFrontier (a : Reservation) (f : Frontier) (r : LargeBlock) (size : Nat) :
    Option LargeBlock :=
  if !a.contains r.p 1 then none
  else
    match r.largeHeaderOf with
    | none => none
    | some (_, validated) =>
        if validated ≠ r.header.mappedSize then none
        else if r.header.mappedSize < r.p - r.header.base then none
        else if size ≤ r.header.requestedSize then none
        else if size ≤ r.capacity then
          some { r with header := { r.header with requestedSize := size } }
        else r.growMapping a f size

end LargeBlock

/-- What the side tables say of a pointer. -/
structure BigLookup where
  arena : Bool
  large : Bool
  big : Option (Fin SpanTier.big.num)

/-- `try_promote_big_grow`: where the block is moved to, if it is. -/
def tryPromoteBigGrow (e : LargeEnv) (s : RegionCaches) (look : BigLookup) (newSize align : Nat) :
    Option Placement :=
  if !look.arena || look.large then none
  else
    match look.big with
    | none => none
    | some bclass =>
        if newSize ≤ SpanTier.big.blockSize bclass then none
        else
          let reserve := min (min (newSize * bigGrowSlackFactor) (usizeLimit - 1)) maxBigBlock
          if reserve ≤ newSize then none
          else (s.allocLargeEx e newSize align false (reserve - newSize)).2

/-- How `realloc` is called: from C, or through `GlobalAlloc` with the alignment of the layout. -/
inductive ReallocApi where
  | c
  | global (align : Nat)

/-- The identity test of `realloc_slow` for two big sizes. -/
def sameBigClass (api : ReallocApi) (old new : Nat) : Bool :=
  match api with
  | .c => false
  | .global align =>
      align ≤ minAlign && maxMediumBlock < old && old ≤ maxBigBlock && maxMediumBlock < new
        && new ≤ maxBigBlock && SpanTier.big.classForSize old == SpanTier.big.classForSize new

/-- `realloc` of a block in a large region from `old` bytes to more, both in the big range: the block if
it stays where it is. It has no entry in the big table, and is not promoted again. -/
def reallocInPlace (a : Reservation) (f : Frontier) (api : ReallocApi) (r : LargeBlock)
    (old new : Nat) : Option LargeBlock :=
  if sameBigClass api old new then some r
  else
    match api with
    | .c => if a.contains r.p 1 then r.tryGrowLargeFrontier a f new else none
    | .global align =>
        if align ≤ minAlign && maxMediumBlock < old && maxMediumBlock < new
            || (minAlign < align || maxBigBlock < old) then
          r.tryGrowLargeFrontier a f new
        else none

structure GrowRequest where
  api : ReallocApi
  size : Nat
  frontier : Frontier

/-- A block that stays where it is through all the requests. -/
def reallocsInPlace (a : Reservation) : LargeBlock → Nat → List GrowRequest → Option LargeBlock
  | r, _, [] => some r
  | r, old, q :: rest =>
      match reallocInPlace a q.frontier q.api r old q.size with
      | some r => reallocsInPlace a r q.size rest
      | none => none

end Allox
