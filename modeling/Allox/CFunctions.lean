import Allox.EntryPoints

/-!
# The C functions

A pointer comes without its size here, so `realloc`, `free` and `usable_size` look at the side table, the
registry of regions and the header in front of the 64 KiB that the pointer is in. What they read for a
live block is settled by how the block was made, but where no header stands in front of a block there are
bytes of users, and anything can be read.
-/

namespace Allox

/-- A word of the side table. -/
inductive TableEntry where
  | none
  | medium (cls : Fin SpanTier.medium.num)
  | big (cls : Fin SpanTier.big.num)
  | large
  deriving DecidableEq

/-- What stands at the masked address: the header of a page, or one that leads to a master around the
pointer. -/
inductive MaskedHeader where
  | page (cls : Fin numClasses)
  | span (cls : Fin SpanTier.medium.num)
  | other

/-- All that is read for a pointer. -/
structure Probe where
  arena : Bool
  entry : TableEntry
  registered : Bool
  masked : MaskedHeader

/-- What is read for the pointer of a live block: for a small one the magic of its page; else in the arena
the table entry of its role, and outside the registry for a large region and the magic at the page base for
a block of a span, whose every page starts with the master or a sub-header. That the lookups do read this is
shown with the side table, the registry and the carving. -/
def Backing.probe (a : Reservation) (bytes : MaskedHeader) : Backing → Probe
  | .small cls p => ⟨a.contains p 1, .none, false, .page cls⟩
  | .span .medium cls p =>
      if a.contains p 1 then ⟨true, .medium cls, false, bytes⟩ else ⟨false, .none, false, .span cls⟩
  | .span .big cls _ => ⟨true, .big cls, false, bytes⟩
  | .large r =>
      if a.contains r.p 1 then ⟨true, .large, false, bytes⟩ else ⟨false, .none, true, bytes⟩

/-- From the pointer to the end of the region, by the header in front of it. -/
def Backing.regionRest : Backing → Nat
  | .large r => r.capacity
  | _ => 0

/-- `large_header_of` accepts the header. -/
def Backing.headed : Backing → Bool
  | .large r => r.largeHeaderOf.isSome
  | _ => false

def checkedMul (a b : Nat) : Option Nat := if a * b < usizeLimit then some (a * b) else none

namespace Probe

def large (x : Probe) : Bool := if x.arena then x.entry == .large else x.registered

def big (x : Probe) : Option (Fin SpanTier.big.num) :=
  match x.arena, x.entry with
  | true, .big cls => some cls
  | _, _ => none

def medium (x : Probe) : Option (Fin SpanTier.medium.num) :=
  match x.arena, x.entry with
  | true, .medium cls => some cls
  | _, _ => none

def page (x : Probe) : Option (Fin numClasses) :=
  match x.masked with
  | .page cls => some cls
  | _ => none

/-- `SpanMaster::of` and `contains`. -/
def spanOf (x : Probe) : Option (Fin SpanTier.medium.num) :=
  if x.arena then x.medium
  else
    match x.masked with
    | .span cls => some cls
    | _ => none

/-- The end of `usable_size`, for what is in neither the table nor the registry. -/
def packedSize (x : Probe) : Nat :=
  match x.page with
  | some cls => classSize cls
  | none =>
      match x.spanOf with
      | some cls => SpanTier.medium.blockSize cls
      | none => 0

def usableSize (x : Probe) (b : Backing) : Nat :=
  if b.ptr < largeHeaderSize then 0
  else if x.arena then
    match x.entry with
    | .large => b.regionRest
    | .medium cls => SpanTier.medium.blockSize cls
    | .big cls => SpanTier.big.blockSize cls
    | .none => x.packedSize
  else if x.registered then b.regionRest
  else x.packedSize

/-! ### The blocks that `realloc` returns as they are -/

def keepsMedium (size : Nat) (cls : Fin SpanTier.medium.num) : Bool :=
  maxSmallSize < size && size ≤ maxMediumBlock && SpanTier.medium.classOf size == cls

def keepsBig (size : Nat) (cls : Fin SpanTier.big.num) : Bool :=
  maxMediumBlock < size && size ≤ maxBigBlock && SpanTier.big.classOf size == cls

/-- No pointer is both of a medium and of a big span. -/
def keeps (x : Probe) (size : Nat) : Bool :=
  if x.big.isNone && x.medium.isNone && !x.large then
    x.page.any (fun cls => size ≤ maxSmallSize && classForSize size == cls)
      || x.spanOf.any (keepsMedium size)
  else x.big.any (keepsBig size) || x.medium.any (keepsMedium size)

end Probe

/-- What a C `realloc` meets: at the frontier, for a promotion, and for a move. -/
structure CAnswers where
  frontier : Frontier
  promotion : Answers
  move : Answers

/-- What a C `realloc` comes to. A garbage pointer below the header size is left alone, and the result is
fresh. -/
inductive CResult where
  | null
  | freed
  | fresh (b : Backing)
  | stays (b : Backing)
  | moved (b : Backing) (copied : Nat)

namespace CApi

def malloc (h : Pools) (e : Answers) (size : Nat) : Pools × Option Backing :=
  if size = 0 || 2 ^ 63 ≤ size then (h, none) else h.allocImpl e size 1

def calloc (h : Pools) (e : Answers) (nmemb size : Nat) : Pools × Option Backing :=
  match checkedMul nmemb size with
  | none => (h, none)
  | some total => if total = 0 || 2 ^ 63 ≤ total then (h, none) else h.allocZeroedImpl e total 1

def alignedAlloc (h : Pools) (e : Answers) (align size : Nat) : Pools × Option Backing :=
  if align = 0 || 2 ^ Nat.log2 align != align || size = 0 || 2 ^ 63 ≤ size then (h, none)
  else h.allocImpl e size align

/-- The end of `dealloc_impl`. -/
def freePacked (h : Pools) (x : Probe) (b : Backing) : Option Pools :=
  match x.page with
  | some cls => some (h.pushSmall cls b)
  | none => x.spanOf.map fun cls => h.pushSpan .medium cls b

/-- `dealloc_impl`; none where it aborts. -/
def free (h : Pools) (x : Probe) (b : Backing) : Option Pools :=
  if b.ptr < largeHeaderSize then none
  else if x.arena then
    match x.entry with
    | .large => some h
    | .medium cls => some (h.pushSpan .medium cls b)
    | .big cls => some (h.pushSpan .big cls b)
    | .none => freePacked h x b
  else if x.registered && b.headed then some h
  else freePacked h x b

/-- The first growth of a big block out of its class. -/
def promote (h : Pools) (e : Answers) (x : Probe) (b : Backing) (size : Nat) :
    Option (Option (Pools × CResult)) :=
  match x.big with
  | none => none
  | some cls =>
      if maxMediumBlock < size && size ≤ maxBigBlock then
        (tryPromoteBigGrow e.env e.caches ⟨x.arena, x.large, x.big⟩ size
          (World.pointerAlignment b.ptr)).map fun y =>
            (free h x b).map fun h => (h, .moved (.large y.block) (min (SpanTier.big.blockSize cls) size))
      else none

/-- The end of `realloc`. -/
def move (h : Pools) (e : Answers) (x : Probe) (b : Backing) (size : Nat) : Option (Pools × CResult) :=
  match (if x.large then h.allocImpl e size (World.pointerAlignment b.ptr) else malloc h e size) with
  | (h, none) => some (h, .null)
  | (h, some b') => (free h x b).map fun h => (h, .moved b' (min (x.usableSize b) size))

/-- `realloc` of a pointer that is not null. -/
def realloc (h : Pools) (a : Reservation) (e : CAnswers) (x : Probe) (b : Backing) (size : Nat) :
    Option (Pools × CResult) :=
  if 2 ^ 63 ≤ size then some (h, .null)
  else if size = 0 then (free h x b).map fun h => (h, .freed)
  else if b.ptr < largeHeaderSize then
    match malloc h e.move size with
    | (h, none) => some (h, .null)
    | (h, some b') => some (h, .fresh b')
  else
    match (if x.large && x.arena then b.tryGrow a e.frontier size else none) with
    | some b' => some (h, .stays b')
    | none =>
        if x.keeps size then some (h, .stays b)
        else
          match promote h e.promotion x b size with
          | some r => r
          | none => move h e.move x b size

end CApi

/-! ### Calls -/

/-- A live block, with the size it was last asked for, the alignment it was made for and its bytes. -/
structure CBlock where
  size : Nat
  align : Nat
  block : Backing
  bytes : Nat → UInt8

structure CHeap where
  live : List CBlock
  pools : Pools

/-- The calls, with what they meet: what is read behind a block without a header in front, and what a
block reads as that is handed out. Other threads can do anything to the free blocks in between, and users
write to what they have. -/
inductive CCall where
  | malloc (size : Nat) (e : Answers) (bytes : Nat → UInt8)
  | calloc (nmemb size : Nat) (e : Answers) (bytes : Nat → UInt8)
  | alignedAlloc (align size : Nat) (e : Answers) (bytes : Nat → UInt8)
  | realloc (i size : Nat) (e : CAnswers) (masked : MaskedHeader) (bytes : Nat → UInt8)
  | free (i : Nat) (masked : MaskedHeader)
  | write (i off : Nat) (v : UInt8)
  | others (pools : Pools)

namespace CHeap

def empty : CHeap := { live := [], pools := Allocations.empty.pools }

/-- After an allocation. -/
def took (s : CHeap) (size align : Nat) (bytes : Nat → UInt8) : Pools × Option Backing → CHeap
  | (h, none) => { s with pools := h }
  | (h, some b) => { live := ⟨size, align, b, bytes⟩ :: s.live, pools := h }

/-- After a `realloc` of the `i`th block, which is `x`. -/
def resized (s : CHeap) (i : Nat) (x : CBlock) (size : Nat) (bytes : Nat → UInt8) :
    Pools × CResult → CHeap
  | (h, .null) => { s with pools := h }
  | (h, .freed) => { live := s.live.eraseIdx i, pools := h }
  | (h, .fresh b) => { live := ⟨size, minAlign, b, bytes⟩ :: s.live, pools := h }
  | (h, .stays b) => { live := s.live.set i { x with size, block := b }, pools := h }
  | (h, .moved b copied) =>
      { live := s.live.set i
          ⟨size, x.align, b, fun k => if k < copied then x.bytes k else bytes k⟩
        pools := h }

/-- One call; none if it aborts, or the block is not live or the byte not of the block. -/
def step (a : Reservation) (s : CHeap) : CCall → Option CHeap
  | .malloc size e bytes => some (s.took size minAlign bytes (CApi.malloc s.pools e size))
  | .calloc nmemb size e bytes =>
      some (s.took (nmemb * size) minAlign bytes (CApi.calloc s.pools e nmemb size))
  | .alignedAlloc align size e bytes =>
      some (s.took size align bytes (CApi.alignedAlloc s.pools e align size))
  | .realloc i size e masked bytes => do
      let x ← s.live[i]?
      let r ← CApi.realloc s.pools a e (x.block.probe a masked) x.block size
      pure (s.resized i x size bytes r)
  | .free i masked => do
      let x ← s.live[i]?
      let h ← CApi.free s.pools (x.block.probe a masked) x.block
      pure { live := s.live.eraseIdx i, pools := h }
  | .write i off v => do
      let x ← s.live[i]?
      if off < x.size then
        some { s with live := s.live.set i { x with bytes := Function.update x.bytes off v } }
      else none
  | .others pools => some { s with pools }

end CHeap

end Allox
