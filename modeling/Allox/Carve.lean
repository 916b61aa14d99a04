import Allox.Lib.LinkedCells
import Allox.SpanHeap
import Allox.FreeCheck

/-!
# Carving pages and spans

How a fresh page or span is cut into blocks, down to the words in memory: the link of each block, the
sub-headers of a medium span off the arena, and the fields of a master. The block size is a parameter;
the code looks it up in the table of its tier. `provision` cuts a small page a few blocks at a time.

The `free_count` of a master is a `u32`. A page has its fields in a record, its blocks in memory.
-/

namespace Allox

/-- The bytes of a link. -/
def wordSize : Nat := 8

/-- `MEDIUM_CHUNK_RESERVE`. -/
def mediumChunkReserve : Nat := 64

/-- `medium_capacity_legacy_for`. -/
def mediumCapacityLegacyFor (block pages : Nat) : Nat :=
  if pages = 0 then 0
  else
    (pageSize - mediumChunkReserve) / block + (pages - 1) * ((pageSize - spanSubSize) / block)

/-- What a big span holds. -/
def bigCapacityFor (block pages : Nat) : Nat := (pages * pageSize - bigMasterSize) / block

/-- A carve under way: memory, the head of the free list so far, and its length. -/
structure Carving where
  mem : ByteMemory
  head : Nat
  count : Nat

namespace Carving

/-- One block in front of the free list. -/
def push (s : Carving) (b : Nat) : Carving :=
  { mem := s.mem.store b s.head wordSize, head := b, count := (s.count + 1) % 2 ^ 32 }

/-- `while b + block_size <= end`, at most `n` rounds. -/
def fill (size stop : Nat) : Nat → Nat → Carving → Carving
  | 0, _, s => s
  | n + 1, b, s => if b + size ≤ stop then fill size stop n (b + size) (s.push b) else s

/-- Every round moves on by at least a byte. -/
def fillFrom (size start stop : Nat) (s : Carving) : Carving := s.fill size stop (stop - start) start

end Carving

/-- The sub-headers of the pages behind the first. -/
def writeSubHeaders (m : ByteMemory) (base npages : Nat) : ByteMemory :=
  (List.range' 1 (npages - 1)).foldl (fun m i =>
    (m.store (base + i * pageSize) spanSubmagic 8).store (base + i * pageSize + 8) base 8) m

/-- The chunk of a page, without its header. -/
def chunkStart (base page : Nat) : Nat :=
  base + page * pageSize + if page = 0 then spanMasterSize else spanSubSize

/-- The blocks of a span, before its master is written. -/
def carveSpan (m : ByteMemory) (size base npages : Nat) (arenaOwned : Bool) : Carving :=
  if arenaOwned then
    Carving.fillFrom size (base + spanMasterSize) (base + npages * pageSize) ⟨m, 0, 0⟩
  else
    (List.range npages).foldl (fun s page =>
      s.fillFrom size (chunkStart base page) (base + page * pageSize + pageSize))
      ⟨writeSubHeaders m base npages, 0, 0⟩

/-- The fields of a master, in the order of the struct: both masters have the same layout. -/
def writeMaster (s : Carving) (base magic cls npages : Nat) : ByteMemory :=
  let m := s.mem.store base magic 8
  let m := (m.store (base + 8) 0 8).store (base + 16) 0 8
  let m := (m.store (base + 24) s.head 8).store (base + 32) s.count 4
  let m := (m.store (base + 36) 0 4).store (base + 40) (cls % 2 ^ 16) 2
  let m := (m.store (base + 42) 2 2).store (base + 44) npages 4
  m.store (base + 48) 0 4

/-- `SpanMaster::init` on memory. -/
def initSpan (m : ByteMemory) (size cls base npages : Nat) (arenaOwned : Bool) : ByteMemory :=
  writeMaster (carveSpan m size base npages arenaOwned) base spanMagic cls npages

/-- `BigMaster::init` on memory. -/
def initBig (m : ByteMemory) (size cls base npages : Nat) : ByteMemory :=
  writeMaster
    (Carving.fillFrom size (base + bigMasterSize) (base + npages * pageSize) ⟨m, 0, 0⟩) base bigMagic cls
    npages

/-- `free_head` and `free_count` of a master. -/
def masterHead (m : ByteMemory) (base : Nat) : Option Nat := m.load (base + 24) 8

def masterCount (m : ByteMemory) (base : Nat) : Option Nat := m.load (base + 32) 4

/-- `SpanMaster::of` off the arena; null is zero. -/
def legacyMasterOf (m : ByteMemory) (p : Nat) : Option Nat := do
  let base := p / pageSize * pageSize
  let magic ← m.load base 8
  if magic = spanMagic then pure base
  else if magic = spanSubmagic then m.load (base + 8) 8
  else pure 0

/-! ### Small pages -/

/-- A small page: memory, and the fields of its header that change. -/
structure PageState where
  mem : ByteMemory
  freeHead : Nat
  freeCount : Nat
  used : Nat

namespace PageState

/-- `PageHeader::init`. -/
def init (m : ByteMemory) : PageState := { mem := m, freeHead := 0, freeCount := 0, used := 0 }

/-- `capacity`, for blocks of this size. -/
def capacity (size : Nat) : Nat := (pageSize - headerSize) / size

/-- The loop of `provision`, from the last new block down to the first. -/
def link (s : PageState) (start size : Nat) : Nat → PageState
  | 0 => s
  | n + 1 =>
      link { s with
        mem := s.mem.store (start + n * size) s.freeHead wordSize
        freeHead := start + n * size } start size n

/-- `provision`: the page and how many blocks it gained. -/
def provision (s : PageState) (page size max : Nat) : PageState × Nat :=
  let materialized := s.used + s.freeCount
  let count := min (capacity size - materialized) max
  if count = 0 then (s, 0)
  else
    let s' := s.link (page + headerSize + materialized * size) size count
    ({ s' with freeCount := (s.freeCount + count) % 2 ^ 16 }, count)

/-- `pop_block` with the counters beside it. -/
def pop (s : PageState) : Option (Nat × PageState) :=
  if s.freeHead = 0 then none
  else do
    let next ← s.mem.load s.freeHead wordSize
    pure (s.freeHead,
      { s with freeHead := next, freeCount := s.freeCount - 1, used := s.used + 1 })

/-- A block back in front of the free list. -/
def give (s : PageState) (b : Nat) : PageState :=
  { mem := s.mem.store b s.freeHead wordSize, freeHead := b, freeCount := (s.freeCount + 1) % 2 ^ 16,
    used := s.used - 1 }

end PageState

/-- What can happen to a page of blocks of this size, with the blocks that are outside it: blocks are
provisioned, taken and given back in any order, and whoever has a block writes to it. -/
inductive PageRun (page size : Nat) : PageState → List Nat → Prop
  | init (m : ByteMemory) : PageRun page size (.init m) []
  | provision {s : PageState} {out : List Nat} (h : PageRun page size s out) (max : Nat) :
      PageRun page size (s.provision page size max).1 out
  | take {s s' : PageState} {out : List Nat} {b : Nat} (h : PageRun page size s out)
      (hpop : s.pop = some (b, s')) : PageRun page size s' (b :: out)
  | give {s : PageState} {out : List Nat} {b : Nat} (h : PageRun page size s out) (hb : b ∈ out) :
      PageRun page size (s.give b) (out.erase b)
  | write {s : PageState} {out : List Nat} (h : PageRun page size s out) (m : ByteMemory)
      (hm : ∀ a, (∀ b ∈ out, ¬(b ≤ a ∧ a < b + size)) → m a = s.mem a) :
      PageRun page size { s with mem := m } out

end Allox
