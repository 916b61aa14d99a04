import Mathlib

/-!
# Size classes

The three class tables and the span sizes, as the build-time functions compute them. Sizes grow by an
eighth, rounded up to sixteen bytes.
-/

namespace Allox

def pageSize : Nat := 65536
def minAlign : Nat := 16
def maxSmallSize : Nat := 16 * 1024
def numClasses : Nat := 64
def headerSize : Nat := 48
def spanMasterSize : Nat := 64
def bigMasterSize : Nat := 64
def spanSubSize : Nat := 16
def largeHeaderSize : Nat := 48

/-- A span of blocks packed from one master: medium classes, or big classes on arena targets. -/
inductive SpanTier where
  | medium
  | big
  deriving DecidableEq

/-- `medium_step`, also the step of the small table. -/
def mediumStep (size : Nat) : Nat := ((size * 9 + 7) / 8 + 15) / 16 * 16

/-- `n` more entries of the small table; once it is at the maximum it stays there. -/
def buildClasses : Nat → Nat → List Nat
  | 0, _ => []
  | n + 1, size => size :: buildClasses n (min maxSmallSize (mediumStep size))

def classes : List Nat := buildClasses numClasses minAlign

def classSize (c : Fin numClasses) : Nat := classes.getD c 0

instance : NeZero numClasses := ⟨by decide⟩

/-- `class_for_size_scan` from class `i` on, with `n` classes before the last. -/
def scanFrom (table : List Nat) (size : Nat) : Nat → Nat → Nat
  | i, 0 => i
  | i, n + 1 => if size ≤ table.getD i 0 then i else scanFrom table size (i + 1) n

theorem scanFrom_le (table : List Nat) (size i n : Nat) : scanFrom table size i n ≤ i + n := by
  induction n generalizing i with
  | zero => exact Nat.le_refl i
  | succ n ih =>
      unfold scanFrom
      split
      · exact Nat.le_add_right i (n + 1)
      · exact Nat.le_trans (ih (i + 1)) (by omega)

/-- The table entry for the size rounded up to a multiple of sixteen. -/
def classForSize (size : Nat) : Fin numClasses :=
  ⟨scanFrom classes ((size + minAlign - 1) / minAlign * minAlign) 0 (numClasses - 1),
    Nat.lt_of_le_of_lt (scanFrom_le _ _ _ _) (by decide)⟩

/-! ### Medium and big classes -/

def mediumBlockCap : Nat := 65536 - 64
def bigBlockCap : Nat := 1048576

/-- The geometric table from `size` up to `cap`, with the cap itself at the end. -/
def geoTable (cap : Nat) : Nat → Nat → List Nat
  | 0, _ => [cap]
  | n + 1, size =>
      if size < cap then size :: geoTable cap n (mediumStep size) else [cap]

def mediumClasses : List Nat := geoTable mediumBlockCap 12 (mediumStep maxSmallSize)

def maxMediumBlock : Nat := mediumBlockCap

def bigClasses : List Nat := geoTable bigBlockCap 23 (mediumStep maxMediumBlock)

def maxBigBlock : Nat := bigBlockCap

namespace SpanTier

def table : SpanTier → List Nat
  | medium => mediumClasses
  | big => bigClasses

/-- `NUM_MEDIUM` and `NUM_BIG`. -/
def num (t : SpanTier) : Nat := t.table.length

instance (t : SpanTier) : NeZero t.num := ⟨by cases t <;> decide⟩

def blockSize (t : SpanTier) (c : Fin t.num) : Nat := t.table.get c

/-- The packed tiers below this one end here. -/
def floor : SpanTier → Nat
  | medium => maxSmallSize
  | big => maxMediumBlock

/-- `medium_class_for_size` and `big_class_for_size`, for a size of the tier. -/
def classForSize (t : SpanTier) (size : Nat) : Nat :=
  scanFrom t.table (t.floor + 1 + (size - t.floor - 1) / minAlign * minAlign) 0 (t.num - 1)

end SpanTier

def mediumCapacityFor (block pages : Nat) : Nat := (pages * pageSize - spanMasterSize) / block

def targetBlocksPerSpan : Nat := 8

/-- The first page count from `pages` on that holds the target, tried `n` times. -/
def spanPagesFrom (block : Nat) : Nat → Nat → Nat
  | pages, 0 => pages
  | pages, n + 1 =>
      if mediumCapacityFor block pages < targetBlocksPerSpan then spanPagesFrom block (pages + 1) n
      else pages

def spanPagesFor (block : Nat) : Nat := spanPagesFrom block 1 16

def bigSpanPagesFor (block : Nat) : Nat :=
  (bigMasterSize + targetBlocksPerSpan * block + 65536 - 1) / 65536

/-- The pages a span of this class is mapped with. -/
def SpanTier.spanPages (t : SpanTier) (c : Fin t.num) : Nat :=
  match t with
  | medium => spanPagesFor (SpanTier.medium.blockSize c)
  | big => bigSpanPagesFor (SpanTier.big.blockSize c)

end Allox
