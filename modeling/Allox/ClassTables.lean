import Allox.Classes

/-!
# The lookup tables

Size to class by one load: entries of one byte, one for each sixteen bytes of size, filled by scanning
the class table when the crate is compiled.
-/

namespace Allox

/-- `class_for_size_scan`. -/
def classForSizeScan (size : Nat) : Nat := scanFrom classes size 0 (numClasses - 1)

/-- `build_lut`. -/
def classLut : List Nat :=
  (List.range (maxSmallSize / minAlign + 1)).map fun q => classForSizeScan (q * minAlign) % 2 ^ 8

/-- `class_for_size`; none where the index would be out of bounds. -/
def lookupClass (size : Nat) : Option Nat :=
  if size ≤ maxSmallSize then
    classLut[(size + minAlign - 1) / minAlign]?.map (· &&& (numClasses - 1))
  else some (numClasses - 1)

namespace SpanTier

/-- `MAX_MEDIUM_BLOCK` and `MAX_BIG_BLOCK`. -/
def top (t : SpanTier) : Nat := t.table.getD (t.num - 1) 0

/-- `medium_scan` and `big_scan`. -/
def scan (t : SpanTier) (size : Nat) : Nat := scanFrom t.table size 0 (t.num - 1)

/-- `build_medium_lut` and `build_big_lut`. -/
def lut (t : SpanTier) : List Nat :=
  (List.range ((t.top - t.floor) / minAlign + 1)).map fun q =>
    t.scan (t.floor + 1 + q * minAlign) % 2 ^ 8

/-- `medium_class_for_size` and `big_class_for_size`. -/
def lookupClass (t : SpanTier) (size : Nat) : Option Nat :=
  if size ≤ t.floor || t.top < size then some (t.num - 1)
  else t.lut[(size - t.floor - 1) / minAlign]?

end SpanTier

end Allox
