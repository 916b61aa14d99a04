import Allox.ClassTables
import Allox.Proof.EntryPoints

/-!
# The class of a size

The lookup finds the least class that fits, at most an eighth above the size and the rounding to sixteen
bytes, and the spans are the shortest that hold eight blocks.
-/

namespace Allox

/-- Everything before the entry that the scan finds is too small. -/
theorem scanFrom_least {table : List Nat} {size i n j : Nat} (hij : i ≤ j)
    (hj : j < scanFrom table size i n) : table.getD j 0 < size := by
  induction n generalizing i with
  | zero => exact absurd hj (Nat.not_lt.2 hij)
  | succ n ih =>
      unfold scanFrom at hj
      split at hj
      · exact absurd hj (Nat.not_lt.2 hij)
      · rename_i hlarger
        rcases Nat.eq_or_lt_of_le hij with rfl | hlt
        · exact Nat.lt_of_not_le hlarger
        · exact ih hlt hj

theorem mediumStep_le (size : Nat) : 8 * mediumStep size ≤ 9 * size + 127 := by
  unfold mediumStep
  omega

/-- What the class for a size is: the least entry of the table that holds the size, and little more. -/
structure LeastClass (table : List Nat) (size cls : Nat) : Prop where
  fits : size ≤ table.getD cls 0
  least : ∀ j, j < cls → table.getD j 0 < size
  waste : 8 * table.getD cls 0 ≤ 9 * size + 119

/-- Scanning with a size rounded up to the alignment of the entries. -/
theorem leastClass_scan {table : List Nat} {size rounded n : Nat}
    (haligned : ∀ j, table.getD j 0 % minAlign = 0)
    (hstep : ∀ j < n, table.getD (j + 1) 0 ≤ mediumStep (table.getD j 0))
    (hfirst : 8 * table.getD 0 0 ≤ 9 * size + 119) (hlast : rounded ≤ table.getD (0 + n) 0)
    (hround : ∀ v, v % minAlign = 0 → (rounded ≤ v ↔ size ≤ v)) :
    LeastClass table size (scanFrom table rounded 0 n) := by
  have hleast : ∀ j, j < scanFrom table rounded 0 n → table.getD j 0 < size := by
    intro j hj
    have hlt := scanFrom_least (Nat.zero_le j) hj
    rw [← Nat.not_le] at hlt ⊢
    exact fun hle => hlt ((hround _ (haligned j)).2 hle)
  refine ⟨(hround _ (haligned _)).1 (scanFrom_fits hlast), hleast, ?_⟩
  cases hcls : scanFrom table rounded 0 n with
  | zero => exact hfirst
  | succ j =>
      have hbound := scanFrom_le table rounded 0 n
      have hprev := hleast j (by omega)
      have hgrown := hstep j (by omega)
      have hwaste := mediumStep_le (table.getD j 0)
      omega

theorem class_aligned (j : Nat) : classes.getD j 0 % minAlign = 0 := by
  by_cases hj : j < classes.length
  · have hall : ∀ x ∈ classes, x % minAlign = 0 := by decide +kernel
    rw [List.getD_eq_getElem _ _ hj]
    exact hall _ (List.getElem_mem hj)
  · rw [List.getD_eq_default _ _ (Nat.le_of_not_lt hj)]
    rfl

theorem classes_step : ∀ j < numClasses - 1,
    classes.getD (j + 1) 0 ≤ mediumStep (classes.getD j 0) := by
  decide +kernel

theorem small_leastClass {size : Nat} (hpos : 0 < size) (h : size ≤ maxSmallSize) :
    LeastClass classes size (classForSize size) := by
  have hmax : maxSmallSize = 16384 := rfl
  have halign : minAlign = 16 := rfl
  have hlast : classes.getD (0 + (numClasses - 1)) 0 = maxSmallSize := by decide +kernel
  have hzero : classes.getD 0 0 = 16 := rfl
  refine leastClass_scan class_aligned classes_step ?_ ?_ fun v hv => ?_
  · rw [hzero]
    omega
  · rw [hlast, hmax, halign]
    omega
  · rw [halign] at hv ⊢
    omega

theorem lookupClass_eq {size : Nat} (h : size ≤ maxSmallSize) :
    lookupClass size = some (classForSize size : Nat) := by
  have hmax : maxSmallSize = 16384 := rfl
  have halign : minAlign = 16 := rfl
  have hindex : (size + minAlign - 1) / minAlign < maxSmallSize / minAlign + 1 := by
    rw [hmax, halign]
    omega
  have hcls : classForSizeScan ((size + minAlign - 1) / minAlign * minAlign)
      = (classForSize size : Nat) := rfl
  have hlt := (classForSize size).isLt
  have hmask : ∀ n, n < numClasses → n % 2 ^ 8 &&& (numClasses - 1) = n := by decide +kernel
  simp only [lookupClass, if_pos h, classLut, List.getElem?_map, List.getElem?_range hindex,
    Option.map_some, hcls]
  rw [hmask _ hlt]

namespace SpanTier

variable {t : SpanTier} {size : Nat}

theorem entry_aligned (t : SpanTier) (j : Nat) : t.table.getD j 0 % minAlign = 0 := by
  by_cases hj : j < t.table.length
  · rw [List.getD_eq_getElem _ _ hj]
    exact t.blockSize_aligned ⟨j, hj⟩
  · rw [List.getD_eq_default _ _ (Nat.le_of_not_lt hj)]
    rfl

theorem table_step (t : SpanTier) : ∀ j < t.num - 1,
    t.table.getD (j + 1) 0 ≤ mediumStep (t.table.getD j 0) := by
  cases t <;> decide +kernel

theorem leastClass (hlow : t.floor < size) (hhigh : size ≤ t.top) :
    LeastClass t.table size (t.classForSize size) := by
  have halign : minAlign = 16 := rfl
  have hfloor : t.floor % 16 = 0 := by
    cases t <;> decide
  have hfirst : 8 * t.table.getD 0 0 ≤ 9 * t.floor + 127 := by
    cases t <;> decide
  have htop := t.entry_aligned (t.num - 1)
  rw [halign] at htop
  refine leastClass_scan t.entry_aligned t.table_step (by omega) ?_ fun v hv => ?_
  · rw [halign, Nat.zero_add]
    unfold top at hhigh
    omega
  · rw [halign] at hv ⊢
    omega

theorem lookupClass_eq (hlow : t.floor < size) (hhigh : size ≤ t.top) :
    t.lookupClass size = some (t.classForSize size) := by
  have halign : minAlign = 16 := rfl
  have hindex : (size - t.floor - 1) / minAlign < (t.top - t.floor) / minAlign + 1 := by
    rw [halign]
    omega
  have hcls : t.scan (t.floor + 1 + (size - t.floor - 1) / minAlign * minAlign)
      = t.classForSize size := rfl
  have hlt : t.classForSize size < 2 ^ 8 := by
    refine Nat.lt_of_le_of_lt (scanFrom_le _ _ _ _) ?_
    cases t <;> decide
  have hin : (decide (size ≤ t.floor) || decide (t.top < size)) = false := by
    simp only [Bool.or_eq_false_iff, decide_eq_false_iff_not]
    omega
  simp only [lookupClass, hin, lut, List.getElem?_map, List.getElem?_range hindex, Option.map_some,
    hcls, Nat.mod_eq_of_lt hlt]
  rfl

end SpanTier

/-- **The class of every size.** The lookup never leaves its table, finds the least class of the tier that
holds the size, and the class is at most an eighth above the size, rounding aside. A size that is not the
tier's gets the last class. -/
theorem lookup_leastClass (size : Nat) :
    (0 < size → size ≤ maxSmallSize →
      ∃ cls, lookupClass size = some cls ∧ LeastClass classes size cls) ∧
    (maxSmallSize < size → lookupClass size = some (numClasses - 1)) ∧
    ∀ t : SpanTier, if t.floor < size ∧ size ≤ t.top then
        ∃ cls, t.lookupClass size = some cls ∧ LeastClass t.table size cls
      else t.lookupClass size = some (t.num - 1) := by
  refine ⟨fun hpos h => ⟨_, lookupClass_eq h, small_leastClass hpos h⟩, fun h => ?_, fun t => ?_⟩
  · exact if_neg (Nat.not_le.2 h)
  · split
    · rename_i hin
      exact ⟨_, SpanTier.lookupClass_eq hin.1 hin.2, SpanTier.leastClass hin.1 hin.2⟩
    · rename_i hout
      refine if_pos ?_
      simp only [Bool.or_eq_true, decide_eq_true_eq]
      omega

end Allox
