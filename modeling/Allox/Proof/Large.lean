import Allox.Large
import Allox.Lib.ArrayPrefix

/-!
# The shards as multisets of regions

Parking a region adds exactly that extent to a shard, taking one removes exactly the extent that is
handed out. The hints and the order of the entries decide which, and how fast, and no more.
-/

namespace Allox

open ArrayPrefix

namespace RegionArray

variable {a : RegionArray} {i pages : Nat}

def regions (a : RegionArray) : Multiset (Nat × Nat) := upto a.entries a.len

@[simp] theorem refreshExact_entries (a : RegionArray) (pages : Nat) :
    (a.refreshExact pages).entries = a.entries := by
  unfold refreshExact
  split <;> rfl

@[simp] theorem refreshExact_len (a : RegionArray) (pages : Nat) :
    (a.refreshExact pages).len = a.len := by
  unfold refreshExact
  split <;> rfl

theorem regions_congr {b : RegionArray} (hentries : b.entries = a.entries) (hlen : b.len = a.len) :
    b.regions = a.regions := by
  rw [regions, hentries, hlen, regions]

theorem index_regions (a : RegionArray) (i pages : Nat) : (a.index i pages).regions = a.regions := by
  unfold index
  split
  · rfl
  · dsimp only
    split
    · rfl
    · split
      · exact regions_congr (by simp) (by simp)
      · rfl

theorem push_regions (base pages mapped : Nat) (zeroed decommitted : Bool) :
    (a.push base pages mapped zeroed decommitted).regions = {(base, pages)} + a.regions := by
  unfold push
  dsimp only
  rw [index_regions]
  exact upto_append (base, pages)

theorem moveHint_regions (a : RegionArray) (i last : Nat) :
    (a.moveHint i last).regions = a.regions := by
  unfold moveHint
  dsimp only
  split <;> rfl

theorem dropHint_regions (a : RegionArray) (i removed : Nat) :
    (a.dropHint i removed).regions = a.regions := by
  unfold dropHint
  dsimp only
  split
  · exact regions_congr (by simp) (by simp)
  · rfl

theorem remove_regions (hi : i < a.len) :
    a.regions = {((a.remove i).2.base, (a.remove i).2.pages)} + (a.remove i).1.regions := by
  obtain ⟨n, hn⟩ : ∃ n, a.len = n + 1 := ⟨a.len - 1, by omega⟩
  unfold remove
  dsimp only
  rw [dropHint_regions, moveHint_regions]
  simp only [regions, swapOut, hn, Nat.add_sub_cancel]
  rw [upto_update_of_le le_rfl, upto_swapRemove (Nat.le_of_lt_succ (hn ▸ hi))]

theorem exactAt_lt {wanted : Nat} (h : a.exactAt wanted = some i) : i < a.len := by
  unfold exactAt at h
  split at h
  · cases h
  · dsimp only at h
    split at h
    · rename_i hfound
      cases h
      simp only [Bool.and_eq_true, decide_eq_true_eq] at hfound
      exact hfound.1
    · cases h

theorem firstEqual_lt {wanted : Nat} (h : a.firstEqual wanted = some i) : i < a.len :=
  (find?_range_lt h).1

theorem bestFit_lt {mapped : Nat} (h : a.bestFit mapped = some i) : i < a.len := by
  refine foldl_choice (P := fun j => j < a.len) (fun best j hj => ?_) (by rintro j ⟨⟩) h
  dsimp only
  split
  · exact .inr ⟨rfl, List.mem_range.1 hj⟩
  · exact .inl rfl

end RegionArray

namespace LargeRegionCache

variable {s s' : LargeRegionCache}

def regions (s : LargeRegionCache) : Multiset (Nat × Nat) := s.hot.regions + s.cold.regions

theorem removeHot_regions {i : Nat} (hi : i < s.hot.len) :
    s.regions = {((s.removeHot i).2.base, (s.removeHot i).2.pages)} + (s.removeHot i).1.regions := by
  have h := RegionArray.remove_regions hi
  simp only [regions, removeHot]
  rw [h, add_assoc]

theorem removeCold_regions {i : Nat} (hi : i < s.cold.len) :
    s.regions
      = {((s.removeCold i).2.base, (s.removeCold i).2.pages)} + (s.removeCold i).1.regions := by
  have h := RegionArray.remove_regions hi
  simp only [regions, removeCold]
  rw [h, add_left_comm]

/-- What is taken is what the shard loses. -/
theorem takeFit_regions (s : LargeRegionCache) (mapped : Nat) :
    s.regions = ((s.takeFit mapped).2.elim 0 fun x => {(x.base, x.pages)})
      + (s.takeFit mapped).1.regions := by
  unfold takeFit
  dsimp only
  split
  all_goals dsimp only [Option.elim]
  · rename_i h
    exact removeHot_regions (RegionArray.exactAt_lt h)
  · rename_i h
    exact removeCold_regions (RegionArray.exactAt_lt h)
  · rename_i h
    exact removeHot_regions (RegionArray.firstEqual_lt h)
  · rename_i h
    exact removeCold_regions (RegionArray.firstEqual_lt h)
  · rename_i h
    exact removeHot_regions (RegionArray.bestFit_lt h)
  · rename_i h
    exact removeCold_regions (RegionArray.bestFit_lt h)
  · rw [zero_add]

/-- What is loose after the region met its fate. -/
def unparked (base pages : Nat) : Fate → Multiset (Nat × Nat)
  | .unmap _ => {(base, pages)}
  | _ => 0

theorem park_regions (s : LargeRegionCache) (d : Discarded) (base pages mapped : Nat) :
    {(base, pages)} + s.regions = unparked base pages (s.park d base pages mapped).2
      + (s.park d base pages mapped).1.regions := by
  unfold park
  dsimp only
  split
  · simp only [unparked, regions, RegionArray.push_regions, zero_add, add_assoc]
  · split
    · simp only [unparked, regions, RegionArray.push_regions, zero_add, add_left_comm]
    · rfl

end LargeRegionCache

end Allox
