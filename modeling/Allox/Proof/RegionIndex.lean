import Allox.Proof.Large
import Mathlib.Algebra.BigOperators.Group.Multiset.Basic

/-!
# The index of a shard

`exact` names, for every page count it covers, an entry of that size whenever there is one. The
insertion keeps an entry it already names; the removal moves the last entry into the gap, so it first
follows the entry that moved and then looks the removed size up again unless the hint still holds.
With the index exact, `take_fit` prefers as `TakesFit` says, and takes each entry with its own flags.
-/

namespace Allox

open ArrayPrefix

namespace RegionArray

variable {a b : RegionArray} {i w pages : Nat}

/-! ### Entries with their flags -/

def itemAt (a : RegionArray) (i : Nat) : TakenRegion :=
  ⟨(a.entries i).1, (a.entries i).2, a.zeroed i, a.decommitted i⟩

def items (a : RegionArray) : Multiset TakenRegion := upto a.itemAt a.len

def pagesBytes (m : Multiset TakenRegion) : Nat := (m.map fun x => x.pages * pageSize).sum

@[simp] theorem pagesBytes_add (m n : Multiset TakenRegion) :
    pagesBytes (m + n) = pagesBytes m + pagesBytes n := by
  simp [pagesBytes]

@[simp] theorem pagesBytes_singleton (x : TakenRegion) :
    pagesBytes {x} = x.pages * pageSize := by
  simp [pagesBytes]

theorem mem_items {x : TakenRegion} : x ∈ a.items ↔ ∃ j < a.len, a.itemAt j = x := mem_upto

/-- What the index does not say. -/
structure SameItems (a b : RegionArray) : Prop where
  len : b.len = a.len
  bytes : b.bytes = a.bytes
  entries : b.entries = a.entries
  zeroed : b.zeroed = a.zeroed
  decommitted : b.decommitted = a.decommitted

theorem SameItems.refl (a : RegionArray) : SameItems a a := ⟨rfl, rfl, rfl, rfl, rfl⟩

theorem SameItems.trans {c : RegionArray} (h : SameItems a b) (h' : SameItems b c) :
    SameItems a c :=
  ⟨h'.len.trans h.len, h'.bytes.trans h.bytes, h'.entries.trans h.entries,
    h'.zeroed.trans h.zeroed, h'.decommitted.trans h.decommitted⟩

theorem SameItems.items (h : SameItems a b) : b.items = a.items := by
  have hat : b.itemAt = a.itemAt := by
    funext j
    rw [itemAt, itemAt, h.entries, h.zeroed, h.decommitted]
  rw [RegionArray.items, hat, h.len, RegionArray.items]

theorem SameItems.refreshExact (a : RegionArray) (pages : Nat) :
    SameItems a (a.refreshExact pages) := by
  unfold RegionArray.refreshExact
  split
  · exact SameItems.refl a
  · exact ⟨rfl, rfl, rfl, rfl, rfl⟩

theorem SameItems.index (a : RegionArray) (i pages : Nat) : SameItems a (a.index i pages) := by
  unfold RegionArray.index
  split
  · exact SameItems.refl a
  · dsimp only
    split
    · exact ⟨rfl, rfl, rfl, rfl, rfl⟩
    · split
      · exact SameItems.refreshExact a pages
      · exact SameItems.refl a

theorem SameItems.moveHint (a : RegionArray) (i last : Nat) : SameItems a (a.moveHint i last) := by
  unfold RegionArray.moveHint
  dsimp only
  split
  · exact ⟨rfl, rfl, rfl, rfl, rfl⟩
  · exact SameItems.refl a

theorem SameItems.dropHint (a : RegionArray) (i removed : Nat) :
    SameItems a (a.dropHint i removed) := by
  unfold RegionArray.dropHint
  dsimp only
  split
  · exact SameItems.refreshExact a removed
  · exact SameItems.refl a

/-! ### The index -/

/-- The hint for `w` names an entry of that size, or there is none and it says so. -/
def IndexedAt (a : RegionArray) (w : Nat) : Prop :=
  a.exact w = emptyLargeIndex ∧ (∀ j < a.len, (a.entries j).2 ≠ w) ∨
    a.exact w < a.len ∧ (a.entries (a.exact w)).2 = w

def Indexed (a : RegionArray) : Prop := ∀ w ≤ largeExactMaxPages, a.IndexedAt w

theorem IndexedAt.congr (hlen : b.len = a.len) (hentries : b.entries = a.entries)
    (hexact : b.exact w = a.exact w) (h : a.IndexedAt w) : b.IndexedAt w := by
  unfold IndexedAt at h ⊢
  rwa [hlen, hentries, hexact]

theorem refreshExact_indexedAt (hw : w ≤ largeExactMaxPages) : (a.refreshExact w).IndexedAt w := by
  unfold refreshExact
  rw [if_neg (Nat.not_lt.2 hw)]
  dsimp only
  unfold IndexedAt
  dsimp only
  rw [Function.update_self]
  cases hfind : (List.range a.len).find? fun j => (a.entries j).2 == w with
  | none =>
      refine .inl ⟨rfl, fun j hj => ?_⟩
      simpa using List.find?_eq_none.1 hfind j (List.mem_range.2 hj)
  | some j =>
      obtain ⟨hj, hsize⟩ := find?_range_lt hfind
      exact .inr ⟨hj, beq_iff_eq.1 hsize⟩

/-- Looking one size up leaves the hints of the others. -/
theorem refreshExact_exact (hne : w ≠ pages) : (a.refreshExact pages).exact w = a.exact w := by
  unfold refreshExact
  split
  · rfl
  · exact Function.update_of_ne hne _ _

theorem index_exact (hne : w ≠ pages) : (a.index i pages).exact w = a.exact w := by
  unfold index
  split
  · rfl
  · dsimp only
    split
    · exact Function.update_of_ne hne _ _
    · split
      · exact refreshExact_exact hne
      · rfl

/-- After an append at `i`, the hint of that size is right again. -/
theorem index_indexedAt (hi : i < a.len) (hentry : (a.entries i).2 = w)
    (hw : w ≤ largeExactMaxPages) : (a.index i w).IndexedAt w := by
  unfold index
  rw [if_neg (Nat.not_lt.2 hw)]
  dsimp only
  split
  · right
    dsimp only
    rw [Function.update_self]
    exact ⟨hi, hentry⟩
  · split
    · exact refreshExact_indexedAt hw
    · rename_i hgood
      rw [Bool.or_eq_true, decide_eq_true_eq, bne_iff_ne, not_or, not_le, not_not] at hgood
      exact .inr hgood

theorem push_indexed (h : a.Indexed) (base pages mapped : Nat) (zeroed decommitted : Bool) :
    (a.push base pages mapped zeroed decommitted).Indexed := by
  intro w hw
  unfold push
  dsimp only
  by_cases heq : w = pages
  · subst heq
    exact index_indexedAt (Nat.lt_succ_self a.len) (by dsimp only; rw [Function.update_self]) hw
  · have hsame := SameItems.index
      { a with
        entries := Function.update a.entries a.len (base, pages)
        zeroed := Function.update a.zeroed a.len zeroed
        decommitted := Function.update a.decommitted a.len decommitted
        len := a.len + 1
        bytes := a.bytes + mapped } a.len pages
    refine IndexedAt.congr hsame.len hsame.entries (index_exact heq) ?_
    obtain ⟨hempty, hnone⟩ | ⟨hlt, hsize⟩ := h w hw
    · refine .inl ⟨hempty, fun j hj => ?_⟩
      dsimp only at hj ⊢
      rcases Nat.lt_succ_iff_lt_or_eq.1 hj with hj | rfl
      · rw [Function.update_of_ne hj.ne]
        exact hnone j hj
      · rw [Function.update_self]
        exact Ne.symm heq
    · refine .inr ⟨Nat.lt_succ_of_lt hlt, ?_⟩
      dsimp only
      rw [Function.update_of_ne hlt.ne]
      exact hsize

/-! ### Removal -/

/-- Below the new length the gap holds the last entry and nothing else changed. -/
theorem swapOut_entries {last j : Nat} (hj : j < last) :
    (a.swapOut i last).entries j = a.entries (if j = i then last else j) := by
  unfold swapOut
  dsimp only
  rw [Function.update_of_ne hj.ne]
  by_cases heq : j = i
  · rw [heq, Function.update_self, if_pos rfl]
  · rw [Function.update_of_ne heq, if_neg heq]

theorem swapOut_itemAt {last j : Nat} (hj : j < last) :
    (a.swapOut i last).itemAt j = Function.update a.itemAt i (a.itemAt last) j := by
  unfold itemAt swapOut
  dsimp only
  rw [Function.update_of_ne hj.ne, Function.update_of_ne hj.ne, Function.update_of_ne hj.ne]
  by_cases heq : j = i
  · rw [heq]
    simp only [Function.update_self]
  · simp only [Function.update_of_ne heq]

/-- The hints of the sizes other than the removed one are right before that size is looked up. -/
theorem moveHint_indexedAt {last : Nat} (h : a.Indexed) (hlen : a.len = last + 1) (hi : i ≤ last)
    (hw : w ≤ largeExactMaxPages) (hne : w ≠ (a.entries i).2) :
    ((a.swapOut i last).moveHint i last).IndexedAt w := by
  have hsame := SameItems.moveHint (a.swapOut i last) i last
  obtain ⟨hempty, hnone⟩ | ⟨hlt, hsize⟩ := h w hw
  · left
    constructor
    · unfold moveHint
      dsimp only
      split
      · rename_i hmoved
        rw [Bool.and_eq_true, Bool.and_eq_true, decide_eq_true_eq] at hmoved
        have hilast : i < last := hmoved.1.1
        -- the entry that moved has another size
        have hother : w ≠ ((a.swapOut i last).entries i).2 := by
          rw [swapOut_entries hilast, if_pos rfl]
          exact (hnone last (by omega)).symm
        exact (Function.update_of_ne hother _ _).trans hempty
      · exact hempty
    · intro j hj
      rw [hsame.len] at hj
      have hjlast : j < last := hj
      rw [hsame.entries, swapOut_entries hjlast]
      split
      · exact hnone last (by omega)
      · exact hnone j (by omega)
  · right
    have hki : a.exact w ≠ i := by
      intro heq
      rw [heq] at hsize
      exact hne hsize.symm
    rw [hsame.len, hsame.entries]
    by_cases hlast : a.exact w = last
    · -- the entry the hint named is the one that moved
      have hilast : i < last := by omega
      have hmoved : ((a.swapOut i last).entries i).2 = w := by
        rw [swapOut_entries hilast, if_pos rfl, ← hlast]
        exact hsize
      have hhint : ((a.swapOut i last).moveHint i last).exact w = i := by
        unfold moveHint
        dsimp only
        rw [hmoved, if_pos]
        · exact Function.update_self _ _ _
        · rw [Bool.and_eq_true, Bool.and_eq_true, decide_eq_true_eq, decide_eq_true_eq, beq_iff_eq]
          exact ⟨⟨hilast, hw⟩, hlast⟩
      rw [hhint]
      exact ⟨hilast, hmoved⟩
    · have hklast : a.exact w < last := by omega
      have hhint : ((a.swapOut i last).moveHint i last).exact w = a.exact w := by
        unfold moveHint
        dsimp only
        split
        · rename_i hmoved
          rw [Bool.and_eq_true, beq_iff_eq] at hmoved
          have hother : w ≠ ((a.swapOut i last).entries i).2 := by
            intro heq
            rw [← heq] at hmoved
            exact hlast hmoved.2
          exact Function.update_of_ne hother _ _
        · rfl
      rw [hhint, swapOut_entries hklast, if_neg hki]
      exact ⟨hklast, hsize⟩

theorem dropHint_exact {removed : Nat} (hne : w ≠ removed) :
    (a.dropHint i removed).exact w = a.exact w := by
  unfold dropHint
  dsimp only
  split
  · exact refreshExact_exact hne
  · rfl

theorem dropHint_indexedAt (hw : w ≤ largeExactMaxPages) : (a.dropHint i w).IndexedAt w := by
  unfold dropHint
  dsimp only
  split
  · exact refreshExact_indexedAt hw
  · rename_i hgood
    rw [Bool.and_eq_true, Bool.or_eq_true, Bool.or_eq_true, decide_eq_true_eq, decide_eq_true_eq,
      decide_eq_true_eq, bne_iff_ne, not_and, not_or, not_or, not_le, not_not] at hgood
    obtain ⟨⟨-, hlt⟩, hsize⟩ := hgood hw
    exact .inr ⟨hlt, hsize⟩

theorem remove_indexed (h : a.Indexed) (hi : i < a.len) : (a.remove i).1.Indexed := by
  obtain ⟨last, hlen⟩ : ∃ last, a.len = last + 1 := ⟨a.len - 1, by omega⟩
  intro w hw
  unfold remove
  dsimp only
  rw [hlen, Nat.add_sub_cancel]
  by_cases heq : w = (a.entries i).2
  · rw [← heq]
    exact dropHint_indexedAt hw
  · have hsame := SameItems.dropHint ((a.swapOut i last).moveHint i last) i (a.entries i).2
    refine IndexedAt.congr hsame.len hsame.entries (dropHint_exact heq) ?_
    exact moveHint_indexedAt h hlen (by omega) hw heq

theorem remove_sameItems (a : RegionArray) (i : Nat) :
    SameItems (a.swapOut i (a.len - 1)) (a.remove i).1 :=
  (SameItems.moveHint _ _ _).trans (SameItems.dropHint _ _ _)

/-- A removal takes out one entry, with its flags. -/
theorem remove_items (hi : i < a.len) : a.items = {(a.remove i).2} + (a.remove i).1.items := by
  obtain ⟨last, hlen⟩ : ∃ last, a.len = last + 1 := ⟨a.len - 1, by omega⟩
  rw [(remove_sameItems a i).items, hlen, Nat.add_sub_cancel]
  have hswap : (a.swapOut i last).items = upto (Function.update a.itemAt i (a.itemAt last)) last :=
    upto_congr fun j hj => swapOut_itemAt hj
  rw [hswap, items, hlen, upto_swapRemove (i := i) (by omega)]
  rfl

theorem remove_bytes (a : RegionArray) (i : Nat) :
    (a.remove i).1.bytes = a.bytes - (a.remove i).2.pages * pageSize :=
  (remove_sameItems a i).bytes

theorem remove_len (a : RegionArray) (i : Nat) : (a.remove i).1.len = a.len - 1 :=
  (remove_sameItems a i).len

theorem push_items (base pages mapped : Nat) (zeroed decommitted : Bool) :
    (a.push base pages mapped zeroed decommitted).items
      = {⟨base, pages, zeroed, decommitted⟩} + a.items := by
  unfold push
  dsimp only
  rw [(SameItems.index _ _ _).items, items, upto_succ]
  congr 1
  · simp only [itemAt, Function.update_self]
  · refine upto_congr fun j hj => ?_
    have hne : j ≠ a.len := hj.ne
    simp only [itemAt, Function.update_of_ne hne]

/-! ### The arrays a shard can hold -/

/-- `slots` bounds the entries, so that no index is ever the empty mark. -/
structure Ok (a : RegionArray) (slots : Nat) : Prop where
  indexed : a.Indexed
  room : a.len ≤ slots
  bytes : a.bytes = pagesBytes a.items

theorem Ok.new (slots : Nat) : (RegionArray.new).Ok slots where
  indexed := fun _ _ => .inl ⟨rfl, fun j hj => absurd hj (Nat.not_lt_zero j)⟩
  room := Nat.zero_le slots
  bytes := rfl

theorem push_len (base pages mapped : Nat) (zeroed decommitted : Bool) :
    (a.push base pages mapped zeroed decommitted).len = a.len + 1 :=
  (SameItems.index _ _ _).len

theorem push_bytes (base pages mapped : Nat) (zeroed decommitted : Bool) :
    (a.push base pages mapped zeroed decommitted).bytes = a.bytes + mapped :=
  (SameItems.index _ _ _).bytes

theorem Ok.push {slots : Nat} (h : a.Ok slots) (hroom : a.len < slots) {base pages mapped : Nat}
    (hmapped : mapped = pages * pageSize) (zeroed decommitted : Bool) :
    (a.push base pages mapped zeroed decommitted).Ok slots where
  indexed := push_indexed h.indexed base pages mapped zeroed decommitted
  room := by rw [push_len]; exact hroom
  bytes := by
    rw [push_bytes, push_items, pagesBytes_add, pagesBytes_singleton, h.bytes, hmapped, add_comm]

theorem Ok.remove {slots : Nat} (h : a.Ok slots) (hi : i < a.len) : (a.remove i).1.Ok slots where
  indexed := remove_indexed h.indexed hi
  room := by
    have hroom := h.room
    rw [remove_len]
    omega
  bytes := by
    rw [remove_bytes, h.bytes, remove_items hi, pagesBytes_add, pagesBytes_singleton,
      Nat.add_sub_cancel_left]

/-! ### Searching -/

theorem exactAt_some (h : a.exactAt w = some i) : i < a.len ∧ (a.entries i).2 = w := by
  unfold exactAt at h
  split at h
  · cases h
  · dsimp only at h
    split at h
    · rename_i hfound
      cases h
      rw [Bool.and_eq_true, decide_eq_true_eq, beq_iff_eq] at hfound
      exact hfound
    · cases h

theorem exactAt_covered (h : a.exactAt w = some i) : w ≤ largeExactMaxPages := by
  unfold exactAt at h
  split at h
  · cases h
  · rename_i hcovered
    exact Nat.not_lt.1 hcovered

/-- A size the index covers and does not name is not there. -/
theorem exactAt_none (hindexed : a.Indexed) (hw : w ≤ largeExactMaxPages)
    (h : a.exactAt w = none) : ∀ x ∈ a.items, x.pages ≠ w := by
  intro x hx
  obtain ⟨j, hj, rfl⟩ := mem_items.1 hx
  obtain ⟨-, hnone⟩ | ⟨hlt, hsize⟩ := hindexed w hw
  · exact hnone j hj
  · unfold exactAt at h
    rw [if_neg (Nat.not_lt.2 hw)] at h
    dsimp only at h
    rw [if_pos] at h
    · cases h
    · rw [Bool.and_eq_true, decide_eq_true_eq, beq_iff_eq]
      exact ⟨hlt, hsize⟩

theorem firstEqual_some (h : a.firstEqual w = some i) : i < a.len ∧ (a.entries i).2 = w := by
  obtain ⟨hi, hsize⟩ := find?_range_lt h
  exact ⟨hi, beq_iff_eq.1 hsize⟩

theorem firstEqual_none (h : a.firstEqual w = none) : ∀ x ∈ a.items, x.pages ≠ w := by
  intro x hx
  obtain ⟨j, hj, rfl⟩ := mem_items.1 hx
  have hmiss := List.find?_eq_none.1 h j (List.mem_range.2 hj)
  rw [beq_iff_eq] at hmiss
  exact hmiss

theorem bestFit_spec (a : RegionArray) (mapped : Nat) :
    match a.bestFit mapped with
    | none => ∀ x ∈ a.items, x.pages * pageSize < mapped
    | some i => i < a.len ∧ mapped ≤ (a.entries i).2 * pageSize ∧
        ∀ x ∈ a.items, mapped ≤ x.pages * pageSize → (a.entries i).2 ≤ x.pages := by
  have hsearch := foldl_smallest (p := fun j => decide (mapped ≤ (a.entries j).2 * pageSize))
    (s := fun j => (a.entries j).2) (fun _ _ => rfl) a.len
  unfold bestFit
  dsimp only
  revert hsearch
  generalize (List.range a.len).foldl _ none = best
  intro hsearch
  cases best with
  | none =>
      intro x hx
      obtain ⟨j, hj, rfl⟩ := mem_items.1 hx
      exact Nat.not_le.1 (of_decide_eq_false (hsearch j hj))
  | some i =>
      obtain ⟨hi, hfits, hleast⟩ := hsearch
      refine ⟨hi, of_decide_eq_true hfits, fun x hx hle => ?_⟩
      obtain ⟨j, hj, rfl⟩ := mem_items.1 hx
      exact hleast j hj (decide_eq_true hle)

end RegionArray

open RegionArray

/-! ### The choice of a shard -/

/-- What taking `w` pages from the hot and cold entries of a shard may return and leave. -/
inductive TakesFit (hot cold : Multiset TakenRegion) (w : Nat) :
    Option TakenRegion → Multiset TakenRegion → Multiset TakenRegion → Prop
  | exactHot {x : TakenRegion} {left : Multiset TakenRegion} (hx : hot = {x} + left)
      (hsize : x.pages = w) : TakesFit hot cold w (some x) left cold
  | exactCold {x : TakenRegion} {left : Multiset TakenRegion} (hhot : ∀ y ∈ hot, y.pages ≠ w)
      (hx : cold = {x} + left) (hsize : x.pages = w) : TakesFit hot cold w (some x) hot left
  | smallestHot {x : TakenRegion} {left : Multiset TakenRegion} (hhot : ∀ y ∈ hot, y.pages ≠ w)
      (hcold : ∀ y ∈ cold, y.pages ≠ w) (hx : hot = {x} + left) (hlarger : w < x.pages)
      (hleast : ∀ y ∈ hot, w < y.pages → x.pages ≤ y.pages) : TakesFit hot cold w (some x) left cold
  | smallestCold {x : TakenRegion} {left : Multiset TakenRegion} (hhot : ∀ y ∈ hot, y.pages < w)
      (hcold : ∀ y ∈ cold, y.pages ≠ w) (hx : cold = {x} + left) (hlarger : w < x.pages)
      (hleast : ∀ y ∈ cold, w < y.pages → x.pages ≤ y.pages) : TakesFit hot cold w (some x) hot left
  | miss (hhot : ∀ y ∈ hot, y.pages < w) (hcold : ∀ y ∈ cold, y.pages < w) :
      TakesFit hot cold w none hot cold

namespace LargeRegionCache

variable {s : LargeRegionCache}

structure Ok (s : LargeRegionCache) : Prop where
  hot : s.hot.Ok largeShardSlots
  cold : s.cold.Ok largeColdSlots
  kept : ∀ i, s.hot.decommitted i = false

/-- The states insertions of whole regions and removals lead to. -/
inductive Reach : LargeRegionCache → Prop
  | new : Reach .new
  | park {s : LargeRegionCache} (d : Discarded) (base : Nat) {mapped : Nat}
      (hwhole : pageSize ∣ mapped) (h : Reach s) :
      Reach (s.park d base (mapped / pageSize % 2 ^ 32) mapped).1
  | take {s : LargeRegionCache} (mapped : Nat) (h : Reach s) : Reach (s.takeFit mapped).1

theorem Ok.new : (LargeRegionCache.new).Ok := ⟨.new _, .new _, fun _ => rfl⟩

/-- The page count of a region within a shard's bound is not cut off. -/
theorem pages_of_capped {mapped cap : Nat} (hwhole : pageSize ∣ mapped) (hle : mapped ≤ cap)
    (hcap : cap < pageSize * 2 ^ 32) : mapped = mapped / pageSize % 2 ^ 32 * pageSize := by
  have hsmall : mapped / pageSize < 2 ^ 32 :=
    Nat.div_lt_of_lt_mul (lt_of_le_of_lt hle hcap)
  rw [Nat.mod_eq_of_lt hsmall]
  exact (Nat.div_mul_cancel hwhole).symm

theorem push_decommitted (a : RegionArray) (base pages mapped : Nat) (z d : Bool) :
    (a.push base pages mapped z d).decommitted = Function.update a.decommitted a.len d :=
  (SameItems.index _ _ _).decommitted

theorem Ok.park (h : s.Ok) (d : Discarded) (base : Nat) {mapped : Nat}
    (hwhole : pageSize ∣ mapped) :
    (s.park d base (mapped / pageSize % 2 ^ 32) mapped).1.Ok := by
  unfold LargeRegionCache.park
  split
  · rename_i hfits
    rw [Bool.and_eq_true, decide_eq_true_eq, decide_eq_true_eq] at hfits
    have hmapped := pages_of_capped hwhole (le_trans (Nat.le_add_left _ _) hfits.2) (by decide)
    refine ⟨h.hot.push hfits.1 hmapped _ _, h.cold, fun i => ?_⟩
    dsimp only
    rw [push_decommitted]
    by_cases heq : i = s.hot.len
    · rw [heq, Function.update_self]
    · rw [Function.update_of_ne heq]
      exact h.kept i
  · split
    · rename_i hfits
      rw [Bool.and_eq_true, decide_eq_true_eq, decide_eq_true_eq] at hfits
      have hmapped := pages_of_capped hwhole (le_trans (Nat.le_add_left _ _) hfits.2) (by decide)
      exact ⟨h.hot, h.cold.push hfits.1 hmapped _ _, h.kept⟩
    · exact h

theorem remove_decommitted {a : RegionArray} (h : ∀ i, a.decommitted i = false) (i j : Nat) :
    (a.remove i).1.decommitted j = false := by
  rw [(remove_sameItems a i).decommitted]
  unfold swapOut
  dsimp only
  rw [Function.update_apply, Function.update_apply]
  split
  · rfl
  · split
    · exact h _
    · exact h _

theorem Ok.removeHot (h : s.Ok) {i : Nat} (hi : i < s.hot.len) : (s.removeHot i).1.Ok :=
  ⟨h.hot.remove hi, h.cold, fun j => remove_decommitted h.kept i j⟩

theorem Ok.removeCold (h : s.Ok) {i : Nat} (hi : i < s.cold.len) : (s.removeCold i).1.Ok :=
  ⟨h.hot, h.cold.remove hi, h.kept⟩

theorem Ok.takeFit (h : s.Ok) (mapped : Nat) : (s.takeFit mapped).1.Ok := by
  unfold LargeRegionCache.takeFit
  dsimp only
  split
  · rename_i hfound
    exact h.removeHot (exactAt_lt hfound)
  · rename_i hfound
    exact h.removeCold (exactAt_lt hfound)
  · rename_i hfound
    exact h.removeHot (firstEqual_lt hfound)
  · rename_i hfound
    exact h.removeCold (firstEqual_lt hfound)
  · rename_i hfound
    exact h.removeHot (bestFit_lt hfound)
  · rename_i hfound
    exact h.removeCold (bestFit_lt hfound)
  · exact h

theorem Reach.ok (h : Reach s) : s.Ok := by
  induction h with
  | new => exact .new
  | park d base hwhole _ ih => exact ih.park d base hwhole
  | take mapped _ ih => exact ih.takeFit mapped

/-! ### What is taken -/

theorem Ok.takeFit_takesFit (h : s.Ok) {w : Nat} (hw : w < 2 ^ 32) :
    TakesFit s.hot.items s.cold.items w (s.takeFit (w * pageSize)).2
      (s.takeFit (w * pageSize)).1.hot.items (s.takeFit (w * pageSize)).1.cold.items := by
  have hpos : 0 < pageSize := by decide
  have hwanted : w * pageSize / pageSize % 2 ^ 32 = w := by
    rw [Nat.mul_div_cancel _ hpos, Nat.mod_eq_of_lt hw]
  have hhotFit := s.hot.bestFit_spec (w * pageSize)
  have hcoldFit := s.cold.bestFit_spec (w * pageSize)
  unfold LargeRegionCache.takeFit
  dsimp only
  rw [hwanted]
  cases hhotAt : s.hot.exactAt w with
  | some i =>
      obtain ⟨hi, hsize⟩ := exactAt_some hhotAt
      exact .exactHot (remove_items hi) hsize
  | none =>
  cases hcoldAt : s.cold.exactAt w with
  | some i =>
      obtain ⟨hi, hsize⟩ := exactAt_some hcoldAt
      have hnone := exactAt_none h.hot.indexed (exactAt_covered hcoldAt) hhotAt
      exact .exactCold hnone (remove_items hi) hsize
  | none =>
  cases hhotFirst : s.hot.firstEqual w with
  | some i =>
      obtain ⟨hi, hsize⟩ := firstEqual_some hhotFirst
      exact .exactHot (remove_items hi) hsize
  | none =>
  have hhotNone := firstEqual_none hhotFirst
  cases hcoldFirst : s.cold.firstEqual w with
  | some i =>
      obtain ⟨hi, hsize⟩ := firstEqual_some hcoldFirst
      exact .exactCold hhotNone (remove_items hi) hsize
  | none =>
  have hcoldNone := firstEqual_none hcoldFirst
  -- no exact size is left, so fitting means being larger
  have hlarger : ∀ {p : Nat}, p ≠ w → w * pageSize ≤ p * pageSize → w < p := fun hne hle =>
    lt_of_le_of_ne (Nat.le_of_mul_le_mul_right hle hpos) (Ne.symm hne)
  cases hhotBest : s.hot.bestFit (w * pageSize) with
  | some i =>
      rw [hhotBest] at hhotFit
      obtain ⟨hi, hfits, hleast⟩ := hhotFit
      refine .smallestHot hhotNone hcoldNone (remove_items hi)
        (hlarger (hhotNone _ (mem_items.2 ⟨i, hi, rfl⟩)) hfits) fun y hy hlt => ?_
      exact hleast y hy (Nat.mul_le_mul_right _ hlt.le)
  | none =>
  rw [hhotBest] at hhotFit
  have hhotSmall : ∀ y ∈ s.hot.items, y.pages < w := fun y hy =>
    Nat.lt_of_mul_lt_mul_right (hhotFit y hy)
  cases hcoldBest : s.cold.bestFit (w * pageSize) with
  | some i =>
      rw [hcoldBest] at hcoldFit
      obtain ⟨hi, hfits, hleast⟩ := hcoldFit
      refine .smallestCold hhotSmall hcoldNone (remove_items hi)
        (hlarger (hcoldNone _ (mem_items.2 ⟨i, hi, rfl⟩)) hfits) fun y hy hlt => ?_
      exact hleast y hy (Nat.mul_le_mul_right _ hlt.le)
  | none =>
      rw [hcoldBest] at hcoldFit
      exact .miss hhotSmall fun y hy => Nat.lt_of_mul_lt_mul_right (hcoldFit y hy)

end LargeRegionCache

/-! ### Selection and index -/

/-- The hint of every covered size is the empty mark exactly when the array has no entry of that
size, and otherwise the place of one. -/
def RegionArray.IndexExact (a : RegionArray) : Prop :=
  ∀ w ≤ largeExactMaxPages,
    (a.exact w = emptyLargeIndex ↔ ∀ x ∈ a.items, x.pages ≠ w) ∧
      (a.exact w ≠ emptyLargeIndex → a.exact w < a.len ∧ (a.entries (a.exact w)).2 = w)

theorem RegionArray.Ok.indexExact {a : RegionArray} {slots : Nat} (h : a.Ok slots)
    (hslots : slots < emptyLargeIndex) : a.IndexExact := by
  intro w hw
  obtain ⟨hempty, hnone⟩ | ⟨hlt, hsize⟩ := h.indexed w hw
  · refine ⟨⟨fun _ x hx => ?_, fun _ => hempty⟩, fun hne => absurd hempty hne⟩
    obtain ⟨j, hj, rfl⟩ := mem_items.1 hx
    exact hnone j hj
  · have hroom := h.room
    refine ⟨⟨fun heq => ?_, fun hnone => ?_⟩, fun _ => ⟨hlt, hsize⟩⟩
    · omega
    · exact absurd hsize (hnone (a.itemAt (a.exact w)) (mem_items.2 ⟨_, hlt, rfl⟩))

namespace LargeRegionCache

variable {s : LargeRegionCache}

/-- **Selection and index of a shard.** In every state insertions and removals lead to, both indices
are exact, the byte counts are those of the entries, and `take_fit` takes what `TakesFit` says. -/
theorem region_cache_selection (hreach : s.Reach) :
    s.hot.IndexExact ∧ s.cold.IndexExact ∧ s.hot.bytes = pagesBytes s.hot.items ∧
      s.cold.bytes = pagesBytes s.cold.items ∧
      ∀ w, 1 ≤ w → w < 2 ^ 32 →
        TakesFit s.hot.items s.cold.items w (s.takeFit (w * pageSize)).2
          (s.takeFit (w * pageSize)).1.hot.items (s.takeFit (w * pageSize)).1.cold.items := by
  have h := hreach.ok
  refine ⟨h.hot.indexExact (by decide), h.cold.indexExact (by decide), h.hot.bytes, h.cold.bytes,
    fun w _ hw => h.takeFit_takesFit hw⟩

/-- Two hot regions, the smaller of which serves a request below both. -/
theorem region_cache_selection_two :
    ((((LargeRegionCache.new.park ⟨false, false⟩ 0x10000 2 (2 * pageSize)).1.park ⟨false, false⟩
      0x90000 3 (3 * pageSize)).1.takeFit (1 * pageSize)).2.map fun x => x.base) = some 0x10000 ∧
    (LargeRegionCache.new.park ⟨false, false⟩ 0x10000 2 (2 * pageSize)).1.hot.IndexExact := by
  have hreach : (LargeRegionCache.new.park ⟨false, false⟩ 0x10000 2 (2 * pageSize)).1.Reach :=
    .park ⟨false, false⟩ 0x10000 (Dvd.intro_left 2 rfl) .new
  exact ⟨by decide +kernel, (region_cache_selection hreach).1⟩

end LargeRegionCache

end Allox
