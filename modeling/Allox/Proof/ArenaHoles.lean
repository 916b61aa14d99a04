import Allox.Arena
import Mathlib.Data.Multiset.Bind
import Mathlib.Data.Multiset.Range

/-!
# The hole store as a multiset of slices

The order of the hole entries and the exact-size hints decide which hole is taken, never what is in
the store. A take removes one entry and puts the unused rest of it back; a give adds one entry.
-/

namespace Allox

theorem arenaAlign_pos : 0 < arenaAlign := by decide

/-! ### Slices -/

/-- The 64 KiB units of a slice. -/
def Slice.units (s : Slice) : Multiset Nat := (List.range' (s.off / arenaAlign) s.pages : List Nat)

/-- A slice starts on a unit boundary and is not empty. -/
def Slice.Aligned (s : Slice) : Prop := arenaAlign ∣ s.off ∧ 0 < s.pages

@[simp] theorem Slice.len_mk (off pages : Nat) :
    (⟨off, pages⟩ : Slice).len = pages * arenaAlign := rfl

theorem Slice.mem_units {s : Slice} {u : Nat} :
    u ∈ s.units ↔ s.off / arenaAlign ≤ u ∧ u < s.off / arenaAlign + s.pages := by
  simp [Slice.units, List.mem_range'_1]

theorem Slice.units_split {off p pages : Nat} (hle : pages ≤ p) :
    (⟨off, p⟩ : Slice).units
      = (⟨off, pages⟩ : Slice).units + (⟨off + pages * arenaAlign, p - pages⟩ : Slice).units := by
  have hoff : (off + pages * arenaAlign) / arenaAlign = off / arenaAlign + pages :=
    Nat.add_mul_div_right _ _ arenaAlign_pos
  simp only [Slice.units, Multiset.coe_add, hoff]
  congr 1
  rw [List.range'_append_1]
  congr 1
  omega

/-- The bytes of some slices. -/
def Slice.lenSum (m : Multiset Slice) : Nat := (m.map Slice.len).sum

@[simp] theorem Slice.lenSum_cons (s : Slice) (m : Multiset Slice) :
    Slice.lenSum (s ::ₘ m) = s.len + Slice.lenSum m := by
  simp [Slice.lenSum]

/-- Two aligned slices whose byte ranges meet have a unit in common. -/
theorem Slice.not_overlaps {s r : Slice} (hs : s.Aligned) (hr : r.Aligned)
    (hdisj : Disjoint s.units r.units) : s.overlaps r = false := by
  obtain ⟨⟨a, ha⟩, hp⟩ := hs
  obtain ⟨⟨b, hb⟩, hq⟩ := hr
  rw [← Bool.not_eq_true]
  intro hover
  simp only [Slice.overlaps, Slice.len, ha, hb, Bool.and_eq_true, decide_eq_true_eq] at hover
  have hone : a < b + r.pages :=
    Nat.lt_of_mul_lt_mul_left (a := arenaAlign) (by
      rw [Nat.mul_add, Nat.mul_comm _ r.pages]; exact hover.1)
  have htwo : b < a + s.pages :=
    Nat.lt_of_mul_lt_mul_left (a := arenaAlign) (by
      rw [Nat.mul_add, Nat.mul_comm _ s.pages]; exact hover.2)
  have hsa : s.off / arenaAlign = a := by rw [ha]; exact Nat.mul_div_cancel_left _ arenaAlign_pos
  have hrb : r.off / arenaAlign = b := by rw [hb]; exact Nat.mul_div_cancel_left _ arenaAlign_pos
  have hleft : max a b ∈ s.units := by rw [Slice.mem_units, hsa]; omega
  have hright : max a b ∈ r.units := by rw [Slice.mem_units, hrb]; omega
  exact Multiset.disjoint_left.1 hdisj hleft hright

/-! ### The entries of the store -/

namespace HoleStore

variable {h h' : HoleStore} {i pages off : Nat}

def slices (h : HoleStore) : Multiset Slice :=
  (Multiset.range h.len).map fun i => ⟨(h.entries i).1, (h.entries i).2⟩

theorem slices_congr (hlen : h'.len = h.len) (hentries : h'.entries = h.entries) :
    h'.slices = h.slices := by
  simp only [slices, hlen, hentries]

@[simp] theorem refreshExact_len (h : HoleStore) (pages : Nat) :
    (h.refreshExact pages).len = h.len := by
  unfold refreshExact; split <;> rfl

@[simp] theorem refreshExact_bytes (h : HoleStore) (pages : Nat) :
    (h.refreshExact pages).bytes = h.bytes := by
  unfold refreshExact; split <;> rfl

@[simp] theorem refreshExact_entries (h : HoleStore) (pages : Nat) :
    (h.refreshExact pages).entries = h.entries := by
  unfold refreshExact; split <;> rfl

@[simp] theorem refreshExact_slices (h : HoleStore) (pages : Nat) :
    (h.refreshExact pages).slices = h.slices :=
  slices_congr (by simp) (by simp)

theorem range_eq_cons_erase {n i : Nat} (hi : i < n) :
    Multiset.range n = i ::ₘ (Multiset.range n).erase i :=
  (Multiset.cons_erase (Multiset.mem_range.2 hi)).symm

/-- One entry, and the others. -/
theorem slices_eq_cons (hi : i < h.len) :
    h.slices = ⟨(h.entries i).1, (h.entries i).2⟩ ::ₘ
      ((Multiset.range h.len).erase i).map fun j => ⟨(h.entries j).1, (h.entries j).2⟩ := by
  rw [slices, range_eq_cons_erase hi, Multiset.map_cons, ← range_eq_cons_erase hi]

/-- Overwriting an entry exchanges one slice for another. -/
theorem slices_update (hi : i < h.len) (e : Nat × Nat) :
    ({ h with entries := Function.update h.entries i e } : HoleStore).slices
      = ⟨e.1, e.2⟩ ::ₘ ((Multiset.range h.len).erase i).map fun j =>
          ⟨(h.entries j).1, (h.entries j).2⟩ := by
  rw [slices_eq_cons (h := { h with entries := Function.update h.entries i e }) hi]
  simp only [Function.update_self]
  congr 1
  refine Multiset.map_congr rfl fun j hj => ?_
  have hne : j ≠ i := ((Multiset.nodup_range _).mem_erase_iff.1 hj).1
  rw [Function.update_of_ne hne]

theorem splitAt_slices (pages : Nat) (hi : i < h.len) :
    ∃ rest, h.slices = ⟨(h.entries i).1, (h.entries i).2⟩ ::ₘ rest ∧
      (h.splitAt i pages).slices
        = ⟨(h.entries i).1 + pages * arenaAlign, (h.entries i).2 - pages⟩ ::ₘ rest := by
  refine ⟨_, slices_eq_cons hi, ?_⟩
  rw [← slices_update hi ((h.entries i).1 + pages * arenaAlign, (h.entries i).2 - pages)]
  unfold splitAt
  dsimp only
  split
  · exact refreshExact_slices _ _
  · exact (slices_congr rfl rfl).trans (refreshExact_slices _ _)

theorem swapRemove_slices (hi : i < h.len) :
    h.slices = ⟨(h.entries i).1, (h.entries i).2⟩ ::ₘ (h.swapRemove i).slices := by
  obtain ⟨n, hn⟩ : ∃ n, h.len = n + 1 := ⟨h.len - 1, by omega⟩
  have hlast : (h.swapRemove i).slices
      = (Multiset.range n).map fun j =>
          ⟨(h.entries (if j = i then n else j)).1, (h.entries (if j = i then n else j)).2⟩ := by
    unfold swapRemove
    dsimp only
    rw [refreshExact_slices]
    simp only [hn, Nat.add_sub_cancel, slices]
    refine Multiset.map_congr rfl fun j hj => ?_
    have hjn : j ≠ n := (Multiset.mem_range.1 hj).ne
    by_cases hji : j = i
    · subst hji
      simp [Function.update_of_ne hjn]
    · simp [Function.update_of_ne hjn, hji]
  by_cases hin : i = n
  · subst hin
    rw [hlast, slices, hn, Multiset.range_succ, Multiset.map_cons]
    congr 1
    refine Multiset.map_congr rfl fun j hj => ?_
    rw [if_neg (Multiset.mem_range.1 hj).ne]
  · have hlt : i < n := by omega
    rw [hlast, slices, hn, Multiset.range_succ, Multiset.map_cons, range_eq_cons_erase hlt,
      Multiset.map_cons, Multiset.map_cons, if_pos rfl, Multiset.cons_swap]
    congr 2
    refine Multiset.map_congr rfl fun j hj => ?_
    rw [if_neg ((Multiset.nodup_range _).mem_erase_iff.1 hj).1]

/-! ### Which entry is taken -/

theorem exactIndex_entries (h : HoleStore) (pages : Nat) :
    (h.exactIndex pages).1.entries = h.entries := by
  unfold exactIndex
  split
  · rfl
  · dsimp only
    split <;> split <;> simp

theorem exactIndex_len (h : HoleStore) (pages : Nat) : (h.exactIndex pages).1.len = h.len := by
  unfold exactIndex
  split
  · rfl
  · dsimp only
    split <;> split <;> simp

theorem exactIndex_bytes (h : HoleStore) (pages : Nat) :
    (h.exactIndex pages).1.bytes = h.bytes := by
  unfold exactIndex
  split
  · rfl
  · dsimp only
    split <;> split <;> simp

theorem exactIndex_some (hi : (h.exactIndex pages).2 = some i) :
    i < h.len ∧ (h.entries i).2 = pages := by
  unfold exactIndex at hi
  split at hi
  · cases hi
  · dsimp only at hi
    -- the hint is checked again after the repair
    generalize hg : (if (h.len ≤ h.exact pages || (h.entries (h.exact pages)).2 != pages) = true
      then h.refreshExact pages else h) = g at hi
    have hlen : g.len = h.len := by rw [← hg]; split <;> simp
    have hentries : g.entries = h.entries := by rw [← hg]; split <;> simp
    split at hi
    · rename_i hhit
      rw [Bool.and_eq_true, decide_eq_true_eq, beq_iff_eq, hlen, hentries] at hhit
      cases hi
      exact hhit
    · cases hi

theorem scan_some {best : Option Nat} {n j : Nat} (hin : i + n ≤ h.len)
    (hbest : ∀ b ∈ best, b < h.len ∧ pages ≤ (h.entries b).2)
    (hj : h.scan pages i n best = some j) : j < h.len ∧ pages ≤ (h.entries j).2 := by
  induction n generalizing i best with
  | zero => exact hbest j (by simpa [scan] using hj)
  | succ n ih =>
      unfold scan at hj
      dsimp only at hj
      split at hj
      · rename_i heq
        cases hj
        exact ⟨by omega, heq.ge⟩
      · split at hj
        · rename_i hlt
          rw [Bool.and_eq_true, decide_eq_true_eq] at hlt
          refine ih (by omega) (fun b hb => ?_) hj
          cases hb
          exact ⟨by omega, hlt.1.le⟩
        · exact ih (by omega) hbest hj

/-! ### Take and give -/

/-- A take removes one entry and puts its unused rest back; a miss changes no entry. -/
theorem take_spec (h : HoleStore) (pages : Nat) :
    match h.take pages with
    | (h', none) => h'.slices = h.slices ∧ h'.len = h.len ∧ h'.bytes = h.bytes
    | (h', some off) => ∃ p rest, pages ≤ p ∧ h.slices = ⟨off, p⟩ ::ₘ rest ∧
        h'.bytes = h.bytes - pages * arenaAlign ∧ h'.len ≤ h.len ∧
        h'.slices = if pages < p then ⟨off + pages * arenaAlign, p - pages⟩ ::ₘ rest else rest := by
  obtain ⟨g, hint⟩ : ∃ g, g = h.exactIndex pages := ⟨_, rfl⟩
  have hlen : g.1.len = h.len := hint ▸ exactIndex_len h pages
  have hentries : g.1.entries = h.entries := hint ▸ exactIndex_entries h pages
  have hbytes : g.1.bytes = h.bytes := hint ▸ exactIndex_bytes h pages
  have hslices : g.1.slices = h.slices := slices_congr hlen hentries
  unfold take
  rw [← hint]
  dsimp only
  cases hbest : g.2.orElse fun _ => g.1.scan pages 0 g.1.len none with
  | none => exact ⟨hslices, hlen, hbytes⟩
  | some i =>
      have hi : i < g.1.len ∧ pages ≤ (g.1.entries i).2 := by
        cases hg : g.2 with
        | none =>
            rw [hg] at hbest
            exact scan_some (by omega) (by simp) hbest
        | some j =>
            rw [hg] at hbest
            cases hbest
            have hj := exactIndex_some (hint ▸ hg)
            rw [hlen, hentries]
            exact ⟨hj.1, hj.2.ge⟩
      obtain ⟨hilt, hple⟩ := hi
      dsimp only
      by_cases hlt : pages < (g.1.entries i).2
      · rw [if_pos hlt]
        obtain ⟨rest, hrest, hsplit⟩ :=
          splitAt_slices (h := { g.1 with bytes := g.1.bytes - pages * arenaAlign }) pages hilt
        refine ⟨_, rest, hple, hslices ▸ hrest, ?_, ?_, ?_⟩
        · unfold splitAt; dsimp only; split <;> simp [hbytes]
        · unfold splitAt; dsimp only; split <;> simp [hlen]
        · rw [if_pos hlt]
          exact hsplit
      · rw [if_neg hlt]
        refine ⟨_, _, hple, hslices ▸ swapRemove_slices
          (h := { g.1 with bytes := g.1.bytes - pages * arenaAlign }) hilt, ?_, ?_, ?_⟩
        · simp [swapRemove, hbytes]
        · simp only [swapRemove, refreshExact_len]; omega
        · rw [if_neg hlt]

theorem give_spec (h : HoleStore) (off pages : Nat) :
    match h.give off pages with
    | none => True
    | some h' => h'.slices = ⟨off, pages⟩ ::ₘ h.slices ∧ h'.len ≤ holeSlots ∧
        h'.bytes = h.bytes + pages * arenaAlign ∧ h'.bytes ≤ holeCapBytes := by
  unfold give
  dsimp only
  split
  · rename_i heq
    split at heq
    · simp at heq
    · trivial
  · rename_i h' heq
    split at heq
    · rename_i hroom
      rw [Bool.and_eq_true, decide_eq_true_eq, decide_eq_true_eq] at hroom
      cases heq
      have hadd : ∀ g : HoleStore, g.len = h.len + 1 →
          g.entries = Function.update h.entries h.len (off, pages) →
          g.slices = ⟨off, pages⟩ ::ₘ h.slices := by
        intro g hlen hentries
        rw [slices, hlen, Multiset.range_succ, Multiset.map_cons, hentries]
        simp only [Function.update_self, slices]
        congr 1
        refine Multiset.map_congr rfl fun j hj => ?_
        rw [Function.update_of_ne (Multiset.mem_range.1 hj).ne]
      split
      · exact ⟨hadd _ rfl rfl, Nat.succ_le_of_lt hroom.1, rfl, hroom.2⟩
      · exact ⟨hadd _ rfl rfl, Nat.succ_le_of_lt hroom.1, rfl, hroom.2⟩
    · cases heq

end HoleStore

end Allox
