import Allox.SideTable
import Allox.Proof.ArenaOwnership

/-!
# The side table names the owner of every unit

While an operation rewrites the table words of a slice in its hand it knows what they are, because
nobody else writes them: the slices are disjoint. So every word is accounted for at every moment, and
when no operation is running every word is what the role of the slice says.
-/

namespace Allox

open Resumption

/-- The table word a slice in this use has at unit `u`. -/
def Use.entry (s : Slice) : Use → Nat → Nat → Nat
  | .rest role, start, _ => role.entry s start
  | .writing entries, start, u => entries start u

@[simp] theorem Use.entry_plain (s : Slice) (start u : Nat) : Use.plain.entry s start u = 0 := rfl

/-- Every word is the one its slice asks for, and a unit of no slice has a zero. -/
def Coherent (start : Nat) (table : Nat → Nat) (M : Multiset (Slice × Use)) : Prop :=
  (∀ x ∈ M, ∀ u ∈ x.1.units, table u = x.2.entry x.1 start u) ∧
    ∀ u, (∀ x ∈ M, u ∉ x.1.units) → table u = 0

namespace ArenaWorld

/-- All slices of callers and operations, with or without entries. -/
def claimed (w : ArenaWorld) (M : Multiset (Slice × Use)) : Multiset (Slice × Use) :=
  ((w.pool.map fun x => (x.1, Use.rest x.2) : List (Slice × Use)) : Multiset (Slice × Use)) + M

variable {cap : Nat} {w : ArenaWorld} {s : Slice} {use : Use} {M : Stake}

/-- Slices of different claims have no unit in common. -/
theorem Held.claimed_disjoint {J : Nat → (Nat → Nat) → Multiset (Slice × Use) → Prop}
    (h : w.Held J cap M) {x y : Slice × Use} {rest : Multiset (Slice × Use)}
    (hclaimed : w.claimed M.1 = x ::ₘ y ::ₘ rest) : Disjoint x.1.units y.1.units := by
  have hslices : w.slices
      = (w.claimed M.1).map Prod.fst + (w.arena.holes.slices + (w.lost : List Slice)) := by
    simp [slices, claimed, h.hands, add_assoc, Function.comp_def]
  rw [hclaimed, Multiset.map_cons, Multiset.map_cons, Multiset.cons_add, Multiset.cons_add]
    at hslices
  exact h.partition.disjoint hslices

/-- The plain slices may be counted in. -/
theorem Held.coherent (h : w.Held Coherent cap M) :
    Coherent w.arena.start w.bigMap (w.claimed M.1) := by
  obtain ⟨hentries, hzero⟩ := h.table
  refine ⟨fun x hx u hu => ?_, fun u hnone => hzero u fun x hx => hnone x (Multiset.mem_of_mem_filter hx)⟩
  by_cases hplain : x.2.isPlain
  · obtain ⟨rest, hrest⟩ := Multiset.exists_cons_of_mem hx
    have hentry : x.2.entry x.1 w.arena.start u = 0 := by
      obtain ⟨s, use⟩ := x
      cases use with
      | rest role => cases role <;> first | rfl | cases hplain
      | writing _ => cases hplain
    rw [hentry]
    refine hzero u fun y hy huy => ?_
    obtain ⟨hymem, hynot⟩ := Multiset.mem_filter.1 hy
    change y ∈ w.claimed M.1 at hymem
    rw [hrest] at hymem
    rcases Multiset.mem_cons.1 hymem with rfl | hymem
    · simp [hplain] at hynot
    · obtain ⟨rest', rfl⟩ := Multiset.exists_cons_of_mem hymem
      exact Multiset.disjoint_left.1 (h.claimed_disjoint hrest) hu huy
  · exact hentries x (Multiset.mem_filter.2 ⟨hx, by simpa using hplain⟩) u hu

theorem coherent_marked (h : Coherent w.arena.start w.bigMap (w.claimed M.1)) :
    Coherent w.arena.start w.bigMap (w.marked M.1) := by
  refine ⟨fun x hx => h.1 x (Multiset.mem_of_mem_filter hx), fun u hnone => ?_⟩
  by_cases hcov : ∃ x ∈ w.claimed M.1, u ∈ x.1.units
  · obtain ⟨x, hx, hu⟩ := hcov
    rw [h.1 x hx u hu]
    by_cases hplain : x.2.isPlain
    · obtain ⟨s, use⟩ := x
      cases use with
      | rest role => cases role <;> first | rfl | cases hplain
      | writing _ => cases hplain
    · exact absurd hu (hnone x (Multiset.mem_filter.2 ⟨hx, by simpa using hplain⟩))
  · exact h.2 u fun x hx hu => hcov ⟨x, hx, hu⟩

end ArenaWorld

open ArenaWorld

variable {cap : Nat} {s : Slice}

theorem claimed_own (w : ArenaWorld) (use : Use) (M : Stake) :
    w.claimed (Stake.own s use + M).1 = (s, use) ::ₘ w.claimed M.1 := by
  simp [claimed, Stake.own]

/-- A slice may be held under another use with the same words. -/
theorem shift_use (use use' : Use) (hentry : ∀ start, ∀ u ∈ s.units,
    use.entry s start u = use'.entry s start u) (held : Stake) :
    Shift (Held Coherent cap) (Stake.own s use + held) (Stake.own s use' + held) := by
  intro w frame h
  have hall := h.coherent
  rw [add_assoc] at h hall ⊢
  rw [claimed_own] at hall
  refine ⟨h.size, by simpa [Stake.own] using h.hands, h.partition, ?_,
    by simpa [Stake.own] using h.ready⟩
  refine coherent_marked (M := Stake.own s use' + (held + frame)) ?_
  rw [claimed_own]
  refine ⟨fun x hx u hu => ?_, fun u hnone => ?_⟩
  · rcases Multiset.mem_cons.1 hx with rfl | hx
    · rw [hall.1 (s, use) (by simp) u hu]
      exact hentry _ u hu
    · exact hall.1 x (Multiset.mem_cons_of_mem hx) u hu
  · refine hall.2 u fun x hx => ?_
    rcases Multiset.mem_cons.1 hx with rfl | hx
    · exact hnone (s, use') (by simp)
    · exact hnone x (Multiset.mem_cons_of_mem hx)

/-! ### Writing the table -/

/-- What the words are after a store. -/
def stored (entries : Nat → Nat → Nat) (i : Nat) (word : Nat → Nat) : Nat → Nat → Nat :=
  fun start u => if u = i then word start else entries start u

theorem keeps_store {entries : Nat → Nat → Nat} {i : Nat} (hi : i ∈ s.units) (word : Nat → Nat)
    (held : Stake) :
    Keeps (Held Coherent cap) noTok ((SideTable.store i word).run ())
      (Stake.own s (.writing entries) + held)
      fun _ _ held' => held' = Stake.own s (.writing (stored entries i word)) + held := by
  refine keeps_section
    (fun _ held' => held' = Stake.own s (.writing (stored entries i word)) + held)
    fun e w frame h => ⟨_, ?_, rfl⟩
  have hall := h.coherent
  rw [add_assoc] at h hall ⊢
  rw [claimed_own] at hall
  refine ⟨h.size, by simpa [Stake.own] using h.hands,
    { h.partition with }, ?_, by simpa [Stake.own] using h.ready⟩
  refine coherent_marked
    (M := Stake.own s (.writing (stored entries i word)) + (held + frame)) ?_
  rw [claimed_own]
  dsimp only
  refine ⟨fun x hx u hu => ?_, fun u hnone => ?_⟩
  · rcases Multiset.mem_cons.1 hx with rfl | hx
    · by_cases hui : u = i
      · simp [hui, Use.entry, stored]
      · rw [Function.update_of_ne hui, hall.1 (s, .writing entries) (by simp) u hu]
        simp [Use.entry, stored, hui]
    · have hui : u ≠ i := by
        rintro rfl
        obtain ⟨rest, hrest⟩ := Multiset.exists_cons_of_mem hx
        have hclaimed : w.claimed (Stake.own s (.writing entries) + (held + frame)).1
            = (s, .writing entries) ::ₘ x ::ₘ rest := (claimed_own w _ _).trans (congrArg _ hrest)
        exact Multiset.disjoint_left.1 (h.claimed_disjoint hclaimed) hi hu
      rw [Function.update_of_ne hui]
      exact hall.1 x (Multiset.mem_cons_of_mem hx) u hu
  · have hui : u ≠ i := by
      rintro rfl
      exact hnone _ (Multiset.mem_cons_self _ _) hi
    rw [Function.update_of_ne hui]
    refine hall.2 u fun x hx => ?_
    rcases Multiset.mem_cons.1 hx with rfl | hx
    · exact hnone (s, .writing (stored entries i word)) (Multiset.mem_cons_self _ _)
    · exact hnone x (Multiset.mem_cons_of_mem hx)

/-- The loop over a run of units within the slice. -/
theorem keeps_storeFrom {entries : Nat → Nat → Nat} (word : Nat → Nat) {i n : Nat}
    (hrun : ∀ u, i ≤ u → u < i + n → u ∈ s.units) (held : Stake) :
    Keeps (Held Coherent cap) noTok ((SideTable.storeFrom word i n).run ())
      (Stake.own s (.writing entries) + held) fun _ _ held' =>
        held' = Stake.own s (.writing fun start u =>
          if i ≤ u ∧ u < i + n then word start else entries start u) + held := by
  induction n generalizing i entries with
  | zero =>
      refine Keeps.shift (shift_use _ _ (fun start u _ => ?_) held) (Keeps.done rfl)
      simp [Use.entry, show ¬(i ≤ u ∧ u < i) by omega]
  | succ n ih =>
      refine Keeps.bind (keeps_store (hrun i le_rfl (by omega)) word held) ?_
      rintro ⟨⟩ ⟨⟩ held' rfl
      refine (ih fun u hu hlt => hrun u (by omega) (by omega)).weaken ?_
      rintro ⟨⟩ ⟨⟩ held' rfl
      refine ⟨_, shift_use _ _ (fun start u _ => ?_) held, rfl⟩
      simp only [Use.entry, stored]
      by_cases hui : u = i
      · simp [hui]
      · by_cases hin : i + 1 ≤ u ∧ u < i + 1 + n
        · rw [if_pos hin, if_pos (by omega)]
        · rw [if_neg hin, if_neg hui, if_neg (by omega)]

/-- The whole slice is in the table's range, so `*_table_set` and `*_table_clear` write all of it. -/
theorem ArenaWorld.Held.bigPageRange_own {J : Nat → (Nat → Nat) → Multiset (Slice × Use) → Prop}
    {w : ArenaWorld} {use : Use} {M : Stake} (h : w.Held J arenaSize (Stake.own s use + M)) :
    w.bigPageRange s = some (s.off / arenaAlign) := by
  have hs : s ∈ w.slices := by simp [slices, h.mem_hands]
  have hready : w.arena.status = .ready := by
    by_contra hne
    exact h.partition.no_slices hne s hs
  obtain ⟨⟨a, ha⟩, hpos⟩ := h.partition.aligned s hs
  have hend := (h.partition.end_le hs).trans h.partition.bump_le
  have hlimit := h.partition.limit_eq hready
  have hsize := h.size
  have hslots : bigMapSlots * arenaAlign = arenaSize := by decide
  have hlen : s.len = (s.pages - 1) * arenaAlign + arenaAlign := by
    rw [Slice.len, ← Nat.succ_mul, Nat.succ_eq_add_one, Nat.sub_add_cancel hpos]
  have halign := arenaAlign_pos
  have hdiv : s.off / arenaAlign = a := by rw [ha]; exact Nat.mul_div_cancel_left _ halign
  have hunits : (a + s.pages) * arenaAlign ≤ bigMapSlots * arenaAlign := by
    rw [hslots, Nat.add_mul, Nat.mul_comm a, ← ha]
    exact hsize ▸ hend
  have hfit := Nat.le_of_mul_le_mul_right hunits halign
  have hlast : ¬ w.arena.limit - w.arena.start ≤ s.off + (s.pages - 1) * arenaAlign := by omega
  have hslot : (decide (bigMapSlots ≤ a) || decide (bigMapSlots - a < s.pages)) = false := by
    simp only [Bool.or_eq_false_iff, decide_eq_false_iff_not]
    omega
  simp [bigPageRange, hpos.ne', hready, hlast, hdiv, hslot]

theorem keeps_tableStore (use : Use) (word : Nat → Nat) (held : Stake) :
    Keeps (Held Coherent arenaSize) noTok ((SideTable.tableStore s word).run ())
      (Stake.own s use + held)
      fun _ _ held' => held' = Stake.own s (.writing fun start _ => word start) + held := by
  have hrange : Keeps (Held Coherent arenaSize) noTok
      ((Act.atomic fun _ w => (w, w.bigPageRange s) : ArenaAct (Option Nat)).run ())
      (Stake.own s use + held) fun idx _ held' =>
        idx = some (s.off / arenaAlign) ∧ held' = Stake.own s use + held :=
    keeps_section (fun idx held' => idx = some (s.off / arenaAlign) ∧ held' = Stake.own s use + held)
      fun e w frame h => ⟨_, h, by
        rw [add_assoc] at h
        exact h.bigPageRange_own, rfl⟩
  refine Keeps.bind hrange ?_
  rintro idx ⟨⟩ held' ⟨rfl, rfl⟩
  refine Keeps.shift (shift_use use (.writing fun start u => use.entry s start u)
    (fun _ _ _ => rfl) held) ?_
  refine (keeps_storeFrom word (fun u hu hlt => Slice.mem_units.2 ⟨hu, hlt⟩) held).weaken ?_
  rintro ⟨⟩ ⟨⟩ held' rfl
  refine ⟨_, shift_use _ _ (fun start u hu => ?_) held, rfl⟩
  simp only [Use.entry]
  rw [if_pos (Slice.mem_units.1 hu)]

/-- Setting the words that belong to the role the slice is about to get. -/
theorem keeps_tableSet (use : Use) (role : Role) (held : Stake) :
    Keeps (Held Coherent arenaSize) noTok ((SideTable.tableStore s (role.entry s)).run ())
      (Stake.own s use + held) fun _ _ held' => held' = Stake.own s (.rest role) + held := by
  refine (keeps_tableStore use (role.entry s) held).weaken ?_
  rintro ⟨⟩ ⟨⟩ held' rfl
  exact ⟨_, shift_use (.writing fun start _ => role.entry s start) (.rest role)
    (fun _ _ _ => rfl) held, rfl⟩

theorem keeps_tableClear (use : Use) (held : Stake) :
    Keeps (Held Coherent arenaSize) noTok ((SideTable.tableStore s fun _ => 0).run ())
      (Stake.own s use + held) fun _ _ held' => held' = Stake.own s .plain + held := by
  refine (keeps_tableStore use (fun _ => 0) held).weaken ?_
  rintro ⟨⟩ ⟨⟩ held' rfl
  exact ⟨_, shift_use (.writing fun _ _ => 0) .plain (fun _ _ _ => rfl) held, rfl⟩

/-! ### The operations -/

theorem coherent_empty (start start' : Nat) (table : Nat → Nat) (h : Coherent start table 0) :
    Coherent start' table 0 :=
  ⟨by simp, h.2⟩

theorem ArenaWorld.Held.contains_own {w : ArenaWorld} {use : Use} {M : Stake}
    (h : w.Held Coherent cap (Stake.own s use + M)) :
    w.arena.contains (w.arena.start + s.off) s.len = true := by
  have hs : s ∈ w.slices := by simp [slices, h.mem_hands]
  have hready : w.arena.status = .ready := by
    by_contra hne
    exact h.partition.no_slices hne s hs
  have hend := (h.partition.end_le hs).trans h.partition.bump_le
  have hlimit := h.partition.limit_eq hready
  simp only [Arena.contains, hready, decide_true, Bool.true_and, Bool.and_eq_true,
    decide_eq_true_eq]
  omega

theorem keeps_contains (use : Use) (held : Stake) :
    Keeps (Held Coherent cap) noTok ((SideTable.contains s).run ()) (Stake.own s use + held)
      fun (ok : Bool) _ held' => ok = true ∧ held' = Stake.own s use + held :=
  keeps_section (fun (ok : Bool) held' => ok = true ∧ held' = Stake.own s use + held)
    fun e w frame h => ⟨_, h, by
      rw [add_assoc] at h
      exact h.contains_own, rfl⟩

/-- Bringing a slice to rest under a role with the same words. -/
theorem keeps_settle_as (role role' : Role) (hentry : ∀ start, role.entry s start = role'.entry s start)
    (held : Stake) :
    Keeps (Held Coherent cap) noTok ((Arena.settle [s] s role').run ())
      (Stake.own s (.rest role) + held) fun _ _ held' => held' = held :=
  Keeps.shift (shift_use (.rest role) (.rest role') (fun start _ _ => hentry start) held)
    (keeps_settle_same s role' held)

theorem keeps_release_as (role : Role) (hentry : ∀ start, role.entry s start = 0) (held : Stake) :
    Keeps (Held Coherent cap) noTok ((Arena.release s).run ())
      (Stake.own s (.rest role) + held) fun _ _ held' => held' = held :=
  Keeps.shift (shift_use (.rest role) .plain (fun start _ _ => hentry start) held)
    (keeps_release s held)

theorem keeps_spanTableSet (tier : SpanTier) (use : Use) (held : Stake) :
    Keeps (Held Coherent arenaSize) noTok ((SideTable.spanTableSet tier s).run ())
      (Stake.own s use + held)
      fun _ _ held' => held' = Stake.own s (.rest (.span tier .inUse)) + held := by
  cases tier with
  | medium => exact keeps_tableSet use (.span .medium .inUse) held
  | big => exact keeps_tableSet use (.span .big .inUse) held

theorem keeps_spanTableClear (tier : SpanTier) (use : Use) (held : Stake) :
    Keeps (Held Coherent arenaSize) noTok ((SideTable.spanTableClear tier s).run ())
      (Stake.own s use + held) fun _ _ held' => held' = Stake.own s .plain + held := by
  cases tier with
  | medium => exact keeps_tableClear use held
  | big => exact keeps_tableClear use held

theorem keeps_registerLargeRegion (alignLog : Nat) (use : Use) (held : Stake) :
    Keeps (Held Coherent arenaSize) noTok ((SideTable.registerLargeRegion s alignLog).run ())
      (Stake.own s use + held)
      fun _ _ held' => held' = Stake.own s (.rest (.large alignLog)) + held := by
  refine Keeps.bind (keeps_contains use held) ?_
  rintro ok ⟨⟩ held' ⟨rfl, rfl⟩
  exact keeps_tableSet use (.large alignLog) held

theorem keeps_unregisterLargeRegion (use : Use) (held : Stake) :
    Keeps (Held Coherent arenaSize) noTok ((SideTable.unregisterLargeRegion s).run ())
      (Stake.own s use + held) fun _ _ held' => held' = Stake.own s .plain + held := by
  refine Keeps.bind (keeps_contains use held) ?_
  rintro ok ⟨⟩ held' ⟨rfl, rfl⟩
  exact keeps_tableClear use held

/-- Nothing but the words of the tier depends on the state of a span. -/
theorem entry_span (tier : SpanTier) (state state' : SpanState) (start : Nat) :
    (Role.span tier state).entry s start = (Role.span tier state').entry s start := by
  cases tier <;> rfl

theorem keeps_carveSpan (tier : SpanTier) (pages spins : Nat) :
    Keeps (Held Coherent arenaSize) noTok ((SideTable.carveSpan tier pages spins).run ()) 0
      fun _ _ held' => held' = 0 := by
  refine Keeps.bind (keeps_commit coherent_empty pages spins 0) ?_
  rintro (_ | ⟨off, fresh⟩) ⟨⟩ held rfl
  · exact Keeps.done rfl
  · refine Keeps.bind (keeps_spanTableSet tier .plain 0) ?_
    rintro ⟨⟩ ⟨⟩ held rfl
    exact keeps_settle_same _ _ 0

theorem keeps_releaseSpan (tier : SpanTier) :
    Keeps (Held Coherent arenaSize) noTok ((SideTable.releaseSpan tier).run ()) 0
      fun _ _ held' => held' = 0 := by
  refine Keeps.bind (keeps_takeSlice _ 0) ?_
  rintro ⟨s, role⟩ ⟨⟩ held ⟨hwant, rfl⟩
  obtain rfl : role = .span tier .inUse := by simpa using hwant
  refine Keeps.bind (keeps_read (fun e _ => e.pick) _) ?_
  rintro fate ⟨⟩ held rfl
  dsimp only
  split
  · exact keeps_settle_as _ _ (entry_span tier _ _) 0
  · refine Keeps.bind (keeps_discard 0) ?_
    rintro ⟨⟩ ⟨⟩ held rfl
    exact keeps_settle_as _ _ (entry_span tier _ _) 0
  · refine Keeps.bind (keeps_contains _ 0) ?_
    rintro ok ⟨⟩ held ⟨rfl, rfl⟩
    refine Keeps.bind (keeps_spanTableClear tier _ 0) ?_
    rintro ⟨⟩ ⟨⟩ held rfl
    exact keeps_release s 0

theorem keeps_reuseSpan (tier : SpanTier) :
    Keeps (Held Coherent arenaSize) noTok ((SideTable.reuseSpan tier).run ()) 0
      fun _ _ held' => held' = 0 := by
  refine Keeps.bind (keeps_takeSlice _ 0) ?_
  rintro ⟨s, role⟩ ⟨⟩ held ⟨hwant, rfl⟩
  have hrole : ∃ state, role = .span tier state := by
    simp only [Bool.or_eq_true, decide_eq_true_eq] at hwant
    exact hwant.elim (fun h => ⟨_, h⟩) fun h => ⟨_, h⟩
  obtain ⟨state, rfl⟩ := hrole
  exact keeps_settle_as _ _ (entry_span tier _ _) 0

theorem keeps_allocLarge (pages spins size alignLog : Nat) :
    Keeps (Held Coherent arenaSize) noTok
      ((SideTable.allocLarge pages spins size alignLog).run ()) 0 fun _ _ held' => held' = 0 := by
  refine Keeps.bind (keeps_commit coherent_empty pages spins 0) ?_
  rintro (_ | ⟨off, fresh⟩) ⟨⟩ held rfl
  · exact Keeps.done rfl
  · refine Keeps.bind (keeps_read _ _) ?_
    rintro (_ | _) ⟨⟩ held rfl
    · exact keeps_release _ 0
    · refine Keeps.bind (keeps_registerLargeRegion alignLog .plain 0) ?_
      rintro ⟨⟩ ⟨⟩ held rfl
      exact keeps_settle_same _ _ 0

theorem keeps_reuseLarge (size alignLog : Nat) (purge : Bool) :
    Keeps (Held Coherent arenaSize) noTok
      ((SideTable.reuseLarge size alignLog purge).run ()) 0 fun _ _ held' => held' = 0 := by
  refine Keeps.bind (keeps_takeSlice _ 0) ?_
  rintro ⟨s, role⟩ ⟨⟩ held ⟨hwant, rfl⟩
  obtain rfl : role = .parked := by simpa using hwant
  refine Keeps.bind (keeps_read _ _) ?_
  rintro (_ | _) ⟨⟩ held rfl
  · exact keeps_release_as .parked (fun _ => rfl) 0
  · have hend : Keeps (Held Coherent arenaSize) noTok
        ((SideTable.registerLargeRegion s alignLog >>= fun _ =>
          Arena.settle [s] s (.large alignLog)).run ()) (Stake.own s (.rest .parked) + 0)
        fun _ _ held' => held' = 0 := by
      refine Keeps.bind (keeps_registerLargeRegion alignLog _ 0) ?_
      rintro ⟨⟩ ⟨⟩ held rfl
      exact keeps_settle_same _ _ 0
    cases purge with
    | false => exact hend
    | true =>
        refine Keeps.bind (keeps_discard 0) ?_
        rintro ⟨⟩ ⟨⟩ held rfl
        exact hend

theorem keeps_freeLarge :
    Keeps (Held Coherent arenaSize) noTok (SideTable.freeLarge.run ()) 0
      fun _ _ held' => held' = 0 := by
  refine Keeps.bind (keeps_takeSlice _ 0) ?_
  rintro ⟨s, role⟩ ⟨⟩ held ⟨-, rfl⟩
  refine Keeps.bind (keeps_unregisterLargeRegion _ 0) ?_
  rintro ⟨⟩ ⟨⟩ held rfl
  refine Keeps.bind (keeps_read (fun e _ => e.pick) _) ?_
  rintro fate ⟨⟩ held rfl
  dsimp only
  split
  · exact keeps_settle_as .plain .parked (fun _ => rfl) 0
  · refine Keeps.bind (keeps_discard 0) ?_
    rintro ⟨⟩ ⟨⟩ held rfl
    exact keeps_settle_as .plain .parked (fun _ => rfl) 0
  · exact keeps_release s 0

theorem keeps_dropParked :
    Keeps (Held Coherent arenaSize) noTok (SideTable.dropParked.run ()) 0
      fun _ _ held' => held' = 0 := by
  refine Keeps.bind (keeps_takeSlice _ 0) ?_
  rintro ⟨s, role⟩ ⟨⟩ held ⟨hwant, rfl⟩
  obtain rfl : role = .parked := by simpa using hwant
  exact keeps_release_as .parked (fun _ => rfl) 0

/-- A region and the pages added behind it name the same header, so they can be one slice. -/
theorem coherent_grown {newPages alignLog start : Nat} {table : Nat → Nat}
    {others : Multiset (Slice × Use)} (hlt : s.pages < newPages)
    (h : Coherent start table ({(s, .rest (.large alignLog)),
      (Arena.addedSlice s newPages, .writing fun start _ => (Role.large alignLog).entry s start)}
        + others)) :
    Coherent start table ({(⟨s.off, newPages⟩, .rest (.large alignLog))} + others) := by
  have hsplit : (⟨s.off, newPages⟩ : Slice).units
      = s.units + (Arena.addedSlice s newPages).units := Slice.units_split hlt.le
  obtain ⟨hentries, hzero⟩ := h
  refine ⟨fun x hx u hu => ?_, fun u hnone => hzero u fun x hx => ?_⟩
  · rcases Multiset.mem_add.1 hx with hx | hx
    · obtain rfl := Multiset.mem_singleton.1 hx
      rw [hsplit, Multiset.mem_add] at hu
      rcases hu with hu | hu
      · exact hentries (s, .rest (.large alignLog)) (by simp) u hu
      · exact hentries (Arena.addedSlice s newPages,
          .writing fun start _ => (Role.large alignLog).entry s start) (by simp) u hu
    · exact hentries x (Multiset.mem_add.2 (.inr hx)) u hu
  · have hwhole := hnone (⟨s.off, newPages⟩, .rest (.large alignLog)) (by simp)
    rw [hsplit, Multiset.mem_add, not_or] at hwhole
    simp only [Multiset.insert_eq_cons, Multiset.cons_add, Multiset.singleton_add,
      Multiset.mem_cons] at hx
    rcases hx with rfl | rfl | hx
    · exact hwhole.1
    · exact hwhole.2
    · exact hnone x (Multiset.mem_add.2 (.inr hx))

theorem keeps_growLarge (newPages : Nat) :
    Keeps (Held Coherent arenaSize) noTok ((SideTable.growLarge newPages).run ()) 0
      fun _ _ held' => held' = 0 := by
  refine Keeps.bind (keeps_takeSlice _ 0) ?_
  rintro ⟨s, role⟩ ⟨⟩ held ⟨hwant, rfl⟩
  obtain ⟨alignLog, rfl⟩ : ∃ alignLog, role = .large alignLog := by
    cases role with
    | large alignLog => exact ⟨alignLog, rfl⟩
    | _ => cases hwant
  refine Keeps.bind (keeps_growFrontier s _ newPages 0) ?_
  rintro (_ | _) ⟨⟩ held ⟨hlt, rfl⟩
  · exact keeps_settle_same s _ 0
  · refine Keeps.bind (keeps_tableStore .plain ((Role.large alignLog).entry s) _) ?_
    rintro ⟨⟩ ⟨⟩ held rfl
    exact keeps_settle_grown (hlt rfl) (fun st table others h => coherent_grown (hlt rfl) h) 0

theorem keeps_tableOps (op : TableOp) :
    Pays (Held Coherent arenaSize) noTok (fun _ => True) ((tableOps op).run ()) 0 := by
  have hpays {p : Prog ArenaWorld Unit ArenaEnv Unit}
      (h : Keeps (Held Coherent arenaSize) noTok p 0 fun _ _ held' => held' = 0) :
      Pays (Held Coherent arenaSize) noTok (fun _ => True) p 0 :=
    h.mono fun _ _ _ hpost => ⟨trivial, hpost⟩
  cases op with
  | arena op => exact keeps_arenaOps coherent_empty op
  | carveSpan tier pages spins => exact hpays (keeps_carveSpan tier pages spins)
  | releaseSpan tier => exact hpays (keeps_releaseSpan tier)
  | reuseSpan tier => exact hpays (keeps_reuseSpan tier)
  | allocLarge pages spins size alignLog => exact hpays (keeps_allocLarge pages spins size alignLog)
  | reuseLarge size alignLog purge => exact hpays (keeps_reuseLarge size alignLog purge)
  | freeLarge => exact hpays keeps_freeLarge
  | dropParked => exact hpays keeps_dropParked
  | growLarge newPages => exact hpays (keeps_growLarge newPages)

/-! ### What the lookups find -/

/-- What each lookup should find at a slice with this role. -/
def Role.bigMaster (s : Slice) (start : Nat) : Role → Nat
  | .span .big _ => start + s.off
  | _ => 0

def Role.mediumMaster (s : Slice) (start : Nat) : Role → Nat
  | .span .medium _ => start + s.off
  | _ => 0

def Role.largeHeader (s : Slice) (start : Nat) : Role → Nat
  | .large alignLog => largeHeaderAt (start + s.off) (2 ^ alignLog)
  | _ => 0

theorem alignUp_of_dvd {v align : Nat} (hpos : 0 < align) (h : align ∣ v) : alignUp v align = v := by
  obtain ⟨k, rfl⟩ := h
  rw [alignUp, Nat.add_sub_assoc hpos, Nat.mul_add_div hpos, Nat.div_eq_of_lt (by omega),
    Nat.add_zero, Nat.mul_comm]

/-- Headers are 16-aligned, which keeps both tag bits clear. -/
theorem dvd_largeHeaderAt {base : Nat} (hbase : 16 ∣ base) (alignLog : Nat) :
    16 ∣ largeHeaderAt base (2 ^ alignLog) := by
  have hheader : 16 ∣ base + largeHeaderSize := Nat.dvd_add hbase ⟨3, rfl⟩
  refine Nat.dvd_sub ?_ ⟨3, rfl⟩
  rcases Nat.le_total alignLog 4 with hle | hle
  · rw [alignUp_of_dvd (Nat.two_pow_pos _) ((Nat.pow_dvd_pow 2 hle).trans hheader)]
    exact hheader
  · exact (Nat.pow_dvd_pow 2 hle).trans (Nat.dvd_mul_left _ _)

theorem and_of_mod {x c m : Nat} (hx : x % 4 = c) (hm : m < 4) : x &&& m = c &&& m := by
  have hlt : x &&& m < 4 := lt_of_le_of_lt Nat.and_le_right hm
  rw [← Nat.mod_eq_of_lt hlt, show 4 = 2 ^ 2 from rfl, Nat.and_mod_two_pow]
  rw [show 2 ^ 2 = 4 from rfl, hx, Nat.mod_eq_of_lt hm]

theorem or_of_dvd {x c : Nat} (hx : 4 ∣ x) (hc : c < 4) : x ||| c = x + c := by
  obtain ⟨k, rfl⟩ := hx
  exact (Nat.two_pow_add_eq_or_of_lt (i := 2) hc k).symm

namespace ArenaWorld

/-- At a word of this role, each lookup finds what the role says. -/
theorem lookups_of_entry {w : ArenaWorld} {p idx : Nat} {s : Slice} {role : Role}
    (hidx : w.bigPageIndex p = some idx)
    (hword : w.bigMap idx = role.entry s w.arena.start) (haligned : 16 ∣ w.arena.start + s.off) :
    w.bigTableGet p = role.bigMaster s w.arena.start ∧
    w.mediumTableGet p = role.mediumMaster s w.arena.start ∧
    w.largeTableGet p = role.largeHeader s w.arena.start := by
  simp only [bigTableGet, mediumTableGet, largeTableGet, hidx, hword, largeTableTag,
    mediumTableTag]
  have hmaster : 4 ∣ w.arena.start + s.off := Nat.dvd_trans ⟨4, rfl⟩ haligned
  cases role with
  | plain => simp [Role.entry, Role.bigMaster, Role.mediumMaster, Role.largeHeader]
  | parked => simp [Role.entry, Role.bigMaster, Role.mediumMaster, Role.largeHeader]
  | span tier state =>
      cases tier with
      | medium =>
          have hmod : (w.arena.start + s.off + 2) % 4 = 2 := by omega
          simp [Role.entry, Role.bigMaster, Role.mediumMaster, Role.largeHeader, mediumTableTag,
            or_of_dvd hmaster, and_of_mod hmod]
      | big =>
          have hmod : (w.arena.start + s.off) % 4 = 0 := by omega
          simp [Role.entry, Role.bigMaster, Role.mediumMaster, Role.largeHeader, and_of_mod hmod]
  | large alignLog =>
      have hheader : 4 ∣ largeHeaderAt (w.arena.start + s.off) (2 ^ alignLog) :=
        Nat.dvd_trans ⟨4, rfl⟩ (dvd_largeHeaderAt haligned alignLog)
      have hmod : (largeHeaderAt (w.arena.start + s.off) (2 ^ alignLog) + 1) % 4 = 1 := by omega
      simp [Role.entry, Role.bigMaster, Role.mediumMaster, Role.largeHeader, largeTableTag,
        or_of_dvd hheader, and_of_mod hmod]

/-- `p` lies in the slice, as an address. -/
def At (w : ArenaWorld) (s : Slice) (p : Nat) : Prop :=
  w.arena.start + s.off ≤ p ∧ p < w.arena.start + s.off + s.len

/-- The table at rest: words and lookups. -/
structure TableNamesOwners (w : ArenaWorld) : Prop where
  words : ∀ x ∈ w.pool, ∀ u ∈ x.1.units, w.bigMap u = x.2.entry x.1 w.arena.start
  clean : ∀ u, (∀ x ∈ w.pool, u ∉ x.1.units) → w.bigMap u = 0
  owner : ∀ x ∈ w.pool, ∀ p, w.At x.1 p →
    w.bigTableGet p = x.2.bigMaster x.1 w.arena.start ∧
    w.mediumTableGet p = x.2.mediumMaster x.1 w.arena.start ∧
    w.largeTableGet p = x.2.largeHeader x.1 w.arena.start
  nobody : ∀ p, (∀ x ∈ w.pool, ¬ w.At x.1 p) →
    w.bigTableGet p = 0 ∧ w.mediumTableGet p = 0 ∧ w.largeTableGet p = 0
  exclusive : ∀ p, w.bigTableGet p = 0 ∧ w.mediumTableGet p = 0 ∨
    w.bigTableGet p = 0 ∧ w.largeTableGet p = 0 ∨ w.mediumTableGet p = 0 ∧ w.largeTableGet p = 0

variable {w : ArenaWorld}

theorem lookups_none {p : Nat} (h : w.bigPageIndex p = none) :
    w.bigTableGet p = 0 ∧ w.mediumTableGet p = 0 ∧ w.largeTableGet p = 0 := by
  simp [bigTableGet, mediumTableGet, largeTableGet, h]

theorem lookups_zero {p idx : Nat} (h : w.bigPageIndex p = some idx) (hzero : w.bigMap idx = 0) :
    w.bigTableGet p = 0 ∧ w.mediumTableGet p = 0 ∧ w.largeTableGet p = 0 := by
  simp [bigTableGet, mediumTableGet, largeTableGet, h, hzero]

/-- An address with an index is in the slice that has the unit. -/
theorem at_of_mem_units {p idx : Nat} {s : Slice} (haligned : arenaAlign ∣ s.off)
    (hidx : w.bigPageIndex p = some idx) (hmem : idx ∈ s.units) : w.At s p := by
  obtain ⟨a, ha⟩ := haligned
  have halign := arenaAlign_pos
  have hdiv : s.off / arenaAlign = a := by rw [ha]; exact Nat.mul_div_cancel_left _ halign
  rw [Slice.mem_units, hdiv] at hmem
  unfold bigPageIndex at hidx
  split at hidx
  · cases hidx
  · split at hidx
    · cases hidx
    · rename_i hrange
      simp only [Bool.or_eq_true, decide_eq_true_eq, not_or, not_lt] at hrange
      dsimp only at hidx
      split at hidx
      · cases hidx
      · cases hidx
        have hlow := (Nat.le_div_iff_mul_le halign).1 hmem.1
        have hhigh := (Nat.div_lt_iff_lt_mul halign).1 hmem.2
        rw [Nat.add_mul] at hhigh
        rw [At, Slice.len, ha, Nat.mul_comm arenaAlign]
        omega

theorem index_of_at {J : Nat → (Nat → Nat) → Multiset (Slice × Use) → Prop} {M : Stake} {p : Nat}
    {s : Slice} (h : w.Held J arenaSize M) (hs : s ∈ w.slices) (hat : w.At s p) :
    ∃ idx ∈ s.units, w.bigPageIndex p = some idx := by
  have hready : w.arena.status = .ready := by
    by_contra hne
    exact h.partition.no_slices hne s hs
  obtain ⟨⟨a, ha⟩, hpos⟩ := h.partition.aligned s hs
  have hend := (h.partition.end_le hs).trans h.partition.bump_le
  have hlimit := h.partition.limit_eq hready
  have hsize := h.size
  have halign := arenaAlign_pos
  have hdiv : s.off / arenaAlign = a := by rw [ha]; exact Nat.mul_div_cancel_left _ halign
  obtain ⟨hlow, hhigh⟩ := hat
  refine ⟨(p - w.arena.start) / arenaAlign, ?_, ?_⟩
  · rw [Slice.mem_units, hdiv]
    rw [Slice.len, ha, Nat.mul_comm arenaAlign] at hhigh
    rw [ha, Nat.mul_comm arenaAlign] at hlow
    refine ⟨(Nat.le_div_iff_mul_le halign).2 (by omega), (Nat.div_lt_iff_lt_mul halign).2 ?_⟩
    rw [Nat.add_mul]
    omega
  · have hslots : bigMapSlots * arenaAlign = arenaSize := by decide
    have hidx : (p - w.arena.start) / arenaAlign < bigMapSlots :=
      (Nat.div_lt_iff_lt_mul halign).2 (by omega)
    have hrange : ¬ (p < w.arena.start ∨ w.arena.limit ≤ p) := by omega
    simp [bigPageIndex, hready, hrange, hidx]

/-- With nothing in hand, the table names the owners. -/
theorem Held.tableNamesOwners (h : w.Held Coherent arenaSize 0) : w.TableNamesOwners := by
  have hall := h.coherent
  have hclaimed : w.claimed (0 : Stake).1
      = (w.pool.map fun x => (x.1, Use.rest x.2) : List (Slice × Use)) := by simp [claimed]
  rw [hclaimed] at hall
  have hslices : ∀ x ∈ w.pool, x.1 ∈ w.slices := fun x hx => by
    simp only [slices, Multiset.mem_add, Multiset.mem_coe]
    exact .inl (.inl (.inl (List.mem_map_of_mem hx)))
  have hwords : ∀ x ∈ w.pool, ∀ u ∈ x.1.units, w.bigMap u = x.2.entry x.1 w.arena.start :=
    fun x hx u hu => hall.1 (x.1, .rest x.2)
      (Multiset.mem_coe.2 (List.mem_map_of_mem hx)) u hu
  have hclean : ∀ u, (∀ x ∈ w.pool, u ∉ x.1.units) → w.bigMap u = 0 := by
    intro u hnone
    refine hall.2 u fun x hx => ?_
    obtain ⟨y, hy, rfl⟩ := List.mem_map.1 (Multiset.mem_coe.1 hx)
    exact hnone y hy
  have howner : ∀ x ∈ w.pool, ∀ p, w.At x.1 p →
      w.bigTableGet p = x.2.bigMaster x.1 w.arena.start ∧
      w.mediumTableGet p = x.2.mediumMaster x.1 w.arena.start ∧
      w.largeTableGet p = x.2.largeHeader x.1 w.arena.start := by
    intro x hx p hat
    obtain ⟨idx, hmem, hidx⟩ := index_of_at h (hslices x hx) hat
    have hunit : 16 ∣ arenaAlign := ⟨4096, rfl⟩
    exact lookups_of_entry hidx (hwords x hx idx hmem) (Nat.dvd_add
      (hunit.trans h.partition.start_aligned)
      (hunit.trans (h.partition.aligned _ (hslices x hx)).1))
  have hnobody : ∀ p, (∀ x ∈ w.pool, ¬ w.At x.1 p) →
      w.bigTableGet p = 0 ∧ w.mediumTableGet p = 0 ∧ w.largeTableGet p = 0 := by
    intro p hnone
    cases hidx : w.bigPageIndex p with
    | none => exact lookups_none hidx
    | some idx =>
        exact lookups_zero hidx (hclean idx fun x hx hmem =>
          hnone x hx (at_of_mem_units (h.partition.aligned _ (hslices x hx)).1 hidx hmem))
  refine ⟨hwords, hclean, howner, hnobody, fun p => ?_⟩
  by_cases hsome : ∃ x ∈ w.pool, w.At x.1 p
  · obtain ⟨x, hx, hat⟩ := hsome
    obtain ⟨hbig, hmedium, hlarge⟩ := howner x hx p hat
    rw [hbig, hmedium, hlarge]
    cases x.2 with
    | plain => exact .inl ⟨rfl, rfl⟩
    | parked => exact .inl ⟨rfl, rfl⟩
    | large alignLog => exact .inl ⟨rfl, rfl⟩
    | span tier state =>
        cases tier with
        | medium => exact .inr (.inl ⟨rfl, rfl⟩)
        | big => exact .inr (.inr ⟨rfl, rfl⟩)
  · obtain ⟨hbig, hmedium, _⟩ := hnobody p fun x hx hat => hsome ⟨x, hx, hat⟩
    exact .inl ⟨hbig, hmedium⟩

end ArenaWorld

/-! ### Every interleaving -/

section Runs

variable {ι : Type} [DecidableEq ι] [Fintype ι]

/-- **The side table is coherent at rest.** Whatever operations ran, and however their single stores
interleaved, once no operation is running every word is the master or header of the slice's owner,
every other word is zero, and the three lookups agree with that. -/
theorem side_table_coherence {s : Pool ι ArenaWorld Unit ArenaEnv}
    (hreach : Reach tableOps (arenaStart ι arenaSize) s) (hidle : ∀ t, (s.threads t).Idle) :
    s.shared.TableNamesOwners := by
  have hstart : (arenaStart ι arenaSize).Inv (ArenaWorld.Held Coherent arenaSize) noTok
      fun _ => True :=
    Pool.Inv.rest (fun _ => rfl) (fun _ => trivial) (by
      rw [Finset.sum_const_zero]
      exact held_new _ arenaSize ⟨by simp, fun _ _ => rfl⟩)
  have hinv := hstart.reach (fun op _ _ => keeps_tableOps op) hreach
  obtain ⟨hand, hheld, hrest⟩ := hinv.displays
  have hnone : ∑ t, (noTok (s.threads t).own + hand t) = 0 :=
    Finset.sum_eq_zero fun t _ => by rw [(hrest t (hidle t)).2]; rfl
  rw [hnone] at hheld
  exact hheld.tableNamesOwners

/-- A medium span is carved while a large region is allocated, which then grows at the frontier. -/
def tableRun : List (Fin 2 × (TableOp ⊕ ArenaEnv)) :=
  let e : ArenaEnv := ⟨some 0, true, 0⟩
  [(0, .inl (.carveSpan .medium 2 1)), (1, .inl (.allocLarge 3 2 100 4))]
    ++ (List.replicate 5 [(0, .inr e), (1, .inr e)]).flatten
    ++ List.replicate 4 (0, .inr e) ++ List.replicate 9 (1, .inr e)
    ++ (1, .inl (.growLarge 4)) :: List.replicate 8 (1, .inr e)

theorem side_table_coherence_grown :
    ∃ s : Pool (Fin 2) ArenaWorld Unit ArenaEnv,
      Pool.exec tableOps (arenaStart (Fin 2) arenaSize) tableRun = some s ∧
      s.shared.pool = [(⟨131072, 4⟩, .large 4), (⟨0, 2⟩, .span .medium .inUse)] ∧
      s.shared.TableNamesOwners := by
  obtain ⟨s, hs, hpool, hidle⟩ : ∃ s, Pool.exec tableOps (arenaStart (Fin 2) arenaSize) tableRun
      = some s ∧ s.shared.pool = [(⟨131072, 4⟩, .large 4), (⟨0, 2⟩, .span .medium .inUse)] ∧
        ∀ t, (s.threads t).Idle :=
    ⟨_, rfl, rfl, fun t => match t with
      | 0 => trivial
      | 1 => trivial⟩
  exact ⟨s, hs, hpool, side_table_coherence (Pool.exec_reach hs) hidle⟩

end Runs

end Allox
