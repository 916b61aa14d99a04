import Allox.Proof.ArenaHoles
import Mathlib.Algebra.Group.Prod
import Mathlib.Algebra.Order.Group.Multiset
import Mathlib.Tactic.Abel

/-!
# Who owns the units of the arena

What a thread holds is the multiset of slices it works on, each with the role it has, and whether it
has seen the arena ready. The invariant says that the slices of the callers, of the threads, of the
hole store and of the abandoned list have exactly the units below the frontier between them. Each
section moves one slice from one of these to another, or cuts a slice in two.

The side table is kept abstract here: `J` is any fact about its entries that depends only on the
slices that have entries.
-/

namespace Allox

open Resumption

/-- What a thread may do with the side-table entries of a slice it works on: leave them as the role
of the slice has them, or rewrite them, in which case it knows what each unit's is at present, given
where the reservation is. -/
inductive Use where
  | rest (role : Role)
  | writing (entries : Nat → Nat → Nat)

namespace Use

@[match_pattern] abbrev plain : Use := rest .plain

def isPlain : Use → Bool
  | plain => true
  | _ => false

end Use

/-- The slices a thread works on, and how often it has seen the arena ready. -/
abbrev Stake := Multiset (Slice × Use) × Nat

namespace Stake

def own (s : Slice) (r : Use) : Stake := ({(s, r)}, 0)

def ready : Stake := (0, 1)

end Stake

namespace ArenaWorld

def slices (w : ArenaWorld) : Multiset Slice :=
  (w.pool.map Prod.fst : List Slice) + (w.hands : List Slice) + w.arena.holes.slices
    + (w.lost : List Slice)

/-- The slices tile the units below the frontier, and the hole store's counters are right. -/
structure Partition (w : ArenaWorld) : Prop where
  units : w.slices.bind Slice.units = Multiset.range (w.arena.bump / arenaAlign)
  aligned : ∀ s ∈ w.slices, s.Aligned
  bump_aligned : arenaAlign ∣ w.arena.bump
  bump_le : w.arena.bump ≤ w.arena.size
  bytes_eq : w.arena.holes.bytes = Slice.lenSum w.arena.holes.slices
  bytes_le : w.arena.holes.bytes ≤ holeCapBytes
  len_le : w.arena.holes.len ≤ holeSlots
  abandoned_eq : w.arena.abandoned = w.lost.length
  clashes_eq : w.clashes = 0
  unready : w.arena.status ≠ .ready → w.arena.bump = 0
  fits : w.arena.status = .ready → w.arena.size + arenaAlign < usizeLimit
  start_aligned : arenaAlign ∣ w.arena.start
  limit_eq : w.arena.status = .ready → w.arena.limit = w.arena.start + w.arena.size

/-- The slices that have side-table entries. -/
def marked (w : ArenaWorld) (M : Multiset (Slice × Use)) : Multiset (Slice × Use) :=
  (((w.pool.map fun x => (x.1, Use.rest x.2) : List (Slice × Use)) : Multiset (Slice × Use))
    + M).filter fun x => !x.2.isPlain

/-- The slices in hand are those the threads hold, and the table says `J` of the marked ones. -/
structure Held (J : Nat → (Nat → Nat) → Multiset (Slice × Use) → Prop) (cap : Nat)
    (w : ArenaWorld) (M : Stake) : Prop where
  size : w.arena.size = cap
  hands : (w.hands : Multiset Slice) = M.1.map Prod.fst
  partition : w.Partition
  table : J w.arena.start w.bigMap (w.marked M.1)
  ready : 0 < M.2 → w.arena.status = .ready

/-! ### The partition under each change -/

variable {w : ArenaWorld} {s : Slice}

theorem Partition.nodup (h : w.Partition) : (w.slices.bind Slice.units).Nodup :=
  h.units ▸ Multiset.nodup_range _

theorem Partition.mem_units_lt (h : w.Partition) (hs : s ∈ w.slices) {u : Nat}
    (hu : u ∈ s.units) : u < w.arena.bump / arenaAlign := by
  rw [← Multiset.mem_range, ← h.units]
  exact Multiset.mem_bind.2 ⟨s, hs, hu⟩

/-- A slice ends at or below the frontier. -/
theorem Partition.end_le (h : w.Partition) (hs : s ∈ w.slices) :
    s.off + s.len ≤ w.arena.bump := by
  obtain ⟨⟨a, ha⟩, hpos⟩ := h.aligned s hs
  have hdiv : s.off / arenaAlign = a := by rw [ha]; exact Nat.mul_div_cancel_left _ arenaAlign_pos
  have hlast := h.mem_units_lt hs (u := a + (s.pages - 1)) (by
    rw [Slice.mem_units, hdiv]; omega)
  have hle : (a + s.pages) * arenaAlign ≤ w.arena.bump / arenaAlign * arenaAlign :=
    Nat.mul_le_mul_right _ (by omega)
  rw [Nat.div_mul_cancel h.bump_aligned] at hle
  rw [Slice.len, ha, Nat.mul_comm arenaAlign, ← Nat.add_mul]
  exact hle

theorem Partition.disjoint (h : w.Partition) {r : Slice} {rest : Multiset Slice}
    (hslices : w.slices = s ::ₘ r ::ₘ rest) : Disjoint s.units r.units := by
  have hnodup := h.nodup
  rw [hslices, Multiset.cons_bind, Multiset.cons_bind] at hnodup
  rw [Multiset.nodup_add, Multiset.disjoint_add_right] at hnodup
  exact hnodup.2.2.1

theorem slices_eq_others (hs : s ∈ w.hands) : w.slices = s ::ₘ (w.others s : List Slice) := by
  have herase : (w.hands : Multiset Slice) = s ::ₘ (w.hands.erase s : List Slice) :=
    Multiset.coe_eq_coe.2 (List.perm_cons_erase hs)
  have hholes : w.arena.holes.slices = (w.arena.holeSlices : List Slice) := rfl
  rw [slices, herase, hholes, others]
  simp only [← Multiset.coe_add, Multiset.add_cons, Multiset.cons_add]

/-- Nobody else has a byte of a slice in hand, so mapping over it or discarding it is harmless. -/
theorem Partition.touch (h : w.Partition) (hs : s ∈ w.hands) : w.touch s = w := by
  have hslices := slices_eq_others hs
  have hnone : (w.others s).any s.overlaps = false := by
    refine List.any_eq_false.2 fun r hr => ?_
    obtain ⟨rest, hrest⟩ := Multiset.exists_cons_of_mem (Multiset.mem_coe.2 hr)
    rw [hrest] at hslices
    have hs' : s ∈ w.slices := by simp [hslices]
    have hr' : r ∈ w.slices := by simp [hslices]
    simp [Slice.not_overlaps (h.aligned s hs') (h.aligned r hr') (h.disjoint hslices)]
  simp [ArenaWorld.touch, hnone]

/-- A change that only moves slices around, or cuts and joins them. -/
theorem Partition.move {w' : ArenaWorld} (h : w.Partition)
    (harena : ∃ holes holeCount abandoned, w'.arena =
      { w.arena with holes := holes, holeCount := holeCount, abandoned := abandoned })
    (hclash : w'.clashes = w.clashes)
    (hunits : w'.slices.bind Slice.units = w.slices.bind Slice.units)
    (haligned : ∀ s ∈ w'.slices, s.Aligned)
    (hbytes : w'.arena.holes.bytes = Slice.lenSum w'.arena.holes.slices)
    (hle : w'.arena.holes.bytes ≤ holeCapBytes) (hlen : w'.arena.holes.len ≤ holeSlots)
    (habandoned : w'.arena.abandoned = w'.lost.length) : w'.Partition := by
  obtain ⟨holes, holeCount, abandoned, harena⟩ := harena
  obtain ⟨a', bigMap, pool, hands, lost, clashes⟩ := w'
  dsimp only at *
  subst harena
  exact
    { units := hunits.trans h.units
      aligned := haligned
      bump_aligned := h.bump_aligned
      bump_le := h.bump_le
      bytes_eq := hbytes
      bytes_le := hle
      len_le := hlen
      abandoned_eq := habandoned
      clashes_eq := hclash.trans h.clashes_eq
      unready := h.unready
      fits := h.fits
      start_aligned := h.start_aligned
      limit_eq := h.limit_eq }

theorem Partition.init (h : w.Partition) (reserve : Option Nat) :
    ({ w with arena := w.arena.init reserve } : ArenaWorld).Partition := by
  cases hstatus : w.arena.status with
  | uninit =>
      have hbump : w.arena.bump = 0 := h.unready (by simp [hstatus])
      unfold Arena.init
      rw [hstatus]
      dsimp only
      split
      · exact { h with unready := fun _ => hbump, fits := nofun, limit_eq := nofun }
      · rename_i hfits
        cases reserve with
        | none => exact { h with unready := fun _ => hbump, fits := nofun, limit_eq := nofun }
        | some raw =>
            dsimp only
            have hunits := h.units
            rw [hbump] at hunits
            exact { h with
              units := hunits
              bump_aligned := ⟨0, rfl⟩
              bump_le := Nat.zero_le _
              unready := fun _ => rfl
              fits := fun _ => Nat.lt_of_not_le hfits
              start_aligned := ⟨_, Nat.mul_comm _ _⟩
              limit_eq := fun _ => rfl }
  | ready => simpa [Arena.init, hstatus] using h
  | disabled => simpa [Arena.init, hstatus] using h

/-- No slice exists before the reservation does. -/
theorem Partition.no_slices (h : w.Partition) (hne : w.arena.status ≠ .ready) (s : Slice) :
    s ∉ w.slices := by
  intro hs
  have hlt := h.mem_units_lt hs (u := s.off / arenaAlign) (Slice.mem_units.2 ⟨le_refl _, by
    have := (h.aligned s hs).2; omega⟩)
  rw [h.unready hne] at hlt
  simp at hlt

theorem Partition.takeHole (h : w.Partition) {pages : Nat} (hpos : 0 < pages) :
    (w.takeHole pages).1.Partition := by
  have hspec := HoleStore.take_spec w.arena.holes pages
  unfold ArenaWorld.takeHole
  rcases htake : w.arena.holes.take pages with ⟨g, _ | off⟩
  · rw [htake] at hspec
    obtain ⟨hslices, hlen, hbytes⟩ := hspec
    have hsame : ({ w with arena := { w.arena with holes := g, holeCount := g.len } }
        : ArenaWorld).slices = w.slices := by
      simp only [slices, hslices]
    refine h.move ⟨_, _, _, rfl⟩ rfl (by rw [hsame]) (hsame ▸ h.aligned) ?_ ?_ ?_ h.abandoned_eq
    · simpa [hslices, hbytes] using h.bytes_eq
    · simpa [hbytes] using h.bytes_le
    · simpa [hlen] using h.len_le
  · rw [htake] at hspec
    obtain ⟨p, rest, hle, hslices, hbytes, hlen, hrest⟩ := hspec
    have hwhole : (⟨off, p⟩ : Slice) ∈ w.slices := by simp [slices, hslices]
    obtain ⟨halign, -⟩ := h.aligned _ hwhole
    -- what is left of the entry
    have hleft : g.slices.bind Slice.units + (⟨off, pages⟩ : Slice).units
        = w.arena.holes.slices.bind Slice.units := by
      rw [hrest, hslices, Multiset.cons_bind]
      split
      · rw [Multiset.cons_bind, Slice.units_split hle]; abel
      · have hp : p = pages := by omega
        rw [hp, add_comm]
    have hsum : Slice.lenSum g.slices + pages * arenaAlign
        = Slice.lenSum w.arena.holes.slices := by
      have := Nat.mul_le_mul_right arenaAlign hle
      rw [hrest, hslices, Slice.lenSum_cons, Slice.len_mk]
      split
      · rw [Slice.lenSum_cons, Slice.len_mk, Nat.sub_mul]
        omega
      · have hp : p = pages := by omega
        rw [hp, add_comm]
    have hmem : ∀ s ∈ g.slices, s.Aligned := by
      intro s hs
      rw [hrest] at hs
      have hold : ∀ s ∈ rest, s.Aligned := fun s hs =>
        h.aligned s (by simp [slices, hslices, hs])
      split at hs
      · rcases Multiset.mem_cons.1 hs with rfl | hs
        · refine ⟨Nat.dvd_add halign ⟨pages, Nat.mul_comm _ _⟩, ?_⟩
          change 0 < p - pages
          omega
        · exact hold s hs
      · exact hold s hs
    dsimp only
    refine h.move ⟨_, _, _, rfl⟩ rfl ?_ ?_ ?_ ?_ ?_ h.abandoned_eq
    · simp only [slices, ← Multiset.cons_coe, Multiset.add_bind, Multiset.cons_bind, ← hleft]
      abel
    · intro s hs
      simp only [slices, ← Multiset.cons_coe, Multiset.mem_add, Multiset.mem_cons] at hs
      rcases hs with ((hs | rfl | hs) | hs) | hs
      · exact h.aligned s (by simp only [slices, Multiset.mem_add]; tauto)
      · exact ⟨halign, hpos⟩
      · exact h.aligned s (by simp only [slices, Multiset.mem_add]; tauto)
      · exact hmem s hs
      · exact h.aligned s (by simp only [slices, Multiset.mem_add]; tauto)
    · change g.bytes = Slice.lenSum g.slices
      have := h.bytes_eq
      omega
    · change g.bytes ≤ holeCapBytes
      have := h.bytes_le
      omega
    · exact hlen.trans h.len_le

theorem Partition.giveHole (h : w.Partition) (hs : s ∈ w.hands) : (w.giveHole s).Partition := by
  have hspec := HoleStore.give_spec w.arena.holes s.off s.pages
  have herase : (w.hands : Multiset Slice) = s ::ₘ (w.hands.erase s : List Slice) :=
    Multiset.coe_eq_coe.2 (List.perm_cons_erase hs)
  unfold ArenaWorld.giveHole
  rcases hgive : w.arena.holes.give s.off s.pages with _ | g
  · dsimp only
    have hsame : ({ w with
        arena := { w.arena with abandoned := w.arena.abandoned + 1 }
        hands := w.hands.erase s
        lost := s :: w.lost } : ArenaWorld).slices = w.slices := by
      simp only [slices, herase, ← Multiset.cons_coe]
      simp only [Multiset.add_cons, Multiset.cons_add]
    refine h.move ⟨_, _, _, rfl⟩ rfl (by rw [hsame]) (hsame ▸ h.aligned) h.bytes_eq h.bytes_le
      h.len_le ?_
    simp [h.abandoned_eq]
  · rw [hgive] at hspec
    obtain ⟨hslices, hlen, hbytes, hle⟩ := hspec
    have hsame : ({ w with
        arena := { w.arena with holes := g, holeCount := g.len }
        hands := w.hands.erase s } : ArenaWorld).slices = w.slices := by
      simp only [slices, herase, hslices]
      simp only [Multiset.add_cons, Multiset.cons_add]
    refine h.move ⟨_, _, _, rfl⟩ rfl (by rw [hsame]) (hsame ▸ h.aligned) ?_ hle hlen h.abandoned_eq
    change g.bytes = Slice.lenSum g.slices
    rw [hbytes, h.bytes_eq, hslices, Slice.lenSum_cons, Slice.len, add_comm]

/-- The frontier moves over the units of a new slice. -/
theorem Partition.claim (h : w.Partition) {pages new : Nat} (hpos : 0 < pages)
    (hnew : new = w.arena.bump + pages * arenaAlign) (hle : new ≤ w.arena.size)
    (hready : w.arena.status = .ready) :
    ({ w with arena := { w.arena with bump := new }
              hands := ⟨w.arena.bump, pages⟩ :: w.hands } : ArenaWorld).Partition := by
  have hnewslices : ({ w with
      arena := { w.arena with bump := new }
      hands := ⟨w.arena.bump, pages⟩ :: w.hands } : ArenaWorld).slices
        = ⟨w.arena.bump, pages⟩ ::ₘ w.slices := by
    simp only [slices, ← Multiset.cons_coe, Multiset.add_cons, Multiset.cons_add]
  refine { h with units := ?_, aligned := ?_, bump_aligned := ?_, bump_le := hle, unready := ?_ }
  · rw [hnewslices, Multiset.cons_bind, h.units]
    change _ = Multiset.range (new / arenaAlign)
    rw [hnew, Nat.add_mul_div_right _ _ arenaAlign_pos, Slice.units]
    simp only [Multiset.range, Multiset.coe_add, List.range_add, List.range'_eq_map_range]
    exact Multiset.coe_eq_coe.2 List.perm_append_comm
  · intro s hs
    rw [hnewslices] at hs
    rcases Multiset.mem_cons.1 hs with rfl | hs
    · exact ⟨h.bump_aligned, hpos⟩
    · exact h.aligned s hs
  · change arenaAlign ∣ new
    rw [hnew]
    exact Nat.dvd_add h.bump_aligned ⟨pages, Nat.mul_comm _ _⟩
  · exact fun hne => (hne hready).elim

end ArenaWorld

/-! ### The sections of the arena -/

section Sections

open ArenaWorld

/-- Threads display nothing. -/
abbrev noTok : Unit → Stake := fun _ => 0

variable {J : Nat → (Nat → Nat) → Multiset (Slice × Use) → Prop} {cap : Nat}
  {w : ArenaWorld} {s : Slice} {role : Use} {M : Stake}

theorem ArenaWorld.Held.mem_hands (h : w.Held J cap (Stake.own s role + M)) : s ∈ w.hands := by
  rw [← Multiset.mem_coe, h.hands]
  simp [Stake.own]

theorem marked_own_plain (w : ArenaWorld) (M : Multiset (Slice × Use)) :
    w.marked ({(s, .plain)} + M) = w.marked M := by
  simp [marked, Use.isPlain]

theorem keeps_section {β : Type} {run : ArenaEnv → ArenaWorld → ArenaWorld × β} {held : Stake}
    (post : β → Stake → Prop)
    (h : ∀ e w frame, w.Held J cap (held + frame) →
      ∃ held', (run e w).1.Held J cap (held' + frame) ∧ post (run e w).2 held') :
    Keeps (Held J cap) noTok ((Act.atomic run : ArenaAct β).run ()) held
      fun b _ held' => post b held' :=
  Keeps.atomic held (by simp) h

/-- A section that only reads. -/
theorem keeps_read {β : Type} (f : ArenaEnv → ArenaWorld → β) (held : Stake) :
    Keeps (Held J cap) noTok ((Act.atomic fun e w => (w, f e w) : ArenaAct β).run ()) held
      fun _ _ held' => held' = held :=
  keeps_section (fun _ held' => held' = held) fun _ _ _ h => ⟨held, h, rfl⟩

variable (hJ : ∀ st st' table, J st table 0 → J st' table 0)

theorem ArenaWorld.Held.init (h : w.Held J cap M) (reserve : Option Nat) (hJ : ∀ st st' table,
    J st table 0 → J st' table 0) : ({ w with arena := w.arena.init reserve } : ArenaWorld).Held J cap M := by
  have hsize : (w.arena.init reserve).size = w.arena.size := by
    unfold Arena.init
    split
    · split
      · rfl
      · split <;> rfl
    · rfl
  refine ⟨hsize.trans h.size, h.hands, h.partition.init reserve, ?_, ?_⟩
  · by_cases hne : w.arena.status = .ready
    · have hsame : w.arena.init reserve = w.arena := by simp [Arena.init, hne]
      simpa [hsame] using h.table
    · have hnone : w.marked M.1 = 0 := by
        have hslices := h.partition.no_slices hne
        have hpool : w.pool = [] := List.eq_nil_iff_forall_not_mem.2 fun x hx =>
          hslices x.1 <| by
            simp only [slices, Multiset.mem_add, Multiset.mem_coe]
            exact .inl (.inl (.inl (List.mem_map_of_mem hx)))
        have hhands : w.hands = [] := List.eq_nil_iff_forall_not_mem.2 fun x hx =>
          hslices x (by simp [slices, hx])
        have hM : M.1 = 0 := by simpa [hhands] using h.hands.symm
        simp [marked, hpool, hM]
      have htable := h.table
      rw [hnone] at htable
      change J _ w.bigMap (w.marked M.1)
      rw [hnone]
      exact hJ _ _ _ htable
  · intro hpos
    have hready := h.ready hpos
    simp [Arena.init, hready]

include hJ in
theorem keeps_ensureInit (held : Stake) :
    Keeps (Held J cap) noTok (Arena.ensureInit.run ()) held
      fun (ok : Bool) _ held' => held' = if ok then Stake.ready + held else held := by
  refine keeps_section (fun (ok : Bool) held' => held' = if ok then Stake.ready + held else held)
    fun e w frame h => ?_
  have hinit := h.init e.reserve hJ
  by_cases hready : (w.arena.init e.reserve).status = .ready
  · refine ⟨Stake.ready + held, ⟨hinit.size, ?_, hinit.partition, ?_, fun _ => hready⟩, by simp [hready]⟩
    · simpa [Stake.ready] using hinit.hands
    · simpa [Stake.ready, marked] using hinit.table
  · exact ⟨held, hinit, by simp [hready]⟩

theorem keeps_holesTake {pages : Nat} (hpos : 0 < pages) (held : Stake) :
    Keeps (Held J cap) noTok ((Arena.holesTake pages).run ()) held fun off _ held' =>
      held' = match off with
        | none => held
        | some off => Stake.own ⟨off, pages⟩ .plain + held := by
  refine Keeps.bind (keeps_read (fun _ w => w.arena.holeCount) held) ?_
  rintro count ⟨⟩ held rfl
  dsimp only
  split
  · exact Keeps.done rfl
  · refine keeps_section (fun off held' => held' = match off with
        | none => held
        | some off => Stake.own ⟨off, pages⟩ .plain + held) fun e w frame h => ?_
    have hpart := h.partition.takeHole hpos
    unfold takeHole at hpart ⊢
    rcases htake : w.arena.holes.take pages with ⟨g, _ | off⟩
    · rw [htake] at hpart
      exact ⟨held, ⟨h.size, h.hands, hpart, h.table, h.ready⟩, rfl⟩
    · rw [htake] at hpart
      refine ⟨_, ⟨h.size, ?_, hpart, ?_, by simpa [Stake.own] using h.ready⟩, rfl⟩
      · simp [← Multiset.cons_coe, Stake.own, h.hands]
      · have htable := h.table
        rw [← marked_own_plain (s := ⟨off, pages⟩)] at htable
        simpa [Stake.own, marked, add_assoc] using htable

theorem keeps_holesGive (held : Stake) :
    Keeps (Held J cap) noTok ((Arena.holesGive s).run ()) (Stake.own s .plain + held)
      fun _ _ held' => held' = held := by
  refine keeps_section (fun _ held' => held' = held) fun e w frame h => ?_
  rw [add_assoc] at h
  have hs := h.mem_hands
  have hhands : ((w.hands.erase s : List Slice) : Multiset Slice)
      = (held + frame).1.map Prod.fst := by
    rw [← Multiset.coe_erase, h.hands]
    simp [Stake.own]
  have htable := h.table
  simp only [Stake.own, Prod.fst_add, marked_own_plain] at htable
  have hpart := h.partition.giveHole hs
  refine ⟨held, ?_, rfl⟩
  unfold giveHole at hpart ⊢
  split at hpart
  · exact ⟨h.size, hhands, hpart, htable, by simpa [Stake.own] using h.ready⟩
  · exact ⟨h.size, hhands, hpart, htable, by simpa [Stake.own] using h.ready⟩

theorem keeps_commitRange (held : Stake) :
    Keeps (Held J cap) noTok ((Arena.commitRange s).run ()) (Stake.own s role + held)
      fun _ _ held' => held' = Stake.own s role + held := by
  refine keeps_section (fun _ held' => held' = Stake.own s role + held)
    fun e w frame h => ⟨_, ?_, rfl⟩
  rw [add_assoc] at h ⊢
  rwa [h.partition.touch h.mem_hands]

theorem keeps_discard (held : Stake) :
    Keeps (Held J cap) noTok ((Arena.discard s).run ()) (Stake.own s role + held)
      fun _ _ held' => held' = Stake.own s role + held := by
  refine keeps_section (fun _ held' => held' = Stake.own s role + held)
    fun e w frame h => ⟨_, ?_, rfl⟩
  rw [add_assoc] at h ⊢
  rwa [h.partition.touch h.mem_hands]

/-- The compare-and-swap is only tried up to the reservation size the load reported. -/
theorem keeps_casBump {old pages new : Nat} (hpos : 0 < pages)
    (hnew : new = old + pages * arenaAlign) (hle : new ≤ cap) (held : Stake) (hseen : 0 < held.2) :
    Keeps (Held J cap) noTok ((Arena.casBump old new ⟨old, pages⟩).run ()) held
      fun (ok : Bool) _ held' =>
        held' = if ok then Stake.own ⟨old, pages⟩ .plain + held else held := by
  refine keeps_section (fun (ok : Bool) held' =>
    held' = if ok then Stake.own ⟨old, pages⟩ .plain + held else held) fun e w frame h => ?_
  by_cases hbump : w.arena.bump = old
  · subst hbump
    refine ⟨Stake.own ⟨w.arena.bump, pages⟩ .plain + held, ?_, by simp⟩
    have hready : w.arena.status = .ready := h.ready (by simp only [Prod.snd_add]; omega)
    have hpart := h.partition.claim hpos hnew (h.size ▸ hle) hready
    have htable := h.table
    rw [← marked_own_plain (s := ⟨w.arena.bump, pages⟩)] at htable
    simp only [if_true]
    refine ⟨h.size, ?_, hpart, ?_, fun _ => hready⟩
    · simp [← Multiset.cons_coe, Stake.own, h.hands]
    · simpa [Stake.own, marked, add_assoc] using htable
  · exact ⟨held, by simpa [hbump] using h, by simp [hbump]⟩

theorem keeps_loadBump (held : Stake) :
    Keeps (Held J cap) noTok (Arena.loadBump.run ()) held
      fun x _ held' => x.2 = cap ∧ held' = held :=
  keeps_section (fun (x : Nat × Nat) held' => x.2 = cap ∧ held' = held) fun _ _ _ h => ⟨held, h, h.size, rfl⟩

/-! ### Commit, grow and release -/

theorem keeps_bumpCommit {pages : Nat} (hpos : 0 < pages) (spins : Nat) (held : Stake)
    (hseen : 0 < held.2) :
    Keeps (Held J cap) noTok ((Arena.bumpCommit pages spins).run ()) held fun res _ held' =>
      held' = match res with
        | none => held
        | some (off, _) => Stake.own ⟨off, pages⟩ .plain + held := by
  induction spins with
  | zero => exact Keeps.done rfl
  | succ spins ih =>
      refine Keeps.bind (keeps_loadBump held) ?_
      rintro ⟨off, size⟩ ⟨⟩ held' ⟨hsize, rfl⟩
      dsimp only at hsize ⊢
      subst hsize
      split
      · exact Keeps.done rfl
      · refine Keeps.bind (keeps_casBump hpos rfl (by omega) held' hseen) ?_
        rintro (_ | _) ⟨⟩ held rfl
        · exact ih
        · refine Keeps.bind (keeps_commitRange _) ?_
          rintro (_ | _) ⟨⟩ held rfl
          · refine Keeps.bind (keeps_holesGive _) ?_
            rintro ⟨⟩ ⟨⟩ held rfl
            exact Keeps.done rfl
          · exact Keeps.done rfl

/-- Nothing is lost by forgetting that the arena was ready. -/
theorem shift_ready (held : Stake) : Shift (Held J cap) (Stake.ready + held) held := by
  intro w frame h
  refine ⟨h.size, by simpa [Stake.ready] using h.hands, h.partition,
    by simpa [Stake.ready] using h.table, fun hpos => h.ready ?_⟩
  simp only [Prod.snd_add, Stake.ready] at hpos ⊢
  omega

/-- Only a slice of a ready arena can be grown. -/
theorem shift_own_ready (held : Stake) :
    Shift (Held J cap) (Stake.own s role + held) (Stake.ready + (Stake.own s role + held)) := by
  intro w frame h
  have hmem : s ∈ w.slices := by
    rw [add_assoc] at h
    simp [slices, h.mem_hands]
  refine ⟨h.size, by simpa [Stake.ready] using h.hands, h.partition,
    by simpa [Stake.ready] using h.table, fun _ => ?_⟩
  by_contra hne
  exact h.partition.no_slices hne s hmem

theorem keeps_commit (hJ : ∀ st st' table, J st table 0 → J st' table 0) (pages spins : Nat)
    (held : Stake) :
    Keeps (Held J cap) noTok ((Arena.commit pages spins).run ()) held fun res _ held' =>
      held' = match res with
        | none => held
        | some (off, _) => Stake.own ⟨off, pages⟩ .plain + held := by
  unfold Arena.commit
  split
  · exact Keeps.done rfl
  · rename_i hpages
    have hpos : 0 < pages := by
      by_contra hzero
      simp [Nat.eq_zero_of_not_pos hzero] at hpages
    refine Keeps.bind (keeps_ensureInit hJ held) ?_
    rintro (_ | _) ⟨⟩ held' rfl
    · exact Keeps.done rfl
    · refine Keeps.bind (keeps_holesTake hpos _) ?_
      rintro (_ | off) ⟨⟩ held' rfl
      · have hseen : 0 < (Stake.ready + held).2 := by
          simp only [Stake.ready, Prod.snd_add]; omega
        refine (keeps_bumpCommit hpos spins _ hseen).weaken ?_
        rintro (_ | ⟨off, fresh⟩) ⟨⟩ held' rfl
        · exact ⟨held, shift_ready held, rfl⟩
        · refine ⟨_, ?_, rfl⟩
          dsimp only
          rw [add_left_comm]
          exact shift_ready _
      · dsimp only
        rw [if_pos rfl, add_left_comm]
        refine Keeps.shift (shift_ready _) (Keeps.bind (keeps_commitRange held) ?_)
        rintro (_ | _) ⟨⟩ held' rfl
        · refine Keeps.bind (keeps_holesGive held) ?_
          rintro ⟨⟩ ⟨⟩ held' rfl
          exact Keeps.done rfl
        · exact Keeps.done rfl

theorem keeps_growFrontier (s : Slice) (role : Use) (newPages : Nat) (held : Stake) :
    Keeps (Held J cap) noTok ((Arena.growFrontier s newPages).run ()) (Stake.own s role + held)
      fun (ok : Bool) _ held' => (ok = true → s.pages < newPages) ∧ held' =
        if ok then Stake.own (Arena.addedSlice s newPages) .plain + (Stake.own s role + held)
        else Stake.own s role + held := by
  unfold Arena.growFrontier
  split
  · exact Keeps.done ⟨nofun, rfl⟩
  · rename_i hpages
    simp only [Bool.or_eq_true, decide_eq_true_eq, not_or] at hpages
    refine Keeps.shift (shift_own_ready held) (Keeps.bind (keeps_read _ _) ?_)
    rintro owned ⟨⟩ held' rfl
    dsimp only
    split
    · exact Keeps.shift (shift_ready _) (Keeps.done ⟨nofun, rfl⟩)
    · refine Keeps.bind (keeps_loadBump _) ?_
      rintro ⟨bump, size⟩ ⟨⟩ held' ⟨hsize, rfl⟩
      dsimp only at hsize ⊢
      subst hsize
      split
      · exact Keeps.shift (shift_ready _) (Keeps.done ⟨nofun, rfl⟩)
      · rename_i hbound
        simp only [Bool.or_eq_true, decide_eq_true_eq, not_or, not_lt] at hbound
        have hadded : s.off + s.len + (newPages * arenaAlign - s.len)
            = s.off + s.len + (newPages - s.pages) * arenaAlign := by
          rw [Slice.len, Nat.sub_mul]
        have hseen : 0 < (Stake.ready + (Stake.own s role + held)).2 := by
          simp only [Stake.ready, Prod.snd_add]; omega
        refine Keeps.bind (keeps_casBump (by omega) hadded hbound.1 _ hseen) ?_
        rintro (_ | _) ⟨⟩ held' rfl
        · exact Keeps.shift (shift_ready _) (Keeps.done ⟨nofun, rfl⟩)
        · dsimp only
          rw [if_pos rfl, add_left_comm]
          refine Keeps.shift (shift_ready _) (Keeps.bind (keeps_commitRange _) ?_)
          rintro (_ | _) ⟨⟩ held' rfl
          · refine Keeps.bind (keeps_holesGive _) ?_
            rintro ⟨⟩ ⟨⟩ held' rfl
            exact Keeps.done ⟨nofun, rfl⟩
          · exact Keeps.done ⟨fun _ => by omega, rfl⟩

/-- The byte length of a slice of the arena fits a machine word. -/
theorem ArenaWorld.Held.len_lt (h : w.Held J cap (Stake.own s role + M)) :
    0 < s.pages ∧ s.len < usizeLimit := by
  have hs : s ∈ w.slices := by simp [slices, h.mem_hands]
  have hready : w.arena.status = .ready := by
    by_contra hne
    exact h.partition.no_slices hne s hs
  have hend := h.partition.end_le hs
  have hbump := h.partition.bump_le
  have hfits := h.partition.fits hready
  exact ⟨(h.partition.aligned s hs).2, by omega⟩

theorem keeps_release (s : Slice) (held : Stake) :
    Keeps (Held J cap) noTok ((Arena.release s).run ()) (Stake.own s .plain + held)
      fun _ _ held' => held' = held := by
  unfold Arena.release
  split
  · rename_i hbad
    refine ⟨held, fun w frame h => ?_, rfl⟩
    rw [add_assoc] at h
    have hlen := h.len_lt
    simp only [Bool.or_eq_true, decide_eq_true_eq] at hbad
    omega
  · refine Keeps.bind (keeps_discard _) ?_
    rintro ⟨⟩ ⟨⟩ held' rfl
    exact keeps_holesGive _

/-- The operation on a slice takes it out of the callers' pool, role and entries as they are. -/
theorem keeps_takeSlice (want : Role → Bool) (held : Stake) :
    Keeps (Held J cap) noTok ((Arena.takeSlice want).run ()) held fun res _ held' =>
      want res.2 = true ∧ held' = Stake.own res.1 (.rest res.2) + held := by
  refine Keeps.atomicOk held (by simp) fun e w frame hok h => ?_
  rw [Option.any_eq_true] at hok
  obtain ⟨⟨s, r⟩, hget, hwant⟩ := hok
  obtain ⟨hlt, hat⟩ := List.getElem?_eq_some_iff.1 hget
  have hpool : (w.pool : Multiset (Slice × Role)) = (s, r) ::ₘ (w.pool.eraseIdx e.pick : List _) :=
    Multiset.coe_eq_coe.2 (hat ▸ (List.getElem_cons_eraseIdx_perm hlt).symm)
  have hpick : w.pool.getD e.pick (⟨0, 0⟩, .plain) = (s, r) := by
    rw [List.getD_eq_getElem?_getD, hget]; rfl
  dsimp only
  rw [hpick]
  have hsame : ({ w with pool := w.pool.eraseIdx e.pick, hands := s :: w.hands }
      : ArenaWorld).slices = w.slices := by
    simp only [slices, ← Multiset.map_coe, hpool, ← Multiset.cons_coe, Multiset.map_cons,
      Multiset.add_cons, Multiset.cons_add]
  refine ⟨_, ⟨h.size, ?_, ?_, ?_, by simpa [Stake.own] using h.ready⟩, hwant, rfl⟩
  · simp [← Multiset.cons_coe, Stake.own, h.hands]
  · exact h.partition.move ⟨_, _, _, rfl⟩ rfl (by rw [hsame]) (hsame ▸ h.partition.aligned)
      h.partition.bytes_eq h.partition.bytes_le h.partition.len_le h.partition.abandoned_eq
  · have htable := h.table
    have hmarked : w.marked (held + frame).1
        = ({ w with pool := w.pool.eraseIdx e.pick, hands := s :: w.hands } : ArenaWorld).marked
          (Stake.own s (.rest r) + held + frame).1 := by
      simp only [marked, ← Multiset.map_coe, hpool, Multiset.map_cons, Stake.own, Prod.fst_add]
      simp only [Multiset.singleton_add, Multiset.cons_add, Multiset.add_cons]
    rw [hmarked] at htable
    exact htable

/-- The parts an operation worked on come to rest as one slice, whose role accounts for the entries
the parts had. -/
theorem keeps_settle {parts : Multiset (Slice × Use)} {whole : Slice} {rest : Role}
    {list : List Slice} (hlist : (list : Multiset Slice) = parts.map Prod.fst)
    (hunits : (parts.map Prod.fst).bind Slice.units = whole.units)
    (haligned : (∀ s ∈ parts.map Prod.fst, s.Aligned) → whole.Aligned)
    (htable : ∀ st table others, J st table (parts.filter (fun x => !x.2.isPlain) + others) →
      J st table (({(whole, Use.rest rest)} : Multiset _).filter (fun x => !x.2.isPlain) + others))
    (held : Stake) :
    Keeps (Held J cap) noTok ((Arena.settle list whole rest).run ()) ((parts, 0) + held)
      fun _ _ held' => held' = held := by
  refine keeps_section (fun _ held' => held' = held) fun e w frame h => ⟨held, ?_, rfl⟩
  have hhands : (w.hands : Multiset Slice)
      = parts.map Prod.fst + (held + frame).1.map Prod.fst := by
    rw [h.hands, add_assoc, Prod.fst_add, Multiset.map_add]
  have hdiff : ((w.hands.diff list : List Slice) : Multiset Slice)
      = (held + frame).1.map Prod.fst := by
    rw [← Multiset.coe_sub, hhands, hlist, add_tsub_cancel_left]
  have hold : ∀ s ∈ parts.map Prod.fst, s.Aligned := fun s hs =>
    h.partition.aligned s (by
      simp only [slices, Multiset.mem_add]
      exact .inl (.inl (.inr (hhands ▸ Multiset.mem_add.2 (.inl hs)))))
  have hslices : w.slices + {whole}
      = ({ w with hands := w.hands.diff list, pool := (whole, rest) :: w.pool }
          : ArenaWorld).slices + parts.map Prod.fst := by
    simp only [slices, hdiff, hhands, List.map_cons, ← Multiset.cons_coe,
      ← Multiset.singleton_add]
    abel
  refine ⟨h.size, hdiff, ?_, ?_, by simpa using h.ready⟩
  · refine h.partition.move ⟨_, _, _, rfl⟩ rfl ?_ ?_ h.partition.bytes_eq h.partition.bytes_le
      h.partition.len_le h.partition.abandoned_eq
    · have hbind := congrArg (Multiset.bind · Slice.units) hslices
      simp only [Multiset.add_bind, Multiset.singleton_bind, hunits] at hbind
      exact (add_right_cancel hbind).symm
    · intro s hs
      have hmem : s ∈ w.slices + {whole} := hslices ▸ Multiset.mem_add.2 (.inl hs)
      rcases Multiset.mem_add.1 hmem with hmem | hmem
      · exact h.partition.aligned s hmem
      · rw [Multiset.mem_singleton.1 hmem]
        exact haligned hold
  · have hbefore := h.table
    simp only [marked, Prod.fst_add, Multiset.filter_add] at hbefore
    simp only [marked, List.map_cons, ← Multiset.cons_coe, ← Multiset.singleton_add,
      Multiset.filter_add, Prod.fst_add]
    rw [add_assoc]
    refine htable _ _ _ ?_
    convert hbefore using 1
    abel

theorem keeps_settle_same (s : Slice) (rest : Role) (held : Stake) :
    Keeps (Held J cap) noTok ((Arena.settle [s] s rest).run ()) (Stake.own s (.rest rest) + held)
      fun _ _ held' => held' = held :=
  keeps_settle (show _ = Multiset.map _ {(s, Use.rest rest)} by simp) (by simp) (by simp) (fun _ _ _ h => h) held

/-- A slice and what the frontier grew behind it come to rest as one. -/
theorem keeps_settle_grown {s : Slice} {newPages : Nat} (hlt : s.pages < newPages)
    {use use' : Use} {rest : Role}
    (htable : ∀ st table others,
      J st table (({(s, use), (Arena.addedSlice s newPages, use')} : Multiset (Slice × Use)).filter
        (fun x => !x.2.isPlain) + others) →
      J st table (({(⟨s.off, newPages⟩, Use.rest rest)} : Multiset (Slice × Use)).filter
        (fun x => !x.2.isPlain) + others)) (held : Stake) :
    Keeps (Held J cap) noTok
      ((Arena.settle [s, Arena.addedSlice s newPages] ⟨s.off, newPages⟩ rest).run ())
      (Stake.own (Arena.addedSlice s newPages) use' + (Stake.own s use + held))
      fun _ _ held' => held' = held := by
  have hparts : Stake.own (Arena.addedSlice s newPages) use' + (Stake.own s use + held)
      = (({(s, use), (Arena.addedSlice s newPages, use')} : Multiset (Slice × Use)), 0) + held := by
    rw [add_left_comm, ← add_assoc]
    rfl
  rw [hparts]
  refine keeps_settle rfl ?_ ?_ htable held
  · simp only [Multiset.insert_eq_cons, Multiset.map_cons, Multiset.map_singleton,
      Multiset.cons_bind, Multiset.singleton_bind, Arena.addedSlice]
    exact (Slice.units_split hlt.le).symm
  · intro hparts
    obtain ⟨hoff, hpos⟩ := hparts s (by simp)
    exact ⟨hoff, hpos.trans hlt⟩

/-! ### The three entry points, called by the holder of a slice -/

theorem keeps_arenaOps (hJ : ∀ st st' table, J st table 0 → J st' table 0) (op : ArenaOp) :
    Pays (Held J cap) noTok (fun _ => True) ((arenaOps op).run ()) 0 := by
  cases op with
  | commit pages spins =>
      refine Keeps.bind (keeps_commit hJ pages spins 0) ?_
      rintro (_ | ⟨off, fresh⟩) ⟨⟩ held rfl
      · exact Keeps.done ⟨trivial, rfl⟩
      · exact (keeps_settle_same _ _ 0).mono fun _ _ _ hpost => ⟨trivial, hpost⟩
  | release =>
      refine Keeps.bind (keeps_takeSlice _ 0) ?_
      rintro ⟨s, role⟩ ⟨⟩ held ⟨hwant, rfl⟩
      obtain rfl : role = .plain := by simpa using hwant
      exact (keeps_release s 0).mono fun _ _ _ hpost => ⟨trivial, hpost⟩
  | grow newPages =>
      refine Keeps.bind (keeps_takeSlice _ 0) ?_
      rintro ⟨s, role⟩ ⟨⟩ held ⟨hwant, rfl⟩
      obtain rfl : role = .plain := by simpa using hwant
      refine Keeps.bind (keeps_growFrontier s _ newPages 0) ?_
      rintro (_ | _) ⟨⟩ held ⟨hlt, rfl⟩
      · exact (keeps_settle_same s .plain 0).mono fun _ _ _ hpost => ⟨trivial, hpost⟩
      · have htable : ∀ st table others, J st table
            (({(s, .plain), (Arena.addedSlice s newPages, .plain)} : Multiset (Slice × Use)).filter
              (fun x => !x.2.isPlain) + others) →
            J st table (({(⟨s.off, newPages⟩, .plain)} : Multiset (Slice × Use)).filter
              (fun x => !x.2.isPlain) + others) := fun _ _ _ h => h
        exact (keeps_settle_grown (hlt rfl) htable 0).mono
          fun _ _ _ hpost => ⟨trivial, hpost⟩

end Sections

/-! ### Every interleaving -/

/-- `claimed` are the slices of the operations in progress. -/
structure ArenaWorld.Owned (w : ArenaWorld) (size : Nat) (claimed : Multiset Slice) : Prop where
  units : ((w.pool.map Prod.fst : List Slice) + claimed + w.arena.holes.slices
    + (w.lost : List Slice)).bind Slice.units = Multiset.range (w.arena.bump / arenaAlign)
  bump_aligned : arenaAlign ∣ w.arena.bump
  bump_le : w.arena.bump ≤ size
  hole_bytes : w.arena.holes.bytes = Slice.lenSum w.arena.holes.slices
  hole_bytes_le : w.arena.holes.bytes ≤ holeCapBytes
  hole_len_le : w.arena.holes.len ≤ holeSlots
  abandoned : w.arena.abandoned = w.lost.length
  clashes : w.clashes = 0

theorem ArenaWorld.Held.owned {J : Nat → (Nat → Nat) → Multiset (Slice × Use) → Prop} {cap : Nat}
    {w : ArenaWorld} {M : Stake} (h : w.Held J cap M) : w.Owned cap (M.1.map Prod.fst) where
  units := h.hands ▸ h.partition.units
  bump_aligned := h.partition.bump_aligned
  bump_le := h.size ▸ h.partition.bump_le
  hole_bytes := h.partition.bytes_eq
  hole_bytes_le := h.partition.bytes_le
  hole_len_le := h.partition.len_le
  abandoned := h.partition.abandoned_eq
  clashes := h.partition.clashes_eq

theorem held_new (J : Nat → (Nat → Nat) → Multiset (Slice × Use) → Prop) (cap : Nat)
    (hJ : J 0 (fun _ => 0) 0) : (ArenaWorld.new cap).Held J cap 0 where
  size := rfl
  hands := rfl
  partition :=
    { units := by
        simp [ArenaWorld.slices, ArenaWorld.new, Arena.withSize, HoleStore.slices, HoleStore.new]
      aligned := by simp [ArenaWorld.slices, ArenaWorld.new, Arena.withSize, HoleStore.slices,
        HoleStore.new]
      bump_aligned := ⟨0, rfl⟩
      bump_le := Nat.zero_le _
      bytes_eq := rfl
      bytes_le := Nat.zero_le _
      len_le := Nat.zero_le _
      abandoned_eq := rfl
      clashes_eq := rfl
      unready := fun _ => rfl
      fits := nofun
      start_aligned := ⟨0, rfl⟩
      limit_eq := nofun }
  table := hJ
  ready := by simp

section Runs

variable {ι : Type} [DecidableEq ι] [Fintype ι]

/-- **The arena's units have one owner each.** In every interleaving the units below the frontier are
the disjoint union of the callers' slices, the holes, the abandoned slices and the slices of the
operations in progress, and no commit or discard has hit a slice of anybody else. -/
theorem arena_ownership_partition {size : Nat} {s : Pool ι ArenaWorld Unit ArenaEnv}
    (hreach : Reach arenaOps (arenaStart ι size) s) :
    ∃ claimed : ι → Multiset Slice, (∀ t, (s.threads t).Idle → claimed t = 0) ∧
      s.shared.Owned size (∑ t, claimed t) := by
  have hstart : (arenaStart ι size).Inv (ArenaWorld.Held (fun _ _ _ => True) size) noTok
      fun _ => True :=
    Pool.Inv.rest (fun _ => rfl) (fun _ => trivial) (by
      rw [Finset.sum_const_zero]
      exact held_new _ size trivial)
  have hinv := hstart.reach (fun op _ _ => keeps_arenaOps (fun _ _ _ h => h) op) hreach
  obtain ⟨hand, hheld, hidle⟩ := hinv.displays
  refine ⟨fun t => (hand t).1.map Prod.fst, fun t ht => by simp [(hidle t ht).2], ?_⟩
  have hsum := map_sum ((Multiset.mapAddMonoidHom (Prod.fst : Slice × Use → Slice)).comp
    (AddMonoidHom.fst _ Nat)) hand Finset.univ
  have howned := hheld.owned
  simp only [zero_add] at howned
  exact hsum ▸ howned

/-- Two threads race for the frontier and the second one's commit fails. -/
def arenaRace : List (Fin 2 × (ArenaOp ⊕ ArenaEnv)) :=
  let e : ArenaEnv := ⟨some 0, true, 0⟩
  [(0, .inl (.commit 2 1)), (1, .inl (.commit 3 2)), (0, .inr e), (1, .inr e), (0, .inr e),
    (1, .inr e), (0, .inr e), (1, .inr e), (0, .inr e), (1, .inr e), (1, .inr e), (1, .inr e),
    (1, .inr { e with committed := false }), (1, .inr e), (0, .inr e)]

theorem arena_ownership_partition_race :
    ∃ s : Pool (Fin 2) ArenaWorld Unit ArenaEnv,
      Pool.exec arenaOps (arenaStart (Fin 2) arenaSize) arenaRace = some s ∧
      (s.shared.arena.bump, s.shared.arena.holes.len) = (5 * arenaAlign, 1) ∧
      ∃ claimed : Fin 2 → Multiset Slice, (∀ t, (s.threads t).Idle → claimed t = 0) ∧
        s.shared.Owned arenaSize (∑ t, claimed t) := by
  obtain ⟨s, hs⟩ : ∃ s, Pool.exec arenaOps (arenaStart (Fin 2) arenaSize) arenaRace = some s :=
    ⟨_, rfl⟩
  have hend : (Pool.exec arenaOps (arenaStart (Fin 2) arenaSize) arenaRace).map
      (fun s => (s.shared.arena.bump, s.shared.arena.holes.len)) = some (5 * arenaAlign, 1) := rfl
  rw [hs] at hend
  exact ⟨s, hs, Option.some.inj hend, arena_ownership_partition (Pool.exec_reach hs)⟩

end Runs

end Allox
