import Allox.AddressSpace
import Allox.Proof.LargePlacement

/-!
# Who has which bytes of the address space

A thread holds the ranges it has mapped and not handed out or given back, and what it knows of the arena
while it is behind the guard. The invariant counts, for each byte, the ranges that have it.
-/

namespace Allox

open Resumption Residency

/-! ### Counting -/

/-- How many of the ranges have the byte. -/
def covers (M : Multiset Stretch) (a : Nat) : Nat := M.countP fun s => s.has a = true

theorem covers_add (M N : Multiset Stretch) (a : Nat) : covers (M + N) a = covers M a + covers N a :=
  Multiset.countP_add _ _ _

theorem covers_singleton (s : Stretch) (a : Nat) : covers {s} a = (s.has a).toNat := by
  unfold covers
  rw [← Multiset.cons_zero, Multiset.countP_cons, Multiset.countP_zero, Nat.zero_add]
  cases s.has a <;> rfl

theorem covers_coe_cons (s : Stretch) (l : List Stretch) (a : Nat) :
    covers ((s :: l : List Stretch) : Multiset Stretch) a = (s.has a).toNat + covers l a := by
  rw [← Multiset.cons_coe, ← Multiset.singleton_add, covers_add, covers_singleton]

/-- A range cut in two. -/
theorem has_cut (p m n a : Nat) :
    (Stretch.has ⟨p, m + n⟩ a).toNat = (Stretch.has ⟨p, m⟩ a).toNat + (Stretch.has ⟨p + m, n⟩ a).toNat := by
  have hboth : (Stretch.has ⟨p, m + n⟩ a).toNat = if p ≤ a ∧ a < p + (m + n) then 1 else 0 := by
    simp [Stretch.has, Bool.toNat, Bool.cond_eq_ite]
  have hleft : (Stretch.has ⟨p, m⟩ a).toNat = if p ≤ a ∧ a < p + m then 1 else 0 := by
    simp [Stretch.has, Bool.toNat, Bool.cond_eq_ite]
  have hright : (Stretch.has ⟨p + m, n⟩ a).toNat = if p + m ≤ a ∧ a < p + m + n then 1 else 0 := by
    simp [Stretch.has, Bool.toNat, Bool.cond_eq_ite]
  rw [hboth, hleft, hright]
  split <;> split <;> split <;> omega

theorem has_empty {s : Stretch} (h : s.len = 0) (a : Nat) : s.has a = false := by
  unfold Stretch.has
  rw [h]
  by_cases hle : s.start ≤ a
  · simp [hle]
  · simp [hle]

/-! ### The invariant -/

/-- What the thread behind the guard knows of the arena. -/
inductive Stage where
  | entered
  | uninit
  | based (a : Nat)
  | bounded (a b : Nat)

def Stage.Knows (w : AddressSpace) : Stage → Prop
  | entered => True
  | uninit => w.status = .uninit
  | based a => w.status = .uninit ∧ w.start = a
  | bounded a b => w.status = .uninit ∧ w.start = a ∧ w.limit = b

/-- What a thread holds. -/
abbrev Holding := Multiset Stretch × Multiset Stage

def Holding.range (s : Stretch) : Holding := ({s}, 0)

def Holding.stage (g : Stage) : Holding := (0, {g})

/-- All ranges at rest. -/
def AddressSpace.resting (w : AddressSpace) : Multiset Stretch :=
  w.pages + (w.loose + (w.lost + w.reservation))

/-- Every byte is in as many ranges as it is mapped. -/
structure AddressSpace.Owned (size : Nat) (w : AddressSpace) (M : Holding) : Prop where
  owned : ∀ a, covers M.1 a + covers w.resting a = (w.mapped a).toNat
  guard : M.2.card = w.guard.toNat
  knows : ∀ g ∈ M.2, g.Knows w
  pages : ∀ s ∈ w.pages, arenaAlign ∣ s.start
  ready : w.status = .ready → arenaAlign ∣ w.start ∧ w.limit = w.start + size

theorem covers_resting (w : AddressSpace) (a : Nat) : covers w.resting a
    = covers w.pages a + (covers w.loose a + (covers w.lost a + covers w.reservation a)) := by
  unfold AddressSpace.resting
  rw [covers_add, covers_add, covers_add]

def noHolding (_ : Unit) : Holding := 0

namespace MapAct

variable {size : Nat} {r : Holding} {g : Stage} {s : Stretch}

/-- The programs that keep it, by what is in hand before and after. -/
abbrev Moves {α : Type} (size : Nat) (m : MapAct α) (hand : Holding) (post : α → Holding → Prop) : Prop :=
  Runs (AddressSpace.Owned size) noHolding m () hand fun x _ hand' => post x hand'

theorem range_fst (s : Stretch) (r frame : Holding) (a : Nat) :
    covers (Holding.range s + r + frame).1 a = (s.has a).toNat + covers (r + frame).1 a := by
  show covers ({s} + r.1 + frame.1) a = _
  rw [add_assoc, covers_add, covers_singleton]
  rfl

theorem range_snd (s : Stretch) (r frame : Holding) :
    (Holding.range s + r + frame).2 = (r + frame).2 := by
  show 0 + r.2 + frame.2 = _
  rw [zero_add]
  rfl

/-- A range in hand may be cut, or pieced together again. -/
theorem shift_cut (p m n : Nat) (r : Holding) :
    Shift (AddressSpace.Owned size) (Holding.range ⟨p, m + n⟩ + r)
      (Holding.range ⟨p, m⟩ + (Holding.range ⟨p + m, n⟩ + r)) := by
  intro w frame h
  refine ⟨fun a => ?_, ?_, ?_, h.pages, h.ready⟩
  · have howned := h.owned a
    rw [range_fst, has_cut] at howned
    rw [range_fst, range_fst, ← add_assoc]
    exact howned
  · have hguard := h.guard
    rw [range_snd] at hguard
    rwa [range_snd, range_snd]
  · have hknows := h.knows
    rw [range_snd] at hknows
    rwa [range_snd, range_snd]

/-- An empty range is nothing. -/
theorem shift_empty (h : s.len = 0) (r : Holding) :
    Shift (AddressSpace.Owned size) (Holding.range s + r) r := by
  intro w frame hw
  refine ⟨fun a => ?_, ?_, ?_, hw.pages, hw.ready⟩
  · have howned := hw.owned a
    rw [range_fst, has_empty h] at howned
    rwa [Bool.toNat_false, Nat.zero_add] at howned
  · have hguard := hw.guard
    rwa [range_snd] at hguard
  · have hknows := hw.knows
    rwa [range_snd] at hknows

end MapAct

theorem Stage.Knows.congr {g : Stage} {w w' : AddressSpace} (h : g.Knows w) (hstatus : w'.status = w.status)
    (hstart : w'.start = w.start) (hlimit : w'.limit = w.limit) : g.Knows w' := by
  cases g with
  | entered => trivial
  | uninit => exact hstatus.trans h
  | based a => exact ⟨hstatus.trans h.1, hstart.trans h.2⟩
  | bounded a b => exact ⟨hstatus.trans h.1, hstart.trans h.2.1, hlimit.trans h.2.2⟩

namespace AddressSpace

open MapAct

variable {size : Nat} {w : AddressSpace} {r frame : Holding} {s : Stretch} {g : Stage}

theorem canMap_iff : w.canMap s = true ↔
    (∀ a, s.has a = true → w.mapped a = false) ∧ 0 < s.start ∧ s.start + s.len < usizeLimit := by
  unfold canMap
  rw [Bool.and_eq_true, Bool.and_eq_true, decide_eq_true_eq, decide_eq_true_eq, decide_eq_true_eq,
    and_assoc]
  refine and_congr_left fun _ => ⟨fun h a ha => ?_, fun h i hi => h _ ?_⟩
  · obtain ⟨hlow, hhigh⟩ := Stretch.has_iff.1 ha
    have hbyte := h (a - s.start) (by omega)
    rwa [Nat.add_sub_cancel' hlow] at hbyte
  · exact Stretch.has_iff.2 ⟨Nat.le_add_right _ _, Nat.add_lt_add_left hi _⟩

/-- A range that nobody has. -/
theorem Owned.add (h : w.Owned size (r + frame)) (hfree : ∀ a, s.has a = true → w.mapped a = false) :
    (w.add s).Owned size (Holding.range s + r + frame) := by
  refine ⟨fun a => ?_, ?_, ?_, h.pages, h.ready⟩
  · have howned := h.owned a
    rw [range_fst]
    show (s.has a).toNat + covers (r + frame).1 a + covers w.resting a = (w.mapped a || s.has a).toNat
    cases hhas : s.has a with
    | false =>
        rw [Bool.toNat_false, Nat.zero_add, Bool.or_false]
        exact howned
    | true =>
        rw [hfree a hhas, Bool.toNat_false] at howned
        rw [hfree a hhas, add_assoc, howned]
        rfl
  · rw [range_snd]
    exact h.guard
  · rw [range_snd]
    exact fun g hg => (h.knows g hg).congr rfl rfl rfl

/-- A range whose holder is the only one that has it. -/
theorem Owned.remove (h : w.Owned size (Holding.range s + r + frame)) :
    (w.remove s).Owned size (r + frame) := by
  refine ⟨fun a => ?_, ?_, ?_, h.pages, h.ready⟩
  · have howned := h.owned a
    rw [range_fst] at howned
    show covers (r + frame).1 a + covers w.resting a = (w.mapped a && !s.has a).toNat
    cases hhas : s.has a with
    | false =>
        rw [hhas, Bool.toNat_false, Nat.zero_add] at howned
        rw [Bool.not_false, Bool.and_true]
        exact howned
    | true =>
        rw [hhas, Bool.toNat_true] at howned
        have hle := Bool.toNat_le (w.mapped a)
        rw [Bool.not_true, Bool.and_false, Bool.toNat_false]
        omega
  · have hguard := h.guard
    rwa [range_snd] at hguard
  · have hknows := h.knows
    rw [range_snd] at hknows
    exact fun g hg => (hknows g hg).congr rfl rfl rfl

/-- A range in hand comes to rest. -/
theorem Owned.rest {w' : AddressSpace} (h : w.Owned size (Holding.range s + r + frame))
    (hmapped : w'.mapped = w.mapped) (hresting : ∀ a, covers w'.resting a
      = (s.has a).toNat + covers w.resting a) (hguard : w'.guard = w.guard)
    (hstatus : w'.status = w.status) (hstart : w'.start = w.start) (hlimit : w'.limit = w.limit)
    (hpages : ∀ s ∈ w'.pages, arenaAlign ∣ s.start) : w'.Owned size (r + frame) := by
  refine ⟨fun a => ?_, ?_, ?_, hpages, ?_⟩
  · have howned := h.owned a
    rw [range_fst] at howned
    rw [hresting, hmapped, ← howned]
    omega
  · have hcard := h.guard
    rwa [range_snd, ← hguard] at hcard
  · have hknows := h.knows
    rw [range_snd] at hknows
    exact fun g hg => (hknows g hg).congr hstatus hstart hlimit
  · rw [hstatus, hstart, hlimit]
    exact h.ready

/-- A range at rest is taken in hand. -/
theorem Owned.unrest {w' : AddressSpace} (h : w.Owned size (r + frame))
    (hmapped : w'.mapped = w.mapped) (hresting : ∀ a, covers w.resting a
      = (s.has a).toNat + covers w'.resting a) (hguard : w'.guard = w.guard)
    (hstatus : w'.status = w.status) (hstart : w'.start = w.start) (hlimit : w'.limit = w.limit)
    (hpages : ∀ s ∈ w'.pages, arenaAlign ∣ s.start) :
    w'.Owned size (Holding.range s + r + frame) := by
  refine ⟨fun a => ?_, ?_, ?_, hpages, ?_⟩
  · have howned := h.owned a
    rw [hresting] at howned
    rw [range_fst, hmapped, ← howned]
    omega
  · rw [range_snd, hguard]
    exact h.guard
  · rw [range_snd]
    exact fun g hg => (h.knows g hg).congr hstatus hstart hlimit
  · rw [hstatus, hstart, hlimit]
    exact h.ready

/-- Nobody else is behind the guard. -/
theorem Owned.alone (h : w.Owned size (Holding.stage g + r + frame)) :
    (r + frame).2 = 0 ∧ w.guard = true ∧ g.Knows w := by
  have hcard := h.guard
  have hstages : (Holding.stage g + r + frame).2 = {g} + (r + frame).2 := by
    show {g} + r.2 + frame.2 = _
    rw [add_assoc]
    rfl
  rw [hstages, Multiset.card_add, Multiset.card_singleton] at hcard
  have hle := Bool.toNat_le w.guard
  refine ⟨Multiset.card_eq_zero.1 (by omega), ?_, h.knows g ?_⟩
  · cases hw : w.guard with
    | true => rfl
    | false =>
        rw [hw, Bool.toNat_false] at hcard
        omega
  · rw [hstages]
    exact Multiset.mem_add.2 (.inl (Multiset.mem_singleton_self g))

/-- What the thread behind the guard does to the arena. -/
theorem Owned.advance {w' : AddressSpace} {g' : Stage} (h : w.Owned size (Holding.stage g + r + frame))
    (hmapped : w'.mapped = w.mapped) (hresting : ∀ a, covers w'.resting a = covers w.resting a)
    (hguard : w'.guard = w.guard) (hpages : w'.pages = w.pages) (hknows : g'.Knows w')
    (hready : w'.status = .ready → arenaAlign ∣ w'.start ∧ w'.limit = w'.start + size) :
    w'.Owned size (Holding.stage g' + r + frame) := by
  obtain ⟨halone, hbehind, -⟩ := h.alone
  have hstages : (Holding.stage g' + r + frame).2 = {g'} := by
    show {g'} + r.2 + frame.2 = _
    have hothers : r.2 + frame.2 = 0 := halone
    rw [add_assoc, hothers, add_zero]
  refine ⟨fun a => ?_, ?_, ?_, ?_, hready⟩
  · rw [hmapped, hresting]
    exact h.owned a
  · rw [hstages, hguard, hbehind]
    rfl
  · rw [hstages]
    intro x hx
    rw [Multiset.mem_singleton.1 hx]
    exact hknows
  · rw [hpages]
    exact h.pages

end AddressSpace

/-! ### The programs -/

namespace MapAct

variable {size : Nat} {r : Holding} {g : Stage} {s : Stretch}

theorem moves_mmap (len : Nat) (r : Holding) : Moves size (mmap len) r fun o hand =>
    match o with
    | none => hand = r
    | some p => 0 < p ∧ p + len < usizeLimit ∧ hand = Holding.range ⟨p, len⟩ + r := by
  refine Runs.atomicOk fun e w frame hok h => ?_
  cases hraw : e.raw with
  | none => exact ⟨r, h, rfl⟩
  | some p =>
      rw [hraw, Option.all_some] at hok
      obtain ⟨hfree, hpos, hlt⟩ := AddressSpace.canMap_iff.1 hok
      exact ⟨_, h.add hfree, hpos, hlt, rfl⟩

theorem moves_munmap (s : Stretch) (r : Holding) :
    Moves size (munmap s) (Holding.range s + r) fun _ hand => hand = r := by
  refine Runs.atomic fun e w frame h => ?_
  dsimp only
  split
  · exact ⟨r, h.remove, rfl⟩
  · refine ⟨r, h.rest rfl (fun a => ?_) rfl rfl rfl rfl h.pages, rfl⟩
    rw [covers_resting, covers_resting, covers_coe_cons]
    show covers w.pages a + (covers w.loose a + ((s.has a).toNat + covers w.lost a
      + covers w.reservation a)) = _
    omega

theorem moves_trim (s : Stretch) (r : Holding) :
    Moves size (trim s) (Holding.range s + r) fun _ hand => hand = r := by
  unfold trim
  split
  · rename_i hlen
    exact Runs.shift (shift_empty hlen r) (Runs.pure rfl)
  · refine Runs.bind (moves_munmap s r) ?_
    rintro x l hand rfl
    exact Runs.pure rfl

/-- Both ends of a mapping are given back: what is left begins at a multiple of 64 KiB. -/
theorem moves_ends {α : Type} {k : MapAct α} {post : α → Holding → Prop} {raw len back : Nat}
    (htotal : alignUp raw arenaAlign - raw + (len + back) = len + arenaAlign)
    (hk : Moves size k (Holding.range ⟨alignUp raw arenaAlign, len⟩ + r) post) :
    Moves size (do
        trim ⟨raw, alignUp raw arenaAlign - raw⟩
        trim ⟨alignUp raw arenaAlign + len, back⟩
        k)
      (Holding.range ⟨raw, len + arenaAlign⟩ + r) post := by
  have hle : raw ≤ alignUp raw arenaAlign := le_alignUp (by decide)
  have hfront : Shift (AddressSpace.Owned size) (Holding.range ⟨raw, len + arenaAlign⟩ + r)
      (Holding.range ⟨raw, alignUp raw arenaAlign - raw⟩
        + (Holding.range ⟨alignUp raw arenaAlign, len + back⟩ + r)) := by
    have hcut : Shift (AddressSpace.Owned size) _ _ :=
      shift_cut raw (alignUp raw arenaAlign - raw) (len + back) r
    rwa [htotal, Nat.add_sub_cancel' hle] at hcut
  have hback : Shift (AddressSpace.Owned size) _ _ := shift_cut (alignUp raw arenaAlign) len back r
  refine Runs.shift hfront (Runs.bind (moves_trim _ _) ?_)
  rintro x l hand rfl
  refine Runs.shift hback ?_
  rw [← add_assoc, add_comm (Holding.range ⟨alignUp raw arenaAlign, len⟩), add_assoc]
  refine Runs.bind (moves_trim _ _) ?_
  rintro y l hand rfl
  exact hk

/-- What is mapped beyond the end, whichever way it is worked out. -/
theorem ends_total (raw len : Nat) :
    alignUp raw arenaAlign - raw + (len + (len + arenaAlign - (alignUp raw arenaAlign - raw) - len))
      = len + arenaAlign := by
  have hlt : alignUp raw arenaAlign < raw + arenaAlign := alignUp_lt (by decide)
  omega

theorem tail_total (raw len : Nat) :
    alignUp raw arenaAlign - raw + (len + (raw + (len + arenaAlign) - (alignUp raw arenaAlign + len)))
      = len + arenaAlign := by
  have hle : raw ≤ alignUp raw arenaAlign := le_alignUp (by decide)
  have hlt : alignUp raw arenaAlign < raw + arenaAlign := alignUp_lt (by decide)
  omega

/-- `map` gives aligned ranges. -/
theorem moves_map (len : Nat) (r : Holding) : Moves size (map len) r fun o hand =>
    match o with
    | none => hand = r
    | some base => arenaAlign ∣ base ∧ hand = Holding.range ⟨base, len⟩ + r := by
  unfold map
  cases htotal : checkedAdd len arenaAlign with
  | none => exact Runs.pure rfl
  | some total =>
      obtain ⟨-, rfl⟩ := checkedAdd_eq_some.1 htotal
      refine Runs.bind (moves_mmap _ r) ?_
      rintro o l hand hmid
      cases o with
      | none => exact Runs.pure hmid
      | some raw =>
          obtain ⟨-, -, rfl⟩ := hmid
          exact moves_ends (ends_total raw len) (Runs.pure ⟨dvd_alignUp _ _, rfl⟩)

/-! ### The arena -/

theorem moves_status (hand : Holding) : Moves size status hand fun _ hand' => hand' = hand :=
  Runs.atomic fun _ _ _ h => ⟨hand, h, rfl⟩

/-- Behind the guard the status is known once it is read. -/
theorem moves_status_behind (r : Holding) :
    Moves size status (Holding.stage .entered + r) fun st hand =>
      hand = Holding.stage (if st = .uninit then .uninit else .entered) + r := by
  refine Runs.atomic fun e w frame h => ⟨_, ?_, rfl⟩
  refine h.advance rfl (fun _ => rfl) rfl rfl ?_ h.ready
  dsimp only
  split
  · rename_i huninit
    exact huninit
  · trivial

theorem moves_enterGuard (r : Holding) :
    Moves size enterGuard r fun _ hand => hand = Holding.stage .entered + r := by
  refine Runs.atomicOk fun e w frame hok h => ⟨_, ?_, rfl⟩
  have hopen : w.guard = false := Bool.not_eq_true' _ ▸ hok
  have hstages : (Holding.stage .entered + r + frame).2 = {Stage.entered} + (r + frame).2 := by
    show {Stage.entered} + r.2 + frame.2 = _
    rw [add_assoc]
    rfl
  have hnone : (r + frame).2 = 0 := by
    have hcard := h.guard
    rw [hopen] at hcard
    exact Multiset.card_eq_zero.1 hcard
  refine ⟨fun a => ?_, ?_, ?_, h.pages, h.ready⟩
  · have howned := h.owned a
    show covers (0 + r.1 + frame.1) a + _ = _
    rw [zero_add]
    exact howned
  · rw [hstages, hnone]
    rfl
  · rw [hstages, hnone]
    intro g hg
    rw [add_zero, Multiset.mem_singleton] at hg
    rw [hg]
    trivial

theorem moves_leaveGuard (g : Stage) (r : Holding) :
    Moves size leaveGuard (Holding.stage g + r) fun _ hand => hand = r := by
  refine Runs.atomic fun e w frame h => ⟨r, ?_, rfl⟩
  obtain ⟨halone, -, -⟩ := h.alone
  refine ⟨fun a => ?_, ?_, ?_, h.pages, h.ready⟩
  · have howned := h.owned a
    change covers (0 + r.1 + frame.1) a + _ = _ at howned
    rw [zero_add] at howned
    exact howned
  · rw [halone]
    rfl
  · rw [halone]
    exact fun g hg => absurd hg (Multiset.notMem_zero g)

theorem reservation_uninit {w : AddressSpace} (h : w.status = .uninit) : w.reservation = [] := by
  unfold AddressSpace.reservation
  rw [h]

theorem moves_setStart (a : Nat) (r : Holding) :
    Moves size (setStart a) (Holding.stage .uninit + r) fun _ hand =>
      hand = Holding.stage (.based a) + r := by
  refine Runs.atomic fun e w frame h => ⟨_, ?_, rfl⟩
  obtain ⟨-, -, hknows⟩ := h.alone
  have huninit : w.status = .uninit := hknows
  refine h.advance rfl (fun b => ?_) rfl rfl ⟨huninit, rfl⟩ fun hready => ?_
  · have hnone : ({ w with start := a } : AddressSpace).reservation = [] := reservation_uninit huninit
    rw [covers_resting, covers_resting, hnone, reservation_uninit huninit]
  · have hready : w.status = .ready := hready
    rw [huninit] at hready
    cases hready

theorem moves_setLimit (a b : Nat) (r : Holding) :
    Moves size (setLimit b) (Holding.stage (.based a) + r) fun _ hand =>
      hand = Holding.stage (.bounded a b) + r := by
  refine Runs.atomic fun e w frame h => ⟨_, ?_, rfl⟩
  obtain ⟨-, -, huninit, hstart⟩ := h.alone
  refine h.advance rfl (fun c => ?_) rfl rfl ⟨huninit, hstart, rfl⟩ fun hready => ?_
  · have hnone : ({ w with limit := b } : AddressSpace).reservation = [] := reservation_uninit huninit
    rw [covers_resting, covers_resting, hnone, reservation_uninit huninit]
  · have hready : w.status = .ready := hready
    rw [huninit] at hready
    cases hready

theorem moves_setBump (a b c : Nat) (r : Holding) :
    Moves size (setBump c) (Holding.stage (.bounded a b) + r) fun _ hand =>
      hand = Holding.stage (.bounded a b) + r := by
  refine Runs.atomic fun e w frame h => ⟨_, ?_, rfl⟩
  obtain ⟨-, -, hknows⟩ := h.alone
  exact h.advance rfl (fun _ => rfl) rfl rfl hknows h.ready

theorem moves_setDisabled (r : Holding) :
    Moves size (setStatus .disabled) (Holding.stage .uninit + r) fun _ hand =>
      hand = Holding.stage .entered + r := by
  refine Runs.atomic fun e w frame h => ⟨_, ?_, rfl⟩
  obtain ⟨-, -, hknows⟩ := h.alone
  refine h.advance rfl (fun a => ?_) rfl rfl trivial fun hready => by cases hready
  have hnone : ({ w with status := .disabled } : AddressSpace).reservation = [] := rfl
  rw [covers_resting, covers_resting, hnone, reservation_uninit hknows]

/-- The last store: from here on the range is the arena's. -/
theorem moves_setReady {a : Nat} (haligned : arenaAlign ∣ a) (r : Holding) :
    Moves size (setStatus .ready)
      (Holding.stage (.bounded a (a + size)) + (Holding.range ⟨a, size⟩ + r)) fun _ hand =>
        hand = Holding.stage .entered + r := by
  refine Runs.atomic fun e w frame h => ⟨_, ?_, rfl⟩
  obtain ⟨hothers, hbehind, huninit, hstart, hlimit⟩ := h.alone
  rw [range_snd] at hothers
  have hstages : (Holding.stage .entered + r + frame).2 = {Stage.entered} := by
    show {Stage.entered} + r.2 + frame.2 = _
    have hsum : r.2 + frame.2 = 0 := hothers
    rw [add_assoc, hsum, add_zero]
  refine ⟨fun b => ?_, ?_, ?_, h.pages, fun _ => ⟨?_, ?_⟩⟩
  · have howned := h.owned b
    have hbefore : covers (Holding.stage (.bounded a (a + size)) + (Holding.range ⟨a, size⟩ + r)
        + frame).1 b = (Stretch.has ⟨a, size⟩ b).toNat + covers (r + frame).1 b := by
      rw [add_comm (Holding.stage _), add_assoc, range_fst]
      show _ + covers (r.1 + (0 + frame.1)) b = _
      rw [zero_add]
      rfl
    have hafter : covers (Holding.stage .entered + r + frame).1 b = covers (r + frame).1 b := by
      show covers (0 + r.1 + frame.1) b = _
      rw [zero_add]
      rfl
    have hreserved : ({ w with status := .ready } : AddressSpace).reservation = [⟨a, size⟩] := by
      show [Stretch.mk w.start (w.limit - w.start)] = _
      rw [hstart, hlimit, Nat.add_sub_cancel_left]
    rw [hbefore, covers_resting, reservation_uninit huninit] at howned
    rw [hafter, covers_resting, hreserved, covers_coe_cons]
    show covers (r + frame).1 b + (covers w.pages b + (covers w.loose b + (covers w.lost b
      + ((Stretch.has ⟨a, size⟩ b).toNat + covers ([] : List Stretch) b)))) = (w.mapped b).toNat
    omega
  · rw [hstages]
    show 1 = w.guard.toNat
    rw [hbehind]
    rfl
  · rw [hstages]
    intro g hg
    rw [Multiset.mem_singleton.1 hg]
    trivial
  · show arenaAlign ∣ w.start
    rwa [hstart]
  · show w.limit = w.start + size
    rw [hstart, hlimit]

theorem moves_reserve (r : Holding) :
    Moves size (reserve size (size + arenaAlign)) (Holding.stage .uninit + r) fun _ hand =>
      hand = Holding.stage .entered + r := by
  refine Runs.bind (moves_mmap _ _) ?_
  rintro o l hand hmid
  cases o with
  | none =>
      obtain rfl : hand = Holding.stage .uninit + r := hmid
      exact moves_setDisabled r
  | some raw =>
      obtain ⟨-, -, rfl⟩ := hmid
      refine moves_ends (tail_total raw size) ?_
      rw [add_left_comm]
      refine Runs.bind (moves_setStart _ _) ?_
      rintro x l hand rfl
      refine Runs.bind (moves_setLimit _ _ _) ?_
      rintro x l hand rfl
      refine Runs.bind (moves_setBump _ _ _ _) ?_
      rintro x l hand rfl
      exact moves_setReady (dvd_alignUp _ _) r

/-- The end behind the guard. -/
theorem moves_leave {α : Type} {k : MapAct α} {post : α → Holding → Prop} (hk : Moves size k r post)
    (g : Stage) : Moves size (do leaveGuard; k) (Holding.stage g + r) post := by
  refine Runs.bind (moves_leaveGuard g r) ?_
  rintro x l hand rfl
  exact hk

theorem moves_isReady (r : Holding) :
    Moves size (do return (← status) = .ready : MapAct Bool) r fun _ hand => hand = r := by
  refine Runs.bind (moves_status r) ?_
  rintro x l hand rfl
  exact Runs.pure rfl

theorem moves_ensureInit (r : Holding) : Moves size (ensureInit size) r fun _ hand => hand = r := by
  refine Runs.bind (moves_status r) ?_
  rintro first l hand rfl
  split
  · exact Runs.pure rfl
  · refine Runs.bind (moves_status hand) ?_
    rintro second l r rfl
    split
    · exact Runs.pure rfl
    · refine Runs.bind (moves_enterGuard _) ?_
      rintro x l hand rfl
      refine Runs.bind (moves_status_behind _) ?_
      rintro st l hand rfl
      split
      · cases htotal : checkedAdd size arenaAlign with
        | none =>
            refine Runs.bind (moves_setDisabled _) ?_
            rintro y l hand rfl
            refine moves_leave ?_ _
            exact Runs.pure rfl
        | some total =>
            obtain ⟨-, rfl⟩ := checkedAdd_eq_some.1 htotal
            refine Runs.bind (moves_reserve _) ?_
            rintro y l hand rfl
            exact moves_leave (moves_isReady _) _
      · exact moves_leave (moves_isReady _) _

/-! ### Ranges at rest -/

theorem moves_keepPages (haligned : arenaAlign ∣ s.start) (r : Holding) :
    Moves size (keepPages s) (Holding.range s + r) fun _ hand => hand = r := by
  refine Runs.atomic fun e w frame h => ⟨r, ?_, rfl⟩
  refine h.rest rfl (fun a => ?_) rfl rfl rfl rfl fun t ht => ?_
  · rw [covers_resting, covers_resting, covers_coe_cons]
    exact add_assoc _ _ _
  · rcases List.mem_cons.1 ht with rfl | ht
    · exact haligned
    · exact h.pages t ht

theorem moves_keepLoose (s : Stretch) (r : Holding) :
    Moves size (keepLoose s) (Holding.range s + r) fun _ hand => hand = r := by
  refine Runs.atomic fun e w frame h => ⟨r, ?_, rfl⟩
  refine h.rest rfl (fun a => ?_) rfl rfl rfl rfl h.pages
  rw [covers_resting, covers_resting, covers_coe_cons]
  show covers w.pages a + ((s.has a).toNat + covers w.loose a + (covers w.lost a
    + covers w.reservation a)) = _
  omega

/-- The range at an index, and the others. -/
theorem covers_eraseIdx {l : List Stretch} {i : Nat} (hi : i < l.length) (d : Stretch) (a : Nat) :
    covers l a = ((l.getD i d).has a).toNat + covers (l.eraseIdx i) a := by
  have hperm : l.Perm (l[i] :: l.eraseIdx i) := (List.getElem_cons_eraseIdx_perm hi).symm
  have hget : l.getD i d = l[i] := List.getD_eq_getElem _ _ hi
  rw [hget, Multiset.coe_eq_coe.2 hperm, covers_coe_cons]

theorem moves_takePages (r : Holding) :
    Moves size takePages r fun s hand => hand = Holding.range s + r := by
  refine Runs.atomicOk fun e w frame hok h => ⟨_, ?_, rfl⟩
  have hi : e.pick < w.pages.length := of_decide_eq_true hok
  refine h.unrest rfl (fun a => ?_) rfl rfl rfl rfl fun t ht => h.pages t (List.mem_of_mem_eraseIdx ht)
  rw [covers_resting, covers_resting, covers_eraseIdx hi ⟨0, 0⟩]
  exact add_assoc _ _ _

theorem moves_takeLoose (r : Holding) :
    Moves size takeLoose r fun s hand => hand = Holding.range s + r := by
  refine Runs.atomicOk fun e w frame hok h => ⟨_, ?_, rfl⟩
  have hi : e.pick < w.loose.length := of_decide_eq_true hok
  refine h.unrest rfl (fun a => ?_) rfl rfl rfl rfl h.pages
  have herase := covers_eraseIdx hi ⟨0, 0⟩ a
  rw [covers_resting, covers_resting]
  show covers w.pages a + (covers w.loose a + (covers w.lost a + covers w.reservation a))
    = ((w.loose.getD e.pick ⟨0, 0⟩).has a).toNat + (covers w.pages a
      + (covers (w.loose.eraseIdx e.pick) a + (covers w.lost a + covers w.reservation a)))
  omega

/-- Every operation ends with what was in hand before it. -/
theorem moves_op (op : MapOp) (r : Holding) : Moves size (op.run size) r fun _ hand => hand = r := by
  cases op with
  | map len =>
      refine Runs.bind (moves_map len r) ?_
      rintro o l hand hmid
      cases o with
      | none => exact Runs.pure hmid
      | some base =>
          obtain ⟨haligned, rfl⟩ := hmid
          exact moves_keepPages haligned r
  | mapAny len =>
      refine Runs.bind (moves_mmap len r) ?_
      rintro o l hand hmid
      cases o with
      | none => exact Runs.pure hmid
      | some base =>
          obtain ⟨-, -, rfl⟩ := hmid
          exact moves_keepLoose _ r
  | unmapPages =>
      refine Runs.bind (moves_takePages r) ?_
      rintro s l hand rfl
      refine Runs.bind (moves_munmap s _) ?_
      rintro x l hand rfl
      exact Runs.pure rfl
  | unmapLoose =>
      refine Runs.bind (moves_takeLoose r) ?_
      rintro s l hand rfl
      refine Runs.bind (moves_munmap s _) ?_
      rintro x l hand rfl
      exact Runs.pure rfl
  | ensureInit =>
      refine Runs.bind (moves_ensureInit r) ?_
      rintro x l hand rfl
      exact Runs.pure rfl

end MapAct

/-! ### Interleavings -/

variable {ι : Type} [Fintype ι] [DecidableEq ι]

theorem AddressSpace.empty_owned (size : Nat) : AddressSpace.empty.Owned size 0 where
  owned := fun _ => rfl
  guard := rfl
  knows := fun g hg => absurd hg (Multiset.notMem_zero g)
  pages := fun s hs => absurd hs List.not_mem_nil
  ready := fun hready => by cases hready

/-- **Every mapped byte has one owner.** In every interleaving of mappings, of unmappings and of threads
that race to reserve the arena, a byte is mapped exactly if it is in one range, and no byte is in two: of
those handed out, those the system refused to take back, the range of the arena, and those that calls in
progress hold. So nothing leaks but what was refused. What `map` handed out is aligned, and once the arena
can be used it has its size and starts at a multiple of 64 KiB. -/
theorem mapped_bytes_owned {size : Nat} {s : Pool ι AddressSpace Unit MapEnv}
    (hreach : Reach (MapOp.run size) (mapStart ι) s) :
    ∃ hand : ι → Multiset Stretch, (∀ t, (s.threads t).Idle → hand t = 0) ∧
      (∀ a, covers ((∑ t, hand t) + s.shared.resting) a = (s.shared.mapped a).toNat) ∧
      (∀ r ∈ s.shared.pages, arenaAlign ∣ r.start) ∧
      (s.shared.status = .ready →
        arenaAlign ∣ s.shared.start ∧ s.shared.limit = s.shared.start + size) := by
  have hstart : (mapStart ι).Inv (AddressSpace.Owned size) noHolding fun _ => True := by
    refine Pool.Inv.rest (fun _ => rfl) (fun _ => trivial) ?_
    show AddressSpace.empty.Owned size (∑ _t : ι, (0 : Holding))
    rw [Finset.sum_const_zero]
    exact AddressSpace.empty_owned size
  have hops : ∀ (op : MapOp) (l : Unit), True →
      Pays (AddressSpace.Owned size) noHolding (fun _ => True) ((op.run size).run l) (noHolding l) := by
    intro op l _
    have hruns : Runs (AddressSpace.Owned size) noHolding (op.run size) l 0 fun _ _ hand =>
        True ∧ hand = 0 :=
      (MapAct.moves_op op 0).mono fun _ _ _ hhand => ⟨trivial, hhand⟩
    exact hruns.pays
  obtain ⟨hand, howned, hidle⟩ := (hstart.reach hops hreach).displays
  refine ⟨fun t => (hand t).1, fun t ht => ?_, fun a => ?_, howned.pages, howned.ready⟩
  · show (hand t).1 = 0
    rw [(hidle t ht).2]
    rfl
  · have hsum : (∑ t, (noHolding (s.threads t).own + hand t)).1 = ∑ t, (hand t).1 := by
      have hplain : ∀ t, noHolding (s.threads t).own + hand t = hand t := fun t => zero_add _
      rw [Finset.sum_congr rfl fun t _ => hplain t]
      exact map_sum (AddMonoidHom.fst (Multiset Stretch) (Multiset Stage)) hand Finset.univ
    rw [covers_add, ← hsum]
    exact howned.owned a

/-! ### A race -/

/-- What a mapping of `len` bytes waits for. -/
def mmapOk (len : Nat) (e : MapEnv) (w : AddressSpace) : Bool := e.raw.all fun p => w.canMap ⟨p, len⟩

theorem mmapOk_iff {len p pick : Nat} {accepted : Bool} {w : AddressSpace} :
    mmapOk len ⟨some p, accepted, pick⟩ w = true ↔ w.canMap ⟨p, len⟩ = true := Iff.rfl

/-- One thread is about to map a page, and the other to reserve the arena. -/
def raceBefore : List (Fin 2 × (MapOp ⊕ MapEnv)) :=
  [(0, .inl (.map pageSize)), (1, .inl .ensureInit)] ++ List.replicate 4 (1, .inr ⟨none, true, 0⟩)

/-- The first gives the ends back, of which the system refuses one, and then asks for the arena too. -/
def raceAfter : List (Fin 2 × (MapOp ⊕ MapEnv)) :=
  [(0, .inr ⟨none, true, 0⟩), (0, .inr ⟨none, false, 0⟩), (0, .inr ⟨none, true, 0⟩), (0, .inl .ensureInit)]
    ++ List.replicate 2 (0, .inr ⟨none, true, 0⟩) ++ List.replicate 8 (1, .inr ⟨none, true, 0⟩)
    ++ List.replicate 4 (0, .inr ⟨none, true, 0⟩)

unseal MapAct.map in
theorem mapped_bytes_owned_race :
    ∃ s : Pool (Fin 2) AddressSpace Unit MapEnv,
      Reach (MapOp.run arenaSize) (mapStart (Fin 2)) s ∧
      (s.shared.pages, s.shared.lost) = ([⟨65536, 65536⟩], [⟨131072, 4096⟩]) ∧
      (s.shared.status, s.shared.start) = (.ready, 2 ^ 40 + 65536) ∧
      ∃ hand : Fin 2 → Multiset Stretch, (∀ t, (s.threads t).Idle → hand t = 0) ∧
        (∀ a, covers ((∑ t, hand t) + s.shared.resting) a = (s.shared.mapped a).toNat) ∧
        (∀ r ∈ s.shared.pages, arenaAlign ∣ r.start) ∧
        (s.shared.status = .ready →
          arenaAlign ∣ s.shared.start ∧ s.shared.limit = s.shared.start + arenaSize) := by
  have hbelow : ∀ a, Stretch.has ⟨4096, pageSize + arenaAlign⟩ a = true →
      Stretch.has ⟨2 ^ 40 + 4096, arenaSize + arenaAlign⟩ a = false := by
    intro a ha
    have hhigh : 4096 + (pageSize + arenaAlign) ≤ 2 ^ 40 := by decide
    rw [Bool.eq_false_iff, ne_eq, Stretch.has_iff]
    have hstretch := Stretch.has_iff.1 ha
    dsimp only at hstretch ⊢
    omega
  have hbefore := Pool.exec_reach
    (show Pool.exec (MapOp.run arenaSize) (mapStart (Fin 2)) raceBefore = some _ from rfl)
  have harena := hbefore.step (.section 1 () (mmapOk (arenaSize + arenaAlign)) _ _
    ⟨some (2 ^ 40 + 4096), true, 0⟩ rfl
    (mmapOk_iff.2 (AddressSpace.canMap_iff.2 ⟨fun _ _ => rfl, by decide, by decide⟩)))
  have hpage := harena.step (.section 0 () (mmapOk (pageSize + arenaAlign)) _ _ ⟨some 4096, true, 0⟩ rfl
    (mmapOk_iff.2 (AddressSpace.canMap_iff.2 ⟨hbelow, by decide, by decide⟩)))
  have hafter := hpage.trans (Pool.exec_reach
    (show Pool.exec (MapOp.run arenaSize) _ raceAfter = some _ from rfl))
  exact ⟨_, hafter, rfl, rfl, mapped_bytes_owned hafter⟩

end Allox
