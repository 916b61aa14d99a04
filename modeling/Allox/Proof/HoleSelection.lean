import Allox.Proof.ArenaHoles
import Allox.Lib.ArrayPrefix

/-!
# Which hole is taken

`BestFit` says what a best-fit store does to its slices, without entries, indices or hints. A take
does that from every state a sequence of gives and takes can lead to, whatever the hints say: they
are checked before they are used, and a search takes over when they are off.
-/

namespace Allox

open ArrayPrefix

/-- What taking `pages` from the slices in a store may return and leave. -/
inductive BestFit (holes : Multiset Slice) (pages : Nat) : Option Nat → Multiset Slice → Prop
  | exact {off : Nat} {rest : Multiset Slice} (hslices : holes = ⟨off, pages⟩ ::ₘ rest) :
      BestFit holes pages (some off) rest
  | split {off p : Nat} {rest : Multiset Slice} (hslices : holes = ⟨off, p⟩ ::ₘ rest)
      (hlarger : pages < p) (hnone : ∀ s ∈ holes, s.pages ≠ pages)
      (hsmallest : ∀ s ∈ holes, pages < s.pages → p ≤ s.pages) :
      BestFit holes pages (some off) (⟨off + pages * arenaAlign, p - pages⟩ ::ₘ rest)
  | miss (hsmall : ∀ s ∈ holes, s.pages < pages) : BestFit holes pages none holes

namespace HoleStore

variable {h : HoleStore} {i pages : Nat}

/-- The index a best-fit search may settle on. -/
def Selects (h : HoleStore) (pages : Nat) : Option Nat → Prop
  | none => ∀ j < h.len, (h.entries j).2 < pages
  | some i => i < h.len ∧ ((h.entries i).2 = pages ∨
      pages < (h.entries i).2 ∧ (∀ j < h.len, (h.entries j).2 ≠ pages) ∧
        ∀ j < h.len, pages < (h.entries j).2 → (h.entries i).2 ≤ (h.entries j).2)

theorem Selects.congr {g : HoleStore} (hlen : g.len = h.len) (hentries : g.entries = h.entries)
    {o : Option Nat} (hsel : h.Selects pages o) : g.Selects pages o := by
  cases o <;> simpa only [Selects, hlen, hentries] using hsel

/-- The scan stops at the first exact size, and otherwise keeps the smallest size above. -/
theorem scan_eq (h : HoleStore) (pages i n : Nat) (best : Option Nat) :
    h.scan pages i n best
      = ((List.range' i n).find? fun j => (h.entries j).2 == pages).or
          ((List.range' i n).foldl (fun best j =>
            if decide (pages < (h.entries j).2) &&
              best.all fun b => (h.entries j).2 < (h.entries b).2 then some j else best) best) := by
  induction n generalizing i best with
  | zero => rfl
  | succ n ih =>
      rw [List.range'_succ, List.find?_cons, List.foldl_cons]
      unfold scan
      dsimp only
      by_cases heq : (h.entries i).2 = pages
      · rw [if_pos heq, beq_iff_eq.2 heq]
        rfl
      · rw [if_neg heq, beq_eq_false_iff_ne.2 heq]
        split
        · exact ih (i + 1) (some i)
        · exact ih (i + 1) best

theorem scan_selects (h : HoleStore) (pages : Nat) :
    h.Selects pages (h.scan pages 0 h.len none) := by
  rw [scan_eq, ← List.range_eq_range']
  cases hfind : (List.range h.len).find? fun j => (h.entries j).2 == pages with
  | some i =>
      obtain ⟨hi, hsize⟩ := find?_range_lt hfind
      exact ⟨hi, .inl (beq_iff_eq.1 hsize)⟩
  | none =>
      have hnone : ∀ j < h.len, (h.entries j).2 ≠ pages := fun j hj => by
        simpa using List.find?_eq_none.1 hfind j (List.mem_range.2 hj)
      have hsearch := foldl_smallest (p := fun j => decide (pages < (h.entries j).2))
        (s := fun j => (h.entries j).2) (fun _ _ => rfl) h.len
      rw [Option.none_or]
      revert hsearch
      generalize (List.range h.len).foldl _ none = best
      intro hsearch
      cases best with
      | none =>
          intro j hj
          have hle := of_decide_eq_false (hsearch j hj)
          have hne := hnone j hj
          omega
      | some i =>
          obtain ⟨hi, hfits, hleast⟩ := hsearch
          refine ⟨hi, .inr ⟨of_decide_eq_true hfits, hnone, fun j hj hlt => ?_⟩⟩
          exact hleast j hj (decide_eq_true hlt)

/-- The index through the hint, or else by the scan, is one a best-fit search may settle on. -/
theorem exactIndex_selects (h : HoleStore) (pages : Nat) :
    h.Selects pages ((h.exactIndex pages).2.orElse fun _ =>
      (h.exactIndex pages).1.scan pages 0 (h.exactIndex pages).1.len none) := by
  cases hhint : (h.exactIndex pages).2 with
  | some i =>
      obtain ⟨hi, hsize⟩ := exactIndex_some hhint
      exact ⟨hi, .inl hsize⟩
  | none =>
      have hscan := scan_selects (h.exactIndex pages).1 pages
      exact hscan.congr (exactIndex_len h pages).symm (exactIndex_entries h pages).symm

/-- The best fit of a search that ignores the hints. -/
def search (h : HoleStore) (pages : Nat) : Option Nat :=
  (h.scan pages 0 h.len none).map fun i => (h.entries i).1

theorem scan_congr {g : HoleStore} (hentries : g.entries = h.entries) (pages i n : Nat)
    (best : Option Nat) : g.scan pages i n best = h.scan pages i n best := by
  rw [scan_eq, scan_eq, hentries]

theorem search_congr {g : HoleStore} (hlen : g.len = h.len) (hentries : g.entries = h.entries)
    (pages : Nat) : g.search pages = h.search pages := by
  rw [search, search, scan_congr hentries, hentries, hlen]

/-- Without a hole of exactly this size the hints decide nothing. -/
theorem take_eq_search (hnone : ∀ j < h.len, (h.entries j).2 ≠ pages) :
    (h.take pages).2 = h.search pages := by
  have hhint : (h.exactIndex pages).2 = none := by
    cases hsome : (h.exactIndex pages).2 with
    | none => rfl
    | some i =>
        obtain ⟨hi, hsize⟩ := exactIndex_some hsome
        exact absurd hsize (hnone i hi)
  have hentries := exactIndex_entries h pages
  have hscan := scan_congr hentries pages 0 h.len none
  unfold take search
  dsimp only
  rw [hhint, exactIndex_len, hentries]
  dsimp only [Option.orElse]
  rw [hscan]
  cases h.scan pages 0 h.len none with
  | none => rfl
  | some i =>
      dsimp only [Option.map]
      split <;> rfl

theorem mem_slices {s : Slice} :
    s ∈ h.slices ↔ ∃ j < h.len, (⟨(h.entries j).1, (h.entries j).2⟩ : Slice) = s := by
  simp [slices]

/-- A take is a best fit over the slices, with no condition on the hints. -/
theorem take_bestFit (h : HoleStore) (pages : Nat) :
    BestFit h.slices pages (h.take pages).2 (h.take pages).1.slices := by
  have hsel := exactIndex_selects h pages
  unfold take
  obtain ⟨g, hg⟩ : ∃ g, h.exactIndex pages = g := ⟨_, rfl⟩
  have hlen : g.1.len = h.len := hg ▸ exactIndex_len h pages
  have hentries : g.1.entries = h.entries := hg ▸ exactIndex_entries h pages
  have hslices : g.1.slices = h.slices := slices_congr hlen hentries
  rw [hg] at hsel ⊢
  dsimp only
  cases hbest : g.2.orElse fun _ => g.1.scan pages 0 g.1.len none with
  | none =>
      rw [hbest] at hsel
      dsimp only
      rw [hslices]
      apply BestFit.miss
      intro s hs
      obtain ⟨j, hj, rfl⟩ := mem_slices.1 hs
      exact hsel j hj
  | some i =>
      rw [hbest] at hsel
      obtain ⟨hi, hsize⟩ := hsel
      dsimp only
      rw [hentries, ← hslices]
      rw [← hlen] at hi
      by_cases hlt : pages < (h.entries i).2
      · rw [if_pos hlt]
        obtain hexact | ⟨-, hnone, hleast⟩ := hsize
        · exact absurd hexact hlt.ne'
        obtain ⟨rest, hrest, hsplit⟩ :=
          splitAt_slices (h := { g.1 with bytes := g.1.bytes - pages * arenaAlign }) pages hi
        change g.1.slices = _ at hrest
        dsimp only at hrest hsplit
        rw [hentries] at hrest hsplit
        rw [hsplit]
        refine BestFit.split hrest hlt ?_ ?_
        · intro s hs
          obtain ⟨j, hj, rfl⟩ := mem_slices.1 hs
          rw [hentries]
          exact hnone j (hlen ▸ hj)
        · intro s hs hlarge
          obtain ⟨j, hj, rfl⟩ := mem_slices.1 hs
          rw [hentries] at hlarge ⊢
          exact hleast j (hlen ▸ hj) hlarge
      · rw [if_neg hlt]
        have hexact : (g.1.entries i).2 = pages := by
          rw [hentries]
          obtain hexact | ⟨hlarge, -⟩ := hsize
          · exact hexact
          · exact absurd hlarge hlt
        have hremove :=
          swapRemove_slices (h := { g.1 with bytes := g.1.bytes - pages * arenaAlign }) hi
        change g.1.slices = ⟨(g.1.entries i).1, (g.1.entries i).2⟩ ::ₘ _ at hremove
        dsimp only at hremove
        rw [hexact, hentries] at hremove
        exact BestFit.exact hremove

end HoleStore

/-! ### What a best fit says -/

namespace BestFit

variable {holes left : Multiset Slice} {pages : Nat} {o : Option Nat}

/-- The bytes that leave the store are those asked for. -/
theorem lenSum_eq (h : BestFit holes pages o left) :
    Slice.lenSum holes = Slice.lenSum left + o.elim 0 fun _ => pages * arenaAlign := by
  cases h with
  | exact hslices => rw [hslices, Slice.lenSum_cons, add_comm]; rfl
  | @split off p rest hslices hlarger =>
      rw [hslices, Slice.lenSum_cons, Slice.lenSum_cons]
      simp only [Slice.len, Option.elim]
      have hmul : p * arenaAlign = pages * arenaAlign + (p - pages) * arenaAlign := by
        rw [← Nat.add_mul, Nat.add_sub_cancel' hlarger.le]
      omega
  | miss => rfl

end BestFit

/-! ### The states a store can get into -/

namespace ArenaWorld

/-- `holes_take` as a whole, when nobody interferes: the count is read first, without the lock. -/
def holesTake (w : ArenaWorld) (pages : Nat) : ArenaWorld × Option Nat :=
  if w.arena.holeCount = 0 then (w, none) else w.takeHole pages

/-- The states any sequence of `holes_give` and `holes_take` leads to. -/
inductive HolesReach (size : Nat) : ArenaWorld → Prop
  | new : HolesReach size (.new size)
  | give {w : ArenaWorld} (s : Slice) (h : HolesReach size w) : HolesReach size (w.giveHole s)
  | take {w : ArenaWorld} (pages : Nat) (h : HolesReach size w) :
      HolesReach size (w.holesTake pages).1

/-- The counters of the store agree with its entries. -/
structure HolesOk (w : ArenaWorld) : Prop where
  bytes : w.arena.holes.bytes = Slice.lenSum w.arena.holes.slices
  count : w.arena.holeCount = w.arena.holes.len

variable {w : ArenaWorld} {size : Nat}

theorem takeHole_arena (w : ArenaWorld) (pages : Nat) :
    (w.takeHole pages).1.arena = { w.arena with
      holes := (w.arena.holes.take pages).1
      holeCount := (w.arena.holes.take pages).1.len } := by
  unfold takeHole
  dsimp only
  split <;> rfl

theorem takeHole_snd (w : ArenaWorld) (pages : Nat) :
    (w.takeHole pages).2 = (w.arena.holes.take pages).2 := by
  unfold takeHole
  dsimp only
  split
  · rename_i heq
    exact heq.symm
  · rename_i off heq
    exact heq.symm

/-- The slices and the bytes after a take, on success and on a miss. -/
theorem HolesOk.take_bytes (h : w.HolesOk) (pages : Nat) :
    (w.arena.holes.take pages).1.bytes
      = Slice.lenSum (w.arena.holes.take pages).1.slices := by
  have hfit := w.arena.holes.take_bestFit pages
  have hspec := w.arena.holes.take_spec pages
  have hsum := hfit.lenSum_eq
  generalize w.arena.holes.take pages = r at hspec hsum ⊢
  obtain ⟨left, o⟩ := r
  cases o with
  | none =>
      obtain ⟨-, -, hbytes⟩ := hspec
      dsimp only [Option.elim] at hsum ⊢
      rw [hbytes, h.bytes, hsum, Nat.add_zero]
  | some off =>
      obtain ⟨-, -, -, -, hbytes, -⟩ := hspec
      dsimp only [Option.elim] at hsum ⊢
      rw [hbytes, h.bytes, hsum, Nat.add_sub_cancel]

theorem HolesOk.holesTake (h : w.HolesOk) (pages : Nat) : (w.holesTake pages).1.HolesOk := by
  unfold ArenaWorld.holesTake
  split
  · exact h
  · constructor
    · rw [takeHole_arena]
      exact h.take_bytes pages
    · rw [takeHole_arena]

theorem HolesOk.giveHole (h : w.HolesOk) (s : Slice) : (w.giveHole s).HolesOk := by
  have hspec := w.arena.holes.give_spec s.off s.pages
  unfold ArenaWorld.giveHole
  cases hgive : w.arena.holes.give s.off s.pages with
  | none => exact ⟨h.bytes, h.count⟩
  | some holes =>
      rw [hgive] at hspec
      obtain ⟨hslices, -, hbytes, -⟩ := hspec
      constructor
      · dsimp only
        rw [hbytes, hslices, Slice.lenSum_cons, h.bytes, Slice.len, add_comm]
      · rfl

theorem HolesReach.ok (h : HolesReach size w) : w.HolesOk := by
  induction h with
  | new => exact ⟨rfl, rfl⟩
  | give s _ ih => exact ih.giveHole s
  | take pages _ ih => exact ih.holesTake pages

/-- Stale hints put into a store: the entries and the counters stay. -/
def withHints (w : ArenaWorld) (hints : Nat → Nat) : ArenaWorld :=
  { w with arena := { w.arena with holes := { w.arena.holes with exact := hints } } }

def holeSlices (w : ArenaWorld) : Multiset Slice := w.arena.holes.slices

theorem HolesOk.withHints (h : w.HolesOk) (hints : Nat → Nat) : (w.withHints hints).HolesOk :=
  ⟨h.bytes, h.count⟩

theorem HolesOk.holesTake_bestFit (h : w.HolesOk) (pages : Nat) :
    BestFit w.holeSlices pages (w.holesTake pages).2 (w.holesTake pages).1.holeSlices := by
  unfold ArenaWorld.holesTake
  by_cases hzero : w.arena.holeCount = 0
  · -- nothing is in the store, and the lock is never taken
    rw [if_pos hzero]
    apply BestFit.miss
    intro s hs
    rw [h.count] at hzero
    obtain ⟨j, hj, -⟩ := HoleStore.mem_slices.1 hs
    rw [hzero] at hj
    exact absurd hj (Nat.not_lt_zero j)
  · rw [if_neg hzero, takeHole_snd, holeSlices, holeSlices, takeHole_arena]
    exact w.arena.holes.take_bestFit pages

theorem HolesOk.holesTake_search (h : w.HolesOk) {pages : Nat}
    (hnone : ∀ s ∈ w.holeSlices, s.pages ≠ pages) :
    (w.holesTake pages).2 = w.arena.holes.search pages := by
  have hnone' : ∀ j < w.arena.holes.len, (w.arena.holes.entries j).2 ≠ pages := fun j hj =>
    hnone _ (HoleStore.mem_slices.2 ⟨j, hj, rfl⟩)
  unfold ArenaWorld.holesTake
  by_cases hzero : w.arena.holeCount = 0
  · rw [if_pos hzero, HoleStore.search, ← h.count, hzero]
    rfl
  · rw [if_neg hzero, takeHole_snd]
    exact HoleStore.take_eq_search hnone'

/-- **Hole selection.** From every state gives and takes lead to, and with any hints whatever in
place of those the store has kept, `holes_take` is a best fit over the slices in the store: an
exact size, else a smallest larger one whose rest stays, null only when every hole is too small.
Without an exact size it is the very hole of a search that ignores the hints. The byte count falls
by what was asked for. -/
theorem holes_take_bestFit (hreach : HolesReach size w) (hints : Nat → Nat) (pages : Nat) :
    BestFit w.holeSlices pages ((w.withHints hints).holesTake pages).2
        ((w.withHints hints).holesTake pages).1.holeSlices ∧
      ((∀ s ∈ w.holeSlices, s.pages ≠ pages) →
        ((w.withHints hints).holesTake pages).2 = w.arena.holes.search pages) ∧
      ((w.withHints hints).holesTake pages).1.arena.holes.bytes
        + (((w.withHints hints).holesTake pages).2.elim 0 fun _ => pages * arenaAlign)
        = w.arena.holes.bytes := by
  have hok := hreach.ok.withHints hints
  have hfit := hok.holesTake_bestFit pages
  refine ⟨hfit, fun hnone => ?_, ?_⟩
  · rw [hok.holesTake_search hnone]
    exact HoleStore.search_congr (h := w.arena.holes) (g := (w.withHints hints).arena.holes)
      rfl rfl pages
  · rw [(hok.holesTake pages).bytes, ← holeSlices, ← hfit.lenSum_eq, holeSlices]
    exact hok.bytes.symm

/-- The hint for two pages names the hole of nine; the smallest that is larger is the one of three. -/
theorem holes_take_bestFit_split :
    BestFit {⟨8 * arenaAlign, 5⟩, ⟨20 * arenaAlign, 3⟩, ⟨30 * arenaAlign, 9⟩} 2
      (some (20 * arenaAlign))
      {⟨8 * arenaAlign, 5⟩, ⟨22 * arenaAlign, 1⟩, ⟨30 * arenaAlign, 9⟩} := by
  have hreach : HolesReach arenaSize ((((new arenaSize).giveHole ⟨8 * arenaAlign, 5⟩).giveHole
      ⟨20 * arenaAlign, 3⟩).giveHole ⟨30 * arenaAlign, 9⟩) :=
    .give _ (.give _ (.give _ .new))
  exact (holes_take_bestFit hreach (fun _ => 2) 2).1

end ArenaWorld

end Allox
