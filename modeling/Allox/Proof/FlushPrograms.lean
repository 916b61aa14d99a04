import Allox.Proof.Programs

/-!
# Flushes leave nothing behind

A flush takes blocks off the lists of one cache and gives them back, so the hand ends as it was. A full
flush empties every list and the stash.
-/

namespace Allox

open Resumption

namespace Sys

open World ThreadCache

variable {α β : Type} {l : Caches} {hand : Multiset Token} {k : Slot} {c : ThreadCache} {n : Nat}
  {t : SpanTier}

theorem shift_dirty (A hand : Multiset Token) (w : World) (R : Multiset Token)
    (h : w.Good (A + hand + R)) : w.Good (A.map Token.dirty + hand + R) := by
  rw [add_assoc] at *
  exact h.dirty

/-- What a flush does to the caches of a thread: the lists of one get shorter. -/
structure Shrinks (k : Slot) (n : Nat) (l l' : Caches) : Prop where
  books : (l' k).Books n
  drains : Drains (l k) (l' k)
  other : ∀ j, j ≠ k → l' j = l j

theorem Shrinks.refl (h : (l k).Books n) : Shrinks k n l l := ⟨h, .refl _, fun _ _ => rfl⟩

theorem Shrinks.trans {l' l'' : Caches} (h : Shrinks k n l l') (h' : Shrinks k n l' l'') :
    Shrinks k n l l'' :=
  ⟨h'.books, h.drains.trans h'.drains, fun j hj => (h'.other j hj).trans (h.other j hj)⟩

theorem Shrinks.put (hbooks : c.Books n) (hdrains : Drains (l k) c) :
    Shrinks k n l (Function.update l k c) where
  books := by
    rw [Function.update_self]
    exact hbooks
  drains := by
    rw [Function.update_self]
    exact hdrains
  other j hj := Function.update_of_ne hj _ _

theorem runs_flushBinLoop {cls : Fin numClasses} {floor : Nat} (hb : (l k).Books n) (fuel : Nat) :
    SysRuns (flushBinLoop k cls floor fuel) l hand fun _ l' m => m = hand ∧ Shrinks k n l l' ∧
      (((l k).bins cls).len ≤ floor + fuel → ((l' k).bins cls).len ≤ floor) := by
  induction fuel generalizing l with
  | zero => exact SysRuns.pure ⟨rfl, .refl hb, id⟩
  | succ fuel ih =>
      unfold flushBinLoop
      refine runs_cache ?_
      split
      · rename_i hle
        exact SysRuns.pure ⟨rfl, .refl hb, fun _ => hle⟩
      · rename_i hgt
        obtain ⟨hbooks, hdrains, hchunks, m, hstake, hblocks⟩ :=
          @Books.flushPops _ _ cls floor hb flushChunk [] fun g hg => absurd hg List.not_mem_nil
        obtain ⟨hlen, hnil⟩ := @Books.flushPops_len _ _ cls floor hb flushChunk []
        have hchunk : 0 < flushChunk := by decide
        generalize (l k).flushPops cls floor flushChunk [] = r at *
        obtain ⟨left, groups⟩ := r
        dsimp only at *
        rw [show SmallHeap.chunkBlocks cls [] = 0 from rfl, show blockTokens 0 = 0 from rfl,
          add_zero] at hblocks
        refine SysRuns.bind (runs_put (m + hand) (by rw [hstake]; ac_rfl)) ?_
        rintro _ l' m' ⟨rfl, rfl⟩
        refine SysRuns.shift (shift_dirty m hand) ?_
        rw [← hblocks]
        refine SysRuns.bind (runs_releaseMany hchunks) ?_
        rintro _ l' m' ⟨rfl, rfl⟩
        have hput : Shrinks k n l (Function.update l k left) := .put hbooks hdrains
        split
        · rename_i hempty
          have hstop := (hnil (List.isEmpty_iff.1 hempty)).2
          omega
        · refine SysRuns.mono (ih hput.books) ?_
          rintro _ l' m' ⟨rfl, hshrinks, hless⟩
          refine ⟨rfl, hput.trans hshrinks, fun hle => hless ?_⟩
          rw [Function.update_self]
          omega

theorem runs_flushBin {cls : Fin numClasses} {floor : Nat} (hb : (l k).Books n) :
    SysRuns (flushBin k cls floor) l hand fun _ l' m => m = hand ∧ Shrinks k n l l' ∧
      ((l' k).bins cls).len ≤ floor := by
  refine runs_cache (SysRuns.mono (runs_flushBinLoop hb _) ?_)
  rintro _ l' m ⟨rfl, hshrinks, hless⟩
  exact ⟨rfl, hshrinks, hless (Nat.le_add_left _ _)⟩

theorem runs_flushBinExit {cls : Fin numClasses} (hb : (l k).Books n) :
    SysRuns (flushBinExit k cls) l hand fun _ l' m => m = hand ∧ Shrinks k n l l' ∧
      ((l' k).bins cls).blocks = [] := by
  have hlen := (hb.bins cls).len
  unfold flushBinExit
  refine runs_cache ?_
  dsimp only
  split
  · rename_i hzero
    rw [hzero] at hlen
    exact SysRuns.pure ⟨rfl, .refl hb, List.length_eq_zero_iff.1 hlen.symm⟩
  · split
    · refine SysRuns.mono (runs_flushBin hb) ?_
      rintro _ l' m ⟨rfl, hshrinks, hle⟩
      refine ⟨rfl, hshrinks, ?_⟩
      rw [(hshrinks.books.bins cls).len] at hle
      exact List.length_eq_zero_iff.1 (Nat.le_zero.1 hle)
    · obtain ⟨hbooks, hdrains, hnil, m, hstake, hblocks⟩ := hb.dropBin cls
      rw [hlen, List.take_length]
      refine SysRuns.bind (runs_put (m + hand) (by rw [hstake]; ac_rfl)) ?_
      rintro _ l' m' ⟨rfl, rfl⟩
      refine SysRuns.shift (shift_dirty m hand) ?_
      rw [← hblocks]
      have hsection : SysRuns (onSmall fun e h => h.releaseBinChunks cls e.discards ((l k).bins cls).blocks
          (ThreadCache.countPages ((l k).bins cls).blocks)) (Function.update l k ((l k).dropBin cls))
          (blockTokens (blocksOf cls ((l k).bins cls).blocks) + hand)
          fun fates l' m => l' = Function.update l k ((l k).dropBin cls) ∧
            m = fateTokens .small fates + hand :=
        runs_onSmall fun e w R hw => by
          rw [add_assoc] at hw
          have hgood := hw.releaseBinChunks (countPages_counted _) e.discards
          rw [← add_assoc] at hgood
          exact ⟨_, hgood, rfl, rfl⟩
      refine SysRuns.bind hsection ?_
      rintro fates l' m' ⟨rfl, rfl⟩
      refine SysRuns.mono runs_actFates ?_
      rintro _ l' m' ⟨rfl, rfl⟩
      refine ⟨rfl, .put hbooks hdrains, ?_⟩
      rw [Function.update_self]
      exact hnil

theorem runs_flushActive {cls : Fin t.num} (hb : (l k).Books n) :
    SysRuns (flushActive k t cls) l hand fun _ l' m => m = hand ∧ Shrinks k n l l' ∧
      ((l' k).active t cls).list.blocks = [] := by
  have hlen := (hb.active t cls).len
  unfold flushActive
  refine runs_cache ?_
  dsimp only
  split
  · rename_i hnothing
    have hnil : ((l k).active t cls).list.blocks = [] := by
      by_contra hblocks
      have hspan := hb.recorded t cls hblocks
      have hpos := List.length_pos_of_ne_nil hblocks
      have hne : ¬((l k).active t cls).list.len = 0 := by omega
      simp [hspan, hblocks, hne] at hnothing
    obtain ⟨hbooks, hstake, hdrains⟩ := hb.clearActive hnil
    split
    · refine SysRuns.mono (runs_put_same hstake) ?_
      rintro _ l' m ⟨rfl, rfl⟩
      refine ⟨rfl, .put hbooks hdrains, ?_⟩
      rw [Function.update_self]
      exact hdrains.active t cls hnil
    · exact SysRuns.pure ⟨rfl, .refl hb, hnil⟩
  · rename_i hsome
    simp only [Bool.or_eq_true, decide_eq_true_eq, not_or, List.isEmpty_iff] at hsome
    obtain ⟨hbooks, hdrains, hnil, m, hstake, hblocks⟩ := hb.dropActive t cls
    refine SysRuns.bind (runs_put (m + hand) (by rw [hstake]; ac_rfl)) ?_
    rintro _ l' m' ⟨rfl, rfl⟩
    refine SysRuns.shift (shift_dirty m hand) ?_
    rw [← hblocks]
    have hchunk : SpanHeap.Chunk ⟨((l k).active t cls).span, ((l k).active t cls).list.blocks,
        ((l k).active t cls).list.blocks.getLast?.getD 0, ((l k).active t cls).list.len⟩ := by
      refine ⟨?_, hlen⟩
      rw [List.getLast?_eq_some_getLast hsome.1.2]
      rfl
    refine SysRuns.mono (runs_releaseSpan hchunk) ?_
    rintro _ l' m' ⟨rfl, rfl⟩
    refine ⟨rfl, .put hbooks hdrains, ?_⟩
    rw [Function.update_self]
    exact hnil

theorem runs_flushSpanPops {cls : Fin t.num} {floor : Nat} (hb : (l k).Books n) (fuel : Nat)
    {groups : List ReleaseChunk} (hgroups : ∀ g ∈ groups, SpanHeap.Chunk g) :
    SysRuns (flushSpanPops k t cls floor fuel groups) l (spanTokens t (groupBlocks cls groups) + hand)
      fun groups' l' m => m = spanTokens t (groupBlocks cls groups') + hand ∧ Shrinks k n l l' ∧
        (∀ g ∈ groups', SpanHeap.Chunk g) ∧
        ((l' k).spanBins t cls).len ≤ max floor (((l k).spanBins t cls).len - fuel) ∧
        (groups' = [] → groups = [] ∧ (fuel = 0 ∨ ((l k).spanBins t cls).len ≤ floor)) := by
  induction fuel generalizing l groups with
  | zero =>
      exact SysRuns.pure ⟨rfl, .refl hb, hgroups, le_max_right _ _, fun hnil => ⟨hnil, .inl rfl⟩⟩
  | succ fuel ih =>
      unfold flushSpanPops
      refine runs_cache ?_
      split
      · rename_i hle
        exact SysRuns.pure ⟨rfl, .refl hb, hgroups, le_max_of_le_left hle, fun hnil => ⟨hnil, .inr hle⟩⟩
      · rename_i hgt
        split
        · rename_i hpop
          have hnil := popSpanBin_none hpop
          have hlen := (hb.spanBins t cls).len
          rw [hnil, List.length_nil] at hlen
          omega
        · rename_i b zeroed left hpop
          obtain ⟨hleft, hstake, hdrains, hlen⟩ := hb.popSpanBin hpop
          refine SysRuns.bind (runs_put ({.span t ⟨cls, b, none⟩ zeroed}
            + (spanTokens t (groupBlocks cls groups) + hand)) (by rw [hstake]; ac_rfl)) ?_
          rintro _ l' m ⟨rfl, rfl⟩
          refine SysRuns.bind (runs_spanOf false) ?_
          rintro span l' m ⟨rfl, rfl⟩
          obtain ⟨hchunks, hblocks⟩ := @addToSpan_chunks b t cls span groups hgroups
          have hput : Shrinks k n l (Function.update l k left) := .put hleft hdrains
          have hnext := ih hput.books hchunks
          rw [hblocks, spanTokens_add, add_assoc] at hnext
          refine SysRuns.mono hnext ?_
          rintro groups' l' m ⟨rfl, hshrinks, hchunks', hless, hnil⟩
          rw [Function.update_self] at hless
          refine ⟨rfl, hput.trans hshrinks, hchunks', hless.trans ?_, fun hempty => ?_⟩
          · rw [hlen]
            apply max_le_max le_rfl
            omega
          · exact absurd (hnil hempty).1 (addToSpan_ne_nil groups)

theorem runs_flushSpanBinLoop {cls : Fin t.num} {floor : Nat} (hb : (l k).Books n) (fuel : Nat) :
    SysRuns (flushSpanBinLoop k t cls floor fuel) l hand fun _ l' m => m = hand ∧ Shrinks k n l l' ∧
      (((l k).spanBins t cls).len ≤ floor + fuel → ((l' k).spanBins t cls).len ≤ floor) := by
  induction fuel generalizing l with
  | zero => exact SysRuns.pure ⟨rfl, .refl hb, id⟩
  | succ fuel ih =>
      unfold flushSpanBinLoop
      refine runs_cache ?_
      split
      · rename_i hle
        exact SysRuns.pure ⟨rfl, .refl hb, fun _ => hle⟩
      · rename_i hgt
        have hchunk : 0 < t.flushChunk := by
          cases t <;> decide
        have hpops := @runs_flushSpanPops l hand k n t cls floor hb t.flushChunk [] fun g hg =>
          absurd hg List.not_mem_nil
        rw [show groupBlocks cls [] = 0 from rfl, show spanTokens t 0 = 0 from rfl, zero_add] at hpops
        refine SysRuns.bind hpops ?_
        rintro groups l' m ⟨rfl, hshrinks, hchunks, hlen, hnil⟩
        refine SysRuns.bind (runs_releaseGroups hchunks) ?_
        rintro _ l'' m ⟨rfl, rfl⟩
        split
        · rename_i hempty
          have hstop := (hnil (List.isEmpty_iff.1 hempty)).2
          omega
        · refine SysRuns.mono (ih hshrinks.books) ?_
          rintro _ l'' m ⟨rfl, hshrinks', hless⟩
          exact ⟨rfl, hshrinks.trans hshrinks', fun hle => hless (by omega)⟩

theorem runs_flushSpanBin {cls : Fin t.num} {floor : Nat} (hb : (l k).Books n) :
    SysRuns (flushSpanBin k t cls floor) l hand fun _ l' m => m = hand ∧ Shrinks k n l l' ∧
      ((l' k).spanBins t cls).len ≤ floor := by
  refine runs_cache (SysRuns.mono (runs_flushSpanBinLoop hb _) ?_)
  rintro _ l' m ⟨rfl, hshrinks, hless⟩
  exact ⟨rfl, hshrinks, hless (Nat.le_add_left _ _)⟩

theorem runs_emptySpanBin {cls : Fin t.num} (hb : (l k).Books n) :
    SysRuns (flushSpanBin k t cls 0) l hand fun _ l' m => m = hand ∧ Shrinks k n l l' ∧
      ((l' k).spanBins t cls).blocks = [] := by
  refine SysRuns.mono (runs_flushSpanBin hb) ?_
  rintro _ l' m ⟨rfl, hshrinks, hle⟩
  refine ⟨rfl, hshrinks, ?_⟩
  rw [(hshrinks.books.spanBins t cls).len] at hle
  exact List.length_eq_zero_iff.1 (Nat.le_zero.1 hle)

/-- One list after the other; those already empty stay so. -/
theorem runs_eachFlush {α : Type} {f : α → Sys Unit} {P : ThreadCache → α → Prop} {xs : List α}
    (hf : ∀ x l, (l k).Books n →
      SysRuns (f x) l hand fun _ l' m => m = hand ∧ Shrinks k n l l' ∧ P (l' k) x)
    (hkeeps : ∀ c d x, Drains c d → P c x → P d x) (hb : (l k).Books n) :
    SysRuns (each f xs) l hand fun _ l' m => m = hand ∧ Shrinks k n l l' ∧ ∀ x ∈ xs, P (l' k) x := by
  induction xs generalizing l with
  | nil => exact SysRuns.pure ⟨rfl, .refl hb, fun x hx => absurd hx List.not_mem_nil⟩
  | cons x rest ih =>
      refine SysRuns.bind (hf x l hb) ?_
      rintro _ l' m ⟨rfl, hshrinks, hx⟩
      refine SysRuns.mono (ih hshrinks.books) ?_
      rintro _ l'' m ⟨rfl, hshrinks', hrest⟩
      refine ⟨rfl, hshrinks.trans hshrinks', fun y hy => ?_⟩
      rcases List.mem_cons.1 hy with rfl | hy
      · exact hkeeps _ _ _ hshrinks'.drains hx
      · exact hrest y hy

/-- The stash with the first `i` entries gone. -/
def clearedTo (c : ThreadCache) (i : Nat) : ThreadCache :=
  { c with large := fun j => if j < i then (0, 0) else c.large j }

theorem clearedTo_zero (c : ThreadCache) : clearedTo c 0 = c := by
  unfold clearedTo
  simp

theorem clearedTo_succ (c : ThreadCache) (i : Nat) :
    Function.update (clearedTo c i).large i (0, 0) = (clearedTo c (i + 1)).large := by
  funext j
  by_cases hj : j = i
  · subst hj
    rw [Function.update_self]
    exact (if_pos (Nat.lt_succ_self j)).symm
  · rw [Function.update_of_ne hj]
    show (if j < i then (0, 0) else c.large j) = if j < i + 1 then (0, 0) else c.large j
    have hiff : j < i ↔ j < i + 1 := by omega
    simp only [hiff]

theorem clearedTo_stake (c : ThreadCache) {i : Nat} (hi : i < c.largeLen) (hbase : (c.large i).1 ≠ 0) :
    (clearedTo c i).stake = {regionToken (c.large i)} + (clearedTo c (i + 1)).stake := by
  have hself : (clearedTo c i).large i = c.large i := if_neg (lt_irrefl i)
  have hrest : ((Multiset.range c.largeLen).erase i).map (Function.update (clearedTo c i).large i (0, 0))
      = ((Multiset.range c.largeLen).erase i).map (clearedTo c i).large := by
    refine Multiset.map_congr rfl fun j hj => ?_
    exact Function.update_of_ne ((Multiset.nodup_range _).mem_erase_iff.1 hj).1 _ _
  have hstash : (clearedTo c i).stash = {regionToken (c.large i)} + (clearedTo c (i + 1)).stash := by
    unfold ThreadCache.stash
    show (ArrayPrefix.upto _ c.largeLen).filterMap stashed
      = _ + (ArrayPrefix.upto _ c.largeLen).filterMap stashed
    rw [← clearedTo_succ, ArrayPrefix.upto_eq_add_erase hi, ArrayPrefix.upto_eq_add_erase hi, hself,
      hrest, stashed_add hbase, Function.update_self, Multiset.singleton_add (0, 0),
      Multiset.filterMap_cons_none _ _ rfl]
  unfold ThreadCache.stake
  rw [hstash, add_left_comm]
  rfl

theorem clearedTo_stash_nil (c : ThreadCache) : (clearedTo c c.largeLen).stash = 0 := by
  refine filterMap_eq_zero fun e he => ?_
  obtain ⟨j, hj, rfl⟩ := ArrayPrefix.mem_upto.1 he
  have hzero : (clearedTo c c.largeLen).large j = (0, 0) := if_pos hj
  rw [hzero]
  rfl

theorem runs_clearStash (hb : c.Books n) (m : Nat) {i : Nat} (hlen : i + m = c.largeLen)
    (hk : l k = clearedTo c i) :
    SysRuns (each (fun i => do
      let own ← cache k
      let (base, pages) := own.large i
      if base = 0 then pure ()
      else
        putCache k { own with large := Function.update own.large i (0, 0) }
        unmapExtent ⟨base, pages * pageSize, .large⟩) (List.range' i m)) l hand
      fun _ l' m => m = hand ∧ l' = Function.update l k (clearedTo c c.largeLen) := by
  induction m generalizing l i with
  | zero =>
      rw [Nat.add_zero] at hlen
      rw [← hlen, ← hk, Function.update_eq_self]
      exact SysRuns.pure ⟨rfl, rfl⟩
  | succ m ih =>
      have hi : i < c.largeLen := by omega
      obtain ⟨hbase, -⟩ := hb.occupied i hi
      have hself : (clearedTo c i).large i = c.large i := if_neg (lt_irrefl i)
      have hone : SysRuns (do
          let own ← cache k
          let (base, pages) := own.large i
          if base = 0 then pure ()
          else
            putCache k { own with large := Function.update own.large i (0, 0) }
            unmapExtent ⟨base, pages * pageSize, .large⟩) l hand
          fun _ l' m => m = hand ∧ l' = Function.update l k (clearedTo c (i + 1)) := by
        refine runs_cache ?_
        rw [hk, hself]
        generalize he : c.large i = e at hbase
        obtain ⟨base, pages⟩ := e
        dsimp only at hbase ⊢
        rw [if_neg hbase]
        have hput : ({ clearedTo c i with large := Function.update (clearedTo c i).large i (0, 0) }
            : ThreadCache) = clearedTo c (i + 1) := by
          rw [clearedTo_succ]
          rfl
        rw [hput]
        refine SysRuns.bind (runs_put ({regionToken (base, pages)} + hand) ?_) ?_
        · rw [hk, clearedTo_stake c hi (by rw [he]; exact hbase), he]
          ac_rfl
        · rintro _ l' m' ⟨rfl, rfl⟩
          refine SysRuns.mono runs_unmapExtent ?_
          rintro _ l' m' ⟨rfl, rfl⟩
          exact ⟨rfl, rfl⟩
      rw [List.range'_succ]
      refine SysRuns.bind hone ?_
      rintro _ l' m' ⟨rfl, rfl⟩
      refine SysRuns.mono (ih (i := i + 1) (by omega) (Function.update_self ..)) ?_
      rintro _ l'' m' ⟨rfl, rfl⟩
      exact ⟨rfl, Function.update_idem ..⟩

/-- What a full flush leaves of a cache: nothing, and right counters. -/
structure Cleaned (k : Slot) (l l' : Caches) : Prop where
  ok : (l' k).Ok
  stake : (l' k).stake = 0
  other : ∀ j, j ≠ k → l' j = l j

theorem runs_flushStash (hb : (l k).Ok) (hempty : (l k).Emptied) :
    SysRuns (flushStash k) l hand fun _ l' m => m = hand ∧ Cleaned k l l' := by
  refine runs_cache ?_
  rw [List.range_eq_range']
  refine SysRuns.bind (runs_clearStash hb _ (Nat.zero_add _) (clearedTo_zero _).symm) ?_
  rintro _ l' m ⟨rfl, rfl⟩
  refine runs_cache ?_
  rw [Function.update_self]
  have hlists : ({ clearedTo (l k) (l k).largeLen with largeLen := 0, largeBytes := 0 } : ThreadCache).weight
      ThreadCache.tokens = 0 := hempty.tokens
  have hcleared : (clearedTo (l k) (l k).largeLen).stake = 0 := by
    unfold ThreadCache.stake
    rw [clearedTo_stash_nil, add_zero]
    exact hempty.tokens
  have hstake : ({ clearedTo (l k) (l k).largeLen with largeLen := 0, largeBytes := 0 }
      : ThreadCache).stake = 0 := by
    unfold ThreadCache.stake
    rw [hlists, zero_add]
    rfl
  refine SysRuns.mono (runs_put_same (by rw [Function.update_self, hstake, hcleared])) ?_
  rintro _ l' m ⟨rfl, rfl⟩
  refine ⟨rfl, ?_, ?_, fun j hj => ?_⟩
  · rw [Function.update_self]
    exact {
      bins := hb.bins
      spanBins := hb.spanBins
      active := hb.active
      recorded := hb.recorded
      cachedBytes := hb.cachedBytes
      tierCachedBytes := hb.tierCachedBytes
      faults := hb.faults
      occupied := fun i hi => absurd hi (Nat.not_lt_zero i)
      free := fun i _ => by
        by_cases hi : i < (l k).largeLen
        · exact if_pos hi
        · exact (if_neg hi).trans (hb.free i (Nat.not_lt.1 hi))
      largeLen := Nat.zero_le _
      largeBytes := rfl }
  · rw [Function.update_self]
    exact hstake
  · rw [Function.update_of_ne hj, Function.update_of_ne hj]

theorem runs_unlessEmpty {p : Bool} {m : Sys Unit} {P : ThreadCache → Prop} (hb : (l k).Books n)
    (hp : p = true → P (l k))
    (hm : SysRuns m l hand fun _ l' m' => m' = hand ∧ Shrinks k n l l' ∧ P (l' k)) :
    SysRuns (if p then pure () else m) l hand fun _ l' m' => m' = hand ∧ Shrinks k n l l' ∧ P (l' k) := by
  cases p with
  | true => exact SysRuns.pure ⟨rfl, .refl hb, hp rfl⟩
  | false => exact hm

/-- A step that may be left out, and what follows. -/
theorem runs_unless {β : Type} {p : Prop} [Decidable p] {m : Sys Unit} {f : Unit → Sys β}
    {q : Unit → Caches → Multiset Token → Prop} {post : β → Caches → Multiset Token → Prop}
    (hskip : p → q () l hand) (hm : ¬p → SysRuns m l hand q)
    (hf : ∀ l' m', q () l' m' → SysRuns (f ()) l' m' post) :
    SysRuns (if p then f () else m >>= f) l hand post := by
  split
  · rename_i hp
    exact hf l hand (hskip hp)
  · rename_i hp
    exact SysRuns.bind (hm hp) fun _ l' m' => hf l' m'

theorem runs_when {β : Type} {p : Prop} [Decidable p] {m : Sys Unit} {f : Unit → Sys β}
    {q : Unit → Caches → Multiset Token → Prop} {post : β → Caches → Multiset Token → Prop}
    (hm : p → SysRuns m l hand q) (hskip : ¬p → q () l hand)
    (hf : ∀ l' m', q () l' m' → SysRuns (f ()) l' m' post) :
    SysRuns (if p then m >>= f else f ()) l hand post := by
  split
  · rename_i hp
    exact SysRuns.bind (hm hp) fun _ l' m' => hf l' m'
  · rename_i hp
    exact hf l hand (hskip hp)

theorem runs_flushAll (hb : (l k).Books n) :
    SysRuns (flushAll k) l hand fun _ l' m => m = hand ∧ Cleaned k l l' := by
  unfold flushAll
  have hbins : ∀ {l : Caches} {hand : Multiset Token}, (l k).Books n → SysRuns (each (fun cls => do
      let own ← cache k
      if (own.bins cls).blocks.isEmpty then pure () else flushBinExit k cls)
      (List.finRange numClasses)) l hand fun _ l' m => m = hand ∧ Shrinks k n l l' ∧
        ∀ cls ∈ List.finRange numClasses, ((l' k).bins cls).blocks = [] := by
    intro l hand hb
    refine runs_eachFlush (P := fun c cls => (c.bins cls).blocks = []) (fun cls l hb => ?_)
      (fun c d cls hd hc => hd.bins cls hc) hb
    exact runs_cache (runs_unlessEmpty (P := fun c => (c.bins cls).blocks = []) hb List.isEmpty_iff.1
      (runs_flushBinExit hb))
  have hactive : ∀ {l : Caches} {hand : Multiset Token}, (l k).Books n → SysRuns (each (fun cls => do
      let own ← cache k
      if (own.active .medium cls).list.blocks.isEmpty then pure () else flushActive k .medium cls)
      (List.finRange SpanTier.medium.num)) l hand fun _ l' m => m = hand ∧ Shrinks k n l l' ∧
        ∀ cls ∈ List.finRange SpanTier.medium.num, ((l' k).active .medium cls).list.blocks = [] := by
    intro l hand hb
    refine runs_eachFlush (P := fun c cls => (c.active .medium cls).list.blocks = [])
      (fun cls l hb => ?_) (fun c d cls hd hc => hd.active _ cls hc) hb
    exact runs_cache (runs_unlessEmpty (P := fun c => (c.active .medium cls).list.blocks = []) hb
      List.isEmpty_iff.1 (runs_flushActive hb))
  have hmedium : ∀ {l : Caches} {hand : Multiset Token}, (l k).Books n → SysRuns (each (fun cls => do
      let own ← cache k
      if (own.spanBins .medium cls).blocks.isEmpty then pure () else flushSpanBin k .medium cls 0)
      (List.finRange SpanTier.medium.num)) l hand fun _ l' m => m = hand ∧ Shrinks k n l l' ∧
        ∀ cls ∈ List.finRange SpanTier.medium.num, ((l' k).spanBins .medium cls).blocks = [] := by
    intro l hand hb
    refine runs_eachFlush (P := fun c cls => (c.spanBins .medium cls).blocks = [])
      (fun cls l hb => ?_) (fun c d cls hd hc => hd.spanBins _ cls hc) hb
    exact runs_cache (runs_unlessEmpty (P := fun c => (c.spanBins .medium cls).blocks = []) hb
      List.isEmpty_iff.1 (runs_emptySpanBin hb))
  have hbig : ∀ {l : Caches} {hand : Multiset Token}, (l k).Books n → SysRuns (each (fun cls => do
      let own ← cache k
      if (own.active .big cls).list.blocks.isEmpty then pure () else flushActive k .big cls
      let own ← cache k
      if (own.spanBins .big cls).blocks.isEmpty then pure () else flushSpanBin k .big cls 0)
      (List.finRange SpanTier.big.num)) l hand fun _ l' m => m = hand ∧ Shrinks k n l l' ∧
        ∀ cls ∈ List.finRange SpanTier.big.num,
          ((l' k).active .big cls).list.blocks = [] ∧ ((l' k).spanBins .big cls).blocks = [] := by
    intro l hand hb
    refine runs_eachFlush
      (P := fun c cls => (c.active .big cls).list.blocks = [] ∧ (c.spanBins .big cls).blocks = [])
      (fun cls l hb => ?_) (fun c d cls hd hc => ⟨hd.active _ cls hc.1, hd.spanBins _ cls hc.2⟩) hb
    refine runs_cache (runs_unless (q := fun _ l' m => m = hand ∧ Shrinks k n l l' ∧
      ((l' k).active .big cls).list.blocks = []) (fun hempty => ?_) (fun _ => runs_flushActive hb) ?_)
    · exact ⟨rfl, .refl hb, List.isEmpty_iff.1 hempty⟩
    · rintro l' m ⟨rfl, hshrinks, hnil⟩
      refine runs_cache (SysRuns.mono (runs_unlessEmpty (P := fun c => (c.spanBins .big cls).blocks = [])
        hshrinks.books List.isEmpty_iff.1 (runs_emptySpanBin hshrinks.books)) ?_)
      rintro _ l'' m ⟨rfl, hshrinks', hnil'⟩
      exact ⟨rfl, hshrinks.trans hshrinks', hshrinks'.drains.active _ cls hnil, hnil'⟩
  refine SysRuns.bind (hbins hb) ?_
  rintro _ l₁ m ⟨rfl, h₁, hnoBins⟩
  refine SysRuns.bind (hactive h₁.books) ?_
  rintro _ l₂ m ⟨rfl, h₂, hnoActive⟩
  refine SysRuns.bind (hmedium h₂.books) ?_
  rintro _ l₃ m ⟨rfl, h₃, hnoMedium⟩
  refine SysRuns.bind (hbig h₃.books) ?_
  rintro _ l₄ m ⟨rfl, h₄, hnoBig⟩
  have hempty : (l₄ k).Emptied := by
    refine ⟨fun cls => ?_, fun t cls => ?_, fun t cls => ?_⟩
    · exact (h₂.drains.trans (h₃.drains.trans h₄.drains)).bins cls (hnoBins cls (List.mem_finRange cls))
    · cases t with
      | medium => exact h₄.drains.spanBins _ cls (hnoMedium cls (List.mem_finRange cls))
      | big => exact (hnoBig cls (List.mem_finRange cls)).2
    · cases t with
      | medium =>
          exact (h₃.drains.trans h₄.drains).active _ cls (hnoActive cls (List.mem_finRange cls))
      | big => exact (hnoBig cls (List.mem_finRange cls)).1
  obtain ⟨hok, hstake, hempty'⟩ := h₄.books.resetLists hempty
  refine runs_cache (SysRuns.bind (runs_put_same hstake) ?_)
  rintro _ l₅ m ⟨rfl, rfl⟩
  refine SysRuns.mono (runs_flushStash ?_ ?_) ?_
  · rw [Function.update_self]
    exact hok
  · rw [Function.update_self]
    exact hempty'
  · rintro _ l' m ⟨rfl, hcleaned⟩
    refine ⟨rfl, hcleaned.ok, hcleaned.stake, fun j hj => ?_⟩
    rw [hcleaned.other j hj, Function.update_of_ne hj, h₄.other j hj, h₃.other j hj, h₂.other j hj,
      h₁.other j hj]

end Sys

end Allox
