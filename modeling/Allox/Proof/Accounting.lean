import Allox.FlushAll
import Allox.Proof.Trim

/-!
# The accounts of a thread cache

Whatever a thread has done with its cache, the counters say what the lists have. A cache whose bins were
stolen still counts their bytes; its full flush takes away no more than it counts, and the reset at the
end forgets the rest.
-/

namespace Allox

open ArrayPrefix

/-! ### Flushes of a cache with a surplus -/

namespace Trimming

open ThreadCache

variable {s s' : Trimming} {e : TrimEnv} {floor k : Nat} {t : SpanTier}

theorem flushBinStep_books {cls : Fin numClasses} (h : s.cache.Books k)
    (hstep : flushBinStep cls floor s = some s') :
    s'.cache.Books k ∧ Drains s.cache s'.cache ∧
      (s'.cache.bins cls).len - floor < (s.cache.bins cls).len - floor := by
  unfold flushBinStep at hstep
  split at hstep
  · cases hstep
  · rename_i hgt
    obtain ⟨hbooks, hdrains, -⟩ :=
      @Books.flushPops _ _ cls floor h flushChunk [] fun g hg => absurd hg List.not_mem_nil
    obtain ⟨hlen, -⟩ := @Books.flushPops_len _ _ cls floor h flushChunk []
    have hchunk : 0 < flushChunk := by decide
    generalize s.cache.flushPops cls floor flushChunk [] = r at *
    obtain ⟨left, groups⟩ := r
    dsimp only at *
    split at hstep
    · cases hstep
    · cases hstep
      refine ⟨hbooks, hdrains, ?_⟩
      change (left.bins cls).len - floor < _
      omega

/-- A flush in rounds, each of which takes something from its list, ends with nothing left to do. -/
theorem run_books {step : Trimming → Option Trimming} (left : ThreadCache → Nat)
    (hstep : ∀ x x', x.cache.Books k → step x = some x' →
      x'.cache.Books k ∧ Drains x.cache x'.cache ∧ left x'.cache < left x.cache)
    (h : s.cache.Books k) {n : Nat} (hn : left s.cache ≤ n) :
    (Loop.run step n s).cache.Books k ∧ Drains s.cache (Loop.run step n s).cache ∧
      step (Loop.run step n s) = none := by
  have hinv : ∀ x x', x.cache.Books k ∧ Drains s.cache x.cache → step x = some x' →
      x'.cache.Books k ∧ Drains s.cache x'.cache := by
    intro x x' hx hround
    obtain ⟨hbooks, hdrains, -⟩ := hstep x x' hx.1 hround
    exact ⟨hbooks, hx.2.trans hdrains⟩
  have hless : ∀ x x', x.cache.Books k ∧ Drains s.cache x.cache → step x = some x' →
      left x'.cache < left x.cache := by
    intro x x' hx hround
    exact (hstep x x' hx.1 hround).2.2
  have hstart : s.cache.Books k ∧ Drains s.cache s.cache := ⟨h, .refl _⟩
  obtain ⟨hbooks, hdrains⟩ := Loop.run_invariant hinv hstart (n := n)
  exact ⟨hbooks, hdrains, Loop.run_ends hinv hless hstart hn⟩

/-- `flush_bin` comes down to its floor, whatever the cache counts on top. -/
theorem flushBin_books (h : s.cache.Books k) (cls : Fin numClasses) (floor : Nat) :
    (s.flushBin cls floor).cache.Books k ∧ Drains s.cache (s.flushBin cls floor).cache ∧
      ((s.flushBin cls floor).cache.bins cls).len ≤ floor := by
  obtain ⟨hbooks, hdrains, hdone⟩ := run_books (fun c => (c.bins cls).len - floor)
    (fun x x' hx hround => flushBinStep_books hx hround) h (n := (s.cache.bins cls).len) (Nat.sub_le _ _)
  exact ⟨hbooks, hdrains, flushBinStep_none hbooks hdone⟩

theorem flushSpanPops_drains {c : ThreadCache} (h : c.Books k) (cls : Fin t.num) (n : Nat)
    (groups : List ReleaseChunk) : Drains c (flushSpanPops e t cls floor n c groups).1 := by
  induction n generalizing c groups with
  | zero => exact .refl c
  | succ n ih =>
      unfold flushSpanPops
      split
      · exact .refl c
      · split
        · exact .refl c
        · rename_i b zeroed left hpop
          obtain ⟨hleft, -, hdrains, -⟩ := h.popSpanBin hpop
          exact hdrains.trans (ih hleft _)

theorem flushSpanBinStep_books {cls : Fin t.num} (h : s.cache.Books k)
    (hstep : flushSpanBinStep e t cls floor s = some s') :
    s'.cache.Books k ∧ Drains s.cache s'.cache ∧
      (s'.cache.spanBins t cls).len - floor < (s.cache.spanBins t cls).len - floor := by
  unfold flushSpanBinStep at hstep
  split at hstep
  · cases hstep
  · rename_i hgt
    obtain ⟨hbooks, -, -, -, hlen, -⟩ := h.flushSpanPops e cls floor t.flushChunk
      (show ∀ g ∈ [], SpanHeap.Chunk g from fun g hg => absurd hg List.not_mem_nil)
    have hdrains : Drains s.cache (flushSpanPops e t cls floor t.flushChunk s.cache []).1 :=
      flushSpanPops_drains h cls _ _
    have hchunk : 0 < t.flushChunk := by
      cases t <;> decide
    generalize flushSpanPops e t cls floor t.flushChunk s.cache [] = r at *
    obtain ⟨left, groups⟩ := r
    dsimp only at *
    split at hstep
    · cases hstep
    · cases hstep
      refine ⟨hbooks, hdrains, ?_⟩
      change (left.spanBins t cls).len - floor < _
      omega

theorem flushSpanBin_books (h : s.cache.Books k) (e : TrimEnv) (cls : Fin t.num) (floor : Nat) :
    (s.flushSpanBin e t cls floor).cache.Books k ∧
      Drains s.cache (s.flushSpanBin e t cls floor).cache ∧
      ((s.flushSpanBin e t cls floor).cache.spanBins t cls).len ≤ floor := by
  obtain ⟨hbooks, hdrains, hdone⟩ := run_books (fun c => (c.spanBins t cls).len - floor)
    (fun x x' hx hround => flushSpanBinStep_books hx hround) h (n := (s.cache.spanBins t cls).len)
    (Nat.sub_le _ _)
  exact ⟨hbooks, hdrains, flushSpanBinStep_none hbooks hdone⟩

end Trimming

namespace ThreadCache

variable {c d adopted : ThreadCache} {e : TrimEnv} {k : Nat} {t : SpanTier}

/-! ### The full flush -/

theorem Books.flushBinAll (h : c.Books k) (cls : Fin numClasses) :
    (c.flushBinAll cls).Books k ∧ Drains c (c.flushBinAll cls) ∧
      ((c.flushBinAll cls).bins cls).blocks = [] := by
  unfold ThreadCache.flushBinAll ThreadCache.flushBinExit
  have hlen := (h.bins cls).len
  split
  case isTrue hnil => exact ⟨h, .refl c, hnil⟩
  case isFalse hblocks =>
    split
    case isTrue hzero =>
      rw [hzero] at hlen
      exact absurd (List.length_eq_zero_iff.1 hlen.symm) hblocks
    case isFalse =>
      split
      case isTrue =>
        obtain ⟨hbooks, hdrains, hle⟩ := Trimming.flushBin_books (s := ⟨c, []⟩) h cls 0
        refine ⟨hbooks, hdrains, ?_⟩
        rw [(hbooks.bins cls).len] at hle
        exact List.length_eq_zero_iff.1 (Nat.le_zero.1 hle)
      case isFalse =>
        obtain ⟨hbooks, hdrains, hnil, -⟩ := h.dropBin cls
        exact ⟨hbooks, hdrains, hnil⟩

theorem Books.flushActiveAll (h : c.Books k) (cls : Fin t.num) :
    (c.flushActiveAll t cls).Books k ∧ Drains c (c.flushActiveAll t cls) ∧
      ((c.flushActiveAll t cls).active t cls).list.blocks = [] := by
  unfold ThreadCache.flushActiveAll
  split
  case isTrue hnil => exact ⟨h, .refl c, hnil⟩
  case isFalse hblocks =>
    have hlen := (h.active t cls).len
    have hpos := List.length_pos_of_ne_nil hblocks
    have hbranch : ((t = .big && (c.active t cls).span = 0) || (c.active t cls).list.blocks.isEmpty
        || (c.active t cls).list.len = 0) = false := by
      have hne : ¬(c.active t cls).list.len = 0 := by omega
      simp [h.recorded t cls hblocks, hblocks, hne]
    unfold Trimming.flushActive
    dsimp only
    rw [if_neg (by rw [hbranch]; exact Bool.false_ne_true)]
    obtain ⟨hbooks, hdrains, hnil, -⟩ := h.dropActive t cls
    exact ⟨hbooks, hdrains, hnil⟩

theorem Books.flushSpanBinAll (h : c.Books k) (cls : Fin t.num) :
    (ThreadCache.flushSpanBinAll e t c cls).Books k ∧
      Drains c (ThreadCache.flushSpanBinAll e t c cls) ∧
      ((ThreadCache.flushSpanBinAll e t c cls).spanBins t cls).blocks = [] := by
  unfold ThreadCache.flushSpanBinAll
  split
  case isTrue hnil => exact ⟨h, .refl c, hnil⟩
  case isFalse =>
    obtain ⟨hbooks, hdrains, hle⟩ := Trimming.flushSpanBin_books (s := ⟨c, []⟩) h e cls 0
    refine ⟨hbooks, hdrains, ?_⟩
    rw [(hbooks.spanBins t cls).len] at hle
    exact List.length_eq_zero_iff.1 (Nat.le_zero.1 hle)

/-- A list that was emptied stays empty while the other classes are flushed. -/
theorem Books.foldl_flush {n : Nat} {f : ThreadCache → Fin n → ThreadCache}
    {P : ThreadCache → Fin n → Prop}
    (hf : ∀ c cls, c.Books k → (f c cls).Books k ∧ Drains c (f c cls) ∧ P (f c cls) cls)
    (hkeeps : ∀ c d cls, Drains c d → P c cls → P d cls) (h : c.Books k) (l : List (Fin n)) :
    (l.foldl f c).Books k ∧ Drains c (l.foldl f c) ∧ ∀ cls ∈ l, P (l.foldl f c) cls := by
  induction l generalizing c with
  | nil => exact ⟨h, .refl c, fun cls hcls => absurd hcls List.not_mem_nil⟩
  | cons a l ih =>
      obtain ⟨hbooks, hdrains, ha⟩ := hf c a h
      obtain ⟨hbooks', hdrains', hl⟩ := ih hbooks
      refine ⟨hbooks', hdrains.trans hdrains', fun cls hcls => ?_⟩
      rcases List.mem_cons.1 hcls with rfl | hcls
      · exact hkeeps _ _ _ hdrains' ha
      · exact hl cls hcls

theorem Books.flushLists (h : c.Books k) : (c.flushLists e).Books k ∧ (c.flushLists e).Emptied := by
  obtain ⟨hbins, -, hnoBins⟩ := h.foldl_flush
    (f := ThreadCache.flushBinAll) (P := fun c cls => (c.bins cls).blocks = [])
    (fun c cls hc => hc.flushBinAll cls) (fun c d cls hd hc => hd.bins cls hc)
    (List.finRange numClasses)
  obtain ⟨hactive, hdrainsActive, hnoActive⟩ := hbins.foldl_flush
    (f := ThreadCache.flushActiveAll .medium)
    (P := fun c cls => (c.active .medium cls).list.blocks = [])
    (fun c cls hc => hc.flushActiveAll cls) (fun c d cls hd hc => hd.active _ cls hc)
    (List.finRange _)
  obtain ⟨hmedium, hdrainsMedium, hnoMedium⟩ := hactive.foldl_flush
    (f := ThreadCache.flushSpanBinAll e .medium)
    (P := fun c cls => (c.spanBins .medium cls).blocks = [])
    (fun c cls hc => hc.flushSpanBinAll cls) (fun c d cls hd hc => hd.spanBins _ cls hc)
    (List.finRange _)
  obtain ⟨hbig, hdrainsBig, hnoBig⟩ := hmedium.foldl_flush
    (f := fun c cls => ThreadCache.flushSpanBinAll e .big (ThreadCache.flushActiveAll .big c cls) cls)
    (P := fun c cls => (c.active .big cls).list.blocks = [] ∧ (c.spanBins .big cls).blocks = [])
    (fun c cls hc => by
      obtain ⟨hone, hdone, hnil⟩ := hc.flushActiveAll (t := .big) cls
      obtain ⟨htwo, hdtwo, hnil'⟩ := hone.flushSpanBinAll (e := e) cls
      exact ⟨htwo, hdone.trans hdtwo, hdtwo.active _ cls hnil, hnil'⟩)
    (fun c d cls hd hc => ⟨hd.active _ cls hc.1, hd.spanBins _ cls hc.2⟩)
    (List.finRange _)
  have hrest := hdrainsMedium.trans hdrainsBig
  unfold ThreadCache.flushLists
  dsimp only at hnoBins hnoActive hnoMedium hnoBig ⊢
  refine ⟨hbig, ?_, ?_, ?_⟩
  · intro cls
    exact (hdrainsActive.trans hrest).bins cls (hnoBins cls (List.mem_finRange cls))
  · intro t cls
    cases t with
    | medium => exact hdrainsBig.spanBins _ cls (hnoMedium cls (List.mem_finRange cls))
    | big => exact (hnoBig cls (List.mem_finRange cls)).2
  · intro t cls
    cases t with
    | medium => exact hrest.active _ cls (hnoActive cls (List.mem_finRange cls))
    | big => exact (hnoBig cls (List.mem_finRange cls)).1

/-- All slots of the stash are free afterwards. -/
theorem Books.dropStash_large (h : c.Books k) : c.dropStash.large = fun _ => (0, 0) := by
  funext i
  change (if i < c.largeLen ∧ (c.large i).1 ≠ 0 then (0, 0) else c.large i) = (0, 0)
  by_cases hi : i < c.largeLen
  · rw [if_pos ⟨hi, (h.occupied i hi).1⟩]
  · rw [if_neg fun hand => hi hand.1, h.free i (Nat.not_lt.1 hi)]

theorem Books.dropStash (h : c.Books k) : c.dropStash.Books k where
  bins := h.bins
  spanBins := h.spanBins
  active := h.active
  recorded := h.recorded
  cachedBytes := h.cachedBytes
  tierCachedBytes := h.tierCachedBytes
  faults := h.faults
  occupied := fun _ hi => absurd hi (Nat.not_lt_zero _)
  free := fun i _ => congrFun h.dropStash_large i
  largeLen := Nat.zero_le _
  largeBytes := rfl

/-- A full flush leaves nothing, and no counter goes below zero on the way. -/
theorem Books.flushAll (h : c.Books k) : (c.flushAll e).Ok ∧ (c.flushAll e).Emptied := by
  obtain ⟨hbooks, hempty⟩ := h.flushLists (e := e)
  obtain ⟨hok, -, hempty'⟩ := hbooks.resetLists hempty
  unfold ThreadCache.flushAll
  exact ⟨Books.dropStash hok, hempty'.bins, hempty'.spanBins, hempty'.active⟩

theorem Reach.foldl {n : Nat} {f : ThreadCache → Fin n → ThreadCache}
    (hf : ∀ c cls, Reach c → Reach (f c cls)) (h : c.Reach) (l : List (Fin n)) :
    (l.foldl f c).Reach := by
  induction l generalizing c with
  | nil => exact h
  | cons a l ih => exact ih (hf c a h)

theorem Reach.flushBinAll (h : c.Reach) (cls : Fin numClasses) : (c.flushBinAll cls).Reach := by
  unfold ThreadCache.flushBinAll ThreadCache.flushBinExit
  split
  · exact h
  · split
    · exact h
    · split
      · exact h.flushBin cls 0
      · exact h.dropBin cls

theorem Reach.flushActiveAll (h : c.Reach) (cls : Fin t.num) : (c.flushActiveAll t cls).Reach := by
  unfold ThreadCache.flushActiveAll
  split
  · exact h
  · exact h.flushActive ‹_›

theorem Reach.flushSpanBinAll (h : c.Reach) (cls : Fin t.num) :
    (ThreadCache.flushSpanBinAll e t c cls).Reach := by
  unfold ThreadCache.flushSpanBinAll
  split
  · exact h
  · exact h.flushSpanBin e t cls 0

/-! ### The accounts -/

/-- The bytes of the blocks on the lists of a tier. -/
def listedBytes (c : ThreadCache) (t : SpanTier) : Nat :=
  ∑ cls, ((c.spanBins t cls).blocks.length + (c.active t cls).list.blocks.length) * t.blockSize cls

/-- The counters are those of the lists and of the stash, with `k` cached bytes too many, and no
subtraction so far was from too little. -/
structure Accounts (c : ThreadCache) (k : Nat) : Prop where
  bins : ∀ cls, (c.bins cls).len = (c.bins cls).blocks.length ∧ (c.bins cls).virgin ≤ (c.bins cls).len
  spanBins : ∀ t cls, (c.spanBins t cls).len = (c.spanBins t cls).blocks.length ∧
    (c.spanBins t cls).virgin ≤ (c.spanBins t cls).len
  active : ∀ t cls, (c.active t cls).list.len = (c.active t cls).list.blocks.length ∧
    (c.active t cls).list.virgin ≤ (c.active t cls).list.len
  tierCachedBytes : c.tierCachedBytes = c.listedBytes .medium + c.listedBytes .big
  cachedBytes : c.cachedBytes = ∑ cls, (c.bins cls).blocks.length * classSize cls
    + (c.listedBytes .medium + c.listedBytes .big) + k
  largeBytes : c.largeBytes = ∑ i ∈ Finset.range c.largeLen, (c.large i).2 * pageSize
  free : ∀ i, c.largeLen ≤ i → c.large i = (0, 0)
  largeLen : c.largeLen ≤ largeStashSlots
  faults : c.faults = 0

theorem Lists.tierWeight_eq (h : c.Lists k) (t : SpanTier) :
    c.tierWeight bytes t = c.listedBytes t := by
  unfold tierWeight listedBytes
  rw [← Finset.sum_add_distrib]
  apply Finset.sum_congr rfl
  intro cls _
  rw [← (h.spanBins t cls).len, ← (h.active t cls).len, Nat.add_mul]
  rfl

theorem Lists.weight_eq (h : c.Lists k) : c.weight bytes
    = ∑ cls, (c.bins cls).blocks.length * classSize cls
      + (c.listedBytes .medium + c.listedBytes .big) := by
  have hbins : ∑ cls, bytes.bin cls (c.bins cls)
      = ∑ cls, (c.bins cls).blocks.length * classSize cls := by
    apply Finset.sum_congr rfl
    intro cls _
    rw [← (h.bins cls).len]
    rfl
  rw [weight, hbins, tiersWeight, h.tierWeight_eq, h.tierWeight_eq]

theorem Books.accounts (h : c.Books k) : c.Accounts k where
  bins := fun cls => ⟨(h.bins cls).len, (h.bins cls).virgin⟩
  spanBins := fun t cls => ⟨(h.spanBins t cls).len, (h.spanBins t cls).virgin⟩
  active := fun t cls => ⟨(h.active t cls).len, (h.active t cls).virgin⟩
  tierCachedBytes := by
    rw [h.tierCachedBytes, tiersWeight, h.tierWeight_eq, h.tierWeight_eq]
  cachedBytes := by
    rw [h.cachedBytes, h.weight_eq]
  largeBytes := by
    rw [h.largeBytes, upto, Multiset.map_map]
    rfl
  free := h.free
  largeLen := h.largeLen
  faults := h.faults

/-- A full flush is made of steps that a cache can take one by one. It empties the cache, and then every
counter is back at zero. -/
theorem Reach.flushAll (h : c.Reach) (e : TrimEnv) : (c.flushAll e).Reach ∧ (c.flushAll e).Emptied ∧
    (c.flushAll e).Accounts 0 ∧ (c.flushAll e).cachedBytes = 0 ∧ (c.flushAll e).largeBytes = 0 := by
  have hlists : (c.flushLists e).Reach := by
    refine Reach.foldl (fun c cls hc => (hc.flushActiveAll cls).flushSpanBinAll cls) ?_ _
    refine Reach.foldl (fun c cls hc => hc.flushSpanBinAll cls) ?_ _
    refine Reach.foldl (fun c cls hc => hc.flushActiveAll cls) ?_ _
    exact h.foldl (fun c cls hc => hc.flushBinAll cls) _
  obtain ⟨hbooks, hempty⟩ := Books.flushLists (e := e) h.ok
  obtain ⟨hok, -, -⟩ := hbooks.resetLists hempty
  have hreset := hlists.reset hempty.bins hempty.spanBins hempty.active
  have heq : c.flushAll e = { (c.flushLists e).resetLists with
      large := fun _ => (0, 0), largeLen := 0, largeBytes := 0 } := by
    rw [← Books.dropStash_large hok, ThreadCache.flushAll, ThreadCache.dropStash]
  obtain ⟨hflushed, hnothing⟩ := Books.flushAll (e := e) h.ok
  refine ⟨heq ▸ hreset, hnothing, hflushed.accounts, ?_, rfl⟩
  rw [hflushed.cachedBytes, (hnothing.bytes hflushed.toLists).1]

end ThreadCache

end Allox
