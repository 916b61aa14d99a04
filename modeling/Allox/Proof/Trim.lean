import Allox.Trim
import Allox.Proof.CacheFlush

/-!
# What a trim does

A flush takes at least one block out of the cache and hands the heaps just what it takes. As long as
something can be flushed `trim` therefore gets closer to its target, and it ends at the target or with
nothing left. The small bins go first; the span tiers are not touched before no small bin has more than
a batch.
-/

namespace Allox

/-- A block, whatever span it is of and whatever it reads as. -/
def Token.bare : Token → Token
  | block b _ => .block b false
  | span t b _ => .span t ⟨b.cls, b.addr, none⟩ false
  | extent m _ => .extent m false
  | region p => .region p

namespace Release

/-- The blocks of a call. -/
def blocks : Release → Multiset Token
  | pages cls chunks => blockTokens (SmallHeap.chunkBlocks cls chunks)
  | spans t cls chunks => (spanTokens t (ThreadCache.groupBlocks cls chunks)).map Token.bare

/-- The chunks are chains as the heaps expect them, with their last block and their length. -/
def Ok : Release → Prop
  | pages cls chunks => ∀ g ∈ chunks, SmallHeap.Chunk cls g
  | spans _ _ chunks => ∀ g ∈ chunks, SpanHeap.Chunk g

end Release

def releasedBlocks (calls : List Release) : Multiset Token := (calls.map Release.blocks).sum

theorem releasedBlocks_append (l l' : List Release) :
    releasedBlocks (l ++ l') = releasedBlocks l + releasedBlocks l' := by
  unfold releasedBlocks
  rw [List.map_append, List.sum_append]

theorem Token.bare_dirty (x : Token) : x.dirty.bare = x.bare := by
  cases x <;> rfl

theorem map_bare_dirty (m : Multiset Token) : (m.map Token.dirty).map Token.bare = m.map Token.bare := by
  rw [Multiset.map_map]
  exact Multiset.map_congr rfl fun x _ => x.bare_dirty

theorem blockTokens_bare (m : Multiset Block) : (blockTokens m).map Token.bare = blockTokens m := by
  unfold blockTokens
  rw [Multiset.map_map]
  rfl

/-! ### The best list -/

section bestOf

variable {n : Nat} {may : Fin n → Bool} {bytes : Fin n → Nat}

/-- No list with bytes may be chosen. -/
theorem bestOf_none (h : ThreadCache.bestOf may bytes = none) (i : Fin n) (hi : may i = true) :
    bytes i = 0 := by
  have hfold : ∀ (l : List (Fin n)) (best : Option (Fin n × Nat)),
      l.foldl (fun best i =>
        if may i && (best.map Prod.snd).getD 0 < bytes i then some (i, bytes i) else best) best = none →
      best = none ∧ ∀ i ∈ l, may i = true → bytes i = 0 := by
    intro l
    induction l with
    | nil => exact fun best hbest => ⟨hbest, nofun⟩
    | cons a l ih =>
        intro best hbest
        rw [List.foldl_cons] at hbest
        obtain ⟨hnone, hrest⟩ := ih _ hbest
        split at hnone
        · cases hnone
        · rename_i hnot
          subst hnone
          refine ⟨rfl, fun i hi hmay => ?_⟩
          rcases List.mem_cons.1 hi with rfl | hi
          · simp only [hmay, Bool.true_and, Option.map_none, Option.getD_none, decide_eq_true_eq,
              Nat.not_lt, Nat.le_zero] at hnot
            exact hnot
          · exact hrest i hi hmay
  exact (hfold _ none h).2 i (List.mem_finRange i) hi

theorem bestOf_some {i : Fin n} {b : Nat} (h : ThreadCache.bestOf may bytes = some (i, b)) :
    may i = true ∧ b = bytes i ∧ 0 < bytes i := by
  have hfold : ∀ (l : List (Fin n)) (best : Option (Fin n × Nat)),
      (∀ x, best = some x → may x.1 = true ∧ x.2 = bytes x.1 ∧ 0 < bytes x.1) →
      ∀ x, l.foldl (fun best i =>
        if may i && (best.map Prod.snd).getD 0 < bytes i then some (i, bytes i) else best) best = some x →
      may x.1 = true ∧ x.2 = bytes x.1 ∧ 0 < bytes x.1 := by
    intro l
    induction l with
    | nil => exact fun best hbest x hx => hbest x hx
    | cons a l ih =>
        intro best hbest
        rw [List.foldl_cons]
        refine ih _ fun x hx => ?_
        split at hx
        · rename_i hmay
          simp only [Bool.and_eq_true, decide_eq_true_eq] at hmay
          cases hx
          exact ⟨hmay.1, rfl, Nat.lt_of_le_of_lt (Nat.zero_le _) hmay.2⟩
        · exact hbest x hx
  exact hfold _ none nofun _ h

end bestOf

namespace ThreadCache

variable {c : ThreadCache} {cls : Fin numClasses} {floor n : Nat}

/-- What a flush of a small bin leaves alone. -/
structure KeepsTiers (c d : ThreadCache) : Prop where
  spanBins : d.spanBins = c.spanBins
  active : d.active = c.active
  tierCachedBytes : d.tierCachedBytes = c.tierCachedBytes
  budget : d.budget = c.budget

theorem KeepsTiers.refl (c : ThreadCache) : KeepsTiers c c := ⟨rfl, rfl, rfl, rfl⟩

theorem KeepsTiers.trans {d f : ThreadCache} (h : KeepsTiers c d) (h' : KeepsTiers d f) :
    KeepsTiers c f :=
  ⟨h'.spanBins.trans h.spanBins, h'.active.trans h.active,
    h'.tierCachedBytes.trans h.tierCachedBytes, h'.budget.trans h.budget⟩

/-- What a flush of the span tiers leaves alone. -/
structure KeepsSmall (c d : ThreadCache) : Prop where
  bins : d.bins = c.bins
  tierCachedBytes : d.tierCachedBytes ≤ c.tierCachedBytes
  budget : d.budget = c.budget

theorem KeepsSmall.refl (c : ThreadCache) : KeepsSmall c c := ⟨rfl, le_rfl, rfl⟩

theorem KeepsSmall.trans {d f : ThreadCache} (h : KeepsSmall c d) (h' : KeepsSmall d f) :
    KeepsSmall c f :=
  ⟨h'.bins.trans h.bins, h'.tierCachedBytes.trans h.tierCachedBytes, h'.budget.trans h.budget⟩

theorem fault_fields (c : ThreadCache) (bad : Bool) : KeepsTiers c (c.fault bad) ∧
    (c.fault bad).bins = c.bins ∧ (c.fault bad).cachedBytes = c.cachedBytes := by
  cases bad <;> exact ⟨⟨rfl, rfl, rfl, rfl⟩, rfl, rfl⟩

theorem Books.popSmall_bytes (h : c.Books k) {p : Nat} {zeroed : Bool} {left : ThreadCache}
    (hpop : c.popSmall cls = some (p, zeroed, left)) :
    KeepsTiers c left ∧ left.cachedBytes < c.cachedBytes := by
  have hlen := (h.popSmall hpop).2.2.2
  have hbytes := h.len_bin cls
  have hpos := classSize_pos cls
  rw [hlen, Nat.add_mul, Nat.one_mul] at hbytes
  unfold ThreadCache.popSmall at hpop
  split at hpop
  · cases hpop
  · rename_i q z b hb
    cases hpop
    obtain ⟨hfault, -, hcached⟩ := fault_fields (c.setBin cls b) (decide ((c.bins cls).len < 1))
    obtain ⟨hfault', -, -⟩ := fault_fields ((c.setBin cls b).fault (decide ((c.bins cls).len < 1)))
      (decide (((c.setBin cls b).fault (decide ((c.bins cls).len < 1))).cachedBytes < classSize cls))
    have hkeeps := hfault.trans hfault'
    refine ⟨⟨hkeeps.spanBins, hkeeps.active, hkeeps.tierCachedBytes, hkeeps.budget⟩, ?_⟩
    show ((c.setBin cls b).fault _).cachedBytes - classSize cls < c.cachedBytes
    rw [hcached]
    show c.cachedBytes - classSize cls < c.cachedBytes
    omega

theorem Books.popSpanBin_bytes {t : SpanTier} {cls : Fin t.num} (h : c.Books k) {p : Nat}
    {zeroed : Bool} {left : ThreadCache} (hpop : c.popSpanBin t cls = some (p, zeroed, left)) :
    KeepsSmall c left ∧ left.cachedBytes < c.cachedBytes := by
  have hlen := (h.popSpanBin hpop).2.2.2
  have hbytes := h.len_spanBin cls
  have htier := h.tier_le
  have hpos := blockSize_pos t cls
  rw [hlen, Nat.add_mul, Nat.one_mul] at hbytes
  unfold ThreadCache.popSpanBin at hpop
  split at hpop
  · cases hpop
  · rename_i q z b hb
    cases hpop
    have hfault : (c.setSpanBin t cls b).fault (decide ((c.spanBins t cls).len < 1))
        = c.setSpanBin t cls b := by
      have hle : ¬(c.spanBins t cls).len < 1 := by omega
      simp only [fault, hle, decide_false, Bool.false_eq_true, if_false]
    rw [hfault, subTierCached_eq (c := c.setSpanBin t cls b) (by show _ ≤ c.cachedBytes; omega)
      (by show _ ≤ c.tierCachedBytes; omega)]
    refine ⟨⟨rfl, Nat.sub_le _ _, rfl⟩, ?_⟩
    show c.cachedBytes - t.blockSize cls < c.cachedBytes
    omega

/-! ### Nothing left -/

theorem bestBin_none (h : c.bestBin = none) (cls : Fin numClasses) : (c.bins cls).len ≤ refillBatch := by
  by_contra hgt
  have hzero := bestOf_none h cls (decide_eq_true (Nat.not_le.1 hgt))
  have hsize : 0 < classSize cls := Nat.lt_of_lt_of_le (by decide) (classSize_pos cls)
  have hpos := Nat.mul_pos (Nat.lt_of_le_of_lt (Nat.zero_le _) (Nat.not_le.1 hgt)) hsize
  omega

theorem bestActive_none {t : SpanTier} (h : c.bestActive t = none) (cls : Fin t.num) :
    (c.active t cls).list.len = 0 := by
  by_contra hne
  have hlen : 0 < (c.active t cls).list.len := Nat.pos_of_ne_zero hne
  have hsize : 0 < t.blockSize cls := Nat.lt_of_lt_of_le (by decide) (blockSize_pos t cls)
  have hzero := bestOf_none h cls (decide_eq_true hlen)
  have hpos := Nat.mul_pos hlen hsize
  omega

theorem bestSpanBin_none {t : SpanTier} (h : c.bestSpanBin t = none) (cls : Fin t.num) :
    (c.spanBins t cls).len = 0 := by
  by_contra hne
  have hlen : 0 < (c.spanBins t cls).len := Nat.pos_of_ne_zero hne
  have hsize : 0 < t.blockSize cls := Nat.lt_of_lt_of_le (by decide) (blockSize_pos t cls)
  have hzero := bestOf_none h cls (decide_eq_true hlen)
  have hpos := Nat.mul_pos hlen hsize
  omega

/-- No small bin has more than a batch. -/
def SmallTrimmed (c : ThreadCache) : Prop := ∀ cls, (c.bins cls).blocks.length ≤ refillBatch

/-- There is nothing a trim would flush. -/
structure Trimmed (c : ThreadCache) : Prop where
  bins : c.SmallTrimmed
  spanBins : ∀ t cls, (c.spanBins t cls).blocks = []
  active : ∀ t cls, (c.active t cls).list.blocks = []

theorem Books.smallTrimmed (h : c.Books k) (hnone : c.bestBin = none) : c.SmallTrimmed := by
  intro cls
  rw [← (h.bins cls).len]
  exact bestBin_none hnone cls

/-! ### Pops -/

/-- The pops of `flush_bin`, as far as the counters go. -/
theorem Books.flushPops_bytes (h : c.Books k) (cls : Fin numClasses) (floor n : Nat) (groups : List PageReleaseChunk) :
    KeepsTiers c (c.flushPops cls floor n groups).1 ∧
      ((c.flushPops cls floor n groups).1.cachedBytes < c.cachedBytes ∨
        c.flushPops cls floor n groups = (c, groups)) := by
  induction n generalizing c groups with
  | zero => exact ⟨.refl c, .inr rfl⟩
  | succ n ih =>
      unfold ThreadCache.flushPops
      split
      · exact ⟨.refl c, .inr rfl⟩
      · split
        · exact ⟨.refl c, .inr rfl⟩
        · rename_i b zeroed left hpop
          obtain ⟨hkeeps, hless⟩ := h.popSmall_bytes hpop
          obtain ⟨hkeeps', hless'⟩ := ih (h.popSmall hpop).1 (addToPage groups b)
          refine ⟨hkeeps.trans hkeeps', .inl ?_⟩
          obtain hlt | heq := hless'
          · exact hlt.trans hless
          · rw [heq]
            exact hless

variable {t : SpanTier}

/-- The pops of `flush_mbin` and `flush_bbin`: their blocks are in the groups afterwards. -/
theorem Books.flushSpanPops (h : c.Books k) (e : TrimEnv) (cls : Fin t.num) (floor n : Nat) {groups : List ReleaseChunk}
    (hgroups : ∀ g ∈ groups, SpanHeap.Chunk g) :
    let r := Trimming.flushSpanPops e t cls floor n c groups
    r.1.Books k ∧ (∀ g ∈ r.2, SpanHeap.Chunk g) ∧ KeepsSmall c r.1 ∧
      (r.1.cachedBytes < c.cachedBytes ∨ r = (c, groups)) ∧
      ((r.1.spanBins t cls).len ≤ max floor ((c.spanBins t cls).len - n)) ∧
      (r.2 = [] → groups = [] ∧ (n = 0 ∨ (c.spanBins t cls).len ≤ floor)) ∧
      ∃ m, c.stake = m + r.1.stake ∧
        (spanTokens t (groupBlocks cls r.2)).map Token.bare
          = m.map Token.bare + (spanTokens t (groupBlocks cls groups)).map Token.bare := by
  induction n generalizing c groups with
  | zero =>
      exact ⟨h, hgroups, .refl c, .inr rfl, Nat.le_max_right _ _, fun hnil => ⟨hnil, .inl rfl⟩, 0,
        (zero_add _).symm, (zero_add _).symm⟩
  | succ n ih =>
      dsimp only
      unfold Trimming.flushSpanPops
      split
      · rename_i hle
        exact ⟨h, hgroups, .refl c, .inr rfl, Nat.le_trans hle (Nat.le_max_left _ _),
          fun hnil => ⟨hnil, .inr hle⟩, 0, (zero_add _).symm, (zero_add _).symm⟩
      · split
        · rename_i hgt _ hpop
          have hlen := (h.spanBins t cls).len
          rw [popSpanBin_none hpop] at hlen
          exact absurd (Nat.le_trans (Nat.le_of_eq hlen) (Nat.zero_le floor)) hgt
        · rename_i b zeroed left hpop
          obtain ⟨hleft, hstake, -, hlen⟩ := h.popSpanBin hpop
          obtain ⟨hkeeps, hless⟩ := h.popSpanBin_bytes hpop
          obtain ⟨hchunks, hblocks⟩ :
              (∀ g ∈ addToSpan groups (e.spanOf t b) b, SpanHeap.Chunk g) ∧
                groupBlocks cls (addToSpan groups (e.spanOf t b) b)
                  = {⟨cls, b, some (e.spanOf t b)⟩} + groupBlocks cls groups :=
            addToSpan_chunks cls hgroups
          obtain ⟨hbooks, hall, hkeeps', hless', hle, hnil, m, hm, htokens⟩ := ih hleft hchunks
          refine ⟨hbooks, hall, hkeeps.trans hkeeps', .inl ?_, ?_,
            fun he => absurd (hnil he).1 (addToSpan_ne_nil groups),
            {.span t ⟨cls, b, none⟩ zeroed} + m, ?_, ?_⟩
          · obtain hlt | heq := hless'
            · exact hlt.trans hless
            · rw [heq]
              exact hless
          · rwa [hlen, Nat.add_sub_add_right]
          · rw [hstake, hm, add_assoc]
          · rw [htokens, hblocks, spanTokens_add, Multiset.map_add, Multiset.map_add, ← add_assoc,
              add_comm (Multiset.map Token.bare m)]
            rfl

end ThreadCache

namespace Trimming

open ThreadCache

variable {s s' s'' : Trimming} {e : TrimEnv} {floor n : Nat}

/-- From `s` to `s'` some blocks have left the cache, each for just one call. -/
structure Spills (s s' : Trimming) : Prop where
  ok : s'.cache.Ok
  bytes : s'.cache.cachedBytes ≤ s.cache.cachedBytes
  tierBytes : s'.cache.tierCachedBytes ≤ s.cache.tierCachedBytes
  budget : s'.cache.budget = s.cache.budget
  released : ∃ new, s'.calls = s.calls ++ new ∧ (∀ r ∈ new, r.Ok) ∧
    s.cache.stake.map Token.bare = releasedBlocks new + s'.cache.stake.map Token.bare

theorem Spills.refl (h : s.cache.Ok) : Spills s s :=
  ⟨h, le_rfl, le_rfl, rfl, [], (List.append_nil _).symm, nofun, (zero_add _).symm⟩

theorem Spills.trans (h : Spills s s') (h' : Spills s' s'') : Spills s s'' := by
  obtain ⟨new, hcalls, hok, hstake⟩ := h.released
  obtain ⟨new', hcalls', hok', hstake'⟩ := h'.released
  refine ⟨h'.ok, h'.bytes.trans h.bytes, h'.tierBytes.trans h.tierBytes, h'.budget.trans h.budget,
    new ++ new', ?_, ?_, ?_⟩
  · rw [hcalls', hcalls, List.append_assoc]
  · intro r hr
    exact (List.mem_append.1 hr).elim (hok r) (hok' r)
  · rw [hstake, hstake', releasedBlocks_append, add_assoc]

/-! ### Small bins -/

section Small

variable {cls : Fin numClasses}

theorem flushBinStep_some (h : s.cache.Ok) (hstep : flushBinStep cls floor s = some s') :
    Spills s s' ∧ KeepsTiers s.cache s'.cache ∧ s'.cache.cachedBytes < s.cache.cachedBytes ∧
      (s'.cache.bins cls).len - floor < (s.cache.bins cls).len - floor := by
  unfold flushBinStep at hstep
  split at hstep
  · cases hstep
  · rename_i hgt
    obtain ⟨hbooks, -, hchunks, m, hstake, htokens⟩ :=
      @Books.flushPops _ _ cls floor h flushChunk [] nofun
    obtain ⟨hlen, -⟩ := @Books.flushPops_len _ _ cls floor h flushChunk []
    obtain ⟨hkeeps, hless⟩ := h.flushPops_bytes cls floor flushChunk []
    generalize s.cache.flushPops cls floor flushChunk [] = r at *
    obtain ⟨left, groups⟩ := r
    dsimp only at *
    split at hstep
    · cases hstep
    · rename_i hsome
      cases hstep
      have hlt : left.cachedBytes < s.cache.cachedBytes := by
        refine hless.resolve_right fun heq => hsome ?_
        rw [(Prod.mk.inj heq).2]
        rfl
      have hchunk : 0 < flushChunk := by decide
      refine ⟨⟨hbooks, hlt.le, hkeeps.tierCachedBytes.le, hkeeps.budget, [.pages cls groups], rfl, ?_, ?_⟩,
        hkeeps, hlt, ?_⟩
      · intro r hr
        rw [List.mem_singleton.1 hr]
        exact hchunks
      · have hblocks : m.map Token.bare = releasedBlocks [.pages cls groups] := by
          have hnil : blockTokens (SmallHeap.chunkBlocks cls []) = 0 := rfl
          rw [hnil, add_zero] at htokens
          unfold releasedBlocks
          rw [List.map_singleton, List.sum_singleton]
          show _ = blockTokens (SmallHeap.chunkBlocks cls groups)
          rw [← map_bare_dirty, ← htokens, blockTokens_bare]
        rw [hstake, Multiset.map_add, hblocks]
        rfl
      · show (left.bins cls).len - floor < _
        omega

theorem flushBinStep_none (h : s.cache.Books k) (hstep : flushBinStep cls floor s = none) :
    (s.cache.bins cls).len ≤ floor := by
  by_contra hgt
  unfold flushBinStep at hstep
  rw [if_neg hgt] at hstep
  obtain ⟨-, hnil⟩ := @Books.flushPops_len _ _ cls floor h flushChunk []
  generalize s.cache.flushPops cls floor flushChunk [] = r at *
  obtain ⟨left, groups⟩ := r
  dsimp only at *
  split at hstep
  · rename_i hempty
    obtain ⟨-, hzero | hle⟩ := hnil (List.isEmpty_iff.1 hempty)
    · exact absurd hzero (by decide)
    · exact hgt hle
  · cases hstep

/-- `flush_bin` comes down to its floor. -/
theorem flushBin_spills (h : s.cache.Ok) (cls : Fin numClasses) (floor : Nat) :
    Spills s (s.flushBin cls floor) ∧ KeepsTiers s.cache (s.flushBin cls floor).cache ∧
      ((s.flushBin cls floor).cache.bins cls).len ≤ floor := by
  have hinv : ∀ x x', Spills s x ∧ KeepsTiers s.cache x.cache → flushBinStep cls floor x = some x' →
      Spills s x' ∧ KeepsTiers s.cache x'.cache := by
    rintro x x' ⟨hx, hkeeps⟩ hstep
    obtain ⟨hspills, hkeeps', -⟩ := flushBinStep_some hx.ok hstep
    exact ⟨hx.trans hspills, hkeeps.trans hkeeps'⟩
  have hless : ∀ x x', Spills s x ∧ KeepsTiers s.cache x.cache → flushBinStep cls floor x = some x' →
      (x'.cache.bins cls).len - floor < (x.cache.bins cls).len - floor :=
    fun x x' hx hstep => (flushBinStep_some hx.1.ok hstep).2.2.2
  have hstart : Spills s s ∧ KeepsTiers s.cache s.cache := ⟨.refl h, .refl _⟩
  have hdone := Loop.run_ends hinv hless hstart (n := (s.cache.bins cls).len) (Nat.sub_le _ _)
  obtain ⟨hspills, hkeeps⟩ := Loop.run_invariant hinv hstart (n := (s.cache.bins cls).len)
  exact ⟨hspills, hkeeps, flushBinStep_none hspills.ok hdone⟩

/-- Its first round takes something. -/
theorem flushBin_lt (h : s.cache.Ok) (cls : Fin numClasses) (hgt : floor < (s.cache.bins cls).len) :
    (s.flushBin cls floor).cache.cachedBytes < s.cache.cachedBytes := by
  have hinv : ∀ x x', x.cache.Ok → flushBinStep cls floor x = some x' → x'.cache.Ok :=
    fun x x' hx hstep => (flushBinStep_some hx hstep).1.ok
  have hless : ∀ x x', x.cache.Ok → flushBinStep cls floor x = some x' →
      x'.cache.cachedBytes < x.cache.cachedBytes :=
    fun x x' hx hstep => (flushBinStep_some hx hstep).2.2.1
  exact Loop.run_lt hinv hless h (Nat.zero_lt_of_lt hgt) fun hnone =>
    absurd (flushBinStep_none h hnone) (Nat.not_le.2 hgt)

end Small

/-! ### The span tiers -/

section Tier

variable {t : SpanTier} {cls : Fin t.num}

theorem releaseGroups_blocks (cls : Fin t.num) {groups : List ReleaseChunk} (hgroups : ∀ g ∈ groups, SpanHeap.Chunk g) :
    (∀ r ∈ releaseGroups t cls groups, r.Ok) ∧
      releasedBlocks (releaseGroups t cls groups)
        = (spanTokens t (groupBlocks cls groups)).map Token.bare := by
  cases t with
  | medium =>
      refine ⟨fun r hr => ?_, ?_⟩
      · rw [releaseGroups, List.mem_singleton] at hr
        rw [hr]
        exact hgroups
      · unfold releasedBlocks releaseGroups
        rw [List.map_singleton, List.sum_singleton]
        rfl
  | big =>
      refine ⟨fun r hr => ?_, ?_⟩
      · obtain ⟨g, hg, rfl⟩ := List.mem_map.1 hr
        intro x hx
        rw [List.mem_singleton.1 hx]
        exact hgroups g hg
      · have hone : ∀ g, (Release.spans .big cls [g]).blocks
            = (spanTokens .big (SpanHeap.chunkBlocks cls g)).map Token.bare := by
          intro g
          show (spanTokens .big (groupBlocks cls [g])).map Token.bare = _
          unfold groupBlocks
          rw [List.map_singleton, List.sum_singleton]
        clear hgroups
        induction groups with
        | nil => rfl
        | cons g rest ih =>
            have hcons : releasedBlocks (releaseGroups .big cls (g :: rest))
                = (Release.spans .big cls [g]).blocks + releasedBlocks (releaseGroups .big cls rest) := by
              unfold releasedBlocks
              exact List.sum_cons
            have hgroup : groupBlocks cls (g :: rest) = SpanHeap.chunkBlocks cls g + groupBlocks cls rest :=
              List.sum_cons
            rw [hcons, ih, hone, hgroup, spanTokens_add, Multiset.map_add]

theorem flushSpanBinStep_some (h : s.cache.Ok) (hstep : flushSpanBinStep e t cls floor s = some s') :
    Spills s s' ∧ KeepsSmall s.cache s'.cache ∧ s'.cache.cachedBytes < s.cache.cachedBytes ∧
      (s'.cache.spanBins t cls).len - floor < (s.cache.spanBins t cls).len - floor := by
  unfold flushSpanBinStep at hstep
  split at hstep
  · cases hstep
  · rename_i hgt
    obtain ⟨hbooks, hchunks, hkeeps, hless, hlen, -, m, hstake, htokens⟩ :=
      h.flushSpanPops e cls floor t.flushChunk (show ∀ g ∈ [], SpanHeap.Chunk g from nofun)
    generalize flushSpanPops e t cls floor t.flushChunk s.cache [] = r at *
    obtain ⟨left, groups⟩ := r
    dsimp only at *
    split at hstep
    · cases hstep
    · rename_i hsome
      cases hstep
      have hlt : left.cachedBytes < s.cache.cachedBytes := by
        refine hless.resolve_right fun heq => hsome ?_
        rw [(Prod.mk.inj heq).2]
        rfl
      have hchunk : 0 < t.flushChunk := by
        cases t <;> decide
      obtain ⟨hok, hblocks⟩ := releaseGroups_blocks cls hchunks
      refine ⟨⟨hbooks, hlt.le, hkeeps.tierCachedBytes, hkeeps.budget, releaseGroups t cls groups, rfl,
        hok, ?_⟩, hkeeps, hlt, ?_⟩
      · have hnil : (spanTokens t (groupBlocks cls [])).map Token.bare = 0 := rfl
        rw [hnil, add_zero] at htokens
        rw [hstake, Multiset.map_add, hblocks, htokens]
        rfl
      · show (left.spanBins t cls).len - floor < _
        omega

theorem flushSpanBinStep_none (h : s.cache.Books k) (hstep : flushSpanBinStep e t cls floor s = none) :
    (s.cache.spanBins t cls).len ≤ floor := by
  by_contra hgt
  unfold flushSpanBinStep at hstep
  rw [if_neg hgt] at hstep
  obtain ⟨-, -, -, -, -, hnil, -⟩ :=
    h.flushSpanPops e cls floor t.flushChunk (show ∀ g ∈ [], SpanHeap.Chunk g from nofun)
  generalize flushSpanPops e t cls floor t.flushChunk s.cache [] = r at *
  obtain ⟨left, groups⟩ := r
  dsimp only at *
  split at hstep
  · rename_i hempty
    obtain ⟨-, hzero | hle⟩ := hnil (List.isEmpty_iff.1 hempty)
    · cases t <;> exact absurd hzero (by decide)
    · exact hgt hle
  · cases hstep

/-- `flush_mbin` and `flush_bbin` come down to their floor. -/
theorem flushSpanBin_spills (h : s.cache.Ok) (e : TrimEnv) (cls : Fin t.num) (floor : Nat) :
    Spills s (s.flushSpanBin e t cls floor) ∧ KeepsSmall s.cache (s.flushSpanBin e t cls floor).cache ∧
      ((s.flushSpanBin e t cls floor).cache.spanBins t cls).len ≤ floor := by
  have hinv : ∀ x x', Spills s x ∧ KeepsSmall s.cache x.cache →
      flushSpanBinStep e t cls floor x = some x' → Spills s x' ∧ KeepsSmall s.cache x'.cache := by
    rintro x x' ⟨hx, hkeeps⟩ hstep
    obtain ⟨hspills, hkeeps', -⟩ := flushSpanBinStep_some hx.ok hstep
    exact ⟨hx.trans hspills, hkeeps.trans hkeeps'⟩
  have hless : ∀ x x', Spills s x ∧ KeepsSmall s.cache x.cache →
      flushSpanBinStep e t cls floor x = some x' →
      (x'.cache.spanBins t cls).len - floor < (x.cache.spanBins t cls).len - floor :=
    fun x x' hx hstep => (flushSpanBinStep_some hx.1.ok hstep).2.2.2
  have hstart : Spills s s ∧ KeepsSmall s.cache s.cache := ⟨.refl h, .refl _⟩
  have hdone := Loop.run_ends hinv hless hstart (n := (s.cache.spanBins t cls).len) (Nat.sub_le _ _)
  obtain ⟨hspills, hkeeps⟩ := Loop.run_invariant hinv hstart (n := (s.cache.spanBins t cls).len)
  exact ⟨hspills, hkeeps, flushSpanBinStep_none hspills.ok hdone⟩

/-- Their first round takes something. -/
theorem flushSpanBin_lt (h : s.cache.Ok) (cls : Fin t.num) (hgt : floor < (s.cache.spanBins t cls).len) :
    (s.flushSpanBin e t cls floor).cache.cachedBytes < s.cache.cachedBytes := by
  have hinv : ∀ x x', x.cache.Ok → flushSpanBinStep e t cls floor x = some x' → x'.cache.Ok :=
    fun x x' hx hstep => (flushSpanBinStep_some hx hstep).1.ok
  have hless : ∀ x x', x.cache.Ok → flushSpanBinStep e t cls floor x = some x' →
      x'.cache.cachedBytes < x.cache.cachedBytes :=
    fun x x' hx hstep => (flushSpanBinStep_some hx hstep).2.2.1
  exact Loop.run_lt hinv hless h (Nat.zero_lt_of_lt hgt) fun hnone =>
    absurd (flushSpanBinStep_none h hnone) (Nat.not_le.2 hgt)

/-- An active list that has blocks is flushed whole: its span is recorded. -/
theorem flushActive_spills (h : s.cache.Ok) (cls : Fin t.num)
    (hsome : 0 < (s.cache.active t cls).list.len) :
    Spills s (s.flushActive t cls) ∧ KeepsSmall s.cache (s.flushActive t cls).cache ∧
      (s.flushActive t cls).cache.cachedBytes < s.cache.cachedBytes := by
  have hlen := (h.active t cls).len
  have hblocks : (s.cache.active t cls).list.blocks ≠ [] := by
    intro hnil
    rw [hnil, List.length_nil] at hlen
    omega
  have hspan := h.recorded t cls hblocks
  have hbranch : ((t = .big && (s.cache.active t cls).span = 0)
      || (s.cache.active t cls).list.blocks.isEmpty || (s.cache.active t cls).list.len = 0) = false := by
    have hne : ¬(s.cache.active t cls).list.len = 0 := by omega
    simp [hspan, hblocks, hne]
  have hbytes := h.len_active cls
  have htier := h.tier_le
  have hsize : 0 < t.blockSize cls := Nat.lt_of_lt_of_le (by decide) (blockSize_pos t cls)
  have hpos := Nat.mul_pos hsome hsize
  obtain ⟨hbooks, -, -, m, hstake, htokens⟩ := h.dropActive t cls
  have hfields : KeepsSmall s.cache (s.cache.dropActive t cls) ∧
      (s.cache.dropActive t cls).cachedBytes < s.cache.cachedBytes := by
    rw [Nat.mul_comm] at hbytes hpos
    unfold dropActive
    rw [subTierCached_eq (Nat.le_trans hbytes htier) hbytes]
    refine ⟨⟨rfl, Nat.sub_le _ _, rfl⟩, ?_⟩
    show s.cache.cachedBytes - _ < s.cache.cachedBytes
    omega
  unfold flushActive
  rw [if_neg (by rw [hbranch]; exact Bool.false_ne_true)]
  refine ⟨⟨hbooks, hfields.2.le, hfields.1.tierCachedBytes, hfields.1.budget, _, rfl, ?_, ?_⟩, hfields⟩
  · intro r hr
    rw [List.mem_singleton.1 hr]
    intro g hg
    rw [List.mem_singleton.1 hg]
    refine ⟨?_, hlen⟩
    dsimp only
    rw [List.getLast?_eq_some_getLast hblocks]
    rfl
  · have hmoved : m.map Token.bare = releasedBlocks [.spans t cls [⟨(s.cache.active t cls).span,
        (s.cache.active t cls).list.blocks, (s.cache.active t cls).list.blocks.getLast?.getD 0,
        (s.cache.active t cls).list.len⟩]] := by
      unfold releasedBlocks
      rw [List.map_singleton, List.sum_singleton, Release.blocks, groupBlocks, List.map_singleton,
        List.sum_singleton, ← map_bare_dirty, ← htokens]
      rfl
    rw [hstake, Multiset.map_add, hmoved]
    rfl

end Tier

/-! ### Rounds -/

theorem trimSpanBins_some (h : s.cache.Ok) (hround : s.trimSpanBins e = some s') :
    Spills s s' ∧ KeepsSmall s.cache s'.cache ∧ s'.cache.cachedBytes < s.cache.cachedBytes := by
  have hflush : ∀ {t : SpanTier} {cls : Fin t.num} {b : Nat}, s.cache.bestSpanBin t = some (cls, b) →
      let x := s.flushSpanBin e t cls ((s.cache.spanBins t cls).len / 2)
      Spills s x ∧ KeepsSmall s.cache x.cache ∧ x.cache.cachedBytes < s.cache.cachedBytes := by
    intro t cls b hbest
    have hlen : 0 < (s.cache.spanBins t cls).len := of_decide_eq_true (bestOf_some hbest).1
    obtain ⟨hspills, hkeeps, -⟩ := flushSpanBin_spills h e cls ((s.cache.spanBins t cls).len / 2)
    exact ⟨hspills, hkeeps, flushSpanBin_lt h cls (Nat.div_lt_self hlen (by decide))⟩
  unfold trimSpanBins at hround
  dsimp only at hround
  split at hround
  · rename_i cls b hbig
    cases hround
    exact hflush (Option.filter_eq_some_iff.1 hbig).1
  · split at hround
    · rename_i cls b hmedium
      cases hround
      exact hflush hmedium
    · cases hround

theorem trimSpanBins_none (hround : s.trimSpanBins e = none) (t : SpanTier) :
    s.cache.bestSpanBin t = none := by
  unfold trimSpanBins at hround
  dsimp only at hround
  split at hround
  · cases hround
  · rename_i hbig
    split at hround
    · cases hround
    · rename_i hmedium
      cases t with
      | medium => exact hmedium
      | big =>
          cases hbest : s.cache.bestSpanBin .big with
          | none => rfl
          | some x =>
              have hpos : 0 < x.2 := by
                obtain ⟨-, hbytes, hpos⟩ := bestOf_some (i := x.1) (b := x.2) hbest
                omega
              rw [hbest, hmedium] at hbig
              simp [Option.filter, hpos] at hbig

/-- A round flushes a small bin, or no small bin has more than a batch and it flushes another list. -/
theorem trimRound_some (h : s.cache.Ok) (hround : s.trimRound e = some s') :
    Spills s s' ∧ s'.cache.cachedBytes < s.cache.cachedBytes ∧
      (¬s.cache.SmallTrimmed ∧ KeepsTiers s.cache s'.cache ∨
        s.cache.SmallTrimmed ∧ KeepsSmall s.cache s'.cache) := by
  unfold trimRound at hround
  split at hround
  · rename_i cls b hbest
    cases hround
    have hlen : refillBatch < (s.cache.bins cls).len := of_decide_eq_true (bestOf_some hbest).1
    obtain ⟨hspills, hkeeps, -⟩ := flushBin_spills h cls ((s.cache.bins cls).len / 2)
    have hlt : (s.flushBin cls ((s.cache.bins cls).len / 2)).cache.cachedBytes < s.cache.cachedBytes :=
      flushBin_lt h cls (Nat.div_lt_self (by omega) (by decide))
    refine ⟨hspills, hlt, .inl ⟨fun hsmall => ?_, hkeeps⟩⟩
    have hle := hsmall cls
    rw [← (h.bins cls).len] at hle
    omega
  · rename_i hbin
    have hsmall := h.smallTrimmed hbin
    have hactive : ∀ {t : SpanTier} {cls : Fin t.num} {b : Nat}, s.cache.bestActive t = some (cls, b) →
        Spills s (s.flushActive t cls) ∧
          (s.flushActive t cls).cache.cachedBytes < s.cache.cachedBytes ∧
          (¬s.cache.SmallTrimmed ∧ KeepsTiers s.cache (s.flushActive t cls).cache ∨
            s.cache.SmallTrimmed ∧ KeepsSmall s.cache (s.flushActive t cls).cache) := by
      intro t cls b hbest
      obtain ⟨hspills, hkeeps, hlt⟩ :=
        flushActive_spills h cls (of_decide_eq_true (bestOf_some hbest).1)
      exact ⟨hspills, hlt, .inr ⟨hsmall, hkeeps⟩⟩
    split at hround
    · rename_i cls b hbest
      cases hround
      exact hactive hbest
    · split at hround
      · rename_i cls b hbest
        cases hround
        exact hactive hbest
      · obtain ⟨hspills, hkeeps, hlt⟩ := trimSpanBins_some h hround
        exact ⟨hspills, hlt, .inr ⟨hsmall, hkeeps⟩⟩

theorem trimRound_none (h : s.cache.Ok) (hround : s.trimRound e = none) : s.cache.Trimmed := by
  unfold trimRound at hround
  split at hround
  · cases hround
  · rename_i hbin
    split at hround
    · cases hround
    · rename_i hmedium
      split at hround
      · cases hround
      · rename_i hbig
        refine ⟨h.smallTrimmed hbin, fun t cls => ?_, fun t cls => ?_⟩
        · have hlen := bestSpanBin_none (trimSpanBins_none hround t) cls
          rwa [(h.spanBins t cls).len, List.length_eq_zero_iff] at hlen
        · have hlen : (s.cache.active t cls).list.len = 0 := by
            cases t with
            | medium => exact bestActive_none hmedium cls
            | big => exact bestActive_none hbig cls
          rwa [(h.active t cls).len, List.length_eq_zero_iff] at hlen

/-- What holds between the rounds of a trim that began with `s`: the tiers are as they were, or there is
nothing left in the small bins that could be flushed. -/
structure Between (s x : Trimming) : Prop where
  spills : Spills s x
  tiers : x.cache.tierCachedBytes = s.cache.tierCachedBytes ∨ x.cache.SmallTrimmed

theorem Between.round (h : Between s s') (hround : s'.trimRound e = some s'') : Between s s'' := by
  obtain ⟨hspills, -, ⟨hmore, hkeeps⟩ | ⟨hsmall, hkeeps⟩⟩ := trimRound_some h.spills.ok hround
  · exact ⟨h.spills.trans hspills, .inl (hkeeps.tierCachedBytes.trans (h.tiers.resolve_right hmore))⟩
  · refine ⟨h.spills.trans hspills, .inr ?_⟩
    unfold SmallTrimmed at hsmall ⊢
    rwa [hkeeps.bins]

theorem trimStep_some {target : Nat} (hstep : trimStep e target s = some s') :
    target < s.cache.cachedBytes ∧ s.trimRound e = some s' := by
  unfold trimStep at hstep
  split at hstep
  · cases hstep
  · rename_i hgt
    exact ⟨Nat.not_le.1 hgt, hstep⟩

theorem trimStep_none {target : Nat} (h : s.cache.Ok) (hstep : trimStep e target s = none) :
    s.cache.cachedBytes ≤ target ∨ s.cache.Trimmed := by
  unfold trimStep at hstep
  split at hstep
  · rename_i hle
    exact .inl hle
  · exact .inr (trimRound_none h hstep)

/-- The loop of `trim`: as many rounds as there are cached bytes are enough, and it ends at the target
or with nothing left. -/
theorem trimLoop_ends (h : s.cache.Ok) (target : Nat) (hn : s.cache.cachedBytes ≤ n) :
    Between s (trimLoop e target n s) ∧
      ((trimLoop e target n s).cache.cachedBytes ≤ target ∨ (trimLoop e target n s).cache.Trimmed) ∧
      trimLoop e target n s = trimLoop e target s.cache.cachedBytes s := by
  have hinv : ∀ x x', Between s x → trimStep e target x = some x' → Between s x' :=
    fun x x' hx hstep => hx.round (trimStep_some hstep).2
  have hless : ∀ x x', Between s x → trimStep e target x = some x' →
      x'.cache.cachedBytes < x.cache.cachedBytes :=
    fun x x' hx hstep => (trimRound_some hx.spills.ok (trimStep_some hstep).2).2.1
  have hstart : Between s s := ⟨.refl h, .inl rfl⟩
  have hbetween : Between s (trimLoop e target n s) := Loop.run_invariant hinv hstart
  exact ⟨hbetween, trimStep_none hbetween.spills.ok (Loop.run_ends hinv hless hstart hn),
    Loop.run_enough hinv hless hstart hn le_rfl⟩

end Trimming

namespace ThreadCache

variable {c : ThreadCache} {e : TrimEnv}

/-- The settings are not in the books. -/
theorem Books.trimStart (h : c.Ok) : (c.trimStart e).Ok ∧ (c.trimStart e).stake = c.stake ∧
    (c.trimStart e).cachedBytes = c.cachedBytes ∧
    (c.trimStart e).tierCachedBytes = c.tierCachedBytes := by
  have hrefresh : ∀ {c : ThreadCache}, c.Ok → (c.refreshBudget e).Ok ∧
      (c.refreshBudget e).stake = c.stake ∧ (c.refreshBudget e).cachedBytes = c.cachedBytes ∧
      (c.refreshBudget e).tierCachedBytes = c.tierCachedBytes := by
    intro c h
    unfold refreshBudget
    split
    · exact ⟨Books.fields h _ _ _ _ _, rfl, rfl, rfl⟩
    · exact ⟨h, rfl, rfl, rfl⟩
  have harm : (c.armExitHook e).Ok ∧ (c.armExitHook e).stake = c.stake ∧
      (c.armExitHook e).cachedBytes = c.cachedBytes ∧
      (c.armExitHook e).tierCachedBytes = c.tierCachedBytes := by
    unfold armExitHook
    split
    · exact ⟨h, rfl, rfl, rfl⟩
    · obtain ⟨hok, hstake, hbytes, htier⟩ := hrefresh h
      exact ⟨Books.fields hok _ _ _ _ _, hstake, hbytes, htier⟩
  obtain ⟨hok, hstake, hbytes, htier⟩ := harm
  obtain ⟨hok', hstake', hbytes', htier'⟩ := hrefresh hok
  exact ⟨hok', hstake'.trans hstake, hbytes'.trans hbytes, htier'.trans htier⟩

/-! ### Reachable caches -/

/-- What a trim leads to, from a cache whose books are right. -/
theorem Books.trim_ends (h : c.Ok) (e : TrimEnv) {n : Nat} (hn : c.cachedBytes ≤ n) :
    Trimming.Between ⟨c.trimStart e, []⟩ (c.trim e n) ∧
      ((c.trim e n).cache.cachedBytes ≤ (c.trimStart e).trimTarget ∨ (c.trim e n).cache.Trimmed) ∧
      c.trim e n = c.trim e c.cachedBytes := by
  obtain ⟨hok, -, hbytes, -⟩ := Books.trimStart (e := e) h
  obtain ⟨hbetween, hends, -⟩ := Trimming.trimLoop_ends (s := ⟨c.trimStart e, []⟩) (e := e) hok
    (c.trimStart e).trimTarget (hbytes.le.trans hn)
  have henough := (Trimming.trimLoop_ends (s := ⟨c.trimStart e, []⟩) (e := e) hok
    (c.trimStart e).trimTarget (hbytes.le.trans hn)).2.2
  refine ⟨hbetween, hends, henough.trans ?_⟩
  show Trimming.trimLoop e _ (c.trimStart e).cachedBytes _ = _
  rw [hbytes]
  rfl

theorem Books.freeSmall (h : c.Ok) (cls : Fin numClasses) (p : Nat) (foreign : Bool) :
    (c.freeSmall cls p foreign).Ok :=
  (Books.pushSmall (Books.fields h _ _ _ _ _) cls p).1

theorem Books.freeSpan (h : c.Ok) (t : SpanTier) (cls : Fin t.num) (p span : Nat) (foreign : Bool) :
    (c.freeSpan t cls p span foreign).Ok := by
  unfold ThreadCache.freeSpan
  refine Books.fields ?_ _ _ _ _ _
  split
  · rename_i hin
    have hspan : (c.active t cls).span ≠ 0 := by
      cases t with
      | medium =>
          simp only [activeContains, Bool.and_eq_true, decide_eq_true_eq] at hin
          exact hin.1.1
      | big =>
          simp only [activeContains, Bool.and_eq_true, decide_eq_true_eq] at hin
          exact hin.1.1.2
    exact (h.activeDealloc hspan p).1
  · exact (h.binDealloc t cls p).1

theorem Books.trim (h : c.Ok) (e : TrimEnv) : (c.trim e c.cachedBytes).cache.Ok :=
  (h.trim_ends e le_rfl).1.spills.ok

/-- The books of a reachable cache are right. -/
theorem Reach.ok (h : c.Reach) : c.Ok := by
  induction h with
  | new => exact Ok.new
  | refresh e _ _ ih =>
      unfold refreshBudget
      split
      · exact Books.fields ih _ _ _ _ _
      · exact ih
  | arm e _ _ ih =>
      unfold armExitHook refreshBudget
      split
      · exact ih
      · split
        · exact Books.fields ih _ _ _ _ _
        · exact Books.fields ih _ _ _ _ _
  | popSmall _ hpop ih => exact (ih.popSmall hpop).1
  | fillSmall _ hempty rest virgin ih => exact (ih.fillSmall hempty rest virgin).1
  | freeSmall _ cls p foreign ih => exact ih.freeSmall cls p foreign
  | activeAlloc _ t cls ih =>
      rename_i c _
      cases halloc : (c.activeAlloc t cls).1 with
      | none => exact (ih.activeAlloc_none halloc).2.1
      | some x => exact (ih.activeAlloc halloc).1
  | popSpanBin _ hpop ih => exact (ih.popSpanBin hpop).1
  | fillActive _ hempty hbin hspan mappedBytes rest virgin ih =>
      exact (ih.fillActive hempty hbin hspan mappedBytes rest virgin).1
  | fillSpanBin _ hbin rest virgin ih => exact (ih.fillSpanBin hbin rest virgin).1
  | freeSpan _ t cls p span foreign ih => exact ih.freeSpan t cls p span foreign
  | trim e _ _ ih => exact ih.trim e
  | shed e _ _ ih => exact Books.fields (ih.trim e) _ _ _ _ _
  | takeStash _ htake ih => exact (ih.takeLargeStash htake).1
  | pushStash _ hbase hpages hpush ih => exact (ih.pushLargeStash hbase hpages hpush).1
  | flushBin _ cls floor ih => exact (Trimming.flushBin_spills (s := ⟨_, []⟩) ih cls floor).1.ok
  | dropBin _ cls ih => exact (ih.dropBin cls).1
  | flushActive _ hsome ih =>
      refine (Trimming.flushActive_spills (s := ⟨_, []⟩) ih _ ?_).1.ok
      rw [(ih.active _ _).len]
      exact List.length_pos_of_ne_nil hsome
  | flushSpanBin e _ t cls floor ih => exact (Trimming.flushSpanBin_spills (s := ⟨_, []⟩) ih e cls floor).1.ok
  | reset _ hbins hspanBins hactive ih =>
      obtain ⟨hok, -, -⟩ := ih.resetLists ⟨hbins, hspanBins, hactive⟩
      exact { hok with
        toLists := ⟨hok.bins, hok.spanBins, hok.active, hok.recorded, hok.cachedBytes,
          hok.tierCachedBytes, hok.faults⟩
        occupied := fun _ hi => absurd hi (Nat.not_lt_zero _)
        free := fun _ _ => rfl
        largeLen := Nat.zero_le _
        largeBytes := rfl }
  | adopt _ _ _ ih => exact (Ok.adopt _ ih).1
  | steal _ _ ih ih' => exact (Books.stealEmptyBins ih ih').1
  | reclaimed _ ih => exact Books.fields ih _ _ _ _ _

/-! ### Budgets -/

theorem refreshBudget_budget (hbudget : minBudget ≤ e.budget) (h : minBudget ≤ c.budget) :
    minBudget ≤ (c.refreshBudget e).budget := by
  unfold refreshBudget
  split
  · exact hbudget
  · exact h

theorem armExitHook_budget (hbudget : minBudget ≤ e.budget) (h : minBudget ≤ c.budget) :
    minBudget ≤ (c.armExitHook e).budget := by
  unfold armExitHook
  split
  · exact h
  · exact refreshBudget_budget hbudget h

theorem activeAlloc_budget {t : SpanTier} {cls : Fin t.num} :
    (c.activeAlloc t cls).2.budget = c.budget := by
  unfold ThreadCache.activeAlloc
  dsimp only
  split
  · dsimp only
    split <;> rfl
  · rename_i p zeroed b _
    show (((c.setActive t cls { c.active t cls with list := b }).fault _).subTierCached
      (t.blockSize cls)).budget = c.budget
    generalize hd : (c.setActive t cls { c.active t cls with list := b }).fault _ = d
    have hsub : (d.subTierCached (t.blockSize cls)).budget = d.budget :=
      ((fault_fields d _).1.budget ▸ (fault_fields (d.subCached _) _).1.budget)
    rw [hsub, ← hd]
    exact (fault_fields _ _).1.budget

theorem removeStash_budget (c : ThreadCache) (i : Nat) : (c.removeStash i).2.budget = c.budget :=
  (fault_fields _ _).1.budget

theorem takeLargeStash_budget {left : ThreadCache} {pages : Nat} {r : Nat × Nat}
    (htake : c.takeLargeStash pages = some (r, left)) : left.budget = c.budget := by
  unfold ThreadCache.takeLargeStash at htake
  dsimp only at htake
  split at htake
  · cases htake
    exact removeStash_budget c _
  · obtain ⟨i, -, he⟩ := Option.map_eq_some_iff.1 htake
    have hleft : (c.removeStash i).2 = left := congrArg Prod.snd he
    rw [← hleft]
    exact removeStash_budget c i

theorem pushLargeStash_budget {left : ThreadCache} {base pages : Nat}
    (hpush : c.pushLargeStash base pages = some left) : left.budget = c.budget := by
  unfold ThreadCache.pushLargeStash at hpush
  dsimp only at hpush
  generalize (if largeStashHugeThreshold ≤ pages * pageSize then largeStashHugeCapBytes
    else largeStashCapBytes) = cap at hpush
  split at hpush
  · cases hpush
  · cases hpush
    rfl

theorem stealBin_budget (dst src : ThreadCache) (cls : Fin numClasses) :
    (dst.stealBin src cls).1.budget = dst.budget := by
  unfold ThreadCache.stealBin
  dsimp only
  split <;> rfl

theorem stealEmptyBins_budget (dst src : ThreadCache) :
    (dst.stealEmptyBins src).1.budget = dst.budget := by
  unfold ThreadCache.stealEmptyBins
  generalize List.finRange numClasses = l
  induction l generalizing dst src with
  | nil => rfl
  | cons cls rest ih =>
      rw [List.foldl_cons]
      exact (ih _ _).trans (stealBin_budget dst src cls)

/-- The budget of a reachable cache is at least what `set_budget` lets through. -/
theorem Reach.budget (h : c.Reach) : minBudget ≤ c.budget := by
  induction h with
  | new => decide
  | refresh e _ hbudget ih => exact refreshBudget_budget hbudget ih
  | arm e _ hbudget ih => exact armExitHook_budget hbudget ih
  | popSmall h hpop ih => rwa [(h.ok.popSmall_bytes hpop).1.budget]
  | fillSmall _ _ _ _ ih => exact ih
  | freeSmall _ _ _ _ ih => exact ih
  | activeAlloc h t cls ih => rwa [activeAlloc_budget]
  | popSpanBin h hpop ih => rwa [(h.ok.popSpanBin_bytes hpop).1.budget]
  | fillActive _ _ _ _ _ _ _ ih => exact ih
  | fillSpanBin _ _ _ _ ih => exact ih
  | freeSpan _ t cls p span foreign ih =>
      unfold ThreadCache.freeSpan
      dsimp only
      split <;> exact ih
  | trim e h hbudget ih =>
      rw [(h.ok.trim_ends e le_rfl).1.spills.budget]
      exact refreshBudget_budget hbudget (armExitHook_budget hbudget ih)
  | shed e h hbudget ih =>
      refine le_of_le_of_eq ?_ (h.ok.trim_ends e le_rfl).1.spills.budget.symm
      exact refreshBudget_budget hbudget (armExitHook_budget hbudget ih)
  | takeStash _ htake ih => rwa [takeLargeStash_budget htake]
  | pushStash _ _ _ hpush ih => rwa [pushLargeStash_budget hpush]
  | flushBin h cls floor ih =>
      rwa [(Trimming.flushBin_spills (s := ⟨_, []⟩) h.ok cls floor).1.budget]
  | dropBin _ cls ih => exact le_of_le_of_eq ih (fault_fields _ _).1.budget.symm
  | flushActive h hsome ih =>
      rwa [(Trimming.flushActive_spills (s := ⟨_, []⟩) h.ok _
        (by rw [(h.ok.active _ _).len]; exact List.length_pos_of_ne_nil hsome)).1.budget]
  | flushSpanBin e h t cls floor ih =>
      rwa [(Trimming.flushSpanBin_spills (s := ⟨_, []⟩) h.ok e cls floor).1.budget]
  | reset _ _ _ _ ih => exact ih
  | adopt _ _ ih _ => exact ih
  | steal _ _ ih _ => rwa [stealEmptyBins_budget]
  | reclaimed _ ih => exact ih

/-! ### Trims and sheds -/

end ThreadCache

end Allox
