import Allox.Proof.Cache

/-!
# What leaves a cache

The stash, the flushes and the adoption of a retired cache. A flush leaves blocks dirty: whether they
read as zero is not passed on to the heaps. The groups a flush builds are chunks as the heaps expect
them, and they hold exactly what has left the cache.
-/

namespace Allox

open ArrayPrefix

/-- The same thing, not known to read as zero. -/
def Token.dirty : Token → Token
  | block b _ => .block b false
  | span t b _ => .span t b false
  | extent m _ => .extent m false
  | region p => .region p

def blockTokens (m : Multiset Block) : Multiset Token := m.map (Token.block · false)

def spanTokens (t : SpanTier) (m : Multiset (SpanBlock t)) : Multiset Token :=
  m.map (Token.span t · false)

@[simp] theorem blockTokens_add (m n : Multiset Block) :
    blockTokens (m + n) = blockTokens m + blockTokens n := Multiset.map_add _ _ _

@[simp] theorem spanTokens_add {t : SpanTier} (m n : Multiset (SpanBlock t)) :
    spanTokens t (m + n) = spanTokens t m + spanTokens t n := Multiset.map_add _ _ _

theorem uniform_block (cls : Fin numClasses) (chain : List Nat) :
    uniform (fun a => .block ⟨cls, a⟩) false chain = blockTokens (blocksOf cls chain) := by
  simp [uniform, blockTokens, blocksOf, Function.comp_def]

theorem uniform_span {t : SpanTier} (cls : Fin t.num) (home : Option Nat) (chain : List Nat) :
    uniform (fun a => .span t ⟨cls, a, home⟩) false chain = spanTokens t (spanBlocks cls home chain) := by
  simp [uniform, spanTokens, spanBlocks, Function.comp_def]

theorem flagged_dirty {mk : Nat → Bool → Token} (hmk : ∀ a z, (mk a z).dirty = mk a false) (v : Nat)
    (chain : List Nat) : (flagged mk v chain).map Token.dirty = uniform mk false chain := by
  induction chain with
  | nil => rfl
  | cons b rest ih =>
      rw [flagged_cons, uniform_cons, Multiset.map_add, Multiset.map_singleton, ih, hmk]

namespace ThreadCache

variable {c : ThreadCache} {k : Nat}

/-- Everything about a cache that its lists and its stash do not decide. -/
theorem Books.fields (h : c.Books k) (budget budgetEpoch foreignBytes : Nat)
    (exitArmed retiredReclaimed : Bool) :
    Books { c with budget, budgetEpoch, foreignBytes, exitArmed, retiredReclaimed } k :=
  { h with toLists := ⟨h.bins, h.spanBins, h.active, h.recorded, h.cachedBytes, h.tierCachedBytes,
      h.faults⟩ }

theorem Ok.new : ThreadCache.new.Ok :=
  { toLists := .new
    occupied := fun _ hi => absurd hi (Nat.not_lt_zero _)
    free := fun _ _ => rfl
    largeLen := Nat.zero_le _
    largeBytes := rfl }

/-! ### The stash -/

/-- The token of a stashed region. -/
def regionToken (e : Nat × Nat) : Token := .extent ⟨e.1, e.2 * pageSize, .large⟩ false

theorem stashed_add {e : Nat × Nat} (he : e.1 ≠ 0) (s : Multiset (Nat × Nat)) :
    ({e} + s).filterMap stashed = {regionToken e} + s.filterMap stashed := by
  rw [Multiset.singleton_add, Multiset.filterMap_cons_some stashed _ _ (b := regionToken e)]
  · rfl
  · simp [stashed, he, regionToken]

theorem Books.removeStash (h : c.Books k) {i : Nat} (hi : i < c.largeLen) :
    (c.removeStash i).2.Books k ∧
      c.stake = {regionToken (c.large i)} + (c.removeStash i).2.stake := by
  obtain ⟨n, hn⟩ : ∃ n, c.largeLen = n + 1 := ⟨c.largeLen - 1, by omega⟩
  have hswap : upto c.large c.largeLen = {c.large i}
      + upto (Function.update (Function.update c.large i (c.large n)) n (0, 0)) n := by
    rw [hn, upto_update_of_le le_rfl, upto_swapRemove (Nat.le_of_lt_succ (hn ▸ hi))]
  have hbytes := h.largeBytes
  rw [hswap, Multiset.map_add, Multiset.sum_add, Multiset.map_singleton, Multiset.sum_singleton]
    at hbytes
  have hfault : c.fault (c.largeBytes < (c.large i).2 * pageSize) = c := by
    have hle : ¬c.largeBytes < (c.large i).2 * pageSize := by omega
    simp [fault, hle]
  unfold ThreadCache.removeStash
  dsimp only
  rw [hfault, hn, Nat.add_sub_cancel]
  refine ⟨{ h with
    toLists := ⟨h.bins, h.spanBins, h.active, h.recorded, h.cachedBytes, h.tierCachedBytes, h.faults⟩
    occupied := fun j hj => ?_
    free := fun j hj => ?_
    largeLen := ?_
    largeBytes := ?_ }, ?_⟩
  · have hj : j < n := hj
    simp only [Function.update_of_ne (Nat.ne_of_lt hj)]
    by_cases hji : j = i
    · subst hji
      simpa using h.occupied n (by omega)
    · simpa [hji] using h.occupied j (by omega)
  · have hj : n ≤ j := hj
    by_cases hjn : j = n
    · subst hjn
      simp
    · have hfree := h.free j (by omega)
      have hji : j ≠ i := by omega
      simpa [hjn, hji] using hfree
  · have := h.largeLen
    show n ≤ largeStashSlots
    omega
  · exact Nat.sub_eq_of_eq_add (hbytes.trans (Nat.add_comm _ _))
  · show c.weight tokens + (upto c.large c.largeLen).filterMap stashed = _
    rw [hswap, stashed_add (h.occupied i hi).1, add_left_comm]
    rfl

/-- An entry taken from the stash, with the region it stands for. -/
theorem Books.takeLargeStash (h : c.Books k) {pages : Nat} {e : Nat × Nat} {left : ThreadCache}
    (htake : c.takeLargeStash pages = some (e, left)) :
    left.Books k ∧ c.stake = {regionToken e} + left.stake ∧ e.1 ≠ 0 ∧ e.2 ≠ 0 := by
  have hsome : ∃ i < c.largeLen, (e, left) = c.removeStash i := by
    unfold ThreadCache.takeLargeStash at htake
    dsimp only at htake
    split at htake
    · rename_i i hfind
      cases htake
      exact ⟨i, (find?_range_lt hfind).1, rfl⟩
    · obtain ⟨i, hbest, he⟩ := Option.map_eq_some_iff.1 htake
      refine ⟨i, ?_, he.symm⟩
      refine foldl_choice (P := fun j => j < c.largeLen) (fun best j hj => ?_) (by rintro j ⟨⟩) hbest
      split
      · exact .inr ⟨rfl, List.mem_range.1 hj⟩
      · exact .inl rfl
  obtain ⟨i, hi, he⟩ := hsome
  obtain ⟨hbooks, hstake⟩ := h.removeStash hi
  have hentry : e = c.large i := congrArg Prod.fst he
  rw [← he] at hbooks hstake
  rw [hentry]
  exact ⟨hbooks, hstake, h.occupied i hi⟩

theorem Books.pushLargeStash (h : c.Books k) {base pages : Nat} {left : ThreadCache}
    (hbase : base ≠ 0) (hpages : pages ≠ 0) (hpush : c.pushLargeStash base pages = some left) :
    left.Books k ∧ left.stake = {regionToken (base, pages)} + c.stake := by
  unfold ThreadCache.pushLargeStash at hpush
  dsimp only at hpush
  generalize (if largeStashHugeThreshold ≤ pages * pageSize then largeStashHugeCapBytes
    else largeStashCapBytes) = cap at hpush
  split at hpush
  · cases hpush
  · rename_i hroom
    simp only [Bool.or_eq_true, decide_eq_true_eq, not_or, Nat.not_le, Nat.not_lt] at hroom
    cases hpush
    refine ⟨{ h with
      toLists := ⟨h.bins, h.spanBins, h.active, h.recorded, h.cachedBytes, h.tierCachedBytes,
        h.faults⟩
      occupied := fun j hj => ?_
      free := fun j hj => ?_
      largeLen := hroom.1
      largeBytes := ?_ }, ?_⟩
    · have hj : j < c.largeLen + 1 := hj
      by_cases hjn : j = c.largeLen
      · subst hjn
        simpa using ⟨hbase, hpages⟩
      · simpa [hjn] using h.occupied j (by omega)
    · have hj : c.largeLen + 1 ≤ j := hj
      have hjn : j ≠ c.largeLen := by omega
      simpa [hjn] using h.free j (by omega)
    · show c.largeBytes + pages * pageSize = _
      rw [upto_append, Multiset.map_add, Multiset.sum_add, Multiset.map_singleton,
        Multiset.sum_singleton, h.largeBytes, Nat.add_comm]
    · show c.weight tokens + (upto (Function.update c.large c.largeLen (base, pages))
        (c.largeLen + 1)).filterMap stashed = _
      rw [upto_append, stashed_add hbase, add_left_comm]
      rfl

/-! ### Groups -/

section Groups

variable {b : Nat}

theorem addToPage_chunks (cls : Fin numClasses) {groups : List PageReleaseChunk}
    (h : ∀ g ∈ groups, SmallHeap.Chunk cls g) :
    (∀ g ∈ addToPage groups b, SmallHeap.Chunk cls g) ∧
      SmallHeap.chunkBlocks cls (addToPage groups b)
        = {⟨cls, b⟩} + SmallHeap.chunkBlocks cls groups := by
  induction groups with
  | nil =>
      refine ⟨fun g hg => ?_, rfl⟩
      rw [addToPage, List.mem_singleton] at hg
      subst hg
      exact ⟨by simp, rfl, rfl⟩
  | cons g rest ih =>
      obtain ⟨hchunks, hblocks⟩ := ih fun x hx => h x (List.mem_cons_of_mem _ hx)
      have hg := h g (List.mem_cons_self ..)
      unfold addToPage
      split
      · rename_i hpage
        refine ⟨fun x hx => ?_, ?_⟩
        · rcases List.mem_cons.1 hx with rfl | hx
          · refine ⟨fun a ha => ?_, by simp, by simp [hg.n]⟩
            rcases List.mem_append.1 ha with ha | ha
            · exact hg.page a ha
            · rw [List.mem_singleton.1 ha, hpage]
          · exact h x (List.mem_cons_of_mem _ hx)
        · simp only [SmallHeap.chunkBlocks, List.map_cons, List.sum_cons, blocksOf_append,
            blocksOf_cons, blocksOf_nil, add_zero]
          ac_rfl
      · refine ⟨fun x hx => ?_, ?_⟩
        · rcases List.mem_cons.1 hx with rfl | hx
          · exact hg
          · exact hchunks x hx
        · simp only [SmallHeap.chunkBlocks, List.map_cons, List.sum_cons] at hblocks ⊢
          rw [hblocks]
          ac_rfl

theorem addToPage_ne_nil (groups : List PageReleaseChunk) : addToPage groups b ≠ [] := by
  unfold addToPage
  split
  · exact List.cons_ne_nil _ _
  · split <;> exact List.cons_ne_nil _ _

/-- The blocks of the groups of a span tier. -/
def groupBlocks {t : SpanTier} (cls : Fin t.num) (groups : List ReleaseChunk) :
    Multiset (SpanBlock t) := (groups.map (SpanHeap.chunkBlocks cls)).sum

theorem addToSpan_chunks {t : SpanTier} (cls : Fin t.num) {span : Nat} {groups : List ReleaseChunk}
    (h : ∀ g ∈ groups, SpanHeap.Chunk g) :
    (∀ g ∈ addToSpan groups span b, SpanHeap.Chunk g) ∧
      groupBlocks cls (addToSpan groups span b)
        = {⟨cls, b, some span⟩} + groupBlocks cls groups := by
  induction groups with
  | nil =>
      refine ⟨fun g hg => ?_, rfl⟩
      rw [addToSpan, List.mem_singleton] at hg
      subst hg
      exact ⟨rfl, rfl⟩
  | cons g rest ih =>
      obtain ⟨hchunks, hblocks⟩ := ih fun x hx => h x (List.mem_cons_of_mem _ hx)
      have hg := h g (List.mem_cons_self ..)
      unfold addToSpan
      split
      · rename_i hspan
        refine ⟨fun x hx => ?_, ?_⟩
        · rcases List.mem_cons.1 hx with rfl | hx
          · exact ⟨by simp, by simp [hg.n]⟩
          · exact h x (List.mem_cons_of_mem _ hx)
        · simp only [groupBlocks, List.map_cons, List.sum_cons, SpanHeap.chunkBlocks,
            spanBlocks_append, spanBlocks_cons, spanBlocks_nil, add_zero, hspan]
          ac_rfl
      · refine ⟨fun x hx => ?_, ?_⟩
        · rcases List.mem_cons.1 hx with rfl | hx
          · exact hg
          · exact hchunks x hx
        · simp only [groupBlocks, List.map_cons, List.sum_cons] at hblocks ⊢
          rw [hblocks]
          ac_rfl

theorem addToSpan_ne_nil {span : Nat} (groups : List ReleaseChunk) :
    addToSpan groups span b ≠ [] := by
  unfold addToSpan
  split
  · exact List.cons_ne_nil _ _
  · split <;> exact List.cons_ne_nil _ _

open SmallHeap

theorem add_pages (groups : List PageCount) (p : Nat) :
    (countPages.add groups p).map PageCount.page
      = if p ∈ groups.map PageCount.page then groups.map PageCount.page
        else groups.map PageCount.page ++ [p] := by
  induction groups with
  | nil => rfl
  | cons g rest ih =>
      unfold countPages.add
      by_cases hg : g.page = p
      · simp [hg]
      · rw [if_neg hg, List.map_cons, ih]
        by_cases hmem : p ∈ rest.map PageCount.page
        · simp only [hmem, List.map_cons, List.mem_cons, or_true, if_true]
        · have hnot : p ∉ (g :: rest).map PageCount.page := by
            simp only [List.map_cons, List.mem_cons, not_or]
            exact ⟨fun h => hg h.symm, hmem⟩
          rw [if_neg hmem, if_neg hnot]
          rfl

/-- A group after the count: another page's, or this page's with one more. -/
theorem mem_add_page {groups : List PageCount} {p : Nat} {x : PageCount}
    (hpages : (groups.map PageCount.page).Nodup) (hx : x ∈ countPages.add groups p) :
    x ∈ groups ∧ x.page ≠ p ∨
      x.page = p ∧ ((∃ g ∈ groups, g.page = p ∧ x.n = g.n + 1) ∨
        p ∉ groups.map PageCount.page ∧ x.n = 1) := by
  induction groups with
  | nil =>
      rw [countPages.add, List.mem_singleton] at hx
      subst hx
      exact .inr ⟨rfl, .inr ⟨by simp, rfl⟩⟩
  | cons g rest ih =>
      rw [List.map_cons, List.nodup_cons] at hpages
      unfold countPages.add at hx
      split at hx
      · rename_i hg
        rcases List.mem_cons.1 hx with rfl | hx
        · exact .inr ⟨hg, .inl ⟨g, List.mem_cons_self .., hg, rfl⟩⟩
        · refine .inl ⟨List.mem_cons_of_mem _ hx, fun he => hpages.1 ?_⟩
          rw [hg, ← he]
          exact List.mem_map_of_mem hx
      · rename_i hg
        rcases List.mem_cons.1 hx with rfl | hx
        · exact .inl ⟨List.mem_cons_self .., hg⟩
        · rcases ih hpages.2 hx with ⟨hmem, hne⟩ | ⟨he, ⟨y, hy, hyp, hn⟩ | ⟨hnot, hn⟩⟩
          · exact .inl ⟨List.mem_cons_of_mem _ hmem, hne⟩
          · exact .inr ⟨he, .inl ⟨y, List.mem_cons_of_mem _ hy, hyp, hn⟩⟩
          · refine .inr ⟨he, .inr ⟨?_, hn⟩⟩
            simp only [List.map_cons, List.mem_cons, not_or]
            exact ⟨fun h => hg h.symm, hnot⟩

/-- One more block, one more count. -/
theorem countPages_add {chain : List Nat} {groups : List PageCount}
    (h : SmallHeap.Counted chain groups) :
    SmallHeap.Counted (chain ++ [b]) (countPages.add groups (pageOf b)) := by
  have hfilter : ∀ q, ((chain ++ [b]).filter (pageOf · == q)).length
      = (chain.filter (pageOf · == q)).length + if pageOf b = q then 1 else 0 := by
    intro q
    rw [List.filter_append, List.length_append]
    by_cases hq : pageOf b = q
    · simp [hq]
    · simp [hq]
  have hnone : pageOf b ∉ groups.map PageCount.page →
      (chain.filter (pageOf · == pageOf b)).length = 0 := by
    intro hnot
    rw [List.length_eq_zero_iff, List.filter_eq_nil_iff]
    intro a ha he
    obtain ⟨g, hg, hpage⟩ := h.all a ha
    rw [beq_iff_eq] at he
    exact hnot (List.mem_map.2 ⟨g, hg, hpage.trans he⟩)
  constructor
  · rw [add_pages]
    split
    · exact h.pages
    · rename_i hnot
      refine List.nodup_append.2 ⟨h.pages, List.nodup_singleton _, ?_⟩
      intro a ha q hq he
      rw [List.mem_singleton] at hq
      exact hnot (hq ▸ he ▸ ha)
  · intro x hx
    rw [hfilter]
    rcases mem_add_page h.pages hx with ⟨hmem, hne⟩ | ⟨he, ⟨g, hg, hpage, hn⟩ | ⟨hnot, hn⟩⟩
    · rw [if_neg (Ne.symm hne), h.n x hmem, Nat.add_zero]
    · rw [he, if_pos rfl, hn, h.n g hg, hpage]
    · rw [he, if_pos rfl, hn, hnone hnot]
  · intro x hx
    rcases mem_add_page h.pages hx with ⟨hmem, -⟩ | ⟨he, -⟩
    · obtain ⟨a, ha, hpage⟩ := h.some x hmem
      exact ⟨a, List.mem_append_left _ ha, hpage⟩
    · exact ⟨b, List.mem_append_right _ (List.mem_singleton_self b), he.symm⟩
  · intro a ha
    have hmem : pageOf a ∈ (countPages.add groups (pageOf b)).map PageCount.page := by
      rw [add_pages]
      rcases List.mem_append.1 ha with ha | ha
      · obtain ⟨g, hg, hpage⟩ := h.all a ha
        have hold : pageOf a ∈ groups.map PageCount.page := List.mem_map.2 ⟨g, hg, hpage⟩
        split
        · exact hold
        · exact List.mem_append_left _ hold
      · rw [List.mem_singleton.1 ha]
        split
        · assumption
        · exact List.mem_append_right _ (List.mem_singleton_self _)
    obtain ⟨g, hg, hpage⟩ := List.mem_map.1 hmem
    exact ⟨g, hg, hpage⟩

theorem countPages_counted (chain : List Nat) : SmallHeap.Counted chain (countPages chain) := by
  induction chain using List.reverseRecOn with
  | nil => exact ⟨List.nodup_nil, by simp [countPages], by simp [countPages], by simp⟩
  | append_singleton chain b ih =>
      unfold countPages at ih ⊢
      rw [List.foldl_append]
      exact countPages_add ih

end Groups

/-! ### Flushes -/

open SmallHeap (Chunk chunkBlocks)

variable {cls : Fin numClasses} {floor : Nat}

/-- The pops of a flush: their blocks are in the groups afterwards. -/
theorem Books.flushPops (h : c.Books k) (n : Nat) {groups : List PageReleaseChunk}
    (hgroups : ∀ g ∈ groups, Chunk cls g) :
    (c.flushPops cls floor n groups).1.Books k ∧ Drains c (c.flushPops cls floor n groups).1 ∧
      (∀ g ∈ (c.flushPops cls floor n groups).2, Chunk cls g) ∧
      ∃ m, c.stake = m + (c.flushPops cls floor n groups).1.stake ∧
        blockTokens (chunkBlocks cls (c.flushPops cls floor n groups).2)
          = m.map Token.dirty + blockTokens (chunkBlocks cls groups) := by
  induction n generalizing c groups with
  | zero => exact ⟨h, .refl c, hgroups, 0, (zero_add _).symm, (zero_add _).symm⟩
  | succ n ih =>
      unfold ThreadCache.flushPops
      split
      · exact ⟨h, .refl c, hgroups, 0, (zero_add _).symm, (zero_add _).symm⟩
      · split
        · exact ⟨h, .refl c, hgroups, 0, (zero_add _).symm, (zero_add _).symm⟩
        · rename_i b zeroed left hpop
          obtain ⟨hleft, hstake, hdrains, -⟩ := h.popSmall hpop
          obtain ⟨hchunks, hblocks⟩ := addToPage_chunks (b := b) cls hgroups
          obtain ⟨hbooks, hdrains', hall, m, hm, htokens⟩ := ih hleft hchunks
          refine ⟨hbooks, hdrains.trans hdrains', hall, {.block ⟨cls, b⟩ zeroed} + m, ?_, ?_⟩
          · rw [hstake, hm, add_assoc]
          · rw [htokens, hblocks, blockTokens_add, Multiset.map_add, ← add_assoc,
              add_comm (Multiset.map Token.dirty m)]
            rfl

/-- They reach the floor or use up the chunk. -/
theorem Books.flushPops_len (h : c.Books k) (n : Nat) (groups : List PageReleaseChunk) :
    ((c.flushPops cls floor n groups).1.bins cls).len ≤ max floor ((c.bins cls).len - n) ∧
      ((c.flushPops cls floor n groups).2 = [] → groups = [] ∧ (n = 0 ∨ (c.bins cls).len ≤ floor)) := by
  induction n generalizing c groups with
  | zero => exact ⟨Nat.le_max_right _ _, fun hnil => ⟨hnil, .inl rfl⟩⟩
  | succ n ih =>
      unfold ThreadCache.flushPops
      split
      · rename_i hle
        exact ⟨Nat.le_trans hle (Nat.le_max_left _ _), fun hnil => ⟨hnil, .inr hle⟩⟩
      · split
        · rename_i hgt _ hpop
          have hlen := (h.bins cls).len
          rw [popSmall_none hpop] at hlen
          exact absurd (Nat.le_trans (Nat.le_of_eq hlen) (Nat.zero_le floor)) hgt
        · rename_i b zeroed left hpop
          obtain ⟨hleft, -, -, hlen⟩ := h.popSmall hpop
          obtain ⟨hle, hnil⟩ := ih hleft (addToPage groups b)
          refine ⟨?_, fun he => absurd (hnil he).1 (addToPage_ne_nil groups)⟩
          rwa [hlen, Nat.add_sub_add_right]

/-- The whole bin leaves at once. -/
theorem Books.dropBin (h : c.Books k) (cls : Fin numClasses) :
    (c.dropBin cls).Books k ∧ Drains c (c.dropBin cls) ∧ ((c.dropBin cls).bins cls).blocks = [] ∧
      ∃ m, c.stake = m + (c.dropBin cls).stake ∧
        blockTokens (blocksOf cls (c.bins cls).blocks) = m.map Token.dirty := by
  have hbytes := h.len_bin cls
  rw [Nat.mul_comm] at hbytes
  unfold ThreadCache.dropBin
  dsimp only
  rw [subCached_eq hbytes]
  have hlists := h.toLists.setBin cls .empty
    (n := c.cachedBytes - classSize cls * (c.bins cls).len) (by
      rw [Nat.mul_comm (c.bins cls).len, Nat.sub_add_cancel hbytes]
      simp [Bin.empty])
  refine ⟨{ h with toLists := hlists }, ?_, ?_, tokens.bin cls (c.bins cls), ?_, ?_⟩
  · exact Drains.of_eq (Drains.setBin fun _ => rfl) rfl rfl rfl
  · simp [ThreadCache.setBin, Bin.empty]
  · exact add_cancel_lost 0 (c.stake_setBin cls .empty _) (add_zero _).symm
  · rw [← uniform_block]
    exact (flagged_dirty (fun _ _ => rfl) _ _).symm

theorem Books.dropActive (h : c.Books k) (t : SpanTier) (cls : Fin t.num) :
    (c.dropActive t cls).Books k ∧ Drains c (c.dropActive t cls) ∧
      ((c.dropActive t cls).active t cls).list.blocks = [] ∧
      ∃ m, c.stake = m + (c.dropActive t cls).stake ∧
        spanTokens t (spanBlocks cls (some (c.active t cls).span) (c.active t cls).list.blocks)
          = m.map Token.dirty := by
  have hbytes := h.len_active cls
  have htier := h.tier_le
  rw [Nat.mul_comm] at hbytes
  unfold ThreadCache.dropActive
  rw [subTierCached_eq (Nat.le_trans hbytes htier) hbytes]
  have hlists := h.toLists.setActive cls (a := .empty)
    (n := c.cachedBytes - t.blockSize cls * (c.active t cls).list.len)
    (m := c.tierCachedBytes - t.blockSize cls * (c.active t cls).list.len) .empty
    (fun hne => absurd rfl hne)
    (by
      rw [Nat.mul_comm (c.active t cls).list.len, Nat.sub_add_cancel (Nat.le_trans hbytes htier)]
      simp [Active.empty, Bin.empty])
    (by
      rw [Nat.mul_comm (c.active t cls).list.len, Nat.sub_add_cancel hbytes]
      simp [Active.empty, Bin.empty])
  refine ⟨{ h with toLists := hlists }, ?_, ?_, tokens.active t cls (c.active t cls), ?_, ?_⟩
  · exact Drains.of_eq (Drains.setActive fun _ => rfl) rfl rfl rfl
  · simp [ThreadCache.setActive, Active.empty, Bin.empty]
  · exact add_cancel_lost 0 (c.stake_setActive cls .empty _ _) (add_zero _).symm
  · rw [← uniform_span]
    exact (flagged_dirty (fun _ _ => rfl) _ _).symm

/-! ### Empty caches -/

/-- All lists are empty. -/
structure Emptied (c : ThreadCache) : Prop where
  bins : ∀ cls, (c.bins cls).blocks = []
  spanBins : ∀ t cls, (c.spanBins t cls).blocks = []
  active : ∀ t cls, (c.active t cls).list.blocks = []

theorem Emptied.tokens (h : c.Emptied) : c.weight tokens = 0 := by
  simp [weight, tiersWeight, tierWeight, ThreadCache.tokens, h.bins, h.spanBins, h.active, flagged]

theorem Emptied.bytes (h : c.Emptied) (hbooks : c.Lists k) :
    c.weight bytes = 0 ∧ c.tiersWeight bytes = 0 := by
  have hbins : ∀ cls, (c.bins cls).len = 0 := fun cls => by
    rw [(hbooks.bins cls).len, h.bins]
    rfl
  have hspans : ∀ t cls, (c.spanBins t cls).len = 0 := fun t cls => by
    rw [(hbooks.spanBins t cls).len, h.spanBins]
    rfl
  have hactive : ∀ t cls, (c.active t cls).list.len = 0 := fun t cls => by
    rw [(hbooks.active t cls).len, h.active]
    rfl
  constructor <;>
    simp [weight, tiersWeight, tierWeight, ThreadCache.bytes, hbins, hspans, hactive]

/-- A cache that counts no bytes holds no blocks. -/
theorem Books.emptied (h : c.Books k) (hzero : c.cachedBytes = 0) : c.Emptied := by
  have htier := h.tier_le
  constructor
  · intro cls
    have hlen := h.len_bin cls
    have hpos := classSize_pos cls
    rw [hzero, Nat.le_zero, Nat.mul_eq_zero] at hlen
    rw [← List.length_eq_zero_iff, ← (h.bins cls).len]
    omega
  · intro t cls
    have hlen := h.len_spanBin (t := t) cls
    have hpos := blockSize_pos t cls
    have hzero' : (c.spanBins t cls).len * t.blockSize cls = 0 := by omega
    rw [Nat.mul_eq_zero] at hzero'
    rw [← List.length_eq_zero_iff, ← (h.spanBins t cls).len]
    omega
  · intro t cls
    have hlen := h.len_active (t := t) cls
    have hpos := blockSize_pos t cls
    have hzero' : (c.active t cls).list.len * t.blockSize cls = 0 := by omega
    rw [Nat.mul_eq_zero] at hzero'
    rw [← List.length_eq_zero_iff, ← (h.active t cls).len]
    omega

theorem Books.stake_eq_zero (h : c.Books k) (hzero : c.cachedBytes = 0) (hstash : c.largeLen = 0) :
    c.stake = 0 := by
  rw [stake, (h.emptied hzero).tokens, stash, hstash]
  rfl

/-- Stashed regions have bytes. -/
theorem Books.largeLen_eq_zero (h : c.Books k) (hzero : c.largeBytes = 0) : c.largeLen = 0 := by
  by_contra hne
  have hbytes := h.largeBytes
  rw [hzero] at hbytes
  rw [upto_eq_add_erase (i := 0) (by omega), Multiset.map_add, Multiset.sum_add,
    Multiset.map_singleton, Multiset.sum_singleton] at hbytes
  have hle : (c.large 0).2 * pageSize = 0 := by omega
  rw [Nat.mul_eq_zero] at hle
  rcases hle with hpages | hpage
  · exact (h.occupied 0 (by omega)).2 hpages
  · exact absurd hpage (by decide)

/-- The end of the lists in a full flush. -/
theorem Books.resetLists (h : c.Books k) (hempty : c.Emptied) :
    c.resetLists.Ok ∧ c.resetLists.stake = c.stake ∧ c.resetLists.Emptied := by
  have hempty' : c.resetLists.Emptied := ⟨hempty.bins, hempty.spanBins, fun _ _ => rfl⟩
  have hlists : c.resetLists.Lists 0 := by
    have hbytes : c.resetLists.tiersWeight bytes = 0 := by
      have hzero := (hempty.bytes h.toLists).2
      have hspans : ∀ t cls, (c.spanBins t cls).len = 0 := fun t cls => by
        rw [(h.spanBins t cls).len, hempty.spanBins]
        rfl
      simp [tiersWeight, tierWeight, ThreadCache.resetLists, ThreadCache.bytes, hspans, Active.empty,
        Bin.empty]
    have hbins : ∀ cls, (c.bins cls).len = 0 := fun cls => by
      rw [(h.bins cls).len, hempty.bins]
      rfl
    refine ⟨fun cls => ⟨(h.bins cls).len, Nat.zero_le _⟩,
      fun t cls => ⟨(h.spanBins t cls).len, Nat.zero_le _⟩, fun _ _ => .empty,
      fun _ _ hne => absurd rfl hne, ?_, hbytes.symm, h.faults⟩
    rw [weight, hbytes]
    simp [ThreadCache.resetLists, ThreadCache.bytes, hbins]
  refine ⟨{ h with toLists := hlists }, ?_, hempty'⟩
  rw [stake, stake, hempty'.tokens, hempty.tokens]
  rfl

/-! ### Adoption -/

/-- A bin that moves leaves its bytes behind in the counter of the cache it came from. -/
theorem Books.stealBin {dst src : ThreadCache} (hdst : dst.Ok) (hsrc : src.Books k)
    (cls : Fin numClasses) :
    (dst.stealBin src cls).1.Ok ∧
      (∃ k', (dst.stealBin src cls).2.Books k' ∧
        (dst.stealBin src cls).1.cachedBytes + k = dst.cachedBytes + k') ∧
      (dst.stealBin src cls).1.stake + (dst.stealBin src cls).2.stake = dst.stake + src.stake := by
  unfold ThreadCache.stealBin
  dsimp only
  split
  · exact ⟨hdst, ⟨k, hsrc, rfl⟩, rfl⟩
  · rename_i hmove
    simp only [Bool.or_eq_true, decide_eq_true_eq, not_or, not_not] at hmove
    have hlen : (dst.bins cls).len = 0 := by
      rw [(hdst.bins cls).len, hmove.2]
      rfl
    have hdst' := hdst.toLists.setBin cls (hsrc.bins cls)
      (n := dst.cachedBytes + classSize cls * (src.bins cls).len) (by
        rw [hlen, Nat.mul_comm (classSize cls), Nat.zero_mul, Nat.add_zero])
    have hsrc' : (src.setBin cls .empty).Lists (k + (src.bins cls).len * classSize cls) := by
      have hzero := hsrc.toLists.setBin cls .empty
        (n := src.cachedBytes - (src.bins cls).len * classSize cls) (by
          rw [Nat.sub_add_cancel (hsrc.len_bin cls)]
          simp [Bin.empty])
      have hle := hsrc.len_bin cls
      have hc := hzero.cachedBytes
      refine { hzero with cachedBytes := ?_ }
      show src.cachedBytes = (src.setBin cls .empty).weight bytes + _
      have hc' : src.cachedBytes - (src.bins cls).len * classSize cls
        = (src.setBin cls .empty).weight bytes + k := hc
      omega
    have hcount : dst.cachedBytes + classSize cls * (src.bins cls).len + k
        = dst.cachedBytes + (k + (src.bins cls).len * classSize cls) := by
      rw [Nat.mul_comm (classSize cls)]
      omega
    refine ⟨{ hdst with toLists := hdst' }, ⟨_, { hsrc with toLists := hsrc' }, hcount⟩, ?_⟩
    have hgain := add_cancel_gained (r := tokens.bin cls (src.bins cls))
      (dst.stake_setBin cls (src.bins cls) (dst.cachedBytes + classSize cls * (src.bins cls).len))
      (by simp [tokens, hmove.2, flagged])
    have hlose := add_cancel_lost (r := tokens.bin cls (src.bins cls)) 0
      (src.stake_setBin cls .empty src.cachedBytes) (add_zero _).symm
    rw [hlose]
    refine (congrArg (· + _) hgain).trans ?_
    show _ + (src.setBin cls .empty).stake = dst.stake + (_ + (src.setBin cls .empty).stake)
    ac_rfl

/-- The cache that was stolen from counts on top what the other one gained. -/
theorem Books.stealEmptyBins {dst src : ThreadCache} (hdst : dst.Ok) (hsrc : src.Books k) :
    (dst.stealEmptyBins src).1.Ok ∧
      (∃ k', (dst.stealEmptyBins src).2.Books k' ∧
        (dst.stealEmptyBins src).1.cachedBytes + k = dst.cachedBytes + k') ∧
      (dst.stealEmptyBins src).1.stake + (dst.stealEmptyBins src).2.stake
        = dst.stake + src.stake := by
  unfold ThreadCache.stealEmptyBins
  generalize List.finRange numClasses = l
  induction l generalizing dst src k with
  | nil => exact ⟨hdst, ⟨k, hsrc, rfl⟩, rfl⟩
  | cons cls rest ih =>
      obtain ⟨hdst', ⟨k', hsrc', hgain⟩, hstake⟩ := stealBin hdst hsrc cls
      obtain ⟨hdst'', ⟨k'', hsrc'', hgain'⟩, hstake'⟩ := ih hdst' hsrc'
      dsimp only [List.foldl_cons]
      rw [Prod.mk.eta] at hgain'
      exact ⟨hdst'', ⟨k'', hsrc'', by omega⟩, hstake'.trans hstake⟩

theorem Ok.adopt {adopted : ThreadCache} (c : ThreadCache) (h : adopted.Ok) :
    (c.adopt adopted).Ok ∧ (c.adopt adopted).stake = adopted.stake :=
  ⟨Books.fields h _ _ _ _ _, rfl⟩

end ThreadCache

end Allox
