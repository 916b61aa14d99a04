import Allox.Proof.Overlap

/-!
# Where the blocks are

The books of the heaps, read over every run: each block that a page or span has carved is in one place,
the counters say how many are where, and what is mapped is in use.
-/

namespace Allox

open Resumption

/-! ### Counting blocks of a page -/

theorem countP_singleton_ite {α : Type} (q : α → Prop) [DecidablePred q] (a : α) :
    Multiset.countP q {a} = if q a then 1 else 0 := by
  rw [← Multiset.cons_zero, Multiset.countP_cons, Multiset.countP_zero, zero_add]

namespace SmallHeap.Conserves

variable {h : SmallHeap} {out : Multiset Block} {loose mapped : Multiset Nat} {p : Nat} {g : PageHeader}

theorem count_carved (p : Nat) (c : Fin numClasses) (n i : Nat) :
    (carved p c n).count (PageHeader.blockAt p c i) = if i < n then 1 else 0 := by
  have hmem : PageHeader.blockAt p c i ∈ carved p c n ↔ i < n := by
    simp only [carved, Multiset.mem_coe, List.mem_map, List.mem_range]
    constructor
    · rintro ⟨j, hj, heq⟩
      rwa [← blockAt_injective p c heq]
    · exact fun hi => ⟨i, hi, rfl⟩
  split
  · rename_i hi
    exact Multiset.count_eq_one_of_mem (nodup_carved p c n) (hmem.2 hi)
  · rename_i hi
    exact Multiset.count_eq_zero_of_notMem fun hin => hi (hmem.1 hin)

theorem count_outAt {c : Fin numClasses} {a : Nat} (ha : pageOf a = p)
    (hcls : ∀ b ∈ out, pageOf b.addr = p → b.cls = c) : (outAt out p).count a = out.count ⟨c, a⟩ := by
  induction out using Multiset.induction_on with
  | empty => rfl
  | cons b out ih =>
      have hb := hcls b (Multiset.mem_cons_self _ _)
      have hrest := ih fun b' hb' => hcls b' (Multiset.mem_cons_of_mem hb')
      rw [← Multiset.singleton_add, outAt_add, Multiset.count_add, Multiset.count_add, hrest,
        outAt_singleton]
      congr 1
      obtain ⟨c', a'⟩ := b
      by_cases haddr : a = a'
      · subst haddr
        have hsame : c' = c := hb ha
        rw [if_pos ha, hsame, Multiset.count_singleton_self, Multiset.count_singleton_self]
      · have hne : (⟨c, a⟩ : Block) ≠ ⟨c', a'⟩ := fun he => haddr (congrArg Block.addr he)
        rw [Multiset.count_singleton, if_neg hne]
        split
        · rw [Multiset.count_singleton, if_neg haddr]
        · rfl

/-- Block `i` of a page is free, outside, or not carved yet. -/
theorem block_count (hok : h.Conserves out loose mapped) (hp : h.pages p = some (.active g)) {i : Nat}
    (hi : i < g.capacity) :
    out.count ⟨g.cls, PageHeader.blockAt p g.cls i⟩ + g.free.count (PageHeader.blockAt p g.cls i)
      = if i < g.used + g.freeCount then 1 else 0 := by
  have hpage := pageOf_blockAt (hok.page_aligned hp) hi
  have hcls : ∀ b ∈ out, pageOf b.addr = p → b.cls = g.cls := by
    rintro b hb rfl
    obtain ⟨g', hp', hcls⟩ := hok.home b hb
    cases hp.symm.trans hp'
    exact hcls.symm
  rw [← count_carved p g.cls, ← (hok.page p g hp).ledger, Multiset.count_add, Multiset.coe_count,
    count_outAt hpage hcls, Nat.add_comm]

end SmallHeap.Conserves

/-! ### Counting blocks of a span -/

namespace SpanHeap.Conserves

variable {t : SpanTier} {arena : Nat → Nat → Bool} {h : SpanHeap t} {out : Multiset (SpanBlock t)}
  {loose mapped : Multiset (Nat × Nat)} {s : Nat} {m : SpanMaster t}

theorem count_outIn {s n a : Nat} (ha : s ≤ a ∧ a < s + n * pageSize) (out : Multiset (SpanBlock t)) :
    (outIn out s n).count a = out.countP fun b => b.addr = a := by
  induction out using Multiset.induction_on with
  | empty => rfl
  | cons b out ih =>
      rw [← Multiset.singleton_add, outIn_add, Multiset.count_add, Multiset.countP_add, ih,
        outIn_singleton, countP_singleton_ite]
      congr 1
      by_cases haddr : b.addr = a
      · rw [haddr, if_pos ha, if_pos rfl, Multiset.count_singleton_self]
      · rw [if_neg haddr]
        split
        · rw [Multiset.count_singleton, if_neg fun he => haddr he.symm]
        · rfl

theorem countP_outIn (out : Multiset (SpanBlock t)) (s n : Nat) :
    (outIn out s n).card = out.countP fun b => s ≤ b.addr ∧ b.addr < s + n * pageSize := by
  induction out using Multiset.induction_on with
  | empty => rfl
  | cons b out ih =>
      rw [← Multiset.singleton_add, outIn_add, Multiset.card_add, Multiset.countP_add, ih,
        outIn_singleton, countP_singleton_ite]
      split <;> rfl

/-- A block that a span has carved is free or outside. -/
theorem block_count (hok : h.Conserves arena out loose mapped) (hs : h.spans s = some (.active m))
    {a : Nat} (ha : a ∈ t.carve m.cls s m.npages (arena s (m.npages * pageSize))) :
    out.countP (fun b => b.addr = a) + m.free.count a = 1 := by
  have hbounds := mem_carve ha
  have hpos := blockSize_pos t m.cls
  have hone := Multiset.count_eq_one_of_mem (Multiset.coe_nodup.2 (nodup_carve m.cls s m.npages
    (arena s (m.npages * pageSize)))) (Multiset.mem_coe.2 ha)
  rw [← (hok.span s m hs).ledger, Multiset.count_add, Multiset.coe_count,
    count_outIn (by omega)] at hone
  omega

end SpanHeap.Conserves

/-! ### Over every run -/

section Runs

variable {ι : Type} [DecidableEq ι] [Fintype ι]

instance {σ L E α : Type} (p : Prog σ L E α) : Decidable p.Idle :=
  match p with
  | .done _ _ => isTrue trivial
  | .atomic _ _ _ _ => isFalse id

/-- A small block and a big one are allocated. -/
def packedRun : List (Fin 1 × (Op ⊕ Env)) :=
  alone [(.allocSmall true 63, 10, 1048576), (.allocSpan true .big 0, 14, 2097152)]

/-- The live blocks of a span tier. -/
def World.spanLive (t : SpanTier) (w : World) : List (SpanBlock t) :=
  w.live.filterMap fun x => x.token.span? t

/-- The blocks of a span tier outside the heap; those on an active list carry the span recorded there. -/
def spanOut (t : SpanTier) (s : Pool ι World Caches Env) (carried : ι → Multiset Token) :
    Multiset (SpanBlock t) :=
  ↑(s.shared.spanLive t) + ∑ i, (∑ k, (cacheOf s i k).spanBlocks t + spansIn t (carried i))
    + ∑ i, (s.shared.retired i).content.spanBlocks t

/-- What holds of the blocks of a span tier. -/
structure SpanPlaces (t : SpanTier) (s : Pool ι World Caches Env) (out : Multiset (SpanBlock t)) :
    Prop where
  block : ∀ base M, (s.shared.spans t).spans base = some (.active M) →
    ∀ a ∈ t.carve M.cls base M.npages (s.shared.arena base (M.npages * pageSize)),
      out.countP (fun b => b.addr = a) + M.free.count a = 1
  free : ∀ base M, (s.shared.spans t).spans base = some (.active M) → M.freeCount = M.free.length ∧
    ∀ b ∈ M.free, b ∈ t.carve M.cls base M.npages (s.shared.arena base (M.npages * pageSize))
  used : ∀ base M, (s.shared.spans t).spans base = some (.active M) →
    M.used = out.countP fun b => base ≤ b.addr ∧ b.addr < base + M.npages * pageSize
  home : ∀ b ∈ out, ∃ base M, (s.shared.spans t).spans base = some (.active M) ∧ M.cls = b.cls ∧
    b.addr ∈ t.carve M.cls base M.npages (s.shared.arena base (M.npages * pageSize)) ∧
    ∀ x, b.home = some x → x = base
  mapped : ∀ base x, (s.shared.spans t).spans base = some x →
    ⟨base, x.pages * pageSize, .span t⟩ ∈ s.shared.mapped

omit [DecidableEq ι] [Fintype ι] in
theorem span_places {t : SpanTier} {s : Pool ι World Caches Env} {m : Multiset Token}
    (h : s.shared.Good m) (ht : s.shared.Trusted t) : SpanPlaces t s (spansIn t m) := by
  have hpart := h.part (.span t) ht
  refine ⟨fun base M hs a ha => hpart.block_count hs ha, fun base M hs => ?_, fun base M hs => ?_,
    fun b hb => ?_, fun base x hs => ?_⟩
  · have hbal := hpart.span base M hs
    refine ⟨hbal.freeCount, fun b hb => ?_⟩
    have hmem : b ∈ (↑M.free + outIn (spansIn t m) base M.npages : Multiset Nat) :=
      Multiset.mem_add.2 (.inl hb)
    rw [hbal.ledger] at hmem
    exact Multiset.mem_coe.1 hmem
  · exact (hpart.span base M hs).used.trans (SpanHeap.Conserves.countP_outIn _ base M.npages)
  · obtain ⟨base, M, hs, hcls, hcarve, -, hhome⟩ := hpart.placed hb
    exact ⟨base, M, hs, hcls, hcarve, hhome⟩
  · obtain ⟨⟨base', len, use⟩, hx, rfl, rfl, hlen⟩ := World.mem_mappedOf.1 (hpart.mem_mapped hs)
    have hwhole := (h.placed _ hx).whole
    dsimp only at hlen hwhole
    rwa [← hlen, Nat.div_mul_cancel (Nat.dvd_of_mod_eq_zero hwhole)]

omit [DecidableEq ι] in
theorem spansIn_accounts (t : SpanTier) (s : Pool ι World Caches Env) (carried : ι → Multiset Token) :
    spansIn t (∑ i, (∑ k, (cacheOf s i k).stake + carried i) + s.shared.owed) = spanOut t s carried := by
  have hthread : ∀ i, spansIn t (∑ k, (cacheOf s i k).stake + carried i)
      = ∑ k, (cacheOf s i k).spanBlocks t + spansIn t (carried i) := fun i => by
    rw [spansIn_add, spansIn_sum]
    simp only [ThreadCache.spansIn_stake]
  have howed : spansIn t s.shared.owed
      = ↑(s.shared.spanLive t) + ∑ i, (s.shared.retired i).content.spanBlocks t := by
    rw [World.owed, spansIn_add]
    refine congrArg₂ (· + ·) (World.read_live (fun _ => rfl) _) ?_
    rw [spansIn, World.read_retired]
    exact Finset.sum_congr rfl fun i _ => ThreadCache.spansIn_stake t _
  rw [spansIn_add, spansIn_sum, howed, Finset.sum_congr rfl fun i _ => hthread i, spanOut,
    ← add_assoc, add_comm (Finset.sum _ _)]

/-- **Span blocks over every run.** Each block that a span has carved is free or in one place outside, a
block on an active list is of the span recorded there, the counters say how many are where, and every
block outside is of an active, mapped span of its class. For medium spans this holds until a block is
pushed on the active list of a span it is not of; for big spans always. -/
theorem span_blocks_placed {arenaStart arenaEnd : Nat} {s : Pool ι World Caches Env}
    (hreach : Reach Op.run (startPool ι arenaStart arenaEnd) s) :
    ∃ carried : ι → Multiset Token, (∀ i, (s.threads i).Idle → carried i = 0) ∧
      ∀ t, s.shared.Trusted t → SpanPlaces t s (spanOut t s carried) := by
  obtain ⟨carried, hgood, hidle⟩ := run_accounts hreach
  refine ⟨carried, fun i hi => (hidle i hi).2, fun t ht => ?_⟩
  rw [← spansIn_accounts]
  exact span_places hgood ht

theorem span_blocks_placed_packed : ∃ s : Pool (Fin 1) World Caches Env,
    (s.shared.spanLive .big).length = 1 ∧ ∃ carried : Fin 1 → Multiset Token,
      (∀ i, (s.threads i).Idle → carried i = 0) ∧
        ∀ t, s.shared.Trusted t → SpanPlaces t s (spanOut t s carried) := by
  have hrun : ((startPool (Fin 1) 1048576 67108864).exec Op.run packedRun).map
      (fun s => (s.shared.spanLive .big).length) = some 1 := by decide +kernel
  obtain ⟨s, hs, hlive⟩ := Option.map_eq_some_iff.1 hrun
  exact ⟨s, hlive, span_blocks_placed (Pool.exec_reach hs)⟩

/-! ### What is mapped is in use -/

/-- Every mapping is a page of the small heap, a span, or a large region in one of its places. What is
mapped besides, the system has refused to take back: it is off the arena and shares no byte with the
rest. -/
structure AllInUse (s : Pool ι World Caches Env) : Prop where
  small : ∀ p, ⟨p, pageSize, .small⟩ ∈ s.shared.mapped ↔ (s.shared.small.pages p).isSome = true
  span : ∀ t, s.shared.Trusted t → ∀ base n, ⟨base, n * pageSize, .span t⟩ ∈ s.shared.mapped ↔
    ((s.shared.spans t).spans base).map Span.pages = some n
  large : ∀ base n, ⟨base, n * pageSize, .large⟩ ∈ s.shared.mapped ↔ largePlaces s (base, n) = 1
  whole : ∀ e ∈ s.shared.mapped, e.len % pageSize = 0 ∧ (e.use = .small → e.len = pageSize)
  outside : ∀ e ∈ s.shared.refused, s.shared.arena e.base e.len = false
  apart : (s.shared.mapped ++ s.shared.refused).Pairwise fun a b => a.disjoint b = true

theorem looseIn_stake_other {u : Purpose} (hu : u ≠ .large) (c : ThreadCache) :
    looseIn u c.stake = 0 := by
  have hstash : looseIn u c.stash = 0 := by
    refine filterMap_eq_zero fun x hx => ?_
    obtain ⟨e, -, he⟩ := (Multiset.mem_filterMap _ _).1 hx
    unfold ThreadCache.stashed at he
    split at he
    · cases he
    · cases he
      exact if_neg fun h => hu h.symm
  rw [ThreadCache.stake, looseIn_add, hstash, looseIn,
    ThreadCache.weight_tokens_read (fun _ _ => rfl) fun _ _ _ => rfl]
  rfl

theorem looseIn_owed_other {u : Purpose} (hu : u ≠ .large) (w : World) : looseIn u w.owed = 0 := by
  rw [World.owed, looseIn_add, looseIn, looseIn, World.read_retired]
  have hlive : (↑(w.live.map Live.token) : Multiset Token).filterMap (Token.loose? u) = 0 := by
    refine filterMap_eq_zero fun x hx => ?_
    obtain ⟨⟨addr, kind⟩, -, rfl⟩ := List.mem_map.1 (Multiset.mem_coe.1 hx)
    cases kind <;> rfl
  rw [hlive, zero_add]
  exact Finset.sum_eq_zero fun i _ => looseIn_stake_other hu _

omit [DecidableEq ι] in
theorem looseIn_accounts {s : Pool ι World Caches Env} {carried : ι → Multiset Token}
    (hcarried : ∀ t, carried t = 0) {u : Purpose} (hu : u ≠ .large) :
    looseIn u (∑ t, (∑ k, (cacheOf s t k).stake + carried t) + s.shared.owed) = 0 := by
  rw [looseIn_add, looseIn_sum, looseIn_owed_other hu, add_zero]
  refine Finset.sum_eq_zero fun t _ => ?_
  rw [hcarried, add_zero, looseIn_sum]
  exact Finset.sum_eq_zero fun k _ => looseIn_stake_other hu _

theorem World.Good.mem_mapping {w : World} {m : Multiset Token} (h : w.Good m) {u : Purpose}
    {base n : Nat} : (⟨base, n * pageSize, u⟩ : Mapping) ∈ w.mapped ↔ (base, n) ∈ w.mappedOf u := by
  rw [World.mem_mappedOf]
  constructor
  · exact fun hx => ⟨_, hx, rfl, rfl, Nat.mul_div_cancel _ (by decide)⟩
  · rintro ⟨⟨b, len, use⟩, hx, rfl, rfl, rfl⟩
    have hwhole := (h.placed _ hx).whole
    dsimp only at hwhole ⊢
    rwa [Nat.div_mul_cancel (Nat.dvd_of_mod_eq_zero hwhole)]

/-- **Nothing mapped is lost.** Whenever no operation is under way, each mapping is a page or a span that its
heap knows, or a large region that is live, stashed or parked, and these are all mapped. Only where the
system refuses to unmap is there more. -/
theorem mapped_in_use {arenaStart arenaEnd : Nat} {s : Pool ι World Caches Env}
    (hreach : Reach Op.run (startPool ι arenaStart arenaEnd) s) (hidle : ∀ t, (s.threads t).Idle) :
    AllInUse s := by
  obtain ⟨carried, hgood, htidy⟩ := run_accounts hreach
  have hplaces := (large_at_rest hgood fun t => htidy t (hidle t)).places
  have hcarried : ∀ t, carried t = 0 := fun t => (htidy t (hidle t)).2
  refine ⟨fun p => ?_, fun t ht base n => ?_, fun base n => ?_, fun e he => ?_, hgood.outside,
    hgood.together⟩
  · have hext := SmallHeap.Conserves.extents (hgood.part .small) p
    rw [looseIn_accounts hcarried (by rintro ⟨⟩)] at hext
    have hone : (⟨p, pageSize, .small⟩ : Mapping) ∈ s.shared.mapped
        ↔ p ∈ (s.shared.mappedOf .small).map Prod.fst := by
      have hmem : (⟨p, 1 * pageSize, .small⟩ : Mapping) ∈ s.shared.mapped
          ↔ (p, 1) ∈ s.shared.mappedOf .small := hgood.mem_mapping
      rw [Nat.one_mul] at hmem
      rw [hmem]
      exact ⟨fun hp => Multiset.mem_map_of_mem Prod.fst hp, fun hp => hgood.page_seat hp⟩
    rw [hone, ← Multiset.count_pos, ← hext]
    split
    · rename_i hp
      exact ⟨fun _ => hp, fun _ => by simp⟩
    · rename_i hp
      exact ⟨fun hpos => absurd hpos (by simp), fun hsome => absurd hsome hp⟩
  · have hext := (hgood.part (.span t) ht).extents (base, n)
    rw [looseIn_accounts hcarried (by rintro ⟨⟩)] at hext
    rw [hgood.mem_mapping, ← Multiset.count_pos, ← hext]
    split
    · rename_i hs
      exact ⟨fun _ => hs, fun _ => by simp⟩
    · rename_i hs
      exact ⟨fun hpos => absurd hpos (by simp), fun hsome => absurd hsome hs⟩
  · rw [hplaces]
    split
    · rename_i hx
      exact ⟨fun _ => rfl, fun _ => hx⟩
    · rename_i hx
      exact ⟨fun hin => absurd hin hx, fun hone => absurd hone (by decide)⟩
  · exact ⟨(hgood.placed e he).whole, (hgood.placed e he).page⟩

/-- A small block and a region off the arena that is too large to be parked. Freed, it is not taken back. -/
def refusedRun : List (Fin 1 × (Op ⊕ Env)) :=
  alone [(.allocSmall true 63, 10, 1048576), (.allocLarge false 200000000 4 false 0, 4, 134217728),
    (.free false 134217776, 4, 0)]

theorem mapped_in_use_refused : ∃ s : Pool (Fin 1) World Caches Env,
    (s.shared.mapped, s.shared.refused)
      = ([⟨1048576, 65536, .small⟩], [⟨134217728, 200015872, .large⟩]) ∧ AllInUse s := by
  have hrun : ((startPool (Fin 1) 1048576 67108864).exec Op.run refusedRun).map
      (fun s => ((s.shared.mapped, s.shared.refused), decide (∀ t, (s.threads t).Idle)))
        = some (([⟨1048576, 65536, .small⟩], [⟨134217728, 200015872, .large⟩]), true) := by
    decide +kernel
  obtain ⟨s, hs, hend⟩ := Option.map_eq_some_iff.1 hrun
  exact ⟨s, congrArg Prod.fst hend,
    mapped_in_use (Pool.exec_reach hs) (of_decide_eq_true (congrArg Prod.snd hend))⟩

end Runs

end Allox
