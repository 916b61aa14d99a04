import Allox.Proof.Operations
import Allox.Proof.PageRelease

/-!
# What is conserved over every run

From the start, whatever the threads do and in whatever order their sections come, the accounts add up:
every block of a heap and every large region that was mapped is in one place. Between two of its sections
a running thread may carry something; an idle one carries nothing.
-/

namespace Allox

open Resumption ArrayPrefix

/-! ### Reading what a cache holds -/

section Reading

variable {β : Type} {f : Token → Option β}

theorem filterMap_sum {ι : Type} [Fintype ι] (f : Token → Option β) (g : ι → Multiset Token) :
    (∑ i, g i).filterMap f = ∑ i, (g i).filterMap f :=
  map_sum (⟨⟨Multiset.filterMap f, rfl⟩, Multiset.filterMap_add f⟩ : Multiset Token →+ Multiset β) g
    Finset.univ

theorem read_flagged {mk : Nat → Bool → Token} {g : Nat → β} (h : ∀ a z, f (mk a z) = some (g a))
    (v : Nat) (chain : List Nat) : (flagged mk v chain).filterMap f = ↑(chain.map g) := by
  induction chain with
  | nil => rfl
  | cons a rest ih =>
      rw [flagged_cons, Multiset.filterMap_add, filterMap_singleton, h, ih]
      rfl

theorem read_flagged_none {mk : Nat → Bool → Token} (h : ∀ a z, f (mk a z) = none) (v : Nat)
    (chain : List Nat) : (flagged mk v chain).filterMap f = 0 := by
  induction chain with
  | nil => rfl
  | cons a rest ih =>
      rw [flagged_cons, Multiset.filterMap_add, filterMap_singleton, h, ih]
      rfl

theorem filterMap_eq_self {α : Type} {f : α → Option α} {m : Multiset α} (h : ∀ a ∈ m, f a = some a) :
    m.filterMap f = m := by
  induction m using Multiset.induction_on with
  | empty => rfl
  | cons a m ih =>
      rw [Multiset.filterMap_cons_some _ _ _ (h a (Multiset.mem_cons_self a m)),
        ih fun b hb => h b (Multiset.mem_cons_of_mem hb)]

end Reading

namespace ThreadCache

/-- The blocks of a span tier that are in its bins or on its active lists, these with the recorded span. -/
def spanBlocks (t : SpanTier) (c : ThreadCache) : Multiset (SpanBlock t) :=
  ∑ cls, Allox.spanBlocks cls none (c.spanBins t cls).blocks
    + ∑ cls, Allox.spanBlocks cls (some (c.active t cls).span) (c.active t cls).list.blocks

/-- The entries of the stash. -/
def largeEntries (c : ThreadCache) : Multiset (Nat × Nat) := upto c.large c.largeLen

theorem spansIn_stake (t : SpanTier) (c : ThreadCache) : spansIn t c.stake = c.spanBlocks t := by
  have hstash : spansIn t c.stash = 0 := by
    refine filterMap_eq_zero fun x hx => ?_
    obtain ⟨e, -, he⟩ := (Multiset.mem_filterMap _ _).1 hx
    unfold stashed at he
    split at he
    · cases he
    · cases he
      rfl
  rw [stake, spansIn_add, hstash, add_zero]
  simp only [spansIn, weight, tiersWeight, tierWeight, Multiset.filterMap_add, filterMap_sum]
  have hbins : ∀ cls, (tokens.bin cls (c.bins cls)).filterMap (Token.span? t) = 0 :=
    fun cls => read_flagged_none (fun _ _ => rfl) _ _
  have hspans : ∀ cls, (tokens.spanBin t cls (c.spanBins t cls)).filterMap (Token.span? t)
      = Allox.spanBlocks cls none (c.spanBins t cls).blocks :=
    fun cls => read_flagged (fun _ _ => Token.span?_span _ _ _) _ _
  have hactive : ∀ cls, (tokens.active t cls (c.active t cls)).filterMap (Token.span? t)
      = Allox.spanBlocks cls (some (c.active t cls).span) (c.active t cls).list.blocks :=
    fun cls => read_flagged (fun _ _ => Token.span?_span _ _ _) _ _
  cases t with
  | medium =>
      have hspans' : ∀ cls, (tokens.spanBin .big cls (c.spanBins .big cls)).filterMap
          (Token.span? .medium) = 0 := fun cls => read_flagged_none (fun _ _ => rfl) _ _
      have hactive' : ∀ cls, (tokens.active .big cls (c.active .big cls)).filterMap
          (Token.span? .medium) = 0 := fun cls => read_flagged_none (fun _ _ => rfl) _ _
      simp [hbins, hspans, hactive, hspans', hactive', spanBlocks]
  | big =>
      have hspans' : ∀ cls, (tokens.spanBin .medium cls (c.spanBins .medium cls)).filterMap
          (Token.span? .big) = 0 := fun cls => read_flagged_none (fun _ _ => rfl) _ _
      have hactive' : ∀ cls, (tokens.active .medium cls (c.active .medium cls)).filterMap
          (Token.span? .big) = 0 := fun cls => read_flagged_none (fun _ _ => rfl) _ _
      simp [hbins, hspans, hactive, hspans', hactive', spanBlocks]

theorem weight_tokens_read {β : Type} {f : Token → Option β} (hblock : ∀ b z, f (.block b z) = none)
    (hspan : ∀ t b z, f (.span t b z) = none) (c : ThreadCache) :
    (c.weight tokens).filterMap f = 0 := by
  simp only [weight, tiersWeight, tierWeight, Multiset.filterMap_add, filterMap_sum]
  have hbins : ∀ cls, (tokens.bin cls (c.bins cls)).filterMap f = 0 :=
    fun cls => read_flagged_none (fun _ _ => hblock _ _) _ _
  have hspans : ∀ (t : SpanTier) cls, (tokens.spanBin t cls (c.spanBins t cls)).filterMap f = 0 :=
    fun t cls => read_flagged_none (fun _ _ => hspan _ _ _) _ _
  have hactive : ∀ (t : SpanTier) cls, (tokens.active t cls (c.active t cls)).filterMap f = 0 :=
    fun t cls => read_flagged_none (fun _ _ => hspan _ _ _) _ _
  simp [hbins, hspans, hactive]

theorem regionsIn_stake (c : ThreadCache) : regionsIn c.stake = 0 := by
  have hstash : regionsIn c.stash = 0 := by
    refine filterMap_eq_zero fun x hx => ?_
    obtain ⟨e, -, he⟩ := (Multiset.mem_filterMap _ _).1 hx
    unfold stashed at he
    split at he
    · cases he
    · cases he
      rfl
  rw [stake, regionsIn_add, hstash, regionsIn, weight_tokens_read (fun _ _ => rfl) fun _ _ _ => rfl]
  rfl

theorem looseIn_stake {c : ThreadCache} (h : c.Ok) : looseIn .large c.stake = c.largeEntries := by
  rw [stake, looseIn_add, looseIn, weight_tokens_read (fun _ _ => rfl) fun _ _ _ => rfl, zero_add]
  unfold looseIn stash
  rw [Multiset.filterMap_filterMap]
  have hread : ∀ e ∈ upto c.large c.largeLen, (stashed e).bind (Token.loose? .large) = some e := by
    intro e he
    obtain ⟨i, hi, rfl⟩ := mem_upto.1 he
    have hpages : (c.large i).2 * pageSize / pageSize = (c.large i).2 :=
      Nat.mul_div_cancel _ (by decide)
    simp [stashed, (h.occupied i hi).1, Token.loose?, Mapping.pages?, hpages]
  exact filterMap_eq_self hread

end ThreadCache

/-! ### Reading what the shared state owes -/

namespace RetiredSlot

/-- The cache in a slot; between two states the slot has none. -/
def content : RetiredSlot → ThreadCache
  | ready c => c
  | _ => .new

theorem stake_content (s : RetiredSlot) : s.stake = s.content.stake := by
  cases s with
  | ready c => rfl
  | _ => exact Sys.new_stake.symm

end RetiredSlot

namespace World

def largeLive (w : World) : List Nat :=
  w.live.filterMap fun x => match x.kind with
    | .large => some x.addr
    | _ => none

theorem read_live {β : Type} {f : Token → Option β} {g : Live → Option β}
    (h : ∀ x, f (Live.token x) = g x) (w : World) :
    (↑(w.live.map Live.token) : Multiset Token).filterMap f = ↑(w.live.filterMap g) := by
  rw [Multiset.filterMap_coe, List.filterMap_map]
  congr 2
  exact funext h

theorem read_retired {β : Type} (f : Token → Option β) (w : World) :
    (∑ i, (w.retired i).stake).filterMap f = ∑ i, (w.retired i).content.stake.filterMap f := by
  rw [filterMap_sum]
  exact Finset.sum_congr rfl fun i _ => by rw [RetiredSlot.stake_content]

theorem regionsIn_owed (w : World) : regionsIn w.owed = ↑w.largeLive := by
  rw [owed, regionsIn_add, regionsIn, regionsIn, read_retired, largeLive]
  have hnone : ∑ i, (w.retired i).content.stake.filterMap Token.region? = 0 :=
    Finset.sum_eq_zero fun i _ => ThreadCache.regionsIn_stake _
  rw [hnone, add_zero]
  refine read_live (fun x => ?_) w
  obtain ⟨addr, kind⟩ := x
  cases kind <;> rfl

theorem looseIn_owed {w : World} (h : ∀ i c, w.retired i = .ready c → c.Ok) :
    looseIn .large w.owed = ∑ i, (w.retired i).content.largeEntries := by
  rw [owed, looseIn_add, looseIn, looseIn, read_retired]
  have hlive : (↑(w.live.map Live.token) : Multiset Token).filterMap (Token.loose? .large) = 0 := by
    refine filterMap_eq_zero fun x hx => ?_
    obtain ⟨y, -, rfl⟩ := List.mem_map.1 (Multiset.mem_coe.1 hx)
    obtain ⟨addr, kind⟩ := y
    cases kind <;> rfl
  rw [hlive, zero_add]
  refine Finset.sum_congr rfl fun i _ => ?_
  have hok : (w.retired i).content.Ok := by
    cases hslot : w.retired i with
    | ready c => exact h i c hslot
    | _ => exact ThreadCache.Ok.new
  exact ThreadCache.looseIn_stake hok

end World

/-! ### All runs -/

section Runs

variable {ι : Type} [DecidableEq ι] [Fintype ι]

/-- Nothing is mapped, and every thread has an empty cache. -/
def startPool (ι : Type) (arenaStart arenaEnd : Nat) : Pool ι World Caches Env :=
  { shared := World.init arenaStart arenaEnd, threads := fun _ => .done (fun _ => .new) () }

theorem SpanHeap.new_books (arena : Nat → Nat → Bool) (t : SpanTier) :
    (SpanHeap.new : SpanHeap t).Conserves arena 0 0 0 where
  extents _ := rfl
  mapped := ⟨Multiset.nodup_zero, fun e he => absurd he (Multiset.notMem_zero e),
    fun e he => absurd he (Multiset.notMem_zero e)⟩
  span _ _ h := by cases h
  home b hb := absurd hb (Multiset.notMem_zero b)
  masters _ _ h := by cases h
  head _ := ⟨List.nodup_nil, fun _ hs => absurd hs List.not_mem_nil⟩
  empty _ := ⟨List.nodup_nil, fun _ hs => absurd hs List.not_mem_nil⟩
  cold _ := ⟨List.nodup_nil, fun _ hs => absurd hs List.not_mem_nil⟩

theorem World.init_good (arenaStart arenaEnd : Nat) : (World.init arenaStart arenaEnd).Good 0 where
  part u := by
    cases u with
    | small => exact SmallHeap.new_books
    | span t => exact fun _ => SpanHeap.new_books _ t
    | large =>
        refine ⟨fun p hp => absurd hp (Multiset.notMem_zero p), ?_, ?_⟩
        · show _ + _ + ∑ i, LargeRegionCache.new.regions = 0
          simp only [Finset.sum_const]
          rfl
        · exact ⟨fun p hp => absurd hp (Multiset.notMem_zero p), fun u hu => absurd rfl hu, fun _ => rfl⟩
  whole x hx := absurd hx (Multiset.notMem_zero x)
  placed e he := absurd he List.not_mem_nil
  together := List.Pairwise.nil
  outside e he := absurd he List.not_mem_nil
  retired _ _ h := by cases h

/-- What the caches of a pool have. -/
def cacheOf (s : Pool ι World Caches Env) (t : ι) (k : Slot) : ThreadCache := (s.threads t).own k

theorem sum_slots {M : Type} [AddCommMonoid M] (f : Slot → M) : ∑ k, f k = f .self + f .adopted :=
  Finset.sum_pair (by decide)

/-- **The accounts of every run.** Whatever is not in the heaps and shards is in a cache, live, or carried by
a thread between two of its sections. -/
theorem run_accounts {arenaStart arenaEnd : Nat} {s : Pool ι World Caches Env}
    (hreach : Reach Op.run (startPool ι arenaStart arenaEnd) s) :
    ∃ carried : ι → Multiset Token,
      s.shared.Good (∑ t, (∑ k, (cacheOf s t k).stake + carried t) + s.shared.owed) ∧
      ∀ t, (s.threads t).Idle → (∀ k, (cacheOf s t k).Ok) ∧ carried t = 0 := by
  have hstake : ∑ _t : ι, displayed (fun _ => ThreadCache.new) = 0 := by
    refine Finset.sum_eq_zero fun t _ => ?_
    simp [displayed, cachesStake, Sys.new_stake]
  have hinit : (startPool ι arenaStart arenaEnd).Inv World.Holds displayed Sys.Tidy := by
    refine Pool.Inv.rest (fun _ => rfl) (fun _ => ⟨ThreadCache.Ok.new, rfl⟩) ?_
    rw [hstake]
    refine ⟨?_, fun i => rfl⟩
    have howed : (World.init arenaStart arenaEnd).owed = 0 := by
      simp [World.owed, World.init, RetiredSlot.stake]
    show World.Good _ (0 + (World.init arenaStart arenaEnd).owed)
    rw [howed]
    exact World.init_good arenaStart arenaEnd
  have hops : ∀ (op : Op) l, Sys.Tidy l → Pays World.Holds displayed Sys.Tidy (op.run.run l) (displayed l) := by
    intro op l hl
    refine Runs.pays World.Holds displayed Sys.Tidy (Runs.mono ((Sys.calm_run op l 0 hl).runs 0) ?_)
    rintro _ l' ⟨_, _⟩ ⟨rfl, hl', rfl⟩
    exact ⟨hl', rfl⟩
  obtain ⟨hand, ⟨hgood, -⟩, hidle⟩ := (hinit.reach hops hreach).displays
  refine ⟨fun t => (hand t).1, ?_, fun t ht => ?_⟩
  · have hfst : (∑ t, (displayed (s.threads t).own + hand t)).1
        = ∑ t, (∑ k, (cacheOf s t k).stake + (hand t).1) := by
      rw [Prod.fst_sum]
      refine Finset.sum_congr rfl fun t _ => ?_
      rw [sum_slots]
      rfl
    rwa [hfst] at hgood
  · obtain ⟨htidy, hhand⟩ := hidle t ht
    refine ⟨fun k => ?_, congrArg Prod.fst hhand⟩
    cases k with
    | self => exact htidy.self
    | adopted =>
        show ((s.threads t).own .adopted).Ok
        rw [htidy.adopted]
        exact ThreadCache.Ok.new

theorem looseIn_sum {κ : Type} [Fintype κ] (u : Purpose) (g : κ → Multiset Token) :
    looseIn u (∑ i, g i) = ∑ i, looseIn u (g i) := filterMap_sum _ g

theorem regionsIn_sum {κ : Type} [Fintype κ] (g : κ → Multiset Token) :
    regionsIn (∑ i, g i) = ∑ i, regionsIn (g i) := filterMap_sum _ g

theorem spansIn_sum {κ : Type} [Fintype κ] (t : SpanTier) (g : κ → Multiset Token) :
    spansIn t (∑ i, g i) = ∑ i, spansIn t (g i) := filterMap_sum _ g

/-! ### Large regions -/

/-- In how many places a region of `pages` pages at `base` is: live, in the stash of a thread, in the stash of a
retired cache, or on the hot or the cold list of a shard. -/
def largePlaces (s : Pool ι World Caches Env) (e : Nat × Nat) : Nat :=
  ((↑s.shared.largeLive : Multiset Nat).map s.shared.regionAt).count e
    + ∑ t, ∑ k, (cacheOf s t k).largeEntries.count e
    + ∑ i, (s.shared.retired i).content.largeEntries.count e
    + ∑ i, ((s.shared.shards i).hot.regions.count e + (s.shared.shards i).cold.regions.count e)

/-- What holds of the large regions between operations. -/
structure LargeConserved (s : Pool ι World Caches Env) : Prop where
  places : ∀ base pages, largePlaces s (base, pages)
    = if (⟨base, pages * pageSize, .large⟩ : Mapping) ∈ s.shared.mapped then 1 else 0
  live : ∀ p ∈ s.shared.largeLive, ∃ g, s.shared.HeaderOk p g ∧
    (⟨g.base, g.mappedSize, .large⟩ : Mapping) ∈ s.shared.mapped ∧
    if s.shared.arena g.base g.mappedSize then
      ∀ u, g.base / pageSize ≤ u → u < (g.base + g.mappedSize) / pageSize →
        s.shared.largeTable u = p - largeHeaderSize
    else p - largeHeaderSize ∈ s.shared.registry (legacyBucket (p - largeHeaderSize))
  apart : s.shared.largeLive.Pairwise fun p q => Apart (s.shared.regionAt p) (s.shared.regionAt q)

theorem count_mappedOf {w : World} {m : Multiset Token} (h : w.Good m) (base pages : Nat) :
    (w.mappedOf .large).count (base, pages)
      = if (⟨base, pages * pageSize, .large⟩ : Mapping) ∈ w.mapped then 1 else 0 := by
  have hnodup : (w.mappedOf .large).Nodup :=
    Multiset.Nodup.of_map _ (World.mapped_nodup h.placed h.apart .large)
  have hmem : (base, pages) ∈ w.mappedOf .large
      ↔ (⟨base, pages * pageSize, .large⟩ : Mapping) ∈ w.mapped := by
    rw [World.mem_mappedOf]
    constructor
    · rintro ⟨⟨b, len, use⟩, hx, rfl, rfl, rfl⟩
      have hwhole := (h.placed _ hx).whole
      rwa [Nat.div_mul_cancel (Nat.dvd_of_mod_eq_zero hwhole)]
    · intro hx
      exact ⟨_, hx, rfl, rfl, Nat.mul_div_cancel _ (by decide)⟩
  split
  · rename_i hx
    exact Multiset.count_eq_one_of_mem hnodup (hmem.2 hx)
  · rename_i hx
    exact Multiset.count_eq_zero_of_notMem fun hin => hx (hmem.1 hin)

omit [DecidableEq ι] in
theorem large_accounts {s : Pool ι World Caches Env} {m : Multiset Token} (h : s.shared.Good m)
    (hregions : regionsIn m = ↑s.shared.largeLive)
    (hloose : looseIn .large m = ∑ t, ∑ k, (cacheOf s t k).largeEntries
      + ∑ i, (s.shared.retired i).content.largeEntries) : LargeConserved s := by
  obtain ⟨hheaders, hextents, hreg⟩ := h.part .large
  rw [hregions] at hheaders hreg
  have hmapped : ∀ p ∈ s.shared.largeLive, s.shared.regionAt p ∈ s.shared.mappedOf .large := fun p hp =>
    h.region_mapped (by
      rw [hregions]
      exact hp)
  refine ⟨fun base pages => ?_, fun p hp => ?_, ?_⟩
  · rw [← count_mappedOf h, ← hextents, hregions, hloose]
    simp only [Multiset.count_add, Multiset.count_sum', LargeRegionCache.regions, largePlaces]
    omega
  · obtain ⟨g, hg⟩ := hheaders p hp
    have hat := hg.regionAt
    have hpages := hg.pages
    obtain ⟨⟨b, len, use⟩, hx, huse, hbase, hlen⟩ := World.mem_mappedOf.1 (hmapped p hp)
    have hwhole := (h.placed _ hx).whole
    rw [hat] at hbase hlen
    dsimp only at huse hbase hlen hwhole
    have hsame : len = g.mappedSize := by
      have hg' := hg.whole
      simp only [pageSize] at hlen hwhole hg'
      omega
    subst huse hbase hsame
    refine ⟨g, hg, hx, ?_⟩
    rw [hat] at hpages
    dsimp only at hpages
    split
    · rename_i harena
      intro u hlo hhi
      refine hreg.table p hp ?_ u ?_ ?_
      · rw [hat]
        dsimp only
        rw [hpages]
        exact harena
      · rw [hat]
        exact hlo
      · rw [hat]
        have haligned := (h.placed _ hx).aligned (.inr harena)
        dsimp only at haligned ⊢
        simp only [pageSize] at hhi haligned hwhole ⊢
        omega
    · rename_i harena
      rw [← Multiset.mem_coe, hreg.registry]
      refine Multiset.mem_map.2 ⟨p, Multiset.mem_filter.2 ⟨hp, ?_, rfl⟩, rfl⟩
      rw [hat]
      dsimp only
      rw [hpages]
      exact Bool.not_eq_true _ ▸ harena
  · have hnodup : (s.shared.mappedOf .large).Nodup :=
      Multiset.Nodup.of_map _ (World.mapped_nodup h.placed h.apart .large)
    rw [← hextents, hregions, add_assoc, Multiset.map_coe, Multiset.nodup_add] at hnodup
    have hlive := List.pairwise_map.1 (Multiset.coe_nodup.1 hnodup.1)
    refine hlive.imp_of_mem fun hp hq hne => ?_
    exact World.mapped_apart h.placed h.apart (hmapped _ hp) (hmapped _ hq) hne

omit [DecidableEq ι] in
/-- The accounts of a run, where every thread is between two operations. -/
theorem large_at_rest {s : Pool ι World Caches Env} {carried : ι → Multiset Token}
    (hgood : s.shared.Good (∑ t, (∑ k, (cacheOf s t k).stake + carried t) + s.shared.owed))
    (hrest : ∀ t, (∀ k, (cacheOf s t k).Ok) ∧ carried t = 0) : LargeConserved s := by
  refine large_accounts hgood ?_ ?_
  · simp only [regionsIn_add, regionsIn_sum, World.regionsIn_owed, ThreadCache.regionsIn_stake]
    have hnone : ∀ t, regionsIn (carried t) = 0 := fun t => by
      rw [(hrest t).2]
      rfl
    simp [hnone]
  · simp only [looseIn_add, looseIn_sum, World.looseIn_owed hgood.retired]
    refine congrArg₂ (· + ·) (Finset.sum_congr rfl fun t _ => ?_) rfl
    obtain ⟨hok, hnone⟩ := hrest t
    rw [hnone, show looseIn .large 0 = 0 from rfl, add_zero]
    exact Finset.sum_congr rfl fun k _ => ThreadCache.looseIn_stake (hok k)

/-- **Every large region is in one place.** Whenever no operation is under way, each region that is mapped is
live, in one stash, on one hot or on one cold list, with exactly the extent it is mapped with; what is in
no place is not mapped. -/
theorem large_regions_conserved {arenaStart arenaEnd : Nat} {s : Pool ι World Caches Env}
    (hreach : Reach Op.run (startPool ι arenaStart arenaEnd) s) (hidle : ∀ t, (s.threads t).Idle) :
    LargeConserved s := by
  obtain ⟨carried, hgood, htidy⟩ := run_accounts hreach
  exact large_at_rest hgood fun t => htidy t (hidle t)

/-- A thread by itself: each operation with the number of its sections, and where they would map. -/
def alone (ops : List (Op × Nat × Nat)) : List (Fin 1 × (Op ⊕ Env)) :=
  ops.flatMap fun x => (0, .inl x.1) ::
    List.replicate x.2.1 (0, .inr ⟨true, x.2.2, fun _ => ⟨false, false⟩, 0, false⟩)

/-- Of three regions on the arena the second grows in place, the first goes to the stash of its thread and
the third to a shard. -/
def largeRun : List (Fin 1 × (Op ⊕ Env)) :=
  alone [(.allocLarge false 300000 4 false 0, 4, 1048576), (.allocLarge false 500000 4 false 0, 4, 2097152),
    (.allocLarge false 400000 4 false 0, 4, 4194304), (.grow 2097200 700000, 3, 0),
    (.free true 1048624, 4, 0), (.free false 4194352, 3, 0)]

theorem large_regions_conserved_freed : ∃ s : Pool (Fin 1) World Caches Env,
    (startPool (Fin 1) 1048576 67108864).exec Op.run largeRun = some s ∧
      (s.shared.mapped.map Mapping.len, s.shared.largeLive, (cacheOf s 0 .self).largeLen)
        = ([720896, 458752, 327680], [2097200], 1) ∧ LargeConserved s := by
  obtain ⟨s, hs, hidle, hlive⟩ :
      ∃ s, (startPool (Fin 1) 1048576 67108864).exec Op.run largeRun = some s ∧
        (∀ t, (s.threads t).Idle) ∧
        (s.shared.mapped.map Mapping.len, s.shared.largeLive, (cacheOf s 0 .self).largeLen)
          = ([720896, 458752, 327680], [2097200], 1) :=
    ⟨_, rfl, fun t => match t with
      | 0 => trivial, rfl⟩
  exact ⟨s, hs, hlive, large_regions_conserved (Pool.exec_reach hs) hidle⟩

end Runs

end Allox
