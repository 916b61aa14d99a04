import Allox.ZeroedRegions

/-!
# Regions known to be zeroed read as zero

Every region is in one place, and the place says which of its bytes have to be zero: all of them while it is
carried or parked as zeroed, those behind the header once it is placed. A step moves one region and writes to
no byte outside it, so what it leaves of the other regions holds as before.
-/

namespace Allox

open Function ArrayPrefix

/-! ### Deeds -/

/-- A region, and the bytes of it that are zero if it is zeroed. -/
structure Deed where
  region : Nat × Nat
  low : Nat
  high : Nat
  zeroed : Bool

namespace Deed

def whole (e : Nat × Nat) (zeroed : Bool) : Deed := ⟨e, e.1, e.1 + e.2 * pageSize, zeroed⟩

def Fits (g : Deed) : Prop := g.region.1 ≤ g.low ∧ g.high ≤ g.region.1 + g.region.2 * pageSize

def Kept (mem : Nat → UInt8) (g : Deed) : Prop :=
  g.zeroed = true → ∀ a, g.low ≤ a → a < g.high → mem a = 0

theorem whole_fits (e : Nat × Nat) (zeroed : Bool) : (whole e zeroed).Fits := ⟨le_refl _, le_refl _⟩

theorem kept_of_dirty {mem : Nat → UInt8} {g : Deed} (hz : g.zeroed = false) : g.Kept mem := by
  intro hzeroed
  rw [hz] at hzeroed
  cases hzeroed

theorem Kept.congr {mem mem' : Nat → UInt8} {g : Deed} (h : g.Kept mem)
    (hmem : ∀ a, g.low ≤ a → a < g.high → mem' a = mem a) : g.Kept mem' := by
  intro hz a hlow hhigh
  rw [hmem a hlow hhigh]
  exact h hz a hlow hhigh

end Deed

/-- No two deeds are for one byte, and all of them hold. -/
structure Honest (mem : Nat → UInt8) (m : Multiset Deed) : Prop where
  extents : Extents (m.map Deed.region)
  below : ∀ g ∈ m, g.region.1 + g.region.2 * pageSize ≤ addressLimit
  fits : ∀ g ∈ m, g.Fits
  kept : ∀ g ∈ m, g.Kept mem

namespace Honest

variable {mem mem' : Nat → UInt8} {m A R : Multiset Deed} {g g' : Deed}

theorem zero (mem : Nat → UInt8) : Honest mem 0 := by
  refine ⟨⟨Multiset.nodup_zero, ?_, ?_⟩, ?_, ?_, ?_⟩
  · exact fun e he => absurd he (Multiset.notMem_zero _)
  · exact fun e he => absurd he (Multiset.notMem_zero _)
  · exact fun g hg => absurd hg (Multiset.notMem_zero _)
  · exact fun g hg => absurd hg (Multiset.notMem_zero _)
  · exact fun g hg => absurd hg (Multiset.notMem_zero _)

theorem drop (h : Honest mem (A + R)) : Honest mem R := by
  have hsub : ∀ g ∈ R, g ∈ A + R := fun g hg => Multiset.mem_add.2 (.inr hg)
  have hext := h.extents
  rw [Multiset.map_add] at hext
  have hext' : ∀ e ∈ R.map Deed.region, e ∈ A.map Deed.region + R.map Deed.region :=
    fun e he => Multiset.mem_add.2 (.inr he)
  refine ⟨⟨(Multiset.nodup_add.1 hext.distinct).2.1, ?_, ?_⟩, ?_, ?_, ?_⟩
  · exact fun e he e' he' hne => hext.apart e (hext' e he) e' (hext' e' he') hne
  · exact fun e he => hext.aligned e (hext' e he)
  · exact fun g hg => h.below g (hsub g hg)
  · exact fun g hg => h.fits g (hsub g hg)
  · exact fun g hg => h.kept g (hsub g hg)

/-- Nothing of another region is in this one. -/
theorem outside (hext : Extents ({g.region} + R.map Deed.region)) (hg' : g' ∈ R) {a : Nat}
    (hin : InExtent g'.region a) : ¬InExtent g.region a := by
  have hmem : g'.region ∈ R.map Deed.region := Multiset.mem_map_of_mem _ hg'
  have hne : g'.region ≠ g.region := by
    intro heq
    have hdisjoint := (Multiset.nodup_add.1 hext.distinct).2.2
    exact Multiset.disjoint_left.1 hdisjoint (Multiset.mem_singleton.2 heq) hmem
  have hapart := hext.apart _ (Multiset.mem_add.2 (.inr hmem)) _
    (Multiset.mem_add.2 (.inl (Multiset.mem_singleton_self _))) hne
  unfold Apart at hapart
  unfold InExtent at *
  omega

/-- A region comes for others, and what is written is in it. -/
theorem replace (h : Honest mem (A + R)) (hext : Extents ({g.region} + R.map Deed.region))
    (hbelow : g.region.1 + g.region.2 * pageSize ≤ addressLimit) (hfits : g.Fits)
    (helsewhere : ∀ a, ¬InExtent g.region a → mem' a = mem a) (hkept : g.Kept mem') :
    Honest mem' ({g} + R) := by
  have hrest := h.drop
  refine ⟨?_, fun y hy => ?_, fun y hy => ?_, fun y hy => ?_⟩
  · rw [Multiset.map_add, Multiset.map_singleton]
    exact hext
  · rcases Multiset.mem_add.1 hy with hself | hold
    · rw [Multiset.mem_singleton.1 hself]
      exact hbelow
    · exact hrest.below y hold
  · rcases Multiset.mem_add.1 hy with hself | hold
    · rw [Multiset.mem_singleton.1 hself]
      exact hfits
    · exact hrest.fits y hold
  · rcases Multiset.mem_add.1 hy with hself | hold
    · rw [Multiset.mem_singleton.1 hself]
      exact hkept
    · apply (hrest.kept y hold).congr
      intro a hlow hhigh
      obtain ⟨hfrom, hto⟩ := hrest.fits y hold
      exact helsewhere a (outside hext hold ⟨hfrom.trans hlow, hhigh.trans_le hto⟩)

/-- One region changes its place, and what is written is in it. -/
theorem change (h : Honest mem ({g} + R)) (hregion : g'.region = g.region) (hfits : g'.Fits)
    (helsewhere : ∀ a, ¬InExtent g.region a → mem' a = mem a) (hkept : g'.Kept mem') :
    Honest mem' ({g'} + R) := by
  have hext := h.extents
  rw [Multiset.map_add, Multiset.map_singleton] at hext
  have hbelow := h.below g (Multiset.mem_add.2 (.inl (Multiset.mem_singleton_self _)))
  rw [← hregion] at hext hbelow helsewhere
  exact h.replace hext hbelow hfits helsewhere hkept

end Honest

/-! ### Stashes and shards -/

theorem ThreadCache.removeStash_entries {c : ThreadCache} {i : Nat} (hi : i < c.largeLen) :
    c.largeEntries = {(c.removeStash i).1} + (c.removeStash i).2.largeEntries := by
  obtain ⟨n, hn⟩ : ∃ n, c.largeLen = n + 1 := ⟨c.largeLen - 1, by omega⟩
  have hlarge : (c.removeStash i).2.largeEntries
      = upto (update (update c.large i (c.large n)) n (0, 0)) n := by
    unfold largeEntries removeStash
    dsimp only
    rw [hn, Nat.add_sub_cancel]
  have hentry : (c.removeStash i).1 = c.large i := rfl
  rw [hlarge, hentry, upto_update_of_le le_rfl]
  unfold largeEntries
  rw [hn, upto_swapRemove (Nat.le_of_lt_succ (hn ▸ hi))]

theorem ThreadCache.pushLargeStash_entries {c c' : ThreadCache} {base pages : Nat}
    (hpush : c.pushLargeStash base pages = some c') :
    c'.largeEntries = {(base, pages)} + c.largeEntries := by
  unfold pushLargeStash at hpush
  dsimp only at hpush
  generalize (if largeStashHugeThreshold ≤ pages * pageSize then largeStashHugeCapBytes
    else largeStashCapBytes) = cap at hpush
  split at hpush
  · cases hpush
  · cases hpush
    exact upto_append (base, pages)

namespace LargeRegionCache

theorem removeHot_items {s : LargeRegionCache} {i : Nat} (hi : i < s.hot.len) :
    s.items = {(s.removeHot i).2} + (s.removeHot i).1.items := by
  have h := RegionArray.remove_items hi
  simp only [items, removeHot]
  rw [h, add_assoc]

theorem removeCold_items {s : LargeRegionCache} {i : Nat} (hi : i < s.cold.len) :
    s.items = {(s.removeCold i).2} + (s.removeCold i).1.items := by
  have h := RegionArray.remove_items hi
  simp only [items, removeCold]
  rw [h, add_left_comm]

/-- What is taken is what the shard loses, with its flags. -/
theorem takeFit_items (s : LargeRegionCache) (mapped : Nat) :
    s.items = ((s.takeFit mapped).2.elim 0 fun x => {x}) + (s.takeFit mapped).1.items := by
  unfold takeFit
  dsimp only
  split
  all_goals dsimp only [Option.elim]
  · rename_i h
    exact removeHot_items (RegionArray.exactAt_lt h)
  · rename_i h
    exact removeCold_items (RegionArray.exactAt_lt h)
  · rename_i h
    exact removeHot_items (RegionArray.firstEqual_lt h)
  · rename_i h
    exact removeCold_items (RegionArray.firstEqual_lt h)
  · rename_i h
    exact removeHot_items (RegionArray.bestFit_lt h)
  · rename_i h
    exact removeCold_items (RegionArray.bestFit_lt h)
  · rw [zero_add]

/-- The region is in the shard as its fate says, or the shard is as it was. -/
theorem park_items (s : LargeRegionCache) (d : Discarded) (base pages mapped : Nat) :
    (∃ x, x.region = (base, pages) ∧ (s.park d base pages mapped).1.items = {x} + s.items ∧
        (∀ bytes, (s.park d base pages mapped).2 ≠ .unmap bytes) ∧
        (x.zeroed = true → d.zeroed = true ∧ (s.park d base pages mapped).2 = .cooled d)) ∨
      (s.park d base pages mapped).2 = .unmap mapped ∧ (s.park d base pages mapped).1 = s := by
  unfold park
  dsimp only
  split
  · refine .inl ⟨⟨base, pages, false, false⟩, rfl, ?_, by rintro _ ⟨⟩, by rintro ⟨⟩⟩
    simp only [items, RegionArray.push_items, add_assoc]
  · split
    · refine .inl ⟨⟨base, pages, d.zeroed, d.physical && !d.zeroed⟩, rfl, ?_, by rintro _ ⟨⟩,
        fun hz => ⟨hz, rfl⟩⟩
      simp only [items, RegionArray.push_items, add_left_comm]
    · exact .inr ⟨rfl, rfl⟩

end LargeRegionCache

/-! ### The tier -/

def PlacedRegion.deed (x : PlacedRegion) : Deed := ⟨x.region, x.ret, x.ret + x.size, x.zeroed⟩

def TakenRegion.deed (x : TakenRegion) : Deed := .whole x.region x.zeroed

namespace RegionStore

variable {ι : Type} [Fintype ι] {s s' : RegionStore ι} {e : Nat × Nat} {zeroed : Bool} {x : PlacedRegion}
  {hand : Multiset ((Nat × Nat) × Bool)} {placed : Multiset PlacedRegion} {live : Multiset (Nat × Nat)}
  {mem : Nat → UInt8} {a : Nat}

def stashDeeds (c : ThreadCache) : Multiset Deed := c.largeEntries.map fun e => .whole e false

def shardDeeds (c : LargeRegionCache) : Multiset Deed := c.items.map TakenRegion.deed

def handDeeds (hand : Multiset ((Nat × Nat) × Bool)) : Multiset Deed := hand.map fun x => .whole x.1 x.2

def liveDeeds (live : Multiset (Nat × Nat)) : Multiset Deed := live.map fun e => .whole e false

/-- What every place has. -/
def deeds (s : RegionStore ι) : Multiset Deed :=
  handDeeds s.hand + (s.placed.map PlacedRegion.deed + (liveDeeds s.live
    + (∑ t, stashDeeds (s.stashes t) + ∑ i, shardDeeds (s.shards i))))

theorem deeds_regions (s : RegionStore ι) : s.deeds.map Deed.region = s.regions := by
  have hsum : ∀ {κ : Type} [Fintype κ] (f : κ → Multiset Deed),
      (∑ k, f k).map Deed.region = ∑ k, (f k).map Deed.region :=
    fun f => map_sum (Multiset.mapAddMonoidHom Deed.region) f Finset.univ
  unfold deeds regions handDeeds liveDeeds
  rw [Multiset.map_add, Multiset.map_add, Multiset.map_add, Multiset.map_add, hsum, hsum,
    Multiset.map_map, Multiset.map_map, Multiset.map_map]
  congr 1
  congr 1
  congr 1
  · exact Multiset.map_id' _
  · congr 1
    · apply Finset.sum_congr rfl
      intro t _
      unfold stashDeeds
      rw [Multiset.map_map]
      exact Multiset.map_id' _
    · apply Finset.sum_congr rfl
      intro i _
      unfold shardDeeds
      rw [Multiset.map_map]
      rfl

/-- One of a family gives something up. -/
theorem sum_take {κ β : Type} [Fintype κ] [DecidableEq κ] (f : β → Multiset Deed) (v : κ → β) (k : κ)
    {x : β} {A : Multiset Deed} (hx : f (v k) = A + f x) :
    ∑ j, f (v j) = A + ∑ j, f (update v k x j) := by
  have hsum := sum_update_add (fun _ => f) v k x
  apply add_right_cancel (b := f x)
  calc
    ∑ j, f (v j) + f x = ∑ j, f (update v k x j) + f (v k) := hsum.symm
    _ = A + ∑ j, f (update v k x j) + f x := by
      rw [hx]
      ac_rfl

theorem sum_push {κ β : Type} [Fintype κ] [DecidableEq κ] (f : β → Multiset Deed) (v : κ → β) (k : κ)
    {x : β} {A : Multiset Deed} (hx : f x = A + f (v k)) :
    ∑ j, f (update v k x j) = A + ∑ j, f (v j) := by
  have hback := sum_take f (update v k x) k (x := v k) (by rwa [update_self])
  rwa [update_idem, update_eq_self] at hback

theorem deeds_new (mem : Nat → UInt8) : (new ι mem).deeds = 0 := by
  have hstashes : ∑ t, stashDeeds ((new ι mem).stashes t) = 0 := Finset.sum_eq_zero fun _ _ => rfl
  have hshards : ∑ i, shardDeeds ((new ι mem).shards i) = 0 := Finset.sum_eq_zero fun _ _ => rfl
  unfold deeds
  rw [hstashes, hshards]
  rfl

/-! ### One region set aside -/

theorem deeds_hand (hhand : s.hand = {(e, zeroed)} + hand) :
    s.deeds = {.whole e zeroed} + deeds { s with hand } := by
  unfold deeds handDeeds
  rw [hhand, Multiset.map_add, Multiset.map_singleton, add_assoc]

theorem deeds_placed (hplaced : s.placed = {x} + placed) :
    s.deeds = {x.deed} + deeds { s with placed } := by
  unfold deeds
  rw [hplaced, Multiset.map_add, Multiset.map_singleton]
  ac_rfl

theorem deeds_live (hlive : s.live = {e} + live) :
    s.deeds = {.whole e false} + deeds { s with live } := by
  unfold deeds liveDeeds
  rw [hlive, Multiset.map_add, Multiset.map_singleton]
  ac_rfl

section Families

variable [DecidableEq ι]

theorem deeds_takeStash (t : ι) {c : ThreadCache}
    (hc : (s.stashes t).largeEntries = {e} + c.largeEntries) :
    s.deeds = {.whole e false} + deeds { s with stashes := update s.stashes t c } := by
  have hdeeds : stashDeeds (s.stashes t) = {.whole e false} + stashDeeds c := by
    unfold stashDeeds
    rw [hc, Multiset.map_add, Multiset.map_singleton]
  unfold deeds
  rw [sum_take stashDeeds s.stashes t hdeeds]
  ac_rfl

theorem deeds_pushStash (t : ι) {c : ThreadCache}
    (hc : c.largeEntries = {e} + (s.stashes t).largeEntries) :
    deeds { s with stashes := update s.stashes t c } = {.whole e false} + s.deeds := by
  have hdeeds : stashDeeds c = {.whole e false} + stashDeeds (s.stashes t) := by
    unfold stashDeeds
    rw [hc, Multiset.map_add, Multiset.map_singleton]
  unfold deeds
  dsimp only
  rw [sum_push stashDeeds s.stashes t hdeeds]
  ac_rfl

end Families

theorem deeds_takeShard (i : Fin numLargeShards) {c : LargeRegionCache} {y : TakenRegion}
    (hc : (s.shards i).items = {y} + c.items) :
    s.deeds = {y.deed} + deeds { s with shards := update s.shards i c } := by
  have hdeeds : shardDeeds (s.shards i) = {y.deed} + shardDeeds c := by
    unfold shardDeeds
    rw [hc, Multiset.map_add, Multiset.map_singleton]
  unfold deeds
  rw [sum_take shardDeeds s.shards i hdeeds]
  ac_rfl

theorem deeds_pushShard (i : Fin numLargeShards) {c : LargeRegionCache} {y : TakenRegion}
    (hc : c.items = {y} + (s.shards i).items) :
    deeds { s with shards := update s.shards i c } = {y.deed} + s.deeds := by
  have hdeeds : shardDeeds c = {y.deed} + shardDeeds (s.shards i) := by
    unfold shardDeeds
    rw [hc, Multiset.map_add, Multiset.map_singleton]
  unfold deeds
  dsimp only
  rw [sum_push shardDeeds s.shards i hdeeds]
  ac_rfl

/-! ### Steps -/

def Sound (s : RegionStore ι) : Prop := Honest s.mem s.deeds

variable {g g' : Deed} {R : Multiset Deed}

theorem Sound.deed (h : s.Sound) (hold : s.deeds = {g} + R) : g.Fits ∧ g.Kept s.mem := by
  have hg : g ∈ s.deeds := by
    rw [hold]
    exact Multiset.mem_add.2 (.inl (Multiset.mem_singleton_self _))
  exact ⟨h.fits g hg, h.kept g hg⟩

theorem Sound.change (h : s.Sound) (hold : s.deeds = {g} + R) (hnew : s'.deeds = {g'} + R)
    (hregion : g'.region = g.region) (hfits : g'.Fits)
    (helsewhere : ∀ a, ¬InExtent g.region a → s'.mem a = s.mem a) (hkept : g'.Kept s'.mem) : s'.Sound := by
  unfold Sound at *
  rw [hold] at h
  rw [hnew]
  exact h.change hregion hfits helsewhere hkept

/-- A step after which nothing is said of the bytes of the region. -/
theorem Sound.soil (h : s.Sound) (hold : s.deeds = {g} + R)
    (hnew : s'.deeds = {.whole g.region false} + R)
    (helsewhere : ∀ a, ¬InExtent g.region a → s'.mem a = s.mem a) : s'.Sound := by
  apply h.change hold hnew rfl
  · exact Deed.whole_fits _ _
  · exact helsewhere
  · exact Deed.kept_of_dirty rfl

theorem Sound.map (h : s.Sound) (hextents : Extents ({e} + s.regions))
    (hbelow : e.1 + e.2 * pageSize ≤ addressLimit) (helsewhere : ∀ a, ¬InExtent e a → mem a = s.mem a)
    (hzero : ∀ a, InExtent e a → mem a = 0) :
    Sound { s with hand := {(e, true)} + s.hand, mem } := by
  have hbefore : Honest s.mem (0 + s.deeds) := by
    rw [zero_add]
    exact h
  have hext : Extents ({e} + s.deeds.map Deed.region) := by
    rw [deeds_regions]
    exact hextents
  have hafter : Honest mem ({.whole e true} + s.deeds) :=
    hbefore.replace hext hbelow (Deed.whole_fits e true) helsewhere
      fun _ a hlow hhigh => hzero a ⟨hlow, hhigh⟩
  unfold Sound
  rw [deeds_hand (s := { s with hand := {(e, true)} + s.hand, mem }) rfl]
  exact hafter

theorem Sound.unmap (h : s.Sound) (hhand : s.hand = {(e, zeroed)} + hand) : Sound { s with hand } := by
  unfold Sound at h
  rw [deeds_hand hhand] at h
  exact h.drop

theorem Sound.takeStash [DecidableEq ι] (h : s.Sound) (t : ι) {i : Nat} (hi : i < (s.stashes t).largeLen) :
    Sound { s with
      stashes := update s.stashes t ((s.stashes t).removeStash i).2
      hand := {(((s.stashes t).removeStash i).1, false)} + s.hand } := by
  have hold := deeds_takeStash t (ThreadCache.removeStash_entries hi)
  generalize ((s.stashes t).removeStash i).1 = e at *
  generalize update s.stashes t ((s.stashes t).removeStash i).2 = stashes at *
  have hnew : deeds { s with stashes, hand := {(e, false)} + s.hand }
      = {.whole e false} + deeds { s with stashes } := deeds_hand rfl
  exact h.soil hold hnew fun _ _ => rfl

theorem Sound.pushStash [DecidableEq ι] (h : s.Sound) (t : ι) {c : ThreadCache}
    (hhand : s.hand = {(e, zeroed)} + hand) (hpush : (s.stashes t).pushLargeStash e.1 e.2 = some c) :
    Sound { s with stashes := update s.stashes t c, hand } := by
  have hnew := deeds_pushStash (s := { s with hand }) t (ThreadCache.pushLargeStash_entries hpush)
  exact h.soil (deeds_hand hhand) hnew fun _ _ => rfl

theorem Sound.takeFit (h : s.Sound) (i : Fin numLargeShards) {mapped : Nat} {y : TakenRegion}
    (htake : ((s.shards i).takeFit mapped).2 = some y) :
    Sound { s with
      shards := update s.shards i ((s.shards i).takeFit mapped).1
      hand := {(y.region, y.zeroed)} + s.hand } := by
  have hitems := (s.shards i).takeFit_items mapped
  rw [htake] at hitems
  have hold := deeds_takeShard i hitems
  generalize update s.shards i ((s.shards i).takeFit mapped).1 = shards at *
  have hnew : deeds { s with shards, hand := {(y.region, y.zeroed)} + s.hand }
      = {y.deed} + deeds { s with shards } := deeds_hand rfl
  apply h.change hold hnew rfl
  · exact Deed.whole_fits _ _
  · exact fun _ _ => rfl
  · exact (h.deed hold).2

theorem dropped_eq_zero {fate : Fate} (hfate : ∀ bytes, fate ≠ .unmap bytes) : dropped e fate = 0 := by
  cases fate with
  | keep => rfl
  | cooled d => rfl
  | unmap bytes => exact absurd rfl (hfate bytes)

theorem Sound.park (h : s.Sound) (i : Fin numLargeShards) (d : Discarded)
    (hhand : s.hand = {(e, zeroed)} + hand) (helsewhere : ∀ a, ¬InExtent e a → mem a = s.mem a)
    (hzero : d.zeroed = true → ((s.shards i).park d e.1 e.2 (e.2 * pageSize)).2 = .cooled d →
      ∀ a, InExtent e a → mem a = 0) :
    Sound { s with
      shards := update s.shards i ((s.shards i).park d e.1 e.2 (e.2 * pageSize)).1
      hand := dropped e ((s.shards i).park d e.1 e.2 (e.2 * pageSize)).2 + hand
      mem } := by
  rcases (s.shards i).park_items d e.1 e.2 (e.2 * pageSize) with
    ⟨y, hregion, hitems, hfate, hflag⟩ | ⟨hfate, hsame⟩
  · have hregion : y.region = e := hregion
    have hnew := deeds_pushShard (s := { s with hand, mem }) i hitems
    rw [dropped_eq_zero hfate, zero_add]
    apply h.change (deeds_hand hhand) hnew hregion
    · exact Deed.whole_fits _ _
    · exact helsewhere
    · intro hz a hlow hhigh
      obtain ⟨hd, hcooled⟩ := hflag hz
      apply hzero hd hcooled
      rw [← hregion]
      exact ⟨hlow, hhigh⟩
  · have hnew : deeds { s with hand := {(e, false)} + hand, mem }
        = {.whole e false} + deeds { s with hand } := deeds_hand rfl
    rw [hfate, hsame, update_eq_self]
    exact h.soil (deeds_hand hhand) hnew helsewhere

theorem Sound.purge (h : s.Sound) {d : Discarded} (hhand : s.hand = {(e, zeroed)} + hand)
    (helsewhere : ∀ a, ¬InExtent e a → mem a = s.mem a)
    (hzero : d.zeroed = true → ∀ a, InExtent e a → mem a = 0) :
    Sound { s with hand := {(e, d.zeroed)} + hand, mem } := by
  have hnew : deeds { s with hand := {(e, d.zeroed)} + hand, mem }
      = {.whole e d.zeroed} + deeds { s with hand } := deeds_hand rfl
  apply h.change (deeds_hand hhand) hnew rfl
  · exact Deed.whole_fits _ _
  · exact helsewhere
  · exact fun hz a hlow hhigh => hzero hz a ⟨hlow, hhigh⟩

/-- The header and the bytes asked for are in the region, the bytes behind the header. -/
theorem Sound.place (h : s.Sound) {size alignLog : Nat} (hhand : s.hand = {(e, zeroed)} + hand)
    (hlog : alignLog < 64) (hsize : size < 2 ^ 63)
    (hfits : placeFits e.1 (e.2 * pageSize) size (2 ^ alignLog) = true)
    (helsewhere : ∀ a, ¬(placeAt e.1 (2 ^ alignLog) - largeHeaderSize ≤ a ∧
      a < placeAt e.1 (2 ^ alignLog)) → mem a = s.mem a) :
    Sound { s with
      hand
      placed := {⟨e, placeAt e.1 (2 ^ alignLog), size, zeroed⟩} + s.placed
      mem } := by
  have hold := deeds_hand hhand
  obtain ⟨-, hkept⟩ := h.deed hold
  have hbelow : e.1 + e.2 * pageSize ≤ addressLimit := by
    apply h.below (.whole e zeroed)
    rw [hold]
    exact Multiset.mem_add.2 (.inl (Multiset.mem_singleton_self _))
  obtain ⟨hbehind, -⟩ := placeAt_bounds e.1 (Nat.le_of_add_right_le hbelow) hlog
  have hroom := (placeFits_iff hbelow hlog hsize).1 hfits
  generalize placeAt e.1 (2 ^ alignLog) = ret at *
  have hnew : deeds { s with hand, placed := {⟨e, ret, size, zeroed⟩} + s.placed, mem }
      = {PlacedRegion.deed ⟨e, ret, size, zeroed⟩} + deeds { s with hand } := deeds_placed rfl
  apply h.change hold hnew rfl
  · exact ⟨Nat.le_of_add_right_le hbehind, hroom⟩
  · intro a ha
    have ha : ¬InExtent e a := ha
    apply helsewhere
    rintro ⟨hlow, hhigh⟩
    unfold InExtent at ha
    omega
  · intro hz a hlow hhigh
    have hlow : ret ≤ a := hlow
    have hhigh : a < ret + size := hhigh
    have hsame : mem a = s.mem a := by
      apply helsewhere
      rintro ⟨-, hbefore⟩
      omega
    show mem a = 0
    rw [hsame]
    exact hkept hz a (by show e.1 ≤ a; omega) (by show a < e.1 + e.2 * pageSize; omega)

/-- A region is returned, and what is written is what was asked for. -/
theorem Sound.give (h : s.Sound) (hplaced : s.placed = {x} + placed)
    (helsewhere : ∀ a, ¬(x.ret ≤ a ∧ a < x.ret + x.size) → mem a = s.mem a) :
    Sound { s with placed, live := {x.region} + s.live, mem } := by
  have hold := deeds_placed hplaced
  obtain ⟨⟨hbase, hroom⟩, -⟩ := h.deed hold
  have hnew : deeds { s with placed, live := {x.region} + s.live, mem }
      = {.whole x.region false} + deeds { s with placed } := deeds_live rfl
  apply h.soil hold hnew
  intro a ha
  apply helsewhere
  rintro ⟨hlow, hhigh⟩
  exact ha ⟨hbase.trans hlow, hhigh.trans_le hroom⟩

theorem Sound.header (h : s.Sound) {v : UInt8} (hplaced : x ∈ s.placed) (ha : InExtent x.region a)
    (hbefore : a < x.ret) : Sound { s with mem := update s.mem a v } := by
  obtain ⟨placed, hplaced⟩ := Multiset.exists_cons_of_mem hplaced
  have hold : s.deeds = {x.deed} + deeds { s with placed } := by
    apply deeds_placed
    rw [hplaced, Multiset.singleton_add]
  obtain ⟨hfits, hkept⟩ := h.deed hold
  have hnew : deeds { s with mem := update s.mem a v } = {x.deed} + deeds { s with placed } := hold
  apply h.change hold hnew rfl hfits
  · intro a' hout
    apply update_of_ne
    rintro rfl
    exact hout ha
  · apply hkept.congr
    intro a' hlow _
    have hlow : x.ret ≤ a' := hlow
    exact update_of_ne (by omega) _ _

theorem Sound.free (h : s.Sound) (hlive : s.live = {e} + live) :
    Sound { s with hand := {(e, false)} + s.hand, live } := by
  have hnew : deeds { s with hand := {(e, false)} + s.hand, live }
      = {.whole e false} + deeds { s with live } := deeds_hand rfl
  exact h.soil (deeds_live hlive) hnew fun _ _ => rfl

theorem Sound.write (h : s.Sound) {v : UInt8} (hlive : s.live = {e} + live) (ha : InExtent e a) :
    Sound { s with mem := update s.mem a v } := by
  have hold := deeds_live hlive
  have hnew : deeds { s with mem := update s.mem a v } = {.whole e false} + deeds { s with live } := hold
  apply h.soil hold hnew
  intro a' hout
  apply update_of_ne
  rintro rfl
  exact hout ha

theorem Sound.grow (h : s.Sound) {added : Nat} (hlive : s.live = {e} + live)
    (hextents : Extents ({(e.1, e.2 + added)} + regions { s with live }))
    (hbelow : e.1 + (e.2 + added) * pageSize ≤ addressLimit)
    (helsewhere : ∀ a, ¬InExtent (e.1, e.2 + added) a → mem a = s.mem a) :
    Sound { s with live := {(e.1, e.2 + added)} + live, mem } := by
  have hbefore : Honest s.mem ({.whole e false} + deeds { s with live }) := by
    rw [← deeds_live hlive]
    exact h
  have hext : Extents ({(e.1, e.2 + added)} + (deeds { s with live }).map Deed.region) := by
    rw [deeds_regions]
    exact hextents
  have hafter : Honest mem ({.whole (e.1, e.2 + added) false} + deeds { s with live }) :=
    hbefore.replace hext hbelow (Deed.whole_fits _ _) helsewhere (Deed.kept_of_dirty rfl)
  unfold Sound
  rw [deeds_live (s := { s with live := {(e.1, e.2 + added)} + live, mem }) rfl]
  exact hafter

/-- No step breaks a deed. -/
theorem Sound.step [DecidableEq ι] (h : s.Sound) (hstep : Step s s') : s'.Sound := by
  cases hstep with
  | map e mem hextents hbelow helsewhere hzero => exact h.map hextents hbelow helsewhere hzero
  | unmap e zeroed hand hhand => exact h.unmap hhand
  | takeStash t i hi => exact h.takeStash t hi
  | pushStash t e zeroed hand c hhand hpush => exact h.pushStash t hhand hpush
  | takeFit i mapped y htake => exact h.takeFit i htake
  | park i e zeroed d hand mem hhand helsewhere hzero => exact h.park i d hhand helsewhere hzero
  | purge e zeroed d hand mem hhand helsewhere hzero => exact h.purge hhand helsewhere hzero
  | place e zeroed hand size alignLog mem hhand hlog hsize hfits helsewhere =>
      exact h.place hhand hlog hsize hfits helsewhere
  | give x placed hplaced => exact h.give hplaced fun _ _ => rfl
  | giveZeroed x placed hplaced =>
      apply h.give hplaced
      intro a ha
      exact if_neg fun hin => ha hin.2
  | header x a v hplaced ha hbefore => exact h.header hplaced ha hbefore
  | free e live hlive => exact h.free hlive
  | write e live a v hlive ha => exact h.write hlive ha
  | grow e added live mem hlive hextents hbelow helsewhere => exact h.grow hlive hextents hbelow helsewhere

theorem Reach.sound [DecidableEq ι] (hr : Reach s) : s.Sound := by
  induction hr with
  | new mem =>
      unfold Sound
      rw [deeds_new]
      exact Honest.zero _
  | step _ hstep ih => exact ih.step hstep

/-- **A large block of `alloc_zeroed` reads as zero.** Whichever stash, shard or mapping the region is from,
and whoever had it before, all bytes that were asked for are zero after `zero_large_allocation`. -/
theorem zeroed_regions [DecidableEq ι] (hr : Reach s) (hx : x ∈ s.placed) (hlow : x.ret ≤ a)
    (hhigh : a < x.ret + x.size) : zeroLargeAllocation s.mem x.ret x.size x.zeroed a = 0 := by
  unfold zeroLargeAllocation
  cases hz : x.zeroed with
  | false => exact if_pos ⟨rfl, hlow, hhigh⟩
  | true =>
      obtain ⟨placed, hplaced⟩ := Multiset.exists_cons_of_mem hx
      rw [← Multiset.singleton_add] at hplaced
      have hnone : ¬(true = false ∧ x.ret ≤ a ∧ a < x.ret + x.size) := by
        rintro ⟨⟨⟩, -⟩
      rw [if_neg hnone]
      exact (hr.sound.deed (deeds_placed hplaced)).2 hz a hlow hhigh

/-- A fresh region of two pages next to memory full of something else, with its header. -/
def onePlaced : RegionStore (Fin 1) :=
  { RegionStore.new (Fin 1) (fun _ => 255) with
    placed := {⟨(pageSize, 2), placeAt pageSize (2 ^ 12), 100000, true⟩} + 0
    mem := fun a => if pageSize ≤ a ∧ a < pageSize + 2 * pageSize then 0 else 255 }

theorem onePlaced_reach : Reach onePlaced := by
  have hone : Extents ({(pageSize, 2)} + (RegionStore.new (Fin 1) fun _ => 255).regions) := by
    rw [← deeds_regions, deeds_new, Multiset.map_zero, add_zero]
    refine ⟨Multiset.nodup_singleton _, fun e he e' he' hne => ?_, fun e he => ?_⟩
    · rw [Multiset.mem_singleton] at he he'
      exact absurd (he.trans he'.symm) hne
    · rw [Multiset.mem_singleton] at he
      subst he
      exact ⟨by decide, by decide⟩
  have hmapped := (Reach.new (ι := Fin 1) fun _ => 255).step
    (.map (pageSize, 2) onePlaced.mem hone (by decide) (fun _ ha => if_neg ha) fun _ ha => if_pos ha)
  exact hmapped.step (.place (pageSize, 2) true 0 100000 12 onePlaced.mem rfl (by decide) (by decide)
    (by decide) fun _ _ => rfl)

/-- A user has written to the region and freed it. It has been in a stash, and a thread has placed 90000
bytes in it. -/
theorem zeroed_regions_recycled : ∃ s : RegionStore (Fin 1), Reach s ∧ s.mem 150000 = 77 ∧
    ∃ x ∈ s.placed, (x.zeroed, x.size) = (false, 90000) ∧ x.ret ≤ 150000 ∧ 150000 < x.ret + x.size ∧
      zeroLargeAllocation s.mem x.ret x.size x.zeroed 150000 = 0 := by
  have hgive := onePlaced_reach.step (.give _ 0 rfl)
  have hwrite := hgive.step (.write (pageSize, 2) 0 150000 77 rfl ⟨by decide, by decide⟩)
  have hfree := hwrite.step (.free (pageSize, 2) 0 rfl)
  obtain ⟨c, hc, hlen, hentry⟩ := RegionCaches.pushLargeStash_new pageSize (show 2 ≤ _ by decide)
  have hpush := hfree.step (.pushStash 0 (pageSize, 2) false 0 c rfl hc)
  have hstashed : 0 < (update onePlaced.stashes 0 c 0).largeLen := by
    rw [update_self, hlen]
    decide
  have htake := hpush.step (.takeStash 0 0 hstashed)
  have hhand : {((update onePlaced.stashes 0 c 0).large 0, false)} + 0
      = ({((pageSize, 2), false)} + 0 : Multiset ((Nat × Nat) × Bool)) := by
    rw [update_self, hentry]
  have hplace := htake.step (.place (pageSize, 2) false 0 90000 4 _ hhand (by decide) (by decide)
    (by decide) fun _ _ => rfl)
  have hx : (⟨(pageSize, 2), placeAt pageSize (2 ^ 4), 90000, false⟩ : PlacedRegion) ∈
      ({⟨(pageSize, 2), placeAt pageSize (2 ^ 4), 90000, false⟩} : Multiset PlacedRegion) + 0 :=
    Multiset.mem_add.2 (.inl (Multiset.mem_singleton_self _))
  exact ⟨_, hplace, update_self 150000 (77 : UInt8) onePlaced.mem, _, hx, rfl, by decide, by decide,
    zeroed_regions hplace hx (by decide) (by decide)⟩

end RegionStore

end Allox
