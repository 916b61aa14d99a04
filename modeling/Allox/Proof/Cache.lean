import Allox.World
import Allox.Proof.SpanHeap
import Allox.Proof.Large

/-!
# The books of a thread cache

`Ok` says what the counters of a cache are meant to say, and that no subtraction went wrong. `stake` is
what the cache holds: its blocks, each with its heap, its home and whether it still reads as zero past
its link, and its stashed regions. Every function of the cache is one lemma: `Ok` survives, and the
stake changes by what goes in or out.
-/

namespace Allox

open ArrayPrefix

/-- What a thread can hold: a block, a mapped extent that is in no heap, or a large region under its
user pointer. The flag says that it reads as zero. -/
inductive Token where
  | block (b : Block) (clean : Bool)
  | span (t : SpanTier) (b : SpanBlock t) (clean : Bool)
  | extent (m : Mapping) (clean : Bool)
  | region (p : Nat)
  deriving DecidableEq

/-- The blocks of a chain whose last `v` blocks are clean. -/
def flagged (mk : Nat → Bool → Token) (v : Nat) : List Nat → Multiset Token
  | [] => 0
  | b :: rest => {mk b (decide (rest.length < v))} + flagged mk v rest

/-- The blocks of a chain, all alike. -/
def uniform (mk : Nat → Bool → Token) (clean : Bool) (chain : List Nat) : Multiset Token :=
  ↑(chain.map fun b => mk b clean)

section flagged

variable {mk : Nat → Bool → Token} {v w : Nat} {chain : List Nat}

theorem flagged_cons (b : Nat) (rest : List Nat) :
    flagged mk v (b :: rest) = {mk b (decide (rest.length < v))} + flagged mk v rest := rfl

@[simp] theorem uniform_nil (clean : Bool) : uniform mk clean [] = 0 := rfl

theorem uniform_cons (clean : Bool) (b : Nat) (chain : List Nat) :
    uniform mk clean (b :: chain) = {mk b clean} + uniform mk clean chain := rfl

theorem flagged_congr (h : ∀ k < chain.length, k < v ↔ k < w) :
    flagged mk v chain = flagged mk w chain := by
  induction chain with
  | nil => rfl
  | cons b rest ih =>
      have hb : decide (rest.length < v) = decide (rest.length < w) :=
        decide_eq_decide.2 (h rest.length (by simp))
      rw [flagged_cons, flagged_cons, hb, ih fun k hk => h k (by simp only [List.length_cons]; omega)]

theorem flagged_of_le (h : chain.length ≤ v) : flagged mk v chain = uniform mk true chain := by
  induction chain with
  | nil => rfl
  | cons b rest ih =>
      simp only [List.length_cons] at h
      rw [flagged_cons, uniform_cons, ih (by omega), decide_eq_true (by omega)]

theorem flagged_zero : flagged mk 0 chain = uniform mk false chain := by
  induction chain with
  | nil => rfl
  | cons b rest ih =>
      rw [flagged_cons, uniform_cons, ih]
      simp

end flagged

/-! ### Sums over the lists of a cache -/

/-- The sum over an index family after one entry changed. -/
theorem sum_update_add {ι M : Type} [Fintype ι] [DecidableEq ι] [AddCommMonoid M] {β : ι → Type}
    (f : (i : ι) → β i → M) (g : (i : ι) → β i) (i : ι) (x : β i) :
    ∑ j, f j (Function.update g i x j) + f i (g i) = ∑ j, f j (g j) + f i x := by
  rw [← Finset.add_sum_erase _ _ (Finset.mem_univ i), ← Finset.add_sum_erase _ _ (Finset.mem_univ i),
    Function.update_self]
  have hrest : ∑ j ∈ Finset.univ.erase i, f j (Function.update g i x j)
      = ∑ j ∈ Finset.univ.erase i, f j (g j) := by
    refine Finset.sum_congr rfl fun j hj => ?_
    rw [Function.update_of_ne (Finset.ne_of_mem_erase hj)]
  rw [hrest]
  ac_rfl

namespace ThreadCache

/-- A weight for every kind of list. -/
structure Weight (M : Type) where
  bin : Fin numClasses → Bin → M
  spanBin : (t : SpanTier) → Fin t.num → Bin → M
  active : (t : SpanTier) → Fin t.num → Active → M

section Weight

variable {M : Type} [AddCommMonoid M] (μ : Weight M) (c : ThreadCache) {t : SpanTier}

def tierWeight (t : SpanTier) : M :=
  ∑ cls, μ.spanBin t cls (c.spanBins t cls) + ∑ cls, μ.active t cls (c.active t cls)

/-- The weight of both span tiers. -/
def tiersWeight : M := c.tierWeight μ .medium + c.tierWeight μ .big

def weight : M := ∑ cls, μ.bin cls (c.bins cls) + c.tiersWeight μ

theorem weight_setBin (cls : Fin numClasses) (b : Bin) :
    (c.setBin cls b).weight μ + μ.bin cls (c.bins cls) = c.weight μ + μ.bin cls b := by
  have h := sum_update_add (fun i => μ.bin i) c.bins cls b
  simp only [weight, tiersWeight, tierWeight, setBin]
  rw [add_right_comm, h, add_right_comm]

theorem tiersWeight_of_tier {c c' : ThreadCache} {old new : M}
    (htier : c'.tierWeight μ t + old = c.tierWeight μ t + new)
    (hother : ∀ t', t' ≠ t → c'.tierWeight μ t' = c.tierWeight μ t') :
    c'.tiersWeight μ + old = c.tiersWeight μ + new := by
  unfold tiersWeight
  cases t
  · rw [hother .big (by decide), add_right_comm, htier, add_right_comm]
  · rw [hother .medium (by decide), add_assoc, htier, add_assoc]

theorem tiersWeight_setSpanBin (cls : Fin t.num) (b : Bin) :
    (c.setSpanBin t cls b).tiersWeight μ + μ.spanBin t cls (c.spanBins t cls)
      = c.tiersWeight μ + μ.spanBin t cls b := by
  have hone := sum_update_add (fun i => μ.spanBin t i) (c.spanBins t) cls b
  refine tiersWeight_of_tier μ (t := t) ?_ fun t' ht' => by simp [tierWeight, setSpanBin, ht']
  simp only [tierWeight, setSpanBin, Function.update_self]
  rw [add_right_comm, hone, add_right_comm]

theorem tiersWeight_setActive (cls : Fin t.num) (a : Active) :
    (c.setActive t cls a).tiersWeight μ + μ.active t cls (c.active t cls)
      = c.tiersWeight μ + μ.active t cls a := by
  have hone := sum_update_add (fun i => μ.active t i) (c.active t) cls a
  refine tiersWeight_of_tier μ (t := t) ?_ fun t' ht' => by simp [tierWeight, setActive, ht']
  simp only [tierWeight, setActive, Function.update_self]
  rw [add_assoc, hone, add_assoc]

theorem weight_of_tiers {c c' : ThreadCache} {old new : M} (hbins : c'.bins = c.bins)
    (htiers : c'.tiersWeight μ + old = c.tiersWeight μ + new) :
    c'.weight μ + old = c.weight μ + new := by
  simp only [weight, hbins]
  rw [add_assoc]
  exact (congrArg _ htiers).trans (add_assoc _ _ _).symm

theorem weight_setSpanBin (cls : Fin t.num) (b : Bin) :
    (c.setSpanBin t cls b).weight μ + μ.spanBin t cls (c.spanBins t cls)
      = c.weight μ + μ.spanBin t cls b :=
  weight_of_tiers μ rfl (c.tiersWeight_setSpanBin μ cls b)

theorem weight_setActive (cls : Fin t.num) (a : Active) :
    (c.setActive t cls a).weight μ + μ.active t cls (c.active t cls)
      = c.weight μ + μ.active t cls a :=
  weight_of_tiers μ rfl (c.tiersWeight_setActive μ cls a)

end Weight

/-! ### The books -/

/-- The bytes of a list, by its counter. -/
def bytes : Weight Nat where
  bin cls b := b.len * classSize cls
  spanBin t cls b := b.len * t.blockSize cls
  active t cls a := a.list.len * t.blockSize cls

/-- The blocks of a list. Those of an active list are of the recorded span. -/
def tokens : Weight (Multiset Token) where
  bin cls b := flagged (fun a => .block ⟨cls, a⟩) b.virgin b.blocks
  spanBin t cls b := flagged (fun a => .span t ⟨cls, a, none⟩) b.virgin b.blocks
  active t cls a := flagged (fun p => .span t ⟨cls, p, some a.span⟩) a.list.virgin a.list.blocks

/-- A stashed region. -/
def stashed (e : Nat × Nat) : Option Token :=
  if e.1 = 0 then none else some (.extent ⟨e.1, e.2 * pageSize, .large⟩ false)

/-- What is in the stash. -/
def stash (c : ThreadCache) : Multiset Token := (upto c.large c.largeLen).filterMap stashed

/-- What a cache holds. -/
def stake (c : ThreadCache) : Multiset Token := c.weight tokens + c.stash

end ThreadCache

/-- The counters of a list are right. -/
structure Bin.Ok (b : Bin) : Prop where
  len : b.len = b.blocks.length
  virgin : b.virgin ≤ b.len

namespace ThreadCache

/-- The counters of all lists, and the sums over them. A cache whose bins were stolen still counts the
`k` bytes that left it, until it has been flushed. -/
structure Lists (c : ThreadCache) (k : Nat) : Prop where
  bins : ∀ cls, (c.bins cls).Ok
  spanBins : ∀ t cls, (c.spanBins t cls).Ok
  active : ∀ t cls, (c.active t cls).list.Ok
  recorded : ∀ t cls, (c.active t cls).list.blocks ≠ [] → (c.active t cls).span ≠ 0
  cachedBytes : c.cachedBytes = c.weight bytes + k
  tierCachedBytes : c.tierCachedBytes = c.tiersWeight bytes
  faults : c.faults = 0

/-- The stash and its counters as well. -/
structure Books (c : ThreadCache) (k : Nat) : Prop extends Lists c k where
  occupied : ∀ i < c.largeLen, (c.large i).1 ≠ 0 ∧ (c.large i).2 ≠ 0
  free : ∀ i, c.largeLen ≤ i → c.large i = (0, 0)
  largeLen : c.largeLen ≤ largeStashSlots
  largeBytes : c.largeBytes = ((upto c.large c.largeLen).map fun e => e.2 * pageSize).sum

/-- The books of a cache between two operations. -/
abbrev Ok (c : ThreadCache) : Prop := c.Books 0

end ThreadCache

/-! ### One list -/

namespace Bin

variable {b b' : Bin} {p : Nat} {zeroed : Bool}

theorem Ok.empty : Bin.empty.Ok := ⟨rfl, le_rfl⟩

/-- A list that a refill has filled. -/
theorem Ok.filled (rest : List Nat) (virgin : Bool) :
    Ok { blocks := rest, len := rest.length, virgin := if virgin then rest.length else 0 } := by
  refine ⟨rfl, ?_⟩
  cases virgin
  · exact Nat.zero_le _
  · exact le_rfl

theorem flagged_filled (mk : Nat → Bool → Token) (rest : List Nat) (virgin : Bool) :
    flagged mk (if virgin then rest.length else 0) rest = uniform mk virgin rest := by
  cases virgin
  · exact flagged_zero
  · exact flagged_of_le le_rfl

theorem pop_none (h : b.pop = none) : b.blocks = [] := by
  unfold pop at h
  split at h
  · assumption
  · cases h

theorem Ok.pop (h : b.Ok) (hpop : b.pop = some (p, zeroed, b')) :
    b'.Ok ∧ b.len = b'.len + 1 ∧ ∀ mk,
      flagged mk b.virgin b.blocks = {mk p zeroed} + flagged mk b'.virgin b'.blocks := by
  have hlen := h.len
  have hvirgin := h.virgin
  unfold Bin.pop at hpop
  split at hpop
  · cases hpop
  · rename_i q rest hblocks
    simp only [Option.some.injEq, Prod.mk.injEq] at hpop
    obtain ⟨rfl, rfl, rfl⟩ := hpop
    rw [hblocks, List.length_cons] at hlen
    have hrest : b.len - 1 = rest.length := by omega
    refine ⟨⟨hrest, ?_⟩, by simp only; omega, fun mk => ?_⟩
    · simp only [decide_eq_true_eq]
      split <;> omega
    · rw [hblocks, hrest, flagged_cons]
      congr 1
      refine flagged_congr fun k hk => ?_
      simp only [decide_eq_true_eq]
      split <;> omega

theorem Ok.push (h : b.Ok) (p : Nat) :
    (b.push p).Ok ∧ ∀ mk : Nat → Bool → Token,
      flagged mk (b.push p).virgin (b.push p).blocks
        = {mk p false} + flagged mk b.virgin b.blocks := by
  have hlen := h.len
  have hvirgin := h.virgin
  refine ⟨⟨by simp [Bin.push, hlen], Nat.le_succ_of_le hvirgin⟩, fun mk => ?_⟩
  have hnot : decide (b.blocks.length < b.virgin) = false := decide_eq_false (by omega)
  simp only [Bin.push, flagged_cons, hnot]

end Bin

/-! ### One list of a cache -/

namespace ThreadCache

variable {c : ThreadCache} {t : SpanTier} {k : Nat}

theorem Lists.new : ThreadCache.new.Lists 0 where
  bins _ := .empty
  spanBins _ _ := .empty
  active _ _ := .empty
  recorded _ _ h := absurd rfl h
  cachedBytes := by simp [ThreadCache.new, weight, tiersWeight, tierWeight, bytes, Bin.empty,
    Active.empty]
  tierCachedBytes := by simp [ThreadCache.new, tiersWeight, tierWeight, bytes, Bin.empty,
    Active.empty]
  faults := rfl

/-- A small list and the counter change together. -/
theorem Lists.setBin (h : c.Lists k) (cls : Fin numClasses) {b : Bin} (hb : b.Ok) {n : Nat}
    (hn : n + (c.bins cls).len * classSize cls = c.cachedBytes + b.len * classSize cls) :
    Lists { c.setBin cls b with cachedBytes := n } k where
  bins cls' := by
    by_cases hcls : cls' = cls
    · subst hcls
      simpa [ThreadCache.setBin] using hb
    · simpa [ThreadCache.setBin, hcls] using h.bins cls'
  spanBins := h.spanBins
  active := h.active
  recorded := h.recorded
  cachedBytes := by
    have hw : (c.setBin cls b).weight bytes + (c.bins cls).len * classSize cls
        = c.weight bytes + b.len * classSize cls := c.weight_setBin bytes cls b
    have hc := h.cachedBytes
    show n = (c.setBin cls b).weight bytes + k
    omega
  tierCachedBytes := h.tierCachedBytes
  faults := h.faults

theorem Lists.setSpanBin (h : c.Lists k) (cls : Fin t.num) {b : Bin} (hb : b.Ok) {n m : Nat}
    (hn : n + (c.spanBins t cls).len * t.blockSize cls = c.cachedBytes + b.len * t.blockSize cls)
    (hm : m + (c.spanBins t cls).len * t.blockSize cls
      = c.tierCachedBytes + b.len * t.blockSize cls) :
    Lists { c.setSpanBin t cls b with cachedBytes := n, tierCachedBytes := m } k where
  bins := h.bins
  spanBins t' cls' := by
    by_cases ht : t' = t
    · subst ht
      by_cases hcls : cls' = cls
      · subst hcls
        simpa [ThreadCache.setSpanBin] using hb
      · simpa [ThreadCache.setSpanBin, hcls] using h.spanBins t' cls'
    · simpa [ThreadCache.setSpanBin, ht] using h.spanBins t' cls'
  active := h.active
  recorded := h.recorded
  cachedBytes := by
    have hw : (c.setSpanBin t cls b).weight bytes + (c.spanBins t cls).len * t.blockSize cls
        = c.weight bytes + b.len * t.blockSize cls := c.weight_setSpanBin bytes cls b
    have hc := h.cachedBytes
    show n = (c.setSpanBin t cls b).weight bytes + k
    omega
  tierCachedBytes := by
    have hw := c.tiersWeight_setSpanBin bytes cls b
    simp only [bytes] at hw
    exact Nat.add_right_cancel (hm.trans ((congrArg (· + _) h.tierCachedBytes).trans hw.symm))
  faults := h.faults

theorem Lists.setActive (h : c.Lists k) (cls : Fin t.num) {a : Active} (ha : a.list.Ok)
    (hspan : a.list.blocks ≠ [] → a.span ≠ 0) {n m : Nat}
    (hn : n + (c.active t cls).list.len * t.blockSize cls
      = c.cachedBytes + a.list.len * t.blockSize cls)
    (hm : m + (c.active t cls).list.len * t.blockSize cls
      = c.tierCachedBytes + a.list.len * t.blockSize cls) :
    Lists { c.setActive t cls a with cachedBytes := n, tierCachedBytes := m } k where
  bins := h.bins
  spanBins := h.spanBins
  active t' cls' := by
    by_cases ht : t' = t
    · subst ht
      by_cases hcls : cls' = cls
      · subst hcls
        simpa [ThreadCache.setActive] using ha
      · simpa [ThreadCache.setActive, hcls] using h.active t' cls'
    · simpa [ThreadCache.setActive, ht] using h.active t' cls'
  recorded t' cls' := by
    by_cases ht : t' = t
    · subst ht
      by_cases hcls : cls' = cls
      · subst hcls
        simpa [ThreadCache.setActive] using hspan
      · simpa [ThreadCache.setActive, hcls] using h.recorded t' cls'
    · simpa [ThreadCache.setActive, ht] using h.recorded t' cls'
  cachedBytes := by
    have hw : (c.setActive t cls a).weight bytes + (c.active t cls).list.len * t.blockSize cls
        = c.weight bytes + a.list.len * t.blockSize cls := c.weight_setActive bytes cls a
    have hc := h.cachedBytes
    show n = (c.setActive t cls a).weight bytes + k
    omega
  tierCachedBytes := by
    have hw := c.tiersWeight_setActive bytes cls a
    simp only [bytes] at hw
    exact Nat.add_right_cancel (hm.trans ((congrArg (· + _) h.tierCachedBytes).trans hw.symm))
  faults := h.faults

/-! The counters are large enough for each list. -/

theorem Lists.len_bin (h : c.Lists k) (cls : Fin numClasses) :
    (c.bins cls).len * classSize cls ≤ c.cachedBytes := by
  have hw : (c.setBin cls .empty).weight bytes + (c.bins cls).len * classSize cls
      = c.weight bytes + 0 * classSize cls := c.weight_setBin bytes cls .empty
  have hc := h.cachedBytes
  omega

theorem Lists.tier_le (h : c.Lists k) : c.tierCachedBytes ≤ c.cachedBytes := by
  have hc := h.cachedBytes
  have ht := h.tierCachedBytes
  unfold weight at hc
  omega

theorem Lists.len_spanBin (h : c.Lists k) (cls : Fin t.num) :
    (c.spanBins t cls).len * t.blockSize cls ≤ c.tierCachedBytes := by
  have hw := c.tiersWeight_setSpanBin bytes cls .empty
  simp only [bytes, Bin.empty] at hw
  rw [h.tierCachedBytes]
  simp only [bytes]
  omega

theorem Lists.len_active (h : c.Lists k) (cls : Fin t.num) :
    (c.active t cls).list.len * t.blockSize cls ≤ c.tierCachedBytes := by
  have hw := c.tiersWeight_setActive bytes cls .empty
  simp only [bytes, Active.empty, Bin.empty] at hw
  rw [h.tierCachedBytes]
  simp only [bytes]
  omega

/-! What a cache holds follows its lists. -/

theorem stake_setBin (c : ThreadCache) (cls : Fin numClasses) (b : Bin) (n : Nat) :
    stake { c.setBin cls b with cachedBytes := n } + tokens.bin cls (c.bins cls)
      = c.stake + tokens.bin cls b := by
  show (c.setBin cls b).weight tokens + c.stash + _ = c.weight tokens + c.stash + _
  rw [add_right_comm, weight_setBin, add_right_comm]

theorem stake_setSpanBin (c : ThreadCache) (cls : Fin t.num) (b : Bin) (n m : Nat) :
    stake { c.setSpanBin t cls b with cachedBytes := n, tierCachedBytes := m }
        + tokens.spanBin t cls (c.spanBins t cls)
      = c.stake + tokens.spanBin t cls b := by
  show (c.setSpanBin t cls b).weight tokens + c.stash + _ = c.weight tokens + c.stash + _
  rw [add_right_comm, weight_setSpanBin, add_right_comm]

theorem stake_setActive (c : ThreadCache) (cls : Fin t.num) (a : Active) (n m : Nat) :
    stake { c.setActive t cls a with cachedBytes := n, tierCachedBytes := m }
        + tokens.active t cls (c.active t cls)
      = c.stake + tokens.active t cls a := by
  show (c.setActive t cls a).weight tokens + c.stash + _ = c.weight tokens + c.stash + _
  rw [add_right_comm, weight_setActive, add_right_comm]

/-- A list that has lost something. -/
theorem add_cancel_lost {x y old r : Multiset Token} (new : Multiset Token) (h : x + old = y + new)
    (hlost : old = r + new) : y = r + x := by
  rw [hlost, ← add_assoc] at h
  rw [add_comm r x]
  exact (add_right_cancel h).symm

/-- A list that has gained something. -/
theorem add_cancel_gained {x y old new r : Multiset Token} (h : x + old = y + new)
    (hgained : new = r + old) : x = r + y := by
  rw [hgained, ← add_assoc] at h
  rw [add_comm r y]
  exact add_right_cancel h

/-- Lists that are empty in `c` are empty in `d`. -/
structure Drains (c d : ThreadCache) : Prop where
  bins : ∀ cls, (c.bins cls).blocks = [] → (d.bins cls).blocks = []
  spanBins : ∀ t cls, (c.spanBins t cls).blocks = [] → (d.spanBins t cls).blocks = []
  active : ∀ t cls, (c.active t cls).list.blocks = [] → (d.active t cls).list.blocks = []

theorem Drains.refl (c : ThreadCache) : Drains c c := ⟨fun _ => id, fun _ _ => id, fun _ _ => id⟩

theorem Drains.trans {d e : ThreadCache} (h : Drains c d) (h' : Drains d e) : Drains c e :=
  ⟨fun cls hc => h'.bins cls (h.bins cls hc), fun t cls hc => h'.spanBins t cls (h.spanBins t cls hc),
    fun t cls hc => h'.active t cls (h.active t cls hc)⟩

theorem Drains.setBin {cls : Fin numClasses} {b : Bin}
    (hb : (c.bins cls).blocks = [] → b.blocks = []) : Drains c (c.setBin cls b) := by
  refine ⟨fun cls' hc => ?_, fun _ _ => id, fun _ _ => id⟩
  by_cases hcls : cls' = cls
  · subst hcls
    simpa [ThreadCache.setBin] using hb hc
  · simpa [ThreadCache.setBin, hcls] using hc

theorem Drains.setSpanBin {cls : Fin t.num} {b : Bin}
    (hb : (c.spanBins t cls).blocks = [] → b.blocks = []) : Drains c (c.setSpanBin t cls b) := by
  refine ⟨fun _ => id, fun t' cls' hc => ?_, fun _ _ => id⟩
  by_cases ht : t' = t
  · subst ht
    by_cases hcls : cls' = cls
    · subst hcls
      simpa [ThreadCache.setSpanBin] using hb hc
    · simpa [ThreadCache.setSpanBin, hcls] using hc
  · simpa [ThreadCache.setSpanBin, ht] using hc

theorem Drains.setActive {cls : Fin t.num} {a : Active}
    (ha : (c.active t cls).list.blocks = [] → a.list.blocks = []) :
    Drains c (c.setActive t cls a) := by
  refine ⟨fun _ => id, fun _ _ => id, fun t' cls' hc => ?_⟩
  by_cases ht : t' = t
  · subst ht
    by_cases hcls : cls' = cls
    · subst hcls
      simpa [ThreadCache.setActive] using ha hc
    · simpa [ThreadCache.setActive, hcls] using hc
  · simpa [ThreadCache.setActive, ht] using hc

/-- The same lists under other counters. -/
theorem Drains.of_eq {d e : ThreadCache} (h : Drains c d) (hbins : e.bins = d.bins)
    (hspan : e.spanBins = d.spanBins) (hactive : e.active = d.active) : Drains c e := by
  refine ⟨?_, ?_, ?_⟩
  · rw [hbins]
    exact h.bins
  · rw [hspan]
    exact h.spanBins
  · rw [hactive]
    exact h.active

/-! ### The small bins -/

theorem subCached_eq {n : Nat} (h : n ≤ c.cachedBytes) :
    c.subCached n = { c with cachedBytes := c.cachedBytes - n } := by
  simp [subCached, fault, Nat.not_lt.2 h]

theorem subTierCached_eq {n : Nat} (h : n ≤ c.cachedBytes) (h' : n ≤ c.tierCachedBytes) :
    c.subTierCached n
      = { c with cachedBytes := c.cachedBytes - n, tierCachedBytes := c.tierCachedBytes - n } := by
  simp [subTierCached, subCached_eq h, fault, Nat.not_lt.2 h']

variable {cls : Fin numClasses} {p : Nat} {zeroed : Bool} {left : ThreadCache}

theorem popSmall_none (h : c.popSmall cls = none) : (c.bins cls).blocks = [] := by
  unfold popSmall at h
  split at h
  · exact Bin.pop_none ‹_›
  · cases h

theorem Books.popSmall (h : c.Books k) (hpop : c.popSmall cls = some (p, zeroed, left)) :
    left.Books k ∧ c.stake = {.block ⟨cls, p⟩ zeroed} + left.stake ∧ Drains c left ∧
      (c.bins cls).len = (left.bins cls).len + 1 := by
  unfold ThreadCache.popSmall at hpop
  split at hpop
  · cases hpop
  · rename_i q z b hb
    obtain ⟨hbin, hlen, hflag⟩ := (h.bins cls).pop hb
    have hbytes := h.len_bin cls
    rw [hlen, Nat.add_mul, Nat.one_mul] at hbytes
    simp only [Option.some.injEq, Prod.mk.injEq] at hpop
    obtain ⟨rfl, rfl, rfl⟩ := hpop
    have hfault : (c.setBin cls b).fault ((c.bins cls).len < 1) = c.setBin cls b := by
      simp [fault, hlen]
    have hsub : (c.setBin cls b).subCached (classSize cls)
        = { c.setBin cls b with cachedBytes := c.cachedBytes - classSize cls } :=
      subCached_eq (c := c.setBin cls b) (Nat.le_trans (Nat.le_add_left _ _) hbytes)
    rw [hfault, hsub]
    refine ⟨{ h with toLists := h.toLists.setBin cls hbin ?_ }, ?_, ?_, ?_⟩
    · rw [hlen, Nat.add_mul, Nat.one_mul]
      omega
    · exact add_cancel_lost _ (c.stake_setBin cls b _) (hflag _)
    · refine Drains.of_eq (Drains.setBin fun hc => ?_) rfl rfl rfl
      rw [Bin.pop, hc] at hb
      cases hb
    · simpa [ThreadCache.setBin] using hlen

theorem Books.pushSmall (h : c.Books k) (cls : Fin numClasses) (p : Nat) :
    (c.pushSmall cls p).Books k ∧ (c.pushSmall cls p).stake = {.block ⟨cls, p⟩ false} + c.stake := by
  obtain ⟨hbin, hflag⟩ := (h.bins cls).push p
  refine ⟨{ h with toLists := h.toLists.setBin cls hbin ?_ }, ?_⟩
  · simp only [Bin.push, Nat.add_mul, ThreadCache.setBin]
    omega
  · exact add_cancel_gained (c.stake_setBin cls ((c.bins cls).push p) _) (hflag _)

/-- What a refill has left goes into a bin that is empty. -/
theorem Books.fillSmall (h : c.Books k) (hempty : (c.bins cls).blocks = []) (rest : List Nat)
    (virgin : Bool) :
    (c.fillSmall cls rest (rest.length + 1) virgin).Books k ∧
      (c.fillSmall cls rest (rest.length + 1) virgin).stake
        = uniform (fun a => .block ⟨cls, a⟩) virgin rest + c.stake := by
  have hlen : (c.bins cls).len = 0 := by
    rw [(h.bins cls).len, hempty]
    rfl
  unfold ThreadCache.fillSmall
  rw [Nat.add_sub_cancel, hlen, Nat.zero_add]
  refine ⟨{ h with toLists := h.toLists.setBin cls (.filled rest virgin) ?_ }, ?_⟩
  · simp only [hlen, ThreadCache.setBin, Nat.mul_comm (classSize cls)]
    omega
  · refine add_cancel_gained (c.stake_setBin cls _ _) ?_
    simp only [tokens, hempty]
    rw [Bin.flagged_filled]
    exact (add_zero _).symm

end ThreadCache

/-! ### The span tiers -/

namespace ThreadCache

variable {c : ThreadCache} {k : Nat} {t : SpanTier} {cls : Fin t.num} {p : Nat} {zeroed : Bool}
  {left : ThreadCache}

theorem popSpanBin_none (h : c.popSpanBin t cls = none) : (c.spanBins t cls).blocks = [] := by
  unfold popSpanBin at h
  split at h
  · exact Bin.pop_none ‹_›
  · cases h

theorem Books.popSpanBin (h : c.Books k) (hpop : c.popSpanBin t cls = some (p, zeroed, left)) :
    left.Books k ∧ c.stake = {.span t ⟨cls, p, none⟩ zeroed} + left.stake ∧ Drains c left ∧
      (c.spanBins t cls).len = (left.spanBins t cls).len + 1 := by
  unfold ThreadCache.popSpanBin at hpop
  split at hpop
  · cases hpop
  · rename_i q z b hb
    obtain ⟨hbin, hlen, hflag⟩ := (h.spanBins t cls).pop hb
    have hbytes := h.len_spanBin cls
    have htier := h.tier_le
    rw [hlen, Nat.add_mul, Nat.one_mul] at hbytes
    simp only [Option.some.injEq, Prod.mk.injEq] at hpop
    obtain ⟨rfl, rfl, rfl⟩ := hpop
    have hfault : (c.setSpanBin t cls b).fault ((c.spanBins t cls).len < 1)
        = c.setSpanBin t cls b := by
      simp [fault, hlen]
    have hsub : (c.setSpanBin t cls b).subTierCached (t.blockSize cls)
        = { c.setSpanBin t cls b with
            cachedBytes := c.cachedBytes - t.blockSize cls
            tierCachedBytes := c.tierCachedBytes - t.blockSize cls } := by
      refine subTierCached_eq (c := c.setSpanBin t cls b) ?_ ?_
      · exact Nat.le_trans (Nat.le_trans (Nat.le_add_left _ _) hbytes) htier
      · exact Nat.le_trans (Nat.le_add_left _ _) hbytes
    rw [hfault, hsub]
    refine ⟨{ h with toLists := h.toLists.setSpanBin cls hbin ?_ ?_ }, ?_, ?_, ?_⟩
    · rw [hlen, Nat.add_mul, Nat.one_mul]
      omega
    · rw [hlen, Nat.add_mul, Nat.one_mul]
      omega
    · exact add_cancel_lost _ (c.stake_setSpanBin cls b _ _) (hflag _)
    · refine Drains.of_eq (Drains.setSpanBin fun hc => ?_) rfl rfl rfl
      rw [Bin.pop, hc] at hb
      cases hb
    · simpa [ThreadCache.setSpanBin] using hlen

/-- The window of an empty active list is cleared, or it is kept. -/
theorem Books.clearActive (h : c.Books k) (hempty : (c.active t cls).list.blocks = []) :
    (c.setActive t cls .empty).Books k ∧ (c.setActive t cls .empty).stake = c.stake ∧
      Drains c (c.setActive t cls .empty) := by
  have hlen : (c.active t cls).list.len = 0 := by
    rw [(h.active t cls).len, hempty]
    rfl
  have hlists := h.toLists.setActive cls (a := .empty) (n := c.cachedBytes) (m := c.tierCachedBytes)
    .empty (fun hne => absurd rfl hne) (by rw [hlen]; rfl) (by rw [hlen]; rfl)
  refine ⟨{ h with toLists := hlists }, ?_, Drains.setActive fun _ => rfl⟩
  · have hs := c.stake_setActive cls .empty c.cachedBytes c.tierCachedBytes
    simp only [tokens, hempty, Active.empty, Bin.empty, flagged, add_zero] at hs
    exact hs

theorem Books.activeAlloc_none (h : c.Books k) (halloc : (c.activeAlloc t cls).1 = none) :
    (c.active t cls).list.blocks = [] ∧ (c.activeAlloc t cls).2.Books k ∧
      (c.activeAlloc t cls).2.stake = c.stake ∧ Drains c (c.activeAlloc t cls).2 := by
  unfold ThreadCache.activeAlloc at halloc ⊢
  dsimp only at halloc ⊢
  split at halloc
  · rename_i hb
    have hempty := Bin.pop_none hb
    refine ⟨hempty, ?_⟩
    dsimp only
    split
    · exact h.clearActive hempty
    · exact ⟨h, rfl, .refl c⟩
  · cases halloc

theorem Books.activeAlloc (h : c.Books k) (halloc : (c.activeAlloc t cls).1 = some (p, zeroed)) :
    (c.activeAlloc t cls).2.Books k ∧
      c.stake = {.span t ⟨cls, p, some (c.active t cls).span⟩ zeroed}
        + (c.activeAlloc t cls).2.stake ∧
      Drains c (c.activeAlloc t cls).2 := by
  unfold ThreadCache.activeAlloc at halloc ⊢
  dsimp only at halloc ⊢
  split at halloc
  · cases halloc
  · rename_i q z b hb
    obtain ⟨hbin, hlen, hflag⟩ := (h.active t cls).pop hb
    have hbytes := h.len_active cls
    have htier := h.tier_le
    have hne : (c.active t cls).list.blocks ≠ [] := by
      intro hc
      rw [Bin.pop, hc] at hb
      cases hb
    rw [hlen, Nat.add_mul, Nat.one_mul] at hbytes
    simp only [Option.some.injEq, Prod.mk.injEq] at halloc
    obtain ⟨rfl, rfl⟩ := halloc
    have hfault : (c.setActive t cls { c.active t cls with list := b }).fault
        ((c.active t cls).list.len < 1) = c.setActive t cls { c.active t cls with list := b } := by
      simp [fault, hlen]
    have hsub : (c.setActive t cls { c.active t cls with list := b }).subTierCached (t.blockSize cls)
        = { c.setActive t cls { c.active t cls with list := b } with
            cachedBytes := c.cachedBytes - t.blockSize cls
            tierCachedBytes := c.tierCachedBytes - t.blockSize cls } := by
      refine subTierCached_eq (c := c.setActive t cls { c.active t cls with list := b }) ?_ ?_
      · exact Nat.le_trans (Nat.le_trans (Nat.le_add_left _ _) hbytes) htier
      · exact Nat.le_trans (Nat.le_add_left _ _) hbytes
    rw [hfault, hsub]
    have hlists := h.toLists.setActive cls (a := { c.active t cls with list := b })
      (n := c.cachedBytes - t.blockSize cls) (m := c.tierCachedBytes - t.blockSize cls) hbin
      (fun _ => h.recorded t cls hne) (by rw [hlen, Nat.add_mul, Nat.one_mul]; simp only; omega)
      (by rw [hlen, Nat.add_mul, Nat.one_mul]; simp only; omega)
    refine ⟨{ h with toLists := hlists }, ?_, ?_⟩
    · exact add_cancel_lost _ (c.stake_setActive cls { c.active t cls with list := b } _ _) (hflag _)
    · refine Drains.of_eq (Drains.setActive fun hc => absurd hc hne) rfl rfl rfl

/-- A block freed into the active list is taken to be of the recorded span. -/
theorem Books.activeDealloc (h : c.Books k) (hspan : (c.active t cls).span ≠ 0) (p : Nat) :
    ((c.activeDealloc t cls p).addTierCached (t.blockSize cls)).Books k ∧
      ((c.activeDealloc t cls p).addTierCached (t.blockSize cls)).stake
        = {.span t ⟨cls, p, some (c.active t cls).span⟩ false} + c.stake := by
  obtain ⟨hbin, hflag⟩ := (h.active t cls).push p
  have hlists := h.toLists.setActive cls (a := { c.active t cls with list := (c.active t cls).list.push p })
    (n := c.cachedBytes + t.blockSize cls) (m := c.tierCachedBytes + t.blockSize cls) hbin
    (fun _ => hspan) (by simp only [Bin.push, Nat.add_mul]; omega)
    (by simp only [Bin.push, Nat.add_mul]; omega)
  refine ⟨{ h with toLists := hlists }, ?_⟩
  exact add_cancel_gained (c.stake_setActive cls
    { c.active t cls with list := (c.active t cls).list.push p } _ _) (hflag _)

theorem Books.binDealloc (h : c.Books k) (t : SpanTier) (cls : Fin t.num) (p : Nat) :
    ((c.binDealloc t cls p).addTierCached (t.blockSize cls)).Books k ∧
      ((c.binDealloc t cls p).addTierCached (t.blockSize cls)).stake
        = {.span t ⟨cls, p, none⟩ false} + c.stake := by
  obtain ⟨hbin, hflag⟩ := (h.spanBins t cls).push p
  have hlists := h.toLists.setSpanBin cls (b := (c.spanBins t cls).push p)
    (n := c.cachedBytes + t.blockSize cls) (m := c.tierCachedBytes + t.blockSize cls) hbin
    (by simp only [Bin.push, Nat.add_mul]; omega)
    (by simp only [Bin.push, Nat.add_mul]; omega)
  refine ⟨{ h with toLists := hlists }, ?_⟩
  exact add_cancel_gained (c.stake_setSpanBin cls ((c.spanBins t cls).push p) _ _) (hflag _)

theorem Books.fillSpanBin (h : c.Books k) (hempty : (c.spanBins t cls).blocks = []) (rest : List Nat)
    (virgin : Bool) :
    (c.fillSpanBin t cls rest (rest.length + 1) virgin).Books k ∧
      (c.fillSpanBin t cls rest (rest.length + 1) virgin).stake
        = uniform (fun a => .span t ⟨cls, a, none⟩) virgin rest + c.stake := by
  have hlen : (c.spanBins t cls).len = 0 := by
    rw [(h.spanBins t cls).len, hempty]
    rfl
  unfold ThreadCache.fillSpanBin
  rw [Nat.add_sub_cancel, hlen, Nat.zero_add]
  simp only [ite_self]
  refine ⟨{ h with toLists := h.toLists.setSpanBin cls (.filled rest virgin) ?_ ?_ }, ?_⟩
  · simp only [hlen, ThreadCache.setSpanBin, Nat.mul_comm (t.blockSize cls)]
    omega
  · simp only [hlen, ThreadCache.setSpanBin, Nat.mul_comm (t.blockSize cls)]
    omega
  · refine add_cancel_gained (c.stake_setSpanBin cls _ _ _) ?_
    simp only [tokens, hempty]
    rw [Bin.flagged_filled]
    exact (add_zero _).symm

theorem Books.fillActive (h : c.Books k) (hempty : (c.active t cls).list.blocks = [])
    (hbin : (c.spanBins t cls).blocks = []) {span : Nat} (hspan : span ≠ 0) (mappedBytes : Nat)
    (rest : List Nat) (virgin : Bool) :
    (c.fillActive t cls span mappedBytes rest (rest.length + 1) virgin).Books k ∧
      (c.fillActive t cls span mappedBytes rest (rest.length + 1) virgin).stake
        = uniform (fun a => .span t ⟨cls, a, some span⟩) virgin rest + c.stake := by
  have hlen : (c.active t cls).list.len = 0 := by
    rw [(h.active t cls).len, hempty]
    rfl
  have hlen' : (c.spanBins t cls).len = 0 := by
    rw [(h.spanBins t cls).len, hbin]
    rfl
  unfold ThreadCache.fillActive
  rw [Nat.add_sub_cancel]
  generalize ha : (⟨span, span, span + mappedBytes, ⟨rest, rest.length,
    if virgin = true then rest.length else 0⟩⟩ : Active) = a
  have hlist : a.list.Ok := by
    subst ha
    exact .filled rest virgin
  have hn : a.list.len = rest.length := by rw [← ha]
  have hd : Books ((c.setActive t cls a).addTierCached (t.blockSize cls * rest.length)) k := by
    refine { h with toLists := h.toLists.setActive cls hlist (fun _ => ?_) ?_ ?_ }
    · subst ha
      exact hspan
    · simp only [hlen, hn, ThreadCache.setActive, Nat.mul_comm (t.blockSize cls)]
      omega
    · simp only [hlen, hn, ThreadCache.setActive, Nat.mul_comm (t.blockSize cls)]
      omega
  have hstake : stake ((c.setActive t cls a).addTierCached (t.blockSize cls * rest.length))
      = uniform (fun p => .span t ⟨cls, p, some span⟩) virgin rest + c.stake := by
    refine add_cancel_gained (c.stake_setActive cls a _ _) ?_
    simp only [tokens, hempty, ← ha]
    rw [Bin.flagged_filled]
    exact (add_zero _).symm
  have hsame : ((c.setActive t cls a).addTierCached (t.blockSize cls * rest.length)).spanBins t cls
      = c.spanBins t cls := rfl
  dsimp only
  generalize (c.setActive t cls a).addTierCached (t.blockSize cls * rest.length) = d at *
  have hlists := hd.toLists.setSpanBin cls (b := { d.spanBins t cls with virgin := 0 })
    ⟨(hd.spanBins t cls).len, Nat.zero_le _⟩ rfl rfl
  refine ⟨{ hd with toLists := hlists }, ?_⟩
  rw [← hstake]
  have hs := d.stake_setSpanBin cls { d.spanBins t cls with virgin := 0 } d.cachedBytes
    d.tierCachedBytes
  have hold : tokens.spanBin t cls (d.spanBins t cls) = 0 := by simp [tokens, hsame, hbin, flagged]
  have hnew : tokens.spanBin t cls { d.spanBins t cls with virgin := 0 } = 0 := by
    simp [tokens, hsame, hbin, flagged]
  rw [hold, hnew, add_zero, add_zero] at hs
  exact hs

end ThreadCache

end Allox
