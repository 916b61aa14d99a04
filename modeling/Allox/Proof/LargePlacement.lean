import Allox.LargePlacement
import Allox.Proof.RegionIndex

/-!
# Where a large request lands

Below 2^47 no addition of the placement wraps, so it is the arithmetic of plain numbers: the pointer
is within header and alignment of the base, and a region of the mapped length has room for the rest.
A page count that does not fit 32 bits is the one thing that can bring a region that is too small.
-/

namespace Allox

open ArrayPrefix RegionArray

/-- Regions are mapped below this address. -/
def addressLimit : Nat := 2 ^ 47

/-! ### The mapped length -/

theorem checkedAdd_eq_some {a b c : Nat} : checkedAdd a b = some c ↔ a + b < usizeLimit ∧ c = a + b := by
  unfold checkedAdd
  split
  · rename_i h
    rw [Option.some_inj]
    exact ⟨fun heq => ⟨h, heq.symm⟩, fun heq => heq.2.symm⟩
  · rename_i h
    exact ⟨fun heq => (Option.some_ne_none _ heq.symm).elim, fun heq => absurd heq.1 h⟩

/-- The mapped length is the total rounded up to whole pages, and nothing wrapped on the way. -/
theorem mappedLength_eq_some {size align slack mapped : Nat}
    (h : mappedLength size align slack = some mapped) :
    size + align + largeHeaderSize + slack + (pageSize - 1) < usizeLimit ∧
      mapped = alignUp (size + align + largeHeaderSize + slack) pageSize := by
  unfold mappedLength at h
  simp only [Option.bind_eq_bind, Option.bind_eq_some_iff, Option.pure_def, Option.some_inj,
    checkedAdd_eq_some] at h
  obtain ⟨a, ⟨-, rfl⟩, b, ⟨-, rfl⟩, c, ⟨-, rfl⟩, v, ⟨hv, rfl⟩, rfl⟩ := h
  have hmax : max (size + align + largeHeaderSize + slack) largeHeaderSize
      = size + align + largeHeaderSize + slack := max_eq_left (by omega)
  rw [hmax] at hv ⊢
  exact ⟨hv, rfl⟩

theorem le_alignUp {v align : Nat} (halign : 0 < align) : v ≤ alignUp v align := by
  unfold alignUp
  have hdiv := Nat.div_add_mod (v + align - 1) align
  have hmod := Nat.mod_lt (v + align - 1) halign
  rw [Nat.mul_comm] at hdiv
  omega

theorem alignUp_lt {v align : Nat} (halign : 0 < align) : alignUp v align < v + align := by
  unfold alignUp
  have hle := Nat.div_mul_le_self (v + align - 1) align
  omega

theorem dvd_alignUp (v align : Nat) : align ∣ alignUp v align := Dvd.intro_left _ rfl

theorem le_mapped {size align slack mapped : Nat} (h : mappedLength size align slack = some mapped) :
    size + align + largeHeaderSize + slack ≤ mapped := by
  rw [(mappedLength_eq_some h).2]
  exact le_alignUp (by decide)

theorem mapped_lt {size align slack mapped : Nat} (h : mappedLength size align slack = some mapped) :
    mapped < size + align + largeHeaderSize + slack + pageSize := by
  rw [(mappedLength_eq_some h).2]
  exact alignUp_lt (by decide)

theorem pageSize_dvd_mapped {size align slack mapped : Nat}
    (h : mappedLength size align slack = some mapped) : pageSize ∣ mapped := by
  rw [(mappedLength_eq_some h).2]
  exact dvd_alignUp _ _

/-! ### Placement without wrapping -/

section Placement

variable {base bytes size alignLog : Nat}

/-- A pointer aligned to `2 ^ 63` is `2 ^ 63` itself, so the pointer and any size fit a word. -/
theorem ret_add_size_lt (hbase : base ≤ addressLimit) (hlog : alignLog < 64)
    (hsize : size < 2 ^ 63) :
    alignUp (base + largeHeaderSize) (2 ^ alignLog) + size < usizeLimit := by
  unfold addressLimit at hbase
  unfold usizeLimit
  have hheader : largeHeaderSize = 48 := rfl
  by_cases htop : alignLog = 63
  · have hret : alignUp (base + largeHeaderSize) (2 ^ 63) = 2 ^ 63 := by
      unfold alignUp
      omega
    rw [htop, hret]
    omega
  · have hpow : 2 ^ alignLog ≤ 2 ^ 62 := Nat.pow_le_pow_right (by decide) (by omega)
    have hret := alignUp_lt (v := base + largeHeaderSize) (Nat.two_pow_pos alignLog)
    omega

/-- `align_up` does not wrap below the address limit. -/
theorem placeAt_eq (hbase : base ≤ addressLimit) (hlog : alignLog < 64) :
    base + largeHeaderSize + 2 ^ alignLog < usizeLimit ∧
      placeAt base (2 ^ alignLog) = alignUp (base + largeHeaderSize) (2 ^ alignLog) := by
  have hpow : 2 ^ alignLog ≤ 2 ^ 63 := Nat.pow_le_pow_right (by decide) (by omega)
  have hpos := Nat.two_pow_pos alignLog
  have hheader : largeHeaderSize = 48 := rfl
  unfold addressLimit at hbase
  have hnowrap : base + largeHeaderSize + 2 ^ alignLog < usizeLimit := by
    unfold usizeLimit
    omega
  refine ⟨hnowrap, ?_⟩
  unfold placeAt alignUpWord alignUp
  rw [Nat.mod_eq_of_lt (Nat.lt_of_le_of_lt (Nat.le_add_right _ _) hnowrap),
    Nat.mod_eq_of_lt hnowrap]
  have hback : (base + largeHeaderSize + 2 ^ alignLog + (usizeLimit - 1)) % usizeLimit
      = base + largeHeaderSize + 2 ^ alignLog - 1 := by
    have hvpos : 0 < base + largeHeaderSize + 2 ^ alignLog := by omega
    generalize base + largeHeaderSize + 2 ^ alignLog = v at hnowrap hvpos ⊢
    unfold usizeLimit at hnowrap ⊢
    omega
  rw [hback]

/-- The pointer is right of the header and within header and alignment of the base. -/
theorem placeAt_bounds (base : Nat) (hbase : base ≤ addressLimit) (hlog : alignLog < 64) :
    base + largeHeaderSize ≤ placeAt base (2 ^ alignLog) ∧
      placeAt base (2 ^ alignLog) < base + largeHeaderSize + 2 ^ alignLog := by
  rw [(placeAt_eq hbase hlog).2]
  exact ⟨le_alignUp (Nat.two_pow_pos _), alignUp_lt (Nat.two_pow_pos _)⟩

theorem placeFits_iff (hregion : base + bytes ≤ addressLimit)
    (hlog : alignLog < 64) (hsize : size < 2 ^ 63) :
    placeFits base bytes size (2 ^ alignLog) = true ↔
      placeAt base (2 ^ alignLog) + size ≤ base + bytes := by
  have hbase : base ≤ addressLimit := by omega
  have hret := ret_add_size_lt hbase hlog hsize
  have hend : base + bytes < usizeLimit := by
    unfold addressLimit at hregion
    unfold usizeLimit
    omega
  unfold placeFits
  rw [decide_eq_true_eq, (placeAt_eq hbase hlog).2, Nat.mod_eq_of_lt hret, Nat.mod_eq_of_lt hend]

/-- A region of the mapped length always has room. -/
theorem placeFits_of_mapped {slack mapped : Nat}
    (hmapped : mappedLength size (2 ^ alignLog) slack = some mapped)
    (hregion : base + bytes ≤ addressLimit) (hle : mapped ≤ bytes) :
    placeFits base bytes size (2 ^ alignLog) = true := by
  have htotal := le_mapped hmapped
  have hheader : largeHeaderSize = 48 := rfl
  have hlimit : addressLimit = 2 ^ 47 := rfl
  have hpos := Nat.two_pow_pos alignLog
  have hpow : 2 ^ alignLog ≤ 2 ^ 47 := by omega
  have hlog : alignLog < 64 := by
    have := (Nat.pow_le_pow_iff_right (by decide)).1 hpow
    omega
  have hbounds := placeAt_bounds base (by omega) hlog
  rw [placeFits_iff hregion hlog (by omega)]
  omega

end Placement

/-! ### The sources -/

/-- Every region at hand, and every one the system maps, ends below the address limit. -/
structure RegionCaches.Below (e : LargeEnv) (s : RegionCaches) : Prop where
  stash : ∀ c ∈ s.own, ∀ i < c.largeLen,
    (c.large i).1 + (c.large i).2 * pageSize ≤ addressLimit
  hot : ∀ i, ∀ x ∈ (s.shards i).hot.items, x.base + x.pages * pageSize ≤ addressLimit
  cold : ∀ i, ∀ x ∈ (s.shards i).cold.items, x.base + x.pages * pageSize ≤ addressLimit
  mapping : ∀ bytes, ∀ m ∈ e.mapping bytes, m.1 + bytes ≤ addressLimit

/-- The region is one the stash, a shard or the system had for a request of this length. -/
def RegionCaches.Supplies (e : LargeEnv) (s : RegionCaches) (mapped base bytes : Nat) : Prop :=
  (∃ c ∈ s.own, ∃ i < c.largeLen, (c.large i).1 = base ∧ (c.large i).2 * pageSize = bytes) ∨
    (∃ i, ∃ y, (y ∈ (s.shards i).hot.items ∨ y ∈ (s.shards i).cold.items) ∧ y.base = base ∧
      y.pages * pageSize = bytes) ∨
    ∃ m ∈ e.mapping mapped, m.1 = base ∧ mapped = bytes

/-- What the stash hands out is one of its entries, of at least the pages asked for. -/
theorem takeLargeStash_some {c left : ThreadCache} {wanted : Nat} {r : Nat × Nat}
    (h : c.takeLargeStash wanted = some (r, left)) :
    ∃ i < c.largeLen, c.large i = r ∧ wanted ≤ r.2 := by
  unfold ThreadCache.takeLargeStash at h
  dsimp only at h
  split at h
  · rename_i i hfind
    obtain ⟨hi, hsize⟩ := find?_range_lt hfind
    rw [Option.some_inj] at h
    cases h
    exact ⟨i, hi, rfl, (beq_iff_eq.1 hsize).ge⟩
  · have hsearch := foldl_smallest (p := fun j => decide (wanted ≤ (c.large j).2))
      (s := fun j => (c.large j).2) (fun _ _ => rfl) c.largeLen
    revert hsearch h
    generalize (List.range c.largeLen).foldl _ none = best
    intro h hsearch
    cases best with
    | none => cases h
    | some i =>
        obtain ⟨hi, hfits, -⟩ := hsearch
        cases h
        exact ⟨i, hi, rfl, of_decide_eq_true hfits⟩

/-- What a shard hands out is one of its entries, of the page count looked up or of the length. -/
theorem takeFit_some {s : LargeRegionCache} {mapped : Nat} {x : TakenRegion}
    (h : (s.takeFit mapped).2 = some x) :
    (∃ y, (y ∈ s.hot.items ∨ y ∈ s.cold.items) ∧ y.base = x.base ∧ y.pages = x.pages) ∧
      (x.pages = pageCount mapped ∨ mapped ≤ x.pages * pageSize) := by
  have hhotFit := s.hot.bestFit_spec mapped
  have hcoldFit := s.cold.bestFit_spec mapped
  unfold LargeRegionCache.takeFit at h
  dsimp only at h
  split at h
  all_goals cases h
  · rename_i i hfound
    obtain ⟨hi, hsize⟩ := exactAt_some hfound
    exact ⟨⟨_, .inl (mem_items.2 ⟨i, hi, rfl⟩), rfl, rfl⟩, .inl hsize⟩
  · rename_i i _ hfound
    obtain ⟨hi, hsize⟩ := exactAt_some hfound
    exact ⟨⟨_, .inr (mem_items.2 ⟨i, hi, rfl⟩), rfl, rfl⟩, .inl hsize⟩
  · rename_i i _ _ hfound
    obtain ⟨hi, hsize⟩ := firstEqual_some hfound
    exact ⟨⟨_, .inl (mem_items.2 ⟨i, hi, rfl⟩), rfl, rfl⟩, .inl hsize⟩
  · rename_i i _ _ _ hfound
    obtain ⟨hi, hsize⟩ := firstEqual_some hfound
    exact ⟨⟨_, .inr (mem_items.2 ⟨i, hi, rfl⟩), rfl, rfl⟩, .inl hsize⟩
  · rename_i i _ _ _ _ hfound
    rw [hfound] at hhotFit
    obtain ⟨hi, hfits, -⟩ := hhotFit
    exact ⟨⟨_, .inl (mem_items.2 ⟨i, hi, rfl⟩), rfl, rfl⟩, .inr hfits⟩
  · rename_i i _ _ _ _ _ hfound
    rw [hfound] at hcoldFit
    obtain ⟨hi, hfits, -⟩ := hcoldFit
    exact ⟨⟨_, .inr (mem_items.2 ⟨i, hi, rfl⟩), rfl, rfl⟩, .inr hfits⟩

/-! ### Placement -/

/-- What a placement of `size` bytes at an alignment says of the region it is in. -/
structure Placement.Ok (x : Placement) (size align slack : Nat) : Prop where
  aligned : align ∣ x.ret
  request : x.header.requestedSize = size
  before : x.hdr + largeHeaderSize = x.ret
  inside : x.header.base ≤ x.hdr
  room : x.ret + size ≤ x.header.base + x.header.mappedSize
  capacity : size + slack ≤ x.header.mappedSize - (x.ret - x.header.base)
  below : x.header.base + x.header.mappedSize ≤ addressLimit

section

variable {base bytes size alignLog slack mapped : Nat}

/-- A placement that passes the test is right but for its slack, and the request is below the limit. -/
theorem placement_room (hregion : base + bytes ≤ addressLimit)
    (hlog : alignLog < 64) (hsize : size < 2 ^ 63)
    (hfits : placeFits base bytes size (2 ^ alignLog) = true) :
    placeAt base (2 ^ alignLog) + size ≤ base + bytes ∧ size + 2 ^ alignLog ≤ addressLimit := by
  have hroom := (placeFits_iff hregion hlog hsize).1 hfits
  have hbase : base ≤ addressLimit := by omega
  refine ⟨hroom, ?_⟩
  have hret := (placeAt_bounds _ hbase hlog).1
  have hheader : largeHeaderSize = 48 := rfl
  have hdvd : 2 ^ alignLog ∣ placeAt base (2 ^ alignLog) := by
    rw [(placeAt_eq hbase hlog).2]
    exact dvd_alignUp _ _
  have hle := Nat.le_of_dvd (by omega) hdvd
  omega

theorem placement_ok (hmapped : mappedLength size (2 ^ alignLog) slack = some mapped)
    (hregion : base + bytes ≤ addressLimit) (hlog : alignLog < 64) (hsize : size < 2 ^ 63)
    (hle : mapped ≤ bytes) (fresh known : Bool) :
    (placement base bytes size (2 ^ alignLog) fresh known).Ok size (2 ^ alignLog) slack := by
  have htotal := le_mapped hmapped
  have hheader : largeHeaderSize = 48 := rfl
  have hbase : base ≤ addressLimit := by omega
  have hbounds := placeAt_bounds _ hbase hlog
  have hfits := placeFits_of_mapped hmapped hregion hle
  have hroom := (placement_room hregion hlog hsize hfits).1
  constructor
  · change 2 ^ alignLog ∣ placeAt base (2 ^ alignLog)
    rw [(placeAt_eq hbase hlog).2]
    exact dvd_alignUp _ _
  · rfl
  · change placeAt base (2 ^ alignLog) - largeHeaderSize + largeHeaderSize = _
    exact Nat.sub_add_cancel (by omega)
  · change base ≤ placeAt base (2 ^ alignLog) - largeHeaderSize
    omega
  · exact hroom
  · change size + slack ≤ bytes - (placeAt base (2 ^ alignLog) - base)
    omega
  · exact hregion

/-- A request that passed the test in a region below the limit has a page count of 32 bits. -/
theorem pages_of_fits (hmapped : mappedLength size (2 ^ alignLog) slack = some mapped)
    (hslack : slack ≤ maxBigBlock) (hroom : size + 2 ^ alignLog ≤ addressLimit) :
    pageCount mapped = mapped / pageSize := by
  have hlt := mapped_lt hmapped
  have hheader : largeHeaderSize = 48 := rfl
  have hpage : pageSize = 65536 := rfl
  have hbig : maxBigBlock ≤ 2 ^ 40 := by decide
  have hlimit : addressLimit = 2 ^ 47 := rfl
  unfold pageCount
  apply Nat.mod_eq_of_lt
  rw [hpage] at hlt ⊢
  omega

theorem mapped_le_of_pages (hmapped : mappedLength size (2 ^ alignLog) slack = some mapped)
    {p : Nat} (hp : mapped / pageSize ≤ p) : mapped ≤ p * pageSize := by
  have hdvd := Nat.div_mul_cancel (pageSize_dvd_mapped hmapped)
  rw [← hdvd]
  exact Nat.mul_le_mul_right _ hp

end

namespace RegionCaches

variable {e : LargeEnv} {s : RegionCaches} {size alignLog slack mapped : Nat}

/-- A cached region that passed the test, with at least the pages looked up, is a right placement. -/
theorem cached_ok {base pages : Nat}
    (hmapped : mappedLength size (2 ^ alignLog) slack = some mapped) (hslack : slack ≤ maxBigBlock)
    (hlog : alignLog < 64) (hsize : size < 2 ^ 63)
    (hregion : base + pages * pageSize ≤ addressLimit)
    (hpages : pageCount mapped ≤ pages ∨ mapped ≤ pages * pageSize)
    (hfits : placeFits base (pages * pageSize) size (2 ^ alignLog) = true) (fresh known : Bool) :
    (placement base (pages * pageSize) size (2 ^ alignLog) fresh known).Ok size (2 ^ alignLog)
      slack := by
  have hroom := (placement_room hregion hlog hsize hfits).2
  refine placement_ok hmapped hregion hlog hsize ?_ fresh known
  obtain hlooked | hle := hpages
  · rw [pages_of_fits hmapped hslack hroom] at hlooked
    exact mapped_le_of_pages hmapped hlooked
  · exact hle

theorem fromStash_ok (hbelow : s.Below e)
    (hmapped : mappedLength size (2 ^ alignLog) slack = some mapped) (hslack : slack ≤ maxBigBlock)
    (hlog : alignLog < 64) (hsize : size < 2 ^ 63) {z : Bool} {x : Placement}
    (h : (s.fromStash e (pageCount mapped) size (2 ^ alignLog) z).2 = some x) :
    x.Ok size (2 ^ alignLog) slack ∧
      s.Supplies e mapped x.header.base x.header.mappedSize := by
  unfold fromStash at h
  cases htake : s.own.bind fun c => c.takeLargeStash (pageCount mapped) with
  | none =>
      rw [htake] at h
      cases h
  | some r =>
      obtain ⟨⟨base, pages⟩, left⟩ := r
      rw [htake] at h
      dsimp only at h
      obtain ⟨c, hown, hstash⟩ := Option.bind_eq_some_iff.1 htake
      obtain ⟨i, hi, hentry, hpages⟩ := takeLargeStash_some hstash
      have hregion := hbelow.stash c hown i hi
      rw [hentry] at hregion
      split at h
      · rename_i hfits
        cases h
        refine ⟨cached_ok hmapped hslack hlog hsize hregion (.inl hpages) hfits _ _, ?_⟩
        refine .inl ⟨c, hown, i, hi, ?_, ?_⟩
        · rw [hentry]
          rfl
        · rw [hentry]
          rfl
      · cases h

/-- Taking from the stash leaves the shards alone. -/
theorem fromStash_shards (size mappedPages align : Nat) (zeroed : Bool) :
    (s.fromStash e mappedPages size align zeroed).1.shards = s.shards := by
  unfold fromStash
  cases s.own.bind fun c => c.takeLargeStash mappedPages with
  | none => rfl
  | some r =>
      obtain ⟨⟨base, pages⟩, left⟩ := r
      dsimp only
      generalize pages * pageSize = regionSize
      cases placeFits base regionSize size align with
      | false => rfl
      | true => rfl

theorem fromShard_ok {s₀ : RegionCaches} (hbelow : s₀.Below e) (hshards : s.shards = s₀.shards)
    (hmapped : mappedLength size (2 ^ alignLog) slack = some mapped) (hslack : slack ≤ maxBigBlock)
    (hlog : alignLog < 64) (hsize : size < 2 ^ 63) {z : Bool} {x : Placement}
    (h : (s.fromShard e mapped (pageCount mapped) size (2 ^ alignLog) z).2
      = some x) :
    x.Ok size (2 ^ alignLog) slack ∧
      s₀.Supplies e mapped x.header.base x.header.mappedSize := by
  unfold fromShard at h
  dsimp only at h
  rw [hshards] at h
  generalize s.shardOf e (pageCount mapped) = i at h
  cases htake : (s₀.shards i).takeFit mapped with
  | mk left taken =>
  rw [htake] at h
  cases taken with
  | none => cases h
  | some y =>
      dsimp only at h
      have htaken : ((s₀.shards i).takeFit mapped).2 = some y := by rw [htake]
      obtain ⟨⟨z, hz, hbase, hpages⟩, hsizes⟩ := takeFit_some htaken
      have hregion : y.base + y.pages * pageSize ≤ addressLimit := by
        rw [← hbase, ← hpages]
        exact hz.elim (hbelow.hot i z) (hbelow.cold i z)
      split at h
      · rename_i hfits
        cases h
        have hlooked : pageCount mapped ≤ y.pages ∨ mapped ≤ y.pages * pageSize :=
          hsizes.imp (fun heq => heq.ge) id
        refine ⟨cached_ok hmapped hslack hlog hsize hregion hlooked hfits _ _, ?_⟩
        exact .inr (.inl ⟨i, z, hz, hbase, congrArg (· * pageSize) hpages⟩)
      · cases h

theorem fromMapping_ok (hbelow : s.Below e)
    (hmapped : mappedLength size (2 ^ alignLog) slack = some mapped) (hlog : alignLog < 64)
    (hsize : size < 2 ^ 63) {x : Placement}
    (h : fromMapping e mapped size (2 ^ alignLog) = some x) :
    x.Ok size (2 ^ alignLog) slack ∧
      s.Supplies e mapped x.header.base x.header.mappedSize := by
  unfold fromMapping at h
  cases hmap : e.mapping mapped with
  | none =>
      rw [hmap] at h
      cases h
  | some m =>
      rw [hmap] at h
      dsimp only at h
      split at h
      · cases h
        refine ⟨placement_ok hmapped (hbelow.mapping mapped m hmap) hlog hsize le_rfl _ _, ?_⟩
        exact .inr (.inr ⟨m, hmap, rfl, rfl⟩)
      · cases h

/-- What a request gets is placed inside a region that was supplied for it. -/
theorem allocLargeEx_placed (hbelow : s.Below e) (hsize : size < 2 ^ 63) (hlog : alignLog < 64)
    (hslack : slack ≤ maxBigBlock) {zeroed : Bool} {x : Placement}
    (hx : (s.allocLargeEx e size (2 ^ alignLog) zeroed slack).2 = some x) :
    x.Ok size (2 ^ alignLog) slack ∧ ∃ mapped ∈ mappedLength size (2 ^ alignLog) slack,
      s.Supplies e mapped x.header.base x.header.mappedSize := by
  unfold allocLargeEx at hx
  cases hmapped : mappedLength size (2 ^ alignLog) slack with
  | none =>
      rw [hmapped] at hx
      cases hx
  | some mapped =>
      rw [hmapped] at hx
      dsimp only at hx
      have hstashOk := fromStash_ok (z := zeroed) (x := x) hbelow hmapped hslack hlog hsize
      have hshards := fromStash_shards (e := e) (s := s) size
        (pageCount mapped) (2 ^ alignLog) zeroed
      generalize s.fromStash e (pageCount mapped) size (2 ^ alignLog) zeroed = r
        at hx hstashOk hshards
      obtain ⟨t, o⟩ := r
      cases o with
      | some y => exact ⟨(hstashOk hx).1, mapped, rfl, (hstashOk hx).2⟩
      | none =>
          dsimp only at hx hshards
          have hshardOk := fromShard_ok (s := t) (z := zeroed) (x := x) hbelow hshards hmapped
            hslack hlog hsize
          generalize t.fromShard e mapped (pageCount mapped) size (2 ^ alignLog) zeroed
            = r at hx hshardOk
          obtain ⟨u, o⟩ := r
          cases o with
          | some y => exact ⟨(hshardOk hx).1, mapped, rfl, (hshardOk hx).2⟩
          | none =>
              have hmap := fromMapping_ok hbelow hmapped hlog hsize hx
              exact ⟨hmap.1, mapped, rfl, hmap.2⟩

/-- **Large placement.** Whatever regions the stash, the shards and the system supply below the
address limit, a request is either refused or placed inside one of them, aligned, with its header in
front, the header recording just that region and the size, and room for the slack. The checked total
is the plain sum, and in no region below the limit does an addition of the placement wrap. -/
theorem large_placement (hbelow : s.Below e) (hsize : 1 ≤ size ∧ size < 2 ^ 63)
    (hlog : alignLog < 64) (hslack : slack ≤ maxBigBlock) (zeroed : Bool) :
    (∀ x, (s.allocLargeEx e size (2 ^ alignLog) zeroed slack).2 = some x →
      x.Ok size (2 ^ alignLog) slack ∧ ∃ mapped ∈ mappedLength size (2 ^ alignLog) slack,
        s.Supplies e mapped x.header.base x.header.mappedSize) ∧
    (∀ mapped, mappedLength size (2 ^ alignLog) slack = some mapped →
      size + 2 ^ alignLog + largeHeaderSize + slack + (pageSize - 1) < usizeLimit ∧
        mapped = alignUp (size + 2 ^ alignLog + largeHeaderSize + slack) pageSize) ∧
    ∀ base bytes, base + bytes ≤ addressLimit →
      base + largeHeaderSize + 2 ^ alignLog < usizeLimit ∧
        placeAt base (2 ^ alignLog) = alignUp (base + largeHeaderSize) (2 ^ alignLog) ∧
        placeAt base (2 ^ alignLog) + size < usizeLimit ∧ base + bytes < usizeLimit := by
  refine ⟨fun x hx => allocLargeEx_placed hbelow hsize.2 hlog hslack hx,
    fun mapped hmapped => mappedLength_eq_some hmapped, fun base bytes hregion => ?_⟩
  have hbase : base ≤ addressLimit := le_trans (Nat.le_add_right _ _) hregion
  obtain ⟨hnowrap, hret⟩ := placeAt_eq hbase hlog
  refine ⟨hnowrap, hret, ?_, ?_⟩
  · rw [hret]
    exact ret_add_size_lt hbase hlog hsize.2
  · exact lt_of_le_of_lt hregion (by decide)

/-- The pages of the largest region a stash or a shard keeps. -/
def largestParked : Nat := largeStashHugeCapBytes / pageSize

/-- A thread cache with one region of `pages` at `2 ^ 20`, and nothing else cached. -/
def oneStashed (pages : Nat) : RegionCaches :=
  { RegionCaches.new with own := ThreadCache.new.pushLargeStash (2 ^ 20) pages }

def noMapping : LargeEnv := { salt := 0, purged := fun _ _ => false, mapping := fun _ => none }

/-- The first region of a stash. -/
theorem pushLargeStash_new (base : Nat) {pages : Nat} (hpages : pages ≤ largestParked) :
    ∃ c, ThreadCache.new.pushLargeStash base pages = some c ∧ c.largeLen = 1 ∧
      c.large 0 = (base, pages) := by
  have hbytes : pages * pageSize ≤ largeStashHugeCapBytes :=
    (Nat.le_div_iff_mul_le (by decide)).1 hpages
  unfold ThreadCache.pushLargeStash
  dsimp only
  rw [if_neg]
  · exact ⟨_, rfl, rfl, rfl⟩
  · rw [Bool.or_eq_true, decide_eq_true_eq, decide_eq_true_eq, not_or, not_lt]
    refine ⟨by decide, ?_⟩
    change 0 + pages * pageSize ≤ _
    rw [Nat.zero_add]
    split
    · exact hbytes
    · rename_i hsmall
      exact (Nat.not_le.1 hsmall).le.trans (by decide)

theorem oneStashed_below {pages : Nat} (hpages : pages ≤ largestParked) :
    (oneStashed pages).Below noMapping where
  stash := by
    obtain ⟨c, hown, hlen, hentry⟩ := pushLargeStash_new (2 ^ 20) hpages
    intro d hd i hi
    obtain rfl := Option.some.inj (hown.symm.trans hd)
    obtain rfl : i = 0 := by omega
    have hbytes : pages * pageSize ≤ largeStashHugeCapBytes :=
      (Nat.le_div_iff_mul_le (by decide)).1 hpages
    rw [hentry]
    change 2 ^ 20 + pages * pageSize ≤ addressLimit
    exact le_trans (Nat.add_le_add_left hbytes _) (by decide)
  hot := fun _ x hx => absurd hx (Multiset.notMem_zero x)
  cold := fun _ x hx => absurd hx (Multiset.notMem_zero x)
  mapping := fun _ _ hm => (Option.not_mem_none _ hm).elim

/-- 100000 bytes at 4096 that are to grow by 50000, from the stash. -/
theorem large_placement_stashed :
    ∃ x, ((oneStashed 3).allocLargeEx noMapping 100000 (2 ^ 12) false 50000).2 = some x ∧
      x.fresh = false ∧ x.Ok 100000 (2 ^ 12) 50000 ∧
      ∃ mapped ∈ mappedLength 100000 (2 ^ 12) 50000,
        (oneStashed 3).Supplies noMapping mapped x.header.base x.header.mappedSize := by
  have hbelow : (oneStashed 3).Below noMapping := oneStashed_below (by decide)
  exact ⟨_, rfl, rfl, (large_placement hbelow (by decide) (by decide) (by decide) false).1 _ rfl⟩

/-! ### Regions that do not fit -/

/-- The stashes pushes and takes lead to; whatever else a cache does leaves its stash alone. -/
inductive StashReach : ThreadCache → Prop
  | new : StashReach .new
  | push {c left : ThreadCache} {base pages : Nat} (hpages : 1 ≤ pages) (h : StashReach c)
      (hpush : c.pushLargeStash base pages = some left) : StashReach left
  | take {c left : ThreadCache} {r : Nat × Nat} {wanted : Nat} (h : StashReach c)
      (htake : c.takeLargeStash wanted = some (r, left)) : StashReach left
  | other {c c' : ThreadCache} (h : StashReach c) (hlen : c'.largeLen = c.largeLen)
      (hlarge : c'.large = c.large) (hbytes : c'.largeBytes = c.largeBytes) : StashReach c'

structure Reach (s : RegionCaches) : Prop where
  stash : ∀ c ∈ s.own, StashReach c
  shards : ∀ i, (s.shards i).Reach

/-- Whatever is cached, what the caches hand out for the request has the mapped length and passes the
test, and nothing is evicted. -/
def CachedFits (size align slack : Nat) : Prop :=
  ∀ (e : LargeEnv) (s : RegionCaches), s.Reach → s.Below e →
    ∀ mapped ∈ mappedLength size align slack,
      (∀ c ∈ s.own, ∀ r left, c.takeLargeStash (pageCount mapped) = some (r, left) →
        mapped ≤ r.2 * pageSize ∧ placeFits r.1 (r.2 * pageSize) size align = true) ∧
      (∀ i x, ((s.shards i).takeFit mapped).2 = some x →
        mapped ≤ x.pages * pageSize ∧ placeFits x.base (x.pages * pageSize) size align = true) ∧
      ∀ zeroed, (s.allocLargeEx e size align zeroed slack).1.evicted = s.evicted

theorem removeStash_large {c : ThreadCache} {i j : Nat} (hj : j < (c.removeStash i).2.largeLen) :
    ∃ k < c.largeLen, (c.removeStash i).2.large j = c.large k := by
  have hlen : (c.removeStash i).2.largeLen = c.largeLen - 1 := rfl
  rw [hlen] at hj
  unfold ThreadCache.removeStash
  dsimp only
  rw [Function.update_of_ne hj.ne]
  by_cases heq : j = i
  · rw [heq, Function.update_self]
    exact ⟨c.largeLen - 1, by omega, rfl⟩
  · rw [Function.update_of_ne heq]
    exact ⟨j, by omega, rfl⟩

theorem takeLargeStash_removeStash {c left : ThreadCache} {wanted : Nat} {r : Nat × Nat}
    (h : c.takeLargeStash wanted = some (r, left)) : ∃ i, left = (c.removeStash i).2 := by
  unfold ThreadCache.takeLargeStash at h
  dsimp only at h
  split at h
  · rename_i i _
    rw [Option.some_inj] at h
    exact ⟨i, by rw [h]⟩
  · obtain ⟨i, -, hi⟩ := Option.map_eq_some_iff.1 h
    exact ⟨i, by rw [hi]⟩

/-- A region in a stash is a page at least and never above the bound. -/
theorem StashReach.parked {c : ThreadCache} (h : StashReach c) :
    ∀ i < c.largeLen, (c.large i).2 ≤ largestParked := by
  induction h with
  | new => exact fun i hi => absurd hi (Nat.not_lt_zero i)
  | @push c left base pages hpages _ hpush ih =>
      intro i hi
      unfold ThreadCache.pushLargeStash at hpush
      dsimp only at hpush
      generalize hchosen : (if largeStashHugeThreshold ≤ pages * pageSize
        then largeStashHugeCapBytes else largeStashCapBytes) = cap at hpush
      have hcap : cap ≤ largeStashHugeCapBytes := by
        rw [← hchosen]
        split <;> decide
      split at hpush
      · cases hpush
      · rename_i hroom
        rw [Bool.or_eq_true, decide_eq_true_eq, decide_eq_true_eq, not_or, not_lt] at hroom
        cases hpush
        dsimp only at hi ⊢
        rcases Nat.lt_succ_iff_lt_or_eq.1 hi with hlt | rfl
        · rw [Function.update_of_ne hlt.ne]
          exact ih i hlt
        · rw [Function.update_self]
          have hbytes : pages * pageSize ≤ largeStashHugeCapBytes :=
            le_trans (Nat.le_add_left _ _) (hroom.2.trans hcap)
          exact (Nat.le_div_iff_mul_le (by decide)).2 hbytes
  | take h htake ih =>
      obtain ⟨i, rfl⟩ := takeLargeStash_removeStash htake
      intro j hj
      obtain ⟨k, hk, heq⟩ := removeStash_large hj
      rw [heq]
      exact ih k hk
  | other _ hlen hlarge _ ih =>
      rw [hlen, hlarge]
      exact ih

theorem remove_items_sub {a : RegionArray} {i : Nat} (hi : i < a.len) {x : TakenRegion}
    (hx : x ∈ (a.remove i).1.items) : x ∈ a.items := by
  rw [remove_items hi]
  exact Multiset.mem_add.2 (.inr hx)

/-- A take leaves entries that were there. -/
theorem takeFit_sub (s : LargeRegionCache) (mapped : Nat) {x : TakenRegion}
    (hx : x ∈ (s.takeFit mapped).1.hot.items + (s.takeFit mapped).1.cold.items) :
    x ∈ s.hot.items + s.cold.items := by
  have hhot : ∀ i < s.hot.len, x ∈ (s.removeHot i).1.hot.items + (s.removeHot i).1.cold.items →
      x ∈ s.hot.items + s.cold.items := by
    intro i hi h
    rcases Multiset.mem_add.1 h with h | h
    · exact Multiset.mem_add.2 (.inl (remove_items_sub hi h))
    · exact Multiset.mem_add.2 (.inr h)
  have hcold : ∀ i < s.cold.len, x ∈ (s.removeCold i).1.hot.items + (s.removeCold i).1.cold.items →
      x ∈ s.hot.items + s.cold.items := by
    intro i hi h
    rcases Multiset.mem_add.1 h with h | h
    · exact Multiset.mem_add.2 (.inl h)
    · exact Multiset.mem_add.2 (.inr (remove_items_sub hi h))
  unfold LargeRegionCache.takeFit at hx
  dsimp only at hx
  split at hx
  · rename_i h
    exact hhot _ (exactAt_lt h) hx
  · rename_i h
    exact hcold _ (exactAt_lt h) hx
  · rename_i h
    exact hhot _ (firstEqual_lt h) hx
  · rename_i h
    exact hcold _ (firstEqual_lt h) hx
  · rename_i h
    exact hhot _ (bestFit_lt h) hx
  · rename_i h
    exact hcold _ (bestFit_lt h) hx
  · exact hx

/-- No region in a shard is above the bound either. -/
theorem shardReach_parked {s : LargeRegionCache} (h : s.Reach) :
    ∀ x ∈ s.hot.items + s.cold.items, x.pages ≤ largestParked := by
  induction h with
  | new => exact fun x hx => absurd hx (Multiset.notMem_zero x)
  | @park s d base mapped hwhole _ ih =>
      have hnew : ∀ cap, cap ≤ largeStashHugeCapBytes → mapped ≤ cap →
          mapped / pageSize % 2 ^ 32 ≤ largestParked := by
        intro cap hcap hle
        exact le_trans (Nat.mod_le _ _) (Nat.div_le_div_right (hle.trans hcap))
      intro x hx
      unfold LargeRegionCache.park at hx
      dsimp only at hx
      split at hx
      · rename_i hroom
        rw [Bool.and_eq_true, decide_eq_true_eq, decide_eq_true_eq] at hroom
        rw [push_items, add_assoc, Multiset.mem_add, Multiset.mem_singleton] at hx
        rcases hx with rfl | hx
        · exact hnew largeShardCapBytes (by decide) (le_trans (Nat.le_add_left _ _) hroom.2)
        · exact ih x hx
      · split at hx
        · rename_i hroom
          rw [Bool.and_eq_true, decide_eq_true_eq, decide_eq_true_eq] at hroom
          rw [push_items, add_left_comm, Multiset.mem_add, Multiset.mem_singleton] at hx
          rcases hx with rfl | hx
          · exact hnew largeColdCapBytes (by decide) (le_trans (Nat.le_add_left _ _) hroom.2)
          · exact ih x hx
        · exact ih x hx
  | take mapped _ ih => exact fun x hx => ih x (takeFit_sub _ mapped hx)

section

variable {e : LargeEnv} {s : RegionCaches} {size alignLog slack mapped : Nat}

/-- Where the narrowed page count is right, or too large for anything kept, looking it up brings a
region of the mapped length. -/
theorem mapped_le_of_looked (hmapped : mappedLength size (2 ^ alignLog) slack = some mapped)
    (hcond : mapped < 2 ^ 48 ∨ largestParked < pageCount mapped) {p : Nat}
    (hparked : p ≤ largestParked) (hp : pageCount mapped ≤ p) : mapped ≤ p * pageSize := by
  obtain hlt | hlarge := hcond
  · have hexact : pageCount mapped = mapped / pageSize := by
      unfold pageCount
      apply Nat.mod_eq_of_lt
      have hpage : pageSize = 65536 := rfl
      rw [hpage]
      omega
    rw [hexact] at hp
    exact mapped_le_of_pages hmapped hp
  · omega

theorem stash_fits (hreach : s.Reach) (hbelow : s.Below e)
    (hmapped : mappedLength size (2 ^ alignLog) slack = some mapped)
    (hcond : mapped < 2 ^ 48 ∨ largestParked < pageCount mapped) {c left : ThreadCache}
    {r : Nat × Nat} (hc : c ∈ s.own) (htake : c.takeLargeStash (pageCount mapped) = some (r, left)) :
    mapped ≤ r.2 * pageSize ∧ placeFits r.1 (r.2 * pageSize) size (2 ^ alignLog) = true := by
  obtain ⟨i, hi, rfl, hpages⟩ := takeLargeStash_some htake
  have hle := mapped_le_of_looked hmapped hcond ((hreach.stash c hc).parked i hi) hpages
  exact ⟨hle, placeFits_of_mapped hmapped (hbelow.stash c hc i hi) hle⟩

theorem shard_fits (hreach : s.Reach) (hbelow : s.Below e)
    (hmapped : mappedLength size (2 ^ alignLog) slack = some mapped)
    (hcond : mapped < 2 ^ 48 ∨ largestParked < pageCount mapped) {i : Fin numLargeShards}
    {x : TakenRegion} (htake : ((s.shards i).takeFit mapped).2 = some x) :
    mapped ≤ x.pages * pageSize ∧
      placeFits x.base (x.pages * pageSize) size (2 ^ alignLog) = true := by
  obtain ⟨⟨y, hy, hbase, hpages⟩, hsizes⟩ := takeFit_some htake
  have hregion : x.base + x.pages * pageSize ≤ addressLimit := by
    rw [← hbase, ← hpages]
    exact hy.elim (hbelow.hot i y) (hbelow.cold i y)
  have hparked : x.pages ≤ largestParked := by
    rw [← hpages]
    exact shardReach_parked (hreach.shards i) y (Multiset.mem_add.2 hy)
  have hle : mapped ≤ x.pages * pageSize := by
    obtain hlooked | hle := hsizes
    · exact mapped_le_of_looked hmapped hcond hparked hlooked.ge
    · exact hle
  exact ⟨hle, placeFits_of_mapped hmapped hregion hle⟩

/-- A stash whose regions fit is left without an eviction. -/
theorem fromStash_evicted (size pages align : Nat) (zeroed : Bool)
    (hfits : ∀ c ∈ s.own, ∀ r left, c.takeLargeStash pages = some (r, left) →
      placeFits r.1 (r.2 * pageSize) size align = true) :
    (s.fromStash e pages size align zeroed).1.evicted = s.evicted := by
  unfold fromStash
  cases htake : s.own.bind fun c => c.takeLargeStash pages with
  | none => rfl
  | some r =>
      obtain ⟨r, left⟩ := r
      obtain ⟨c, hown, hstash⟩ := Option.bind_eq_some_iff.1 htake
      have hroom := hfits c hown r left hstash
      dsimp only
      generalize r.2 * pageSize = regionSize at hroom ⊢
      rw [if_pos hroom]

theorem fromShard_evicted (size mapped pages align : Nat) (zeroed : Bool)
    (hfits : ∀ i x, ((s.shards i).takeFit mapped).2 = some x →
      placeFits x.base (x.pages * pageSize) size align = true) :
    (s.fromShard e mapped pages size align zeroed).1.evicted = s.evicted := by
  unfold fromShard
  dsimp only
  generalize s.shardOf e pages = i
  have hroom := hfits i
  generalize (s.shards i).takeFit mapped = taken at hroom
  obtain ⟨left, taken⟩ := taken
  cases taken with
  | none => rfl
  | some x =>
      have hfit := hroom x rfl
      dsimp only
      generalize x.pages * pageSize = regionSize at hfit ⊢
      rw [if_pos hfit]

theorem cachedFits_of (hmapped : mappedLength size (2 ^ alignLog) slack = some mapped)
    (hcond : mapped < 2 ^ 48 ∨ largestParked < pageCount mapped) :
    CachedFits size (2 ^ alignLog) slack := by
  intro e s hreach hbelow m hm
  obtain rfl : mapped = m := Option.some_inj.1 (hmapped.symm.trans hm)
  refine ⟨fun c hc r left htake => stash_fits hreach hbelow hmapped hcond hc htake,
    fun i x htake => shard_fits hreach hbelow hmapped hcond htake, fun zeroed => ?_⟩
  have hstash := fromStash_evicted (e := e) (s := s) size (pageCount mapped) (2 ^ alignLog) zeroed
    fun c hc r left htake => (stash_fits hreach hbelow hmapped hcond hc htake).2
  have hshards := fromStash_shards (e := e) (s := s) size
    (pageCount mapped) (2 ^ alignLog) zeroed
  unfold allocLargeEx
  rw [hmapped]
  dsimp only
  generalize s.fromStash e (pageCount mapped) size (2 ^ alignLog) zeroed = r at hstash hshards ⊢
  obtain ⟨t, o⟩ := r
  dsimp only at hstash hshards
  cases o with
  | some x => exact hstash
  | none =>
      have hshard := fromShard_evicted (e := e) (s := t) size mapped (pageCount mapped)
        (2 ^ alignLog) zeroed fun i x htake => by
          rw [hshards] at htake
          exact (shard_fits hreach hbelow hmapped hcond htake).2
      dsimp only
      generalize t.fromShard e mapped (pageCount mapped) size (2 ^ alignLog) zeroed = r
        at hshard ⊢
      obtain ⟨u, o⟩ := r
      dsimp only at hshard
      cases o with
      | some x => exact hshard.trans hstash
      | none => exact hshard.trans hstash

end

/-! ### The narrowed page count -/

/-- A miss means that every region in the stash is too small. -/
theorem takeLargeStash_none {c : ThreadCache} {wanted : Nat} (h : c.takeLargeStash wanted = none) :
    ∀ i < c.largeLen, (c.large i).2 < wanted := by
  unfold ThreadCache.takeLargeStash at h
  dsimp only at h
  split at h
  · cases h
  · have hsearch := foldl_smallest (p := fun j => decide (wanted ≤ (c.large j).2))
      (s := fun j => (c.large j).2) (fun _ _ => rfl) c.largeLen
    rw [Option.map_eq_none_iff] at h
    revert hsearch
    rw [h]
    exact fun hsearch i hi => Nat.not_le.1 (of_decide_eq_false (hsearch i hi))

section

variable {pages : Nat}

theorem oneStashed_reach (hpos : 1 ≤ pages) : (oneStashed pages).Reach where
  stash := fun _ hc => .push hpos .new hc
  shards := fun _ => .new

/-- A page count cut down to one a stash can hold is answered with a region below the length. -/
theorem not_cachedFits {size align slack mapped : Nat}
    (hmapped : mappedLength size align slack = some mapped) (hlarge : 2 ^ 48 ≤ mapped)
    (hcut : pageCount mapped ≤ largestParked) : ¬ CachedFits size align slack := by
  intro hfits
  -- a region of the page count looked up, or of one page where that is zero
  have hpages : max 1 (pageCount mapped) ≤ largestParked := max_le (by decide) hcut
  obtain ⟨c, hown, hlen, hentry⟩ := pushLargeStash_new (2 ^ 20) hpages
  obtain ⟨hstash, -, -⟩ := hfits noMapping (oneStashed (max 1 (pageCount mapped)))
    (oneStashed_reach (le_max_left _ _)) (oneStashed_below hpages) mapped hmapped
  cases htake : c.takeLargeStash (pageCount mapped) with
  | none =>
      have hsmall := takeLargeStash_none htake 0 (by omega)
      rw [hentry] at hsmall
      exact absurd hsmall (Nat.not_lt.2 (le_max_right _ _))
  | some r =>
      obtain ⟨r, left⟩ := r
      obtain ⟨i, hi, hr, -⟩ := takeLargeStash_some htake
      obtain rfl : i = 0 := by omega
      have hle := (hstash c hown r left htake).1
      rw [← hr, hentry] at hle
      have hbytes : max 1 (pageCount mapped) * pageSize ≤ largeStashHugeCapBytes :=
        (Nat.le_div_iff_mul_le (by decide)).1 hpages
      have hcap : largeStashHugeCapBytes < 2 ^ 48 := by decide
      dsimp only at hle
      omega

end

/-- **Cached regions fit** exactly the requests whose page count is not cut down to one that a stash
or a shard can hold. -/
theorem cached_fits_iff {size alignLog slack mapped : Nat}
    (hmapped : mappedLength size (2 ^ alignLog) slack = some mapped) :
    CachedFits size (2 ^ alignLog) slack ↔
      mapped < 2 ^ 48 ∨ largestParked < pageCount mapped := by
  constructor
  · intro hfits
    by_contra hcond
    rw [not_or, not_lt, not_lt] at hcond
    exact not_cachedFits hmapped hcond.1 hcond.2 hfits
  · exact cachedFits_of hmapped

theorem cached_fits_page : CachedFits 100000 (2 ^ 12) 0 := by
  have hmapped : mappedLength 100000 (2 ^ 12) 0 = some 131072 := by decide
  exact (cached_fits_iff hmapped).2 (.inl (by decide))

/-- A request for 2^48 bytes looks up one page, finds one and evicts it. -/
theorem cached_evicted_by_huge :
    ((oneStashed 1).allocLargeEx noMapping (2 ^ 48) 1 false 0).1.evicted = [(2 ^ 20, 65536)] ∧
      ¬ CachedFits (2 ^ 48) 1 0 := by
  have hmapped : mappedLength (2 ^ 48) 1 0 = some (2 ^ 48 + 65536) := by decide
  exact ⟨by decide +kernel, not_cachedFits hmapped (by decide) (by decide)⟩

end RegionCaches

end Allox
