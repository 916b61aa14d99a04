import Allox.BigGrowth
import Allox.Proof.LargePlacement

/-!
# When growth settles

After its promotion a block is left in place by each request that keeps its class, that its mapping has
room for, or that moves the frontier. Which of the later ones have room is decided by the size at the
promotion: from an eighth of the largest big block on all of them do.
-/

namespace Allox

namespace LargeBlock

variable {a : Reservation} {f : Frontier} {api : ReallocApi} {r r' : LargeBlock} {old size : Nat}

/-- What a promotion leaves behind, and growth in place keeps. -/
structure Ok (r : LargeBlock) (old : Nat) : Prop where
  before : largeHeaderSize ≤ r.p - r.header.base
  base : r.header.base ≤ r.p
  aligned : (r.p - largeHeaderSize) % minAlign = 0
  pages : r.header.mappedSize % pageSize = 0
  inside : r.p - r.header.base < r.header.mappedSize
  below : r.p ≤ addressLimit
  requested : r.header.requestedSize ≤ old

theorem Ok.header (h : r.Ok old) : r.largeHeaderOf = some (r.header.base, r.header.mappedSize) := by
  have hbefore := h.before
  have hbase := h.base
  have hinside := h.inside
  have hbelow := h.below
  have hheader : largeHeaderSize = 48 := rfl
  have hlimit : usizeLimit = 2 ^ 64 := rfl
  have haddress : addressLimit = 2 ^ 47 := rfl
  have hoff : (r.p + (usizeLimit - r.header.base)) % usizeLimit = r.p - r.header.base := by
    have hsum : r.p + (usizeLimit - r.header.base) = r.p - r.header.base + usizeLimit := by omega
    rw [hsum, Nat.add_mod_right]
    apply Nat.mod_eq_of_lt
    omega
  have hlow : ¬(r.p < largeHeaderSize) := by omega
  have hsmall : ¬(r.header.mappedSize < largeHeaderSize) := by omega
  have hzero : ¬(r.p - r.header.base = 0) := by omega
  have hout : ¬(r.header.mappedSize ≤ r.p - r.header.base) := by omega
  unfold largeHeaderOf
  simp [hlow, h.aligned, hsmall, h.pages, hoff, hzero, hout]

/-- The frontier can be moved so that the mapping has this length. -/
def ExtendsTo (a : Reservation) (f : Frontier) (r : LargeBlock) (mapped : Nat) : Prop :=
  mapped / pageSize - r.header.mappedSize / pageSize < 2 ^ 32 ∧
    a.growFrontier f r.header.base (r.header.mappedSize / pageSize) (mapped / pageSize) = true

/-- The frontier can be moved so far that the mapping has room for the size. -/
def Extends (a : Reservation) (f : Frontier) (r : LargeBlock) (size : Nat) : Prop :=
  r.ExtendsTo a f (alignUp (size + World.pointerAlignment r.p + largeHeaderSize) pageSize)

theorem growFrontier_lt {base oldPages newPages : Nat}
    (h : a.growFrontier f base oldPages newPages = true) : oldPages < newPages := by
  unfold Reservation.growFrontier at h
  split at h
  · cases h
  · rename_i hle
    simp only [Bool.or_eq_true, decide_eq_true_eq, not_or, Nat.not_le] at hle
    exact hle.2

theorem Ok.grownTotal (h : r.Ok old) (hsize : size ≤ maxBigBlock) :
    r.grownTotal size = some (size + World.pointerAlignment r.p + largeHeaderSize) := by
  have halign : World.pointerAlignment r.p ≤ addressLimit := by
    unfold World.pointerAlignment
    split
    · exact Nat.one_le_two_pow
    · exact Nat.and_le_left.trans h.below
  have hheader : largeHeaderSize = 48 := rfl
  have hlimit : usizeLimit = 2 ^ 64 := rfl
  have haddress : addressLimit = 2 ^ 47 := rfl
  have hbig : maxBigBlock ≤ 2 ^ 40 := by decide
  have hsum : checkedAdd size (World.pointerAlignment r.p) = some (size + World.pointerAlignment r.p) :=
    checkedAdd_eq_some.2 ⟨by omega, rfl⟩
  unfold LargeBlock.grownTotal
  rw [hsum, Option.bind_eq_bind, Option.bind_some]
  exact checkedAdd_eq_some.2 ⟨by omega, rfl⟩

theorem Ok.growTo {mapped : Nat} (h : r.Ok old) (hdvd : pageSize ∣ mapped) :
    (∀ r', r.growTo a f size mapped = some r' → r'.Ok size ∧ r'.p = r.p) ∧
      ((r.growTo a f size mapped).isSome ↔ r.ExtendsTo a f mapped) := by
  unfold LargeBlock.growTo ExtendsTo
  split
  · rename_i hle
    refine ⟨nofun, iff_of_false (by simp) fun hext => ?_⟩
    exact absurd (growFrontier_lt hext.2) (Nat.not_lt.2 (Nat.div_le_div_right hle))
  · rename_i hlt
    split
    · rename_i hwide
      exact ⟨nofun, iff_of_false (by simp) fun hext => absurd hext.1 (Nat.not_lt.2 hwide)⟩
    · rename_i hnarrow
      split
      · rename_i hgrown
        refine ⟨fun r' heq => ?_, iff_of_true rfl ⟨Nat.not_le.1 hnarrow, hgrown⟩⟩
        cases heq
        exact ⟨{ h with
          pages := Nat.mod_eq_zero_of_dvd hdvd
          inside := h.inside.trans (Nat.not_le.1 hlt)
          requested := le_rfl }, rfl⟩
      · rename_i hstays
        exact ⟨nofun, iff_of_false (by simp) fun hext => hstays hext.2⟩

theorem Ok.growMapping (h : r.Ok old) (hsize : size ≤ maxBigBlock) :
    (∀ r', r.growMapping a f size = some r' → r'.Ok size ∧ r'.p = r.p) ∧
      ((r.growMapping a f size).isSome ↔ r.Extends a f size) := by
  have hheader : largeHeaderSize = 48 := rfl
  have hmax : max (size + World.pointerAlignment r.p + largeHeaderSize) largeHeaderSize
      = size + World.pointerAlignment r.p + largeHeaderSize := max_eq_left (by omega)
  have hmapping : r.growMapping a f size = r.growTo a f size
      (alignUp (size + World.pointerAlignment r.p + largeHeaderSize) pageSize) := by
    unfold LargeBlock.growMapping
    rw [h.grownTotal hsize]
    exact congrArg (fun total => r.growTo a f size (alignUp total pageSize)) hmax
  rw [hmapping]
  exact h.growTo (dvd_alignUp _ _)

/-- The condition under which a request leaves the block in place. -/
def Settles (a : Reservation) (f : Frontier) (api : ReallocApi) (r : LargeBlock) (old size : Nat) :
    Prop :=
  sameBigClass api old size = true ∨
    a.contains r.p 1 = true ∧ (size ≤ r.capacity ∨ r.Extends a f size)

theorem Ok.tryGrow (h : r.Ok old) (hlt : old < size) (hsize : size ≤ maxBigBlock) :
    (∀ r', r.tryGrowLargeFrontier a f size = some r' → r'.Ok size ∧ r'.p = r.p) ∧
      ((r.tryGrowLargeFrontier a f size).isSome ↔
        a.contains r.p 1 = true ∧ (size ≤ r.capacity ∨ r.Extends a f size)) := by
  have hinside : ¬(r.header.mappedSize < r.p - r.header.base) := Nat.not_lt.2 h.inside.le
  have hmore : ¬(size ≤ r.header.requestedSize) := by
    have hrequested := h.requested
    omega
  obtain ⟨hok, hiff⟩ := h.growMapping (a := a) (f := f) hsize
  unfold tryGrowLargeFrontier
  rw [h.header]
  dsimp only
  rw [if_neg (not_not.2 rfl), if_neg hinside, if_neg hmore]
  cases a.contains r.p 1 with
  | false => exact ⟨nofun, iff_of_false (by simp) fun hin => absurd hin.1 (by decide)⟩
  | true =>
      simp only [Bool.not_true, Bool.false_eq_true, if_false, true_and]
      split
      · rename_i hroom
        refine ⟨fun r' heq => ?_, iff_of_true rfl (.inl hroom)⟩
        cases heq
        exact ⟨{ h with requested := le_rfl }, rfl⟩
      · rename_i hfull
        exact ⟨hok, hiff.trans (or_iff_right hfull).symm⟩

/-- One request. -/
theorem Ok.step (h : r.Ok old) (api : ReallocApi) (hold : maxMediumBlock < old) (hlt : old < size)
    (hsize : size ≤ maxBigBlock) :
    (∀ r', reallocInPlace a f api r old size = some r' → r'.Ok size ∧ r'.p = r.p) ∧
      ((reallocInPlace a f api r old size).isSome ↔ r.Settles a f api old size) := by
  obtain ⟨hok, hiff⟩ := h.tryGrow (a := a) (f := f) hlt hsize
  unfold reallocInPlace Settles
  split
  · rename_i hsame
    refine ⟨fun r' heq => ?_, iff_of_true rfl (.inl hsame)⟩
    cases heq
    exact ⟨{ h with requested := h.requested.trans hlt.le }, rfl⟩
  · rename_i hother
    rw [or_iff_right hother]
    cases api with
    | c =>
        dsimp only
        split
        · exact ⟨hok, hiff⟩
        · rename_i hout
          exact ⟨nofun, iff_of_false (by simp) fun hin => hout hin.1⟩
    | global align =>
        have hpath : (align ≤ minAlign && maxMediumBlock < old && maxMediumBlock < size
            || (minAlign < align || maxBigBlock < old)) = true := by
          simp only [Bool.or_eq_true, Bool.and_eq_true, decide_eq_true_eq]
          omega
        dsimp only
        rw [if_pos hpath]
        exact ⟨hok, hiff⟩

/-! ### Runs -/

/-- The size after the requests. -/
def lastSize (old : Nat) (done : List GrowRequest) : Nat := (done.getLast?.map GrowRequest.size).getD old

/-- Requests for more and more, within the big range. -/
def Increasing : Nat → List GrowRequest → Prop
  | _, [] => True
  | old, q :: rest => old < q.size ∧ q.size ≤ maxBigBlock ∧ Increasing q.size rest

/-- Every request of the run meets the condition in the state it finds. -/
def AllSettle (a : Reservation) (r : LargeBlock) (old : Nat) (steps : List GrowRequest) : Prop :=
  ∀ done q rest r', steps = done ++ q :: rest → reallocsInPlace a r old done = some r' →
    r'.Settles a q.frontier q.api (lastSize old done) q.size

theorem lastSize_cons (q : GrowRequest) (done : List GrowRequest) :
    lastSize old (q :: done) = lastSize q.size done := by
  cases done with
  | nil => rfl
  | cons q' done => rfl

variable {q : GrowRequest} {rest steps : List GrowRequest}

theorem allSettle_cons (hstep : reallocInPlace a q.frontier q.api r old q.size = some r') :
    AllSettle a r old (q :: rest) ↔ r.Settles a q.frontier q.api old q.size ∧ AllSettle a r' q.size rest := by
  constructor
  · intro hall
    refine ⟨hall [] q rest r rfl rfl, fun done x tail r₁ hrest hrun => ?_⟩
    have hx := hall (q :: done) x tail r₁ (by rw [hrest, List.cons_append])
      (by rw [reallocsInPlace, hstep]; exact hrun)
    rwa [lastSize_cons] at hx
  · rintro ⟨hfirst, hall⟩ done x tail r₁ hsteps hrun
    cases done with
    | nil =>
        cases hsteps
        cases hrun
        exact hfirst
    | cons y done =>
        rw [List.cons_append, List.cons.injEq] at hsteps
        obtain ⟨rfl, hrest⟩ := hsteps
        rw [reallocsInPlace, hstep] at hrun
        rw [lastSize_cons]
        exact hall done x tail r₁ hrest hrun

/-- A run. The induction is on the requests, from any block a promotion leads to. -/
theorem Ok.run (h : r.Ok old) (hold : maxMediumBlock < old) (hsteps : Increasing old steps) :
    (∀ r', reallocsInPlace a r old steps = some r' → r'.p = r.p) ∧
      ((reallocsInPlace a r old steps).isSome ↔ AllSettle a r old steps) := by
  induction steps generalizing r old with
  | nil =>
      refine ⟨fun r' heq => ?_, iff_of_true rfl fun done q rest r' hnil => ?_⟩
      · cases heq
        rfl
      · exact absurd hnil.symm (List.append_ne_nil_of_right_ne_nil _ (List.cons_ne_nil _ _))
  | cons q rest ih =>
      obtain ⟨hlt, hsize, hrest⟩ := hsteps
      obtain ⟨hok, hiff⟩ := h.step (a := a) (f := q.frontier) q.api hold hlt hsize
      cases hstep : reallocInPlace a q.frontier q.api r old q.size with
      | none =>
          rw [hstep] at hiff
          rw [reallocsInPlace, hstep]
          exact ⟨nofun, iff_of_false (by simp) fun hall =>
            absurd (hiff.2 (hall [] q rest r rfl rfl)) (by simp)⟩
      | some r₁ =>
          obtain ⟨hr₁, hsame⟩ := hok r₁ hstep
          obtain ⟨hkept, hsome⟩ := ih hr₁ (hold.trans hlt) hrest
          rw [hstep] at hiff
          rw [allSettle_cons hstep, reallocsInPlace, hstep]
          exact ⟨fun r' hrun => (hkept r' hrun).trans hsame,
            hsome.trans (and_iff_right (hiff.1 rfl)).symm⟩

/-- A request that its mapping has room for leaves the room as it is. -/
theorem reallocInPlace_capacity (hstep : reallocInPlace a f api r old size = some r')
    (hroom : maxBigBlock ≤ r.capacity) (hsize : size ≤ maxBigBlock) : maxBigBlock ≤ r'.capacity := by
  have hgrow : ∀ {r₁}, r.tryGrowLargeFrontier a f size = some r₁ → r₁.capacity = r.capacity := by
    intro r₁ heq
    unfold tryGrowLargeFrontier at heq
    split at heq
    · cases heq
    · split at heq
      · cases heq
      · split at heq
        · cases heq
        · split at heq
          · cases heq
          · split at heq
            · cases heq
            · rw [if_pos (hsize.trans hroom)] at heq
              cases heq
              rfl
  unfold reallocInPlace at hstep
  split at hstep
  · cases hstep
    exact hroom
  · cases api with
    | c =>
        dsimp only at hstep
        split at hstep
        · rwa [hgrow hstep]
        · cases hstep
    | global align =>
        dsimp only at hstep
        split at hstep
        · rwa [hgrow hstep]
        · cases hstep

/-- Room for the largest big block is room for every request. -/
theorem Ok.settle_always (h : r.Ok old) (hold : maxMediumBlock < old) (hsteps : Increasing old steps)
    (hin : a.contains r.p 1 = true) (hroom : maxBigBlock ≤ r.capacity) :
    (reallocsInPlace a r old steps).isSome := by
  induction steps generalizing r old with
  | nil => rfl
  | cons q rest ih =>
      obtain ⟨hlt, hsize, hrest⟩ := hsteps
      obtain ⟨hok, hiff⟩ := h.step (a := a) (f := q.frontier) q.api hold hlt hsize
      obtain ⟨r₁, hstep⟩ := Option.isSome_iff_exists.1
        (hiff.2 (.inr ⟨hin, .inl (hsize.trans hroom)⟩))
      obtain ⟨hr₁, hp⟩ := hok r₁ hstep
      have hmapped := reallocInPlace_capacity hstep hroom hsize
      rw [reallocsInPlace, hstep]
      exact ih hr₁ (hold.trans hlt) hrest (by rwa [hp]) hmapped

end LargeBlock

/-! ### Promotions -/

section

variable {e : LargeEnv} {s : RegionCaches} {look : BigLookup} {newSize alignLog : Nat} {x : Placement}
  {a : Reservation}

theorem bigBlock_large (c : Fin SpanTier.big.num) : maxMediumBlock < SpanTier.big.blockSize c := by
  revert c
  decide

/-- What a promotion took: a size in the big range, with slack up to the reserve. -/
theorem tryPromote_some (h : tryPromoteBigGrow e s look newSize (2 ^ alignLog) = some x) :
    maxMediumBlock < newSize ∧ newSize < maxBigBlock ∧ ∃ reserve,
      reserve = min (newSize * bigGrowSlackFactor) maxBigBlock ∧
        (s.allocLargeEx e newSize (2 ^ alignLog) false (reserve - newSize)).2 = some x := by
  unfold tryPromoteBigGrow at h
  split at h
  · cases h
  · split at h
    · cases h
    · rename_i bclass _
      split at h
      · cases h
      · rename_i hgrows
        have hlarge := bigBlock_large bclass
        have hcap : min (min (newSize * bigGrowSlackFactor) (usizeLimit - 1)) maxBigBlock
            = min (newSize * bigGrowSlackFactor) maxBigBlock := by
          rw [min_assoc, min_eq_right (by decide : maxBigBlock ≤ usizeLimit - 1)]
        dsimp only at h
        rw [hcap] at h
        split at h
        · cases h
        · rename_i hslack
          exact ⟨by omega, by omega, _, rfl, h⟩

theorem fromStash_ret {pages size align : Nat} {zeroed : Bool}
    (h : (s.fromStash e pages size align zeroed).2 = some x) : x.ret = placeAt x.header.base align := by
  unfold RegionCaches.fromStash at h
  cases htake : s.own.bind fun c => c.takeLargeStash pages with
  | none =>
      rw [htake] at h
      cases h
  | some r =>
      obtain ⟨⟨base, pages⟩, left⟩ := r
      rw [htake] at h
      dsimp only at h
      generalize pages * pageSize = bytes at h
      split at h
      · cases h
        rfl
      · cases h

theorem fromShard_ret {mapped pages size align : Nat} {zeroed : Bool}
    (h : (s.fromShard e mapped pages size align zeroed).2 = some x) :
    x.ret = placeAt x.header.base align := by
  unfold RegionCaches.fromShard at h
  dsimp only at h
  generalize s.shardOf e pages = i at h
  cases htake : (s.shards i).takeFit mapped with
  | mk left taken =>
  rw [htake] at h
  cases taken with
  | none => cases h
  | some y =>
      dsimp only at h
      generalize y.pages * pageSize = bytes at h
      split at h
      · cases h
        rfl
      · cases h

theorem fromMapping_ret {mapped size align : Nat}
    (h : RegionCaches.fromMapping e mapped size align = some x) :
    x.ret = placeAt x.header.base align := by
  unfold RegionCaches.fromMapping at h
  cases hmap : e.mapping mapped with
  | none =>
      rw [hmap] at h
      cases h
  | some m =>
      rw [hmap] at h
      dsimp only at h
      split at h
      · cases h
        rfl
      · cases h

/-- Wherever the region is from, the pointer is where `placeAt` puts it. -/
theorem allocLargeEx_ret {size align slack : Nat} {zeroed : Bool}
    (h : (s.allocLargeEx e size align zeroed slack).2 = some x) :
    x.ret = placeAt x.header.base align := by
  unfold RegionCaches.allocLargeEx at h
  cases hmapped : mappedLength size align slack with
  | none =>
      rw [hmapped] at h
      cases h
  | some mapped =>
      rw [hmapped] at h
      dsimp only at h
      have hstash : (s.fromStash e (pageCount mapped) size align zeroed).2 = some x →
          x.ret = placeAt x.header.base align := fromStash_ret
      generalize s.fromStash e (pageCount mapped) size align zeroed = r at h hstash
      obtain ⟨t, o⟩ := r
      cases o with
      | some y => exact hstash h
      | none =>
          dsimp only at h
          have hshard : (t.fromShard e mapped (pageCount mapped) size align zeroed).2 = some x →
              x.ret = placeAt x.header.base align := fromShard_ret
          generalize t.fromShard e mapped (pageCount mapped) size align zeroed = r at h hshard
          obtain ⟨u, o⟩ := r
          cases o with
          | some y => exact hshard h
          | none => exact fromMapping_ret h

/-- Every region supplied starts at an aligned address. -/
def RegionCaches.Aligned (e : LargeEnv) (s : RegionCaches) : Prop :=
  ∀ mapped base bytes, s.Supplies e mapped base bytes → minAlign ∣ base

theorem ret_aligned {base : Nat} (hbase : minAlign ∣ base) (hle : base ≤ addressLimit)
    (hlog : alignLog < 64) : minAlign ∣ placeAt base (2 ^ alignLog) := by
  have hstart : minAlign ∣ base + largeHeaderSize := Nat.dvd_add hbase (by decide)
  rw [(placeAt_eq hle hlog).2]
  by_cases hwide : 4 ≤ alignLog
  · exact (Nat.pow_dvd_pow 2 hwide).trans (dvd_alignUp _ _)
  · -- the pointer is aligned as it is
    have hdvd : 2 ^ alignLog ∣ base + largeHeaderSize :=
      (Nat.pow_dvd_pow 2 (by omega : alignLog ≤ 4)).trans hstart
    obtain ⟨k, hk⟩ := hdvd
    have hsame : alignUp (base + largeHeaderSize) (2 ^ alignLog) = base + largeHeaderSize := by
      have hpos := Nat.two_pow_pos alignLog
      have hlast : 2 ^ alignLog * k + 2 ^ alignLog - 1 = 2 ^ alignLog - 1 + 2 ^ alignLog * k := by omega
      unfold alignUp
      rw [hk, hlast, Nat.add_mul_div_left _ _ hpos, Nat.div_eq_of_lt (Nat.sub_lt hpos (by decide)),
        Nat.zero_add, Nat.mul_comm]
    rwa [hsame]

theorem tryPromote_ok (hbelow : s.Below e) (haligned : s.Aligned e) (hlog : alignLog < 64)
    (h : tryPromoteBigGrow e s look newSize (2 ^ alignLog) = some x) :
    x.block.Ok newSize ∧ min (newSize * bigGrowSlackFactor) maxBigBlock ≤ x.block.capacity := by
  obtain ⟨hlow, hhigh, reserve, rfl, halloc⟩ := tryPromote_some h
  have hsmall : maxBigBlock < 2 ^ 63 := by decide
  have hheader : largeHeaderSize = 48 := rfl
  have hslack : newSize ≤ min (newSize * bigGrowSlackFactor) maxBigBlock :=
    le_min (Nat.le_mul_of_pos_right _ (by decide)) hhigh.le
  obtain ⟨hok, mapped, hmapped, hsupplies⟩ :=
    RegionCaches.allocLargeEx_placed hbelow (by omega) hlog
      ((Nat.sub_le _ _).trans (min_le_right _ _)) halloc
  have hbefore := hok.before
  have hinside := hok.inside
  have hroom := hok.room
  have hbelow' := hok.below
  have hcapacity := hok.capacity
  have hbase : minAlign ∣ x.header.base := haligned _ _ _ hsupplies
  refine ⟨⟨?_, ?_, ?_, ?_, ?_, ?_, hok.request.le⟩, ?_⟩
  · show largeHeaderSize ≤ x.ret - x.header.base
    omega
  · show x.header.base ≤ x.ret
    omega
  · show (x.ret - largeHeaderSize) % minAlign = 0
    obtain ⟨k, hk⟩ := ret_aligned hbase (by omega) hlog
    rw [allocLargeEx_ret halloc, hk, hheader]
    show (16 * k - 48) % 16 = 0
    omega
  · show x.header.mappedSize % pageSize = 0
    obtain ⟨_, _, _, _, _, hbytes⟩ | ⟨_, _, _, _, hbytes⟩ | ⟨_, _, _, hbytes⟩ := hsupplies
    · rw [← hbytes, Nat.mul_mod_left]
    · rw [← hbytes, Nat.mul_mod_left]
    · rw [← hbytes]
      exact Nat.mod_eq_zero_of_dvd (pageSize_dvd_mapped hmapped)
  · show x.ret - x.header.base < x.header.mappedSize
    omega
  · show x.ret ≤ addressLimit
    omega
  · show _ ≤ x.header.mappedSize - (x.ret - x.header.base)
    rwa [Nat.add_sub_cancel' hslack] at hcapacity

/-- **Growth after a promotion.** A later request leaves the block in place exactly if it keeps the
class, or the region is in the arena and has room for it or can be extended at the frontier. All
requests do, whatever the frontier is, exactly if the region has room for the largest big block; and it
has room for the reserve, which is that much from an eighth of it on. -/
theorem promoted_growth (hbelow : s.Below e) (haligned : s.Aligned e) (hlog : alignLog < 64)
    (h : tryPromoteBigGrow e s look newSize (2 ^ alignLog) = some x) :
    (∀ steps, LargeBlock.Increasing newSize steps →
      ((reallocsInPlace a x.block newSize steps).isSome ↔
        LargeBlock.AllSettle a x.block newSize steps)) ∧
    ((∀ steps, LargeBlock.Increasing newSize steps →
        ∃ r, reallocsInPlace a x.block newSize steps = some r ∧ r.p = x.ret) ↔
      a.contains x.ret 1 = true ∧ maxBigBlock ≤ x.block.capacity) ∧
    min (newSize * bigGrowSlackFactor) maxBigBlock ≤ x.block.capacity := by
  obtain ⟨hlow, hhigh, -⟩ := tryPromote_some h
  obtain ⟨hok, hcapacity⟩ := tryPromote_ok hbelow haligned hlog h
  refine ⟨fun steps hsteps => (hok.run hlow hsteps).2, ⟨fun hall => ?_, fun hroom steps hsteps => ?_⟩,
    hcapacity⟩
  · -- a frontier that cannot be moved
    have hone : LargeBlock.Increasing newSize [⟨.c, maxBigBlock, ⟨0, false, false⟩⟩] :=
      ⟨hhigh, le_rfl, trivial⟩
    obtain ⟨r, hrun, -⟩ := hall _ hone
    have hsettles := (hok.run hlow hone).2.1 (Option.isSome_iff_exists.2 ⟨r, hrun⟩) [] _ [] x.block rfl rfl
    obtain hsame | ⟨hin, hfits | hext⟩ := hsettles
    · cases hsame
    · exact ⟨hin, hfits⟩
    · have hmoved := hext.2
      unfold Reservation.growFrontier at hmoved
      simp at hmoved
  · obtain ⟨r, hrun⟩ := Option.isSome_iff_exists.1 (hok.settle_always hlow hsteps hroom.1 hroom.2)
    exact ⟨r, hrun, (hok.run hlow hsteps).1 r hrun⟩

end

/-- Nothing is cached, and the system maps at `2 ^ 20`. -/
def mapsOne : LargeEnv :=
  ⟨0, fun _ _ => false, fun bytes => if bytes ≤ 2 ^ 40 then some (2 ^ 20, true) else none⟩

theorem mapsOne_some {bytes : Nat} {m : Nat × Bool} (hm : m ∈ mapsOne.mapping bytes) :
    bytes ≤ 2 ^ 40 ∧ m = (2 ^ 20, true) := by
  unfold mapsOne at hm
  dsimp only at hm
  split at hm
  · rename_i hle
    cases hm
    exact ⟨hle, rfl⟩
  · cases hm

theorem mapsOne_below : RegionCaches.new.Below mapsOne where
  stash := by
    rintro c hc i hi
    cases hc
    exact absurd hi (Nat.not_lt_zero i)
  hot := fun _ x hx => absurd hx (Multiset.notMem_zero x)
  cold := fun _ x hx => absurd hx (Multiset.notMem_zero x)
  mapping := by
    intro bytes m hm
    obtain ⟨hle, rfl⟩ := mapsOne_some hm
    exact le_trans (Nat.add_le_add_left hle _) (by decide)

theorem mapsOne_aligned : RegionCaches.new.Aligned mapsOne := by
  rintro mapped base bytes (⟨c, hc, i, hi, -⟩ | ⟨i, y, hy | hy, -⟩ | ⟨m, hm, rfl, -⟩)
  · cases hc
    exact absurd hi (Nat.not_lt_zero i)
  · exact absurd hy (Multiset.notMem_zero y)
  · exact absurd hy (Multiset.notMem_zero y)
  · rw [(mapsOne_some hm).2]
    decide

/-- Promoted at 128 KiB, a block stays where it is up to 1 MiB. -/
theorem promoted_growth_eighth : ∃ x,
    tryPromoteBigGrow mapsOne .new ⟨true, false, some 0⟩ 131072 (2 ^ 4) = some x ∧
      ∀ steps, LargeBlock.Increasing 131072 steps →
        ∃ r, reallocsInPlace ⟨65536, 2 ^ 34⟩ x.block 131072 steps = some r ∧ r.p = x.ret := by
  have hpromote : ∃ x, tryPromoteBigGrow mapsOne .new ⟨true, false, some 0⟩ 131072 (2 ^ 4) = some x ∧
      Reservation.contains ⟨65536, 2 ^ 34⟩ x.ret 1 = true := ⟨_, rfl, by decide⟩
  obtain ⟨x, hx, hin⟩ := hpromote
  have hgrowth := promoted_growth (a := ⟨65536, 2 ^ 34⟩) mapsOne_below mapsOne_aligned (by decide) hx
  exact ⟨x, hx, hgrowth.2.1.2 ⟨hin, le_trans (by decide) hgrowth.2.2⟩⟩

/-- Promoted at 80 KiB it is moved again, if another region has been mapped behind it meanwhile. -/
theorem promoted_growth_moves : ∃ x,
    tryPromoteBigGrow mapsOne .new ⟨true, false, some 0⟩ 81920 (2 ^ 4) = some x ∧
      Reservation.contains ⟨65536, 2 ^ 34⟩ x.ret 1 = true ∧
      LargeBlock.Increasing 81920 [⟨.c, 2 ^ 20, ⟨2 ^ 20 + 720896, true, true⟩⟩] ∧
      (reallocsInPlace ⟨65536, 2 ^ 34⟩ x.block 81920
        [⟨.c, 2 ^ 20, ⟨2 ^ 20 + 720896, true, true⟩⟩]).isNone = true :=
  ⟨_, rfl, by decide, ⟨by decide, by decide, trivial⟩, by decide +kernel⟩

end Allox
