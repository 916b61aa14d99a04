import Allox.CFunctions
import Allox.Proof.EntryPoints

/-!
# The contract of the C functions

The invariant is about each block on its own: it has room for its size, its pointer is a multiple of its
alignment, and a block that is not in a region of its own is not aligned to more than all blocks are. So
what is read for its pointer settles where it is from, whatever bytes users have written.
-/

namespace Allox

/-! ### Alignment -/

/-- The alignment read off an address is a power of two that divides it. -/
theorem pointerAlignment_eq {p : Nat} (hpos : 0 < p) (hlt : p < 2 ^ 64) :
    ∃ k < 64, World.pointerAlignment p = 2 ^ k := by
  obtain ⟨k, m, hodd, rfl⟩ := Nat.exists_eq_two_pow_mul_odd hpos.ne'
  have hmpos := hodd.pos
  have hk : k < 64 := by
    by_contra hge
    have hle := Nat.pow_le_pow_right (by decide : 0 < 2) (Nat.le_of_not_lt hge)
    exact absurd (hlt.trans_le (hle.trans (Nat.le_mul_of_pos_right _ hmpos))) (lt_irrefl _)
  have hpow : 2 ^ 64 = 2 ^ k * 2 ^ (64 - k) := by
    rw [← pow_add, Nat.add_sub_cancel' hk.le]
  have hm : m < 2 ^ (64 - k) := by
    rw [hpow] at hlt
    exact Nat.lt_of_mul_lt_mul_left hlt
  obtain ⟨q, rfl⟩ := hodd
  have hflip : 2 ^ 64 - 2 ^ k * (2 * q + 1) = 2 ^ k * (2 ^ (64 - k) - (2 * q + 1)) := by
    rw [hpow, Nat.mul_sub]
  refine ⟨k, hk, ?_⟩
  unfold World.pointerAlignment
  rw [if_neg hpos.ne', hflip]
  apply Nat.eq_of_testBit_eq
  intro i
  rw [Nat.testBit_and, Nat.testBit_two_pow_mul, Nat.testBit_two_pow_mul, Nat.testBit_two_pow,
    Nat.testBit_two_pow_sub_succ (by omega : 2 * q < 2 ^ (64 - k))]
  by_cases hi : i = k
  · subst hi
    simp [Nat.testBit_zero]
    omega
  · -- above the lowest bit the two are complements, below it both are zero
    have hne : ¬k = i := fun h => hi h.symm
    by_cases hki : k ≤ i
    · obtain ⟨j, rfl⟩ : ∃ j, i = k + (j + 1) := ⟨i - k - 1, by omega⟩
      have hhalf : (2 * q + 1) / 2 = 2 * q / 2 := by omega
      rw [Nat.add_sub_cancel_left, Nat.testBit_succ (2 * q + 1), Nat.testBit_succ (2 * q), hhalf]
      cases (2 * q / 2).testBit j <;> simp
    · simp [hki, hne]

/-! ### Regions -/

namespace LargeBlock

variable {a : Reservation} {f : Frontier} {r r' : LargeBlock} {old size : Nat}

/-- A region that grew where it is, to whatever size. -/
theorem Ok.grown (h : r.Ok old) (hgrow : r.tryGrowLargeFrontier a f size = some r') : r'.Ok size := by
  unfold tryGrowLargeFrontier at hgrow
  rw [h.header] at hgrow
  dsimp only at hgrow
  split at hgrow
  · cases hgrow
  · split at hgrow
    · cases hgrow
    · split at hgrow
      · cases hgrow
      · split at hgrow
        · cases hgrow
        · split at hgrow
          · cases hgrow
            exact { h with requested := le_rfl }
          · unfold LargeBlock.growMapping at hgrow
            cases htotal : r.grownTotal size with
            | none =>
                rw [htotal] at hgrow
                cases hgrow
            | some total =>
                rw [htotal] at hgrow
                exact ((h.growTo (dvd_alignUp _ _)).1 r' hgrow).1

end LargeBlock

section

variable {e : LargeEnv} {s : RegionCaches} {size alignLog slack : Nat} {zeroed : Bool} {x : Placement}

/-- A region just placed, with the pointer at a multiple of the alignment asked for. -/
theorem allocLargeEx_ok (hbelow : s.Below e) (haligned : s.Aligned e) (hpos : 0 < size)
    (hsize : size < 2 ^ 63) (hlog : alignLog < 64) (hslack : slack ≤ maxBigBlock)
    (h : (s.allocLargeEx e size (2 ^ alignLog) zeroed slack).2 = some x) :
    x.block.Ok size ∧ 2 ^ alignLog ∣ x.block.p := by
  obtain ⟨hok, mapped, hmapped, hsupplies⟩ :=
    RegionCaches.allocLargeEx_placed hbelow hsize hlog hslack h
  have hbefore := hok.before
  have hinside := hok.inside
  have hroom := hok.room
  have hlimit := hok.below
  have hheader : largeHeaderSize = 48 := rfl
  have hbase : minAlign ∣ x.header.base := haligned _ _ _ hsupplies
  refine ⟨⟨?_, ?_, ?_, ?_, ?_, ?_, hok.request.le⟩, hok.aligned⟩
  · show largeHeaderSize ≤ x.ret - x.header.base
    omega
  · show x.header.base ≤ x.ret
    omega
  · show (x.ret - largeHeaderSize) % minAlign = 0
    obtain ⟨k, hk⟩ := ret_aligned hbase (by omega) hlog
    rw [allocLargeEx_ret h, hk, hheader]
    show (16 * k - 48) % 16 = 0
    omega
  · show x.header.mappedSize % pageSize = 0
    obtain ⟨_, _, _, _, _, hbytes⟩ | ⟨_, _, _, _, hbytes⟩ | ⟨_, _, _, hbytes⟩ := hsupplies
    · rw [← hbytes, Nat.mul_mod_left]
    · rw [← hbytes, Nat.mul_mod_left]
    · rw [← hbytes]
      exact Nat.mod_eq_zero_of_dvd (pageSize_dvd_mapped hmapped)
  · show x.ret - x.header.base < x.header.mappedSize
    omega
  · show x.ret ≤ addressLimit
    omega

end

/-! ### Blocks -/

namespace Backing

/-- Where every block is. -/
def Sited (b : Backing) : Prop := minAlign ∣ b.ptr ∧ largeHeaderSize ≤ b.ptr ∧ b.ptr < usizeLimit

/-- A block of a packed tier. -/
def Packed (b : Backing) : Prop := b.Sited ∧ ∀ r, b ≠ .large r

/-- What a live block is for the size and the alignment it was asked for. -/
structure Fits (size align : Nat) (b : Backing) : Prop where
  sited : b.Sited
  room : size ≤ b.capacity
  aligned : align ∣ b.ptr
  packed : (∀ r, b ≠ .large r) → align ∣ minAlign
  region : ∀ r, b = .large r → r.Ok size ∧ r.Near

variable {b : Backing} {size align j : Nat}

theorem Fits.of_dvd {align' : Nat} (h : b.Fits size align) (hdvd : align' ∣ align) :
    b.Fits size align' where
  sited := h.sited
  room := h.room
  aligned := hdvd.trans h.aligned
  packed := fun hpacked => hdvd.trans (h.packed hpacked)
  region := h.region

/-- Any block will do for the alignment that all have. -/
theorem Fits.minimal (h : b.Fits size align) : b.Fits size minAlign where
  sited := h.sited
  room := h.room
  aligned := h.sited.1
  packed := fun _ => dvd_refl _
  region := h.region

theorem two_pow_dvd_minAlign (h : 2 ^ j ≤ minAlign) : 2 ^ j ∣ minAlign := by
  have hj : j ≤ 4 := (Nat.pow_le_pow_iff_right (by decide : 1 < 2)).1 h
  exact Nat.pow_dvd_pow 2 hj

theorem Packed.fits (h : b.Packed) (hserves : b.Serves size (2 ^ j)) : b.Fits size (2 ^ j) := by
  have hlow : 2 ^ j ≤ minAlign := by
    cases b with
    | small cls p => exact hserves.1
    | span t cls p => exact hserves.1
    | large r => exact absurd rfl (h.2 r)
  have hdvd := two_pow_dvd_minAlign hlow
  exact ⟨h.1, hserves.fits, hdvd.trans h.1.1, fun _ => hdvd, fun r heq => absurd heq (h.2 r)⟩

/-- The alignment read off the pointer is one the block has, and no less than the one asked for. -/
theorem Fits.pointerAlignment (h : b.Fits size (2 ^ j)) :
    ∃ k < 64, World.pointerAlignment b.ptr = 2 ^ k ∧ 2 ^ j ∣ 2 ^ k := by
  obtain ⟨-, hlow, hlimit⟩ := h.sited
  have hheader : largeHeaderSize = 48 := rfl
  have hpos : 0 < b.ptr := by omega
  obtain ⟨k, hk, heq⟩ := pointerAlignment_eq hpos hlimit
  have hle := le_pointerAlignment hpos hlimit h.aligned
  rw [heq] at hle
  exact ⟨k, hk, heq, Nat.pow_dvd_pow 2 ((Nat.pow_le_pow_iff_right (by decide : 1 < 2)).1 hle)⟩

end Backing

theorem LargeBlock.Ok.sited {r : LargeBlock} {size : Nat} (h : r.Ok size) : (Backing.large r).Sited := by
  have hbefore := h.before
  have haligned : (r.p - largeHeaderSize) % 16 = 0 := h.aligned
  have hbelow := h.below
  have hheader : largeHeaderSize = 48 := rfl
  have haddress : addressLimit = 2 ^ 47 := rfl
  have hlimit : usizeLimit = 2 ^ 64 := rfl
  refine ⟨?_, ?_, ?_⟩
  · show 16 ∣ r.p
    omega
  · show largeHeaderSize ≤ r.p
    omega
  · show r.p < usizeLimit
    omega

/-- A region with room and its pointer where it should be. -/
theorem LargeBlock.Ok.fits {r : LargeBlock} {size align : Nat} (h : r.Ok size) (hnear : r.Near)
    (hroom : size ≤ r.capacity) (haligned : align ∣ r.p) : (Backing.large r).Fits size align where
  sited := h.sited
  room := hroom
  aligned := haligned
  packed := fun hpacked => absurd rfl (hpacked r)
  region := by
    intro r' heq
    cases heq
    exact ⟨h, hnear⟩

/-- What the layers below answer: regions below the address limit, and blocks at multiples of the least
alignment. -/
structure Answers.Sound (e : Answers) : Prop where
  below : e.Below
  aligned : e.caches.Aligned e.env
  carved : ∀ p, e.pick = .carved p → minAlign ∣ p ∧ largeHeaderSize ≤ p ∧ p < usizeLimit

/-- A region placed for an allocation, a promotion or a move. -/
theorem Answers.Sound.placed {e : Answers} {size alignLog slack : Nat} {zeroed : Bool} {x : Placement}
    (he : e.Sound) (hpos : 0 < size) (hsize : size < 2 ^ 63) (hlog : alignLog < 64)
    (hslack : slack ≤ maxBigBlock)
    (h : (e.caches.allocLargeEx e.env size (2 ^ alignLog) zeroed slack).2 = some x) :
    (Backing.large x.block).Fits size (2 ^ alignLog) := by
  obtain ⟨hok, haligned⟩ := allocLargeEx_ok he.below he.aligned hpos hsize hlog hslack h
  obtain ⟨hnear, hroom, -⟩ := allocLargeEx_near he.below hpos hsize hlog hslack h
  exact hok.fits hnear hroom haligned

/-! ### Free blocks -/

namespace Pools

variable {h : Pools} {pick : Pick} {e : Answers} {P : Backing → Prop} {b : Backing}
  {size alignLog : Nat} {t : SpanTier}

/-- All free blocks. -/
structure All (P : Backing → Prop) (h : Pools) : Prop where
  small : ∀ cls, ∀ b ∈ h.small cls, P b
  spans : ∀ t cls, ∀ b ∈ h.spans t cls, P b

theorem All.setSmall (hall : h.All P) {cls : Fin numClasses} {pool : List Backing}
    (hpool : ∀ x ∈ pool, P x) : (h.setSmall cls pool).All P where
  small := by
    intro c x hx
    change x ∈ Function.update h.small cls pool c at hx
    by_cases hc : c = cls
    · subst hc
      rw [Function.update_self] at hx
      exact hpool x hx
    · rw [Function.update_of_ne hc] at hx
      exact hall.small c x hx
  spans := hall.spans

theorem All.setSpans (hall : h.All P) {cls : Fin t.num} {pool : List Backing}
    (hpool : ∀ x ∈ pool, P x) : (h.setSpans t cls pool).All P where
  small := hall.small
  spans := by
    intro u c x hx
    change x ∈ Function.update h.spans t (Function.update (h.spans t) cls pool) u c at hx
    by_cases hu : u = t
    · subst hu
      rw [Function.update_self] at hx
      by_cases hc : c = cls
      · subst hc
        rw [Function.update_self] at hx
        exact hpool x hx
      · rw [Function.update_of_ne hc] at hx
        exact hall.spans u c x hx
    · rw [Function.update_of_ne hu] at hx
      exact hall.spans u c x hx

/-- A block picked from the free ones or carved. -/
theorem take_all {pool left : List Backing} {carve : Nat → Backing} (hpool : ∀ x ∈ pool, P x)
    (hcarve : ∀ p, pick = .carved p → P (carve p)) (h : pick.take pool carve = some (b, left)) :
    P b ∧ ∀ x ∈ left, P x := by
  cases pick with
  | free i =>
      obtain ⟨x, hx, heq⟩ := Option.map_eq_some_iff.1 h
      cases heq
      exact ⟨hpool b (List.mem_of_getElem? hx), fun y hy => hpool y (List.mem_of_mem_eraseIdx hy)⟩
  | carved p =>
      cases h
      exact ⟨hcarve p rfl, hpool⟩
  | unavailable => cases h

/-- An allocation leaves free blocks, and what it gives is one of them or else satisfies `Q`. -/
def Yields (P Q : Backing → Prop) (r : Pools × Option Backing) : Prop :=
  r.1.All P ∧ ∀ b ∈ r.2, P b ∨ Q b

variable {Q : Backing → Prop}

theorem All.allocSmall (hall : h.All P) {cls : Fin numClasses}
    (hcarve : ∀ p, pick = .carved p → P (.small cls p)) : Yields P Q (h.allocSmall pick cls) := by
  unfold Pools.allocSmall
  cases htake : pick.take (h.small cls) (.small cls) with
  | none => exact ⟨hall, fun b hb => absurd hb (Option.not_mem_none b)⟩
  | some taken =>
      obtain ⟨b, left⟩ := taken
      obtain ⟨hb, hleft⟩ := take_all (hall.small cls) hcarve htake
      refine ⟨hall.setSmall hleft, fun x hx => ?_⟩
      cases hx
      exact .inl hb

theorem All.allocSpan (hall : h.All P) {cls : Fin t.num}
    (hcarve : ∀ p, pick = .carved p → P (.span t cls p)) : Yields P Q (h.allocSpan pick t cls) := by
  unfold Pools.allocSpan
  cases htake : pick.take (h.spans t cls) (.span t cls) with
  | none => exact ⟨hall, fun b hb => absurd hb (Option.not_mem_none b)⟩
  | some taken =>
      obtain ⟨b, left⟩ := taken
      obtain ⟨hb, hleft⟩ := take_all (hall.spans t cls) hcarve htake
      refine ⟨hall.setSpans hleft, fun x hx => ?_⟩
      cases hx
      exact .inl hb

theorem packed_small (he : e.Sound) (cls : Fin numClasses) (p : Nat) (hp : e.pick = .carved p) :
    (Backing.small cls p).Packed :=
  ⟨he.carved p hp, fun _ heq => Backing.noConfusion heq⟩

theorem packed_span (he : e.Sound) (cls : Fin t.num) (p : Nat) (hp : e.pick = .carved p) :
    (Backing.span t cls p).Packed :=
  ⟨he.carved p hp, fun _ heq => Backing.noConfusion heq⟩

variable {align : Nat} {zeroed : Bool}

theorem All.allocBig (hall : h.All Backing.Packed) (he : e.Sound)
    (hlarge : ∀ b ∈ e.allocLarge size align zeroed, Q b) :
    Yields Backing.Packed Q (h.allocBig e size align zeroed) := by
  have hspan : Yields Backing.Packed Q (h.allocSpan e.pick .big (SpanTier.big.classOf size)) :=
    hall.allocSpan (packed_span he _)
  unfold Pools.allocBig
  generalize h.allocSpan e.pick .big (SpanTier.big.classOf size) = r at hspan
  obtain ⟨left, o⟩ := r
  cases o with
  | none => exact ⟨hspan.1, fun b hb => .inr (hlarge b hb)⟩
  | some b => exact hspan

/-- The tiers as `alloc_tiered` and `alloc_zeroed_impl` go through them. -/
theorem All.tiered (hall : h.All Backing.Packed) (he : e.Sound)
    (hlarge : ∀ b ∈ e.allocLarge size align zeroed, Q b) :
    Yields Backing.Packed Q
      (if needsLarge size align then (h, e.allocLarge size align zeroed)
      else if maxMediumBlock < size then h.allocBig e size align zeroed
      else if maxSmallSize < size then h.allocSpan e.pick .medium (SpanTier.medium.classOf size)
      else h.allocSmall e.pick (classForSize size)) := by
  split
  · exact ⟨hall, fun b hb => .inr (hlarge b hb)⟩
  · split
    · exact hall.allocBig he hlarge
    · split
      · exact hall.allocSpan (packed_span he _)
      · exact hall.allocSmall (packed_small he _)

/-- Free blocks are of the class they are listed under, and where they should be. -/
structure Sound (h : Pools) : Prop where
  ok : h.Ok
  all : h.All Backing.Packed

/-- What an allocation gives for a size and an alignment. -/
def Provides (size align : Nat) (r : Pools × Option Backing) : Prop :=
  r.1.Sound ∧ ∀ b ∈ r.2, b.Fits size align

theorem Gives.provides {r : Pools × Option Backing} (hgives : Gives size (2 ^ alignLog) r)
    (hyields : Yields Backing.Packed (fun b => b.Fits size (2 ^ alignLog)) r) :
    Provides size (2 ^ alignLog) r := by
  refine ⟨⟨hgives.1, hyields.1⟩, fun b hb => ?_⟩
  rcases hyields.2 b hb with hpacked | hfits
  · exact hpacked.fits (hgives.2 b hb)
  · exact hfits

theorem Answers.Sound.large (he : e.Sound) (hpos : 0 < size) (hsize : size < 2 ^ 63)
    (hlog : alignLog < 64) : ∀ b ∈ e.allocLarge size (2 ^ alignLog) zeroed, b.Fits size (2 ^ alignLog) := by
  intro b hb
  obtain ⟨x, hx, rfl⟩ := Option.map_eq_some_iff.1 hb
  exact he.placed hpos hsize hlog (Nat.zero_le _) hx

theorem Sound.allocImpl (hh : h.Sound) (he : e.Sound) (hpos : 0 < size) (hsize : size < 2 ^ 63)
    (hlog : alignLog < 64) : Provides size (2 ^ alignLog) (h.allocImpl e size (2 ^ alignLog)) := by
  have hgives := hh.ok.allocImpl he.below hpos hsize hlog
  refine hgives.provides ?_
  unfold Pools.allocImpl
  split
  · exact hh.all.allocSmall (packed_small he _)
  · exact hh.all.tiered he (Answers.Sound.large he hpos hsize hlog)

theorem Sound.allocZeroedImpl (hh : h.Sound) (he : e.Sound) (hpos : 0 < size) (hsize : size < 2 ^ 63)
    (hlog : alignLog < 64) : Provides size (2 ^ alignLog) (h.allocZeroedImpl e size (2 ^ alignLog)) := by
  have hgives := hh.ok.allocZeroedImpl he.below hpos hsize hlog
  exact hgives.provides (hh.all.tiered he (Answers.Sound.large he hpos hsize hlog))

theorem Sound.release (hh : h.Sound) (hb : b.Sited) : (h.release b).Sound := by
  refine ⟨hh.ok.release b, ?_⟩
  cases b with
  | small cls p =>
      apply hh.all.setSmall
      intro x hx
      rcases List.mem_cons.1 hx with rfl | hx
      · exact ⟨hb, fun _ heq => Backing.noConfusion heq⟩
      · exact hh.all.small cls x hx
  | span t cls p =>
      apply hh.all.setSpans
      intro x hx
      rcases List.mem_cons.1 hx with rfl | hx
      · exact ⟨hb, fun _ heq => Backing.noConfusion heq⟩
      · exact hh.all.spans t cls x hx
  | large r => exact hh.all

end Pools

/-! ### What is read for a pointer -/

/-- The six kinds of live blocks, with what is read for them. -/
inductive Backing.Probed (masked : MaskedHeader) : Backing → Probe → Prop
  | small (cls : Fin numClasses) (p : Nat) (arena : Bool) :
      Probed masked (.small cls p) ⟨arena, .none, false, .page cls⟩
  | medium (cls : Fin SpanTier.medium.num) (p : Nat) :
      Probed masked (.span .medium cls p) ⟨true, .medium cls, false, masked⟩
  | legacy (cls : Fin SpanTier.medium.num) (p : Nat) :
      Probed masked (.span .medium cls p) ⟨false, .none, false, .span cls⟩
  | big (cls : Fin SpanTier.big.num) (p : Nat) :
      Probed masked (.span .big cls p) ⟨true, .big cls, false, masked⟩
  | large (r : LargeBlock) : Probed masked (.large r) ⟨true, .large, false, masked⟩
  | registered (r : LargeBlock) : Probed masked (.large r) ⟨false, .none, true, masked⟩

section

variable {a : Reservation} {b : Backing} {x : Probe} {masked : MaskedHeader} {size align : Nat}
  {h : Pools}

theorem Backing.probed (b : Backing) (a : Reservation) (masked : MaskedHeader) :
    Probed masked b (b.probe a masked) := by
  cases b with
  | small cls p => exact .small cls p _
  | span t cls p =>
      cases t with
      | medium =>
          show Probed masked _ (if a.contains p 1 then _ else _)
          split
          · exact .medium cls p
          · exact .legacy cls p
      | big => exact .big cls p
  | large r =>
      show Probed masked _ (if a.contains r.p 1 then _ else _)
      split
      · exact .large r
      · exact .registered r

/-- The size of a live block is what there is from its pointer on, whatever users have written. -/
theorem Backing.Probed.usableSize (hx : b.Probed masked x) (hb : b.Fits size align) :
    x.usableSize b = b.capacity := by
  have hlow : ¬b.ptr < largeHeaderSize := Nat.not_lt.2 hb.sited.2.1
  unfold Probe.usableSize
  rw [if_neg hlow]
  cases hx with
  | small cls p arena => cases arena <;> rfl
  | medium cls p => rfl
  | legacy cls p => rfl
  | big cls p => rfl
  | large r => rfl
  | registered r => rfl

/-- A free finds the list of the class the block is of. -/
theorem Backing.Probed.free (hx : b.Probed masked x) (hb : b.Fits size align) :
    CApi.free h x b = some (h.release b) := by
  have hlow : ¬b.ptr < largeHeaderSize := Nat.not_lt.2 hb.sited.2.1
  unfold CApi.free
  rw [if_neg hlow]
  cases hx with
  | small cls p arena => cases arena <;> rfl
  | medium cls p => rfl
  | legacy cls p => rfl
  | big cls p => rfl
  | large r => rfl
  | registered r =>
      have hheaded : (Backing.large r).headed = true := by
        show r.largeHeaderOf.isSome = true
        rw [(hb.region r rfl).1.header]
        rfl
      rw [hheaded]
      rfl

/-! ### Reallocation -/

/-- A block that is returned as it is has room for the new size, since its class is that of the size. -/
theorem Backing.Probed.keeps (hx : b.Probed masked x) (hkeeps : x.keeps size = true) :
    size ≤ b.capacity ∧ ∀ r, b ≠ .large r := by
  have hmedium : ∀ {cls}, Probe.keepsMedium size cls = true → size ≤ SpanTier.medium.blockSize cls := by
    intro cls hcls
    unfold Probe.keepsMedium at hcls
    simp only [Bool.and_eq_true, decide_eq_true_eq, beq_iff_eq] at hcls
    rw [← hcls.2]
    exact SpanTier.le_blockSize hcls.1.1 hcls.1.2
  have hbig : ∀ {cls}, Probe.keepsBig size cls = true → size ≤ SpanTier.big.blockSize cls := by
    intro cls hcls
    unfold Probe.keepsBig at hcls
    simp only [Bool.and_eq_true, decide_eq_true_eq, beq_iff_eq] at hcls
    rw [← hcls.2]
    exact SpanTier.le_blockSize hcls.1.1 hcls.1.2
  unfold Probe.keeps at hkeeps
  cases hx with
  | small cls p arena =>
      refine ⟨?_, fun r heq => Backing.noConfusion heq⟩
      have hsame : size ≤ maxSmallSize ∧ classForSize size = cls := by
        cases arena <;>
          simpa [Probe.big, Probe.medium, Probe.large, Probe.page, Probe.spanOf] using hkeeps
      rw [← hsame.2]
      exact le_classSize hsame.1
  | medium cls p =>
      have hcls : Probe.keepsMedium size cls = true := by
        simpa [Probe.big, Probe.medium, Probe.large] using hkeeps
      exact ⟨hmedium hcls, fun r heq => Backing.noConfusion heq⟩
  | legacy cls p =>
      have hcls : Probe.keepsMedium size cls = true := by
        simpa [Probe.big, Probe.medium, Probe.large, Probe.page, Probe.spanOf] using hkeeps
      exact ⟨hmedium hcls, fun r heq => Backing.noConfusion heq⟩
  | big cls p =>
      have hcls : Probe.keepsBig size cls = true := by
        simpa [Probe.big, Probe.medium, Probe.large] using hkeeps
      exact ⟨hbig hcls, fun r heq => Backing.noConfusion heq⟩
  | large r => simp [Probe.big, Probe.medium, Probe.large] at hkeeps
  | registered r => simp [Probe.big, Probe.medium, Probe.large] at hkeeps

/-- What a C `realloc` is for, block by block. -/
def CBlock.Outcome (x : CBlock) (size : Nat) : CResult → Prop
  | .null => True
  | .freed => size = 0
  | .fresh _ => False
  | .stays b => 0 < size ∧ b.Fits size x.align ∧ b.ptr = x.block.ptr
  | .moved b copied => 0 < size ∧ b.Fits size x.align ∧ min x.size size ≤ copied ∧
      copied ≤ x.block.capacity ∧ copied ≤ b.capacity

/-- The invariant of a live block. -/
structure CBlock.Ok (x : CBlock) : Prop where
  fits : x.block.Fits x.size x.align
  pow : ∃ j < 64, x.align = 2 ^ j

structure CAnswers.Sound (e : CAnswers) : Prop where
  promotion : e.promotion.Sound
  move : e.move.Sound

end

namespace CApi

variable {h : Pools} {a : Reservation} {e : Answers} {b : Backing} {x : Probe} {c : CBlock}
  {masked : MaskedHeader} {size : Nat}

/-- `malloc`, whatever its argument. -/
theorem malloc_provides (hh : h.Sound) (he : e.Sound) (size : Nat) :
    Pools.Provides size minAlign (malloc h e size) := by
  unfold malloc
  split
  · exact ⟨hh, fun b hb => absurd hb (Option.not_mem_none b)⟩
  · rename_i hsize
    simp only [Bool.or_eq_true, decide_eq_true_eq, not_or, Nat.not_le] at hsize
    have hprovides : Pools.Provides size (2 ^ 0) (h.allocImpl e size (2 ^ 0)) :=
      hh.allocImpl he (Nat.pos_of_ne_zero hsize.1) hsize.2 (by decide)
    exact ⟨hprovides.1, fun b hb => (hprovides.2 b hb).minimal⟩

theorem calloc_provides {nmemb : Nat} (hh : h.Sound) (he : e.Sound) :
    Pools.Provides (nmemb * size) minAlign (calloc h e nmemb size) := by
  unfold calloc checkedMul
  split
  · exact ⟨hh, fun b hb => absurd hb (Option.not_mem_none b)⟩
  · rename_i total htotal
    obtain rfl : nmemb * size = total := by
      split at htotal
      · exact Option.some_inj.1 htotal
      · cases htotal
    split
    · exact ⟨hh, fun b hb => absurd hb (Option.not_mem_none b)⟩
    · rename_i hsize
      simp only [Bool.or_eq_true, decide_eq_true_eq, not_or, Nat.not_le] at hsize
      have hprovides : Pools.Provides (nmemb * size) (2 ^ 0) (h.allocZeroedImpl e (nmemb * size) (2 ^ 0)) :=
        hh.allocZeroedImpl he (Nat.pos_of_ne_zero hsize.1) hsize.2 (by decide)
      exact ⟨hprovides.1, fun b hb => (hprovides.2 b hb).minimal⟩

/-- `aligned_alloc`, which gives something for powers of two only. -/
theorem alignedAlloc_provides {align : Nat} (hh : h.Sound) (he : e.Sound) (hlt : align < usizeLimit)
    (size : Nat) :
    Pools.Provides size align (alignedAlloc h e align size) ∧
      ((alignedAlloc h e align size).2.isSome → ∃ j < 64, align = 2 ^ j) := by
  unfold alignedAlloc
  split
  · exact ⟨⟨hh, fun b hb => absurd hb (Option.not_mem_none b)⟩, fun hsome => absurd hsome Bool.false_ne_true⟩
  · rename_i hok
    simp only [Bool.or_eq_true, decide_eq_true_eq, not_or, Nat.not_le, bne_iff_ne, ne_eq,
      not_not] at hok
    obtain ⟨⟨⟨-, hpow⟩, hpos⟩, hsize⟩ := hok
    have hlog : Nat.log2 align < 64 := by
      rw [← hpow] at hlt
      exact (Nat.pow_lt_pow_iff_right (by decide : 1 < 2)).1 hlt
    rw [← hpow]
    exact ⟨hh.allocImpl he (Nat.pos_of_ne_zero hpos) hsize hlog, fun _ => ⟨_, hlog, rfl⟩⟩

/-- A promotion. -/
theorem promote_outcome (hh : h.Sound) (he : e.Sound) (hc : c.Ok) (hx : c.block.Probed masked x)
    (hpos : 0 < size) {r : Option (Pools × CResult)} (hr : promote h e x c.block size = some r) :
    ∃ r', r = some r' ∧ r'.1.Sound ∧ c.Outcome size r'.2 := by
  obtain ⟨j, -, halign⟩ := hc.pow
  have hfits := hc.fits
  rw [halign] at hfits
  obtain ⟨k, hk, hpointer, hdvd⟩ := hfits.pointerAlignment
  have hbig : maxBigBlock < 2 ^ 63 := by decide
  unfold promote at hr
  cases hcls : x.big with
  | none =>
      rw [hcls] at hr
      cases hr
  | some cls =>
      rw [hcls] at hr
      dsimp only at hr
      split at hr
      · obtain ⟨y, hy, rfl⟩ := Option.map_eq_some_iff.1 hr
        rw [hpointer] at hy
        obtain ⟨-, hhigh, reserve, rfl, halloc⟩ := tryPromote_some hy
        have hslack : min (size * bigGrowSlackFactor) maxBigBlock - size ≤ maxBigBlock :=
          (Nat.sub_le _ _).trans (min_le_right _ _)
        have hplaced := he.placed hpos (hhigh.trans hbig) hk hslack halloc
        have hcapacity : c.block.capacity = SpanTier.big.blockSize cls := by
          generalize c.block = b at hx
          cases hx with
          | small cls' p arena => cases arena <;> cases hcls
          | medium cls' p => cases hcls
          | legacy cls' p => cases hcls
          | big cls' p =>
              cases hcls
              rfl
          | large r => cases hcls
          | registered r => cases hcls
        rw [hx.free hc.fits]
        refine ⟨_, rfl, hh.release hc.fits.sited, hpos, ?_, ?_, ?_, ?_⟩
        · rw [halign]
          exact hplaced.of_dvd hdvd
        · rw [← hcapacity]
          exact min_le_min_right size hc.fits.room
        · rw [← hcapacity]
          exact min_le_left _ _
        · exact (min_le_right _ _).trans hplaced.room
      · cases hr

/-- A move into a block that fits. -/
theorem moved_outcome {left : Pools} {b' : Backing} (hleft : left.Sound) (hc : c.Ok)
    (hx : c.block.Probed masked x) (hpos : 0 < size) (hb : b'.Fits size c.align) :
    ∃ r, ((free left x c.block).map fun h => (h, CResult.moved b' (min (x.usableSize c.block) size)))
      = some r ∧ r.1.Sound ∧ c.Outcome size r.2 := by
  rw [hx.free hc.fits, hx.usableSize hc.fits]
  exact ⟨_, rfl, hleft.release hc.fits.sited, hpos, hb, min_le_min_right size hc.fits.room,
    min_le_left _ _, (min_le_right _ _).trans hb.room⟩

/-- Only a region has an alignment that `malloc` would lose. -/
theorem move_outcome (hh : h.Sound) (he : e.Sound) (hc : c.Ok) (hx : c.block.Probed masked x)
    (hpos : 0 < size) (hsize : size < 2 ^ 63) :
    ∃ r, move h e x c.block size = some r ∧ r.1.Sound ∧ c.Outcome size r.2 := by
  obtain ⟨j, -, halign⟩ := hc.pow
  have hprovides : Pools.Provides size c.align
      (if x.large then h.allocImpl e size (World.pointerAlignment c.block.ptr) else malloc h e size) := by
    split
    · have hfits := hc.fits
      rw [halign] at hfits
      obtain ⟨k, hk, hpointer, hdvd⟩ := hfits.pointerAlignment
      rw [hpointer, halign]
      obtain ⟨hleft, hgot⟩ := hh.allocImpl he hpos hsize hk
      exact ⟨hleft, fun b hb => (hgot b hb).of_dvd hdvd⟩
    · rename_i hpacked
      have hdvd : c.align ∣ minAlign := by
        apply hc.fits.packed
        intro r heq
        rw [heq] at hx
        cases hx with
        | large => exact hpacked rfl
        | registered => exact hpacked rfl
      obtain ⟨hleft, hgot⟩ := malloc_provides hh he size
      exact ⟨hleft, fun b hb => (hgot b hb).of_dvd hdvd⟩
  unfold move
  generalize (if x.large then h.allocImpl e size (World.pointerAlignment c.block.ptr)
    else malloc h e size) = r at hprovides
  obtain ⟨left, o⟩ := r
  cases o with
  | none => exact ⟨_, rfl, hprovides.1, trivial⟩
  | some b' => exact moved_outcome hprovides.1 hc hx hpos (hprovides.2 b' rfl)

/-- Growth in place, by the owner of the region. -/
theorem grown_outcome {f : Frontier} {b' : Backing} (hc : c.Ok) (hpos : 0 < size)
    (hgrow : c.block.tryGrow a f size = some b') : c.Outcome size (.stays b') := by
  generalize hb : c.block = b at hgrow
  cases b with
  | small cls p => cases hgrow
  | span t cls p => cases hgrow
  | large r =>
      obtain ⟨r', hr', rfl⟩ := Option.map_eq_some_iff.1 hgrow
      obtain ⟨hok, hnear⟩ := hc.fits.region r hb
      obtain ⟨hnear', hroom, -, -, hp⟩ := hnear.tryGrow hr'
      have haligned : c.align ∣ r.p := by
        have hdvd := hc.fits.aligned
        rwa [hb] at hdvd
      refine ⟨hpos, (hok.grown hr').fits hnear' hroom (by rwa [hp]), ?_⟩
      rw [hb]
      exact hp

/-- One `realloc`, whatever it meets. -/
theorem realloc_outcome {e : CAnswers} (hh : h.Sound) (he : e.Sound) (hc : c.Ok)
    (hx : c.block.Probed masked x) (a : Reservation) (size : Nat) :
    ∃ r, realloc h a e x c.block size = some r ∧ r.1.Sound ∧ c.Outcome size r.2 := by
  have hlow : ¬c.block.ptr < largeHeaderSize := Nat.not_lt.2 hc.fits.sited.2.1
  unfold realloc
  rw [if_neg hlow]
  split
  · exact ⟨_, rfl, hh, trivial⟩
  · rename_i hsize
    split
    · rename_i hzero
      rw [hx.free hc.fits]
      exact ⟨_, rfl, hh.release hc.fits.sited, hzero⟩
    · rename_i hne
      have hpos := Nat.pos_of_ne_zero hne
      split
      · rename_i b' hgrow
        split at hgrow
        · exact ⟨_, rfl, hh, grown_outcome hc hpos hgrow⟩
        · cases hgrow
      · split
        · rename_i hkeeps
          obtain ⟨hroom, hpacked⟩ := hx.keeps hkeeps
          refine ⟨_, rfl, hh, hpos, { hc.fits with room := hroom, region := ?_ }, rfl⟩
          exact fun r heq => absurd heq (hpacked r)
        · split
          · rename_i r hr
            obtain ⟨r', rfl, hok, hout⟩ := promote_outcome hh he.promotion hc hx hpos hr
            exact ⟨r', rfl, hok, hout⟩
          · exact move_outcome hh he.move hc hx hpos (Nat.not_le.1 hsize)

end CApi

/-! ### Calls -/

/-- What the calls may meet. -/
def CCall.Sound : CCall → Prop
  | .malloc _ e _ => e.Sound
  | .calloc _ _ e _ => e.Sound
  | .alignedAlloc align _ e _ => align < usizeLimit ∧ e.Sound
  | .realloc _ _ e _ _ => e.Sound
  | .free _ _ => True
  | .write _ _ _ => True
  | .others pools => pools.Sound

namespace CHeap

variable {a : Reservation} {s s' : CHeap} {q : CCall} {x : CBlock} {i size align : Nat}

structure Ok (s : CHeap) : Prop where
  pools : s.pools.Sound
  live : ∀ x ∈ s.live, x.Ok

theorem Ok.empty : CHeap.empty.Ok where
  pools :=
    { ok := ⟨fun _ _ hx => absurd hx List.not_mem_nil, fun _ _ _ hx => absurd hx List.not_mem_nil⟩
      all := ⟨fun _ _ hx => absurd hx List.not_mem_nil, fun _ _ _ hx => absurd hx List.not_mem_nil⟩ }
  live := fun _ hx => absurd hx List.not_mem_nil

theorem Ok.took {bytes : Nat → UInt8} {r : Pools × Option Backing} (hok : s.Ok)
    (hr : Pools.Provides size align r) (hpow : r.2.isSome → ∃ j < 64, align = 2 ^ j) :
    (s.took size align bytes r).Ok := by
  obtain ⟨left, o⟩ := r
  cases o with
  | none => exact ⟨hr.1, hok.live⟩
  | some b =>
      refine ⟨hr.1, fun x hx => ?_⟩
      rcases List.mem_cons.1 hx with rfl | hx
      · exact ⟨hr.2 b rfl, hpow rfl⟩
      · exact hok.live x hx

theorem Ok.set (hok : s.Ok) {y : CBlock} (hy : y.Ok) : ∀ z ∈ s.live.set i y, z.Ok := by
  intro z hz
  rcases List.mem_or_eq_of_mem_set hz with hz | rfl
  · exact hok.live z hz
  · exact hy

theorem Ok.resized {bytes : Nat → UInt8} {r : Pools × CResult} (hok : s.Ok) (hx : x.Ok)
    (hpools : r.1.Sound) (hout : x.Outcome size r.2) : (s.resized i x size bytes r).Ok := by
  obtain ⟨h, o⟩ := r
  cases o with
  | null => exact ⟨hpools, hok.live⟩
  | freed => exact ⟨hpools, fun y hy => hok.live y (List.mem_of_mem_eraseIdx hy)⟩
  | fresh b => exact absurd hout id
  | stays b => exact ⟨hpools, hok.set ⟨hout.2.1, hx.pow⟩⟩
  | moved b copied => exact ⟨hpools, hok.set ⟨hout.2.1, hx.pow⟩⟩

theorem Ok.step (hok : s.Ok) (hq : q.Sound) (hstep : s.step a q = some s') : s'.Ok := by
  have hleast : ∃ j < 64, minAlign = 2 ^ j := ⟨4, by decide, rfl⟩
  cases q with
  | malloc size e bytes =>
      cases hstep
      exact hok.took (CApi.malloc_provides hok.pools hq _) fun _ => hleast
  | calloc nmemb size e bytes =>
      cases hstep
      exact hok.took (CApi.calloc_provides hok.pools hq) fun _ => hleast
  | alignedAlloc align size e bytes =>
      cases hstep
      obtain ⟨hprovides, hpow⟩ := CApi.alignedAlloc_provides hok.pools hq.2 hq.1 size
      exact hok.took hprovides hpow
  | realloc i size e masked bytes =>
      obtain ⟨x, hx, hstep⟩ := Option.bind_eq_some_iff.1 hstep
      obtain ⟨r, hr, hstep⟩ := Option.bind_eq_some_iff.1 hstep
      cases hstep
      have hlive := hok.live x (List.mem_of_getElem? hx)
      obtain ⟨r', hr', hpools, hout⟩ := CApi.realloc_outcome hok.pools hq hlive
        (x.block.probed a masked) a size
      rw [hr] at hr'
      cases hr'
      exact hok.resized hlive hpools hout
  | free i masked =>
      obtain ⟨x, hx, hstep⟩ := Option.bind_eq_some_iff.1 hstep
      obtain ⟨h, hfree, hstep⟩ := Option.bind_eq_some_iff.1 hstep
      cases hstep
      have hfits := (hok.live x (List.mem_of_getElem? hx)).fits
      rw [(x.block.probed a masked).free hfits] at hfree
      cases hfree
      exact ⟨hok.pools.release hfits.sited, fun y hy => hok.live y (List.mem_of_mem_eraseIdx hy)⟩
  | write i off v =>
      obtain ⟨x, hx, hstep⟩ := Option.bind_eq_some_iff.1 hstep
      split at hstep
      · cases hstep
        have hlive := hok.live x (List.mem_of_getElem? hx)
        exact ⟨hok.pools, hok.set ⟨hlive.fits, hlive.pow⟩⟩
      · cases hstep
  | others pools =>
      cases hstep
      exact ⟨hq, hok.live⟩

/-- Any run of calls from an empty heap. -/
inductive Run (a : Reservation) : CHeap → Prop
  | start : Run a .empty
  | step {s s' : CHeap} {q : CCall} (h : Run a s) (hq : q.Sound) (hstep : s.step a q = some s') :
      Run a s'

theorem Run.ok (h : Run a s) : s.Ok := by
  induction h with
  | start => exact .empty
  | step _ hq hstep ih => exact ih.step hq hstep

/-- **The C functions find what a pointer is.** After any calls, a live block is where it was asked to
be, `usable_size` tells what there is from its pointer on, which is no less than what was asked for, and
`free` does not abort and puts it on the list of its own class; whatever users have written where a
header of another block would be read. -/
theorem c_blocks_known (h : Run a s) (hx : x ∈ s.live) :
    x.align ∣ x.block.ptr ∧ ∀ masked,
      x.size ≤ (x.block.probe a masked).usableSize x.block ∧
        (x.block.probe a masked).usableSize x.block = x.block.capacity ∧
        CApi.free s.pools (x.block.probe a masked) x.block = some (s.pools.release x.block) := by
  have hfits := (h.ok.live x hx).fits
  refine ⟨hfits.aligned, fun masked => ?_⟩
  have hprobed := x.block.probed a masked
  rw [hprobed.usableSize hfits]
  exact ⟨hfits.room, rfl, hprobed.free hfits⟩

/-- **The contract of `realloc`.** After any calls, and whatever it meets, it does not abort. Either it
fails and leaves all blocks as they are, or the size is zero and the block is freed, or the block has the
new size, there or somewhere else, at a multiple of its old alignment and with its bytes up to the
smaller of the two sizes. What it copies is inside both blocks. -/
theorem c_realloc (h : Run a s) (hx : s.live[i]? = some x) {e : CAnswers} (he : e.Sound) (size : Nat)
    (masked : MaskedHeader) (bytes : Nat → UInt8) :
    (∃ s', s.step a (.realloc i size e masked bytes) = some s' ∧
      (s'.live = s.live ∨ size = 0 ∧ s'.live = s.live.eraseIdx i ∨
        0 < size ∧ ∃ y, s'.live = s.live.set i y ∧ y.size = size ∧ y.align = x.align ∧
          x.align ∣ y.block.ptr ∧ size ≤ y.block.capacity ∧
          ∀ k < min x.size size, y.bytes k = x.bytes k)) ∧
    ∀ left b copied, CApi.realloc s.pools a e (x.block.probe a masked) x.block size
      = some (left, .moved b copied) → copied ≤ x.block.capacity ∧ copied ≤ b.capacity := by
  have hlive := h.ok.live x (List.mem_of_getElem? hx)
  obtain ⟨r, hr, -, hout⟩ := CApi.realloc_outcome h.ok.pools he hlive
    (x.block.probed a masked) a size
  refine ⟨⟨s.resized i x size bytes r, ?_, ?_⟩, fun left b copied hmoved => ?_⟩
  · show (s.live[i]? >>= fun x => CApi.realloc s.pools a e (x.block.probe a masked) x.block size
      >>= fun r => pure (s.resized i x size bytes r)) = _
    rw [hx]
    show (CApi.realloc s.pools a e (x.block.probe a masked) x.block size >>= _) = _
    rw [hr]
    rfl
  · obtain ⟨left, o⟩ := r
    cases o with
    | null => exact .inl rfl
    | freed => exact .inr (.inl ⟨hout, rfl⟩)
    | fresh b => exact absurd hout id
    | stays b =>
        obtain ⟨hpos, hfits, -⟩ := hout
        exact .inr (.inr ⟨hpos, _, rfl, rfl, rfl, hfits.aligned, hfits.room, fun _ _ => rfl⟩)
    | moved b copied =>
        obtain ⟨hpos, hfits, hcopied, -, -⟩ := hout
        refine .inr (.inr ⟨hpos, _, rfl, rfl, rfl, hfits.aligned, hfits.room, fun k hk => ?_⟩)
        exact if_pos (hk.trans_le hcopied)
  · rw [hr] at hmoved
    cases hmoved
    exact hout.2.2.2

/-! ### A block of a hundred bytes -/

/-- A heap that carves a block at `p`. -/
def carves (p : Nat) : Answers := ⟨.carved p, mapsOne, .new⟩

theorem carves_sound {p : Nat} (hdvd : minAlign ∣ p) (hlow : largeHeaderSize ≤ p) (hhigh : p < usizeLimit) :
    (carves p).Sound where
  below := mapsOne_below
  aligned := mapsOne_aligned
  carved := by
    intro q hq
    cases hq
    exact ⟨hdvd, hlow, hhigh⟩

def hundred : CHeap :=
  { live := [⟨100, minAlign, .small (classForSize 100) 65584, fun _ => 7⟩]
    pools := CHeap.empty.pools.setSmall (classForSize 100) [] }

theorem hundred_run : Run ⟨2 ^ 40, 2 ^ 34⟩ hundred :=
  .step (q := .malloc 100 (carves 65584) fun _ => 7) .start
    (carves_sound (by decide) (by decide) (by decide)) rfl

theorem c_blocks_known_hundred : ∃ x ∈ hundred.live, x.size = 100 ∧ minAlign ∣ x.block.ptr ∧
    ∀ masked, 100 ≤ (x.block.probe ⟨2 ^ 40, 2 ^ 34⟩ masked).usableSize x.block := by
  obtain ⟨haligned, hknown⟩ := c_blocks_known hundred_run (List.mem_singleton.2 rfl)
  exact ⟨_, List.mem_singleton.2 rfl, rfl, haligned, fun masked => (hknown masked).1⟩

/-- It moves to five thousand, with its hundred bytes. -/
theorem c_realloc_moves : ∃ s', hundred.step ⟨2 ^ 40, 2 ^ 34⟩
    (.realloc 0 5000 ⟨⟨0, false, false⟩, carves 131120, carves 131120⟩ .other fun _ => 9) = some s' ∧
      ∃ y ∈ s'.live, y.size = 5000 ∧ ∀ k < 100, y.bytes k = 7 := by
  have hanswers : (carves 131120).Sound := carves_sound (by decide) (by decide) (by decide)
  obtain ⟨s', hstep, hcases⟩ := (c_realloc hundred_run (i := 0) rfl
    (e := ⟨⟨0, false, false⟩, carves 131120, carves 131120⟩) ⟨hanswers, hanswers⟩ 5000 .other fun _ => 9).1
  have hsizes : (hundred.step ⟨2 ^ 40, 2 ^ 34⟩
      (.realloc 0 5000 ⟨⟨0, false, false⟩, carves 131120, carves 131120⟩ .other fun _ => 9)).map
        (fun s => s.live.map CBlock.size) = some [5000] := rfl
  rw [hstep, Option.map_some, Option.some_inj] at hsizes
  refine ⟨s', hstep, ?_⟩
  rcases hcases with hsame | ⟨hzero, -⟩ | ⟨-, y, hlive, hsize, -, -, -, hbytes⟩
  · rw [hsame] at hsizes
    exact absurd hsizes (by decide)
  · exact absurd hzero (by decide)
  · refine ⟨y, ?_, hsize, fun k hk => hbytes k hk⟩
    rw [hlive]
    exact List.mem_singleton.2 rfl

end CHeap

end Allox
