import Allox.EntryPoints
import Allox.Proof.BigGrowth

/-!
# Every block has room

A live block is of the class of its size, or in a region with that many bytes behind the pointer. Each
call keeps this but one: `realloc` within a big class looks at the sizes only, and a large region that
stands in for a big block can be shorter than the class.
-/

namespace Allox

/-! ### Classes -/

/-- The scan finds an entry that fits, if the last one does. -/
theorem scanFrom_fits {table : List Nat} {size i n : Nat} (h : size ≤ table.getD (i + n) 0) :
    size ≤ table.getD (scanFrom table size i n) 0 := by
  induction n generalizing i with
  | zero => exact h
  | succ n ih =>
      unfold scanFrom
      split
      · assumption
      · apply ih
        rwa [show i + 1 + n = i + (n + 1) by omega]

theorem le_classSize {size : Nat} (h : size ≤ maxSmallSize) : size ≤ classSize (classForSize size) := by
  have hmax : maxSmallSize = 16384 := rfl
  have halign : minAlign = 16 := rfl
  have hlast : classes.getD (0 + (numClasses - 1)) 0 = maxSmallSize := by decide +kernel
  have hrounded : (size + minAlign - 1) / minAlign * minAlign ≤ maxSmallSize := by
    rw [hmax] at h
    rw [hmax, halign]
    omega
  have hfits := scanFrom_fits (hrounded.trans hlast.ge)
  refine le_trans ?_ hfits
  rw [halign]
  omega

namespace SpanTier

variable {t : SpanTier} {size : Nat}

/-- The largest block of the tier. -/
def most : SpanTier → Nat
  | medium => maxMediumBlock
  | big => maxBigBlock

theorem blockSize_aligned (c : Fin t.num) : t.blockSize c % minAlign = 0 := by
  revert c
  cases t <;> decide

/-- The table is looked up with the first size of a bucket of sixteen, which all fit where it does. -/
theorem le_blockSize (hlow : t.floor < size) (hhigh : size ≤ t.most) :
    size ≤ t.blockSize (t.classOf size) := by
  have halign : minAlign = 16 := rfl
  have hfloor : t.floor % 16 = 0 := by
    cases t <;> decide
  have hlast : t.table.getD (0 + (t.num - 1)) 0 = t.most := by
    cases t <;> decide
  have hstart : t.floor + 1 + (size - t.floor - 1) / minAlign * minAlign ≤ t.most := by
    rw [halign]
    omega
  have hentry : t.table.getD (t.classForSize size) 0 = t.blockSize (t.classOf size) :=
    List.getD_eq_getElem _ _ (t.classOf size).isLt
  have hfits : t.floor + 1 + (size - t.floor - 1) / minAlign * minAlign
      ≤ t.blockSize (t.classOf size) := by
    rw [← hentry]
    exact scanFrom_fits (hstart.trans hlast.ge)
  have hmultiple := t.blockSize_aligned (t.classOf size)
  rw [halign] at hfits hmultiple
  omega

end SpanTier

/-! ### Regions -/

/-- The alignment read off an address is a multiple of every power of two that divides it. -/
theorem le_pointerAlignment {p j : Nat} (hpos : 0 < p) (hlt : p < 2 ^ 64) (hdvd : 2 ^ j ∣ p) :
    2 ^ j ≤ World.pointerAlignment p := by
  obtain ⟨k, m, hodd, rfl⟩ := Nat.exists_eq_two_pow_mul_odd hpos.ne'
  have hk : k < 64 := by
    by_contra hge
    have hle := Nat.pow_le_pow_right (by decide : 0 < 2) (Nat.le_of_not_lt hge)
    have hm := hodd.pos
    exact absurd (hlt.trans_le (hle.trans (Nat.le_mul_of_pos_right _ hm))) (lt_irrefl _)
  have hjk : 2 ^ j ∣ 2 ^ k := (Nat.Coprime.pow_left j (Nat.coprime_two_left.2 hodd)).dvd_of_dvd_mul_right hdvd
  have hsplit : 2 ^ 64 - 2 ^ k * m = 2 ^ k * (2 ^ (64 - k) - m) := by
    rw [Nat.mul_sub, ← pow_add, Nat.add_sub_cancel' hk.le]
  have hm : m < 2 ^ (64 - k) := by
    by_contra hge
    have hle := Nat.mul_le_mul_left (2 ^ k) (Nat.le_of_not_lt hge)
    rw [← pow_add, Nat.add_sub_cancel' hk.le] at hle
    exact absurd hlt (Nat.not_lt.2 hle)
  have heven : 2 ^ (64 - k) % 2 = 0 :=
    Nat.mod_eq_zero_of_dvd (dvd_pow_self 2 (by omega))
  have hodd' := Nat.odd_iff.1 hodd
  have hbit : (2 ^ k * m &&& 2 ^ k * (2 ^ (64 - k) - m)).testBit k = true := by
    have hother : (2 ^ (64 - k) - m) % 2 = 1 := by omega
    simp [Nat.testBit_and, Nat.testBit_two_pow_mul, Nat.testBit_zero, hodd', hother]
  unfold World.pointerAlignment
  rw [if_neg hpos.ne', hsplit]
  exact (Nat.le_of_dvd (Nat.two_pow_pos k) hjk).trans (Nat.ge_two_pow_of_testBit hbit)

namespace LargeBlock

variable {a : Reservation} {f : Frontier} {r r' : LargeBlock} {size mapped : Nat}

/-- The pointer is where the placement puts it, no further into the region than growth assumes. -/
def Near (r : LargeBlock) : Prop :=
  r.p - r.header.base ≤ World.pointerAlignment r.p + largeHeaderSize

theorem Near.growTo (h : r.Near) (hgrow : r.growTo a f size mapped = some r')
    (htotal : size + World.pointerAlignment r.p + largeHeaderSize ≤ mapped) :
    r'.Near ∧ size ≤ r'.capacity ∧ r'.header.requestedSize = size ∧ r'.p = r.p := by
  unfold LargeBlock.growTo at hgrow
  split at hgrow
  · cases hgrow
  · split at hgrow
    · cases hgrow
    · split at hgrow
      · cases hgrow
        refine ⟨h, ?_, rfl, rfl⟩
        have hnear : r.p - r.header.base ≤ World.pointerAlignment r.p + largeHeaderSize := h
        show size ≤ mapped - (r.p - r.header.base)
        omega
      · cases hgrow

/-- A region that grows where it is has room for the size afterwards. -/
theorem Near.tryGrow (h : r.Near) (hgrow : r.tryGrowLargeFrontier a f size = some r') :
    r'.Near ∧ size ≤ r'.capacity ∧ r.header.requestedSize < size ∧
      r'.header.requestedSize = size ∧ r'.p = r.p := by
  unfold tryGrowLargeFrontier at hgrow
  split at hgrow
  · cases hgrow
  · split at hgrow
    · cases hgrow
    · split at hgrow
      · cases hgrow
      · split at hgrow
        · cases hgrow
        · split at hgrow
          · cases hgrow
          · rename_i hmore
            have hlt := Nat.lt_of_not_le hmore
            split at hgrow
            · rename_i hroom
              cases hgrow
              exact ⟨h, hroom, hlt, rfl, rfl⟩
            · unfold growMapping at hgrow
              cases htotal : r.grownTotal size with
              | none =>
                  rw [htotal] at hgrow
                  cases hgrow
              | some total =>
                  rw [htotal] at hgrow
                  dsimp only at hgrow
                  have hsum : total = size + World.pointerAlignment r.p + largeHeaderSize := by
                    unfold LargeBlock.grownTotal at htotal
                    obtain ⟨x, hx, hy⟩ := Option.bind_eq_some_iff.1 htotal
                    obtain ⟨-, rfl⟩ := checkedAdd_eq_some.1 hx
                    exact (checkedAdd_eq_some.1 hy).2
                  have hpage : 0 < pageSize := by decide
                  have hle := (le_max_left total largeHeaderSize).trans (le_alignUp hpage)
                  rw [hsum] at hle hgrow
                  obtain ⟨hnear, hroom, hrequested, hp⟩ := h.growTo hgrow hle
                  exact ⟨hnear, hroom, hlt, hrequested, hp⟩

end LargeBlock

/-- The regions an allocation may get are below the address limit. -/
def Answers.Below (e : Answers) : Prop := e.caches.Below e.env

section

variable {e : LargeEnv} {s : RegionCaches} {size alignLog slack : Nat} {zeroed : Bool} {x : Placement}

/-- A region just placed has room for the size, and its pointer is near the start. -/
theorem allocLargeEx_near (hbelow : s.Below e) (hpos : 0 < size) (hsize : size < 2 ^ 63)
    (hlog : alignLog < 64) (hslack : slack ≤ maxBigBlock)
    (h : (s.allocLargeEx e size (2 ^ alignLog) zeroed slack).2 = some x) :
    x.block.Near ∧ size ≤ x.block.capacity ∧ x.block.header.requestedSize = size := by
  obtain ⟨hok, -⟩ := RegionCaches.allocLargeEx_placed hbelow hsize hlog hslack h
  have hbefore := hok.before
  have hinside := hok.inside
  have hroom := hok.room
  have hlimit := hok.below
  have hcapacity := hok.capacity
  have hheader : largeHeaderSize = 48 := rfl
  have haddress : addressLimit = 2 ^ 47 := rfl
  have hbase : x.header.base ≤ addressLimit := by omega
  have hret : x.ret = alignUp (x.header.base + largeHeaderSize) (2 ^ alignLog) := by
    rw [allocLargeEx_ret h, (placeAt_eq hbase hlog).2]
  have hfar := alignUp_lt (v := x.header.base + largeHeaderSize) (Nat.two_pow_pos alignLog)
  rw [← hret] at hfar
  have halignment := le_pointerAlignment (by omega) (by omega) hok.aligned
  refine ⟨?_, ?_, hok.request⟩
  · show x.ret - x.header.base ≤ World.pointerAlignment x.ret + largeHeaderSize
    omega
  · show size ≤ x.header.mappedSize - (x.ret - x.header.base)
    omega

end

/-! ### The invariant -/

/-- What a live block is for a size and an alignment: of the class of the size, or in a region that was
asked for a size that no packed tier but the big one has, unless it is for the alignment. -/
def Backing.Serves (size align : Nat) : Backing → Prop
  | .small cls _ => align ≤ minAlign ∧ size ≤ maxSmallSize ∧ cls = classForSize size
  | .span t cls _ => align ≤ minAlign ∧ t.floor < size ∧ size ≤ t.most ∧ cls = t.classOf size
  | .large r => (minAlign < align ∨ maxMediumBlock < size ∧ maxMediumBlock < r.header.requestedSize) ∧
      size ≤ r.capacity ∧ r.Near

theorem Backing.Serves.fits {b : Backing} {size align : Nat} (h : b.Serves size align) :
    size ≤ b.capacity := by
  cases b with
  | small cls p =>
      obtain ⟨-, hsize, rfl⟩ := h
      exact le_classSize hsize
  | span t cls p =>
      obtain ⟨-, hlow, hhigh, rfl⟩ := h
      exact SpanTier.le_blockSize hlow hhigh
  | large r => exact h.2.1

theorem SpanTier.small_le_floor (t : SpanTier) : maxSmallSize ≤ t.floor := by
  cases t <;> decide

theorem SpanTier.most_le_big (t : SpanTier) : t.most ≤ maxBigBlock := by
  cases t <;> decide

section

variable {size align : Nat} {b : Backing}

theorem Backing.Serves.small (h : b.Serves size align) (halign : align ≤ minAlign)
    (hsize : size ≤ maxSmallSize) : ∃ p, b = .small (classForSize size) p := by
  have hsmall : maxSmallSize < maxMediumBlock := by decide
  cases b with
  | small cls p =>
      obtain ⟨-, -, rfl⟩ := h
      exact ⟨p, rfl⟩
  | span t cls p =>
      obtain ⟨-, hlow, -, -⟩ := h
      have hfloor := t.small_le_floor
      omega
  | large r =>
      obtain ⟨hwhy, -, -⟩ := h
      omega

theorem Backing.Serves.medium (h : b.Serves size align) (halign : align ≤ minAlign)
    (hlow : maxSmallSize < size) (hhigh : size ≤ maxMediumBlock) :
    ∃ p, b = .span .medium (SpanTier.medium.classOf size) p := by
  cases b with
  | small cls p =>
      obtain ⟨-, hsize, -⟩ := h
      omega
  | span t cls p =>
      obtain ⟨-, hfloor, -, rfl⟩ := h
      cases t with
      | medium => exact ⟨p, rfl⟩
      | big => exact absurd hfloor (Nat.not_lt.2 hhigh)
  | large r =>
      obtain ⟨hwhy, -, -⟩ := h
      omega

/-- A block of big size is packed, or a region stands in for it. -/
theorem Backing.Serves.big (h : b.Serves size align) (hlow : maxMediumBlock < size) :
    (∃ p, b = .span .big (SpanTier.big.classOf size) p) ∨ ∃ r, b = .large r := by
  have hsmall : maxSmallSize < maxMediumBlock := by decide
  cases b with
  | small cls p =>
      obtain ⟨-, hsize, -⟩ := h
      omega
  | span t cls p =>
      obtain ⟨-, -, hmost, rfl⟩ := h
      cases t with
      | medium => exact absurd hlow (Nat.not_lt.2 hmost)
      | big => exact .inl ⟨p, rfl⟩
  | large r => exact .inr ⟨r, rfl⟩

end

/-- Every free block is of the class it is listed under. -/
structure Pools.Ok (h : Pools) : Prop where
  small : ∀ cls, ∀ b ∈ h.small cls, ∃ p, b = .small cls p
  spans : ∀ t cls, ∀ b ∈ h.spans t cls, ∃ p, b = .span t cls p

theorem Pick.take_some {pick : Pick} {pool left : List Backing} {carve : Nat → Backing} {b : Backing}
    (h : pick.take pool carve = some (b, left)) :
    (b ∈ pool ∨ ∃ p, b = carve p) ∧ ∀ x ∈ left, x ∈ pool := by
  cases pick with
  | free i =>
      obtain ⟨x, hx, heq⟩ := Option.map_eq_some_iff.1 h
      cases heq
      exact ⟨.inl (List.mem_of_getElem? hx), fun y hy => List.mem_of_mem_eraseIdx hy⟩
  | carved p =>
      cases h
      exact ⟨.inr ⟨p, rfl⟩, fun y hy => hy⟩
  | unavailable => cases h

section

variable {size alignLog : Nat} {zeroed : Bool} {e : Answers} {b : Backing}

theorem needsLarge_iff {align : Nat} :
    needsLarge size align = true ↔ minAlign < align ∨ maxBigBlock < size := by
  simp [needsLarge]

theorem Answers.Below.serves (h : e.Below) (hpos : 0 < size) (hsize : size < 2 ^ 63)
    (hlog : alignLog < 64) (hlarge : minAlign < 2 ^ alignLog ∨ maxMediumBlock < size)
    (hb : e.allocLarge size (2 ^ alignLog) zeroed = some b) : b.Serves size (2 ^ alignLog) := by
  obtain ⟨x, hx, rfl⟩ := Option.map_eq_some_iff.1 hb
  obtain ⟨hnear, hroom, hrequested⟩ := allocLargeEx_near h hpos hsize hlog (Nat.zero_le _) hx
  refine ⟨hlarge.imp_right fun hbig => ⟨hbig, ?_⟩, hroom, hnear⟩
  rwa [hrequested]

end

namespace Pools

variable {h : Pools} {a : Reservation} {pick : Pick} {e : Answers} {size alignLog : Nat}
  {b : Backing} {t : SpanTier}

theorem Ok.setSmall (hok : h.Ok) {cls : Fin numClasses} {pool : List Backing}
    (hpool : ∀ x ∈ pool, ∃ p, x = .small cls p) : (h.setSmall cls pool).Ok where
  small := by
    intro c x hx
    change x ∈ Function.update h.small cls pool c at hx
    by_cases hc : c = cls
    · subst hc
      rw [Function.update_self] at hx
      exact hpool x hx
    · rw [Function.update_of_ne hc] at hx
      exact hok.small c x hx
  spans := hok.spans

theorem Ok.setSpans (hok : h.Ok) {cls : Fin t.num} {pool : List Backing}
    (hpool : ∀ x ∈ pool, ∃ p, x = .span t cls p) : (h.setSpans t cls pool).Ok where
  small := hok.small
  spans := by
    intro t' c x hx
    change x ∈ Function.update h.spans t (Function.update (h.spans t) cls pool) t' c at hx
    by_cases ht : t' = t
    · subst ht
      rw [Function.update_self] at hx
      by_cases hc : c = cls
      · subst hc
        rw [Function.update_self] at hx
        exact hpool x hx
      · rw [Function.update_of_ne hc] at hx
        exact hok.spans t' c x hx
    · rw [Function.update_of_ne ht] at hx
      exact hok.spans t' c x hx

theorem Ok.pushSmall (hok : h.Ok) (cls : Fin numClasses) (p : Nat) :
    (h.pushSmall cls (.small cls p)).Ok := by
  apply hok.setSmall
  intro x hx
  rcases List.mem_cons.1 hx with rfl | hx
  · exact ⟨p, rfl⟩
  · exact hok.small cls x hx

theorem Ok.pushSpan (hok : h.Ok) (cls : Fin t.num) (p : Nat) :
    (h.pushSpan t cls (.span t cls p)).Ok := by
  apply hok.setSpans
  intro x hx
  rcases List.mem_cons.1 hx with rfl | hx
  · exact ⟨p, rfl⟩
  · exact hok.spans t cls x hx

theorem Ok.release (hok : h.Ok) (b : Backing) : (h.release b).Ok := by
  cases b with
  | small cls p => exact hok.pushSmall cls p
  | span t cls p => exact hok.pushSpan cls p
  | large r => exact hok

/-! ### Allocation -/

theorem Ok.allocSmall (hok : h.Ok) (pick : Pick) (cls : Fin numClasses) :
    (h.allocSmall pick cls).1.Ok ∧ ∀ b ∈ (h.allocSmall pick cls).2, ∃ p, b = .small cls p := by
  unfold Pools.allocSmall
  cases htake : pick.take (h.small cls) (.small cls) with
  | none => exact ⟨hok, fun b hb => absurd hb (Option.not_mem_none b)⟩
  | some taken =>
      obtain ⟨b, left⟩ := taken
      obtain ⟨hb, hleft⟩ := Pick.take_some htake
      refine ⟨hok.setSmall fun x hx => hok.small cls x (hleft x hx), fun x hx => ?_⟩
      cases hx
      exact hb.elim (hok.small cls b) id

theorem Ok.allocSpan (hok : h.Ok) (pick : Pick) (cls : Fin t.num) :
    (h.allocSpan pick t cls).1.Ok ∧ ∀ b ∈ (h.allocSpan pick t cls).2, ∃ p, b = .span t cls p := by
  unfold Pools.allocSpan
  cases htake : pick.take (h.spans t cls) (.span t cls) with
  | none => exact ⟨hok, fun b hb => absurd hb (Option.not_mem_none b)⟩
  | some taken =>
      obtain ⟨b, left⟩ := taken
      obtain ⟨hb, hleft⟩ := Pick.take_some htake
      refine ⟨hok.setSpans fun x hx => hok.spans t cls x (hleft x hx), fun x hx => ?_⟩
      cases hx
      exact hb.elim (hok.spans t cls b) id

/-- What an allocation gives for a size and an alignment. -/
def Gives (size align : Nat) (r : Pools × Option Backing) : Prop :=
  r.1.Ok ∧ ∀ b ∈ r.2, b.Serves size align

theorem Ok.givesSmall (hok : h.Ok) (halign : 2 ^ alignLog ≤ minAlign) (hsize : size ≤ maxSmallSize) :
    Gives size (2 ^ alignLog) (h.allocSmall pick (classForSize size)) := by
  obtain ⟨hleft, hb⟩ := hok.allocSmall pick (classForSize size)
  refine ⟨hleft, fun b hmem => ?_⟩
  obtain ⟨p, rfl⟩ := hb b hmem
  exact ⟨halign, hsize, rfl⟩

theorem Ok.givesSpan (hok : h.Ok) (halign : 2 ^ alignLog ≤ minAlign) (hlow : t.floor < size)
    (hhigh : size ≤ t.most) : Gives size (2 ^ alignLog) (h.allocSpan pick t (t.classOf size)) := by
  obtain ⟨hleft, hb⟩ := hok.allocSpan pick (t.classOf size)
  refine ⟨hleft, fun b hmem => ?_⟩
  obtain ⟨p, rfl⟩ := hb b hmem
  exact ⟨halign, hlow, hhigh, rfl⟩

theorem Ok.givesBig (hok : h.Ok) (hbelow : e.Below) (halign : 2 ^ alignLog ≤ minAlign)
    (hlog : alignLog < 64) (hlow : maxMediumBlock < size) (hhigh : size ≤ maxBigBlock) (zeroed : Bool) :
    Gives size (2 ^ alignLog) (h.allocBig e size (2 ^ alignLog) zeroed) := by
  have hbig : maxBigBlock < 2 ^ 63 := by decide
  have hspan : Gives size (2 ^ alignLog) (h.allocSpan e.pick .big (SpanTier.big.classOf size)) :=
    hok.givesSpan halign hlow hhigh
  unfold Pools.allocBig
  generalize h.allocSpan e.pick .big (SpanTier.big.classOf size) = r at hspan
  obtain ⟨left, o⟩ := r
  cases o with
  | none =>
      exact ⟨hspan.1, fun b hb => hbelow.serves (by omega) (by omega) hlog (.inr hlow) hb⟩
  | some b => exact hspan

/-- The tiers from the largest down, as `alloc_tiered` and `alloc_zeroed_impl` go through them. -/
theorem Ok.givesTiered (hok : h.Ok) (hbelow : e.Below) (hpos : 0 < size) (hsize : size < 2 ^ 63)
    (hlog : alignLog < 64) (zeroed : Bool) :
    Gives size (2 ^ alignLog)
      (if needsLarge size (2 ^ alignLog) then (h, e.allocLarge size (2 ^ alignLog) zeroed)
      else if maxMediumBlock < size then h.allocBig e size (2 ^ alignLog) zeroed
      else if maxSmallSize < size then h.allocSpan e.pick .medium (SpanTier.medium.classOf size)
      else h.allocSmall e.pick (classForSize size)) := by
  have hbig : maxMediumBlock < maxBigBlock := by decide
  by_cases hlarge : needsLarge size (2 ^ alignLog) = true
  · rw [if_pos hlarge]
    rw [needsLarge_iff] at hlarge
    exact ⟨hok, fun b hb => hbelow.serves hpos hsize hlog (hlarge.imp_right hbig.trans) hb⟩
  · rw [if_neg hlarge]
    rw [needsLarge_iff, not_or, Nat.not_lt, Nat.not_lt] at hlarge
    by_cases hmedium : maxMediumBlock < size
    · rw [if_pos hmedium]
      exact hok.givesBig hbelow hlarge.1 hlog hmedium hlarge.2 zeroed
    · rw [if_neg hmedium]
      by_cases hsmall : maxSmallSize < size
      · rw [if_pos hsmall]
        exact hok.givesSpan hlarge.1 hsmall (Nat.not_lt.1 hmedium)
      · rw [if_neg hsmall]
        exact hok.givesSmall hlarge.1 (Nat.not_lt.1 hsmall)

theorem Ok.allocImpl (hok : h.Ok) (hbelow : e.Below) (hpos : 0 < size) (hsize : size < 2 ^ 63)
    (hlog : alignLog < 64) : Gives size (2 ^ alignLog) (h.allocImpl e size (2 ^ alignLog)) := by
  unfold Pools.allocImpl
  split
  · rename_i hsmall
    rw [Bool.and_eq_true, decide_eq_true_eq, decide_eq_true_eq] at hsmall
    exact hok.givesSmall hsmall.2 hsmall.1
  · exact hok.givesTiered hbelow hpos hsize hlog false

theorem Ok.allocZeroedImpl (hok : h.Ok) (hbelow : e.Below) (hpos : 0 < size) (hsize : size < 2 ^ 63)
    (hlog : alignLog < 64) : Gives size (2 ^ alignLog) (h.allocZeroedImpl e size (2 ^ alignLog)) :=
  hok.givesTiered hbelow hpos hsize hlog true

/-! ### Release -/

/-- A free finds its way by the layout; it does not abort, and the block is listed under its class. -/
theorem Ok.deallocWithLayout {f : FreeAnswers} {align : Nat} (hok : h.Ok) (hb : b.Serves size align) :
    ∃ h', h.deallocWithLayout a f b size align = some h' ∧ h'.Ok := by
  have hsmall : maxSmallSize < maxMediumBlock := by decide
  have hbig : maxMediumBlock < maxBigBlock := by decide
  unfold Pools.deallocWithLayout Pools.deallocTiered
  cases b with
  | small cls p =>
      obtain ⟨halign, hsize, rfl⟩ := hb
      rw [if_pos (by simp [hsize, halign])]
      refine ⟨_, rfl, ?_⟩
      split
      · exact hok.pushSmall _ p
      · exact hok.release _
  | span t cls p =>
      obtain ⟨halign, hlow, hhigh, rfl⟩ := hb
      have hfloor := t.small_le_floor
      have hmost := t.most_le_big
      have hlarge : ¬needsLarge size align = true := by
        rw [needsLarge_iff]
        omega
      rw [if_neg (by simp; omega), if_neg hlarge]
      cases t with
      | medium =>
          have hmedium : ¬maxMediumBlock < size := Nat.not_lt.2 hhigh
          rw [if_neg hmedium]
          refine ⟨_, rfl, ?_⟩
          split
          · exact hok.pushSpan _ p
          · exact hok.release _
      | big =>
          have hmedium : maxMediumBlock < size := hlow
          rw [if_pos hmedium]
          refine ⟨_, rfl, ?_⟩
          split
          · exact hok.pushSpan _ p
          · exact hok.release _
  | large r =>
      obtain ⟨hwhy, -, -⟩ := hb
      rw [if_neg (by simp; omega)]
      by_cases hlarge : needsLarge size align = true
      · rw [if_pos hlarge]
        exact ⟨h, rfl, hok⟩
      · rw [if_neg hlarge, if_pos (by rw [needsLarge_iff] at hlarge; omega)]
        refine ⟨h, ?_, hok⟩
        cases hin : a.contains r.p 1 <;> simp [Reservation.lookup, hin]

/-! ### Reallocation -/

end Pools

/-- The block that a `realloc` leaves, if it does not fail. -/
def Resized.block : Resized → Option Backing
  | stays b => some b
  | moved b => some b
  | failed => none

theorem sameMediumClass_iff {align old new : Nat} : sameMediumClass align old new = true ↔
    align ≤ minAlign ∧ maxSmallSize < old ∧ old ≤ maxMediumBlock ∧ maxSmallSize < new ∧
      new ≤ maxMediumBlock ∧ SpanTier.medium.classOf old = SpanTier.medium.classOf new := by
  simp [sameMediumClass, SpanTier.classOf, and_assoc]

theorem sameBigClass_iff {align old new : Nat} : sameBigClass (.global align) old new = true ↔
    align ≤ minAlign ∧ maxMediumBlock < old ∧ old ≤ maxBigBlock ∧ maxMediumBlock < new ∧
      new ≤ maxBigBlock ∧ SpanTier.big.classOf old = SpanTier.big.classOf new := by
  simp [sameBigClass, SpanTier.classOf, and_assoc]

theorem Backing.tryGrow_serves {a : Reservation} {f : Frontier} {b b' : Backing} {old new align : Nat}
    (hb : b.Serves old align) (hgrow : b.tryGrow a f new = some b') :
    b'.Serves new align ∧ b'.ptr = b.ptr := by
  cases b with
  | small cls p => cases hgrow
  | span t cls p => cases hgrow
  | large r =>
      obtain ⟨r', hr', rfl⟩ := Option.map_eq_some_iff.1 hgrow
      obtain ⟨hwhy, -, hnear⟩ := hb
      obtain ⟨hnear', hroom, hmore, hrequested, hp⟩ := hnear.tryGrow hr'
      refine ⟨⟨?_, hroom, hnear'⟩, hp⟩
      rw [hrequested]
      omega

/-- The condition on a `realloc`: a large region kept within a big class is long enough. -/
def Backing.Keeps (b : Backing) (lay : Layout) (new : Nat) : Prop :=
  ∀ r, b = .large r → sameBigClass (.global lay.align) lay.size new = true → new ≤ r.capacity

def ReallocAnswers.Below (e : ReallocAnswers) : Prop := e.promotion.Below ∧ e.move.Below

namespace Pools

variable {h : Pools} {a : Reservation} {e : ReallocAnswers} {b : Backing} {lay : Layout} {new : Nat}

/-- What a `realloc` comes to, however it is done. -/
structure Resizes (b : Backing) (new align : Nat) (r : Pools × Resized) : Prop where
  ok : r.1.Ok
  serves : ∀ b' ∈ r.2.block, b'.Serves new align
  stays : ∀ b', r.2 = .stays b' → b'.ptr = b.ptr

theorem Resizes.kept (hok : h.Ok) {align : Nat} (hb : b.Serves new align) :
    Resizes b new align (h, .stays b) where
  ok := hok
  serves := by
    intro b' hmem
    cases hmem
    exact hb
  stays := by
    intro b' heq
    cases heq
    rfl

theorem Resizes.relocated (hok : h.Ok) {align : Nat} {b' : Backing} (hb : b'.Serves new align) :
    Resizes b new align (h, .moved b') where
  ok := hok
  serves := by
    intro b'' hmem
    cases hmem
    exact hb
  stays := by
    intro b'' heq
    cases heq

theorem Resizes.failed (hok : h.Ok) {align : Nat} : Resizes b new align (h, .failed) where
  ok := hok
  serves := fun b' hmem => absurd hmem (Option.not_mem_none b')
  stays := by
    intro b' heq
    cases heq

theorem Resizes.grown (hok : h.Ok) {align old : Nat} {f : Frontier} {b' : Backing}
    (hb : b.Serves old align) (hgrow : b.tryGrow a f new = some b') :
    Resizes b new align (h, .stays b') := by
  obtain ⟨hserves, hptr⟩ := Backing.tryGrow_serves hb hgrow
  refine ⟨hok, fun b'' hmem => ?_, fun b'' heq => ?_⟩
  · cases hmem
    exact hserves
  · cases heq
    exact hptr

theorem Ok.reallocSmall (hok : h.Ok) (hb : b.Serves lay.size lay.align)
    (halign : lay.align ≤ minAlign) (hold : lay.size ≤ maxSmallSize) (hnew : new ≤ maxSmallSize) :
    Resizes b new lay.align (h.reallocSmall e b lay.size new) := by
  have hgives : Gives new lay.align (h.allocSmall e.move.pick (classForSize new)) :=
    hok.givesSmall halign hnew
  unfold Pools.reallocSmall
  generalize h.allocSmall e.move.pick (classForSize new) = r at hgives
  obtain ⟨left, o⟩ := r
  cases o with
  | none => exact .failed hgives.1
  | some b' =>
      obtain ⟨p, rfl⟩ := hb.small halign hold
      refine .relocated ?_ (hgives.2 b' rfl)
      split
      · exact hgives.1.pushSmall _ p
      · exact hgives.1.release _

theorem Ok.reallocBig {r : Pools × Resized} (hok : h.Ok) (hbelow : e.Below)
    (hb : b.Serves lay.size lay.align) (hr : h.reallocBig a e b lay new = some r) :
    Resizes b new lay.align r := by
  have hbig : maxBigBlock < 2 ^ 63 := by decide
  unfold Pools.reallocBig at hr
  split at hr
  · split at hr
    · rename_i x hx
      cases hr
      split at hx
      · obtain ⟨hlow, hhigh, reserve, rfl, halloc⟩ := tryPromote_some hx
        have hslack : min (new * bigGrowSlackFactor) maxBigBlock - new ≤ maxBigBlock :=
          (Nat.sub_le _ _).trans (min_le_right _ _)
        obtain ⟨hnear, hroom, hrequested⟩ :=
          allocLargeEx_near hbelow.1 (by omega) (by omega) lay.log_lt hslack halloc
        refine .relocated (hok.release b) ⟨.inr ⟨hlow, ?_⟩, hroom, hnear⟩
        rwa [hrequested]
      · cases hx
    · obtain ⟨b', hgrow, rfl⟩ := Option.map_eq_some_iff.1 hr
      exact .grown hok hb hgrow
  · cases hr

theorem Ok.reallocLarge {r : Pools × Resized} (hok : h.Ok) (hb : b.Serves lay.size lay.align)
    (hr : h.reallocLarge a e b lay new = some r) : Resizes b new lay.align r := by
  unfold Pools.reallocLarge at hr
  split at hr
  · obtain ⟨b', hgrow, rfl⟩ := Option.map_eq_some_iff.1 hr
    exact .grown hok hb hgrow
  · cases hr

theorem Ok.reallocMove (hok : h.Ok) (hbelow : e.Below) (hb : b.Serves lay.size lay.align)
    (hpos : 0 < new) (hnew : new < 2 ^ 63) :
    ∃ r, h.reallocMove a e b lay new = some r ∧ Resizes b new lay.align r := by
  have hgives : Gives new lay.align (h.allocImpl e.move new lay.align) :=
    hok.allocImpl hbelow.2 hpos hnew lay.log_lt
  unfold Pools.reallocMove
  generalize h.allocImpl e.move new lay.align = r at hgives
  obtain ⟨left, o⟩ := r
  cases o with
  | none => exact ⟨_, rfl, .failed hgives.1⟩
  | some b' =>
      obtain ⟨h', hfree, hok'⟩ := Ok.deallocWithLayout (a := a) (f := e.free) hgives.1 hb
      dsimp only
      rw [hfree]
      exact ⟨_, rfl, .relocated hok' (hgives.2 b' rfl)⟩

/-- Every way through `realloc` ends with room for the new size, if the identity of a large region
within its big class does. -/
theorem Ok.realloc (hok : h.Ok) (hbelow : e.Below) (hb : b.Serves lay.size lay.align) (hpos : 0 < new)
    (hnew : new < 2 ^ 63) (hkeeps : b.Keeps lay new) :
    ∃ r, h.realloc a e b lay new = some r ∧ Resizes b new lay.align r := by
  unfold Pools.realloc
  split
  · rename_i hsame
    simp only [Bool.and_eq_true, decide_eq_true_eq, beq_iff_eq] at hsame
    obtain ⟨⟨⟨halign, hold⟩, hle⟩, hcls⟩ := hsame
    obtain ⟨p, rfl⟩ := hb.small halign hold
    exact ⟨_, rfl, .kept hok ⟨halign, hle, hcls⟩⟩
  · unfold Pools.reallocSlow
    split
    · rename_i hboth
      simp only [Bool.and_eq_true, decide_eq_true_eq] at hboth
      exact ⟨_, rfl, hok.reallocSmall hb hboth.1.1 hboth.1.2 hboth.2⟩
    · split
      · rename_i hsame
        obtain ⟨halign, hlow, hhigh, hlow', hhigh', hcls⟩ := sameMediumClass_iff.1 hsame
        obtain ⟨p, rfl⟩ := hb.medium halign hlow hhigh
        exact ⟨_, rfl, .kept hok ⟨halign, hlow', hhigh', hcls⟩⟩
      · split
        · rename_i hsame
          obtain ⟨halign, hlow, hhigh, hlow', hhigh', hcls⟩ := sameBigClass_iff.1 hsame
          refine ⟨_, rfl, .kept hok ?_⟩
          obtain ⟨p, rfl⟩ | ⟨r, rfl⟩ := hb.big hlow
          · exact ⟨halign, hlow', hhigh', hcls⟩
          · -- only the condition says that the region is long enough
            obtain ⟨hwhy, -, hnear⟩ := hb
            exact ⟨by omega, hkeeps r rfl hsame, hnear⟩
        · split
          · rename_i r hr
            exact ⟨r, rfl, hok.reallocBig hbelow hb hr⟩
          · split
            · rename_i r hr
              exact ⟨r, rfl, hok.reallocLarge hb hr⟩
            · exact hok.reallocMove hbelow hb hpos hnew

/-- The identity within a big class looks at sizes only. -/
theorem realloc_sameBig (hsame : sameBigClass (.global lay.align) lay.size new = true) :
    h.realloc a e b lay new = some (h, .stays b) := by
  have hsmall : maxSmallSize < maxMediumBlock := by decide
  obtain ⟨halign, hlow, hhigh, hlow', hhigh', hcls⟩ := sameBigClass_iff.1 hsame
  have hmedium : ¬sameMediumClass lay.align lay.size new = true := by
    rw [sameMediumClass_iff]
    omega
  unfold Pools.realloc Pools.reallocSlow
  rw [if_neg (by simp; omega), if_neg (by simp; omega), if_neg hmedium, if_pos hsame]

end Pools

/-! ### Runs -/

/-- All regions that the request may get are below the address limit. -/
def Request.Below : Request → Prop
  | .alloc _ _ e => e.Below
  | .dealloc _ _ => True
  | .realloc _ _ _ _ e => e.Below

namespace Allocations

variable {a : Reservation} {s s' : Allocations} {q : Request}

structure Ok (s : Allocations) : Prop where
  pools : s.pools.Ok
  live : ∀ x ∈ s.live, x.block.Serves x.layout.size x.layout.align

theorem Ok.empty : Allocations.empty.Ok where
  pools := ⟨fun _ _ hx => absurd hx List.not_mem_nil, fun _ _ _ hx => absurd hx List.not_mem_nil⟩
  live := fun _ hx => absurd hx List.not_mem_nil

/-- The condition on a request. -/
def Keeps (s : Allocations) : Request → Prop
  | .realloc i new _ _ _ => ∀ x, s.live[i]? = some x → x.block.Keeps x.layout new
  | _ => True

theorem Ok.resized (hok : s.Ok) (i : Nat) {lay : Layout} {b : Backing} {r : Pools × Resized}
    (hr : Pools.Resizes b lay.size lay.align r) : (s.resized i lay r).Ok := by
  have hset : ∀ b', b'.Serves lay.size lay.align →
      ∀ x ∈ s.live.set i ⟨lay, b'⟩, x.block.Serves x.layout.size x.layout.align := by
    intro b' hb' x hx
    rcases List.mem_or_eq_of_mem_set hx with hx | rfl
    · exact hok.live x hx
    · exact hb'
  obtain ⟨h, o⟩ := r
  cases o with
  | stays b' => exact ⟨hr.ok, hset b' (hr.serves b' rfl)⟩
  | moved b' => exact ⟨hr.ok, hset b' (hr.serves b' rfl)⟩
  | failed => exact ⟨hr.ok, hok.live⟩

theorem Ok.step (hok : s.Ok) (hbelow : q.Below) (hkeeps : s.Keeps q) (hstep : s.step a q = some s') :
    s'.Ok := by
  unfold Allocations.step at hstep
  cases q with
  | alloc lay zeroed e =>
      dsimp only at hstep
      have hgives : Pools.Gives lay.size lay.align
          (if zeroed then s.pools.allocZeroedImpl e lay.size lay.align
          else s.pools.allocImpl e lay.size lay.align) := by
        cases zeroed with
        | true => exact hok.pools.allocZeroedImpl hbelow lay.pos lay.size_lt lay.log_lt
        | false => exact hok.pools.allocImpl hbelow lay.pos lay.size_lt lay.log_lt
      generalize (if zeroed then s.pools.allocZeroedImpl e lay.size lay.align
        else s.pools.allocImpl e lay.size lay.align) = r at hgives hstep
      obtain ⟨h, o⟩ := r
      cases o with
      | none =>
          cases hstep
          exact ⟨hgives.1, hok.live⟩
      | some b =>
          cases hstep
          refine ⟨hgives.1, fun x hx => ?_⟩
          rcases List.mem_cons.1 hx with rfl | hx
          · exact hgives.2 b rfl
          · exact hok.live x hx
  | dealloc i e =>
      obtain ⟨x, hx, hstep⟩ := Option.bind_eq_some_iff.1 hstep
      obtain ⟨h, hfree, hstep⟩ := Option.bind_eq_some_iff.1 hstep
      cases hstep
      obtain ⟨h', hfree', hpools⟩ := Pools.Ok.deallocWithLayout (a := a) (f := e) hok.pools
        (hok.live x (List.mem_of_getElem? hx))
      rw [hfree] at hfree'
      cases hfree'
      exact ⟨hpools, fun y hy => hok.live y (List.mem_of_mem_eraseIdx hy)⟩
  | realloc i new pos size_lt e =>
      obtain ⟨x, hx, hstep⟩ := Option.bind_eq_some_iff.1 hstep
      obtain ⟨r, hr, hstep⟩ := Option.bind_eq_some_iff.1 hstep
      cases hstep
      obtain ⟨r', hr', hresizes⟩ := hok.pools.realloc (a := a) hbelow
        (hok.live x (List.mem_of_getElem? hx)) pos size_lt (hkeeps x hx)
      rw [hr] at hr'
      cases hr'
      exact Ok.resized (s := s) hok i hresizes

/-- The runs whose requests all meet a condition in the state they find. -/
inductive Run (a : Reservation) (meets : Allocations → Request → Prop) : Allocations → Prop
  | start : Run a meets .empty
  | step {s s' : Allocations} {q : Request} (h : Run a meets s) (hbelow : q.Below) (hmeets : meets s q)
      (hstep : s.step a q = some s') : Run a meets s'

theorem Run.ok (h : Run a Keeps s) : s.Ok := by
  induction h with
  | start => exact .empty
  | step _ hbelow hkeeps hstep ih => exact ih.step hbelow hkeeps hstep

/-- **Every live block has room for its size**, in every run in which no `realloc` within a big class
outgrows the large region that stands in for the block. One more `realloc`, whatever it meets, does not
abort, keeps the pointer of a block that stays, and leaves room for the new size exactly if it meets the
condition. -/
theorem blocks_have_room (h : Run a Keeps s) :
    (∀ x ∈ s.live, x.layout.size ≤ x.block.capacity) ∧
    ∀ x ∈ s.live, ∀ new (e : ReallocAnswers), 0 < new → new < 2 ^ 63 → e.Below →
      ∃ r, s.pools.realloc a e x.block x.layout new = some r ∧
        (∀ b, r.2 = .stays b → b.ptr = x.block.ptr) ∧
        ((∀ b ∈ r.2.block, new ≤ b.capacity) ↔ x.block.Keeps x.layout new) := by
  have hok := h.ok
  refine ⟨fun x hx => (hok.live x hx).fits, fun x hx new e hpos hnew hbelow => ?_⟩
  by_cases hkeeps : x.block.Keeps x.layout new
  · obtain ⟨r, hr, hresizes⟩ := hok.pools.realloc (a := a) hbelow (hok.live x hx) hpos hnew hkeeps
    exact ⟨r, hr, hresizes.stays, iff_of_true (fun b hb => (hresizes.serves b hb).fits) hkeeps⟩
  · -- the identity of a region that is too short
    unfold Backing.Keeps at hkeeps
    push Not at hkeeps
    obtain ⟨r, hlarge, hsame, hshort⟩ := hkeeps
    refine ⟨_, Pools.realloc_sameBig hsame, fun b heq => ?_, ?_⟩
    · cases heq
      rfl
    · refine iff_of_false (fun hroom => ?_) fun hkeeps => ?_
      · have hfits := hroom x.block rfl
        rw [hlarge] at hfits
        exact absurd hfits (Nat.not_le.2 hshort)
      · exact absurd (hkeeps r hlarge hsame) (Nat.not_le.2 hshort)

/-! ### A region that stands in -/

/-- An arena without a span left, and a system that maps. -/
def noSpan : Answers := ⟨.unavailable, mapsOne, .new⟩

/-- One byte more than a medium block, in a region of 64 KiB that stands in for a big block. -/
def standInRegion : LargeBlock := ⟨2 ^ 20 + 48, ⟨65536, 2 ^ 20, 65473⟩⟩

def standIn (size : Nat) (pos : 0 < size) (size_lt : size < 2 ^ 63) : Allocations :=
  { live := [⟨⟨size, 0, pos, size_lt, by decide⟩, .large standInRegion⟩]
    pools := Allocations.empty.pools }

theorem noSpan_alloc : Allocations.empty.pools.allocImpl noSpan 65473 1
    = (Allocations.empty.pools, some (.large standInRegion)) := rfl

theorem standIn_run {meets : Allocations → Request → Prop}
    (hmeets : ∀ lay e, meets .empty (.alloc lay false e)) :
    Run ⟨2 ^ 40, 2 ^ 34⟩ meets (standIn 65473 (by decide) (by decide)) := by
  refine .step (q := .alloc ⟨65473, 0, by decide, by decide, by decide⟩ false noSpan) .start
    mapsOne_below (hmeets _ _) ?_
  simp only [Allocations.step, Layout.align, pow_zero, noSpan_alloc, Bool.false_eq_true, if_false]
  rfl

/-- Within the class and the region, to 65480 bytes. -/
theorem blocks_have_room_kept : 65480 ≤ (Backing.large standInRegion).capacity :=
  (blocks_have_room (a := ⟨2 ^ 40, 2 ^ 34⟩) (s := standIn 65480 (by decide) (by decide)) (.step
    (q := .realloc 0 65480 (by decide) (by decide)
      ⟨noSpan, ⟨0, false, false⟩, ⟨0, false, false⟩, noSpan, ⟨true, none⟩⟩)
    (standIn_run fun _ _ => trivial) ⟨mapsOne_below, mapsOne_below⟩
    (fun x hx r hr _ => by
      cases hx
      cases hr
      decide)
    rfl)).1 _ (List.mem_singleton.2 rfl)

/-- Within the class, to 73000 bytes. -/
theorem blocks_outgrown : ∃ s, Run ⟨2 ^ 40, 2 ^ 34⟩ (fun _ _ => True) s ∧
    ∃ x ∈ s.live, x.block.capacity < x.layout.size :=
  ⟨standIn 73000 (by decide) (by decide), .step
    (q := .realloc 0 73000 (by decide) (by decide)
      ⟨noSpan, ⟨0, false, false⟩, ⟨0, false, false⟩, noSpan, ⟨true, none⟩⟩)
    (standIn_run fun _ _ => trivial) ⟨mapsOne_below, mapsOne_below⟩ trivial rfl,
    _, List.mem_singleton.2 rfl, by decide⟩

end Allocations

end Allox
