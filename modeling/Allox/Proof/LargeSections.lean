import Allox.Proof.Sections

/-!
# The sections of the large regions

A region is in hand as an extent, or under its user pointer with its header registered. Its header lies
in it, so the headers of two regions never meet, and on the arena its units are its own.
-/

namespace Allox

open Resumption

namespace World

variable {w w' : World} {m R : Multiset Token} {p : Nat} {z : Bool}

/-! ### Shards -/

/-- Only the shards and the extents in hand may change. -/
theorem Good.onShards {A A' : Multiset Token} {shards : Fin numLargeShards → LargeRegionCache}
    (h : w.Good (A + R)) (hA : OfUse .large A) (hA' : OfUse .large A')
    (hwhole : ∀ x ∈ A', x.Whole) (hregions : regionsIn A' = regionsIn A)
    (hstep : looseIn .large A + ∑ i, (w.shards i).regions
      = looseIn .large A' + ∑ i, (shards i).regions) : Good { w with shards } (A' + R) := by
  refine h.replace hA hA' hwhole ⟨rfl, rfl, rfl, rfl, rfl⟩ (fun v m hv hpart => ?_) ?_
  · cases v with
    | small => exact hpart
    | span t => exact hpart
    | large => exact absurd rfl hv
  · have hpart := h.part .large
    have hsame : regionsIn (A' + R) = regionsIn (A + R) := by
      rw [regionsIn_add, regionsIn_add, hregions]
    refine ⟨fun p hp => ?_, ?_, ?_⟩
    · obtain ⟨g, hg⟩ := hpart.headers p (hsame ▸ hp)
      exact ⟨g, { hg with }⟩
    · refine Eq.trans ?_ hpart.extents
      rw [hsame, looseIn_add, looseIn_add]
      generalize hregs : (regionsIn (A + R)).map w.regionAt = regs
      calc (regionsIn (A + R)).map w.regionAt + (looseIn .large A' + looseIn .large R)
            + ∑ i, (shards i).regions
          = regs + looseIn .large R + (looseIn .large A' + ∑ i, (shards i).regions) := by
            rw [hregs]
            ac_rfl
        _ = regs + (looseIn .large A + looseIn .large R) + ∑ i, (w.shards i).regions := by
            rw [← hstep]
            ac_rfl
    · rw [hsame]
      exact ⟨hpart.registered.table, hpart.registered.tabled, hpart.registered.registry⟩

theorem looseIn_large (base pages : Nat) :
    looseIn .large {Token.extent ⟨base, pages * pageSize, .large⟩ z} = {(base, pages)} := by
  have hpages : pages * pageSize / pageSize = pages := Nat.mul_div_cancel _ (by decide)
  simp [looseIn, filterMap_singleton, Token.loose?, Mapping.pages?, hpages]

/-- The sum over the shards after one of them changed. -/
theorem sum_shards (shards : Fin numLargeShards → LargeRegionCache) (i : Fin numLargeShards)
    (s : LargeRegionCache) :
    ∑ j, (Function.update shards i s j).regions + (shards i).regions
      = ∑ j, (shards j).regions + s.regions :=
  sum_update_add (fun _ s => LargeRegionCache.regions s) shards i s

theorem Good.takeFit (h : w.Good R) (i : Fin numLargeShards) (mapped : Nat) (z : Bool) :
    Good { w with shards := Function.update w.shards i ((w.shards i).takeFit mapped).1 }
      ((((w.shards i).takeFit mapped).2.elim 0 fun x =>
        {.extent ⟨x.base, x.pages * pageSize, .large⟩ z}) + R) := by
  have h' : w.Good (0 + R) := by rwa [zero_add]
  have hsum := sum_shards w.shards i ((w.shards i).takeFit mapped).1
  have htake := (w.shards i).takeFit_regions mapped
  rw [htake] at hsum
  cases htaken : ((w.shards i).takeFit mapped).2 with
  | none =>
      simp only [htaken, Option.elim, zero_add] at hsum ⊢
      have hdone := h'.onShards .zero .zero (fun x hx => absurd hx (Multiset.notMem_zero x)) rfl
        (congrArg (looseIn .large 0 + ·) (add_right_cancel hsum).symm)
      rwa [zero_add] at hdone
  | some x =>
      simp only [htaken, Option.elim] at hsum ⊢
      refine h'.onShards .zero (.singleton rfl) ?_ ?_ ?_
      · intro y hy
        rw [Multiset.mem_singleton.1 hy]
        exact ⟨Nat.mul_mod_left _ _, by rintro ⟨⟩⟩
      · rw [regionsIn, filterMap_singleton]
        rfl
      · rw [looseIn_large]
        refine add_right_cancel (b := ((w.shards i).takeFit mapped).1.regions) ?_
        rw [add_assoc, ← hsum]
        show 0 + _ = _
        ac_rfl

theorem Good.park {base mapped pages : Nat} (h : w.Good ({.extent ⟨base, mapped, .large⟩ z} + R))
    (hpages : mapped = pages * pageSize) (i : Fin numLargeShards) (d : Discarded) :
    Good { w with
        shards := Function.update w.shards i ((w.shards i).park d base pages mapped).1 }
      (fateTokens .large [(base, ((w.shards i).park d base pages mapped).2)] + R) := by
  have hsum := sum_shards w.shards i ((w.shards i).park d base pages mapped).1
  have hpark := (w.shards i).park_regions d base pages mapped
  have hfate : ∀ bytes, ((w.shards i).park d base pages mapped).2 = .unmap bytes → bytes = mapped := by
    intro bytes hb
    unfold LargeRegionCache.park at hb
    split at hb
    · cases hb
    · split at hb
      · cases hb
      · cases hb
        rfl
  generalize ((w.shards i).park d base pages mapped) = r at *
  have hloose : looseIn .large (fateTokens .large [(base, r.2)])
      = LargeRegionCache.unparked base pages r.2 := by
    cases hr : r.2 with
    | unmap bytes =>
        have hb := hfate bytes hr
        subst hb
        rw [hpages]
        have hdiv : pages * pageSize / pageSize = pages := Nat.mul_div_cancel _ (by decide)
        simp [fateTokens, fateToken, LargeRegionCache.unparked, looseIn, filterMap_singleton,
          Token.loose?, Mapping.pages?, hdiv]
    | _ => simp [fateTokens, fateToken, LargeRegionCache.unparked, looseIn]
  refine h.onShards (.singleton rfl) .fateTokens ?_ ?_ ?_
  · intro y hy
    obtain ⟨x, hx, bytes, hb, rfl⟩ := mem_fateTokens hy
    rw [List.mem_singleton] at hx
    subst hx
    exact ⟨by rw [hfate bytes hb, hpages]; exact Nat.mul_mod_left _ _, by rintro ⟨⟩⟩
  · rw [regionsIn, regionsIn, filterMap_singleton]
    refine filterMap_eq_zero fun y hy => ?_
    obtain ⟨x, -, bytes, -, rfl⟩ := mem_fateTokens hy
    rfl
  · subst hpages
    rw [hloose, looseIn_large]
    refine add_right_cancel (b := (w.shards i).regions) ?_
    rw [add_right_comm, hpark, add_assoc (LargeRegionCache.unparked _ _ _) (∑ j, _), hsum]
    ac_rfl

/-! ### Where regions lie -/

theorem HeaderOk.regionAt {g : LargeHeader} (h : w.HeaderOk p g) :
    w.regionAt p = (g.base, g.mappedSize / pageSize) := by
  simp [World.regionAt, World.header, h.known]

theorem HeaderOk.pages {g : LargeHeader} (h : w.HeaderOk p g) :
    (w.regionAt p).2 * pageSize = g.mappedSize := by
  rw [h.regionAt]
  exact Nat.div_mul_cancel (Nat.dvd_of_mod_eq_zero h.whole)

theorem Good.region_mapped (h : w.Good m) (hp : p ∈ regionsIn m) :
    w.regionAt p ∈ w.mappedOf .large := by
  have hext := LargeOk.extents (h.part .large)
  rw [← hext]
  exact Multiset.mem_add.2 (.inl (Multiset.mem_add.2 (.inl (Multiset.mem_map_of_mem _ hp))))

/-- What is known of a large extent that is mapped. -/
structure Extent (w : World) (e : Nat × Nat) : Prop where
  base : e.1 ≠ 0
  pos : 0 < e.2
  bound : e.1 + e.2 * pageSize ≤ 2 ^ 47
  aligned : w.arena e.1 (e.2 * pageSize) = true → e.1 % pageSize = 0

theorem Good.extent (h : w.Good m) {e : Nat × Nat} (he : e ∈ w.mappedOf .large) : w.Extent e := by
  obtain ⟨x, hx, -, hbase, hpages⟩ := mem_mappedOf.1 he
  have hp := h.placed x hx
  have hlen : e.2 * pageSize = x.len := by
    rw [← hpages]
    exact Nat.div_mul_cancel (Nat.dvd_of_mod_eq_zero hp.whole)
  refine ⟨hbase ▸ hp.base, ?_, ?_, fun harena => ?_⟩
  · have hpos := hp.pos
    rw [← hlen] at hpos
    exact Nat.pos_of_mul_pos_right hpos
  · rw [hlen, ← hbase]
    exact hp.bound
  · rw [hlen, ← hbase] at harena
    rw [← hbase]
    exact hp.aligned (.inr harena)

/-- The regions besides the one in hand lie apart from it. -/
theorem Good.region_apart (h : w.Good ({.region p} + R)) :
    ∀ q ∈ regionsIn R, Apart (w.regionAt q) (w.regionAt p) := by
  intro q hq
  have hmem : ∀ q ∈ regionsIn R, q ∈ regionsIn ({.region p} + R) := fun q hq => by
    rw [regionsIn_add]
    exact Multiset.mem_add.2 (.inr hq)
  have hp : p ∈ regionsIn ({.region p} + R) := by simp [regionsIn, Token.region?]
  refine mapped_apart h.placed h.apart (h.region_mapped (hmem q hq)) (h.region_mapped hp) fun he => ?_
  have hnodup := mapped_nodup h.placed h.apart .large
  have hregions : regionsIn ({.region p} + R) = {p} + regionsIn R := by
    rw [regionsIn_add, regionsIn, filterMap_singleton]
    rfl
  rw [← LargeOk.extents (h.part .large), hregions] at hnodup
  simp only [Multiset.map_add, Multiset.map_singleton, add_assoc] at hnodup
  rw [Multiset.nodup_add] at hnodup
  exact (Multiset.disjoint_left.1 hnodup.2.2) (Multiset.mem_singleton_self _)
    (Multiset.mem_add.2 (.inl (he ▸ Multiset.mem_map_of_mem _ (Multiset.mem_map_of_mem _ hq))))

/-- The regions lie apart from an extent in hand. -/
theorem Good.extent_apart {base bytes : Nat} (h : w.Good ({.extent ⟨base, bytes, .large⟩ z} + R)) :
    ∀ q ∈ regionsIn R, Apart (w.regionAt q) (base, bytes / pageSize) := by
  intro q hq
  have hregions : regionsIn ({.extent ⟨base, bytes, .large⟩ z} + R) = regionsIn R :=
    (read_extent _ z R).2.2
  have hloose : looseIn .large ({.extent ⟨base, bytes, .large⟩ z} + R)
      = {(base, bytes / pageSize)} + looseIn .large R := by
    rw [looseIn_add, looseIn, filterMap_singleton]
    rfl
  have hext := LargeOk.extents (h.part .large)
  rw [hregions, hloose] at hext
  have hmem : (base, bytes / pageSize) ∈ w.mappedOf .large := by
    rw [← hext]
    simp
  refine mapped_apart h.placed h.apart (h.region_mapped (hregions ▸ hq)) hmem fun he => ?_
  have hnodup := mapped_nodup h.placed h.apart .large
  rw [← hext] at hnodup
  simp only [Multiset.map_add, Multiset.map_singleton, add_assoc] at hnodup
  rw [Multiset.nodup_add] at hnodup
  exact (Multiset.disjoint_left.1 hnodup.2.2) (Multiset.mem_map_of_mem _ (Multiset.mem_map_of_mem _ hq))
    (Multiset.mem_add.2 (.inl (by rw [he]; exact Multiset.mem_singleton_self _)))

/-- Extents of whole units that lie apart have no unit in common. -/
theorem unit_apart {e e' : Nat × Nat} (h : Apart e e') (he : e.1 % pageSize = 0)
    (he' : e'.1 % pageSize = 0) {u : Nat} (hu : e.1 / pageSize ≤ u ∧ u < e.1 / pageSize + e.2) :
    ¬(e'.1 / pageSize ≤ u ∧ u < e'.1 / pageSize + e'.2) := by
  simp only [Apart, pageSize] at *
  omega

/-! ### Headers, table and registry -/

/-- A region and its registration come and go, the others keep theirs. -/
theorem Registered.table_insert {regions : Multiset Nat} {q : Nat} (base n : Nat)
    (hreg : w.Registered regions) (harena : w'.arena = w.arena)
    (hold : ∀ p ∈ regions, w'.regionAt p = w.regionAt p) (hnew : w'.regionAt q = (base, n))
    (hin : w.arena base (n * pageSize) = true) (haligned : base % pageSize = 0)
    (hapart : ∀ p ∈ regions, Apart (w.regionAt p) (base, n))
    (hunits : ∀ p ∈ regions, w.arena (w.regionAt p).1 ((w.regionAt p).2 * pageSize) = true →
      (w.regionAt p).1 % pageSize = 0)
    (htable : w'.largeTable = (w.setLargeTable base n (q - largeHeaderSize)).largeTable)
    (hregistry : w'.registry = w.registry) : w'.Registered ({q} + regions) where
  table p hp := by
    rw [harena, htable]
    intro har u hle hlt
    rcases Multiset.mem_add.1 hp with hp | hp
    · obtain rfl := Multiset.mem_singleton.1 hp
      rw [hnew] at hle hlt
      exact if_pos ⟨hle, hlt⟩
    · rw [hold p hp] at har hle hlt
      refine Eq.trans (if_neg ?_) (hreg.table p hp har u hle hlt)
      exact unit_apart (hapart p hp) (hunits p hp har) haligned ⟨hle, hlt⟩
  tabled u hu := by
    rw [harena]
    rw [htable] at hu
    by_cases hin' : base / pageSize ≤ u ∧ u < base / pageSize + n
    · refine ⟨q, by simp, ?_⟩
      rw [hnew]
      exact ⟨hin, hin'⟩
    · simp only [setLargeTable, if_neg hin'] at hu
      obtain ⟨p, hp, har⟩ := hreg.tabled u hu
      refine ⟨p, Multiset.mem_add.2 (.inr hp), ?_⟩
      rw [hold p hp]
      exact har
  registry b := by
    rw [hregistry, harena, hreg.registry b, Multiset.filter_add, Multiset.filter_singleton, hnew,
      if_neg (by simp [hin])]
    rw [Multiset.empty_eq_zero, zero_add]
    congr 1
    refine Multiset.filter_congr fun p hp => ?_
    rw [hold p hp]

theorem Registered.registry_insert {regions : Multiset Nat} {q : Nat} (base n : Nat)
    (hreg : w.Registered regions) (harena : w'.arena = w.arena)
    (hold : ∀ p ∈ regions, w'.regionAt p = w.regionAt p) (hnew : w'.regionAt q = (base, n))
    (hout : w.arena base (n * pageSize) = false) (htable : w'.largeTable = w.largeTable)
    (hregistry : w'.registry = Function.update w.registry (legacyBucket (q - largeHeaderSize))
      ((q - largeHeaderSize) :: w.registry (legacyBucket (q - largeHeaderSize)))) :
    w'.Registered ({q} + regions) where
  table p hp := by
    rw [harena, htable]
    intro har
    rcases Multiset.mem_add.1 hp with hp | hp
    · obtain rfl := Multiset.mem_singleton.1 hp
      rw [hnew, hout] at har
      cases har
    · rw [hold p hp] at har ⊢
      exact hreg.table p hp har
  tabled u hu := by
    rw [htable] at hu
    obtain ⟨p, hp, har⟩ := hreg.tabled u hu
    refine ⟨p, Multiset.mem_add.2 (.inr hp), ?_⟩
    rw [harena, hold p hp]
    exact har
  registry b := by
    have hrest : regions.filter (fun p => w.arena (w'.regionAt p).1 ((w'.regionAt p).2 * pageSize)
          = false ∧ legacyBucket (p - largeHeaderSize) = b)
        = regions.filter fun p => w.arena (w.regionAt p).1 ((w.regionAt p).2 * pageSize)
          = false ∧ legacyBucket (p - largeHeaderSize) = b :=
      Multiset.filter_congr fun p hp => by rw [hold p hp]
    rw [hregistry, harena, Multiset.filter_add, Multiset.filter_singleton, hnew, hrest,
      Multiset.map_add, ← hreg.registry b]
    by_cases hb : legacyBucket (q - largeHeaderSize) = b
    · subst hb
      simp [hout]
    · have hb' : b ≠ legacyBucket (q - largeHeaderSize) := fun h => hb h.symm
      simp [hb, hb']

theorem registerRegion_of_arena {hdr base mapped requested : Nat} (h : w.arena base mapped = true) :
    w.registerRegion hdr base mapped requested
      = World.setLargeTable { w with
          headers := Function.update w.headers hdr (some ⟨mapped, base, requested⟩) }
        base (mapped / pageSize) hdr :=
  if_pos h

theorem registerRegion_of_legacy {hdr base mapped requested : Nat}
    (h : w.arena base mapped = false) :
    w.registerRegion hdr base mapped requested
      = { w with
          headers := Function.update w.headers hdr (some ⟨mapped, base, requested⟩)
          registry := Function.update w.registry (legacyBucket hdr)
            (hdr :: w.registry (legacyBucket hdr)) } :=
  if_neg (ne_true_of_eq_false h)

theorem registerRegion_ground (w : World) (hdr base mapped requested : Nat) :
    SameGround w (w.registerRegion hdr base mapped requested) := by
  unfold registerRegion
  dsimp only
  split <;> exact ⟨rfl, rfl, rfl, rfl, rfl⟩

theorem registerRegion_part {hdr base mapped requested : Nat} {v : Purpose} (hv : v ≠ .large)
    (h : w.Part m v) : (w.registerRegion hdr base mapped requested).Part m v := by
  unfold registerRegion
  dsimp only
  cases v with
  | small => split <;> exact h
  | span t => split <;> exact h
  | large => exact absurd rfl hv

theorem regionsIn_region (p : Nat) (R : Multiset Token) :
    regionsIn ({.region p} + R) = {p} + regionsIn R := by
  rw [regionsIn_add, regionsIn, filterMap_singleton]
  rfl

theorem looseIn_region (u : Purpose) (p : Nat) (R : Multiset Token) :
    looseIn u ({.region p} + R) = looseIn u R := by
  rw [looseIn_add, looseIn, filterMap_singleton]
  exact zero_add _

/-- The header goes into the region, right before the user pointer. -/
theorem Good.register {base bytes size ret : Nat}
    (h : w.Good ({.extent ⟨base, bytes, .large⟩ z} + R)) (hhdr : base + largeHeaderSize ≤ ret)
    (hfits : ret + size ≤ base + bytes) :
    Good (w.registerRegion (ret - largeHeaderSize) base bytes size) ({.region ret} + R) := by
  have hpart := h.part .large
  obtain ⟨hheaders, hextents, hreg⟩ := hpart
  have hwhole := (h.whole (.extent ⟨base, bytes, .large⟩ z) (by simp)).1
  have hbytes : bytes / pageSize * pageSize = bytes :=
    Nat.div_mul_cancel (Nat.dvd_of_mod_eq_zero hwhole)
  have hregions : regionsIn ({.extent ⟨base, bytes, .large⟩ z} + R) = regionsIn R :=
    (read_extent _ z R).2.2
  have hloose : looseIn .large ({.extent ⟨base, bytes, .large⟩ z} + R)
      = {(base, bytes / pageSize)} + looseIn .large R := by
    rw [looseIn_add, looseIn, filterMap_singleton]
    rfl
  have hmem : (base, bytes / pageSize) ∈ w.mappedOf .large := by
    rw [← hextents, hloose]
    simp
  have hapart := h.extent_apart
  rw [hregions] at hheaders hreg
  rw [hregions, hloose] at hextents
  -- the new header is in nobody else's region
  have hfresh : ∀ q ∈ regionsIn R, q - largeHeaderSize ≠ ret - largeHeaderSize := by
    intro q hq he
    obtain ⟨g, hg⟩ := hheaders q hq
    have hap := hapart q hq
    have hpos := (h.extent (h.region_mapped (hregions ▸ hq))).pos
    have hpages := hg.pages
    have hq1 : (w.regionAt q).1 = g.base := by rw [hg.regionAt]
    have hg1 := hg.header
    have hg2 := hg.fits
    have hpos' := (h.extent hmem).pos
    simp only [Apart] at hap
    simp only [hq1, largeHeaderSize, pageSize] at *
    omega
  have hsame : ∀ q ∈ regionsIn R, (w.registerRegion (ret - largeHeaderSize) base bytes size).headers
      (q - largeHeaderSize) = w.headers (q - largeHeaderSize) := by
    intro q hq
    unfold registerRegion
    dsimp only
    split <;> exact Function.update_of_ne (hfresh q hq) _ _
  have hnew : (w.registerRegion (ret - largeHeaderSize) base bytes size).headers
      (ret - largeHeaderSize) = some ⟨bytes, base, size⟩ := by
    unfold registerRegion
    dsimp only
    split <;> exact Function.update_self ..
  have hold : ∀ q ∈ regionsIn R,
      (w.registerRegion (ret - largeHeaderSize) base bytes size).regionAt q = w.regionAt q := by
    intro q hq
    simp only [regionAt, header, hsame q hq]
  have hat : (w.registerRegion (ret - largeHeaderSize) base bytes size).regionAt ret
      = (base, bytes / pageSize) := by
    simp [regionAt, header, hnew]
  refine h.replace (u := .large) (.singleton rfl) (.singleton rfl)
    (fun x hx => by rw [Multiset.mem_singleton.1 hx]; trivial)
    (registerRegion_ground w _ _ _ _) (fun v m hv => registerRegion_part hv) ?_
  refine ⟨fun q hq => ?_, ?_, ?_⟩
  · rw [regionsIn_region] at hq
    rcases Multiset.mem_add.1 hq with hq | hq
    · obtain rfl := Multiset.mem_singleton.1 hq
      exact ⟨_, ⟨hnew, hhdr, Nat.le_trans (Nat.le_add_right _ _) hfits, hwhole⟩⟩
    · obtain ⟨g, hg⟩ := hheaders q hq
      exact ⟨g, ⟨(hsame q hq).trans hg.known, hg.header, hg.fits, hg.whole⟩⟩
  · have hmapped : (w.registerRegion (ret - largeHeaderSize) base bytes size).mappedOf .large
        = w.mappedOf .large := by
      simp only [mappedOf, (registerRegion_ground w (ret - largeHeaderSize) base bytes size).mapped]
    have hshards : (w.registerRegion (ret - largeHeaderSize) base bytes size).shards = w.shards := by
      unfold registerRegion
      dsimp only
      split <;> rfl
    rw [regionsIn_region, looseIn_region, hmapped, hshards, ← hextents, Multiset.map_add,
      Multiset.map_singleton, hat, Multiset.map_congr rfl hold]
    ac_rfl
  · rw [regionsIn_region]
    by_cases harena : w.arena base bytes = true
    · refine hreg.table_insert base (bytes / pageSize)
        (registerRegion_ground w _ _ _ _).arena hold hat (by rw [hbytes]; exact harena)
        ((h.extent hmem).aligned (by rw [hbytes]; exact harena)) hapart
        (fun q hq har => (h.extent (h.region_mapped (hregions ▸ hq))).aligned har) ?_ ?_
      · rw [registerRegion_of_arena harena]
        rfl
      · rw [registerRegion_of_arena harena]
        rfl
    · have hout : w.arena base bytes = false := by simpa using harena
      refine hreg.registry_insert base (bytes / pageSize)
        (registerRegion_ground w _ _ _ _).arena hold hat (by rw [hbytes]; exact hout) ?_ ?_
      · rw [registerRegion_of_legacy hout]
      · rw [registerRegion_of_legacy hout]

theorem Registered.table_remove {regions : Multiset Nat} {q base n : Nat}
    (hreg : w.Registered ({q} + regions)) (harena : w'.arena = w.arena)
    (hat : w'.regionAt = w.regionAt) (hq : w.regionAt q = (base, n))
    (hin : w.arena base (n * pageSize) = true) (haligned : base % pageSize = 0)
    (hapart : ∀ p ∈ regions, Apart (w.regionAt p) (base, n))
    (hunits : ∀ p ∈ regions, w.arena (w.regionAt p).1 ((w.regionAt p).2 * pageSize) = true →
      (w.regionAt p).1 % pageSize = 0)
    (htable : w'.largeTable = (w.setLargeTable base n 0).largeTable)
    (hregistry : w'.registry = w.registry) : w'.Registered regions where
  table p hp := by
    rw [harena, htable, hat]
    intro har u hle hlt
    refine Eq.trans (if_neg ?_) (hreg.table p (Multiset.mem_add.2 (.inr hp)) har u hle hlt)
    exact unit_apart (hapart p hp) (hunits p hp har) haligned ⟨hle, hlt⟩
  tabled u hu := by
    rw [harena, hat]
    rw [htable] at hu
    by_cases hin' : base / pageSize ≤ u ∧ u < base / pageSize + n
    · simp [setLargeTable, hin'] at hu
    · simp only [setLargeTable, if_neg hin'] at hu
      obtain ⟨p, hp, har⟩ := hreg.tabled u hu
      rcases Multiset.mem_add.1 hp with hp | hp
      · obtain rfl := Multiset.mem_singleton.1 hp
        rw [hq] at har
        exact absurd har.2 hin'
      · exact ⟨p, hp, har⟩
  registry b := by
    rw [hregistry, harena, hat, hreg.registry b, Multiset.filter_add, Multiset.filter_singleton, hq,
      if_neg (by simp [hin])]
    rw [Multiset.empty_eq_zero, zero_add]

theorem Registered.registry_remove {regions : Multiset Nat} {q base n : Nat}
    (hreg : w.Registered ({q} + regions)) (harena : w'.arena = w.arena)
    (hat : w'.regionAt = w.regionAt) (hq : w.regionAt q = (base, n))
    (hout : w.arena base (n * pageSize) = false) (htable : w'.largeTable = w.largeTable)
    (hregistry : w'.registry = Function.update w.registry (legacyBucket (q - largeHeaderSize))
      ((w.registry (legacyBucket (q - largeHeaderSize))).erase (q - largeHeaderSize))) :
    w'.Registered regions where
  table p hp := by
    rw [harena, htable, hat]
    exact hreg.table p (Multiset.mem_add.2 (.inr hp))
  tabled u hu := by
    rw [harena, hat]
    rw [htable] at hu
    obtain ⟨p, hp, har⟩ := hreg.tabled u hu
    rcases Multiset.mem_add.1 hp with hp | hp
    · obtain rfl := Multiset.mem_singleton.1 hp
      rw [hq, hout] at har
      cases har.1
    · exact ⟨p, hp, har⟩
  registry b := by
    have hold := hreg.registry b
    rw [Multiset.filter_add, Multiset.filter_singleton, hq, Multiset.map_add] at hold
    rw [hregistry, harena, hat]
    by_cases hb : legacyBucket (q - largeHeaderSize) = b
    · subst hb
      rw [Function.update_self, ← Multiset.coe_erase, hold]
      simp [hout]
    · have hb' : b ≠ legacyBucket (q - largeHeaderSize) := fun h => hb h.symm
      rw [Function.update_of_ne hb', hold]
      simp [hb]

theorem unregisterRegion_of_arena {hdr base mapped : Nat} (h : w.arena base mapped = true) :
    w.unregisterRegion hdr base mapped = w.setLargeTable base (mapped / pageSize) 0 :=
  if_pos h

theorem unregisterRegion_of_legacy {hdr base mapped : Nat} (h : w.arena base mapped = false) :
    w.unregisterRegion hdr base mapped
      = { w with
          registry := Function.update w.registry (legacyBucket hdr)
            ((w.registry (legacyBucket hdr)).erase hdr) } :=
  if_neg (ne_true_of_eq_false h)

theorem unregisterRegion_ground (w : World) (hdr base mapped : Nat) :
    SameGround w (w.unregisterRegion hdr base mapped) := by
  unfold unregisterRegion
  split <;> exact ⟨rfl, rfl, rfl, rfl, rfl⟩

theorem unregisterRegion_part {hdr base mapped : Nat} {v : Purpose} (hv : v ≠ .large)
    (h : w.Part m v) : (w.unregisterRegion hdr base mapped).Part m v := by
  unfold unregisterRegion
  cases v with
  | small => split <;> exact h
  | span t => split <;> exact h
  | large => exact absurd rfl hv

/-- The header of a region in hand. -/
theorem Good.headerOk (h : w.Good ({.region p} + R)) :
    w.HeaderOk p (w.header (p - largeHeaderSize)) := by
  obtain ⟨g, hg⟩ := LargeOk.headers (h.part .large) p (by
    rw [regionsIn_region]
    simp)
  have hknown : w.header (p - largeHeaderSize) = g := by simp [header, hg.known]
  rwa [hknown]

/-- A freed region is in hand with exactly the extent its header has. -/
theorem Good.unregister (h : w.Good ({.region p} + R)) :
    let g := w.header (p - largeHeaderSize)
    Good (w.unregisterRegion (p - largeHeaderSize) g.base g.mappedSize)
      ({.extent ⟨g.base, g.mappedSize, .large⟩ false} + R) := by
  have hg := h.headerOk
  have hp : p ∈ regionsIn ({.region p} + R) := by
    rw [regionsIn_region]
    simp
  have hmem := h.region_mapped hp
  have hapart := h.region_apart
  have haligned := (h.extent hmem).aligned
  have hunits : ∀ q ∈ regionsIn R, w.arena (w.regionAt q).1 ((w.regionAt q).2 * pageSize) = true →
      (w.regionAt q).1 % pageSize = 0 := fun q hq =>
    (h.extent (h.region_mapped (by rw [regionsIn_region]; simp [hq]))).aligned
  obtain ⟨hheaders, hextents, hreg⟩ := h.part .large
  rw [regionsIn_region, looseIn_region] at hextents
  rw [regionsIn_region] at hreg hheaders
  have hat := hg.regionAt
  have hpages := hg.pages
  rw [hat] at haligned hapart hpages
  dsimp only at haligned hpages
  rw [hpages] at haligned
  generalize hgen : w.header (p - largeHeaderSize) = g at *
  dsimp only
  have hsame : (w.unregisterRegion (p - largeHeaderSize) g.base g.mappedSize).headers = w.headers := by
    unfold unregisterRegion
    split <;> rfl
  have hat' : (w.unregisterRegion (p - largeHeaderSize) g.base g.mappedSize).regionAt = w.regionAt := by
    funext q
    simp only [regionAt, header, hsame]
  have hregions : regionsIn ({.extent ⟨g.base, g.mappedSize, .large⟩ false} + R) = regionsIn R :=
    (read_extent _ false R).2.2
  have hloose : looseIn .large ({.extent ⟨g.base, g.mappedSize, .large⟩ false} + R)
      = {(g.base, g.mappedSize / pageSize)} + looseIn .large R := by
    rw [looseIn_add, looseIn, filterMap_singleton]
    rfl
  refine h.replace (u := .large) (.singleton rfl) (.singleton rfl)
    (fun x hx => by rw [Multiset.mem_singleton.1 hx]; exact ⟨hg.whole, by rintro ⟨⟩⟩)
    (unregisterRegion_ground w _ _ _) (fun v m hv => unregisterRegion_part hv) ?_
  refine ⟨fun q hq => ?_, ?_, ?_⟩
  · obtain ⟨g', hg'⟩ := hheaders q (Multiset.mem_add.2 (.inr (hregions ▸ hq)))
    exact ⟨g', ⟨(congrFun hsame _).trans hg'.known, hg'.header, hg'.fits, hg'.whole⟩⟩
  · have hmapped : (w.unregisterRegion (p - largeHeaderSize) g.base g.mappedSize).mappedOf .large
        = w.mappedOf .large := by
      simp only [mappedOf, (unregisterRegion_ground w (p - largeHeaderSize) g.base g.mappedSize).mapped]
    have hshards : (w.unregisterRegion (p - largeHeaderSize) g.base g.mappedSize).shards
        = w.shards := by
      unfold unregisterRegion
      split <;> rfl
    rw [hregions, hloose, hmapped, hshards, hat', ← hextents, Multiset.map_add,
      Multiset.map_singleton, hat]
    ac_rfl
  · rw [hregions]
    by_cases harena : w.arena g.base g.mappedSize = true
    · refine hreg.table_remove (unregisterRegion_ground w _ _ _).arena hat' hat
        (by rw [hpages]; exact harena) (haligned harena) hapart hunits ?_ ?_
      · rw [unregisterRegion_of_arena harena]
      · rw [unregisterRegion_of_arena harena]
        rfl
    · have hout : w.arena g.base g.mappedSize = false := by simpa using harena
      refine hreg.registry_remove (unregisterRegion_ground w _ _ _).arena hat' hat
        (by rw [hpages]; exact hout) ?_ ?_
      · rw [unregisterRegion_of_legacy hout]
      · rw [unregisterRegion_of_legacy hout]

/-! ### Growth in place -/

/-- A header is rewritten, its extent and its address are not. -/
theorem Good.resize {size : Nat} (h : w.Good ({.region p} + R)) :
    Good (w.resizeHeader (p - largeHeaderSize)
      { w.header (p - largeHeaderSize) with requestedSize := size }) ({.region p} + R) := by
  have hg := h.headerOk
  obtain ⟨hheaders, hextents, hreg⟩ := h.part .large
  generalize hgen : w.header (p - largeHeaderSize) = g at *
  have hat : (w.resizeHeader (p - largeHeaderSize) { g with requestedSize := size }).regionAt
      = w.regionAt := by
    funext q
    by_cases hq : q - largeHeaderSize = p - largeHeaderSize
    · simp [regionAt, hq, resizeHeader, header, hg.known]
    · simp [regionAt, header, resizeHeader, hq]
  refine h.replace (u := .large) (.singleton rfl) (.singleton rfl)
    (fun x hx => by rw [Multiset.mem_singleton.1 hx]; trivial) ⟨rfl, rfl, rfl, rfl, rfl⟩
    (fun v m hv hpart => ?_) ?_
  · cases v with
    | small => exact hpart
    | span t => exact hpart
    | large => exact absurd rfl hv
  · refine ⟨fun q hq => ?_, ?_, ?_⟩
    · by_cases he : q - largeHeaderSize = p - largeHeaderSize
      · obtain ⟨g', hg'⟩ := hheaders q hq
        have hsame : g' = g := by
          have hk := hg'.known
          rw [he, hg.known] at hk
          exact (Option.some.inj hk).symm
        subst hsame
        exact ⟨{ g' with requestedSize := size }, ⟨by simp [resizeHeader, he], hg'.header, hg'.fits,
          hg'.whole⟩⟩
      · obtain ⟨g', hg'⟩ := hheaders q hq
        exact ⟨g', ⟨by simpa [resizeHeader, he] using hg'.known, hg'.header, hg'.fits, hg'.whole⟩⟩
    · rw [hat]
      exact hextents
    · refine ⟨?_, ?_, ?_⟩
      · rw [hat]
        exact hreg.table
      · rw [hat]
        exact hreg.tabled
      · rw [hat]
        exact hreg.registry

/-- What the decision to extend has checked. -/
theorem growth_extend {size newMapped : Nat} (h : w.growth p size = .extend newMapped) :
    w.arena p 1 = true ∧ w.largeTable (p / pageSize) ≠ 0 ∧
      (w.header (p - largeHeaderSize)).mappedSize < newMapped ∧ newMapped % pageSize = 0 := by
  unfold growth at h
  split at h
  · cases h
  · rename_i hknown
    simp only [Bool.or_eq_true, Bool.not_eq_true', decide_eq_true_eq, not_or, Bool.not_eq_false]
      at hknown
    obtain ⟨harena, htable⟩ := hknown
    dsimp only at h
    split at h
    · cases h
    · split at h
      · cases h
      · split at h
        · cases h
        · rename_i hbig
          cases h
          simp only [Bool.or_eq_true, decide_eq_true_eq, not_or, Nat.not_le] at hbig
          refine ⟨harena, ?_, hbig.1.2, Nat.mul_mod_left _ _⟩
          simpa [largeTableGet, harena] using htable

/-- A region that is found in the table and has room behind it on the arena is on the arena. -/
theorem Good.on_arena {newMapped : Nat} (h : w.Good ({.region p} + R))
    (htable : w.largeTable (p / pageSize) ≠ 0)
    (hmore : (w.header (p - largeHeaderSize)).mappedSize < newMapped)
    (hcan : w.canMap ⟨(w.header (p - largeHeaderSize)).base
        + (w.header (p - largeHeaderSize)).mappedSize,
      newMapped - (w.header (p - largeHeaderSize)).mappedSize, .large⟩ = true) :
    w.arena (w.header (p - largeHeaderSize)).base (w.header (p - largeHeaderSize)).mappedSize
      = true := by
  have hg := h.headerOk
  have hat := hg.regionAt
  have hpages := hg.pages
  obtain ⟨q, hq, harena, hunit⟩ := (LargeOk.registered (h.part .large)).tabled _ htable
  have hmemq := h.region_mapped hq
  have haligned := (h.extent hmemq).aligned harena
  rw [regionsIn_region] at hq
  rcases Multiset.mem_add.1 hq with hq | hq
  · obtain rfl := Multiset.mem_singleton.1 hq
    rwa [hpages, hat] at harena
  · exfalso
    -- the table names another region, which then starts where this one ends
    have hap := h.region_apart q hq
    obtain ⟨x, hx, -, hbase, hlen⟩ := mem_mappedOf.1 hmemq
    have hwhole := (h.placed x hx).whole
    simp only [canMap, Bool.and_eq_true, List.all_eq_true] at hcan
    have hdis := hcan.2 x (List.mem_append_left _ hx)
    have hfits := hg.fits
    have hheader := hg.header
    simp only [Mapping.disjoint, Bool.or_eq_true, decide_eq_true_eq] at hdis
    rw [hat] at hap
    have hw := hg.whole
    simp only [Apart, largeHeaderSize, pageSize] at *
    omega

theorem mappedOf_erase {x : Mapping} (hx : x ∈ w.mapped) (u : Purpose) :
    w.mappedOf u
      = looseIn u {.extent x false} + World.mappedOf { w with mapped := w.mapped.erase x } u := by
  rw [← mappedOf_cons { w with mapped := w.mapped.erase x } x u false]
  exact mappedOf_perm (List.perm_cons_erase hx) u

/-- A live region is a mapping of its own. -/
theorem Good.region_mapping (h : w.Good ({.region p} + R)) :
    (⟨(w.header (p - largeHeaderSize)).base, (w.header (p - largeHeaderSize)).mappedSize, .large⟩
      : Mapping) ∈ w.mapped := by
  have hg := h.headerOk
  have hmem := h.region_mapped (p := p) (by
    rw [regionsIn_region]
    simp)
  rw [hg.regionAt] at hmem
  obtain ⟨⟨base, len, use⟩, hx, rfl, rfl, hlen⟩ := mem_mappedOf.1 hmem
  have hwhole := (h.placed _ hx).whole
  have hg' := hg.whole
  have hsame : len = (w.header (p - largeHeaderSize)).mappedSize := by
    simp only [pageSize] at hlen hwhole hg'
    omega
  rwa [hsame] at hx

/-- No two live regions share a header. -/
theorem Good.header_ne (h : w.Good ({.region p} + R)) :
    ∀ q ∈ regionsIn R, q - largeHeaderSize ≠ p - largeHeaderSize := by
  intro q hq he
  have hg := h.headerOk
  have hq' : q ∈ regionsIn ({.region p} + R) := by
    rw [regionsIn_region]
    exact Multiset.mem_add.2 (.inr hq)
  have hp : p ∈ regionsIn ({.region p} + R) := by
    rw [regionsIn_region]
    simp
  obtain ⟨g', hg'⟩ := LargeOk.headers (h.part .large) q hq'
  have hap := h.region_apart q hq
  have hpos := (h.extent (h.region_mapped hp)).pos
  have hpos' := (h.extent (h.region_mapped hq')).pos
  have hpages := hg.pages
  have hpages' := hg'.pages
  have hp1 : (w.regionAt p).1 = (w.header (p - largeHeaderSize)).base := by rw [hg.regionAt]
  have hq1 : (w.regionAt q).1 = g'.base := by rw [hg'.regionAt]
  have h1 := hg.header
  have h2 := hg.fits
  have h3 := hg'.header
  have h4 := hg'.fits
  simp only [Apart] at hap
  simp only [hp1, hq1, largeHeaderSize, pageSize] at *
  omega

/-- A larger mapping in the place of one of the list. -/
theorem extended_ground {base old new : Nat} (hplaced : ∀ e ∈ w.mapped, w.Placed e)
    (htogether : (w.mapped ++ w.refused).Pairwise fun a b => a.disjoint b = true)
    (houtside : ∀ e ∈ w.refused, w.arena e.base e.len = false)
    (hx : (⟨base, old, .large⟩ : Mapping) ∈ w.mapped) (harena : w.arena base old = true)
    (hmore : old < new) (hnew : new % pageSize = 0) (hcan : w.canExtend base old new = true) :
    (∀ e ∈ (⟨base, new, .large⟩ : Mapping) :: w.mapped.erase ⟨base, old, .large⟩, w.Placed e) ∧
      ((⟨base, new, .large⟩ : Mapping) :: w.mapped.erase ⟨base, old, .large⟩ ++ w.refused).Pairwise
        fun a b => a.disjoint b = true := by
  have hp := hplaced _ hx
  have hsum : base + old + (new - old) = base + new := by omega
  simp only [canExtend, canMap, Bool.and_eq_true, List.all_eq_true, decide_eq_true_eq, hsum] at hcan
  obtain ⟨⟨⟨⟨⟨⟨-, -⟩, hbound⟩, -⟩, -⟩, hdis⟩, hin⟩ := hcan
  constructor
  · intro e he
    rcases List.mem_cons.1 he with rfl | he
    · refine ⟨hp.base, Nat.lt_of_le_of_lt (Nat.zero_le old) hmore, hnew, by rintro ⟨⟩,
        fun _ => hp.aligned (.inr harena), hbound, .inl ?_⟩
      simp only [World.arena, Bool.and_eq_true, decide_eq_true_eq] at harena hin ⊢
      omega
    · exact hplaced e (List.mem_of_mem_erase he)
  · have hsymm : ∀ {a b : Mapping}, a.disjoint b = true → b.disjoint a = true := by
      intro a b h
      simpa [Mapping.disjoint, or_comm] using h
    have hcons := (List.Perm.pairwise_iff hsymm
      ((List.perm_cons_erase hx).append_right w.refused)).1 htogether
    obtain ⟨hfirst, hrest⟩ := List.pairwise_cons.1 hcons
    refine List.pairwise_cons.2 ⟨fun y hy => ?_, hrest⟩
    have h1 := hfirst y hy
    have h2 := hdis y ((List.erase_sublist.append_right _).subset hy)
    have hpos' := hp.pos
    simp only [Mapping.disjoint, Bool.or_eq_true, decide_eq_true_eq] at h1 h2 ⊢
    -- behind the old end only what is empty could begin, and what was refused is off the arena
    rcases List.mem_append.1 hy with hy | hy
    · have hpos := (hplaced y (List.mem_of_mem_erase hy)).pos
      omega
    · have hout := houtside y hy
      simp only [World.arena, Bool.and_eq_true, Bool.and_eq_false_iff, decide_eq_true_eq,
        decide_eq_false_iff_not] at hout harena hin
      omega

/-- The table learns the units that a region has gained. -/
theorem Registered.extend {regions : Multiset Nat} {base old new : Nat}
    (hreg : w.Registered ({p} + regions)) (harena : w'.arena = w.arena)
    (hold : ∀ q ∈ regions, w'.regionAt q = w.regionAt q)
    (hp : w.regionAt p = (base, old)) (hp' : w'.regionAt p = (base, new))
    (hin : w.arena base (old * pageSize) = true) (hin' : w.arena base (new * pageSize) = true)
    (hle : old ≤ new)
    (happart : ∀ q ∈ regions, w.arena (w.regionAt q).1 ((w.regionAt q).2 * pageSize) = true →
      ∀ u, (w.regionAt q).1 / pageSize ≤ u → u < (w.regionAt q).1 / pageSize + (w.regionAt q).2 →
        ¬(base / pageSize + old ≤ u ∧ u < base / pageSize + new))
    (htable : ∀ u, w'.largeTable u = if base / pageSize + old ≤ u ∧ u < base / pageSize + new then
      p - largeHeaderSize else w.largeTable u)
    (hregistry : w'.registry = w.registry) : w'.Registered ({p} + regions) where
  table q hq := by
    rw [harena]
    intro har u hlo hhi
    rw [htable]
    rcases Multiset.mem_add.1 hq with hq | hq
    · obtain rfl := Multiset.mem_singleton.1 hq
      rw [hp'] at hlo hhi
      by_cases hadded : base / pageSize + old ≤ u ∧ u < base / pageSize + new
      · rw [if_pos hadded]
      · rw [if_neg hadded]
        refine hreg.table q (by simp) (by rw [hp]; exact hin) u (by rw [hp]; exact hlo) ?_
        rw [hp]
        dsimp only at hlo hhi ⊢
        omega
    · rw [hold q hq] at har hlo hhi
      rw [if_neg (happart q hq har u hlo hhi)]
      exact hreg.table q (Multiset.mem_add.2 (.inr hq)) har u hlo hhi
  tabled u hu := by
    rw [htable] at hu
    rw [harena]
    by_cases hadded : base / pageSize + old ≤ u ∧ u < base / pageSize + new
    · refine ⟨p, by simp, ?_⟩
      rw [hp']
      dsimp only
      exact ⟨hin', by omega, hadded.2⟩
    · rw [if_neg hadded] at hu
      obtain ⟨q, hq, har, hlo, hhi⟩ := hreg.tabled u hu
      refine ⟨q, hq, ?_⟩
      rcases Multiset.mem_add.1 hq with hq | hq
      · obtain rfl := Multiset.mem_singleton.1 hq
        rw [hp] at hlo hhi
        rw [hp']
        dsimp only at hlo hhi ⊢
        exact ⟨hin', hlo, by omega⟩
      · rw [hold q hq]
        exact ⟨har, hlo, hhi⟩
  registry b := by
    rw [hregistry, harena, hreg.registry b]
    congr 1
    refine Multiset.filter_congr fun q hq => ?_
    rcases Multiset.mem_add.1 hq with hq | hq
    · obtain rfl := Multiset.mem_singleton.1 hq
      rw [hp, hp']
      simp [hin, hin']
    · rw [hold q hq]

theorem looseIn_of_ne {u : Purpose} (hu : u ≠ .large) (base len : Nat) :
    looseIn u {Token.extent ⟨base, len, .large⟩ z} = 0 := by
  rw [looseIn, filterMap_singleton, Token.loose?, Mapping.pages?, if_neg fun he => hu he.symm]
  rfl

section Extend

variable {newMapped size : Nat}

theorem extendRegion_header {q : Nat} (hq : q - largeHeaderSize ≠ p - largeHeaderSize) :
    (w.extendRegion p newMapped size).headers (q - largeHeaderSize) = w.headers (q - largeHeaderSize) :=
  Function.update_of_ne hq _ _

theorem extendRegion_regionAt {q : Nat} (hq : q - largeHeaderSize ≠ p - largeHeaderSize) :
    (w.extendRegion p newMapped size).regionAt q = w.regionAt q := by
  unfold regionAt header
  rw [extendRegion_header hq]

theorem extendRegion_known :
    (w.extendRegion p newMapped size).headers (p - largeHeaderSize)
      = some ⟨newMapped, (w.header (p - largeHeaderSize)).base, size⟩ :=
  Function.update_self _ _ _

theorem extendRegion_mappedOf (u : Purpose) :
    (w.extendRegion p newMapped size).mappedOf u
      = looseIn u {.extent ⟨(w.header (p - largeHeaderSize)).base, newMapped, .large⟩ false}
        + World.mappedOf { w with mapped := w.mapped.erase (⟨(w.header (p - largeHeaderSize)).base,
            (w.header (p - largeHeaderSize)).mappedSize, .large⟩ : Mapping) } u :=
  mappedOf_cons { w with mapped := w.mapped.erase _ } _ u false

/-- The parts that are not about large regions do not see the extension. -/
theorem Good.extendRegion_part {u : Purpose} (h : w.Good ({.region p} + R)) (hu : u ≠ .large)
    (hpart : w.Part m u) : (w.extendRegion p newMapped size).Part m u := by
  have hmapped : (w.extendRegion p newMapped size).mappedOf u = w.mappedOf u := by
    rw [extendRegion_mappedOf, mappedOf_erase h.region_mapping, looseIn_of_ne hu, looseIn_of_ne hu]
  cases u with
  | small =>
      show w.small.Conserves _ _ (((w.extendRegion p newMapped size).mappedOf .small).map Prod.fst)
      rw [hmapped]
      exact hpart
  | span t =>
      intro htrusted
      show (w.spans t).Conserves w.arena _ _ ((w.extendRegion p newMapped size).mappedOf (.span t))
      rw [hmapped]
      exact hpart htrusted
  | large => exact absurd rfl hu

/-- On the arena the units behind a region are nobody's, if they can be mapped. -/
theorem Good.behind {newMapped : Nat} (h : w.Good ({.region p} + R))
    (haligned : (w.header (p - largeHeaderSize)).base % pageSize = 0)
    (hmore : (w.header (p - largeHeaderSize)).mappedSize < newMapped)
    (hcan : w.canMap ⟨(w.header (p - largeHeaderSize)).base
        + (w.header (p - largeHeaderSize)).mappedSize,
      newMapped - (w.header (p - largeHeaderSize)).mappedSize, .large⟩ = true) {q : Nat}
    (hq : q ∈ regionsIn R) (harena : w.arena (w.regionAt q).1 ((w.regionAt q).2 * pageSize) = true)
    {u : Nat} (hlo : (w.regionAt q).1 / pageSize ≤ u)
    (hhi : u < (w.regionAt q).1 / pageSize + (w.regionAt q).2) :
    ¬((w.header (p - largeHeaderSize)).base / pageSize
        + (w.header (p - largeHeaderSize)).mappedSize / pageSize ≤ u ∧
      u < (w.header (p - largeHeaderSize)).base / pageSize + newMapped / pageSize) := by
  have hmemq : w.regionAt q ∈ w.mappedOf .large := h.region_mapped (by
    rw [regionsIn_region]
    exact Multiset.mem_add.2 (.inr hq))
  have halignedq := (h.extent hmemq).aligned harena
  have hwhole := h.headerOk.whole
  obtain ⟨x, hx, -, hbase, hlen⟩ := mem_mappedOf.1 hmemq
  have hwholeq := (h.placed x hx).whole
  simp only [canMap, Bool.and_eq_true, List.all_eq_true] at hcan
  have hdis := hcan.2 x (List.mem_append_left _ hx)
  simp only [Mapping.disjoint, Bool.or_eq_true, decide_eq_true_eq] at hdis
  simp only [pageSize] at *
  omega

/-- A region that the frontier can be moved for is extended in place. -/
theorem Good.extend (h : w.Good ({.region p} + R)) (hgrowth : w.growth p size = .extend newMapped)
    (hcan : w.canExtend (w.header (p - largeHeaderSize)).base
      (w.header (p - largeHeaderSize)).mappedSize newMapped = true) :
    Good (w.extendRegion p newMapped size) ({.region p} + R) := by
  obtain ⟨-, htable, hmore, hnew⟩ := growth_extend hgrowth
  obtain ⟨hmap, hbehind⟩ := Bool.and_eq_true_iff.1 hcan
  have hg := h.headerOk
  have hin := h.on_arena htable hmore hmap
  have hx := h.region_mapping
  have haligned : (w.header (p - largeHeaderSize)).base % pageSize = 0 :=
    (h.placed _ hx).aligned (.inr hin)
  obtain ⟨hplaced, htogether⟩ :=
    extended_ground h.placed h.together h.outside hx hin hmore hnew hcan
  have hne := h.header_ne
  have hat := hg.regionAt
  have hpages : (w.header (p - largeHeaderSize)).mappedSize / pageSize * pageSize
      = (w.header (p - largeHeaderSize)).mappedSize :=
    Nat.div_mul_cancel (Nat.dvd_of_mod_eq_zero hg.whole)
  have hpages' : newMapped / pageSize * pageSize = newMapped :=
    Nat.div_mul_cancel (Nat.dvd_of_mod_eq_zero hnew)
  have hok' : (w.extendRegion p newMapped size).HeaderOk p
      ⟨newMapped, (w.header (p - largeHeaderSize)).base, size⟩ :=
    ⟨extendRegion_known, hg.header, hg.fits.trans (Nat.add_le_add_left hmore.le _), hnew⟩
  have hat' : (w.extendRegion p newMapped size).regionAt p
      = ((w.header (p - largeHeaderSize)).base, newMapped / pageSize) := hok'.regionAt
  have hin' : w.arena (w.header (p - largeHeaderSize)).base newMapped = true := by
    simp only [World.arena, Bool.and_eq_true, decide_eq_true_eq] at hin hbehind ⊢
    omega
  obtain ⟨hheaders, hextents, hreg⟩ := h.part .large
  rw [regionsIn_region] at hreg hextents hheaders
  refine ⟨fun u => ?_, h.whole, fun e he => (hplaced e he).congr rfl rfl, htogether, h.outside,
    h.retired⟩
  by_cases hu : u = .large
  · subst hu
    refine ⟨fun q hq => ?_, ?_, ?_⟩
    · rw [regionsIn_region] at hq
      obtain hself | hother := Multiset.mem_add.1 hq
      · rw [Multiset.mem_singleton.1 hself]
        exact ⟨_, hok'⟩
      · obtain ⟨g', hg'⟩ := hheaders q hq
        exact ⟨g', ⟨(extendRegion_header (hne q hother)).trans hg'.known, hg'.header, hg'.fits, hg'.whole⟩⟩
    · have hothers : (regionsIn R).map (w.extendRegion p newMapped size).regionAt
          = (regionsIn R).map w.regionAt :=
        Multiset.map_congr rfl fun q hq => extendRegion_regionAt (hne q hq)
      have hbefore : looseIn .large {Token.extent ⟨(w.header (p - largeHeaderSize)).base,
          (w.header (p - largeHeaderSize)).mappedSize, .large⟩ false} = {w.regionAt p} := by
        rw [looseIn, filterMap_singleton, hat]
        rfl
      have hafter : looseIn .large {Token.extent ⟨(w.header (p - largeHeaderSize)).base, newMapped,
          .large⟩ false} = {(w.extendRegion p newMapped size).regionAt p} := by
        rw [looseIn, filterMap_singleton, hat']
        rfl
      rw [Multiset.map_add, Multiset.map_singleton, mappedOf_erase hx, hbefore, add_assoc, add_assoc]
        at hextents
      have hrest := add_left_cancel hextents
      rw [regionsIn_region, Multiset.map_add, Multiset.map_singleton, hothers, extendRegion_mappedOf,
        hafter, ← hrest, add_assoc, add_assoc]
      rfl
    · rw [regionsIn_region]
      refine hreg.extend rfl (fun q hq => extendRegion_regionAt (hne q hq)) hat hat'
        (by rwa [hpages]) (by rwa [hpages']) (Nat.div_le_div_right hmore.le)
        (fun q hq harena u hlo hhi => h.behind haligned hmore hmap hq harena hlo hhi) (fun u => ?_) rfl
      have hstart : ((w.header (p - largeHeaderSize)).base + (w.header (p - largeHeaderSize)).mappedSize)
          / pageSize = (w.header (p - largeHeaderSize)).base / pageSize
            + (w.header (p - largeHeaderSize)).mappedSize / pageSize := by
        simp only [pageSize] at haligned ⊢
        omega
      have hstop : (w.header (p - largeHeaderSize)).base / pageSize
            + (w.header (p - largeHeaderSize)).mappedSize / pageSize
            + (newMapped / pageSize - (w.header (p - largeHeaderSize)).mappedSize / pageSize)
          = (w.header (p - largeHeaderSize)).base / pageSize + newMapped / pageSize := by
        have hle : (w.header (p - largeHeaderSize)).mappedSize / pageSize ≤ newMapped / pageSize :=
          Nat.div_le_div_right hmore.le
        omega
      rw [← hstop, ← hstart]
      rfl
  · exact h.extendRegion_part hu (h.part u)

end Extend

end World

end Allox
