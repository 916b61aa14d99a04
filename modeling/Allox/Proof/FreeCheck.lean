import Allox.FreeCheck
import Allox.Proof.LargePlacement
import Allox.Proof.SideTableCoherence

/-!
# Invalid large frees

Outside the arena the registry has exactly the headers of the live regions, and no two regions share
an address, so the registry decides membership exactly. In the arena the side table knows pages only:
it accepts every address in the pages of a live region. An address that no table knows is left to the
bytes at the start of its page.
-/

namespace Allox

open Resumption

/-! ### The arena in mid-run -/

namespace ArenaWorld

variable {w : ArenaWorld} {M : Stake} {s : Slice} {p : Nat}

theorem contains_of_at {J : Nat → (Nat → Nat) → Multiset (Slice × Use) → Prop} {cap : Nat}
    (h : w.Held J cap M) (hs : s ∈ w.slices) (hat : w.At s p) :
    w.arena.contains p 1 = true := by
  have hready : w.arena.status = .ready := by
    by_contra hne
    exact h.partition.no_slices hne s hs
  have hend := (h.partition.end_le hs).trans h.partition.bump_le
  have hlimit := h.partition.limit_eq hready
  obtain ⟨hlow, hhigh⟩ := hat
  have hstart : w.arena.start ≤ p := by omega
  have hstop : p + 1 ≤ w.arena.limit := by omega
  simp [Arena.contains, hready, hstart, hstop]

theorem mem_slices_of_pool {x : Slice × Role} (hx : x ∈ w.pool) : x.1 ∈ w.slices := by
  simp only [slices, Multiset.mem_add, Multiset.mem_coe]
  exact .inl (.inl (.inl (List.mem_map_of_mem hx)))

theorem mem_slices_of_returned (hs : s ∈ w.arena.holeSlices ∨ s ∈ w.lost) : s ∈ w.slices := by
  simp only [slices, Multiset.mem_add, Multiset.mem_coe]
  rcases hs with hs | hs
  · exact .inl (.inr hs)
  · exact .inr hs

/-- The lookups in a slice at rest name its owner, whatever the threads are doing. -/
theorem Held.lookups_of_pool (h : w.Held Coherent arenaSize M) {x : Slice × Role} (hx : x ∈ w.pool)
    (hat : w.At x.1 p) :
    w.bigTableGet p = x.2.bigMaster x.1 w.arena.start ∧
      w.mediumTableGet p = x.2.mediumMaster x.1 w.arena.start ∧
      w.largeTableGet p = x.2.largeHeader x.1 w.arena.start := by
  have hs := mem_slices_of_pool hx
  obtain ⟨idx, hmem, hidx⟩ := index_of_at h hs hat
  have hclaimed : (x.1, Use.rest x.2) ∈ w.claimed M.1 :=
    Multiset.mem_add.2 (.inl (Multiset.mem_coe.2 (List.mem_map_of_mem hx)))
  have hunit : 16 ∣ arenaAlign := ⟨4096, rfl⟩
  exact lookups_of_entry hidx (h.coherent.1 _ hclaimed idx hmem) (Nat.dvd_add
    (hunit.trans h.partition.start_aligned) (hunit.trans (h.partition.aligned _ hs).1))

/-- The header of a live region is never null. -/
theorem Held.largeTableGet_ne (h : w.Held Coherent arenaSize M) (hstart : 0 < w.arena.start)
    {x : Slice × Role} {alignLog : Nat} (hx : x ∈ w.pool) (hrole : x.2 = .large alignLog)
    (hat : w.At x.1 p) : w.largeTableGet p ≠ 0 := by
  have hlookup := (h.lookups_of_pool hx hat).2.2
  have hle : w.arena.start + x.1.off + largeHeaderSize
      ≤ alignUp (w.arena.start + x.1.off + largeHeaderSize) (2 ^ alignLog) :=
    le_alignUp (Nat.two_pow_pos alignLog)
  rw [hlookup, hrole]
  simp only [Role.largeHeader, largeHeaderAt]
  omega

/-- A slice that was returned has no entry, also where the hole store had no room for it. -/
theorem Held.lookups_of_returned (h : w.Held Coherent arenaSize M)
    (hs : s ∈ w.arena.holeSlices ∨ s ∈ w.lost) (hat : w.At s p) :
    w.bigTableGet p = 0 ∧ w.mediumTableGet p = 0 ∧ w.largeTableGet p = 0 := by
  obtain ⟨idx, hmem, hidx⟩ := index_of_at h (mem_slices_of_returned hs) hat
  have hslices : w.slices
      = (w.claimed M.1).map Prod.fst + (w.arena.holes.slices + (w.lost : List Slice)) := by
    simp [slices, claimed, h.hands, add_assoc, Function.comp_def]
  refine lookups_zero hidx (h.coherent.2 idx fun x hx hxmem => ?_)
  have hnodup := h.partition.nodup
  rw [hslices, Multiset.add_bind, Multiset.nodup_add] at hnodup
  have hclaimed : idx ∈ ((w.claimed M.1).map Prod.fst).bind Slice.units :=
    Multiset.mem_bind.2 ⟨x.1, Multiset.mem_map_of_mem _ hx, hxmem⟩
  have hreturned : idx ∈ (w.arena.holes.slices + (w.lost : List Slice)).bind Slice.units :=
    Multiset.mem_bind.2 ⟨s, Multiset.mem_add.2 hs, hmem⟩
  exact Multiset.disjoint_left.1 hnodup.2.2 hclaimed hreturned

end ArenaWorld

theorem held_of_reach {ι : Type} [DecidableEq ι] [Fintype ι] {s : Pool ι ArenaWorld Unit ArenaEnv}
    (hreach : Reach tableOps (arenaStart ι arenaSize) s) :
    ∃ M, s.shared.Held Coherent arenaSize M := by
  have hstart : (arenaStart ι arenaSize).Inv (ArenaWorld.Held Coherent arenaSize)
      noTok fun _ => True :=
    Pool.Inv.rest (fun _ => rfl) (fun _ => trivial) (by
      rw [Finset.sum_const_zero]
      exact held_new _ arenaSize ⟨by simp, fun _ _ => rfl⟩)
  obtain ⟨held, hheld, _⟩ := hstart.reach (fun op _ _ => keeps_tableOps op) hreach
  exact ⟨_, hheld⟩

/-! ### Headers -/

namespace LegacyRegion

/-- The header that goes with the user pointer is in place. -/
structure Headed (r : LegacyRegion) (m : ByteMemory) : Prop where
  above : r.base + largeHeaderSize ≤ r.user
  below : r.user < r.base + r.mapped
  aligned : minAlign ∣ r.user
  magic : m.load r.hdr 8 = some largeMagic
  size : m.load (r.hdr + 8) 8 = some r.mapped
  start : m.load (r.hdr + 16) 8 = some r.base

structure Ok (r : LegacyRegion) (m : ByteMemory) (a : Arena) : Prop where
  base_pos : 0 < r.base
  kernel : 4096 ∣ r.base
  pages : pageSize ∣ r.mapped
  mapped_pos : 0 < r.mapped
  end_le : r.base + r.mapped ≤ usizeLimit
  outside : r.Outside a
  header : r.stage.hasHeader → r.Headed m

variable {r x : LegacyRegion} {m m' : ByteMemory} {a : Arena}

theorem Apart.symm (h : r.Apart x) : x.Apart r := Or.symm h

theorem Headed.congr (h : r.Headed m) (hsame : ∀ i < 24, m' (r.hdr + i) = m (r.hdr + i)) :
    r.Headed m' := by
  have hword (k : Nat) (hk : k + 8 ≤ 24) : m'.load (r.hdr + k) 8 = m.load (r.hdr + k) 8 := by
    apply ByteMemory.load_congr
    intro i hi
    rw [Nat.add_assoc]
    exact hsame (k + i) (by omega)
  exact { h with
    magic := (hword 0 (by decide)).trans h.magic
    size := (hword 8 (by decide)).trans h.size
    start := (hword 16 (by decide)).trans h.start }

/-- Two regions apart have different headers. -/
theorem Headed.hdr_ne (h : r.Headed m) (hx : x.Headed m) (hapart : r.Apart x) : r.hdr ≠ x.hdr := by
  obtain ⟨habove, hbelow⟩ := And.intro h.above h.below
  obtain ⟨hxabove, hxbelow⟩ := And.intro hx.above hx.below
  have hsize : largeHeaderSize = 48 := rfl
  unfold hdr
  rcases hapart with hle | hle <;> omega

theorem Headed.user_eq (h : r.Headed m) : r.hdr + largeHeaderSize = r.user := by
  have habove := h.above
  unfold hdr
  omega

/-- The header just written is in place. -/
theorem headed_initLargeHeader (hok : r.Ok m a) {size alignLog : Nat} (hsize : 0 < size)
    (hfits : alignUp (r.base + largeHeaderSize) (2 ^ alignLog) + size ≤ r.base + r.mapped) :
    ({ r with user := alignUp (r.base + largeHeaderSize) (2 ^ alignLog), stage := .headed }
      : LegacyRegion).Headed
      (initLargeHeader m (largeHeaderAt r.base (2 ^ alignLog)) r.base r.mapped size) := by
  have hend := hok.end_le
  have hbase := hok.base_pos
  have hmapped := hok.mapped_pos
  have hlimit : usizeLimit = 256 ^ 8 := by decide
  have hmagic : largeMagic < 256 ^ 8 := by decide
  have hle : r.base + largeHeaderSize ≤ alignUp (r.base + largeHeaderSize) (2 ^ alignLog) :=
    le_alignUp (Nat.two_pow_pos _)
  have hdvd : 16 ∣ largeHeaderAt r.base (2 ^ alignLog) :=
    dvd_largeHeaderAt (Nat.dvd_trans ⟨256, rfl⟩ hok.kernel) alignLog
  have hback : largeHeaderAt r.base (2 ^ alignLog) + 48
      = alignUp (r.base + largeHeaderSize) (2 ^ alignLog) := by
    have hheader : largeHeaderSize = 48 := rfl
    unfold largeHeaderAt
    omega
  rw [hlimit] at hend
  unfold initLargeHeader
  constructor
  · exact hle
  · change alignUp (r.base + largeHeaderSize) (2 ^ alignLog) < r.base + r.mapped
    omega
  · change 16 ∣ alignUp (r.base + largeHeaderSize) (2 ^ alignLog)
    rw [← hback]
    exact Nat.dvd_add hdvd ⟨3, rfl⟩
  · change ByteMemory.load _ (largeHeaderAt r.base (2 ^ alignLog)) 8 = _
    rw [ByteMemory.load_store_other (by omega), ByteMemory.load_store_other (by omega),
      ByteMemory.load_store_other (by omega), ByteMemory.load_store_other (by omega),
      ByteMemory.load_store_same hmagic]
  · change ByteMemory.load _ (largeHeaderAt r.base (2 ^ alignLog) + 8) 8 = _
    rw [ByteMemory.load_store_other (by omega), ByteMemory.load_store_other (by omega),
      ByteMemory.load_store_other (by omega), ByteMemory.load_store_same (by omega)]
  · change ByteMemory.load _ (largeHeaderAt r.base (2 ^ alignLog) + 16) 8 = _
    rw [ByteMemory.load_store_other (by omega), ByteMemory.load_store_other (by omega),
      ByteMemory.load_store_same (by omega)]

/-- Writing a header touches its own forty bytes. -/
theorem initLargeHeader_other {hdr base mapped requested b : Nat}
    (h : b < hdr ∨ hdr + 40 ≤ b) : initLargeHeader m hdr base mapped requested b = m b := by
  unfold initLargeHeader
  rw [ByteMemory.store_other (by omega), ByteMemory.store_other (by omega),
    ByteMemory.store_other (by omega), ByteMemory.store_other (by omega),
    ByteMemory.store_other (by omega)]

/-- A header that is in place is accepted. -/
theorem Headed.largeHeaderOf (h : r.Headed m) (hok : r.Ok m a) :
    largeHeaderOf m r.user = some (some (r.base, r.mapped)) := by
  obtain ⟨habove, hbelow⟩ := And.intro h.above h.below
  have hend := hok.end_le
  have hheader : largeHeaderSize = 48 := rfl
  have hhdr : (r.user - largeHeaderSize) % minAlign = 0 :=
    Nat.mod_eq_zero_of_dvd (Nat.dvd_sub h.aligned ⟨3, rfl⟩)
  have hmagic : m.load (r.user - largeHeaderSize) 8 = some largeMagic := h.magic
  have hsize : m.load (r.user - largeHeaderSize + 8) 8 = some r.mapped := h.size
  have hstart : m.load (r.user - largeHeaderSize + 16) 8 = some r.base := h.start
  have hpages : r.mapped % pageSize = 0 := Nat.mod_eq_zero_of_dvd hok.pages
  have hlarge : pageSize ≤ r.mapped := Nat.le_of_dvd hok.mapped_pos hok.pages
  have hoff : (r.user + usizeLimit - r.base) % usizeLimit = r.user - r.base := by
    rw [show r.user + usizeLimit - r.base = r.user - r.base + usizeLimit by omega,
      Nat.add_mod_right, Nat.mod_eq_of_lt (by omega)]
  have hpage : pageSize = 65536 := rfl
  have hshort : ¬ r.user < largeHeaderSize := by omega
  have hmapped : ¬ r.mapped < largeHeaderSize := by omega
  have hzero : ¬ (r.user - r.base = 0 ∨ r.mapped ≤ r.user - r.base) := by omega
  unfold Allox.largeHeaderOf
  simp only [if_neg hshort, hhdr, ne_eq, not_true_eq_false, if_false, hmagic, hsize, hstart,
    Option.bind_eq_bind, Option.bind_some, hmapped, hpages, decide_false, Bool.or_self,
    Bool.false_eq_true, hoff]
  rw [if_neg (by simpa using hzero)]
  rfl

end LegacyRegion

/-! ### The invariant -/

namespace FreeWorld

variable {ι : Type} [DecidableEq ι] {w w' : FreeWorld ι} {r r' : LegacyRegion}
  {rest : List LegacyRegion} {p : Nat}

/-- Counted, whether or not linked yet. -/
def isCounted (r : LegacyRegion) : Bool := r.stage = .counted || r.stage = .live

structure Ok (w : FreeWorld ι) : Prop where
  regions : ∀ r ∈ w.regions, r.Ok w.mem w.pool.shared.arena
  apart : w.regions.Pairwise LegacyRegion.Apart
  registry : ∀ hdr, hdr ∈ w.registry (legacyBucket hdr) ↔
    ∃ r ∈ w.regions, r.stage = .live ∧ r.hdr = hdr
  nodup : ∀ bucket, (w.registry bucket).Nodup
  len : w.registryLen = w.regions.countP isCounted
  pool : Reach tableOps (arenaStart ι arenaSize) w.pool
  start : w.pool.shared.arena.status = .ready → 0 < w.pool.shared.arena.start

/-- The parts of the invariant that see one region at a time, after `r` became `r'`. -/
theorem Ok.replace_regions (w' : FreeWorld ι) (r' : LegacyRegion) (h : w.Ok) (hperm : w.regions.Perm (r :: rest)) (hbase : r'.base = r.base)
    (hmapped : r'.mapped = r.mapped)
    (hheader : r'.stage.hasHeader → r'.Headed w'.mem)
    (hothers : ∀ x ∈ rest, r.Apart x → x.stage.hasHeader → x.Headed w.mem → x.Headed w'.mem)
    (harena : w'.pool = w.pool) :
    (∀ x ∈ r' :: rest, x.Ok w'.mem w'.pool.shared.arena) ∧
      (r' :: rest).Pairwise LegacyRegion.Apart := by
  have hapart := (hperm.pairwise_iff fun h => LegacyRegion.Apart.symm h).1 h.apart
  obtain ⟨hhead, htail⟩ := List.pairwise_cons.1 hapart
  have hr := h.regions r (hperm.mem_iff.2 List.mem_cons_self)
  rw [harena]
  constructor
  · intro x hx
    rcases List.mem_cons.1 hx with rfl | hx
    · exact {
        base_pos := hbase ▸ hr.base_pos
        kernel := hbase ▸ hr.kernel
        pages := hmapped ▸ hr.pages
        mapped_pos := hmapped ▸ hr.mapped_pos
        end_le := by rw [hbase, hmapped]; exact hr.end_le
        outside := by
          unfold LegacyRegion.Outside
          rw [hbase, hmapped]
          exact hr.outside
        header := hheader }
    · have hxok := h.regions x (hperm.mem_iff.2 (List.mem_cons_of_mem _ hx))
      exact { hxok with
        header := fun hstage => hothers x hx (hhead x hx) hstage (hxok.header hstage) }
  · refine List.pairwise_cons.2 ⟨fun x hx => ?_, htail⟩
    have := hhead x hx
    unfold LegacyRegion.Apart at this ⊢
    rwa [hbase, hmapped]

/-- A step of a region that is not live before or after leaves the registry right. -/
theorem Ok.replace_registry (r' : LegacyRegion) (h : w.Ok) (hperm : w.regions.Perm (r :: rest)) (hr : r.stage ≠ .live)
    (hr' : r'.stage ≠ .live) (hdr : Nat) :
    hdr ∈ w.registry (legacyBucket hdr) ↔ ∃ x ∈ r' :: rest, x.stage = .live ∧ x.hdr = hdr := by
  rw [h.registry]
  constructor
  · rintro ⟨x, hx, hlive, rfl⟩
    rcases List.mem_cons.1 (hperm.mem_iff.1 hx) with rfl | hx
    · exact absurd hlive hr
    · exact ⟨x, List.mem_cons_of_mem _ hx, hlive, rfl⟩
  · rintro ⟨x, hx, hlive, rfl⟩
    rcases List.mem_cons.1 hx with rfl | hx
    · exact absurd hlive hr'
    · exact ⟨x, hperm.mem_iff.2 (List.mem_cons_of_mem _ hx), hlive, rfl⟩

theorem Ok.len_cons (h : w.Ok) (hperm : w.regions.Perm (r :: rest)) :
    w.registryLen = rest.countP isCounted + if isCounted r then 1 else 0 := by
  rw [h.len, hperm.countP_eq, List.countP_cons]

/-- A region changes its stage, and neither the registry nor the count sees it. -/
theorem Ok.restage (h : w.Ok) (hperm : w.regions.Perm (r :: rest)) (stage : LegacyStage)
    (hr : r.stage ≠ .live) (hstage : stage ≠ .live)
    (hcounted : isCounted r = isCounted { r with stage })
    (hheader : stage.hasHeader → r.stage.hasHeader) :
    ({ w with regions := { r with stage } :: rest } : FreeWorld ι).Ok := by
  have hrok := h.regions r (hperm.mem_iff.2 List.mem_cons_self)
  obtain ⟨hregions, hapart⟩ := h.replace_regions w { r with stage } hperm rfl rfl
    (fun hs => by
      have := hrok.header (hheader hs)
      exact ⟨this.above, this.below, this.aligned, this.magic, this.size, this.start⟩)
    (fun x _ _ _ hx => hx) rfl
  exact {
    regions := hregions
    apart := hapart
    registry := h.replace_registry _ hperm hr hstage
    nodup := h.nodup
    len := by
      rw [List.countP_cons, ← hcounted]
      exact h.len_cons hperm
    pool := h.pool
    start := h.start }

/-! ### Steps -/

omit [DecidableEq ι] in
theorem mem_register (w : FreeWorld ι) (hdr x : Nat) :
    x ∈ (w.registerLegacyLarge hdr).registry (legacyBucket x)
      ↔ x = hdr ∨ x ∈ w.registry (legacyBucket x) := by
  unfold registerLegacyLarge
  dsimp only
  by_cases hbucket : legacyBucket x = legacyBucket hdr
  · rw [hbucket, Function.update_self, List.mem_cons]
  · rw [Function.update_of_ne hbucket]
    have hne : x ≠ hdr := fun heq => hbucket (heq ▸ rfl)
    simp only [hne, false_or]

theorem Ok.mem_unregister (h : w.Ok) (hdr x : Nat) :
    x ∈ (w.unregisterLegacyLarge hdr).registry (legacyBucket x)
      ↔ x ≠ hdr ∧ x ∈ w.registry (legacyBucket x) := by
  unfold unregisterLegacyLarge
  dsimp only
  split
  · dsimp only
    by_cases hbucket : legacyBucket x = legacyBucket hdr
    · rw [hbucket, Function.update_self]
      exact (h.nodup _).mem_erase_iff
    · rw [Function.update_of_ne hbucket]
      have hne : x ≠ hdr := fun heq => hbucket (heq ▸ rfl)
      simp only [ne_eq, hne, not_false_eq_true, true_and]
  · rename_i hout
    refine ⟨fun hx => ⟨?_, hx⟩, And.right⟩
    rintro rfl
    exact hout (List.contains_iff_mem.2 hx)

/-- Another region's header is not this one's. -/
theorem Ok.hdr_ne (h : w.Ok) (hperm : w.regions.Perm (r :: rest)) (hr : r.stage.hasHeader)
    {x : LegacyRegion} (hx : x ∈ rest) (hstage : x.stage.hasHeader) : x.hdr ≠ r.hdr := by
  have hapart := (hperm.pairwise_iff fun h => LegacyRegion.Apart.symm h).1 h.apart
  have hrok := h.regions r (hperm.mem_iff.2 List.mem_cons_self)
  have hxok := h.regions x (hperm.mem_iff.2 (List.mem_cons_of_mem _ hx))
  exact ((hrok.header hr).hdr_ne (hxok.header hstage) ((List.pairwise_cons.1 hapart).1 x hx)).symm

theorem Ok.count (h : w.Ok) (hperm : w.regions.Perm (r :: rest)) (hstage : r.stage = .headed) :
    ({ w with
        registryLen := w.registryLen + 1
        regions := { r with stage := .counted } :: rest } : FreeWorld ι).Ok := by
  have hrok := h.regions r (hperm.mem_iff.2 List.mem_cons_self)
  obtain ⟨hregions, hapart⟩ := h.replace_regions w { r with stage := .counted } hperm
    rfl rfl (fun _ => by
      have := hrok.header (by rw [hstage]; rfl)
      exact ⟨this.above, this.below, this.aligned, this.magic, this.size, this.start⟩)
    (fun x _ _ _ hx => hx) rfl
  exact {
    regions := hregions
    apart := hapart
    registry := h.replace_registry _ hperm (by rw [hstage]; decide) nofun
    nodup := h.nodup
    len := by
      have hlen := h.len_cons hperm
      simp only [isCounted, hstage, reduceCtorEq, decide_false, Bool.or_self, Bool.false_eq_true,
        if_false] at hlen
      rw [List.countP_cons, hlen]
      rfl
    pool := h.pool
    start := h.start }

theorem Ok.register (h : w.Ok) (hperm : w.regions.Perm (r :: rest)) (hstage : r.stage = .counted) :
    ({ w.registerLegacyLarge r.hdr with regions := { r with stage := .live } :: rest }
      : FreeWorld ι).Ok := by
  have hrok := h.regions r (hperm.mem_iff.2 List.mem_cons_self)
  have hheader : r.stage.hasHeader := by rw [hstage]; rfl
  obtain ⟨hregions, hapart⟩ := h.replace_regions w { r with stage := .live } hperm
    rfl rfl (fun _ => by
      have := hrok.header hheader
      exact ⟨this.above, this.below, this.aligned, this.magic, this.size, this.start⟩)
    (fun x _ _ _ hx => hx) rfl
  exact {
    regions := hregions
    apart := hapart
    registry := fun hdr => by
      refine (mem_register w r.hdr hdr).trans ?_
      rw [h.registry]
      constructor
      · rintro (rfl | ⟨x, hx, hlive, rfl⟩)
        · exact ⟨{ r with stage := .live }, List.mem_cons_self, rfl, rfl⟩
        · rcases List.mem_cons.1 (hperm.mem_iff.1 hx) with rfl | hx
          · rw [hstage] at hlive
            cases hlive
          · exact ⟨x, List.mem_cons_of_mem _ hx, hlive, rfl⟩
      · rintro ⟨x, hx, hlive, rfl⟩
        rcases List.mem_cons.1 hx with rfl | hx
        · exact .inl rfl
        · exact .inr ⟨x, hperm.mem_iff.2 (List.mem_cons_of_mem _ hx), hlive, rfl⟩
    nodup := fun bucket => by
      change (Function.update w.registry (legacyBucket r.hdr) _ bucket).Nodup
      by_cases hbucket : bucket = legacyBucket r.hdr
      · rw [hbucket, Function.update_self]
        refine List.nodup_cons.2 ⟨fun hmem => ?_, h.nodup _⟩
        obtain ⟨x, hx, hlive, heq⟩ := (h.registry r.hdr).1 hmem
        rcases List.mem_cons.1 (hperm.mem_iff.1 hx) with rfl | hx
        · rw [hstage] at hlive
          cases hlive
        · exact h.hdr_ne hperm hheader hx (by rw [hlive]; rfl) heq
      · rw [Function.update_of_ne hbucket]
        exact h.nodup bucket
    len := by
      have hlen := h.len_cons hperm
      simp only [isCounted, hstage, decide_true, Bool.true_or, if_true] at hlen
      rw [List.countP_cons]
      exact hlen
    pool := h.pool
    start := h.start }

theorem Ok.unregister (h : w.Ok) (hperm : w.regions.Perm (r :: rest)) (hstage : r.stage = .live) :
    ({ w.unregisterLegacyLarge r.hdr with regions := { r with stage := .hand } :: rest }
      : FreeWorld ι).Ok := by
  have hmem : r.hdr ∈ w.registry (legacyBucket r.hdr) :=
    (h.registry r.hdr).2 ⟨r, hperm.mem_iff.2 List.mem_cons_self, hstage, rfl⟩
  have hworld : w.unregisterLegacyLarge r.hdr = { w with
      registry := Function.update w.registry (legacyBucket r.hdr)
        ((w.registry (legacyBucket r.hdr)).erase r.hdr)
      registryLen := w.registryLen - 1 } := if_pos (List.contains_iff_mem.2 hmem)
  have hregistry := h.mem_unregister r.hdr
  rw [hworld] at hregistry ⊢
  obtain ⟨hregions, hapart⟩ := h.replace_regions w { r with stage := .hand } hperm
    rfl rfl nofun (fun x _ _ _ hx => hx) rfl
  exact {
    regions := hregions
    apart := hapart
    registry := fun hdr => by
      refine (hregistry hdr).trans ?_
      rw [h.registry]
      constructor
      · rintro ⟨hne, x, hx, hlive, rfl⟩
        rcases List.mem_cons.1 (hperm.mem_iff.1 hx) with rfl | hx
        · exact absurd rfl hne
        · exact ⟨x, List.mem_cons_of_mem _ hx, hlive, rfl⟩
      · rintro ⟨x, hx, hlive, rfl⟩
        rcases List.mem_cons.1 hx with rfl | hx
        · cases hlive
        · exact ⟨h.hdr_ne hperm (by rw [hstage]; rfl) hx (by rw [hlive]; rfl), x,
            hperm.mem_iff.2 (List.mem_cons_of_mem _ hx), hlive, rfl⟩
    nodup := fun bucket => by
      change (Function.update w.registry (legacyBucket r.hdr) _ bucket).Nodup
      by_cases hbucket : bucket = legacyBucket r.hdr
      · rw [hbucket, Function.update_self]
        exact (h.nodup _).erase _
      · rw [Function.update_of_ne hbucket]
        exact h.nodup bucket
    len := by
      have hlen := h.len_cons hperm
      simp only [isCounted, hstage, reduceCtorEq, decide_false, decide_true, Bool.or_true,
        if_true] at hlen
      change w.registryLen - 1 = _
      rw [List.countP_cons, hlen]
      rfl
    pool := h.pool
    start := h.start }

theorem Ok.initHeader (h : w.Ok) (hperm : w.regions.Perm (r :: rest)) (hstage : r.stage = .hand)
    {size alignLog : Nat} (hsize : 0 < size)
    (hfits : alignUp (r.base + largeHeaderSize) (2 ^ alignLog) + size ≤ r.base + r.mapped) :
    ({ w with
        mem := initLargeHeader w.mem (largeHeaderAt r.base (2 ^ alignLog)) r.base r.mapped size
        regions := { r with
          user := alignUp (r.base + largeHeaderSize) (2 ^ alignLog), stage := .headed } :: rest }
      : FreeWorld ι).Ok := by
  have hrok := h.regions r (hperm.mem_iff.2 List.mem_cons_self)
  have hheaded := LegacyRegion.headed_initLargeHeader hrok hsize hfits
  have habove := hheaded.above
  have hbelow := hheaded.below
  dsimp only at habove hbelow
  have hheader : largeHeaderSize = 48 := rfl
  -- the forty bytes written lie in `r`, and the other headers do not
  have hothers : ∀ x ∈ rest, r.Apart x → x.stage.hasHeader → x.Headed w.mem →
      x.Headed (initLargeHeader w.mem (largeHeaderAt r.base (2 ^ alignLog)) r.base r.mapped size) := by
    intro x _ hapart _ hx
    have hxabove := hx.above
    have hxbelow := hx.below
    have hxuser := hx.user_eq
    refine hx.congr fun i hi => LegacyRegion.initLargeHeader_other ?_
    unfold largeHeaderAt
    rcases hapart with hle | hle <;> omega
  obtain ⟨hregions, hapart⟩ := h.replace_regions
    { w with
      mem := initLargeHeader w.mem (largeHeaderAt r.base (2 ^ alignLog)) r.base r.mapped size }
    { r with user := alignUp (r.base + largeHeaderSize) (2 ^ alignLog), stage := .headed }
    hperm rfl rfl (fun _ => hheaded) hothers rfl
  exact {
    regions := hregions
    apart := hapart
    registry := h.replace_registry _ hperm (by rw [hstage]; decide) nofun
    nodup := h.nodup
    len := by
      have hlen := h.len_cons hperm
      simp only [isCounted, hstage, reduceCtorEq, decide_false, Bool.or_self, Bool.false_eq_true,
        if_false] at hlen
      rw [List.countP_cons]
      exact hlen
    pool := h.pool
    start := h.start }

theorem Ok.memory (h : w.Ok) {mem : ByteMemory}
    (hheaders : ∀ r ∈ w.regions, r.stage.hasHeader → ∀ i < 24, mem (r.hdr + i) = w.mem (r.hdr + i)) :
    ({ w with mem } : FreeWorld ι).Ok :=
  { h with
    regions := fun r hr =>
      { h.regions r hr with
        header := fun hstage =>
          ((h.regions r hr).header hstage).congr (hheaders r hr hstage) } }

theorem Ok.unmap (h : w.Ok) (hperm : w.regions.Perm (r :: rest)) (hstage : r.stage = .hand) :
    ({ w with regions := rest } : FreeWorld ι).Ok := by
  have hapart := (hperm.pairwise_iff fun h => LegacyRegion.Apart.symm h).1 h.apart
  exact { h with
    regions := fun x hx => h.regions x (hperm.mem_iff.2 (List.mem_cons_of_mem _ hx))
    apart := (List.pairwise_cons.1 hapart).2
    registry := fun hdr => by
      refine (h.replace_registry r hperm (by rw [hstage]; decide)
        (by rw [hstage]; decide) hdr).trans ?_
      simp only [List.mem_cons, or_and_right, exists_or, exists_eq_left, hstage, reduceCtorEq,
        false_and, false_or]
    len := by
      have hlen := h.len_cons hperm
      simpa only [isCounted, hstage, reduceCtorEq, decide_false, Bool.or_self, Bool.false_eq_true,
        if_false, Nat.add_zero] using hlen }

theorem Ok.step (h : w.Ok) (hstep : FreeStep w w') : w'.Ok := by
  cases hstep with
  | arena pool hstep hstart houtside =>
      exact { h with
        regions := fun r hr => { h.regions r hr with outside := houtside r hr }
        pool := h.pool.step hstep
        start := hstart }
  | memory mem hheaders => exact h.memory hheaders
  | map r hstage hbase hkernel hpages hmapped hend hapart houtside =>
      exact { h with
        regions := fun x hx => by
          rcases List.mem_cons.1 hx with rfl | hx
          · exact ⟨hbase, hkernel, hpages, hmapped, hend, houtside, by rw [hstage]; nofun⟩
          · exact h.regions x hx
        apart := List.pairwise_cons.2 ⟨hapart, h.apart⟩
        registry := fun hdr => by
          rw [h.registry]
          simp only [List.mem_cons, or_and_right, exists_or, exists_eq_left, hstage, reduceCtorEq,
            false_and, false_or]
        len := by
          rw [List.countP_cons, h.len]
          simp only [isCounted, hstage, reduceCtorEq, decide_false, Bool.or_self,
            Bool.false_eq_true, if_false, Nat.add_zero] }
  | initHeader r rest size alignLog hperm hstage hsize hfits =>
      exact h.initHeader hperm hstage hsize hfits
  | count r rest hperm hstage => exact h.count hperm hstage
  | register r rest hperm hstage => exact h.register hperm hstage
  | unregister r rest hperm hstage => exact h.unregister hperm hstage
  | park r rest hperm hstage =>
      exact h.restage hperm .parked (by rw [hstage]; decide) (by decide)
        (by simp only [isCounted, hstage]; rfl) nofun
  | take r rest hperm hstage =>
      exact h.restage hperm .hand (by rw [hstage]; decide) (by decide)
        (by simp only [isCounted, hstage]; rfl) nofun
  | unmap r rest hperm hstage => exact h.unmap hperm hstage

theorem ok_of_reach (hreach : FreeReach w) : w.Ok := by
  induction hreach with
  | new =>
      exact {
        regions := nofun
        apart := List.Pairwise.nil
        registry := fun hdr => by simp [FreeWorld.new]
        nodup := fun _ => List.nodup_nil
        len := rfl
        pool := .refl
        start := nofun }
  | step _ hstep ih => exact ih.step hstep

/-! ### The verdict -/

/-- `p` is the pointer `alloc_large_ex` returned for a region that is still live. -/
def LiveUser (w : FreeWorld ι) (p : Nat) : Prop :=
  (∃ x ∈ w.pool.shared.pool, ∃ alignLog, x.2 = .large alignLog ∧ w.pool.shared.At x.1 p ∧
    p = alignUp (w.pool.shared.arena.start + x.1.off + largeHeaderSize) (2 ^ alignLog)) ∨
  ∃ r ∈ w.regions, r.stage = .live ∧ p = r.user

/-- `p` is in the pages of a live region of the arena. -/
def InLiveArenaRegion (w : FreeWorld ι) (p : Nat) : Prop :=
  ∃ x ∈ w.pool.shared.pool, (∃ alignLog, x.2 = .large alignLog) ∧ w.pool.shared.At x.1 p

/-- `p` is in the pages of a live region, or of one that was freed: cached, or back in the arena, in
the hole store or abandoned. -/
def InLargeRegion (w : FreeWorld ι) (p : Nat) : Prop :=
  w.InLiveArenaRegion p ∨ (∃ x ∈ w.pool.shared.pool, x.2 = .parked ∧ w.pool.shared.At x.1 p) ∨
    (∃ s, (s ∈ w.pool.shared.arena.holeSlices ∨ s ∈ w.pool.shared.lost) ∧ w.pool.shared.At s p) ∨
    ∃ r ∈ w.regions, (r.stage = .live ∨ r.stage = .parked) ∧ r.base ≤ p ∧ p < r.base + r.mapped

/-- Its bytes make the page of `p` neither a small page nor a part of a span that claims `p`. -/
def Unforged (w : FreeWorld ι) (p : Nat) : Prop :=
  (∃ word, w.mem.load (p / pageSize * pageSize) 8 = some word ∧ word ≠ pageMagic) ∧
    w.spanProbe p = some false

/-- At `p` an invalid free is detected, as the allocator promises: the pointer of a live region is
taken for a large block and nothing else is, and everything else aborts. -/
structure Detects (w : FreeWorld ι) (p : Nat) : Prop where
  accepts : w.deallocImpl p = some .large ↔ w.LiveUser p
  rejects : ¬ w.LiveUser p → w.deallocImpl p = some .corruptPointer

omit [DecidableEq ι] in
theorem pageProbe_corrupt_iff :
    w.pageProbe p = some .corruptPointer ↔ w.Unforged p := by
  unfold pageProbe Unforged spanProbe
  cases hload : w.mem.load (p / pageSize * pageSize) 8 with
  | none => simp
  | some word =>
      by_cases hmagic : word = pageMagic
      · simp [hmagic]
      · cases hspan : w.spanMasterOf p with
        | none => simp [hmagic]
        | some span =>
            by_cases hzero : span = 0
            · simp [hmagic, hzero]
            · cases hclaims : spanContains w.mem .medium span p with
              | none => simp [hmagic, hzero, hclaims]
              | some claims => cases claims <;> simp [hmagic, hzero, hclaims]

omit [DecidableEq ι] in
/-- An address in the arena that no table names is left to the bytes of its page. -/
theorem deallocImpl_unnamed (hpos : largeHeaderSize ≤ p)
    (hcontains : w.pool.shared.arena.contains p 1 = true)
    (hnone : w.pool.shared.bigTableGet p = 0 ∧ w.pool.shared.mediumTableGet p = 0 ∧
      w.pool.shared.largeTableGet p = 0) : w.deallocImpl p = w.pageProbe p := by
  obtain ⟨hbig, hmedium, hlarge⟩ := hnone
  have hsize : largeHeaderSize = 48 := rfl
  unfold deallocImpl
  rw [if_neg (by omega), if_neg (by omega), if_pos hcontains, if_neg (not_not.2 hlarge),
    if_neg (not_not.2 hmedium), if_neg (not_not.2 hbig)]

omit [DecidableEq ι] in
theorem deallocImpl_arena_large (hpos : largeHeaderSize ≤ p)
    (hcontains : w.pool.shared.arena.contains p 1 = true)
    (hlarge : w.pool.shared.largeTableGet p ≠ 0) : w.deallocImpl p = some .large := by
  have hsize : largeHeaderSize = 48 := rfl
  unfold deallocImpl
  rw [if_neg (by omega), if_neg (by omega), if_pos hcontains, if_pos hlarge]
  rfl

/-- The registry decides membership exactly. -/
theorem Ok.legacyLargeContains_iff (h : w.Ok) :
    w.legacyLargeContains p = true ↔ ∃ r ∈ w.regions, r.stage = .live ∧ p = r.user := by
  have hsize : largeHeaderSize = 48 := rfl
  unfold legacyLargeContains
  constructor
  · intro hfound
    split at hfound
    · cases hfound
    · split at hfound
      · cases hfound
      · rename_i hshort
        simp only [Bool.or_eq_true, decide_eq_true_eq, not_or, not_lt, Decidable.not_not] at hshort
        obtain ⟨r, hr, hlive, hhdr⟩ := (h.registry _).1 (List.contains_iff_mem.1 hfound)
        have huser := ((h.regions r hr).header (by rw [hlive]; rfl)).user_eq
        exact ⟨r, hr, hlive, by omega⟩
  · rintro ⟨r, hr, hlive, rfl⟩
    have hheaded := (h.regions r hr).header (by rw [hlive]; rfl)
    have hlen : w.registryLen ≠ 0 := by
      rw [h.len]
      refine Nat.ne_of_gt (List.countP_pos_iff.2 ⟨r, hr, ?_⟩)
      simp only [isCounted, hlive, decide_true, Bool.or_true]
    have habove := hheaded.above
    have haligned : (r.user - largeHeaderSize) % minAlign = 0 :=
      Nat.mod_eq_zero_of_dvd (Nat.dvd_sub hheaded.aligned ⟨3, rfl⟩)
    have hshort : ¬ ((decide (r.user < largeHeaderSize)
        || decide ((r.user - largeHeaderSize) % minAlign ≠ 0)) = true) := by
      rw [haligned]
      simp only [ne_eq, not_true_eq_false, decide_false, Bool.or_false, decide_eq_true_eq, not_lt]
      omega
    rw [if_neg hlen, if_neg hshort]
    exact List.contains_iff_mem.2 ((h.registry r.hdr).2 ⟨r, hr, hlive, rfl⟩)

theorem Ok.not_contains (h : w.Ok) (hr : r ∈ w.regions) (hlow : r.base ≤ p)
    (hhigh : p < r.base + r.mapped) : w.pool.shared.arena.contains p 1 = false := by
  rw [Bool.eq_false_iff]
  intro hcontains
  simp only [Arena.contains, Bool.and_eq_true, decide_eq_true_eq] at hcontains
  obtain ⟨⟨hready, hstart⟩, hlimit⟩ := hcontains
  rcases (h.regions r hr).outside hready with hle | hle <;> omega

theorem Ok.start_pos (h : w.Ok) {M : Stake} (hheld : w.pool.shared.Held Coherent arenaSize M)
    {s : Slice} (hs : s ∈ w.pool.shared.slices) : 0 < w.pool.shared.arena.start := by
  refine h.start ?_
  by_contra hne
  exact hheld.partition.no_slices hne s hs

/-- Nothing in the arena is at an address below the size of a header. -/
theorem Ok.header_le (h : w.Ok) {M : Stake} (hheld : w.pool.shared.Held Coherent arenaSize M)
    {s : Slice} (hs : s ∈ w.pool.shared.slices) (hat : w.pool.shared.At s p) :
    largeHeaderSize ≤ p := by
  have hpage : largeHeaderSize ≤ arenaAlign := by decide
  have hle := Nat.le_of_dvd (h.start_pos hheld hs) hheld.partition.start_aligned
  have hlow := hat.1
  omega

theorem Ok.not_inLive (h : w.Ok) {M : Stake} (hheld : w.pool.shared.Held Coherent arenaSize M)
    (hzero : w.pool.shared.largeTableGet p = 0) : ¬ w.InLiveArenaRegion p := by
  rintro ⟨x, hx, ⟨alignLog, hrole⟩, hat⟩
  have hstart := h.start_pos hheld (ArenaWorld.mem_slices_of_pool hx)
  exact hheld.largeTableGet_ne hstart hx hrole hat hzero

/-- In the arena the pointer of a live region is in the pages of one. -/
theorem Ok.not_user (h : w.Ok) (hcontains : w.pool.shared.arena.contains p 1 = true)
    (hlive : ¬ w.InLiveArenaRegion p) : ¬ w.LiveUser p := by
  rintro (⟨x, hx, alignLog, hrole, hat, _⟩ | ⟨r, hr, hstage, rfl⟩)
  · exact hlive ⟨x, hx, ⟨alignLog, hrole⟩, hat⟩
  · have hheaded := (h.regions r hr).header (by rw [hstage]; rfl)
    have hlow := hheaded.above
    rw [h.not_contains hr (by omega) hheaded.below] at hcontains
    cases hcontains

/-- Outside the arena the check is exact, up to the bytes of the page. -/
theorem Ok.deallocImpl_legacy (h : w.Ok) (hr : r ∈ w.regions) (hlow : r.base ≤ p)
    (hhigh : p < r.base + r.mapped) :
    w.deallocImpl p
      = if w.legacyLargeContains p = true then some .large else w.pageProbe p := by
  have hcontains := h.not_contains hr hlow hhigh
  have hsize : largeHeaderSize = 48 := rfl
  have hkernel : 4096 ≤ r.base := Nat.le_of_dvd (h.regions r hr).base_pos (h.regions r hr).kernel
  unfold deallocImpl largeRegionKnown
  rw [if_neg (by omega), if_neg (by omega), hcontains, if_neg Bool.false_ne_true,
    if_neg Bool.false_ne_true]
  by_cases hfound : w.legacyLargeContains p = true
  · obtain ⟨x, hx, hlive, rfl⟩ := h.legacyLargeContains_iff.1 hfound
    have hok := h.regions x hx
    rw [if_pos hfound, if_pos hfound, (hok.header (by rw [hlive]; rfl)).largeHeaderOf hok]
    rfl
  · rw [if_neg hfound, if_neg hfound]
    rfl

omit [DecidableEq ι] in
/-- Where the verdict is left to the bytes of the page, it is right if they do not lie. -/
theorem detects_iff_unforged (hroute : w.deallocImpl p = w.pageProbe p) (huser : ¬ w.LiveUser p)
    (hlive : ¬ w.InLiveArenaRegion p) :
    w.Detects p ↔ w.LiveUser p ∨ ¬ w.InLiveArenaRegion p ∧ w.Unforged p := by
  constructor
  · intro h
    exact .inr ⟨hlive, pageProbe_corrupt_iff.1 (hroute ▸ h.rejects huser)⟩
  · rintro (hyes | ⟨_, hplain⟩)
    · exact absurd hyes huser
    · rw [← pageProbe_corrupt_iff, ← hroute] at hplain
      refine ⟨?_, fun _ => hplain⟩
      rw [hplain]
      exact ⟨nofun, fun hyes => absurd hyes huser⟩

omit [DecidableEq ι] in
/-- An address the check takes for a large block is rightly taken only as the pointer itself. -/
theorem detects_iff_user (hroute : w.deallocImpl p = some .large)
    (hlive : w.LiveUser p ∨ w.InLiveArenaRegion p) :
    w.Detects p ↔ w.LiveUser p ∨ ¬ w.InLiveArenaRegion p ∧ w.Unforged p := by
  constructor
  · exact fun h => .inl (h.accepts.1 hroute)
  · rintro (huser | ⟨hno, _⟩)
    · exact ⟨⟨fun _ => huser, fun _ => hroute⟩, fun hno => absurd huser hno⟩
    · have huser := hlive.resolve_right hno
      exact ⟨⟨fun _ => huser, fun _ => hroute⟩, fun hno => absurd huser hno⟩

end FreeWorld

/-! ### Every reachable state -/

section Reachable

open FreeWorld

variable {ι : Type} [DecidableEq ι] [Fintype ι] {w : FreeWorld ι} {p : Nat}

/-- **When an invalid large free is detected.** In every reachable state and at every address in the
pages of a live or freed large region, the check does what it should exactly at the pointers of live
regions, and at those addresses outside the live regions of the arena whose page does not pass for a
small page or a span by its bytes. -/
theorem invalid_large_free_iff (hreach : FreeReach w) (hp : w.InLargeRegion p) :
    w.Detects p ↔ w.LiveUser p ∨ ¬ w.InLiveArenaRegion p ∧ w.Unforged p := by
  have h := ok_of_reach hreach
  obtain ⟨M, hheld⟩ := held_of_reach h.pool
  rcases hp with hlive | ⟨x, hx, hrole, hat⟩ | ⟨s, hs, hat⟩ | ⟨r, hr, hstage, hlow, hhigh⟩
  · obtain ⟨x, hx, ⟨alignLog, hrole⟩, hat⟩ := id hlive
    have hs := ArenaWorld.mem_slices_of_pool hx
    have hlarge := hheld.largeTableGet_ne (h.start_pos hheld hs) hx hrole hat
    have hroute := deallocImpl_arena_large (h.header_le hheld hs hat)
      (ArenaWorld.contains_of_at hheld hs hat) hlarge
    exact detects_iff_user hroute (.inr hlive)
  · have hs := ArenaWorld.mem_slices_of_pool hx
    have hcontains := ArenaWorld.contains_of_at hheld hs hat
    have hnone := hheld.lookups_of_pool hx hat
    rw [hrole] at hnone
    have hroute := deallocImpl_unnamed (h.header_le hheld hs hat) hcontains hnone
    have hlive := h.not_inLive hheld hnone.2.2
    exact detects_iff_unforged hroute (h.not_user hcontains hlive) hlive
  · have hslice := ArenaWorld.mem_slices_of_returned hs
    have hcontains := ArenaWorld.contains_of_at hheld hslice hat
    have hnone := hheld.lookups_of_returned hs hat
    have hroute := deallocImpl_unnamed (h.header_le hheld hslice hat) hcontains hnone
    have hlive := h.not_inLive hheld hnone.2.2
    exact detects_iff_unforged hroute (h.not_user hcontains hlive) hlive
  · have hroute := h.deallocImpl_legacy hr hlow hhigh
    have hnotAt {y : Slice × Role} (hy : y ∈ w.pool.shared.pool) : ¬ w.pool.shared.At y.1 p := by
      intro hat
      have hcontains := ArenaWorld.contains_of_at hheld (ArenaWorld.mem_slices_of_pool hy) hat
      rw [h.not_contains hr hlow hhigh] at hcontains
      cases hcontains
    by_cases hfound : w.legacyLargeContains p = true
    · rw [if_pos hfound] at hroute
      exact detects_iff_user hroute (.inl (.inr (h.legacyLargeContains_iff.1 hfound)))
    · rw [if_neg hfound] at hroute
      refine detects_iff_unforged hroute ?_ fun ⟨y, hy, _, hat⟩ => hnotAt hy hat
      rintro (⟨y, hy, _, _, hat, _⟩ | huser)
      · exact hnotAt hy hat
      · exact hfound (h.legacyLargeContains_iff.2 huser)

/-- A schedule of the arena, with the reservation above zero. -/
def execArena (w : FreeWorld ι) : List (ι × (TableOp ⊕ ArenaEnv)) → Option (FreeWorld ι)
  | [] => some w
  | x :: rest =>
      match w.pool.fire tableOps x with
      | some pool =>
          if pool.shared.arena.status = .ready → 0 < pool.shared.arena.start
          then execArena { w with pool } rest
          else none
      | none => none

omit [Fintype ι] in
theorem execArena_reach {w' : FreeWorld ι} {sched : List (ι × (TableOp ⊕ ArenaEnv))}
    (hreach : FreeReach w) (hregions : w.regions = []) (hexec : execArena w sched = some w') :
    FreeReach w' := by
  induction sched generalizing w with
  | nil =>
      cases hexec
      exact hreach
  | cons x rest ih =>
      unfold execArena at hexec
      cases hfire : w.pool.fire tableOps x with
      | none =>
          rw [hfire] at hexec
          cases hexec
      | some pool =>
          rw [hfire] at hexec
          dsimp only at hexec
          split at hexec
          · rename_i hstart
            have hstep := FreeStep.arena (w := w) pool (Pool.fire_step hfire) hstart
              (by rw [hregions]; nofun)
            exact ih (hreach.step hstep) hregions hexec
          · cases hexec

/-- One region of three units. -/
def oneRegion : List (Fin 1 × (TableOp ⊕ ArenaEnv)) :=
  (0, .inl (.allocLarge 3 1 100 4)) :: List.replicate 12 (0, .inr ⟨some 65536, true, 0⟩)

theorem oneRegion_runs : ∃ w, execArena (.new (Fin 1)) oneRegion = some w ∧
    w.pool.shared.pool = [(⟨0, 3⟩, .large 4)] ∧ w.pool.shared.arena.start = 65536 ∧
    w.regions = [] ∧ w.deallocImpl 65600 = some .large :=
  ⟨_, rfl, rfl, rfl, rfl, rfl⟩

/-- The user pointer itself is accepted, and sixteen bytes behind it the check goes wrong. -/
theorem invalid_large_free_iff_interior : ∃ w : FreeWorld (Fin 1), FreeReach w ∧
    w.InLargeRegion 65584 ∧ w.Detects 65584 ∧ w.InLargeRegion 65600 ∧ ¬ w.Detects 65600 := by
  obtain ⟨w, hexec, hpool, hstart, hregions, _⟩ := oneRegion_runs
  have hreach := execArena_reach .new rfl hexec
  have hat (p : Nat) (hlow : 65536 ≤ p) (hhigh : p < 262144) : w.InLiveArenaRegion p := by
    refine ⟨(⟨0, 3⟩, .large 4), by rw [hpool]; exact List.mem_singleton_self _, ⟨4, rfl⟩, ?_, ?_⟩
    · rw [hstart]
      exact hlow
    · rw [hstart]
      exact hhigh
  have huser (p : Nat) : w.LiveUser p ↔ p = 65584 ∧ w.InLiveArenaRegion p := by
    constructor
    · rintro (⟨x, hx, alignLog, hrole, hxat, rfl⟩ | ⟨r, hr, _⟩)
      · rw [hpool, List.mem_singleton] at hx
        subst hx
        cases hrole
        refine ⟨?_, _, by rw [hpool]; exact List.mem_singleton_self _, ⟨4, rfl⟩, hxat⟩
        rw [hstart]
        rfl
      · rw [hregions] at hr
        cases hr
    · rintro ⟨rfl, x, hx, ⟨alignLog, hrole⟩, hxat⟩
      rw [hpool, List.mem_singleton] at hx
      subst hx
      cases hrole
      refine .inl ⟨_, by rw [hpool]; exact List.mem_singleton_self _, 4, rfl, hxat, ?_⟩
      rw [hstart]
      rfl
  have hfirst := hat 65584 (by decide) (by decide)
  have hsecond := hat 65600 (by decide) (by decide)
  refine ⟨w, hreach, .inl hfirst, ?_, .inl hsecond, fun hdetects => ?_⟩
  · exact (invalid_large_free_iff hreach (.inl hfirst)).2 (.inl ((huser _).2 ⟨rfl, hfirst⟩))
  · rcases (invalid_large_free_iff hreach (.inl hsecond)).1 hdetects with hyes | ⟨hno, _⟩
    · exact absurd ((huser _).1 hyes).1 (by decide)
    · exact hno hsecond

/-- An interior pointer of a live region in the arena is taken for the region. -/
theorem interior_pointer_accepted : ∃ (w : FreeWorld (Fin 1)) (p : Nat), FreeReach w ∧
    w.InLargeRegion p ∧ ¬ w.LiveUser p ∧ w.deallocImpl p = some .large ∧ ¬ w.Detects p := by
  obtain ⟨w, hexec, hpool, hstart, hregions, hroute⟩ := oneRegion_runs
  have hnot : ¬ w.LiveUser 65600 := by
    rintro (⟨x, hx, alignLog, hrole, _, heq⟩ | ⟨r, hr, _⟩)
    · rw [hpool, List.mem_singleton] at hx
      subst hx
      cases hrole
      rw [hstart] at heq
      exact absurd heq (by decide)
    · rw [hregions] at hr
      cases hr
  have hin : w.InLiveArenaRegion 65600 := by
    refine ⟨(⟨0, 3⟩, .large 4), by rw [hpool]; exact List.mem_singleton_self _, ⟨4, rfl⟩, ?_, ?_⟩
    · rw [hstart]
      decide
    · rw [hstart]
      decide
  exact ⟨w, 65600, execArena_reach .new rfl hexec, .inl hin, hnot, hroute,
    fun h => hnot (h.accepts.1 hroute)⟩

end Reachable

end Allox
