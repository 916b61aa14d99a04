import Allox.Proof.BlockPrograms

/-!
# Every operation keeps the accounts

The large regions, what goes to the user and comes back, and then all operations.
-/

namespace Allox

open Resumption

namespace Sys

open World ThreadCache

variable {α β : Type} {l : Caches} {hand : Multiset Token} {k : Slot} {c : ThreadCache} {n : Nat}
  {t : SpanTier}

/-! ### Large regions -/

/-- A question to the outside. -/
def Asks (m : Sys Bool) : Prop := ∀ l hand, SysRuns m l hand fun _ l' m' => l' = l ∧ m' = hand

theorem asks_purge : Asks purgeForHandoff :=
  fun _ hand => runs_section fun _ _ _ hw => ⟨hand, hw, rfl, rfl, rfl, rfl⟩

theorem asks_pure (b : Bool) : Asks (pure b) := fun _ _ => SysRuns.pure ⟨rfl, rfl⟩

theorem le_alignUp (v : Nat) {align : Nat} (hpos : 0 < align) : v ≤ alignUp v align := by
  unfold alignUp
  have hmod := Nat.div_add_mod (v + align - 1) align
  have hlt := Nat.mod_lt (v + align - 1) hpos
  rw [Nat.mul_comm] at hmod
  omega

theorem registerRegion_live (w : World) (hdr base mapped requested : Nat) :
    (w.registerRegion hdr base mapped requested).live = w.live := by
  unfold registerRegion
  dsimp only
  split <;> rfl

theorem unregisterRegion_live (w : World) (hdr base mapped : Nat) :
    (w.unregisterRegion hdr base mapped).live = w.live := by
  unfold unregisterRegion
  split <;> rfl

theorem runs_useRegion {base bytes size align : Nat} {z : Bool} {zeroed : Sys Bool} (halign : 0 < align)
    (hzeroed : Asks zeroed) :
    SysRuns (useRegion base bytes size align zeroed) l ({.extent ⟨base, bytes, .large⟩ z} + hand)
      fun got l' m => l' = l ∧ m = handed (fun p _ => .region p) got + hand := by
  unfold useRegion
  dsimp only
  split
  · rename_i hfits
    refine SysRuns.bind (hzeroed _ _) ?_
    rintro known l' m ⟨rfl, rfl⟩
    have hregister : SysRuns (Act.atomic fun (_ : Env) w =>
        (w.registerRegion (alignUp (base + largeHeaderSize) align - largeHeaderSize) base bytes size, ()))
        l' ({.extent ⟨base, bytes, .large⟩ z} + hand)
        fun _ l'' m => l'' = l' ∧ m = {.region (alignUp (base + largeHeaderSize) align)} + hand :=
      runs_section fun e w R hw => by
        rw [add_assoc] at hw
        have hgood := hw.register (le_alignUp _ halign) hfits
        rw [← add_assoc] at hgood
        exact ⟨_, hgood, registerRegion_live _ _ _ _ _, (registerRegion_ground _ _ _ _ _).retired, rfl, rfl⟩
    refine SysRuns.bind hregister ?_
    rintro _ l'' m ⟨rfl, rfl⟩
    exact SysRuns.pure ⟨rfl, rfl⟩
  · refine SysRuns.bind runs_unmapExtent ?_
    rintro _ l' m ⟨rfl, rfl⟩
    exact SysRuns.pure ⟨rfl, (zero_add _).symm⟩

theorem SysRuns.fetched {m : Sys (Option (Nat × Bool))} {mk : Nat → Bool → Token} (hl : Tidy l)
    (h : SysRuns m l hand fun got l' m' => l' = l ∧ m' = handed mk got + hand') :
    SysRuns m l hand fun got l' m' => Tidy l' ∧ m' = handed mk got + hand' := by
  refine SysRuns.mono h ?_
  rintro got l' m' ⟨rfl, rfl⟩
  exact ⟨hl, rfl⟩

variable {size align : Nat}

theorem fetches_fromStash (halign : 0 < align) (pages : Nat) (zeroed : Bool) :
    Fetches (fun p _ => .region p) (fromStash pages size align zeroed) := by
  refine quiet_armExitHook.calm.fetches fun _ => fun l hand hl => runs_cache ?_
  split
  · rename_i base pages' left htake
    obtain ⟨hbooks, hstake, -⟩ := hl.self.takeLargeStash htake
    refine SysRuns.bind (runs_put ({regionToken (base, pages')} + hand) (by rw [hstake]; ac_rfl)) ?_
    rintro _ l' m ⟨rfl, rfl⟩
    refine SysRuns.fetched (hl.put hbooks) (runs_useRegion halign ?_)
    split
    · exact asks_purge
    · exact asks_pure _
  · exact SysRuns.pure ⟨hl, (zero_add _).symm⟩

theorem fetches_fromShard (size : Nat) (halign : 0 < align) (mapped : Nat) (zeroed : Bool) :
    Fetches (fun p _ => .region p) (fromShard mapped size align zeroed) := by
  intro l hand hl
  refine SysRuns.bind (q := fun taken l' m => l' = l ∧ m = (taken.elim 0 fun x =>
    {.extent ⟨x.base, x.pages * pageSize, .large⟩ false}) + hand) ?_ ?_
  · exact runs_section fun e w R hw => by
      have hgood := hw.takeFit (largeShard (mapped / pageSize) e.salt) mapped false
      rw [← add_assoc] at hgood
      exact ⟨_, hgood, rfl, rfl, rfl, rfl⟩
  rintro taken l' m ⟨rfl, rfl⟩
  cases taken with
  | none => exact SysRuns.pure ⟨hl, rfl⟩
  | some x =>
      refine SysRuns.fetched hl (runs_useRegion halign ?_)
      split
      · exact asks_purge
      · exact asks_pure _

theorem fetches_fromMapping (size : Nat) (halign : 0 < align) {mapped : Nat} (hpos : 0 < mapped)
    (hwhole : mapped % pageSize = 0) :
    Fetches (fun p _ => .region p) (fromMapping mapped size align) := by
  intro l hand hl
  refine SysRuns.bind (runs_mapExtent ⟨hpos, hwhole, fun h => by cases h⟩) ?_
  rintro got l' m ⟨rfl, rfl⟩
  cases got with
  | none => exact SysRuns.pure ⟨hl, rfl⟩
  | some base => exact SysRuns.fetched hl (runs_useRegion halign (asks_pure true))

/-- One source of a block after another. -/
theorem Fetches.orElse {mk : Nat → Bool → Token} {m m' : Sys (Option (Nat × Bool))} (h : Fetches mk m)
    (h' : Fetches mk m') :
    Fetches mk (m >>= fun got => match got with
      | some r => pure (some r)
      | none => m') := by
  intro l hand hl
  refine SysRuns.bind (h l hand hl) ?_
  rintro got l' m ⟨hl', rfl⟩
  cases got with
  | some r => exact SysRuns.pure ⟨hl', rfl⟩
  | none =>
      rw [show handed mk none + hand = hand from zero_add hand]
      exact h' l' hand hl'

theorem fetches_none (mk : Nat → Bool → Token) : Fetches mk (pure none) :=
  fun _ _ hl => SysRuns.pure ⟨hl, (zero_add _).symm⟩

theorem fetches_allocLargeEx (tls : Bool) (size : Nat) (halign : 0 < align) (zeroed : Bool)
    (slack : Nat) : Fetches (fun p _ => .region p) (allocLargeEx tls size align zeroed slack) := by
  unfold allocLargeEx
  dsimp only
  split
  · exact fetches_none _
  · have hpos : 0 < alignUp (max (size + align + largeHeaderSize + slack) largeHeaderSize) pageSize :=
      Nat.lt_of_lt_of_le (Nat.lt_of_lt_of_le (by decide) (Nat.le_max_right _ largeHeaderSize))
        (le_alignUp _ (by decide))
    have hwhole : alignUp (max (size + align + largeHeaderSize + slack) largeHeaderSize) pageSize
        % pageSize = 0 := Nat.mul_mod_left _ _
    generalize alignUp (max (size + align + largeHeaderSize + slack) largeHeaderSize) pageSize = mapped
      at hpos hwhole ⊢
    have hrest := (fetches_fromShard size halign mapped zeroed).orElse
      (fetches_fromMapping size halign hpos hwhole)
    split
    · exact (fetches_fromStash halign _ zeroed).orElse hrest
    · exact (fetches_none _).orElse hrest

/-- What is known of the extent of a region that was given up. -/
structure Freed (base mapped : Nat) : Prop where
  base : base ≠ 0
  pos : 0 < mapped
  whole : mapped % pageSize = 0
  bound : mapped ≤ 2 ^ 47

theorem Freed.pages {base mapped : Nat} (h : Freed base mapped) :
    mapped = mapped / pageSize % 2 ^ 32 * pageSize ∧ mapped / pageSize % 2 ^ 32 ≠ 0 := by
  obtain ⟨-, hpos, hwhole, hbound⟩ := h
  simp only [pageSize] at *
  omega

theorem Good.freed {w : World} {R : Multiset Token} {p : Nat} (h : w.Good ({.region p} + R)) :
    Freed (w.header (p - largeHeaderSize)).base (w.header (p - largeHeaderSize)).mappedSize := by
  have hg := h.headerOk
  have hmem := h.region_mapped (p := p) (by
    rw [regionsIn_region]
    simp)
  have hext := h.extent hmem
  have hpages := hg.pages
  have hpos := hext.pos
  have hbase := hext.base
  have hbound := hext.bound
  rw [hpages] at hbound
  rw [hg.regionAt] at hbase hbound
  dsimp only at hbase hbound
  refine ⟨hbase, ?_, hg.whole, by omega⟩
  rw [← hpages]
  exact Nat.mul_pos hpos (by decide)

theorem runs_unregister (p : Nat) :
    SysRuns (Act.atomic fun (_ : Env) w =>
      let g := w.header (p - largeHeaderSize)
      (w.unregisterRegion (p - largeHeaderSize) g.base g.mappedSize, (g.base, g.mappedSize))) l
      ({.region p} + hand)
      fun x l' m => l' = l ∧ Freed x.1 x.2 ∧ m = {.extent ⟨x.1, x.2, .large⟩ false} + hand :=
  runs_section fun e w R hw => by
    rw [add_assoc] at hw
    have hfreed := Good.freed hw
    have hgood := hw.unregister
    dsimp only at hgood
    rw [← add_assoc] at hgood
    exact ⟨_, hgood, unregisterRegion_live _ _ _ _, (unregisterRegion_ground _ _ _ _).retired, rfl, hfreed,
      rfl⟩

/-- A freed region that no stash takes goes to its shard. -/
theorem runs_parkRegion {base mapped : Nat} (h : Freed base mapped) :
    SysRuns (do
      let fate ← Act.atomic fun (e : Env) (w : World) =>
        let i := largeShard (mapped / pageSize % 2 ^ 32) e.salt
        let (s, fate) := (w.shards i).park (e.discards 0) base (mapped / pageSize % 2 ^ 32) mapped
        ({ w with shards := Function.update w.shards i s }, fate)
      actFates .large [(base, fate)]) l ({.extent ⟨base, mapped, .large⟩ false} + hand)
      fun _ l' m => l' = l ∧ m = hand := by
  have hsection : SysRuns (Act.atomic fun (e : Env) (w : World) =>
      let i := largeShard (mapped / pageSize % 2 ^ 32) e.salt
      let (s, fate) := (w.shards i).park (e.discards 0) base (mapped / pageSize % 2 ^ 32) mapped
      ({ w with shards := Function.update w.shards i s }, fate)) l
      ({.extent ⟨base, mapped, .large⟩ false} + hand)
      fun fate l' m => l' = l ∧ m = fateTokens .large [(base, fate)] + hand :=
    runs_section fun e w R hw => by
      rw [add_assoc] at hw
      have hgood := hw.park h.pages.1 (largeShard (mapped / pageSize % 2 ^ 32) e.salt) (e.discards 0)
      rw [← add_assoc] at hgood
      exact ⟨_, hgood, rfl, rfl, rfl, rfl⟩
  refine SysRuns.bind hsection ?_
  rintro fate l' m ⟨rfl, rfl⟩
  exact runs_actFates

theorem absorbs_freeLarge (tls : Bool) (p : Nat) : Absorbs (.region p) (freeLarge tls p) := by
  intro l hand hl
  refine SysRuns.bind (runs_unregister p) ?_
  rintro ⟨base, mapped⟩ l' m ⟨rfl, hfreed, rfl⟩
  dsimp only at hfreed ⊢
  obtain ⟨hmapped, hpages⟩ := hfreed.pages
  have hpark : ∀ l hand, Tidy l → SysRuns (do
      let fate ← Act.atomic fun (e : Env) (w : World) =>
        let i := largeShard (mapped / pageSize % 2 ^ 32) e.salt
        let (s, fate) := (w.shards i).park (e.discards 0) base (mapped / pageSize % 2 ^ 32) mapped
        ({ w with shards := Function.update w.shards i s }, fate)
      actFates .large [(base, fate)]) l ({.extent ⟨base, mapped, .large⟩ false} + hand)
      fun _ l' m => Tidy l' ∧ m = hand := by
    intro l hand hl
    refine SysRuns.mono (runs_parkRegion hfreed) ?_
    rintro _ l' m ⟨rfl, rfl⟩
    exact ⟨hl, rfl⟩
  split
  · refine SysRuns.bind (quiet_armExitHook.calm l' _ hl) ?_
    rintro _ l m ⟨hl', rfl⟩
    refine runs_cache ?_
    split
    · rename_i left hpush
      obtain ⟨hbooks, hstake⟩ := hl'.self.pushLargeStash hfreed.base hpages hpush
      refine SysRuns.bind (runs_put hand ?_) ?_
      · rw [hstake, regionToken, ← hmapped]
        ac_rfl
      · rintro _ l' m ⟨rfl, rfl⟩
        exact SysRuns.pure ⟨hl'.put hbooks, rfl⟩
    · exact hpark l hand hl'
  · exact hpark l' hand hl

theorem runs_growLarge (p size : Nat) :
    SysRuns (growLarge p size) l ({.region p} + hand) fun _ l' m => l' = l ∧ m = {.region p} + hand := by
  refine runs_atomicOk fun e w R hok hw => ⟨{.region p} + hand, ?_⟩
  rw [add_assoc] at hw
  rw [add_assoc]
  dsimp only at hok ⊢
  cases hgrowth : w.growth p size with
  | refuse => exact ⟨hw, fun _ => rfl, rfl, rfl⟩
  | slack => exact ⟨hw.resize, fun _ => rfl, rfl, rfl⟩
  | extend newMapped =>
      rw [hgrowth] at hok
      cases hgranted : e.granted with
      | false => exact ⟨hw, fun _ => rfl, rfl, rfl⟩
      | true =>
          have hcan : w.canExtend (w.header (p - largeHeaderSize)).base
              (w.header (p - largeHeaderSize)).mappedSize newMapped = true := by
            simpa [hgranted] using hok
          exact ⟨hw.extend hgrowth hcan, fun _ => rfl, rfl, rfl⟩

/-! ### Operations -/

theorem owed_cons (w : World) (x : Live) :
    World.owed { w with live := x :: w.live } = {x.token} + w.owed := by
  unfold owed
  rw [List.map_cons, ← Multiset.cons_coe, ← Multiset.singleton_add, add_assoc]

theorem owed_erase (w : World) {x : Live} (hx : x ∈ w.live) :
    w.owed = {x.token} + World.owed { w with live := w.live.erase x } := by
  rw [← owed_cons { w with live := w.live.erase x } x]
  unfold owed
  have hperm := (List.perm_cons_erase hx).map Live.token
  rw [Multiset.coe_eq_coe.2 hperm]

theorem runs_giveLive (x : Live) :
    SysRuns (giveLive x) l ({x.token} + hand) fun _ l' m => l' = l ∧ m = hand := by
  refine runs_atomic fun e w R hw => ⟨hand, ?_, fun _ => rfl, rfl, rfl⟩
  rw [owed_cons, add_left_comm R, ← add_assoc, add_comm hand]
  exact bookkeep hw _ _ _ _ hw.retired

/-- What the user gives up. -/
def claimed (p : Nat) (got : Option Kind) : Multiset Token :=
  got.elim 0 fun kind => {Live.token ⟨p, kind⟩}

theorem runs_claimLive (p : Nat) :
    SysRuns (claimLive p) l hand fun got l' m => l' = l ∧ m = claimed p got + hand := by
  refine runs_atomic fun e w R hw => ?_
  cases hfind : w.live.find? (·.addr == p) with
  | none => exact ⟨hand, hw, fun _ => rfl, rfl, (zero_add _).symm⟩
  | some x =>
      obtain ⟨addr, kind⟩ := x
      have haddr := List.find?_some hfind
      rw [beq_iff_eq] at haddr
      subst haddr
      refine ⟨{Live.token ⟨addr, kind⟩} + hand, ?_, fun _ => rfl, rfl, rfl⟩
      rw [owed_erase w (List.mem_of_find?_eq_some hfind), add_left_comm R, ← add_assoc,
        add_comm hand] at hw
      exact bookkeep hw _ _ _ _ hw.retired

theorem Fetches.handOut {mk : Nat → Bool → Token} {m : Sys (Option (Nat × Bool))} {kind : Kind}
    (h : Fetches mk m) (hmk : ∀ p z, (mk p z).dirty = Live.token ⟨p, kind⟩) :
    Calm (m >>= Sys.handOut kind) := by
  intro l hand hl
  refine SysRuns.bind (h l hand hl) ?_
  rintro got l' m ⟨hl', rfl⟩
  cases got with
  | none => exact SysRuns.pure ⟨hl', zero_add _⟩
  | some r =>
      obtain ⟨p, z⟩ := r
      refine shift_clean (x := mk p z) ?_
      rw [hmk]
      refine SysRuns.mono (runs_giveLive _) ?_
      rintro _ l m ⟨rfl, rfl⟩
      exact ⟨hl', rfl⟩

theorem SysRuns.absorbed {m : Sys Unit} {x : Token}
    (h : ∀ l hand, SysRuns m l ({x} + hand) fun _ l' m' => l' = l ∧ m' = hand) : Absorbs x m := by
  refine fun l hand hl => SysRuns.mono (h l hand) ?_
  rintro _ l' m' ⟨rfl, rfl⟩
  exact ⟨hl, rfl⟩

theorem runs_masterClass {cls : Fin SpanTier.big.num} {p s : Nat} {z : Bool} :
    SysRuns (onSpans .big fun _ _ h => (h, (h.master s).cls)) l ({.span .big ⟨cls, p, some s⟩ z} + hand)
      fun c l' m => l' = l ∧ c = cls ∧ m = {.span .big ⟨cls, p, some s⟩ z} + hand :=
  runs_onSpans fun _ w R hw => by
    have hcls := Good.masterClass (by rw [add_assoc] at hw; exact hw)
    exact ⟨_, by rw [setSpans_self]; exact hw, rfl, hcls, rfl⟩

theorem absorbs_freeKind (tls : Bool) (p : Nat) (kind : Kind) :
    Absorbs (Live.token ⟨p, kind⟩) (freeKind tls p kind) := by
  match kind with
  | .small cls =>
      unfold freeKind
      dsimp only
      split
      · exact absorbs_dealloc p cls false
      · exact SysRuns.absorbed fun _ _ => runs_releaseOne
  | .span .medium cls =>
      unfold freeKind
      dsimp only
      split
      · exact absorbs_deallocSpan cls p 0 false (by rintro ⟨⟩)
      · exact SysRuns.absorbed fun _ _ => runs_releaseOneSpan
  | .span .big cls =>
      intro l hand hl
      refine SysRuns.bind (runs_spanOf false) ?_
      rintro span l' m ⟨rfl, rfl⟩
      split
      · refine SysRuns.bind runs_masterClass ?_
        rintro _ l m ⟨rfl, rfl, rfl⟩
        exact absorbs_deallocSpan _ p span false (fun _ => rfl) l hand hl
      · exact SysRuns.absorbed (fun _ _ => runs_releaseFound) l' hand hl
  | .large => exact absorbs_freeLarge tls p

theorem calm_claimed {p : Nat} {f : Option Kind → Sys Unit} (hnone : Calm (f none))
    (hsome : ∀ kind, Absorbs (Live.token ⟨p, kind⟩) (f (some kind))) : Calm (claimLive p >>= f) := by
  intro l hand hl
  refine SysRuns.bind (runs_claimLive p) ?_
  rintro got l' m ⟨rfl, rfl⟩
  cases got with
  | none =>
      rw [show claimed p none + hand = hand from zero_add hand]
      exact hnone l' hand hl
  | some kind => exact hsome kind l' hand hl

theorem calm_grow (p size : Nat) : Calm (Op.run (.grow p size)) := by
  refine calm_claimed (Quiet.pure ()).calm fun kind => ?_
  cases kind with
  | large =>
      refine SysRuns.absorbed fun l hand => SysRuns.bind (runs_growLarge p size) ?_
      rintro _ l' m ⟨rfl, rfl⟩
      exact runs_giveLive ⟨p, .large⟩
  | _ => exact SysRuns.absorbed fun _ _ => runs_giveLive _

theorem runs_budget (f g : World → Nat) :
    SysRuns (Act.atomic fun (_ : Env) w => ({ w with cacheBudget := f w, budgetEpoch := g w }, ())) l hand
      fun _ l' m => l' = l ∧ m = hand :=
  runs_section fun _ _ _ hw => ⟨hand, bookkeep hw _ _ _ _ hw.retired, rfl, rfl, rfl, rfl⟩

theorem calm_setBudget (bytes : Nat) : Calm (Op.run (.setBudget bytes)) := by
  intro l hand hl
  refine SysRuns.bind (runs_budget (fun _ => max bytes (refillBatch * 16)) World.budgetEpoch) ?_
  rintro _ l' m ⟨rfl, rfl⟩
  refine SysRuns.mono (runs_budget World.cacheBudget fun w => (w.budgetEpoch + 1) % 2 ^ 32) ?_
  rintro _ l m ⟨rfl, rfl⟩
  exact ⟨hl, rfl⟩

theorem calm_flush : Calm (flushAll .self) := by
  intro l hand hl
  refine SysRuns.mono (runs_flushAll hl.self) ?_
  rintro _ l' m ⟨rfl, hcleaned⟩
  exact ⟨⟨hcleaned.ok, (hcleaned.other .adopted (by decide)).trans hl.adopted⟩, rfl⟩

/-- Every operation leaves its thread as tidy as it was, with nothing in hand. -/
theorem calm_run (op : Op) : Calm op.run := by
  cases op with
  | allocSmall tls cls =>
      unfold Op.run
      dsimp only
      split
      · exact (fetches_allocZeroed cls).handOut fun _ _ => rfl
      · exact (fetches_takeOneSmall cls).handOut fun _ _ => rfl
  | allocSpan tls t cls =>
      unfold Op.run
      dsimp only
      split
      · exact (fetches_allocSpanZeroed cls).handOut fun _ _ => rfl
      · exact (fetches_takeOneSpan cls).handOut fun _ _ => rfl
  | allocLarge tls size alignLog zeroed slack =>
      have halign : 0 < 2 ^ alignLog := Nat.two_pow_pos alignLog
      unfold Op.run
      dsimp only
      generalize 2 ^ alignLog = align at halign ⊢
      have hfetches := fetches_allocLargeEx tls size halign zeroed slack
      exact hfetches.handOut fun _ _ => rfl
  | free tls p => exact calm_claimed (Quiet.pure ()).calm fun kind => absorbs_freeKind tls p kind
  | grow p size => exact calm_grow p size
  | setBudget bytes => exact calm_setBudget bytes
  | flush =>
      unfold Op.run
      exact calm_flush
  | reclaim =>
      unfold Op.run
      exact calm_reclaimOne.bind fun _ => (Quiet.pure ()).calm
  | exit =>
      unfold Op.run
      exact calm_retire

end Sys

end Allox
