import Allox.Proof.CacheFlush

/-!
# The books of the shared state

`Good w m` says that everything that is anywhere is accounted for, where `m` is all that is outside the
heaps and shards: what threads hold, what the retired caches hold and what is live. The accounts fall
into parts, one for each use of the address space, and a part only looks at the tokens of its use.

A medium block pushed on the list of a span that it is not of makes the medium part void, and no other.
-/

namespace Allox

open Resumption

/-! ### Reading tokens -/

section Reading

variable {α β : Type}

theorem filterMap_singleton (f : α → Option β) (a : α) :
    Multiset.filterMap f {a} = (f a).elim 0 fun b => {b} := by
  rw [← Multiset.cons_zero]
  cases h : f a with
  | none => rw [Multiset.filterMap_cons_none _ _ h, Multiset.filterMap_zero]; rfl
  | some b => rw [Multiset.filterMap_cons_some _ _ _ h, Multiset.filterMap_zero]; rfl

theorem filterMap_eq_zero {f : α → Option β} {m : Multiset α} (h : ∀ a ∈ m, f a = none) :
    m.filterMap f = 0 := by
  refine Multiset.eq_zero_of_forall_notMem fun b hb => ?_
  obtain ⟨a, ha, hab⟩ := (Multiset.mem_filterMap f m).1 hb
  rw [h a ha] at hab
  cases hab

end Reading

/-- A mapping as base and pages, if it is of this use. -/
def Mapping.pages? (u : Purpose) (e : Mapping) : Option (Nat × Nat) :=
  if e.use = u then some (e.base, e.len / pageSize) else none

namespace Token

/-- The part of the accounts that a token belongs to. -/
def use : Token → Purpose
  | block _ _ => .small
  | span t _ _ => .span t
  | extent e _ => e.use
  | region _ => .large

def block? : Token → Option Block
  | block b _ => some b
  | _ => none

def span? (t : SpanTier) : Token → Option (SpanBlock t)
  | span t' b _ =>
      match t, t', b with
      | .medium, .medium, b => some b
      | .big, .big, b => some b
      | _, _, _ => none
  | _ => none

def loose? (u : Purpose) : Token → Option (Nat × Nat)
  | extent e _ => e.pages? u
  | _ => none

def region? : Token → Option Nat
  | region p => some p
  | _ => none

@[simp] theorem span?_span (t : SpanTier) (b : SpanBlock t) (z : Bool) :
    (span t b z).span? t = some b := by
  cases t <;> rfl

theorem block?_of_use {x : Token} (h : x.use ≠ .small) : x.block? = none := by
  cases x <;> first | rfl | exact absurd rfl h

theorem region?_of_use {x : Token} (h : x.use ≠ .large) : x.region? = none := by
  cases x <;> first | rfl | exact absurd rfl h

theorem span?_of_use {t : SpanTier} {x : Token} (h : x.use ≠ .span t) : x.span? t = none := by
  cases x with
  | span t' b z => cases t <;> cases t' <;> first | rfl | exact absurd rfl h
  | _ => rfl

theorem loose?_of_use {u : Purpose} {x : Token} (h : x.use ≠ u) : x.loose? u = none := by
  cases x with
  | extent e z => exact if_neg h
  | _ => rfl

@[simp] theorem use_dirty (x : Token) : x.dirty.use = x.use := by cases x <;> rfl

@[simp] theorem block?_dirty (x : Token) : x.dirty.block? = x.block? := by cases x <;> rfl

@[simp] theorem span?_dirty (t : SpanTier) (x : Token) : x.dirty.span? t = x.span? t := by
  cases x <;> rfl

@[simp] theorem loose?_dirty (u : Purpose) (x : Token) : x.dirty.loose? u = x.loose? u := by
  cases x <;> rfl

@[simp] theorem region?_dirty (x : Token) : x.dirty.region? = x.region? := by cases x <;> rfl

/-- Extents come in whole pages. -/
def Whole : Token → Prop
  | extent e _ => e.len % pageSize = 0 ∧ (e.use = .small → e.len = pageSize)
  | _ => True

theorem whole_dirty {x : Token} : x.dirty.Whole ↔ x.Whole := by cases x <;> rfl

end Token

def blocksIn (m : Multiset Token) : Multiset Block := m.filterMap Token.block?

def spansIn (t : SpanTier) (m : Multiset Token) : Multiset (SpanBlock t) := m.filterMap (Token.span? t)

def looseIn (u : Purpose) (m : Multiset Token) : Multiset (Nat × Nat) :=
  m.filterMap (Token.loose? u)

def regionsIn (m : Multiset Token) : Multiset Nat := m.filterMap Token.region?

/-- All tokens are of one part. -/
def OfUse (u : Purpose) (m : Multiset Token) : Prop := ∀ x ∈ m, x.use = u

section Reading

variable {u v : Purpose} {t : SpanTier} {m n : Multiset Token}

@[simp] theorem blocksIn_add (m n : Multiset Token) : blocksIn (m + n) = blocksIn m + blocksIn n :=
  Multiset.filterMap_add _ _ _

@[simp] theorem spansIn_add (m n : Multiset Token) : spansIn t (m + n) = spansIn t m + spansIn t n :=
  Multiset.filterMap_add _ _ _

@[simp] theorem looseIn_add (m n : Multiset Token) : looseIn u (m + n) = looseIn u m + looseIn u n :=
  Multiset.filterMap_add _ _ _

@[simp] theorem regionsIn_add (m n : Multiset Token) :
    regionsIn (m + n) = regionsIn m + regionsIn n :=
  Multiset.filterMap_add _ _ _

theorem OfUse.zero : OfUse u 0 := fun x hx => absurd hx (Multiset.notMem_zero x)

theorem OfUse.singleton {x : Token} (h : x.use = u) : OfUse u {x} := by
  intro y hy
  rw [Multiset.mem_singleton.1 hy, h]

theorem OfUse.chain (mk : Nat → Bool → Token) (h : ∀ a z, (mk a z).use = u) (z : Bool)
    (chain : List Nat) : OfUse u (uniform mk z chain) := by
  intro x hx
  obtain ⟨a, -, rfl⟩ := List.mem_map.1 (Multiset.mem_coe.1 hx)
  exact h a z

theorem OfUse.blocksIn (h : OfUse u m) (hu : u ≠ .small) : blocksIn m = 0 :=
  filterMap_eq_zero fun x hx => Token.block?_of_use (h x hx ▸ hu)

theorem OfUse.spansIn (h : OfUse u m) (hu : u ≠ .span t) : spansIn t m = 0 :=
  filterMap_eq_zero fun x hx => Token.span?_of_use (h x hx ▸ hu)

theorem OfUse.looseIn (h : OfUse u m) (hu : u ≠ v) : looseIn v m = 0 :=
  filterMap_eq_zero fun x hx => Token.loose?_of_use (h x hx ▸ hu)

theorem OfUse.regionsIn (h : OfUse u m) (hu : u ≠ .large) : regionsIn m = 0 :=
  filterMap_eq_zero fun x hx => Token.region?_of_use (h x hx ▸ hu)

end Reading

/-! ### The parts of the accounts -/

namespace World

/-- The mapped extents of one use. -/
def mappedOf (w : World) (u : Purpose) : Multiset (Nat × Nat) :=
  ↑(w.mapped.filterMap (Mapping.pages? u))

/-- Where the large region under a user pointer lies. -/
def regionAt (w : World) (p : Nat) : Nat × Nat :=
  ((w.header (p - largeHeaderSize)).base, (w.header (p - largeHeaderSize)).mappedSize / pageSize)

/-- A live large region: its header lies in it, right before the user pointer. -/
structure HeaderOk (w : World) (p : Nat) (g : LargeHeader) : Prop where
  known : w.headers (p - largeHeaderSize) = some g
  header : g.base + largeHeaderSize ≤ p
  fits : p ≤ g.base + g.mappedSize
  whole : g.mappedSize % pageSize = 0

/-- The table and the registry name the live regions and nothing else. -/
structure Registered (w : World) (regions : Multiset Nat) : Prop where
  table : ∀ p ∈ regions, w.arena (w.regionAt p).1 ((w.regionAt p).2 * pageSize) = true →
    ∀ u, (w.regionAt p).1 / pageSize ≤ u → u < (w.regionAt p).1 / pageSize + (w.regionAt p).2 →
      w.largeTable u = p - largeHeaderSize
  tabled : ∀ u, w.largeTable u ≠ 0 → ∃ p ∈ regions,
    w.arena (w.regionAt p).1 ((w.regionAt p).2 * pageSize) = true ∧
      (w.regionAt p).1 / pageSize ≤ u ∧ u < (w.regionAt p).1 / pageSize + (w.regionAt p).2
  registry : ∀ b, (↑(w.registry b) : Multiset Nat)
    = (regions.filter fun p => w.arena (w.regionAt p).1 ((w.regionAt p).2 * pageSize) = false ∧
        legacyBucket (p - largeHeaderSize) = b).map (· - largeHeaderSize)

/-- Every large extent is in one place. -/
structure LargeOk (w : World) (m : Multiset Token) : Prop where
  headers : ∀ p ∈ regionsIn m, ∃ g, w.HeaderOk p g
  extents : (regionsIn m).map w.regionAt + looseIn .large m + ∑ i, (w.shards i).regions
    = w.mappedOf .large
  registered : w.Registered (regionsIn m)

/-- The ledger of a tier still holds. -/
def Trusted (w : World) (t : SpanTier) : Prop := t = .medium → w.strayed = false

/-- What the accounts say about one use of the address space. -/
def Part (w : World) (m : Multiset Token) : Purpose → Prop
  | .small => w.small.Conserves (blocksIn m) ((looseIn .small m).map Prod.fst)
      ((w.mappedOf .small).map Prod.fst)
  | .span t => w.Trusted t →
      (w.spans t).Conserves w.arena (spansIn t m) (looseIn (.span t) m) (w.mappedOf (.span t))
  | .large => w.LargeOk m

/-- A mapping as `canMap` lets it appear. -/
structure Placed (w : World) (e : Mapping) : Prop where
  base : e.base ≠ 0
  pos : 0 < e.len
  whole : e.len % pageSize = 0
  page : e.use = .small → e.len = pageSize
  aligned : e.use ≠ .large ∨ w.arena e.base e.len = true → e.base % pageSize = 0
  bound : e.base + e.len ≤ 2 ^ 47
  arena : w.arena e.base e.len = true ∨ e.base + e.len ≤ w.arenaStart ∨ w.arenaEnd ≤ e.base

/-- Everything is accounted for, and the caches in the queue keep their books. -/
structure Good (w : World) (m : Multiset Token) : Prop where
  part : ∀ u, w.Part m u
  whole : ∀ x ∈ m, x.Whole
  placed : ∀ e ∈ w.mapped, w.Placed e
  together : (w.mapped ++ w.refused).Pairwise fun a b => a.disjoint b = true
  outside : ∀ e ∈ w.refused, w.arena e.base e.len = false
  retired : ∀ i c, w.retired i = .ready c → c.Ok

/-- Nothing but the heaps, shards and headers may differ. -/
structure SameGround (w w' : World) : Prop where
  arenaStart : w'.arenaStart = w.arenaStart
  arenaEnd : w'.arenaEnd = w.arenaEnd
  mapped : w'.mapped = w.mapped
  refused : w'.refused = w.refused
  retired : w'.retired = w.retired

section Parts

variable {w w' : World} {u v : Purpose} {A A' R m : Multiset Token}

theorem SameGround.arena (h : SameGround w w') : w'.arena = w.arena := by
  funext base len
  simp only [World.arena, h.arenaStart, h.arenaEnd]

theorem Placed.congr {e : Mapping} (h : w.Placed e) (hstart : w'.arenaStart = w.arenaStart)
    (hend : w'.arenaEnd = w.arenaEnd) : w'.Placed e := by
  have harena : w'.arena = w.arena := by
    funext base len
    simp only [World.arena, hstart, hend]
  exact { h with
    aligned := by rw [harena]; exact h.aligned
    arena := by rw [harena, hstart, hend]; exact h.arena }

theorem Good.apart (h : w.Good m) : w.mapped.Pairwise fun a b => a.disjoint b = true :=
  h.together.sublist (List.sublist_append_left _ _)

/-- A part does not look at the tokens of another. -/
theorem Part.replace (h : w.Part (A + R) v) (hA : OfUse u A) (hA' : OfUse u A') (hv : v ≠ u) :
    w.Part (A' + R) v := by
  cases v with
  | small =>
      simp only [Part, blocksIn_add, looseIn_add, hA.blocksIn hv.symm, hA'.blocksIn hv.symm,
        hA.looseIn hv.symm, hA'.looseIn hv.symm] at h ⊢
      exact h
  | span t =>
      simp only [Part, spansIn_add, looseIn_add, hA.spansIn hv.symm, hA'.spansIn hv.symm,
        hA.looseIn hv.symm, hA'.looseIn hv.symm] at h ⊢
      exact h
  | large =>
      have hregions : regionsIn (A' + R) = regionsIn (A + R) := by
        rw [regionsIn_add, regionsIn_add, hA.regionsIn hv.symm, hA'.regionsIn hv.symm]
      have hloose : looseIn .large (A' + R) = looseIn .large (A + R) := by
        rw [looseIn_add, looseIn_add, hA.looseIn hv.symm, hA'.looseIn hv.symm]
      exact ⟨by rw [hregions]; exact h.headers, by rw [hregions, hloose]; exact h.extents,
        by rw [hregions]; exact h.registered⟩

/-- The accounts of the large regions see no heap. -/
theorem LargeOk.congr (h : w.LargeOk m) (hground : SameGround w w')
    (hheaders : w'.headers = w.headers) (htable : w'.largeTable = w.largeTable)
    (hregistry : w'.registry = w.registry) (hshards : w'.shards = w.shards) : w'.LargeOk m := by
  have hat : w'.regionAt = w.regionAt := by
    funext p
    simp only [regionAt, header, hheaders]
  have hmapped : w'.mappedOf = w.mappedOf := by
    funext u
    simp only [mappedOf, hground.mapped]
  refine ⟨fun p hp => ?_, by rw [hat, hshards, hmapped]; exact h.extents, ?_⟩
  · obtain ⟨g, hg⟩ := h.headers p hp
    exact ⟨g, { hg with known := by rw [hheaders]; exact hg.known }⟩
  · refine ⟨?_, ?_, ?_⟩
    · rw [hat, htable, hground.arena]
      exact h.registered.table
    · rw [hat, htable, hground.arena]
      exact h.registered.tabled
    · rw [hat, hregistry, hground.arena]
      exact h.registered.registry

/-- A section that works on one part, and on tokens of that part. -/
theorem Good.replace (h : Good w (A + R)) (hA : OfUse u A) (hA' : OfUse u A')
    (hwhole : ∀ x ∈ A', x.Whole) (hground : SameGround w w')
    (hother : ∀ v m, v ≠ u → w.Part m v → w'.Part m v) (hpart : w'.Part (A' + R) u) :
    Good w' (A' + R) where
  part v := by
    by_cases hv : v = u
    · rw [hv]
      exact hpart
    · exact hother v _ hv ((h.part v).replace hA hA' hv)
  whole x hx := by
    rcases Multiset.mem_add.1 hx with hx | hx
    · exact hwhole x hx
    · exact h.whole x (Multiset.mem_add.2 (.inr hx))
  placed e he := by
    rw [hground.mapped] at he
    exact (h.placed e he).congr hground.arenaStart hground.arenaEnd
  together := by
    rw [hground.mapped, hground.refused]
    exact h.together
  outside e he := by
    rw [hground.refused] at he
    rw [hground.arena]
    exact h.outside e he
  retired i c hc := by
    rw [hground.retired] at hc
    exact h.retired i c hc

theorem Good.onSmall {h' : SmallHeap} (h : Good w (A + R)) (hA : OfUse .small A)
    (hA' : OfUse .small A') (hwhole : ∀ x ∈ A', x.Whole)
    (hstep : ∀ out loose mapped,
      w.small.Conserves (blocksIn A + out) ((looseIn .small A).map Prod.fst + loose) mapped →
      h'.Conserves (blocksIn A' + out) ((looseIn .small A').map Prod.fst + loose) mapped) :
    Good { w with small := h' } (A' + R) := by
  refine h.replace hA hA' hwhole ⟨rfl, rfl, rfl, rfl, rfl⟩ (fun v m hv hpart => ?_) ?_
  · cases v with
    | small => exact absurd rfl hv
    | span t => exact hpart
    | large => exact LargeOk.congr hpart ⟨rfl, rfl, rfl, rfl, rfl⟩ rfl rfl rfl rfl
  · have hpart := h.part .small
    simp only [Part, blocksIn_add, looseIn_add, Multiset.map_add] at hpart ⊢
    exact hstep _ _ _ hpart

theorem Good.onSpans {t : SpanTier} {h' : SpanHeap t} (h : Good w (A + R)) (hA : OfUse (.span t) A)
    (hA' : OfUse (.span t) A') (hwhole : ∀ x ∈ A', x.Whole)
    (hstep : w.Trusted t → ∀ out loose mapped,
      (w.spans t).Conserves w.arena (spansIn t A + out) (looseIn (.span t) A + loose) mapped →
      h'.Conserves w.arena (spansIn t A' + out) (looseIn (.span t) A' + loose) mapped) :
    Good (w.setSpans t h') (A' + R) := by
  refine h.replace hA hA' hwhole ⟨rfl, rfl, rfl, rfl, rfl⟩ (fun v m hv hpart => ?_) ?_
  · cases v with
    | small => exact hpart
    | span t' =>
        have ht : t' ≠ t := fun he => hv (congrArg Purpose.span he)
        intro htrust
        have hcons := hpart htrust
        show ((Function.update w.spans t h') t').Conserves _ _ _ _
        rw [Function.update_of_ne ht]
        exact hcons
    | large => exact LargeOk.congr hpart ⟨rfl, rfl, rfl, rfl, rfl⟩ rfl rfl rfl rfl
  · intro htrust
    have hpart := h.part (.span t) htrust
    simp only [spansIn_add, looseIn_add] at hpart ⊢
    show ((Function.update w.spans t h') t).Conserves _ _ _ _
    rw [Function.update_self]
    exact hstep htrust _ _ _ hpart

end Parts

end World

/-! ### Chains, groups and fates as tokens -/

section Chains

variable {β : Type} {mk : Nat → Bool → Token} {z : Bool} {chain : List Nat}

theorem read_uniform {f : Token → Option β} {g : Nat → β} (h : ∀ a z, f (mk a z) = some (g a)) :
    (uniform mk z chain).filterMap f = ↑(chain.map g) := by
  induction chain with
  | nil => rfl
  | cons a rest ih =>
      rw [uniform_cons, Multiset.filterMap_add, filterMap_singleton, h, ih]
      rfl

theorem read_uniform_none {f : Token → Option β} (h : ∀ a z, f (mk a z) = none) :
    (uniform mk z chain).filterMap f = 0 := by
  refine filterMap_eq_zero fun x hx => ?_
  obtain ⟨a, -, rfl⟩ := List.mem_map.1 (Multiset.mem_coe.1 hx)
  exact h a z

@[simp] theorem blocksIn_uniform (c : Fin numClasses) :
    blocksIn (uniform (fun a => .block ⟨c, a⟩) z chain) = blocksOf c chain :=
  read_uniform fun _ _ => rfl

@[simp] theorem looseIn_uniform_block (u : Purpose) (c : Fin numClasses) :
    looseIn u (uniform (fun a => .block ⟨c, a⟩) z chain) = 0 :=
  read_uniform_none fun _ _ => rfl

@[simp] theorem spansIn_uniform {t : SpanTier} (c : Fin t.num) (x : Option Nat) :
    spansIn t (uniform (fun a => .span t ⟨c, a, x⟩) z chain) = spanBlocks c x chain :=
  read_uniform fun _ _ => Token.span?_span _ _ _

@[simp] theorem looseIn_uniform_span (u : Purpose) {t : SpanTier} (c : Fin t.num) (x : Option Nat) :
    looseIn u (uniform (fun a => .span t ⟨c, a, x⟩) z chain) = 0 :=
  read_uniform_none fun _ _ => rfl

@[simp] theorem blocksIn_blockTokens (m : Multiset Block) : blocksIn (blockTokens m) = m := by
  rw [blocksIn, blockTokens, Multiset.filterMap_map]
  exact Multiset.filterMap_some m

@[simp] theorem looseIn_blockTokens (u : Purpose) (m : Multiset Block) :
    looseIn u (blockTokens m) = 0 := by
  refine filterMap_eq_zero fun x hx => ?_
  obtain ⟨b, -, rfl⟩ := Multiset.mem_map.1 hx
  rfl

@[simp] theorem spansIn_spanTokens {t : SpanTier} (m : Multiset (SpanBlock t)) :
    spansIn t (spanTokens t m) = m := by
  rw [spansIn, spanTokens, Multiset.filterMap_map]
  refine Eq.trans (congrFun (congrArg _ (funext fun b => ?_)) m) (Multiset.filterMap_some m)
  exact Token.span?_span t b false

@[simp] theorem looseIn_spanTokens (u : Purpose) {t : SpanTier} (m : Multiset (SpanBlock t)) :
    looseIn u (spanTokens t m) = 0 := by
  refine filterMap_eq_zero fun x hx => ?_
  obtain ⟨b, -, rfl⟩ := Multiset.mem_map.1 hx
  rfl

theorem OfUse.uniform_block (c : Fin numClasses) :
    OfUse .small (uniform (fun a => .block ⟨c, a⟩) z chain) :=
  OfUse.chain (fun a => .block ⟨c, a⟩) (fun _ _ => rfl) z chain

theorem OfUse.uniform_span {t : SpanTier} (c : Fin t.num) (x : Option Nat) :
    OfUse (.span t) (uniform (fun a => .span t ⟨c, a, x⟩) z chain) :=
  OfUse.chain (fun a => .span t ⟨c, a, x⟩) (fun _ _ => rfl) z chain

theorem OfUse.blockTokens (m : Multiset Block) : OfUse .small (blockTokens m) := by
  intro x hx
  obtain ⟨b, -, rfl⟩ := Multiset.mem_map.1 hx
  rfl

theorem OfUse.spanTokens {t : SpanTier} (m : Multiset (SpanBlock t)) :
    OfUse (.span t) (spanTokens t m) := by
  intro x hx
  obtain ⟨b, -, rfl⟩ := Multiset.mem_map.1 hx
  rfl

theorem whole_uniform (h : ∀ a z, (mk a z).Whole) : ∀ x ∈ uniform mk z chain, x.Whole := by
  intro x hx
  obtain ⟨a, -, rfl⟩ := List.mem_map.1 (Multiset.mem_coe.1 hx)
  exact h a z

end Chains

section Fates

/-- What a fate leaves in hand: the extent that is still to be unmapped. -/
def fateToken (u : Purpose) (x : Nat × Fate) : Multiset Token :=
  match x.2 with
  | .unmap bytes => {.extent ⟨x.1, bytes, u⟩ false}
  | _ => 0

def fateTokens (u : Purpose) (fates : List (Nat × Fate)) : Multiset Token :=
  (fates.map (fateToken u)).sum

variable {u : Purpose} {fates : List (Nat × Fate)}

theorem fateTokens_cons (x : Nat × Fate) (rest : List (Nat × Fate)) :
    fateTokens u (x :: rest) = fateToken u x + fateTokens u rest := rfl

theorem mem_fateTokens {y : Token} (h : y ∈ fateTokens u fates) :
    ∃ x ∈ fates, ∃ bytes, x.2 = .unmap bytes ∧ y = .extent ⟨x.1, bytes, u⟩ false := by
  induction fates with
  | nil => exact absurd h (Multiset.notMem_zero y)
  | cons x rest ih =>
      rcases Multiset.mem_add.1 h with h | h
      · refine ⟨x, List.mem_cons_self .., ?_⟩
        unfold fateToken at h
        split at h
        · exact ⟨_, ‹_›, Multiset.mem_singleton.1 h⟩
        · exact absurd h (Multiset.notMem_zero y)
      · obtain ⟨x', hx', hy⟩ := ih h
        exact ⟨x', List.mem_cons_of_mem _ hx', hy⟩

theorem OfUse.fateTokens : OfUse u (fateTokens u fates) := by
  intro y hy
  obtain ⟨x, -, bytes, -, rfl⟩ := mem_fateTokens hy
  rfl

@[simp] theorem blocksIn_fateTokens : blocksIn (fateTokens u fates) = 0 :=
  filterMap_eq_zero fun y hy => by
    obtain ⟨x, -, bytes, -, rfl⟩ := mem_fateTokens hy
    rfl

@[simp] theorem spansIn_fateTokens (t : SpanTier) : spansIn t (fateTokens u fates) = 0 :=
  filterMap_eq_zero fun y hy => by
    obtain ⟨x, -, bytes, -, rfl⟩ := mem_fateTokens hy
    rfl

theorem looseIn_fateTokens_small :
    (looseIn .small (fateTokens .small fates)).map Prod.fst = SmallHeap.allUnmapped fates := by
  induction fates with
  | nil => rfl
  | cons x rest ih =>
      rw [fateTokens_cons, looseIn_add, Multiset.map_add, ih]
      obtain ⟨p, fate⟩ := x
      cases fate with
      | unmap bytes =>
          simp [fateToken, looseIn, filterMap_singleton, Token.loose?, Mapping.pages?,
            SmallHeap.allUnmapped, SmallHeap.unmapped]
      | _ => simp [fateToken, looseIn, SmallHeap.allUnmapped, SmallHeap.unmapped]

theorem looseIn_fateTokens_span {t : SpanTier} :
    looseIn (.span t) (fateTokens (.span t) fates) = SpanHeap.allUnmapped fates := by
  induction fates with
  | nil => rfl
  | cons x rest ih =>
      rw [fateTokens_cons, looseIn_add, ih]
      obtain ⟨p, fate⟩ := x
      cases fate with
      | unmap bytes =>
          simp [fateToken, looseIn, filterMap_singleton, Token.loose?, Mapping.pages?,
            SpanHeap.allUnmapped, SpanHeap.unmapped]
      | _ => simp [fateToken, looseIn, SpanHeap.allUnmapped, SpanHeap.unmapped]

theorem whole_small (h : ∀ x ∈ fates, SmallHeap.PageFate x.2) :
    ∀ y ∈ fateTokens .small fates, y.Whole := by
  intro y hy
  obtain ⟨x, hx, bytes, hfate, rfl⟩ := mem_fateTokens hy
  have hbytes := h x hx bytes hfate
  subst hbytes
  exact ⟨Nat.mod_self _, fun _ => rfl⟩

theorem whole_span {t : SpanTier} (h : ∀ x ∈ fates, SpanHeap.PagesFate x.2) :
    ∀ y ∈ fateTokens (.span t) fates, y.Whole := by
  intro y hy
  obtain ⟨x, hx, bytes, hfate, rfl⟩ := mem_fateTokens hy
  exact ⟨h x hx bytes hfate, nofun⟩

end Fates

end Allox
