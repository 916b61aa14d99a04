import Allox.Proof.QueuePrograms

/-!
# Allocations and frees of blocks

An allocation ends with one more block in hand or with none, a free with one less.
-/

namespace Allox

open Resumption

namespace Sys

open World ThreadCache

variable {α β : Type} {l : Caches} {hand : Multiset Token} {k : Slot} {c : ThreadCache} {n : Nat}
  {t : SpanTier}

/-! ### Small blocks -/

/-- What an allocation brings. -/
def handed (mk : Nat → Bool → Token) (got : Option (Nat × Bool)) : Multiset Token :=
  got.elim 0 fun x => {mk x.1 x.2}

/-- A program that brings one block or none. -/
def Fetches (mk : Nat → Bool → Token) (m : Sys (Option (Nat × Bool))) : Prop :=
  ∀ l hand, Tidy l → SysRuns m l hand fun got l' m' => Tidy l' ∧ m' = handed mk got + hand

/-- A program that takes a token away. -/
def Absorbs (x : Token) (m : Sys α) : Prop :=
  ∀ l hand, Tidy l → SysRuns m l ({x} + hand) fun _ l' m' => Tidy l' ∧ m' = hand

theorem Calm.fetches {mk : Nat → Bool → Token} {m : Sys α} {f : α → Sys (Option (Nat × Bool))}
    (h : Calm m) (hf : ∀ a, Fetches mk (f a)) : Fetches mk (m >>= f) := by
  intro l hand hl
  refine SysRuns.bind (h l hand hl) ?_
  rintro a l' m ⟨hl', rfl⟩
  exact hf a l' m hl'

theorem Calm.absorbs {x : Token} {m : Sys α} {f : α → Sys β} (h : Calm m) (hf : ∀ a, Absorbs x (f a)) :
    Absorbs x (m >>= f) := by
  intro l hand hl
  refine SysRuns.bind (h l _ hl) ?_
  rintro a l' m ⟨hl', rfl⟩
  exact hf a l' hand hl'

variable {cls : Fin numClasses}

theorem fetches_refill (cls : Fin numClasses) : Fetches (fun p => .block ⟨cls, p⟩) (refill cls) := by
  refine quiet_armExitHook.calm.fetches fun _ => quiet_refreshBudget.calm.fetches fun _ =>
    calm_reclaimRetired.fetches fun _ => fun l hand hl => runs_cache ?_
  split
  · rename_i p zeroed left hpop
    obtain ⟨hleft, hstake, -, -⟩ := hl.self.popSmall hpop
    refine SysRuns.bind (runs_put ({.block ⟨cls, p⟩ zeroed} + hand) (by rw [hstake]; ac_rfl)) ?_
    rintro _ l' m ⟨rfl, rfl⟩
    exact SysRuns.pure ⟨hl.put hleft, rfl⟩
  · rename_i hpop
    have hempty := popSmall_none hpop
    refine runs_when (q := fun _ l' m => Tidy l' ∧ Drains (l .self) (l' .self) ∧ m = hand)
      (fun _ => quiet_trim l hand hl) (fun _ => ⟨hl, .refl _, rfl⟩) ?_
    rintro l' m ⟨hl', hdrains, rfl⟩
    refine SysRuns.bind (runs_takeSmall cls) ?_
    rintro ⟨chain, count, virgin⟩ l'' m' ⟨rfl, hcount, rfl⟩
    dsimp only at hcount ⊢
    subst hcount
    cases chain with
    | nil => exact SysRuns.pure ⟨hl', rfl⟩
    | cons first rest =>
        obtain ⟨hbooks, hstake⟩ := hl'.self.fillSmall (hdrains.bins cls hempty) rest virgin
        refine runs_cache (SysRuns.bind (runs_put ({.block ⟨cls, first⟩ virgin} + m) ?_) ?_)
        · simp only [List.length_cons, hstake, uniform_cons]
          ac_rfl
        · rintro _ l'' m' ⟨rfl, rfl⟩
          exact SysRuns.pure ⟨hl'.put hbooks, rfl⟩

theorem fetches_allocZeroed (cls : Fin numClasses) :
    Fetches (fun p => .block ⟨cls, p⟩) (allocZeroed cls) := by
  intro l hand hl
  refine runs_cache ?_
  split
  · rename_i p zeroed left hpop
    obtain ⟨hleft, hstake, -, -⟩ := hl.self.popSmall hpop
    refine SysRuns.bind (runs_put ({.block ⟨cls, p⟩ zeroed} + hand) (by rw [hstake]; ac_rfl)) ?_
    rintro _ l' m ⟨rfl, rfl⟩
    exact SysRuns.pure ⟨hl.put hleft, rfl⟩
  · exact fetches_refill cls l hand hl

/-- The blocks of a chain go back one by one. -/
theorem runs_eachOne {mk : Nat → Bool → Token} {f : Nat → Sys Unit} {z : Bool} {chain : List Nat}
    (hf : ∀ p l hand, SysRuns (f p) l ({mk p z} + hand) fun _ l' m => l' = l ∧ m = hand) :
    SysRuns (each f chain) l (uniform mk z chain + hand) fun _ l' m => l' = l ∧ m = hand := by
  induction chain generalizing hand with
  | nil => exact SysRuns.pure ⟨rfl, zero_add _⟩
  | cons p rest ih =>
      rw [uniform_cons, add_assoc]
      refine SysRuns.bind (hf p l _) ?_
      rintro _ l' m ⟨rfl, rfl⟩
      exact ih

theorem fetches_takeOneSmall (cls : Fin numClasses) :
    Fetches (fun p => .block ⟨cls, p⟩) (takeOneSmall cls) := by
  intro l hand hl
  refine SysRuns.bind (runs_takeSmall cls) ?_
  rintro ⟨chain, count, virgin⟩ l' m ⟨rfl, hcount, rfl⟩
  dsimp only at hcount ⊢
  subst hcount
  cases chain with
  | nil => exact SysRuns.pure ⟨hl, rfl⟩
  | cons first rest =>
      simp only [List.length_cons, Nat.add_sub_cancel, List.take_length, uniform_cons]
      rw [add_right_comm, add_comm]
      refine SysRuns.bind (runs_eachOne fun p l hand => runs_releaseOne) ?_
      rintro _ l' m ⟨rfl, rfl⟩
      exact SysRuns.pure ⟨hl, rfl⟩

theorem shift_clean {x : Token} {m : Sys α} {post : α → Caches → Multiset Token → Prop}
    (h : SysRuns m l ({x.dirty} + hand) post) : SysRuns m l ({x} + hand) post :=
  SysRuns.shift (shift_dirty {x} hand) h

/-- A free pushes the block, and sheds when too much is cached. -/
theorem runs_pushed {x : Token} {shedding : Bool} (hl : Tidy l) (hc : c.Ok)
    (hstake : c.stake = {x.dirty} + (l .self).stake) :
    SysRuns (do
      putCache .self c
      if shedding then shed else pure ()) l ({x} + hand) fun _ l' m => Tidy l' ∧ m = hand := by
  refine shift_clean (SysRuns.bind (runs_put hand ?_) ?_)
  · rw [hstake]
    ac_rfl
  · rintro _ l' m ⟨rfl, rfl⟩
    exact (Quiet.ite quiet_shed (.pure ())).calm _ _ (hl.put hc)

theorem absorbs_deallocCold (p : Nat) (cls : Fin numClasses) (z : Bool) :
    Absorbs (.block ⟨cls, p⟩ z) (deallocCold p cls) := by
  refine quiet_armExitHook.calm.absorbs fun _ => fun l hand hl => runs_cache ?_
  refine runs_choose (q := fun _ l' m => l' = l ∧ m = {.block ⟨cls, p⟩ z} + hand)
    (fun _ => runs_ask) (fun _ => SysRuns.pure ⟨rfl, rfl⟩) ?_
  rintro foreign l' m ⟨rfl, rfl⟩
  obtain ⟨hbooks, hstake⟩ := Books.pushSmall (Books.fields hl.self (l' .self).budget
    (l' .self).budgetEpoch ((l' .self).foreignBytes + if foreign = true then classSize cls else 0)
    (l' .self).exitArmed (l' .self).retiredReclaimed) cls p
  exact runs_pushed hl hbooks hstake

theorem absorbs_dealloc (p : Nat) (cls : Fin numClasses) (z : Bool) :
    Absorbs (.block ⟨cls, p⟩ z) (dealloc p cls) := by
  refine fun l hand hl => runs_cache ?_
  split
  · obtain ⟨hbooks, hstake⟩ := hl.self.pushSmall cls p
    exact runs_pushed hl hbooks hstake
  · exact absorbs_deallocCold p cls z l hand hl

/-! ### Medium and big blocks -/

/-- Where a block was found need not be remembered. -/
theorem shift_forget {t : SpanTier} {cls : Fin t.num} {p : Nat} {home : Option Nat} {z : Bool} (z' : Bool)
    {m : Sys α} {post : α → Caches → Multiset Token → Prop}
    (h : SysRuns m l ({.span t ⟨cls, p, none⟩ z'} + hand) post) :
    SysRuns m l ({.span t ⟨cls, p, home⟩ z} + hand) post := by
  refine SysRuns.shift (fun w R hw => ?_) h
  rw [add_assoc] at hw ⊢
  exact hw.rehome fun _ _ hs => by cases hs

theorem runs_popSpan {t : SpanTier} (cls : Fin t.num) (hl : Tidy l) :
    SysRuns (popSpan t cls) l hand fun got l' m => Tidy l' ∧
      m = handed (fun p => .span t ⟨cls, p, none⟩) got + hand ∧
      (got = none → ((l' .self).active t cls).list.blocks = [] ∧
        ((l' .self).spanBins t cls).blocks = []) := by
  refine runs_cache ?_
  have hsome := @Books.activeAlloc (l .self) 0 t cls
  have hnone := @Books.activeAlloc_none (l .self) 0 t cls hl.self
  cases halloc : (l .self).activeAlloc t cls with
  | mk got own =>
      rw [halloc] at hnone
      dsimp only at hnone ⊢
      cases got with
      | some r =>
          obtain ⟨p, zeroed⟩ := r
          obtain ⟨hbooks, hstake, -⟩ := hsome hl.self (congrArg Prod.fst halloc)
          rw [halloc] at hbooks hstake
          refine SysRuns.bind (runs_put ({.span t ⟨cls, p, some ((l .self).active t cls).span⟩
            zeroed} + hand) (by rw [hstake]; ac_rfl)) ?_
          rintro _ l' m ⟨rfl, rfl⟩
          exact shift_forget _ (SysRuns.pure ⟨hl.put hbooks, rfl, by rintro ⟨⟩⟩)
      | none =>
          obtain ⟨hempty, hbooks, hstake, hdrains⟩ := hnone rfl
          refine SysRuns.bind (runs_put_same hstake) ?_
          rintro _ l' m ⟨rfl, rfl⟩
          dsimp only
          split
          · rename_i p zeroed left hpop
            obtain ⟨hleft, hstake', -, -⟩ := hbooks.popSpanBin hpop
            refine SysRuns.bind (runs_put ({.span t ⟨cls, p, none⟩ zeroed} + m) ?_) ?_
            · rw [Function.update_self, hstake']
              ac_rfl
            · rintro _ l' m' ⟨rfl, rfl⟩
              exact SysRuns.pure ⟨(hl.put hbooks).put hleft, rfl, by rintro ⟨⟩⟩
          · rename_i hpop
            refine SysRuns.pure ⟨hl.put hbooks, (zero_add _).symm, fun _ => ?_⟩
            rw [Function.update_self]
            exact ⟨hdrains.active t cls hempty, popSpanBin_none hpop⟩

/-- The blocks of a chain, each at home in the span that was looked up for it. -/
def homed {t : SpanTier} (cls : Fin t.num) (z : Bool) (chain spans : List Nat) : Multiset Token :=
  ↑(List.zipWith (fun b s => Token.span t ⟨cls, b, some s⟩ z) chain spans)

theorem homed_cons {t : SpanTier} (cls : Fin t.num) (z : Bool) (b s : Nat) (chain spans : List Nat) :
    homed cls z (b :: chain) (s :: spans) = {.span t ⟨cls, b, some s⟩ z} + homed cls z chain spans := rfl

theorem runs_spansOf {t : SpanTier} {cls : Fin t.num} {z : Bool} (chain : List Nat) :
    SysRuns (spansOf t chain) l (uniform (fun a => .span t ⟨cls, a, none⟩) z chain + hand)
      fun spans l' m => l' = l ∧ spans.length = chain.length ∧ m = homed cls z chain spans + hand := by
  induction chain generalizing hand with
  | nil => exact SysRuns.pure ⟨rfl, rfl, rfl⟩
  | cons b rest ih =>
      rw [uniform_cons, add_assoc]
      refine SysRuns.bind (runs_spanOf z) ?_
      rintro s l' m ⟨rfl, rfl⟩
      rw [add_left_comm]
      refine SysRuns.bind ih ?_
      rintro spans l'' m ⟨rfl, hlen, rfl⟩
      refine SysRuns.pure ⟨rfl, congrArg Nat.succ hlen, ?_⟩
      rw [homed_cons]
      ac_rfl

theorem homed_single {t : SpanTier} {cls : Fin t.num} {z : Bool} {chain spans : List Nat}
    (hlen : spans.length = chain.length) (hsingle : singleSpan spans = true) :
    homed cls z chain spans = uniform (fun a => .span t ⟨cls, a, some (spans.headD 0)⟩) z chain ∧
      spans.headD 0 ≠ 0 := by
  have hsame : ∀ (s : Nat) (chain spans : List Nat), spans.length = chain.length →
      (∀ x ∈ spans, x = s) →
      homed cls z chain spans = uniform (fun a => .span t ⟨cls, a, some s⟩) z chain := by
    intro s chain
    induction chain with
    | nil =>
        intro spans hlen _
        rw [List.length_eq_zero_iff.1 hlen]
        rfl
    | cons b rest ih =>
        intro spans hlen hall
        cases spans with
        | nil => cases hlen
        | cons x more =>
            obtain rfl := hall x (List.mem_cons_self ..)
            rw [homed_cons, uniform_cons,
              ih more (Nat.succ.inj hlen) fun y hy => hall y (List.mem_cons_of_mem _ hy)]
  cases spans with
  | nil => cases hsingle
  | cons s more =>
      simp only [singleSpan, Bool.and_eq_true, decide_eq_true_eq, List.all_eq_true, beq_iff_eq] at hsingle
      refine ⟨hsame s chain _ hlen fun x hx => ?_, hsingle.1⟩
      rcases List.mem_cons.1 hx with rfl | hx
      · rfl
      · exact hsingle.2 x hx

theorem shift_unhomed {t : SpanTier} {cls : Fin t.num} {z : Bool} {m : Sys α}
    {post : α → Caches → Multiset Token → Prop} {chain spans : List Nat}
    (hlen : spans.length = chain.length)
    (h : SysRuns m l (uniform (fun a => .span t ⟨cls, a, none⟩) z chain + hand) post) :
    SysRuns m l (homed cls z chain spans + hand) post := by
  induction chain generalizing spans hand with
  | nil =>
      rw [List.length_eq_zero_iff.1 hlen]
      exact h
  | cons b rest ih =>
      cases spans with
      | nil => cases hlen
      | cons s more =>
          rw [homed_cons, add_assoc]
          refine shift_forget z ?_
          rw [add_left_comm]
          refine ih (Nat.succ.inj hlen) ?_
          rw [uniform_cons] at h
          rw [add_left_comm, ← add_assoc]
          exact h

/-- A refill that has found something puts all but the first block away. -/
theorem runs_storeSpan {t : SpanTier} (cls : Fin t.num) (virgin : Bool) (first : Nat) (rest : List Nat)
    (hl : Tidy l) (hactive : ((l .self).active t cls).list.blocks = [])
    (hbin : ((l .self).spanBins t cls).blocks = []) :
    SysRuns (do
      let spans ← spansOf t (first :: rest)
      if singleSpan spans then
        let span := spans.headD 0
        let bytes ← onSpans t fun _ _ h => (h, (h.master span).mappedBytes)
        let own ← cache .self
        putCache .self (own.fillActive t cls span bytes rest (rest.length + 1) virgin)
      else
        let own ← cache .self
        putCache .self (own.fillSpanBin t cls rest (rest.length + 1) virgin)
      pure (some (first, virgin))) l
      (uniform (fun a => .span t ⟨cls, a, none⟩) virgin (first :: rest) + hand)
      fun got l' m => Tidy l' ∧ m = handed (fun p => .span t ⟨cls, p, none⟩) got + hand := by
  refine SysRuns.bind (runs_spansOf _) ?_
  rintro spans l' m ⟨rfl, hlen, rfl⟩
  dsimp only
  split
  · rename_i hsingle
    obtain ⟨hhomed, hspan⟩ := @homed_single _ cls virgin _ _ hlen hsingle
    rw [hhomed, uniform_cons, add_assoc]
    generalize spans.headD 0 = span at hspan ⊢
    have hread : SysRuns (onSpans t fun _ _ h => (h, (h.master span).mappedBytes)) l'
        ({.span t ⟨cls, first, some span⟩ virgin}
          + (uniform (fun a => .span t ⟨cls, a, some span⟩) virgin rest + hand))
        fun _ l'' m => l'' = l' ∧ m = {.span t ⟨cls, first, some span⟩ virgin}
          + (uniform (fun a => .span t ⟨cls, a, some span⟩) virgin rest + hand) :=
      runs_onSpans fun _ w _ hw => ⟨_, by rw [setSpans_self]; exact hw, rfl, rfl⟩
    refine SysRuns.bind hread ?_
    rintro bytes l'' m ⟨rfl, rfl⟩
    obtain ⟨hbooks, hstake⟩ := hl.self.fillActive hactive hbin hspan bytes rest virgin
    refine runs_cache (shift_forget virgin (SysRuns.bind (runs_put
      ({.span t ⟨cls, first, none⟩ virgin} + hand) ?_) ?_))
    · rw [hstake]
      ac_rfl
    · rintro _ l m ⟨rfl, rfl⟩
      exact SysRuns.pure ⟨hl.put hbooks, rfl⟩
  · obtain ⟨hbooks, hstake⟩ := hl.self.fillSpanBin hbin rest virgin
    refine shift_unhomed hlen ?_
    rw [uniform_cons, add_assoc]
    refine runs_cache (SysRuns.bind (runs_put
      ({.span t ⟨cls, first, none⟩ virgin} + hand) ?_) ?_)
    · rw [hstake]
      ac_rfl
    · rintro _ l m ⟨rfl, rfl⟩
      exact SysRuns.pure ⟨hl.put hbooks, rfl⟩

theorem fetches_refillSpan {t : SpanTier} (cls : Fin t.num) :
    Fetches (fun p => .span t ⟨cls, p, none⟩) (refillSpan t cls) := by
  refine quiet_armExitHook.calm.fetches fun _ => quiet_refreshBudget.calm.fetches fun _ =>
    calm_reclaimRetired.fetches fun _ => fun l hand hl => SysRuns.bind (runs_popSpan cls hl) ?_
  rintro got l₁ m ⟨h₁, rfl, hnone⟩
  cases got with
  | some r => exact SysRuns.pure ⟨h₁, rfl⟩
  | none =>
      obtain ⟨hactive, hbin⟩ := hnone rfl
      rw [show handed (fun p => Token.span t ⟨cls, p, none⟩) none + hand = hand from zero_add hand]
      refine runs_cache (runs_when (q := fun _ l' m =>
        Tidy l' ∧ Drains (l₁ .self) (l' .self) ∧ m = hand)
        (fun _ => quiet_trim l₁ hand h₁) (fun _ => ⟨h₁, .refl _, rfl⟩) ?_)
      rintro l₂ m ⟨h₂, hdrains, rfl⟩
      refine runs_cache (runs_when (q := fun _ l' m' =>
        Tidy l' ∧ Drains (l₂ .self) (l' .self) ∧ m' = m)
        (fun _ => quiet_trim l₂ m h₂) (fun _ => ⟨h₂, .refl _, rfl⟩) ?_)
      rintro l₃ m ⟨h₃, hdrains', rfl⟩
      refine SysRuns.bind (runs_takeSpans cls) ?_
      rintro ⟨chain, count, virgin⟩ l' m' ⟨rfl, hcount, rfl⟩
      dsimp only at hcount ⊢
      subst hcount
      cases chain with
      | nil => exact SysRuns.pure ⟨h₃, rfl⟩
      | cons first rest =>
          have hkeeps := hdrains.trans hdrains'
          exact runs_storeSpan cls virgin first rest h₃ (hkeeps.active t cls hactive)
            (hkeeps.spanBins t cls hbin)

theorem fetches_allocSpanZeroed {t : SpanTier} (cls : Fin t.num) :
    Fetches (fun p => .span t ⟨cls, p, none⟩) (allocSpanZeroed t cls) := by
  refine fun l hand hl => SysRuns.bind (runs_popSpan cls hl) ?_
  rintro got l' m ⟨hl', rfl, -⟩
  cases got with
  | some r => exact SysRuns.pure ⟨hl', rfl⟩
  | none =>
      rw [show handed (fun p => Token.span t ⟨cls, p, none⟩) none + hand = hand from zero_add hand]
      exact fetches_refillSpan cls l' hand hl'

theorem chunk_single (s p : Nat) : SpanHeap.Chunk ⟨s, [p], p, 1⟩ := ⟨rfl, rfl⟩

theorem runs_releaseFound {t : SpanTier} {cls : Fin t.num} {p s : Nat} {z : Bool} :
    SysRuns (releaseSpan t cls ⟨s, [p], p, 1⟩) l ({.span t ⟨cls, p, some s⟩ z} + hand)
      fun _ l' m => l' = l ∧ m = hand :=
  shift_clean (runs_releaseSpan (chunk_single s p))

theorem runs_releaseOneSpan {t : SpanTier} {cls : Fin t.num} {p : Nat} {home : Option Nat} {z : Bool} :
    SysRuns (releaseOneSpan t cls p) l ({.span t ⟨cls, p, home⟩ z} + hand)
      fun _ l' m => l' = l ∧ m = hand := by
  refine SysRuns.bind (runs_spanOf false) ?_
  rintro span l' m ⟨rfl, rfl⟩
  exact runs_releaseFound

theorem fetches_takeOneSpan {t : SpanTier} (cls : Fin t.num) :
    Fetches (fun p => .span t ⟨cls, p, none⟩) (takeOneSpan t cls) := by
  intro l hand hl
  refine SysRuns.bind (runs_takeSpans cls) ?_
  rintro ⟨chain, count, virgin⟩ l' m ⟨rfl, hcount, rfl⟩
  dsimp only at hcount ⊢
  subst hcount
  cases chain with
  | nil => exact SysRuns.pure ⟨hl, rfl⟩
  | cons first rest =>
      simp only [List.length_cons, Nat.add_sub_cancel, List.take_length, uniform_cons]
      rw [add_right_comm, add_comm]
      refine SysRuns.bind (runs_eachOne fun p l hand => runs_releaseOneSpan) ?_
      rintro _ l' m ⟨rfl, rfl⟩
      exact SysRuns.pure ⟨hl, rfl⟩

/-- A push on the wrong list gives the medium part up, and nothing else. -/
theorem stray {w : World} {m : Multiset Token} (h : w.Good m) (b : Bool) :
    Good { w with strayed := w.strayed || b } m := by
  refine { h with part := fun u => ?_, placed := fun e he => (h.placed e he).congr rfl rfl }
  cases u with
  | small => exact h.part .small
  | span t =>
      intro htrust
      exact h.part (.span t) fun ht => (Bool.or_eq_false_iff.1 (htrust ht)).1
  | large =>
      obtain ⟨hheaders, hextents, hreg⟩ := h.part .large
      refine ⟨fun p hp => ?_, hextents, ⟨hreg.table, hreg.tabled, hreg.registry⟩⟩
      obtain ⟨g, hg⟩ := hheaders p hp
      exact ⟨g, { hg with }⟩

/-- The block is taken to be of the recorded span from here on. -/
theorem runs_noteStray {t : SpanTier} {cls : Fin t.num} {p s : Nat} {home : Option Nat} {z : Bool}
    (hhome : t = .big → home = some s) :
    SysRuns (noteStray t p s) l ({.span t ⟨cls, p, home⟩ z} + hand)
      fun _ l' m => l' = l ∧ m = {.span t ⟨cls, p, some s⟩ false} + hand := by
  refine runs_section fun e w R hw => ⟨_, ?_, rfl, rfl, rfl, rfl⟩
  rw [add_assoc] at hw ⊢
  have hstray := stray hw (decide ((w.spans t).masterOf p ≠ s))
  cases t with
  | medium =>
      refine hstray.rehome fun htrust x hx => ?_
      have hsame := (Bool.or_eq_false_iff.1 (htrust rfl)).2
      simp only [ne_eq, decide_not, Bool.not_eq_false', decide_eq_true_eq] at hsame
      rw [← Option.some.inj hx]
      exact hsame.symm
  | big =>
      rw [hhome rfl] at hstray
      exact Good.dirty (A := {.span .big ⟨cls, p, some s⟩ z}) hstray

theorem absorbs_deallocSpan {t : SpanTier} (cls : Fin t.num) (p span : Nat) {home : Option Nat} (z : Bool)
    (hhome : t = .big → home = some span) :
    Absorbs (.span t ⟨cls, p, home⟩ z) (deallocSpan t cls p span) := by
  refine quiet_armExitHook.calm.absorbs fun _ => fun l hand hl => runs_cache ?_
  refine runs_choose (q := fun _ l' m => l' = l ∧ m = {.span t ⟨cls, p, home⟩ z} + hand)
    (fun _ => runs_ask) (fun _ => SysRuns.pure ⟨rfl, rfl⟩) ?_
  rintro foreign l' m ⟨rfl, rfl⟩
  dsimp only
  split
  · rename_i hcontains
    have hspan : ((l' .self).active t cls).span ≠ 0 := by
      unfold activeContains at hcontains
      cases t with
      | medium =>
          simp only [Bool.and_eq_true, decide_eq_true_eq] at hcontains
          exact hcontains.1.1
      | big =>
          simp only [Bool.and_eq_true, decide_eq_true_eq] at hcontains
          exact hcontains.1.1.2
    have hhome' : t = .big → home = some ((l' .self).active t cls).span := by
      rintro rfl
      unfold activeContains at hcontains
      simp only [Bool.and_eq_true, decide_eq_true_eq] at hcontains
      rw [hcontains.1.1.1]
      exact hhome rfl
    obtain ⟨hbooks, hstake⟩ := hl.self.activeDealloc hspan p
    refine SysRuns.bind (runs_noteStray hhome') ?_
    rintro _ l m ⟨rfl, rfl⟩
    exact runs_pushed hl (Books.fields hbooks _ _ _ _ _) hstake
  · obtain ⟨hbooks, hstake⟩ := hl.self.binDealloc t cls p
    refine shift_forget z ?_
    exact runs_pushed hl (Books.fields hbooks _ _ _ _ _) hstake

end Sys

end Allox
