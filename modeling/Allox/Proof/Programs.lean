import Allox.Proof.LargeSections

/-!
# What a program of a thread does to the accounts

A thread holds what its caches have and what it has in hand. The shared state owes the live blocks and the
retired caches. One lemma for each program: what it needs in hand, and what it ends with. Here are the
rules for sections, and what takes from the heaps and gives back to them.
-/

namespace Allox

open Resumption

def Live.token (x : Live) : Token :=
  match x.kind with
  | .small cls => .block ⟨cls, x.addr⟩ false
  | .span t cls => .span t ⟨cls, x.addr, none⟩ false
  | .large => .region x.addr

namespace RetiredSlot

def stake : RetiredSlot → Multiset Token
  | ready c => c.stake
  | _ => 0

/-- Some thread has the slot to itself. -/
def busy : RetiredSlot → Bool
  | writing => true
  | taking => true
  | _ => false

end RetiredSlot

namespace World

/-- What the users and the queue have. -/
def owed (w : World) : Multiset Token := ↑(w.live.map Live.token) + ∑ i, (w.retired i).stake

/-- The accounts with all that the threads hold: tokens, and slots of the queue that they work on. -/
def Holds (w : World) (held : Multiset Token × Multiset (Fin retiredSlotCount)) : Prop :=
  w.Good (held.1 + w.owed) ∧ ∀ i, held.2.count i = if (w.retired i).busy then 1 else 0

end World

/-- What a cache pair has. -/
def cachesStake (l : Caches) : Multiset Token := (l .self).stake + (l .adopted).stake

/-- What a thread displays. It works on a slot within an operation only. -/
def displayed (l : Caches) : Multiset Token × Multiset (Fin retiredSlotCount) := (cachesStake l, 0)

namespace Sys

open World ThreadCache

variable {α β : Type} {l : Caches} {hand hand' : Multiset Token} {k : Slot} {c : ThreadCache} {n : Nat}

/-- A run from `l` with `hand` in hand ends as `post` says. The slots in hand stay the same. -/
structure SysRuns (m : Sys α) (l : Caches) (hand : Multiset Token)
    (post : α → Caches → Multiset Token → Prop) : Prop where
  runs : ∀ slots, Runs World.Holds displayed m l (hand, slots) fun a l' h => h.2 = slots ∧ post a l' h.1

namespace SysRuns

theorem pure {a : α} {post : α → Caches → Multiset Token → Prop} (h : post a l hand) :
    SysRuns (Pure.pure a) l hand post :=
  ⟨fun _ => Runs.pure ⟨rfl, h⟩⟩

theorem bind {m : Sys α} {f : α → Sys β} {q : α → Caches → Multiset Token → Prop}
    {post : β → Caches → Multiset Token → Prop} (h : SysRuns m l hand q)
    (hf : ∀ a l' hand', q a l' hand' → SysRuns (f a) l' hand' post) :
    SysRuns (m >>= f) l hand post := by
  refine ⟨fun slots => Runs.bind (h.runs slots) ?_⟩
  rintro a l' ⟨hand', _⟩ ⟨rfl, hmid⟩
  exact (hf a l' hand' hmid).runs _

theorem mono {m : Sys α} {post post' : α → Caches → Multiset Token → Prop}
    (h : SysRuns m l hand post) (hpost : ∀ a l' hand', post a l' hand' → post' a l' hand') :
    SysRuns m l hand post' :=
  ⟨fun slots => Runs.mono (h.runs slots) fun _ _ _ hp => ⟨hp.1, hpost _ _ _ hp.2⟩⟩

theorem modify {f : Caches → Caches} (hand' : Multiset Token) {post : Unit → Caches → Multiset Token → Prop}
    (hstake : cachesStake l + hand = cachesStake (f l) + hand') (h : post () (f l) hand') :
    SysRuns (Act.modify f) l hand post :=
  ⟨fun slots => @Runs.modify _ _ _ _ _ _ displayed l (hand, slots) f (hand', slots) _ (Prod.ext hstake rfl) ⟨rfl, h⟩⟩

/-- What is in hand may be exchanged before a run. -/
theorem shift {m : Sys α} {post : α → Caches → Multiset Token → Prop}
    (hshift : ∀ (w : World) R, w.Good (hand + R) → w.Good (hand' + R)) (h : SysRuns m l hand' post) :
    SysRuns m l hand post := by
  refine ⟨fun slots => Runs.shift ?_ (h.runs slots)⟩
  rintro w ⟨frame, slots'⟩ ⟨hgood, hslots⟩
  refine ⟨?_, hslots⟩
  simp only [Prod.fst_add] at hgood ⊢
  rw [add_assoc] at hgood ⊢
  exact hshift w _ hgood

end SysRuns

/-! ### Sections -/

theorem runs_atomicOk {ok : Env → World → Bool} {run : Env → World → World × α}
    {post : α → Caches → Multiset Token → Prop}
    (h : ∀ e (w : World) R, ok e w = true → w.Good (hand + (R + w.owed)) →
      ∃ hand', Good (run e w).1 (hand' + (R + (run e w).1.owed)) ∧
        (∀ i, ((run e w).1.retired i).busy = (w.retired i).busy) ∧ post (run e w).2 l hand') :
    SysRuns (Act.atomicOk ok run) l hand post := by
  refine ⟨fun slots => Runs.atomicOk fun e w frame hok hw => ?_⟩
  obtain ⟨hgood, hslots⟩ := hw
  simp only [Prod.fst_add] at hgood
  rw [add_assoc] at hgood
  obtain ⟨hand', hgood', hbusy, hpost⟩ := h e w _ hok hgood
  refine ⟨(hand', slots), ⟨?_, fun i => ?_⟩, rfl, hpost⟩
  · simp only [Prod.fst_add]
    rw [add_assoc]
    exact hgood'
  · rw [hbusy]
    exact hslots i

theorem runs_atomic {run : Env → World → World × α} {post : α → Caches → Multiset Token → Prop}
    (h : ∀ e (w : World) R, w.Good (hand + (R + w.owed)) →
      ∃ hand', Good (run e w).1 (hand' + (R + (run e w).1.owed)) ∧
        (∀ i, ((run e w).1.retired i).busy = (w.retired i).busy) ∧ post (run e w).2 l hand') :
    SysRuns (Act.atomic run) l hand post :=
  runs_atomicOk fun e w R _ hw => h e w R hw

theorem owed_congr {w w' : World} (hlive : w'.live = w.live) (hretired : w'.retired = w.retired) :
    w'.owed = w.owed := by
  unfold owed
  rw [hlive, hretired]

/-- A section that neither the users nor the queue see. -/
theorem runs_section {run : Env → World → World × α}
    {post : α → Caches → Multiset Token → Prop}
    (h : ∀ e (w : World) R, w.Good (hand + R) → ∃ hand', Good (run e w).1 (hand' + R) ∧
      (run e w).1.live = w.live ∧ (run e w).1.retired = w.retired ∧ post (run e w).2 l hand') :
    SysRuns (Act.atomic run) l hand post := by
  refine runs_atomic fun e w R hw => ?_
  obtain ⟨hand', hgood, hlive, hretired, hpost⟩ := h e w _ hw
  refine ⟨hand', ?_, fun i => by rw [hretired], hpost⟩
  rw [owed_congr hlive hretired]
  exact hgood

theorem runs_read {β : Type} (f : World → β) :
    SysRuns (read f) l hand fun _ l' m => l' = l ∧ m = hand :=
  runs_section fun _ _ _ hw => ⟨hand, hw, rfl, rfl, rfl, rfl⟩

theorem runs_ask : SysRuns ask l hand fun _ l' m => l' = l ∧ m = hand :=
  runs_section fun _ _ _ hw => ⟨hand, hw, rfl, rfl, rfl, rfl⟩

theorem runs_own {I : World → Multiset Token × Multiset (Fin retiredSlotCount) → Prop}
    {f : ThreadCache → Sys β} {held : Multiset Token × Multiset (Fin retiredSlotCount)}
    {post : β → Caches → Multiset Token × Multiset (Fin retiredSlotCount) → Prop}
    (h : Runs I displayed (f (l k)) l held post) : Runs I displayed (cache k >>= f) l held post := h

theorem runs_cache {β : Type} {f : ThreadCache → Sys β} {post : β → Caches → Multiset Token → Prop}
    (h : SysRuns (f (l k)) l hand post) : SysRuns (cache k >>= f) l hand post :=
  ⟨fun slots => runs_own (h.runs slots)⟩

theorem cachesStake_update (l : Caches) (k : Slot) (c : ThreadCache) :
    cachesStake (Function.update l k c) + (l k).stake = cachesStake l + c.stake := by
  unfold cachesStake
  cases k with
  | self =>
      rw [Function.update_self, Function.update_of_ne (by decide)]
      ac_rfl
  | adopted =>
      rw [Function.update_self, Function.update_of_ne (by decide)]
      ac_rfl

theorem runs_put (hand' : Multiset Token) (hstake : (l k).stake + hand = c.stake + hand') :
    SysRuns (putCache k c) l hand fun _ l' m => l' = Function.update l k c ∧ m = hand' := by
  refine SysRuns.modify _ ?_ ⟨rfl, rfl⟩
  have hupdate := cachesStake_update l k c
  apply add_right_cancel (b := (l k).stake)
  rw [add_right_comm (cachesStake (Function.update l k c)), hupdate, add_right_comm, add_assoc, hstake,
    ← add_assoc]

theorem runs_put_same (hstake : c.stake = (l k).stake) :
    SysRuns (putCache k c) l hand fun _ l' m => l' = Function.update l k c ∧ m = hand :=
  runs_put _ (by rw [hstake])

theorem runs_onSmall {f : Env → SmallHeap → SmallHeap × α}
    {post : α → Caches → Multiset Token → Prop}
    (h : ∀ e (w : World) R, w.Good (hand + R) → ∃ hand', Good { w with small := (f e w.small).1 } (hand' + R) ∧
      post (f e w.small).2 l hand') : SysRuns (onSmall f) l hand post :=
  runs_section fun e w R hw => by
    obtain ⟨hand', hgood, hpost⟩ := h e w R hw
    exact ⟨hand', hgood, rfl, rfl, hpost⟩

theorem runs_onSpans {α : Type} {t : SpanTier}
    {f : Env → (Nat → Nat → Bool) → SpanHeap t → SpanHeap t × α}
    {post : α → Caches → Multiset Token → Prop}
    (h : ∀ e (w : World) R, w.Good (hand + R) → ∃ hand',
      Good (w.setSpans t (f e w.arena (w.spans t)).1) (hand' + R) ∧
        post (f e w.arena (w.spans t)).2 l hand') : SysRuns (onSpans t f) l hand post :=
  runs_section fun e w R hw => by
    obtain ⟨hand', hgood, hpost⟩ := h e w R hw
    exact ⟨hand', hgood, rfl, rfl, hpost⟩

/-- What a mapping leaves in hand. -/
def mappingToken (use : Purpose) (len : Nat) : Option Nat → Multiset Token
  | some base => {.extent ⟨base, len, use⟩ true}
  | none => 0

theorem runs_mapExtent {use : Purpose} {len : Nat}
    (hlen : 0 < len ∧ len % pageSize = 0 ∧ (use = .small → len = pageSize)) :
    SysRuns (mapExtent use len) l hand fun got l' m => l' = l ∧ m = mappingToken use len got + hand := by
  refine runs_atomicOk fun e w R hok hw => ?_
  cases hgranted : e.granted with
  | false =>
      exact ⟨hand, hw, fun _ => rfl, rfl, (zero_add _).symm⟩
  | true =>
      refine ⟨{.extent ⟨e.base, len, use⟩ true} + hand, ?_, fun _ => rfl, rfl, rfl⟩
      have hcan : w.canMap ⟨e.base, len, use⟩ = true := by simpa [hgranted] using hok
      rw [add_assoc]
      exact Good.mapExtent hw hcan hlen true

theorem runs_unmapExtent {x : Mapping} {z : Bool} :
    SysRuns (unmapExtent x) l ({.extent x z} + hand) fun _ l' m => l' = l ∧ m = hand :=
  runs_section fun e w R hw => by
    rw [add_assoc] at hw
    have htaken : (w.arena x.base x.len || e.answer) = false → w.arena x.base x.len = false :=
      fun h => (Bool.or_eq_false_iff.1 h).1
    exact ⟨hand, hw.unmapExtent htaken, rfl, rfl, rfl, rfl⟩

/-! ### Taking from the heaps -/

theorem runs_takeLocked (cls : Fin numClasses) :
    SysRuns (onSmall fun _ h => h.takeLocked cls) l hand fun f l' m =>
      l' = l ∧ f.count = f.chain.length ∧
        m = uniform (fun a => .block ⟨cls, a⟩) f.virgin f.chain + hand :=
  runs_onSmall fun _ w R hw => by
    obtain ⟨hgood, hcount⟩ := hw.takeSmall cls (w.small.takeLocked cls).2.virgin
    rw [← add_assoc] at hgood
    exact ⟨_, hgood, rfl, hcount, rfl⟩

theorem runs_takeSmall (cls : Fin numClasses) :
    SysRuns (takeSmall cls) l hand fun f l' m =>
      l' = l ∧ f.count = f.chain.length ∧
        m = uniform (fun a => .block ⟨cls, a⟩) f.virgin f.chain + hand := by
  refine SysRuns.bind (runs_takeLocked cls) ?_
  rintro f l m ⟨rfl, hcount, rfl⟩
  split
  · exact SysRuns.pure ⟨rfl, hcount, rfl⟩
  · rename_i hzero
    rw [not_not] at hzero
    have hnil : f.chain = [] := List.length_eq_zero_iff.1 (hcount.symm.trans hzero)
    rw [hnil, uniform_nil, zero_add]
    refine SysRuns.bind (runs_mapExtent ⟨by decide, by decide, fun _ => rfl⟩) ?_
    rintro got l m ⟨rfl, rfl⟩
    cases got with
    | none =>
        exact SysRuns.pure ⟨rfl, hzero, rfl⟩
    | some raw =>
        refine runs_onSmall fun _ w R hw => ?_
        have hw' : w.Good ({.extent ⟨raw, pageSize, .small⟩ true} + (hand + R)) := by
          rw [← add_assoc]
          exact hw
        obtain ⟨hgood, hcount'⟩ := Good.takeMapped cls (w.small.takeMapped cls raw f).2.virgin hw' hzero hnil
        rw [← add_assoc] at hgood
        exact ⟨_, hgood, rfl, hcount', rfl⟩

variable {t : SpanTier}

theorem runs_takeSpansLocked (cls : Fin t.num) :
    SysRuns (onSpans t fun _ arena h => h.takeLocked arena cls) l hand fun f l' m =>
      l' = l ∧ f.count = f.chain.length ∧
        m = uniform (fun a => .span t ⟨cls, a, none⟩) f.virgin f.chain + hand :=
  runs_onSpans fun _ w R hw => by
    obtain ⟨hgood, hcount⟩ := hw.takeSpans cls ((w.spans t).takeLocked w.arena cls).2.virgin
    rw [← add_assoc] at hgood
    exact ⟨_, hgood, rfl, hcount, rfl⟩

theorem spanPages_pos (cls : Fin t.num) : 0 < t.spanPages cls := by
  revert cls
  cases t <;> decide +kernel

theorem runs_takeSpans (cls : Fin t.num) :
    SysRuns (takeSpans t cls) l hand fun f l' m =>
      l' = l ∧ f.count = f.chain.length ∧
        m = uniform (fun a => .span t ⟨cls, a, none⟩) f.virgin f.chain + hand := by
  refine SysRuns.bind (runs_takeSpansLocked cls) ?_
  rintro f l m ⟨rfl, hcount, rfl⟩
  split
  · exact SysRuns.pure ⟨rfl, hcount, rfl⟩
  · rename_i hzero
    rw [not_not] at hzero
    have hnil : f.chain = [] := List.length_eq_zero_iff.1 (hcount.symm.trans hzero)
    rw [hnil, uniform_nil, zero_add]
    have hpages := Nat.mul_pos (spanPages_pos cls) (by decide : 0 < pageSize)
    refine SysRuns.bind (runs_mapExtent ⟨hpages, Nat.mul_mod_left _ _, fun h => by cases h⟩) ?_
    rintro got l m ⟨rfl, rfl⟩
    cases got with
    | none =>
        exact SysRuns.pure ⟨rfl, hzero, rfl⟩
    | some raw =>
        refine runs_onSpans fun _ w R hw => ?_
        have hw' : w.Good ({.extent ⟨raw, t.spanPages cls * pageSize, .span t⟩ true} + (hand + R)) := by
          rw [← add_assoc]
          exact hw
        obtain ⟨hgood, hcount'⟩ := Good.takeMappedSpans cls
          (((w.spans t).carveMapped w.arena cls raw).takeMapped cls raw f).2.virgin hw' hzero hnil
        rw [← add_assoc] at hgood
        exact ⟨_, hgood, rfl, hcount', rfl⟩

/-! ### Giving back to the heaps -/

theorem runs_actFates {use : Purpose} {fates : List (Nat × Fate)} :
    SysRuns (actFates use fates) l (fateTokens use fates + hand) fun _ l' m => l' = l ∧ m = hand := by
  unfold actFates
  induction fates generalizing hand with
  | nil => exact SysRuns.pure ⟨rfl, zero_add _⟩
  | cons x rest ih =>
      obtain ⟨p, fate⟩ := x
      refine SysRuns.bind (q := fun _ l' m => l' = l ∧ m = fateTokens use rest + hand) ?_ ?_
      · rw [fateTokens_cons, add_assoc]
        cases fate with
        | unmap bytes => exact runs_unmapExtent
        | _ => exact SysRuns.pure ⟨rfl, zero_add _⟩
      · rintro _ l m ⟨rfl, rfl⟩
        exact ih

theorem batches_flatten {α : Type} (n : Nat) (xs : List α) (h : xs.length ≤ n) :
    (batches n xs).flatten = xs := by
  induction n generalizing xs with
  | zero =>
      cases xs with
      | nil => rfl
      | cons x xs => exact absurd h (by simp)
  | succ n ih =>
      cases xs with
      | nil => rfl
      | cons x xs =>
          rw [batches, List.flatten_cons, ih, List.take_append_drop]
          have hpos : 0 < releaseBatchLen := by decide
          simp only [List.length_drop, List.length_cons] at h ⊢
          omega

theorem mem_batches {α : Type} {n : Nat} {xs batch : List α} {x : α} (hbatch : batch ∈ batches n xs)
    (hx : x ∈ batch) : x ∈ xs := by
  induction n generalizing xs with
  | zero => exact absurd hbatch List.not_mem_nil
  | succ n ih =>
      cases xs with
      | nil => exact absurd hbatch List.not_mem_nil
      | cons y xs =>
          rcases List.mem_cons.1 hbatch with rfl | hbatch
          · exact List.mem_of_mem_take hx
          · exact List.mem_of_mem_drop (ih hbatch)

theorem chunkBlocks_append (cls : Fin numClasses) (xs ys : List PageReleaseChunk) :
    SmallHeap.chunkBlocks cls (xs ++ ys)
      = SmallHeap.chunkBlocks cls xs + SmallHeap.chunkBlocks cls ys := by
  simp [SmallHeap.chunkBlocks]

theorem runs_releaseBatch {cls : Fin numClasses} {chunks : List PageReleaseChunk}
    (hchunks : ∀ x ∈ chunks, SmallHeap.Chunk cls x) :
    SysRuns (do
      let fates ← onSmall fun e h => SmallHeap.releaseBatch cls h e.discards chunks
      actFates .small fates) l (blockTokens (SmallHeap.chunkBlocks cls chunks) + hand)
      fun _ l' m => l' = l ∧ m = hand := by
  have hsection : SysRuns (onSmall fun e h => SmallHeap.releaseBatch cls h e.discards chunks) l
      (blockTokens (SmallHeap.chunkBlocks cls chunks) + hand)
      fun fates l' m => l' = l ∧ m = fateTokens .small fates + hand :=
    runs_onSmall fun e w R hw => by
      rw [add_assoc] at hw
      have hgood := hw.releaseBatch hchunks e.discards
      rw [← add_assoc] at hgood
      exact ⟨_, hgood, rfl, rfl⟩
  refine SysRuns.bind hsection ?_
  rintro fates l m ⟨rfl, rfl⟩
  exact runs_actFates

theorem runs_releaseMany {cls : Fin numClasses} {chunks : List PageReleaseChunk}
    (hchunks : ∀ x ∈ chunks, SmallHeap.Chunk cls x) :
    SysRuns (releaseMany cls chunks) l (blockTokens (SmallHeap.chunkBlocks cls chunks) + hand)
      fun _ l' m => l' = l ∧ m = hand := by
  have hall : ∀ batch ∈ batches chunks.length chunks, ∀ x ∈ batch, SmallHeap.Chunk cls x :=
    fun batch hbatch x hx => hchunks x (mem_batches hbatch hx)
  have hflat := batches_flatten chunks.length chunks le_rfl
  unfold releaseMany
  generalize batches chunks.length chunks = bs at hall hflat
  subst hflat
  clear hchunks
  induction bs generalizing hand with
  | nil => exact SysRuns.pure ⟨rfl, zero_add _⟩
  | cons batch rest ih =>
      rw [List.flatten_cons, chunkBlocks_append, blockTokens_add, add_assoc]
      refine SysRuns.bind (runs_releaseBatch (hall batch (List.mem_cons_self ..))) ?_
      rintro _ l m ⟨rfl, rfl⟩
      exact ih fun b hb => hall b (List.mem_cons_of_mem _ hb)

theorem runs_releaseOne {cls : Fin numClasses} {p : Nat} {z : Bool} :
    SysRuns (releaseOne p) l ({.block ⟨cls, p⟩ z} + hand) fun _ l' m => l' = l ∧ m = hand := by
  have hsection : SysRuns (onSmall fun e h =>
      h.releaseInner (h.header (pageOf p)).cls (e.discards 0) ⟨pageOf p, [p], p, 1⟩) l
      ({.block ⟨cls, p⟩ z} + hand)
      fun fate l' m => l' = l ∧ m = fateTokens .small [(pageOf p, fate)] + hand :=
    runs_onSmall fun e w R hw => by
      rw [add_assoc] at hw
      have hgood := hw.releaseOne (e.discards 0)
      dsimp only at hgood
      rw [← add_assoc] at hgood
      exact ⟨_, hgood, rfl, rfl⟩
  refine SysRuns.bind hsection ?_
  rintro fate l m ⟨rfl, rfl⟩
  exact runs_actFates

theorem runs_releaseSpan {cls : Fin t.num} {x : ReleaseChunk} (hx : SpanHeap.Chunk x) :
    SysRuns (releaseSpan t cls x) l (spanTokens t (SpanHeap.chunkBlocks cls x) + hand)
      fun _ l' m => l' = l ∧ m = hand := by
  have hsection : SysRuns (onSpans t fun e arena h =>
      h.releaseInner arena (if t = .big then (h.master x.span).cls else cls) (e.discards 0) x) l
      (spanTokens t (SpanHeap.chunkBlocks cls x) + hand)
      fun fate l' m => l' = l ∧ m = fateTokens (.span t) [(x.span, fate)] + hand :=
    runs_onSpans fun e w R hw => by
      rw [add_assoc] at hw
      have hgood := hw.releaseSpan hx (e.discards 0)
      dsimp only at hgood
      rw [← add_assoc] at hgood
      exact ⟨_, hgood, rfl, rfl⟩
  refine SysRuns.bind hsection ?_
  rintro fate l m ⟨rfl, rfl⟩
  exact runs_actFates

theorem runs_releaseGroups {cls : Fin t.num} {groups : List ReleaseChunk}
    (hgroups : ∀ x ∈ groups, SpanHeap.Chunk x) :
    SysRuns (releaseGroups t cls groups) l (spanTokens t (groupBlocks cls groups) + hand)
      fun _ l' m => l' = l ∧ m = hand := by
  cases t with
  | medium =>
      have hsection : SysRuns (onSpans .medium fun e arena h =>
          SpanHeap.releaseBatch arena cls h e.discards groups) l
          (spanTokens .medium (groupBlocks cls groups) + hand)
          fun fates l' m => l' = l ∧ m = fateTokens (.span .medium) fates + hand :=
        runs_onSpans fun e w R hw => by
          rw [add_assoc] at hw
          have hgood := hw.releaseGroups hgroups e.discards
          rw [← add_assoc] at hgood
          exact ⟨_, hgood, rfl, rfl⟩
      refine SysRuns.bind hsection ?_
      rintro fates l m ⟨rfl, rfl⟩
      exact runs_actFates
  | big =>
      unfold releaseGroups
      induction groups generalizing hand with
      | nil => exact SysRuns.pure ⟨rfl, zero_add _⟩
      | cons x rest ih =>
          have hsplit : groupBlocks cls (x :: rest)
              = SpanHeap.chunkBlocks cls x + groupBlocks cls rest := rfl
          rw [hsplit, spanTokens_add, add_assoc]
          refine SysRuns.bind (runs_releaseSpan (hgroups x (List.mem_cons_self ..))) ?_
          rintro _ l m ⟨rfl, rfl⟩
          exact ih fun y hy => hgroups y (List.mem_cons_of_mem _ hy)

/-- Whoever looks the span of a block up may take it to be at home there. -/
theorem runs_spanOf {cls : Fin t.num} {b : Nat} {home : Option Nat} {z : Bool} (z' : Bool) :
    SysRuns (spanOf t b) l ({.span t ⟨cls, b, home⟩ z} + hand)
      fun s l' m => l' = l ∧ m = {.span t ⟨cls, b, some s⟩ z'} + hand :=
  runs_onSpans fun e w R hw => by
    rw [add_assoc] at hw
    have hgood := @Good.rehome _ _ _ cls b home (some ((w.spans t).masterOf b)) z z' hw
      fun _ s hs => (Option.some.inj hs).symm
    rw [← add_assoc] at hgood
    rw [setSpans_self]
    exact ⟨_, hgood, rfl, rfl⟩

end Sys

end Allox
