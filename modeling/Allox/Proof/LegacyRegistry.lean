import Allox.LegacyRegistry
import Allox.Lib.Threaded
import Allox.Proof.FreeCheck

/-!
# The chains of the registry

Each bucket's chain has the live headers of the bucket and ends in a null, so it has no cycle. A store
to one link leaves the others alone, since headers are apart: linking puts a cell in front, and
unlinking lets the head or the cell before point past the cell. The count is one ahead for each pending
header, so it is never zero while a header is live.
-/

namespace Allox

open LegacyRegistry (nextOffset)

theorem legacyBucket_lt (hdr : Nat) : legacyBucket hdr < largeRegistryBuckets := by
  unfold legacyBucket
  exact Nat.lt_of_le_of_lt Nat.and_le_right (by decide)

theorem HeadersApart.ne {hdr x : Nat} (h : HeadersApart hdr x) : hdr ≠ x := by
  have hsize : largeHeaderSize = 48 := rfl
  rcases h with hle | hle <;> omega

theorem HeadersApart.symm {hdr x : Nat} (h : HeadersApart hdr x) : HeadersApart x hdr := Or.symm h

namespace LegacyRegistry

variable {s s' : LegacyRegistry} {hdr x current previous next expected n k p : Nat}
  {live pending : Finset Nat} {chain : Nat → List Nat} {cells front rest : List Nat}

/-! ### The walks -/

/-- More rounds change nothing. -/
theorem unlinkFrom_mono (h : s.unlinkFrom hdr n previous current = some s') (hle : n ≤ k) :
    s.unlinkFrom hdr k previous current = some s' := by
  induction n generalizing k previous current with
  | zero => cases h
  | succ n ih =>
      obtain ⟨k, rfl⟩ := Nat.exists_eq_succ_of_ne_zero (Nat.ne_of_gt (Nat.lt_of_lt_of_le n.succ_pos hle))
      unfold unlinkFrom at h ⊢
      split at h
      case isTrue hnull => rw [if_pos hnull, h]
      case isFalse hnull =>
        rw [if_neg hnull]
        split at h
        case isTrue hfound => rw [if_pos hfound, h]
        case isFalse hfound =>
          rw [if_neg hfound]
          cases hnext : s.registryNext current with
          | none => simp [hnext] at h
          | some next =>
              simp only [hnext, Option.bind_eq_bind, Option.bind_some] at h ⊢
              exact ih h (Nat.le_of_succ_le_succ hle)

/-- A header that is not in the chain is not found, and nothing changes. -/
theorem unlinkFrom_of_notMem (h : Threaded s.registryNext 0 current cells) (hmem : hdr ∉ cells)
    (hrounds : cells.length < n) : s.unlinkFrom hdr n previous current = some s := by
  induction cells generalizing n previous current with
  | nil =>
      obtain ⟨n, rfl⟩ := Nat.exists_eq_succ_of_ne_zero (Nat.ne_of_gt hrounds)
      have hnull : current = 0 := h
      rw [unlinkFrom, if_pos hnull]
  | cons b rest ih =>
      obtain ⟨rfl, hne, after, hnext, hrest⟩ := h
      obtain ⟨hother, htail⟩ := not_or.1 <| List.mem_cons.not.1 hmem
      obtain ⟨n, rfl⟩ := Nat.exists_eq_succ_of_ne_zero (Nat.ne_of_gt (Nat.zero_lt_of_lt hrounds))
      rw [unlinkFrom, if_neg hne, if_neg (Ne.symm hother), hnext]
      exact ih hrest htail (Nat.lt_of_succ_lt_succ hrounds)

/-- A header in the chain is unlinked from the cell before it. -/
theorem unlinkFrom_of_mem (h : Threaded s.registryNext 0 current (front ++ hdr :: rest))
    (hfront : hdr ∉ front) (hrounds : front.length < n) :
    s.unlinkFrom hdr n previous current
      = some (s.unlink hdr (front.getLastD previous) (rest.headD 0)) := by
  induction front generalizing n previous current with
  | nil =>
      obtain ⟨rfl, hne, after, hnext, hrest⟩ := h
      obtain ⟨n, rfl⟩ := Nat.exists_eq_succ_of_ne_zero (Nat.ne_of_gt hrounds)
      rw [unlinkFrom, if_neg hne, if_pos rfl, hnext, ← hrest.head_eq]
      rfl
  | cons b front ih =>
      obtain ⟨rfl, hne, after, hnext, hrest⟩ := h
      obtain ⟨hother, htail⟩ := not_or.1 <| List.mem_cons.not.1 hfront
      obtain ⟨n, rfl⟩ := Nat.exists_eq_succ_of_ne_zero (Nat.ne_of_gt (Nat.zero_lt_of_lt hrounds))
      rw [unlinkFrom, if_neg hne, if_neg (Ne.symm hother), hnext, List.getLastD_cons]
      exact ih hrest htail (Nat.lt_of_succ_lt_succ hrounds)

/-- A lookup that walks the whole chain finds its cells and nothing else. -/
theorem findFrom_eq (h : Threaded s.registryNext 0 current cells) (hrounds : cells.length < n) :
    s.findFrom expected n current = some (decide (expected ∈ cells)) := by
  induction cells generalizing n current with
  | nil =>
      obtain ⟨n, rfl⟩ := Nat.exists_eq_succ_of_ne_zero (Nat.ne_of_gt hrounds)
      have hnull : current = 0 := h
      rw [findFrom, if_pos hnull]
      rfl
  | cons b rest ih =>
      obtain ⟨rfl, hne, after, hnext, hrest⟩ := h
      obtain ⟨n, rfl⟩ := Nat.exists_eq_succ_of_ne_zero (Nat.ne_of_gt (Nat.zero_lt_of_lt hrounds))
      rw [findFrom, if_neg hne]
      by_cases hfound : current = expected
      · simp [hfound]
      · have hother : expected ≠ current := Ne.symm hfound
        rw [if_neg hfound, hnext]
        simp only [Option.bind_eq_bind, Option.bind_some, ih hrest (Nat.lt_of_succ_lt_succ hrounds),
          List.mem_cons, hother, false_or]

/-! ### Links -/

theorem registryNext_congr
    (h : ∀ i < 8, s'.mem (hdr + nextOffset + i) = s.mem (hdr + nextOffset + i)) :
    s'.registryNext hdr = s.registryNext hdr :=
  ByteMemory.load_congr h

theorem registryNext_set_same (h : next < usizeLimit) :
    (s.setRegistryNext hdr next).registryNext hdr = some next := by
  have hlimit : usizeLimit = 256 ^ 8 := by decide
  exact ByteMemory.load_store_same (hlimit ▸ h)

/-- A store to one link leaves the link of another header alone. -/
theorem registryNext_set_other (h : HeadersApart hdr x) :
    (s.setRegistryNext hdr next).registryNext x = s.registryNext x := by
  have hsize : largeHeaderSize = 48 := rfl
  unfold HeadersApart at h
  apply ByteMemory.load_store_other
  omega

theorem registryNext_of_mem_eq (h : s'.mem = s.mem) : s'.registryNext = s.registryNext := by
  funext x
  unfold registryNext
  rw [h]

theorem unlink_mem (h : previous ≠ 0) :
    (s.unlink hdr previous next).mem = (s.setRegistryNext previous next).mem := by
  unfold unlink
  rw [if_neg h]

theorem unlink_heads (h : previous ≠ 0) : (s.unlink hdr previous next).heads = s.heads := by
  unfold unlink
  rw [if_neg h]
  rfl

/-! ### The invariant -/

/-- `chain` has the cells of every bucket. -/
structure Sound (s : LegacyRegistry) (live pending : Finset Nat) (chain : Nat → List Nat) :
    Prop where
  threaded : ∀ bucket, Threaded s.registryNext 0 (s.heads bucket) (chain bucket)
  mem_chain : ∀ bucket hdr, hdr ∈ chain bucket ↔ hdr ∈ live ∧ legacyBucket hdr = bucket
  header : ∀ hdr ∈ live ∪ pending, HeaderAt hdr
  apart : ∀ hdr ∈ live ∪ pending, ∀ x ∈ live ∪ pending, hdr ≠ x → HeadersApart hdr x
  disjoint : Disjoint live pending
  len : s.len = live.card + pending.card

/-- Headers are different addresses other than zero, so a counter of them cannot wrap. -/
theorem card_lt_usizeLimit {headers : Finset Nat} (h : ∀ hdr ∈ headers, HeaderAt hdr) :
    headers.card < usizeLimit := by
  have hsize : largeHeaderSize = 48 := rfl
  have hpos : 0 < usizeLimit := Nat.two_pow_pos 64
  have hsubset : headers ⊆ Finset.Ico 1 usizeLimit := by
    intro hdr hmem
    have hend := (h hdr hmem).end_le
    rw [Finset.mem_Ico]
    exact ⟨(h hdr hmem).pos, by omega⟩
  have hcard := Finset.card_le_card hsubset
  rw [Nat.card_Ico] at hcard
  omega

namespace Sound

theorem live_apart (h : Sound s live pending chain) (hhdr : hdr ∈ live ∪ pending) (hx : x ∈ live)
    (hne : hdr ≠ x) : HeadersApart hdr x :=
  h.apart hdr hhdr x (Finset.mem_union_left _ hx) hne

theorem mem_live (h : Sound s live pending chain) {bucket : Nat} (hmem : hdr ∈ chain bucket) :
    hdr ∈ live :=
  ((h.mem_chain bucket hdr).1 hmem).1

theorem card_union (h : Sound s live pending chain) :
    (live ∪ pending).card = live.card + pending.card :=
  Finset.card_union_of_disjoint h.disjoint

theorem nodup (h : Sound s live pending chain) (bucket : Nat) : (chain bucket).Nodup :=
  (h.threaded bucket).nodup

theorem toFinset_chain (h : Sound s live pending chain) (bucket : Nat) :
    (chain bucket).toFinset = live.filter fun hdr => legacyBucket hdr = bucket := by
  ext hdr
  rw [List.mem_toFinset, h.mem_chain, Finset.mem_filter]

theorem length_chain (h : Sound s live pending chain) (bucket : Nat) :
    (chain bucket).length = (live.filter fun hdr => legacyBucket hdr = bucket).card := by
  rw [← h.toFinset_chain, List.toFinset_card_of_nodup (h.nodup bucket)]

theorem length_chain_le (h : Sound s live pending chain) (bucket : Nat) :
    (chain bucket).length ≤ live.card := by
  rw [h.length_chain]
  exact Finset.card_filter_le _ _

/-- The buckets share the live headers out. -/
theorem sum_length (h : Sound s live pending chain) :
    ∑ bucket ∈ Finset.range largeRegistryBuckets, (chain bucket).length = live.card := by
  rw [Finset.card_eq_sum_card_fiberwise fun hdr _ =>
    Finset.mem_coe.2 (Finset.mem_range.2 (legacyBucket_lt hdr))]
  exact Finset.sum_congr rfl fun bucket _ => h.length_chain bucket

theorem headD_lt (h : Sound s live pending chain) (hcells : ∀ hdr ∈ cells, hdr ∈ live) :
    cells.headD 0 < usizeLimit := by
  cases cells with
  | nil => exact Nat.two_pow_pos 64
  | cons hdr rest =>
      have hend := (h.header hdr (Finset.mem_union_left _ (hcells hdr List.mem_cons_self))).end_le
      have hsize : largeHeaderSize = 48 := rfl
      rw [List.headD_cons]
      omega

/-! ### Steps -/

theorem empty (mem : ByteMemory) : Sound ⟨mem, fun _ => 0, 0⟩ ∅ ∅ fun _ => [] where
  threaded := fun _ => rfl
  mem_chain := by simp
  header := by simp
  apart := by simp
  disjoint := Finset.disjoint_empty_left _
  len := rfl

theorem write (h : Sound s live pending chain) (mem : ByteMemory)
    (hlinks : ∀ hdr ∈ live, ∀ i < 8, mem (hdr + nextOffset + i) = s.mem (hdr + nextOffset + i)) :
    Sound { s with mem } live pending chain :=
  { h with
    threaded := fun bucket => (h.threaded bucket).congr fun hdr hmem =>
      registryNext_congr (hlinks hdr (h.mem_live hmem)) }

/-- Writing a header is a write off the links of the live ones. -/
theorem initHeader (h : Sound s live pending chain) {base mapped requested : Nat}
    (hapart : ∀ x ∈ live ∪ pending, HeadersApart hdr x) :
    Sound (s.initHeader hdr base mapped requested) live pending chain := by
  have hsize : largeHeaderSize = 48 := rfl
  have hoffset : nextOffset = 32 := rfl
  apply h.write
  intro x hx i hi
  have hlies := hapart x (Finset.mem_union_left _ hx)
  unfold HeadersApart at hlies
  apply LegacyRegion.initLargeHeader_other
  omega

theorem count (h : Sound s live pending chain) (hheader : HeaderAt hdr)
    (hapart : ∀ x ∈ live ∪ pending, HeadersApart hdr x) :
    Sound s.count live (insert hdr pending) chain := by
  have hfresh : hdr ∉ live ∪ pending := fun hmem => (hapart hdr hmem).ne rfl
  obtain ⟨hlive, hpending⟩ := Finset.notMem_union.1 hfresh
  have hheaders : ∀ x ∈ insert hdr (live ∪ pending), HeaderAt x := by
    intro x hx
    rcases Finset.mem_insert.1 hx with rfl | hx
    · exact hheader
    · exact h.header x hx
  have hbound := card_lt_usizeLimit hheaders
  rw [Finset.card_insert_of_notMem hfresh, h.card_union] at hbound
  constructor
  · exact h.threaded
  · exact h.mem_chain
  · rw [Finset.union_insert]
    exact hheaders
  · rw [Finset.union_insert]
    intro x hx y hy hne
    rcases Finset.mem_insert.1 hx with rfl | hxold
    · exact hapart y (Finset.mem_of_mem_insert_of_ne hy hne.symm)
    · rcases Finset.mem_insert.1 hy with rfl | hyold
      · exact (hapart x hxold).symm
      · exact h.apart x hxold y hyold hne
  · exact Finset.disjoint_insert_right.2 ⟨hlive, h.disjoint⟩
  · change (s.len + 1) % usizeLimit = _
    rw [h.len, Nat.mod_eq_of_lt hbound, Finset.card_insert_of_notMem hpending, Nat.add_assoc]

theorem insert_union_erase (hpending : hdr ∈ pending) :
    insert hdr live ∪ pending.erase hdr = live ∪ pending := by
  rw [Finset.insert_union, ← Finset.union_insert, Finset.insert_erase hpending]

theorem link (h : Sound s live pending chain) (hpending : hdr ∈ pending) :
    Sound (s.link hdr) (insert hdr live) (pending.erase hdr)
      (Function.update chain (legacyBucket hdr) (hdr :: chain (legacyBucket hdr))) := by
  have hunion : hdr ∈ live ∪ pending := Finset.mem_union_right _ hpending
  have hfresh : hdr ∉ live := Finset.disjoint_right.1 h.disjoint hpending
  have hhead : s.heads (legacyBucket hdr) < usizeLimit := by
    rw [(h.threaded (legacyBucket hdr)).head_eq]
    exact h.headD_lt fun x hx => h.mem_live hx
  have hothers : ∀ bucket, ∀ x ∈ chain bucket,
      (s.link hdr).registryNext x = s.registryNext x := by
    intro bucket x hx
    apply registryNext_set_other
    exact h.live_apart hunion (h.mem_live hx) fun heq => hfresh (heq ▸ h.mem_live hx)
  constructor
  · intro bucket
    by_cases hbucket : bucket = legacyBucket hdr
    · subst hbucket
      rw [Function.update_self]
      change Threaded _ 0 (Function.update s.heads (legacyBucket hdr) hdr (legacyBucket hdr)) _
      rw [Function.update_self]
      exact (h.threaded _).push (Nat.ne_of_gt (h.header hdr hunion).pos)
        (registryNext_set_same hhead) (hothers _)
    · rw [Function.update_of_ne hbucket]
      change Threaded _ 0 (Function.update s.heads (legacyBucket hdr) hdr bucket) _
      rw [Function.update_of_ne hbucket]
      exact (h.threaded bucket).congr (hothers bucket)
  · intro bucket x
    by_cases hbucket : bucket = legacyBucket hdr
    · subst hbucket
      rw [Function.update_self, List.mem_cons, h.mem_chain, Finset.mem_insert]
      constructor
      · rintro (rfl | ⟨hx, heq⟩)
        · exact ⟨.inl rfl, rfl⟩
        · exact ⟨.inr hx, heq⟩
      · rintro ⟨rfl | hx, heq⟩
        · exact .inl rfl
        · exact .inr ⟨hx, heq⟩
    · rw [Function.update_of_ne hbucket, h.mem_chain, Finset.mem_insert]
      constructor
      · rintro ⟨hx, heq⟩
        exact ⟨.inr hx, heq⟩
      · rintro ⟨rfl | hx, heq⟩
        · exact absurd heq.symm hbucket
        · exact ⟨hx, heq⟩
  · rw [insert_union_erase hpending]
    exact h.header
  · rw [insert_union_erase hpending]
    exact h.apart
  · rw [Finset.disjoint_insert_left]
    exact ⟨Finset.notMem_erase _ _, h.disjoint.mono_right (Finset.erase_subset _ _)⟩
  · change s.len = _
    have hpos := Finset.card_pos.2 ⟨hdr, hpending⟩
    rw [h.len, Finset.card_insert_of_notMem hfresh, Finset.card_erase_of_mem hpending]
    omega

theorem erase_chain_of_ne (h : Sound s live pending chain) {bucket : Nat}
    (hne : bucket ≠ legacyBucket hdr) : (chain bucket).erase hdr = chain bucket :=
  List.erase_of_not_mem fun hmem => hne ((h.mem_chain bucket hdr).1 hmem).2.symm

theorem notMem_front (h : Sound s live pending chain)
    (hchain : chain (legacyBucket hdr) = front ++ hdr :: rest) : hdr ∉ front := by
  have hnodup := h.nodup (legacyBucket hdr)
  rw [hchain, List.nodup_append] at hnodup
  intro hmem
  exact hnodup.2.2 hdr hmem hdr List.mem_cons_self rfl

theorem erase_chain (h : Sound s live pending chain)
    (hchain : chain (legacyBucket hdr) = front ++ hdr :: rest) :
    (chain (legacyBucket hdr)).erase hdr = front ++ rest := by
  rw [hchain, List.erase_append_right _ (h.notMem_front hchain), List.erase_cons_head]

/-- The head of its bucket is unlinked: the bucket starts at the next cell, and memory stays. -/
theorem threaded_unlink_head (h : Sound s live pending chain)
    (hchain : chain (legacyBucket hdr) = hdr :: rest) (bucket : Nat) :
    Threaded (s.unlink hdr 0 (rest.headD 0)).registryNext 0
      ((s.unlink hdr 0 (rest.headD 0)).heads bucket) ((chain bucket).erase hdr) := by
  change Threaded s.registryNext 0
    (Function.update s.heads (legacyBucket hdr) (rest.headD 0) bucket) _
  by_cases hbucket : bucket = legacyBucket hdr
  · have hthread := h.threaded (legacyBucket hdr)
    rw [hchain] at hthread
    obtain ⟨-, -, after, -, hrest⟩ := hthread
    have hhead : chain (legacyBucket hdr) = [] ++ hdr :: rest := hchain
    rw [hbucket, h.erase_chain hhead, Function.update_self, ← hrest.head_eq]
    exact hrest
  · rw [h.erase_chain_of_ne hbucket, Function.update_of_ne hbucket]
    exact h.threaded bucket

/-- A cell behind another one is unlinked: that one points past it, and the heads stay. -/
theorem threaded_unlink_behind (h : Sound s live pending chain)
    (hchain : chain (legacyBucket hdr) = front ++ previous :: hdr :: rest) (bucket : Nat) :
    Threaded (s.unlink hdr previous (rest.headD 0)).registryNext 0
      ((s.unlink hdr previous (rest.headD 0)).heads bucket) ((chain bucket).erase hdr) := by
  have hmem : ∀ x ∈ front ++ previous :: hdr :: rest, x ∈ chain (legacyBucket hdr) := by
    rw [hchain]
    exact fun x hx => hx
  have hprevious := hmem previous (by simp)
  have hunion : previous ∈ live ∪ pending := Finset.mem_union_left _ (h.mem_live hprevious)
  have hothers : ∀ x ∈ live, x ≠ previous →
      (s.setRegistryNext previous (rest.headD 0)).registryNext x = s.registryNext x := by
    intro x hx hne
    exact registryNext_set_other (h.live_apart hunion hx hne.symm)
  have hpos : previous ≠ 0 := Nat.ne_of_gt (h.header previous hunion).pos
  rw [registryNext_of_mem_eq (unlink_mem hpos), unlink_heads hpos]
  by_cases hbucket : bucket = legacyBucket hdr
  · subst hbucket
    have hthread := h.threaded (legacyBucket hdr)
    have hnodup := h.nodup (legacyBucket hdr)
    have hsplit : front ++ previous :: hdr :: rest = (front ++ [previous]) ++ hdr :: rest := by simp
    rw [h.erase_chain (hchain.trans hsplit), List.append_assoc, List.singleton_append]
    rw [hchain] at hthread hnodup
    rw [hsplit] at hthread
    obtain ⟨-, -, after, hnext, hrest⟩ := hthread.suffix
    rw [← hsplit] at hthread
    have hlt : rest.headD 0 < usizeLimit :=
      h.headD_lt fun x hx => h.mem_live (hmem x (by simp [hx]))
    apply hthread.bypass (hnext.trans (congrArg some hrest.head_eq)) (registryNext_set_same hlt)
    intro x hx
    apply hothers x (h.mem_live (hmem x ?_))
    · rintro rfl
      rw [List.nodup_append] at hnodup
      simp only [List.nodup_cons, List.mem_cons, not_or] at hnodup
      rcases List.mem_append.1 hx with hx | hx
      · exact hnodup.2.2 x hx x (.inl rfl) rfl
      · exact hnodup.2.1.1.2 hx
    · rcases List.mem_append.1 hx with hx | hx <;> simp [hx]
  · rw [h.erase_chain_of_ne hbucket]
    apply (h.threaded bucket).congr
    intro x hx
    apply hothers x (h.mem_live hx)
    rintro rfl
    exact hbucket (((h.mem_chain bucket x).1 hx).2.symm.trans ((h.mem_chain _ x).1 hprevious).2)

/-- Whatever cell is unlinked, the others stay chained, and the count goes down by one. -/
theorem unlink (h : Sound s live pending chain)
    (hchain : chain (legacyBucket hdr) = front ++ hdr :: rest) :
    Sound (s.unlink hdr (front.getLastD 0) (rest.headD 0)) (live.erase hdr) pending
      fun bucket => (chain bucket).erase hdr := by
  have hmem : hdr ∈ chain (legacyBucket hdr) := by simp [hchain]
  have hlive : hdr ∈ live := h.mem_live hmem
  have hunion : live.erase hdr ∪ pending ⊆ live ∪ pending :=
    Finset.union_subset_union_left (Finset.erase_subset _ _)
  constructor
  · intro bucket
    rcases List.eq_nil_or_concat front with rfl | ⟨front, previous, rfl⟩
    · exact h.threaded_unlink_head hchain bucket
    · rw [List.concat_eq_append] at hchain ⊢
      rw [List.append_assoc, List.singleton_append] at hchain
      rw [List.getLastD_concat]
      exact h.threaded_unlink_behind hchain bucket
  · intro bucket x
    rw [(h.nodup bucket).mem_erase_iff, h.mem_chain, Finset.mem_erase, and_assoc]
  · exact fun x hx => h.header x (hunion hx)
  · exact fun x hx y hy => h.apart x (hunion hx) y (hunion hy)
  · exact h.disjoint.mono_left (Finset.erase_subset _ _)
  · have hlen : (s.unlink hdr (front.getLastD 0) (rest.headD 0)).len
        = (s.len + usizeLimit - 1) % usizeLimit := by
      unfold LegacyRegistry.unlink
      split <;> rfl
    have hpos := Finset.card_pos.2 ⟨hdr, hlive⟩
    have hbound := card_lt_usizeLimit h.header
    rw [h.card_union] at hbound
    rw [hlen, h.len, Finset.card_erase_of_mem hlive,
      show live.card + pending.card + usizeLimit - 1
        = live.card - 1 + pending.card + usizeLimit by omega, Nat.add_mod_right]
    exact Nat.mod_eq_of_lt (by omega)

/-- Unregistering ends, and takes out the one header if it was there. -/
theorem unregister (h : Sound s live pending chain) (hdr : Nat)
    (hrounds : (chain (legacyBucket hdr)).length < n) :
    ∃ s', s.unregisterLegacyLarge n hdr = some s' ∧
      Sound s' (live.erase hdr) pending fun bucket => (chain bucket).erase hdr := by
  have hthread := h.threaded (legacyBucket hdr)
  by_cases hmem : hdr ∈ chain (legacyBucket hdr)
  · obtain ⟨front, rest, hchain⟩ := List.append_of_mem hmem
    rw [hchain] at hthread
    refine ⟨_, unlinkFrom_of_mem hthread (h.notMem_front hchain) ?_, h.unlink hchain⟩
    rw [hchain, List.length_append] at hrounds
    omega
  · have hnot : hdr ∉ live := fun hlive => hmem ((h.mem_chain _ hdr).2 ⟨hlive, rfl⟩)
    have hsame : (fun bucket => (chain bucket).erase hdr) = chain := by
      funext bucket
      exact List.erase_of_not_mem fun hin => hnot (h.mem_live hin)
    rw [Finset.erase_eq_of_notMem hnot, hsame]
    exact ⟨s, unlinkFrom_of_notMem hthread hmem hrounds, h⟩

/-- The rounds of a run do not matter, as long as it ends. -/
theorem unregister_of_run (h : Sound s live pending chain)
    (hrun : s.unregisterLegacyLarge n hdr = some s') :
    Sound s' (live.erase hdr) pending fun bucket => (chain bucket).erase hdr := by
  have hrounds : (chain (legacyBucket hdr)).length < max n (live.card + 1) := by
    have hle := h.length_chain_le (legacyBucket hdr)
    omega
  obtain ⟨s'', hrun', hsound⟩ := h.unregister hdr hrounds
  have hmono := unlinkFrom_mono hrun (Nat.le_max_left n (live.card + 1))
  obtain rfl : s' = s'' := Option.some.inj (hmono.symm.trans hrun')
  exact hsound

/-! ### Lookups -/

theorem len_ne_zero (h : Sound s live pending chain) (hlive : hdr ∈ live) : s.len ≠ 0 := by
  have hpos := Finset.card_pos.2 ⟨hdr, hlive⟩
  rw [h.len]
  omega

/-- The registry knows exactly the live headers. -/
theorem contains_eq (h : Sound s live pending chain) (p : Nat) (hrounds : live.card < n) :
    s.legacyLargeContains n p
      = some (decide (largeHeaderSize ≤ p ∧ p - largeHeaderSize ∈ live)) := by
  unfold legacyLargeContains
  split
  case isTrue hzero =>
    rw [decide_eq_false]
    rintro ⟨-, hlive⟩
    exact h.len_ne_zero hlive hzero
  case isFalse =>
    split
    case isTrue hreject =>
      rw [decide_eq_false]
      rintro ⟨hle, hlive⟩
      have haligned := (h.header _ (Finset.mem_union_left _ hlive)).aligned
      have hmod := Nat.mod_eq_zero_of_dvd haligned
      simp only [Bool.or_eq_true, decide_eq_true_eq, hmod, ne_eq, not_true_eq_false,
        or_false] at hreject
      omega
    case isFalse hpass =>
      have hle : largeHeaderSize ≤ p := by
        by_contra hlt
        exact hpass (by simp [Nat.lt_of_not_le hlt])
      have hlength := h.length_chain_le (legacyBucket (p - largeHeaderSize))
      rw [findFrom_eq (h.threaded _) (Nat.lt_of_le_of_lt hlength hrounds)]
      simp [h.mem_chain, hle]

end Sound

/-! ### Runs -/

theorem Reach.sound (h : Reach s live pending) : ∃ chain, Sound s live pending chain := by
  induction h with
  | empty mem => exact ⟨_, Sound.empty mem⟩
  | write mem _ hlinks ih =>
      obtain ⟨chain, hsound⟩ := ih
      exact ⟨chain, hsound.write mem hlinks⟩
  | count hdr base mapped requested _ hheader hapart ih =>
      obtain ⟨chain, hsound⟩ := ih
      exact ⟨chain, (hsound.initHeader hapart).count hheader hapart⟩
  | link hdr _ hpending ih =>
      obtain ⟨chain, hsound⟩ := ih
      exact ⟨_, hsound.link hpending⟩
  | unregister n hdr _ hrun ih =>
      obtain ⟨chain, hsound⟩ := ih
      exact ⟨_, hsound.unregister_of_run hrun⟩

/-- A whole registration, with nothing between its steps. -/
theorem Reach.register (h : Reach s live pending) (hdr base mapped requested : Nat)
    (hheader : HeaderAt hdr) (hapart : ∀ x ∈ live ∪ pending, HeadersApart hdr x) :
    Reach ((s.initHeader hdr base mapped requested).registerLegacyLarge hdr) (insert hdr live)
      pending := by
  have hfresh : hdr ∉ pending := fun hmem =>
    (hapart hdr (Finset.mem_union_right _ hmem)).ne rfl
  have hrun := (h.count hdr base mapped requested hheader hapart).link hdr
    (Finset.mem_insert_self hdr pending)
  rw [Finset.erase_insert hfresh] at hrun
  exact hrun

/-! ### The registry of the ownership check

There the chain of a bucket is a list, and a header is written before its region is counted. Every run
of it is a run of the registry in memory, step by step, with the same chains and the same count. -/

section Simulation

variable {ι : Type} {w w' : FreeWorld ι} {r r' : LegacyRegion}
  {regions rest : List LegacyRegion} {stage : LegacyStage} {headers : Finset Nat}

/-- The headers of the regions in one stage. -/
def HeadersOf (headers : Finset Nat) (regions : List LegacyRegion) (stage : LegacyStage) : Prop :=
  ∀ hdr, hdr ∈ headers ↔ ∃ r ∈ regions, r.stage = stage ∧ r.hdr = hdr

theorem HeadersOf.perm (h : HeadersOf headers regions stage) (hperm : regions.Perm rest) :
    HeadersOf headers rest stage := by
  intro hdr
  rw [h hdr]
  simp only [hperm.mem_iff]

theorem headersOf_cons_of_ne (hne : r.stage ≠ stage) :
    HeadersOf headers (r :: rest) stage ↔ HeadersOf headers rest stage := by
  simp [HeadersOf, hne]

/-- A region that is not in the stage before or after a step. -/
theorem HeadersOf.keep (h : HeadersOf headers regions stage) (hperm : regions.Perm (r :: rest))
    (hr : r.stage ≠ stage) (hr' : r'.stage ≠ stage) : HeadersOf headers (r' :: rest) stage :=
  (headersOf_cons_of_ne hr').2 ((headersOf_cons_of_ne hr).1 (h.perm hperm))

theorem HeadersOf.insert (h : HeadersOf headers rest stage) (hr : r.stage = stage) :
    HeadersOf (insert r.hdr headers) (r :: rest) stage := by
  intro hdr
  rw [Finset.mem_insert, h hdr]
  simp [hr, eq_comm]

theorem HeadersOf.erase (h : HeadersOf headers (r :: rest) stage) (hr : r.stage = stage)
    (hne : ∀ x ∈ rest, x.stage = stage → x.hdr ≠ r.hdr) :
    HeadersOf (headers.erase r.hdr) rest stage := by
  intro hdr
  rw [Finset.mem_erase, h hdr]
  constructor
  · rintro ⟨hother, x, hx, hstage, rfl⟩
    rcases List.mem_cons.1 hx with rfl | hx
    · exact absurd rfl hother
    · exact ⟨x, hx, hstage, rfl⟩
  · rintro ⟨x, hx, hstage, rfl⟩
    exact ⟨hne x hx hstage, x, List.mem_cons_of_mem r hx, hstage, rfl⟩

theorem headerAt_of_headed {m : ByteMemory} {a : Arena} (h : r.Headed m) (hok : r.Ok m a) :
    HeaderAt r.hdr := by
  have hsize : largeHeaderSize = 48 := rfl
  have habove := h.above
  have hbelow := h.below
  have hbase := hok.base_pos
  have hend := hok.end_le
  have huser := h.user_eq
  refine ⟨by omega, Nat.dvd_sub h.aligned ⟨3, rfl⟩, by omega⟩

theorem headersApart_of_headed {m : ByteMemory} (h : r.Headed m) (hx : r'.Headed m)
    (hapart : r.Apart r') : HeadersApart r.hdr r'.hdr := by
  have habove := h.above
  have hbelow := h.below
  have hxabove := hx.above
  have hxbelow := hx.below
  have huser := h.user_eq
  have hxuser := hx.user_eq
  unfold HeadersApart
  rcases hapart with hle | hle <;> omega

theorem uncounted (h : r.stage = stage) (hstage : stage ≠ .live ∧ stage ≠ .counted) :
    r.stage ≠ .live ∧ r.stage ≠ .counted := by
  rwa [h]

/-- The registry `s` in memory stands for the lists of `w`. -/
structure Simulates (s : LegacyRegistry) (w : FreeWorld ι) (live pending : Finset Nat) : Prop where
  reach : Reach s live pending
  sound : Sound s live pending w.registry
  len : w.registryLen = s.len
  live : HeadersOf live w.regions .live
  pending : HeadersOf pending w.regions .counted

namespace Simulates

/-- The registry does not see the step. -/
theorem stay (h : Simulates s w live pending) (hregistry : w'.registry = w.registry)
    (hlen : w'.registryLen = w.registryLen) (hlive : HeadersOf live w'.regions .live)
    (hpending : HeadersOf pending w'.regions .counted) : Simulates s w' live pending where
  reach := h.reach
  sound := hregistry ▸ h.sound
  len := hlen.trans h.len
  live := hlive
  pending := hpending

/-- A region changes its stage, and is neither counted nor linked. -/
theorem restage (h : Simulates s w live pending) (hregistry : w'.registry = w.registry)
    (hlen : w'.registryLen = w.registryLen) (hperm : w.regions.Perm (r :: rest))
    (hregions : w'.regions = r' :: rest) (hr : r.stage ≠ .live ∧ r.stage ≠ .counted)
    (hr' : r'.stage ≠ .live ∧ r'.stage ≠ .counted) : Simulates s w' live pending := by
  apply h.stay hregistry hlen
  · rw [hregions]
    exact h.live.keep hperm hr.1 hr'.1
  · rw [hregions]
    exact h.pending.keep hperm hr.2 hr'.2

variable [DecidableEq ι]

/-- A region with a header is away from the headers that are counted. -/
theorem apart (h : Simulates s w live pending) (hok : w.Ok) (hperm : w.regions.Perm (r :: rest))
    (hstage : r.stage = .headed) : ∀ x ∈ live ∪ pending, HeadersApart r.hdr x := by
  have hother : ∀ y ∈ w.regions, y.stage = .live ∨ y.stage = .counted → HeadersApart r.hdr y.hdr := by
    intro y hy hcounted
    have hheader : y.stage.hasHeader := by
      rcases hcounted with heq | heq <;> rw [heq] <;> rfl
    rcases List.mem_cons.1 (hperm.mem_iff.1 hy) with rfl | hrest
    · rw [hstage] at hcounted
      rcases hcounted with heq | heq <;> cases heq
    · have hpairs := (hperm.pairwise_iff fun h => LegacyRegion.Apart.symm h).1 hok.apart
      have hr := hok.regions r (hperm.mem_iff.2 List.mem_cons_self)
      exact headersApart_of_headed (hr.header (by rw [hstage]; rfl)) ((hok.regions y hy).header hheader)
        ((List.pairwise_cons.1 hpairs).1 y hrest)
  intro x hx
  rcases Finset.mem_union.1 hx with hx | hx
  · obtain ⟨y, hy, hlive, rfl⟩ := (h.live x).1 hx
    exact hother y hy (.inl hlive)
  · obtain ⟨y, hy, hcounted, rfl⟩ := (h.pending x).1 hx
    exact hother y hy (.inr hcounted)

theorem count (h : Simulates s w live pending) (hok : w.Ok) (hperm : w.regions.Perm (r :: rest))
    (hstage : r.stage = .headed) (requested : Nat) :
    Simulates (s.initHeader r.hdr r.base r.mapped requested).count
      { w with
        registryLen := w.registryLen + 1
        regions := { r with stage := .counted } :: rest } live (insert r.hdr pending) := by
  have hr := hok.regions r (hperm.mem_iff.2 List.mem_cons_self)
  have hheader := headerAt_of_headed (hr.header (by rw [hstage]; rfl)) hr
  have hapart := h.apart hok hperm hstage
  have hfresh : r.hdr ∉ pending := fun hmem => (hapart _ (Finset.mem_union_right _ hmem)).ne rfl
  have hsound : Sound (s.initHeader r.hdr r.base r.mapped requested).count live
      (insert r.hdr pending) w.registry :=
    (h.sound.initHeader hapart).count hheader hapart
  have hlen : w.registryLen + 1 = (s.initHeader r.hdr r.base r.mapped requested).count.len := by
    rw [hsound.len, h.len, h.sound.len, Finset.card_insert_of_notMem hfresh, Nat.add_assoc]
  have hne : r.stage ≠ .live := by rw [hstage]; decide
  have hcounted : r.stage ≠ .counted := by rw [hstage]; decide
  exact {
    reach := h.reach.count r.hdr r.base r.mapped requested hheader hapart
    sound := hsound
    len := hlen
    live := h.live.keep hperm hne LegacyStage.noConfusion
    pending := ((headersOf_cons_of_ne hcounted).1 (h.pending.perm hperm)).insert
      (r := { r with stage := .counted }) rfl }

theorem register (h : Simulates s w live pending) (hok : w.Ok) (hperm : w.regions.Perm (r :: rest))
    (hstage : r.stage = .counted) :
    Simulates (s.link r.hdr)
      { w.registerLegacyLarge r.hdr with regions := { r with stage := .live } :: rest }
      (insert r.hdr live) (pending.erase r.hdr) := by
  have hmem : r.hdr ∈ pending :=
    (h.pending r.hdr).2 ⟨r, hperm.mem_iff.2 List.mem_cons_self, hstage, rfl⟩
  have hheader : r.stage.hasHeader := by rw [hstage]; rfl
  have hne : r.stage ≠ .live := by rw [hstage]; decide
  have hrest := (h.pending.perm hperm).erase hstage fun x hx heq =>
    hok.hdr_ne hperm hheader hx (by rw [heq]; rfl)
  exact {
    reach := h.reach.link r.hdr hmem
    sound := h.sound.link hmem
    len := h.len
    live := ((headersOf_cons_of_ne hne).1 (h.live.perm hperm)).insert
      (r := { r with stage := .live }) rfl
    pending := (headersOf_cons_of_ne LegacyStage.noConfusion).2 hrest }

/-- Whichever rounds the walk gets, if it ends the two have lost the same header. -/
theorem unregister (h : Simulates s w live pending) (hok : w.Ok)
    (hperm : w.regions.Perm (r :: rest)) (hstage : r.stage = .live)
    (hrun : s.unregisterLegacyLarge n r.hdr = some s') :
    Simulates s' { w.unregisterLegacyLarge r.hdr with regions := { r with stage := .hand } :: rest }
      (live.erase r.hdr) pending := by
  have hsound := h.sound.unregister_of_run hrun
  have hmem : r.hdr ∈ live :=
    (h.live r.hdr).2 ⟨r, hperm.mem_iff.2 List.mem_cons_self, hstage, rfl⟩
  have hchain : (w.registry (legacyBucket r.hdr)).contains r.hdr = true :=
    List.contains_iff_mem.2 ((h.sound.mem_chain _ _).2 ⟨hmem, rfl⟩)
  have hunregister : w.unregisterLegacyLarge r.hdr = { w with
      registry := fun bucket => (w.registry bucket).erase r.hdr
      registryLen := w.registryLen - 1 } := by
    unfold FreeWorld.unregisterLegacyLarge
    rw [if_pos hchain]
    congr 1
    funext bucket
    by_cases hbucket : bucket = legacyBucket r.hdr
    · rw [hbucket, Function.update_self]
    · rw [Function.update_of_ne hbucket, h.sound.erase_chain_of_ne hbucket]
  have hlen : w.registryLen - 1 = s'.len := by
    have hpos := Finset.card_pos.2 ⟨r.hdr, hmem⟩
    rw [hsound.len, h.len, h.sound.len, Finset.card_erase_of_mem hmem]
    omega
  have hheader : r.stage.hasHeader := by rw [hstage]; rfl
  have hne : r.stage ≠ .counted := by rw [hstage]; decide
  have hrest := (h.live.perm hperm).erase hstage fun x hx heq =>
    hok.hdr_ne hperm hheader hx (by rw [heq]; rfl)
  rw [hunregister]
  exact {
    reach := h.reach.unregister n r.hdr hrun
    sound := hsound
    len := hlen
    live := (headersOf_cons_of_ne LegacyStage.noConfusion).2 hrest
    pending := h.pending.keep hperm hne LegacyStage.noConfusion }

theorem step (h : Simulates s w live pending) (hok : w.Ok) (hstep : FreeStep w w') :
    ∃ s' live' pending', Simulates s' w' live' pending' := by
  cases hstep with
  | arena pool hstep hstart houtside => exact ⟨s, live, pending, h.stay rfl rfl h.live h.pending⟩
  | memory mem hheaders => exact ⟨s, live, pending, h.stay rfl rfl h.live h.pending⟩
  | map r hstage hbase hkernel hpages hmapped hend hapart houtside =>
      obtain ⟨hlive, hcounted⟩ := uncounted hstage (by decide)
      exact ⟨s, live, pending, h.stay rfl rfl ((headersOf_cons_of_ne hlive).2 h.live)
        ((headersOf_cons_of_ne hcounted).2 h.pending)⟩
  | initHeader r rest size alignLog hperm hstage hsize hfits =>
      have hfree := uncounted hstage (by decide)
      exact ⟨s, live, pending, h.restage rfl rfl hperm rfl hfree
        ⟨LegacyStage.noConfusion, LegacyStage.noConfusion⟩⟩
  | count r rest hperm hstage => exact ⟨_, _, _, h.count hok hperm hstage 0⟩
  | register r rest hperm hstage => exact ⟨_, _, _, h.register hok hperm hstage⟩
  | unregister r rest hperm hstage =>
      have hrounds := Nat.lt_succ_self (w.registry (legacyBucket r.hdr)).length
      obtain ⟨s', hrun, -⟩ := h.sound.unregister r.hdr hrounds
      exact ⟨_, _, _, h.unregister hok hperm hstage hrun⟩
  | park r rest hperm hstage =>
      have hfree := uncounted hstage (by decide)
      exact ⟨s, live, pending, h.restage rfl rfl hperm rfl hfree
        ⟨LegacyStage.noConfusion, LegacyStage.noConfusion⟩⟩
  | take r rest hperm hstage =>
      have hfree := uncounted hstage (by decide)
      exact ⟨s, live, pending, h.restage rfl rfl hperm rfl hfree
        ⟨LegacyStage.noConfusion, LegacyStage.noConfusion⟩⟩
  | unmap r rest hperm hstage =>
      obtain ⟨hlive, hcounted⟩ := uncounted hstage (by decide)
      exact ⟨s, live, pending, h.stay rfl rfl ((headersOf_cons_of_ne hlive).1 (h.live.perm hperm))
        ((headersOf_cons_of_ne hcounted).1 (h.pending.perm hperm))⟩

end Simulates

variable [DecidableEq ι]

theorem simulates_of_reach (hreach : FreeReach w) : ∃ s live pending, Simulates s w live pending := by
  induction hreach with
  | new =>
      refine ⟨_, ∅, ∅, ⟨.empty fun _ => none, Sound.empty _, rfl, ?_, ?_⟩⟩
      · simp [HeadersOf, FreeWorld.new]
      · simp [HeadersOf, FreeWorld.new]
  | step hreach hstep ih =>
      obtain ⟨s, live, pending, h⟩ := ih
      exact h.step (FreeWorld.ok_of_reach hreach) hstep

/-- The lists of the ownership check are the chains of a registry in memory, which is reached by the
same calls. Its walk over the links answers as the list does. -/
theorem registry_in_memory (hreach : FreeReach w) : ∃ s live pending, Reach s live pending ∧
    (∀ bucket, Threaded s.registryNext 0 (s.heads bucket) (w.registry bucket)) ∧
    s.len = w.registryLen ∧
    ∀ p n, live.card < n → s.legacyLargeContains n p = some (w.legacyLargeContains p) := by
  obtain ⟨s, live, pending, h⟩ := simulates_of_reach hreach
  refine ⟨s, live, pending, h.reach, h.sound.threaded, h.len.symm, fun p n hrounds => ?_⟩
  unfold legacyLargeContains FreeWorld.legacyLargeContains
  rw [h.len]
  split
  case isTrue => rfl
  case isFalse =>
    split
    case isTrue => rfl
    case isFalse =>
      have hlength := h.sound.length_chain_le (legacyBucket (p - largeHeaderSize))
      rw [findFrom_eq (h.sound.threaded _) (Nat.lt_of_le_of_lt hlength hrounds),
        ← List.contains_eq_mem]

end Simulation

/-- **The registry is exact.** Every bucket is an acyclic chain of its live headers, the count has all
of them, and a count of zero means that there are none. A lookup finds just the live headers, and after
an unregistration the chains are as before without the one header. -/
theorem legacy_registry (hreach : Reach s live pending) :
    ∃ chain : Nat → List Nat,
      (∀ bucket, Threaded s.registryNext 0 (s.heads bucket) (chain bucket) ∧
        (chain bucket).Nodup) ∧
      (∀ bucket hdr, hdr ∈ chain bucket ↔ hdr ∈ live ∧ legacyBucket hdr = bucket) ∧
      s.len = ∑ bucket ∈ Finset.range largeRegistryBuckets, (chain bucket).length + pending.card ∧
      (s.len = 0 → live = ∅) ∧
      (∀ p n, live.card < n → s.legacyLargeContains n p
        = some (decide (largeHeaderSize ≤ p ∧ p - largeHeaderSize ∈ live))) ∧
      (∀ hdr n, live.card < n → ∃ s', s.unregisterLegacyLarge n hdr = some s' ∧
        Reach s' (live.erase hdr) pending ∧
        ∀ bucket, Threaded s'.registryNext 0 (s'.heads bucket) ((chain bucket).erase hdr)) := by
  obtain ⟨chain, hsound⟩ := hreach.sound
  refine ⟨chain, fun bucket => ⟨hsound.threaded bucket, hsound.nodup bucket⟩, hsound.mem_chain, ?_,
    ?_, fun p n hrounds => hsound.contains_eq p hrounds, ?_⟩
  · rw [hsound.sum_length, hsound.len]
  · intro hzero
    by_contra hne
    obtain ⟨hdr, hlive⟩ := Finset.nonempty_of_ne_empty hne
    exact hsound.len_ne_zero hlive hzero
  · intro hdr n hrounds
    have hlength := hsound.length_chain_le (legacyBucket hdr)
    obtain ⟨s', hrun, hsound'⟩ := hsound.unregister hdr (Nat.lt_of_le_of_lt hlength hrounds)
    exact ⟨s', hrun, hreach.unregister n hdr hrun, hsound'.threaded⟩

/-- Two regions, registered one after the other. -/
def pairRegistry : LegacyRegistry :=
  let first := (LegacyRegistry.mk (fun _ => none) (fun _ => 0) 0).initHeader 65536 65536 131072 70000
  let second := (first.registerLegacyLarge 65536).initHeader 262144 262144 131072 70000
  second.registerLegacyLarge 262144

theorem reach_pairRegistry : Reach pairRegistry {262144, 65536} ∅ := by
  have hfirst := (Reach.empty fun _ => none).register 65536 65536 131072 70000
    ⟨by decide, by decide, by decide⟩ (by simp)
  have hapart : HeadersApart 262144 65536 := .inr (by decide)
  exact hfirst.register 262144 262144 131072 70000 ⟨by decide, by decide, by decide⟩
    (by simpa using hapart)

theorem legacy_registry_pair :
    pairRegistry.len = 2 ∧ pairRegistry.legacyLargeContains 3 65584 = some true ∧
      pairRegistry.legacyLargeContains 3 131120 = some false := by
  obtain ⟨chain, -, -, -, -, hcontains, -⟩ := legacy_registry reach_pairRegistry
  exact ⟨rfl, hcontains 65584 3 (by decide), hcontains 131120 3 (by decide)⟩

end LegacyRegistry

end Allox
