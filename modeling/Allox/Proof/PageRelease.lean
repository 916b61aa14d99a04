import Allox.PageRelease
import Allox.Proof.SmallHeap

/-!
# What a page gets back

A chain that is spliced in with its last block is all on the free list afterwards. With its first block
for the last, all but that one are lost.
-/

namespace Allox

open Function

namespace SmallHeap

variable {h : SmallHeap} {out : Multiset Block} {loose mapped : Multiset Nat} {c : Fin numClasses}
  {page p : Nat} {g : PageHeader} {chain : List Nat} {d : Discarded}

theorem setHeader_header : (h.setHeader p g).header p = g := header_eq setHeader_pages

/-- `release_inner` is its two halves. -/
theorem releaseInner_eq (x : PageReleaseChunk) :
    h.releaseInner c d x = (h.spliceBlocks x).settlePage c d x.page := by
  unfold releaseInner spliceBlocks settlePage
  rw [setHeader_header]

theorem spliceBlocks_header (hp : h.pages p = some (.active g)) (chain : List Nat) (tail n : Nat) :
    (h.spliceBlocks ⟨p, chain, tail, n⟩).header p = { g with
      virgin := false
      free := spliceAt chain tail g.free
      freeCount := g.freeCount + n
      used := g.used - n } := by
  unfold spliceBlocks
  rw [header_eq hp, setHeader_header]

/-- The chain is on the free list, which the counter counts, and out of `used`. -/
structure Returned (h h' : SmallHeap) (page : Nat) (chain : List Nat) : Prop where
  free : (h'.header page).free.Perm (chain ++ (h.header page).free)
  freeCount : (h'.header page).freeCount = (h'.header page).free.length
  used : (h'.header page).used + chain.length = (h.header page).used

/-- With the first block for the tail only that block is spliced in. -/
theorem spliceAt_headD (hne : chain ≠ []) (free : List Nat) :
    spliceAt chain (chain.headD 0) free = chain.headD 0 :: free := by
  cases chain with
  | nil => exact absurd rfl hne
  | cons b rest => simp [spliceAt]

theorem spliceBlocks_returned_iff (hok : h.Conserves (out + blocksOf c chain) loose mapped)
    (hne : chain ≠ []) (hpage : ∀ b ∈ chain, pageOf b = page) :
    Returned h (h.spliceBlocks ⟨page, chain, chain.headD 0, chain.length⟩) page chain
      ↔ chain.length = 1 := by
  have hlast := List.getLast?_eq_some_getLast hne
  obtain ⟨g, hp, rfl, -, hbal⟩ :=
    hok.chunk_page (x := ⟨page, chain, chain.getLast hne, chain.length⟩) ⟨hpage, hlast, rfl⟩
  have hused := hbal.used
  have hcount := hbal.freeCount
  have hlen : 0 < chain.length := List.length_pos_of_ne_nil hne
  simp only [Multiset.card_add, Multiset.coe_card] at hused
  have hheader := spliceBlocks_header hp chain (chain.headD 0) chain.length
  rw [spliceAt_headD hne] at hheader
  constructor
  · intro hret
    have hperm := hret.free.length_eq
    rw [hheader, header_eq hp] at hperm
    simp only [List.length_cons, List.length_append] at hperm
    omega
  · intro hone
    obtain ⟨b, rfl⟩ := List.length_eq_one_iff.1 hone
    refine ⟨?_, ?_, ?_⟩
    · rw [hheader, header_eq hp]
      exact List.Perm.refl _
    · rw [hheader]
      simp [hcount]
    · rw [hheader, header_eq hp]
      dsimp only
      omega

theorem releaseBlocks_eq (hok : h.Conserves (out + blocksOf c chain) loose mapped) (hne : chain ≠ [])
    (hpage : ∀ b ∈ chain, pageOf b = page) (d : Discarded) :
    h.releaseBlocks d page chain chain.length
      = (h.spliceBlocks ⟨page, chain, chain.headD 0, chain.length⟩).settlePage c d page := by
  have hlast := List.getLast?_eq_some_getLast hne
  obtain ⟨g, hp, rfl, -⟩ :=
    hok.chunk_page (x := ⟨page, chain, chain.getLast hne, chain.length⟩) ⟨hpage, hlast, rfl⟩
  unfold releaseBlocks releaseBlocksWithTail
  rw [header_eq hp, releaseInner_eq]

/-- What `release_blocks` writes to the page returns the chain exactly if it is a single block. Where the
page goes then depends on its new header alone. -/
theorem releaseBlocks_returns (hok : h.Conserves (out + blocksOf c chain) loose mapped)
    (hne : chain ≠ []) (hpage : ∀ b ∈ chain, pageOf b = page) (d : Discarded) :
    let h' := h.spliceBlocks ⟨page, chain, chain.headD 0, chain.length⟩
    h.releaseBlocks d page chain chain.length = h'.settlePage c d page ∧
      (Returned h h' page chain ↔ chain.length = 1) :=
  ⟨releaseBlocks_eq hok hne hpage d, spliceBlocks_returned_iff hok hne hpage⟩

/-- A new heap, and a page just mapped for it. -/
theorem new_books : SmallHeap.new.Conserves 0 0 0 where
  extents _ := rfl
  distinct := Multiset.nodup_zero
  aligned p hp := absurd hp (Multiset.notMem_zero p)
  page := nofun
  home := nofun
  head _ := ⟨List.nodup_nil, nofun⟩
  empty _ := ⟨List.nodup_nil, nofun⟩
  cold _ := ⟨List.nodup_nil, nofun⟩

theorem new_conserves (hpage : page % pageSize = 0) :
    SmallHeap.new.Conserves 0 ({page} + 0) {page} :=
  new_books.remap (fun p => by rw [add_zero, Nat.add_comm]) (Multiset.nodup_singleton _) fun p hp => by
    rwa [Multiset.mem_singleton.1 hp]

/-- The heap after its first refill, from a fresh page. -/
def firstRefill (c : Fin numClasses) (page : Nat) : SmallHeap × Fill :=
  SmallHeap.new.takeMapped c page ⟨[], 0, true⟩

theorem firstRefill_filled (c : Fin numClasses) (hpage : page % pageSize = 0) :
    (firstRefill c page).1.Conserves (0 + blocksOf c (firstRefill c page).2.chain) 0 {page} :=
  (takeMapped_filled (new_conserves hpage) rfl rfl).1

/-- A page has three blocks of the largest class. -/
theorem firstRefill_chain : (firstRefill 45 pageSize).2.chain = [98352, 81968, 65584] := by
  decide +kernel

/-- The first of the three comes back alone. -/
theorem releaseBlocks_returns_single :
    Returned (firstRefill 45 pageSize).1
      ((firstRefill 45 pageSize).1.spliceBlocks ⟨pageSize, [98352], 98352, 1⟩) pageSize [98352] := by
  have hok := firstRefill_filled 45 (show pageSize % pageSize = 0 by decide)
  have hsplit : 0 + blocksOf 45 [98352, 81968, 65584]
      = blocksOf 45 [81968, 65584] + blocksOf 45 [98352] := by
    rw [zero_add, add_comm, ← blocksOf_append]
    rfl
  have hpage : ∀ b ∈ [98352], pageOf b = pageSize := by decide
  rw [firstRefill_chain, hsplit] at hok
  exact (releaseBlocks_returns hok (by decide) hpage ⟨false, false⟩).2.2 rfl

/-- All three together do not. -/
theorem releaseBlocks_drops : ∃ h c page chain,
    (∃ out loose mapped, SmallHeap.Conserves h (out + blocksOf c chain) loose mapped) ∧ chain ≠ [] ∧
      (∀ b ∈ chain, pageOf b = page) ∧
      (∀ d, h.releaseBlocks d page chain chain.length
        = (h.spliceBlocks ⟨page, chain, chain.headD 0, chain.length⟩).settlePage c d page) ∧
      ¬Returned h (h.spliceBlocks ⟨page, chain, chain.headD 0, chain.length⟩) page chain := by
  have hok := firstRefill_filled 45 (show pageSize % pageSize = 0 by decide)
  have hpage : ∀ b ∈ [98352, 81968, 65584], pageOf b = pageSize := by decide
  rw [firstRefill_chain] at hok
  refine ⟨_, 45, pageSize, [98352, 81968, 65584], ⟨0, 0, _, hok⟩, by decide, hpage,
    releaseBlocks_eq hok (by decide) hpage, ?_⟩
  rw [spliceBlocks_returned_iff hok (by decide) hpage]
  decide

end SmallHeap

end Allox
