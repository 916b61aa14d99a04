import Allox.Proof.PageRelease

/-!
# What a refill takes

A page gives its free blocks and then those it has not provisioned yet. The inner loop takes as many of
them as the batch wants, or all, and the page leaves the list in the second case.
-/

namespace Allox

open Function

namespace PageHeader

/-- All the blocks a page has left, in the order in which it gives them. -/
def supply (g : PageHeader) (p : Nat) : List Nat :=
  g.free ++ (List.range' (g.used + g.freeCount) (g.capacity - (g.used + g.freeCount))).map
    (blockAt p g.cls)

def room (g : PageHeader) : Nat := g.capacity - g.used

/-- The page after `k` of its blocks were taken. -/
def gave (g : PageHeader) (k : Nat) : PageHeader :=
  { g with free := g.free.drop k, freeCount := g.freeCount - k, used := g.used + k }

/-- A page of a partial list. -/
structure Open (g : PageHeader) : Prop where
  freeCount : g.freeCount = g.free.length
  fits : g.used + g.freeCount ≤ g.capacity
  left : g.used < g.capacity

variable {g : PageHeader} {p b : Nat} {rest : List Nat}

theorem gave_zero : g.gave 0 = g := by
  cases g
  rfl

theorem supply_length (h : g.Open) : (g.supply p).length = g.room := by
  have hfits := h.fits
  simp only [supply, room, List.length_append, List.length_map, List.length_range', ← h.freeCount]
  omega

theorem supply_popped (h : g.Open) (hfree : g.free = b :: rest) :
    g.supply p = b :: (g.popped rest).supply p := by
  have hcount := h.freeCount
  rw [hfree, List.length_cons] at hcount
  have hsum : g.used + 1 + (g.freeCount - 1) = g.used + g.freeCount := by omega
  have hcapacity : (g.popped rest).capacity = g.capacity := rfl
  unfold supply
  simp only [popped, hfree, List.cons_append, hsum]
  rfl

theorem gave_popped (hfree : g.free = b :: rest) (k : Nat) : (g.popped rest).gave k = g.gave (k + 1) := by
  have hcount : g.freeCount - 1 - k = g.freeCount - (k + 1) := by omega
  have hused : g.used + 1 + k = g.used + (k + 1) := by omega
  simp only [gave, popped, hfree, List.drop_succ_cons, hcount, hused]

theorem Open.popped (h : g.Open) (hfree : g.free = b :: rest)
    (hleft : ¬((g.popped rest).freeCount = 0 ∧
      g.capacity ≤ (g.popped rest).used + (g.popped rest).freeCount)) : (g.popped rest).Open := by
  have hcount := h.freeCount
  have hfits := h.fits
  have hroom := h.left
  rw [hfree, List.length_cons] at hcount
  have hcapacity : (g.popped rest).capacity = g.capacity := rfl
  simp only [PageHeader.popped] at hleft
  refine ⟨?_, ?_, ?_⟩
  · show g.freeCount - 1 = rest.length
    omega
  · rw [hcapacity]
    show g.used + 1 + (g.freeCount - 1) ≤ g.capacity
    omega
  · rw [hcapacity]
    show g.used + 1 < g.capacity
    omega

/-- With nothing free, provisioning changes neither what the page can give nor what is left after. -/
theorem provision_empty (h : g.Open) (hfree : g.free = []) (want : Nat) :
    (g.provision p want).2 = min g.room want ∧ (g.provision p want).1.Open ∧
      (g.provision p want).1.supply p = g.supply p ∧
      (g.provision p want).1.room = g.room ∧
      (g.provision p want).1.gave (min g.room want) = g.gave (min g.room want) := by
  have hcount := h.freeCount
  have hroom := h.left
  rw [hfree, List.length_nil] at hcount
  have hcapacity : ∀ n, (g.provision p n).1.capacity = g.capacity := fun _ => rfl
  have hmade : (g.provision p want).2 = min g.room want := by
    simp only [provision, room, hcount, Nat.add_zero]
  refine ⟨hmade, ⟨?_, ?_, ?_⟩, ?_, rfl, ?_⟩
  · simp only [provision, hfree, hcount, List.append_nil, List.length_map, List.length_range', Nat.zero_add]
  · rw [hcapacity]
    simp only [provision, hcount]
    omega
  · exact h.left
  · unfold supply
    rw [hcapacity]
    simp only [provision, hfree, hcount, List.append_nil, Nat.add_zero, Nat.zero_add, List.nil_append]
    rw [← List.map_append, List.range'_append_1]
    congr 2
    omega
  · simp only [provision, gave, hfree, hcount, room, List.append_nil, Nat.add_zero, Nat.zero_add,
      List.drop_nil, Nat.zero_sub, Nat.sub_self]
    rw [List.drop_eq_nil_of_le]
    simp only [List.length_map, List.length_range', Nat.le_refl]

end PageHeader

/-- The batch with further blocks in front, the last one taken first. -/
def Fill.taking (f : Fill) (blocks : List Nat) : Fill :=
  { f with chain := blocks.reverse ++ f.chain, count := f.count + blocks.length }

theorem Fill.taking_nil (f : Fill) : f.taking [] = f := rfl

theorem Fill.taking_cons (f : Fill) (b : Nat) (blocks : List Nat) :
    f.taking (b :: blocks)
      = Fill.taking { f with chain := b :: f.chain, count := f.count + 1 } blocks := by
  simp only [taking, List.reverse_cons, List.append_assoc, List.singleton_append, List.length_cons,
    Nat.add_right_comm, Nat.add_assoc]

namespace SmallHeap

variable {h : SmallHeap} {p : Nat} {g g' : PageHeader} {c : Fin numClasses} {f : Fill}

theorem setHeader_setHeader : (h.setHeader p g).setHeader p g' = h.setHeader p g' := by
  simp only [setHeader, update_idem]

/-- The heap after `k` blocks were taken from page `p`, which leaves the list when it is used up. -/
def drawn (h : SmallHeap) (p : Nat) (g : PageHeader) (k : Nat) : SmallHeap :=
  if g.used + k = g.capacity then ((h.setHeader p (g.gave k)).unlinkPartial g.cls p).1
  else h.setHeader p (g.gave k)

/-- How many blocks of a page go into the batch. -/
def share (g : PageHeader) (count : Nat) : Nat := min (refillBatch - count) g.room

theorem drawn_setHeader (k : Nat) : (h.setHeader p g').drawn p g k = h.drawn p g k := by
  unfold drawn
  rw [setHeader_setHeader]

theorem drawn_popped {b : Nat} {rest : List Nat} (hfree : g.free = b :: rest) (k : Nat) :
    h.drawn p (g.popped rest) k = h.drawn p g (k + 1) := by
  have hused : (g.popped rest).used + k = g.used + (k + 1) := by
    show g.used + 1 + k = g.used + (k + 1)
    omega
  unfold drawn
  rw [PageHeader.gave_popped hfree, hused]
  rfl

/-- The rounds of the inner loop: two for each block it may take, and one to provision the first. -/
def rounds (g : PageHeader) (count : Nat) : Nat :=
  2 * (refillBatch - count) + if g.free = [] then 1 else 0

theorem rounds_popped {b : Nat} {rest : List Nat} {count : Nat} (hfree : g.free = b :: rest)
    (hbatch : ¬refillBatch ≤ count) : rounds (g.popped rest) (count + 1) + 1 ≤ rounds g count := by
  have hsome : ¬g.free = [] := by
    rw [hfree]
    exact List.cons_ne_nil _ _
  unfold rounds
  rw [if_neg hsome]
  split <;> omega

/-- A full batch takes nothing. -/
theorem share_full (hp : h.pages p = some (.active g)) (hg : g.Open) (hfull : refillBatch ≤ f.count) :
    (h, f) = (h.drawn p g (share g f.count), f.taking ((g.supply p).take (share g f.count))) := by
  have hleft := hg.left
  have hzero : share g f.count = 0 := by
    unfold share
    omega
  have hstay : ¬g.used + 0 = g.capacity := by omega
  unfold drawn
  rw [hzero, if_neg hstay, PageHeader.gave_zero, setHeader_self hp, List.take_zero, Fill.taking_nil]

/-- Taking one block is the first step of taking its share. -/
theorem share_popped {b : Nat} {rest : List Nat} (hg : g.Open) (hfree : g.free = b :: rest)
    (hbatch : ¬refillBatch ≤ f.count) :
    (h.drawn p g (share g f.count), f.taking ((g.supply p).take (share g f.count)))
      = (h.drawn p (g.popped rest) (share (g.popped rest) (f.count + 1)),
        Fill.taking { f with chain := b :: f.chain, count := f.count + 1 }
          (((g.popped rest).supply p).take (share (g.popped rest) (f.count + 1)))) := by
  have hleft := hg.left
  have hroom : (g.popped rest).room = g.room - 1 := (Nat.sub_sub _ _ _).symm
  have hshare : share g f.count = share (g.popped rest) (f.count + 1) + 1 := by
    unfold share
    rw [hroom]
    unfold PageHeader.room
    omega
  rw [PageHeader.supply_popped hg hfree, hshare, List.take_succ_cons, Fill.taking_cons,
    drawn_popped hfree]

/-- The inner loop, from one page. The induction is on its rounds, which are always enough. -/
theorem fillPage_eq (n : Nat) (hp : h.pages p = some (.active g)) (hg : g.Open)
    (hn : rounds g f.count ≤ n) :
    fillPage g.cls p n h f
      = (h.drawn p g (share g f.count), f.taking ((g.supply p).take (share g f.count))) := by
  induction n generalizing h g f with
  | zero =>
      refine share_full hp hg ?_
      unfold rounds at hn
      omega
  | succ n ih =>
      unfold fillPage
      simp only [header_eq hp]
      split
      · rename_i hbatch
        exact share_full hp hg hbatch
      · rename_i hbatch
        split
        · rename_i b rest hfree
          have hcount := hg.freeCount
          have hfits := hg.fits
          rw [hfree, List.length_cons] at hcount
          rw [share_popped hg hfree hbatch]
          have hcapacity : (g.popped rest).capacity = g.capacity := rfl
          split
          · -- the last block of the page
            rename_i hlast
            simp only [Bool.and_eq_true, decide_eq_true_eq] at hlast
            rw [hcapacity] at hlast
            have hnone : share (g.popped rest) (f.count + 1) = 0 := by
              unfold share PageHeader.room
              rw [hcapacity]
              omega
            have hout : (g.popped rest).used + 0 = (g.popped rest).capacity := by
              have hused : (g.popped rest).used = g.used + 1 := rfl
              rw [hcapacity]
              omega
            unfold drawn
            rw [hnone, if_pos hout, PageHeader.gave_zero, List.take_zero, Fill.taking_nil]
            rfl
          · rename_i hmore
            simp only [Bool.and_eq_true, decide_eq_true_eq] at hmore
            have hnext := ih (h := h.setHeader p (g.popped rest)) (g := g.popped rest)
              (f := { f with chain := b :: f.chain, count := f.count + 1 }) setHeader_pages
              (hg.popped hfree hmore) (Nat.le_of_succ_le_succ ((rounds_popped hfree hbatch).trans hn))
            rw [drawn_setHeader] at hnext
            exact hnext
        · rename_i hfree
          have hcount := hg.freeCount
          have hleft := hg.left
          rw [hfree, List.length_nil] at hcount
          obtain ⟨hmade, hopen, hsupply, hroom, hgave⟩ :=
            PageHeader.provision_empty (p := p) hg hfree (refillBatch - f.count)
          have hnone : ¬(g.provision p (refillBatch - f.count)).2 = 0 := by
            rw [hmade]
            unfold PageHeader.room
            omega
          rw [if_pos (by omega), if_neg hnone]
          have hshare : share (g.provision p (refillBatch - f.count)).1 f.count = share g f.count := by
            unfold share
            rw [hroom]
          have hdrawn : h.drawn p (g.provision p (refillBatch - f.count)).1 (share g f.count)
              = h.drawn p g (share g f.count) := by
            unfold drawn share
            rw [Nat.min_comm, hgave]
            rfl
          have hrounds : rounds (g.provision p (refillBatch - f.count)).1 f.count ≤ n := by
            have hmany : (g.provision p (refillBatch - f.count)).1.free ≠ [] := by
              intro hnil
              have hnew := hopen.freeCount
              rw [hnil, List.length_nil] at hnew
              have hmade' : (g.provision p (refillBatch - f.count)).1.freeCount
                  = g.freeCount + (g.provision p (refillBatch - f.count)).2 := rfl
              omega
            unfold rounds at hn ⊢
            rw [if_neg hmany]
            rw [if_pos hfree] at hn
            omega
          have hnext := ih (h := h.setHeader p (g.provision p (refillBatch - f.count)).1)
            (g := (g.provision p (refillBatch - f.count)).1) (f := f) setHeader_pages hopen hrounds
          rw [drawn_setHeader, hshare, hsupply, hdrawn] at hnext
          exact hnext

/-! ### The page after its turn -/

theorem unlinkPartial_head (hin : (h.header p).inPartial = true) :
    ((h.unlinkPartial c p).1.lists c).head = (h.lists c).head.erase p := by
  unfold unlinkPartial
  rw [if_pos hin]
  simp only [setHeader, setList, update_self]

theorem unlinkPartial_pages_of_ne {q : Nat} (hq : q ≠ p) :
    (h.unlinkPartial c p).1.pages q = h.pages q := by
  unfold unlinkPartial
  split
  · simp only [setHeader, setList, update_of_ne hq]
  · rfl

theorem setHeader_pages_of_ne {q : Nat} (hq : q ≠ p) : (h.setHeader p g).pages q = h.pages q := by
  simp only [setHeader, update_of_ne hq]

theorem drawn_pages_of_ne {q k : Nat} (hq : q ≠ p) : (h.drawn p g k).pages q = h.pages q := by
  unfold drawn
  split
  · rw [unlinkPartial_pages_of_ne hq, setHeader_pages_of_ne hq]
  · exact setHeader_pages_of_ne hq

theorem drawn_pages (hin : g.inPartial = true) (k : Nat) : (h.drawn p g k).pages p
    = some (.active { g.gave k with inPartial := !decide (g.used + k = g.capacity) }) := by
  unfold drawn
  split
  · rename_i hfull
    rw [unlinkPartial_pages setHeader_pages, decide_eq_true hfull]
    rfl
  · rename_i hopen
    have hsame : { g.gave k with inPartial := true } = g.gave k := by
      rw [← hin]
      rfl
    rw [setHeader_pages, decide_eq_false hopen, Bool.not_false, hsame]

theorem drawn_head (hin : g.inPartial = true) (k : Nat) : ((h.drawn p g k).lists g.cls).head
    = if g.used + k = g.capacity then (h.lists g.cls).head.erase p else (h.lists g.cls).head := by
  unfold drawn
  split
  · refine unlinkPartial_head ?_
    rw [setHeader_header]
    exact hin
  · rfl

/-! ### The list -/

/-- A partial list whose pages all have something to give. -/
structure OpenList (h : SmallHeap) (c : Fin numClasses) : Prop where
  nodup : (h.lists c).head.Nodup
  page : ∀ p ∈ (h.lists c).head, ∃ g, h.pages p = some (.active g) ∧ g.cls = c ∧ g.inPartial = true ∧
    g.Open ∧ (g.supply p).Nodup ∧ ∀ b ∈ g.supply p, pageOf b = p

/-- The blocks that are left in the pages of a list. -/
def roomOf (h : SmallHeap) (pages : List Nat) : Nat := (pages.map fun p => (h.header p).room).sum

/-- A refill looked at the `visited` pages of the list and got the blocks `taken`. -/
structure Refilled (c : Fin numClasses) (h : SmallHeap) (f : Fill) (h' : SmallHeap) (f' : Fill)
    (visited rest taken : List Nat) : Prop where
  list : (h.lists c).head = visited ++ rest
  chain : f'.chain = taken.reverse ++ f.chain
  count : f'.count = f.count + taken.length
  length : taken.length = min (refillBatch - f.count) (h.roomOf (h.lists c).head)
  nodup : taken.Nodup
  supplied : ∀ b ∈ taken, pageOf b ∈ visited ∧ b ∈ (h.header (pageOf b)).supply (pageOf b)
  used : ∀ p ∈ visited,
    (h'.header p).used = (h.header p).used + (taken.filter fun b => pageOf b = p).length
  others : ∀ q, q ∉ visited → h'.pages q = h.pages q
  left : (h'.lists c).head
    = (h.lists c).head.filter fun p => (h'.header p).used < (h'.header p).capacity
  virgin : f'.virgin = (f.virgin && visited.all fun p => (h.header p).virgin)

theorem header_congr {h' : SmallHeap} (hp : h'.pages p = h.pages p) : h'.header p = h.header p := by
  unfold header
  rw [hp]

theorem OpenList.open_header (hlist : h.OpenList c) (hp : p ∈ (h.lists c).head) : (h.header p).Open := by
  obtain ⟨g, hg, -, -, hopen, -⟩ := hlist.page p hp
  rwa [header_eq hg]

/-- A full batch looks at no page. -/
theorem Refilled.none (hlist : h.OpenList c) (hdone : refillBatch ≤ f.count ∨ (h.lists c).head = []) :
    Refilled c h f h f [] (h.lists c).head [] where
  list := rfl
  chain := rfl
  count := rfl
  length := by
    rcases hdone with hfull | hnil
    · rw [Nat.sub_eq_zero_of_le hfull, Nat.zero_min, List.length_nil]
    · rw [hnil]
      exact (Nat.min_zero _).symm
  nodup := List.nodup_nil
  supplied := nofun
  used := nofun
  others _ _ := rfl
  left := by
    refine (List.filter_eq_self.2 fun p hp => ?_).symm
    exact decide_eq_true (hlist.open_header hp).left
  virgin := (Bool.and_true _).symm

theorem fillPages_full (n : Nat) (hfull : refillBatch ≤ f.count) : fillPages c n h f = (h, f) := by
  cases n with
  | zero => rfl
  | succ n =>
      unfold fillPages
      rw [if_pos hfull]

section Page

variable {tail : List Nat} {k : Nat}

theorem drawn_header (hin : g.inPartial = true) (k : Nat) :
    ((h.drawn p g k).header p).used = g.used + k ∧ ((h.drawn p g k).header p).capacity = g.capacity := by
  rw [header_eq (drawn_pages hin k)]
  exact ⟨rfl, rfl⟩

theorem filter_take_same {blocks : List Nat} (hhome : ∀ b ∈ blocks, pageOf b = p) :
    (blocks.filter fun b => pageOf b = p) = blocks :=
  List.filter_eq_self.2 fun b hb => decide_eq_true (hhome b hb)

theorem filter_none {blocks : List Nat} (hhome : ∀ b ∈ blocks, pageOf b ≠ p) :
    (blocks.filter fun b => pageOf b = p) = [] :=
  List.filter_eq_nil_iff.2 fun b hb => by simpa using hhome b hb

/-- What the first page of a list gives. -/
structure Turn (h : SmallHeap) (p : Nat) (g : PageHeader) (tail : List Nat) (count : Nat) : Prop where
  page : h.pages p = some (.active g)
  listed : g.inPartial = true
  opened : g.Open
  distinct : (g.supply p).Nodup
  home : ∀ b ∈ g.supply p, pageOf b = p
  head : (h.lists g.cls).head = p :: tail
  notMem : p ∉ tail
  room : count < refillBatch

variable {count : Nat}

theorem Turn.share_le (ht : h.Turn p g tail f.count) :
    share g f.count ≤ g.room ∧ 0 < share g f.count ∧
      ((g.supply p).take (share g f.count)).length = share g f.count := by
  have hleft := ht.opened.left
  have hroom := ht.room
  have hlength := PageHeader.supply_length (p := p) ht.opened
  refine ⟨Nat.min_le_right _ _, ?_, ?_⟩
  · unfold share PageHeader.room
    omega
  · rw [List.length_take, hlength]
    exact Nat.min_eq_left (Nat.min_le_right _ _)

theorem Turn.roomOf_eq (ht : h.Turn p g tail f.count) :
    h.roomOf (h.lists g.cls).head = g.room + (h.drawn p g (share g f.count)).roomOf tail := by
  rw [ht.head]
  unfold roomOf
  rw [List.map_cons, List.sum_cons, header_eq ht.page]
  congr 2
  refine List.map_congr_left fun q hq => ?_
  have hne : q ≠ p := fun he => ht.notMem (he ▸ hq)
  rw [header_congr (drawn_pages_of_ne hne)]

/-- The first page fills the batch and stays. -/
theorem Turn.last (ht : h.Turn p g tail f.count) (hlist : h.OpenList g.cls)
    (hstay : g.used + share g f.count ≠ g.capacity) {f' : Fill}
    (hf : f' = Fill.taking { f with virgin := f.virgin && g.virgin } ((g.supply p).take (share g f.count))) :
    Refilled g.cls h f (h.drawn p g (share g f.count)) f' [p] tail
      ((g.supply p).take (share g f.count)) ∧ refillBatch ≤ f'.count := by
  obtain ⟨hle, -, hlength⟩ := ht.share_le
  have hleft := ht.opened.left
  have hroom := ht.room
  have hshare : share g f.count = refillBatch - f.count := by
    unfold share PageHeader.room at *
    omega
  obtain ⟨hused, hcapacity⟩ := drawn_header (h := h) (p := p) ht.listed (share g f.count)
  subst hf
  refine ⟨⟨ht.head, rfl, rfl, ?_, ?_, ?_, ?_, ?_, ?_, ?_⟩, ?_⟩
  · rw [hlength, ht.roomOf_eq]
    omega
  · exact ht.distinct.sublist (List.take_sublist _ _)
  · intro b hb
    have hb' := List.mem_of_mem_take hb
    rw [ht.home b hb', header_eq ht.page]
    exact ⟨List.mem_singleton_self _, hb'⟩
  · intro q hq
    rw [List.mem_singleton.1 hq, filter_take_same fun b hb => ht.home b (List.mem_of_mem_take hb), hused,
      header_eq ht.page, hlength]
  · intro q hq
    exact drawn_pages_of_ne fun he => hq (List.mem_singleton.2 he)
  · rw [drawn_head ht.listed, if_neg hstay]
    refine (List.filter_eq_self.2 fun q hq => decide_eq_true ?_).symm
    by_cases hqp : q = p
    · rw [hqp, hused, hcapacity]
      unfold PageHeader.room at hle
      omega
    · rw [header_congr (drawn_pages_of_ne hqp)]
      exact (hlist.open_header hq).left
  · rw [List.all_cons, List.all_nil, Bool.and_true, header_eq ht.page]
    rfl
  · show refillBatch ≤ f.count + ((g.supply p).take (share g f.count)).length
    omega

/-- The first page is used up, and the loop goes on with the rest of the list. -/
theorem Turn.next (ht : h.Turn p g tail f.count) (hfull : g.used + share g f.count = g.capacity)
    {h' : SmallHeap} {f' f₁ : Fill} {visited rest taken : List Nat}
    (hf : f₁ = Fill.taking { f with virgin := f.virgin && g.virgin } ((g.supply p).take (share g f.count)))
    (hnext : Refilled g.cls (h.drawn p g (share g f.count)) f₁ h' f' visited rest taken) :
    Refilled g.cls h f h' f' (p :: visited) rest ((g.supply p).take (share g f.count) ++ taken) := by
  obtain ⟨hle, -, hlength⟩ := ht.share_le
  have hleft := ht.opened.left
  have hhead : ((h.drawn p g (share g f.count)).lists g.cls).head = tail := by
    rw [drawn_head ht.listed, if_pos hfull, ht.head, List.erase_cons_head]
  have htail := hnext.list
  rw [hhead] at htail
  have hnot : p ∉ visited := fun hmem => ht.notMem (htail ▸ List.mem_append_left _ hmem)
  have hother : ∀ b ∈ taken, pageOf b ≠ p := fun b hb he => hnot (he ▸ (hnext.supplied b hb).1)
  obtain ⟨hused, hcapacity⟩ := drawn_header (h := h) (p := p) ht.listed (share g f.count)
  have hsame : ∀ q, q ≠ p → (h.drawn p g (share g f.count)).header q = h.header q :=
    fun q hq => header_congr (drawn_pages_of_ne hq)
  have hlast : h'.header p = (h.drawn p g (share g f.count)).header p :=
    header_congr (hnext.others p hnot)
  subst hf
  refine ⟨?_, ?_, ?_, ?_, ?_, ?_, ?_, ?_, ?_, ?_⟩
  · rw [ht.head, htail, List.cons_append]
  · rw [hnext.chain, List.reverse_append, List.append_assoc]
    rfl
  · rw [hnext.count, List.length_append]
    exact Nat.add_assoc _ _ _
  · have hrest := hnext.length
    rw [hhead] at hrest
    have hcount : (Fill.taking { f with virgin := f.virgin && g.virgin }
        ((g.supply p).take (share g f.count))).count
          = f.count + ((g.supply p).take (share g f.count)).length := rfl
    rw [hcount] at hrest
    rw [List.length_append, hrest, ht.roomOf_eq, hlength]
    unfold share PageHeader.room at *
    omega
  · refine List.nodup_append.2 ⟨ht.distinct.sublist (List.take_sublist _ _), hnext.nodup, ?_⟩
    rintro a ha b hb rfl
    exact hother a hb (ht.home a (List.mem_of_mem_take ha))
  · intro b hb
    rcases List.mem_append.1 hb with hb | hb
    · have hb' := List.mem_of_mem_take hb
      rw [ht.home b hb', header_eq ht.page]
      exact ⟨List.mem_cons_self, hb'⟩
    · obtain ⟨hpage, hsupply⟩ := hnext.supplied b hb
      rw [hsame _ (hother b hb)] at hsupply
      exact ⟨List.mem_cons_of_mem _ hpage, hsupply⟩
  · intro q hq
    rw [List.filter_append, List.length_append]
    by_cases hqp : q = p
    · rw [hqp, filter_take_same fun b hb => ht.home b (List.mem_of_mem_take hb), filter_none hother, hlast,
        hused, header_eq ht.page, hlength]
      rfl
    · have hq' := (List.mem_cons.1 hq).resolve_left hqp
      have hnone : (((g.supply p).take (share g f.count)).filter fun b => pageOf b = q) = [] :=
        filter_none fun b hb he => hqp (he.symm.trans (ht.home b (List.mem_of_mem_take hb)))
      rw [hnext.used q hq', hsame q hqp, hnone, List.length_nil, Nat.zero_add]
  · intro q hq
    have hqp : q ≠ p := fun he => hq (he ▸ List.mem_cons_self)
    rw [hnext.others q fun hmem => hq (List.mem_cons_of_mem _ hmem), drawn_pages_of_ne hqp]
  · have hgone : ¬(h'.header p).used < (h'.header p).capacity := by
      rw [hlast, hused, hcapacity, hfull]
      exact Nat.lt_irrefl _
    rw [hnext.left, hhead, ht.head, List.filter_cons_of_neg (by simpa using hgone)]
  · rw [hnext.virgin, List.all_cons, header_eq ht.page, ← Bool.and_assoc]
    congr 1
    rw [Bool.eq_iff_iff, List.all_eq_true, List.all_eq_true]
    refine forall₂_congr fun q hq => ?_
    rw [hsame q fun he => hnot (he ▸ hq)]

end Page

theorem fillPages_nil (n : Nat) (hnil : (h.lists c).head = []) : fillPages c n h f = (h, f) := by
  cases n with
  | zero => rfl
  | succ n =>
      unfold fillPages
      rw [hnil]
      exact ite_self _

/-- One round of the outer loop. Its recovery branch is not taken, since a block has moved. -/
theorem fillPages_turn {tail : List Nat} (ht : h.Turn p g tail f.count) (n : Nat) :
    fillPages g.cls (n + 1) h f = fillPages g.cls n (h.drawn p g (share g f.count))
      (Fill.taking { f with virgin := f.virgin && g.virgin } ((g.supply p).take (share g f.count))) := by
  obtain ⟨-, hpos, hlength⟩ := ht.share_le
  have hvirgin : (if g.virgin = true then f else { f with virgin := false })
      = { f with virgin := f.virgin && g.virgin } := by
    cases g.virgin with
    | true => simp
    | false => simp
  have hrounds : rounds g f.count ≤ fillPageRounds := by
    unfold rounds fillPageRounds
    split <;> omega
  have hpage := fillPage_eq (f := { f with virgin := f.virgin && g.virgin }) fillPageRounds ht.page
    ht.opened hrounds
  have hcount : ({ f with virgin := f.virgin && g.virgin } : Fill).count = f.count := rfl
  rw [hcount] at hpage
  have hmoved : ¬(decide ((Fill.taking { f with virgin := f.virgin && g.virgin }
      ((g.supply p).take (share g f.count))).count = f.count) &&
      ((h.drawn p g (share g f.count)).lists g.cls).head.head? == some p) = true := by
    rw [Bool.and_eq_true, decide_eq_true_eq, not_and]
    intro hsame
    have hgrown : f.count + ((g.supply p).take (share g f.count)).length = f.count := hsame
    omega
  conv_lhs => unfold fillPages
  rw [if_neg (Nat.not_le.2 ht.room), ht.head]
  simp only [header_eq ht.page, hvirgin, hpage]
  rw [if_neg hmoved]

theorem Turn.openList {tail : List Nat} (ht : h.Turn p g tail f.count) (hlist : h.OpenList g.cls)
    (hfull : g.used + share g f.count = g.capacity) :
    ((h.drawn p g (share g f.count)).lists g.cls).head = tail ∧
      (h.drawn p g (share g f.count)).OpenList g.cls := by
  have hdistinct := hlist.nodup
  rw [ht.head, List.nodup_cons] at hdistinct
  have htail : ((h.drawn p g (share g f.count)).lists g.cls).head = tail := by
    rw [drawn_head ht.listed, if_pos hfull, ht.head, List.erase_cons_head]
  refine ⟨htail, htail ▸ hdistinct.2, fun q hq => ?_⟩
  rw [htail] at hq
  have hne : q ≠ p := fun he => hdistinct.1 (he ▸ hq)
  rw [drawn_pages_of_ne hne]
  exact hlist.page q (by rw [ht.head]; exact List.mem_cons_of_mem _ hq)

theorem OpenList.turn {tail : List Nat} (hlist : h.OpenList c) (hhead : (h.lists c).head = p :: tail)
    (hroom : ¬refillBatch ≤ f.count) : ∃ g, g.cls = c ∧ h.Turn p g tail f.count := by
  obtain ⟨g, hp, rfl, hin, hopen, hnodup, hhome⟩ :=
    hlist.page p (by rw [hhead]; exact List.mem_cons_self)
  have hdistinct := hlist.nodup
  rw [hhead, List.nodup_cons] at hdistinct
  exact ⟨g, rfl, hp, hin, hopen, hnodup, hhome, hhead, hdistinct.1, Nat.not_le.1 hroom⟩

/-- The outer loop. Each round but the last takes a page off the list, so one more round than there are
pages is enough. -/
theorem fillPages_refilled (n : Nat) (hlist : h.OpenList c) (hn : (h.lists c).head.length < n) :
    ∃ visited rest taken, Refilled c h f (fillPages c n h f).1 (fillPages c n h f).2 visited rest taken := by
  induction n generalizing h f with
  | zero => omega
  | succ n ih =>
      by_cases hroom : refillBatch ≤ f.count
      · rw [fillPages_full _ hroom]
        exact ⟨[], _, [], .none hlist (.inl hroom)⟩
      · cases hhead : (h.lists c).head with
        | nil =>
            rw [fillPages_nil _ hhead]
            exact ⟨[], _, [], .none hlist (.inr hhead)⟩
        | cons p tail =>
            obtain ⟨g, rfl, ht⟩ := hlist.turn hhead hroom
            rw [fillPages_turn ht]
            by_cases hfull : g.used + share g f.count = g.capacity
            · obtain ⟨htail, hopen⟩ := ht.openList hlist hfull
              rw [hhead, List.length_cons] at hn
              obtain ⟨visited, rest, taken, hrest⟩ := ih
                (f := Fill.taking { f with virgin := f.virgin && g.virgin }
                  ((g.supply p).take (share g f.count))) hopen (by rw [htail]; omega)
              exact ⟨_, _, _, ht.next hfull rfl hrest⟩
            · obtain ⟨hlast, hdone⟩ := ht.last hlist hfull rfl
              rw [fillPages_full n hdone]
              exact ⟨_, _, _, hlast⟩

/-- More rounds than that change nothing. -/
theorem fillPages_enough (n : Nat) (hlist : h.OpenList c) (hn : (h.lists c).head.length < n) :
    fillPages c n h f = h.fillFromList c f := by
  unfold fillFromList
  generalize hm : (h.lists c).head.length + 1 = m
  induction m generalizing n h f with
  | zero => omega
  | succ m ih =>
      obtain ⟨n, rfl⟩ := Nat.exists_eq_add_of_lt (Nat.zero_lt_of_lt hn)
      rw [Nat.zero_add] at hn ⊢
      by_cases hroom : refillBatch ≤ f.count
      · rw [fillPages_full _ hroom, fillPages_full _ hroom]
      · cases hhead : (h.lists c).head with
        | nil =>
            rw [fillPages_nil _ hhead, fillPages_nil _ hhead]
        | cons p tail =>
            obtain ⟨g, rfl, ht⟩ := hlist.turn hhead hroom
            rw [fillPages_turn ht, fillPages_turn ht]
            by_cases hfull : g.used + share g f.count = g.capacity
            · obtain ⟨htail, hopen⟩ := ht.openList hlist hfull
              rw [hhead, List.length_cons] at hn hm
              exact ih n hopen (by rw [htail]; omega) (by rw [htail]; omega)
            · obtain ⟨-, hdone⟩ := ht.last hlist hfull rfl
              rw [fillPages_full _ hdone, fillPages_full _ hdone]

/-! ### Batches -/

section Batch

variable {out : Multiset Block} {loose mapped : Multiset Nat}

/-- What a page can still give is distinct, and on the page. -/
theorem Conserves.supply (hok : h.Conserves out loose mapped) (hp : h.pages p = some (.active g)) :
    (g.supply p).Nodup ∧ ∀ b ∈ g.supply p, pageOf b = p := by
  have hbal := hok.page p g hp
  have haligned := hok.page_aligned hp
  have hmade : ∀ b ∈ g.free, ∃ i < g.used + g.freeCount, PageHeader.blockAt p g.cls i = b := by
    intro b hb
    have hmem : b ∈ carved p g.cls (g.used + g.freeCount) := by
      rw [← hbal.ledger]
      exact Multiset.mem_add.2 (.inl hb)
    simpa [carved] using hmem
  refine ⟨List.nodup_append.2 ⟨?_, ?_, ?_⟩, fun b hb => ?_⟩
  · have hnodup := hbal.nodup
    rw [Multiset.nodup_add] at hnodup
    exact hnodup.1
  · exact (List.nodup_range').map (blockAt_injective p g.cls)
  · rintro a ha b hb rfl
    obtain ⟨i, hi, rfl⟩ := hmade a ha
    obtain ⟨j, hj, heq⟩ := List.mem_map.1 hb
    have hji := blockAt_injective p g.cls heq
    rw [List.mem_range'_1] at hj
    omega
  · rcases List.mem_append.1 hb with hb | hb
    · exact hbal.pageOf_free haligned hb
    · obtain ⟨i, hi, rfl⟩ := List.mem_map.1 hb
      rw [List.mem_range'_1] at hi
      exact pageOf_blockAt haligned (by omega)

/-- The pages of a partial list are open, if they have something left. -/
theorem Conserves.openList (hok : h.Conserves out loose mapped)
    (hleft : ∀ p ∈ (h.lists c).head, (h.header p).used < (h.header p).capacity) : h.OpenList c := by
  refine ⟨(hok.head c).1, fun p hp => ?_⟩
  obtain ⟨g, hg, hcls, hin⟩ := (hok.head c).2 p hp
  have hroom := hleft p hp
  rw [header_eq hg] at hroom
  have hbal := hok.page p g hg
  obtain ⟨hnodup, hhome⟩ := hok.supply hg
  exact ⟨g, hg, hcls, hin, ⟨hbal.freeCount, hbal.room, hroom⟩, hnodup, hhome⟩

theorem outAt_blocksOf_filter (chain : List Nat) :
    outAt (blocksOf c chain) p = ↑(chain.filter fun b => pageOf b = p) := by
  induction chain with
  | nil => rfl
  | cons b rest ih =>
      rw [blocksOf_cons, outAt_add, outAt_singleton, ih, List.filter_cons]
      by_cases hb : pageOf b = p
      · simp [hb]
      · simp [hb]

/-- No block is outside twice. -/
theorem Conserves.chain_nodup {chain : List Nat} (hok : h.Conserves (out + blocksOf c chain) loose mapped) :
    chain.Nodup := by
  rw [List.nodup_iff_count_le_one]
  intro b
  by_cases hb : b ∈ chain
  · obtain ⟨g, hg, -⟩ := hok.home ⟨c, b⟩ (Multiset.mem_add.2 (.inr (mem_blocksOf.2 ⟨rfl, hb⟩)))
    have hnodup := (hok.page _ g hg).nodup
    rw [outAt_add, outAt_blocksOf_filter, ← add_assoc, Multiset.nodup_add] at hnodup
    have hcount : chain.count b = (chain.filter fun x => pageOf x = pageOf b).count b :=
      (List.count_filter (by simp)).symm
    rw [hcount]
    exact List.nodup_iff_count_le_one.1 hnodup.2.1 b
  · rw [List.count_eq_zero_of_not_mem hb]
    exact Nat.zero_le _

/-- A batch is never overfilled. -/
theorem fillPage_le (n : Nat) (hf : f.count ≤ refillBatch) : (fillPage c p n h f).2.count ≤ refillBatch := by
  induction n generalizing h f with
  | zero => exact hf
  | succ n ih =>
      unfold fillPage
      split
      · exact hf
      · rename_i hroom
        have hone : f.count + 1 ≤ refillBatch := by omega
        dsimp only
        split
        · split
          · exact hone
          · exact ih hone
        · split
          · split
            · exact hf
            · exact ih hf
          · exact hf

theorem fillPages_le (n : Nat) (hf : f.count ≤ refillBatch) : (fillPages c n h f).2.count ≤ refillBatch := by
  induction n generalizing h f with
  | zero => exact hf
  | succ n ih =>
      unfold fillPages
      split
      · exact hf
      · split
        · exact hf
        · rename_i p rest hhead
          have hstart : (if (h.header p).virgin = true then f else { f with virgin := false }).count
              ≤ refillBatch := by
            split
            · exact hf
            · exact hf
          generalize (if (h.header p).virgin = true then f else { f with virgin := false }) = f₁ at *
          have hpage := fillPage_le (h := h) (c := c) (p := p) fillPageRounds hstart
          rcases hr : fillPage c p fillPageRounds h f₁ with ⟨h₁, f₂⟩
          rw [hr] at hpage
          simp only [hr]
          split
          · split
            · exact ih hpage
            · exact hpage
          · exact ih hpage

theorem takeLocked_le : (h.takeLocked c).2.count ≤ refillBatch := by
  have hfill : ∀ {h : SmallHeap} {f : Fill}, f.count = 0 → (h.fillFromList c f).2.count ≤ refillBatch :=
    fun hzero => fillPages_le _ (by rw [hzero]; exact Nat.zero_le _)
  have hempty : ∀ {h : SmallHeap} {f : Fill}, f.count ≤ refillBatch →
      (h.takeEmpty c f).2.count ≤ refillBatch := by
    intro h f hf
    unfold takeEmpty
    split
    · rename_i hcount _
      exact hfill hcount
    · exact hf
  have hcold : ∀ {h : SmallHeap} {f : Fill}, f.count ≤ refillBatch →
      (h.takeCold c f).2.count ≤ refillBatch := by
    intro h f hf
    unfold takeCold
    split
    · rename_i hcount _
      exact hfill hcount
    · exact hf
  have hfirst : (h.fillFromList c { chain := [], count := 0, virgin := true }).2.count ≤ refillBatch :=
    hfill rfl
  unfold takeLocked
  exact hcold (hempty hfirst)

theorem capacity_pos (c : Fin numClasses) : 0 < (PageHeader.init c).capacity := by
  have hle : classSize c ≤ pageSize - headerSize := by
    revert c
    decide
  exact Nat.div_pos hle (Nat.lt_of_lt_of_le (by decide) (classSize_pos c))

/-- A page that was just mapped gives at least one block. -/
theorem takeMapped_pos (hok : h.Conserves out ({p} + loose) mapped)
    (hleft : ∀ q ∈ (h.lists c).head, (h.header q).used < (h.header q).capacity) (hcount : f.count = 0) :
    0 < (h.takeMapped c p f).2.count := by
  have hlinked := hok.linkFresh c
  have hfresh : ((h.setHeader p (.init c)).linkPartial c p).pages p
      = some (.active { PageHeader.init c with inPartial := true }) := by
    unfold linkPartial
    rw [setHeader_pages]
    refine congrArg (fun g : PageHeader => some (Page.active { g with inPartial := true })) ?_
    exact header_eq setHeader_pages
  have hother : ∀ q, q ≠ p → ((h.setHeader p (.init c)).linkPartial c p).pages q = h.pages q := by
    intro q hq
    simp only [linkPartial, setHeader, setList, update_of_ne hq]
  have hhead : (((h.setHeader p (.init c)).linkPartial c p).lists c).head = p :: (h.lists c).head := by
    simp only [linkPartial, setHeader, setList, update_self]
  have hopen : ((h.setHeader p (.init c)).linkPartial c p).OpenList c := by
    refine hlinked.openList fun q hq => ?_
    by_cases hqp : q = p
    · rw [hqp, header_eq hfresh]
      exact capacity_pos c
    · rw [hhead] at hq
      rw [header_congr (hother q hqp)]
      exact hleft q ((List.mem_cons.1 hq).resolve_left hqp)
  obtain ⟨visited, rest, taken, hrefilled⟩ := fillPages_refilled (f := f) _ hopen (Nat.lt_succ_self _)
  have hlength := hrefilled.length
  have hgrown := hrefilled.count
  have hpos := capacity_pos c
  have hroom : 0 < ((h.setHeader p (.init c)).linkPartial c p).roomOf (p :: (h.lists c).head) := by
    unfold roomOf
    rw [List.map_cons, List.sum_cons, header_eq hfresh]
    exact Nat.lt_of_lt_of_le hpos (Nat.le_add_right _ _)
  rw [hcount, hhead] at hlength
  have hbatch : 0 < refillBatch - 0 := by decide
  have htotal : (h.takeMapped c p f).2.count = f.count + taken.length := hgrown
  omega

end Batch

/-- A heap whose partial list of class `c` has something in every page. -/
def Stocked (h : SmallHeap) (c : Fin numClasses) (out : Multiset Block) (loose : Multiset Nat) : Prop :=
  (∃ mapped, h.Conserves out loose mapped) ∧
    ∀ p ∈ (h.lists c).head, (h.header p).used < (h.header p).capacity

/-- **A refill takes what there is, up to a batch.** More rounds than the loops are given change nothing,
and `take_blocks` comes back without a block only if it could not map a page. -/
theorem refill_exact {h : SmallHeap} {c : Fin numClasses} {out : Multiset Block} {loose : Multiset Nat} :
    (∀ f : Fill, h.Stocked c (out + blocksOf c f.chain) loose → f.count = f.chain.length →
      (∃ visited rest taken,
        Refilled c h f (h.fillFromList c f).1 (h.fillFromList c f).2 visited rest taken) ∧
      (h.fillFromList c f).2.chain.Nodup ∧
      (∀ n, (h.lists c).head.length < n → fillPages c n h f = h.fillFromList c f) ∧
      ∀ p ∈ (h.lists c).head, ∀ n, fillPageRounds ≤ n →
        fillPage c p n h f = fillPage c p fillPageRounds h f) ∧
    ∀ mapping : Option (SmallHeap × Nat), h.Stocked c out loose →
      (∀ h' raw, mapping = some (h', raw) → ∃ out' loose', h'.Stocked c out' ({raw} + loose')) →
      (h.takeBlocks c mapping).count = (h.takeBlocks c mapping).chain.length ∧
      (h.takeBlocks c mapping).count ≤ refillBatch ∧
      ((h.takeBlocks c mapping).chain = [] → (h.takeLocked c).2.chain = [] ∧ mapping = none) := by
  refine ⟨fun f ⟨⟨mapped, hok⟩, hleft⟩ hf => ?_, fun mapping ⟨⟨mapped, hok⟩, hleft⟩ hmapping => ?_⟩
  · have hlist := hok.openList hleft
    have hfilled := fillFromList_filled (f := f) ⟨hok, hf⟩
    refine ⟨fillPages_refilled _ hlist (Nat.lt_succ_self _), hfilled.1.chain_nodup,
      fun n hn => fillPages_enough n hlist hn, fun p hp n hn => ?_⟩
    obtain ⟨g, hg, rfl, -, hopen, -⟩ := hlist.page p hp
    have hrounds : rounds g f.count ≤ fillPageRounds := by
      unfold rounds fillPageRounds
      split <;> omega
    rw [fillPage_eq n hg hopen (hrounds.trans hn), fillPage_eq _ hg hopen hrounds]
  · have hlocked := takeLocked_filled (c := c) hok
    have hle := takeLocked_le (h := h) (c := c)
    unfold takeBlocks
    rcases htaken : h.takeLocked c with ⟨h₁, f⟩
    rw [htaken] at hlocked hle
    dsimp only
    split
    · rename_i hzero
      have hnil := (hlocked.conserves hzero).2
      cases mapping with
      | none => exact ⟨hlocked.2, hle, fun _ => ⟨hnil, rfl⟩⟩
      | some m =>
          obtain ⟨h', raw⟩ := m
          obtain ⟨out', loose', ⟨mapped', hok'⟩, hleft'⟩ := hmapping h' raw rfl
          have hfilled := takeMapped_filled (c := c) hok' hzero hnil
          have hpos := takeMapped_pos hok' hleft' hzero
          refine ⟨hfilled.2, fillPages_le _ (by rw [hzero]; exact Nat.zero_le _), fun hnone => ?_⟩
          have hlength := hfilled.2
          dsimp only at hnone
          rw [hnone] at hlength
          rw [hlength] at hpos
          exact absurd hpos (Nat.lt_irrefl _)
    · rename_i hsome
      refine ⟨hlocked.2, hle, fun hnone => ?_⟩
      have hlength := hlocked.2
      dsimp only at hnone hlength
      rw [hnone] at hlength
      exact absurd hlength hsome

/-- A heap with one fresh page in a list. -/
def withPage (c : Fin numClasses) (page : Nat) : SmallHeap :=
  (SmallHeap.new.setHeader page (.init c)).linkPartial c page

theorem withPage_stocked {page : Nat} (hpage : page % pageSize = 0) :
    (withPage c page).Stocked c (0 + blocksOf c []) 0 := by
  have hfresh : (withPage c page).pages page
      = some (.active { PageHeader.init c with inPartial := true }) := by
    simp only [withPage, linkPartial, setHeader, setList, header, update_self]
  have hhead : ((withPage c page).lists c).head = [page] := by
    simp only [withPage, linkPartial, setHeader, setList, update_self]
    rfl
  refine ⟨⟨{page}, ?_⟩, fun q hq => ?_⟩
  · rw [blocksOf_nil, add_zero]
    exact (new_conserves hpage).linkFresh c
  · rw [hhead, List.mem_singleton] at hq
    rw [hq, header_eq hfresh]
    exact capacity_pos c

theorem refill_exact_first :
    (∃ visited rest taken, Refilled 45 (withPage 45 pageSize) ⟨[], 0, true⟩
      ((withPage 45 pageSize).fillFromList 45 ⟨[], 0, true⟩).1
      ((withPage 45 pageSize).fillFromList 45 ⟨[], 0, true⟩).2 visited rest taken) ∧
    (SmallHeap.new.takeBlocks 45 (some (SmallHeap.new, pageSize))).chain ≠ [] := by
  have hpage : pageSize % pageSize = 0 := by decide
  have hnew : SmallHeap.new.Stocked 45 0 ({pageSize} + 0) := ⟨⟨_, new_conserves hpage⟩, nofun⟩
  refine ⟨(refill_exact.1 _ (withPage_stocked hpage) rfl).1, fun hnil => ?_⟩
  have hmapping : ∀ h' raw, some (SmallHeap.new, pageSize) = some (h', raw) →
      ∃ out' loose', h'.Stocked 45 out' ({raw} + loose') := by
    rintro h' raw heq
    cases heq
    exact ⟨0, 0, hnew⟩
  have hmapped := ((refill_exact.2 _ hnew hmapping).2.2 hnil).2
  cases hmapped

end SmallHeap

end Allox
