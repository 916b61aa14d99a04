import Allox.DebugFree
import Allox.Proof.Carve
import Allox.Proof.SpanHeap

/-!
# What the checks accept

The two span checks accept the blocks of the carve that are not on the free list. The check of a small
page has no bound at the end of the page, so it takes the first byte behind the last block as well.
-/

namespace Allox

open ByteMemory (Linked)

/-- The check returns if `ok` holds, and aborts the process if not. -/
def Decides (v : Option Verdict) (ok : Prop) : Prop :=
  (ok → v = some .returns) ∧ (¬ok → ∃ message, v = some (.invalid message))

section Decides

variable {v : Option Verdict} {ok ok' : Prop} {message : String}

theorem Decides.invalid (h : ¬ok) : Decides (some (.invalid message)) ok :=
  ⟨fun hok => absurd hok h, fun _ => ⟨message, rfl⟩⟩

theorem Decides.congr (h : Decides v ok) (hiff : ok ↔ ok') : Decides v ok' :=
  ⟨fun hok => h.1 (hiff.2 hok), fun hnot => h.2 fun hok => hnot (hiff.1 hok)⟩

theorem Decides.unique (h : Decides v ok) (h' : Decides v ok') : ok ↔ ok' := by
  constructor
  · intro hok
    by_contra hnot
    obtain ⟨message, hmsg⟩ := h'.2 hnot
    rw [h.1 hok] at hmsg
    cases hmsg
  · intro hok
    by_contra hnot
    obtain ⟨message, hmsg⟩ := h.2 hnot
    rw [h'.1 hok] at hmsg
    cases hmsg

end Decides

/-- The free list of a page or span, and its counter. -/
structure FreeListAt (m : ByteMemory) (head count : Option Nat) (free : List Nat) : Prop where
  list : ∃ h, head = some h ∧ m.Linked wordSize h free
  count : count = some free.length

theorem walk_decides {m : ByteMemory} {p head : Nat} {free : List Nat} (guarded : Bool)
    (h : m.Linked wordSize head free) :
    Decides (walkFreeList m p guarded free.length head) (p ∉ free) := by
  unfold walkFreeList
  rw [h.search_eq guarded]
  by_cases hp : p ∈ free
  · simpa [hp] using Decides.invalid (not_not.2 hp)
  · exact ⟨fun _ => by simp [hp], fun hnot => absurd hp hnot⟩

/-- The area test and what comes after it. -/
theorem checkArea_decides {p start stop blockSize : Nat} {next : Option Verdict} {message : String}
    {ok : Prop} (h : Decides next ok) :
    Decides (checkArea p start stop blockSize next message)
      ((start ≤ p ∧ p + blockSize ≤ stop ∧ (p - start) % blockSize = 0) ∧ ok) := by
  unfold checkArea
  split
  · rename_i hout
    simp only [Bool.or_eq_true, decide_eq_true_eq] at hout
    refine .invalid ?_
    rintro ⟨⟨hlo, hhi, -⟩, -⟩
    omega
  · rename_i hin
    simp only [Bool.or_eq_true, decide_eq_true_eq, not_or, Nat.not_lt] at hin
    split
    · rename_i hmod
      exact .invalid fun hok => hmod hok.1.2.2
    · rename_i hmod
      exact h.congr ⟨fun hok => ⟨⟨hin.1, hin.2, not_not.1 hmod⟩, hok⟩, fun hok => hok.2⟩

theorem mem_blocksFrom_iff {size start stop b : Nat} (hsize : 0 < size) :
    b ∈ SpanTier.blocksFrom size start stop
      ↔ start ≤ b ∧ b + size ≤ stop ∧ (b - start) % size = 0 := by
  constructor
  · intro hb
    have hin := mem_blocksFrom hb
    obtain ⟨i, -, rfl⟩ := List.mem_map.1 hb
    exact ⟨hin.1, hin.2, by rw [Nat.add_sub_cancel_left, Nat.mul_mod_left]⟩
  · rintro ⟨hlo, hhi, hmod⟩
    have hdiv := Nat.div_add_mod (b - start) size
    rw [hmod, Nat.add_zero] at hdiv
    refine List.mem_map.2 ⟨(b - start) / size, List.mem_range.2 ?_, ?_⟩
    · rw [Nat.lt_iff_add_one_le, Nat.le_div_iff_mul_le hsize, Nat.add_mul, Nat.one_mul,
        Nat.mul_comm, hdiv]
      omega
    · rw [Nat.mul_comm, hdiv]
      omega

/-! ### Spans -/

/-- A span in memory, with its free list. Off the arena every further page has its sub-header. -/
structure SpanInMemory (t : SpanTier) (arena : Nat → Nat → Bool) (m : ByteMemory) (base : Nat)
    (c : Fin t.num) (npages : Nat) (free : List Nat) : Prop where
  place : base ≠ 0 ∧ base % pageSize = 0
  cls : m.load (base + 40) 2 = some c
  pages : m.load (base + 44) 4 = some npages
  list : FreeListAt m (masterHead m base) (masterCount m base) free
  subs : t = .medium → arena base (npages * pageSize) = false → ∀ i, 1 ≤ i → i < npages →
    m.load (base + i * pageSize) 8 = some spanSubmagic

section Span

variable {arena : Nat → Nat → Bool} {m : ByteMemory} {base npages p : Nat} {free : List Nat}

theorem mem_carve_contiguous (t : SpanTier) (c : Fin t.num) {whole : Bool}
    (hwhole : whole = true ∨ t = .big) :
    p ∈ t.carve c base npages whole ↔ base + spanMasterSize ≤ p ∧
      p + t.blockSize c ≤ base + npages * pageSize ∧
      (p - (base + spanMasterSize)) % t.blockSize c = 0 := by
  have hpos : 0 < t.blockSize c := by
    have := blockSize_pos t c
    omega
  unfold SpanTier.carve
  dsimp only
  rw [if_pos (by simpa using hwhole), mem_blocksFrom_iff hpos]

/-- Off the arena a block is in the chunk that its address says. -/
theorem mem_carve_legacy (base npages p : Nat) (c : Fin SpanTier.medium.num) :
    p ∈ SpanTier.medium.carve c base npages false ↔ base ≤ p ∧ (p - base) / pageSize < npages ∧
      chunkStart base ((p - base) / pageSize) ≤ p ∧
      p + SpanTier.medium.blockSize c ≤ base + (p - base) / pageSize * pageSize + pageSize ∧
      (p - chunkStart base ((p - base) / pageSize)) % SpanTier.medium.blockSize c = 0 := by
  have hpos : 0 < SpanTier.medium.blockSize c := by
    have := blockSize_pos .medium c
    omega
  unfold SpanTier.carve
  dsimp only
  rw [if_neg (by decide), List.mem_flatten]
  constructor
  · rintro ⟨l, hl, hp⟩
    obtain ⟨page, hpage, rfl⟩ := List.mem_map.1 hl
    obtain ⟨hlo, hhi, hmod⟩ := (mem_blocksFrom_iff hpos).1 hp
    have hrel : (p - base) / pageSize = page := by
      refine Nat.div_eq_of_lt_le ?_ ?_
      · omega
      · rw [Nat.succ_mul]
        omega
    rw [hrel]
    exact ⟨by omega, List.mem_range.1 hpage, hlo, hhi, hmod⟩
  · rintro ⟨-, hlt, hlo, hhi, hmod⟩
    exact ⟨_, List.mem_map.2 ⟨_, List.mem_range.2 hlt, rfl⟩,
      (mem_blocksFrom_iff hpos).2 ⟨hlo, hhi, hmod⟩⟩

theorem table_getD (t : SpanTier) (c : Fin t.num) : t.table.getD c 0 = t.blockSize c := by
  have hlookup : t.table[(c : Nat)]? = some (t.table.get c) := List.getElem?_eq_getElem c.isLt
  rw [List.getD_eq_getElem?_getD, hlookup]
  rfl

theorem debugValidateFreeBig_decides {c : Fin SpanTier.big.num}
    (h : SpanInMemory .big arena m base c npages free)
    (hin : base ≤ p ∧ p < base + npages * pageSize) :
    Decides (debugValidateFreeBig m p base)
      (p ∈ SpanTier.big.carve c base npages (arena base (npages * pageSize)) ∧ p ∉ free) := by
  obtain ⟨head, hhead, hlinked⟩ := h.list.list
  have hcount := h.list.count
  unfold masterHead at hhead
  unfold masterCount at hcount
  have hsize : bigClasses.getD c 0 = SpanTier.big.blockSize c := table_getD .big c
  have hne := h.place.1
  have hnull : ¬((decide (p = 0) || decide (base = 0)) = true) := by
    simp only [Bool.or_eq_true, decide_eq_true_eq, not_or]
    omega
  rw [mem_carve_contiguous .big c (.inr rfl)]
  unfold debugValidateFreeBig
  rw [if_neg hnull, h.cls, h.pages, hhead, hcount]
  simp only [Option.bind_eq_bind, Option.bind_some, Option.pure_def, hsize]
  split
  · rename_i hout
    simp only [Bool.or_eq_true, decide_eq_true_eq] at hout
    refine .invalid ?_
    rintro ⟨⟨hlo, -⟩, -⟩
    simp only [spanMasterSize] at hlo
    omega
  · exact checkArea_decides (walk_decides true hlinked)

theorem debugValidateFreeMedium_decides {c : Fin SpanTier.medium.num}
    (h : SpanInMemory .medium arena m base c npages free)
    (hin : base ≤ p ∧ p < base + npages * pageSize) :
    Decides (debugValidateFreeMedium arena m p base)
      (p ∈ SpanTier.medium.carve c base npages (arena base (npages * pageSize)) ∧ p ∉ free) := by
  obtain ⟨head, hhead, hlinked⟩ := h.list.list
  have hcount := h.list.count
  unfold masterHead at hhead
  unfold masterCount at hcount
  have hsize : mediumClasses.getD c 0 = SpanTier.medium.blockSize c := table_getD .medium c
  have hne := h.place.1
  have hnull : ¬((decide (p = 0) || decide (base = 0)) = true) := by
    simp only [Bool.or_eq_true, decide_eq_true_eq, not_or]
    omega
  have hrel : (p - base) / pageSize < npages := by
    refine Nat.div_lt_of_lt_mul ?_
    rw [Nat.mul_comm]
    omega
  have hwalk := walk_decides (p := p) true hlinked
  unfold debugValidateFreeMedium
  rw [if_neg hnull, h.cls, h.pages, hhead, hcount]
  simp only [Option.bind_eq_bind, Option.bind_some, Option.pure_def, hsize]
  split
  · -- the master itself is no block
    rename_i hout
    simp only [Bool.or_eq_true, decide_eq_true_eq] at hout
    refine .invalid ?_
    rintro ⟨hmem, -⟩
    have hfirst : p = base := by omega
    subst hfirst
    cases harena : arena p (npages * pageSize) with
    | true =>
        rw [harena, mem_carve_contiguous .medium c (.inl rfl)] at hmem
        simp only [spanMasterSize] at hmem
        omega
    | false =>
        rw [harena, mem_carve_legacy] at hmem
        rw [Nat.sub_self, Nat.zero_div] at hmem
        simp only [chunkStart, if_true, spanMasterSize] at hmem
        omega
  · split
    · rename_i harena
      rw [harena]
      refine (checkArea_decides hwalk).congr (and_congr_left fun _ => ?_)
      exact (mem_carve_contiguous .medium c (.inl rfl)).symm
    · rename_i harena
      have harena : arena base (npages * pageSize) = false := by simpa using harena
      rw [harena]
      have hmem := mem_carve_legacy base npages p c
      split
      · rename_i hzero
        refine (checkArea_decides hwalk).congr (and_congr_left fun _ => ?_)
        rw [hmem, chunkStart, if_pos hzero]
        exact ⟨fun hok => ⟨hin.1, hrel, hok⟩, fun hok => hok.2.2⟩
      · rename_i hzero
        rw [h.subs rfl harena _ (Nat.one_le_iff_ne_zero.2 hzero) hrel]
        simp only [Option.bind_some, ne_eq, not_true_eq_false, if_false]
        refine (checkArea_decides hwalk).congr (and_congr_left fun _ => ?_)
        rw [hmem, chunkStart, if_neg hzero]
        exact ⟨fun hok => ⟨hin.1, hrel, hok⟩, fun hok => hok.2.2⟩

end Span

/-! ### Small pages -/

/-- A small page in memory, with its free list. -/
structure PageInMemory (m : ByteMemory) (page : Nat) (c : Fin numClasses) (free : List Nat) : Prop where
  place : page ≠ 0 ∧ page % pageSize = 0
  magic : m.load page 8 = some pageMagic
  cls : m.load (page + 36) 2 = some c
  list : FreeListAt m (m.load (page + 24) 8) (m.load (page + 32) 2) free
  blocks : ∀ b ∈ free, b ∈ pageBlocks page (classSize c) (PageState.capacity (classSize c))

/-- The first byte behind the last block. -/
def tailOf (page size : Nat) : Nat := pageBlock page size (PageState.capacity size)

section Small

variable {m : ByteMemory} {page size p : Nat} {free : List Nat}

theorem mem_pageBlocks {n : Nat} : p ∈ pageBlocks page size n ↔ ∃ i < n, pageBlock page size i = p := by
  unfold pageBlocks
  simp only [List.mem_map, List.mem_range]

theorem tailOf_notMem (page : Nat) (hsize : 0 < size) :
    tailOf page size ∉ pageBlocks page size (PageState.capacity size) := by
  rw [mem_pageBlocks]
  rintro ⟨i, hi, heq⟩
  have hmul : i * size < PageState.capacity size * size := Nat.mul_lt_mul_of_pos_right hi hsize
  unfold tailOf pageBlock at heq
  omega

/-- Behind the last block there is less than a block left. -/
theorem lt_tailOf (page : Nat) (hsize : 0 < size) : page + pageSize < tailOf page size + size := by
  have hdiv := Nat.lt_div_mul_add hsize (a := pageSize - headerSize)
  have hheader : headerSize ≤ pageSize := by decide
  unfold tailOf pageBlock PageState.capacity
  omega

/-- The alignment test alone takes the tail for a block. -/
theorem aligned_iff (hsize : 0 < size) (hin : p < page + pageSize) :
    (page + headerSize ≤ p ∧ (p - page - headerSize) % size = 0)
      ↔ p ∈ pageBlocks page size (PageState.capacity size) ∨ p = tailOf page size := by
  constructor
  · rintro ⟨hlo, hmod⟩
    obtain ⟨i, hi⟩ := Nat.dvd_of_mod_eq_zero hmod
    have hp : pageBlock page size i = p := by
      unfold pageBlock
      rw [Nat.mul_comm]
      omega
    have hle : i ≤ PageState.capacity size := by
      by_contra hlt
      have hmul : (PageState.capacity size + 1) * size ≤ i * size := Nat.mul_le_mul_right _ (by omega)
      have htail := lt_tailOf page hsize
      rw [Nat.succ_mul] at hmul
      unfold tailOf at htail
      unfold pageBlock at hp htail
      omega
    rcases Nat.lt_or_eq_of_le hle with hlt | heq
    · exact .inl (mem_pageBlocks.2 ⟨i, hlt, hp⟩)
    · rw [← hp, heq]
      exact .inr rfl
  · have haligned : ∀ i, page + headerSize ≤ pageBlock page size i ∧
        (pageBlock page size i - page - headerSize) % size = 0 := by
      intro i
      have hoffset : pageBlock page size i - page - headerSize = i * size := by
        unfold pageBlock
        omega
      rw [hoffset, Nat.mul_mod_left]
      exact ⟨Nat.le_add_right _ _, rfl⟩
    rintro (hmem | rfl)
    · obtain ⟨i, -, rfl⟩ := mem_pageBlocks.1 hmem
      exact haligned i
    · exact haligned _

/-- A small page takes its blocks that are not free, and the tail. -/
theorem debugValidateFree_decides {c : Fin numClasses} (h : PageInMemory m page c free)
    (hin : page ≤ p ∧ p < page + pageSize) :
    Decides (debugValidateFree m p)
      (p ∈ pageBlocks page (classSize c) (PageState.capacity (classSize c)) ∧ p ∉ free ∨
        p = tailOf page (classSize c)) := by
  obtain ⟨head, hhead, hlinked⟩ := h.list.list
  have hpos : 0 < classSize c := Nat.lt_of_lt_of_le (by decide) (classSize_pos c)
  have hfree : tailOf page (classSize c) ∉ free := fun hmem => tailOf_notMem _ hpos (h.blocks _ hmem)
  have hok : (p ∈ pageBlocks page (classSize c) (PageState.capacity (classSize c)) ∧ p ∉ free ∨
      p = tailOf page (classSize c)) ↔
      (page + headerSize ≤ p ∧ (p - page - headerSize) % classSize c = 0) ∧ p ∉ free := by
    rw [aligned_iff hpos hin.2]
    constructor
    · rintro (⟨hmem, hnot⟩ | rfl)
      · exact ⟨.inl hmem, hnot⟩
      · exact ⟨.inr rfl, hfree⟩
    · rintro ⟨hmem | rfl, hnot⟩
      · exact .inl ⟨hmem, hnot⟩
      · exact .inr rfl
  have hpage : p / pageSize * pageSize = page := by
    have hmod := h.place.2
    simp only [pageSize] at hin hmod ⊢
    omega
  have hsize : classes.getD c 0 = classSize c := rfl
  refine Decides.congr ?_ hok.symm
  unfold debugValidateFree
  rw [if_neg (by have := h.place.1; omega)]
  simp only [hpage, h.magic, h.cls, hhead, h.list.count, Option.bind_eq_bind, Option.bind_some,
    Option.pure_def, ne_eq, not_true_eq_false, if_false, hsize]
  split
  · rename_i hout
    simp only [Bool.or_eq_true, decide_eq_true_eq] at hout
    refine .invalid ?_
    rintro ⟨⟨hlo, hmod⟩, -⟩
    omega
  · rename_i hgood
    simp only [Bool.or_eq_true, decide_eq_true_eq, not_or, Nat.not_lt, not_not] at hgood
    refine (walk_decides false hlinked).congr ⟨fun hnot => ⟨⟨by omega, hgood.2⟩, hnot⟩, fun hall => hall.2⟩

end Small

/-- The checks of the two span tiers take exactly the blocks that are not free. The check of a small page
does so at every address but one: the first byte behind the last block, where that is still in the page. -/
theorem debug_validation {m : ByteMemory} {base p : Nat} {free : List Nat} :
    (∀ c : Fin numClasses, PageInMemory m base c free → base ≤ p ∧ p < base + pageSize →
      (Decides (debugValidateFree m p)
          (p ∈ pageBlocks base (classSize c) (PageState.capacity (classSize c)) ∧ p ∉ free)
        ↔ p ≠ tailOf base (classSize c))) ∧
    (∀ (arena : Nat → Nat → Bool) (c : Fin SpanTier.medium.num) (npages : Nat),
      SpanInMemory .medium arena m base c npages free → base ≤ p ∧ p < base + npages * pageSize →
      Decides (debugValidateFreeMedium arena m p base)
        (p ∈ SpanTier.medium.carve c base npages (arena base (npages * pageSize)) ∧ p ∉ free)) ∧
    (∀ (arena : Nat → Nat → Bool) (c : Fin SpanTier.big.num) (npages : Nat),
      SpanInMemory .big arena m base c npages free → base ≤ p ∧ p < base + npages * pageSize →
      Decides (debugValidateFreeBig m p base)
        (p ∈ SpanTier.big.carve c base npages (arena base (npages * pageSize)) ∧ p ∉ free)) := by
  refine ⟨fun c h hin => ?_, fun _ _ _ h hin => debugValidateFreeMedium_decides h hin,
    fun _ _ _ h hin => debugValidateFreeBig_decides h hin⟩
  have hpos : 0 < classSize c := Nat.lt_of_lt_of_le (by decide) (classSize_pos c)
  have hdecides := debugValidateFree_decides h hin
  constructor
  · rintro hclaim rfl
    exact tailOf_notMem _ hpos ((hclaim.unique hdecides).2 (.inr rfl)).1
  · intro htail
    exact hdecides.congr ⟨fun hok => hok.resolve_right htail, .inl⟩

/-- A page or span of class `cls` at the first page address, with nothing on its free list. -/
def bareHeader (magic cls npages : Nat) : ByteMemory :=
  let m := ByteMemory.store (fun _ => none) pageSize magic 8
  let m := (m.store (pageSize + 24) 0 8).store (pageSize + 32) 0 4
  let m := (m.store (pageSize + 36) cls 2).store (pageSize + 40) cls 2
  m.store (pageSize + 44) npages 4

theorem bareHeader_free (magic cls npages n : Nat)
    (hcount : (bareHeader magic cls npages).load (pageSize + 32) n = some 0) :
    FreeListAt (bareHeader magic cls npages) ((bareHeader magic cls npages).load (pageSize + 24) 8)
      ((bareHeader magic cls npages).load (pageSize + 32) n) [] :=
  ⟨⟨0, rfl, rfl⟩, hcount⟩

theorem bareHeader_page : PageInMemory (bareHeader pageMagic 1 0) pageSize 1 [] where
  place := by decide
  magic := rfl
  cls := rfl
  list := bareHeader_free _ _ _ 2 rfl
  blocks := nofun

/-- The same with one block on the free list. -/
def freedHeader (magic cls npages b : Nat) : ByteMemory :=
  let m := ((bareHeader magic cls npages).store (pageSize + 24) b 8).store (pageSize + 32) 1 4
  m.store b 0 8

theorem freedHeader_page : PageInMemory (freedHeader pageMagic 1 0 (pageSize + headerSize)) pageSize 1
    [pageSize + headerSize] where
  place := by decide
  magic := rfl
  cls := rfl
  list := ⟨⟨_, rfl, rfl, by decide, 0, rfl, rfl⟩, rfl⟩
  blocks := by
    intro b hb
    rw [List.mem_singleton.1 hb]
    exact mem_pageBlocks.2 ⟨0, by decide, rfl⟩

theorem freedHeader_span (t : SpanTier) (magic : Nat) :
    SpanInMemory t (fun _ _ => true) (freedHeader magic 0 8 (pageSize + spanMasterSize)) pageSize 0 8
      [pageSize + spanMasterSize] where
  place := by decide
  cls := rfl
  pages := rfl
  list := ⟨⟨_, rfl, rfl, by decide, 0, rfl, rfl⟩, rfl⟩
  subs := nofun

/-- In each tier the first block is free, so that a second free of it is found out, and the next block
passes. -/
theorem debug_validation_double :
    ((∃ message, debugValidateFree (freedHeader pageMagic 1 0 (pageSize + headerSize))
        (pageSize + headerSize) = some (.invalid message)) ∧
      debugValidateFree (freedHeader pageMagic 1 0 (pageSize + headerSize))
        (pageSize + headerSize + classSize 1) = some .returns) ∧
    ((∃ message, debugValidateFreeMedium (fun _ _ => true)
        (freedHeader spanMagic 0 8 (pageSize + spanMasterSize)) (pageSize + spanMasterSize) pageSize
          = some (.invalid message)) ∧
      debugValidateFreeMedium (fun _ _ => true)
        (freedHeader spanMagic 0 8 (pageSize + spanMasterSize))
        (pageSize + spanMasterSize + SpanTier.medium.blockSize 0) pageSize = some .returns) ∧
    (∃ message, debugValidateFreeBig (freedHeader bigMagic 0 8 (pageSize + spanMasterSize))
      (pageSize + spanMasterSize) pageSize = some (.invalid message)) ∧
    debugValidateFreeBig (freedHeader bigMagic 0 8 (pageSize + spanMasterSize))
      (pageSize + spanMasterSize + SpanTier.big.blockSize 0) pageSize = some .returns := by
  have hpage (p : Nat) (hin : pageSize ≤ p ∧ p < pageSize + pageSize)
      (htail : p ≠ tailOf pageSize (classSize 1)) :=
    (debug_validation.1 1 freedHeader_page hin).2 htail
  have hmedium (p : Nat) (hin : pageSize ≤ p ∧ p < pageSize + 8 * pageSize) :=
    debug_validation.2.1 _ 0 8 (freedHeader_span .medium spanMagic) hin
  have hbig (p : Nat) (hin : pageSize ≤ p ∧ p < pageSize + 8 * pageSize) :=
    debug_validation.2.2 _ 0 8 (freedHeader_span .big bigMagic) hin
  refine ⟨⟨?_, ?_⟩, ⟨?_, ?_⟩, ?_, ?_⟩
  · exact (hpage _ (by decide) (by decide)).2 fun hok => hok.2 List.mem_cons_self
  · exact (hpage _ (by decide) (by decide)).1 ⟨mem_pageBlocks.2 ⟨1, by decide, by decide⟩, by decide⟩
  · exact (hmedium _ (by decide)).2 fun hok => hok.2 List.mem_cons_self
  · exact (hmedium _ (by decide)).1
      ⟨(mem_carve_contiguous .medium 0 (.inl rfl)).2 (by decide), by decide⟩
  · exact (hbig _ (by decide)).2 fun hok => hok.2 List.mem_cons_self
  · exact (hbig _ (by decide)).1
      ⟨(mem_carve_contiguous .big 0 (.inl rfl)).2 (by decide), by decide⟩

/-- With 32 byte blocks the last 16 bytes of a page are no block, and their address passes. -/
theorem debug_validation_tail : ∃ m page c free p, PageInMemory m page c free ∧
    (page ≤ p ∧ p < page + pageSize) ∧ debugValidateFree m p = some .returns ∧
    ¬Decides (debugValidateFree m p)
      (p ∈ pageBlocks page (classSize c) (PageState.capacity (classSize c)) ∧ p ∉ free) := by
  have hin : pageSize ≤ tailOf pageSize (classSize 1) ∧
      tailOf pageSize (classSize 1) < pageSize + pageSize := by decide
  have hpasses := (debugValidateFree_decides bareHeader_page hin).1 (.inr rfl)
  refine ⟨_, pageSize, 1, [], tailOf pageSize (classSize 1), bareHeader_page, hin, hpasses, ?_⟩
  intro hclaim
  have hnot := tailOf_notMem pageSize (show 0 < classSize 1 by decide)
  obtain ⟨message, hmessage⟩ := hclaim.2 fun hok => hnot hok.1
  rw [hpasses] at hmessage
  cases hmessage

end Allox
