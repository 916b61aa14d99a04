import Allox.Carve
import Mathlib.Data.List.Range
import Mathlib.Data.List.Nodup
import Mathlib.Data.List.Perm.Basic

/-!
# What a carve makes

Every carving loop leaves a null-terminated list of blocks that lie apart, are aligned, and touch no
header, and it makes as many as the capacity formula says. For a small page this holds after any run:
the blocks it has made are always the first ones of its area, in the free list or outside.
-/

namespace Allox

open ByteMemory (Linked)

/-- A free list of blocks of `size` bytes between `lo` and `hi`. -/
structure FreeBlocks (m : ByteMemory) (head size lo hi : Nat) (blocks : List Nat) : Prop where
  linked : m.Linked wordSize head blocks
  aligned : ∀ b ∈ blocks, b % minAlign = 0
  inside : ∀ b ∈ blocks, lo ≤ b ∧ b + size ≤ hi
  apart : blocks.Pairwise fun a b => a + size ≤ b ∨ b + size ≤ a

/-- A block size: a multiple of sixteen, and not zero. -/
structure BlockSize (size : Nat) : Prop where
  pos : 0 < size
  aligned : size % minAlign = 0

theorem BlockSize.le {size : Nat} (h : BlockSize size) : 16 ≤ size := by
  have hpos := h.pos
  have hal := h.aligned
  simp only [minAlign] at hal
  omega

/-- Addresses fit a word. -/
theorem lt_word {a : Nat} (h : a < 2 ^ 64) : a < 256 ^ wordSize :=
  Nat.lt_of_lt_of_eq h (by decide)

section Fill

variable {m m' : ByteMemory} {head size lo hi b stop : Nat} {blocks new : List Nat} {s s' : Carving}

theorem FreeBlocks.head_lt (h : FreeBlocks m head size lo hi blocks) (hsize : BlockSize size)
    (hhi : hi ≤ 2 ^ 64) : head < 256 ^ wordSize := by
  have hle := hsize.le
  rcases h.linked.head_mem with hzero | hmem
  · rw [hzero]
    decide
  · have hin := (h.inside head hmem).2
    exact lt_word (by omega)

/-- The list survives what happens to other bytes. -/
theorem FreeBlocks.congr (h : FreeBlocks m head size lo hi blocks)
    (hsame : ∀ b ∈ blocks, ∀ i < wordSize, m (b + i) = m' (b + i)) :
    FreeBlocks m' head size lo hi blocks :=
  { h with linked := h.linked.congr hsame }

theorem FreeBlocks.push (h : FreeBlocks m head size lo hi blocks) (hsize : BlockSize size)
    (hhi : hi ≤ 2 ^ 64) (hpos : 0 < b) (haligned : b % minAlign = 0) (hlo : lo ≤ b)
    (hin : b + size ≤ hi) (hout : ∀ c ∈ blocks, c + size ≤ b ∨ b + size ≤ c) :
    FreeBlocks (m.store b head wordSize) b size lo hi (b :: blocks) where
  linked := by
    have hle := hsize.le
    refine h.linked.push (by omega) (h.head_lt hsize hhi) fun c hc => ?_
    rcases hout c hc with hlt | hlt
    · exact .inl (by simp only [wordSize]; omega)
    · exact .inr (by simp only [wordSize]; omega)
  aligned c hc := by
    rcases List.mem_cons.1 hc with rfl | hc
    · exact haligned
    · exact h.aligned c hc
  inside c hc := by
    rcases List.mem_cons.1 hc with rfl | hc
    · exact ⟨hlo, hin⟩
    · exact h.inside c hc
  apart := List.pairwise_cons.2 ⟨fun c hc => (hout c hc).symm, h.apart⟩

/-- The loop over `[b, stop)` has added the blocks `new`. -/
structure Carving.Filled (s s' : Carving) (size lo hi b stop : Nat) (blocks new : List Nat) : Prop where
  free : FreeBlocks s'.mem s'.head size lo hi (new ++ blocks)
  length : new.length = (stop - b) / size
  inside : ∀ c ∈ new, b ≤ c ∧ c + size ≤ stop
  count : s'.count = (new ++ blocks).length % 2 ^ 32
  same : ∀ a, a < b ∨ stop ≤ a → s'.mem a = s.mem a

/-- Below `stop` there is no room for a block. -/
theorem Carving.Filled.nil (h : FreeBlocks s.mem s.head size lo hi blocks)
    (hcount : s.count = blocks.length % 2 ^ 32) (hstop : stop - b < size) :
    s.Filled s size lo hi b stop blocks [] where
  free := h
  length := (Nat.div_eq_of_lt hstop).symm
  inside _ hc := absurd hc List.not_mem_nil
  count := hcount
  same _ _ := rfl

theorem Carving.fill_filled (hsize : BlockSize size) (hhi : hi ≤ 2 ^ 64) (hstop : stop ≤ hi) (n : Nat)
    (hfuel : stop - b ≤ n) (hpos : 0 < b) (haligned : b % minAlign = 0) (hlo : lo ≤ b)
    (h : FreeBlocks s.mem s.head size lo hi blocks) (hcount : s.count = blocks.length % 2 ^ 32)
    (hbelow : ∀ c ∈ blocks, c + size ≤ b) :
    ∃ new, s.Filled (s.fill size stop n b) size lo hi b stop blocks new := by
  have hle := hsize.le
  induction n generalizing b s blocks with
  | zero => exact ⟨[], .nil h hcount (by omega)⟩
  | succ n ih =>
      unfold Carving.fill
      split
      · rename_i hroom
        have hpush := h.push hsize hhi hpos haligned hlo (Nat.le_trans hroom hstop)
          fun c hc => .inl (hbelow c hc)
        have haligned' : (b + size) % minAlign = 0 := by
          have hal := hsize.aligned
          simp only [minAlign] at haligned hal ⊢
          omega
        have hcount' : (s.push b).count = (b :: blocks).length % 2 ^ 32 := by
          simp [Carving.push, hcount]
        have hbelow' : ∀ c ∈ b :: blocks, c + size ≤ b + size := by
          intro c hc
          rcases List.mem_cons.1 hc with rfl | hc
          · exact le_rfl
          · exact Nat.le_trans (hbelow c hc) (Nat.le_add_right b size)
        obtain ⟨new, hnew⟩ := ih (by omega) (by omega) haligned' (by omega) hpush hcount' hbelow'
        refine ⟨new ++ [b], ?_, ?_, fun c hc => ?_, ?_, fun a ha => ?_⟩
        · simpa using hnew.free
        · have hsplit : stop - b = stop - (b + size) + size := by omega
          rw [List.length_append, hnew.length, hsplit, Nat.add_div_right _ hsize.pos]
          rfl
        · rcases List.mem_append.1 hc with hc | hc
          · have := hnew.inside c hc
            omega
          · rw [List.mem_singleton.1 hc]
            exact ⟨le_rfl, hroom⟩
        · simpa using hnew.count
        · rw [hnew.same a (by omega)]
          exact ByteMemory.store_other (by simp only [wordSize]; omega)
      · exact ⟨[], .nil h hcount (by omega)⟩

theorem Carving.fillFrom_filled (hsize : BlockSize size) (hhi : hi ≤ 2 ^ 64) (hstop : stop ≤ hi)
    (hpos : 0 < b) (haligned : b % minAlign = 0) (hlo : lo ≤ b)
    (h : FreeBlocks s.mem s.head size lo hi blocks) (hcount : s.count = blocks.length % 2 ^ 32)
    (hbelow : ∀ c ∈ blocks, c + size ≤ b) :
    ∃ new, s.Filled (s.fillFrom size b stop) size lo hi b stop blocks new :=
  Carving.fill_filled hsize hhi hstop _ le_rfl hpos haligned hlo h hcount hbelow

theorem FreeBlocks.nil (m : ByteMemory) (size lo hi : Nat) : FreeBlocks m 0 size lo hi [] where
  linked := rfl
  aligned _ hb := absurd hb List.not_mem_nil
  inside _ hb := absurd hb List.not_mem_nil
  apart := List.Pairwise.nil

end Fill

/-! ### Masters -/

section Master

variable {m : ByteMemory} {s : Carving} {base magic cls npages size hi lo a k : Nat} {blocks : List Nat}

/-- The fields are in the first 64 bytes. -/
theorem writeMaster_other (ha : a < base ∨ base + spanMasterSize ≤ a) :
    writeMaster s base magic cls npages a = s.mem a := by
  simp only [spanMasterSize] at ha
  unfold writeMaster
  repeat rw [ByteMemory.store_other (by omega)]

theorem writeMaster_magic (hmagic : magic < 2 ^ 64) :
    (writeMaster s base magic cls npages).load base 8 = some magic := by
  unfold writeMaster
  simp only
  repeat rw [ByteMemory.load_store_other (by omega)]
  exact ByteMemory.load_store_same hmagic

theorem writeMaster_head (hhead : s.head < 256 ^ wordSize) :
    masterHead (writeMaster s base magic cls npages) base = some s.head := by
  unfold masterHead writeMaster
  simp only
  repeat rw [ByteMemory.load_store_other (by omega)]
  exact ByteMemory.load_store_same hhead

theorem writeMaster_count (hcount : s.count < 2 ^ 32) :
    masterCount (writeMaster s base magic cls npages) base = some s.count := by
  unfold masterCount writeMaster
  simp only
  repeat rw [ByteMemory.load_store_other (by omega)]
  exact ByteMemory.load_store_same hcount

/-- What `init` leaves of a span whose blocks lie between `lo` and `hi`. -/
structure MasterOf (m : ByteMemory) (base size lo hi : Nat) (blocks : List Nat) : Prop where
  head : ∃ head, masterHead m base = some head ∧ FreeBlocks m head size lo hi blocks
  count : masterCount m base = some (blocks.length % 2 ^ 32)

/-- Writing the master leaves the blocks behind it alone. -/
theorem masterOf_writeMaster (hsize : BlockSize size) (hhi : hi ≤ 2 ^ 64)
    (hlo : base + spanMasterSize ≤ lo) (h : FreeBlocks s.mem s.head size lo hi blocks)
    (hcount : s.count = blocks.length % 2 ^ 32) :
    MasterOf (writeMaster s base magic cls npages) base size lo hi blocks where
  head := by
    refine ⟨s.head, writeMaster_head (h.head_lt hsize hhi), h.congr fun b hb i _ => ?_⟩
    have hin := (h.inside b hb).1
    exact (writeMaster_other (.inr (by omega))).symm
  count := by
    rw [← hcount]
    refine writeMaster_count ?_
    rw [hcount]
    exact Nat.mod_lt _ (by decide)

/-- **The contiguous carve**, of a medium span on the arena or of a big span. -/
theorem initSpan_contiguous (hsize : BlockSize size) (m : ByteMemory) (magic cls : Nat)
    (hbase : base % pageSize = 0) (hend : base + npages * pageSize ≤ 2 ^ 64) :
    ∃ blocks, MasterOf
        (writeMaster (Carving.fillFrom size (base + spanMasterSize) (base + npages * pageSize) ⟨m, 0, 0⟩)
          base magic cls npages)
        base size (base + spanMasterSize) (base + npages * pageSize) blocks ∧
      blocks.length = mediumCapacityFor size npages := by
  have haligned : (base + spanMasterSize) % minAlign = 0 := by
    simp only [pageSize, spanMasterSize, minAlign] at hbase ⊢
    omega
  have hnil : FreeBlocks (⟨m, 0, 0⟩ : Carving).mem 0 size (base + spanMasterSize)
      (base + npages * pageSize) [] := .nil m _ _ _
  obtain ⟨new, hnew⟩ := Carving.fillFrom_filled (s := ⟨m, 0, 0⟩) hsize hend le_rfl
    (by simp only [spanMasterSize]; omega) haligned le_rfl hnil rfl (by simp)
  refine ⟨new ++ [], masterOf_writeMaster hsize hend le_rfl hnew.free hnew.count, ?_⟩
  rw [List.append_nil, hnew.length, mediumCapacityFor, Nat.add_sub_add_left]

/-! ### The legacy layout -/

/-- A sub-header names the master. -/
theorem writeSubHeaders_load (m : ByteMemory) (hbase : base < 2 ^ 64) {i : Nat} (hi : 1 ≤ i)
    (hin : i < npages) :
    (writeSubHeaders m base npages).load (base + i * pageSize) 8 = some spanSubmagic ∧
      (writeSubHeaders m base npages).load (base + i * pageSize + 8) 8 = some base := by
  unfold writeSubHeaders
  obtain ⟨n, rfl⟩ : ∃ n, npages = n + 1 := ⟨npages - 1, by omega⟩
  rw [Nat.add_sub_cancel]
  have hin : i ≤ n := by omega
  clear hin
  have hin : i ≤ n := by omega
  induction n with
  | zero => omega
  | succ n ih =>
      rw [List.range'_1_concat, List.foldl_append, List.foldl_cons, List.foldl_nil]
      by_cases hlast : i = 1 + n
      · subst hlast
        constructor
        · rw [ByteMemory.load_store_other (by omega)]
          exact ByteMemory.load_store_same (by decide)
        · exact ByteMemory.load_store_same hbase
      · have hlt : i < 1 + n := by omega
        have hmul : (i + 1) * pageSize ≤ (1 + n) * pageSize := Nat.mul_le_mul_right _ hlt
        rw [Nat.succ_mul] at hmul
        simp only [pageSize] at hmul ⊢
        rw [ByteMemory.load_store_other (by omega), ByteMemory.load_store_other (by omega),
          ByteMemory.load_store_other (by omega), ByteMemory.load_store_other (by omega)]
        exact ih (by omega) (by omega)

/-- A block lies in one chunk, behind the header of the chunk. -/
def InChunk (base size b : Nat) : Prop :=
  chunkStart base ((b - base) / pageSize) ≤ b ∧
    b + size ≤ base + (b - base) / pageSize * pageSize + pageSize

/-- The first `k` chunks have been carved. -/
structure Chunks (m : ByteMemory) (size base hi k : Nat) (s : Carving) (blocks : List Nat) : Prop where
  free : FreeBlocks s.mem s.head size (base + spanMasterSize) hi blocks
  below : ∀ c ∈ blocks, c + size ≤ base + k * pageSize
  chunk : ∀ c ∈ blocks, InChunk base size c
  length : blocks.length = mediumCapacityLegacyFor size k
  count : s.count = blocks.length % 2 ^ 32
  same : ∀ a, a < base + spanMasterSize ∨ (a - base) % pageSize < spanSubSize → s.mem a = m a

theorem inChunk_of_page {b k : Nat} (hlo : chunkStart base k ≤ b)
    (hin : b + size ≤ base + k * pageSize + pageSize) (hsize : 0 < size) : InChunk base size b := by
  have hpage : (b - base) / pageSize = k := by
    unfold chunkStart at hlo
    refine Nat.div_eq_of_lt_le ?_ ?_
    · omega
    · rw [Nat.succ_mul]
      omega
  unfold InChunk
  rw [hpage]
  exact ⟨hlo, hin⟩

theorem legacyCapacity_succ (size k : Nat) :
    mediumCapacityLegacyFor size (k + 1)
      = (pageSize - if k = 0 then spanMasterSize else spanSubSize) / size
        + mediumCapacityLegacyFor size k := by
  unfold mediumCapacityLegacyFor
  cases k with
  | zero => simp [mediumChunkReserve, spanMasterSize]
  | succ k =>
      simp only [Nat.add_eq_zero_iff, Nat.one_ne_zero, and_false, if_false, Nat.add_sub_cancel,
        Nat.succ_mul]
      omega

theorem chunks_step (hsize : BlockSize size) {k : Nat} (hhi : hi ≤ 2 ^ 64)
    (hbase : base % pageSize = 0) (hin : base + (k + 1) * pageSize ≤ hi)
    (h : Chunks m size base hi k s blocks) :
    ∃ blocks', Chunks m size base hi (k + 1)
      (s.fillFrom size (chunkStart base k) (base + k * pageSize + pageSize)) blocks' := by
  have hstart : base + spanMasterSize ≤ chunkStart base k ∧
      base + k * pageSize + spanSubSize ≤ chunkStart base k ∧
      chunkStart base k % minAlign = 0 ∧ 0 < chunkStart base k ∧
      base + k * pageSize + pageSize - chunkStart base k
        = pageSize - if k = 0 then spanMasterSize else spanSubSize := by
    unfold chunkStart
    by_cases hk : k = 0
    · subst hk
      simp only [pageSize, spanMasterSize, spanSubSize, minAlign, if_true] at hbase ⊢
      omega
    · simp only [pageSize, spanMasterSize, spanSubSize, minAlign, if_neg hk] at hbase ⊢
      omega
  obtain ⟨hlo, hsub, haligned, hpos, hroom⟩ := hstart
  rw [Nat.succ_mul] at hin
  have hstop : base + k * pageSize + pageSize ≤ hi := by omega
  obtain ⟨new, hnew⟩ := Carving.fillFrom_filled hsize hhi hstop hpos haligned hlo h.free h.count
    fun c hc => by
      have := h.below c hc
      omega
  refine ⟨new ++ blocks, hnew.free, fun c hc => ?_, fun c hc => ?_, ?_, hnew.count, fun a ha => ?_⟩
  · rw [Nat.succ_mul]
    rcases List.mem_append.1 hc with hc | hc
    · have := hnew.inside c hc
      omega
    · have := h.below c hc
      omega
  · rcases List.mem_append.1 hc with hc | hc
    · have hc := hnew.inside c hc
      exact inChunk_of_page hc.1 hc.2 hsize.pos
    · exact h.chunk c hc
  · rw [List.length_append, hnew.length, hroom, h.length, legacyCapacity_succ]
  · -- a header is below the first block of its chunk, and the others are in other chunks
    rw [hnew.same a ?_, h.same a ha]
    rcases ha with ha | ha
    · exact .inl (by omega)
    · by_contra hnot
      have hpage : (a - base) / pageSize = k := by
        refine Nat.div_eq_of_lt_le ?_ ?_
        · omega
        · rw [Nat.succ_mul]
          omega
      have hmod := Nat.div_add_mod (a - base) pageSize
      rw [hpage, Nat.mul_comm] at hmod
      omega

theorem chunks_run (hsize : BlockSize size) (m : ByteMemory) (hhi : hi ≤ 2 ^ 64)
    (hbase : base % pageSize = 0) (k : Nat) (hin : base + k * pageSize ≤ hi) :
    ∃ blocks, Chunks m size base hi k
      ((List.range k).foldl (fun s page =>
        s.fillFrom size (chunkStart base page) (base + page * pageSize + pageSize)) ⟨m, 0, 0⟩)
      blocks := by
  induction k with
  | zero =>
      exact ⟨[], .nil m _ _ _, fun c hc => absurd hc List.not_mem_nil,
        fun c hc => absurd hc List.not_mem_nil, rfl, rfl, fun _ _ => rfl⟩
  | succ k ih =>
      rw [List.range_succ, List.foldl_append, List.foldl_cons, List.foldl_nil]
      obtain ⟨blocks, hblocks⟩ := ih (by rw [Nat.succ_mul] at hin; omega)
      exact chunks_step hsize hhi hbase hin hblocks

/-- **The legacy carve.** The headers of the chunks lead every block to its master. -/
theorem initSpan_legacy (hsize : BlockSize size) (m : ByteMemory) (cls : Nat)
    (hbase : base % pageSize = 0) (hend : base + npages * pageSize ≤ 2 ^ 64) :
    ∃ blocks, MasterOf (initSpan m size cls base npages false) base size (base + spanMasterSize)
        (base + npages * pageSize) blocks ∧
      blocks.length = mediumCapacityLegacyFor size npages ∧
      (∀ b ∈ blocks, InChunk base size b) ∧
      ∀ b ∈ blocks, legacyMasterOf (initSpan m size cls base npages false) b = some base := by
  obtain ⟨blocks, h⟩ := chunks_run hsize (writeSubHeaders m base npages) hend hbase npages le_rfl
  have hmaster : initSpan m size cls base npages false = writeMaster
      ((List.range npages).foldl (fun s page =>
        s.fillFrom size (chunkStart base page) (base + page * pageSize + pageSize))
        ⟨writeSubHeaders m base npages, 0, 0⟩) base spanMagic cls npages := rfl
  rw [hmaster]
  refine ⟨blocks, masterOf_writeMaster hsize hend le_rfl h.free h.count, h.length, h.chunk,
    fun b hb => ?_⟩
  have hin := h.free.inside b hb
  have hle := hsize.le
  have hpos : 0 < npages := by
    rcases Nat.eq_zero_or_pos npages with hzero | hpos
    · subst hzero
      simp only [spanMasterSize] at hin
      omega
    · exact hpos
  have hroom : pageSize ≤ npages * pageSize := Nat.le_mul_of_pos_left _ hpos
  have hpage : b / pageSize * pageSize = base + (b - base) / pageSize * pageSize := by
    simp only [pageSize] at hbase ⊢
    omega
  unfold legacyMasterOf
  simp only [hpage]
  by_cases hfirst : (b - base) / pageSize = 0
  · rw [hfirst, Nat.zero_mul, Nat.add_zero, writeMaster_magic (by decide)]
    rfl
  · have hlt : (b - base) / pageSize < npages := by
      refine Nat.div_lt_of_lt_mul ?_
      rw [Nat.mul_comm]
      omega
    generalize (b - base) / pageSize = i at hfirst hlt
    have hi : pageSize ≤ i * pageSize := Nat.le_mul_of_pos_left _ (by omega)
    have hword : base < 2 ^ 64 := by
      simp only [pageSize] at hroom
      omega
    obtain ⟨hmagic, hname⟩ := writeSubHeaders_load m hword (by omega) hlt
    have hsame : ∀ j < spanSubSize, writeMaster ((List.range npages).foldl (fun s page =>
        s.fillFrom size (chunkStart base page) (base + page * pageSize + pageSize))
        ⟨writeSubHeaders m base npages, 0, 0⟩) base spanMagic cls npages (base + i * pageSize + j)
        = writeSubHeaders m base npages (base + i * pageSize + j) := by
      intro j hj
      rw [writeMaster_other (by simp only [pageSize, spanMasterSize] at hi ⊢; omega)]
      refine h.same _ (.inr ?_)
      rw [Nat.add_assoc, Nat.add_sub_cancel_left, Nat.add_comm, Nat.add_mul_mod_self_right]
      simp only [pageSize, spanSubSize] at hj ⊢
      omega
    generalize writeMaster _ base spanMagic cls npages = mem at hsame ⊢
    have hfirst8 : mem.load (base + i * pageSize) 8
        = (writeSubHeaders m base npages).load (base + i * pageSize) 8 :=
      ByteMemory.load_congr fun j hj => hsame j (by simp only [spanSubSize]; omega)
    have hsecond8 : mem.load (base + i * pageSize + 8) 8
        = (writeSubHeaders m base npages).load (base + i * pageSize + 8) 8 := by
      refine ByteMemory.load_congr fun j hj => ?_
      have := hsame (8 + j) (by simp only [spanSubSize]; omega)
      rwa [← Nat.add_assoc] at this
    rw [hfirst8, hsecond8, hmagic, hname]
    rfl

end Master

/-! ### Provisioning a small page -/

section Page

variable {page size : Nat} {s s' : PageState} {out free : List Nat}

/-- The `i`-th block of a page. -/
def pageBlock (page size i : Nat) : Nat := page + headerSize + i * size

theorem pageBlock_injective (hsize : BlockSize size) : Function.Injective (pageBlock page size) := by
  intro i j hij
  exact Nat.eq_of_mul_eq_mul_right hsize.pos (Nat.add_left_cancel hij)

theorem pageBlock_apart {i j : Nat} (hij : i ≠ j) :
    pageBlock page size i + size ≤ pageBlock page size j ∨
      pageBlock page size j + size ≤ pageBlock page size i := by
  unfold pageBlock
  rcases Nat.lt_or_gt_of_ne hij with hlt | hlt
  · have hmul : (i + 1) * size ≤ j * size := Nat.mul_le_mul_right _ hlt
    rw [Nat.succ_mul] at hmul
    exact .inl (by omega)
  · have hmul : (j + 1) * size ≤ i * size := Nat.mul_le_mul_right _ hlt
    rw [Nat.succ_mul] at hmul
    exact .inr (by omega)

/-- The first `n` blocks. -/
def pageBlocks (page size n : Nat) : List Nat := (List.range n).map (pageBlock page size)

/-- The blocks a page has made are its first ones, and each is in the free list or outside. -/
structure PageOk (page size : Nat) (s : PageState) (out free : List Nat) : Prop where
  linked : s.mem.Linked wordSize s.freeHead free
  freeCount : s.freeCount = free.length
  used : s.used = out.length
  ledger : (free ++ out).Perm (pageBlocks page size (s.used + s.freeCount))
  room : s.used + s.freeCount ≤ PageState.capacity size

theorem capacity_lt (hsize : BlockSize size) : PageState.capacity size < 2 ^ 16 := by
  have hle := hsize.le
  unfold PageState.capacity
  refine Nat.div_lt_of_lt_mul ?_
  simp only [pageSize, headerSize]
  omega

/-- A block below the capacity lies in the page. -/
theorem pageBlock_end {i : Nat} (hi : i < PageState.capacity size) :
    pageBlock page size i + size ≤ page + pageSize := by
  have hmul : (i + 1) * size ≤ PageState.capacity size * size := Nat.mul_le_mul_right _ hi
  have hfit := Nat.div_mul_le_self (pageSize - headerSize) size
  rw [Nat.succ_mul] at hmul
  unfold PageState.capacity at hmul
  unfold pageBlock
  simp only [pageSize, headerSize] at *
  omega

namespace PageOk

theorem mem_block (h : PageOk page size s out free) {b : Nat} (hb : b ∈ free ++ out) :
    ∃ i < s.used + s.freeCount, b = pageBlock page size i := by
  obtain ⟨i, hi, rfl⟩ := List.mem_map.1 (h.ledger.mem_iff.1 hb)
  exact ⟨i, List.mem_range.1 hi, rfl⟩

theorem nodup (h : PageOk page size s out free) (hsize : BlockSize size) : (free ++ out).Nodup := by
  refine h.ledger.nodup_iff.2 ?_
  exact List.nodup_range.map (pageBlock_injective hsize)

/-- Two blocks of the page lie apart. -/
theorem apart (h : PageOk page size s out free) {b c : Nat} (hb : b ∈ free ++ out)
    (hc : c ∈ free ++ out) (hne : b ≠ c) : b + size ≤ c ∨ c + size ≤ b := by
  obtain ⟨i, -, rfl⟩ := h.mem_block hb
  obtain ⟨j, -, rfl⟩ := h.mem_block hc
  exact pageBlock_apart fun hij => hne (by rw [hij])

theorem init (m : ByteMemory) : PageOk page size (.init m) [] [] where
  linked := rfl
  freeCount := rfl
  used := rfl
  ledger := .refl _
  room := Nat.zero_le _

/-- The loop of `provision` links the blocks it makes in address order. -/
theorem link_linked (hsize : BlockSize size) (start n : Nat) (hpos : 0 < start)
    (hword : start + n * size ≤ 2 ^ 64) (hlinked : s.mem.Linked wordSize s.freeHead free)
    (hhead : s.freeHead < 256 ^ wordSize)
    (hout : ∀ c ∈ free, c + size ≤ start ∨ start + n * size ≤ c) :
    (s.link start size n).mem.Linked wordSize (s.link start size n).freeHead
        ((List.range n).map (fun i => start + i * size) ++ free) ∧
      (s.link start size n).freeCount = s.freeCount ∧ (s.link start size n).used = s.used := by
  have hle := hsize.le
  induction n generalizing s free with
  | zero => exact ⟨hlinked, rfl, rfl⟩
  | succ n ih =>
      rw [Nat.succ_mul] at hword hout
      have hpush : (s.mem.store (start + n * size) s.freeHead wordSize).Linked wordSize
          (start + n * size) ((start + n * size) :: free) := by
        refine hlinked.push (by omega) hhead fun c hc => ?_
        simp only [wordSize]
        rcases hout c hc with hlt | hlt
        · exact .inl (by omega)
        · exact .inr (by omega)
      rw [List.range_succ, List.map_append, List.append_assoc]
      refine ih (by omega) hpush (lt_word (by show start + n * size < 2 ^ 64; omega)) fun c hc => ?_
      rcases List.mem_cons.1 hc with rfl | hc
      · exact .inr le_rfl
      · rcases hout c hc with hlt | hlt
        · exact .inl hlt
        · exact .inr (by omega)

theorem head_lt (h : PageOk page size s out free) (hsize : BlockSize size)
    (hword : page + pageSize ≤ 2 ^ 64) : s.freeHead < 256 ^ wordSize := by
  rcases h.linked.head_mem with hzero | hmem
  · rw [hzero]
    decide
  · obtain ⟨i, hi, hblock⟩ := h.mem_block (List.mem_append_left _ hmem)
    have hroom := h.room
    have hend : pageBlock page size i + size ≤ page + pageSize :=
      pageBlock_end (Nat.lt_of_lt_of_le hi hroom)
    have hle := hsize.le
    exact lt_word (by omega)

theorem provision (h : PageOk page size s out free) (hsize : BlockSize size)
    (hword : page + pageSize ≤ 2 ^ 64) (max : Nat) :
    ∃ free', PageOk page size (s.provision page size max).1 out free' ∧
      (s.provision page size max).1.used = s.used ∧
      (s.provision page size max).1.freeCount = s.freeCount + (s.provision page size max).2 ∧
      (s.provision page size max).2 = min (PageState.capacity size - (s.used + s.freeCount)) max := by
  unfold PageState.provision
  dsimp only
  split
  · rename_i hzero
    exact ⟨free, h, rfl, rfl, hzero.symm⟩
  · generalize hcount : min (PageState.capacity size - (s.used + s.freeCount)) max = count at *
    have hroom := h.room
    have hlt := capacity_lt hsize
    have htotal : s.used + s.freeCount + count ≤ PageState.capacity size := by omega
    have hstart : ∀ i, page + headerSize + (s.used + s.freeCount) * size + i * size
        = pageBlock page size (s.used + s.freeCount + i) := by
      intro i
      unfold pageBlock
      rw [Nat.add_mul (s.used + s.freeCount) i, ← Nat.add_assoc]
    have hend : page + headerSize + (s.used + s.freeCount) * size + count * size ≤ 2 ^ 64 := by
      obtain ⟨n, rfl⟩ : ∃ n, count = n + 1 := ⟨count - 1, by omega⟩
      have hin : s.used + s.freeCount + n < PageState.capacity size := by omega
      have hlast : pageBlock page size (s.used + s.freeCount + n) + size ≤ page + pageSize :=
        pageBlock_end hin
      rw [← hstart] at hlast
      rw [Nat.succ_mul]
      omega
    obtain ⟨hlinked, hfree, hused⟩ := link_linked hsize
      (page + headerSize + (s.used + s.freeCount) * size) count (by simp only [headerSize]; omega) hend
      h.linked (h.head_lt hsize hword) fun c hc => by
        obtain ⟨i, hi, rfl⟩ := h.mem_block (List.mem_append_left _ hc)
        have hmul : (i + 1) * size ≤ (s.used + s.freeCount) * size := Nat.mul_le_mul_right _ hi
        rw [Nat.succ_mul] at hmul
        unfold pageBlock
        exact .inl (by omega)
    have hsmall : s.freeCount + count < 2 ^ 16 := by omega
    refine ⟨_, ⟨hlinked, ?_, hused.trans h.used, ?_, ?_⟩, hused, Nat.mod_eq_of_lt hsmall, rfl⟩
    · show (s.freeCount + count) % 2 ^ 16 = _
      rw [Nat.mod_eq_of_lt hsmall, List.length_append, List.length_map, List.length_range,
        h.freeCount, Nat.add_comm]
    · simp only [hused, Nat.mod_eq_of_lt hsmall, hstart, pageBlocks]
      rw [← Nat.add_assoc, List.range_add, List.map_append, List.map_map, List.append_assoc]
      exact (h.ledger.append_left _).trans List.perm_append_comm
    · simp only [hused, Nat.mod_eq_of_lt hsmall]
      omega

theorem take (h : PageOk page size s out free) {b : Nat} (hpop : s.pop = some (b, s')) :
    ∃ free', PageOk page size s' (b :: out) free' := by
  unfold PageState.pop at hpop
  split at hpop
  · cases hpop
  · rename_i hne
    cases free with
    | nil => exact absurd h.linked hne
    | cons c rest =>
        obtain ⟨hc, -, next, hload, hrest⟩ := h.linked
        have hcount := h.freeCount
        have hroom := h.room
        have hledger := h.ledger
        rw [hc, hload] at hpop
        simp only [Option.bind_eq_bind, Option.bind_some, Option.pure_def, Option.some.injEq,
          Prod.mk.injEq] at hpop
        obtain ⟨rfl, rfl⟩ := hpop
        rw [List.length_cons] at hcount
        have hsum : s.used + 1 + (s.freeCount - 1) = s.used + s.freeCount := by omega
        refine ⟨rest, ⟨hrest, by simp only; omega, by simp only [List.length_cons, h.used], ?_, ?_⟩⟩
        · simp only [hsum]
          exact List.perm_middle.trans hledger
        · simp only [hsum]
          exact hroom

theorem give (h : PageOk page size s out free) (hsize : BlockSize size)
    (hword : page + pageSize ≤ 2 ^ 64) {b : Nat} (hb : b ∈ out) :
    PageOk page size (s.give b) (out.erase b) (b :: free) := by
  have hmem : b ∈ free ++ out := List.mem_append_right _ hb
  have hle := hsize.le
  have hlen := List.length_erase_of_mem hb
  have hpos := List.length_pos_of_mem hb
  have hused := h.used
  have hroom := h.room
  have hlt := capacity_lt hsize
  have hwrap : (s.freeCount + 1) % 2 ^ 16 = s.freeCount + 1 := Nat.mod_eq_of_lt (by omega)
  have hsum : s.used - 1 + (s.freeCount + 1) = s.used + s.freeCount := by omega
  obtain ⟨i, -, hblock⟩ := h.mem_block hmem
  have hne : ∀ c ∈ free, b ≠ c := by
    rintro c hc rfl
    exact (List.nodup_append.1 (h.nodup hsize)).2.2 b hc b hb rfl
  refine ⟨?_, ?_, ?_, ?_, ?_⟩
  · refine h.linked.push ?_ (h.head_lt hsize hword) fun c hc => ?_
    · rw [hblock, pageBlock]
      simp only [headerSize]
      omega
    · simp only [wordSize]
      rcases h.apart hmem (List.mem_append_left _ hc) (hne c hc) with hlt | hlt
      · exact .inr (by omega)
      · exact .inl (by omega)
  · show (s.freeCount + 1) % 2 ^ 16 = _
    rw [hwrap, List.length_cons, h.freeCount]
  · simp only [PageState.give]
    omega
  · simp only [PageState.give, hwrap, hsum]
    refine List.Perm.trans ?_ h.ledger
    exact List.perm_middle.symm.trans ((List.perm_cons_erase hb).symm.append_left _)
  · simp only [PageState.give, hwrap, hsum]
    exact hroom

/-- Whoever has a block does not reach the links of the others. -/
theorem write (h : PageOk page size s out free) (hsize : BlockSize size) (m : ByteMemory)
    (hm : ∀ a, (∀ b ∈ out, ¬(b ≤ a ∧ a < b + size)) → m a = s.mem a) :
    PageOk page size { s with mem := m } out free :=
  { h with
    linked := by
      have hle := hsize.le
      refine h.linked.congr fun c hc i hi => (hm _ fun b hb hin => ?_).symm
      have hne : c ≠ b := by
        rintro rfl
        exact (List.nodup_append.1 (h.nodup hsize)).2.2 c hc c hb rfl
      simp only [wordSize] at hi
      rcases h.apart (List.mem_append_left _ hc) (List.mem_append_right _ hb) hne with hlt | hlt
      · omega
      · omega }

/-- **Any run of a page.** -/
theorem run (hsize : BlockSize size) (hword : page + pageSize ≤ 2 ^ 64)
    (h : PageRun page size s out) : ∃ free, PageOk page size s out free := by
  induction h with
  | init m => exact ⟨[], .init m⟩
  | provision _ max ih =>
      obtain ⟨free, hok⟩ := ih
      obtain ⟨free', hok', -⟩ := hok.provision hsize hword max
      exact ⟨free', hok'⟩
  | take _ hpop ih =>
      obtain ⟨free, hok⟩ := ih
      exact hok.take hpop
  | give _ hb ih =>
      obtain ⟨free, hok⟩ := ih
      exact ⟨_, hok.give hsize hword hb⟩
  | write _ m hm ih =>
      obtain ⟨free, hok⟩ := ih
      exact ⟨free, hok.write hsize m hm⟩

/-- The free list as the carving loops leave theirs. -/
theorem freeBlocks (h : PageOk page size s out free) (hsize : BlockSize size)
    (hpage : page % pageSize = 0) :
    FreeBlocks s.mem s.freeHead size (page + headerSize) (page + pageSize) free where
  linked := h.linked
  aligned b hb := by
    obtain ⟨i, -, rfl⟩ := h.mem_block (List.mem_append_left _ hb)
    have hal := hsize.aligned
    have hmul : i * size % minAlign = 0 := by rw [Nat.mul_mod, hal, Nat.mul_zero, Nat.zero_mod]
    unfold pageBlock
    simp only [minAlign, pageSize, headerSize] at hmul hpage ⊢
    omega
  inside b hb := by
    obtain ⟨i, hi, rfl⟩ := h.mem_block (List.mem_append_left _ hb)
    exact ⟨Nat.le_add_right _ _, pageBlock_end (Nat.lt_of_lt_of_le hi h.room)⟩
  apart := by
    have hnodup := (List.nodup_append.1 (h.nodup hsize)).1
    refine hnodup.imp_of_mem fun ha hb hne => ?_
    exact h.apart (List.mem_append_left _ ha) (List.mem_append_left _ hb) hne

end PageOk

end Page

/-- **Carving.** Each of the four carving loops leaves exactly as many blocks as its formula says, in a
null-terminated list, apart, aligned and off every header. Off the arena the headers of the chunks lead
each block back to its master. A small page goes on where its counters say, whatever was taken and given
back meanwhile. -/
theorem carving {size : Nat} (hsize : BlockSize size) :
    (∀ (m : ByteMemory) (cls base npages : Nat), base % pageSize = 0 →
      base + npages * pageSize < 2 ^ 64 →
      (∃ blocks, MasterOf (initSpan m size cls base npages true) base size (base + spanMasterSize)
          (base + npages * pageSize) blocks ∧ blocks.length = mediumCapacityFor size npages) ∧
      (∃ blocks, MasterOf (initSpan m size cls base npages false) base size (base + spanMasterSize)
          (base + npages * pageSize) blocks ∧
        blocks.length = mediumCapacityLegacyFor size npages ∧ (∀ b ∈ blocks, InChunk base size b) ∧
        ∀ b ∈ blocks, legacyMasterOf (initSpan m size cls base npages false) b = some base) ∧
      ∃ blocks, MasterOf (initBig m size cls base npages) base size (base + bigMasterSize)
          (base + npages * pageSize) blocks ∧ blocks.length = bigCapacityFor size npages) ∧
    ∀ (page : Nat) (s : PageState) (out : List Nat), page % pageSize = 0 →
      page + pageSize ≤ 2 ^ 64 → PageRun page size s out →
      (∃ free, FreeBlocks s.mem s.freeHead size (page + headerSize) (page + pageSize) free ∧
        s.freeCount = free.length ∧ (free ++ out).Perm (pageBlocks page size (s.used + s.freeCount))) ∧
      s.used + s.freeCount ≤ PageState.capacity size ∧
      ∀ max, (s.provision page size max).2
          = min (PageState.capacity size - (s.used + s.freeCount)) max ∧
        (s.provision page size max).1.used + (s.provision page size max).1.freeCount
          = min (PageState.capacity size) (s.used + s.freeCount + max) := by
  refine ⟨fun m cls base npages hbase hend => ⟨?_, ?_, ?_⟩, fun page s out hpage hword hrun => ?_⟩
  · exact initSpan_contiguous hsize m spanMagic cls hbase hend.le
  · exact initSpan_legacy hsize m cls hbase hend.le
  · exact initSpan_contiguous hsize m bigMagic cls hbase hend.le
  · obtain ⟨free, hok⟩ := PageOk.run hsize hword hrun
    have hroom := hok.room
    refine ⟨⟨free, hok.freeBlocks hsize hpage, hok.freeCount, hok.ledger⟩, hroom, fun max => ?_⟩
    obtain ⟨-, -, hused, hfree, hmade⟩ := hok.provision hsize hword max
    refine ⟨hmade, ?_⟩
    rw [hused, hfree, hmade]
    omega

theorem carving_page : (∃ blocks, MasterOf (initSpan (fun _ => none) 32 0 pageSize 2 false) pageSize 32
      (pageSize + spanMasterSize) (pageSize + 2 * pageSize) blocks ∧ blocks.length = 4093) ∧
    ((PageState.init fun _ => none).provision 0 32 64).2 = 64 := by
  have hsize : BlockSize 32 := ⟨by decide, by decide⟩
  have h := carving hsize
  obtain ⟨-, ⟨blocks, hmaster, hlength, -⟩, -⟩ := h.1 (fun _ => none) 0 pageSize 2 (by decide) (by decide)
  refine ⟨⟨blocks, hmaster, hlength.trans (by decide)⟩, ?_⟩
  have hpage := h.2 0 _ [] (by decide) (by decide) (.init fun _ => none)
  exact (hpage.2.2 64).1.trans (by decide)

end Allox
