import MyMalloc.Heap
import MyMalloc.SuperblockContract

/-!
# Trimming a mapping to a superblock

`allocate_new_superblock` maps twice the size of a superblock, keeps the part at the
first multiple of that size, and unmaps what lies before and behind
(`MyMalloc.munmapCalls`). For every address `mmap` can answer with, what it unmaps and
what it keeps are pieces of the mapping that fit together
(`MyMalloc.allocateNewSuperblock_trimmed`): no page is lost, no page that is kept is
unmapped, and `munmap` is never called for an empty range.

The part that is kept is aligned, and that is what the mask in `heap_free` is for. It
takes every address of the superblock, and no address outside it, to the superblock;
and the blocks that `reset_superblock` carves, whatever their size, are all inside.
-/

namespace MyMalloc

open AddressSpace

/-! ### The pieces -/

theorem and_superblockSize (ptr : ℕ) : ptr &&& (superblockSize - 1) = ptr % superblockSize := by
  rw [superblockSize_eq, show 262144 - 1 = 2 ^ 18 - 1 by decide, Nat.and_two_pow_sub_one_eq_mod]

/-- `prologue_bytes`. -/
def prologueBytes (ptr : ℕ) : ℕ :=
  let alignment := ptr &&& (superblockSize - 1)
  if alignment = 0 then 0 else superblockSize - alignment

/-- `aligned_ptr`. -/
def alignedPtr (ptr : ℕ) : ℕ := add64 ptr (prologueBytes ptr)

/-- The calls of `munmap` in `allocate_new_superblock`: the prologue, if there is one,
and the epilogue. -/
def munmapCalls (ptr : ℕ) : List Region :=
  (if 0 < prologueBytes ptr then [(ptr, prologueBytes ptr)] else []) ++
    [(add64 (alignedPtr ptr) superblockSize, superblockSize - prologueBytes ptr)]

theorem prologueBytes_eq {ptr : ℕ} : prologueBytes ptr =
    if ptr % superblockSize = 0 then 0 else superblockSize - ptr % superblockSize := by
  rw [prologueBytes, and_superblockSize]

/-- **`allocate_new_superblock`** when `mmap` succeeds. -/
theorem Core.allocateNewSuperblock_eq (c : Core) (ptr : ℕ) :
    c.allocateNewSuperblock (some ptr) = (some (alignedPtr ptr),
      { c with
        mapped := unmapAll ((ptr, 2 * superblockSize) :: c.mapped) (munmapCalls ptr)
        mem := ByteMemory.fill c.mem ptr (2 * superblockSize) 0 }) := by
  by_cases hal : ptr % superblockSize = 0
  · have hp : prologueBytes ptr = 0 := by rw [prologueBytes_eq, if_pos hal]
    have hcalls : munmapCalls ptr =
        [(add64 (add64 ptr 0) superblockSize, superblockSize - 0)] := by
      rw [munmapCalls, alignedPtr, hp, if_neg (lt_irrefl 0), List.nil_append]
    rw [hcalls, alignedPtr, hp, unmapAll, List.foldl_cons, List.foldl_nil]
    simp only [allocateNewSuperblock, and_superblockSize, hal, if_true, lt_irrefl, if_false]
  · have hp : prologueBytes ptr = superblockSize - ptr % superblockSize := by
      rw [prologueBytes_eq, if_neg hal]
    have hpos : 0 < superblockSize - ptr % superblockSize :=
      Nat.sub_pos_of_lt (Nat.mod_lt _ (by decide))
    rw [munmapCalls, alignedPtr, hp, if_pos hpos, unmapAll, List.foldl_append, List.foldl_cons,
      List.foldl_nil, List.foldl_cons, List.foldl_nil]
    simp only [allocateNewSuperblock, and_superblockSize, if_neg hal, if_pos hpos]

section Pieces

variable {page ptr a : ℕ}

theorem prologueBytes_lt (ptr : ℕ) : prologueBytes ptr < superblockSize := by
  rw [prologueBytes_eq, superblockSize_eq]
  split <;> omega

/-- The prologue is a number of whole pages. -/
theorem dvd_prologueBytes (hpage : page ∣ superblockSize) (hptr : page ∣ ptr) :
    page ∣ prologueBytes ptr := by
  rw [prologueBytes_eq]
  split
  · exact dvd_zero page
  · exact Nat.dvd_sub hpage ((Nat.dvd_mod_iff hpage).mpr hptr)

theorem alignedPtr_eq (h : ptr + 2 * superblockSize ≤ 2 ^ 64) :
    alignedPtr ptr = ptr + prologueBytes ptr := by
  have hlt := prologueBytes_lt ptr
  rw [superblockSize_eq] at h hlt
  exact add64_eq (by omega)

/-- **The superblock is aligned.** -/
theorem dvd_alignedPtr (h : ptr + 2 * superblockSize ≤ 2 ^ 64) :
    superblockSize ∣ alignedPtr ptr := by
  rw [alignedPtr_eq h, prologueBytes_eq, superblockSize_eq]
  split <;> omega

/-- The end of the superblock is an address. -/
theorem alignedPtr_add_lt (h : ptr + 2 * superblockSize ≤ 2 ^ 64) :
    alignedPtr ptr + superblockSize < 2 ^ 64 := by
  have hlt := prologueBytes_lt ptr
  rw [alignedPtr_eq h]
  rw [superblockSize_eq] at *
  omega

/-- The superblock lies in the mapping. -/
theorem alignedPtr_mem (h : ptr + 2 * superblockSize ≤ 2 ^ 64) :
    ptr ≤ alignedPtr ptr ∧ alignedPtr ptr + superblockSize ≤ ptr + 2 * superblockSize := by
  have hlt := prologueBytes_lt ptr
  rw [alignedPtr_eq h]
  omega

/-- The two ranges, without the wrapping of addresses. -/
theorem mem_munmapCalls (h : ptr + 2 * superblockSize ≤ 2 ^ 64) {r : Region} :
    r ∈ munmapCalls ptr ↔ 0 < prologueBytes ptr ∧ r = (ptr, prologueBytes ptr) ∨
      r = (ptr + prologueBytes ptr + superblockSize, superblockSize - prologueBytes ptr) := by
  rw [munmapCalls, add64_eq (alignedPtr_add_lt h), alignedPtr_eq h, List.mem_append,
    List.mem_singleton]
  refine or_congr_left ?_
  split
  · rename_i hpos
    simp [hpos]
  · rename_i hzero
    simp [hzero]

/-- The addresses that are unmapped. -/
theorem covers_munmapCalls (h : ptr + 2 * superblockSize ≤ 2 ^ 64) :
    Covers (munmapCalls ptr) a ↔ Mem a (ptr, prologueBytes ptr) ∨
      Mem a (ptr + prologueBytes ptr + superblockSize, superblockSize - prologueBytes ptr) := by
  simp only [Covers, mem_munmapCalls h]
  constructor
  · rintro ⟨r, ⟨-, rfl⟩ | rfl, ha⟩
    · exact Or.inl ha
    · exact Or.inr ha
  · rintro (ha | ha)
    · have hpos : 0 < prologueBytes ptr := by
        simp only [Mem] at ha
        omega
      exact ⟨_, Or.inl ⟨hpos, rfl⟩, ha⟩
    · exact ⟨_, Or.inr rfl, ha⟩

/-- **The superblock and what is unmapped make up the mapping.** -/
theorem mem_mapping_iff (h : ptr + 2 * superblockSize ≤ 2 ^ 64) :
    Mem a (ptr, 2 * superblockSize) ↔
      Mem a (alignedPtr ptr, superblockSize) ∨ Covers (munmapCalls ptr) a := by
  have hlt := prologueBytes_lt ptr
  rw [covers_munmapCalls h, alignedPtr_eq h]
  simp only [Mem]
  omega

/-- **Nothing of the superblock is unmapped**, and nothing is unmapped twice. -/
theorem pairwise_apart_munmapCalls (h : ptr + 2 * superblockSize ≤ 2 ^ 64) :
    ((alignedPtr ptr, superblockSize) :: munmapCalls ptr).Pairwise Apart := by
  have hlt := prologueBytes_lt ptr
  have halone : (munmapCalls ptr).Pairwise Apart := by
    rw [munmapCalls, add64_eq (alignedPtr_add_lt h), alignedPtr_eq h]
    split
    · refine List.pairwise_pair.mpr (Or.inl ?_)
      simp only
      omega
    · exact List.pairwise_singleton ..
  refine List.pairwise_cons.mpr ⟨fun r hr => ?_, halone⟩
  rw [alignedPtr_eq h]
  rcases (mem_munmapCalls h).mp hr with ⟨-, rfl⟩ | rfl
  · exact Or.inr (le_refl _)
  · exact Or.inl (le_refl _)

/-- **What stays mapped**: the superblock, and what was mapped outside the mapping. -/
theorem covers_unmapAll_munmapCalls (h : ptr + 2 * superblockSize ≤ 2 ^ 64)
    {mapped : List Region} :
    Covers (unmapAll ((ptr, 2 * superblockSize) :: mapped) (munmapCalls ptr)) a ↔
      Mem a (alignedPtr ptr, superblockSize) ∨
        Covers mapped a ∧ ¬Mem a (ptr, 2 * superblockSize) := by
  -- The superblock itself is not among what is unmapped.
  have hkept : Mem a (alignedPtr ptr, superblockSize) → ¬Covers (munmapCalls ptr) a := by
    rintro ha ⟨r, hr, har⟩
    exact (List.rel_of_pairwise_cons (pairwise_apart_munmapCalls h) hr).not_mem ha har
  have hwhole := mem_mapping_iff (a := a) h
  rw [covers_unmapAll, covers_cons]
  tauto

end Pieces

/-! ### The blocks -/

section Blocks

variable {x blockSize : ℕ} {header : SuperblockHeader} {mem : ByteMemory.Mem}

/-- A block that was never used comes from the cursor, which moves on by one block. -/
theorem superblockAlloc_reap (mem : ByteMemory.Mem) (h : 0 < header.reapableBlocks) :
    ∃ next, superblockAlloc header mem = some (header.reapPosition, next) ∧
      next.blockSize = header.blockSize ∧
      next.reapPosition = add64 header.reapPosition header.blockSize ∧
      next.reapableBlocks = header.reapableBlocks - 1 := by
  rw [superblockAlloc, if_pos h]
  exact ⟨_, rfl, rfl, rfl, rfl⟩

/-- **Reaping**: allocating from a cursor yields the blocks from there on, in order. -/
theorem allocMany_reap {n k : ℕ} (hsize : header.blockSize = blockSize)
    (hpos : header.reapPosition = blockAt x blockSize k) (hn : n ≤ header.reapableBlocks)
    (hend : blockAt x blockSize (k + n) < 2 ^ 64) :
    ∃ header', allocMany mem n header =
      some (((List.range' k n).map (blockAt x blockSize)).reverse, header') := by
  induction n generalizing header k with
  | zero => exact ⟨header, rfl⟩
  | succ n ih =>
    have hreap : 0 < header.reapableBlocks := by omega
    have hle : blockAt x blockSize (k + 1) ≤ blockAt x blockSize (k + (n + 1)) :=
      Nat.add_le_add_left (Nat.mul_le_mul_right _ (by omega)) _
    have hnext : add64 header.reapPosition header.blockSize = blockAt x blockSize (k + 1) := by
      rw [hpos, hsize, blockAt_succ, add64_eq]
      rw [blockAt_succ] at hle
      omega
    obtain ⟨next, halloc, hsize', hpos', hreap'⟩ := superblockAlloc_reap mem hreap
    obtain ⟨header', hrest⟩ := ih (k := k + 1) (hsize'.trans hsize) (hpos'.trans hnext)
      (by omega) (by rwa [Nat.add_assoc, Nat.add_comm 1])
    exact ⟨header', by simp [allocMany, halloc, hrest, hpos, List.range'_succ]⟩

/-- The blocks lie in the buffer, whatever their size. -/
theorem blockAt_add_le {k : ℕ} (hk : k < (resetSuperblock x blockSize header).totalBlocks) :
    blockAt x blockSize k + blockSize ≤ x + superblockSize := by
  have htotal : k < 262016 / blockSize := by
    simp only [resetSuperblock, superblockSize_eq, sizeofSuperblockHeader_eq] at hk
    exact lt_of_lt_of_le hk (Nat.mod_le _ _)
  have hmul := Nat.mul_le_mul_right blockSize (Nat.add_one_le_of_lt htotal)
  have hle := hmul.trans (Nat.div_mul_le_self 262016 blockSize)
  rw [← blockAt_succ, superblockSize_eq]
  simp only [blockAt, sizeofSuperblockHeader_eq]
  omega

/-- **What `reset_superblock` carves** is handed out block by block. -/
theorem allocMany_reset (hx : x + superblockSize < 2 ^ 64) {n : ℕ}
    (hn : n ≤ (resetSuperblock x blockSize header).totalBlocks) :
    ∃ header', allocMany mem n (resetSuperblock x blockSize header) =
      some (((List.range n).map (blockAt x blockSize)).reverse, header') := by
  rw [superblockSize_eq] at hx
  rw [List.range_eq_range']
  refine allocMany_reap rfl ?_ hn ?_
  · rw [blockAt_zero]
    exact add64_eq (by rw [sizeofSuperblockHeader_eq]; omega)
  · cases n with
    | zero =>
      rw [Nat.add_zero, blockAt_zero]
      omega
    | succ n =>
      have hle := blockAt_add_le (Nat.lt_of_succ_le hn)
      rw [superblockSize_eq] at hle
      rw [Nat.zero_add, blockAt_succ]
      omega

end Blocks

/-! ### The superblock -/

/-- **What `allocate_new_superblock` makes of a mapping** at `ptr`: the superblock at
`x`, with pages of some size. -/
structure Trimmed (page ptr x : ℕ) (c c' : Core) : Prop where
  aligned : superblockSize ∣ x
  /-- The mapping is made, and then the calls of `munmap`. -/
  calls : c'.mapped = unmapAll ((ptr, 2 * superblockSize) :: c.mapped) (munmapCalls ptr)
  /-- Every call of `munmap` is for whole pages, and at least one. -/
  pages : ∀ r ∈ munmapCalls ptr, page ∣ r.1 ∧ page ∣ r.2 ∧ 0 < r.2
  /-- The superblock and the ranges that are unmapped have no address in common. -/
  apart : ((x, superblockSize) :: munmapCalls ptr).Pairwise Apart
  /-- Together they are the mapping. -/
  whole : ∀ a, Mem a (ptr, 2 * superblockSize) ↔
    Covers ((x, superblockSize) :: munmapCalls ptr) a
  /-- Of the mapping exactly the superblock stays mapped; elsewhere nothing changes. -/
  mapped : ∀ a, Covers c'.mapped a ↔
    Mem a (x, superblockSize) ∨ Covers c.mapped a ∧ ¬Mem a (ptr, 2 * superblockSize)
  /-- Exactly the addresses of the superblock mask to it. -/
  masks : ∀ a < 2 ^ 64, superblockOf a = x ↔ Mem a (x, superblockSize)
  /-- All blocks of a carving are handed out, in order. -/
  carved : ∀ blockSize header mem n, 0 < blockSize →
    n ≤ (resetSuperblock x blockSize header).totalBlocks →
    ∃ header', allocMany mem n (resetSuperblock x blockSize header) =
      some (((List.range n).map (blockAt x blockSize)).reverse, header')
  /-- Every address of such a block masks to the superblock. -/
  blocks : ∀ blockSize header k, 0 < blockSize →
    k < (resetSuperblock x blockSize header).totalBlocks →
    ∀ a, Mem a (blockAt x blockSize k, blockSize) → superblockOf a = x

/-- **`allocate_new_superblock` trims its mapping to a superblock**, for every page size
and every address that `mmap` can answer with. -/
theorem allocateNewSuperblock_trimmed (c : Core) {page ptr : ℕ} (hpage : page ∣ superblockSize)
    (hptr : page ∣ ptr) (hle : ptr + 2 * superblockSize ≤ 2 ^ 64) :
    ∃ x c', c.allocateNewSuperblock (some ptr) = (some x, c') ∧ Trimmed page ptr x c c' := by
  have hend := alignedPtr_add_lt hle
  have hdvd := dvd_alignedPtr hle
  have hmasks : ∀ a < 2 ^ 64, superblockOf a = alignedPtr ptr ↔
      Mem a (alignedPtr ptr, superblockSize) := by
    intro a ha
    obtain ⟨q, hq⟩ := hdvd
    rw [superblockSize_eq] at hq
    rw [superblockOf_eq ha, hq, superblockSize_eq]
    simp only [Mem]
    omega
  refine ⟨alignedPtr ptr, _, c.allocateNewSuperblock_eq ptr, ?_⟩
  constructor
  · exact hdvd
  · rfl
  · rintro r hr
    have hprologue := dvd_prologueBytes hpage hptr
    have hlt := prologueBytes_lt ptr
    rcases (mem_munmapCalls hle).mp hr with ⟨hpos, rfl⟩ | rfl
    · exact ⟨hptr, hprologue, hpos⟩
    · exact ⟨Nat.dvd_add (Nat.dvd_add hptr hprologue) hpage, Nat.dvd_sub hpage hprologue,
        Nat.sub_pos_of_lt hlt⟩
  · exact pairwise_apart_munmapCalls hle
  · intro a
    rw [covers_cons]
    exact mem_mapping_iff hle
  · intro a
    exact covers_unmapAll_munmapCalls hle
  · exact hmasks
  · intro blockSize header mem n _ hn
    exact allocMany_reset hend hn
  · intro blockSize header k _ hk a ha
    have hblock := blockAt_add_le hk
    have hstart : alignedPtr ptr ≤ blockAt (alignedPtr ptr) blockSize k := by
      rw [blockAt, Nat.add_assoc]
      exact Nat.le_add_right _ _
    simp only [Mem] at ha
    refine (hmasks a (by omega)).mpr ⟨hstart.trans ha.1, ?_⟩
    simp only
    omega

/-- A mapping that starts one page behind a multiple of the size of a superblock. -/
theorem allocateNewSuperblock_trimmed_unaligned :
    ∃ x c', ({} : Core).allocateNewSuperblock (some 528384) = (some x, c') ∧
      Trimmed 4096 528384 x {} c' :=
  allocateNewSuperblock_trimmed {} (by decide) (by decide) (by decide)

end MyMalloc
