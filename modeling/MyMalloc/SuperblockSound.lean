import MyMalloc.Superblock
import MyMalloc.Lib.LinkedList
import MyMalloc.Lib.Trace
import Mathlib.Data.List.Perm.Basic
import Mathlib.Tactic.Ring

/-!
# The superblock allocator is sound

A superblock hands out blocks in two ways: by moving a cursor through the part
of its buffer that was never handed out (reaping), and from a list of freed
blocks that is threaded through the freed blocks themselves. Three counters
describe the two at once, and the clients write whatever they like into the
blocks they hold.

`MyMalloc.Sound` is the invariant that ties all of it together. It speaks of two
ghost lists, the live blocks and the free list, and says one thing about them:
together they are a *permutation of the blocks below the cursor*
(`MyMalloc.Sound.perm`). Everything one wants to know follows from that: no
block is handed out twice, none is lost, blocks do not overlap, and the counters
add up. The four events – carving, allocating, freeing, a client's write – each
keep it (`MyMalloc.sound_reset`, `MyMalloc.Sound.alloc`, `MyMalloc.Sound.free_live`,
`MyMalloc.Sound.write`).
-/

namespace MyMalloc

open ByteMemory LinkedList

/-! ### The place of a superblock and of its blocks -/

/-- The address `x` can be the address of a superblock: it is aligned, not null,
and the superblock ends inside the address space. -/
structure IsSuperblock (x : ℕ) : Prop where
  dvd : superblockSize ∣ x
  pos : 0 < x
  le : x + superblockSize ≤ 2 ^ 64

/-- The address of block `k` of the superblock at `x`. -/
def blockAt (x blockSize k : ℕ) : ℕ := x + sizeofSuperblockHeader + k * blockSize

theorem blockAt_zero (x blockSize : ℕ) : blockAt x blockSize 0 = x + 128 := by
  simp [blockAt]

theorem blockAt_succ (x blockSize k : ℕ) :
    blockAt x blockSize (k + 1) = blockAt x blockSize k + blockSize := by
  simp only [blockAt]
  ring

/-- Different blocks do not overlap. -/
theorem blockAt_disjoint (x blockSize : ℕ) {k k' : ℕ} (h : k ≠ k') :
    blockAt x blockSize k + blockSize ≤ blockAt x blockSize k' ∨
      blockAt x blockSize k' + blockSize ≤ blockAt x blockSize k := by
  rcases Nat.lt_or_gt_of_ne h with hlt | hlt
  · refine Or.inl ?_
    rw [← blockAt_succ]
    exact Nat.add_le_add_left (Nat.mul_le_mul_right _ hlt) _
  · refine Or.inr ?_
    rw [← blockAt_succ]
    exact Nat.add_le_add_left (Nat.mul_le_mul_right _ hlt) _

/-- **Masking an address gives the multiple of `SUPERBLOCK_SIZE` below it.** -/
theorem superblockOf_eq {p : ℕ} (hp : p < 2 ^ 64) : superblockOf p = p / 262144 * 262144 := by
  have hmask : 2 ^ 64 - superblockSize = (2 ^ 46 - 1) <<< 18 := by decide
  have hdiv : p / 262144 * 262144 = p >>> 18 <<< 18 := by
    rw [Nat.shiftRight_eq_div_pow, Nat.shiftLeft_eq]
  rw [superblockOf, hmask, hdiv]
  refine Nat.eq_of_testBit_eq fun i => ?_
  rw [Nat.testBit_and, Nat.testBit_shiftLeft, Nat.testBit_shiftLeft, Nat.testBit_two_pow_sub_one,
    Nat.testBit_shiftRight]
  by_cases hi : 18 ≤ i
  · rw [show 18 + (i - 18) = i by omega]
    by_cases hlt : i < 64
    · simp [hi, show i - 18 < 46 by omega]
    · have hbit : p.testBit i = false :=
        Nat.testBit_lt_two_pow (lt_of_lt_of_le hp (Nat.pow_le_pow_right (by norm_num) (by omega)))
      simp [hbit]
  · simp [hi]

/-- Every address inside a superblock masks back to it. -/
theorem superblockOf_of_mem {x p : ℕ} (hx : IsSuperblock x) (h : x ≤ p)
    (h' : p < x + superblockSize) : superblockOf p = x := by
  have hle := hx.le
  obtain ⟨k, hk⟩ := hx.dvd
  rw [superblockSize_eq] at *
  rw [superblockOf_eq (by omega)]
  omega

/-- A pointer is a multiple of 16 exactly when `superblock_free` accepts it. -/
theorem and_minBlockSize_eq_zero {p : ℕ} : p &&& (minBlockSize - 1) = 0 ↔ 16 ∣ p := by
  rw [show minBlockSize - 1 = 2 ^ 4 - 1 by decide, Nat.and_two_pow_sub_one_eq_mod]
  omega

/-! ### Free list links -/

theorem nextFree_congr {mem mem' : Mem} {p : ℕ} (h : ∀ i, p ≤ i → i < p + 8 → mem' i = mem i) :
    nextFree mem' p = nextFree mem p := by
  simp only [nextFree, loadWord_congr h]

/-- **A link reads back**, if it is null or the address of something. -/
theorem nextFree_setNextFree {mem : Mem} {p : ℕ} {target : Option ℕ}
    (h : ∀ q, target = some q → 0 < q ∧ q < 2 ^ 64) :
    nextFree (setNextFree mem p target) p = target := by
  have hword : loadWord 8 (setNextFree mem p target) p = target.getD 0 := by
    rw [setNextFree, loadWord_storeWord]
    cases target with
    | none => rfl
    | some q => exact Nat.mod_eq_of_lt (by simpa using (h q rfl).2)
  rw [nextFree, hword]
  cases target with
  | none => rfl
  | some q => simpa using Nat.ne_of_gt (h q rfl).1

/-- Setting a link only writes the eight bytes that hold it. -/
theorem setNextFree_of_not_mem {mem : Mem} {p i : ℕ} {target : Option ℕ}
    (h : i < p ∨ p + 8 ≤ i) : setNextFree mem p target i = mem i :=
  storeWord_outside h

/-! ### The invariant -/

/-- **The invariant of a superblock** at `x`, with its live blocks and its free
list as ghost lists: the header describes a superblock carved into blocks of one
size, the free list is threaded through memory, and the live and the free blocks
together are exactly the blocks below the cursor, each once. -/
structure Sound (x : ℕ) (header : SuperblockHeader) (mem : Mem) (live free : List ℕ) :
    Prop where
  isClass : IsClass header.blockSize
  total : header.totalBlocks = (superblockSize - sizeofSuperblockHeader) / header.blockSize
  reapable_le : header.reapableBlocks ≤ header.totalBlocks
  bufferStart : header.bufferStart = blockAt x header.blockSize 0
  reapPosition : header.reapPosition =
    blockAt x header.blockSize (header.totalBlocks - header.reapableBlocks) % 2 ^ 64
  chain : Chain (nextFree mem) header.freeList free
  numFree : header.numFreeBlocks = header.reapableBlocks + free.length
  perm : (live ++ free).Perm ((List.range (header.totalBlocks - header.reapableBlocks)).map
    (blockAt x header.blockSize))

/-- What allocating and freeing leave alone in the header. -/
structure SameCarving (header header' : SuperblockHeader) : Prop where
  magic : header'.magic = header.magic
  owner : header'.owner = header.owner
  blockSize : header'.blockSize = header.blockSize
  totalBlocks : header'.totalBlocks = header.totalBlocks

namespace Sound

variable {x p q : ℕ} {header : SuperblockHeader} {mem mem' : Mem} {live free : List ℕ}

/-- The buffer holds all the blocks. -/
theorem total_mul_le (h : Sound x header mem live free) :
    header.totalBlocks * header.blockSize ≤ 262016 := by
  rw [h.total]
  simpa using Nat.div_mul_le_self 262016 header.blockSize

theorem total_lt (h : Sound x header mem live free) : header.totalBlocks < 2 ^ 15 := by
  have hle := h.total_mul_le
  have hmul := Nat.mul_le_mul_left header.totalBlocks h.isClass.pos
  omega

theorem two_le_total (h : Sound x header mem live free) : 2 ≤ header.totalBlocks := by
  have hle := h.isClass.le
  rw [h.total]
  rw [superblockSize_eq, sizeofSuperblockHeader_eq] at *
  rw [Nat.le_div_iff_mul_le (by have := h.isClass.pos; omega)]
  omega

/-- A block of the superblock lies in its buffer. -/
theorem blockAt_mem (h : Sound x header mem live free) {k : ℕ} (hk : k < header.totalBlocks) :
    x + 128 ≤ blockAt x header.blockSize k ∧
      blockAt x header.blockSize k + header.blockSize ≤ x + 262144 := by
  have hle := h.total_mul_le
  have hmul := Nat.mul_le_mul_right header.blockSize (Nat.succ_le_of_lt hk)
  rw [Nat.succ_eq_add_one, Nat.add_mul, Nat.one_mul] at hmul
  simp only [blockAt, sizeofSuperblockHeader_eq]
  omega

/-- Live and free blocks are blocks below the cursor. -/
theorem exists_index (h : Sound x header mem live free) (hp : p ∈ live ++ free) :
    ∃ k < header.totalBlocks - header.reapableBlocks, p = blockAt x header.blockSize k := by
  obtain ⟨k, hk, rfl⟩ := List.mem_map.mp (h.perm.mem_iff.mp hp)
  exact ⟨k, List.mem_range.mp hk, rfl⟩

/-- Live and free blocks lie in the buffer, at multiples of 16. -/
theorem mem_buffer (h : Sound x header mem live free) (hx : IsSuperblock x)
    (hp : p ∈ live ++ free) : x + 128 ≤ p ∧ p + header.blockSize ≤ x + 262144 ∧ 16 ∣ p := by
  obtain ⟨k, hk, rfl⟩ := h.exists_index hp
  obtain ⟨h₁, h₂⟩ := h.blockAt_mem (show k < header.totalBlocks by omega)
  refine ⟨h₁, h₂, ?_⟩
  have hdvd : 16 ∣ x := dvd_trans (by decide) hx.dvd
  simp only [blockAt, sizeofSuperblockHeader_eq]
  exact Nat.dvd_add (Nat.dvd_add hdvd (by decide)) (Dvd.dvd.mul_left h.isClass.dvd k)

theorem superblockOf_eq (h : Sound x header mem live free) (hx : IsSuperblock x)
    (hp : p ∈ live ++ free) : superblockOf p = x := by
  obtain ⟨h₁, h₂, -⟩ := h.mem_buffer hx hp
  have hpos := h.isClass.pos
  exact superblockOf_of_mem hx (by omega) (by rw [superblockSize_eq]; omega)

/-- **No block is in two places**: live and free blocks are pairwise distinct. -/
theorem nodup (h : Sound x header mem live free) : (live ++ free).Nodup := by
  refine h.perm.nodup_iff.mpr (List.nodup_range.map_on fun k _ k' _ hkk' => ?_)
  have hpos := h.isClass.pos
  by_contra hne
  rcases blockAt_disjoint x header.blockSize hne with hd | hd <;> omega

/-- **The counters add up.** -/
theorem numFree_add_length (h : Sound x header mem live free) :
    header.numFreeBlocks + live.length = header.totalBlocks := by
  have hlen := h.perm.length_eq
  have hle := h.reapable_le
  have hnum := h.numFree
  simp only [List.length_append, List.length_map, List.length_range] at hlen
  omega

/-- **Different blocks do not overlap.** -/
theorem disjoint (h : Sound x header mem live free) (hp : p ∈ live ++ free)
    (hq : q ∈ live ++ free) (hpq : p ≠ q) :
    p + header.blockSize ≤ q ∨ q + header.blockSize ≤ p := by
  obtain ⟨k, -, rfl⟩ := h.exists_index hp
  obtain ⟨k', -, rfl⟩ := h.exists_index hq
  exact blockAt_disjoint _ _ fun hkk' => hpq (by rw [hkk'])

/-- Only the links of the free blocks are read from memory. -/
theorem congr_mem (h : Sound x header mem live free)
    (hmem : ∀ q ∈ free, ∀ i, q ≤ i → i < q + 8 → mem' i = mem i) :
    Sound x header mem' live free :=
  { h with chain := h.chain.congr fun q hq => nextFree_congr (hmem q hq) }

/-- The owner of a superblock is none of its allocator's business. -/
theorem set_owner (h : Sound x header mem live free) (owner : Option HeapId) :
    Sound x { header with owner := owner } mem live free :=
  { h with }

/-- Memory outside the superblock does not matter. -/
theorem congr_mem_outside (h : Sound x header mem live free) (hx : IsSuperblock x)
    (hmem : ∀ i, x ≤ i → i < x + 262144 → mem' i = mem i) : Sound x header mem' live free := by
  refine h.congr_mem fun q hq i hi hi' => ?_
  obtain ⟨h₁, h₂, -⟩ := h.mem_buffer hx (List.mem_append_right live hq)
  have hpos := h.isClass.pos
  exact hmem i (by omega) (by omega)

/-- **A client's write into a live block** keeps the invariant, whatever it
writes: a live block holds no link. -/
theorem write (h : Sound x header mem live free) (hp : p ∈ live)
    (hmem : ∀ i, i < p ∨ p + header.blockSize ≤ i → mem' i = mem i) :
    Sound x header mem' live free := by
  refine h.congr_mem fun q hq i hi hi' => hmem i ?_
  have hpos := h.isClass.pos
  have hne : p ≠ q := (List.nodup_append.mp h.nodup).2.2 p hp q hq
  rcases h.disjoint (List.mem_append_left free hp) (List.mem_append_right live hq) hne with hd | hd
  · exact Or.inr (by omega)
  · exact Or.inl (by omega)

/-! ### Allocating -/

/-- **Allocation**: a superblock with a free block yields one that was not live,
and the invariant holds with that block live. -/
theorem alloc (h : Sound x header mem live free) (hx : IsSuperblock x)
    (hfree : 0 < header.numFreeBlocks) :
    ∃ p header' free', superblockAlloc header mem = some (p, header') ∧
      Sound x header' mem (p :: live) free' ∧ p ∉ live ∧ SameCarving header header' ∧
      header'.numFreeBlocks = header.numFreeBlocks - 1 := by
  have htotal := h.total_lt
  have hnum := h.numFree_add_length
  have hsub : sub32 header.numFreeBlocks 1 = header.numFreeBlocks - 1 :=
    sub32_eq (by omega) (by omega)
  by_cases hreap : 0 < header.reapableBlocks
  · -- Reap mode: the block under the cursor joins the live blocks.
    have hle := h.reapable_le
    have hcur : header.totalBlocks - (header.reapableBlocks - 1) =
        header.totalBlocks - header.reapableBlocks + 1 := by omega
    obtain ⟨hlo, hhi⟩ := h.blockAt_mem
      (show header.totalBlocks - header.reapableBlocks < header.totalBlocks by omega)
    have hpos := h.isClass.pos
    have hxle := hx.le
    rw [superblockSize_eq] at hxle
    have hreapPos : header.reapPosition =
        blockAt x header.blockSize (header.totalBlocks - header.reapableBlocks) := by
      rw [h.reapPosition, Nat.mod_eq_of_lt (by omega)]
    let header' : SuperblockHeader :=
      { header with
        reapPosition := add64 header.reapPosition header.blockSize
        reapableBlocks := header.reapableBlocks - 1
        numFreeBlocks := header.numFreeBlocks - 1 }
    have hnew : Sound x header' mem (header.reapPosition :: live) free := by
      refine ⟨h.isClass, h.total, by simp only [header']; omega, h.bufferStart, ?_, h.chain, ?_, ?_⟩
      · simp only [header', add64, hcur, hreapPos, blockAt_succ]
      · have := h.numFree
        simp only [header']
        omega
      · simp only [header', hcur, hreapPos, List.range_succ, List.map_append, List.map_cons,
          List.map_nil, List.cons_append]
        exact (h.perm.cons _).trans (List.perm_append_singleton _ _).symm
    refine ⟨header.reapPosition, header', free, ?_, hnew, ?_, ⟨rfl, rfl, rfl, rfl⟩, rfl⟩
    · rw [superblockAlloc, if_pos hreap, hsub]
    have hnd := hnew.nodup
    rw [List.cons_append, List.nodup_cons] at hnd
    exact fun hc => hnd.1 (List.mem_append_left free hc)
  · -- Free list mode: the head of the list leaves it.
    have hnumFree := h.numFree
    obtain ⟨p, free', rfl⟩ : ∃ p free', free = p :: free' := by
      cases free with
      | nil => simp at hnumFree; omega
      | cons p free' => exact ⟨p, free', rfl⟩
    have hchain := chain_cons.mp h.chain
    have hperm : ((p :: live) ++ free').Perm (live ++ p :: free') := List.perm_middle.symm
    let header' : SuperblockHeader :=
      { header with freeList := nextFree mem p, numFreeBlocks := header.numFreeBlocks - 1 }
    have hlist : header'.freeList = nextFree mem p := rfl
    have hnew : Sound x header' mem (p :: live) free' := by
      refine ⟨h.isClass, h.total, h.reapable_le, h.bufferStart, h.reapPosition, ?_, ?_,
        hperm.trans h.perm⟩
      · rw [hlist]
        exact hchain.2
      · simp only [List.length_cons] at hnumFree
        simp only [header']
        omega
    refine ⟨p, header', free', ?_, hnew, ?_, ⟨rfl, rfl, rfl, rfl⟩, rfl⟩
    · rw [superblockAlloc, if_neg hreap, hchain.1, Option.map_some, hsub]
    have hnd := hnew.nodup
    rw [List.cons_append, List.nodup_cons] at hnd
    exact fun hc => hnd.1 (List.mem_append_left free' hc)

/-! ### Freeing -/

/-- **Deallocation** of a live block: the block becomes the head of the free
list, and only the eight bytes of its link are written. -/
theorem free_live (h : Sound x header mem live free) (hx : IsSuperblock x) (hp : p ∈ live) :
    ∃ header' mem', superblockFree header mem p = (header', mem') ∧
      Sound x header' mem' (live.erase p) (p :: free) ∧ SameCarving header header' ∧
      header'.numFreeBlocks = header.numFreeBlocks + 1 ∧
      ∀ i, i < p ∨ p + 8 ≤ i → mem' i = mem i := by
  have htotal := h.total_lt
  have hnum := h.numFree_add_length
  have hlen := List.length_pos_of_mem hp
  have hadd : add32 header.numFreeBlocks 1 = header.numFreeBlocks + 1 := add32_eq (by omega)
  have hpos := h.isClass.pos
  obtain ⟨-, -, hdvd⟩ := h.mem_buffer hx (List.mem_append_left free hp)
  have hmask : ¬(p &&& (minBlockSize - 1) ≠ 0) := not_not.mpr (and_minBlockSize_eq_zero.mpr hdvd)
  refine ⟨{ header with freeList := some p, numFreeBlocks := header.numFreeBlocks + 1 },
    setNextFree mem p header.freeList, ?_, ?_, ⟨rfl, rfl, rfl, rfl⟩, rfl,
    fun i hi => setNextFree_of_not_mem hi⟩
  · rw [superblockFree, if_neg hmask, hadd]
  have hmem : ∀ q ∈ free, ∀ i, q ≤ i → i < q + 8 →
      setNextFree mem p header.freeList i = mem i := by
    intro q hq i hi hi'
    have hne : p ≠ q := (List.nodup_append.mp h.nodup).2.2 p hp q hq
    refine setNextFree_of_not_mem ?_
    rcases h.disjoint (List.mem_append_left free hp) (List.mem_append_right live hq) hne with
      hd | hd
    · exact Or.inr (by omega)
    · exact Or.inl (by omega)
  have hold := h.congr_mem hmem
  refine ⟨h.isClass, h.total, h.reapable_le, h.bufferStart, h.reapPosition, ⟨rfl, ?_⟩, ?_, ?_⟩
  · rw [nextFree_setNextFree]
    · exact hold.chain
    · intro q hq
      have hqfree : q ∈ free := by
        have hhead := h.chain.head_eq
        rw [hq] at hhead
        exact List.mem_of_head? hhead.symm
      obtain ⟨h₁, h₂, -⟩ := h.mem_buffer hx (List.mem_append_right live hqfree)
      have hxle := hx.le
      rw [superblockSize_eq] at hxle
      omega
  · have := h.numFree
    simp only [List.length_cons]
    omega
  · refine List.perm_middle.trans (List.Perm.trans ?_ h.perm)
    rw [← List.cons_append]
    exact (List.perm_cons_erase hp).symm.append_right free

/-! ### The statistics -/

/-- A superblock is empty exactly when it has no live block. -/
theorem isEmpty_iff (h : Sound x header mem live free) :
    isSuperblockEmpty header = true ↔ live = [] := by
  have hnum := h.numFree_add_length
  rw [isSuperblockEmpty, beq_iff_eq, ← List.length_eq_zero_iff]
  omega

/-- **`used_bytes` counts the live blocks**; none of its conversions cuts
anything off. -/
theorem usedBytes_eq (h : Sound x header mem live free) :
    usedBytes header = (live.length * header.blockSize : ℕ) := by
  have htotal := h.total_lt
  have hnum := h.numFree_add_length
  have hmul := h.total_mul_le
  have hused : sub32 header.totalBlocks header.numFreeBlocks = live.length := by
    rw [sub32_eq (by omega) (by omega)]
    omega
  have hle : live.length * header.blockSize ≤ 262016 :=
    le_trans (Nat.mul_le_mul_right _ (by omega)) hmul
  have hint : ∀ a : ℕ, a < 2 ^ 31 → toInt a = a := by
    intro a ha
    rw [toInt, Nat.mod_eq_of_lt (by omega), if_pos ha]
  have hsize : toSize (live.length : ℤ) = live.length := by
    rw [toSize]
    omega
  rw [usedBytes, hused, hint live.length (by omega), hsize, Nat.mod_eq_of_lt (by omega),
    hint _ (by omega)]

end Sound

/-! ### Carving -/

/-- **Carving** an address that can be a superblock's gives a sound superblock
with no live block, whatever the header and the memory held before. -/
theorem sound_reset {x : ℕ} (hx : IsSuperblock x) {blockSize : ℕ} (hb : IsClass blockSize)
    (header : SuperblockHeader) (mem : Mem) :
    Sound x (resetSuperblock x blockSize header) mem [] [] := by
  have hle := hx.le
  have htotal : (superblockSize - sizeofSuperblockHeader) / blockSize % 2 ^ 32 =
      (superblockSize - sizeofSuperblockHeader) / blockSize := by
    refine Nat.mod_eq_of_lt (lt_of_le_of_lt (Nat.div_le_self _ _) (by simp))
  have hstart : add64 x sizeofSuperblockHeader = x + 128 := by
    rw [superblockSize_eq] at hle
    exact add64_eq (by simp only [sizeofSuperblockHeader_eq]; omega)
  refine ⟨hb, htotal, le_rfl, ?_, ?_, rfl, rfl, by simp [resetSuperblock]⟩
  · simp only [resetSuperblock, hstart, blockAt_zero]
  · rw [superblockSize_eq] at hle
    simp only [resetSuperblock, hstart, Nat.sub_self, blockAt_zero]
    omega

end MyMalloc
