import MyMalloc.LargeAlloc
import MyMalloc.Usable
import Mathlib.Data.List.Pairwise

/-!
# Large blocks and marks

`MyMalloc.Core.isLargeAlloc` asks for the mark of a large block, the magic number 16
bytes before it. This file has the two facts the answer rests on. A large block bears
the mark, and nothing but its own release takes it away (`MyMalloc.LargeBlock`). In
a superblock the magic number stands nowhere where a block could follow
(`MyMalloc.Unmarked`), as long as no client puts it there: the allocator itself only
writes links, which are multiples of 16, and the magic number is none.
-/

namespace MyMalloc

open LinkedList Placement AddressSpace ByteMemory

/-! ### Large blocks -/

/-- The region of a large block: whole pages, from its header on. -/
def spanOf (b : ℕ × ℕ) : Region := (b.1 - sizeofMmapHeader, pageUp (b.2 + sizeofMmapHeader))

theorem le_pageUp (len : ℕ) : len ≤ pageUp len := by
  simp only [pageUp, pageSize]
  omega

/-- **A large block**, address and requested size: its header starts a page and is
written, its pages are mapped, and it lies apart from the superblocks. -/
structure LargeBlock (c : Core) (b : ℕ × ℕ) : Prop where
  header_le : sizeofMmapHeader ≤ b.1
  dvd : pageSize ∣ (spanOf b).1
  le : (spanOf b).1 + (spanOf b).2 ≤ userSpace
  covers : ∀ a, AddressSpace.Mem a (spanOf b) → Covers c.mapped a
  magic : loadWord 4 c.mem (spanOf b).1 = mmapHeaderMagic
  size : c.mmapHeaderSize (spanOf b).1 = b.2
  apart : ∀ x ∈ c.superblocks, Apart (spanOf b) (x, superblockSize)

namespace LargeBlock

variable {c c' : Core} {b : ℕ × ℕ}

/-- The block begins where its header ends. -/
theorem base_add (h : LargeBlock c b) : (spanOf b).1 + 16 = b.1 := by
  have hle := h.header_le
  simp only [spanOf, sizeofMmapHeader] at *
  omega

/-- The block lies in its pages. -/
theorem add_le (h : LargeBlock c b) : b.1 + b.2 ≤ (spanOf b).1 + (spanOf b).2 := by
  have hbase := h.base_add
  have hle := le_pageUp (b.2 + sizeofMmapHeader)
  simp only [spanOf, sizeofMmapHeader] at *
  omega

/-- Its region is not empty. -/
theorem pos (h : LargeBlock c b) : 0 < (spanOf b).2 := by
  have hbase := h.base_add
  have hadd := h.add_le
  omega

/-- Its header is mapped. -/
theorem covers_header (h : LargeBlock c b) {a : ℕ} (ha : (spanOf b).1 ≤ a)
    (ha' : a < (spanOf b).1 + 16) : Covers c.mapped a := by
  have hbase := h.base_add
  have hadd := h.add_le
  exact h.covers a ⟨ha, by omega⟩

/-- Its header tells the length of its mapping. -/
theorem alloced_eq (h : LargeBlock c b) :
    c.allocedSize b.1 = b.2 + sizeofMmapHeader := by
  have hle := h.le
  have hup := le_pageUp (b.2 + sizeofMmapHeader)
  rw [userSpace_eq] at hle
  simp only [spanOf] at hle
  rw [Core.allocedSize, show b.1 - sizeofMmapHeader = (spanOf b).1 from rfl, h.size]
  exact add64_eq (by omega)

/-- **`munmap` of its pages succeeds**, on any data. -/
theorem unmapPages_eq (h : LargeBlock c b) (c' : Core) :
    c'.unmapPages (spanOf b).1 (b.2 + sizeofMmapHeader) =
      { c' with mapped := unmap c'.mapped (spanOf b).1 (spanOf b).2 } :=
  if_pos ⟨h.dvd, Nat.add_pos_right _ (by decide), h.le⟩

/-- **What happens elsewhere does not matter** to a large block. -/
theorem congr (h : LargeBlock c b)
    (hmem : ∀ a, (spanOf b).1 ≤ a → a < (spanOf b).1 + 16 → c'.mem a = c.mem a)
    (hmapped : ∀ a, AddressSpace.Mem a (spanOf b) → Covers c'.mapped a)
    (hsb : ∀ x ∈ c'.superblocks, x ∈ c.superblocks ∨ Apart (spanOf b) (x, superblockSize)) :
    LargeBlock c' b where
  header_le := h.header_le
  dvd := h.dvd
  le := h.le
  covers := hmapped
  magic := by
    rw [← h.magic]
    exact loadWord_congr fun i hi hi' => hmem i hi (by omega)
  size := by
    rw [← h.size]
    refine loadWord_congr fun i hi hi' => ?_
    simp only [mmapHeaderSizeOffset] at hi hi'
    exact hmem i (by omega) (by omega)
  apart x hx := (hsb x hx).elim (h.apart x) id

end LargeBlock

/-- The region of a large block, from the address of its header. -/
theorem spanOf_add (header size : ℕ) : spanOf (header + sizeofMmapHeader, size) =
    (header, pageUp (size + sizeofMmapHeader)) := by
  simp only [spanOf, Nat.add_sub_cancel]

/-- Writing the header of a large block writes nothing else. -/
theorem Core.setMmapHeader_mem (c : Core) (header size : ℕ) {a : ℕ}
    (ha : a < header ∨ header + sizeofMmapHeader ≤ a) :
    (c.setMmapHeader header size).mem a = c.mem a := by
  simp only [Core.setMmapHeader, sizeofMmapHeader, mmapHeaderSizeOffset] at *
  rw [storeWord_outside (by omega), storeWord_outside (by omega)]

/-- **A header makes mapped pages a large block.** -/
theorem LargeBlock.of_setMmapHeader {c : Core} {header size : ℕ} (hsize : size < 2 ^ 64)
    (hdvd : pageSize ∣ header)
    (hle : header + pageUp (size + sizeofMmapHeader) ≤ userSpace)
    (hcovers : ∀ a, AddressSpace.Mem a (header, pageUp (size + sizeofMmapHeader)) →
      Covers c.mapped a)
    (hapart : ∀ x ∈ c.superblocks,
      Apart (header, pageUp (size + sizeofMmapHeader)) (x, superblockSize)) :
    LargeBlock (c.setMmapHeader header size) (header + sizeofMmapHeader, size) where
  header_le := Nat.le_add_left ..
  dvd := by rwa [spanOf_add]
  le := by rwa [spanOf_add]
  covers := by rwa [spanOf_add]
  magic := by
    rw [spanOf_add]
    simp only [Core.setMmapHeader]
    rw [loadWord_storeWord_of_disjoint (by simp only [mmapHeaderSizeOffset]; omega),
      loadWord_storeWord]
    rfl
  size := by
    rw [spanOf_add]
    simp only [Core.mmapHeaderSize, Core.setMmapHeader]
    rw [loadWord_storeWord]
    exact Nat.mod_eq_of_lt (lt_of_lt_of_le hsize (by norm_num))
  apart := by rwa [spanOf_add]

/-- `large_free` unmaps the pages of a large block. -/
theorem LargeBlock.largeFree_eq {c : Core} {b : ℕ × ℕ} (hb : LargeBlock c b) :
    c.largeFree b.1 = { c with mapped := unmap c.mapped (spanOf b).1 (spanOf b).2 } := by
  rw [Core.largeFree, show b.1 - sizeofMmapHeader = (spanOf b).1 from rfl, hb.alloced_eq,
    hb.unmapPages_eq]

/-- A `memcpy` that returns has copied the bytes. -/
theorem Core.eq_of_memcpy {c c' : Core} {dest src n : ℕ} (h : c.memcpy dest src n = some c') :
    c' = c.copy dest src n := by
  rw [memcpy] at h
  split at h
  · exact (Option.some.inj h).symm
  · cases h

/-- A `memset` that returns has cleared the range. -/
theorem Core.eq_of_memset {c c' : Core} {ptr n : ℕ} (h : c.memset ptr n = some c') :
    c' = c.clear ptr n := by
  rw [memset] at h
  split at h
  · exact (Option.some.inj h).symm
  · cases h

/-- Once the new block is mapped, `large_realloc` does not return `NULL`. -/
theorem Core.largeRealloc_ne_none {c c' : Core} {ptr size newPtr : ℕ} :
    c.largeRealloc ptr size (some newPtr) ≠ some (none, c') := by
  intro h
  obtain ⟨c₁, -, h⟩ := Option.bind_eq_some_iff.mp h
  cases h

/-- The data after `large_realloc` has moved a large block. -/
def Core.reallocated (c : Core) (b : ℕ × ℕ) (size newPtr : ℕ) : Core :=
  ({ c with
    mapped := unmap ((newPtr, pageUp (size + sizeofMmapHeader)) :: c.mapped) (spanOf b).1
      (spanOf b).2
    mem := store (fill c.mem newPtr (pageUp (size + sizeofMmapHeader)) 0) newPtr
      (load (fill c.mem newPtr (pageUp (size + sizeofMmapHeader)) 0) (spanOf b).1
        (b.2 + sizeofMmapHeader))
    copies := (newPtr, b.2 + sizeofMmapHeader) :: c.copies } : Core).setMmapHeader newPtr size

/-- **What `large_realloc` does once the new block is mapped**: it faults if the copy runs
into memory that is not mapped. -/
theorem Core.largeRealloc_of_spans {c : Core} {ptr size newPtr : ℕ}
    (hold : Spans c.mapped (ptr - sizeofMmapHeader, c.allocedSize ptr)) :
    c.largeRealloc ptr size (some newPtr) =
      if Spans ((newPtr, pageUp (add64 size sizeofMmapHeader)) :: c.mapped)
          (newPtr, c.allocedSize ptr) then
        some (some (newPtr + sizeofMmapHeader),
          (((c.mapPages (some newPtr) (add64 size sizeofMmapHeader)).2.copy newPtr
            (ptr - sizeofMmapHeader) (c.allocedSize ptr)).unmapPages (ptr - sizeofMmapHeader)
            (c.allocedSize ptr)).setMmapHeader newPtr size)
      else none := by
  -- The old block is mapped, so that it can be read.
  have hreads : Spans ((newPtr, pageUp (add64 size sizeofMmapHeader)) :: c.mapped)
      (ptr - sizeofMmapHeader, c.allocedSize ptr) :=
    fun a ha => covers_cons.mpr (Or.inr (hold a ha))
  rw [largeRealloc, mapPages]
  simp only [memcpy, and_iff_right hreads]
  split <;> rfl

/-- **What `large_realloc` does with a large block**: it moves the block, or faults. -/
theorem Core.largeRealloc_eq {c : Core} {b : ℕ × ℕ} (hb : LargeBlock c b) {size newPtr : ℕ}
    (hlt : size + sizeofMmapHeader < 2 ^ 64) :
    c.largeRealloc b.1 size (some newPtr) =
      if Spans ((newPtr, pageUp (size + sizeofMmapHeader)) :: c.mapped)
          (newPtr, b.2 + sizeofMmapHeader) then
        some (some (newPtr + sizeofMmapHeader), c.reallocated b size newPtr)
      else none := by
  have hold : Spans c.mapped (b.1 - sizeofMmapHeader, c.allocedSize b.1) := by
    rw [hb.alloced_eq]
    exact (show Spans _ _ from hb.covers).mono fun a ha =>
      ⟨ha.1, lt_of_lt_of_le ha.2 (Nat.add_le_add_left (le_pageUp _) _)⟩
  rw [largeRealloc_of_spans hold, show b.1 - sizeofMmapHeader = (spanOf b).1 from rfl,
    hb.alloced_eq, add64_eq hlt, hb.unmapPages_eq]
  rfl

/-- A copy that fits into the pages of the new block meets no fault. -/
theorem Core.largeRealloc_eq_of_le {c : Core} {b : ℕ × ℕ} (hb : LargeBlock c b) (newPtr : ℕ)
    {size : ℕ} (hlt : size + sizeofMmapHeader < 2 ^ 64)
    (hfits : b.2 + sizeofMmapHeader ≤ pageUp (size + sizeofMmapHeader)) :
    c.largeRealloc b.1 size (some newPtr) =
      some (some (newPtr + sizeofMmapHeader), c.reallocated b size newPtr) := by
  rw [largeRealloc_eq hb hlt, if_pos]
  exact fun a ha =>
    covers_cons.mpr (Or.inl ⟨ha.1, lt_of_lt_of_le ha.2 (Nat.add_le_add_left hfits _)⟩)

/-- A call of `large_realloc` that returns has moved the block. -/
theorem Core.eq_of_largeRealloc {c c' : Core} {b : ℕ × ℕ} (hb : LargeBlock c b)
    {size newPtr : ℕ} {r : Option ℕ} (hlt : size + sizeofMmapHeader < 2 ^ 64)
    (hc : c.largeRealloc b.1 size (some newPtr) = some (r, c')) :
    r = some (newPtr + sizeofMmapHeader) ∧ c' = c.reallocated b size newPtr := by
  rw [largeRealloc_eq hb hlt] at hc
  split at hc
  · exact ⟨(Prod.mk.inj (Option.some.inj hc)).1.symm, (Prod.mk.inj (Option.some.inj hc)).2.symm⟩
  · cases hc

/-- Large blocks that lie apart pairwise. -/
theorem apart_of_pairwise {large : List (ℕ × ℕ)} {b b' : ℕ × ℕ}
    (h : large.Pairwise fun b b' => Apart (spanOf b) (spanOf b')) (hb : b ∈ large)
    (hb' : b' ∈ large) (hne : b ≠ b') : Apart (spanOf b) (spanOf b') :=
  have : Std.Symm fun b b' : ℕ × ℕ => Apart (spanOf b) (spanOf b') := ⟨fun _ _ h => h.symm⟩
  h.forall hb hb' hne

/-! ### What `is_large_alloc` reads -/

namespace Core

variable {c : Core} {a : ℕ}

/-- Outside the superblocks a load sees the memory. -/
theorem image_of_not_mem (h : superblockOf a ∉ c.superblocks) : c.image a = c.mem a :=
  if_neg fun hc => h hc.1

/-- Behind the header of a superblock a load sees the memory. -/
theorem image_of_le (h : superblockOf a + sizeofSuperblockHeader ≤ a) : c.image a = c.mem a := by
  refine if_neg fun hc => ?_
  have hlt := hc.2.2
  simp only [reapPositionOffset, sizeofSuperblockHeader_eq] at *
  omega

/-- The first byte of the cursor of a superblock. -/
theorem image_cursor {x : ℕ} (hx : x ∈ c.superblocks) (hx' : IsSuperblock x) :
    (c.image (x + reapPositionOffset)).toNat = (c.header x).reapPosition % 256 := by
  have hsb : superblockOf (x + reapPositionOffset) = x :=
    superblockOf_of_mem hx' (by omega) (by rw [superblockSize_eq, reapPositionOffset]; omega)
  simp only [image, hsb, Nat.sub_self]
  simp [toBytes, hx]

end Core

/-- **The mark is told by its first byte**, which no multiple of 16 has. -/
theorem loadWord_ne_magic {m : ByteMemory.Mem} {a : ℕ} (h : (m a).toNat % 16 = 0) :
    loadWord 4 m a ≠ mmapHeaderMagic := by
  intro hc
  have hmod := loadWord_mod (m := m) (a := a) (show 0 < 4 by omega)
  rw [hc, mmapHeaderMagic] at hmod
  omega

/-- **A large block is found to be large.** -/
theorem LargeBlock.isLargeAlloc {c : Core} {b : ℕ × ℕ} (h : LargeBlock c b) :
    c.isLargeAlloc b.1 = true := by
  have hle := h.le
  have hbase := h.base_add
  have hadd := h.add_le
  have himage : loadWord 4 c.image (spanOf b).1 = loadWord 4 c.mem (spanOf b).1 := by
    refine loadWord_congr fun a ha ha' => Core.image_of_not_mem fun hx => ?_
    rw [userSpace_eq] at hle
    have hsb : superblockOf a = a / 262144 * 262144 := superblockOf_eq (by omega)
    have hapart := h.apart _ hx
    simp only [Apart, superblockSize_eq] at hapart
    omega
  rw [Core.isLargeAlloc, show b.1 - sizeofMmapHeader = (spanOf b).1 from rfl, himage, h.magic]
  rfl

/-! ### Marks in superblocks -/

/-- **No mark** stands in the buffer of a superblock where a block could follow. At
the beginning of a live block none can, unless it is as short as the mark is away. -/
def Unmarked (mem : ByteMemory.Mem) (blockSize : ℕ) (live : List ℕ) (x : ℕ) : Prop :=
  ∀ a, 16 ∣ a → x + sizeofSuperblockHeader ≤ a → a + 32 ≤ x + superblockSize →
    (a ∈ live → blockSize = 16) → loadWord 4 mem a ≠ mmapHeaderMagic

namespace Depot

/-- **No mark** stands in a superblock where a block could follow. -/
def Unmarked (d : Depot) : Prop :=
  ∀ x ∈ d.core.superblocks,
    MyMalloc.Unmarked d.core.mem (d.core.header x).blockSize (liveIn d.live x) x

variable {d d' d₁ : Depot}

/-- **A small block is found to be small.** -/
theorem Inv.isLargeAlloc (hd : d.Inv) (hmarks : d.Unmarked) {b : ℕ × ℕ} (hb : b ∈ d.live) :
    d.core.isLargeAlloc b.1 = false := by
  have hx := (hd.live_known b hb).1
  have hxsb := hd.isSuperblock hx
  have hmem := Inv.mem_liveIn hb
  obtain ⟨free, hs⟩ := (hd.carved _ hx).sound
  generalize superblockOf b.1 = x at hx hxsb hmem hs
  obtain ⟨hlo, hhi, hdvd⟩ := hs.mem_buffer hxsb (List.mem_append_left free hmem)
  have hclass := hs.isClass.dvd
  have hpos := hs.isClass.pos
  rw [Core.isLargeAlloc, beq_eq_false_iff_ne]
  by_cases hfirst : b.1 = x + 128
  · -- Before the first block there is the cursor.
    have haddr : b.1 - sizeofMmapHeader = x + reapPositionOffset := by
      rw [hfirst, sizeofMmapHeader, reapPositionOffset]
      omega
    rw [haddr]
    refine loadWord_ne_magic ?_
    rw [Core.image_cursor hx hxsb, hs.reapPosition]
    have hcursor : 16 ∣ blockAt x (d.core.header x).blockSize
        ((d.core.header x).totalBlocks - (d.core.header x).reapableBlocks) := by
      have hdvdx : 16 ∣ x := dvd_trans (by decide) hxsb.dvd
      simp only [blockAt, sizeofSuperblockHeader_eq]
      exact Nat.dvd_add (Nat.dvd_add hdvdx (by decide)) (Dvd.dvd.mul_left hclass _)
    omega
  · -- Before any other block there is another block.
    obtain ⟨k, -, hk⟩ := hs.exists_index (List.mem_append_left free hmem)
    have hk0 : k ≠ 0 := by
      rintro rfl
      exact hfirst (hk.trans (blockAt_zero ..))
    have hge : x + 128 + (d.core.header x).blockSize ≤ b.1 := by
      have hmul := Nat.mul_le_mul_right (d.core.header x).blockSize (Nat.one_le_iff_ne_zero.mpr hk0)
      rw [hk]
      simp only [blockAt, sizeofSuperblockHeader_eq]
      omega
    have himage : loadWord 4 d.core.image (b.1 - 16) = loadWord 4 d.core.mem (b.1 - 16) := by
      refine loadWord_congr fun a ha ha' => Core.image_of_le ?_
      have hsb : superblockOf a = x :=
        superblockOf_of_mem hxsb (by omega) (by rw [superblockSize_eq]; omega)
      rw [hsb, sizeofSuperblockHeader_eq]
      omega
    rw [sizeofMmapHeader, himage]
    refine hmarks x hx (b.1 - 16) (by omega) (by rw [sizeofSuperblockHeader_eq]; omega)
      (by rw [superblockSize_eq]; omega) fun hprev => ?_
    have hdis := hs.disjoint (List.mem_append_left free hprev) (List.mem_append_left free hmem)
      (by omega)
    omega

end Depot

end MyMalloc
