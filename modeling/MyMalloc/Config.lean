import Mathlib.Algebra.Group.Nat.Defs

/-!
# Constants and machine integers

The constants of `macros.h`, the layout facts of the platform the sources are
compiled for (64-bit Linux), and the two widths of unsigned arithmetic the
sources use: `unsigned int` wraps modulo `2 ^ 32`, `size_t` and addresses wrap
modulo `2 ^ 64`.

An address is a natural number; a pointer that may be null is an `Option ℕ`. The `ASSERT`s of
the sources print a message and go on; `MyMalloc.Assertion` names them, so that a run can
record the ones that fail.
-/

namespace MyMalloc

/-! ### `macros.h` -/

/-- `LG_MIN_BLOCK_SIZE`. -/
def lgMinBlockSize : ℕ := 4

/-- `LG_SUPERBLOCK_SIZE`. -/
def lgSuperblockSize : ℕ := 18

/-- `MIN_BLOCK_SIZE`, 16 bytes. -/
def minBlockSize : ℕ := 1 <<< lgMinBlockSize

/-- `SUPERBLOCK_SIZE`, 256 kilobytes. -/
def superblockSize : ℕ := 1 <<< lgSuperblockSize

/-- `MAX_NUM_BINS`. -/
def maxNumBins : ℕ := 128

/-- `FREE_SB_THRESH`. -/
def freeSbThresh : ℕ := 4

/-- `NUM_EMPTINESS_CLASSES`. -/
def numEmptinessClasses : ℕ := 5

/-- `HEADER_MAGIC`. -/
def headerMagic : ℕ := 0x8BADF00D

/-- `sizeof(SuperblockHeader)`: twelve fields, the mutex among them, in 120 bytes,
rounded up to the alignment of 16 its attribute asks for. -/
def sizeofSuperblockHeader : ℕ := 128

@[simp] theorem minBlockSize_eq : minBlockSize = 16 := rfl

@[simp] theorem superblockSize_eq : superblockSize = 262144 := rfl

@[simp] theorem maxNumBins_eq : maxNumBins = 128 := rfl

@[simp] theorem freeSbThresh_eq : freeSbThresh = 4 := rfl

@[simp] theorem numEmptinessClasses_eq : numEmptinessClasses = 5 := rfl

@[simp] theorem sizeofSuperblockHeader_eq : sizeofSuperblockHeader = 128 := rfl

/-! ### Addresses -/

/-- The end of the addresses a process can be given by `mmap`: the lower half of
the 48-bit address space. -/
def userSpace : ℕ := 2 ^ 47

@[simp] theorem userSpace_eq : userSpace = 140737488355328 := rfl

/-- The superblock an address lies in: `ptr & ~(SUPERBLOCK_SIZE - 1)`, the mask
being a negative `int` that is sign-extended to 64 bits. -/
def superblockOf (ptr : ℕ) : ℕ := ptr &&& (2 ^ 64 - superblockSize)

/-! ### Unsigned arithmetic -/

/-- `a + b` on `unsigned int`. -/
def add32 (a b : ℕ) : ℕ := (a + b) % 2 ^ 32

/-- `a - b` on `unsigned int`. -/
def sub32 (a b : ℕ) : ℕ := (a + 2 ^ 32 - b) % 2 ^ 32

/-- `a * b` on `unsigned int`. -/
def mul32 (a b : ℕ) : ℕ := (a * b) % 2 ^ 32

/-- `a + b` on `size_t`. -/
def add64 (a b : ℕ) : ℕ := (a + b) % 2 ^ 64

/-- `a - b` on `size_t`. -/
def sub64 (a b : ℕ) : ℕ := (a + 2 ^ 64 - b) % 2 ^ 64

theorem add32_eq {a b : ℕ} (h : a + b < 2 ^ 32) : add32 a b = a + b := Nat.mod_eq_of_lt h

theorem sub32_eq {a b : ℕ} (h : b ≤ a) (ha : a < 2 ^ 32) : sub32 a b = a - b := by
  rw [sub32]
  omega

theorem mul32_eq {a b : ℕ} (h : a * b < 2 ^ 32) : mul32 a b = a * b := Nat.mod_eq_of_lt h

theorem add64_eq {a b : ℕ} (h : a + b < 2 ^ 64) : add64 a b = a + b := Nat.mod_eq_of_lt h

theorem sub64_eq {a b : ℕ} (h : b ≤ a) (ha : a < 2 ^ 64) : sub64 a b = a - b := by
  rw [sub64]
  omega

/-! ### Assertions -/

/-- The `ASSERT`s of `heap.c`, `binmanager.c` and `superblock.c`, by the function
they stand in. -/
inductive Assertion where
  /-- `init_size_table`: `(new_sz & (MIN_BLOCK_SIZE - 1)) == 0`. -/
  | alignedClass
  /-- `init_size_table`: `2 * max_block_size + sizeof(SuperblockHeader) <= SUPERBLOCK_SIZE`. -/
  | twoMaxBlocksFit
  /-- `size2idx`: `j >= 0 && j < num_size_bins`. -/
  | binInRange
  /-- `push_into_bin`: `list_tail != NULL`. -/
  | pushTail
  /-- `delete_from_bin`: `list_head != NULL`. -/
  | deleteHead
  /-- `delete_from_bin`: `GET_NEXT(superblock) == superblock`. -/
  | deleteAlone
  /-- `delete_from_bin`: `prev_sb != NULL`. -/
  | deletePrev
  /-- `delete_from_bin`: `next_sb != NULL`. -/
  | deleteNext
  /-- `delete_from_bin`: `bin_manager->num_nonfull_superblocks > 0`. -/
  | deleteCount
  /-- `get_eidx`: `eidx >= 0 && eidx < NUM_EMPTINESS_CLASSES`. -/
  | eidxInRange
  /-- `lock_superblock`: `superblock->header.magic == HEADER_MAGIC`. -/
  | superblockMagic
  /-- `get_thread_heap`: `idx >= 0 && idx < MAX_HEAPS`. -/
  | heapInRange
  /-- `get_sb_from_global`: `s_ptr != NULL`. -/
  | globalCandidate
  /-- `get_sb_from_global`: `recycling_bin->header.next != NULL`. -/
  | globalRecycleNext
  /-- `find_emptiest_sb`: `false`, reached when no candidate was found. -/
  | emptiestFound
  /-- `transfer_sb_to_global`: `s_ptr != NULL`. -/
  | transferCandidate
  /-- `bin_alloc`: `ret_ptr != NULL`. -/
  | allocResult
  deriving DecidableEq, Repr

end MyMalloc
