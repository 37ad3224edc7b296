import MyMalloc.SizeTable
import MyMalloc.Lib.ByteMemory

/-!
# Superblocks

`superblock.c` on a single superblock: its header, and the functions that carve
it, take a block from it and give a block back to it.

The links `prev` and `next` of the header are not here: they belong to the lists
a superblock is filed in, and are kept with those in `MyMalloc.State`. The mutex
of the header is left out as well; the locking of the allocator is a protocol of
its own. The free list *is* here, and it is a list in memory: a free block holds,
in its first eight bytes, the address of the next one
(`MyMalloc.nextFree`, `MyMalloc.setNextFree`).
-/

namespace MyMalloc

open ByteMemory

/-! ### The header -/

/-- A `Heap*`: the global heap, or one of the thread heaps. -/
inductive HeapId where
  /-- `&global_heap`. -/
  | global : HeapId
  /-- `&thread_heaps[i]`. -/
  | thread (i : ℕ) : HeapId
  deriving DecidableEq, Repr

theorem HeapId.thread_ne {i j : ℕ} (h : j ≠ i) : HeapId.thread j ≠ .thread i :=
  fun hc => h (HeapId.thread.inj hc)

/-- `SuperblockHeader`, without its links and its mutex. A fresh mapping is
zero-filled, hence the default values. -/
structure SuperblockHeader where
  magic : ℕ := 0
  /-- Owner of this superblock. -/
  owner : Option HeapId := none
  /-- Size of each individual block. -/
  blockSize : ℕ := 0
  /-- Total number of blocks in the superblock. -/
  totalBlocks : ℕ := 0
  /-- Number of blocks available to be reaped. -/
  reapableBlocks : ℕ := 0
  /-- Number of free blocks. -/
  numFreeBlocks : ℕ := 0
  /-- Singly linked list of free blocks, the last freed first. -/
  freeList : Option ℕ := none
  /-- Start of the buffer. -/
  bufferStart : ℕ := 0
  /-- Cursor into the buffer for reap allocation. -/
  reapPosition : ℕ := 0
  deriving DecidableEq, Repr

/-- `((FreeBlock*) ptr)->next`. -/
@[irreducible] def nextFree (mem : Mem) (ptr : ℕ) : Option ℕ :=
  let a := loadWord 8 mem ptr
  if a = 0 then none else some a

/-- `((FreeBlock*) ptr)->next = target`. -/
def setNextFree (mem : Mem) (ptr : ℕ) (target : Option ℕ) : Mem :=
  storeWord 8 mem ptr (target.getD 0)

/-! ### The functions of `superblock.c` -/

/-- `reset_superblock`, on the header of the superblock at `superblock`. -/
def resetSuperblock (superblock : ℕ) (blockSize : ℕ) (header : SuperblockHeader) :
    SuperblockHeader :=
  let total := (superblockSize - sizeofSuperblockHeader) / blockSize % 2 ^ 32
  let start := add64 superblock sizeofSuperblockHeader
  { header with
    blockSize := blockSize
    totalBlocks := total
    reapableBlocks := total
    numFreeBlocks := total
    freeList := none
    bufferStart := start
    reapPosition := start }

/-- `superblock_alloc`: the block it returns and the new header. In free list
mode the head of the list is dereferenced, so an empty list is a fault. -/
def superblockAlloc (header : SuperblockHeader) (mem : Mem) : Option (ℕ × SuperblockHeader) :=
  if 0 < header.reapableBlocks then
    some (header.reapPosition,
      { header with
        reapPosition := add64 header.reapPosition header.blockSize
        reapableBlocks := header.reapableBlocks - 1
        numFreeBlocks := sub32 header.numFreeBlocks 1 })
  else
    header.freeList.map fun ptr =>
      (ptr,
        { header with
          freeList := nextFree mem ptr
          numFreeBlocks := sub32 header.numFreeBlocks 1 })

/-- `superblock_free`: a pointer that is not a multiple of `MIN_BLOCK_SIZE` is
ignored. -/
def superblockFree (header : SuperblockHeader) (mem : Mem) (ptr : ℕ) : SuperblockHeader × Mem :=
  if ptr &&& (minBlockSize - 1) ≠ 0 then (header, mem)
  else
    ({ header with
        freeList := some ptr
        numFreeBlocks := add32 header.numFreeBlocks 1 },
      setNextFree mem ptr header.freeList)

/-- `is_superblock_empty`. -/
def isSuperblockEmpty (header : SuperblockHeader) : Bool :=
  header.numFreeBlocks == header.totalBlocks

/-- A value converted to `int`. -/
def toInt (a : ℕ) : ℤ := if a % 2 ^ 32 < 2 ^ 31 then (a % 2 ^ 32 : ℕ) else (a % 2 ^ 32 : ℕ) - 2 ^ 32

/-- An `int` converted to `size_t`. -/
def toSize (z : ℤ) : ℕ := (z % 2 ^ 64).toNat

/-- `used_bytes`: an `int` number of blocks, multiplied by a `size_t` and cut
back to an `int`. -/
def usedBytes (header : SuperblockHeader) : ℤ :=
  let usedBlocks := toInt (sub32 header.totalBlocks header.numFreeBlocks)
  toInt (toSize usedBlocks * header.blockSize % 2 ^ 64)

end MyMalloc
