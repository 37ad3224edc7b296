import MyMalloc.BinManager

/-!
# Heaps

`heap.c`: allocation from a thread heap and deallocation, with the transfers of
superblocks between the thread heaps and the global heap.

Every function is the sequential one, its locking left out. The long functions
are cut where a lock is taken or released, or where an owner is read or written,
so that the pieces are also the steps of an interleaved execution. What `mmap`
returns is an argument (`none` is `MAP_FAILED`), used only by a call that asks
for a new superblock. A `none` result is a fault, as in
`MyMalloc.BinManager`.
-/

namespace MyMalloc

open ByteMemory AddressSpace

/-- `is_empty_enough`, on the statistics of the heap. The fraction of `a` is
`(size_t) (0.75 * (double) a)`; the product is exact, `a` being a multiple of
`SUPERBLOCK_SIZE`. -/
def isEmptyEnough (usage : Usage) : Bool :=
  add64 usage.inUse (freeSbThresh * superblockSize) < usage.alloced &&
    usage.inUse < 3 * usage.alloced / 4

/-! ### New superblocks -/

namespace Core

variable (c : Core)

/-- `allocate_new_superblock`: map twice the size, and unmap what lies around
the aligned part. The fresh mapping is zero-filled. -/
def allocateNewSuperblock (mmap : Option ℕ) : Option ℕ × Core :=
  match mmap with
  | none => (none, c)
  | some ptr =>
    let alignment := ptr &&& (superblockSize - 1)
    let prologueBytes := if alignment = 0 then 0 else superblockSize - alignment
    let alignedPtr := add64 ptr prologueBytes
    let mapped := (ptr, 2 * superblockSize) :: c.mapped
    let mapped := if 0 < prologueBytes then unmap mapped ptr prologueBytes else mapped
    let mapped :=
      unmap mapped (add64 alignedPtr superblockSize) (superblockSize - prologueBytes)
    (some alignedPtr, { c with mapped := mapped, mem := fill c.mem ptr (2 * superblockSize) 0 })

/-- The data after `init_superblock` on the superblock mapped at `superblock`:
its header is written over zeros. -/
def initHeader (superblock : ℕ) (blockSize : ℕ) : Core :=
  { c.setHeader superblock (resetSuperblock superblock blockSize { magic := headerMagic }) with
    superblocks := superblock :: c.superblocks }

/-- `bin_alloc`, on a superblock obtained from the global heap, its owner assigned:
its blocks in use come with it. -/
def countIn (heap : HeapId) (superblock : ℕ) : Core :=
  let c := c.incUsage heap (toSize (usedBytes (c.header superblock)))
  c.incAlloced heap superblockSize

/-- `bin_alloc`, on a superblock obtained from the global heap. -/
def adopt (heap : HeapId) (superblock : ℕ) : Core :=
  (c.setOwner superblock heap).countIn heap superblock

end Core

namespace State

variable (s : State)

/-- `reset_superblock` on the superblock at `superblock`. -/
def resetSuperblock (superblock : ℕ) (blockSize : ℕ) : State :=
  let c := s.toCore.setHeader superblock
    (MyMalloc.resetSuperblock superblock blockSize (s.header superblock))
  ((s.setCore c).setPrev superblock none).setNext superblock none

/-- `init_superblock`. -/
def initSuperblock (mmap : Option ℕ) (blockSize : ℕ) : Option ℕ × State :=
  match s.toCore.allocateNewSuperblock mmap with
  | (none, c) => (none, s.setCore c)
  | (some superblock, c) =>
    (some superblock,
      ((s.setCore (c.initHeader superblock blockSize)).setPrev superblock none).setNext
        superblock none)

/-- `size2idx`. -/
def size2idx (size : ℕ) : Option (ℕ × State) := do
  let idx ← MyMalloc.size2idx size
  return (idx, s.assert (idx < numSizeBins) .binInRange)

/-! ### Allocation -/

/-- The search of a bin for a superblock with free space, from the fullest
class on. -/
def firstNonempty (bm : BinPtr) : Option (ℕ × ℕ) :=
  [1, 2, 3, 4].findSome? fun eidx => ((s.sizeBins bm).emptinessBins eidx).map fun x => (eidx, x)

/-- `get_sb_from_global`, between the lock and the unlock of the global heap. -/
def getSbFromGlobal (sizeClass : ℕ) : Option (Option ℕ × State) := do
  let (binIdx, s) ← s.size2idx sizeClass
  let bm : BinPtr := (.global, binIdx)
  if 0 < (s.sizeBins bm).numNonfullSuperblocks then
    let found := s.firstNonempty bm
    let s := s.assert found.isSome .globalCandidate
    -- A search in vain is a fault: the null pointer is dereferenced.
    let (eidx, superblock) ← found
    let s ← s.deleteFromBin bm eidx superblock
    return (some superblock, s)
  else match s.recycledSuperblock .global with
    | some recyclingBin =>
      let s := s.assert (s.next recyclingBin).isSome .globalRecycleNext
      return (some recyclingBin, s.setRecycled .global (s.next recyclingBin))
    | none => return (none, s)

/-- `bin_alloc`, the search of the heap's own lists: the superblock found, and
whether it stays in its bin meanwhile. -/
def binAllocLocal (heap : HeapId) (bm : BinPtr) (sizeClass : ℕ) : Option (ℕ × Bool) × State :=
  match s.firstNonempty bm with
  | some (_, superblock) => (some (superblock, true), s)
  | none =>
    match s.recycledSuperblock heap with
    | some recycled =>
      -- The link is read after it has been reset, so that the rest of the list is lost.
      let s := s.resetSuperblock recycled sizeClass
      (some (recycled, false), s.setRecycled heap (s.next recycled))
    | none => (none, s)

/-- `bin_alloc`, when no heap has a superblock to offer. -/
def binAllocNew (heap : HeapId) (mmap : Option ℕ) (sizeClass : ℕ) : Option ℕ × State :=
  match s.initSuperblock mmap sizeClass with
  | (none, s) => (none, s)
  | (some superblock, s) =>
    let c := s.toCore.setOwner superblock heap
    (some superblock, s.setCore (c.incAlloced heap superblockSize))

/-- `bin_alloc`, the allocation from the superblock found. -/
def binAllocFrom (bm : BinPtr) (superblock : ℕ) (sbAlreadyInBin : Bool) :
    Option (ℕ × State) := do
  let (oldEidx, s) ← s.getEidx superblock
  let (retPtr, c) ← s.toCore.superblockAlloc superblock
  let s := (s.setCore c).assert (retPtr ≠ 0) .allocResult
  if sbAlreadyInBin then
    let s ← s.updateEmptinessClass bm oldEidx superblock
    return (retPtr, s)
  else
    let (newEidx, s) ← s.getEidx superblock
    let s ← s.pushIntoBin bm newEidx superblock
    return (retPtr, s)

/-- `bin_alloc`. -/
def binAlloc (heap : HeapId) (bm : BinPtr) (sizeClass : ℕ) (mmap : Option ℕ) :
    Option (Option ℕ × State) := do
  match s.binAllocLocal heap bm sizeClass with
  | (some (superblock, sbAlreadyInBin), s) =>
    let (ptr, s) ← s.binAllocFrom bm superblock sbAlreadyInBin
    return (some ptr, s)
  | (none, s) =>
    match ← s.getSbFromGlobal sizeClass with
    | (some superblock, s) =>
      let s := s.setCore (s.toCore.adopt heap superblock)
      let (ptr, s) ← s.binAllocFrom bm superblock false
      return (some ptr, s)
    | (none, s) =>
      match s.binAllocNew heap mmap sizeClass with
      | (none, s) => return (none, s)
      | (some superblock, s) =>
        let (ptr, s) ← s.binAllocFrom bm superblock false
        return (some ptr, s)

/-- `heap_alloc`. -/
def heapAlloc (heap : HeapId) (size : ℕ) (mmap : Option ℕ) : Option (Option ℕ × State) := do
  let (binIdx, s) ← s.size2idx size
  let sizeClass := idx2class binIdx
  let (retPtr, s) ← s.binAlloc heap (heap, binIdx) sizeClass mmap
  -- The block is counted even if there is none.
  return (retPtr, s.setCore (s.toCore.incUsage heap sizeClass))

/-! ### Deallocation -/

/-- `find_emptiest_sb`: the class, the bin and the superblock. -/
def findEmptiestSb (heap : HeapId) : Option (ℕ × ℕ × ℕ) :=
  [4, 3, 2, 1].findSome? fun e => (List.range numSizeBins).findSome? fun b =>
    ((s.sizeBins (heap, b)).emptinessBins e).map fun x => (e, b, x)

/-- `transfer_sb_to_global`, before the global heap is locked: the superblock
taken out of the heap, and the class and the bin it was filed in unless it came
from the recycle list. -/
def transferTake (heap : HeapId) : Option (ℕ × Option (ℕ × ℕ) × State) := do
  let (superblock, place, s) ← match s.recycledSuperblock heap with
    | some recyclingBin =>
      some (recyclingBin, none, s.setRecycled heap (s.next recyclingBin))
    | none => do
      let found := s.findEmptiestSb heap
      let s := s.assert found.isSome .emptiestFound
      -- If there is none, a null pointer is dereferenced next.
      let (eidx, binIdx, superblock) ← found
      let s ← s.deleteFromBin (heap, binIdx) eidx superblock
      some (superblock, some (eidx, binIdx), s)
  return (superblock, place, s.assert (superblock ≠ 0) .transferCandidate)

/-- `transfer_sb_to_global`, under the lock of the global heap. -/
def transferPut (superblock : ℕ) (place : Option (ℕ × ℕ)) : Option State :=
  let s := s.setCore (s.toCore.setOwner superblock .global)
  match place with
  | none =>
    some ((s.setNext superblock (s.recycledSuperblock .global)).setRecycled .global superblock)
  | some (eidx, binIdx) => s.pushIntoBin (.global, binIdx) eidx superblock

/-- `transfer_sb_to_global`. -/
def transferSbToGlobal (heap : HeapId) : Option State := do
  let (superblock, place, s) ← s.transferTake heap
  s.transferPut superblock place

/-- `bin_free`. -/
def binFree (heap : HeapId) (bm : BinPtr) (ptr : ℕ) : Option State := do
  let superblock := superblockOf ptr
  let (oldEidx, s) ← s.getEidx superblock
  let s := s.setCore (s.toCore.superblockFree superblock ptr)
  if isSuperblockEmpty (s.header superblock) then
    let s ← s.deleteFromBin bm oldEidx superblock
    let s := s.setNext superblock (s.recycledSuperblock heap)
    return s.setRecycled heap superblock
  else
    s.updateEmptinessClass bm oldEidx superblock

/-- `heap_free`, from `bin_free` on, with the heap and the bin it works on. -/
def heapFreeFrom (heap : HeapId) (bm : BinPtr) (sizeClass : ℕ) (ptr : ℕ) : Option State := do
  let s ← s.binFree heap bm ptr
  if heap = .global then
    return s
  else
    let s := s.setCore (s.toCore.decUsage heap sizeClass)
    if isEmptyEnough (s.usage heap) then
      let s ← s.transferSbToGlobal heap
      return s.setCore (s.toCore.decAlloced heap superblockSize)
    else
      return s

/-- `heap_free`. -/
def heapFree (ptr : ℕ) : Option State := do
  let superblock := superblockOf ptr
  let s := s.assert ((s.header superblock).magic = headerMagic) .superblockMagic
  let sizeClass := (s.header superblock).blockSize
  let (binIdx, s) ← s.size2idx sizeClass
  let heap ← (s.header superblock).owner
  s.heapFreeFrom heap (heap, binIdx) sizeClass ptr

end State

end MyMalloc
