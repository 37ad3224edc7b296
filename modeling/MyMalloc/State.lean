import MyMalloc.Superblock
import MyMalloc.Lib.AddressSpace
import Mathlib.Logic.Function.Basic

/-!
# The state of the allocator

Everything the small allocator reads and writes, in two parts.

* `MyMalloc.Core` holds the data: the usage statistics of every heap, the header
  of every superblock, the bytes in memory. Two ghosts are kept with it, the
  superblocks obtained from `init_superblock` so far and the regions that are
  mapped, and a record of the assertions that have failed.
* `MyMalloc.State` adds the lists, which exist as pointers only: the heads kept
  in the heaps (`recycled_superblock`, and `emptiness_bins` in every bin) and the
  `prev` and `next` links kept in the headers.

A struct is split into one map for each group of its fields, so that a function
that writes one field visibly leaves the others alone. A `BinManager*` is the
heap and the index of the bin it points to.
-/

namespace MyMalloc

open ByteMemory AddressSpace

/-! ### The data -/

/-- The usage statistics of a `Heap`. -/
structure Usage where
  inUse : ℕ := 0
  alloced : ℕ := 0
  maxInUse : ℕ := 0
  maxAlloced : ℕ := 0
  deriving DecidableEq, Repr

/-- **The data of the allocator.** -/
structure Core where
  usage : HeapId → Usage := fun _ => {}
  header : ℕ → SuperblockHeader := fun _ => {}
  mem : Mem := fun _ => 0
  /-- The superblocks obtained from `init_superblock` so far. -/
  superblocks : List ℕ := []
  /-- The regions of the address space that are mapped. -/
  mapped : List Region := []
  /-- The assertions that have failed so far. -/
  failed : List Assertion := []
  /-- The ranges that `memcpy` has written so far. -/
  copies : List Region := []

/-- What the kernel promises about a mapping of `len` bytes at `ptr`: it starts
at a page, lies in user space, and nothing was mapped there. -/
def MapsFresh (mapped : List Region) (ptr len : ℕ) : Prop :=
  4096 ∣ ptr ∧ 0 < ptr ∧ ptr + len ≤ userSpace ∧ Fresh mapped ptr len

instance (mapped : List Region) (ptr len : ℕ) : Decidable (MapsFresh mapped ptr len) :=
  inferInstanceAs (Decidable (_ ∧ _))

namespace Core

variable (c : Core)

/-- `ASSERT(cond)`: a failed assertion is reported, and the program goes on. -/
def assert (cond : Bool) (a : Assertion) : Core :=
  if cond then c else { c with failed := a :: c.failed }

/-- The state with another header for one superblock. -/
def setHeader (superblock : ℕ) (header : SuperblockHeader) : Core :=
  { c with header := Function.update c.header superblock header }

/-- The state with other statistics for one heap. -/
def setUsage (heap : HeapId) (usage : Usage) : Core :=
  { c with usage := Function.update c.usage heap usage }

/-- `inc_usage`. -/
def incUsage (heap : HeapId) (addedUsage : ℕ) : Core :=
  let u := c.usage heap
  let inUse := add64 u.inUse addedUsage
  c.setUsage heap { u with inUse := inUse, maxInUse := max u.maxInUse inUse }

/-- `inc_alloced`. -/
def incAlloced (heap : HeapId) (addedAlloc : ℕ) : Core :=
  let u := c.usage heap
  let alloced := add64 u.alloced addedAlloc
  c.setUsage heap { u with alloced := alloced, maxAlloced := max u.maxAlloced alloced }

/-- `dec_usage`. -/
def decUsage (heap : HeapId) (bytes : ℕ) : Core :=
  let u := c.usage heap
  c.setUsage heap { u with inUse := sub64 u.inUse bytes }

/-- `dec_alloced`. -/
def decAlloced (heap : HeapId) (bytes : ℕ) : Core :=
  let u := c.usage heap
  c.setUsage heap { u with alloced := sub64 u.alloced bytes }

/-- `superblock_alloc` on the superblock at `superblock`. -/
def superblockAlloc (superblock : ℕ) : Option (ℕ × Core) :=
  (MyMalloc.superblockAlloc (c.header superblock) c.mem).map fun (ptr, header) =>
    (ptr, c.setHeader superblock header)

/-- `superblock_free` on the superblock at `superblock`. -/
def superblockFree (superblock ptr : ℕ) : Core :=
  let (header, mem) := MyMalloc.superblockFree (c.header superblock) c.mem ptr
  { c.setHeader superblock header with mem := mem }

/-- `superblock->header.owner = heap`. -/
def setOwner (superblock : ℕ) (heap : HeapId) : Core :=
  c.setHeader superblock { c.header superblock with owner := some heap }

end Core

/-! ### The lists -/

/-- `BinManager`: the heads of the lists of one bin, from the fullest
superblocks (class 0) to the emptiest (class 4). -/
structure BinManager where
  emptinessBins : ℕ → Option ℕ := fun _ => none
  numNonfullSuperblocks : ℕ := 0

/-- A `BinManager*`: `&heap->size_bins[bin_idx]`. -/
abbrev BinPtr := HeapId × ℕ

/-- **The state of the allocator.** The default value is the zero-initialised
one the program starts from. -/
structure State extends Core where
  recycledSuperblock : HeapId → Option ℕ := fun _ => none
  sizeBins : BinPtr → BinManager := fun _ => {}
  prev : ℕ → Option ℕ := fun _ => none
  next : ℕ → Option ℕ := fun _ => none

namespace State

variable (s : State)

/-- The state with other data and the same lists. -/
def setCore (c : Core) : State := { s with toCore := c }

/-- `ASSERT(cond)`. -/
def assert (cond : Bool) (a : Assertion) : State := s.setCore (s.toCore.assert cond a)

/-- `SET_PREV(superblock, target)`. -/
def setPrev (superblock : ℕ) (target : Option ℕ) : State :=
  { s with prev := Function.update s.prev superblock target }

/-- `SET_NEXT(superblock, target)`. -/
def setNext (superblock : ℕ) (target : Option ℕ) : State :=
  { s with next := Function.update s.next superblock target }

/-- `bin_manager->emptiness_bins[eidx] = target`. -/
def setHead (bm : BinPtr) (eidx : ℕ) (target : Option ℕ) : State :=
  { s with
    sizeBins := Function.update s.sizeBins bm
      { s.sizeBins bm with
        emptinessBins := Function.update (s.sizeBins bm).emptinessBins eidx target } }

/-- `bin_manager->num_nonfull_superblocks = n`. -/
def setCount (bm : BinPtr) (n : ℕ) : State :=
  { s with
    sizeBins := Function.update s.sizeBins bm
      { s.sizeBins bm with numNonfullSuperblocks := n } }

/-- `heap->recycled_superblock = target`. -/
def setRecycled (heap : HeapId) (target : Option ℕ) : State :=
  { s with recycledSuperblock := Function.update s.recycledSuperblock heap target }

end State

end MyMalloc
