import MyMalloc.Run

/-!
# Large blocks and the public functions

`largealloc.c`, blocks with a mapping of their own, and `mymalloc.c`, the
functions `malloc`, `calloc`, `realloc` and `free`.

A large block is told from a small one by the four bytes that lie 16 bytes before
it: a large block has its `MmapHeader` there, which starts with a magic number.
For a small block they belong to whatever lies before it. That is the block
before it in its superblock, or, for the first one, the header of the superblock,
of which they are the lower half of the cursor `reap_position`
(`MyMalloc.Core.image`).

`memcpy` and `memset` fault outside of mapped memory. They are the only accesses whose
length is not that of a field, and so the ones that may run over the end of a mapping.
-/

namespace MyMalloc

open ByteMemory AddressSpace

/-! ### `largealloc.c` -/

/-- `MMAP_HEADER_MAGIC`. -/
def mmapHeaderMagic : ℕ := 0xDEADBEEF

/-- `sizeof(MmapHeader)`: an `int`, four bytes of padding and a `size_t`. -/
def sizeofMmapHeader : ℕ := 16

/-- The offset of `size` in an `MmapHeader`. -/
def mmapHeaderSizeOffset : ℕ := 8

/-- The offset of `reap_position` in a `SuperblockHeader`, where it is the last field. -/
def reapPositionOffset : ℕ := 112

/-- The size of a page. -/
def pageSize : ℕ := 4096

/-- A length rounded up to whole pages. -/
def pageUp (len : ℕ) : ℕ := (len + (pageSize - 1)) / pageSize * pageSize

/-- Whether `munmap` accepts a range: it starts at a page, is not empty, and lies in user
space. -/
def CanUnmap (ptr len : ℕ) : Prop :=
  pageSize ∣ ptr ∧ 0 < len ∧ ptr + pageUp len ≤ userSpace

instance (ptr len : ℕ) : Decidable (CanUnmap ptr len) := inferInstanceAs (Decidable (_ ∧ _))

namespace Core

variable (c : Core)

/-- The memory as a load sees it, with the cursor of each superblock in its place.
The other fields of the headers are out of reach of `MyMalloc.Core.isLargeAlloc`. -/
def image : Mem := fun a =>
  let cursor := superblockOf a + reapPositionOffset
  if superblockOf a ∈ c.superblocks ∧ cursor ≤ a ∧ a < cursor + 8 then
    (toBytes 8 (c.header (superblockOf a)).reapPosition).getD (a - cursor) 0
  else c.mem a

/-- `mmap` of some length: whole pages, filled with zeros. -/
def mapPages (mmap : Option ℕ) (len : ℕ) : Option ℕ × Core :=
  match mmap with
  | none => (none, c)
  | some ptr => (some ptr,
      { c with mapped := (ptr, pageUp len) :: c.mapped, mem := fill c.mem ptr (pageUp len) 0 })

/-- `munmap`: whole pages, or nothing if it fails. -/
def unmapPages (ptr len : ℕ) : Core :=
  if CanUnmap ptr len then { c with mapped := unmap c.mapped ptr (pageUp len) } else c

/-- `n` bytes are copied, and the range they are written to is recorded. -/
def copy (dest src n : ℕ) : Core :=
  { c with mem := store c.mem dest (load c.mem src n), copies := (dest, n) :: c.copies }

/-- `memcpy`. -/
def memcpy (dest src n : ℕ) : Option Core :=
  if Spans c.mapped (src, n) ∧ Spans c.mapped (dest, n) then some (c.copy dest src n) else none

/-- `n` bytes are set to zero. -/
def clear (ptr n : ℕ) : Core := { c with mem := fill c.mem ptr n 0 }

/-- `memset(ptr, 0, n)`. -/
def memset (ptr n : ℕ) : Option Core :=
  if Spans c.mapped (ptr, n) then some (c.clear ptr n) else none

/-- The header of a large block is written. -/
def setMmapHeader (header size : ℕ) : Core :=
  { c with
    mem := storeWord 8 (storeWord 4 c.mem header mmapHeaderMagic)
      (header + mmapHeaderSizeOffset) size }

/-- `header->size`. -/
def mmapHeaderSize (header : ℕ) : ℕ := loadWord 8 c.mem (header + mmapHeaderSizeOffset)

/-- `header->size + sizeof(MmapHeader)`, for the header of the block at `ptr`. -/
def allocedSize (ptr : ℕ) : ℕ :=
  add64 (c.mmapHeaderSize (ptr - sizeofMmapHeader)) sizeofMmapHeader

/-- `large_alloc`. -/
def largeAlloc (size : ℕ) (mmap : Option ℕ) : Option ℕ × Core :=
  match c.mapPages mmap (add64 size sizeofMmapHeader) with
  | (none, c) => (none, c)
  | (some ptr, c) => (some (ptr + sizeofMmapHeader), c.setMmapHeader ptr size)

/-- `large_realloc`. -/
def largeRealloc (ptr size : ℕ) (mmap : Option ℕ) : Option (Option ℕ × Core) :=
  let oldHeader := ptr - sizeofMmapHeader
  let oldAllocedSize := c.allocedSize ptr
  match c.mapPages mmap (add64 size sizeofMmapHeader) with
  | (none, c) => some (none, c)
  | (some newPtr, c) => do
    -- The old header is copied with the old block, and overwritten below.
    let c ← c.memcpy newPtr oldHeader oldAllocedSize
    let c := c.unmapPages oldHeader oldAllocedSize
    return (some (newPtr + sizeofMmapHeader), c.setMmapHeader newPtr size)

/-- `large_free`. -/
def largeFree (ptr : ℕ) : Core :=
  c.unmapPages (ptr - sizeofMmapHeader) (c.allocedSize ptr)

/-- `is_large_alloc`. -/
def isLargeAlloc (ptr : ℕ) : Bool :=
  loadWord 4 c.image (ptr - sizeofMmapHeader) == mmapHeaderMagic

end Core

/-! ### `mymalloc.c` -/

namespace State

variable (s : State)

/-- `malloc` in a thread whose heap is `heap`. -/
def malloc (heap : HeapId) (size : ℕ) (mmap : Option ℕ) : Option (Option ℕ × State) :=
  if size = 0 then some (none, s)
  else if maxBlockSize < size then
    let (ptr, c) := s.toCore.largeAlloc size mmap
    some (ptr, s.setCore c)
  else s.heapAlloc heap size mmap

/-- `calloc`. -/
def calloc (heap : HeapId) (nmemb size : ℕ) (mmap : Option ℕ) : Option (Option ℕ × State) :=
  if nmemb = 0 ∨ size = 0 then some (none, s)
  else if (2 ^ 64 - 1) / nmemb < size then some (none, s)
  else do
    let numBytes := nmemb * size % 2 ^ 64
    match ← s.malloc heap numBytes mmap with
    | (none, s) => return (none, s)
    | (some ptr, s) =>
      let c ← s.toCore.memset ptr numBytes
      return (some ptr, s.setCore c)

/-- `free`. -/
def free : Option ℕ → Option State
  | none => some s
  | some ptr =>
    if s.toCore.isLargeAlloc ptr then some (s.setCore (s.toCore.largeFree ptr))
    else s.heapFree ptr

/-- `get_block_size`. -/
def getBlockSize (ptr : ℕ) : ℕ := (s.header (superblockOf ptr)).blockSize

/-- `realloc`. -/
def realloc (heap : HeapId) (ptr : Option ℕ) (size : ℕ) (mmap : Option ℕ) :
    Option (Option ℕ × State) :=
  match ptr with
  | none => some (none, s)
  | some ptr =>
    if size = 0 then do
      let s ← s.free (some ptr)
      return (none, s)
    else
      let oldLarge := s.toCore.isLargeAlloc ptr
      let newLarge := decide (maxBlockSize < size)
      if oldLarge && newLarge then do
        let (newPtr, c) ← s.toCore.largeRealloc ptr size mmap
        return (newPtr, s.setCore c)
      else do
        match ← s.malloc heap size mmap with
        | (none, s) =>
          -- The old block is freed on this path as well.
          let s ← s.free (some ptr)
          return (none, s)
        | (some newPtr, s) =>
          let numBytesToCopy := if oldLarge then size else min (s.getBlockSize ptr) size
          let c ← s.toCore.memcpy newPtr ptr numBytesToCopy
          let s ← (s.setCore c).free (some ptr)
          return (some newPtr, s)

end State

/-! ### Runs of the public functions -/

/-- The allocator together with the live blocks, those that `heap_alloc` returned and
those that `large_alloc` or `large_realloc` returned: address and requested size. -/
structure Process where
  state : State := {}
  small : List (ℕ × ℕ) := []
  large : List (ℕ × ℕ) := []

/-- One event of a run. A call is made by a thread with heap `i`, and `mmap` is what
the kernel answers if it is asked for a mapping. -/
inductive Request where
  | malloc (i size : ℕ) (mmap : Option ℕ) : Request
  | calloc (i nmemb size : ℕ) (mmap : Option ℕ) : Request
  | realloc (i : ℕ) (ptr : Option ℕ) (size : ℕ) (mmap : Option ℕ) : Request
  | free (ptr : Option ℕ) : Request
  /-- A client writes bytes at an offset into a block. -/
  | write (ptr off : ℕ) (bytes : List UInt8) : Request
  deriving DecidableEq, Repr

namespace Process

variable (w : Process)

/-- A block of a requested size has been returned. `malloc` calls `large_alloc` for
the sizes above `max_block_size`, and `realloc` calls `large_realloc` for no
others. -/
def add (size : ℕ) : Option ℕ → Process
  | none => w
  | some ptr =>
    if maxBlockSize < size then { w with large := (ptr, size) :: w.large }
    else { w with small := (ptr, size) :: w.small }

/-- A block has been given back. -/
def remove : Option ℕ → Process
  | none => w
  | some ptr =>
    { w with
      small := w.small.filter fun b => b.1 ≠ ptr
      large := w.large.filter fun b => b.1 ≠ ptr }

/-- Whether `realloc` calls `large_realloc`. -/
def staysLarge (ptr : Option ℕ) (size : ℕ) : Bool :=
  ptr.any fun p => w.state.toCore.isLargeAlloc p && decide (maxBlockSize < size)

/-- What an event does; `none` is a fault of the allocator. A `large_realloc` that
fails leaves the client its block, any other `realloc` takes it back. -/
def step : Request → Option Process
  | .malloc i size mmap => do
    let (r, s) ← w.state.malloc (.thread i) size mmap
    return { w with state := s }.add size r
  | .calloc i nmemb size mmap => do
    let (r, s) ← w.state.calloc (.thread i) nmemb size mmap
    return { w with state := s }.add (nmemb * size) r
  | .realloc i ptr size mmap => do
    let (r, s) ← w.state.realloc (.thread i) ptr size mmap
    let rest := if w.staysLarge ptr size && r.isNone then w else w.remove ptr
    return { rest with state := s }.add size r
  | .free ptr => do
    let s ← w.state.free ptr
    return { w.remove ptr with state := s }
  | .write ptr off bytes =>
    some { w with
      state := w.state.setCore
        { w.state.toCore with mem := store w.state.mem (ptr + off) bytes } }

/-- A pointer to a live block. -/
def IsLive (ptr : ℕ) : Prop := ∃ b ∈ w.small ++ w.large, b.1 = ptr

instance : DecidablePred w.IsLive := fun _ => inferInstanceAs (Decidable (∃ b ∈ _, _))

/-- What the kernel promises when it maps memory for a request: pages that were not
mapped, and none for a length of zero. -/
def Promised (size : ℕ) (mmap : Option ℕ) : Prop :=
  ∀ ptr ∈ mmap, if size ≤ maxBlockSize then MapsFresh w.state.mapped ptr (2 * superblockSize)
    else 0 < add64 size sizeofMmapHeader ∧
      MapsFresh w.state.mapped ptr (pageUp (add64 size sizeofMmapHeader))

instance (size : ℕ) (mmap : Option ℕ) : Decidable (w.Promised size mmap) :=
  inferInstanceAs (Decidable (∀ ptr ∈ mmap, _))

/-- **What the caller and the kernel promise**: sizes are of type `size_t`, `mmap`
answers with pages that were not mapped, only live blocks and null pointers are
given back, and clients write inside their live blocks. -/
def Legal : Request → Prop
  | .malloc _ size mmap => size < 2 ^ 64 ∧ w.Promised size mmap
  | .calloc _ nmemb size mmap => nmemb < 2 ^ 64 ∧ size < 2 ^ 64 ∧ w.Promised (nmemb * size) mmap
  | .realloc _ ptr size mmap => size < 2 ^ 64 ∧ w.Promised size mmap ∧ ∀ p ∈ ptr, w.IsLive p
  | .free ptr => ∀ p ∈ ptr, w.IsLive p
  | .write ptr off bytes => ∃ b ∈ w.small ++ w.large, b.1 = ptr ∧ off + bytes.length ≤ b.2

instance : DecidablePred w.Legal
  | .malloc .. => inferInstanceAs (Decidable (_ ∧ _))
  | .calloc .. => inferInstanceAs (Decidable (_ ∧ _ ∧ _))
  | .realloc .. => inferInstanceAs (Decidable (_ ∧ _ ∧ _))
  | .free _ => inferInstanceAs (Decidable (∀ p ∈ _, _))
  | .write .. => inferInstanceAs (Decidable (∃ b ∈ _, _))

end Process

end MyMalloc
