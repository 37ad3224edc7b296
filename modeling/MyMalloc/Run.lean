import MyMalloc.Heap
import MyMalloc.Lib.Trace

/-!
# Sequential runs

The runs the sequential results are about: any finite sequence of complete calls
of `heap_alloc` on thread heaps and of `heap_free` on live blocks, from the
zero-initialised state, with writes of the clients into their live blocks in
between. Next to the state of the allocator a run carries the ghost list of the
live blocks, each with the size it was requested for.
-/

namespace MyMalloc

open ByteMemory AddressSpace

/-- The allocator together with the blocks that are live: address and requested
size. -/
structure World where
  state : State := {}
  live : List (ℕ × ℕ) := []

/-- One event of a sequential run. -/
inductive Op where
  /-- `heap_alloc(&thread_heaps[i], size)`, where `mmap` is what the kernel
  answers if it is asked for a new superblock. -/
  | alloc (i size : ℕ) (mmap : Option ℕ) : Op
  /-- `heap_free(ptr)`. -/
  | free (ptr : ℕ) : Op
  /-- A client writes bytes at an offset into a block. -/
  | write (ptr : ℕ) (off : ℕ) (bytes : List UInt8) : Op
  deriving DecidableEq, Repr

namespace World

/-- What an event does; `none` is a fault of the allocator. -/
def step (w : World) : Op → Option World
  | .alloc i size mmap => do
    let (retPtr, s) ← w.state.heapAlloc (.thread i) size mmap
    match retPtr with
    | some p => return ⟨s, (p, size) :: w.live⟩
    | none => return ⟨s, w.live⟩
  | .free ptr => do
    let s ← w.state.heapFree ptr
    return ⟨s, w.live.filter fun b => b.1 ≠ ptr⟩
  | .write ptr off bytes =>
    some { w with
      state := w.state.setCore
        { w.state.toCore with mem := store w.state.mem (ptr + off) bytes } }

/-- **What the caller and the kernel promise**: the size is one the small
allocator serves, `mmap` answers with pages that were not mapped, only live
blocks are freed, and clients write inside their live blocks. -/
def Legal (w : World) : Op → Prop
  | .alloc _ size mmap => 1 ≤ size ∧ size ≤ maxBlockSize ∧
      ∀ ptr ∈ mmap, MapsFresh w.state.mapped ptr (2 * superblockSize)
  | .free ptr => ∃ b ∈ w.live, b.1 = ptr
  | .write ptr off bytes => ∃ b ∈ w.live, b.1 = ptr ∧ off + bytes.length ≤ b.2

instance (w : World) : DecidablePred w.Legal
  | .alloc _ size none => decidable_of_iff (1 ≤ size ∧ size ≤ maxBlockSize) (by simp [Legal])
  | .alloc _ size (some ptr) => decidable_of_iff (1 ≤ size ∧ size ≤ maxBlockSize ∧
      MapsFresh w.state.mapped ptr (2 * superblockSize)) (by simp [Legal])
  | .free _ => inferInstanceAs (Decidable (∃ b ∈ w.live, _))
  | .write .. => inferInstanceAs (Decidable (∃ b ∈ w.live, _))

/-- The world a program starts in. -/
def initial : World := {}

end World

end MyMalloc
