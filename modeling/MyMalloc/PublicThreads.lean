import MyMalloc.Classification
import MyMalloc.Uninterrupted

/-!
# Threads in the public functions

Any number of threads in `malloc`, `calloc`, `realloc` and `free`, with blocks of both
kinds. A thread is in `heap_alloc` or `heap_free` as it is in
`MyMalloc.Machine`, and takes the steps it takes there. Around that it runs through the
body of its public function (`MyMalloc.Phase`), where a step goes from one call to the
next: it asks whether a block is large and calls the function for that, or is in
`large_alloc`, `large_realloc` or `large_free`, or fills or copies a block. None of these
needs a mutex, as they work on pages and blocks that the thread has for itself. Only the
mark of a large block is looked for in memory that other threads write meanwhile.

A client sees a block from the return of the function that allocates it to the call of
the one that takes it back. For `realloc` the block changes when it is copied: by then the
old one is not freed yet, but nobody will see it again.
-/

namespace MyMalloc

open Locking ByteMemory BlockStore

/-! ### Inside the public functions -/

/-- What a thread asks `malloc` for a block for. -/
inductive Use where
  /-- `malloc` returns it. -/
  | malloc : Use
  /-- `calloc` clears it. -/
  | calloc : Use
  /-- `realloc` copies a block into it. With its local variable `old_large`. -/
  | realloc (ptr : ℕ) (oldLarge : Bool) : Use
  deriving DecidableEq, Repr

/-- Where a thread is in a public function. -/
inductive Phase where
  /-- Between two calls. -/
  | idle : Phase
  /-- `malloc`: compare the size with zero and with `max_block_size`. -/
  | request (i size : ℕ) (use : Use) : Phase
  /-- In `heap_alloc`. -/
  | allocating (size : ℕ) (use : Use) : Phase
  /-- `malloc` has returned. -/
  | got (size : ℕ) (result : Option ℕ) (use : Use) : Phase
  /-- `realloc`: call `large_realloc`. -/
  | remap (ptr size : ℕ) : Phase
  /-- `free`: ask whether the block is large. With what `realloc` returns afterwards. -/
  | release (ptr : ℕ) (result : Option ℕ) : Phase
  /-- In `heap_free`. -/
  | freeing (result : Option ℕ) : Phase
  deriving DecidableEq, Repr

/-- A call of a public function, by a thread with heap `i`. -/
inductive PublicCall where
  | malloc (i size : ℕ) : PublicCall
  | calloc (i nmemb size : ℕ) : PublicCall
  | realloc (i : ℕ) (ptr : Option ℕ) (size : ℕ) : PublicCall
  | free (ptr : Option ℕ) : PublicCall
  deriving DecidableEq, Repr

/-- The block that is copied into the new one. -/
def Use.old : Use → Option ℕ
  | .realloc ptr _ => some ptr
  | _ => none

/-- The block that is given to a call. -/
def PublicCall.ptr : PublicCall → Option ℕ
  | .realloc _ ptr _ => ptr
  | .free ptr => ptr
  | _ => none

namespace Phase

/-- The block of a client that a function works on. -/
def busy : Phase → Option ℕ
  | .request _ _ use => use.old
  | .allocating _ use => use.old
  | .got _ _ use => use.old
  | .remap ptr _ => some ptr
  | .release ptr none => some ptr
  | .release _ (some newPtr) => some newPtr
  | .freeing result => result
  | .idle => none

/-- The block that a function has and no client sees: a new one, or one that has been
copied. -/
def hidden : Phase → Option ℕ
  | .got _ result _ => result
  | .release ptr (some _) => some ptr
  | _ => none

/-- Whether a thread is in `heap_alloc` or `heap_free`. -/
def inHeap : Phase → Bool
  | .allocating .. => true
  | .freeing _ => true
  | _ => false

/-- The size of the large block that a function asks the kernel for next. -/
def mapping : Phase → Option ℕ
  | .request _ size _ => if maxBlockSize < size then some size else none
  | .remap _ size => some size
  | _ => none

end Phase

/-- Where a call of a public function starts; it is over at once if there is nothing to
do. `realloc` asks first whether the block is large. -/
def Core.startPublic (c : Core) : PublicCall → Phase
  | .malloc i size => .request i size .malloc
  | .calloc i nmemb size =>
    if nmemb = 0 ∨ size = 0 then .idle
    else if (2 ^ 64 - 1) / nmemb < size then .idle
    else .request i (nmemb * size % 2 ^ 64) .calloc
  | .realloc _ none _ => .idle
  | .realloc i (some ptr) size =>
    if size = 0 then .release ptr none
    else
      let oldLarge := c.isLargeAlloc ptr
      let newLarge := decide (maxBlockSize < size)
      if oldLarge && newLarge then .remap ptr size else .request i size (.realloc ptr oldLarge)
  | .free none => .idle
  | .free (some ptr) => .release ptr none

/-! ### Executions -/

/-- **The allocator with threads in the public functions**: the machine with the calls of
the small allocator, the large blocks, where each thread is, and the blocks that the
clients see, address and requested size. -/
structure Server (T : Type) where
  machine : Machine T := {}
  large : List (ℕ × ℕ) := []
  phase : T → Phase := fun _ => .idle
  live : List (ℕ × ℕ) := []

/-- One event of an execution. -/
inductive PublicEvent (T : Type) where
  /-- A thread calls a public function. -/
  | call (t : T) (c : PublicCall) : PublicEvent T
  /-- A thread takes a step in `heap_alloc` or `heap_free`. -/
  | act (t : T) (mmap : Option ℕ) : PublicEvent T
  /-- A thread takes a step in the body of its public function; `mmap` is what the kernel
  answers if it is asked for the pages of a large block. -/
  | next (t : T) (mmap : Option ℕ) : PublicEvent T
  /-- A client writes bytes at an offset into a block. -/
  | write (ptr off : ℕ) (bytes : List UInt8) : PublicEvent T

/-- The machine with other data. -/
def Machine.setCore {T : Type} (m : Machine T) (c : Core) : Machine T :=
  { m with state := m.state.setCore c }

/-- Where a thread is in its public function after a step in `heap_alloc` or `heap_free`
that takes it from one point to another. -/
def Phase.after (pc pc' : Pc) : Phase → Phase
  | .allocating size use => if pc' = .idle then .got size pc.returned use else .allocating size use
  | .freeing result => if pc' = .idle then .idle else .freeing result
  | p => p

namespace Server

variable {T : Type} [DecidableEq T] (s : Server T)

/-- The memory, the headers and the mappings. -/
def core : Core := s.machine.state.toCore

/-- A thread comes to a point of its public function. -/
def moveTo (t : T) (p : Phase) : Server T := { s with phase := Function.update s.phase t p }

/-- The memory or the mappings change. -/
def setCore (c : Core) : Server T := { s with machine := s.machine.setCore c }

/-- A thread calls `heap_alloc` or `heap_free`, and waits for it to return. -/
def callHeap (t : T) (c : Call) (p : Phase) : Option (Server T) := do
  let m ← s.machine.step (.call t c)
  return { s.moveTo t p with machine := m }

/-- A block is new to the clients. -/
def give (p size : ℕ) : Server T := { s with live := (p, size) :: s.live }

/-- The clients do not see a block any more. -/
def take (ptr : ℕ) : Server T := { s with live := s.live.filter fun b => b.1 ≠ ptr }

/-- `num_bytes_to_copy`. -/
def numBytesToCopy (ptr size : ℕ) (oldLarge : Bool) : ℕ :=
  if oldLarge then size else min (s.machine.state.getBlockSize ptr) size

/-- A step in the body of a public function. -/
def next (t : T) (mmap : Option ℕ) : Phase → Option (Server T)
  | .request i size use =>
    if size = 0 then some (s.moveTo t (.got size none use))
    else if maxBlockSize < size then
      let (result, c) := s.core.largeAlloc size mmap
      some { (s.setCore c).moveTo t (.got size result use) with
        large := (result.map fun p => (p, size)).toList ++ s.large }
    else s.callHeap t (.heapAlloc i size) (.allocating size use)
  | .got size (some p) .malloc => some ((s.give p size).moveTo t .idle)
  | .got size (some p) .calloc => do
    let c ← s.core.memset p size
    return ((s.setCore c).give p size).moveTo t .idle
  | .got size (some p) (.realloc ptr oldLarge) => do
    let c ← s.core.memcpy p ptr (s.numBytesToCopy ptr size oldLarge)
    return (((s.setCore c).take ptr).give p size).moveTo t (.release ptr (some p))
  | .got _ none (.realloc ptr _) => some (s.moveTo t (.release ptr none))
  | .got _ none _ => some (s.moveTo t .idle)
  | .remap ptr size => do
    match ← s.core.largeRealloc ptr size mmap with
    | (none, c) => return (s.setCore c).moveTo t .idle
    | (some newPtr, c) =>
      return { (((s.setCore c).take ptr).give newPtr size).moveTo t .idle with
        large := (newPtr, size) :: s.large.filter fun b => b.1 ≠ ptr }
  | .release ptr result =>
    let s := if result.isSome then s else s.take ptr
    if s.core.isLargeAlloc ptr then
      some { (s.setCore (s.core.largeFree ptr)).moveTo t .idle with
        large := s.large.filter fun b => b.1 ≠ ptr }
    else s.callHeap t (.heapFree ptr) (.freeing result)
  | _ => none

/-- What an event does; `none` is a fault of the allocator. -/
def step : PublicEvent T → Option (Server T)
  | .call t c => some (s.moveTo t (s.core.startPublic c))
  | .act t mmap => do
    let m ← s.machine.step (.act t mmap)
    let p := (s.phase t).after (s.machine.threads.point t) (m.threads.point t)
    return { s.moveTo t p with machine := m }
  | .next t mmap => s.next t mmap (s.phase t)
  | .write ptr off bytes =>
    some (s.setCore { s.core with mem := store s.core.mem (ptr + off) bytes })

/-! ### What is promised, and what must not happen -/

omit [DecidableEq T] in
/-- No function works on a block. -/
def Unused (ptr : ℕ) : Prop := ∀ t, (s.phase t).busy ≠ some ptr

/-- **What the threads, their clients and the kernel promise**: a thread is in one call at
a time, and gives the functions only blocks that it sees and no other call works on; a
thread in a call acts when it need not wait for a mutex; `mmap` answers with pages that
were not mapped; and clients write inside the blocks they see, and not while a call works
on them. -/
def Legal : PublicEvent T → Prop
  | .call t c => s.phase t = .idle ∧ ∀ ptr ∈ c.ptr, (∃ b ∈ s.live, b.1 = ptr) ∧ s.Unused ptr
  | .act t mmap => s.machine.Legal (.act t mmap)
  | .next t mmap => s.phase t ≠ .idle ∧ (s.phase t).inHeap = false ∧
      ∀ size ∈ (s.phase t).mapping, ∀ ptr ∈ mmap,
        MapsFresh s.core.mapped ptr (pageUp (add64 size sizeofMmapHeader))
  | .write ptr off bytes =>
    (∃ b ∈ s.live, b.1 = ptr ∧ off + bytes.length ≤ b.2) ∧ s.Unused ptr

/-- `realloc` copies no mark into a small block, and no large block beyond the pages of the
new one. -/
def CopiesWell (mmap : Option ℕ) : Phase → Prop
  | .got size (some p) (.realloc ptr oldLarge) => size ≤ maxBlockSize →
      (s.core.copy p ptr (s.numBytesToCopy ptr size oldLarge)).NoMark p size
  | .remap ptr size => mmap ≠ none → ∀ b ∈ s.large, b.1 = ptr →
      b.2 + sizeofMmapHeader ≤ pageUp (size + sizeofMmapHeader)
  | _ => True

/-- **What an execution must not do**: a thread disturb another, a superblock come from the
recycle list of the global heap to another class than its own, the length of a mapping
overflow, `large_realloc` copy a block beyond the pages of the new one, and the magic
number get into a small block where a block could be 16 bytes away. -/
def Tame : PublicEvent T → Prop
  | .call .. => True
  | .act t mmap => s.machine.RespectsOwners (.act t mmap) ∧ s.machine.Matching (.act t mmap)
  | .next t mmap => (∀ size ∈ (s.phase t).mapping, mmap ≠ none →
      size + sizeofMmapHeader < 2 ^ 64) ∧ s.CopiesWell mmap (s.phase t)
  | .write ptr off bytes => ∀ b ∈ s.machine.live, b.1 = ptr →
      ({ s.core with mem := store s.core.mem (ptr + off) bytes } : Core).NoMark ptr b.2

/-- **What the blocks of the clients hold.** -/
def blocks : Store UInt8 := view s.core.mem s.live

/-- **What an event does to the blocks** that the clients see, if anything. -/
def action : PublicEvent T → Option (BlockStore.Action UInt8)
  | .next t mmap =>
    match s.phase t with
    | .got size (some p) .malloc => some (.alloc p size)
    | .got size (some p) .calloc => some (.fill p size 0)
    | .got size (some p) (.realloc ptr _) => some (.move ptr p size)
    | .remap ptr size =>
      ((s.core.largeRealloc ptr size mmap).bind Prod.fst).map (.move ptr · size)
    | .release ptr none => some (.free ptr)
    | _ => none
  | .write ptr off bytes => some (.write ptr off bytes)
  | _ => none

instance [Fintype T] (ptr : ℕ) : Decidable (s.Unused ptr) :=
  inferInstanceAs (Decidable (∀ t, (s.phase t).busy ≠ some ptr))

instance [Fintype T] : DecidablePred s.Legal
  | .call .. => inferInstanceAs (Decidable (_ ∧ ∀ ptr ∈ _, _))
  | .act t mmap => inferInstanceAs (Decidable (s.machine.Legal (.act t mmap)))
  | .next .. => inferInstanceAs (Decidable (_ ∧ _ ∧ ∀ size ∈ _, ∀ ptr ∈ _, _))
  | .write .. => inferInstanceAs (Decidable ((∃ b ∈ _, _) ∧ _))

instance (mmap : Option ℕ) : DecidablePred (s.CopiesWell mmap)
  | .got _ (some _) (.realloc ..) => inferInstanceAs (Decidable (_ → _))
  | .remap .. => inferInstanceAs (Decidable (_ → ∀ b ∈ _, _))
  | .got _ none _ | .got _ _ .malloc | .got _ _ .calloc => isTrue (by simp [CopiesWell])
  | .idle | .request .. | .allocating .. | .release .. | .freeing _ => isTrue trivial

instance [Fintype T] : DecidablePred s.Tame
  | .call .. => isTrue trivial
  | .act .. => inferInstanceAs (Decidable (_ ∧ _))
  | .next .. => inferInstanceAs (Decidable ((∀ size ∈ _, _) ∧ _))
  | .write .. => inferInstanceAs (Decidable (∀ b ∈ _, _))

end Server

end MyMalloc
