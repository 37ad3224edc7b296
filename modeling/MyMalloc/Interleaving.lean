import MyMalloc.Protocol
import MyMalloc.Run

/-!
# Interleaved executions

Any number of threads in `heap_alloc` and `heap_free`. A step of a thread locks a
mutex, unlocks one, or is everything it does under the mutexes it holds, except
that reading the owner of a superblock in `heap_free`, assigning it in
`bin_alloc`, and unlocking the global heap in between are steps of their own
(`MyMalloc.State.advance`). The points are those of the locking protocol, and a
step is one of the protocol (`MyMalloc.State.advance_next`), with the outcome the
data of the allocator decides.

A client owns a block from the return of the `heap_alloc` that handed it out to
the call of the `heap_free` that takes it back.
-/

namespace MyMalloc

open Locking ByteMemory

/-! ### Steps of a thread -/

/-- What a thread does next at a point, seen from the mutexes. -/
def Pc.action : Pc → Action Mutex
  | .allocLock i _ => .lock (.heap (.thread i))
  | .globalLock .. => .lock (.heap .global)
  | .globalUnlock .. => .unlock (.heap .global)
  | .allocUnlock i .. => .unlock (.heap (.thread i))
  | .freeLockSuperblock ptr => .lock (.superblock (superblockOf ptr))
  | .freeLock _ _ heap => .lock (.heap heap)
  | .moveLock .. => .lock (.heap .global)
  | .moveUnlock .. => .unlock (.heap .global)
  | .freeUnlock _ heap => .unlock (.heap heap)
  | .freeUnlockSuperblock ptr => .unlock (.superblock (superblockOf ptr))
  | _ => .work

/-- **What a thread does next at a point**: where it comes to, and the state of
the allocator then. The bin index, a local variable of `heap_alloc` and
`heap_free`, is computed again where it is used. A `none` is a fault. -/
def State.advance (s : State) (mmap : Option ℕ) : Pc → Option (Pc × State)
  | .idle => none
  | .allocLock i size => do
    let (_, s) ← s.size2idx size
    return (.allocLocal i size, s)
  | .allocLocal i size => do
    let binIdx ← MyMalloc.size2idx size
    match s.binAllocLocal (.thread i) (.thread i, binIdx) (idx2class binIdx) with
    | (some (x, sbAlreadyInBin), s) =>
      let (p, s) ← s.binAllocFrom (.thread i, binIdx) x sbAlreadyInBin
      return (.allocUnlock i size (some p),
        s.setCore (s.toCore.incUsage (.thread i) (idx2class binIdx)))
    | (none, s) => return (.globalLock i size, s)
  | .globalLock i size => return (.globalFetch i size, s)
  | .globalFetch i size => do
    let binIdx ← MyMalloc.size2idx size
    let (found, s) ← s.getSbFromGlobal (idx2class binIdx)
    return (.globalUnlock i size found, s)
  | .globalUnlock i size (some x) => return (.allocOwn i size x false, s)
  | .globalUnlock i size none => return (.allocNew i size, s)
  | .allocNew i size => do
    let binIdx ← MyMalloc.size2idx size
    match s.initSuperblock mmap (idx2class binIdx) with
    | (some x, s) => return (.allocOwn i size x true, s)
    | (none, s) =>
      -- `heap_alloc` counts the block even if there is none.
      return (.allocUnlock i size none,
        s.setCore (s.toCore.incUsage (.thread i) (idx2class binIdx)))
  | .allocOwn i size x new =>
    return (.allocFrom i size x new, s.setCore (s.toCore.setOwner x (.thread i)))
  | .allocFrom i size x new => do
    let binIdx ← MyMalloc.size2idx size
    let s := s.setCore (if new then s.toCore.incAlloced (.thread i) superblockSize
      else s.toCore.countIn (.thread i) x)
    let (p, s) ← s.binAllocFrom (.thread i, binIdx) x false
    return (.allocUnlock i size (some p),
      s.setCore (s.toCore.incUsage (.thread i) (idx2class binIdx)))
  | .allocUnlock .. => return (.idle, s)
  | .freeLockSuperblock ptr =>
    return (.freeOwner ptr,
      s.assert ((s.header (superblockOf ptr)).magic = headerMagic) .superblockMagic)
  | .freeOwner ptr => do
    let sizeClass := (s.header (superblockOf ptr)).blockSize
    let (_, s) ← s.size2idx sizeClass
    let heap ← (s.header (superblockOf ptr)).owner
    return (.freeLock ptr sizeClass heap, s)
  | .freeLock ptr sizeClass heap => return (.freeBin ptr sizeClass heap, s)
  | .freeBin ptr sizeClass .global => do
    let binIdx ← MyMalloc.size2idx sizeClass
    let s ← s.binFree .global (.global, binIdx) ptr
    return (.freeUnlock ptr .global, s)
  | .freeBin ptr sizeClass (.thread i) => do
    let binIdx ← MyMalloc.size2idx sizeClass
    let s ← s.binFree (.thread i) (.thread i, binIdx) ptr
    let s := s.setCore (s.toCore.decUsage (.thread i) sizeClass)
    if isEmptyEnough (s.usage (.thread i)) then
      let (y, place, s) ← s.transferTake (.thread i)
      return (.moveLock ptr i y place, s)
    else
      return (.freeUnlock ptr (.thread i), s)
  | .moveLock ptr i y place => return (.movePut ptr i y place, s)
  | .movePut ptr i y place => do
    let s ← s.transferPut y place
    return (.moveUnlock ptr i, s)
  | .moveUnlock ptr i => return (.moveCount ptr i, s)
  | .moveCount ptr i =>
    return (.freeUnlock ptr (.thread i),
      s.setCore (s.toCore.decAlloced (.thread i) superblockSize))
  | .freeUnlock ptr _ => return (.freeUnlockSuperblock ptr, s)
  | .freeUnlockSuperblock _ => return (.idle, s)

/-! ### Executions -/

/-- **The allocator with its threads**, and the blocks the clients own: address
and requested size. -/
structure Machine (T : Type) where
  state : State := {}
  threads : System T Pc Mutex := ⟨fun _ => .idle, fun _ => none⟩
  live : List (ℕ × ℕ) := []

/-- One event of an interleaved execution. -/
inductive Event (T : Type) where
  /-- A thread calls `heap_alloc` or `heap_free`. -/
  | call (t : T) (c : Call) : Event T
  /-- A thread in a call takes a step; `mmap` is what the kernel answers if it is
  asked for a new superblock. -/
  | act (t : T) (mmap : Option ℕ) : Event T
  /-- A client writes bytes at an offset into a block. -/
  | write (ptr off : ℕ) (bytes : List UInt8) : Event T

namespace Machine

variable {T : Type} [DecidableEq T] (m : Machine T)

/-- The blocks the clients own once a call has been made. -/
def liveAfterCall : Call → List (ℕ × ℕ)
  | .heapAlloc .. => m.live
  | .heapFree ptr => m.live.filter fun b => b.1 ≠ ptr

/-- The blocks the clients own once a thread has left a point. -/
def liveAfterAct : Pc → List (ℕ × ℕ)
  | .allocUnlock _ size (some p) => (p, size) :: m.live
  | _ => m.live

/-- What an event does; `none` is a fault of the allocator. -/
def step : Event T → Option (Machine T)
  | .call t c =>
    some { m with threads := m.threads.move t .work (Pc.start c), live := m.liveAfterCall c }
  | .act t mmap => do
    let pc := m.threads.point t
    let (pc', s) ← m.state.advance mmap pc
    return ⟨s, m.threads.move t pc.action pc', m.liveAfterAct pc⟩
  | .write ptr off bytes =>
    some { m with
      state := m.state.setCore
        { m.state.toCore with mem := store m.state.mem (ptr + off) bytes } }

/-- **What the threads, their clients and the kernel promise**: a thread is in one
call at a time; it asks for a size the small allocator serves, or frees a block
a client owns; a thread in a call acts when it need not wait for a mutex; `mmap`
answers with pages that were not mapped; and clients write inside their blocks. -/
def Legal : Event T → Prop
  | .call t (.heapAlloc _ size) => m.threads.point t = .idle ∧ 1 ≤ size ∧ size ≤ maxBlockSize
  | .call t (.heapFree ptr) => m.threads.point t = .idle ∧ ∃ b ∈ m.live, b.1 = ptr
  | .act t mmap => m.threads.point t ≠ .idle ∧
      Available m.threads.holder (m.threads.point t).action ∧
      ∀ ptr ∈ mmap, MapsFresh m.state.mapped ptr (2 * superblockSize)
  | .write ptr off bytes => ∃ b ∈ m.live, b.1 = ptr ∧ off + bytes.length ≤ b.2

instance : DecidablePred m.Legal
  | .call _ (.heapAlloc ..) => inferInstanceAs (Decidable (_ ∧ _ ∧ _))
  | .call _ (.heapFree _) => inferInstanceAs (Decidable (_ ∧ ∃ b ∈ m.live, _))
  | .act _ _ => inferInstanceAs (Decidable (_ ∧ _ ∧ _))
  | .write .. => inferInstanceAs (Decidable (∃ b ∈ m.live, _))

end Machine

/-! ### The steps are steps of the protocol -/

/-- **Every step is one the protocol allows.** -/
theorem State.advance_next {s s' : State} {mmap : Option ℕ} {pc pc' : Pc}
    (h : s.advance mmap pc = some (pc', s')) : pc.Next pc.action pc' := by
  -- What the step binds on the way does not matter, only which branch it takes.
  cases pc with
  | idle => cases h
  | allocLock i size =>
    obtain ⟨_, -, h⟩ := Option.bind_eq_some_iff.mp h
    cases h
    exact .allocLock i size
  | allocLocal i size =>
    obtain ⟨binIdx, -, h⟩ := Option.bind_eq_some_iff.mp h
    split at h
    · obtain ⟨_, -, h⟩ := Option.bind_eq_some_iff.mp h
      cases h
      exact .allocLocal_found i size _
    · cases h
      exact .allocLocal_none i size
  | globalLock i size =>
    cases h
    exact .globalLock i size
  | globalFetch i size =>
    obtain ⟨binIdx, -, h⟩ := Option.bind_eq_some_iff.mp h
    obtain ⟨_, -, h⟩ := Option.bind_eq_some_iff.mp h
    cases h
    exact .globalFetch i size _
  | globalUnlock i size found =>
    cases found with
    | none =>
      cases h
      exact .globalUnlock_none i size
    | some x =>
      cases h
      exact .globalUnlock_some i size x
  | allocNew i size =>
    obtain ⟨binIdx, -, h⟩ := Option.bind_eq_some_iff.mp h
    split at h
    · cases h
      exact .allocNew_some i size _
    · cases h
      exact .allocNew_none i size
  | allocOwn i size x new =>
    cases h
    exact .allocOwn i size x new
  | allocFrom i size x new =>
    obtain ⟨binIdx, -, h⟩ := Option.bind_eq_some_iff.mp h
    obtain ⟨_, -, h⟩ := Option.bind_eq_some_iff.mp h
    cases h
    exact .allocFrom i size x _ new
  | allocUnlock i size retPtr =>
    cases h
    exact .allocUnlock i size retPtr
  | freeLockSuperblock ptr =>
    cases h
    exact .freeLockSuperblock ptr
  | freeOwner ptr =>
    obtain ⟨_, -, h⟩ := Option.bind_eq_some_iff.mp h
    obtain ⟨heap, -, h⟩ := Option.bind_eq_some_iff.mp h
    cases h
    exact .freeOwner ptr _ heap
  | freeLock ptr sizeClass heap =>
    cases h
    exact .freeLock ptr sizeClass heap
  | freeBin ptr sizeClass heap =>
    cases heap with
    | global =>
      obtain ⟨binIdx, -, h⟩ := Option.bind_eq_some_iff.mp h
      obtain ⟨_, -, h⟩ := Option.bind_eq_some_iff.mp h
      cases h
      exact .freeBin_kept ptr sizeClass .global
    | thread i =>
      obtain ⟨binIdx, -, h⟩ := Option.bind_eq_some_iff.mp h
      obtain ⟨_, -, h⟩ := Option.bind_eq_some_iff.mp h
      dsimp only at h
      split at h
      · obtain ⟨_, -, h⟩ := Option.bind_eq_some_iff.mp h
        cases h
        exact .freeBin_moved ptr sizeClass i _ _
      · cases h
        exact .freeBin_kept ptr sizeClass (.thread i)
  | moveLock ptr i y place =>
    cases h
    exact .moveLock ptr i y place
  | movePut ptr i y place =>
    obtain ⟨_, -, h⟩ := Option.bind_eq_some_iff.mp h
    cases h
    exact .movePut ptr i y place
  | moveUnlock ptr i =>
    cases h
    exact .moveUnlock ptr i
  | moveCount ptr i =>
    cases h
    exact .moveCount ptr i
  | freeUnlock ptr heap =>
    cases h
    exact .freeUnlock ptr heap
  | freeUnlockSuperblock ptr =>
    cases h
    exact .freeUnlockSuperblock ptr

end MyMalloc
