import MyMalloc.Superblock
import MyMalloc.Lib.Locking
import Mathlib.Data.Fintype.Card
import Mathlib.Data.Fintype.EquivFin
import Mathlib.Order.Fin.Basic

/-!
# The locking protocol

The order in which `heap_alloc` and `heap_free` lock and unlock, with everything
else left open: any outcome of reading an owner, of testing for emptiness, of
searching the heap, the global heap and the kernel for a superblock.

A point of the program (`MyMalloc.Pc`) is named after what the thread does next
there, and carries the local variables of the C functions that are still needed.
The mutexes have three ranks, first the superblocks, then the thread heaps, then
the global heap, and no thread ever locks a mutex unless all it holds are of a
lower rank (`MyMalloc.program_nested`). So nobody locks a mutex twice, and the
threads never all wait (`MyMalloc.deadlock_free`).
-/

namespace MyMalloc

open Locking

/-! ### Mutexes -/

/-- The mutexes: one in the header of each superblock, one in each heap. -/
inductive Mutex where
  /-- `superblock->header.mutex`. -/
  | superblock (x : ℕ) : Mutex
  /-- `heap->mutex`. -/
  | heap (heap : HeapId) : Mutex
  deriving DecidableEq, Repr

/-- **The order of locking**: superblocks, thread heaps, the global heap. -/
def Mutex.rank : Mutex → Fin 3
  | .superblock _ => 0
  | .heap (.thread _) => 1
  | .heap .global => 2

/-! ### Points -/

/-- A call of a thread. The heap of an allocation is always a thread heap. -/
inductive Call where
  /-- `heap_alloc(&thread_heaps[i], size)`. -/
  | heapAlloc (i size : ℕ) : Call
  /-- `heap_free(ptr)`. -/
  | heapFree (ptr : ℕ) : Call
  deriving DecidableEq, Repr

/-- **Where a thread is**: what it does next, with the local variables. -/
inductive Pc where
  /-- Between two calls. -/
  | idle : Pc
  /-- `heap_alloc`: lock the heap. -/
  | allocLock (i size : ℕ) : Pc
  /-- `bin_alloc`: search the lists of the heap, and allocate if there is a superblock. -/
  | allocLocal (i size : ℕ) : Pc
  /-- `get_sb_from_global`: lock the global heap. -/
  | globalLock (i size : ℕ) : Pc
  /-- `get_sb_from_global`: search the lists of the global heap. -/
  | globalFetch (i size : ℕ) : Pc
  /-- `get_sb_from_global`: unlock the global heap. -/
  | globalUnlock (i size : ℕ) (found : Option ℕ) : Pc
  /-- `bin_alloc`: ask for a new superblock. -/
  | allocNew (i size : ℕ) : Pc
  /-- `bin_alloc`: assign the owner of a superblock, found or new. -/
  | allocOwn (i size x : ℕ) (new : Bool) : Pc
  /-- `bin_alloc`: count the superblock, allocate from it and file it. -/
  | allocFrom (i size x : ℕ) (new : Bool) : Pc
  /-- `heap_alloc`: unlock the heap. -/
  | allocUnlock (i size : ℕ) (retPtr : Option ℕ) : Pc
  /-- `heap_free`: lock the superblock. -/
  | freeLockSuperblock (ptr : ℕ) : Pc
  /-- `heap_free`: read the size class and the owner. -/
  | freeOwner (ptr : ℕ) : Pc
  /-- `heap_free`: lock the heap that was read. -/
  | freeLock (ptr sizeClass : ℕ) (heap : HeapId) : Pc
  /-- `heap_free`: call `bin_free`, and take a superblock out to transfer if need be. -/
  | freeBin (ptr sizeClass : ℕ) (heap : HeapId) : Pc
  /-- `transfer_sb_to_global`: lock the global heap. -/
  | moveLock (ptr i y : ℕ) (place : Option (ℕ × ℕ)) : Pc
  /-- `transfer_sb_to_global`: assign the owner and file the superblock. -/
  | movePut (ptr i y : ℕ) (place : Option (ℕ × ℕ)) : Pc
  /-- `transfer_sb_to_global`: unlock the global heap. -/
  | moveUnlock (ptr i : ℕ) : Pc
  /-- `heap_free`: count the superblock that was transferred. -/
  | moveCount (ptr i : ℕ) : Pc
  /-- `heap_free`: unlock the heap. -/
  | freeUnlock (ptr : ℕ) (heap : HeapId) : Pc
  /-- `heap_free`: unlock the superblock. -/
  | freeUnlockSuperblock (ptr : ℕ) : Pc
  deriving DecidableEq, Repr

namespace Pc

/-- Where a call starts. -/
def start : Call → Pc
  | .heapAlloc i size => .allocLock i size
  | .heapFree ptr => .freeLockSuperblock ptr

/-- The mutexes a thread holds, the last one locked first. -/
def held : Pc → List Mutex
  | .idle => []
  | .allocLock .. => []
  | .allocLocal i _ => [.heap (.thread i)]
  | .globalLock i _ => [.heap (.thread i)]
  | .globalFetch i _ => [.heap .global, .heap (.thread i)]
  | .globalUnlock i .. => [.heap .global, .heap (.thread i)]
  | .allocNew i _ => [.heap (.thread i)]
  | .allocOwn i .. => [.heap (.thread i)]
  | .allocFrom i .. => [.heap (.thread i)]
  | .allocUnlock i .. => [.heap (.thread i)]
  | .freeLockSuperblock _ => []
  | .freeOwner ptr => [.superblock (superblockOf ptr)]
  | .freeLock ptr .. => [.superblock (superblockOf ptr)]
  | .freeBin ptr _ heap => [.heap heap, .superblock (superblockOf ptr)]
  | .moveLock ptr i .. => [.heap (.thread i), .superblock (superblockOf ptr)]
  | .movePut ptr i .. => [.heap .global, .heap (.thread i), .superblock (superblockOf ptr)]
  | .moveUnlock ptr i => [.heap .global, .heap (.thread i), .superblock (superblockOf ptr)]
  | .moveCount ptr i => [.heap (.thread i), .superblock (superblockOf ptr)]
  | .freeUnlock ptr heap => [.heap heap, .superblock (superblockOf ptr)]
  | .freeUnlockSuperblock ptr => [.superblock (superblockOf ptr)]

/-- **What a thread in a call may do next.** Where the outcome depends on the data
of the allocator, every outcome is allowed. -/
inductive Next : Pc → Action Mutex → Pc → Prop where
  | allocLock (i size : ℕ) :
      Next (.allocLock i size) (.lock (.heap (.thread i))) (.allocLocal i size)
  /-- The heap had a superblock to allocate from. -/
  | allocLocal_found (i size p : ℕ) :
      Next (.allocLocal i size) .work (.allocUnlock i size (some p))
  | allocLocal_none (i size : ℕ) : Next (.allocLocal i size) .work (.globalLock i size)
  | globalLock (i size : ℕ) :
      Next (.globalLock i size) (.lock (.heap .global)) (.globalFetch i size)
  | globalFetch (i size : ℕ) (found : Option ℕ) :
      Next (.globalFetch i size) .work (.globalUnlock i size found)
  | globalUnlock_some (i size x : ℕ) :
      Next (.globalUnlock i size (some x)) (.unlock (.heap .global)) (.allocOwn i size x false)
  | globalUnlock_none (i size : ℕ) :
      Next (.globalUnlock i size none) (.unlock (.heap .global)) (.allocNew i size)
  | allocNew_some (i size x : ℕ) : Next (.allocNew i size) .work (.allocOwn i size x true)
  /-- `mmap` failed. -/
  | allocNew_none (i size : ℕ) : Next (.allocNew i size) .work (.allocUnlock i size none)
  | allocOwn (i size x : ℕ) (new : Bool) :
      Next (.allocOwn i size x new) .work (.allocFrom i size x new)
  | allocFrom (i size x p : ℕ) (new : Bool) :
      Next (.allocFrom i size x new) .work (.allocUnlock i size (some p))
  | allocUnlock (i size : ℕ) (retPtr : Option ℕ) :
      Next (.allocUnlock i size retPtr) (.unlock (.heap (.thread i))) .idle
  | freeLockSuperblock (ptr : ℕ) :
      Next (.freeLockSuperblock ptr) (.lock (.superblock (superblockOf ptr))) (.freeOwner ptr)
  | freeOwner (ptr sizeClass : ℕ) (heap : HeapId) :
      Next (.freeOwner ptr) .work (.freeLock ptr sizeClass heap)
  | freeLock (ptr sizeClass : ℕ) (heap : HeapId) :
      Next (.freeLock ptr sizeClass heap) (.lock (.heap heap)) (.freeBin ptr sizeClass heap)
  | freeBin_kept (ptr sizeClass : ℕ) (heap : HeapId) :
      Next (.freeBin ptr sizeClass heap) .work (.freeUnlock ptr heap)
  /-- The heap is empty enough; it is not the global heap. -/
  | freeBin_moved (ptr sizeClass i y : ℕ) (place : Option (ℕ × ℕ)) :
      Next (.freeBin ptr sizeClass (.thread i)) .work (.moveLock ptr i y place)
  | moveLock (ptr i y : ℕ) (place : Option (ℕ × ℕ)) :
      Next (.moveLock ptr i y place) (.lock (.heap .global)) (.movePut ptr i y place)
  | movePut (ptr i y : ℕ) (place : Option (ℕ × ℕ)) :
      Next (.movePut ptr i y place) .work (.moveUnlock ptr i)
  | moveUnlock (ptr i : ℕ) :
      Next (.moveUnlock ptr i) (.unlock (.heap .global)) (.moveCount ptr i)
  | moveCount (ptr i : ℕ) : Next (.moveCount ptr i) .work (.freeUnlock ptr (.thread i))
  | freeUnlock (ptr : ℕ) (heap : HeapId) :
      Next (.freeUnlock ptr heap) (.unlock (.heap heap)) (.freeUnlockSuperblock ptr)
  | freeUnlockSuperblock (ptr : ℕ) : Next (.freeUnlockSuperblock ptr)
      (.unlock (.superblock (superblockOf ptr))) .idle

/-- A thread in a call can go on. -/
theorem exists_next {pc : Pc} (h : pc ≠ .idle) : ∃ a pc', Next pc a pc' := by
  cases pc with
  | idle => exact absurd rfl h
  | allocLock i size => exact ⟨_, _, .allocLock i size⟩
  | allocLocal i size => exact ⟨_, _, .allocLocal_none i size⟩
  | globalLock i size => exact ⟨_, _, .globalLock i size⟩
  | globalFetch i size => exact ⟨_, _, .globalFetch i size none⟩
  | globalUnlock i size found =>
    cases found with
    | none => exact ⟨_, _, .globalUnlock_none i size⟩
    | some x => exact ⟨_, _, .globalUnlock_some i size x⟩
  | allocNew i size => exact ⟨_, _, .allocNew_none i size⟩
  | allocOwn i size x new => exact ⟨_, _, .allocOwn i size x new⟩
  | allocFrom i size x new => exact ⟨_, _, .allocFrom i size x 0 new⟩
  | allocUnlock i size retPtr => exact ⟨_, _, .allocUnlock i size retPtr⟩
  | freeLockSuperblock ptr => exact ⟨_, _, .freeLockSuperblock ptr⟩
  | freeOwner ptr => exact ⟨_, _, .freeOwner ptr 0 .global⟩
  | freeLock ptr sizeClass heap => exact ⟨_, _, .freeLock ptr sizeClass heap⟩
  | freeBin ptr sizeClass heap => exact ⟨_, _, .freeBin_kept ptr sizeClass heap⟩
  | moveLock ptr i y place => exact ⟨_, _, .moveLock ptr i y place⟩
  | movePut ptr i y place => exact ⟨_, _, .movePut ptr i y place⟩
  | moveUnlock ptr i => exact ⟨_, _, .moveUnlock ptr i⟩
  | moveCount ptr i => exact ⟨_, _, .moveCount ptr i⟩
  | freeUnlock ptr heap => exact ⟨_, _, .freeUnlock ptr heap⟩
  | freeUnlockSuperblock ptr => exact ⟨_, _, .freeUnlockSuperblock ptr⟩

/-- Mutexes are unlocked in the reverse order of their locking. -/
theorem Next.moves {pc pc' : Pc} {a : Action Mutex} (h : Next pc a pc') :
    a.Moves pc.held pc'.held := by
  cases h <;> rfl

theorem nodup_held (pc : Pc) : pc.held.Nodup := by
  cases pc with
  | freeBin _ _ heap => cases heap <;> simp [held]
  | freeUnlock _ heap => cases heap <;> simp [held]
  | _ => simp [held]

/-- **Every lock is taken above the locks that are held**: the owner that
`heap_free` read may be any heap, but then it holds the superblock only; and
`transfer_sb_to_global` locks the global heap from a thread heap. -/
theorem Next.ordered {pc pc' : Pc} {l : Mutex} (h : Next pc (.lock l) pc') :
    ∀ l' ∈ pc.held, l'.rank < l.rank := by
  cases h with
  | allocLock => simp [held]
  | globalLock => simp [held, Mutex.rank]
  | freeLockSuperblock => simp [held]
  | freeLock ptr sizeClass heap => cases heap <;> simp [held, Mutex.rank]
  | moveLock => simp [held, Mutex.rank]

end Pc

/-! ### Threads -/

/-- What a thread with calls left to make may do next. -/
inductive Thread.Next : Pc × List Call → Action Mutex → Pc × List Call → Prop where
  /-- It starts its next call. -/
  | call (c : Call) (calls : List Call) : Next (.idle, c :: calls) .work (Pc.start c, calls)
  /-- It goes on with a call. -/
  | step {pc pc' : Pc} {a : Action Mutex} (calls : List Call) (h : pc.Next a pc') :
      Next (pc, calls) a (pc', calls)

/-- **The program of a thread** that makes a finite sequence of calls. -/
def program : Program (Pc × List Call) Mutex where
  next := Thread.Next
  held th := th.1.held
  done th := th = (.idle, [])

/-- **The protocol keeps to an order of locking.** -/
theorem program_nested : program.Nested Mutex.rank where
  moves := by
    rintro th a th' (⟨c, calls⟩ | ⟨calls, h⟩)
    · cases c <;> rfl
    · exact h.moves
  nodup th := th.1.nodup_held
  ordered := by
    rintro th l th' (_ | ⟨calls, h⟩)
    exact h.ordered
  exists_next := by
    rintro ⟨pc, calls⟩ hbusy
    by_cases hidle : pc = .idle
    · subst hidle
      cases calls with
      | nil => exact absurd rfl hbusy
      | cons c calls => exact ⟨_, _, .call c calls⟩
    · obtain ⟨a, pc', h⟩ := Pc.exists_next hidle
      exact ⟨a, (pc', calls), .step calls h⟩
  held_of_done := by
    rintro th rfl
    rfl

/-- Threads that have not started yet. -/
def unstarted {T : Type} (calls : T → List Call) : System T (Pc × List Call) Mutex :=
  ⟨fun t => (.idle, calls t), fun _ => none⟩

theorem unstarted_consistent {T : Type} (calls : T → List Call) :
    Consistent program.held (unstarted calls) := by
  rintro l t
  simp [unstarted, program, Pc.held]

/-- **The locking protocol is free of deadlocks**: whatever the calls of the
threads, their outcomes and their interleaving, no thread locks a mutex that it
holds already, and as long as some thread has not finished some thread can take a
step. -/
theorem deadlock_free {T : Type} [DecidableEq T] (calls : T → List Call)
    {sys : System T (Pc × List Call) Mutex} (h : (unstarted calls).Reaches program sys) :
    (∀ t l th, program.next (sys.point t) (.lock l) th → sys.holder l ≠ some t) ∧
    ((∃ t, ¬program.done (sys.point t)) → ∃ t sys', sys.Step program t sys') := by
  have hsys := (unstarted_consistent calls).reaches program_nested h
  refine ⟨fun t l th hnext => hsys.not_holder program_nested hnext, ?_⟩
  rintro ⟨t, ht⟩
  exact hsys.progress program_nested ht

/-- One thread has locked a thread heap, another has read it as the owner of a
superblock it has locked, and waits. -/
theorem deadlock_free_waiting :
    ∃ sys : System Bool (Pc × List Call) Mutex,
      (unstarted fun t => if t then [.heapFree 1048704] else [.heapAlloc 0 16]).Reaches
        program sys ∧
      sys.point true = (.freeLock 1048704 16 (.thread 0), []) ∧
      sys.holder (.heap (.thread 0)) = some false ∧ ∃ t sys', sys.Step program t sys' := by
  have h₀ := System.Reaches.refl program
    (unstarted fun t : Bool => if t then [.heapFree 1048704] else [.heapAlloc 0 16])
  have h₁ := h₀.step false (Thread.Next.call (.heapAlloc 0 16) []) trivial
  have h₂ := h₁.step false (Thread.Next.step [] (.allocLock 0 16)) rfl
  have h₃ := h₂.step true (Thread.Next.call (.heapFree 1048704) []) trivial
  have h₄ := h₃.step true (Thread.Next.step [] (.freeLockSuperblock 1048704)) rfl
  have h₅ := h₄.step true (Thread.Next.step [] (.freeOwner 1048704 16 (.thread 0))) trivial
  refine ⟨_, h₅, rfl, rfl, (deadlock_free _ h₅).2 ⟨true, ?_⟩⟩
  exact fun h => Pc.noConfusion (Prod.mk.inj h).1

end MyMalloc
