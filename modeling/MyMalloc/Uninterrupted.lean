import MyMalloc.Executions
import MyMalloc.AllocEffect

/-!
# Calls that nobody interrupts

The sequential functions and the steps of a thread are two models of one code. A thread
that takes its steps without interruption (`MyMalloc.State.finish`) does what the
sequential function does, in every state and with the same faults
(`MyMalloc.State.finish_heapAlloc`, `MyMalloc.State.finish_heapFree`). So every sequential
run is an execution, the one in which one thread makes its calls one after the other
(`MyMalloc.sequential_runs_interleave`), and disturbs nobody.
-/

namespace MyMalloc

open Locking

namespace Pc

/-- What a call returns that ends at a point. -/
def returned : Pc → Option ℕ
  | .allocUnlock _ _ retPtr => retPtr
  | _ => none

/-- The size that is requested, as long as the call may come to ask for a mapping. -/
def seeking : Pc → Option ℕ
  | .allocLock _ size => some size
  | .allocLocal _ size => some size
  | .globalLock _ size => some size
  | .globalFetch _ size => some size
  | .globalUnlock _ size none => some size
  | .allocNew _ size => some size
  | _ => none

/-- What the kernel answers at a point: it is asked at one only. -/
def asked (mmap : Option ℕ) : Pc → Option ℕ
  | .allocNew .. => mmap
  | _ => none

theorem asked_eq (mmap : Option ℕ) (pc : Pc) : pc.asked mmap = none ∨ pc.asked mmap = mmap := by
  cases pc with
  | allocNew => exact Or.inr rfl
  | _ => exact Or.inl rfl

end Pc

namespace State

/-- **A thread that nobody interrupts**, until it has returned from its call: what the
call returns, and the state of the allocator then. -/
def finish (mmap : Option ℕ) : ℕ → Option ℕ → Pc → State → Option (Option ℕ × State)
  | _, r, .idle, s => some (r, s)
  | 0, _, _, _ => none
  | n + 1, _, pc, s => (s.advance mmap pc).bind fun a => finish mmap n pc.returned a.1 a.2

variable {s s' : State} {mmap r : Option ℕ} {n i size x ptr : ℕ} {pc pc' : Pc}

theorem finish_idle : finish mmap n r .idle s = some (r, s) := by
  cases n <;> rfl

theorem finish_succ (h : pc ≠ .idle) : finish mmap (n + 1) r pc s =
    (s.advance mmap pc).bind fun a => finish mmap n pc.returned a.1 a.2 := by
  cases pc with
  | idle => exact absurd rfl h
  | _ => rfl

/-- A step that is no search and no allocation. -/
theorem finish_of_advance (h : pc ≠ .idle) (hadv : s.advance mmap pc = some (pc', s')) :
    finish mmap (n + 1) r pc s = finish mmap n pc.returned pc' s' := by
  rw [finish_succ h, hadv, Option.bind_some]

/-! ### Allocation -/

/-- The end of `heap_alloc`. -/
theorem finish_allocUnlock (r retPtr : Option ℕ) :
    finish mmap (n + 1) r (.allocUnlock i size retPtr) s = some (retPtr, s) :=
  (finish_of_advance (by simp) rfl).trans finish_idle

/-- `bin_alloc` from a superblock in hand. -/
theorem finish_allocFrom {new : Bool} :
    finish mmap (n + 2) r (.allocFrom i size x new) s =
      ((s.setCore (if new then s.toCore.incAlloced (.thread i) superblockSize
        else s.toCore.countIn (.thread i) x)).binAllocFrom (.thread i, binOf size) x false).bind
        fun a => some (some a.1,
          a.2.setCore (a.2.toCore.incUsage (.thread i) (idx2class (binOf size)))) := by
  rw [finish_succ (by simp), advance, MyMalloc.size2idx_eq]
  simp only [Option.bind_eq_bind, Option.bind_some, Option.bind_assoc, Option.pure_def]
  exact Option.bind_congr fun a _ => finish_allocUnlock none (some a.1)

/-- `bin_alloc`, when a new superblock is needed. -/
theorem finish_allocNew :
    finish mmap (n + 4) r (.allocNew i size) s =
      (match s.binAllocNew (.thread i) mmap (idx2class (binOf size)) with
        | (none, s) => some (none, s)
        | (some superblock, s) =>
          (s.binAllocFrom (.thread i, binOf size) superblock false).bind
            fun a => some (some a.1, a.2)).bind
        fun a => some (a.1,
          a.2.setCore (a.2.toCore.incUsage (.thread i) (idx2class (binOf size)))) := by
  rw [finish_succ (by simp), advance, MyMalloc.size2idx_eq, binAllocNew]
  simp only [Option.bind_eq_bind, Option.bind_some, Option.pure_def]
  rcases s.initSuperblock mmap (idx2class (binOf size)) with ⟨_ | x, s⟩
  · exact finish_allocUnlock none none
  · have howned : s.advance mmap (.allocOwn i size x true) =
        some (.allocFrom i size x true, s.setCore (s.toCore.setOwner x (.thread i))) := rfl
    dsimp only [Option.bind_some]
    rw [finish_of_advance (by simp) howned, finish_allocFrom]
    refine Eq.trans ?_ (Option.bind_assoc ..).symm
    rfl

/-- **`heap_alloc` is what a thread does that nobody interrupts.** -/
theorem finish_heapAlloc (s : State) (mmap : Option ℕ) (i size : ℕ) :
    finish mmap 9 none (.allocLock i size) s = s.heapAlloc (.thread i) size mmap := by
  rw [finish_succ (by simp), advance, heapAlloc]
  simp only [State.size2idx, MyMalloc.size2idx_eq, Option.bind_eq_bind, Option.bind_some,
    Option.pure_def]
  generalize s.assert (decide (binOf size < numSizeBins)) .binInRange = s
  rw [finish_succ (by simp), advance, MyMalloc.size2idx_eq, binAlloc]
  simp only [Option.bind_eq_bind, Option.bind_some, Option.pure_def]
  rcases s.binAllocLocal (.thread i) (.thread i, binOf size) (idx2class (binOf size)) with
    ⟨_ | ⟨x, inBin⟩, s⟩
  · -- The heap has none, and the thread goes on to the global heap.
    have hlocked : s.advance mmap (.globalLock i size) = some (.globalFetch i size, s) := rfl
    dsimp only [Option.bind_some]
    rw [finish_of_advance (by simp) hlocked, finish_succ (by simp), advance,
      MyMalloc.size2idx_eq]
    simp only [Option.bind_eq_bind, Option.bind_some, Option.pure_def, Option.bind_assoc]
    refine Option.bind_congr fun a _ => ?_
    obtain ⟨_ | x, s⟩ := a
    · have hunlocked : s.advance mmap (.globalUnlock i size none) = some (.allocNew i size, s) :=
        rfl
      dsimp only
      refine (finish_of_advance (by simp) hunlocked).trans (finish_allocNew.trans ?_)
      rcases s.binAllocNew (.thread i) mmap (idx2class (binOf size)) with ⟨_ | x, s⟩ <;> rfl
    · have hunlocked : s.advance mmap (.globalUnlock i size (some x)) =
          some (.allocOwn i size x false, s) := rfl
      have howned : s.advance mmap (.allocOwn i size x false) =
          some (.allocFrom i size x false, s.setCore (s.toCore.setOwner x (.thread i))) := rfl
      dsimp only
      rw [finish_of_advance (by simp) hunlocked, finish_of_advance (by simp) howned,
        finish_allocFrom]
      refine Eq.trans ?_ (Option.bind_assoc ..).symm
      rfl
  · simp only [Option.bind_assoc, Option.bind_some]
    exact Option.bind_congr fun a _ => finish_allocUnlock none (some a.1)

/-! ### Deallocation -/

/-- The end of `heap_free`. -/
theorem finish_freeUnlock (r : Option ℕ) (heap : HeapId) :
    finish mmap (n + 2) r (.freeUnlock ptr heap) s = some (none, s) :=
  (finish_of_advance (by simp) rfl).trans ((finish_of_advance (by simp) rfl).trans finish_idle)

/-- `transfer_sb_to_global`, under the lock of the global heap, and what follows. -/
theorem finish_movePut {y : ℕ} {place : Option (ℕ × ℕ)} :
    finish mmap (n + 5) r (.movePut ptr i y place) s = (s.transferPut y place).bind fun s =>
      some (none, s.setCore (s.toCore.decAlloced (.thread i) superblockSize)) := by
  rw [finish_succ (by simp), advance]
  simp only [Option.bind_eq_bind, Option.bind_assoc, Option.pure_def, Option.bind_some]
  refine Option.bind_congr fun s _ => ?_
  have hunlocked : s.advance mmap (.moveUnlock ptr i) = some (.moveCount ptr i, s) := rfl
  have hcounted : s.advance mmap (.moveCount ptr i) = some (.freeUnlock ptr (.thread i),
      s.setCore (s.toCore.decAlloced (.thread i) superblockSize)) := rfl
  rw [finish_of_advance (by simp) hunlocked, finish_of_advance (by simp) hcounted,
    finish_freeUnlock]

/-- `heap_free`, from `bin_free` on. -/
theorem finish_freeBin {sizeClass : ℕ} {heap : HeapId} :
    finish mmap (n + 7) r (.freeBin ptr sizeClass heap) s =
      (s.heapFreeFrom heap (heap, binOf sizeClass) sizeClass ptr).bind fun s => some (none, s) := by
  cases heap with
  | global =>
    rw [finish_succ (by simp), advance, MyMalloc.size2idx_eq, heapFreeFrom]
    simp only [Option.bind_eq_bind, Option.bind_some, Option.bind_assoc, Option.pure_def, if_pos]
    exact Option.bind_congr fun s _ => finish_freeUnlock none .global
  | thread i =>
    rw [finish_succ (by simp), advance_freeBin_eq, MyMalloc.size2idx_eq, heapFreeFrom]
    simp only [Option.bind_eq_bind, Option.bind_some, Option.bind_assoc, Option.pure_def,
      reduceCtorEq, if_false]
    refine Option.bind_congr fun s _ => ?_
    generalize s.setCore (s.toCore.decUsage (.thread i) sizeClass) = s
    split
    · -- A superblock is taken out, and moved under the lock of the global heap.
      rw [transferSbToGlobal]
      simp only [Option.bind_eq_bind, Option.bind_some, Option.bind_assoc]
      refine Option.bind_congr fun a _ => ?_
      obtain ⟨y, place, s⟩ := a
      have hlocked : s.advance mmap (.moveLock ptr i y place) = some (.movePut ptr i y place, s) :=
        rfl
      dsimp only
      rw [finish_of_advance (by simp) hlocked, finish_movePut]
    · exact finish_freeUnlock none (.thread i)

/-- **`heap_free` is what a thread does that nobody interrupts.** -/
theorem finish_heapFree (s : State) (mmap : Option ℕ) (ptr : ℕ) :
    finish mmap 10 none (.freeLockSuperblock ptr) s =
      (s.heapFree ptr).bind fun s => some (none, s) := by
  have hlocked : s.advance mmap (.freeLockSuperblock ptr) = some (.freeOwner ptr,
      s.assert ((s.header (superblockOf ptr)).magic = headerMagic) .superblockMagic) := rfl
  rw [finish_of_advance (by simp) hlocked, heapFree]
  generalize s.assert ((s.header (superblockOf ptr)).magic = headerMagic) .superblockMagic = s
  rw [finish_succ (by simp), advance]
  simp only [State.size2idx, MyMalloc.size2idx_eq, Option.bind_eq_bind, Option.bind_some,
    Option.pure_def, Option.bind_assoc]
  refine Option.bind_congr fun heap _ => ?_
  generalize s.assert (decide (binOf (s.header (superblockOf ptr)).blockSize < numSizeBins))
    .binInRange = s'
  have hlocked : s'.advance mmap (.freeLock ptr (s.header (superblockOf ptr)).blockSize heap) =
      some (.freeBin ptr (s.header (superblockOf ptr)).blockSize heap, s') := rfl
  rw [finish_of_advance (by simp) hlocked, finish_freeBin]

/-! ### What a call asks for -/

/-- `mmap` is asked at one point only. -/
theorem advance_mmap (s : State) (mmap : Option ℕ) (pc : Pc) :
    s.advance (pc.asked mmap) pc = s.advance mmap pc := by
  cases pc with
  | freeBin ptr sizeClass heap => cases heap <;> rfl
  | globalUnlock i size found => cases found <;> rfl
  | _ => rfl

/-- **What a call still asks of the kernel** at a point: a mapping where nothing is mapped,
for a request that a superblock serves. -/
def Asks (s : State) (mmap : Option ℕ) (pc : Pc) : Prop :=
  ∀ size, pc.seeking = some size → size ≤ maxBlockSize ∧
    ∀ ptr ∈ mmap, MapsFresh s.mapped ptr (2 * superblockSize)

theorem Asks.advance (h : s.Asks mmap pc) (hadv : s.advance mmap pc = some (pc', s')) :
    s'.Asks mmap pc' := by
  rintro size' hseek
  cases pc with
  | allocLock i size =>
    obtain ⟨_, hidx, hadv⟩ := Option.bind_eq_some_iff.mp hadv
    obtain ⟨rfl, rfl⟩ := Prod.mk.inj (Option.some.inj hadv)
    rw [size2idx_eq (h size rfl).1] at hidx
    obtain rfl := Option.some.inj hidx
    exact h size' hseek
  | allocLocal i size =>
    obtain ⟨binIdx, -, hadv⟩ := Option.bind_eq_some_iff.mp hadv
    split at hadv
    · obtain ⟨_, -, hadv⟩ := Option.bind_eq_some_iff.mp hadv
      obtain ⟨rfl, rfl⟩ := Prod.mk.inj (Option.some.inj hadv)
      cases hseek
    · rename_i hlocal
      obtain ⟨rfl, rfl⟩ := Prod.mk.inj (Option.some.inj hadv)
      obtain ⟨-, -, rfl⟩ := binAllocLocal_eq_none_iff.mp hlocal
      exact h size' hseek
  | globalLock i size =>
    obtain ⟨rfl, rfl⟩ := Prod.mk.inj (Option.some.inj hadv)
    exact h size' hseek
  | globalFetch i size =>
    obtain ⟨binIdx, hidx, hadv⟩ := Option.bind_eq_some_iff.mp hadv
    obtain ⟨⟨found, s₁⟩, hglobal, hadv⟩ := Option.bind_eq_some_iff.mp hadv
    obtain ⟨rfl, rfl⟩ := Prod.mk.inj (Option.some.inj hadv)
    cases found with
    | some x => cases hseek
    | none =>
      obtain ⟨hsize, hmmap⟩ := h size rfl
      rw [MyMalloc.size2idx_eq] at hidx
      obtain rfl := Option.some.inj hidx
      obtain ⟨-, -, rfl⟩ := (getSbFromGlobal_eq_none_iff (binOf_lt hsize)).mp hglobal
      obtain rfl := Option.some.inj hseek
      exact ⟨hsize, hmmap⟩
  | globalUnlock i size found =>
    cases found with
    | some x =>
      obtain ⟨rfl, rfl⟩ := Prod.mk.inj (Option.some.inj hadv)
      cases hseek
    | none =>
      obtain ⟨rfl, rfl⟩ := Prod.mk.inj (Option.some.inj hadv)
      exact h size' hseek
  | _ =>
    -- From the other points no call comes to ask.
    have hnext := advance_next hadv
    cases hnext <;> cases hseek

/-- **What a call needs of the recycle list of the global heap** at a point. -/
def MatchesAt (s : State) : Pc → Prop
  | .allocLock i size => s.Matching (.thread i) (binOf size)
  | .allocLocal i size => s.Matching (.thread i) (binOf size)
  | .globalLock _ size => s.FetchMatches (binOf size)
  | .globalFetch _ size => s.FetchMatches (binOf size)
  | _ => True

theorem MatchesAt.advance (h : s.MatchesAt pc) (hasks : s.Asks mmap pc)
    (hadv : s.advance mmap pc = some (pc', s')) : s'.MatchesAt pc' := by
  cases pc with
  | allocLock i size =>
    obtain ⟨_, hidx, hadv⟩ := Option.bind_eq_some_iff.mp hadv
    obtain ⟨rfl, rfl⟩ := Prod.mk.inj (Option.some.inj hadv)
    rw [size2idx_eq (hasks size rfl).1] at hidx
    obtain rfl := Option.some.inj hidx
    exact h
  | allocLocal i size =>
    obtain ⟨binIdx, hidx, hadv⟩ := Option.bind_eq_some_iff.mp hadv
    rw [MyMalloc.size2idx_eq] at hidx
    obtain rfl := Option.some.inj hidx
    split at hadv
    · obtain ⟨_, -, hadv⟩ := Option.bind_eq_some_iff.mp hadv
      obtain ⟨rfl, rfl⟩ := Prod.mk.inj (Option.some.inj hadv)
      trivial
    · rename_i hlocal
      obtain ⟨rfl, rfl⟩ := Prod.mk.inj (Option.some.inj hadv)
      obtain ⟨hfirst, hhead, rfl⟩ := binAllocLocal_eq_none_iff.mp hlocal
      -- The heap itself has none, so that the source is the global heap.
      intro hzero x hx
      refine h x ?_
      rw [source, hfirst, hhead]
      dsimp only
      rw [if_neg (by omega), Option.mem_def.mp hx]
  | globalLock i size =>
    obtain ⟨rfl, rfl⟩ := Prod.mk.inj (Option.some.inj hadv)
    exact h
  | _ =>
    have hnext := advance_next hadv
    cases hnext <;> trivial

end State

/-! ### One thread at work -/

section Alone

variable {T : Type} [DecidableEq T] {t : T} {pc pc' : Pc}

/-- **Only one thread is in a call.** -/
def alone (t : T) (pc : Pc) : System T Pc Mutex :=
  ⟨Function.update (fun _ => .idle) t pc, fun l => if l ∈ pc.held then some t else none⟩

theorem alone_point : (alone t pc).point t = pc := by
  show Function.update (fun _ => Pc.idle) t pc t = pc
  rw [Function.update_self]

theorem alone_point_of_ne {u : T} (h : u ≠ t) : (alone t pc).point u = .idle := by
  show Function.update (fun _ => Pc.idle) t pc u = .idle
  rw [Function.update_of_ne h]

/-- Between two calls nobody does anything. -/
theorem alone_idle : alone t .idle = ⟨fun _ => .idle, fun _ => none⟩ := by
  rw [alone, Function.update_eq_self]
  rfl

/-- A thread that is alone stays alone. -/
theorem alone_move {a : Action Mutex} (hmoves : a.Moves pc.held pc'.held) :
    (alone t pc).move t a pc' = alone t pc' := by
  have hpoint : Function.update (alone t pc).point t pc' = (alone t pc').point :=
    Function.update_idem ..
  have hholder : holderAfter (alone t pc).holder t a = (alone t pc').holder := by
    funext l
    cases a with
    | lock k =>
      have hheld : pc'.held = k :: pc.held := hmoves
      show Function.update (alone t pc).holder k (some t) l = if l ∈ pc'.held then some t else none
      rw [hheld]
      by_cases hl : l = k
      · subst hl
        rw [Function.update_self, if_pos (List.mem_cons_self ..)]
      · rw [Function.update_of_ne hl]
        exact if_congr (by simp [hl]) rfl rfl
    | unlock k =>
      have hheld : pc.held = k :: pc'.held := hmoves
      have hout : k ∉ pc'.held := (List.nodup_cons.mp (hheld ▸ pc.nodup_held)).1
      show Function.update (alone t pc).holder k none l = if l ∈ pc'.held then some t else none
      by_cases hl : l = k
      · subst hl
        rw [Function.update_self, if_neg hout]
      · rw [Function.update_of_ne hl]
        exact if_congr (by simp [hheld, hl]) rfl rfl
    | work =>
      have hheld : pc'.held = pc.held := hmoves
      show (alone t pc).holder l = if l ∈ pc'.held then some t else none
      rw [hheld]
      rfl
  rw [System.move, hpoint, hholder]

/-- It need not wait for itself. -/
theorem alone_available {a : Action Mutex} (hnext : pc.Next a pc') :
    Available (alone t pc).holder a := by
  cases a with
  | lock l => exact if_neg fun hl => lt_irrefl _ (hnext.ordered l hl)
  | unlock l => trivial
  | work => trivial

end Alone

namespace Pc

/-- The size a call requests, if it allocates. -/
def requested : Pc → Option ℕ
  | .allocLock _ size => some size
  | .allocLocal _ size => some size
  | .globalLock _ size => some size
  | .globalFetch _ size => some size
  | .globalUnlock _ size _ => some size
  | .allocNew _ size => some size
  | .allocOwn _ size .. => some size
  | .allocFrom _ size .. => some size
  | .allocUnlock _ size _ => some size
  | _ => none

variable {pc pc' : Pc} {a : Action Mutex}

theorem Next.requested (h : Next pc a pc') (hpc : pc' ≠ .idle) :
    pc'.requested = pc.requested := by
  cases h <;> first | rfl | exact absurd rfl hpc

/-- A call returns at its end. -/
theorem Next.returned (h : Next pc a pc') (hpc : pc' ≠ .idle) : pc.returned = none := by
  cases h <;> first | rfl | exact absurd rfl hpc

end Pc

namespace Event

variable {T : Type}

/-- A step of one thread, in a call that the kernel gives this answer if it is asked. -/
def StepOf (t : T) (mmap : Option ℕ) : Event T → Prop
  | .act u answer => u = t ∧ (answer = none ∨ answer = mmap)
  | _ => False

/-- **What is done for an operation** when one thread makes all the calls: it makes the call,
and then nobody else does anything before it has taken its steps. -/
inductive Performs (t : T) : Op → List (Event T) → Prop
  | alloc {i size : ℕ} {mmap : Option ℕ} {steps : List (Event T)}
      (h : ∀ e ∈ steps, e.StepOf t mmap) :
      Performs t (.alloc i size mmap) (.call t (.heapAlloc i size) :: steps)
  | free {ptr : ℕ} {steps : List (Event T)} (h : ∀ e ∈ steps, e.StepOf t none) :
      Performs t (.free ptr) (.call t (.heapFree ptr) :: steps)
  | write (ptr off : ℕ) (bytes : List UInt8) :
      Performs t (.write ptr off bytes) [.write ptr off bytes]

end Event

namespace Machine

variable {T : Type} [DecidableEq T] {t : T}

/-- The blocks the clients own once a call has returned. -/
def liveAfter (live : List (ℕ × ℕ)) : Option ℕ → Option ℕ → List (ℕ × ℕ)
  | some size, some p => (p, size) :: live
  | _, _ => live

omit [DecidableEq T] in
theorem liveAfterAct_eq (m : Machine T) (pc : Pc) :
    m.liveAfterAct pc = liveAfter m.live pc.requested pc.returned := by
  cases pc with
  | allocUnlock i size retPtr => cases retPtr <;> rfl
  | _ => rfl

variable {s s' : State} {live : List (ℕ × ℕ)} {mmap r r' : Option ℕ} {n : ℕ} {pc pc' : Pc}

/-- A step of a thread that is alone. -/
theorem step_alone (t : T) (live : List (ℕ × ℕ)) (hadv : s.advance mmap pc = some (pc', s')) :
    Machine.step ⟨s, alone t pc, live⟩ (.act t (pc.asked mmap)) =
      some ⟨s', alone t pc', liveAfter live pc.requested pc.returned⟩ := by
  have hact : s.advance (pc.asked mmap) ((alone t pc).point t) = some (pc', s') := by
    rw [alone_point, State.advance_mmap, hadv]
  rw [step_act hact, alone_point, alone_move (State.advance_next hadv).moves, liveAfterAct_eq]

/-- It is legal, and disturbs nobody. -/
theorem legal_alone (t : T) (live : List (ℕ × ℕ)) (hpc : pc ≠ .idle) (hasks : s.Asks mmap pc)
    (hadv : s.advance mmap pc = some (pc', s')) :
    Legal ⟨s, alone t pc, live⟩ (.act t (pc.asked mmap)) ∧
      RespectsOwners ⟨s, alone t pc, live⟩ (.act t (pc.asked mmap)) := by
  have hpoint : (alone t pc).point t = pc := alone_point
  refine ⟨⟨by rwa [hpoint], ?_, fun ptr hptr => ?_⟩, fun x hx u => ?_, fun pc' _ x _ => Or.inr ?_⟩
  · rw [hpoint]
    exact alone_available (State.advance_next hadv)
  · cases pc with
    | allocNew i size => exact (hasks size rfl).2 ptr hptr
    | _ => cases hptr
  · rw [hpoint] at hx
    by_cases hu : u = t
    · subst hu
      rw [hpoint]
      cases pc with
      | freeOwner ptr => nofun
      | _ => cases hx
    · rw [alone_point_of_ne hu]
      nofun
  · intro u hu
    rw [alone_point_of_ne hu]
    nofun

theorem matching_alone (h : s.MatchesAt pc) :
    Matching ⟨s, alone t pc, live⟩ (.act t (pc.asked mmap)) := by
  intro size hsize
  rw [alone_point] at hsize
  cases pc with
  | globalFetch i size' =>
    obtain rfl := Option.some.inj hsize
    exact h
  | _ => cases hsize

/-- **A call that nobody interrupts** is a sequence of steps that disturb nobody. -/
theorem exists_run_of_finish (t : T) (live : List (ℕ × ℕ)) (hpc : pc ≠ .idle)
    (hasks : s.Asks mmap pc) (hfinish : State.finish mmap n r pc s = some (r', s')) :
    ∃ steps : List (Event T), (∀ e ∈ steps, e.StepOf t mmap) ∧
      Trace.run Machine.step ⟨s, alone t pc, live⟩ steps =
        some ⟨s', alone t .idle, liveAfter live pc.requested r'⟩ ∧
      Trace.Always Machine.step (fun m e => m.Legal e ∧ m.RespectsOwners e)
        ⟨s, alone t pc, live⟩ steps ∧
      (s.MatchesAt pc →
        Trace.Always Machine.step Machine.Matching ⟨s, alone t pc, live⟩ steps) := by
  induction n generalizing s r pc with
  | zero => cases pc <;> first | exact absurd rfl hpc | cases hfinish
  | succ n ih =>
    rw [State.finish_succ hpc] at hfinish
    obtain ⟨⟨pc', s₁⟩, hadv, hrest⟩ := Option.bind_eq_some_iff.mp hfinish
    have hnext := State.advance_next hadv
    have hstep := step_alone t live hadv
    have hlegal := legal_alone t live hpc hasks hadv
    have hmine : Event.StepOf t mmap (.act t (pc.asked mmap)) := ⟨rfl, pc.asked_eq mmap⟩
    have hone : ∀ {m}, Machine.step ⟨s, alone t pc, live⟩ (.act t (pc.asked mmap)) = some m →
        m = ⟨s₁, alone t pc', liveAfter live pc.requested pc.returned⟩ :=
      fun hm => Option.some.inj (hm.symm.trans hstep)
    by_cases hidle : pc' = .idle
    · -- This was the last step.
      subst hidle
      rw [State.finish_idle] at hrest
      obtain ⟨rfl, rfl⟩ := Prod.mk.inj (Option.some.inj hrest)
      exact ⟨[.act t (pc.asked mmap)], List.forall_mem_singleton.mpr hmine,
        by rw [Trace.run_cons, hstep]; rfl, ⟨hlegal, fun _ _ => trivial⟩,
        fun h => ⟨matching_alone h, fun _ _ => trivial⟩⟩
    · obtain ⟨steps, hsteps, hrun, halways, hmatching⟩ := ih hidle (hasks.advance hadv) hrest
      rw [hnext.requested hidle] at hrun
      have hlive : liveAfter live pc.requested pc.returned = live := by
        rw [hnext.returned hidle]
        cases pc.requested <;> rfl
      rw [hlive] at hstep hone
      refine ⟨.act t (pc.asked mmap) :: steps, List.forall_mem_cons.mpr ⟨hmine, hsteps⟩,
        by rw [Trace.run_cons, hstep]; exact hrun, ⟨hlegal, fun m hm => hone hm ▸ halways⟩,
        fun h => ⟨matching_alone h, fun m hm => ?_⟩⟩
      exact hone hm ▸ hmatching (h.advance hasks hadv)

/-- **A call that nobody interrupts**, from the moment it is made. -/
theorem exists_run_of_call {c : Call} (hcall : Legal ⟨s, alone t .idle, live⟩ (.call t c))
    (hasks : s.Asks mmap (Pc.start c))
    (hfinish : State.finish mmap n none (Pc.start c) s = some (r', s')) :
    ∃ steps : List (Event T), (∀ e ∈ steps, e.StepOf t mmap) ∧
      Trace.run Machine.step ⟨s, alone t .idle, live⟩ (.call t c :: steps) =
        some ⟨s', alone t .idle, liveAfter (liveAfterCall ⟨s, alone t .idle, live⟩ c)
          (Pc.start c).requested r'⟩ ∧
      Trace.Always Machine.step (fun m e => m.Legal e ∧ m.RespectsOwners e)
        ⟨s, alone t .idle, live⟩ (.call t c :: steps) ∧
      (s.MatchesAt (Pc.start c) → Trace.Always Machine.step Machine.Matching
        ⟨s, alone t .idle, live⟩ (.call t c :: steps)) := by
  have hstart : Pc.start c ≠ .idle := by cases c <;> nofun
  have hheld : Action.work.Moves Pc.idle.held (Pc.start c).held := by cases c <;> rfl
  have hstep : Machine.step ⟨s, alone t .idle, live⟩ (.call t c) = some
      ⟨s, alone t (Pc.start c), liveAfterCall ⟨s, alone t .idle, live⟩ c⟩ := by
    rw [← alone_move hheld]
    rfl
  obtain ⟨steps, hsteps, hrun, halways, hmatching⟩ := exists_run_of_finish t
    (liveAfterCall ⟨s, alone t .idle, live⟩ c) hstart hasks hfinish
  have hone : ∀ m, Machine.step ⟨s, alone t .idle, live⟩ (.call t c) = some m →
      m = ⟨s, alone t (Pc.start c), liveAfterCall ⟨s, alone t .idle, live⟩ c⟩ :=
    fun m hm => Option.some.inj (hm.symm.trans hstep)
  exact ⟨steps, hsteps, by rw [Trace.run_cons, hstep]; exact hrun,
    ⟨⟨hcall, trivial⟩, fun m hm => hone m hm ▸ halways⟩,
    fun h => ⟨trivial, fun m hm => hone m hm ▸ hmatching h⟩⟩

/-- **An event of a sequential run** is a sequence of steps of one thread. -/
theorem exists_run_of_step {w w' : World} {op : Op} (hlegal : w.Legal op)
    (hstep : w.step op = some w') :
    ∃ events : List (Event T), Event.Performs t op events ∧
      Trace.run Machine.step ⟨w.state, alone t .idle, w.live⟩ events =
        some ⟨w'.state, alone t .idle, w'.live⟩ ∧
      Trace.Always Machine.step (fun m e => m.Legal e ∧ m.RespectsOwners e)
        ⟨w.state, alone t .idle, w.live⟩ events ∧
      (w.Matching op →
        Trace.Always Machine.step Machine.Matching ⟨w.state, alone t .idle, w.live⟩ events) := by
  cases op with
  | alloc i size mmap =>
    obtain ⟨hpos, hsize, hmmap⟩ := hlegal
    obtain ⟨⟨retPtr, s⟩, halloc, hw⟩ := Option.bind_eq_some_iff.mp hstep
    have hcall : Legal ⟨w.state, alone t .idle, w.live⟩ (.call t (.heapAlloc i size)) :=
      ⟨alone_point, hpos, hsize⟩
    have hasks : w.state.Asks mmap (Pc.start (.heapAlloc i size)) := by
      rintro size' hseek
      obtain rfl := Option.some.inj hseek
      exact ⟨hsize, hmmap⟩
    have hfinish := (State.finish_heapAlloc w.state mmap i size).trans halloc
    have hw' : w' = ⟨s, liveAfter w.live (some size) retPtr⟩ := by
      cases retPtr <;> exact (Option.some.inj hw).symm
    subst hw'
    obtain ⟨steps, hsteps, hrun⟩ := exists_run_of_call hcall hasks hfinish
    exact ⟨_, .alloc hsteps, hrun⟩
  | free ptr =>
    obtain ⟨s, hfree, hw⟩ := Option.bind_eq_some_iff.mp hstep
    obtain rfl := Option.some.inj hw
    have hcall : Legal ⟨w.state, alone t .idle, w.live⟩ (.call t (.heapFree ptr)) :=
      ⟨alone_point, hlegal⟩
    have hasks : w.state.Asks none (Pc.start (.heapFree ptr)) := fun _ => nofun
    have hfinish : State.finish none 10 none (Pc.start (.heapFree ptr)) w.state =
        some (none, s) := by
      rw [Pc.start, State.finish_heapFree, hfree, Option.bind_some]
    obtain ⟨steps, hsteps, hrun, halways, hmatching⟩ := exists_run_of_call hcall hasks hfinish
    exact ⟨_, .free hsteps, hrun, halways, fun _ => hmatching trivial⟩
  | write ptr off bytes =>
    obtain rfl := Option.some.inj hstep
    exact ⟨[.write ptr off bytes], .write .., rfl, ⟨⟨hlegal, trivial⟩, fun _ _ => trivial⟩,
      fun _ => ⟨trivial, fun _ _ => trivial⟩⟩

end Machine

/-- **Every sequential run is an execution of one thread**: operation by operation, the thread
makes the call and takes its steps, and the writes are made between the calls. It disturbs
nobody, and comes to the same state of the allocator, with the same live blocks. If the
sequential run takes no superblock from the recycle list of the global heap to another class
than its own, then neither does the thread. -/
theorem sequential_runs_interleave {T : Type} [DecidableEq T] (t : T) {ops : List Op} {w : World}
    (hops : Trace.Always World.step World.Legal World.initial ops)
    (hrun : Trace.run World.step World.initial ops = some w) :
    ∃ performed : List (List (Event T)), List.Forall₂ (Event.Performs t) ops performed ∧
      Trace.run Machine.step {} performed.flatten =
        some ⟨w.state, ⟨fun _ => .idle, fun _ => none⟩, w.live⟩ ∧
      Trace.Always Machine.step (fun m e => m.Legal e ∧ m.RespectsOwners e) {}
        performed.flatten ∧
      (Trace.Always World.step World.Matching World.initial ops →
        Trace.Always Machine.step Machine.Matching {} performed.flatten) := by
  have hrule : ∀ (w : World) (m : Machine T) (op : Op) (w' : World),
      m = ⟨w.state, alone t .idle, w.live⟩ → w.Legal op → w.step op = some w' →
      ∃ events m', Event.Performs t op events ∧ Trace.run Machine.step m events = some m' ∧
        m' = ⟨w'.state, alone t .idle, w'.live⟩ ∧
        Trace.Always Machine.step (fun m e => m.Legal e ∧ m.RespectsOwners e) m events ∧
        (w.Matching op → Trace.Always Machine.step Machine.Matching m events) := by
    rintro w _ op w' rfl hlegal hstep
    obtain ⟨events, hperforms, hrun, halways⟩ := Machine.exists_run_of_step (t := t) hlegal hstep
    exact ⟨events, _, hperforms, hrun, rfl, halways⟩
  have hinitial : ({} : Machine T) = ⟨World.initial.state, alone t .idle, World.initial.live⟩ := by
    rw [alone_idle]
    rfl
  obtain ⟨performed, m, hperformed, hrun', rfl, halways⟩ :=
    Trace.exists_runs_of_steps hrule hinitial hops hrun
  rw [alone_idle] at hrun'
  exact ⟨performed, hperformed, hrun', halways⟩

/-- A block that is mapped, written into and freed, and a request that fails. -/
def mappedAndFreed : List Op :=
  [.alloc 0 16 (some 1048576), .write 1048704 3 [7, 8], .alloc 1 32 none, .free 1048704]

/-- One of two threads makes these calls. -/
theorem sequential_runs_interleave_mapped : ∃ w,
    Trace.run World.step World.initial mappedAndFreed = some w ∧ w.state.superblocks = [1048576] ∧
      ∃ performed : List (List (Event Bool)),
        List.Forall₂ (Event.Performs true) mappedAndFreed performed ∧
        Trace.run Machine.step {} performed.flatten =
          some ⟨w.state, ⟨fun _ => .idle, fun _ => none⟩, w.live⟩ := by
  have hlegal : Trace.Always World.step World.Legal World.initial mappedAndFreed := by
    decide +kernel
  have hfacts : (Trace.run World.step World.initial mappedAndFreed).map
      (fun w => w.state.superblocks) = some [1048576] := by
    decide +kernel
  obtain ⟨w, hrun, hsb⟩ := Option.map_eq_some_iff.mp hfacts
  obtain ⟨performed, hperformed, hevents, -⟩ := sequential_runs_interleave true hlegal hrun
  exact ⟨w, hrun, hsb, performed, hperformed, hevents⟩

end MyMalloc
