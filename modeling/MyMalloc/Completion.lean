import MyMalloc.Interleaving

/-!
# Calls return

No thread is held up for ever. In any interleaving that meets no fault a thread takes nine
steps at most for a call of `heap_alloc` and ten for one of `heap_free`, since the code has
no loop that waits for another thread (`MyMalloc.Pc.left`); and as long as a thread is in a
call, some thread in a call need not wait for a mutex (`MyMalloc.calls_return`).

The condition on the owners of superblocks is not needed for that, as it is about mutexes and
the lengths of paths only. It is needed to exclude the faults: a thread that goes by a stale
owner may come to a step at which the code follows a null pointer, and does not return.
-/

namespace MyMalloc

open Locking

/-! ### The steps that are left -/

namespace Pc

/-- **The steps a thread has left**, at most, until it returns. -/
def left : Pc → ℕ
  | .idle => 0
  | .allocLock .. => 9
  | .allocLocal .. => 8
  | .globalLock .. => 7
  | .globalFetch .. => 6
  | .globalUnlock .. => 5
  | .allocNew .. => 4
  | .allocOwn .. => 3
  | .allocFrom .. => 2
  | .allocUnlock .. => 1
  | .freeLockSuperblock _ => 10
  | .freeOwner _ => 9
  | .freeLock .. => 8
  | .freeBin .. => 7
  | .moveLock .. => 6
  | .movePut .. => 5
  | .moveUnlock .. => 4
  | .moveCount .. => 3
  | .freeUnlock .. => 2
  | .freeUnlockSuperblock _ => 1

variable {pc pc' : Pc} {a : Action Mutex}

/-- Every step is one less. -/
theorem Next.left_lt (h : Next pc a pc') : pc'.left < pc.left := by
  cases h <;> simp only [left] <;> omega

/-- What a thread does to the mutexes depends on its point only. -/
theorem Next.action_eq (h : Next pc a pc') : a = pc.action := by
  cases h <;> rfl

end Pc

/-! ### The mutexes -/

/-- The program of a thread in a call. -/
def callProgram : Program Pc Mutex where
  next := Pc.Next
  held := Pc.held
  done pc := pc = .idle

theorem callProgram_nested : callProgram.Nested Mutex.rank where
  moves h := h.moves
  nodup := Pc.nodup_held
  ordered h := h.ordered
  exists_next := Pc.exists_next
  held_of_done := by
    rintro pc rfl
    rfl

namespace Event

variable {T : Type} [DecidableEq T]

/-- The steps of a thread among the events. -/
def stepsOf (t : T) : Event T → ℕ
  | .act u _ => if u = t then 1 else 0
  | _ => 0

/-- What the calls of a thread allow for. -/
def allowedTo (t : T) : Event T → ℕ
  | .call u c => if u = t then (Pc.start c).left else 0
  | _ => 0

end Event

namespace Machine

variable {T : Type} [DecidableEq T] {m m' : Machine T} {e : Event T}

/-- **The mutexes stay with the threads that think they hold them.** -/
theorem consistent_step (h : Consistent Pc.held m.threads) (hlegal : m.Legal e)
    (hstep : m.step e = some m') : Consistent Pc.held m'.threads := by
  cases e with
  | call t c =>
    obtain rfl := Option.some.inj hstep
    have hidle : m.threads.point t = .idle := by cases c <;> exact hlegal.1
    refine h.move ?_ (Pc.nodup_held _) trivial
    rw [hidle]
    cases c <;> rfl
  | act t mmap =>
    obtain ⟨⟨pc', s⟩, hadv, hm⟩ := Option.bind_eq_some_iff.mp hstep
    obtain rfl := Option.some.inj hm
    exact h.move (State.advance_next hadv).moves (Pc.nodup_held _) hlegal.2.1
  | write ptr off bytes =>
    obtain rfl := Option.some.inj hstep
    exact h

/-- **A step of a thread** is one less that it has left, and a call allows for its steps. -/
theorem left_step (t : T) (hstep : m.step e = some m') :
    e.stepsOf t + (m'.threads.point t).left ≤ (m.threads.point t).left + e.allowedTo t := by
  cases e with
  | call u c =>
    obtain rfl := Option.some.inj hstep
    by_cases hut : t = u
    · subst hut
      simp [Event.stepsOf, Event.allowedTo]
    · simp [Event.stepsOf, m.threads.move_of_ne hut]
  | act u mmap =>
    obtain ⟨⟨pc', s⟩, hadv, hm⟩ := Option.bind_eq_some_iff.mp hstep
    obtain rfl := Option.some.inj hm
    have hlt := (State.advance_next hadv).left_lt
    by_cases hut : t = u
    · subst hut
      simp only [Event.stepsOf, Event.allowedTo, if_true, System.move_self]
      omega
    · simp [Event.stepsOf, m.threads.move_of_ne hut, Ne.symm hut]
  | write ptr off bytes =>
    obtain rfl := Option.some.inj hstep
    simp [Event.stepsOf]

/-- **As long as a thread is in a call**, some thread need not wait. -/
theorem exists_legal_act (h : Consistent Pc.held m.threads) {t : T}
    (ht : m.threads.point t ≠ .idle) : ∃ u, m.Legal (.act u none) := by
  obtain ⟨u, -, a, pc, hnext, havail, -⟩ := Consistent.progress callProgram_nested h ht
  refine ⟨u, fun hidle => ?_, ?_, fun _ hptr => absurd hptr (Option.not_mem_none _)⟩
  · rw [hidle] at hnext
    cases hnext
  · exact Pc.Next.action_eq hnext ▸ havail

end Machine

/-- **Calls return** in any interleaving that meets no fault: a thread takes no more steps than
its calls allow for, nine for each `heap_alloc` and ten for each `heap_free`; and as long as
some thread is in a call, some thread in a call can take its next step without waiting for a
mutex. -/
theorem calls_return {T : Type} [DecidableEq T] {events : List (Event T)} {m : Machine T}
    (hevents : Trace.Always Machine.step Machine.Legal {} events)
    (hrun : Trace.run Machine.step {} events = some m) :
    (∀ t, (events.map (Event.stepsOf t)).sum + (m.threads.point t).left ≤
      (events.map (Event.allowedTo t)).sum) ∧
    ((∃ t, m.threads.point t ≠ .idle) → ∃ t, m.Legal (.act t none)) := by
  refine ⟨fun t => ?_, ?_⟩
  · have hstep : ∀ (m : Machine T) e m', Machine.step m e = some m' →
        e.stepsOf t + (m'.threads.point t).left ≤ (m.threads.point t).left + e.allowedTo t :=
      fun _ _ _ => Machine.left_step t
    have hspent := Trace.spent_le hstep hrun
    have hzero : (({} : Machine T).threads.point t).left = 0 := rfl
    rwa [hzero, Nat.zero_add] at hspent
  · rintro ⟨t, ht⟩
    have hinit : Consistent Pc.held ({} : Machine T).threads := fun l u => by
      simp [Pc.held]
    have hconsistent := hevents.run_preserves (P := fun m => Consistent Pc.held m.threads)
      (fun _ _ _ => Machine.consistent_step) hinit hrun
    exact Machine.exists_legal_act hconsistent ht

/-- One thread has locked a heap, and another waits for it. -/
def waitingForHeap : List (Event Bool) :=
  [.call false (.heapAlloc 0 16), .call true (.heapAlloc 0 32), .act false none]

/-- The first of them can go on. -/
theorem calls_return_waiting : ∃ m, Trace.run Machine.step {} waitingForHeap = some m ∧
    ¬m.Legal (.act true none) ∧ (m.threads.point true).left = 9 ∧ ∃ t, m.Legal (.act t none) := by
  have hlegal : Trace.Always Machine.step Machine.Legal {} waitingForHeap := by
    decide +kernel
  have hfacts : (Trace.run Machine.step {} waitingForHeap).map (fun m =>
      (decide (m.Legal (.act true none)), m.threads.point true)) =
      some (false, .allocLock 0 32) := by
    decide +kernel
  obtain ⟨m, hrun, hm⟩ := Option.map_eq_some_iff.mp hfacts
  obtain ⟨hwaits, hpoint⟩ := Prod.mk.inj hm
  have hbusy : m.threads.point true ≠ .idle := by
    rw [hpoint]
    nofun
  exact ⟨m, hrun, of_decide_eq_false hwaits, by rw [hpoint]; rfl,
    (calls_return hlegal hrun).2 ⟨true, hbusy⟩⟩

end MyMalloc
