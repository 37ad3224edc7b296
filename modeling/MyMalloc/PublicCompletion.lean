import MyMalloc.PublicOwnership
import MyMalloc.Completion

/-!
# Public calls return

No client waits for ever. Apart from its steps in `heap_alloc` and `heap_free` a thread
takes few in a public function, and none of them has to wait (`MyMalloc.Phase.left`): so
`malloc`, `calloc` and `free` return after eleven steps at most, and `realloc`, which may
call both `malloc` and `free`, after twenty-two; and as long as a thread is in a call, some
thread in a call need not wait for a mutex (`MyMalloc.public_calls_return`).

As for `heap_alloc` and `heap_free` themselves (`MyMalloc.calls_return`), that is about the
executions that meet no fault. They may do what `MyMalloc.Server.Tame` excludes.
-/

namespace MyMalloc

open Trace Locking

/-! ### The steps that are left -/

/-- The steps from the return of `malloc` on. -/
def Use.left : Use → ℕ
  | .malloc => 1
  | .calloc => 1
  | .realloc .. => 12

/-- **The steps a thread has left**, at most, until it returns, apart from those in a call of
`heap_alloc` or `heap_free` that it is in. -/
def Phase.left : Phase → ℕ
  | .idle => 0
  | .request _ _ use => 10 + use.left
  | .allocating _ use => use.left
  | .got _ _ use => use.left
  | .remap .. => 1
  | .release .. => 11
  | .freeing _ => 0

/-- What a call allows for. -/
def PublicCall.steps : PublicCall → ℕ
  | .malloc .. => 11
  | .calloc .. => 11
  | .realloc .. => 22
  | .free _ => 11

theorem Core.startPublic_left (c : Core) (call : PublicCall) :
    (c.startPublic call).left ≤ call.steps := by
  cases call with
  | malloc i size => exact le_rfl
  | calloc i nmemb size =>
    simp only [startPublic]
    split
    · exact Nat.zero_le _
    split
    · exact Nat.zero_le _
    · exact le_rfl
  | realloc i ptr size =>
    cases ptr with
    | none => exact Nat.zero_le _
    | some ptr =>
      simp only [startPublic]
      split
      · simp [Phase.left, PublicCall.steps]
      split
      · simp [Phase.left, PublicCall.steps]
      · exact le_rfl
  | free ptr =>
    cases ptr with
    | none => exact Nat.zero_le _
    | some ptr => exact le_rfl

namespace PublicEvent

variable {T : Type} [DecidableEq T]

/-- The steps of a thread among the events. -/
def stepsOf (t : T) : PublicEvent T → ℕ
  | .act u _ => if u = t then 1 else 0
  | .next u _ => if u = t then 1 else 0
  | _ => 0

/-- What the calls of a thread allow for. -/
def allowedTo (t : T) : PublicEvent T → ℕ
  | .call u c => if u = t then c.steps else 0
  | _ => 0

end PublicEvent

namespace Server

variable {T : Type} [DecidableEq T] {s s' : Server T} {t : T} {mmap : Option ℕ} {p : Phase}

omit [DecidableEq T] in
/-- The steps that a thread has left. -/
def left (s : Server T) (t : T) : ℕ := (s.machine.threads.point t).left + (s.phase t).left

/-- **What a step in the body of a public function does to the threads**: one of them goes
on, and may call `heap_alloc` or `heap_free`. -/
theorem next_cases (h : s.next t mmap p = some s') : ∃ p',
    s'.phase = Function.update s.phase t p' ∧
    (s'.machine.threads = s.machine.threads ∧ p'.inHeap = false ∧ p'.left < p.left ∨
    ∃ c, s'.machine.threads = s.machine.threads.move t .work (Pc.start c) ∧
      p'.inHeap = true ∧ (Pc.start c).left + p'.left < p.left) := by
  cases p with
  | request i size use =>
    simp only [next] at h
    split at h
    · obtain rfl := Option.some.inj h
      exact ⟨_, rfl, Or.inl ⟨rfl, rfl, by simp only [Phase.left]; omega⟩⟩
    split at h
    · obtain rfl := Option.some.inj h
      exact ⟨_, rfl, Or.inl ⟨rfl, rfl, by simp only [Phase.left]; omega⟩⟩
    · obtain rfl := Option.some.inj h
      exact ⟨_, rfl, Or.inr ⟨_, rfl, rfl, by simp only [Phase.left, Pc.start, Pc.left]; omega⟩⟩
  | got size result use =>
    cases result with
    | none =>
      cases use with
      | malloc =>
        obtain rfl := Option.some.inj h
        exact ⟨_, rfl, Or.inl ⟨rfl, rfl, Nat.zero_lt_one⟩⟩
      | calloc =>
        obtain rfl := Option.some.inj h
        exact ⟨_, rfl, Or.inl ⟨rfl, rfl, Nat.zero_lt_one⟩⟩
      | realloc ptr oldLarge =>
        obtain rfl := Option.some.inj h
        exact ⟨_, rfl, Or.inl ⟨rfl, rfl, Nat.lt_succ_self 11⟩⟩
    | some q =>
      cases use with
      | malloc =>
        obtain rfl := Option.some.inj h
        exact ⟨_, rfl, Or.inl ⟨rfl, rfl, Nat.zero_lt_one⟩⟩
      | calloc =>
        obtain ⟨c, -, h⟩ := Option.bind_eq_some_iff.mp h
        obtain rfl := Option.some.inj h
        exact ⟨_, rfl, Or.inl ⟨rfl, rfl, Nat.zero_lt_one⟩⟩
      | realloc ptr oldLarge =>
        obtain ⟨c, -, h⟩ := Option.bind_eq_some_iff.mp h
        obtain rfl := Option.some.inj h
        exact ⟨_, rfl, Or.inl ⟨rfl, rfl, Nat.lt_succ_self 11⟩⟩
  | remap ptr size =>
    obtain ⟨⟨result, c⟩, -, h⟩ := Option.bind_eq_some_iff.mp h
    cases result
    · obtain rfl := Option.some.inj h
      exact ⟨_, rfl, Or.inl ⟨rfl, rfl, Nat.zero_lt_one⟩⟩
    · obtain rfl := Option.some.inj h
      exact ⟨_, rfl, Or.inl ⟨rfl, rfl, Nat.zero_lt_one⟩⟩
  | release ptr result =>
    simp only [next] at h
    obtain ⟨s₁, hs₁⟩ : ∃ s₁, (if result.isSome then s else s.take ptr) = s₁ := ⟨_, rfl⟩
    have hsame : s₁.phase = s.phase ∧ s₁.machine = s.machine := by
      rw [← hs₁]
      split
      · exact ⟨rfl, rfl⟩
      · exact ⟨rfl, rfl⟩
    rw [hs₁] at h
    obtain ⟨hphase, hmachine⟩ := hsame
    split at h
    · obtain rfl := Option.some.inj h
      refine ⟨.idle, ?_, Or.inl ⟨?_, rfl, Nat.zero_lt_succ _⟩⟩
      · rw [← hphase]
        rfl
      · rw [← hmachine]
        rfl
    · obtain rfl := Option.some.inj h
      refine ⟨.freeing result, ?_, Or.inr ⟨.heapFree ptr, ?_, rfl, Nat.lt_succ_self 10⟩⟩
      · rw [← hphase]
        rfl
      · rw [← hmachine]
  | _ => cases h

/-- **What a step in `heap_alloc` or `heap_free` does to the threads.** -/
theorem act_cases (h : s.step (.act t mmap) = some s') : ∃ a pc',
    (s.machine.threads.point t).Next a pc' ∧ s.machine.step (.act t mmap) = some s'.machine ∧
    s'.machine.threads = s.machine.threads.move t a pc' ∧
    s'.phase = Function.update s.phase t
      ((s.phase t).after (s.machine.threads.point t) pc') := by
  obtain ⟨m, hm, h⟩ := Option.bind_eq_some_iff.mp h
  obtain ⟨⟨pc', s₁⟩, hadv, hm'⟩ := Option.bind_eq_some_iff.mp hm
  obtain rfl := Option.some.inj hm'
  obtain rfl := Option.some.inj h
  refine ⟨_, pc', State.advance_next hadv, hm, rfl, ?_⟩
  simp only [moveTo, System.move_self]

/-- The steps in the body of a public function do not change in a call. -/
theorem left_after (pc pc' : Pc) : (p.after pc pc').left = p.left := by
  cases p with
  | allocating size use =>
    simp only [Phase.after]
    split
    · rfl
    · rfl
  | freeing result =>
    simp only [Phase.after]
    split
    · rfl
    · rfl
  | _ => rfl

/-- **A step of a thread** is one less that it has left, and a call allows for its steps. -/
theorem left_step (t : T) {e : PublicEvent T} (hstep : s.step e = some s') :
    e.stepsOf t + s'.left t ≤ s.left t + e.allowedTo t := by
  cases e with
  | call u c =>
    obtain rfl := Option.some.inj hstep
    by_cases hut : t = u
    · subst hut
      have hstart := s.core.startPublic_left c
      have hphase : (s.moveTo t (s.core.startPublic c)).phase t = s.core.startPublic c :=
        Function.update_self ..
      have hmachine : (s.moveTo t (s.core.startPublic c)).machine = s.machine := rfl
      simp only [PublicEvent.stepsOf, PublicEvent.allowedTo, left, hphase, hmachine, if_true]
      omega
    · have hphase : (s.moveTo u (s.core.startPublic c)).phase t = s.phase t :=
        Function.update_of_ne hut ..
      have hmachine : (s.moveTo u (s.core.startPublic c)).machine = s.machine := rfl
      simp [PublicEvent.stepsOf, left, hphase, hmachine]
  | act u mmap =>
    obtain ⟨a, pc', hnext, -, hthreads, hphase⟩ := act_cases hstep
    by_cases hut : t = u
    · subst hut
      have hlt := hnext.left_lt
      simp only [PublicEvent.stepsOf, PublicEvent.allowedTo, left, hthreads, hphase,
        System.move_self, Function.update_self, left_after, if_true]
      omega
    · simp [PublicEvent.stepsOf, left, hthreads, hphase, s.machine.threads.move_of_ne hut,
        Function.update_of_ne hut, Ne.symm hut]
  | next u mmap =>
    obtain ⟨p', hphase, hcases⟩ := next_cases hstep
    by_cases hut : t = u
    · subst hut
      simp only [PublicEvent.stepsOf, PublicEvent.allowedTo, left, hphase, Function.update_self,
        if_true]
      rcases hcases with ⟨hthreads, -, hlt⟩ | ⟨c, hthreads, -, hlt⟩
      · rw [hthreads]
        omega
      · rw [hthreads, System.move_self]
        omega
    · have hpoint : s'.machine.threads.point t = s.machine.threads.point t := by
        rcases hcases with ⟨hthreads, -, -⟩ | ⟨c, hthreads, -, -⟩
        · rw [hthreads]
        · rw [hthreads, s.machine.threads.move_of_ne hut]
      simp [PublicEvent.stepsOf, left, hphase, hpoint, Function.update_of_ne hut, Ne.symm hut]
  | write ptr off bytes =>
    obtain rfl := Option.some.inj hstep
    exact Nat.zero_add _ ▸ le_rfl

/-! ### Somebody can go on -/

omit [DecidableEq T] in
/-- **The mutexes stay with the threads that think they hold them**, and a thread is in
`heap_alloc` or `heap_free` if its public function waits for one of these. -/
structure InOrder (s : Server T) : Prop where
  consistent : Consistent Pc.held s.machine.threads
  inHeap : ∀ t, (s.phase t).inHeap = false ↔ s.machine.threads.point t = .idle

omit [DecidableEq T] in
theorem inHeap_after {pc pc' : Pc} (hp : p.inHeap = true) :
    (p.after pc pc').inHeap = false ↔ pc' = .idle := by
  cases p with
  | allocating size use =>
    simp only [Phase.after]
    split
    · rename_i hidle
      exact ⟨fun _ => hidle, fun _ => rfl⟩
    · rename_i hidle
      exact ⟨fun hc => absurd hc.symm Bool.false_ne_true, fun hc => absurd hc hidle⟩
  | freeing result =>
    simp only [Phase.after]
    split
    · rename_i hidle
      exact ⟨fun _ => hidle, fun _ => rfl⟩
    · rename_i hidle
      exact ⟨fun hc => absurd hc.symm Bool.false_ne_true, fun hc => absurd hc hidle⟩
  | _ => cases hp

theorem InOrder.step (h : s.InOrder) {e : PublicEvent T} (hlegal : s.Legal e)
    (hstep : s.step e = some s') : s'.InOrder := by
  cases e with
  | call t c =>
    obtain rfl := Option.some.inj hstep
    refine ⟨h.consistent, fun u => ?_⟩
    by_cases hut : u = t
    · subst hut
      have hphase : (s.moveTo u (s.core.startPublic c)).phase u = s.core.startPublic c :=
        Function.update_self ..
      have hidle : s.machine.threads.point u = .idle := (h.inHeap u).mp (by rw [hlegal.1]; rfl)
      rw [hphase, (s.core.startPublic_frame c).1]
      exact ⟨fun _ => hidle, fun _ => rfl⟩
    · have hphase : (s.moveTo t (s.core.startPublic c)).phase u = s.phase u :=
        Function.update_of_ne hut ..
      rw [hphase]
      exact h.inHeap u
  | act t mmap =>
    obtain ⟨a, pc', hnext, hmachine, hthreads, hphase⟩ := act_cases hstep
    have hlegal : s.machine.Legal (.act t mmap) := hlegal
    refine ⟨Machine.consistent_step h.consistent hlegal hmachine, fun u => ?_⟩
    by_cases hut : u = t
    · subst hut
      have hin : (s.phase u).inHeap = true := by
        rw [← Bool.not_eq_false, h.inHeap u]
        exact hlegal.1
      rw [hphase, hthreads, Function.update_self, System.move_self]
      exact inHeap_after hin
    · rw [hphase, hthreads, Function.update_of_ne hut, s.machine.threads.move_of_ne hut]
      exact h.inHeap u
  | next t mmap =>
    obtain ⟨p', hphase, hcases⟩ := next_cases hstep
    have hidle : s.machine.threads.point t = .idle := (h.inHeap t).mp hlegal.2.1
    rcases hcases with ⟨hthreads, hin, -⟩ | ⟨c, hthreads, hin, -⟩
    · refine ⟨hthreads ▸ h.consistent, fun u => ?_⟩
      rw [hphase, hthreads]
      by_cases hut : u = t
      · subst hut
        rw [Function.update_self, hidle]
        exact ⟨fun _ => rfl, fun _ => hin⟩
      · rw [Function.update_of_ne hut]
        exact h.inHeap u
    · have hmoves : Action.work.Moves (s.machine.threads.point t).held (Pc.start c).held := by
        rw [hidle]
        cases c <;> rfl
      refine ⟨hthreads ▸ h.consistent.move hmoves (Pc.nodup_held _) trivial, fun u => ?_⟩
      rw [hphase, hthreads]
      by_cases hut : u = t
      · subst hut
        rw [Function.update_self, System.move_self, hin]
        refine ⟨fun hc => absurd hc.symm Bool.false_ne_true, fun hc => ?_⟩
        cases c <;> cases hc
      · rw [Function.update_of_ne hut, s.machine.threads.move_of_ne hut]
        exact h.inHeap u
  | write ptr off bytes =>
    obtain rfl := Option.some.inj hstep
    exact ⟨h.consistent, h.inHeap⟩

/-- **As long as a thread is in a call**, some thread can go on. -/
theorem InOrder.exists_legal (h : s.InOrder) (ht : s.phase t ≠ .idle) :
    ∃ u, s.Legal (.act u none) ∨ s.Legal (.next u none) := by
  cases hin : (s.phase t).inHeap with
  | false => exact ⟨t, Or.inr ⟨ht, hin, fun _ _ _ hptr => absurd hptr (Option.not_mem_none _)⟩⟩
  | true =>
    have hbusy : s.machine.threads.point t ≠ .idle := by
      rw [ne_eq, ← h.inHeap t, hin]
      exact fun hc => Bool.false_ne_true hc.symm
    obtain ⟨u, hu⟩ := Machine.exists_legal_act h.consistent hbusy
    exact ⟨u, Or.inl hu⟩

end Server

/-- **Calls of the public functions return** in any interleaving that meets no fault: a thread
takes no more steps than its calls allow for, twenty-two for each `realloc` and eleven for
each of the others; and as long as some thread is in a call, some thread in a call can take
its next step without waiting for a mutex. -/
theorem public_calls_return {T : Type} [DecidableEq T] {events : List (PublicEvent T)}
    {s : Server T} (hevents : Always Server.step Server.Legal {} events)
    (hrun : run Server.step {} events = some s) :
    (∀ t, (events.map (PublicEvent.stepsOf t)).sum + s.left t ≤
      (events.map (PublicEvent.allowedTo t)).sum) ∧
    ((∃ t, s.phase t ≠ .idle) → ∃ t, s.Legal (.act t none) ∨ s.Legal (.next t none)) := by
  refine ⟨fun t => ?_, ?_⟩
  · have hstep : ∀ (s : Server T) e s', Server.step s e = some s' →
        e.stepsOf t + s'.left t ≤ s.left t + e.allowedTo t :=
      fun _ _ _ => Server.left_step t
    have hspent := spent_le hstep hrun
    have hzero : ({} : Server T).left t = 0 := rfl
    rwa [hzero, Nat.zero_add] at hspent
  · rintro ⟨t, ht⟩
    have hinit : ({} : Server T).InOrder :=
      ⟨fun l u => by simp [Pc.held], fun _ => ⟨fun _ => rfl, fun _ => rfl⟩⟩
    have horder := hevents.run_preserves (P := Server.InOrder) (fun _ _ _ h hlegal => h.step hlegal)
      hinit hrun
    exact horder.exists_legal ht

/-- A thread in `malloc` has locked a heap, and another in `calloc` waits for it. -/
def waitingInCalloc : List (PublicEvent Bool) :=
  [.call false (.malloc 0 16), .next false none, .call true (.calloc 0 4 8), .next true none,
    .act false none]

/-- The first of them can go on. -/
theorem public_calls_return_waiting : ∃ s, run Server.step {} waitingInCalloc = some s ∧
    ¬s.Legal (.act true none) ∧ s.left true = 10 ∧
    ∃ t, s.Legal (.act t none) ∨ s.Legal (.next t none) := by
  have hlegal : Always Server.step Server.Legal {} waitingInCalloc := by decide +kernel
  have hfacts : (run Server.step {} waitingInCalloc).map (fun s =>
      (decide (s.Legal (.act true none)), s.left true, s.phase true)) =
      some (false, 10, .allocating 32 .calloc) := by
    decide +kernel
  obtain ⟨s, hrun, hs⟩ := Option.map_eq_some_iff.mp hfacts
  obtain ⟨hwaits, hs⟩ := Prod.mk.inj hs
  obtain ⟨hleft, hphase⟩ := Prod.mk.inj hs
  have hbusy : s.phase true ≠ .idle := by
    rw [hphase]
    exact fun hc => by cases hc
  exact ⟨s, hrun, of_decide_eq_false hwaits, hleft,
    (public_calls_return hlegal hrun).2 ⟨true, hbusy⟩⟩

end MyMalloc
