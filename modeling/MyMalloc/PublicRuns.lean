import MyMalloc.PublicContents
import MyMalloc.Reallocation

/-!
# Public functions that nobody interrupts

The sequential public functions and the steps of threads in them are two models of one
code, as they are for the small allocator (`MyMalloc.sequential_runs_interleave`). A thread
that nobody interrupts goes from the call of a public function to where the sequential
function returns, with the same result. So a sequential run that keeps to what is promised,
and does none of what `MyMalloc.Process.Tame` excludes, is an execution in which one thread
makes its calls one after the other (`MyMalloc.public_runs_interleave`), and which keeps to
what is promised and does none of what `MyMalloc.Server.Tame` excludes.
-/

namespace MyMalloc

open Trace Locking AddressSpace ByteMemory

/-- Where a thread is in its public function when `heap_alloc` or `heap_free` has returned. -/
def Phase.returns (r : Option ℕ) : Phase → Phase
  | .allocating size use => .got size r use
  | .freeing _ => .idle
  | p => p

/-- The call that an event of a sequential run makes. -/
def Request.call : Request → Option PublicCall
  | .malloc i size _ => some (.malloc i size)
  | .calloc i nmemb size _ => some (.calloc i nmemb size)
  | .realloc i ptr size _ => some (.realloc i ptr size)
  | .free ptr => some (.free ptr)
  | .write .. => none

/-- What the kernel answers in the call if it is asked for a mapping. -/
def Request.answer : Request → Option ℕ
  | .malloc _ _ mmap => mmap
  | .calloc _ _ _ mmap => mmap
  | .realloc _ _ _ mmap => mmap
  | .free _ => none
  | .write .. => none

namespace PublicEvent

variable {T : Type}

/-- A step of one thread, in a call that the kernel gives this answer if it is asked. -/
def StepOf (t : T) (mmap : Option ℕ) : PublicEvent T → Prop
  | .act u answer => u = t ∧ (answer = none ∨ answer = mmap)
  | .next u answer => u = t ∧ (answer = none ∨ answer = mmap)
  | _ => False

/-- **What is done for an event of a sequential run** when one thread makes all the calls: it
makes the call, and then nobody else does anything before it has taken its steps. -/
inductive Performs (t : T) : Request → List (PublicEvent T) → Prop
  | call {req : Request} {c : PublicCall} {steps : List (PublicEvent T)}
      (hc : req.call = some c) (h : ∀ e ∈ steps, e.StepOf t req.answer) :
      Performs t req (.call t c :: steps)
  | write (ptr off : ℕ) (bytes : List UInt8) :
      Performs t (.write ptr off bytes) [.write ptr off bytes]

end PublicEvent

namespace Server

variable {T : Type} [DecidableEq T]

/-- **A thread goes on** within a call, by steps that are as they should be. -/
abbrev Goes (t : T) (mmap : Option ℕ) : Server T → Server T → Prop :=
  Reaches Server.step fun s e => (s.Legal e ∧ s.Tame e) ∧ e.StepOf t mmap

/-- **Only one thread is in a public function.** The rest is as in a sequential run, but for
the order in which the clients have got their blocks. -/
def solo (t : T) (w : Process) (live : List (ℕ × ℕ)) (p : Phase) (pc : Pc) : Server T where
  machine := ⟨w.state, alone t pc, w.small⟩
  large := w.large
  phase := Function.update (fun _ => .idle) t p
  live := live

section Solo

variable {t : T} {w : Process} {live : List (ℕ × ℕ)} {p p' : Phase} {pc pc' : Pc}
  {mmap answer r r' : Option ℕ} {i size n ptr : ℕ} {use : Use} {s s' : State}

@[simp] theorem solo_phase : (solo t w live p pc).phase t = p := by
  show Function.update (fun _ => Phase.idle) t p t = p
  rw [Function.update_self]

/-- Between two calls no thread is in one. -/
theorem solo_phase_idle {u : T} : (solo t w live .idle pc).phase u = .idle := by
  show Function.update (fun _ => Phase.idle) t .idle u = .idle
  rw [Function.update_eq_self]

@[simp] theorem solo_moveTo : (solo t w live p pc).moveTo t p' = solo t w live p' pc := by
  rw [moveTo, solo, solo, Function.update_idem]

@[simp] theorem solo_core : (solo t w live p pc).core = w.state.toCore := rfl

@[simp] theorem solo_setCore {c : Core} : (solo t w live p pc).setCore c =
    solo t { w with state := w.state.setCore c } live p pc := rfl

@[simp] theorem solo_give {q : ℕ} : (solo t w live p pc).give q size =
    solo t w ((q, size) :: live) p pc := rfl

@[simp] theorem solo_take : (solo t w live p pc).take ptr =
    solo t w (live.filter fun b => b.1 ≠ ptr) p pc := rfl

/-- **A step in the body of a public function** that is as it should be. -/
theorem goes_next {s₁ : Server T} (mmap : Option ℕ) (hp : p ≠ .idle) (hheap : p.inHeap = false)
    (hfresh : ∀ size ∈ p.mapping, ∀ ptr ∈ mmap,
      MapsFresh w.state.mapped ptr (pageUp (add64 size sizeofMmapHeader)))
    (hover : ∀ size ∈ p.mapping, mmap ≠ none → size + sizeofMmapHeader < 2 ^ 64)
    (hcopies : (solo t w live p pc).CopiesWell mmap p)
    (hanswer : mmap = none ∨ mmap = answer)
    (hnext : (solo t w live p pc).next t mmap p = some s₁) :
    Goes t answer (solo t w live p pc) s₁ := by
  refine .single (i := .next t mmap) ⟨⟨⟨?_, ?_, ?_⟩, ?_, ?_⟩, rfl, hanswer⟩ ?_
  all_goals simp only [solo_phase, Server.step]
  · exact hp
  · exact hheap
  · exact hfresh
  · exact hover
  · exact hcopies
  · exact hnext

/-- A step that asks the kernel for no pages. -/
theorem goes_asking_nothing {s₁ : Server T} (hp : p ≠ .idle) (hheap : p.inHeap = false)
    (hmapping : p.mapping = none) (hcopies : (solo t w live p pc).CopiesWell none p)
    (hnext : (solo t w live p pc).next t none p = some s₁) :
    Goes t mmap (solo t w live p pc) s₁ := by
  refine goes_next none hp hheap ?_ ?_ hcopies (Or.inl rfl) hnext
  · rw [hmapping]
    intro size hsize
    cases hsize
  · rw [hmapping]
    intro size hsize
    cases hsize

/-! ### In the small allocator -/

/-- A step in `heap_alloc` or `heap_free`. -/
theorem solo_act (hadv : w.state.advance mmap pc = some (pc', s')) :
    (solo t w live p pc).step (.act t (pc.asked mmap)) = some (solo t { w with
      state := s', small := Machine.liveAfter w.small pc.requested pc.returned } live
      (p.after pc pc') pc') := by
  have hstep : (solo t w live p pc).machine.step (.act t (pc.asked mmap)) =
      some ⟨s', alone t pc', Machine.liveAfter w.small pc.requested pc.returned⟩ :=
    Machine.step_alone t w.small hadv
  have hpoint : (solo t w live p pc).machine.threads.point t = pc := alone_point
  rw [Server.step, hstep]
  simp only [Option.bind_eq_bind, Option.bind_some, hpoint, alone_point, solo_phase,
    solo_moveTo]
  rfl

/-- **A call that nobody interrupts**, in its public function. -/
theorem goes_finish (hp : p.inHeap = true) (hpc : pc ≠ .idle) (hasks : w.state.Asks mmap pc)
    (hmatches : w.state.MatchesAt pc)
    (hfinish : State.finish mmap n r pc w.state = some (r', s')) :
    Goes t mmap (solo t w live p pc) (solo t { w with
      state := s', small := Machine.liveAfter w.small pc.requested r' } live (p.returns r')
      .idle) := by
  induction n generalizing w r pc with
  | zero => cases pc <;> first | exact absurd rfl hpc | cases hfinish
  | succ n ih =>
    rw [State.finish_succ hpc] at hfinish
    obtain ⟨⟨pc', s₁⟩, hadv, hrest⟩ := Option.bind_eq_some_iff.mp hfinish
    have hnext := State.advance_next hadv
    have hstep : (solo t w live p pc).step (.act t (pc.asked mmap)) = some (solo t { w with
        state := s₁, small := Machine.liveAfter w.small pc.requested pc.returned } live
        (p.after pc pc') pc') := solo_act hadv
    obtain ⟨hlegal, hrespects⟩ := Machine.legal_alone t w.small hpc hasks hadv
    have hcondition : ((solo t w live p pc).Legal (.act t (pc.asked mmap)) ∧
        (solo t w live p pc).Tame (.act t (pc.asked mmap))) ∧
        PublicEvent.StepOf t mmap (.act t (pc.asked mmap)) :=
      ⟨⟨hlegal, hrespects, Machine.matching_alone hmatches⟩, rfl, pc.asked_eq mmap⟩
    by_cases hidle : pc' = .idle
    · -- This was the last step.
      subst hidle
      rw [State.finish_idle] at hrest
      obtain ⟨rfl, rfl⟩ := Prod.mk.inj (Option.some.inj hrest)
      have hafter : p.after pc .idle = p.returns pc.returned := by
        cases p with
        | allocating size use => rw [Phase.after, if_pos rfl, Phase.returns]
        | freeing result => rw [Phase.after, if_pos rfl, Phase.returns]
        | _ => cases hp
      rw [hafter] at hstep
      exact .single hcondition hstep
    · have hafter : p.after pc pc' = p := by
        cases p with
        | allocating size use => rw [Phase.after, if_neg hidle]
        | freeing result => rw [Phase.after, if_neg hidle]
        | _ => cases hp
      have hlive : Machine.liveAfter w.small pc.requested pc.returned = w.small := by
        rw [hnext.returned hidle]
        cases pc.requested <;> rfl
      rw [hafter, hlive] at hstep
      have hrest := ih (w := { w with state := s₁ }) hidle (hasks.advance hadv)
        (hmatches.advance hasks hadv) hrest
      rw [hnext.requested hidle] at hrest
      exact hrest.head hcondition hstep

/-- A call of `heap_alloc` or `heap_free`. -/
theorem solo_callHeap {c : Call} : (solo t w live p .idle).callHeap t c p' = some (solo t
    { w with small := Machine.liveAfterCall (T := T) ⟨w.state, alone t .idle, w.small⟩ c } live p'
    (Pc.start c)) := by
  have hheld : Action.work.Moves Pc.idle.held (Pc.start c).held := by cases c <;> rfl
  have hmove : (alone t .idle).move t .work (Pc.start c) = alone t (Pc.start c) := alone_move hheld
  simp only [callHeap, Machine.step, solo_moveTo]
  simp only [solo, hmove, Option.bind_eq_bind, Option.bind_some]
  rfl

/-- **`heap_alloc`**, called by `malloc`. -/
theorem goes_heapAlloc (hpos : size ≠ 0) (hsize : size ≤ maxBlockSize)
    (hmmap : ∀ ptr ∈ mmap, MapsFresh w.state.mapped ptr (2 * superblockSize))
    (hmatches : w.state.Matching (.thread i) (binOf size))
    (halloc : w.state.heapAlloc (.thread i) size mmap = some (r, s')) :
    Goes t mmap (solo t w live (.request i size use) .idle) (solo t { w with
      state := s', small := Machine.liveAfter w.small (some size) r } live (.got size r use)
      .idle) := by
  have hasks : w.state.Asks mmap (Pc.start (.heapAlloc i size)) := by
    rintro size' hseek
    obtain rfl := Option.some.inj hseek
    exact ⟨hsize, hmmap⟩
  have hfinish := (State.finish_heapAlloc w.state mmap i size).trans halloc
  have hcall : Goes t mmap (solo t w live (.allocating size use) (.allocLock i size)) (solo t
      { w with state := s', small := Machine.liveAfter w.small (some size) r } live
      (.got size r use) .idle) := goes_finish rfl (fun hc => by cases hc) hasks hmatches hfinish
  -- `malloc` asks the kernel for no pages itself.
  have hmapping : (Phase.request i size use).mapping = none := if_neg (Nat.not_lt.mpr hsize)
  have hnext : (solo t w live (.request i size use) .idle).next t none (.request i size use) =
      some (solo t w live (.allocating size use) (.allocLock i size)) := by
    rw [Server.next, if_neg hpos, if_neg (Nat.not_lt.mpr hsize), solo_callHeap]
    rfl
  exact (goes_asking_nothing (fun hc => by cases hc) rfl hmapping trivial hnext).trans hcall

/-- **`large_alloc`**, called by `malloc`. -/
theorem goes_largeAlloc {c : Core} (hsize : maxBlockSize < size)
    (hpromised : w.Promised size mmap) (hover : mmap ≠ none → size + sizeofMmapHeader < 2 ^ 64)
    (hlarge : w.state.toCore.largeAlloc size mmap = (r, c)) :
    Goes t mmap (solo t w live (.request i size use) .idle)
      (solo t (({ w with state := w.state.setCore c } : Process).add size r) live
        (.got size r use) .idle) := by
  have hmapping : (Phase.request i size use).mapping = some size := if_pos hsize
  refine goes_next mmap (fun hc => by cases hc) rfl ?_ ?_ trivial (Or.inr rfl) ?_
  · rw [hmapping]
    intro size' hsize' ptr hptr
    obtain rfl := Option.some.inj hsize'
    have hpages := hpromised ptr hptr
    rw [if_neg (Nat.not_le.mpr hsize)] at hpages
    exact hpages.2
  · rw [hmapping]
    intro size' hsize' hne
    obtain rfl := Option.some.inj hsize'
    exact hover hne
  · rw [Server.next, if_neg (Nat.ne_zero_of_lt hsize), if_pos hsize, solo_core, hlarge]
    simp only [solo_setCore, solo_moveTo]
    cases r with
    | none => rfl
    | some p =>
      rw [Process.add, if_pos hsize]
      rfl

/-- **`malloc`**, whatever it is used for. -/
theorem goes_malloc (hpromised : w.Promised size mmap) (hgrants : w.Grants i size mmap)
    (hmalloc : w.state.malloc (.thread i) size mmap = some (r, s')) :
    Goes t mmap (solo t w live (.request i size use) .idle)
      (solo t (({ w with state := s' } : Process).add size r) live (.got size r use) .idle) := by
  rw [State.malloc] at hmalloc
  by_cases hzero : size = 0
  · rw [if_pos hzero] at hmalloc
    obtain ⟨rfl, rfl⟩ := Prod.mk.inj (Option.some.inj hmalloc)
    have hmapping : (Phase.request i size use).mapping = none :=
      if_neg (hzero ▸ Nat.not_lt_zero _)
    refine goes_asking_nothing (fun hc => by cases hc) rfl hmapping trivial ?_
    rw [Server.next, if_pos hzero, solo_moveTo]
    rfl
  by_cases hsize : maxBlockSize < size
  · obtain ⟨⟨result, c⟩, hlarge⟩ : ∃ a, w.state.toCore.largeAlloc size mmap = a := ⟨_, rfl⟩
    rw [if_neg hzero, if_pos hsize, hlarge] at hmalloc
    obtain ⟨rfl, rfl⟩ := Prod.mk.inj (Option.some.inj hmalloc)
    exact goes_largeAlloc hsize hpromised (hgrants.2 hsize) hlarge
  · rw [if_neg hzero, if_neg hsize] at hmalloc
    have hle := Nat.le_of_not_lt hsize
    have hmmap : ∀ ptr ∈ mmap, MapsFresh w.state.mapped ptr (2 * superblockSize) := by
      intro ptr hptr
      have hpages := hpromised ptr hptr
      rwa [if_pos hle] at hpages
    have halloc : Goes t mmap (solo t w live (.request i size use) .idle) (solo t { w with
        state := s', small := Machine.liveAfter w.small (some size) r } live (.got size r use)
        .idle) :=
      goes_heapAlloc hzero hle hmmap (hgrants.1 (Nat.pos_of_ne_zero hzero) hle) hmalloc
    cases r with
    | none => exact halloc
    | some p =>
      rw [Process.add, if_neg hsize]
      exact halloc

/-- **`free`**, also where `realloc` calls it. -/
theorem goes_free {d : Depot} {result : Option ℕ}
    (hM : (solo t w live (.release ptr result) .idle).Models d)
    (hfree : w.state.free (some ptr) = some s') :
    Goes t mmap (solo t w live (.release ptr result) .idle) (solo t { w.remove (some ptr) with
      state := s' } (live.filter fun b => b.1 ≠ ptr) .idle .idle) := by
  obtain ⟨⟨n, hn⟩, -, -⟩ := hM.release_block solo_phase
  have hfound := hM.isLargeAlloc_iff hn
  rw [solo_core] at hfound
  have htake : (if result.isSome then solo t w live (.release ptr result) .idle
      else (solo t w live (.release ptr result) .idle).take ptr) =
      solo t w (live.filter fun b => b.1 ≠ ptr) (.release ptr result) .idle :=
    hM.release_take solo_phase
  have hstep : ∀ {s₁}, (solo t w live (.release ptr result) .idle).next t none
      (.release ptr result) = some s₁ →
      Goes t mmap (solo t w live (.release ptr result) .idle) s₁ :=
    goes_asking_nothing (fun hc => by cases hc) rfl rfl trivial
  simp only [Server.next, htake, solo_core] at hstep
  rw [State.free] at hfree
  by_cases hlarge : (ptr, n) ∈ w.large
  · rw [if_pos (hfound.mpr hlarge)] at hfree hstep
    obtain rfl := Option.some.inj hfree
    have hsmall : (w.small.filter fun b => b.1 ≠ ptr) = w.small :=
      List.filter_eq_self.mpr fun b hb => decide_eq_true
        (hM.hosts.ne_of_live (hM.machine.client b hb) hlarge)
    rw [solo_setCore, solo_moveTo] at hstep
    rw [Process.remove, hsmall]
    exact hstep rfl
  · rw [if_neg fun hc => hlarge (hfound.mp hc)] at hfree hstep
    have hsmall : (ptr, n) ∈ w.small := (List.mem_append.mp hn).resolve_right hlarge
    have hother : (w.large.filter fun b => b.1 ≠ ptr) = w.large :=
      List.filter_eq_self.mpr fun b hb => decide_eq_true
        (hM.hosts.ne_of_live (hM.machine.client _ hsmall) hb).symm
    rw [solo_callHeap] at hstep
    rw [Process.remove, hother]
    have hfinish : State.finish mmap 10 none (.freeLockSuperblock ptr) w.state =
        some (none, s') := by
      rw [State.finish_heapFree, hfree, Option.bind_some]
    have hasks : w.state.Asks mmap (.freeLockSuperblock ptr) := fun _ hseek => by cases hseek
    have hin : (Phase.freeing result).inHeap = true := rfl
    exact (hstep rfl).trans (goes_finish hin (fun hc => by cases hc) hasks trivial hfinish)

/-! ### Returns -/

/-- `malloc` returns. -/
theorem goes_malloc_return : Goes t mmap (solo t w live (.got size r .malloc) .idle)
    (solo t w (Machine.liveAfter live (some size) r) .idle .idle) := by
  cases r with
  | none =>
    exact goes_asking_nothing (fun hc => by cases hc) rfl rfl trivial (congrArg some solo_moveTo)
  | some q =>
    exact goes_asking_nothing (fun hc => by cases hc) rfl rfl trivial (congrArg some solo_moveTo)

/-- `calloc` returns. -/
theorem goes_calloc_return (hspans : ∀ q ∈ r, Spans w.state.mapped (q, size)) :
    Goes t mmap (solo t w live (.got size r .calloc) .idle) (solo t
      { w with state := Process.cleared w.state size r } (Machine.liveAfter live (some size) r)
      .idle .idle) := by
  cases r with
  | none =>
    exact goes_asking_nothing (fun hc => by cases hc) rfl rfl trivial (congrArg some solo_moveTo)
  | some q =>
    have hset : w.state.toCore.memset q size = some (w.state.toCore.clear q size) :=
      if_pos (hspans q rfl)
    refine goes_asking_nothing (fun hc => by cases hc) rfl rfl trivial ?_
    simp only [Server.next, solo_core, hset, Option.bind_eq_bind, Option.bind_some, solo_setCore,
      solo_give, solo_moveTo]
    rfl

/-- `realloc` copies a block. -/
theorem goes_copy {q : ℕ} {oldLarge : Bool} {c : Core}
    (hc : w.state.toCore.memcpy q ptr
      (if oldLarge then size else min (w.state.getBlockSize ptr) size) = some c)
    (hmark : size ≤ maxBlockSize → c.NoMark q size) :
    Goes t mmap (solo t w live (.got size (some q) (.realloc ptr oldLarge)) .idle) (solo t
      { w with state := w.state.setCore c } ((q, size) :: live.filter fun b => b.1 ≠ ptr)
      (.release ptr (some q)) .idle) := by
  obtain rfl := Core.eq_of_memcpy hc
  refine goes_asking_nothing (fun hc => by cases hc) rfl rfl hmark ?_
  have hcopy : (solo t w live (.got size (some q) (.realloc ptr oldLarge)) .idle).numBytesToCopy ptr
      size oldLarge = if oldLarge then size else min (w.state.getBlockSize ptr) size := rfl
  simp only [Server.next, hcopy, solo_core, hc, Option.bind_eq_bind, Option.bind_some,
    solo_setCore, solo_take, solo_give, solo_moveTo]
  rfl

/-- `realloc` gets no block. -/
theorem goes_not_copied {oldLarge : Bool} :
    Goes t mmap (solo t w live (.got size none (.realloc ptr oldLarge)) .idle)
      (solo t w live (.release ptr none) .idle) :=
  goes_asking_nothing (fun hc => by cases hc) rfl rfl trivial (congrArg some solo_moveTo)

/-- **`large_realloc`.** -/
theorem goes_largeRealloc {c : Core}
    (hfresh : ∀ newPtr ∈ mmap,
      MapsFresh w.state.mapped newPtr (pageUp (add64 size sizeofMmapHeader)))
    (hover : mmap ≠ none → size + sizeofMmapHeader < 2 ^ 64)
    (hfits : mmap ≠ none → ∀ b ∈ w.large, b.1 = ptr →
      b.2 + sizeofMmapHeader ≤ pageUp (size + sizeofMmapHeader))
    (hc : w.state.toCore.largeRealloc ptr size mmap = some (r, c)) :
    Goes t mmap (solo t w live (.remap ptr size) .idle) (r.elim
      (solo t { w with state := w.state.setCore c } live .idle .idle) fun q =>
        solo t { w with
          state := w.state.setCore c
          large := (q, size) :: w.large.filter fun b => b.1 ≠ ptr }
        ((q, size) :: live.filter fun b => b.1 ≠ ptr) .idle .idle) := by
  refine goes_next mmap (fun hc => by cases hc) rfl (fun size' hsize' => ?_)
    (fun size' hsize' => ?_) hfits (Or.inr rfl) ?_
  · obtain rfl := Option.some.inj hsize'
    exact hfresh
  · obtain rfl := Option.some.inj hsize'
    exact hover
  · simp only [Server.next, solo_core, hc, Option.bind_eq_bind, Option.bind_some]
    cases r with
    | none =>
      simp only [solo_setCore, solo_moveTo]
      rfl
    | some q =>
      simp only [solo_setCore, solo_take, solo_give, solo_moveTo]
      rfl

/-! ### Sequential runs -/

omit [DecidableEq T] in
/-- The blocks that the clients see when one more has been returned. -/
theorem mem_add (hmem : ∀ b, b ∈ live ↔ b ∈ w.small ++ w.large) (b : ℕ × ℕ) :
    b ∈ Machine.liveAfter live (some size) r ↔
      b ∈ (w.add size r).small ++ (w.add size r).large := by
  cases r with
  | none => exact hmem b
  | some q =>
    have hcons : b ∈ Machine.liveAfter live (some size) (some q) ↔
        b = (q, size) ∨ b ∈ w.small ∨ b ∈ w.large := by
      rw [Machine.liveAfter, List.mem_cons, hmem, List.mem_append]
    rw [hcons, Process.add]
    split
    · rw [List.mem_append, List.mem_cons]
      exact or_left_comm
    · rw [List.mem_append, List.mem_cons]
      exact or_assoc.symm

omit [DecidableEq T] in
/-- The blocks that the clients see when one has been given back. -/
theorem mem_remove (hmem : ∀ b, b ∈ live ↔ b ∈ w.small ++ w.large) (b : ℕ × ℕ) :
    b ∈ (live.filter fun b => b.1 ≠ ptr) ↔
      b ∈ (w.remove (some ptr)).small ++ (w.remove (some ptr)).large := by
  rw [Process.remove, ← List.filter_append, List.mem_filter, List.mem_filter, hmem]

/-- What the steps of a thread keep. -/
theorem models_of_goes {s₁ s₂ : Server T} (h : Goes t mmap s₁ s₂) (hM : ∃ d, s₁.Models d) :
    ∃ d, s₂.Models d := by
  refine h.preserves (P := fun s => ∃ d, s.Models d) ?_ hM
  rintro s e s' ⟨d, hM⟩ ⟨⟨hlegal, htame⟩, -⟩ hstep
  obtain ⟨s'', hs'', hadv⟩ := hM.step hlegal htame
  obtain rfl := Option.some.inj (hs''.symm.trans hstep)
  exact hadv.models

/-- **A thread serves an event of a sequential run**, by steps that are as they should be. -/
def Serves (t : T) (req : Request) (s s' : Server T) : Prop :=
  ∃ events, PublicEvent.Performs t req events ∧ run Server.step s events = some s' ∧
    Always Server.step (fun s e => s.Legal e ∧ s.Tame e) s events

/-- **The execution has come to where the sequential run is**: no thread is in a call, and
the clients see the same blocks. -/
structure Shows (t : T) (w : Process) (s : Server T) : Prop where
  models : ∃ d, s.Models d
  solo : ∃ live, s = Server.solo t w live .idle .idle ∧ ∀ b, b ∈ live ↔ b ∈ w.small ++ w.large

section Requests

variable (hM : ∃ d, (solo t w live .idle .idle).Models d)
  (hmem : ∀ b, b ∈ live ↔ b ∈ w.small ++ w.large)

section Call

variable {req : Request} {c : PublicCall} (hreq : req.call = some c)
  (hlegal : (solo t w live .idle .idle).Legal (.call t c))
  (hstart : w.state.toCore.startPublic c = p)

omit hM in
include hmem in
/-- A call may be made, as no thread is in one. -/
theorem legal_call (hptr : ∀ ptr ∈ c.ptr, w.IsLive ptr) :
    (solo t w live .idle .idle).Legal (.call t c) := by
  refine ⟨solo_phase, fun ptr hp => ?_⟩
  obtain ⟨b, hb, rfl⟩ := hptr ptr hp
  refine ⟨⟨b, (hmem b).mpr hb, rfl⟩, fun u hu => ?_⟩
  rw [solo_phase_idle] at hu
  cases hu

include hM hlegal hstart

theorem models_of_call : ∃ d, (solo t w live p .idle).Models d := by
  obtain ⟨d, hM⟩ := hM
  have hcall := hM.call hlegal
  rw [solo_moveTo, solo_core, hstart] at hcall
  exact ⟨d, hcall⟩

include hreq

/-- **A thread that comes to the end of a call** has served it. -/
theorem shows_of_goes {w' : Process} {live' : List (ℕ × ℕ)}
    (h : Goes t req.answer (solo t w live p .idle) (solo t w' live' .idle .idle))
    (hmem' : ∀ b, b ∈ live' ↔ b ∈ w'.small ++ w'.large) :
    ∃ s₁, Serves t req (solo t w live .idle .idle) s₁ ∧ Shows t w' s₁ := by
  have hmodels := models_of_goes h (models_of_call hM hlegal hstart)
  have hcall : (solo t w live .idle .idle).step (.call t c) = some (solo t w live p .idle) := by
    rw [Server.step, solo_moveTo, solo_core, hstart]
  obtain ⟨steps, hrun, halways⟩ := h
  have hmine := halways.forall_mem (fun _ _ hC => hC.2) hrun
  refine ⟨_, ⟨_, .call hreq hmine, ?_, ⟨hlegal, trivial⟩, fun s hs => ?_⟩, hmodels, live', rfl,
    hmem'⟩
  · rw [run_cons, hcall, Option.bind_some, hrun]
  · obtain rfl := Option.some.inj (hcall.symm.trans hs)
    exact halways.imp fun _ _ hC => hC.1

/-- The end of a call that frees a block. -/
theorem shows_release {w₁ : Process} {live₁ : List (ℕ × ℕ)} {result : Option ℕ}
    (hgoes : Goes t req.answer (solo t w live p .idle)
      (solo t w₁ live₁ (.release ptr result) .idle))
    (hmem₁ : ∀ b, b ∈ (live₁.filter fun b => b.1 ≠ ptr) ↔
      b ∈ (w₁.remove (some ptr)).small ++ (w₁.remove (some ptr)).large)
    (hfree : w₁.state.free (some ptr) = some s') :
    ∃ s₁, Serves t req (solo t w live .idle .idle) s₁ ∧
      Shows t { w₁.remove (some ptr) with state := s' } s₁ := by
  obtain ⟨d₁, hM₁⟩ := models_of_goes hgoes (models_of_call hM hlegal hstart)
  exact shows_of_goes hM hreq hlegal hstart (hgoes.trans (goes_free hM₁ hfree)) hmem₁

end Call

include hM hmem

theorem shows_malloc (hpromised : w.Promised size mmap) (hgrants : w.Grants i size mmap)
    (hmalloc : w.state.malloc (.thread i) size mmap = some (r, s')) :
    ∃ s₁, Serves t (.malloc i size mmap) (solo t w live .idle .idle) s₁ ∧
      Shows t (({ w with state := s' } : Process).add size r) s₁ := by
  have hlegal := legal_call (t := t) (c := .malloc i size) hmem fun _ hp => by cases hp
  have hgoes : Goes t mmap (solo t w live (.request i size .malloc) .idle) _ :=
    (goes_malloc hpromised hgrants hmalloc).trans goes_malloc_return
  exact shows_of_goes hM rfl hlegal rfl hgoes (mem_add (w := { w with state := s' }) hmem)

theorem shows_calloc {nmemb : ℕ} (hpromised : w.Promised (nmemb * size) mmap)
    (hgrants : w.Grants i (nmemb * size) mmap)
    (hcalloc : w.state.calloc (.thread i) nmemb size mmap = some (r, s')) :
    ∃ s₁, Serves t (.calloc i nmemb size mmap) (solo t w live .idle .idle) s₁ ∧
      Shows t (({ w with state := s' } : Process).add (nmemb * size) r) s₁ := by
  have hlegal := legal_call (t := t) (c := .calloc i nmemb size) hmem fun _ hp => by cases hp
  by_cases hzero : nmemb = 0 ∨ size = 0
  · rw [State.calloc, if_pos hzero] at hcalloc
    obtain ⟨rfl, rfl⟩ := Prod.mk.inj (Option.some.inj hcalloc)
    exact shows_of_goes hM rfl hlegal (if_pos hzero) .refl hmem
  by_cases hover : (2 ^ 64 - 1) / nmemb < size
  · rw [State.calloc, if_neg hzero, if_pos hover] at hcalloc
    obtain ⟨rfl, rfl⟩ := Prod.mk.inj (Option.some.inj hcalloc)
    exact shows_of_goes hM rfl hlegal ((if_neg hzero).trans (if_pos hover)) .refl hmem
  have hlt : nmemb * size < 2 ^ 64 := by
    have hle := (Nat.le_div_iff_mul_le (Nat.pos_of_ne_zero fun h => hzero (Or.inl h))).mp
      (Nat.le_of_not_lt hover)
    rw [Nat.mul_comm]
    omega
  have hstart : w.state.toCore.startPublic (.calloc i nmemb size) =
      .request i (nmemb * size) .calloc := by
    rw [Core.startPublic, if_neg hzero, if_neg hover, Nat.mod_eq_of_lt hlt]
  obtain ⟨⟨r₁, s₁⟩, hmalloc⟩ : ∃ a, w.state.malloc (.thread i) (nmemb * size) mmap = some a := by
    have hbind := hcalloc
    simp only [State.calloc, if_neg hzero, if_neg hover, Nat.mod_eq_of_lt hlt] at hbind
    obtain ⟨a, hmalloc, -⟩ := Option.bind_eq_some_iff.mp hbind
    exact ⟨a, hmalloc⟩
  rw [Process.calloc_eq hzero hover hlt hmalloc] at hcalloc
  split at hcalloc
  · rename_i hspans
    obtain ⟨rfl, rfl⟩ := Prod.mk.inj (Option.some.inj hcalloc)
    have hgoes : Goes t mmap (solo t w live (.request i (nmemb * size) .calloc) .idle) _ :=
      goes_malloc hpromised hgrants hmalloc
    rw [Process.add_setState] at hgoes ⊢
    exact shows_of_goes hM rfl hlegal hstart (hgoes.trans (goes_calloc_return hspans))
      (mem_add hmem)
  · cases hcalloc

theorem shows_free (hlive : w.IsLive ptr) (hfree : w.state.free (some ptr) = some s') :
    ∃ s₁, Serves t (.free (some ptr)) (solo t w live .idle .idle) s₁ ∧
      Shows t { w.remove (some ptr) with state := s' } s₁ := by
  have hlegal := legal_call (t := t) (c := .free (some ptr)) hmem fun q hq =>
    Option.some.inj hq ▸ hlive
  exact shows_release hM rfl hlegal rfl .refl (mem_remove hmem) hfree

/-- `realloc` that does not call `large_realloc`. -/
theorem shows_realloc_move (hlive : w.IsLive ptr) (hpos : size ≠ 0)
    (hnot : ¬(w.state.toCore.isLargeAlloc ptr = true ∧ maxBlockSize < size))
    (hpromised : w.Promised size mmap) (hgrants : w.Grants i size mmap)
    (hcopies : size ≤ maxBlockSize → w.CopiesNoMark i ptr size mmap)
    (hrealloc : w.state.realloc (.thread i) (some ptr) size mmap = some (r, s')) :
    ∃ s₁, Serves t (.realloc i (some ptr) size mmap) (solo t w live .idle .idle) s₁ ∧
      Shows t (({ w.remove (some ptr) with state := s' } : Process).add size r) s₁ := by
  have hlegal := legal_call (t := t) (c := .realloc i (some ptr) size) hmem fun q hq =>
    Option.some.inj hq ▸ hlive
  have hstart : w.state.toCore.startPublic (.realloc i (some ptr) size) =
      .request i size (.realloc ptr (w.state.toCore.isLargeAlloc ptr)) := by
    simp only [Core.startPublic, if_neg hpos, State.not_bothLarge hnot, Bool.false_eq_true,
      if_false]
  have hreq : (Request.realloc i (some ptr) size mmap).call =
      some (.realloc i (some ptr) size) := rfl
  rcases State.realloc_cases hpos hnot hrealloc with ⟨rfl, s₁, hmalloc, hfree⟩ |
    ⟨q, s₁, rfl, hmalloc, hcopy, hfree⟩
  · have hgoes : Goes t mmap
        (solo t w live (.request i size (.realloc ptr (w.state.toCore.isLargeAlloc ptr))) .idle)
        (solo t { w with state := s₁ } live (.release ptr none) .idle) :=
      (goes_malloc hpromised hgrants hmalloc).trans goes_not_copied
    have hshows := shows_release hM hreq hlegal hstart hgoes (fun a => mem_remove hmem a) hfree
    exact hshows
  · have hgot : Goes t mmap (solo t w live (.request i size
        (.realloc ptr (w.state.toCore.isLargeAlloc ptr))) .idle) _ :=
      goes_malloc hpromised hgrants hmalloc
    obtain ⟨d₁, hM₁⟩ := models_of_goes hgot (models_of_call hM hlegal hstart)
    obtain ⟨b, hb, rfl⟩ := hlive
    have hblock : b ∈ live := (hmem b).mpr hb
    have hne : q ≠ b.1 := by
      rintro rfl
      exact (hM₁.got_block solo_phase).2.2.2 b.2 hblock
    have hfound : w.IsLarge b.1 ↔ w.state.toCore.isLargeAlloc b.1 = true := by
      obtain ⟨d, hM⟩ := hM
      have hiff := hM.isLargeAlloc_iff hb
      rw [solo_core] at hiff
      rw [hiff]
      constructor
      · rintro ⟨b', hb', heq⟩
        obtain rfl : b' = b := hM.eq_of_allocated (List.mem_append_right _ hb') hb heq
        exact hb'
      · intro hlarge
        exact ⟨b, hlarge, rfl⟩
    rw [Process.add_setState] at hgot ⊢
    have hgoes := hgot.trans (goes_copy hcopy fun hle => by
      have hmark := hcopies hle _ hmalloc q rfl
      rwa [if_congr hfound rfl rfl] at hmark)
    have hfilter : (((q, size) :: live.filter fun a => a.1 ≠ b.1).filter fun a => a.1 ≠ b.1) =
        Machine.liveAfter (live.filter fun a => a.1 ≠ b.1) (some size) (some q) := by
      rw [List.filter_cons_of_pos (by simpa using hne), List.filter_filter]
      simp only [Bool.and_self]
      rfl
    have hshows := shows_release hM hreq hlegal hstart hgoes (fun a => ?_) hfree
    · rw [← Process.add_remove hne]
      exact hshows
    · have hadd : a ∈ Machine.liveAfter (live.filter fun a => a.1 ≠ b.1) (some size) (some q) ↔
          a ∈ ((w.remove (some b.1)).add size (some q)).small ++
            ((w.remove (some b.1)).add size (some q)).large := mem_add (mem_remove hmem) a
      rw [hfilter, hadd, ← Process.add_remove hne]
      rfl

/-- `realloc` that calls `large_realloc`. -/
theorem shows_realloc_large (hlive : w.IsLive ptr)
    (hlarge : w.state.toCore.isLargeAlloc ptr = true) (hsize : maxBlockSize < size)
    (hpromised : w.Promised size mmap) (hgrants : w.Grants i size mmap)
    (hfits : mmap ≠ none → ∀ b ∈ w.large, b.1 = ptr →
      b.2 + sizeofMmapHeader ≤ pageUp (size + sizeofMmapHeader))
    (hrealloc : w.state.realloc (.thread i) (some ptr) size mmap = some (r, s')) :
    ∃ s₁, Serves t (.realloc i (some ptr) size mmap) (solo t w live .idle .idle) s₁ ∧
      Shows t (({ (if r.isNone then w else w.remove (some ptr)) with
        state := s' } : Process).add size r) s₁ := by
  have hlegal := legal_call (t := t) (c := .realloc i (some ptr) size) hmem fun q hq =>
    Option.some.inj hq ▸ hlive
  have hstart : w.state.toCore.startPublic (.realloc i (some ptr) size) = .remap ptr size := by
    simp only [Core.startPublic, if_neg (Nat.ne_zero_of_lt hsize), hlarge, decide_eq_true hsize,
      Bool.and_self, if_true]
  obtain ⟨c, hc, rfl⟩ := Process.exists_of_realloc_large hlarge hsize hrealloc
  have hfresh : ∀ newPtr ∈ mmap,
      MapsFresh w.state.mapped newPtr (pageUp (add64 size sizeofMmapHeader)) := by
    intro newPtr hnew
    have hpages := hpromised newPtr hnew
    rw [if_neg (Nat.not_le.mpr hsize)] at hpages
    exact hpages.2
  have hgoes : Goes t mmap (solo t w live (.remap ptr size) .idle) _ :=
    goes_largeRealloc hfresh (hgrants.2 hsize) hfits hc
  cases r with
  | none => exact shows_of_goes hM rfl hlegal hstart hgoes hmem
  | some q =>
    have hsmall : (w.small.filter fun b => b.1 ≠ ptr) = w.small := by
      obtain ⟨d, hM⟩ := hM
      obtain ⟨b, hb, rfl⟩ := hlive
      have hiff := hM.isLargeAlloc_iff hb
      rw [solo_core] at hiff
      exact List.filter_eq_self.mpr fun a ha => decide_eq_true
        (hM.hosts.ne_of_live (hM.machine.client a ha) (hiff.mp hlarge))
    have hw : ({ w.remove (some ptr) with state := w.state.setCore c } : Process).add size
        (some q) = { w with
          state := w.state.setCore c
          large := (q, size) :: w.large.filter fun b => b.1 ≠ ptr } := by
      rw [Process.add, if_pos hsize, Process.remove, hsmall]
    show ∃ s₁, _ ∧ Shows t (({ w.remove (some ptr) with
      state := w.state.setCore c } : Process).add size (some q)) s₁
    rw [hw]
    refine shows_of_goes hM rfl hlegal hstart hgoes fun b => ?_
    have hadd : b ∈ Machine.liveAfter (live.filter fun b => b.1 ≠ ptr) (some size) (some q) ↔
        b ∈ ((w.remove (some ptr)).add size (some q)).small ++
          ((w.remove (some ptr)).add size (some q)).large := mem_add (mem_remove hmem) b
    rw [Process.add, if_pos hsize, Process.remove, hsmall] at hadd
    exact hadd

/-- **`realloc`** of a block. -/
theorem shows_realloc (hlegal : w.Legal (.realloc i (some ptr) size mmap))
    (htame : w.Tame (.realloc i (some ptr) size mmap))
    (hrealloc : w.state.realloc (.thread i) (some ptr) size mmap = some (r, s')) :
    ∃ s₁, Serves t (.realloc i (some ptr) size mmap) (solo t w live .idle .idle) s₁ ∧
      Shows t (({ (if w.staysLarge (some ptr) size && r.isNone then w
        else w.remove (some ptr)) with state := s' } : Process).add size r) s₁ := by
  obtain ⟨-, hpromised, hlive⟩ := hlegal
  obtain ⟨hgrants, hrest⟩ := htame ptr rfl
  have hstays : w.staysLarge (some ptr) size =
      (w.state.toCore.isLargeAlloc ptr && decide (maxBlockSize < size)) := rfl
  by_cases hboth : w.state.toCore.isLargeAlloc ptr = true ∧ maxBlockSize < size
  · obtain ⟨hlarge, hsize⟩ := hboth
    rw [if_pos hsize] at hrest
    rw [hstays, hlarge, decide_eq_true hsize, Bool.and_self, Bool.true_and]
    exact shows_realloc_large hM hmem (hlive ptr rfl) hlarge hsize hpromised hgrants hrest hrealloc
  · rw [hstays, State.not_bothLarge hboth, Bool.false_and, if_neg Bool.false_ne_true]
    by_cases hpos : size = 0
    · subst hpos
      rw [State.realloc, if_pos rfl] at hrealloc
      obtain ⟨s₁, hfree, hrealloc⟩ := Option.bind_eq_some_iff.mp hrealloc
      obtain ⟨rfl, rfl⟩ := Prod.mk.inj (Option.some.inj hrealloc)
      have hreq : (Request.realloc i (some ptr) 0 mmap).call = some (.realloc i (some ptr) 0) := rfl
      have hlegal := legal_call (t := t) (c := .realloc i (some ptr) 0) hmem hlive
      have hshows := shows_release hM hreq hlegal rfl .refl (fun a => mem_remove hmem a) hfree
      exact hshows
    · refine shows_realloc_move hM hmem (hlive ptr rfl) hpos hboth hpromised hgrants (fun hle => ?_)
        hrealloc
      rwa [if_neg (Nat.not_lt.mpr hle)] at hrest

/-- A client writes into a block. -/
theorem shows_write {off : ℕ} {bytes : List UInt8} (hlegal : w.Legal (.write ptr off bytes))
    (htame : w.Tame (.write ptr off bytes)) :
    ∃ s₁, Serves t (.write ptr off bytes) (solo t w live .idle .idle) s₁ ∧ Shows t { w with
      state := w.state.setCore
        { w.state.toCore with mem := store w.state.mem (ptr + off) bytes } } s₁ := by
  obtain ⟨b, hb, rfl, hle⟩ := hlegal
  obtain ⟨d, hM⟩ := hM
  have hlegal : (solo t w live .idle .idle).Legal (.write b.1 off bytes) := by
    refine ⟨⟨b, (hmem b).mpr hb, rfl, hle⟩, fun u hu => ?_⟩
    rw [solo_phase_idle] at hu
    cases hu
  obtain ⟨s₁, hs₁, hadv⟩ := hM.write hlegal htame
  obtain rfl := Option.some.inj hs₁
  exact ⟨_, ⟨_, .write .., rfl, ⟨hlegal, htame⟩, fun _ _ => trivial⟩, hadv.models, live, rfl, hmem⟩

end Requests

/-- **Every event of a sequential run** is served by one thread. -/
theorem shows_step {w' : Process} {s₁ : Server T} {req : Request} (hs : Shows t w s₁)
    (hlegal : w.Legal req) (htame : w.Tame req) (hstep : w.step req = some w') :
    ∃ s₂, Serves t req s₁ s₂ ∧ Shows t w' s₂ := by
  obtain ⟨hM, live, rfl, hmem⟩ := hs
  cases req with
  | malloc i size mmap =>
    obtain ⟨⟨r, s⟩, hmalloc, hstep⟩ := Option.bind_eq_some_iff.mp hstep
    obtain rfl := Option.some.inj hstep
    exact shows_malloc hM hmem hlegal.2 htame hmalloc
  | calloc i nmemb size mmap =>
    obtain ⟨⟨r, s⟩, hcalloc, hstep⟩ := Option.bind_eq_some_iff.mp hstep
    obtain rfl := Option.some.inj hstep
    exact shows_calloc hM hmem hlegal.2.2 htame hcalloc
  | realloc i ptr size mmap =>
    cases ptr with
    | none =>
      obtain rfl := Option.some.inj hstep
      have hcall := legal_call (t := t) (c := .realloc i none size) hmem fun _ hp => by cases hp
      exact shows_of_goes hM rfl hcall rfl .refl hmem
    | some ptr =>
      obtain ⟨⟨r, s⟩, hrealloc, hstep⟩ := Option.bind_eq_some_iff.mp hstep
      obtain rfl := Option.some.inj hstep
      exact shows_realloc hM hmem hlegal htame hrealloc
  | free ptr =>
    cases ptr with
    | none =>
      obtain rfl := Option.some.inj hstep
      have hcall := legal_call (t := t) (c := .free none) hmem fun _ hp => by cases hp
      exact shows_of_goes hM rfl hcall rfl .refl hmem
    | some ptr =>
      obtain ⟨s, hfree, hstep⟩ := Option.bind_eq_some_iff.mp hstep
      obtain rfl := Option.some.inj hstep
      exact shows_free hM hmem (hlegal ptr rfl) hfree
  | write ptr off bytes =>
    obtain rfl := Option.some.inj hstep
    exact shows_write hM hmem hlegal htame

end Solo

end Server

/-- **A sequential run of the public functions is an execution of one thread**, if it keeps to
what is promised and does none of what `MyMalloc.Process.Tame` excludes: event by event, the
thread makes the call and takes its steps, and the writes are made between the calls. Every
step is as it should be, and the execution comes to the same state of the allocator with the
same blocks, and no thread in a call. -/
theorem public_runs_interleave {T : Type} [DecidableEq T] (t : T) {reqs : List Request}
    {w : Process} (hreqs : Always Process.step (fun w req => w.Legal req ∧ w.Tame req) {} reqs)
    (hrun : run Process.step {} reqs = some w) :
    ∃ (performed : List (List (PublicEvent T))) (s : Server T),
      List.Forall₂ (PublicEvent.Performs t) reqs performed ∧
      run Server.step {} performed.flatten = some s ∧
      Always Server.step (fun s e => s.Legal e ∧ s.Tame e) {} performed.flatten ∧
      s.machine.state = w.state ∧ s.machine.live = w.small ∧ s.large = w.large ∧
      (∀ u, s.phase u = .idle) ∧ ∀ b, b ∈ s.live ↔ b ∈ w.small ++ w.large := by
  have hinitial : Server.solo t {} [] .idle .idle = ({} : Server T) := by
    rw [Server.solo, alone_idle, Function.update_eq_self]
  have hshows : Server.Shows t {} ({} : Server T) :=
    ⟨⟨_, Server.models_initial⟩, [], hinitial.symm, fun _ => Iff.rfl⟩
  have hrule : ∀ (w : Process) (s : Server T) (req : Request) (w' : Process),
      Server.Shows t w s → w.Legal req ∧ w.Tame req → w.step req = some w' →
      ∃ events s', PublicEvent.Performs t req events ∧ run Server.step s events = some s' ∧
        Server.Shows t w' s' ∧ Always Server.step (fun s e => s.Legal e ∧ s.Tame e) s events ∧
        (w.Legal req ∧ w.Tame req →
          Always Server.step (fun s e => s.Legal e ∧ s.Tame e) s events) := by
    rintro w s req w' hs ⟨hlegal, htame⟩ hstep
    obtain ⟨s', ⟨events, hperforms, hevents, halways⟩, hs'⟩ :=
      Server.shows_step hs hlegal htame hstep
    exact ⟨events, s', hperforms, hevents, hs', halways, fun _ => halways⟩
  obtain ⟨performed, s, hperformed, hevents, ⟨-, live, rfl, hmem⟩, halways, -⟩ :=
    exists_runs_of_steps hrule hshows hreqs hrun
  exact ⟨performed, _, hperformed, hevents, halways, rfl, rfl, rfl,
    fun _ => Server.solo_phase_idle, hmem⟩

/-- Calls of all the public functions, and a write into a block that is moved afterwards. -/
def movedAndFreed : List Request :=
  [.malloc 0 16 (some 1048576), .malloc 0 200000 (some 4194304), .write 1048704 0 [1, 2, 3],
    .calloc 1 2 8 (some 8388608), .realloc 0 (some 1048704) 40 (some 2097152),
    .free (some 4194320), .realloc 1 (some 8388736) 48 none]

/-- One of two threads makes these calls. -/
theorem public_runs_interleave_moved : ∃ w, run Process.step {} movedAndFreed = some w ∧
    w.small = [(2097280, 40)] ∧ ∃ (performed : List (List (PublicEvent Bool))) (s : Server Bool),
      List.Forall₂ (PublicEvent.Performs true) movedAndFreed performed ∧
      run Server.step {} performed.flatten = some s ∧ s.machine.state = w.state ∧ s.large = [] ∧
      ∀ b, b ∈ s.live ↔ b ∈ [(2097280, 40)] := by
  have hlegal : Always Process.step (fun w req => w.Legal req ∧ w.Tame req) {} movedAndFreed := by
    decide +kernel
  have hfacts : (run Process.step {} movedAndFreed).map (fun w => (w.small, w.large)) =
      some ([(2097280, 40)], []) := by
    decide +kernel
  obtain ⟨w, hrun, hblocks⟩ := Option.map_eq_some_iff.mp hfacts
  obtain ⟨hsmall, hlarge⟩ := Prod.mk.inj hblocks
  obtain ⟨performed, s, hperformed, hevents, -, hstate, -, hpages, -, hmem⟩ :=
    public_runs_interleave true hlegal hrun
  rw [hsmall, hlarge] at hmem
  exact ⟨w, hrun, hsmall, performed, s, hperformed, hevents, hstate, hpages.trans hlarge, hmem⟩

end MyMalloc
