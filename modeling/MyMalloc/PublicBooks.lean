import MyMalloc.PublicContents
import MyMalloc.Mapping

/-!
# Nothing gets lost

The books of threads in the public functions (`MyMalloc.Server.Books`). What is mapped are
the superblocks and the pages of the large blocks, and a block that is allocated is one
that a client sees or a thread has in its hands. So no way through `calloc`, `realloc` and
`free` loses a block or the pages of one, whatever the other threads do meanwhile and
whatever the kernel answers. When no thread is in a call, the blocks that are allocated are
those of the clients (`MyMalloc.public_threads_lose_nothing`).
-/

namespace MyMalloc

open Trace AddressSpace ByteMemory Depot

namespace Server

variable {T : Type} {s s' : Server T} {d : Depot} {t : T} {ptr size : ℕ} {mmap : Option ℕ}

/-- **The books**: no page is mapped without being of use, and no block is allocated
without being in somebody's hands. -/
structure Books (s : Server T) : Prop where
  mapped : s.core.Exact s.large
  held : ∀ b ∈ s.allocated, b ∈ s.live ∨ ∃ t, (s.phase t).hidden = some b.1

namespace Books

/-- **A thread moves on.** What it had in its hands must be in its hands still, or be seen by
a client, or be freed. -/
theorem move (h : s.Books) (t : T) (hmapped : s'.core.Exact s'.large)
    (hphase : ∀ u, u ≠ t → s'.phase u = s.phase u)
    (hheld : ∀ b ∈ s'.allocated, b ∈ s'.live ∨ (s'.phase t).hidden = some b.1 ∨
      b ∈ s.allocated ∧ (s.phase t).hidden ≠ some b.1 ∧
        (b ∈ s.live → b ∈ s'.live ∨ (s'.phase t).hidden = some b.1)) : s'.Books := by
  refine ⟨hmapped, fun b hb => ?_⟩
  rcases hheld b hb with hlive | hhidden | ⟨hb, hne, hkeep⟩
  · exact Or.inl hlive
  · exact Or.inr ⟨t, hhidden⟩
  · rcases h.held b hb with hlive | ⟨u, hu⟩
    · exact (hkeep hlive).imp_right fun hhidden => ⟨t, hhidden⟩
    · have hut : u ≠ t := by
        rintro rfl
        exact hne hu
      exact Or.inr ⟨u, (congrArg Phase.hidden (hphase u hut)).trans hu⟩

/-- A thread moves on that has nothing in its hands, and nothing is allocated. -/
theorem keep (h : s.Books) (t : T) (hmapped : s'.core.Exact s'.large)
    (hphase : ∀ u, u ≠ t → s'.phase u = s.phase u) (hallocated : s'.allocated = s.allocated)
    (hlive : s'.live = s.live) (hhidden : (s.phase t).hidden = none) : s'.Books := by
  refine h.move t hmapped hphase fun b hb => Or.inr (Or.inr ⟨hallocated ▸ hb, ?_, fun hb => ?_⟩)
  · rw [hhidden]
    exact (Option.some_ne_none _).symm
  · exact Or.inl (hlive ▸ hb)

/-- **A block is freed**, or exchanged for another. -/
theorem freed (h : s.Books) (hphase : ∀ u, u ≠ t → s'.phase u = s.phase u)
    (hmapped : s'.core.Exact s'.large)
    (hhidden : ∀ q, (s.phase t).hidden = some q → q = ptr)
    (hothers : ∀ b ∈ s'.allocated, b ∈ s'.live ∨ b ∈ s.allocated ∧ b.1 ≠ ptr)
    (hlive : ∀ b ∈ s.live, b.1 ≠ ptr → b ∈ s'.live) : s'.Books := by
  refine h.move t hmapped hphase fun b hb => ?_
  rcases hothers b hb with hlive' | ⟨hb, hne⟩
  · exact Or.inl hlive'
  · exact Or.inr (Or.inr ⟨hb, fun hc => hne (hhidden _ hc), fun hb => Or.inl (hlive b hb hne)⟩)

variable [DecidableEq T] (h : s.Books) (hM : s.Models d)

include h hM

/-- **A step in the small allocator.** The block that `heap_alloc` returns is in the hands of
its thread. -/
theorem act (hlegal : s.Legal (.act t mmap)) (htame : s.Tame (.act t mmap))
    (hstep : s.step (.act t mmap) = some s') : s'.Books := by
  obtain ⟨pc', s₁, d', hadv, hM', hthread, -⟩ := hM.machine.takes hlegal htame.1 htame.2
  have hnext := State.advance_next hadv
  rw [Server.step, Machine.step_act hadv] at hstep
  simp only [Option.bind_eq_bind, Option.bind_some, Locking.System.move_self] at hstep
  have hs' := Option.some.inj hstep
  have hself : s'.phase t = (s.phase t).after (s.machine.threads.point t) pc' := by
    rw [← hs']
    exact Function.update_self ..
  refine h.move t ?_ (fun u hu => hs' ▸ Function.update_of_ne hu ..) fun b hb => ?_
  · rw [← hs']
    show Core.Exact s₁.toCore s.large
    have hexact : d.core.Exact s.large := hM.core ▸ h.mapped
    rw [hM'.refines.core]
    exact hthread.exact hexact
  · rw [← hs', Server.allocated, Machine.liveAfterAct_eq, List.mem_append, Machine.mem_liveAfter,
      or_assoc, ← List.mem_append] at hb
    rw [hself, ← hs']
    have hat := hM.points t
    cases hp : s.phase t with
    | allocating size use =>
      rcases hb with ⟨-, hret⟩ | hb
      · -- It is the last step of the call.
        have hidle : pc' = .idle := by
          by_contra hne
          rw [hnext.returned hne] at hret
          cases hret
        rw [Phase.after, if_pos hidle]
        exact Or.inr (Or.inl hret)
      · exact Or.inr (Or.inr ⟨hb, (Option.some_ne_none _).symm, Or.inl⟩)
    | freeing result =>
      rw [hp] at hat
      have hrequested : (s.machine.threads.point t).requested = none := hat.knows
      rcases hb with ⟨hsome, -⟩ | hb
      · rw [hrequested] at hsome
        cases hsome
      · exact Or.inr (Or.inr ⟨hb, (Option.some_ne_none _).symm, Or.inl⟩)
    | _ =>
      rw [hp] at hat
      exact absurd (hat.inHeap.mp rfl) hlegal.1

omit [DecidableEq T] in
/-- **A block comes from the hands of a thread to its client.** -/
theorem hand_over {p : ℕ} {use : Use} (hgot : s.phase t = .got size (some p) use)
    (hmapped : s'.core.Exact s'.large) (hphase : ∀ u, u ≠ t → s'.phase u = s.phase u)
    (hallocated : s'.allocated = s.allocated) (hp : (p, size) ∈ s'.live)
    (hothers : ∀ b ∈ s.live, b ∈ s'.live ∨ (s'.phase t).hidden = some b.1) : s'.Books := by
  obtain ⟨hhidden, -, hmem, -⟩ := hM.got_block hgot
  refine h.move t hmapped hphase fun b hb => ?_
  rw [hallocated] at hb
  by_cases heq : b.1 = p
  · obtain rfl : b = (p, size) := hM.eq_of_allocated hb hmem heq
    exact Or.inl hp
  · refine Or.inr (Or.inr ⟨hb, fun hc => heq ?_, hothers b⟩)
    rw [hhidden] at hc
    exact (Option.some.inj hc).symm

omit hM in
/-- **A request to `malloc`.** The block that `large_alloc` returns is in the hands of the
thread. -/
theorem request {i : ℕ} {use : Use} (hphase : s.phase t = .request i size use)
    (hover : maxBlockSize < size → mmap ≠ none → size + sizeofMmapHeader < 2 ^ 64)
    (hstep : s.next t mmap (.request i size use) = some s') : s'.Books := by
  have hhidden : (s.phase t).hidden = none := by
    rw [hphase]
    rfl
  simp only [Server.next] at hstep
  by_cases hzero : size = 0
  · rw [if_pos hzero] at hstep
    obtain rfl := Option.some.inj hstep
    exact h.keep t h.mapped (fun u hu => Function.update_of_ne hu ..) rfl rfl hhidden
  by_cases hsize : maxBlockSize < size
  · rw [if_neg hzero, if_pos hsize] at hstep
    obtain rfl := Option.some.inj hstep
    cases mmap with
    | none =>
      exact h.keep t (h.mapped.congr rfl rfl) (fun u hu => Function.update_of_ne hu ..) rfl rfl
        hhidden
    | some ptr =>
      have hlt := hover hsize (Option.some_ne_none ptr)
      refine h.move t (h.mapped.map ?_ rfl) (fun u hu => Function.update_of_ne hu ..) fun b hb => ?_
      · rw [← add64_eq hlt]
        rfl
      · have hne : (s.phase t).hidden ≠ some b.1 := hhidden ▸ (Option.some_ne_none _).symm
        rcases List.mem_append.mp hb with hsmall | hlarge
        · exact Or.inr (Or.inr ⟨List.mem_append_left _ hsmall, hne, Or.inl⟩)
        rcases List.mem_cons.mp hlarge with rfl | hlarge
        · refine Or.inr (Or.inl ?_)
          show (Function.update s.phase t _ t).hidden = _
          rw [Function.update_self]
          rfl
        · exact Or.inr (Or.inr ⟨List.mem_append_right _ hlarge, hne, Or.inl⟩)
  · rw [if_neg hzero, if_neg hsize] at hstep
    obtain rfl := Option.some.inj hstep
    exact h.keep t h.mapped (fun u hu => Function.update_of_ne hu ..) rfl rfl hhidden

/-- **A large block is remapped**, if the kernel has pages for it. -/
theorem remap (hphase : s.phase t = .remap ptr size)
    (hptr : ∀ newPtr ∈ mmap, MapsFresh s.core.mapped newPtr (pageUp (size + sizeofMmapHeader)))
    (hover : mmap ≠ none → size + sizeofMmapHeader < 2 ^ 64)
    (hstep : s.next t mmap (.remap ptr size) = some s') : s'.Books := by
  have hhidden : (s.phase t).hidden = none := by
    rw [hphase]
    rfl
  cases mmap with
  | none =>
    obtain rfl := Option.some.inj hstep
    exact h.keep t (h.mapped.congr rfl rfl) (fun u hu => Function.update_of_ne hu ..) rfl rfl
      hhidden
  | some newPtr =>
    obtain ⟨n, hn⟩ : ∃ n, (ptr, n) ∈ s.large := by
      have hat := hM.points t
      rw [hphase] at hat
      exact hat.knows.2
    have hlt := hover (Option.some_ne_none newPtr)
    have hpages := hptr newPtr rfl
    have hexact : d.core.Exact s.large := hM.core ▸ h.mapped
    obtain ⟨⟨result, c⟩, hc, hstep⟩ := Option.bind_eq_some_iff.mp hstep
    rw [hM.core] at hc hpages
    obtain ⟨rfl, -⟩ := Core.eq_of_largeRealloc (hM.hosts.block _ hn) hlt hc
    obtain rfl := Option.some.inj hstep
    refine h.freed (fun u hu => Function.update_of_ne hu ..)
      (hM.hosts.exact_largeRealloc hexact hn hlt hpages hc) (fun q hq => ?_) (fun b hb => ?_)
      fun b hb hne => List.mem_cons_of_mem _ (List.mem_filter.mpr ⟨hb, decide_eq_true hne⟩)
    · rw [hhidden] at hq
      cases hq
    · rcases List.mem_append.mp hb with hsmall | hlarge
      · refine Or.inr ⟨List.mem_append_left _ hsmall, fun heq => ?_⟩
        exact hM.hosts.ne_of_live (hM.machine.client b hsmall) hn heq
      rcases List.mem_cons.mp hlarge with rfl | hlarge
      · exact Or.inl (List.mem_cons_self ..)
      · obtain ⟨hlarge, hne⟩ := List.mem_filter.mp hlarge
        exact Or.inr ⟨List.mem_append_right _ hlarge, of_decide_eq_true hne⟩

/-- **`free`** of a block. -/
theorem release {result : Option ℕ} (hphase : s.phase t = .release ptr result)
    (hstep : s.next t mmap (.release ptr result) = some s') : s'.Books := by
  have hcore : (s.take ptr).core = s.core := rfl
  obtain ⟨⟨n, hn⟩, -, -⟩ := hM.release_block hphase
  have hfound := hM.isLargeAlloc_iff hn
  have hhidden : ∀ q, (s.phase t).hidden = some q → q = ptr := by
    intro q hq
    rw [hphase] at hq
    cases result with
    | none => cases hq
    | some p => exact (Option.some.inj hq).symm
  have hkept : ∀ b ∈ s.live, b.1 ≠ ptr → b ∈ (s.take ptr).live :=
    fun b hb hne => List.mem_filter.mpr ⟨hb, decide_eq_true hne⟩
  simp only [Server.next, hM.release_take hphase, hcore] at hstep
  by_cases hlarge : (ptr, n) ∈ s.large
  · rw [if_pos (hfound.mpr hlarge)] at hstep
    obtain rfl := Option.some.inj hstep
    have hblock : LargeBlock s.core (ptr, n) := hM.core ▸ hM.hosts.block _ hlarge
    have hfree := hblock.largeFree_eq
    have hexact : (s.core.largeFree ptr).Exact (s.large.filter fun b => b.1 ≠ ptr) :=
      h.mapped.unmap hblock hlarge hM.hosts.apart (by rw [hfree]) (by rw [hfree])
    refine h.freed (fun u hu => Function.update_of_ne hu ..) hexact hhidden (fun b hb => ?_) hkept
    rcases List.mem_append.mp hb with hsmall | hlarge'
    · refine Or.inr ⟨List.mem_append_left _ hsmall, fun heq => ?_⟩
      exact hM.hosts.ne_of_live (hM.machine.client b hsmall) hlarge heq
    · obtain ⟨hlarge', hne⟩ := List.mem_filter.mp hlarge'
      exact Or.inr ⟨List.mem_append_right _ hlarge', of_decide_eq_true hne⟩
  · rw [if_neg fun hc => hlarge (hfound.mp hc)] at hstep
    obtain rfl := Option.some.inj hstep
    have hsmall := (List.mem_append.mp hn).resolve_right hlarge
    refine h.freed (fun u hu => Function.update_of_ne hu ..) h.mapped hhidden (fun b hb => ?_)
      hkept
    rcases List.mem_append.mp hb with hb | hb
    · obtain ⟨hb, hne⟩ := List.mem_filter.mp hb
      exact Or.inr ⟨List.mem_append_left _ hb, of_decide_eq_true hne⟩
    · refine Or.inr ⟨List.mem_append_right _ hb, fun heq => ?_⟩
      exact hM.hosts.ne_of_live (hM.machine.client _ hsmall) hb heq.symm

/-- **A step in the body of a public function.** -/
theorem next (hlegal : s.Legal (.next t mmap)) (htame : s.Tame (.next t mmap))
    (hstep : s.step (.next t mmap) = some s') : s'.Books := by
  obtain ⟨hidle, hheap, hpromised⟩ := hlegal
  obtain ⟨hover, -⟩ := htame
  simp only [Server.step] at hstep
  cases hphase : s.phase t with
  | idle => exact absurd hphase hidle
  | request i size use =>
    rw [hphase] at hstep hover
    exact h.request hphase (fun hsize => hover size (if_pos hsize)) hstep
  | allocating size use =>
    rw [hphase] at hheap
    cases hheap
  | got size result use =>
    rw [hphase] at hstep
    cases result with
    | none =>
      have hhidden : (s.phase t).hidden = none := by
        rw [hphase]
        rfl
      cases use with
      | malloc =>
        obtain rfl := Option.some.inj hstep
        exact h.keep t h.mapped (fun u hu => Function.update_of_ne hu ..) rfl rfl hhidden
      | calloc =>
        obtain rfl := Option.some.inj hstep
        exact h.keep t h.mapped (fun u hu => Function.update_of_ne hu ..) rfl rfl hhidden
      | realloc ptr oldLarge =>
        obtain rfl := Option.some.inj hstep
        exact h.keep t h.mapped (fun u hu => Function.update_of_ne hu ..) rfl rfl hhidden
    | some p =>
      cases use with
      | malloc =>
        obtain rfl := Option.some.inj hstep
        exact h.hand_over hM hphase h.mapped (fun u hu => Function.update_of_ne hu ..) rfl
          (List.mem_cons_self ..) fun b hb => Or.inl (List.mem_cons_of_mem _ hb)
      | calloc =>
        obtain ⟨c, hset, hstep⟩ := Option.bind_eq_some_iff.mp hstep
        obtain rfl := Core.eq_of_memset hset
        obtain rfl := Option.some.inj hstep
        exact h.hand_over hM hphase (h.mapped.congr rfl rfl)
          (fun u hu => Function.update_of_ne hu ..) rfl
          (List.mem_cons_self ..) fun b hb => Or.inl (List.mem_cons_of_mem _ hb)
      | realloc ptr oldLarge =>
        obtain ⟨c, hcopy, hstep⟩ := Option.bind_eq_some_iff.mp hstep
        obtain rfl := Core.eq_of_memcpy hcopy
        obtain rfl := Option.some.inj hstep
        refine h.hand_over hM hphase (h.mapped.congr rfl rfl)
          (fun u hu => Function.update_of_ne hu ..) rfl (List.mem_cons_self ..) fun b hb => ?_
        by_cases hne : b.1 = ptr
        · refine Or.inr ?_
          show (Function.update s.phase t _ t).hidden = _
          rw [Function.update_self, hne]
          rfl
        · exact Or.inl (List.mem_cons_of_mem _ (List.mem_filter.mpr ⟨hb, decide_eq_true hne⟩))
  | remap ptr size =>
    rw [hphase] at hstep hover hpromised
    refine h.remap hM hphase (fun newPtr hnew => ?_) (hover size rfl) hstep
    have hlt := hover size rfl (hnew ▸ Option.some_ne_none newPtr)
    rw [← add64_eq hlt]
    exact hpromised size rfl newPtr hnew
  | release ptr result =>
    rw [hphase] at hstep
    exact h.release hM hphase hstep
  | freeing result =>
    rw [hphase] at hheap
    cases hheap

/-- **Every event keeps the books.** -/
theorem step {e : PublicEvent T} (hlegal : s.Legal e) (htame : s.Tame e)
    (hstep : s.step e = some s') : s'.Books := by
  cases e with
  | call t c =>
    obtain rfl := Option.some.inj hstep
    refine h.keep t h.mapped (fun u hu => Function.update_of_ne hu ..) rfl rfl ?_
    rw [hlegal.1]
    rfl
  | act t mmap => exact h.act hM hlegal htame hstep
  | next t mmap => exact h.next hM hlegal htame hstep
  | write ptr off bytes =>
    obtain rfl := Option.some.inj hstep
    exact ⟨h.mapped.congr rfl rfl, h.held⟩

end Books

end Server

/-- **Threads in the public functions lose nothing**, in whatever order they take their
steps, if they do none of what `MyMalloc.Server.Tame` excludes: what is mapped are the
superblocks and the pages of the large blocks; every block that is allocated is one that a
client sees, or one that a thread has in its hands; and when no thread is in a call, the
clients see all of them. -/
theorem public_threads_lose_nothing {T : Type} [DecidableEq T] {events : List (PublicEvent T)}
    (h : Always Server.step (fun s e => s.Legal e ∧ s.Tame e) {} events) :
    ∃ s, run Server.step {} events = some s ∧ s.core.Exact s.large ∧
      (∀ b ∈ s.allocated, b ∈ s.live ∨ ∃ t, (s.phase t).hidden = some b.1) ∧
      ((∀ t, s.phase t = .idle) → ∀ b, b ∈ s.allocated ↔ b ∈ s.live) := by
  have hrule : ∀ (s : Server T) e, (∃ d, s.Models d) ∧ s.Books → s.Legal e ∧ s.Tame e →
      ∃ s', s.step e = some s' ∧ (∃ d, s'.Models d) ∧ s'.Books := by
    rintro s e ⟨⟨d, hM⟩, hbooks⟩ ⟨hlegal, htame⟩
    obtain ⟨s', hs', hadv⟩ := hM.step hlegal htame
    exact ⟨s', hs', hadv.models, hbooks.step hM hlegal htame hs'⟩
  have hinitial : ({} : Server T).Books :=
    ⟨fun a => by simp [Server.core], fun b hb => absurd hb List.not_mem_nil⟩
  obtain ⟨s, hrun, ⟨d, hM⟩, hbooks⟩ := run_of_always hrule ⟨⟨_, Server.models_initial⟩, hinitial⟩ h
  refine ⟨s, hrun, hbooks.mapped, hbooks.held, fun hidle b => ⟨fun hb => ?_, hM.live b⟩⟩
  rcases hbooks.held b hb with hlive | ⟨t, ht⟩
  · exact hlive
  · rw [hidle t] at ht
    cases ht

/-- Two threads in `realloc` for which the kernel has no memory: one gets a null pointer for
its block, and the other one keeps it, which is large. -/
def bothFail : List (PublicEvent Bool) :=
  [.call true (.malloc 1 200000), .next true (some 4194304), .call false (.malloc 0 16),
    .next true none, .next false none, .act false none, .act false none, .act false none,
    .act false none, .act false none, .act false (some 1048576), .act false none, .act false none,
    .act false none, .next false none, .call false (.realloc 0 (some 1048704) 40),
    .call true (.realloc 1 (some 4194320) 300000), .next false none, .act false none,
    .act false none, .act false none, .act false none, .next true none, .act false none,
    .act false none, .act false none, .next false none, .next false none, .act false none,
    .act false none, .act false none, .act false none, .act false none, .act false none]

/-- One block is left, and the pages of the other are a superblock's. -/
theorem public_threads_lose_nothing_failed : ∃ s, run Server.step {} bothFail = some s ∧
    s.core.Exact [(4194320, 200000)] ∧ ∀ b, b ∈ s.allocated ↔ b ∈ [(4194320, 200000)] := by
  obtain ⟨s, hrun, hexact, -, hrest⟩ := public_threads_lose_nothing
    (show Always Server.step (fun s e => s.Legal e ∧ s.Tame e) {} bothFail by decide +kernel)
  have hfacts : (run Server.step {} bothFail).map
      (fun s => (s.large, s.live, s.phase true, s.phase false)) =
      some ([(4194320, 200000)], [(4194320, 200000)], .idle, .idle) := by
    decide +kernel
  rw [hrun, Option.map_some, Option.some_inj] at hfacts
  obtain ⟨hlarge, hlive, htrue, hfalse⟩ : s.large = [(4194320, 200000)] ∧
      s.live = [(4194320, 200000)] ∧ s.phase true = .idle ∧ s.phase false = .idle := by
    simpa using hfacts
  refine ⟨s, hrun, hlarge ▸ hexact, hlive ▸ hrest fun t => ?_⟩
  cases t with
  | true => exact htrue
  | false => exact hfalse

end MyMalloc
