import MyMalloc.PublicThreads
import MyMalloc.Hosting

/-!
# Whose blocks are whose

The invariant of the executions with threads in the public functions
(`MyMalloc.Server.Models`). A block that is allocated is one that the clients see, or one
that a thread has (`MyMalloc.Phase.hidden`). A block that a function of a thread works on
is the client's still (`MyMalloc.Phase.busy`), and no two threads share a block. So what a
thread does with its blocks leaves to the others what they rely on
(`MyMalloc.Server.At.frame`).

This file has the calls and the steps within `heap_alloc` and `heap_free`.
-/

namespace MyMalloc

open Locking AddressSpace Depot

/-- **What is written outside the headers is of no concern to the threads.** -/
theorem Machine.Models.setCore {T : Type} {m : Machine T} {d : Depot} (h : m.Models d) {c : Core}
    (hheader : c.header = d.core.header) (hd : (d.setCore c).Inv) :
    (m.setCore c).Models (d.setCore c) := by
  refine ⟨⟨rfl, h.refines.represents.setCore _⟩, hd, h.consistent, fun t => ?_, h.apart,
    h.transit, h.client, h.clientBlock⟩
  obtain ⟨hhand, hblock, hknows⟩ := h.points t
  refine ⟨hhand, hblock, ?_⟩
  show (d.setCore c).Knows (m.threads.point t)
  cases hpc : m.threads.point t <;> rw [hpc] at hknows <;>
    simp only [Depot.Knows, Depot.Suits, Depot.setCore, hheader] at hknows ⊢ <;> exact hknows

/-- What `heap_alloc` returns at its end. -/
theorem Pc.eq_of_returned {pc : Pc} {p : ℕ} (h : pc.returned = some p) :
    ∃ i size, pc = .allocUnlock i size (some p) := by
  cases pc with
  | allocUnlock i size retPtr =>
    obtain rfl : retPtr = some p := h
    exact ⟨i, size, rfl⟩
  | _ => cases h

/-- The blocks the clients own after a step. -/
theorem Machine.mem_liveAfter {live : List (ℕ × ℕ)} {requested returned : Option ℕ} {q n : ℕ} :
    (q, n) ∈ liveAfter live requested returned ↔
      requested = some n ∧ returned = some q ∨ (q, n) ∈ live := by
  cases requested <;> cases returned <;> simp [liveAfter, eq_comm, and_comm]

/-- **Where a call starts**: with the block that is given to it, and none of its own. -/
theorem Core.startPublic_frame (c : Core) (call : PublicCall) :
    (c.startPublic call).inHeap = false ∧ (c.startPublic call).hidden = none ∧
      ∀ q, (c.startPublic call).busy = some q → call.ptr = some q := by
  cases call with
  | malloc i size => exact ⟨rfl, rfl, by simp [startPublic, Phase.busy, Use.old]⟩
  | calloc i nmemb size =>
    simp only [startPublic]
    split
    · exact ⟨rfl, rfl, by simp [Phase.busy]⟩
    split
    · exact ⟨rfl, rfl, by simp [Phase.busy]⟩
    · exact ⟨rfl, rfl, by simp [Phase.busy, Use.old]⟩
  | realloc i ptr size =>
    cases ptr with
    | none => exact ⟨rfl, rfl, by simp [startPublic, Phase.busy]⟩
    | some ptr =>
      simp only [startPublic]
      split
      · exact ⟨rfl, rfl, fun q hq => hq⟩
      split
      · exact ⟨rfl, rfl, fun q hq => hq⟩
      · exact ⟨rfl, rfl, fun q hq => hq⟩
  | free ptr =>
    cases ptr with
    | none => exact ⟨rfl, rfl, by simp [startPublic, Phase.busy]⟩
    | some ptr => exact ⟨rfl, rfl, fun q hq => hq⟩

/-- A block that a thread has, or that its function works on. -/
def Phase.Has (p : Phase) (q : ℕ) : Prop := p.hidden = some q ∨ p.busy = some q

/-- A thread that returns from `heap_alloc` or `heap_free` has come by a block at most. -/
theorem Phase.has_after {p : Phase} {pc pc' : Pc} {q : ℕ} (h : (p.after pc pc').Has q) :
    p.Has q ∨ pc.returned = some q := by
  cases p with
  | allocating size use =>
    simp only [after] at h
    split at h
    · exact h.symm.imp_left Or.inr
    · exact Or.inl h
  | freeing result =>
    simp only [after] at h
    split at h
    · rcases h with h | h <;> cases h
    · exact Or.inl h
  | _ => exact Or.inl h

namespace Server

variable {T : Type} {s s' : Server T} {d d' : Depot} {t u : T} {pc pc' : Pc} {p : Phase} {q : ℕ}
  {b b' : ℕ × ℕ} {size : ℕ} {use : Use}

/-! ### What a thread relies on -/

/-- The blocks that have been allocated and not freed. -/
def allocated (s : Server T) : List (ℕ × ℕ) := s.machine.live ++ s.large

/-- What `realloc` knows of the block it copies. If that is large, the new one is small. -/
def Suits (s : Server T) (size : ℕ) : Use → Prop
  | .realloc ptr oldLarge => (oldLarge = true ↔ ∃ n, (ptr, n) ∈ s.large) ∧
      (oldLarge = true → size ≤ maxBlockSize)
  | _ => True

/-- **What a thread has made sure of** in its public function. -/
def Knows (s : Server T) (pc : Pc) : Phase → Prop
  | .request _ size use => s.Suits size use
  | .allocating size use => pc.requested = some size ∧ s.Suits size use
  | .got size result use => (∀ p, result = some p → (p, size) ∈ s.allocated) ∧ s.Suits size use
  | .remap ptr size => maxBlockSize < size ∧ ∃ n, (ptr, n) ∈ s.large
  | .freeing _ => pc.requested = none
  | _ => True

/-- **What a thread relies on** in its public function. -/
structure At (s : Server T) (pc : Pc) (p : Phase) : Prop where
  inHeap : p.inHeap = false ↔ pc = .idle
  /-- What it has is allocated, and no client sees it. -/
  hidden : ∀ q, p.hidden = some q → (∃ n, (q, n) ∈ s.allocated) ∧ ∀ n, (q, n) ∉ s.live
  busy : ∀ q, p.busy = some q → ∃ n, (q, n) ∈ s.live
  knows : s.Knows pc p

/-- Nothing has happened to a block. -/
structure Same (s s' : Server T) (q : ℕ) : Prop where
  allocated : ∀ n, (q, n) ∈ s'.allocated ↔ (q, n) ∈ s.allocated
  large : ∀ n, (q, n) ∈ s'.large ↔ (q, n) ∈ s.large
  live : ∀ n, (q, n) ∈ s'.live ↔ (q, n) ∈ s.live

theorem Same.of_lists (hmachine : s'.machine.live = s.machine.live) (hlarge : s'.large = s.large)
    (hlive : s'.live = s.live) : s.Same s' q :=
  ⟨fun n => by rw [Server.allocated, Server.allocated, hmachine, hlarge], fun n => by rw [hlarge],
    fun n => by rw [hlive]⟩

theorem Suits.frame (h : s.Suits size use) (hsame : ∀ q, use.old = some q → s.Same s' q) :
    s'.Suits size use := by
  cases use with
  | realloc ptr oldLarge =>
    have hlarge := (hsame ptr rfl).large
    exact ⟨h.1.trans (exists_congr fun n => (hlarge n).symm), h.2⟩
  | _ => trivial

/-- **A thread relies on its own blocks only.** -/
theorem At.frame (h : s.At pc p) (hsame : ∀ q, p.Has q → s.Same s' q) : s'.At pc p where
  inHeap := h.inHeap
  hidden q hq := by
    have hs := hsame q (Or.inl hq)
    obtain ⟨⟨n, hn⟩, hnot⟩ := h.hidden q hq
    exact ⟨⟨n, (hs.allocated n).mpr hn⟩, fun n hn => hnot n ((hs.live n).mp hn)⟩
  busy q hq := by
    obtain ⟨n, hn⟩ := h.busy q hq
    exact ⟨n, ((hsame q (Or.inr hq)).live n).mpr hn⟩
  knows := by
    have hknows := h.knows
    cases p with
    | request i size use => exact Suits.frame hknows fun q hq => hsame q (Or.inr hq)
    | allocating size use => exact ⟨hknows.1, hknows.2.frame fun q hq => hsame q (Or.inr hq)⟩
    | got size result use =>
      refine ⟨fun q hq => ?_, hknows.2.frame fun q hq => hsame q (Or.inr hq)⟩
      exact ((hsame q (Or.inl hq)).allocated size).mpr (hknows.1 q hq)
    | remap ptr size =>
      exact ⟨hknows.1, hknows.2.imp fun n hn => ((hsame ptr (Or.inr rfl)).large n).mpr hn⟩
    | _ => exact hknows

/-! ### The invariant -/

/-- **The depot models the allocator with its threads**: the machine and the large blocks
are as they should be, the clients see blocks that are allocated, and the threads share
none. -/
structure Models (s : Server T) (d : Depot) : Prop where
  machine : s.machine.Models d
  hosts : d.Hosts s.large
  size : ∀ b ∈ s.large, maxBlockSize < b.2
  live : ∀ b ∈ s.live, b ∈ s.allocated
  nodup : (s.live.map Prod.fst).Nodup
  points : ∀ t, s.At (s.machine.threads.point t) (s.phase t)
  apart : ∀ t u, t ≠ u → ∀ q, (s.phase t).Has q → ¬(s.phase u).Has q

namespace Models

theorem core (h : s.Models d) : s.core = d.core := h.machine.refines.core

/-- A block that is allocated is one of the depot. -/
theorem allocated (h : s.Models d) (hb : b ∈ s.allocated) : b ∈ d.live ++ s.large :=
  List.mem_append.mpr ((List.mem_append.mp hb).imp_left (h.machine.client b))

/-- No two blocks that are allocated have one address. -/
theorem eq_of_allocated (h : s.Models d) (hb : b ∈ s.allocated) (hb' : b' ∈ s.allocated)
    (heq : b.1 = b'.1) : b = b' :=
  List.inj_on_of_nodup_map h.hosts.nodup (h.allocated hb) (h.allocated hb') heq

/-- A block is large if a large one has its address. -/
theorem large_iff (h : s.Models d) (hb : b ∈ s.allocated) :
    (∃ n, (b.1, n) ∈ s.large) ↔ b ∈ s.large := by
  refine ⟨fun ⟨n, hn⟩ => ?_, fun hb => ⟨b.2, hb⟩⟩
  rwa [h.eq_of_allocated hb (List.mem_append_right _ hn) rfl]

/-- **`is_large_alloc` is right** about every block that is allocated. -/
theorem isLargeAlloc_iff (h : s.Models d) (hb : b ∈ s.allocated) :
    s.core.isLargeAlloc b.1 = true ↔ b ∈ s.large := by
  rw [h.core]
  rcases List.mem_append.mp hb with hsmall | hlarge
  · have hlive := h.machine.client b hsmall
    rw [h.hosts.isLargeAlloc_live hlive]
    exact ⟨fun hc => absurd hc Bool.false_ne_true,
      fun hc => absurd rfl (h.hosts.ne_of_live hlive hc)⟩
  · exact ⟨fun _ => hlarge, fun _ => h.hosts.isLargeAlloc_large hlarge⟩

/-- What a thread has or works on is allocated. -/
theorem allocated_of_has (h : s.Models d) (hq : (s.phase t).Has q) : ∃ n, (q, n) ∈ s.allocated := by
  rcases hq with hq | hq
  · exact ((h.points t).hidden q hq).1
  · obtain ⟨n, hn⟩ := (h.points t).busy q hq
    exact ⟨n, h.live _ hn⟩

/-- **A thread moves on** and does nothing to the blocks of the others. -/
theorem move (h : s.Models d) (t : T) (hmachine : s'.machine.Models d')
    (hhosts : d'.Hosts s'.large) (hsize : ∀ b ∈ s'.large, maxBlockSize < b.2)
    (hlive : ∀ b ∈ s'.live, b ∈ s'.allocated) (hnodup : (s'.live.map Prod.fst).Nodup)
    (hphase : ∀ u, u ≠ t → s'.phase u = s.phase u)
    (hpoint : ∀ u, u ≠ t → s'.machine.threads.point u = s.machine.threads.point u)
    (hat : s'.At (s'.machine.threads.point t) (s'.phase t))
    (hsame : ∀ u, u ≠ t → ∀ q, (s.phase u).Has q → s.Same s' q)
    (hhas : ∀ u, u ≠ t → ∀ q, (s'.phase t).Has q → ¬(s.phase u).Has q) : s'.Models d' := by
  refine ⟨hmachine, hhosts, hsize, hlive, hnodup, fun u => ?_, fun u v huv q hu hv => ?_⟩
  · by_cases hut : u = t
    · exact hut ▸ hat
    · rw [hphase u hut, hpoint u hut]
      exact (h.points u).frame (hsame u hut)
  · by_cases hut : u = t
    · have hvt : v ≠ t := fun hc => huv (hut.trans hc.symm)
      rw [hphase v hvt] at hv
      exact hhas v hvt q (hut ▸ hu) hv
    · rw [hphase u hut] at hu
      by_cases hvt : v = t
      · exact hhas u hut q (hvt ▸ hv) hu
      · rw [hphase v hvt] at hv
        exact h.apart u v huv q hu hv

/-! ### Calls -/

/-- A call knows whether the block that is given to it is large. -/
theorem knows_startPublic (h : s.Models d) {c : PublicCall}
    (hptr : ∀ ptr ∈ c.ptr, ∃ b ∈ s.live, b.1 = ptr) : s.Knows pc (s.core.startPublic c) := by
  cases c with
  | malloc => trivial
  | calloc i nmemb size =>
    simp only [Core.startPublic]
    split
    · trivial
    split <;> trivial
  | realloc i ptr size =>
    cases ptr with
    | none => trivial
    | some ptr =>
      obtain ⟨b, hb, rfl⟩ := hptr ptr rfl
      have hb := h.live b hb
      have hlarge : s.core.isLargeAlloc b.1 = true ↔ ∃ n, (b.1, n) ∈ s.large :=
        (h.isLargeAlloc_iff hb).trans (h.large_iff hb).symm
      simp only [Core.startPublic]
      split
      · trivial
      split
      · rename_i hboth
        obtain ⟨hold, hnew⟩ := Bool.and_eq_true_iff.mp hboth
        exact ⟨of_decide_eq_true hnew, hlarge.mp hold⟩
      · rename_i hnot
        refine ⟨hlarge, fun hold => Nat.le_of_not_lt fun hnew => hnot ?_⟩
        rw [hold, decide_eq_true hnew, Bool.and_self]
  | free ptr => cases ptr <;> trivial

variable [DecidableEq T]

/-- **A call** starts with what its client promises. -/
theorem call (h : s.Models d) {c : PublicCall} (hlegal : s.Legal (.call t c)) :
    (s.moveTo t (s.core.startPublic c)).Models d := by
  obtain ⟨hidle, hptr⟩ := hlegal
  obtain ⟨hin, hhidden, hbusy⟩ := s.core.startPublic_frame c
  have hself : (s.moveTo t (s.core.startPublic c)).phase t = s.core.startPublic c :=
    Function.update_self ..
  have hpoint : s.machine.threads.point t = .idle :=
    (h.points t).inHeap.mp (by rw [hidle]; rfl)
  refine h.move t h.machine h.hosts h.size h.live h.nodup
    (fun u hu => Function.update_of_ne hu ..) (fun _ _ => rfl) ?_
    (fun _ _ _ _ => .of_lists rfl rfl rfl) fun u hu q hq hu' => ?_
  · rw [hself]
    refine ⟨⟨fun _ => hpoint, fun _ => hin⟩, fun q hq => ?_, fun q hq => ?_,
      h.knows_startPublic fun ptr hp => (hptr ptr hp).1⟩
    · rw [hhidden] at hq
      cases hq
    · obtain ⟨b, hb, rfl⟩ := (hptr q (hbusy q hq)).1
      exact ⟨b.2, hb⟩
  · -- The client sees the block, and no other call works on it.
    rw [hself, Phase.Has, hhidden] at hq
    obtain ⟨⟨b, hb, rfl⟩, hunused⟩ :=
      hptr q (hbusy q (hq.resolve_left (Option.some_ne_none q).symm))
    rcases hu' with hu' | hu'
    · exact ((h.points u).hidden _ hu').2 b.2 hb
    · exact hunused u hu'

/-! ### Steps in the small allocator -/

omit [DecidableEq T] in
/-- A block that `heap_alloc` returns has not been allocated before. -/
theorem not_allocated (h : s.Models d) (hret : (s.machine.threads.point t).returned = some q)
    (n : ℕ) : (q, n) ∉ s.allocated := by
  obtain ⟨i, size, hpc⟩ := Pc.eq_of_returned hret
  have hblock : (s.machine.threads.point t).block = some q := by
    rw [hpc]
    rfl
  intro hq
  rcases List.mem_append.mp hq with hq | hq
  · exact h.machine.clientBlock t _ hq hblock
  · obtain ⟨n', hn'⟩ := (h.machine.points t).block q hblock
    exact h.hosts.ne_of_live hn' hq rfl

omit [DecidableEq T] in
/-- **Where a thread is after a step** in `heap_alloc` or `heap_free`. -/
theorem at_after (h : s.Models d) {a : Action Mutex} (hpc : s.machine.threads.point t ≠ .idle)
    (hnext : (s.machine.threads.point t).Next a pc')
    (hmem : ∀ q n, (q, n) ∈ s'.allocated ↔ (s.machine.threads.point t).requested = some n ∧
      (s.machine.threads.point t).returned = some q ∨ (q, n) ∈ s.allocated)
    (hlarge : s'.large = s.large) (hlive : s'.live = s.live) :
    s'.At pc' ((s.phase t).after (s.machine.threads.point t) pc') := by
  have hat := h.points t
  have hsame : ∀ q, (s.phase t).Has q → s.Same s' q := by
    intro q hq
    obtain ⟨n, hn⟩ := h.allocated_of_has hq
    have hne : (s.machine.threads.point t).returned ≠ some q :=
      fun hc => h.not_allocated hc n hn
    refine ⟨fun n => ?_, fun n => by rw [hlarge], fun n => by rw [hlive]⟩
    rw [hmem, or_iff_right fun hc => hne hc.2]
  cases hp : s.phase t with
  | allocating size use =>
    rw [hp] at hat hsame
    obtain ⟨hrequested, hsuits⟩ := hat.knows
    have hsuits : s'.Suits size use := hsuits.frame fun q hq => hsame q (Or.inr hq)
    have hbusy : ∀ q, use.old = some q → ∃ n, (q, n) ∈ s'.live := (hat.frame hsame).busy
    simp only [Phase.after]
    split
    · rename_i hidle
      refine ⟨⟨fun _ => hidle, fun _ => rfl⟩, fun q hq => ?_, hbusy, fun q hq => ?_, hsuits⟩
      · refine ⟨⟨size, (hmem q size).mpr (Or.inl ⟨hrequested, hq⟩)⟩, fun n hn => ?_⟩
        exact h.not_allocated hq n (h.live _ (hlive ▸ hn))
      · exact (hmem q size).mpr (Or.inl ⟨hrequested, hq⟩)
    · rename_i hidle
      refine ⟨⟨fun hc => ?_, fun hc => absurd hc hidle⟩, (hat.frame hsame).hidden, hbusy, ?_,
        hsuits⟩
      · cases hc
      · rw [hnext.requested hidle]
        exact hrequested
  | freeing result =>
    rw [hp] at hat hsame
    have hrequested : (s.machine.threads.point t).requested = none := hat.knows
    simp only [Phase.after]
    split
    · rename_i hidle
      refine ⟨⟨fun _ => hidle, fun _ => rfl⟩, fun q hq => ?_, fun q hq => ?_, trivial⟩
      · cases hq
      · cases hq
    · rename_i hidle
      refine ⟨⟨fun hc => ?_, fun hc => absurd hc hidle⟩, (hat.frame hsame).hidden,
        (hat.frame hsame).busy, (hnext.requested hidle).trans hrequested⟩
      cases hc
  | _ =>
    rw [hp] at hat
    exact absurd (hat.inHeap.mp rfl) hpc

/-- **A step in the small allocator** keeps the invariant, and the clients see nothing
of it. -/
theorem act (h : s.Models d) {mmap : Option ℕ} (hlegal : s.Legal (.act t mmap))
    (htame : s.Tame (.act t mmap)) :
    ∃ s', s.step (.act t mmap) = some s' ∧ (∃ d', s'.Models d') ∧ s'.blocks = s.blocks := by
  obtain ⟨pc', s₁, d', hadv, hM', hstep, -⟩ := h.machine.takes hlegal htame.1 htame.2
  have hfrees : ∀ ptr, (s.machine.threads.point t).frees = some ptr → ∃ n, (ptr, n) ∈ d.live :=
    fun ptr hptr => (h.machine.points t).block ptr (Pc.block_of_frees hptr)
  have hhosts := h.hosts.threadStep hstep hM'.inv hfrees
  have hself := s.machine.threads.move_self t (s.machine.threads.point t).action pc'
  obtain ⟨s', hs'⟩ : ∃ s', s' = Server.mk
      ⟨s₁, s.machine.threads.move t (s.machine.threads.point t).action pc',
        s.machine.liveAfterAct (s.machine.threads.point t)⟩ s.large
      (Function.update s.phase t ((s.phase t).after (s.machine.threads.point t) pc')) s.live :=
    ⟨_, rfl⟩
  have hphase : s'.phase t = (s.phase t).after (s.machine.threads.point t) pc' := by
    rw [hs']
    exact Function.update_self ..
  have hlive : s'.live = s.live := by rw [hs']
  have hmem : ∀ q n, (q, n) ∈ s'.allocated ↔ (s.machine.threads.point t).requested = some n ∧
      (s.machine.threads.point t).returned = some q ∨ (q, n) ∈ s.allocated := by
    intro q n
    rw [hs', Server.allocated, Server.allocated, List.mem_append, List.mem_append,
      Machine.liveAfterAct_eq, Machine.mem_liveAfter, or_assoc]
  refine ⟨s', ?_, ⟨d', ?_⟩, ?_⟩
  · rw [hs', Server.step, Machine.step_act hadv]
    simp only [Option.bind_eq_bind, Option.bind_some, hself]
    rfl
  · refine h.move t (hs' ▸ hM') (hs' ▸ hhosts) (hs' ▸ h.size) (fun b hb => ?_) (hs' ▸ h.nodup)
      (fun u hu => hs' ▸ Function.update_of_ne hu ..)
      (fun u hu => hs' ▸ s.machine.threads.move_of_ne hu ..) ?_ (fun u hu q hq => ?_)
      fun u hu q hq hu' => ?_
    · exact (hmem b.1 b.2).mpr (Or.inr (h.live b (hlive ▸ hb)))
    · have hpoint : s'.machine.threads.point t = pc' := by
        rw [hs']
        exact hself
      rw [hphase, hpoint]
      exact h.at_after hlegal.1 (State.advance_next hadv) hmem (by rw [hs']) hlive
    · obtain ⟨n, hn⟩ := h.allocated_of_has hq
      refine ⟨fun n => ?_, fun n => by rw [hs'], fun n => by rw [hlive]⟩
      rw [hmem, or_iff_right fun hc => h.not_allocated hc.2 _ hn]
    · rcases Phase.has_after (hphase ▸ hq) with hold | hret
      · exact h.apart t u hu.symm q hold hu'
      · obtain ⟨n, hn⟩ := h.allocated_of_has hu'
        exact h.not_allocated hret n hn
  · -- No block that a client sees is freed meanwhile.
    have hcore : s'.core = d'.core := by
      rw [hs']
      exact hM'.refines.core
    rw [blocks, blocks, hlive, hcore, h.core]
    refine BlockStore.view_congr fun b hb => ?_
    refine h.hosts.threadStep_load hstep hfrees (h.allocated (h.live b hb)) fun hc => ?_
    have hblock := Pc.block_of_frees hc
    rcases List.mem_append.mp (h.live b hb) with hb | hb
    · exact h.machine.clientBlock t b hb hblock
    · obtain ⟨n, hn⟩ := hfrees b.1 hc
      exact h.hosts.ne_of_live hn hb rfl

end Models

end Server

end MyMalloc
