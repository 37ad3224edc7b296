import MyMalloc.PublicOwnership

/-!
# What the blocks of threads in the public functions hold

The public functions, called by any number of threads and interleaved in any way, are a
store of blocks to their clients (`MyMalloc.public_threads_refine_store`). A block comes to
the store when the function that allocates it is about to return, with `calloc` after it
has been cleared, and leaves it when `free` is called. With `realloc` the new block takes
the place of the old one when it has been copied, and with `large_realloc` when that
returns.
-/

namespace MyMalloc

open Trace BlockStore AddressSpace ByteMemory Depot

namespace Server

variable {T : Type} {s s' : Server T} {d d' : Depot} {t u : T} {pc : Pc} {p q size n : ℕ}
  {b b' : ℕ × ℕ} {ptr : ℕ}

/-- **What a step comes to**: a state of executions, by an action on the blocks. -/
structure Advances (s : Server T) (a : Option (BlockStore.Action UInt8)) (s' : Server T) :
    Prop where
  models : ∃ d, s'.Models d
  path : Path (BlockStore.Step 16) s.blocks a.toList s'.blocks

/-- An event that the clients see nothing of. -/
theorem Advances.silent (hM : ∃ d, s'.Models d) (hblocks : s'.blocks = s.blocks) :
    s.Advances none s' :=
  ⟨hM, hblocks ▸ .nil _⟩

theorem at_idle (hpc : pc = .idle) : s.At pc .idle where
  inHeap := ⟨fun _ => hpc, fun _ => rfl⟩
  hidden q hq := by cases hq
  busy q hq := by cases hq
  knows := trivial

namespace Models

/-! ### The blocks of the clients -/

/-- What a block of a client holds. -/
theorem blocks_of_mem (h : s.Models d) (hb : b ∈ s.live) :
    s.blocks b.1 = some (load s.core.mem b.1 b.2) :=
  view_of_mem h.nodup hb

theorem separated (h : s.Models d) : Separated 16 s.blocks := by
  rw [blocks, h.core]
  exact h.hosts.separated fun b hb => h.allocated (h.live b hb)

/-- **A block that a thread has** may come to its client. -/
theorem fresh (h : s.Models d) (hp : (p, n) ∈ s.allocated) (hnew : ∀ n, (p, n) ∉ s.live) :
    Fresh 16 s.blocks p n := by
  rw [blocks, h.core]
  exact h.hosts.fresh (fun b hb => h.allocated (h.live b hb)) (h.allocated hp)
    fun b hb hc => hnew b.2 (hc ▸ hb)

/-- The blocks of the small allocator are small. -/
theorem small_le (h : s.Models d) (hb : b ∈ s.machine.live) : b.2 ≤ maxBlockSize := by
  obtain ⟨hsb, hle⟩ := h.machine.inv.live_known b (h.machine.client b hb)
  obtain ⟨k, hk, hsize⟩ := (h.machine.inv.carved _ hsb).isClass
  exact hle.trans (hsize ▸ idx2class_le hk)

/-! ### The memory -/

/-- **The memory or the mappings change**, and the large blocks are what they were. -/
theorem setCore (h : s.Models d) {c : Core} (hheader : c.header = d.core.header)
    (hhosts : (d.setCore c).Hosts s.large) : (s.setCore c).Models (d.setCore c) where
  machine := h.machine.setCore hheader hhosts.inv
  hosts := hhosts
  size := h.size
  live := h.live
  nodup := h.nodup
  points t := (h.points t).frame fun _ _ => .of_lists rfl rfl rfl
  apart := h.apart

/-- The blocks that are allocated are mapped. -/
theorem spans (h : s.Models d) (hb : b ∈ s.allocated) : Spans s.core.mapped b := by
  rw [h.core]
  exact h.hosts.spans (h.allocated hb)

/-- A copy is recorded. -/
theorem record (h : s.Models d) (copies : List Region) :
    (s.setCore { s.core with copies := copies }).Models
      (d.setCore { d.core with copies := copies }) := by
  rw [h.core]
  exact h.setCore rfl (h.hosts.record copies)

/-- **A block is written**, and no mark into a small one. -/
theorem overwrite (h : s.Models d) (hb : b ∈ s.allocated) {mem : ByteMemory.Mem}
    (hout : ∀ i, i < b.1 ∨ b.1 + b.2 ≤ i → mem i = s.core.mem i)
    (hmark : b ∈ s.machine.live → Core.NoMark { s.core with mem := mem } b.1 b.2) :
    (∃ d', (s.setCore { s.core with mem := mem }).Models d') ∧
      ∀ b' ∈ s.live, b'.1 ≠ b.1 → load mem b'.1 b'.2 = load s.core.mem b'.1 b'.2 := by
  have hblock := h.allocated hb
  rw [h.core] at hout hmark ⊢
  have hhosts : (d.setCore { d.core with mem := mem }).Hosts s.large := by
    refine h.hosts.overwrite hblock hout fun hlive => hmark ?_
    refine (List.mem_append.mp hb).resolve_right fun hlarge => ?_
    exact h.hosts.ne_of_live hlive hlarge rfl
  exact ⟨⟨_, h.setCore rfl hhosts⟩, fun b' hb' hne =>
    h.hosts.load_eq_of_ne hblock hout (h.allocated (h.live b' hb')) hne⟩

/-- **A block that a thread has is written**, and no client sees it. -/
theorem overwrite_hidden (h : s.Models d) (hp : (p, n) ∈ s.allocated)
    (hnew : ∀ n, (p, n) ∉ s.live) {mem : ByteMemory.Mem}
    (hout : ∀ i, i < p ∨ p + n ≤ i → mem i = s.core.mem i)
    (hmark : n ≤ maxBlockSize → Core.NoMark { s.core with mem := mem } p n) :
    (∃ d', (s.setCore { s.core with mem := mem }).Models d') ∧ view mem s.live = s.blocks := by
  obtain ⟨hM, hload⟩ := h.overwrite hp hout fun hsmall => hmark (h.small_le hsmall)
  exact ⟨hM, view_congr fun b hb => hload b hb fun hc : b.1 = p => hnew b.2 (hc ▸ hb)⟩

/-! ### The threads -/

variable [DecidableEq T]

/-- **A thread goes on** with the blocks it has. -/
theorem moveTo (h : s.Models d) {p' : Phase} (hat : s.At (s.machine.threads.point t) p')
    (hhas : ∀ q, p'.Has q → (s.phase t).Has q) : (s.moveTo t p').Models d := by
  have hself : (s.moveTo t p').phase t = p' := Function.update_self ..
  refine h.move t h.machine h.hosts h.size h.live h.nodup
    (fun u hu => Function.update_of_ne hu ..) (fun _ _ => rfl) ?_
    (fun _ _ _ _ => .of_lists rfl rfl rfl) fun u hu q hq => ?_
  · rw [hself]
    exact hat.frame fun _ _ => .of_lists rfl rfl rfl
  · exact h.apart t u hu.symm q (hhas q (hself ▸ hq))

/-- **A client gets a block** that its thread has. -/
theorem give (h : s.Models d) (hhidden : (s.phase t).hidden = some p)
    (hp : (p, size) ∈ s.allocated) (hheap : (s.phase t).inHeap = false) :
    ((s.give p size).moveTo t .idle).Models d := by
  have hnew := ((h.points t).hidden p hhidden).2
  have hself : ((s.give p size).moveTo t .idle).phase t = .idle := Function.update_self ..
  refine h.move t h.machine h.hosts h.size (List.forall_mem_cons.mpr ⟨hp, h.live⟩)
    (List.nodup_cons.mpr ⟨fun hc => ?_, h.nodup⟩) (fun u hu => Function.update_of_ne hu ..)
    (fun _ _ => rfl) ?_ (fun u hu q hq => ?_) fun u hu q hq => ?_
  · obtain ⟨b, hb, rfl⟩ := List.mem_map.mp hc
    exact hnew b.2 hb
  · rw [hself]
    exact at_idle ((h.points t).inHeap.mp hheap)
  · have hne : q ≠ p := fun hc => h.apart t u hu.symm p (Or.inl hhidden) (hc ▸ hq)
    refine ⟨fun _ => Iff.rfl, fun _ => Iff.rfl, fun n => ?_⟩
    simp [Server.moveTo, Server.give, hne]
  · rw [hself] at hq
    rcases hq with hq | hq <;> cases hq

/-- **A client gets another block** for the one that it has given to `realloc`. -/
theorem exchange (h : s.Models d) (hhidden : (s.phase t).hidden = some p)
    (hbusy : (s.phase t).busy = some ptr) (hp : (p, size) ∈ s.allocated)
    (hheap : (s.phase t).inHeap = false) :
    (((s.take ptr).give p size).moveTo t (.release ptr (some p))).Models d := by
  have hnew := ((h.points t).hidden p hhidden).2
  obtain ⟨n, hn⟩ := (h.points t).busy ptr hbusy
  have hself : (((s.take ptr).give p size).moveTo t (.release ptr (some p))).phase t =
      .release ptr (some p) := Function.update_self ..
  refine h.move t h.machine h.hosts h.size
    (List.forall_mem_cons.mpr ⟨hp, fun b hb => h.live b (List.mem_of_mem_filter hb)⟩)
    (List.nodup_cons.mpr ⟨fun hc => ?_, h.nodup.sublist (List.filter_sublist.map Prod.fst)⟩)
    (fun u hu => Function.update_of_ne hu ..) (fun _ _ => rfl) ?_ (fun u hu q hq => ?_)
    fun u hu q hq => ?_
  · obtain ⟨b, hb, rfl⟩ := List.mem_map.mp hc
    exact hnew b.2 (List.mem_of_mem_filter hb)
  · rw [hself]
    refine ⟨⟨fun _ => (h.points t).inHeap.mp hheap, fun _ => rfl⟩, fun q hq => ?_, fun q hq => ?_,
      trivial⟩
    · obtain rfl := Option.some.inj hq
      refine ⟨⟨n, h.live _ hn⟩, fun n' hn' => ?_⟩
      rcases List.mem_cons.mp hn' with heq | hn'
      · exact hnew n ((Prod.mk.inj heq).1 ▸ hn)
      · exact of_decide_eq_true (List.mem_filter.mp hn').2 rfl
    · obtain rfl := Option.some.inj hq
      exact ⟨size, List.mem_cons_self ..⟩
  · have hp : q ≠ p := fun hc => h.apart t u hu.symm p (Or.inl hhidden) (hc ▸ hq)
    have hptr : q ≠ ptr := fun hc => h.apart t u hu.symm ptr (Or.inr hbusy) (hc ▸ hq)
    refine ⟨fun _ => Iff.rfl, fun _ => Iff.rfl, fun n => ?_⟩
    simp [Server.moveTo, Server.give, Server.take, hp, hptr]
  · rw [hself] at hq
    rcases hq with hq | hq
    · obtain rfl := Option.some.inj hq
      exact h.apart t u hu.symm _ (Or.inr hbusy)
    · obtain rfl := Option.some.inj hq
      exact h.apart t u hu.symm _ (Or.inl hhidden)

/-! ### New pages -/

omit [DecidableEq T] in
/-- No block is where one in new pages would be. -/
theorem not_allocated_of_pages (h : s.Models d)
    (hptr : MapsFresh d.core.mapped ptr (pageUp (size + sizeofMmapHeader))) (n : ℕ) :
    (ptr + sizeofMmapHeader, n) ∉ s.allocated :=
  fun hn => h.hosts.ne_of_pages hptr (h.allocated hn) rfl

omit [DecidableEq T] in
/-- A thread does not have a block that is not allocated. -/
theorem ne_of_has (h : s.Models d) (hq : (s.phase t).Has q) (hp : ∀ n, (p, n) ∉ s.allocated) :
    q ≠ p := by
  rintro rfl
  obtain ⟨n, hn⟩ := h.allocated_of_has hq
  exact hp n hn

/-! ### Requests -/

section Request

variable {i : ℕ} {use : Use} (h : s.Models d) (hphase : s.phase t = .request i size use)

include h hphase

/-- `malloc` returns a null pointer. -/
theorem request_null : s.Advances none (s.moveTo t (.got size none use)) := by
  have hat := h.points t
  rw [hphase] at hat
  refine .silent ⟨d, h.moveTo ⟨⟨fun _ => hat.inHeap.mp rfl, fun _ => rfl⟩, fun q hq => ?_, hat.busy,
    fun q hq => ?_, hat.knows⟩ fun q hq => ?_⟩ rfl
  · cases hq
  · cases hq
  · rw [hphase]
    exact hq.imp_left fun hq => by cases hq

section Large

variable {c : Core} (hsize : maxBlockSize < size) (hlt : size + sizeofMmapHeader < 2 ^ 64)
  (hptr : MapsFresh d.core.mapped ptr (pageUp (size + sizeofMmapHeader)))
  (hc : d.core.largeAlloc size (some ptr) = (some (ptr + sizeofMmapHeader), c))

include hsize hlt hptr hc

/-- **`large_alloc`** gives the thread a block of its own. -/
theorem request_large_models : Models
    { (s.setCore c).moveTo t (.got size (some (ptr + sizeofMmapHeader)) use) with
      large := (ptr + sizeofMmapHeader, size) :: s.large } (d.setCore c) := by
  have hat := h.points t
  rw [hphase] at hat
  have hhosts := h.hosts.largeAlloc hlt hptr (by omega) hc
  have hnew := h.not_allocated_of_pages hptr
  obtain ⟨s', hs'⟩ : ∃ s' : Server T, s' = { (s.setCore c).moveTo t
      (.got size (some (ptr + sizeofMmapHeader)) use) with
      large := (ptr + sizeofMmapHeader, size) :: s.large } := ⟨_, rfl⟩
  have hself : s'.phase t = .got size (some (ptr + sizeofMmapHeader)) use := by
    rw [hs']
    exact Function.update_self ..
  have hlive : s'.live = s.live := by
    rw [hs']
    rfl
  have hmem : ∀ q n, (q, n) ∈ s'.allocated ↔
      (q, n) = (ptr + sizeofMmapHeader, size) ∨ (q, n) ∈ s.allocated := by
    intro q n
    rw [hs', Server.allocated, Server.allocated, List.mem_append, List.mem_append, List.mem_cons]
    exact or_left_comm
  have hsame : ∀ u q, (s.phase u).Has q → s.Same s' q := by
    intro u q hq
    have hne : q ≠ ptr + sizeofMmapHeader := h.ne_of_has hq hnew
    refine ⟨fun n => ?_, fun n => ?_, fun n => by rw [hlive]⟩
    · rw [hmem]
      simp [hne]
    · simp [hs', hne]
  rw [← hs']
  refine h.move t ?_ (hs' ▸ hhosts) (hs' ▸ List.forall_mem_cons.mpr ⟨hsize, h.size⟩)
    (fun b hb => (hmem _ _).mpr (Or.inr (h.live b (hlive ▸ hb)))) (hlive ▸ h.nodup)
    (fun u hu => hs' ▸ Function.update_of_ne hu ..) (fun u hu => by rw [hs']; rfl) ?_
    (fun u _ => hsame u) fun u hu q hq hu' => ?_
  · rw [hs']
    exact h.machine.setCore (Core.largeAlloc_header hc) hhosts.inv
  · have hpoint : s'.machine.threads.point t = .idle := by
      rw [hs']
      exact hat.inHeap.mp rfl
    have hbusy : s'.At (s.machine.threads.point t) (.request i size use) :=
      hat.frame fun q hq => hsame t q (hphase ▸ hq)
    rw [hself]
    refine ⟨⟨fun _ => hpoint, fun _ => rfl⟩, fun q hq => ?_, hbusy.busy, fun q hq => ?_,
      hbusy.knows⟩
    · obtain rfl := Option.some.inj hq
      exact ⟨⟨size, (hmem _ _).mpr (Or.inl rfl)⟩, fun n hn => hnew n (h.live _ (hlive ▸ hn))⟩
    · obtain rfl := Option.some.inj hq
      exact (hmem _ _).mpr (Or.inl rfl)
  · rw [hself] at hq
    rcases hq with hq | hq
    · obtain rfl := Option.some.inj hq
      exact h.ne_of_has hu' hnew rfl
    · exact h.apart t u hu.symm q (hphase ▸ Or.inr hq) hu'

/-- `malloc` calls `large_alloc`. -/
theorem request_large : s.Advances none
    { (s.setCore c).moveTo t (.got size (some (ptr + sizeofMmapHeader)) use) with
      large := (ptr + sizeofMmapHeader, size) :: s.large } := by
  refine .silent ⟨_, h.request_large_models hphase hsize hlt hptr hc⟩ ?_
  rw [blocks, blocks, h.core]
  refine view_congr fun b hb => ?_
  exact h.hosts.load_eq (fun a ha => Core.largeAlloc_mem hlt hptr hc ha) (h.allocated (h.live b hb))

end Large

/-- `malloc` calls `heap_alloc`. -/
theorem request_small (hpos : size ≠ 0) (hsize : size ≤ maxBlockSize) :
    ∃ s', s.callHeap t (.heapAlloc i size) (.allocating size use) = some s' ∧
      s.Advances none s' := by
  have hat := h.points t
  rw [hphase] at hat
  have hidle : s.machine.threads.point t = .idle := hat.inHeap.mp rfl
  have hcall := h.machine.call (c := .heapAlloc i size) ⟨hidle, by omega, hsize⟩
  refine ⟨_, rfl, .silent ⟨d, h.move t hcall h.hosts h.size h.live h.nodup
    (fun u hu => Function.update_of_ne hu ..) (fun u hu => s.machine.threads.move_of_ne hu ..) ?_
    (fun _ _ _ _ => .of_lists rfl rfl rfl) fun u hu q hq => ?_⟩ rfl⟩
  · show Server.At _ ((s.machine.threads.move t .work (.allocLock i size)).point t)
      (Function.update s.phase t (.allocating size use) t)
    rw [Locking.System.move_self, Function.update_self]
    refine ⟨⟨fun hc => ?_, fun hc => ?_⟩, fun q hq => ?_, hat.busy, rfl, hat.knows⟩
    · cases hc
    · cases hc
    · cases hq
  · replace hq : Phase.Has (Function.update s.phase t (.allocating size use) t) q := hq
    rw [Function.update_self] at hq
    exact h.apart t u hu.symm q (hphase ▸ hq)

/-- **A request to `malloc`.** -/
theorem request {mmap : Option ℕ} (hpromised : ∀ size ∈ (s.phase t).mapping, ∀ ptr ∈ mmap,
      MapsFresh s.core.mapped ptr (pageUp (add64 size sizeofMmapHeader)))
    (hover : ∀ size ∈ (s.phase t).mapping, mmap ≠ none → size + sizeofMmapHeader < 2 ^ 64) :
    ∃ s', s.next t mmap (.request i size use) = some s' ∧ s.Advances none s' := by
  simp only [Server.next]
  by_cases hzero : size = 0
  · rw [if_pos hzero]
    exact ⟨_, rfl, h.request_null hphase⟩
  by_cases hsize : maxBlockSize < size
  · rw [if_neg hzero, if_pos hsize]
    have hmapping : size ∈ (s.phase t).mapping := by
      rw [hphase]
      exact if_pos hsize
    cases mmap with
    | none => exact ⟨_, rfl, h.request_null hphase⟩
    | some ptr =>
      have hlt := hover size hmapping (Option.some_ne_none ptr)
      have hptr := hpromised size hmapping ptr rfl
      rw [add64_eq hlt, h.core] at hptr
      obtain ⟨c, hc⟩ : ∃ c, s.core.largeAlloc size (some ptr) =
          (some (ptr + sizeofMmapHeader), c) := ⟨_, rfl⟩
      rw [hc]
      rw [h.core] at hc
      exact ⟨_, rfl, h.request_large hphase hsize hlt hptr hc⟩
  · rw [if_neg hzero, if_neg hsize]
    exact h.request_small hphase hzero (Nat.le_of_not_lt hsize)

end Request

/-! ### A block is returned -/

section Got

variable {use : Use} (h : s.Models d)

include h

omit [DecidableEq T] in
/-- The block that `malloc` has returned. -/
theorem got_block (hphase : s.phase t = .got size (some p) use) :
    (s.phase t).hidden = some p ∧ (s.phase t).inHeap = false ∧ (p, size) ∈ s.allocated ∧
      ∀ n, (p, n) ∉ s.live := by
  have hat := h.points t
  rw [hphase] at hat ⊢
  exact ⟨rfl, rfl, hat.knows.1 p rfl, (hat.hidden p rfl).2⟩

/-- **`malloc` returns a block.** -/
theorem got_malloc (hphase : s.phase t = .got size (some p) .malloc) :
    s.Advances (some (.alloc p size)) ((s.give p size).moveTo t .idle) := by
  obtain ⟨hhidden, hheap, hp, hnew⟩ := h.got_block hphase
  refine ⟨⟨d, h.give hhidden hp hheap⟩, ?_⟩
  have hblocks : ((s.give p size).moveTo t .idle).blocks =
      insert s.blocks p (load s.core.mem p size) := view_cons
  rw [hblocks]
  exact .single (.alloc (h.fresh hp hnew) length_load)

/-- **`calloc` returns a block**, filled with zeros. -/
theorem got_calloc {mmap : Option ℕ} (hphase : s.phase t = .got size (some p) .calloc) :
    ∃ s', s.next t mmap (.got size (some p) .calloc) = some s' ∧
      s.Advances (some (.fill p size 0)) s' := by
  obtain ⟨hhidden, hheap, hp, hnew⟩ := h.got_block hphase
  have hset : s.core.memset p size = some (s.core.clear p size) := if_pos (h.spans hp)
  refine ⟨((s.setCore (s.core.clear p size)).give p size).moveTo t .idle, ?_, ?_⟩
  · simp only [Server.next, hset, Option.bind_eq_bind, Option.bind_some, Option.pure_def]
  have hout : ∀ j, j < p ∨ p + size ≤ j → (s.core.clear p size).mem j = s.core.mem j :=
    fun j => fill_outside
  obtain ⟨⟨d', h'⟩, hview⟩ := h.overwrite_hidden hp hnew hout fun _ =>
    Process.noMark_clear s.core p size
  refine ⟨⟨d', h'.give hhidden hp hheap⟩, ?_⟩
  have hblocks : (((s.setCore (s.core.clear p size)).give p size).moveTo t .idle).blocks =
      insert s.blocks p (List.replicate size 0) := by
    rw [← hview, ← load_fill s.core.mem p size 0]
    exact view_cons
  rw [hblocks]
  exact .single (.fill 0 (h.fresh hp hnew))

omit [DecidableEq T] in
/-- `realloc` copies mapped memory. -/
theorem spans_copied {oldLarge : Bool} (hptr : (ptr, n) ∈ s.live)
    (hsuits : s.Suits size (.realloc ptr oldLarge)) :
    Spans s.core.mapped (ptr, s.numBytesToCopy ptr size oldLarge) := by
  have hb := h.live _ hptr
  have hold : oldLarge = true ↔ (ptr, n) ∈ s.large := hsuits.1.trans (h.large_iff hb)
  have hle : oldLarge = true → size ≤ n := fun hl =>
    (hsuits.2 hl).trans (h.size _ (hold.mp hl)).le
  rw [numBytesToCopy, State.getBlockSize, h.machine.refines.core, h.core]
  exact h.hosts.spans_copied (h.allocated hb) hold hle

omit [DecidableEq T] in
/-- The copy of `realloc` is long enough, and not too long. -/
theorem numBytesToCopy_spec {oldLarge : Bool} (hptr : (ptr, n) ∈ s.live)
    (hsuits : s.Suits size (.realloc ptr oldLarge)) :
    s.numBytesToCopy ptr size oldLarge ≤ size ∧
      min n size ≤ s.numBytesToCopy ptr size oldLarge := by
  cases oldLarge with
  | true => exact ⟨le_rfl, Nat.min_le_right ..⟩
  | false =>
    -- The block is small, and not longer than what it was carved for.
    have hsmall : (ptr, n) ∈ s.machine.live :=
      (List.mem_append.mp (h.live _ hptr)).resolve_right fun hc =>
        Bool.false_ne_true (hsuits.1.mpr ⟨n, hc⟩)
    have hle : n ≤ s.machine.state.getBlockSize ptr := by
      rw [State.getBlockSize, h.machine.refines.core]
      exact (h.machine.inv.live_known _ (h.machine.client _ hsmall)).2
    simp only [numBytesToCopy, Bool.false_eq_true, if_false]
    exact ⟨Nat.min_le_right .., by omega⟩

/-- **`realloc` moves a block** to the one that `malloc` has returned. -/
theorem got_realloc {oldLarge : Bool} {mmap : Option ℕ}
    (hphase : s.phase t = .got size (some p) (.realloc ptr oldLarge))
    (hmark : size ≤ maxBlockSize →
      (s.core.copy p ptr (s.numBytesToCopy ptr size oldLarge)).NoMark p size) :
    ∃ s', s.next t mmap (.got size (some p) (.realloc ptr oldLarge)) = some s' ∧
      s.Advances (some (.move ptr p size)) s' := by
  obtain ⟨hhidden, hheap, hp, hnew⟩ := h.got_block hphase
  have hbusy : (s.phase t).busy = some ptr := by
    rw [hphase]
    rfl
  have hat := h.points t
  rw [hphase] at hat
  obtain ⟨n, hn⟩ := hat.busy ptr rfl
  obtain ⟨hle, hlong⟩ := h.numBytesToCopy_spec hn hat.knows.2
  have hfrom := h.spans_copied hn hat.knows.2
  have hinto : Spans s.core.mapped (p, s.numBytesToCopy ptr size oldLarge) :=
    (h.spans hp).mono fun a ha => ⟨ha.1, lt_of_lt_of_le ha.2 (Nat.add_le_add_left hle p)⟩
  have hcopy : s.core.memcpy p ptr (s.numBytesToCopy ptr size oldLarge) =
      some (s.core.copy p ptr (s.numBytesToCopy ptr size oldLarge)) := if_pos ⟨hfrom, hinto⟩
  simp only [Server.next, hcopy, Option.bind_eq_bind, Option.bind_some, Option.pure_def]
  generalize s.numBytesToCopy ptr size oldLarge = k at *
  refine ⟨_, rfl, ?_⟩
  obtain ⟨⟨d', h'⟩, hview⟩ := h.overwrite_hidden hp hnew
    (fun j hj => store_load_outside (by omega)) hmark
  refine ⟨⟨_, (h'.record ((p, k) :: s.core.copies)).exchange hhidden hbusy hp hheap⟩, ?_⟩
  have hblocks : ((((s.setCore (s.core.copy p ptr k)).take ptr).give p size).moveTo t
      (.release ptr (some p))).blocks =
      insert (erase s.blocks ptr) p (load (s.core.copy p ptr k).mem p size) := by
    rw [← hview, ← view_filter]
    exact view_cons
  rw [hblocks]
  refine .single (.move (h.blocks_of_mem hn) (h.fresh hp hnew) length_load ?_)
  rw [length_load, take_load, take_load, Nat.min_eq_left (Nat.min_le_right ..),
    Nat.min_eq_left (Nat.min_le_left ..)]
  refine List.map_congr_left fun j hj => ?_
  have hlt := List.mem_range.mp hj
  exact store_load_of_mem (by omega)

/-- `malloc` has returned a null pointer, and `realloc` frees the block. -/
theorem got_null {oldLarge : Bool} (hphase : s.phase t = .got size none (.realloc ptr oldLarge)) :
    s.Advances none (s.moveTo t (.release ptr none)) := by
  have hat := h.points t
  rw [hphase] at hat
  refine .silent ⟨d, h.moveTo ⟨⟨fun _ => hat.inHeap.mp rfl, fun _ => rfl⟩, fun q hq => ?_, hat.busy,
    trivial⟩ fun q hq => ?_⟩ rfl
  · cases hq
  · rw [hphase]
    exact hq.imp_left fun hq => by cases hq

/-- A call ends that has nothing to return. -/
theorem ends (hheap : (s.phase t).inHeap = false) : s.Advances none (s.moveTo t .idle) := by
  refine .silent ⟨d, h.moveTo (at_idle ((h.points t).inHeap.mp hheap)) fun q hq => ?_⟩ rfl
  rcases hq with hq | hq <;> cases hq

end Got

/-! ### A large block is remapped -/

section Remap

variable (h : s.Models d) (hphase : s.phase t = .remap ptr size)

include h hphase

omit [DecidableEq T] in
/-- The block that is moved is the client's, and it is large. -/
theorem remap_block : ∃ n, (ptr, n) ∈ s.live ∧ (ptr, n) ∈ s.large := by
  have hat := h.points t
  rw [hphase] at hat
  obtain ⟨n, hn⟩ := hat.busy ptr rfl
  obtain ⟨-, n', hn'⟩ := hat.knows
  obtain rfl : n' = n := congrArg Prod.snd
    (h.eq_of_allocated (List.mem_append_right _ hn') (h.live _ hn) rfl)
  exact ⟨n', hn, hn'⟩

variable {newPtr : ℕ} {c : Core} (hlt : size + sizeofMmapHeader < 2 ^ 64)
  (hptr : MapsFresh d.core.mapped newPtr (pageUp (size + sizeofMmapHeader)))
  (hfits : ∀ b ∈ s.large, b.1 = ptr → b.2 + sizeofMmapHeader ≤ pageUp (size + sizeofMmapHeader))
  (hc : d.core.largeRealloc ptr size (some newPtr) = some (some (newPtr + sizeofMmapHeader), c))

include hlt hptr hfits hc

/-- **`large_realloc`** gives the client another block for its own. -/
theorem remap_models : Models
    { (((s.setCore c).take ptr).give (newPtr + sizeofMmapHeader) size).moveTo t .idle with
      large := (newPtr + sizeofMmapHeader, size) :: s.large.filter fun b => b.1 ≠ ptr }
    (d.setCore c) := by
  have hat := h.points t
  have hhas : (s.phase t).Has ptr := Or.inr (by rw [hphase]; rfl)
  rw [hphase] at hat
  obtain ⟨n, -, hn⟩ := h.remap_block hphase
  have hhosts := h.hosts.largeRealloc hlt hptr hn (hfits _ hn rfl) hc
  have hheader := Core.largeRealloc_header (h.hosts.block _ hn) hlt hc
  have hnew := h.not_allocated_of_pages hptr
  obtain ⟨s', hs'⟩ : ∃ s' : Server T, s' =
      { (((s.setCore c).take ptr).give (newPtr + sizeofMmapHeader) size).moveTo t .idle with
        large := (newPtr + sizeofMmapHeader, size) :: s.large.filter fun b => b.1 ≠ ptr } :=
    ⟨_, rfl⟩
  have hself : s'.phase t = .idle := by
    rw [hs']
    exact Function.update_self ..
  have hsize : ∀ b ∈ (newPtr + sizeofMmapHeader, size) :: s.large.filter fun b => b.1 ≠ ptr,
      maxBlockSize < b.2 :=
    List.forall_mem_cons.mpr ⟨hat.knows.1, fun b hb => h.size b (List.mem_of_mem_filter hb)⟩
  rw [← hs']
  refine h.move t (hs' ▸ h.machine.setCore hheader hhosts.inv) (hs' ▸ hhosts) (hs' ▸ hsize)
    (fun b hb => ?_) ?_ (fun u hu => hs' ▸ Function.update_of_ne hu ..)
    (fun u hu => by rw [hs']; rfl) ?_ (fun u hu q hq => ?_) fun u hu q hq => ?_
  · rw [hs'] at hb ⊢
    rcases List.mem_cons.mp hb with rfl | hb
    · exact List.mem_append_right _ (List.mem_cons_self ..)
    · obtain ⟨hb, hne⟩ := List.mem_filter.mp hb
      refine List.mem_append.mpr ((List.mem_append.mp (h.live b hb)).imp_right fun hb => ?_)
      exact List.mem_cons_of_mem _ (List.mem_filter.mpr ⟨hb, hne⟩)
  · rw [hs']
    refine List.nodup_cons.mpr ⟨fun hc => ?_, h.nodup.sublist (List.filter_sublist.map Prod.fst)⟩
    obtain ⟨⟨p, n⟩, hb, rfl⟩ := List.mem_map.mp hc
    exact hnew n (h.live _ (List.mem_of_mem_filter hb))
  · rw [hself]
    exact at_idle (by rw [hs']; exact hat.inHeap.mp rfl)
  · have hne : q ≠ newPtr + sizeofMmapHeader := h.ne_of_has hq hnew
    have hne' : q ≠ ptr := fun hc => h.apart t u hu.symm ptr hhas (hc ▸ hq)
    rw [hs']
    refine ⟨fun m => ?_, fun m => ?_, fun m => ?_⟩ <;>
      simp [Server.allocated, Server.moveTo, Server.give, Server.take, Server.setCore,
        Machine.setCore, hne, hne']
  · rw [hself] at hq
    rcases hq with hq | hq <;> cases hq

omit [DecidableEq T] in
/-- The other blocks are what they were. -/
theorem remap_view :
    view c.mem (s.live.filter fun b => b.1 ≠ ptr) = erase s.blocks ptr := by
  obtain ⟨n, -, hn⟩ := h.remap_block hphase
  have hright := Core.largeRealloc_reallocates (h.hosts.block _ hn) hlt hptr hc (hfits _ hn rfl)
  rw [blocks, h.core, ← view_filter]
  refine view_congr fun b hb => ?_
  obtain ⟨hb, hne⟩ := List.mem_filter.mp hb
  exact h.hosts.load_eq_of_reallocates hn hright (h.allocated (h.live b hb)) (of_decide_eq_true hne)

/-- **`large_realloc` moves a large block** to new pages. -/
theorem remap : s.Advances (some (.move ptr (newPtr + sizeofMmapHeader) size))
    { (((s.setCore c).take ptr).give (newPtr + sizeofMmapHeader) size).moveTo t .idle with
      large := (newPtr + sizeofMmapHeader, size) :: s.large.filter fun b => b.1 ≠ ptr } := by
  refine ⟨⟨_, h.remap_models hphase hlt hptr hfits hc⟩, ?_⟩
  obtain ⟨n, hn, hn'⟩ := h.remap_block hphase
  have hright := Core.largeRealloc_reallocates (h.hosts.block _ hn') hlt hptr hc (hfits _ hn' rfl)
  have hblocks : Server.blocks
      { (((s.setCore c).take ptr).give (newPtr + sizeofMmapHeader) size).moveTo t .idle with
        large := (newPtr + sizeofMmapHeader, size) :: s.large.filter fun b => b.1 ≠ ptr } =
      insert (erase s.blocks ptr) (newPtr + sizeofMmapHeader)
        (load c.mem (newPtr + sizeofMmapHeader) size) := by
    rw [← h.remap_view hphase hlt hptr hfits hc]
    exact view_cons
  have hfresh : Fresh 16 s.blocks (newPtr + sizeofMmapHeader) size := by
    rw [blocks, h.core]
    exact h.hosts.fresh_pages (fun b hb => h.allocated (h.live b hb)) hptr
  rw [hblocks]
  refine .single (.move (h.blocks_of_mem hn) hfresh length_load ?_)
  rw [h.core, length_load, take_load, take_load, Nat.min_eq_left (Nat.min_le_right ..),
    Nat.min_eq_left (Nat.min_le_left ..)]
  exact hright.contents

end Remap

/-! ### A block is freed -/

section Release

variable {result : Option ℕ} (h : s.Models d) (hphase : s.phase t = .release ptr result)

include h hphase

omit [DecidableEq T] in
/-- The block that is freed, and the block that is not. -/
theorem release_block : (∃ n, (ptr, n) ∈ s.allocated) ∧ s.machine.threads.point t = .idle ∧
    ∀ q, result = some q → q ≠ ptr ∧ ∃ n, (q, n) ∈ s.live := by
  have hat := h.points t
  rw [hphase] at hat
  cases result with
  | none =>
    obtain ⟨n, hn⟩ := hat.busy ptr rfl
    refine ⟨⟨n, h.live _ hn⟩, hat.inHeap.mp rfl, fun q hq => ?_⟩
    cases hq
  | some p =>
    obtain ⟨hptr, hnot⟩ := hat.hidden ptr rfl
    obtain ⟨n, hn⟩ := hat.busy p rfl
    refine ⟨hptr, hat.inHeap.mp rfl, fun q hq => ?_⟩
    obtain rfl := Option.some.inj hq
    exact ⟨fun hc => hnot n (hc ▸ hn), n, hn⟩

omit h [DecidableEq T] in
/-- The thread has the block. -/
theorem has_release : (s.phase t).Has ptr := by
  rw [hphase]
  cases result with
  | none => exact Or.inr rfl
  | some p => exact Or.inl rfl

omit [DecidableEq T] in
/-- **The clients do not see the block** once `free` has been called, or `realloc` has
copied it. -/
theorem release_take : (if result.isSome then s else s.take ptr) = s.take ptr := by
  cases result with
  | none => rfl
  | some p =>
    have hat := h.points t
    rw [hphase] at hat
    have hnot := (hat.hidden ptr rfl).2
    have hfilter : (s.live.filter fun b => b.1 ≠ ptr) = s.live :=
      List.filter_eq_self.mpr fun b hb => decide_eq_true fun hc => hnot b.2 (hc ▸ hb)
    rw [Server.take, hfilter]
    rfl

omit [DecidableEq T] in
/-- What the clients see of it. -/
theorem release_path :
    Path (BlockStore.Step 16) s.blocks (if result.isSome then none else some (.free ptr)).toList
      (s.take ptr).blocks := by
  cases result with
  | none =>
    have hat := h.points t
    rw [hphase] at hat
    obtain ⟨n, hn⟩ := hat.busy ptr rfl
    have hblocks : (s.take ptr).blocks = erase s.blocks ptr := view_filter
    rw [hblocks]
    exact .single (.free (h.blocks_of_mem hn))
  | some p =>
    rw [← h.release_take hphase]
    exact .nil _

/-- **`large_free`.** -/
theorem release_large (hn : (ptr, n) ∈ s.large) :
    (∃ d', Models { ((s.take ptr).setCore (s.core.largeFree ptr)).moveTo t .idle with
      large := s.large.filter fun b => b.1 ≠ ptr } d') ∧
    Server.blocks { ((s.take ptr).setCore (s.core.largeFree ptr)).moveTo t .idle with
      large := s.large.filter fun b => b.1 ≠ ptr } = (s.take ptr).blocks := by
  obtain ⟨-, hidle, -⟩ := h.release_block hphase
  have hhas : (s.phase t).Has ptr := has_release hphase
  have hcore : s.core.largeFree ptr = { d.core with
      mapped := AddressSpace.unmap d.core.mapped (spanOf (ptr, n)).1 (spanOf (ptr, n)).2 } := by
    rw [h.core]
    exact (h.hosts.block _ hn).largeFree_eq
  have hhosts := h.hosts.unmap hn hcore
  refine ⟨⟨_, h.move t (h.machine.setCore (by rw [hcore]) hhosts.inv) hhosts
    (fun b hb => h.size b (List.mem_of_mem_filter hb)) (fun b hb => ?_)
    (h.nodup.sublist (List.filter_sublist.map Prod.fst)) (fun u hu => Function.update_of_ne hu ..)
    (fun _ _ => rfl) ?_ (fun u hu q hq => ?_) fun u hu q hq => ?_⟩, ?_⟩
  · obtain ⟨hb, hne⟩ := List.mem_filter.mp hb
    refine List.mem_append.mpr ((List.mem_append.mp (h.live b hb)).imp_right fun hb => ?_)
    exact List.mem_filter.mpr ⟨hb, hne⟩
  · show Server.At _ _ (Function.update s.phase t .idle t)
    rw [Function.update_self]
    exact at_idle hidle
  · have hne : q ≠ ptr := fun hc => h.apart t u hu.symm ptr hhas (hc ▸ hq)
    refine ⟨fun m => ?_, fun m => ?_, fun m => ?_⟩ <;>
      simp [Server.allocated, Server.moveTo, Server.take, Server.setCore, Machine.setCore, hne]
  · replace hq : Phase.Has (Function.update s.phase t .idle t) q := hq
    rw [Function.update_self] at hq
    rcases hq with hq | hq <;> cases hq
  · show view (s.core.largeFree ptr).mem _ = view s.core.mem _
    rw [hcore, h.core]
    rfl

/-- **`heap_free` is called.** -/
theorem release_small (hn : (ptr, n) ∈ s.machine.live) :
    ∃ s', (s.take ptr).callHeap t (.heapFree ptr) (.freeing result) = some s' ∧
      s'.Models d ∧ s'.blocks = (s.take ptr).blocks := by
  obtain ⟨-, hidle, hresult⟩ := h.release_block hphase
  have hhas : (s.phase t).Has ptr := has_release hphase
  have hcall := h.machine.call (c := .heapFree ptr) ⟨hidle, _, hn, rfl⟩
  refine ⟨_, rfl, h.move t hcall h.hosts h.size (fun b hb => ?_)
    (h.nodup.sublist (List.filter_sublist.map Prod.fst)) (fun u hu => Function.update_of_ne hu ..)
    (fun u hu => s.machine.threads.move_of_ne hu ..) ?_ (fun u hu q hq => ?_)
    fun u hu q hq => ?_, rfl⟩
  · obtain ⟨hb, hne⟩ := List.mem_filter.mp hb
    refine List.mem_append.mpr ((List.mem_append.mp (h.live b hb)).imp_left fun hb => ?_)
    exact List.mem_filter.mpr ⟨hb, hne⟩
  · show Server.At _ ((s.machine.threads.move t .work (Pc.start (.heapFree ptr))).point t)
      (Function.update s.phase t (.freeing result) t)
    rw [Locking.System.move_self, Function.update_self]
    refine ⟨⟨fun hc => ?_, fun hc => ?_⟩, fun q hq => ?_, fun q hq => ?_, rfl⟩
    · cases hc
    · cases hc
    · cases hq
    · obtain ⟨hne, m, hm⟩ := hresult q hq
      exact ⟨m, List.mem_filter.mpr ⟨hm, decide_eq_true hne⟩⟩
  · have hne : q ≠ ptr := fun hc => h.apart t u hu.symm ptr hhas (hc ▸ hq)
    refine ⟨fun m => ?_, fun m => Iff.rfl, fun m => ?_⟩ <;>
      simp [Server.allocated, Server.moveTo, Server.take, Machine.liveAfterCall, hne]
  · replace hq : Phase.Has (Function.update s.phase t (.freeing result) t) q := hq
    rw [Function.update_self] at hq
    obtain rfl : result = some q := hq.resolve_left (Option.some_ne_none q).symm
    exact h.apart t u hu.symm q (Or.inr (by rw [hphase]; rfl))

/-- **`free`** of a block, which `realloc` calls too. -/
theorem release {mmap : Option ℕ} :
    ∃ s', s.next t mmap (.release ptr result) = some s' ∧
      s.Advances (if result.isSome then none else some (.free ptr)) s' := by
  have hcore : (s.take ptr).core = s.core := rfl
  obtain ⟨⟨n, hn⟩, -, -⟩ := h.release_block hphase
  have hlarge := h.isLargeAlloc_iff hn
  have hpath := h.release_path hphase
  simp only [Server.next, h.release_take hphase, hcore]
  by_cases hl : (ptr, n) ∈ s.large
  · obtain ⟨hM, hblocks⟩ := h.release_large hphase hl
    rw [if_pos (hlarge.mpr hl)]
    rw [← hblocks] at hpath
    exact ⟨_, rfl, hM, hpath⟩
  · obtain ⟨s', hs', hM, hblocks⟩ :=
      h.release_small hphase ((List.mem_append.mp hn).resolve_right hl)
    rw [if_neg fun hc => hl (hlarge.mp hc)]
    refine ⟨s', hs', ⟨d, hM⟩, ?_⟩
    rwa [hblocks]

end Release

/-! ### Steps -/

/-- **A step in the body of a public function.** -/
theorem next (h : s.Models d) {mmap : Option ℕ} (hlegal : s.Legal (.next t mmap))
    (htame : s.Tame (.next t mmap)) :
    ∃ s', s.step (.next t mmap) = some s' ∧ s.Advances (s.action (.next t mmap)) s' := by
  obtain ⟨hidle, hheap, hpromised⟩ := hlegal
  obtain ⟨hover, hcopies⟩ := htame
  simp only [Server.step, Server.action]
  cases hphase : s.phase t with
  | idle => exact absurd hphase hidle
  | request i size use => exact h.request hphase hpromised hover
  | allocating size use =>
    rw [hphase] at hheap
    cases hheap
  | got size result use =>
    rw [hphase] at hcopies
    cases result with
    | none =>
      cases use with
      | malloc => exact ⟨_, rfl, h.ends hheap⟩
      | calloc => exact ⟨_, rfl, h.ends hheap⟩
      | realloc ptr oldLarge => exact ⟨_, rfl, h.got_null hphase⟩
    | some p =>
      cases use with
      | malloc => exact ⟨_, rfl, h.got_malloc hphase⟩
      | calloc => exact h.got_calloc hphase
      | realloc ptr oldLarge => exact h.got_realloc hphase hcopies
  | remap ptr size =>
    rw [hphase] at hcopies hover hpromised
    cases mmap with
    | none => exact ⟨_, rfl, h.ends hheap⟩
    | some newPtr =>
      have hlt := hover size rfl (Option.some_ne_none newPtr)
      have hptr := hpromised size rfl newPtr rfl
      have hfits := hcopies (Option.some_ne_none newPtr)
      rw [add64_eq hlt, h.core] at hptr
      obtain ⟨n, -, hn⟩ := h.remap_block hphase
      obtain ⟨c, hc⟩ : ∃ c, d.core.largeRealloc ptr size (some newPtr) =
          some (some (newPtr + sizeofMmapHeader), c) :=
        ⟨_, Core.largeRealloc_eq_of_le (h.hosts.block _ hn) newPtr hlt (hfits _ hn rfl)⟩
      simp only [Server.next, h.core, hc]
      exact ⟨_, rfl, h.remap hphase hlt hptr hfits hc⟩
  | release ptr result =>
    obtain ⟨s', hs', hadv⟩ := h.release hphase
    cases result with
    | none => exact ⟨s', hs', hadv⟩
    | some p => exact ⟨s', hs', hadv⟩
  | freeing result =>
    rw [hphase] at hheap
    cases hheap

/-- **A write** goes into the block. -/
theorem write (h : s.Models d) {off : ℕ} {bytes : List UInt8}
    (hlegal : s.Legal (.write ptr off bytes)) (htame : s.Tame (.write ptr off bytes)) :
    ∃ s', s.step (.write ptr off bytes) = some s' ∧
      s.Advances (some (.write ptr off bytes)) s' := by
  obtain ⟨⟨b, hb, rfl, hle⟩, -⟩ := hlegal
  have hold := h.blocks_of_mem hb
  have hle' : off + bytes.length ≤ (load s.core.mem b.1 b.2).length := by rwa [length_load]
  obtain ⟨hM, -⟩ := h.overwrite (h.live b hb) (fun i hi => store_outside (by omega))
    fun hsmall => htame b hsmall rfl
  refine ⟨_, rfl, hM, ?_⟩
  have hpath := Path.single (BlockStore.Step.write (k := 16) hold hle')
  rw [blocks, ← view_store h.separated hold hle'] at hpath
  exact hpath

/-- **Every event is an action on the blocks**, or does nothing to them. -/
theorem step (h : s.Models d) {e : PublicEvent T} (hlegal : s.Legal e) (htame : s.Tame e) :
    ∃ s', s.step e = some s' ∧ s.Advances (s.action e) s' := by
  cases e with
  | call t c => exact ⟨_, rfl, .silent ⟨d, h.call hlegal⟩ rfl⟩
  | act t mmap =>
    obtain ⟨s', hs', hM, hblocks⟩ := h.act hlegal htame
    exact ⟨s', hs', .silent hM hblocks⟩
  | next t mmap => exact h.next hlegal htame
  | write ptr off bytes => exact h.write hlegal htame

end Models

/-- The state a program starts in. -/
theorem models_initial : Models ({} : Server T) ⟨{}, fun _ => [], [], []⟩ where
  machine := Machine.models_initial
  hosts := ⟨inv_initial, fun _ h => absurd h List.not_mem_nil,
    fun _ h => absurd h List.not_mem_nil, .nil⟩
  size _ h := absurd h List.not_mem_nil
  live _ h := absurd h List.not_mem_nil
  nodup := List.nodup_nil
  points _ := at_idle rfl
  apart _ _ _ _ h := by rcases h with h | h <;> cases h

end Server

/-- **Threads in the public functions run a store of blocks**, in whatever order they take
their steps, if they do none of what `MyMalloc.Server.Tame` excludes: they do not go wrong,
and what the clients see of the blocks is what the store says. In the end the blocks that
they see lie apart. -/
theorem public_threads_refine_store {T : Type} [DecidableEq T] {events : List (PublicEvent T)}
    (h : Always Server.step (fun s e => s.Legal e ∧ s.Tame e) {} events) :
    ∃ s, run Server.step {} events = some s ∧
      Path (BlockStore.Step 16) BlockStore.empty (labels Server.step Server.action {} events)
        s.blocks ∧
      Separated 16 s.blocks := by
  have hrule : ∀ (s : Server T) e, (∃ d, s.Models d) → s.Legal e ∧ s.Tame e →
      ∃ s', s.step e = some s' ∧ (∃ d, s'.Models d) ∧
        Path (BlockStore.Step 16) s.blocks (s.action e).toList s'.blocks := by
    rintro s e ⟨d, hM⟩ ⟨hlegal, htame⟩
    obtain ⟨s', hs', hadv⟩ := hM.step hlegal htame
    exact ⟨s', hs', hadv.models, hadv.path⟩
  obtain ⟨s, hrun, -, hpath⟩ := path_of_always hrule ⟨_, Server.models_initial⟩ h
  exact ⟨s, hrun, hpath, hpath.preserves Step.separated separated_empty⟩

/-- Two threads in `realloc`: one has a small block moved, and the other a large one, which
becomes small. -/
def bothReallocate : List (PublicEvent Bool) :=
  [.call false (.calloc 0 2 8), .next false none, .act false none, .act false none,
    .call true (.malloc 1 200000), .act false none, .next true (some 4194304), .act false none,
    .act false none, .next true none, .act false (some 1048576), .act false none, .act false none,
    .act false none, .next false none, .write 1048704 0 [1, 2], .write 4194320 100 [3],
    .call false (.realloc 0 (some 1048704) 40), .next false none, .act false none,
    .call true (.realloc 1 (some 4194320) 24), .next true none, .act false none, .act true none,
    .act true none, .act false none, .act false none, .act false none, .act true none,
    .act false (some 2097152), .act true none, .act false none, .act false none, .act true none,
    .act false none, .next false none, .act true (some 3145728), .next false none, .act true none,
    .act false none, .act true none, .act true none, .act false none, .next true none,
    .act false none, .next true none, .act false none, .call true (.free (some 3145856)),
    .next true none, .act true none, .act false none, .act false none]

/-- What the clients see of it. -/
theorem public_threads_refine_store_moved : ∃ s, run Server.step {} bothReallocate = some s ∧
    Path (BlockStore.Step 16) BlockStore.empty
      [.alloc 4194320 200000, .fill 1048704 16 0, .write 1048704 0 [1, 2],
        .write 4194320 100 [3], .move 1048704 2097280 40, .move 4194320 3145856 24,
        .free 3145856] s.blocks ∧
    Separated 16 s.blocks := by
  have hlabels : labels Server.step Server.action {} bothReallocate =
      [.alloc 4194320 200000, .fill 1048704 16 0, .write 1048704 0 [1, 2],
        .write 4194320 100 [3], .move 1048704 2097280 40, .move 4194320 3145856 24,
        .free 3145856] := by
    decide +kernel
  rw [← hlabels]
  exact public_threads_refine_store (by decide +kernel)

end MyMalloc
