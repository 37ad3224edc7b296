import MyMalloc.Ownership
import MyMalloc.Effects
import MyMalloc.Usable
import MyMalloc.Lib.BlockStore

/-!
# What the blocks of several threads hold

The threads share the memory of their blocks with the allocator, which links the free
blocks through it, clears new superblocks and runs in other threads meanwhile. Their
clients see nothing of that: whatever the interleaving, the blocks that the clients own
are a store of blocks (`MyMalloc.threads_refine_store`). A block is new in the store when
the call of `heap_alloc` returns it, and gone from the call of `heap_free` on; in between
it holds what its client has written.

What a step of a thread does to the memory is one of the two effects of complete calls
(`MyMalloc.Depot.ThreadStep.effect`): it maps memory, or it writes a link into the block
that it frees.
-/

namespace MyMalloc

open Trace BlockStore AddressSpace ByteMemory Depot

namespace Depot

variable {d d' d₁ : Depot} {src : Source} {pc pc' : Pc}

/-! ### The memory -/

/-- New superblocks and headers that agree on the sizes of blocks. -/
theorem Grows.congr (h : Grows d d₁) (hmapped : d'.core.mapped = d₁.core.mapped)
    (hmem : d'.core.mem = d₁.core.mem) (hsb : d'.core.superblocks = d₁.core.superblocks)
    (hblockSize : ∀ x, (d'.core.header x).blockSize = (d₁.core.header x).blockSize)
    (hlive : d'.live = d₁.live) : Grows d d' where
  covers a ha := hmapped ▸ h.covers a ha
  mem a ha := hmem ▸ h.mem a ha
  superblocks x hx := by
    rw [hmem]
    exact h.superblocks x (hsb ▸ hx)
  blockSize x hx hne := (hblockSize x).trans (h.blockSize x hx hne)
  live b hb := hlive ▸ h.live b hb

theorem Grows.refl (d : Depot) : Grows d d := .of_same rfl rfl rfl (fun _ _ _ => rfl) rfl

/-- **What a step does to the memory**: it grows, or the thread frees a block. -/
theorem ThreadStep.effect (hd : d.Inv) (h : d.ThreadStep src pc pc' d') :
    Grows d d' ∨ ∃ ptr, pc.frees = some ptr ∧ d.Frees ptr d' := by
  cases h with
  | passive => exact Or.inl (.refl d)
  | served hsize hlocal hsrc hacquires hserves =>
    exact Or.inl ((hacquires.grows hd hsrc.present).handOut hserves.same)
  | notServed => exact Or.inl (.refl d)
  | fetchedBin => exact Or.inl (.of_same rfl rfl rfl (fun _ _ _ => rfl) rfl)
  | @fetchedRecycled i size x l hx =>
    obtain ⟨failed, hcore⟩ := d.popGlobal_core x
    refine Or.inl (.of_same ?_ ?_ ?_ (fun _ _ _ => ?_) rfl) <;> rw [hcore]
  | notFetched => exact Or.inl (.refl d)
  | @mapped _ i size ptr x c hsize hptr hc =>
    -- The new superblock without its owner, and not yet counted.
    have hacquires : d.Acquires (.thread i) (binOf size) .new x
        (d.create (.thread i) x (idx2class (binOf size)) c) := .new ptr x c hptr hc
    have hpresent : d.Present (.thread i) (binOf size) .new := trivial
    refine Or.inl ((hacquires.grows hd hpresent).congr rfl rfl rfl (fun y => ?_) rfl)
    exact (setOwner_blockSize _ x (.thread i) y).symm
  | notMapped => exact Or.inl (.of_same rfl rfl rfl (fun _ _ _ => rfl) rfl)
  | @owned _ i size x new =>
    exact Or.inl (.of_same rfl rfl rfl (fun y _ _ => setOwner_blockSize d.core x _ y) rfl)
  | @filed _ i size x p new header hsize hready hserves =>
    have hcounted : Grows d (d.countedIn i x new) := by
      cases new <;> exact .of_same rfl rfl rfl (fun _ _ _ => rfl) rfl
    exact Or.inl (hcounted.handOut hserves.same)
  | freedGlobal hx hptr => exact Or.inr ⟨_, rfl, hd.takeBack_frees hx hptr⟩
  | freed hx hptr =>
    obtain ⟨h₁, h₂, h₃, h₄, h₅⟩ := hd.takeBack_frees hx hptr
    exact Or.inr ⟨_, rfl, h₁, h₂, h₃, h₄, h₅⟩
  | taken hx hptr =>
    obtain ⟨h₁, h₂, h₃, h₄, h₅⟩ := hd.takeBack_frees hx hptr
    exact Or.inr ⟨_, rfl, h₁, h₂, h₃, h₄, h₅⟩
  | @moved _ ptr i y place =>
    exact Or.inl (.of_same rfl rfl rfl (fun z _ _ => setOwner_blockSize d.core y _ z) rfl)
  | counted => exact Or.inl (.of_same rfl rfl rfl (fun _ _ _ => rfl) rfl)

/-- **A step writes into no live block** but the one that the thread frees. -/
theorem ThreadStep.load_eq (hd : d.Inv) (h : d.ThreadStep src pc pc' d') {b : ℕ × ℕ}
    (hb : b ∈ d.live) (hfrees : pc.frees ≠ some b.1)
    (hlive : ∀ ptr, pc.frees = some ptr → ∃ n, (ptr, n) ∈ d.live) :
    load d'.core.mem b.1 b.2 = load d.core.mem b.1 b.2 := by
  obtain ⟨hsb, hle⟩ := hd.live_known b hb
  obtain ⟨hlo, hhi⟩ := hd.live_mem hb
  refine load_congr fun a ha ha' => ?_
  rcases h.effect hd with hgrows | ⟨ptr, hptr, hfree⟩
  · exact hgrows.mem a ((hd.placed _ hsb).covers a (by omega) (by omega))
  · -- The link lies in the block that is freed.
    obtain ⟨n, hn⟩ := hlive ptr hptr
    have hdisjoint := hd.blocks_disjoint hb hn fun hc => hfrees (hc ▸ hptr)
    obtain ⟨free, hs⟩ := (hd.carved _ (hd.live_known _ hn).1).sound
    have hpos : 16 ≤ (d.core.header (superblockOf ptr)).blockSize := hs.isClass.pos
    simp only at hdisjoint
    exact hfree.mem_of_not_mem (by omega)

end Depot

namespace Machine

variable {T : Type} [DecidableEq T] (m : Machine T)

/-- **What the blocks of the clients hold.** -/
def blocks : Store UInt8 := view m.state.mem m.live

/-- **What an event does to the blocks** of the clients, if anything. -/
def action : Event T → Option (Action UInt8)
  | .call _ (.heapAlloc ..) => none
  | .call _ (.heapFree ptr) => some (.free ptr)
  | .act t _ =>
    match m.threads.point t with
    | .allocUnlock _ size (some p) => some (.alloc p size)
    | _ => none
  | .write ptr off bytes => some (.write ptr off bytes)

variable {m} {m' : Machine T} {d d' : Depot} {t : T} {b : ℕ × ℕ}

/-! ### The blocks of the clients are a store -/

omit [DecidableEq T] in
/-- No block comes to two clients by a call. -/
theorem nodup_liveAfterCall (h : (m.live.map Prod.fst).Nodup) (c : Call) :
    ((m.liveAfterCall c).map Prod.fst).Nodup := by
  cases c with
  | heapAlloc => exact h
  | heapFree ptr => exact h.sublist (List.filter_sublist.map Prod.fst)

omit [DecidableEq T] in
/-- No block comes to two clients by a step: the block that a thread returns is no
client's. -/
theorem Models.nodup_liveAfterAct (hM : m.Models d) (h : (m.live.map Prod.fst).Nodup) (t : T) :
    ((m.liveAfterAct (m.threads.point t)).map Prod.fst).Nodup := by
  cases hpc : m.threads.point t with
  | allocUnlock i size retPtr =>
    cases retPtr with
    | none => exact h
    | some p =>
      refine List.nodup_cons.mpr ⟨fun hc => ?_, h⟩
      obtain ⟨b, hb, rfl⟩ := List.mem_map.mp hc
      exact hM.clientBlock t b hb (by rw [hpc]; rfl)
  | _ => exact h

/-- **The states of executions**: the invariant, and no block belongs to two clients. -/
structure Sound (m : Machine T) : Prop where
  models : ∃ d, m.Models d
  nodup : (m.live.map Prod.fst).Nodup

omit [DecidableEq T] in
theorem sound_initial : Sound ({} : Machine T) := ⟨⟨_, models_initial⟩, List.nodup_nil⟩

omit [DecidableEq T] in
/-- What a block of a client holds. -/
theorem Sound.blocks_of_mem (hm : m.Sound) (hb : b ∈ m.live) :
    m.blocks b.1 = some (load m.state.mem b.1 b.2) :=
  view_of_mem hm.nodup hb

omit [DecidableEq T] in
/-- The blocks of the clients and those of the threads lie apart. -/
theorem Models.fresh (h : m.Models d) {p n : ℕ} (hp : (p, n) ∈ d.live)
    (hnew : ∀ b ∈ m.live, b.1 ≠ p) : Fresh 16 m.blocks p n := by
  have hsb := (h.inv.live_known _ hp).1
  obtain ⟨hlo, -, hdvd, -⟩ :=
    (h.inv.carved _ hsb).live_mem (h.inv.isSuperblock hsb) (Inv.mem_liveIn hp)
  rw [sizeofSuperblockHeader_eq] at hlo
  refine ⟨view_eq_none hnew, by omega, hdvd, fun q bs hq => ?_⟩
  have hmem := (view_eq_some hq).1
  exact h.inv.live_disjoint (h.client _ hmem) hp (hnew _ hmem)

omit [DecidableEq T] in
/-- **The blocks of the clients** lie apart. -/
theorem Sound.separated (hm : m.Sound) : Separated 16 m.blocks where
  aligned p bs hp := by
    obtain ⟨d, h⟩ := hm.models
    have hb := h.client _ (view_eq_some hp).1
    have hsb := (h.inv.live_known _ hb).1
    obtain ⟨hlo, -, hdvd, -⟩ :=
      (h.inv.carved _ hsb).live_mem (h.inv.isSuperblock hsb) (Inv.mem_liveIn hb)
    rw [sizeofSuperblockHeader_eq] at hlo
    exact ⟨by omega, hdvd⟩
  apart p q bs bs' hp hq hne := by
    obtain ⟨d, h⟩ := hm.models
    exact h.inv.live_disjoint (h.client _ (view_eq_some hp).1) (h.client _ (view_eq_some hq).1) hne

/-! ### Events -/

/-- **A call**: a block that is freed leaves the store. -/
theorem Sound.path_call (hm : m.Sound) {c : Call} (hlegal : m.Legal (.call t c)) :
    ∃ m', m.step (.call t c) = some m' ∧ m'.Sound ∧
      Path (BlockStore.Step 16) m.blocks (m.action (.call t c)).toList m'.blocks := by
  obtain ⟨d, h⟩ := hm.models
  refine ⟨_, rfl, ⟨⟨d, h.call hlegal⟩, nodup_liveAfterCall hm.nodup c⟩, ?_⟩
  cases c with
  | heapAlloc => exact .nil _
  | heapFree ptr =>
    obtain ⟨-, b, hb, rfl⟩ := hlegal
    have hview : Machine.blocks ⟨m.state, m.threads.move t .work (Pc.start (.heapFree b.1)),
        m.liveAfterCall (.heapFree b.1)⟩ = erase m.blocks b.1 := view_filter
    rw [hview]
    exact .single (.free (hm.blocks_of_mem hb))

/-- **A step of a thread**: a block that is returned comes to the store. -/
theorem Sound.path_act (hm : m.Sound) {mmap : Option ℕ} (hlegal : m.Legal (.act t mmap))
    (howners : m.RespectsOwners (.act t mmap)) (hmatch : m.Matching (.act t mmap)) :
    ∃ m', m.step (.act t mmap) = some m' ∧ m'.Sound ∧
      Path (BlockStore.Step 16) m.blocks (m.action (.act t mmap)).toList m'.blocks := by
  obtain ⟨d, h⟩ := hm.models
  obtain ⟨pc', s', d', hadv, h', hstep, -⟩ := h.takes hlegal howners hmatch
  have hcore : s'.toCore = d'.core := h'.refines.core
  -- The bytes of the clients stay.
  have hview : view s'.mem m.live = m.blocks := by
    refine view_congr fun b hb => ?_
    rw [hcore, h.refines.core]
    refine hstep.load_eq h.inv (h.client b hb) (fun hc => ?_) fun ptr hptr => ?_
    · exact h.clientBlock t b hb (Pc.block_of_frees hc)
    · exact (h.points t).block ptr (Pc.block_of_frees hptr)
  refine ⟨_, step_act hadv, ⟨⟨d', h'⟩, h.nodup_liveAfterAct hm.nodup t⟩, ?_⟩
  by_cases hreturn : ∃ i size p, m.threads.point t = .allocUnlock i size (some p)
  · obtain ⟨i, size, p, hpc⟩ := hreturn
    have hp : (p, size) ∈ d.live := by
      have hknows := (h.points t).knows
      rw [hpc] at hknows
      exact hknows p rfl
    have hnew : ∀ b ∈ m.live, b.1 ≠ p := by
      rintro b hb rfl
      exact h.clientBlock t b hb (by rw [hpc]; rfl)
    have hlive : m.liveAfterAct (m.threads.point t) = (p, size) :: m.live := by
      rw [hpc]
      rfl
    have haction : m.action (.act t mmap) = some (.alloc p size) := by
      rw [action, hpc]
    have hblocks : Machine.blocks ⟨s', m.threads.move t (m.threads.point t).action pc',
        m.liveAfterAct (m.threads.point t)⟩ = insert m.blocks p (load s'.mem p size) := by
      rw [blocks, hlive, view_cons, hview]
    rw [haction, hblocks]
    exact .single (.alloc (h.fresh hp hnew) length_load)
  · -- Nothing is returned.
    have hlive : m.liveAfterAct (m.threads.point t) = m.live ∧ m.action (.act t mmap) = none := by
      rw [action]
      cases hpc : m.threads.point t with
      | allocUnlock i size retPtr =>
        cases retPtr with
        | none => exact ⟨rfl, rfl⟩
        | some p => exact absurd ⟨i, size, p, hpc⟩ hreturn
      | _ => exact ⟨rfl, rfl⟩
    have hblocks : Machine.blocks ⟨s', m.threads.move t (m.threads.point t).action pc',
        m.liveAfterAct (m.threads.point t)⟩ = m.blocks := by
      rw [blocks, hlive.1, hview]
    rw [hlive.2, hblocks]
    exact .nil _

/-- **A write** goes into the block. -/
theorem Sound.path_write (hm : m.Sound) {ptr off : ℕ} {bytes : List UInt8}
    (hlegal : m.Legal (.write ptr off bytes)) :
    ∃ m', m.step (.write ptr off bytes) = some m' ∧ m'.Sound ∧
      Path (BlockStore.Step 16) m.blocks (m.action (.write ptr off bytes)).toList m'.blocks := by
  obtain ⟨d, h⟩ := hm.models
  have h' := h.written hlegal
  obtain ⟨b, hb, rfl, hle⟩ := hlegal
  have hold := hm.blocks_of_mem hb
  have hle' : off + bytes.length ≤ (load m.state.mem b.1 b.2).length := by rwa [length_load]
  have hview : view (store m.state.mem (b.1 + off) bytes) m.live =
      insert m.blocks b.1 (overwrite (load m.state.mem b.1 b.2) off bytes) :=
    view_store hm.separated hold hle'
  refine ⟨_, rfl, ⟨⟨_, h'⟩, hm.nodup⟩, ?_⟩
  have hpath := Path.single (BlockStore.Step.write (k := 16) hold hle')
  rw [← hview] at hpath
  exact hpath

/-- **Every event is an action on the blocks**, or does nothing to them. -/
theorem Sound.path_step (hm : m.Sound) {e : Event T} (hlegal : m.Legal e)
    (howners : m.RespectsOwners e) (hmatch : m.Matching e) :
    ∃ m', m.step e = some m' ∧ m'.Sound ∧
      Path (BlockStore.Step 16) m.blocks (m.action e).toList m'.blocks := by
  cases e with
  | call t c => exact hm.path_call hlegal
  | act t mmap => exact hm.path_act hlegal howners hmatch
  | write ptr off bytes => exact hm.path_write hlegal

end Machine

/-- **Any interleaving is a run of a store of blocks**, as long as no thread disturbs
another and no superblock comes from the recycle list of the global heap to another class
than its own: what the threads allocate, free and write is what the store says, with an
allocation seen when it returns, a deallocation when it is called. In every such execution
the blocks of the clients lie apart, and a block holds what has been written into it. -/
theorem threads_refine_store {T : Type} [DecidableEq T] {events : List (Event T)}
    (h : Always Machine.step (fun m e => m.Legal e ∧ m.RespectsOwners e ∧ m.Matching e) {} events) :
    ∃ m, run Machine.step {} events = some m ∧
      Path (BlockStore.Step 16) BlockStore.empty (labels Machine.step Machine.action {} events)
        m.blocks ∧
      Separated 16 m.blocks := by
  have hrule : ∀ (m : Machine T) e, m.Sound → m.Legal e ∧ m.RespectsOwners e ∧ m.Matching e →
      ∃ m', m.step e = some m' ∧ m'.Sound ∧
        Path (BlockStore.Step 16) m.blocks (m.action e).toList m'.blocks :=
    fun _ _ hm ⟨hlegal, howners, hmatch⟩ => hm.path_step hlegal howners hmatch
  obtain ⟨m, hrun, -, hpath⟩ := path_of_always hrule Machine.sound_initial h
  exact ⟨m, hrun, hpath, hpath.preserves Step.separated separated_empty⟩

/-- One thread writes into its block, and the other frees one of the same heap meanwhile. -/
def freeDuringWrites : List (Event Bool) :=
  allocNewEvents false 0 16 1048576 ++ allocNewEvents true 0 32 2097152 ++
    [.call true (.heapFree 2097280), .act true none, .write 1048704 0 [1, 2], .act true none,
      .act true none, .call false (.heapAlloc 0 16), .act true none, .write 1048704 8 [3],
      .act true none, .act false none, .act false none, .act false none]

/-- Three blocks are returned and one is freed. -/
theorem threads_refine_store_writes : ∃ m, run Machine.step {} freeDuringWrites = some m ∧
    Path (BlockStore.Step 16) BlockStore.empty
      [.alloc 1048704 16, .alloc 2097280 32, .free 2097280, .write 1048704 0 [1, 2],
        .write 1048704 8 [3], .alloc 1048720 16] m.blocks ∧
    Separated 16 m.blocks := by
  have hlabels : labels Machine.step Machine.action {} freeDuringWrites =
      [.alloc 1048704 16, .alloc 2097280 32, .free 2097280, .write 1048704 0 [1, 2],
        .write 1048704 8 [3], .alloc 1048720 16] := by
    decide +kernel
  rw [← hlabels]
  exact threads_refine_store (by decide +kernel)

end MyMalloc
