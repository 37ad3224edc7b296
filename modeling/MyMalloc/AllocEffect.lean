import MyMalloc.WellFormed

/-!
# What `heap_alloc` changes

The effect of one request for a small block, from any well-formed state and whichever
of the five sources serves it (`MyMalloc.heapAlloc_effect`): the block was not live
and overlaps none that was, the live blocks stay as they are, and one superblock at
most changes its owner. It is the one that serves the request, and nothing is asked of
its class.

A request that fails is the exception to the rule that a call which does nothing
leaves no trace. `heap_alloc` counts the block before it looks whether there is one,
so that a failed request changes the statistics (`MyMalloc.heapAlloc_restores`).
-/

namespace MyMalloc

open LinkedList Placement AddressSpace ByteMemory Depot

/-! ### A superblock that is acquired -/

/-- What a superblock of the global heap brings with it: its blocks in use. -/
def Core.brought (c : Core) (x : ℕ) : ℕ :=
  if c.Owns .global x then toSize (usedBytes (c.header x)) else 0

namespace Depot

variable {d d₁ : Depot} {heap heap' : HeapId} {binIdx x : ℕ}

/-- **No other superblock is touched** when one is acquired. -/
theorem Acquires.header_of_ne {src : Source} (h : d.Acquires heap binIdx src x d₁) {y : ℕ}
    (hy : y ≠ x) : d₁.core.header y = d.core.header y := by
  cases h with
  | bin => rfl
  | recycled => exact Function.update_of_ne hy ..
  | globalBin => exact Core.setOwner_header_of_ne hy
  | globalRecycled =>
    exact (Core.setOwner_header_of_ne hy).trans (congrFun (d.popGlobal_header x) y)
  | new ptr x c hptr hc =>
    refine (Core.setOwner_header_of_ne hy).trans ((Function.update_of_ne hy ..).trans ?_)
    exact congrFun (Core.allocateNewSuperblock_frame hc).2.1 y

/-- No superblock disappears when one is acquired. -/
theorem Acquires.mem_superblocks {src : Source} (h : d.Acquires heap binIdx src x d₁) {y : ℕ}
    (hy : y ∈ d.core.superblocks) : y ∈ d₁.core.superblocks := by
  cases h with
  | bin => exact hy
  | recycled => exact hy
  | globalBin => exact hy
  | globalRecycled =>
    exact (d.popGlobal_superblocks x).symm ▸ hy
  | new ptr x c hptr hc =>
    rw [create_superblocks hc]
    exact List.mem_cons_of_mem _ hy

/-- **No other heap is touched** when a superblock is acquired. -/
theorem Acquires.usage_of_ne {src : Source} (h : d.Acquires heap binIdx src x d₁)
    (hne : heap' ≠ heap) : d₁.core.usage heap' = d.core.usage heap' := by
  cases h with
  | bin => rfl
  | recycled => rfl
  | globalBin => exact Core.adopt_usage_of_ne hne
  | globalRecycled =>
    exact (Core.adopt_usage_of_ne hne).trans (congrFun (d.popGlobal_usage x) heap')
  | new ptr x c hptr hc =>
    exact (Core.incAlloced_usage_of_ne hne).trans
      (congrFun (Core.allocateNewSuperblock_frame hc).1 heap')

/-- A superblock of the global heap is none of a thread heap. -/
theorem not_owns_of_global {c : Core} (hheap : heap ≠ .global) (h : c.Owns .global x) :
    ¬c.Owns heap x :=
  fun h' => hheap (Option.some.inj (h'.2.symm.trans h.2))

/-- **The superblock is counted** if the heap did not own it. -/
theorem Acquires.alloced (hd : d.Inv) (hheap : heap ≠ .global) {src : Source}
    (hsrc : d.Present heap binIdx src) (h : d.Acquires heap binIdx src x d₁) :
    (d₁.core.usage heap).alloced = if d.core.Owns heap x then (d.core.usage heap).alloced
      else add64 (d.core.usage heap).alloced superblockSize := by
  cases h with
  | bin e =>
    have howns : d.core.Owns heap x := hd.owns hsrc.2
    rw [if_pos howns]
    rfl
  | recycled =>
    have howns : d.core.Owns heap x := hd.owns (p := .recycle heap) hsrc
    rw [if_pos howns]
    rfl
  | globalBin e =>
    rw [if_neg (not_owns_of_global hheap (hd.owns hsrc.2))]
    exact Core.adopt_alloced
  | globalRecycled =>
    have hx : x ∈ d.lists (.recycle .global) := hsrc
    rw [if_neg (not_owns_of_global hheap (hd.owns hx))]
    refine Core.adopt_alloced.trans ?_
    rw [popGlobal_usage]
  | new ptr x c hptr hc =>
    rw [if_neg fun h => hd.not_mem_of_fresh hptr hc h.1,
      ← (Core.allocateNewSuperblock_frame hc).1]
    exact Core.incAlloced_alloced_self

/-- **The blocks in use are counted** that a superblock brings from the global heap. -/
theorem Acquires.inUse (hd : d.Inv) (hheap : heap ≠ .global) {src : Source}
    (hsrc : d.Present heap binIdx src) (h : d.Acquires heap binIdx src x d₁) (n : ℕ) :
    add64 (d₁.core.usage heap).inUse n =
      add64 (d.core.usage heap).inUse (d.core.brought x + n) := by
  -- Only a superblock of the global heap brings blocks in use with it.
  have hnone : ¬d.core.Owns .global x → add64 (d.core.usage heap).inUse n =
      add64 (d.core.usage heap).inUse (d.core.brought x + n) := by
    intro hnot
    rw [Core.brought, if_neg hnot, Nat.zero_add]
  have hsome : d.core.Owns .global x → add64 (add64 (d.core.usage heap).inUse
      (toSize (usedBytes (d.core.header x)))) n =
        add64 (d.core.usage heap).inUse (d.core.brought x + n) := by
    intro howns
    rw [Core.brought, if_pos howns]
    simp only [add64, Nat.mod_add_mod, Nat.add_assoc]
  cases h with
  | bin e => exact hnone fun h => not_owns_of_global hheap h (hd.owns hsrc.2)
  | recycled =>
    have hx : x ∈ d.lists (.recycle heap) := hsrc
    exact hnone fun h => not_owns_of_global hheap h (hd.owns hx)
  | globalBin e => exact (congrArg (add64 · n) Core.adopt_inUse).trans (hsome (hd.owns hsrc.2))
  | globalRecycled =>
    have hx : x ∈ d.lists (.recycle .global) := hsrc
    have hpop : (((d.popGlobal x).adopt heap x).core.usage heap).inUse =
        add64 (d.core.usage heap).inUse (toSize (usedBytes (d.core.header x))) := by
      refine Core.adopt_inUse.trans ?_
      rw [popGlobal_usage, popGlobal_header]
    exact (congrArg (add64 · n) hpop).trans (hsome (hd.owns hx))
  | new ptr x c hptr hc =>
    have husage := congrFun (Core.allocateNewSuperblock_frame hc).1 heap
    refine Eq.trans ?_ (hnone fun h => hd.not_mem_of_fresh hptr hc h.1)
    exact congrArg (add64 · n) (Core.incAlloced_inUse.trans (congrArg Usage.inUse husage))

end Depot

/-! ### What `heap_alloc` changes -/

/-- **The effect of `heap_alloc`** when it returns a block to a heap. -/
structure World.Allocated (w : World) (heap : HeapId) (size p : ℕ) (s' : State) : Prop where
  notLive : ∀ b ∈ w.live, b.1 ≠ p
  /-- The block overlaps none that was live, at the size it is carved for. -/
  disjoint : ∀ b ∈ w.live, p + (s'.header (superblockOf p)).blockSize ≤ b.1 ∨
    b.1 + (w.state.header (superblockOf b.1)).blockSize ≤ p
  /-- Exactly the block joins the live blocks: in every superblock, those that are not
  live are the free list and what was never handed out. -/
  live : ∀ x ∈ s'.superblocks, ∃ free,
    Sound x (s'.header x) s'.mem (liveIn ((p, size) :: w.live) x) free
  superblocks : ∀ x ∈ w.state.superblocks, x ∈ s'.superblocks
  blockSize : ∀ b ∈ w.live, (s'.header (superblockOf b.1)).blockSize =
    (w.state.header (superblockOf b.1)).blockSize
  /-- The bytes of the live blocks stay. -/
  mem : ∀ b ∈ w.live, ∀ a, b.1 ≤ a → a < b.1 + (w.state.header (superblockOf b.1)).blockSize →
    s'.mem a = w.state.mem a
  owns : s'.Owns heap (superblockOf p)
  owner : ∀ x, x ≠ superblockOf p → (s'.header x).owner = (w.state.header x).owner
  alloced : (s'.usage heap).alloced = if w.state.Owns heap (superblockOf p) then
    (w.state.usage heap).alloced else add64 (w.state.usage heap).alloced superblockSize
  inUse : (s'.usage heap).inUse = add64 (w.state.usage heap).inUse
    (w.state.brought (superblockOf p) + idx2class (binOf size))
  usage : ∀ h, h ≠ heap → s'.usage h = w.state.usage h

namespace Depot

variable {d d₁ : Depot} {heap : HeapId} {binIdx x : ℕ}

/-- The live blocks of a superblock, whatever they were requested for. -/
theorem liveIn_cons_size (p n n' : ℕ) (live : List (ℕ × ℕ)) (x : ℕ) :
    liveIn ((p, n) :: live) x = liveIn ((p, n') :: live) x := rfl

/-- The superblock that hands out a block belongs to the heap. -/
theorem Held.handOut_owns (hd : d.Held heap x) {p size : ℕ} {header : SuperblockHeader}
    (hserves : Serves d x p header size) :
    (d.handOut heap binIdx x p header size).core.Owns heap x := by
  have hself : (d.handOut heap binIdx x p header size).core.header x = header :=
    Function.update_self ..
  refine ⟨hd.inv.transit_known x hd.transit, ?_⟩
  rw [hself]
  exact hserves.same.owner.trans hd.owner

/-- **The effect on the depot** of a request that is served. -/
theorem Acquires.allocated {w : World} (hM : w.Models d) (hd : d.Inv) (hheap : heap ≠ .global)
    {size : ℕ} (hsize : size ≤ maxBlockSize) {src : Source} (hsrc : d.Present heap (binOf size) src)
    (h : d.Acquires heap (binOf size) src x d₁) {p : ℕ} {header : SuperblockHeader}
    (hserves : Serves d₁ x p header 0) {s' : State}
    (hs' : s'.toCore = (d₁.handOut heap (binOf size) x p header 0).core) :
    w.Allocated heap size p s' := by
  have hcore : w.state.toCore = d.core := hM.refines.core
  have hlive : d₁.live = w.live := h.live.trans hM.live
  have hgrows : Grows d (d₁.handOut heap (binOf size) x p header 0) :=
    (h.grows hd hsrc).handOut hserves.same
  have hheld := h.held hd (binOf_lt hsize) hsrc
  have hinv := hserves.inv
  -- A live block at the same address would be one of the superblock that serves.
  have hnot : ∀ b ∈ w.live, b.1 ≠ p := by
    rintro b hb rfl
    have hmem := Inv.mem_liveIn (hlive ▸ hb)
    rw [hserves.superblockOf] at hmem
    exact hserves.notLive hmem
  have hknown : ∀ b ∈ w.live, superblockOf b.1 ∈ d.core.superblocks ∧
      liveIn d.live (superblockOf b.1) ≠ [] := by
    intro b hb
    rw [← hM.live] at hb
    exact ⟨(hd.live_known b hb).1, List.ne_nil_of_mem (Inv.mem_liveIn hb)⟩
  -- A superblock with a live block is not carved anew.
  have hsize : ∀ b ∈ w.live,
      ((d₁.handOut heap (binOf size) x p header 0).core.header (superblockOf b.1)).blockSize =
        (d.core.header (superblockOf b.1)).blockSize :=
    fun b hb => hgrows.blockSize _ (hknown b hb).1 (hknown b hb).2
  exact {
    notLive := hnot
    disjoint := fun b hb => by
      rw [hs', hcore, ← hsize b hb]
      exact hinv.blocks_disjoint (List.mem_cons_self ..)
        (List.mem_cons_of_mem _ (hlive.symm ▸ hb)) (hnot b hb).symm
    live := fun y hy => by
      rw [hs'] at hy ⊢
      rw [← hlive, liveIn_cons_size p size 0]
      exact (hinv.carved y hy).sound
    superblocks := fun y hy => by
      rw [hcore] at hy
      rw [hs']
      exact h.mem_superblocks hy
    blockSize := fun b hb => by
      rw [hs', hcore]
      exact hsize b hb
    mem := fun b hb a ha ha' => by
      rw [hs', hcore]
      rw [hcore] at ha'
      have hb' : b ∈ d.live := hM.live.symm ▸ hb
      obtain ⟨hlo, hhi⟩ := hd.live_mem hb'
      exact hgrows.mem a ((hd.placed _ (hknown b hb).1).covers a (by omega) (by omega))
    owns := by
      rw [hs', hserves.superblockOf]
      exact hheld.handOut_owns hserves
    owner := fun y hy => by
      rw [hserves.superblockOf] at hy
      rw [hs', hcore]
      refine congrArg SuperblockHeader.owner (Eq.trans ?_ (h.header_of_ne hy))
      exact Function.update_of_ne hy ..
    alloced := by
      rw [hs', hcore, hserves.superblockOf, ← h.alloced hd hheap hsrc]
      exact Core.incUsage_alloced
    inUse := by
      rw [hs', hcore, hserves.superblockOf, ← h.inUse hd hheap hsrc]
      exact Core.incUsage_inUse_self
    usage := fun h' hh => by
      rw [hs', hcore, ← h.usage_of_ne hh]
      exact Core.incUsage_usage_of_ne hh }

end Depot

/-- **`heap_alloc` on the depot**: it acquires a superblock from its source and hands out
a block of it, or returns `NULL`. -/
theorem State.heapAlloc_outcome {s : State} {d : Depot} (hR : Refines s d) (hd : d.Inv)
    (heap : HeapId) {size : ℕ} (hsize : size ≤ maxBlockSize) {mmap : Option ℕ}
    (hmmap : ∀ ptr ∈ mmap, MapsFresh d.core.mapped ptr (2 * superblockSize)) :
    (∃ x d₁ p header s', d.Present heap (binOf size) (s.source heap (binOf size)) ∧
      d.Acquires heap (binOf size) (s.source heap (binOf size)) x d₁ ∧ Serves d₁ x p header 0 ∧
      s.heapAlloc heap size mmap = some (some p, s') ∧
      Refines s' (d₁.handOut heap (binOf size) x p header 0)) ∨
    ∃ s', s.heapAlloc heap size mmap = some (none, s') := by
  rcases State.binAlloc_outcome hR hd (binOf_lt hsize) hmmap (Nat.zero_le _)
    (fun _ _ => Nat.zero_le _) with
    ⟨x, d₁, p, header, s₁, hpresent, hacquires, hserves, halloc, hR₁⟩ | ⟨-, -, halloc⟩
  · refine Or.inl ⟨x, d₁, p, header, _, hpresent, hacquires, hserves,
      State.heapAlloc_eq hsize halloc, ?_, hR₁.represents.setCore _⟩
    show s₁.toCore.incUsage heap (idx2class (binOf size)) = _
    rw [hR₁.core]
    rfl
  · exact Or.inr ⟨_, State.heapAlloc_eq hsize halloc⟩

/-- **`heap_alloc`** on a thread heap, from any well-formed state and with whatever
`mmap` answers: it meets no fault, and if it returns a block, it changes just this. -/
theorem heapAlloc_effect {w : World} (hw : w.WellFormed) {i size : ℕ} {mmap : Option ℕ}
    (hlegal : w.Legal (.alloc i size mmap)) :
    ∃ r s', w.state.heapAlloc (.thread i) size mmap = some (r, s') ∧
      ∀ p, r = some p → w.Allocated (.thread i) size p s' := by
  obtain ⟨d, hM, hd⟩ := World.wellFormed_iff.mp hw
  obtain ⟨-, hsize, hmmap⟩ := hlegal
  have hmapped : w.state.mapped = d.core.mapped := by rw [hM.refines.core]
  rw [hmapped] at hmmap
  rcases State.heapAlloc_outcome hM.refines hd (.thread i) hsize hmmap with
    ⟨x, d₁, p, header, s', hpresent, hacquires, hserves, halloc, hs'⟩ | ⟨s', halloc⟩
  · refine ⟨_, _, halloc, ?_⟩
    rintro _ ⟨rfl⟩
    exact hacquires.allocated hM hd HeapId.noConfusion hsize hpresent hserves hs'.core
  · exact ⟨_, _, halloc, fun p hp => nomatch hp⟩

/-- A superblock of blocks of 16 bytes comes from the recycle list of the global heap,
and serves a request for 100000. -/
theorem heapAlloc_effect_recycled : ∃ w s',
    Trace.run World.step World.initial fiveClasses = some w ∧
    w.state.heapAlloc (.thread 1) 100000 none = some (some 1048720, s') ∧
    w.Allocated (.thread 1) 100000 1048720 s' := by
  have hlast : (Trace.run World.step World.initial fiveClasses).map (fun w =>
      (decide (w.Legal (.alloc 1 100000 none)),
        (w.state.heapAlloc (.thread 1) 100000 none).map Prod.fst)) =
      some (true, some (some 1048720)) := by decide +kernel
  obtain ⟨w, hrun, hw⟩ := Option.map_eq_some_iff.mp hlast
  obtain ⟨hlegal, hresult⟩ := Prod.mk.inj hw
  obtain ⟨r, s', halloc, heffect⟩ := heapAlloc_effect
    (World.wellFormed_of_run (by decide +kernel) hrun) (of_decide_eq_true hlegal)
  rw [halloc, Option.map_some] at hresult
  obtain rfl := Option.some.inj hresult
  exact ⟨w, s', hrun, halloc, heffect _ rfl⟩

/-! ### A request that fails -/

namespace State

variable {s s' : State} {heap : HeapId} {b : ℕ}

/-- **No heap has a superblock to offer** for a bin. -/
def Exhausted (s : State) (heap : HeapId) (binIdx : ℕ) : Prop :=
  s.firstNonempty (heap, binIdx) = none ∧ s.recycledSuperblock heap = none ∧
    (s.sizeBins (.global, binIdx)).numNonfullSuperblocks = 0 ∧
    s.recycledSuperblock .global = none

instance (s : State) (heap : HeapId) (binIdx : ℕ) : Decidable (s.Exhausted heap binIdx) :=
  inferInstanceAs (Decidable (_ ∧ _))

/-- **A `heap_alloc` that returns `NULL` restores the state.** -/
def Restores (s : State) (heap : HeapId) (size : ℕ) (mmap : Option ℕ) : Prop :=
  ∀ s', s.heapAlloc heap size mmap = some (none, s') → s' = s

/-- The search of the heap's own lists fails when they are empty. -/
theorem binAllocLocal_eq_none_iff {bm : BinPtr} {sizeClass : ℕ} {s₁ : State} :
    s.binAllocLocal heap bm sizeClass = (none, s₁) ↔
      s.firstNonempty bm = none ∧ s.recycledSuperblock heap = none ∧ s₁ = s := by
  rw [binAllocLocal]
  cases hfound : s.firstNonempty bm with
  | some found => simp
  | none =>
    cases hhead : s.recycledSuperblock heap with
    | some x => simp
    | none => simp [eq_comm]

/-- The search of the global heap fails when its lists are empty. -/
theorem getSbFromGlobal_eq_none_iff (hb : b < numSizeBins) {s₁ : State} :
    s.getSbFromGlobal (idx2class b) = some (none, s₁) ↔
      (s.sizeBins (.global, b)).numNonfullSuperblocks = 0 ∧
        s.recycledSuperblock .global = none ∧ s₁ = s := by
  simp only [getSbFromGlobal, size2idx_eq (idx2class_le hb), binOf_idx2class hb,
    Option.bind_eq_bind, Option.bind_some]
  split
  · rename_i hpos
    simp [Option.bind_eq_some_iff]
    omega
  · rename_i hzero
    cases hhead : s.recycledSuperblock .global with
    | some x => simp
    | none =>
      simp [eq_comm]
      omega

/-- No superblock is new exactly when `mmap` fails. -/
theorem binAllocNew_eq_none_iff {mmap : Option ℕ} {sizeClass : ℕ} {s₁ : State} :
    s.binAllocNew heap mmap sizeClass = (none, s₁) ↔ mmap = none ∧ s₁ = s := by
  cases mmap with
  | none =>
    have hnone : s.binAllocNew heap none sizeClass = (none, s) := rfl
    rw [hnone, Prod.mk.injEq]
    exact ⟨fun h => ⟨rfl, h.2.symm⟩, fun h => ⟨rfl, h.2.symm⟩⟩
  | some ptr => simp [binAllocNew, initSuperblock, Core.allocateNewSuperblock]

/-- **`bin_alloc` returns `NULL`** when no heap has a superblock to offer and `mmap`
fails, and changes nothing then. -/
theorem binAlloc_eq_none_iff (hb : b < numSizeBins) {mmap : Option ℕ} :
    s.binAlloc heap (heap, b) (idx2class b) mmap = some (none, s') ↔
      s.Exhausted heap b ∧ mmap = none ∧ s' = s := by
  constructor
  · intro h
    -- The three searches fail one after the other, each leaving the state as it was.
    rw [binAlloc] at h
    split at h
    · simp [Option.bind_eq_some_iff] at h
    · rename_i s₁ hlocal
      obtain ⟨hfound, hhead, rfl⟩ := binAllocLocal_eq_none_iff.mp hlocal
      obtain ⟨⟨r, s₂⟩, hglobal, hrest⟩ := Option.bind_eq_some_iff.mp h
      cases r with
      | some x => simp [Option.bind_eq_some_iff] at hrest
      | none =>
        obtain ⟨hcount, hhead', rfl⟩ := (getSbFromGlobal_eq_none_iff hb).mp hglobal
        simp only at hrest
        split at hrest
        · rename_i s₃ hnew
          obtain ⟨rfl, rfl⟩ := binAllocNew_eq_none_iff.mp hnew
          obtain rfl := (Prod.mk.inj (Option.some.inj hrest)).2
          exact ⟨⟨hfound, hhead, hcount, hhead'⟩, rfl, rfl⟩
        · simp [Option.bind_eq_some_iff] at hrest
  · rintro ⟨⟨hfound, hhead, hcount, hhead'⟩, rfl, rfl⟩
    exact binAlloc_eq_none (binAllocLocal_eq_none_iff.mpr ⟨hfound, hhead, rfl⟩)
      ((getSbFromGlobal_eq_none_iff hb).mpr ⟨hcount, hhead', rfl⟩)

/-- **`heap_alloc` returns `NULL`** on the same condition. The request is counted all
the same. -/
theorem heapAlloc_eq_none_iff {size : ℕ} (hsize : size ≤ maxBlockSize) {mmap : Option ℕ} :
    s.heapAlloc heap size mmap = some (none, s') ↔ s.Exhausted heap (binOf size) ∧ mmap = none ∧
      s' = s.setCore (s.toCore.incUsage heap (idx2class (binOf size))) := by
  constructor
  · intro h
    simp only [heapAlloc, size2idx_eq hsize, Option.bind_eq_bind, Option.bind_some] at h
    obtain ⟨⟨r, s₁⟩, halloc, h⟩ := Option.bind_eq_some_iff.mp h
    obtain ⟨rfl, rfl⟩ := Prod.mk.inj (Option.some.inj h)
    obtain ⟨hexhausted, hmmap, rfl⟩ := (binAlloc_eq_none_iff (binOf_lt hsize)).mp halloc
    exact ⟨hexhausted, hmmap, rfl⟩
  · rintro ⟨hexhausted, hmmap, rfl⟩
    exact heapAlloc_eq hsize ((binAlloc_eq_none_iff (binOf_lt hsize)).mpr ⟨hexhausted, hmmap, rfl⟩)

/-- Counting a block changes the statistics. -/
theorem incUsage_ne {n : ℕ} (hpos : 0 < n) (hlt : n < 2 ^ 64) :
    s.setCore (s.toCore.incUsage heap n) ≠ s := by
  intro heq
  have hinUse := congrArg (fun s : State => (s.usage heap).inUse) heq
  have hadd : add64 (s.usage heap).inUse n = (s.usage heap).inUse :=
    Core.incUsage_inUse_self.symm.trans hinUse
  rw [add64] at hadd
  omega

end State

/-- **A request that fails leaves a trace**: `heap_alloc` restores the state exactly
when there is nothing to restore, some heap having a superblock to offer, or `mmap`
succeeding. -/
theorem heapAlloc_restores (s : State) (i : ℕ) {size : ℕ} (hsize : size ≤ maxBlockSize)
    (mmap : Option ℕ) :
    s.Restores (.thread i) size mmap ↔
      ¬(s.Exhausted (.thread i) (binOf size) ∧ mmap = none) := by
  have hclass := isClass_idx2class (binOf_lt hsize)
  have hpos := hclass.pos
  have hle := hclass.le
  rw [superblockSize_eq, sizeofSuperblockHeader_eq] at hle
  constructor
  · rintro h ⟨hexhausted, hmmap⟩
    have heq := h _ ((State.heapAlloc_eq_none_iff hsize).mpr ⟨hexhausted, hmmap, rfl⟩)
    exact State.incUsage_ne (by omega) (by omega) heq
  · intro hnot s' h
    obtain ⟨hexhausted, hmmap, -⟩ := (State.heapAlloc_eq_none_iff hsize).mp h
    exact absurd ⟨hexhausted, hmmap⟩ hnot

/-- A request for which `mmap` succeeds. -/
theorem heapAlloc_restores_mapped : ({} : State).Restores (.thread 0) 16 (some 1048576) :=
  (heapAlloc_restores {} 0 (by decide +kernel) (some 1048576)).mpr (by decide +kernel)

/-- **A failed request is counted**: the statistics are not what they were. -/
theorem failed_request_counted : ∃ s',
    ({} : State).heapAlloc (.thread 0) 16 none = some (none, s') ∧ s' ≠ {} := by
  have hsize : 16 ≤ maxBlockSize := by decide +kernel
  refine ⟨_, (State.heapAlloc_eq_none_iff hsize).mpr ⟨by decide +kernel, rfl, rfl⟩, fun heq => ?_⟩
  have hinUse : (({} : Core).incUsage (.thread 0) (idx2class (binOf 16))).usage (.thread 0) = {} :=
    congrArg (fun s : State => s.usage (.thread 0)) heq
  exact absurd hinUse (by decide +kernel)

end MyMalloc
