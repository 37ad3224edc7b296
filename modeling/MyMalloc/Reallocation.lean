import MyMalloc.LiveBlocks
import MyMalloc.AllocEffect
import MyMalloc.Release

/-!
# What `realloc` does with the old block

`realloc` has two ways. From a large block to a large size it calls `large_realloc`, in
all other cases it allocates, copies and frees.

When it fails, the two do not agree. `large_realloc` leaves the caller its block, the
other way frees it (`MyMalloc.failed_realloc_frees`). And a null pointer it answers by
`NULL` without trying to allocate anything. Apart from these two cases a `realloc` that
returns `NULL` has failed to map memory, and the block is what it was
(`MyMalloc.realloc_fails_atomically`): also if `free` was called on it in vain, a small
block that is taken for a large one and that `munmap` refuses.

When it succeeds, the new block begins with the bytes of the old one, and the old block
is freed after they are copied (`MyMalloc.realloc_moves`).
-/

namespace MyMalloc

open LinkedList Placement AddressSpace ByteMemory Depot

namespace State

variable {s s' : State} {heap : HeapId} {p size : ℕ} {mmap r : Option ℕ}

/-! ### The way through `malloc` and `free` -/

/-- `num_bytes_to_copy`, where `s₁` is the state after `malloc`. -/
def numBytesToCopy (s s₁ : State) (ptr size : ℕ) : ℕ :=
  if s.toCore.isLargeAlloc ptr then size else min (s₁.getBlockSize ptr) size

/-- The state in which `realloc` frees the old block: the bytes are copied. -/
def copied (s s₁ : State) (newPtr ptr size : ℕ) : State :=
  s₁.setCore (s₁.toCore.copy newPtr ptr (s.numBytesToCopy s₁ ptr size))

/-- `malloc` finds nothing to allocate from: `mmap` fails, and no heap has a superblock
to offer for a small size. -/
def Refuses (s : State) (heap : HeapId) (size : ℕ) (mmap : Option ℕ) : Prop :=
  mmap = none ∧ (size ≤ maxBlockSize → s.Exhausted heap (binOf size))

instance (s : State) (heap : HeapId) (size : ℕ) (mmap : Option ℕ) :
    Decidable (s.Refuses heap size mmap) := inferInstanceAs (Decidable (_ ∧ _))

/-- The state after a `malloc` that fails: a request for a small block is counted. -/
def refused (s : State) (heap : HeapId) (size : ℕ) : State :=
  if maxBlockSize < size then s
  else s.setCore (s.toCore.incUsage heap (idx2class (binOf size)))

/-- Counting a request changes the statistics only. -/
theorem refused_eq (s : State) (heap : HeapId) (size : ℕ) :
    ∃ usage, s.refused heap size = s.setCore { s.toCore with usage := usage } := by
  rw [refused]
  split
  · exact ⟨s.usage, rfl⟩
  · exact ⟨_, rfl⟩

/-- **`malloc` returns `NULL`** exactly when it is refused. -/
theorem malloc_eq_none_iff (hpos : size ≠ 0) :
    s.malloc heap size mmap = some (none, s') ↔
      s.Refuses heap size mmap ∧ s' = s.refused heap size := by
  rw [malloc, if_neg hpos, Refuses, refused]
  by_cases hsize : maxBlockSize < size
  · rw [if_pos hsize, if_pos hsize]
    cases mmap with
    | none =>
      have hnone : s.setCore (s.toCore.largeAlloc size none).2 = s := rfl
      simp only [Core.largeAlloc, Core.mapPages, Option.some.injEq, Prod.mk.injEq, true_and]
      constructor
      · rintro rfl
        exact ⟨fun h => absurd hsize (Nat.not_lt.mpr h), rfl⟩
      · exact fun h => h.2.symm
    | some ptr => simp [Core.largeAlloc, Core.mapPages]
  · rw [if_neg hsize, if_neg hsize, heapAlloc_eq_none_iff (Nat.le_of_not_lt hsize)]
    constructor
    · rintro ⟨hexhausted, hmmap, heq⟩
      exact ⟨⟨hmmap, fun _ => hexhausted⟩, heq⟩
    · rintro ⟨⟨hmmap, hexhausted⟩, heq⟩
      exact ⟨hexhausted (Nat.le_of_not_lt hsize), hmmap, heq⟩

/-- `old_large && new_large` does not hold. -/
theorem not_bothLarge (hnot : ¬(s.toCore.isLargeAlloc p = true ∧ maxBlockSize < size)) :
    (s.toCore.isLargeAlloc p && decide (maxBlockSize < size)) = false := by
  rw [Bool.eq_false_iff, ne_eq, Bool.and_eq_true_iff, decide_eq_true_eq]
  exact hnot

/-- **The outcomes of `realloc`** when it does not call `large_realloc`. -/
theorem realloc_cases (hpos : size ≠ 0)
    (hnot : ¬(s.toCore.isLargeAlloc p = true ∧ maxBlockSize < size))
    (h : s.realloc heap (some p) size mmap = some (r, s')) :
    (r = none ∧ ∃ s₁, s.malloc heap size mmap = some (none, s₁) ∧ s₁.free (some p) = some s') ∨
    ∃ q s₁, r = some q ∧ s.malloc heap size mmap = some (some q, s₁) ∧
      s₁.toCore.memcpy q p (s.numBytesToCopy s₁ p size) = some (s.copied s₁ q p size).toCore ∧
      (s.copied s₁ q p size).free (some p) = some s' := by
  simp only [realloc, if_neg hpos, not_bothLarge hnot, Bool.false_eq_true, if_false] at h
  obtain ⟨⟨r', s₁⟩, hmalloc, h⟩ := Option.bind_eq_some_iff.mp h
  cases r' with
  | none =>
    obtain ⟨s₂, hfree, h⟩ := Option.bind_eq_some_iff.mp h
    obtain ⟨rfl, rfl⟩ := Prod.mk.inj (Option.some.inj h)
    exact Or.inl ⟨rfl, s₁, hmalloc, hfree⟩
  | some q =>
    obtain ⟨c, hcopy, h⟩ := Option.bind_eq_some_iff.mp h
    obtain ⟨s₂, hfree, h⟩ := Option.bind_eq_some_iff.mp h
    obtain ⟨rfl, rfl⟩ := Prod.mk.inj (Option.some.inj h)
    obtain rfl := Core.eq_of_memcpy hcopy
    exact Or.inr ⟨q, s₁, rfl, hmalloc, hcopy, hfree⟩

/-- `realloc` when `malloc` is refused: it frees the block. -/
theorem realloc_of_refuses (hpos : size ≠ 0)
    (hnot : ¬(s.toCore.isLargeAlloc p = true ∧ maxBlockSize < size))
    (hrefuses : s.Refuses heap size mmap) (hfree : (s.refused heap size).free (some p) = some s') :
    s.realloc heap (some p) size mmap = some (none, s') :=
  Process.realloc_eq_none hpos (not_bothLarge hnot)
    ((malloc_eq_none_iff hpos).mpr ⟨hrefuses, rfl⟩) hfree

end State

/-! ### Live blocks -/

/-- **A block is live**: it is a large block with its pages mapped, or a block of a
superblock that is neither on its free list nor beyond its cursor. -/
def Core.IsLive (c : Core) (b : ℕ × ℕ) : Prop :=
  LargeBlock c b ∨ superblockOf b.1 ∈ c.superblocks ∧ ∃ live free,
    Sound (superblockOf b.1) (c.header (superblockOf b.1)) c.mem live free ∧ b.1 ∈ live

/-- **A block at the head of a free list is not live.** -/
theorem Core.not_isLive_of_freeList {c : Core} {b : ℕ × ℕ}
    (hsb : superblockOf b.1 ∈ c.superblocks) (hlo : superblockOf b.1 + 128 ≤ b.1)
    (hhi : b.1 < superblockOf b.1 + superblockSize)
    (hfree : (c.header (superblockOf b.1)).freeList = some b.1) : ¬c.IsLive b := by
  rintro (hlarge | ⟨-, live, free, hs, hmem⟩)
  · have hapart := hlarge.apart _ hsb
    have hbase := hlarge.base_add
    have hpos := hlarge.pos
    simp only [Apart] at hapart
    omega
  · have hhead := hs.chain.head_eq
    rw [hfree] at hhead
    have hmem' := List.mem_of_head? hhead.symm
    exact (List.nodup_append.mp hs.nodup).2.2 _ hmem _ hmem' rfl

/-- **A large block whose pages are unmapped is not live.** -/
theorem LargeBlock.not_isLive {c c' : Core} {b : ℕ × ℕ} (h : LargeBlock c b)
    (hc' : c' = { c with mapped := unmap c.mapped (spanOf b).1 (spanOf b).2 }) :
    ¬c'.IsLive b := by
  have hbase := h.base_add
  have hadd := h.add_le
  subst hc'
  rintro (hlarge | ⟨hsb, -⟩)
  · have hmem : AddressSpace.Mem (spanOf b).1 (spanOf b) := ⟨le_rfl, by have := h.pos; omega⟩
    exact (covers_unmap.mp (hlarge.covers _ hmem)).2 hmem
  · -- Its address would lie in a superblock.
    have hle := h.le
    rw [userSpace_eq] at hle
    have hsb' : superblockOf b.1 = b.1 / 262144 * 262144 := superblockOf_eq (by omega)
    have hapart := h.apart _ hsb
    have hpage : 16 < (spanOf b).2 := by
      simp only [spanOf, pageUp, pageSize, sizeofMmapHeader]
      omega
    simp only [Apart, superblockSize_eq] at hapart
    omega

namespace Process

variable {w : Process} {b : ℕ × ℕ} {heap : HeapId} {size : ℕ} {mmap : Option ℕ}

/-- A pointer about which `is_large_alloc` is right. -/
def Knows (w : Process) (ptr : ℕ) : Prop := w.state.toCore.isLargeAlloc ptr = true ↔ w.IsLarge ptr

/-- **The live blocks of a well-formed process are live.** -/
theorem WellFormed.isLive (hw : w.WellFormed) (hb : b ∈ w.small ++ w.large) :
    w.state.toCore.IsLive b := by
  rcases List.mem_append.mp hb with hb | hb
  · obtain ⟨d, hM, hd⟩ := World.wellFormed_iff.mp hw.small
    have hcore : w.state.toCore = d.core := hM.refines.core
    have hb : b ∈ d.live := hM.live ▸ hb
    have hsb := (hd.live_known b hb).1
    obtain ⟨free, hs⟩ := (hd.carved _ hsb).sound
    rw [hcore]
    exact Or.inr ⟨hsb, _, free, hs, Inv.mem_liveIn hb⟩
  · exact Or.inl (hw.large b hb)

/-- A request that is refused leaves a well-formed process. -/
theorem WellFormed.refused (hw : w.WellFormed) (heap : HeapId) (size : ℕ) :
    ({ w with state := w.state.refused heap size } : Process).WellFormed := by
  rw [State.refused]
  split
  · exact hw
  · obtain ⟨d, ⟨⟨hcore, hrep⟩, hlive, htransit⟩, hd⟩ := World.wellFormed_iff.mp hw.small
    refine ⟨World.wellFormed_iff.mpr ⟨d.setCore (d.core.incUsage heap (idx2class (binOf size))),
      ⟨⟨?_, hrep.setCore _⟩, hlive, htransit⟩, hd.congr_core rfl rfl rfl rfl⟩,
      fun b hb => (hw.large b hb).congr (fun _ _ _ => rfl) (hw.large b hb).covers
        fun x hx => Or.inl hx, hw.size, hw.apart⟩
    rw [← hcore]
    rfl

/-- **A block that is freed is not live.** -/
theorem WellFormed.free (hw : w.WellFormed) (hb : b ∈ w.small ++ w.large) (hknows : w.Knows b.1) :
    ∃ s', w.state.free (some b.1) = some s' ∧ ¬s'.toCore.IsLive b := by
  rcases List.mem_append.mp hb with hb | hb
  · have hsmall : ¬w.state.toCore.isLargeAlloc b.1 = true := by
      rintro h
      obtain ⟨b', hb', heq⟩ := hknows.mp h
      exact hw.ne_of_small_of_large hb hb' heq.symm
    obtain ⟨d, hM, hd⟩ := World.wellFormed_iff.mp hw.small
    obtain ⟨w', d', hw', hstep, hM'⟩ := World.simulates_free hM hd ⟨b, hb, rfl⟩
    obtain ⟨s', hfree, hw'⟩ := Option.bind_eq_some_iff.mp hw'
    obtain rfl := Option.some.inj hw'
    refine ⟨s', by rw [State.free, if_neg hsmall]; exact hfree, ?_⟩
    obtain ⟨hsb, hlo, hhi, -, hpos⟩ := hw.small_mem hb
    have hcore : w.state.toCore = d.core := hM.refines.core
    have hcore' : s'.toCore = d'.core := hM'.refines.core
    rw [hcore] at hsb
    rw [hcore']
    exact Core.not_isLive_of_freeList ((hstep.frees hd).superblocks ▸ hsb) hlo (by omega)
      (hstep.freeList hd)
  · have hlarge := hw.large b hb
    exact ⟨_, by rw [State.free, if_pos hlarge.isLargeAlloc],
      hlarge.not_isLive hlarge.largeFree_eq⟩

/-! ### Failure -/

/-- **A `realloc` that returns `NULL` fails atomically**: it asked for memory in vain,
so that it would have done something else had `mmap` answered otherwise, and the old
block is live as before, mapped, of the same size and with the same bytes. -/
def FailsAtomically (w : Process) (heap : HeapId) (ptr : Option ℕ) (size : ℕ)
    (mmap : Option ℕ) : Prop :=
  ∀ s', w.state.realloc heap ptr size mmap = some (none, s') →
    (mmap = none ∧ ∃ mmap', w.state.realloc heap ptr size mmap' ≠ some (none, s')) ∧
    ∀ b ∈ w.small ++ w.large, ptr = some b.1 → s'.toCore.IsLive b ∧
      (∀ a, AddressSpace.Mem a (w.regionOf b) → Covers s'.mapped a) ∧
      s'.getBlockSize b.1 = w.state.getBlockSize b.1 ∧
      load s'.mem b.1 b.2 = load w.state.mem b.1 b.2

/-- **A small block is spared**: `is_large_alloc` takes it for a large one, and `munmap`
refuses what `large_free` asks for. -/
def Spared (w : Process) (ptr : ℕ) : Prop :=
  w.state.toCore.isLargeAlloc ptr = true ∧ ¬w.IsLarge ptr ∧
    ¬CanUnmap (ptr - sizeofMmapHeader) (w.state.toCore.allocedSize ptr)

/-- **The block is freed** when `malloc` fails. -/
theorem WellFormed.realloc_refused (hw : w.WellFormed) (hb : b ∈ w.small ++ w.large)
    (hknows : w.Knows b.1) (hpos : size ≠ 0)
    (hnot : ¬(w.state.toCore.isLargeAlloc b.1 = true ∧ maxBlockSize < size))
    (hrefuses : w.state.Refuses heap size mmap) :
    ∃ s', w.state.realloc heap (some b.1) size mmap = some (none, s') ∧ ¬s'.toCore.IsLive b := by
  have hknows' : ({ w with state := w.state.refused heap size } : Process).Knows b.1 := by
    obtain ⟨usage, hrefused⟩ := w.state.refused_eq heap size
    rw [Knows, hrefused]
    exact hknows
  obtain ⟨s', hfree, hdead⟩ := (hw.refused heap size).free hb hknows'
  exact ⟨s', State.realloc_of_refuses hpos hnot hrefuses hfree, hdead⟩

/-- **The block is unmapped** if it is taken for a large one. -/
theorem realloc_unmapped {p : ℕ} (hlarge : w.state.toCore.isLargeAlloc p = true)
    (hunmap : CanUnmap (p - sizeofMmapHeader) (w.state.toCore.allocedSize p)) (hpos : size ≠ 0)
    (hnot : ¬(w.state.toCore.isLargeAlloc p = true ∧ maxBlockSize < size))
    (hrefuses : w.state.Refuses heap size mmap) (hle : sizeofMmapHeader ≤ p) :
    ∃ s', w.state.realloc heap (some p) size mmap = some (none, s') ∧ ¬Covers s'.mapped p := by
  obtain ⟨usage, hrefused⟩ := w.state.refused_eq heap size
  have hfree : (w.state.refused heap size).free (some p) =
      some ((w.state.refused heap size).setCore
        ((w.state.refused heap size).toCore.largeFree p)) := by
    rw [State.free, hrefused]
    exact if_pos hlarge
  refine ⟨_, State.realloc_of_refuses hpos hnot hrefuses hfree, ?_⟩
  have hlen := le_pageUp (w.state.toCore.allocedSize p)
  have hpage : sizeofMmapHeader < pageUp (w.state.toCore.allocedSize p) := by
    have := hunmap.2.1
    simp only [pageUp, pageSize, sizeofMmapHeader]
    omega
  have hmapped : ((w.state.refused heap size).toCore.largeFree p).mapped =
      unmap w.state.mapped (p - sizeofMmapHeader) (pageUp (w.state.toCore.allocedSize p)) := by
    rw [hrefused]
    exact congrArg Core.mapped (if_pos hunmap)
  intro hcov
  have hcov : Covers ((w.state.refused heap size).toCore.largeFree p).mapped p := hcov
  rw [hmapped, covers_unmap] at hcov
  exact hcov.2 ⟨Nat.sub_le .., by simp only; omega⟩

/-- **`realloc` does not fail atomically** when `malloc` is refused, unless the block is
spared. -/
theorem WellFormed.not_failsAtomically (hw : w.WellFormed) (hb : b ∈ w.small ++ w.large)
    (hpos : size ≠ 0) (hnot : ¬(w.state.toCore.isLargeAlloc b.1 = true ∧ maxBlockSize < size))
    (hrefuses : w.state.Refuses heap size mmap) (hspared : ¬w.Spared b.1) :
    ¬w.FailsAtomically heap (some b.1) size mmap := by
  intro h
  by_cases hknows : w.Knows b.1
  · obtain ⟨s', hrealloc, hdead⟩ := hw.realloc_refused hb hknows hpos hnot hrefuses
    exact hdead ((h s' hrealloc).2 b hb rfl).1
  · -- Only a small block is taken for what it is not.
    have hsmall : b ∈ w.small := (List.mem_append.mp hb).resolve_right fun hlarge =>
      hknows (iff_of_true (hw.large b hlarge).isLargeAlloc ⟨b, hlarge, rfl⟩)
    have hnone : ¬w.IsLarge b.1 := by
      rintro ⟨b', hb', heq⟩
      exact hw.ne_of_small_of_large hsmall hb' heq.symm
    have hlarge : w.state.toCore.isLargeAlloc b.1 = true := by
      by_contra hfound
      exact hknows (iff_of_false hfound hnone)
    have hunmap : CanUnmap (b.1 - sizeofMmapHeader) (w.state.toCore.allocedSize b.1) := by
      by_contra hfails
      exact hspared ⟨hlarge, hnone, hfails⟩
    obtain ⟨-, hlo, -, -, hsize⟩ := hw.small_mem hsmall
    rw [sizeofSuperblockHeader_eq] at hlo
    obtain ⟨s', hrealloc, hunmapped⟩ := realloc_unmapped hlarge hunmap hpos hnot hrefuses
      (by rw [sizeofMmapHeader]; omega)
    refine hunmapped (((h s' hrealloc).2 b hb rfl).2.1 b.1 ?_)
    rw [hw.regionOf_small hsmall]
    exact ⟨le_rfl, by simp only; omega⟩

/-- **`large_realloc` fails atomically.** -/
theorem WellFormed.failsAtomically_large (hw : w.WellFormed) {p : ℕ} (hsize : maxBlockSize < size)
    (hlarge : w.state.toCore.isLargeAlloc p = true) :
    w.FailsAtomically heap (some p) size mmap := by
  intro s' h
  cases mmap with
  | some newPtr =>
    obtain ⟨c, hc, -⟩ := exists_of_realloc_large hlarge hsize h
    exact absurd hc Core.largeRealloc_ne_none
  | none =>
    have hnone : w.state.realloc heap (some p) size none = some (none, w.state) :=
      realloc_eq_large hlarge hsize rfl
    obtain rfl := (Prod.mk.inj (Option.some.inj (hnone.symm.trans h))).2
    -- Any other answer of `mmap` would have moved the block.
    refine ⟨⟨rfl, some 0, ?_⟩, fun b hb _ => ⟨hw.isLive hb, fun a => hw.covers hb, rfl, rfl⟩⟩
    intro h
    obtain ⟨c, hc, -⟩ := exists_of_realloc_large hlarge hsize h
    exact Core.largeRealloc_ne_none hc

/-- **A block that is spared is what it was** when `malloc` fails. -/
theorem WellFormed.failsAtomically_spared (hw : w.WellFormed) {p : ℕ} (hpos : size ≠ 0)
    (hnot : ¬(w.state.toCore.isLargeAlloc p = true ∧ maxBlockSize < size)) (hspared : w.Spared p)
    (hrefuses : w.state.Refuses heap size mmap) : w.FailsAtomically heap (some p) size mmap := by
  intro s' h
  obtain ⟨hlarge, -, hfails⟩ := hspared
  obtain ⟨usage, hrefused⟩ := w.state.refused_eq heap size
  -- `large_free` does nothing.
  have hfree : (w.state.refused heap size).free (some p) = some (w.state.refused heap size) := by
    rw [State.free, hrefused]
    refine (if_pos hlarge).trans (congrArg some ?_)
    exact congrArg (w.state.setCore { w.state.toCore with usage := usage }).setCore (if_neg hfails)
  have hrealloc := State.realloc_of_refuses hpos hnot hrefuses hfree
  obtain rfl := (Prod.mk.inj (Option.some.inj (hrealloc.symm.trans h))).2
  refine ⟨⟨hrefuses.1, some 0, fun hc => ?_⟩, fun b hb _ => ⟨(hw.refused heap size).isLive hb, ?_⟩⟩
  · rcases State.realloc_cases hpos hnot hc with ⟨-, s₁, hmalloc, -⟩ | ⟨q, s₁, hr, -⟩
    · cases ((State.malloc_eq_none_iff hpos).mp hmalloc).1.1
    · cases hr
  · rw [hrefused]
    exact ⟨fun a => hw.covers hb, rfl, rfl⟩

end Process

/-- **`realloc` fails atomically** exactly if it is given a block, and calls
`large_realloc`, or is not refused the memory it asks for, or is given a small block that
is spared. -/
theorem realloc_fails_atomically {w : Process} (hw : w.WellFormed) (heap : HeapId)
    {ptr : Option ℕ} {size : ℕ} (hpos : 0 < size) (mmap : Option ℕ)
    (hptr : ∀ p ∈ ptr, w.IsLive p) :
    w.FailsAtomically heap ptr size mmap ↔ ∃ p, ptr = some p ∧
      (w.state.toCore.isLargeAlloc p = true ∧ maxBlockSize < size ∨
        ¬w.state.Refuses heap size mmap ∨ w.Spared p) := by
  have hne := Nat.pos_iff_ne_zero.mp hpos
  constructor
  · intro h
    cases ptr with
    | none =>
      -- A null pointer is answered at once.
      obtain ⟨⟨-, mmap', hasks⟩, -⟩ := h w.state rfl
      exact absurd rfl hasks
    | some p =>
      refine ⟨p, rfl, ?_⟩
      obtain ⟨b, hb, rfl⟩ := hptr p rfl
      by_contra hc
      obtain ⟨hnot, hc⟩ := not_or.mp hc
      obtain ⟨hrefuses, hspared⟩ := not_or.mp hc
      exact hw.not_failsAtomically hb hne hnot (not_not.mp hrefuses) hspared h
  · rintro ⟨p, rfl, hcond⟩
    by_cases hlarge : w.state.toCore.isLargeAlloc p = true ∧ maxBlockSize < size
    · exact hw.failsAtomically_large hlarge.2 hlarge.1
    by_cases hrefuses : w.state.Refuses heap size mmap
    · exact hw.failsAtomically_spared hne hlarge
        ((hcond.resolve_left hlarge).resolve_left (not_not.mpr hrefuses)) hrefuses
    · -- `malloc` does not return `NULL`, so neither does `realloc`.
      intro s' h
      rcases State.realloc_cases hne hlarge h with ⟨-, s₁, hmalloc, -⟩ | ⟨q, s₁, hr, -⟩
      · exact absurd ((State.malloc_eq_none_iff hne).mp hmalloc).1 hrefuses
      · cases hr

/-- A large block that cannot grow. -/
theorem realloc_fails_atomically_large : ∃ w,
    Trace.run Process.step {} [.malloc 0 200000 (some 4194304)] = some w ∧
    w.FailsAtomically (.thread 0) (some 4194320) 300000 none := by
  have hwell : ∃ w, Trace.run Process.step {} [.malloc 0 200000 (some 4194304)] = some w ∧
      w.WellFormed := Process.wellFormed_of_run (by decide +kernel)
  have hlast : (Trace.run Process.step {} [.malloc 0 200000 (some 4194304)]).map (fun w =>
      (w.large, w.state.toCore.isLargeAlloc 4194320)) =
      some ([(4194320, 200000)], true) := by decide +kernel
  obtain ⟨w, hrun, hw⟩ := hwell
  rw [hrun] at hlast
  obtain ⟨hlive, hlarge⟩ := Prod.mk.inj (Option.some.inj hlast)
  have hmem : (4194320, 200000) ∈ w.large := by
    rw [hlive]
    exact List.mem_singleton.mpr rfl
  refine ⟨w, hrun, (realloc_fails_atomically hw (.thread 0) (by decide) none ?_).mpr
    ⟨4194320, rfl, Or.inl ⟨hlarge, by decide +kernel⟩⟩⟩
  rintro p ⟨rfl⟩
  exact ⟨_, List.mem_append_right _ hmem, rfl⟩

/-- **A `realloc` that fails frees the block**, and one of a null pointer does not try. -/
theorem failed_realloc_frees : ∃ w,
    Trace.run Process.step {} [.malloc 0 16 (some 1048576)] = some w ∧ w.WellFormed ∧
    (1048704, 16) ∈ w.small ∧
    (∃ s', w.state.realloc (.thread 0) (some 1048704) 200000 none = some (none, s') ∧
      ¬s'.toCore.IsLive (1048704, 16)) ∧
    ¬w.FailsAtomically (.thread 0) (some 1048704) 200000 none ∧
    ¬w.FailsAtomically (.thread 0) none 16 none := by
  have hwell : ∃ w, Trace.run Process.step {} [.malloc 0 16 (some 1048576)] = some w ∧
      w.WellFormed := Process.wellFormed_of_run (by decide +kernel)
  have hlast : (Trace.run Process.step {} [.malloc 0 16 (some 1048576)]).map (fun w =>
      (w.small, w.large, w.state.toCore.isLargeAlloc 1048704)) =
      some ([(1048704, 16)], [], false) := by decide +kernel
  obtain ⟨w, hrun, hw⟩ := hwell
  rw [hrun] at hlast
  obtain ⟨hsmall, hrest⟩ := Prod.mk.inj (Option.some.inj hlast)
  obtain ⟨hnone, hfound⟩ := Prod.mk.inj hrest
  have hmem : (1048704, 16) ∈ w.small := by
    rw [hsmall]
    exact List.mem_singleton.mpr rfl
  have hknows : w.Knows 1048704 := by
    rw [Process.Knows, hfound, Process.IsLarge, hnone]
    simp
  have hnot : ¬(w.state.toCore.isLargeAlloc 1048704 = true ∧ maxBlockSize < 200000) := by
    rw [hfound]
    exact fun h => Bool.false_ne_true h.1
  have hrefuses : w.state.Refuses (.thread 0) 200000 none :=
    ⟨rfl, fun h => absurd h (by decide +kernel)⟩
  obtain ⟨s', hrealloc, hdead⟩ :=
    hw.realloc_refused (List.mem_append_left _ hmem) hknows (by decide) hnot hrefuses
  refine ⟨w, hrun, hw, hmem, ⟨s', hrealloc, hdead⟩, fun h => ?_, fun h => ?_⟩
  · exact hdead ((h s' hrealloc).2 _ (List.mem_append_left _ hmem) rfl).1
  · obtain ⟨⟨-, mmap', hasks⟩, -⟩ := h w.state rfl
    exact absurd rfl hasks

/-! ### Success -/

namespace Process

variable {w : Process} {b : ℕ × ℕ} {heap : HeapId} {size q : ℕ} {mmap : Option ℕ} {s₁ s' : State}

/-- **What `malloc` leaves alone**: mapped memory, and the sizes of the small blocks. -/
structure Keeps (w : Process) (s₁ : State) : Prop where
  covers : ∀ a, Covers w.state.mapped a → Covers s₁.mapped a
  mem : ∀ a, Covers w.state.mapped a → s₁.mem a = w.state.mem a
  blockSize : ∀ b ∈ w.small, s₁.getBlockSize b.1 = w.state.getBlockSize b.1

/-- `large_alloc` writes into the new mapping only. -/
theorem keeps_largeAlloc (hpromised : w.Promised size mmap) (hsize : maxBlockSize < size)
    (h : w.state.toCore.largeAlloc size mmap = (some q, s₁.toCore)) : w.Keeps s₁ := by
  cases mmap with
  | none => cases h
  | some ptr =>
    have hptr := hpromised ptr rfl
    rw [if_neg (by omega)] at hptr
    obtain ⟨hpos, -, -, -, hfresh⟩ := hptr
    have hup := le_pageUp (add64 size sizeofMmapHeader)
    rw [Core.largeAlloc, Core.mapPages] at h
    obtain ⟨-, hcore⟩ := Prod.mk.inj h
    refine ⟨fun a ha => ?_, fun a ha => ?_, fun b _ => by rw [State.getBlockSize, ← hcore]; rfl⟩
    · rw [← hcore]
      exact covers_cons.mpr (Or.inr ha)
    · have hout := hfresh.outside ha
      have hpage : sizeofMmapHeader ≤ pageUp (add64 size sizeofMmapHeader) := by
        simp only [pageUp, pageSize, sizeofMmapHeader] at *
        omega
      rw [← hcore, Core.setMmapHeader_mem _ _ _ (by omega)]
      exact fill_outside hout

/-- **`malloc` leaves the live blocks alone**, whatever superblock it takes. -/
theorem WellFormed.keeps_malloc (hw : w.WellFormed) (hpromised : w.Promised size mmap)
    (h : w.state.malloc heap size mmap = some (some q, s₁)) : w.Keeps s₁ := by
  rw [State.malloc] at h
  split at h
  · cases h
  split at h
  · rename_i hsize
    obtain ⟨hq, rfl⟩ := Prod.mk.inj (Option.some.inj h)
    exact keeps_largeAlloc hpromised hsize (Prod.ext hq rfl)
  · rename_i hsize
    obtain ⟨d, hM, hd⟩ := World.wellFormed_iff.mp hw.small
    have hcore : w.state.toCore = d.core := hM.refines.core
    -- For a small size `mmap` is asked for two superblocks.
    have hmmap : ∀ ptr ∈ mmap, MapsFresh d.core.mapped ptr (2 * superblockSize) := by
      intro ptr hptr
      have hfresh := hpromised ptr hptr
      rwa [if_pos (by omega), hcore] at hfresh
    have hle : size ≤ maxBlockSize := Nat.le_of_not_lt hsize
    rcases State.heapAlloc_outcome hM.refines hd heap hle hmmap with
      ⟨x, d₁, p, header, s₂, hpresent, hacquires, hserves, halloc, hR⟩ | ⟨s₂, halloc⟩
    · obtain ⟨-, rfl⟩ := Prod.mk.inj (Option.some.inj (h.symm.trans halloc))
      have hgrows : Grows d (d₁.handOut heap (binOf size) x p header 0) :=
        (hacquires.grows hd hpresent).handOut hserves.same
      refine ⟨fun a ha => ?_, fun a ha => ?_, fun b hb => ?_⟩
      · rw [hR.core]
        exact hgrows.covers a (hcore ▸ ha)
      · rw [hR.core, hcore]
        exact hgrows.mem a (hcore ▸ ha)
      · have hb : b ∈ d.live := hM.live ▸ hb
        rw [State.getBlockSize, State.getBlockSize, hR.core, hcore]
        exact hgrows.blockSize _ (hd.live_known b hb).1 (List.ne_nil_of_mem (Inv.mem_liveIn hb))
    · cases h.symm.trans halloc

/-- **What `realloc` relies on** to move a block: `is_large_alloc` is right about it, at
the beginning and when `free` asks again, and a block that `malloc` returns lies apart
from every live block. -/
structure Relies (w : Process) (heap : HeapId) (b : ℕ × ℕ) (size : ℕ) (mmap : Option ℕ) :
    Prop where
  knows : w.Knows b.1
  again : ∀ q s₁, w.state.malloc heap size mmap = some (some q, s₁) →
    ((w.state.copied s₁ q b.1 size).toCore.isLargeAlloc b.1 = true ↔ w.IsLarge b.1)
  apart : ∀ q s₁, w.state.malloc heap size mmap = some (some q, s₁) →
    ∀ b' ∈ w.small ++ w.large, Apart (q, size) (w.regionOf b')

/-- **The block has been moved** to `q`, where `s₁` is the state after `malloc`. -/
structure Moves (w : Process) (b : ℕ × ℕ) (size q : ℕ) (s₁ s' : State) : Prop where
  /-- The copy reads bytes of the old block. -/
  reads : ∀ a, b.1 ≤ a → a < b.1 + w.state.numBytesToCopy s₁ b.1 size →
    AddressSpace.Mem a (w.regionOf b)
  /-- It writes bytes of the new one. -/
  writes : w.state.numBytesToCopy s₁ b.1 size ≤ size
  /-- After it the old block is freed, by the function for its kind, and that is all. -/
  frees : if b ∈ w.large then s' = (w.state.copied s₁ q b.1 size).setCore
      ((w.state.copied s₁ q b.1 size).toCore.largeFree b.1)
    else (w.state.copied s₁ q b.1 size).heapFree b.1 = some s'
  contents : load s'.mem q (min b.2 size) = load w.state.mem b.1 (min b.2 size)
  /-- The other live blocks stay mapped and keep their bytes. -/
  others : ∀ b' ∈ w.small ++ w.large, b'.1 ≠ b.1 →
    (∀ a, AddressSpace.Mem a (w.regionOf b') → Covers s'.mapped a) ∧
      load s'.mem b'.1 b'.2 = load w.state.mem b'.1 b'.2

/-- The size of the old block is read after `malloc`, which has not changed it. -/
theorem Keeps.numBytesToCopy (hkeeps : w.Keeps s₁) (hknows : w.Knows b.1)
    (hw : w.WellFormed) (hb : b ∈ w.small ++ w.large) :
    w.state.numBytesToCopy s₁ b.1 size =
      if b ∈ w.large then size else min (w.state.getBlockSize b.1) size := by
  have hfound := hknows.trans (hw.isLarge_iff hb)
  rw [State.numBytesToCopy]
  by_cases hlarge : b ∈ w.large
  · rw [if_pos (hfound.mpr hlarge), if_pos hlarge]
  · rw [if_neg (mt hfound.mp hlarge), if_neg hlarge,
      hkeeps.blockSize b ((List.mem_append.mp hb).resolve_right hlarge)]

/-- **The copy reads within the old block and writes within the new one**, and it is long
enough. -/
theorem Keeps.copy (hkeeps : w.Keeps s₁) (hknows : w.Knows b.1) (hw : w.WellFormed)
    (hb : b ∈ w.small ++ w.large) (hnot : ¬(b ∈ w.large ∧ maxBlockSize < size)) :
    (∀ a, b.1 ≤ a → a < b.1 + w.state.numBytesToCopy s₁ b.1 size →
      AddressSpace.Mem a (w.regionOf b)) ∧
    w.state.numBytesToCopy s₁ b.1 size ≤ size ∧
    min b.2 size ≤ w.state.numBytesToCopy s₁ b.1 size := by
  rw [hkeeps.numBytesToCopy hknows hw hb]
  by_cases hlarge : b ∈ w.large
  · -- The new size is small, the old one is not.
    have hsize := hw.size b hlarge
    have hle : size ≤ maxBlockSize := Nat.le_of_not_lt fun h => hnot ⟨hlarge, h⟩
    rw [if_pos hlarge]
    exact ⟨fun a ha ha' => hw.mem_regionOf hb ha (by omega), le_rfl, Nat.min_le_right ..⟩
  · have hsmall := (List.mem_append.mp hb).resolve_right hlarge
    obtain ⟨-, -, -, hle, -⟩ := hw.small_mem hsmall
    rw [if_neg hlarge, hw.regionOf_small hsmall]
    exact ⟨fun a ha ha' => ⟨ha, by simp only; omega⟩, Nat.min_le_right .., by omega⟩

/-- Nothing of the old blocks has changed when the old block is freed. -/
theorem Keeps.copied_mem (hkeeps : w.Keeps s₁) (hw : w.WellFormed)
    (hwrites : w.state.numBytesToCopy s₁ b.1 size ≤ size) {b' : ℕ × ℕ}
    (hb' : b' ∈ w.small ++ w.large) (hapart : Apart (q, size) (w.regionOf b')) {a : ℕ}
    (ha : AddressSpace.Mem a (w.regionOf b')) :
    (w.state.copied s₁ q b.1 size).mem a = w.state.mem a := by
  have hout : ¬AddressSpace.Mem a (q, size) := hapart.symm.not_mem ha
  simp only [AddressSpace.Mem] at hout
  rw [← hkeeps.mem a (hw.covers hb' ha)]
  exact store_load_outside (by omega)

/-- **What freeing the old block changes**: only what belongs to it. -/
theorem WellFormed.freed (hw : w.WellFormed) (hb : b ∈ w.small ++ w.large) {s₂ : State}
    (hmem : ∀ a, AddressSpace.Mem a (w.regionOf b) → s₂.mem a = w.state.mem a)
    (hfrees : if b ∈ w.large then s' = s₂.setCore (s₂.toCore.largeFree b.1)
      else s₂.heapFree b.1 = some s') {a : ℕ} (ha : ¬AddressSpace.Mem a (w.regionOf b)) :
    s'.mem a = s₂.mem a ∧ (Covers s₂.mapped a → Covers s'.mapped a) := by
  by_cases hlarge : b ∈ w.large
  · -- The header is intact, and tells the pages of the block.
    rw [if_pos hlarge] at hfrees
    rw [regionOf_large hlarge] at hmem ha
    have hblock := hw.large b hlarge
    have hbase := hblock.base_add
    have hadd := hblock.add_le
    have hheader : s₂.toCore.mmapHeaderSize (spanOf b).1 =
        w.state.toCore.mmapHeaderSize (spanOf b).1 := by
      refine loadWord_congr fun i hi hi' => hmem i ?_
      simp only [mmapHeaderSizeOffset] at hi hi'
      exact ⟨by omega, by omega⟩
    have halloced : s₂.toCore.allocedSize b.1 = b.2 + sizeofMmapHeader :=
      (congrArg (add64 · sizeofMmapHeader) hheader).trans hblock.alloced_eq
    have hfree : s₂.toCore.largeFree b.1 =
        { s₂.toCore with mapped := unmap s₂.mapped (spanOf b).1 (spanOf b).2 } := by
      rw [Core.largeFree, halloced]
      exact hblock.unmapPages_eq s₂.toCore
    rw [hfrees, hfree]
    exact ⟨rfl, fun hcov => covers_unmap.mpr ⟨hcov, ha⟩⟩
  · rw [if_neg hlarge] at hfrees
    have hsmall := (List.mem_append.mp hb).resolve_right hlarge
    obtain ⟨-, -, -, -, hpos⟩ := hw.small_mem hsmall
    have hwrites := State.heapFree_writes hfrees
    rw [hw.regionOf_small hsmall] at ha
    simp only [AddressSpace.Mem] at ha
    exact ⟨hwrites.mem a (by omega), fun hcov => hwrites.mapped ▸ hcov⟩

end Process

namespace Process

/-- **The new block begins with the bytes of the old one.** -/
theorem Moves.of_frees {w : Process} (hw : w.WellFormed) {b : ℕ × ℕ}
    (hb : b ∈ w.small ++ w.large) {size q : ℕ} {s₁ s' : State} (hkeeps : w.Keeps s₁)
    (hknows : w.Knows b.1) (hnot : ¬(b ∈ w.large ∧ maxBlockSize < size))
    (hapart : ∀ b' ∈ w.small ++ w.large, Apart (q, size) (w.regionOf b'))
    (hfrees : if b ∈ w.large then s' = (w.state.copied s₁ q b.1 size).setCore
        ((w.state.copied s₁ q b.1 size).toCore.largeFree b.1)
      else (w.state.copied s₁ q b.1 size).heapFree b.1 = some s') : w.Moves b size q s₁ s' := by
  obtain ⟨hreads, hwrites, hlong⟩ := hkeeps.copy hknows hw hb hnot
  have hcopied : ∀ b' ∈ w.small ++ w.large, ∀ a, AddressSpace.Mem a (w.regionOf b') →
      (w.state.copied s₁ q b.1 size).mem a = w.state.mem a :=
    fun b' hb' a => hkeeps.copied_mem hw hwrites hb' (hapart b' hb')
  have hfreed : ∀ a, ¬AddressSpace.Mem a (w.regionOf b) →
      s'.mem a = (w.state.copied s₁ q b.1 size).mem a ∧
        (Covers (w.state.copied s₁ q b.1 size).mapped a → Covers s'.mapped a) :=
    fun a => hw.freed hb (hcopied b hb) hfrees
  refine ⟨hreads, hwrites, hfrees, List.map_congr_left fun k hk => ?_, fun b' hb' hne => ?_⟩
  · -- A byte that is copied is one of the old block, and freeing it does not reach the new one.
    have hlt := List.mem_range.mp hk
    have hout := (hapart b hb).not_mem (show AddressSpace.Mem (q + k) (q, size) from
      ⟨Nat.le_add_right .., by simp only; omega⟩)
    have hin := hw.mem_regionOf hb (Nat.le_add_right b.1 k) (by omega)
    rw [(hfreed _ hout).1, ← hkeeps.mem _ (hw.covers hb hin)]
    exact store_load_of_mem (by omega)
  · have hregions := hw.apart_regions hb' hb hne
    refine ⟨fun a ha => (hfreed a (hregions.not_mem ha)).2 (hkeeps.covers a (hw.covers hb' ha)),
      load_congr fun a ha ha' => ?_⟩
    have hin := hw.mem_regionOf hb' ha ha'
    exact (hfreed a (hregions.not_mem hin)).1.trans (hcopied b' hb' a hin)

end Process

/-- **`realloc` moves a block**: if it returns a block and does not call `large_realloc`,
the new block begins with the bytes of the old one, which are copied from the old block
into the new one before the old one is freed, and the other live blocks are what they
were. -/
theorem realloc_moves {w : Process} (hw : w.WellFormed) {b : ℕ × ℕ} (hb : b ∈ w.small ++ w.large)
    {heap : HeapId} {size : ℕ} {mmap : Option ℕ} (hnot : ¬(b ∈ w.large ∧ maxBlockSize < size))
    (hpromised : w.Promised size mmap) (hrelies : w.Relies heap b size mmap) {q : ℕ} {s' : State}
    (h : w.state.realloc heap (some b.1) size mmap = some (some q, s')) :
    ∃ s₁, w.state.malloc heap size mmap = some (some q, s₁) ∧ w.Moves b size q s₁ s' := by
  have hfound := hrelies.knows.trans (hw.isLarge_iff hb)
  have hpos : size ≠ 0 := by
    rintro rfl
    obtain ⟨s₁, -, h⟩ := Option.bind_eq_some_iff.mp h
    cases h
  rw [← hfound] at hnot
  rcases State.realloc_cases hpos hnot h with ⟨hr, -⟩ | ⟨q', s₁, hr, hmalloc, -, hfree⟩
  · cases hr
  obtain rfl := Option.some.inj hr
  rw [hfound] at hnot
  refine ⟨s₁, hmalloc, .of_frees hw hb (hw.keeps_malloc hpromised hmalloc) hrelies.knows hnot
    (hrelies.apart q s₁ hmalloc) ?_⟩
  -- `free` asks again which kind of block it is given.
  have hagain := (hrelies.again q s₁ hmalloc).trans (hw.isLarge_iff hb)
  rw [State.free] at hfree
  by_cases hlarge : b ∈ w.large
  · rw [if_pos (hagain.mpr hlarge)] at hfree
    rw [if_pos hlarge]
    exact (Option.some.inj hfree).symm
  · rw [if_neg (mt hagain.mp hlarge)] at hfree
    rwa [if_neg hlarge]

/-- A block of each kind. -/
def bothKinds : List Request := [.malloc 0 16 (some 1048576), .malloc 0 200000 (some 4194304)]

/-- The large one shrinks, and becomes a small one. -/
theorem realloc_moves_shrunk : ∃ w s', Trace.run Process.step {} bothKinds = some w ∧
    w.state.realloc (.thread 0) (some 4194320) 40 (some 2097152) = some (some 2097280, s') ∧
    ∃ s₁, w.state.malloc (.thread 0) 40 (some 2097152) = some (some 2097280, s₁) ∧
      w.Moves (4194320, 200000) 40 2097280 s₁ s' := by
  have hwell : ∃ w, Trace.run Process.step {} bothKinds = some w ∧ w.WellFormed :=
    Process.wellFormed_of_run (by decide +kernel)
  have hlast : (Trace.run Process.step {} bothKinds).map (fun w =>
      (w.small, w.large, decide (w.Promised 40 (some 2097152)),
        w.state.toCore.isLargeAlloc 4194320, w.state.getBlockSize 1048704)) =
      some ([(1048704, 16)], [(4194320, 200000)], true, true, 16) := by decide +kernel
  have hcalls : (Trace.run Process.step {} bothKinds).map (fun w =>
      ((w.state.realloc (.thread 0) (some 4194320) 40 (some 2097152)).map Prod.fst,
        (w.state.malloc (.thread 0) 40 (some 2097152)).map fun r => (r.1,
          (w.state.copied r.2 2097280 4194320 40).toCore.isLargeAlloc 4194320))) =
      some (some (some 2097280), some (some 2097280, true)) := by decide +kernel
  obtain ⟨w, hrun, hw⟩ := hwell
  rw [hrun] at hlast hcalls
  simp only [Option.map_some, Option.some.injEq, Prod.mk.injEq, decide_eq_true_eq] at hlast hcalls
  obtain ⟨hsmall, hlarge, hpromised, hfound, hblock⟩ := hlast
  obtain ⟨hrealloc, hmalloc⟩ := hcalls
  obtain ⟨⟨-, s'⟩, hrealloc, rfl⟩ := Option.map_eq_some_iff.mp hrealloc
  have hb : (4194320, 200000) ∈ w.large := by
    rw [hlarge]
    exact List.mem_singleton.mpr rfl
  have hresult : ∀ q s₁, w.state.malloc (.thread 0) 40 (some 2097152) = some (some q, s₁) →
      q = 2097280 ∧ (w.state.copied s₁ 2097280 4194320 40).toCore.isLargeAlloc 4194320 = true := by
    intro q s₁ h
    rw [h, Option.map_some] at hmalloc
    obtain ⟨hq, hagain⟩ := Prod.mk.inj (Option.some.inj hmalloc)
    exact ⟨Option.some.inj hq, hagain⟩
  refine ⟨w, s', hrun, hrealloc, realloc_moves hw (List.mem_append_right _ hb)
    (fun h => absurd h.2 (by decide +kernel)) hpromised ⟨?_, fun q s₁ h => ?_, ?_⟩ hrealloc⟩
  · exact iff_of_true hfound ⟨_, hb, rfl⟩
  · obtain ⟨rfl, hagain⟩ := hresult q s₁ h
    exact iff_of_true hagain ⟨_, hb, rfl⟩
  · intro q s₁ h b' hb'
    obtain ⟨rfl, -⟩ := hresult q s₁ h
    rw [hsmall, hlarge] at hb'
    rcases List.mem_cons.mp hb' with rfl | hb'
    · rw [hw.regionOf_small (by rw [hsmall]; exact List.mem_singleton.mpr rfl), hblock]
      exact Or.inr (by decide)
    · obtain rfl := List.mem_singleton.mp hb'
      rw [Process.WellFormed.regionOf_large hb]
      exact Or.inl (by decide)

end MyMalloc
