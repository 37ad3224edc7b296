import MyMalloc.AllocEffect

/-!
# Where `heap_alloc` looks for a superblock

The order of the search, from any well-formed state (`MyMalloc.heapAlloc_search`).
Memory is mapped only when all superblocks of the bin are full, in the heap and in the
global heap, and there is no empty one to recycle. The global heap is asked only when
the heap itself has nothing to offer. And of the superblocks of a bin that are not
full, one of the fullest is taken.

It rests on the emptiness classes: a superblock is in class 0 exactly when it has no
free block, and the search leaves out that class and no other.
-/

namespace MyMalloc

open LinkedList Placement AddressSpace Depot

/-! ### Bins -/

/-- A superblock is on a list of a bin, for the lists that the pointers lay out. -/
def State.InBin (s : State) (bm : BinPtr) (e x : ℕ) : Prop :=
  ∃ lists, Represents s lists ∧ Distinct lists ∧ x ∈ lists (.bin bm e)

/-- Every superblock of a bin is full. -/
def State.AllFull (s : State) (bm : BinPtr) : Prop :=
  ∀ e x, s.InBin bm e x → (s.header x).numFreeBlocks = 0

/-- `heap_alloc` asks for a new superblock: what it does depends on what `mmap`
answers. -/
def State.AsksMmap (s : State) (heap : HeapId) (size : ℕ) : Prop :=
  ∃ mmap mmap', s.heapAlloc heap size mmap ≠ s.heapAlloc heap size mmap'

section

variable {s : State} {d : Depot} {heap : HeapId} {bm : BinPtr} {b e e' x y : ℕ} {lists : Lists}

theorem Depot.Refines.inBin_iff (hR : Refines s d) (hd : d.Inv) :
    s.InBin bm e x ↔ x ∈ d.lists (.bin bm e) := by
  constructor
  · rintro ⟨lists, hrep, hD, hx⟩
    rwa [hrep.unique hR.represents hD hd.distinct] at hx
  · exact fun hx => ⟨d.lists, hR.represents, hd.distinct, hx⟩

/-- **The fullest class** that is not empty is the one that is found. -/
theorem Represents.firstNonempty_le (hR : Represents s lists)
    (hfound : s.firstNonempty bm = some (e, x)) (hpos : 0 < e') (hlt : e' < numEmptinessClasses)
    (hy : y ∈ lists (.bin bm e')) : e ≤ e' := by
  -- The classes are tried from 1 on, and no class before the one that is found has a superblock.
  obtain ⟨a, -, ha, hfirst⟩ := LinearSearch.findSome?_first (r := (· < ·)) (by decide) hfound
  obtain ⟨z, -, hz⟩ := Option.map_eq_some_iff.mp ha
  obtain rfl := (Prod.mk.inj hz).1
  rw [numEmptinessClasses_eq] at hlt
  have hmem : e' ∈ [1, 2, 3, 4] := by
    simp only [List.mem_cons, List.not_mem_nil, or_false]
    omega
  have hhit : ((s.sizeBins bm).emptinessBins e').map (fun x => (e', x)) ≠ none := by
    rw [hR.head_bin, ne_eq, Option.map_eq_none_iff, List.head?_eq_none_iff]
    exact List.ne_nil_of_mem hy
  rcases hfirst e' hmem hhit with h | h
  · exact h.ge
  · exact h.le

/-- The search of a bin that has a superblock that is not full does not fail. -/
theorem Represents.firstNonempty_ne_none (hR : Represents s lists) (hpos : 0 < e)
    (hlt : e < numEmptinessClasses) (hx : x ∈ lists (.bin bm e)) : s.firstNonempty bm ≠ none := by
  rcases hR.firstNonempty bm with ⟨e', y, -, -, -, hfound⟩ | ⟨hzero, -⟩
  · rw [hfound]
    exact Option.some_ne_none _
  · have := nonfull_pos hlt hpos hx
    omega

/-- **A bin whose search fails has full superblocks only.** -/
theorem Depot.Refines.allFull (hR : Refines s d) (hd : d.Inv)
    (hnone : s.firstNonempty bm = none) : s.AllFull bm := by
  intro e x hx
  rw [hR.inBin_iff hd] at hx
  obtain ⟨-, -, -, heidx, -⟩ := hd.fits _ x hx
  have hcounted := (hd.carved x (hd.lists_known _ x hx)).counted
  rw [hR.core]
  by_contra hfree
  have hpos := hcounted.eidxOf_pos (Nat.pos_of_ne_zero hfree)
  rw [heidx] at hpos
  exact hR.represents.firstNonempty_ne_none hpos (heidx ▸ hcounted.eidxOf_lt) hx hnone

/-- **The superblock that is found is one of the fullest** that are not full. -/
theorem Depot.Refines.firstNonempty_le (hR : Refines s d) (hd : d.Inv)
    (hfound : s.firstNonempty bm = some (e, x)) (hy : s.InBin bm e' y)
    (hfree : (s.header y).numFreeBlocks ≠ 0) : e ≤ e' := by
  rw [hR.inBin_iff hd] at hy
  rw [hR.core] at hfree
  obtain ⟨-, -, -, heidx, -⟩ := hd.fits _ y hy
  have hcounted := (hd.carved y (hd.lists_known _ y hy)).counted
  have hpos := hcounted.eidxOf_pos (Nat.pos_of_ne_zero hfree)
  rw [heidx] at hpos
  exact hR.represents.firstNonempty_le hfound hpos (heidx ▸ hcounted.eidxOf_lt) hy

end

/-! ### Sources -/

namespace State

variable {s : State} {heap : HeapId} {binIdx e x : ℕ}

theorem firstNonempty_of_source_bin (h : s.source heap binIdx = .bin e x) :
    s.firstNonempty (heap, binIdx) = some (e, x) := by
  rw [source] at h
  split at h
  · rename_i e' x' hfound
    obtain ⟨rfl, rfl⟩ := Source.bin.inj h
    exact hfound
  split at h
  · cases h
  split at h <;> split at h <;> cases h

/-- A superblock of the global heap is used only if the heap has nothing to offer. -/
theorem local_none_of_source (h : ¬(s.source heap binIdx).Local) :
    s.firstNonempty (heap, binIdx) = none ∧ s.recycledSuperblock heap = none := by
  rw [source] at h
  split at h
  · exact absurd trivial h
  · rename_i hfound
    split at h
    · exact absurd trivial h
    · rename_i hhead
      exact ⟨hfound, hhead⟩

theorem firstNonempty_of_source_globalBin (h : s.source heap binIdx = .globalBin e x) :
    s.firstNonempty (.global, binIdx) = some (e, x) := by
  rw [source] at h
  split at h
  · cases h
  split at h
  · cases h
  split at h <;> split at h
  · rename_i e' x' hfound
    obtain ⟨rfl, rfl⟩ := Source.globalBin.inj h
    exact hfound
  all_goals cases h

/-- What `bin_alloc` serves without `mmap` it serves the same way whatever that
answers. -/
theorem binAlloc_of_none {bm : BinPtr} {sizeClass p : ℕ} {s' : State}
    (h : s.binAlloc heap bm sizeClass none = some (some p, s')) (mmap : Option ℕ) :
    s.binAlloc heap bm sizeClass mmap = some (some p, s') := by
  rw [binAlloc] at h ⊢
  split at h
  · exact h
  · obtain ⟨⟨r, s₂⟩, hglobal, hrest⟩ := Option.bind_eq_some_iff.mp h
    cases r with
    | some x => exact Option.bind_eq_some_iff.mpr ⟨_, hglobal, hrest⟩
    | none => cases hrest

/-- The same of `heap_alloc`. -/
theorem heapAlloc_of_none {size p : ℕ} {s' : State} (hsize : size ≤ maxBlockSize)
    (h : s.heapAlloc heap size none = some (some p, s')) (mmap : Option ℕ) :
    s.heapAlloc heap size mmap = some (some p, s') := by
  simp only [heapAlloc, size2idx_eq hsize, Option.bind_eq_bind, Option.bind_some] at h
  obtain ⟨⟨r, s₁⟩, halloc, hrest⟩ := Option.bind_eq_some_iff.mp h
  obtain ⟨rfl, rfl⟩ := Prod.mk.inj (Option.some.inj hrest)
  exact heapAlloc_eq hsize (binAlloc_of_none halloc mmap)

/-- **`mmap` is asked only if no heap has a superblock to offer.** -/
theorem AsksMmap.exhausted {d : Depot} {size : ℕ} (hR : Refines s d) (hd : d.Inv)
    (hsize : size ≤ maxBlockSize) (h : s.AsksMmap heap size) : s.Exhausted heap (binOf size) := by
  have hnone : ∀ ptr ∈ (none : Option ℕ), MapsFresh d.core.mapped ptr (2 * superblockSize) :=
    fun _ hp => nomatch hp
  rcases heapAlloc_outcome hR hd heap hsize hnone with
    ⟨x, d₁, p, header, s₁, -, -, -, halloc, -⟩ | ⟨s₁, halloc⟩
  · obtain ⟨mmap, mmap', hne⟩ := h
    have hserved := heapAlloc_of_none hsize halloc
    exact absurd ((hserved mmap).trans (hserved mmap').symm) hne
  · exact ((heapAlloc_eq_none_iff hsize).mp halloc).1

end State

namespace Depot

variable {s : State} {d d₁ : Depot} {heap : HeapId} {binIdx x e : ℕ} {bm : BinPtr}

/-- **A superblock of the global heap is taken last.** -/
theorem Acquires.local_none (hd : d.Inv) (hheap : heap ≠ .global)
    (hsrc : d.Present heap binIdx (s.source heap binIdx))
    (h : d.Acquires heap binIdx (s.source heap binIdx) x d₁) (howns : d.core.Owns .global x) :
    s.firstNonempty (heap, binIdx) = none ∧ s.recycledSuperblock heap = none := by
  refine State.local_none_of_source fun hlocal => not_owns_of_global hheap howns ?_
  cases hsource : s.source heap binIdx with
  | bin e y =>
    rw [hsource] at hsrc h
    cases h
    exact hd.owns hsrc.2
  | recycled y =>
    rw [hsource] at hsrc h
    cases h
    exact hd.owns (p := .recycle heap) hsrc
  | _ =>
    rw [hsource] at hlocal
    exact hlocal.elim

/-- **A superblock that is taken from a bin** is one of the fullest that are not full. -/
theorem Acquires.fullest (hd : d.Inv)
    (hsrc : d.Present heap binIdx (s.source heap binIdx))
    (h : d.Acquires heap binIdx (s.source heap binIdx) x d₁) (hx : x ∈ d.lists (.bin bm e)) :
    (bm = (heap, binIdx) ∨ bm = (.global, binIdx)) ∧ 0 < e ∧
      s.firstNonempty bm = some (e, x) := by
  -- A superblock is in one place only, so its source is the list it was found on.
  have hplace : ∀ {p}, x ∈ d.lists p → p = .bin bm e := fun hp => hd.distinct.unique _ _ _ hp hx
  cases hsource : s.source heap binIdx with
  | bin e' y =>
    rw [hsource] at hsrc h
    cases h
    obtain ⟨rfl, rfl⟩ := Place.bin.inj (hplace hsrc.2)
    exact ⟨Or.inl rfl, hsrc.1, State.firstNonempty_of_source_bin hsource⟩
  | recycled y =>
    rw [hsource] at hsrc h
    cases h
    exact Place.noConfusion (hplace (p := .recycle heap) hsrc)
  | globalBin e' y =>
    rw [hsource] at hsrc h
    cases h
    obtain ⟨rfl, rfl⟩ := Place.bin.inj (hplace hsrc.2)
    exact ⟨Or.inr rfl, hsrc.1, State.firstNonempty_of_source_globalBin hsource⟩
  | globalRecycled y =>
    rw [hsource] at hsrc h
    cases h
    exact Place.noConfusion (hplace (p := .recycle .global) hsrc)
  | new =>
    rw [hsource] at h
    cases h with
    | new ptr x c hptr hc => exact absurd (hd.lists_known _ x hx) (hd.not_mem_of_fresh hptr hc)

end Depot

/-- **The order of the search**, from any well-formed state: whether `mmap` is asked,
whether a superblock leaves the global heap, and which superblock of a bin is taken. -/
theorem heapAlloc_search {w : World} (hw : w.WellFormed) {i size : ℕ} {mmap : Option ℕ}
    (hlegal : w.Legal (.alloc i size mmap)) :
    (w.state.AsksMmap (.thread i) size →
      w.state.AllFull (.thread i, binOf size) ∧ w.state.AllFull (.global, binOf size) ∧
      w.state.recycledSuperblock (.thread i) = none ∧
      w.state.recycledSuperblock .global = none) ∧
    ∃ r s', w.state.heapAlloc (.thread i) size mmap = some (r, s') ∧
      (∀ x, w.state.Owns .global x → ¬s'.Owns .global x →
        w.state.AllFull (.thread i, binOf size) ∧
        w.state.recycledSuperblock (.thread i) = none) ∧
      ∀ p bm e, r = some p → w.state.InBin bm e (superblockOf p) →
        (bm = (.thread i, binOf size) ∨ bm = (.global, binOf size)) ∧ 0 < e ∧
        ∀ e' y, w.state.InBin bm e' y → (w.state.header y).numFreeBlocks ≠ 0 → e ≤ e' := by
  obtain ⟨d, hM, hd⟩ := World.wellFormed_iff.mp hw
  have hR := hM.refines
  have hcore : w.state.toCore = d.core := hR.core
  obtain ⟨-, hsize, hmmap⟩ := hlegal
  constructor
  · intro hasks
    obtain ⟨hfound, hhead, hcount, hhead'⟩ := hasks.exhausted hR hd hsize
    refine ⟨hR.allFull hd hfound, hR.allFull hd ?_, hhead, hhead'⟩
    -- A counter at zero says that no superblock of the bin has a free block.
    rw [hR.represents.count] at hcount
    rcases hR.represents.firstNonempty (.global, binOf size) with ⟨e, x, he, he', hx, -⟩ | ⟨-, h⟩
    · have := nonfull_pos he' he hx
      omega
    · exact h
  rcases State.heapAlloc_outcome hR hd (.thread i) hsize (hcore ▸ hmmap) with
    ⟨x, d₁, p, header, s', hpresent, hacquires, hserves, halloc, hs'⟩ | ⟨s', halloc⟩
  · refine ⟨_, _, halloc, fun y howns hleaves => ?_, ?_⟩
    · -- Only the superblock that serves the request can leave the global heap.
      rw [hcore] at howns
      have hyx : y = x := by
        by_contra hne
        refine hleaves (hs'.core ▸ ⟨hacquires.mem_superblocks howns.1, ?_⟩)
        have hheader := hacquires.header_of_ne hne
        exact (congrArg SuperblockHeader.owner ((Function.update_of_ne hne ..).trans hheader)).trans
          howns.2
      obtain ⟨hfound, hhead⟩ :=
        hacquires.local_none hd HeapId.noConfusion hpresent (hyx ▸ howns)
      exact ⟨hR.allFull hd hfound, hhead⟩
    · rintro _ bm e ⟨rfl⟩ hbin
      rw [hR.inBin_iff hd, hserves.superblockOf] at hbin
      obtain ⟨hbm, hpos, hfound⟩ := hacquires.fullest hd hpresent hbin
      exact ⟨hbm, hpos, fun e' y hy hfree => hR.firstNonempty_le hd hfound hy hfree⟩
  · refine ⟨_, _, halloc, fun y howns hleaves => ?_, fun p bm e hp => nomatch hp⟩
    obtain ⟨-, -, rfl⟩ := (State.heapAlloc_eq_none_iff hsize).mp halloc
    exact absurd howns hleaves

/-- A request of another thread, when the global heap has an empty superblock. -/
theorem heapAlloc_search_recycled : ∃ w, Trace.run World.step World.initial fiveClasses = some w ∧
    ∃ r s', w.state.heapAlloc (.thread 1) 16 none = some (r, s') ∧
      ∀ x, w.state.Owns .global x → ¬s'.Owns .global x →
        w.state.AllFull (.thread 1, binOf 16) ∧ w.state.recycledSuperblock (.thread 1) = none := by
  have hlast : (Trace.run World.step World.initial fiveClasses).map (fun w =>
      decide (w.Legal (.alloc 1 16 none))) = some true := by decide +kernel
  obtain ⟨w, hrun, hlegal⟩ := Option.map_eq_some_iff.mp hlast
  obtain ⟨-, r, s', halloc, htaken, -⟩ := heapAlloc_search
    (World.wellFormed_of_run (by decide +kernel) hrun) (of_decide_eq_true hlegal)
  exact ⟨w, hrun, r, s', halloc, htaken⟩

end MyMalloc
