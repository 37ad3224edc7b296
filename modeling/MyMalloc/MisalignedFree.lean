import MyMalloc.Release
import MyMalloc.WellFormed

/-!
# Deallocation of a misaligned pointer

`superblock_free` returns early when its pointer is no multiple of `MIN_BLOCK_SIZE`,
and does not report it. Its callers go on as if a block had been given back.
`bin_free` files the superblock again, in the class it is in, and that changes the order
of one list only. But `heap_free` then takes the size of a block from the account of a
thread heap, and may move a superblock because of that.

So a misaligned pointer is ignored exactly if the superblock it points into belongs to
the global heap, which has no account (`MyMalloc.misaligned_free_ignored`). This is so
after any calls whatsoever, earlier misaligned ones included, of which accounts and lists
may be wrong already. What is used of the calls is that the headers still count the
blocks they were carved into (`MyMalloc.World.run_countsBlocks`); what is used of the
pointers is that the one list the superblock is on is a ring.
-/

namespace MyMalloc

open LinkedList

/-! ### Headers -/

/-- The header counts the blocks of its size that fit behind it. -/
def SuperblockHeader.CountsBlocks (header : SuperblockHeader) : Prop :=
  header.totalBlocks = (superblockSize - sizeofSuperblockHeader) / header.blockSize % 2 ^ 32

/-- The other fields do not matter. -/
theorem SuperblockHeader.CountsBlocks.congr {header header' : SuperblockHeader}
    (h : header.CountsBlocks) (hsize : header'.blockSize = header.blockSize)
    (htotal : header'.totalBlocks = header.totalBlocks) : header'.CountsBlocks := by
  rw [CountsBlocks, hsize, htotal]
  exact h

theorem resetSuperblock_countsBlocks (x blockSize : ℕ) (header : SuperblockHeader) :
    (resetSuperblock x blockSize header).CountsBlocks := rfl

/-- A block of a superblock that has blocks is neither empty nor larger than the buffer. -/
theorem SuperblockHeader.CountsBlocks.blockSize_pos {header : SuperblockHeader}
    (h : header.CountsBlocks) (htotal : header.totalBlocks ≠ 0) :
    0 < header.blockSize ∧ header.blockSize < 2 ^ 64 := by
  rw [h] at htotal
  have hdiv : (superblockSize - sizeofSuperblockHeader) / header.blockSize ≠ 0 := by
    intro hc
    rw [hc] at htotal
    exact htotal rfl
  obtain ⟨hpos, hle⟩ := Nat.div_ne_zero_iff.mp hdiv
  rw [superblockSize_eq, sizeofSuperblockHeader_eq] at hle
  omega

/-- Every header counts its blocks. The zeros where there is no superblock do so, too. -/
def Core.CountsBlocks (c : Core) : Prop := ∀ x, (c.header x).CountsBlocks

namespace Core.CountsBlocks

variable {c c' : Core} {x : ℕ} {heap : HeapId} {header : SuperblockHeader}

theorem reports (h : c.CountsBlocks) (hr : c.Reports c') : c'.CountsBlocks := by
  intro y
  rw [hr.header]
  exact h y

theorem setHeader (h : c.CountsBlocks) (hheader : header.CountsBlocks) :
    (c.setHeader x header).CountsBlocks := by
  intro y
  by_cases hyx : y = x
  · subst hyx
    simpa only [Core.setHeader, Function.update_self] using hheader
  · simpa only [Core.setHeader, Function.update_of_ne hyx] using h y

theorem setOwner (h : c.CountsBlocks) : (c.setOwner x heap).CountsBlocks :=
  h.setHeader ((h x).congr rfl rfl)

theorem superblockAlloc (h : c.CountsBlocks) {p : ℕ} (halloc : c.superblockAlloc x = some (p, c')) :
    c'.CountsBlocks := by
  obtain ⟨⟨q, header⟩, hheader, hc'⟩ := Option.map_eq_some_iff.mp halloc
  obtain ⟨-, rfl⟩ := Prod.mk.inj hc'
  refine h.setHeader ?_
  rw [MyMalloc.superblockAlloc] at hheader
  split at hheader
  · obtain ⟨-, rfl⟩ := Prod.mk.inj (Option.some.inj hheader)
    exact h x
  · obtain ⟨r, -, hr⟩ := Option.map_eq_some_iff.mp hheader
    obtain ⟨-, rfl⟩ := Prod.mk.inj hr
    exact (h x).congr rfl rfl

theorem superblockFree (h : c.CountsBlocks) {ptr : ℕ} : (c.superblockFree x ptr).CountsBlocks := by
  have hheader : (MyMalloc.superblockFree (c.header x) c.mem ptr).1.CountsBlocks := by
    rw [MyMalloc.superblockFree]
    split
    · exact h x
    · exact (h x).congr rfl rfl
  exact h.setHeader hheader

end Core.CountsBlocks

namespace State

variable {s s' : State} {heap : HeapId} {bm : BinPtr} {e x ptr sizeClass : ℕ} {mmap r : Option ℕ}

/-! ### Allocation -/

theorem getSbFromGlobal_reports (h : s.getSbFromGlobal sizeClass = some (r, s')) :
    s.toCore.Reports s'.toCore := by
  obtain ⟨⟨b, s₁⟩, hidx, h⟩ := Option.bind_eq_some_iff.mp h
  refine (size2idx_reports hidx).trans ?_
  simp only at h
  split at h
  · obtain ⟨⟨e, x⟩, -, h⟩ := Option.bind_eq_some_iff.mp h
    obtain ⟨s₂, hdelete, h⟩ := Option.bind_eq_some_iff.mp h
    obtain ⟨-, rfl⟩ := Prod.mk.inj (Option.some.inj h)
    exact Core.Reports.trans (.assert ..) (deleteFromBin_reports hdelete)
  · split at h
    · obtain ⟨-, rfl⟩ := Prod.mk.inj (Option.some.inj h)
      exact .assert ..
    · obtain ⟨-, rfl⟩ := Prod.mk.inj (Option.some.inj h)
      exact .refl _

theorem binAllocLocal_countsBlocks (h : s.toCore.CountsBlocks) :
    (s.binAllocLocal heap bm sizeClass).2.toCore.CountsBlocks := by
  rw [binAllocLocal]
  split
  · exact h
  · split
    · exact h.setHeader (resetSuperblock_countsBlocks ..)
    · exact h

theorem binAllocNew_countsBlocks (h : s.toCore.CountsBlocks) :
    (s.binAllocNew heap mmap sizeClass).2.toCore.CountsBlocks := by
  cases mmap with
  | none => exact h
  | some ptr =>
    have hmapped : (s.toCore.allocateNewSuperblock (some ptr)).2.CountsBlocks := by
      rw [Core.allocateNewSuperblock_eq]
      exact h
    exact (hmapped.setHeader (resetSuperblock_countsBlocks ..)).setOwner

theorem binAllocFrom_countsBlocks {inBin : Bool} {p : ℕ} (h : s.toCore.CountsBlocks)
    (halloc : s.binAllocFrom bm x inBin = some (p, s')) : s'.toCore.CountsBlocks := by
  obtain ⟨⟨e, s₁⟩, heidx, halloc⟩ := Option.bind_eq_some_iff.mp halloc
  obtain ⟨⟨q, c⟩, hserve, halloc⟩ := Option.bind_eq_some_iff.mp halloc
  have hserved : c.CountsBlocks := (h.reports (getEidx_reports heidx)).superblockAlloc hserve
  simp only at halloc
  split at halloc
  · obtain ⟨s₂, hupdate, halloc⟩ := Option.bind_eq_some_iff.mp halloc
    obtain ⟨-, rfl⟩ := Prod.mk.inj (Option.some.inj halloc)
    exact hserved.reports (Core.Reports.trans (.assert ..) (updateEmptinessClass_reports hupdate))
  · obtain ⟨⟨e', s₂⟩, heidx', halloc⟩ := Option.bind_eq_some_iff.mp halloc
    obtain ⟨s₃, hpush, halloc⟩ := Option.bind_eq_some_iff.mp halloc
    obtain ⟨-, rfl⟩ := Prod.mk.inj (Option.some.inj halloc)
    exact hserved.reports (Core.Reports.trans (.assert ..)
      ((getEidx_reports heidx').trans (pushIntoBin_reports hpush)))

theorem binAlloc_countsBlocks (h : s.toCore.CountsBlocks)
    (halloc : s.binAlloc heap bm sizeClass mmap = some (r, s')) : s'.toCore.CountsBlocks := by
  have hlocal : (s.binAllocLocal heap bm sizeClass).2.toCore.CountsBlocks :=
    binAllocLocal_countsBlocks h
  rw [binAlloc] at halloc
  split at halloc
  · rename_i x inBin s₁ hfound
    rw [hfound] at hlocal
    obtain ⟨⟨p, s₂⟩, hfrom, halloc⟩ := Option.bind_eq_some_iff.mp halloc
    obtain ⟨-, rfl⟩ := Prod.mk.inj (Option.some.inj halloc)
    exact binAllocFrom_countsBlocks hlocal hfrom
  · rename_i s₁ hfound
    rw [hfound] at hlocal
    obtain ⟨⟨r', s₂⟩, hglobal, halloc⟩ := Option.bind_eq_some_iff.mp halloc
    have hfetched := hlocal.reports (getSbFromGlobal_reports hglobal)
    cases r' with
    | some x =>
      obtain ⟨⟨p, s₃⟩, hfrom, halloc⟩ := Option.bind_eq_some_iff.mp halloc
      obtain ⟨-, rfl⟩ := Prod.mk.inj (Option.some.inj halloc)
      exact binAllocFrom_countsBlocks (s := s₂.setCore (s₂.toCore.adopt heap x)) hfetched.setOwner
        hfrom
    | none =>
      have hnew : (s₂.binAllocNew heap mmap sizeClass).2.toCore.CountsBlocks :=
        binAllocNew_countsBlocks hfetched
      simp only at halloc
      split at halloc
      · rename_i s₃ hmapped
        obtain ⟨-, rfl⟩ := Prod.mk.inj (Option.some.inj halloc)
        rwa [hmapped] at hnew
      · rename_i x s₃ hmapped
        rw [hmapped] at hnew
        obtain ⟨⟨p, s₄⟩, hfrom, halloc⟩ := Option.bind_eq_some_iff.mp halloc
        obtain ⟨-, rfl⟩ := Prod.mk.inj (Option.some.inj halloc)
        exact binAllocFrom_countsBlocks hnew hfrom

theorem heapAlloc_countsBlocks {size : ℕ} (h : s.toCore.CountsBlocks)
    (halloc : s.heapAlloc heap size mmap = some (r, s')) : s'.toCore.CountsBlocks := by
  obtain ⟨⟨b, s₁⟩, hidx, halloc⟩ := Option.bind_eq_some_iff.mp halloc
  obtain ⟨⟨p, s₂⟩, hbin, halloc⟩ := Option.bind_eq_some_iff.mp halloc
  obtain ⟨-, rfl⟩ := Prod.mk.inj (Option.some.inj halloc)
  have hserved : s₂.toCore.CountsBlocks :=
    binAlloc_countsBlocks (h.reports (size2idx_reports hidx)) hbin
  exact hserved

/-! ### Deallocation -/

theorem heapFreeFrom_countsBlocks (h : s.toCore.CountsBlocks)
    (hfree : s.heapFreeFrom heap bm sizeClass ptr = some s') : s'.toCore.CountsBlocks := by
  obtain ⟨s₁, hbin, hrest⟩ := heapFreeFrom_cases hfree
  have hfreed : s₁.toCore.CountsBlocks := h.superblockFree.reports (binFree_reports hbin)
  obtain ⟨-, hs'⟩ | ⟨-, hs'⟩ | ⟨-, x, c, hmoved, hs'⟩ := hrest
  · rw [hs']
    exact hfreed
  · rw [hs']
    exact hfreed
  · have howned : ((s₁.toCore.decUsage heap sizeClass).setOwner x .global).CountsBlocks :=
      Core.CountsBlocks.setOwner (c := s₁.toCore.decUsage heap sizeClass) hfreed
    have hafter : c.CountsBlocks := howned.reports hmoved
    rw [hs']
    exact hafter

theorem heapFree_countsBlocks (h : s.toCore.CountsBlocks) (hfree : s.heapFree ptr = some s') :
    s'.toCore.CountsBlocks := by
  obtain ⟨⟨b, s₁⟩, hidx, hfree⟩ := Option.bind_eq_some_iff.mp hfree
  obtain ⟨owner, -, hfree⟩ := Option.bind_eq_some_iff.mp hfree
  exact heapFreeFrom_countsBlocks
    (h.reports (Core.Reports.trans (.assert ..) (size2idx_reports hidx))) hfree

/-- **A thread heap is charged** for every deallocation, whatever `superblock_free` made
of the pointer. -/
theorem heapFreeFrom_inUse (hheap : heap ≠ .global)
    (hfree : s.heapFreeFrom heap bm sizeClass ptr = some s') :
    (s'.usage heap).inUse = sub64 (s.usage heap).inUse sizeClass := by
  obtain ⟨s₁, hbin, hrest⟩ := heapFreeFrom_cases hfree
  have hcounted : ((s₁.toCore.decUsage heap sizeClass).usage heap).inUse =
      sub64 (s.usage heap).inUse sizeClass := by
    rw [Core.decUsage_inUse_self, (binFree_reports hbin).usage]
    rfl
  obtain ⟨hglobal, -⟩ | ⟨-, hs'⟩ | ⟨-, x, c, hmoved, hs'⟩ := hrest
  · exact absurd hglobal hheap
  · rw [hs']
    exact hcounted
  · have husage : c.usage = (s₁.toCore.decUsage heap sizeClass).usage := hmoved.usage
    rw [hs', Core.decAlloced_inUse, husage]
    exact hcounted

end State

/-- **Every call keeps the counts.** -/
theorem World.step_countsBlocks {w w' : World} {op : Op} (h : w.state.toCore.CountsBlocks)
    (hstep : w.step op = some w') : w'.state.toCore.CountsBlocks := by
  cases op with
  | alloc i size mmap =>
    obtain ⟨⟨r, s⟩, halloc, hstep⟩ := Option.bind_eq_some_iff.mp hstep
    have hs := State.heapAlloc_countsBlocks h halloc
    cases r with
    | none =>
      obtain rfl := Option.some.inj hstep
      exact hs
    | some p =>
      obtain rfl := Option.some.inj hstep
      exact hs
  | free ptr =>
    obtain ⟨s, hfree, hstep⟩ := Option.bind_eq_some_iff.mp hstep
    obtain rfl := Option.some.inj hstep
    exact State.heapFree_countsBlocks h hfree
  | write ptr off bytes =>
    obtain rfl := Option.some.inj hstep
    exact h

/-- So does every run. -/
theorem World.run_countsBlocks {ops : List Op} {w : World}
    (hrun : Trace.run World.step World.initial ops = some w) : w.state.toCore.CountsBlocks := by
  have hzero : SuperblockHeader.CountsBlocks {} := by
    rw [SuperblockHeader.CountsBlocks]
    decide
  exact Trace.run_preserves (P := fun w => w.state.toCore.CountsBlocks)
    (fun _ _ _ h hstep => World.step_countsBlocks h hstep) (fun _ => hzero) hrun

/-! ### Filing a superblock where it is -/

namespace State

variable {s s' : State} {heap : HeapId} {bm bm' : BinPtr} {e e' x y ptr : ℕ} {l l' : List ℕ}

/-- A walk along a list of a bin comes to the superblock. -/
def Listed (s : State) (bm : BinPtr) (e x : ℕ) : Prop :=
  Reaches s.next ((s.sizeBins bm).emptinessBins e) x

/-- The recycle list of a heap. -/
def RecycleList (s : State) (heap : HeapId) (l : List ℕ) : Prop :=
  Chain s.next (s.recycledSuperblock heap) l

/-- **The superblock is linked where its header says**: in the list of its owner, of its
block size and of its emptiness class. -/
structure Filed (s : State) (heap : HeapId) (x : ℕ) (l : List ℕ) : Prop where
  owner : (s.header x).owner = some heap
  total : (s.header x).totalBlocks ≠ 0
  eidx : eidxOf (s.header x) < numEmptinessClasses
  ring : Ring s.next s.prev ((s.sizeBins (heap, binOf (s.header x).blockSize)).emptinessBins
    (eidxOf (s.header x))) l
  nodup : l.Nodup
  mem : x ∈ l

/-- A superblock that is alone where its header says. -/
theorem filed_singleton_iff : s.Filed heap x [x] ↔ (s.header x).owner = some heap ∧
    (s.header x).totalBlocks ≠ 0 ∧ eidxOf (s.header x) < numEmptinessClasses ∧
    (s.sizeBins (heap, binOf (s.header x).blockSize)).emptinessBins (eidxOf (s.header x)) =
      some x ∧ s.next x = some x ∧ s.prev x = some x := by
  constructor
  · intro h
    obtain ⟨hhead, hnext, hprev⟩ := h.ring
    exact ⟨h.owner, h.total, h.eidx, hhead, hnext, hprev⟩
  · rintro ⟨howner, htotal, heidx, hhead, hnext, hprev⟩
    exact ⟨howner, htotal, heidx, ⟨hhead, hnext, hprev⟩, List.nodup_singleton x,
      List.mem_singleton_self x⟩

instance : Decidable (s.Filed heap x [x]) := decidable_of_iff _ filed_singleton_iff.symm

/-- **Filing a superblock again in the class it is in** lays out its list with the same
members. -/
theorem updateEmptinessClass_relinked (hget : s.getEidx x = some (e, s))
    (hring : Ring s.next s.prev ((s.sizeBins bm).emptinessBins e) l) (hnd : l.Nodup)
    (he : e < numEmptinessClasses) (hx : x ∈ l) :
    ∃ s', s.updateEmptinessClass bm e x = some s' ∧ s.Relinked bm e x l (x :: l.erase x) s' := by
  obtain ⟨s₁, hdelete, hlinks⟩ := deleteFromBin_relinked hring hnd he hx
  obtain ⟨s₂, hpush, hlinks'⟩ := pushIntoBin_relinked hlinks.ring (hnd.erase x) he
    hnd.not_mem_erase
  refine ⟨s₂, ?_, hlinks.trans hlinks' fun u => List.mem_of_mem_erase⟩
  simp only [updateEmptinessClass, hget, Option.bind_eq_bind, Option.bind_some, hdelete]
  exact hpush

/-- **No list sees the order of another one.** -/
theorem Relinked.listed_iff (h : s.Relinked bm e x l l' s')
    (hring : Ring s.next s.prev ((s.sizeBins bm).emptinessBins e) l) (hx : x ∈ l)
    (hmem : ∀ u, u ∈ l ↔ u ∈ l') : s'.Listed bm' e' y ↔ s.Listed bm' e' y := by
  have hnext : ∀ u, u ∉ l → s'.next u = s.next u :=
    fun u hu => h.next u (fun hc => hu (hc ▸ hx)) hu
  by_cases hbin : bm' = bm ∧ e' = e
  · obtain ⟨rfl, rfl⟩ := hbin
    rw [Listed, Listed, h.ring.reaches_iff, hring.reaches_iff, hmem]
  · rw [Listed, Listed, h.heads bm' e' hbin]
    exact exists_congr fun a => and_congr_right fun _ => hring.leads_congr h.ring hmem hnext

/-- Nor does a recycle list. -/
theorem Relinked.recycleList_iff (h : s.Relinked bm e x l l' s')
    (hring : Ring s.next s.prev ((s.sizeBins bm).emptinessBins e) l) (hx : x ∈ l)
    (hmem : ∀ u, u ∈ l ↔ u ∈ l') {c : List ℕ} :
    s'.RecycleList heap c ↔ s.RecycleList heap c := by
  rw [RecycleList, RecycleList, h.recycled]
  exact hring.chain_congr h.ring hmem fun u hu => h.next u (fun hc => hu (hc ▸ hx)) hu

/-! ### The early return -/

/-- `superblock_free` rejects a misaligned pointer. -/
theorem superblockFree_misaligned (hptr : ¬minBlockSize ∣ ptr) :
    s.setCore (s.toCore.superblockFree x ptr) = s := by
  have hmask : ptr &&& (minBlockSize - 1) ≠ 0 := fun hc => hptr (and_minBlockSize_eq_zero.mp hc)
  have hcore : s.toCore.superblockFree x ptr = s.toCore := by
    simp only [Core.superblockFree, MyMalloc.superblockFree, if_pos hmask, Core.setHeader,
      Function.update_eq_self]
  rw [hcore]
  rfl

/-- What `heap_free` does once the superblock, its owner and its bin are found. -/
theorem heapFree_eq_from (howner : (s.header (superblockOf ptr)).owner = some heap) :
    ∃ c, s.toCore.Reports c ∧ s.heapFree ptr = (s.setCore c).heapFreeFrom heap
      (heap, binOf (s.header (superblockOf ptr)).blockSize)
      (s.header (superblockOf ptr)).blockSize ptr := by
  let c₁ := s.toCore.assert ((s.header (superblockOf ptr)).magic = headerMagic) .superblockMagic
  have h₁ : s.toCore.Reports c₁ := .assert ..
  let c₂ := c₁.assert (binOf (s.header (superblockOf ptr)).blockSize < numSizeBins) .binInRange
  have h₂ : c₁.Reports c₂ := .assert ..
  refine ⟨c₂, h₁.trans h₂, ?_⟩
  have hheader₁ : c₁.header = s.header := h₁.header
  have hheader₂ : c₂.header = s.header := h₂.header.trans h₁.header
  have hidx : (s.setCore c₁).size2idx (s.header (superblockOf ptr)).blockSize =
      some (binOf (s.header (superblockOf ptr)).blockSize, s.setCore c₂) := by
    rw [State.size2idx, MyMalloc.size2idx_eq]
    rfl
  show ((s.setCore c₁).size2idx (c₁.header (superblockOf ptr)).blockSize).bind (fun r =>
    (r.2.header (superblockOf ptr)).owner.bind fun heap =>
      r.2.heapFreeFrom heap (heap, r.1) (c₁.header (superblockOf ptr)).blockSize ptr) = _
  rw [hheader₁, hidx, Option.bind_some]
  show (c₂.header (superblockOf ptr)).owner.bind _ = _
  rw [hheader₂, howner, Option.bind_some]

/-- The class of the superblock is computed without a fault. -/
theorem Filed.getEidx (h : s.Filed heap x l) {c : Core} (hc : s.toCore.Reports c) :
    (s.setCore c).getEidx x = some (eidxOf (s.header x), s.setCore c) := by
  have hlt : decide (eidxOf (s.header x) < numEmptinessClasses) = true := decide_eq_true h.eidx
  have hheader : (s.setCore c).header = s.header := hc.header
  rw [State.getEidx, hheader, if_neg h.total]
  simp only [hlt, assert_true]

/-- After the early return `bin_free` files the superblock again, -/
theorem binFree_misaligned (hptr : ¬minBlockSize ∣ ptr)
    (hget : s.getEidx (superblockOf ptr) = some (e, s))
    (hused : isSuperblockEmpty (s.header (superblockOf ptr)) = false) :
    s.binFree heap bm ptr = s.updateEmptinessClass bm e (superblockOf ptr) := by
  simp only [binFree, hget, Option.bind_eq_bind, Option.bind_some, superblockFree_misaligned hptr,
    hused, Bool.false_eq_true, if_false]

/-- or recycles it, if none of its blocks is in use. -/
theorem binFree_misaligned_empty (hptr : ¬minBlockSize ∣ ptr)
    (hget : s.getEidx (superblockOf ptr) = some (e, s))
    (hempty : isSuperblockEmpty (s.header (superblockOf ptr)) = true) :
    s.binFree heap bm ptr = (s.deleteFromBin bm e (superblockOf ptr)).map fun s₁ =>
      (s₁.setNext (superblockOf ptr) (s₁.recycledSuperblock heap)).setRecycled heap
        (superblockOf ptr) := by
  simp only [binFree, hget, Option.bind_eq_bind, Option.bind_some, superblockFree_misaligned hptr,
    hempty, if_true]
  cases s.deleteFromBin bm e (superblockOf ptr) <;> rfl

/-! ### Ignoring a pointer -/

/-- **A stray pointer**: it points into the buffer of a superblock that is linked where
its header says, and is misaligned. -/
structure Stray (s : State) (heap : HeapId) (ptr : ℕ) : Prop where
  buffer : superblockOf ptr + sizeofSuperblockHeader ≤ ptr ∧ ptr < superblockOf ptr + superblockSize
  misaligned : ¬minBlockSize ∣ ptr
  filed : ∃ l, s.Filed heap (superblockOf ptr) l

/-- **Nothing has changed** for a heap: its account, the superblocks, and what is on which
list. -/
structure Unchanged (s : State) (heap : HeapId) (s' : State) : Prop where
  inUse : (s'.usage heap).inUse = (s.usage heap).inUse
  alloced : (s'.usage heap).alloced = (s.usage heap).alloced
  owner : ∀ x, (s'.header x).owner = (s.header x).owner
  numFreeBlocks : ∀ x, (s'.header x).numFreeBlocks = (s.header x).numFreeBlocks
  freeList : ∀ x, (s'.header x).freeList = (s.header x).freeList
  eidx : ∀ x, eidxOf (s'.header x) = eidxOf (s.header x)
  listed : ∀ bm e x, s'.Listed bm e x ↔ s.Listed bm e x
  recycled : ∀ heap' c, s'.RecycleList heap' c ↔ s.RecycleList heap' c

/-- `heap_free` ignores a pointer into a superblock of a heap. -/
def Ignores (s : State) (heap : HeapId) (ptr : ℕ) : Prop :=
  ∃ s', s.heapFree ptr = some s' ∧ s.Unchanged heap s'

/-- Reports and the order of one list are no change. -/
theorem Relinked.unchanged {c : Core} (h : (s.setCore c).Relinked bm e x l l' s')
    (hc : s.toCore.Reports c) (hc' : c.Reports s'.toCore)
    (hring : Ring s.next s.prev ((s.sizeBins bm).emptinessBins e) l) (hx : x ∈ l)
    (hmem : ∀ u, u ∈ l ↔ u ∈ l') : s.Unchanged heap s' := by
  have husage : s'.usage = s.usage := hc'.usage.trans hc.usage
  have hheader : s'.header = s.header := hc'.header.trans hc.header
  constructor
  · rw [husage]
  · rw [husage]
  · intro y
    rw [hheader]
  · intro y
    rw [hheader]
  · intro y
    rw [hheader]
  · intro y
    rw [hheader]
  · intro bm' e' y
    exact h.listed_iff hring hx hmem
  · intro heap' c'
    exact h.recycleList_iff hring hx hmem

/-- **The global heap ignores** a stray pointer into a superblock in use. -/
theorem Stray.ignores (h : s.Stray .global ptr)
    (hused : isSuperblockEmpty (s.header (superblockOf ptr)) = false) : s.Ignores .global ptr := by
  obtain ⟨l, hl⟩ := h.filed
  obtain ⟨c, hc, hfree⟩ := heapFree_eq_from hl.owner
  have hheader : (s.setCore c).header = s.header := hc.header
  have hget := hl.getEidx hc
  obtain ⟨s', hupdate, hlinks⟩ := updateEmptinessClass_relinked (s := s.setCore c) hget hl.ring
    hl.nodup hl.eidx hl.mem
  have hperm : ∀ u, u ∈ l ↔ u ∈ superblockOf ptr :: l.erase (superblockOf ptr) :=
    fun u => (List.perm_cons_erase hl.mem).mem_iff
  refine ⟨s', ?_, hlinks.unchanged hc (updateEmptinessClass_reports hupdate) hl.ring hl.mem hperm⟩
  rw [hfree, heapFreeFrom, binFree_misaligned h.misaligned hget (hheader ▸ hused), hupdate]
  rfl

/-- **An empty superblock is taken out of its bin**, as if its last block had been given
back. -/
theorem Stray.not_unchanged_of_empty (h : s.Stray .global ptr)
    (hempty : isSuperblockEmpty (s.header (superblockOf ptr)) = true)
    (hfree : s.heapFree ptr = some s') : ¬s.Unchanged .global s' := by
  obtain ⟨l, hl⟩ := h.filed
  obtain ⟨c, hc, hfree'⟩ := heapFree_eq_from hl.owner
  have hheader : (s.setCore c).header = s.header := hc.header
  have hget := hl.getEidx hc
  obtain ⟨s₁, hdelete, hlinks⟩ := deleteFromBin_relinked (s := s.setCore c) hl.ring hl.nodup
    hl.eidx hl.mem
  rw [hfree', heapFreeFrom, binFree_misaligned_empty h.misaligned hget (hheader ▸ hempty), hdelete]
    at hfree
  obtain rfl := Option.some.inj hfree
  intro hsame
  -- It was on the list, and is not any more.
  have hnext : ∀ u ∈ l.erase (superblockOf ptr), Function.update s₁.next (superblockOf ptr)
      (s₁.recycledSuperblock .global) u = s₁.next u :=
    fun u hu => Function.update_of_ne (fun hc => hl.nodup.not_mem_erase (hc ▸ hu)) ..
  have hprev : ∀ u ∈ l.erase (superblockOf ptr), s₁.prev u = s₁.prev u := fun _ _ => rfl
  have hring := hlinks.ring.congr hnext hprev
  have hlisted := (hsame.listed _ _ _).mpr (hl.ring.reaches_iff.mpr hl.mem)
  exact hl.nodup.not_mem_erase (hring.reaches_iff.mp hlisted)

/-- **A thread heap does not ignore** a stray pointer: it is charged for it. -/
theorem Stray.not_unchanged_of_thread (h : s.Stray heap ptr)
    (hcount : (s.header (superblockOf ptr)).CountsBlocks) (hheap : heap ≠ .global)
    (hfree : s.heapFree ptr = some s') : ¬s.Unchanged heap s' := by
  obtain ⟨l, hl⟩ := h.filed
  obtain ⟨c, hc, hfree'⟩ := heapFree_eq_from hl.owner
  obtain ⟨hpos, hlt⟩ := hcount.blockSize_pos hl.total
  rw [hfree'] at hfree
  intro hsame
  have hinUse := heapFreeFrom_inUse hheap hfree
  have husage : (s.setCore c).usage = s.usage := hc.usage
  rw [husage, hsame.inUse, sub64] at hinUse
  omega

/-- **Which pointers are ignored**, in any state. -/
theorem Stray.ignores_iff (h : s.Stray heap ptr)
    (hcount : (s.header (superblockOf ptr)).CountsBlocks) : s.Ignores heap ptr ↔
      heap = .global ∧ isSuperblockEmpty (s.header (superblockOf ptr)) = false := by
  constructor
  · rintro ⟨s', hfree, hsame⟩
    have hheap : heap = .global := by
      by_contra hne
      exact h.not_unchanged_of_thread hcount hne hfree hsame
    subst hheap
    refine ⟨rfl, ?_⟩
    by_contra hne
    exact h.not_unchanged_of_empty (Bool.of_not_eq_false hne) hfree hsame
  · rintro ⟨rfl, hused⟩
    exact h.ignores hused

end State

/-- In a well-formed state a superblock in a bin has a block in use, so that only the owner
matters. -/
theorem World.WellFormed.ignores_iff {w : World} (hw : w.WellFormed) {heap : HeapId} {ptr : ℕ}
    (h : w.state.Stray heap ptr) : w.state.Ignores heap ptr ↔ heap = .global := by
  obtain ⟨lists, hrep, hd⟩ := hw
  obtain ⟨l, hl⟩ := h.filed
  -- The list its header names is the one it is on.
  obtain rfl := hl.ring.unique (hrep.ring _ _) hl.nodup (hd.distinct.nodup _)
  obtain ⟨-, -, -, -, hused⟩ := hd.fits _ _ hl.mem
  obtain ⟨free, hs⟩ := (hd.carved _ (hd.lists_known _ _ hl.mem)).sound
  have hlt := hs.total_lt
  have hcount : (w.state.header (superblockOf ptr)).CountsBlocks := by
    rw [SuperblockHeader.CountsBlocks, ← hs.total]
    exact (Nat.mod_eq_of_lt (hlt.trans (by decide))).symm
  rw [h.ignores_iff hcount, and_iff_left]
  exact beq_eq_false_iff_ne.mpr hused

/-! ### Runs -/

/-- **A misaligned pointer is ignored exactly by the global heap**, and only if its
superblock has a block in use: after every run of calls, of `heap_free` with any pointers. -/
theorem misaligned_free_ignored {ops : List Op} {w : World} {heap : HeapId} {ptr : ℕ}
    (hrun : Trace.run World.step World.initial ops = some w) (h : w.state.Stray heap ptr) :
    w.state.Ignores heap ptr ↔
      heap = .global ∧ isSuperblockEmpty (w.state.header (superblockOf ptr)) = false := by
  have hcount := World.run_countsBlocks hrun
  exact h.ignores_iff (hcount (superblockOf ptr))

/-- A superblock with a block in use goes to the global heap, which ignores a pointer one
byte into that block. -/
theorem misaligned_free_ignored_global : ∃ w, Trace.run World.step World.initial
    (.alloc 0 16 (some 1048576) :: .alloc 0 16 none :: fiveClasses.tail) = some w ∧
    w.state.Stray .global 1048721 ∧ w.state.Ignores .global 1048721 := by
  have hfacts : (Trace.run World.step World.initial
      (.alloc 0 16 (some 1048576) :: .alloc 0 16 none :: fiveClasses.tail)).map (fun w =>
        (decide (w.state.Filed .global 1048576 [1048576]),
          isSuperblockEmpty (w.state.header 1048576))) = some (true, false) := by decide +kernel
  obtain ⟨w, hrun, hw⟩ := Option.map_eq_some_iff.mp hfacts
  obtain ⟨hdec, hused⟩ := Prod.mk.inj hw
  have hfiled : w.state.Filed .global 1048576 [1048576] := of_decide_eq_true hdec
  have hstray : w.state.Stray .global 1048721 := ⟨by decide, by decide, [1048576], hfiled⟩
  exact ⟨w, hrun, hstray, (misaligned_free_ignored hrun hstray).mpr ⟨rfl, hused⟩⟩

/-- **A misaligned pointer is counted**: heap 0 has one block of 16 bytes in use, and
none after `heap_free` of a pointer one byte into it. -/
theorem misaligned_free_counted :
    Trace.Always World.step World.Legal World.initial [.alloc 0 16 (some 1048576)] ∧
    ∃ w, Trace.run World.step World.initial [.alloc 0 16 (some 1048576)] = some w ∧
      w.state.Stray (.thread 0) 1048705 ∧ ¬w.state.Ignores (.thread 0) 1048705 ∧
      (w.state.usage (.thread 0)).inUse = 16 ∧
      ∃ s', w.state.heapFree 1048705 = some s' ∧ (s'.usage (.thread 0)).inUse = 0 := by
  refine ⟨by decide +kernel, ?_⟩
  have hfacts : (Trace.run World.step World.initial [.alloc 0 16 (some 1048576)]).map (fun w =>
      (decide (w.state.Filed (.thread 0) 1048576 [1048576]), (w.state.usage (.thread 0)).inUse,
        (w.state.heapFree 1048705).map fun s' => (s'.usage (.thread 0)).inUse)) =
      some (true, 16, some 0) := by decide +kernel
  obtain ⟨w, hrun, hw⟩ := Option.map_eq_some_iff.mp hfacts
  simp only [Prod.mk.injEq] at hw
  obtain ⟨hdec, hinUse, hfree⟩ := hw
  have hfiled : w.state.Filed (.thread 0) 1048576 [1048576] := of_decide_eq_true hdec
  obtain ⟨s', hfree, hinUse'⟩ := Option.map_eq_some_iff.mp hfree
  refine ⟨w, hrun, ⟨by decide, by decide, [1048576], hfiled⟩, ?_, hinUse, s', hfree, hinUse'⟩
  rintro ⟨s'', hfree', hsame⟩
  obtain rfl := Option.some.inj (hfree.symm.trans hfree')
  have := hsame.inUse
  omega

end MyMalloc
