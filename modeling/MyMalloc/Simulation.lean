import MyMalloc.DepotSteps

/-!
# The allocator simulates the depot

Every complete call of the allocator is a step of the depot
(`MyMalloc.World.simulates`), so that a run of the allocator is a run of the
depot, and what every step of the depot keeps holds after every call.

The condition is that a superblock taken from the recycle list of the global
heap is carved for the class of the request (`MyMalloc.World.Matching`). The
code does not check that, and does not carve the superblock again.
-/

namespace MyMalloc

open LinkedList Placement AddressSpace ByteMemory Depot

namespace State

variable {s : State} {d : Depot} {heap : HeapId} {b : ℕ}

/-! ### `bin_alloc` -/

/-- `bin_alloc` from the heap's own lists. -/
theorem binAlloc_eq_local {s s₁ s₂ : State} {bm : BinPtr} {x p sizeClass : ℕ} {inBin : Bool}
    {mmap : Option ℕ} (hlocal : s.binAllocLocal heap bm sizeClass = (some (x, inBin), s₁))
    (hfrom : s₁.binAllocFrom bm x inBin = some (p, s₂)) :
    s.binAlloc heap bm sizeClass mmap = some (some p, s₂) := by
  simp only [binAlloc, hlocal, hfrom, Option.bind_eq_bind, Option.bind_some]
  rfl

/-- `bin_alloc` from the global heap. -/
theorem binAlloc_eq_global {s s₁ s₂ s₃ : State} {bm : BinPtr} {x p sizeClass : ℕ}
    {mmap : Option ℕ} (hlocal : s.binAllocLocal heap bm sizeClass = (none, s₁))
    (hglobal : s₁.getSbFromGlobal sizeClass = some (some x, s₂))
    (hfrom : (s₂.setCore (s₂.toCore.adopt heap x)).binAllocFrom bm x false = some (p, s₃)) :
    s.binAlloc heap bm sizeClass mmap = some (some p, s₃) := by
  simp only [binAlloc, hlocal, hglobal, hfrom, Option.bind_eq_bind, Option.bind_some]
  rfl

/-- `bin_alloc` from a new superblock. -/
theorem binAlloc_eq_new {s s₁ s₂ s₃ s₄ : State} {bm : BinPtr} {x p sizeClass : ℕ}
    {mmap : Option ℕ} (hlocal : s.binAllocLocal heap bm sizeClass = (none, s₁))
    (hglobal : s₁.getSbFromGlobal sizeClass = some (none, s₂))
    (hnew : s₂.binAllocNew heap mmap sizeClass = (some x, s₃))
    (hfrom : s₃.binAllocFrom bm x false = some (p, s₄)) :
    s.binAlloc heap bm sizeClass mmap = some (some p, s₄) := by
  simp only [binAlloc, hlocal, hglobal, hnew, hfrom, Option.bind_eq_bind, Option.bind_some]
  rfl

/-- `bin_alloc` when `mmap` fails. -/
theorem binAlloc_eq_none {s s₁ s₂ : State} {bm : BinPtr} {sizeClass : ℕ}
    (hlocal : s.binAllocLocal heap bm sizeClass = (none, s₁))
    (hglobal : s₁.getSbFromGlobal sizeClass = some (none, s₂)) :
    s.binAlloc heap bm sizeClass none = some (none, s₂) := by
  simp only [binAlloc, hlocal, hglobal, Option.bind_eq_bind, Option.bind_some]
  rfl

/-- A superblock from the recycle list of the global heap is carved for the
class. -/
def Matching (s : State) (heap : HeapId) (binIdx : ℕ) : Prop :=
  ∀ x, s.source heap binIdx = .globalRecycled x →
    (s.header x).blockSize = idx2class binIdx

instance (s : State) (heap : HeapId) (binIdx : ℕ) : Decidable (s.Matching heap binIdx) :=
  match h : s.source heap binIdx with
  | .globalRecycled x => decidable_of_iff ((s.header x).blockSize = idx2class binIdx)
    (by simp [Matching, h])
  | .bin .. | .recycled _ | .globalBin .. | .new => isTrue (by simp [Matching, h])

/-- A ready superblock hands out a block and is filed. -/
theorem binAllocFrom_ready {x size : ℕ} (hR : Refines s d) (hd : d.Ready heap b x)
    (hb : b < numSizeBins) (hsize : size ≤ idx2class b) :
    ∃ p header s', s.binAllocFrom (heap, b) x false = some (p, s') ∧ Serves d x p header size ∧
      Refines s' ((d.serve x p header size).put (.bin (heap, b) (eidxOf header)) x) := by
  obtain ⟨p, header, s', hfrom, hserves, hR', -⟩ := binAllocFrom_transit hR hd.inv
    (heap, b) hd.transit hd.free hd.owner hb hd.blockSize hsize
  exact ⟨p, header, s', hfrom, hserves, hR'⟩

/-- **`bin_alloc` from the heap's own lists**, or they have nothing to offer. -/
theorem binAllocLocal_serves (hR : Refines s d) (hd : d.Inv) (heap : HeapId)
    (hb : b < numSizeBins) {size : ℕ} (hsize : size ≤ idx2class b) :
    (∃ x inBin d₁ p header s₁ s', (s.source heap b).Local ∧
      d.Offers heap b (s.source heap b) ∧ d.Acquires heap b (s.source heap b) x d₁ ∧
      Serves d₁ x p header size ∧
      s.binAllocLocal heap (heap, b) (idx2class b) = (some (x, inBin), s₁) ∧
      s₁.binAllocFrom (heap, b) x inBin = some (p, s') ∧
      Refines s' ((d₁.serve x p header size).put (.bin (heap, b) (eidxOf header)) x)) ∨
    s.firstNonempty (heap, b) = none ∧ s.recycledSuperblock heap = none ∧
      s.binAllocLocal heap (heap, b) (idx2class b) = (none, s) := by
  have hhead := hR.represents.head_recycle heap
  rcases s.binAllocLocal_spec hR hd heap (heap, b) (idx2class b) with
    ⟨e, x, hfound, he, he', hx, hlocal⟩ | ⟨x, l, s₁, hfound, hl, hlocal, hR₁⟩ |
      ⟨hfound, hl, hlocal⟩
  · -- A superblock of the heap's own bin.
    have hsrc : s.source heap b = .bin e x := by simp only [source, hfound]
    obtain ⟨p, header, s', hfrom, hserves, hR', -⟩ := binAllocFrom_bin hR hd hx he he' hsize
    rw [hsrc]
    exact Or.inl ⟨x, true, _, p, header, s, s', trivial, ⟨he, hx⟩, .bin e x, hserves, hlocal, hfrom,
      hR'⟩
  · -- A superblock of the heap's own recycle list.
    rw [hl, List.head?_cons] at hhead
    have hsrc : s.source heap b = .recycled x := by simp only [source, hfound, hhead]
    have hoffers : d.Offers heap b (.recycled x) := by
      show x ∈ d.lists (.recycle heap)
      rw [hl]
      exact List.mem_cons_self ..
    have hacquires : d.Acquires heap b (.recycled x) x _ := .recycled x
    obtain ⟨p, header, s', hfrom, hserves, hR'⟩ :=
      binAllocFrom_ready hR₁ (hacquires.ready hd hb hoffers) hb hsize
    rw [hsrc]
    exact Or.inl ⟨x, false, _, p, header, s₁, s', trivial, hoffers, hacquires, hserves, hlocal,
      hfrom, hR'⟩
  · rw [hl, List.head?_nil] at hhead
    exact Or.inr ⟨hfound, hhead, hlocal⟩

/-- `bin_alloc` from a superblock that has been acquired, and is in no bin yet. -/
theorem binAllocFrom_acquired {s₁ : State} {d₁ : Depot} {x size : ℕ} {src : Source}
    (hR₁ : Refines s₁ d₁) (hd : d.Inv) (hb : b < numSizeBins)
    (hsrc : d.Present heap b src) (hacquires : d.Acquires heap b src x d₁)
    (hsize : size ≤ idx2class b)
    (hroom : ∀ x, src = .globalRecycled x → size ≤ (d.core.header x).blockSize) :
    ∃ p header s', s₁.binAllocFrom (heap, b) x false = some (p, s') ∧ Serves d₁ x p header size ∧
      Refines s' ((d₁.serve x p header size).put (.bin (heap, b) (eidxOf header)) x) :=
  have hheld := hacquires.held hd hb hsrc
  binAllocFrom_held hR₁ hheld.inv (heap, b) hheld.transit hheld.free
    (hacquires.size_le hd hsrc hsize hroom)

/-- **`bin_alloc`** acquires a superblock from its source and hands out a block of
it, or there is no superblock to be had. A superblock from the recycle list of the
global heap may be carved for any class. -/
theorem binAlloc_outcome (hR : Refines s d) (hd : d.Inv) (hb : b < numSizeBins) {mmap : Option ℕ}
    (hmmap : ∀ ptr ∈ mmap, MapsFresh d.core.mapped ptr (2 * superblockSize)) {size : ℕ}
    (hsize : size ≤ idx2class b)
    (hroom : ∀ x, s.source heap b = .globalRecycled x → size ≤ (d.core.header x).blockSize) :
    (∃ x d₁ p header s', d.Present heap b (s.source heap b) ∧
      d.Acquires heap b (s.source heap b) x d₁ ∧ Serves d₁ x p header size ∧
      s.binAlloc heap (heap, b) (idx2class b) mmap = some (some p, s') ∧
      Refines s' ((d₁.serve x p header size).put (.bin (heap, b) (eidxOf header)) x)) ∨
    s.source heap b = .new ∧ mmap = none ∧
      s.binAlloc heap (heap, b) (idx2class b) mmap = some (none, s) := by
  rcases s.binAllocLocal_serves hR hd heap hb hsize with
    ⟨x, inBin, d₁, p, header, s₁, s', -, hoffers, hacquires, hserves, hlocal, hfrom, hR'⟩ |
      ⟨hfound, hhead, hlocal⟩
  · exact Or.inl ⟨x, d₁, p, header, s', hoffers.present, hacquires, hserves,
      binAlloc_eq_local hlocal hfrom, hR'⟩
  -- The heap has nothing to offer. The global heap is asked next.
  have hcount := hR.represents.count (.global, b)
  rcases s.getSbFromGlobal_spec hR hd hb with
    ⟨e, x, s₁, hpos, hfound', he, he', hx, hglobal, hR₁⟩ | ⟨x, l, s₁, hzero, hl', hglobal, hR₁⟩ |
      ⟨hzero, hl', hglobal⟩
  · -- A superblock of the bin of the global heap.
    have hsrc : s.source heap b = .globalBin e x := by
      simp only [source, hfound, hhead, hcount, hpos, if_true, hfound']
    rw [hsrc] at hroom ⊢
    have hpresent : d.Present heap b (.globalBin e x) := ⟨he, hx⟩
    have hacquires : d.Acquires heap b (.globalBin e x) x _ := .globalBin e x
    have hR₂ : Refines (s₁.setCore (s₁.toCore.adopt heap x))
        ((d.take (.bin (.global, b) e) x).adopt heap x) :=
      ⟨by rw [hR₁.core]; rfl, hR₁.represents.setCore _⟩
    obtain ⟨p, header, s', hfrom, hserves, hR'⟩ :=
      binAllocFrom_acquired hR₂ hd hb hpresent hacquires hsize hroom
    exact Or.inl ⟨x, _, p, header, s', hpresent, hacquires, hserves,
      binAlloc_eq_global hlocal hglobal hfrom, hR'⟩
  · -- A superblock of the recycle list of the global heap.
    have hhead' := hR.represents.head_recycle .global
    rw [hl', List.head?_cons] at hhead'
    have hsrc : s.source heap b = .globalRecycled x := by
      simp only [source, hfound, hhead, hcount, hzero, lt_irrefl, if_false, hhead']
    rw [hsrc] at hroom ⊢
    have hpresent : d.Present heap b (.globalRecycled x) := by
      show x ∈ d.lists (.recycle .global)
      rw [hl']
      exact List.mem_cons_self ..
    have hacquires : d.Acquires heap b (.globalRecycled x) x _ := .globalRecycled x
    have hR₂ : Refines (s₁.setCore (s₁.toCore.adopt heap x)) ((d.popGlobal x).adopt heap x) :=
      ⟨by rw [hR₁.core]; rfl, hR₁.represents.setCore _⟩
    obtain ⟨p, header, s', hfrom, hserves, hR'⟩ :=
      binAllocFrom_acquired hR₂ hd hb hpresent hacquires hsize hroom
    exact Or.inl ⟨x, _, p, header, s', hpresent, hacquires, hserves,
      binAlloc_eq_global hlocal hglobal hfrom, hR'⟩
  · -- No heap has a superblock to offer.
    have hhead' := hR.represents.head_recycle .global
    rw [hl', List.head?_nil] at hhead'
    have hsrc : s.source heap b = .new := by
      simp only [source, hfound, hhead, hcount, hzero, lt_irrefl, if_false, hhead']
    rw [hsrc] at hroom ⊢
    cases mmap with
    | none => exact Or.inr ⟨rfl, rfl, binAlloc_eq_none hlocal hglobal⟩
    | some ptr =>
      have hptr := hmmap ptr rfl
      obtain ⟨x, c, s₁, hc, hnew, hR₁⟩ := binAllocNew_spec hR hd heap hptr hb
      have hpresent : d.Present heap b .new := trivial
      have hacquires : d.Acquires heap b .new x _ := .new ptr x c hptr hc
      obtain ⟨p, header, s', hfrom, hserves, hR'⟩ :=
        binAllocFrom_acquired hR₁ hd hb hpresent hacquires hsize hroom
      exact Or.inl ⟨x, _, p, header, s', hpresent, hacquires, hserves,
        binAlloc_eq_new hlocal hglobal hnew hfrom, hR'⟩

/-- `bin_alloc` when the superblock is carved for the class. -/
theorem binAlloc_spec (hR : Refines s d) (hd : d.Inv) (hb : b < numSizeBins) {mmap : Option ℕ}
    (hmmap : ∀ ptr ∈ mmap, MapsFresh d.core.mapped ptr (2 * superblockSize))
    (hmatch : s.Matching heap b) {size : ℕ} (hsize : size ≤ idx2class b) :
    (∃ x d₁ p header s', d.Offers heap b (s.source heap b) ∧
      d.Acquires heap b (s.source heap b) x d₁ ∧ Serves d₁ x p header size ∧
      s.binAlloc heap (heap, b) (idx2class b) mmap = some (some p, s') ∧
      Refines s' ((d₁.serve x p header size).put (.bin (heap, b) (eidxOf header)) x)) ∨
    s.source heap b = .new ∧ mmap = none ∧
      s.binAlloc heap (heap, b) (idx2class b) mmap = some (none, s) := by
  have hclass : ∀ x, s.source heap b = .globalRecycled x →
      (d.core.header x).blockSize = idx2class b := fun x hx => hR.core ▸ hmatch x hx
  refine (binAlloc_outcome hR hd hb hmmap hsize fun x hx => hclass x hx ▸ hsize).imp_left ?_
  rintro ⟨x, d₁, p, header, s', hpresent, hrest⟩
  exact ⟨x, d₁, p, header, s', hpresent.offers hclass, hrest⟩

/-- `heap_alloc` once `bin_alloc` has returned. -/
theorem heapAlloc_eq {s s₁ : State} {size : ℕ} {mmap r : Option ℕ} (hsize : size ≤ maxBlockSize)
    (h : s.binAlloc heap (heap, binOf size) (idx2class (binOf size)) mmap = some (r, s₁)) :
    s.heapAlloc heap size mmap =
      some (r, s₁.setCore (s₁.toCore.incUsage heap (idx2class (binOf size)))) := by
  simp only [heapAlloc, size2idx_eq hsize, h, Option.bind_eq_bind, Option.bind_some]
  rfl

/-! ### `heap_free` -/

/-- **`transfer_sb_to_global`** moves a superblock to the same place of the global
heap. -/
theorem transferSbToGlobal_spec (hR : Refines s d) (hd : d.Inv) (heap : HeapId)
    (hcandidate : ∃ x, x ∈ d.lists (.recycle heap) ∨
      ∃ e b, 0 < e ∧ x ∈ d.lists (.bin (heap, b) e)) :
    ∃ y place s', y ∈ d.lists (placeIn heap place) ∧ Emptiest d heap place ∧
      s.transferSbToGlobal heap = some s' ∧ Refines s' (d.transfer heap place y) := by
  obtain ⟨y, place, s₁, hy, hplace, htake, hR₁⟩ := transferTake_spec hR hd heap hcandidate
  obtain ⟨s₂, hput, hR₂, -⟩ := transferPut_spec hR₁ (hd.take hy) (List.mem_cons_self ..)
    (hd.fits _ y hy)
  refine ⟨y, place, s₂, hy, hplace, ?_, hR₂⟩
  simp only [transferSbToGlobal, htake, hput, Option.bind_eq_bind, Option.bind_some]

/-- `heap_free` from `bin_free` on, unfolded. -/
theorem heapFreeFrom_eq (s : State) (heap : HeapId) (bm : BinPtr) (sizeClass ptr : ℕ) :
    s.heapFreeFrom heap bm sizeClass ptr = (s.binFree heap bm ptr).bind fun s =>
      if heap = .global then some s
      else if isEmptyEnough ((s.setCore (s.toCore.decUsage heap sizeClass)).usage heap) then
        ((s.setCore (s.toCore.decUsage heap sizeClass)).transferSbToGlobal heap).bind fun s =>
          some (s.setCore (s.toCore.decAlloced heap superblockSize))
      else some (s.setCore (s.toCore.decUsage heap sizeClass)) :=
  rfl

/-- `heap_free` on a superblock of the global heap. -/
theorem heapFreeFrom_eq_global {s s₁ : State} {bm : BinPtr} {sizeClass ptr : ℕ}
    (hfree : s.binFree .global bm ptr = some s₁) :
    s.heapFreeFrom .global bm sizeClass ptr = some s₁ := by
  rw [heapFreeFrom_eq, hfree, Option.bind_some, if_pos rfl]

/-- `heap_free` that leaves the heap its superblocks. -/
theorem heapFreeFrom_eq_kept {s s₁ s₂ : State} {i : ℕ} {bm : BinPtr} {sizeClass ptr : ℕ}
    (hfree : s.binFree (.thread i) bm ptr = some s₁)
    (hcounted : s₁.setCore (s₁.toCore.decUsage (.thread i) sizeClass) = s₂)
    (hkept : isEmptyEnough (s₂.usage (.thread i)) = false) :
    s.heapFreeFrom (.thread i) bm sizeClass ptr = some s₂ := by
  rw [heapFreeFrom_eq, hfree, Option.bind_some, if_neg HeapId.noConfusion, hcounted, hkept,
    if_neg Bool.false_ne_true]

/-- `heap_free` that moves a superblock to the global heap. -/
theorem heapFreeFrom_eq_moved {s s₁ s₂ s₃ : State} {i : ℕ} {bm : BinPtr} {sizeClass ptr : ℕ}
    (hfree : s.binFree (.thread i) bm ptr = some s₁)
    (hcounted : s₁.setCore (s₁.toCore.decUsage (.thread i) sizeClass) = s₂)
    (hempty : isEmptyEnough (s₂.usage (.thread i)) = true)
    (hmove : s₂.transferSbToGlobal (.thread i) = some s₃) :
    s.heapFreeFrom (.thread i) bm sizeClass ptr =
      some (s₃.setCore (s₃.toCore.decAlloced (.thread i) superblockSize)) := by
  rw [heapFreeFrom_eq, hfree, Option.bind_some, if_neg HeapId.noConfusion, hcounted, hempty,
    if_pos rfl, hmove, Option.bind_some]

/-- After a block is freed, its heap has a superblock that is not full. -/
theorem candidate_of_takeBack (hd : d.Inv) {bm : BinPtr} {e x ptr : ℕ}
    (hx : x ∈ d.lists (.bin bm e)) (hptr : ptr ∈ liveIn d.live x) :
    ∃ y, y ∈ (d.takeBack bm e x ptr).lists (.recycle bm.1) ∨
      ∃ e' b, 0 < e' ∧ y ∈ (d.takeBack bm e x ptr).lists (.bin (bm.1, b) e') := by
  have hmem : x ∈ (d.takeBack bm e x ptr).lists
      (refile bm ((d.core.superblockFree x ptr).header x)) := mem_push.mpr (Or.inl ⟨rfl, rfl⟩)
  obtain ⟨hinv, -, hnum⟩ := (hd.take hx).release (List.mem_cons_self ..) hptr
  refine ⟨x, ?_⟩
  cases hempty : isSuperblockEmpty ((d.core.superblockFree x ptr).header x) with
  | true =>
    rw [refile, if_pos hempty] at hmem
    exact Or.inl hmem
  | false =>
    rw [refile, if_neg (by rw [hempty]; exact Bool.false_ne_true)] at hmem
    have hcarved : Carved ((d.core.superblockFree x ptr).header x) _ _ x :=
      hinv.carved x (hinv.transit_known x (List.mem_cons_self ..))
    have hnum' : ((d.core.superblockFree x ptr).header x).numFreeBlocks =
        (d.core.header x).numFreeBlocks + 1 := hnum
    exact Or.inr ⟨_, bm.2, hcarved.counted.eidxOf_pos (by omega), hmem⟩

/-- **`heap_free` finds the heap and the bin** of a block from the header of its
superblock. -/
theorem heapFree_eq (hR : Refines s d) (hd : d.Inv) {bm : BinPtr} {e x ptr : ℕ}
    (hx : x ∈ d.lists (.bin bm e)) (hsb : superblockOf ptr = x) :
    s.heapFree ptr = s.heapFreeFrom bm.1 bm (idx2class bm.2) ptr := by
  subst hsb
  obtain ⟨howner, hb, hclass, -, -⟩ := hd.fits _ _ hx
  have hmagic := (hd.carved _ (hd.lists_known _ _ hx)).magic
  have hheader : s.header (superblockOf ptr) = d.core.header (superblockOf ptr) := by rw [hR.core]
  simp only [heapFree, hheader, hmagic, decide_true, assert_true, hclass,
    size2idx_eq (idx2class_le hb), binOf_idx2class hb, howner, Option.bind_eq_bind,
    Option.bind_some]

/-- **`heap_free` of a block of the global heap.** -/
theorem heapFree_global (hR : Refines s d) (hd : d.Inv) {e x ptr : ℕ}
    (hx : x ∈ d.lists (.bin (.global, b) e)) (hptr : ptr ∈ liveIn d.live x) :
    ∃ s', s.heapFree ptr = some s' ∧ Refines s' (d.takeBack (.global, b) e x ptr) := by
  obtain ⟨s', hfree, hR', -⟩ := binFree_spec hR hd hx hptr
  exact ⟨s', (heapFree_eq hR hd hx (MyMalloc.mem_liveIn.mp hptr).2).trans
    (heapFreeFrom_eq_global hfree), hR'⟩

/-- **`heap_free` of a block of a thread heap**, up to the question whether the heap
has become empty enough. -/
theorem binFree_counted (hR : Refines s d) (hd : d.Inv) {i e x ptr : ℕ}
    (hx : x ∈ d.lists (.bin (.thread i, b) e)) (hptr : ptr ∈ liveIn d.live x) :
    ∃ s₁ s₂, s.binFree (.thread i) (.thread i, b) ptr = some s₁ ∧
      s₁.setCore (s₁.toCore.decUsage (.thread i) (idx2class b)) = s₂ ∧
      Refines s₂ (d.takeBackCounted (.thread i) b e x ptr) := by
  obtain ⟨s₁, hfree, hR₁, -⟩ := binFree_spec hR hd hx hptr
  refine ⟨s₁, _, hfree, rfl, ?_, hR₁.represents.setCore _⟩
  show s₁.toCore.decUsage (.thread i) (idx2class b) = _
  rw [hR₁.core]
  rfl

/-- **`heap_free` that moves a superblock** moves one of the emptiest. -/
theorem heapFree_moved (hR : Refines s d) (hd : d.Inv) {i e x ptr : ℕ}
    (hx : x ∈ d.lists (.bin (.thread i, b) e)) (hptr : ptr ∈ liveIn d.live x)
    (hempty : isEmptyEnough ((d.takeBackCounted (.thread i) b e x ptr).core.usage
      (.thread i)) = true) :
    ∃ y place s', y ∈ (d.takeBackCounted (.thread i) b e x ptr).lists (placeIn (.thread i) place) ∧
      Emptiest (d.takeBackCounted (.thread i) b e x ptr) (.thread i) place ∧
      s.heapFree ptr = some s' ∧
      Refines s' ((d.takeBackCounted (.thread i) b e x ptr).transferCounted (.thread i) place
        y) := by
  obtain ⟨s₁, s₂, hfree, hcounted, hR₂⟩ := binFree_counted hR hd hx hptr
  obtain ⟨y, place, s₃, hy, hplace, hmove, hR₃⟩ := transferSbToGlobal_spec hR₂
    (hd.takeBackCounted hx hptr) (.thread i) (candidate_of_takeBack hd hx hptr)
  have hsb := (MyMalloc.mem_liveIn.mp hptr).2
  refine ⟨y, place, _, hy, hplace, (heapFree_eq hR hd hx hsb).trans
    (heapFreeFrom_eq_moved hfree hcounted (by rw [hR₂.core]; exact hempty) hmove), ?_,
    hR₃.represents.setCore _⟩
  show s₃.toCore.decAlloced (.thread i) superblockSize = _
  rw [hR₃.core]
  rfl

/-- `heap_free` that moves no superblock. -/
theorem heapFree_kept (hR : Refines s d) (hd : d.Inv) {i e x ptr : ℕ}
    (hx : x ∈ d.lists (.bin (.thread i, b) e)) (hptr : ptr ∈ liveIn d.live x)
    (hkept : isEmptyEnough ((d.takeBackCounted (.thread i) b e x ptr).core.usage
      (.thread i)) = false) :
    ∃ s', s.heapFree ptr = some s' ∧ Refines s' (d.takeBackCounted (.thread i) b e x ptr) := by
  obtain ⟨s₁, s₂, hfree, hcounted, hR₂⟩ := binFree_counted hR hd hx hptr
  have hsb := (MyMalloc.mem_liveIn.mp hptr).2
  exact ⟨s₂, (heapFree_eq hR hd hx hsb).trans
    (heapFreeFrom_eq_kept hfree hcounted (by rw [hR₂.core]; exact hkept)), hR₂⟩

end State

/-! ### The simulation -/

namespace World

variable {w : World} {d : Depot}

/-- **The depot models the world**: the same data and live blocks, the lists that
the pointers lay out, and nothing in transit. -/
structure Models (w : World) (d : Depot) : Prop where
  refines : Refines w.state d
  live : d.live = w.live
  transit : d.transit = []

/-- The source an event uses, if it is an allocation. -/
def source (w : World) : Op → Source
  | .alloc i size _ => w.state.source (.thread i) (binOf size)
  | _ => .new

/-- **No superblock comes from the recycle list of the global heap to another
class than its own.** -/
def Matching (w : World) : Op → Prop
  | .alloc i size _ => w.state.Matching (.thread i) (binOf size)
  | _ => True

instance (w : World) : DecidablePred w.Matching
  | .alloc i size _ => inferInstanceAs (Decidable (w.state.Matching (.thread i) (binOf size)))
  | .free _ | .write .. => isTrue trivial

theorem step_alloc_some {i size p : ℕ} {mmap : Option ℕ} {s : State}
    (h : w.state.heapAlloc (.thread i) size mmap = some (some p, s)) :
    w.step (.alloc i size mmap) = some ⟨s, (p, size) :: w.live⟩ := by
  rw [step, h]
  rfl

theorem step_alloc_none {i size : ℕ} {mmap : Option ℕ} {s : State}
    (h : w.state.heapAlloc (.thread i) size mmap = some (none, s)) :
    w.step (.alloc i size mmap) = some ⟨s, w.live⟩ := by
  rw [step, h]
  rfl

theorem step_free {ptr : ℕ} {s : State} (h : w.state.heapFree ptr = some s) :
    w.step (.free ptr) = some ⟨s, w.live.filter fun b => b.1 ≠ ptr⟩ := by
  rw [step, h]
  rfl

/-- A complete `heap_alloc` is a step of the depot. -/
theorem simulates_alloc (hM : w.Models d) (hd : d.Inv) {i size : ℕ} {mmap : Option ℕ}
    (hlegal : w.Legal (.alloc i size mmap)) (hmatch : w.Matching (.alloc i size mmap)) :
    ∃ w' d', w.step (.alloc i size mmap) = some w' ∧
      d.Step (w.source (.alloc i size mmap)) (.alloc i size mmap) d' ∧ w'.Models d' := by
  obtain ⟨hR, hlive, htransit⟩ := hM
  obtain ⟨-, hsize, hmmap⟩ := hlegal
  have hmapped : w.state.mapped = d.core.mapped := by rw [hR.core]
  rw [hmapped] at hmmap
  rcases State.binAlloc_spec hR hd (binOf_lt hsize) hmmap hmatch (le_idx2class_binOf hsize) with
    ⟨x, d₁, p, header, s₁, hoffers, hacquires, hserves, halloc, hR₁⟩ | ⟨hsrc, rfl, halloc⟩
  · refine ⟨_, _, step_alloc_some (State.heapAlloc_eq hsize halloc),
      .served hsize hoffers hacquires hserves, ⟨?_, hR₁.represents.setCore _⟩, ?_, ?_⟩
    · rw [hR₁.core]
      rfl
    · show (p, size) :: d₁.live = _
      rw [hacquires.live, hlive]
    · show d₁.transit.erase x = []
      rw [hacquires.transit, htransit, List.erase_cons_head]
  · refine ⟨_, d.setCore (d.core.incUsage (.thread i) (idx2class (binOf size))),
      step_alloc_none (State.heapAlloc_eq hsize halloc), ?_, ⟨?_, hR.represents.setCore _⟩, hlive,
      htransit⟩
    · rw [show w.source (.alloc i size none) = .new from hsrc]
      exact .failed
    · rw [hR.core]
      rfl

/-- A complete `heap_free` is a step of the depot. -/
theorem simulates_free (hM : w.Models d) (hd : d.Inv) {ptr : ℕ} (hlegal : w.Legal (.free ptr)) :
    ∃ w' d', w.step (.free ptr) = some w' ∧ d.Step (w.source (.free ptr)) (.free ptr) d' ∧
      w'.Models d' := by
  obtain ⟨hR, hlive, htransit⟩ := hM
  obtain ⟨b, hb, rfl⟩ := hlegal
  rw [← hlive] at hb
  have hptr : b.1 ∈ liveIn d.live (superblockOf b.1) := Inv.mem_liveIn hb
  have hcovered := hd.covered _ (hd.live_known b hb).1 (List.ne_nil_of_mem hptr)
  rw [htransit] at hcovered
  obtain ⟨⟨heap, binIdx⟩, e, hx⟩ := hcovered.resolve_left List.not_mem_nil
  have hlive' : ∀ {bm}, (d.takeBack bm e (superblockOf b.1) b.1).live =
      w.live.filter fun b' => b'.1 ≠ b.1 := by
    rw [← hlive]
    exact rfl
  cases heap with
  | global =>
    obtain ⟨s', heq, hR'⟩ := State.heapFree_global hR hd hx hptr
    exact ⟨_, _, step_free heq, .freedGlobal hx hptr, hR', hlive',
      (takeBack_transit ..).trans htransit⟩
  | thread i =>
    have htransit' :=
      (takeBack_transit d (.thread i, binIdx) e (superblockOf b.1) b.1).trans htransit
    cases hempty : isEmptyEnough ((d.takeBackCounted (.thread i) binIdx e (superblockOf b.1)
      b.1).core.usage (.thread i)) with
    | false =>
      obtain ⟨s', heq, hR'⟩ := State.heapFree_kept hR hd hx hptr hempty
      exact ⟨_, _, step_free heq, .freed hx hptr hempty, hR', hlive', htransit'⟩
    | true =>
      obtain ⟨y, place, s', hy, hplace, heq, hR'⟩ := State.heapFree_moved hR hd hx hptr hempty
      exact ⟨_, _, step_free heq, .moved hx hptr hempty hy hplace.recycle, hR', hlive',
        (transfer_transit _ (.thread i) place y).trans htransit'⟩

/-- **The allocator simulates the depot.** -/
theorem simulates (hM : w.Models d) (hd : d.Inv) {op : Op} (hlegal : w.Legal op)
    (hmatch : w.Matching op) :
    ∃ w' d', w.step op = some w' ∧ d.Step (w.source op) op d' ∧ w'.Models d' := by
  cases op with
  | alloc i size mmap => exact simulates_alloc hM hd hlegal hmatch
  | free ptr => exact simulates_free hM hd hlegal
  | write ptr off bytes =>
    obtain ⟨hR, hlive, htransit⟩ := hM
    obtain ⟨b, hb, rfl, hlen⟩ := hlegal
    have hcore : w.state.toCore = d.core := hR.core
    refine ⟨_, _, rfl, .wrote (hlive ▸ hb) hlen, ⟨?_, hR.represents.setCore _⟩, hlive, htransit⟩
    rw [hcore]
    rfl

/-- The world a program starts in is modelled by the empty depot. -/
theorem models_initial : initial.Models ⟨{}, fun _ => [], [], []⟩ :=
  ⟨⟨rfl, represents_initial⟩, rfl, rfl⟩

end World

/-- The empty depot. -/
theorem Depot.inv_initial : Depot.Inv ⟨{}, fun _ => [], [], []⟩ where
  distinct := ⟨fun _ => List.nodup_nil, fun _ _ _ h => absurd h List.not_mem_nil⟩
  transit_nodup := List.nodup_nil
  transit_nowhere _ h := absurd h List.not_mem_nil
  transit_known _ h := absurd h List.not_mem_nil
  lists_known _ _ h := absurd h List.not_mem_nil
  superblocks_nodup := List.nodup_nil
  placed _ h := absurd h List.not_mem_nil
  carved _ h := absurd h List.not_mem_nil
  fits _ _ h := absurd h List.not_mem_nil
  live_known _ h := absurd h List.not_mem_nil
  covered _ h := absurd h List.not_mem_nil

namespace World

/-- **The rule of sequential runs**: a property of the depot that holds at first
and that every step keeps – under a condition on the world before it, from which
the match of the classes follows – holds after every run whose steps meet the
condition, and such a run meets no fault. -/
theorem run_induction {P : Depot → Prop} {C : World → Op → Prop}
    (hC : ∀ w op, C w op → w.Matching op)
    (hinit : P ⟨{}, fun _ => [], [], []⟩)
    (hstep : ∀ w d d' op, w.Models d → d.Inv → P d → w.Legal op → C w op →
      d.Step (w.source op) op d' → P d') {ops : List Op}
    (hops : Trace.Always World.step (fun w op => w.Legal op ∧ C w op) initial ops) :
    ∃ w d, Trace.run World.step initial ops = some w ∧ w.Models d ∧ d.Inv ∧ P d := by
  have hrule : ∀ w op, (∃ d, w.Models d ∧ d.Inv ∧ P d) → w.Legal op ∧ C w op →
      ∃ w', w.step op = some w' ∧ ∃ d, w'.Models d ∧ d.Inv ∧ P d := by
    rintro w op ⟨d, hM, hd, hP⟩ ⟨hlegal, hc⟩
    obtain ⟨w', d', hw', hstep', hM'⟩ := simulates hM hd hlegal (hC w op hc)
    exact ⟨w', hw', d', hM', hstep'.inv hd, hstep w d d' op hM hd hP hlegal hc hstep'⟩
  obtain ⟨w, hrun, d, hM, hd, hP⟩ := Trace.run_of_always hrule
    ⟨_, models_initial, Depot.inv_initial, hinit⟩ hops
  exact ⟨w, d, hrun, hM, hd, hP⟩

end World

end MyMalloc
