import MyMalloc.Handling

/-!
# Allocation on the depot

The pieces of `bin_alloc`, each as what it does to the depot
(`MyMalloc.Depot.Refines`): where it finds a superblock, and how the superblock
it found hands out a block and is filed. A piece is stated for any depot that
keeps the invariant, whatever else is in transit, so that it serves a sequential
call as well as a step of an interleaved execution.
-/

namespace MyMalloc

open LinkedList Placement AddressSpace ByteMemory Depot

/-! ### Finding a superblock -/

namespace Represents

variable {s : State} {lists : Lists}

/-- **The search of a bin** finds a superblock that is not full, unless the bin
has none. -/
theorem firstNonempty (hR : Represents s lists) (bm : BinPtr) :
    (∃ e x, 0 < e ∧ e < numEmptinessClasses ∧ x ∈ lists (.bin bm e) ∧
      s.firstNonempty bm = some (e, x)) ∨
    nonfull lists bm = 0 ∧ s.firstNonempty bm = none := by
  cases hfound : s.firstNonempty bm with
  | some found =>
    obtain ⟨e, he, hhead⟩ := List.exists_of_findSome?_eq_some hfound
    rw [hR.head_bin, Option.map_eq_some_iff] at hhead
    obtain ⟨x, hx, rfl⟩ := hhead
    refine Or.inl ⟨e, x, ?_, ?_, List.mem_of_head? hx, rfl⟩
    · simp only [List.mem_cons, List.not_mem_nil, or_false] at he
      omega
    · simp only [List.mem_cons, List.not_mem_nil, or_false] at he
      rw [numEmptinessClasses_eq]
      omega
  | none =>
    have hnone := List.findSome?_eq_none_iff.mp hfound
    have hnil : ∀ e ∈ [1, 2, 3, 4], lists (.bin bm e) = [] := by
      intro e he
      have := hnone e he
      rwa [hR.head_bin, Option.map_eq_none_iff, List.head?_eq_none_iff] at this
    refine Or.inr ⟨?_, rfl⟩
    simp [nonfull, hnil 1, hnil 2, hnil 3, hnil 4]

/-- The head of a recycle list leads to the rest of it. -/
theorem next_recycled (hR : Represents s lists) {heap : HeapId} {x : ℕ} {l : List ℕ}
    (hl : lists (.recycle heap) = x :: l) : s.next x = l.head? := by
  have hchain := hR.chain heap
  rw [hl] at hchain
  exact hchain.2.head_eq

end Represents

namespace State

variable {s : State} {d : Depot}

/-- `size2idx` on a size the small allocator serves. -/
theorem size2idx_eq {size : ℕ} (h : size ≤ maxBlockSize) :
    s.size2idx size = some (binOf size, s) := by
  have hlt := binOf_lt h
  simp only [State.size2idx, MyMalloc.size2idx_eq, Option.bind_eq_bind, Option.bind_some, hlt,
    decide_true, assert_true]
  rfl

/-- **The search of a heap's own lists**, from the fullest class on and then the
recycle list, which is lost but for its head. -/
theorem binAllocLocal_spec (hR : Refines s d) (hd : d.Inv) (heap : HeapId) (bm : BinPtr)
    (sizeClass : ℕ) :
    (∃ e x, s.firstNonempty bm = some (e, x) ∧ 0 < e ∧ e < numEmptinessClasses ∧
      x ∈ d.lists (.bin bm e) ∧ s.binAllocLocal heap bm sizeClass = (some (x, true), s)) ∨
    (∃ x l s', s.firstNonempty bm = none ∧ d.lists (.recycle heap) = x :: l ∧
      s.binAllocLocal heap bm sizeClass = (some (x, false), s') ∧
      Refines s' (d.recycle heap x sizeClass)) ∨
    s.firstNonempty bm = none ∧ d.lists (.recycle heap) = [] ∧
      s.binAllocLocal heap bm sizeClass = (none, s) := by
  rcases hR.represents.firstNonempty bm with ⟨e, x, he, he', hx, hfound⟩ | ⟨-, hfound⟩
  · exact Or.inl ⟨e, x, hfound, he, he', hx, by rw [binAllocLocal, hfound]⟩
  refine Or.inr ?_
  have hhead := hR.represents.head_recycle heap
  cases hl : d.lists (.recycle heap) with
  | nil =>
    rw [hl, List.head?_nil] at hhead
    exact Or.inr ⟨hfound, rfl, by rw [binAllocLocal, hfound, hhead]⟩
  | cons x l =>
    rw [hl, List.head?_cons] at hhead
    refine Or.inl ⟨x, l, (s.resetSuperblock x sizeClass).setRecycled heap
      ((s.resetSuperblock x sizeClass).next x), hfound, rfl,
      by rw [binAllocLocal, hfound, hhead], ?_, ?_⟩
    · simp only [Depot.recycle, Depot.reset, Depot.forget, Depot.take, Depot.setCore, ← hR.core]
      rfl
    · have hdrop := hR.represents.dropRecycled hd.distinct sizeClass hl
      simpa [Depot.recycle, Depot.reset, Depot.forget, Depot.take, Depot.setCore,
        Placement.take] using hdrop


/-- `get_sb_from_global` once its bin is known to have a superblock. -/
theorem getSbFromGlobal_eq_bin {s s₁ : State} {sizeClass b e x : ℕ}
    (hidx : s.size2idx sizeClass = some (b, s))
    (hcount : 0 < (s.sizeBins (.global, b)).numNonfullSuperblocks)
    (hfound : s.firstNonempty (.global, b) = some (e, x))
    (hdel : s.deleteFromBin (.global, b) e x = some s₁) :
    s.getSbFromGlobal sizeClass = some (some x, s₁) := by
  simp only [getSbFromGlobal, hidx, Option.bind_eq_bind, Option.bind_some, hcount, if_true, hfound,
    Option.isSome_some, assert_true, hdel]
  rfl

/-- **`get_sb_from_global`** takes a superblock out of the bin of the class, or
else the head of the recycle list, whatever class that was carved for. -/
theorem getSbFromGlobal_spec (hR : Refines s d) (hd : d.Inv) {b : ℕ} (hb : b < numSizeBins) :
    (∃ e x s', 0 < nonfull d.lists (.global, b) ∧ s.firstNonempty (.global, b) = some (e, x) ∧
      0 < e ∧ e < numEmptinessClasses ∧ x ∈ d.lists (.bin (.global, b) e) ∧
      s.getSbFromGlobal (idx2class b) = some (some x, s') ∧
      Refines s' (d.take (.bin (.global, b) e) x)) ∨
    (∃ x l s', nonfull d.lists (.global, b) = 0 ∧ d.lists (.recycle .global) = x :: l ∧
      s.getSbFromGlobal (idx2class b) = some (some x, s') ∧ Refines s' (d.popGlobal x)) ∨
    nonfull d.lists (.global, b) = 0 ∧ d.lists (.recycle .global) = [] ∧
      s.getSbFromGlobal (idx2class b) = some (none, s) := by
  have hidx : s.size2idx (idx2class b) = some (b, s) := by
    rw [size2idx_eq (idx2class_le hb), binOf_idx2class hb]
  have hcount := hR.represents.count (.global, b)
  rcases hR.represents.firstNonempty (.global, b) with ⟨e, x, he, he', hx, hfound⟩ | ⟨hnone, -⟩
  · obtain ⟨s', hdel, hcore, hrep⟩ :=
      hR.represents.deleteFromBin hd.distinct hd.inUserSpace he' hx
    have hpos := nonfull_pos he' he hx
    exact Or.inl ⟨e, x, s', hpos, hfound, he, he', hx,
      getSbFromGlobal_eq_bin hidx (by omega) hfound hdel,
      hcore.trans hR.core, hrep⟩
  refine Or.inr ?_
  have hzero : ¬0 < (s.sizeBins (.global, b)).numNonfullSuperblocks := by omega
  have hhead := hR.represents.head_recycle .global
  cases hl : d.lists (.recycle .global) with
  | nil =>
    rw [hl, List.head?_nil] at hhead
    refine Or.inr ⟨hnone, rfl, ?_⟩
    simp only [getSbFromGlobal, hidx, Option.bind_eq_bind, Option.bind_some, hzero, if_false, hhead]
    rfl
  | cons x l =>
    rw [hl, List.head?_cons] at hhead
    have hnext := hR.represents.next_recycled hl
    refine Or.inl ⟨x, l, (s.assert (s.next x).isSome .globalRecycleNext).setRecycled .global
      (s.next x), hnone, rfl, ?_, ?_, ?_⟩
    · simp only [getSbFromGlobal, hidx, Option.bind_eq_bind, Option.bind_some, hzero, if_false,
        hhead]
      rfl
    · have hcond : (s.next x).isSome = decide (1 < (d.lists (.recycle .global)).length) := by
        rw [hnext, hl]
        cases l <;> simp
      simp only [Depot.popGlobal, Depot.take, Depot.setCore, ← hcond, ← hR.core]
      rfl
    · have hpop : Represents ((s.assert (s.next x).isSome .globalRecycleNext).setRecycled .global
          (s.next x)) (Function.update d.lists (.recycle .global) l) :=
        (hR.represents.popRecycled hd.distinct hl).setCore _
      simpa [Depot.popGlobal, Depot.take, Depot.setCore, Placement.take, hl] using hpop

/-- **`init_superblock`** maps a superblock and carves it. -/
theorem initSuperblock_spec (hR : Refines s d) (hd : d.Inv) {ptr b : ℕ}
    (hptr : MapsFresh d.core.mapped ptr (2 * superblockSize)) (hb : b < numSizeBins) :
    ∃ x c s', d.core.allocateNewSuperblock (some ptr) = (some x, c) ∧
      s.initSuperblock (some ptr) (idx2class b) = (some x, s') ∧
      Refines s' (d.fresh x (idx2class b) c) := by
  obtain ⟨x, mapped, hspec, -⟩ := d.core.allocateNewSuperblock_spec hptr
  have hnowhere : Nowhere d.lists x :=
    (hd.fresh hptr hspec hb).transit_nowhere x (List.mem_cons_self ..)
  refine ⟨x, _, _, hspec, by rw [initSuperblock, hR.core, hspec], rfl, ?_⟩
  have hlinks : Represents ((s.setPrev x none).setNext x none) d.lists :=
    hR.represents.congr_links hnowhere (fun _ hu => Function.update_of_ne hu ..)
      (fun _ hu => Function.update_of_ne hu ..) rfl rfl
  exact hlinks.setCore _

/-- **`bin_alloc` without a superblock to offer** maps a new one. -/
theorem binAllocNew_spec (hR : Refines s d) (hd : d.Inv) (heap : HeapId) {ptr b : ℕ}
    (hptr : MapsFresh d.core.mapped ptr (2 * superblockSize)) (hb : b < numSizeBins) :
    ∃ x c s', d.core.allocateNewSuperblock (some ptr) = (some x, c) ∧
      s.binAllocNew heap (some ptr) (idx2class b) = (some x, s') ∧
      Refines s' (d.create heap x (idx2class b) c) := by
  obtain ⟨x, c, s₁, hc, hinit, hR₁⟩ := initSuperblock_spec hR hd hptr hb
  refine ⟨x, c, _, hc, by rw [binAllocNew, hinit], ?_, hR₁.represents.setCore _⟩
  show (s₁.toCore.setOwner x heap).incAlloced heap superblockSize = _
  rw [hR₁.core]
  rfl

/-! ### Handing out a block -/

/-- `bin_alloc` from a superblock that stays in its bin meanwhile. -/
theorem binAllocFrom_eq_update {s s' : State} {c : Core} {bm : BinPtr} {x e p : ℕ}
    (hget : s.getEidx x = some (e, s)) (halloc : s.toCore.superblockAlloc x = some (p, c))
    (hp : p ≠ 0) (hup : (s.setCore c).updateEmptinessClass bm e x = some s') :
    s.binAllocFrom bm x true = some (p, s') := by
  simp only [binAllocFrom, hget, halloc, Option.bind_eq_bind, Option.bind_some, hp, ne_eq,
    not_false_eq_true, decide_true, assert_true, if_true, hup]
  rfl

/-- `bin_alloc` from a superblock that is not in a bin yet. -/
theorem binAllocFrom_eq_push {s s' : State} {c : Core} {bm : BinPtr} {x e e' p : ℕ}
    (hget : s.getEidx x = some (e, s)) (halloc : s.toCore.superblockAlloc x = some (p, c))
    (hp : p ≠ 0) (hget' : (s.setCore c).getEidx x = some (e', s.setCore c))
    (hpush : (s.setCore c).pushIntoBin bm e' x = some s') :
    s.binAllocFrom bm x false = some (p, s') := by
  simp only [binAllocFrom, hget, halloc, Option.bind_eq_bind, Option.bind_some, hp, ne_eq,
    not_false_eq_true, decide_true, assert_true, Bool.false_eq_true, if_false, hget', hpush]
  rfl

end State

/-- **How a superblock hands out a block and is filed again**: `p` is the block,
`header` what the header of the superblock becomes. -/
structure Serves (d : Depot) (x p : ℕ) (header : SuperblockHeader) (size : ℕ) : Prop where
  superblockOf : superblockOf p = x
  notLive : p ∉ liveIn d.live x
  same : SameCarving (d.core.header x) header
  free : (d.core.header x).numFreeBlocks ≠ 0
  numFree : header.numFreeBlocks = (d.core.header x).numFreeBlocks - 1
  inv : (d.serve x p header size).Inv

/-- The superblock a block was handed out from can be filed by its new class. -/
theorem Serves.inv_put {d : Depot} {x p : ℕ} {header : SuperblockHeader} {size : ℕ}
    (h : Serves d x p header size) (bm : BinPtr) (hx : x ∈ d.transit)
    (hcarved : Carved (d.core.header x) d.core.mem (liveIn d.live x) x)
    (howner : (d.core.header x).owner = some bm.1) (hb : bm.2 < numSizeBins)
    (hclass : (d.core.header x).blockSize = idx2class bm.2) :
    ((d.serve x p header size).put (.bin bm (eidxOf header)) x).Inv := by
  have hself : (d.serve x p header size).core.header x = header := Function.update_self ..
  have hle := hcarved.counted.le
  have hfree := h.free
  refine h.inv.put hx ?_
  rw [hself]
  exact ⟨h.same.owner.trans howner, hb, h.same.blockSize.trans hclass, rfl, by
    rw [h.numFree, h.same.totalBlocks]
    omega⟩

/-- A superblock in transit with a free block serves a request of its class. -/
theorem Depot.Inv.serves {d : Depot} (hd : d.Inv) {x : ℕ} (hx : x ∈ d.transit)
    (hfree : (d.core.header x).numFreeBlocks ≠ 0) (size : ℕ)
    (hsize : size ≤ (d.core.header x).blockSize) :
    ∃ p header, d.core.superblockAlloc x = some (p, d.core.setHeader x header) ∧ p ≠ 0 ∧
      Serves d x p header size := by
  obtain ⟨p, header, halloc, hsb, hp, hnew, hsame, hnum, hinv⟩ := hd.serve hx hfree hsize
  exact ⟨p, header, halloc, hp, hsb, hnew, hsame, hfree, hnum, hinv⟩

/-- **`bin_alloc` from a superblock in transit** files it in the heap's bin, whatever
class it is carved for. -/
theorem State.binAllocFrom_held {s : State} {d : Depot} (hR : Refines s d) (hd : d.Inv)
    (bm : BinPtr) {x size : ℕ} (hx : x ∈ d.transit)
    (hfree : (d.core.header x).numFreeBlocks ≠ 0) (hsize : size ≤ (d.core.header x).blockSize) :
    ∃ p header s', s.binAllocFrom bm x false = some (p, s') ∧ Serves d x p header size ∧
      Refines s' ((d.serve x p header size).put (.bin bm (eidxOf header)) x) := by
  have hcarved := hd.carved x (hd.transit_known x hx)
  obtain ⟨p, header, halloc, hp, hserves⟩ := hd.serves hx hfree size hsize
  have hself : (s.setCore (d.core.setHeader x header)).header x = header := Function.update_self ..
  have hcounted : Counted ((s.setCore (d.core.setHeader x header)).header x) := by
    have hcarved' := hserves.inv.carved x (hserves.inv.transit_known x hx)
    exact hcarved'.counted
  obtain ⟨s', hpush, hcore, hrep⟩ := (hR.represents.setCore (d.core.setHeader x header)).pushIntoBin
    bm hd.distinct hd.inUserSpace hcounted.eidxOf_lt (hd.transit_nowhere x hx)
  have hget : s.getEidx x = some (eidxOf (s.header x), s) :=
    Counted.getEidx_eq (by rw [hR.core]; exact hcarved.counted)
  have halloc' : s.toCore.superblockAlloc x = some (p, d.core.setHeader x header) :=
    hR.core ▸ halloc
  refine ⟨p, header, s', State.binAllocFrom_eq_push hget halloc' hp hcounted.getEidx_eq hpush,
    hserves, hcore, ?_⟩
  rw [hself] at hrep
  exact hrep

/-- `bin_alloc` from a superblock in transit that is carved for the class. -/
theorem State.binAllocFrom_transit {s : State} {d : Depot} (hR : Refines s d) (hd : d.Inv)
    (bm : BinPtr) {x size : ℕ} (hx : x ∈ d.transit)
    (hfree : (d.core.header x).numFreeBlocks ≠ 0) (howner : (d.core.header x).owner = some bm.1)
    (hb : bm.2 < numSizeBins) (hclass : (d.core.header x).blockSize = idx2class bm.2)
    (hsize : size ≤ idx2class bm.2) :
    ∃ p header s', s.binAllocFrom bm x false = some (p, s') ∧ Serves d x p header size ∧
      Refines s' ((d.serve x p header size).put (.bin bm (eidxOf header)) x) ∧
      ((d.serve x p header size).put (.bin bm (eidxOf header)) x).Inv := by
  obtain ⟨p, header, s', hfrom, hserves, hR'⟩ :=
    binAllocFrom_held hR hd bm hx hfree (hclass ▸ hsize)
  exact ⟨p, header, s', hfrom, hserves, hR',
    hserves.inv_put bm hx (hd.carved x (hd.transit_known x hx)) howner hb hclass⟩

/-- A superblock filed in a class above 0 has a free block. -/
theorem Depot.Inv.free_of_bin {d : Depot} (hd : d.Inv) {bm : BinPtr} {x e : ℕ}
    (hx : x ∈ d.lists (.bin bm e)) (he : 0 < e) : (d.core.header x).numFreeBlocks ≠ 0 := by
  intro hfull
  have hcounted := (hd.carved x (hd.lists_known _ x hx)).counted
  have hclass := (hd.fits _ x hx).2.2.2.1
  rw [hcounted.eidxOf_full hfull] at hclass
  omega

/-- **`bin_alloc` from a superblock found in the heap's own bin** moves it to its
new class. -/
theorem State.binAllocFrom_bin {s : State} {d : Depot} (hR : Refines s d) (hd : d.Inv)
    {bm : BinPtr} {x e size : ℕ} (hx : x ∈ d.lists (.bin bm e)) (he : 0 < e)
    (he' : e < numEmptinessClasses) (hsize : size ≤ idx2class bm.2) :
    ∃ p header s', s.binAllocFrom bm x true = some (p, s') ∧
      Serves (d.take (.bin bm e) x) x p header size ∧
      Refines s' (((d.take (.bin bm e) x).serve x p header size).put
        (.bin bm (eidxOf header)) x) ∧
      (((d.take (.bin bm e) x).serve x p header size).put (.bin bm (eidxOf header)) x).Inv := by
  have hcarved := hd.carved x (hd.lists_known _ x hx)
  obtain ⟨howner, hb, hclass, heidx, -⟩ := hd.fits _ x hx
  have htransit : x ∈ (d.take (.bin bm e) x).transit := List.mem_cons_self ..
  obtain ⟨p, header, halloc, hp, hserves⟩ :=
    (hd.take hx).serves htransit (hd.free_of_bin hx he) size (hclass ▸ hsize)
  have hself : (s.setCore (d.core.setHeader x header)).header x = header := Function.update_self ..
  have hcounted : Counted ((s.setCore (d.core.setHeader x header)).header x) := by
    have hcarved' := hserves.inv.carved x (hserves.inv.transit_known x htransit)
    exact hcarved'.counted
  obtain ⟨s', hup, hcore, hrep⟩ := (hR.represents.setCore
    (d.core.setHeader x header)).updateEmptinessClass hd.distinct hd.inUserSpace he' hx hcounted
  have hget : s.getEidx x = some (e, s) := by
    rw [Counted.getEidx_eq (by rw [hR.core]; exact hcarved.counted), hR.core, heidx]
  have halloc' : s.toCore.superblockAlloc x = some (p, d.core.setHeader x header) :=
    hR.core ▸ halloc
  refine ⟨p, header, s', State.binAllocFrom_eq_update hget halloc' hp hup, hserves, ⟨hcore, ?_⟩,
    hserves.inv_put bm htransit hcarved howner hb hclass⟩
  rw [hself] at hrep
  exact hrep

end MyMalloc
