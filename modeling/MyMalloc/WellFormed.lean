import MyMalloc.Effects
import MyMalloc.Accounting

/-!
# Well-formed states

The results so far are about the states that runs reach. The ones that follow are
about single calls, from any state that is put together as it should be
(`MyMalloc.World.WellFormed`), and about exactly what the call changes.

The first of them is about `heap_free` (`MyMalloc.heapFree_effect`). One call may file
a superblock again, recycle it, and move it or another one to the global heap; it
frees the one block, loses nothing, and changes the owner of one superblock at most.
-/

namespace MyMalloc

open LinkedList Placement AddressSpace Depot

/-- **A well-formed state**, with the blocks that are live in it: the pointers lay out
lists in which no superblock stands twice, every superblock is on the list its
header names, the recycle lists hold empty superblocks, those with live blocks are in
bins, and the header of each agrees with its live blocks. -/
def World.WellFormed (w : World) : Prop :=
  ∃ lists, Represents w.state lists ∧ Depot.Inv ⟨w.state.toCore, lists, [], w.live⟩

theorem World.wellFormed_iff {w : World} : w.WellFormed ↔ ∃ d, w.Models d ∧ d.Inv := by
  constructor
  · rintro ⟨lists, hrep, hd⟩
    exact ⟨_, ⟨⟨rfl, hrep⟩, rfl, rfl⟩, hd⟩
  · rintro ⟨d, ⟨⟨hcore, hrep⟩, hlive, htransit⟩, hd⟩
    refine ⟨d.lists, hrep, ?_⟩
    rw [hcore, ← hlive, ← htransit]
    exact hd

/-- A superblock is linked in one of the lists that the pointers lay out. -/
def State.Linked (s : State) (x : ℕ) : Prop :=
  ∃ lists, Represents s lists ∧ Distinct lists ∧ ∃ p, x ∈ lists p

theorem Depot.Refines.linked_iff {s : State} {d : Depot} (hR : Refines s d) (hd : d.Inv) (x : ℕ) :
    s.Linked x ↔ ∃ p, x ∈ d.lists p := by
  constructor
  · rintro ⟨lists, hrep, hD, p, hx⟩
    rw [hrep.unique hR.represents hD hd.distinct] at hx
    exact ⟨p, hx⟩
  · rintro ⟨p, hx⟩
    exact ⟨d.lists, hR.represents, hd.distinct, p, hx⟩

/-! ### Owners -/

/-- The heap a list belongs to. -/
def Place.heap : Place → HeapId
  | .bin bm _ => bm.1
  | .recycle heap => heap

/-- A superblock that a heap owns. -/
def Core.Owns (c : Core) (heap : HeapId) (x : ℕ) : Prop :=
  x ∈ c.superblocks ∧ (c.header x).owner = some heap

instance (c : Core) (heap : HeapId) : DecidablePred (c.Owns heap) :=
  fun _ => inferInstanceAs (Decidable (_ ∧ _))

theorem State.placeIn_heap (heap : HeapId) (place : Option (ℕ × ℕ)) :
    (placeIn heap place).heap = heap := by
  cases place <;> rfl

/-- A superblock on a list is owned by the heap the list belongs to. -/
theorem Depot.Inv.owns {d : Depot} (hd : d.Inv) {x : ℕ} {p : Place} (hx : x ∈ d.lists p) :
    d.core.Owns p.heap x := by
  refine ⟨hd.lists_known p x hx, ?_⟩
  cases p with
  | bin bm e => exact (hd.fits _ x hx).1
  | recycle heap => exact (hd.fits _ x hx).1

/-! ### What `heap_free` changes -/

/-- **No superblock leaves** a heap, or one does and goes to the global heap; the heap
is then no global one, and its `alloced` does not wrap. -/
def Core.GivesAway (c : Core) (heap : HeapId) (c' : Core) : Prop :=
  ((∀ x, (c'.header x).owner = (c.header x).owner) ∧
    ∀ h, (c'.usage h).alloced = (c.usage h).alloced) ∨
  ∃ y, heap ≠ .global ∧ (c.header y).owner = some heap ∧ (c'.header y).owner = some .global ∧
    (∀ x, x ≠ y → (c'.header x).owner = (c.header x).owner) ∧
    superblockSize ≤ (c.usage heap).alloced ∧
    (c'.usage heap).alloced = (c.usage heap).alloced - superblockSize ∧
    ∀ h, h ≠ heap → (c'.usage h).alloced = (c.usage h).alloced

/-- **The effect of `heap_free`** on a live block in a superblock of a heap. -/
structure World.Freed (w : World) (heap : HeapId) (ptr : ℕ) (s' : State) : Prop where
  wellFormed : World.WellFormed ⟨s', w.live.filter fun b => b.1 ≠ ptr⟩
  /-- The block is free: it is the head of the free list of its superblock. -/
  free : (s'.header (superblockOf ptr)).freeList = some ptr
  superblocks : s'.superblocks = w.state.superblocks
  blockSize : ∀ x, (s'.header x).blockSize = (w.state.header x).blockSize
  /-- The bytes of the other live blocks stay. -/
  mem : ∀ a, a < ptr ∨ ptr + 8 ≤ a → s'.mem a = w.state.mem a
  linked : ∀ x, s'.Linked x ↔ w.state.Linked x
  moved : w.state.toCore.GivesAway heap s'.toCore
  /-- The block is taken from the account of the heap, if that is no global one. -/
  inUse : ∀ h, (s'.usage h).inUse = if h = heap ∧ h ≠ .global then
    sub64 (w.state.usage h).inUse (w.state.header (superblockOf ptr)).blockSize
    else (w.state.usage h).inUse

namespace Core

/-- A new owner changes no free list. -/
theorem setOwner_freeList (c : Core) (x : ℕ) (heap : HeapId) (y : ℕ) :
    ((c.setOwner x heap).header y).freeList = (c.header y).freeList := by
  by_cases hyx : y = x
  · subst hyx
    simp only [setOwner, setHeader, Function.update_self]
  · simp only [setOwner, setHeader, Function.update_of_ne hyx]

end Core

namespace Depot

variable {d d' : Depot} {heap : HeapId} {x : ℕ}

/-- Taking a block back leaves the carving of all superblocks alone. -/
theorem Inv.takeBack_same (hd : d.Inv) {bm : BinPtr} {e ptr : ℕ}
    (hx : x ∈ d.lists (.bin bm e)) (hptr : ptr ∈ liveIn d.live x) (y : ℕ) :
    SameCarving (d.core.header y) ((d.takeBack bm e x ptr).core.header y) := by
  by_cases hyx : y = x
  · subst hyx
    exact ((hd.take hx).release (List.mem_cons_self ..) hptr).2.1
  · rw [takeBack_header_of_ne hyx]
    exact ⟨rfl, rfl, rfl, rfl⟩

/-- The block that is taken back is the head of the free list. -/
theorem Inv.takeBack_freeList (hd : d.Inv) {bm : BinPtr} {e ptr : ℕ}
    (hx : x ∈ d.lists (.bin bm e)) (hptr : ptr ∈ liveIn d.live x) :
    ((d.takeBack bm e x ptr).core.header x).freeList = some ptr := by
  have hsb := hd.lists_known _ x hx
  obtain ⟨free, hs⟩ := (hd.carved x hsb).sound
  obtain ⟨-, -, hdvd⟩ := hs.mem_buffer (hd.isSuperblock hsb) (List.mem_append_left free hptr)
  have hmask : ¬(ptr &&& (minBlockSize - 1) ≠ 0) := not_not.mpr (and_minBlockSize_eq_zero.mpr hdvd)
  have hself : (d.takeBack bm e x ptr).core.header x =
      { d.core.header x with
        freeList := some ptr
        numFreeBlocks := add32 (d.core.header x).numFreeBlocks 1 } := by
    show (d.core.superblockFree x ptr).header x = _
    rw [Core.superblockFree, superblockFree, if_neg hmask]
    exact Function.update_self ..
  rw [hself]

/-- A heap that is empty enough has superblocks to give away. -/
theorem alloced_of_isEmptyEnough {usage : Usage} (h : isEmptyEnough usage = true) :
    superblockSize ≤ usage.alloced := by
  obtain ⟨hfew, hfraction⟩ := Bool.and_eq_true_iff.mp h
  have hfew := of_decide_eq_true hfew
  have hfraction := of_decide_eq_true hfraction
  rw [freeSbThresh_eq, superblockSize_eq] at hfew
  rw [superblockSize_eq]
  by_contra hc
  rw [add64_eq (by omega)] at hfew
  omega

/-- Superblocks and accounts that have not changed otherwise. -/
theorem GivesAway.congr {c c₁ c' : Core} (h : c₁.GivesAway heap c')
    (howner : ∀ x, (c₁.header x).owner = (c.header x).owner)
    (halloced : ∀ h, (c₁.usage h).alloced = (c.usage h).alloced) : c.GivesAway heap c' := by
  simpa only [Core.GivesAway, howner, halloced] using h

/-- **A superblock moves to the global heap.** -/
theorem Inv.transferCounted_givesAway (hd : d.Inv) {i y : ℕ} {place : Option (ℕ × ℕ)}
    (hsize : (d.core.usage (.thread i)).alloced < 2 ^ 64)
    (hempty : isEmptyEnough (d.core.usage (.thread i)) = true)
    (hy : y ∈ d.lists (State.placeIn (.thread i) place)) :
    d.core.GivesAway (.thread i) (d.transferCounted (.thread i) place y).core := by
  have hle := alloced_of_isEmptyEnough hempty
  have hself : (d.transferCounted (.thread i) place y).core.header y =
      { d.core.header y with owner := some .global } := Function.update_self ..
  have howns := hd.owns hy
  rw [State.placeIn_heap] at howns
  refine Or.inr ⟨y, HeapId.noConfusion, howns.2, by rw [hself], fun z hz => ?_, hle, ?_,
    fun h hh => ?_⟩
  · exact congrArg SuperblockHeader.owner (Function.update_of_ne hz ..)
  · exact Core.decAlloced_alloced hle hsize
  · exact congrArg Usage.alloced (Core.decAlloced_usage_of_ne hh)

/-- **What a deallocation does to the owners** and to `alloced`. -/
theorem Step.givesAway (hd : d.Inv) {src : Source} {ptr : ℕ}
    (hsize : (d.core.usage heap).alloced < 2 ^ 64) (h : d.Step src (.free ptr) d')
    (howner : (d.core.header (superblockOf ptr)).owner = some heap) :
    d.core.GivesAway heap d'.core := by
  cases h with
  | freedGlobal hx hptr => exact Or.inl ⟨fun y => (hd.takeBack_same hx hptr y).owner, fun _ => rfl⟩
  | freed hx hptr =>
    exact Or.inl ⟨fun y => (hd.takeBack_same hx hptr y).owner, fun h => Core.decUsage_alloced⟩
  | moved hx hptr hempty hy =>
    obtain ⟨-, rfl⟩ := MyMalloc.mem_liveIn.mp hptr
    obtain rfl := Option.some.inj (howner.symm.trans (hd.fits _ _ hx).1)
    refine GivesAway.congr ((hd.takeBackCounted hx hptr).transferCounted_givesAway ?_ hempty hy)
      (fun y => (hd.takeBack_same hx hptr y).owner) fun h => Core.decUsage_alloced
    exact lt_of_eq_of_lt Core.decUsage_alloced hsize

/-- **What a deallocation does to `in_use`.** -/
theorem Step.inUse_of_free (hd : d.Inv) {src : Source} {ptr : ℕ} (h : d.Step src (.free ptr) d')
    (howner : (d.core.header (superblockOf ptr)).owner = some heap) (h' : HeapId) :
    (d'.core.usage h').inUse = if h' = heap ∧ h' ≠ .global then
      sub64 (d.core.usage h').inUse (d.core.header (superblockOf ptr)).blockSize
      else (d.core.usage h').inUse := by
  have hcounted : ∀ {i binIdx e x}, x ∈ d.lists (.bin (.thread i, binIdx) e) →
      ptr ∈ liveIn d.live x →
      ((d.takeBackCounted (.thread i) binIdx e x ptr).core.usage h').inUse =
        if h' = heap ∧ h' ≠ .global then
          sub64 (d.core.usage h').inUse (d.core.header (superblockOf ptr)).blockSize
        else (d.core.usage h').inUse := by
    intro i binIdx e x hx hptr
    obtain ⟨-, rfl⟩ := MyMalloc.mem_liveIn.mp hptr
    obtain ⟨hown, -, hclass, -⟩ := hd.fits _ _ hx
    obtain rfl := Option.some.inj (howner.symm.trans hown)
    rw [hclass]
    by_cases hh : h' = .thread i
    · subst hh
      rw [if_pos ⟨rfl, HeapId.noConfusion⟩]
      exact Core.decUsage_inUse_self
    · rw [if_neg fun hc => hh hc.1]
      exact congrArg Usage.inUse (Core.decUsage_usage_of_ne hh)
  cases h with
  | freedGlobal hx hptr =>
    obtain ⟨-, rfl⟩ := MyMalloc.mem_liveIn.mp hptr
    obtain rfl := Option.some.inj (howner.symm.trans (hd.fits _ _ hx).1)
    rw [if_neg fun hc => hc.2 hc.1]
    rfl
  | freed hx hptr => exact hcounted hx hptr
  | moved hx hptr => exact Core.decAlloced_inUse.trans (hcounted hx hptr)

/-- Whatever is on a list is on a list after a block is taken back. -/
theorem Inv.exists_mem_takeBack (hd : d.Inv) {bm : BinPtr} {e ptr : ℕ}
    (hx : x ∈ d.lists (.bin bm e)) (y : ℕ) :
    (∃ p, y ∈ (d.takeBack bm e x ptr).lists p) ↔ ∃ p, y ∈ d.lists p :=
  exists_mem_push_take hd.distinct hx

/-- **Nothing is lost** when a block is freed. -/
theorem Step.exists_mem_of_free (hd : d.Inv) {src : Source} {ptr : ℕ}
    (h : d.Step src (.free ptr) d') (y : ℕ) : (∃ p, y ∈ d'.lists p) ↔ ∃ p, y ∈ d.lists p := by
  cases h with
  | freedGlobal hx hptr => exact hd.exists_mem_takeBack hx y
  | freed hx hptr => exact hd.exists_mem_takeBack hx y
  | moved hx hptr hempty hz =>
    exact (exists_mem_push_take (hd.takeBackCounted hx hptr).distinct hz).trans
      (hd.exists_mem_takeBack hx y)

/-- The block that is freed is the head of the free list. -/
theorem Step.freeList (hd : d.Inv) {src : Source} {ptr : ℕ} (h : d.Step src (.free ptr) d') :
    (d'.core.header (superblockOf ptr)).freeList = some ptr := by
  cases h with
  | freedGlobal hx hptr =>
    obtain ⟨-, rfl⟩ := MyMalloc.mem_liveIn.mp hptr
    exact hd.takeBack_freeList hx hptr
  | freed hx hptr =>
    obtain ⟨-, rfl⟩ := MyMalloc.mem_liveIn.mp hptr
    exact hd.takeBack_freeList hx hptr
  | moved hx hptr hempty hz =>
    obtain ⟨-, rfl⟩ := MyMalloc.mem_liveIn.mp hptr
    refine Eq.trans ?_ (hd.takeBack_freeList hx hptr)
    exact Core.setOwner_freeList _ _ .global _

end Depot

/-- **The states that runs reach are well formed**, if no superblock comes from the
recycle list of the global heap to another class than its own. -/
theorem World.wellFormed_of_run {ops : List Op} {w : World}
    (hops : Trace.Always World.step (fun w op => w.Legal op ∧ w.Matching op) World.initial ops)
    (hrun : Trace.run World.step World.initial ops = some w) : w.WellFormed := by
  obtain ⟨w', d, hrun', hM, hd, -⟩ := World.run_induction (P := fun _ => True) (fun _ _ h => h)
    trivial (fun _ _ _ _ _ _ _ _ _ _ => trivial) hops
  obtain rfl := Option.some.inj (hrun.symm.trans hrun')
  exact World.wellFormed_iff.mpr ⟨d, hM, hd⟩

/-- **`heap_free`** of a live block, from any well-formed state: what it changes. -/
theorem heapFree_effect {w : World} (hw : w.WellFormed) {ptr : ℕ} (hptr : ∃ b ∈ w.live, b.1 = ptr)
    {heap : HeapId} (howner : (w.state.header (superblockOf ptr)).owner = some heap)
    (hsize : (w.state.usage heap).alloced < 2 ^ 64) :
    ∃ s', w.state.heapFree ptr = some s' ∧ w.Freed heap ptr s' := by
  obtain ⟨d, hM, hd⟩ := World.wellFormed_iff.mp hw
  obtain ⟨w', d', hw', hstep, hM'⟩ := World.simulates_free hM hd hptr
  obtain ⟨s', hfree, hw'⟩ := Option.bind_eq_some_iff.mp hw'
  obtain rfl := Option.some.inj hw'
  have hcore : w.state.toCore = d.core := hM.refines.core
  have hcore' : s'.toCore = d'.core := hM'.refines.core
  have hd' := hstep.inv hd
  have hfrees := hstep.frees hd
  rw [hcore] at howner hsize
  refine ⟨s', hfree, ?_⟩
  exact {
    wellFormed := World.wellFormed_iff.mpr ⟨d', hM', hd'⟩
    free := by
      rw [hcore']
      exact hstep.freeList hd
    superblocks := by
      rw [hcore, hcore']
      exact hfrees.superblocks
    blockSize := by
      rw [hcore, hcore']
      exact hfrees.blockSize
    mem := by
      rw [hcore, hcore']
      exact fun a ha => hfrees.mem_of_not_mem ha
    linked := fun x =>
      (hM'.refines.linked_iff hd' x).trans ((hstep.exists_mem_of_free hd x).trans
        (hM.refines.linked_iff hd x).symm)
    moved := by
      rw [hcore, hcore']
      exact hstep.givesAway hd hsize howner
    inUse := by
      rw [hcore, hcore']
      exact hstep.inUse_of_free hd howner }

/-- The superblock of the block is emptied, recycled, and moves to the global heap. -/
theorem heapFree_effect_moved : ∃ w s', Trace.run World.step World.initial
    (fiveClasses.take 5) = some w ∧ w.state.heapFree 1048704 = some s' ∧
    w.Freed (.thread 0) 1048704 s' := by
  have hlast : (Trace.run World.step World.initial (fiveClasses.take 5)).map (fun w =>
      (decide (∃ b ∈ w.live, b.1 = 1048704), (w.state.header (superblockOf 1048704)).owner,
        (w.state.usage (.thread 0)).alloced)) = some (true, some (.thread 0), 1310720) := by
    decide +kernel
  obtain ⟨w, hrun, hw⟩ := Option.map_eq_some_iff.mp hlast
  obtain ⟨hlive, hrest⟩ := Prod.mk.inj hw
  obtain ⟨howner, halloced⟩ := Prod.mk.inj hrest
  obtain ⟨s', hfree, heffect⟩ := heapFree_effect
    (World.wellFormed_of_run (by decide +kernel) hrun) (of_decide_eq_true hlive) howner
    (by rw [halloced]; decide)
  exact ⟨w, s', hrun, hfree, heffect⟩

end MyMalloc
