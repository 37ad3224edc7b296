import MyMalloc.WellFormed

/-!
# The emptiness invariant

A heap that has become empty enough gives a superblock away, at most one for each
block that is freed. One is enough (`MyMalloc.frees_keep_settled`): a heap that is not
empty enough when the first of any number of blocks is freed is not empty enough after
any of them. It rests on the largest block being smaller than three quarters of a
superblock.

Which superblock is given away is another matter. It is one of the emptiest, but not
always an empty one: the average that `is_empty_enough` takes counts the bytes of
whole superblocks, the class counts blocks, and what lies between the two is enough
for fifteen superblocks that are all less than a quarter empty
(`MyMalloc.nearly_full_moved`).
-/

namespace MyMalloc

open LinkedList Placement AddressSpace Depot

/-! ### What a heap owns -/

/-- How many superblocks a heap owns. -/
def Core.ownedBy (c : Core) (heap : HeapId) : ℕ :=
  c.superblocks.countP fun x => decide ((c.header x).owner = some heap)

/-- **A heap is settled**: `alloced` is the size of its superblocks, `in_use` lies
between what they have in use and that, and the heap is not empty enough. -/
structure Core.Settled (c : Core) (heap : HeapId) : Prop where
  alloced : (c.usage heap).alloced = superblockSize * c.ownedBy heap
  used : c.usedBy heap ≤ (c.usage heap).inUse
  le : (c.usage heap).inUse ≤ (c.usage heap).alloced
  kept : isEmptyEnough (c.usage heap) = false

instance (c : Core) (heap : HeapId) : Decidable (c.Settled heap) :=
  decidable_of_iff ((c.usage heap).alloced = superblockSize * c.ownedBy heap ∧
    c.usedBy heap ≤ (c.usage heap).inUse ∧ (c.usage heap).inUse ≤ (c.usage heap).alloced ∧
    isEmptyEnough (c.usage heap) = false)
    ⟨fun h => ⟨h.1, h.2.1, h.2.2.1, h.2.2.2⟩, fun h => ⟨h.alloced, h.used, h.le, h.kept⟩⟩

/-- A count over a list without repetitions, after one element has stopped to count. -/
theorem countP_of_eq_off {l : List ℕ} (hnd : l.Nodup) {x : ℕ} (hx : x ∈ l) {p q : ℕ → Bool}
    (h : ∀ y, y ≠ x → q y = p y) (hp : p x = true) (hq : q x = false) :
    l.countP q + 1 = l.countP p := by
  have hrest : (l.erase x).countP q = (l.erase x).countP p :=
    List.countP_congr fun y hy => by rw [h y (hnd.mem_erase_iff.mp hy).1]
  have hperm := List.perm_cons_erase hx
  rw [hperm.countP_eq p, hperm.countP_eq q, List.countP_cons_of_pos hp,
    List.countP_cons_of_neg (by simp [hq]), hrest]

namespace Core

variable {c c' : Core} {heap : HeapId} {x : ℕ}

/-- What a heap owns after a change that leaves the owners alone. -/
theorem ownedBy_congr (hsb : c'.superblocks = c.superblocks)
    (howner : ∀ x, (c'.header x).owner = (c.header x).owner) :
    c'.ownedBy heap = c.ownedBy heap := by
  simp only [ownedBy, hsb, howner]

end Core

/-- **What `is_empty_enough` asks**, as long as nothing overflows. -/
theorem isEmptyEnough_iff {usage : Usage} (h : usage.inUse < 2 ^ 48) :
    isEmptyEnough usage = true ↔
      usage.inUse + 1048576 < usage.alloced ∧ usage.inUse < 3 * usage.alloced / 4 := by
  rw [isEmptyEnough, freeSbThresh_eq, superblockSize_eq, add64_eq (by omega), Bool.and_eq_true_iff,
    decide_eq_true_iff, decide_eq_true_iff]

/-! ### Deallocation -/

namespace Depot

variable {d d' : Depot} {heap heap' : HeapId} {x y : ℕ}

/-- Taking a block back changes what one heap has in use. -/
theorem Inv.takeBack_usedBy (hd : d.Inv) {bm : BinPtr} {e ptr : ℕ} (hx : x ∈ d.lists (.bin bm e))
    (hptr : ptr ∈ liveIn d.live x) (heap : HeapId) :
    (d.takeBack bm e x ptr).core.usedBy heap =
      d.core.usedBy heap - if bm.1 = heap then ((d.core.header x).blockSize : ℤ) else 0 := by
  have howner := (hd.fits _ x hx).1
  have howner' := hd.takeBack_owner hx hptr
  have hused := hd.usedBytes_release hx hptr
  have hchange : (d.takeBack bm e x ptr).core.usedBy heap = d.core.usedBy heap -
      usedOf (d.core.header x) heap + usedOf ((d.takeBack bm e x ptr).core.header x) heap :=
    Core.usedBy_of_eq_off hd.superblocks_nodup (hd.lists_known _ x hx) rfl
      fun y hy => takeBack_header_of_ne hy
  rw [hchange]
  by_cases hbm : bm.1 = heap
  · subst hbm
    rw [if_pos rfl, usedOf_of_owner howner, usedOf_of_owner howner']
    omega
  · rw [if_neg hbm, usedOf_of_ne _ howner (Ne.symm hbm), usedOf_of_ne _ howner' (Ne.symm hbm)]
    ring

/-- Taking a block back changes no owner, and so no number of superblocks. -/
theorem Inv.takeBack_ownedBy (hd : d.Inv) {bm : BinPtr} {e ptr : ℕ} (hx : x ∈ d.lists (.bin bm e))
    (hptr : ptr ∈ liveIn d.live x) (heap : HeapId) :
    (d.takeBack bm e x ptr).core.ownedBy heap = d.core.ownedBy heap :=
  Core.ownedBy_congr rfl fun y => (hd.takeBack_same hx hptr y).owner

theorem transferCounted_header (place : Option (ℕ × ℕ)) :
    (d.transferCounted heap place y).core.header y =
      { d.core.header y with owner := some .global } := Function.update_self ..

theorem transferCounted_header_of_ne (place : Option (ℕ × ℕ)) (hxy : x ≠ y) :
    (d.transferCounted heap place y).core.header x = d.core.header x := Function.update_of_ne hxy ..

/-- A heap that gives a superblock away has no more in use than before. -/
theorem Inv.transfer_usedBy_le (hd : d.Inv) {place : Option (ℕ × ℕ)}
    (hy : y ∈ d.lists (State.placeIn heap place)) (hheap : heap' ≠ .global) :
    (d.transferCounted heap place y).core.usedBy heap' ≤ d.core.usedBy heap' := by
  have hsb := hd.lists_known _ y hy
  have hpos := (hd.usedOf_mem hsb heap').1
  have hused : (d.transferCounted heap place y).core.usedBy heap' = d.core.usedBy heap' -
      usedOf (d.core.header y) heap' +
      usedOf ((d.transferCounted heap place y).core.header y) heap' :=
    Core.usedBy_of_eq_off hd.superblocks_nodup hsb rfl
      fun z hz => transferCounted_header_of_ne place hz
  have hzero : usedOf ((d.transferCounted heap place y).core.header y) heap' = 0 := by
    rw [transferCounted_header]
    exact usedOf_of_ne .global rfl hheap
  omega

/-- It has one superblock less. -/
theorem Inv.transfer_ownedBy (hd : d.Inv) {place : Option (ℕ × ℕ)} (hheap : heap ≠ .global)
    (hy : y ∈ d.lists (State.placeIn heap place)) :
    (d.transferCounted heap place y).core.ownedBy heap + 1 = d.core.ownedBy heap := by
  obtain ⟨hsb, howner⟩ := hd.owns hy
  rw [State.placeIn_heap] at howner
  refine countP_of_eq_off hd.superblocks_nodup hsb (fun z hz => ?_) (decide_eq_true howner) ?_
  · rw [transferCounted_header_of_ne place hz]
  · rw [transferCounted_header]
    exact decide_eq_false fun hc => hheap (Option.some.inj hc).symm

/-- Another heap has as many as before. -/
theorem Inv.transfer_ownedBy_of_ne (hd : d.Inv) {place : Option (ℕ × ℕ)}
    (hy : y ∈ d.lists (State.placeIn heap place)) (hheap : heap' ≠ .global) (hne : heap' ≠ heap) :
    (d.transferCounted heap place y).core.ownedBy heap' = d.core.ownedBy heap' := by
  refine List.countP_congr fun z hz => ?_
  by_cases hzy : z = y
  · subst hzy
    have howner := (hd.owns hy).2
    rw [State.placeIn_heap] at howner
    rw [transferCounted_header, howner]
    simp [hheap.symm, hne.symm]
  · rw [transferCounted_header_of_ne place hzy]

end Depot

namespace Core.Settled

variable {c c' : Core} {d : Depot} {heap : HeapId} {i binIdx e x ptr : ℕ}

/-- **A heap stays settled** while its account and its superblocks stay as they are. -/
theorem congr (h : c.Settled heap) (husage : c'.usage heap = c.usage heap)
    (howned : c'.ownedBy heap = c.ownedBy heap) (hused : c'.usedBy heap ≤ c.usedBy heap) :
    c'.Settled heap where
  alloced := by
    rw [husage, howned]
    exact h.alloced
  used := by
    rw [husage]
    exact hused.trans h.used
  le := by
    rw [husage]
    exact h.le
  kept := by
    rw [husage]
    exact h.kept

/-- The accounts do not overflow. -/
theorem alloced_le (h : d.core.Settled heap) (hd : d.Inv) :
    (d.core.usage heap).alloced ≤ 2 ^ 47 := by
  have hlen := hd.superblocks_length
  have hle : d.core.ownedBy heap ≤ d.core.superblocks.length := List.countP_le_length
  have halloced := h.alloced
  rw [superblockSize_eq] at halloced
  omega

/-- A block of another heap is taken back. -/
theorem takeBack_of_ne (h : d.core.Settled heap) (hd : d.Inv) {bm : BinPtr}
    (hx : x ∈ d.lists (.bin bm e)) (hptr : ptr ∈ liveIn d.live x) (hne : bm.1 ≠ heap) :
    (d.takeBack bm e x ptr).core.Settled heap := by
  refine h.congr rfl (hd.takeBack_ownedBy hx hptr heap) ?_
  rw [hd.takeBack_usedBy hx hptr, if_neg hne, sub_zero]

/-- **A block of the heap is taken back.** All but the emptiness stays. -/
theorem takeBackCounted (h : d.core.Settled (.thread i)) (hd : d.Inv)
    (hx : x ∈ d.lists (.bin (.thread i, binIdx) e)) (hptr : ptr ∈ liveIn d.live x) :
    idx2class binIdx ≤ (d.core.usage (.thread i)).inUse ∧
    ((d.takeBackCounted (.thread i) binIdx e x ptr).core.usage (.thread i)).inUse =
      (d.core.usage (.thread i)).inUse - idx2class binIdx ∧
    ((d.takeBackCounted (.thread i) binIdx e x ptr).core.usage (.thread i)).alloced =
      (d.core.usage (.thread i)).alloced ∧
    (d.takeBackCounted (.thread i) binIdx e x ptr).core.ownedBy (.thread i) =
      d.core.ownedBy (.thread i) ∧
    (d.takeBackCounted (.thread i) binIdx e x ptr).core.usedBy (.thread i) ≤
      ((d.takeBackCounted (.thread i) binIdx e x ptr).core.usage (.thread i)).inUse := by
  have halloced := h.alloced_le hd
  have hle := h.le
  have hused := h.used
  have howner : (d.core.header x).owner = some (.thread i) := (hd.fits _ x hx).1
  have hclass : (d.core.header x).blockSize = idx2class binIdx := (hd.fits _ x hx).2.2.1
  have hblock := hd.blockSize_le_usedBy (hd.lists_known _ x hx) howner hptr
  have htake := hd.takeBack_usedBy hx hptr (.thread i)
  rw [if_pos rfl, hclass] at htake
  rw [hclass] at hblock
  have hinUse : ((d.takeBackCounted (.thread i) binIdx e x ptr).core.usage (.thread i)).inUse =
      (d.core.usage (.thread i)).inUse - idx2class binIdx :=
    Core.decUsage_inUse (c := d.core.superblockFree x ptr)
      (show _ ≤ (d.core.usage (.thread i)).inUse by omega)
      (show (d.core.usage (.thread i)).inUse < _ by omega)
  have hused' : (d.takeBackCounted (.thread i) binIdx e x ptr).core.usedBy (.thread i) =
    (d.takeBack (.thread i, binIdx) e x ptr).core.usedBy (.thread i) := rfl
  refine ⟨by omega, hinUse, Core.decUsage_alloced, hd.takeBack_ownedBy hx hptr (.thread i), ?_⟩
  rw [hinUse, hused']
  omega

/-- A superblock of another heap moves to the global heap. -/
theorem transferCounted_of_ne (h : d.core.Settled (.thread i)) (hd : d.Inv) {y : ℕ}
    {place : Option (ℕ × ℕ)} (hy : y ∈ d.lists (State.placeIn heap place))
    (hne : .thread i ≠ heap) : (d.transferCounted heap place y).core.Settled (.thread i) :=
  h.congr (Core.decAlloced_usage_of_ne hne)
    (hd.transfer_ownedBy_of_ne hy HeapId.noConfusion hne)
    (hd.transfer_usedBy_le hy HeapId.noConfusion)

/-- **A superblock is enough**: the heap that gives one away for a block is settled
again, the block being smaller than three quarters of it. -/
theorem moved (h : d.core.Settled (.thread i)) (hd : d.Inv)
    (hx : x ∈ d.lists (.bin (.thread i, binIdx) e)) (hptr : ptr ∈ liveIn d.live x)
    (hempty : isEmptyEnough ((d.takeBackCounted (.thread i) binIdx e x ptr).core.usage
      (.thread i)) = true) {y : ℕ} {place : Option (ℕ × ℕ)}
    (hy : y ∈ (d.takeBackCounted (.thread i) binIdx e x ptr).lists
      (State.placeIn (.thread i) place)) :
    ((d.takeBackCounted (.thread i) binIdx e x ptr).transferCounted (.thread i) place
      y).core.Settled (.thread i) := by
  have hd₁ := hd.takeBackCounted hx hptr
  obtain ⟨hblock, hinUse₁, halloced₁, howned₁, hused₁⟩ := h.takeBackCounted hd hx hptr
  generalize d.takeBackCounted (.thread i) binIdx e x ptr = d₁ at *
  have hclass : idx2class binIdx ≤ maxBlockSize := idx2class_le (hd.fits _ x hx).2.1
  have hlimit := h.alloced_le hd
  have hle := h.le
  have halloced := h.alloced
  -- What the heap is before, and what it is between the two parts of the call.
  have hkept := Bool.eq_false_iff.mp h.kept
  rw [ne_eq, isEmptyEnough_iff (by omega)] at hkept
  have hfew := (isEmptyEnough_iff (by omega)).mp hempty
  have howned := hd₁.transfer_ownedBy HeapId.noConfusion hy
  have hused : (d₁.transferCounted (.thread i) place y).core.usedBy (.thread i) ≤
    d₁.core.usedBy (.thread i) := hd₁.transfer_usedBy_le hy HeapId.noConfusion
  have hinUse : ((d₁.transferCounted (.thread i) place y).core.usage (.thread i)).inUse =
    (d₁.core.usage (.thread i)).inUse := Core.decAlloced_inUse
  have hless : ((d₁.transferCounted (.thread i) place y).core.usage (.thread i)).alloced =
      (d₁.core.usage (.thread i)).alloced - superblockSize :=
    Core.decAlloced_alloced (c := (d₁.transfer (.thread i) place y).core)
      (alloced_of_isEmptyEnough hempty)
      (show (d₁.core.usage (.thread i)).alloced < 2 ^ 64 by omega)
  rw [superblockSize_eq] at hless halloced
  rw [maxBlockSize_eq] at hclass
  refine ⟨by rw [superblockSize_eq]; omega, by omega, by omega, Bool.eq_false_iff.mpr ?_⟩
  rw [ne_eq, isEmptyEnough_iff (by omega)]
  omega

/-- **A heap stays settled** when a block is freed, its own or another's. -/
theorem step {d' : Depot} (h : d.core.Settled (.thread i)) (hd : d.Inv) {src : Source}
    (hstep : d.Step src (.free ptr) d') : d'.core.Settled (.thread i) := by
  cases hstep with
  | freedGlobal hx hptr => exact h.takeBack_of_ne hd hx hptr HeapId.noConfusion
  | @freed _ _ j binIdx e x hx hptr hkept =>
    by_cases hj : j = i
    · subst hj
      obtain ⟨-, hinUse, halloced, howned, hused⟩ := h.takeBackCounted hd hx hptr
      have hle := h.le
      exact ⟨by rw [halloced, howned, h.alloced], hused, by omega, hkept⟩
    · have hne : HeapId.thread j ≠ .thread i := HeapId.thread_ne hj
      exact (h.takeBack_of_ne hd hx hptr hne).congr (Core.decUsage_usage_of_ne hne.symm) rfl le_rfl
  | @moved _ _ j binIdx e x y place hx hptr hempty hy =>
    by_cases hj : j = i
    · subst hj
      exact h.moved hd hx hptr hempty hy
    · have hne : HeapId.thread j ≠ .thread i := HeapId.thread_ne hj
      have hcounted : (d.takeBackCounted (.thread j) binIdx e x ptr).core.Settled (.thread i) :=
        (h.takeBack_of_ne hd hx hptr hne).congr (Core.decUsage_usage_of_ne hne.symm) rfl le_rfl
      exact hcounted.transferCounted_of_ne (hd.takeBackCounted hx hptr) hy hne.symm

end Core.Settled

/-- `heap_free(ptr)`, as a step of its own. -/
def World.freeStep (w : World) (ptr : ℕ) : Option World := w.step (.free ptr)

/-- **Frees keep the emptiness invariant**: from any well-formed state in which a heap
is settled, it is settled after any number of calls of `heap_free` on live blocks,
whichever heaps their superblocks belong to. -/
theorem frees_keep_settled {w : World} (hw : w.WellFormed) {i : ℕ}
    (h : w.state.Settled (.thread i)) {ptrs : List ℕ}
    (hptrs : Trace.Always World.freeStep (fun w ptr => w.Legal (.free ptr)) w ptrs) :
    ∃ w', Trace.run World.freeStep w ptrs = some w' ∧ w'.WellFormed ∧
      w'.state.Settled (.thread i) := by
  have hrule : ∀ (w : World) (ptr : ℕ), w.WellFormed ∧ w.state.Settled (.thread i) →
      w.Legal (.free ptr) →
      ∃ w', w.freeStep ptr = some w' ∧ w'.WellFormed ∧ w'.state.Settled (.thread i) := by
    rintro w ptr ⟨hw, h⟩ hlegal
    obtain ⟨d, hM, hd⟩ := World.wellFormed_iff.mp hw
    obtain ⟨w', d', hw', hstep, hM'⟩ := World.simulates_free hM hd hlegal
    refine ⟨w', hw', World.wellFormed_iff.mpr ⟨d', hM', hstep.inv hd⟩, ?_⟩
    rw [hM'.refines.core]
    rw [hM.refines.core] at h
    exact h.step hd hstep
  exact Trace.run_of_always hrule ⟨hw, h⟩ hptrs

/-- Three superblocks of large classes and three of small ones. -/
def sixSuperblocks : List Op :=
  [.alloc 0 100000 (some 1048576), .alloc 0 100000 none, .alloc 0 100000 (some 2097152),
    .alloc 0 100000 none, .alloc 0 100000 (some 3145728), .alloc 0 100000 none,
    .alloc 0 16 (some 4194304), .alloc 0 32 (some 5242880), .alloc 0 48 (some 6291456)]

/-- The second deallocation moves a superblock to the global heap. -/
theorem frees_keep_settled_moved : ∃ w w',
    Trace.run World.step World.initial sixSuperblocks = some w ∧
    Trace.run World.freeStep w [1048704, 1178176, 2097280] = some w' ∧ w'.WellFormed ∧
    w'.state.Settled (.thread 0) := by
  have hlast : (Trace.run World.step World.initial sixSuperblocks).map (fun w =>
      (decide (w.state.Settled (.thread 0)), decide (Trace.Always World.freeStep
        (fun w ptr => w.Legal (.free ptr)) w [1048704, 1178176, 2097280]))) =
      some (true, true) := by decide +kernel
  obtain ⟨w, hrun, hw⟩ := Option.map_eq_some_iff.mp hlast
  obtain ⟨hsettled, hptrs⟩ := Prod.mk.inj hw
  obtain ⟨w', hrun', hw'⟩ := frees_keep_settled (World.wellFormed_of_run (by decide +kernel) hrun)
    (of_decide_eq_true hsettled) (of_decide_eq_true hptrs)
  exact ⟨w, w', hrun, hrun', hw'⟩

end MyMalloc
