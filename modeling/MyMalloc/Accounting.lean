import MyMalloc.Assertions
import Mathlib.Algebra.BigOperators.Group.List.Basic
import Mathlib.Algebra.Order.BigOperators.Group.List

/-!
# The usage statistics

`in_use` of a heap is meant to be what its superblocks have in use: the number of
live blocks times their size, over the superblocks the heap owns
(`MyMalloc.Core.usedBy`). It is kept up to date at three places, with amounts
taken from three different sources, and it decides when a superblock moves to the
global heap.

Three defects make it drift. A request that fails is counted
(`MyMalloc.usage_drifts`); so is a request served from a superblock of another
class; and a superblock that moves to the global heap with blocks in use leaves
them on the account of the heap it came from. A run without the three keeps the
accounts (`MyMalloc.usage_balanced`).
-/

namespace MyMalloc

open LinkedList Placement AddressSpace Depot

/-! ### What a heap has in use -/

/-- What a superblock contributes to a heap. -/
def usedOf (header : SuperblockHeader) (heap : HeapId) : ℤ :=
  if header.owner = some heap then usedBytes header else 0

/-- **What a heap has in use**: `used_bytes`, summed over the superblocks whose
owner it is. -/
def Core.usedBy (c : Core) (heap : HeapId) : ℤ :=
  (c.superblocks.map fun x => usedOf (c.header x) heap).sum

theorem usedOf_of_owner {header : SuperblockHeader} {heap : HeapId}
    (h : header.owner = some heap) : usedOf header heap = usedBytes header := if_pos h

theorem usedOf_of_ne {header : SuperblockHeader} {heap : HeapId} (heap' : HeapId)
    (h : header.owner = some heap') (hne : heap ≠ heap') : usedOf header heap = 0 :=
  if_neg fun hc => hne (Option.some.inj (hc.symm.trans h))

/-- A sum over a list without repetitions, after one summand has changed. -/
theorem sum_map_of_eq_off {l : List ℕ} (hnd : l.Nodup) {x : ℕ} (hx : x ∈ l) {f g : ℕ → ℤ}
    (h : ∀ y, y ≠ x → g y = f y) : (l.map g).sum = (l.map f).sum - f x + g x := by
  have hrest : (l.erase x).map g = (l.erase x).map f :=
    List.map_congr_left fun y hy => h y (hnd.mem_erase_iff.mp hy).1
  rw [← List.sum_map_erase f hx, ← List.sum_map_erase g hx, hrest]
  ring

namespace Core

variable {c c' : Core} {heap heap' : HeapId} {n x : ℕ}

/-- What a heap has in use after the header of one superblock has changed. -/
theorem usedBy_of_eq_off (hnd : c.superblocks.Nodup) (hx : x ∈ c.superblocks)
    (hsb : c'.superblocks = c.superblocks) (hheader : ∀ y, y ≠ x → c'.header y = c.header y) :
    c'.usedBy heap = c.usedBy heap - usedOf (c.header x) heap + usedOf (c'.header x) heap := by
  rw [usedBy, hsb]
  exact sum_map_of_eq_off hnd hx fun y hy => by rw [hheader y hy]

/-! ### The account of a heap -/

theorem setUsage_self {u : Usage} : (c.setUsage heap u).usage heap = u := Function.update_self ..

theorem setUsage_of_ne {u : Usage} (h : heap' ≠ heap) :
    (c.setUsage heap u).usage heap' = c.usage heap' := Function.update_of_ne h ..

/-- A number that the new account of a heap has from the old one is on all accounts what
it was. -/
theorem setUsage_congr {u : Usage} (f : Usage → ℕ) (h : f u = f (c.usage heap)) :
    f ((c.setUsage heap u).usage heap') = f (c.usage heap') := by
  by_cases hheap : heap' = heap
  · subst hheap
    rw [setUsage_self, h]
  · rw [setUsage_of_ne hheap]

theorem incUsage_usage_of_ne (h : heap' ≠ heap) :
    (c.incUsage heap n).usage heap' = c.usage heap' := setUsage_of_ne h

theorem incUsage_inUse_self :
    ((c.incUsage heap n).usage heap).inUse = add64 (c.usage heap).inUse n :=
  congrArg Usage.inUse setUsage_self

theorem incUsage_inUse (h : (c.usage heap).inUse + n < 2 ^ 64) :
    ((c.incUsage heap n).usage heap).inUse = (c.usage heap).inUse + n :=
  incUsage_inUse_self.trans (add64_eq h)

theorem incUsage_le : ((c.incUsage heap n).usage heap).inUse ≤
    ((c.incUsage heap n).usage heap).maxInUse := by
  simp only [incUsage, setUsage_self]
  exact le_max_right ..

theorem incUsage_alloced :
    ((c.incUsage heap n).usage heap').alloced = (c.usage heap').alloced :=
  setUsage_congr Usage.alloced rfl

theorem decUsage_usage_of_ne (h : heap' ≠ heap) :
    (c.decUsage heap n).usage heap' = c.usage heap' := setUsage_of_ne h

theorem decUsage_inUse_self :
    ((c.decUsage heap n).usage heap).inUse = sub64 (c.usage heap).inUse n :=
  congrArg Usage.inUse setUsage_self

theorem decUsage_inUse (h : n ≤ (c.usage heap).inUse) (hlt : (c.usage heap).inUse < 2 ^ 64) :
    ((c.decUsage heap n).usage heap).inUse = (c.usage heap).inUse - n :=
  decUsage_inUse_self.trans (sub64_eq h hlt)

theorem decUsage_maxInUse :
    ((c.decUsage heap n).usage heap').maxInUse = (c.usage heap').maxInUse :=
  setUsage_congr Usage.maxInUse rfl

theorem decUsage_alloced :
    ((c.decUsage heap n).usage heap').alloced = (c.usage heap').alloced :=
  setUsage_congr Usage.alloced rfl

theorem incAlloced_usage_of_ne (h : heap' ≠ heap) :
    (c.incAlloced heap n).usage heap' = c.usage heap' := setUsage_of_ne h

theorem incAlloced_inUse : ((c.incAlloced heap n).usage heap').inUse = (c.usage heap').inUse :=
  setUsage_congr Usage.inUse rfl

theorem incAlloced_maxInUse :
    ((c.incAlloced heap n).usage heap').maxInUse = (c.usage heap').maxInUse :=
  setUsage_congr Usage.maxInUse rfl

theorem incAlloced_alloced_self :
    ((c.incAlloced heap n).usage heap).alloced = add64 (c.usage heap).alloced n :=
  congrArg Usage.alloced setUsage_self

theorem decAlloced_usage_of_ne (h : heap' ≠ heap) :
    (c.decAlloced heap n).usage heap' = c.usage heap' := setUsage_of_ne h

theorem decAlloced_inUse : ((c.decAlloced heap n).usage heap').inUse = (c.usage heap').inUse :=
  setUsage_congr Usage.inUse rfl

theorem decAlloced_maxInUse :
    ((c.decAlloced heap n).usage heap').maxInUse = (c.usage heap').maxInUse :=
  setUsage_congr Usage.maxInUse rfl

theorem decAlloced_alloced (h : n ≤ (c.usage heap).alloced)
    (hlt : (c.usage heap).alloced < 2 ^ 64) :
    ((c.decAlloced heap n).usage heap).alloced = (c.usage heap).alloced - n :=
  (congrArg Usage.alloced setUsage_self).trans (sub64_eq h hlt)

/-- A new owner, seen from another superblock. -/
theorem setOwner_header_of_ne {y : ℕ} (h : y ≠ x) :
    (c.setOwner x heap).header y = c.header y := Function.update_of_ne h ..

/-- A superblock that is adopted changes the account of its new heap only. -/
theorem adopt_usage_of_ne (h : heap' ≠ heap) : (c.adopt heap x).usage heap' = c.usage heap' :=
  (incAlloced_usage_of_ne h).trans (incUsage_usage_of_ne h)

/-- It brings its size. -/
theorem adopt_alloced :
    ((c.adopt heap x).usage heap).alloced = add64 (c.usage heap).alloced superblockSize :=
  incAlloced_alloced_self.trans (congrArg (add64 · superblockSize) incUsage_alloced)

/-- It brings its blocks in use: `used_bytes`, read after the change of owner. -/
theorem adopt_inUse : ((c.adopt heap x).usage heap).inUse =
    add64 (c.usage heap).inUse (toSize (usedBytes (c.header x))) := by
  have hused : usedBytes ((c.setOwner x heap).header x) = usedBytes (c.header x) := by
    rw [show (c.setOwner x heap).header x = { c.header x with owner := some heap } from
      Function.update_self ..]
    rfl
  refine incAlloced_inUse.trans (incUsage_inUse_self.trans ?_)
  rw [hused]
  rfl

/-- What the new heap has in use is at most its maximum. -/
theorem adopt_le :
    ((c.adopt heap x).usage heap).inUse ≤ ((c.adopt heap x).usage heap).maxInUse := by
  show (Core.usage (Core.incAlloced _ _ _) _).inUse ≤
    (Core.usage (Core.incAlloced _ _ _) _).maxInUse
  rw [incAlloced_inUse, incAlloced_maxInUse]
  exact incUsage_le

end Core

/-! ### The accounts of the depot -/

namespace Depot

variable {d d' d₁ : Depot} {heap : HeapId} {x : ℕ}

/-- What a superblock contributes is not negative and at most its buffer. -/
theorem Inv.usedOf_mem (hd : d.Inv) (hx : x ∈ d.core.superblocks) (heap : HeapId) :
    0 ≤ usedOf (d.core.header x) heap ∧ usedOf (d.core.header x) heap ≤ 262016 := by
  have hcarved := hd.carved x hx
  obtain ⟨free, hs⟩ := hcarved.sound
  have hnum := hs.numFree_add_length
  have hle := le_trans (Nat.mul_le_mul_right (d.core.header x).blockSize
    (show (liveIn d.live x).length ≤ (d.core.header x).totalBlocks by omega)) hs.total_mul_le
  rw [usedOf]
  split
  · rw [hcarved.usedBytes_eq]
    omega
  · omega

/-- There is a limit to the number of superblocks. -/
theorem Inv.superblocks_length (hd : d.Inv) : d.core.superblocks.length ≤ 2 ^ 29 := by
  refine length_le_of_aligned (k := 262144) hd.superblocks_nodup fun x hx => ?_
  have hplaced := hd.placed x hx
  have hle := hplaced.le
  have hdvd := hplaced.dvd
  rw [superblockSize_eq, userSpace_eq] at *
  exact ⟨hdvd, by omega⟩

/-- **The accounts cannot overflow.** -/
theorem Inv.usedBy_lt (hd : d.Inv) (heap : HeapId) : d.core.usedBy heap < 2 ^ 47 := by
  have hlen := hd.superblocks_length
  have hsum := List.sum_le_card_nsmul (d.core.superblocks.map fun x =>
    usedOf (d.core.header x) heap) 262016 (by
      intro z hz
      obtain ⟨x, hx, rfl⟩ := List.mem_map.mp hz
      exact (hd.usedOf_mem hx heap).2)
  rw [List.length_map, nsmul_eq_mul] at hsum
  rw [Core.usedBy]
  omega

/-- What a superblock contributes is part of what its heap has in use. -/
theorem Inv.usedOf_le (hd : d.Inv) (hx : x ∈ d.core.superblocks) (heap : HeapId) :
    usedOf (d.core.header x) heap ≤ d.core.usedBy heap := by
  refine List.single_le_sum (fun z hz => ?_) _ (List.mem_map_of_mem hx)
  obtain ⟨y, hy, rfl⟩ := List.mem_map.mp hz
  exact (hd.usedOf_mem hy heap).1

/-- **The accounts of the thread heaps are right.** -/
structure Balanced (d : Depot) : Prop where
  inUse : ∀ i, ((d.core.usage (.thread i)).inUse : ℤ) = d.core.usedBy (.thread i)
  max : ∀ i, (d.core.usage (.thread i)).inUse ≤ (d.core.usage (.thread i)).maxInUse

/-- The accounts stay right when one superblock and one account change alike. -/
theorem Balanced.change (h : d.Balanced) (hd : d.Inv) (hx : x ∈ d.core.superblocks)
    (hsb : d'.core.superblocks = d.core.superblocks)
    (hheader : ∀ y, y ≠ x → d'.core.header y = d.core.header y)
    (husage : ∀ i, ((d'.core.usage (.thread i)).inUse : ℤ) = (d.core.usage (.thread i)).inUse -
      usedOf (d.core.header x) (.thread i) + usedOf (d'.core.header x) (.thread i))
    (hmax : ∀ i, (d'.core.usage (.thread i)).inUse ≤ (d'.core.usage (.thread i)).maxInUse) :
    d'.Balanced := by
  refine ⟨fun i => ?_, hmax⟩
  rw [husage, h.inUse, Core.usedBy_of_eq_off hd.superblocks_nodup hx hsb hheader]

/-- The accounts do not depend on the lists. -/
theorem Balanced.congr (h : d.Balanced) (hcore : d'.core.superblocks = d.core.superblocks)
    (hheader : d'.core.header = d.core.header)
    (husage : ∀ i, (d'.core.usage (.thread i)).inUse = (d.core.usage (.thread i)).inUse ∧
      (d'.core.usage (.thread i)).maxInUse = (d.core.usage (.thread i)).maxInUse) :
    d'.Balanced := by
  refine ⟨fun i => ?_, fun i => ?_⟩
  · rw [(husage i).1, h.inUse, Core.usedBy, Core.usedBy, hcore, hheader]
  · rw [(husage i).1, (husage i).2]
    exact h.max i

/-- An account never overflows. -/
theorem Balanced.inUse_lt (h : d.Balanced) (hd : d.Inv) (i : ℕ) :
    (d.core.usage (.thread i)).inUse < 2 ^ 47 := by
  have hlt := hd.usedBy_lt (.thread i)
  have heq := h.inUse i
  omega

/-- An empty superblock contributes nothing. -/
theorem Inv.usedOf_empty (hd : d.Inv) (hx : x ∈ d.core.superblocks)
    (hempty : liveIn d.live x = []) (heap : HeapId) : usedOf (d.core.header x) heap = 0 := by
  rw [usedOf, (hd.carved x hx).usedBytes_eq, hempty]
  simp

/-! ### The accounts along a step -/

theorem Balanced.recycle (h : d.Balanced) (hd : d.Inv) (hx : x ∈ d.lists (.recycle heap))
    {b : ℕ} (hb : b < numSizeBins) : (d.recycle heap x (idx2class b)).Balanced := by
  have hsb := hd.lists_known _ x hx
  have hempty := hd.empty_of_recycle hx
  refine h.change hd hsb rfl (fun y hy => Function.update_of_ne hy ..) (fun i => ?_) h.max
  rw [hd.usedOf_empty hsb hempty, (hd.recycle hx hb).usedOf_empty hsb hempty]
  show ((d.core.usage (.thread i)).inUse : ℤ) = _
  ring

/-- **A superblock that comes from the global heap** brings its blocks in use. -/
theorem Balanced.adopt (h : d.Balanced) (hd : d.Inv) (hx : x ∈ d.transit)
    (howner : (d.core.header x).owner = some .global) (i : ℕ) :
    (d.adopt (.thread i) x).Balanced := by
  have hsb := hd.transit_known x hx
  have hself := adopt_header (d := d) (.thread i) x
  have hglobal : ∀ j, usedOf (d.core.header x) (.thread j) = 0 :=
    fun j => usedOf_of_ne _ howner HeapId.noConfusion
  have hused : usedOf ((d.adopt (.thread i) x).core.header x) (.thread i) =
      usedBytes (d.core.header x) := by
    rw [hself]
    exact usedOf_of_owner rfl
  have hmem := (hd.adopt hx (.thread i)).usedOf_mem hsb (.thread i)
  rw [hused] at hmem
  have hlt := h.inUse_lt hd i
  have hinUse : ((d.adopt (.thread i) x).core.usage (.thread i)).inUse =
      (d.core.usage (.thread i)).inUse + toSize (usedBytes (d.core.header x)) := by
    refine Core.adopt_inUse.trans (add64_eq ?_)
    rw [toSize]
    omega
  have hother : ∀ j, j ≠ i → (d.adopt (.thread i) x).core.usage (.thread j) =
      d.core.usage (.thread j) := fun j hj =>
    Core.adopt_usage_of_ne (HeapId.thread_ne hj)
  refine h.change hd hsb rfl (fun y hy => Function.update_of_ne hy ..) (fun j => ?_) fun j => ?_
  · rw [hglobal]
    by_cases hj : j = i
    · subst hj
      rw [hinUse, hused, toSize]
      omega
    · have hne : HeapId.thread j ≠ .thread i := HeapId.thread_ne hj
      rw [hother j hj, hself, usedOf_of_ne (.thread i) rfl hne]
      ring
  · by_cases hj : j = i
    · subst hj
      exact Core.adopt_le
    · rw [hother j hj]
      exact h.max j

/-- A new superblock has nothing in use. -/
theorem Balanced.create (h : d.Balanced) (hd : d.Inv) {ptr : ℕ}
    (hptr : MapsFresh d.core.mapped ptr (2 * superblockSize)) {c : Core}
    (hc : d.core.allocateNewSuperblock (some ptr) = (some x, c)) {b : ℕ} (hb : b < numSizeBins)
    (heap : HeapId) : (d.create heap x (idx2class b) c).Balanced := by
  have hinv := hd.create hptr hc hb heap
  have hnew := hd.not_mem_of_fresh hptr hc
  obtain ⟨husage, hcheader, -, -⟩ := Core.allocateNewSuperblock_frame hc
  have hheader : ∀ y ∈ d.core.superblocks,
      (d.create heap x (idx2class b) c).core.header y = d.core.header y := by
    intro y hy
    have hne : y ≠ x := fun hc => hnew (hc ▸ hy)
    rw [← hcheader]
    exact (Function.update_of_ne hne ..).trans (Function.update_of_ne hne ..)
  have hused : ∀ heap', (d.create heap x (idx2class b) c).core.usedBy heap' =
      d.core.usedBy heap' := by
    intro heap'
    have hzero := hinv.usedOf_empty (List.mem_cons_self ..) (hd.liveIn_of_not_mem hnew) heap'
    rw [Core.usedBy, create_superblocks hc, List.map_cons, List.sum_cons, hzero, zero_add]
    exact congrArg List.sum (List.map_congr_left fun y hy => by rw [hheader y hy])
  have hsame : ∀ i, ((d.create heap x (idx2class b) c).core.usage (.thread i)).inUse =
        (d.core.usage (.thread i)).inUse ∧
      ((d.create heap x (idx2class b) c).core.usage (.thread i)).maxInUse =
        (d.core.usage (.thread i)).maxInUse := by
    intro i
    rw [← husage]
    exact ⟨Core.incAlloced_inUse, Core.incAlloced_maxInUse⟩
  refine ⟨fun i => ?_, fun i => ?_⟩
  · rw [hused, ← h.inUse, (hsame i).1]
  · rw [(hsame i).1, (hsame i).2]
    exact h.max i

/-- **Acquiring a superblock keeps the accounts.** -/
theorem Balanced.acquires (h : d.Balanced) (hd : d.Inv) {i binIdx : ℕ} {src : Source}
    (hb : binIdx < numSizeBins) (hsrc : d.Offers (.thread i) binIdx src)
    (hacquires : d.Acquires (.thread i) binIdx src x d₁) : d₁.Balanced := by
  cases hacquires with
  | bin e => exact h.congr rfl rfl fun _ => ⟨rfl, rfl⟩
  | recycled => exact h.recycle hd hsrc hb
  | globalBin e =>
    -- On its way the superblock is in no bin, and still on the account of the global heap.
    have htake : (d.take (.bin (.global, binIdx) e) x).Balanced :=
      h.congr rfl rfl fun _ => ⟨rfl, rfl⟩
    exact htake.adopt (hd.take hsrc.2) (List.mem_cons_self ..) (hd.fits _ x hsrc.2).1 i
  | globalRecycled =>
    have hpop : (d.popGlobal x).Balanced :=
      h.congr (d.popGlobal_superblocks x) (d.popGlobal_header x) fun _ => by
        rw [popGlobal_usage]
        exact ⟨rfl, rfl⟩
    refine hpop.adopt (hd.popGlobal hsrc.1) (List.mem_cons_self ..) ?_ i
    rw [popGlobal_header]
    exact (hd.fits _ x hsrc.1).1
  | new ptr x c hptr hc => exact h.create hd hptr hc hb _

/-- Handing out a block adds its size to what its superblock has in use. -/
theorem Serves.usedBytes_eq {p size : ℕ} {header : SuperblockHeader} (hd : d.Inv)
    (hx : x ∈ d.transit) (h : Serves d x p header size) :
    usedBytes header = usedBytes (d.core.header x) + (d.core.header x).blockSize := by
  have hself : (d.serve x p header size).core.header x = header := Function.update_self ..
  have hcarved := h.inv.carved x (h.inv.transit_known x hx)
  have hlive : liveIn (d.serve x p header size).live x = p :: liveIn d.live x :=
    liveIn_cons_self h.superblockOf
  rw [hself, hlive] at hcarved
  rw [hcarved.usedBytes_eq, (hd.carved x (hd.transit_known x hx)).usedBytes_eq,
    h.same.blockSize, List.length_cons]
  push_cast
  ring

/-- **Handing out a block keeps the accounts.** -/
theorem Balanced.handOut (h : d.Balanced) {i binIdx p size : ℕ} {header : SuperblockHeader}
    (hready : d.Ready (.thread i) binIdx x) (hserves : Serves d x p header size) :
    (d.handOut (.thread i) binIdx x p header size).Balanced := by
  have hd := hready.inv
  have hsb := hd.transit_known x hready.transit
  have hself : (d.handOut (.thread i) binIdx x p header size).core.header x = header :=
    Function.update_self ..
  have hlt := h.inUse_lt hd i
  have hclass : idx2class binIdx ≤ 131008 := by
    obtain ⟨free, hs⟩ := (hd.carved x hsb).sound
    have := hs.isClass.le
    rw [hready.blockSize] at this
    exact this
  refine h.change hd hsb rfl (fun y hy => Function.update_of_ne hy ..) (fun j => ?_) fun j => ?_
  · rw [hself]
    by_cases hj : j = i
    · subst hj
      have hinUse : ((d.handOut (.thread j) binIdx x p header size).core.usage (.thread j)).inUse =
          (d.core.usage (.thread j)).inUse + idx2class binIdx :=
        Core.incUsage_inUse (c := d.core.setHeader x header)
          (show (d.core.usage (.thread j)).inUse + _ < _ by omega)
      rw [hinUse, usedOf_of_owner hready.owner,
        usedOf_of_owner (hserves.same.owner.trans hready.owner),
        Serves.usedBytes_eq hd hready.transit hserves, hready.blockSize]
      push_cast
      ring
    · have hne : HeapId.thread j ≠ .thread i := HeapId.thread_ne hj
      have husage : (d.handOut (.thread i) binIdx x p header size).core.usage (.thread j) =
          d.core.usage (.thread j) := Core.incUsage_usage_of_ne hne
      rw [husage, usedOf_of_ne _ hready.owner hne,
        usedOf_of_ne _ (hserves.same.owner.trans hready.owner) hne]
      ring
  · by_cases hj : j = i
    · subst hj
      exact Core.incUsage_le
    · have hne : HeapId.thread j ≠ .thread i := HeapId.thread_ne hj
      have husage : (d.handOut (.thread i) binIdx x p header size).core.usage (.thread j) =
          d.core.usage (.thread j) := Core.incUsage_usage_of_ne hne
      rw [husage]
      exact h.max j

/-- Taking a block back takes its size from what its superblock has in use. -/
theorem Inv.usedBytes_release (hd : d.Inv) {bm : BinPtr} {e ptr : ℕ}
    (hx : x ∈ d.lists (.bin bm e)) (hptr : ptr ∈ liveIn d.live x) :
    usedBytes ((d.takeBack bm e x ptr).core.header x) + (d.core.header x).blockSize =
      usedBytes (d.core.header x) := by
  obtain ⟨hinv, hsame, -⟩ := (hd.take hx).release (List.mem_cons_self ..) hptr
  have hsb := hd.lists_known _ x hx
  have hcarved := (hd.takeBack hx hptr).carved x hsb
  have hlive : liveIn (d.takeBack bm e x ptr).live x = (liveIn d.live x).erase ptr :=
    liveIn_filter_self (hd.carved x hsb).nodup
  have hsize : ((d.takeBack bm e x ptr).core.header x).blockSize = (d.core.header x).blockSize :=
    hsame.blockSize
  have hlen := List.length_erase_add_one hptr
  rw [hcarved.usedBytes_eq, (hd.carved x hsb).usedBytes_eq, hlive, hsize, ← hlen]
  push_cast
  ring

theorem takeBack_header_of_ne {bm : BinPtr} {e ptr y : ℕ} (hy : y ≠ x) :
    (d.takeBack bm e x ptr).core.header y = d.core.header y :=
  Function.update_of_ne hy ..

/-- The owner of a superblock stays the same when it takes a block back. -/
theorem Inv.takeBack_owner (hd : d.Inv) {bm : BinPtr} {e ptr : ℕ}
    (hx : x ∈ d.lists (.bin bm e)) (hptr : ptr ∈ liveIn d.live x) :
    ((d.takeBack bm e x ptr).core.header x).owner = some bm.1 :=
  ((hd.take hx).release (List.mem_cons_self ..) hptr).2.1.owner.trans (hd.fits _ x hx).1

/-- A block of the global heap is on no account. -/
theorem Balanced.takeBack_global (h : d.Balanced) (hd : d.Inv) {binIdx e ptr : ℕ}
    (hx : x ∈ d.lists (.bin (.global, binIdx) e)) (hptr : ptr ∈ liveIn d.live x) :
    (d.takeBack (.global, binIdx) e x ptr).Balanced := by
  refine h.change hd (hd.lists_known _ x hx) rfl (fun y hy => takeBack_header_of_ne hy)
    (fun i => ?_) h.max
  rw [usedOf_of_ne _ (hd.fits _ x hx).1 HeapId.noConfusion,
    usedOf_of_ne _ (hd.takeBack_owner hx hptr) HeapId.noConfusion]
  show ((d.core.usage (.thread i)).inUse : ℤ) = _
  ring

/-- A heap has at least the size of a live block of it in use. -/
theorem Inv.blockSize_le_usedBy (hd : d.Inv) {ptr : ℕ} (hx : x ∈ d.core.superblocks)
    (howner : (d.core.header x).owner = some heap) (hptr : ptr ∈ liveIn d.live x) :
    ((d.core.header x).blockSize : ℤ) ≤ d.core.usedBy heap := by
  have hle := hd.usedOf_le hx heap
  rw [usedOf_of_owner howner, (hd.carved x hx).usedBytes_eq] at hle
  have hpos := Nat.mul_le_mul_right (d.core.header x).blockSize (List.length_pos_of_mem hptr)
  rw [Nat.one_mul] at hpos
  omega

/-- The account of a heap has at least the size of a live block of it. -/
theorem Balanced.le_inUse (h : d.Balanced) (hd : d.Inv) {i ptr : ℕ}
    (hx : x ∈ d.core.superblocks) (howner : (d.core.header x).owner = some (.thread i))
    (hptr : ptr ∈ liveIn d.live x) :
    (d.core.header x).blockSize ≤ (d.core.usage (.thread i)).inUse := by
  have hle := hd.blockSize_le_usedBy hx howner hptr
  have hinUse := h.inUse i
  omega

/-- **Taking a block back keeps the accounts.** -/
theorem Balanced.takeBackCounted (h : d.Balanced) (hd : d.Inv) {i binIdx e ptr : ℕ}
    (hx : x ∈ d.lists (.bin (.thread i, binIdx) e)) (hptr : ptr ∈ liveIn d.live x) :
    (d.takeBackCounted (.thread i) binIdx e x ptr).Balanced := by
  have hsb := hd.lists_known _ x hx
  have howner : (d.core.header x).owner = some (.thread i) := (hd.fits _ x hx).1
  have hclass : (d.core.header x).blockSize = idx2class binIdx := (hd.fits _ x hx).2.2.1
  have hle := h.le_inUse hd hsb howner hptr
  have hlt := h.inUse_lt hd i
  have hused := hd.usedBytes_release hx hptr
  have howner' := hd.takeBack_owner hx hptr
  rw [hclass] at hle hused
  have hinUse : ((d.takeBackCounted (.thread i) binIdx e x ptr).core.usage (.thread i)).inUse =
      (d.core.usage (.thread i)).inUse - idx2class binIdx :=
    Core.decUsage_inUse (c := d.core.superblockFree x ptr) hle
      (show (d.core.usage (.thread i)).inUse < _ by omega)
  have hother : ∀ j, j ≠ i →
      (d.takeBackCounted (.thread i) binIdx e x ptr).core.usage (.thread j) =
        d.core.usage (.thread j) := fun j hj =>
    Core.decUsage_usage_of_ne (HeapId.thread_ne hj)
  refine h.change hd hsb rfl (fun y hy => takeBack_header_of_ne hy) (fun j => ?_) fun j => ?_
  · show _ = _ - _ + usedOf ((d.takeBack (.thread i, binIdx) e x ptr).core.header x) _
    by_cases hj : j = i
    · subst hj
      rw [hinUse, usedOf_of_owner howner, usedOf_of_owner howner']
      omega
    · have hne : HeapId.thread j ≠ .thread i := HeapId.thread_ne hj
      rw [hother j hj, usedOf_of_ne _ howner hne, usedOf_of_ne _ howner' hne]
      ring
  · by_cases hj : j = i
    · subst hj
      have hmax : ((d.takeBackCounted (.thread j) binIdx e x ptr).core.usage
          (.thread j)).maxInUse = (d.core.usage (.thread j)).maxInUse :=
        Core.decUsage_maxInUse (c := d.core.superblockFree x ptr)
      have := h.max j
      rw [hinUse, hmax]
      omega
    · rw [hother j hj]
      exact h.max j

/-- **Moving an empty superblock keeps the accounts.** -/
theorem Balanced.transferCounted (h : d.Balanced) (hd : d.Inv) {y : ℕ}
    (hy : y ∈ d.lists (.recycle heap)) : (d.transferCounted heap none y).Balanced := by
  have hsb := hd.lists_known _ y hy
  have hself : (d.transferCounted heap none y).core.header y =
      { d.core.header y with owner := some .global } := Function.update_self ..
  refine h.change hd hsb rfl (fun z hz => Function.update_of_ne hz ..) (fun i => ?_) fun i => ?_
  · rw [hd.usedOf_empty hsb (hd.empty_of_recycle hy), hself,
      usedOf_of_ne .global rfl HeapId.noConfusion]
    refine (congrArg Nat.cast Core.decAlloced_inUse).trans ?_
    show ((d.core.usage (.thread i)).inUse : ℤ) = _
    ring
  · refine le_trans (le_of_eq Core.decAlloced_inUse) (le_trans (h.max i) (le_of_eq ?_))
    exact Core.decAlloced_maxInUse.symm

/-- **A step keeps the accounts**, if it does not fail and moves no blocks in use to
the global heap. -/
theorem Balanced.step {src : Source} {op : Op} (h : d.Balanced) (hd : d.Inv)
    (halloc : ∀ i size mmap, op = .alloc i size mmap → src = .new → mmap ≠ none)
    (hfree : ∀ ptr i binIdx e x, op = .free ptr → x ∈ d.lists (.bin (.thread i, binIdx) e) →
      ptr ∈ liveIn d.live x → isEmptyEnough
        ((d.takeBackCounted (.thread i) binIdx e x ptr).core.usage (.thread i)) = true →
      (d.takeBackCounted (.thread i) binIdx e x ptr).lists (.recycle (.thread i)) ≠ [])
    (hstep : d.Step src op d') : d'.Balanced := by
  cases hstep with
  | served hsize hsrc hacquires hserves =>
    have hb := binOf_lt hsize
    exact (h.acquires hd hb hsrc hacquires).handOut (hacquires.ready hd hb hsrc) hserves
  | failed => exact absurd rfl (halloc _ _ _ rfl rfl)
  | freedGlobal hx hptr => exact h.takeBack_global hd hx hptr
  | freed hx hptr => exact h.takeBackCounted hd hx hptr
  | moved hx hptr hempty hy hplace =>
    obtain rfl := hplace.mpr (hfree _ _ _ _ _ rfl hx hptr hempty)
    exact (h.takeBackCounted hd hx hptr).transferCounted (hd.takeBackCounted hx hptr) hy
  | wrote => exact h.congr rfl rfl fun _ => ⟨rfl, rfl⟩

end Depot

/-! ### Runs -/

/-- `heap_free(ptr)` moves a superblock that has blocks in use to the global heap:
the heap has become empty enough, and has no empty superblock to move. -/
def State.MovesBlocksInUse (s : State) (ptr : ℕ) : Prop :=
  let header := s.header (superblockOf ptr)
  ∃ heap ∈ header.owner, heap ≠ .global ∧
    isEmptyEnough
      { s.usage heap with inUse := sub64 (s.usage heap).inUse header.blockSize } = true ∧
    s.recycledSuperblock heap = none ∧ header.numFreeBlocks + 1 ≠ header.totalBlocks

instance (s : State) (ptr : ℕ) : Decidable (s.MovesBlocksInUse ptr) :=
  match h : (s.header (superblockOf ptr)).owner with
  | none => isFalse (by simp [State.MovesBlocksInUse, h])
  | some heap =>
    decidable_of_iff (heap ≠ .global ∧ isEmptyEnough { s.usage heap with
        inUse := sub64 (s.usage heap).inUse (s.header (superblockOf ptr)).blockSize } = true ∧
      s.recycledSuperblock heap = none ∧ (s.header (superblockOf ptr)).numFreeBlocks + 1 ≠
        (s.header (superblockOf ptr)).totalBlocks) (by simp [State.MovesBlocksInUse, h])

namespace World

variable {w : World} {d : Depot}

/-- **The accounts are right**: of every thread heap, `in_use` is what its
superblocks have in use, and no deallocation takes more from it than is there. -/
structure Balanced (w : World) : Prop where
  inUse : ∀ i, ((w.state.usage (.thread i)).inUse : ℤ) = w.state.usedBy (.thread i)
  max : ∀ i, (w.state.usage (.thread i)).inUse ≤ (w.state.usage (.thread i)).maxInUse
  /-- The next `dec_usage` does not wrap, whichever live block it is for. -/
  noWrap : ∀ b ∈ w.live, ∀ i, (w.state.header (superblockOf b.1)).owner = some (.thread i) →
    (w.state.header (superblockOf b.1)).blockSize ≤ (w.state.usage (.thread i)).inUse

/-- No request fails for lack of memory, and no superblock moves to the global heap
with blocks in use. -/
def KeepsAccounts (w : World) : Op → Prop
  | .alloc i size mmap => w.state.source (.thread i) (binOf size) = .new → mmap ≠ none
  | .free ptr => ¬w.state.MovesBlocksInUse ptr
  | .write .. => True

instance (w : World) : DecidablePred w.KeepsAccounts
  | .alloc i size mmap =>
    inferInstanceAs (Decidable (w.state.source (.thread i) (binOf size) = .new → mmap ≠ none))
  | .free ptr => inferInstanceAs (Decidable ¬w.state.MovesBlocksInUse ptr)
  | .write .. => isTrue trivial

theorem Models.balanced (hM : w.Models d) (hd : d.Inv) (h : d.Balanced) : w.Balanced where
  inUse := by
    rw [hM.refines.core]
    exact h.inUse
  max := by
    rw [hM.refines.core]
    exact h.max
  noWrap b hb i howner := by
    rw [← hM.live] at hb
    rw [hM.refines.core] at *
    exact h.le_inUse hd (hd.live_known b hb).1 howner (Inv.mem_liveIn hb)

/-- **A heap that becomes empty enough has an empty superblock to move**, unless the
deallocation moves blocks in use. -/
theorem Models.recycled_ne_nil (hM : w.Models d) (hd : d.Inv) {ptr i binIdx e x : ℕ}
    (hmoves : ¬w.state.MovesBlocksInUse ptr) (hx : x ∈ d.lists (.bin (.thread i, binIdx) e))
    (hptr : ptr ∈ liveIn d.live x)
    (hempty : isEmptyEnough ((d.takeBackCounted (.thread i) binIdx e x ptr).core.usage
      (.thread i)) = true) :
    (d.takeBackCounted (.thread i) binIdx e x ptr).lists (.recycle (.thread i)) ≠ [] := by
  have howner : (d.core.header x).owner = some (.thread i) := (hd.fits _ x hx).1
  have hclass : (d.core.header x).blockSize = idx2class binIdx := (hd.fits _ x hx).2.2.1
  have hsb := (MyMalloc.mem_liveIn.mp hptr).2
  have husage : (d.takeBackCounted (.thread i) binIdx e x ptr).core.usage (.thread i) =
      { d.core.usage (.thread i) with
        inUse := sub64 (d.core.usage (.thread i)).inUse (idx2class binIdx) } :=
    Function.update_self ..
  obtain ⟨-, hsame, hnum⟩ := (hd.take hx).release (List.mem_cons_self ..) hptr
  -- The recycle list of the heap, or the superblock itself, is not empty.
  by_cases hrec : d.lists (.recycle (.thread i)) = []
  · have hfull : (d.core.header x).numFreeBlocks + 1 = (d.core.header x).totalBlocks := by
      by_contra hne
      have hhead := hM.refines.represents.head_recycle (.thread i)
      rw [hrec, List.head?_nil] at hhead
      refine hmoves ⟨.thread i, ?_, HeapId.noConfusion, ?_, hhead, ?_⟩ <;>
        rw [hM.refines.core, hsb]
      · exact howner
      · rw [hclass, ← husage]
        exact hempty
      · exact hne
    have hplace : refile (.thread i, binIdx) ((d.core.superblockFree x ptr).header x) =
        .recycle (.thread i) := by
      refine if_pos (beq_iff_eq.mpr ?_)
      exact (hnum.trans hfull).trans hsame.totalBlocks.symm
    refine List.ne_nil_of_mem (a := x) (mem_push.mpr (Or.inl ⟨hplace.symm, rfl⟩))
  · obtain ⟨y, hy⟩ := List.exists_mem_of_ne_nil _ hrec
    have hyx : y ≠ x := by
      rintro rfl
      have := hd.distinct.unique _ _ _ hx hy
      cases this
    exact List.ne_nil_of_mem (a := y)
      (mem_push.mpr (Or.inr ((mem_take hd.distinct hx).mpr ⟨hy, hyx⟩)))

end World

/-- The accounts of the empty depot. -/
theorem Depot.balanced_initial : Depot.Balanced ⟨{}, fun _ => [], [], []⟩ :=
  ⟨fun _ => rfl, fun _ => le_rfl⟩

/-- **The accounts are right** in every run in which no request fails, no superblock
comes from the recycle list of the global heap to another class than its own, and
none moves to the global heap with blocks in use. -/
theorem usage_balanced {ops : List Op}
    (hops : Trace.Always World.step
      (fun w op => w.Legal op ∧ w.Matching op ∧ w.KeepsAccounts op) World.initial ops) :
    ∃ w, Trace.run World.step World.initial ops = some w ∧ w.Balanced := by
  obtain ⟨w, d, hrun, hM, hd, hbal⟩ := World.run_induction (P := Depot.Balanced)
    (C := fun w op => w.Matching op ∧ w.KeepsAccounts op) (fun _ _ h => h.1)
    Depot.balanced_initial
    (fun w d d' op hM hd hbal _ hc hstep => hbal.step hd
      (fun i size mmap hop hsrc => by
        subst hop
        exact hc.2 hsrc)
      (fun ptr i binIdx e x hop hx hptr hempty => by
        subst hop
        exact hM.recycled_ne_nil hd hc.2 hx hptr hempty) hstep) hops
  exact ⟨w, hrun, hM.balanced hd hbal⟩

/-- A superblock moves to the global heap and comes back to another thread heap. -/
theorem usage_balanced_moved : ∃ w,
    Trace.run World.step World.initial (fiveClasses ++ [.alloc 1 16 none]) = some w ∧
      w.Balanced :=
  usage_balanced (by decide +kernel)

/-- **The usage drifts** when a request fails: it is counted all the same. -/
theorem usage_drifts :
    Trace.Always World.step World.Legal World.initial [.alloc 0 16 none] ∧
    ∃ w, Trace.run World.step World.initial [.alloc 0 16 none] = some w ∧ ¬w.Balanced := by
  refine ⟨by decide +kernel, ?_⟩
  have hfacts : (Trace.run World.step World.initial [.alloc 0 16 none]).map (fun w =>
      ((w.state.usage (.thread 0)).inUse, w.state.superblocks)) = some (16, []) := by
    decide +kernel
  obtain ⟨w, hrun, hw⟩ := Option.map_eq_some_iff.mp hfacts
  obtain ⟨hinUse, hsb⟩ := Prod.mk.inj hw
  refine ⟨w, hrun, fun h => ?_⟩
  have heq := h.inUse 0
  rw [hinUse, Core.usedBy, hsb] at heq
  cases heq

end MyMalloc
