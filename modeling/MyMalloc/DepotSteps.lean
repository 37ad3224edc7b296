import MyMalloc.FreeSteps
import MyMalloc.Run

/-!
# The depot as a transition system

What a complete call does to the depot: `MyMalloc.Depot.Step`. An allocation gets
a superblock into transit from one of five sources (`MyMalloc.Source`) and hands
out a block of it, or fails; a deallocation takes a block back, and may move a
superblock of the heap to the global heap. The invariant of the depot is kept by
every step (`MyMalloc.Depot.Step.inv`).

One of the sources comes with a condition. A superblock from the recycle list of
the global heap is used as it is, although it may be carved for another class;
a step takes it only if its class is the requested one.
-/

namespace MyMalloc

open LinkedList Placement AddressSpace ByteMemory

/-! ### Sources -/

/-- Where `bin_alloc` finds the superblock it allocates from. -/
inductive Source where
  /-- A list of the heap's own bin. -/
  | bin (eidx x : ℕ) : Source
  /-- The heap's own recycle list. -/
  | recycled (x : ℕ) : Source
  /-- A list of the bin of the global heap. -/
  | globalBin (eidx x : ℕ) : Source
  /-- The recycle list of the global heap. -/
  | globalRecycled (x : ℕ) : Source
  /-- There is none: a new superblock is needed. -/
  | new : Source
  deriving DecidableEq, Repr

/-- Whether a source is a list of the heap itself. -/
def Source.Local : Source → Prop
  | .bin .. => True
  | .recycled _ => True
  | .globalBin .. => False
  | .globalRecycled _ => False
  | .new => False

/-- The source `bin_alloc` uses for a heap and a bin. -/
def State.source (s : State) (heap : HeapId) (binIdx : ℕ) : Source :=
  match s.firstNonempty (heap, binIdx) with
  | some (eidx, x) => .bin eidx x
  | none =>
    match s.recycledSuperblock heap with
    | some x => .recycled x
    | none =>
      if 0 < (s.sizeBins (.global, binIdx)).numNonfullSuperblocks then
        match s.firstNonempty (.global, binIdx) with
        | some (eidx, x) => .globalBin eidx x
        | none => .new
      else
        match s.recycledSuperblock .global with
        | some x => .globalRecycled x
        | none => .new

section

variable {s : State} {heap : HeapId} {binIdx x : ℕ}

theorem State.source_recycled (h : s.source heap binIdx = .recycled x) :
    s.recycledSuperblock heap = some x := by
  rw [State.source] at h
  split at h
  · cases h
  split at h
  · rename_i hhead
    rw [hhead, Source.recycled.inj h]
  split at h <;> split at h <;> cases h

theorem State.source_globalRecycled (h : s.source heap binIdx = .globalRecycled x) :
    s.recycledSuperblock .global = some x := by
  rw [State.source] at h
  split at h
  · cases h
  split at h
  · cases h
  split at h <;> split at h
  · cases h
  · cases h
  · rename_i hhead
    rw [hhead, Source.globalRecycled.inj h]
  · cases h

end

namespace Depot

variable {d d' d₁ : Depot} {heap : HeapId} {binIdx x : ℕ}

/-- **The source is there**, and what comes from the recycle list of the global
heap is carved for the class. -/
def Offers (d : Depot) (heap : HeapId) (binIdx : ℕ) : Source → Prop
  | .bin e x => 0 < e ∧ x ∈ d.lists (.bin (heap, binIdx) e)
  | .recycled x => x ∈ d.lists (.recycle heap)
  | .globalBin e x => 0 < e ∧ x ∈ d.lists (.bin (.global, binIdx) e)
  | .globalRecycled x => x ∈ d.lists (.recycle .global) ∧
      (d.core.header x).blockSize = idx2class binIdx
  | .new => True

/-- **The source is there**, whatever class its superblock is carved for. -/
def Present (d : Depot) (heap : HeapId) (binIdx : ℕ) : Source → Prop
  | .bin e x => 0 < e ∧ x ∈ d.lists (.bin (heap, binIdx) e)
  | .recycled x => x ∈ d.lists (.recycle heap)
  | .globalBin e x => 0 < e ∧ x ∈ d.lists (.bin (.global, binIdx) e)
  | .globalRecycled x => x ∈ d.lists (.recycle .global)
  | .new => True

theorem Offers.present {src : Source} (h : d.Offers heap binIdx src) :
    d.Present heap binIdx src := by
  cases src with
  | globalRecycled x => exact h.1
  | _ => exact h

theorem Present.offers {src : Source} (h : d.Present heap binIdx src)
    (hclass : ∀ x, src = .globalRecycled x → (d.core.header x).blockSize = idx2class binIdx) :
    d.Offers heap binIdx src := by
  cases src with
  | globalRecycled x => exact ⟨h, hclass x rfl⟩
  | _ => exact h

/-- **A superblock comes into transit** from its source, and to its heap. -/
inductive Acquires (d : Depot) (heap : HeapId) (binIdx : ℕ) : Source → ℕ → Depot → Prop where
  | bin (e x : ℕ) : Acquires d heap binIdx (.bin e x) x (d.take (.bin (heap, binIdx) e) x)
  | recycled (x : ℕ) :
      Acquires d heap binIdx (.recycled x) x (d.recycle heap x (idx2class binIdx))
  | globalBin (e x : ℕ) : Acquires d heap binIdx (.globalBin e x) x
      ((d.take (.bin (.global, binIdx) e) x).adopt heap x)
  | globalRecycled (x : ℕ) :
      Acquires d heap binIdx (.globalRecycled x) x ((d.popGlobal x).adopt heap x)
  | new (ptr x : ℕ) (c : Core) (hptr : MapsFresh d.core.mapped ptr (2 * superblockSize))
      (hc : d.core.allocateNewSuperblock (some ptr) = (some x, c)) :
      Acquires d heap binIdx .new x (d.create heap x (idx2class binIdx) c)

theorem Acquires.live {src : Source} (h : d.Acquires heap binIdx src x d₁) : d₁.live = d.live := by
  cases h <;> rfl

theorem Acquires.transit {src : Source} (h : d.Acquires heap binIdx src x d₁) :
    d₁.transit = x :: d.transit := by
  cases h <;> rfl

/-- What a superblock in transit must be to hand out a block to a heap. -/
structure Held (d : Depot) (heap : HeapId) (x : ℕ) : Prop where
  inv : d.Inv
  transit : x ∈ d.transit
  owner : (d.core.header x).owner = some heap
  free : (d.core.header x).numFreeBlocks ≠ 0

/-- What a superblock in transit must be to hand out a block of a bin. -/
structure Ready (d : Depot) (heap : HeapId) (binIdx x : ℕ) : Prop where
  inv : d.Inv
  transit : x ∈ d.transit
  owner : (d.core.header x).owner = some heap
  blockSize : (d.core.header x).blockSize = idx2class binIdx
  free : (d.core.header x).numFreeBlocks ≠ 0

/-- A superblock with new statistics, and a new owner. -/
theorem adopt_header (heap : HeapId) (x : ℕ) :
    (d.adopt heap x).core.header x = { d.core.header x with owner := some heap } :=
  Function.update_self ..

/-- A superblock that is carved anew. -/
theorem recycle_header (heap : HeapId) (x sizeClass : ℕ) :
    (d.recycle heap x sizeClass).core.header x = resetSuperblock x sizeClass (d.core.header x) :=
  Function.update_self ..

/-- A superblock that is new. -/
theorem create_header (heap : HeapId) (x sizeClass : ℕ) (c : Core) :
    (d.create heap x sizeClass c).core.header x =
      { resetSuperblock x sizeClass { magic := headerMagic } with owner := some heap } := by
  simp [create, own, fresh, Core.initHeader, Core.setOwner, Core.setHeader, setCore,
    Core.incAlloced, Core.setUsage]

/-- A freshly carved superblock has free blocks. -/
theorem resetSuperblock_free {x binIdx : ℕ} (hb : binIdx < numSizeBins)
    (header : SuperblockHeader) :
    (resetSuperblock x (idx2class binIdx) header).numFreeBlocks ≠ 0 := by
  have hclass := isClass_idx2class hb
  have hpos := hclass.pos
  have hle := hclass.le
  rw [superblockSize_eq, sizeofSuperblockHeader_eq] at hle
  have htwo : 2 ≤ 262016 / idx2class binIdx := by
    rw [Nat.le_div_iff_mul_le (by omega)]
    omega
  have hlt : 262016 / idx2class binIdx ≤ 262016 := Nat.div_le_self _ _
  have hnum : (resetSuperblock x (idx2class binIdx) header).numFreeBlocks =
      262016 / idx2class binIdx % 2 ^ 32 := rfl
  rw [hnum]
  omega

/-- **What is acquired can hand out a block** to the heap, whichever its source. -/
theorem Acquires.held (hd : d.Inv) (hb : binIdx < numSizeBins) {src : Source}
    (hsrc : d.Present heap binIdx src) (h : d.Acquires heap binIdx src x d₁) :
    d₁.Held heap x := by
  cases h with
  | bin e =>
    obtain ⟨he, hx⟩ := hsrc
    exact ⟨hd.take hx, List.mem_cons_self .., (hd.fits _ x hx).1, hd.free_of_bin hx he⟩
  | recycled =>
    refine ⟨hd.recycle hsrc hb, List.mem_cons_self .., ?_, ?_⟩ <;> rw [recycle_header]
    · exact (hd.fits _ x hsrc).1
    · exact resetSuperblock_free hb _
  | globalBin e =>
    obtain ⟨he, hx⟩ := hsrc
    have htransit : x ∈ (d.take (.bin (.global, binIdx) e) x).transit := List.mem_cons_self ..
    refine ⟨(hd.take hx).adopt htransit heap, htransit, ?_, ?_⟩ <;> rw [adopt_header]
    exact hd.free_of_bin hx he
  | globalRecycled =>
    have hx : x ∈ d.lists (.recycle .global) := hsrc
    have htransit : x ∈ (d.popGlobal x).transit := List.mem_cons_self ..
    have hpos := (hd.carved x (hd.lists_known _ x hx)).counted.pos
    have hempty := (hd.fits _ x hx).2
    refine ⟨(hd.popGlobal hx).adopt htransit heap, htransit, ?_, ?_⟩ <;>
      rw [adopt_header, popGlobal_header]
    show (d.core.header x).numFreeBlocks ≠ 0
    omega
  | new ptr x c hptr hc =>
    refine ⟨hd.create hptr hc hb heap, List.mem_cons_self .., ?_, ?_⟩ <;> rw [create_header]
    exact resetSuperblock_free (x := x) hb { magic := headerMagic }

/-- What is acquired is carved for the class. -/
theorem Acquires.blockSize (hd : d.Inv) {src : Source} (hsrc : d.Offers heap binIdx src)
    (h : d.Acquires heap binIdx src x d₁) : (d₁.core.header x).blockSize = idx2class binIdx := by
  cases h with
  | bin e => exact (hd.fits _ x hsrc.2).2.2.1
  | recycled => rw [recycle_header]; rfl
  | globalBin e => rw [adopt_header]; exact (hd.fits _ x hsrc.2).2.2.1
  | globalRecycled => rw [adopt_header, popGlobal_header]; exact hsrc.2
  | new => rw [create_header]; rfl

/-- What is acquired has room for the request, if what comes from the recycle list of
the global heap has. -/
theorem Acquires.size_le (hd : d.Inv) {src : Source} (hsrc : d.Present heap binIdx src)
    (h : d.Acquires heap binIdx src x d₁) {size : ℕ} (hsize : size ≤ idx2class binIdx)
    (hroom : ∀ x, src = .globalRecycled x → size ≤ (d.core.header x).blockSize) :
    size ≤ (d₁.core.header x).blockSize := by
  by_cases hclass : ∀ y, src = .globalRecycled y → (d.core.header y).blockSize = idx2class binIdx
  · rw [h.blockSize hd (hsrc.offers hclass)]
    exact hsize
  · simp only [not_forall] at hclass
    obtain ⟨y, rfl, -⟩ := hclass
    cases h
    rw [adopt_header, popGlobal_header]
    exact hroom x rfl

/-- **What is acquired is ready**: whichever its source, the superblock belongs to
the heap and to the bin, and has a free block. -/
theorem Acquires.ready (hd : d.Inv) (hb : binIdx < numSizeBins) {src : Source}
    (hsrc : d.Offers heap binIdx src) (h : d.Acquires heap binIdx src x d₁) :
    d₁.Ready heap binIdx x := by
  obtain ⟨hinv, htransit, howner, hfree⟩ := h.held hd hb hsrc.present
  exact ⟨hinv, htransit, howner, h.blockSize hd hsrc, hfree⟩

/-! ### Complete calls -/

/-- A superblock in transit hands out a block, is filed, and the request is
counted. -/
def handOut (d : Depot) (heap : HeapId) (binIdx x p : ℕ) (header : SuperblockHeader)
    (size : ℕ) : Depot :=
  let d := (d.serve x p header size).put (.bin (heap, binIdx) (eidxOf header)) x
  d.setCore (d.core.incUsage heap (idx2class binIdx))

/-- A superblock takes a block back and is filed again. -/
def takeBack (d : Depot) (bm : BinPtr) (e x ptr : ℕ) : Depot :=
  ((d.take (.bin bm e) x).release x ptr).put
    (refile bm ((d.core.superblockFree x ptr).header x)) x

/-- A superblock takes a block back, and the heap counts that. -/
def takeBackCounted (d : Depot) (heap : HeapId) (binIdx e x ptr : ℕ) : Depot :=
  let d := d.takeBack (heap, binIdx) e x ptr
  d.setCore (d.core.decUsage heap (idx2class binIdx))

/-- A superblock of a heap moves to the same place of the global heap. -/
def transfer (d : Depot) (heap : HeapId) (place : Option (ℕ × ℕ)) (y : ℕ) : Depot :=
  ((d.take (State.placeIn heap place) y).own y .global).put (State.placeIn .global place) y

/-- A superblock of a heap moves to the global heap, and the heap counts that. -/
def transferCounted (d : Depot) (heap : HeapId) (place : Option (ℕ × ℕ)) (y : ℕ) : Depot :=
  let d := d.transfer heap place y
  d.setCore (d.core.decAlloced heap superblockSize)

theorem takeBack_transit (d : Depot) (bm : BinPtr) (e x ptr : ℕ) :
    (d.takeBack bm e x ptr).transit = d.transit := List.erase_cons_head ..

theorem transfer_transit (d : Depot) (heap : HeapId) (place : Option (ℕ × ℕ)) (y : ℕ) :
    (d.transfer heap place y).transit = d.transit := List.erase_cons_head ..

/-- **The steps of the depot**, by the source an allocation uses. -/
inductive Step (d : Depot) : Source → Op → Depot → Prop where
  /-- A block is handed out. -/
  | served {src : Source} {i size : ℕ} {mmap : Option ℕ} {d₁ : Depot} {x p : ℕ}
      {header : SuperblockHeader} (hsize : size ≤ maxBlockSize)
      (hsrc : d.Offers (.thread i) (binOf size) src)
      (hacquires : d.Acquires (.thread i) (binOf size) src x d₁)
      (hserves : Serves d₁ x p header size) :
      Step d src (.alloc i size mmap) (d₁.handOut (.thread i) (binOf size) x p header size)
  /-- No superblock can be had. The request is counted all the same. -/
  | failed {i size : ℕ} : Step d .new (.alloc i size none)
      (d.setCore (d.core.incUsage (.thread i) (idx2class (binOf size))))
  /-- A block of a superblock of the global heap is freed. -/
  | freedGlobal {src : Source} {ptr binIdx e x : ℕ}
      (hx : x ∈ d.lists (.bin (.global, binIdx) e)) (hptr : ptr ∈ liveIn d.live x) :
      Step d src (.free ptr) (d.takeBack (.global, binIdx) e x ptr)
  /-- A block of a superblock of a thread heap is freed. -/
  | freed {src : Source} {ptr i binIdx e x : ℕ}
      (hx : x ∈ d.lists (.bin (.thread i, binIdx) e)) (hptr : ptr ∈ liveIn d.live x)
      (hkept : isEmptyEnough ((d.takeBackCounted (.thread i) binIdx e x ptr).core.usage
        (.thread i)) = false) :
      Step d src (.free ptr) (d.takeBackCounted (.thread i) binIdx e x ptr)
  /-- The same, and a superblock of the heap moves to the global heap. -/
  | moved {src : Source} {ptr i binIdx e x y : ℕ} {place : Option (ℕ × ℕ)}
      (hx : x ∈ d.lists (.bin (.thread i, binIdx) e)) (hptr : ptr ∈ liveIn d.live x)
      (hempty : isEmptyEnough ((d.takeBackCounted (.thread i) binIdx e x ptr).core.usage
        (.thread i)) = true)
      (hy : y ∈ (d.takeBackCounted (.thread i) binIdx e x ptr).lists
        (State.placeIn (.thread i) place))
      (hplace : place = none ↔
        (d.takeBackCounted (.thread i) binIdx e x ptr).lists (.recycle (.thread i)) ≠ []) :
      Step d src (.free ptr)
        ((d.takeBackCounted (.thread i) binIdx e x ptr).transferCounted (.thread i) place y)
  /-- A client writes into a block. -/
  | wrote {src : Source} {ptr size off : ℕ} {bytes : List UInt8} (hptr : (ptr, size) ∈ d.live)
      (hlen : off + bytes.length ≤ size) : Step d src (.write ptr off bytes)
      (d.setCore { d.core with mem := store d.core.mem (ptr + off) bytes })

/-! ### The invariant is kept -/

theorem Ready.handOut_inv (hd : d.Ready heap binIdx x) (hb : binIdx < numSizeBins) {p size : ℕ}
    {header : SuperblockHeader} (hserves : Serves d x p header size) :
    (d.handOut heap binIdx x p header size).Inv :=
  (hserves.inv_put (heap, binIdx) hd.transit
    (hd.inv.carved x (hd.inv.transit_known x hd.transit)) hd.owner hb hd.blockSize).congr_core
    rfl rfl rfl rfl

theorem Inv.takeBack (hd : d.Inv) {bm : BinPtr} {e ptr : ℕ} (hx : x ∈ d.lists (.bin bm e))
    (hptr : ptr ∈ liveIn d.live x) : (d.takeBack bm e x ptr).Inv :=
  ((hd.take hx).release (List.mem_cons_self ..) hptr).1.put (List.mem_cons_self ..)
    (hd.refile_fits hx hptr)

theorem Inv.takeBackCounted (hd : d.Inv) {e ptr : ℕ} (hx : x ∈ d.lists (.bin (heap, binIdx) e))
    (hptr : ptr ∈ liveIn d.live x) : (d.takeBackCounted heap binIdx e x ptr).Inv :=
  (hd.takeBack hx hptr).congr_core rfl rfl rfl rfl

theorem Inv.transfer (hd : d.Inv) {place : Option (ℕ × ℕ)} {y : ℕ}
    (hy : y ∈ d.lists (State.placeIn heap place)) : (d.transfer heap place y).Inv := by
  have hself : ((d.take (State.placeIn heap place) y).own y .global).core.header y =
      { d.core.header y with owner := some .global } := Function.update_self ..
  refine ((hd.take hy).own (List.mem_cons_self ..) .global).put (List.mem_cons_self ..) ?_
  rw [hself]
  exact State.fits_global (hd.fits _ y hy)

/-- **Every step keeps the invariant.** -/
theorem Step.inv {src : Source} {op : Op} (hd : d.Inv) (h : d.Step src op d') : d'.Inv := by
  cases h with
  | served hsize hsrc hacquires hserves =>
    exact (hacquires.ready hd (binOf_lt hsize) hsrc).handOut_inv (binOf_lt hsize) hserves
  | failed => exact hd.congr_core rfl rfl rfl rfl
  | freedGlobal hx hptr => exact hd.takeBack hx hptr
  | freed hx hptr => exact hd.takeBackCounted hx hptr
  | moved hx hptr hempty hy =>
    exact ((hd.takeBackCounted hx hptr).transfer hy).congr_core rfl rfl rfl rfl
  | wrote hptr hlen => exact hd.write hptr hlen

end Depot

end MyMalloc
