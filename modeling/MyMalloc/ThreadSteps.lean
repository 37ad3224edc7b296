import MyMalloc.Interleaving
import MyMalloc.Simulation

/-!
# What the threads know of the depot

The steps of a thread (`MyMalloc.State.advance`), each as what it does to the
depot. What a thread relies on at a point is `MyMalloc.Depot.At`: the superblock
it has in hand is in transit, its block is live, and the headers say what it has
read from them. What a step does to the others is `MyMalloc.Depot.Frame`: the
superblocks in other hands and the blocks of others stay as they are, and a
superblock with a live block keeps its class and – unless it was in the hands of
the thread – its owner. A step leaves the other threads what they rely on
(`MyMalloc.Depot.At.frame`).
-/

namespace MyMalloc

open LinkedList Placement AddressSpace Depot

/-! ### The threads -/

namespace Pc

/-- The superblock a thread has in hand: taken out of a list, or new, and not
filed yet. -/
def hand : Pc → Option ℕ
  | .globalUnlock _ _ found => found
  | .allocOwn _ _ x _ => some x
  | .allocFrom _ _ x _ => some x
  | .moveLock _ _ y _ => some y
  | .movePut _ _ y _ => some y
  | _ => none

/-- The superblock in hand, as long as its new owner is not assigned. -/
def taken : Pc → Option ℕ
  | .globalUnlock _ _ found => found
  | .allocOwn _ _ x _ => some x
  | .moveLock _ _ y _ => some y
  | .movePut _ _ y _ => some y
  | _ => none

/-- The superblock whose owner a thread has read and goes by. -/
def awaited : Pc → Option ℕ
  | .freeLock ptr .. => some (superblockOf ptr)
  | .freeBin ptr .. => some (superblockOf ptr)
  | _ => none

/-- The live block a thread is about to return or to free. -/
def block : Pc → Option ℕ
  | .allocUnlock _ _ retPtr => retPtr
  | .freeLockSuperblock ptr => some ptr
  | .freeOwner ptr => some ptr
  | .freeLock ptr .. => some ptr
  | .freeBin ptr .. => some ptr
  | _ => none

/-- The block a thread takes back in its next step. -/
def frees : Pc → Option ℕ
  | .freeBin ptr .. => some ptr
  | _ => none

/-- The points where a thread does nothing but lock, unlock and read. -/
def Passive : Pc → Prop
  | .allocLock .. => True
  | .globalLock .. => True
  | .globalUnlock .. => True
  | .allocUnlock .. => True
  | .freeLockSuperblock _ => True
  | .freeOwner _ => True
  | .freeLock .. => True
  | .moveLock .. => True
  | .moveUnlock .. => True
  | .freeUnlock .. => True
  | .freeUnlockSuperblock _ => True
  | _ => False

theorem block_of_frees {pc : Pc} {p : ℕ} (h : pc.frees = some p) : pc.block = some p := by
  cases pc <;> first | exact h | cases h

/-- A thread frees the block in the superblock whose owner it goes by. -/
theorem block_of_awaited {pc : Pc} {x : ℕ} (h : pc.awaited = some x) :
    ∃ p, pc.block = some p ∧ superblockOf p = x := by
  cases pc with
  | freeLock ptr => exact ⟨ptr, rfl, Option.some.inj h⟩
  | freeBin ptr => exact ⟨ptr, rfl, Option.some.inj h⟩
  | _ => cases h

end Pc

namespace Depot

variable {d d' : Depot} {pc pc' q : Pc} {x : ℕ}

/-- A superblock that can serve a request. -/
def Suits (d : Depot) (size x : ℕ) : Prop :=
  (d.core.header x).blockSize = idx2class (binOf size) ∧ (d.core.header x).numFreeBlocks ≠ 0

/-- **What a thread has made sure of**, or read, at its point. -/
def Knows (d : Depot) : Pc → Prop
  | .allocLock _ size => size ≤ maxBlockSize
  | .allocLocal _ size => size ≤ maxBlockSize
  | .globalLock _ size => size ≤ maxBlockSize
  | .globalFetch _ size => size ≤ maxBlockSize
  | .globalUnlock _ size found => size ≤ maxBlockSize ∧ ∀ x, found = some x → d.Suits size x
  | .allocNew _ size => size ≤ maxBlockSize
  | .allocOwn _ size x _ => size ≤ maxBlockSize ∧ d.Suits size x
  | .allocFrom i size x _ => size ≤ maxBlockSize ∧ d.Suits size x ∧
      (d.core.header x).owner = some (.thread i)
  | .allocUnlock _ size retPtr => ∀ p, retPtr = some p → (p, size) ∈ d.live
  | .freeLock ptr sizeClass heap => (d.core.header (superblockOf ptr)).blockSize = sizeClass ∧
      (d.core.header (superblockOf ptr)).owner = some heap
  | .freeBin ptr sizeClass heap => (d.core.header (superblockOf ptr)).blockSize = sizeClass ∧
      (d.core.header (superblockOf ptr)).owner = some heap
  | .moveLock _ i y place => Fits (d.core.header y) (State.placeIn (.thread i) place)
  | .movePut _ i y place => Fits (d.core.header y) (State.placeIn (.thread i) place)
  | _ => True

/-- **What a thread relies on** at its point. -/
structure At (d : Depot) (pc : Pc) : Prop where
  hand : ∀ x, pc.hand = some x → x ∈ d.transit
  block : ∀ p, pc.block = some p → ∃ n, (p, n) ∈ d.live
  knows : d.Knows pc

/-- **What the others see of a step** that takes a thread from one point to
another. -/
structure Frame (d d' : Depot) (pc pc' : Pc) : Prop where
  transit : ∀ x ∈ d.transit, pc.hand ≠ some x → x ∈ d'.transit
  hands : ∀ x ∈ d'.transit, pc'.hand = some x ∨ x ∈ d.transit ∧ pc.hand ≠ some x
  fresh : ∀ x, pc'.hand = some x → x ∈ d.transit → pc.hand = some x
  header : ∀ x ∈ d.transit, pc.hand ≠ some x → d'.core.header x = d.core.header x
  carving : ∀ x, liveIn d.live x ≠ [] → pc.taken ≠ some x →
    (d'.core.header x).owner = (d.core.header x).owner ∧
      (d'.core.header x).blockSize = (d.core.header x).blockSize
  live : ∀ b ∈ d.live, pc.frees ≠ some b.1 → b ∈ d'.live

/-- A superblock with a live block has live blocks. -/
theorem At.liveIn_ne_nil (h : d.At q) (hx : q.awaited = some x) : liveIn d.live x ≠ [] := by
  obtain ⟨p, hp, rfl⟩ := Pc.block_of_awaited hx
  obtain ⟨n, hn⟩ := h.block p hp
  exact List.ne_nil_of_mem (Inv.mem_liveIn hn)

/-- **A step leaves the other threads what they rely on**: those that have other
superblocks in hand, work on other blocks, and go by no owner the thread is about
to assign. -/
theorem At.frame (h : d.At q) (hf : Frame d d' pc pc')
    (hhand : ∀ x, q.hand = some x → pc.hand ≠ some x)
    (hblock : ∀ p, q.block = some p → pc.block ≠ some p)
    (hawaited : ∀ x, q.awaited = some x → pc.taken ≠ some x) : d'.At q where
  hand x hx := hf.transit x (h.hand x hx) (hhand x hx)
  block p hp := by
    obtain ⟨n, hn⟩ := h.block p hp
    exact ⟨n, hf.live _ hn fun hc => hblock p hp (Pc.block_of_frees hc)⟩
  knows := by
    have hheader : ∀ x, q.hand = some x → d'.core.header x = d.core.header x :=
      fun x hx => hf.header x (h.hand x hx) (hhand x hx)
    have hcarving : ∀ x, q.awaited = some x →
        (d'.core.header x).owner = (d.core.header x).owner ∧
          (d'.core.header x).blockSize = (d.core.header x).blockSize :=
      fun x hx => hf.carving x (h.liveIn_ne_nil hx) (hawaited x hx)
    have hknows := h.knows
    cases q with
    | globalUnlock i size found =>
      refine ⟨hknows.1, fun x hx => ?_⟩
      rw [Suits, hheader x hx]
      exact hknows.2 x hx
    | allocOwn i size x new =>
      rw [Knows, Suits, hheader x rfl]
      exact hknows
    | allocFrom i size x new =>
      rw [Knows, Suits, hheader x rfl]
      exact hknows
    | allocUnlock i size retPtr =>
      exact fun p hp => hf.live _ (hknows p hp) fun hc => hblock p hp (Pc.block_of_frees hc)
    | freeLock ptr sizeClass heap =>
      rw [Knows, (hcarving _ rfl).1, (hcarving _ rfl).2]
      exact hknows
    | freeBin ptr sizeClass heap =>
      rw [Knows, (hcarving _ rfl).1, (hcarving _ rfl).2]
      exact hknows
    | moveLock ptr i y place =>
      rw [Knows, hheader y rfl]
      exact hknows
    | movePut ptr i y place =>
      rw [Knows, hheader y rfl]
      exact hknows
    | _ => exact hknows

/-! ### Superblocks at work -/

/-- A depot in which one superblock has been worked on: its class and its owner
stay unless it has no live block. -/
structure Turns (d d' : Depot) (x : ℕ) : Prop where
  header : ∀ y, y ≠ x → d'.core.header y = d.core.header y
  carving : liveIn d.live x ≠ [] → (d'.core.header x).owner = (d.core.header x).owner ∧
    (d'.core.header x).blockSize = (d.core.header x).blockSize

theorem Turns.of_header_eq (h : d'.core.header = d.core.header) : d.Turns d' x where
  header y _ := by rw [h]
  carving _ := by rw [h]; exact ⟨rfl, rfl⟩

theorem Turns.trans {d₁ : Depot} (h : d.Turns d₁ x) (h' : d₁.Turns d' x)
    (hlive : d₁.live = d.live) : d.Turns d' x where
  header y hy := (h'.header y hy).trans (h.header y hy)
  carving hne := by
    obtain ⟨howner, hclass⟩ := h.carving hne
    obtain ⟨howner', hclass'⟩ := h'.carving (hlive ▸ hne)
    exact ⟨howner'.trans howner, hclass'.trans hclass⟩

/-- The superblocks in other hands are not worked on. -/
theorem Turns.header_eq (h : d.Turns d' x) (hx : x ∈ d.transit → pc.hand = some x) :
    ∀ y ∈ d.transit, pc.hand ≠ some y → d'.core.header y = d.core.header y := by
  rintro y hy hne
  refine h.header y ?_
  rintro rfl
  exact hne (hx hy)

theorem Turns.carving_eq (h : d.Turns d' x) : ∀ y, liveIn d.live y ≠ [] →
    (d'.core.header y).owner = (d.core.header y).owner ∧
      (d'.core.header y).blockSize = (d.core.header y).blockSize := by
  intro y hy
  by_cases hyx : y = x
  · subst hyx
    exact h.carving hy
  · rw [h.header y hyx]
    exact ⟨rfl, rfl⟩

/-- A superblock of the heap's own lists is in no hands, and only an empty one is
carved again. -/
theorem Acquires.turns (hd : d.Inv) {heap : HeapId} {b : ℕ} {src : Source} (hlocal : src.Local)
    (hsrc : d.Offers heap b src) (h : d.Acquires heap b src x d') :
    d.Turns d' x ∧ x ∉ d.transit := by
  cases h with
  | bin e => exact ⟨.of_header_eq rfl, fun hc => hd.transit_nowhere x hc _ hsrc.2⟩
  | recycled =>
    refine ⟨⟨fun y hy => Function.update_of_ne hy .., fun hne => ?_⟩,
      fun hc => hd.transit_nowhere x hc _ hsrc⟩
    exact absurd (hd.empty_of_recycle hsrc) hne
  | globalBin => exact hlocal.elim
  | globalRecycled => exact hlocal.elim
  | new => exact hlocal.elim

/-- Taking a block back leaves the class and the owner of the superblock. -/
theorem Turns.takeBack (hd : d.Inv) {bm : BinPtr} {e ptr : ℕ} (hx : x ∈ d.lists (.bin bm e))
    (hptr : ptr ∈ liveIn d.live x) : d.Turns (d.takeBack bm e x ptr) x where
  header y hy := by
    simp only [Depot.takeBack, put, release, Core.superblockFree, Core.setHeader]
    exact Function.update_of_ne hy ..
  carving _ := by
    obtain ⟨-, hsame, -⟩ := (hd.take hx).release (List.mem_cons_self ..) hptr
    exact ⟨hsame.owner, hsame.blockSize⟩

/-! ### What a step does -/

/-- A superblock in hand is counted: a new one by its size, one of the global heap with
its blocks in use as well. -/
def countedIn (d : Depot) (i x : ℕ) (new : Bool) : Depot :=
  d.setCore (if new then d.core.incAlloced (.thread i) superblockSize
    else d.core.countIn (.thread i) x)

/-- **What a step of a thread does to the depot**, by the point it leaves and the source
it takes a superblock from. -/
inductive ThreadStep (d : Depot) : Source → Pc → Pc → Depot → Prop where
  | passive {src : Source} {pc pc' : Pc} (hnext : pc.Next pc.action pc') (hpc : pc.Passive) :
      ThreadStep d src pc pc' d
  /-- A superblock of the heap's own lists hands out a block. -/
  | served {src : Source} {i size x p : ℕ} {d₁ : Depot} {header : SuperblockHeader}
      (hsize : size ≤ maxBlockSize) (hlocal : src.Local)
      (hsrc : d.Offers (.thread i) (binOf size) src)
      (hacquires : d.Acquires (.thread i) (binOf size) src x d₁)
      (hserves : Serves d₁ x p header size) :
      ThreadStep d src (.allocLocal i size) (.allocUnlock i size (some p))
        (d₁.handOut (.thread i) (binOf size) x p header size)
  /-- The heap has none. -/
  | notServed {src : Source} {i size : ℕ} :
      ThreadStep d src (.allocLocal i size) (.globalLock i size) d
  | fetchedBin {i size e x : ℕ} (he : 0 < e) (hx : x ∈ d.lists (.bin (.global, binOf size) e)) :
      ThreadStep d (.globalBin e x) (.globalFetch i size) (.globalUnlock i size (some x))
        (d.take (.bin (.global, binOf size) e) x)
  | fetchedRecycled {i size x : ℕ} {l : List ℕ} (hx : d.lists (.recycle .global) = x :: l) :
      ThreadStep d (.globalRecycled x) (.globalFetch i size) (.globalUnlock i size (some x))
        (d.popGlobal x)
  /-- The global heap has none either. -/
  | notFetched {src : Source} {i size : ℕ} :
      ThreadStep d src (.globalFetch i size) (.globalUnlock i size none) d
  | mapped {src : Source} {i size ptr x : ℕ} {c : Core} (hsize : size ≤ maxBlockSize)
      (hptr : MapsFresh d.core.mapped ptr (2 * superblockSize))
      (hc : d.core.allocateNewSuperblock (some ptr) = (some x, c)) :
      ThreadStep d src (.allocNew i size) (.allocOwn i size x true)
        (d.fresh x (idx2class (binOf size)) c)
  /-- `mmap` has failed. The request is counted all the same. -/
  | notMapped {src : Source} {i size : ℕ} :
      ThreadStep d src (.allocNew i size) (.allocUnlock i size none)
        (d.setCore (d.core.incUsage (.thread i) (idx2class (binOf size))))
  | owned {src : Source} {i size x : ℕ} {new : Bool} :
      ThreadStep d src (.allocOwn i size x new) (.allocFrom i size x new) (d.own x (.thread i))
  /-- A superblock in hand hands out a block and is filed. -/
  | filed {src : Source} {i size x p : ℕ} {new : Bool} {header : SuperblockHeader}
      (hsize : size ≤ maxBlockSize)
      (hready : (d.countedIn i x new).Ready (.thread i) (binOf size) x)
      (hserves : Serves (d.countedIn i x new) x p header size) :
      ThreadStep d src (.allocFrom i size x new) (.allocUnlock i size (some p))
        ((d.countedIn i x new).handOut (.thread i) (binOf size) x p header size)
  | freedGlobal {src : Source} {ptr b e : ℕ}
      (hx : superblockOf ptr ∈ d.lists (.bin (.global, b) e))
      (hptr : ptr ∈ liveIn d.live (superblockOf ptr)) :
      ThreadStep d src (.freeBin ptr (idx2class b) .global) (.freeUnlock ptr .global)
        (d.takeBack (.global, b) e (superblockOf ptr) ptr)
  | freed {src : Source} {ptr i b e : ℕ}
      (hx : superblockOf ptr ∈ d.lists (.bin (.thread i, b) e))
      (hptr : ptr ∈ liveIn d.live (superblockOf ptr))
      (hkept : isEmptyEnough ((d.takeBackCounted (.thread i) b e (superblockOf ptr) ptr).core.usage
        (.thread i)) = false) :
      ThreadStep d src (.freeBin ptr (idx2class b) (.thread i)) (.freeUnlock ptr (.thread i))
        (d.takeBackCounted (.thread i) b e (superblockOf ptr) ptr)
  /-- A block is freed, and a superblock of the heap taken out for transfer. -/
  | taken {src : Source} {ptr i b e y : ℕ} {place : Option (ℕ × ℕ)}
      (hx : superblockOf ptr ∈ d.lists (.bin (.thread i, b) e))
      (hptr : ptr ∈ liveIn d.live (superblockOf ptr))
      (hempty : isEmptyEnough ((d.takeBackCounted (.thread i) b e (superblockOf ptr) ptr).core.usage
        (.thread i)) = true)
      (hy : y ∈ (d.takeBackCounted (.thread i) b e (superblockOf ptr) ptr).lists
        (State.placeIn (.thread i) place)) :
      ThreadStep d src (.freeBin ptr (idx2class b) (.thread i)) (.moveLock ptr i y place)
        ((d.takeBackCounted (.thread i) b e (superblockOf ptr) ptr).take
          (State.placeIn (.thread i) place) y)
  | moved {src : Source} {ptr i y : ℕ} {place : Option (ℕ × ℕ)} :
      ThreadStep d src (.movePut ptr i y place) (.moveUnlock ptr i)
        ((d.own y .global).put (State.placeIn .global place) y)
  | counted {src : Source} {ptr i : ℕ} :
      ThreadStep d src (.moveCount ptr i) (.freeUnlock ptr (.thread i))
        (d.setCore (d.core.decAlloced (.thread i) superblockSize))

/-! ### Frames -/

/-- A step that is of no concern to the others. -/
theorem Frame.still {c : Core} (hheader : c.header = d.core.header) (hhand : pc'.hand = pc.hand) :
    Frame d (d.setCore c) pc pc' where
  transit x hx _ := hx
  hands x hx := by
    by_cases h : pc.hand = some x
    · exact Or.inl (hhand.trans h)
    · exact Or.inr ⟨hx, h⟩
  fresh x hx _ := hhand ▸ hx
  header x _ _ := congrFun hheader x
  carving x _ _ := by
    have hx : (d.setCore c).core.header x = d.core.header x := congrFun hheader x
    rw [hx]
    exact ⟨rfl, rfl⟩
  live b hb _ := hb

/-- A superblock comes into the hands of a thread. -/
theorem Frame.grab (hx : x ∉ d.transit) (htransit : d'.transit = x :: d.transit)
    (hpc : pc.hand = none) (hpc' : pc'.hand = some x)
    (hheader : ∀ y ∈ d.transit, d'.core.header y = d.core.header y)
    (hcarving : ∀ y, liveIn d.live y ≠ [] →
      (d'.core.header y).owner = (d.core.header y).owner ∧
        (d'.core.header y).blockSize = (d.core.header y).blockSize)
    (hlive : ∀ b ∈ d.live, pc.frees ≠ some b.1 → b ∈ d'.live) : Frame d d' pc pc' where
  transit y hy _ := htransit ▸ List.mem_cons_of_mem x hy
  hands y hy := by
    rw [htransit] at hy
    rcases List.mem_cons.mp hy with rfl | hy
    · exact Or.inl hpc'
    · exact Or.inr ⟨hy, by rw [hpc]; exact (Option.some_ne_none y).symm⟩
  fresh y hy hmem := by
    obtain rfl := Option.some.inj (hpc'.symm.trans hy)
    exact absurd hmem hx
  header y hy _ := hheader y hy
  carving y hy _ := hcarving y hy
  live := hlive

/-- A superblock leaves the hands of a thread. -/
theorem Frame.file (hd : d.Inv) (htransit : d'.transit = d.transit.erase x)
    (hpc : pc.hand = some x) (hpc' : pc'.hand = none)
    (hheader : ∀ y, y ≠ x → d'.core.header y = d.core.header y)
    (hcarving : pc.taken ≠ some x → (d'.core.header x).owner = (d.core.header x).owner ∧
        (d'.core.header x).blockSize = (d.core.header x).blockSize)
    (hlive : ∀ b ∈ d.live, b ∈ d'.live) : Frame d d' pc pc' where
  transit y hy hne := by
    rw [htransit]
    refine (List.mem_erase_of_ne ?_).mpr hy
    rintro rfl
    exact hne hpc
  hands y hy := by
    rw [htransit, hd.transit_nodup.mem_erase_iff] at hy
    refine Or.inr ⟨hy.2, fun hc => hy.1 ?_⟩
    exact Option.some.inj (hc.symm.trans hpc)
  fresh y hy := by
    rw [hpc'] at hy
    cases hy
  header y _ hne := by
    refine hheader y ?_
    rintro rfl
    exact hne hpc
  carving y _ hne := by
    by_cases hyx : y = x
    · subst hyx
      exact hcarving hne
    · rw [hheader y hyx]
      exact ⟨rfl, rfl⟩
  live b hb _ := hlive b hb

/-- A superblock on a list is worked on, and nothing comes into hands. -/
theorem Frame.work (h : d.Turns d' x) (hx : x ∉ d.transit) (htransit : d'.transit = d.transit)
    (hpc : pc.hand = none) (hpc' : pc'.hand = none)
    (hlive : ∀ b ∈ d.live, pc.frees ≠ some b.1 → b ∈ d'.live) : Frame d d' pc pc' where
  transit y hy _ := htransit ▸ hy
  hands y hy := by
    rw [htransit] at hy
    exact Or.inr ⟨hy, by rw [hpc]; exact (Option.some_ne_none y).symm⟩
  fresh y hy := by
    rw [hpc'] at hy
    cases hy
  header := h.header_eq fun hc => absurd hc hx
  carving y hy _ := h.carving_eq y hy
  live := hlive

end Depot

/-- A block that is handed out was not live. -/
theorem Serves.not_mem {d : Depot} {x p size : ℕ} {header : SuperblockHeader}
    (h : Serves d x p header size) (n : ℕ) : (p, n) ∉ d.live :=
  fun hc => h.notLive (mem_liveIn.mpr ⟨⟨n, hc⟩, h.superblockOf⟩)

/-- Handing out a block leaves the class and the owner of the superblock. -/
theorem Serves.turns {d : Depot} {x p size : ℕ} {header : SuperblockHeader}
    (h : Serves d x p header size) (heap : HeapId) (b : ℕ) :
    d.Turns (d.handOut heap b x p header size) x where
  header y hy := Function.update_of_ne hy ..
  carving _ := by
    have hself : (d.handOut heap b x p header size).core.header x = header :=
      Function.update_self ..
    rw [hself]
    exact ⟨h.same.owner, h.same.blockSize⟩

/-! ### Steps -/

namespace State

variable {s s' : State} {d : Depot} {mmap : Option ℕ} {pc pc' : Pc}

/-- The source a thread takes a superblock from at a point. -/
def sourceAt (s : State) : Pc → Source
  | .allocLocal i size => s.source (.thread i) (binOf size)
  | .globalFetch _ size =>
    if 0 < (s.sizeBins (.global, binOf size)).numNonfullSuperblocks then
      match s.firstNonempty (.global, binOf size) with
      | some (eidx, x) => .globalBin eidx x
      | none => .new
    else
      match s.recycledSuperblock .global with
      | some x => .globalRecycled x
      | none => .new
  | _ => .new

/-- **A thread takes a step** from a point: the allocator meets no fault, the
thread has what it relies on at its next point, the others see a frame, a block the
thread comes by was not live, and the depot changes as the step says. -/
def Takes (s : State) (d : Depot) (mmap : Option ℕ) (pc : Pc) : Prop :=
  ∃ pc' s' d', s.advance mmap pc = some (pc', s') ∧ Refines s' d' ∧ d'.Inv ∧ d'.At pc' ∧
    Frame d d' pc pc' ∧
    (∀ p, pc'.block = some p → pc.block = some p ∨ ∀ n, (p, n) ∉ d.live) ∧
    d.ThreadStep (s.sourceAt pc) pc pc' d'

/-- The superblock in hand is in transit. -/
theorem mem_cons_of_some_eq {x y : ℕ} {l : List ℕ} (h : some x = some y) : y ∈ x :: l := by
  obtain rfl := Option.some.inj h
  exact List.mem_cons_self ..

/-- A step that is of no concern to the others. -/
theorem takes_still (hR : Refines s d) (hd : d.Inv) (h : d.At pc) (pc' : Pc)
    (hadv : s.advance mmap pc = some (pc', s)) (hhand : pc'.hand = pc.hand)
    (hblock : ∀ p, pc'.block = some p → pc.block = some p) (hknows : d.Knows pc')
    (hstep : d.ThreadStep (s.sourceAt pc) pc pc' d) : s.Takes d mmap pc :=
  ⟨pc', s, d, hadv, hR, hd,
    ⟨fun x hx => h.hand x (hhand ▸ hx), fun p hp => h.block p (hblock p hp), hknows⟩,
    Frame.still (c := d.core) rfl hhand, fun p hp => Or.inl (hblock p hp), hstep⟩

/-- A step in which a thread locks, unlocks or reads. -/
theorem takes_passive (hR : Refines s d) (hd : d.Inv) (h : d.At pc) (hpc : pc.Passive) (pc' : Pc)
    (hadv : s.advance mmap pc = some (pc', s)) (hhand : pc'.hand = pc.hand)
    (hblock : ∀ p, pc'.block = some p → pc.block = some p) (hknows : d.Knows pc') :
    s.Takes d mmap pc :=
  takes_still hR hd h pc' hadv hhand hblock hknows (.passive (advance_next hadv) hpc)

/-- `bin_alloc`, the search of the heap's own lists. -/
theorem takes_allocLocal (hR : Refines s d) (hd : d.Inv) {i size : ℕ}
    (h : d.At (.allocLocal i size)) : s.Takes d mmap (.allocLocal i size) := by
  have hsize : size ≤ maxBlockSize := h.knows
  have hb := binOf_lt hsize
  rcases binAllocLocal_serves hR hd (.thread i) hb (le_idx2class_binOf hsize) with
    ⟨x, inBin, d₁, p, header, s₁, s', hlocal, hoffers, hacquires, hserves, hsearch, hfrom, hR'⟩ |
      ⟨-, -, hsearch⟩
  · -- The heap has a superblock of its own, and the search and the allocation are one step.
    obtain ⟨hturns, hx⟩ := hacquires.turns hd hlocal hoffers
    have hready := hacquires.ready hd hb hoffers
    have hlive : (d₁.handOut (.thread i) (binOf size) x p header size).live =
        (p, size) :: d.live := by
      rw [← hacquires.live]
      rfl
    have hadv : s.advance mmap (.allocLocal i size) = some (.allocUnlock i size (some p),
        s'.setCore (s'.toCore.incUsage (.thread i) (idx2class (binOf size)))) := by
      simp only [advance, MyMalloc.size2idx_eq, Option.bind_eq_bind, Option.bind_some, hsearch,
        hfrom]
      rfl
    refine ⟨_, _, d₁.handOut (.thread i) (binOf size) x p header size, hadv,
      ⟨by rw [hR'.core]; rfl, hR'.represents.setCore _⟩, hready.handOut_inv hb hserves,
      ⟨fun _ => nofun, fun q hq => ?_, fun q hq => ?_⟩,
      .work (hturns.trans (hserves.turns _ _) hacquires.live) hx ?_ rfl rfl fun b hb _ => ?_,
      fun q hq => Or.inr fun n hn => ?_, .served hsize hlocal hoffers hacquires hserves⟩
    · obtain rfl := Option.some.inj hq
      exact ⟨size, hlive ▸ List.mem_cons_self ..⟩
    · obtain rfl := Option.some.inj hq
      exact hlive ▸ List.mem_cons_self ..
    · show d₁.transit.erase x = d.transit
      rw [hacquires.transit, List.erase_cons_head]
    · exact hlive ▸ List.mem_cons_of_mem _ hb
    · obtain rfl := Option.some.inj hq
      exact hserves.not_mem n (hacquires.live ▸ hn)
  · refine takes_still hR hd h (.globalLock i size) ?_ rfl (fun _ hp => hp) hsize .notServed
    simp only [advance, MyMalloc.size2idx_eq, Option.bind_eq_bind, Option.bind_some, hsearch]
    rfl

/-- What `get_sb_from_global` takes from the recycle list is carved for the class. -/
def FetchMatches (s : State) (binIdx : ℕ) : Prop :=
  (s.sizeBins (.global, binIdx)).numNonfullSuperblocks = 0 →
    ∀ x ∈ s.recycledSuperblock .global, (s.header x).blockSize = idx2class binIdx

instance (s : State) (binIdx : ℕ) : Decidable (s.FetchMatches binIdx) :=
  inferInstanceAs (Decidable (_ → _))

/-- `get_sb_from_global`, the search of the global heap. -/
theorem takes_globalFetch (hR : Refines s d) (hd : d.Inv) {i size : ℕ}
    (h : d.At (.globalFetch i size)) (hmatch : s.FetchMatches (binOf size)) :
    s.Takes d mmap (.globalFetch i size) := by
  have hsize : size ≤ maxBlockSize := h.knows
  have hb := binOf_lt hsize
  have hadv : ∀ {found s'}, s.getSbFromGlobal (idx2class (binOf size)) = some (found, s') →
      s.advance mmap (.globalFetch i size) = some (.globalUnlock i size found, s') := by
    rintro found s' hglobal
    simp only [advance, MyMalloc.size2idx_eq, Option.bind_eq_bind, Option.bind_some, hglobal]
    rfl
  have hcount := hR.represents.count (.global, binOf size)
  rcases getSbFromGlobal_spec hR hd hb with
    ⟨e, x, s', hpos, hfound, he, -, hx, hglobal, hR'⟩ | ⟨x, l, s', hzero, hl, hglobal, hR'⟩ |
      ⟨-, -, hglobal⟩
  · have hsrc : s.sourceAt (.globalFetch i size) = .globalBin e x := by
      rw [sourceAt, if_pos (by omega), hfound]
    refine ⟨_, s', _, hadv hglobal, hR', hd.take hx,
      ⟨fun _ => mem_cons_of_some_eq, fun _ => nofun, hsize, ?_⟩,
      .grab (fun hc => hd.transit_nowhere x hc _ hx) rfl rfl rfl (fun _ _ => rfl)
        (fun _ _ => ⟨rfl, rfl⟩) fun _ hb _ => hb, fun _ => nofun, hsrc ▸ .fetchedBin he hx⟩
    rintro y hy
    obtain rfl := Option.some.inj hy
    exact ⟨(hd.fits _ x hx).2.2.1, hd.free_of_bin hx he⟩
  · -- What comes from the recycle list is empty, and carved for the class by assumption.
    have hx : x ∈ d.lists (.recycle .global) := hl ▸ List.mem_cons_self ..
    have hheader := d.popGlobal_header x
    have hhead := hR.represents.head_recycle .global
    rw [hl, List.head?_cons] at hhead
    have hsrc : s.sourceAt (.globalFetch i size) = .globalRecycled x := by
      rw [sourceAt, if_neg (by omega), hhead]
    have hclass : (d.core.header x).blockSize = idx2class (binOf size) :=
      hR.core ▸ hmatch (hcount.trans hzero) x hhead
    have hcounted := (hd.carved x (hd.lists_known _ x hx)).counted
    have hempty := (hd.fits _ x hx).2
    have hpos := hcounted.pos
    refine ⟨_, s', _, hadv hglobal, hR', hd.popGlobal hx,
      ⟨fun _ => mem_cons_of_some_eq, fun _ => nofun, hsize, ?_⟩,
      .grab (fun hc => hd.transit_nowhere x hc _ hx) rfl rfl rfl (fun y _ => by rw [hheader])
        (fun y _ => by rw [hheader]; exact ⟨rfl, rfl⟩) fun _ hb _ => hb, fun _ => nofun,
      hsrc ▸ .fetchedRecycled hl⟩
    rintro y hy
    obtain rfl := Option.some.inj hy
    rw [Suits, hheader]
    exact ⟨hclass, by omega⟩
  · exact takes_still hR hd h _ (hadv hglobal) rfl (fun _ hp => hp) ⟨hsize, fun _ => nofun⟩
      .notFetched

/-- Without a mapping the thread goes on with the null pointer, its heap charged. -/
theorem advance_allocNew_none {i size : ℕ} : s.advance none (.allocNew i size) =
    some (.allocUnlock i size none,
      s.setCore (s.toCore.incUsage (.thread i) (idx2class (binOf size)))) := by
  simp only [advance, MyMalloc.size2idx_eq, Option.bind_eq_bind, Option.bind_some,
    initSuperblock, Core.allocateNewSuperblock]
  rfl

/-- `bin_alloc`, when a new superblock is needed and the mapping fails. -/
theorem takes_allocNew_none (hR : Refines s d) (hd : d.Inv) {i size : ℕ} :
    s.Takes d none (.allocNew i size) :=
  ⟨_, _, d.setCore (d.core.incUsage (.thread i) (idx2class (binOf size))), advance_allocNew_none,
    ⟨by rw [hR.core]; rfl, hR.represents.setCore _⟩, hd.congr_core rfl rfl rfl rfl,
    ⟨fun _ => nofun, fun _ => nofun, fun _ => nofun⟩, .still rfl rfl, fun _ => nofun, .notMapped⟩

/-- `bin_alloc`, when a new superblock is needed. -/
theorem takes_allocNew (hR : Refines s d) (hd : d.Inv) {i size : ℕ}
    (h : d.At (.allocNew i size))
    (hmmap : ∀ ptr ∈ mmap, MapsFresh d.core.mapped ptr (2 * superblockSize)) :
    s.Takes d mmap (.allocNew i size) := by
  have hsize : size ≤ maxBlockSize := h.knows
  have hb := binOf_lt hsize
  cases mmap with
  | none => exact takes_allocNew_none hR hd
  | some ptr =>
    have hptr := hmmap ptr rfl
    obtain ⟨x, c, s', hc, hinit, hR'⟩ := initSuperblock_spec hR hd hptr hb
    have hnew := hd.not_mem_of_fresh hptr hc
    have hheader : ∀ y, y ≠ x → (d.fresh x (idx2class (binOf size)) c).core.header y =
        d.core.header y := by
      rintro y hy
      rw [← (Core.allocateNewSuperblock_frame hc).2.1]
      exact Function.update_of_ne hy ..
    have hself : (d.fresh x (idx2class (binOf size)) c).core.header x =
        MyMalloc.resetSuperblock x (idx2class (binOf size)) { magic := headerMagic } :=
      Function.update_self ..
    have hadv : s.advance (some ptr) (.allocNew i size) = some (.allocOwn i size x true, s') := by
      simp only [advance, MyMalloc.size2idx_eq, Option.bind_eq_bind, Option.bind_some, hinit]
      rfl
    refine ⟨_, s', _, hadv, hR', hd.fresh hptr hc hb,
      ⟨fun _ => mem_cons_of_some_eq, fun _ => nofun, hsize, ?_⟩,
      .grab (fun hc => hnew (hd.transit_known x hc)) rfl rfl rfl (fun y hy => hheader y ?_)
        (fun y hy => ?_) fun _ hb _ => hb, fun _ => nofun, .mapped hsize hptr hc⟩
    · rw [Suits, hself]
      exact ⟨rfl, resetSuperblock_free hb _⟩
    · rintro rfl
      exact hnew (hd.transit_known y hy)
    · -- The new superblock has no live block.
      rw [hheader y]
      · exact ⟨rfl, rfl⟩
      · rintro rfl
        exact hy (hd.liveIn_of_not_mem hnew)

/-- `bin_alloc`, the assignment of the owner. -/
theorem takes_allocOwn (hR : Refines s d) (hd : d.Inv) {i size x : ℕ} {new : Bool}
    (h : d.At (.allocOwn i size x new)) : s.Takes d mmap (.allocOwn i size x new) := by
  obtain ⟨hsize, hclass, hfree⟩ := h.knows
  have hx := h.hand x rfl
  have hself : (d.own x (.thread i)).core.header x =
      { d.core.header x with owner := some (.thread i) } := Function.update_self ..
  refine ⟨.allocFrom i size x new, s.setCore (s.toCore.setOwner x (.thread i)),
    d.own x (.thread i), rfl, ⟨by rw [hR.core]; rfl, hR.represents.setCore _⟩, hd.own hx _,
    ⟨fun y hy => h.hand y hy, fun _ => nofun, hsize, ?_, ?_⟩, ?_, fun _ => nofun, .owned⟩
  · rw [Suits, hself]
    exact ⟨hclass, hfree⟩
  · rw [hself]
  · -- Only the header of the superblock in hand has changed.
    have hstill : Frame d d (.allocOwn i size x new) (.allocFrom i size x new) :=
      Frame.still (c := d.core) rfl rfl
    refine { hstill with
      header := fun y _ hne => ?_
      carving := fun y _ hne => ?_ }
    · refine Function.update_of_ne ?_ ..
      rintro rfl
      exact hne rfl
    · have hy : (d.own x (.thread i)).core.header y = d.core.header y := by
        refine Function.update_of_ne ?_ ..
        rintro rfl
        exact hne rfl
      rw [hy]
      exact ⟨rfl, rfl⟩

/-- `bin_alloc`, the allocation from a superblock in hand. -/
theorem takes_allocFrom (hR : Refines s d) (hd : d.Inv) {i size x : ℕ} {new : Bool}
    (h : d.At (.allocFrom i size x new)) : s.Takes d mmap (.allocFrom i size x new) := by
  obtain ⟨hsize, ⟨hclass, hfree⟩, howner⟩ := h.knows
  have hx := h.hand x rfl
  have hb := binOf_lt hsize
  -- Counting the superblock changes the statistics only.
  obtain ⟨c, hc, husage⟩ : ∃ c, (if new then d.core.incAlloced (.thread i) superblockSize
      else d.core.countIn (.thread i) x) = c ∧ c = { d.core with usage := c.usage } := by
    cases new with
    | true => exact ⟨_, rfl, rfl⟩
    | false => exact ⟨_, rfl, rfl⟩
  have hready : (d.setCore c).Ready (.thread i) (binOf size) x := by
    rw [husage]
    exact ⟨hd.congr_core rfl rfl rfl rfl, hx, howner, hclass, hfree⟩
  have hR' : Refines (s.setCore (if new then s.toCore.incAlloced (.thread i) superblockSize
      else s.toCore.countIn (.thread i) x)) (d.setCore c) :=
    ⟨by rw [hR.core, hc]; rfl, hR.represents.setCore _⟩
  obtain ⟨p, header, s', hfrom, hserves, hR''⟩ :=
    binAllocFrom_ready hR' hready hb (le_idx2class_binOf hsize)
  have hturns := hserves.turns (.thread i) (binOf size)
  have hheader : (d.setCore c).core.header = d.core.header := by rw [husage]; rfl
  have hadv : s.advance mmap (.allocFrom i size x new) = some (.allocUnlock i size (some p),
      s'.setCore (s'.toCore.incUsage (.thread i) (idx2class (binOf size)))) := by
    simp only [advance, MyMalloc.size2idx_eq, Option.bind_eq_bind, Option.bind_some, hfrom]
    rfl
  refine ⟨_, _, (d.setCore c).handOut (.thread i) (binOf size) x p header size, hadv,
    ⟨by rw [hR''.core]; rfl, hR''.represents.setCore _⟩, hready.handOut_inv hb hserves,
    ⟨fun _ => nofun, fun q hq => ?_, fun q hq => ?_⟩,
    .file hd rfl rfl rfl (fun y hy => (hturns.header y hy).trans (congrFun hheader y))
      (fun _ => ?_) fun b hb => List.mem_cons_of_mem _ hb, fun q hq => Or.inr fun n hn => ?_,
    by subst hc; exact .filed hsize hready hserves⟩
  · obtain rfl := Option.some.inj hq
    exact ⟨size, List.mem_cons_self ..⟩
  · obtain rfl := Option.some.inj hq
    exact List.mem_cons_self ..
  · have hself : ((d.setCore c).handOut (.thread i) (binOf size) x p header size).core.header x =
        header := Function.update_self ..
    rw [hself, hserves.same.owner, hserves.same.blockSize, hheader]
    exact ⟨rfl, rfl⟩
  · obtain rfl := Option.some.inj hq
    exact hserves.not_mem n hn

/-- `heap_free`, up to the assertion of `lock_superblock`. -/
theorem takes_freeLockSuperblock (hR : Refines s d) (hd : d.Inv) {ptr : ℕ}
    (h : d.At (.freeLockSuperblock ptr)) : s.Takes d mmap (.freeLockSuperblock ptr) := by
  obtain ⟨n, hn⟩ := h.block ptr rfl
  have hmagic : (s.header (superblockOf ptr)).magic = headerMagic := by
    rw [hR.core]
    exact (hd.carved _ (hd.live_known _ hn).1).magic
  refine takes_passive hR hd h trivial (.freeOwner ptr) ?_ rfl (fun _ hp => hp) trivial
  simp only [advance, hmagic, decide_true, assert_true]
  rfl

/-- `heap_free`, the reading of the size class and the owner. -/
theorem takes_freeOwner (hR : Refines s d) (hd : d.Inv) {ptr : ℕ} {heap : HeapId}
    (h : d.At (.freeOwner ptr)) (howner : (d.core.header (superblockOf ptr)).owner = some heap) :
    s.Takes d mmap (.freeOwner ptr) := by
  obtain ⟨n, hn⟩ := h.block ptr rfl
  obtain ⟨b, hb, hclass⟩ := (hd.carved _ (hd.live_known _ hn).1).isClass
  have hheader : s.header (superblockOf ptr) = d.core.header (superblockOf ptr) := by rw [hR.core]
  refine takes_passive hR hd h trivial (.freeLock ptr (idx2class b) heap) ?_ rfl (fun _ hp => hp)
    ⟨hclass, howner⟩
  simp only [advance, hheader, hclass, size2idx_eq (idx2class_le hb), howner, Option.bind_eq_bind,
    Option.bind_some]
  rfl

/-- `heap_free` on a thread heap, from `bin_free` on, unfolded. -/
theorem advance_freeBin_eq (s : State) (mmap : Option ℕ) (ptr sizeClass i : ℕ) :
    s.advance mmap (.freeBin ptr sizeClass (.thread i)) =
      (MyMalloc.size2idx sizeClass).bind fun binIdx =>
        (s.binFree (.thread i) (.thread i, binIdx) ptr).bind fun s =>
          if isEmptyEnough ((s.setCore (s.toCore.decUsage (.thread i) sizeClass)).usage
              (.thread i)) then
            ((s.setCore (s.toCore.decUsage (.thread i) sizeClass)).transferTake (.thread i)).bind
              fun r => some (.moveLock ptr i r.1 r.2.1, r.2.2)
          else some (.freeUnlock ptr (.thread i),
            s.setCore (s.toCore.decUsage (.thread i) sizeClass)) :=
  rfl

/-- `heap_free` that leaves the heap its superblocks. -/
theorem advance_freeBin_kept {s s₁ s₂ : State} {ptr i b : ℕ} (hb : b < numSizeBins)
    (hfree : s.binFree (.thread i) (.thread i, b) ptr = some s₁)
    (hcounted : s₁.setCore (s₁.toCore.decUsage (.thread i) (idx2class b)) = s₂)
    (hkept : isEmptyEnough (s₂.usage (.thread i)) = false) :
    s.advance mmap (.freeBin ptr (idx2class b) (.thread i)) =
      some (.freeUnlock ptr (.thread i), s₂) := by
  rw [advance_freeBin_eq, MyMalloc.size2idx_eq, Option.bind_some, binOf_idx2class hb, hfree,
    Option.bind_some, hcounted, hkept, if_neg Bool.false_ne_true]

/-- `heap_free` that takes a superblock out for transfer. -/
theorem advance_freeBin_moved {s s₁ s₂ s₃ : State} {ptr i b y : ℕ} {place : Option (ℕ × ℕ)}
    (hb : b < numSizeBins) (hfree : s.binFree (.thread i) (.thread i, b) ptr = some s₁)
    (hcounted : s₁.setCore (s₁.toCore.decUsage (.thread i) (idx2class b)) = s₂)
    (hempty : isEmptyEnough (s₂.usage (.thread i)) = true)
    (htake : s₂.transferTake (.thread i) = some (y, place, s₃)) :
    s.advance mmap (.freeBin ptr (idx2class b) (.thread i)) =
      some (.moveLock ptr i y place, s₃) := by
  rw [advance_freeBin_eq, MyMalloc.size2idx_eq, Option.bind_some, binOf_idx2class hb, hfree,
    Option.bind_some, hcounted, hempty, if_pos rfl, htake, Option.bind_some]

/-- `heap_free`, from `bin_free` to the superblock that is taken out for transfer. -/
theorem takes_freeBin (hR : Refines s d) (hd : d.Inv) {ptr sizeClass b e : ℕ} {heap : HeapId}
    (h : d.At (.freeBin ptr sizeClass heap)) (hx : superblockOf ptr ∈ d.lists (.bin (heap, b) e)) :
    s.Takes d mmap (.freeBin ptr sizeClass heap) := by
  obtain ⟨n, hn⟩ := h.block ptr rfl
  have hptr : ptr ∈ liveIn d.live (superblockOf ptr) := Inv.mem_liveIn hn
  obtain ⟨-, hb, hclass, -⟩ := hd.fits _ _ hx
  obtain rfl : idx2class b = sizeClass := hclass.symm.trans h.knows.1
  have hout : superblockOf ptr ∉ d.transit := fun hc => hd.transit_nowhere _ hc _ hx
  have hturns := Turns.takeBack hd hx hptr
  have htransit := takeBack_transit d (heap, b) e (superblockOf ptr) ptr
  -- The other live blocks stay live.
  have hlive : ∀ b' ∈ d.live, some ptr ≠ some b'.1 →
      b' ∈ (d.takeBack (heap, b) e (superblockOf ptr) ptr).live := by
    rintro b' hb' hne
    exact List.mem_filter.mpr ⟨hb', by simpa using fun hc => hne (congrArg some hc.symm)⟩
  cases heap with
  | global =>
    obtain ⟨s₁, hfree, hR₁, hinv₁⟩ := State.binFree_spec hR hd hx hptr
    have hadv : s.advance mmap (.freeBin ptr (idx2class b) .global) =
        some (.freeUnlock ptr .global, s₁) := by
      simp only [advance, MyMalloc.size2idx_eq, binOf_idx2class hb, Option.bind_eq_bind,
        Option.bind_some, hfree]
      rfl
    exact ⟨_, s₁, _, hadv, hR₁, hinv₁, ⟨fun _ => nofun, fun _ => nofun, trivial⟩,
      .work hturns hout htransit rfl rfl hlive, fun _ => nofun, .freedGlobal hx hptr⟩
  | thread i =>
    obtain ⟨s₁, s₂, hfree, hs₂, hR₂⟩ := binFree_counted hR hd hx hptr
    have hinv₂ := hd.takeBackCounted hx hptr
    have hturns₂ : d.Turns (d.takeBackCounted (.thread i) b e (superblockOf ptr) ptr)
        (superblockOf ptr) := ⟨hturns.header, hturns.carving⟩
    have husage : s₂.usage =
        (d.takeBackCounted (.thread i) b e (superblockOf ptr) ptr).core.usage :=
      congrArg Core.usage hR₂.core
    cases hempty : isEmptyEnough (s₂.usage (.thread i)) with
    | false =>
      exact ⟨_, _, _, advance_freeBin_kept hb hfree hs₂ hempty, hR₂, hinv₂,
        ⟨fun _ => nofun, fun _ => nofun, trivial⟩,
        .work hturns₂ hout htransit rfl rfl hlive, fun _ => nofun,
        .freed hx hptr (husage ▸ hempty)⟩
    | true =>
      obtain ⟨y, place, s₃, hy, -, htake, hR₃⟩ :=
        transferTake_spec hR₂ hinv₂ (.thread i) (candidate_of_takeBack hd hx hptr)
      -- The superblock leaves its list, and is in the hands of this thread only.
      have hyout : y ∉ d.transit := fun hc => hinv₂.transit_nowhere y (htransit.symm ▸ hc) _ hy
      exact ⟨_, s₃, _, advance_freeBin_moved hb hfree hs₂ hempty htake, hR₃, hinv₂.take hy,
        ⟨fun _ => mem_cons_of_some_eq, fun _ => nofun, hinv₂.fits _ y hy⟩,
        .grab hyout (congrArg (List.cons y) htransit) rfl rfl
          (fun z hz => hturns₂.header z fun hc => hout (hc ▸ hz))
          hturns₂.carving_eq hlive, fun _ => nofun, .taken hx hptr (husage ▸ hempty) hy⟩

/-- `transfer_sb_to_global`, under the lock of the global heap. -/
theorem takes_movePut (hR : Refines s d) (hd : d.Inv) {ptr i y : ℕ} {place : Option (ℕ × ℕ)}
    (h : d.At (.movePut ptr i y place)) : s.Takes d mmap (.movePut ptr i y place) := by
  have hy := h.hand y rfl
  obtain ⟨s', hput, hR', hinv'⟩ := transferPut_spec hR hd hy h.knows
  have hadv : s.advance mmap (.movePut ptr i y place) = some (.moveUnlock ptr i, s') := by
    simp only [advance, hput, Option.bind_eq_bind, Option.bind_some]
    rfl
  exact ⟨_, s', _, hadv, hR', hinv', ⟨fun _ => nofun, fun _ => nofun, trivial⟩,
    .file hd rfl rfl rfl (fun z hz => Function.update_of_ne hz ..) (fun hne => absurd rfl hne)
      fun _ hb => hb, fun _ => nofun, .moved⟩

/-- **Every step of a thread in a call**: given what the thread relies on, and, when
it reads an owner or starts `bin_free`, that the superblock is where it should be. -/
theorem takes (hR : Refines s d) (hd : d.Inv) (h : d.At pc) (hpc : pc ≠ .idle)
    (hmmap : ∀ ptr ∈ mmap, MapsFresh d.core.mapped ptr (2 * superblockSize))
    (hfetch : ∀ i size, pc = .globalFetch i size → s.FetchMatches (binOf size))
    (howner : ∀ ptr, pc = .freeOwner ptr →
      ∃ heap, (d.core.header (superblockOf ptr)).owner = some heap)
    (hlinked : ∀ ptr sizeClass heap, pc = .freeBin ptr sizeClass heap →
      ∃ b e, superblockOf ptr ∈ d.lists (.bin (heap, b) e)) : s.Takes d mmap pc := by
  cases pc with
  | idle => exact absurd rfl hpc
  | allocLock i size =>
    refine takes_passive hR hd h trivial (.allocLocal i size) ?_ rfl (fun _ hp => hp) h.knows
    simp only [advance, size2idx_eq h.knows, Option.bind_eq_bind, Option.bind_some]
    rfl
  | allocLocal i size => exact takes_allocLocal hR hd h
  | globalLock i size => exact takes_passive hR hd h trivial _ rfl rfl (fun _ hp => hp) h.knows
  | globalFetch i size => exact takes_globalFetch hR hd h (hfetch i size rfl)
  | globalUnlock i size found =>
    cases found with
    | none => exact takes_passive hR hd h trivial _ rfl rfl (fun _ hp => hp) h.knows.1
    | some x =>
      exact takes_passive hR hd h trivial _ rfl rfl (fun _ hp => hp) ⟨h.knows.1, h.knows.2 x rfl⟩
  | allocNew i size => exact takes_allocNew hR hd h hmmap
  | allocOwn i size x new => exact takes_allocOwn hR hd h
  | allocFrom i size x new => exact takes_allocFrom hR hd h
  | allocUnlock i size retPtr =>
    exact takes_passive hR hd h trivial _ rfl rfl (fun _ => nofun) trivial
  | freeLockSuperblock ptr => exact takes_freeLockSuperblock hR hd h
  | freeOwner ptr =>
    obtain ⟨heap, hheap⟩ := howner ptr rfl
    exact takes_freeOwner hR hd h hheap
  | freeLock ptr sizeClass heap =>
    exact takes_passive hR hd h trivial _ rfl rfl (fun _ hp => hp) h.knows
  | freeBin ptr sizeClass heap =>
    obtain ⟨b, e, hx⟩ := hlinked ptr sizeClass heap rfl
    exact takes_freeBin hR hd h hx
  | moveLock ptr i y place =>
    exact takes_passive hR hd h trivial _ rfl rfl (fun _ hp => hp) h.knows
  | movePut ptr i y place => exact takes_movePut hR hd h
  | moveUnlock ptr i => exact takes_passive hR hd h trivial _ rfl rfl (fun _ => nofun) trivial
  | moveCount ptr i =>
    exact ⟨_, _, d.setCore (d.core.decAlloced (.thread i) superblockSize), rfl,
      ⟨by rw [hR.core]; rfl, hR.represents.setCore _⟩, hd.congr_core rfl rfl rfl rfl,
      ⟨fun _ => nofun, fun _ => nofun, trivial⟩, .still rfl rfl, fun _ => nofun, .counted⟩
  | freeUnlock ptr heap => exact takes_passive hR hd h trivial _ rfl rfl (fun _ => nofun) trivial
  | freeUnlockSuperblock ptr =>
    exact takes_passive hR hd h trivial _ rfl rfl (fun _ => nofun) trivial

end State

end MyMalloc
