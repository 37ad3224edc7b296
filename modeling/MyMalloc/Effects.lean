import MyMalloc.LargeBlocks

/-!
# What small allocation does to the address space

The two effects a call of `heap_alloc` or `heap_free` has outside the header and the
lists of a superblock. An allocation maps memory that was not mapped and leaves the
mapped memory as it is (`MyMalloc.Depot.Grows`). A deallocation writes one link into
the block (`MyMalloc.Depot.Frees`). Both leave large blocks alone, and neither puts a
mark into a superblock.
-/

namespace MyMalloc

open LinkedList Placement AddressSpace ByteMemory

namespace Depot

variable {d d' d₁ : Depot} {heap : HeapId} {binIdx x : ℕ}

/-! ### Allocation -/

/-- **The effect of an allocation**: what was mapped stays mapped and keeps its
bytes, and a superblock that was not there lies where nothing was mapped and is
filled with zeros. The blocks of a superblock with live blocks keep their size. -/
structure Grows (d d' : Depot) : Prop where
  covers : ∀ a, Covers d.core.mapped a → Covers d'.core.mapped a
  mem : ∀ a, Covers d.core.mapped a → d'.core.mem a = d.core.mem a
  superblocks : ∀ x ∈ d'.core.superblocks, x ∈ d.core.superblocks ∨
    ∀ a, AddressSpace.Mem a (x, superblockSize) →
      ¬Covers d.core.mapped a ∧ d'.core.mem a = 0
  blockSize : ∀ x ∈ d.core.superblocks, liveIn d.live x ≠ [] →
    (d'.core.header x).blockSize = (d.core.header x).blockSize
  live : ∀ b ∈ d.live, b ∈ d'.live

/-- An allocation that maps nothing. -/
theorem Grows.of_same (hmapped : d'.core.mapped = d.core.mapped) (hmem : d'.core.mem = d.core.mem)
    (hsb : d'.core.superblocks = d.core.superblocks)
    (hblockSize : ∀ x ∈ d.core.superblocks, liveIn d.live x ≠ [] →
      (d'.core.header x).blockSize = (d.core.header x).blockSize)
    (hlive : d'.live = d.live) : Grows d d' where
  covers _ h := hmapped ▸ h
  mem _ _ := congrFun hmem _
  superblocks _ h := Or.inl (hsb ▸ h)
  blockSize := hblockSize
  live _ h := hlive ▸ h

/-- Changing the owner of a superblock keeps the size of its blocks. -/
theorem setOwner_blockSize (c : Core) (x : ℕ) (heap : HeapId) (y : ℕ) :
    ((c.setOwner x heap).header y).blockSize = (c.header y).blockSize := by
  by_cases hyx : y = x
  · subst hyx
    simp only [Core.setOwner, Core.setHeader, Function.update_self]
  · simp only [Core.setOwner, Core.setHeader, Function.update_of_ne hyx]

/-- **A superblock is acquired.** -/
theorem Acquires.grows (hd : d.Inv) {src : Source} (hsrc : d.Present heap binIdx src)
    (h : d.Acquires heap binIdx src x d₁) : Grows d d₁ := by
  cases h with
  | bin => exact .of_same rfl rfl rfl (fun _ _ _ => rfl) rfl
  | recycled =>
    refine .of_same rfl rfl rfl (fun y _ hlive => ?_) rfl
    -- A superblock is carved again only when it is empty.
    have hyx : y ≠ x := fun hc => hlive (hc ▸ hd.empty_of_recycle hsrc)
    exact congrArg SuperblockHeader.blockSize (Function.update_of_ne hyx ..)
  | globalBin =>
    exact .of_same rfl rfl rfl (fun y _ _ => setOwner_blockSize d.core x heap y) rfl
  | globalRecycled =>
    obtain ⟨failed, hcore⟩ := d.popGlobal_core x
    have hadopt : ((d.popGlobal x).adopt heap x).core =
        ({ d.core with failed := failed } : Core).adopt heap x := by
      rw [← hcore]
      rfl
    refine .of_same ?_ ?_ ?_ (fun y _ _ => ?_) rfl <;> rw [hadopt]
    · rfl
    · rfl
    · rfl
    · exact setOwner_blockSize { d.core with failed := failed } x heap y
  | new ptr x c hptr hc =>
    have hnew := hd.not_mem_of_fresh hptr hc
    obtain ⟨x', mapped, hspec, -, hlo, hhi, hcovers⟩ := d.core.allocateNewSuperblock_spec hptr
    obtain ⟨hx, hcore⟩ := Prod.mk.inj (hspec.symm.trans hc)
    obtain rfl := Option.some.inj hx
    subst hcore
    have hout : ∀ a, Covers d.core.mapped a → a < ptr ∨ ptr + 2 * superblockSize ≤ a :=
      fun _ => hptr.2.2.2.outside
    refine ⟨fun a ha => (hcovers a).mpr (Or.inl ha), fun a ha => fill_outside (hout a ha), ?_, ?_,
      fun _ h => h⟩
    · intro y hy
      rcases List.mem_cons.mp hy with rfl | hy
      · refine Or.inr fun a ha => ?_
        simp only [AddressSpace.Mem] at ha
        refine ⟨fun hcov => ?_, fill_of_mem (by omega) (by omega)⟩
        have := hout a hcov
        omega
      · exact Or.inl hy
    · intro y hy _
      have hyx : y ≠ x' := fun hc => hnew (hc ▸ hy)
      exact (setOwner_blockSize _ x' heap y).trans
        (congrArg SuperblockHeader.blockSize (Function.update_of_ne hyx ..))

/-- A block is handed out, and the superblock filed. -/
theorem Grows.handOut (h : Grows d d₁) {p size : ℕ} {header : SuperblockHeader}
    (hsame : SameCarving (d₁.core.header x) header) :
    Grows d (d₁.handOut heap binIdx x p header size) where
  covers := h.covers
  mem := h.mem
  superblocks := h.superblocks
  blockSize y hy hlive := by
    refine Eq.trans ?_ (h.blockSize y hy hlive)
    show (Function.update d₁.core.header x header y).blockSize = _
    by_cases hyx : y = x
    · subst hyx
      rw [Function.update_self]
      exact hsame.blockSize
    · rw [Function.update_of_ne hyx]
  live b hb := List.mem_cons_of_mem _ (h.live b hb)

/-- **The effect of a complete `heap_alloc`.** -/
theorem Step.grows (hd : d.Inv) {src : Source} {i size : ℕ} {mmap : Option ℕ}
    (h : d.Step src (.alloc i size mmap) d') : Grows d d' := by
  cases h with
  | served hsize hsrc hacquires hserves =>
    exact (hacquires.grows hd hsrc.present).handOut hserves.same
  | failed => exact .of_same rfl rfl rfl (fun _ _ _ => rfl) rfl

/-- **No allocation puts a mark** into a superblock. -/
theorem Grows.unmarked (h : Grows d d') (hd : d.Inv) (hmarks : d.Unmarked) : d'.Unmarked := by
  intro y hy a hdvd hlo hhi hfirst
  rw [superblockSize_eq, sizeofSuperblockHeader_eq] at *
  rcases h.superblocks y hy with hold | hnew
  · have hword : loadWord 4 d'.core.mem a = loadWord 4 d.core.mem a := by
      refine loadWord_congr fun i hi hi' => h.mem i ((hd.placed y hold).covers i (by omega) ?_)
      rw [superblockSize_eq]
      omega
    rw [hword]
    refine hmarks y hold a hdvd hlo hhi fun hlive => ?_
    obtain ⟨⟨n, hn⟩, hsb⟩ := MyMalloc.mem_liveIn.mp hlive
    rw [← h.blockSize y hold (List.ne_nil_of_mem hlive)]
    exact hfirst (MyMalloc.mem_liveIn.mpr ⟨⟨n, h.live _ hn⟩, hsb⟩)
  · refine loadWord_ne_magic ?_
    rw [(hnew a ⟨by omega, by simp only [superblockSize_eq]; omega⟩).2]
    rfl

/-- **A large block survives an allocation.** -/
theorem Grows.largeBlock (h : Grows d d') {b : ℕ × ℕ} (hb : LargeBlock d.core b) :
    LargeBlock d'.core b := by
  have hbase := hb.base_add
  have hadd := hb.add_le
  refine hb.congr (fun a ha ha' => h.mem a (hb.covers a ⟨ha, by omega⟩))
    (fun a ha => h.covers a (hb.covers a ha)) fun y hy => ?_
  refine (h.superblocks y hy).imp_right fun hnew => ?_
  exact apart_of_covers hb.covers (fun a ha => (hnew a ha).1) (by omega)
    (by rw [superblockSize_eq]; omega)

/-! ### Deallocation -/

/-- **The effect of a deallocation**: a link is written into the block, which is not
live any more. -/
structure Frees (d : Depot) (ptr : ℕ) (d' : Depot) : Prop where
  mapped : d'.core.mapped = d.core.mapped
  mem : ∃ link : Option ℕ, 16 ∣ link.getD 0 ∧ d'.core.mem = setNextFree d.core.mem ptr link
  superblocks : d'.core.superblocks = d.core.superblocks
  blockSize : ∀ x, (d'.core.header x).blockSize = (d.core.header x).blockSize
  live : d'.live = d.live.filter fun b => b.1 ≠ ptr

/-- What `superblock_free` does to the data. -/
theorem Inv.superblockFree_eq (hd : d.Inv) (hx : x ∈ d.core.superblocks) {ptr : ℕ}
    (hptr : ptr ∈ liveIn d.live x) : ∃ (header : SuperblockHeader) (link : Option ℕ),
      header.blockSize = (d.core.header x).blockSize ∧ 16 ∣ link.getD 0 ∧
      d.core.superblockFree x ptr =
        { d.core.setHeader x header with mem := setNextFree d.core.mem ptr link } := by
  have hxsb := hd.isSuperblock hx
  obtain ⟨free, hs⟩ := (hd.carved x hx).sound
  obtain ⟨-, -, hdvd⟩ := hs.mem_buffer hxsb (List.mem_append_left free hptr)
  have hmask : ¬(ptr &&& (minBlockSize - 1) ≠ 0) := not_not.mpr (and_minBlockSize_eq_zero.mpr hdvd)
  refine ⟨{ d.core.header x with
      freeList := some ptr
      numFreeBlocks := add32 (d.core.header x).numFreeBlocks 1 },
    (d.core.header x).freeList, rfl, ?_,
    by rw [Core.superblockFree, superblockFree, if_neg hmask]⟩
  cases hlink : (d.core.header x).freeList with
  | none => exact Nat.dvd_zero 16
  | some q =>
    have hhead := hs.chain.head_eq
    rw [hlink] at hhead
    have hq := List.mem_of_head? hhead.symm
    exact (hs.mem_buffer hxsb (List.mem_append_right _ hq)).2.2

/-- **A block is taken back.** -/
theorem Inv.takeBack_frees (hd : d.Inv) {bm : BinPtr} {e ptr : ℕ} (hx : x ∈ d.lists (.bin bm e))
    (hptr : ptr ∈ liveIn d.live x) : d.Frees ptr (d.takeBack bm e x ptr) := by
  obtain ⟨header, link, hsize, hlink, hcore⟩ := hd.superblockFree_eq (hd.lists_known _ x hx) hptr
  have hcore : (d.takeBack bm e x ptr).core =
      { d.core.setHeader x header with mem := setNextFree d.core.mem ptr link } := hcore
  refine ⟨?_, ⟨link, hlink, ?_⟩, ?_, fun y => ?_, rfl⟩ <;> rw [hcore]
  · rfl
  · rfl
  · by_cases hyx : y = x
    · subst hyx
      simp only [Core.setHeader, Function.update_self, hsize]
    · simp only [Core.setHeader, Function.update_of_ne hyx]

/-- **The effect of a complete `heap_free`.** -/
theorem Step.frees (hd : d.Inv) {src : Source} {ptr : ℕ} (h : d.Step src (.free ptr) d') :
    d.Frees ptr d' := by
  cases h with
  | freedGlobal hx hptr => exact hd.takeBack_frees hx hptr
  | freed hx hptr =>
    obtain ⟨h₁, h₂, h₃, h₄, h₅⟩ := hd.takeBack_frees hx hptr
    exact ⟨h₁, h₂, h₃, h₄, h₅⟩
  | moved hx hptr =>
    obtain ⟨h₁, h₂, h₃, h₄, h₅⟩ := hd.takeBack_frees hx hptr
    exact ⟨h₁, h₂, h₃, fun y => (setOwner_blockSize _ _ .global y).trans (h₄ y), h₅⟩

section

variable {ptr : ℕ} (h : d.Frees ptr d') (hd : d.Inv)

include h

/-- Only the block is written. -/
theorem Frees.mem_of_not_mem {a : ℕ} (ha : a < ptr ∨ ptr + 8 ≤ a) :
    d'.core.mem a = d.core.mem a := by
  obtain ⟨link, -, hmem⟩ := h.mem
  rw [hmem]
  exact setNextFree_of_not_mem ha

include hd

/-- **No deallocation puts a mark** into a superblock. -/
theorem Frees.unmarked {n : ℕ} (hptr : (ptr, n) ∈ d.live) (hmarks : d.Unmarked) :
    d'.Unmarked := by
  intro y hy a hdvd hlo hhi hfirst
  have hy : y ∈ d.core.superblocks := h.superblocks ▸ hy
  have hsb := (hd.live_known _ hptr).1
  obtain ⟨-, -, hptrdvd, -⟩ :=
    (hd.carved _ hsb).live_mem (hd.isSuperblock hsb) (Inv.mem_liveIn hptr)
  by_cases hap : a = ptr
  · -- The link is a multiple of 16.
    subst hap
    obtain ⟨link, hlink, hmem⟩ := h.mem
    refine loadWord_ne_magic ?_
    have hbyte : (d'.core.mem a).toNat = loadWord 8 d'.core.mem a % 256 :=
      (loadWord_mod (by omega)).symm
    rw [hbyte, hmem, setNextFree, loadWord_storeWord]
    omega
  · have hword : loadWord 4 d'.core.mem a = loadWord 4 d.core.mem a :=
      loadWord_congr fun i hi hi' => h.mem_of_not_mem (by omega)
    rw [hword]
    refine hmarks y hy a hdvd hlo hhi fun hlive => ?_
    rw [← h.blockSize y]
    refine hfirst ?_
    obtain ⟨⟨n, hn⟩, hsb⟩ := MyMalloc.mem_liveIn.mp hlive
    rw [h.live]
    exact MyMalloc.mem_liveIn.mpr ⟨⟨n, List.mem_filter.mpr ⟨hn, by simpa using hap⟩⟩, hsb⟩

/-- **A large block survives a deallocation.** -/
theorem Frees.largeBlock {n : ℕ} (hptr : (ptr, n) ∈ d.live) {b : ℕ × ℕ}
    (hb : LargeBlock d.core b) : LargeBlock d'.core b := by
  have hadd := hb.add_le
  have hbase := hb.base_add
  have hsb := (hd.live_known _ hptr).1
  have hapart := hb.apart _ hsb
  obtain ⟨hlo, hhi⟩ := hd.live_mem hptr
  obtain ⟨free, hs⟩ := (hd.carved _ hsb).sound
  have hpos : 16 ≤ (d.core.header (superblockOf ptr)).blockSize := hs.isClass.pos
  simp only [Apart] at hapart hlo hhi
  refine hb.congr (fun a ha ha' => h.mem_of_not_mem (by omega))
    (fun a ha => h.mapped ▸ hb.covers a ha) fun y hy => Or.inl (h.superblocks ▸ hy)

end

end Depot

end MyMalloc
