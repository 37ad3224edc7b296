import MyMalloc.Classification

/-!
# The sizes of large blocks

Two sums of sizes a large block depends on.

`large_realloc` copies as many bytes as the old block has, header included, whatever
the size of the new one. It is right when these bytes fit into the pages of the new
mapping (`MyMalloc.largeRealloc_fits`): always when the block grows, and when it shrinks
only within its last page. Otherwise it writes into what lies behind the new mapping
(`MyMalloc.shrunk_block_overruns`), or faults if nothing is mapped there.

The length of a mapping is the size of the block plus that of its header, and nobody
asks whether the sum fits in a `size_t` (`MyMalloc.large_blocks_roomy`). For the sizes
that are less than a header below the top it does not. The caller of `malloc` then
receives one page, and `calloc` faults when it clears the block
(`MyMalloc.huge_block_cramped`).
-/

namespace MyMalloc

open AddressSpace ByteMemory

/-! ### `large_realloc` -/

namespace Core

variable {c c' : Core} {b : ℕ × ℕ} {size newPtr : ℕ}

/-- **What `large_realloc` should do** when it moves a large block to the new mapping at
`newPtr`. -/
structure Reallocates (c : Core) (b : ℕ × ℕ) (size newPtr : ℕ) (c' : Core) : Prop where
  /-- There is one copy, and every byte it writes is in the new mapping. -/
  copy : ∃ r, c'.copies = r :: c.copies ∧
    ∀ a, AddressSpace.Mem a r → AddressSpace.Mem a (newPtr, pageUp (size + sizeofMmapHeader))
  contents : load c'.mem (newPtr + sizeofMmapHeader) (min b.2 size) =
    load c.mem b.1 (min b.2 size)
  header : c'.mmapHeaderSize newPtr = size
  unmapped : ∀ a, AddressSpace.Mem a (spanOf b) → ¬Covers c'.mapped a
  /-- The other mappings stay, with what is in them. -/
  others : ∀ a, Covers c.mapped a → ¬AddressSpace.Mem a (spanOf b) →
    Covers c'.mapped a ∧ c'.mem a = c.mem a

/-- The memory after `large_realloc`, behind the new header. -/
theorem largeRealloc_mem (hb : LargeBlock c b) (hlt : size + sizeofMmapHeader < 2 ^ 64)
    (hc : c.largeRealloc b.1 size (some newPtr) = some (some (newPtr + sizeofMmapHeader), c'))
    {a : ℕ} (ha : a < newPtr ∨ newPtr + sizeofMmapHeader ≤ a) :
    c'.mem a = store (fill c.mem newPtr (pageUp (size + sizeofMmapHeader)) 0) newPtr
      (load (fill c.mem newPtr (pageUp (size + sizeofMmapHeader)) 0) (spanOf b).1
        (b.2 + sizeofMmapHeader)) a := by
  obtain ⟨-, rfl⟩ := eq_of_largeRealloc hb hlt hc
  exact setMmapHeader_mem _ _ _ ha

/-- What is mapped after `large_realloc`. -/
theorem largeRealloc_covers (hb : LargeBlock c b) (hlt : size + sizeofMmapHeader < 2 ^ 64)
    (hc : c.largeRealloc b.1 size (some newPtr) = some (some (newPtr + sizeofMmapHeader), c'))
    (a : ℕ) : Covers c'.mapped a ↔
      (AddressSpace.Mem a (newPtr, pageUp (size + sizeofMmapHeader)) ∨ Covers c.mapped a) ∧
        ¬AddressSpace.Mem a (spanOf b) := by
  obtain ⟨-, rfl⟩ := eq_of_largeRealloc hb hlt hc
  rw [← covers_cons]
  exact covers_unmap

/-- **A byte that is copied**: it comes from the old block, wherever it goes. -/
theorem largeRealloc_copied (hb : LargeBlock c b) (hlt : size + sizeofMmapHeader < 2 ^ 64)
    (hptr : MapsFresh c.mapped newPtr (pageUp (size + sizeofMmapHeader)))
    (hc : c.largeRealloc b.1 size (some newPtr) = some (some (newPtr + sizeofMmapHeader), c'))
    {k : ℕ} (hk : k < b.2) : c'.mem (newPtr + sizeofMmapHeader + k) = c.mem (b.1 + k) := by
  have hbase := hb.base_add
  have hadd := hb.add_le
  have hup := le_pageUp (size + sizeofMmapHeader)
  simp only [sizeofMmapHeader] at *
  have hapart := hptr.2.2.2.apart hb.covers hb.pos (by omega)
  simp only [Apart] at hapart
  rw [largeRealloc_mem hb hlt hc (Or.inr (by simp only [sizeofMmapHeader]; omega)),
    show newPtr + 16 + k = newPtr + (16 + k) by omega, sizeofMmapHeader,
    store_load_of_mem (by omega), show (spanOf b).1 + (16 + k) = b.1 + k by omega]
  exact fill_outside (by omega)

/-- The copy that `large_realloc` makes: the whole old block with its header. -/
theorem largeRealloc_copies (hb : LargeBlock c b) (hlt : size + sizeofMmapHeader < 2 ^ 64)
    (hc : c.largeRealloc b.1 size (some newPtr) = some (some (newPtr + sizeofMmapHeader), c')) :
    c'.copies = (newPtr, b.2 + sizeofMmapHeader) :: c.copies := by
  obtain ⟨-, rfl⟩ := eq_of_largeRealloc hb hlt hc
  rfl

/-- **`large_realloc` is right** if the old block with its header fits into the pages of
the new one. -/
theorem largeRealloc_reallocates (hb : LargeBlock c b) (hlt : size + sizeofMmapHeader < 2 ^ 64)
    (hptr : MapsFresh c.mapped newPtr (pageUp (size + sizeofMmapHeader)))
    (hc : c.largeRealloc b.1 size (some newPtr) = some (some (newPtr + sizeofMmapHeader), c'))
    (hfits : b.2 + sizeofMmapHeader ≤ pageUp (size + sizeofMmapHeader)) :
    c.Reallocates b size newPtr c' where
  copy := ⟨_, largeRealloc_copies hb hlt hc,
    fun a ha => ⟨ha.1, lt_of_lt_of_le ha.2 (Nat.add_le_add_left hfits _)⟩⟩
  contents := by
    refine List.map_congr_left fun k hk => ?_
    have hlt' := List.mem_range.mp hk
    exact largeRealloc_copied hb hlt hptr hc (by omega)
  header := by
    obtain ⟨-, rfl⟩ := eq_of_largeRealloc hb hlt hc
    simp only [mmapHeaderSize, reallocated, setMmapHeader]
    rw [loadWord_storeWord]
    simp only [sizeofMmapHeader] at hlt
    exact Nat.mod_eq_of_lt (by omega)
  unmapped a ha hcov := ((largeRealloc_covers hb hlt hc a).mp hcov).2 ha
  others a hcov ha := by
    refine ⟨(largeRealloc_covers hb hlt hc a).mpr ⟨Or.inr hcov, ha⟩, ?_⟩
    -- What was mapped is neither in the new mapping nor in the bytes that are copied.
    have hout := hptr.2.2.2.outside hcov
    have hup := le_pageUp (size + sizeofMmapHeader)
    rw [largeRealloc_mem hb hlt hc (by omega)]
    exact (store_load_outside (by omega)).trans (fill_outside hout)

/-- **Otherwise it is not**: the copy does not stay in the new mapping. -/
theorem Reallocates.fits (h : c.Reallocates b size newPtr c') (hb : LargeBlock c b)
    (hlt : size + sizeofMmapHeader < 2 ^ 64)
    (hc : c.largeRealloc b.1 size (some newPtr) = some (some (newPtr + sizeofMmapHeader), c')) :
    b.2 + sizeofMmapHeader ≤ pageUp (size + sizeofMmapHeader) := by
  obtain ⟨r, hr, hin⟩ := h.copy
  rw [largeRealloc_copies hb hlt hc, List.cons.injEq] at hr
  obtain ⟨rfl, -⟩ := hr
  -- The last byte that is written.
  have hlast := (hin (newPtr + (b.2 + sizeofMmapHeader - 1))
    ⟨Nat.le_add_right .., by simp only [sizeofMmapHeader]; omega⟩).2
  simp only [sizeofMmapHeader] at hlast ⊢
  omega

end Core

/-- **`realloc` of a large block to a large size** returns and is right exactly when the old
block, with its header, fits into the pages of the new one. -/
theorem largeRealloc_fits {s : State} {b : ℕ × ℕ} (hb : LargeBlock s.toCore b) (heap : HeapId)
    {size newPtr : ℕ} (hsize : maxBlockSize < size) (hlt : size + sizeofMmapHeader < 2 ^ 64)
    (hptr : MapsFresh s.mapped newPtr (pageUp (size + sizeofMmapHeader))) :
    (∃ c', s.toCore.largeRealloc b.1 size (some newPtr) =
        some (some (newPtr + sizeofMmapHeader), c') ∧
      s.realloc heap (some b.1) size (some newPtr) =
        some (some (newPtr + sizeofMmapHeader), s.setCore c') ∧
      s.toCore.Reallocates b size newPtr c') ↔
    b.2 + sizeofMmapHeader ≤ pageUp (size + sizeofMmapHeader) := by
  constructor
  · rintro ⟨c', hc, -, hright⟩
    exact hright.fits hb hlt hc
  · intro hfits
    have hc := Core.largeRealloc_eq_of_le hb newPtr hlt hfits
    exact ⟨_, hc, Process.realloc_eq_large hb.isLargeAlloc hsize hc,
      Core.largeRealloc_reallocates hb hlt hptr hc hfits⟩

/-- Two large blocks. -/
def twoLarge : List Request := [.malloc 0 200000 (some 4194304), .malloc 0 200000 (some 5242880)]

/-- The two blocks are what they should be. -/
theorem largeBlock_of_twoLarge : ∃ w, Trace.run Process.step {} twoLarge = some w ∧
    ∀ b ∈ [(4194320, 200000), (5242896, 200000)], LargeBlock w.state.toCore b := by
  have hmodels : ∃ w, Trace.run Process.step {} twoLarge = some w ∧ ∃ d, w.Models d :=
    Process.models_of_run (by decide +kernel)
  have hlast : (Trace.run Process.step {} twoLarge).map Process.large =
      some [(5242896, 200000), (4194320, 200000)] := by decide +kernel
  obtain ⟨w, hrun, d, hM⟩ := hmodels
  rw [hrun] at hlast
  refine ⟨w, hrun, fun b hb => ?_⟩
  rw [hM.core]
  refine hM.large b ?_
  rw [Option.some.inj hlast]
  exact List.mem_reverse.mpr hb

/-- A large block grows. -/
theorem largeRealloc_fits_grown : ∃ w c', Trace.run Process.step {} twoLarge = some w ∧
    w.state.toCore.largeRealloc 4194320 300000 (some 6291456) = some (some 6291472, c') ∧
    w.state.toCore.Reallocates (4194320, 200000) 300000 6291456 c' := by
  obtain ⟨w, hrun, hlarge⟩ := largeBlock_of_twoLarge
  have hlast : (Trace.run Process.step {} twoLarge).map (fun w => decide
      (MapsFresh w.state.mapped 6291456 (pageUp (300000 + sizeofMmapHeader)))) = some true := by
    decide +kernel
  rw [hrun] at hlast
  obtain ⟨c', hc, -, hright⟩ := (largeRealloc_fits (hlarge _ (List.mem_cons_self ..)) (.thread 0)
    (by decide +kernel) (by decide) (of_decide_eq_true (Option.some.inj hlast))).mpr (by decide)
  exact ⟨w, c', hrun, hc, hright⟩

/-- **A block that shrinks overruns its new mapping**, and overwrites the header of the
other block. -/
theorem shrunk_block_overruns : maxBlockSize < 150000 ∧
    ∃ w c', Trace.run Process.step {} twoLarge = some w ∧
    LargeBlock w.state.toCore (4194320, 200000) ∧
    MapsFresh w.state.mapped 5091328 (pageUp (150000 + sizeofMmapHeader)) ∧
    w.state.toCore.largeRealloc 4194320 150000 (some 5091328) = some (some 5091344, c') ∧
    LargeBlock w.state.toCore (5242896, 200000) ∧ ¬LargeBlock c' (5242896, 200000) ∧
    ¬w.state.toCore.Reallocates (4194320, 200000) 150000 5091328 c' := by
  refine ⟨by decide +kernel, ?_⟩
  obtain ⟨w, hrun, hlarge⟩ := largeBlock_of_twoLarge
  have hb := hlarge (4194320, 200000) (by decide)
  have hlt : 150000 + sizeofMmapHeader < 2 ^ 64 := by decide
  -- The copy ends in the mapping of the other block, and so meets no fault.
  have hlast : (Trace.run Process.step {} twoLarge).map (fun w =>
      (decide (MapsFresh w.state.mapped 5091328 (pageUp (150000 + sizeofMmapHeader))),
        decide (Spans ((5091328, pageUp (150000 + sizeofMmapHeader)) :: w.state.mapped)
          (5091328, 200000 + sizeofMmapHeader)),
        w.state.mem 4345856)) = some (true, true, 0) := by decide +kernel
  rw [hrun, Option.map_some, Option.some_inj, Prod.mk.injEq, Prod.mk.injEq] at hlast
  obtain ⟨hfresh, hspans, hbyte⟩ := hlast
  have hfresh := of_decide_eq_true hfresh
  have hc : w.state.toCore.largeRealloc 4194320 150000 (some 5091328) = some (some 5091344,
      w.state.toCore.reallocated (4194320, 200000) 150000 5091328) :=
    (Core.largeRealloc_eq hb hlt).trans (if_pos (of_decide_eq_true hspans))
  generalize w.state.toCore.reallocated (4194320, 200000) 150000 5091328 = c' at hc
  -- The first byte of the other header is overwritten by a zero of the block that moves.
  have hzero : c'.mem 5242880 = 0 := by
    rw [← hbyte]
    exact Core.largeRealloc_copied (k := 151536) hb hlt hfresh hc (by decide)
  refine ⟨w, c', hrun, hb, hfresh, hc, hlarge (5242896, 200000) (by decide), fun h => ?_,
    fun h => ?_⟩
  · refine absurd h.magic (loadWord_ne_magic ?_)
    rw [show (spanOf (5242896, 200000)).1 = 5242880 by decide, hzero]
    rfl
  · exact absurd (h.fits hb hlt hc) (by decide)

/-! ### The length of a mapping -/

/-- The kernel's answer to a request for a large block of `n` bytes: nothing, or pages
that were not mapped. It maps no pages for a length of zero. -/
def Core.Answers (c : Core) (n : ℕ) (mmap : Option ℕ) : Prop :=
  ∀ ptr ∈ mmap, 0 < add64 n sizeofMmapHeader ∧
    MapsFresh c.mapped ptr (pageUp (add64 n sizeofMmapHeader))

/-- **A large block of `n` bytes has room**: neither `n` nor its sum with the length of
the header wraps, and so many bytes are mapped from the header of the block on. -/
structure Core.Roomy (c : Core) (n ptr : ℕ) : Prop where
  numBytes : n % 2 ^ 64 = n
  alloced : add64 n sizeofMmapHeader = n + sizeofMmapHeader
  mapping : ∃ r ∈ c.mapped, r.1 + sizeofMmapHeader = ptr ∧ sizeofMmapHeader + n ≤ r.2

/-- The pages of a large block, as its header tells them, are mapped. -/
def Core.LargeMapped (c : Core) (ptr : ℕ) : Prop :=
  0 < c.allocedSize ptr ∧
    ∀ a, AddressSpace.Mem a (ptr - sizeofMmapHeader, pageUp (c.allocedSize ptr)) → Covers c.mapped a

namespace Core

variable {c c' : Core} {n ptr size : ℕ} {mmap : Option ℕ}

/-- A large block that is what it should be has its pages mapped. -/
theorem LargeMapped.of_largeBlock {b : ℕ × ℕ} (hb : LargeBlock c b) : c.LargeMapped b.1 := by
  have halloced : c.allocedSize b.1 = b.2 + sizeofMmapHeader := hb.alloced_eq
  rw [LargeMapped, halloced]
  exact ⟨by rw [sizeofMmapHeader]; omega, hb.covers⟩

/-- **A new mapping has room** for a block exactly if the sum of its size and that of the
header does not wrap. -/
theorem roomy_iff (hptr : 0 < add64 n sizeofMmapHeader ∧
      MapsFresh c.mapped ptr (pageUp (add64 n sizeofMmapHeader)))
    (hmem : (ptr, pageUp (add64 n sizeofMmapHeader)) ∈ c'.mapped)
    (hsub : ∀ r ∈ c'.mapped, ∃ q ∈ (ptr, pageUp (add64 n sizeofMmapHeader)) :: c.mapped,
      ∀ a, AddressSpace.Mem a r → AddressSpace.Mem a q) :
    c'.Roomy n (ptr + sizeofMmapHeader) ↔ n + sizeofMmapHeader < 2 ^ 64 := by
  have hup := le_pageUp (add64 n sizeofMmapHeader)
  constructor
  · intro h
    obtain ⟨r, hr, hbase, hlen⟩ := h.mapping
    obtain ⟨q, hq, hrq⟩ := hsub r hr
    simp only [AddressSpace.Mem, sizeofMmapHeader] at *
    have hfirst := hrq ptr (by omega)
    rcases List.mem_cons.mp hq with rfl | hq
    · -- The pages of a sum that wraps are fewer than the block and its header.
      have hlast := hrq (r.1 + r.2 - 1) (by omega)
      simp only [add64, pageUp, pageSize] at *
      omega
    · exact absurd ⟨q, hq, hfirst⟩ (hptr.2.2.2.2.not_covers ⟨le_rfl, by omega⟩)
  · intro hlt
    have hadd : add64 n sizeofMmapHeader = n + sizeofMmapHeader := add64_eq hlt
    rw [hadd] at hmem hup
    exact ⟨Nat.mod_eq_of_lt (by omega), hadd, _, hmem, rfl, by omega⟩

/-- A call that returns `NULL` when `mmap` does. -/
theorem forall_roomy_iff {r : Option ℕ} (hnone : mmap = none → r = none)
    (hsome : ∀ newPtr, mmap = some newPtr → r = some (newPtr + sizeofMmapHeader) ∧
      (c'.Roomy n (newPtr + sizeofMmapHeader) ↔ n + sizeofMmapHeader < 2 ^ 64)) :
    (∀ p ∈ r, c'.Roomy n p) ↔ mmap = none ∨ n + sizeofMmapHeader < 2 ^ 64 := by
  cases mmap with
  | none => simp [hnone rfl]
  | some newPtr =>
    obtain ⟨hr, hiff⟩ := hsome newPtr rfl
    simp [hr, hiff]

/-- **`large_alloc`** returns a block with room, unless the sum wraps. -/
theorem largeAlloc_roomy (hmmap : c.Answers n mmap) :
    (∀ p ∈ (c.largeAlloc n mmap).1, (c.largeAlloc n mmap).2.Roomy n p) ↔
      mmap = none ∨ n + sizeofMmapHeader < 2 ^ 64 := by
  refine forall_roomy_iff (fun h => by rw [h]; rfl) fun newPtr h => ?_
  subst h
  exact ⟨rfl, roomy_iff (hmmap newPtr rfl) (List.mem_cons_self ..) fun r hr => ⟨r, hr, fun _ => id⟩⟩

/-- `munmap` leaves a mapping alone that lies apart from its range. -/
theorem mem_unmapPages {r : Region} {len : ℕ} (hr : r ∈ c.mapped)
    (h : Apart r (ptr, pageUp len)) (hpos : 0 < r.2) : r ∈ (c.unmapPages ptr len).mapped := by
  rw [unmapPages]
  split
  · exact mem_unmap hr h hpos
  · exact hr

/-- What is mapped after `munmap` was mapped before. -/
theorem exists_of_mem_unmapPages {r : Region} {len : ℕ} (hr : r ∈ (c.unmapPages ptr len).mapped) :
    ∃ q ∈ c.mapped, ∀ a, AddressSpace.Mem a r → AddressSpace.Mem a q := by
  rw [unmapPages] at hr
  split at hr
  · exact exists_of_mem_unmap hr
  · exact ⟨r, hr, fun _ => id⟩

/-- **The copy of `large_realloc` meets no fault**: what does not fit into the pages of a
block of `n` bytes finds mapped memory behind them. -/
def CopyMapped (c : Core) (ptr n : ℕ) (mmap : Option ℕ) : Prop :=
  ∀ newPtr ∈ mmap, Spans ((newPtr, pageUp (n + sizeofMmapHeader)) :: c.mapped)
    (newPtr, c.allocedSize ptr)

/-- A block that fits into the pages of the new one. -/
theorem CopyMapped.of_le {b : ℕ × ℕ} (hb : LargeBlock c b)
    (hfits : b.2 + sizeofMmapHeader ≤ pageUp (n + sizeofMmapHeader)) : c.CopyMapped b.1 n mmap := by
  intro newPtr _
  rw [hb.alloced_eq]
  exact fun a ha =>
    covers_cons.mpr (Or.inl ⟨ha.1, lt_of_lt_of_le ha.2 (Nat.add_le_add_left hfits _)⟩)

/-- **`large_realloc`** returns, and a block with room, unless the sum wraps or the copy
faults. -/
theorem largeRealloc_roomy (hold : c.LargeMapped ptr) (hmmap : c.Answers n mmap) :
    (∃ r c', c.largeRealloc ptr n mmap = some (r, c') ∧ ∀ p ∈ r, c'.Roomy n p) ↔
      mmap = none ∨ n + sizeofMmapHeader < 2 ^ 64 ∧ c.CopyMapped ptr n mmap := by
  cases mmap with
  | none => exact iff_of_true ⟨none, c, rfl, fun _ hp => by cases hp⟩ (Or.inl rfl)
  | some newPtr =>
    obtain ⟨hpos, hfresh⟩ := hmmap newPtr rfl
    have hup := le_pageUp (add64 n sizeofMmapHeader)
    have hup' := le_pageUp (c.allocedSize ptr)
    have hsrc : Spans c.mapped (ptr - sizeofMmapHeader, c.allocedSize ptr) :=
      (show Spans _ _ from hold.2).mono fun a ha =>
        ⟨ha.1, lt_of_lt_of_le ha.2 (Nat.add_le_add_left hup' _)⟩
    -- The old mapping is unmapped, which lies apart from the new one.
    have hapart : Apart (ptr - sizeofMmapHeader, pageUp (c.allocedSize ptr))
        (newPtr, pageUp (add64 n sizeofMmapHeader)) :=
      hfresh.2.2.2.apart hold.2 (by have := hold.1; omega) (by omega)
    rw [largeRealloc_of_spans hsrc]
    generalize hc' : (((c.mapPages (some newPtr) (add64 n sizeofMmapHeader)).2.copy newPtr
      (ptr - sizeofMmapHeader) (c.allocedSize ptr)).unmapPages (ptr - sizeofMmapHeader)
      (c.allocedSize ptr)).setMmapHeader newPtr n = c'
    have hroomy : c'.Roomy n (newPtr + sizeofMmapHeader) ↔ n + sizeofMmapHeader < 2 ^ 64 := by
      rw [← hc']
      exact roomy_iff ⟨hpos, hfresh⟩
        (mem_unmapPages (List.mem_cons_self ..) hapart.symm (by omega)) fun r hr =>
          exists_of_mem_unmapPages hr
    constructor
    · rintro ⟨r, c₁, heq, h⟩
      split at heq
      · rename_i hspans
        obtain ⟨rfl, rfl⟩ := Prod.mk.inj (Option.some.inj heq)
        have hlt := hroomy.mp (h _ rfl)
        rw [add64_eq hlt] at hspans
        refine Or.inr ⟨hlt, fun q hq => ?_⟩
        obtain rfl := Option.some.inj hq
        exact hspans
      · cases heq
    · rintro (h | ⟨hlt, hcopy⟩)
      · cases h
      · have hspans := hcopy newPtr rfl
        rw [← add64_eq hlt] at hspans
        rw [if_pos hspans]
        refine ⟨_, _, rfl, fun p hp => ?_⟩
        obtain rfl := Option.some.inj hp
        exact hroomy.mpr hlt

/-- A block with room is mapped. -/
theorem Roomy.spans (h : c.Roomy n ptr) : Spans c.mapped (ptr, n) := by
  obtain ⟨r, hr, hbase, hlen⟩ := h.mapping
  refine fun a ha => ⟨r, hr, ?_⟩
  simp only [AddressSpace.Mem] at ha ⊢
  omega

end Core

namespace State

variable {s : State} {heap : HeapId} {n nmemb size : ℕ} {mmap : Option ℕ}

/-- A call returns, and a block that it returns has room for `n` bytes. -/
def Roomy (n : ℕ) (result : Option (Option ℕ × State)) : Prop :=
  ∃ r s', result = some (r, s') ∧ ∀ p ∈ r, s'.toCore.Roomy n p

/-- A call that returns. -/
theorem roomy_some {r : Option ℕ} : Roomy n (some (r, s)) ↔ ∀ p ∈ r, s.toCore.Roomy n p := by
  constructor
  · rintro ⟨r', s', heq, h⟩
    obtain ⟨rfl, rfl⟩ := Prod.mk.inj (Option.some.inj heq)
    exact h
  · exact fun h => ⟨r, s, rfl, h⟩

/-- **Clearing a block** meets no fault if the block has room, and leaves the mappings
alone. -/
theorem roomy_cleared {r : Option ℕ} :
    Roomy n (if ∀ p ∈ r, Spans s.mapped (p, n) then some (r, Process.cleared s n r) else none) ↔
      Roomy n (some (r, s)) := by
  have hcleared : Roomy n (some (r, Process.cleared s n r)) ↔ Roomy n (some (r, s)) := by
    rw [roomy_some, roomy_some]
    cases r with
    | none => rfl
    | some q =>
      exact forall₂_congr fun p _ => ⟨fun h => ⟨h.1, h.2, h.3⟩, fun h => ⟨h.1, h.2, h.3⟩⟩
  constructor
  · intro h
    split at h
    · exact hcleared.mp h
    · obtain ⟨_, _, heq, -⟩ := h
      cases heq
  · intro h
    rw [if_pos fun p hp => (roomy_some.mp h p hp).spans]
    exact hcleared.mpr h

/-- **`malloc`** of a large size. -/
theorem malloc_roomy (hsize : maxBlockSize < n) (hmmap : s.toCore.Answers n mmap) :
    Roomy n (s.malloc heap n mmap) ↔ mmap = none ∨ n + sizeofMmapHeader < 2 ^ 64 := by
  rw [← Core.largeAlloc_roomy hmmap, Process.malloc_eq_large hsize rfl, roomy_some]
  rfl

/-- The check of `calloc` refuses exactly the products that wrap. -/
theorem calloc_overflow_iff (hnmemb : nmemb ≠ 0) :
    (2 ^ 64 - 1) / nmemb < size ↔ 2 ^ 64 ≤ nmemb * size := by
  rw [Nat.div_lt_iff_lt_mul (Nat.pos_of_ne_zero hnmemb), Nat.mul_comm]
  omega

/-- **`calloc`** of a large size: it refuses a product that wraps, but not a sum. -/
theorem calloc_roomy (hsize : maxBlockSize < nmemb * size)
    (hmmap : s.toCore.Answers (nmemb * size) mmap) :
    Roomy (nmemb * size) (s.calloc heap nmemb size mmap) ↔
      mmap = none ∨ nmemb * size + sizeofMmapHeader < 2 ^ 64 ∨ 2 ^ 64 ≤ nmemb * size := by
  have hnmemb : nmemb ≠ 0 := by
    rintro rfl
    omega
  have hzero : ¬(nmemb = 0 ∨ size = 0) := by
    rintro (h | h)
    · exact hnmemb h
    · rw [h] at hsize
      omega
  by_cases hover : 2 ^ 64 ≤ nmemb * size
  · have hnull : s.calloc heap nmemb size mmap = some (none, s) := by
      rw [calloc, if_neg hzero, if_pos ((calloc_overflow_iff hnmemb).mpr hover)]
    rw [hnull, roomy_some]
    exact iff_of_true (fun p hp => by cases hp) (Or.inr (Or.inr hover))
  · have hmalloc : s.malloc heap (nmemb * size) mmap = _ := Process.malloc_eq_large hsize rfl
    have hroomy : Roomy (nmemb * size) (s.malloc heap (nmemb * size) mmap) ↔ _ :=
      malloc_roomy hsize hmmap
    rw [Process.calloc_eq hzero (mt (calloc_overflow_iff hnmemb).mp hover)
      (Nat.lt_of_not_le hover) hmalloc, ← or_assoc, or_iff_left hover, ← hroomy, hmalloc]
    exact roomy_cleared

end State

/-- **The functions return, and large blocks have room for what was asked for**, whichever
function returns them, exactly if the sum of the number of bytes and the length of the
header does not wrap, or nothing is mapped: because `mmap` fails, or because `calloc`
refuses the product. `large_realloc` returns only if its copy meets no fault. -/
theorem large_blocks_roomy (s : State) (heap : HeapId) (mmap : Option ℕ) :
    (∀ size, maxBlockSize < size → s.toCore.Answers size mmap →
      (State.Roomy size (s.malloc heap size mmap) ↔
        mmap = none ∨ size + sizeofMmapHeader < 2 ^ 64)) ∧
    (∀ nmemb size, maxBlockSize < nmemb * size → s.toCore.Answers (nmemb * size) mmap →
      (State.Roomy (nmemb * size) (s.calloc heap nmemb size mmap) ↔
        mmap = none ∨ nmemb * size + sizeofMmapHeader < 2 ^ 64 ∨ 2 ^ 64 ≤ nmemb * size)) ∧
    (∀ ptr size, s.toCore.LargeMapped ptr → s.toCore.Answers size mmap →
      ((∃ r c', s.toCore.largeRealloc ptr size mmap = some (r, c') ∧ ∀ p ∈ r, c'.Roomy size p) ↔
        mmap = none ∨ size + sizeofMmapHeader < 2 ^ 64 ∧ s.toCore.CopyMapped ptr size mmap)) :=
  ⟨fun _ => State.malloc_roomy, fun _ _ => State.calloc_roomy, fun _ _ => Core.largeRealloc_roomy⟩

/-- A third block of 300000 bytes, from each of the three functions. -/
theorem large_blocks_roomy_calloc : ∃ w, Trace.run Process.step {} twoLarge = some w ∧
    State.Roomy 300000 (w.state.malloc (.thread 0) 300000 (some 6291456)) ∧
    State.Roomy (3 * 100000) (w.state.calloc (.thread 0) 3 100000 (some 6291456)) ∧
    ∃ r c', w.state.toCore.largeRealloc 4194320 300000 (some 6291456) = some (r, c') ∧
      ∀ p ∈ r, c'.Roomy 300000 p := by
  obtain ⟨w, hrun, hlarge⟩ := largeBlock_of_twoLarge
  have hb := hlarge (4194320, 200000) (by decide)
  have hsize : maxBlockSize < 300000 := by decide +kernel
  have hlast : (Trace.run Process.step {} twoLarge).map (fun w => decide
      (MapsFresh w.state.mapped 6291456 (pageUp (add64 300000 sizeofMmapHeader)))) =
        some true := by decide +kernel
  rw [hrun] at hlast
  have hmmap : w.state.toCore.Answers 300000 (some 6291456) := by
    rintro ptr ⟨rfl⟩
    exact ⟨by decide, of_decide_eq_true (Option.some.inj hlast)⟩
  have hold := Core.LargeMapped.of_largeBlock hb
  have hfits : 200000 + sizeofMmapHeader ≤ pageUp (300000 + sizeofMmapHeader) := by decide
  have hcopy : w.state.toCore.CopyMapped (4194320, 200000).1 300000 (some 6291456) :=
    Core.CopyMapped.of_le hb hfits
  obtain ⟨hmalloc, hcalloc, hrealloc⟩ :=
    large_blocks_roomy w.state (.thread 0) (some 6291456)
  exact ⟨w, hrun, (hmalloc 300000 hsize hmmap).mpr (Or.inr (by decide)),
    (hcalloc 3 100000 hsize hmmap).mpr (Or.inr (Or.inl (by decide))),
    (hrealloc 4194320 300000 hold hmmap).mpr (Or.inr ⟨by decide, hcopy⟩)⟩

/-- **A block of the largest size gets one page**, and `calloc` faults when it clears it. -/
theorem huge_block_cramped : ({} : Core).Answers (2 ^ 64 - 1) (some 4194304) ∧
    (∃ s', ({} : State).malloc (.thread 0) (2 ^ 64 - 1) (some 4194304) =
        some (some 4194320, s') ∧
      s'.mapped = [(4194304, 4096)] ∧ ¬s'.toCore.Roomy (2 ^ 64 - 1) 4194320) ∧
    ({} : State).calloc (.thread 0) 1 (2 ^ 64 - 1) (some 4194304) = none := by
  have hsize : maxBlockSize < 2 ^ 64 - 1 := by decide +kernel
  have hmapped : (({} : Core).largeAlloc (2 ^ 64 - 1) (some 4194304)).2.mapped =
      [(4194304, 4096)] := by decide +kernel
  have hmalloc : ({} : State).malloc (.thread 0) (1 * (2 ^ 64 - 1)) (some 4194304) = some
      (some 4194320, ({} : State).setCore
        (({} : Core).largeAlloc (2 ^ 64 - 1) (some 4194304)).2) :=
    Process.malloc_eq_large hsize rfl
  refine ⟨?_, ⟨_, hmalloc, hmapped, fun h => ?_⟩, ?_⟩
  · rintro ptr ⟨rfl⟩
    exact ⟨by decide, by decide⟩
  · obtain ⟨r, hr, -, hlen⟩ := h.mapping
    obtain rfl := List.mem_singleton.mp (hmapped ▸ hr)
    exact absurd hlen (by decide)
  · rw [Process.calloc_eq (by decide) (by decide) (by decide) hmalloc, if_neg]
    intro h
    have hspans : Spans (({} : Core).largeAlloc (2 ^ 64 - 1) (some 4194304)).2.mapped
      (4194320, 1 * (2 ^ 64 - 1)) := h _ rfl
    rw [hmapped] at hspans
    exact absurd hspans (by decide)

end MyMalloc
