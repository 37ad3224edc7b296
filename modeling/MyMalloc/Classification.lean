import MyMalloc.Effects

/-!
# Large and small blocks are told apart

What `free` and `realloc` rest on: `is_large_alloc` holds of a live block exactly if
`large_alloc` or `large_realloc` returned it (`MyMalloc.Process.Classified`), after every
run of the public functions.

The test reads the memory before the block, which for a small block is as a rule the
memory of another block. So it can be fooled: a client that writes the magic number
into the last 16 bytes of its block makes the next block look large
(`MyMalloc.small_block_misclassified`). What a run must not do is
`MyMalloc.Process.Tame`, and the runs without are classified
(`MyMalloc.live_blocks_classified`).
-/

namespace MyMalloc

open LinkedList Placement AddressSpace ByteMemory Depot

/-- **No mark in a block**: of the first `n` bytes of the small block at `ptr`, none
are the magic number where a block could follow. -/
def Core.NoMark (c : Core) (ptr n : ℕ) : Prop :=
  ∀ k < (n + 15) / 16, (k = 0 → (c.header (superblockOf ptr)).blockSize = 16) →
    ptr + 16 * k + 32 ≤ superblockOf ptr + superblockSize →
    loadWord 4 c.mem (ptr + 16 * k) ≠ mmapHeaderMagic

instance (c : Core) (ptr n : ℕ) : Decidable (c.NoMark ptr n) :=
  inferInstanceAs (Decidable (∀ k < _, _))

/-! ### Large blocks beside the superblocks -/

/-- Regions that lie apart belong to different blocks. -/
theorem ne_of_apart {b b' : ℕ × ℕ} (h : Apart (spanOf b) (spanOf b')) : b.1 ≠ b'.1 := by
  intro hc
  have hle := le_pageUp (b.2 + sizeofMmapHeader)
  have hle' := le_pageUp (b'.2 + sizeofMmapHeader)
  simp only [Apart, spanOf, sizeofMmapHeader, hc] at *
  omega

namespace Depot

/-- **Large blocks beside the superblocks**: no superblock holds a mark where a block
could follow, and the large blocks are well and lie apart from each other. -/
structure Hosts (d : Depot) (large : List (ℕ × ℕ)) : Prop where
  inv : d.Inv
  marks : d.Unmarked
  block : ∀ b ∈ large, LargeBlock d.core b
  apart : large.Pairwise fun b b' => Apart (spanOf b) (spanOf b')

namespace Hosts

variable {d : Depot} {large : List (ℕ × ℕ)} (h : d.Hosts large)

include h

/-- A small block is found to be small. -/
theorem isLargeAlloc_live {b : ℕ × ℕ} (hb : b ∈ d.live) : d.core.isLargeAlloc b.1 = false :=
  h.inv.isLargeAlloc h.marks hb

/-- A large block is found to be large. -/
theorem isLargeAlloc_large {b : ℕ × ℕ} (hb : b ∈ large) : d.core.isLargeAlloc b.1 = true :=
  (h.block b hb).isLargeAlloc

/-- No block is small and large. -/
theorem ne_of_live {b b' : ℕ × ℕ} (hb : b ∈ d.live) (hb' : b' ∈ large) : b.1 ≠ b'.1 := by
  intro hc
  have hsmall := h.isLargeAlloc_live hb
  rw [hc, h.isLargeAlloc_large hb'] at hsmall
  exact Bool.false_ne_true hsmall.symm

/-- Every superblock is mapped. -/
theorem covers {x : ℕ} (hx : x ∈ d.core.superblocks) :
    ∀ a, AddressSpace.Mem a (x, superblockSize) → Covers d.core.mapped a :=
  fun a ha => (h.inv.placed x hx).covers a ha.1 ha.2

/-- The block a small one was carved for is mapped. -/
theorem spans_carved {b : ℕ × ℕ} (hb : b ∈ d.live) :
    Spans d.core.mapped (b.1, (d.core.header (superblockOf b.1)).blockSize) := by
  obtain ⟨hlo, hhi⟩ := h.inv.live_mem hb
  refine (show Spans _ _ from h.covers (h.inv.live_known b hb).1).mono fun a ha => ?_
  simp only [AddressSpace.Mem] at ha ⊢
  omega

/-- **The blocks are mapped.** -/
theorem spans {b : ℕ × ℕ} (hb : b ∈ d.live ++ large) : Spans d.core.mapped b := by
  rcases List.mem_append.mp hb with hb | hb
  · have hle := (h.inv.live_known b hb).2
    exact (h.spans_carved hb).mono fun a ha => ⟨ha.1, by have := ha.2; simp only; omega⟩
  · have hbase := (h.block b hb).base_add
    have hadd := (h.block b hb).add_le
    exact (show Spans _ _ from (h.block b hb).covers).mono fun a ha => ⟨by have := ha.1; omega,
      by have := ha.2; omega⟩

/-- **What `realloc` copies is mapped**: as much of a large block as the new one has, or as
much of a small one as it was carved for. -/
theorem spans_copied {b : ℕ × ℕ} (hb : b ∈ d.live ++ large) {size : ℕ} {P : Prop} [Decidable P]
    (hold : P ↔ b ∈ large) (hle : P → size ≤ b.2) : Spans d.core.mapped (b.1,
      if P then size else min (d.core.header (superblockOf b.1)).blockSize size) := by
  split
  · rename_i hP
    have hsize := hle hP
    exact (h.spans hb).mono fun a ha => ⟨ha.1, by have := ha.2; simp only at this; omega⟩
  · rename_i hP
    have hsmall := (List.mem_append.mp hb).resolve_right (mt hold.mpr hP)
    exact (h.spans_carved hsmall).mono fun a ha =>
      ⟨ha.1, by have := ha.2; simp only at this ⊢; omega⟩

/-- **Memory outside the superblocks is reassigned** to other large blocks. -/
theorem recore {c : Core} {large' : List (ℕ × ℕ)} (hheader : c.header = d.core.header)
    (hsb : c.superblocks = d.core.superblocks)
    (hmem : ∀ x ∈ d.core.superblocks, ∀ i, x ≤ i → i < x + superblockSize →
      c.mem i = d.core.mem i)
    (hmapped : ∀ x ∈ d.core.superblocks, ∀ i, x ≤ i → i < x + superblockSize →
      Covers c.mapped i)
    (hlarge : ∀ b ∈ large', LargeBlock c b)
    (hapart : large'.Pairwise fun b b' => Apart (spanOf b) (spanOf b')) :
    (d.setCore c).Hosts large' where
  inv := h.inv.elsewhere hheader hsb hmem hmapped
  marks x hx a hdvd hlo hhi hfirst := by
    have hx : x ∈ d.core.superblocks := hsb ▸ hx
    have hword : loadWord 4 c.mem a = loadWord 4 d.core.mem a :=
      loadWord_congr fun i hi hi' => hmem x hx i (by omega) (by omega)
    refine hword ▸ h.marks x hx a hdvd hlo hhi fun hlive => ?_
    have hsize := hfirst hlive
    simp only [setCore, hheader] at hsize
    exact hsize
  block := hlarge
  apart := hapart

/-- **A large block is mapped**: fresh pages, with anything but the header in them. -/
theorem map {ptr size : ℕ} {mem : ByteMemory.Mem} (hsize : size < 2 ^ 64)
    (hptr : MapsFresh d.core.mapped ptr (pageUp (size + sizeofMmapHeader)))
    (hout : ∀ a, a < ptr ∨ ptr + pageUp (size + sizeofMmapHeader) ≤ a → mem a = d.core.mem a)
    {c : Core} (hc : c = Core.setMmapHeader { d.core with
      mapped := (ptr, pageUp (size + sizeofMmapHeader)) :: d.core.mapped
      mem := mem } ptr size) :
    (d.setCore c).Hosts ((ptr + sizeofMmapHeader, size) :: large) := by
  obtain ⟨hdvd, -, hle, hfresh⟩ := hptr
  have hup := le_pageUp (size + sizeofMmapHeader)
  -- What was mapped keeps its bytes, stays mapped, and lies apart from the new pages.
  have hmem : ∀ a, Covers d.core.mapped a → c.mem a = d.core.mem a := by
    intro a ha
    have houtside := hfresh.outside ha
    rw [hc, Core.setMmapHeader_mem _ _ _ (by omega)]
    exact hout a houtside
  have hcovers : ∀ a, Covers d.core.mapped a → Covers c.mapped a := by
    intro a ha
    rw [hc]
    exact covers_cons.mpr (Or.inr ha)
  have hapart : ∀ r : Region, 0 < r.2 → (∀ a, AddressSpace.Mem a r → Covers d.core.mapped a) →
      Apart (ptr, pageUp (size + sizeofMmapHeader)) r := by
    intro r hpos hr
    refine (hfresh.apart hr hpos ?_).symm
    simp only [sizeofMmapHeader] at hup ⊢
    omega
  refine h.recore (by rw [hc]; rfl) (by rw [hc]; rfl)
    (fun x hx i hi hi' => hmem i (h.covers hx i ⟨hi, hi'⟩))
    (fun x hx i hi hi' => hcovers i (h.covers hx i ⟨hi, hi'⟩)) (fun b hb => ?_)
    (List.pairwise_cons.mpr ⟨fun b hb => ?_, h.apart⟩)
  · rcases List.mem_cons.mp hb with rfl | hb
    · rw [hc]
      exact .of_setMmapHeader hsize hdvd hle (fun a ha => covers_cons.mpr (Or.inl ha)) fun x hx =>
        hapart _ (by simp only [superblockSize_eq]; omega) (h.covers hx)
    · exact (h.block b hb).congr (fun a ha ha' => hmem a ((h.block b hb).covers_header ha ha'))
        (fun a ha => hcovers a ((h.block b hb).covers a ha)) fun x hx => Or.inl (by rwa [hc] at hx)
  · rw [spanOf_add]
    exact hapart _ (h.block b hb).pos (h.block b hb).covers

/-- **A large block is unmapped.** -/
theorem unmap {b : ℕ × ℕ} (hb : b ∈ large) {c : Core}
    (hc : c = { d.core with
      mapped := AddressSpace.unmap d.core.mapped (spanOf b).1 (spanOf b).2 }) :
    (d.setCore c).Hosts (large.filter fun b' => b'.1 ≠ b.1) := by
  have hcovers : ∀ a, Covers c.mapped a ↔
      Covers d.core.mapped a ∧ ¬AddressSpace.Mem a (spanOf b) := by
    intro a
    rw [hc]
    exact covers_unmap
  -- A region that lies apart from the block loses nothing.
  have hkept : ∀ r : Region, Apart (spanOf b) r →
      (∀ a, AddressSpace.Mem a r → Covers d.core.mapped a) →
      ∀ a, AddressSpace.Mem a r → Covers c.mapped a := by
    intro r hapart hr a ha
    exact (hcovers a).mpr ⟨hr a ha, hapart.symm.not_mem ha⟩
  refine h.recore (by rw [hc]) (by rw [hc]) (fun _ _ _ _ _ => by rw [hc])
    (fun x hx i hi hi' => hkept _ ((h.block b hb).apart x hx) (h.covers hx) i ⟨hi, hi'⟩)
    (fun b' hb' => ?_) (h.apart.filter _)
  obtain ⟨hb', hne⟩ := List.mem_filter.mp hb'
  have hne : b ≠ b' := by
    rintro rfl
    simp at hne
  refine (h.block b' hb').congr (fun _ _ _ => by rw [hc])
    (hkept _ (apart_of_pairwise h.apart hb hb' hne) (h.block b' hb').covers) fun x hx =>
      Or.inl (by rwa [hc] at hx)

/-- No mark gets into a superblock with the bytes of a block, if none gets into the
block. -/
theorem unmarked_of_noMark {b : ℕ × ℕ} (hb : b ∈ d.live) {mem : ByteMemory.Mem}
    (hout : ∀ i, i < b.1 ∨ b.1 + b.2 ≤ i → mem i = d.core.mem i)
    (hmark : Core.NoMark { d.core with mem := mem } b.1 b.2) :
    (d.setCore { d.core with mem := mem }).Unmarked := by
  intro y hy a hdvd hlo hhi hfirst
  have hsb := (h.inv.live_known b hb).1
  obtain ⟨hbase, hend, hbdvd, -⟩ :=
    (h.inv.carved _ hsb).live_mem (h.inv.isSuperblock hsb) (Inv.mem_liveIn hb)
  have hle := (h.inv.live_known b hb).2
  by_cases hin : b.1 ≤ a ∧ a < b.1 + b.2
  · -- The block is written at this word.
    have hyx : y = superblockOf b.1 := by
      by_contra hne
      have hdis := (h.inv.placed y hy).disjoint (h.inv.placed _ hsb) hne
      rw [superblockSize_eq, sizeofSuperblockHeader_eq] at *
      omega
    have hk : b.1 + 16 * ((a - b.1) / 16) = a := by omega
    -- The word is one of those that `Core.NoMark` speaks of.
    have hnot := hmark ((a - b.1) / 16) (by omega) fun hzero => ?_
    · rw [hk] at hnot
      exact hnot (by rw [← hyx]; exact hhi)
    · have hab : a = b.1 := by omega
      subst hyx
      exact hfirst (hab ▸ Inv.mem_liveIn hb)
  · have hword : loadWord 4 mem a = loadWord 4 d.core.mem a :=
      loadWord_congr fun i hi hi' => hout i (by omega)
    refine hword ▸ h.marks y hy a hdvd hlo hhi hfirst

/-- **The bytes of a small block are written**, and no mark among them. -/
theorem overwrite_small {b : ℕ × ℕ} (hb : b ∈ d.live) {mem : ByteMemory.Mem}
    (hout : ∀ i, i < b.1 ∨ b.1 + b.2 ≤ i → mem i = d.core.mem i)
    (hmark : Core.NoMark { d.core with mem := mem } b.1 b.2) :
    (d.setCore { d.core with mem := mem }).Hosts large where
  inv := h.inv.rewrite hb hout
  marks := h.unmarked_of_noMark hb hout hmark
  block b' hb' := by
    have hsb := (h.inv.live_known b hb).1
    obtain ⟨hlo, hhi⟩ := h.inv.live_mem hb
    have hle := (h.inv.live_known b hb).2
    have hapart := (h.block b' hb').apart _ hsb
    have hbase := (h.block b' hb').base_add
    have hadd := (h.block b' hb').add_le
    simp only [Apart] at hapart
    exact (h.block b' hb').congr (fun a ha ha' => hout a (by omega))
      (h.block b' hb').covers fun x hx => Or.inl hx
  apart := h.apart

/-- **The bytes of a large block are written.** -/
theorem overwrite_large {b : ℕ × ℕ} (hb : b ∈ large) {mem : ByteMemory.Mem}
    (hout : ∀ i, i < b.1 ∨ b.1 + b.2 ≤ i → mem i = d.core.mem i) :
    (d.setCore { d.core with mem := mem }).Hosts large := by
  have hbase := (h.block b hb).base_add
  have hadd := (h.block b hb).add_le
  refine h.recore rfl rfl (fun x hx i hi hi' => hout i ?_)
    (fun x hx i hi hi' => h.covers hx i ⟨hi, hi'⟩) (fun b' hb' => ?_) h.apart
  · have hapart := (h.block b hb).apart x hx
    simp only [Apart] at hapart
    omega
  · refine (h.block b' hb').congr (fun a ha ha' => hout a ?_) (h.block b' hb').covers
      fun x hx => Or.inl hx
    by_cases hbb : b = b'
    · subst hbb
      omega
    · have hapart := apart_of_pairwise h.apart hb hb' hbb
      have hadd' := (h.block b' hb').add_le
      have hbase' := (h.block b' hb').base_add
      simp only [Apart] at hapart
      omega

/-- A copy is recorded. -/
theorem record (copies : List Region) :
    (d.setCore { d.core with copies := copies }).Hosts large :=
  h.recore rfl rfl (fun _ _ _ _ _ => rfl) (fun _ hx i hi hi' => h.covers hx i ⟨hi, hi'⟩)
    (fun b hb => (h.block b hb).congr (fun _ _ _ => rfl) (h.block b hb).covers
      fun _ hx => Or.inl hx) h.apart

/-- **The bytes of a block are written**, and no mark among those of a small one. -/
theorem overwrite {b : ℕ × ℕ} (hb : b ∈ d.live ++ large) {mem : ByteMemory.Mem}
    (hout : ∀ i, i < b.1 ∨ b.1 + b.2 ≤ i → mem i = d.core.mem i)
    (hmark : b ∈ d.live → Core.NoMark { d.core with mem := mem } b.1 b.2) :
    (d.setCore { d.core with mem := mem }).Hosts large := by
  rcases List.mem_append.mp hb with hb | hb
  · exact h.overwrite_small hb hout (hmark hb)
  · exact h.overwrite_large hb hout

/-! ### The large allocator -/

variable {ptr size : ℕ} {c : Core} (hlt : size + sizeofMmapHeader < 2 ^ 64)
  (hptr : MapsFresh d.core.mapped ptr (pageUp (size + sizeofMmapHeader)))

include hlt hptr

/-- **`large_alloc`** adds a block. -/
theorem largeAlloc (hsize : size < 2 ^ 64)
    (hc : d.core.largeAlloc size (some ptr) = (some (ptr + sizeofMmapHeader), c)) :
    (d.setCore c).Hosts ((ptr + sizeofMmapHeader, size) :: large) := by
  rw [Core.largeAlloc, Core.mapPages, add64_eq hlt] at hc
  exact h.map hsize hptr (fun a => fill_outside) (Prod.mk.inj hc).2.symm

/-- **`large_realloc`** replaces a block. -/
theorem largeRealloc {b : ℕ × ℕ} (hb : b ∈ large)
    (hlen : b.2 + sizeofMmapHeader ≤ pageUp (size + sizeofMmapHeader))
    (hc : d.core.largeRealloc b.1 size (some ptr) = some (some (ptr + sizeofMmapHeader), c)) :
    (d.setCore c).Hosts
      ((ptr + sizeofMmapHeader, size) :: large.filter fun b' => b'.1 ≠ b.1) := by
  have hout : ∀ a, a < ptr ∨ ptr + pageUp (size + sizeofMmapHeader) ≤ a →
      store (fill d.core.mem ptr (pageUp (size + sizeofMmapHeader)) 0) ptr
        (load (fill d.core.mem ptr (pageUp (size + sizeofMmapHeader)) 0) (spanOf b).1
          (b.2 + sizeofMmapHeader)) a = d.core.mem a :=
    fun a ha => (store_load_outside (by omega)).trans (fill_outside ha)
  -- The new block is mapped with the copy in it, and then the old one is unmapped.
  have hmap := h.map (by simp only [sizeofMmapHeader] at hlt; omega) hptr hout rfl
  have hunmap := hmap.unmap (List.mem_cons_of_mem _ hb) rfl
  have hne : ptr + sizeofMmapHeader ≠ b.1 :=
    ne_of_apart (List.rel_of_pairwise_cons hmap.apart hb)
  obtain ⟨-, rfl⟩ := Core.eq_of_largeRealloc (h.block b hb) hlt hc
  rw [List.filter_cons_of_pos (by simpa using hne)] at hunmap
  exact hunmap.record ((ptr, b.2 + sizeofMmapHeader) :: d.core.copies)

end Hosts

end Depot

namespace Process

variable (w : Process)

/-- **`is_large_alloc` is right** about every live block. -/
def Classified : Prop :=
  ∀ b ∈ w.small ++ w.large, w.state.toCore.isLargeAlloc b.1 = true ↔ b ∈ w.large

/-- An allocation of some size goes well: a superblock that comes from the recycle
list of the global heap is carved for the class, and the length of the mapping of a
large block does not overflow. -/
def Grants (i size : ℕ) (mmap : Option ℕ) : Prop :=
  (1 ≤ size → size ≤ maxBlockSize → w.state.Matching (.thread i) (binOf size)) ∧
    (maxBlockSize < size → mmap ≠ none → size + sizeofMmapHeader < 2 ^ 64)

instance (i size : ℕ) (mmap : Option ℕ) : Decidable (w.Grants i size mmap) :=
  inferInstanceAs (Decidable (_ ∧ _))

/-- A pointer to a live large block. -/
def IsLarge (ptr : ℕ) : Prop := ∃ b ∈ w.large, b.1 = ptr

instance : DecidablePred w.IsLarge := fun _ => inferInstanceAs (Decidable (∃ b ∈ _, _))

/-- `realloc` copies no mark into the small block it allocates. -/
def CopiesNoMark (i ptr size : ℕ) (mmap : Option ℕ) : Prop :=
  ∀ r ∈ w.state.malloc (.thread i) size mmap, ∀ newPtr ∈ r.1,
    (r.2.toCore.copy newPtr ptr
      (if w.IsLarge ptr then size else min (r.2.getBlockSize ptr) size)).NoMark newPtr size

instance (i ptr size : ℕ) (mmap : Option ℕ) : Decidable (w.CopiesNoMark i ptr size mmap) :=
  inferInstanceAs (Decidable (∀ r ∈ _, _))

/-- **What a run must not do** to have its blocks told apart: fetch a superblock for
another class, overflow the length of a mapping, copy a large block by
`large_realloc` beyond the pages of the new one, and write the magic number into a
small block, at an address from which a block could be 16 bytes away. -/
def Tame : Request → Prop
  | .malloc i size mmap => w.Grants i size mmap
  | .calloc i nmemb size mmap => w.Grants i (nmemb * size) mmap
  | .realloc i ptr size mmap => ∀ p ∈ ptr, w.Grants i size mmap ∧
      if maxBlockSize < size then
        mmap ≠ none → ∀ b ∈ w.large, b.1 = p →
          b.2 + sizeofMmapHeader ≤ pageUp (size + sizeofMmapHeader)
      else w.CopiesNoMark i p size mmap
  | .free _ => True
  | .write ptr off bytes => ∀ b ∈ w.small, b.1 = ptr →
      ({ w.state.toCore with mem := store w.state.mem (ptr + off) bytes } : Core).NoMark ptr b.2

instance : DecidablePred w.Tame
  | .malloc .. => inferInstanceAs (Decidable (w.Grants _ _ _))
  | .calloc .. => inferInstanceAs (Decidable (w.Grants _ _ _))
  | .realloc .. => inferInstanceAs (Decidable (∀ p ∈ _, _))
  | .free _ => isTrue trivial
  | .write .. => inferInstanceAs (Decidable (∀ b ∈ _, _))

/-! ### The invariant -/

variable {w} {d : Depot}

/-- **The invariant of a run**: the depot models the small blocks, no superblock
holds a mark where a block could follow, and the large blocks are well, are larger than
the small ones and lie apart from each other. -/
structure Models (w : Process) (d : Depot) : Prop where
  small : World.Models ⟨w.state, w.small⟩ d
  inv : d.Inv
  marks : d.Unmarked
  large : ∀ b ∈ w.large, LargeBlock d.core b
  size : ∀ b ∈ w.large, maxBlockSize < b.2
  apart : w.large.Pairwise fun b b' => Apart (spanOf b) (spanOf b')

theorem Models.core (hM : w.Models d) : w.state.toCore = d.core := hM.small.refines.core

theorem Models.live (hM : w.Models d) : d.live = w.small := hM.small.live

theorem Models.hosts (hM : w.Models d) : d.Hosts w.large :=
  ⟨hM.inv, hM.marks, hM.large, hM.apart⟩

/-- **Some data changes**, and the large blocks with it. -/
theorem Models.setCore (hM : w.Models d) {c : Core} {large : List (ℕ × ℕ)}
    (h : (d.setCore c).Hosts large) (hsize : ∀ b ∈ large, maxBlockSize < b.2) :
    Models ⟨w.state.setCore c, w.small, large⟩ (d.setCore c) where
  small := ⟨⟨rfl, hM.small.refines.represents.setCore c⟩, hM.live, hM.small.transit⟩
  inv := h.inv
  marks := h.marks
  large := h.block
  size := hsize
  apart := h.apart

/-- A small block is found to be small. -/
theorem Models.isLargeAlloc_small (hM : w.Models d) {b : ℕ × ℕ} (hb : b ∈ w.small) :
    w.state.toCore.isLargeAlloc b.1 = false := by
  rw [hM.core]
  exact hM.hosts.isLargeAlloc_live (hM.live ▸ hb)

/-- A large block is found to be large. -/
theorem Models.isLargeAlloc_large (hM : w.Models d) {b : ℕ × ℕ} (hb : b ∈ w.large) :
    w.state.toCore.isLargeAlloc b.1 = true := by
  rw [hM.core]
  exact hM.hosts.isLargeAlloc_large hb

/-- **The invariant classifies the live blocks.** -/
theorem Models.classified (hM : w.Models d) : w.Classified := by
  intro b hb
  constructor
  · intro hlarge
    refine (List.mem_append.mp hb).resolve_left fun hsmall => ?_
    rw [hM.isLargeAlloc_small hsmall] at hlarge
    exact Bool.false_ne_true hlarge
  · exact hM.isLargeAlloc_large

/-- **`is_large_alloc` on a live pointer.** -/
theorem Models.isLargeAlloc_iff (hM : w.Models d) {ptr : ℕ} (hptr : w.IsLive ptr) :
    w.state.toCore.isLargeAlloc ptr = true ↔ w.IsLarge ptr := by
  constructor
  · obtain ⟨b, hb, rfl⟩ := hptr
    exact fun h => ⟨b, (hM.classified b hb).mp h, rfl⟩
  · rintro ⟨b, hb, rfl⟩
    exact hM.isLargeAlloc_large hb

/-- No block is small and large. -/
theorem Models.ne_of_small_of_large (hM : w.Models d) {b b' : ℕ × ℕ} (hb : b ∈ w.small)
    (hb' : b' ∈ w.large) : b.1 ≠ b'.1 := hM.hosts.ne_of_live (hM.live ▸ hb) hb'

/-- **A block that comes to the live blocks was not live.** -/
theorem Models.not_isLive {size p : ℕ} (hM : (w.add size (some p)).Models d) : ¬w.IsLive p := by
  rintro ⟨b, hb, rfl⟩
  by_cases hsize : maxBlockSize < size
  · rw [add, if_pos hsize] at hM
    rcases List.mem_append.mp hb with hb | hb
    · exact hM.ne_of_small_of_large hb (List.mem_cons_self ..) rfl
    · exact ne_of_apart (List.rel_of_pairwise_cons hM.apart hb) rfl
  · rw [add, if_neg hsize] at hM
    rcases List.mem_append.mp hb with hb | hb
    · -- Two small blocks at one address would be one block.
      have hnd := hM.inv.live_nodup
      rw [hM.live, List.map_cons, List.nodup_cons] at hnd
      exact hnd.1 (List.mem_map.mpr ⟨b, hb, rfl⟩)
    · exact hM.ne_of_small_of_large (List.mem_cons_self ..) hb rfl

/-- **The bytes of a live block are written.** -/
theorem Models.overwrite (hM : w.Models d) {b : ℕ × ℕ} (hb : b ∈ w.small ++ w.large)
    {mem : ByteMemory.Mem} (hout : ∀ i, i < b.1 ∨ b.1 + b.2 ≤ i → mem i = d.core.mem i)
    (hmark : b ∈ w.small → Core.NoMark { d.core with mem := mem } b.1 b.2) :
    Models ⟨w.state.setCore { d.core with mem := mem }, w.small, w.large⟩
      (d.setCore { d.core with mem := mem }) := by
  rw [← hM.live] at hb hmark
  exact hM.setCore (hM.hosts.overwrite hb hout hmark) hM.size

/-! ### The public functions -/

/-- A block that is not taken back may be added before or after. -/
theorem add_remove {size p ptr : ℕ} (hne : p ≠ ptr) :
    (w.add size (some p)).remove (some ptr) = (w.remove (some ptr)).add size (some p) := by
  simp only [add, remove]
  split <;> simp [hne]

theorem add_setState (s : State) (size : ℕ) (r : Option ℕ) :
    ({ w with state := s } : Process).add size r = { w.add size r with state := s } := by
  cases r with
  | none => rfl
  | some p =>
    simp only [add]
    split <;> rfl

/-- `malloc` of a size the small allocator serves. -/
theorem Models.malloc_small (hM : w.Models d) {i size : ℕ} {mmap : Option ℕ} (hpos : size ≠ 0)
    (hsize : size ≤ maxBlockSize) (hpromised : w.Promised size mmap)
    (hgrants : w.Grants i size mmap) :
    ∃ r s d', w.state.malloc (.thread i) size mmap = some (r, s) ∧
      (({ w with state := s } : Process).add size r).Models d' := by
  have hlegal : World.Legal ⟨w.state, w.small⟩ (.alloc i size mmap) := by
    refine ⟨by omega, hsize, fun ptr hptr => ?_⟩
    have hfresh := hpromised ptr hptr
    rwa [if_pos hsize] at hfresh
  obtain ⟨w', d', hw', hstep, hM'⟩ :=
    World.simulates_alloc hM.small hM.inv hlegal (hgrants.1 (by omega) hsize)
  obtain ⟨⟨r, s⟩, halloc, hw'⟩ := Option.bind_eq_some_iff.mp hw'
  have hmodels : ∀ small, World.Models ⟨s, small⟩ d' →
      Models ⟨s, small, w.large⟩ d' := fun small h => {
    small := h
    inv := hstep.inv hM.inv
    marks := (hstep.grows hM.inv).unmarked hM.inv hM.marks
    large := fun b hb => (hstep.grows hM.inv).largeBlock (hM.large b hb)
    size := hM.size
    apart := hM.apart }
  refine ⟨r, s, d', by rw [State.malloc, if_neg hpos, if_neg (by omega)]; exact halloc, ?_⟩
  cases r with
  | none =>
    obtain rfl := Option.some.inj hw'
    exact hmodels _ hM'
  | some p =>
    obtain rfl := Option.some.inj hw'
    rw [add, if_neg (by omega)]
    exact hmodels _ hM'

/-- `malloc` when it calls `large_alloc`. -/
theorem malloc_eq_large {s : State} {heap : HeapId} {size : ℕ} {mmap r : Option ℕ} {c : Core}
    (hsize : maxBlockSize < size) (hc : s.toCore.largeAlloc size mmap = (r, c)) :
    s.malloc heap size mmap = some (r, s.setCore c) := by
  rw [State.malloc, if_neg (by omega), if_pos hsize, hc]

/-- `malloc` of a size the small allocator does not serve. -/
theorem Models.malloc_large (hM : w.Models d) {i size : ℕ} {mmap : Option ℕ}
    (hsize : maxBlockSize < size) (hlt : size < 2 ^ 64) (hpromised : w.Promised size mmap)
    (hgrants : w.Grants i size mmap) :
    ∃ r s d', w.state.malloc (.thread i) size mmap = some (r, s) ∧
      (({ w with state := s } : Process).add size r).Models d' := by
  cases mmap with
  | none => exact ⟨none, w.state, d, malloc_eq_large hsize rfl, hM⟩
  | some ptr =>
    have hover := hgrants.2 hsize (Option.some_ne_none ptr)
    have hptr := hpromised ptr rfl
    rw [if_neg (by omega), add64_eq hover, hM.core] at hptr
    obtain ⟨c, hc⟩ : ∃ c, w.state.toCore.largeAlloc size (some ptr) =
        (some (ptr + sizeofMmapHeader), c) := ⟨_, rfl⟩
    refine ⟨_, _, d.setCore c, malloc_eq_large hsize hc, ?_⟩
    rw [hM.core] at hc
    rw [add, if_pos hsize]
    exact hM.setCore (hM.hosts.largeAlloc hover hptr.2 hlt hc)
      (List.forall_mem_cons.mpr ⟨hsize, hM.size⟩)

/-- **`malloc`** keeps the invariant. -/
theorem Models.malloc (hM : w.Models d) {i size : ℕ} {mmap : Option ℕ} (hlt : size < 2 ^ 64)
    (hpromised : w.Promised size mmap) (hgrants : w.Grants i size mmap) :
    ∃ r s d', w.state.malloc (.thread i) size mmap = some (r, s) ∧
      (({ w with state := s } : Process).add size r).Models d' := by
  by_cases hpos : size = 0
  · exact ⟨none, w.state, d, if_pos hpos, hM⟩
  by_cases hsize : size ≤ maxBlockSize
  · exact hM.malloc_small hpos hsize hpromised hgrants
  · exact hM.malloc_large (by omega) hlt hpromised hgrants

/-- Taking back a large block. -/
theorem Models.remove_large (hM : w.Models d) {b : ℕ × ℕ} (hb : b ∈ w.large) :
    w.remove (some b.1) = { w with large := w.large.filter fun b' => b'.1 ≠ b.1 } := by
  have hsmall : (w.small.filter fun b' => b'.1 ≠ b.1) = w.small := by
    refine List.filter_eq_self.mpr fun b' hb' => ?_
    simpa using hM.ne_of_small_of_large hb' hb
  rw [remove, hsmall]

/-- **`free`** of a live block keeps the invariant. -/
theorem Models.free (hM : w.Models d) {ptr : ℕ} (hptr : w.IsLive ptr) :
    ∃ s d', w.state.free (some ptr) = some s ∧
      ({ w.remove (some ptr) with state := s } : Process).Models d' := by
  obtain ⟨b, hb, rfl⟩ := hptr
  rcases List.mem_append.mp hb with hb | hb
  · have hnot : ¬w.state.toCore.isLargeAlloc b.1 = true := by
      rw [hM.isLargeAlloc_small hb]
      exact Bool.false_ne_true
    have hlegal : World.Legal ⟨w.state, w.small⟩ (.free b.1) := ⟨b, hb, rfl⟩
    obtain ⟨w', d', hw', hstep, hM'⟩ := World.simulates_free hM.small hM.inv hlegal
    obtain ⟨s, hfree, hw'⟩ := Option.bind_eq_some_iff.mp hw'
    obtain rfl := Option.some.inj hw'
    have hlive : b ∈ d.live := hM.live ▸ hb
    have hfrees := hstep.frees hM.inv
    -- The link that is written into the block is no mark.
    refine ⟨s, d', by rw [State.free, if_neg hnot, hfree], hM', hstep.inv hM.inv,
      hfrees.unmarked hM.inv hlive hM.marks, fun b' hb' => ?_,
      fun b' hb' => hM.size b' (List.mem_of_mem_filter hb'), hM.apart.filter _⟩
    exact hfrees.largeBlock hM.inv hlive (hM.large b' (List.mem_of_mem_filter hb'))
  · have hcore : w.state.toCore.largeFree b.1 =
        { d.core with mapped := AddressSpace.unmap d.core.mapped (spanOf b).1 (spanOf b).2 } := by
      rw [hM.core, (hM.large b hb).largeFree_eq]
    refine ⟨_, d.setCore (w.state.toCore.largeFree b.1),
      by rw [State.free, if_pos (hM.isLargeAlloc_large hb)], ?_⟩
    rw [hcore, hM.remove_large hb]
    exact hM.setCore (hM.hosts.unmap hb rfl) fun b' hb' => hM.size b' (List.mem_of_mem_filter hb')

/-- The block that is added is live. -/
theorem mem_add (w : Process) (size p : ℕ) :
    (p, size) ∈ (w.add size (some p)).small ++ (w.add size (some p)).large := by
  simp only [add]
  split <;> simp

/-- Clearing a block leaves no mark in it. -/
theorem noMark_clear (c : Core) (ptr n : ℕ) : (c.clear ptr n).NoMark ptr n := by
  intro k hk _ _
  refine loadWord_ne_magic ?_
  have hzero : (c.clear ptr n).mem (ptr + 16 * k) = 0 := fill_of_mem (by omega) (by omega)
  rw [hzero]
  rfl

/-- A block that has been added is mapped. -/
theorem Models.spans_added {size : ℕ} {r : Option ℕ} {s : State}
    (hM : (({ w with state := s } : Process).add size r).Models d) :
    ∀ p ∈ r, Spans s.mapped (p, size) := by
  rintro p rfl
  rw [add_setState] at hM
  have hspans := hM.hosts.spans (b := (p, size)) (by rw [hM.live]; exact mem_add w size p)
  rwa [← hM.core] at hspans

/-- The state with a block cleared. -/
def cleared (s : State) (n : ℕ) : Option ℕ → State
  | none => s
  | some ptr => s.setCore (s.toCore.clear ptr n)

/-- `calloc` once `malloc` has returned: it faults if the block is not mapped as far as it
is to be cleared. -/
theorem calloc_eq {s s₁ : State} {heap : HeapId} {nmemb size : ℕ} {mmap r : Option ℕ}
    (hzero : ¬(nmemb = 0 ∨ size = 0)) (hover : ¬(2 ^ 64 - 1) / nmemb < size)
    (hlt : nmemb * size < 2 ^ 64) (hmalloc : s.malloc heap (nmemb * size) mmap = some (r, s₁)) :
    s.calloc heap nmemb size mmap = if ∀ p ∈ r, Spans s₁.mapped (p, nmemb * size) then
      some (r, cleared s₁ (nmemb * size) r) else none := by
  simp only [State.calloc, if_neg hzero, if_neg hover, Nat.mod_eq_of_lt hlt, hmalloc,
    Option.bind_eq_bind, Option.bind_some]
  cases r with
  | none => exact (if_pos fun _ => nofun).symm
  | some p =>
    simp only [Core.memset, Option.mem_some_iff, forall_eq']
    split <;> rfl

/-- A `calloc` that returns has cleared the block of `malloc`. -/
theorem eq_of_calloc {s s₁ s' : State} {heap : HeapId} {nmemb size : ℕ} {mmap r r' : Option ℕ}
    (hzero : ¬(nmemb = 0 ∨ size = 0)) (hover : ¬(2 ^ 64 - 1) / nmemb < size)
    (hlt : nmemb * size < 2 ^ 64) (hmalloc : s.malloc heap (nmemb * size) mmap = some (r, s₁))
    (h : s.calloc heap nmemb size mmap = some (r', s')) :
    r' = r ∧ s' = cleared s₁ (nmemb * size) r := by
  rw [calloc_eq hzero hover hlt hmalloc] at h
  split at h
  · obtain ⟨rfl, rfl⟩ := Prod.mk.inj (Option.some.inj h)
    exact ⟨rfl, rfl⟩
  · cases h

/-- **`calloc`** keeps the invariant. -/
theorem Models.calloc (hM : w.Models d) {i nmemb size : ℕ} {mmap : Option ℕ}
    (hpromised : w.Promised (nmemb * size) mmap) (hgrants : w.Grants i (nmemb * size) mmap) :
    ∃ r s d', w.state.calloc (.thread i) nmemb size mmap = some (r, s) ∧
      (({ w with state := s } : Process).add (nmemb * size) r).Models d' := by
  by_cases hzero : nmemb = 0 ∨ size = 0
  · exact ⟨none, w.state, d, if_pos hzero, hM⟩
  by_cases hover : (2 ^ 64 - 1) / nmemb < size
  · exact ⟨none, w.state, d, by rw [State.calloc, if_neg hzero, if_pos hover], hM⟩
  have hlt : nmemb * size < 2 ^ 64 := by
    have hle := (Nat.le_div_iff_mul_le (Nat.pos_of_ne_zero fun h => hzero (Or.inl h))).mp
      (Nat.le_of_not_lt hover)
    rw [Nat.mul_comm]
    omega
  obtain ⟨r, s, d', hmalloc, hM'⟩ := hM.malloc hlt hpromised hgrants
  refine ⟨r, cleared s (nmemb * size) r, ?_⟩
  rw [calloc_eq hzero hover hlt hmalloc, if_pos hM'.spans_added]
  cases r with
  | none => exact ⟨d', rfl, hM'⟩
  | some p =>
    rw [add_setState] at hM' ⊢
    refine ⟨d'.setCore (d'.core.clear p (nmemb * size)), rfl, ?_⟩
    rw [cleared, show s.toCore = d'.core from hM'.core]
    exact hM'.overwrite (mem_add w (nmemb * size) p) (fun j => fill_outside) fun _ =>
      noMark_clear d'.core p (nmemb * size)

/-- **A client's write** keeps the invariant. -/
theorem Models.write (hM : w.Models d) {ptr off : ℕ} {bytes : List UInt8}
    (hlegal : w.Legal (.write ptr off bytes)) (htame : w.Tame (.write ptr off bytes)) :
    ∃ d', Models ⟨w.state.setCore
      { w.state.toCore with mem := store w.state.mem (ptr + off) bytes }, w.small, w.large⟩ d' := by
  obtain ⟨b, hb, rfl, hlen⟩ := hlegal
  have hcore : w.state.toCore = d.core := hM.core
  have htame : ∀ b' ∈ w.small, b'.1 = b.1 → Core.NoMark
    { w.state.toCore with mem := store w.state.toCore.mem (b.1 + off) bytes } b.1 b'.2 := htame
  rw [hcore] at htame ⊢
  exact ⟨_, hM.overwrite hb (fun j hj => store_outside (by omega)) fun hsmall =>
    htame b hsmall rfl⟩

/-- `realloc` to no size. -/
theorem realloc_eq_free {s s₁ : State} {heap : HeapId} {p : ℕ} {mmap : Option ℕ}
    (hfree : s.free (some p) = some s₁) : s.realloc heap (some p) 0 mmap = some (none, s₁) := by
  simp only [State.realloc, if_true, hfree, Option.bind_eq_bind, Option.bind_some]
  rfl

/-- `realloc` when it calls `large_realloc`. -/
theorem realloc_eq_large {s : State} {heap : HeapId} {p size : ℕ} {mmap r : Option ℕ} {c : Core}
    (hlarge : s.toCore.isLargeAlloc p = true) (hsize : maxBlockSize < size)
    (hc : s.toCore.largeRealloc p size mmap = some (r, c)) :
    s.realloc heap (some p) size mmap = some (r, s.setCore c) := by
  have hpos : ¬size = 0 := by omega
  simp only [State.realloc, if_neg hpos, hlarge, hsize, decide_true, Bool.and_self, if_true, hc]
  rfl

/-- A `realloc` that returns from `large_realloc`. -/
theorem exists_of_realloc_large {s s' : State} {heap : HeapId} {p size : ℕ} {mmap r : Option ℕ}
    (hlarge : s.toCore.isLargeAlloc p = true) (hsize : maxBlockSize < size)
    (h : s.realloc heap (some p) size mmap = some (r, s')) :
    ∃ c, s.toCore.largeRealloc p size mmap = some (r, c) ∧ s' = s.setCore c := by
  have hpos : ¬size = 0 := by omega
  simp only [State.realloc, if_neg hpos, hlarge, hsize, decide_true, Bool.and_self, if_true] at h
  obtain ⟨⟨r', c⟩, hc, h⟩ := Option.bind_eq_some_iff.mp h
  obtain ⟨rfl, rfl⟩ := Prod.mk.inj (Option.some.inj h)
  exact ⟨c, hc, rfl⟩

/-- `realloc` when `malloc` fails. -/
theorem realloc_eq_none {s s₁ s₂ : State} {heap : HeapId} {p size : ℕ} {mmap : Option ℕ}
    (hpos : ¬size = 0)
    (hnot : (s.toCore.isLargeAlloc p && decide (maxBlockSize < size)) = false)
    (hmalloc : s.malloc heap size mmap = some (none, s₁)) (hfree : s₁.free (some p) = some s₂) :
    s.realloc heap (some p) size mmap = some (none, s₂) := by
  simp only [State.realloc, if_neg hpos, hnot, Bool.false_eq_true, if_false, hmalloc, hfree,
    Option.bind_eq_bind, Option.bind_some]
  rfl

/-- `realloc` when `malloc` returns a block. -/
theorem realloc_eq_some {s s₁ s₂ : State} {heap : HeapId} {p size q : ℕ} {mmap : Option ℕ}
    {c : Core} (hpos : ¬size = 0)
    (hnot : (s.toCore.isLargeAlloc p && decide (maxBlockSize < size)) = false)
    (hmalloc : s.malloc heap size mmap = some (some q, s₁))
    (hcopy : s₁.toCore.memcpy q p (if s.toCore.isLargeAlloc p then size
      else min (s₁.getBlockSize p) size) = some c)
    (hfree : (s₁.setCore c).free (some p) = some s₂) :
    s.realloc heap (some p) size mmap = some (some q, s₂) := by
  simp only [State.realloc, if_neg hpos, hnot, Bool.false_eq_true, if_false, hmalloc, hcopy, hfree,
    Option.bind_eq_bind, Option.bind_some]
  rfl

/-- **`large_realloc`** keeps the invariant. -/
theorem Models.largeRealloc (hM : w.Models d) {b : ℕ × ℕ} (hb : b ∈ w.large) {ptr size : ℕ}
    (hsize : maxBlockSize < size) (hlt : size + sizeofMmapHeader < 2 ^ 64)
    (hptr : MapsFresh d.core.mapped ptr (pageUp (size + sizeofMmapHeader)))
    (hlen : b.2 + sizeofMmapHeader ≤ pageUp (size + sizeofMmapHeader)) :
    ∃ c d', w.state.toCore.largeRealloc b.1 size (some ptr) =
        some (some (ptr + sizeofMmapHeader), c) ∧
      (({ w.remove (some b.1) with state := w.state.setCore c } : Process).add size
        (some (ptr + sizeofMmapHeader))).Models d' := by
  have hc := Core.largeRealloc_eq_of_le (hM.large b hb) ptr hlt hlen
  refine ⟨_, d.setCore (d.core.reallocated b size ptr), by rw [hM.core, hc], ?_⟩
  rw [hM.remove_large hb, add, if_pos hsize]
  exact hM.setCore (hM.hosts.largeRealloc hlt hptr hb hlen hc) (List.forall_mem_cons.mpr
    ⟨hsize, fun b' hb' => hM.size b' (List.mem_of_mem_filter hb')⟩)

/-- What is small or large stays so when a block is added. -/
theorem subset_add (w : Process) (size : ℕ) (r : Option ℕ) :
    w.small ⊆ (w.add size r).small ∧ w.large ⊆ (w.add size r).large := by
  cases r with
  | none => exact ⟨List.Subset.refl _, List.Subset.refl _⟩
  | some p =>
    rw [Process.add]
    split
    · exact ⟨List.Subset.refl _, List.subset_cons_self ..⟩
    · exact ⟨List.subset_cons_self .., List.Subset.refl _⟩

/-- A live block stays live when another is added. -/
theorem IsLive.add {ptr : ℕ} (h : w.IsLive ptr) (size : ℕ) (r : Option ℕ) :
    (w.add size r).IsLive ptr := by
  obtain ⟨b, hb, rfl⟩ := h
  obtain ⟨hsmall, hlarge⟩ := w.subset_add size r
  exact ⟨b, List.mem_append.mpr ((List.mem_append.mp hb).imp (hsmall ·) (hlarge ·)), rfl⟩

/-- **The copy** into a block that `malloc` has returned keeps the invariant. -/
theorem Models.copy {s₁ : State} {d₁ : Depot} {p q n size : ℕ}
    (hM₁ : (({ w with state := s₁ } : Process).add size (some q)).Models d₁) (hle : n ≤ size)
    (hmark : size ≤ maxBlockSize → (s₁.toCore.copy q p n).NoMark q size) :
    ({ w.add size (some q) with state := s₁.setCore (s₁.toCore.copy q p n) } : Process).Models
      (d₁.setCore (d₁.core.copy q p n)) := by
  have hfresh := hM₁.not_isLive
  rw [add_setState] at hM₁
  have hcore : s₁.toCore = d₁.core := hM₁.core
  have hout : ∀ j, j < (q, size).1 ∨ (q, size).1 + (q, size).2 ≤ j →
      (d₁.core.copy q p n).mem j = d₁.core.mem j := by
    intro j hj
    simp only at hj
    exact store_load_outside (by omega)
  have hmark' : (q, size) ∈ (w.add size (some q)).small →
      (d₁.core.copy q p n).NoMark q size := by
    intro hsmall
    by_cases hsize : maxBlockSize < size
    · rw [add, if_pos hsize] at hsmall
      exact absurd ⟨_, List.mem_append_left _ hsmall, rfl⟩ hfresh
    · exact hcore ▸ hmark (Nat.le_of_not_lt hsize)
  rw [hcore]
  have hM₂ := hM₁.overwrite (mem_add w size q) hout hmark'
  exact hM₂.setCore (hM₂.hosts.record ((q, n) :: d₁.core.copies)) hM₂.size

/-- The copy of `realloc` is not longer than the new block. -/
theorem numBytes_le (w : Process) (s₁ : State) (p size : ℕ) :
    (if w.IsLarge p then size else min (s₁.getBlockSize p) size) ≤ size := by
  split
  · exact le_rfl
  · exact Nat.min_le_right ..

/-- If `realloc` does not call `large_realloc` for a large block, the new size is small. -/
theorem Models.le_of_not_large (hM : w.Models d) {p size : ℕ} (hptr : w.IsLive p)
    (hnot : (w.state.toCore.isLargeAlloc p && decide (maxBlockSize < size)) = false)
    (hlarge : w.IsLarge p) : size ≤ maxBlockSize := by
  by_contra hsize
  rw [(hM.isLargeAlloc_iff hptr).mpr hlarge, decide_eq_true (Nat.lt_of_not_le hsize)] at hnot
  cases hnot

/-- **The copy meets no fault**: what it reads and what it writes is mapped. -/
theorem Models.memcpy_eq {s₁ : State} {d₁ : Depot} {p q size : ℕ}
    (hM₁ : (({ w with state := s₁ } : Process).add size (some q)).Models d₁) (hptr : w.IsLive p)
    (hle : w.IsLarge p → size ≤ maxBlockSize) :
    s₁.toCore.memcpy q p (if w.IsLarge p then size else min (s₁.getBlockSize p) size) =
      some (s₁.toCore.copy q p
        (if w.IsLarge p then size else min (s₁.getBlockSize p) size)) := by
  have hdest : Spans s₁.mapped (q, size) := hM₁.spans_added q rfl
  obtain ⟨b, hb, rfl⟩ := hptr
  obtain ⟨hsmall, hlarge⟩ := ({ w with state := s₁ } : Process).subset_add size (some q)
  -- The block is of the same kind as before.
  have hold : w.IsLarge b.1 ↔ b ∈ (({ w with state := s₁ } : Process).add size (some q)).large := by
    constructor
    · rintro ⟨b', hb', heq⟩
      refine hlarge ((List.mem_append.mp hb).resolve_left fun hb => ?_)
      exact hM₁.ne_of_small_of_large (hsmall hb) (hlarge hb') heq.symm
    · intro hb₁
      refine ⟨b, (List.mem_append.mp hb).resolve_left fun hb => ?_, rfl⟩
      exact hM₁.ne_of_small_of_large (hsmall hb) hb₁ rfl
  have hmem : b ∈ d₁.live ++ (({ w with state := s₁ } : Process).add size (some q)).large := by
    rw [hM₁.live]
    exact List.mem_append.mpr ((List.mem_append.mp hb).imp (hsmall ·) (hlarge ·))
  have hshort : w.IsLarge b.1 → size ≤ b.2 := fun h =>
    (hle h).trans (hM₁.size b (hold.mp h)).le
  have hsrc := hM₁.hosts.spans_copied hmem hold hshort
  have hcore : s₁.toCore = d₁.core := by
    rw [add_setState] at hM₁
    exact hM₁.core
  rw [← hcore] at hsrc
  refine if_pos ⟨hsrc, hdest.mono fun a ha => ⟨ha.1, lt_of_lt_of_le ha.2 ?_⟩⟩
  exact Nat.add_le_add_left (numBytes_le w s₁ b.1 size) q

/-- **`realloc` that moves a block** by `malloc`, a copy and `free` keeps the
invariant. -/
theorem Models.realloc_move (hM : w.Models d) {i p size : ℕ} {mmap : Option ℕ}
    (hpos : ¬size = 0) (hlt : size < 2 ^ 64) (hpromised : w.Promised size mmap)
    (hptr : w.IsLive p) (hgrants : w.Grants i size mmap)
    (hnot : (w.state.toCore.isLargeAlloc p && decide (maxBlockSize < size)) = false)
    (hcopies : size ≤ maxBlockSize → w.CopiesNoMark i p size mmap) :
    ∃ r s d', w.state.realloc (.thread i) (some p) size mmap = some (r, s) ∧
      (({ w.remove (some p) with state := s } : Process).add size r).Models d' := by
  obtain ⟨r, s₁, d₁, hmalloc, hM₁⟩ := hM.malloc hlt hpromised hgrants
  cases r with
  | none =>
    have hptr : ({ w with state := s₁ } : Process).IsLive p := hptr
    obtain ⟨s₂, d₂, hfree, hM₂⟩ := hM₁.free hptr
    exact ⟨none, s₂, d₂, realloc_eq_none hpos hnot hmalloc hfree, hM₂⟩
  | some q =>
    have hne : q ≠ p := by
      rintro rfl
      exact hM₁.not_isLive hptr
    have hM₂ := hM₁.copy (numBytes_le w s₁ p size) fun hle => hcopies hle _ hmalloc q rfl
    obtain ⟨s₂, d₂, hfree, hM₃⟩ := hM₂.free (hptr.add size (some q))
    refine ⟨some q, s₂, d₂, realloc_eq_some hpos hnot hmalloc ?_ hfree, ?_⟩
    · rw [if_congr (hM.isLargeAlloc_iff hptr) rfl rfl]
      exact hM₁.memcpy_eq hptr (hM.le_of_not_large hptr hnot)
    · rw [add_setState, ← add_remove hne]
      exact hM₃

/-- **`realloc`** keeps the invariant. -/
theorem Models.realloc (hM : w.Models d) {i p size : ℕ} {mmap : Option ℕ}
    (hlegal : w.Legal (.realloc i (some p) size mmap))
    (htame : w.Tame (.realloc i (some p) size mmap)) :
    ∃ r s d', w.state.realloc (.thread i) (some p) size mmap = some (r, s) ∧
      (({ (if w.staysLarge (some p) size && r.isNone then w else w.remove (some p)) with
        state := s } : Process).add size r).Models d' := by
  obtain ⟨hlt, hpromised, hlive⟩ := hlegal
  obtain ⟨hgrants, hrest⟩ := htame p rfl
  have hptr := hlive p rfl
  have hstays : w.staysLarge (some p) size =
      (w.state.toCore.isLargeAlloc p && decide (maxBlockSize < size)) := rfl
  by_cases hpos : size = 0
  · subst hpos
    obtain ⟨s, d', hfree, hM'⟩ := hM.free hptr
    refine ⟨none, s, d', realloc_eq_free hfree, ?_⟩
    -- `realloc` to no size is `free`.
    rw [hstays, decide_eq_false (Nat.not_lt_zero _), Bool.and_false, Bool.false_and]
    exact hM'
  cases hnot : w.state.toCore.isLargeAlloc p && decide (maxBlockSize < size) with
  | false =>
    rw [hstays, hnot]
    refine hM.realloc_move hpos hlt hpromised hptr hgrants hnot fun hle => ?_
    rwa [if_neg (by omega)] at hrest
  | true =>
    obtain ⟨hisLarge, hsize⟩ := Bool.and_eq_true_iff.mp hnot
    have hsize := of_decide_eq_true hsize
    obtain ⟨b, hb, rfl⟩ := (hM.isLargeAlloc_iff hptr).mp hisLarge
    rw [hstays, hnot]
    cases mmap with
    | none => exact ⟨none, w.state, d, realloc_eq_large hisLarge hsize rfl, hM⟩
    | some ptr =>
      have hne : some ptr ≠ none := Option.some_ne_none ptr
      have hover := hgrants.2 hsize hne
      rw [if_pos hsize] at hrest
      have hfresh := hpromised ptr rfl
      rw [if_neg (by omega), add64_eq hover, hM.core] at hfresh
      obtain ⟨c, d', hc, hM'⟩ := hM.largeRealloc hb hsize hover hfresh.2 (hrest hne b hb rfl)
      exact ⟨_, w.state.setCore c, d', realloc_eq_large hisLarge hsize hc, hM'⟩

/-- **Every event keeps the invariant.** -/
theorem Models.step (hM : w.Models d) {req : Request} (hlegal : w.Legal req) (htame : w.Tame req) :
    ∃ w' d', w.step req = some w' ∧ w'.Models d' := by
  cases req with
  | malloc i size mmap =>
    obtain ⟨r, s, d', hmalloc, hM'⟩ := hM.malloc hlegal.1 hlegal.2 htame
    exact ⟨_, d', by rw [Process.step, hmalloc]; rfl, hM'⟩
  | calloc i nmemb size mmap =>
    obtain ⟨r, s, d', hcalloc, hM'⟩ := hM.calloc hlegal.2.2 htame
    exact ⟨_, d', by rw [Process.step, hcalloc]; rfl, hM'⟩
  | realloc i ptr size mmap =>
    cases ptr with
    | none => exact ⟨w, d, rfl, hM⟩
    | some p =>
      obtain ⟨r, s, d', hrealloc, hM'⟩ := hM.realloc hlegal htame
      exact ⟨_, d', by rw [Process.step, hrealloc]; rfl, hM'⟩
  | free ptr =>
    cases ptr with
    | none => exact ⟨w, d, rfl, hM⟩
    | some p =>
      obtain ⟨s, d', hfree, hM'⟩ := hM.free (hlegal p rfl)
      exact ⟨_, d', by rw [Process.step, hfree]; rfl, hM'⟩
  | write ptr off bytes =>
    obtain ⟨d', hM'⟩ := hM.write hlegal htame
    exact ⟨_, d', rfl, hM'⟩

/-- The process a program starts in. -/
theorem models_initial : Models {} ⟨{}, fun _ => [], [], []⟩ where
  small := World.models_initial
  inv := Depot.inv_initial
  marks _ h := absurd h List.not_mem_nil
  large _ h := absurd h List.not_mem_nil
  size _ h := absurd h List.not_mem_nil
  apart := .nil

end Process

/-! ### Runs -/

/-- **The invariant holds** after every run that does none of what
`MyMalloc.Process.Tame` excludes. -/
theorem Process.models_of_run {reqs : List Request}
    (hreqs : Trace.Always Process.step (fun w req => w.Legal req ∧ w.Tame req) {} reqs) :
    ∃ w, Trace.run Process.step {} reqs = some w ∧ ∃ d, w.Models d := by
  have hrule : ∀ (w : Process) req, (∃ d, w.Models d) → w.Legal req ∧ w.Tame req →
      ∃ w', w.step req = some w' ∧ ∃ d, w'.Models d := by
    rintro w req ⟨d, hM⟩ ⟨hlegal, htame⟩
    obtain ⟨w', d', hw', hM'⟩ := hM.step hlegal htame
    exact ⟨w', hw', d', hM'⟩
  exact Trace.run_of_always hrule ⟨_, Process.models_initial⟩ hreqs

/-- **Large and small blocks are told apart** after every run that does none of what
`MyMalloc.Process.Tame` excludes. -/
theorem live_blocks_classified {reqs : List Request}
    (hreqs : Trace.Always Process.step (fun w req => w.Legal req ∧ w.Tame req) {} reqs) :
    ∃ w, Trace.run Process.step {} reqs = some w ∧ w.Classified := by
  obtain ⟨w, hrun, d, hM⟩ := Process.models_of_run hreqs
  exact ⟨w, hrun, hM.classified⟩

/-- Blocks of both kinds, one of them moved. -/
theorem live_blocks_classified_moved : ∃ w,
    Trace.run Process.step {} [.malloc 0 16 (some 1048576), .malloc 0 200000 (some 4194304),
      .write 1048704 0 [1, 2, 3], .calloc 1 2 8 (some 8388608),
      .realloc 0 (some 1048704) 40 (some 2097152), .free (some 4194320)] = some w ∧
    w.Classified :=
  live_blocks_classified (by decide +kernel)

/-- **A small block is found to be large** when the magic number is written into the
block before it. -/
theorem small_block_misclassified :
    Trace.Always Process.step Process.Legal {} [.malloc 0 16 (some 1048576), .malloc 0 16 none,
      .write 1048704 0 [0xEF, 0xBE, 0xAD, 0xDE]] ∧
    ∃ w, Trace.run Process.step {} [.malloc 0 16 (some 1048576), .malloc 0 16 none,
      .write 1048704 0 [0xEF, 0xBE, 0xAD, 0xDE]] = some w ∧ ¬w.Classified := by
  refine ⟨by decide +kernel, ?_⟩
  have hlast : (Trace.run Process.step {} [.malloc 0 16 (some 1048576), .malloc 0 16 none,
      .write 1048704 0 [0xEF, 0xBE, 0xAD, 0xDE]]).map (fun w =>
        (w.small, w.large, w.state.toCore.isLargeAlloc 1048720)) =
      some ([(1048720, 16), (1048704, 16)], [], true) := by decide +kernel
  obtain ⟨w, hrun, hw⟩ := Option.map_eq_some_iff.mp hlast
  obtain ⟨hsmall, hrest⟩ := Prod.mk.inj hw
  obtain ⟨hlarge, hfound⟩ := Prod.mk.inj hrest
  refine ⟨w, hrun, fun h => ?_⟩
  have hmem := (h (1048720, 16) (by rw [hsmall]; simp)).mp hfound
  rw [hlarge] at hmem
  exact List.not_mem_nil hmem

end MyMalloc
