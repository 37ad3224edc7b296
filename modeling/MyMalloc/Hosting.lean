import MyMalloc.LargeSizes
import MyMalloc.SharedContents

/-!
# Blocks of both kinds

The small blocks of the superblocks and the large blocks beside them, as one set of
blocks. They are aligned, lie in mapped memory and apart from
each other, so that any list of them is a store of separate blocks, and new pages have
room for one more (`MyMalloc.Depot.Hosts.fresh_pages`).

Threads of the small allocator leave the large blocks as they are
(`MyMalloc.Depot.Hosts.threadStep`), and write into no block but the one they free.
-/

namespace MyMalloc

open AddressSpace ByteMemory BlockStore

/-- `large_alloc` writes into its own pages only. -/
theorem Core.largeAlloc_mem {c c' : Core} {ptr size a : ℕ} (hlt : size + sizeofMmapHeader < 2 ^ 64)
    (hptr : MapsFresh c.mapped ptr (pageUp (size + sizeofMmapHeader)))
    (hc : c.largeAlloc size (some ptr) = (some (ptr + sizeofMmapHeader), c'))
    (ha : Covers c.mapped a) : c'.mem a = c.mem a := by
  have hout := hptr.2.2.2.outside ha
  have hup := le_pageUp (size + sizeofMmapHeader)
  rw [largeAlloc, mapPages, add64_eq hlt] at hc
  rw [← (Prod.mk.inj hc).2, setMmapHeader_mem _ _ _ (by omega)]
  exact fill_outside hout

/-- `large_alloc` leaves the headers of the superblocks as they are. -/
theorem Core.largeAlloc_header {c c' : Core} {ptr size : ℕ}
    (hc : c.largeAlloc size (some ptr) = (some (ptr + sizeofMmapHeader), c')) :
    c'.header = c.header := by
  rw [largeAlloc, mapPages] at hc
  rw [← (Prod.mk.inj hc).2]
  rfl

/-- `large_realloc` leaves the headers of the superblocks as they are. -/
theorem Core.largeRealloc_header {c c' : Core} {b : ℕ × ℕ} (hb : LargeBlock c b) {ptr size : ℕ}
    (hlt : size + sizeofMmapHeader < 2 ^ 64)
    (hc : c.largeRealloc b.1 size (some ptr) = some (some (ptr + sizeofMmapHeader), c')) :
    c'.header = c.header := by
  obtain ⟨-, rfl⟩ := eq_of_largeRealloc hb hlt hc
  rfl

namespace Depot

namespace Hosts

variable {d d' : Depot} {large : List (ℕ × ℕ)} {b b' : ℕ × ℕ} {c : Core} {p n : ℕ}

section Blocks

variable (h : d.Hosts large)

include h

/-! ### The blocks -/

/-- The addresses of the blocks are multiples of 16. -/
theorem aligned (hb : b ∈ d.live ++ large) : 0 < b.1 ∧ 16 ∣ b.1 := by
  rcases List.mem_append.mp hb with hb | hb
  · have hsb := (h.inv.live_known b hb).1
    obtain ⟨hlo, -, hdvd, -⟩ :=
      (h.inv.carved _ hsb).live_mem (h.inv.isSuperblock hsb) (Inv.mem_liveIn hb)
    rw [sizeofSuperblockHeader_eq] at hlo
    exact ⟨by omega, hdvd⟩
  · have hbase := (h.block b hb).base_add
    have hdvd : 16 ∣ (spanOf b).1 := dvd_trans (by decide) (h.block b hb).dvd
    exact ⟨by omega, by omega⟩

/-- The blocks lie apart from the pages of a large one. -/
theorem apart_span (hb : b ∈ d.live ++ large) (hb' : b' ∈ large) (hne : b.1 ≠ b'.1) :
    Apart b (spanOf b') := by
  rcases List.mem_append.mp hb with hb | hb
  · obtain ⟨hsb, hle⟩ := h.inv.live_known b hb
    obtain ⟨hlo, hhi⟩ := h.inv.live_mem hb
    have hapart := (h.block b' hb').apart _ hsb
    simp only [Apart] at hapart ⊢
    omega
  · have hapart := apart_of_pairwise h.apart hb hb' fun hc => hne (congrArg Prod.fst hc)
    have hbase := (h.block b hb).base_add
    have hadd := (h.block b hb).add_le
    simp only [Apart] at hapart ⊢
    omega

/-- **The blocks lie apart.** -/
theorem apart_blocks (hb : b ∈ d.live ++ large) (hb' : b' ∈ d.live ++ large) (hne : b.1 ≠ b'.1) :
    Apart b b' := by
  -- A large block lies in its pages.
  have hmixed : ∀ {q q' : ℕ × ℕ}, q ∈ d.live ++ large → q' ∈ large → q.1 ≠ q'.1 → Apart q q' := by
    intro q q' hq hq' hne
    have hapart := h.apart_span hq hq' hne
    have hbase := (h.block q' hq').base_add
    have hadd := (h.block q' hq').add_le
    simp only [Apart] at hapart ⊢
    omega
  rcases List.mem_append.mp hb' with hsmall' | hlarge'
  · rcases List.mem_append.mp hb with hsmall | hlarge
    · exact h.inv.live_disjoint hsmall hsmall' hne
    · exact (hmixed hb' hlarge hne.symm).symm
  · exact hmixed hb hlarge' hne

/-- **A block lies in a mapped region**, its superblock or its pages. -/
theorem exists_region (hb : b ∈ d.live ++ large) : ∃ r : Region,
    (∀ a, AddressSpace.Mem a r → Covers d.core.mapped a) ∧ AddressSpace.Mem b.1 r ∧
      b.1 + b.2 ≤ r.1 + r.2 := by
  rcases List.mem_append.mp hb with hb | hb
  · obtain ⟨hsb, hle⟩ := h.inv.live_known b hb
    obtain ⟨hlo, hhi⟩ := h.inv.live_mem hb
    obtain ⟨free, hs⟩ := (h.inv.carved _ hsb).sound
    have hpos : 16 ≤ (d.core.header (superblockOf b.1)).blockSize := hs.isClass.pos
    exact ⟨_, h.covers hsb, ⟨by simp only; omega, by simp only; omega⟩, by simp only; omega⟩
  · have hbase := (h.block b hb).base_add
    have hpage : sizeofMmapHeader < pageUp (b.2 + sizeofMmapHeader) := by
      simp only [pageUp, pageSize, sizeofMmapHeader]
      omega
    simp only [sizeofMmapHeader] at hpage
    have hlen : (spanOf b).2 = pageUp (b.2 + 16) := rfl
    exact ⟨_, (h.block b hb).covers, ⟨by omega, by omega⟩, (h.block b hb).add_le⟩

/-- No two blocks have one address. -/
theorem nodup : ((d.live ++ large).map Prod.fst).Nodup := by
  rw [List.map_append]
  refine List.nodup_append.mpr
    ⟨h.inv.live_nodup, List.pairwise_map.mpr (h.apart.imp ne_of_apart), fun a ha a' ha' => ?_⟩
  obtain ⟨b, hb, rfl⟩ := List.mem_map.mp ha
  obtain ⟨b', hb', rfl⟩ := List.mem_map.mp ha'
  exact h.ne_of_live hb hb'

/-- **What keeps the mapped memory** keeps what the blocks hold. -/
theorem load_eq (hmem : ∀ a, Covers d.core.mapped a → c.mem a = d.core.mem a)
    (hb : b ∈ d.live ++ large) : load c.mem b.1 b.2 = load d.core.mem b.1 b.2 := by
  obtain ⟨r, hcovers, hin, hle⟩ := h.exists_region hb
  simp only [AddressSpace.Mem] at hcovers hin
  exact load_congr fun a ha ha' => hmem a (hcovers a (by omega))

/-- **What is written into one block** is not seen in the others. -/
theorem load_eq_of_ne {mem : ByteMemory.Mem} (hb : b ∈ d.live ++ large)
    (hout : ∀ a, a < b.1 ∨ b.1 + b.2 ≤ a → mem a = d.core.mem a) (hb' : b' ∈ d.live ++ large)
    (hne : b'.1 ≠ b.1) : load mem b'.1 b'.2 = load d.core.mem b'.1 b'.2 := by
  have hapart := h.apart_blocks hb' hb hne
  simp only [Apart] at hapart
  exact load_congr fun a ha ha' => hout a (by omega)

/-- **What `large_realloc` does to one block** is not seen in the others. -/
theorem load_eq_of_reallocates {size newPtr : ℕ} (hb : b ∈ large)
    (hright : d.core.Reallocates b size newPtr c) (hb' : b' ∈ d.live ++ large)
    (hne : b'.1 ≠ b.1) : load c.mem b'.1 b'.2 = load d.core.mem b'.1 b'.2 := by
  obtain ⟨r, hcovers, hin, hle⟩ := h.exists_region hb'
  have hapart := h.apart_span hb' hb hne
  simp only [AddressSpace.Mem] at hcovers hin
  exact load_congr fun a ha ha' => (hright.others a (hcovers a (by omega))
    (hapart.not_mem (a := a) ⟨ha, ha'⟩)).2

/-- **New pages lie apart from the blocks.** -/
theorem apart_pages {ptr size : ℕ}
    (hptr : MapsFresh d.core.mapped ptr (pageUp (size + sizeofMmapHeader)))
    (hb : b ∈ d.live ++ large) :
    b.1 + b.2 ≤ ptr ∧ b.1 < ptr ∨ ptr + pageUp (size + sizeofMmapHeader) ≤ b.1 := by
  have hup := le_pageUp (size + sizeofMmapHeader)
  obtain ⟨r, hcovers, hin, hle⟩ := h.exists_region hb
  simp only [AddressSpace.Mem, sizeofMmapHeader] at *
  have hapart := hptr.2.2.2.apart hcovers (by omega) (by omega)
  simp only [Apart] at hapart
  omega

/-- No block is where one in new pages would be. -/
theorem ne_of_pages {ptr size : ℕ}
    (hptr : MapsFresh d.core.mapped ptr (pageUp (size + sizeofMmapHeader)))
    (hb : b ∈ d.live ++ large) : b.1 ≠ ptr + sizeofMmapHeader := by
  have hapart := h.apart_pages hptr hb
  have hpage : sizeofMmapHeader < pageUp (size + sizeofMmapHeader) := by
    simp only [pageUp, pageSize, sizeofMmapHeader]
    omega
  omega

/-! ### Stores of blocks -/

variable {live : List (ℕ × ℕ)} (hlive : ∀ b ∈ live, b ∈ d.live ++ large)

include hlive

/-- **Any list of blocks** is a store of separate blocks. -/
theorem separated : Separated 16 (view d.core.mem live) where
  aligned _ _ hp := h.aligned (hlive _ (view_eq_some hp).1)
  apart _ _ _ _ hp hq hne :=
    h.apart_blocks (hlive _ (view_eq_some hp).1) (hlive _ (view_eq_some hq).1) hne

/-- **A block that is not on the list** may come to the store. -/
theorem fresh (hp : (p, n) ∈ d.live ++ large) (hnew : ∀ b ∈ live, b.1 ≠ p) :
    Fresh 16 (view d.core.mem live) p n := by
  obtain ⟨hpos, hdvd⟩ := h.aligned hp
  refine ⟨view_eq_none hnew, hpos, hdvd, fun q bs hq => ?_⟩
  have hmem := (view_eq_some hq).1
  exact h.apart_blocks (hlive _ hmem) hp (hnew _ hmem)

/-- **New pages have room for a block** that may come to the store. -/
theorem fresh_pages {ptr size : ℕ}
    (hptr : MapsFresh d.core.mapped ptr (pageUp (size + sizeofMmapHeader))) :
    Fresh 16 (view d.core.mem live) (ptr + sizeofMmapHeader) size := by
  have hup := le_pageUp (size + sizeofMmapHeader)
  have hdvd : 16 ∣ ptr := dvd_trans (by decide) hptr.1
  simp only [sizeofMmapHeader] at hup hptr ⊢
  refine ⟨view_eq_none fun b hb => h.ne_of_pages hptr (hlive b hb), by omega, by omega,
    fun q bs hq => ?_⟩
  have hapart := h.apart_pages hptr (hlive _ (view_eq_some hq).1)
  simp only [Apart, sizeofMmapHeader] at hapart ⊢
  omega

end Blocks

/-! ### Threads -/

variable {src : Source} {pc pc' : Pc}

/-- **A step of a thread leaves the large blocks as they are**, and puts no mark into a
superblock. -/
theorem threadStep (h : d.Hosts large) (hstep : d.ThreadStep src pc pc' d') (hd' : d'.Inv)
    (hfrees : ∀ ptr, pc.frees = some ptr → ∃ n, (ptr, n) ∈ d.live) : d'.Hosts large := by
  rcases hstep.effect h.inv with hgrows | ⟨ptr, hptr, hfree⟩
  · exact ⟨hd', hgrows.unmarked h.inv h.marks, fun b hb => hgrows.largeBlock (h.block b hb),
      h.apart⟩
  · obtain ⟨n, hn⟩ := hfrees ptr hptr
    exact ⟨hd', hfree.unmarked h.inv hn h.marks,
      fun b hb => hfree.largeBlock h.inv hn (h.block b hb), h.apart⟩

/-- **A step of a thread writes into no block** but the one that the thread frees. -/
theorem threadStep_load (h : d.Hosts large) (hstep : d.ThreadStep src pc pc' d')
    (hfrees : ∀ ptr, pc.frees = some ptr → ∃ n, (ptr, n) ∈ d.live) (hb : b ∈ d.live ++ large)
    (hne : pc.frees ≠ some b.1) : load d'.core.mem b.1 b.2 = load d.core.mem b.1 b.2 := by
  rcases List.mem_append.mp hb with hlive | hlarge
  · exact hstep.load_eq h.inv hlive hne hfrees
  rcases hstep.effect h.inv with hgrows | ⟨ptr, hptr, hfree⟩
  · exact h.load_eq hgrows.mem hb
  · -- The link lies in a superblock.
    obtain ⟨n, hn⟩ := hfrees ptr hptr
    obtain ⟨hlo, hhi⟩ := h.inv.live_mem hn
    have hsb := (h.inv.live_known _ hn).1
    obtain ⟨free, hs⟩ := (h.inv.carved _ hsb).sound
    have hpos : 16 ≤ (d.core.header (superblockOf ptr)).blockSize := hs.isClass.pos
    have hapart := (h.block b hlarge).apart _ hsb
    have hbase := (h.block b hlarge).base_add
    have hadd := (h.block b hlarge).add_le
    simp only [Apart] at hapart hlo hhi
    exact load_congr fun a ha ha' => hfree.mem_of_not_mem (by omega)

end Hosts

end Depot

end MyMalloc
