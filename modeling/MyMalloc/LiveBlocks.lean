import MyMalloc.Classification
import MyMalloc.WellFormed

/-!
# The blocks of a process

The states of a process with small and large blocks that are put together as they should
be (`MyMalloc.Process.WellFormed`), whatever the clients have written into their blocks.
Every live block has a region of its own, the block it was carved for or its pages
(`MyMalloc.Process.regionOf`), and the regions of different blocks lie apart
(`MyMalloc.Process.WellFormed.apart_regions`).
-/

namespace MyMalloc

open LinkedList Placement AddressSpace ByteMemory Depot

namespace Process

/-- **A well-formed process**: the state is well formed for its small blocks, and the
large blocks are what they should be and lie apart from each other. -/
structure WellFormed (w : Process) : Prop where
  small : World.WellFormed ⟨w.state, w.small⟩
  large : ∀ b ∈ w.large, LargeBlock w.state.toCore b
  size : ∀ b ∈ w.large, maxBlockSize < b.2
  apart : w.large.Pairwise fun b b' => Apart (spanOf b) (spanOf b')

/-- The memory that belongs to a live block: the pages of a large block, and the block
that a small one was carved for. -/
def regionOf (w : Process) (b : ℕ × ℕ) : Region :=
  if b ∈ w.large then spanOf b else (b.1, w.state.getBlockSize b.1)

variable {w : Process} {b b' : ℕ × ℕ}

/-! ### Runs -/

/-- The invariant of a run says that the process is well formed. -/
theorem Models.wellFormed {d : Depot} (hM : w.Models d) : w.WellFormed :=
  ⟨World.wellFormed_iff.mpr ⟨d, hM.small, hM.inv⟩, fun b hb => hM.core ▸ hM.large b hb,
    hM.size, hM.apart⟩

/-- **The states that runs reach are well formed**, if the runs do none of what
`MyMalloc.Process.Tame` excludes. -/
theorem wellFormed_of_run {reqs : List Request}
    (hreqs : Trace.Always Process.step (fun w req => w.Legal req ∧ w.Tame req) {} reqs) :
    ∃ w, Trace.run Process.step {} reqs = some w ∧ w.WellFormed := by
  obtain ⟨w, hrun, d, hM⟩ := models_of_run hreqs
  exact ⟨w, hrun, hM.wellFormed⟩

/-! ### Regions -/

namespace WellFormed

variable (hw : w.WellFormed)

include hw

/-- A small block lies in a superblock. -/
theorem small_mem (hb : b ∈ w.small) : superblockOf b.1 ∈ w.state.superblocks ∧
    superblockOf b.1 + sizeofSuperblockHeader ≤ b.1 ∧
    b.1 + w.state.getBlockSize b.1 ≤ superblockOf b.1 + superblockSize ∧
    b.2 ≤ w.state.getBlockSize b.1 ∧ 16 ≤ w.state.getBlockSize b.1 := by
  obtain ⟨d, hM, hd⟩ := World.wellFormed_iff.mp hw.small
  have hcore : w.state.toCore = d.core := hM.refines.core
  have hb : b ∈ d.live := hM.live ▸ hb
  obtain ⟨hsb, hle⟩ := hd.live_known b hb
  obtain ⟨hlo, hhi⟩ := hd.live_mem hb
  obtain ⟨free, hs⟩ := (hd.carved _ hsb).sound
  rw [State.getBlockSize, hcore]
  exact ⟨hsb, hlo, hhi, hle, hs.isClass.pos⟩

/-- No block is small and large. -/
theorem ne_of_small_of_large (hb : b ∈ w.small) (hb' : b' ∈ w.large) : b.1 ≠ b'.1 := by
  intro hc
  obtain ⟨hsb, hlo, hhi, -, hpos⟩ := hw.small_mem hb
  have hapart := (hw.large b' hb').apart _ hsb
  have hbase := (hw.large b' hb').base_add
  have hadd := (hw.large b' hb').add_le
  have hsize := hw.size b' hb'
  simp only [Apart] at hapart
  omega

/-- A live block is large if a large one has its address. -/
theorem isLarge_iff (hb : b ∈ w.small ++ w.large) : w.IsLarge b.1 ↔ b ∈ w.large := by
  constructor
  · rintro ⟨b', hb', heq⟩
    exact (List.mem_append.mp hb).resolve_left fun h => hw.ne_of_small_of_large h hb' heq.symm
  · exact fun h => ⟨b, h, rfl⟩

theorem regionOf_small (hb : b ∈ w.small) : w.regionOf b = (b.1, w.state.getBlockSize b.1) :=
  if_neg fun h => hw.ne_of_small_of_large hb h rfl

omit hw in
theorem regionOf_large (hb : b ∈ w.large) : w.regionOf b = spanOf b := if_pos hb

/-- A block lies in its region. -/
theorem mem_regionOf (hb : b ∈ w.small ++ w.large) {a : ℕ} (ha : b.1 ≤ a) (ha' : a < b.1 + b.2) :
    AddressSpace.Mem a (w.regionOf b) := by
  rcases List.mem_append.mp hb with hb | hb
  · obtain ⟨-, -, -, hle, -⟩ := hw.small_mem hb
    rw [hw.regionOf_small hb]
    exact ⟨ha, by simp only; omega⟩
  · have hbase := (hw.large b hb).base_add
    have hadd := (hw.large b hb).add_le
    rw [regionOf_large hb]
    exact ⟨by omega, by omega⟩

/-- The regions of the live blocks are mapped. -/
theorem covers (hb : b ∈ w.small ++ w.large) {a : ℕ} (ha : AddressSpace.Mem a (w.regionOf b)) :
    Covers w.state.mapped a := by
  rcases List.mem_append.mp hb with hb | hb
  · obtain ⟨d, hM, hd⟩ := World.wellFormed_iff.mp hw.small
    have hcore : w.state.toCore = d.core := hM.refines.core
    obtain ⟨hsb, hlo, hhi, -⟩ := hw.small_mem hb
    rw [hw.regionOf_small hb] at ha
    simp only [AddressSpace.Mem] at ha
    rw [hcore] at hsb ⊢
    exact (hd.placed _ hsb).covers a (by omega) (by omega)
  · rw [regionOf_large hb] at ha
    exact (hw.large b hb).covers a ha

/-- **The regions of different live blocks lie apart.** -/
theorem apart_regions (hb : b ∈ w.small ++ w.large) (hb' : b' ∈ w.small ++ w.large)
    (hne : b.1 ≠ b'.1) : Apart (w.regionOf b) (w.regionOf b') := by
  have hmixed : ∀ {q q' : ℕ × ℕ}, q ∈ w.small → q' ∈ w.large →
      Apart (w.regionOf q) (w.regionOf q') := by
    intro q q' hq hq'
    obtain ⟨hsb, hlo, hhi, -⟩ := hw.small_mem hq
    have hapart := (hw.large q' hq').apart _ hsb
    rw [hw.regionOf_small hq, regionOf_large hq']
    simp only [Apart] at hapart ⊢
    omega
  rcases List.mem_append.mp hb with hb | hb <;> rcases List.mem_append.mp hb' with hb' | hb'
  · obtain ⟨d, hM, hd⟩ := World.wellFormed_iff.mp hw.small
    have hcore : w.state.toCore = d.core := hM.refines.core
    have hlive : b ∈ d.live := hM.live ▸ hb
    have hlive' : b' ∈ d.live := hM.live ▸ hb'
    have hdisjoint := hd.blocks_disjoint hlive hlive' hne
    rw [hw.regionOf_small hb, hw.regionOf_small hb', State.getBlockSize, State.getBlockSize, hcore]
    exact hdisjoint
  · exact hmixed hb hb'
  · exact (hmixed hb' hb).symm
  · rw [regionOf_large hb, regionOf_large hb']
    exact apart_of_pairwise hw.apart hb hb' fun hc => hne (congrArg Prod.fst hc)

end WellFormed

end Process

end MyMalloc
