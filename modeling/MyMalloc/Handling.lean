import MyMalloc.Depot
import MyMalloc.Trimming

/-!
# Handling superblocks in transit

The operations on the depot that the functions of `heap.c` are made of, beside
taking superblocks out of lists and filing them: changing the owner, carving
again, handing out a block, taking a block back, obtaining a new superblock.
Each keeps `MyMalloc.Depot.Inv` and says when it can be done.
-/

namespace MyMalloc

open LinkedList Placement AddressSpace ByteMemory

/-! ### Mapping a new superblock -/

/-- **A new superblock is placed**: `allocate_new_superblock` returns an aligned
address inside the mapping and unmaps the rest, and only that. -/
theorem Core.allocateNewSuperblock_spec (c : Core) {ptr : ℕ}
    (h : MapsFresh c.mapped ptr (2 * superblockSize)) :
    ∃ x mapped, c.allocateNewSuperblock (some ptr) =
        (some x, { c with mapped := mapped, mem := fill c.mem ptr (2 * superblockSize) 0 }) ∧
      superblockSize ∣ x ∧ ptr ≤ x ∧ x + superblockSize ≤ ptr + 2 * superblockSize ∧
      ∀ a, Covers mapped a ↔ Covers c.mapped a ∨ x ≤ a ∧ a < x + superblockSize := by
  obtain ⟨-, -, hle, hfresh⟩ := h
  have hle : ptr + 2 * superblockSize ≤ 2 ^ 64 := hle.trans (by decide)
  obtain ⟨hlo, hhi⟩ := alignedPtr_mem hle
  refine ⟨alignedPtr ptr, _, c.allocateNewSuperblock_eq ptr, dvd_alignedPtr hle, hlo, hhi,
    fun a => ?_⟩
  -- What was mapped lies outside the mapping, so that it stays mapped.
  have hout : Covers c.mapped a → ¬AddressSpace.Mem a (ptr, 2 * superblockSize) :=
    fun hc ha => hfresh.not_covers ha hc
  have hkept : AddressSpace.Mem a (alignedPtr ptr, superblockSize) ↔
      alignedPtr ptr ≤ a ∧ a < alignedPtr ptr + superblockSize := Iff.rfl
  rw [covers_unmapAll_munmapCalls hle]
  tauto

/-- Mapping a superblock changes the memory and nothing else. -/
theorem Core.allocateNewSuperblock_frame {c c' : Core} {mmap r : Option ℕ}
    (h : c.allocateNewSuperblock mmap = (r, c')) : c'.usage = c.usage ∧ c'.header = c.header ∧
      c'.superblocks = c.superblocks ∧ c'.failed = c.failed := by
  cases mmap with
  | none =>
    obtain ⟨-, rfl⟩ := Prod.mk.inj h
    exact ⟨rfl, rfl, rfl, rfl⟩
  | some ptr =>
    obtain ⟨-, rfl⟩ := Prod.mk.inj h
    exact ⟨rfl, rfl, rfl, rfl⟩

namespace Depot

/-! ### The operations -/

/-- A superblock changes its owner. -/
def own (d : Depot) (x : ℕ) (heap : HeapId) : Depot := d.setCore (d.core.setOwner x heap)

/-- A superblock is carved again. -/
def reset (d : Depot) (x sizeClass : ℕ) : Depot :=
  d.setCore (d.core.setHeader x (resetSuperblock x sizeClass (d.core.header x)))

/-- The recycle list of a heap gets lost. -/
def forget (d : Depot) (heap : HeapId) : Depot :=
  { d with lists := Function.update d.lists (.recycle heap) [] }

/-- A superblock is taken from a recycle list the way `bin_alloc` does it: it is
carved again first, and its link with it. -/
def recycle (d : Depot) (heap : HeapId) (x sizeClass : ℕ) : Depot :=
  ((d.take (.recycle heap) x).forget heap).reset x sizeClass

/-- The head of the global recycle list is taken; the assertion on the way asks
for a second superblock behind it. -/
def popGlobal (d : Depot) (x : ℕ) : Depot :=
  (d.take (.recycle .global) x).setCore
    (d.core.assert (1 < (d.lists (.recycle .global)).length) .globalRecycleNext)

/-- A superblock obtained from the global heap comes to a heap. -/
def adopt (d : Depot) (heap : HeapId) (x : ℕ) : Depot := d.setCore (d.core.adopt heap x)

/-- A new superblock. -/
def fresh (d : Depot) (x sizeClass : ℕ) (c : Core) : Depot :=
  { d with core := c.initHeader x sizeClass, transit := x :: d.transit }

/-- A new superblock comes to a heap. -/
def create (d : Depot) (heap : HeapId) (x sizeClass : ℕ) (c : Core) : Depot :=
  let d := (d.fresh x sizeClass c).own x heap
  d.setCore (d.core.incAlloced heap superblockSize)

/-- A block is handed out. -/
def serve (d : Depot) (x p : ℕ) (header : SuperblockHeader) (size : ℕ) : Depot :=
  { d with core := d.core.setHeader x header, live := (p, size) :: d.live }

/-- A block is taken back. -/
def release (d : Depot) (x p : ℕ) : Depot :=
  { d with core := d.core.superblockFree x p, live := d.live.filter fun b => b.1 ≠ p }

variable {d : Depot} {x : ℕ}

theorem create_superblocks {heap : HeapId} {sizeClass : ℕ} {mmap : Option ℕ} {c : Core}
    (hc : d.core.allocateNewSuperblock mmap = (some x, c)) :
    (d.create heap x sizeClass c).core.superblocks = x :: d.core.superblocks := by
  rw [← (Core.allocateNewSuperblock_frame hc).2.2.1]
  rfl

theorem Inv.own (hd : d.Inv) (hx : x ∈ d.transit) (heap : HeapId) : (d.own x heap).Inv := by
  have hold := hd.carved x (hd.transit_known x hx)
  refine hd.rework hx rfl rfl rfl rfl (fun y hy => Function.update_of_ne hy ..) (fun _ _ => rfl)
    (fun _ _ => rfl) (fun b hb => ?_) ?_
  · by_cases hbx : superblockOf b.1 = x
    · refine Or.inl ⟨hbx, ?_⟩
      have hle := (hd.live_known b hb).2
      rw [hbx] at hle
      simpa [Depot.own, Core.setOwner, Core.setHeader, setCore] using hle
    · exact Or.inr ⟨hbx, hb⟩
  · simpa [Depot.own, Core.setOwner, Core.setHeader, setCore] using hold.set_owner (some heap)

theorem Inv.adopt (hd : d.Inv) (hx : x ∈ d.transit) (heap : HeapId) : (d.adopt heap x).Inv :=
  (hd.own hx heap).congr_core rfl rfl rfl rfl

theorem Inv.reset (hd : d.Inv) (hx : x ∈ d.transit) (hempty : liveIn d.live x = []) {b : ℕ}
    (hb : b < numSizeBins) : (d.reset x (idx2class b)).Inv := by
  have hold := hd.carved x (hd.transit_known x hx)
  refine hd.rework hx rfl rfl rfl rfl (fun y hy => Function.update_of_ne hy ..) (fun _ _ => rfl)
    (fun _ _ => rfl) (fun b hb => Or.inr ⟨fun hbx => ?_, hb⟩) ?_
  · have hmem : b.1 ∈ liveIn d.live (superblockOf b.1) := Inv.mem_liveIn hb
    rw [hbx, hempty] at hmem
    exact absurd hmem List.not_mem_nil
  · simp only [Depot.reset, setCore, Core.setHeader, Function.update_self, hempty]
    exact ⟨hold.magic, ⟨b, hb, rfl⟩, [],
      sound_reset (hd.isSuperblock (hd.transit_known x hx)) (isClass_idx2class hb) _ _⟩

/-- **An empty superblock may get lost**: only lists of empty superblocks are
dropped. -/
theorem Inv.forget (hd : d.Inv) (heap : HeapId) : (d.forget heap).Inv := by
  have hsub : ∀ p, List.Sublist (Function.update d.lists (.recycle heap) [] p) (d.lists p) := by
    intro p
    by_cases hp : p = .recycle heap
    · subst hp
      simp
    · rw [Function.update_of_ne hp]
  refine { hd with
    distinct := hd.distinct.of_sublist hsub
    transit_nowhere := fun x hx p hp => hd.transit_nowhere x hx p ((hsub p).subset hp)
    lists_known := fun p x hx => hd.lists_known p x ((hsub p).subset hx)
    fits := fun p x hx => hd.fits p x ((hsub p).subset hx)
    covered := fun x hx hlive => ?_ }
  refine (hd.covered x hx hlive).imp_right fun ⟨bm, e, h⟩ => ⟨bm, e, ?_⟩
  have hne : Place.bin bm e ≠ .recycle heap := by simp
  simpa [Depot.forget, Function.update_of_ne hne] using h

/-- A superblock on a recycle list has no live block. -/
theorem Inv.empty_of_recycle (hd : d.Inv) {heap : HeapId} (hx : x ∈ d.lists (.recycle heap)) :
    liveIn d.live x = [] :=
  (hd.carved x (hd.lists_known _ x hx)).numFree_eq_iff.mp (hd.fits _ x hx).2

/-- Taking a superblock from the global recycle list may fail an assertion, and
changes nothing else of the data. -/
theorem popGlobal_core (d : Depot) (x : ℕ) :
    ∃ failed, (d.popGlobal x).core = { d.core with failed := failed } := by
  simp only [Depot.popGlobal, setCore, Core.assert]
  split
  · exact ⟨_, rfl⟩
  · exact ⟨_, rfl⟩

theorem popGlobal_superblocks (d : Depot) (x : ℕ) :
    (d.popGlobal x).core.superblocks = d.core.superblocks := by
  obtain ⟨failed, hcore⟩ := d.popGlobal_core x
  rw [hcore]

theorem popGlobal_header (d : Depot) (x : ℕ) : (d.popGlobal x).core.header = d.core.header := by
  obtain ⟨failed, hcore⟩ := d.popGlobal_core x
  rw [hcore]

theorem popGlobal_usage (d : Depot) (x : ℕ) : (d.popGlobal x).core.usage = d.core.usage := by
  obtain ⟨failed, hcore⟩ := d.popGlobal_core x
  rw [hcore]

theorem Inv.popGlobal (hd : d.Inv) (hx : x ∈ d.lists (.recycle .global)) :
    (d.popGlobal x).Inv := by
  obtain ⟨failed, hcore⟩ := d.popGlobal_core x
  have hinv : ((d.take (.recycle .global) x).setCore (d.popGlobal x).core).Inv := by
    refine (hd.take hx).congr_core ?_ ?_ ?_ ?_ <;> rw [hcore] <;> rfl
  exact hinv

theorem Inv.recycle (hd : d.Inv) {heap : HeapId} (hx : x ∈ d.lists (.recycle heap)) {b : ℕ}
    (hb : b < numSizeBins) : (d.recycle heap x (idx2class b)).Inv :=
  ((hd.take hx).forget heap).reset (List.mem_cons_self ..) (hd.empty_of_recycle hx) hb

/-- An address that is not a superblock's has no live block. -/
theorem Inv.liveIn_of_not_mem (hd : d.Inv) (hx : x ∉ d.core.superblocks) :
    liveIn d.live x = [] := by
  refine List.eq_nil_iff_forall_not_mem.mpr fun p hp => ?_
  obtain ⟨⟨n, hn⟩, hsb⟩ := MyMalloc.mem_liveIn.mp hp
  exact hx (hsb ▸ (hd.live_known _ hn).1)

/-- A new superblock is none of those there are. -/
theorem Inv.not_mem_of_fresh (hd : d.Inv) {ptr : ℕ}
    (hptr : MapsFresh d.core.mapped ptr (2 * superblockSize)) {c : Core}
    (hc : d.core.allocateNewSuperblock (some ptr) = (some x, c)) : x ∉ d.core.superblocks := by
  obtain ⟨x', mapped, hspec, -, hlo, hhi, -⟩ := d.core.allocateNewSuperblock_spec hptr
  obtain ⟨hx', -⟩ := Prod.mk.inj (hspec.symm.trans hc)
  obtain rfl := Option.some.inj hx'
  obtain ⟨-, -, -, hfresh⟩ := hptr
  intro hmem
  have hS : 0 < superblockSize := by decide
  exact hfresh.not_covers (a := x') ⟨hlo, by simp only; omega⟩
    ((hd.placed x' hmem).covers x' le_rfl (by omega))

/-- **A new superblock is in transit**, and carved. -/
theorem Inv.fresh (hd : d.Inv) {ptr : ℕ} (hptr : MapsFresh d.core.mapped ptr (2 * superblockSize))
    {c : Core} (hc : d.core.allocateNewSuperblock (some ptr) = (some x, c)) {b : ℕ}
    (hb : b < numSizeBins) : (d.fresh x (idx2class b) c).Inv := by
  have hnew := hd.not_mem_of_fresh hptr hc
  obtain ⟨-, hcheader, hcsb, -⟩ := Core.allocateNewSuperblock_frame hc
  obtain ⟨x', mapped, hspec, hdvd, hlo, hhi, hcovers⟩ := d.core.allocateNewSuperblock_spec hptr
  obtain ⟨hx', hcore⟩ := Prod.mk.inj (hspec.symm.trans hc)
  obtain rfl := Option.some.inj hx'
  have hcmapped : c.mapped = mapped := by rw [← hcore]
  have hcmem : c.mem = fill d.core.mem ptr (2 * superblockSize) 0 := by rw [← hcore]
  obtain ⟨-, hpos, hle, hfresh⟩ := hptr
  have hne : ∀ y ∈ d.core.superblocks, y ≠ x' := fun y hy hc => hnew (hc ▸ hy)
  -- The part of the mapping that is kept is the new superblock.
  have hplaced : Placed mapped x' :=
    ⟨hdvd, by omega, by omega, fun a ha ha' => (hcovers a).mpr (Or.inr ⟨ha, ha'⟩)⟩
  have hheader : ∀ y ∈ d.core.superblocks,
      (d.fresh x' (idx2class b) c).core.header y = d.core.header y := by
    intro y hy
    rw [← hcheader]
    exact Function.update_of_ne (hne y hy) ..
  have hsb : (d.fresh x' (idx2class b) c).core.superblocks = x' :: d.core.superblocks := by
    rw [← hcsb]
    rfl
  have hold : ∀ y ∈ d.core.superblocks, y ∈ (d.fresh x' (idx2class b) c).core.superblocks :=
    fun y hy => hsb ▸ List.mem_cons_of_mem _ hy
  have hlive := hd.liveIn_of_not_mem hnew
  refine {
    distinct := hd.distinct
    transit_nodup := List.nodup_cons.mpr ⟨fun h => hnew (hd.transit_known _ h), hd.transit_nodup⟩
    transit_nowhere := fun y hy q hq => ?_
    transit_known := fun y hy => ?_
    lists_known := fun q y hy => hold y (hd.lists_known q y hy)
    superblocks_nodup := hsb ▸ List.nodup_cons.mpr ⟨hnew, hd.superblocks_nodup⟩
    placed := fun y hy => ?_
    carved := fun y hy => ?_
    fits := fun q y hy => ?_
    live_known := fun b hb => ?_
    covered := fun y hy hne' => ?_ }
  · rcases List.mem_cons.mp hy with rfl | hy
    · exact hnew (hd.lists_known q y hq)
    · exact hd.transit_nowhere y hy q hq
  · rcases List.mem_cons.mp hy with rfl | hy
    · exact hsb ▸ List.mem_cons_self ..
    · exact hold y (hd.transit_known y hy)
  · have hmapped : (d.fresh x' (idx2class b) c).core.mapped = mapped := hcmapped
    rw [hmapped]
    rcases List.mem_cons.mp (hsb ▸ hy) with rfl | hy
    · exact hplaced
    · obtain ⟨h₁, h₂, h₃, h₄⟩ := hd.placed y hy
      exact ⟨h₁, h₂, h₃, fun a ha ha' => (hcovers a).mpr (Or.inl (h₄ a ha ha'))⟩
  · rcases List.mem_cons.mp (hsb ▸ hy) with rfl | hy
    · simp only [Depot.fresh, Core.initHeader, Core.setHeader, Function.update_self, hlive]
      exact ⟨rfl, ⟨b, hb, rfl⟩, [], sound_reset hplaced.isSuperblock (isClass_idx2class hb) _ _⟩
    · have hmem : (d.fresh x' (idx2class b) c).core.mem =
          fill d.core.mem ptr (2 * superblockSize) 0 := hcmem
      rw [hheader y hy, hmem]
      refine (hd.carved y hy).congr_mem (hd.isSuperblock hy) fun i hi hi' => ?_
      -- The zeros of the new mapping reach no other superblock.
      exact fill_outside (hfresh.outside ((hd.placed y hy).covers i hi hi'))
  · rw [hheader y (hd.lists_known q y hy)]
    exact hd.fits q y hy
  · obtain ⟨hmem, hle⟩ := hd.live_known b hb
    rw [hheader _ hmem]
    exact ⟨hold _ hmem, hle⟩
  · rcases List.mem_cons.mp (hsb ▸ hy) with rfl | hy
    · exact absurd hlive hne'
    · exact (hd.covered y hy hne').imp_left (List.mem_cons_of_mem _)

theorem Inv.create (hd : d.Inv) {ptr : ℕ} (hptr : MapsFresh d.core.mapped ptr (2 * superblockSize))
    {c : Core} (hc : d.core.allocateNewSuperblock (some ptr) = (some x, c)) {b : ℕ}
    (hb : b < numSizeBins) (heap : HeapId) : (d.create heap x (idx2class b) c).Inv :=
  ((hd.fresh hptr hc hb).own (List.mem_cons_self ..) heap).congr_core rfl rfl rfl rfl

/-- **A superblock in transit with a free block hands out a block** that was not
live. -/
theorem Inv.serve (hd : d.Inv) (hx : x ∈ d.transit) {size : ℕ}
    (hfree : (d.core.header x).numFreeBlocks ≠ 0) (hsize : size ≤ (d.core.header x).blockSize) :
    ∃ p header, d.core.superblockAlloc x = some (p, d.core.setHeader x header) ∧
      superblockOf p = x ∧ p ≠ 0 ∧ p ∉ liveIn d.live x ∧ SameCarving (d.core.header x) header ∧
      header.numFreeBlocks = (d.core.header x).numFreeBlocks - 1 ∧
      (d.serve x p header size).Inv := by
  have hold := hd.carved x (hd.transit_known x hx)
  have hxsb := hd.isSuperblock (hd.transit_known x hx)
  obtain ⟨free, hs⟩ := hold.sound
  obtain ⟨p, header, free', halloc, hs', hnew, hsame, hnum⟩ := hs.alloc hxsb (by omega)
  have hmem : p ∈ (p :: liveIn d.live x) ++ free' := by simp
  have hsb := hs'.superblockOf_eq hxsb hmem
  have hlo := (hs'.mem_buffer hxsb hmem).1
  refine ⟨p, header, by rw [Core.superblockAlloc, halloc, Option.map_some], hsb, by omega, hnew,
    hsame, hnum, ?_⟩
  refine hd.rework hx rfl rfl rfl rfl (fun y hy => Function.update_of_ne hy ..) (fun _ _ => rfl)
    (fun y hy => liveIn_cons_of_ne (by rw [hsb]; exact Ne.symm hy)) (fun b hb => ?_) ?_
  · simp only [Depot.serve, Core.setHeader, Function.update_self, hsame.blockSize]
    rcases List.mem_cons.mp hb with rfl | hb
    · exact Or.inl ⟨hsb, hsize⟩
    · by_cases hbx : superblockOf b.1 = x
      · have hle := (hd.live_known b hb).2
        rw [hbx] at hle
        exact Or.inl ⟨hbx, hle⟩
      · exact Or.inr ⟨hbx, hb⟩
  · simp only [Depot.serve, Core.setHeader, Function.update_self, liveIn_cons_self hsb]
    obtain ⟨b, hb, hclass⟩ := hold.isClass
    exact ⟨hsame.magic.trans hold.magic, ⟨b, hb, hsame.blockSize.trans hclass⟩, free', hs'⟩

/-- **A superblock in transit takes a live block back.** -/
theorem Inv.release (hd : d.Inv) (hx : x ∈ d.transit) {p : ℕ} (hp : p ∈ liveIn d.live x) :
    (d.release x p).Inv ∧ SameCarving (d.core.header x) ((d.release x p).core.header x) ∧
      ((d.release x p).core.header x).numFreeBlocks =
        (d.core.header x).numFreeBlocks + 1 := by
  have hold := hd.carved x (hd.transit_known x hx)
  have hxsb := hd.isSuperblock (hd.transit_known x hx)
  have hpx := (MyMalloc.mem_liveIn.mp hp).2
  obtain ⟨free, hs⟩ := hold.sound
  obtain ⟨header, mem, hfree, hs', hsame, hnum, hmem⟩ := hs.free_live hxsb hp
  obtain ⟨hlo, hhi, -⟩ := hs.mem_buffer hxsb (List.mem_append_left free hp)
  have hpos := hs.isClass.pos
  have hrel : (d.release x p).core = { d.core.setHeader x header with mem := mem } := by
    simp only [Depot.release, Core.superblockFree, hfree]
  have hself : (d.release x p).core.header x = header := by
    rw [hrel]
    exact Function.update_self ..
  refine ⟨?_, hself ▸ hsame, hself ▸ hnum⟩
  refine hd.rework hx rfl rfl (by rw [hrel]; rfl) (by rw [hrel]; rfl) (fun y hy => ?_)
    (fun i hi => ?_) (fun y hy => liveIn_filter_of_ne (by rw [hpx]; exact Ne.symm hy))
    (fun b hb => ?_) ?_
  · rw [hrel]
    exact Function.update_of_ne hy ..
  · rw [hrel]
    refine hmem i ?_
    rw [superblockSize_eq] at hi
    omega
  · rw [hself, hsame.blockSize]
    have hb : b ∈ d.live := List.mem_of_mem_filter hb
    by_cases hbx : superblockOf b.1 = x
    · have hle := (hd.live_known b hb).2
      rw [hbx] at hle
      exact Or.inl ⟨hbx, hle⟩
    · exact Or.inr ⟨hbx, hb⟩
  · rw [hself, hrel]
    obtain ⟨b, hb, hclass⟩ := hold.isClass
    refine ⟨hsame.magic.trans hold.magic, ⟨b, hb, hsame.blockSize.trans hclass⟩, p :: free, ?_⟩
    rw [show (d.release x p).live = d.live.filter fun b => b.1 ≠ p from rfl,
      liveIn_filter_self hold.nodup]
    exact hs'

/-- **A live block is written**, inside the size it was requested for. -/
theorem Inv.rewrite (hd : d.Inv) {p size : ℕ} {mem : ByteMemory.Mem} (hp : (p, size) ∈ d.live)
    (hout : ∀ i, i < p ∨ p + size ≤ i → mem i = d.core.mem i) :
    (d.setCore { d.core with mem := mem }).Inv := by
  obtain ⟨hxsb, hle⟩ : superblockOf p ∈ d.core.superblocks ∧
    size ≤ (d.core.header (superblockOf p)).blockSize := hd.live_known _ hp
  have hlive : p ∈ liveIn d.live (superblockOf p) := Inv.mem_liveIn hp
  have hmem : ∀ i, i < p ∨ p + (d.core.header (superblockOf p)).blockSize ≤ i →
      mem i = d.core.mem i := fun i hi => hout i (by omega)
  obtain ⟨hlo, hhi, -, -⟩ := (hd.carved _ hxsb).live_mem (hd.isSuperblock hxsb) hlive
  refine { hd with carved := fun y hy => ?_ }
  by_cases hyx : y = superblockOf p
  · subst hyx
    obtain ⟨free, hs⟩ := (hd.carved _ hxsb).sound
    exact ⟨(hd.carved _ hxsb).magic, (hd.carved _ hxsb).isClass, free, hs.write hlive hmem⟩
  · have hdis := (hd.placed y hy).disjoint (hd.placed _ hxsb) hyx
    exact (hd.carved y hy).congr_mem (hd.isSuperblock hy) fun i hi hi' => hmem i (by omega)

/-- **A client writes into a live block.** -/
theorem Inv.write (hd : d.Inv) {p size off : ℕ} {bytes : List UInt8} (hp : (p, size) ∈ d.live)
    (hlen : off + bytes.length ≤ size) :
    (d.setCore { d.core with mem := store d.core.mem (p + off) bytes }).Inv := by
  exact hd.rewrite hp fun i hi => store_outside (by omega)

/-- **What happens elsewhere does not matter**: to the memory outside the superblocks,
and to the mappings they are not in. -/
theorem Inv.elsewhere (hd : d.Inv) {c : Core} (hheader : c.header = d.core.header)
    (hsb : c.superblocks = d.core.superblocks)
    (hmem : ∀ x ∈ d.core.superblocks, ∀ i, x ≤ i → i < x + superblockSize →
      c.mem i = d.core.mem i)
    (hmapped : ∀ x ∈ d.core.superblocks, ∀ i, x ≤ i → i < x + superblockSize →
      Covers c.mapped i) : (d.setCore c).Inv := by
  obtain ⟨usage, header, mem, superblocks, mapped, failed⟩ := c
  simp only at hheader hsb hmem hmapped
  subst hheader hsb
  exact { hd with
    placed := fun x hx => ⟨(hd.placed x hx).dvd, (hd.placed x hx).pos, (hd.placed x hx).le,
      hmapped x hx⟩
    carved := fun x hx => (hd.carved x hx).congr_mem (hd.isSuperblock hx) (hmem x hx) }

end Depot

end MyMalloc
