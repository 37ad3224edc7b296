import MyMalloc.Usable

/-!
# The header of a superblock says where it is

No superblock remembers the list it is on. `heap_free` computes the heap, the bin
and the class from the header, and trusts that the superblock is there. After
every sequential run it is (`MyMalloc.superblocks_located`), as long as no
superblock comes from the recycle list of the global heap to another class than
its own: such a superblock is filed in the bin of the request, while its header
names the bin it was carved for (`MyMalloc.superblock_misfiled`).
-/

namespace MyMalloc

open LinkedList Placement Depot

namespace World

variable {w : World} {d : Depot}

/-- **Every superblock in a bin is where its header says**, for the lists that the
pointers lay out. -/
structure Located (w : World) (lists : Lists) : Prop where
  represents : Represents w.state lists
  distinct : Distinct lists
  owner : ∀ bm e, ∀ x ∈ lists (.bin bm e), (w.state.header x).owner = some bm.1
  blockSize : ∀ bm e, ∀ x ∈ lists (.bin bm e), bm.2 < numSizeBins ∧
    (w.state.header x).blockSize = idx2class bm.2
  eidx : ∀ bm e, ∀ x ∈ lists (.bin bm e), w.state.getEidx x = some (e, w.state)
  /-- The counters count the superblocks that are not full, and do not wrap. -/
  count : ∀ bm, (w.state.sizeBins bm).numNonfullSuperblocks = nonfull lists bm ∧
    nonfull lists bm < 2 ^ 32
  /-- The list `heap_free` computes for a live block is the one its superblock is on. -/
  found : ∀ b ∈ w.live, ∃ heap binIdx eidx,
    (w.state.header (superblockOf b.1)).owner = some heap ∧
    w.state.size2idx (w.state.header (superblockOf b.1)).blockSize = some (binIdx, w.state) ∧
    w.state.getEidx (superblockOf b.1) = some (eidx, w.state) ∧
    superblockOf b.1 ∈ lists (.bin (heap, binIdx) eidx)

theorem Models.getEidx (hM : w.Models d) (hd : d.Inv) {bm : BinPtr} {e x : ℕ}
    (hx : x ∈ d.lists (.bin bm e)) : w.state.getEidx x = some (e, w.state) := by
  have hcounted := (hd.carved x (hd.lists_known _ x hx)).counted
  rw [Counted.getEidx_eq (by rw [hM.refines.core]; exact hcounted), hM.refines.core,
    (hd.fits _ x hx).2.2.2.1]

theorem Models.located (hM : w.Models d) (hd : d.Inv) : w.Located d.lists where
  represents := hM.refines.represents
  distinct := hd.distinct
  owner bm e x hx := by
    rw [hM.refines.core]
    exact (hd.fits _ x hx).1
  blockSize bm e x hx := by
    rw [hM.refines.core]
    exact ⟨(hd.fits _ x hx).2.1, (hd.fits _ x hx).2.2.1⟩
  eidx bm e x hx := hM.getEidx hd hx
  count bm := ⟨hM.refines.represents.count bm,
    lt_of_le_of_lt (nonfull_le hd.distinct hd.inUserSpace bm) (by decide)⟩
  found b hb := by
    rw [← hM.live] at hb
    have hsb := (hd.live_known b hb).1
    have hcovered := hd.covered _ hsb (List.ne_nil_of_mem (Inv.mem_liveIn hb))
    rw [hM.transit] at hcovered
    obtain ⟨⟨heap, binIdx⟩, e, hx⟩ := hcovered.resolve_left List.not_mem_nil
    obtain ⟨howner, hbin, hclass, -⟩ := hd.fits _ _ hx
    refine ⟨heap, binIdx, e, ?_, ?_, hM.getEidx hd hx, hx⟩
    · rw [hM.refines.core]
      exact howner
    · rw [show (w.state.header (superblockOf b.1)).blockSize = idx2class binIdx by
        rw [hM.refines.core]; exact hclass, State.size2idx_eq (idx2class_le hbin),
        binOf_idx2class hbin]

end World

/-- **Every superblock is where its header says** after every run in which no
superblock comes from the recycle list of the global heap to another class than
its own. -/
theorem superblocks_located {ops : List Op}
    (hops : Trace.Always World.step (fun w op => w.Legal op ∧ w.Matching op) World.initial ops) :
    ∃ w, Trace.run World.step World.initial ops = some w ∧ ∃ lists, w.Located lists := by
  obtain ⟨w, d, hrun, hM, hd, -⟩ := World.run_induction (P := fun _ => True) (fun _ _ h => h)
    trivial (fun _ _ _ _ _ _ _ _ _ _ => trivial) hops
  exact ⟨w, hrun, d.lists, hM.located hd⟩

/-- A superblock goes through both recycle lists and back into a bin. -/
theorem superblocks_located_same_class : ∃ w,
    Trace.run World.step World.initial
      (fiveClasses ++ [.alloc 1 16 none, .free 1048720, .alloc 1 40 none]) = some w ∧
      ∃ lists, w.Located lists :=
  superblocks_located (by decide +kernel)

/-- **A superblock is misfiled**: carved into blocks of 16 bytes, it comes from the
recycle list of the global heap into the bin of the class of 129472 bytes. -/
theorem superblock_misfiled :
    Trace.Always World.step World.Legal World.initial (fiveClasses ++ [.alloc 1 100000 none]) ∧
    ∃ w, Trace.run World.step World.initial (fiveClasses ++ [.alloc 1 100000 none]) = some w ∧
      ¬∃ lists, w.Located lists := by
  refine ⟨by decide +kernel, ?_⟩
  have hheads : (Trace.run World.step World.initial
      (fiveClasses ++ [.alloc 1 100000 none])).map (fun w =>
        ((w.state.sizeBins (.thread 1, 22)).emptinessBins 4,
          (w.state.header 1048576).blockSize)) = some (some 1048576, 16) := by decide +kernel
  obtain ⟨w, hrun, hw⟩ := Option.map_eq_some_iff.mp hheads
  obtain ⟨hhead, hsize⟩ := Prod.mk.inj hw
  refine ⟨w, hrun, fun ⟨lists, h⟩ => ?_⟩
  have hmem : 1048576 ∈ lists (.bin (.thread 1, 22) 4) := by
    rw [h.represents.head_bin] at hhead
    exact List.mem_of_head? hhead
  have hclass := (h.blockSize _ _ _ hmem).2
  rw [hsize] at hclass
  exact absurd hclass (by decide +kernel)

end MyMalloc
