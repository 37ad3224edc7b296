import MyMalloc.SearchOrder
import MyMalloc.Emptiness
import Mathlib.Algebra.BigOperators.Ring.List

/-!
# Which superblock is given away

`transfer_sb_to_global` moves an empty superblock of the heap, or if there is none one
of the emptiest (`MyMalloc.emptiest_moved`). A superblock that moves with blocks in use
is not full. It need not be empty to a quarter, though: that the heap is empty enough
on the average of bytes says little about blocks.

The average is over whole superblocks, with their headers and with what is left over
behind the last block. Fifteen superblocks of six blocks, five of them in use, use
less than three quarters of their bytes, and none of them is empty to a quarter
(`MyMalloc.nearly_full_moved`). Over the bytes of the blocks alone the average would
do.
-/

namespace MyMalloc

open LinkedList Placement AddressSpace Depot

/-! ### Runs through located states -/

/-- A step leads to a state in which every superblock in a bin is where its header
says. -/
def World.StaysLocated (w : World) (op : Op) : Prop :=
  ∀ w', w.step op = some w' → ∃ lists, w'.Located lists

/-- **A superblock of another class is misfiled** when it comes from the recycle list of
the global heap. -/
theorem World.StaysLocated.matching {w : World} (hw : w.WellFormed) {op : Op}
    (hlegal : w.Legal op) (h : w.StaysLocated op) : w.Matching op := by
  cases op with
  | free ptr => trivial
  | write ptr off bytes => trivial
  | alloc i size mmap =>
    intro x hx
    obtain ⟨d, hM, hd⟩ := World.wellFormed_iff.mp hw
    obtain ⟨-, hsize, hmmap⟩ := hlegal
    have hcore : w.state.toCore = d.core := hM.refines.core
    rcases State.heapAlloc_outcome hM.refines hd (.thread i) hsize (hcore ▸ hmmap) with
      ⟨y, d₁, p, header, s', hpresent, hacquires, hserves, halloc, hR'⟩ | ⟨s', halloc⟩
    · obtain ⟨lists, hlocated⟩ := h _ (World.step_alloc_some halloc)
      have hheld := hacquires.held hd (binOf_lt hsize) hpresent
      have hdistinct : Distinct (d₁.handOut (.thread i) (binOf size) y p header 0).lists :=
        hheld.inv.distinct.push (hheld.inv.transit_nowhere y hheld.transit)
      -- The superblock is filed in the bin it was fetched for, where only its own class may be.
      have hmem : y ∈ lists (.bin (.thread i, binOf size) (eidxOf header)) := by
        rw [hlocated.represents.unique hR'.represents hlocated.distinct hdistinct]
        exact mem_push.mpr (Or.inl ⟨rfl, rfl⟩)
      have hclass : (s'.header y).blockSize = idx2class (binOf size) :=
        (hlocated.blockSize _ _ _ hmem).2
      have hself : s'.header y = header := by
        rw [hR'.core]
        exact Function.update_self ..
      rw [hx] at hacquires
      cases hacquires
      rw [hself, hserves.same.blockSize, adopt_header, popGlobal_header] at hclass
      rw [hcore]
      exact hclass
    · obtain ⟨⟨-, -, -, hnone⟩, -, -⟩ := (State.heapAlloc_eq_none_iff hsize).mp halloc
      rw [State.source_globalRecycled hx] at hnone
      cases hnone

/-- What a step does that fetches no superblock of another class. -/
theorem World.exists_step {w : World} (hw : w.WellFormed) {op : Op} (hlegal : w.Legal op)
    (hmatching : w.Matching op) :
    ∃ w', w.step op = some w' ∧ w'.WellFormed ∧ ∃ lists, w'.Located lists := by
  obtain ⟨d, hM, hd⟩ := World.wellFormed_iff.mp hw
  obtain ⟨w', d', hw', hstep, hM'⟩ := World.simulates hM hd hlegal hmatching
  have hd' := hstep.inv hd
  exact ⟨w', hw', World.wellFormed_iff.mpr ⟨d', hM', hd'⟩, d'.lists, hM'.located hd'⟩

/-- **A run in which every superblock fetched matches** goes through located states. -/
theorem World.always_staysLocated {ops : List Op}
    (hops : Trace.Always World.step (fun w op => w.Legal op ∧ w.Matching op) World.initial ops) :
    Trace.Always World.step (fun w op => w.Legal op ∧ w.StaysLocated op) World.initial ops := by
  have hinitial : World.initial.WellFormed :=
    World.wellFormed_iff.mpr ⟨_, World.models_initial, Depot.inv_initial⟩
  refine Trace.Always.imp_of_inv ?_ ?_ hinitial hops
  · rintro w op hw ⟨hlegal, hmatching⟩
    obtain ⟨w₁, hw₁, -, hlocated⟩ := World.exists_step hw hlegal hmatching
    refine ⟨hlegal, fun w' hw' => ?_⟩
    obtain rfl := Option.some.inj (hw'.symm.trans hw₁)
    exact hlocated
  · rintro w op w' hw ⟨hlegal, hmatching⟩ hw'
    obtain ⟨w₁, hw₁, hwell, -⟩ := World.exists_step hw hlegal hmatching
    obtain rfl := Option.some.inj (hw'.symm.trans hw₁)
    exact hwell

/-- **A run through located states** leads to a well-formed state. -/
theorem World.wellFormed_of_located {ops : List Op}
    (hops : Trace.Always World.step (fun w op => w.Legal op ∧ w.StaysLocated op) World.initial
      ops) :
    ∃ w, Trace.run World.step World.initial ops = some w ∧ w.WellFormed := by
  have hrule : ∀ (w : World) (op : Op), w.WellFormed → w.Legal op ∧ w.StaysLocated op →
      ∃ w', w.step op = some w' ∧ w'.WellFormed := by
    rintro w op hw ⟨hlegal, hlocated⟩
    obtain ⟨w', hw', hwell, -⟩ := World.exists_step hw hlegal (hlocated.matching hw hlegal)
    exact ⟨w', hw', hwell⟩
  exact Trace.run_of_always hrule
    (World.wellFormed_iff.mpr ⟨_, World.models_initial, Depot.inv_initial⟩) hops

/-! ### The emptiest superblock -/

/-- **A class above 1** is more than a quarter free. -/
theorem Counted.two_le_eidxOf_iff {header : SuperblockHeader} (h : Counted header) :
    2 ≤ eidxOf header ↔ header.totalBlocks < 4 * header.numFreeBlocks := by
  have hpos := h.pos
  have hle := h.le
  have hq : (header.totalBlocks - header.numFreeBlocks) * 4 / header.totalBlocks < 3 ↔
      (header.totalBlocks - header.numFreeBlocks) * 4 < 3 * header.totalBlocks :=
    Nat.div_lt_iff_lt_mul hpos
  rw [h.eidxOf_eq]
  omega

/-- The bytes of the blocks of a superblock, if a heap owns it and it is not empty. -/
def blockBytesOf (header : SuperblockHeader) (heap : HeapId) : ℤ :=
  if header.owner = some heap ∧ header.numFreeBlocks ≠ header.totalBlocks then
    (header.totalBlocks * header.blockSize : ℕ)
  else 0

/-- The bytes of the blocks of all superblocks of a heap that are not empty. -/
def Core.blockBytesBy (c : Core) (heap : HeapId) : ℤ :=
  (c.superblocks.map fun x => blockBytesOf (c.header x) heap).sum

/-- **The superblock that a heap has given away**: it is not full. It is more than a
quarter free if one that stays in a bin of the heap is, or if the heap uses less than
three quarters of the bytes of its blocks. -/
structure World.GivenAway (w : World) (heap : HeapId) (s' : State) (y : ℕ) : Prop where
  free : (s'.header y).numFreeBlocks ≠ 0
  quarter : (∃ b e z, s'.InBin (heap, b) e z ∧
      (s'.header z).totalBlocks < 4 * (s'.header z).numFreeBlocks) ∨
    4 * ((s'.usage heap).inUse : ℤ) < 3 * w.state.blockBytesBy heap →
    (s'.header y).totalBlocks < 4 * (s'.header y).numFreeBlocks

section

variable {d : Depot} {heap : HeapId} {place : Option (ℕ × ℕ)} {binIdx e y z : ℕ}

/-- A superblock on a recycle list is free altogether. -/
theorem Depot.Inv.quarter_of_recycle (hd : d.Inv) (hy : y ∈ d.lists (.recycle heap)) :
    (d.core.header y).totalBlocks < 4 * (d.core.header y).numFreeBlocks := by
  have hpos := (hd.carved y (hd.lists_known _ y hy)).counted.pos
  have hempty : (d.core.header y).numFreeBlocks = (d.core.header y).totalBlocks :=
    (hd.fits _ y hy).2
  omega

/-- The superblock that moves is not full. -/
theorem State.Emptiest.free (h : Emptiest d heap place) (hd : d.Inv)
    (hy : y ∈ d.lists (State.placeIn heap place)) : (d.core.header y).numFreeBlocks ≠ 0 := by
  have hcounted := (hd.carved y (hd.lists_known _ y hy)).counted
  cases place with
  | none =>
    have hquarter := hd.quarter_of_recycle hy
    omega
  | some eb =>
    have hpos := (h.max eb.1 eb.2 rfl).1
    have heidx : eidxOf (d.core.header y) = eb.1 := (hd.fits _ y hy).2.2.2.1
    intro hfull
    rw [hcounted.eidxOf_full hfull] at heidx
    omega

/-- **The superblock that moves is more than a quarter free** if some superblock in a
bin is. -/
theorem State.Emptiest.quarter (h : Emptiest d heap place) (hd : d.Inv)
    (hy : y ∈ d.lists (State.placeIn heap place)) (hz : z ∈ d.lists (.bin (heap, binIdx) e))
    (he : 2 ≤ e) : (d.core.header y).totalBlocks < 4 * (d.core.header y).numFreeBlocks := by
  have hcounted := (hd.carved y (hd.lists_known _ y hy)).counted
  cases place with
  | none => exact hd.quarter_of_recycle hy
  | some eb =>
    have heidx : eidxOf (d.core.header y) = eb.1 := (hd.fits _ y hy).2.2.2.1
    refine hcounted.two_le_eidxOf_iff.mp ?_
    rw [heidx]
    exact he.trans ((h.max eb.1 eb.2 rfl).2 _ _ _ hz)

end

namespace Depot

variable {d : Depot} {i binIdx e x ptr : ℕ}

/-- **The average over the blocks**: a heap that uses less than three quarters of the
bytes of its blocks has a superblock that is more than a quarter free. It is in a bin,
or there is one on the recycle list. -/
theorem Inv.exists_quarter (hd : d.Inv) (hx : x ∈ d.lists (.bin (.thread i, binIdx) e))
    (hptr : ptr ∈ liveIn d.live x) (htransit : d.transit = [])
    (hfew : 4 * (d.takeBack (.thread i, binIdx) e x ptr).core.usedBy (.thread i) <
      3 * d.core.blockBytesBy (.thread i))
    (hrecycle : (d.takeBack (.thread i, binIdx) e x ptr).lists (.recycle (.thread i)) = []) :
    ∃ b e' z, z ∈ (d.takeBack (.thread i, binIdx) e x ptr).lists (.bin (.thread i, b) e') ∧
      2 ≤ e' := by
  have hd' := hd.takeBack hx hptr
  -- If all used three quarters of their bytes, the heap would.
  have hsum : ((d.takeBack (.thread i, binIdx) e x ptr).core.superblocks.map fun z =>
      4 * usedOf ((d.takeBack (.thread i, binIdx) e x ptr).core.header z) (.thread i)).sum <
        (d.core.superblocks.map fun z => 3 * blockBytesOf (d.core.header z) (.thread i)).sum := by
    rw [List.sum_map_mul_left, List.sum_map_mul_left]
    exact hfew
  obtain ⟨z, hz, hlt⟩ := List.exists_lt_of_sum_lt _ _ hsum
  have hsame := hd.takeBack_same hx hptr z
  have hcarved := hd'.carved z hz
  have hzero := (hd'.usedOf_mem hz (.thread i)).1
  -- The superblock belongs to the heap and is not empty.
  obtain ⟨howner, hnonempty⟩ : (d.core.header z).owner = some (.thread i) ∧
      (d.core.header z).numFreeBlocks ≠ (d.core.header z).totalBlocks := by
    by_contra hnot
    rw [blockBytesOf, if_neg hnot] at hlt
    omega
  rw [blockBytesOf, if_pos ⟨howner, hnonempty⟩, usedOf_of_owner (hsame.owner.trans howner),
    hcarved.usedBytes_eq, hsame.blockSize] at hlt
  have hlive : liveIn d.live z ≠ [] := mt (hd.carved z hz).numFree_eq_iff.mpr hnonempty
  obtain ⟨bm, e', hbin⟩ := (hd.covered z hz hlive).resolve_left (by simp [htransit])
  obtain ⟨p, hp⟩ := (hd.exists_mem_takeBack hx z).mpr ⟨_, hbin⟩
  have howns := (hd'.owns hp).2
  rw [hsame.owner, howner] at howns
  cases p with
  | recycle heap =>
    obtain rfl : HeapId.thread i = heap := Option.some.inj howns
    rw [hrecycle] at hp
    exact absurd hp List.not_mem_nil
  | bin bm e' =>
    obtain ⟨heap, b⟩ := bm
    obtain rfl : HeapId.thread i = heap := Option.some.inj howns
    refine ⟨b, e', z, hp, ?_⟩
    rw [← (hd'.fits _ z hp).2.2.2.1, hcarved.counted.two_le_eidxOf_iff]
    obtain ⟨free, hs⟩ := hcarved.sound
    have hnum := hs.numFree_add_length
    have htotal := hsame.totalBlocks
    -- In one superblock all blocks have the same size, so that bytes are as good as blocks.
    have hblocks : 4 * (liveIn (d.takeBack (.thread i, binIdx) e x ptr).live z).length <
        3 * (d.core.header z).totalBlocks := by
      refine Nat.lt_of_mul_lt_mul_right (a := (d.core.header z).blockSize) ?_
      rw [Nat.mul_assoc, Nat.mul_assoc]
      omega
    omega

/-- What a heap has in use after a block is taken back, if its account is right. -/
theorem Inv.takeBackCounted_inUse (hd : d.Inv) (hx : x ∈ d.lists (.bin (.thread i, binIdx) e))
    (hptr : ptr ∈ liveIn d.live x)
    (hinUse : ((d.core.usage (.thread i)).inUse : ℤ) = d.core.usedBy (.thread i)) :
    (((d.takeBackCounted (.thread i) binIdx e x ptr).core.usage (.thread i)).inUse : ℤ) =
      (d.takeBack (.thread i, binIdx) e x ptr).core.usedBy (.thread i) := by
  have howner : (d.core.header x).owner = some (.thread i) := (hd.fits _ x hx).1
  have hclass : (d.core.header x).blockSize = idx2class binIdx := (hd.fits _ x hx).2.2.1
  have hle := hd.blockSize_le_usedBy (hd.lists_known _ x hx) howner hptr
  have hlt := hd.usedBy_lt (.thread i)
  have htake := hd.takeBack_usedBy hx hptr (.thread i)
  rw [if_pos rfl] at htake
  rw [hclass] at hle htake
  have hless : ((d.takeBackCounted (.thread i) binIdx e x ptr).core.usage (.thread i)).inUse =
      (d.core.usage (.thread i)).inUse - idx2class binIdx :=
    Core.decUsage_inUse (c := d.core.superblockFree x ptr)
      (show _ ≤ (d.core.usage (.thread i)).inUse by omega)
      (show (d.core.usage (.thread i)).inUse < _ by omega)
  omega

/-- What stands in the bins of a thread heap stood there before a superblock moved. -/
theorem Inv.mem_of_mem_transferCounted (hd : d.Inv) {place : Option (ℕ × ℕ)} {y z b : ℕ}
    (hy : y ∈ d.lists (State.placeIn (.thread i) place))
    (hz : z ∈ (d.transferCounted (.thread i) place y).lists (.bin (.thread i, b) e)) :
    z ∈ d.lists (.bin (.thread i, b) e) := by
  rcases mem_push.mp hz with ⟨hplace, -⟩ | hz
  · have hheap := congrArg Place.heap hplace
    rw [State.placeIn_heap] at hheap
    cases hheap
  · exact ((mem_take hd.distinct hy).mp hz).1

end Depot

namespace World

variable {w : World} {d : Depot}

/-- **What a heap gives away** when it has become empty enough. -/
theorem givenAway_of_moved (hd : d.Inv) (htransit : d.transit = []) {i binIdx e x ptr y : ℕ}
    {place : Option (ℕ × ℕ)} (hx : x ∈ d.lists (.bin (.thread i, binIdx) e))
    (hptr : ptr ∈ liveIn d.live x)
    (hy : y ∈ (d.takeBackCounted (.thread i) binIdx e x ptr).lists
      (State.placeIn (.thread i) place))
    (hplace : State.Emptiest (d.takeBackCounted (.thread i) binIdx e x ptr) (.thread i) place)
    {s' : State} (hR' : Refines s' ((d.takeBackCounted (.thread i) binIdx e x ptr).transferCounted
      (.thread i) place y))
    (hcore : w.state.toCore = d.core)
    (hinUse : ((d.core.usage (.thread i)).inUse : ℤ) = d.core.usedBy (.thread i)) :
    w.GivenAway (.thread i) s' y := by
  have hd₁ := hd.takeBackCounted hx hptr
  have hinv' : ((d.takeBackCounted (.thread i) binIdx e x ptr).transferCounted (.thread i) place
    y).Inv := (hd₁.transfer hy).congr_core rfl rfl rfl rfl
  have hself : s'.header y = { (d.takeBackCounted (.thread i) binIdx e x ptr).core.header y with
      owner := some .global } := by
    rw [hR'.core]
    exact transferCounted_header place
  constructor
  · rw [hself]
    exact hplace.free hd₁ hy
  rw [hself]
  rintro (⟨b, e', z, hz, hquarter⟩ | haverage)
  · -- Some superblock that stays is more than a quarter free.
    rw [hR'.inBin_iff hinv'] at hz
    have hcounted := (hinv'.carved z (hinv'.lists_known _ z hz)).counted
    rw [hR'.core, ← hcounted.two_le_eidxOf_iff, (hinv'.fits _ z hz).2.2.2.1] at hquarter
    exact hplace.quarter hd₁ hy (hd₁.mem_of_mem_transferCounted hy hz) hquarter
  · by_cases hrecycle : (d.takeBackCounted (.thread i) binIdx e x ptr).lists
      (.recycle (.thread i)) = []
    · have hinUse' : (s'.usage (.thread i)).inUse =
          ((d.takeBackCounted (.thread i) binIdx e x ptr).core.usage (.thread i)).inUse := by
        rw [hR'.core]
        exact Core.decAlloced_inUse
      rw [hcore, hinUse', hd.takeBackCounted_inUse hx hptr hinUse] at haverage
      obtain ⟨b, e', z, hz, he⟩ := hd.exists_quarter hx hptr htransit haverage hrecycle
      exact hplace.quarter hd₁ hy hz he
    · obtain rfl := hplace.recycle.mpr hrecycle
      exact hd₁.quarter_of_recycle hy

/-- **What a heap gives away**, for one call of `heap_free`. -/
theorem Models.givenAway (hM : w.Models d) (hd : d.Inv) {i : ℕ}
    (hinUse : ((w.state.usage (.thread i)).inUse : ℤ) = w.state.usedBy (.thread i))
    {b : ℕ × ℕ} (hb : b ∈ w.live) :
    ∃ s', w.state.heapFree b.1 = some s' ∧ ∀ y, w.state.Owns (.thread i) y → s'.Owns .global y →
      w.GivenAway (.thread i) s' y := by
  obtain ⟨hR, hlive, htransit⟩ := hM
  have hcore : w.state.toCore = d.core := hR.core
  rw [← hlive] at hb
  have hptr : b.1 ∈ liveIn d.live (superblockOf b.1) := Inv.mem_liveIn hb
  have hcovered := hd.covered _ (hd.live_known b hb).1 (List.ne_nil_of_mem hptr)
  rw [htransit] at hcovered
  obtain ⟨⟨heap, binIdx⟩, e, hx⟩ := hcovered.resolve_left List.not_mem_nil
  have hsame := hd.takeBack_same hx hptr
  rw [hcore] at hinUse ⊢
  -- A superblock whose owner has not changed is not given away.
  have hstays : ∀ {s' : State} {y}, (s'.header y).owner = (d.core.header y).owner →
      d.core.Owns (.thread i) y → s'.Owns .global y → w.GivenAway (.thread i) s' y := by
    intro s' y howner howns howns'
    have hglobal := howns'.2
    rw [howner, howns.2] at hglobal
    cases hglobal
  cases heap with
  | global =>
    obtain ⟨s', heq, hR'⟩ := State.heapFree_global hR hd hx hptr
    refine ⟨s', heq, fun y => hstays ?_⟩
    rw [hR'.core]
    exact (hsame y).owner
  | thread j =>
    cases hempty : isEmptyEnough ((d.takeBackCounted (.thread j) binIdx e (superblockOf b.1)
      b.1).core.usage (.thread j)) with
    | false =>
      obtain ⟨s', heq, hR'⟩ := State.heapFree_kept hR hd hx hptr hempty
      refine ⟨s', heq, fun y => hstays ?_⟩
      rw [hR'.core]
      exact (hsame y).owner
    | true =>
      obtain ⟨y', place, s', hy', hplace, heq, hR'⟩ := State.heapFree_moved hR hd hx hptr hempty
      refine ⟨s', heq, fun y howns howns' => ?_⟩
      by_cases hyy : y = y'
      · subst hyy
        obtain rfl : j = i := by
          have howner := ((hd.takeBackCounted hx hptr).owns hy').2
          rw [State.placeIn_heap] at howner
          have hthread := howner.symm.trans ((hsame y).owner.trans howns.2)
          exact HeapId.thread.inj (Option.some.inj hthread)
        exact givenAway_of_moved hd htransit hx hptr hy' hplace hR' hcore hinUse
      · refine hstays ?_ howns howns'
        rw [hR'.core, transferCounted_header_of_ne place hyy]
        exact (hsame y).owner

end World

/-! ### Runs -/

/-- **The superblock that is given away is one of the emptiest**, after every run
through located states, by every heap whose account is right then. -/
theorem emptiest_moved {ops : List Op}
    (hops : Trace.Always World.step (fun w op => w.Legal op ∧ w.StaysLocated op) World.initial
      ops) :
    ∃ w, Trace.run World.step World.initial ops = some w ∧ ∀ i : ℕ,
      ((w.state.usage (.thread i)).inUse : ℤ) = w.state.usedBy (.thread i) → ∀ b ∈ w.live,
      ∃ s', w.state.heapFree b.1 = some s' ∧
        ∀ y, w.state.Owns (.thread i) y → s'.Owns .global y → w.GivenAway (.thread i) s' y := by
  obtain ⟨w, hrun, hw⟩ := World.wellFormed_of_located hops
  obtain ⟨d, hM, hd⟩ := World.wellFormed_iff.mp hw
  exact ⟨w, hrun, fun i hinUse b hb => hM.givenAway hd hinUse hb⟩

/-- A heap that becomes empty enough gives away a superblock with a block in use. -/
theorem emptiest_moved_in_use : ∃ w s',
    Trace.run World.step World.initial (sixSuperblocks ++ [.free 1048704]) = some w ∧
      w.state.heapFree 2097280 = some s' ∧ w.state.Owns (.thread 0) 4194304 ∧
      s'.Owns .global 4194304 ∧ w.GivenAway (.thread 0) s' 4194304 := by
  have hops : Trace.Always World.step (fun w op => w.Legal op ∧ w.StaysLocated op) World.initial
      (sixSuperblocks ++ [.free 1048704]) := World.always_staysLocated (by decide +kernel)
  obtain ⟨w, hrun, hmoved⟩ := emptiest_moved hops
  have hlast : (Trace.run World.step World.initial (sixSuperblocks ++ [.free 1048704])).map
      (fun w => (decide (((w.state.usage (.thread 0)).inUse : ℤ) = w.state.usedBy (.thread 0)),
        decide ((2097280, 100000) ∈ w.live), decide (w.state.Owns (.thread 0) 4194304),
        (w.state.heapFree 2097280).map fun s' => decide (s'.Owns .global 4194304))) =
      some (true, true, true, some true) := by decide +kernel
  rw [hrun] at hlast
  simp only [Option.map_some, Option.some.injEq, Prod.mk.injEq, decide_eq_true_eq] at hlast
  obtain ⟨hinUse, hlive, howns, hfree⟩ := hlast
  obtain ⟨s', heq, hgiven⟩ := hmoved 0 hinUse _ hlive
  have howns' : s'.Owns .global 4194304 := by simpa [heq] using hfree
  exact ⟨w, s', hrun, heq, howns, howns', hgiven 4194304 howns howns'⟩

/-- A superblock of six blocks with five of them in use, fifteen times, and then one
block less in each but the last. -/
def fifteenSuperblocks : List Op :=
  ((List.range 15).flatMap fun k =>
    .alloc 0 38368 (some (1048576 * (k + 1))) :: List.replicate 5 (.alloc 0 38368 none)) ++
  (List.range 14).map fun k => .free (1048576 * (k + 1) + 128)

/-- **A superblock is given away with one of its six blocks free**, by a heap whose
account is right. -/
theorem nearly_full_moved :
    Trace.Always World.step (fun w op => w.Legal op ∧ w.StaysLocated op) World.initial
      fifteenSuperblocks ∧
    ∃ w s', Trace.run World.step World.initial fifteenSuperblocks = some w ∧
      ((w.state.usage (.thread 0)).inUse : ℤ) = w.state.usedBy (.thread 0) ∧
      (w.state.usage (.thread 0)).alloced = superblockSize * w.state.ownedBy (.thread 0) ∧
      (15728768, 38368) ∈ w.live ∧ w.state.heapFree 15728768 = some s' ∧
      w.state.Owns (.thread 0) 15728640 ∧ s'.Owns .global 15728640 ∧
      4 * (s'.header 15728640).numFreeBlocks < (s'.header 15728640).totalBlocks := by
  refine ⟨World.always_staysLocated (by decide +kernel), ?_⟩
  have hlast : (Trace.run World.step World.initial fifteenSuperblocks).bind (fun w =>
      (w.state.heapFree 15728768).map fun s' =>
        decide (((w.state.usage (.thread 0)).inUse : ℤ) = w.state.usedBy (.thread 0) ∧
          (w.state.usage (.thread 0)).alloced = superblockSize * w.state.ownedBy (.thread 0) ∧
          (15728768, 38368) ∈ w.live ∧ w.state.Owns (.thread 0) 15728640 ∧
          s'.Owns .global 15728640 ∧
          4 * (s'.header 15728640).numFreeBlocks < (s'.header 15728640).totalBlocks)) =
      some true := by decide +kernel
  obtain ⟨w, hrun, hw⟩ := Option.bind_eq_some_iff.mp hlast
  obtain ⟨s', hfree, hs'⟩ := Option.map_eq_some_iff.mp hw
  obtain ⟨hinUse, halloced, hlive, howns, howns', hfull⟩ := of_decide_eq_true hs'
  exact ⟨w, s', hrun, hinUse, halloced, hlive, hfree, howns, howns', hfull⟩

end MyMalloc
