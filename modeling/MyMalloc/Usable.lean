import MyMalloc.Simulation

/-!
# Live blocks are usable

The contract of an allocator, after every sequential run: each live block lies,
with the size it was requested for, in the buffer of one mapped superblock, and
no two live blocks overlap (`MyMalloc.World.Usable`).

The allocator keeps it as long as no superblock comes from the recycle list of
the global heap to another class than its own
(`MyMalloc.live_blocks_usable`). When one does, its blocks are too small for the
requests they serve, and live blocks overlap (`MyMalloc.live_blocks_overlap`).
-/

namespace MyMalloc

open LinkedList Placement AddressSpace Depot

namespace Depot

variable {d : Depot}

/-- **No block is live twice.** -/
theorem Inv.live_nodup (hd : d.Inv) : (d.live.map Prod.fst).Nodup := by
  refine List.nodup_iff_count_le_one.mpr fun p => ?_
  by_cases hp : p ∈ d.live.map Prod.fst
  · obtain ⟨b, hb, rfl⟩ := List.mem_map.mp hp
    have hnd := (hd.carved _ (hd.live_known b hb).1).nodup
    have hcount := List.nodup_iff_count_le_one.mp hnd b.1
    rwa [liveIn, List.count_filter (by simp)] at hcount
  · rw [List.count_eq_zero_of_not_mem hp]
    exact Nat.zero_le 1

/-- A live block lies in the buffer of its superblock. -/
theorem Inv.live_mem (hd : d.Inv) {b : ℕ × ℕ} (hb : b ∈ d.live) :
    superblockOf b.1 + sizeofSuperblockHeader ≤ b.1 ∧
      b.1 + (d.core.header (superblockOf b.1)).blockSize ≤ superblockOf b.1 + superblockSize := by
  have hsb := (hd.live_known b hb).1
  obtain ⟨hlo, hhi, -⟩ := (hd.carved _ hsb).live_mem (hd.isSuperblock hsb) (Inv.mem_liveIn hb)
  exact ⟨hlo, hhi⟩

/-- **Live blocks do not overlap**, at the size they are carved for. -/
theorem Inv.blocks_disjoint (hd : d.Inv) {b b' : ℕ × ℕ} (hb : b ∈ d.live) (hb' : b' ∈ d.live)
    (hne : b.1 ≠ b'.1) : b.1 + (d.core.header (superblockOf b.1)).blockSize ≤ b'.1 ∨
      b'.1 + (d.core.header (superblockOf b'.1)).blockSize ≤ b.1 := by
  have hsb := (hd.live_known b hb).1
  have hsb' := (hd.live_known b' hb').1
  obtain ⟨hlo, hhi⟩ := hd.live_mem hb
  obtain ⟨hlo', hhi'⟩ := hd.live_mem hb'
  by_cases hx : superblockOf b.1 = superblockOf b'.1
  · obtain ⟨free, hs⟩ := (hd.carved _ hsb).sound
    have hmem : b'.1 ∈ liveIn d.live (superblockOf b.1) := hx ▸ Inv.mem_liveIn hb'
    rw [← hx]
    exact hs.disjoint (List.mem_append_left free (Inv.mem_liveIn hb))
      (List.mem_append_left free hmem) hne
  · have hdis := (hd.placed _ hsb).disjoint (hd.placed _ hsb') hx
    omega

/-- Live blocks do not overlap, at the size they were requested for. -/
theorem Inv.live_disjoint (hd : d.Inv) {b b' : ℕ × ℕ} (hb : b ∈ d.live) (hb' : b' ∈ d.live)
    (hne : b.1 ≠ b'.1) : b.1 + b.2 ≤ b'.1 ∨ b'.1 + b'.2 ≤ b.1 := by
  have hle := (hd.live_known b hb).2
  have hle' := (hd.live_known b' hb').2
  have hdis := hd.blocks_disjoint hb hb' hne
  omega

end Depot

namespace World

variable {w : World} {d : Depot}

/-- **Every live block is usable** at its requested size. -/
structure Usable (w : World) : Prop where
  /-- It lies in the buffer of a single mapped superblock. -/
  inside : ∀ b ∈ w.live, ∃ x ∈ w.state.superblocks, superblockSize ∣ x ∧
    (∀ a, x ≤ a → a < x + superblockSize → Covers w.state.mapped a) ∧
    x + sizeofSuperblockHeader ≤ b.1 ∧ b.1 + b.2 ≤ x + superblockSize
  /-- It overlaps no other. -/
  disjoint : w.live.Pairwise fun b b' => b.1 + b.2 ≤ b'.1 ∨ b'.1 + b'.2 ≤ b.1

theorem Models.usable (hM : w.Models d) (hd : d.Inv) : w.Usable where
  inside b hb := by
    rw [← hM.live] at hb
    obtain ⟨hsb, hle⟩ := hd.live_known b hb
    obtain ⟨hlo, hhi⟩ := hd.live_mem hb
    have hplaced := hd.placed _ hsb
    rw [hM.refines.core]
    exact ⟨superblockOf b.1, hsb, hplaced.dvd, hplaced.covers, hlo, by omega⟩
  disjoint := by
    rw [← hM.live]
    have hnd := List.pairwise_map.mp hd.live_nodup
    exact hnd.imp_of_mem fun hb hb' hne => hd.live_disjoint hb hb' hne

end World

/-! ### Runs -/

/-- Heap 0 allocates a block of each of five classes and frees the first one; its
superblock is the only one on the recycle list of the global heap then. -/
def fiveClasses : List Op :=
  [.alloc 0 16 (some 1048576), .alloc 0 32 (some 2097152), .alloc 0 48 (some 3145728),
    .alloc 0 64 (some 4194304), .alloc 0 96 (some 5242880), .free 1048704]

/-- **Live blocks are usable** after every run in which no superblock comes from
the recycle list of the global heap to another class than its own. -/
theorem live_blocks_usable {ops : List Op}
    (hops : Trace.Always World.step (fun w op => w.Legal op ∧ w.Matching op) World.initial ops) :
    ∃ w, Trace.run World.step World.initial ops = some w ∧ w.Usable := by
  obtain ⟨w, d, hrun, hM, hd, -⟩ := World.run_induction (P := fun _ => True) (fun _ _ h => h)
    trivial (fun _ _ _ _ _ _ _ _ _ _ => trivial) hops
  exact ⟨w, hrun, hM.usable hd⟩

/-- A superblock comes from the recycle list of the global heap to its own class. -/
theorem live_blocks_usable_same_class : ∃ w,
    Trace.run World.step World.initial (fiveClasses ++ [.alloc 1 16 none, .alloc 1 10 none]) =
      some w ∧ w.Usable :=
  live_blocks_usable (by decide +kernel)

/-- **Live blocks overlap** when a superblock of blocks of 16 bytes comes from the
recycle list of the global heap to the class of 129472 bytes: two requests of
100000 bytes are answered by two addresses that are 16 apart. -/
theorem live_blocks_overlap :
    Trace.Always World.step World.Legal World.initial
      (fiveClasses ++ [.alloc 1 100000 none, .alloc 1 100000 none]) ∧
    ∃ w, Trace.run World.step World.initial
      (fiveClasses ++ [.alloc 1 100000 none, .alloc 1 100000 none]) = some w ∧ ¬w.Usable := by
  refine ⟨by decide +kernel, ?_⟩
  have hlive : (Trace.run World.step World.initial
      (fiveClasses ++ [.alloc 1 100000 none, .alloc 1 100000 none])).map World.live =
      some [(1048736, 100000), (1048720, 100000), (5243008, 96), (4194432, 64), (3145856, 48),
        (2097280, 32)] := by decide +kernel
  obtain ⟨w, hrun, hw⟩ := Option.map_eq_some_iff.mp hlive
  refine ⟨w, hrun, fun h => ?_⟩
  have hdisjoint := h.disjoint
  rw [hw] at hdisjoint
  have := List.rel_of_pairwise_cons hdisjoint (List.mem_cons_self ..)
  omega

end MyMalloc
