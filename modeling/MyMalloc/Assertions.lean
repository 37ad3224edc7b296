import MyMalloc.NoLoss

/-!
# The assertions hold

The `ASSERT`s of `heap.c`, `binmanager.c` and `superblock.c` print a message and
let the program go on. The state records the ones that have failed, and a search
that finds nothing is a fault; so after a run that ends, with an empty record,
every assertion on the way was true.

One assertion is wrong. `get_sb_from_global` asks for a second superblock behind
the one it takes from the recycle list of the global heap, although it handles
the last one correctly (`MyMalloc.assertion_fails`). The others hold in every run
in which that one is asked of a list of two superblocks at least, and in which
what it takes is of the right class (`MyMalloc.assertions_hold`).
-/

namespace MyMalloc

open LinkedList Placement Depot

namespace Depot

variable {d d' d₁ : Depot} {x : ℕ}

/-- Acquiring a superblock fails no assertion, if the one it takes from the
recycle list of the global heap is not the last. -/
theorem Acquires.failed {heap : HeapId} {binIdx : ℕ} {src : Source}
    (htwo : ∀ x, src = .globalRecycled x → 1 < (d.lists (.recycle .global)).length)
    (h : d.Acquires heap binIdx src x d₁) : d₁.core.failed = d.core.failed := by
  cases h with
  | bin => rfl
  | recycled => rfl
  | globalBin => rfl
  | globalRecycled =>
    have hcond : decide (1 < (d.lists (.recycle .global)).length) = true :=
      decide_eq_true (htwo x rfl)
    simp only [adopt, popGlobal, setCore, hcond, Core.assert, if_true]
    rfl
  | new ptr x c hptr hc => exact (Core.allocateNewSuperblock_frame hc).2.2.2

/-- **A step fails no assertion**, if the superblock it takes from the recycle list
of the global heap is not the last. -/
theorem Step.failed_eq {src : Source} {op : Op} (h : d.Step src op d')
    (htwo : ∀ x, src = .globalRecycled x → 1 < (d.lists (.recycle .global)).length) :
    d'.core.failed = d.core.failed := by
  cases h with
  | @served src i size mmap d₁ x p header hsize hsrc hacquires =>
    have hsame : (d₁.handOut (.thread i) (binOf size) x p header size).core.failed =
        d₁.core.failed := rfl
    exact hsame.trans (hacquires.failed htwo)
  | failed => rfl
  | freedGlobal => rfl
  | freed => rfl
  | moved => rfl
  | wrote => rfl

end Depot

namespace World

variable {w : World} {d : Depot}

/-- The superblock taken from the recycle list of the global heap is not the last. -/
def FetchesNotLast (w : World) : Op → Prop
  | .alloc i size _ => ∀ x, w.state.source (.thread i) (binOf size) = .globalRecycled x →
      w.state.next x ≠ none
  | _ => True

instance (w : World) : DecidablePred w.FetchesNotLast
  | .alloc i size _ =>
    match h : w.state.source (.thread i) (binOf size) with
    | .globalRecycled x => decidable_of_iff (w.state.next x ≠ none) (by simp [FetchesNotLast, h])
    | .bin .. | .recycled _ | .globalBin .. | .new => isTrue (by simp [FetchesNotLast, h])
  | .free _ | .write .. => isTrue trivial

/-- The recycle list of the global heap an allocation uses has two superblocks. -/
theorem Models.fetchesNotLast (hM : w.Models d) {op : Op} (hop : w.FetchesNotLast op) {x : ℕ}
    (hsrc : w.source op = .globalRecycled x) : 1 < (d.lists (.recycle .global)).length := by
  cases op with
  | alloc i size mmap =>
    have hsrc : w.state.source (.thread i) (binOf size) = .globalRecycled x := hsrc
    have hnext := hop x hsrc
    have hhead := hM.refines.represents.head_recycle .global
    rw [State.source_globalRecycled hsrc] at hhead
    obtain ⟨l, hl⟩ := List.head?_eq_some_iff.mp hhead.symm
    rw [hM.refines.represents.next_recycled hl] at hnext
    have hpos := List.length_pos_of_ne_nil fun hnil => hnext (List.head?_eq_none_iff.mpr hnil)
    rw [hl, List.length_cons]
    omega
  | free ptr => cases hsrc
  | write ptr off bytes => cases hsrc

end World

/-- **Every assertion holds**, those of `init_size_table` included, in a run in which
every superblock taken from the recycle list of the global heap is of the right
class and not the last. -/
theorem assertions_hold {ops : List Op}
    (hops : Trace.Always World.step
      (fun w op => w.Legal op ∧ w.Matching op ∧ w.FetchesNotLast op) World.initial ops) :
    ∃ w, Trace.run World.step World.initial ops = some w ∧
      initSizeTable.failed ++ w.state.failed = [] := by
  obtain ⟨w, d, hrun, hM, hd, hfailed⟩ := World.run_induction (P := fun d => d.core.failed = [])
    (C := fun w op => w.Matching op ∧ w.FetchesNotLast op) (fun _ _ h => h.1) rfl
    (fun w d d' op hM hd hfailed _ hc hstep =>
      (hstep.failed_eq fun x hsrc => hM.fetchesNotLast hc.2 hsrc).trans hfailed) hops
  exact ⟨w, hrun, by rw [hM.refines.core, hfailed, initSizeTable_failed, List.append_nil]⟩

/-- Two superblocks go to the recycle list of the global heap, and one comes back. -/
theorem assertions_hold_two_recycled : ∃ w,
    Trace.run World.step World.initial
      [.alloc 0 16 (some 1048576), .alloc 0 32 (some 2097152), .alloc 0 48 (some 3145728),
        .alloc 0 64 (some 4194304), .alloc 0 96 (some 5242880), .alloc 0 144 (some 6291456),
        .free 1048704, .free 2097280, .alloc 1 32 none] = some w ∧
      initSizeTable.failed ++ w.state.failed = [] :=
  assertions_hold (by decide +kernel)

/-- **An assertion fails** when the recycle list of the global heap holds a single
superblock, of the very class that is asked for. -/
theorem assertion_fails :
    Trace.Always World.step World.Legal World.initial (fiveClasses ++ [.alloc 1 16 none]) ∧
    ∃ w, Trace.run World.step World.initial (fiveClasses ++ [.alloc 1 16 none]) = some w ∧
      .globalRecycleNext ∈ w.state.failed := by
  refine ⟨by decide +kernel, ?_⟩
  have hfailed : (Trace.run World.step World.initial
      (fiveClasses ++ [.alloc 1 16 none])).map (fun w => w.state.failed) =
      some [.globalRecycleNext] := by decide +kernel
  obtain ⟨w, hrun, hw⟩ := Option.map_eq_some_iff.mp hfailed
  exact ⟨w, hrun, by rw [hw]; exact List.mem_cons_self ..⟩

end MyMalloc
