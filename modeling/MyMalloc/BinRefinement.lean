import MyMalloc.Filing

/-!
# Bin managers refine lists

The contract of the second half of `binmanager.c` on its own: any number of bin
managers, whose lists are threaded through the same `prev` and `next` links, do
to their lists what the list operations do. The events are `MyMalloc.BinOp`; next
to the pointers a run carries the lists they are meant to lay out, and
`MyMalloc.BinOp.onLists` is all that happens to those. The simulation is one
step at a time (`MyMalloc.BinWorld.inv_step`), and
`MyMalloc.binManagers_refine_lists` is the statement about runs.

The headers are not the business of a bin manager. They are arbitrary to begin
with and may change between the calls; only `update_emptiness_class` asks that
the counters of the superblock it is given make sense.
-/

namespace MyMalloc

open LinkedList Placement

/-! ### Emptiness classes -/

/-- The counters of a header make sense: there are blocks, not more are free,
and four times their number still fits an `unsigned int`. -/
structure Counted (header : SuperblockHeader) : Prop where
  pos : 0 < header.totalBlocks
  lt : header.totalBlocks < 2 ^ 30
  le : header.numFreeBlocks ≤ header.totalBlocks

instance (header : SuperblockHeader) : Decidable (Counted header) :=
  decidable_of_iff (0 < header.totalBlocks ∧ header.totalBlocks < 2 ^ 30 ∧
    header.numFreeBlocks ≤ header.totalBlocks)
    ⟨fun h => ⟨h.1, h.2.1, h.2.2⟩, fun h => ⟨h.pos, h.lt, h.le⟩⟩

namespace Counted

variable {header : SuperblockHeader}

/-- **The emptiness class without machine arithmetic**: quarters of the blocks in
use, counted down from 4. -/
theorem eidxOf_eq (h : Counted header) : eidxOf header =
    4 - (header.totalBlocks - header.numFreeBlocks) * 4 / header.totalBlocks := by
  have hlt := h.lt
  have hle := h.le
  have hq : (header.totalBlocks - header.numFreeBlocks) * 4 / header.totalBlocks ≤ 4 := by
    refine Nat.div_le_of_le_mul ?_
    omega
  rw [eidxOf, sub32_eq hle (by omega)]
  simp only [numEmptinessClasses_eq, Nat.add_one_sub_one]
  rw [mul32_eq (by omega), sub32_eq hq (by omega)]

theorem eidxOf_lt (h : Counted header) : eidxOf header < numEmptinessClasses := by
  rw [h.eidxOf_eq, numEmptinessClasses_eq]
  exact Nat.lt_succ_of_le (Nat.sub_le _ _)

/-- **A superblock with a free block is in a class above 0.** -/
theorem eidxOf_pos (h : Counted header) (hfree : 0 < header.numFreeBlocks) :
    0 < eidxOf header := by
  have hpos := h.pos
  have hle := h.le
  have hq : (header.totalBlocks - header.numFreeBlocks) * 4 / header.totalBlocks < 4 := by
    rw [Nat.div_lt_iff_lt_mul hpos]
    omega
  rw [h.eidxOf_eq]
  exact Nat.sub_pos_of_lt hq

/-- **A full superblock is in class 0.** -/
theorem eidxOf_full (h : Counted header) (hfull : header.numFreeBlocks = 0) :
    eidxOf header = 0 := by
  rw [h.eidxOf_eq, hfull, Nat.sub_zero, Nat.mul_div_cancel_left _ h.pos]

/-- `get_eidx` neither divides by zero nor fails its assertion. -/
theorem getEidx_eq {s : State} {x : ℕ} (h : Counted (s.header x)) :
    s.getEidx x = some (eidxOf (s.header x), s) := by
  have hpos := h.pos
  have hlt : decide (eidxOf (s.header x) < numEmptinessClasses) = true := decide_eq_true h.eidxOf_lt
  rw [State.getEidx, if_neg (by omega)]
  simp only [hlt, State.assert_true]

end Counted

/-- `update_emptiness_class` once its class is computed and the superblock is out. -/
theorem State.updateEmptinessClass_eq {s s₁ s₂ : State} {bm : BinPtr} {e e' x : ℕ}
    (hget : s.getEidx x = some (e', s₁)) (hdel : s₁.deleteFromBin bm e x = some s₂) :
    s.updateEmptinessClass bm e x = s₂.pushIntoBin bm e' x := by
  simp only [State.updateEmptinessClass, hget, hdel, Option.bind_eq_bind, Option.bind_some]

/-- **`update_emptiness_class`** is a removal followed by a prepending. -/
theorem Represents.updateEmptinessClass {s : State} {lists : Lists} (hR : Represents s lists)
    (hD : Distinct lists) (hU : InUserSpace lists) {bm : BinPtr} {e x : ℕ}
    (he : e < numEmptinessClasses) (hx : x ∈ lists (.bin bm e)) (hc : Counted (s.header x)) :
    ∃ s', s.updateEmptinessClass bm e x = some s' ∧ s'.toCore = s.toCore ∧
      Represents s' (push (take lists (.bin bm e) x) (.bin bm (eidxOf (s.header x))) x) := by
  obtain ⟨s₁, hs₁, hcore₁, hR₁⟩ := hR.deleteFromBin hD hU he hx
  have hU₁ : InUserSpace (take lists (.bin bm e) x) :=
    fun p y hy => hU p y ((mem_take hD hx).mp hy).1
  obtain ⟨s₂, hs₂, hcore₂, hR₂⟩ := hR₁.pushIntoBin _ hD.take hU₁ hc.eidxOf_lt (nowhere_take hD hx)
  refine ⟨s₂, ?_, hcore₂.trans hcore₁, hR₂⟩
  exact (State.updateEmptinessClass_eq hc.getEidx_eq hs₁).trans hs₂

/-! ### Runs of the bin managers -/

/-- One event in the life of the bins. -/
inductive BinOp where
  /-- `push_into_bin`. -/
  | push (bm : BinPtr) (eidx superblock : ℕ) : BinOp
  /-- `delete_from_bin`. -/
  | delete (bm : BinPtr) (eidx superblock : ℕ) : BinOp
  /-- `update_emptiness_class`. -/
  | update (bm : BinPtr) (oldEidx superblock : ℕ) : BinOp
  /-- The header of a superblock changes, but for its links. -/
  | rewrite (superblock : ℕ) (header : SuperblockHeader) : BinOp

/-- **What an event does to the lists.** -/
def BinOp.onLists (header : ℕ → SuperblockHeader) (lists : Lists) : BinOp → Lists
  | .push bm eidx x => Placement.push lists (.bin bm eidx) x
  | .delete bm eidx x => take lists (.bin bm eidx) x
  | .update bm oldEidx x =>
    Placement.push (take lists (.bin bm oldEidx) x) (.bin bm (eidxOf (header x))) x
  | .rewrite .. => lists

/-- **What an event does to the pointers.** -/
def BinOp.onState (s : State) : BinOp → Option State
  | .push bm eidx x => s.pushIntoBin bm eidx x
  | .delete bm eidx x => s.deleteFromBin bm eidx x
  | .update bm oldEidx x => s.updateEmptinessClass bm oldEidx x
  | .rewrite x header => some (s.setCore (s.toCore.setHeader x header))

/-- The bins, with the lists they are meant to lay out. -/
structure BinWorld where
  state : State
  lists : Lists

namespace BinWorld

/-- What an event does. -/
def step (w : BinWorld) (op : BinOp) : Option BinWorld :=
  (op.onState w.state).map fun s => ⟨s, op.onLists w.state.header w.lists⟩

/-- What the callers respect: only a superblock in no list is pushed, and a
deletion or an update names the list the superblock is in. -/
def Legal (w : BinWorld) : BinOp → Prop
  | .push _ eidx x => eidx < numEmptinessClasses ∧ superblockSize ∣ x ∧ x < userSpace ∧
      Nowhere w.lists x
  | .delete bm eidx x => eidx < numEmptinessClasses ∧ x ∈ w.lists (.bin bm eidx)
  | .update bm oldEidx x => oldEidx < numEmptinessClasses ∧ x ∈ w.lists (.bin bm oldEidx) ∧
      Counted (w.state.header x)
  | .rewrite .. => True

/-- All bins empty, the data and the links of the superblocks arbitrary. -/
def initial (core : Core) (prev next : ℕ → Option ℕ) : BinWorld :=
  ⟨{ core with prev := prev, next := next }, fun _ => []⟩

/-- **The pointers lay out the lists.** -/
structure LaidOut (w : BinWorld) : Prop where
  /-- The lists are duplicate-free and pairwise disjoint. -/
  distinct : Distinct w.lists
  /-- Every list head starts a ring through exactly its list. -/
  ring : ∀ bm e, Ring w.state.next w.state.prev ((w.state.sizeBins bm).emptinessBins e)
    (w.lists (.bin bm e))
  /-- The links are inverse to each other, and stay inside the list. -/
  next_prev : ∀ bm e, ∀ x ∈ w.lists (.bin bm e), ∃ y ∈ w.lists (.bin bm e),
    w.state.next x = some y ∧ w.state.prev y = some x
  prev_next : ∀ bm e, ∀ x ∈ w.lists (.bin bm e), ∃ y ∈ w.lists (.bin bm e),
    w.state.prev x = some y ∧ w.state.next y = some x
  /-- The counters count the superblocks that are not full. -/
  count : ∀ bm, (w.state.sizeBins bm).numNonfullSuperblocks = nonfull w.lists bm
  /-- The counters are far from wrapping. -/
  count_le : ∀ bm, nonfull w.lists bm ≤ 2 ^ 29

/-- The invariant of a run. -/
structure Inv (w : BinWorld) : Prop where
  distinct : Distinct w.lists
  inUserSpace : InUserSpace w.lists
  represents : Represents w.state w.lists

theorem inv_initial (core : Core) (prev next : ℕ → Option ℕ) : (initial core prev next).Inv :=
  ⟨⟨fun _ => List.nodup_nil, fun _ _ _ h => absurd h List.not_mem_nil⟩,
    fun _ _ h => absurd h List.not_mem_nil, ⟨fun _ _ => rfl, fun _ => rfl, fun _ => rfl⟩⟩

/-- **The simulation**: an event on pointers that lay out lists succeeds, and
leaves pointers that lay out the lists the event leads to. -/
theorem inv_step (w : BinWorld) (op : BinOp) (hw : w.Inv) (hop : w.Legal op) :
    ∃ w', w.step op = some w' ∧ w'.Inv := by
  obtain ⟨hD, hU, hR⟩ := hw
  cases op with
  | push bm e x =>
    obtain ⟨he, hdvd, hlt, hx⟩ := hop
    obtain ⟨s', hs', -, hR'⟩ := hR.pushIntoBin _ hD hU he hx
    refine ⟨_, by rw [step, BinOp.onState, hs', Option.map_some], hD.push hx, ?_, hR'⟩
    rintro q y hy
    rcases mem_push.mp hy with ⟨-, rfl⟩ | hy
    · exact ⟨hdvd, hlt⟩
    · exact hU q y hy
  | delete bm e x =>
    obtain ⟨he, hx⟩ := hop
    obtain ⟨s', hs', -, hR'⟩ := hR.deleteFromBin hD hU he hx
    exact ⟨_, by rw [step, BinOp.onState, hs', Option.map_some], hD.take,
      fun q y hy => hU q y ((mem_take hD hx).mp hy).1, hR'⟩
  | update bm e x =>
    obtain ⟨he, hx, hc⟩ := hop
    obtain ⟨s', hs', -, hR'⟩ := hR.updateEmptinessClass hD hU he hx hc
    refine ⟨_, by rw [step, BinOp.onState, hs', Option.map_some],
      hD.take.push (nowhere_take hD hx), ?_, hR'⟩
    rintro q y hy
    rcases mem_push.mp hy with ⟨-, rfl⟩ | hy
    · exact hU _ y hx
    · exact hU q y ((mem_take hD hx).mp hy).1
  | rewrite x header =>
    exact ⟨_, rfl, hD, hU, hR.setCore _⟩

theorem Inv.laidOut {w : BinWorld} (hw : w.Inv) : w.LaidOut where
  distinct := hw.distinct
  ring := hw.represents.ring
  next_prev bm e _ hx := (hw.represents.ring bm e).inverse hx
  prev_next bm e _ hx := (hw.represents.ring bm e).inverse_prev hx
  count := hw.represents.count
  count_le := nonfull_le hw.distinct hw.inUserSpace

end BinWorld

/-- **The bin managers refine lists**: from empty bins, whatever the headers and
the links hold, every run of calls succeeds, and its pointers lay out the lists
that the list operations lead to. -/
theorem binManagers_refine_lists (core : Core) (prev next : ℕ → Option ℕ) (ops : List BinOp)
    (hops : Trace.Always BinWorld.step BinWorld.Legal (BinWorld.initial core prev next) ops) :
    ∃ w, Trace.run BinWorld.step (BinWorld.initial core prev next) ops = some w ∧ w.LaidOut := by
  obtain ⟨w, hrun, hinv⟩ := Trace.run_of_always BinWorld.inv_step
    (BinWorld.inv_initial core prev next) hops
  exact ⟨w, hrun, hinv.laidOut⟩

/-- Two superblocks are pushed into one bin, and the first is deleted again. -/
theorem binManagers_refine_lists_two_pushes : ∃ w,
    Trace.run BinWorld.step (BinWorld.initial {} (fun _ => none) fun _ => none)
      [.push (.global, 0) 4 262144, .push (.global, 0) 4 524288, .delete (.global, 0) 4 262144] =
        some w ∧ w.LaidOut := by
  refine binManagers_refine_lists {} _ _ _ ?_
  refine ⟨⟨by decide, by decide, by decide, fun _ => List.not_mem_nil⟩, fun t ht => ?_⟩
  obtain rfl := Option.some.inj ht
  refine ⟨⟨by decide, by decide, by decide, fun p hp => ?_⟩, fun t ht => ?_⟩
  · simpa [BinOp.onLists, BinWorld.initial] using mem_push.mp hp
  obtain rfl := Option.some.inj ht
  exact ⟨⟨by decide, by simp [BinOp.onLists, BinWorld.initial]⟩, fun _ _ => trivial⟩

end MyMalloc
