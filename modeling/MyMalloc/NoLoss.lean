import MyMalloc.Locating

/-!
# No superblock is lost

Every superblock ever mapped is on exactly one list, once
(`MyMalloc.World.AllFiled`). A superblock on no list is leaked: nothing in the
allocator knows about it any more, and nothing unmaps it.

The allocator leaks. `bin_alloc` resets the superblock at the head of a recycle
list *before* it follows its link to the rest of the list, and the rest is lost
(`MyMalloc.superblock_lost`). No superblock is lost in a run in which `bin_alloc`
recycles only from lists of one superblock, and fetches from the recycle list of
the global heap only superblocks of the right class
(`MyMalloc.superblocks_filed`).
-/

namespace MyMalloc

open LinkedList Placement Depot

namespace Depot

variable {d d' d₁ : Depot} {x : ℕ} {p : Place}

/-- **Every superblock is on a list or in transit.** -/
def Kept (d : Depot) : Prop :=
  ∀ x ∈ d.core.superblocks, x ∈ d.transit ∨ ∃ p, x ∈ d.lists p

theorem Kept.take (h : d.Kept) (hd : d.Inv) (hx : x ∈ d.lists p) : (d.take p x).Kept := by
  intro y hy
  by_cases hyx : y = x
  · exact Or.inl (hyx ▸ List.mem_cons_self ..)
  · refine (h y hy).imp (List.mem_cons_of_mem _) fun ⟨q, hq⟩ => ⟨q, ?_⟩
    exact (mem_take hd.distinct hx).mpr ⟨hq, hyx⟩

theorem Kept.put (h : d.Kept) : (d.put p x).Kept := by
  intro y hy
  by_cases hyx : y = x
  · exact Or.inr ⟨p, mem_push.mpr (Or.inl ⟨rfl, hyx⟩)⟩
  · exact (h y hy).imp (fun hy => (List.mem_erase_of_ne hyx).mpr hy)
      fun ⟨q, hq⟩ => ⟨q, mem_push.mpr (Or.inr hq)⟩

/-- Changing the data loses no superblock. -/
theorem Kept.congr (h : d.Kept) (hsb : d'.core.superblocks = d.core.superblocks)
    (htransit : d'.transit = d.transit) (hlists : d'.lists = d.lists) : d'.Kept := by
  intro x hx
  rw [htransit, hlists]
  exact h x (hsb ▸ hx)

theorem Kept.setCore (h : d.Kept) {c : Core} (hsb : c.superblocks = d.core.superblocks) :
    (d.setCore c).Kept := h.congr hsb rfl rfl

/-- Recycling from a list of one superblock loses nothing. -/
theorem Kept.recycle (h : d.Kept) (hd : d.Inv) {heap : HeapId} {sizeClass : ℕ}
    (hx : d.lists (.recycle heap) = [x]) : (d.recycle heap x sizeClass).Kept := by
  have hmem : x ∈ d.lists (.recycle heap) := by rw [hx]; exact List.mem_cons_self ..
  refine (h.take hd hmem).congr rfl rfl ?_
  have htake : Placement.take d.lists (.recycle heap) x =
      Function.update d.lists (.recycle heap) [] := by
    rw [Placement.take, hx, List.erase_cons_head]
  show Function.update (Placement.take d.lists (.recycle heap) x) (.recycle heap) [] =
    Placement.take d.lists (.recycle heap) x
  rw [htake, Function.update_idem]

/-- **Acquiring a superblock loses none**, if a recycle list it comes from has no
other. -/
theorem Kept.acquires {heap : HeapId} {binIdx : ℕ} {src : Source} (h : d.Kept) (hd : d.Inv)
    (hsrc : d.Offers heap binIdx src) (hone : ∀ x, src = .recycled x →
      d.lists (.recycle heap) = [x])
    (hacquires : d.Acquires heap binIdx src x d₁) : d₁.Kept := by
  cases hacquires with
  | bin e => exact h.take hd hsrc.2
  | recycled => exact h.recycle hd (hone x rfl)
  | globalBin e => exact (h.take hd hsrc.2).congr rfl rfl rfl
  | globalRecycled =>
    refine (h.take hd hsrc.1).congr ?_ rfl rfl
    exact d.popGlobal_superblocks x
  | new ptr x c hptr hc =>
    intro y hy
    rw [create_superblocks hc] at hy
    rcases List.mem_cons.mp hy with rfl | hy
    · exact Or.inl (List.mem_cons_self ..)
    · exact (h y hy).imp_left (List.mem_cons_of_mem _)

theorem Kept.takeBack (h : d.Kept) (hd : d.Inv) {bm : BinPtr} {e ptr : ℕ}
    (hx : x ∈ d.lists (.bin bm e)) : (d.takeBack bm e x ptr).Kept := by
  have hreleased : ((d.take (.bin bm e) x).release x ptr).Kept :=
    (h.take hd hx).congr rfl rfl rfl
  exact hreleased.put

theorem Kept.transfer (h : d.Kept) (hd : d.Inv) {heap : HeapId} {place : Option (ℕ × ℕ)} {y : ℕ}
    (hy : y ∈ d.lists (State.placeIn heap place)) : (d.transfer heap place y).Kept := by
  have howned : ((d.take (State.placeIn heap place) y).own y .global).Kept :=
    (h.take hd hy).congr rfl rfl rfl
  exact howned.put

/-- **A step loses no superblock**, if a recycle list it recycles from has no other. -/
theorem Kept.step {src : Source} {op : Op} (h : d.Kept) (hd : d.Inv)
    (hone : ∀ i size mmap x, op = .alloc i size mmap → src = .recycled x →
      d.lists (.recycle (.thread i)) = [x])
    (hstep : d.Step src op d') : d'.Kept := by
  cases hstep with
  | @served src i size mmap d₁ x p header hsize hsrc hacquires hserves =>
    have hkept := h.acquires hd hsrc (fun x hx => hone _ _ _ x rfl hx) hacquires
    have hserved : (d₁.serve x p header size).Kept := hkept.congr rfl rfl rfl
    exact hserved.put.setCore rfl
  | failed => exact h.setCore rfl
  | freedGlobal hx hptr => exact h.takeBack hd hx
  | freed hx hptr => exact (h.takeBack hd hx).setCore rfl
  | @moved src ptr i binIdx e x y place hx hptr hempty hy =>
    have htake : (d.takeBackCounted (.thread i) binIdx e x ptr).Kept :=
      (h.takeBack hd hx).setCore rfl
    exact (htake.transfer (hd.takeBackCounted hx hptr) hy).setCore rfl
  | wrote => exact h.congr rfl rfl rfl

end Depot

namespace World

variable {w : World} {d : Depot}

/-- **Every superblock is on exactly one list**, once, for the lists that the
pointers lay out. -/
structure AllFiled (w : World) (lists : Lists) : Prop where
  represents : Represents w.state lists
  /-- No superblock is on two lists, nor twice on one. -/
  distinct : Distinct lists
  /-- Every superblock is on a list. -/
  filed : ∀ x ∈ w.state.superblocks, ∃ p, x ∈ lists p
  /-- The lists are those of the bins and classes there are. -/
  real : ∀ bm e, ∀ x ∈ lists (.bin bm e), bm.2 < numSizeBins ∧ e < numEmptinessClasses

/-- `bin_alloc` recycles only from a list of one superblock. -/
def RecyclesLast (w : World) : Op → Prop
  | .alloc i size _ => ∀ x, w.state.source (.thread i) (binOf size) = .recycled x →
      w.state.next x = none
  | _ => True

instance (w : World) : DecidablePred w.RecyclesLast
  | .alloc i size _ =>
    match h : w.state.source (.thread i) (binOf size) with
    | .recycled x => decidable_of_iff (w.state.next x = none) (by simp [RecyclesLast, h])
    | .bin .. | .globalBin .. | .globalRecycled _ | .new => isTrue (by simp [RecyclesLast, h])
  | .free _ | .write .. => isTrue trivial

/-- The recycle list an allocation uses has one superblock. -/
theorem Models.recyclesLast (hM : w.Models d) {i size x : ℕ} {mmap : Option ℕ}
    (hlast : w.RecyclesLast (.alloc i size mmap))
    (hsrc : w.source (.alloc i size mmap) = .recycled x) :
    d.lists (.recycle (.thread i)) = [x] := by
  have hsrc : w.state.source (.thread i) (binOf size) = .recycled x := hsrc
  have hnext := hlast x hsrc
  have hhead := hM.refines.represents.head_recycle (.thread i)
  rw [State.source_recycled hsrc] at hhead
  obtain ⟨l, hl⟩ := List.head?_eq_some_iff.mp hhead.symm
  rw [hM.refines.represents.next_recycled hl, List.head?_eq_none_iff] at hnext
  rw [hl, hnext]

theorem Models.allFiled (hM : w.Models d) (hd : d.Inv) (hkept : d.Kept) :
    w.AllFiled d.lists where
  represents := hM.refines.represents
  distinct := hd.distinct
  filed x hx := by
    rw [hM.refines.core] at hx
    refine (hkept x hx).resolve_left ?_
    rw [hM.transit]
    exact List.not_mem_nil
  real bm e x hx := by
    obtain ⟨-, hb, -, heidx, -⟩ := hd.fits _ x hx
    exact ⟨hb, heidx ▸ (hd.carved x (hd.lists_known _ x hx)).counted.eidxOf_lt⟩

end World

/-- **No superblock is lost** in a run in which `bin_alloc` recycles only from
lists of one superblock, and fetches from the recycle list of the global heap only
superblocks of the right class. -/
theorem superblocks_filed {ops : List Op}
    (hops : Trace.Always World.step
      (fun w op => w.Legal op ∧ w.Matching op ∧ w.RecyclesLast op) World.initial ops) :
    ∃ w, Trace.run World.step World.initial ops = some w ∧ ∃ lists, w.AllFiled lists := by
  obtain ⟨w, d, hrun, hM, hd, hkept⟩ := World.run_induction (P := Depot.Kept)
    (C := fun w op => w.Matching op ∧ w.RecyclesLast op) (fun _ _ h => h.1)
    (fun _ h => absurd h List.not_mem_nil)
    (fun w d d' op hM hd hkept _ hc hstep => hkept.step hd
      (fun i size mmap x hop hsrc => hM.recyclesLast (hop ▸ hc.2) (hop ▸ hsrc)) hstep) hops
  exact ⟨w, hrun, d.lists, hM.allFiled hd hkept⟩

/-- A superblock is recycled from a list of one. -/
theorem superblocks_filed_recycled : ∃ w,
    Trace.run World.step World.initial
      [.alloc 0 16 (some 1048576), .free 1048704, .alloc 0 48 none] = some w ∧
      ∃ lists, w.AllFiled lists :=
  superblocks_filed (by decide +kernel)

/-- **A superblock is lost** when the recycle list of a heap holds two: after the
second of them is recycled, the first is on no list. -/
theorem superblock_lost :
    Trace.Always World.step World.Legal World.initial
      [.alloc 0 16 (some 1048576), .alloc 0 32 (some 2097152), .free 1048704, .free 2097280,
        .alloc 0 48 none] ∧
    ∃ w, Trace.run World.step World.initial
      [.alloc 0 16 (some 1048576), .alloc 0 32 (some 2097152), .free 1048704, .free 2097280,
        .alloc 0 48 none] = some w ∧ ¬∃ lists, w.AllFiled lists := by
  refine ⟨by decide +kernel, ?_⟩
  have hlegal : Trace.Always World.step (fun w op => w.Legal op ∧ w.Matching op) World.initial
      [.alloc 0 16 (some 1048576), .alloc 0 32 (some 2097152), .free 1048704, .free 2097280,
        .alloc 0 48 none] := by decide +kernel
  obtain ⟨w, d, hrun, hM, hd, -⟩ := World.run_induction (P := fun _ => True)
    (C := fun w op => w.Matching op) (fun _ _ h => h) trivial
    (fun _ _ _ _ _ _ _ _ _ _ => trivial) hlegal
  have hfacts : (Trace.run World.step World.initial
      [.alloc 0 16 (some 1048576), .alloc 0 32 (some 2097152), .free 1048704, .free 2097280,
        .alloc 0 48 none]).map (fun w => (w.state.superblocks, w.state.next 1048576,
          (w.state.header 1048576).owner, w.state.recycledSuperblock (.thread 0))) =
      some ([2097152, 1048576], none, some (.thread 0), none) := by decide +kernel
  rw [hrun, Option.map_some, Option.some_inj] at hfacts
  simp only [Prod.mk.injEq] at hfacts
  obtain ⟨hsb, hnext, howner, hhead⟩ := hfacts
  refine ⟨w, hrun, fun ⟨lists, h⟩ => ?_⟩
  obtain ⟨p, hp⟩ := h.filed 1048576 (by rw [hsb]; simp)
  rw [h.represents.unique hM.refines.represents h.distinct hd.distinct] at hp
  cases p with
  | bin bm e =>
    -- On a ring it would have a successor.
    obtain ⟨y, -, hy, -⟩ := (hM.refines.represents.ring bm e).inverse hp
    rw [hnext] at hy
    cases hy
  | recycle heap =>
    -- On a recycle list it would be on that of its owner, which is empty.
    have hfits := (hd.fits _ _ hp).1
    rw [← hM.refines.core, howner] at hfits
    obtain rfl := Option.some.inj hfits
    have hempty := hM.refines.represents.head_recycle (.thread 0)
    rw [hhead, eq_comm, List.head?_eq_none_iff] at hempty
    rw [hempty] at hp
    cases hp

end MyMalloc
