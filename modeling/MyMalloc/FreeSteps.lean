import MyMalloc.AllocSteps

/-!
# Deallocation on the depot

The pieces of `heap_free`, each as what it does to the depot: `bin_free` takes a
block back and files its superblock again, and `transfer_sb_to_global` moves a
superblock of a heap to the same place of the global heap. As with
`MyMalloc.State.binAllocFrom_bin` and its companions, other superblocks may be in
transit meanwhile.
-/

namespace MyMalloc

open LinkedList Placement Depot

/-! ### `bin_free` -/

/-- Where a superblock is filed after a block of it was freed. -/
def refile (bm : BinPtr) (header : SuperblockHeader) : Place :=
  if isSuperblockEmpty header then .recycle bm.1 else .bin bm (eidxOf header)

/-- A superblock that took a block back fits where it is filed again. -/
theorem Depot.Inv.refile_fits {d : Depot} (hd : d.Inv) {bm : BinPtr} {x e ptr : ℕ}
    (hx : x ∈ d.lists (.bin bm e)) (hptr : ptr ∈ liveIn d.live x) :
    Fits ((d.core.superblockFree x ptr).header x)
      (refile bm ((d.core.superblockFree x ptr).header x)) := by
  obtain ⟨howner, hb, hclass, -, -⟩ := hd.fits _ x hx
  obtain ⟨-, hsame, -⟩ := (hd.take hx).release (List.mem_cons_self ..) hptr
  rw [refile]
  split
  · rename_i hempty
    exact ⟨hsame.owner.trans howner, beq_iff_eq.mp hempty⟩
  · rename_i hempty
    exact ⟨hsame.owner.trans howner, hb, hsame.blockSize.trans hclass, rfl,
      fun hc => hempty (beq_iff_eq.mpr hc)⟩

namespace State

variable {s : State} {d : Depot}

/-- `bin_free` of the last live block of a superblock. -/
theorem binFree_eq_recycle {s s₁ : State} {bm : BinPtr} {x ptr e : ℕ} (hx : superblockOf ptr = x)
    (hget : s.getEidx x = some (e, s))
    (hempty : isSuperblockEmpty ((s.toCore.superblockFree x ptr).header x) = true)
    (hdel : (s.setCore (s.toCore.superblockFree x ptr)).deleteFromBin bm e x = some s₁) :
    s.binFree bm.1 bm ptr =
      some ((s₁.setNext x (s₁.recycledSuperblock bm.1)).setRecycled bm.1 (some x)) := by
  subst hx
  have hempty' : isSuperblockEmpty ((s.setCore (s.toCore.superblockFree (superblockOf ptr)
    ptr)).header (superblockOf ptr)) = true := hempty
  simp only [binFree, hget, Option.bind_eq_bind, Option.bind_some, hempty', if_true, hdel]
  rfl

/-- `bin_free` of another block. -/
theorem binFree_eq_update {s s₁ : State} {heap : HeapId} {bm : BinPtr} {x ptr e : ℕ}
    (hx : superblockOf ptr = x) (hget : s.getEidx x = some (e, s))
    (hempty : isSuperblockEmpty ((s.toCore.superblockFree x ptr).header x) = false)
    (hup : (s.setCore (s.toCore.superblockFree x ptr)).updateEmptinessClass bm e x = some s₁) :
    s.binFree heap bm ptr = some s₁ := by
  subst hx
  have hempty' : isSuperblockEmpty ((s.setCore (s.toCore.superblockFree (superblockOf ptr)
    ptr)).header (superblockOf ptr)) = false := hempty
  simp only [binFree, hget, Option.bind_eq_bind, Option.bind_some, hempty', Bool.false_eq_true,
    if_false, hup]

/-- **`bin_free`** takes a live block back, and files its superblock in its new
class, or on the recycle list if that was the last one. -/
theorem binFree_spec (hR : Refines s d) (hd : d.Inv) {bm : BinPtr} {x ptr e : ℕ}
    (hx : x ∈ d.lists (.bin bm e)) (hptr : ptr ∈ liveIn d.live x) :
    ∃ s', s.binFree bm.1 bm ptr = some s' ∧
      Refines s' (((d.take (.bin bm e) x).release x ptr).put
        (refile bm ((d.core.superblockFree x ptr).header x)) x) ∧
      (((d.take (.bin bm e) x).release x ptr).put
        (refile bm ((d.core.superblockFree x ptr).header x)) x).Inv := by
  have hcarved := hd.carved x (hd.lists_known _ x hx)
  have heidx := (hd.fits _ x hx).2.2.2.1
  have htransit : x ∈ (d.take (.bin bm e) x).transit := List.mem_cons_self ..
  obtain ⟨hinv, -, -⟩ := (hd.take hx).release htransit hptr
  have hcarved' : Carved ((d.core.superblockFree x ptr).header x) _ _ x :=
    hinv.carved x (hinv.transit_known x htransit)
  have hcounted := hcarved'.counted
  have he' : e < numEmptinessClasses := heidx ▸ hcarved.counted.eidxOf_lt
  have hget : s.getEidx x = some (e, s) := by
    rw [Counted.getEidx_eq (by rw [hR.core]; exact hcarved.counted), hR.core, heidx]
  have hcore : s.toCore.superblockFree x ptr = d.core.superblockFree x ptr := by rw [hR.core]
  have hrep := hR.represents.setCore (d.core.superblockFree x ptr)
  have hsb := (MyMalloc.mem_liveIn.mp hptr).2
  have hput := hinv.put htransit (hd.refile_fits hx hptr)
  cases hempty : isSuperblockEmpty ((d.core.superblockFree x ptr).header x) with
  | true =>
    obtain ⟨s₁, hdel, hcore₁, hrep₁⟩ := hrep.deleteFromBin hd.distinct hd.inUserSpace he' hx
    refine ⟨(s₁.setNext x (s₁.recycledSuperblock bm.1)).setRecycled bm.1 (some x),
      binFree_eq_recycle hsb hget (by rw [hcore]; exact hempty) (by rw [hcore]; exact hdel),
      ⟨hcore₁, ?_⟩, hput⟩
    have hplace : refile bm ((d.core.superblockFree x ptr).header x) = .recycle bm.1 :=
      if_pos hempty
    rw [hplace]
    exact hrep₁.pushRecycled (nowhere_take hd.distinct hx)
  | false =>
    obtain ⟨s₁, hup, hcore₁, hrep₁⟩ :=
      hrep.updateEmptinessClass hd.distinct hd.inUserSpace he' hx hcounted
    refine ⟨s₁, binFree_eq_update hsb hget (by rw [hcore]; exact hempty)
      (by rw [hcore]; exact hup), ⟨hcore₁, ?_⟩, hput⟩
    have hplace : refile bm ((d.core.superblockFree x ptr).header x) =
        .bin bm (eidxOf ((d.core.superblockFree x ptr).header x)) :=
      if_neg (by rw [hempty]; exact Bool.false_ne_true)
    rw [hplace]
    exact hrep₁

/-! ### `transfer_sb_to_global` -/

/-- The place a transferred superblock has in a heap: the class and the bin, or
the recycle list. -/
def placeIn (heap : HeapId) : Option (ℕ × ℕ) → Place
  | none => .recycle heap
  | some (eidx, binIdx) => .bin (heap, binIdx) eidx

/-- **`find_emptiest_sb`** finds a superblock that is not full, unless the heap has
none. -/
theorem findEmptiestSb_spec {lists : Lists} (hR : Represents s lists) (heap : HeapId) :
    (∃ e b x, 0 < e ∧ e < numEmptinessClasses ∧ x ∈ lists (.bin (heap, b) e) ∧
      s.findEmptiestSb heap = some (e, b, x)) ∨
    (∀ e b, 0 < e → e < numEmptinessClasses → b < numSizeBins → lists (.bin (heap, b) e) = []) ∧
      s.findEmptiestSb heap = none := by
  cases hfound : s.findEmptiestSb heap with
  | some found =>
    obtain ⟨e, he, hfound'⟩ := List.exists_of_findSome?_eq_some hfound
    obtain ⟨b, -, hhead⟩ := List.exists_of_findSome?_eq_some hfound'
    rw [hR.head_bin, Option.map_eq_some_iff] at hhead
    obtain ⟨x, hx, rfl⟩ := hhead
    refine Or.inl ⟨e, b, x, ?_, ?_, List.mem_of_head? hx, rfl⟩
    · simp only [List.mem_cons, List.not_mem_nil, or_false] at he
      omega
    · simp only [List.mem_cons, List.not_mem_nil, or_false] at he
      rw [numEmptinessClasses_eq]
      omega
  | none =>
    refine Or.inr ⟨fun e b he he' hb => ?_, rfl⟩
    rw [numEmptinessClasses_eq] at he'
    have hmem : e ∈ [4, 3, 2, 1] := by
      simp only [List.mem_cons, List.not_mem_nil, or_false]
      omega
    have := List.findSome?_eq_none_iff.mp (List.findSome?_eq_none_iff.mp hfound e hmem) b
      (List.mem_range.mpr hb)
    rwa [hR.head_bin, Option.map_eq_none_iff, List.head?_eq_none_iff] at this

/-- **The superblock that `find_emptiest_sb` finds is one of the emptiest.** -/
theorem findEmptiestSb_max {lists : Lists} (hR : Represents s lists) {heap : HeapId}
    {e b x e' b' z : ℕ} (hfound : s.findEmptiestSb heap = some (e, b, x))
    (he' : e' < numEmptinessClasses) (hb' : b' < numSizeBins)
    (hz : z ∈ lists (.bin (heap, b') e')) : e' ≤ e := by
  obtain ⟨a, -, ha, hfirst⟩ := LinearSearch.findSome?_first (r := (· > ·)) (by decide) hfound
  obtain ⟨c, -, hc⟩ := List.exists_of_findSome?_eq_some ha
  obtain ⟨y, -, hy⟩ := Option.map_eq_some_iff.mp hc
  obtain rfl := (Prod.mk.inj hy).1
  rcases Nat.eq_zero_or_pos e' with rfl | hpos
  · exact Nat.zero_le _
  rw [numEmptinessClasses_eq] at he'
  have hmem : e' ∈ [4, 3, 2, 1] := by
    simp only [List.mem_cons, List.not_mem_nil, or_false]
    omega
  have hhit : ((List.range numSizeBins).findSome? fun b =>
      ((s.sizeBins (heap, b)).emptinessBins e').map fun x => (e', b, x)) ≠ none := by
    intro hnone
    have hhead := List.findSome?_eq_none_iff.mp hnone b' (List.mem_range.mpr hb')
    rw [hR.head_bin, Option.map_eq_none_iff, List.head?_eq_none_iff] at hhead
    exact absurd hz (hhead ▸ List.not_mem_nil)
  rcases hfirst e' hmem hhit with h | h
  · exact h.le
  · exact le_of_lt h

/-- `transfer_sb_to_global` takes its superblock from the recycle list. -/
theorem transferTake_eq_recycle {s : State} {heap : HeapId} {x : ℕ} (hx : x ≠ 0)
    (hhead : s.recycledSuperblock heap = some x) :
    s.transferTake heap = some (x, none, s.setRecycled heap (s.next x)) := by
  simp only [transferTake, hhead, Option.bind_eq_bind, Option.bind_some, ne_eq, hx,
    not_false_eq_true, decide_true, assert_true]
  rfl

/-- `transfer_sb_to_global` takes its superblock from a bin. -/
theorem transferTake_eq_bin {s s₁ : State} {heap : HeapId} {x e b : ℕ} (hx : x ≠ 0)
    (hhead : s.recycledSuperblock heap = none) (hfound : s.findEmptiestSb heap = some (e, b, x))
    (hdel : s.deleteFromBin (heap, b) e x = some s₁) :
    s.transferTake heap = some (x, some (e, b), s₁) := by
  simp only [transferTake, hhead, hfound, hdel, Option.bind_eq_bind, Option.bind_some,
    Option.isSome_some, ne_eq, hx, not_false_eq_true, decide_true, assert_true]
  rfl

/-- The place of an emptiest superblock of a heap: its recycle list, or if that is empty
the greatest class that is not. -/
structure Emptiest (d : Depot) (heap : HeapId) (place : Option (ℕ × ℕ)) : Prop where
  recycle : place = none ↔ d.lists (.recycle heap) ≠ []
  max : ∀ e b, place = some (e, b) →
    0 < e ∧ ∀ e' b' z, z ∈ d.lists (.bin (heap, b') e') → e' ≤ e

/-- **`transfer_sb_to_global`, its first half**, takes a superblock out of the
heap: an empty one if it has any, else one of the emptiest. -/
theorem transferTake_spec (hR : Refines s d) (hd : d.Inv) (heap : HeapId)
    (hcandidate : ∃ x, x ∈ d.lists (.recycle heap) ∨
      ∃ e b, 0 < e ∧ x ∈ d.lists (.bin (heap, b) e)) :
    ∃ x place s', x ∈ d.lists (placeIn heap place) ∧ Emptiest d heap place ∧
      s.transferTake heap = some (x, place, s') ∧ Refines s' (d.take (placeIn heap place) x) := by
  have hne : ∀ p, ∀ x ∈ d.lists p, x ≠ 0 :=
    fun p x hx => Nat.pos_iff_ne_zero.mp (hd.placed x (hd.lists_known p x hx)).pos
  have hhead := hR.represents.head_recycle heap
  cases hl : d.lists (.recycle heap) with
  | cons x l =>
    rw [hl, List.head?_cons] at hhead
    have hx : x ∈ d.lists (placeIn heap none) := by simp [placeIn, hl]
    refine ⟨x, none, s.setRecycled heap (s.next x), hx, ⟨by simp [hl], fun _ _ => nofun⟩,
      transferTake_eq_recycle (hne _ x hx) hhead, hR.core, ?_⟩
    have hpop := hR.represents.popRecycled hd.distinct hl
    simpa [placeIn, Depot.take, Placement.take, hl] using hpop
  | nil =>
    rw [hl, List.head?_nil] at hhead
    rcases findEmptiestSb_spec hR.represents heap with ⟨e, b, x, he, he', hx, hfound⟩ | ⟨hnone, -⟩
    · obtain ⟨s', hdel, hcore, hrep⟩ :=
        hR.represents.deleteFromBin hd.distinct hd.inUserSpace he' hx
      refine ⟨x, some (e, b), s', hx, ⟨by simp [hl], ?_⟩,
        transferTake_eq_bin (hne _ x hx) hhead hfound hdel, hcore.trans hR.core, hrep⟩
      rintro _ _ ⟨rfl, rfl⟩
      refine ⟨he, fun e' b' z hz => ?_⟩
      obtain ⟨-, hb', -, heidx, -⟩ := hd.fits _ z hz
      have hlt := heidx ▸ (hd.carved z (hd.lists_known _ z hz)).counted.eidxOf_lt
      exact findEmptiestSb_max hR.represents hfound hlt hb' hz
    · obtain ⟨x, hx | ⟨e, b, he, hx⟩⟩ := hcandidate
      · simp [hl] at hx
      · obtain ⟨-, hb, -, heidx, -⟩ := hd.fits _ x hx
        have he' := heidx ▸ (hd.carved x (hd.lists_known _ x hx)).counted.eidxOf_lt
        rw [hnone e b he he' hb] at hx
        exact absurd hx List.not_mem_nil

/-- A superblock that was filed in a heap fits the same place of the global heap
once that owns it. -/
theorem fits_global {header : SuperblockHeader} {heap : HeapId} {place : Option (ℕ × ℕ)}
    (h : Fits header (placeIn heap place)) :
    Fits { header with owner := some .global } (placeIn .global place) := by
  cases place with
  | none => exact ⟨rfl, h.2⟩
  | some eb => exact ⟨rfl, h.2⟩

/-- **`transfer_sb_to_global`, its second half**, files the superblock in the global
heap. -/
theorem transferPut_spec (hR : Refines s d) (hd : d.Inv) {heap : HeapId} {x : ℕ}
    {place : Option (ℕ × ℕ)} (hx : x ∈ d.transit)
    (hfits : Fits (d.core.header x) (placeIn heap place)) :
    ∃ s', s.transferPut x place = some s' ∧
      Refines s' ((d.own x .global).put (placeIn .global place) x) ∧
      ((d.own x .global).put (placeIn .global place) x).Inv := by
  have hown := hd.own hx .global
  have hself : (d.own x .global).core.header x = { d.core.header x with owner := some .global } :=
    Function.update_self ..
  have hput := hown.put (p := placeIn .global place) hx (by rw [hself]; exact fits_global hfits)
  have hrep := hR.represents.setCore (d.core.setOwner x .global)
  cases place with
  | none =>
    refine ⟨_, by rw [transferPut, hR.core], ⟨rfl, ?_⟩, hput⟩
    exact hrep.pushRecycled (hd.transit_nowhere x hx)
  | some eb =>
    obtain ⟨e, b⟩ := eb
    have heidx := hfits.2.2.2.1
    have he' := heidx ▸ (hd.carved x (hd.transit_known x hx)).counted.eidxOf_lt
    obtain ⟨s', hpush, hcore, hrep'⟩ := hrep.pushIntoBin (.global, b) hd.distinct
      hd.inUserSpace he' (hd.transit_nowhere x hx)
    exact ⟨s', by rw [transferPut, hR.core]; exact hpush, ⟨hcore, hrep'⟩, hput⟩

end State

end MyMalloc
