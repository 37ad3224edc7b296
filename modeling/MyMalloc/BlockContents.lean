import MyMalloc.LargeSizes
import MyMalloc.Reallocation
import MyMalloc.Lib.BlockStore

/-!
# What the blocks of a process hold

The public functions seen by their clients: a store of blocks. `MyMalloc.Process.blocks`
reads it off the memory, `MyMalloc.Process.action` says what a call does to it, and every
run is a run of the store (`MyMalloc.runs_refine_store`). So a new block never meets one
that is live, a block of `calloc` is filled with zeros, one that `realloc` moves begins
with the bytes of the old one, and what a live block holds is what its client has put
there (`MyMalloc.Process.contents_kept`), although the allocator keeps its links, headers
and marks in the same memory.
-/

namespace MyMalloc

open Trace BlockStore AddressSpace ByteMemory Depot

namespace Process

variable (w : Process)

/-- **What the live blocks hold.** -/
def blocks : Store UInt8 := view w.state.mem (w.small ++ w.large)

/-- The pointer that a call returns. -/
def returned : Request → Option ℕ
  | .malloc i size mmap => (w.state.malloc (.thread i) size mmap).bind Prod.fst
  | .calloc i nmemb size mmap => (w.state.calloc (.thread i) nmemb size mmap).bind Prod.fst
  | .realloc i ptr size mmap => (w.state.realloc (.thread i) ptr size mmap).bind Prod.fst
  | .free _ => none
  | .write .. => none

/-- **What an event does to the blocks**, if anything. A `realloc` that returns `NULL`
has freed the block, unless both sizes are large. -/
def action : Request → Option (Action UInt8)
  | .malloc i size mmap => (w.returned (.malloc i size mmap)).map (.alloc · size)
  | .calloc i nmemb size mmap =>
    (w.returned (.calloc i nmemb size mmap)).map (.fill · (nmemb * size) 0)
  | .realloc _ none _ _ => none
  | .realloc i (some p) size mmap =>
    match w.returned (.realloc i (some p) size mmap) with
    | some q => some (.move p q size)
    | none => if w.IsLarge p ∧ maxBlockSize < size then none else some (.free p)
  | .free ptr => ptr.map .free
  | .write ptr off bytes => some (.write ptr off bytes)

variable {w} {w' : Process} {b b' : ℕ × ℕ} {heap : HeapId} {size q : ℕ} {mmap r : Option ℕ}
  {s₁ s' : State} {d d' : Depot}

/-! ### The live blocks are a store -/

namespace WellFormed

variable (hw : w.WellFormed)

include hw

/-- A block lies in its region. -/
theorem range_le (hb : b ∈ w.small ++ w.large) :
    (w.regionOf b).1 ≤ b.1 ∧ b.1 + b.2 ≤ (w.regionOf b).1 + (w.regionOf b).2 := by
  rcases List.mem_append.mp hb with hb | hb
  · obtain ⟨-, -, -, hle, -⟩ := hw.small_mem hb
    rw [hw.regionOf_small hb]
    exact ⟨le_rfl, Nat.add_le_add_left hle _⟩
  · have hbase := (hw.large b hb).base_add
    rw [regionOf_large hb]
    exact ⟨by omega, (hw.large b hb).add_le⟩

/-- The address of a block lies in its region. -/
theorem mem_self (hb : b ∈ w.small ++ w.large) : AddressSpace.Mem b.1 (w.regionOf b) := by
  rcases List.mem_append.mp hb with hb | hb
  · obtain ⟨-, -, -, -, hpos⟩ := hw.small_mem hb
    rw [hw.regionOf_small hb]
    exact ⟨le_rfl, by simp only; omega⟩
  · have hsize := hw.size b hb
    have hbase := (hw.large b hb).base_add
    have hadd := (hw.large b hb).add_le
    rw [regionOf_large hb]
    exact ⟨by omega, by omega⟩

/-- **The live blocks lie apart.** -/
theorem apart_blocks (hb : b ∈ w.small ++ w.large) (hb' : b' ∈ w.small ++ w.large)
    (hne : b.1 ≠ b'.1) : Apart b b' := by
  have hregions := hw.apart_regions hb hb' hne
  have hle := hw.range_le hb
  have hle' := hw.range_le hb'
  simp only [Apart] at hregions ⊢
  omega

/-- The addresses of the live blocks are multiples of 16. -/
theorem aligned (hb : b ∈ w.small ++ w.large) : 0 < b.1 ∧ 16 ∣ b.1 := by
  rcases List.mem_append.mp hb with hb | hb
  · obtain ⟨d, hM, hd⟩ := World.wellFormed_iff.mp hw.small
    have hb : b ∈ d.live := hM.live ▸ hb
    have hsb := (hd.live_known b hb).1
    obtain ⟨hlo, -, hdvd, -⟩ :=
      (hd.carved _ hsb).live_mem (hd.isSuperblock hsb) (Inv.mem_liveIn hb)
    rw [sizeofSuperblockHeader_eq] at hlo
    exact ⟨by omega, hdvd⟩
  · have hbase := (hw.large b hb).base_add
    have hdvd : 16 ∣ (spanOf b).1 := dvd_trans (by decide) (hw.large b hb).dvd
    exact ⟨by omega, by omega⟩

/-- No two live blocks have one address. -/
theorem addresses_nodup : ((w.small ++ w.large).map Prod.fst).Nodup := by
  obtain ⟨d, hM, hd⟩ := World.wellFormed_iff.mp hw.small
  have hlive : d.live = w.small := hM.live
  have hsmall : (w.small.map Prod.fst).Nodup := hlive ▸ hd.live_nodup
  have hlarge : (w.large.map Prod.fst).Nodup := List.pairwise_map.mpr (hw.apart.imp ne_of_apart)
  rw [List.map_append]
  refine List.nodup_append.mpr ⟨hsmall, hlarge, fun a ha a' ha' => ?_⟩
  obtain ⟨b, hb, rfl⟩ := List.mem_map.mp ha
  obtain ⟨b', hb', rfl⟩ := List.mem_map.mp ha'
  exact hw.ne_of_small_of_large hb hb'

/-- What a live block holds. -/
theorem blocks_of_mem (hb : b ∈ w.small ++ w.large) :
    w.blocks b.1 = some (load w.state.mem b.1 b.2) :=
  view_of_mem hw.addresses_nodup hb

/-- **The blocks of a well-formed process** are a store of separate blocks. -/
theorem separated : Separated 16 w.blocks where
  aligned _ _ hp := hw.aligned (view_eq_some hp).1
  apart _ _ _ _ hp hq hne := hw.apart_blocks (view_eq_some hp).1 (view_eq_some hq).1 hne

end WellFormed

/-- **The states of runs**: those in which the invariant of a run holds. -/
structure Sound (w : Process) : Prop where
  models : ∃ d, w.Models d

theorem sound_initial : Sound {} := ⟨⟨_, models_initial⟩⟩

/-- A state of a run is well formed. -/
theorem Sound.wellFormed (hw : w.Sound) : w.WellFormed := by
  obtain ⟨d, hM⟩ := hw.models
  exact hM.wellFormed

theorem Sound.step (hw : w.Sound) {req : Request} (hlegal : w.Legal req) (htame : w.Tame req) :
    ∃ w', w.step req = some w' ∧ w'.Sound := by
  obtain ⟨d, hM⟩ := hw.models
  obtain ⟨w', d', hw', hM'⟩ := hM.step hlegal htame
  exact ⟨w', hw', ⟨d', hM'⟩⟩

/-- `is_large_alloc` is right about the live blocks. -/
theorem Sound.isLargeAlloc_iff (hw : w.Sound) (hb : b ∈ w.small ++ w.large) :
    w.state.toCore.isLargeAlloc b.1 = true ↔ b ∈ w.large :=
  (hw.models.elim fun _ hM => hM.classified) b hb

/-! ### A block is returned -/

/-- The list of the live blocks with one more, seen in a memory. -/
theorem view_add {m : ByteMemory.Mem} (hq : ¬w.IsLive q) :
    view m ((w.add size (some q)).small ++ (w.add size (some q)).large) =
      insert (view m (w.small ++ w.large)) q (load m q size) := by
  rw [add]
  split
  · exact view_middle fun b hb hc => hq ⟨b, List.mem_append_left _ hb, hc⟩
  · rw [List.cons_append, view_cons]

/-- **The range of a new block is fresh.** -/
theorem Sound.fresh (hw : (({ w with state := s₁ } : Process).add size (some q)).Sound)
    (hview : view s₁.mem (w.small ++ w.large) = w.blocks) : Fresh 16 w.blocks q size := by
  have hq : ¬w.IsLive q := hw.models.elim fun _ hM => hM.not_isLive
  have hsep := hw.wellFormed.separated
  rw [blocks, add_setState, view_add hq, hview] at hsep
  have hnone : w.blocks q = none := view_eq_none fun b hb hc => hq ⟨b, hb, hc⟩
  have hfresh := Fresh.of_separated hsep hnone
  rwa [length_load] at hfresh

/-- **`malloc` changes nothing that the live blocks hold**, whatever it returns. -/
theorem WellFormed.view_malloc (hw : w.WellFormed) (hpromised : w.Promised size mmap)
    (h : w.state.malloc heap size mmap = some (r, s₁)) :
    view s₁.mem (w.small ++ w.large) = w.blocks := by
  cases r with
  | none =>
    by_cases hpos : size = 0
    · rw [State.malloc, if_pos hpos] at h
      obtain ⟨-, rfl⟩ := Prod.mk.inj (Option.some.inj h)
      rfl
    · obtain ⟨-, rfl⟩ := (State.malloc_eq_none_iff hpos).mp h
      obtain ⟨usage, hrefused⟩ := w.state.refused_eq heap size
      rw [hrefused]
      rfl
  | some q =>
    have hkeeps := hw.keeps_malloc hpromised h
    refine view_congr fun b hb => load_congr fun a ha ha' => ?_
    exact hkeeps.mem a (hw.covers hb (hw.mem_regionOf hb ha ha'))

/-- The process after a call that returns a block. -/
theorem blocks_add (hq : ¬w.IsLive q) :
    (({ w with state := s₁ } : Process).add size (some q)).blocks =
      insert (view s₁.mem (w.small ++ w.large)) q (load s₁.mem q size) := by
  rw [blocks, add_setState]
  exact view_add hq

/-- `malloc` in a state of a run. -/
theorem Sound.malloc (hw : w.Sound) {i : ℕ} (hlt : size < 2 ^ 64) (hpromised : w.Promised size mmap)
    (hgrants : w.Grants i size mmap) :
    ∃ r s₁, w.state.malloc (.thread i) size mmap = some (r, s₁) ∧
      (({ w with state := s₁ } : Process).add size r).Sound := by
  obtain ⟨d, hM⟩ := hw.models
  obtain ⟨r, s₁, d', hmalloc, hM'⟩ := hM.malloc hlt hpromised hgrants
  exact ⟨r, s₁, hmalloc, ⟨d', hM'⟩⟩

/-- **What `malloc` does to the blocks.** -/
theorem Sound.path_malloc (hw : w.Sound) (hpromised : w.Promised size mmap)
    (hmalloc : w.state.malloc heap size mmap = some (r, s₁))
    (hw' : (({ w with state := s₁ } : Process).add size r).Sound) :
    Path (BlockStore.Step 16) w.blocks (r.map (.alloc · size)).toList
      (({ w with state := s₁ } : Process).add size r).blocks := by
  have hview := hw.wellFormed.view_malloc hpromised hmalloc
  cases r with
  | none =>
    rw [show (({ w with state := s₁ } : Process).add size none).blocks = w.blocks from hview]
    exact .nil _
  | some q =>
    rw [blocks_add (hw'.models.elim fun _ hM => hM.not_isLive), hview]
    exact .single (.alloc (hw'.fresh hview) length_load)

/-- A live block stays live when another is returned. -/
theorem mem_add_of_mem (hb : b ∈ w.small ++ w.large) (size q : ℕ) :
    b ∈ (w.add size (some q)).small ++ (w.add size (some q)).large := by
  simp only [add, List.mem_append] at hb ⊢
  split <;> simp only [List.mem_cons] <;> tauto

/-- What is written into a new block is not seen in the others. -/
theorem WellFormed.view_new (hw : (({ w with state := s₁ } : Process).add size (some q)).WellFormed)
    (hq : ¬w.IsLive q) {m : ByteMemory.Mem} (hout : ∀ a, a < q ∨ q + size ≤ a → m a = s₁.mem a) :
    view m (w.small ++ w.large) = view s₁.mem (w.small ++ w.large) := by
  refine view_congr fun b hb => load_congr fun a ha ha' => hout a ?_
  have hapart := hw.apart_blocks (mem_add_of_mem (w := { w with state := s₁ }) hb size q)
    (mem_add _ size q) fun hc => hq ⟨b, hb, hc⟩
  simp only [Apart] at hapart
  omega

/-- **What `calloc` does to the blocks.** -/
theorem Sound.path_calloc (hw : w.Sound) {i nmemb : ℕ}
    (hpromised : w.Promised (nmemb * size) mmap) (hgrants : w.Grants i (nmemb * size) mmap)
    (hcalloc : w.state.calloc (.thread i) nmemb size mmap = some (r, s₁)) :
    Path (BlockStore.Step 16) w.blocks (r.map (.fill · (nmemb * size) 0)).toList
      (({ w with state := s₁ } : Process).add (nmemb * size) r).blocks := by
  have hnull : some (none, w.state) = some (r, s₁) →
      Path (BlockStore.Step 16) w.blocks (r.map (.fill · (nmemb * size) 0)).toList
        (({ w with state := s₁ } : Process).add (nmemb * size) r).blocks := by
    intro h
    obtain ⟨rfl, rfl⟩ := Prod.mk.inj (Option.some.inj h)
    exact .nil _
  by_cases hzero : nmemb = 0 ∨ size = 0
  · rw [State.calloc, if_pos hzero] at hcalloc
    exact hnull hcalloc
  by_cases hover : (2 ^ 64 - 1) / nmemb < size
  · rw [State.calloc, if_neg hzero, if_pos hover] at hcalloc
    exact hnull hcalloc
  have hlt : nmemb * size < 2 ^ 64 := by
    rw [State.calloc_overflow_iff fun h => hzero (Or.inl h)] at hover
    exact Nat.lt_of_not_le hover
  obtain ⟨r', s₀, hmalloc, hw₀⟩ := hw.malloc hlt hpromised hgrants
  have hview := hw.wellFormed.view_malloc hpromised hmalloc
  obtain ⟨rfl, rfl⟩ := eq_of_calloc hzero hover hlt hmalloc hcalloc
  cases r with
  | none =>
    rw [show (({ w with state := cleared s₀ (nmemb * size) none } : Process).add (nmemb * size)
      none).blocks = w.blocks from hview]
    exact .nil _
  | some q =>
    have hq : ¬w.IsLive q := hw₀.models.elim fun _ hM => hM.not_isLive
    have hmem : (cleared s₀ (nmemb * size) (some q)).mem = fill s₀.mem q (nmemb * size) 0 := rfl
    rw [blocks_add hq, hmem, hw₀.wellFormed.view_new hq fun a => fill_outside, hview, load_fill]
    exact .single (.fill 0 (hw₀.fresh hview))

/-! ### A block is given back -/

/-- `free` calls the function for the kind of the block. -/
theorem frees_of_free {s₂ : State} (hfound : s₂.toCore.isLargeAlloc b.1 = true ↔ b ∈ w.large)
    (hfree : s₂.free (some b.1) = some s') :
    if b ∈ w.large then s' = s₂.setCore (s₂.toCore.largeFree b.1)
    else s₂.heapFree b.1 = some s' := by
  rw [State.free] at hfree
  by_cases hlarge : b ∈ w.large
  · rw [if_pos (hfound.mpr hlarge)] at hfree
    rw [if_pos hlarge]
    exact (Option.some.inj hfree).symm
  · rw [if_neg (mt hfound.mp hlarge)] at hfree
    rwa [if_neg hlarge]

/-- **What `free` does to the blocks**: the others keep what they hold. -/
theorem Sound.view_free (hw : w.Sound) (hb : b ∈ w.small ++ w.large)
    (hfree : w.state.free (some b.1) = some s') :
    view s'.mem ((w.small ++ w.large).filter fun b' => b'.1 ≠ b.1) = erase w.blocks b.1 := by
  have hfrees := frees_of_free (hw.isLargeAlloc_iff hb) hfree
  rw [blocks, ← view_filter]
  refine view_congr fun b' hb' => load_congr fun a ha ha' => ?_
  obtain ⟨hb', hne⟩ := List.mem_filter.mp hb'
  have hne : b'.1 ≠ b.1 := by simpa using hne
  have hin := hw.wellFormed.mem_regionOf hb' ha ha'
  have hout := (hw.wellFormed.apart_regions hb' hb hne).not_mem hin
  exact (hw.wellFormed.freed hb (fun _ _ => rfl) hfrees hout).1

/-- The process after a call that gives a block back. -/
theorem blocks_remove (p : ℕ) : ({ w.remove (some p) with state := s' } : Process).blocks =
    view s'.mem ((w.small ++ w.large).filter fun b => b.1 ≠ p) := by
  rw [blocks, remove, List.filter_append]

/-- The block that is given back is in the store. -/
theorem Sound.step_free (hw : w.Sound) (hb : b ∈ w.small ++ w.large)
    (hfree : w.state.free (some b.1) = some s') :
    Path (BlockStore.Step 16) w.blocks [.free b.1]
      ({ w.remove (some b.1) with state := s' } : Process).blocks := by
  rw [blocks_remove, hw.view_free hb hfree]
  exact .single (.free (hw.wellFormed.blocks_of_mem hb))

/-! ### A block is moved -/

/-- A block is large after another has been added if it was before. -/
theorem isLarge_add {p : ℕ} (hne : q ≠ p) : (w.add size (some q)).IsLarge p ↔ w.IsLarge p := by
  rw [add]
  split
  · simp [IsLarge, hne]
  · rfl

theorem IsLive.of_remove {p : ℕ} (h : (w.remove (some p)).IsLive q) : w.IsLive q := by
  obtain ⟨b, hb, rfl⟩ := h
  refine ⟨b, ?_, rfl⟩
  simp only [remove, List.mem_append, List.mem_filter] at hb ⊢
  tauto

/-- **What `realloc` relies on** holds in the states of runs. -/
theorem Sound.relies (hw : w.Sound) (hb : b ∈ w.small ++ w.large) {i : ℕ} (hlt : size < 2 ^ 64)
    (hpromised : w.Promised size mmap) (hgrants : w.Grants i size mmap)
    (hcopies : size ≤ maxBlockSize → w.CopiesNoMark i b.1 size mmap) :
    w.Relies (.thread i) b size mmap := by
  obtain ⟨d, hM⟩ := hw.models
  have hlive : w.IsLive b.1 := ⟨b, hb, rfl⟩
  have hadded : ∀ q s₁, w.state.malloc (.thread i) size mmap = some (some q, s₁) →
      (({ w with state := s₁ } : Process).add size (some q)).Sound := by
    intro q s₁ h
    obtain ⟨r, s, hmalloc, hw₁⟩ := hw.malloc hlt hpromised hgrants
    obtain ⟨rfl, rfl⟩ := Prod.mk.inj (Option.some.inj (hmalloc.symm.trans h))
    exact hw₁
  refine ⟨hM.isLargeAlloc_iff hlive, fun q s₁ h => ?_, fun q s₁ h b' hb' => ?_⟩
  · obtain ⟨d₁, hM₁⟩ := (hadded q s₁ h).models
    have hne : q ≠ b.1 := by
      rintro rfl
      exact hM₁.not_isLive hlive
    have hM₂ := hM₁.copy (numBytes_le w s₁ b.1 size) fun hle => hcopies hle _ h q rfl
    have hiff := hM₂.isLargeAlloc_iff (hlive.add size (some q))
    rw [if_congr (hM.isLargeAlloc_iff hlive).symm rfl rfl] at hiff
    exact hiff.trans (isLarge_add hne)
  · -- The regions of the live blocks are the same after `malloc`.
    have hw₁ := (hadded q s₁ h).wellFormed
    have hq : ¬w.IsLive q := (hadded q s₁ h).models.elim fun _ hM => hM.not_isLive
    have hkeeps := hw.wellFormed.keeps_malloc hpromised h
    have hnew := mem_add { w with state := s₁ } size q
    have hold := mem_add_of_mem (w := { w with state := s₁ }) hb' size q
    have hregion : (({ w with state := s₁ } : Process).add size (some q)).regionOf b' =
        w.regionOf b' := by
      rcases List.mem_append.mp hb' with hsmall | hlarge
      · have hsmall₁ : b' ∈ (({ w with state := s₁ } : Process).add size (some q)).small := by
          rw [add]
          split
          · exact hsmall
          · exact List.mem_cons_of_mem _ hsmall
        rw [hw₁.regionOf_small hsmall₁, hw.wellFormed.regionOf_small hsmall,
          ← hkeeps.blockSize b' hsmall, add_setState]
      · have hlarge₁ : b' ∈ (({ w with state := s₁ } : Process).add size (some q)).large := by
          rw [add]
          split
          · exact List.mem_cons_of_mem _ hlarge
          · exact hlarge
        rw [WellFormed.regionOf_large hlarge₁, WellFormed.regionOf_large hlarge]
    have hapart := hw₁.apart_regions hnew hold fun hc => hq ⟨b', hb', hc.symm⟩
    have hle := hw₁.range_le hnew
    rw [hregion] at hapart
    simp only [Apart] at hapart ⊢
    omega

/-- **What `realloc` does to the blocks** when it does not call `large_realloc`. -/
theorem Sound.path_move (hw : w.Sound) (hb : b ∈ w.small ++ w.large) {i : ℕ} (hpos : size ≠ 0)
    (hnot : ¬(b ∈ w.large ∧ maxBlockSize < size)) (hlt : size < 2 ^ 64)
    (hpromised : w.Promised size mmap) (hgrants : w.Grants i size mmap)
    (hcopies : size ≤ maxBlockSize → w.CopiesNoMark i b.1 size mmap)
    (hrealloc : w.state.realloc (.thread i) (some b.1) size mmap = some (r, s')) :
    Path (BlockStore.Step 16) w.blocks
      [match r with | some q => .move b.1 q size | none => .free b.1]
      (({ w.remove (some b.1) with state := s' } : Process).add size r).blocks := by
  have hfound := hw.isLargeAlloc_iff hb
  cases r with
  | none =>
    rw [← hfound] at hnot
    rcases State.realloc_cases hpos hnot hrealloc with ⟨-, s₁, hmalloc, hfree⟩ | ⟨q, _, hr, -⟩
    · obtain ⟨r, s, hmalloc', hw₁⟩ := hw.malloc hlt hpromised hgrants
      obtain ⟨rfl, rfl⟩ := Prod.mk.inj (Option.some.inj (hmalloc'.symm.trans hmalloc))
      have hview := hw.wellFormed.view_malloc hpromised hmalloc
      have hpath := Sound.step_free hw₁ hb hfree
      rw [show (({ w with state := s } : Process).add size none).blocks = w.blocks from hview]
        at hpath
      exact hpath
    · cases hr
  | some q =>
    have hrelies := hw.relies hb hlt hpromised hgrants hcopies
    obtain ⟨s₁, hmalloc, hmoves⟩ := realloc_moves hw.wellFormed hb hnot hpromised hrelies hrealloc
    obtain ⟨r, s, hmalloc', hw₁⟩ := hw.malloc hlt hpromised hgrants
    obtain ⟨rfl, rfl⟩ := Prod.mk.inj (Option.some.inj (hmalloc'.symm.trans hmalloc))
    have hview := hw.wellFormed.view_malloc hpromised hmalloc
    have hq : ¬w.IsLive q := hw₁.models.elim fun _ hM => hM.not_isLive
    have hothers : view s'.mem ((w.small ++ w.large).filter fun b' => b'.1 ≠ b.1) =
        erase w.blocks b.1 := by
      rw [blocks, ← view_filter]
      refine view_congr fun b' hb' => ?_
      obtain ⟨hb', hne⟩ := List.mem_filter.mp hb'
      exact (hmoves.others b' hb' (by simpa using hne)).2
    rw [blocks_add (w := w.remove (some b.1)) fun h => hq h.of_remove, remove,
      ← List.filter_append, hothers]
    refine .single (.move (hw.wellFormed.blocks_of_mem hb) (hw₁.fresh hview) length_load ?_)
    rw [length_load, take_load, take_load, Nat.min_eq_left (Nat.min_le_right ..),
      Nat.min_eq_left (Nat.min_le_left ..)]
    exact hmoves.contents

/-- **New pages have room for a block** that is fresh. -/
theorem WellFormed.fresh_pages (hw : w.WellFormed) {ptr : ℕ}
    (hptr : MapsFresh w.state.mapped ptr (pageUp (size + sizeofMmapHeader))) :
    Fresh 16 w.blocks (ptr + sizeofMmapHeader) size := by
  have hup := le_pageUp (size + sizeofMmapHeader)
  have hpage : sizeofMmapHeader < pageUp (size + sizeofMmapHeader) := by
    simp only [pageUp, pageSize, sizeofMmapHeader]
    omega
  have hdvd : 16 ∣ ptr := dvd_trans (by decide) hptr.1
  have hapart : ∀ b ∈ w.small ++ w.large,
      Apart (w.regionOf b) (ptr, pageUp (size + sizeofMmapHeader)) := by
    intro b hb
    have hself := hw.mem_self hb
    simp only [AddressSpace.Mem] at hself
    exact hptr.2.2.2.apart (fun a ha => hw.covers hb ha) (by omega) (by omega)
  refine ⟨view_eq_none fun b hb hc => ?_, Nat.add_pos_right _ (by decide), ?_, fun q bs hq => ?_⟩
  · have hself := hc ▸ hw.mem_self hb
    exact (hapart b hb).not_mem hself ⟨Nat.le_add_right .., Nat.add_lt_add_left hpage _⟩
  · rw [sizeofMmapHeader]
    omega
  · have hb := (view_eq_some hq).1
    have hregion := hapart _ hb
    have hle := hw.range_le hb
    simp only [Apart] at hregion hle ⊢
    omega

/-- **What `large_realloc` does to the blocks.** -/
theorem Sound.path_largeRealloc (hw : w.Sound) (hb : b ∈ w.large) (hsize : maxBlockSize < size)
    {i : ℕ} (hpromised : w.Promised size mmap) (hgrants : w.Grants i size mmap)
    (hfits : mmap ≠ none → b.2 + sizeofMmapHeader ≤ pageUp (size + sizeofMmapHeader))
    (hrealloc : w.state.realloc (.thread i) (some b.1) size mmap = some (r, s')) :
    r = none ∧ s' = w.state ∨ ∃ q, r = some q ∧
      Path (BlockStore.Step 16) w.blocks [.move b.1 q size]
        (({ w.remove (some b.1) with state := s' } : Process).add size (some q)).blocks := by
  have hlarge := hw.wellFormed.large b hb
  have hlive : b ∈ w.small ++ w.large := List.mem_append_right _ hb
  cases mmap with
  | none =>
    rw [realloc_eq_large hlarge.isLargeAlloc hsize rfl] at hrealloc
    obtain ⟨rfl, rfl⟩ := Prod.mk.inj (Option.some.inj hrealloc)
    exact Or.inl ⟨rfl, rfl⟩
  | some ptr =>
    have hsome : some ptr ≠ none := Option.some_ne_none ptr
    have hover := hgrants.2 hsize hsome
    have hptr := hpromised ptr rfl
    rw [if_neg (by omega), add64_eq hover] at hptr
    obtain ⟨c, hc⟩ : ∃ c, w.state.toCore.largeRealloc b.1 size (some ptr) =
        some (some (ptr + sizeofMmapHeader), c) :=
      ⟨_, Core.largeRealloc_eq_of_le hlarge ptr hover (hfits hsome)⟩
    have hright := Core.largeRealloc_reallocates hlarge hover hptr.2 hc (hfits hsome)
    rw [realloc_eq_large hlarge.isLargeAlloc hsize hc] at hrealloc
    obtain ⟨rfl, rfl⟩ := Prod.mk.inj (Option.some.inj hrealloc)
    refine Or.inr ⟨_, rfl, ?_⟩
    have hfresh := hw.wellFormed.fresh_pages hptr.2
    have hnot : ¬w.IsLive (ptr + sizeofMmapHeader) := by
      rintro ⟨b', hb', hc⟩
      have hnone := hfresh.not_live
      rw [← hc, hw.wellFormed.blocks_of_mem hb'] at hnone
      cases hnone
    have hothers : view c.mem ((w.small ++ w.large).filter fun b' => b'.1 ≠ b.1) =
        erase w.blocks b.1 := by
      rw [blocks, ← view_filter]
      refine view_congr fun b' hb' => load_congr fun a ha ha' => ?_
      obtain ⟨hb', hne⟩ := List.mem_filter.mp hb'
      have hin := hw.wellFormed.mem_regionOf hb' ha ha'
      have hapart := hw.wellFormed.apart_regions hb' hlive (by simpa using hne)
      rw [WellFormed.regionOf_large hb] at hapart
      exact (hright.others a (hw.wellFormed.covers hb' hin) (hapart.not_mem hin)).2
    rw [blocks_add (w := w.remove (some b.1)) fun h => hnot h.of_remove, remove,
      ← List.filter_append, show (w.state.setCore c).mem = c.mem from rfl, hothers]
    refine .single (.move (hw.wellFormed.blocks_of_mem hlive) hfresh length_load ?_)
    rw [length_load, take_load, take_load, Nat.min_eq_left (Nat.min_le_right ..),
      Nat.min_eq_left (Nat.min_le_left ..)]
    exact hright.contents

/-! ### A block is written -/

/-- **What a client does to the blocks.** -/
theorem Sound.path_write (hw : w.Sound) {ptr off : ℕ} {bytes : List UInt8}
    (hlegal : w.Legal (.write ptr off bytes)) (hstep : w.step (.write ptr off bytes) = some w') :
    Path (BlockStore.Step 16) w.blocks [.write ptr off bytes] w'.blocks := by
  obtain ⟨b, hb, rfl, hle⟩ := hlegal
  have hold := hw.wellFormed.blocks_of_mem hb
  have hle' : off + bytes.length ≤ (load w.state.mem b.1 b.2).length := by rwa [length_load]
  have hview : w'.blocks =
      insert w.blocks b.1 (overwrite (load w.state.mem b.1 b.2) off bytes) := by
    obtain rfl := Option.some.inj hstep
    exact view_store hw.wellFormed.separated hold hle'
  rw [hview]
  exact .single (.write hold hle')

/-! ### Runs -/

/-- What `realloc` shows of itself. -/
theorem action_realloc {i : ℕ} (hw : w.WellFormed) (hb : b ∈ w.small ++ w.large)
    (hrealloc : w.state.realloc (.thread i) (some b.1) size mmap = some (r, s')) :
    w.action (.realloc i (some b.1) size mmap) = match r with
      | some q => some (.move b.1 q size)
      | none => if b ∈ w.large ∧ maxBlockSize < size then none else some (.free b.1) := by
  have hr : w.returned (.realloc i (some b.1) size mmap) = r := by
    rw [returned, hrealloc]
    rfl
  rw [action, hr]
  cases r with
  | none => exact if_congr (and_congr_left' (hw.isLarge_iff hb)) rfl rfl
  | some q => rfl

/-- **`realloc` of a live block is an action on the blocks.** -/
theorem Sound.path_realloc (hw : w.Sound) {i p : ℕ}
    (hlegal : w.Legal (.realloc i (some p) size mmap))
    (htame : w.Tame (.realloc i (some p) size mmap))
    (hstep : w.step (.realloc i (some p) size mmap) = some w') :
    Path (BlockStore.Step 16) w.blocks (w.action (.realloc i (some p) size mmap)).toList
      w'.blocks := by
  obtain ⟨hlt, hpromised, hlive⟩ := hlegal
  obtain ⟨hgrants, hrest⟩ := htame p rfl
  obtain ⟨b, hb, rfl⟩ := hlive p rfl
  obtain ⟨⟨r, s'⟩, hrealloc, hstep⟩ := Option.bind_eq_some_iff.mp hstep
  obtain rfl := Option.some.inj hstep
  rw [action_realloc hw.wellFormed hb hrealloc]
  have hstays : w.staysLarge (some b.1) size =
      (w.state.toCore.isLargeAlloc b.1 && decide (maxBlockSize < size)) := rfl
  have hfound := hw.isLargeAlloc_iff hb
  by_cases hboth : b ∈ w.large ∧ maxBlockSize < size
  · obtain ⟨hlarge, hsize⟩ := hboth
    rw [if_pos hsize] at hrest
    rw [hstays, hfound.mpr hlarge, decide_eq_true hsize, Bool.and_self, Bool.true_and]
    rcases hw.path_largeRealloc hlarge hsize hpromised hgrants
      (fun h => hrest h b hlarge rfl) hrealloc with ⟨rfl, rfl⟩ | ⟨q, rfl, hpath⟩
    · rw [if_pos ⟨hlarge, hsize⟩]
      exact .nil _
    · exact hpath
  · have hfalse : w.staysLarge (some b.1) size = false := by
      rw [← hfound] at hboth
      exact State.not_bothLarge hboth
    rw [hfalse, Bool.false_and]
    by_cases hpos : size = 0
    · subst hpos
      rw [State.realloc, if_pos rfl] at hrealloc
      obtain ⟨s₁, hfree, hrealloc⟩ := Option.bind_eq_some_iff.mp hrealloc
      obtain ⟨rfl, rfl⟩ := Prod.mk.inj (Option.some.inj hrealloc)
      rw [if_neg hboth]
      exact hw.step_free hb hfree
    · have hpath := hw.path_move hb hpos hboth hlt hpromised hgrants (fun hle => by
        rwa [if_neg (by omega)] at hrest) hrealloc
      cases r with
      | none =>
        rw [if_neg hboth]
        exact hpath
      | some q => exact hpath

/-- **Every call is an action on the blocks**, or does nothing to them. -/
theorem Sound.path_step (hw : w.Sound) {req : Request} (hlegal : w.Legal req)
    (htame : w.Tame req) :
    ∃ w', w.step req = some w' ∧ w'.Sound ∧
      Path (BlockStore.Step 16) w.blocks (w.action req).toList w'.blocks := by
  obtain ⟨w', hstep, hw'⟩ := hw.step hlegal htame
  refine ⟨w', hstep, hw', ?_⟩
  cases req with
  | malloc i size mmap =>
    obtain ⟨⟨r, s₁⟩, hmalloc, hstep⟩ := Option.bind_eq_some_iff.mp hstep
    obtain rfl := Option.some.inj hstep
    have hr : w.returned (.malloc i size mmap) = r := by
      rw [returned, hmalloc]
      rfl
    rw [action, hr]
    exact hw.path_malloc hlegal.2 hmalloc hw'
  | calloc i nmemb size mmap =>
    obtain ⟨⟨r, s₁⟩, hcalloc, hstep⟩ := Option.bind_eq_some_iff.mp hstep
    obtain rfl := Option.some.inj hstep
    have hr : w.returned (.calloc i nmemb size mmap) = r := by
      rw [returned, hcalloc]
      rfl
    rw [action, hr]
    exact hw.path_calloc hlegal.2.2 htame hcalloc
  | realloc i ptr size mmap =>
    cases ptr with
    | none =>
      obtain rfl := Option.some.inj hstep
      exact .nil _
    | some p => exact hw.path_realloc hlegal htame hstep
  | free ptr =>
    cases ptr with
    | none =>
      obtain rfl := Option.some.inj hstep
      exact .nil _
    | some p =>
      obtain ⟨b, hb, rfl⟩ := hlegal p rfl
      obtain ⟨s', hfree, hstep⟩ := Option.bind_eq_some_iff.mp hstep
      obtain rfl := Option.some.inj hstep
      exact hw.step_free hb hfree
  | write ptr off bytes => exact hw.path_write hlegal hstep

/-- **A run from a state of runs is a run of the store.** -/
theorem Sound.path_run (hw : w.Sound) {reqs : List Request}
    (hreqs : Always Process.step (fun w req => w.Legal req ∧ w.Tame req) w reqs) :
    ∃ w', run Process.step w reqs = some w' ∧ w'.Sound ∧
      Path (BlockStore.Step 16) w.blocks (labels Process.step Process.action w reqs) w'.blocks :=
  path_of_always (fun _ _ hw h => hw.path_step h.1 h.2) hw hreqs

/-- **A block keeps what it holds** in a run in which no call and no write names it. -/
theorem contents_kept (hw : w.Sound) {reqs : List Request}
    (hreqs : Always Process.step (fun w req => w.Legal req ∧ w.Tame req) w reqs) {p : ℕ}
    (hp : ∀ a ∈ labels Process.step Process.action w reqs, p ∉ a.names) :
    ∃ w', run Process.step w reqs = some w' ∧ w'.Sound ∧ w'.blocks p = w.blocks p := by
  obtain ⟨w', hrun, hw', hpath⟩ := hw.path_run hreqs
  exact ⟨w', hrun, hw', get_of_path hpath hp⟩

end Process

/-- **The runs of the public functions are runs of a store of blocks**, if they do none of
what `MyMalloc.Process.Tame` excludes: they do not go wrong, and what the clients see of
the blocks is what the store says. In the end the live blocks lie apart. -/
theorem runs_refine_store {reqs : List Request}
    (hreqs : Always Process.step (fun w req => w.Legal req ∧ w.Tame req) {} reqs) :
    ∃ w, run Process.step {} reqs = some w ∧
      Path (BlockStore.Step 16) BlockStore.empty (labels Process.step Process.action {} reqs)
        w.blocks ∧
      Separated 16 w.blocks := by
  obtain ⟨w, hrun, -, hpath⟩ := Process.sound_initial.path_run hreqs
  exact ⟨w, hrun, hpath, hpath.preserves Step.separated separated_empty⟩

/-- A run with blocks of both kinds: one is moved, one is cleared and one is written. -/
theorem runs_refine_store_moved : ∃ w,
    run Process.step {} [.malloc 0 16 (some 1048576), .malloc 0 200000 (some 4194304),
      .write 1048704 0 [1, 2, 3], .calloc 1 2 8 (some 8388608),
      .realloc 0 (some 1048704) 40 (some 2097152), .free (some 4194320)] = some w ∧
    Path (BlockStore.Step 16) BlockStore.empty
      (labels Process.step Process.action {} [.malloc 0 16 (some 1048576),
        .malloc 0 200000 (some 4194304), .write 1048704 0 [1, 2, 3], .calloc 1 2 8 (some 8388608),
        .realloc 0 (some 1048704) 40 (some 2097152), .free (some 4194320)]) w.blocks ∧
    Separated 16 w.blocks :=
  runs_refine_store (by decide +kernel)

end MyMalloc
