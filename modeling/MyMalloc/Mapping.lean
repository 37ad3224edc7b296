import MyMalloc.Executions
import MyMalloc.LiveBlocks

/-!
# What is mapped

The allocator gets its memory by `mmap` in three places and gives some of it back by
`munmap` in three others. Taken together they keep exact books
(`MyMalloc.Core.Exact`): what is mapped are the superblocks and the pages of the large
blocks that are live, and nothing else. So no mapping gets lost, nothing is unmapped
that is in use, and a program that has freed its large blocks holds on to its
superblocks only.

This is so in every interleaving of calls of the small allocator
(`MyMalloc.threads_map_superblocks`), and after every run of the public functions
(`MyMalloc.mapped_exact`).
-/

namespace MyMalloc

open LinkedList AddressSpace ByteMemory

/-! ### The books -/

/-- **What is mapped are the superblocks and the pages of some large blocks.** -/
def Core.Exact (c : Core) (large : List (ℕ × ℕ)) : Prop :=
  ∀ a, Covers c.mapped a ↔
    (∃ x ∈ c.superblocks, AddressSpace.Mem a (x, superblockSize)) ∨
      ∃ b ∈ large, AddressSpace.Mem a (spanOf b)

namespace Core.Exact

variable {c c' : Core} {large : List (ℕ × ℕ)}

theorem congr (h : c.Exact large) (hmapped : c'.mapped = c.mapped)
    (hsb : c'.superblocks = c.superblocks) : c'.Exact large := by
  intro a
  rw [hmapped, hsb]
  exact h a

/-- A superblock is mapped. -/
theorem superblock (h : c.Exact large) {ptr x : ℕ} {c₁ : Core}
    (hptr : MapsFresh c.mapped ptr (2 * superblockSize))
    (hc : c.allocateNewSuperblock (some ptr) = (some x, c₁)) (hmapped : c'.mapped = c₁.mapped)
    (hsb : c'.superblocks = x :: c.superblocks) : c'.Exact large := by
  obtain ⟨x', mapped, hspec, -, -, -, hcovers⟩ := c.allocateNewSuperblock_spec hptr
  obtain ⟨hx, rfl⟩ := Prod.mk.inj (hspec.symm.trans hc)
  obtain rfl := Option.some.inj hx
  intro a
  rw [hmapped, hsb, hcovers, h a]
  simp only [List.mem_cons, exists_eq_or_imp]
  exact or_right_comm.trans (or_congr_left or_comm)

/-- The pages of a large block are mapped. -/
theorem map (h : c.Exact large) {ptr size : ℕ}
    (hmapped : c'.mapped = (ptr, pageUp (size + sizeofMmapHeader)) :: c.mapped)
    (hsb : c'.superblocks = c.superblocks) :
    c'.Exact ((ptr + sizeofMmapHeader, size) :: large) := by
  intro a
  rw [hmapped, hsb, covers_cons, h a]
  simp only [List.mem_cons, exists_eq_or_imp, spanOf_add]
  exact or_left_comm

/-- The pages of a large block are unmapped, which lie apart from everything else. -/
theorem unmap (h : c.Exact large) {b : ℕ × ℕ} (hb : LargeBlock c b) (hmem : b ∈ large)
    (hapart : large.Pairwise fun b b' => Apart (spanOf b) (spanOf b'))
    (hmapped : c'.mapped = AddressSpace.unmap c.mapped (spanOf b).1 (spanOf b).2)
    (hsb : c'.superblocks = c.superblocks) : c'.Exact (large.filter fun b' => b'.1 ≠ b.1) := by
  intro a
  have hother : ∀ b' ∈ large, b'.1 ≠ b.1 → AddressSpace.Mem a (spanOf b') →
      ¬AddressSpace.Mem a (spanOf b) := by
    intro b' hb' hne ha
    have hbb : b' ≠ b := fun hc => hne (congrArg Prod.fst hc)
    exact (apart_of_pairwise hapart hb' hmem hbb).not_mem ha
  have hself : ∀ b' ∈ large, b'.1 = b.1 → b' = b := by
    intro b' hb' heq
    by_contra hbb
    exact ne_of_apart (apart_of_pairwise hapart hb' hmem hbb) heq
  rw [hmapped, hsb, covers_unmap, h a]
  constructor
  · rintro ⟨hx | ⟨b', hb', ha⟩, hout⟩
    · exact Or.inl hx
    · refine Or.inr ⟨b', List.mem_filter.mpr ⟨hb', decide_eq_true fun heq => ?_⟩, ha⟩
      rw [hself b' hb' heq] at ha
      exact hout ha
  · rintro (⟨x, hx, ha⟩ | ⟨b', hb', ha⟩)
    · exact ⟨Or.inl ⟨x, hx, ha⟩, (hb.apart x hx).symm.not_mem ha⟩
    · obtain ⟨hb', hne⟩ := List.mem_filter.mp hb'
      exact ⟨Or.inr ⟨b', hb', ha⟩, hother b' hb' (of_decide_eq_true hne) ha⟩

end Core.Exact

/-! ### The small allocator -/

namespace Depot

variable {d d' d₁ : Depot} {large : List (ℕ × ℕ)} {src : Source} {pc pc' : Pc} {x : ℕ}

/-- Only a superblock that is new is mapped. -/
theorem Acquires.exact {heap : HeapId} {b : ℕ} (h : d.core.Exact large)
    (hacquires : d.Acquires heap b src x d₁) : d₁.core.Exact large := by
  cases hacquires with
  | bin => exact h
  | recycled => exact h.congr rfl rfl
  | globalBin => exact h.congr rfl rfl
  | globalRecycled =>
    obtain ⟨failed, hcore⟩ := d.popGlobal_core x
    have hpop : (d.popGlobal x).core.Exact large := by
      rw [hcore]
      exact h.congr rfl rfl
    exact hpop.congr rfl rfl
  | new ptr x c hptr hc =>
    refine h.superblock hptr hc rfl ?_
    rw [← (Core.allocateNewSuperblock_frame hc).2.2.1]
    rfl

/-- **A complete call keeps the books.** -/
theorem Step.exact {op : Op} (h : d.core.Exact large) (hstep : d.Step src op d') :
    d'.core.Exact large := by
  cases hstep with
  | served hsize hsrc hacquires hserves => exact (hacquires.exact h).congr rfl rfl
  | failed => exact h.congr rfl rfl
  | freedGlobal => exact h.congr rfl rfl
  | freed => exact h.congr rfl rfl
  | moved => exact h.congr rfl rfl
  | wrote => exact h.congr rfl rfl

/-- **A step of a thread keeps the books.** -/
theorem ThreadStep.exact (h : d.core.Exact large) (hstep : d.ThreadStep src pc pc' d') :
    d'.core.Exact large := by
  cases hstep with
  | passive => exact h
  | served hsize hlocal hsrc hacquires hserves => exact (hacquires.exact h).congr rfl rfl
  | notServed => exact h
  | fetchedBin => exact h
  | @fetchedRecycled _ _ x =>
    obtain ⟨failed, hcore⟩ := d.popGlobal_core x
    rw [hcore]
    exact h.congr rfl rfl
  | notFetched => exact h
  | @mapped _ i size ptr x c hsize hptr hc =>
    refine h.superblock hptr hc rfl ?_
    rw [← (Core.allocateNewSuperblock_frame hc).2.2.1]
    rfl
  | notMapped => exact h.congr rfl rfl
  | owned => exact h.congr rfl rfl
  | @filed _ i size x p new => cases new <;> exact h.congr rfl rfl
  | freedGlobal => exact h.congr rfl rfl
  | freed => exact h.congr rfl rfl
  | taken => exact h.congr rfl rfl
  | moved => exact h.congr rfl rfl
  | counted => exact h.congr rfl rfl

/-- **`large_realloc` keeps the books**: the pages of the new block are mapped, and then
those of the old one are unmapped. -/
theorem Hosts.exact_largeRealloc (h : d.Hosts large) (hexact : d.core.Exact large) {b : ℕ × ℕ}
    (hb : b ∈ large) {ptr size : ℕ} {r : Option ℕ} {c : Core}
    (hlt : size + sizeofMmapHeader < 2 ^ 64)
    (hptr : MapsFresh d.core.mapped ptr (pageUp (size + sizeofMmapHeader)))
    (hc : d.core.largeRealloc b.1 size (some ptr) = some (r, c)) :
    c.Exact ((ptr + sizeofMmapHeader, size) :: large.filter fun b' => b'.1 ≠ b.1) := by
  have hmem : b ∈ (ptr + sizeofMmapHeader, size) :: large := List.mem_cons_of_mem _ hb
  -- The state between the two, in which both blocks are mapped.
  obtain ⟨c₁, hc₁⟩ : ∃ c₁, c₁ = Core.setMmapHeader { d.core with
      mapped := (ptr, pageUp (size + sizeofMmapHeader)) :: d.core.mapped
      mem := fill d.core.mem ptr (pageUp (size + sizeofMmapHeader)) 0 } ptr size := ⟨_, rfl⟩
  have hmap := h.map (by simp only [sizeofMmapHeader] at hlt; omega) hptr
    (fun a => fill_outside) hc₁
  have hne : ptr + sizeofMmapHeader ≠ b.1 :=
    ne_of_apart (List.rel_of_pairwise_cons hmap.apart hb)
  have hboth : c₁.Exact ((ptr + sizeofMmapHeader, size) :: large) :=
    hexact.map (by rw [hc₁]; rfl) (by rw [hc₁]; rfl)
  have hunmap : Core.Exact
      { c₁ with mapped := AddressSpace.unmap c₁.mapped (spanOf b).1 (spanOf b).2 }
      (((ptr + sizeofMmapHeader, size) :: large).filter fun b' => b'.1 ≠ b.1) :=
    hboth.unmap (hmap.block b hmem) hmem hmap.apart rfl rfl
  obtain ⟨-, rfl⟩ := Core.eq_of_largeRealloc (h.block b hb) hlt hc
  rw [List.filter_cons_of_pos (by simpa using hne)] at hunmap
  exact hunmap.congr (by rw [hc₁]; rfl) (by rw [hc₁]; rfl)

end Depot

/-- **The small allocator maps superblocks only**, and unmaps none, in any interleaving in
which no thread disturbs another and no superblock comes from the recycle list of the global
heap to another class than its own: what is mapped are the superblocks it has obtained. -/
theorem threads_map_superblocks {T : Type} [DecidableEq T] {events : List (Event T)}
    (h : Trace.Always Machine.step (fun m e => m.Legal e ∧ m.RespectsOwners e ∧ m.Matching e) {}
      events) :
    ∃ m, Trace.run Machine.step {} events = some m ∧ ∀ a, Covers m.state.mapped a ↔
      ∃ x ∈ m.state.superblocks, x ≤ a ∧ a < x + superblockSize := by
  obtain ⟨m, d, hrun, hM, hexact⟩ := Machine.run_induction (P := fun _ d => d.core.Exact [])
    (fun _ _ h => h) (fun a => by simp) (fun _ _ _ _ _ hexact _ => hexact)
    (fun _ _ _ _ _ _ _ _ hexact _ hstep _ _ => hstep.exact hexact)
    (fun _ _ _ _ _ _ hexact _ => hexact.congr rfl rfl) h
  refine ⟨m, hrun, fun a => ?_⟩
  rw [hM.refines.core, hexact a]
  simp only [List.not_mem_nil, false_and, exists_false, or_false, AddressSpace.Mem]

/-- A superblock that a thread has in its hands is mapped as one that is filed. -/
theorem threads_map_superblocks_in_hand : ∃ m,
    Trace.run Machine.step {} recycleDuringMapping = some m ∧ ∀ a, Covers m.state.mapped a ↔
      ∃ x ∈ [2097152, 1048576], x ≤ a ∧ a < x + superblockSize := by
  obtain ⟨m, hrun, hmapped⟩ := threads_map_superblocks
    (show Trace.Always Machine.step (fun m e => m.Legal e ∧ m.RespectsOwners e ∧ m.Matching e) {}
      recycleDuringMapping by decide +kernel)
  have hfacts : (Trace.run Machine.step {} recycleDuringMapping).map (fun m =>
      m.state.superblocks) = some [2097152, 1048576] := by
    decide +kernel
  rw [hrun, Option.map_some, Option.some_inj] at hfacts
  exact ⟨m, hrun, hfacts ▸ hmapped⟩

/-! ### The public functions -/

namespace Process

variable {w w' : Process} {d : Depot} {i size p : ℕ} {mmap r : Option ℕ} {s : State}

/-- The books of a process. -/
def Exact (w : Process) : Prop := w.state.toCore.Exact w.large

namespace Exact

/-- A small block is no business of the books. -/
theorem add_small (h : Core.Exact s.toCore w.large) (hsize : size ≤ maxBlockSize) (r : Option ℕ) :
    (({ w with state := s } : Process).add size r).Exact := by
  cases r with
  | none => exact h
  | some p =>
    rw [add, if_neg (by omega)]
    exact h

/-- `malloc` of a size the small allocator serves. -/
theorem malloc_small (h : w.Exact) (hM : w.Models d) (hpos : size ≠ 0)
    (hsize : size ≤ maxBlockSize) (hpromised : w.Promised size mmap)
    (hgrants : w.Grants i size mmap)
    (hmalloc : w.state.malloc (.thread i) size mmap = some (r, s)) :
    (({ w with state := s } : Process).add size r).Exact := by
  have hlegal : World.Legal ⟨w.state, w.small⟩ (.alloc i size mmap) := by
    refine ⟨by omega, hsize, fun ptr hptr => ?_⟩
    have hfresh := hpromised ptr hptr
    rwa [if_pos hsize] at hfresh
  obtain ⟨w', d', hw', hstep, hM'⟩ :=
    World.simulates_alloc hM.small hM.inv hlegal (hgrants.1 (by omega) hsize)
  rw [State.malloc, if_neg hpos, if_neg (by omega)] at hmalloc
  have hstate : w'.state = s := by
    cases r with
    | none => exact congrArg World.state (Option.some.inj (hw'.symm.trans
        (World.step_alloc_none hmalloc)))
    | some p => exact congrArg World.state (Option.some.inj (hw'.symm.trans
        (World.step_alloc_some hmalloc)))
  have hcore : s.toCore = d'.core := hstate ▸ hM'.refines.core
  have hexact : d.core.Exact w.large := hM.core ▸ h
  exact add_small (hcore ▸ hstep.exact hexact) hsize r

/-- `malloc` of a size the small allocator does not serve. -/
theorem malloc_large (h : w.Exact) (hsize : maxBlockSize < size) (hgrants : w.Grants i size mmap)
    (hmalloc : w.state.malloc (.thread i) size mmap = some (r, s)) :
    (({ w with state := s } : Process).add size r).Exact := by
  cases mmap with
  | none =>
    obtain ⟨rfl, rfl⟩ := Prod.mk.inj (Option.some.inj (hmalloc.symm.trans
      (malloc_eq_large hsize rfl)))
    exact h
  | some ptr =>
    obtain ⟨rfl, rfl⟩ := Prod.mk.inj (Option.some.inj (hmalloc.symm.trans
      (malloc_eq_large hsize rfl)))
    rw [add, if_pos hsize]
    refine Core.Exact.map h ?_ rfl
    rw [← add64_eq (hgrants.2 hsize (Option.some_ne_none ptr))]
    rfl

/-- **`malloc`** keeps the books. -/
theorem malloc (h : w.Exact) (hM : w.Models d) (hpromised : w.Promised size mmap)
    (hgrants : w.Grants i size mmap)
    (hmalloc : w.state.malloc (.thread i) size mmap = some (r, s)) :
    (({ w with state := s } : Process).add size r).Exact := by
  by_cases hpos : size = 0
  · rw [State.malloc, if_pos hpos] at hmalloc
    obtain ⟨rfl, rfl⟩ := Prod.mk.inj (Option.some.inj hmalloc)
    exact h
  by_cases hsize : size ≤ maxBlockSize
  · exact h.malloc_small hM hpos hsize hpromised hgrants hmalloc
  · exact h.malloc_large (by omega) hgrants hmalloc

/-- **`calloc`** keeps the books: it clears bytes only. -/
theorem calloc (h : w.Exact) (hM : w.Models d) {nmemb : ℕ}
    (hpromised : w.Promised (nmemb * size) mmap) (hgrants : w.Grants i (nmemb * size) mmap)
    (hcalloc : w.state.calloc (.thread i) nmemb size mmap = some (r, s)) :
    (({ w with state := s } : Process).add (nmemb * size) r).Exact := by
  by_cases hzero : nmemb = 0 ∨ size = 0
  · rw [State.calloc, if_pos hzero] at hcalloc
    obtain ⟨rfl, rfl⟩ := Prod.mk.inj (Option.some.inj hcalloc)
    exact h
  by_cases hover : (2 ^ 64 - 1) / nmemb < size
  · rw [State.calloc, if_neg hzero, if_pos hover] at hcalloc
    obtain ⟨rfl, rfl⟩ := Prod.mk.inj (Option.some.inj hcalloc)
    exact h
  have hlt : nmemb * size < 2 ^ 64 := by
    have hle := (Nat.le_div_iff_mul_le (Nat.pos_of_ne_zero fun h => hzero (Or.inl h))).mp
      (Nat.le_of_not_lt hover)
    rw [Nat.mul_comm]
    omega
  obtain ⟨r₁, s₁, d₁, hmalloc, -⟩ := hM.malloc hlt hpromised hgrants
  obtain ⟨rfl, rfl⟩ := eq_of_calloc hzero hover hlt hmalloc hcalloc
  have hexact := h.malloc hM hpromised hgrants hmalloc
  rw [add_setState] at hexact ⊢
  cases r with
  | none => exact hexact
  | some p => exact Core.Exact.congr hexact rfl rfl

/-- **`free`** of a live block keeps the books. -/
theorem free (h : w.Exact) (hM : w.Models d) (hptr : w.IsLive p)
    (hfree : w.state.free (some p) = some s) :
    ({ w.remove (some p) with state := s } : Process).Exact := by
  obtain ⟨b, hb, rfl⟩ := hptr
  rcases List.mem_append.mp hb with hb | hb
  · have hlegal : World.Legal ⟨w.state, w.small⟩ (.free b.1) := ⟨b, hb, rfl⟩
    obtain ⟨w', d', hw', hstep, hM'⟩ := World.simulates_free hM.small hM.inv hlegal
    rw [State.free, if_neg (by rw [hM.isLargeAlloc_small hb]; exact Bool.false_ne_true)] at hfree
    have hstate : w'.state = s := congrArg World.state (Option.some.inj (hw'.symm.trans
      (World.step_free hfree)))
    have hcore : s.toCore = d'.core := hstate ▸ hM'.refines.core
    have hexact : d.core.Exact w.large := hM.core ▸ h
    -- None of the large blocks is taken back.
    have hlarge : (w.large.filter fun b' => b'.1 ≠ b.1) = w.large := by
      refine List.filter_eq_self.mpr fun b' hb' => ?_
      simpa using (hM.ne_of_small_of_large hb hb').symm
    show Core.Exact s.toCore (w.large.filter fun b' => b'.1 ≠ b.1)
    rw [hlarge, hcore]
    exact hstep.exact hexact
  · rw [State.free, if_pos (hM.isLargeAlloc_large hb)] at hfree
    obtain rfl := Option.some.inj hfree
    have hlb : LargeBlock w.state.toCore b := hM.core ▸ hM.large b hb
    refine Core.Exact.unmap h hlb hb hM.apart (congrArg Core.mapped hlb.largeFree_eq) ?_
    show (w.state.toCore.largeFree b.1).superblocks = _
    rw [hlb.largeFree_eq]

/-- `realloc` that moves a block by `malloc`, a copy and `free`. -/
theorem realloc_move (h : w.Exact) (hM : w.Models d) (hpos : ¬size = 0) (hlt : size < 2 ^ 64)
    (hpromised : w.Promised size mmap) (hptr : w.IsLive p) (hgrants : w.Grants i size mmap)
    (hnot : (w.state.toCore.isLargeAlloc p && decide (maxBlockSize < size)) = false)
    (hcopies : size ≤ maxBlockSize → w.CopiesNoMark i p size mmap)
    (hrealloc : w.state.realloc (.thread i) (some p) size mmap = some (r, s)) :
    (({ w.remove (some p) with state := s } : Process).add size r).Exact := by
  obtain ⟨r₁, s₁, d₁, hmalloc, hM₁⟩ := hM.malloc hlt hpromised hgrants
  have h₁ := h.malloc hM hpromised hgrants hmalloc
  cases r₁ with
  | none =>
    have hptr : ({ w with state := s₁ } : Process).IsLive p := hptr
    obtain ⟨s₂, d₂, hfree, -⟩ := hM₁.free hptr
    obtain ⟨rfl, rfl⟩ := Prod.mk.inj (Option.some.inj (hrealloc.symm.trans
      (realloc_eq_none hpos hnot hmalloc hfree)))
    exact h₁.free hM₁ hptr hfree
  | some q =>
    have hne : q ≠ p := by
      rintro rfl
      exact hM₁.not_isLive hptr
    -- The copy changes bytes only.
    have hM₂ := hM₁.copy (numBytes_le w s₁ p size) fun hle => hcopies hle _ hmalloc q rfl
    obtain ⟨s₂, d₂, hfree, -⟩ := hM₂.free (hptr.add size (some q))
    have hcopy := hM₁.memcpy_eq hptr (hM.le_of_not_large hptr hnot)
    rw [← if_congr (hM.isLargeAlloc_iff hptr) rfl rfl] at hcopy
    have hfree' := hfree
    rw [← if_congr (hM.isLargeAlloc_iff hptr) rfl rfl] at hfree'
    obtain ⟨rfl, rfl⟩ := Prod.mk.inj (Option.some.inj (hrealloc.symm.trans
      (realloc_eq_some hpos hnot hmalloc hcopy hfree')))
    rw [add_setState] at h₁
    have h₂ : ({ w.add size (some q) with
        state := s₁.setCore (s₁.toCore.copy q p
          (if w.IsLarge p then size else min (s₁.getBlockSize p) size)) } : Process).Exact :=
      Core.Exact.congr h₁ rfl rfl
    rw [add_setState, ← add_remove hne]
    exact h₂.free hM₂ (hptr.add size (some q)) hfree

/-- **`large_realloc`** keeps the books. -/
theorem largeRealloc (h : w.Exact) (hM : w.Models d) {b : ℕ × ℕ} (hb : b ∈ w.large) {ptr : ℕ}
    {c : Core} (hsize : maxBlockSize < size) (hlt : size + sizeofMmapHeader < 2 ^ 64)
    (hptr : MapsFresh d.core.mapped ptr (pageUp (size + sizeofMmapHeader)))
    (hc : w.state.toCore.largeRealloc b.1 size (some ptr) = some (r, c)) :
    (({ w.remove (some b.1) with state := w.state.setCore c } : Process).add size r).Exact := by
  have hexact : d.core.Exact w.large := hM.core ▸ h
  rw [hM.core] at hc
  have hrealloc := hM.hosts.exact_largeRealloc hexact hb hlt hptr hc
  obtain ⟨rfl, -⟩ := Core.eq_of_largeRealloc (hM.large b hb) hlt hc
  rw [hM.remove_large hb, add, if_pos hsize]
  exact hrealloc

/-- **`realloc`** keeps the books. -/
theorem realloc (h : w.Exact) (hM : w.Models d)
    (hlegal : w.Legal (.realloc i (some p) size mmap))
    (htame : w.Tame (.realloc i (some p) size mmap))
    (hrealloc : w.state.realloc (.thread i) (some p) size mmap = some (r, s)) :
    (({ (if w.staysLarge (some p) size && r.isNone then w else w.remove (some p)) with
      state := s } : Process).add size r).Exact := by
  obtain ⟨hlt, hpromised, hlive⟩ := hlegal
  obtain ⟨hgrants, hrest⟩ := htame p rfl
  have hptr := hlive p rfl
  have hstays : w.staysLarge (some p) size =
      (w.state.toCore.isLargeAlloc p && decide (maxBlockSize < size)) := rfl
  by_cases hpos : size = 0
  · subst hpos
    obtain ⟨s₁, d₁, hfree, -⟩ := hM.free hptr
    obtain ⟨rfl, rfl⟩ := Prod.mk.inj (Option.some.inj (hrealloc.symm.trans
      (realloc_eq_free hfree)))
    rw [hstays, decide_eq_false (Nat.not_lt_zero _), Bool.and_false, Bool.false_and]
    exact h.free hM hptr hfree
  cases hnot : w.state.toCore.isLargeAlloc p && decide (maxBlockSize < size) with
  | false =>
    rw [hstays, hnot]
    refine h.realloc_move hM hpos hlt hpromised hptr hgrants hnot (fun hle => ?_) hrealloc
    rwa [if_neg (by omega)] at hrest
  | true =>
    obtain ⟨hisLarge, hsize⟩ := Bool.and_eq_true_iff.mp hnot
    have hsize := of_decide_eq_true hsize
    obtain ⟨b, hb, rfl⟩ := (hM.isLargeAlloc_iff hptr).mp hisLarge
    rw [hstays, hnot]
    cases mmap with
    | none =>
      obtain ⟨rfl, rfl⟩ := Prod.mk.inj (Option.some.inj (hrealloc.symm.trans
        (realloc_eq_large hisLarge hsize rfl)))
      exact h
    | some ptr =>
      have hne : some ptr ≠ none := Option.some_ne_none ptr
      have hover := hgrants.2 hsize hne
      have hfresh := hpromised ptr rfl
      rw [if_neg (by omega), add64_eq hover, hM.core] at hfresh
      obtain ⟨c, hc, rfl⟩ := exists_of_realloc_large hisLarge hsize hrealloc
      have hlb : LargeBlock w.state.toCore b := hM.core ▸ hM.large b hb
      obtain ⟨rfl, -⟩ := Core.eq_of_largeRealloc hlb hover hc
      exact h.largeRealloc hM hb hsize hover hfresh.2 hc

/-- **Every request keeps the books.** -/
theorem step (h : w.Exact) (hM : w.Models d) {req : Request} (hlegal : w.Legal req)
    (htame : w.Tame req) (hstep : w.step req = some w') : w'.Exact := by
  cases req with
  | malloc i size mmap =>
    obtain ⟨⟨r, s⟩, hmalloc, hstep⟩ := Option.bind_eq_some_iff.mp hstep
    obtain rfl := Option.some.inj hstep
    exact h.malloc hM hlegal.2 htame hmalloc
  | calloc i nmemb size mmap =>
    obtain ⟨⟨r, s⟩, hcalloc, hstep⟩ := Option.bind_eq_some_iff.mp hstep
    obtain rfl := Option.some.inj hstep
    exact h.calloc hM hlegal.2.2 htame hcalloc
  | realloc i ptr size mmap =>
    obtain ⟨⟨r, s⟩, hrealloc, hstep⟩ := Option.bind_eq_some_iff.mp hstep
    obtain rfl := Option.some.inj hstep
    cases ptr with
    | none =>
      obtain ⟨rfl, rfl⟩ := Prod.mk.inj (Option.some.inj hrealloc)
      exact h
    | some p => exact h.realloc hM hlegal htame hrealloc
  | free ptr =>
    obtain ⟨s, hfree, hstep⟩ := Option.bind_eq_some_iff.mp hstep
    obtain rfl := Option.some.inj hstep
    cases ptr with
    | none =>
      obtain rfl := Option.some.inj hfree
      exact h
    | some p => exact h.free hM (hlegal p rfl) hfree
  | write ptr off bytes =>
    obtain rfl := Option.some.inj hstep
    exact Core.Exact.congr h rfl rfl

end Exact

end Process

/-- **What is mapped** after every run of the public functions that does none of what
`MyMalloc.Process.Tame` excludes: the superblocks, and the pages of the large blocks that
are live. -/
theorem mapped_exact {reqs : List Request}
    (hreqs : Trace.Always Process.step (fun w req => w.Legal req ∧ w.Tame req) {} reqs) :
    ∃ w, Trace.run Process.step {} reqs = some w ∧ ∀ a, Covers w.state.mapped a ↔
      (∃ x ∈ w.state.superblocks, x ≤ a ∧ a < x + superblockSize) ∨
        ∃ b ∈ w.large, (spanOf b).1 ≤ a ∧ a < (spanOf b).1 + (spanOf b).2 := by
  have hrule : ∀ (w : Process) req, (∃ d, w.Models d) ∧ w.Exact → w.Legal req ∧ w.Tame req →
      ∃ w', w.step req = some w' ∧ (∃ d, w'.Models d) ∧ w'.Exact := by
    rintro w req ⟨⟨d, hM⟩, hexact⟩ ⟨hlegal, htame⟩
    obtain ⟨w', d', hw', hM'⟩ := hM.step hlegal htame
    exact ⟨w', hw', ⟨d', hM'⟩, hexact.step hM hlegal htame hw'⟩
  obtain ⟨w, hrun, -, hexact⟩ := Trace.run_of_always hrule
    ⟨⟨_, Process.models_initial⟩, fun a => by simp⟩ hreqs
  exact ⟨w, hrun, hexact⟩

/-- A small block, and a large one that is moved and freed: the superblock stays mapped. -/
theorem mapped_exact_freed : ∃ w,
    Trace.run Process.step {} [.malloc 0 16 (some 1048576), .malloc 0 200000 (some 4194304),
      .realloc 0 (some 4194320) 300000 (some 8388608), .free (some 8388624)] = some w ∧
    ∀ a, Covers w.state.mapped a ↔ 1048576 ≤ a ∧ a < 1048576 + superblockSize := by
  obtain ⟨w, hrun, hmapped⟩ := mapped_exact
    (show Trace.Always Process.step (fun w req => w.Legal req ∧ w.Tame req) {}
      [.malloc 0 16 (some 1048576), .malloc 0 200000 (some 4194304),
        .realloc 0 (some 4194320) 300000 (some 8388608), .free (some 8388624)] by decide +kernel)
  have hfacts : (Trace.run Process.step {} [.malloc 0 16 (some 1048576),
      .malloc 0 200000 (some 4194304), .realloc 0 (some 4194320) 300000 (some 8388608),
      .free (some 8388624)]).map (fun w => (w.state.superblocks, w.large)) =
      some ([1048576], []) := by
    decide +kernel
  rw [hrun, Option.map_some, Option.some_inj, Prod.mk.injEq] at hfacts
  refine ⟨w, hrun, fun a => ?_⟩
  rw [hmapped a, hfacts.1, hfacts.2]
  simp

end MyMalloc
