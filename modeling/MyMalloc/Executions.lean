import MyMalloc.SharedContents
import MyMalloc.NoLoss
import MyMalloc.WellFormed

/-!
# Invariants of interleaved executions

What one step of a thread keeps, an execution keeps (`MyMalloc.Machine.run_induction`).
Two results about all interleavings rest on this rule.

Every superblock is on exactly one list or in the hands of exactly one thread
(`MyMalloc.superblocks_filed_or_held`), under the condition on recycle lists that
sequential runs need as well. And when all threads have returned from their calls, the
state is well formed for the blocks that the clients own
(`MyMalloc.quiescent_wellFormed`): whatever the interleaving was, what is known of
sequential calls is true of the next one.
-/

namespace MyMalloc

open LinkedList Placement Locking ByteMemory Depot

namespace Machine

variable {T : Type} [DecidableEq T]

/-- **The rule of executions**: a property of the machine and its depot that calls, steps
of threads and writes keep – under a condition from which those of the invariant
follow – holds after every execution whose events meet the condition, and such an
execution meets no fault. -/
theorem run_induction {P : Machine T → Depot → Prop} {C : Machine T → Event T → Prop}
    (hC : ∀ m e, C m e → m.Legal e ∧ m.RespectsOwners e ∧ m.Matching e)
    (hinit : P {} ⟨{}, fun _ => [], [], []⟩)
    (hcall : ∀ (m : Machine T) d t c, m.Models d → P m d → C m (.call t c) →
      P ⟨m.state, m.threads.move t .work (Pc.start c), m.liveAfterCall c⟩ d)
    (hact : ∀ (m : Machine T) d t mmap pc' s' d', m.Models d → P m d → C m (.act t mmap) →
      d.ThreadStep (m.state.sourceAt (m.threads.point t)) (m.threads.point t) pc' d' →
      Frame d d' (m.threads.point t) pc' →
      Models ⟨s', m.threads.move t (m.threads.point t).action pc',
        m.liveAfterAct (m.threads.point t)⟩ d' →
      P ⟨s', m.threads.move t (m.threads.point t).action pc',
        m.liveAfterAct (m.threads.point t)⟩ d')
    (hwrite : ∀ (m : Machine T) d ptr off bytes, m.Models d → P m d → C m (.write ptr off bytes) →
      P ⟨m.state.setCore { m.state.toCore with mem := store m.state.mem (ptr + off) bytes },
        m.threads, m.live⟩ (d.setCore { d.core with mem := store d.core.mem (ptr + off) bytes }))
    {events : List (Event T)} (hevents : Trace.Always Machine.step C {} events) :
    ∃ m d, Trace.run Machine.step {} events = some m ∧ m.Models d ∧ P m d := by
  have hrule : ∀ (m : Machine T) e, (∃ d, m.Models d ∧ P m d) → C m e →
      ∃ m', m.step e = some m' ∧ ∃ d, m'.Models d ∧ P m' d := by
    rintro m e ⟨d, hM, hP⟩ hc
    obtain ⟨hlegal, howners, hmatch⟩ := hC m e hc
    cases e with
    | call t c => exact ⟨_, rfl, d, hM.call hlegal, hcall m d t c hM hP hc⟩
    | act t mmap =>
      obtain ⟨pc', s', d', hadv, hM', hstep, hframe⟩ := hM.takes hlegal howners hmatch
      exact ⟨_, step_act hadv, d', hM', hact m d t mmap pc' s' d' hM hP hc hstep hframe hM'⟩
    | write ptr off bytes => exact ⟨_, rfl, _, hM.written hlegal, hwrite m d _ _ _ hM hP hc⟩
  obtain ⟨m, hrun, d, hM, hP⟩ := Trace.run_of_always hrule ⟨_, models_initial, hinit⟩ hevents
  exact ⟨m, d, hrun, hM, hP⟩

end Machine

/-! ### No superblock is lost -/

namespace Depot

variable {d d' : Depot} {src : Source} {pc pc' : Pc} {x : ℕ}

/-- A superblock that is mapped comes into hands. -/
theorem Kept.fresh (h : d.Kept) {c : Core} {mmap : Option ℕ} {sizeClass : ℕ}
    (hc : d.core.allocateNewSuperblock mmap = (some x, c)) : (d.fresh x sizeClass c).Kept := by
  intro y hy
  have hsb : (d.fresh x sizeClass c).core.superblocks = x :: d.core.superblocks := by
    rw [← (Core.allocateNewSuperblock_frame hc).2.2.1]
    rfl
  rw [hsb] at hy
  rcases List.mem_cons.mp hy with rfl | hy
  · exact Or.inl (List.mem_cons_self ..)
  · exact (h y hy).imp_left (List.mem_cons_of_mem _)

/-- **A step of a thread loses no superblock**, if a recycle list it recycles from has no
other. -/
theorem Kept.threadStep (h : d.Kept) (hd : d.Inv)
    (hone : ∀ i size x, pc = .allocLocal i size → src = .recycled x →
      d.lists (.recycle (.thread i)) = [x])
    (hstep : d.ThreadStep src pc pc' d') : d'.Kept := by
  cases hstep with
  | passive => exact h
  | @served _ i size x p d₁ header hsize hlocal hsrc hacquires hserves =>
    have hkept := h.acquires hd hsrc (fun x hx => hone _ _ x rfl hx) hacquires
    have hserved : (d₁.serve x p header size).Kept := hkept.congr rfl rfl rfl
    exact hserved.put.setCore rfl
  | notServed => exact h
  | fetchedBin he hx => exact h.take hd hx
  | @fetchedRecycled _ _ x l hx =>
    exact (h.take hd (hx ▸ List.mem_cons_self ..)).congr (d.popGlobal_superblocks x) rfl rfl
  | notFetched => exact h
  | mapped hsize hptr hc => exact h.fresh hc
  | notMapped => exact h.setCore rfl
  | owned => exact h.setCore rfl
  | @filed _ i size x p new header hsize hready hserves =>
    have hserved : ((d.countedIn i x new).serve x p header size).Kept := by
      cases new <;> exact h.congr rfl rfl rfl
    exact hserved.put.setCore rfl
  | freedGlobal hx hptr => exact h.takeBack hd hx
  | freed hx hptr => exact (h.takeBack hd hx).setCore rfl
  | @taken _ ptr i b e y place hx hptr hempty hy =>
    have htake : (d.takeBackCounted (.thread i) b e (superblockOf ptr) ptr).Kept :=
      (h.takeBack hd hx).setCore rfl
    exact htake.take (hd.takeBackCounted hx hptr) hy
  | @moved _ ptr i y place =>
    have howned : (d.own y .global).Kept := h.setCore rfl
    exact howned.put
  | counted => exact h.setCore rfl

end Depot

namespace Machine

variable {T : Type} {m : Machine T} {d : Depot} {t : T}

/-- **Every superblock is on exactly one list or in exactly one hand**, for the lists that
the pointers lay out. -/
structure AllFiled (m : Machine T) (lists : Lists) : Prop where
  represents : Represents m.state lists
  /-- No superblock is on two lists, nor twice on one. -/
  distinct : Distinct lists
  filed : ∀ x ∈ m.state.superblocks,
    (∃ p, x ∈ lists p) ∨ ∃ t, (m.threads.point t).hand = some x
  /-- What a thread has in hand is on no list. -/
  held : ∀ t x, (m.threads.point t).hand = some x → x ∈ m.state.superblocks ∧ ∀ p, x ∉ lists p
  once : ∀ t u x, (m.threads.point t).hand = some x → (m.threads.point u).hand = some x → t = u

/-- `bin_alloc` recycles only from a list of one superblock. -/
def RecyclesLast (m : Machine T) : Event T → Prop
  | .act t _ => ∀ x, m.state.sourceAt (m.threads.point t) = .recycled x → m.state.next x = none
  | _ => True

instance (m : Machine T) : DecidablePred m.RecyclesLast
  | .act t _ =>
    match h : m.state.sourceAt (m.threads.point t) with
    | .recycled x => decidable_of_iff (m.state.next x = none) (by simp [RecyclesLast, h])
    | .bin .. | .globalBin .. | .globalRecycled _ | .new => isTrue (by simp [RecyclesLast, h])
  | .call .. | .write .. => isTrue trivial

/-- The recycle list an allocation uses has one superblock. -/
theorem Models.recyclesLast (h : m.Models d) {mmap : Option ℕ} {i size x : ℕ}
    (hlast : m.RecyclesLast (.act t mmap)) (hpc : m.threads.point t = .allocLocal i size)
    (hsrc : m.state.sourceAt (m.threads.point t) = .recycled x) :
    d.lists (.recycle (.thread i)) = [x] := by
  have hnext := hlast x hsrc
  rw [hpc] at hsrc
  have hhead := h.refines.represents.head_recycle (.thread i)
  rw [State.source_recycled hsrc] at hhead
  obtain ⟨l, hl⟩ := List.head?_eq_some_iff.mp hhead.symm
  rw [h.refines.represents.next_recycled hl, List.head?_eq_none_iff] at hnext
  rw [hl, hnext]

theorem Models.allFiled (h : m.Models d) (hkept : d.Kept) : m.AllFiled d.lists where
  represents := h.refines.represents
  distinct := h.inv.distinct
  filed x hx := by
    rw [h.refines.core] at hx
    exact (hkept x hx).symm.imp_right (h.transit x)
  held t x hx := by
    have htransit := (h.points t).hand x hx
    rw [h.refines.core]
    exact ⟨h.inv.transit_known x htransit, h.inv.transit_nowhere x htransit⟩
  once t u x ht hu := by
    by_contra hne
    exact (h.apart t u hne).hand x ht hu

end Machine

/-- **No superblock is lost in any interleaving** in which no thread disturbs another, no
superblock comes from the recycle list of the global heap to another class than its own,
and `bin_alloc` recycles only from lists of one superblock: at every moment every
superblock is on exactly one list, or exactly one thread has it in hand. -/
theorem superblocks_filed_or_held {T : Type} [DecidableEq T] {events : List (Event T)}
    (h : Trace.Always Machine.step (fun m e =>
      (m.Legal e ∧ m.RespectsOwners e ∧ m.Matching e) ∧ m.RecyclesLast e) {} events) :
    ∃ m, Trace.run Machine.step {} events = some m ∧ ∃ lists, m.AllFiled lists := by
  obtain ⟨m, d, hrun, hM, hkept⟩ := Machine.run_induction (P := fun _ d => Kept d)
    (fun _ _ h => h.1) (fun _ h => absurd h List.not_mem_nil) (fun _ _ _ _ _ hkept _ => hkept)
    (fun m d t mmap pc' s' d' hM hkept hc hstep _ _ => hkept.threadStep hM.inv
      (fun i size x hpc hsrc => hM.recyclesLast hc.2 hpc hsrc) hstep)
    (fun _ _ _ _ _ _ hkept _ => hkept.setCore rfl) h
  exact ⟨m, hrun, d.lists, hM.allFiled hkept⟩

/-- One thread recycles a superblock, the other has mapped one and is about to assign its
owner. -/
def recycleDuringMapping : List (Event Bool) :=
  allocNewEvents false 0 16 1048576 ++
    .call true (.heapAlloc 1 32) :: .call false (.heapFree 1048704) ::
    List.replicate 5 (.act true none) ++ List.replicate 6 (.act false none) ++
    .act true (some 2097152) :: .call false (.heapAlloc 0 48) :: List.replicate 3 (.act false none)

/-- The superblock of the second thread is in its hands. -/
theorem superblocks_filed_or_held_mapped : ∃ m,
    Trace.run Machine.step {} recycleDuringMapping = some m ∧ (∃ lists, m.AllFiled lists) ∧
      m.state.superblocks = [2097152, 1048576] ∧
      (m.threads.point true).hand = some 2097152 := by
  have hlegal : Trace.Always Machine.step (fun m e =>
      (m.Legal e ∧ m.RespectsOwners e ∧ m.Matching e) ∧ m.RecyclesLast e) {}
      recycleDuringMapping := by
    decide +kernel
  obtain ⟨m, hrun, hfiled⟩ := superblocks_filed_or_held hlegal
  have hfacts : (Trace.run Machine.step {} recycleDuringMapping).map (fun m =>
      (m.state.superblocks, (m.threads.point true).hand)) =
      some ([2097152, 1048576], some 2097152) := by
    decide +kernel
  rw [hrun, Option.map_some, Option.some_inj, Prod.mk.injEq] at hfacts
  exact ⟨m, hrun, hfiled, hfacts⟩

/-! ### Quiescent states -/

namespace Pc

/-- **The block a thread has** stays with it, unless it frees it or returns it. -/
theorem Next.block {pc pc' : Pc} {a : Action Mutex} {p : ℕ} (h : Next pc a pc')
    (hp : pc.block = some p) : pc'.block = some p ∨ pc.frees = some p ∨
      ∃ i size, pc = .allocUnlock i size (some p) := by
  cases h with
  | allocUnlock i size retPtr =>
    obtain rfl : retPtr = some p := hp
    exact Or.inr (Or.inr ⟨i, size, rfl⟩)
  | freeLockSuperblock => exact Or.inl hp
  | freeOwner => exact Or.inl hp
  | freeLock => exact Or.inl hp
  | freeBin_kept => exact Or.inr (Or.inl hp)
  | freeBin_moved => exact Or.inr (Or.inl hp)
  | _ => cases hp

end Pc

/-- The order of the live blocks of a superblock does not matter. -/
theorem Carved.perm {header : SuperblockHeader} {mem : Mem} {live live' : List ℕ} {x : ℕ}
    (h : Carved header mem live x) (hperm : live'.Perm live) : Carved header mem live' x := by
  obtain ⟨free, hs⟩ := h.sound
  exact ⟨h.magic, h.isClass, free, { hs with perm := (hperm.append_right free).trans hs.perm }⟩

namespace Depot

variable {d d' : Depot} {src : Source} {pc pc' : Pc}

/-- **The order of the live blocks does not matter.** -/
theorem Inv.perm (hd : d.Inv) {live : List (ℕ × ℕ)} (hperm : live.Perm d.live) :
    Inv { d with live := live } := by
  have hliveIn : ∀ x, (liveIn live x).Perm (liveIn d.live x) := fun x =>
    (hperm.map Prod.fst).filter _
  exact { hd with
    carved := fun x hx => (hd.carved x hx).perm (hliveIn x)
    live_known := fun b hb => hd.live_known b (hperm.mem_iff.mp hb)
    covered := fun x hx hne => hd.covered x hx fun hc => hne (hc ▸ hliveIn x).eq_nil }

/-- A step that does something to the depot is one of the protocol. -/
theorem ThreadStep.next (h : d.ThreadStep src pc pc' d') : pc.Next pc.action pc' := by
  cases h with
  | passive hnext => exact hnext
  | served => exact .allocLocal_found ..
  | notServed => exact .allocLocal_none ..
  | fetchedBin => exact .globalFetch ..
  | fetchedRecycled => exact .globalFetch ..
  | notFetched => exact .globalFetch ..
  | mapped => exact .allocNew_some ..
  | notMapped => exact .allocNew_none ..
  | owned => exact .allocOwn ..
  | filed => exact .allocFrom ..
  | freedGlobal => exact .freeBin_kept ..
  | freed => exact .freeBin_kept ..
  | taken => exact .freeBin_moved ..
  | moved => exact .movePut ..
  | counted => exact .moveCount ..

/-- **The live blocks after a step**: the one the thread comes by, and those from before
that it does not free. -/
theorem ThreadStep.live (h : d.ThreadStep src pc pc' d') {b : ℕ × ℕ} (hb : b ∈ d'.live) :
    pc'.block = some b.1 ∨ b ∈ d.live ∧ pc.frees ≠ some b.1 := by
  have hfilter : ∀ {ptr}, (b ∈ d.live.filter fun b => b.1 ≠ ptr) →
      b ∈ d.live ∧ some ptr ≠ some b.1 :=
    fun h => ⟨List.mem_of_mem_filter h,
      fun hc => by simp [Option.some.inj hc] at h⟩
  cases h with
  | passive _ hpc =>
    refine Or.inr ⟨hb, fun hc => ?_⟩
    cases pc with
    | freeBin => exact hpc
    | _ => cases hc
  | served _ _ _ hacquires =>
    rcases List.mem_cons.mp hb with rfl | hb
    · exact Or.inl rfl
    · exact Or.inr ⟨hacquires.live ▸ hb, nofun⟩
  | filed =>
    rcases List.mem_cons.mp hb with rfl | hb
    · exact Or.inl rfl
    · exact Or.inr ⟨hb, nofun⟩
  | freedGlobal => exact Or.inr (hfilter hb)
  | freed => exact Or.inr (hfilter hb)
  | taken => exact Or.inr (hfilter hb)
  | _ => exact Or.inr ⟨hb, nofun⟩

end Depot

namespace Machine

variable {T : Type} {m : Machine T} {d d' : Depot} {t : T}

/-- **Every live block is somebody's**: a client owns it, or a thread has it. No two
clients own one block. -/
structure Held (m : Machine T) (d : Depot) : Prop where
  nodup : (m.live.map Prod.fst).Nodup
  block : ∀ b ∈ d.live, b ∈ m.live ∨ ∃ t, (m.threads.point t).block = some b.1

variable [DecidableEq T]

/-- A block that is freed passes from its client to the thread. -/
theorem Held.call (h : m.Held d) {c : Call} (hlegal : m.Legal (.call t c)) :
    Held ⟨m.state, m.threads.move t .work (Pc.start c), m.liveAfterCall c⟩ d := by
  have hpoint : ∀ u b, (m.threads.point u).block = some b →
      ((m.threads.move t .work (Pc.start c)).point u).block = some b := by
    rintro u b hu
    by_cases hut : u = t
    · subst hut
      have hidle : m.threads.point u = .idle := by cases c <;> exact hlegal.1
      rw [hidle] at hu
      cases hu
    · rw [m.threads.move_of_ne hut]
      exact hu
  cases c with
  | heapAlloc i size =>
    exact ⟨h.nodup, fun b hb => (h.block b hb).imp_right fun ⟨u, hu⟩ => ⟨u, hpoint u _ hu⟩⟩
  | heapFree ptr =>
    refine ⟨h.nodup.sublist (List.filter_sublist.map Prod.fst), fun b hb => ?_⟩
    rcases h.block b hb with hb | ⟨u, hu⟩
    · by_cases hptr : b.1 = ptr
      · refine Or.inr ⟨t, ?_⟩
        rw [System.move_self, hptr]
        rfl
      · exact Or.inl (List.mem_filter.mpr ⟨hb, by simpa using hptr⟩)
    · exact Or.inr ⟨u, hpoint u _ hu⟩

/-- A thread comes by a block, returns it to its client, or frees it. -/
theorem Held.act (h : m.Held d) (hM : m.Models d) {src : Source} {pc' : Pc} {s' : State}
    (hstep : d.ThreadStep src (m.threads.point t) pc' d') :
    Held ⟨s', m.threads.move t (m.threads.point t).action pc',
      m.liveAfterAct (m.threads.point t)⟩ d' := by
  have hself := m.threads.move_self t (m.threads.point t).action pc'
  have hmem : ∀ b ∈ m.live, b ∈ m.liveAfterAct (m.threads.point t) := by
    intro b hb
    cases hpc : m.threads.point t with
    | allocUnlock i size retPtr =>
      cases retPtr with
      | none => exact hb
      | some p => exact List.mem_cons_of_mem _ hb
    | _ => exact hb
  refine ⟨hM.nodup_liveAfterAct h.nodup t, fun b hb => ?_⟩
  rcases hstep.live hb with hnew | ⟨hb, hfrees⟩
  · exact Or.inr ⟨t, hself.symm ▸ hnew⟩
  rcases h.block b hb with hb | ⟨u, hu⟩
  · exact Or.inl (hmem b hb)
  by_cases hut : u = t
  · subst hut
    rcases hstep.next.block hu with hu | hc | ⟨i, size, hpc⟩
    · exact Or.inr ⟨u, hself.symm ▸ hu⟩
    · exact absurd hc hfrees
    · -- The thread returns the block, which is live with the size of the request.
      have hknows := (hM.points u).knows
      rw [hpc] at hknows
      have hsize : b = (b.1, size) :=
        List.inj_on_of_nodup_map hM.inv.live_nodup hb (hknows _ rfl) rfl
      rw [hpc]
      exact Or.inl (hsize ▸ List.mem_cons_self ..)
  · exact Or.inr ⟨u, (m.threads.move_of_ne hut ..).symm ▸ hu⟩

omit [DecidableEq T] in
/-- **Between calls the state is well formed** for the blocks of the clients. -/
theorem Held.wellFormed (h : m.Held d) (hM : m.Models d)
    (hidle : ∀ t, m.threads.point t = .idle) : World.WellFormed ⟨m.state, m.live⟩ := by
  have htransit : d.transit = [] := by
    refine List.eq_nil_iff_forall_not_mem.mpr fun x hx => ?_
    obtain ⟨t, ht⟩ := hM.transit x hx
    rw [hidle t] at ht
    cases ht
  have hperm : m.live.Perm d.live := by
    refine (List.perm_ext_iff_of_nodup h.nodup.of_map hM.inv.live_nodup.of_map).mpr fun b => ?_
    refine ⟨hM.client b, fun hb => (h.block b hb).resolve_right ?_⟩
    rintro ⟨t, ht⟩
    rw [hidle t] at ht
    cases ht
  refine ⟨d.lists, hM.refines.represents, ?_⟩
  have hinv := hM.inv.perm hperm
  rw [htransit, ← hM.refines.core] at hinv
  exact hinv

end Machine

/-- **What interleaved calls leave behind is a well-formed state**, if no thread disturbs
another and no superblock comes from the recycle list of the global heap to another class
than its own: whenever no thread is in a call, no mutex is locked, and the allocator with
the blocks of the clients is as after sequential calls. -/
theorem quiescent_wellFormed {T : Type} [DecidableEq T] {events : List (Event T)}
    (h : Trace.Always Machine.step (fun m e => m.Legal e ∧ m.RespectsOwners e ∧ m.Matching e) {}
      events) :
    ∃ m, Trace.run Machine.step {} events = some m ∧ ((∀ t, m.threads.point t = .idle) →
      (∀ l, m.threads.holder l = none) ∧ World.WellFormed ⟨m.state, m.live⟩) := by
  obtain ⟨m, d, hrun, hM, hheld⟩ := Machine.run_induction (P := Machine.Held)
    (fun _ _ h => h) ⟨List.nodup_nil, fun _ h => absurd h List.not_mem_nil⟩
    (fun m d t c _ hheld hc => hheld.call hc.1)
    (fun m d t mmap pc' s' d' hM hheld _ hstep _ _ => hheld.act hM hstep)
    (fun m d ptr off bytes _ hheld _ => ⟨hheld.nodup, hheld.block⟩) h
  refine ⟨m, hrun, fun hidle => ⟨fun l => ?_, hheld.wellFormed hM hidle⟩⟩
  rw [Option.eq_none_iff_forall_ne_some]
  rintro t ht
  have hmem := (hM.consistent l t).mp ht
  rw [hidle t] at hmem
  exact absurd hmem List.not_mem_nil

/-- Two threads free blocks of one heap, and return. -/
def bothFreed : List (Event Bool) :=
  bothFree ++ List.replicate 3 (.act true none) ++ List.replicate 4 (.act false none)

/-- Both are between two calls. -/
theorem quiescent_wellFormed_freed : ∃ m, Trace.run Machine.step {} bothFreed = some m ∧
    (∀ l, m.threads.holder l = none) ∧ World.WellFormed ⟨m.state, m.live⟩ := by
  have hlegal : Trace.Always Machine.step (fun m e =>
      m.Legal e ∧ m.RespectsOwners e ∧ m.Matching e) {} bothFreed := by
    decide +kernel
  obtain ⟨m, hrun, h⟩ := quiescent_wellFormed hlegal
  have hidle : (Trace.run Machine.step {} bothFreed).map (fun m =>
      (m.threads.point true, m.threads.point false)) = some (.idle, .idle) := by
    decide +kernel
  rw [hrun, Option.map_some, Option.some_inj, Prod.mk.injEq] at hidle
  exact ⟨m, hrun, h fun t => by cases t; exacts [hidle.2, hidle.1]⟩

end MyMalloc
