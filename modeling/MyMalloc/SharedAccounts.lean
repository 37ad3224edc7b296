import MyMalloc.Executions
import MyMalloc.Emptiness

/-!
# The accounts under interleaving

`alloced` of a heap is meant to be the size of the superblocks that it owns. The two are
not changed together: `bin_alloc` assigns the owner of a superblock before it counts it,
and `transfer_sb_to_global` assigns the new owner of one that `heap_free` discounts
later. In between the account is off by one superblock, and the thread that is about to
settle it holds the mutex of the heap (`MyMalloc.Pc.due`). So the account is right
whenever the mutex is free (`MyMalloc.alloced_exact`).
-/

namespace MyMalloc

open LinkedList Placement Locking Depot

namespace Pc

/-- **What a thread owes to the account of a heap**: superblocks that are owned and not
counted yet, less those that are counted and not owned any more. -/
def due (i : ℕ) : Pc → ℤ
  | .allocFrom j .. => if j = i then 1 else 0
  | .moveUnlock _ j => if j = i then -1 else 0
  | .moveCount _ j => if j = i then -1 else 0
  | _ => 0

/-- A thread that owes something to a heap holds its mutex. -/
theorem due_of_not_mem {pc : Pc} {i : ℕ} (h : .heap (.thread i) ∉ pc.held) : pc.due i = 0 := by
  cases pc with
  | allocFrom j =>
    refine if_neg ?_
    rintro rfl
    exact h (List.mem_cons_self ..)
  | moveUnlock ptr j =>
    refine if_neg ?_
    rintro rfl
    exact h (List.mem_cons_of_mem _ (List.mem_cons_self ..))
  | moveCount ptr j =>
    refine if_neg ?_
    rintro rfl
    exact h (List.mem_cons_self ..)
  | _ => rfl

theorem due_bounds (i : ℕ) (pc : Pc) : -1 ≤ pc.due i ∧ pc.due i ≤ 1 := by
  cases pc <;> simp only [due] <;> first | (split <;> decide) | decide

/-- The superblock a thread in `bin_alloc` has come by, until its owner is assigned. -/
def unassigned : Pc → Option ℕ
  | .globalUnlock _ _ found => found
  | .allocOwn _ _ x _ => some x
  | _ => none

theorem hand_of_unassigned {pc : Pc} {x : ℕ} (h : pc.unassigned = some x) : pc.hand = some x := by
  cases pc with
  | globalUnlock => exact h
  | allocOwn => exact h
  | _ => cases h

end Pc

/-! ### One step -/

namespace Core

variable {c c' : Core} {i x : ℕ}

/-- What the account of a heap has too much. -/
def surplus (c : Core) (i : ℕ) : ℤ :=
  (c.usage (.thread i)).alloced - superblockSize * c.ownedBy (.thread i)

theorem surplus_congr (halloced : (c'.usage (.thread i)).alloced = (c.usage (.thread i)).alloced)
    (hsb : c'.superblocks = c.superblocks)
    (howner : ∀ x, (c'.header x).owner = (c.header x).owner) : c'.surplus i = c.surplus i := by
  rw [surplus, surplus, halloced, ownedBy_congr hsb howner]

/-- The owner that is assigned. -/
theorem setOwner_owner (c : Core) (x : ℕ) (heap : HeapId) :
    ((c.setOwner x heap).header x).owner = some heap := by
  simp only [setOwner, setHeader, Function.update_self]

/-- A superblock comes to a heap. -/
theorem ownedBy_setOwner (hnd : c.superblocks.Nodup) (hx : x ∈ c.superblocks) {heap : HeapId}
    (hother : (c.header x).owner ≠ some heap) :
    (c.setOwner x heap).ownedBy heap = c.ownedBy heap + 1 := by
  refine (countP_of_eq_off hnd hx (fun y hy => ?_) ?_ ?_).symm
  · rw [setOwner_header_of_ne hy]
  · exact decide_eq_true (c.setOwner_owner x heap)
  · exact decide_eq_false hother

/-- A superblock leaves a heap. -/
theorem ownedBy_setOwner_of_ne (hnd : c.superblocks.Nodup) (hx : x ∈ c.superblocks)
    {heap heap' : HeapId} (howner : (c.header x).owner = some heap) (hne : heap' ≠ heap) :
    (c.setOwner x heap').ownedBy heap + 1 = c.ownedBy heap := by
  refine countP_of_eq_off hnd hx (fun y hy => ?_) (decide_eq_true howner) ?_
  · rw [setOwner_header_of_ne hy]
  · rw [setOwner_owner]
    exact decide_eq_false fun hc => hne (Option.some.inj hc)

/-- A third heap owns what it owned. -/
theorem ownedBy_setOwner_of_other {heap heap' : HeapId} (hother : (c.header x).owner ≠ some heap)
    (hne : heap' ≠ heap) : (c.setOwner x heap').ownedBy heap = c.ownedBy heap := by
  refine List.countP_congr fun y _ => ?_
  by_cases hyx : y = x
  · subst hyx
    simp [setOwner_owner, hother, hne]
  · rw [setOwner_header_of_ne hyx]

end Core

namespace Depot

variable {d d' d₁ : Depot} {src : Source} {pc pc' : Pc} {i x : ℕ}

/-- A superblock of the heap's own lists is on its account already. -/
theorem Acquires.surplus {heap : HeapId} {b : ℕ} (hlocal : src.Local)
    (h : d.Acquires heap b src x d₁) (i : ℕ) : d₁.core.surplus i = d.core.surplus i := by
  cases h with
  | bin => rfl
  | recycled =>
    refine Core.surplus_congr rfl rfl fun y => ?_
    by_cases hyx : y = x
    · subst hyx
      rw [recycle_header]
      rfl
    · exact congrArg SuperblockHeader.owner (Function.update_of_ne hyx ..)
  | globalBin => exact hlocal.elim
  | globalRecycled => exact hlocal.elim
  | new => exact hlocal.elim

/-- Handing out a block changes no owner, and `alloced` of no heap. -/
theorem surplus_handOut {heap : HeapId} {b p size : ℕ} {header : SuperblockHeader}
    (hsame : SameCarving (d.core.header x) header) (i : ℕ) :
    (d.handOut heap b x p header size).core.surplus i = d.core.surplus i := by
  refine Core.surplus_congr Core.incUsage_alloced rfl fun y => ?_
  show ((Function.update d.core.header x header) y).owner = _
  by_cases hyx : y = x
  · subst hyx
    rw [Function.update_self, hsame.owner]
  · rw [Function.update_of_ne hyx]

/-- A superblock that is mapped is nobody's yet. -/
theorem Inv.surplus_fresh (hd : d.Inv) {ptr sizeClass : ℕ} {c : Core}
    (hptr : MapsFresh d.core.mapped ptr (2 * superblockSize))
    (hc : d.core.allocateNewSuperblock (some ptr) = (some x, c)) (i : ℕ) :
    (d.fresh x sizeClass c).core.surplus i = d.core.surplus i := by
  obtain ⟨husage, hheader, hsb, -⟩ := Core.allocateNewSuperblock_frame hc
  have hnew := hd.not_mem_of_fresh hptr hc
  have hother : ∀ y ∈ d.core.superblocks,
      (c.initHeader x sizeClass).header y = d.core.header y := by
    intro y hy
    have hyx : y ≠ x := fun hc => hnew (hc ▸ hy)
    rw [← hheader]
    exact Function.update_of_ne hyx ..
  have hself : ((c.initHeader x sizeClass).header x).owner = none := by
    simp only [Core.initHeader, Core.setHeader, Function.update_self]
    rfl
  have howned : (c.initHeader x sizeClass).ownedBy (.thread i) = d.core.ownedBy (.thread i) := by
    have hcons : (c.initHeader x sizeClass).superblocks = x :: d.core.superblocks := by
      rw [← hsb]
      rfl
    rw [Core.ownedBy, hcons, List.countP_cons_of_neg (by rw [hself]; simp)]
    exact List.countP_congr fun y hy => by rw [hother y hy]
  show (c.initHeader x sizeClass).surplus i = _
  rw [Core.surplus, Core.surplus, howned, ← husage]
  rfl

/-- Counting a superblock in hand settles what its heap owes. -/
theorem surplus_countedIn {j : ℕ} {new : Bool}
    (hlt : (d.core.usage (.thread i)).alloced + superblockSize < 2 ^ 64) :
    (d.countedIn j x new).core.surplus i =
      d.core.surplus i + superblockSize * if j = i then 1 else 0 := by
  have howned : (d.countedIn j x new).core.ownedBy (.thread i) = d.core.ownedBy (.thread i) := by
    cases new <;> rfl
  have halloced : ((d.countedIn j x new).core.usage (.thread i)).alloced =
      (d.core.usage (.thread i)).alloced + if j = i then superblockSize else 0 := by
    by_cases hj : j = i
    · subst hj
      rw [if_pos rfl, ← add64_eq hlt]
      cases new with
      | true => exact Core.incAlloced_alloced_self
      | false =>
        exact Core.incAlloced_alloced_self.trans
          (congrArg (add64 · superblockSize) Core.incUsage_alloced)
    · have hne : HeapId.thread i ≠ .thread j := HeapId.thread_ne fun hc => hj hc.symm
      rw [if_neg hj, add_zero]
      cases new with
      | true => exact congrArg Usage.alloced (Core.incAlloced_usage_of_ne hne)
      | false =>
        exact congrArg Usage.alloced
          ((Core.incAlloced_usage_of_ne hne).trans (Core.incUsage_usage_of_ne hne))
  rw [Core.surplus, Core.surplus, howned, halloced]
  split <;> push_cast <;> ring

/-- Discounting a superblock, too. -/
theorem surplus_decAlloced {j : ℕ}
    (hlt : (d.core.usage (.thread i)).alloced + superblockSize < 2 ^ 64)
    (hle : j = i → superblockSize ≤ (d.core.usage (.thread i)).alloced) :
    (d.core.decAlloced (.thread j) superblockSize).surplus i =
      d.core.surplus i - superblockSize * if j = i then 1 else 0 := by
  have howned : (d.core.decAlloced (.thread j) superblockSize).ownedBy (.thread i) =
      d.core.ownedBy (.thread i) := rfl
  rw [Core.surplus, Core.surplus, howned]
  by_cases hj : j = i
  · subst hj
    have hle := hle rfl
    rw [Core.decAlloced_alloced hle (by omega), if_pos rfl, Nat.cast_sub hle]
    ring
  · have hne : HeapId.thread i ≠ .thread j := HeapId.thread_ne fun hc => hj hc.symm
    rw [Core.decAlloced_usage_of_ne hne, if_neg hj]
    ring

/-- Taking a block back changes no owner, and `alloced` of no heap. -/
theorem Inv.surplus_takeBack (hd : d.Inv) {bm : BinPtr} {e ptr : ℕ} (hx : x ∈ d.lists (.bin bm e))
    (hptr : ptr ∈ liveIn d.live x) (i : ℕ) :
    (d.takeBack bm e x ptr).core.surplus i = d.core.surplus i :=
  Core.surplus_congr rfl rfl fun y => (hd.takeBack_same hx hptr y).owner

theorem Inv.surplus_takeBackCounted (hd : d.Inv) {j b e ptr : ℕ}
    (hx : x ∈ d.lists (.bin (.thread j, b) e)) (hptr : ptr ∈ liveIn d.live x) (i : ℕ) :
    (d.takeBackCounted (.thread j) b e x ptr).core.surplus i = d.core.surplus i :=
  (Core.surplus_congr Core.decUsage_alloced rfl fun _ => rfl).trans (hd.surplus_takeBack hx hptr i)

/-- **What a step does to an account** is what it does to the debt of its thread. -/
theorem ThreadStep.surplus (hd : d.Inv) (hat : d.At pc)
    (hforeign : ∀ x, pc.unassigned = some x → ∀ i, (d.core.header x).owner ≠ some (.thread i))
    (hlt : (d.core.usage (.thread i)).alloced + superblockSize < 2 ^ 64)
    (hle : pc.due i = -1 → superblockSize ≤ (d.core.usage (.thread i)).alloced)
    (h : d.ThreadStep src pc pc' d') :
    d'.core.surplus i + superblockSize * pc'.due i =
      d.core.surplus i + superblockSize * pc.due i := by
  cases h with
  | passive hnext hpc =>
    cases hnext with
    | allocLocal_found => exact hpc.elim
    | allocLocal_none => exact hpc.elim
    | globalFetch => exact hpc.elim
    | allocNew_some => exact hpc.elim
    | allocNew_none => exact hpc.elim
    | allocOwn => exact hpc.elim
    | allocFrom => exact hpc.elim
    | freeBin_kept => exact hpc.elim
    | freeBin_moved => exact hpc.elim
    | movePut => exact hpc.elim
    | moveCount => exact hpc.elim
    | _ => rfl
  | served hsize hlocal hsrc hacquires hserves =>
    rw [surplus_handOut hserves.same, hacquires.surplus hlocal]
    rfl
  | notServed => rfl
  | fetchedBin => rfl
  | @fetchedRecycled _ _ x =>
    have hpop : (d.popGlobal x).core.surplus i = d.core.surplus i :=
      Core.surplus_congr (by rw [popGlobal_usage]) (d.popGlobal_superblocks x)
        fun y => by rw [popGlobal_header]
    rw [hpop]
    rfl
  | notFetched => rfl
  | mapped hsize hptr hc =>
    rw [hd.surplus_fresh hptr hc]
    rfl
  | @notMapped _ j size =>
    have hcounted : (d.core.incUsage (.thread j) (idx2class (binOf size))).surplus i =
        d.core.surplus i := Core.surplus_congr Core.incUsage_alloced rfl fun _ => rfl
    exact congrArg (· + (superblockSize * 0 : ℤ)) hcounted
  | @owned _ j size x new =>
    have hx := hd.transit_known x (hat.hand x rfl)
    have hforeign := hforeign x rfl
    show (d.core.setOwner x (.thread j)).surplus i + superblockSize * (if j = i then 1 else 0) =
      d.core.surplus i + superblockSize * 0
    by_cases hj : j = i
    · subst hj
      rw [Core.surplus, Core.ownedBy_setOwner hd.superblocks_nodup hx (hforeign j), if_pos rfl,
        Core.surplus]
      push_cast
      show ((d.core.usage (.thread j)).alloced : ℤ) - _ + _ = _
      ring
    · have hne : HeapId.thread j ≠ .thread i := HeapId.thread_ne hj
      rw [Core.surplus, Core.ownedBy_setOwner_of_other (hforeign i) hne, if_neg hj]
      rfl
  | @filed _ j size x p new header hsize hready hserves =>
    rw [surplus_handOut hserves.same, surplus_countedIn hlt]
    show _ + (superblockSize * 0 : ℤ) = d.core.surplus i + superblockSize * (if j = i then 1 else 0)
    ring
  | freedGlobal hx hptr =>
    rw [hd.surplus_takeBack hx hptr]
    rfl
  | freed hx hptr =>
    rw [hd.surplus_takeBackCounted hx hptr]
    rfl
  | taken hx hptr =>
    show Core.surplus (takeBackCounted ..).core i + _ = _
    rw [hd.surplus_takeBackCounted hx hptr]
    rfl
  | @moved _ ptr j y place =>
    have hy := hd.transit_known y (hat.hand y rfl)
    have howner : (d.core.header y).owner = some (.thread j) := by
      have hfits := hat.knows
      cases place with
      | none => exact hfits.1
      | some be => exact hfits.1
    show (d.core.setOwner y .global).surplus i + superblockSize * (if j = i then -1 else 0) =
      d.core.surplus i + superblockSize * 0
    by_cases hj : j = i
    · subst hj
      have howned : (d.core.setOwner y .global).ownedBy (.thread j) + 1 =
          d.core.ownedBy (.thread j) :=
        Core.ownedBy_setOwner_of_ne hd.superblocks_nodup hy howner HeapId.noConfusion
      rw [Core.surplus, Core.surplus, ← howned, if_pos rfl]
      push_cast
      show ((d.core.usage (.thread j)).alloced : ℤ) - _ + _ = _
      ring
    · have hother : (d.core.header y).owner ≠ some (.thread i) := by
        rw [howner]
        exact fun hc => hj (HeapId.thread.inj (Option.some.inj hc))
      rw [Core.surplus, Core.ownedBy_setOwner_of_other hother HeapId.noConfusion, if_neg hj]
      rfl
  | @counted _ ptr j =>
    show (d.core.decAlloced (.thread j) superblockSize).surplus i + superblockSize * 0 =
      d.core.surplus i + superblockSize * (if j = i then -1 else 0)
    rw [surplus_decAlloced hlt fun hj => hle (if_pos hj)]
    split <;> ring

/-- **A superblock that a thread comes by** is the global heap's, or new. -/
theorem ThreadStep.unassigned (hd : d.Inv)
    (hold : ∀ x, pc.unassigned = some x → ∀ i, (d.core.header x).owner ≠ some (.thread i))
    (h : d.ThreadStep src pc pc' d') (hx : pc'.unassigned = some x) (i : ℕ) :
    (d'.core.header x).owner ≠ some (.thread i) := by
  have hglobal : ∀ {header : SuperblockHeader}, header.owner = some .global →
      header.owner ≠ some (.thread i) := by
    rintro header h hc
    rw [h] at hc
    cases hc
  cases h with
  | passive hnext hpc =>
    refine hold x ?_ i
    cases hnext with
    | globalUnlock_some => exact hx
    | globalFetch => exact hpc.elim
    | allocNew_some => exact hpc.elim
    | _ => cases hx
  | fetchedBin he hmem =>
    obtain rfl := Option.some.inj hx
    exact hglobal (hd.fits _ _ hmem).1
  | fetchedRecycled hl =>
    obtain rfl := Option.some.inj hx
    rw [popGlobal_header]
    exact hglobal (hd.fits (.recycle .global) _ (hl ▸ List.mem_cons_self ..)).1
  | @mapped _ _ size _ x c =>
    obtain rfl := Option.some.inj hx
    have hself : (c.initHeader x (idx2class (binOf size))).header x =
        resetSuperblock x (idx2class (binOf size)) { magic := headerMagic } :=
      Function.update_self ..
    show ((c.initHeader x (idx2class (binOf size))).header x).owner ≠ _
    rw [hself]
    nofun
  | _ => cases hx

end Depot

/-! ### Executions -/

namespace Machine

variable {T : Type} {m : Machine T} {d : Depot}

/-- **The accounts of the machine**: off by what the holder of the mutex owes. Until the
owner of a superblock is assigned it is none of the thread heaps. -/
structure Ledger (m : Machine T) (d : Depot) : Prop where
  unassigned : ∀ t x, (m.threads.point t).unassigned = some x →
    ∀ i, (d.core.header x).owner ≠ some (.thread i)
  surplus : ∀ i, d.core.surplus i +
    superblockSize * m.threads.share (.heap (.thread i)) (Pc.due i) = 0

/-- The holder of a mutex owes one superblock at most, or is owed one. -/
theorem share_due (m : Machine T) (i : ℕ) :
    -1 ≤ m.threads.share (.heap (.thread i)) (Pc.due i) ∧
      m.threads.share (.heap (.thread i)) (Pc.due i) ≤ 1 := by
  rw [System.share]
  split
  · decide
  · exact Pc.due_bounds ..

/-- **The accounts cannot overflow**, nor what is taken from them wrap. -/
theorem Ledger.bounds (h : m.Ledger d) (hM : m.Models d) (i : ℕ) :
    (d.core.usage (.thread i)).alloced + superblockSize < 2 ^ 64 ∧
      ∀ t, (m.threads.point t).due i = -1 →
        superblockSize ≤ (d.core.usage (.thread i)).alloced := by
  have hlen := hM.inv.superblocks_length
  have hle : d.core.ownedBy (.thread i) ≤ d.core.superblocks.length := List.countP_le_length
  have hsurplus := h.surplus i
  have hshare := m.share_due i
  rw [Core.surplus, superblockSize_eq] at *
  refine ⟨by omega, fun t ht => ?_⟩
  have hheld : .heap (.thread i) ∈ (m.threads.point t).held := by
    by_contra hc
    rw [Pc.due_of_not_mem hc] at ht
    cases ht
  rw [hM.consistent.share_of_mem hheld, ht] at hsurplus
  omega

variable [DecidableEq T] {d' : Depot} {t : T}

/-- What the threads owe changes with the point of the thread that moves. -/
theorem Models.share_move (hM : m.Models d) {a : Action Mutex} {pc : Pc} {s : State}
    {live : List (ℕ × ℕ)} (hM' : Models ⟨s, m.threads.move t a pc, live⟩ d') (i : ℕ) :
    (m.threads.move t a pc).share (.heap (.thread i)) (Pc.due i) + (m.threads.point t).due i =
      m.threads.share (.heap (.thread i)) (Pc.due i) + pc.due i :=
  hM.consistent.share_move hM'.consistent fun _ => Pc.due_of_not_mem

theorem Ledger.call (h : m.Ledger d) (hM : m.Models d) {c : Call} (hlegal : m.Legal (.call t c)) :
    Ledger ⟨m.state, m.threads.move t .work (Pc.start c), m.liveAfterCall c⟩ d where
  unassigned u x hx := by
    by_cases hut : u = t
    · subst hut
      rw [System.move_self] at hx
      cases c <;> cases hx
    · rw [m.threads.move_of_ne hut] at hx
      exact h.unassigned u x hx
  surplus i := by
    have hmove := hM.share_move (hM.call hlegal) i
    have hidle : m.threads.point t = .idle := by cases c <;> exact hlegal.1
    have hstart : (Pc.start c).due i = 0 := by cases c <;> rfl
    rw [hidle, hstart] at hmove
    have hzero : Pc.idle.due i = 0 := rfl
    rw [hzero, add_zero, add_zero] at hmove
    rw [hmove]
    exact h.surplus i

theorem Ledger.act (h : m.Ledger d) (hM : m.Models d) {src : Source} {pc' : Pc} {s' : State}
    (hstep : d.ThreadStep src (m.threads.point t) pc' d')
    (hframe : Frame d d' (m.threads.point t) pc') {a : Action Mutex} {live : List (ℕ × ℕ)}
    (hM' : Models ⟨s', m.threads.move t a pc', live⟩ d') :
    Ledger ⟨s', m.threads.move t a pc', live⟩ d' where
  unassigned u x hx := by
    by_cases hut : u = t
    · subst hut
      rw [System.move_self] at hx
      exact hstep.unassigned hM.inv (h.unassigned u) hx
    · -- What another thread has in hand stays as it is.
      rw [m.threads.move_of_ne hut] at hx
      have hhand := Pc.hand_of_unassigned hx
      rw [hframe.header x ((hM.points u).hand x hhand) ((hM.apart u t hut).hand x hhand)]
      exact h.unassigned u x hx
  surplus i := by
    obtain ⟨hlt, hle⟩ := h.bounds hM i
    have hmove := hM.share_move hM' i
    have hsurplus := hstep.surplus hM.inv (hM.points t) (h.unassigned t) hlt (hle t)
    have hold := h.surplus i
    rw [superblockSize_eq] at *
    dsimp only
    omega

end Machine

/-- **`alloced` is exact whenever the mutex of the heap is free**, if no thread disturbs
another and no superblock comes from the recycle list of the global heap to another class
than its own: in any interleaving it is the size of the superblocks that the heap owns, or
off by what the thread that holds the mutex is about to settle. -/
theorem alloced_exact {T : Type} [DecidableEq T] {events : List (Event T)}
    (h : Trace.Always Machine.step (fun m e => m.Legal e ∧ m.RespectsOwners e ∧ m.Matching e) {}
      events) :
    ∃ m, Trace.run Machine.step {} events = some m ∧ ∀ i,
      (m.threads.holder (.heap (.thread i)) = none →
        (m.state.usage (.thread i)).alloced = superblockSize * m.state.ownedBy (.thread i)) ∧
      ∀ t, m.threads.holder (.heap (.thread i)) = some t →
        ((m.state.usage (.thread i)).alloced : ℤ) =
          superblockSize * (m.state.ownedBy (.thread i) - (m.threads.point t).due i) := by
  obtain ⟨m, d, hrun, hM, hledger⟩ := Machine.run_induction (P := Machine.Ledger)
    (fun _ _ h => h) ⟨fun _ _ => nofun, fun _ => rfl⟩
    (fun m d t c hM hledger hc => hledger.call hM hc.1)
    (fun m d t mmap pc' s' d' hM hledger _ hstep hframe hM' => hledger.act hM hstep hframe hM')
    (fun m d ptr off bytes _ hledger _ => ⟨hledger.unassigned, hledger.surplus⟩) h
  refine ⟨m, hrun, fun i => ?_⟩
  have hsurplus := hledger.surplus i
  rw [Core.surplus, System.share, superblockSize_eq] at hsurplus
  rw [hM.refines.core, superblockSize_eq]
  refine ⟨fun hnone => ?_, fun t ht => ?_⟩
  · rw [hnone] at hsurplus
    dsimp only at hsurplus
    omega
  · rw [ht] at hsurplus
    dsimp only at hsurplus
    omega

/-- A heap gives a superblock to the global heap, and another thread waits for the heap. -/
def movingEvents : List (Event Bool) :=
  allocNewEvents false 0 16 1048576 ++ allocNewEvents false 0 32 2097152 ++
    allocNewEvents true 0 48 3145728 ++ allocNewEvents true 0 64 4194304 ++
    allocNewEvents false 0 96 5242880 ++
    .call false (.heapFree 1048704) :: .call true (.heapAlloc 0 16) ::
    List.replicate 6 (.act false none)

/-- The superblock is counted, and not owned any more. -/
theorem alloced_exact_moving : ∃ m, Trace.run Machine.step {} movingEvents = some m ∧
    m.threads.point false = .moveUnlock 1048704 0 ∧
    ((m.state.usage (.thread 0)).alloced : ℤ) =
      superblockSize * (m.state.ownedBy (.thread 0) + 1) := by
  have hlegal : Trace.Always Machine.step (fun m e =>
      m.Legal e ∧ m.RespectsOwners e ∧ m.Matching e) {} movingEvents := by
    decide +kernel
  obtain ⟨m, hrun, hexact⟩ := alloced_exact hlegal
  have hfacts : (Trace.run Machine.step {} movingEvents).map (fun m =>
      (m.threads.point false, m.threads.holder (.heap (.thread 0)))) =
      some (.moveUnlock 1048704 0, some false) := by
    decide +kernel
  rw [hrun, Option.map_some, Option.some_inj, Prod.mk.injEq] at hfacts
  obtain ⟨hpoint, hholder⟩ := hfacts
  have halloced := (hexact 0).2 false hholder
  rw [hpoint] at halloced
  exact ⟨m, hrun, hpoint, halloced⟩

end MyMalloc
