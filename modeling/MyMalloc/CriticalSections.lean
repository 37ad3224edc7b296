import MyMalloc.Executions

/-!
# Critical sections

What the mutex of a heap protects: its account, its lists, and the headers of the
superblocks on them, the owner among them. While a thread holds the mutex no other thread
changes any of it (`MyMalloc.critical_sections_isolated`), so that the thread works on
what it has found. The owner of a superblock on no list is another matter, and is the
superblock's that a thread has in hand.
-/

namespace MyMalloc

open LinkedList Placement Locking ByteMemory Depot

/-! ### One step -/

namespace Depot

/-- **A heap is left alone**: its account, its lists, and the superblocks on them. -/
structure SameHeap (d d' : Depot) (heap : HeapId) : Prop where
  usage : d'.core.usage heap = d.core.usage heap
  lists : ∀ p, p.heap = heap → d'.lists p = d.lists p
  header : ∀ p, p.heap = heap → ∀ x ∈ d.lists p, d'.core.header x = d.core.header x

/-- A superblock that is on no list of a heap. -/
def OffHeap (d : Depot) (heap : HeapId) (x : ℕ) : Prop := ∀ p, p.heap = heap → x ∉ d.lists p

variable {d d' d₁ : Depot} {src : Source} {pc pc' : Pc} {heap : HeapId} {x y : ℕ}

namespace SameHeap

theorem refl (d : Depot) (heap : HeapId) : d.SameHeap d heap :=
  ⟨rfl, fun _ _ => rfl, fun _ _ _ _ => rfl⟩

theorem trans (h : d.SameHeap d₁ heap) (h' : d₁.SameHeap d' heap) : d.SameHeap d' heap where
  usage := h'.usage.trans h.usage
  lists p hp := (h'.lists p hp).trans (h.lists p hp)
  header p hp x hx := by
    rw [h'.header p hp x (h.lists p hp ▸ hx), h.header p hp x hx]

theorem offHeap (h : d.SameHeap d₁ heap) (hx : d.OffHeap heap x) : d₁.OffHeap heap x := by
  rintro p hp hc
  rw [h.lists p hp] at hc
  exact hx p hp hc

/-- The data changes, but neither the account nor the headers. -/
theorem setCore {c : Core} (husage : c.usage heap = d.core.usage heap)
    (hheader : ∀ x, ¬d.OffHeap heap x → c.header x = d.core.header x) :
    d.SameHeap (d.setCore c) heap where
  usage := husage
  lists _ _ := rfl
  header p hp x hx := hheader x fun hoff => hoff p hp hx

/-- The header of a superblock elsewhere changes. -/
theorem setHeader {c : Core} (husage : c.usage heap = d.core.usage heap)
    (hx : d.OffHeap heap x) (hheader : ∀ y, y ≠ x → c.header y = d.core.header y) :
    d.SameHeap (d.setCore c) heap :=
  setCore husage fun y hy => hheader y fun hc => hy (hc ▸ hx)

/-- A superblock is taken out of a list of another heap. -/
theorem take (p : Place) (x : ℕ) (hp : p.heap ≠ heap) : d.SameHeap (d.take p x) heap where
  usage := rfl
  lists _ hq := take_of_ne fun hc => hp (hc ▸ hq)
  header _ _ _ _ := rfl

/-- A superblock is filed in a list of another heap. -/
theorem put (p : Place) (x : ℕ) (hp : p.heap ≠ heap) : d.SameHeap (d.put p x) heap where
  usage := rfl
  lists _ hq := push_of_ne fun hc => hp (hc ▸ hq)
  header _ _ _ _ := rfl

/-- The recycle list of another heap gets lost. -/
theorem forget {heap' : HeapId} (hne : heap' ≠ heap) : d.SameHeap (d.forget heap') heap where
  usage := rfl
  lists q hq := by
    refine Function.update_of_ne ?_ ..
    rintro rfl
    exact hne hq
  header _ _ _ _ := rfl

end SameHeap

/-- A superblock in transit is on no list. -/
theorem Inv.offHeap_of_transit (hd : d.Inv) (hx : x ∈ d.transit) (heap : HeapId) :
    d.OffHeap heap x := fun p _ => hd.transit_nowhere x hx p

/-- A superblock on a list of one heap is on none of another. -/
theorem Inv.offHeap_of_mem (hd : d.Inv) {p : Place} (hx : x ∈ d.lists p) (hp : p.heap ≠ heap) :
    d.OffHeap heap x := by
  rintro q hq hc
  exact hp ((hd.distinct.unique p q x hx hc) ▸ hq)

/-- A superblock from the lists of a heap is of no concern to another heap. -/
theorem Acquires.sameHeap (hd : d.Inv) {heap' : HeapId} {b : ℕ} (hlocal : src.Local)
    (hsrc : d.Offers heap' b src) (hne : heap' ≠ heap) (h : d.Acquires heap' b src x d₁) :
    d.SameHeap d₁ heap ∧ d.OffHeap heap x := by
  cases h with
  | bin e => exact ⟨.take _ x hne, hd.offHeap_of_mem hsrc.2 hne⟩
  | recycled =>
    have hoff : d.OffHeap heap x := hd.offHeap_of_mem (p := .recycle heap') hsrc hne
    have hforgot : d.SameHeap ((d.take (.recycle heap') x).forget heap') heap :=
      (SameHeap.take (.recycle heap') x hne).trans (.forget hne)
    exact ⟨hforgot.trans (.setHeader rfl (hforgot.offHeap hoff) fun y hy =>
      Function.update_of_ne hy ..), hoff⟩
  | globalBin => exact hlocal.elim
  | globalRecycled => exact hlocal.elim
  | new => exact hlocal.elim

/-- A superblock hands out a block to another heap. -/
theorem SameHeap.handOut {heap' : HeapId} {b p size : ℕ} {header : SuperblockHeader}
    (hne : heap' ≠ heap) (hx : d.OffHeap heap x) :
    d.SameHeap (d.handOut heap' b x p header size) heap where
  usage := Core.incUsage_usage_of_ne hne.symm
  lists _ hq := push_of_ne fun hc => hne ((congrArg Place.heap hc).symm.trans hq)
  header q hq y hy := by
    refine Function.update_of_ne ?_ ..
    rintro rfl
    exact hx q hq hy

/-- A superblock of another heap takes a block back. -/
theorem Inv.sameHeap_takeBack (hd : d.Inv) {bm : BinPtr} {e ptr : ℕ} (hx : x ∈ d.lists (.bin bm e))
    (hne : bm.1 ≠ heap) : d.SameHeap (d.takeBack bm e x ptr) heap := by
  have hrefile : (refile bm ((d.core.superblockFree x ptr).header x)).heap ≠ heap := by
    rw [refile]
    split <;> exact hne
  have htake : d.SameHeap (d.take (.bin bm e) x) heap := .take _ x hne
  have hrelease : (d.take (.bin bm e) x).SameHeap ((d.take (.bin bm e) x).release x ptr) heap :=
    ⟨rfl, fun _ _ => rfl, fun q hq y hy => by
      have hyx : y ≠ x := fun hc => hd.offHeap_of_mem hx hne q hq (hc ▸ htake.lists q hq ▸ hy)
      exact Function.update_of_ne hyx ..⟩
  exact (htake.trans hrelease).trans (.put _ x hrefile)

theorem Inv.sameHeap_takeBackCounted (hd : d.Inv) {i b e ptr : ℕ}
    (hx : x ∈ d.lists (.bin (.thread i, b) e)) (hne : .thread i ≠ heap) :
    d.SameHeap (d.takeBackCounted (.thread i) b e x ptr) heap :=
  (hd.sameHeap_takeBack hx hne).trans
    (.setCore (Core.decUsage_usage_of_ne hne.symm) fun _ _ => rfl)

/-- **A step leaves alone the heaps** whose mutex the thread does not hold. -/
theorem ThreadStep.sameHeap (hd : d.Inv) (hat : d.At pc) (hheap : .heap heap ∉ pc.held)
    (h : d.ThreadStep src pc pc' d') : d.SameHeap d' heap := by
  have hne : ∀ {heap'}, Mutex.heap heap' ∈ pc.held → heap' ≠ heap := by
    rintro heap' hheld rfl
    exact hheap hheld
  cases h with
  | passive => exact .refl d heap
  | served hsize hlocal hsrc hacquires hserves =>
    have hi := hne (List.mem_cons_self ..)
    obtain ⟨hsame, hoff⟩ := hacquires.sameHeap hd hlocal hsrc hi
    exact hsame.trans (.handOut hi (hsame.offHeap hoff))
  | notServed => exact .refl d heap
  | fetchedBin => exact .take _ _ (hne (List.mem_cons_self ..))
  | @fetchedRecycled _ _ x =>
    have htake : d.SameHeap (d.take (.recycle .global) x) heap :=
      .take _ _ (hne (List.mem_cons_self ..))
    refine htake.trans (.setCore ?_ fun y _ => ?_)
    · exact congrFun (d.popGlobal_usage x) heap
    · exact congrFun (d.popGlobal_header x) y
  | notFetched => exact .refl d heap
  | @mapped _ i size ptr x c hsize hptr hc =>
    obtain ⟨husage, hheader, -⟩ := Core.allocateNewSuperblock_frame hc
    have hnew := hd.not_mem_of_fresh hptr hc
    refine ⟨congrFun husage heap, fun _ _ => rfl, fun p _ y hy => ?_⟩
    rw [← hheader]
    refine Function.update_of_ne ?_ ..
    rintro rfl
    exact hnew (hd.lists_known p y hy)
  | notMapped =>
    exact .setCore (Core.incUsage_usage_of_ne (hne (List.mem_cons_self ..)).symm) fun _ _ => rfl
  | @owned _ i size x new =>
    exact .setHeader rfl (hd.offHeap_of_transit (hat.hand x rfl) heap) fun y hy =>
      Function.update_of_ne hy ..
  | @filed _ i size x p new header hsize hready hserves =>
    have hi : HeapId.thread i ≠ heap := hne (List.mem_cons_self ..)
    have hcounted : d.SameHeap (d.countedIn i x new) heap := by
      cases new with
      | true => exact .setCore (Core.incAlloced_usage_of_ne hi.symm) fun _ _ => rfl
      | false =>
        exact .setCore ((Core.incAlloced_usage_of_ne hi.symm).trans
          (Core.incUsage_usage_of_ne hi.symm)) fun _ _ => rfl
    exact hcounted.trans (.handOut hi
      (hcounted.offHeap (hd.offHeap_of_transit (hat.hand x rfl) heap)))
  | freedGlobal hx => exact hd.sameHeap_takeBack hx (hne (List.mem_cons_self ..))
  | freed hx => exact hd.sameHeap_takeBackCounted hx (hne (List.mem_cons_self ..))
  | @taken _ ptr i b e y place hx =>
    have hi : HeapId.thread i ≠ heap := hne (List.mem_cons_self ..)
    refine (hd.sameHeap_takeBackCounted hx hi).trans (.take _ y ?_)
    rwa [State.placeIn_heap]
  | @moved _ ptr i y place =>
    have hoff := hd.offHeap_of_transit (hat.hand y rfl) heap
    have howned : d.SameHeap (d.own y .global) heap :=
      .setHeader rfl hoff fun z hz => Function.update_of_ne hz ..
    refine howned.trans (.put _ y ?_)
    rw [State.placeIn_heap]
    exact hne (List.mem_cons_self ..)
  | counted =>
    exact .setCore (Core.decAlloced_usage_of_ne (hne (List.mem_cons_self ..)).symm) fun _ _ => rfl

end Depot

/-! ### Executions -/

/-- **What the mutex of a heap protects is the same** in two states. -/
structure State.SameHeap (s s' : State) (heap : HeapId) : Prop where
  usage : s'.usage heap = s.usage heap
  recycled : s'.recycledSuperblock heap = s.recycledSuperblock heap
  bins : ∀ b, s'.sizeBins (heap, b) = s.sizeBins (heap, b)
  /-- The lists hold the same superblocks, with the same headers. -/
  lists : ∃ lists lists', Represents s lists ∧ Distinct lists ∧ Represents s' lists' ∧
    Distinct lists' ∧ ∀ p, p.heap = heap →
      lists' p = lists p ∧ ∀ x ∈ lists p, s'.header x = s.header x

theorem BinManager.eq_of_heads {bin bin' : BinManager}
    (hheads : bin'.emptinessBins = bin.emptinessBins)
    (hcount : bin'.numNonfullSuperblocks = bin.numNonfullSuperblocks) : bin' = bin := by
  obtain ⟨heads, count⟩ := bin
  obtain ⟨heads', count'⟩ := bin'
  exact congrArg₂ BinManager.mk hheads hcount

/-- The pointers of a heap are those of its lists. -/
theorem Depot.SameHeap.refines {s s' : State} {d d' : Depot} {heap : HeapId}
    (h : d.SameHeap d' heap) (hR : Refines s d) (hR' : Refines s' d') (hd : d.Inv) (hd' : d'.Inv) :
    s.SameHeap s' heap where
  usage := by
    rw [hR.core, hR'.core]
    exact h.usage
  recycled := by
    rw [hR.represents.head_recycle, hR'.represents.head_recycle, h.lists (.recycle heap) rfl]
  bins b := by
    have hlists : ∀ e, d'.lists (.bin (heap, b) e) = d.lists (.bin (heap, b) e) := fun e =>
      h.lists (.bin (heap, b) e) rfl
    have hheads : (s'.sizeBins (heap, b)).emptinessBins = (s.sizeBins (heap, b)).emptinessBins := by
      funext e
      rw [hR.represents.head_bin, hR'.represents.head_bin, hlists]
    have hcount : (s'.sizeBins (heap, b)).numNonfullSuperblocks =
        (s.sizeBins (heap, b)).numNonfullSuperblocks := by
      rw [hR.represents.count, hR'.represents.count]
      simp only [nonfull, hlists]
    exact BinManager.eq_of_heads hheads hcount
  lists := by
    refine ⟨d.lists, d'.lists, hR.represents, hd.distinct, hR'.represents, hd'.distinct,
      fun p hp => ⟨h.lists p hp, fun x hx => ?_⟩⟩
    rw [hR.core, hR'.core]
    exact h.header p hp x hx

/-- The thread that an event is a step or a call of. -/
def Event.actor {T : Type} : Event T → Option T
  | .call t _ => some t
  | .act t _ => some t
  | .write .. => none

namespace Machine

variable {T : Type} [DecidableEq T] {m m₀ : Machine T} {d d₀ : Depot} {t : T} {heap : HeapId}

/-- **A thread in a critical section**, some steps of the others after it has come to a
point: it is still there, and what it protects or has in hand is the same. -/
structure Isolated (m₀ : Machine T) (d₀ : Depot) (t : T) (heap : HeapId) (m : Machine T)
    (d : Depot) : Prop where
  models : m.Models d
  point : m.threads.point t = m₀.threads.point t
  same : d₀.SameHeap d heap
  hand : ∀ x, (m₀.threads.point t).hand = some x → d.core.header x = d₀.core.header x

omit [DecidableEq T] in
/-- The thread still holds the mutex. -/
theorem Isolated.holder (h : m₀.Isolated d₀ t heap m d) (h₀ : m₀.Models d₀)
    (hholds : m₀.threads.holder (.heap heap) = some t) :
    m.threads.holder (.heap heap) = some t := by
  rw [h.models.consistent, h.point, ← h₀.consistent]
  exact hholds

/-- **A step of another thread**, a call or a write. -/
theorem Isolated.step (h : m₀.Isolated d₀ t heap m d) (h₀ : m₀.Models d₀)
    (hholds : m₀.threads.holder (.heap heap) = some t) {e : Event T} (hlegal : m.Legal e)
    (howners : m.RespectsOwners e) (hmatch : m.Matching e) (hactor : e.actor ≠ some t) :
    ∃ m' d', m.step e = some m' ∧ m₀.Isolated d₀ t heap m' d' := by
  have hheld : .heap heap ∈ (m.threads.point t).held :=
    (h.models.consistent _ _).mp (h.holder h₀ hholds)
  have hhand : ∀ x, (m₀.threads.point t).hand = some x → (m.threads.point t).hand = some x := by
    intro x hx
    rw [h.point, hx]
  cases e with
  | call u c =>
    have hut : t ≠ u := fun hc => hactor (congrArg some hc.symm)
    exact ⟨_, d, rfl, h.models.call hlegal, (m.threads.move_of_ne hut ..).trans h.point, h.same,
      h.hand⟩
  | act u mmap =>
    have hut : t ≠ u := fun hc => hactor (congrArg some hc.symm)
    obtain ⟨pc', s', d', hadv, hM', hstep, hframe⟩ := h.models.takes hlegal howners hmatch
    have hother : .heap heap ∉ (m.threads.point u).held :=
      fun hc => hut (h.models.consistent.exclusive hheld hc)
    refine ⟨_, d', step_act hadv, hM', (m.threads.move_of_ne hut ..).trans h.point,
      h.same.trans (hstep.sameHeap h.models.inv (h.models.points u) hother), fun x hx => ?_⟩
    have htransit := (h.models.points t).hand x (hhand x hx)
    rw [hframe.header x htransit ((h.models.apart t u hut).hand x (hhand x hx)), h.hand x hx]
  | write ptr off bytes =>
    exact ⟨_, _, rfl, h.models.written hlegal, h.point,
      h.same.trans (.setCore rfl fun _ _ => rfl), h.hand⟩

end Machine

/-- **Critical sections are isolated**: while a thread holds the mutex of a heap, whatever
the others do – complete calls of theirs, or parts of them, and writes of the clients – the
thread stays where it is, holds the mutex, and finds the account of the heap, its lists, the
headers of the superblocks on them and of the one it has in hand as they were. -/
theorem critical_sections_isolated {T : Type} [DecidableEq T] {before during : List (Event T)}
    {m : Machine T} {t : T} {heap : HeapId}
    (hbefore : Trace.Always Machine.step
      (fun m e => m.Legal e ∧ m.RespectsOwners e ∧ m.Matching e) {} before)
    (hrun : Trace.run Machine.step {} before = some m)
    (hholds : m.threads.holder (.heap heap) = some t)
    (hduring : Trace.Always Machine.step (fun m e =>
      (m.Legal e ∧ m.RespectsOwners e ∧ m.Matching e) ∧ e.actor ≠ some t) m during) :
    ∃ m', Trace.run Machine.step m during = some m' ∧ m'.threads.holder (.heap heap) = some t ∧
      m'.threads.point t = m.threads.point t ∧ m.state.SameHeap m'.state heap ∧
      ∀ x, (m.threads.point t).hand = some x → m'.state.header x = m.state.header x := by
  obtain ⟨m₀, d, hrun₀, hM, -⟩ := Machine.run_induction (P := fun _ _ => True) (fun _ _ h => h)
    trivial (fun _ _ _ _ _ _ _ => trivial) (fun _ _ _ _ _ _ _ _ _ _ _ _ _ => trivial)
    (fun _ _ _ _ _ _ _ _ => trivial) hbefore
  obtain rfl : m₀ = m := Option.some.inj (hrun₀.symm.trans hrun)
  have hrule : ∀ (m' : Machine T) e, (∃ d', m₀.Isolated d t heap m' d') →
      ((m'.Legal e ∧ m'.RespectsOwners e ∧ m'.Matching e) ∧ e.actor ≠ some t) →
      ∃ m'', m'.step e = some m'' ∧ ∃ d', m₀.Isolated d t heap m'' d' := by
    rintro m' e ⟨d', h⟩ ⟨⟨hlegal, howners, hmatch⟩, hactor⟩
    obtain ⟨m'', d'', hstep, h'⟩ := h.step hM hholds hlegal howners hmatch hactor
    exact ⟨m'', hstep, d'', h'⟩
  have hinit : m₀.Isolated d t heap m₀ d := ⟨hM, rfl, .refl d heap, fun _ _ => rfl⟩
  obtain ⟨m', hrun', d', h⟩ := Trace.run_of_always hrule ⟨d, hinit⟩ hduring
  refine ⟨m', hrun', h.holder hM hholds, h.point,
    h.same.refines hM.refines h.models.refines hM.inv h.models.inv, fun x hx => ?_⟩
  rw [h.models.refines.core, hM.refines.core]
  exact h.hand x hx

/-- The first thread is about to allocate from a superblock of its heap. The second one
allocates on another heap, frees the block and starts a third call. -/
def othersAtWork : List (Event Bool) :=
  allocNewEvents true 1 32 2097152 ++ .call true (.heapFree 2097280) ::
    List.replicate 6 (.act true none) ++ .write 1048704 0 [1, 2, 3] ::
    .call true (.heapAlloc 1 48) :: List.replicate 2 (.act true none)

/-- What the first thread has found is still there. -/
theorem critical_sections_isolated_others : ∃ m m',
    Trace.run Machine.step {} (allocNewEvents false 0 16 1048576 ++
      [.call false (.heapAlloc 0 16), .act false none]) = some m ∧
    Trace.run Machine.step m othersAtWork = some m' ∧
    m'.threads.holder (.heap (.thread 0)) = some false ∧ m.state.SameHeap m'.state (.thread 0) := by
  have hbefore : Trace.Always Machine.step
      (fun m e => m.Legal e ∧ m.RespectsOwners e ∧ m.Matching e) {}
      (allocNewEvents false 0 16 1048576 ++ [.call false (.heapAlloc 0 16), .act false none]) := by
    decide +kernel
  have hfacts : (Trace.run Machine.step {} (allocNewEvents false 0 16 1048576 ++
      [.call false (.heapAlloc 0 16), .act false none])).map (fun m =>
      (decide (m.threads.holder (.heap (.thread 0)) = some false),
        decide (Trace.Always Machine.step (fun m e =>
          (m.Legal e ∧ m.RespectsOwners e ∧ m.Matching e) ∧ e.actor ≠ some false) m
          othersAtWork))) = some (true, true) := by
    decide +kernel
  obtain ⟨m, hrun, hm⟩ := Option.map_eq_some_iff.mp hfacts
  obtain ⟨hholds, hduring⟩ := Prod.mk.inj hm
  obtain ⟨m', hrun', hholder, -, hsame, -⟩ := critical_sections_isolated hbefore hrun
    (of_decide_eq_true hholds) (of_decide_eq_true hduring)
  exact ⟨m, m', hrun, hrun', hholder, hsame⟩

end MyMalloc
