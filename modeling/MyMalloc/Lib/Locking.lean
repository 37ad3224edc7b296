import Mathlib.Algebra.Group.Basic
import Mathlib.Logic.Function.Basic
import Mathlib.Logic.Relation
import Mathlib.Order.WellFounded
import Mathlib.Data.List.Nodup

/-!
# Nested locking

Threads that lock and unlock mutexes, each running a program of its own. A thread
is at a point of a program `Locking.Program`, which says what it may do there
next and which mutexes it holds; the mutexes held form a stack, the one locked
last on top.

Two facts about any number of threads, in any interleaving:

* `Locking.Consistent`, the mutexes are held by the threads that think they hold
  them, is kept by every step (`Locking.Consistent.step`), and so nobody holds
  the mutex of somebody else (`Locking.Consistent.exclusive`);
* if the mutexes have ranks, and a thread locks a mutex only above those it
  holds, then as long as somebody is not done somebody can move
  (`Locking.Consistent.progress`). The ranks need not separate the mutexes: two
  of the same rank are never held together.

What a mutex protects need not be in order while somebody holds it. The holder then
accounts for the difference (`Locking.System.share`), and a step of a thread changes that
by what its own point accounts for (`Locking.Consistent.share_move`).
-/

namespace Locking

variable {T P L : Type}

/-! ### Programs -/

/-- What a thread does in one step, seen from the mutexes. -/
inductive Action (L : Type)
  | lock (l : L) : Action L
  | unlock (l : L) : Action L
  /-- Something that concerns no mutex. -/
  | work : Action L
  deriving DecidableEq, Repr

/-- What an action does to the stack of mutexes its thread holds. -/
def Action.Moves : Action L → List L → List L → Prop
  | .lock l, held, held' => held' = l :: held
  | .unlock l, held, held' => held = l :: held'
  | .work, held, held' => held' = held

/-- **A program**: what a thread at a point may do next, which mutexes it holds
there, and where it is done. -/
structure Program (P L : Type) where
  next : P → Action L → P → Prop
  held : P → List L
  done : P → Prop

/-- **A program that nests its locks**, and keeps to the order of their ranks. -/
structure Program.Nested {R : Type} [Preorder R] (prog : Program P L) (rank : L → R) : Prop where
  moves : ∀ {p a p'}, prog.next p a p' → a.Moves (prog.held p) (prog.held p')
  nodup : ∀ p, (prog.held p).Nodup
  ordered : ∀ {p l p'}, prog.next p (.lock l) p' → ∀ l' ∈ prog.held p, rank l' < rank l
  exists_next : ∀ {p}, ¬prog.done p → ∃ a p', prog.next p a p'
  held_of_done : ∀ {p}, prog.done p → prog.held p = []

/-! ### Threads -/

/-- The threads, each at its point, and who holds which mutex. -/
structure System (T P L : Type) where
  point : T → P
  holder : L → Option T

/-- Whether an action need not wait. -/
def Available (holder : L → Option T) : Action L → Prop
  | .lock l => holder l = none
  | .unlock _ => True
  | .work => True

instance (holder : L → Option T) : DecidablePred (Available holder)
  | .lock l => decidable_of_iff ((holder l).isNone = true) Option.isNone_iff_eq_none
  | .unlock _ => inferInstanceAs (Decidable True)
  | .work => inferInstanceAs (Decidable True)

section

variable [DecidableEq T] [DecidableEq L]

/-- Who holds which mutex after an action. -/
def holderAfter (holder : L → Option T) (t : T) : Action L → L → Option T
  | .lock l => Function.update holder l (some t)
  | .unlock l => Function.update holder l none
  | .work => holder

/-- A thread takes an action and comes to a point. -/
def System.move (sys : System T P L) (t : T) (a : Action L) (p : P) : System T P L :=
  ⟨Function.update sys.point t p, holderAfter sys.holder t a⟩

@[simp] theorem System.move_self (sys : System T P L) (t : T) (a : Action L) (p : P) :
    (sys.move t a p).point t = p :=
  Function.update_self ..

theorem System.move_of_ne (sys : System T P L) {t u : T} (h : u ≠ t) (a : Action L) (p : P) :
    (sys.move t a p).point u = sys.point u :=
  Function.update_of_ne h ..

/-- **A step of a thread**: it does what its program says, and does not have to
wait. -/
def System.Step (prog : Program P L) (sys : System T P L) (t : T) (sys' : System T P L) : Prop :=
  ∃ a p, prog.next (sys.point t) a p ∧ Available sys.holder a ∧ sys' = sys.move t a p

/-- Reached by steps of the threads, in any interleaving. -/
def System.Reaches (prog : Program P L) (sys sys' : System T P L) : Prop :=
  Relation.ReflTransGen (fun a b => ∃ t, a.Step prog t b) sys sys'

theorem System.Reaches.refl (prog : Program P L) (sys : System T P L) : sys.Reaches prog sys :=
  Relation.ReflTransGen.refl

theorem System.Reaches.step {prog : Program P L} {sys sys' : System T P L}
    (h : sys.Reaches prog sys') (t : T) {a : Action L} {p : P}
    (hnext : prog.next (sys'.point t) a p) (havail : Available sys'.holder a) :
    sys.Reaches prog (sys'.move t a p) :=
  h.tail ⟨t, a, p, hnext, havail, rfl⟩

end

/-- **What the holder of a mutex accounts for**, which depends on its point; nothing if no
thread holds the mutex. -/
def System.share {A : Type} [Zero A] (sys : System T P L) (l : L) (f : P → A) : A :=
  match sys.holder l with
  | none => 0
  | some t => f (sys.point t)

/-- **The mutexes are held by the threads that think they hold them.** -/
def Consistent (held : P → List L) (sys : System T P L) : Prop :=
  ∀ l t, sys.holder l = some t ↔ l ∈ held (sys.point t)

namespace Consistent

variable {held : P → List L} {sys sys' : System T P L} {t u : T}

/-- Two threads do not hold the same mutex. -/
theorem exclusive (h : Consistent held sys) {l : L} (ht : l ∈ held (sys.point t))
    (hu : l ∈ held (sys.point u)) : t = u :=
  Option.some.inj (((h l t).mpr ht).symm.trans ((h l u).mpr hu))

/-- A mutex nobody waits for is held by no thread. -/
theorem not_mem_of_none (h : Consistent held sys) {l : L} (hl : sys.holder l = none) :
    l ∉ held (sys.point t) := by
  intro hmem
  rw [(h l t).mpr hmem] at hl
  cases hl

variable [DecidableEq T] [DecidableEq L]

/-- **One step**: the mutexes stay with the threads that think they hold them. -/
theorem move (h : Consistent held sys) {a : Action L} {p : P}
    (hmoves : a.Moves (held (sys.point t)) (held p)) (hnodup : (held (sys.point t)).Nodup)
    (havail : Available sys.holder a) : Consistent held (sys.move t a p) := by
  intro l u
  -- Another thread has the stack it had; what matters is which mutex changed hands.
  have hpoint : ∀ v, v ≠ t → (sys.move t a p).point v = sys.point v :=
    fun v hv => sys.move_of_ne hv a p
  have hself := sys.move_self t a p
  cases a with
  | lock k =>
    have hmoves : held p = k :: held (sys.point t) := hmoves
    have hfree : sys.holder k = none := havail
    have hholder : (sys.move t (.lock k) p).holder = Function.update sys.holder k (some t) := rfl
    rw [hholder]
    by_cases hu : u = t
    · subst hu
      rw [hself, hmoves, List.mem_cons]
      by_cases hl : l = k
      · subst hl
        simp
      · rw [Function.update_of_ne hl, h l u]
        simp [hl]
    · rw [hpoint u hu]
      by_cases hl : l = k
      · subst hl
        rw [Function.update_self]
        refine iff_of_false ?_ (h.not_mem_of_none hfree)
        rintro hc
        exact hu (Option.some.inj hc).symm
      · rw [Function.update_of_ne hl]
        exact h l u
  | unlock k =>
    have hmoves : held (sys.point t) = k :: held p := hmoves
    have hk : k ∈ held (sys.point t) := hmoves ▸ List.mem_cons_self ..
    have hout : k ∉ held p := (List.nodup_cons.mp (hmoves ▸ hnodup)).1
    have hholder : (sys.move t (.unlock k) p).holder = Function.update sys.holder k none := rfl
    rw [hholder]
    by_cases hl : l = k
    · subst hl
      rw [Function.update_self]
      refine iff_of_false (Option.some_ne_none u).symm ?_
      by_cases hu : u = t
      · rw [hu, hself]
        exact hout
      · rw [hpoint u hu]
        intro hc
        exact hu (h.exclusive hc hk)
    · rw [Function.update_of_ne hl, h l u]
      by_cases hu : u = t
      · rw [hu, hself, hmoves, List.mem_cons]
        exact or_iff_right hl
      · rw [hpoint u hu]
  | work =>
    have hmoves : held p = held (sys.point t) := hmoves
    have hholder : (sys.move t .work p).holder = sys.holder := rfl
    rw [hholder, h l u]
    by_cases hu : u = t
    · rw [hu, hself, hmoves]
    · rw [hpoint u hu]

section Share

variable {A : Type} {l : L} {f : P → A}

omit [DecidableEq T] [DecidableEq L] in
/-- The share of a mutex is that of the thread that holds it. -/
theorem share_of_mem [Zero A] (h : Consistent held sys) (hl : l ∈ held (sys.point t)) :
    sys.share l f = f (sys.point t) := by
  rw [System.share, (h l t).mpr hl]

omit [DecidableEq T] [DecidableEq L] in
/-- There is none if no thread holds it. -/
theorem share_of_forall [Zero A] (h : Consistent held sys) (hl : ∀ u, l ∉ held (sys.point u)) :
    sys.share l f = 0 := by
  rw [System.share]
  cases hu : sys.holder l with
  | none => rfl
  | some u => exact absurd ((h l u).mp hu) (hl u)

/-- **What a step does to the share of a mutex** is what it does to that of its thread, if
only those who hold the mutex have one. -/
theorem share_move [AddCommGroup A] (h : Consistent held sys) {a : Action L} {p : P}
    (h' : Consistent held (sys.move t a p)) (hf : ∀ q, l ∉ held q → f q = 0) :
    (sys.move t a p).share l f + f (sys.point t) = sys.share l f + f p := by
  have hself := sys.move_self t a p
  have hpoint : ∀ u, u ≠ t → (sys.move t a p).point u = sys.point u :=
    fun u hu => sys.move_of_ne hu a p
  by_cases hl : l ∈ held (sys.point t) <;> by_cases hl' : l ∈ held p
  · rw [h.share_of_mem hl, h'.share_of_mem (t := t) (by rwa [hself]), hself, add_comm]
  · -- The thread has unlocked the mutex.
    have hnone : ∀ u, l ∉ held ((sys.move t a p).point u) := by
      intro u hu
      by_cases hut : u = t
      · rw [hut, hself] at hu
        exact hl' hu
      · rw [hpoint u hut] at hu
        exact hut (h.exclusive hu hl)
    rw [h.share_of_mem hl, h'.share_of_forall hnone, hf p hl', zero_add, add_zero]
  · -- The thread has locked it.
    have hnone : ∀ u, l ∉ held (sys.point u) := by
      intro u hu
      by_cases hut : u = t
      · exact hl (hut ▸ hu)
      · refine hut (h'.exclusive ?_ (by rwa [hself]))
        rwa [hpoint u hut]
    rw [h.share_of_forall hnone, h'.share_of_mem (t := t) (by rwa [hself]), hself, hf _ hl,
      zero_add, add_zero]
  · -- The thread has nothing to do with it.
    rw [hf _ hl, hf p hl', add_zero, add_zero]
    by_cases hu : ∃ u, l ∈ held (sys.point u)
    · obtain ⟨u, hu⟩ := hu
      have hut : u ≠ t := fun hc => hl (hc ▸ hu)
      rw [h.share_of_mem hu, h'.share_of_mem (t := u) (by rwa [hpoint u hut]), hpoint u hut]
    · rw [not_exists] at hu
      rw [h.share_of_forall hu, h'.share_of_forall fun u => ?_]
      by_cases hut : u = t
      · rwa [hut, hself]
      · rw [hpoint u hut]
        exact hu u

end Share

section Program

variable {R : Type} [Preorder R] {prog : Program P L} {rank : L → R}

theorem step (hprog : prog.Nested rank) (h : Consistent prog.held sys)
    (hstep : sys.Step prog t sys') : Consistent prog.held sys' := by
  obtain ⟨a, p, hnext, havail, rfl⟩ := hstep
  exact h.move (hprog.moves hnext) (hprog.nodup _) havail

/-- **Whole runs**: whatever the interleaving. -/
theorem reaches (hprog : prog.Nested rank) (h : Consistent prog.held sys)
    (hreach : sys.Reaches prog sys') : Consistent prog.held sys' := by
  induction hreach with
  | refl => exact h
  | tail _ hstep ih =>
    obtain ⟨t, hstep⟩ := hstep
    exact ih.step hprog hstep

omit [DecidableEq T] [DecidableEq L] in
/-- **No thread locks a mutex it holds.** -/
theorem not_holder (hprog : prog.Nested rank) (h : Consistent prog.held sys) {l : L} {p : P}
    (hnext : prog.next (sys.point t) (.lock l) p) : sys.holder l ≠ some t := by
  intro hc
  exact lt_irrefl _ (hprog.ordered hnext l ((h l t).mp hc))

/-- A thread waits for a mutex only as long as its holder does not move. -/
theorem progress_of_waiting [WellFoundedGT R] (hprog : prog.Nested rank)
    (h : Consistent prog.held sys) (l : L) {u : T} (hu : sys.holder l = some u) :
    ∃ t sys', sys.Step prog t sys' := by
  -- The holder of a mutex waits for one of a higher rank, if it waits at all.
  induction l using (InvImage.wf rank wellFounded_gt).induction generalizing u with
  | _ l ih =>
    have hheld := (h l u).mp hu
    have hbusy : ¬prog.done (sys.point u) := by
      intro hdone
      rw [hprog.held_of_done hdone] at hheld
      exact absurd hheld List.not_mem_nil
    obtain ⟨a, p, hnext⟩ := hprog.exists_next hbusy
    by_cases havail : Available sys.holder a
    · exact ⟨u, _, a, p, hnext, havail, rfl⟩
    · cases a with
      | lock k =>
        obtain ⟨v, hv⟩ := Option.ne_none_iff_exists'.mp havail
        exact ih k (hprog.ordered hnext l hheld) hv
      | unlock k => exact absurd trivial havail
      | work => exact absurd trivial havail

/-- **No deadlock**: if a thread is not done, a thread can move. -/
theorem progress [WellFoundedGT R] (hprog : prog.Nested rank) (h : Consistent prog.held sys)
    (ht : ¬prog.done (sys.point t)) : ∃ u sys', sys.Step prog u sys' := by
  obtain ⟨a, p, hnext⟩ := hprog.exists_next ht
  by_cases havail : Available sys.holder a
  · exact ⟨t, _, a, p, hnext, havail, rfl⟩
  · cases a with
    | lock l =>
      obtain ⟨u, hu⟩ := Option.ne_none_iff_exists'.mp havail
      exact h.progress_of_waiting hprog l hu
    | unlock l => exact absurd trivial havail
    | work => exact absurd trivial havail

end Program

end Consistent

end Locking
