import MyMalloc.Lib.Trace
import Mathlib.Logic.Function.Basic

/-!
# Initialisation by many threads

Threads share a memory that has to be initialised before it is used, and no lock
protects it. A thread looks at a flag first. One that finds it unset makes all the writes
of the initialisation itself, one at a time and the flag last; one that finds it set goes
on. So several threads may be initialising at a time, and one of them may still be at it
when another is done.

This is harmless if they all write the same values (`SharedInit.Setup`): a location that
has its value keeps it, since every later write to it is a write of that value. Hence what
a thread relies on once it is past the flag is there, and stays
(`SharedInit.inv_of_run`, `SharedInit.Inv.complete`), whatever the interleaving.
-/

namespace SharedInit

/-- **An initialisation**: what it writes before the flag, in this order, the flag, and
the value that says it is done. A location gets one value, and the flag is set last. -/
structure Setup (L V : Type) where
  body : List (L × V)
  flag : L
  set : V
  consistent : ∀ w ∈ body, ∀ w' ∈ body, w.1 = w'.1 → w.2 = w'.2
  flag_last : ∀ w ∈ body, w.1 ≠ flag

/-- Where a thread is. -/
inductive Point where
  /-- It has not looked at the flag. -/
  | start
  /-- It has made the first `k` of the writes. -/
  | writing (k : ℕ)
  /-- It is past the flag. -/
  | past
  deriving DecidableEq, Repr

/-- The memory, and where each thread is. -/
structure System (T L V : Type) where
  mem : L → V
  point : T → Point

/-- One event: a thread looks at the flag, or takes the next step of its
initialisation. -/
inductive Event (T : Type) where
  | look (t : T)
  | write (t : T)
  deriving DecidableEq, Repr

variable {T L V : Type}

/-- All the writes. -/
def Setup.writes (i : Setup L V) : List (L × V) := i.body ++ [(i.flag, i.set)]

/-- What is initialised is in place. -/
def Setup.Complete (i : Setup L V) (mem : L → V) : Prop := ∀ w ∈ i.writes, mem w.1 = w.2

/-- What an event does; `none`, if the thread is not at a point for it. A thread may look
again, as a program does that checks the flag whenever it is about to use the memory. -/
def step [DecidableEq T] [DecidableEq L] [DecidableEq V] (i : Setup L V) (s : System T L V) :
    Event T → Option (System T L V)
  | .look t =>
    match s.point t with
    | .writing _ => none
    | _ => some { s with
        point := Function.update s.point t (if s.mem i.flag = i.set then .past else .writing 0) }
  | .write t =>
    match s.point t with
    | .writing k =>
      match i.writes[k]? with
      | some w => some ⟨Function.update s.mem w.1 w.2, Function.update s.point t (.writing (k + 1))⟩
      | none => some { s with point := Function.update s.point t .past }
    | _ => none

/-- **What interleaved initialisations keep**: a thread's writes are in place from the
moment it has made them; once the flag is set, or a thread is past it, all of them are;
and nothing else is touched. -/
structure Inv (i : Setup L V) (mem₀ : L → V) (s : System T L V) : Prop where
  written : ∀ t k, s.point t = .writing k → ∀ w ∈ i.writes.take k, s.mem w.1 = w.2
  flagged : s.mem i.flag = i.set → i.Complete s.mem
  past : ∀ t, s.point t = .past → i.Complete s.mem
  elsewhere : ∀ l, (∀ w ∈ i.writes, w.1 ≠ l) → s.mem l = mem₀ l

variable {i : Setup L V} {mem₀ : L → V} {s s' : System T L V}

/-- A memory in which the flag is not set, and threads that have done nothing. -/
theorem inv_start (hflag : mem₀ i.flag ≠ i.set) :
    Inv i mem₀ (⟨mem₀, fun _ => .start⟩ : System T L V) where
  written _ _ hu := by cases hu
  flagged hset := absurd hset hflag
  past _ hu := by cases hu
  elsewhere _ _ := rfl

/-- **Once a thread is past the flag**, or the flag is set, everything is in place. -/
theorem Inv.complete (h : Inv i mem₀ s) (hpast : (∃ t, s.point t = .past) ∨ s.mem i.flag = i.set) :
    i.Complete s.mem :=
  hpast.elim (fun ⟨t, ht⟩ => h.past t ht) h.flagged

namespace Setup

theorem mem_writes {w : L × V} : w ∈ i.writes ↔ w ∈ i.body ∨ w = (i.flag, i.set) := by
  simp [writes]

/-- A location gets one value. -/
theorem eq_of_writes {w w' : L × V} (h : w ∈ i.writes) (h' : w' ∈ i.writes) (heq : w.1 = w'.1) :
    w.2 = w'.2 := by
  rcases mem_writes.mp h with h | rfl <;> rcases mem_writes.mp h' with h' | rfl
  · exact i.consistent w h w' h' heq
  · exact absurd heq (i.flag_last w h)
  · exact absurd heq.symm (i.flag_last w' h')
  · rfl

/-- The write of the flag is the last one. -/
theorem take_of_flag {k : ℕ} {w : L × V} (hk : i.writes[k]? = some w) (hw : w.1 = i.flag) :
    i.writes.take (k + 1) = i.writes := by
  have hnot : ¬k < i.body.length := by
    intro hlt
    have hget : i.writes[k]? = i.body[k]? := List.getElem?_append_left hlt
    exact i.flag_last w (List.mem_of_getElem? (hget ▸ hk)) hw
  refine List.take_of_length_le ?_
  simp only [writes, List.length_append, List.length_singleton]
  omega

end Setup

/-! ### Steps -/

section Steps

variable [DecidableEq T]

/-- A thread has made all its writes. -/
theorem Inv.finish (h : Inv i mem₀ s) {t : T} {k : ℕ} (hp : s.point t = .writing k)
    (hk : i.writes[k]? = none) :
    Inv i mem₀ { s with point := Function.update s.point t .past } := by
  have hall : i.Complete s.mem := fun w hw =>
    h.written t k hp w ((List.take_of_length_le (List.getElem?_eq_none_iff.mp hk)).symm ▸ hw)
  refine ⟨fun u k' hu => ?_, h.flagged, fun _ _ => hall, h.elsewhere⟩
  by_cases hut : u = t
  · subst hut
    simp at hu
  · exact h.written u k' (by simpa [hut] using hu)

variable [DecidableEq L]

/-- **A value that is in place stays**, whatever is written next. -/
theorem Setup.update_eq {mem : L → V} {w w' : L × V} (h : w ∈ i.writes) (h' : w' ∈ i.writes)
    (hmem : mem w'.1 = w'.2) : Function.update mem w.1 w.2 w'.1 = w'.2 := by
  rcases eq_or_ne w'.1 w.1 with heq | hne
  · rw [heq, Function.update_self, i.eq_of_writes h h' heq.symm]
  · rw [Function.update_of_ne hne, hmem]

theorem Setup.Complete.update {mem : L → V} {w : L × V} (h : i.Complete mem) (hw : w ∈ i.writes) :
    i.Complete (Function.update mem w.1 w.2) :=
  fun w' hw' => i.update_eq hw hw' (h w' hw')

/-- A thread makes its next write. -/
theorem Inv.next (h : Inv i mem₀ s) {t : T} {k : ℕ} {w : L × V} (hp : s.point t = .writing k)
    (hk : i.writes[k]? = some w) : Inv i mem₀ ⟨Function.update s.mem w.1 w.2,
      Function.update s.point t (.writing (k + 1))⟩ := by
  have hw : w ∈ i.writes := List.mem_of_getElem? hk
  have hmine : ∀ w' ∈ i.writes.take (k + 1), Function.update s.mem w.1 w.2 w'.1 = w'.2 := by
    intro w' hw'
    rw [List.take_add_one, hk, Option.toList_some, List.mem_append, List.mem_singleton] at hw'
    rcases hw' with hw' | rfl
    · exact i.update_eq hw (List.mem_of_mem_take hw') (h.written t k hp w' hw')
    · exact Function.update_self ..
  constructor
  · intro u k' hu w' hw'
    by_cases hut : u = t
    · subst hut
      simp only [Function.update_self] at hu
      obtain rfl := Point.writing.inj hu
      exact hmine w' hw'
    · refine i.update_eq hw (List.mem_of_mem_take hw') (h.written u k' ?_ w' hw')
      simpa [hut] using hu
  · intro hset
    by_cases hflag : w.1 = i.flag
    · -- The flag is the last of the thread's writes.
      have hall := i.take_of_flag hk hflag
      exact fun w' hw' => hmine w' (hall.symm ▸ hw')
    · refine (h.flagged ?_).update hw
      simpa [Function.update_of_ne (Ne.symm hflag)] using hset
  · intro u hu
    by_cases hut : u = t
    · subst hut
      simp at hu
    · exact (h.past u (by simpa [hut] using hu)).update hw
  · intro l hl
    exact (Function.update_of_ne (hl w hw).symm ..).trans (h.elsewhere l hl)

variable [DecidableEq V]

/-- A thread looks at the flag. -/
theorem Inv.look (h : Inv i mem₀ s) {t : T} (hstep : step i s (.look t) = some s') :
    Inv i mem₀ s' := by
  have hs' : s' = { s with
      point := Function.update s.point t
        (if s.mem i.flag = i.set then .past else .writing 0) } := by
    cases hp : s.point t <;> simp only [step, hp, reduceCtorEq, Option.some.injEq] at hstep <;>
      exact hstep.symm
  subst hs'
  refine ⟨fun u k hu w hw => ?_, h.flagged, fun u hu => ?_, h.elsewhere⟩
  · by_cases hut : u = t
    · rw [hut] at hu
      simp only [Function.update_self] at hu
      -- It has written nothing yet.
      split at hu
      · cases hu
      · obtain rfl := Point.writing.inj hu
        exact absurd hw List.not_mem_nil
    · exact h.written u k (by simpa [hut] using hu) w hw
  · by_cases hut : u = t
    · rw [hut] at hu
      simp only [Function.update_self] at hu
      split at hu
      · exact h.flagged ‹_›
      · cases hu
    · exact h.past u (by simpa [hut] using hu)

/-- **Every step keeps the invariant.** -/
theorem Inv.step (h : Inv i mem₀ s) {e : Event T} (hstep : step i s e = some s') :
    Inv i mem₀ s' := by
  cases e with
  | look t => exact h.look hstep
  | write t =>
    cases hp : s.point t with
    | start => simp [SharedInit.step, hp] at hstep
    | past => simp [SharedInit.step, hp] at hstep
    | writing k =>
      cases hk : i.writes[k]? with
      | some w =>
        simp only [SharedInit.step, hp, hk, Option.some.injEq] at hstep
        exact hstep ▸ h.next hp hk
      | none =>
        simp only [SharedInit.step, hp, hk, Option.some.injEq] at hstep
        exact hstep ▸ h.finish hp hk

/-- **The rule of initialisation**: the invariant holds after every interleaving. -/
theorem inv_of_run (hflag : mem₀ i.flag ≠ i.set) {events : List (Event T)}
    (hrun : Trace.run (step i) ⟨mem₀, fun _ => .start⟩ events = some s) :
    Inv i mem₀ s :=
  Trace.run_preserves (fun _ _ _ h hstep => h.step hstep) (inv_start hflag) hrun

end Steps

end SharedInit
