import Mathlib.Data.List.Basic
import Mathlib.Algebra.GroupWithZero.Nat

/-!
# Runs of a partial transition function

A machine given by a partial step function `step : σ → ι → Option σ`, a step
that is `none` being a step on which the machine goes wrong. The run of a list
of inputs is `Trace.run`; `Trace.Always C` says that a condition on the state
before a step and on its input holds at every step of a run.

The rule this file is for is `Trace.run_of_always`: what one step needs and
preserves, a whole run needs and preserves – and such a run never goes wrong.

A machine is compared with a more abstract one by what it shows of its steps: a step
has a label or, if there is nothing to see of it, none (`Trace.labels`). The abstract
machine is a relation that reads labels, and its runs are `Trace.Path`. If every step
of the one is a step of the other, or none, then the runs are runs
(`Trace.path_of_always`). The other way round, where each step of the abstract machine is a
whole run of the other, a run is the runs of its steps, one after the other
(`Trace.exists_runs_of_steps`).
-/

namespace Trace

variable {σ ι : Type} {step : σ → ι → Option σ} {C D : σ → ι → Prop} {s t : σ}

/-- The state a run of the inputs leads to, unless a step goes wrong. -/
def run (step : σ → ι → Option σ) : σ → List ι → Option σ
  | s, [] => some s
  | s, i :: is => (step s i).bind fun t => run step t is

/-- **The condition holds at every step** of the run of the inputs. -/
def Always (step : σ → ι → Option σ) (C : σ → ι → Prop) : σ → List ι → Prop
  | _, [] => True
  | s, i :: is => C s i ∧ ∀ t, step s i = some t → Always step C t is

@[simp] theorem run_nil : run step s [] = some s := rfl

@[simp] theorem run_cons {i : ι} {is : List ι} :
    run step s (i :: is) = (step s i).bind fun t => run step t is := rfl

@[simp] theorem always_nil : Always step C s [] := trivial

@[simp] theorem always_cons {i : ι} {is : List ι} :
    Always step C s (i :: is) ↔ C s i ∧ ∀ t, step s i = some t → Always step C t is := Iff.rfl

/-- A decidable condition can be checked along a run. -/
instance decidableAlways [∀ s i, Decidable (C s i)] :
    ∀ (s : σ) (is : List ι), Decidable (Always step C s is)
  | _, [] => isTrue trivial
  | s, i :: is =>
    match h : step s i with
    | none => decidable_of_iff (C s i) (by simp [h])
    | some t =>
      have := decidableAlways t is
      decidable_of_iff (C s i ∧ Always step C t is) (by simp [h])

/-- **The rule of runs**: if the invariant and the condition make a step
succeed and keep the invariant, then a run all of whose steps meet the condition
succeeds and keeps the invariant. -/
theorem run_of_always {Inv : σ → Prop}
    (hstep : ∀ s i, Inv s → C s i → ∃ t, step s i = some t ∧ Inv t) {is : List ι}
    (hs : Inv s) (hC : Always step C s is) : ∃ t, run step s is = some t ∧ Inv t := by
  induction is generalizing s with
  | nil => exact ⟨s, rfl, hs⟩
  | cons i is ih =>
    obtain ⟨t, ht, hinv⟩ := hstep s i hs hC.1
    obtain ⟨u, hu, hinv'⟩ := ih hinv (hC.2 t ht)
    exact ⟨u, by simp [ht, hu], hinv'⟩

/-- **What every step that succeeds preserves, a run that succeeds preserves.** -/
theorem run_preserves {P : σ → Prop}
    (hstep : ∀ s i t, P s → step s i = some t → P t) {is : List ι} (hs : P s)
    (hrun : run step s is = some t) : P t := by
  induction is generalizing s with
  | nil => exact Option.some.inj hrun ▸ hs
  | cons i is ih =>
    obtain ⟨u, hu, hrest⟩ := Option.bind_eq_some_iff.mp hrun
    exact ih (hstep s i u hs hu) hrest

/-- **What every step that meets the condition preserves**, a run that succeeds and meets
it preserves. -/
theorem Always.run_preserves {P : σ → Prop}
    (hstep : ∀ s i t, P s → C s i → step s i = some t → P t) {is : List ι}
    (hC : Always step C s is) (hs : P s) (hrun : run step s is = some t) : P t := by
  induction is generalizing s with
  | nil => exact Option.some.inj hrun ▸ hs
  | cons i is ih =>
    obtain ⟨u, hu, hrest⟩ := Option.bind_eq_some_iff.mp hrun
    exact ih (hC.2 u hu) (hstep s i u hs hC.1 hu) hrest

/-- **The rule of potentials**: what a run spends is paid in on the way, or was there at its
start. -/
theorem spent_le {potential : σ → ℕ} {spent paid : ι → ℕ}
    (hstep : ∀ s i t, step s i = some t → spent i + potential t ≤ potential s + paid i)
    {is : List ι} (hrun : run step s is = some t) :
    (is.map spent).sum + potential t ≤ potential s + (is.map paid).sum := by
  induction is generalizing s with
  | nil =>
    obtain rfl := Option.some.inj hrun
    simp
  | cons i is ih =>
    obtain ⟨u, hu, hrest⟩ := Option.bind_eq_some_iff.mp hrun
    have hone := hstep s i u hu
    have hmore := ih hrest
    rw [List.map_cons, List.map_cons, List.sum_cons, List.sum_cons]
    omega

/-- A condition may be replaced along a run by one that follows from it under an
invariant. -/
theorem Always.imp_of_inv {Inv : σ → Prop} (h : ∀ s i, Inv s → C s i → D s i)
    (hstep : ∀ s i t, Inv s → C s i → step s i = some t → Inv t) {is : List ι} (hs : Inv s)
    (hC : Always step C s is) : Always step D s is := by
  induction is generalizing s with
  | nil => trivial
  | cons i is ih =>
    exact ⟨h s i hs hC.1, fun t ht => ih (hstep s i t hs hC.1 ht) (hC.2 t ht)⟩

/-- A condition may be replaced along a run by one that follows from it. -/
theorem Always.imp (h : ∀ s i, C s i → D s i) {is : List ι} (hC : Always step C s is) :
    Always step D s is := by
  induction is generalizing s with
  | nil => trivial
  | cons i is ih => exact ⟨h s i hC.1, fun t ht => ih (hC.2 t ht)⟩

/-- **What the condition says of an input** alone is true of all inputs of a run that
succeeds. -/
theorem Always.forall_mem {P : ι → Prop} (h : ∀ s i, C s i → P i) {is : List ι}
    (hC : Always step C s is) (hrun : run step s is = some t) : ∀ i ∈ is, P i := by
  induction is generalizing s with
  | nil => exact fun _ hi => absurd hi List.not_mem_nil
  | cons i is ih =>
    obtain ⟨u, hu, hrest⟩ := Option.bind_eq_some_iff.mp hrun
    exact List.forall_mem_cons.mpr ⟨h s i hC.1, ih (hC.2 u hu) hrest⟩

/-- A run goes on where another has come to. -/
theorem run_append {is js : List ι} :
    run step s (is ++ js) = (run step s is).bind fun t => run step t js := by
  induction is generalizing s with
  | nil => rfl
  | cons i is ih =>
    rw [List.cons_append, run_cons, run_cons, Option.bind_assoc]
    exact Option.bind_congr fun t _ => ih

/-- The condition holds along a run that goes on if it does along both parts. -/
theorem Always.append {is js : List ι} (h : Always step C s is)
    (h' : ∀ t, run step s is = some t → Always step C t js) : Always step C s (is ++ js) := by
  induction is generalizing s with
  | nil => exact h' s rfl
  | cons i is ih =>
    refine ⟨h.1, fun t ht => ih (h.2 t ht) fun u hu => h' u ?_⟩
    rw [run_cons, ht, Option.bind_some, hu]

/-! ### What a run can come to -/

/-- **A state can be reached** by steps that meet a condition. -/
def Reaches (step : σ → ι → Option σ) (C : σ → ι → Prop) (s t : σ) : Prop :=
  ∃ is, run step s is = some t ∧ Always step C s is

namespace Reaches

variable {u : σ}

theorem refl : Reaches step C s s := ⟨[], rfl, trivial⟩

/-- A step first. -/
theorem head {i : ι} (hC : C s i) (hstep : step s i = some t) (h : Reaches step C t u) :
    Reaches step C s u := by
  obtain ⟨is, hrun, his⟩ := h
  refine ⟨i :: is, by rw [run_cons, hstep, Option.bind_some, hrun], hC, fun v hv => ?_⟩
  obtain rfl := Option.some.inj (hstep.symm.trans hv)
  exact his

theorem single {i : ι} (hC : C s i) (hstep : step s i = some t) : Reaches step C s t :=
  refl.head hC hstep

theorem trans (h : Reaches step C s t) (h' : Reaches step C t u) : Reaches step C s u := by
  obtain ⟨is, hrun, his⟩ := h
  obtain ⟨js, hrun', hjs⟩ := h'
  refine ⟨is ++ js, by rw [run_append, hrun, Option.bind_some, hrun'], his.append fun v hv => ?_⟩
  obtain rfl := Option.some.inj (hrun.symm.trans hv)
  exact hjs

/-- What the steps preserve holds of what is reached. -/
theorem preserves {P : σ → Prop} (hstep : ∀ s i t, P s → C s i → step s i = some t → P t)
    (h : Reaches step C s t) (hs : P s) : P t := by
  obtain ⟨is, hrun, his⟩ := h
  exact his.run_preserves hstep hs hrun

end Reaches

/-! ### Simulation -/

section Simulation

variable {κ τ : Type} {R : τ → κ → τ → Prop} {a b : τ} {l l' : List κ}

/-- **A run of a relation** that reads the labels one after the other. -/
inductive Path (R : τ → κ → τ → Prop) : τ → List κ → τ → Prop
  | nil (a : τ) : Path R a [] a
  | cons {a b d : τ} {k : κ} {l : List κ} : R a k b → Path R b l d → Path R a (k :: l) d

namespace Path

theorem single {k : κ} (h : R a k b) : Path R a [k] b := .cons h (.nil b)

/-- Runs are composed. -/
theorem append {d : τ} (h : Path R a l b) (h' : Path R b l' d) : Path R a (l ++ l') d := by
  induction h with
  | nil => exact h'
  | cons hk _ ih => exact .cons hk (ih h')

/-- **What every step preserves, a run preserves.** -/
theorem preserves {P : τ → Prop} (hR : ∀ {a k b}, P a → R a k b → P b) (h : Path R a l b)
    (ha : P a) : P b := by
  induction h with
  | nil => exact ha
  | cons hk _ ih => exact ih (hR ha hk)

end Path

/-- What a run shows: the labels of its steps, as far as they have one. -/
def labels (step : σ → ι → Option σ) (label : σ → ι → Option κ) : σ → List ι → List κ
  | _, [] => []
  | s, i :: is => (label s i).toList ++ ((step s i).map fun t => labels step label t is).getD []

/-- **The rule of simulation**: if every step is a step of the abstract machine with its
label, or leaves the abstract state alone if it has none, then a run is a run of the
abstract machine with the labels it shows. -/
theorem path_of_always {Inv : σ → Prop} {f : σ → τ} {label : σ → ι → Option κ}
    (hstep : ∀ s i, Inv s → C s i →
      ∃ t, step s i = some t ∧ Inv t ∧ Path R (f s) (label s i).toList (f t))
    {is : List ι} (hs : Inv s) (hC : Always step C s is) :
    ∃ t, run step s is = some t ∧ Inv t ∧ Path R (f s) (labels step label s is) (f t) := by
  induction is generalizing s with
  | nil => exact ⟨s, rfl, hs, .nil _⟩
  | cons i is ih =>
    obtain ⟨t, ht, hinv, hpath⟩ := hstep s i hs hC.1
    obtain ⟨u, hu, hinv', hpath'⟩ := ih hinv (hC.2 t ht)
    refine ⟨u, by simp [ht, hu], hinv', ?_⟩
    rw [labels, ht, Option.map_some, Option.getD_some]
    exact hpath.append hpath'

/-- **The rule of refined steps**: if every step of a machine is a whole run of another, with
inputs that belong to the step, then so is every run, with the inputs that belong to its
steps one after the other – and what the steps of these runs meet is what all of them meet. -/
theorem exists_runs_of_steps {σ' ι' : Type} {step' : σ' → ι' → Option σ'}
    {C' D' : σ' → ι' → Prop} {Rel : σ → σ' → Prop} {P : ι → List ι' → Prop}
    (hstep : ∀ s s' i t, Rel s s' → C s i → step s i = some t →
      ∃ js t', P i js ∧ run step' s' js = some t' ∧ Rel t t' ∧ Always step' C' s' js ∧
        (D s i → Always step' D' s' js))
    {is : List ι} {s' : σ'} (hs : Rel s s') (hC : Always step C s is)
    (hrun : run step s is = some t) :
    ∃ jss t', List.Forall₂ P is jss ∧ run step' s' jss.flatten = some t' ∧ Rel t t' ∧
      Always step' C' s' jss.flatten ∧ (Always step D s is → Always step' D' s' jss.flatten) := by
  induction is generalizing s s' with
  | nil =>
    obtain rfl := Option.some.inj hrun
    exact ⟨[], s', .nil, rfl, hs, trivial, fun _ => trivial⟩
  | cons i is ih =>
    obtain ⟨u, hu, hrest⟩ := Option.bind_eq_some_iff.mp hrun
    obtain ⟨js, u', hP, hjs, hrel, hjsC, hjsD⟩ := hstep s s' i u hs hC.1 hu
    obtain ⟨jss, t', hPs, hjss, hrel', hjssC, hjssD⟩ := ih hrel (hC.2 u hu) hrest
    -- The first run comes to one state only.
    have hto : ∀ v, run step' s' js = some v → v = u' :=
      fun v hv => Option.some.inj (hv.symm.trans hjs)
    refine ⟨js :: jss, t', .cons hP hPs, ?_, hrel', hjsC.append fun v hv => hto v hv ▸ hjssC,
      fun hD => (hjsD hD.1).append fun v hv => hto v hv ▸ hjssD (hD.2 u hu)⟩
    rw [List.flatten_cons, run_append, hjs, Option.bind_some, hjss]

end Simulation

end Trace
