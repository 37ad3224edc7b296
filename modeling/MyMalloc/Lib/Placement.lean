import Mathlib.Data.List.Nodup
import Mathlib.Data.List.Perm.Basic
import Mathlib.Logic.Function.Basic

/-!
# Families of disjoint lists

A family of lists `at : ι → List α`, one per place, in which every element
stands in at most one place and at most once there (`Placement.Distinct`). It is
the shape of any store that files its items into several lists. The two
operations are prepending an item that stands nowhere (`Placement.push`) and
taking an item out of the list it stands in (`Placement.take`); both keep the
family distinct, and both say exactly what they change
(`Placement.mem_push`, `Placement.mem_take`).
-/

namespace Placement

variable {ι α : Type} {f : ι → List α} {p q : ι} {x y : α}

/-- **Every element stands in at most one place, and at most once there.** -/
structure Distinct (f : ι → List α) : Prop where
  nodup : ∀ p, (f p).Nodup
  unique : ∀ p q x, x ∈ f p → x ∈ f q → p = q

/-- An element that stands in no place. -/
def Nowhere (f : ι → List α) (x : α) : Prop := ∀ p, x ∉ f p

/-- A family whose lists are sublists of those of a distinct family is distinct. -/
theorem Distinct.of_sublist {g : ι → List α} (h : Distinct f) (hg : ∀ p, (g p).Sublist (f p)) :
    Distinct g where
  nodup p := (h.nodup p).sublist (hg p)
  unique p q x hp hq := h.unique p q x ((hg p).subset hp) ((hg q).subset hq)

section Push

variable [DecidableEq ι]

/-- The family with `x` prepended to the list at `p`. -/
def push (f : ι → List α) (p : ι) (x : α) : ι → List α := Function.update f p (x :: f p)

@[simp] theorem push_self : push f p x p = x :: f p := Function.update_self ..

theorem push_of_ne (h : q ≠ p) : push f p x q = f q := Function.update_of_ne h ..

/-- **What a push changes.** -/
theorem mem_push : y ∈ push f p x q ↔ (q = p ∧ y = x) ∨ y ∈ f q := by
  by_cases h : q = p
  · subst h
    simp
  · simp [push_of_ne h, h]

theorem Distinct.push (h : Distinct f) (hx : Nowhere f x) : Distinct (push f p x) where
  nodup q := by
    by_cases hq : q = p
    · subst hq
      rw [push_self]
      exact List.nodup_cons.mpr ⟨hx q, h.nodup q⟩
    · rw [push_of_ne hq]
      exact h.nodup q
  unique q r y hq hr := by
    rcases mem_push.mp hq with ⟨hqp, hyx⟩ | hq <;> rcases mem_push.mp hr with ⟨hrp, hyx'⟩ | hr
    · exact hqp.trans hrp.symm
    · exact absurd (hyx ▸ hr) (hx r)
    · exact absurd (hyx' ▸ hq) (hx q)
    · exact h.unique q r y hq hr

end Push

section Take

variable [DecidableEq ι] [DecidableEq α]

/-- The family with `x` taken out of the list at `p`. -/
def take (f : ι → List α) (p : ι) (x : α) : ι → List α := Function.update f p ((f p).erase x)

@[simp] theorem take_self : take f p x p = (f p).erase x := Function.update_self ..

theorem take_of_ne (h : q ≠ p) : take f p x q = f q := Function.update_of_ne h ..

/-- **What a removal changes.** -/
theorem mem_take (h : Distinct f) (hx : x ∈ f p) : y ∈ take f p x q ↔ y ∈ f q ∧ y ≠ x := by
  by_cases hq : q = p
  · subst hq
    rw [take_self, (h.nodup q).mem_erase_iff, and_comm]
  · rw [take_of_ne hq]
    refine ⟨fun hy => ⟨hy, ?_⟩, fun hy => hy.1⟩
    rintro rfl
    exact hq (h.unique q p y hy hx)

theorem Distinct.take (h : Distinct f) : Distinct (take f p x) := by
  refine h.of_sublist fun q => ?_
  by_cases hq : q = p
  · subst hq
    rw [take_self]
    exact List.erase_sublist
  · rw [take_of_ne hq]

/-- What was taken out stands nowhere. -/
theorem nowhere_take (h : Distinct f) (hx : x ∈ f p) : Nowhere (Placement.take f p x) x :=
  fun _ hq => ((mem_take h hx).mp hq).2 rfl

/-- **An item that moves** from one place to another: whatever stands somewhere stands
somewhere afterwards, and the other way round. -/
theorem exists_mem_push_take (h : Distinct f) (hx : x ∈ f p) :
    (∃ r, y ∈ Placement.push (Placement.take f p x) q x r) ↔ ∃ r, y ∈ f r := by
  constructor
  · rintro ⟨r, hr⟩
    rcases mem_push.mp hr with ⟨-, rfl⟩ | hr
    · exact ⟨p, hx⟩
    · exact ⟨r, ((mem_take h hx).mp hr).1⟩
  · rintro ⟨r, hr⟩
    by_cases hyx : y = x
    · exact ⟨q, mem_push.mpr (Or.inl ⟨rfl, hyx⟩)⟩
    · exact ⟨r, mem_push.mpr (Or.inr ((mem_take h hx).mpr ⟨hr, hyx⟩))⟩

end Take

end Placement
