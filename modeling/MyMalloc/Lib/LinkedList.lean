import Mathlib.Data.List.Basic
import Mathlib.Data.List.Nodup
import Mathlib.Logic.Function.Basic
import Mathlib.Logic.Relation

/-!
# Linked lists laid out in link fields

Lists that exist only as links between cells, over an arbitrary type of cells.
Two shapes are treated.

* A **ring** (`LinkedList.Ring`) is a circular doubly linked list: a head
  pointer, and two link fields `next` and `prev` that are inverse to each other
  along the list, the last cell being followed by the first.
* A **chain** (`LinkedList.Chain`) is a singly linked list that ends in a null
  link.

The link fields are functions from cells to optional cells, so a write to a link
is `Function.update` and a predicate about one list survives every write to a
cell outside it (`LinkedList.Ring.congr`, `LinkedList.Chain.congr`). The two
operations on rings – insertion of a new head and deletion of any member – are
stated as the link writes that perform them.

## The segment behind a ring

Everything about rings goes through `LinkedList.Seg`, a doubly linked segment
from one cell to another. A ring is a segment from its head back to its head;
cutting a ring at a member cuts the segment in two
(`LinkedList.seg_append_cons`), and the one surgery both operations need is to
make the last cell of a segment lead somewhere else
(`LinkedList.Seg.retarget`).

## Walks

What can be said about links that lay out no lists is which cells a walk along
`next` comes to (`LinkedList.Leads`). A walk from a head comes to a cell of a ring
exactly if it is a member. Members of a ring lead to each other, so it makes no
difference to any walk – or to any chain, as these meet no ring – when a ring is laid
out again with the same members in another order (`LinkedList.Ring.leads_congr`,
`LinkedList.Ring.chain_congr`).
-/

namespace LinkedList

variable {α : Type} {next prev next' prev' : α → Option α}

/-! ### Doubly linked segments -/

/-- **A doubly linked segment** from `a` through the cells of `l` to `z`: each
cell leads to the following one by `next`, and back by `prev`. -/
def Seg (next prev : α → Option α) : α → List α → α → Prop
  | a, [], z => next a = some z ∧ prev z = some a
  | a, b :: l, z => next a = some b ∧ prev b = some a ∧ Seg next prev b l z

@[simp] theorem seg_nil {a z : α} :
    Seg next prev a [] z ↔ next a = some z ∧ prev z = some a := Iff.rfl

@[simp] theorem seg_cons {a b z : α} {l : List α} :
    Seg next prev a (b :: l) z ↔ next a = some b ∧ prev b = some a ∧ Seg next prev b l z :=
  Iff.rfl

/-- A segment is cut in two at any of its inner cells. -/
theorem seg_append_cons {a x z : α} {l₁ l₂ : List α} :
    Seg next prev a (l₁ ++ x :: l₂) z ↔ Seg next prev a l₁ x ∧ Seg next prev x l₂ z := by
  induction l₁ generalizing a with
  | nil => simp [and_assoc]
  | cons b l₁ ih => simp [ih, and_assoc]

/-- The last cell of a segment is the one its end leads back to. -/
theorem Seg.prev_end {a z : α} {l : List α} (h : Seg next prev a l z) :
    prev z = some ((a :: l).getLast (by simp)) := by
  induction l generalizing a with
  | nil => exact h.2
  | cons b l ih => simpa using ih h.2.2

/-- The last cell of a segment leads to its end. -/
theorem Seg.next_last {a z : α} {l : List α} (h : Seg next prev a l z) :
    next ((a :: l).getLast (by simp)) = some z := by
  induction l generalizing a with
  | nil => exact h.1
  | cons b l ih => simpa using ih h.2.2

/-- A segment reads the `next` links of its start and inner cells, and the
`prev` links of its inner cells and end. -/
theorem Seg.congr {a z : α} {l : List α} (h : Seg next prev a l z)
    (hnext : ∀ u ∈ a :: l, next' u = next u) (hprev : ∀ v ∈ l, prev' v = prev v)
    (hend : prev' z = prev z) : Seg next' prev' a l z := by
  induction l generalizing a with
  | nil => exact ⟨(hnext a (by simp)).trans h.1, hend.trans h.2⟩
  | cons b l ih =>
    refine ⟨(hnext a (by simp)).trans h.1, (hprev b (by simp)).trans h.2.1, ?_⟩
    exact ih h.2.2 (fun u hu => hnext u (List.mem_cons_of_mem a hu))
      (fun v hv => hprev v (List.mem_cons_of_mem b hv))

/-- **The surgery on segments**: make the last cell `t` of a segment lead to
`z'` instead of `z`. Only `next t` and `prev z'` may differ from the links the
segment was read from. -/
theorem Seg.retarget {a z z' t : α} {l : List α} (h : Seg next prev a l z)
    (hnd : (a :: l).Nodup) (ht : (a :: l).getLast (by simp) = t)
    (hnext : ∀ u ∈ a :: l, u ≠ t → next' u = next u)
    (hprev : ∀ v ∈ l, prev' v = prev v)
    (htz : next' t = some z') (hzt : prev' z' = some t) : Seg next' prev' a l z' := by
  induction l generalizing a with
  | nil =>
    obtain rfl : a = t := by simpa using ht
    exact ⟨htz, hzt⟩
  | cons b l ih =>
    have hlast : (b :: l).getLast (by simp) = t := by simpa using ht
    have hat : a ≠ t := by
      rintro rfl
      exact (List.nodup_cons.mp hnd).1 (hlast ▸ List.getLast_mem _)
    refine ⟨(hnext a (by simp) hat).trans h.1, (hprev b (by simp)).trans h.2.1, ?_⟩
    exact ih h.2.2 (List.nodup_cons.mp hnd).2 hlast
      (fun u hu => hnext u (List.mem_cons_of_mem a hu))
      (fun v hv => hprev v (List.mem_cons_of_mem b hv))

/-- Along a segment every inner cell is led back to by its successor. -/
theorem Seg.inverse {a z : α} {l : List α} (h : Seg next prev a l z) {u : α}
    (hu : u ∈ a :: l) : ∃ v ∈ l ++ [z], next u = some v ∧ prev v = some u := by
  induction l generalizing a with
  | nil =>
    obtain rfl : u = a := by simpa using hu
    exact ⟨z, by simp, h⟩
  | cons b l ih =>
    rcases List.mem_cons.mp hu with rfl | hu
    · exact ⟨b, by simp, h.1, h.2.1⟩
    · obtain ⟨v, hv, hlinks⟩ := ih h.2.2 hu
      exact ⟨v, by simp at hv ⊢; tauto, hlinks⟩

/-! ### Rings -/

/-- **A ring**: the head pointer and the link fields lay out the list `l` as a
circular doubly linked list. -/
def Ring (next prev : α → Option α) (head : Option α) : List α → Prop
  | [] => head = none
  | a :: l => head = some a ∧ Seg next prev a l a

@[simp] theorem ring_nil {head : Option α} : Ring next prev head [] ↔ head = none := Iff.rfl

@[simp] theorem ring_cons {head : Option α} {a : α} {l : List α} :
    Ring next prev head (a :: l) ↔ head = some a ∧ Seg next prev a l a := Iff.rfl

theorem Ring.head_eq {head : Option α} {l : List α} (h : Ring next prev head l) :
    head = l.head? := by
  cases l with
  | nil => exact h
  | cons a l => exact h.1

/-- A ring only reads the links of its members. -/
theorem Ring.congr {head : Option α} {l : List α} (h : Ring next prev head l)
    (hnext : ∀ u ∈ l, next' u = next u) (hprev : ∀ u ∈ l, prev' u = prev u) :
    Ring next' prev' head l := by
  cases l with
  | nil => exact h
  | cons a l =>
    exact ⟨h.1, h.2.congr hnext (fun v hv => hprev v (by simp [hv])) (hprev a (by simp))⟩

/-- **`next` and `prev` are inverse to each other on a ring**, and stay in it. -/
theorem Ring.inverse {head : Option α} {l : List α} (h : Ring next prev head l) {u : α}
    (hu : u ∈ l) : ∃ v ∈ l, next u = some v ∧ prev v = some u := by
  cases l with
  | nil => simp at hu
  | cons a l =>
    obtain ⟨v, hv, hlinks⟩ := h.2.inverse hu
    exact ⟨v, by simpa [or_comm] using hv, hlinks⟩

/-- Every member of a ring is led to by the member its `prev` link names. -/
theorem Ring.inverse_prev {head : Option α} {l : List α} (h : Ring next prev head l) {v : α}
    (hv : v ∈ l) : ∃ u ∈ l, prev v = some u ∧ next u = some v := by
  cases l with
  | nil => simp at hv
  | cons a l =>
    rcases List.mem_cons.mp hv with rfl | hv
    · exact ⟨_, List.getLast_mem _, h.2.prev_end, h.2.next_last⟩
    · obtain ⟨l₁, l₂, rfl⟩ := List.append_of_mem hv
      obtain ⟨h₁, -⟩ := seg_append_cons.mp h.2
      have hsub : a :: l₁ ⊆ a :: (l₁ ++ v :: l₂) := by simp
      exact ⟨_, hsub (List.getLast_mem _), h₁.prev_end, h₁.next_last⟩

/-- The list a ring lays out is determined by its head and its links. -/
theorem Ring.unique {head : Option α} {l l' : List α} (h : Ring next prev head l)
    (h' : Ring next prev head l') (hnd : l.Nodup) (hnd' : l'.Nodup) : l = l' := by
  have hseg : ∀ (l l' : List α) (a z : α), Seg next prev a l z → Seg next prev a l' z →
      z ∉ l → z ∉ l' → l = l' := by
    intro l
    induction l with
    | nil =>
      intro l' a z h h' _ hz'
      cases l' with
      | nil => rfl
      | cons b l' =>
        obtain rfl : z = b := Option.some.inj (h.1.symm.trans h'.1)
        simp at hz'
    | cons b l ih =>
      intro l' a z h h' hz hz'
      cases l' with
      | nil =>
        obtain rfl : b = z := Option.some.inj (h.1.symm.trans h'.1)
        simp at hz
      | cons c l' =>
        obtain rfl : b = c := Option.some.inj (h.1.symm.trans h'.1)
        rw [ih l' b z h.2.2 h'.2.2 (fun hc => hz (by simp [hc])) (fun hc => hz' (by simp [hc]))]
  cases l with
  | nil => cases l' <;> simp_all
  | cons a l =>
    cases l' with
    | nil => simp_all
    | cons b l' =>
      obtain rfl : a = b := Option.some.inj (h.1.symm.trans h'.1)
      rw [hseg l l' a a h.2 h'.2 (List.nodup_cons.mp hnd).1 (List.nodup_cons.mp hnd').1]

/-- A member leads back to itself exactly when it is the only one. -/
theorem Ring.prev_self_iff {head : Option α} {l : List α} (h : Ring next prev head l)
    (hnd : l.Nodup) {x : α} (hx : x ∈ l) : prev x = some x ↔ l = [x] := by
  constructor
  · intro hself
    obtain ⟨a, l, rfl⟩ := List.exists_cons_of_ne_nil (List.ne_nil_of_mem hx)
    rcases List.mem_cons.mp hx with rfl | hx
    · have hlast : (x :: l).getLast (by simp) = x :=
        Option.some.inj (h.2.prev_end.symm.trans hself)
      cases l with
      | nil => rfl
      | cons b l =>
        have hmem : x ∈ b :: l := hlast ▸ List.getLast_mem (l := b :: l) (by simp)
        exact absurd hmem (List.nodup_cons.mp hnd).1
    · obtain ⟨l₁, l₂, rfl⟩ := List.append_of_mem hx
      obtain ⟨h₁, -⟩ := seg_append_cons.mp h.2
      have hlast : (a :: l₁).getLast (by simp) = x :=
        Option.some.inj (h₁.prev_end.symm.trans hself)
      have hmem : x ∈ a :: l₁ := hlast ▸ List.getLast_mem _
      have hnd' : ((a :: l₁) ++ x :: l₂).Nodup := by simpa using hnd
      exact absurd rfl ((List.nodup_append.mp hnd').2.2 x hmem x (by simp))
  · rintro rfl
    exact h.2.2

section Update

variable [DecidableEq α]

open Function

/-- **Insertion into an empty ring**: the new cell is linked to itself. -/
theorem Ring.singleton (x : α) :
    Ring (update next x (some x)) (update prev x (some x)) (some x) [x] := by
  simp

/-- **Insertion at the head of a ring** whose last cell is `t`: the new cell `x`
goes between `t` and the old head `a`. -/
theorem Ring.insert_head {a t x : α} {l : List α} (h : Ring next prev (some a) (a :: l))
    (hnd : (a :: l).Nodup) (ht : prev a = some t) (hx : x ∉ a :: l) :
    Ring (update (update next t (some x)) x (some a))
      (update (update prev x (some t)) a (some x)) (some x) (x :: a :: l) := by
  have hlast : (a :: l).getLast (by simp) = t := Option.some.inj (h.2.prev_end.symm.trans ht)
  have htmem : t ∈ a :: l := hlast ▸ List.getLast_mem _
  have htx : t ≠ x := fun hc => hx (hc ▸ htmem)
  have hax : a ≠ x := fun hc => hx (by simp [hc])
  refine ⟨rfl, by simp, by simp, ?_⟩
  refine h.2.retarget hnd hlast (fun u hu hut => ?_) (fun v hv => ?_) ?_ ?_
  · have hux : u ≠ x := fun hc => hx (hc ▸ hu)
    simp [hux, hut]
  · have hva : v ≠ a := fun hc => (List.nodup_cons.mp hnd).1 (hc ▸ hv)
    have hvx : v ≠ x := fun hc => hx (by simp [← hc, hv])
    simp [hva, hvx]
  · simp [htx]
  · simp [Ne.symm hax]

/-- **Deletion from a ring** of a member `x` that is not alone: its neighbours
`p` and `n` are linked to each other, and when `x` is the head the cell after it
becomes the head. -/
theorem Ring.delete {head : Option α} {l : List α} {x p n : α} (h : Ring next prev head l)
    (hnd : l.Nodup) (hx : x ∈ l) (hp : prev x = some p) (hn : next x = some n) (hpx : p ≠ x) :
    Ring (update next p (some n)) (update prev n (some p))
      (if head = some x then some n else head) (l.erase x) := by
  obtain ⟨a, l, rfl⟩ := List.exists_cons_of_ne_nil (List.ne_nil_of_mem hx)
  obtain ⟨rfl, hseg⟩ := h
  by_cases hax : a = x
  · -- Deleting the head: the segment from the second cell is closed on itself.
    subst hax
    cases l with
    | nil => exact absurd (Option.some.inj (hp.symm.trans hseg.2)) hpx
    | cons b l =>
      obtain rfl : n = b := Option.some.inj (hn.symm.trans hseg.1)
      have hnd' := List.nodup_cons.mp hnd
      have hlast : (n :: l).getLast (by simp) = p :=
        Option.some.inj (hseg.2.2.prev_end.symm.trans hp)
      simp only [if_true, List.erase_cons_head, ring_cons, true_and]
      refine hseg.2.2.retarget hnd'.2 hlast (fun u _ hup => ?_) (fun v hv => ?_) ?_ ?_
      · simp [hup]
      · have hvn : v ≠ n := fun hc => (List.nodup_cons.mp hnd'.2).1 (hc ▸ hv)
        simp [hvn]
      · simp
      · simp
  · -- Deleting another member: the segment is cut there and closed again.
    have hxl : x ∈ l := (List.mem_cons.mp hx).resolve_left (Ne.symm hax)
    obtain ⟨l₁, l₂, rfl⟩ := List.append_of_mem hxl
    obtain ⟨h₁, h₂⟩ := seg_append_cons.mp hseg
    have hnd' : ((a :: l₁) ++ x :: l₂).Nodup := by simpa using hnd
    obtain ⟨hnd₁, hnd₂, hdisj⟩ := List.nodup_append.mp hnd'
    have hlast : (a :: l₁).getLast (by simp) = p := Option.some.inj (h₁.prev_end.symm.trans hp)
    have hpmem : p ∈ a :: l₁ := hlast ▸ List.getLast_mem _
    have hxl₁ : x ∉ l₁ := fun hc => hdisj x (by simp [hc]) x (by simp) rfl
    have herase : (a :: (l₁ ++ x :: l₂)).erase x = a :: (l₁ ++ l₂) := by
      rw [List.erase_cons_tail (by simpa using hax), List.erase_append_right _ hxl₁,
        List.erase_cons_head]
    rw [herase, if_neg (fun hc => hax (Option.some.inj hc))]
    refine ⟨rfl, ?_⟩
    cases l₂ with
    | nil =>
      obtain rfl : n = a := Option.some.inj (hn.symm.trans h₂.1)
      rw [List.append_nil]
      refine h₁.retarget hnd₁ hlast (fun u _ hup => by simp [hup]) (fun v hv => ?_)
        (by simp) (by simp)
      have hvn : v ≠ n := fun hc => (List.nodup_cons.mp hnd₁).1 (hc ▸ hv)
      simp [hvn]
    | cons b l₂ =>
      obtain rfl : n = b := Option.some.inj (hn.symm.trans h₂.1)
      have hndn := List.nodup_cons.mp hnd₂
      refine seg_append_cons.mpr ⟨?_, ?_⟩
      · refine h₁.retarget hnd₁ hlast (fun u _ hup => by simp [hup]) (fun v hv => ?_)
          (by simp) (by simp)
        have hvn : v ≠ n := fun hc => hdisj v (by simp [hv]) n (by simp) hc
        simp [hvn]
      · refine h₂.2.2.congr (fun u hu => ?_) (fun v hv => ?_) ?_
        · have hup : u ≠ p := fun hc => hdisj p hpmem u (List.mem_cons_of_mem x hu) hc.symm
          simp [hup]
        · have hvn : v ≠ n := fun hc => (List.nodup_cons.mp hndn.2).1 (hc ▸ hv)
          simp [hvn]
        · have han : a ≠ n := fun hc => hdisj a (by simp) n (by simp) hc
          simp [han]

end Update

/-! ### Chains -/

/-- **A chain**: the head pointer and the link field lay out the list `l` as a
singly linked list ending in a null link. -/
def Chain (next : α → Option α) : Option α → List α → Prop
  | head, [] => head = none
  | head, a :: l => head = some a ∧ Chain next (next a) l

@[simp] theorem chain_nil {head : Option α} : Chain next head [] ↔ head = none := Iff.rfl

@[simp] theorem chain_cons {head : Option α} {a : α} {l : List α} :
    Chain next head (a :: l) ↔ head = some a ∧ Chain next (next a) l := Iff.rfl

theorem Chain.head_eq {head : Option α} {l : List α} (h : Chain next head l) :
    head = l.head? := by
  cases l with
  | nil => exact h
  | cons a l => exact h.1

/-- A chain only reads the links of its members. -/
theorem Chain.congr {head : Option α} {l : List α} (h : Chain next head l)
    (hnext : ∀ u ∈ l, next' u = next u) : Chain next' head l := by
  induction l generalizing head with
  | nil => exact h
  | cons a l ih =>
    refine ⟨h.1, ?_⟩
    rw [hnext a (by simp)]
    exact ih h.2 (fun u hu => hnext u (by simp [hu]))

/-- The list a chain lays out is determined by its head and its links. -/
theorem Chain.unique {head : Option α} {l l' : List α} (h : Chain next head l)
    (h' : Chain next head l') : l = l' := by
  induction l generalizing head l' with
  | nil =>
    cases l' with
    | nil => rfl
    | cons b l' => simp_all
  | cons a l ih =>
    cases l' with
    | nil => simp_all
    | cons b l' =>
      obtain rfl : a = b := Option.some.inj (h.1.symm.trans h'.1)
      rw [ih h.2 h'.2]

/-- **Insertion at the head of a chain.** -/
theorem Chain.insert_head [DecidableEq α] {head : Option α} {l : List α} {x : α}
    (h : Chain next head l) (hx : x ∉ l) :
    Chain (Function.update next x head) (some x) (x :: l) := by
  refine ⟨rfl, ?_⟩
  rw [Function.update_self]
  exact h.congr fun u hu => Function.update_of_ne (ne_of_mem_of_not_mem hu hx) _ _

/-! ### Walks -/

/-- A walk along `next` from the cell `a` comes to the cell `x`. -/
def Leads (next : α → Option α) (a x : α) : Prop :=
  Relation.ReflTransGen (fun u v => next u = some v) a x

/-- A walk along `next` from a head comes to a cell. -/
def Reaches (next : α → Option α) (head : Option α) (x : α) : Prop :=
  ∃ a, head = some a ∧ Leads next a x

/-- The start of a segment leads to its cells and to its end. -/
theorem Seg.leads {a z x : α} {l : List α} (h : Seg next prev a l z) (hx : x ∈ l ++ [z]) :
    Leads next a x := by
  induction l generalizing a with
  | nil =>
    obtain rfl : x = z := by simpa using hx
    exact .single h.1
  | cons b l ih =>
    rcases List.mem_cons.mp hx with rfl | hx
    · exact .single h.1
    · exact .head h.1 (ih h.2.2 hx)

/-- The cells of a segment lead to its end. -/
theorem Seg.leads_end {a z x : α} {l : List α} (h : Seg next prev a l z) (hx : x ∈ a :: l) :
    Leads next x z := by
  induction l generalizing a x with
  | nil =>
    obtain rfl : x = a := by simpa using hx
    exact .single h.1
  | cons b l ih =>
    rcases List.mem_cons.mp hx with rfl | hx
    · exact .head h.1 (ih h.2.2 (List.mem_cons_self ..))
    · exact ih h.2.2 hx

/-- **Members of a ring lead to each other.** -/
theorem Ring.leads {head : Option α} {l : List α} (h : Ring next prev head l) {x y : α}
    (hx : x ∈ l) (hy : y ∈ l) : Leads next x y := by
  cases l with
  | nil => cases hx
  | cons a l =>
    have hy : y ∈ l ++ [a] := by simpa [or_comm] using hy
    exact (h.2.leads_end hx).trans (h.2.leads hy)

/-- A walk does not leave a ring. -/
theorem Ring.mem_of_leads {head : Option α} {l : List α} (h : Ring next prev head l) {x y : α}
    (hx : x ∈ l) (hxy : Leads next x y) : y ∈ l := by
  induction hxy with
  | refl => exact hx
  | tail _ hstep ih =>
    obtain ⟨v, hv, hnext, -⟩ := h.inverse ih
    rwa [← Option.some.inj (hnext.symm.trans hstep)]

/-- The cells a walk from the head of a ring comes to are its members. -/
theorem Ring.reaches_iff {head : Option α} {l : List α} (h : Ring next prev head l) {x : α} :
    Reaches next head x ↔ x ∈ l := by
  cases l with
  | nil =>
    rw [ring_nil] at h
    simp [Reaches, h]
  | cons a l =>
    constructor
    · rintro ⟨b, hb, hwalk⟩
      obtain rfl : a = b := Option.some.inj (h.1.symm.trans hb)
      exact h.mem_of_leads (List.mem_cons_self ..) hwalk
    · intro hx
      exact ⟨a, h.1, h.leads (List.mem_cons_self ..) hx⟩

section Relayout

variable {head head' : Option α} {l l' : List α}

/-- A walk comes to a cell as before when a ring is laid out in another order. -/
theorem Ring.leads_of_relayout (h : Ring next prev head l) (h' : Ring next' prev' head' l')
    (hmem : ∀ u ∈ l, u ∈ l') (hnext : ∀ u, u ∉ l → next' u = next u) {a x : α}
    (hwalk : Leads next a x) : Leads next' a x := by
  induction hwalk with
  | refl => exact .refl
  | @tail u v _ hstep ih =>
    by_cases hu : u ∈ l
    · -- A step inside the ring is a walk inside the new one.
      obtain ⟨w, hw, hlink, -⟩ := h.inverse hu
      obtain rfl : w = v := Option.some.inj (hlink.symm.trans hstep)
      exact ih.trans (h'.leads (hmem u hu) (hmem w hw))
    · exact .tail ih ((hnext u hu).trans hstep)

/-- **Walks do not see the order of a ring.** -/
theorem Ring.leads_congr (h : Ring next prev head l) (h' : Ring next' prev' head' l')
    (hmem : ∀ u, u ∈ l ↔ u ∈ l') (hnext : ∀ u, u ∉ l → next' u = next u) {a x : α} :
    Leads next' a x ↔ Leads next a x := by
  constructor
  · refine h'.leads_of_relayout h (fun u hu => (hmem u).mpr hu) fun u hu => ?_
    exact (hnext u fun hc => hu ((hmem u).mp hc)).symm
  · exact h.leads_of_relayout h' (fun u hu => (hmem u).mp hu) hnext

/-- No cell of a ring is on a chain. -/
theorem Ring.not_mem_chain (h : Ring next prev head l) {c : List α} (hc : Chain next head' c)
    {u : α} (hu : u ∈ c) : u ∉ l := by
  induction c generalizing head' u with
  | nil => cases hu
  | cons a c ih =>
    rcases List.mem_cons.mp hu with rfl | hu
    · intro hul
      obtain ⟨v, hv, hnext, -⟩ := h.inverse hul
      have hrest := hc.2
      rw [hnext] at hrest
      -- The next cell is on the ring as well, and on the rest of the chain.
      have hhead : v ∈ c := List.mem_of_head? hrest.head_eq.symm
      exact ih hc.2 hhead hv
    · exact ih hc.2 hu

/-- **Chains do not see the order of a ring.** -/
theorem Ring.chain_congr (h : Ring next prev head l) (h' : Ring next' prev' head' l')
    (hmem : ∀ u, u ∈ l ↔ u ∈ l') (hnext : ∀ u, u ∉ l → next' u = next u) {first : Option α}
    {c : List α} : Chain next' first c ↔ Chain next first c := by
  constructor
  · intro hc
    exact hc.congr fun u hu => (hnext u fun hul => h'.not_mem_chain hc hu ((hmem u).mp hul)).symm
  · intro hc
    exact hc.congr fun u hu => hnext u (h.not_mem_chain hc hu)

end Relayout

end LinkedList
