import MyMalloc.Lib.AddressSpace
import MyMalloc.Lib.ByteMemory
import MyMalloc.Lib.Trace
import Mathlib.Logic.Function.Basic

/-!
# Stores of blocks

What a memory allocator is to its clients: blocks, each with an address, a length and
what the client has written into it. A `BlockStore.Store` says what the live blocks
hold. The clients and the allocator act on it (`BlockStore.Action`), and
`BlockStore.Step` says what an action does: a new block does not meet any other, a block
that is moved keeps what it holds as far as there is room, and nothing happens to a
block that the action does not name.

The live blocks of a store lie apart and are aligned (`BlockStore.Separated`), which
every action keeps. So does what a block holds, until an action names it
(`BlockStore.Step.get_of_not_mem`).

A store is read off a memory and the list of the live blocks by `BlockStore.view`. It
only depends on the bytes of these blocks (`BlockStore.view_congr`), and the last part
has what becomes of it when a block comes, goes or is written.
-/

namespace BlockStore

open AddressSpace Trace Function

variable {α : Type}

/-- **The live blocks**, by address, with what they hold. -/
abbrev Store (α : Type) := ℕ → Option (List α)

/-- No block is live. -/
def empty : Store α := fun _ => none

/-- A block is live from now on, and this is what it holds. -/
abbrev insert (σ : Store α) (p : ℕ) (bs : List α) : Store α := update σ p (some bs)

/-- A block is not live any more. -/
abbrev erase (σ : Store α) (p : ℕ) : Store α := update σ p none

/-- What a block holds that has been written at an offset. -/
def overwrite (old : List α) (off : ℕ) (bs : List α) : List α :=
  old.take off ++ bs ++ old.drop (off + bs.length)

theorem length_overwrite {old bs : List α} {off : ℕ} (h : off + bs.length ≤ old.length) :
    (overwrite old off bs).length = old.length := by
  simp only [overwrite, List.length_append, List.length_take, List.length_drop]
  omega

/-! ### Actions -/

/-- What happens to the blocks. -/
inductive Action (α : Type) where
  /-- A block of some length is returned. -/
  | alloc (p n : ℕ) : Action α
  /-- A block of some length is returned, filled with a value. -/
  | fill (p n : ℕ) (x : α) : Action α
  /-- The block at `p` is moved to `q`, and its length is changed. -/
  | move (p q n : ℕ) : Action α
  | free (p : ℕ) : Action α
  /-- A client writes into a block. -/
  | write (p off : ℕ) (bs : List α) : Action α
  deriving DecidableEq

/-- The blocks an action names. -/
def Action.names : Action α → List ℕ
  | .alloc p _ => [p]
  | .fill p _ _ => [p]
  | .move p q _ => [p, q]
  | .free p => [p]
  | .write p _ _ => [p]

/-- **A range for a new block**: aligned to multiples of `k`, not at zero, and apart from
every live block. -/
structure Fresh (k : ℕ) (σ : Store α) (p n : ℕ) : Prop where
  not_live : σ p = none
  pos : 0 < p
  dvd : k ∣ p
  apart : ∀ q bs, σ q = some bs → Apart (q, bs.length) (p, n)

/-- **What an action does** to a store with blocks aligned to multiples of `k`. -/
inductive Step (k : ℕ) (σ : Store α) : Action α → Store α → Prop
  | alloc {p n : ℕ} {bs : List α} : Fresh k σ p n → bs.length = n →
      Step k σ (.alloc p n) (insert σ p bs)
  | fill {p n : ℕ} (x : α) : Fresh k σ p n →
      Step k σ (.fill p n x) (insert σ p (List.replicate n x))
  | move {p q n : ℕ} {old bs : List α} : σ p = some old → Fresh k σ q n → bs.length = n →
      bs.take (min old.length n) = old.take (min old.length n) →
      Step k σ (.move p q n) (insert (erase σ p) q bs)
  | free {p : ℕ} {old : List α} : σ p = some old → Step k σ (.free p) (erase σ p)
  | write {p off : ℕ} {old bs : List α} : σ p = some old → off + bs.length ≤ old.length →
      Step k σ (.write p off bs) (insert σ p (overwrite old off bs))

/-! ### What actions keep -/

/-- **The live blocks lie apart** and are aligned. -/
structure Separated (k : ℕ) (σ : Store α) : Prop where
  aligned : ∀ p bs, σ p = some bs → 0 < p ∧ k ∣ p
  apart : ∀ p q bs bs', σ p = some bs → σ q = some bs' → p ≠ q →
    Apart (p, bs.length) (q, bs'.length)

variable {k p n : ℕ} {σ σ' : Store α} {bs : List α} {a : Action α}

theorem separated_empty : Separated k (empty : Store α) where
  aligned _ _ h := nomatch h
  apart _ _ _ _ h := nomatch h

/-- A block of the store after an insertion. -/
theorem insert_eq_some {q : ℕ} {bs' : List α} (h : insert σ p bs q = some bs') :
    q = p ∧ bs' = bs ∨ q ≠ p ∧ σ q = some bs' := by
  by_cases hq : q = p
  · subst hq
    rw [insert, update_self] at h
    exact Or.inl ⟨rfl, (Option.some.inj h).symm⟩
  · rw [insert, update_of_ne hq] at h
    exact Or.inr ⟨hq, h⟩

/-- A block of the store after a removal. -/
theorem erase_eq_some {q : ℕ} {bs' : List α} (h : erase σ p q = some bs') :
    q ≠ p ∧ σ q = some bs' := by
  by_cases hq : q = p
  · subst hq
    rw [erase, update_self] at h
    cases h
  · rw [erase, update_of_ne hq] at h
    exact ⟨hq, h⟩

namespace Separated

variable (hσ : Separated k σ)

include hσ

theorem insert (h : 0 < p ∧ k ∣ p)
    (hapart : ∀ q bs', σ q = some bs' → q ≠ p → Apart (q, bs'.length) (p, bs.length)) :
    Separated k (insert σ p bs) where
  aligned q bs' hq := by
    rcases insert_eq_some hq with ⟨rfl, -⟩ | ⟨-, hq⟩
    · exact h
    · exact hσ.aligned q bs' hq
  apart q q' bs₁ bs₂ hq hq' hne := by
    rcases insert_eq_some hq with ⟨rfl, rfl⟩ | ⟨hqp, hold⟩ <;>
      rcases insert_eq_some hq' with ⟨rfl, rfl⟩ | ⟨hqp', hold'⟩
    · exact absurd rfl hne
    · exact (hapart q' bs₂ hold' hqp').symm
    · exact hapart q bs₁ hold hqp
    · exact hσ.apart q q' bs₁ bs₂ hold hold' hne

theorem erase (p : ℕ) : Separated k (erase σ p) where
  aligned q bs' hq := hσ.aligned q bs' (erase_eq_some hq).2
  apart q q' bs₁ bs₂ hq hq' :=
    hσ.apart q q' bs₁ bs₂ (erase_eq_some hq).2 (erase_eq_some hq').2

/-- What is written into a block does not matter. -/
theorem replace {old : List α} (hp : σ p = some old) (hlen : bs.length = old.length) :
    Separated k (BlockStore.insert σ p bs) := by
  refine hσ.insert (hσ.aligned p old hp) fun q bs' hq hne => ?_
  rw [hlen]
  exact hσ.apart q p bs' old hq hp hne

end Separated

/-- **A range is fresh** if the blocks lie apart with a block there. -/
theorem Fresh.of_separated (h : Separated k (insert σ p bs)) (hp : σ p = none) :
    Fresh k σ p bs.length := by
  have hself : insert σ p bs p = some bs := update_self ..
  refine ⟨hp, (h.aligned p bs hself).1, (h.aligned p bs hself).2, fun q bs' hq => ?_⟩
  have hne : q ≠ p := by
    rintro rfl
    rw [hp] at hq
    cases hq
  exact h.apart q p bs' bs ((update_of_ne hne ..).trans hq) hself hne

/-- **Every action keeps the blocks apart.** -/
theorem Step.separated (hσ : Separated k σ) (h : Step k σ a σ') : Separated k σ' := by
  cases h with
  | alloc hfresh hlen =>
    refine hσ.insert ⟨hfresh.pos, hfresh.dvd⟩ fun q bs' hq _ => ?_
    rw [hlen]
    exact hfresh.apart q bs' hq
  | fill x hfresh =>
    refine hσ.insert ⟨hfresh.pos, hfresh.dvd⟩ fun q bs' hq _ => ?_
    rw [List.length_replicate]
    exact hfresh.apart q bs' hq
  | move hp hfresh hlen _ =>
    refine (hσ.erase _).insert ⟨hfresh.pos, hfresh.dvd⟩ fun q bs' hq _ => ?_
    rw [hlen]
    exact hfresh.apart q bs' (erase_eq_some hq).2
  | free hp => exact hσ.erase _
  | write hp hle => exact hσ.replace hp (length_overwrite hle)

/-- **An action does nothing to a block it does not name.** -/
theorem Step.get_of_not_mem (h : Step k σ a σ') (hp : p ∉ a.names) : σ' p = σ p := by
  cases h <;> simp only [Action.names, List.mem_cons, List.not_mem_nil, or_false, not_or] at hp
  case move => rw [insert, update_of_ne hp.2, erase, update_of_ne hp.1]
  all_goals exact update_of_ne hp ..

/-- **A block holds what it held** as long as no action names it. -/
theorem get_of_path {as : List (Action α)} (h : Path (Step k) σ as σ')
    (hp : ∀ a ∈ as, p ∉ a.names) : σ' p = σ p := by
  induction h with
  | nil => rfl
  | cons hstep _ ih =>
    rw [ih fun a ha => hp a (List.mem_cons_of_mem _ ha)]
    exact hstep.get_of_not_mem (hp _ (List.mem_cons_self ..))

/-! ### The store in a memory -/

/-- What the live blocks, address and length, hold in a memory. -/
def view (m : ByteMemory.Mem) (live : List (ℕ × ℕ)) : Store UInt8 := fun p =>
  (live.lookup p).map (ByteMemory.load m p)

variable {m m' : ByteMemory.Mem} {live live' : List (ℕ × ℕ)} {b : ℕ × ℕ}

@[simp] theorem view_nil : view m [] = empty := rfl

theorem view_cons : view m ((p, n) :: live) = insert (view m live) p (ByteMemory.load m p n) := by
  funext q
  by_cases hq : q = p
  · subst hq
    rw [insert, update_self, view, List.lookup_cons_self, Option.map_some]
  · rw [insert, update_of_ne hq, view, view, List.lookup_cons, beq_eq_false_iff_ne.mpr hq]

/-- The address of a block that is found is that of a member. -/
theorem mem_of_lookup {l : List (ℕ × ℕ)} (h : l.lookup p = some n) : (p, n) ∈ l := by
  induction l with
  | nil => cases h
  | cons b l ih =>
    obtain ⟨q, n'⟩ := b
    rw [List.lookup_cons] at h
    by_cases hq : p = q
    · subst hq
      rw [beq_self_eq_true] at h
      cases h
      exact List.mem_cons_self ..
    · rw [beq_eq_false_iff_ne.mpr hq] at h
      exact List.mem_cons_of_mem _ (ih h)

/-- A block of the store is one of the list, with what it holds in the memory. -/
theorem view_eq_some {bs : List UInt8} (h : view m live p = some bs) :
    (p, bs.length) ∈ live ∧ bs = ByteMemory.load m p bs.length := by
  obtain ⟨n, hn, rfl⟩ := Option.map_eq_some_iff.mp h
  rw [ByteMemory.length_load]
  exact ⟨mem_of_lookup hn, rfl⟩

theorem view_eq_none (h : ∀ b ∈ live, b.1 ≠ p) : view m live p = none := by
  cases hv : view m live p with
  | none => rfl
  | some bs => exact absurd rfl (h _ (view_eq_some hv).1)

/-- **The store only depends on the bytes of the live blocks.** -/
theorem view_congr (h : ∀ b ∈ live, ByteMemory.load m' b.1 b.2 = ByteMemory.load m b.1 b.2) :
    view m' live = view m live := by
  funext p
  rw [view, view]
  cases hn : live.lookup p with
  | none => rfl
  | some n => exact congrArg some (h _ (mem_of_lookup hn))

/-- **A block that is taken from the list** is taken from the store. -/
theorem view_filter : view m (live.filter fun b => b.1 ≠ p) = erase (view m live) p := by
  induction live with
  | nil => exact (update_eq_self_iff.mpr rfl).symm
  | cons b live ih =>
    obtain ⟨q, n⟩ := b
    by_cases hq : q = p
    · subst hq
      rw [List.filter_cons_of_neg (by simp), ih, view_cons]
      exact (update_idem ..).symm
    · rw [List.filter_cons_of_pos (by simpa using hq), view_cons, view_cons, ih]
      exact (update_comm hq ..).symm

/-- A block may come anywhere into the list, if there is none at its address. -/
theorem view_middle (h : ∀ b ∈ live, b.1 ≠ p) : view m (live ++ (p, n) :: live') =
    insert (view m (live ++ live')) p (ByteMemory.load m p n) := by
  induction live with
  | nil => exact view_cons
  | cons b live ih =>
    obtain ⟨hb, hlive⟩ := List.forall_mem_cons.mp h
    rw [List.cons_append, List.cons_append, view_cons, view_cons, ih hlive]
    exact update_comm hb.symm ..

/-- A live block of a list with different addresses is in the store. -/
theorem view_of_mem (hnd : (live.map Prod.fst).Nodup) (hb : b ∈ live) :
    view m live b.1 = some (ByteMemory.load m b.1 b.2) := by
  induction live with
  | nil => cases hb
  | cons b' live ih =>
    obtain ⟨q, n⟩ := b'
    rw [List.map_cons, List.nodup_cons] at hnd
    rw [view_cons]
    rcases List.mem_cons.mp hb with rfl | hb
    · exact update_self ..
    · have hne : b.1 ≠ q := fun hc => hnd.1 (List.mem_map.mpr ⟨b, hb, hc⟩)
      exact (update_of_ne hne ..).trans (ih hnd.2 hb)

/-- **A write into a block** is an overwriting of what it holds. -/
theorem view_store (hσ : Separated k (view m live)) {off : ℕ} {old : List UInt8}
    (hp : view m live p = some old) {bs : List UInt8} (hle : off + bs.length ≤ old.length) :
    view (ByteMemory.store m (p + off) bs) live =
      insert (view m live) p (overwrite old off bs) := by
  funext q
  by_cases hq : q = p
  · subst hq
    obtain ⟨n, hn, rfl⟩ := Option.map_eq_some_iff.mp hp
    rw [ByteMemory.length_load] at hle
    rw [insert, update_self, view, hn, Option.map_some, ByteMemory.load_store_within hle,
      overwrite]
  · rw [insert, update_of_ne hq, view, view]
    cases hn : live.lookup q with
    | none => rfl
    | some n =>
      have hv : view m live q = some (ByteMemory.load m q n) := by rw [view, hn, Option.map_some]
      have hapart := hσ.apart q p _ old hv hp hq
      rw [ByteMemory.length_load] at hapart
      simp only [Apart] at hapart
      exact congrArg some (ByteMemory.load_congr fun i hi hi' =>
        ByteMemory.store_outside (by omega))

end BlockStore
