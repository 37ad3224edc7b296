import Mathlib.Data.List.Basic
import Mathlib.Data.Nat.Basic

/-!
# Searching

## Binary search for a threshold

The half-open binary search: the interval `[i, j)` is halved at its middle
element `s = i + (j - i) / 2`, going to `[s + 1, j)` when the probe of `s` says
the answer lies above `s` and to `[i, s)` otherwise. A probe may be undefined
(`none`) – outside the array being searched – and then the whole search is.

The specification is by a threshold `k`: if the probes of the positions below
`n` say “above” exactly for those below `k`, the search returns `k`
(`BinarySearch.search_eq`). As the probes need only be defined below `n`, it
also never probes outside the array. `BinarySearch.trace` is the same search with
the positions it probes on the way, and these stay inside the interval whatever the
probes say (`BinarySearch.mem_trace`).

## Linear search for the first hit

`List.findSome?` on a list in order: the element it stops at comes before every other
one that would have been a hit (`LinearSearch.findSome?_first`).
-/

namespace BinarySearch

/-- The search loop on the interval `[i, j)`, with at most `fuel` probes. -/
def loop (above : ℕ → Option Bool) : ℕ → ℕ → ℕ → Option ℕ
  | 0, i, j => if i < j then none else some j
  | fuel + 1, i, j =>
    if i < j then
      let s := i + (j - i) / 2
      (above s).bind fun b => if b then loop above fuel (s + 1) j else loop above fuel i s
    else some j

/-- The search of the positions `0, …, n - 1`. -/
def search (above : ℕ → Option Bool) (n : ℕ) : Option ℕ := loop above n 0 n

variable {above : ℕ → Option Bool} {n k : ℕ}

/-- **The loop invariant**: the threshold stays in the interval, which shrinks
at every probe. -/
theorem loop_eq (h : ∀ s < n, above s = some (decide (s < k))) {fuel i j : ℕ}
    (hi : i ≤ k) (hk : k ≤ j) (hj : j ≤ n) (hfuel : j - i ≤ fuel) :
    loop above fuel i j = some k := by
  induction fuel generalizing i j with
  | zero => rw [loop, if_neg (by omega), show j = k by omega]
  | succ fuel ih =>
    by_cases hij : i < j
    · have hprobe := h (i + (j - i) / 2) (by omega)
      simp only [loop, if_pos hij, hprobe, Option.bind_some]
      by_cases hs : i + (j - i) / 2 < k
      · simpa [hs] using ih (by omega) hk hj (by omega)
      · simpa [hs] using ih hi (by omega) (by omega) (by omega)
    · rw [loop, if_neg hij, show j = k by omega]

/-- **The search finds the threshold**, probing only positions below `n`. -/
theorem search_eq (h : ∀ s < n, above s = some (decide (s < k))) (hk : k ≤ n) :
    search above n = some k :=
  loop_eq h (Nat.zero_le k) hk le_rfl (by omega)

/-! ### The positions that are probed -/

/-- The search loop, with the positions it probes in order. -/
def trace (above : ℕ → Option Bool) : ℕ → ℕ → ℕ → List ℕ × Option ℕ
  | 0, i, j => ([], if i < j then none else some j)
  | fuel + 1, i, j =>
    if i < j then
      let s := i + (j - i) / 2
      match above s with
      | none => ([s], none)
      | some b =>
        let (probes, result) := if b then trace above fuel (s + 1) j else trace above fuel i s
        (s :: probes, result)
    else ([], some j)

/-- Keeping the positions does not change the result. -/
theorem trace_snd (above : ℕ → Option Bool) (fuel i j : ℕ) :
    (trace above fuel i j).2 = loop above fuel i j := by
  induction fuel generalizing i j with
  | zero => rfl
  | succ fuel ih =>
    by_cases hij : i < j
    · cases hs : above (i + (j - i) / 2) with
      | none => simp [trace, loop, hij, hs]
      | some b => cases b <;> simp [trace, loop, hij, hs, ih]
    · simp [trace, loop, hij]

/-- **Only positions of the interval are probed.** -/
theorem mem_trace {fuel i j s : ℕ} (hs : s ∈ (trace above fuel i j).1) : i ≤ s ∧ s < j := by
  induction fuel generalizing i j with
  | zero => simp [trace] at hs
  | succ fuel ih =>
    by_cases hij : i < j
    · have hmid : i ≤ i + (j - i) / 2 ∧ i + (j - i) / 2 < j := by omega
      cases habove : above (i + (j - i) / 2) with
      | none =>
        have hs : s = i + (j - i) / 2 := by simpa [trace, hij, habove] using hs
        rwa [hs]
      | some b =>
        -- Both halves lie inside the interval.
        cases b with
        | true =>
          have hs : s = i + (j - i) / 2 ∨
              s ∈ (trace above fuel (i + (j - i) / 2 + 1) j).1 := by
            simpa [trace, hij, habove] using hs
          rcases hs with rfl | hs
          · exact hmid
          · obtain ⟨hlo, hhi⟩ := ih hs
            exact ⟨by omega, hhi⟩
        | false =>
          have hs : s = i + (j - i) / 2 ∨ s ∈ (trace above fuel i (i + (j - i) / 2)).1 := by
            simpa [trace, hij, habove] using hs
          rcases hs with rfl | hs
          · exact hmid
          · obtain ⟨hlo, hhi⟩ := ih hs
            exact ⟨hlo, by omega⟩
    · simp [trace, hij] at hs

end BinarySearch

namespace LinearSearch

variable {α β : Type} {r : α → α → Prop} {f : α → Option β} {l : List α} {b : β}

/-- **The search stops at the first hit**: in a list in order, every other hit comes
after the one that is found. -/
theorem findSome?_first (hl : l.Pairwise r) (h : l.findSome? f = some b) :
    ∃ a ∈ l, f a = some b ∧ ∀ a' ∈ l, f a' ≠ none → a' = a ∨ r a a' := by
  obtain ⟨l₁, a, l₂, rfl, ha, hbefore⟩ := List.findSome?_eq_some_iff.mp h
  refine ⟨a, List.mem_append_right _ (List.mem_cons_self ..), ha, fun a' ha' hhit => ?_⟩
  rcases List.mem_append.mp ha' with hmem | hmem
  · exact absurd (hbefore a' hmem) hhit
  · exact (List.mem_cons.mp hmem).imp_right
      fun hmem => List.rel_of_pairwise_cons (List.pairwise_append.mp hl).2.1 hmem

end LinearSearch
