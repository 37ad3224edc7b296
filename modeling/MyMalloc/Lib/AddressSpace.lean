import Mathlib.Data.List.Basic
import Mathlib.Data.List.Nodup
import Mathlib.Data.List.Perm.Subperm

/-!
# The regions of an address space

An address space is kept as a list of regions, each a base address and a
length. `AddressSpace.unmap` takes a range out of every region – cutting a region in
two when the range lies inside it – and `AddressSpace.covers_unmap` says that this is
set difference on the addresses covered; `AddressSpace.unmapAll` does so for several
ranges. A range all of whose addresses are covered is spanned (`AddressSpace.Spans`), by
one region or by several. `AddressSpace.Fresh` is the promise a new
mapping comes with: it meets no region that is already there.

Two regions that have no address in common are `AddressSpace.Apart`. The last part
counts aligned addresses: a list of distinct multiples of `k`
below `k * n` has at most `n` members (`AddressSpace.length_le_of_aligned`).
-/

namespace AddressSpace

/-- A region: its base address and its length. -/
abbrev Region := ℕ × ℕ

/-- An address lies in a region. -/
def Mem (a : ℕ) (r : Region) : Prop := r.1 ≤ a ∧ a < r.1 + r.2

instance (a : ℕ) (r : Region) : Decidable (Mem a r) := inferInstanceAs (Decidable (_ ∧ _))

/-- An address is covered by a list of regions. -/
def Covers (rs : List Region) (a : ℕ) : Prop := ∃ r ∈ rs, Mem a r

/-- The two pieces of a region on both sides of the range `[base, base + len)`. -/
def cut (base len : ℕ) (r : Region) : List Region :=
  [(r.1, min r.2 (base - r.1)), (max r.1 (base + len), r.1 + r.2 - max r.1 (base + len))]

/-- The address space without the range `[base, base + len)`. -/
def unmap (rs : List Region) (base len : ℕ) : List Region :=
  (rs.flatMap (cut base len)).filter fun r => 0 < r.2

/-- The address space without several ranges, taken out one after the other. -/
def unmapAll (rs cuts : List Region) : List Region :=
  cuts.foldl (fun rs r => unmap rs r.1 r.2) rs

/-- A range meets none of the regions. -/
def Fresh (rs : List Region) (base len : ℕ) : Prop :=
  ∀ r ∈ rs, r.1 + r.2 ≤ base ∨ base + len ≤ r.1

instance (rs : List Region) (base len : ℕ) : Decidable (Fresh rs base len) :=
  inferInstanceAs (Decidable (∀ r ∈ rs, _))

variable {rs : List Region} {base len a : ℕ}

@[simp] theorem covers_nil : ¬Covers [] a := by simp [Covers]

@[simp] theorem covers_cons {r : Region} : Covers (r :: rs) a ↔ Mem a r ∨ Covers rs a := by
  simp [Covers]

theorem mem_cut {r : Region} :
    (∃ q ∈ cut base len r, Mem a q) ↔ Mem a r ∧ ¬Mem a (base, len) := by
  simp only [cut, List.mem_cons, List.not_mem_nil, or_false, exists_eq_or_imp, exists_eq_left,
    Mem]
  omega

/-- **Unmapping a range is set difference** on the addresses covered. -/
theorem covers_unmap : Covers (unmap rs base len) a ↔ Covers rs a ∧ ¬Mem a (base, len) := by
  have hpos : Covers (unmap rs base len) a ↔ ∃ q ∈ rs.flatMap (cut base len), Mem a q := by
    simp only [Covers, unmap, List.mem_filter, decide_eq_true_eq]
    refine exists_congr fun q => ⟨fun h => ⟨h.1.1, h.2⟩, fun h => ⟨⟨h.1, ?_⟩, h.2⟩⟩
    have := h.2
    simp only [Mem] at this
    omega
  rw [hpos]
  simp only [List.mem_flatMap]
  constructor
  · rintro ⟨q, ⟨r, hr, hq⟩, ha⟩
    obtain ⟨hmem, hout⟩ := mem_cut.mp ⟨q, hq, ha⟩
    exact ⟨⟨r, hr, hmem⟩, hout⟩
  · rintro ⟨⟨r, hr, hmem⟩, hout⟩
    obtain ⟨q, hq, ha⟩ := mem_cut.mpr ⟨hmem, hout⟩
    exact ⟨q, ⟨r, hr, hq⟩, ha⟩

/-- Unmapping several ranges is set difference as well. -/
theorem covers_unmapAll {cuts : List Region} :
    Covers (unmapAll rs cuts) a ↔ Covers rs a ∧ ¬Covers cuts a := by
  induction cuts generalizing rs with
  | nil => simp [unmapAll]
  | cons r cuts ih =>
    rw [unmapAll, List.foldl_cons, ← unmapAll, ih, covers_unmap, covers_cons]
    tauto

/-- The regions span a range: all its addresses are covered. -/
def Spans (rs : List Region) (r : Region) : Prop := ∀ a, Mem a r → Covers rs a

/-- **A range is spanned if nothing is left of it** without the regions. -/
theorem spans_iff {r : Region} : Spans rs r ↔ ∀ q ∈ unmapAll [r] rs, q.2 = 0 := by
  have hleft : ∀ a, Covers (unmapAll [r] rs) a ↔ Mem a r ∧ ¬Covers rs a := by
    intro a
    rw [covers_unmapAll, covers_cons, or_iff_left covers_nil]
  constructor
  · intro h q hq
    by_contra hpos
    have hbase : Mem q.1 q := ⟨Nat.le_refl _, Nat.lt_add_of_pos_right (Nat.pos_of_ne_zero hpos)⟩
    obtain ⟨hmem, hnot⟩ := (hleft q.1).mp ⟨q, hq, hbase⟩
    exact hnot (h q.1 hmem)
  · intro h a ha
    by_contra hnot
    obtain ⟨q, hq, hmem⟩ := (hleft a).mpr ⟨ha, hnot⟩
    have hempty := h q hq
    simp only [Mem] at hmem
    omega

instance (rs : List Region) (r : Region) : Decidable (Spans rs r) :=
  decidable_of_iff _ spans_iff.symm

/-- A part of a range that is spanned. -/
theorem Spans.mono {r q : Region} (h : Spans rs r) (hq : ∀ a, Mem a q → Mem a r) : Spans rs q :=
  fun a ha => h a (hq a ha)

/-- No address of a fresh range is covered. -/
theorem Fresh.not_covers (h : Fresh rs base len) (ha : Mem a (base, len)) : ¬Covers rs a := by
  rintro ⟨r, hr, hmem⟩
  simp only [Mem] at ha hmem
  have := h r hr
  omega

/-- An address that is covered lies outside a fresh range. -/
theorem Fresh.outside (h : Fresh rs base len) (ha : Covers rs a) : a < base ∨ base + len ≤ a := by
  by_contra hc
  exact h.not_covers (show Mem a (base, len) from ⟨by omega, by simp only; omega⟩) ha

/-! ### Regions apart -/

/-- Two regions have no address in common. -/
def Apart (r q : Region) : Prop := r.1 + r.2 ≤ q.1 ∨ q.1 + q.2 ≤ r.1

theorem Apart.symm {r q : Region} (h : Apart r q) : Apart q r := Or.symm h

/-- An address lies in one of them at most. -/
theorem Apart.not_mem {r q : Region} (h : Apart r q) (ha : Mem a r) : ¬Mem a q := by
  simp only [Apart, Mem] at *
  omega

/-- Regions are apart if one is covered and the other is not. -/
theorem apart_of_covers {r q : Region} (hr : ∀ a, Mem a r → Covers rs a)
    (hq : ∀ a, Mem a q → ¬Covers rs a) (hr' : 0 < r.2) (hq' : 0 < q.2) : Apart r q := by
  by_contra hc
  simp only [Apart, not_or, Nat.not_le] at hc
  -- The higher one of the two bases lies in both.
  refine hq (max r.1 q.1) ?_ (hr (max r.1 q.1) ?_) <;> simp only [Mem] <;> omega

/-- A fresh range lies apart from every region that is covered. -/
theorem Fresh.apart (h : Fresh rs base len) {r : Region} (hr : ∀ a, Mem a r → Covers rs a)
    (hpos : 0 < r.2) (hlen : 0 < len) : Apart r (base, len) :=
  apart_of_covers hr (fun _ ha => h.not_covers ha) hpos hlen

/-- A region that lies apart from the range stays as it is. -/
theorem mem_unmap {r : Region} (hr : r ∈ rs) (h : Apart r (base, len)) (hpos : 0 < r.2) :
    r ∈ unmap rs base len := by
  refine List.mem_filter.mpr ⟨List.mem_flatMap.mpr ⟨r, hr, ?_⟩, decide_eq_true hpos⟩
  simp only [Apart] at h
  rcases h with h | h
  · have hmin : min r.2 (base - r.1) = r.2 := by omega
    simp [cut, hmin]
  · have hmax : max r.1 (base + len) = r.1 := by omega
    simp [cut, hmax]

/-- What stays mapped was part of one region. -/
theorem exists_of_mem_unmap {r : Region} (hr : r ∈ unmap rs base len) :
    ∃ q ∈ rs, ∀ a, Mem a r → Mem a q := by
  obtain ⟨hr, -⟩ := List.mem_filter.mp hr
  obtain ⟨q, hq, hr⟩ := List.mem_flatMap.mp hr
  exact ⟨q, hq, fun a ha => (mem_cut.mp ⟨r, hr, ha⟩).1⟩

/-! ### Counting aligned addresses -/

/-- **Counting aligned addresses**: distinct multiples of `k` below `k * n` are
at most `n` many. -/
theorem length_le_of_aligned {k n : ℕ} {l : List ℕ} (hnd : l.Nodup)
    (h : ∀ x ∈ l, k ∣ x ∧ x < k * n) : l.length ≤ n := by
  have hinj : ∀ x ∈ l, ∀ y ∈ l, x / k = y / k → x = y := by
    intro x hx y hy hxy
    rw [← Nat.mul_div_cancel' (h x hx).1, ← Nat.mul_div_cancel' (h y hy).1, hxy]
  have hmap : (l.map (· / k)).Nodup := hnd.map_on hinj
  have hsub : l.map (· / k) ⊆ List.range n := by
    intro q hq
    obtain ⟨x, hx, rfl⟩ := List.mem_map.mp hq
    exact List.mem_range.mpr (Nat.div_lt_of_lt_mul (h x hx).2)
  simpa using (List.subperm_of_subset hmap hsub).length_le

end AddressSpace
