import Mathlib.Data.Int.CardIntervalMod
import Mathlib.Data.Nat.Periodic
import Mathlib.Data.Nat.ModEq

/-!
# Multiplicative hashing

A word is multiplied by a constant, and the top bits of the product are the hash
(`MultiplicativeHash.bucket`). If the constant is odd this spreads the words evenly over
the buckets, and not only all of them: as many of the words with given low bits go to a bucket as to
any other (`MultiplicativeHash.card_bucket`). So addresses can be hashed, of which the low
bits are always the same.
-/

namespace MultiplicativeHash

open Finset

/-- The top `s` bits of the product by `k`, in words of `w` bits. -/
def bucket (k w s x : ℕ) : ℕ := x * k % 2 ^ w / 2 ^ (w - s)

variable {k w s m : ℕ}

theorem bucket_lt (hs : s ≤ w) (x : ℕ) : bucket k w s x < 2 ^ s := by
  refine Nat.div_lt_of_lt_mul ?_
  rw [← pow_add, Nat.sub_add_cancel hs]
  exact Nat.mod_lt _ (Nat.two_pow_pos w)

/-- As many numbers of each residue class are in an interval as the modulus goes into its
length. -/
theorem card_Ico_modEq (a n : ℕ) {r : ℕ} (hr : 0 < r) (v : ℕ) :
    #{y ∈ Ico a (a + n * r) | y ≡ v [MOD r]} = n := by
  have hperiodic : Function.Periodic (fun y => y ≡ v [MOD r]) (n * r) := by
    intro y
    simp [Nat.ModEq]
  rw [Nat.filter_Ico_card_eq_of_periodic a (n * r) _ hperiodic, Nat.count_modEq_card _ hr]
  simp [hr]

/-- Multiplying by a constant and then by its inverse leads back. -/
theorem mul_mul_mod {n k l x : ℕ} (hinv : k * l ≡ 1 [MOD n]) (hx : x < n) :
    x * k % n * l % n = x := by
  have hback : x * k % n * l ≡ x [MOD n] := by
    calc x * k % n * l ≡ x * k * l [MOD n] := (Nat.mod_modEq _ _).mul_right l
      _ = x * (k * l) := Nat.mul_assoc ..
      _ ≡ x * 1 [MOD n] := hinv.mul_left x
      _ = x := Nat.mul_one x
  exact (Nat.mod_modEq _ _ |>.trans hback).eq_of_lt_of_lt (Nat.mod_lt _ (by omega)) hx

/-- A product modulo a word, read modulo fewer bits. -/
theorem mul_mod_modEq {k m w x r : ℕ} (hm : m ≤ w) (hx : x ≡ r [MOD 2 ^ m]) :
    x * k % 2 ^ w ≡ r * k [MOD 2 ^ m] :=
  ((Nat.mod_modEq _ _).of_dvd (Nat.pow_dvd_pow 2 hm)).trans (hx.mul_right k)

/-- **Words with given low bits are spread evenly.** -/
theorem card_bucket (hk : Nat.Coprime k 2) (hw : 0 < w) (hm : s + m ≤ w) (r : ℕ) {i : ℕ}
    (hi : i < 2 ^ s) :
    #{x ∈ range (2 ^ w) | x ≡ r [MOD 2 ^ m] ∧ bucket k w s x = i} = 2 ^ (w - s - m) := by
  obtain ⟨l, -, hl⟩ := Nat.exists_mul_mod_eq_one_of_coprime (hk.pow_right w)
    (Nat.one_lt_two_pow hw.ne')
  have hinv : k * l ≡ 1 [MOD 2 ^ w] :=
    hl.trans (Nat.mod_eq_of_lt (Nat.one_lt_two_pow hw.ne')).symm
  have hinv' : l * k ≡ 1 [MOD 2 ^ w] := Nat.mul_comm k l ▸ hinv
  have hlen : 2 ^ (w - s) = 2 ^ (w - s - m) * 2 ^ m := by
    rw [← pow_add, Nat.sub_add_cancel (by omega)]
  have htop : i * 2 ^ (w - s) + 2 ^ (w - s) ≤ 2 ^ w := by
    calc i * 2 ^ (w - s) + 2 ^ (w - s) = (i + 1) * 2 ^ (w - s) := (Nat.succ_mul ..).symm
      _ ≤ 2 ^ s * 2 ^ (w - s) := Nat.mul_le_mul_right _ hi
      _ = 2 ^ w := by rw [← pow_add, Nat.add_sub_cancel' (by omega)]
  have hpos : 0 < 2 ^ (w - s) := Nat.two_pow_pos _
  -- The product runs through an interval, and keeps to a residue class.
  rw [← card_Ico_modEq (i * 2 ^ (w - s)) (2 ^ (w - s - m)) (Nat.two_pow_pos m) (r * k), ← hlen]
  refine card_nbij' (fun x => x * k % 2 ^ w) (fun y => y * l % 2 ^ w) ?_ ?_ ?_ ?_
  · intro x hx
    simp only [coe_filter, mem_range, mem_Ico, Set.mem_ofPred_eq] at hx ⊢
    obtain ⟨-, hmod, rfl⟩ := hx
    exact ⟨⟨Nat.div_mul_le_self .., Nat.lt_div_mul_add hpos⟩, mul_mod_modEq (by omega) hmod⟩
  · intro y hy
    simp only [coe_filter, mem_range, mem_Ico, Set.mem_ofPred_eq] at hy ⊢
    obtain ⟨⟨hle, hlt⟩, hmod⟩ := hy
    refine ⟨Nat.mod_lt _ (Nat.two_pow_pos w), ?_, ?_⟩
    · refine (mul_mod_modEq (by omega) hmod).trans ?_
      have hone := (hinv.of_dvd (Nat.pow_dvd_pow 2 (by omega : m ≤ w))).mul_left r
      rwa [← Nat.mul_assoc, Nat.mul_one] at hone
    · rw [bucket, mul_mul_mod hinv' (by omega)]
      exact Nat.div_eq_of_lt_le hle (by rw [Nat.succ_mul]; exact hlt)
  · intro x hx
    simp only [coe_filter, mem_range, Set.mem_ofPred_eq] at hx
    exact mul_mul_mod hinv hx.1
  · intro y hy
    simp only [coe_filter, mem_Ico, Set.mem_ofPred_eq] at hy
    exact mul_mul_mod hinv' (by omega)

end MultiplicativeHash
