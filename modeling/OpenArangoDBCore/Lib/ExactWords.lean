import Mathlib.NumberTheory.LucasLehmer
import Mathlib.Tactic

/-!
# Arithmetic that refuses to overflow

A computation with natural numbers in which each value is checked against the
width of its type. Where it returns a number, machine words compute the same.
-/

namespace OpenArangoDBCore.ExactWords

/-- A value of `w` bits. -/
def fits (w n : ℕ) : Option ℕ := if n < 2 ^ w then some n else none

theorem fits_of_lt {w n : ℕ} (h : n < 2 ^ w) : fits w n = some n := if_pos h

theorem fits_eq_some_iff {w n m : ℕ} : fits w n = some m ↔ n < 2 ^ w ∧ n = m := by
  unfold fits
  split
  next hlt => simp only [Option.some_inj, hlt, true_and]
  next hnot => simp only [reduceCtorEq, hnot, false_and]

/-- The last step of a reduction modulo `p`. -/
def subtractOnce (p n : ℕ) : ℕ := if p ≤ n then n - p else n

/-- Once is enough exactly below `2 * p`. -/
theorem subtractOnce_eq_mod_iff {p n : ℕ} (hp : 0 < p) :
    subtractOnce p n = n % p ↔ n < 2 * p := by
  have hlt := Nat.mod_lt n hp
  unfold subtractOnce
  split
  next hle =>
    rw [Nat.mod_eq_sub_mod hle] at hlt ⊢
    refine ⟨?_, ?_⟩
    · intro heq
      omega
    · intro htwice
      exact (Nat.mod_eq_of_lt (by omega)).symm
  next hnot => exact iff_of_true (Nat.mod_eq_of_lt (not_le.mp hnot)).symm (by omega)

/-! ### Folding modulo a Mersenne number -/

section Fold
variable {e n : ℕ}

theorem and_mersenne (e n : ℕ) : n &&& mersenne e = n % 2 ^ e := Nat.and_two_pow_sub_one_eq_mod n e

/-- The upper and the lower bits add up to less than two moduli. -/
theorem fold_lt (h : n < 2 ^ e * mersenne e) : n % 2 ^ e + n / 2 ^ e < 2 * mersenne e := by
  have hlo := Nat.mod_lt n (Nat.two_pow_pos e)
  have hhi := Nat.div_lt_of_lt_mul h
  have hsucc := succ_mersenne e
  omega

end Fold

/-! ### Machine words -/

section Words
variable {x y p : UInt64} {n m : ℕ}

theorem toNat_ofNat_of_fits (h : fits 64 n = some m) : (UInt64.ofNat n).toNat = m := by
  obtain ⟨hlt, rfl⟩ := fits_eq_some_iff.mp h
  rw [UInt64.toNat_ofNat']
  exact Nat.mod_eq_of_lt hlt

theorem toNat_add_of_fits (h : fits 64 (x.toNat + y.toNat) = some m) : (x + y).toNat = m := by
  obtain ⟨hlt, rfl⟩ := fits_eq_some_iff.mp h
  rw [UInt64.toNat_add]
  exact Nat.mod_eq_of_lt hlt

/-- A number may be cut down to a word before it is masked by one. -/
theorem toNat_ofNat_and (n : ℕ) (p : UInt64) : (UInt64.ofNat n &&& p).toNat = n &&& p.toNat := by
  have hand : n &&& p.toNat < 2 ^ 64 := Nat.and_lt_two_pow n p.toNat_lt
  rw [UInt64.toNat_and, UInt64.toNat_ofNat', ← Nat.mod_eq_of_lt hand, Nat.and_mod_two_pow,
    Nat.mod_eq_of_lt p.toNat_lt]

theorem toNat_subtractOnce (p x : UInt64) :
    (if p ≤ x then x - p else x).toNat = subtractOnce p.toNat x.toNat := by
  unfold subtractOnce
  by_cases hle : p ≤ x
  · rw [if_pos hle, if_pos (UInt64.le_iff_toNat_le.mp hle)]
    exact UInt64.toNat_sub_of_le _ _ hle
  · rw [if_neg hle, if_neg (mt UInt64.le_iff_toNat_le.mpr hle)]

theorem toNat_reduced_of_fits (h : fits 64 (x.toNat + y.toNat) = some m) (p : UInt64) :
    (if p ≤ x + y then x + y - p else x + y).toNat = subtractOnce p.toNat m := by
  rw [toNat_subtractOnce, toNat_add_of_fits h]

end Words

end OpenArangoDBCore.ExactWords
