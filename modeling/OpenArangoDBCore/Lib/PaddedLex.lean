import Mathlib.Data.List.GetD
import Mathlib.Data.List.Lex
import Mathlib.Tactic

/-!
# Lexicographic order of strings with padding

Strings over an order with a least letter `z` are compared by the first
position at which they differ once both are continued by `z`; strings with
the same continuation are compared by length.
-/

namespace OpenArangoDBCore.PaddedLex
variable {α : Type} {z : α}

theorem getD_append_replicate (a : List α) (n i : ℕ) :
    (a ++ List.replicate n z).getD i z = a.getD i z := by
  by_cases hi : i < a.length
  · rw [List.getD_append _ _ _ _ hi]
  · have hle := not_lt.mp hi
    rw [List.getD_append_right _ _ _ _ hle, List.getD_eq_default _ _ hle]
    by_cases hn : i - a.length < n
    · rw [List.getD_eq_getElem _ _ (by simpa using hn), List.getElem_replicate]
    · rw [List.getD_eq_default _ _ (by simpa using hn)]

theorem length_of_getD_ne {a : List α} {i : ℕ} (h : a.getD i z ≠ z) : i < a.length := by
  by_contra hi
  exact h (List.getD_eq_default _ _ (not_lt.mp hi))

variable [LinearOrder α]

theorem lt_of_first_difference (hz : ∀ x, z ≤ x) {a b : List α} {j : ℕ}
    (heq : ∀ i < j, a.getD i z = b.getD i z) (hj : a.getD j z < b.getD j z) : a < b := by
  induction a generalizing b j with
  | nil =>
    cases b with
    | nil => exact absurd hj (lt_irrefl _)
    | cons y b => exact List.nil_lt_cons y b
  | cons x a ih =>
    cases b with
    | nil => exact absurd hj (not_lt.mpr (hz _))
    | cons y b =>
      cases j with
      | zero => exact List.cons_lt_cons_iff.mpr (.inl hj)
      | succ j =>
        have hxy : x = y := heq 0 (Nat.succ_pos j)
        have htail := ih (fun i hi => heq (i + 1) (Nat.succ_lt_succ hi)) hj
        exact List.cons_lt_cons_iff.mpr (.inr ⟨hxy, htail⟩)

theorem le_iff_length_of_same {a b : List α} (h : ∀ i, a.getD i z = b.getD i z) :
    a ≤ b ↔ a.length ≤ b.length := by
  induction a generalizing b with
  | nil => exact iff_of_true (not_lt.mp (List.not_lt_nil b)) (Nat.zero_le _)
  | cons x a ih =>
    cases b with
    | nil => exact iff_of_false (not_le.mpr (List.nil_lt_cons x a)) (Nat.not_succ_le_zero _)
    | cons y b =>
      have hxy : x = y := h 0
      have htail := ih fun i => h (i + 1)
      rw [hxy, ← not_lt, List.cons_lt_cons_iff, List.length_cons, List.length_cons,
        Nat.succ_le_succ_iff, ← htail, ← not_lt]
      simp

/-- Where `a` and `b` first differ `b` is larger, and if they only differ in
length `b` is the longer one. -/
theorem le_of_rising (hz : ∀ x, z ≤ x) {a b : List α}
    (h : ∀ j, (∀ i < j, a.getD i z = b.getD i z) → a.getD j z ≤ b.getD j z)
    (hsame : (∀ i, a.getD i z = b.getD i z) → a.length ≤ b.length) : a ≤ b := by
  by_cases hall : ∀ i, a.getD i z = b.getD i z
  · exact (le_iff_length_of_same hall).mpr (hsame hall)
  · have hex : ∃ i, a.getD i z ≠ b.getD i z := not_forall.mp hall
    have hbefore : ∀ i < Nat.find hex, a.getD i z = b.getD i z := by
      intro i hi
      exact not_not.mp (Nat.find_min hex hi)
    have hne := Nat.find_spec hex
    have hlt := lt_of_le_of_ne (h _ hbefore) hne
    exact (lt_of_first_difference hz hbefore hlt).le

end OpenArangoDBCore.PaddedLex
