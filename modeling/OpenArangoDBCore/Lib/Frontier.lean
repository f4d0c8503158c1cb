import Mathlib.Order.Bounds.Basic
import Mathlib.Tactic

/-!
# The contiguous prefix of a set of positive numbers

A receiver of numbered items can use them up to the first missing number.
`Contiguous S` is the set of all `n` with `1, ..., n` in `S`.
-/

namespace OpenArangoDBCore.Frontier

def Contiguous (S : Set ℕ) : Set ℕ := {n | ∀ i, 1 ≤ i → i ≤ n → i ∈ S}

theorem isGreatest_of_gap (S : Set ℕ) (n : ℕ) (h : n ∈ Contiguous S) (hgap : n + 1 ∉ S) :
    IsGreatest (Contiguous S) n := by
  refine ⟨h, ?_⟩
  intro k hk
  by_contra hlt
  exact hgap (hk (n + 1) (by omega) (by omega))

theorem gap_of_isGreatest (S : Set ℕ) (n : ℕ) (h : IsGreatest (Contiguous S) n) : n + 1 ∉ S := by
  intro hs
  have hk : n + 1 ∈ Contiguous S := by
    intro i hi hin
    rcases Nat.lt_or_ge n i with hlt | hge
    · have he : i = n + 1 := by omega
      rw [he]
      exact hs
    · exact h.1 i hi hge
  have hle := h.2 hk
  omega

end OpenArangoDBCore.Frontier
