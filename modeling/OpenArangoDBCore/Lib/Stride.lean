import Mathlib.Algebra.Order.Floor.Div
import Mathlib.Data.Int.CardIntervalMod
import Mathlib.Data.Int.GCD
import Mathlib.Data.Nat.ModEq
import Mathlib.Tactic

/-!
# Residues under a stride

A counter that advances by `m` visits every `gcd r m`-th residue modulo `r`, in
turn. Its visits are even when the stride is coprime to the modulus; else some
residues are never visited and the others the more often.
-/

namespace OpenArangoDBCore.Stride

/-- How often the first `M` positions of a counter that starts at `c` and
advances by `m` are at residue `i`. -/
def visits (r m c M i : ℕ) : ℕ := M.count fun t => (c + t * m) % r = i

variable {r m c M i : ℕ}

theorem visits_zero : visits r m c 0 i = 0 := Nat.count_zero _

theorem visits_succ : visits r m c (M + 1) i =
    visits r m (c + m) M i + if c % r = i then 1 else 0 := by
  unfold visits
  rw [Nat.count_succ', zero_mul, add_zero]
  congr 2
  funext t
  rw [add_one_mul, add_comm (t * m), add_assoc]

theorem stride_modEq_iff (hr : 0 < r) (t t' : ℕ) :
    c + t * m ≡ c + t' * m [MOD r] ↔ t ≡ t' [MOD r / r.gcd m] := by
  rw [Nat.ModEq.add_iff_left rfl]
  constructor
  · intro h
    exact h.cancel_right_div_gcd hr
  · intro h
    refine (h.mul_right' m).of_dvd ?_
    obtain ⟨k, hk⟩ := Nat.gcd_dvd_right r m
    refine ⟨k, ?_⟩
    calc r / r.gcd m * m = r / r.gcd m * (r.gcd m * k) := by rw [← hk]
      _ = r / r.gcd m * r.gcd m * k := (mul_assoc _ _ _).symm
      _ = r * k := by rw [Nat.div_mul_cancel (Nat.gcd_dvd_left r m)]

theorem period_pos (hr : 0 < r) : 0 < r / r.gcd m :=
  Nat.div_pos (Nat.gcd_le_left m hr) (Nat.gcd_pos_of_pos_left m hr)

theorem visits_of_visited (hr : 0 < r) (t : ℕ) : visits r m c M ((c + t * m) % r) =
    M / (r / r.gcd m) + if t % (r / r.gcd m) < M % (r / r.gcd m) then 1 else 0 := by
  rw [← Nat.count_modEq_card M (period_pos hr) t]
  unfold visits
  congr 1
  funext t'
  exact propext (stride_modEq_iff hr t' t)

theorem visits_of_unvisited (h : ∀ t, (c + t * m) % r ≠ i) : visits r m c M i = 0 := by
  refine Nat.count_iff_forall_not.mpr ?_
  intro t _
  exact h t

theorem ceilDiv_eq (M : ℕ) {p : ℕ} (hp : 0 < p) :
    M ⌈/⌉ p = M / p + if 0 < M % p then 1 else 0 := by
  have hsplit := Nat.div_add_mod M p
  have hmod := Nat.mod_lt M hp
  apply le_antisymm
  · rw [ceilDiv_le_iff_le_mul hp]
    split
    next =>
      rw [mul_add, mul_one]
      omega
    next =>
      rw [add_zero]
      omega
  · have hle := le_smul_ceilDiv (b := M) hp
    rw [smul_eq_mul] at hle
    split
    next h =>
      by_contra hlt
      have hcap : M ⌈/⌉ p ≤ M / p := by omega
      have := Nat.mul_le_mul_left p hcap
      omega
    next h =>
      by_contra hlt
      have hcap : M ⌈/⌉ p + 1 ≤ M / p := by omega
      have := Nat.mul_le_mul_left p hcap
      rw [mul_add, mul_one] at this
      omega

/-- The starting residue is visited as often as any. -/
theorem visits_start (hr : 0 < r) : visits r m c M (c % r) = M ⌈/⌉ (r / r.gcd m) := by
  have h := visits_of_visited (m := m) (c := c) (M := M) hr 0
  rw [zero_mul, add_zero, Nat.zero_mod] at h
  rw [h, ceilDiv_eq M (period_pos hr)]

theorem visits_bounds (hr : 0 < r) (t : ℕ) :
    M / (r / r.gcd m) ≤ visits r m c M ((c + t * m) % r) ∧
      visits r m c M ((c + t * m) % r) ≤ M ⌈/⌉ (r / r.gcd m) := by
  rw [visits_of_visited hr, ceilDiv_eq M (period_pos hr)]
  split <;> split <;> omega

/-- A stride with a common factor never meets the residue after its start. -/
theorem unvisited_next (h : ¬ r.Coprime m) (t : ℕ) : (c + t * m) % r ≠ (c + 1) % r := by
  intro heq
  have hmod : t * m ≡ 1 [MOD r] := (Nat.ModEq.add_iff_left rfl).mp heq
  rw [mul_comm] at hmod
  exact h (Nat.coprime_of_mul_modEq_one t hmod).symm

theorem visited_of_coprime (hr : 0 < r) (h : r.Coprime m) (hi : i < r) :
    ∃ t, (c + t * m) % r = i := by
  obtain ⟨t, -, ht⟩ := Nat.exists_mul_mod_eq_of_coprime (i + r - c % r) h.symm hr.ne'
  have hlt := Nat.mod_lt c hr
  have hsum : c % r + (i + r - c % r) = i + r := by omega
  refine ⟨t, ?_⟩
  calc (c + t * m) % r = (c % r + m * t % r) % r := by rw [mul_comm t m, Nat.add_mod]
    _ = (c % r + (i + r - c % r)) % r := by rw [ht, Nat.add_mod_mod]
    _ = i := by rw [hsum, Nat.add_mod_right, Nat.mod_eq_of_lt hi]

/-- Every residue is visited evenly up to one exactly for a coprime stride, or
in so few steps that the difference does not show. -/
theorem evenly_iff (hr : 0 < r) : (∀ i < r, M / r ≤ visits r m c M i + 1 ∧
    visits r m c M i ≤ M ⌈/⌉ r + 1) ↔
      r.Coprime m ∨ M / r ≤ 1 ∧ M ⌈/⌉ (r / r.gcd m) ≤ M ⌈/⌉ r + 1 := by
  constructor
  · intro heven
    by_cases hcoprime : r.Coprime m
    · exact .inl hcoprime
    · have hnone := (heven ((c + 1) % r) (Nat.mod_lt _ hr)).1
      have hstart := (heven (c % r) (Nat.mod_lt _ hr)).2
      rw [visits_of_unvisited (unvisited_next hcoprime)] at hnone
      rw [visits_start hr] at hstart
      exact .inr ⟨hnone, hstart⟩
  · intro h i hi
    by_cases hvisited : ∃ t, (c + t * m) % r = i
    · obtain ⟨t, rfl⟩ := hvisited
      obtain ⟨hlower, hupper⟩ := visits_bounds (m := m) (c := c) (M := M) hr t
      have hfew : M / r ≤ M / (r / r.gcd m) :=
        Nat.div_le_div_left (Nat.div_le_self r _) (period_pos hr)
      refine ⟨by omega, ?_⟩
      rcases h with hcoprime | ⟨-, hceil⟩
      · rw [hcoprime.gcd_eq_one, Nat.div_one] at hupper
        omega
      · omega
    · rcases h with hcoprime | ⟨hfew, -⟩
      · exact absurd (visited_of_coprime hr hcoprime hi) hvisited
      · rw [visits_of_unvisited (fun t ht => hvisited ⟨t, ht⟩)]
        omega

end OpenArangoDBCore.Stride
