import Mathlib.Tactic

/-!
# Loops that end with a result

A round of the loop goes on with another state or ends the loop. Where what
goes on becomes smaller, the loop computes every function that its rounds unfold.
-/

namespace OpenArangoDBCore.Loops
variable {σ ρ : Type}

inductive Round (σ ρ : Type) where
  | next (s : σ)
  | ends (result : ρ)

/-- `none` if the loop is not over after so many rounds. -/
def run (round : σ → Round σ ρ) : (rounds : ℕ) → σ → Option ρ
  | 0, _ => none
  | rounds + 1, s =>
    match round s with
    | .next s' => run round rounds s'
    | .ends result => some result

theorem run_eq {round : σ → Round σ ρ} (size : σ → ℕ) (f : σ → ρ)
    (hnext : ∀ s s', round s = .next s' → size s' < size s ∧ f s' = f s)
    (hends : ∀ s result, round s = .ends result → f s = result) {rounds : ℕ} {s : σ}
    (h : size s < rounds) : run round rounds s = some (f s) := by
  induction rounds generalizing s with
  | zero => exact absurd h (Nat.not_lt_zero _)
  | succ rounds ih =>
    rw [run]
    cases hround : round s with
    | ends result => rw [hends s result hround]
    | next s' =>
      obtain ⟨hsize, hsame⟩ := hnext s s' hround
      have hrun := ih (s := s') (by omega)
      rw [hsame] at hrun
      exact hrun

/-! ### Scans -/

variable {α : Type}

/-- The first position from `pos` on whose symbol is not of the kind. -/
def scanFrom (p : α → Bool) (text : List α) (pos : ℕ) : ℕ :=
  if h : pos < text.length then
    if p text[pos] then scanFrom p text (pos + 1) else pos
  else pos
termination_by text.length - pos

theorem scanFrom_eq (p : α → Bool) (text : List α) (pos : ℕ) :
    scanFrom p text pos = pos + ((text.drop pos).takeWhile p).length := by
  fun_induction scanFrom p text pos with
  | case1 pos h hp ih =>
    rw [ih, List.drop_eq_getElem_cons h, List.takeWhile_cons_of_pos hp, List.length_cons]
    omega
  | case2 pos h hp =>
    rw [List.drop_eq_getElem_cons h, List.takeWhile_cons_of_neg hp]
    rfl
  | case3 pos h =>
    rw [List.drop_eq_nil_of_le (not_lt.mp h)]
    rfl

theorem scanFrom_le {p : α → Bool} {text : List α} {pos : ℕ} (h : pos ≤ text.length) :
    scanFrom p text pos ≤ text.length := by
  have hle := (List.takeWhile_prefix p (l := text.drop pos)).length_le
  rw [List.length_drop] at hle
  rw [scanFrom_eq]
  omega

theorem take_scanFrom (p : α → Bool) (text : List α) (pos : ℕ) :
    (text.drop pos).take (scanFrom p text pos - pos) = (text.drop pos).takeWhile p := by
  rw [scanFrom_eq, Nat.add_sub_cancel_left]
  exact (List.prefix_iff_eq_take.mp (List.takeWhile_prefix p)).symm

theorem drop_scanFrom (p : α → Bool) (text : List α) (pos : ℕ) :
    text.drop (scanFrom p text pos) = (text.drop pos).dropWhile p := by
  have hsplit : (text.drop pos).takeWhile p ++ text.drop (scanFrom p text pos) =
      (text.drop pos).takeWhile p ++ (text.drop pos).dropWhile p := by
    rw [List.takeWhile_append_dropWhile, ← take_scanFrom, scanFrom_eq, Nat.add_sub_cancel_left,
      ← List.drop_drop, List.take_append_drop]
  exact List.append_cancel_left hsplit

theorem scanFrom_eq_self_iff {p : α → Bool} {text : List α} {pos : ℕ} :
    scanFrom p text pos = pos ↔ (text.drop pos).takeWhile p = [] := by
  rw [scanFrom_eq, Nat.add_eq_left, List.length_eq_zero_iff]

end OpenArangoDBCore.Loops
