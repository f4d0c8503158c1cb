import Mathlib.Data.List.Forall2
import Mathlib.Tactic

/-!
# Two runs side by side

A machine answers each call and goes on. If alike calls in alike states have
the same answer and lead to alike states, two runs of alike calls cannot be
told apart by their answers.
-/

namespace OpenArangoDBCore.TwoRuns
variable {σ κ ω : Type} {step : σ → κ → σ × ω}

def answers (step : σ → κ → σ × ω) : σ → List κ → List ω
  | _, [] => []
  | s, call :: calls => (step s call).2 :: answers step (step s call).1 calls

theorem answers_eq_of_alike {Alike : σ → σ → Prop} {Same : κ → κ → Prop}
    (hstep : ∀ s s' call call', Alike s s' → Same call call' →
      Alike (step s call).1 (step s' call').1 ∧ (step s call).2 = (step s' call').2)
    {calls calls' : List κ} (hcalls : List.Forall₂ Same calls calls') {s s' : σ}
    (h : Alike s s') : answers step s calls = answers step s' calls' := by
  induction hcalls generalizing s s' with
  | nil => rfl
  | cons hcall _ ih =>
    obtain ⟨hnext, hanswer⟩ := hstep _ _ _ _ h hcall
    rw [answers, answers, hanswer, ih hnext]

end OpenArangoDBCore.TwoRuns
