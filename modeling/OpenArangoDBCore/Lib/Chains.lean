import Mathlib.Data.List.Basic
import Mathlib.Tactic

/-!
# Chains of functions

A list of labels is a chain of functions that are applied one after the other.
What one of them does not let through, the whole chain does not let through, if
the functions before it keep alike what was alike.
-/

namespace OpenArangoDBCore.Chains
variable {κ β : Type}

def runChain (step : κ → β → β) (chain : List κ) (v : β) : β := chain.foldl (fun v k => step k v) v

variable {step : κ → β → β}

theorem runChain_cons (k : κ) (chain : List κ) (v : β) :
    runChain step (k :: chain) v = runChain step chain (step k v) := rfl

theorem runChain_append (chain more : List κ) (v : β) :
    runChain step (chain ++ more) v = runChain step more (runChain step chain v) :=
  List.foldl_append

theorem runChain_rel {R : β → β → Prop} {chain : List κ}
    (hkeep : ∀ k ∈ chain, ∀ v w, R v w → R (step k v) (step k w)) {v w : β} (h : R v w) :
    R (runChain step chain v) (runChain step chain w) := by
  induction chain generalizing v w with
  | nil => exact h
  | cons k chain ih =>
    exact ih (fun j hj => hkeep j (List.mem_cons_of_mem _ hj))
      (hkeep k List.mem_cons_self v w h)

theorem runChain_eq_of_hidden {R : β → β → Prop} {chain : List κ} {k : κ} (hk : k ∈ chain)
    (hkeep : ∀ j ∈ chain, ∀ v w, R v w → R (step j v) (step j w))
    (hhide : ∀ v w, R v w → step k v = step k w) {v w : β} (h : R v w) :
    runChain step chain v = runChain step chain w := by
  obtain ⟨before, after, rfl⟩ := List.append_of_mem hk
  rw [runChain_append, runChain_append, runChain_cons, runChain_cons]
  congr 1
  exact hhide _ _ (runChain_rel (fun j hj => hkeep j (List.mem_append_left _ hj)) h)

theorem runChain_fixed {chain : List κ} {v : β} (h : ∀ k ∈ chain, step k v = v) :
    runChain step chain v = v := by
  induction chain with
  | nil => rfl
  | cons k chain ih =>
    rw [runChain_cons, h k List.mem_cons_self]
    exact ih fun j hj => h j (List.mem_cons_of_mem _ hj)

/-- If every function is idempotent and leaves the fixed points of the others
fixed, a chain that has run once has nothing left to do. -/
theorem runChain_runChain {chain : List κ}
    (hidem : ∀ k ∈ chain, ∀ v, step k (step k v) = step k v)
    (hfix : ∀ k ∈ chain, ∀ j ∈ chain, ∀ v, step k v = v → step k (step j v) = step j v) (v : β) :
    runChain step chain (runChain step chain v) = runChain step chain v := by
  have hall : ∀ done rest, chain = done ++ rest → ∀ w, (∀ k ∈ done, step k w = w) →
      ∀ k ∈ chain, step k (runChain step rest w) = runChain step rest w := by
    intro done rest
    induction rest generalizing done with
    | nil =>
      intro hchain w hdone k hk
      rw [hchain, List.append_nil] at hk
      exact hdone k hk
    | cons j rest ih =>
      intro hchain w hdone
      have hj : j ∈ chain := by
        rw [hchain]
        exact List.mem_append_right _ List.mem_cons_self
      refine ih (done ++ [j]) (by rw [hchain, List.append_assoc]; rfl) (step j w) ?_
      intro k hk
      cases List.mem_append.mp hk with
      | inl hk =>
        refine hfix k ?_ j hj w (hdone k hk)
        rw [hchain]
        exact List.mem_append_left _ hk
      | inr hk =>
        obtain rfl := List.mem_singleton.mp hk
        exact hidem k hj w
  exact runChain_fixed (hall [] chain rfl v nofun)

end OpenArangoDBCore.Chains
