import OpenArangoDBCore.Lib.Interleaving

/-!
# Mutual exclusion

A mutex is a flag of the shared state. A thread is in a critical section by
its control state, and it comes there by taking the mutex only.
-/

namespace OpenArangoDBCore.Interleaving
variable {T S L E : Type}

/-- Steps enter the critical section when the mutex is free and take it, and
free it when they leave; no other step changes it. -/
structure Guarded (prog : Program S L E) (locked : S → Bool) (holds : L → Bool) : Prop where
  acquire : ∀ s l e s' l', prog s l e = some (s', l') → holds l = false → holds l' = true →
    locked s = false
  change : ∀ s l e s' l', prog s l e = some (s', l') → (holds l = true → locked s = true) →
    locked s' = (holds l' || (locked s && !holds l))

/-- At most one thread is in the critical section, and the mutex is taken then. -/
structure Exclusive (locked : S → Bool) (holds : L → Bool) (c : Config T S L) : Prop where
  unique : ∀ t u, holds (c.control t) = true → holds (c.control u) = true → t = u
  taken : ∀ t, holds (c.control t) = true → locked c.shared = true

theorem Exclusive.alone {locked : S → Bool} {holds : L → Bool} {c : Config T S L}
    (h : Exclusive locked holds c) {t u : T} (ht : holds (c.control t) = true) (hu : u ≠ t) :
    holds (c.control u) = false :=
  eq_false_of_ne_true fun hholds => hu (h.unique u t hholds ht)

variable [DecidableEq T] {prog : Program S L E} {locked : S → Bool} {holds : L → Bool}

theorem Guarded.step (hguard : Guarded prog locked holds) {c c' : Config T S L} {x : T × E}
    (h : Exclusive locked holds c) (hf : fire prog c x = some c') : Exclusive locked holds c' := by
  have hacquire := hguard.acquire _ _ _ _ _ (fire_own hf)
  have hchange := hguard.change _ _ _ _ _ (fire_own hf) (h.taken x.1)
  -- who steps into the critical section leaves no one else there
  have halone : ∀ u, u ≠ x.1 → holds (c'.control x.1) = true → holds (c'.control u) = false := by
    intro u hu hl
    rw [fire_frame hf hu]
    refine eq_false_of_ne_true fun hhold => ?_
    cases hold : holds (c.control x.1) with
    | true => exact hu (h.unique u x.1 hhold hold)
    | false => exact absurd (h.taken u hhold) (by rw [hacquire hold hl]; nofun)
  constructor
  · refine unique_of_frame (P := fun l => holds l = true) (fun t ht => fire_frame hf ht) h.unique
      fun hl t ht => ?_
    have hother := halone t ht hl
    rw [fire_frame hf ht] at hother
    exact ne_true_of_eq_false hother
  · intro t ht
    rw [hchange]
    by_cases htx : t = x.1
    · subst htx
      rw [ht, Bool.true_or]
    · rw [fire_frame hf htx] at ht
      cases hold : holds (c.control x.1) with
      | true => exact absurd (h.unique t x.1 ht hold) htx
      | false => rw [h.taken t ht, Bool.not_false, Bool.and_true, Bool.or_true]

theorem Guarded.run (hguard : Guarded prog locked holds) {c c' : Config T S L}
    {tr : List (T × E)} (h : Exclusive locked holds c) (hrun : exec prog c tr = some c') :
    Exclusive locked holds c' :=
  exec_invariant (fun _ => Exclusive locked holds) (fun _ _ _ _ hI hf => hguard.step hI hf) tr c c'
    h hrun

end OpenArangoDBCore.Interleaving
