import Mathlib.Data.List.Infix
import Mathlib.Tactic

/-!
# Prefix codes

A code whose words are not empty, none of which begins another, can be read
back from the words written one after the other.
-/

namespace OpenArangoDBCore.PrefixCode
variable {α β : Type} {encode : α → List β}

/-- Of two words that begin one text, one begins the other. -/
theorem inj_of_append (h : ∀ a b, encode a <+: encode b → a = b) {a b : α} {rest rest' : List β}
    (heq : encode a ++ rest = encode b ++ rest') : a = b ∧ rest = rest' := by
  have hsame : a = b := by
    have ha : encode a <+: encode b ++ rest' := ⟨rest, heq⟩
    rcases List.prefix_or_prefix_of_prefix ha (List.prefix_append _ _) with hab | hba
    · exact h a b hab
    · exact (h b a hba).symm
  subst hsame
  exact ⟨rfl, List.append_cancel_left heq⟩

/-- A text has one reading. -/
theorem flatMap_injective (h : ∀ a b, encode a <+: encode b → a = b)
    (hne : ∀ a, encode a ≠ []) : Function.Injective (List.flatMap encode) := by
  intro words
  induction words with
  | nil =>
    intro words' heq
    cases words' with
    | nil => rfl
    | cons b words' =>
      rw [List.flatMap_nil, List.flatMap_cons] at heq
      exact absurd (List.append_eq_nil_iff.mp heq.symm).1 (hne b)
  | cons a words ih =>
    intro words' heq
    cases words' with
    | nil =>
      rw [List.flatMap_nil, List.flatMap_cons] at heq
      exact absurd (List.append_eq_nil_iff.mp heq).1 (hne a)
    | cons b words' =>
      rw [List.flatMap_cons, List.flatMap_cons] at heq
      obtain ⟨rfl, hrest⟩ := inj_of_append h heq
      rw [ih hrest]

end OpenArangoDBCore.PrefixCode
