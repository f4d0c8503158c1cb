import Mathlib.Data.List.Basic
import Mathlib.Tactic

/-!
# Patterns that are sequences of classes

A pattern is a row of classes, each for one symbol or for a run of at least
one. A run is as long as it can be with the rest of the pattern behind it, and
a search takes the first place where the whole pattern fits.
-/

namespace OpenArangoDBCore.Patterns
variable {α β : Type}

inductive Item (α : Type) where
  | one (class_ : α → Bool)
  | many (class_ : α → Bool)

/-- The longest run behind which `next` goes on. -/
def matchMany (p : α → Bool) (next : List α → Option β) : List α → Option (List α × β)
  | [] => none
  | a :: rest =>
    if p a then
      match matchMany p next rest with
      | some (run, found) => some (a :: run, found)
      | none => (next rest).map fun found => ([a], found)
    else none

/-- What the items match, one after the other, at the head of the text. -/
def matchItems : List (Item α) → List α → Option (List (List α))
  | [], _ => some []
  | .one _ :: _, [] => none
  | .one p :: items, a :: rest =>
    if p a then (matchItems items rest).map fun found => [a] :: found else none
  | .many p :: items, text =>
    (matchMany p (matchItems items) text).map fun found => found.1 :: found.2

def search (items : List (Item α)) (text : List α) : Option (List (List α)) :=
  text.tails.findSome? (matchItems items)

def literal [DecidableEq α] (word : List α) : List (Item α) :=
  word.map fun a => .one fun b => decide (b = a)

theorem matchMany_stop {p : α → Bool} {next : List α → Option β} {a : α} (h : p a = false)
    (rest : List α) : matchMany p next (a :: rest) = none := by
  rw [matchMany, if_neg (Bool.eq_false_iff.mp h)]

theorem matchMany_run {p : α → Bool} {next : List α → Option β} {run rest : List α} {found : β}
    (hrun : ∀ a ∈ run, p a = true) (hne : run ≠ []) (hstop : matchMany p next rest = none)
    (hnext : next rest = some found) : matchMany p next (run ++ rest) = some (run, found) := by
  induction run with
  | nil => exact absurd rfl hne
  | cons a run ih =>
    obtain ⟨ha, hmore⟩ := List.forall_mem_cons.mp hrun
    rw [List.cons_append, matchMany, if_pos ha]
    cases run with
    | nil =>
      rw [List.nil_append, hstop, hnext]
      rfl
    | cons b run =>
      rw [ih hmore (List.cons_ne_nil b run)]

theorem matchItems_one {p : α → Bool} {items : List (Item α)} {a : α} {rest : List α}
    {found : List (List α)} (ha : p a = true) (hnext : matchItems items rest = some found) :
    matchItems (.one p :: items) (a :: rest) = some ([a] :: found) := by
  rw [matchItems, if_pos ha, hnext]
  rfl

theorem matchItems_many {p : α → Bool} {items : List (Item α)} {run rest : List α}
    {found : List (List α)} (hrun : ∀ a ∈ run, p a = true) (hne : run ≠ [])
    (hstop : matchMany p (matchItems items) rest = none)
    (hnext : matchItems items rest = some found) :
    matchItems (.many p :: items) (run ++ rest) = some (run :: found) := by
  rw [matchItems, matchMany_run hrun hne hstop hnext]
  rfl

theorem matchItems_literal [DecidableEq α] (word : List α) {items : List (Item α)} {rest : List α}
    {found : List (List α)} (hnext : matchItems items rest = some found) :
    matchItems (literal word ++ items) (word ++ rest) =
      some ((word.map fun a => [a]) ++ found) := by
  induction word with
  | nil => exact hnext
  | cons a word ih => exact matchItems_one (decide_eq_true rfl) ih

theorem search_here {items : List (Item α)} {text : List α} {found : List (List α)}
    (h : matchItems items text = some found) : search items text = some found := by
  unfold search
  cases text with
  | nil => rw [List.tails, List.findSome?_cons, h]
  | cons a text => rw [List.tails, List.findSome?_cons, h]

end OpenArangoDBCore.Patterns
