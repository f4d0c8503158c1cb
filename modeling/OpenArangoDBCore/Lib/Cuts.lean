import Mathlib.Data.List.TakeWhile
import OpenArangoDBCore.Lib.TextSearch

/-!
# Texts cut at a delimiter

A text is cut at the leftmost occurrence of a delimiter, and what follows this
occurrence is cut in turn. The pieces are all that is left between occurrences
that do not overlap, empty ones included. The words of a text are the pieces
between single symbols of a kind that are not empty.
-/

namespace OpenArangoDBCore.Cuts
open TextSearch

section
variable {α : Type} [DecidableEq α]

/-! ### What a search finds -/

/-- Nowhere before the position that is found. -/
theorem find_leftmost {key text front back : List α} {i : ℕ} (h : find key text = some i)
    (hsplit : text = front ++ (key ++ back)) : i ≤ front.length := by
  induction front generalizing text i with
  | nil =>
    rw [List.nil_append] at hsplit
    rw [hsplit, find_here] at h
    exact (Option.some.inj h).symm.le
  | cons a front ih =>
    rw [hsplit, List.cons_append, find] at h
    split at h
    next =>
      obtain rfl := Option.some.inj h
      exact Nat.zero_le _
    next =>
      obtain ⟨j, hj, rfl⟩ := Option.map_eq_some_iff.mp h
      exact Nat.succ_le_succ (ih hj rfl)

theorem not_infix_of_find_none {key text : List α} (h : find key text = none) :
    ¬ key <:+: text := by
  induction text with
  | nil =>
    intro hinfix
    rw [find, if_pos (List.infix_nil.mp hinfix)] at h
    cases h
  | cons a text ih =>
    intro hinfix
    rw [find] at h
    split at h
    next => cases h
    next hprefix =>
      rcases List.infix_cons_iff.mp hinfix with hhere | hlater
      · exact hprefix (List.isPrefixOf_iff_prefix.mpr hhere)
      · exact ih (Option.map_eq_none_iff.mp h) hlater

end

/-! ### The pieces -/

variable {α : Type} {d text : List α} {pieces pieces' : List (List α)}

inductive Pieces (d : List α) : List α → List (List α) → Prop
  | last {text : List α} : ¬ d <:+: text → Pieces d text [text]
  | cut {piece rest : List α} {pieces : List (List α)} :
      (∀ front back, piece ++ (d ++ rest) = front ++ (d ++ back) → piece.length ≤ front.length) →
      Pieces d rest pieces → Pieces d (piece ++ (d ++ rest)) (piece :: pieces)

theorem infix_middle (piece rest : List α) : d <:+: piece ++ (d ++ rest) :=
  ⟨piece, rest, List.append_assoc _ _ _⟩

/-- A text has one list of pieces only. -/
theorem Pieces.unique (h : Pieces d text pieces) (h' : Pieces d text pieces') :
    pieces = pieces' := by
  induction h generalizing pieces' with
  | last hnone =>
    cases h' with
    | last _ => rfl
    | cut _ _ => exact absurd (infix_middle _ _) hnone
  | @cut piece rest pieces hleft _ ih =>
    generalize htext : piece ++ (d ++ rest) = text at h'
    cases h' with
    | last hnone => exact absurd (htext ▸ infix_middle piece rest) hnone
    | @cut piece' rest' pieces' hleft' hrest' =>
      have hlength : piece.length = piece'.length :=
        Nat.le_antisymm (hleft piece' rest' htext) (hleft' piece rest htext.symm)
      obtain ⟨rfl, htail⟩ := List.append_inj htext hlength
      rw [List.append_cancel_left htail] at ih
      rw [ih hrest']

/-- A find is the place of the next cut. -/
theorem Pieces.of_find [DecidableEq α] {i : ℕ} (h : find d text = some i)
    (hrest : Pieces d (text.drop (i + d.length)) pieces) :
    Pieces d text (text.take i :: pieces) := by
  have hsplit : text.take i ++ (d ++ text.drop (i + d.length)) = text := by
    have hfound := List.prefix_iff_eq_append.mp (find_isPrefix h)
    rw [List.drop_drop] at hfound
    rw [hfound, List.take_append_drop]
  have hleft : ∀ front back, text.take i ++ (d ++ text.drop (i + d.length)) =
      front ++ (d ++ back) → (text.take i).length ≤ front.length := by
    intro front back heq
    rw [hsplit] at heq
    exact (List.length_take_le i text).trans (find_leftmost h heq)
  have hcut := Pieces.cut hleft hrest
  rwa [hsplit] at hcut

theorem Pieces.ne_nil (h : Pieces d text pieces) : pieces ≠ [] := by
  cases h with
  | last _ => exact List.cons_ne_nil _ _
  | cut _ _ => exact List.cons_ne_nil _ _

/-- The pieces joined by the delimiter are the text. -/
theorem Pieces.join (h : Pieces d text pieces) : d.intercalate pieces = text := by
  induction h with
  | last _ => exact List.intercalate_singleton
  | cut _ hrest ih => rw [List.intercalate_cons_of_ne_nil hrest.ne_nil, ih, List.append_assoc]

/-! ### Replacement -/

section
variable [DecidableEq α]

def cut (d : List α) : (rounds : ℕ) → List α → List (List α)
  | 0, text => [text]
  | rounds + 1, text =>
    match find d text with
    | none => [text]
    | some i => text.take i :: cut d rounds (text.drop (i + d.length))

/-- A text has no more pieces than symbols, and one. -/
def cutAt (d text : List α) : List (List α) := cut d text.length text

theorem pieces_cut (hne : d ≠ []) {rounds : ℕ} {text : List α} (h : text.length ≤ rounds) :
    Pieces d text (cut d rounds text) := by
  induction rounds generalizing text with
  | zero =>
    obtain rfl := List.length_eq_zero_iff.mp (Nat.le_zero.mp h)
    exact .last fun hinfix => hne (List.infix_nil.mp hinfix)
  | succ rounds ih =>
    rw [cut]
    cases hfind : find d text with
    | none => exact .last (not_infix_of_find_none hfind)
    | some i =>
      have hlength := find_le hfind
      have hpos := List.length_pos_iff.mpr hne
      refine Pieces.of_find hfind (ih ?_)
      rw [List.length_drop]
      omega

theorem pieces_cutAt (hne : d ≠ []) (text : List α) : Pieces d text (cutAt d text) :=
  pieces_cut hne le_rfl

def occurrences (d text : List α) : ℕ := (cutAt d text).length - 1

/-- Every occurrence of the key replaced. -/
def replaceAll (key replacement text : List α) : List α :=
  replacement.intercalate (cutAt key text)

end

theorem length_intercalate (d piece : List α) (pieces : List (List α)) :
    (d.intercalate (piece :: pieces)).length =
      (piece :: pieces).flatten.length + pieces.length * d.length := by
  induction pieces generalizing piece with
  | nil => simp
  | cons next pieces ih =>
    rw [List.intercalate_cons_cons, List.length_append, List.length_append, ih, List.length_cons,
      Nat.succ_mul]
    simp only [List.flatten_cons, List.length_append]
    omega

/-- Joining by another delimiter shows as soon as there are two pieces. -/
theorem intercalate_eq_iff {d d' : List α} (pieces : List (List α)) :
    d.intercalate pieces = d'.intercalate pieces ↔ pieces.length ≤ 1 ∨ d = d' := by
  constructor
  · intro h
    match pieces with
    | [] => exact .inl (Nat.zero_le _)
    | [_] => exact .inl le_rfl
    | piece :: next :: rest =>
      have hlength := congrArg List.length h
      rw [length_intercalate, length_intercalate, List.length_cons] at hlength
      have hsame : d.length = d'.length :=
        Nat.eq_of_mul_eq_mul_left (Nat.succ_pos rest.length) (Nat.add_left_cancel hlength)
      rw [List.intercalate_cons_cons, List.intercalate_cons_cons, List.append_assoc,
        List.append_assoc] at h
      exact .inr (List.append_inj (List.append_cancel_left h) hsame).1
  · intro h
    rcases h with hshort | rfl
    · match pieces with
      | [] => rfl
      | [_] => rw [List.intercalate_singleton, List.intercalate_singleton]
      | _ :: _ :: rest => simp at hshort
    · rfl

/-! ### Words -/

def nonEmpty (pieces : List (List α)) : List (List α) := pieces.filter fun piece => !piece.isEmpty

@[simp] theorem nonEmpty_nil : nonEmpty ([] : List (List α)) = [] := rfl

theorem nonEmpty_cons_nil (pieces : List (List α)) :
    nonEmpty ([] :: pieces) = nonEmpty pieces := rfl

theorem nonEmpty_cons {piece : List α} (h : piece ≠ []) (pieces : List (List α)) :
    nonEmpty (piece :: pieces) = piece :: nonEmpty pieces :=
  List.filter_cons_of_pos (by rw [List.isEmpty_eq_false_iff.mpr h]; rfl)

theorem nonEmpty_append (pieces pieces' : List (List α)) :
    nonEmpty (pieces ++ pieces') = nonEmpty pieces ++ nonEmpty pieces' := List.filter_append ..

section
variable (p : α → Bool)

def words (text : List α) : List (List α) := nonEmpty (text.splitOnP p)

theorem words_dropWhile (text : List α) : words p (text.dropWhile p) = words p text := by
  induction text with
  | nil => rfl
  | cons a text ih =>
    by_cases ha : p a = true
    · rw [List.dropWhile_cons_of_pos ha, ih, words, words, List.splitOnP_cons_eq_if_modifyHead,
        if_pos ha, nonEmpty_cons_nil]
    · rw [List.dropWhile_cons_of_neg ha]

/-- A text that does not begin with a separator begins with a word. -/
theorem words_cons {a : α} {text : List α} (ha : p a = false) :
    words p (a :: text) =
      (a :: text).takeWhile (fun b => !p b) :: words p ((a :: text).dropWhile fun b => !p b) := by
  have hword : ∀ b ∈ (a :: text).takeWhile (fun b => !p b), p b = false := fun b hb => by
    simpa using List.mem_takeWhile_imp hb
  have hne : (a :: text).takeWhile (fun b => !p b) ≠ [] := by
    rw [List.takeWhile_cons_of_pos (by rw [ha]; rfl)]
    exact List.cons_ne_nil _ _
  have htext := List.takeWhile_append_dropWhile (p := fun b => !p b) (l := a :: text)
  cases hrest : (a :: text).dropWhile (fun b => !p b) with
  | nil =>
    rw [hrest, List.append_nil] at htext
    rw [htext] at hword ⊢
    rw [words, List.splitOnP_eq_singleton hword, nonEmpty_cons (List.cons_ne_nil _ _)]
    rfl
  | cons sep rest =>
    have hsep : p sep = true := by
      have hhead := List.head?_dropWhile_not (fun b => !p b) (a :: text)
      rw [hrest] at hhead
      simpa using hhead
    rw [hrest] at htext
    conv_lhs => rw [← htext]
    rw [words, List.splitOnP_append_cons_of_forall_mem hword sep hsep, nonEmpty_cons hne,
      words, List.splitOnP_cons_eq_if_modifyHead, if_pos hsep, nonEmpty_cons_nil]

end
end OpenArangoDBCore.Cuts
