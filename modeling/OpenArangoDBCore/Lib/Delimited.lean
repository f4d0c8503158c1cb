import Mathlib.Data.List.Infix
import Mathlib.Data.List.TakeWhile
import Mathlib.Tactic

/-!
# Searching texts with a delimiter

A key that begins with a delimiter can be found at a delimiter only. Where the
key is a delimited word and the text has delimited words, too, a find is the
word itself or nothing.
-/

namespace OpenArangoDBCore.Delimited
variable {α : Type} {q : α}

/-! ### Spans of one kind of symbol -/

/-- The text does not go on with a symbol of the kind. -/
def StopsAt (p : α → Bool) (text : List α) : Prop := ∀ a ∈ text.head?, p a = false

theorem StopsAt.shorten {p : α → Bool} {text rest : List α} (h : StopsAt p text)
    (hrest : rest <+: text) : StopsAt p rest := by
  intro a ha
  cases rest with
  | nil => cases ha
  | cons b rest =>
    obtain ⟨more, rfl⟩ := hrest
    exact h a ha

theorem stopsAt_dropWhile (p : α → Bool) (text : List α) : StopsAt p (text.dropWhile p) := by
  intro a ha
  have hhead := List.head?_dropWhile_not p text
  rwa [Option.mem_def.mp ha] at hhead

theorem StopsAt.dropWhile {p : α → Bool} {span rest : List α} (h : StopsAt p rest)
    (hspan : ∀ a ∈ span, p a = true) : (span ++ rest).dropWhile p = rest := by
  rw [List.dropWhile_append_of_pos hspan]
  cases rest with
  | nil => rfl
  | cons a rest => exact List.dropWhile_cons_of_neg (by simp [h a rfl])

theorem StopsAt.takeWhile {p : α → Bool} {span rest : List α} (h : StopsAt p rest)
    (hspan : ∀ a ∈ span, p a = true) : (span ++ rest).takeWhile p = span := by
  rw [List.takeWhile_append_of_pos hspan]
  cases rest with
  | nil => exact List.append_nil span
  | cons a rest => rw [List.takeWhile_cons_of_neg (by simp [h a rfl]), List.append_nil]

/-! ### Delimited words -/

/-- A delimited word begins with no other delimited word. -/
theorem delimited_prefix_iff {word word' rest rest' : List α} (h : q ∉ word) (h' : q ∉ word') :
    word ++ q :: rest <+: word' ++ q :: rest' ↔ word = word' ∧ rest <+: rest' := by
  induction word generalizing word' with
  | nil =>
    cases word' with
    | nil => simp
    | cons a word' =>
      have hne : q ≠ a := fun heq => h' (heq ▸ List.mem_cons_self)
      simp [hne]
  | cons b word ih =>
    cases word' with
    | nil =>
      have hne : b ≠ q := fun heq => h (heq ▸ List.mem_cons_self)
      simp [hne]
    | cons a word' =>
      rw [List.cons_append, List.cons_append, List.cons_prefix_cons,
        ih (fun hmem => h (List.mem_cons_of_mem b hmem))
          (fun hmem => h' (List.mem_cons_of_mem a hmem)), List.cons_eq_cons, and_assoc]

variable [DecidableEq α]

/-- What follows the first occurrence of the key. -/
def findAfter (key : List α) : List α → Option (List α)
  | [] => if key = [] then some [] else none
  | a :: rest =>
    if key.isPrefixOf (a :: rest) then some ((a :: rest).drop key.length) else findAfter key rest

theorem findAfter_here {key rest : List α} : findAfter key (key ++ rest) = some rest := by
  cases key with
  | nil => cases rest <;> simp [findAfter]
  | cons q key => simp [findAfter]

theorem findAfter_pass {key rest : List α} {a : α} (h : ¬ key <+: a :: rest) :
    findAfter key (a :: rest) = findAfter key rest := by
  unfold findAfter
  rw [if_neg (by rwa [List.isPrefixOf_iff_prefix])]
  cases rest <;> rfl

theorem findAfter_skip {key text : List α} (h : q ∉ text) (rest : List α) :
    findAfter (q :: key) (text ++ rest) = findAfter (q :: key) rest := by
  induction text with
  | nil => rfl
  | cons a text ih =>
    rw [List.cons_append, findAfter_pass, ih fun hmem => h (List.mem_cons_of_mem a hmem)]
    intro hpre
    exact h (List.mem_cons.mpr (.inl (List.cons_prefix_cons.mp hpre).1))

theorem findAfter_isSome_iff {key text : List α} :
    (findAfter key text).isSome = true ↔ key <:+: text := by
  induction text with
  | nil =>
    unfold findAfter
    split <;> simp_all
  | cons a rest ih =>
    unfold findAfter
    rw [List.infix_cons_iff, ← List.isPrefixOf_iff_prefix]
    split
    next hpre => simp [hpre]
    next hno => simp [hno, ih]

/-- The search for a delimited word goes past every other one. -/
theorem findAfter_word {key word rest rest' : List α} (h : q ∉ key) (h' : q ∉ word)
    (hother : key ≠ word ∨ ¬ rest <+: rest') :
    findAfter (q :: (key ++ q :: rest)) (q :: (word ++ q :: rest')) =
      findAfter (q :: (key ++ q :: rest)) (q :: rest') := by
  rw [findAfter_pass, findAfter_skip h']
  rw [List.cons_prefix_cons, delimited_prefix_iff h h']
  rintro ⟨-, rfl, hrest⟩
  cases hother with
  | inl hne => exact hne rfl
  | inr hno => exact hno hrest

/-- So it does past a delimiter with the wrong symbol behind it. -/
theorem findAfter_behind {key text : List α} {a : α} (h : StopsAt (· = a) text) :
    findAfter (q :: a :: key) (q :: text) = findAfter (q :: a :: key) text := by
  refine findAfter_pass ?_
  rw [List.cons_prefix_cons]
  rintro ⟨-, more, rfl⟩
  exact absurd (h a rfl) (by simp)

theorem findAfter_closing {key rest : List α} {a b : α} (h : a ≠ b) :
    findAfter (q :: a :: key) (q :: b :: rest) = findAfter (q :: a :: key) (b :: rest) := by
  refine findAfter_behind fun c hc => ?_
  obtain rfl := Option.some.inj hc
  exact decide_eq_false h.symm

theorem takeWhile_delimited {text : List α} (h : q ∉ text) (rest : List α) :
    (text ++ q :: rest).takeWhile (· ≠ q) = text := by
  rw [List.takeWhile_append_of_pos, List.takeWhile_cons_of_neg, List.append_nil]
  · simp
  · intro a ha
    rw [decide_eq_true_eq]
    rintro rfl
    exact h ha

theorem dropWhile_delimited {text : List α} (h : q ∉ text) (rest : List α) :
    (text ++ q :: rest).dropWhile (· ≠ q) = q :: rest := by
  rw [List.dropWhile_append_of_pos, List.dropWhile_cons_of_neg]
  · simp
  · intro a ha
    rw [decide_eq_true_eq]
    rintro rfl
    exact h ha

/-- What comes before the first delimiter is all of the text, or less of it. -/
theorem takeWhile_delimited_iff {text : List α} (rest : List α) :
    (text ++ q :: rest).takeWhile (· ≠ q) = text ↔ q ∉ text := by
  constructor
  · intro h hmem
    rw [← h] at hmem
    simpa using List.mem_takeWhile_imp hmem
  · exact fun h => takeWhile_delimited h rest

end OpenArangoDBCore.Delimited
