import Mathlib.Data.List.Basic
import Mathlib.Tactic

/-!
# Lines in pieces

A text is cut into lines at the symbols that end one. A reader that gets it in
pieces keeps what is not ended yet, and has cut the same lines in the end
wherever the pieces were cut.
-/

namespace OpenArangoDBCore.Lines
variable {α : Type} (ends : α → Bool)

/-- The lines that are ended, without their ends, and what is left. -/
def cutLines : List α → List (List α) × List α
  | [] => ([], [])
  | a :: rest =>
    if ends a then ([] :: (cutLines rest).1, (cutLines rest).2)
    else match (cutLines rest).1 with
      | [] => ([], a :: (cutLines rest).2)
      | line :: lines => ((a :: line) :: lines, (cutLines rest).2)

variable {ends}

theorem cutLines_end {a : α} (h : ends a = true) (rest : List α) :
    cutLines ends (a :: rest) = ([] :: (cutLines ends rest).1, (cutLines ends rest).2) := by
  rw [cutLines, if_pos h]

theorem cutLines_of_open {text : List α} (h : ∀ a ∈ text, ends a = false) :
    cutLines ends text = ([], text) := by
  induction text with
  | nil => rfl
  | cons a rest ih =>
    obtain ⟨ha, hrest⟩ := List.forall_mem_cons.mp h
    rw [cutLines, if_neg (Bool.eq_false_iff.mp ha), ih hrest]

theorem cutLines_line {line : List α} (h : ∀ a ∈ line, ends a = false) {a : α}
    (ha : ends a = true) (rest : List α) : cutLines ends (line ++ a :: rest) =
      (line :: (cutLines ends rest).1, (cutLines ends rest).2) := by
  induction line with
  | nil => exact cutLines_end ha rest
  | cons b line ih =>
    obtain ⟨hb, hline⟩ := List.forall_mem_cons.mp h
    rw [List.cons_append, cutLines, if_neg (Bool.eq_false_iff.mp hb), ih hline]

theorem open_or_line (ends : α → Bool) (text : List α) : (∀ a ∈ text, ends a = false) ∨
    ∃ line a rest, text = line ++ a :: rest ∧ (∀ b ∈ line, ends b = false) ∧ ends a = true := by
  induction text with
  | nil => exact .inl nofun
  | cons a rest ih =>
    cases ha : ends a with
    | true => exact .inr ⟨[], a, rest, rfl, nofun, ha⟩
    | false =>
      rcases ih with hopen | ⟨line, b, more, rfl, hline, hb⟩
      · exact .inl (List.forall_mem_cons.mpr ⟨ha, hopen⟩)
      · exact .inr ⟨a :: line, b, more, rfl, List.forall_mem_cons.mpr ⟨ha, hline⟩, hb⟩

/-- Induction over the lines of a text. -/
theorem lines_induction {motive : List α → Prop} (ends : α → Bool)
    (hopen : ∀ text, (∀ a ∈ text, ends a = false) → motive text)
    (hline : ∀ line a rest, (∀ b ∈ line, ends b = false) → ends a = true → motive rest →
      motive (line ++ a :: rest)) (text : List α) : motive text := by
  induction hlength : text.length using Nat.strong_induction_on generalizing text with
  | _ n ih =>
    rcases open_or_line ends text with h | ⟨line, a, rest, rfl, h, ha⟩
    · exact hopen text h
    · refine hline line a rest h ha (ih rest.length ?_ rest rfl)
      rw [← hlength, List.length_append, List.length_cons]
      omega

theorem cutLines_rest_open (text : List α) : ∀ a ∈ (cutLines ends text).2, ends a = false := by
  induction text using lines_induction ends with
  | hopen text h =>
    rw [cutLines_of_open h]
    exact h
  | hline line a rest h ha ih =>
    rw [cutLines_line h ha]
    exact ih

theorem cutLines_lines_open (text : List α) :
    ∀ line ∈ (cutLines ends text).1, ∀ a ∈ line, ends a = false := by
  induction text using lines_induction ends with
  | hopen text h =>
    rw [cutLines_of_open h]
    nofun
  | hline line a rest h ha ih =>
    rw [cutLines_line h ha]
    exact List.forall_mem_cons.mpr ⟨h, ih⟩

theorem cutLines_append (text more : List α) : cutLines ends (text ++ more) =
    ((cutLines ends text).1 ++ (cutLines ends ((cutLines ends text).2 ++ more)).1,
      (cutLines ends ((cutLines ends text).2 ++ more)).2) := by
  induction text using lines_induction ends with
  | hopen text h => rw [cutLines_of_open h]; rfl
  | hline line a rest h ha ih =>
    rw [List.append_assoc, List.cons_append, cutLines_line h ha, cutLines_line h ha, ih]
    rfl

/-! ### Two kinds of ends, one after the other -/

section Twice
variable (first second : α → Bool)

/-- Lines up to the first kind of end, then what is left up to the second. -/
def cutTwice (text : List α) : List (List α) × List α :=
  let byFirst := cutLines first text
  let bySecond := cutLines second byFirst.2
  (byFirst.1 ++ bySecond.1, bySecond.2)

def eitherEnd (a : α) : Bool := first a || second a

/-- No end of the second kind stands in front of one of the first. -/
def FirstKindFirst (text : List α) : Prop :=
  text.Pairwise fun a b => ¬ (second a = true ∧ first b = true)

instance (text : List α) : Decidable (FirstKindFirst first second text) :=
  inferInstanceAs (Decidable (List.Pairwise _ text))

variable {first second}

theorem eitherEnd_eq_false {a : α} (h : first a = false) (h' : second a = false) :
    eitherEnd first second a = false := by
  unfold eitherEnd
  rw [h, h']
  rfl

theorem of_eitherEnd {a : α} (h : eitherEnd first second a = false) :
    first a = false ∧ second a = false := Bool.or_eq_false_iff.mp h

theorem cutTwice_of_open {text : List α} (h : ∀ a ∈ text, first a = false) :
    cutTwice first second text = cutLines (eitherEnd first second) text := by
  have hkinds : ∀ t : List α, (∀ a ∈ t, first a = false) →
      cutLines second t = cutLines (eitherEnd first second) t := by
    intro t ht
    induction t with
    | nil => rfl
    | cons a rest ih =>
      obtain ⟨ha, hrest⟩ := List.forall_mem_cons.mp ht
      have hsame : eitherEnd first second a = second a := by
        unfold eitherEnd
        rw [ha, Bool.false_or]
      rw [cutLines, cutLines, ih hrest, hsame]
  unfold cutTwice
  rw [cutLines_of_open h]
  exact hkinds text h

theorem cutTwice_line {line : List α} (h : ∀ b ∈ line, first b = false) {a : α}
    (ha : first a = true) (rest : List α) : cutTwice first second (line ++ a :: rest) =
      (line :: (cutTwice first second rest).1, (cutTwice first second rest).2) := by
  unfold cutTwice
  rw [cutLines_line h ha]
  rfl

/-- As long as the kinds of ends come in their order, nothing is lost by
cutting at one kind after the other. -/
theorem cutTwice_of_ordered {text : List α} (h : FirstKindFirst first second text) :
    cutTwice first second text = cutLines (eitherEnd first second) text := by
  induction text using lines_induction first with
  | hopen text hopen => exact cutTwice_of_open hopen
  | hline line a rest hline ha ih =>
    obtain ⟨-, hrest, hacross⟩ := List.pairwise_append.mp h
    have hopen : ∀ b ∈ line, eitherEnd first second b = false := by
      intro b hb
      refine eitherEnd_eq_false (hline b hb) (Bool.eq_false_iff.mpr ?_)
      intro hsecond
      exact hacross b hb a List.mem_cons_self ⟨hsecond, ha⟩
    rw [cutTwice_line hline ha, ih (List.pairwise_cons.mp hrest).2,
      cutLines_line hopen (by unfold eitherEnd; rw [ha, Bool.true_or])]

theorem ordered_of_lines_open (hkinds : ∀ a, first a = true → second a = false) {text : List α}
    (h : ∀ line ∈ (cutTwice first second text).1, ∀ a ∈ line, second a = false) :
    FirstKindFirst first second text := by
  induction text using lines_induction first with
  | hopen text hopen =>
    refine List.pairwise_of_forall_mem_list ?_
    intro a _ b hb hends
    rw [hopen b hb] at hends
    exact Bool.false_ne_true hends.2
  | hline line a rest hline ha ih =>
    rw [cutTwice_line hline ha] at h
    obtain ⟨hfirst, hlines⟩ := List.forall_mem_cons.mp h
    refine List.pairwise_append.mpr ⟨?_, List.pairwise_cons.mpr ⟨?_, ih hlines⟩, ?_⟩
    · refine List.pairwise_of_forall_mem_list ?_
      intro b hb c _ hends
      rw [hfirst b hb] at hends
      exact Bool.false_ne_true hends.1
    · intro b _ hends
      rw [hkinds a ha] at hends
      exact Bool.false_ne_true hends.1
    · intro b hb c _ hends
      rw [hfirst b hb] at hends
      exact Bool.false_ne_true hends.1

/-! ### Reading pieces -/

/-- The lines that a reader gets from piece after piece, with `buffer` kept before. -/
def readPieces (cut : List α → List (List α) × List α) :
    List α → List (List α) → List (List α) × List α
  | buffer, [] => ([], buffer)
  | buffer, piece :: pieces =>
    let now := cut (buffer ++ piece)
    let later := readPieces cut now.2 pieces
    (now.1 ++ later.1, later.2)

theorem ordered_append_open {buffer piece : List α}
    (hopen : ∀ a ∈ buffer, eitherEnd first second a = false) :
    FirstKindFirst first second (buffer ++ piece) ↔ FirstKindFirst first second piece := by
  unfold FirstKindFirst
  rw [List.pairwise_append]
  refine ⟨fun h => h.2.1, fun h => ⟨?_, h, ?_⟩⟩
  · refine List.pairwise_of_forall_mem_list ?_
    intro a ha b _ hends
    rw [(of_eitherEnd (hopen a ha)).2] at hends
    exact Bool.false_ne_true hends.1
  · intro a ha b _ hends
    rw [(of_eitherEnd (hopen a ha)).2] at hends
    exact Bool.false_ne_true hends.1

/-- Where the pieces are cut makes no difference to the lines exactly if no
piece has an end of the second kind in front of one of the first. -/
theorem readPieces_iff (hkinds : ∀ a, first a = true → second a = false) (pieces : List (List α))
    {buffer : List α} (hopen : ∀ a ∈ buffer, eitherEnd first second a = false) :
    (readPieces (cutTwice first second) buffer pieces).1 =
        (cutLines (eitherEnd first second) (buffer ++ pieces.flatten)).1 ↔
      ∀ piece ∈ pieces, FirstKindFirst first second piece := by
  induction pieces generalizing buffer with
  | nil =>
    rw [List.flatten_nil, List.append_nil, cutLines_of_open hopen]
    exact iff_of_true rfl nofun
  | cons piece pieces ih =>
    rw [List.forall_mem_cons, List.flatten_cons, ← List.append_assoc, cutLines_append, readPieces]
    dsimp only
    constructor
    · intro heq
      have hordered : FirstKindFirst first second piece := by
        refine (ordered_append_open hopen).mp (ordered_of_lines_open hkinds ?_)
        intro line hline a ha
        have hmem := heq ▸ List.mem_append_left _ hline
        rw [List.mem_append] at hmem
        rcases hmem with hmem | hmem
        · exact (of_eitherEnd (cutLines_lines_open _ line hmem a ha)).2
        · exact (of_eitherEnd (cutLines_lines_open _ line hmem a ha)).2
      rw [cutTwice_of_ordered ((ordered_append_open hopen).mpr hordered)] at heq
      exact ⟨hordered, (ih (cutLines_rest_open _)).mp (List.append_cancel_left heq)⟩
    · rintro ⟨hordered, hpieces⟩
      rw [cutTwice_of_ordered ((ordered_append_open hopen).mpr hordered)]
      exact congrArg _ ((ih (cutLines_rest_open _)).mpr hpieces)

end Twice
end OpenArangoDBCore.Lines
