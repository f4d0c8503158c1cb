import OpenArangoDBCore.Lib.Delimited

/-!
# Records of fields, one to a line

A line is cut at its first separators, so the last field may contain more of
them. Whatever is read has no newline in a field and no separator in a field
before the last, and what is written under these conditions is read back.
-/

namespace OpenArangoDBCore.Records
open Delimited
variable {α : Type} [DecidableEq α] {sep newline : α}

/-- The fields of a line cut at its first `n` separators. -/
def cut (sep : α) : ℕ → List α → Option (List (List α))
  | 0, line => some [line]
  | n + 1, line =>
    if sep ∈ line then
      (cut sep n (line.dropWhile (· ≠ sep)).tail).map fun fields =>
        line.takeWhile (· ≠ sep) :: fields
    else none

/-- The lines of a text; what stands behind the last newline is not one. -/
def readLines (newline : α) (text : List α) : List (List α) := (text.splitOn newline).dropLast

def writeLines (newline : α) (lines : List (List α)) : List α :=
  lines.flatMap fun line => line ++ [newline]

/-! ### Fields -/

theorem cut_succ {n : ℕ} {field : List α} (h : sep ∉ field) (rest : List α) :
    cut sep (n + 1) (field ++ sep :: rest) = (cut sep n rest).map fun fields => field :: fields := by
  rw [cut, if_pos (by simp), takeWhile_delimited h, dropWhile_delimited h, List.tail_cons]

omit [DecidableEq α] in
theorem intercalate_cons_eq_flatMap (sep first : List α) (others : List (List α)) :
    sep.intercalate (first :: others) = first ++ others.flatMap fun item => sep ++ item := by
  induction others generalizing first with
  | nil => simp
  | cons second others ih =>
    rw [List.intercalate_cons_cons, ih, List.flatMap_cons, List.append_assoc, List.append_assoc]

omit [DecidableEq α] in
theorem intercalate_cons {field : List α} {fields : List (List α)} (h : fields ≠ []) :
    [sep].intercalate (field :: fields) = field ++ sep :: [sep].intercalate fields := by
  rw [List.intercalate_cons_of_ne_nil h]
  simp

theorem cut_iff {n : ℕ} {line : List α} {fields : List (List α)} :
    cut sep n line = some fields ↔ fields.length = n + 1 ∧ [sep].intercalate fields = line ∧
      ∀ field ∈ fields.dropLast, sep ∉ field := by
  induction n generalizing line fields with
  | zero =>
    constructor
    · intro h
      obtain rfl := Option.some.inj h
      simp
    · rintro ⟨hlength, rfl, -⟩
      obtain ⟨field, rfl⟩ := List.length_eq_one_iff.mp hlength
      simp [cut]
  | succ n ih =>
    constructor
    · intro h
      have hmem : sep ∈ line := by
        by_contra hno
        rw [cut, if_neg hno] at h
        cases h
      obtain ⟨field, rest, rfl, hfield⟩ := List.eq_append_cons_of_mem hmem
      rw [cut_succ hfield] at h
      obtain ⟨later, hlater, rfl⟩ := Option.map_eq_some_iff.mp h
      obtain ⟨hlength, hjoin, hsep⟩ := ih.mp hlater
      have hne : later ≠ [] := List.ne_nil_of_length_eq_add_one hlength
      refine ⟨by rw [List.length_cons, hlength], by rw [intercalate_cons hne, hjoin], ?_⟩
      rw [List.dropLast_cons_of_ne_nil hne]
      exact List.forall_mem_cons.mpr ⟨hfield, hsep⟩
    · rintro ⟨hlength, rfl, hsep⟩
      obtain ⟨field, later, rfl⟩ := List.exists_cons_of_length_eq_add_one hlength
      rw [List.length_cons, Nat.add_right_cancel_iff] at hlength
      have hne : later ≠ [] := List.ne_nil_of_length_eq_add_one hlength
      rw [List.dropLast_cons_of_ne_nil hne] at hsep
      obtain ⟨hfield, hlater⟩ := List.forall_mem_cons.mp hsep
      rw [intercalate_cons hne, cut_succ hfield, ih.mpr ⟨hlength, rfl, hlater⟩, Option.map_some]

omit [DecidableEq α] in
theorem mem_intercalate {fields : List (List α)} {a : α} (h : a ∈ [sep].intercalate fields) :
    a = sep ∨ ∃ field ∈ fields, a ∈ field := by
  induction fields with
  | nil => cases h
  | cons field fields ih =>
    by_cases hne : fields = []
    · subst hne
      exact .inr ⟨field, List.mem_singleton_self field, by simpa using h⟩
    · rw [intercalate_cons hne, List.mem_append, List.mem_cons] at h
      rcases h with hmem | hsep | hlater
      · exact .inr ⟨field, List.mem_cons_self, hmem⟩
      · exact .inl hsep
      · rcases ih hlater with hsep | ⟨other, hother, hmem⟩
        · exact .inl hsep
        · exact .inr ⟨other, List.mem_cons_of_mem field hother, hmem⟩

omit [DecidableEq α] in
theorem subset_intercalate {fields : List (List α)} {field : List α} (h : field ∈ fields) :
    field ⊆ [sep].intercalate fields := by
  induction fields with
  | nil => cases h
  | cons first fields ih =>
    by_cases hne : fields = []
    · subst hne
      rw [List.mem_singleton.mp h]
      simp
    · rw [intercalate_cons hne]
      rcases List.mem_cons.mp h with rfl | hlater
      · exact List.subset_append_left field _
      · exact fun a ha => List.mem_append_right _ (List.mem_cons_of_mem sep (ih hlater ha))

/-! ### Lines -/

theorem readLines_writeLines {lines : List (List α)} (h : ∀ line ∈ lines, newline ∉ line) :
    readLines newline (writeLines newline lines) = lines := by
  have hsplit : (writeLines newline lines).splitOn newline = lines ++ [[]] := by
    induction lines with
    | nil => rfl
    | cons line lines ih =>
      obtain ⟨hline, hlines⟩ := List.forall_mem_cons.mp h
      have hcons : writeLines newline (line :: lines) =
          line ++ newline :: writeLines newline lines := by
        simp [writeLines]
      rw [hcons, List.splitOn_append_cons_self_of_not_mem hline, ih hlines, List.cons_append]
  rw [readLines, hsplit, List.dropLast_concat]

theorem newline_notMem_splitOn (text : List α) : ∀ line ∈ text.splitOn newline, newline ∉ line := by
  induction text with
  | nil => simp
  | cons a text ih =>
    rw [List.splitOn_cons_eq_if_modifyHead]
    split
    next => exact List.forall_mem_cons.mpr ⟨List.not_mem_nil, ih⟩
    next hne =>
      have hother : newline ≠ a := fun heq => hne (heq ▸ BEq.rfl)
      obtain ⟨line, lines, hsplit⟩ := List.exists_cons_of_ne_nil (List.splitOn_ne_nil newline text)
      rw [hsplit] at ih ⊢
      obtain ⟨hline, hlines⟩ := List.forall_mem_cons.mp ih
      exact List.forall_mem_cons.mpr ⟨List.not_mem_cons_of_ne_of_not_mem hother hline, hlines⟩

theorem newline_notMem_readLines {text line : List α} (h : line ∈ readLines newline text) :
    newline ∉ line :=
  newline_notMem_splitOn text line (List.dropLast_subset _ h)

theorem readLines_cons {line : List α} (h : newline ∉ line) (rest : List α) :
    readLines newline (line ++ newline :: rest) = line :: readLines newline rest := by
  unfold readLines
  rw [List.splitOn_append_cons_self_of_not_mem h,
    List.dropLast_cons_of_ne_nil (List.splitOn_ne_nil newline rest)]

theorem readLines_open {text : List α} (h : newline ∉ text) : readLines newline text = [] := by
  unfold readLines
  rw [List.splitOn_eq_singleton h]
  rfl

omit [DecidableEq α] in
theorem writeLines_cons (line : List α) (lines : List (List α)) :
    writeLines newline (line :: lines) = line ++ newline :: writeLines newline lines := by
  simp [writeLines]

theorem readLines_writeLines_append {lines : List (List α)} (h : ∀ line ∈ lines, newline ∉ line)
    (text : List α) :
    readLines newline (writeLines newline lines ++ text) = lines ++ readLines newline text := by
  induction lines with
  | nil => rfl
  | cons line lines ih =>
    obtain ⟨hline, hlines⟩ := List.forall_mem_cons.mp h
    rw [writeLines_cons, List.append_assoc, List.cons_append, readLines_cons hline, ih hlines,
      List.cons_append]

/-- A text that is cut off is read up to its last whole line. -/
theorem readLines_take {lines : List (List α)} (h : ∀ line ∈ lines, newline ∉ line) (n : ℕ) :
    ∃ k, readLines newline ((writeLines newline lines).take n) = lines.take k ∧
      ∀ j ≤ lines.length, (writeLines newline (lines.take j)).length ≤ n → j ≤ k := by
  induction lines generalizing n with
  | nil => exact ⟨0, by simp [writeLines, readLines], fun j hj _ => hj⟩
  | cons line lines ih =>
    obtain ⟨hline, hlines⟩ := List.forall_mem_cons.mp h
    rw [writeLines_cons]
    by_cases hn : n ≤ line.length
    · refine ⟨0, ?_, ?_⟩
      · rw [List.take_append_of_le_length hn]
        exact readLines_open fun hmem => hline (List.mem_of_mem_take hmem)
      · intro j _ hfits
        cases j with
        | zero => exact le_rfl
        | succ j =>
          rw [List.take_succ_cons, writeLines_cons, List.length_append, List.length_cons] at hfits
          omega
    · obtain ⟨m, rfl⟩ : ∃ m, n = line.length + (m + 1) := ⟨n - line.length - 1, by omega⟩
      obtain ⟨k, hread, hmost⟩ := ih hlines m
      refine ⟨k + 1, ?_, ?_⟩
      · rw [List.take_length_add_append, List.take_succ_cons, readLines_cons hline, hread,
          List.take_succ_cons]
      · intro j hj hfits
        cases j with
        | zero => exact Nat.zero_le _
        | succ j =>
          rw [List.take_succ_cons, writeLines_cons, List.length_append, List.length_cons] at hfits
          exact Nat.succ_le_succ (hmost j (Nat.le_of_succ_le_succ hj) (by omega))

/-! ### Records -/

/-- A record that a line of `n` separators keeps. -/
structure Separable (newline sep : α) (n : ℕ) (fields : List (List α)) : Prop where
  length : fields.length = n + 1
  newline : ∀ field ∈ fields, newline ∉ field
  separator : ∀ field ∈ fields.dropLast, sep ∉ field

theorem records_read_back_iff (hne : newline ≠ sep) (n : ℕ) (records : List (List (List α))) :
    (readLines newline (writeLines newline (records.map [sep].intercalate))).map (cut sep n) =
        records.map some ↔
      ∀ fields ∈ records, Separable newline sep n fields := by
  constructor
  · intro h fields hfields
    have hmem : some fields ∈ records.map some := List.mem_map_of_mem hfields
    rw [← h] at hmem
    obtain ⟨line, hline, hcut⟩ := List.mem_map.mp hmem
    obtain ⟨hlength, hjoin, hsep⟩ := cut_iff.mp hcut
    refine ⟨hlength, ?_, hsep⟩
    intro field hfield hnewline
    apply newline_notMem_readLines hline
    rw [← hjoin]
    exact subset_intercalate hfield hnewline
  · intro h
    have hlines : ∀ line ∈ records.map [sep].intercalate, newline ∉ line := by
      intro line hline hnewline
      obtain ⟨fields, hfields, rfl⟩ := List.mem_map.mp hline
      rcases mem_intercalate hnewline with hsep | ⟨field, hfield, hmem⟩
      · exact hne hsep
      · exact (h fields hfields).newline field hfield hmem
    rw [readLines_writeLines hlines, List.map_map]
    apply List.map_congr_left
    intro fields hfields
    exact cut_iff.mpr ⟨(h fields hfields).length, rfl, (h fields hfields).separator⟩

end OpenArangoDBCore.Records
