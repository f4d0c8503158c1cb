import OpenArangoDBCore.Maskings.AttributeMasking

/-!
# Brackets of a text

Where brackets close and how deep they nest is a matter of the text alone. The
parser counts the depth in an `int` and so finds the partner of a bracket just
where fewer than 2 ^ 31 of them are open at once.
-/

namespace OpenArangoDBCore.Maskings.AttributeMasking
open TextSearch
variable {json : ByteString} {opening closing : Byte} {inString : Bool} {depth : ℕ}

/-- The bytes in front of the closing partner, or of the end. Strings are passed. -/
def closingIn (opening closing : Byte) : (inString : Bool) → (depth : ℕ) → ByteString → ℕ
  | _, _, [] => 0
  | true, depth, b :: rest =>
    if b = quote then closingIn opening closing false depth rest + 1
    else if b = backslash then
      match rest with
      | [] => 2
      | _ :: rest => closingIn opening closing true depth rest + 2
    else closingIn opening closing true depth rest + 1
  | false, depth, b :: rest =>
    if b = quote then closingIn opening closing true depth rest + 1
    else
      let depth := if b = opening then depth + 1 else depth
      let depth := if b = closing then depth - 1 else depth
      if 0 < depth then closingIn opening closing false depth rest + 1 else 0

/-- The most brackets that are open at once up to the closing partner. -/
def nestingIn (opening closing : Byte) : (inString : Bool) → (depth : ℕ) → ByteString → ℕ
  | _, depth, [] => depth
  | true, depth, b :: rest =>
    if b = quote then nestingIn opening closing false depth rest
    else if b = backslash then
      match rest with
      | [] => depth
      | _ :: rest => nestingIn opening closing true depth rest
    else nestingIn opening closing true depth rest
  | false, depth, b :: rest =>
    if b = quote then nestingIn opening closing true depth rest
    else
      let opened := if b = opening then depth + 1 else depth
      let depth := if b = closing then opened - 1 else opened
      if 0 < depth then max opened (nestingIn opening closing false depth rest) else opened

/-- The position of the partner of the bracket in front of `start`. -/
def closingAt (json : ByteString) (start : ℕ) (opening closing : Byte) : ℕ :=
  start + closingIn opening closing false 1 (json.drop start)

/-- How deep the brackets nest behind the one in front of `start`, which is counted too. -/
def nestingAt (json : ByteString) (start : ℕ) (opening closing : Byte) : ℕ :=
  nestingIn opening closing false 1 (json.drop start)

/-- The depth at a byte outside of strings, if the `int` holds it. -/
theorem increment_if (b opening : Byte) (h : depth < 2 ^ 31) :
    (if b = opening then increment depth else some depth) =
      if (if b = opening then depth + 1 else depth) < 2 ^ 31 then
        some (if b = opening then depth + 1 else depth)
      else none := by
  by_cases hopening : b = opening
  · simp only [if_pos hopening, increment]
  · simp only [if_neg hopening, if_pos h]

theorem map_fits {n : ℕ} (passed more : ℕ) :
    (if n < 2 ^ 31 then some passed else none).map (· + more) =
      if n < 2 ^ 31 then some (passed + more) else none := by
  split <;> rfl

/-- An `int` counts the brackets just where fewer than 2 ^ 31 are open at once. -/
theorem scanBraces_eq (text : ByteString) (hdepth : depth < 2 ^ 31) :
    scanBraces opening closing inString depth text =
      if nestingIn opening closing inString depth text < 2 ^ 31 then
        some (closingIn opening closing inString depth text)
      else none := by
  fun_induction nestingIn opening closing inString depth text with
  | case1 inString depth =>
    rw [if_pos hdepth]
    cases inString <;> rfl
  | case2 depth rest ih =>
    rw [scanBraces.eq_def, closingIn.eq_def]
    simp only [if_true, ih hdepth, map_fits]
  | case3 depth hquote =>
    rw [scanBraces.eq_def, closingIn.eq_def, if_pos hdepth]
    simp only [if_neg hquote, if_true]
  | case4 depth c rest hquote ih =>
    rw [scanBraces.eq_def, closingIn.eq_def]
    simp only [if_neg hquote, if_true, ih hdepth, map_fits]
  | case5 depth b rest hquote hbackslash ih =>
    rw [scanBraces.eq_def, closingIn.eq_def]
    simp only [if_neg hquote, if_neg hbackslash, ih hdepth, map_fits]
  | case6 depth rest ih =>
    rw [scanBraces.eq_def, closingIn.eq_def]
    simp only [if_true, ih hdepth, map_fits]
  | case7 depth b rest hquote opened behind hopen ih =>
    rw [scanBraces.eq_def, closingIn.eq_def]
    dsimp only
    rw [if_neg hquote, if_neg hquote, increment_if b opening hdepth]
    by_cases hopened : opened < 2 ^ 31
    · have hbehind : behind < 2 ^ 31 := by
        refine lt_of_le_of_lt ?_ hopened
        show (if b = closing then opened - 1 else opened) ≤ opened
        split <;> omega
      rw [if_pos hopened, Option.bind_some, if_pos hopen, if_pos hopen, ih hbehind, map_fits]
      simp only [max_lt_iff, and_iff_right hopened]
      rfl
    · rw [if_neg hopened, Option.bind_none, if_neg fun h => hopened (max_lt_iff.mp h).1]
  | case8 depth b rest hquote opened behind hclosed =>
    rw [scanBraces.eq_def, closingIn.eq_def]
    dsimp only
    rw [if_neg hquote, if_neg hquote, increment_if b opening hdepth]
    by_cases hopened : opened < 2 ^ 31
    · rw [if_pos hopened, if_pos hopened, Option.bind_some, if_neg hclosed, if_neg hclosed]
    · rw [if_neg hopened, if_neg hopened, Option.bind_none]

theorem findMatchingBrace_eq (json : ByteString) (start : ℕ) (opening closing : Byte) :
    findMatchingBrace json start opening closing =
      if nestingAt json start opening closing < 2 ^ 31 then
        some (closingAt json start opening closing)
      else none := by
  unfold findMatchingBrace nestingAt closingAt
  rw [scanBraces_eq _ (by decide)]
  split <;> rfl

theorem le_closingAt (json : ByteString) (start : ℕ) (opening closing : Byte) :
    start ≤ closingAt json start opening closing := Nat.le_add_right _ _

theorem findMatchingBrace_of_lt {start : ℕ} (h : nestingAt json start opening closing < 2 ^ 31) :
    findMatchingBrace json start opening closing = some (closingAt json start opening closing) := by
  rw [findMatchingBrace_eq, if_pos h]

theorem findMatchingBrace_of_le {start : ℕ} (h : 2 ^ 31 ≤ nestingAt json start opening closing) :
    findMatchingBrace json start opening closing = none := by
  rw [findMatchingBrace_eq, if_neg (Nat.not_lt.mpr h)]

/-! ### Rules -/

/-- The nesting of the array of roles; 0 without one. -/
def rolesNesting (ruleStr : ByteString) : ℕ :=
  (rolesArray ruleStr).elim 0 fun array => nestingAt ruleStr (array + 1) openBracket closeBracket

/-- The deepest nesting of the rule objects from `pos` on and of their arrays of roles. -/
def rulesNesting (json : ByteString) (arrayEnd pos : ℕ) : ℕ :=
  if pos < arrayEnd then
    let rulePos := skipWs json pos
    if arrayEnd ≤ rulePos ∨ json[rulePos]? ≠ some openBrace then
      rulesNesting json arrayEnd (rulePos + 1)
    else
      let ruleEnd := closingAt json (rulePos + 1) openBrace closeBrace
      max (nestingAt json (rulePos + 1) openBrace closeBrace)
        (max (rolesNesting ((json.drop rulePos).take (ruleEnd - rulePos + 1)))
          (rulesNesting json arrayEnd (skipComma json arrayEnd (ruleEnd + 1))))
  else 0
termination_by arrayEnd - pos
decreasing_by
  · have hskip := le_skipWs json pos
    omega
  · have hskip := le_skipWs json pos
    have hbrace := le_closingAt json (skipWs json pos + 1) openBrace closeBrace
    have hcomma := le_skipComma json arrayEnd
      (closingAt json (skipWs json pos + 1) openBrace closeBrace + 1)
    omega

theorem parseRule_isSome_iff (ruleStr : ByteString) :
    (parseRule ruleStr).isSome ↔ rolesNesting ruleStr < 2 ^ 31 := by
  unfold parseRule rolesField rolesNesting
  cases rolesArray ruleStr with
  | none => exact iff_of_true rfl (Nat.two_pow_pos 31)
  | some array =>
    dsimp only [Option.elim]
    rw [findMatchingBrace_eq]
    split
    next h => exact iff_of_true rfl h
    next h => exact iff_of_false Bool.false_ne_true h

theorem rulesLoop_isSome_iff (json : ByteString) (arrayEnd pos : ℕ) :
    (rulesLoop json arrayEnd pos).isSome ↔ rulesNesting json arrayEnd pos < 2 ^ 31 := by
  fun_induction rulesNesting json arrayEnd pos with
  | case1 pos hlt rulePos hskip ih =>
    rw [rulesLoop, if_pos hlt]
    dsimp only
    rw [if_pos hskip]
    exact ih
  | case2 pos hlt rulePos hobject ruleEnd ih =>
    rw [rulesLoop, if_pos hlt]
    dsimp only
    rw [if_neg hobject, max_lt_iff, max_lt_iff, ← ih, ← parseRule_isSome_iff]
    split
    next hnone =>
      have hdeep : ¬ nestingAt json (rulePos + 1) openBrace closeBrace < 2 ^ 31 := by
        intro hfits
        cases (findMatchingBrace_of_lt hfits).symm.trans hnone
      exact iff_of_false Bool.false_ne_true fun h => hdeep h.1
    next stop hend =>
      have hfits : nestingAt json (rulePos + 1) openBrace closeBrace < 2 ^ 31 := by
        by_contra hdeep
        cases (findMatchingBrace_of_le (Nat.not_lt.mp hdeep)).symm.trans hend
      obtain rfl := Option.some.inj ((findMatchingBrace_of_lt hfits).symm.trans hend)
      rw [and_iff_right hfits, Option.isSome_bind]
      cases parseRule ((json.drop rulePos).take (ruleEnd - rulePos + 1)) with
      | none => exact iff_of_false Bool.false_ne_true fun h => Bool.false_ne_true h.1
      | some rule =>
        rw [Option.any_some, Option.isSome_map, and_iff_right Option.isSome_some]
  | case3 pos hend =>
    rw [rulesLoop, if_neg hend]
    exact iff_of_true rfl (by decide)

/-! ### Collections -/

/-- The deepest nesting of the array of rules that begins behind `pos`; 0 without one. -/
def arrayNesting (json : ByteString) (collectionsEnd pos : ℕ) : ℕ :=
  (rulesArray json collectionsEnd pos).elim 0 fun array =>
    max (nestingAt json (array + 1) openBracket closeBracket)
      (rulesNesting json (closingAt json (array + 1) openBracket closeBracket) (array + 1))

/-- The position behind that array; `pos` without one. -/
def rulesEnd (json : ByteString) (collectionsEnd pos : ℕ) : ℕ :=
  (rulesArray json collectionsEnd pos).elim pos fun array =>
    closingAt json (array + 1) openBracket closeBracket + 1

theorem collectionRules_of_lt {collectionsEnd pos : ℕ}
    (h : arrayNesting json collectionsEnd pos < 2 ^ 31) :
    ∃ rules, collectionRules json collectionsEnd pos =
      some (rules, rulesEnd json collectionsEnd pos) := by
  unfold arrayNesting at h
  unfold collectionRules rulesEnd
  cases harray : rulesArray json collectionsEnd pos with
  | none => exact ⟨[], rfl⟩
  | some array =>
    rw [harray] at h
    obtain ⟨hfits, hrules⟩ := max_lt_iff.mp h
    obtain ⟨rules, hloop⟩ := Option.isSome_iff_exists.mp ((rulesLoop_isSome_iff _ _ _).mpr hrules)
    refine ⟨rules, ?_⟩
    dsimp only [Option.elim]
    rw [findMatchingBrace_of_lt hfits, Option.bind_some, hloop, Option.map_some]

theorem collectionRules_of_le {collectionsEnd pos : ℕ}
    (h : 2 ^ 31 ≤ arrayNesting json collectionsEnd pos) :
    collectionRules json collectionsEnd pos = none := by
  unfold arrayNesting at h
  unfold collectionRules
  cases harray : rulesArray json collectionsEnd pos with
  | none =>
    rw [harray] at h
    exact absurd h (Nat.not_le.mpr (Nat.two_pow_pos 31))
  | some array =>
    rw [harray] at h
    dsimp only [Option.elim] at h ⊢
    rw [findMatchingBrace_eq]
    split
    next hfits =>
      have hrules := (le_max_iff.mp h).resolve_left (Nat.not_le.mpr hfits)
      have hnone := mt (rulesLoop_isSome_iff _ _ _).mp (Nat.not_lt.mpr hrules)
      rw [Option.bind_some, Option.not_isSome_iff_eq_none.mp hnone, Option.map_none]
    next => rfl

/-- A collection of the text: its name and where its value begins. -/
abbrev Entry := ByteString × ℕ

/-- How deep the brackets nest that belong to the entry: its array of rules, the
rule objects, their arrays of roles, and the object that the name leads to. -/
def entryNesting (json : ByteString) (collectionsEnd : ℕ) (entry : Entry) : ℕ :=
  max (arrayNesting json collectionsEnd entry.2)
    ((objectStart json entry.1).elim 0 fun object =>
      nestingAt json (object + 1) openBrace closeBrace)

/-- The position behind the object that the name leads to, or behind the rules if it
leads to none. -/
def entryEnd (json : ByteString) (collectionsEnd : ℕ) (entry : Entry) : ℕ :=
  (objectStart json entry.1).elim (rulesEnd json collectionsEnd entry.2) fun object =>
    closingAt json (object + 1) openBrace closeBrace + 1

/-- Where the text goes on behind the entry. -/
def behindEntry (json : ByteString) (collectionsEnd : ℕ) (entry : Entry) : ℕ :=
  skipComma json collectionsEnd (entryEnd json collectionsEnd entry)

variable {collectionsEnd pos : ℕ} {entry : Entry}

theorem parseCollection_of_lt (hheader : collectionHeader json collectionsEnd pos = some entry)
    (h : entryNesting json collectionsEnd entry < 2 ^ 31) :
    ∃ config, parseCollection json collectionsEnd pos =
      some (some (config, behindEntry json collectionsEnd entry)) := by
  obtain ⟨harray, hobject⟩ := max_lt_iff.mp h
  obtain ⟨rules, hrules⟩ := collectionRules_of_lt harray
  refine ⟨⟨entry.1, rules⟩, ?_⟩
  unfold parseCollection behindEntry entryEnd objectEnd
  rw [hheader]
  dsimp only
  rw [hrules, Option.bind_some]
  cases hstart : objectStart json entry.1 with
  | none => rfl
  | some object =>
    rw [hstart] at hobject
    dsimp only [Option.elim] at hobject ⊢
    rw [findMatchingBrace_of_lt hobject]
    rfl

theorem parseCollection_of_le (hheader : collectionHeader json collectionsEnd pos = some entry)
    (h : 2 ^ 31 ≤ entryNesting json collectionsEnd entry) :
    parseCollection json collectionsEnd pos = none := by
  unfold parseCollection
  rw [hheader]
  dsimp only
  by_cases harray : arrayNesting json collectionsEnd entry.2 < 2 ^ 31
  · obtain ⟨rules, hrules⟩ := collectionRules_of_lt harray
    have hobject := (le_max_iff.mp h).resolve_left (Nat.not_le.mpr harray)
    rw [hrules, Option.bind_some, objectEnd]
    cases hstart : objectStart json entry.1 with
    | none =>
      rw [hstart] at hobject
      exact absurd hobject (Nat.not_le.mpr (Nat.two_pow_pos 31))
    | some object =>
      rw [hstart] at hobject
      dsimp only [Option.elim] at hobject ⊢
      rw [findMatchingBrace_of_le hobject]
      rfl
  · rw [collectionRules_of_le (Nat.not_lt.mp harray), Option.bind_none]

theorem parseCollection_of_none (h : collectionHeader json collectionsEnd pos = none) :
    parseCollection json collectionsEnd pos = some none := by
  rw [parseCollection, h]

end OpenArangoDBCore.Maskings.AttributeMasking
