import OpenArangoDBCore.Maskings.LoadRules

/-!
# One collection of a documented configuration

A collection is read with all its rules, wherever the parser goes on. Where no
name stands, with a comma in front of it or not, the parser stops.
-/

namespace OpenArangoDBCore.Maskings
open AttributeMasking TextSearch
variable {json rest : ByteString} {pos collectionsEnd : ℕ}

/-! ### One collection -/

theorem collectionHeader_print {name : Name} {g₀ g₁ g₂ : Gap} {t : Token}
    (hdrop : json.drop pos = g₀.val ++ (quoted name.val ++ (g₁.val ++ colon :: (g₂.val ++
      (t.text ++ rest))))) (hend : pos + g₀.val.length < collectionsEnd) :
    collectionHeader json collectionsEnd pos = some (name.val, pos + g₀.val.length +
      (quoted name.val).length + g₁.val.length + 1 + g₂.val.length) := by
  have hat := drop_add hdrop
  have hquote : json.drop (pos + g₀.val.length) = quote :: (name.val ++ quote ::
      (g₁.val ++ colon :: (g₂.val ++ (t.text ++ rest)))) := by
    rw [hat]
    simp [quoted]
  have hname : json.drop (pos + g₀.val.length + 1) = name.val ++ quote ::
      (g₁.val ++ colon :: (g₂.val ++ (t.text ++ rest))) := by
    rw [← List.drop_drop, hquote]
    rfl
  have hlength : pos + g₀.val.length + 1 + (name.val.length + 1) =
      pos + g₀.val.length + (quoted name.val).length := by
    simp [quoted]
    omega
  have hbehind := drop_add hat
  have hcolon := drop_add hbehind
  have hvalue : json.drop (pos + g₀.val.length + (quoted name.val).length + g₁.val.length + 1) =
      g₂.val ++ (t.text ++ rest) := by
    rw [← List.drop_drop, hcolon]
    rfl
  have hskip : skipWs json pos = pos + g₀.val.length := skipWs_token (t := .str name) hdrop
  unfold collectionHeader
  dsimp only
  rw [hskip, getElem?_of_drop hquote, if_neg (by simp; omega), extractString_of_drop hname]
  dsimp only
  rw [hlength, skipWs_of_drop hbehind (by decide), getElem?_of_drop hcolon, if_pos rfl,
    skipWs_token hvalue]

/-- The rules are the first array behind the first key `rules`. -/
theorem collectionRules_print (rules : List DocumentRule) {pieces : List Piece}
    (h : tokensOf pieces = separated (rules.map DocumentRule.tokens)) {g₀ g₁ g₂ g₃ : Gap}
    (hdrop : json.drop pos = openBrace :: (g₀.val ++ (quoted rulesKey.val ++ (g₁.val ++
      colon :: (g₂.val ++ openBracket :: (print pieces ++ (g₃.val ++ closeBracket :: rest)))))))
    (hend : pos + 1 + g₀.val.length < collectionsEnd) :
    ∃ behind, collectionRules json collectionsEnd pos =
      some (rules.map DocumentRule.loaded, behind) := by
  have hkey : json.drop pos = (openBrace :: g₀.val) ++ (quoted rulesKey.val ++ (g₁.val ++
      colon :: (g₂.val ++ openBracket :: (print pieces ++ (g₃.val ++ closeBracket :: rest))))) :=
    hdrop
  have hno : quote ∉ openBrace :: g₀.val := by
    intro hquote
    rcases List.mem_cons.mp hquote with hquote | hquote
    · exact absurd hquote (by decide)
    · exact Gap.notMem (by decide) g₀ hquote
  have hfind := findFrom_of_drop hkey (noStart_of_notMem hno _ _)
  have hat := drop_add hkey
  have harray : json.drop (pos + (openBrace :: g₀.val).length) =
      (quoted rulesKey.val ++ g₁.val ++ [colon] ++ g₂.val) ++ ([openBracket] ++
        (print pieces ++ (g₃.val ++ closeBracket :: rest))) := by
    rw [hat]
    simp
  have hnoBracket : openBracket ∉ quoted rulesKey.val ++ g₁.val ++ [colon] ++ g₂.val := by
    intro hopen
    simp only [List.mem_append, List.mem_singleton] at hopen
    rcases hopen with ((hopen | hopen) | hopen) | hopen
    · exact notMem_quoted (by decide) (by decide) rulesKey hopen
    · exact Gap.notMem (by decide) g₁ hopen
    · exact absurd hopen (by decide)
    · exact Gap.notMem (by decide) g₂ hopen
  have hopen := findFrom_of_drop harray (noStart_of_notMem hnoBracket _ _)
  have hinside := drop_add (drop_add harray)
  rw [List.length_singleton] at hinside
  have hbalanced : Balanced .openBracket .closeBracket 3 (tokensOf pieces) := by
    rw [h]
    refine balanced_separated (by decide) (by decide) fun item hitem => ?_
    obtain ⟨r, -, rfl⟩ := List.mem_map.mp hitem
    exact balanced_bracket_rule r
  have hmatch := findMatchingBrace_of_drop bracketPair hbalanced hinside
  have hlt : pos + (openBrace :: g₀.val).length < collectionsEnd := by
    rw [List.length_cons]
    omega
  unfold collectionRules rulesArray
  rw [show quoted (lit "rules") = quoted rulesKey.val from rfl, hfind, Option.bind_some,
    if_pos hlt, hopen]
  dsimp only
  rw [hmatch, Option.bind_some, rulesLoop_print rules h hinside rfl]
  exact ⟨_, rfl⟩

/-- A collection is read with its rules, wherever the parser goes on. -/
theorem parseCollection_print (c : DocumentCollection) {pieces : List Piece}
    (h : tokensOf pieces = c.tokens) (hdrop : json.drop pos = print pieces ++ rest)
    (hend : pos + (print pieces).length ≤ collectionsEnd) {b : ℕ}
    (hstart : objectStart json c.name.val = some b) {stop : ℕ}
    (hstop : findMatchingBrace json (b + 1) openBrace closeBrace = some stop) :
    parseCollection json collectionsEnd pos =
      some (some (c.loaded, skipComma json collectionsEnd (stop + 1))) := by
  obtain ⟨opening, array, rfl, hopening, harray⟩ := tokensOf_eq_append h
  obtain ⟨g₀, opening₀, rfl, hopening₀⟩ := tokensOf_eq_cons hopening
  obtain ⟨g₁, opening₁, rfl, hopening₁⟩ := tokensOf_eq_cons hopening₀
  obtain ⟨g₂, opening₂, rfl, hopening₂⟩ := tokensOf_eq_cons hopening₁
  obtain ⟨g₃, opening₃, rfl, hopening₃⟩ := tokensOf_eq_cons hopening₂
  obtain ⟨g₄, opening₄, rfl, hopening₄⟩ := tokensOf_eq_cons hopening₃
  obtain ⟨g₅, rfl⟩ := tokensOf_eq_singleton hopening₄
  obtain ⟨rules, closing, rfl, hrules, hclosing⟩ := tokensOf_eq_append harray
  obtain ⟨g₆, closing₀, rfl, hclosing₀⟩ := tokensOf_eq_cons hclosing
  obtain ⟨g₇, rfl⟩ := tokensOf_eq_singleton hclosing₀
  -- the text from the object's brace on
  obtain ⟨object, hobject⟩ : ∃ object, object = g₃.val ++ (quoted rulesKey.val ++ (g₄.val ++
    colon :: (g₅.val ++ openBracket :: (print rules ++ (g₆.val ++ closeBracket ::
      (g₇.val ++ closeBrace :: rest)))))) := ⟨_, rfl⟩
  have hheaderDrop : json.drop pos = g₀.val ++ (quoted c.name.val ++ (g₁.val ++ colon ::
      (g₂.val ++ (Token.openBrace.text ++ object)))) := by
    rw [hdrop, hobject]
    simp [Token.text]
  have hlength : (print ([(g₀, Token.str c.name), (g₁, Token.colon), (g₂, Token.openBrace),
      (g₃, Token.str rulesKey), (g₄, Token.colon), (g₅, Token.openBracket)] ++
        (rules ++ [(g₆, Token.closeBracket), (g₇, Token.closeBrace)]))).length
        = g₀.val.length + ((quoted c.name.val).length + (g₁.val.length + (1 + (g₂.val.length +
          (1 + (g₃.val.length + ((quoted rulesKey.val).length + (g₄.val.length + (1 +
            (g₅.val.length + (1 + ((print rules).length + (g₆.val.length + (1 +
              (g₇.val.length + 1))))))))))))))) := by
    simp only [print_append, print_cons, print_nil, List.length_append, Token.text,
      List.length_singleton, List.length_nil]
    omega
  have hnameEnd : pos + g₀.val.length < collectionsEnd := by omega
  have hheader := collectionHeader_print hheaderDrop hnameEnd
  have hbehind : json.drop (pos + g₀.val.length + (quoted c.name.val).length + g₁.val.length + 1 +
      g₂.val.length) = openBrace :: object := by
    have hcolon := drop_add (drop_add (drop_add hheaderDrop))
    have hvalue : json.drop (pos + g₀.val.length + (quoted c.name.val).length +
        g₁.val.length + 1) = g₂.val ++ (Token.openBrace.text ++ object) := by
      rw [← List.drop_drop, hcolon]
      rfl
    rw [drop_add hvalue]
    rfl
  rw [hobject] at hbehind
  have hkeyEnd : pos + g₀.val.length + (quoted c.name.val).length + g₁.val.length + 1 +
      g₂.val.length + 1 + g₃.val.length < collectionsEnd := by omega
  obtain ⟨left, hrulesRead⟩ := collectionRules_print c.rules hrules hbehind hkeyEnd
  unfold parseCollection
  rw [hheader]
  dsimp only
  rw [hrulesRead, Option.bind_some, objectEnd, hstart]
  dsimp only
  rw [hstop]
  rfl

/-! ### Where the parser stops -/

theorem parseCollection_none (pieces : List Piece) (trailing : Gap)
    (hdrop : json.drop pos = print pieces ++ trailing.val)
    (h : ∀ name more, tokensOf pieces ≠ .str name :: more) :
    parseCollection json collectionsEnd pos = some none := by
  have hquote : json[skipWs json pos]? ≠ some quote := by
    cases pieces with
    | nil =>
      have hall : ∀ b ∈ trailing.val, isspace b = true := fun b hb => (Gap.low hb).2
      rw [print_nil, List.nil_append] at hdrop
      unfold skipWs
      rw [hdrop, List.takeWhile_eq_self_iff.mpr hall, ← List.head?_drop, ← List.drop_drop, hdrop,
        List.drop_length]
      simp
    | cons p pieces =>
      obtain ⟨gap, t⟩ := p
      rw [print_cons, List.append_assoc, List.append_assoc] at hdrop
      dsimp only at hdrop
      rw [skipWs_token hdrop, ← List.head?_drop, drop_add hdrop]
      intro hhead
      have hstr : ∀ name, t ≠ .str name := by
        rintro name rfl
        exact h name (tokensOf pieces) rfl
      exact (separates_token hstr _ quote hhead).1 rfl
  unfold parseCollection collectionHeader
  dsimp only
  rw [if_pos (.inr hquote)]

/-- Behind these tokens there is no further collection. -/
def Stops (tokens : List Token) : Prop :=
  (∀ name more, tokens ≠ .str name :: more) ∧ ∀ name more, tokens ≠ .comma :: .str name :: more

theorem parseCollection_stops {pieces : List Piece} {trailing : Gap}
    (hdrop : json.drop pos = print pieces ++ trailing.val) (h : Stops (tokensOf pieces)) :
    parseCollection json collectionsEnd (skipComma json collectionsEnd pos) = some none := by
  -- the piece that is left when its whitespace is skipped
  have hhere : ∀ {t : Token} {more : List Piece} {pos' : ℕ}, (∀ name, t ≠ .str name) →
      json.drop pos' = t.text ++ (print more ++ trailing.val) →
        parseCollection json collectionsEnd pos' = some none := by
    intro t more pos' ht hdrop'
    refine parseCollection_none ((⟨[], rfl⟩, t) :: more) trailing ?_ ?_
    · rw [hdrop', print_cons, List.append_assoc, List.append_assoc]
      rfl
    · intro name tokens heq
      exact ht name (List.cons.inj heq).1
  cases pieces with
  | nil =>
    rw [print_nil, List.nil_append] at hdrop
    have hall : ∀ b ∈ trailing.val, isspace b = true := fun b hb => (Gap.low hb).2
    have hskip : skipWs json pos = pos + trailing.val.length := by
      unfold skipWs
      rw [hdrop, List.takeWhile_eq_self_iff.mpr hall]
    have hnil : json.drop (pos + trailing.val.length) = [] := by
      rw [← List.drop_drop, hdrop, List.drop_length]
    have hcomma : skipComma json collectionsEnd pos = pos + trailing.val.length := by
      unfold skipComma
      dsimp only
      rw [hskip, ← List.head?_drop, hnil, if_neg (by simp)]
    rw [hcomma]
    exact parseCollection_none [] ⟨[], rfl⟩ hnil (by simp [tokensOf])
  | cons p pieces =>
    obtain ⟨gap, t⟩ := p
    have hstr : ∀ name, t ≠ .str name := by
      rintro name rfl
      exact h.1 name (tokensOf pieces) rfl
    rw [print_cons, List.append_assoc, List.append_assoc] at hdrop
    dsimp only at hdrop
    have hat := drop_add hdrop
    by_cases hcomma : t = .comma
    · subst hcomma
      by_cases hlt : pos + gap.val.length < collectionsEnd
      · rw [skipComma_comma hdrop hlt]
        have hbehind : json.drop (pos + gap.val.length + 1) = print pieces ++ trailing.val := by
          rw [← List.drop_drop, hat]
          rfl
        refine parseCollection_none pieces trailing hbehind fun name more heq => ?_
        exact h.2 name more (congrArg (List.cons Token.comma) heq)
      · have hstay : skipComma json collectionsEnd pos = pos + gap.val.length := by
          unfold skipComma
          dsimp only
          rw [skipWs_token (t := .comma) hdrop, if_neg fun hboth => hlt hboth.1]
        rw [hstay]
        exact hhere hstr hat
    · obtain ⟨b, text, htext, hb⟩ := text_eq_cons t
      have hother : b ≠ comma := by
        rintro rfl
        refine hcomma (eq_of_mem_text (by decide) (by decide) (by decide) (b := comma) ?_)
        rw [htext]
        exact List.mem_cons_self
      have hdrop' := hdrop
      rw [htext, List.cons_append] at hdrop'
      rw [skipComma_other hdrop' hb hother]
      exact hhere hstr hat

end OpenArangoDBCore.Maskings
