import OpenArangoDBCore.Lib.Records
import OpenArangoDBCore.Maskings.LayoutScan

/-!
# Rules of a documented configuration

A rule object is read as it was printed, but for one path: behind a path
`type`, the key `type` is read as the type.
-/

namespace OpenArangoDBCore.Maskings
open AttributeMasking TextSearch
variable {json rest : ByteString} {pos : ℕ}

/-- What the parser makes of the rule. -/
def DocumentRule.loaded (r : DocumentRule) : MaskingRule :=
  ⟨r.path.val, if r.path = typeKey then typeKey.val else r.type.val, r.roles.map Subtype.val⟩

def DocumentCollection.loaded (c : DocumentCollection) : CollectionMaskingConfig :=
  ⟨c.name.val, c.rules.map DocumentRule.loaded⟩

theorem DocumentRule.loaded_eq_rule_iff (r : DocumentRule) :
    r.loaded = r.rule ↔ (r.path = typeKey → r.type = typeKey) := by
  unfold DocumentRule.loaded DocumentRule.rule
  rw [MaskingRule.mk.injEq]
  constructor
  · rintro ⟨-, htype, -⟩ hpath
    rw [if_pos hpath] at htype
    exact (Subtype.ext htype).symm
  · intro h
    refine ⟨rfl, ?_, rfl⟩
    split
    next hpath => rw [h hpath]
    next => rfl

theorem DocumentCollection.loaded_eq_config_iff (c : DocumentCollection) :
    c.loaded = c.config ↔ ∀ r ∈ c.rules, r.path = typeKey → r.type = typeKey := by
  unfold DocumentCollection.loaded DocumentCollection.config
  rw [CollectionMaskingConfig.mk.injEq, and_iff_right rfl, List.map_inj_left]
  exact forall₂_congr fun r _ => r.loaded_eq_rule_iff

/-! ### Pieces of tokens -/

theorem tokensOf_eq_cons {pieces : List Piece} {t : Token} {tokens : List Token}
    (h : tokensOf pieces = t :: tokens) :
    ∃ gap others, pieces = (gap, t) :: others ∧ tokensOf others = tokens := by
  obtain ⟨⟨gap, t'⟩, others, rfl, ht, hothers⟩ := List.map_eq_cons_iff.mp h
  obtain rfl : t' = t := ht
  exact ⟨gap, others, rfl, hothers⟩

theorem tokensOf_eq_append {pieces : List Piece} {tokens more : List Token}
    (h : tokensOf pieces = tokens ++ more) :
    ∃ front back, pieces = front ++ back ∧ tokensOf front = tokens ∧ tokensOf back = more :=
  List.map_eq_append_iff.mp h

theorem tokensOf_eq_singleton {pieces : List Piece} {t : Token} (h : tokensOf pieces = [t]) :
    ∃ gap, pieces = [(gap, t)] := by
  obtain ⟨gap, others, rfl, hothers⟩ := tokensOf_eq_cons h
  obtain rfl := List.map_eq_nil_iff.mp hothers
  exact ⟨gap, rfl⟩

theorem separated_singleton (item : List Token) : separated [item] = item :=
  List.intercalate_singleton

theorem separated_cons_cons (item next : List Token) (items : List (List Token)) :
    separated (item :: next :: items) = item ++ .comma :: separated (next :: items) := by
  rw [separated, List.intercalate_cons_cons, List.append_assoc]
  rfl

theorem mem_separated {items : List (List Token)} {t : Token} (h : t ∈ separated items) :
    t = .comma ∨ ∃ item ∈ items, t ∈ item := by
  induction items with
  | nil => cases h
  | cons item items ih =>
    cases items with
    | nil =>
      rw [separated_singleton] at h
      exact .inr ⟨item, List.mem_cons_self, h⟩
    | cons next items =>
      rw [separated_cons_cons] at h
      rcases List.mem_append.mp h with h | h
      · exact .inr ⟨item, List.mem_cons_self, h⟩
      · rcases List.mem_cons.mp h with h | h
        · exact .inl h
        · refine (ih h).imp id fun hlater => ?_
          obtain ⟨other, hother, hmem⟩ := hlater
          exact ⟨other, List.mem_cons_of_mem item hother, hmem⟩

/-- A property that goes over a comma holds of the separated items. -/
theorem separated_rule {property : List Token → Prop} (hnil : property [])
    (hjoin : ∀ item rest, property item → property rest → property (item ++ .comma :: rest))
    {items : List (List Token)} (h : ∀ item ∈ items, property item) :
    property (separated items) := by
  induction items with
  | nil => exact hnil
  | cons item items ih =>
    obtain ⟨hitem, hitems⟩ := List.forall_mem_cons.mp h
    cases items with
    | nil =>
      rw [separated_singleton]
      exact hitem
    | cons next items =>
      rw [separated_cons_cons]
      exact hjoin item _ hitem (ih hitems)

theorem balanced_separated {left right : Token} {n : ℕ} (hleft : .comma ≠ left)
    (hright : .comma ≠ right) {items : List (List Token)}
    (h : ∀ item ∈ items, Balanced left right n item) : Balanced left right n (separated items) :=
  separated_rule .nil (fun _ _ hitem hrest => hitem.append (.other hleft hright hrest)) h

/-! ### One string of a rule -/

theorem stringField_print (front : List Piece) (key : Name) {value : Name} {back : List Piece}
    {g₀ g₁ g₂ : Gap} {t : Token} (ht : quote ∉ t.text)
    (happart : List.IsChain Apart (tokensOf front ++ [Token.str key]))
    (hmem : .str key ∉ tokensOf front) :
    stringField (print (front ++ (g₀, .str key) :: (g₁, t) :: (g₂, .str value) :: back)) key.val =
      value.val := by
  obtain ⟨behind, hbehind⟩ : ∃ behind, behind =
    g₁.val ++ (t.text ++ (g₂.val ++ (quoted value.val ++ print back))) := ⟨_, rfl⟩
  have htext : print (front ++ (g₀, .str key) :: (g₁, t) :: (g₂, .str value) :: back) =
      print front ++ g₀.val ++ (quoted key.val ++ behind) := by
    rw [hbehind]
    simp [Token.text]
  have hkey : find (quoted key.val) (print front ++ g₀.val ++ (quoted key.val ++ behind)) =
      some (print front ++ g₀.val).length := by
    rw [(noStart_print happart hmem g₀ behind).find, find_here]
    rfl
  have hgap : quote ∉ g₁.val ++ t.text ++ g₂.val := by
    intro hquote
    rcases List.mem_append.mp hquote with hquote | hquote
    · rcases List.mem_append.mp hquote with hquote | hquote
      · exact Gap.notMem (by decide) g₁ hquote
      · exact ht hquote
    · exact Gap.notMem (by decide) g₂ hquote
  have hdrop : (print front ++ g₀.val ++ (quoted key.val ++ behind)).drop
      ((print front ++ g₀.val).length + (quoted key.val).length) =
        (g₁.val ++ t.text ++ g₂.val) ++ ([quote] ++ (value.val ++ quote :: print back)) := by
    rw [drop_add (List.drop_left' rfl), hbehind]
    simp [quoted]
  have hfind := findFrom_of_drop hdrop (noStart_of_notMem hgap [] _)
  have hstring := drop_add (drop_add hdrop)
  rw [htext, stringField, hkey]
  dsimp only
  rw [hfind]
  exact congrArg Prod.fst (extractString_of_drop hstring)

/-! ### Roles -/

def Token.name? : Token → Option ByteString
  | .str name => some name.val
  | _ => none

/-- The loop over the roles takes the strings and passes the commas. -/
theorem rolesLoop_print {pieces : List Piece}
    (hpieces : ∀ t ∈ tokensOf pieces, t = .comma ∨ ∃ name, t = .str name) {gap : Gap}
    (hdrop : json.drop pos = print pieces ++ (gap.val ++ closeBracket :: rest)) {bound : ℕ}
    (hbound : bound = pos + (print pieces).length + gap.val.length) :
    rolesLoop json bound pos = (tokensOf pieces).filterMap Token.name? := by
  induction pieces generalizing pos with
  | nil =>
    rw [print_nil, List.nil_append] at hdrop
    have hend : bound = pos + gap.val.length := hbound
    rw [rolesLoop]
    split
    next =>
      rw [skipWs_of_drop hdrop (by decide), if_neg (by omega), rolesLoop, if_neg (by omega)]
      rfl
    next => rfl
  | cons p pieces ih =>
    obtain ⟨g, t⟩ := p
    obtain ⟨ht, hrest⟩ := List.forall_mem_cons.mp hpieces
    rw [print_cons, List.append_assoc, List.append_assoc] at hdrop
    dsimp only at hdrop
    have hskip : skipWs json pos = pos + g.val.length := skipWs_token hdrop
    have hlength : (print ((g, t) :: pieces)).length =
        g.val.length + (t.text.length + (print pieces).length) := by
      rw [print_cons, List.length_append, List.length_append]
    have htoken := drop_add hdrop
    have hnext := drop_add htoken
    obtain rfl | ⟨name, rfl⟩ := ht
    · have hone : (Token.comma.text).length = 1 := rfl
      rw [hone] at hnext hlength
      rw [rolesLoop, if_pos (by omega), hskip, getElem?_of_drop htoken,
        if_neg (by rintro ⟨-, h⟩; exact absurd h (by decide)), ih hrest hnext (by omega)]
      rfl
    · have htext : (Token.str name).text.length = name.val.length + 2 := by
        simp [Token.text, quoted]
      have hquote : json.drop (pos + g.val.length) = quote :: (name.val ++ quote ::
          (print pieces ++ (gap.val ++ closeBracket :: rest))) := by
        rw [htoken]
        simp [Token.text, quoted]
      have hname : json.drop (pos + g.val.length + 1) = name.val ++ quote ::
          (print pieces ++ (gap.val ++ closeBracket :: rest)) := by
        rw [← List.drop_drop, hquote]
        rfl
      rw [htext] at hnext hlength
      rw [rolesLoop, if_pos (by omega), hskip, getElem?_of_drop hquote,
        if_pos ⟨by omega, rfl⟩, extractString_of_drop hname]
      have hbehind : pos + g.val.length + 1 + (name.val.length + 1) =
          pos + g.val.length + (name.val.length + 2) := by omega
      rw [hbehind, ih hrest hnext (by omega)]
      rfl

theorem filterMap_separated_names (names : List Name) :
    (separated (names.map fun name => [.str name])).filterMap Token.name? =
      names.map Subtype.val := by
  induction names with
  | nil => rfl
  | cons name names ih =>
    cases names with
    | nil => rfl
    | cons next names =>
      have hcons : separated ((name :: next :: names).map fun name => [.str name]) =
          .str name :: .comma :: separated ((next :: names).map fun name => [.str name]) :=
        separated_cons_cons _ _ _
      have hpass : ∀ tokens, (Token.str name :: .comma :: tokens).filterMap Token.name? =
          name.val :: tokens.filterMap Token.name? := fun tokens => rfl
      rw [hcons, hpass, ih, List.map_cons (a := name)]

theorem mem_separated_names {names : List Name} {t : Token}
    (h : t ∈ separated (names.map fun name => [.str name])) :
    t = .comma ∨ ∃ name, t = .str name := by
  refine (mem_separated h).imp id fun hitem => ?_
  obtain ⟨item, hitem, ht⟩ := hitem
  obtain ⟨name, -, rfl⟩ := List.mem_map.mp hitem
  exact ⟨name, List.mem_singleton.mp ht⟩

/-- What comes in front of the roles in a rule. -/
def DocumentRule.head (r : DocumentRule) : List Token :=
  [.openBrace, .str pathKey, .colon, .str r.path, .comma, .str typeKey, .colon, .str r.type]

theorem DocumentRule.tokens_eq (r : DocumentRule) :
    r.tokens = r.head ++ (r.rolesTokens ++ [Token.closeBrace]) := rfl

theorem notMem_rolesTokens {t : Token} (ht : t ≠ .comma) (hstr : ∀ name, t ≠ .str name)
    (hcolon : t ≠ .colon) (hopen : t ≠ .openBracket) (hclose : t ≠ .closeBracket)
    (r : DocumentRule) : t ∉ r.rolesTokens := by
  unfold DocumentRule.rolesTokens
  split
  next =>
    intro hmem
    rcases List.mem_append.mp hmem with hmem | hmem
    · simp [ht, hcolon, hopen, hstr] at hmem
    · rcases List.mem_append.mp hmem with hmem | hmem
      · obtain rfl | ⟨name, rfl⟩ := mem_separated_names hmem
        · exact ht rfl
        · exact hstr name rfl
      · exact hclose (List.mem_singleton.mp hmem)
  next => exact List.not_mem_nil

/-! ### Strings stand apart -/

theorem apart_append_cons {tokens more : List Token} {t : Token} (ht : ∀ name, t ≠ .str name)
    (h : List.IsChain Apart tokens) (hmore : List.IsChain Apart more) :
    List.IsChain Apart (tokens ++ t :: more) := by
  refine List.isChain_append.mpr ⟨h, List.isChain_cons.mpr ⟨fun _ _ => .inl ht, hmore⟩, ?_⟩
  intro x _ y hy
  obtain rfl : t = y := Option.some.inj hy
  exact .inr ht

theorem apart_separated {items : List (List Token)}
    (h : ∀ item ∈ items, List.IsChain Apart item) : List.IsChain Apart (separated items) :=
  separated_rule .nil (fun _ _ => apart_append_cons fun _ => Token.noConfusion) h

theorem apart_rolesTokens (r : DocumentRule) (more : List Token)
    (h : List.IsChain Apart (.closeBrace :: more)) :
    List.IsChain Apart (.str r.type :: (r.rolesTokens ++ .closeBrace :: more)) := by
  unfold DocumentRule.rolesTokens
  split
  next =>
    have hnames : List.IsChain Apart (separated (r.roles.map fun name => [.str name])) := by
      refine apart_separated fun item hitem => ?_
      obtain ⟨name, -, rfl⟩ := List.mem_map.mp hitem
      exact .singleton _
    have hinner := apart_append_cons (t := .closeBracket) (fun _ => Token.noConfusion) hnames h
    have hbracket : List.IsChain Apart (.openBracket ::
        (separated (r.roles.map fun name => [.str name]) ++
          .closeBracket :: .closeBrace :: more)) :=
      apart_append_cons (fun _ => Token.noConfusion) .nil hinner
    simpa [List.isChain_cons_cons, Apart] using hbracket
  next => simpa [List.isChain_cons_cons, Apart] using h

theorem apart_rule (r : DocumentRule) : List.IsChain Apart r.tokens := by
  have hroles := apart_rolesTokens r [] (.singleton _)
  rw [r.tokens_eq]
  simpa [DocumentRule.head, List.isChain_cons_cons, Apart] using hroles

/-! ### A rule object -/

theorem rolesField_of_notMem {ruleStr : ByteString} (h : openBracket ∉ ruleStr) :
    rolesField ruleStr = some [] := by
  have harray : rolesArray ruleStr = none := by
    unfold rolesArray
    cases find (quoted (lit "roles")) ruleStr with
    | none => rfl
    | some rolesPos => exact findFrom_none_of_notMem h rolesPos
  rw [rolesField, harray]

/-- However often the key occurs in front of it, the roles are the array behind. -/
theorem rolesField_print (front : List Piece) (g g' : Gap) (back : List Piece)
    {names : List Piece} (happart : List.IsChain Apart (tokensOf front))
    (hmem : .str rolesKey ∈ tokensOf front) (hfront : .openBracket ∉ tokensOf front)
    (hnames : ∀ t ∈ tokensOf names, t = .comma ∨ ∃ name, t = .str name) :
    rolesField (print (front ++ (g, .openBracket) :: (names ++ (g', .closeBracket) :: back))) =
      some ((tokensOf names).filterMap Token.name?) := by
  obtain ⟨A, B, hAB, hA⟩ := List.eq_append_cons_of_mem hmem
  obtain ⟨first, behind, rfl, rfl, hbehind⟩ := tokensOf_eq_append hAB
  obtain ⟨gap, between, rfl, rfl⟩ := tokensOf_eq_cons hbehind
  rw [hAB] at happart hfront
  have hpart : List.IsChain Apart (tokensOf first ++ [Token.str rolesKey]) := by
    have hsplit : tokensOf first ++ Token.str rolesKey :: tokensOf between =
        tokensOf first ++ [Token.str rolesKey] ++ tokensOf between := by simp
    rw [hsplit] at happart
    exact happart.left_of_append
  obtain ⟨array, harray⟩ : ∃ array, array =
    print names ++ (g'.val ++ closeBracket :: print back) := ⟨_, rfl⟩
  obtain ⟨text, htext⟩ : ∃ text, text = print (first ++ (gap, .str rolesKey) :: between ++
    (g, .openBracket) :: (names ++ (g', .closeBracket) :: back)) := ⟨_, rfl⟩
  have hsplit : text = (print first ++ gap.val) ++ (quoted rolesKey.val ++
      (print between ++ g.val ++ openBracket :: array)) := by
    rw [htext, harray]
    simp [Token.text]
  have hfind : find (quoted (lit "roles")) text = some (print first ++ gap.val).length := by
    rw [hsplit]
    show find (quoted rolesKey.val) _ = _
    rw [(noStart_print hpart hA gap _).find, find_here]
    rfl
  have hdrop : text.drop (print first ++ gap.val).length =
      (quoted rolesKey.val ++ print between ++ g.val) ++ ([openBracket] ++ array) := by
    rw [hsplit, List.drop_left]
    simp
  have hno : openBracket ∉ quoted rolesKey.val ++ print between ++ g.val := by
    intro hopen
    rcases List.mem_append.mp hopen with hopen | hopen
    · rcases List.mem_append.mp hopen with hopen | hopen
      · exact notMem_quoted (by decide) (by decide) rolesKey hopen
      · refine openBracket_notMem_print (fun hbetween => hfront ?_) hopen
        exact List.mem_append_right _ (List.mem_cons_of_mem _ hbetween)
    · exact Gap.notMem (by decide) g hopen
  have hopen := findFrom_of_drop hdrop (noStart_of_notMem hno [] _)
  have hinside := drop_add (drop_add hdrop)
  rw [harray, List.length_singleton] at hinside
  have hbalanced : Balanced .openBracket .closeBracket 3 (tokensOf names) := by
    refine balanced_of_notMem (fun hbracket => ?_) fun hbracket => ?_
    · obtain h | ⟨name, h⟩ := hnames _ hbracket <;> cases h
    · obtain h | ⟨name, h⟩ := hnames _ hbracket <;> cases h
  have hmatch := findMatchingBrace_of_drop bracketPair hbalanced hinside
  rw [← htext, rolesField, rolesArray, hfind, Option.bind_some, hopen]
  dsimp only
  rw [hmatch, Option.map_some, rolesLoop_print hnames hinside rfl]

/-- A rule object, with whitespace in front of it or not. -/
theorem parseRule_print (r : DocumentRule) {pieces : List Piece}
    (h : tokensOf pieces = r.tokens) : parseRule (print pieces) = some r.loaded := by
  rw [r.tokens_eq] at h
  obtain ⟨head, back, rfl, hhead, hback⟩ := tokensOf_eq_append h
  obtain ⟨g₀, head₀, rfl, hhead₀⟩ := tokensOf_eq_cons hhead
  obtain ⟨g₁, head₁, rfl, hhead₁⟩ := tokensOf_eq_cons hhead₀
  obtain ⟨g₂, head₂, rfl, hhead₂⟩ := tokensOf_eq_cons hhead₁
  obtain ⟨g₃, head₃, rfl, hhead₃⟩ := tokensOf_eq_cons hhead₂
  obtain ⟨g₄, head₄, rfl, hhead₄⟩ := tokensOf_eq_cons hhead₃
  obtain ⟨g₅, head₅, rfl, hhead₅⟩ := tokensOf_eq_cons hhead₄
  obtain ⟨g₆, head₆, rfl, hhead₆⟩ := tokensOf_eq_cons hhead₅
  obtain ⟨g₇, rfl⟩ := tokensOf_eq_singleton hhead₆
  obtain ⟨whole, hwhole⟩ : ∃ whole, whole = (g₀, Token.openBrace) :: (g₁, Token.str pathKey) ::
    (g₂, Token.colon) :: (g₃, Token.str r.path) :: (g₄, Token.comma) :: (g₅, Token.str typeKey) ::
    (g₆, Token.colon) :: (g₇, Token.str r.type) :: back := ⟨_, rfl⟩
  have hpath : stringField (print whole) (lit "path") = r.path.val := by
    rw [hwhole]
    exact stringField_print [(g₀, .openBrace)] pathKey (by decide)
      (by simp [tokensOf, List.isChain_cons_cons, Apart]) (by simp [tokensOf])
  have htype : stringField (print whole) (lit "type") =
      if r.path = typeKey then typeKey.val else r.type.val := by
    rw [hwhole]
    by_cases hsame : r.path = typeKey
    · -- the path is taken for the key, and the key for the type
      rw [if_pos hsame, hsame]
      exact stringField_print [(g₀, .openBrace), (g₁, .str pathKey), (g₂, .colon)] typeKey
        (by decide) (by simp [tokensOf, List.isChain_cons_cons, Apart])
        (by simp [tokensOf]; decide)
    · rw [if_neg hsame]
      exact stringField_print [(g₀, .openBrace), (g₁, .str pathKey), (g₂, .colon),
        (g₃, .str r.path), (g₄, .comma)] typeKey (by decide)
        (by simp [tokensOf, List.isChain_cons_cons, Apart])
        (by simp [tokensOf, Ne.symm hsame]; decide)
  have hroles : rolesField (print whole) = some (r.roles.map Subtype.val) := by
    rw [hwhole]
    by_cases hprints : r.printsRoles = true
    · rw [DocumentRule.rolesTokens, if_pos hprints, List.append_assoc] at hback
      obtain ⟨opening, array, rfl, hopening, harray⟩ := tokensOf_eq_append hback
      obtain ⟨g₈, opening₀, rfl, hopening₀⟩ := tokensOf_eq_cons hopening
      obtain ⟨g₉, opening₁, rfl, hopening₁⟩ := tokensOf_eq_cons hopening₀
      obtain ⟨g₁₀, opening₂, rfl, hopening₂⟩ := tokensOf_eq_cons hopening₁
      obtain ⟨g₁₁, rfl⟩ := tokensOf_eq_singleton hopening₂
      rw [List.append_assoc] at harray
      obtain ⟨names, closing, rfl, hnames, hclosing⟩ := tokensOf_eq_append harray
      obtain ⟨g₁₂, closing₀, rfl, -⟩ := tokensOf_eq_cons hclosing
      have hfront : rolesField (print _) = some ((tokensOf names).filterMap Token.name?) :=
        rolesField_print [(g₀, .openBrace), (g₁, .str pathKey), (g₂, .colon), (g₃, .str r.path),
          (g₄, .comma), (g₅, .str typeKey), (g₆, .colon), (g₇, .str r.type), (g₈, .comma),
          (g₉, .str rolesKey), (g₁₀, .colon)] g₁₁ g₁₂ closing₀
          (by simp [tokensOf, List.isChain_cons_cons, Apart]) (by simp [tokensOf])
          (by simp [tokensOf]) fun t ht => mem_separated_names (hnames ▸ ht)
      rw [hnames, filterMap_separated_names] at hfront
      exact hfront
    · have hnil : r.roles = [] := by
        by_contra hne
        exact hprints (r.printsRoles_of_ne hne)
      rw [DocumentRule.rolesTokens, if_neg hprints, List.nil_append] at hback
      obtain ⟨g₈, rfl⟩ := tokensOf_eq_singleton hback
      rw [rolesField_of_notMem (openBracket_notMem_print (by simp [tokensOf])), hnil]
      rfl
  have hrule : parseRule (print whole) = some r.loaded := by
    rw [parseRule, hpath, htype, hroles]
    rfl
  rw [hwhole] at hrule
  exact hrule

/-! ### The array of rules -/

variable {n : ℕ}

theorem balanced_brace_rolesTokens (r : DocumentRule) :
    Balanced .openBrace .closeBrace n r.rolesTokens :=
  balanced_of_notMem
    (notMem_rolesTokens (by decide) (fun _ => Token.noConfusion) (by decide) (by decide)
      (by decide) r)
    (notMem_rolesTokens (by decide) (fun _ => Token.noConfusion) (by decide) (by decide)
      (by decide) r)

/-- The rule's tokens between its braces. -/
def DocumentRule.inside (r : DocumentRule) : List Token :=
  [.str pathKey, .colon, .str r.path, .comma, .str typeKey, .colon, .str r.type] ++ r.rolesTokens

theorem DocumentRule.tokens_eq_inside (r : DocumentRule) :
    r.tokens = .openBrace :: (r.inside ++ [.closeBrace]) := by
  rw [r.tokens_eq, DocumentRule.inside, List.append_assoc]
  rfl

theorem balanced_brace_inside (r : DocumentRule) :
    Balanced .openBrace .closeBrace n r.inside := by
  have hfront : Balanced .openBrace .closeBrace n [Token.str pathKey, .colon, .str r.path, .comma,
      .str typeKey, .colon, .str r.type] := balanced_of_notMem (by simp) (by simp)
  exact hfront.append (balanced_brace_rolesTokens r)

theorem balanced_brace_rule (r : DocumentRule) :
    Balanced .openBrace .closeBrace (n + 1) r.tokens := by
  rw [r.tokens_eq_inside]
  exact .nest (balanced_brace_inside r) .nil

theorem balanced_bracket_rule (r : DocumentRule) :
    Balanced .openBracket .closeBracket (n + 1) r.tokens := by
  have hhead : Balanced .openBracket .closeBracket (n + 1) r.head :=
    balanced_of_notMem (by simp [DocumentRule.head]) (by simp [DocumentRule.head])
  have hend : Balanced .openBracket .closeBracket (n + 1) [.closeBrace] :=
    balanced_of_notMem (by simp) (by simp)
  have hroles : Balanced .openBracket .closeBracket (n + 1) r.rolesTokens := by
    unfold DocumentRule.rolesTokens
    split
    next =>
      have hnames : Balanced .openBracket .closeBracket n
          (separated (r.roles.map fun name => [.str name])) := by
        refine balanced_separated (by decide) (by decide) fun item hitem => ?_
        obtain ⟨name, -, rfl⟩ := List.mem_map.mp hitem
        exact balanced_of_notMem (by simp) (by simp)
      have hkey : Balanced .openBracket .closeBracket (n + 1)
          [Token.comma, .str rolesKey, .colon] :=
        balanced_of_notMem (by simp) (by simp)
      exact hkey.append (.nest hnames .nil)
    next => exact .nil
  rw [r.tokens_eq]
  exact hhead.append (hroles.append hend)

theorem rulesLoop_stop {bound : ℕ} (h : bound ≤ pos) : rulesLoop json bound pos = some [] := by
  rw [rulesLoop, if_neg (by omega)]

theorem skipComma_comma {gap : Gap} (h : json.drop pos = gap.val ++ comma :: rest) {limit : ℕ}
    (hlimit : pos + gap.val.length < limit) :
    skipComma json limit pos = pos + gap.val.length + 1 := by
  unfold skipComma
  dsimp only
  rw [skipWs_of_drop h (by decide), if_pos ⟨hlimit, getElem?_of_drop (drop_add h)⟩]

theorem skipComma_other {gap : Gap} {b : Byte} (h : json.drop pos = gap.val ++ b :: rest)
    (hspace : isspace b = false) (hcomma : b ≠ comma) (limit : ℕ) :
    skipComma json limit pos = pos + gap.val.length := by
  unfold skipComma
  dsimp only
  rw [skipWs_of_drop h hspace, if_neg]
  rintro ⟨-, hb⟩
  rw [getElem?_of_drop (drop_add h)] at hb
  exact hcomma (Option.some.inj hb)

/-- A rule object is read and passed. -/
theorem rulesLoop_object (r : DocumentRule) {object : List Piece}
    (hobject : tokensOf object = r.tokens) (hdrop : json.drop pos = print object ++ rest)
    {bound : ℕ} (hbound : pos + (print object).length ≤ bound) :
    rulesLoop json bound pos = (rulesLoop json bound (skipComma json bound
      (pos + (print object).length))).map (r.loaded :: ·) := by
  have hopen := hobject
  rw [r.tokens_eq_inside] at hopen
  obtain ⟨g, object₀, rfl, hobject₀⟩ := tokensOf_eq_cons hopen
  obtain ⟨inside, object₁, rfl, hinside, hobject₁⟩ := tokensOf_eq_append hobject₀
  obtain ⟨g', rfl⟩ := tokensOf_eq_singleton hobject₁
  -- the object without the whitespace and the brace in front of it
  obtain ⟨body, hbody⟩ : ∃ body, body = print inside ++ (g'.val ++ [closeBrace]) := ⟨_, rfl⟩
  have hprint : print ((g, .openBrace) :: (inside ++ [(g', .closeBrace)])) =
      g.val ++ openBrace :: body := by
    rw [hbody]
    simp [Token.text]
  have hbodyLength : body.length = (print inside).length + g'.val.length + 1 := by
    rw [hbody]
    simp
    omega
  rw [hprint, List.length_append, List.length_cons] at hbound ⊢
  rw [hprint, List.append_assoc, List.cons_append] at hdrop
  have hat := drop_add hdrop
  have hinner : json.drop (pos + g.val.length + 1) =
      print inside ++ (g'.val ++ closeBrace :: rest) := by
    rw [← List.drop_drop, hat, hbody]
    simp
  have hmatch : findMatchingBrace json (pos + g.val.length + 1) openBrace closeBrace =
      some (pos + g.val.length + body.length) := by
    rw [findMatchingBrace_of_drop bracePair (hinside ▸ balanced_brace_inside r) hinner,
      Option.some.injEq]
    omega
  have hstring : (json.drop (pos + g.val.length)).take
      (pos + g.val.length + body.length - (pos + g.val.length) + 1) =
        print ((⟨[], rfl⟩, .openBrace) :: (inside ++ [(g', .closeBrace)])) := by
    rw [hat, ← List.cons_append, List.take_left' (by simp), hbody]
    simp [Token.text]
  have hrule : parseRule (print ((⟨[], rfl⟩, .openBrace) :: (inside ++ [(g', .closeBrace)]))) =
      some r.loaded := parseRule_print r hobject
  have hloaded : r.loaded.path ≠ [] ∧ r.loaded.type ≠ [] := by
    refine ⟨r.path_ne_nil, ?_⟩
    show (if r.path = typeKey then typeKey.val else r.type.val) ≠ []
    split
    next => decide
    next => exact r.type_ne_nil
  have hpassed : pos + (g.val.length + (body.length + 1)) =
      pos + g.val.length + body.length + 1 := by omega
  rw [rulesLoop, if_pos (by omega)]
  dsimp only
  rw [skipWs_of_drop hdrop (by decide), getElem?_of_drop hat, if_neg (by simp; omega)]
  split
  next hnone => cases hmatch.symm.trans hnone
  next ruleEnd hend =>
    obtain rfl := Option.some.inj (hmatch.symm.trans hend)
    rw [hstring, hrule, Option.bind_some, hpassed]
    simp only [if_pos hloaded]

/-- The loop over the rules reads every rule object. -/
theorem rulesLoop_print (rules : List DocumentRule) {pieces : List Piece}
    (h : tokensOf pieces = separated (rules.map DocumentRule.tokens)) {gap : Gap}
    (hdrop : json.drop pos = print pieces ++ (gap.val ++ closeBracket :: rest)) {bound : ℕ}
    (hbound : bound = pos + (print pieces).length + gap.val.length) :
    rulesLoop json bound pos = some (rules.map DocumentRule.loaded) := by
  induction rules generalizing pieces pos with
  | nil =>
    obtain rfl : pieces = [] := List.map_eq_nil_iff.mp h
    rw [print_nil, List.nil_append] at hdrop
    have hend : bound = pos + gap.val.length := hbound
    rw [rulesLoop]
    split
    next =>
      rw [skipWs_of_drop hdrop (by decide), if_pos (.inl (by omega)), rulesLoop_stop (by omega)]
      rfl
    next => rfl
  | cons r rules ih =>
    cases rules with
    | nil =>
      have hobject : tokensOf pieces = r.tokens := h.trans (separated_singleton _)
      rw [rulesLoop_object r hobject hdrop (by omega),
        skipComma_other (drop_add hdrop) (by decide) (by decide), rulesLoop_stop (by omega)]
      rfl
    | cons next rules =>
      obtain ⟨object, behind, rfl, hobject, hbehind⟩ :=
        tokensOf_eq_append (h.trans (separated_cons_cons _ _ _))
      obtain ⟨g, others, rfl, hothers⟩ := tokensOf_eq_cons hbehind
      rw [print_append, List.append_assoc] at hdrop
      have hcomma := drop_add hdrop
      rw [print_cons, List.append_assoc] at hcomma
      dsimp only at hcomma
      have hlength : (print (object ++ (g, .comma) :: others)).length =
          (print object).length + (g.val.length + (1 + (print others).length)) := by
        rw [print_append, print_cons, List.length_append, List.length_append, List.length_append]
        rfl
      have hnext : json.drop (pos + (print object).length + g.val.length + 1) =
          print others ++ (gap.val ++ closeBracket :: rest) := by
        rw [← List.drop_drop, drop_add hcomma]
        rfl
      rw [rulesLoop_object r hobject hdrop (by omega), skipComma_comma hcomma (by omega),
        ih hothers hnext (by omega)]
      rfl

end OpenArangoDBCore.Maskings
