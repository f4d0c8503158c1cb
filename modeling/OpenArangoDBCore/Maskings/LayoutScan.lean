import OpenArangoDBCore.Lib.Delimited
import OpenArangoDBCore.Maskings.ConfigLayout

/-!
# Scanning a documented configuration

What the functions of the parser do at a token: whitespace is skipped, a name
is found where it is a token, and a brace finds its partner behind tokens that
are balanced.
-/

namespace OpenArangoDBCore.Maskings
open AttributeMasking TextSearch
variable {json rest : ByteString} {pos : ℕ}

/-! ### Bytes of the layout -/

theorem Gap.low {b : Byte} {gap : Gap} (h : b ∈ gap.val) : b.val ≤ 0x20 ∧ isspace b = true := by
  have hb := of_decide_eq_true (List.all_eq_true.mp gap.property b h)
  unfold isspace
  rw [decide_eq_true_eq]
  omega

theorem Gap.notMem {b : Byte} (h : 0x20 < b.val) (gap : Gap) : b ∉ gap.val := by
  intro hmem
  have hlow := (Gap.low hmem).1
  omega

theorem Name.notMem {b : Byte} (h : isNameByte b = false) (name : Name) : b ∉ name.val := by
  intro hmem
  have hb := List.all_eq_true.mp name.property b hmem
  rw [h] at hb
  cases hb

/-- A byte that is no name byte and no quote is in no string. -/
theorem notMem_quoted {b : Byte} (h : isNameByte b = false) (hquote : b ≠ quote) (name : Name) :
    b ∉ quoted name.val := by
  intro hmem
  rcases List.mem_cons.mp hmem with heq | hmem
  · exact hquote heq
  · rcases List.mem_append.mp hmem with hmem | hmem
    · exact Name.notMem h name hmem
    · exact hquote (List.mem_singleton.mp hmem)

theorem notMem_print {b : Byte} (h : 0x20 < b.val) {pieces : List Piece}
    (hpieces : ∀ t ∈ tokensOf pieces, b ∉ t.text) : b ∉ print pieces := by
  intro hmem
  obtain ⟨p, hp, hmem⟩ := List.mem_flatMap.mp hmem
  rcases List.mem_append.mp hmem with hmem | hmem
  · exact Gap.notMem h p.1 hmem
  · exact hpieces p.2 (List.mem_map_of_mem hp) hmem

def marks : List Token :=
  [.openBrace, .closeBrace, .openBracket, .closeBracket, .comma, .colon]

theorem mem_marks {t : Token} (h : ∀ name, t ≠ .str name) : t ∈ marks := by
  cases t with
  | str name => exact absurd rfl (h name)
  | openBrace => decide
  | closeBrace => decide
  | openBracket => decide
  | closeBracket => decide
  | comma => decide
  | colon => decide

theorem quote_notMem_mark : ∀ t ∈ marks, quote ∉ t.text := by decide

/-- A byte of punctuation is in the text of its own token only. -/
theorem eq_of_mem_text {b : Byte} (hname : isNameByte b = false) (hquote : b ≠ quote)
    {mark : Token} (hmarks : ∀ t ∈ marks, b ∈ t.text → t = mark) {t : Token} (h : b ∈ t.text) :
    t = mark := by
  refine hmarks t (mem_marks fun name => ?_) h
  rintro rfl
  exact notMem_quoted hname hquote name h

theorem openBrace_notMem_print {pieces : List Piece} (h : .openBrace ∉ tokensOf pieces) :
    openBrace ∉ print pieces := by
  refine notMem_print (by decide) fun t ht hmem => ?_
  have heq : t = .openBrace := eq_of_mem_text (by decide) (by decide) (by decide) hmem
  exact h (heq ▸ ht)

theorem openBracket_notMem_print {pieces : List Piece} (h : .openBracket ∉ tokensOf pieces) :
    openBracket ∉ print pieces := by
  refine notMem_print (by decide) fun t ht hmem => ?_
  have heq : t = .openBracket := eq_of_mem_text (by decide) (by decide) (by decide) hmem
  exact h (heq ▸ ht)

/-- Every token begins with a byte that is seen. -/
theorem text_eq_cons (t : Token) : ∃ b rest, t.text = b :: rest ∧ isspace b = false := by
  cases t <;> exact ⟨_, _, rfl, by decide⟩

/-! ### Reading at a position -/

theorem drop_add {front : ByteString} (h : json.drop pos = front ++ rest) :
    json.drop (pos + front.length) = rest := by
  rw [← List.drop_drop, h, List.drop_left]

theorem getElem?_of_drop {b : Byte} (h : json.drop pos = b :: rest) : json[pos]? = some b := by
  have hhead := congrArg List.head? h
  rwa [List.head?_drop] at hhead

theorem skipWs_of_drop {gap : Gap} {b : Byte} (h : json.drop pos = gap.val ++ b :: rest)
    (hb : isspace b = false) : skipWs json pos = pos + gap.val.length := by
  unfold skipWs
  rw [h, List.takeWhile_append_of_pos fun c hc => (Gap.low hc).2,
    List.takeWhile_cons_of_neg (by simp [hb]), List.append_nil]

theorem skipWs_token {gap : Gap} {t : Token} (h : json.drop pos = gap.val ++ (t.text ++ rest)) :
    skipWs json pos = pos + gap.val.length := by
  obtain ⟨b, text, htext, hb⟩ := text_eq_cons t
  rw [htext, List.cons_append] at h
  exact skipWs_of_drop h hb

theorem isNameByte_ne {b : Byte} (h : isNameByte b = true) : b ≠ quote ∧ b ≠ backslash := by
  refine ⟨?_, ?_⟩
  · intro hquote
    rw [hquote] at h
    exact absurd h (by decide)
  · intro hbackslash
    rw [hbackslash] at h
    exact absurd h (by decide)

theorem scanString_name (name : Name) (rest : ByteString) :
    scanString (name.val ++ quote :: rest) = (name.val, name.val.length + 1) := by
  obtain ⟨text, htext⟩ := name
  dsimp only
  induction text with
  | nil =>
    rw [List.nil_append, scanString.eq_def]
    rfl
  | cons b text ih =>
    rw [List.all_cons, Bool.and_eq_true] at htext
    obtain ⟨hquote, hbackslash⟩ := isNameByte_ne htext.1
    rw [List.cons_append, scanString.eq_def]
    dsimp only
    rw [if_neg hquote, if_neg hbackslash, ih htext.2]
    rfl

theorem extractString_of_drop {name : Name} (h : json.drop pos = name.val ++ quote :: rest) :
    extractString json pos = (name.val, pos + (name.val.length + 1)) := by
  rw [extractString, h, scanString_name]

theorem findFrom_of_drop {key front : ByteString} (h : json.drop pos = front ++ (key ++ rest))
    (hfront : NoStart key front (key ++ rest)) :
    findFrom key json pos = some (pos + front.length) := by
  rw [findFrom, h, hfront.find, find_here]
  rfl

theorem findFrom_none_of_notMem {b : Byte} (h : b ∉ json) (pos : ℕ) :
    findFrom [b] json pos = none := by
  have hdrop : b ∉ json.drop pos := fun hmem => h (List.mem_of_mem_drop hmem)
  rw [findFrom, find_none (List.cons_ne_nil b []) (noStart_of_notMem hdrop [] [])]
  rfl

/-! ### Names -/

/-- No two strings stand side by side. -/
def Apart (t t' : Token) : Prop := (∀ name, t ≠ .str name) ∨ ∀ name, t' ≠ .str name

/-- The text does not go on with a quote or a name. -/
def Separates (text : ByteString) : Prop := ∀ b ∈ text.head?, b ≠ quote ∧ isNameByte b = false

theorem separates_token {t : Token} (h : ∀ name, t ≠ .str name) (rest : ByteString) :
    Separates (t.text ++ rest) := by
  have hmarks : ∀ t ∈ marks, ∃ b, t.text = [b] ∧ b ≠ quote ∧ isNameByte b = false := by
    intro t ht
    simp only [marks, List.mem_cons, List.not_mem_nil, or_false] at ht
    rcases ht with rfl | rfl | rfl | rfl | rfl | rfl <;> exact ⟨_, rfl, by decide⟩
  obtain ⟨b, htext, hb⟩ := hmarks t (mem_marks h)
  intro c hc
  rw [htext] at hc
  obtain rfl := Option.some.inj hc
  exact hb

theorem separates_gap {gap : Gap} (h : Separates rest) : Separates (gap.val ++ rest) := by
  intro b hb
  cases hgap : gap.val with
  | nil =>
    rw [hgap] at hb
    exact h b hb
  | cons c text =>
    rw [hgap] at hb
    obtain rfl : c = b := Option.some.inj hb
    have hspace := of_decide_eq_true (List.all_eq_true.mp gap.property c (by simp [hgap]))
    constructor
    · rintro rfl
      exact absurd hspace (by decide)
    · unfold isNameByte
      rw [decide_eq_false_iff_not]
      omega

/-- A name is not found in another string. -/
theorem noStart_quoted {name other : Name} (hne : other ≠ name) {rest : ByteString}
    (hrest : Separates rest) : NoStart (quoted name.val) (quoted other.val) rest := by
  have hname : quote ∉ name.val := Name.notMem (by decide) name
  have hother : quote ∉ other.val := Name.notMem (by decide) other
  refine ⟨fun hprefix => ?_, noStart_append.mpr ⟨noStart_of_notMem hother _ _, ?_, trivial⟩⟩
  · have hwhole := (List.cons_prefix_cons.mp hprefix).2
    rw [List.append_assoc, List.singleton_append] at hwhole
    exact hne (Subtype.ext ((Delimited.delimited_prefix_iff hname hother).mp hwhole).1.symm)
  · intro hprefix
    have hbehind := (List.cons_prefix_cons.mp hprefix).2
    rw [List.nil_append] at hbehind
    cases hval : name.val with
    | nil =>
      rw [hval] at hbehind
      obtain ⟨more, rfl⟩ := hbehind
      exact (hrest quote rfl).1 rfl
    | cons b text =>
      rw [hval] at hbehind
      obtain ⟨more, rfl⟩ := hbehind
      have hb := List.all_eq_true.mp name.property b (by simp [hval])
      rw [(hrest b rfl).2] at hb
      cases hb

/-- The search for a name goes to the first token that is the name. -/
theorem noStart_print {name : Name} {pieces : List Piece}
    (happart : List.IsChain Apart (tokensOf pieces ++ [.str name]))
    (hmem : .str name ∉ tokensOf pieces) (gap : Gap) (rest : ByteString) :
    NoStart (quoted name.val) (print pieces ++ gap.val) (quoted name.val ++ rest) := by
  have hgap : ∀ gap : Gap, ∀ rest, NoStart (quoted name.val) gap.val rest := fun gap rest =>
    noStart_of_notMem (Gap.notMem (by decide) gap) _ rest
  induction pieces with
  | nil => exact hgap gap _
  | cons p pieces ih =>
    have htokens : tokensOf (p :: pieces) = p.2 :: tokensOf pieces := rfl
    rw [htokens] at happart hmem
    rw [List.cons_append, List.isChain_cons] at happart
    obtain ⟨hne, hrest⟩ := not_or.mp (mt List.mem_cons.mpr hmem)
    rw [print_cons, List.append_assoc, List.append_assoc, noStart_append, noStart_append]
    refine ⟨hgap p.1 _, ?_, ih happart.2 hrest⟩
    by_cases hstr : ∃ other, p.2 = .str other
    · obtain ⟨other, ht⟩ := hstr
      rw [ht]
      refine noStart_quoted (fun heq => hne (by rw [ht, heq])) ?_
      cases pieces with
      | nil =>
        have hnext := happart.1 (.str name) rfl
        rw [ht] at hnext
        rcases hnext with hfirst | hsecond
        · exact absurd rfl (hfirst other)
        · exact absurd rfl (hsecond name)
      | cons next pieces =>
        have hnext := happart.1 next.2 rfl
        rw [ht] at hnext
        have hsecond := hnext.resolve_left fun hfirst => absurd rfl (hfirst other)
        rw [print_cons, List.append_assoc, List.append_assoc, List.append_assoc]
        exact separates_gap (separates_token hsecond _)
    · have hmark : p.2 ∈ marks := mem_marks fun other ht => hstr ⟨other, ht⟩
      exact noStart_of_notMem (quote_notMem_mark _ hmark) _ _

/-! ### Braces and brackets -/

/-- Tokens in which every `left` has its `right`, nested so deep at most. -/
inductive Balanced (left right : Token) : ℕ → List Token → Prop where
  | nil {n : ℕ} : Balanced left right n []
  | other {n : ℕ} {t : Token} {tokens : List Token} (hleft : t ≠ left) (hright : t ≠ right)
      (h : Balanced left right n tokens) : Balanced left right n (t :: tokens)
  | nest {n : ℕ} {inner tokens : List Token} (hinner : Balanced left right n inner)
      (h : Balanced left right (n + 1) tokens) :
      Balanced left right (n + 1) (left :: (inner ++ right :: tokens))

variable {left right : Token} {n : ℕ}

theorem Balanced.append {tokens more : List Token} (h : Balanced left right n tokens)
    (hmore : Balanced left right n more) : Balanced left right n (tokens ++ more) := by
  induction h with
  | nil => exact hmore
  | other hleft hright _ ih => exact .other hleft hright (ih hmore)
  | nest hinner _ _ ih =>
    rw [List.cons_append, List.append_assoc, List.cons_append]
    exact .nest hinner (ih hmore)

theorem balanced_of_notMem {tokens : List Token} (hleft : left ∉ tokens) (hright : right ∉ tokens) :
    Balanced left right n tokens := by
  induction tokens with
  | nil => exact .nil
  | cons t tokens ih =>
    obtain ⟨hleft, hleftRest⟩ := not_or.mp (mt List.mem_cons.mpr hleft)
    obtain ⟨hright, hrightRest⟩ := not_or.mp (mt List.mem_cons.mpr hright)
    exact .other (Ne.symm hleft) (Ne.symm hright) (ih hleftRest hrightRest)

/-- Two bytes that `findMatchingBrace` is called with, as tokens. -/
structure Pair (left right : Token) (opening closing : Byte) : Prop where
  left_text : left.text = [opening]
  right_text : right.text = [closing]
  ne : opening ≠ closing
  opening_seen : 0x20 < opening.val ∧ opening ≠ quote
  closing_seen : 0x20 < closing.val ∧ closing ≠ quote
  other : ∀ t, t ≠ left → t ≠ right → (∃ name, t = .str name) ∨
    ∃ b, t.text = [b] ∧ b ≠ quote ∧ b ≠ opening ∧ b ≠ closing

theorem bracePair : Pair .openBrace .closeBrace openBrace closeBrace := by
  refine ⟨rfl, rfl, by decide, by decide, by decide, fun t hleft hright => ?_⟩
  cases t with
  | openBrace => exact absurd rfl hleft
  | closeBrace => exact absurd rfl hright
  | str name => exact .inl ⟨name, rfl⟩
  | openBracket => exact .inr ⟨_, rfl, by decide⟩
  | closeBracket => exact .inr ⟨_, rfl, by decide⟩
  | comma => exact .inr ⟨_, rfl, by decide⟩
  | colon => exact .inr ⟨_, rfl, by decide⟩

theorem bracketPair : Pair .openBracket .closeBracket openBracket closeBracket := by
  refine ⟨rfl, rfl, by decide, by decide, by decide, fun t hleft hright => ?_⟩
  cases t with
  | openBracket => exact absurd rfl hleft
  | closeBracket => exact absurd rfl hright
  | str name => exact .inl ⟨name, rfl⟩
  | openBrace => exact .inr ⟨_, rfl, by decide⟩
  | closeBrace => exact .inr ⟨_, rfl, by decide⟩
  | comma => exact .inr ⟨_, rfl, by decide⟩
  | colon => exact .inr ⟨_, rfl, by decide⟩

variable {opening closing : Byte}

theorem scanBraces_pass {b : Byte} (hquote : b ≠ quote) (hopening : b ≠ opening)
    (hclosing : b ≠ closing) (depth : ℕ) (rest : ByteString) :
    scanBraces opening closing false (depth + 1) (b :: rest) =
      (scanBraces opening closing false (depth + 1) rest).map (· + 1) := by
  rw [scanBraces.eq_def]
  dsimp only
  rw [if_neg hquote, if_neg hopening, Option.bind_some, if_neg hclosing,
    if_pos (Nat.succ_pos depth)]

/-- Steps over bytes that leave the depth as it is, one behind the other. -/
theorem map_add_add (passed : Option ℕ) (m n : ℕ) :
    (passed.map (· + n)).map (· + m) = passed.map (· + (m + n)) := by
  rw [Option.map_map]
  congr 1
  funext k
  simp only [Function.comp_apply]
  omega

theorem scanBraces_gap (hpair : Pair left right opening closing) (gap : Gap) (depth : ℕ)
    (rest : ByteString) : scanBraces opening closing false (depth + 1) (gap.val ++ rest) =
      (scanBraces opening closing false (depth + 1) rest).map (· + gap.val.length) := by
  obtain ⟨text, htext⟩ := gap
  dsimp only
  induction text with
  | nil => exact Option.map_id'.symm
  | cons b text ih =>
    have hmem : b ∈ (⟨b :: text, htext⟩ : Gap).val := List.mem_cons_self
    have hlow := (Gap.low hmem).1
    rw [List.all_cons, Bool.and_eq_true] at htext
    have hne : ∀ c : Byte, 0x20 < c.val → b ≠ c := by
      rintro c hc rfl
      omega
    rw [List.cons_append, scanBraces_pass (hne _ (by decide)) (hne _ hpair.opening_seen.1)
      (hne _ hpair.closing_seen.1), ih htext.2, map_add_add, List.length_cons, Nat.add_comm]

theorem scanBraces_inString (name : Name) (depth : ℕ) (rest : ByteString) :
    scanBraces opening closing true depth (name.val ++ quote :: rest) =
      (scanBraces opening closing false depth rest).map (· + (name.val.length + 1)) := by
  obtain ⟨text, htext⟩ := name
  dsimp only
  induction text with
  | nil =>
    rw [List.nil_append, scanBraces.eq_def]
    rfl
  | cons b text ih =>
    rw [List.all_cons, Bool.and_eq_true] at htext
    obtain ⟨hquote, hbackslash⟩ := isNameByte_ne htext.1
    rw [List.cons_append, scanBraces.eq_def]
    dsimp only
    rw [if_neg hquote, if_neg hbackslash, ih htext.2, map_add_add, List.length_cons,
      Nat.add_comm 1]

theorem scanBraces_quoted (name : Name) (depth : ℕ) (rest : ByteString) :
    scanBraces opening closing false depth (quoted name.val ++ rest) =
      (scanBraces opening closing false depth rest).map (· + (quoted name.val).length) := by
  have hsplit : quoted name.val ++ rest = quote :: (name.val ++ quote :: rest) := by simp [quoted]
  have hlength : (quoted name.val).length = 1 + (name.val.length + 1) := by
    simp [quoted]
    omega
  rw [hsplit, scanBraces.eq_def]
  dsimp only
  rw [if_pos rfl, scanBraces_inString, map_add_add, hlength]

theorem scanBraces_other (hpair : Pair left right opening closing) {t : Token} (hleft : t ≠ left)
    (hright : t ≠ right) (depth : ℕ) (rest : ByteString) :
    scanBraces opening closing false (depth + 1) (t.text ++ rest) =
      (scanBraces opening closing false (depth + 1) rest).map (· + t.text.length) := by
  obtain ⟨name, rfl⟩ | ⟨b, htext, hquote, hopening, hclosing⟩ := hpair.other t hleft hright
  · exact scanBraces_quoted name (depth + 1) rest
  · rw [htext, List.singleton_append, scanBraces_pass hquote hopening hclosing]
    rfl

theorem scanBraces_left (hpair : Pair left right opening closing) {depth : ℕ}
    (hdepth : depth + 2 < 2 ^ 31) (rest : ByteString) :
    scanBraces opening closing false (depth + 1) (opening :: rest) =
      (scanBraces opening closing false (depth + 2) rest).map (· + 1) := by
  rw [scanBraces.eq_def]
  dsimp only
  rw [if_neg hpair.opening_seen.2, if_pos rfl, increment, if_pos hdepth, Option.bind_some,
    if_neg hpair.ne, if_pos (Nat.succ_pos _)]

theorem scanBraces_right (hpair : Pair left right opening closing) (depth : ℕ)
    (rest : ByteString) : scanBraces opening closing false (depth + 2) (closing :: rest) =
      (scanBraces opening closing false (depth + 1) rest).map (· + 1) := by
  rw [scanBraces.eq_def]
  dsimp only
  rw [if_neg hpair.closing_seen.2, if_neg (Ne.symm hpair.ne), Option.bind_some, if_pos rfl]
  exact if_pos (Nat.succ_pos depth)

theorem scanBraces_last (hpair : Pair left right opening closing) (rest : ByteString) :
    scanBraces opening closing false 1 (closing :: rest) = some 0 := by
  rw [scanBraces.eq_def]
  dsimp only
  rw [if_neg hpair.closing_seen.2, if_neg (Ne.symm hpair.ne), Option.bind_some, if_pos rfl]
  exact if_neg (lt_irrefl 0)

/-- Balanced tokens leave the depth as it is. -/
theorem scanBraces_balanced (hpair : Pair left right opening closing) {tokens : List Token}
    (h : Balanced left right n tokens) {pieces : List Piece} (hpieces : tokensOf pieces = tokens)
    {depth : ℕ} (hdepth : depth + 1 + n < 2 ^ 31) (rest : ByteString) :
    scanBraces opening closing false (depth + 1) (print pieces ++ rest) =
      (scanBraces opening closing false (depth + 1) rest).map (· + (print pieces).length) := by
  induction h generalizing pieces depth rest with
  | nil =>
    obtain rfl := List.map_eq_nil_iff.mp hpieces
    exact Option.map_id'.symm
  | other hleft hright _ ih =>
    obtain ⟨p, others, rfl, rfl, hothers⟩ := List.map_eq_cons_iff.mp hpieces
    rw [print_cons, List.append_assoc, List.append_assoc, scanBraces_gap hpair,
      scanBraces_other hpair hleft hright, ih hothers hdepth, map_add_add, map_add_add,
      List.length_append, List.length_append, Nat.add_assoc]
  | nest _ _ ihinner ih =>
    obtain ⟨p, others, rfl, hp, hothers⟩ := List.map_eq_cons_iff.mp hpieces
    obtain ⟨inside, behind, rfl, hinside, hbehind⟩ := List.map_eq_append_iff.mp hothers
    obtain ⟨p', later, rfl, hp', hlater⟩ := List.map_eq_cons_iff.mp hbehind
    rw [print_cons, print_append, print_cons, hp, hp', hpair.left_text, hpair.right_text]
    simp only [List.append_assoc, List.cons_append, List.nil_append]
    rw [scanBraces_gap hpair, scanBraces_left hpair (by omega), ihinner hinside (by omega),
      scanBraces_gap hpair, scanBraces_right hpair, ih hlater hdepth]
    simp only [map_add_add, List.length_append, List.length_cons]
    congr 2
    funext k
    omega

/-- The partner of a brace is the one behind the balanced tokens. -/
theorem findMatchingBrace_of_drop (hpair : Pair left right opening closing) {pieces : List Piece}
    (h : Balanced left right 3 (tokensOf pieces)) {gap : Gap}
    (hdrop : json.drop pos = print pieces ++ (gap.val ++ closing :: rest)) :
    findMatchingBrace json pos opening closing =
      some (pos + (print pieces).length + gap.val.length) := by
  rw [findMatchingBrace, hdrop, scanBraces_balanced hpair h rfl (by decide), scanBraces_gap hpair,
    scanBraces_last hpair]
  simp only [Option.map_some, Option.some.injEq]
  omega

end OpenArangoDBCore.Maskings
