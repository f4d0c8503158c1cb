import OpenArangoDBCore.Lib.JsonValue
import OpenArangoDBCore.Lib.Records

/-!
# Several strings on a line

Strings printed as they are between quotation marks, side by side. A backslash
at the end of one lets it go on up to the next one, so a string that is read can
be longer than all that are printed. Where a backslash weighs as much as the
separator and a quotation mark, and one more, it is lighter than one of them.
-/

namespace OpenArangoDBCore.Json

/-! ### Weights -/

def octetWeight (b : Octet) : ℕ := if b = backslash then 4 else 1

def weight (text : Text) : ℕ := (text.map octetWeight).sum

theorem octetWeight_pos (b : Octet) : 0 < octetWeight b := by
  unfold octetWeight
  split <;> omega

theorem octetWeight_le (b : Octet) : octetWeight b ≤ 4 := by
  unfold octetWeight
  split <;> omega

theorem weight_append (text more : Text) : weight (text ++ more) = weight text + weight more := by
  rw [weight, List.map_append, List.sum_append]
  rfl

theorem weight_singleton (b : Octet) : weight [b] = octetWeight b := by
  rw [weight, List.map_singleton, List.sum_singleton]

theorem weight_cons (b : Octet) (text : Text) :
    weight (b :: text) = octetWeight b + weight text := by
  rw [weight, List.map_cons, List.sum_cons]
  rfl

theorem octetWeight_continuation (n : ℕ) : octetWeight (octet (0x80 + n % 64)) = 1 := by
  refine if_neg fun heq => ?_
  have hval : (0x80 + n % 64) % 256 = 0x5C := congrArg Fin.val heq
  omega

theorem weight_utf8 (code : ℕ) : weight (utf8 code) ≤ 7 := by
  unfold utf8
  split
  · have hle := octetWeight_le (octet code)
    rw [weight_singleton]
    omega
  · split
    · have hle := octetWeight_le (octet (0xC0 + code / 64))
      rw [weight_cons, weight_singleton, octetWeight_continuation]
      omega
    · split
      · have hle := octetWeight_le (octet (0xE0 + code / 4096))
        rw [weight_cons, weight_cons, weight_singleton, octetWeight_continuation,
          octetWeight_continuation]
        omega
      · have hle := octetWeight_le (octet (0xF0 + code / 262144))
        rw [weight_cons, weight_cons, weight_cons, weight_singleton, octetWeight_continuation,
          octetWeight_continuation, octetWeight_continuation]
        omega

theorem octetWeight_simpleEscape {b c : Octet} (h : simpleEscape b = some c) :
    octetWeight c ≤ octetWeight b := by
  unfold simpleEscape at h
  split_ifs at h <;> cases h
  · exact le_rfl
  all_goals exact octetWeight_pos b

/-! ### What is collected from a part of a field -/

/-- It comes from an escape, and there is less of it. -/
def Reduces (field text : Text) : Prop := backslash ∈ field ∧ weight text < weight field

def Collects (front : Text) : Scan → Prop
  | .between => True
  | .bare _ => True
  | .quoted text => weight text ≤ weight front ∧ (Plain text ∨ Reduces front text)
  | .escaped text => backslash ∈ front ∧ weight text + 4 ≤ weight front
  | .hex text _ digits => backslash ∈ front ∧ weight text + digits.length + 5 ≤ weight front
  | .surrogate text _ => backslash ∈ front ∧ weight text + 5 ≤ weight front
  | .surrogateEscape text _ => backslash ∈ front ∧ weight text + 5 ≤ weight front

def Keeps (field : Text) (tokens : List Token) : Prop :=
  ∀ text, .str text ∈ tokens → Plain text ∨ Reduces field text

theorem keeps_nil (field : Text) : Keeps field [] := fun _ h => absurd h List.not_mem_nil

theorem Keeps.append {field : Text} {tokens more : List Token} (h : Keeps field tokens)
    (hmore : Keeps field more) : Keeps field (tokens ++ more) := by
  intro text hmem
  rcases List.mem_append.mp hmem with hmem | hmem
  · exact h text hmem
  · exact hmore text hmem

theorem Reduces.extend {front text : Text} (h : Reduces front text) (more : Text) :
    Reduces (front ++ more) text := by
  refine ⟨List.mem_append_left more h.1, ?_⟩
  rw [weight_append]
  exact Nat.lt_add_right _ h.2

theorem Keeps.extend {front : Text} {tokens : List Token} (h : Keeps front tokens) (more : Text) :
    Keeps (front ++ more) tokens :=
  fun text hmem => (h text hmem).imp id fun hreduces => hreduces.extend more

theorem Starts.collects {q : Scan} (h : Starts q) (front : Text) : Collects front q := by
  cases h with
  | between => trivial
  | bare text => trivial
  | quoted => exact ⟨Nat.zero_le _, .inl (List.forall_mem_nil _)⟩

theorem keeps_of_none {tokens : List Token} (h : ∀ text, .str text ∉ tokens) (field : Text) :
    Keeps field tokens := fun text hmem => absurd hmem (h text)

theorem collects_quoted {front text : Text} (h : backslash ∈ front)
    (hlt : weight text < weight front) : Collects front (.quoted text) :=
  ⟨hlt.le, .inr ⟨h, hlt⟩⟩

theorem unicodeEscape_collects {front text : Text} {high : Option ℕ} {code : ℕ} {q : Scan}
    (h : backslash ∈ front) (hfull : weight text + 8 ≤ weight front)
    (hq : unicodeEscape text high code = some q) : Collects front q := by
  obtain ⟨-, rfl⟩ | ⟨code', rfl⟩ := unicodeEscape_cases hq
  · exact ⟨h, by omega⟩
  · have hle := weight_utf8 code'
    refine collects_quoted h ?_
    rw [weight_append]
    omega

theorem step_collects {front : Text} {q : Scan} (hq : Collects front q) {b : Octet}
    {r : List Token × Scan} (h : step q b = some r) :
    Collects (front ++ [b]) r.2 ∧ Keeps (front ++ [b]) r.1 := by
  have hpos := octetWeight_pos b
  have hweight : weight (front ++ [b]) = weight front + octetWeight b := by
    rw [weight_append, weight_singleton]
  cases q with
  | between =>
    obtain ⟨hstarts, hnone⟩ := stepBetween_cases h
    exact ⟨hstarts.collects _, keeps_of_none hnone _⟩
  | bare text =>
    obtain ⟨hstarts, hnone⟩ := step_bare_cases h
    exact ⟨hstarts.collects _, keeps_of_none hnone _⟩
  | quoted text =>
    obtain ⟨hle, hkept⟩ := hq
    obtain ⟨-, rfl⟩ | ⟨rfl, rfl⟩ | ⟨hb, rfl⟩ := step_quoted_cases h
    · refine ⟨trivial, fun other hmem => ?_⟩
      obtain rfl := Token.str.inj (List.mem_singleton.mp hmem)
      exact hkept.imp id fun hreduces => hreduces.extend [b]
    · have hfour : octetWeight backslash = 4 := if_pos rfl
      exact ⟨⟨List.mem_append_right front List.mem_cons_self, by omega⟩, keeps_nil _⟩
    · have hone : octetWeight b = 1 := if_neg hb.2.1
      have hnext : weight (text ++ [b]) = weight text + 1 := by
        rw [weight_append, weight_singleton, hone]
      refine ⟨⟨by omega, hkept.imp (fun hplain => hplain.snoc hb) fun hreduces => ?_⟩, keeps_nil _⟩
      have hlt := hreduces.2
      exact ⟨List.mem_append_left [b] hreduces.1, by omega⟩
  | escaped text =>
    have hmem := List.mem_append_left [b] hq.1
    have hle := hq.2
    obtain rfl | ⟨c, hc, rfl⟩ := step_escaped_cases h
    · exact ⟨⟨hmem, by rw [List.length_nil]; omega⟩, keeps_nil _⟩
    · have hescape := octetWeight_simpleEscape hc
      refine ⟨collects_quoted hmem ?_, keeps_nil _⟩
      rw [weight_append, weight_singleton]
      omega
  | hex text high digits =>
    have hmem := List.mem_append_left [b] hq.1
    have hle := hq.2
    obtain ⟨d, rfl⟩ | ⟨hfull, code, q, hescape, rfl⟩ := step_hex_cases h
    · refine ⟨⟨hmem, ?_⟩, keeps_nil _⟩
      rw [List.length_append, List.length_singleton]
      omega
    · exact ⟨unicodeEscape_collects hmem (by omega) hescape, keeps_nil _⟩
  | surrogate text high =>
    obtain rfl := step_surrogate_eq h
    have hle := hq.2
    exact ⟨⟨List.mem_append_left [b] hq.1, by omega⟩, keeps_nil _⟩
  | surrogateEscape text high =>
    obtain rfl := step_surrogateEscape_eq h
    have hle := hq.2
    exact ⟨⟨List.mem_append_left [b] hq.1, by rw [List.length_nil]; omega⟩, keeps_nil _⟩

theorem run_collects {front piece : Text} {q : Scan} (hq : Collects front q) {tokens : List Token}
    {q' : Scan} (h : run q piece = some (tokens, q')) :
    Collects (front ++ piece) q' ∧ Keeps (front ++ piece) tokens := by
  induction piece generalizing front q tokens with
  | nil =>
    cases h
    rw [List.append_nil]
    exact ⟨hq, keeps_nil _⟩
  | cons b piece ih =>
    obtain ⟨first, middle, rest, hstep, hrun, rfl⟩ := (bind_append_iff fun q => run q piece).mp h
    obtain ⟨hmiddle, hfirst⟩ := step_collects hq hstep
    obtain ⟨hlast, hrest⟩ := ih hmiddle hrun
    rw [List.append_assoc, List.singleton_append] at hlast hrest
    refine ⟨hlast, Keeps.append ?_ hrest⟩
    have hextend := hfirst.extend piece
    rwa [List.append_assoc, List.singleton_append] at hextend

/-! ### The end of a field -/

/-- No string goes on with it. -/
def Unquotable (closing : Text) : Prop := ∀ text, run (.quoted text) closing = none

theorem collects_start : Collects [] (.quoted []) := ⟨le_rfl, .inl (List.forall_mem_nil _)⟩

theorem run_to_closing {q q' : Scan} (hq : Collects [] q) {field closing : Text}
    (hclosing : Unquotable closing) {tokens : List Token}
    (h : run q (field ++ quote :: closing) = some (tokens, q')) :
    ∃ first later, run .between closing = some (later, q') ∧ tokens = first ++ later ∧
      Keeps field first := by
  obtain ⟨inside, middle, outside, hinside, houtside, rfl⟩ := run_append_iff.mp h
  have hsome : run middle (quote :: closing) ≠ none := by
    rw [houtside]
    exact Option.some_ne_none _
  obtain ⟨last, rfl⟩ := quoted_of_run hclosing hsome
  rw [run_close] at houtside
  obtain ⟨⟨later, q⟩, hlater, heq⟩ := Option.map_eq_some_iff.mp houtside
  obtain ⟨rfl, rfl⟩ := Prod.mk.inj heq
  obtain ⟨hlast, hinside⟩ := run_collects hq hinside
  refine ⟨inside ++ [.str last], later, hlater, by simp, hinside.append fun text hmem => ?_⟩
  obtain rfl := Token.str.inj (List.mem_singleton.mp hmem)
  exact hlast.2

def separator : Text := [chr ',', chr ' ']

/-- In front of a quotation mark: between tokens or in a string that it ends. -/
inductive Awaits (P : Text → Prop) : Scan → Prop where
  | opening : Awaits P .between
  | closing {text : Text} (h : P text) : Awaits P (.quoted text)

/-- A backslash at the end of the field takes the quotation mark and the separator in. -/
theorem run_to_separator {q q' : Scan} (hq : Collects [] q) {field : Text} {tokens : List Token}
    (h : run q (field ++ quote :: separator) = some (tokens, q')) :
    Awaits (fun text => Plain text ∨ Reduces field text) q' ∧ Keeps field tokens := by
  obtain ⟨inside, middle, outside, hinside, houtside, rfl⟩ := run_append_iff.mp h
  obtain ⟨hmiddle, hkeeps⟩ := run_collects hq hinside
  rw [List.nil_append] at hmiddle hkeeps
  have hspan : Plain separator := by decide
  cases middle with
  | between =>
    cases houtside
    exact ⟨.closing (.inl hspan), hkeeps.append (keeps_nil _)⟩
  | bare text =>
    cases htoken : bareToken text with
    | none =>
      have hnone : run (.bare text) (quote :: separator) = none := by
        rw [run, step, if_pos (.inr (.inl rfl)), htoken]
        rfl
      rw [hnone] at houtside
      cases houtside
    | some token =>
      rw [run_bare_end htoken (.inr (.inl rfl))] at houtside
      cases houtside
      refine ⟨.closing (.inl hspan), hkeeps.append fun text hmem => ?_⟩
      exact absurd (List.mem_singleton.mp hmem).symm (bareToken_ne_str htoken text)
  | quoted text =>
    rw [run_close] at houtside
    cases houtside
    refine ⟨.opening, hkeeps.append fun other hmem => ?_⟩
    rcases List.mem_cons.mp hmem with heq | hmem
    · obtain rfl := Token.str.inj heq
      exact hmiddle.2
    · cases List.mem_singleton.mp hmem
  | escaped text =>
    cases houtside
    refine ⟨.closing (.inr ⟨hmiddle.1, ?_⟩), hkeeps.append (keeps_nil _)⟩
    have hthree : weight [quote] + weight [chr ','] + weight [chr ' '] = 3 := by decide
    have hle := hmiddle.2
    rw [weight_append, weight_append, weight_append]
    omega
  | hex text high digits => cases houtside
  | surrogate text high => cases houtside
  | surrogateEscape text high => cases houtside

/-! ### Fields and rows of fields -/

/-- A string that can come back from these fields. -/
def Returned (fields : List Text) (text : Text) : Prop :=
  Plain text ∨ ∃ field ∈ fields, Reduces field text

/-- The heaviest of the fields that are not plain does not come back. -/
theorem plain_of_returned {fields : List Text} (h : ∀ field ∈ fields, Returned fields field) :
    ∀ field ∈ fields, Plain field := by
  refine plain_of_larger weight fun field hfield => (h field hfield).imp id ?_
  rintro ⟨heavier, hheavier, hbackslash, hlt⟩
  exact ⟨heavier, hheavier, fun hplain => (hplain backslash hbackslash).2.1 rfl, hlt⟩

theorem Keeps.returned {fields : List Text} {field : Text} {tokens : List Token}
    (h : Keeps field tokens) (hfield : field ∈ fields) :
    ∀ text, .str text ∈ tokens → Returned fields text :=
  fun text hmem => (h text hmem).imp id fun hreduces => ⟨field, hfield, hreduces⟩

/-- The fields in quotation marks with separators between them, and what follows. -/
def row : List Text → Text → Text
  | [], closing => closing
  | [field], closing => quote :: (field ++ quote :: closing)
  | field :: fields, closing => quote :: (field ++ quote :: (separator ++ row fields closing))

section Reading
variable {fields : List Text} {opening closing : Text} {before after : List Token}

theorem reads_plain {tokens : List Token} {piece : Text} (h : Lexes tokens piece)
    (hplain : tokens.all Token.isPlain) : Reads (Returned fields) piece :=
  h.reads fun text hmem => .inl (plain_of_mem hplain text hmem)

theorem reads_member (hopening : run .between opening = some (before, .quoted []))
    (hclosing : Lexes after closing) (hends : Unquotable closing)
    (hbefore : before.all Token.isPlain) (hafter : after.all Token.isPlain) {field : Text}
    (hfield : field ∈ fields) :
    Reads (Returned fields) (opening ++ (field ++ quote :: closing)) := by
  intro tokens q hrun
  obtain ⟨first, middle, rest, hfirst, hrest, rfl⟩ := run_append_iff.mp hrun
  obtain ⟨rfl, rfl⟩ := Prod.mk.inj (Option.some.inj (hopening.symm.trans hfirst))
  obtain ⟨inside, later, hlater, rfl, hkeeps⟩ := run_to_closing collects_start hends hrest
  obtain ⟨rfl, rfl⟩ := Prod.mk.inj (Option.some.inj (hclosing.symm.trans hlater))
  refine ⟨rfl, fun text hmem => ?_⟩
  rcases List.mem_append.mp hmem with hmem | hmem
  · exact .inl (plain_of_mem hbefore text hmem)
  · rcases List.mem_append.mp hmem with hmem | hmem
    · exact hkeeps.returned hfield text hmem
    · exact .inl (plain_of_mem hafter text hmem)

/-- The quotation mark in front of a field begins a string or ends one. -/
theorem Awaits.run_quote {P : Text → Prop} {q q' : Scan} (h : Awaits P q) {rest : Text}
    {tokens : List Token} (hrun : run q (quote :: rest) = some (tokens, q')) :
    ∃ start first later, Collects [] start ∧ run start rest = some (later, q') ∧
      tokens = first ++ later ∧ ∀ text, .str text ∈ first → P text := by
  cases h with
  | opening =>
    refine ⟨.quoted [], [], tokens, collects_start, ?_, rfl, fun _ hmem => absurd hmem
      List.not_mem_nil⟩
    obtain ⟨first, middle, later, hstep, hlater, rfl⟩ :=
      (bind_append_iff fun q => run q rest).mp hrun
    cases hstep
    exact hlater
  | @closing text h =>
    rw [run_close] at hrun
    obtain ⟨⟨later, q⟩, hlater, heq⟩ := Option.map_eq_some_iff.mp hrun
    obtain ⟨rfl, rfl⟩ := Prod.mk.inj heq
    refine ⟨.between, [.str text], later, trivial, hlater, rfl, fun other hmem => ?_⟩
    obtain rfl := Token.str.inj (List.mem_singleton.mp hmem)
    exact h

theorem run_row (hclosing : Lexes after closing) (hends : Unquotable closing)
    (hafter : after.all Token.isPlain) {names : List Text} (hne : names ≠ [])
    (hnames : ∀ name ∈ names, name ∈ fields) {q q' : Scan} (hq : Awaits (Returned fields) q)
    {tokens : List Token} (h : run q (row names closing) = some (tokens, q')) :
    q' = .between ∧ ∀ text, .str text ∈ tokens → Returned fields text := by
  induction names generalizing q tokens with
  | nil => exact absurd rfl hne
  | cons name names ih =>
    obtain ⟨hname, hrest⟩ := List.forall_mem_cons.mp hnames
    cases names with
    | nil =>
      obtain ⟨start, first, later, hstart, hlater, rfl, hfirst⟩ := hq.run_quote h
      obtain ⟨inside, last, hlast, rfl, hkeeps⟩ := run_to_closing hstart hends hlater
      obtain ⟨rfl, rfl⟩ := Prod.mk.inj (Option.some.inj (hclosing.symm.trans hlast))
      refine ⟨rfl, fun text hmem => ?_⟩
      rcases List.mem_append.mp hmem with hmem | hmem
      · exact hfirst text hmem
      · rcases List.mem_append.mp hmem with hmem | hmem
        · exact hkeeps.returned hname text hmem
        · exact .inl (plain_of_mem hafter text hmem)
    | cons second names =>
      obtain ⟨start, first, later, hstart, hlater, rfl, hfirst⟩ := hq.run_quote h
      rw [← List.cons_append, ← List.append_assoc] at hlater
      obtain ⟨inside, middle, others, hinside, hothers, rfl⟩ := run_append_iff.mp hlater
      obtain ⟨hmiddle, hkeeps⟩ := run_to_separator hstart hinside
      have hawaits : Awaits (Returned fields) middle := by
        cases hmiddle with
        | opening => exact .opening
        | closing h => exact .closing (h.imp id fun hreduces => ⟨name, hname, hreduces⟩)
      obtain ⟨hbetween, hstrings⟩ := ih (List.cons_ne_nil _ _) hrest hawaits hothers
      refine ⟨hbetween, fun text hmem => ?_⟩
      rcases List.mem_append.mp hmem with hmem | hmem
      · exact hfirst text hmem
      · rcases List.mem_append.mp hmem with hmem | hmem
        · exact hkeeps.returned hname text hmem
        · exact hstrings text hmem

theorem reads_row (hopening : Lexes before opening) (hclosing : Lexes after closing)
    (hends : Unquotable closing) (hbefore : before.all Token.isPlain)
    (hafter : after.all Token.isPlain) {names : List Text}
    (hnames : ∀ name ∈ names, name ∈ fields) :
    Reads (Returned fields) (opening ++ row names closing) := by
  refine (reads_plain hopening hbefore).append ?_
  cases names with
  | nil => exact reads_plain hclosing hafter
  | cons name names =>
    intro tokens q hrun
    exact run_row hclosing hends hafter (List.cons_ne_nil _ _) hnames .opening hrun

end Reading

theorem row_eq_intercalate (names : List Text) (closing : Text) :
    row names closing =
      separator.intercalate (names.map fun name => quote :: name ++ [quote]) ++ closing := by
  fun_induction row names closing with
  | case1 closing => rfl
  | case2 name closing => simp
  | case3 name names closing hne ih =>
    obtain ⟨second, names, rfl⟩ := List.exists_cons_of_ne_nil hne
    rw [ih, List.map_cons (l := second :: names), List.map_cons, List.intercalate_cons_cons]
    simp

theorem row_append (names : List Text) (closing rest : Text) :
    row names closing ++ rest = row names (closing ++ rest) := by
  rw [row_eq_intercalate, row_eq_intercalate, List.append_assoc]

def rowTokens : List Text → List Token → List Token
  | [], after => after
  | [name], after => .str name :: after
  | name :: names, after => .str name :: .comma :: rowTokens names after

theorem lexes_row {closing : Text} {after : List Token} (hclosing : Lexes after closing)
    {names : List Text} (h : ∀ name ∈ names, Plain name) :
    Lexes (rowTokens names after) (row names closing) := by
  have hopening : run .between [quote] = some ([], .quoted []) := rfl
  fun_induction row names closing with
  | case1 closing => exact hclosing
  | case2 name closing =>
    exact lexes_field hopening hclosing (h name List.mem_cons_self)
  | case3 name names closing hne ih =>
    obtain ⟨second, names, rfl⟩ := List.exists_cons_of_ne_nil hne
    obtain ⟨hname, hnames⟩ := List.forall_mem_cons.mp h
    have hcomma : Lexes [.comma] separator := by decide
    exact lexes_field hopening (hcomma.append (ih hclosing hnames)) hname

theorem wellFormed_row (names : List Text) {closing : Text} :
    wellFormed (row names closing) = (names.all wellFormed && wellFormed closing) := by
  have hfield : ∀ name rest, wellFormed (quote :: (name ++ quote :: rest)) =
      (wellFormed name && wellFormed rest) := by
    intro name rest
    have hquote : ([quote] : Text).all isAscii := by decide
    have hopen := wellFormed_ascii_append hquote (name ++ quote :: rest)
    have hclose := wellFormed_ascii_append hquote rest
    rw [List.singleton_append] at hopen hclose
    rw [hopen, wellFormed_append (by decide), hclose]
  fun_induction row names closing with
  | case1 closing => rfl
  | case2 name closing => rw [hfield, List.all_cons, List.all_nil, Bool.and_true]
  | case3 name names closing hne ih =>
    rw [hfield, wellFormed_ascii_append (by decide), ih, List.all_cons, Bool.and_assoc]

theorem parse_row_items {names : List Text} (hne : names ≠ []) (rest : List Token)
    (items : List Json) (frames : List Frame) :
    (rowTokens names (Token.closeBracket :: rest)).foldlM parseToken
      (.value (.arr items :: frames)) =
        rest.foldlM parseToken (place (.arr (items ++ names.map Json.str)) frames) := by
  induction names generalizing items with
  | nil => exact absurd rfl hne
  | cons name names ih =>
    cases names with
    | nil => rfl
    | cons second names =>
      have hnext := ih (List.cons_ne_nil _ _) (items ++ [Json.str name])
      rw [List.append_assoc, List.singleton_append, ← List.map_cons] at hnext
      exact hnext

theorem parse_row (names : List Text) (rest : List Token) (frames : List Frame) :
    (rowTokens names (Token.closeBracket :: rest)).foldlM parseToken (.firstItem frames) =
      rest.foldlM parseToken (place (.arr (names.map Json.str)) frames) := by
  cases names with
  | nil => rfl
  | cons name names =>
    have hrow := parse_row_items (List.cons_ne_nil name names) rest [] frames
    cases names with
    | nil => exact hrow
    | cons second names => exact hrow

/-! ### Values side by side -/

section Items
variable {α : Type} {piece : α → Text} {tokens : α → List Token} {value : α → Json}

def itemsTokens (tokens : α → List Token) : List α → List Token
  | [] => []
  | x :: xs => tokens x ++ xs.flatMap fun x => [Token.comma] ++ tokens x

theorem intercalate_items (x : α) (xs : List α) : separator.intercalate ((x :: xs).map piece) =
    piece x ++ xs.flatMap fun x => separator ++ piece x := by
  rw [List.map_cons, Records.intercalate_cons_eq_flatMap, List.flatMap_map]

theorem lexes_items {xs : List α} (h : ∀ x ∈ xs, Lexes (tokens x) (piece x)) :
    Lexes (itemsTokens tokens xs) (separator.intercalate (xs.map piece)) := by
  have hcomma : Lexes [Token.comma] separator := by decide
  cases xs with
  | nil => exact lexes_nil
  | cons x xs =>
    obtain ⟨hx, hxs⟩ := List.forall_mem_cons.mp h
    rw [intercalate_items]
    exact hx.append (Lexes.flatMap fun other hother => hcomma.append (hxs other hother))

theorem reads_items {P : Text → Prop} {xs : List α} (h : ∀ x ∈ xs, Reads P (piece x)) :
    Reads P (separator.intercalate (xs.map piece)) := by
  have hcomma : Lexes [Token.comma] separator := by decide
  have hseparator : Reads P separator :=
    hcomma.reads fun text hmem => absurd (List.mem_singleton.mp hmem) nofun
  cases xs with
  | nil => exact lexes_nil.reads fun text hmem => absurd hmem List.not_mem_nil
  | cons x xs =>
    obtain ⟨hx, hxs⟩ := List.forall_mem_cons.mp h
    rw [intercalate_items]
    exact hx.append (Reads.flatMap fun other hother => hseparator.append (hxs other hother))

theorem wellFormed_items {strings : α → List Text} (h : ∀ x rest,
    wellFormed (piece x ++ rest) = ((strings x).all wellFormed && wellFormed rest))
    (xs : List α) (rest : Text) : wellFormed (separator.intercalate (xs.map piece) ++ rest) =
      ((xs.flatMap strings).all wellFormed && wellFormed rest) := by
  cases xs with
  | nil => rfl
  | cons x xs =>
    have hothers : wellFormed ((xs.flatMap fun x => separator ++ piece x) ++ rest) =
        ((xs.flatMap strings).all wellFormed && wellFormed rest) := by
      induction xs with
      | nil => rfl
      | cons other xs ih =>
        rw [List.flatMap_cons, List.append_assoc, List.append_assoc,
          wellFormed_ascii_append (by decide), h, ih, List.flatMap_cons, List.all_append,
          Bool.and_assoc]
    rw [intercalate_items, List.append_assoc, h, hothers, List.flatMap_cons, List.all_append,
      Bool.and_assoc]

theorem parse_otherItems (h : ∀ x items frames, (tokens x).foldlM parseToken
    (.value (.arr items :: frames)) = some (.afterItem (items ++ [value x]) frames))
    (xs : List α) (items : List Json) (frames : List Frame) :
    (xs.flatMap fun x => [Token.comma] ++ tokens x).foldlM parseToken (.afterItem items frames) =
      some (.afterItem (items ++ xs.map value) frames) := by
  induction xs generalizing items with
  | nil =>
    rw [List.map_nil, List.append_nil]
    rfl
  | cons x xs ih =>
    have hcomma : ([Token.comma] : List Token).foldlM parseToken (.afterItem items frames) =
        some (.value (.arr items :: frames)) := rfl
    rw [List.flatMap_cons, List.foldlM_append, List.foldlM_append, hcomma, Option.bind_eq_bind,
      Option.bind_some, h, Option.bind_some, ih, List.map_cons, List.append_assoc,
      List.singleton_append]

theorem parse_items (hfirst : ∀ x frames, (tokens x).foldlM parseToken (.firstItem frames) =
    some (.afterItem [value x] frames)) (h : ∀ x items frames, (tokens x).foldlM parseToken
      (.value (.arr items :: frames)) = some (.afterItem (items ++ [value x]) frames))
    (xs : List α) (frames : List Frame) :
    (itemsTokens tokens xs ++ [Token.closeBracket]).foldlM parseToken (.firstItem frames) =
      some (place (.arr (xs.map value)) frames) := by
  cases xs with
  | nil => rfl
  | cons x xs =>
    rw [itemsTokens, List.foldlM_append, List.foldlM_append, hfirst, Option.bind_eq_bind,
      Option.bind_some, parse_otherItems h]
    rfl

end Items

end OpenArangoDBCore.Json
