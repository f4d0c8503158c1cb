import Mathlib.Data.List.TakeWhile
import Mathlib.Tactic

/-!
# JSON texts

Octets, their well-formedness as UTF-8, and the tokens of a text, read by a
machine that takes one octet after the other. A string without quotation
marks, backslashes and control characters stands for itself; every escape is
longer than what it stands for.
-/

namespace OpenArangoDBCore.Json

abbrev Octet := Fin 256
abbrev Text := List Octet

theorem mod_octet_lt (n : ℕ) : n % 256 < 256 := Nat.mod_lt n (by decide)

def octet (n : ℕ) : Octet := ⟨n % 256, mod_octet_lt n⟩
def chr (c : Char) : Octet := octet c.toNat
def chars (s : String) : Text := s.toList.map chr

def quote : Octet := octet 0x22
def backslash : Octet := octet 0x5C

/-! ### UTF-8 -/

/-- The ranges of the octets that complete a character with this first octet. -/
def following (b : Octet) : Option (List (ℕ × ℕ)) :=
  if b.val ≤ 0x7F then some []
  else if 0xC2 ≤ b.val ∧ b.val ≤ 0xDF then some [(0x80, 0xBF)]
  else if b.val = 0xE0 then some [(0xA0, 0xBF), (0x80, 0xBF)]
  else if b.val = 0xED then some [(0x80, 0x9F), (0x80, 0xBF)]
  else if 0xE1 ≤ b.val ∧ b.val ≤ 0xEF then some [(0x80, 0xBF), (0x80, 0xBF)]
  else if b.val = 0xF0 then some [(0x90, 0xBF), (0x80, 0xBF), (0x80, 0xBF)]
  else if b.val = 0xF4 then some [(0x80, 0x8F), (0x80, 0xBF), (0x80, 0xBF)]
  else if 0xF1 ≤ b.val ∧ b.val ≤ 0xF3 then some [(0x80, 0xBF), (0x80, 0xBF), (0x80, 0xBF)]
  else none

/-- With the ranges of the octets that a character begun still needs. -/
def wellFormedFrom : List (ℕ × ℕ) → Text → Bool
  | [], [] => true
  | _ :: _, [] => false
  | [], b :: text =>
    match following b with
    | none => false
    | some ranges => wellFormedFrom ranges text
  | range :: ranges, b :: text =>
    decide (range.1 ≤ b.val ∧ b.val ≤ range.2) && wellFormedFrom ranges text

def wellFormed (text : Text) : Bool := wellFormedFrom [] text

/-- The character of a code point. -/
def utf8 (code : ℕ) : Text :=
  if code < 0x80 then [octet code]
  else if code < 0x800 then [octet (0xC0 + code / 64), octet (0x80 + code % 64)]
  else if code < 0x10000 then
    [octet (0xE0 + code / 4096), octet (0x80 + code / 64 % 64), octet (0x80 + code % 64)]
  else
    [octet (0xF0 + code / 262144), octet (0x80 + code / 4096 % 64), octet (0x80 + code / 64 % 64),
      octet (0x80 + code % 64)]

theorem utf8_length (code : ℕ) : (utf8 code).length ≤ 4 := by
  unfold utf8
  split
  · simp
  · split
    · simp
    · split <;> simp

def isAscii (b : Octet) : Bool := b.val ≤ 0x7F

theorem following_ascii {b : Octet} (h : isAscii b) : following b = some [] :=
  if_pos (of_decide_eq_true h)

theorem following_high {b : Octet} {ranges : List (ℕ × ℕ)} (h : following b = some ranges) :
    ∀ range ∈ ranges, 0x80 ≤ range.1 := by
  unfold following at h
  split_ifs at h <;> cases h <;> decide

theorem wellFormed_cons (b : Octet) (text : Text) : wellFormed (b :: text) =
    match following b with
    | none => false
    | some ranges => wellFormedFrom ranges text := rfl

theorem wellFormed_ascii_append {piece : Text} (h : piece.all isAscii) (text : Text) :
    wellFormed (piece ++ text) = wellFormed text := by
  induction piece with
  | nil => rfl
  | cons b piece ih =>
    rw [List.all_cons, Bool.and_eq_true] at h
    rw [List.cons_append, wellFormed_cons, following_ascii h.1]
    exact ih h.2

theorem wellFormedFrom_append {ranges : List (ℕ × ℕ)} (hranges : ∀ range ∈ ranges, 0x80 ≤ range.1)
    (before : Text) {b : Octet} (hb : isAscii b) (after : Text) :
    wellFormedFrom ranges (before ++ b :: after) =
      (wellFormedFrom ranges before && wellFormed (b :: after)) := by
  induction before generalizing ranges with
  | nil =>
    cases ranges with
    | nil => rfl
    | cons range ranges =>
      have hlow := hranges range List.mem_cons_self
      have hle := of_decide_eq_true hb
      rw [List.nil_append, wellFormedFrom, wellFormedFrom, Bool.false_and,
        decide_eq_false (by omega), Bool.false_and]
  | cons c before ih =>
    cases ranges with
    | nil =>
      rw [List.cons_append, wellFormedFrom, wellFormedFrom]
      cases hc : following c with
      | none => rfl
      | some ranges => exact ih (following_high hc)
    | cons range ranges =>
      rw [List.cons_append, wellFormedFrom, wellFormedFrom,
        ih fun r hr => hranges r (List.mem_cons_of_mem range hr), Bool.and_assoc]

/-- An ASCII character begins anew whatever is before it. -/
theorem wellFormed_append {b : Octet} (hb : isAscii b) (before after : Text) :
    wellFormed (before ++ b :: after) = (wellFormed before && wellFormed (b :: after)) :=
  wellFormedFrom_append (List.forall_mem_nil _) before hb after

/-! ### Tokens -/

inductive Token where
  | openBrace
  | closeBrace
  | openBracket
  | closeBracket
  | comma
  | colon
  | null
  | bool (b : Bool)
  | num (text : Text)
  | str (text : Text)
  deriving DecidableEq

def isSpace (b : Octet) : Bool := b.val = 0x20 ∨ b.val = 0x09 ∨ b.val = 0x0A ∨ b.val = 0x0D

def isDigit (b : Octet) : Bool := 0x30 ≤ b.val ∧ b.val ≤ 0x39

def hexDigit (b : Octet) : Option ℕ :=
  if 0x30 ≤ b.val ∧ b.val ≤ 0x39 then some (b.val - 0x30)
  else if 0x41 ≤ b.val ∧ b.val ≤ 0x46 then some (b.val - 0x37)
  else if 0x61 ≤ b.val ∧ b.val ≤ 0x66 then some (b.val - 0x57)
  else none

def symbol (b : Octet) : Option Token :=
  if b = octet 0x7B then some .openBrace
  else if b = octet 0x7D then some .closeBrace
  else if b = octet 0x5B then some .openBracket
  else if b = octet 0x5D then some .closeBracket
  else if b = chr ',' then some .comma
  else if b = chr ':' then some .colon
  else none

/-- What ends a text that is not in quotes. -/
def EndsBare (b : Octet) : Prop := isSpace b ∨ b = quote ∨ (symbol b).isSome

instance (b : Octet) : Decidable (EndsBare b) := inferInstanceAs (Decidable (_ ∨ _ ∨ _))

def exponentPart : Text → Bool
  | [] => true
  | b :: text =>
    if b = chr 'e' ∨ b = chr 'E' then
      match text with
      | [] => false
      | sign :: digits =>
        if sign = chr '+' ∨ sign = chr '-' then digits ≠ [] ∧ digits.all isDigit
        else (sign :: digits).all isDigit
    else false

def fractionPart : Text → Bool
  | [] => true
  | b :: text =>
    if b = chr '.' then
      match text with
      | [] => false
      | d :: rest => isDigit d && exponentPart (rest.dropWhile isDigit)
    else exponentPart (b :: text)

def unsignedNumber : Text → Bool
  | [] => false
  | b :: text =>
    if b = chr '0' then fractionPart text
    else isDigit b && fractionPart (text.dropWhile isDigit)

def isNumber : Text → Bool
  | [] => false
  | b :: text => if b = chr '-' then unsignedNumber text else unsignedNumber (b :: text)

/-- A text that is not in quotes. -/
def bareToken (text : Text) : Option Token :=
  if text = chars "null" then some .null
  else if text = chars "true" then some (.bool true)
  else if text = chars "false" then some (.bool false)
  else if isNumber text then some (.num text)
  else none

/-- `hex` collects the four digits behind `\u`, after a high surrogate or not. -/
inductive Scan where
  | between
  | bare (text : Text)
  | quoted (text : Text)
  | escaped (text : Text)
  | hex (text : Text) (high : Option ℕ) (digits : List ℕ)
  | surrogate (text : Text) (high : ℕ)
  | surrogateEscape (text : Text) (high : ℕ)
  deriving DecidableEq

def simpleEscape (b : Octet) : Option Octet :=
  if b = quote ∨ b = backslash ∨ b = chr '/' then some b
  else if b = chr 'b' then some (octet 0x08)
  else if b = chr 'f' then some (octet 0x0C)
  else if b = chr 'n' then some (octet 0x0A)
  else if b = chr 'r' then some (octet 0x0D)
  else if b = chr 't' then some (octet 0x09)
  else none

/-- A high surrogate waits for a low one, which does not stand alone. -/
def unicodeEscape (text : Text) (high : Option ℕ) (code : ℕ) : Option Scan :=
  match high with
  | none =>
    if 0xD800 ≤ code ∧ code ≤ 0xDBFF then some (.surrogate text code)
    else if 0xDC00 ≤ code ∧ code ≤ 0xDFFF then none
    else some (.quoted (text ++ utf8 code))
  | some high =>
    if 0xDC00 ≤ code ∧ code ≤ 0xDFFF then
      some (.quoted (text ++ utf8 (0x10000 + 1024 * (high - 0xD800) + (code - 0xDC00))))
    else none

def stepBetween (b : Octet) : Option (List Token × Scan) :=
  if isSpace b then some ([], .between)
  else if b = quote then some ([], .quoted [])
  else
    match symbol b with
    | some token => some ([token], .between)
    | none => some ([], .bare [b])

/-- The tokens that an octet completes, and the state after it. -/
def step : Scan → Octet → Option (List Token × Scan)
  | .between, b => stepBetween b
  | .bare text, b =>
    if EndsBare b then
      (bareToken text).bind fun token => (stepBetween b).map fun r => (token :: r.1, r.2)
    else some ([], .bare (text ++ [b]))
  | .quoted text, b =>
    if b = quote then some ([.str text], .between)
    else if b = backslash then some ([], .escaped text)
    else if b.val < 0x20 then none
    else some ([], .quoted (text ++ [b]))
  | .escaped text, b =>
    if b = chr 'u' then some ([], .hex text none [])
    else (simpleEscape b).map fun c => ([], .quoted (text ++ [c]))
  | .hex text high digits, b =>
    match hexDigit b with
    | none => none
    | some d =>
      if digits.length < 3 then some ([], .hex text high (digits ++ [d]))
      else (unicodeEscape text high ((digits ++ [d]).foldl (fun n x => 16 * n + x) 0)).map
        fun q => ([], q)
  | .surrogate text high, b => if b = backslash then some ([], .surrogateEscape text high) else none
  | .surrogateEscape text high, b => if b = chr 'u' then some ([], .hex text (some high) []) else none

def run : Scan → Text → Option (List Token × Scan)
  | q, [] => some ([], q)
  | q, b :: text => (step q b).bind fun r => (run r.2 text).map fun later => (r.1 ++ later.1, later.2)

def finish : Scan → Option (List Token)
  | .between => some []
  | .bare text => (bareToken text).map fun token => [token]
  | _ => none

def lex (text : Text) : Option (List Token) :=
  (run .between text).bind fun r => (finish r.2).map fun last => r.1 ++ last

theorem run_append (q : Scan) (text more : Text) : run q (text ++ more) =
    (run q text).bind fun r => (run r.2 more).map fun later => (r.1 ++ later.1, later.2) := by
  induction text generalizing q with
  | nil =>
    rw [List.nil_append, run, Option.bind_some]
    simp
  | cons b text ih =>
    rw [List.cons_append, run, run]
    cases step q b with
    | none => rfl
    | some r =>
      rw [Option.bind_some, Option.bind_some, ih]
      cases run r.2 text with
      | none => rfl
      | some r' =>
        rw [Option.bind_some, Option.map_some, Option.bind_some, Option.map_map]
        dsimp only
        congr 1
        funext later
        rw [Function.comp_apply, List.append_assoc]

/-! ### Strings that stand for themselves -/

def PlainOctet (b : Octet) : Prop := b ≠ quote ∧ b ≠ backslash ∧ 0x20 ≤ b.val

instance (b : Octet) : Decidable (PlainOctet b) := inferInstanceAs (Decidable (_ ∧ _))

def Plain (text : Text) : Prop := ∀ b ∈ text, PlainOctet b

instance (text : Text) : Decidable (Plain text) := List.decidableBAll _ _

/-- The largest of the fields that are not plain is not smaller than another one. -/
theorem plain_of_larger (size : Text → ℕ) {fields : List Text}
    (h : ∀ field ∈ fields, Plain field ∨
      ∃ larger ∈ fields, ¬ Plain larger ∧ size field < size larger) :
    ∀ field ∈ fields, Plain field := by
  by_contra hnot
  push Not at hnot
  obtain ⟨field, hfield, hplain⟩ := hnot
  have hmem : field ∈ fields.toFinset.filter fun f => ¬ Plain f :=
    Finset.mem_filter.mpr ⟨List.mem_toFinset.mpr hfield, hplain⟩
  obtain ⟨largest, hlargest, hmax⟩ := Finset.exists_max_image _ size ⟨field, hmem⟩
  obtain ⟨hlist, hunclean⟩ := Finset.mem_filter.mp hlargest
  obtain ⟨larger, hlarger, hlargerPlain, hlt⟩ :=
    (h largest (List.mem_toFinset.mp hlist)).resolve_left hunclean
  have hle := hmax larger (Finset.mem_filter.mpr ⟨List.mem_toFinset.mpr hlarger, hlargerPlain⟩)
  omega

theorem step_plain {b : Octet} (h : PlainOctet b) (text : Text) :
    step (.quoted text) b = some ([], .quoted (text ++ [b])) := by
  obtain ⟨hquote, hbackslash, hcontrol⟩ := h
  rw [step, if_neg hquote, if_neg hbackslash, if_neg (by omega)]

theorem run_plain {field : Text} (h : Plain field) (text : Text) :
    run (.quoted text) field = some ([], .quoted (text ++ field)) := by
  induction field generalizing text with
  | nil => rw [run, List.append_nil]
  | cons b field ih =>
    obtain ⟨hb, hfield⟩ := List.forall_mem_cons.mp h
    rw [run, step_plain hb, Option.bind_some, ih hfield, List.append_assoc]
    rfl

theorem run_close (text rest : Text) : run (.quoted text) (quote :: rest) =
    (run .between rest).map fun later => (.str text :: later.1, later.2) := by
  rw [run, step, if_pos rfl]
  rfl

/-- How much of a string the machine can have collected from `n` octets. -/
def Within (n : ℕ) : Scan → Prop
  | .between => True
  | .bare _ => True
  | .quoted text => text.length ≤ n ∧ (Plain text ∨ text.length < n)
  | .escaped text => text.length < n
  | .hex text none digits => text.length + digits.length + 2 ≤ n
  | .hex text (some _) digits => text.length + digits.length + 8 ≤ n
  | .surrogate text _ => text.length + 6 ≤ n
  | .surrogateEscape text _ => text.length + 7 ≤ n

/-- The strings among the tokens are plain or shorter than `n` octets. -/
def Shortened (n : ℕ) (tokens : List Token) : Prop :=
  ∀ text, .str text ∈ tokens → Plain text ∨ text.length < n

theorem shortened_nil (n : ℕ) : Shortened n [] := fun _ h => absurd h List.not_mem_nil

theorem Shortened.append {n : ℕ} {tokens more : List Token} (h : Shortened n tokens)
    (hmore : Shortened n more) : Shortened n (tokens ++ more) := by
  intro text hmem
  rcases List.mem_append.mp hmem with hmem | hmem
  · exact h text hmem
  · exact hmore text hmem

theorem Shortened.mono {n m : ℕ} {tokens : List Token} (h : Shortened n tokens) (hle : n ≤ m) :
    Shortened m tokens := by
  intro text hmem
  exact (h text hmem).imp id fun hlt => hlt.trans_le hle

theorem symbol_ne_str {b : Octet} {token : Token} (h : symbol b = some token) (text : Text) :
    token ≠ .str text := by
  unfold symbol at h
  split_ifs at h <;> cases h <;> exact Token.noConfusion

theorem bareToken_ne_str {bare : Text} {token : Token} (h : bareToken bare = some token)
    (text : Text) : token ≠ .str text := by
  unfold bareToken at h
  split_ifs at h <;> cases h <;> exact Token.noConfusion

/-! ### What a step can do -/

/-- The states that an octet between tokens leads to. -/
inductive Starts : Scan → Prop where
  | between : Starts .between
  | bare (text : Text) : Starts (.bare text)
  | quoted : Starts (.quoted [])

theorem stepBetween_cases {b : Octet} {r : List Token × Scan} (h : stepBetween b = some r) :
    Starts r.2 ∧ ∀ text, .str text ∉ r.1 := by
  unfold stepBetween at h
  split at h
  · cases h
    exact ⟨.between, fun _ => List.not_mem_nil⟩
  · split at h
    · cases h
      exact ⟨.quoted, fun _ => List.not_mem_nil⟩
    · cases hsymbol : symbol b with
      | none =>
        rw [hsymbol] at h
        cases h
        exact ⟨.bare [b], fun _ => List.not_mem_nil⟩
      | some token =>
        rw [hsymbol] at h
        cases h
        refine ⟨.between, fun text hmem => ?_⟩
        exact symbol_ne_str hsymbol text (List.mem_singleton.mp hmem).symm

theorem step_bare_cases {bare : Text} {b : Octet} {r : List Token × Scan}
    (h : step (.bare bare) b = some r) : Starts r.2 ∧ ∀ text, .str text ∉ r.1 := by
  rw [step] at h
  split at h
  · obtain ⟨token, htoken, h⟩ := Option.bind_eq_some_iff.mp h
    obtain ⟨later, hlater, rfl⟩ := Option.map_eq_some_iff.mp h
    obtain ⟨hstarts, hnone⟩ := stepBetween_cases hlater
    refine ⟨hstarts, fun text hmem => ?_⟩
    rcases List.mem_cons.mp hmem with hhead | hmem
    · exact bareToken_ne_str htoken text hhead.symm
    · exact hnone text hmem
  · cases h
    exact ⟨.bare _, fun _ => List.not_mem_nil⟩

theorem step_quoted_cases {text : Text} {b : Octet} {r : List Token × Scan}
    (h : step (.quoted text) b = some r) :
    (b = quote ∧ r = ([.str text], .between)) ∨ (b = backslash ∧ r = ([], .escaped text)) ∨
      (PlainOctet b ∧ r = ([], .quoted (text ++ [b]))) := by
  rw [step] at h
  split_ifs at h with hquote hbackslash hcontrol
  · exact .inl ⟨hquote, (Option.some.inj h).symm⟩
  · exact .inr (.inl ⟨hbackslash, (Option.some.inj h).symm⟩)
  · exact .inr (.inr ⟨⟨hquote, hbackslash, not_lt.mp hcontrol⟩, (Option.some.inj h).symm⟩)

theorem step_escaped_cases {text : Text} {b : Octet} {r : List Token × Scan}
    (h : step (.escaped text) b = some r) : r = ([], .hex text none []) ∨
      ∃ c, simpleEscape b = some c ∧ r = ([], .quoted (text ++ [c])) := by
  rw [step] at h
  split at h
  · exact .inl (Option.some.inj h).symm
  · obtain ⟨c, hc, rfl⟩ := Option.map_eq_some_iff.mp h
    exact .inr ⟨c, hc, rfl⟩

theorem step_hex_cases {text : Text} {high : Option ℕ} {digits : List ℕ} {b : Octet}
    {r : List Token × Scan} (h : step (.hex text high digits) b = some r) :
    (∃ d, r = ([], .hex text high (digits ++ [d]))) ∨
      3 ≤ digits.length ∧ ∃ code q, unicodeEscape text high code = some q ∧ r = ([], q) := by
  rw [step] at h
  split at h
  · cases h
  next d hd =>
    split at h
    next => exact .inl ⟨d, (Option.some.inj h).symm⟩
    next hfull =>
      obtain ⟨q, hq, rfl⟩ := Option.map_eq_some_iff.mp h
      exact .inr ⟨not_lt.mp hfull, _, q, hq, rfl⟩

theorem unicodeEscape_cases {text : Text} {high : Option ℕ} {code : ℕ} {q : Scan}
    (h : unicodeEscape text high code = some q) :
    (high = none ∧ q = .surrogate text code) ∨ ∃ code', q = .quoted (text ++ utf8 code') := by
  unfold unicodeEscape at h
  split at h
  · split_ifs at h
    · exact .inl ⟨rfl, (Option.some.inj h).symm⟩
    · exact .inr ⟨_, (Option.some.inj h).symm⟩
  · split_ifs at h
    exact .inr ⟨_, (Option.some.inj h).symm⟩

theorem step_surrogate_eq {text : Text} {high : ℕ} {b : Octet} {r : List Token × Scan}
    (h : step (.surrogate text high) b = some r) : r = ([], .surrogateEscape text high) := by
  rw [step] at h
  split at h
  · exact (Option.some.inj h).symm
  · cases h

theorem step_surrogateEscape_eq {text : Text} {high : ℕ} {b : Octet} {r : List Token × Scan}
    (h : step (.surrogateEscape text high) b = some r) : r = ([], .hex text (some high) []) := by
  rw [step] at h
  split at h
  · exact (Option.some.inj h).symm
  · cases h

theorem Plain.snoc {text : Text} (h : Plain text) {b : Octet} (hb : PlainOctet b) :
    Plain (text ++ [b]) := by
  intro c hc
  rcases List.mem_append.mp hc with hc | hc
  · exact h c hc
  · rw [List.mem_singleton.mp hc]
    exact hb

/-! ### How much a string can hold -/

theorem Starts.within {q : Scan} (h : Starts q) (n : ℕ) : Within n q := by
  cases h with
  | between => trivial
  | bare text => trivial
  | quoted => exact ⟨Nat.zero_le n, .inl (List.forall_mem_nil _)⟩

theorem within_quoted {n : ℕ} {text : Text} (h : text.length < n) : Within n (.quoted text) :=
  ⟨h.le, .inr h⟩

theorem shortened_of_none {tokens : List Token} (h : ∀ text, .str text ∉ tokens) (n : ℕ) :
    Shortened n tokens := fun text hmem => absurd hmem (h text)

theorem hex_within {n : ℕ} {text : Text} {high : Option ℕ} {digits : List ℕ}
    (h : Within n (.hex text high digits)) (d : ℕ) :
    Within (n + 1) (.hex text high (digits ++ [d])) := by
  have hlength : (digits ++ [d]).length = digits.length + 1 := by
    rw [List.length_append, List.length_singleton]
  cases high with
  | none =>
    have hlen : text.length + digits.length + 2 ≤ n := h
    show text.length + (digits ++ [d]).length + 2 ≤ n + 1
    omega
  | some high =>
    have hlen : text.length + digits.length + 8 ≤ n := h
    show text.length + (digits ++ [d]).length + 8 ≤ n + 1
    omega

theorem unicodeEscape_within {n : ℕ} {text : Text} {high : Option ℕ} {digits : List ℕ}
    (h : Within n (.hex text high digits)) (hfull : 3 ≤ digits.length) {code : ℕ} {q : Scan}
    (hq : unicodeEscape text high code = some q) : Within (n + 1) q := by
  have hlen : text.length + 5 ≤ n := by
    cases high with
    | none =>
      have hlen : text.length + digits.length + 2 ≤ n := h
      omega
    | some high =>
      have hlen : text.length + digits.length + 8 ≤ n := h
      omega
  obtain ⟨-, rfl⟩ | ⟨code', rfl⟩ := unicodeEscape_cases hq
  · show text.length + 6 ≤ n + 1
    omega
  · have hutf8 := utf8_length code'
    refine within_quoted ?_
    rw [List.length_append]
    omega

theorem step_within {n : ℕ} {q : Scan} (hq : Within n q) {b : Octet} {r : List Token × Scan}
    (h : step q b = some r) : Within (n + 1) r.2 ∧ Shortened (n + 1) r.1 := by
  cases q with
  | between =>
    obtain ⟨hstarts, hnone⟩ := stepBetween_cases h
    exact ⟨hstarts.within _, shortened_of_none hnone _⟩
  | bare text =>
    obtain ⟨hstarts, hnone⟩ := step_bare_cases h
    exact ⟨hstarts.within _, shortened_of_none hnone _⟩
  | quoted text =>
    obtain ⟨hle, hplain⟩ := hq
    obtain ⟨-, rfl⟩ | ⟨-, rfl⟩ | ⟨hb, rfl⟩ := step_quoted_cases h
    · refine ⟨trivial, fun other hmem => ?_⟩
      obtain rfl := Token.str.inj (List.mem_singleton.mp hmem)
      exact .inr (Nat.lt_succ_of_le hle)
    · exact ⟨Nat.lt_succ_of_le hle, shortened_nil _⟩
    · have hlength : (text ++ [b]).length = text.length + 1 := by
        rw [List.length_append, List.length_singleton]
      refine ⟨⟨by omega, ?_⟩, shortened_nil _⟩
      exact hplain.imp (fun hplain => hplain.snoc hb) fun hlt => by omega
  | escaped text =>
    have hlt : text.length < n := hq
    obtain rfl | ⟨c, -, rfl⟩ := step_escaped_cases h
    · refine ⟨?_, shortened_nil _⟩
      show text.length + 0 + 2 ≤ n + 1
      omega
    · refine ⟨within_quoted ?_, shortened_nil _⟩
      rw [List.length_append, List.length_singleton]
      omega
  | hex text high digits =>
    obtain ⟨d, rfl⟩ | ⟨hfull, code, q, hescape, rfl⟩ := step_hex_cases h
    · exact ⟨hex_within hq d, shortened_nil _⟩
    · exact ⟨unicodeEscape_within hq hfull hescape, shortened_nil _⟩
  | surrogate text high =>
    obtain rfl := step_surrogate_eq h
    have hlen : text.length + 6 ≤ n := hq
    refine ⟨?_, shortened_nil _⟩
    show text.length + 7 ≤ n + 1
    omega
  | surrogateEscape text high =>
    obtain rfl := step_surrogateEscape_eq h
    have hlen : text.length + 7 ≤ n := hq
    refine ⟨?_, shortened_nil _⟩
    show text.length + 0 + 8 ≤ n + 1
    omega

theorem bind_append_iff {x : Option (List Token × Scan)} (f : Scan → Option (List Token × Scan))
    {tokens : List Token} {q' : Scan} :
    (x.bind fun r => (f r.2).map fun later => (r.1 ++ later.1, later.2)) = some (tokens, q') ↔
      ∃ first middle rest, x = some (first, middle) ∧ f middle = some (rest, q') ∧
        tokens = first ++ rest := by
  constructor
  · intro h
    obtain ⟨⟨first, middle⟩, hx, h⟩ := Option.bind_eq_some_iff.mp h
    obtain ⟨⟨rest, last⟩, hf, h⟩ := Option.map_eq_some_iff.mp h
    obtain ⟨rfl, rfl⟩ := Prod.mk.inj h
    exact ⟨first, middle, rest, hx, hf, rfl⟩
  · rintro ⟨first, middle, rest, rfl, hf, rfl⟩
    rw [Option.bind_some, hf]
    rfl

theorem run_append_iff {q : Scan} {text more : Text} {tokens : List Token} {q' : Scan} :
    run q (text ++ more) = some (tokens, q') ↔ ∃ first middle rest,
      run q text = some (first, middle) ∧ run middle more = some (rest, q') ∧
        tokens = first ++ rest := by
  rw [run_append]
  exact bind_append_iff fun q => run q more

theorem run_within {field : Text} {n : ℕ} {q : Scan} (hq : Within n q) {tokens : List Token}
    {q' : Scan} (h : run q field = some (tokens, q')) :
    Within (n + field.length) q' ∧ Shortened (n + field.length) tokens := by
  induction field generalizing n q tokens with
  | nil =>
    cases h
    exact ⟨hq, shortened_nil _⟩
  | cons b field ih =>
    obtain ⟨first, middle, rest, hstep, hrun, rfl⟩ := (bind_append_iff fun q => run q field).mp h
    obtain ⟨hmiddle, hfirst⟩ := step_within hq hstep
    obtain ⟨hlast, hrest⟩ := ih hmiddle hrun
    have hlength : n + (b :: field).length = n + 1 + field.length := by
      rw [List.length_cons]
      omega
    rw [hlength]
    exact ⟨hlast, (hfirst.mono (by omega)).append hrest⟩

/-! ### A field between quotation marks -/

def lineFeed : Octet := octet 0x0A

/-- A string is closed and its line ends, before another member or not. -/
def EndsLine (rest : Text) : Prop :=
  ∃ more, rest = lineFeed :: more ∨ rest = chr ',' :: lineFeed :: more

theorem run_quoted_endsLine (text : Text) {rest : Text} (h : EndsLine rest) :
    run (.quoted text) rest = none := by
  obtain ⟨more, rfl | rfl⟩ := h <;> rfl

/-- Where no string can go on, the quotation mark before closes one. -/
theorem quoted_of_run {q : Scan} {rest : Text} (hrest : ∀ text, run (.quoted text) rest = none)
    (h : run q (quote :: rest) ≠ none) : ∃ text, q = .quoted text := by
  cases q with
  | between =>
    have hopen : run .between (quote :: rest) =
        (run (.quoted []) rest).map fun later => later := rfl
    rw [hopen, hrest []] at h
    exact absurd rfl h
  | bare text =>
    rw [run, step, if_pos (.inr (.inl rfl))] at h
    cases hbare : bareToken text with
    | none =>
      rw [hbare] at h
      exact absurd rfl h
    | some token =>
      have hopen : stepBetween quote = some ([], .quoted []) := rfl
      rw [hbare, hopen, Option.bind_some, Option.map_some, Option.bind_some,
        hrest []] at h
      exact absurd rfl h
  | quoted text => exact ⟨text, rfl⟩
  | escaped text =>
    have hescape : step (.escaped text) quote = some ([], .quoted (text ++ [quote])) := rfl
    rw [run, hescape, Option.bind_some, hrest _] at h
    exact absurd rfl h
  | hex text high digits => exact absurd rfl h
  | surrogate text high => exact absurd rfl h
  | surrogateEscape text high => exact absurd rfl h

/-- A field that is printed as it is between quotation marks comes back, or its parts do. -/
theorem run_field {field rest : Text} (hrest : EndsLine rest) {tokens : List Token} {q' : Scan}
    (h : run (.quoted []) (field ++ quote :: rest) = some (tokens, q')) :
    ∃ first later, run .between rest = some (later, q') ∧ tokens = first ++ later ∧
      ∀ text, .str text ∈ first → Plain text ∨ ¬ Plain field ∧ text.length < field.length := by
  obtain ⟨inside, middle, outside, hinside, houtside, rfl⟩ := run_append_iff.mp h
  have hsome : run middle (quote :: rest) ≠ none := by
    rw [houtside]
    exact Option.some_ne_none _
  obtain ⟨last, rfl⟩ := quoted_of_run (fun text => run_quoted_endsLine text hrest) hsome
  rw [run_close] at houtside
  obtain ⟨⟨later, q⟩, hlater, heq⟩ := Option.map_eq_some_iff.mp houtside
  obtain ⟨rfl, rfl⟩ := Prod.mk.inj heq
  refine ⟨inside ++ [.str last], later, hlater, by simp, fun text hmem => ?_⟩
  by_cases hplain : Plain field
  · rw [run_plain hplain] at hinside
    obtain ⟨rfl, hlast⟩ := Prod.mk.inj (Option.some.inj hinside)
    obtain rfl := Scan.quoted.inj hlast
    obtain rfl := Token.str.inj (List.mem_singleton.mp hmem)
    exact .inl hplain
  · have hstart : Within 0 (.quoted []) := ⟨le_refl 0, .inl fun b hb => absurd hb List.not_mem_nil⟩
    obtain ⟨hlast, hshort⟩ := run_within hstart hinside
    rw [Nat.zero_add] at hlast hshort
    rcases List.mem_append.mp hmem with hmem | hmem
    · exact (hshort text hmem).imp id fun hlt => ⟨hplain, hlt⟩
    · obtain rfl := Token.str.inj (List.mem_singleton.mp hmem)
      exact hlast.2.imp id fun hlt => ⟨hplain, hlt⟩

/-! ### Bare tokens -/

theorem run_bare_end {text : Text} {token : Token} (h : bareToken text = some token) {b : Octet}
    (hb : EndsBare b) (rest : Text) : run (.bare text) (b :: rest) =
      (run .between (b :: rest)).map fun later => (token :: later.1, later.2) := by
  have hstep : step (.bare text) b = (stepBetween b).map fun r => (token :: r.1, r.2) := by
    rw [step, if_pos hb, h, Option.bind_some]
  have hbetween : step .between b = stepBetween b := rfl
  rw [run, run, hstep, hbetween]
  cases stepBetween b with
  | none => rfl
  | some r =>
    rw [Option.map_some, Option.bind_some, Option.bind_some, Option.map_map]
    rfl

theorem not_endsBare_digit {b : Octet} (h : isDigit b) : ¬ EndsBare b := by
  obtain ⟨hlow, hhigh⟩ := of_decide_eq_true h
  have hne : ∀ n, n < 0x30 ∨ 0x39 < n → n < 256 → b ≠ octet n := by
    rintro n hn hlt rfl
    have hval : (octet n).val = n := Nat.mod_eq_of_lt hlt
    omega
  rintro (hspace | hquote | hsymbol)
  · have hspace := of_decide_eq_true hspace
    omega
  · exact hne 0x22 (by omega) (by omega) hquote
  · unfold symbol at hsymbol
    rw [if_neg (hne 0x7B (by omega) (by omega)), if_neg (hne 0x7D (by omega) (by omega)),
      if_neg (hne 0x5B (by omega) (by omega)), if_neg (hne 0x5D (by omega) (by omega)),
      if_neg (show b ≠ chr ',' from hne 0x2C (by omega) (by omega)),
      if_neg (show b ≠ chr ':' from hne 0x3A (by omega) (by omega))] at hsymbol
    cases hsymbol

theorem run_bare_digits {digits : Text} (h : digits.all isDigit) (text : Text) :
    run (.bare text) digits = some ([], .bare (text ++ digits)) := by
  induction digits generalizing text with
  | nil => rw [run, List.append_nil]
  | cons b digits ih =>
    rw [List.all_cons, Bool.and_eq_true] at h
    rw [run, step, if_neg (not_endsBare_digit h.1), Option.bind_some, ih h.2, List.append_assoc]
    rfl

/-- A number without a sign and without leading zeros. -/
def Natural (digits : Text) : Prop :=
  digits = chars "0" ∨ ∃ b rest, digits = b :: rest ∧ b ≠ chr '0' ∧ digits.all isDigit

theorem Natural.all_isDigit {digits : Text} (h : Natural digits) : digits.all isDigit := by
  obtain rfl | ⟨b, rest, -, -, hall⟩ := h
  · decide
  · exact hall

theorem Natural.isNumber {digits : Text} (h : Natural digits) : isNumber digits := by
  obtain rfl | ⟨b, rest, rfl, hzero, hall⟩ := h
  · decide
  · rw [List.all_cons, Bool.and_eq_true] at hall
    have hdigit := of_decide_eq_true hall.1
    have hminus : b ≠ chr '-' := by
      rintro rfl
      exact absurd hdigit.1 (by decide)
    have hrest : rest.dropWhile isDigit = [] :=
      List.dropWhile_eq_nil_iff.2 fun c hc => List.all_eq_true.mp hall.2 c hc
    rw [Json.isNumber, if_neg hminus, unsignedNumber, if_neg hzero, hall.1, hrest]
    rfl

theorem Natural.bareToken {digits : Text} (h : Natural digits) :
    bareToken digits = some (.num digits) := by
  have hletter : ∀ c : Octet, ∀ rest, ¬ isDigit c → digits ≠ c :: rest := by
    rintro c rest hc rfl
    have hall := h.all_isDigit
    rw [List.all_cons, Bool.and_eq_true] at hall
    exact hc hall.1
  have hnull : digits ≠ chars "null" := hletter (chr 'n') (chars "ull") (by decide)
  have htrue : digits ≠ chars "true" := hletter (chr 't') (chars "rue") (by decide)
  have hfalse : digits ≠ chars "false" := hletter (chr 'f') (chars "alse") (by decide)
  unfold Json.bareToken
  rw [if_neg hnull, if_neg htrue, if_neg hfalse, if_pos h.isNumber]

theorem run_natural {digits : Text} (h : Natural digits) {b : Octet} (hb : EndsBare b)
    (rest : Text) : run .between (digits ++ b :: rest) =
      (run .between (b :: rest)).map fun later => (.num digits :: later.1, later.2) := by
  cases digits with
  | nil =>
    obtain hnil | ⟨b, rest, hnil, -⟩ := h
    · cases hnil
    · cases hnil
  | cons d digits =>
    have hall := h.all_isDigit
    rw [List.all_cons, Bool.and_eq_true] at hall
    have hdigit := not_endsBare_digit hall.1
    have hspace : isSpace d = false := by
      rw [← Bool.not_eq_true]
      exact fun hs => hdigit (.inl hs)
    have hsymbol : symbol d = none := by
      rw [← Option.not_isSome_iff_eq_none]
      exact fun hs => hdigit (.inr (.inr hs))
    have hfirst : step .between d = some ([], .bare [d]) := by
      show stepBetween d = _
      unfold stepBetween
      rw [hspace, if_neg Bool.false_ne_true, if_neg fun hq => hdigit (.inr (.inl hq)), hsymbol]
    rw [List.cons_append, run, hfirst, Option.bind_some, run_append, run_bare_digits hall.2,
      Option.bind_some, List.singleton_append, run_bare_end h.bareToken hb, Option.map_map,
      Option.map_map]
    rfl

/-! ### Pieces of a text -/

/-- Between tokens, the piece is these tokens. -/
def Lexes (tokens : List Token) (piece : Text) : Prop :=
  run .between piece = some (tokens, .between)

instance (tokens : List Token) (piece : Text) : Decidable (Lexes tokens piece) :=
  inferInstanceAs (Decidable (_ = _))

/-- However the piece is read, it ends between tokens and its strings satisfy `P`. -/
def Reads (P : Text → Prop) (piece : Text) : Prop :=
  ∀ tokens q, run .between piece = some (tokens, q) →
    q = .between ∧ ∀ text, .str text ∈ tokens → P text

theorem lexes_nil : Lexes [] [] := rfl

theorem Lexes.append {tokens more : List Token} {piece next : Text} (h : Lexes tokens piece)
    (hnext : Lexes more next) : Lexes (tokens ++ more) (piece ++ next) :=
  run_append_iff.mpr ⟨tokens, .between, more, h, hnext, rfl⟩

theorem Lexes.lex {tokens : List Token} {text : Text} (h : Lexes tokens text) :
    lex text = some tokens := by
  unfold Json.lex
  rw [h, Option.bind_some]
  show some (tokens ++ []) = _
  rw [List.append_nil]

theorem Lexes.reads {tokens : List Token} {piece : Text} (h : Lexes tokens piece)
    {P : Text → Prop} (hP : ∀ text, .str text ∈ tokens → P text) : Reads P piece := by
  intro others q hrun
  obtain ⟨rfl, rfl⟩ := Prod.mk.inj (Option.some.inj (h.symm.trans hrun))
  exact ⟨rfl, hP⟩

theorem Reads.append {P : Text → Prop} {piece next : Text} (h : Reads P piece)
    (hnext : Reads P next) : Reads P (piece ++ next) := by
  intro tokens q hrun
  obtain ⟨first, middle, rest, hfirst, hrest, rfl⟩ := run_append_iff.mp hrun
  obtain ⟨rfl, hP⟩ := h first middle hfirst
  obtain ⟨rfl, hQ⟩ := hnext rest q hrest
  refine ⟨rfl, fun text hmem => ?_⟩
  rcases List.mem_append.mp hmem with hmem | hmem
  · exact hP text hmem
  · exact hQ text hmem

theorem Reads.of_lex {P : Text → Prop} {text : Text} (h : Reads P text) {tokens : List Token}
    (hlex : lex text = some tokens) : ∀ s, .str s ∈ tokens → P s := by
  obtain ⟨⟨first, q⟩, hrun, hlast⟩ := Option.bind_eq_some_iff.mp hlex
  obtain ⟨rfl, hP⟩ := h first q hrun
  obtain rfl : first ++ [] = tokens := Option.some.inj hlast
  rw [List.append_nil]
  exact hP

theorem Lexes.flatMap {α : Type} {xs : List α} {tokens : α → List Token} {piece : α → Text}
    (h : ∀ x ∈ xs, Lexes (tokens x) (piece x)) : Lexes (xs.flatMap tokens) (xs.flatMap piece) := by
  induction xs with
  | nil => exact lexes_nil
  | cons x xs ih =>
    obtain ⟨hx, hxs⟩ := List.forall_mem_cons.mp h
    rw [List.flatMap_cons, List.flatMap_cons]
    exact hx.append (ih hxs)

theorem Reads.flatMap {α : Type} {xs : List α} {P : Text → Prop} {piece : α → Text}
    (h : ∀ x ∈ xs, Reads P (piece x)) : Reads P (xs.flatMap piece) := by
  induction xs with
  | nil => exact lexes_nil.reads fun _ hmem => absurd hmem List.not_mem_nil
  | cons x xs ih =>
    obtain ⟨hx, hxs⟩ := List.forall_mem_cons.mp h
    rw [List.flatMap_cons]
    exact hx.append (ih hxs)

/-- A token that is a string only if it is a plain one. -/
def Token.isPlain : Token → Bool
  | .str text => decide (Plain text)
  | _ => true

theorem plain_of_mem {tokens : List Token} (h : tokens.all Token.isPlain) :
    ∀ text, .str text ∈ tokens → Plain text :=
  fun text hmem => of_decide_eq_true (List.all_eq_true.mp h (.str text) hmem)

variable {opening closing : Text} {before after : List Token}

/-- A line with a field in it, which is a string for a plain field. -/
theorem lexes_field (hopening : run .between opening = some (before, .quoted []))
    (hclosing : Lexes after closing) {field : Text} (h : Plain field) :
    Lexes (before ++ .str field :: after) (opening ++ (field ++ quote :: closing)) := by
  refine run_append_iff.mpr ⟨before, _, .str field :: after, hopening, ?_, rfl⟩
  refine run_append_iff.mpr ⟨[], _, .str field :: after, run_plain h [], ?_, rfl⟩
  rw [run_close, hclosing]
  rfl

theorem reads_field (hopening : run .between opening = some (before, .quoted []))
    (hclosing : Lexes after closing) (hends : EndsLine closing) {P : Text → Prop} {field : Text}
    (hbefore : ∀ text, .str text ∈ before → P text) (hafter : ∀ text, .str text ∈ after → P text)
    (h : ∀ text, Plain text ∨ ¬ Plain field ∧ text.length < field.length → P text) :
    Reads P (opening ++ (field ++ quote :: closing)) := by
  intro tokens q hrun
  obtain ⟨first, middle, rest, hfirst, hrest, rfl⟩ := run_append_iff.mp hrun
  obtain ⟨rfl, rfl⟩ := Prod.mk.inj (Option.some.inj (hopening.symm.trans hfirst))
  obtain ⟨inside, later, hlater, rfl, hinside⟩ := run_field hends hrest
  obtain ⟨rfl, rfl⟩ := Prod.mk.inj (Option.some.inj (hclosing.symm.trans hlater))
  refine ⟨rfl, fun text hmem => ?_⟩
  rcases List.mem_append.mp hmem with hmem | hmem
  · exact hbefore text hmem
  · rcases List.mem_append.mp hmem with hmem | hmem
    · exact h text (hinside text hmem)
    · exact hafter text hmem

/-- A line with a number in it. -/
theorem lexes_natural (hopening : Lexes before opening) {digits : Text} (h : Natural digits)
    {b : Octet} (hb : EndsBare b) (hclosing : Lexes after (b :: closing)) :
    Lexes (before ++ .num digits :: after) (opening ++ (digits ++ b :: closing)) := by
  refine hopening.append ?_
  unfold Lexes at hclosing ⊢
  rw [run_natural h hb, hclosing]
  rfl

end OpenArangoDBCore.Json
