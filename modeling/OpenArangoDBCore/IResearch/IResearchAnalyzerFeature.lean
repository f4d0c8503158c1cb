import OpenArangoDBCore.Lib.TextSearch
import OpenArangoDBCore.Maskings.AttributeMasking
import OpenArangoDBCore.RocksDBEngine.BackupManifest

/-!
# The MinHash analyzer's configuration (IResearchAnalyzerFeature.h, IResearchAnalyzerFeature.cpp)

`make` reads the number of hashes at the first digit behind its key, and
`normalize` at the first digit or minus sign. The canonical form is a text that
`make` reads again.
-/

namespace OpenArangoDBCore.IResearch
open TextSearch
open RocksDBEngine.BackupManifest (isDigit quote quoted)
open Maskings.AttributeMasking (isspace colon)

def kMaxMinHashK : ℤ := 4096

structure MinHashAnalyzerConfig where
  numHashes : UInt32 := 128
  analyzerType : ByteString := lit "delimiter"
  analyzerProperties : ByteString := lit "\x7b\"delimiter\": \" \"\x7d"
  deriving DecidableEq

inductive StollError where
  | invalid_argument
  | out_of_range
  deriving DecidableEq

def minus : Byte := 0x2D
def plus : Byte := 0x2B

def stoll (s : ByteString) : Except StollError ℤ :=
  let text := s.dropWhile isspace
  let signed := text.head? = some minus ∨ text.head? = some plus
  let digits := (if signed then text.tail else text).takeWhile isDigit
  let value : ℤ := if text.head? = some minus then -digitsValue digits else digitsValue digits
  if digits = [] then .error .invalid_argument
  else if -2 ^ 63 ≤ value ∧ value < 2 ^ 63 then .ok value
  else .error .out_of_range

namespace MinHashAnalyzer

/-- What follows the key `numHashes`, from the colon on. -/
def numHashesText (input : ByteString) : Option ByteString :=
  (find (quoted (lit "numHashes")) input).bind fun pos =>
    (findFrom [colon] input pos).map fun colonPos => input.drop colonPos

/-- The string between the next two quotes behind the key's colon. -/
def quotedValue (input key : ByteString) : Option ByteString :=
  (find (quoted key) input).bind fun pos =>
    (findFrom [colon] input pos).bind fun colonPos =>
      (findFrom [quote] input (colonPos + 1)).bind fun quoteStart =>
        (findFrom [quote] input (quoteStart + 1)).map fun quoteEnd =>
          (input.drop (quoteStart + 1)).take (quoteEnd - quoteStart - 1)

/-- The first digits of the text. -/
def firstDigits (text : ByteString) : ByteString :=
  (text.dropWhile fun b => !isDigit b).takeWhile isDigit

/-- `none` for a number that is not allowed. -/
def makeNumHashes (input : ByteString) : Except StollError (Option UInt32) :=
  match numHashesText input with
  | none => .ok (some 128)
  | some text =>
    if firstDigits text = [] then .ok (some 128)
    else
      (stoll (firstDigits text)).map fun val =>
        if val ≤ 0 ∨ val > kMaxMinHashK then none else some (UInt32.ofNat val.toNat)

def delimiterProperties (delim : ByteString) : ByteString :=
  lit "\x7b\"delimiter\": \"" ++ delim ++ lit "\"\x7d"

/-- The configuration of the analyzer, `none` for a null pointer. -/
def make (args : ByteString) : Except StollError (Option MinHashAnalyzerConfig) :=
  if args = [] ∨ args = lit "\x7b\x7d" then .ok (some {})
  else
    (makeNumHashes args).map fun numHashes =>
      numHashes.map fun n =>
        let default : MinHashAnalyzerConfig := {}
        { numHashes := n
          analyzerType := (quotedValue args (lit "type")).getD default.analyzerType
          analyzerProperties := ((quotedValue args (lit "delimiter")).map delimiterProperties).getD
            default.analyzerProperties }

def canonical : ByteString :=
  lit "\x7b\"numHashes\":128,\"analyzer\":\x7b\"type\":\"delimiter\",\"properties\":" ++
    lit "\x7b\"delimiter\":\" \"\x7d\x7d\x7d"

/-- The text that the check converts: from the first digit or minus sign on. -/
def numberText (text : ByteString) : ByteString :=
  text.dropWhile fun b => !(isDigit b || b = minus)

/-- The number is missing or allowed. -/
def acceptsNumber (text : ByteString) : Bool :=
  if numberText text = [] then true
  else
    match stoll (numberText text) with
    | .ok val => !(val ≤ 0 ∨ val > kMaxMinHashK)
    | .error _ => false

/-- The output, `none` for a return value `false`. -/
def normalize (args : ByteString) : Option ByteString :=
  if args = [] ∨ args = lit "\x7b\x7d" then some canonical
  else
    match numHashesText args with
    | none => some args
    | some text => if acceptsNumber text then some args else none

/-! ### Conversion of numbers -/

theorem stoll_of_digit {b : Byte} (hb : isDigit b = true) (rest : ByteString) :
    stoll (b :: rest) =
      if digitsValue ((b :: rest).takeWhile isDigit) < 2 ^ 63 then
        .ok (digitsValue ((b :: rest).takeWhile isDigit))
      else .error .out_of_range := by
  have hrange := of_decide_eq_true hb
  have hspace : isspace b = false := by
    unfold isspace
    rw [decide_eq_false_iff_not]
    omega
  have hminus : b ≠ minus := by
    rintro rfl
    exact absurd hb (by decide)
  have hplus : b ≠ plus := by
    rintro rfl
    exact absurd hb (by decide)
  unfold stoll
  rw [List.dropWhile_cons_of_neg (by rw [hspace]; exact Bool.false_ne_true)]
  dsimp only
  rw [List.head?_cons]
  simp only [Option.some.injEq, hminus, hplus, or_self, if_false]
  have hne : (b :: rest).takeWhile isDigit ≠ [] := by
    rw [List.takeWhile_cons_of_pos hb]
    exact List.cons_ne_nil _ _
  rw [if_neg hne]
  split
  next h => rw [if_pos (by omega)]
  next h => rw [if_neg (by omega)]

theorem stoll_minus_le {rest : ByteString} {val : ℤ} (h : stoll (minus :: rest) = .ok val) :
    val ≤ 0 := by
  unfold stoll at h
  rw [List.dropWhile_cons_of_neg (by decide)] at h
  dsimp only at h
  rw [List.head?_cons] at h
  simp only [true_or, if_true, List.tail_cons] at h
  split at h
  next => cases h
  next =>
    split at h
    next =>
      obtain rfl := Except.ok.inj h
      omega
    next => cases h

/-! ### Agreement -/

/-- `make` does not throw, `normalize` accepts what it accepts, and the output
gives the same analyzer. -/
def Agrees (args : ByteString) : Prop :=
  ∃ analyzer, make args = .ok analyzer ∧
    ((normalize args).isSome = true ↔ analyzer.isSome = true) ∧
    ∀ out config, normalize args = some out → analyzer = some config → make out = .ok (some config)

/-- The bytes in front of the first digit. -/
def beforeDigits (text : ByteString) : ByteString := text.takeWhile fun b => !isDigit b

/-- The first digits are in range, and no minus sign comes before an allowed or missing number. -/
def SignFree (text : ByteString) : Prop :=
  if firstDigits text = [] then minus ∉ beforeDigits text
  else digitsValue (firstDigits text) < 2 ^ 63 ∧
    (0 < digitsValue (firstDigits text) ∧ digitsValue (firstDigits text) ≤ 4096 →
      minus ∉ beforeDigits text)

/-- Behind the bytes that are no digits stands nothing or a digit. -/
theorem behind_cases (text : ByteString) :
    (text.dropWhile fun b => !isDigit b) = [] ∨
      ∃ b rest, (text.dropWhile fun b => !isDigit b) = b :: rest ∧ isDigit b = true := by
  cases htext : text.dropWhile fun b => !isDigit b with
  | nil => exact .inl rfl
  | cons b rest =>
    have hhead := List.head?_dropWhile_not (fun b => !isDigit b) text
    rw [htext] at hhead
    exact .inr ⟨b, rest, rfl, by simpa using hhead⟩

theorem stoll_firstDigits {text : ByteString} (h : firstDigits text ≠ []) :
    stoll (firstDigits text) = if digitsValue (firstDigits text) < 2 ^ 63 then
      .ok (digitsValue (firstDigits text)) else .error .out_of_range := by
  have hall : ∀ b ∈ firstDigits text, isDigit b = true := fun b hb => List.mem_takeWhile_imp hb
  cases hdigits : firstDigits text with
  | nil => exact absurd hdigits h
  | cons b rest =>
    rw [hdigits] at hall
    rw [stoll_of_digit (hall b List.mem_cons_self), List.takeWhile_eq_self_iff.mpr hall]

theorem makeNumHashes_eq {args text : ByteString} (h : numHashesText args = some text) :
    makeNumHashes args =
      if firstDigits text = [] then .ok (some 128)
      else if digitsValue (firstDigits text) < 2 ^ 63 then
        .ok (if 0 < digitsValue (firstDigits text) ∧ digitsValue (firstDigits text) ≤ 4096 then
          some (UInt32.ofNat (digitsValue (firstDigits text))) else none)
      else .error .out_of_range := by
  unfold makeNumHashes
  rw [h]
  dsimp only
  split
  next => rfl
  next hdigits =>
    rw [stoll_firstDigits hdigits]
    split
    next =>
      unfold kMaxMinHashK
      rw [Except.map, Int.toNat_natCast]
      split
      next => rw [if_neg (by omega)]
      next => rw [if_pos (by omega)]
    next => rfl

/-- Without a minus sign in front of the digits, both conversions begin at the same byte. -/
theorem numberText_of_notMem {text : ByteString} (h : minus ∉ beforeDigits text) :
    numberText text = text.dropWhile fun b => !isDigit b := by
  have hpass : ∀ b ∈ beforeDigits text, (!(isDigit b || b = minus)) = true := by
    intro b hb
    have hdigit := List.mem_takeWhile_imp hb
    have hne : b ≠ minus := fun heq => h (heq ▸ hb)
    simpa [hne] using hdigit
  have hsplit : numberText text =
      (text.dropWhile fun b => !isDigit b).dropWhile fun b => !(isDigit b || b = minus) := by
    rw [← List.dropWhile_append_of_pos hpass, beforeDigits, List.takeWhile_append_dropWhile]
    rfl
  rw [hsplit]
  rcases behind_cases text with hnil | ⟨b, rest, hcons, hb⟩
  · rw [hnil]
    rfl
  · rw [hcons, List.dropWhile_cons_of_neg (by simp [hb])]

theorem acceptsNumber_of_notMem {text : ByteString} (h : minus ∉ beforeDigits text) :
    acceptsNumber text = true ↔ firstDigits text = [] ∨
      0 < digitsValue (firstDigits text) ∧ digitsValue (firstDigits text) ≤ 4096 := by
  unfold acceptsNumber
  rw [numberText_of_notMem h]
  rcases behind_cases text with hnil | ⟨b, rest, hcons, hb⟩
  · have hdigits : firstDigits text = [] := by rw [firstDigits, hnil, List.takeWhile_nil]
    rw [if_pos hnil]
    exact iff_of_true rfl (.inl hdigits)
  · have hdigits : firstDigits text = (b :: rest).takeWhile isDigit := by rw [firstDigits, hcons]
    have hne : firstDigits text ≠ [] := by
      rw [hdigits, List.takeWhile_cons_of_pos hb]
      exact List.cons_ne_nil _ _
    rw [hcons, if_neg (List.cons_ne_nil b rest), stoll_of_digit hb, ← hdigits, or_iff_right hne]
    split
    next val hval =>
      split at hval
      next =>
        obtain rfl := Except.ok.inj hval
        simp [kMaxMinHashK]
      next => cases hval
    next hval =>
      split at hval
      next => cases hval
      next hlarge => exact iff_of_false Bool.false_ne_true (by omega)

/-- A minus sign in front of the digits is never accepted. -/
theorem acceptsNumber_of_mem {text : ByteString} (h : minus ∈ beforeDigits text) :
    acceptsNumber text = false := by
  obtain ⟨front, rest, hsplit, hfront⟩ := List.eq_append_cons_of_mem h
  have hpass : ∀ b ∈ front, (!(isDigit b || b = minus)) = true := by
    intro b hb
    have hmem : b ∈ beforeDigits text := by
      rw [hsplit]
      exact List.mem_append_left _ hb
    have hdigit := List.mem_takeWhile_imp hmem
    have hne : b ≠ minus := fun heq => hfront (heq ▸ hb)
    simpa [hne] using hdigit
  have hnumber : ∃ more, numberText text = minus :: more := by
    have htext := List.takeWhile_append_dropWhile (p := fun b => !isDigit b) (l := text)
    rw [← beforeDigits, hsplit, List.append_assoc] at htext
    unfold numberText
    rw [← htext, List.dropWhile_append_of_pos hpass, List.cons_append,
      List.dropWhile_cons_of_neg (by decide)]
    exact ⟨_, rfl⟩
  obtain ⟨more, hmore⟩ := hnumber
  unfold acceptsNumber
  rw [hmore, if_neg (List.cons_ne_nil minus more)]
  split
  next val hval => simp [stoll_minus_le hval]
  next => rfl

/-- On the number alone. -/
theorem numbers_agree_iff {args text : ByteString} (h : numHashesText args = some text) :
    (∃ numHashes, makeNumHashes args = .ok numHashes ∧
      (acceptsNumber text = true ↔ numHashes.isSome = true)) ↔ SignFree text := by
  rw [makeNumHashes_eq h]
  unfold SignFree
  by_cases hminus : minus ∈ beforeDigits text
  · rw [acceptsNumber_of_mem hminus]
    split
    next => simp [hminus]
    next =>
      split
      next hlt => split <;> simp_all
      next hlarge =>
        refine iff_of_false ?_ fun hfree => hlarge hfree.1
        rintro ⟨_, hthrown, -⟩
        cases hthrown
  · rw [acceptsNumber_of_notMem hminus]
    split
    next hnil => simp [hnil, hminus]
    next hne =>
      split
      next hlt => split <;> simp_all
      next hlarge =>
        refine iff_of_false ?_ fun hfree => hlarge hfree.1
        rintro ⟨_, hthrown, -⟩
        cases hthrown

/-- In the canonical form the string `delimiter` comes first as the type. -/
theorem make_canonical : make canonical =
    .ok (some { analyzerProperties := delimiterProperties (lit "delimiter") }) := by
  decide +kernel

theorem not_agrees_of_default {args : ByteString} (h : args = [] ∨ args = lit "\x7b\x7d") :
    ¬ Agrees args := by
  rintro ⟨analyzer, hmake, -, hsame⟩
  rw [make, if_pos h] at hmake
  have hconfig := hsame canonical {} (by rw [normalize, if_pos h]) (Except.ok.inj hmake).symm
  rw [make_canonical] at hconfig
  exact absurd hconfig (by decide)

/-- On any other text, the output is the text itself. -/
theorem agrees_iff_numbers {args : ByteString} (h : ¬ (args = [] ∨ args = lit "\x7b\x7d")) :
    Agrees args ↔ ∃ numHashes, makeNumHashes args = .ok numHashes ∧
      ((normalize args).isSome = true ↔ numHashes.isSome = true) := by
  have hout : ∀ out, normalize args = some out → out = args := by
    intro out hnormalize
    rw [normalize, if_neg h] at hnormalize
    split at hnormalize
    next => exact (Option.some.inj hnormalize).symm
    next =>
      split at hnormalize
      next => exact (Option.some.inj hnormalize).symm
      next => cases hnormalize
  unfold Agrees
  constructor
  · rintro ⟨analyzer, hmake, hiff, -⟩
    rw [make, if_neg h] at hmake
    cases hnumber : makeNumHashes args with
    | error e =>
      rw [hnumber] at hmake
      cases hmake
    | ok numHashes =>
      rw [hnumber] at hmake
      obtain rfl := Except.ok.inj hmake
      rw [Option.isSome_map] at hiff
      exact ⟨numHashes, rfl, hiff⟩
  · rintro ⟨numHashes, hnumber, hiff⟩
    obtain ⟨analyzer, hmake, hsome⟩ : ∃ analyzer, make args = .ok analyzer ∧
        analyzer.isSome = numHashes.isSome := by
      rw [make, if_neg h, hnumber]
      exact ⟨_, rfl, Option.isSome_map⟩
    refine ⟨analyzer, hmake, by rwa [hsome], ?_⟩
    intro out config hnormalize hconfig
    rw [hout out hnormalize, hmake, hconfig]

/-- `make` and `normalize` agree exactly on the texts that are not the default
ones and whose number has no minus sign in front. -/
theorem make_agrees_with_normalize_iff (args : ByteString) :
    Agrees args ↔ args ≠ [] ∧ args ≠ lit "\x7b\x7d" ∧
      ∀ text, numHashesText args = some text → SignFree text := by
  by_cases h : args = [] ∨ args = lit "\x7b\x7d"
  · refine iff_of_false (not_agrees_of_default h) ?_
    rintro ⟨hempty, hbraces, -⟩
    exact h.elim hempty hbraces
  · obtain ⟨hempty, hbraces⟩ := not_or.mp h
    rw [agrees_iff_numbers h, normalize, if_neg h]
    cases htext : numHashesText args with
    | none =>
      refine iff_of_true ⟨some 128, ?_, Iff.rfl⟩ ⟨hempty, hbraces, fun _ hnone => ?_⟩
      · rw [makeNumHashes, htext]
      · cases hnone
    | some text =>
      have hsome : (if acceptsNumber text = true then some args else none).isSome = true ↔
          acceptsNumber text = true := by
        split <;> simp_all
      simp only [hsome]
      rw [numbers_agree_iff htext]
      refine ⟨fun hfree => ⟨hempty, hbraces, ?_⟩, fun hall => hall.2.2 text rfl⟩
      intro other hother
      exact Option.some.inj hother ▸ hfree

/-- The default configuration: what `normalize` makes of it has another delimiter. -/
theorem default_does_not_agree : make [] = .ok (some {}) ∧ normalize [] = some canonical ∧
    make canonical = .ok (some { analyzerProperties := delimiterProperties (lit "delimiter") }) ∧
    ¬ Agrees [] :=
  ⟨by decide, by decide, by decide +kernel, not_agrees_of_default (.inl rfl)⟩

end MinHashAnalyzer
end OpenArangoDBCore.IResearch
