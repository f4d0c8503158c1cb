import OpenArangoDBCore.Basics
import OpenArangoDBCore.Lib.Redaction

/-!
# Masks of card and phone numbers (AttributeMasking.cpp)

Both masks count the digits and then hide all but the last four of them. The
counters are of type `int`; an increment past `INT_MAX` has no defined result.
-/

namespace OpenArangoDBCore.Maskings
open Redaction

def maskChar : Byte := 0x78

/-- `std::isdigit`. -/
def isdigit (ch : Byte) : Bool := 0x30 ≤ ch.val ∧ ch.val ≤ 0x39

/-- `++` on an `int` that is not negative. -/
def increment (counter : ℕ) : Option ℕ := if counter + 1 < 2 ^ 31 then some (counter + 1) else none

def countDigits : ByteString → ℕ → Option ℕ
  | [], digitCount => some digitCount
  | ch :: rest, digitCount =>
    if isdigit ch then (increment digitCount).bind (countDigits rest)
    else countDigits rest digitCount

/-- The second pass; `masked` stays under `digitsToMask`, so its increments are
defined. -/
def maskLoop (plain : Byte → Byte) (digitsToMask : ℕ) : ByteString → ℕ → ByteString
  | [], _ => []
  | ch :: rest, masked =>
    if isdigit ch then
      if masked < digitsToMask then maskChar :: maskLoop plain digitsToMask rest (masked + 1)
      else ch :: maskLoop plain digitsToMask rest masked
    else plain ch :: maskLoop plain digitsToMask rest masked

def maskDigits (plain : Byte → Byte) (input : ByteString) : Option ByteString :=
  (countDigits input 0).map fun digitCount =>
    let digitsToMask := if 4 < digitCount then digitCount - 4 else 0
    maskLoop plain digitsToMask input 0

def CreditCardMask.mask : ByteString → Option ByteString := maskDigits id

namespace PhoneMask

def isSeparator (ch : Byte) : Bool :=
  ch = 0x2D ∨ ch = 0x28 ∨ ch = 0x29 ∨ ch = 0x20 ∨ ch = 0x2E

def mask : ByteString → Option ByteString :=
  maskDigits fun ch => if isSeparator ch then ch else maskChar

end PhoneMask

/-! ### The two passes -/

theorem countDigits_eq (input : ByteString) {digitCount : ℕ} (h : digitCount < 2 ^ 31) :
    countDigits input digitCount =
      if digitCount + input.countP isdigit < 2 ^ 31 then some (digitCount + input.countP isdigit)
      else none := by
  induction input generalizing digitCount with
  | nil => rw [countDigits, List.countP_nil, Nat.add_zero, if_pos h]
  | cons ch rest ih =>
    rw [countDigits]
    by_cases hch : isdigit ch = true
    · rw [if_pos hch, List.countP_cons_of_pos hch, increment]
      by_cases hnext : digitCount + 1 < 2 ^ 31
      · have harrange : digitCount + 1 + rest.countP isdigit =
            digitCount + (rest.countP isdigit + 1) := by omega
        rw [if_pos hnext, Option.bind_some, ih hnext, harrange]
      · rw [if_neg hnext, if_neg (by omega)]
        rfl
    · rw [if_neg hch, List.countP_cons_of_neg hch, ih h]

/-- With as many digits left to mask as the rest has over four, the loop leaves
the last four. -/
theorem maskLoop_eq (plain : Byte → Byte) {digitsToMask : ℕ} (input : ByteString) {masked : ℕ}
    (h : digitsToMask - masked = input.countP isdigit - 4) :
    maskLoop plain digitsToMask input masked = revealLast isdigit maskChar plain 4 input := by
  induction input generalizing masked with
  | nil => rfl
  | cons ch rest ih =>
    rw [maskLoop]
    by_cases hch : isdigit ch = true
    · rw [List.countP_cons_of_pos hch] at h
      rw [if_pos hch]
      by_cases hlt : rest.countP isdigit < 4
      · rw [if_neg (by omega), revealLast_cons_of_lt _ _ _ _ hch hlt, ih (by omega)]
      · rw [if_pos (by omega), revealLast_cons_of_le _ _ _ _ hch (by omega), ih (by omega)]
    · rw [List.countP_cons_of_neg hch] at h
      rw [if_neg hch, revealLast_cons_of_plain _ _ _ _ (Bool.eq_false_of_not_eq_true hch), ih h]

theorem maskDigits_eq (plain : Byte → Byte) (input : ByteString) :
    maskDigits plain input =
      if input.countP isdigit < 2 ^ 31 then some (revealLast isdigit maskChar plain 4 input)
      else none := by
  rw [maskDigits, countDigits_eq input (by norm_num), Nat.zero_add]
  by_cases h : input.countP isdigit < 2 ^ 31
  · rw [if_pos h, if_pos h, Option.map_some]
    dsimp only
    rw [maskLoop_eq plain input]
    split
    all_goals omega
  · rw [if_neg h, if_neg h, Option.map_none]

/-! ### What the masks reveal -/

/-- The output of a mask that keeps the last four digits and, of the other
bytes, those that `keeps` names. -/
structure RevealsLastFour (keeps : Byte → Bool) (mask : ByteString → Option ByteString)
    (input output : ByteString) : Prop where
  masked : mask input = some output
  length : output.length = input.length
  digits : output.filter isdigit = lastSecrets isdigit 4 input
  digit : ∀ (i : ℕ) (ch : Byte), input[i]? = some ch → isdigit ch = true →
    output[i]? = some (if (input.drop (i + 1)).countP isdigit < 4 then ch else maskChar)
  other : ∀ (i : ℕ) (ch : Byte), input[i]? = some ch → isdigit ch = false →
    output[i]? = some (if keeps ch then ch else maskChar)
  twice : mask output = some output
  hidden : ∀ input', SameShape isdigit input input' →
    lastSecrets isdigit 4 input = lastSecrets isdigit 4 input' → mask input' = some output

section
variable {keeps : Byte → Bool} {plain : Byte → Byte}

theorem maskDigits_revealsLastFour
    (hplain : ∀ ch, isdigit ch = false → plain ch = if keeps ch then ch else maskChar)
    {input : ByteString} (h : input.countP isdigit < 2 ^ 31) :
    RevealsLastFour keeps (maskDigits plain) input
      (revealLast isdigit maskChar plain 4 input) := by
  have hdigit : ∀ ch, isdigit ch = false → isdigit (plain ch) = false := by
    intro ch hch
    rw [hplain ch hch]
    split
    · exact hch
    · rfl
  have hmask : plain maskChar = maskChar := (hplain maskChar rfl).trans (ite_self maskChar)
  have hfixed : ∀ ch, isdigit ch = false → plain (plain ch) = plain ch := by
    intro ch hch
    by_cases hkeep : keeps ch = true
    · have hsame : plain ch = ch := (hplain ch hch).trans (if_pos hkeep)
      rw [hsame, hsame]
    · rw [(hplain ch hch).trans (if_neg hkeep), hmask]
  have hmin : (revealLast isdigit maskChar plain 4 input).countP isdigit =
      min 4 (input.countP isdigit) := countP_revealLast 4 rfl hdigit input
  exact
    { masked := by rw [maskDigits_eq, if_pos h]
      length := length_revealLast _ _ _ _ input
      digits := filter_revealLast 4 rfl hdigit input
      digit := by
        intro i ch hget hch
        rw [getElem?_revealLast, hget, Option.map_some, if_pos hch]
      other := by
        intro i ch hget hch
        rw [getElem?_revealLast, hget, Option.map_some,
          if_neg (by rw [hch]; exact Bool.false_ne_true), hplain ch hch]
      twice := by
        rw [maskDigits_eq, if_pos (by omega), revealLast_revealLast 4 rfl hdigit hfixed hmask]
      hidden := by
        intro input' hshape hlast
        rw [maskDigits_eq, if_pos (SameShape.countP_eq hshape ▸ h),
          revealLast_eq_of_sameShape 4 hshape hlast] }

theorem maskDigits_reveals_iff
    (hplain : ∀ ch, isdigit ch = false → plain ch = if keeps ch then ch else maskChar)
    (input : ByteString) :
    (∃ output, RevealsLastFour keeps (maskDigits plain) input output) ↔
      input.countP isdigit < 2 ^ 31 := by
  constructor
  · intro ⟨output, h⟩
    by_contra hlarge
    have hnone := h.masked
    rw [maskDigits_eq, if_neg hlarge] at hnone
    exact absurd hnone nofun
  · intro h
    exact ⟨_, maskDigits_revealsLastFour hplain h⟩

end

/-- Both masks reveal the last four digits and no more of every input whose
digits an `int` can count. -/
theorem masks_reveal_last_four_iff (input : ByteString) :
    ((∃ output, RevealsLastFour (fun _ => true) CreditCardMask.mask input output) ↔
        input.countP isdigit < 2 ^ 31) ∧
      ((∃ output, RevealsLastFour PhoneMask.isSeparator PhoneMask.mask input output) ↔
        input.countP isdigit < 2 ^ 31) :=
  ⟨maskDigits_reveals_iff (fun _ _ => rfl) input, maskDigits_reveals_iff (fun _ _ => rfl) input⟩

/-- The count of 2147483648 digits overflows. -/
theorem masks_overflow :
    ¬ ∀ input : ByteString,
      (∃ output, RevealsLastFour (fun _ => true) CreditCardMask.mask input output) ∧
        ∃ output, RevealsLastFour PhoneMask.isSeparator PhoneMask.mask input output := by
  intro h
  obtain ⟨hcard, -⟩ := h (List.replicate (2 ^ 31) 0x30)
  have hlt := (maskDigits_reveals_iff (fun _ _ => rfl) _).mp hcard
  rw [List.countP_replicate, if_pos (by decide)] at hlt
  exact lt_irrefl _ hlt

end OpenArangoDBCore.Maskings
