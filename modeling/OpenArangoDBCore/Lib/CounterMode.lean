import Mathlib.Data.List.OfFn
import Mathlib.Data.Nat.Digits.Lemmas
import Mathlib.Tactic

/-!
# Counter mode

A stream is combined into a text from a position on. In counter mode the
stream consists of blocks of one length, and a block is computed from its
number, a big-endian numeral of fixed length that wraps to zero.
-/

namespace OpenArangoDBCore.CounterMode

/-! ### Big-endian numerals -/

section Numerals
variable {b : ℕ}

def value (digits : List (Fin b)) : ℕ := digits.foldl (fun n d => b * n + d) 0

theorem value_snoc (digits : List (Fin b)) (d : Fin b) :
    value (digits ++ [d]) = b * value digits + d := by
  simp [value]

theorem value_lt [NeZero b] (digits : List (Fin b)) : value digits < b ^ digits.length := by
  induction digits using List.reverseRecOn with
  | nil => simp [value]
  | append_singleton digits d ih =>
    rw [value_snoc, List.length_append, List.length_singleton, pow_succ]
    calc b * value digits + d < b * value digits + b := Nat.add_lt_add_left d.isLt _
      _ = b * (value digits + 1) := by ring
      _ ≤ b * b ^ digits.length := Nat.mul_le_mul_left b ih
      _ = b ^ digits.length * b := Nat.mul_comm _ _

/-- The last `len` digits of a number. -/
def numeral [NeZero b] : ℕ → ℕ → List (Fin b)
  | 0, _ => []
  | len + 1, n => numeral len (n / b) ++ [Fin.ofNat b n]

variable [NeZero b]

theorem numeral_length (len n : ℕ) : (numeral len n : List (Fin b)).length = len := by
  induction len generalizing n with
  | zero => rfl
  | succ len ih => rw [numeral, List.length_append, ih, List.length_singleton]

theorem value_numeral (len n : ℕ) : value (numeral len n : List (Fin b)) = n % b ^ len := by
  induction len generalizing n with
  | zero => simp [numeral, value, Nat.mod_one]
  | succ len ih =>
    rw [numeral, value_snoc, ih, pow_succ', Nat.mod_mul, Fin.val_ofNat, Nat.add_comm]

theorem numeral_value (digits : List (Fin b)) : numeral digits.length (value digits) = digits := by
  induction digits using List.reverseRecOn with
  | nil => rfl
  | append_singleton digits d ih =>
    have hb : 0 < b := NeZero.pos b
    have hhigh : (b * value digits + d) / b = value digits := by
      rw [Nat.mul_add_div hb, Nat.div_eq_of_lt d.isLt, Nat.add_zero]
    have hlow : Fin.ofNat b (b * value digits + d) = d := by
      apply Fin.ext
      rw [Fin.val_ofNat, Nat.mul_add_mod, Nat.mod_eq_of_lt d.isLt]
    rw [List.length_append, List.length_singleton, numeral, value_snoc, hhigh, hlow, ih]

theorem numeral_congr {len m n : ℕ} (h : m % b ^ len = n % b ^ len) :
    (numeral len m : List (Fin b)) = numeral len n := by
  have hm := numeral_value (numeral len m : List (Fin b))
  have hn := numeral_value (numeral len n : List (Fin b))
  rw [numeral_length, value_numeral] at hm hn
  rw [← hm, ← hn, h]

end Numerals

/-! ### Streams combined into texts -/

section Combine
variable {α β : Type} (f : α → β → α)

/-- Element `j` of the text meets element `pos + j` of the stream. -/
def combineFrom (stream : ℕ → β) (pos : ℕ) (xs : List α) : List α :=
  xs.mapIdx fun j x => f x (stream (pos + j))

variable {f} {stream : ℕ → β}

@[simp] theorem combineFrom_length (pos : ℕ) (xs : List α) :
    (combineFrom f stream pos xs).length = xs.length := List.length_mapIdx

theorem combineFrom_append (pos : ℕ) (xs ys : List α) :
    combineFrom f stream pos (xs ++ ys) =
      combineFrom f stream pos xs ++ combineFrom f stream (pos + xs.length) ys := by
  unfold combineFrom
  rw [List.mapIdx_append]
  simp only [Nat.add_assoc, Nat.add_comm xs.length]

theorem combineFrom_congr {stream' : ℕ → β} {pos pos' : ℕ}
    (h : ∀ j, stream (pos + j) = stream' (pos' + j)) (xs : List α) :
    combineFrom f stream pos xs = combineFrom f stream' pos' xs := by
  unfold combineFrom
  simp only [h]

theorem combineFrom_drop (pos k : ℕ) (xs : List α) (hk : k ≤ xs.length) :
    combineFrom f stream (pos + k) (xs.drop k) = (combineFrom f stream pos xs).drop k := by
  have hlen : (xs.take k).length = k := List.length_take_of_le hk
  conv_rhs => rw [← List.take_append_drop k xs, combineFrom_append, hlen]
  rw [List.drop_left' (by rw [combineFrom_length, hlen])]

theorem combineFrom_take (pos k : ℕ) (xs : List α) :
    combineFrom f stream pos (xs.take k) = (combineFrom f stream pos xs).take k := by
  apply List.ext_getElem
  · simp
  · intro i h₁ h₂
    simp [combineFrom]

theorem combineFrom_twice (hf : ∀ x y, f (f x y) y = x) (pos : ℕ) (xs : List α) :
    combineFrom f stream pos (combineFrom f stream pos xs) = xs := by
  apply List.ext_getElem
  · simp
  · intro i h₁ h₂
    simp [combineFrom, hf]

theorem combineFrom_eq_self_iff {pos : ℕ} {xs : List α} : combineFrom f stream pos xs = xs ↔
    ∀ j (h : j < xs.length), f xs[j] (stream (pos + j)) = xs[j] := by
  rw [List.ext_getElem_iff]
  simp [combineFrom]

end Combine

/-! ### The stream of counter mode -/

section Stream
variable {β : Type}

/-- Element `pos` of the blocks `start`, `start + 1` and so on, of length `len` each. -/
def counterStream (block : ℕ → ℕ → β) (len start pos : ℕ) : β :=
  block (start + pos / len) (pos % len)

/-- A stream that starts `k` blocks later, looked at from within a block. -/
theorem counterStream_add (block : ℕ → ℕ → β) {len : ℕ} (hlen : 0 < len) (start k pos : ℕ) :
    counterStream block len (start + k) pos = counterStream block len start (k * len + pos) := by
  unfold counterStream
  rw [Nat.mul_add_mod_self_right, Nat.add_comm (k * len), Nat.add_mul_div_right _ _ hlen]
  congr 1
  omega

end Stream
end OpenArangoDBCore.CounterMode
