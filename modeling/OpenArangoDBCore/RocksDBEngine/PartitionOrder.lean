import OpenArangoDBCore.Lib.PaddedLex
import OpenArangoDBCore.RocksDBEngine.ParallelFill

/-!
# When the partition ranges do not overlap (KeySpacePartitioner.cpp:13-99)

With exact fractions the split points interpolate every byte position on its
own. A position at which the upper bound has the smaller byte runs downwards,
and unless an earlier position rises with every split it takes the first
split point below the lower bound.
-/

namespace OpenArangoDBCore.RocksDBEngine
open Segments PaddedLex

/-! ### One byte position -/

section Bytes
variable (lo hi : Byte) (n i : ℕ)

def byteAt : Byte := exactOps.mixByte lo hi (exactOps.ratio i n)

/- The value before truncation. -/
def exactByte : ℚ := (lo.val : ℚ) + ((hi.val : ℚ) - lo.val) * ((i : ℚ) / n)

theorem toByte_floor (val : ℚ) : ((toByte val).val : ℤ) = ⌊max 0 (min val 255)⌋ := by
  have hpos : 0 ≤ ⌊max 0 (min val 255)⌋ := Int.floor_nonneg.mpr (le_max_left _ _)
  have hle : ⌊max 0 (min val 255)⌋ ≤ 255 := by
    have hmax : max 0 (min val 255) ≤ 255 := max_le (by norm_num) (min_le_right _ _)
    have h := Int.floor_le_floor hmax
    have h255 : ⌊(255 : ℚ)⌋ = 255 := by norm_num
    omega
  unfold toByte
  simp only [Fin.ofNat]
  omega

theorem toByte_val (val : ℚ) (h0 : 0 ≤ val) (h1 : val ≤ 255) : ((toByte val).val : ℤ) = ⌊val⌋ := by
  rw [toByte_floor, min_eq_left h1, max_eq_right h0]

theorem toByte_mono {v w : ℚ} (h : v ≤ w) : toByte v ≤ toByte w := by
  have hv := toByte_floor v
  have hw := toByte_floor w
  have hf := Int.floor_le_floor (max_le_max (le_refl (0 : ℚ)) (min_le_min_right 255 h))
  rw [Fin.le_def]
  omega

theorem ratio_bounds (hn : 0 < n) (hi : i ≤ n) : (0 : ℚ) ≤ (i : ℚ) / n ∧ (i : ℚ) / n ≤ 1 := by
  have hn' : (0 : ℚ) < n := by exact_mod_cast hn
  constructor
  · positivity
  · rw [div_le_one hn']
    exact_mod_cast hi

theorem byteAt_val (hn : 0 < n) (hin : i ≤ n) :
    ((byteAt lo hi n i).val : ℤ) = ⌊exactByte lo hi n i⌋ := by
  obtain ⟨h0, h1⟩ := ratio_bounds n i hn hin
  have hlo : (0 : ℚ) ≤ lo.val := by positivity
  have hhi : (0 : ℚ) ≤ hi.val := by positivity
  have hlo' : (lo.val : ℚ) ≤ 255 := by exact_mod_cast Nat.le_of_lt_succ lo.isLt
  have hhi' : (hi.val : ℚ) ≤ 255 := by exact_mod_cast Nat.le_of_lt_succ hi.isLt
  apply toByte_val
  · show 0 ≤ (lo.val : ℚ) + ((hi.val : ℚ) - lo.val) * ((i : ℚ) / n)
    nlinarith
  · show (lo.val : ℚ) + ((hi.val : ℚ) - lo.val) * ((i : ℚ) / n) ≤ 255
    nlinarith

theorem byteAt_zero (hn : 0 < n) : byteAt lo hi n 0 = lo := by
  have h := byteAt_val lo hi n 0 hn (Nat.zero_le n)
  simp only [exactByte, Nat.cast_zero, zero_div, mul_zero, add_zero] at h
  have hf : ⌊((lo.val : ℕ) : ℚ)⌋ = lo.val := Int.floor_natCast _
  rw [hf] at h
  exact Fin.ext (by exact_mod_cast h)

theorem byteAt_full (hn : 0 < n) : byteAt lo hi n n = hi := by
  have h := byteAt_val lo hi n n hn (le_refl n)
  have hn' : (n : ℚ) ≠ 0 := by exact_mod_cast hn.ne'
  have hx : exactByte lo hi n n = hi.val := by
    unfold exactByte
    rw [div_self hn']
    ring
  have hf : ⌊((hi.val : ℕ) : ℚ)⌋ = hi.val := Int.floor_natCast _
  rw [hx, hf] at h
  exact Fin.ext (by exact_mod_cast h)

theorem byteAt_rises (hn : 0 < n) (hin : i < n) (h : lo ≤ hi) :
    byteAt lo hi n i ≤ byteAt lo hi n (i + 1) := by
  have h0 := byteAt_val lo hi n i hn hin.le
  have h1 := byteAt_val lo hi n (i + 1) hn hin
  have hx : exactByte lo hi n i ≤ exactByte lo hi n (i + 1) := by
    have hlh : (lo.val : ℚ) ≤ hi.val := by exact_mod_cast h
    unfold exactByte
    have hr : (i : ℚ) / n ≤ ((i + 1 : ℕ) : ℚ) / n := by
      apply div_le_div_of_nonneg_right _ (by positivity)
      push_cast
      linarith
    nlinarith
  have hf := Int.floor_le_floor hx
  rw [Fin.le_def]
  omega

/-- A difference of at least `n` shows in every step. -/
theorem byteAt_climbs (hn : 0 < n) (hin : i < n) (h : lo.val + n ≤ hi.val) :
    byteAt lo hi n i < byteAt lo hi n (i + 1) := by
  have h0 := byteAt_val lo hi n i hn hin.le
  have h1 := byteAt_val lo hi n (i + 1) hn hin
  have hn' : (0 : ℚ) < n := by exact_mod_cast hn
  have hx : exactByte lo hi n i + 1 ≤ exactByte lo hi n (i + 1) := by
    have hlh : (lo.val : ℚ) + n ≤ hi.val := by exact_mod_cast h
    have hone : 1 ≤ ((hi.val : ℚ) - lo.val) / n := by
      rw [le_div_iff₀ hn']
      linarith
    have hsplit : exactByte lo hi n (i + 1) = exactByte lo hi n i + ((hi.val : ℚ) - lo.val) / n := by
      unfold exactByte
      push_cast
      ring
    rw [hsplit]
    linarith
  have hf := Int.floor_le_floor hx
  rw [Int.floor_add_one] at hf
  rw [Fin.lt_def]
  omega

/-- A byte that has to fall falls with the first split. -/
theorem byteAt_falls (hn : 0 < n) (h : hi < lo) : byteAt lo hi n 1 < lo := by
  have h1 := byteAt_val lo hi n 1 hn hn
  have hn' : (0 : ℚ) < n := by exact_mod_cast hn
  have hlh : (hi.val : ℚ) < lo.val := by exact_mod_cast h
  have hx : exactByte lo hi n 1 < lo.val := by
    have hr : (0 : ℚ) < ((1 : ℕ) : ℚ) / n := by positivity
    unfold exactByte
    nlinarith
  have hf : ⌊exactByte lo hi n 1⌋ < lo.val := Int.floor_lt.mpr (by exact_mod_cast hx)
  rw [Fin.lt_def]
  omega

/-- A smaller rise does not show at the first split. -/
theorem byteAt_keeps (hn : 0 < n) (h : lo ≤ hi) (hlt : hi.val < lo.val + n) :
    byteAt lo hi n 1 = lo := by
  have h1 := byteAt_val lo hi n 1 hn hn
  have hn' : (0 : ℚ) < n := by exact_mod_cast hn
  have hlh : (lo.val : ℚ) ≤ hi.val := by exact_mod_cast h
  have hlt' : (hi.val : ℚ) < lo.val + n := by exact_mod_cast hlt
  have hr : (0 : ℚ) < ((1 : ℕ) : ℚ) / n := by positivity
  have hx : exactByte lo hi n 1 < lo.val + 1 := by
    have hone : ((hi.val : ℚ) - lo.val) * (((1 : ℕ) : ℚ) / n) < 1 := by
      rw [Nat.cast_one, mul_one_div, div_lt_one hn']
      linarith
    unfold exactByte
    linarith
  have hx' : (lo.val : ℚ) ≤ exactByte lo hi n 1 := by
    unfold exactByte
    nlinarith
  have hf : ⌊exactByte lo hi n 1⌋ = lo.val := by
    rw [Int.floor_eq_iff]
    exact ⟨by exact_mod_cast hx', by exact_mod_cast hx⟩
  exact Fin.ext (by omega)

end Bytes

/-! ### Trailing zeros -/

theorem trimReversed_spec (bytes : ByteString) :
    ∃ n, bytes = List.replicate n 0 ++ trimReversed bytes ∧
      ((trimReversed bytes).length ≤ 1 ∨ ∃ b rest, trimReversed bytes = b :: rest ∧ b ≠ 0) := by
  induction bytes with
  | nil => exact ⟨0, rfl, .inl (Nat.zero_le 1)⟩
  | cons b rest ih =>
    cases rest with
    | nil =>
      have hone : trimReversed [b] = [b] := by
        unfold trimReversed
        split
        next h => simp at h
        next => rfl
      exact ⟨0, by rw [hone]; rfl, .inl (by rw [hone]; rfl)⟩
    | cons c rest =>
      by_cases hb : b = 0
      · obtain ⟨n, hn, hlast⟩ := ih
        have hskip : trimReversed (b :: c :: rest) = trimReversed (c :: rest) := by
          rw [hb]
          rfl
        refine ⟨n + 1, ?_, by rw [hskip]; exact hlast⟩
        rw [hskip, List.replicate_succ, List.cons_append, ← hn, hb]
      · have hkeep : trimReversed (b :: c :: rest) = b :: c :: rest := by
          unfold trimReversed
          split
          next h => cases h; exact absurd rfl hb
          next => rfl
        exact ⟨0, by rw [hkeep]; rfl, .inr ⟨b, c :: rest, hkeep, hb⟩⟩

theorem trimZeros_spec (bytes : ByteString) : ∃ n, bytes = trimZeros bytes ++ List.replicate n 0 ∧
    ((trimZeros bytes).length ≤ 1 ∨ ∃ front b, trimZeros bytes = front ++ [b] ∧ b ≠ 0) := by
  obtain ⟨n, hn, hlast⟩ := trimReversed_spec bytes.reverse
  refine ⟨n, ?_, ?_⟩
  · have h := congrArg List.reverse hn
    rw [List.reverse_reverse, List.reverse_append, List.reverse_replicate] at h
    exact h
  · unfold trimZeros
    rw [List.length_reverse]
    apply hlast.imp id
    intro h
    obtain ⟨b, rest, hb, hb0⟩ := h
    exact ⟨rest.reverse, b, by rw [hb, List.reverse_cons], hb0⟩

theorem trimZeros_getD (bytes : ByteString) (i : ℕ) :
    (trimZeros bytes).getD i 0 = bytes.getD i 0 := by
  obtain ⟨n, hn, -⟩ := trimZeros_spec bytes
  have h := getD_append_replicate (z := (0 : Byte)) (trimZeros bytes) n i
  rw [← hn] at h
  exact h.symm

theorem length_of_getD_last {front : ByteString} {b : Byte} {bytes : ByteString} (hb : b ≠ 0)
    (h : ∀ i, (front ++ [b]).getD i 0 = bytes.getD i 0) : (front ++ [b]).length ≤ bytes.length := by
  have hi : bytes.getD front.length 0 ≠ 0 := by
    rw [← h front.length, List.getD_append_right _ _ _ _ (le_refl _), Nat.sub_self]
    exact hb
  have hlt := length_of_getD_ne hi
  rw [List.length_append, List.length_singleton]
  exact hlt

/-- The trimmed string is the shortest of its value. -/
theorem trimZeros_length_le (bytes other : ByteString) (hne : other ≠ [])
    (h : ∀ i, bytes.getD i 0 = other.getD i 0) : (trimZeros bytes).length ≤ other.length := by
  obtain ⟨n, -, hlen | ⟨front, b, hf, hb⟩⟩ := trimZeros_spec bytes
  · have hpos := List.length_pos_of_ne_nil hne
    omega
  · have hsame : ∀ i, (front ++ [b]).getD i 0 = other.getD i 0 := by
      intro i
      rw [← hf, trimZeros_getD, h i]
    rw [hf]
    exact length_of_getD_last hb hsame

/-! ### The split points -/

section Splits
variable (lower upper : ByteString) (n i : ℕ)

/-- Every byte position of a split point is interpolated on its own. -/
theorem splitKey_getD (hu : upper ≠ []) (hn : 0 < n) (hin : i ≤ n) (j : ℕ) :
    (splitKey exactOps lower upper n i).getD j 0 =
      byteAt (lower.getD j 0) (upper.getD j 0) n i := by
  have hlen := List.length_pos_of_ne_nil hu
  have hmax : max lower.length upper.length ≠ 0 := by omega
  unfold splitKey interpolateKey
  dsimp only
  rw [if_neg hu, if_neg (fun h => hu h.2), if_neg hmax, trimZeros_getD]
  by_cases hj : j < max lower.length upper.length
  · rw [List.getD_eq_getElem _ _ (by simpa using hj)]
    simp [byteAt]
  · have hl : lower.getD j 0 = 0 := List.getD_eq_default _ _ (by omega)
    have hh : upper.getD j 0 = 0 := List.getD_eq_default _ _ (by omega)
    rw [List.getD_eq_default _ _ (by simpa using not_lt.mp hj), hl, hh]
    have hval := byteAt_val 0 0 n i hn hin
    have hzero : exactByte 0 0 n i = 0 := by simp [exactByte]
    rw [hzero, Int.floor_zero] at hval
    exact Fin.ext (by exact_mod_cast hval.symm)

theorem splitKey_length_le (hu : upper ≠ []) (other : ByteString) (hne : other ≠ [])
    (h : ∀ j, (splitKey exactOps lower upper n i).getD j 0 = other.getD j 0) :
    (splitKey exactOps lower upper n i).length ≤ other.length := by
  have hlen := List.length_pos_of_ne_nil hu
  have hmax : max lower.length upper.length ≠ 0 := by omega
  unfold splitKey interpolateKey at h ⊢
  dsimp only at h ⊢
  rw [if_neg hu, if_neg (fun h => hu h.2), if_neg hmax] at h ⊢
  apply trimZeros_length_le _ _ hne
  intro j
  rw [← h j, trimZeros_getD]

/-- A position whose byte falls comes after one whose byte rises by `n` or more,
and if no byte rises that much the lower bound has no trailing zero. -/
structure SplitsAscend : Prop where
  falls : ∀ j, upper.getD j 0 < lower.getD j 0 →
    ∃ i < j, (lower.getD i 0).val + n ≤ (upper.getD i 0).val
  trimmed : (∃ j, (lower.getD j 0).val + n ≤ (upper.getD j 0).val) ∨ lower.length ≤ 1 ∨
    lower.getLast? ≠ some 0

variable {lower upper n i}

/-- The first position at which two consecutive splits differ rises. -/
theorem SplitsAscend.rising (h : SplitsAscend lower upper n) (hn : 0 < n) (hin : i < n) (j : ℕ)
    (hsame : ∀ k < j, byteAt (lower.getD k 0) (upper.getD k 0) n i =
      byteAt (lower.getD k 0) (upper.getD k 0) n (i + 1)) :
    byteAt (lower.getD j 0) (upper.getD j 0) n i ≤
      byteAt (lower.getD j 0) (upper.getD j 0) n (i + 1) := by
  by_cases hj : upper.getD j 0 < lower.getD j 0
  · obtain ⟨k, hk, hwide⟩ := h.falls j hj
    exact absurd (hsame k hk) (byteAt_climbs _ _ n i hn hin hwide).ne
  · exact byteAt_rises _ _ n i hn hin (not_lt.mp hj)

theorem zero_least (x : Byte) : 0 ≤ x := Fin.zero_le x

theorem SplitsAscend.step (h : SplitsAscend lower upper n) (hu : upper ≠ []) (hin : i < n) :
    splitKey exactOps lower upper n i ≤ splitKey exactOps lower upper n (i + 1) := by
  have hn : 0 < n := by omega
  apply le_of_rising zero_least
  · intro j hsame
    rw [splitKey_getD lower upper n i hu hn hin.le, splitKey_getD lower upper n (i + 1) hu hn hin]
    apply h.rising hn hin
    intro k hk
    rw [← splitKey_getD lower upper n i hu hn hin.le, hsame k hk,
      splitKey_getD lower upper n (i + 1) hu hn hin]
  · intro hsame
    exact splitKey_length_le lower upper n i hu _ (splitKey_ne_nil exactOps _ _ _ _) hsame

theorem SplitsAscend.last (h : SplitsAscend lower upper n) (hu : upper ≠ []) (hin : i + 1 = n) :
    splitKey exactOps lower upper n i ≤ upper := by
  have hn : 0 < n := by omega
  have hlt : i < n := by omega
  have hfull : ∀ j, upper.getD j 0 = byteAt (lower.getD j 0) (upper.getD j 0) n (i + 1) := by
    intro j
    rw [hin, byteAt_full _ _ n hn]
  apply le_of_rising zero_least
  · intro j hsame
    rw [splitKey_getD lower upper n i hu hn hlt.le]
    conv_rhs => rw [hfull j]
    apply h.rising hn hlt
    intro k hk
    rw [← splitKey_getD lower upper n i hu hn hlt.le, hsame k hk]
    exact hfull k
  · exact splitKey_length_le lower upper n i hu upper hu

theorem SplitsAscend.first (h : SplitsAscend lower upper n) (hu : upper ≠ []) (hn : 0 < n) :
    lower ≤ splitKey exactOps lower upper n 1 := by
  have hzero : ∀ j, lower.getD j 0 = byteAt (lower.getD j 0) (upper.getD j 0) n 0 := by
    intro j
    rw [byteAt_zero _ _ n hn]
  have hone := splitKey_getD lower upper n 1 hu hn hn
  apply le_of_rising zero_least
  · intro j hsame
    rw [hone]
    conv_lhs => rw [hzero j]
    apply h.rising hn hn
    intro k hk
    exact (hzero k).symm.trans ((hsame k hk).trans (hone k))
  · intro hsame
    have hpos := List.length_pos_of_ne_nil (splitKey_ne_nil exactOps lower upper n 1)
    obtain ⟨j, hwide⟩ | hlen | hlast := h.trimmed
    · have hclimb := byteAt_climbs _ _ n 0 hn hn hwide
      rw [← hzero j, Nat.zero_add, ← hone j, hsame j] at hclimb
      exact absurd hclimb (lt_irrefl _)
    · omega
    · obtain rfl | ⟨front, b, rfl⟩ := List.eq_nil_or_concat' lower
      · exact Nat.zero_le _
      · apply length_of_getD_last _ hsame
        intro hb
        rw [List.getLast?_concat, hb] at hlast
        exact hlast rfl

/-- The condition is needed for the first split already. -/
theorem splitsAscend_of_first (hu : upper ≠ []) (hn : 0 < n)
    (h : lower ≤ splitKey exactOps lower upper n 1) : SplitsAscend lower upper n := by
  have hone := splitKey_getD lower upper n 1 hu hn hn
  have hfalls : ∀ j, upper.getD j 0 < lower.getD j 0 →
      ∃ i < j, (lower.getD i 0).val + n ≤ (upper.getD i 0).val := by
    intro j
    induction j using Nat.strong_induction_on with
    | _ j ih =>
      intro hj
      by_contra hnone
      -- nothing before `j` rises by `n`, so nothing before it falls either
      have hkeep : ∀ k < j, (splitKey exactOps lower upper n 1).getD k 0 = lower.getD k 0 := by
        intro k hk
        have hle : lower.getD k 0 ≤ upper.getD k 0 := by
          by_contra hfall
          obtain ⟨m, hm, hwide⟩ := ih k hk (not_le.mp hfall)
          exact hnone ⟨m, hm.trans hk, hwide⟩
        have hsmall : (upper.getD k 0).val < (lower.getD k 0).val + n := by
          by_contra hwide
          exact hnone ⟨k, hk, not_lt.mp hwide⟩
        rw [hone, byteAt_keeps _ _ n hn hle hsmall]
      have hfall : (splitKey exactOps lower upper n 1).getD j 0 < lower.getD j 0 := by
        rw [hone]
        exact byteAt_falls _ _ n hn hj
      exact absurd h (not_le.mpr (lt_of_first_difference zero_least hkeep hfall))
  refine ⟨hfalls, ?_⟩
  by_contra hnot
  push Not at hnot
  obtain ⟨hsmall, hlen, hlast⟩ := hnot
  have hsame : ∀ j, lower.getD j 0 = (splitKey exactOps lower upper n 1).getD j 0 := by
    intro j
    have hle : lower.getD j 0 ≤ upper.getD j 0 := by
      by_contra hfall
      obtain ⟨k, -, hwide⟩ := hfalls j (not_le.mp hfall)
      exact absurd (hsmall k) (not_lt.mpr hwide)
    rw [hone, byteAt_keeps _ _ n hn hle (hsmall j)]
  have hle := (le_iff_length_of_same hsame).mp h
  obtain rfl | ⟨front, b, rfl⟩ := List.eq_nil_or_concat' lower
  · simp at hlen
  · rw [List.getLast?_concat, Option.some.injEq] at hlast
    have hne : front ≠ [] := by
      intro hf
      rw [hf] at hlen
      simp at hlen
    have hshort := splitKey_length_le (front ++ [b]) upper n 1 hu front hne (by
      intro j
      rw [← hsame j, hlast]
      exact getD_append_replicate front 1 j)
    rw [List.length_append, List.length_singleton] at hle
    omega

end Splits

/-! ### Results -/

section Results
variable (lower upper : ByteString)

def RangesSeparate (ranges : List KeyRange) : Prop :=
  ranges.Pairwise (fun r r' => ∀ k, ¬ (r.holds k ∧ r'.holds k)) ∧
    ∀ r ∈ ranges, ∀ k, r.holds k → lower ≤ k ∧ (upper = [] ∨ k < upper)

/-- No key passed by two tasks, and none outside the requested range. -/
def TasksSeparate (tasks : List TaskResult) : Prop :=
  tasks.Pairwise (fun t t' => ∀ p ∈ t.passed, ∀ p' ∈ t'.passed, p.1 ≠ p'.1) ∧
    ∀ t ∈ tasks, ∀ p ∈ t.passed, lower ≤ p.1 ∧ (upper = [] ∨ p.1 < upper)

def FillsInOrder (numPartitions : ℕ) : Prop :=
  numPartitions ≤ 1 ∨ upper = [] ∨ upper ≤ lower ∨ SplitsAscend lower upper numPartitions

theorem rangesSeparate_iff (ranges : List KeyRange) : RangesSeparate lower upper ranges ↔
    Separate lower (upTo upper) (ranges.map KeyRange.segment) := by
  unfold RangesSeparate Separate
  rw [List.pairwise_map, List.forall_mem_map]
  simp only [holds_iff_inside]
  apply and_congr Iff.rfl
  apply forall₂_congr
  intro r hr
  apply forall₂_congr
  intro k hk
  rw [← lt_upTo]
  rfl

theorem splitKey_unbounded (n i : ℕ) :
    splitKey exactOps lower [] n i = lower ++ [exactOps.scaleByte (exactOps.ratio i n)] := rfl

theorem splitKey_unbounded_step (n i : ℕ) :
    splitKey exactOps lower [] n i ≤ splitKey exactOps lower [] n (i + 1) := by
  rw [splitKey_unbounded, splitKey_unbounded]
  have hr : (i : ℚ) / n ≤ ((i + 1 : ℕ) : ℚ) / n := by
    apply div_le_div_of_nonneg_right _ (by positivity)
    push_cast
    linarith
  have hb : exactOps.scaleByte (exactOps.ratio i n) ≤
      exactOps.scaleByte (exactOps.ratio (i + 1) n) := by
    apply toByte_mono
    exact mul_le_mul_of_nonneg_right hr (by norm_num)
  cases lt_or_eq_of_le hb with
  | inl h => exact (List.append_left_lt (List.cons_lt_cons_iff.mpr (.inl h))).le
  | inr h => rw [h]

theorem splitKeys_ascending (n : ℕ) (hn : 1 ≤ n) (hr : ¬ (upper ≠ [] ∧ upper ≤ lower))
    (h : FillsInOrder lower upper n) :
    Ascending lower (splitKeys exactOps lower upper n) (upTo upper) := by
  unfold splitKeys
  obtain ⟨m, rfl⟩ := Nat.exists_eq_add_of_le' hn
  rw [Nat.add_sub_cancel]
  cases m with
  | zero =>
    show (lower : WithTop ByteString) ≤ upTo upper
    by_cases hu : upper = []
    · rw [hu]
      exact le_top
    · have hlt : lower < upper := not_le.mp fun hle => hr ⟨hu, hle⟩
      exact ((lt_upTo lower upper).mpr (.inr hlt)).le
  | succ m =>
    show Ascending lower (splitKey exactOps lower upper (m + 1 + 1) 1 ::
      (List.range' 2 m).map (splitKey exactOps lower upper (m + 1 + 1))) (upTo upper)
    by_cases hu : upper = []
    · subst hu
      refine ⟨not_lt.mp List.le_append_left, ascending_map _ _ 1 m ?_ le_top⟩
      intro i h1 h2
      exact splitKey_unbounded_step lower _ i
    · have hasc : SplitsAscend lower upper (m + 1 + 1) := by
        obtain h1 | h1 | h1 | h1 := h
        · omega
        · exact absurd h1 hu
        · exact absurd ⟨hu, h1⟩ hr
        · exact h1
      refine ⟨hasc.first hu (by omega), ascending_map _ _ 1 m ?_ ?_⟩
      · intro i h1 h2
        exact hasc.step hu (by omega)
      · have hlast := hasc.last hu (Nat.add_comm 1 m ▸ rfl : 1 + m + 1 = m + 1 + 1)
        unfold upTo
        rw [if_neg hu]
        exact WithTop.coe_le_coe.mpr hlast

theorem ranges_separate_iff (numPartitions : UInt32) :
    RangesSeparate lower upper (partition exactOps lower upper numPartitions) ↔
      FillsInOrder lower upper numPartitions.toNat := by
  by_cases hn : numPartitions = 0
  · subst hn
    exact iff_of_true ⟨List.Pairwise.nil, fun r hr => absurd hr List.not_mem_nil⟩
      (.inl (Nat.zero_le 1))
  by_cases hr : upper ≠ [] ∧ upper ≤ lower
  · have hempty : partition exactOps lower upper numPartitions = [] := by
      unfold partition
      rw [if_neg hn, if_pos hr]
    rw [hempty]
    exact iff_of_true ⟨List.Pairwise.nil, fun r hr => absurd hr List.not_mem_nil⟩
      (.inr (.inr (.inl hr.2)))
  have hpos : 1 ≤ numPartitions.toNat := by
    have h0 : numPartitions.toNat ≠ 0 := fun h => hn (UInt32.toNat_inj.mp h)
    omega
  rw [rangesSeparate_iff, partition_segments exactOps lower upper numPartitions hn hr]
  constructor
  · intro hsep
    by_cases h1 : numPartitions.toNat ≤ 1
    · exact .inl h1
    by_cases hu : upper = []
    · exact .inr (.inl hu)
    have hlt : lower < upper := not_le.mp fun hle => hr ⟨hu, hle⟩
    obtain ⟨m, hm⟩ := Nat.exists_eq_add_of_le' (not_le.mp h1)
    have hsplits : splitKeys exactOps lower upper numPartitions.toNat =
        splitKey exactOps lower upper numPartitions.toNat 1 ::
          (List.range' 2 m).map (splitKey exactOps lower upper numPartitions.toNat) := by
      unfold splitKeys
      rw [hm]
      rfl
    rw [hsplits] at hsep
    have hfirst := hsep.first ((lt_upTo lower upper).mpr (.inr hlt)).le
    exact .inr (.inr (.inr (splitsAscend_of_first hu (by omega) hfirst)))
  · intro h
    exact (splitKeys_ascending lower upper _ hpos hr h).separate

/-! ### The same for the fill -/

variable (config : IndexBuilderConfig)

theorem agreeable_submits (snapshot : Snapshot) (i : ℕ) (ranges : List KeyRange) :
    (submitTasks agreeable snapshot i ranges).1 = true := by
  induction ranges generalizing i with
  | nil => rfl
  | cons range rest ih => exact ih (i + 1)

theorem agreeable_task (snapshot : Snapshot) (i : ℕ) (range : KeyRange) :
    (partitionTask agreeable snapshot i range).outcome = .returned true :=
  insertLoop_accepted _ _ _ _ fun _ _ _ => rfl

/-- The tasks of a fill in which nothing is refused. -/
theorem agreeable_tasks (snapshot : Snapshot) :
    (ParallelFill.fillIndexParallel exactOps config .kIdle agreeable snapshot
      lower upper).tasks.map TaskResult.passed =
      (partition exactOps lower upper config.numThreads).map fun range =>
        snapshot.pairs.filter fun p => range.holds p.1 := by
  simp only [ParallelFill.fillIndexParallel]
  rw [if_neg (not_not.mpr rfl)]
  by_cases hp : partition exactOps lower upper config.numThreads = [] ∧ 0 < config.numThreads
  · rw [if_pos hp, hp.1]
    rfl
  · have hsub := agreeable_submits snapshot 0 (partition exactOps lower upper config.numThreads)
    have htasks := submitTasks_accepted agreeable snapshot 0 _ hsub
    have hall : (submitTasks agreeable snapshot 0 (partition exactOps lower upper
        config.numThreads)).2.all (fun r => r.outcome = .returned true) = true := by
      rw [htasks, List.all_eq_true]
      intro r hr
      obtain ⟨x, -, rfl⟩ := List.mem_map.mp hr
      exact decide_eq_true (agreeable_task snapshot x.2 x.1)
    rw [if_neg hp, if_neg (by rw [hsub]; simp), if_pos hall, htasks, List.map_map]
    have hpassed : ∀ x ∈ (partition exactOps lower upper config.numThreads).zipIdx 0,
        (TaskResult.passed ∘ fun x => partitionTask agreeable snapshot x.2 x.1) x =
          snapshot.pairs.filter fun p => x.1.holds p.1 := by
      intro x hx
      exact partitionTask_true agreeable snapshot x.2 x.1 (agreeable_task snapshot x.2 x.1)
    rw [List.map_congr_left hpassed]
    conv_rhs => rw [← List.zipIdx_map_fst 0 (partition exactOps lower upper config.numThreads),
      List.map_map]
    rfl

theorem tasksSeparate_iff (tasks : List TaskResult) : TasksSeparate lower upper tasks ↔
    (tasks.map TaskResult.passed).Pairwise (fun ps ps' => ∀ p ∈ ps, ∀ p' ∈ ps', p.1 ≠ p'.1) ∧
      ∀ ps ∈ tasks.map TaskResult.passed, ∀ p ∈ ps, lower ≤ p.1 ∧ (upper = [] ∨ p.1 < upper) := by
  rw [List.pairwise_map, List.forall_mem_map]
  rfl

theorem tasks_separate_iff :
    (∀ snapshot, TasksSeparate lower upper (ParallelFill.fillIndexParallel exactOps config .kIdle
      agreeable snapshot lower upper).tasks) ↔
      RangesSeparate lower upper (partition exactOps lower upper config.numThreads) := by
  simp only [tasksSeparate_iff, agreeable_tasks, List.pairwise_map, List.forall_mem_map,
    List.mem_filter, decide_eq_true_eq]
  constructor
  · intro h
    -- a snapshot of one key shows every range that holds the key
    have hone := fun k => h ⟨[(k, [])], List.pairwise_singleton _ _⟩
    constructor
    · rw [List.pairwise_iff_getElem]
      intro i j hi hj hij k hk
      have hpair := List.pairwise_iff_getElem.mp (hone k).1 i j hi hj hij
      exact hpair (k, []) ⟨List.mem_singleton_self _, hk.1⟩ (k, [])
        ⟨List.mem_singleton_self _, hk.2⟩ rfl
    · intro r hr k hk
      exact (hone k).2 r hr (k, []) ⟨List.mem_singleton_self _, hk⟩
  · intro h snapshot
    obtain ⟨hpair, hin⟩ := h
    constructor
    · apply hpair.imp
      intro r r' hsep p hp p' hp' heq
      rw [← heq] at hp'
      exact hsep p.1 ⟨hp.2, hp'.2⟩
    · intro r hr p hp
      exact hin r hr p.1 hp.2

/-- The ranges are disjoint and inside the request, and so are the keys that
the tasks pass on from any snapshot, exactly under `FillsInOrder`. -/
theorem fill_separate_iff :
    (RangesSeparate lower upper (partition exactOps lower upper config.numThreads) ↔
      FillsInOrder lower upper config.numThreads.toNat) ∧
    ((∀ snapshot, TasksSeparate lower upper (ParallelFill.fillIndexParallel exactOps config .kIdle
      agreeable snapshot lower upper).tasks) ↔
      FillsInOrder lower upper config.numThreads.toNat) := by
  rw [tasks_separate_iff]
  exact ⟨ranges_separate_iff lower upper _, ranges_separate_iff lower upper _⟩

end Results

example : (partition exactOps [0, 255] [3, 0] 6).map KeyRange.lowerBound =
    [[0, 255], [0, 212], [1, 170], [1, 127], [2, 85], [2, 42]] := by
  decide +kernel

/- One key below the lower bound, and one between two splits that fall. -/
def twoKeys : Snapshot := ⟨[([0, 230], []), ([1, 150], [])], by decide⟩

def fallingFill : FillResult :=
  ParallelFill.fillIndexParallel exactOps ⟨6, 64, false⟩ .kIdle agreeable twoKeys [0, 255] [3, 0]

theorem falling_byte_indexes_twice :
    fallingFill.value = true ∧ fallingFill.tasks.map TaskResult.passed =
      [[], [([0, 230], []), ([1, 150], [])], [], [([1, 150], [])], [], []] ∧
      ¬ TasksSeparate [0, 255] [3, 0] fallingFill.tasks ∧
      ¬ RangesSeparate [0, 255] [3, 0] (partition exactOps [0, 255] [3, 0] 6) := by
  have hpassed : fallingFill.tasks.map TaskResult.passed =
      [[], [([0, 230], []), ([1, 150], [])], [], [([1, 150], [])], [], []] := by decide +kernel
  have htasks : ¬ TasksSeparate [0, 255] [3, 0] fallingFill.tasks := by
    rw [tasksSeparate_iff, hpassed]
    decide
  refine ⟨by decide +kernel, hpassed, htasks, ?_⟩
  intro h
  exact htasks ((tasks_separate_iff [0, 255] [3, 0] ⟨6, 64, false⟩).mpr h twoKeys)

end OpenArangoDBCore.RocksDBEngine
