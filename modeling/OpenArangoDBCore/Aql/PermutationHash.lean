import OpenArangoDBCore.Basics
import OpenArangoDBCore.Lib.ExactWords
import OpenArangoDBCore.Lib.MinWise

/-!
# The permutations of MinHash (MinHashFunctions.h, MinHashFunctions.cpp)

The product of `mulmod` is taken in 128 bits and never exceeds them, so it is a
natural number here. The bytes of an index are those of a little-endian machine.
-/

namespace OpenArangoDBCore.Aql
open ExactWords MinWise

/-- 2^61 - 1 -/
def kMinHashPrime : UInt64 := (1 : UInt64) <<< 61 - 1

theorem toNat_kMinHashPrime : kMinHashPrime.toNat = 2 ^ 61 - 1 := by decide

/-- The multiplier is in [1, p-1], the offset in [0, p-1]. -/
structure PermutationSeed where
  a : UInt64
  b : UInt64
  a_pos : 0 < a.toNat
  a_lt : a.toNat < kMinHashPrime.toNat
  b_lt : b.toNat < kMinHashPrime.toNat

def baseHash (element : ByteString) (seed : UInt64) : UInt64 :=
  element.foldl (fun hash c => (hash ^^^ UInt64.ofNat c.val) * 1099511628211)
    (14695981039346656037 ^^^ seed)

def mulmod (a b p : UInt64) : UInt64 :=
  let result := a.toNat * b.toNat
  let lo := UInt64.ofNat result &&& p
  let hi := UInt64.ofNat (result >>> 61)
  let val := lo + hi
  if p ≤ val then val - p else val

def reduceMod (x p : UInt64) : UInt64 :=
  let lo := x &&& p
  let hi := x >>> 61
  let val := lo + hi
  if p ≤ val then val - p else val

def permutationHash (x : UInt64) (seed : PermutationSeed) : UInt64 :=
  let p := kMinHashPrime
  let xr := reduceMod x p
  let ax := mulmod seed.a xr p
  let result := ax + seed.b
  if p ≤ result then result - p else result

/-- The object representation of a `uint32_t`. -/
def indexBytes (i : UInt32) : ByteString :=
  [Fin.ofNat 256 i.toNat, Fin.ofNat 256 (i.toNat / 2 ^ 8), Fin.ofNat 256 (i.toNat / 2 ^ 16),
    Fin.ofNat 256 (i.toNat / 2 ^ 24)]

theorem seed_bounds (a b : UInt64) :
    0 < (a % (kMinHashPrime - 1) + 1).toNat ∧
      (a % (kMinHashPrime - 1) + 1).toNat < kMinHashPrime.toNat ∧
      (b % kMinHashPrime).toNat < kMinHashPrime.toNat := by
  have hp := toNat_kMinHashPrime
  have hp' : (kMinHashPrime - 1).toNat = 2 ^ 61 - 2 := by decide
  rw [UInt64.toNat_add, UInt64.toNat_mod, UInt64.toNat_mod, hp', hp, UInt64.toNat_one]
  have ha : a.toNat % (2 ^ 61 - 2) < 2 ^ 61 - 2 := Nat.mod_lt _ (by norm_num)
  have hb : b.toNat % (2 ^ 61 - 1) < 2 ^ 61 - 1 := Nat.mod_lt _ (by norm_num)
  omega

def permutationSeed (masterSeed : UInt64) (i : UInt32) : PermutationSeed :=
  let a := baseHash (indexBytes i) masterSeed
  let b := baseHash (indexBytes i) (masterSeed ^^^ 0xDEADBEEF)
  ⟨a % (kMinHashPrime - 1) + 1, b % kMinHashPrime, (seed_bounds a b).1, (seed_bounds a b).2.1,
    (seed_bounds a b).2.2⟩

def generatePermutationSeeds (k : UInt32) (masterSeed : UInt64) : List PermutationSeed :=
  (List.range k.toNat).map fun i => permutationSeed masterSeed (UInt32.ofNat i)

/-! ### The arithmetic without overflow -/

/- Each function once more, on natural numbers. A value that its `uint64_t` or
`__uint128_t` does not hold ends the computation. -/
def mulmodExact (a b p : ℕ) : Option ℕ := do
  let result ← fits 128 (a * b)
  let lo ← fits 64 (result &&& p)
  let hi ← fits 64 (result >>> 61)
  let val ← fits 64 (lo + hi)
  return subtractOnce p val

def reduceModExact (x p : ℕ) : Option ℕ := do
  let lo ← fits 64 (x &&& p)
  let hi ← fits 64 (x >>> 61)
  let val ← fits 64 (lo + hi)
  return subtractOnce p val

def permutationHashExact (x a b : ℕ) : Option ℕ := do
  let p := kMinHashPrime.toNat
  let xr ← reduceModExact x p
  let ax ← mulmodExact a xr p
  let result ← fits 64 (ax + b)
  return subtractOnce p result

/-- What the loop of `generatePermutationSeeds` makes of two hashes. -/
def seedExact (a b : ℕ) : Option (ℕ × ℕ) := do
  let a ← fits 64 (a % (kMinHashPrime.toNat - 1) + 1)
  return (a, b % kMinHashPrime.toNat)

/-! ### The words follow -/

section Words
variable {x a b p : UInt64} {n : ℕ}

theorem toNat_reduceMod_of_exact (h : reduceModExact x.toNat p.toNat = some n) :
    (reduceMod x p).toNat = n := by
  unfold reduceModExact at h
  simp only [Option.bind_eq_bind, Option.bind_eq_some_iff, Option.pure_def, Option.some_inj] at h
  obtain ⟨lo, hlo, hi, hhi, val, hval, rfl⟩ := h
  obtain ⟨-, rfl⟩ := fits_eq_some_iff.mp hlo
  obtain ⟨-, rfl⟩ := fits_eq_some_iff.mp hhi
  apply toNat_reduced_of_fits
  rwa [UInt64.toNat_and, UInt64.toNat_shiftRight]

theorem toNat_mulmod_of_exact (h : mulmodExact a.toNat b.toNat p.toNat = some n) :
    (mulmod a b p).toNat = n := by
  unfold mulmodExact at h
  simp only [Option.bind_eq_bind, Option.bind_eq_some_iff, Option.pure_def, Option.some_inj] at h
  obtain ⟨result, hresult, lo, hlo, hi, hhi, val, hval, rfl⟩ := h
  obtain ⟨-, rfl⟩ := fits_eq_some_iff.mp hresult
  obtain ⟨-, rfl⟩ := fits_eq_some_iff.mp hlo
  apply toNat_reduced_of_fits
  rwa [toNat_ofNat_and, toNat_ofNat_of_fits hhi]

/-- Where the exact computation ends in a number, the code returns it. -/
theorem toNat_permutationHash_of_exact {seed : PermutationSeed}
    (h : permutationHashExact x.toNat seed.a.toNat seed.b.toNat = some n) :
    (permutationHash x seed).toNat = n := by
  unfold permutationHashExact at h
  simp only [Option.bind_eq_bind, Option.bind_eq_some_iff, Option.pure_def, Option.some_inj] at h
  obtain ⟨xr, hxr, ax, hax, result, hresult, rfl⟩ := h
  have hreduced := toNat_reduceMod_of_exact hxr
  rw [← hreduced] at hax
  have hproduct := toNat_mulmod_of_exact hax
  rw [← hproduct] at hresult
  exact toNat_reduced_of_fits hresult kMinHashPrime

end Words

/-! ### Everything fits -/

section Bounds
variable {x a b n : ℕ}

/-- Words are that small, and so are products of two residues. -/
theorem reduceModExact_eq (h : n < 2 ^ 61 * kMinHashPrime.toNat) :
    reduceModExact n kMinHashPrime.toNat = some (n % kMinHashPrime.toNat) := by
  have hp : kMinHashPrime.toNat = mersenne 61 := toNat_kMinHashPrime
  have hmersenne : mersenne 61 = 2 ^ 61 - 1 := rfl
  have hfold : n % 2 ^ 61 + n / 2 ^ 61 ≡ n [MOD mersenne 61] := mersenne_fold 61 n
  rw [hp] at h ⊢
  have hlt := fold_lt h
  have honce := (subtractOnce_eq_mod_iff (show 0 < mersenne 61 by omega)).mpr hlt
  unfold reduceModExact
  rw [and_mersenne, Nat.shiftRight_eq_div_pow, fits_of_lt (by omega), fits_of_lt (by omega)]
  simp only [Option.bind_eq_bind, Option.bind_some, Option.pure_def]
  rw [fits_of_lt (by omega), Option.bind_some, honce, hfold]

theorem mulmodExact_eq (ha : a < kMinHashPrime.toNat) (hb : b < kMinHashPrime.toNat) :
    mulmodExact a b kMinHashPrime.toNat = some (a * b % kMinHashPrime.toNat) := by
  have hp := toNat_kMinHashPrime
  have hproduct : a * b < 2 ^ 61 * kMinHashPrime.toNat := by
    have hle : a * b ≤ 2 ^ 61 * b := Nat.mul_le_mul_right b (by omega)
    have hlt : 2 ^ 61 * b < 2 ^ 61 * kMinHashPrime.toNat := by omega
    exact hle.trans_lt hlt
  have hwide : a * b < 2 ^ 128 := by omega
  have hreduced := reduceModExact_eq hproduct
  unfold mulmodExact
  rw [fits_of_lt hwide]
  exact hreduced

/-- `h(x) = (a*x + b) mod p`, and no step on the way overflows. -/
theorem permutationHashExact_eq (hx : x < 2 ^ 64) (ha : a < kMinHashPrime.toNat)
    (hb : b < kMinHashPrime.toNat) :
    permutationHashExact x a b = some ((a * x + b) % kMinHashPrime.toNat) := by
  have hp := toNat_kMinHashPrime
  have hpos : 0 < kMinHashPrime.toNat := by omega
  have hxr := reduceModExact_eq (n := x) (by omega)
  have hax := mulmodExact_eq ha (Nat.mod_lt x hpos)
  have hlt := Nat.mod_lt (a * (x % kMinHashPrime.toNat)) hpos
  have honce := (subtractOnce_eq_mod_iff hpos).mpr
    (show a * (x % kMinHashPrime.toNat) % kMinHashPrime.toNat + b < 2 * kMinHashPrime.toNat by omega)
  unfold permutationHashExact
  simp only [Option.bind_eq_bind, Option.pure_def]
  rw [hxr, Option.bind_some, hax, Option.bind_some, fits_of_lt (by omega), Option.bind_some, honce,
    Nat.mul_mod_mod, Nat.mod_add_mod]

end Bounds

/-! ### The permutations -/

theorem prime_kMinHashPrime : kMinHashPrime.toNat.Prime := by
  rw [toNat_kMinHashPrime]
  exact lucas_lehmer_sufficiency 61 (by norm_num) (by norm_num)

/-- `h(x) = (a*x + b) mod p` -/
theorem toNat_permutationHash (x : UInt64) (seed : PermutationSeed) :
    (permutationHash x seed).toNat =
      (seed.a.toNat * x.toNat + seed.b.toNat) % kMinHashPrime.toNat :=
  toNat_permutationHash_of_exact (permutationHashExact_eq x.toNat_lt seed.a_lt seed.b_lt)

theorem permutationHash_lt (x : UInt64) (seed : PermutationSeed) :
    (permutationHash x seed).toNat < 2 ^ 64 - 1 := by
  have hp := toNat_kMinHashPrime
  have hlt := Nat.mod_lt (seed.a.toNat * x.toNat + seed.b.toNat)
    (show 0 < kMinHashPrime.toNat by omega)
  rw [toNat_permutationHash]
  omega

/-- Each permutation separates the residues of the base hashes. -/
theorem permutationHash_eq_iff (x y : UInt64) (seed : PermutationSeed) :
    (permutationHash x seed).toNat = (permutationHash y seed).toNat ↔
      x.toNat ≡ y.toNat [MOD kMinHashPrime.toNat] := by
  rw [toNat_permutationHash, toNat_permutationHash]
  exact affine_mod_inj prime_kMinHashPrime seed.a_pos seed.a_lt

/-! ### The seeds -/

theorem generatePermutationSeeds_getElem? (k : UInt32) (masterSeed : UInt64) {i : ℕ}
    (hi : i < k.toNat) : (generatePermutationSeeds k masterSeed)[i]? =
      some (permutationSeed masterSeed (UInt32.ofNat i)) := by
  rw [generatePermutationSeeds, List.getElem?_map, List.getElem?_range hi, Option.map_some]

theorem seedExact_eq (a b : UInt64) : seedExact a.toNat b.toNat =
    some ((a % (kMinHashPrime - 1) + 1).toNat, (b % kMinHashPrime).toNat) := by
  have hp := toNat_kMinHashPrime
  have hp' : (kMinHashPrime - 1).toNat = kMinHashPrime.toNat - 1 := by decide
  have ha := Nat.mod_lt a.toNat (show 0 < kMinHashPrime.toNat - 1 by omega)
  have hfits : fits 64 ((a % (kMinHashPrime - 1)).toNat + (1 : UInt64).toNat) =
      some (a.toNat % (kMinHashPrime.toNat - 1) + 1) := by
    rw [UInt64.toNat_mod, hp', UInt64.toNat_one]
    exact fits_of_lt (by omega)
  unfold seedExact
  rw [fits_of_lt (by omega), toNat_add_of_fits hfits, UInt64.toNat_mod]
  rfl

/-- Each seed is what the exact computation makes of its two hashes. -/
theorem seed_exact (k : UInt32) (masterSeed : UInt64) (i : ℕ) (hi : i < k.toNat) :
    ∃ seed, (generatePermutationSeeds k masterSeed)[i]? = some seed ∧
      seedExact (baseHash (indexBytes (UInt32.ofNat i)) masterSeed).toNat
        (baseHash (indexBytes (UInt32.ofNat i)) (masterSeed ^^^ 0xDEADBEEF)).toNat =
          some (seed.a.toNat, seed.b.toNat) := by
  refine ⟨permutationSeed masterSeed (UInt32.ofNat i), ?_, seedExact_eq _ _⟩
  exact generatePermutationSeeds_getElem? k masterSeed hi

/-- For every word and every seed with a multiplier in [1, p-1] and an offset in
[0, p-1], which those of `generatePermutationSeeds` have. -/
theorem mersenne_arithmetic_exact :
    (∀ (x a b : UInt64) (ha : 1 ≤ a.toNat) (ha' : a.toNat < kMinHashPrime.toNat)
      (hb : b.toNat < kMinHashPrime.toNat),
        let hash := permutationHash x ⟨a, b, ha, ha', hb⟩
        permutationHashExact x.toNat a.toNat b.toNat = some hash.toNat ∧
          hash.toNat = (a.toNat * x.toNat + b.toNat) % (2 ^ 61 - 1) ∧ hash.toNat < 2 ^ 61 - 1) ∧
      ∀ (k : UInt32) (masterSeed : UInt64),
        (generatePermutationSeeds k masterSeed).length = k.toNat ∧
          ∀ i < k.toNat, ∃ seed, (generatePermutationSeeds k masterSeed)[i]? = some seed ∧
            seedExact (baseHash (indexBytes (UInt32.ofNat i)) masterSeed).toNat
              (baseHash (indexBytes (UInt32.ofNat i)) (masterSeed ^^^ 0xDEADBEEF)).toNat =
                some (seed.a.toNat, seed.b.toNat) ∧
            1 ≤ seed.a.toNat ∧ seed.a.toNat < 2 ^ 61 - 1 ∧ seed.b.toNat < 2 ^ 61 - 1 := by
  refine ⟨?_, ?_⟩
  · intro x a b ha ha' hb hash
    have hexact := permutationHashExact_eq x.toNat_lt ha' hb
    have hhash : hash.toNat = (a.toNat * x.toNat + b.toNat) % kMinHashPrime.toNat :=
      toNat_permutationHash_of_exact hexact
    rw [← hhash] at hexact
    rw [toNat_kMinHashPrime] at hhash
    refine ⟨hexact, hhash, ?_⟩
    rw [hhash]
    exact Nat.mod_lt _ (by norm_num)
  · intro k masterSeed
    refine ⟨?_, ?_⟩
    · rw [generatePermutationSeeds, List.length_map, List.length_range]
    · intro i hi
      obtain ⟨seed, hseed, hexact⟩ := seed_exact k masterSeed i hi
      refine ⟨seed, hseed, hexact, seed.a_pos, ?_⟩
      rw [← toNat_kMinHashPrime]
      exact ⟨seed.a_lt, seed.b_lt⟩

/-- The largest word, the largest multiplier and the largest offset. -/
theorem mersenne_arithmetic_extremes :
    let x : UInt64 := 0xFFFFFFFFFFFFFFFF
    let last : UInt64 := kMinHashPrime - 1
    let hash := permutationHash x ⟨last, last, by decide, by decide, by decide⟩
    permutationHashExact x.toNat last.toNat last.toNat = some hash.toNat ∧
      hash.toNat = 2 ^ 61 - 9 := by
  intro x last hash
  obtain ⟨hexact, hhash, -⟩ :=
    mersenne_arithmetic_exact.1 x last last (by decide) (by decide) (by decide)
  refine ⟨hexact, hhash.trans ?_⟩
  decide +kernel

end OpenArangoDBCore.Aql
