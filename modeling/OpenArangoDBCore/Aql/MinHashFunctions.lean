import OpenArangoDBCore.Aql.PermutationHash

/-!
# MinHash signatures (MinHashFunctions.h, MinHashFunctions.cpp)
-/

namespace OpenArangoDBCore.Aql
open MinWise

structure MinHashGenerator where
  seeds : List PermutationSeed
  minimums : List UInt64

namespace MinHashGenerator

def new (seeds : List PermutationSeed) : MinHashGenerator :=
  ⟨seeds, List.replicate seeds.length (UInt64.ofNat (2 ^ 64 - 1))⟩

def addElement (g : MinHashGenerator) (element : ByteString) : MinHashGenerator :=
  let h := baseHash element 0
  ⟨g.seeds, List.zipWith (fun seed least =>
    let ph := permutationHash h seed
    if ph < least then ph else least) g.seeds g.minimums⟩

def finalize (g : MinHashGenerator) : List UInt64 := g.minimums

def reset (g : MinHashGenerator) : MinHashGenerator :=
  ⟨g.seeds, g.minimums.map fun _ => UInt64.ofNat (2 ^ 64 - 1)⟩

end MinHashGenerator

/-- The signature of the elements, added one after the other. -/
def signature (seeds : List PermutationSeed) (elements : List ByteString) : List UInt64 :=
  (elements.foldl MinHashGenerator.addElement (.new seeds)).finalize

def kDefaultMasterSeed : UInt64 := 0x9E3779B97F4A7C15

/-- The slots in which the loop of `estimateJaccard` finds the same value. -/
def jaccardMatches (sig1 sig2 : List UInt64) : UInt32 :=
  (sig1.zip sig2).foldl (fun count slot => if slot.1 = slot.2 then count + 1 else count) 0

/-- The quotient, before it is rounded to a `double`. -/
def estimateJaccard (sig1 sig2 : List UInt64) : ℚ :=
  if sig1.length ≠ sig2.length ∨ sig1 = [] then 0
  else (jaccardMatches sig1 sig2).toNat / sig1.length

/-- Of signatures of one length; both sides are zero without slots. -/
theorem estimateJaccard_eq {sig1 sig2 : List UInt64} (h : sig1.length = sig2.length) :
    estimateJaccard sig1 sig2 = (jaccardMatches sig1 sig2).toNat / sig1.length := by
  rw [estimateJaccard]
  split
  next hskip =>
    rcases hskip with hlength | hnil
    · exact absurd h hlength
    · rw [hnil, List.length_nil, Nat.cast_zero, div_zero]
  next => rfl

theorem toNat_jaccardMatches {sig1 : List UInt64} (sig2 : List UInt64) (h : sig1.length < 2 ^ 32) :
    (jaccardMatches sig1 sig2).toNat = (sig1.zip sig2).countP fun slot => slot.1 = slot.2 := by
  have hcount : ∀ slots : List (UInt64 × UInt64), slots.length < 2 ^ 32 →
      (slots.foldl (fun count slot => if slot.1 = slot.2 then count + 1 else count)
        (0 : UInt32)).toNat = slots.countP fun slot => slot.1 = slot.2 := by
    intro slots
    induction slots using List.reverseRecOn with
    | nil => exact fun _ => rfl
    | append_singleton slots slot ih =>
      intro hlength
      rw [List.length_append, List.length_singleton] at hlength
      have hbefore := ih (by omega)
      have hle := List.countP_le_length (p := fun slot : UInt64 × UInt64 => slot.1 = slot.2)
        (l := slots)
      rw [List.foldl_append, List.foldl_cons, List.foldl_nil, List.countP_append,
        List.countP_singleton]
      by_cases heq : slot.1 = slot.2
      · rw [if_pos heq, UInt32.toNat_add, hbefore, if_pos (decide_eq_true heq), UInt32.toNat_one]
        exact Nat.mod_eq_of_lt (by omega)
      · rw [if_neg heq, hbefore, if_neg (by simpa using heq), Nat.add_zero]
  refine hcount _ ?_
  rw [List.length_zip]
  omega

/-! ### Signatures -/

/-- What the generator compares in the slot of the seed. -/
def elementHash (seed : PermutationSeed) (element : ByteString) : ℕ :=
  (permutationHash (baseHash element 0) seed).toNat

theorem zipWith_least (h : UInt64) {seeds : List PermutationSeed} {minimums : List UInt64}
    {least : PermutationSeed → ℕ} (hminimums : minimums.map UInt64.toNat = seeds.map least) :
    (List.zipWith (fun seed m => if permutationHash h seed < m then permutationHash h seed else m)
      seeds minimums).map UInt64.toNat =
        seeds.map fun seed => min (permutationHash h seed).toNat (least seed) := by
  induction seeds generalizing minimums with
  | nil => rfl
  | cons seed seeds ih =>
    obtain ⟨m, rest, rfl, hm, hrest⟩ := List.map_eq_cons_iff.mp hminimums
    rw [List.zipWith_cons_cons, List.map_cons, List.map_cons, ih hrest, ← hm]
    congr 1
    split
    next hlt => rw [min_eq_left (UInt64.le_iff_toNat_le.mp (UInt64.le_of_lt hlt))]
    next hnot => rw [min_eq_right (UInt64.le_iff_toNat_le.mp (UInt64.not_lt.mp hnot))]

/-- In each slot the generator keeps a running minimum. -/
theorem minimums_eq (seeds : List PermutationSeed) (xs : List ByteString) :
    (xs.foldl MinHashGenerator.addElement (.new seeds)).seeds = seeds ∧
      (signature seeds xs).map UInt64.toNat =
        seeds.map fun seed => runningMin (elementHash seed) (2 ^ 64 - 1) xs := by
  unfold signature MinHashGenerator.finalize
  induction xs using List.reverseRecOn with
  | nil =>
    refine ⟨rfl, ?_⟩
    simp [MinHashGenerator.new, runningMin]
  | append_singleton xs x ih =>
    obtain ⟨hseeds, hminimums⟩ := ih
    rw [List.foldl_append, List.foldl_cons, List.foldl_nil]
    generalize xs.foldl MinHashGenerator.addElement (.new seeds) = g at hseeds hminimums ⊢
    subst hseeds
    refine ⟨rfl, ?_⟩
    simp only [runningMin_snoc]
    exact zipWith_least (baseHash x 0) hminimums

/-- The slot of a seed. -/
theorem signature_getElem? {seeds : List PermutationSeed} {i : ℕ} {seed : PermutationSeed}
    (h : seeds[i]? = some seed) (xs : List ByteString) : ∃ value,
      (signature seeds xs)[i]? = some value ∧
        value.toNat = runningMin (elementHash seed) (2 ^ 64 - 1) xs := by
  have hslot : ((signature seeds xs).map UInt64.toNat)[i]? = _ :=
    congrArg (fun l => l[i]?) (minimums_eq seeds xs).2
  rw [List.getElem?_map, List.getElem?_map, h, Option.map_some] at hslot
  obtain ⟨value, hvalue, heq⟩ := Option.map_eq_some_iff.mp hslot
  exact ⟨value, hvalue, heq⟩

/-- The base hashes are congruent modulo the prime. -/
def Congruent (x y : ByteString) : Prop :=
  (baseHash x 0).toNat ≡ (baseHash y 0).toNat [MOD kMinHashPrime.toNat]

theorem slot_eq_iff {seeds : List PermutationSeed} {i : ℕ} {seed : PermutationSeed}
    (h : seeds[i]? = some seed) (xs ys : List ByteString) :
    (signature seeds xs)[i]? = (signature seeds ys)[i]? ↔ xs = [] ∧ ys = [] ∨
      xs ≠ [] ∧ ys ≠ [] ∧ ∀ x y, Minimises (elementHash seed) x xs →
        Minimises (elementHash seed) y ys → Congruent x y := by
  have hsentinel : ∀ x, elementHash seed x < 2 ^ 64 - 1 := fun x => permutationHash_lt _ seed
  obtain ⟨value, hvalue, heq⟩ := signature_getElem? h xs
  obtain ⟨value', hvalue', heq'⟩ := signature_getElem? h ys
  rw [hvalue, hvalue', Option.some.injEq, ← UInt64.toNat_inj, heq, heq',
    runningMin_eq_iff hsentinel]
  simp only [elementHash, permutationHash_eq_iff, Congruent]

/-- A slot matches only through elements whose base hashes are congruent: lists
without such a pair match in no slot, and an empty list matches an empty one only. -/
theorem slot_matches_iff (k : UInt32) (masterSeed : UInt64) (i : ℕ) (hi : i < k.toNat)
    (xs ys : List ByteString) :
    let seeds := generatePermutationSeeds k masterSeed
    let seed := permutationSeed masterSeed (UInt32.ofNat i)
    ((signature seeds xs)[i]? = (signature seeds ys)[i]? ↔ xs = [] ∧ ys = [] ∨
        xs ≠ [] ∧ ys ≠ [] ∧ ∀ x y, Minimises (elementHash seed) x xs →
          Minimises (elementHash seed) y ys → Congruent x y) ∧
      ((∀ x ∈ xs, ∀ y ∈ ys, ¬ Congruent x y) → ¬ (xs = [] ∧ ys = []) →
        (signature seeds xs)[i]? ≠ (signature seeds ys)[i]?) ∧
      (xs = [] → ys ≠ [] → (signature seeds xs)[i]? ≠ (signature seeds ys)[i]?) := by
  intro seeds seed
  have hslot := slot_eq_iff (generatePermutationSeeds_getElem? k masterSeed hi) xs ys
  refine ⟨hslot, ?_, ?_⟩
  · intro hnone hempty heq
    rcases hslot.mp heq with hboth | ⟨hxs, hys, hall⟩
    · exact hempty hboth
    · obtain ⟨x, hx⟩ := exists_minimises (elementHash seed) hxs
      obtain ⟨y, hy⟩ := exists_minimises (elementHash seed) hys
      exact hnone x hx.1 y hy.1 (hall x y hx hy)
  · intro hxs hys heq
    rcases hslot.mp heq with ⟨-, hempty⟩ | ⟨hne, -⟩
    · exact hys hempty
    · exact hne hxs

/-- A list that repeats its only element. -/
theorem single_slot_matches :
    (signature (generatePermutationSeeds 2 7) [lit "foo"])[1]? =
        (signature (generatePermutationSeeds 2 7) [lit "foo", lit "foo"])[1]? ∧
      (signature (generatePermutationSeeds 2 7) [])[1]? ≠
        (signature (generatePermutationSeeds 2 7) [lit "foo"])[1]? := by
  have hsame := slot_matches_iff 2 7 1 (by decide) [lit "foo"] [lit "foo", lit "foo"]
  have hempty := slot_matches_iff 2 7 1 (by decide) [] [lit "foo"]
  refine ⟨hsame.1.mpr (.inr ⟨by simp, by simp, ?_⟩), hempty.2.2 rfl (by simp)⟩
  rintro x y ⟨hx, -⟩ ⟨hy, -⟩
  simp only [List.mem_cons, List.not_mem_nil, or_false, or_self] at hx hy
  rw [hx, hy]
  exact Nat.ModEq.refl _

end OpenArangoDBCore.Aql
