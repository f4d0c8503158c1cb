import OpenArangoDBCore.Aql.MinHashFunctions

/-!
# Signatures of sets (MinHashFunctions.cpp)

Nodes that see the same elements in another order, or in parts, come to the same
signature: a slot is the least hash of a set, and parts merge slot by slot.
-/

namespace OpenArangoDBCore.Aql
open MinWise

/-! ### Elements as a set -/

/-- A signature is known by its values as numbers. -/
theorem signature_ext {sig sig' : List UInt64} (h : sig.map UInt64.toNat = sig'.map UInt64.toNat) :
    sig = sig' :=
  List.map_injective_iff.mpr (fun _ _ => UInt64.toNat_inj.mp) h

theorem signature_congr (seeds : List PermutationSeed) {xs ys : List ByteString}
    (h : ∀ x, x ∈ xs ↔ x ∈ ys) : signature seeds xs = signature seeds ys := by
  apply signature_ext
  rw [(minimums_eq seeds xs).2, (minimums_eq seeds ys).2]
  exact List.map_congr_left fun seed _ => runningMin_congr _ h

/-- The signature of a set, from any list of its elements. -/
noncomputable def setSignature (seeds : List PermutationSeed) (elements : Finset ByteString) :
    List UInt64 := signature seeds elements.toList

theorem signature_eq_setSignature (seeds : List PermutationSeed) (xs : List ByteString) :
    signature seeds xs = setSignature seeds xs.toFinset :=
  signature_congr seeds fun x => by rw [Finset.mem_toList, List.mem_toFinset]

/-! ### Parts -/

theorem zipWith_min_toNat {seeds : List PermutationSeed} {sig sig' : List UInt64}
    {least least' : PermutationSeed → ℕ} (h : sig.map UInt64.toNat = seeds.map least)
    (h' : sig'.map UInt64.toNat = seeds.map least') :
    (List.zipWith min sig sig').map UInt64.toNat =
      seeds.map fun seed => min (least seed) (least' seed) := by
  rw [List.map_zipWith]
  simp only [toNat_min]
  rw [← List.zipWith_map, h, h', List.zipWith_map, List.zipWith_self]

theorem signature_append (seeds : List PermutationSeed) (xs ys : List ByteString) :
    signature seeds (xs ++ ys) = List.zipWith min (signature seeds xs) (signature seeds ys) := by
  apply signature_ext
  rw [zipWith_min_toNat (minimums_eq seeds xs).2 (minimums_eq seeds ys).2,
    (minimums_eq seeds (xs ++ ys)).2]
  exact List.map_congr_left fun seed _ => runningMin_append _ xs ys

/-! ### A generator that is used again -/

namespace MinHashGenerator

/-- What the owner of a generator can do with it. -/
inductive Call where
  | addElement (element : ByteString)
  | reset

def call (g : MinHashGenerator) : Call → MinHashGenerator
  | .addElement element => g.addElement element
  | .reset => g.reset

/-- The generator keeps its seeds and a slot for each of them. -/
def WellFormed (seeds : List PermutationSeed) (g : MinHashGenerator) : Prop :=
  g.seeds = seeds ∧ g.minimums.length = seeds.length

theorem wellFormed_call {seeds : List PermutationSeed} {g : MinHashGenerator}
    (h : WellFormed seeds g) (c : Call) : WellFormed seeds (g.call c) := by
  obtain ⟨rfl, hlength⟩ := h
  cases c with
  | addElement element =>
    refine ⟨rfl, ?_⟩
    simp only [call, addElement, List.length_zipWith, hlength, min_self]
  | reset =>
    refine ⟨rfl, ?_⟩
    simp only [call, reset, List.length_map, hlength]

theorem wellFormed_run (seeds : List PermutationSeed) (history : List Call) :
    WellFormed seeds (history.foldl call (new seeds)) := by
  induction history using List.reverseRecOn with
  | nil => exact ⟨rfl, List.length_replicate⟩
  | append_singleton history c ih =>
    rw [List.foldl_append]
    exact wellFormed_call ih c

theorem reset_eq_new {seeds : List PermutationSeed} {g : MinHashGenerator}
    (h : WellFormed seeds g) : g.reset = new seeds := by
  rw [reset, new, h.1, List.map_const', h.2]

end MinHashGenerator

/-- A signature is a function of the set of the elements, parts merge by the
slot-wise minimum, and nothing before a reset is left in a generator. -/
theorem signature_set_function (seeds : List PermutationSeed) :
    (∃ ofSet : Finset ByteString → List UInt64,
        ∀ elements, signature seeds elements = ofSet elements.toFinset) ∧
      (∀ elements elements', signature seeds (elements ++ elements') =
        List.zipWith min (signature seeds elements) (signature seeds elements')) ∧
      ∀ (history : List MinHashGenerator.Call) (elements : List ByteString),
        (elements.foldl MinHashGenerator.addElement
          (history.foldl MinHashGenerator.call (.new seeds)).reset).finalize =
            signature seeds elements := by
  refine ⟨⟨setSignature seeds, signature_eq_setSignature seeds⟩, signature_append seeds, ?_⟩
  intro history elements
  rw [MinHashGenerator.reset_eq_new (MinHashGenerator.wellFormed_run seeds history)]
  rfl

end OpenArangoDBCore.Aql
