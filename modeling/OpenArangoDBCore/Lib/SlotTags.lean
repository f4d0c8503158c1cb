import Mathlib.Data.Finset.Card
import Mathlib.Data.List.Enum
import Mathlib.Tactic

/-!
# Lists as sets of tagged members

Each member of a list is tagged with its slot. Under tags that are injective in
slot and member together, two lists of one length share as many tags as they
have slots with equal members.
-/

namespace OpenArangoDBCore.SlotTags
variable {α β : Type} (tag : ℕ → α → β)

/-- The tags of the members, with slots that are counted from `n` on. -/
def tagFrom (n : ℕ) : List α → List β
  | [] => []
  | x :: xs => tag n x :: tagFrom (n + 1) xs

variable {tag}

theorem tagFrom_eq_zipIdx (n : ℕ) (xs : List α) :
    (xs.zipIdx n).map (fun e => tag e.2 e.1) = tagFrom tag n xs := by
  induction xs generalizing n with
  | nil => rfl
  | cons x xs ih => rw [List.zipIdx_cons, List.map_cons, ih, tagFrom]

theorem length_tagFrom (n : ℕ) (xs : List α) : (tagFrom tag n xs).length = xs.length := by
  induction xs generalizing n with
  | nil => rfl
  | cons x xs ih => rw [tagFrom, List.length_cons, List.length_cons, ih]

theorem exists_of_mem_tagFrom {n : ℕ} {xs : List α} {t : β} (h : t ∈ tagFrom tag n xs) :
    ∃ i x, n ≤ i ∧ t = tag i x := by
  induction xs generalizing n with
  | nil => cases h
  | cons x xs ih =>
    rcases List.mem_cons.mp h with hhead | htail
    · exact ⟨n, x, le_rfl, hhead⟩
    · obtain ⟨i, y, hi, heq⟩ := ih htail
      exact ⟨i, y, (Nat.le_succ n).trans hi, heq⟩

variable (hinj : ∀ i j x y, tag i x = tag j y → i = j ∧ x = y)
include hinj

theorem tag_notMem (n : ℕ) (x : α) (xs : List α) : tag n x ∉ tagFrom tag (n + 1) xs := by
  intro h
  obtain ⟨i, y, hi, heq⟩ := exists_of_mem_tagFrom h
  have hsame := (hinj n i x y heq).1
  omega

theorem nodup_tagFrom (n : ℕ) (xs : List α) : (tagFrom tag n xs).Nodup := by
  induction xs generalizing n with
  | nil => exact List.nodup_nil
  | cons x xs ih => exact List.nodup_cons.mpr ⟨tag_notMem hinj n x xs, ih (n + 1)⟩

/-- The common tags are those of the slots that agree. -/
theorem card_inter_tagFrom [DecidableEq α] [DecidableEq β] (n : ℕ) (xs ys : List α)
    (h : xs.length = ys.length) :
    ((tagFrom tag n xs).toFinset ∩ (tagFrom tag n ys).toFinset).card =
      (xs.zip ys).countP fun e => e.1 = e.2 := by
  induction xs generalizing n ys with
  | nil => rfl
  | cons x xs ih =>
    cases ys with
    | nil => cases h
    | cons y ys =>
      have hx : ∀ zs, tag n x ∉ (tagFrom tag (n + 1) zs).toFinset := fun zs hmem =>
        tag_notMem hinj n x zs (List.mem_toFinset.mp hmem)
      have hy : tag n y ∉ (tagFrom tag (n + 1) xs).toFinset := fun hmem =>
        tag_notMem hinj n y xs (List.mem_toFinset.mp hmem)
      rw [tagFrom, tagFrom, List.toFinset_cons, List.toFinset_cons, List.zip_cons_cons,
        List.countP_cons, ← ih (n + 1) ys (Nat.succ.inj h)]
      by_cases hxy : x = y
      · subst hxy
        rw [← Finset.insert_inter_distrib, Finset.card_insert_of_notMem]
        · simp
        · exact fun hmem => hx ys (Finset.mem_inter.mp hmem).2
      · have hne : tag n x ≠ tag n y := fun heq => hxy (hinj n n x y heq).2
        have hnot : tag n x ∉ insert (tag n y) (tagFrom tag (n + 1) ys).toFinset := by
          rw [Finset.mem_insert]
          exact not_or.mpr ⟨hne, hx ys⟩
        rw [Finset.insert_inter_of_notMem hnot, Finset.inter_insert_of_notMem hy]
        simp [hxy]

end OpenArangoDBCore.SlotTags
