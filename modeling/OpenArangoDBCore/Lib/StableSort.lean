import Mathlib.Data.List.Sort
import Mathlib.Tactic

/-!
# Leaving elements out before a stable sort

If at least `k` of the remaining elements come strictly before every element
that is left out, the first `k` of the sorted list stay the same, ties
included.
-/

namespace OpenArangoDBCore.StableSort
open List
variable {β : Type}

/-- The second list is the first one without some elements for which `out` holds. -/
inductive Thinned (out : β → Prop) : List β → List β → Prop
  | nil : Thinned out [] []
  | keep (a : β) {l l' : List β} (h : Thinned out l l') : Thinned out (a :: l) (a :: l')
  | leave (a : β) {l l' : List β} (ha : out a) (h : Thinned out l l') : Thinned out (a :: l) l'

theorem Thinned.mono {out out' : β → Prop} {l l' : List β} (h : Thinned out l l')
    (himp : ∀ a, out a → out' a) : Thinned out' l l' := by
  induction h with
  | nil => exact .nil
  | keep a _ ih => exact ih.keep a
  | leave a ha _ ih => exact ih.leave a (himp a ha)

theorem Thinned.sublist {out : β → Prop} {l l' : List β} (h : Thinned out l l') :
    l'.Sublist l := by
  induction h with
  | nil => exact List.Sublist.slnil
  | keep a _ ih => exact ih.cons_cons a
  | leave a _ _ ih => exact ih.cons a

variable (le : β → β → Prop) [DecidableRel le]

/-- Strictly before, so in front of the other one wherever they stand at first. -/
def Before (a b : β) : Prop := le a b ∧ ¬ le b a

instance (a b : β) : Decidable (Before le a b) := inferInstanceAs (Decidable (_ ∧ _))

variable [Std.Total le] [IsTrans β le]

omit [Std.Total le] in
theorem orderedInsert_around {x : β} {s t : List β} (h : (s ++ x :: t).Pairwise le) (a : β) :
    ∃ s' t', (s ++ x :: t).orderedInsert le a = s' ++ x :: t' ∧
      (s ++ t).orderedInsert le a = s' ++ t' := by
  induction s with
  | nil =>
    rw [List.nil_append] at h
    by_cases hax : le a x
    · refine ⟨[a], t, orderedInsert_cons_of_le le _ hax, ?_⟩
      cases t with
      | nil => rfl
      | cons y t =>
        have hxy := (List.pairwise_cons.mp h).1 y (List.mem_cons_self ..)
        exact orderedInsert_cons_of_le le _ (IsTrans.trans a x y hax hxy)
    · exact ⟨[], t.orderedInsert le a, orderedInsert_of_not_le le _ hax, rfl⟩
  | cons b s ih =>
    by_cases hab : le a b
    · exact ⟨a :: b :: s, t, orderedInsert_cons_of_le le _ hab, orderedInsert_cons_of_le le _ hab⟩
    · obtain ⟨s', t', hwith, hwithout⟩ := ih (List.pairwise_cons.mp h).2
      refine ⟨b :: s', t', ?_, ?_⟩
      · rw [List.cons_append, orderedInsert_of_not_le le _ hab, hwith]
        rfl
      · rw [List.cons_append, orderedInsert_of_not_le le _ hab, hwithout]
        rfl

theorem insertionSort_around (l₁ l₂ : List β) (x : β) :
    ∃ s t, (l₁ ++ x :: l₂).insertionSort le = s ++ x :: t ∧
      (l₁ ++ l₂).insertionSort le = s ++ t := by
  induction l₁ with
  | nil =>
    refine ⟨(l₂.insertionSort le).takeWhile (fun b => ¬ le x b),
      (l₂.insertionSort le).dropWhile (fun b => ¬ le x b), ?_, ?_⟩
    · rw [List.nil_append, insertionSort_cons, orderedInsert_eq_take_drop]
    · exact List.takeWhile_append_dropWhile.symm
  | cons a l₁ ih =>
    obtain ⟨s, t, hwith, hwithout⟩ := ih
    have hsorted := pairwise_insertionSort le (l₁ ++ x :: l₂)
    rw [hwith] at hsorted
    rw [List.cons_append, insertionSort_cons, hwith, List.cons_append, insertionSort_cons, hwithout]
    exact orderedInsert_around le hsorted a

/-- One element, with `k` others before it. -/
theorem take_insertionSort_without {k : ℕ} (l₁ l₂ : List β) (x : β)
    (h : k ≤ (l₁ ++ l₂).countP (Before le · x)) :
    ((l₁ ++ x :: l₂).insertionSort le).take k = ((l₁ ++ l₂).insertionSort le).take k := by
  obtain ⟨s, t, hwith, hwithout⟩ := insertionSort_around le l₁ l₂ x
  have hsorted := pairwise_insertionSort le (l₁ ++ x :: l₂)
  rw [hwith] at hsorted
  rw [← (perm_insertionSort le (l₁ ++ l₂)).countP_eq, hwithout, List.countP_append] at h
  have hbehind : t.countP (Before le · x) = 0 := by
    rw [List.countP_eq_zero]
    intro b hb hbefore
    have hxb := (List.pairwise_cons.mp (List.pairwise_append.mp hsorted).2.1).1 b hb
    exact (of_decide_eq_true hbefore).2 hxb
  have hfront : k ≤ s.length := by
    have hle := List.countP_le_length (p := fun b => decide (Before le b x)) (l := s)
    omega
  rw [hwith, hwithout, List.take_append_of_le_length hfront, List.take_append_of_le_length hfront]

theorem take_insertionSort_of_thinned {k : ℕ} {out : β → Prop} {l l' : List β}
    (h : Thinned out l l') (hout : ∀ a, out a → k ≤ l'.countP (Before le · a)) :
    (l.insertionSort le).take k = (l'.insertionSort le).take k := by
  have hfront : ∀ {l l' : List β}, Thinned out l l' → ∀ front : List β,
      (∀ a, out a → k ≤ (front ++ l').countP (Before le · a)) →
      ((front ++ l).insertionSort le).take k = ((front ++ l').insertionSort le).take k := by
    intro l l' h
    induction h with
    | nil => exact fun _ _ => rfl
    | @keep a l l' _ ih =>
      intro front hall
      rw [List.append_cons front a l, List.append_cons front a l']
      apply ih
      intro b hb
      rw [← List.append_cons]
      exact hall b hb
    | leave a ha hthin ih =>
      intro front hall
      rw [← ih front hall]
      apply take_insertionSort_without
      exact (hall a ha).trans ((hthin.sublist.append_left front).countP_le)
  exact hfront h [] hout

end OpenArangoDBCore.StableSort
