import Mathlib.Data.List.Sort
import Mathlib.Data.Multiset.Basic
import Mathlib.Order.Lattice
import Mathlib.Tactic

/-!
# The k best of a collection

With ties there is more than one choice of the k best, so a choice is a
relation. What lies strictly below k others belongs to no choice and may be
left out.
-/

namespace OpenArangoDBCore.TopK
variable {α β : Type} [LinearOrder α]

/-- For `0 < k`. -/
def kthLargest (k : ℕ) (scores : List α) : Option α :=
  (scores.mergeSort (· ≥ ·))[k - 1]?

/-- One choice of the k best, all of them if there are fewer. -/
def IsTopK (k : ℕ) (score : β → α) (docs best : Multiset β) : Prop :=
  ∃ rest, docs = best + rest ∧ best.card = min k docs.card ∧
    ∀ r ∈ rest, ∀ b ∈ best, score r ≤ score b

theorem kthLargest_above {k : ℕ} (hk : 0 < k) {scores : List α} {x : α}
    (h : k ≤ scores.countP (x < ·)) : ∃ t, kthLargest k scores = some t ∧ x < t := by
  have hperm := List.mergeSort_perm scores (· ≥ ·)
  have hsorted := List.sortedGE_mergeSort (l := scores)
  have hcount := hperm.countP_eq (x < ·)
  unfold kthLargest
  generalize scores.mergeSort (· ≥ ·) = l at hperm hsorted hcount
  rw [← hcount] at h
  have hlen : k - 1 < l.length := by
    have hle := List.countP_le_length (p := fun s => decide (x < s)) (l := l)
    omega
  refine ⟨l[k - 1], List.getElem?_eq_getElem hlen, ?_⟩
  by_contra hnot
  -- from the k-th entry on nothing is above x
  have hdrop : (l.drop (k - 1)).countP (x < ·) = 0 := by
    rw [List.countP_eq_zero]
    intro s hs
    obtain ⟨i, hi, rfl⟩ := List.getElem_of_mem hs
    rw [List.getElem_drop, decide_eq_true_eq, not_lt]
    rw [List.length_drop] at hi
    have hi' : k - 1 + i < l.length := by omega
    have hle : (⟨k - 1, hlen⟩ : Fin l.length) ≤ ⟨k - 1 + i, hi'⟩ := Nat.le_add_right _ _
    exact (hsorted.antitone_get hle).trans (not_lt.mp hnot)
  have htake : (l.take (k - 1)).countP (x < ·) ≤ k - 1 :=
    List.countP_le_length.trans (List.length_take_le _ _)
  have hsplit : (l.take (k - 1) ++ l.drop (k - 1)).countP (x < ·) = _ := List.countP_append
  rw [List.take_append_drop] at hsplit
  omega

omit [LinearOrder α] in
theorem countP_le_of_imp {p q : α → Prop} [DecidablePred p] [DecidablePred q]
    (h : ∀ a, p a → q a) (s : Multiset α) : s.countP p ≤ s.countP q := by
  rw [Multiset.countP_eq_card_filter, Multiset.countP_eq_card_filter]
  exact Multiset.card_le_card (Multiset.monotone_filter_right s h)

/-! ### One element more -/

section Insert
variable {k : ℕ} {score : β → α} {docs best : Multiset β}

theorem isTopK_nil : IsTopK k score 0 0 := by
  refine ⟨0, rfl, ?_, ?_⟩
  · rw [Multiset.card_zero, Nat.min_zero]
  · intro r hr
    exact absurd hr (Multiset.notMem_zero r)

theorem IsTopK.card (h : IsTopK k score docs best) : best.card = min k docs.card := by
  obtain ⟨-, -, hcard, -⟩ := h
  exact hcard

theorem IsTopK.le (h : IsTopK k score docs best) : best ≤ docs := by
  obtain ⟨rest, rfl, -, -⟩ := h
  exact Multiset.le_add_right best rest

/-- As long as there are fewer than `k` nothing is left out. -/
theorem IsTopK.insert_short (h : IsTopK k score docs best) (hlt : best.card < k) (x : β) :
    IsTopK k score (x ::ₘ docs) (x ::ₘ best) := by
  obtain ⟨rest, rfl, hcard, -⟩ := h
  rw [Multiset.card_add] at hcard
  have hrest : rest = 0 := by
    apply Multiset.card_eq_zero.mp
    omega
  subst hrest
  refine ⟨0, ?_, ?_, ?_⟩
  · rw [add_zero, add_zero]
  · rw [Multiset.card_cons, Multiset.card_cons, add_zero]
    omega
  · intro r hr
    exact absurd hr (Multiset.notMem_zero r)

/-- A better element takes the place of the least one. -/
theorem IsTopK.insert_above {least : β} (h : IsTopK k score docs (least ::ₘ best))
    (hfull : k ≤ (least ::ₘ best).card) (hleast : ∀ b ∈ best, score least ≤ score b) {x : β}
    (hx : score least ≤ score x) :
    IsTopK k score (x ::ₘ docs) (x ::ₘ best) := by
  obtain ⟨rest, rfl, hcard, hrest⟩ := h
  refine ⟨least ::ₘ rest, ?_, ?_, ?_⟩
  · rw [Multiset.cons_add, Multiset.cons_add, Multiset.add_cons]
  · simp only [Multiset.card_cons, Multiset.card_add] at hcard hfull ⊢
    omega
  · have hbelow : ∀ r ∈ least ::ₘ rest, score r ≤ score least := by
      intro r hr
      cases Multiset.mem_cons.mp hr with
      | inl heq => rw [heq]
      | inr hr => exact hrest r hr least (Multiset.mem_cons_self _ _)
    intro r hr b hb
    apply (hbelow r hr).trans
    cases Multiset.mem_cons.mp hb with
    | inl heq =>
      rw [heq]
      exact hx
    | inr hb => exact hleast b hb

/-- An element that is no better than any of `k` is left out. -/
theorem IsTopK.insert_below (h : IsTopK k score docs best) (hfull : k ≤ best.card) {x : β}
    (hx : ∀ b ∈ best, score x ≤ score b) : IsTopK k score (x ::ₘ docs) best := by
  obtain ⟨rest, rfl, hcard, hrest⟩ := h
  refine ⟨x ::ₘ rest, (Multiset.add_cons _ _ _).symm, ?_, ?_⟩
  · rw [Multiset.card_cons]
    omega
  · intro r hr
    cases Multiset.mem_cons.mp hr with
    | inl heq =>
      rw [heq]
      exact hx
    | inr hr => exact hrest r hr

end Insert

/-! ### What lies below k others -/

section Below
variable {k : ℕ} {score : β → α} {docs : Multiset β}

/-- If `k` elements lie above `x`, a choice of the k best has nothing else. -/
theorem IsTopK.above {best : Multiset β} (h : IsTopK k score docs best) {x : β} {b : β}
    (hb : b ∈ best) (hbx : score b ≤ score x)
    (habove : k ≤ docs.countP (fun d => score x < score d)) : False := by
  obtain ⟨rest, rfl, hcard, hrest⟩ := h
  rw [Multiset.countP_add] at habove
  have hnone : rest.countP (fun d => score x < score d) = 0 := by
    rw [Multiset.countP_eq_zero]
    intro r hr
    exact not_lt.mpr ((hrest r hr b hb).trans hbx)
  have hle := Multiset.countP_le_card (fun d => score x < score d) best
  have hall : best.countP (fun d => score x < score d) = best.card := by omega
  exact absurd (Multiset.countP_eq_card.mp hall b hb) (not_lt.mpr hbx)

/-- The choices of the k best stay the same when elements below k others are added. -/
theorem isTopK_add_below {more : Multiset β}
    (hbelow : ∀ x ∈ more, k ≤ docs.countP (fun d => score x < score d)) (best : Multiset β) :
    IsTopK k score docs best ↔ IsTopK k score (docs + more) best := by
  classical
  by_cases hempty : more = 0
  · rw [hempty, add_zero]
  obtain ⟨x₀, hx₀⟩ := Multiset.exists_mem_of_ne_zero hempty
  have hk : k ≤ docs.card := (hbelow x₀ hx₀).trans (Multiset.countP_le_card _ _)
  have hcards : min k (docs + more).card = min k docs.card := by
    rw [Multiset.card_add]
    omega
  constructor
  · intro h
    obtain ⟨rest, hdocs, hcard, hrest⟩ := id h
    refine ⟨rest + more, ?_, hcard.trans hcards.symm, ?_⟩
    · rw [hdocs, add_assoc]
    · intro r hr b hb
      cases Multiset.mem_add.mp hr with
      | inl hr => exact hrest r hr b hb
      | inr hr =>
        by_contra hlt
        exact h.above hb (le_of_lt (not_le.mp hlt)) (hbelow r hr)
  · intro h
    have hapart : ∀ x ∈ more, x ∉ best := by
      intro x hx hxb
      refine h.above hxb le_rfl ((hbelow x hx).trans ?_)
      rw [Multiset.countP_add]
      exact Nat.le_add_right _ _
    have hle : best ≤ docs := by
      rw [Multiset.le_iff_count]
      intro a
      have hcount := Multiset.count_le_of_le a h.le
      rw [Multiset.count_add] at hcount
      by_cases ha : a ∈ more
      · rw [Multiset.count_eq_zero_of_notMem (hapart a ha)]
        exact Nat.zero_le _
      · rwa [Multiset.count_eq_zero_of_notMem ha, add_zero] at hcount
    obtain ⟨rest, hdocs⟩ := Multiset.le_iff_exists_add.mp hle
    obtain ⟨others, hall, hcard, hothers⟩ := h
    have hsplit : rest + more = others := by
      rw [hdocs, add_assoc] at hall
      exact add_left_cancel hall
    refine ⟨rest, hdocs, hcard.trans hcards, ?_⟩
    intro r hr
    apply hothers r
    rw [← hsplit]
    exact Multiset.mem_add.mpr (.inl hr)

end Below

/-! ### Choosing among the scores themselves -/

section Scores
variable {k : ℕ} {scores best : List α}

theorem kthLargest_eq_none (h : scores.length < k) : kthLargest k scores = none := by
  unfold kthLargest
  rw [List.getElem?_eq_none_iff, List.length_mergeSort]
  omega

/-- There is only one choice. -/
theorem IsTopK.eq_take (h : IsTopK k id (scores : Multiset α) best) :
    (best : Multiset α) = ((scores.mergeSort (· ≥ ·)).take k : List α) := by
  obtain ⟨rest, hsplit, hcard, hrest⟩ := h
  obtain ⟨others, rfl⟩ := Quot.exists_rep rest
  change (scores : Multiset α) = best + (others : Multiset α) at hsplit
  rw [Multiset.coe_add, Multiset.coe_eq_coe] at hsplit
  rw [Multiset.coe_card, Multiset.coe_card] at hcard
  have hbest := List.mergeSort_perm best (· ≥ ·)
  have hothers := List.mergeSort_perm others (· ≥ ·)
  have hsorted : (best.mergeSort (· ≥ ·) ++ others.mergeSort (· ≥ ·)).SortedGE := by
    rw [List.sortedGE_iff_pairwise, List.pairwise_append]
    refine ⟨List.sortedGE_mergeSort.pairwise, List.sortedGE_mergeSort.pairwise, ?_⟩
    intro b hb r hr
    exact hrest r (hothers.mem_iff.mp hr) b (hbest.mem_iff.mp hb)
  have hperm := (List.mergeSort_perm scores (· ≥ ·)).trans
    (hsplit.trans (hbest.append hothers).symm)
  have hlength := hsplit.length_eq
  rw [List.length_append] at hlength
  rw [hperm.eq_of_sortedGE List.sortedGE_mergeSort hsorted]
  rcases le_total k scores.length with hmany | hfew
  · rw [min_eq_left hmany] at hcard
    rw [List.take_left' ((List.length_mergeSort best).trans hcard)]
    exact Multiset.coe_eq_coe.mpr hbest.symm
  · rw [min_eq_right hfew] at hcard
    have hnone : others = [] := List.eq_nil_of_length_eq_zero (by omega)
    rw [hnone, List.mergeSort_nil, List.append_nil, List.take_of_length_le]
    · exact Multiset.coe_eq_coe.mpr hbest.symm
    · rw [List.length_mergeSort]
      omega

/-- The least of a choice of `k` is the k-th largest. -/
theorem IsTopK.kthLargest_eq (h : IsTopK k id (scores : Multiset α) best)
    (hlength : best.length = k) {least : α} (hmem : least ∈ best)
    (hleast : ∀ b ∈ best, least ≤ b) : kthLargest k scores = some least := by
  have hperm := Multiset.coe_eq_coe.mp h.eq_take
  have hpos := List.length_pos_of_mem hmem
  have hsorted := List.sortedGE_mergeSort (l := scores)
  unfold kthLargest
  generalize scores.mergeSort (· ≥ ·) = sorted at hperm hsorted
  have htaken := hperm.length_eq
  rw [hlength, List.length_take] at htaken
  have hlast : k - 1 < sorted.length := by omega
  have hmemLast : sorted[k - 1] ∈ best := by
    rw [hperm.mem_iff]
    exact List.mem_take_iff_getElem.mpr ⟨k - 1, by omega, rfl⟩
  obtain ⟨i, hi, heq⟩ := List.getElem_of_mem (hperm.mem_iff.mp hmem)
  rw [List.length_take] at hi
  rw [List.getElem_take] at heq
  have hi' : i < sorted.length := by omega
  have hle : (⟨i, hi'⟩ : Fin sorted.length) ≤ ⟨k - 1, hlast⟩ := by
    change i ≤ k - 1
    omega
  have hbelow := hsorted.antitone_get hle
  rw [List.getElem?_eq_getElem hlast, Option.some_inj]
  exact le_antisymm (heq ▸ hbelow) (hleast _ hmemLast)

end Scores

end OpenArangoDBCore.TopK
