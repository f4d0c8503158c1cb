import Mathlib.Data.List.TakeWhile
import OpenArangoDBCore.IResearch.IResearchOptimizeTopK
import OpenArangoDBCore.Lib.TopK

/-!
# Early termination keeps the top k

A document is passed over while the threshold is above its bound. From then
on at least k scored documents are strictly better, since the heap holds the
k best of the scores and only ever gets better ones.
-/

namespace OpenArangoDBCore.IResearch
open Interleaving TopK
variable {α : Type} [LinearOrder α]

/-! ### The threshold manager -/

namespace ScoreThresholdManager

theorem coe_orderedInsert (score : α) (l : List α) :
    (l.orderedInsert (· ≤ ·) score : Multiset α) = score ::ₘ (l : Multiset α) :=
  Multiset.coe_eq_coe.mpr (List.perm_orderedInsert _ score l)

variable [Zero α]

/-- The heap is a choice of the k best of the scores added. -/
def Holds (m : ScoreThresholdManager α) (scores : Multiset α) : Prop :=
  IsTopK m.k id scores (m.heap : Multiset α)

theorem addScore_k (m : ScoreThresholdManager α) (score : α) : (m.addScore score).2.k = m.k := by
  unfold addScore
  split
  · rfl
  · split <;> rfl

theorem addScore_heap (m : ScoreThresholdManager α) (score : α) :
    (m.addScore score).2.heap =
      if m.heap.length < m.k then m.heap.orderedInsert (· ≤ ·) score
      else if m.heap.headD 0 < score then m.heap.tail.orderedInsert (· ≤ ·) score else m.heap := by
  unfold addScore
  split
  · rfl
  · split <;> rfl

theorem Holds.addScore {m : ScoreThresholdManager α} {scores : Multiset α} (h : m.Holds scores)
    (hk : 0 < m.k) (score : α) : (m.addScore score).2.Holds (score ::ₘ scores) := by
  unfold Holds at *
  rw [addScore_k, addScore_heap]
  by_cases hlt : m.heap.length < m.k
  · rw [if_pos hlt, coe_orderedInsert]
    exact h.insert_short hlt score
  · rw [if_neg hlt]
    have hascending := m.ascending
    cases hheap : m.heap with
    | nil =>
      rw [hheap] at hlt
      exact absurd hk hlt
    | cons front rest =>
      rw [hheap] at h hlt hascending
      have hfront := (List.pairwise_cons.mp hascending).1
      rw [List.headD_cons, List.tail_cons]
      by_cases hscore : front < score
      · rw [if_pos hscore, coe_orderedInsert]
        exact IsTopK.insert_above h (not_lt.mp hlt) hfront (le_of_lt hscore)
      · rw [if_neg hscore]
        apply IsTopK.insert_below h (not_lt.mp hlt)
        intro b hb
        apply (not_lt.mp hscore).trans
        cases List.mem_cons.mp hb with
        | inl heq => exact le_of_eq heq.symm
        | inr hb => exact hfront b hb

/-- Below the threshold is below k of the scores, unless it is below zero. -/
theorem Holds.below_threshold {m : ScoreThresholdManager α} {scores : Multiset α}
    (h : m.Holds scores) {x : α} (hx : 0 ≤ x) (hlt : x < m.threshold) :
    m.k ≤ scores.countP (x < ·) := by
  unfold threshold at hlt
  split at hlt
  · exact absurd hlt (not_lt.mpr hx)
  next hfull =>
    have hall : (m.heap : Multiset α).countP (x < ·) = (m.heap : Multiset α).card := by
      rw [Multiset.countP_eq_card]
      intro b hb
      have hascending := m.ascending
      cases hheap : m.heap with
      | nil =>
        rw [hheap] at hb
        exact absurd hb (Multiset.notMem_zero b)
      | cons front rest =>
        rw [hheap] at hb hlt hascending
        apply hlt.trans_le
        cases List.mem_cons.mp hb with
        | inl heq => exact le_of_eq heq.symm
        | inr hb => exact (List.pairwise_cons.mp hascending).1 b hb
    calc m.k ≤ m.heap.length := not_lt.mp hfull
      _ = (m.heap : Multiset α).countP (x < ·) := hall.symm
      _ ≤ scores.countP (x < ·) := Multiset.countP_le_of_le _ h.le

end ScoreThresholdManager

/-! ### What a call passes over -/

/-- A call leaves the iterator where it is, or moves it over documents that are
below its target or cannot reach the threshold. -/
inductive Advance (threshold : α) (target : UInt64) (before after : DocListIterator α) : Prop
  | stayed (same : after = before)
  | moved (low unable : List (DocEntry α))
      (split : before.rest = low ++ unable ++ after.current.toList ++ after.rest)
      (below : ∀ doc ∈ low, doc.docId < target)
      (unable_lt : ∀ doc ∈ unable, doc.maxScore < threshold)

namespace Advance
variable {threshold : α} {target : UInt64} {before after : DocListIterator α}

theorem moved_eq {low unable : List (DocEntry α)}
    (h : before.rest = low ++ unable ++ after.current.toList ++ after.rest) :
    IResearch.moved before after = low ++ unable ++ after.current.toList := by
  unfold IResearch.moved
  have hlen : before.rest.length - after.rest.length =
      (low ++ unable ++ after.current.toList).length := by
    simp only [h, List.length_append]
    omega
  rw [hlen, h, List.take_left]

theorem moved_self (it : DocListIterator α) : IResearch.moved it it = [] := by
  unfold IResearch.moved
  rw [Nat.sub_self, List.take_zero]

/-- What is passed over: of the documents at or behind the target only such
that cannot reach the threshold. -/
theorem passedOver_unable (h : Advance threshold target before after) :
    ∀ doc ∈ passedOver before after, target ≤ doc.docId → doc.maxScore < threshold := by
  intro doc hdoc htarget
  have hmem : doc ∈ passedOver before after → IResearch.moved before after ≠ [] := by
    intro hdoc hnil
    unfold passedOver at hdoc
    rw [hnil] at hdoc
    split at hdoc <;> cases hdoc
  cases h with
  | stayed same =>
    rw [same] at hmem hdoc
    exact absurd (moved_self before) (hmem hdoc)
  | moved low unable split below unable_lt =>
    have hpassed : passedOver before after = low ++ unable := by
      unfold passedOver
      rw [moved_eq split]
      cases after.current with
      | none => exact List.append_nil _
      | some d => exact List.dropLast_concat
    rw [hpassed] at hdoc
    cases List.mem_append.mp hdoc with
    | inl hlow => exact absurd (below doc hlow) (UInt64.not_lt.mpr htarget)
    | inr hunable => exact unable_lt doc hunable

theorem arrivedAt_eq (h : Advance threshold target before after) :
    arrivedAt before after = none ∨ arrivedAt before after = after.current := by
  unfold arrivedAt
  cases h with
  | stayed same =>
    left
    rw [same, moved_self]
    split <;> rfl
  | moved low unable split below unable_lt =>
    right
    rw [moved_eq split]
    cases after.current with
    | none => rfl
    | some d => exact List.getLast?_concat

theorem rest_subset (h : Advance threshold target before after) :
    ∀ doc ∈ after.rest, doc ∈ before.rest := by
  intro doc hdoc
  cases h with
  | stayed same => rwa [same] at hdoc
  | moved low unable split below unable_lt =>
    rw [split]
    exact List.mem_append_right _ hdoc

theorem passedOver_subset (before after : DocListIterator α) :
    ∀ doc ∈ passedOver before after, doc ∈ before.rest := by
  intro doc hdoc
  unfold passedOver at hdoc
  split at hdoc
  · exact List.mem_of_mem_take (List.mem_of_mem_dropLast hdoc)
  · exact List.mem_of_mem_take hdoc

end Advance

/-- A seek of the inner iterator passes over documents below its target alone. -/
theorem DocListIterator.seek_advance (it : DocListIterator α) (target : UInt64) :
    (it.seek target).2 = it ∨ ∃ low, it.rest = low ++ (it.seek target).2.current.toList ++
      (it.seek target).2.rest ∧ ∀ doc ∈ low, doc.docId < target := by
  unfold seek
  split
  · exact .inl rfl
  · right
    refine ⟨it.rest.takeWhile fun doc => doc.docId < target, ?_, ?_⟩
    · have hnext : ∀ rest : List (DocEntry α), rest =
          (next ⟨none, rest, it.stays⟩).2.current.toList ++ (next ⟨none, rest, it.stays⟩).2.rest := by
        intro rest
        cases rest <;> rfl
      rw [List.append_assoc, ← hnext]
      exact List.takeWhile_append_dropWhile.symm
    · intro doc hdoc
      have hbelow := List.mem_takeWhile_imp hdoc
      exact of_decide_eq_true hbelow

/-! ### What becomes of the documents -/

/-- What becomes of a document of iterator `i`. -/
inductive Visit (ι α : Type) [LE α] where
  | passed (i : ι) (doc : DocEntry α)
  | returned (i : ι) (doc : DocEntry α)
  | scored (i : ι) (doc : DocEntry α)

section Visits
variable {ι : Type}

def passedDocs (seen : List (Visit ι α)) : List (ι × DocEntry α) :=
  seen.filterMap fun v => match v with
    | .passed i doc => some (i, doc)
    | _ => none

def returnedDocs (seen : List (Visit ι α)) : List (ι × DocEntry α) :=
  seen.filterMap fun v => match v with
    | .returned i doc => some (i, doc)
    | _ => none

def scoredDocs (seen : List (Visit ι α)) : List (ι × DocEntry α) :=
  seen.filterMap fun v => match v with
    | .scored i doc => some (i, doc)
    | _ => none

/-- A call passes over documents at or behind its target, and returns the one it arrives at. -/
def callVisits (i : ι) (target : UInt64) (before after : DocListIterator α) :
    List (Visit ι α) :=
  ((passedOver before after).filter fun doc => target ≤ doc.docId).map (.passed i) ++
    (arrivedAt before after).toList.map (.returned i)

theorem passedDocs_call (seen : List (Visit ι α)) (i : ι) (target : UInt64)
    (before after : DocListIterator α) :
    passedDocs (seen ++ callVisits i target before after) = passedDocs seen ++
      ((passedOver before after).filter fun doc => target ≤ doc.docId).map (i, ·) := by
  simp [passedDocs, callVisits, List.filterMap_map]

theorem returnedDocs_call (seen : List (Visit ι α)) (i : ι) (target : UInt64)
    (before after : DocListIterator α) :
    returnedDocs (seen ++ callVisits i target before after) =
      returnedDocs seen ++ (arrivedAt before after).toList.map (i, ·) := by
  simp [returnedDocs, callVisits, List.filterMap_map]

theorem scoredDocs_call (seen : List (Visit ι α)) (i : ι) (target : UInt64)
    (before after : DocListIterator α) :
    scoredDocs (seen ++ callVisits i target before after) = scoredDocs seen := by
  simp [scoredDocs, callVisits, List.filterMap_map]

theorem visits_scored (seen : List (Visit ι α)) (i : ι) (doc : DocEntry α) :
    passedDocs (seen ++ [.scored i doc]) = passedDocs seen ∧
      returnedDocs (seen ++ [.scored i doc]) = returnedDocs seen ∧
      scoredDocs (seen ++ [.scored i doc]) = scoredDocs seen ++ [(i, doc)] := by
  refine ⟨?_, ?_, ?_⟩
  · simp [passedDocs]
  · simp [returnedDocs]
  · simp [scoredDocs]

def scores (docs : List (ι × DocEntry α)) : List α := docs.map fun x => x.2.score

def owedDocs (i : ι) (cursor : Cursor α) : List (ι × DocEntry α) :=
  if cursor.owed then cursor.iterator.docs.current.toList.map (i, ·) else []

variable [DecidableEq ι]

theorem filter_own (i : ι) (docs : List (DocEntry α)) :
    (docs.map (i, ·)).filter (fun x => x.1 = i) = docs.map (i, ·) := by
  rw [List.filter_eq_self]
  intro x hx
  obtain ⟨doc, -, rfl⟩ := List.mem_map.mp hx
  exact decide_eq_true rfl

theorem filter_other {i j : ι} (hij : j ≠ i) (docs : List (DocEntry α)) :
    (docs.map (i, ·)).filter (fun x => x.1 = j) = [] := by
  rw [List.filter_eq_nil_iff]
  intro x hx
  obtain ⟨doc, -, rfl⟩ := List.mem_map.mp hx
  simpa using hij.symm

structure CursorFits (i : ι) (seen : List (Visit ι α)) (cursor : Cursor α) : Prop where
  wrapped : ∃ w, cursor.iterator = .wand w
  current : cursor.owed = true → cursor.iterator.docs.current.isSome = true
  balance : (returnedDocs seen).filter (fun x => x.1 = i) =
    (scoredDocs seen).filter (fun x => x.1 = i) ++ owedDocs i cursor

/-- What the visits of one iterator leave as it is for the others. -/
theorem CursorFits.frame {j : ι} {seen more : List (Visit ι α)} {cursor : Cursor α}
    (h : CursorFits j seen cursor) (hreturned : (returnedDocs (seen ++ more)).filter
      (fun x => x.1 = j) = (returnedDocs seen).filter (fun x => x.1 = j))
    (hscored : (scoredDocs (seen ++ more)).filter (fun x => x.1 = j) =
      (scoredDocs seen).filter (fun x => x.1 = j)) : CursorFits j (seen ++ more) cursor := by
  refine ⟨h.wrapped, h.current, ?_⟩
  rw [hreturned, hscored]
  exact h.balance

theorem CursorFits.call {i : ι} {seen : List (Visit ι α)} {w w' : WandIterator α}
    (h : CursorFits i seen ⟨.wand w, false⟩) {threshold : α} {target : UInt64}
    (hadvance : Advance threshold target w.inner w'.inner) :
    CursorFits i (seen ++ callVisits i target w.inner w'.inner)
      ⟨.wand w', (arrivedAt w.inner w'.inner).isSome⟩ := by
  refine ⟨⟨w', rfl⟩, ?_, ?_⟩
  · intro howed
    cases hadvance.arrivedAt_eq with
    | inl hnone =>
      rw [hnone] at howed
      cases howed
    | inr hsame => rwa [hsame] at howed
  · have hbalance : (returnedDocs seen).filter (fun x => x.1 = i) =
        (scoredDocs seen).filter (fun x => x.1 = i) := h.balance.trans (List.append_nil _)
    rw [returnedDocs_call, scoredDocs_call, List.filter_append, hbalance, filter_own]
    congr 1
    unfold owedDocs
    cases hadvance.arrivedAt_eq with
    | inl hnone =>
      rw [hnone]
      rfl
    | inr hsame =>
      rw [hsame]
      cases hcurrent : w'.inner.current with
      | none => rfl
      | some doc => simp [ScoredDocIterator.docs, hcurrent]

theorem CursorFits.score {i : ι} {seen : List (Visit ι α)} {it : ScoredDocIterator α}
    (h : CursorFits i seen ⟨it, true⟩) {doc : DocEntry α} (hdoc : it.docs.current = some doc) :
    CursorFits i (seen ++ [.scored i doc]) ⟨it, false⟩ := by
  obtain ⟨-, hreturned, hscored⟩ := visits_scored seen i doc
  refine ⟨h.wrapped, (fun howed => nomatch howed), ?_⟩
  have howed : owedDocs i ⟨it, true⟩ = [doc].map (i, ·) := by
    simp [owedDocs, hdoc]
  have hbalance := h.balance
  rw [howed] at hbalance
  have hown : [(i, doc)].filter (fun x => x.1 = i) = [(i, doc)] := filter_own i [doc]
  rw [hreturned, hscored, hbalance, List.filter_append, hown]
  exact (List.append_nil _).symm

end Visits

variable [Zero α]

namespace WandIterator
variable (manager : ScoreThresholdManager α)

theorem nextLoop_advance (stays : Bool) (rest : List (DocEntry α)) (skipped : ℕ) :
    ∃ unable, rest = unable ++ (nextLoop manager stays rest skipped).2.inner.current.toList ++
        (nextLoop manager stays rest skipped).2.inner.rest ∧
      ∀ doc ∈ unable, doc.maxScore < manager.threshold := by
  induction rest generalizing skipped with
  | nil =>
    refine ⟨[], rfl, ?_⟩
    intro doc hdoc
    cases hdoc
  | cons doc rest ih =>
    by_cases hcompetitive : manager.threshold ≤ doc.maxScore
    · have hstep : nextLoop manager stays (doc :: rest) skipped =
          (true, ⟨⟨some doc, rest, stays⟩, skipped⟩) := if_pos hcompetitive
      rw [hstep]
      refine ⟨[], rfl, ?_⟩
      intro d hd
      cases hd
    · have hstep : nextLoop manager stays (doc :: rest) skipped =
          nextLoop manager stays rest (skipped + 1) := if_neg hcompetitive
      obtain ⟨unable, hsplit, hunable⟩ := ih (skipped + 1)
      rw [hstep]
      refine ⟨doc :: unable, ?_, ?_⟩
      · rw [List.cons_append, List.cons_append, ← hsplit]
      · intro d hd
        cases List.mem_cons.mp hd with
        | inl heq =>
          rw [heq]
          exact not_le.mp hcompetitive
        | inr hd => exact hunable d hd

theorem next_advance (w : WandIterator α) :
    Advance manager.threshold 0 w.inner (w.next manager).2.inner := by
  obtain ⟨unable, hsplit, hunable⟩ :=
    nextLoop_advance manager w.inner.stays w.inner.rest w.skipped
  refine .moved [] unable hsplit ?_ hunable
  intro doc hdoc
  cases hdoc

end WandIterator

theorem WandIterator.seek_advance (manager : ScoreThresholdManager α) (w : WandIterator α)
    (target : UInt64) :
    Advance manager.threshold target w.inner (w.seek manager target).2.inner := by
  have hinner : Advance manager.threshold target w.inner (w.inner.seek target).2 := by
    cases w.inner.seek_advance target with
    | inl hsame => exact .stayed hsame
    | inr hmoved =>
      obtain ⟨low, hsplit, hlow⟩ := hmoved
      refine .moved low [] ?_ hlow ?_
      · rw [List.append_nil]
        exact hsplit
      · intro doc hdoc
        cases hdoc
  unfold seek
  dsimp only
  split
  next hskip =>
    -- the document found cannot reach the threshold either, and `next()` goes on behind it
    obtain ⟨unable, hrest, hunable⟩ := nextLoop_advance manager (w.inner.seek target).2.stays
      (w.inner.seek target).2.rest w.skipped
    cases w.inner.seek_advance target with
    | inl hsame =>
      refine .moved [] unable ?_ (fun doc hdoc => nomatch hdoc) hunable
      have hsplit := congrArg DocListIterator.rest hsame
      exact hsplit.symm.trans hrest
    | inr hmoved =>
      obtain ⟨low, hsplit, hlow⟩ := hmoved
      refine .moved low ((w.inner.seek target).2.current.toList ++ unable) ?_ hlow ?_
      · let found := (w.inner.seek target).2.current.toList
        let w' := (nextLoop manager (w.inner.seek target).2.stays (w.inner.seek target).2.rest
          w.skipped).2
        calc w.inner.rest = low ++ found ++ (w.inner.seek target).2.rest := hsplit
          _ = low ++ found ++ (unable ++ w'.inner.current.toList ++ w'.inner.rest) :=
            congrArg (low ++ found ++ ·) hrest
          _ = low ++ (found ++ unable) ++ w'.inner.current.toList ++ w'.inner.rest := by
            simp only [List.append_assoc]
      · intro doc hdoc
        cases List.mem_append.mp hdoc with
        | inl hcurrent =>
          have hlt := hskip.2
          rw [DocListIterator.maxScore, Option.mem_toList.mp hcurrent] at hlt
          exact hlt
        | inr hdoc => exact hunable doc hdoc
  next => exact hinner

/-! ### Runs -/

section Runs
variable {ι : Type}

def visits (i : ι) (m : ScoreThresholdManager α) : Cursor α → Call → List (Visit ι α)
  | ⟨it, false⟩, .next => callVisits i 0 it.docs (it.next m).2.docs
  | ⟨it, false⟩, .seek target => callVisits i target it.docs (it.seek m target).2.docs
  | ⟨it, true⟩, .score => it.docs.current.toList.map (.scored i)
  | _, _ => []

variable [DecidableEq ι]

structure Exact (k : ℕ) (seen : List (Visit ι α))
    (c : Config ι (ScoreThresholdManager α) (Cursor α)) : Prop where
  capacity : c.shared.k = k
  holds : c.shared.Holds (scores (scoredDocs seen) : Multiset α)
  nonneg : ∀ i, ∀ doc ∈ (c.control i).iterator.docs.rest, 0 ≤ doc.score
  passed : ∀ x ∈ passedDocs seen, k ≤ (scores (scoredDocs seen)).countP (x.2.score < ·)
  cursors : ∀ i, CursorFits i seen (c.control i)

theorem Exact.call {k : ℕ} {seen : List (Visit ι α)}
    {c : Config ι (ScoreThresholdManager α) (Cursor α)} (h : Exact k seen c) {i : ι}
    {w w' : WandIterator α} (hi : c.control i = ⟨.wand w, false⟩) {target : UInt64}
    (hadvance : Advance c.shared.threshold target w.inner w'.inner) :
    Exact k (seen ++ callVisits i target w.inner w'.inner)
      ⟨c.shared, Function.update c.control i
        ⟨.wand w', (arrivedAt w.inner w'.inner).isSome⟩⟩ := by
  have hnonneg : ∀ doc ∈ w.inner.rest, 0 ≤ doc.score := by
    have hold := h.nonneg i
    rw [hi] at hold
    exact hold
  refine ⟨h.capacity, ?_, ?_, ?_, ?_⟩
  · rw [scoredDocs_call]
    exact h.holds
  · intro j
    dsimp only
    by_cases hj : j = i
    · subst hj
      rw [Function.update_self]
      intro doc hdoc
      exact hnonneg doc (hadvance.rest_subset doc hdoc)
    · rw [Function.update_of_ne hj]
      exact h.nonneg j
  · rw [passedDocs_call, scoredDocs_call]
    intro x hx
    cases List.mem_append.mp hx with
    | inl hold => exact h.passed x hold
    | inr hnew =>
      obtain ⟨doc, hdoc, rfl⟩ := List.mem_map.mp hnew
      obtain ⟨hmem, htarget⟩ := List.mem_filter.mp hdoc
      have hbound := hadvance.passedOver_unable doc hmem (of_decide_eq_true htarget)
      have hbelow := h.holds.below_threshold
        (hnonneg doc (Advance.passedOver_subset _ _ doc hmem)) (doc.bounded.trans_lt hbound)
      rw [h.capacity] at hbelow
      exact hbelow
  · intro j
    dsimp only
    by_cases hj : j = i
    · subst hj
      rw [Function.update_self]
      have hold := h.cursors j
      rw [hi] at hold
      exact hold.call hadvance
    · rw [Function.update_of_ne hj]
      apply (h.cursors j).frame
      · rw [returnedDocs_call, List.filter_append, filter_other hj, List.append_nil]
      · rw [scoredDocs_call]

theorem Exact.score {k : ℕ} (hk : 0 < k) {seen : List (Visit ι α)}
    {c : Config ι (ScoreThresholdManager α) (Cursor α)} (h : Exact k seen c) {i : ι}
    {w : WandIterator α} (hi : c.control i = ⟨.wand w, true⟩) {doc : DocEntry α}
    (hdoc : w.inner.current = some doc) :
    Exact k (seen ++ [.scored i doc])
      ⟨(c.shared.addScore doc.score).2, Function.update c.control i ⟨.wand w, false⟩⟩ := by
  obtain ⟨hpassed, hreturned, hscored⟩ := visits_scored seen i doc
  have hscores : scores (scoredDocs (seen ++ [.scored i doc])) =
      scores (scoredDocs seen) ++ [doc.score] := by
    rw [hscored]
    exact List.map_append
  refine ⟨(ScoreThresholdManager.addScore_k _ _).trans h.capacity, ?_, ?_, ?_, ?_⟩
  · have hperm : (scores (scoredDocs seen) ++ [doc.score] : Multiset α) =
        doc.score ::ₘ (scores (scoredDocs seen) : Multiset α) :=
      Multiset.coe_eq_coe.mpr (List.perm_append_singleton _ _)
    rw [hscores, hperm]
    exact h.holds.addScore (h.capacity ▸ hk) doc.score
  · intro j
    dsimp only
    by_cases hj : j = i
    · subst hj
      rw [Function.update_self]
      have hold := h.nonneg j
      rw [hi] at hold
      exact hold
    · rw [Function.update_of_ne hj]
      exact h.nonneg j
  · rw [hpassed, hscores]
    intro x hx
    rw [List.countP_append]
    exact (h.passed x hx).trans (Nat.le_add_right _ _)
  · intro j
    dsimp only
    by_cases hj : j = i
    · subst hj
      rw [Function.update_self]
      have hold := h.cursors j
      rw [hi] at hold
      exact hold.score hdoc
    · rw [Function.update_of_ne hj]
      apply (h.cursors j).frame
      · rw [hreturned]
      · rw [hscored, List.filter_append]
        have hother : [(i, doc)].filter (fun x => x.1 = j) = [] := filter_other hj [doc]
        rw [hother, List.append_nil]

theorem Exact.next {k : ℕ} (hk : 0 < k) {seen : List (Visit ι α)}
    {c c' : Config ι (ScoreThresholdManager α) (Cursor α)} (h : Exact k seen c) {x : ι × Call}
    (hf : fire driver c x = some c') :
    Exact k (seen ++ visits x.1 c.shared (c.control x.1) x.2) c' := by
  obtain ⟨i, call⟩ := x
  obtain ⟨m, cursor, hs, rfl⟩ := fire_inv hf
  dsimp only at hs ⊢
  obtain ⟨w, hw⟩ := (h.cursors i).wrapped
  generalize hi : c.control i = before at hs hw
  obtain ⟨it, owed⟩ := before
  dsimp only at hw
  subst hw
  cases owed with
  | false =>
    cases call with
    | next =>
      cases hs
      exact h.call hi (w.next_advance c.shared)
    | seek target =>
      cases hs
      exact h.call hi (w.seek_advance c.shared target)
    | score => cases hs
  | true =>
    cases call with
    | next => cases hs
    | seek => cases hs
    | score =>
      cases hs
      have hcurrent := (h.cursors i).current
      rw [hi] at hcurrent
      obtain ⟨doc, hdoc⟩ := Option.isSome_iff_exists.mp (hcurrent rfl)
      have hinner : w.inner.current = some doc := hdoc
      have hvisits : visits i c.shared ⟨.wand w, true⟩ .score = [.scored i doc] := by
        simp [visits, ScoredDocIterator.docs, hinner]
      have hscore : w.inner.score = doc.score := by
        rw [DocListIterator.score, hinner]
        rfl
      have hnext := h.score hk hi hinner
      rw [← hscore, ← hvisits] at hnext
      exact hnext

theorem start_exact {k : ℕ} (hk : 0 < k) (docs : ι → List (DocEntry α)) (stays : ι → Bool)
    (hnonneg : ∀ i, ∀ doc ∈ docs i, 0 ≤ doc.score) : Exact k [] (wandStart k docs stays) := by
  have hctx : (createWandContext true k : WandExecutionContext α) = ⟨true, k, some (.new k)⟩ := by
    unfold createWandContext
    rw [if_pos ⟨rfl, hk⟩]
  have hwrap : ∀ base : DocListIterator α,
      (createWandContext true k : WandExecutionContext α).wrapIterator base = .wand ⟨base, 0⟩ := by
    intro base
    rw [hctx]
    unfold WandExecutionContext.wrapIterator
    rw [if_neg]
    rintro (h | h | h)
    · cases h
    · exact absurd h (Nat.pos_iff_ne_zero.mp hk)
    · cases h
  have hcontrol : ∀ i, (wandStart k docs stays).control i =
      ⟨.wand ⟨.new (docs i) (stays i), 0⟩, false⟩ := by
    intro i
    unfold wandStart
    dsimp only
    rw [hwrap]
  have hshared : (wandStart k docs stays).shared = .new k := by
    unfold wandStart
    rw [hctx]
    rfl
  refine ⟨?_, ?_, ?_, (fun x hx => nomatch hx), ?_⟩
  · rw [hshared]
    rfl
  · rw [hshared]
    exact isTopK_nil
  · intro i doc hdoc
    rw [hcontrol] at hdoc
    exact hnonneg i doc hdoc
  · intro i
    rw [hcontrol]
    exact ⟨⟨_, rfl⟩, (fun howed => nomatch howed), rfl⟩

/-- If nothing is owed, the documents returned are the documents scored. -/
theorem Exact.settled {k : ℕ} {seen : List (Visit ι α)}
    {c : Config ι (ScoreThresholdManager α) (Cursor α)} (h : Exact k seen c)
    (howed : ∀ i, (c.control i).owed = false) :
    (returnedDocs seen : Multiset (ι × DocEntry α)) = (scoredDocs seen : Multiset _) := by
  classical
  rw [Multiset.coe_eq_coe, List.perm_iff_count]
  intro x
  have hsame := (h.cursors x.1).balance
  have hnone : owedDocs x.1 (c.control x.1) = [] := by
    unfold owedDocs
    rw [howed x.1]
    rfl
  rw [hnone, List.append_nil] at hsame
  have hcount := congrArg (List.count x) hsame
  have hown : ∀ l : List (ι × DocEntry α), (l.filter fun y => y.1 = x.1).count x = l.count x :=
    fun l => List.count_filter (decide_eq_true rfl)
  rwa [hown, hown] at hcount

/-- What is passed over is strictly below the k-th best score in the end, so
the k best of what is returned, with any choice among ties, are the k best of
all documents enumerated. -/
theorem wand_keeps_top_k (k : ℕ) (hk : 0 < k) (docs : ι → List (DocEntry α)) (stays : ι → Bool)
    (hnonneg : ∀ i, ∀ doc ∈ docs i, 0 ≤ doc.score) (tr : List (ι × Call))
    (c : Config ι (ScoreThresholdManager α) (Cursor α))
    (h : exec driver (wandStart k docs stays) tr = some c)
    (howed : ∀ i, (c.control i).owed = false) :
    let seen := observed driver visits (wandStart k docs stays) tr
    (∀ x ∈ passedDocs seen, ∃ best, kthLargest k (scores (scoredDocs seen)) = some best ∧
      x.2.score < best) ∧
    (returnedDocs seen).Perm (scoredDocs seen) ∧
    ∀ best : Multiset (ι × DocEntry α),
      IsTopK k (fun x => x.2.score) (returnedDocs seen : Multiset (ι × DocEntry α)) best ↔
        IsTopK k (fun x => x.2.score) (returnedDocs seen ++ passedDocs seen : Multiset _) best := by
  intro seen
  have hexact : Exact k seen c := observed_invariant visits (Exact k)
    (fun _ _ _ _ hI hf => hI.next hk hf) tr _ c (start_exact hk docs stays hnonneg) h
  refine ⟨?_, ?_, ?_⟩
  · intro x hx
    exact kthLargest_above hk (hexact.passed x hx)
  · exact Multiset.coe_eq_coe.mp (hexact.settled howed)
  · intro best
    rw [← Multiset.coe_add, hexact.settled howed]
    apply isTopK_add_below
    intro x hx
    have hbelow := hexact.passed x hx
    rw [scores, List.countP_map] at hbelow
    exact hbelow

end Runs

def sampleDocs : Bool → List (DocEntry ℕ)
  | false => [⟨1, 5, 5, by decide⟩, ⟨2, 3, 4, by decide⟩, ⟨3, 9, 9, by decide⟩]
  | true => [⟨1, 2, 2, by decide⟩, ⟨4, 6, 7, by decide⟩]

def sampleCalls : List (Bool × Call) :=
  [(false, .next), (false, .score), (true, .seek 1), (true, .score), (false, .next),
    (false, .score)]

/-- The seek passes over the document it finds, and `next()` over the one before the best. -/
theorem sampleCalls_keep_best :
    let seen := observed driver visits (wandStart 1 sampleDocs fun _ => false) sampleCalls
    (passedDocs seen).map (fun x => (x.1, x.2.docId)) = [(true, 1), (false, 2)] ∧
    (∀ x ∈ passedDocs seen, ∃ best, kthLargest 1 (scores (scoredDocs seen)) = some best ∧
      x.2.score < best) ∧
    ∀ best : Multiset (Bool × DocEntry ℕ),
      IsTopK 1 (fun x => x.2.score) (returnedDocs seen : Multiset (Bool × DocEntry ℕ)) best ↔
        IsTopK 1 (fun x => x.2.score) (returnedDocs seen ++ passedDocs seen : Multiset _)
          best := by
  intro seen
  have hall := wand_keeps_top_k 1 (by decide) sampleDocs (fun _ => false)
    (fun _ _ _ => Nat.zero_le _) sampleCalls _ rfl (by decide)
  exact ⟨by decide +kernel, hall.1, hall.2.2⟩

end OpenArangoDBCore.IResearch
