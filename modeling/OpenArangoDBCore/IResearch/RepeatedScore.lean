import OpenArangoDBCore.IResearch.WandTopK

/-!
# Scoring a document twice

`score` looks like a getter and feeds the threshold manager. A second call for
the same document changes nothing exactly when the heap is full of scores that
are no worse; else the score is counted twice, and sooner or later a document
is skipped that is among the best.
-/

namespace OpenArangoDBCore.IResearch
open TopK
variable {α : Type} [LinearOrder α] [Zero α]

namespace ScoreThresholdManager
variable {m : ScoreThresholdManager α} {scores : Multiset α}

omit [Zero α] in
theorem Holds.length (h : m.Holds scores) : m.heap.length = min m.k scores.card := h.card

/-- The threshold of a full heap is the k-th best score. -/
theorem Holds.le_threshold_iff (h : m.Holds scores) (hk : 0 < m.k) (hfull : m.k ≤ scores.card)
    (x : α) : x ≤ m.threshold ↔ m.k ≤ scores.countP (x ≤ ·) := by
  have hlen := h.length
  rw [min_eq_left hfull] at hlen
  have hascending := m.ascending
  unfold threshold
  rw [if_neg (by omega)]
  unfold Holds at h
  cases hheap : m.heap with
  | nil =>
    rw [hheap] at hlen
    exact absurd hlen.symm hk.ne'
  | cons front rest =>
    rw [hheap] at h hascending hlen
    have hfront : ∀ b ∈ front :: rest, front ≤ b := by
      intro b hb
      cases List.mem_cons.mp hb with
      | inl heq => exact heq.ge
      | inr hb => exact (List.pairwise_cons.mp hascending).1 b hb
    constructor
    · intro hx
      have hall : ((front :: rest : List α) : Multiset α).countP (x ≤ ·) = m.k := by
        rw [← hlen, ← Multiset.coe_card, Multiset.countP_eq_card]
        intro b hb
        exact hx.trans (hfront b hb)
      exact hall.ge.trans (Multiset.countP_le_of_le _ h.le)
    · intro hcount
      by_contra hlt
      refine h.above (x := front) (List.mem_cons_self ..) le_rfl (hcount.trans ?_)
      exact countP_le_of_imp (fun b hb => (not_le.mp hlt).trans_le hb) scores

/-- A score that is no better than k others changes nothing. -/
theorem Holds.addScore_same (h : m.Holds scores) (hk : 0 < m.k) {score : α}
    (hcount : m.k ≤ scores.countP (score ≤ ·)) : (m.addScore score).2 = m := by
  have hfull : m.k ≤ scores.card := hcount.trans (Multiset.countP_le_card _ _)
  have hle := (h.le_threshold_iff hk hfull score).mpr hcount
  have hlen := h.length
  unfold threshold at hle
  unfold ScoreThresholdManager.addScore
  rw [if_neg (by omega)] at hle ⊢
  rw [if_neg (not_lt.mpr hle)]

/-- The manager after these calls of `addScore`. -/
def after (k : ℕ) (scores : List α) : ScoreThresholdManager α :=
  scores.foldl (fun m score => (m.addScore score).2) (.new k)

theorem after_concat (k : ℕ) (scores : List α) (score : α) :
    after k (scores ++ [score]) = ((after k scores).addScore score).2 := by
  unfold after
  rw [List.foldl_append]
  rfl

theorem after_k (k : ℕ) (scores : List α) : (after k scores).k = k := by
  induction scores using List.reverseRecOn with
  | nil => rfl
  | append_singleton scores score ih => rw [after_concat, addScore_k, ih]

theorem after_holds {k : ℕ} (hk : 0 < k) (scores : List α) :
    (after k scores).Holds (scores : Multiset α) := by
  induction scores using List.reverseRecOn with
  | nil => exact isTopK_nil
  | append_singleton scores score ih =>
    have hadded := ih.addScore (by rwa [after_k]) score
    rw [after_concat, Multiset.coe_eq_coe.mpr (List.perm_append_singleton score scores)]
    exact hadded

end ScoreThresholdManager

open ScoreThresholdManager

/-! ### Later calls -/

/-- One call of an iterator with its manager. -/
def call (state : ScoreThresholdManager α × WandIterator α) :
    Call → ScoreThresholdManager α × WandIterator α
  | .next => (state.1, (state.2.next state.1).2)
  | .seek target => (state.1, (state.2.seek state.1 target).2)
  | .score => ((state.2.score state.1).2, state.2)

/-- The documents that the iterator stands on after each of the calls. -/
def later : ScoreThresholdManager α × WandIterator α → List Call → List (Option (DocEntry α))
  | _, [] => []
  | state, c :: calls => (call state c).2.inner.current :: later (call state c) calls

/-- For every iterator on a document with this score, `score` twice is like
`score` once. -/
def ScoreIdempotent (k : ℕ) (scores : List α) (score : α) : Prop :=
  ∀ (w : WandIterator α) (doc : DocEntry α), w.inner.current = some doc → doc.score = score →
    let first := (w.score (after k scores)).2
    let second := (w.score first).2
    second.threshold = first.threshold ∧
      ∀ calls, later (second, w) calls = later (first, w) calls

/-- No iterator on a document with this score tells the managers apart. -/
def Alike (score : α) (m m' : ScoreThresholdManager α) : Prop :=
  ∀ (w : WandIterator α) (doc : DocEntry α), w.inner.current = some doc → doc.score = score →
    ∀ calls, later (m, w) calls = later (m', w) calls

section Alike
variable {score : α} {m m' : ScoreThresholdManager α}

theorem Alike.addScore (h : Alike score m m') :
    Alike score (m.addScore score).2 (m'.addScore score).2 := by
  intro w doc hdoc hscore calls
  have hinner : w.inner.score = score := by
    rw [DocListIterator.score, hdoc]
    exact hscore
  have hagain := h w doc hdoc hscore (.score :: calls)
  simp only [later, call, WandIterator.score, hinner] at hagain
  exact List.tail_eq_of_cons_eq hagain

theorem next_probe (m : ScoreThresholdManager α) (current : Option (DocEntry α))
    (probe : DocEntry α) (rest : List (DocEntry α)) (stays : Bool) (skipped : ℕ) :
    (WandIterator.next m ⟨⟨current, probe :: rest, stays⟩, skipped⟩).2 =
      if m.threshold ≤ probe.maxScore then ⟨⟨some probe, rest, stays⟩, skipped⟩
      else (WandIterator.next m ⟨⟨none, rest, stays⟩, skipped + 1⟩).2 := by
  unfold WandIterator.next
  simp only [WandIterator.nextLoop]
  split <;> rfl

/-- A document that can just reach the smaller threshold is skipped with the
larger one. -/
theorem probe_tells {low high : ScoreThresholdManager α} (h : low.threshold < high.threshold)
    (current : Option (DocEntry α)) (stays : Bool) (skipped : ℕ) :
    let probe : DocEntry α := ⟨0, low.threshold, low.threshold, le_rfl⟩
    (WandIterator.next low ⟨⟨current, [probe], stays⟩, skipped⟩).2.inner.current = some probe ∧
      (WandIterator.next high ⟨⟨current, [probe], stays⟩, skipped⟩).2.inner.current = none := by
  dsimp only
  rw [next_probe, next_probe, if_pos le_rfl, if_neg (not_le.mpr h)]
  exact ⟨rfl, rfl⟩

omit [Zero α] in
/-- An iterator on a document with the score, and what comes behind it. -/
def standingOn (score : α) (rest : List (DocEntry α)) : WandIterator α :=
  ⟨⟨some ⟨0, score, score, le_rfl⟩, rest, true⟩, 0⟩

theorem Alike.symm (h : Alike score m m') : Alike score m' m :=
  fun w doc hdoc hscore calls => (h w doc hdoc hscore calls).symm

theorem Alike.threshold_le (h : Alike score m m') : m'.threshold ≤ m.threshold := by
  by_contra hlt
  obtain ⟨hlow, hhigh⟩ := probe_tells (not_le.mp hlt) (some ⟨0, score, score, le_rfl⟩) true 0
  have hsame := h (standingOn score [⟨0, m.threshold, m.threshold, le_rfl⟩]) _ rfl rfl [.next]
  simp only [later, call, standingOn, hlow, hhigh] at hsame
  cases hsame

theorem Alike.threshold (h : Alike score m m') : m.threshold = m'.threshold :=
  le_antisymm h.symm.threshold_le h.threshold_le

/-- A document that both return is scored before the probe comes. -/
theorem Alike.threshold_addScore_le (h : Alike score m m') {x bound : α} (hx : x ≤ bound)
    (hbound : m.threshold ≤ bound) :
    (m'.addScore x).2.threshold ≤ (m.addScore x).2.threshold := by
  by_contra hlt
  obtain ⟨hlow, hhigh⟩ := probe_tells (not_le.mp hlt) (some ⟨0, x, bound, hx⟩) true 0
  have hsame := h (standingOn score [⟨0, x, bound, hx⟩, ⟨0, (m.addScore x).2.threshold,
    (m.addScore x).2.threshold, le_rfl⟩]) _ rfl rfl [.next, .score, .next]
  simp only [later, call, standingOn, next_probe _ _ _ [_], if_pos hbound,
    if_pos (h.threshold ▸ hbound), WandIterator.score, DocListIterator.score, Option.elim, hlow,
    hhigh] at hsame
  cases hsame

end Alike

/-! ### When a second call changes nothing -/

section Count
variable {k : ℕ} {scores : List α} {score : α}

theorem alike_replicate (h : Alike score (after k (scores ++ [score]))
    (after k (scores ++ [score, score]))) (n : ℕ) :
    Alike score (after k (scores ++ List.replicate (n + 1) score))
      (after k (scores ++ List.replicate (n + 2) score)) := by
  induction n with
  | zero => exact h
  | succ n ih =>
    have hnext : ∀ n, after k (scores ++ List.replicate (n + 1) score) =
        ((after k (scores ++ List.replicate n score)).addScore score).2 := by
      intro n
      rw [List.replicate_succ', ← List.append_assoc, after_concat]
    rw [hnext (n + 1), hnext (n + 2)]
    exact ih.addScore

theorem after_le_threshold_iff (hk : 0 < k) (hfull : k ≤ scores.length) (x : α) :
    x ≤ (after k scores).threshold ↔ k ≤ scores.countP (x ≤ ·) := by
  have h := (after_holds hk scores).le_threshold_iff (by rwa [after_k]) (by rwa [after_k]) x
  rwa [after_k] at h

theorem after_threshold_short (h : scores.length < k) : (after k scores).threshold = 0 := by
  have hlen := (after_holds (Nat.zero_lt_of_lt h) scores).length
  rw [after_k, Multiset.coe_card, min_eq_right h.le] at hlen
  unfold threshold
  rw [after_k, hlen, if_pos h]

/-- One score short of a full heap of scores no worse: one call and two can be
told apart. -/
theorem not_alike (hneg : ∃ x : α, x < 0) (hcount : scores.countP (score ≤ ·) + 1 = k) :
    ¬ Alike score (after k scores) (after k (scores ++ [score])) := by
  intro h
  have hk : 0 < k := by omega
  have hcount' : (scores ++ [score]).countP (score ≤ ·) = k := by
    rw [List.countP_append, List.countP_singleton]
    simpa using hcount
  have hfull : k ≤ (scores ++ [score]).length := hcount'.ge.trans List.countP_le_length
  have hlow : score ≤ (after k (scores ++ [score])).threshold :=
    (after_le_threshold_iff hk hfull score).mpr hcount'.ge
  have hsame := h.threshold
  rcases Nat.lt_or_ge scores.length k with hshort | hfull₁
  · obtain ⟨x, hx⟩ := hneg
    have hzero := after_threshold_short hshort
    have hlength : scores.length + 1 = k := by
      have hle := List.countP_le_length (p := fun s => decide (score ≤ s)) (l := scores)
      omega
    have hless := h.threshold_addScore_le hx.le hzero.le
    rw [← after_concat, ← after_concat] at hless
    -- all of the k scores that are no worse stay above the one added
    have hmany : k ≤ (scores ++ [score]).countP (0 ≤ ·) :=
      (after_le_threshold_iff hk hfull 0).mp (hzero.symm.trans hsame).le
    have hhigh : 0 ≤ (after k (scores ++ [score] ++ [x])).threshold := by
      refine (after_le_threshold_iff hk ?_ 0).mpr ?_
      · rw [List.length_append]
        omega
      · rw [List.countP_append]
        omega
    have hall : k ≤ (scores ++ [x]).countP ((after k (scores ++ [x])).threshold ≤ ·) :=
      (after_le_threshold_iff hk (by simp; omega) _).mp le_rfl
    have hlength' : (scores ++ [x]).length = k := by simpa using hlength
    have hle : (after k (scores ++ [x])).threshold ≤ x := by
      have heq := le_antisymm List.countP_le_length (hlength'.le.trans hall)
      have hmem := List.countP_eq_length.mp heq x (by simp)
      simpa using hmem
    exact absurd (hhigh.trans (hless.trans hle)) (not_le.mpr hx)
  · rw [← hsame, after_le_threshold_iff hk hfull₁] at hlow
    omega

end Count

/-- A document may be scored again exactly where the scores before it hold
k - 1 that are no worse than its own. -/
theorem score_idempotent_iff {k : ℕ} (hk : 0 < k) (hneg : ∃ x : α, x < 0) (scores : List α)
    (score : α) : ScoreIdempotent k scores score ↔ k ≤ scores.countP (score ≤ ·) + 1 := by
  have hinner : ∀ (w : WandIterator α) (doc : DocEntry α), w.inner.current = some doc →
      doc.score = score → w.inner.score = score := by
    intro w doc hdoc hscore
    rw [DocListIterator.score, hdoc]
    exact hscore
  constructor
  · intro h
    by_contra hfew
    have halike : Alike score (after k (scores ++ [score]))
        (after k (scores ++ [score, score])) := by
      intro w doc hdoc hscore calls
      have hlater := (h w doc hdoc hscore).2 calls
      simp only [WandIterator.score, hinner w doc hdoc hscore] at hlater
      have htwo : scores ++ [score, score] = scores ++ [score] ++ [score] := by simp
      rw [htwo, after_concat k (scores ++ [score]), after_concat k scores]
      exact hlater.symm
    obtain ⟨n, hn⟩ : ∃ n, scores.countP (score ≤ ·) + n + 2 = k :=
      ⟨k - scores.countP (score ≤ ·) - 2, by omega⟩
    have hlong := alike_replicate halike n
    have hlast : List.replicate (n + 2) score = List.replicate (n + 1) score ++ [score] :=
      List.replicate_succ'
    rw [hlast, ← List.append_assoc] at hlong
    refine not_alike hneg ?_ hlong
    rw [List.countP_append, List.countP_replicate]
    simp only [le_refl, decide_true, if_true]
    omega
  · intro hmany w doc hdoc hscore
    have hcount : k ≤ (scores ++ [score]).countP (score ≤ ·) := by
      rw [List.countP_append, List.countP_singleton]
      simpa using hmany
    have hsame : ((after k (scores ++ [score])).addScore score).2 = after k (scores ++ [score]) :=
      (after_holds hk _).addScore_same (by rwa [after_k]) (by rwa [after_k])
    rw [after_concat] at hsame
    simp only [WandIterator.score, hinner w doc hdoc hscore, hsame, implies_true, and_self]

theorem best_score_idempotent : ScoreIdempotent 1 ([] : List ℤ) 5 :=
  (score_idempotent_iff (by decide) ⟨-1, by decide⟩ [] 5).mpr (by decide)

/-- The second of the best two documents is skipped. -/
theorem second_best_is_skipped :
    let w : WandIterator ℤ := ⟨⟨some ⟨1, 5, 5, le_rfl⟩, [⟨2, 3, 3, le_rfl⟩], true⟩, 0⟩
    let first := (w.score (after 2 [])).2
    let second := (w.score first).2
    first.threshold = 0 ∧ second.threshold = 5 ∧ (w.next first).1 = true ∧
      (w.next second).1 = false ∧ ¬ ScoreIdempotent 2 ([] : List ℤ) 5 := by
  refine ⟨by decide, by decide, by decide, by decide, ?_⟩
  intro h
  exact absurd (h (standingOn 5 []) _ rfl rfl).1 (by decide)

end OpenArangoDBCore.IResearch
