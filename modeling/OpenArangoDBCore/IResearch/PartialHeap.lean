import OpenArangoDBCore.IResearch.WandTopK

/-!
# Before k scores are known

While the heap is not full the threshold is zero, which is meant to accept all
documents. It accepts those whose bound is not negative.
-/

namespace OpenArangoDBCore.IResearch
open Interleaving ScoreThresholdManager
variable {α : Type} [LinearOrder α] [Zero α] {ι : Type}

/-- A driver that makes any call at any time. -/
def anyDriver : Program (ScoreThresholdManager α) (WandIterator α) Call
  | m, w, .next => some (m, (w.next m).2)
  | m, w, .seek target => some (m, (w.seek m target).2)
  | m, w, .score => some ((w.score m).2, w)

def anyStart (k : ℕ) (docs : ι → List (DocEntry α)) (stays : ι → Bool) :
    Config ι (ScoreThresholdManager α) (WandIterator α) :=
  ⟨.new k, fun i => ⟨.new (docs i) (stays i), 0⟩⟩

def Call.isScore : Call → Bool
  | .score => true
  | _ => false

/-- How many scores a run has added. -/
def scoresAdded (tr : List (ι × Call)) : ℕ := tr.countP fun x => x.2.isScore

/-- Both calls do what the inner iterator does. -/
def SkipsNothing (m : ScoreThresholdManager α) (w : WandIterator α) : Prop :=
  w.next m = (w.inner.next.1, ⟨w.inner.next.2, w.skipped⟩) ∧
    ∀ target, w.seek m target =
      ((w.inner.seek target).1, ⟨(w.inner.seek target).2, w.skipped⟩)

/-- In every run, as long as fewer than k scores have been added. -/
def AcceptsAll [DecidableEq ι] (k : ℕ) (docs : ι → List (DocEntry α)) (stays : ι → Bool) : Prop :=
  ∀ tr c, exec anyDriver (anyStart k docs stays) tr = some c → scoresAdded tr < k →
    ∀ i, SkipsNothing c.shared (c.control i)

/-! ### What a run keeps -/

structure Within (docs : List (DocEntry α)) (it : DocListIterator α) : Prop where
  rest : ∀ doc ∈ it.rest, doc ∈ docs
  current : ∀ doc, it.current = some doc → doc ∈ docs

section Within
variable {docs : List (DocEntry α)} {before after : DocListIterator α}

omit [Zero α] in
theorem Within.of_split (h : Within docs before) {passed : List (DocEntry α)}
    (hsplit : before.rest = passed ++ after.current.toList ++ after.rest) : Within docs after where
  rest doc hdoc := by
    apply h.rest
    rw [hsplit]
    exact List.mem_append_right _ hdoc
  current doc hdoc := by
    apply h.rest
    rw [hsplit, hdoc]
    simp

omit [Zero α] in
theorem Within.advance (h : Within docs before) {threshold : α} {target : UInt64}
    (hadvance : Advance threshold target before after) : Within docs after := by
  cases hadvance with
  | stayed same => rwa [same]
  | moved low unable split => exact h.of_split split

omit [Zero α] in
theorem Within.seek {it : DocListIterator α} (h : Within docs it) (target : UInt64) :
    Within docs (it.seek target).2 := by
  cases it.seek_advance target with
  | inl hsame => rwa [hsame]
  | inr hmoved =>
    obtain ⟨low, hsplit, -⟩ := hmoved
    exact h.of_split hsplit

theorem Within.maxScore_nonneg {it : DocListIterator α} (h : Within docs it)
    (hdocs : ∀ doc ∈ docs, 0 ≤ doc.maxScore) : 0 ≤ it.maxScore := by
  unfold DocListIterator.maxScore
  cases hcurrent : it.current with
  | none => exact le_rfl
  | some doc => exact hdocs doc (h.current doc hcurrent)

end Within

theorem skipsNothing_of_nonneg {docs : List (DocEntry α)} {m : ScoreThresholdManager α}
    {w : WandIterator α} (hthreshold : m.threshold = 0) (hwithin : Within docs w.inner)
    (hdocs : ∀ doc ∈ docs, 0 ≤ doc.maxScore) : SkipsNothing m w := by
  constructor
  · rw [WandIterator.next_loop]
    cases hrest : w.inner.rest with
    | nil =>
      have hend : w.inner.next.1 = false := by rw [DocListIterator.next, hrest]
      rw [hend]
      rfl
    | cons doc rest =>
      have hfirst : w.inner.next = (true, ⟨some doc, rest, w.inner.stays⟩) := by
        rw [DocListIterator.next, hrest]
      have hbound : 0 ≤ doc.maxScore := by
        apply hdocs doc (hwithin.rest doc _)
        rw [hrest]
        exact List.mem_cons_self ..
      rw [hfirst, hthreshold]
      exact if_pos hbound
  · intro target
    unfold WandIterator.seek
    dsimp only
    rw [if_neg]
    rintro ⟨-, hlt⟩
    rw [hthreshold] at hlt
    exact absurd ((hwithin.seek target).maxScore_nonneg hdocs) (not_le.mpr hlt)

section Runs
variable [DecidableEq ι] {k : ℕ} {docs : ι → List (DocEntry α)} {stays : ι → Bool}

structure Reached (k : ℕ) (docs : ι → List (DocEntry α)) (past : List (ι × Call))
    (c : Config ι (ScoreThresholdManager α) (WandIterator α)) : Prop where
  capacity : c.shared.k = k
  holds : ∃ scores, c.shared.Holds scores ∧ scores.card = scoresAdded past
  within : ∀ i, Within (docs i) (c.control i).inner

theorem Reached.step {past : List (ι × Call)} {x : ι × Call}
    {c c' : Config ι (ScoreThresholdManager α) (WandIterator α)} (hk : 0 < k)
    (h : Reached k docs past c) (hf : fire anyDriver c x = some c') :
    Reached k docs (past ++ [x]) c' := by
  obtain ⟨i, e⟩ := x
  have hown := fire_own hf
  have hframe := fun j => fire_frame (t := j) hf
  dsimp only at hown hframe
  have hmove : ∀ w, c'.control i = w → Within (docs i) w.inner →
      ∀ j, Within (docs j) (c'.control j).inner := by
    intro w hw hwithin j
    by_cases hj : j = i
    · rw [hj, hw]
      exact hwithin
    · rw [hframe j hj]
      exact h.within j
  have hcount : ∀ e, scoresAdded (past ++ [(i, e)]) =
      scoresAdded past + if e.isScore then 1 else 0 := by
    intro e
    unfold scoresAdded
    rw [List.countP_append, List.countP_singleton]
  obtain ⟨scores, hholds, hcard⟩ := h.holds
  cases e with
  | next =>
    obtain ⟨hshared, hcontrol⟩ := Prod.mk.inj (Option.some.inj hown)
    refine ⟨hshared ▸ h.capacity, ⟨scores, hshared ▸ hholds, ?_⟩, ?_⟩
    · rw [hcount]
      exact hcard
    · exact hmove _ hcontrol.symm ((h.within i).advance (WandIterator.next_advance c.shared _))
  | seek target =>
    obtain ⟨hshared, hcontrol⟩ := Prod.mk.inj (Option.some.inj hown)
    refine ⟨hshared ▸ h.capacity, ⟨scores, hshared ▸ hholds, ?_⟩, ?_⟩
    · rw [hcount]
      exact hcard
    · exact hmove _ hcontrol.symm
        ((h.within i).advance (WandIterator.seek_advance c.shared _ target))
  | score =>
    obtain ⟨hshared, hcontrol⟩ := Prod.mk.inj (Option.some.inj hown)
    refine ⟨?_, ⟨(c.control i).inner.score ::ₘ scores, ?_, ?_⟩, ?_⟩
    · rw [← hshared, WandIterator.score, addScore_k]
      exact h.capacity
    · rw [← hshared]
      exact hholds.addScore (by rwa [h.capacity]) _
    · rw [hcount, Multiset.card_cons, hcard]
      rfl
    · exact hmove _ hcontrol.symm (h.within i)

theorem run_reached (hk : 0 < k) {tr : List (ι × Call)}
    {c : Config ι (ScoreThresholdManager α) (WandIterator α)}
    (h : exec anyDriver (anyStart k docs stays) tr = some c) : Reached k docs tr c := by
  refine exec_invariant (Reached k docs) (fun _ _ _ _ hI hf => hI.step hk hf) tr _ c ?_ h
  refine ⟨rfl, ⟨0, TopK.isTopK_nil, rfl⟩, fun i => ⟨fun doc hdoc => hdoc, ?_⟩⟩
  intro doc hdoc
  cases hdoc

omit [DecidableEq ι] in
theorem Reached.threshold {past : List (ι × Call)}
    {c : Config ι (ScoreThresholdManager α) (WandIterator α)} (h : Reached k docs past c)
    (hfew : scoresAdded past < k) : c.shared.threshold = 0 := by
  obtain ⟨scores, hholds, hcard⟩ := h.holds
  have hlen : c.shared.heap.length = min c.shared.k scores.card := hholds.card
  unfold ScoreThresholdManager.threshold
  rw [if_pos]
  rw [h.capacity] at hlen ⊢
  omega

/-! ### Documents that are skipped -/

theorem skipped_le_nextLoop (m : ScoreThresholdManager α) (it : Bool) (rest : List (DocEntry α))
    (skipped : ℕ) : skipped ≤ (WandIterator.nextLoop m it rest skipped).2.skipped := by
  induction rest generalizing skipped with
  | nil => exact le_rfl
  | cons doc rest ih =>
    unfold WandIterator.nextLoop
    split
    · exact le_rfl
    · exact (Nat.le_succ skipped).trans (ih (skipped + 1))

theorem bound_of_skipsNothing {m : ScoreThresholdManager α} {w : WandIterator α}
    (h : SkipsNothing m w) {doc : DocEntry α} {rest : List (DocEntry α)}
    (hrest : w.inner.rest = doc :: rest) : m.threshold ≤ doc.maxScore := by
  by_contra hlt
  have hskipped := congrArg (fun r => r.2.skipped) h.1
  dsimp only at hskipped
  have hloop : w.next m = WandIterator.nextLoop m w.inner.stays rest (w.skipped + 1) := by
    unfold WandIterator.next
    rw [hrest]
    exact if_neg hlt
  have hle := skipped_le_nextLoop m w.inner.stays rest (w.skipped + 1)
  rw [← hloop, hskipped] at hle
  omega

/-- Calls of `next` alone, on one iterator, come to each of its documents. -/
theorem AcceptsAll.reaches (h : AcceptsAll k docs stays) (hk : 0 < k) (i : ι) (n : ℕ) :
    ∃ c, exec anyDriver (anyStart k docs stays) (List.replicate n (i, .next)) = some c ∧
      SkipsNothing c.shared (c.control i) ∧ c.shared.threshold = 0 ∧
      (c.control i).inner.rest = (docs i).drop n := by
  have hnone : ∀ n, scoresAdded (List.replicate n (i, Call.next)) < k := by
    intro n
    unfold scoresAdded
    rw [List.countP_replicate]
    exact hk
  induction n with
  | zero =>
    have hstart : exec anyDriver (anyStart k docs stays) (List.replicate 0 (i, Call.next)) =
        some (anyStart k docs stays) := rfl
    exact ⟨_, hstart, h _ _ hstart (hnone 0) i, (run_reached hk hstart).threshold (hnone 0), rfl⟩
  | succ n ih =>
    obtain ⟨c, hrun, hskips, -, hrest⟩ := ih
    have hnext : exec anyDriver (anyStart k docs stays) (List.replicate (n + 1) (i, .next)) =
        some ⟨c.shared, Function.update c.control i ((c.control i).next c.shared).2⟩ := by
      rw [List.replicate_succ', exec_snoc, hrun]
      rfl
    refine ⟨_, hnext, h _ _ hnext (hnone _) i, (run_reached hk hnext).threshold (hnone _), ?_⟩
    dsimp only
    rw [Function.update_self, hskips.1, ← List.tail_drop, ← hrest]
    dsimp only
    unfold DocListIterator.next
    cases (c.control i).inner.rest <;> rfl

/-- Nothing is skipped before k scores are known exactly where no document has
a negative bound. -/
theorem acceptsAll_iff (hk : 0 < k) (docs : ι → List (DocEntry α)) (stays : ι → Bool) :
    AcceptsAll k docs stays ↔ ∀ i, ∀ doc ∈ docs i, 0 ≤ doc.maxScore := by
  constructor
  · intro h i doc hdoc
    obtain ⟨n, hn, hget⟩ := List.getElem_of_mem hdoc
    obtain ⟨c, -, hskips, hzero, hrest⟩ := h.reaches hk i n
    rw [List.drop_eq_getElem_cons hn, hget] at hrest
    rw [← hzero]
    exact bound_of_skipsNothing hskips hrest
  · intro hdocs tr c hrun hfew i
    have hreached := run_reached hk hrun
    exact skipsNothing_of_nonneg (hreached.threshold hfew) (hreached.within i) (hdocs i)

end Runs

theorem zero_bound_accepted :
    AcceptsAll 2 (fun _ : Unit => [(⟨1, -3, 0, by decide⟩ : DocEntry ℤ)]) fun _ => true :=
  (acceptsAll_iff (by decide) _ _).mpr (by decide)

/-- The only document is skipped before anything has been scored. -/
theorem negative_bound_skipped :
    let docs : Unit → List (DocEntry ℤ) := fun _ => [⟨1, -2, -1, by decide⟩]
    (((anyStart 1 docs fun _ => true).control ()).next (.new 1)).1 = false ∧
      ¬ AcceptsAll 1 docs fun _ => true := by
  refine ⟨by decide, ?_⟩
  intro h
  have hnext := (h [] _ rfl (by decide) ()).1
  exact absurd (congrArg Prod.fst hnext) (by decide)

end OpenArangoDBCore.IResearch
