import OpenArangoDBCore.IResearch.OptimizerRule
import OpenArangoDBCore.IResearch.WandTopK
import OpenArangoDBCore.Lib.StableSort

/-!
# The rule keeps the meaning of a plan

The rows of a node are those of its dependency, enumerated, sorted or cut. An
annotated view is enumerated through a WAND iterator, which passes over
documents; the limit above it returns the same rows as before, in the same
order, ties included.
-/

namespace OpenArangoDBCore.IResearch
open StableSort
variable {α : Type} [LinearOrder α]

/-! ### The order of a sort node -/

section Compare
variable (value : ByteString → DocEntry α → α)

/-- `a` is ahead of `b` by one sort element. -/
def Ahead (element : SortElement) (a b : DocEntry α) : Prop :=
  if element.ascending then value element.attributePath a < value element.attributePath b
  else value element.attributePath b < value element.attributePath a

instance (element : SortElement) (a b : DocEntry α) : Decidable (Ahead value element a b) :=
  inferInstanceAs (Decidable (if element.ascending then
    value element.attributePath a < value element.attributePath b
    else value element.attributePath b < value element.attributePath a))

/-- The comparison of a sort node: element by element. -/
def SortsBefore : List SortElement → DocEntry α → DocEntry α → Prop
  | [], _, _ => True
  | element :: elements, a, b => Ahead value element a b ∨
    value element.attributePath a = value element.attributePath b ∧ SortsBefore elements a b

def decideSortsBefore : (elements : List SortElement) → (a b : DocEntry α) →
    Decidable (SortsBefore value elements a b)
  | [], _, _ => isTrue trivial
  | _ :: elements, a, b =>
    have := decideSortsBefore elements a b
    inferInstanceAs (Decidable (_ ∨ (_ ∧ _)))

instance (elements : List SortElement) : DecidableRel (SortsBefore value elements) :=
  decideSortsBefore value elements

theorem ahead_trans {element : SortElement} {a b c : DocEntry α} (hab : Ahead value element a b)
    (hbc : Ahead value element b c) : Ahead value element a c := by
  unfold Ahead at hab hbc ⊢
  split at hab
  next h =>
    rw [if_pos h] at hbc ⊢
    exact hab.trans hbc
  next h =>
    rw [if_neg h] at hbc ⊢
    exact hbc.trans hab

theorem ahead_trichotomy (element : SortElement) (a b : DocEntry α) :
    Ahead value element a b ∨ value element.attributePath a = value element.attributePath b ∨
      Ahead value element b a := by
  unfold Ahead
  have h := lt_trichotomy (value element.attributePath a) (value element.attributePath b)
  split
  · exact h
  · rcases h with h | h | h
    · exact .inr (.inr h)
    · exact .inr (.inl h)
    · exact .inl h

theorem sortsBefore_trans (elements : List SortElement) (a b c : DocEntry α)
    (hab : SortsBefore value elements a b) (hbc : SortsBefore value elements b c) :
    SortsBefore value elements a c := by
  induction elements with
  | nil => trivial
  | cons element elements ih =>
    rcases hab with hab | ⟨hab, hrest⟩
    · rcases hbc with hbc | ⟨hbc, -⟩
      · exact .inl (ahead_trans value hab hbc)
      · left
        unfold Ahead at hab ⊢
        rwa [hbc] at hab
    · rcases hbc with hbc | ⟨hbc, hrest'⟩
      · left
        unfold Ahead at hbc ⊢
        rwa [← hab] at hbc
      · exact .inr ⟨hab.trans hbc, ih hrest hrest'⟩

theorem sortsBefore_total (elements : List SortElement) (a b : DocEntry α) :
    SortsBefore value elements a b ∨ SortsBefore value elements b a := by
  induction elements with
  | nil => exact .inl trivial
  | cons element elements ih =>
    rcases ahead_trichotomy value element a b with h | h | h
    · exact .inl (.inl h)
    · exact ih.imp (fun hab => .inr ⟨h, hab⟩) (fun hba => .inr ⟨h.symm, hba⟩)
    · exact .inr (.inl h)

instance (elements : List SortElement) : IsTrans (DocEntry α) (SortsBefore value elements) :=
  ⟨sortsBefore_trans value elements⟩

instance (elements : List SortElement) : Std.Total (SortsBefore value elements) :=
  ⟨sortsBefore_total value elements⟩

theorem before_of_score {element : SortElement} (elements : List SortElement)
    (hdesc : element.ascending = false)
    (hscore : ∀ doc, value element.attributePath doc = doc.score) {a b : DocEntry α}
    (h : b.score < a.score) : Before (SortsBefore value (element :: elements)) a b := by
  have hno : ¬ element.ascending = true := by
    rw [hdesc]
    exact Bool.false_ne_true
  constructor
  · left
    unfold Ahead
    rwa [if_neg hno, hscore, hscore]
  · rintro (hlt | ⟨heq, -⟩)
    · unfold Ahead at hlt
      rw [if_neg hno, hscore, hscore] at hlt
      exact absurd h (not_lt.mpr hlt.le)
    · rw [hscore, hscore] at heq
      exact absurd heq h.ne

end Compare

variable [Zero α]

/-! ### The rows of a node -/

/-- `while (it.next()) it.score();` the documents that are returned. -/
def scanLoop : ℕ → ScoreThresholdManager α → ScoredDocIterator α → List (DocEntry α)
  | 0, _, _ => []
  | fuel + 1, m, it =>
    if (it.next m).1 then
      (it.next m).2.docs.current.toList ++
        scanLoop fuel ((it.next m).2.score m).2 (it.next m).2
    else []

/-- The rows of a view node with these annotations. -/
def viewRows (enableWand : Bool) (wandHeapSize : ℕ) (docs : List (DocEntry α)) :
    List (DocEntry α) :=
  let ctx : WandExecutionContext α := createWandContext enableWand wandHeapSize
  scanLoop (docs.length + 1) (ctx.thresholdManager.getD (.new wandHeapSize))
    (ctx.wrapIterator (.new docs false))

/-- What a plan is about: the documents of the views, the values of attribute
paths, and what the nodes of the other types do with their rows. -/
structure Meaning (α : Type) [LinearOrder α] [Zero α] where
  documents : ByteString → List (DocEntry α)
  value : ByteString → DocEntry α → α
  plain : ℕ → List (DocEntry α) → List (DocEntry α)

/-- The rows of a node, for plans no deeper than `depth`. -/
def rows (meaning : Meaning α) (plan : ExecutionPlan) : ℕ → ℕ → List (DocEntry α)
  | 0, _ => []
  | depth + 1, id =>
    match plan[id]? with
    | none => []
    | some node =>
      let input := node.firstDep.elim [] (rows meaning plan depth)
      match node.data with
      | .enumerateView viewName enableWand wandHeapSize =>
        viewRows enableWand wandHeapSize (meaning.documents viewName)
      | .sort elements => input.insertionSort (SortsBefore meaning.value elements)
      | .limit limit offset => (input.drop offset).take limit
      | .plain _ => meaning.plain id input

/-! ### What a scan passes over -/

/-- The documents that a WAND iterator returns when each of them is scored. -/
def competitive : ScoreThresholdManager α → List (DocEntry α) → List (DocEntry α)
  | _, [] => []
  | m, doc :: rest =>
    if m.threshold ≤ doc.maxScore then doc :: competitive (m.addScore doc.score).2 rest
    else competitive m rest

theorem scanLoop_base (docs : List (DocEntry α)) (m : ScoreThresholdManager α)
    (current : Option (DocEntry α)) (stays : Bool) (fuel : ℕ) (h : docs.length < fuel) :
    scanLoop fuel m (.base ⟨current, docs, stays⟩) = docs := by
  induction docs generalizing current fuel with
  | nil =>
    cases fuel with
    | zero => rfl
    | succ fuel => rfl
  | cons doc rest ih =>
    cases fuel with
    | zero => exact absurd h (Nat.not_lt_zero _)
    | succ fuel =>
      rw [List.length_cons, Nat.add_lt_add_iff_right] at h
      exact congrArg (doc :: ·) (ih (some doc) fuel h)

theorem scanLoop_wand (docs : List (DocEntry α)) (m : ScoreThresholdManager α)
    (current : Option (DocEntry α)) (stays : Bool) (skipped fuel : ℕ) (h : docs.length < fuel) :
    scanLoop fuel m (.wand ⟨⟨current, docs, stays⟩, skipped⟩) = competitive m docs := by
  induction docs generalizing m current skipped fuel with
  | nil =>
    cases fuel with
    | zero => rfl
    | succ fuel => rfl
  | cons doc rest ih =>
    cases fuel with
    | zero => exact absurd h (Nat.not_lt_zero _)
    | succ fuel =>
      rw [List.length_cons, Nat.add_lt_add_iff_right] at h
      by_cases hmax : m.threshold ≤ doc.maxScore
      · have hnext : (ScoredDocIterator.wand ⟨⟨current, doc :: rest, stays⟩, skipped⟩).next m =
            (true, .wand ⟨⟨some doc, rest, stays⟩, skipped⟩) := by
          simp only [ScoredDocIterator.next, WandIterator.next, WandIterator.nextLoop, if_pos hmax]
        unfold scanLoop competitive
        rw [hnext, if_pos rfl, if_pos hmax]
        exact congrArg (doc :: ·) (ih (m.addScore doc.score).2 (some doc) skipped fuel h)
      · have hnext : (ScoredDocIterator.wand ⟨⟨current, doc :: rest, stays⟩, skipped⟩).next m =
            (ScoredDocIterator.wand ⟨⟨current, rest, stays⟩, skipped + 1⟩).next m := by
          simp only [ScoredDocIterator.next, WandIterator.next, WandIterator.nextLoop, if_neg hmax]
        have hsame : scanLoop (fuel + 1) m (.wand ⟨⟨current, doc :: rest, stays⟩, skipped⟩) =
            scanLoop (fuel + 1) m (.wand ⟨⟨current, rest, stays⟩, skipped + 1⟩) := by
          unfold scanLoop
          rw [hnext]
        rw [hsame, ih m current (skipped + 1) (fuel + 1) (by omega)]
        unfold competitive
        rw [if_neg hmax]
        cases rest <;> rfl

/-- What is left out has `k` strictly better documents among the others. -/
theorem competitive_thinned (docs : List (DocEntry α)) (hnonneg : ∀ doc ∈ docs, 0 ≤ doc.score)
    (m : ScoreThresholdManager α) (hk : 0 < m.k) (scores : Multiset α) (hm : m.Holds scores) :
    Thinned (fun doc => m.k ≤ (scores +
      ((competitive m docs).map DocEntry.score : Multiset α)).countP (doc.score < ·)) docs
      (competitive m docs) := by
  induction docs generalizing m scores with
  | nil => exact .nil
  | cons doc rest ih =>
    obtain ⟨hdoc, hrest⟩ := List.forall_mem_cons.mp hnonneg
    unfold competitive
    by_cases hmax : m.threshold ≤ doc.maxScore
    · rw [if_pos hmax]
      have hk' : 0 < (m.addScore doc.score).2.k := (m.addScore_k doc.score).symm ▸ hk
      refine Thinned.keep doc ((ih hrest _ hk' _ (hm.addScore hk doc.score)).mono ?_)
      intro other hother
      rw [m.addScore_k, Multiset.cons_add] at hother
      rw [List.map_cons, ← Multiset.cons_coe, Multiset.add_cons]
      exact hother
    · rw [if_neg hmax]
      refine Thinned.leave doc ?_ (ih hrest m hk scores hm)
      have hbelow := hm.below_threshold hdoc (doc.bounded.trans_lt (not_le.mp hmax))
      rw [Multiset.countP_add]
      exact hbelow.trans (Nat.le_add_right _ _)

/-! ### The rows of a view -/

theorem viewRows_plain (heapSize : ℕ) (docs : List (DocEntry α)) :
    viewRows false heapSize docs = docs :=
  scanLoop_base docs _ none false (docs.length + 1) (Nat.lt_succ_self _)

theorem viewRows_wand {k : ℕ} (hk : 0 < k) (docs : List (DocEntry α)) :
    viewRows true k docs = competitive (.new k) docs := by
  have hctx : (createWandContext true k : WandExecutionContext α) = ⟨true, k, some (.new k)⟩ := by
    unfold createWandContext
    rw [if_pos ⟨rfl, hk⟩]
  have hwrap : (⟨true, k, some (.new k)⟩ : WandExecutionContext α).wrapIterator (.new docs false) =
      .wand ⟨.new docs false, 0⟩ := by
    unfold WandExecutionContext.wrapIterator
    rw [if_neg]
    rintro (h | h | h)
    · cases h
    · exact absurd h (Nat.pos_iff_ne_zero.mp hk)
    · cases h
  unfold viewRows
  rw [hctx]
  dsimp only
  rw [hwrap]
  exact scanLoop_wand docs _ none false 0 (docs.length + 1) (Nat.lt_succ_self _)

/-- The best `k` by a descending score are the same with and without WAND. -/
theorem take_viewRows (meaning : Meaning α) {k : ℕ} (hk : 0 < k) {element : SortElement}
    (elements : List SortElement) (hdesc : element.ascending = false)
    (hscore : ∀ doc, meaning.value element.attributePath doc = doc.score) (docs : List (DocEntry α))
    (hnonneg : ∀ doc ∈ docs, 0 ≤ doc.score) :
    ((viewRows true k docs).insertionSort
      (SortsBefore meaning.value (element :: elements))).take k =
    (docs.insertionSort (SortsBefore meaning.value (element :: elements))).take k := by
  rw [viewRows_wand hk]
  have hthin := competitive_thinned docs hnonneg (.new k) hk 0 TopK.isTopK_nil
  symm
  apply take_insertionSort_of_thinned _ hthin
  intro doc hout
  rw [zero_add, Multiset.coe_countP, List.countP_map] at hout
  refine le_trans hout (List.countP_mono_left ?_)
  intro other _ hless
  have hbetter := of_decide_eq_true hless
  exact decide_eq_true (before_of_score meaning.value elements hdesc hscore hbetter)

/-! ### The rule on a whole plan -/

/-- The sorts and the views that a limit of a pattern stands above. -/
def Covered (nodes : List ℕ) (plan : ExecutionPlan) (id : ℕ) : Prop :=
  ∃ node ∈ nodes, ∃ sort view k, TopKPattern plan node sort view k ∧ (id = sort ∨ id = view)

/-- A sort of the plan whose first element the rule takes for the score sorts by it. -/
def SortsByScore (meaning : Meaning α) (plan : ExecutionPlan) : Prop :=
  ∀ element elements dep, ⟨.sort (element :: elements), dep⟩ ∈ plan →
    isBM25SortElement element = true →
      ∀ doc, meaning.value element.attributePath doc = doc.score

/-- No two nodes read the rows of the same node. -/
def Unshared (plan : ExecutionPlan) : Prop := (plan.filterMap ExecutionNode.firstDep).Nodup

def NodeData.wandEnabled : NodeData → Bool
  | .enumerateView _ enabled _ => enabled
  | _ => false

/-- The state of a plan before the rule runs. -/
def Unannotated (plan : ExecutionPlan) : Prop := ∀ n ∈ plan, n.data.wandEnabled = false

instance (plan : ExecutionPlan) : Decidable (Unshared plan) :=
  inferInstanceAs (Decidable (plan.filterMap ExecutionNode.firstDep).Nodup)

instance (plan : ExecutionPlan) : Decidable (Unannotated plan) :=
  inferInstanceAs (Decidable (∀ n ∈ plan, n.data.wandEnabled = false))

theorem Unshared.same {plan : ExecutionPlan} (h : Unshared plan) {a b dep : ℕ}
    {data data' : NodeData} (ha : plan[a]? = some ⟨data, some dep⟩)
    (hb : plan[b]? = some ⟨data', some dep⟩) : a = b := by
  unfold Unshared at h
  induction plan generalizing a b with
  | nil => cases ha
  | cons n plan ih =>
    have hlater : ∀ {c : ℕ} {data : NodeData}, plan[c]? = some ⟨data, some dep⟩ →
        dep ∈ plan.filterMap ExecutionNode.firstDep := by
      intro c data hc
      exact List.mem_filterMap.mpr ⟨_, List.mem_of_getElem? hc, rfl⟩
    have hlink : ∀ data : NodeData, ExecutionNode.firstDep ⟨data, some dep⟩ = some dep :=
      fun _ => rfl
    cases a with
    | zero =>
      cases b with
      | zero => rfl
      | succ b =>
        obtain rfl := Option.some.inj ha
        rw [List.filterMap_cons_some (hlink _), List.nodup_cons] at h
        exact absurd (hlater hb) h.1
    | succ a =>
      cases b with
      | zero =>
        obtain rfl := Option.some.inj hb
        rw [List.filterMap_cons_some (hlink _), List.nodup_cons] at h
        exact absurd (hlater ha) h.1
      | succ b =>
        rw [List.filterMap_cons] at h
        refine congrArg (· + 1) (ih ?_ ha hb)
        split at h
        · exact h
        · exact (List.nodup_cons.mp h).2

theorem pattern_unique {plan : ExecutionPlan} (hshare : Unshared plan)
    {node sort node' sort' view k k' : ℕ} (h : TopKPattern plan node sort view k)
    (h' : TopKPattern plan node' sort' view k') : k' = k := by
  obtain ⟨element, elements, hsort, -⟩ := h.sorted
  obtain ⟨element', elements', hsort', -⟩ := h'.sorted
  obtain rfl := hshare.same hsort hsort'
  obtain rfl := hshare.same h.limit h'.limit
  have heq := h'.limit.symm.trans h.limit
  cases heq
  rfl

theorem optimized_view {nodes : List ℕ} {plan : ExecutionPlan} (hshare : Unshared plan)
    {node sort view k : ℕ} (hnode : node ∈ nodes) (h : TopKPattern plan node sort view k) :
    ∃ viewName enabled heapSize dep,
      plan[view]? = some ⟨.enumerateView viewName enabled heapSize, dep⟩ ∧
      (optimizeTopKPatterns nodes plan).2[view]? =
        some ⟨.enumerateView viewName true k, dep⟩ := by
  have hlast : lastHeapSize (nodes.filterMap (matchTopK plan)) view = some k := by
    cases hval : lastHeapSize (nodes.filterMap (matchTopK plan)) view with
    | none =>
      have hfound : (view, k) ∈ nodes.filterMap (matchTopK plan) :=
        List.mem_filterMap.mpr ⟨node, hnode, matchTopK_iff.mpr ⟨sort, h⟩⟩
      exact absurd rfl (lastHeapSize_eq_none.mp hval (view, k) hfound)
    | some k' =>
      obtain ⟨_, node', _, -, ⟨sort', h'⟩, -⟩ := lastHeapSize_eq_some.mp hval
      rw [pattern_unique hshare h h']
  exact optimized_of_last h.enumerated hlast

theorem take_rows_sort (meaning : Meaning α)
    (hnonneg : ∀ viewName, ∀ doc ∈ meaning.documents viewName, 0 ≤ doc.score) {nodes : List ℕ}
    {plan : ExecutionPlan} (hscore : SortsByScore meaning plan) (hshare : Unshared plan)
    (hfresh : Unannotated plan) {node sort view k : ℕ} (hnode : node ∈ nodes)
    (h : TopKPattern plan node sort view k) (depth : ℕ) :
    (rows meaning (optimizeTopKPatterns nodes plan).2 depth sort).take k =
      (rows meaning plan depth sort).take k := by
  obtain ⟨element, elements, hsort, hbm25, hdesc⟩ := h.sorted
  obtain ⟨viewName, enabled, heapSize, dep, hview, hview'⟩ := optimized_view hshare hnode h
  have hsort' : (optimizeTopKPatterns nodes plan).2[sort]? =
      some ⟨.sort (element :: elements), some view⟩ := by
    rw [← hsort]
    apply optimized_of_not_found
    intro other _ sort' k' hother
    obtain ⟨n, hn, hnview⟩ := hother.enumerated
    rw [hsort, Option.some_inj] at hn
    rw [← hn] at hnview
    cases hnview
  cases depth with
  | zero => rfl
  | succ depth =>
    unfold rows
    rw [hsort, hsort']
    cases depth with
    | zero => rfl
    | succ depth =>
      simp only [Option.elim_some]
      unfold rows
      rw [hview, hview']
      have hdisabled : enabled = false := hfresh _ (List.mem_of_getElem? hview)
      subst hdisabled
      simp only [viewRows_plain]
      exact take_viewRows meaning (Nat.pos_of_ne_zero h.positive) elements hdesc
        (hscore element elements _ (List.mem_of_getElem? hsort) hbm25) _ (hnonneg viewName)

/-- The rule may be run on any nodes of a plan: every node has the rows it had
before, in the same order, except the sorts and views below the limits found. -/
theorem optimized_plan_same_rows (meaning : Meaning α)
    (hnonneg : ∀ viewName, ∀ doc ∈ meaning.documents viewName, 0 ≤ doc.score) (nodes : List ℕ)
    (plan : ExecutionPlan) (hscore : SortsByScore meaning plan) (hshare : Unshared plan)
    (hfresh : Unannotated plan) (depth id : ℕ) (hid : ¬ Covered nodes plan id) :
    rows meaning (optimizeTopKPatterns nodes plan).2 depth id = rows meaning plan depth id := by
  induction depth generalizing id with
  | zero => rfl
  | succ depth ih =>
    have hnode : (optimizeTopKPatterns nodes plan).2[id]? = plan[id]? := by
      apply optimized_of_not_found
      intro node hnode sort k hpattern
      exact hid ⟨node, hnode, sort, id, k, hpattern, .inr rfl⟩
    unfold rows
    rw [hnode]
    cases hget : plan[id]? with
    | none => rfl
    | some n =>
      obtain ⟨data, firstDep⟩ := n
      cases firstDep with
      | none => rfl
      | some dep =>
        simp only [Option.elim_some]
        by_cases hdep : Covered nodes plan dep
        · obtain ⟨node, hin, sort, view, k, hpattern, rfl | rfl⟩ := hdep
          · -- the limit itself: links are not shared
            obtain rfl := hshare.same hget hpattern.limit
            have hdata := hget.symm.trans hpattern.limit
            cases hdata
            exact take_rows_sort meaning hnonneg hscore hshare hfresh hin hpattern depth
          · obtain ⟨element, elements, hsort, -⟩ := hpattern.sorted
            obtain rfl := hshare.same hget hsort
            exact absurd ⟨node, hin, id, dep, k, hpattern, .inl rfl⟩ hid
        · rw [ih dep hdep]

/-! ### A plan with a pattern -/

def samplePlan : ExecutionPlan :=
  [⟨.enumerateView (lit "v") false 0, none⟩, ⟨.sort [⟨lit "BM25", false⟩], some 0⟩,
    ⟨.limit 1 0, some 1⟩, ⟨.plain .return, some 2⟩]

def sampleMeaning : Meaning ℕ where
  documents := fun _ => [⟨1, 2, 3, by decide⟩, ⟨2, 1, 1, by decide⟩, ⟨3, 4, 4, by decide⟩]
  value := fun _ doc => doc.score
  plain := fun _ input => input

/- With two limits over one sort the larger one can lose rows to the smaller one. -/
example :
    let plan := samplePlan ++ [⟨.limit 3 0, some 1⟩]
    (rows sampleMeaning plan 5 4).map DocEntry.docId = [3, 1, 2] ∧
    (rows sampleMeaning (optimizeTopKPatterns [4, 2] plan).2 5 4).map DocEntry.docId = [3, 1] := by
  decide

/- An attribute that only looks like the score: the best document by it is passed over. -/
example :
    let plan : ExecutionPlan := [⟨.enumerateView (lit "v") false 0, none⟩,
      ⟨.sort [⟨lit "d.bm25_boost", false⟩], some 0⟩, ⟨.limit 1 0, some 1⟩]
    let boosted : Meaning ℕ := {sampleMeaning with value := fun _ doc => 5 - doc.score}
    (rows boosted plan 3 2).map DocEntry.docId = [2] ∧
    (rows boosted (optimizeTopKPatterns [2] plan).2 3 2).map DocEntry.docId = [1] := by
  decide

/-- The best document comes third and is found behind one that WAND passes over. -/
theorem samplePlan_same_rows :
    rows sampleMeaning (optimizeTopKPatterns [0, 1, 2, 3] samplePlan).2 5 3 =
      rows sampleMeaning samplePlan 5 3 := by
  refine optimized_plan_same_rows sampleMeaning (fun _ doc _ => Nat.zero_le doc.score) _ samplePlan
    (fun _ _ _ _ _ _ => rfl) (by decide) (by decide) 5 3 ?_
  rintro ⟨node, -, sort, view, k, hpattern, h | h⟩
  · subst h
    obtain ⟨element, elements, hsort, -⟩ := hpattern.sorted
    cases hsort
  · subst h
    obtain ⟨n, hn, hview⟩ := hpattern.enumerated
    cases hn
    cases hview

end OpenArangoDBCore.IResearch
