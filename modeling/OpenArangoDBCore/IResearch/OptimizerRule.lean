import OpenArangoDBCore.Basics
import OpenArangoDBCore.Lib.TextSearch

/-!
# The top-k optimizer rule (IResearchOptimizeTopK.cpp, AqlMocks.h)

The nodes of a plan live in memory and point to each other, so a plan is the
list of its nodes and a pointer is an index. The rule changes nothing but the
two annotations of view nodes.
-/

namespace OpenArangoDBCore.IResearch
open TextSearch

structure SortElement where
  attributePath : ByteString
  ascending : Bool
  deriving DecidableEq

/-- The types without data of their own. -/
inductive ExecutionNodeType where
  | filter
  | return
  | calculation
  | other
  deriving DecidableEq

inductive NodeData where
  | enumerateView (viewName : ByteString) (enableWand : Bool) (wandHeapSize : ℕ)
  | sort (elements : List SortElement)
  | limit (limit offset : ℕ)
  | plain (type : ExecutionNodeType)
  deriving DecidableEq

structure ExecutionNode where
  data : NodeData
  firstDep : Option ℕ
  deriving DecidableEq

abbrev ExecutionPlan := List ExecutionNode

/-- `std::tolower` in the C locale. -/
def tolower (c : Byte) : Byte :=
  if 65 ≤ c.val ∧ c.val ≤ 90 then Fin.ofNat 256 (c.val + 32) else c

def isBM25SortElement (element : SortElement) : Bool :=
  (find (lit "bm25") (element.attributePath.map tolower)).isSome

def validateSortNodeForWand : List SortElement → Bool
  | [] => false
  | element :: _ => isBM25SortElement element && !element.ascending

def validateLimitNodeForWand (limit offset : ℕ) : Bool := offset == 0 && limit != 0

/-- The body of the loop up to the annotation: the view node and the heap size. -/
def matchTopK (plan : ExecutionPlan) (node : ℕ) : Option (ℕ × ℕ) :=
  match plan[node]? with
  | some ⟨.limit limit offset, some dep⟩ =>
    if validateLimitNodeForWand limit offset then
      match plan[dep]? with
      | some ⟨.sort elements, some sortDep⟩ =>
        if validateSortNodeForWand elements then
          match plan[sortDep]? with
          | some ⟨.enumerateView _ _ _, _⟩ => some (sortDep, limit)
          | _ => none
        else none
      | _ => none
    else none
  | _ => none

/-- `setWandEnabled(true)` and `setWandHeapSize` on a view node. -/
def NodeData.annotated (heapSize : ℕ) : NodeData → NodeData
  | .enumerateView viewName _ _ => .enumerateView viewName true heapSize
  | data => data

def annotate (plan : ExecutionPlan) (found : ℕ × ℕ) : ExecutionPlan :=
  plan.modify found.1 fun n => {n with data := n.data.annotated found.2}

def optimizeTopKPatterns : List ℕ → ExecutionPlan → ℕ × ExecutionPlan
  | [], plan => (0, plan)
  | node :: nodes, plan =>
    match matchTopK plan node with
    | none => optimizeTopKPatterns nodes plan
    | some found =>
      let r := optimizeTopKPatterns nodes (annotate plan found)
      (r.1 + 1, r.2)

/-! ### What the rule finds -/

def NodeData.isView : NodeData → Bool
  | .enumerateView _ _ _ => true
  | _ => false

/-- A limit of `k` without offset, of a descending sort by the score, of a view. -/
structure TopKPattern (plan : ExecutionPlan) (node sort view k : ℕ) : Prop where
  positive : k ≠ 0
  limit : plan[node]? = some ⟨.limit k 0, some sort⟩
  sorted : ∃ element elements, plan[sort]? = some ⟨.sort (element :: elements), some view⟩ ∧
    isBM25SortElement element = true ∧ element.ascending = false
  enumerated : ∃ n, plan[view]? = some n ∧ n.data.isView = true

theorem matchTopK_iff {plan : ExecutionPlan} {node view k : ℕ} :
    matchTopK plan node = some (view, k) ↔ ∃ sort, TopKPattern plan node sort view k := by
  constructor
  · intro h
    unfold matchTopK at h
    split at h
    next limit offset dep hlimit =>
      split at h
      next hvalid =>
        split at h
        next elements sortDep hsort =>
          split at h
          next hsorted =>
            split at h
            next viewName enabled heapSize viewDep hview =>
              cases h
              unfold validateLimitNodeForWand at hvalid
              rw [Bool.and_eq_true, beq_iff_eq, bne_iff_ne] at hvalid
              obtain ⟨rfl, hpos⟩ := hvalid
              cases elements with
              | nil => cases hsorted
              | cons element elements =>
                unfold validateSortNodeForWand at hsorted
                rw [Bool.and_eq_true, Bool.not_eq_true'] at hsorted
                exact ⟨dep, hpos, hlimit, ⟨element, elements, hsort, hsorted⟩, ⟨_, hview, rfl⟩⟩
            next => cases h
          next => cases h
        next => cases h
      next => cases h
    next => cases h
  · rintro ⟨sort, hpos, hlimit, ⟨element, elements, hsort, hbm25, hdesc⟩, ⟨data, dep⟩, hview, hdata⟩
    have hvalid : validateLimitNodeForWand k 0 = true := by
      simpa [validateLimitNodeForWand] using hpos
    have hsorted : validateSortNodeForWand (element :: elements) = true := by
      simp [validateSortNodeForWand, hbm25, hdesc]
    unfold matchTopK
    simp only [hlimit, hvalid, hsort, hsorted, ite_true]
    cases data with
    | enumerateView => rw [hview]
    | sort => cases hdata
    | limit => cases hdata
    | plain => cases hdata

/-! ### What the rule changes -/

theorem annotated_isView (data : NodeData) (k : ℕ) : (data.annotated k).isView = data.isView := by
  cases data <;> rfl

theorem annotated_of_not_view {data : NodeData} (h : data.isView = false) (k : ℕ) :
    data.annotated k = data := by
  cases data with
  | enumerateView => cases h
  | sort => rfl
  | limit => rfl
  | plain => rfl

theorem annotated_annotated (data : NodeData) (k k' : ℕ) :
    (data.annotated k).annotated k' = data.annotated k' := by
  cases data <;> rfl

/-- Of every node but a view nothing changes, of a view not the place in the plan. -/
inductive Changed : Option ExecutionNode → Option ExecutionNode → Prop
  | none : Changed none none
  | same (n : ExecutionNode) : Changed (some n) (some n)
  | annotated (n : ExecutionNode) (k : ℕ) (h : n.data.isView = true) :
    Changed (some n) (some {n with data := n.data.annotated k})

theorem annotate_get (plan : ExecutionPlan) (found : ℕ × ℕ) (id : ℕ) :
    (annotate plan found)[id]? = (plan[id]?).map fun n =>
      if id = found.1 then {n with data := n.data.annotated found.2} else n := by
  unfold annotate
  rw [List.getElem?_modify]
  by_cases h : found.1 = id
  · simp [h]
  · simp [h, Ne.symm h]

theorem annotate_changed (plan : ExecutionPlan) (found : ℕ × ℕ) (id : ℕ) :
    Changed plan[id]? (annotate plan found)[id]? := by
  rw [annotate_get]
  cases plan[id]? with
  | none => exact .none
  | some n =>
    rw [Option.map_some]
    split
    · cases hview : n.data.isView with
      | true => exact .annotated n found.2 hview
      | false =>
        rw [annotated_of_not_view hview]
        exact .same n
    · exact .same n

theorem Changed.eq_some_iff {o o' : Option ExecutionNode} (h : Changed o o') {n : ExecutionNode}
    (hn : n.data.isView = false) : o' = some n ↔ o = some n := by
  cases h with
  | none => rfl
  | same => rfl
  | annotated m k hm =>
    constructor
    · intro heq
      rw [← Option.some.inj heq, annotated_isView, hm] at hn
      cases hn
    · intro heq
      rw [← Option.some.inj heq, hm] at hn
      cases hn

theorem Changed.view_iff {o o' : Option ExecutionNode} (h : Changed o o') :
    (∃ n, o' = some n ∧ n.data.isView = true) ↔ ∃ n, o = some n ∧ n.data.isView = true := by
  cases h with
  | none => rfl
  | same => rfl
  | annotated m k hm =>
    constructor
    · exact fun _ => ⟨m, rfl, hm⟩
    · exact fun _ => ⟨_, rfl, (annotated_isView m.data k).trans hm⟩

theorem pattern_of_changed {plan plan' : ExecutionPlan}
    (h : ∀ id : ℕ, Changed plan[id]? plan'[id]?) {node sort view k : ℕ} :
    TopKPattern plan' node sort view k ↔ TopKPattern plan node sort view k := by
  constructor
  · rintro ⟨hpos, hlimit, ⟨element, elements, hsort, hb⟩, hview⟩
    exact ⟨hpos, ((h node).eq_some_iff rfl).mp hlimit,
      ⟨element, elements, ((h sort).eq_some_iff rfl).mp hsort, hb⟩, (h view).view_iff.mp hview⟩
  · rintro ⟨hpos, hlimit, ⟨element, elements, hsort, hb⟩, hview⟩
    exact ⟨hpos, ((h node).eq_some_iff rfl).mpr hlimit,
      ⟨element, elements, ((h sort).eq_some_iff rfl).mpr hsort, hb⟩, (h view).view_iff.mpr hview⟩

theorem annotate_match (plan : ExecutionPlan) (found : ℕ × ℕ) (node : ℕ) :
    matchTopK (annotate plan found) node = matchTopK plan node := by
  apply Option.ext
  rintro ⟨view, k⟩
  rw [matchTopK_iff, matchTopK_iff]
  exact exists_congr fun sort => pattern_of_changed (annotate_changed plan found)

theorem optimizeTopKPatterns_eq (nodes : List ℕ) (plan : ExecutionPlan) :
    optimizeTopKPatterns nodes plan =
      ((nodes.filterMap (matchTopK plan)).length,
        (nodes.filterMap (matchTopK plan)).foldl annotate plan) := by
  induction nodes generalizing plan with
  | nil => rfl
  | cons node nodes ih =>
    unfold optimizeTopKPatterns
    cases hm : matchTopK plan node with
    | none =>
      rw [List.filterMap_cons_none hm]
      exact ih plan
    | some found =>
      have hsame : matchTopK (annotate plan found) = matchTopK plan :=
        funext fun other => annotate_match plan found other
      rw [List.filterMap_cons_some hm, List.foldl_cons, List.length_cons]
      simp only [ih, hsame]

/-- The last one of the patterns found at a view. -/
def lastHeapSize (founds : List (ℕ × ℕ)) (id : ℕ) : Option ℕ :=
  ((founds.filter fun found => found.1 = id).getLast?).map Prod.snd

theorem foldl_annotate_get (founds : List (ℕ × ℕ)) (plan : ExecutionPlan) (id : ℕ) :
    (founds.foldl annotate plan)[id]? = (plan[id]?).map fun n =>
      match lastHeapSize founds id with
      | none => n
      | some k => {n with data := n.data.annotated k} := by
  induction founds using List.reverseRecOn with
  | nil => simp [lastHeapSize]
  | append_singleton founds found ih =>
    rw [List.foldl_append, List.foldl_cons, List.foldl_nil, annotate_get, ih]
    unfold lastHeapSize
    rw [List.filter_append, List.filter_singleton]
    by_cases h : id = found.1
    · subst h
      cases plan[found.1]? with
      | none => rfl
      | some n =>
        obtain ⟨nd, nt⟩ := n
        have hlast : ((founds.filter fun f => f.1 = found.1) ++ [found]).getLast? = some found :=
          List.getLast?_concat
        simp only [decide_true, cond_true, hlast, Option.map_some, ite_true, Option.some_inj]
        cases ((founds.filter fun f => f.1 = found.1).getLast?).map Prod.snd with
        | none => rfl
        | some k => simp only [annotated_annotated]
    · have hne : ¬ found.1 = id := fun heq => h heq.symm
      simp only [hne, decide_false, cond_false, List.append_nil, if_neg h, Option.map_map]
      rfl

theorem optimized_get (nodes : List ℕ) (plan : ExecutionPlan) (id : ℕ) :
    (optimizeTopKPatterns nodes plan).2[id]? = (plan[id]?).map fun n =>
      match lastHeapSize (nodes.filterMap (matchTopK plan)) id with
      | none => n
      | some k => {n with data := n.data.annotated k} := by
  rw [optimizeTopKPatterns_eq]
  exact foldl_annotate_get _ plan id

theorem lastHeapSize_eq_none {founds : List (ℕ × ℕ)} {id : ℕ} :
    lastHeapSize founds id = none ↔ ∀ found ∈ founds, found.1 ≠ id := by
  unfold lastHeapSize
  rw [Option.map_eq_none_iff, List.getLast?_eq_none_iff, List.filter_eq_nil_iff]
  simp

theorem lastHeapSize_eq_some {nodes : List ℕ} {plan : ExecutionPlan} {id k : ℕ} :
    lastHeapSize (nodes.filterMap (matchTopK plan)) id = some k ↔
      ∃ before node after, nodes = before ++ node :: after ∧
        (∃ sort, TopKPattern plan node sort id k) ∧
        ∀ other ∈ after, ∀ sort k', ¬ TopKPattern plan other sort id k' := by
  induction nodes using List.reverseRecOn with
  | nil =>
    constructor
    · intro h
      cases h
    · rintro ⟨before, node, after, h, -⟩
      exact absurd h.symm (by simp)
  | append_singleton nodes last ih =>
    by_cases hlast : ∃ k', matchTopK plan last = some (id, k')
    · obtain ⟨k', hk'⟩ := hlast
      have hval : lastHeapSize ((nodes ++ [last]).filterMap (matchTopK plan)) id = some k' := by
        unfold lastHeapSize
        simp [List.filterMap_append, hk']
      rw [hval, Option.some_inj]
      constructor
      · rintro rfl
        exact ⟨nodes, last, [], rfl, matchTopK_iff.mp hk', fun _ h => nomatch h⟩
      · rintro ⟨before, node, after, hsplit, ⟨sort, hpattern⟩, hafter⟩
        obtain ⟨sort', hpattern'⟩ := matchTopK_iff.mp hk'
        cases List.eq_nil_or_concat after with
        | inl hnil =>
          subst hnil
          obtain ⟨-, hnode⟩ := List.append_inj' hsplit rfl
          rw [List.cons.inj hnode |>.1, matchTopK_iff.mpr ⟨sort, hpattern⟩] at hk'
          exact (Prod.mk.inj (Option.some.inj hk')).2.symm
        | inr hconcat =>
          obtain ⟨front, x, rfl⟩ := hconcat
          rw [List.concat_eq_append, ← List.cons_append, ← List.append_assoc] at hsplit
          obtain ⟨-, hx⟩ := List.append_inj' hsplit rfl
          rw [← List.cons.inj hx |>.1] at hafter
          exact absurd hpattern' (hafter last (by simp) sort' k')
    · have hval : lastHeapSize ((nodes ++ [last]).filterMap (matchTopK plan)) id =
          lastHeapSize (nodes.filterMap (matchTopK plan)) id := by
        unfold lastHeapSize
        rw [List.filterMap_append, List.filter_append]
        cases hm : matchTopK plan last with
        | none => simp [hm]
        | some found =>
          have hne : found.1 ≠ id := by
            rintro rfl
            exact hlast ⟨found.2, hm⟩
          simp [hm, hne]
      have hno : ∀ sort k', ¬ TopKPattern plan last sort id k' := by
        intro sort k' hpattern
        exact hlast ⟨k', matchTopK_iff.mpr ⟨sort, hpattern⟩⟩
      rw [hval, ih]
      constructor
      · rintro ⟨before, node, after, rfl, hpattern, hafter⟩
        refine ⟨before, node, after ++ [last], by simp, hpattern, ?_⟩
        intro other hother
        cases List.mem_append.mp hother with
        | inl h => exact hafter other h
        | inr h =>
          rw [List.mem_singleton.mp h]
          exact hno
      · rintro ⟨before, node, after, hsplit, hpattern, hafter⟩
        cases List.eq_nil_or_concat after with
        | inl hnil =>
          subst hnil
          obtain ⟨-, hnode⟩ := List.append_inj' hsplit rfl
          rw [← List.cons.inj hnode |>.1] at hpattern
          obtain ⟨sort, hpattern⟩ := hpattern
          exact absurd hpattern (hno sort k)
        | inr hconcat =>
          obtain ⟨front, x, rfl⟩ := hconcat
          rw [List.concat_eq_append, ← List.cons_append, ← List.append_assoc] at hsplit
          obtain ⟨hfront, -⟩ := List.append_inj' hsplit rfl
          refine ⟨before, node, front, hfront, hpattern, ?_⟩
          intro other hother
          exact hafter other (by simp [hother])

theorem optimized_of_not_found {nodes : List ℕ} {plan : ExecutionPlan} {id : ℕ}
    (h : ∀ node ∈ nodes, ∀ sort k, ¬ TopKPattern plan node sort id k) :
    (optimizeTopKPatterns nodes plan).2[id]? = plan[id]? := by
  have hnone : lastHeapSize (nodes.filterMap (matchTopK plan)) id = none := by
    rw [lastHeapSize_eq_none]
    rintro ⟨view, k⟩ hfound rfl
    obtain ⟨node, hnode, hmatch⟩ := List.mem_filterMap.mp hfound
    obtain ⟨sort, hpattern⟩ := matchTopK_iff.mp hmatch
    exact h node hnode sort k hpattern
  rw [optimized_get, hnone]
  exact Option.map_id'

theorem optimized_of_last {nodes : List ℕ} {plan : ExecutionPlan} {id k : ℕ}
    (hview : ∃ n, plan[id]? = some n ∧ n.data.isView = true)
    (hlast : lastHeapSize (nodes.filterMap (matchTopK plan)) id = some k) :
    ∃ viewName enabled heapSize dep,
      plan[id]? = some ⟨.enumerateView viewName enabled heapSize, dep⟩ ∧
      (optimizeTopKPatterns nodes plan).2[id]? = some ⟨.enumerateView viewName true k, dep⟩ := by
  obtain ⟨⟨data, dep⟩, hget, hdata⟩ := hview
  rw [optimized_get, hlast, hget]
  cases data with
  | enumerateView viewName enabled heapSize => exact ⟨viewName, enabled, heapSize, dep, rfl, rfl⟩
  | sort => cases hdata
  | limit => cases hdata
  | plain => cases hdata

/-- The rule counts the limits of a pattern and annotates a view with the
limit of the last pattern it has, however the patterns share their nodes;
every other node stays as it is, and so do all the links. -/
theorem optimizer_annotates_last_pattern (nodes : List ℕ) (plan : ExecutionPlan) :
    (optimizeTopKPatterns nodes plan).1 =
      nodes.countP (fun node => (matchTopK plan node).isSome) ∧
    (∀ node : ℕ, (matchTopK plan node).isSome = true ↔
      ∃ sort view k, TopKPattern plan node sort view k) ∧
    ∀ id : ℕ,
      ((∀ node ∈ nodes, ∀ sort k, ¬ TopKPattern plan node sort id k) →
        (optimizeTopKPatterns nodes plan).2[id]? = plan[id]?) ∧
      ∀ before node after sort k, nodes = before ++ node :: after →
        TopKPattern plan node sort id k →
        (∀ other ∈ after, ∀ sort' k', ¬ TopKPattern plan other sort' id k') →
        ∃ viewName enabled heapSize dep,
          plan[id]? = some ⟨.enumerateView viewName enabled heapSize, dep⟩ ∧
          (optimizeTopKPatterns nodes plan).2[id]? =
            some ⟨.enumerateView viewName true k, dep⟩ := by
  refine ⟨?_, ?_, ?_⟩
  · rw [optimizeTopKPatterns_eq]
    exact List.length_filterMap_eq_countP
  · intro node
    rw [Option.isSome_iff_exists, Prod.exists]
    constructor
    · rintro ⟨view, k, h⟩
      obtain ⟨sort, hpattern⟩ := matchTopK_iff.mp h
      exact ⟨sort, view, k, hpattern⟩
    · rintro ⟨sort, view, k, hpattern⟩
      exact ⟨view, k, matchTopK_iff.mpr ⟨sort, hpattern⟩⟩
  · intro id
    constructor
    · exact optimized_of_not_found
    · intro before node after sort k hnodes hpattern hafter
      exact optimized_of_last hpattern.enumerated
        (lastHeapSize_eq_some.mpr ⟨before, node, after, hnodes, ⟨sort, hpattern⟩, hafter⟩)

end OpenArangoDBCore.IResearch
