import OpenArangoDBCore.Lib.BinaryHeap
import OpenArangoDBCore.IResearch.RepeatedScore

/-!
# The threshold manager over its vector (IResearchOptimizeTopK.cpp)

`ScoreThresholdManager` has the scores in ascending order. In the class they lie
as `push_heap` and `pop_heap` leave them, and only the front is ever read. NaN
is not a score here: `std::greater` does not order it.
-/

namespace OpenArangoDBCore.IResearch
open BinaryHeap TopK
variable {α : Type} [LinearOrder α]

/-- The members of the C++ class. With `k = 0` a score would be compared with the
front of an empty vector, so there is no such manager. -/
structure ScoreHeap (α : Type) [LinearOrder α] where
  k : ℕ
  heap : List α
  k_pos : 0 < k
  isHeap : IsHeap heap
  size_le : heap.length ≤ k

namespace ScoreHeap

def new (k : ℕ) (hk : 0 < k) : ScoreHeap α := ⟨k, [], hk, isHeap_nil, Nat.zero_le k⟩

def size (m : ScoreHeap α) : ℕ := m.heap.length
def reset (m : ScoreHeap α) : ScoreHeap α := new m.k m.k_pos

theorem ne_nil (m : ScoreHeap α) (hfull : ¬ m.heap.length < m.k) : m.heap ≠ [] := by
  have hpos := m.k_pos
  exact List.ne_nil_of_length_pos (by omega)

theorem size_pushed (algorithms : HeapAlgorithms α) (m : ScoreHeap α) (score : α) :
    (algorithms.push_heap (m.heap ++ [score])).length = m.heap.length + 1 := by
  rw [(algorithms.pushed_perm m.isHeap score).length_eq, List.length_cons]

theorem size_replaced (algorithms : HeapAlgorithms α) (m : ScoreHeap α) (hne : m.heap ≠ [])
    (score : α) :
    (algorithms.push_heap ((algorithms.pop_heap m.heap).dropLast ++ [score])).length =
      m.heap.length := by
  have hpos := List.length_pos_of_ne_nil hne
  rw [(algorithms.replaced_perm m.isHeap hne score).length_eq, List.length_cons, List.length_tail]
  omega

variable (algorithms : HeapAlgorithms α)

/-- `push_back(score)` and `push_heap` -/
def pushed (m : ScoreHeap α) (hroom : m.heap.length < m.k) (score : α) : ScoreHeap α where
  k := m.k
  heap := algorithms.push_heap (m.heap ++ [score])
  k_pos := m.k_pos
  isHeap := algorithms.push_heap_isHeap m.heap score m.isHeap
  size_le := (m.size_pushed algorithms score).trans_le hroom

/-- `pop_heap`, `back() = score` and `push_heap` -/
def replaced (m : ScoreHeap α) (hne : m.heap ≠ []) (score : α) : ScoreHeap α where
  k := m.k
  heap := algorithms.push_heap ((algorithms.pop_heap m.heap).dropLast ++ [score])
  k_pos := m.k_pos
  isHeap := algorithms.replaced_isHeap m.isHeap hne score
  size_le := (m.size_replaced algorithms hne score).trans_le m.size_le

def addScore (m : ScoreHeap α) (score : α) : Bool × ScoreHeap α :=
  if hroom : m.heap.length < m.k then (true, m.pushed algorithms hroom score)
  else if m.heap.head (m.ne_nil hroom) < score then
    (true, m.replaced algorithms (m.ne_nil hroom) score)
  else (false, m)

def threshold [Zero α] (m : ScoreHeap α) : α :=
  if hroom : m.heap.length < m.k then 0 else m.heap.head (m.ne_nil hroom)

/-! ### The same scores in ascending order -/

/-- What the manager is for, however its vector lies. -/
def ascending (m : ScoreHeap α) : ScoreThresholdManager α :=
  ⟨m.k, m.heap.mergeSort (· ≤ ·), List.sortedLE_mergeSort.pairwise⟩

theorem ascending_perm (m : ScoreHeap α) : m.ascending.heap.Perm m.heap :=
  List.mergeSort_perm m.heap (· ≤ ·)

theorem ascending_length (m : ScoreHeap α) : m.ascending.heap.length = m.heap.length :=
  m.ascending_perm.length_eq

/-- The front of the vector is the first of the scores in order. -/
theorem ascending_heap (m : ScoreHeap α) (hne : m.heap ≠ []) :
    m.ascending.heap = m.heap.head hne :: m.heap.tail.mergeSort (· ≤ ·) :=
  m.isHeap.mergeSort_eq hne

section Refinement
variable [Zero α] (algorithms : HeapAlgorithms α) (m : ScoreHeap α)

theorem ascending_threshold : m.ascending.threshold = m.threshold := by
  unfold ScoreThresholdManager.threshold threshold
  rw [ascending_length]
  split
  next hroom => rw [dif_pos (show m.heap.length < m.k from hroom)]
  next hfull =>
    rw [dif_neg (show ¬ m.heap.length < m.k from hfull), m.ascending_heap (m.ne_nil hfull),
      List.headD_cons]

/-- Both update paths do what the ordered manager does. -/
theorem ascending_addScore (score : α) : m.ascending.addScore score =
    ((m.addScore algorithms score).1, (m.addScore algorithms score).2.ascending) := by
  unfold ScoreThresholdManager.addScore addScore
  by_cases hroom : m.heap.length < m.k
  · have hinserted := algorithms.pushed_mergeSort m.isHeap score
    rw [dif_pos hroom, if_pos (by rwa [ascending_length])]
    simp only [ascending, pushed, hinserted]
  · have hne := m.ne_nil hroom
    have hinserted := algorithms.replaced_mergeSort m.isHeap hne score
    have hheap := m.ascending_heap hne
    rw [dif_neg hroom, if_neg (by rwa [ascending_length])]
    simp only [hheap, List.headD_cons]
    split
    next hlt => simp only [ascending, replaced, hinserted, List.tail_cons]
    next => rfl

end Refinement

theorem addScore_fst [Zero α] (algorithms : HeapAlgorithms α) (m : ScoreHeap α) (score : α) :
    (m.addScore algorithms score).1 = true ↔
      (m.addScore algorithms score).2.size ≠ m.size ∨ m.k ≤ m.size ∧ m.threshold < score := by
  unfold addScore threshold
  split
  next hroom =>
    have hsize := m.size_pushed algorithms score
    refine iff_of_true rfl (.inl ?_)
    simp only [size, pushed, hsize]
    omega
  next hfull =>
    split
    next hlt => exact iff_of_true rfl (.inr ⟨not_lt.mp hfull, hlt⟩)
    next hnot =>
      refine iff_of_false Bool.false_ne_true ?_
      rintro (hsize | ⟨-, hlt⟩)
      · exact hsize rfl
      · exact hnot hlt

theorem ascending_new [Zero α] (k : ℕ) (hk : 0 < k) :
    (new k hk : ScoreHeap α).ascending = .new k := by
  simp only [ascending, new, ScoreThresholdManager.new, List.mergeSort_nil]

end ScoreHeap

/-! ### Every sequence of calls -/

inductive ManagerCall (α : Type) where
  | addScore (score : α)
  | reset

/-- The scores that have been added since the last `reset`. -/
def sinceReset (calls : List (ManagerCall α)) : List α :=
  calls.foldl (fun scores call =>
    match call with
    | .addScore score => scores ++ [score]
    | .reset => []) []

omit [LinearOrder α] in
theorem sinceReset_addScores (calls : List (ManagerCall α)) (more : List α) :
    sinceReset (calls ++ more.map .addScore) = sinceReset calls ++ more := by
  induction more using List.reverseRecOn with
  | nil => rw [List.map_nil, List.append_nil, List.append_nil]
  | append_singleton more score ih =>
    rw [List.map_append, ← List.append_assoc, sinceReset, List.foldl_append, ← sinceReset, ih,
      ← List.append_assoc]
    rfl

namespace ScoreHeap
open ScoreThresholdManager
variable (algorithms : HeapAlgorithms α)

def step (m : ScoreHeap α) : ManagerCall α → ScoreHeap α
  | .addScore score => (m.addScore algorithms score).2
  | .reset => m.reset

def run (k : ℕ) (hk : 0 < k) (calls : List (ManagerCall α)) : ScoreHeap α :=
  calls.foldl (step algorithms) (new k hk)

theorem step_k (m : ScoreHeap α) (call : ManagerCall α) : (m.step algorithms call).k = m.k := by
  cases call with
  | addScore score =>
    unfold step addScore
    dsimp only
    split
    · rfl
    · split <;> rfl
  | reset => rfl

section Run
variable {k : ℕ} (hk : 0 < k) (calls : List (ManagerCall α))

theorem run_concat (call : ManagerCall α) :
    run algorithms k hk (calls ++ [call]) = (run algorithms k hk calls).step algorithms call := by
  unfold run
  rw [List.foldl_append]
  rfl

theorem run_k : (run algorithms k hk calls).k = k := by
  induction calls using List.reverseRecOn with
  | nil => rfl
  | append_singleton calls call ih => rw [run_concat, step_k, ih]

variable [Zero α]

/-- After every sequence of calls the vector has the scores of the ordered manager. -/
theorem run_ascending : (run algorithms k hk calls).ascending = after k (sinceReset calls) := by
  induction calls using List.reverseRecOn with
  | nil => exact ascending_new k hk
  | append_singleton calls call ih =>
    rw [run_concat, sinceReset, List.foldl_append, ← sinceReset]
    cases call with
    | addScore score =>
      have hadded := ascending_addScore algorithms (run algorithms k hk calls) score
      change _ = after k (sinceReset calls ++ [score])
      rw [after_concat, ← ih, hadded]
      rfl
    | reset =>
      have hempty := ascending_new (α := α) _ (run algorithms k hk calls).k_pos
      exact hempty.trans (congrArg ScoreThresholdManager.new (run_k algorithms hk calls))

theorem run_isTopK :
    IsTopK k id (sinceReset calls : Multiset α) ((run algorithms k hk calls).heap : Multiset α) := by
  have hholds := after_holds hk (sinceReset calls)
  unfold Holds at hholds
  rw [after_k, ← run_ascending algorithms hk] at hholds
  rwa [← Multiset.coe_eq_coe.mpr (run algorithms k hk calls).ascending_perm]

theorem run_size : (run algorithms k hk calls).size = min k (sinceReset calls).length :=
  (run_isTopK algorithms hk calls).card

theorem run_threshold_short (hshort : (sinceReset calls).length < k) :
    (run algorithms k hk calls).threshold = 0 := by
  rw [← ascending_threshold, run_ascending]
  exact after_threshold_short hshort

theorem run_threshold_full (hfull : k ≤ (sinceReset calls).length) :
    kthLargest k (sinceReset calls) = some (run algorithms k hk calls).threshold := by
  have hsize := run_size algorithms hk calls
  have hroom : ¬ (run algorithms k hk calls).heap.length < (run algorithms k hk calls).k := by
    rw [run_k]
    unfold size at hsize
    omega
  unfold threshold
  rw [dif_neg hroom]
  apply (run_isTopK algorithms hk calls).kthLargest_eq (hsize.trans (min_eq_left hfull))
  · exact List.head_mem _
  · exact (run algorithms k hk calls).isHeap.head_le _

/-- Without a `reset` the threshold of a full heap does not fall. -/
theorem run_threshold_le (hfull : k ≤ (sinceReset calls).length) (more : List α) :
    (run algorithms k hk calls).threshold ≤
      (run algorithms k hk (calls ++ more.map .addScore)).threshold := by
  have hmore : k ≤ (sinceReset calls ++ more).length := by
    rw [List.length_append]
    exact Nat.le_add_right_of_le hfull
  rw [← ascending_threshold, ← ascending_threshold, run_ascending, run_ascending,
    sinceReset_addScores, after_le_threshold_iff hk hmore, List.countP_append]
  have hmany := (after_le_threshold_iff hk hfull _).mp le_rfl
  exact Nat.le_add_right_of_le hmany

theorem run_accepts (score : α) :
    ((run algorithms k hk calls).addScore algorithms score).1 = true ↔
      ((run algorithms k hk calls).addScore algorithms score).2.size ≠
          (run algorithms k hk calls).size ∨
        ∃ least, kthLargest k (sinceReset calls) = some least ∧ least < score := by
  rw [addScore_fst, run_k, run_size, le_min_iff]
  by_cases hfull : k ≤ (sinceReset calls).length
  · rw [run_threshold_full algorithms hk calls hfull]
    simp only [le_refl, hfull, true_and, Option.some_inj, exists_eq_left']
  · rw [kthLargest_eq_none (not_le.mp hfull)]
    simp only [hfull, and_false, false_and, reduceCtorEq, exists_const]

end Run

/-- The vector has the `k` largest of the scores that were added, its front is
the k-th largest, and `addScore` tells whether the score has been kept. -/
theorem holds_k_largest [Zero α] {k : ℕ} (hk : 0 < k) (calls : List (ManagerCall α)) :
    let m := run algorithms k hk calls
    let scores := sinceReset calls
    ((m.heap : Multiset α) = ((scores.mergeSort (· ≥ ·)).take k : List α) ∧
        m.size = min k scores.length) ∧
      (scores.length < k → m.threshold = 0) ∧
      (k ≤ scores.length → kthLargest k scores = some m.threshold ∧
        ∀ more : List α,
          m.threshold ≤ (run algorithms k hk (calls ++ more.map .addScore)).threshold) ∧
      ∀ score, (m.addScore algorithms score).1 = true ↔
        (m.addScore algorithms score).2.size ≠ m.size ∨
          ∃ least, kthLargest k scores = some least ∧ least < score :=
  ⟨⟨(run_isTopK algorithms hk calls).eq_take, run_size algorithms hk calls⟩,
    run_threshold_short algorithms hk calls,
    fun hfull => ⟨run_threshold_full algorithms hk calls hfull,
      run_threshold_le algorithms hk calls hfull⟩,
    run_accepts algorithms hk calls⟩

/-- Two equal scores, of which the third puts one out. -/
theorem two_largest_since_reset :
    let calls : List (ManagerCall ℤ) :=
      [.addScore 9, .reset, .addScore 3, .addScore 3, .addScore 8]
    let m := run binaryHeap 2 Nat.two_pos calls
    m.heap = [3, 8] ∧
      (m.heap : Multiset ℤ) = (([3, 3, 8].mergeSort (· ≥ ·)).take 2 : List ℤ) ∧
      (run binaryHeap 2 Nat.two_pos (calls.take 3)).threshold = 0 ∧
      kthLargest 2 ([3, 3, 8] : List ℤ) = some m.threshold ∧
      m.threshold ≤ (run binaryHeap 2 Nat.two_pos (calls ++ [.addScore 4])).threshold ∧
      ((m.addScore binaryHeap 4).1 = true ↔
        (m.addScore binaryHeap 4).2.size ≠ m.size ∨
          ∃ least : ℤ, kthLargest 2 [3, 3, 8] = some least ∧ least < 4) := by
  intro calls m
  have hlargest := holds_k_largest binaryHeap Nat.two_pos calls
  have hshort := holds_k_largest binaryHeap Nat.two_pos (calls.take 3)
  refine ⟨by decide +kernel, hlargest.1.1, hshort.2.1 (by decide), ?_, ?_, hlargest.2.2.2 4⟩
  · exact (hlargest.2.2.1 (by decide)).1
  · exact (hlargest.2.2.1 (by decide)).2 [4]

end ScoreHeap

end OpenArangoDBCore.IResearch
