import Mathlib.Data.List.Sort
import Mathlib.Tactic

/-!
# Binary heaps in a vector

The least element is in front, as with `std::greater`. Nothing is said about
where the other elements lie, so what is built on `push_heap` and `pop_heap`
takes them as it finds them, by what the standard promises. The two sifts below
keep the promise.
-/

namespace OpenArangoDBCore.BinaryHeap
variable {α : Type} [LinearOrder α]

/-- `c` is one of the two positions below `p`. -/
def Edge (p c : ℕ) : Prop := c = 2 * p + 1 ∨ c = 2 * p + 2

theorem Edge.lt {p c : ℕ} (h : Edge p c) : p < c := by
  unfold Edge at h
  omega

theorem Edge.parent_eq {p q c : ℕ} (hp : Edge p c) (hq : Edge q c) : p = q := by
  unfold Edge at hp hq
  omega

theorem edge_parent {c : ℕ} (h : 0 < c) : Edge ((c - 1) / 2) c := by
  unfold Edge
  omega

def IsHeap (v : List α) : Prop :=
  ∀ p c (hp : p < v.length) (hc : c < v.length), Edge p c → v[p] ≤ v[c]

theorem isHeap_nil : IsHeap ([] : List α) := by
  intro p c hp
  exact absurd hp (Nat.not_lt_zero p)

theorem IsHeap.front_le_getElem {v : List α} (h : IsHeap v) (hpos : 0 < v.length) (i : ℕ)
    (hi : i < v.length) : v[0] ≤ v[i] := by
  induction i using Nat.strongRecOn with
  | ind i ih =>
    by_cases hroot : i = 0
    · subst hroot
      exact le_rfl
    · have hedge := edge_parent (Nat.pos_of_ne_zero hroot)
      have hparent : (i - 1) / 2 < v.length := hedge.lt.trans hi
      exact (ih _ hedge.lt hparent).trans (h _ _ hparent hi hedge)

/-- `front()` is least. -/
theorem IsHeap.head_le {v : List α} (h : IsHeap v) (hne : v ≠ []) :
    ∀ x ∈ v, v.head hne ≤ x := by
  intro x hx
  obtain ⟨i, hi, rfl⟩ := List.getElem_of_mem hx
  rw [List.head_eq_getElem]
  exact h.front_le_getElem (List.length_pos_of_ne_nil hne) i hi

theorem IsHeap.dropLast {v : List α} (h : IsHeap v) : IsHeap v.dropLast := by
  intro p c hp hc hedge
  rw [List.getElem_dropLast, List.getElem_dropLast]
  rw [List.length_dropLast] at hp hc
  exact h p c (by omega) (by omega) hedge

/-! ### The elements in order -/

theorem mergeSort_perm_cons {v w : List α} {x : α} (h : w.Perm (x :: v)) :
    w.mergeSort (· ≤ ·) = (v.mergeSort (· ≤ ·)).orderedInsert (· ≤ ·) x := by
  have hleft : (w.mergeSort (· ≤ ·)).SortedLE := List.sortedLE_mergeSort
  have hright := (List.sortedLE_mergeSort (l := v)).pairwise.orderedInsert x
  have hinserted := List.perm_orderedInsert (· ≤ ·) x (v.mergeSort (· ≤ ·))
  have hsorted := (List.mergeSort_perm v (· ≤ ·)).cons x
  have hperm := (List.mergeSort_perm w (· ≤ ·)).trans (h.trans (hinserted.trans hsorted).symm)
  exact hperm.eq_of_sortedLE hleft hright.sortedLE

theorem IsHeap.mergeSort_eq {v : List α} (h : IsHeap v) (hne : v ≠ []) :
    v.mergeSort (· ≤ ·) = v.head hne :: v.tail.mergeSort (· ≤ ·) := by
  have htail := List.mergeSort_perm v.tail (· ≤ ·)
  have hright : (v.head hne :: v.tail.mergeSort (· ≤ ·)).SortedLE := by
    rw [List.sortedLE_iff_pairwise, List.pairwise_cons]
    refine ⟨?_, List.sortedLE_mergeSort.pairwise⟩
    intro y hy
    exact h.head_le hne y (List.mem_of_mem_tail (htail.mem_iff.mp hy))
  have hcons := htail.cons (v.head hne)
  rw [List.cons_head_tail hne] at hcons
  have hperm := (List.mergeSort_perm v (· ≤ ·)).trans hcons.symm
  exact hperm.eq_of_sortedLE List.sortedLE_mergeSort hright

/-! ### The two algorithms -/

/-- `push_heap` takes a heap and one element behind it, `pop_heap` a heap that is
not empty. -/
structure HeapAlgorithms (α : Type) [LinearOrder α] where
  push_heap : List α → List α
  pop_heap : List α → List α
  push_heap_isHeap : ∀ v x, IsHeap v → IsHeap (push_heap (v ++ [x]))
  push_heap_perm : ∀ v x, IsHeap v → (push_heap (v ++ [x])).Perm (v ++ [x])
  pop_heap_isHeap : ∀ v, IsHeap v → v ≠ [] → IsHeap (pop_heap v).dropLast
  pop_heap_perm : ∀ v, IsHeap v → v ≠ [] → (pop_heap v).Perm v
  pop_heap_back : ∀ v, IsHeap v → v ≠ [] → (pop_heap v).getLast? = v.head?

namespace HeapAlgorithms
variable (algorithms : HeapAlgorithms α) {v : List α}

/-- `v.push_back(x)` and `push_heap` -/
theorem pushed_perm (h : IsHeap v) (x : α) : (algorithms.push_heap (v ++ [x])).Perm (x :: v) :=
  (algorithms.push_heap_perm v x h).trans (List.perm_append_singleton x v)

theorem popped_perm (h : IsHeap v) (hne : v ≠ []) :
    (algorithms.pop_heap v).dropLast.Perm v.tail := by
  cases v with
  | nil => exact absurd rfl hne
  | cons front rest =>
    have hback := List.dropLast_append_getLast? front (algorithms.pop_heap_back _ h hne)
    have hperm := algorithms.pop_heap_perm _ h hne
    rw [← hback] at hperm
    exact ((List.perm_append_singleton front _).symm.trans hperm).cons_inv

/-- `pop_heap`, `v.back() = x` and `push_heap` -/
theorem replaced_isHeap (h : IsHeap v) (hne : v ≠ []) (x : α) :
    IsHeap (algorithms.push_heap ((algorithms.pop_heap v).dropLast ++ [x])) :=
  algorithms.push_heap_isHeap _ x (algorithms.pop_heap_isHeap v h hne)

theorem replaced_perm (h : IsHeap v) (hne : v ≠ []) (x : α) :
    (algorithms.push_heap ((algorithms.pop_heap v).dropLast ++ [x])).Perm (x :: v.tail) := by
  have hpushed := algorithms.pushed_perm (algorithms.pop_heap_isHeap v h hne) x
  exact hpushed.trans ((algorithms.popped_perm h hne).cons x)

theorem pushed_mergeSort (h : IsHeap v) (x : α) :
    (algorithms.push_heap (v ++ [x])).mergeSort (· ≤ ·) =
      (v.mergeSort (· ≤ ·)).orderedInsert (· ≤ ·) x :=
  mergeSort_perm_cons (algorithms.pushed_perm h x)

theorem replaced_mergeSort (h : IsHeap v) (hne : v ≠ []) (x : α) :
    (algorithms.push_heap ((algorithms.pop_heap v).dropLast ++ [x])).mergeSort (· ≤ ·) =
      (v.tail.mergeSort (· ≤ ·)).orderedInsert (· ≤ ·) x :=
  mergeSort_perm_cons (algorithms.replaced_perm h hne x)

end HeapAlgorithms

/-! ### Exchanging two elements -/

def swap (v : List α) (i j : ℕ) (hi : i < v.length) (hj : j < v.length) : List α :=
  (v.set i v[j]).set j v[i]

section Swap
variable {β : Type} {v : List β} {i j : ℕ} {hi : i < v.length} {hj : j < v.length}

@[simp] theorem length_swap : (swap v i j hi hj).length = v.length := by
  unfold swap
  rw [List.length_set, List.length_set]

theorem swap_perm : (swap v i j hi hj).Perm v := List.set_set_perm hi hj

theorem getElem_swap {n : ℕ} (hn : n < (swap v i j hi hj).length) (hn' : n < v.length) :
    (swap v i j hi hj)[n] = if j = n then v[i] else if i = n then v[j] else v[n] := by
  simp only [swap, List.getElem_set]

end Swap

/-! ### Upwards -/

/-- A heap but for the edge above `i`; what is below `i` is no less than what is
above it. -/
structure HeapBut (v : List α) (i : ℕ) : Prop where
  edge : ∀ p c (hp : p < v.length) (hc : c < v.length), Edge p c → c ≠ i → v[p] ≤ v[c]
  across : ∀ p c (hp : p < v.length) (hc : c < v.length), Edge p i → Edge i c → v[p] ≤ v[c]

def siftUp (v : List α) (i : ℕ) (hi : i < v.length) : List α :=
  if hpos : 0 < i then
    have hparent : (i - 1) / 2 < v.length := (edge_parent hpos).lt.trans hi
    if v[i] < v[(i - 1) / 2] then
      siftUp (swap v i ((i - 1) / 2) hi hparent) ((i - 1) / 2) (by rwa [length_swap])
    else v
  else v
termination_by i

theorem HeapBut.swap {v : List α} {i q : ℕ} (h : HeapBut v i) (hi : i < v.length)
    (hq : q < v.length) (hedge : Edge q i) (hlt : v[i] < v[q]) :
    HeapBut (swap v i q hi hq) q := by
  have hqi := hedge.lt
  refine ⟨?_, ?_⟩
  · intro p c hp hc hpc hne
    rw [length_swap] at hp hc
    rw [getElem_swap _ hp, getElem_swap _ hc, if_neg hne.symm]
    by_cases hci : i = c
    · subst hci
      rw [if_pos (hedge.parent_eq hpc), if_pos rfl]
      exact hlt.le
    · rw [if_neg hci]
      by_cases hqp : q = p
      · subst hqp
        rw [if_pos rfl]
        exact hlt.le.trans (h.edge q c hp hc hpc (Ne.symm hci))
      · rw [if_neg hqp]
        by_cases hip : i = p
        · subst hip
          rw [if_pos rfl]
          exact h.across q c hq hc hedge hpc
        · rw [if_neg hip]
          exact h.edge p c hp hc hpc (Ne.symm hci)
  · intro p c hp hc hpq hqc
    rw [length_swap] at hp hc
    have hpq' := hpq.lt
    have hqc' := hqc.lt
    have habove := h.edge p q hp hq hpq hqi.ne
    rw [getElem_swap _ hp, getElem_swap _ hc, if_neg (by omega), if_neg (by omega),
      if_neg (by omega)]
    by_cases hci : i = c
    · rw [if_pos hci]
      exact habove
    · rw [if_neg hci]
      exact habove.trans (h.edge q c hq hc hqc (Ne.symm hci))

theorem HeapBut.isHeap {v : List α} {i : ℕ} (h : HeapBut v i)
    (hstop : ∀ p (hp : p < v.length) (hi : i < v.length), Edge p i → v[p] ≤ v[i]) : IsHeap v := by
  intro p c hp hc hedge
  by_cases hci : c = i
  · subst hci
    exact hstop p hp hc hedge
  · exact h.edge p c hp hc hedge hci

theorem siftUp_perm (v : List α) (i : ℕ) (hi : i < v.length) : (siftUp v i hi).Perm v := by
  fun_induction siftUp v i hi with
  | case1 v i hi hpos hparent hlt ih => exact ih.trans swap_perm
  | case2 => exact .refl _
  | case3 => exact .refl _

theorem siftUp_isHeap {v : List α} {i : ℕ} (h : HeapBut v i) (hi : i < v.length) :
    IsHeap (siftUp v i hi) := by
  fun_induction siftUp v i hi with
  | case1 v i hi hpos hparent hlt ih => exact ih (h.swap hi hparent (edge_parent hpos) hlt)
  | case2 v i hi hpos hparent hnot =>
    apply h.isHeap
    intro p hp hi hedge
    have hp' : p = (i - 1) / 2 := hedge.parent_eq (edge_parent hpos)
    subst hp'
    exact not_lt.mp hnot
  | case3 v i hi hroot =>
    apply h.isHeap
    intro p hp hi hedge
    exact absurd (Nat.zero_lt_of_lt hedge.lt) hroot

/-- One element behind a heap. -/
theorem IsHeap.heapBut_concat {v : List α} (h : IsHeap v) (x : α) :
    HeapBut (v ++ [x]) v.length := by
  refine ⟨?_, ?_⟩
  · intro p c hp hc hedge hne
    rw [List.length_append, List.length_singleton] at hp hc
    have hlt := hedge.lt
    have hp' : p < v.length := by omega
    have hc' : c < v.length := by omega
    rw [List.getElem_append_left hp', List.getElem_append_left hc']
    exact h p c hp' hc' hedge
  · intro p c hp hc hpi hic
    rw [List.length_append, List.length_singleton] at hc
    have hlt := hic.lt
    omega

/-! ### Downwards -/

/-- A heap but for all edges at `i`. -/
structure HeapAround (v : List α) (i : ℕ) : Prop where
  edge : ∀ p c (hp : p < v.length) (hc : c < v.length), Edge p c → p ≠ i → c ≠ i → v[p] ≤ v[c]
  across : ∀ p c (hp : p < v.length) (hc : c < v.length), Edge p i → Edge i c → v[p] ≤ v[c]

/-- The element at `i` goes down to a leaf without being compared, and from there
up again. -/
def siftDown (v : List α) (i : ℕ) (hi : i < v.length) : List α :=
  if hright : 2 * i + 2 < v.length then
    have hleft : 2 * i + 1 < v.length := Nat.lt_of_succ_lt hright
    if v[2 * i + 1] < v[2 * i + 2] then
      siftDown (swap v i (2 * i + 1) hi hleft) (2 * i + 1) (by rwa [length_swap])
    else siftDown (swap v i (2 * i + 2) hi hright) (2 * i + 2) (by rwa [length_swap])
  else if hleft : 2 * i + 1 < v.length then
    siftUp (swap v i (2 * i + 1) hi hleft) (2 * i + 1) (by rwa [length_swap])
  else siftUp v i hi
termination_by v.length - i
decreasing_by
  all_goals
    rw [length_swap]
    omega

theorem HeapAround.swap {v : List α} {i c : ℕ} (h : HeapAround v i) (hi : i < v.length)
    (hc : c < v.length) (hedge : Edge i c)
    (hleast : ∀ d (hd : d < v.length), Edge i d → v[c] ≤ v[d]) :
    HeapAround (swap v i c hi hc) c := by
  have hic := hedge.lt
  refine ⟨?_, ?_⟩
  · intro p d hp hd hpd hpc hdc
    rw [length_swap] at hp hd
    rw [getElem_swap _ hp, getElem_swap _ hd, if_neg hpc.symm, if_neg hdc.symm]
    by_cases hip : i = p
    · subst hip
      rw [if_pos rfl, if_neg hpd.lt.ne]
      exact hleast d hd hpd
    · rw [if_neg hip]
      by_cases hid : i = d
      · subst hid
        rw [if_pos rfl]
        exact h.across p c hp hc hpd hedge
      · rw [if_neg hid]
        exact h.edge p d hp hd hpd (Ne.symm hip) (Ne.symm hid)
  · intro p d hp' hd' hpc hcd
    have hd : d < v.length := by rwa [length_swap] at hd'
    have hpi := hpc.parent_eq hedge
    subst hpi
    have hcd' := hcd.lt
    rw [getElem_swap _ hi, getElem_swap _ hd, if_neg (by omega), if_pos rfl, if_neg (by omega),
      if_neg (by omega)]
    exact h.edge c d hc hd hcd (by omega) (by omega)

/-- At a leaf only the edge above is left. -/
theorem HeapAround.leaf {v : List α} {i : ℕ} (h : HeapAround v i)
    (hleaf : ∀ c, Edge i c → v.length ≤ c) : HeapBut v i := by
  refine ⟨?_, h.across⟩
  intro p c hp hc hedge hne
  apply h.edge p c hp hc hedge ?_ hne
  rintro rfl
  exact absurd hc (not_lt.mpr (hleaf c hedge))

theorem siftDown_perm (v : List α) (i : ℕ) (hi : i < v.length) : (siftDown v i hi).Perm v := by
  fun_induction siftDown v i hi with
  | case1 v i hi hright hleft hlt ih => exact ih.trans swap_perm
  | case2 v i hi hright hleft hnot ih => exact ih.trans swap_perm
  | case3 v i hi hnot hleft => exact (siftUp_perm _ _ _).trans swap_perm
  | case4 => exact siftUp_perm _ _ _

theorem siftDown_isHeap {v : List α} {i : ℕ} (h : HeapAround v i) (hi : i < v.length) :
    IsHeap (siftDown v i hi) := by
  fun_induction siftDown v i hi with
  | case1 v i hi hright hleft hlt ih =>
    apply ih (h.swap hi hleft (.inl rfl) _)
    rintro d hd (rfl | rfl)
    · exact le_rfl
    · exact hlt.le
  | case2 v i hi hright hleft hnot ih =>
    apply ih (h.swap hi hright (.inr rfl) _)
    rintro d hd (rfl | rfl)
    · exact not_lt.mp hnot
    · exact le_rfl
  | case3 v i hi hnot hleft =>
    have hround : HeapAround (swap v i (2 * i + 1) hi hleft) (2 * i + 1) := by
      apply h.swap hi hleft (.inl rfl)
      rintro d hd (rfl | rfl)
      · exact le_rfl
      · exact absurd hd hnot
    apply siftUp_isHeap (hround.leaf _)
    intro c hc
    rw [length_swap]
    unfold Edge at hc
    omega
  | case4 v i hi hright hleft =>
    apply siftUp_isHeap (h.leaf _)
    rintro c (rfl | rfl)
    · exact not_lt.mp hleft
    · exact not_lt.mp hright

/-- Any element may stand in front of what was below the least one. -/
theorem IsHeap.heapAround_cons {front : α} {rest : List α} (h : IsHeap (front :: rest)) (x : α) :
    HeapAround (x :: rest) 0 := by
  refine ⟨?_, ?_⟩
  · intro p c hp hc hedge hpi hci
    obtain ⟨p, rfl⟩ := Nat.exists_eq_succ_of_ne_zero hpi
    obtain ⟨c, rfl⟩ := Nat.exists_eq_succ_of_ne_zero hci
    exact h _ _ hp hc hedge
  · intro p c hp hc hedge
    exact absurd hedge.lt (Nat.not_lt_zero p)

/-! ### Both together -/

def pushHeap (v : List α) : List α :=
  if h : v.length - 1 < v.length then siftUp v (v.length - 1) h else v

/-- The last element takes the place of the front, which goes behind the rest. -/
def popHeap : List α → List α
  | [] => []
  | [front] => [front]
  | front :: x :: rest =>
    siftDown ((x :: rest).getLast (List.cons_ne_nil x rest) :: (x :: rest).dropLast) 0
      (Nat.zero_lt_succ _) ++ [front]

theorem pushHeap_isHeap (v : List α) (x : α) (h : IsHeap v) : IsHeap (pushHeap (v ++ [x])) := by
  have hback : (v ++ [x]).length - 1 = v.length := by
    rw [List.length_append, List.length_singleton, Nat.add_sub_cancel]
  unfold pushHeap
  split
  next hi =>
    apply siftUp_isHeap
    rw [hback]
    exact h.heapBut_concat x
  next hnot =>
    rw [hback, List.length_append] at hnot
    exact absurd (Nat.lt_succ_self _) hnot

theorem pushHeap_perm (v : List α) : (pushHeap v).Perm v := by
  unfold pushHeap
  split
  · exact siftUp_perm _ _ _
  · exact .refl v

theorem popHeap_isHeap (v : List α) (h : IsHeap v) : IsHeap (popHeap v).dropLast := by
  unfold popHeap
  split
  · exact isHeap_nil
  · exact isHeap_nil
  next front x rest =>
    rw [List.dropLast_concat]
    apply siftDown_isHeap
    have hdropLast := h.dropLast
    rw [List.dropLast_cons_cons] at hdropLast
    exact hdropLast.heapAround_cons _

theorem popHeap_perm (v : List α) : (popHeap v).Perm v := by
  unfold popHeap
  split
  · exact .refl _
  · exact .refl _
  next front x rest =>
    have hlast := List.perm_append_singleton ((x :: rest).getLast (List.cons_ne_nil x rest))
      (x :: rest).dropLast
    rw [List.dropLast_concat_getLast] at hlast
    exact (List.perm_append_singleton _ _).trans (((siftDown_perm _ _ _).trans hlast.symm).cons _)

theorem popHeap_back (v : List α) : (popHeap v).getLast? = v.head? := by
  unfold popHeap
  split
  · rfl
  · rfl
  · exact List.getLast?_concat

/-- The algorithms of the library, for `std::greater`. -/
def binaryHeap : HeapAlgorithms α where
  push_heap := pushHeap
  pop_heap := popHeap
  push_heap_isHeap := pushHeap_isHeap
  push_heap_perm v x _ := pushHeap_perm (v ++ [x])
  pop_heap_isHeap v h _ := popHeap_isHeap v h
  pop_heap_perm v _ _ := popHeap_perm v
  pop_heap_back v _ _ := popHeap_back v

example : popHeap [3, 5, 8, 7, 6, 9] = [5, 6, 8, 7, 9, 3] := by decide +kernel

end OpenArangoDBCore.BinaryHeap
