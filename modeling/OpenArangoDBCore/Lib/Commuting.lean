import Mathlib.Data.List.Dedup
import Mathlib.Data.List.Perm.Basic
import Mathlib.Tactic

/-!
# Steps whose order does not matter

Several streams of steps reach one state, each stream in its own order. If any
two of the steps may be exchanged, every merge of the streams ends in the same
state; if a step may be repeated as well, it only counts which steps there are.
-/

namespace OpenArangoDBCore.Commuting
variable {S E : Type}

/-! ### Merges -/

/-- The steps with the tag `i` are those of the `i`-th stream, in its order. -/
def Merge (streams : List (List E)) (l : List (ℕ × E)) : Prop :=
  ∀ i, (l.filter fun x => x.1 = i).map Prod.snd = streams.getD i []

theorem merge_nil {l : List (ℕ × E)} (h : Merge [] l) : l = [] := by
  rw [List.eq_nil_iff_forall_not_mem]
  intro x hx
  have hnone : (l.filter fun y => y.1 = x.1) = [] := List.map_eq_nil_iff.mp (h x.1)
  have hmem : x ∈ l.filter fun y => y.1 = x.1 := List.mem_filter.mpr ⟨hx, decide_eq_true rfl⟩
  rw [hnone] at hmem
  cases hmem

/-- What the other streams bring, with their tags moved. -/
def later (l : List (ℕ × E)) : List (ℕ × E) :=
  (l.filter fun x => !decide (x.1 = 0)).map fun x => (x.1 - 1, x.2)

theorem merge_later {s : List E} {streams : List (List E)} {l : List (ℕ × E)}
    (h : Merge (s :: streams) l) : Merge streams (later l) := by
  intro i
  have hi := h (i + 1)
  rw [List.getD_cons_succ] at hi
  rw [← hi]
  unfold later
  rw [List.filter_map, List.filter_filter, List.map_map]
  have htag : ∀ x : ℕ × E, (((fun x : ℕ × E => decide (x.1 = i)) ∘ fun x => (x.1 - 1, x.2)) x &&
      !decide (x.1 = 0)) = decide (x.1 = i + 1) := by
    intro x
    by_cases hx : x.1 = 0
    · simp [hx]
    · have hsame : x.1 - 1 = i ↔ x.1 = i + 1 := by omega
      simp [hx, hsame]
  rw [List.filter_congr fun x _ => htag x]
  rfl

theorem Merge.perm {streams : List (List E)} {l : List (ℕ × E)} (h : Merge streams l) :
    (l.map Prod.snd).Perm streams.flatten := by
  induction streams generalizing l with
  | nil => rw [merge_nil h]; exact List.Perm.nil
  | cons s streams ih =>
    have hfirst : (l.filter fun x => x.1 = 0).map Prod.snd = s := h 0
    have hrest := ih (merge_later h)
    unfold later at hrest
    rw [List.map_map] at hrest
    have hsplit := (List.filter_append_perm (fun x : ℕ × E => decide (x.1 = 0)) l).map Prod.snd
    rw [List.map_append, hfirst] at hsplit
    exact hsplit.symm.trans (hrest.append_left s)

theorem exists_merge (streams : List (List E)) : ∃ l, Merge streams l := by
  induction streams with
  | nil => exact ⟨[], fun i => rfl⟩
  | cons s streams ih =>
    obtain ⟨l, hl⟩ := ih
    refine ⟨s.map (fun e => (0, e)) ++ l.map fun x => (x.1 + 1, x.2), ?_⟩
    intro i
    rw [List.filter_append, List.map_append, List.filter_map, List.filter_map, List.map_map,
      List.map_map]
    cases i with
    | zero =>
      have hall : s.filter ((fun x : ℕ × E => decide (x.1 = 0)) ∘ fun e => (0, e)) = s :=
        List.filter_eq_self.mpr fun e _ => rfl
      have hnone : l.filter ((fun x : ℕ × E => decide (x.1 = 0)) ∘ fun x => (x.1 + 1, x.2)) = [] :=
        List.filter_eq_nil_iff.mpr fun x _ => by simp
      rw [hall, hnone, List.getD_cons_zero]
      simp
    | succ i =>
      have hnone : s.filter ((fun x : ℕ × E => decide (x.1 = i + 1)) ∘ fun e => (0, e)) = [] :=
        List.filter_eq_nil_iff.mpr fun e _ => by simp
      have hall : ((fun x : ℕ × E => decide (x.1 = i + 1)) ∘ fun x : ℕ × E => (x.1 + 1, x.2)) =
          fun x => decide (x.1 = i) := by
        funext x
        simp
      rw [hnone, hall, List.getD_cons_succ, ← hl i]
      rfl

/-! ### The state behind the steps -/

section Steps
variable (step : S → E → S)

/-- Any two steps of the list may be exchanged. -/
def Exchangeable (l : List E) : Prop :=
  ∀ x ∈ l, ∀ y ∈ l, ∀ s, step (step s x) y = step (step s y) x

/-- A step of the list may be made twice. -/
def Repeatable (l : List E) : Prop := ∀ x ∈ l, ∀ s, step (step s x) x = step s x

variable {step} {l l' : List E}

theorem Exchangeable.foldl_eq (h : Exchangeable step l) (hperm : l'.Perm l) (s : S) :
    l'.foldl step s = l.foldl step s :=
  (hperm.symm.foldl_eq' h s).symm

theorem Exchangeable.of_subset (h : Exchangeable step l) (hsub : l' ⊆ l) : Exchangeable step l' :=
  fun x hx y hy => h x (hsub hx) y (hsub hy)

theorem Repeatable.of_subset (h : Repeatable step l) (hsub : l' ⊆ l) : Repeatable step l' :=
  fun x hx => h x (hsub hx)

theorem foldl_of_mem [DecidableEq E] (hex : Exchangeable step l) (hrep : Repeatable step l) {x : E}
    (hx : x ∈ l) (s : S) : l.foldl step (step s x) = l.foldl step s := by
  have hperm := List.perm_cons_erase hx
  have hfront : ∀ s, l.foldl step s = (l.erase x).foldl step (step s x) := by
    intro s
    exact (hex.foldl_eq hperm.symm s).symm
  calc l.foldl step (step s x)
      = (l.erase x).foldl step (step (step s x) x) := hfront (step s x)
    _ = (l.erase x).foldl step (step s x) := by rw [hrep x hx s]
    _ = l.foldl step s := (hfront s).symm

theorem foldl_dedup [DecidableEq E] (hex : Exchangeable step l) (hrep : Repeatable step l) (s : S) :
    l.dedup.foldl step s = l.foldl step s := by
  induction l generalizing s with
  | nil => rfl
  | cons x l ih =>
    have hsub : l ⊆ x :: l := List.subset_cons_self x l
    have ih := ih (hex.of_subset hsub) (hrep.of_subset hsub)
    rw [List.foldl_cons]
    by_cases hx : x ∈ l
    · rw [List.dedup_cons_of_mem hx, ih, foldl_of_mem (hex.of_subset hsub) (hrep.of_subset hsub) hx]
    · rw [List.dedup_cons_of_notMem hx, List.foldl_cons, ih]

/-- It only counts which steps there are. -/
theorem foldl_same_members (hex : Exchangeable step l) (hrep : Repeatable step l)
    (hsame : ∀ x, x ∈ l' ↔ x ∈ l) (s : S) : l'.foldl step s = l.foldl step s := by
  classical
  have hsub : l' ⊆ l := fun x hx => (hsame x).mp hx
  have hperm : l'.dedup.Perm l.dedup := by
    rw [List.perm_ext_iff_of_nodup l'.nodup_dedup l.nodup_dedup]
    intro x
    rw [List.mem_dedup, List.mem_dedup, hsame]
  have hdedup : Exchangeable step l.dedup := hex.of_subset (List.dedup_subset l)
  rw [← foldl_dedup hex hrep, ← foldl_dedup (hex.of_subset hsub) (hrep.of_subset hsub)]
  exact hdedup.foldl_eq hperm s

end Steps

end OpenArangoDBCore.Commuting
