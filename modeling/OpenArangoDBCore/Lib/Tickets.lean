import OpenArangoDBCore.Lib.Frontier
import Mathlib.Data.List.Forall2
import Mathlib.Tactic

/-!
# Tickets from a shared counter

Several owners draw from one counter that starts at 1. `draws` lists the
owners in the order of their draws, so ticket `k` belongs to the owner at
position `k`; the tickets of one owner are the positions at which it drew.
-/

namespace OpenArangoDBCore.Tickets
open Frontier
variable {O : Type} [DecidableEq O]

def tickets (o : O) (draws : List O) : List ℕ := draws.idxsOf o 1

theorem tickets_draw (o : O) (draws : List O) :
    tickets o (draws ++ [o]) = tickets o draws ++ [draws.length + 1] := by
  unfold tickets
  rw [List.idxsOf_append, List.idxsOf_cons, if_pos (beq_self_eq_true o), List.idxsOf_nil,
    Nat.add_comm 1]

theorem tickets_draw_other {o p : O} (h : p ≠ o) (draws : List O) :
    tickets o (draws ++ [p]) = tickets o draws := by
  unfold tickets
  rw [List.idxsOf_append, List.idxsOf_cons, if_neg (by simpa using h), List.idxsOf_nil,
    List.append_nil]

theorem tickets_increasing (o : O) (draws : List O) : (tickets o draws).Pairwise (· < ·) :=
  List.pairwise_idxsOf

theorem mem_tickets {o : O} {draws : List O} {k : ℕ} :
    k ∈ tickets o draws ↔ 1 ≤ k ∧ draws[k - 1]? = some o := by
  unfold tickets
  rw [List.mem_idxsOf_iff_getElem_sub_pos]
  constructor
  · rintro ⟨hpos, hlt, ho⟩
    exact ⟨hpos, List.getElem?_eq_some_iff.mpr ⟨hlt, eq_of_beq ho⟩⟩
  · rintro ⟨hpos, ho⟩
    obtain ⟨hlt, heq⟩ := List.getElem?_eq_some_iff.mp ho
    exact ⟨hpos, hlt, beq_iff_eq.mpr heq⟩

theorem owner_unique {o p : O} {draws : List O} {k : ℕ} (ho : k ∈ tickets o draws)
    (hp : k ∈ tickets p draws) : o = p := by
  rw [mem_tickets] at ho hp
  exact Option.some.inj (ho.2.symm.trans hp.2)

theorem ticket_le {o : O} {draws : List O} {k : ℕ} (h : k ∈ tickets o draws) :
    1 ≤ k ∧ k ≤ draws.length := by
  rw [mem_tickets] at h
  obtain ⟨hlt, -⟩ := List.getElem?_eq_some_iff.mp h.2
  exact ⟨h.1, by omega⟩

/-! ### The contiguous part of increasing numbers -/

/-- Increasing positive numbers that contain `1, ..., n` begin with them. -/
theorem take_of_contiguous {l : List ℕ} (hinc : l.Pairwise (· < ·)) (hpos : ∀ k ∈ l, 1 ≤ k)
    {n : ℕ} (h : n ∈ Contiguous {k | k ∈ l}) : l.take n = List.range' 1 n := by
  have hlow : ∀ (l : List ℕ) (a : ℕ), l.Pairwise (· < ·) → (∀ k ∈ l, a ≤ k) →
      (∀ k, a ≤ k → k < a + n → k ∈ l) → l.take n = List.range' a n := by
    clear h hpos hinc l
    induction n with
    | zero => intros; rfl
    | succ n ih =>
      intro l a hinc hge hall
      cases l with
      | nil => exact absurd (hall a le_rfl (by omega)) List.not_mem_nil
      | cons x rest =>
        obtain ⟨hx, hrest⟩ := List.pairwise_cons.mp hinc
        have hxa : x = a := by
          cases List.mem_cons.mp (hall a le_rfl (by omega)) with
          | inl heq => exact heq.symm
          | inr hmem =>
            have hlt := hx a hmem
            have hle := hge x (List.mem_cons_self ..)
            omega
        subst hxa
        rw [List.take_succ_cons, List.range'_succ, ih rest (x + 1) hrest hx ?_]
        intro k hk hlt
        cases List.mem_cons.mp (hall k (by omega) (by omega)) with
        | inl heq => omega
        | inr hmem => exact hmem
  exact hlow l 1 hinc hpos (fun k hk hlt => h k hk (by omega))

/-- Values written for the numbers `1, ..., n`, each of an item with that
number, are those of the first `n` items. -/
theorem writes_of_prefix {I W : Type} (number : I → ℕ) (write : I → W) {items : List I}
    (hinc : (items.map number).Pairwise (· < ·)) (hpos : ∀ k ∈ items.map number, 1 ≤ k) {n : ℕ}
    {ws : List W} (h : List.Forall₂ (fun k w => ∃ b ∈ items, number b = k ∧ w = write b)
      (List.range' 1 n) ws) : ws = (items.take n).map write := by
  have hcont : n ∈ Contiguous {k | k ∈ items.map number} := by
    intro k hk hle
    have hmem : k ∈ List.range' 1 n := by
      rw [List.mem_range'_1]
      omega
    obtain ⟨j, hj, hjk⟩ := List.getElem_of_mem hmem
    have hget := List.forall₂_iff_get.mp h
    obtain ⟨b, hb, hnum, -⟩ := hget.2 j hj (hget.1 ▸ hj)
    exact List.mem_map.mpr ⟨b, hb, hnum.trans hjk⟩
  have htake := take_of_contiguous hinc hpos hcont
  rw [← List.map_take] at htake
  have hfirst : List.Forall₂ (fun k w => ∃ b ∈ items, number b = k ∧ w = write b)
      (List.range' 1 n) ((items.take n).map write) := by
    rw [← htake, List.forall₂_map_left_iff, List.forall₂_map_right_iff, List.forall₂_same]
    intro b hb
    exact ⟨b, List.mem_of_mem_take hb, rfl, rfl⟩
  have hinj : ∀ b ∈ items, ∀ b' ∈ items, number b = number b' → b = b' := by
    intro b hb b' hb' heq
    exact List.inj_on_of_nodup_map (hinc.imp fun hlt => Nat.ne_of_lt hlt) hb hb' heq
  refine List.right_unique_forall₂' ?_ h hfirst
  rintro k w w' ⟨b, hb, hk, rfl⟩ ⟨b', hb', hk', rfl⟩
  rw [hinj b hb b' hb' (hk.trans hk'.symm)]

end OpenArangoDBCore.Tickets
