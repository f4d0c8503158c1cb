import Mathlib.Order.WithBot
import Mathlib.Tactic

/-!
# Half-open segments between consecutive bounds

A list of interior bounds cuts `[lo, hi)` into segments. Whatever the bounds
are, the segments cover `[lo, hi)`: a point that starts at or above the first
bound and ends below the last one crosses some bound on the way. They are
separate and stay inside `[lo, hi)` when the bounds ascend.
-/

namespace OpenArangoDBCore.Segments
variable {α : Type} [LinearOrder α]

def segments (lo : α) : List α → WithTop α → List (α × WithTop α)
  | [], hi => [(lo, hi)]
  | s :: rest, hi => (lo, (s : WithTop α)) :: segments s rest hi

def Inside (k : α) (seg : α × WithTop α) : Prop := seg.1 ≤ k ∧ (k : WithTop α) < seg.2

def Ascending (lo : α) : List α → WithTop α → Prop
  | [], hi => (lo : WithTop α) ≤ hi
  | s :: rest, hi => lo ≤ s ∧ Ascending s rest hi

/-- No point in two segments, and none outside `[lo, hi)`. -/
def Separate (lo : α) (hi : WithTop α) (segs : List (α × WithTop α)) : Prop :=
  segs.Pairwise (fun r r' => ∀ k, ¬ (Inside k r ∧ Inside k r')) ∧
    ∀ r ∈ segs, ∀ k, Inside k r → Inside k (lo, hi)

theorem segments_cover {lo k : α} (splits : List α) {hi : WithTop α}
    (hk : Inside k (lo, hi)) : ∃ r ∈ segments lo splits hi, Inside k r := by
  induction splits generalizing lo with
  | nil => exact ⟨(lo, hi), List.mem_singleton_self _, hk⟩
  | cons s rest ih =>
    by_cases hs : k < s
    · exact ⟨(lo, s), List.mem_cons_self, hk.1, WithTop.coe_lt_coe.mpr hs⟩
    · obtain ⟨r, hr, hkr⟩ := ih ⟨not_lt.mp hs, hk.2⟩
      exact ⟨r, List.mem_cons_of_mem _ hr, hkr⟩

theorem Ascending.le {lo : α} {splits : List α} {hi : WithTop α} (h : Ascending lo splits hi) :
    (lo : WithTop α) ≤ hi := by
  induction splits generalizing lo with
  | nil => exact h
  | cons s rest ih => exact (WithTop.coe_le_coe.mpr h.1).trans (ih h.2)

theorem Ascending.separate {lo : α} {splits : List α} {hi : WithTop α}
    (h : Ascending lo splits hi) : Separate lo hi (segments lo splits hi) := by
  induction splits generalizing lo with
  | nil =>
    refine ⟨List.pairwise_singleton _ _, ?_⟩
    intro r hr k hk
    rw [List.mem_singleton.mp hr] at hk
    exact hk
  | cons s rest ih =>
    obtain ⟨hlo, hrest⟩ := h
    obtain ⟨hpair, hin⟩ := ih hrest
    constructor
    · refine List.Pairwise.cons ?_ hpair
      intro r hr k hk
      have hs := (hin r hr k hk.2).1
      exact absurd (WithTop.coe_lt_coe.mp hk.1.2) (not_lt.mpr hs)
    · intro r hr k hk
      cases List.mem_cons.mp hr with
      | inl hr =>
        rw [hr] at hk
        exact ⟨hk.1, hk.2.trans_le hrest.le⟩
      | inr hr =>
        have hk' := hin r hr k hk
        exact ⟨hlo.trans hk'.1, hk'.2⟩

theorem ascending_map (g : ℕ → α) (hi : WithTop α) (a m : ℕ)
    (hstep : ∀ i, a ≤ i → i < a + m → g i ≤ g (i + 1)) (hlast : (g (a + m) : WithTop α) ≤ hi) :
    Ascending (g a) ((List.range' (a + 1) m).map g) hi := by
  induction m generalizing a with
  | zero => exact hlast
  | succ m ih =>
    have hfirst := hstep a (le_refl a) (by omega)
    have hrest := ih (a + 1) (fun i h1 h2 => hstep i (by omega) (by omega))
      (by rwa [Nat.add_right_comm, Nat.add_assoc])
    exact ⟨hfirst, hrest⟩

/-- A first interior bound below `lo` takes the segments out of `[lo, hi)`. -/
theorem Separate.first {lo s : α} {rest : List α} {hi : WithTop α}
    (h : Separate lo hi (segments lo (s :: rest) hi)) (hlo : (lo : WithTop α) ≤ hi) : lo ≤ s := by
  by_contra hs
  have hlt := not_le.mp hs
  have hcover : Inside s (s, hi) := ⟨le_refl s, (WithTop.coe_lt_coe.mpr hlt).trans_le hlo⟩
  obtain ⟨r, hr, hk⟩ := segments_cover rest hcover
  have hin := h.2 r (List.mem_cons_of_mem _ hr) s hk
  exact hs hin.1

/-- Bounds that do not ascend lead out of `[lo, hi)` or through a point twice. -/
theorem Separate.ascending {lo : α} {splits : List α} {hi : WithTop α}
    (h : Separate lo hi (segments lo splits hi)) (hlo : (lo : WithTop α) ≤ hi) :
    Ascending lo splits hi := by
  induction splits generalizing lo with
  | nil => exact hlo
  | cons s rest ih =>
    have hfirst := h.first hlo
    obtain ⟨hpair, hwithin⟩ := h
    obtain ⟨hapart, hrest⟩ := List.pairwise_cons.mp hpair
    have hs : (s : WithTop α) ≤ hi := by
      by_contra hless
      obtain ⟨u, rfl⟩ := WithTop.ne_top_iff_exists.mp (not_le.mp hless).ne_top
      have hu : Inside u (lo, (s : WithTop α)) := ⟨WithTop.coe_le_coe.mp hlo, not_le.mp hless⟩
      exact lt_irrefl _ (hwithin _ List.mem_cons_self u hu).2
    refine ⟨hfirst, ih ⟨hrest, fun r hr k hk => ?_⟩ hs⟩
    have hin := hwithin r (List.mem_cons_of_mem _ hr) k hk
    refine ⟨?_, hin.2⟩
    by_contra hlow
    exact hapart r hr k ⟨⟨hin.1, WithTop.coe_lt_coe.mpr (not_le.mp hlow)⟩, hk⟩

theorem separate_iff_ascending {lo : α} {splits : List α} {hi : WithTop α}
    (hlo : (lo : WithTop α) ≤ hi) :
    Separate lo hi (segments lo splits hi) ↔ Ascending lo splits hi :=
  ⟨fun h => h.ascending hlo, Ascending.separate⟩

end OpenArangoDBCore.Segments
