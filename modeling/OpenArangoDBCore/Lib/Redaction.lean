import Mathlib.Data.List.Basic
import Mathlib.Data.List.Count
import Mathlib.Data.List.Forall2
import Mathlib.Tactic

/-!
# All but the last secrets of a list hidden

A list is redacted by keeping its last `n` secret members, writing one hiding
symbol over the secret members before them and mapping the others. What is left
depends on the last `n` secrets and on nothing else that is secret.
-/

namespace OpenArangoDBCore.Redaction

section
variable {α : Type} (secret : α → Bool) (hide : α) (plain : α → α) (n : ℕ)

def revealLast : List α → List α
  | [] => []
  | c :: rest =>
    (if secret c then if rest.countP secret < n then c else hide else plain c) :: revealLast rest

def lastSecrets (l : List α) : List α := (l.filter secret).drop (l.countP secret - n)

/-- Alike but for what is secret: the same length, the same places of secrets
and the same other members. -/
def SameShape : List α → List α → Prop :=
  List.Forall₂ fun c d => secret c = secret d ∧ (secret c = false → c = d)

theorem revealLast_cons_of_lt {c : α} {rest : List α} (hc : secret c = true)
    (h : rest.countP secret < n) :
    revealLast secret hide plain n (c :: rest) = c :: revealLast secret hide plain n rest := by
  rw [revealLast, if_pos hc, if_pos h]

theorem revealLast_cons_of_le {c : α} {rest : List α} (hc : secret c = true)
    (h : n ≤ rest.countP secret) :
    revealLast secret hide plain n (c :: rest) = hide :: revealLast secret hide plain n rest := by
  rw [revealLast, if_pos hc, if_neg (Nat.not_lt.mpr h)]

theorem revealLast_cons_of_plain {c : α} {rest : List α} (hc : secret c = false) :
    revealLast secret hide plain n (c :: rest) =
      plain c :: revealLast secret hide plain n rest := by
  rw [revealLast, if_neg (by rw [hc]; exact Bool.false_ne_true)]

theorem length_revealLast (l : List α) : (revealLast secret hide plain n l).length = l.length := by
  induction l with
  | nil => rfl
  | cons c rest ih => rw [revealLast, List.length_cons, List.length_cons, ih]

/-- A member is kept where it is, with fewer than `n` secrets behind it. -/
theorem getElem?_revealLast (l : List α) (i : ℕ) :
    (revealLast secret hide plain n l)[i]? = l[i]?.map fun c =>
      if secret c then if (l.drop (i + 1)).countP secret < n then c else hide else plain c := by
  induction l generalizing i with
  | nil => rfl
  | cons c rest ih =>
    cases i with
    | zero => rfl
    | succ i =>
      rw [revealLast, List.getElem?_cons_succ, List.getElem?_cons_succ, List.drop_succ_cons]
      exact ih i

theorem lastSecrets_cons_of_lt {c : α} {rest : List α} (hc : secret c = true)
    (h : rest.countP secret < n) :
    lastSecrets secret n (c :: rest) = c :: lastSecrets secret n rest := by
  rw [lastSecrets, lastSecrets, List.countP_cons_of_pos hc, List.filter_cons_of_pos hc,
    Nat.sub_eq_zero_of_le h, Nat.sub_eq_zero_of_le h.le]
  rfl

theorem lastSecrets_cons_of_le {c : α} {rest : List α} (hc : secret c = true)
    (h : n ≤ rest.countP secret) :
    lastSecrets secret n (c :: rest) = lastSecrets secret n rest := by
  rw [lastSecrets, lastSecrets, List.countP_cons_of_pos hc, List.filter_cons_of_pos hc,
    Nat.sub_add_comm h, List.drop_succ_cons]

theorem lastSecrets_cons_of_plain {c : α} {rest : List α} (hc : secret c = false) :
    lastSecrets secret n (c :: rest) = lastSecrets secret n rest := by
  have hneg : ¬ secret c = true := by rw [hc]; exact Bool.false_ne_true
  rw [lastSecrets, lastSecrets, List.countP_cons_of_neg hneg, List.filter_cons_of_neg hneg]

theorem length_lastSecrets (l : List α) :
    (lastSecrets secret n l).length = min n (l.countP secret) := by
  rw [lastSecrets, List.length_drop, ← List.countP_eq_length_filter]
  omega

variable {secret hide plain}

/-- Nothing is secret in the result but the last secrets of the list. -/
theorem filter_revealLast (hhide : secret hide = false)
    (hplain : ∀ c, secret c = false → secret (plain c) = false) (l : List α) :
    (revealLast secret hide plain n l).filter secret = lastSecrets secret n l := by
  have drop_plain : ∀ {c : α} {rest : List α}, secret c = false →
      (c :: rest).filter secret = rest.filter secret := fun hc =>
    List.filter_cons_of_neg (by rw [hc]; exact Bool.false_ne_true)
  induction l with
  | nil => exact List.drop_nil.symm
  | cons c rest ih =>
    by_cases hc : secret c = true
    · by_cases hlt : rest.countP secret < n
      · rw [revealLast_cons_of_lt secret hide plain n hc hlt, List.filter_cons_of_pos hc, ih,
          lastSecrets_cons_of_lt secret n hc hlt]
      · have hle := Nat.le_of_not_lt hlt
        rw [revealLast_cons_of_le secret hide plain n hc hle, drop_plain hhide, ih,
          lastSecrets_cons_of_le secret n hc hle]
    · have hfalse := Bool.eq_false_of_not_eq_true hc
      rw [revealLast_cons_of_plain secret hide plain n hfalse, drop_plain (hplain c hfalse), ih,
        lastSecrets_cons_of_plain secret n hfalse]

theorem countP_revealLast (hhide : secret hide = false)
    (hplain : ∀ c, secret c = false → secret (plain c) = false) (l : List α) :
    (revealLast secret hide plain n l).countP secret = min n (l.countP secret) := by
  rw [List.countP_eq_length_filter, filter_revealLast n hhide hplain, length_lastSecrets]

/-- No secret is left over by a first redaction that a second one would hide. -/
theorem revealLast_revealLast (hhide : secret hide = false)
    (hplain : ∀ c, secret c = false → secret (plain c) = false)
    (hfixed : ∀ c, secret c = false → plain (plain c) = plain c) (hhidden : plain hide = hide)
    (l : List α) :
    revealLast secret hide plain n (revealLast secret hide plain n l) =
      revealLast secret hide plain n l := by
  induction l with
  | nil => rfl
  | cons c rest ih =>
    by_cases hc : secret c = true
    · by_cases hlt : rest.countP secret < n
      · have hleft : (revealLast secret hide plain n rest).countP secret < n := by
          rw [countP_revealLast n hhide hplain]
          exact (min_le_right _ _).trans_lt hlt
        rw [revealLast_cons_of_lt secret hide plain n hc hlt,
          revealLast_cons_of_lt secret hide plain n hc hleft, ih]
      · rw [revealLast_cons_of_le secret hide plain n hc (Nat.le_of_not_lt hlt),
          revealLast_cons_of_plain secret hide plain n hhide, hhidden, ih]
    · have hfalse := Bool.eq_false_of_not_eq_true hc
      rw [revealLast_cons_of_plain secret hide plain n hfalse,
        revealLast_cons_of_plain secret hide plain n (hplain c hfalse), hfixed c hfalse, ih]

/-- What `f` sees is kept, if it sees no difference between secrets and what hides them. -/
theorem map_revealLast {β : Type} {f : α → β} (hhide : ∀ c, secret c = true → f hide = f c)
    (hplain : ∀ c, secret c = false → f (plain c) = f c) (l : List α) :
    (revealLast secret hide plain n l).map f = l.map f := by
  induction l with
  | nil => rfl
  | cons c rest ih =>
    rw [revealLast, List.map_cons, List.map_cons, ih]
    congr 1
    split
    next hc =>
      split
      · rfl
      · exact hhide c hc
    next hc => exact hplain c (Bool.eq_false_of_not_eq_true hc)

/-- Few enough secrets are all kept, and nothing else is to be done. -/
theorem revealLast_of_few {l : List α} (hfew : l.countP secret ≤ n)
    (hplain : ∀ c ∈ l, secret c = false → plain c = c) : revealLast secret hide plain n l = l := by
  induction l with
  | nil => rfl
  | cons c rest ih =>
    obtain ⟨hc, hrest⟩ := List.forall_mem_cons.mp hplain
    by_cases hsecret : secret c = true
    · rw [List.countP_cons_of_pos hsecret] at hfew
      rw [revealLast_cons_of_lt secret hide plain n hsecret (by omega), ih (by omega) hrest]
    · have hfalse := Bool.eq_false_of_not_eq_true hsecret
      rw [List.countP_cons_of_neg hsecret] at hfew
      rw [revealLast_cons_of_plain secret hide plain n hfalse, ih hfew hrest, hc hfalse]

/-- Of what is not secret the others are images of others, or hide secrets. -/
theorem mem_revealLast {l : List α} {d : α} (h : d ∈ revealLast secret hide plain n l) :
    (d ∈ l ∧ secret d = true) ∨ d = hide ∨ ∃ c ∈ l, secret c = false ∧ d = plain c := by
  induction l with
  | nil => cases h
  | cons c rest ih =>
    rw [revealLast] at h
    cases List.mem_cons.mp h with
    | inl heq =>
      split at heq
      next hc =>
        split at heq
        · exact .inl ⟨heq ▸ List.mem_cons_self, heq ▸ hc⟩
        · exact .inr (.inl heq)
      next hc =>
        exact .inr (.inr ⟨c, List.mem_cons_self, Bool.eq_false_of_not_eq_true hc, heq⟩)
    | inr hd =>
      rcases ih hd with ⟨hmem, hsecret⟩ | heq | ⟨e, he, hfalse, heq⟩
      · exact .inl ⟨List.mem_cons_of_mem _ hmem, hsecret⟩
      · exact .inr (.inl heq)
      · exact .inr (.inr ⟨e, List.mem_cons_of_mem _ he, hfalse, heq⟩)

theorem SameShape.countP_eq {l l' : List α} (h : SameShape secret l l') :
    l.countP secret = l'.countP secret := by
  induction h with
  | nil => rfl
  | cons hcd _ ih => rw [List.countP_cons, List.countP_cons, ih, hcd.1]

/-- Two runs: lists of one shape with the same last secrets look the same. -/
theorem revealLast_eq_of_sameShape {l l' : List α} (h : SameShape secret l l')
    (hlast : lastSecrets secret n l = lastSecrets secret n l') :
    revealLast secret hide plain n l = revealLast secret hide plain n l' := by
  induction h with
  | nil => rfl
  | @cons c d rest rest' hcd hrest ih =>
    have hcount := SameShape.countP_eq hrest
    by_cases hc : secret c = true
    · have hd : secret d = true := hcd.1 ▸ hc
      by_cases hlt : rest.countP secret < n
      · have hlt' : rest'.countP secret < n := hcount ▸ hlt
        rw [lastSecrets_cons_of_lt secret n hc hlt, lastSecrets_cons_of_lt secret n hd hlt']
          at hlast
        obtain ⟨hhead, htail⟩ := List.cons.inj hlast
        rw [revealLast_cons_of_lt secret hide plain n hc hlt,
          revealLast_cons_of_lt secret hide plain n hd hlt', hhead, ih htail]
      · have hle := Nat.le_of_not_lt hlt
        have hle' : n ≤ rest'.countP secret := hcount ▸ hle
        rw [lastSecrets_cons_of_le secret n hc hle, lastSecrets_cons_of_le secret n hd hle']
          at hlast
        rw [revealLast_cons_of_le secret hide plain n hc hle,
          revealLast_cons_of_le secret hide plain n hd hle', ih hlast]
    · have hfalse := Bool.eq_false_of_not_eq_true hc
      have hfalse' : secret d = false := hcd.1 ▸ hfalse
      rw [lastSecrets_cons_of_plain secret n hfalse, lastSecrets_cons_of_plain secret n hfalse']
        at hlast
      rw [revealLast_cons_of_plain secret hide plain n hfalse,
        revealLast_cons_of_plain secret hide plain n hfalse', hcd.2 hfalse, ih hlast]

end
end OpenArangoDBCore.Redaction
