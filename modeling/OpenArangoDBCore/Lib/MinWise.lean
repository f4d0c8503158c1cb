import Mathlib.Data.Nat.ModEq
import Mathlib.Data.Nat.Prime.Basic
import Mathlib.NumberTheory.LucasLehmer
import Mathlib.Tactic

/-!
# Running minima and affine maps modulo a Mersenne prime

A minimum that is kept up to date element by element, from a start above all
values, is the value of a least element. Affine maps with a multiplier that is
not zero separate the residues modulo a prime.
-/

namespace OpenArangoDBCore.MinWise

/-! ### Running minima -/

section Minima
variable {α β : Type} [LinearOrder β] (f : α → β)

/-- The value of each element replaces the minimum that it is below. -/
def runningMin (start : β) (xs : List α) : β :=
  xs.foldl (fun least x => if f x < least then f x else least) start

def Minimises (x : α) (xs : List α) : Prop := x ∈ xs ∧ ∀ y ∈ xs, f x ≤ f y

theorem runningMin_snoc (start : β) (xs : List α) (x : α) :
    runningMin f start (xs ++ [x]) = min (f x) (runningMin f start xs) := by
  rw [runningMin, List.foldl_append, List.foldl_cons, List.foldl_nil, min_def]
  change (if f x < runningMin f start xs then f x else runningMin f start xs) = _
  split
  next h => rw [if_pos h.le]
  next h =>
    split
    next hle => exact le_antisymm (not_lt.mp h) hle
    next => rfl

theorem exists_minimises {xs : List α} (h : xs ≠ []) : ∃ x, Minimises f x xs := by
  induction xs with
  | nil => exact absurd rfl h
  | cons a xs ih =>
    by_cases hnil : xs = []
    · subst hnil
      exact ⟨a, List.mem_singleton_self a, fun y hy => by rw [List.mem_singleton.mp hy]⟩
    · obtain ⟨x, hx, hleast⟩ := ih hnil
      rcases le_total (f a) (f x) with hle | hle
      · refine ⟨a, List.mem_cons_self, List.forall_mem_cons.mpr ⟨le_rfl, fun y hy => ?_⟩⟩
        exact hle.trans (hleast y hy)
      · exact ⟨x, List.mem_cons_of_mem a hx, List.forall_mem_cons.mpr ⟨hle, hleast⟩⟩

variable {f} {start : β} {x y : α} {xs ys : List α}

theorem Minimises.value_eq (h : Minimises f x xs) (h' : Minimises f y xs) : f x = f y :=
  le_antisymm (h.2 y h'.1) (h'.2 x h.1)

theorem runningMin_le (xs : List α) :
    runningMin f start xs ≤ start ∧ ∀ x ∈ xs, runningMin f start xs ≤ f x := by
  induction xs using List.reverseRecOn with
  | nil => exact ⟨le_rfl, fun x hx => absurd hx List.not_mem_nil⟩
  | append_singleton xs a ih =>
    rw [runningMin_snoc]
    refine ⟨(min_le_right _ _).trans ih.1, fun x hx => ?_⟩
    rcases List.mem_append.mp hx with hx | hx
    · exact (min_le_right _ _).trans (ih.2 x hx)
    · rw [List.mem_singleton.mp hx]
      exact min_le_left _ _

theorem runningMin_mem (start : β) (xs : List α) :
    runningMin f start xs = start ∨ ∃ x ∈ xs, runningMin f start xs = f x := by
  induction xs using List.reverseRecOn with
  | nil => exact .inl rfl
  | append_singleton xs a ih =>
    rw [runningMin_snoc]
    rcases min_choice (f a) (runningMin f start xs) with hmin | hmin
    · exact .inr ⟨a, by simp, hmin⟩
    · rw [hmin]
      refine ih.imp id fun hold => ?_
      obtain ⟨x, hx, heq⟩ := hold
      exact ⟨x, List.mem_append_left _ hx, heq⟩

/-- The bounds below a running minimum. -/
theorem le_runningMin_iff (start : β) (xs : List α) (c : β) :
    c ≤ runningMin f start xs ↔ c ≤ start ∧ ∀ x ∈ xs, c ≤ f x := by
  constructor
  · intro h
    exact ⟨h.trans (runningMin_le xs).1, fun x hx => h.trans ((runningMin_le xs).2 x hx)⟩
  · intro h
    rcases runningMin_mem (f := f) start xs with heq | ⟨x, hx, heq⟩
    · rw [heq]
      exact h.1
    · rw [heq]
      exact h.2 x hx

/-- Neither the order nor a repetition changes a running minimum. -/
theorem runningMin_congr (start : β) (h : ∀ x, x ∈ xs ↔ x ∈ ys) :
    runningMin f start xs = runningMin f start ys := by
  refine eq_of_forall_le_iff fun c => ?_
  rw [le_runningMin_iff, le_runningMin_iff]
  exact and_congr_right fun _ => forall_congr' fun x => by rw [h x]

theorem runningMin_append (start : β) (xs ys : List α) :
    runningMin f start (xs ++ ys) = min (runningMin f start xs) (runningMin f start ys) := by
  refine eq_of_forall_le_iff fun c => ?_
  rw [le_min_iff, le_runningMin_iff, le_runningMin_iff, le_runningMin_iff, List.forall_mem_append]
  exact and_and_left

/-- From a start above all values, the minimum is that of any least element. -/
theorem runningMin_of_minimises (hstart : ∀ x, f x < start) (h : Minimises f x xs) :
    runningMin f start xs = f x := by
  have hle : runningMin f start xs ≤ f x := (runningMin_le xs).2 x h.1
  rcases runningMin_mem (f := f) start xs with heq | ⟨y, hy, heq⟩
  · rw [heq] at hle
    exact absurd hle (not_le.mpr (hstart x))
  · rw [heq] at hle ⊢
    exact le_antisymm hle (h.2 y hy)

/-- Two running minima are equal when both lists are empty or their least
elements have the same value. -/
theorem runningMin_eq_iff (hstart : ∀ x, f x < start) :
    runningMin f start xs = runningMin f start ys ↔ xs = [] ∧ ys = [] ∨
      xs ≠ [] ∧ ys ≠ [] ∧ ∀ x y, Minimises f x xs → Minimises f y ys → f x = f y := by
  have hnil : runningMin f start [] = start := rfl
  by_cases hxs : xs = []
  · subst hxs
    by_cases hys : ys = []
    · subst hys
      exact iff_of_true rfl (.inl ⟨rfl, rfl⟩)
    · obtain ⟨y, hy⟩ := exists_minimises f hys
      rw [hnil, runningMin_of_minimises hstart hy]
      simp [hys, (hstart y).ne']
  · obtain ⟨x, hx⟩ := exists_minimises f hxs
    rw [runningMin_of_minimises hstart hx]
    by_cases hys : ys = []
    · subst hys
      rw [hnil]
      simp [hxs, (hstart x).ne]
    · obtain ⟨y, hy⟩ := exists_minimises f hys
      rw [runningMin_of_minimises hstart hy]
      constructor
      · intro heq
        refine .inr ⟨hxs, hys, fun x' y' hx' hy' => ?_⟩
        rw [hx'.value_eq hx, heq, hy.value_eq hy']
      · rintro (⟨hempty, -⟩ | ⟨-, -, hall⟩)
        · exact absurd hempty hxs
        · exact hall x y hx hy

end Minima

/-! ### Affine maps modulo a prime -/

theorem affine_mod_inj {p a b x y : ℕ} (hp : p.Prime) (ha : 0 < a) (hap : a < p) :
    (a * x + b) % p = (a * y + b) % p ↔ x ≡ y [MOD p] := by
  have hcoprime : Nat.gcd p a = 1 := Nat.coprime_of_lt_prime ha.ne' hap hp
  constructor
  · intro h
    exact Nat.ModEq.cancel_left_of_coprime hcoprime (Nat.ModEq.add_right_cancel' b h)
  · intro h
    exact (h.mul_left a).add_right b

/-! ### Reduction modulo a Mersenne number -/

/-- The upper bits of a number count as much as the lower ones. -/
theorem mersenne_fold (n x : ℕ) : x % 2 ^ n + x / 2 ^ n ≡ x [MOD mersenne n] := by
  have hpow : 1 ≡ 2 ^ n [MOD mersenne n] :=
    (Nat.modEq_iff_dvd' Nat.one_le_two_pow).mpr (dvd_refl (mersenne n))
  calc x % 2 ^ n + x / 2 ^ n
      = x % 2 ^ n + 1 * (x / 2 ^ n) := by rw [one_mul]
    _ ≡ x % 2 ^ n + 2 ^ n * (x / 2 ^ n) [MOD mersenne n] := (hpow.mul_right _).add_left _
    _ = x := Nat.mod_add_div x (2 ^ n)

end OpenArangoDBCore.MinWise
