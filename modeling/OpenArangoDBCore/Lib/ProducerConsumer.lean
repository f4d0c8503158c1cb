import Mathlib.Logic.Function.Basic
import Mathlib.Data.List.Nodup

/-!
# Items between producers and consumers

A producer offers an item. It is refused, or comes into a queue, from where a
consumer takes it and finishes it. Whatever the order of these moves, an item
is in one place at a time.
-/

namespace OpenArangoDBCore.ProducerConsumer
variable {P W K : Type}

inductive Place (P W : Type) where
  | offered (p : P)
  | queued
  | taken (w : W)
  | finished
  | refused

structure Custody (P W K : Type) where
  offered : P → Option K
  queue : List K
  taken : W → Option K
  finished : List K
  refused : List K

namespace Custody

def At (s : Custody P W K) (k : K) : Place P W → Prop
  | .offered p => s.offered p = some k
  | .queued => k ∈ s.queue
  | .taken w => s.taken w = some k
  | .finished => k ∈ s.finished
  | .refused => k ∈ s.refused

/-- The item is the next to leave this place. -/
def Ready (s : Custody P W K) (k : K) : Place P W → Prop
  | .offered p => s.offered p = some k
  | .queued => s.queue.head? = some k
  | .taken w => s.taken w = some k
  | .finished => False
  | .refused => False

/-- One more item has room there. -/
def Free (s : Custody P W K) : Place P W → Prop
  | .offered p => s.offered p = none
  | .taken w => s.taken w = none
  | _ => True

structure Separate (s : Custody P W K) : Prop where
  unique : ∀ k p q, s.At k p → s.At k q → p = q
  queue : s.queue.Nodup
  finished : s.finished.Nodup

end Custody

/-- Where an item goes from a place. -/
def Next : Place P W → Place P W → Prop
  | .offered _, .queued => True
  | .offered _, .refused => True
  | .queued, .taken _ => True
  | .taken _, .finished => True
  | _, _ => False

/-- The places of an item that came into the queue at some time. -/
def Inside : Place P W → Prop
  | .queued => True
  | .taken _ => True
  | .finished => True
  | _ => False

def Custody.Accepted (s : Custody P W K) (k : K) : Prop :=
  ∃ p, Inside p ∧ s.At k p

/-- Where a new item can appear. -/
def Entry : Place P W → Prop
  | .offered _ => True
  | .refused => True
  | _ => False

section Updates
variable [DecidableEq P] {f : P → Option K} {x y : P} {j k : K}

theorem of_update_some (h : Function.update f x (some k) y = some j) :
    j = k ∧ y = x ∨ f y = some j := by
  rw [Function.update_apply] at h
  split at h
  next heq => exact .inl ⟨(Option.some.inj h).symm, heq⟩
  next => exact .inr h

theorem of_update_none (h : Function.update f x none y = some j) : f y = some j := by
  rw [Function.update_apply] at h
  split at h
  next => cases h
  next => exact h

/-- Only what was at `x` can change. -/
theorem update_of_some {o : Option K} (hx : f x ≠ some j) (h : f y = some j) :
    Function.update f x o y = some j := by
  rw [Function.update_of_ne]
  · exact h
  · rintro rfl
    exact hx h

theorem of_mem_snoc {l : List K} (h : j ∈ l ++ [k]) : j = k ∨ j ∈ l := by
  rcases List.mem_append.mp h with hold | hlast
  · exact .inr hold
  · exact .inl (List.mem_singleton.mp hlast)

end Updates

section Moves
variable [DecidableEq P] [DecidableEq W]

def Custody.put (s : Custody P W K) (k : K) : Place P W → Custody P W K
  | .offered p => {s with offered := Function.update s.offered p (some k)}
  | .queued => {s with queue := s.queue ++ [k]}
  | .taken w => {s with taken := Function.update s.taken w (some k)}
  | .finished => {s with finished := s.finished ++ [k]}
  | .refused => {s with refused := s.refused ++ [k]}

def Custody.remove (s : Custody P W K) : Place P W → Custody P W K
  | .offered p => {s with offered := Function.update s.offered p none}
  | .queued => {s with queue := s.queue.tail}
  | .taken w => {s with taken := Function.update s.taken w none}
  | _ => s

/-- The items that can appear are those with `new`. -/
inductive Move (new : K → Prop) (s : Custody P W K) : Custody P W K → Prop where
  | stay : Move new s s
  | arrive {k : K} {q : Place P W} (hk : new k) (hq : Entry q) (hfree : s.Free q) :
      Move new s (s.put k q)
  | pass {k : K} {p q : Place P W} (hready : s.Ready k p) (hnext : Next p q) (hfree : s.Free q) :
      Move new s ((s.remove p).put k q)

variable {new : K → Prop} {s s' : Custody P W K} {j k : K} {p q : Place P W}

theorem at_put_self : (s.put k q).At k q := by
  cases q with
  | offered p => exact Function.update_self p _ _
  | taken w => exact Function.update_self w _ _
  | _ => exact List.mem_append_right _ (List.mem_singleton_self k)

theorem at_put (h : (s.put k q).At j p) : j = k ∧ p = q ∨ s.At j p := by
  cases q with
  | offered q =>
    cases p with
    | offered p => exact (of_update_some h).imp_left fun hnew => ⟨hnew.1, by rw [hnew.2]⟩
    | _ => exact .inr h
  | taken w =>
    cases p with
    | taken w' => exact (of_update_some h).imp_left fun hnew => ⟨hnew.1, by rw [hnew.2]⟩
    | _ => exact .inr h
  | queued =>
    cases p with
    | queued => exact (of_mem_snoc h).imp_left fun hnew => ⟨hnew, rfl⟩
    | _ => exact .inr h
  | finished =>
    cases p with
    | finished => exact (of_mem_snoc h).imp_left fun hnew => ⟨hnew, rfl⟩
    | _ => exact .inr h
  | refused =>
    cases p with
    | refused => exact (of_mem_snoc h).imp_left fun hnew => ⟨hnew, rfl⟩
    | _ => exact .inr h

theorem at_put_of_at (hfree : s.Free q) (h : s.At j p) : (s.put k q).At j p := by
  cases q with
  | offered q =>
    have hfree : s.offered q = none := hfree
    cases p with
    | offered p => exact update_of_some (by rw [hfree]; nofun) h
    | _ => exact h
  | taken w =>
    have hfree : s.taken w = none := hfree
    cases p with
    | taken w' => exact update_of_some (by rw [hfree]; nofun) h
    | _ => exact h
  | _ =>
    cases p with
    | offered _ | taken _ => exact h
    | _ => first | exact h | exact List.mem_append_left _ h

omit [DecidableEq P] [DecidableEq W] in
theorem Custody.Ready.at (h : s.Ready k p) : s.At k p := by
  cases p with
  | queued => exact List.mem_of_mem_head? h
  | finished | refused => exact h.elim
  | _ => exact h

theorem at_of_remove (h : (s.remove q).At j p) : s.At j p := by
  cases q with
  | offered q =>
    cases p with
    | offered p => exact of_update_none h
    | _ => exact h
  | taken w =>
    cases p with
    | taken w' => exact of_update_none h
    | _ => exact h
  | queued =>
    cases p with
    | queued => exact List.mem_of_mem_tail h
    | _ => exact h
  | _ => exact h

/-- The item that leaves a place is gone from it. -/
theorem Custody.Separate.remove_ne (hs : s.Separate) (hready : s.Ready k q)
    (h : (s.remove q).At j p) : j ≠ k := by
  rintro rfl
  obtain rfl := hs.unique j p q (at_of_remove h) hready.at
  cases p with
  | offered p =>
    have hnone : (s.remove (.offered p)).offered p = none := Function.update_self p _ _
    exact Option.some_ne_none j (h.symm.trans hnone)
  | taken w =>
    have hnone : (s.remove (.taken w)).taken w = none := Function.update_self w _ _
    exact Option.some_ne_none j (h.symm.trans hnone)
  | queued =>
    obtain ⟨rest, hqueue⟩ := List.head?_eq_some_iff.mp hready
    have hnodup := hs.queue
    have hrest : j ∈ s.queue.tail := h
    rw [hqueue] at hnodup hrest
    exact (List.nodup_cons.mp hnodup).1 hrest
  | finished | refused => exact hready

theorem at_remove (hready : s.Ready k q) (hjk : j ≠ k) (h : s.At j p) : (s.remove q).At j p := by
  have hkj : some k ≠ some j := fun heq => hjk (Option.some.inj heq).symm
  cases q with
  | offered q =>
    have hready : s.offered q = some k := hready
    cases p with
    | offered p => exact update_of_some (by rwa [hready]) h
    | _ => exact h
  | taken w =>
    have hready : s.taken w = some k := hready
    cases p with
    | taken w' => exact update_of_some (by rwa [hready]) h
    | _ => exact h
  | queued =>
    cases p with
    | queued =>
      obtain ⟨rest, hqueue⟩ := List.head?_eq_some_iff.mp hready
      have hj : j ∈ s.queue := h
      show j ∈ s.queue.tail
      rw [hqueue] at hj ⊢
      exact (List.mem_cons.mp hj).resolve_left hjk
    | _ => exact h
  | _ => exact h

/-! ### What the moves preserve -/

theorem Custody.Separate.put (hs : s.Separate) (hk : ∀ p, ¬ s.At k p) : (s.put k q).Separate where
  unique j p₁ p₂ h₁ h₂ := by
    rcases at_put h₁ with ⟨rfl, rfl⟩ | hold₁
    · rcases at_put h₂ with ⟨-, rfl⟩ | hold₂
      · rfl
      · exact absurd hold₂ (hk p₂)
    · rcases at_put h₂ with ⟨rfl, -⟩ | hold₂
      · exact absurd hold₁ (hk p₁)
      · exact hs.unique j p₁ p₂ hold₁ hold₂
  queue := by
    cases q with
    | queued => exact List.nodup_append_comm.mp (List.nodup_cons.mpr ⟨hk .queued, hs.queue⟩)
    | _ => exact hs.queue
  finished := by
    cases q with
    | finished => exact List.nodup_append_comm.mp (List.nodup_cons.mpr ⟨hk .finished, hs.finished⟩)
    | _ => exact hs.finished

theorem Custody.Separate.remove (hs : s.Separate) : (s.remove q).Separate where
  unique j p₁ p₂ h₁ h₂ := hs.unique j p₁ p₂ (at_of_remove h₁) (at_of_remove h₂)
  queue := by
    cases q with
    | queued => exact hs.queue.sublist (List.tail_sublist _)
    | _ => exact hs.queue
  finished := by cases q <;> exact hs.finished

theorem Move.separate (m : Move new s s') (hs : s.Separate)
    (hnew : ∀ k, new k → ∀ p, ¬ s.At k p) : s'.Separate := by
  cases m with
  | stay => exact hs
  | arrive hk => exact hs.put (hnew _ hk)
  | pass hready => exact hs.remove.put fun p hp => hs.remove_ne hready hp rfl

theorem Move.known (m : Move new s s') (h : s'.At j p) : new j ∨ ∃ q, s.At j q := by
  cases m with
  | stay => exact .inr ⟨p, h⟩
  | arrive hk =>
    rcases at_put h with ⟨rfl, -⟩ | hold
    · exact .inl hk
    · exact .inr ⟨p, hold⟩
  | pass hready =>
    rcases at_put h with ⟨rfl, -⟩ | hold
    · exact .inr ⟨_, hready.at⟩
    · exact .inr ⟨p, at_of_remove hold⟩

omit [DecidableEq P] [DecidableEq W] in
theorem inside_next (hnext : Next p q) (hp : Inside p) : Inside q := by
  cases p with
  | queued | taken _ => cases q <;> trivial
  | finished => exact hnext.elim
  | _ => exact hp.elim

theorem free_remove (h : s.Free q) : (s.remove p).Free q := by
  cases p with
  | offered p =>
    cases q with
    | offered q =>
      show Function.update s.offered p none q = none
      rw [Function.update_apply]
      split
      next => rfl
      next => exact h
    | _ => exact h
  | taken w =>
    cases q with
    | taken w' =>
      show Function.update s.taken w none w' = none
      rw [Function.update_apply]
      split
      next => rfl
      next => exact h
    | _ => exact h
  | _ => cases q <;> exact h

theorem Move.accepted (m : Move new s s') (hs : s.Separate) (h : s.Accepted j) :
    s'.Accepted j := by
  obtain ⟨p, hinside, hp⟩ := h
  cases m with
  | stay => exact ⟨p, hinside, hp⟩
  | arrive _ _ hfree => exact ⟨p, hinside, at_put_of_at hfree hp⟩
  | @pass k p₀ q hready hnext hfree =>
    by_cases hjk : j = k
    · subst hjk
      obtain rfl := hs.unique j p p₀ hp hready.at
      exact ⟨q, inside_next hnext hinside, at_put_self⟩
    · exact ⟨p, hinside, at_put_of_at (free_remove hfree) (at_remove hready hjk hp)⟩

end Moves
end OpenArangoDBCore.ProducerConsumer
