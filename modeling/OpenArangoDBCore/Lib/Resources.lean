import Mathlib.Algebra.BigOperators.Group.Multiset.Basic
import Mathlib.Data.Multiset.AddSub
import Mathlib.Tactic

/-!
# Acquired and released resources

A trace of events is replayed on a ledger of what is held. It gets stuck at a
use or a release of something that is not held. A computation that logs its
calls has a triple over ledgers; what some calls leak is added at the end,
since more resources do not disturb a trace.
-/

namespace OpenArangoDBCore.Resources
variable {R : Type}

/-- A borrowed resource is a part of its owner and goes with it. -/
inductive Event (R : Type) where
  | acquire (r : R)
  | borrow (owner r : R)
  | use (r : R)
  | release (r : R)

/-- What is held, and the borrowed resources with their owners. -/
@[ext] structure Ledger (R : Type) where
  owned : Multiset R
  borrowed : List (R × R)
  deriving DecidableEq

namespace Ledger

def empty : Ledger R := ⟨0, []⟩

def add (ledger : Ledger R) (more : Multiset R) : Ledger R :=
  {ledger with owned := ledger.owned + more}

@[simp] theorem add_nothing (ledger : Ledger R) : ledger.add 0 = ledger :=
  Ledger.ext (add_zero _) rfl

theorem add_add (ledger : Ledger R) (more more' : Multiset R) :
    (ledger.add more).add more' = ledger.add (more + more') :=
  Ledger.ext (add_assoc _ _ _) rfl

end Ledger

variable [DecidableEq R]

@[simp] def step (ledger : Ledger R) : Event R → Option (Ledger R)
  | .acquire r => some {ledger with owned := r ::ₘ ledger.owned}
  | .borrow owner r =>
    if owner ∈ ledger.owned then some {ledger with borrowed := (owner, r) :: ledger.borrowed}
    else none
  | .use r => if r ∈ ledger.owned ∨ r ∈ ledger.borrowed.map Prod.snd then some ledger else none
  | .release r =>
    if r ∈ ledger.owned then
      some ⟨ledger.owned.erase r, ledger.borrowed.filter fun b => b.1 ≠ r⟩
    else none

@[simp] def replay : Ledger R → List (Event R) → Option (Ledger R)
  | ledger, [] => some ledger
  | ledger, e :: rest => (step ledger e).bind fun ledger' => replay ledger' rest

/-- Everything that is acquired is released once, and used in between only. -/
def Balanced (events : List (Event R)) : Prop := replay .empty events = some .empty

instance (events : List (Event R)) : Decidable (Balanced events) :=
  inferInstanceAs (Decidable (replay .empty events = some .empty))

variable {ledger ledger' : Ledger R}

theorem replay_append (ledger : Ledger R) (events more : List (Event R)) :
    replay ledger (events ++ more) = (replay ledger events).bind fun l => replay l more := by
  induction events generalizing ledger with
  | nil => rfl
  | cons e events ih =>
    simp only [List.cons_append, replay]
    cases step ledger e with
    | none => rfl
    | some next => exact ih next

theorem step_frame {e : Event R} (h : step ledger e = some ledger') (more : Multiset R) :
    step (ledger.add more) e = some (ledger'.add more) := by
  cases e with
  | acquire r =>
    cases h
    exact congrArg some (Ledger.ext (Multiset.cons_add r _ more).symm rfl)
  | borrow owner r =>
    simp only [step, Option.ite_none_right_eq_some] at h ⊢
    obtain ⟨howner, hsome⟩ := h
    cases hsome
    exact ⟨Multiset.mem_add.mpr (.inl howner), rfl⟩
  | use r =>
    simp only [step, Option.ite_none_right_eq_some] at h ⊢
    obtain ⟨hlive, hsome⟩ := h
    cases hsome
    exact ⟨hlive.imp_left fun howned => Multiset.mem_add.mpr (.inl howned), rfl⟩
  | release r =>
    simp only [step, Option.ite_none_right_eq_some] at h ⊢
    obtain ⟨howned, hsome⟩ := h
    cases hsome
    refine ⟨Multiset.mem_add.mpr (.inl howned), congrArg some (Ledger.ext ?_ rfl)⟩
    exact Multiset.erase_add_left_pos more howned

theorem replay_frame {events : List (Event R)} (h : replay ledger events = some ledger')
    (more : Multiset R) : replay (ledger.add more) events = some (ledger'.add more) := by
  induction events generalizing ledger with
  | nil =>
    cases h
    rfl
  | cons e events ih =>
    simp only [replay, Option.bind_eq_some_iff] at h
    obtain ⟨next, hstep, hrest⟩ := h
    rw [replay, step_frame hstep, Option.bind_some, ih hrest]

section Logged
variable {ω C α β : Type}

/-- The computation with a note of its call at the end of the log. -/
def logged (x : StateM ω α) (call : α → C) : StateM (ω × List C) α := fun s =>
  let (a, w) := x s.1
  (a, (w, s.2 ++ [call a]))

variable (events : C → List (Event R)) (leaks : C → Multiset R)

/-- `x` is `y` with its calls logged, and their events take the ledger `pre` to
`post` of the answer and what they leak. -/
structure Triple (pre : Ledger R) (x : StateM (ω × List C) α) (y : StateM ω α)
    (post : α → Ledger R) : Prop where
  answer : ∀ w log, (x (w, log)).1 = (y w).1
  state : ∀ w log, (x (w, log)).2.1 = (y w).2
  calls : ∀ w log, ∃ calls, (x (w, log)).2.2 = log ++ calls ∧
    replay pre (calls.flatMap events) = some ((post (y w).1).add (calls.map leaks).sum)

variable {events leaks} {pre : Ledger R} {mid : α → Ledger R} {post : β → Ledger R}

theorem Triple.pure {b : β} (h : pre = post b) :
    Triple events leaks pre (Pure.pure b : StateM (ω × List C) β) (Pure.pure b) post where
  answer _ _ := rfl
  state _ _ := rfl
  calls _ _ := by
    refine ⟨[], (List.append_nil _).symm, ?_⟩
    rw [h]
    exact congrArg some (Ledger.add_nothing _).symm

theorem Triple.bind {x : StateM (ω × List C) α} {y : StateM ω α}
    {f : α → StateM (ω × List C) β} {g : α → StateM ω β}
    (hx : Triple events leaks pre x y mid)
    (hf : ∀ a, Triple events leaks (mid a) (f a) (g a) post) :
    Triple events leaks pre (x >>= f) (y >>= g) post where
  answer w log := by
    show (f (x (w, log)).1 (x (w, log)).2).1 = (g (y w).1 (y w).2).1
    rw [hx.answer, ← hx.state w log]
    exact (hf (y w).1).answer _ _
  state w log := by
    show (f (x (w, log)).1 (x (w, log)).2).2.1 = (g (y w).1 (y w).2).2
    rw [hx.answer, ← hx.state w log]
    exact (hf (y w).1).state _ _
  calls w log := by
    obtain ⟨calls, hlog, hreplay⟩ := hx.calls w log
    obtain ⟨more, hlog', hreplay'⟩ := (hf (y w).1).calls (y w).2 (log ++ calls)
    refine ⟨calls ++ more, ?_, ?_⟩
    · show (f (x (w, log)).1 (x (w, log)).2).2.2 = log ++ (calls ++ more)
      have hsame : (x (w, log)).2 = ((y w).2, log ++ calls) :=
        Prod.ext (hx.state w log) hlog
      rw [hx.answer, hsame, hlog', List.append_assoc]
    · show replay pre ((calls ++ more).flatMap events) =
        some ((post (g (y w).1 (y w).2).1).add ((calls ++ more).map leaks).sum)
      rw [List.flatMap_append, replay_append, hreplay, Option.bind_some, replay_frame hreplay',
        Ledger.add_add, List.map_append, List.sum_append, add_comm]

theorem Triple.logged {x : StateM (ω × List C) α} {y : StateM ω α} (call : α → C)
    (hx : x = logged y call)
    (h : ∀ a, replay pre (events (call a)) = some ((mid a).add (leaks (call a)))) :
    Triple events leaks pre x y mid where
  answer _ _ := by
    rw [hx]
    rfl
  state _ _ := by
    rw [hx]
    rfl
  calls w log := by
    rw [hx]
    refine ⟨[call (y w).1], rfl, ?_⟩
    rw [List.flatMap_singleton, List.map_singleton, List.sum_singleton]
    exact h (y w).1

/-- Without a leak the trace is balanced, and only then. -/
theorem Triple.balanced_iff {x : StateM (ω × List C) α} {y : StateM ω α}
    (h : Triple events leaks .empty x y fun _ => .empty) (w : ω) :
    Balanced ((x (w, [])).2.2.flatMap events) ↔ ∀ call ∈ (x (w, [])).2.2, leaks call = 0 := by
  obtain ⟨calls, hlog, hreplay⟩ := h.calls w []
  rw [List.nil_append] at hlog
  rw [hlog, Balanced, hreplay, Option.some.injEq]
  constructor
  · intro hempty
    have hsum : (calls.map leaks).sum = 0 := by
      have howned := congrArg Ledger.owned hempty
      rwa [Ledger.add, Ledger.empty, zero_add] at howned
    intro call hcall
    exact List.sum_eq_zero_iff.mp hsum _ (List.mem_map_of_mem hcall)
  · intro hnone
    have hsum : (calls.map leaks).sum = 0 := by
      refine List.sum_eq_zero_iff.mpr ?_
      intro leaked hleaked
      obtain ⟨call, hcall, rfl⟩ := List.mem_map.mp hleaked
      exact hnone call hcall
    rw [hsum, Ledger.add_nothing]

end Logged
end OpenArangoDBCore.Resources
