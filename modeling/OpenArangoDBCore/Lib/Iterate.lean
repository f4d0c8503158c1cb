import Mathlib.Data.Fintype.Card
import Mathlib.Logic.Relation
import Mathlib.Order.WellFounded
import Mathlib.Tactic

/-!
# Loops that stop or come back

A loop whose body is a partial function of the state: each round emits a value
and goes on with another state, or the loop is over. Among finitely many states
it stops exactly when it comes to no state a second time.
-/

namespace OpenArangoDBCore.Iterate
variable {σ ε : Type} (step : σ → Option (ε × σ))

/-- What the loop emits; `none` if it is not over after so many rounds. -/
def iterate : (rounds : ℕ) → σ → Option (List ε)
  | 0, _ => none
  | rounds + 1, s =>
    match step s with
    | none => some []
    | some (e, s') => (iterate rounds s').map (e :: ·)

def Halts (s : σ) : Prop := ∃ rounds out, iterate step rounds s = some out

def Follows (s s' : σ) : Prop := ∃ e, step s = some (e, s')

variable {step} {s s' : σ} {e : ε}

theorem iterate_stop (h : step s = none) (rounds : ℕ) : iterate step (rounds + 1) s = some [] := by
  rw [iterate, h]

theorem iterate_step (h : step s = some (e, s')) (rounds : ℕ) :
    iterate step (rounds + 1) s = (iterate step rounds s').map (e :: ·) := by
  rw [iterate, h]

theorem Follows.unique {s'' : σ} (h : Follows step s s') (h' : Follows step s s'') : s' = s'' := by
  obtain ⟨e, he⟩ := h
  obtain ⟨e', he'⟩ := h'
  exact (Prod.mk.inj (Option.some.inj (he.symm.trans he'))).2

theorem Follows.iterate_lt (h : Follows step s s') {rounds : ℕ} {out : List ε}
    (hout : iterate step rounds s = some out) :
    ∃ fewer < rounds, ∃ later, iterate step fewer s' = some later := by
  obtain ⟨e, he⟩ := h
  cases rounds with
  | zero => cases hout
  | succ rounds =>
    rw [iterate_step he] at hout
    obtain ⟨later, hlater, -⟩ := Option.map_eq_some_iff.mp hout
    exact ⟨rounds, Nat.lt_succ_self rounds, later, hlater⟩

theorem iterate_lt_of_transGen (h : Relation.TransGen (Follows step) s s') {rounds : ℕ}
    {out : List ε} (hout : iterate step rounds s = some out) :
    ∃ fewer < rounds, ∃ later, iterate step fewer s' = some later := by
  induction h with
  | single h => exact h.iterate_lt hout
  | tail _ h ih =>
    obtain ⟨fewer, hlt, later, hlater⟩ := ih
    obtain ⟨least, hleast, last, hlast⟩ := h.iterate_lt hlater
    exact ⟨least, hleast.trans hlt, last, hlast⟩

/-- A state that comes back needs fewer rounds than itself. -/
theorem not_halts_of_cycle (h : Relation.TransGen (Follows step) s s) : ¬ Halts step s := by
  rintro ⟨rounds, out, hout⟩
  induction rounds using Nat.strongRecOn generalizing out with
  | ind rounds ih =>
    obtain ⟨fewer, hlt, later, hlater⟩ := iterate_lt_of_transGen h hout
    exact ih fewer hlt later hlater

theorem Halts.of_follows (h : Follows step s s') (hhalts : Halts step s') : Halts step s := by
  obtain ⟨e, he⟩ := h
  obtain ⟨rounds, out, hout⟩ := hhalts
  refine ⟨rounds + 1, e :: out, ?_⟩
  rw [iterate_step he, hout]
  rfl

theorem Halts.follows (h : Follows step s s') (hhalts : Halts step s) : Halts step s' := by
  obtain ⟨rounds, out, hout⟩ := hhalts
  obtain ⟨fewer, -, later, hlater⟩ := h.iterate_lt hout
  exact ⟨fewer, later, hlater⟩

theorem Halts.reaches (h : Relation.ReflTransGen (Follows step) s s') (hhalts : Halts step s) :
    Halts step s' := by
  induction h with
  | refl => exact hhalts
  | tail _ hnext ih => exact ih.follows hnext

/-- Finitely many states that the loop never leaves, none of which comes back. -/
theorem halts_of_finite {S : Set σ} (hfinite : S.Finite)
    (hclosed : ∀ a ∈ S, ∀ b, Follows step a b → b ∈ S)
    (hacyclic : ∀ a ∈ S, ¬ Relation.TransGen (Follows step) a a) (hs : s ∈ S) :
    Halts step s := by
  have : Finite S := hfinite
  let later : S → S → Prop := fun a b => Relation.TransGen (Follows step) b.val a.val
  have : IsTrans S later := ⟨fun _ _ _ hab hbc => hbc.trans hab⟩
  have : Std.Irrefl later := ⟨fun a => hacyclic a.val a.property⟩
  have hwf : WellFounded later := Finite.wellFounded_of_trans_of_irrefl later
  suffices hall : ∀ a : S, Halts step a.val from hall ⟨s, hs⟩
  intro a
  induction a using hwf.induction with
  | _ a ih =>
    cases hstep : step a.val with
    | none => exact ⟨1, [], iterate_stop hstep 0⟩
    | some next =>
      have hfollows : Follows step a.val next.2 := ⟨next.1, hstep⟩
      have hnext := ih ⟨next.2, hclosed a.val a.property next.2 hfollows⟩ (.single hfollows)
      exact hnext.of_follows hfollows

/-- The loop is deterministic, so what is reached later is reached from the state after. -/
theorem reaches_of_transGen {a b c : σ} (h : Follows step a b)
    (hlater : Relation.TransGen (Follows step) a c) : Relation.ReflTransGen (Follows step) b c := by
  obtain ⟨b', hfirst, hrest⟩ := Relation.TransGen.head'_iff.mp hlater
  rw [h.unique hfirst]
  exact hrest

/-! ### Rounds without an outcome -/

/-- As `iterate`, for a body that has no outcome in some states: there the loop has none. -/
def attempt (step : σ → Option (Option (ε × σ))) : (rounds : ℕ) → σ → Option (List ε)
  | 0, _ => none
  | rounds + 1, s =>
    (step s).bind fun round =>
      match round with
      | none => some []
      | some (e, s') => (attempt step rounds s').map (e :: ·)

section
variable {τ ε' : Type} {body : σ → Option (Option (ε × σ))}

theorem attempt_stop (h : body s = some none) (rounds : ℕ) :
    attempt body (rounds + 1) s = some [] := by
  rw [attempt, h, Option.bind_some]

theorem attempt_step (h : body s = some (some (e, s'))) (rounds : ℕ) :
    attempt body (rounds + 1) s = (attempt body rounds s').map (e :: ·) := by
  rw [attempt, h, Option.bind_some]

theorem attempt_undefined (h : body s = none) (rounds : ℕ) : attempt body rounds s = none := by
  cases rounds with
  | zero => rfl
  | succ rounds => rw [attempt, h, Option.bind_none]

/-- Related states stop together, or emit the same and stay related. -/
theorem attempt_eq_of_rel {step' : τ → Option (ε × τ)} {R : σ → τ → Prop}
    (hstep : ∀ s t, R s t → ∃ round, body s = some round ∧
      Option.Rel (fun a b => a.1 = b.1 ∧ R a.2 b.2) round (step' t))
    {t : τ} (h : R s t) (rounds : ℕ) : attempt body rounds s = iterate step' rounds t := by
  induction rounds generalizing s t with
  | zero => rfl
  | succ rounds ih =>
    obtain ⟨round, hround, hrel⟩ := hstep s t h
    generalize ht : step' t = out at hrel
    cases hrel with
    | none => rw [attempt_stop hround, iterate_stop ht]
    | @some a b hboth =>
      obtain ⟨e, next⟩ := a
      obtain ⟨e', next'⟩ := b
      obtain ⟨rfl, hnext⟩ := hboth
      rw [attempt_step hround, iterate_step ht, ih hnext]

/-- The body does in the states that are `ok` what the total one does, and has no
outcome in the others. -/
structure AgreesWhere (ok : σ → Prop) (body : σ → Option (Option (ε × σ)))
    (total : σ → Option (ε' × σ)) : Prop where
  undefined : ∀ s, ¬ ok s → body s = none
  stop : ∀ s, ok s → total s = none → body s = some none
  next : ∀ s s', ok s → Follows total s s' → ∃ e, body s = some (some (e, s'))

variable {ok : σ → Prop} {total : σ → Option (ε' × σ)}

theorem AgreesWhere.halts_of_attempt (h : AgreesWhere ok body total) {rounds : ℕ} {out : List ε}
    (hout : attempt body rounds s = some out) :
    Halts total s ∧ ∀ s', Relation.ReflTransGen (Follows total) s s' → ok s' := by
  induction rounds generalizing s out with
  | zero => cases hout
  | succ rounds ih =>
    have hok : ok s := by
      by_contra hno
      rw [attempt_undefined (h.undefined s hno)] at hout
      cases hout
    cases htotal : total s with
    | none =>
      refine ⟨⟨1, [], iterate_stop htotal 0⟩, fun s' hreach => ?_⟩
      obtain rfl | ⟨next, ⟨e, hfirst⟩, -⟩ := hreach.cases_head
      · exact hok
      · rw [htotal] at hfirst
        cases hfirst
    | some next =>
      have hfollows : Follows total s next.2 := ⟨next.1, htotal⟩
      obtain ⟨e, hbody⟩ := h.next s next.2 hok hfollows
      rw [attempt_step hbody] at hout
      obtain ⟨later, hlater, -⟩ := Option.map_eq_some_iff.mp hout
      obtain ⟨hhalts, hall⟩ := ih hlater
      refine ⟨hhalts.of_follows hfollows, fun s' hreach => ?_⟩
      obtain rfl | ⟨other, hfirst, hrest⟩ := hreach.cases_head
      · exact hok
      · exact hall s' (hfollows.unique hfirst ▸ hrest)

theorem AgreesWhere.attempt_of_halts (h : AgreesWhere ok body total) {rounds : ℕ} {out : List ε'}
    (hout : iterate total rounds s = some out)
    (hall : ∀ s', Relation.ReflTransGen (Follows total) s s' → ok s') :
    ∃ rounds out, attempt body rounds s = some out := by
  induction rounds generalizing s out with
  | zero => cases hout
  | succ rounds ih =>
    cases htotal : total s with
    | none => exact ⟨1, [], attempt_stop (h.stop s (hall s .refl) htotal) 0⟩
    | some next =>
      have hfollows : Follows total s next.2 := ⟨next.1, htotal⟩
      obtain ⟨e, hbody⟩ := h.next s next.2 (hall s .refl) hfollows
      rw [iterate_step htotal] at hout
      obtain ⟨later, hlater, -⟩ := Option.map_eq_some_iff.mp hout
      obtain ⟨fewer, emitted, hemitted⟩ :=
        ih hlater fun s' hreach => hall s' (.head hfollows hreach)
      refine ⟨fewer + 1, e :: emitted, ?_⟩
      rw [attempt_step hbody, hemitted, Option.map_some]

/-- Such a loop stops exactly when the total one does and all states on its way are `ok`. -/
theorem AgreesWhere.attempt_iff (h : AgreesWhere ok body total) (s : σ) :
    (∃ rounds out, attempt body rounds s = some out) ↔
      Halts total s ∧ ∀ s', Relation.ReflTransGen (Follows total) s s' → ok s' := by
  constructor
  · rintro ⟨rounds, out, hout⟩
    exact h.halts_of_attempt hout
  · rintro ⟨⟨rounds, out, hout⟩, hall⟩
    exact h.attempt_of_halts hout hall

end

end OpenArangoDBCore.Iterate
