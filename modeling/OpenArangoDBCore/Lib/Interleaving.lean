import Mathlib.Logic.Function.Basic
import Mathlib.Data.List.Infix
import Mathlib.Tactic

/-!
# Interleavings of threads over a shared state

A thread has a control state of its own; one step of a thread reads and
writes the shared state and its control state. A run is a list of labelled
steps of any threads in any order, so a statement about all runs is a
statement about all interleavings.
-/

namespace OpenArangoDBCore.Interleaving
variable {T S L E : Type}

structure Config (T S L : Type) where
  shared : S
  control : T → L

/- The label chooses among the steps that are possible; `none` is a step the
thread cannot take. -/
abbrev Program (S L E : Type) := S → L → E → Option (S × L)

/-- The steps of one thread while no other thread steps. -/
def alone (prog : Program S L E) : S → L → List E → Option (S × L)
  | s, l, [] => some (s, l)
  | s, l, e :: rest => (prog s l e).bind fun r => alone prog r.1 r.2 rest

theorem alone_append (prog : Program S L E) (s : S) (l : L) (es more : List E) :
    alone prog s l (es ++ more) = (alone prog s l es).bind fun r => alone prog r.1 r.2 more := by
  induction es generalizing s l with
  | nil => rfl
  | cons e es ih =>
    simp only [List.cons_append, alone]
    cases prog s l e with
    | none => rfl
    | some r => exact ih r.1 r.2

/-- If at most one thread is in a place and one thread steps, at most one is in it again. -/
theorem unique_of_frame {P : L → Prop} {ctl ctl' : T → L} {x : T}
    (hframe : ∀ t, t ≠ x → ctl' t = ctl t) (h : ∀ t u, P (ctl t) → P (ctl u) → t = u)
    (hnew : P (ctl' x) → ∀ t, t ≠ x → ¬ P (ctl t)) (t u : T) (ht : P (ctl' t)) (hu : P (ctl' u)) :
    t = u := by
  by_cases htx : t = x
  · by_cases hux : u = x
    · rw [htx, hux]
    · rw [hframe u hux] at hu
      rw [htx] at ht
      exact absurd hu (hnew ht u hux)
  · rw [hframe t htx] at ht
    by_cases hux : u = x
    · rw [hux] at hu
      exact absurd ht (hnew hu t htx)
    · rw [hframe u hux] at hu
      exact h t u ht hu

section Run
variable [DecidableEq T] (prog : Program S L E)

def fire (c : Config T S L) (x : T × E) : Option (Config T S L) :=
  (prog c.shared (c.control x.1) x.2).map fun r => ⟨r.1, Function.update c.control x.1 r.2⟩

def exec : Config T S L → List (T × E) → Option (Config T S L)
  | c, [] => some c
  | c, x :: rest =>
    match fire prog c x with
    | none => none
    | some c' => exec c' rest

/-- Every step of a run meets `P`, given the steps and the state before it. -/
def EachStep (P : List (T × E) → Config T S L → T × E → Prop) :
    List (T × E) → Config T S L → List (T × E) → Prop
  | _, _, [] => True
  | past, c, x :: rest => P past c x ∧
    match fire prog c x with
    | none => True
    | some c' => EachStep P (past ++ [x]) c' rest

def decideEachStep (P : List (T × E) → Config T S L → T × E → Prop)
    [∀ past c x, Decidable (P past c x)] :
    (past : List (T × E)) → (c : Config T S L) → (tr : List (T × E)) →
      Decidable (EachStep prog P past c tr)
  | _, _, [] => isTrue trivial
  | past, c, x :: rest =>
    match h : fire prog c x with
    | none => decidable_of_iff (P past c x) (by simp [EachStep, h])
    | some c' =>
      have := decideEachStep P (past ++ [x]) c' rest
      decidable_of_iff (P past c x ∧ EachStep prog P (past ++ [x]) c' rest) (by simp [EachStep, h])

instance (P : List (T × E) → Config T S L → T × E → Prop) [∀ past c x, Decidable (P past c x)]
    (past : List (T × E)) (c : Config T S L) (tr : List (T × E)) :
    Decidable (EachStep prog P past c tr) :=
  decideEachStep prog P past c tr

variable {prog}

theorem fire_inv {c c' : Config T S L} {x : T × E} (h : fire prog c x = some c') :
    ∃ s l, prog c.shared (c.control x.1) x.2 = some (s, l) ∧
      c' = ⟨s, Function.update c.control x.1 l⟩ := by
  unfold fire at h
  cases hp : prog c.shared (c.control x.1) x.2 with
  | none => simp [hp] at h
  | some r =>
    simp only [hp, Option.map_some, Option.some.injEq] at h
    exact ⟨r.1, r.2, rfl, h.symm⟩

theorem fire_own {c c' : Config T S L} {x : T × E} (h : fire prog c x = some c') :
    prog c.shared (c.control x.1) x.2 = some (c'.shared, c'.control x.1) := by
  obtain ⟨s, l, hp, rfl⟩ := fire_inv h
  dsimp only
  rw [hp, Function.update_self]

theorem fire_frame {c c' : Config T S L} {x : T × E} (h : fire prog c x = some c') {t : T}
    (ht : t ≠ x.1) : c'.control t = c.control t := by
  obtain ⟨s, l, hp, rfl⟩ := fire_inv h
  exact Function.update_of_ne ht l c.control

theorem exec_alone {c : Config T S L} {t : T} {es : List E} {s : S} {l : L}
    (h : alone prog c.shared (c.control t) es = some (s, l)) :
    exec prog c (es.map fun e => (t, e)) = some ⟨s, Function.update c.control t l⟩ := by
  induction es generalizing c with
  | nil =>
    cases h
    simp [exec]
  | cons e es ih =>
    obtain ⟨r, hr, hrest⟩ := Option.bind_eq_some_iff.mp h
    have hnext := ih (c := ⟨r.1, Function.update c.control t r.2⟩) (by simpa using hrest)
    rw [Function.update_idem] at hnext
    simpa [exec, fire, hr] using hnext

theorem exec_append (c : Config T S L) (tr more : List (T × E)) :
    exec prog c (tr ++ more) = (exec prog c tr).bind fun c' => exec prog c' more := by
  induction tr generalizing c with
  | nil => rfl
  | cons x rest ih =>
    simp only [List.cons_append, exec]
    cases fire prog c x with
    | none => rfl
    | some c' => exact ih c'

theorem exec_snoc (c : Config T S L) (tr : List (T × E)) (x : T × E) :
    exec prog c (tr ++ [x]) = (exec prog c tr).bind fun c' => fire prog c' x := by
  rw [exec_append]
  congr 1
  funext c'
  simp only [exec]
  cases fire prog c' x <;> rfl

theorem exec_at {c c' : Config T S L} {tr before : List (T × E)} {x : T × E}
    (h : exec prog c tr = some c') (hx : before ++ [x] <+: tr) :
    ∃ c₁ c₂, exec prog c before = some c₁ ∧ fire prog c₁ x = some c₂ := by
  obtain ⟨rest, rfl⟩ := hx
  rw [exec_append, exec_snoc] at h
  cases hb : exec prog c before with
  | none => simp [hb] at h
  | some c₁ =>
    cases hf : fire prog c₁ x with
    | none => simp [hb, hf] at h
    | some c₂ => exact ⟨c₁, c₂, rfl, hf⟩

theorem eachStep_append {P : List (T × E) → Config T S L → T × E → Prop}
    (past : List (T × E)) (c c' : Config T S L) (tr more : List (T × E))
    (h : exec prog c tr = some c') :
    EachStep prog P past c (tr ++ more) ↔
      EachStep prog P past c tr ∧ EachStep prog P (past ++ tr) c' more := by
  induction tr generalizing past c with
  | nil =>
    obtain rfl := Option.some.inj h
    simp [EachStep]
  | cons x rest ih =>
    simp only [exec] at h
    simp only [List.cons_append, EachStep]
    cases hf : fire prog c x with
    | none => simp [hf] at h
    | some c₁ =>
      simp only [hf] at h
      have hpast : past ++ x :: rest = past ++ [x] ++ rest := by simp
      simp only [ih (past ++ [x]) c₁ h, hpast, and_assoc]

theorem eachStep_at {P : List (T × E) → Config T S L → T × E → Prop}
    {past before tr : List (T × E)} {c c₁ : Config T S L} {x : T × E}
    (h : EachStep prog P past c tr) (hx : before ++ [x] <+: tr)
    (hb : exec prog c before = some c₁) :
    EachStep prog P past c before ∧ P (past ++ before) c₁ x := by
  obtain ⟨rest, rfl⟩ := hx
  rw [List.append_assoc, eachStep_append past c c₁ before _ hb] at h
  exact ⟨h.1, h.2.1⟩

theorem eachStep_true (past : List (T × E)) (c : Config T S L) (tr : List (T × E)) :
    EachStep prog (fun _ _ _ => True) past c tr := by
  induction tr generalizing past c with
  | nil => trivial
  | cons x rest ih =>
    refine ⟨trivial, ?_⟩
    cases fire prog c x with
    | none => trivial
    | some c' => exact ih _ c'

/-- What one step preserves, a run preserves. The invariant may speak of the
steps taken so far. -/
theorem exec_rule {P : List (T × E) → Config T S L → T × E → Prop}
    (I : List (T × E) → Config T S L → Prop)
    (hstep : ∀ past c x c', I past c → P past c x → fire prog c x = some c' → I (past ++ [x]) c')
    (tr past : List (T × E)) (c c' : Config T S L) (h0 : I past c)
    (hP : EachStep prog P past c tr) (h : exec prog c tr = some c') : I (past ++ tr) c' := by
  induction tr generalizing past c with
  | nil =>
    obtain rfl := Option.some.inj h
    rw [List.append_nil]
    exact h0
  | cons x rest ih =>
    simp only [exec] at h
    simp only [EachStep] at hP
    cases hf : fire prog c x with
    | none => simp [hf] at h
    | some c₁ =>
      simp only [hf] at h hP
      have hx := ih (past ++ [x]) c₁ (hstep past c x c₁ h0 hP.1 hf) hP.2 h
      rwa [List.append_assoc] at hx

theorem exec_invariant (I : List (T × E) → Config T S L → Prop)
    (hstep : ∀ past c x c', I past c → fire prog c x = some c' → I (past ++ [x]) c')
    (tr : List (T × E)) (c c' : Config T S L) (h0 : I [] c)
    (h : exec prog c tr = some c') : I tr c' :=
  exec_rule (P := fun _ _ _ => True) I (fun past c x c' hI _ hf => hstep past c x c' hI hf)
    tr [] c c' h0 (eachStep_true [] c tr) h

section Observed
variable {O : Type} (obs : T → S → L → E → List O)

variable (prog) in
def observed : Config T S L → List (T × E) → List O
  | _, [] => []
  | c, x :: rest => obs x.1 c.shared (c.control x.1) x.2 ++
    match fire prog c x with
    | none => []
    | some c' => observed c' rest

def onlyOf (t : T) (obs : S → L → E → List O) : T → S → L → E → List O :=
  fun u s l e => if u = t then obs s l e else []

theorem observed_snoc {c c' : Config T S L} {tr : List (T × E)} (h : exec prog c tr = some c')
    (x : T × E) : observed prog obs c (tr ++ [x]) =
      observed prog obs c tr ++ obs x.1 c'.shared (c'.control x.1) x.2 := by
  induction tr generalizing c with
  | nil =>
    obtain rfl := Option.some.inj h
    simp only [List.nil_append, observed]
    cases fire prog c x <;> exact List.append_nil _
  | cons y rest ih =>
    simp only [exec] at h
    cases hf : fire prog c y with
    | none => simp [hf] at h
    | some c₁ =>
      simp only [hf] at h
      simp only [List.cons_append, observed, hf, ih h, List.append_assoc]

theorem observed_invariant (I : List O → Config T S L → Prop)
    (hstep : ∀ seen c x c', I seen c → fire prog c x = some c' →
      I (seen ++ obs x.1 c.shared (c.control x.1) x.2) c')
    (tr : List (T × E)) (c c' : Config T S L) (h0 : I [] c) (h : exec prog c tr = some c') :
    I (observed prog obs c tr) c' := by
  have hrun : ∀ (tr : List (T × E)) (seen : List O) (c : Config T S L), I seen c →
      exec prog c tr = some c' → I (seen ++ observed prog obs c tr) c' := by
    intro tr
    induction tr with
    | nil =>
      intro seen c hI h
      obtain rfl := Option.some.inj h
      rwa [observed, List.append_nil]
    | cons x rest ih =>
      intro seen c hI h
      simp only [exec] at h
      cases hf : fire prog c x with
      | none => simp [hf] at h
      | some c₁ =>
        simp only [hf] at h
        rw [observed, hf, ← List.append_assoc]
        exact ih _ _ (hstep seen c x c₁ hI hf) h
  exact hrun tr [] c h0 h

/-- For the observations of one thread, the shared state and its control
state: its own steps and those of the others keep the invariant. -/
theorem observed_rule (t : T) (obs : S → L → E → List O) (I : List O → S → L → Prop)
    (hown : ∀ seen s l e s' l', I seen s l → prog s l e = some (s', l') →
      I (seen ++ obs s l e) s' l')
    (hother : ∀ seen s l l₀ e s' l₁, I seen s l → prog s l₀ e = some (s', l₁) → I seen s' l)
    (tr : List (T × E)) (c c' : Config T S L) (h0 : I [] c.shared (c.control t))
    (h : exec prog c tr = some c') :
    I (observed prog (onlyOf t obs) c tr) c'.shared (c'.control t) := by
  refine observed_invariant (onlyOf t obs) (fun seen c => I seen c.shared (c.control t)) ?_ tr c c'
    h0 h
  intro seen c x c' hI hf
  obtain ⟨s, l, hp, rfl⟩ := fire_inv hf
  unfold onlyOf
  by_cases hx : x.1 = t
  · subst hx
    rw [if_pos rfl]
    dsimp only
    rw [Function.update_self]
    exact hown seen _ _ _ _ _ hI hp
  · rw [if_neg hx, List.append_nil]
    dsimp only
    rw [Function.update_of_ne (Ne.symm hx)]
    exact hother seen _ _ _ _ _ _ hI hp

end Observed
end Run
end OpenArangoDBCore.Interleaving
