import OpenArangoDBCore.RocksDBEngine.RocksDBBuilderIndexEE

/-!
# What the builder publishes

The atomic of the builder is set when a phase begins, so it does not say
that the phase is over. A swap that is requested while a fill or a changelog
application is still under way, or after an applier threw, goes through; any
other swap publishes a complete build, and then the final state stays.
-/

namespace OpenArangoDBCore.RocksDBEngine
namespace RocksDBBuilderIndexEE
open Interleaving

inductive Phase where
  | none
  | fill
  | apply
  | swap
  | publish
  deriving DecidableEq

/- A call is in its phase from the compare-exchange to its return; a swap
publishes from its callback on. -/
def phase : Control → Phase
  | .fillSubmit _ _ => .fill
  | .fillWait _ _ => .fill
  | .fillFail => .fill
  | .returning (.fillIndexParallel true) => .fill
  | .applyLock => .apply
  | .applyEach _ _ => .apply
  | .applyFail => .apply
  | .applyClear => .apply
  | .returning (.applyChangelog true) => .apply
  | .swapCall => .swap
  | .swapFail => .publish
  | .swapFinish => .publish
  | _ => .none

def applierThrew : Event → Bool
  | .applier _ .threw => true
  | _ => false

/-! ### What a step does to the state and to the phase of its thread -/

inductive Effect (l l' : Control) (e : Event) : BuildState → BuildState → Prop where
  | stay (s : BuildState) : phase l' = phase l → Effect l l' e s s
  | beginFill : phase l = .none → phase l' = .fill → Effect l l' e .kIdle .kBuilding
  | failFill (s : BuildState) : phase l = .fill → phase l' = .none → Effect l l' e s .kFailed
  | endFill (s : BuildState) : phase l = .fill → phase l' = .none →
      e = .ret (.fillIndexParallel true) → Effect l l' e s s
  | beginApply : phase l = .none → phase l' = .apply →
      Effect l l' e .kBuilding .kApplyingChangelog
  | failApply (s : BuildState) : phase l = .apply → phase l' = .none → Effect l l' e s .kFailed
  | endApply (s : BuildState) : phase l = .apply → phase l' = .none →
      e = .ret (.applyChangelog true) → Effect l l' e s s
  | throwApply (s : BuildState) : phase l = .apply → phase l' = .none →
      applierThrew e = true → Effect l l' e s s
  | beginSwap : phase l = .none → phase l' = .swap →
      Effect l l' e .kApplyingChangelog .kSwapping
  | callSwap (s : BuildState) : l = .swapCall → phase l' = .publish → Effect l l' e s s
  | failSwap (s : BuildState) : phase l = .publish → phase l' = .none → Effect l l' e s .kFailed
  | finishSwap (s : BuildState) : phase l = .publish → phase l' = .none →
      Effect l l' e s .kComplete

section Steps
variable {F : Type} (ops : FractionOps F) {b b' : RocksDBBuilderIndexEE} {l l' : Control}
  {e : Event}

theorem fillIndexParallel_effect (h : fillIndexParallel ops b l e = some (b', l')) :
    Effect l l' e b.state b'.state := by
  unfold fillIndexParallel at h
  split at h
  next =>
    split at h
    next hs =>
      rw [hs]
      dsimp only at h
      split at h
      · cases h; exact .beginFill rfl rfl
      · cases h; exact .beginFill rfl rfl
    next => cases h; exact .stay _ rfl
  next =>
    split at h
    · cases h; exact .stay _ rfl
    · cases h; exact .failFill _ rfl rfl
  next => cases h; exact .stay _ rfl
  next => cases h; exact .stay _ rfl
  next =>
    split at h
    · cases h; exact .stay _ rfl
    · cases h; exact .stay _ rfl
  next => cases h; exact .failFill _ rfl rfl
  next => cases h

theorem bufferWrite_effect (h : bufferWrite b l e = some (b', l')) :
    Effect l l' e b.state b'.state := by
  unfold bufferWrite at h
  split at h
  next =>
    split at h
    · cases h; exact .stay _ rfl
    · cases h; exact .stay _ rfl
  next =>
    split at h
    · cases h; exact .stay _ rfl
    · cases h
  next => cases h

theorem applyChangelog_effect (h : applyChangelog b l e = some (b', l')) :
    Effect l l' e b.state b'.state := by
  unfold applyChangelog at h
  split at h
  next =>
    split at h
    next hs => rw [hs]; cases h; exact .beginApply rfl rfl
    next => cases h; exact .stay _ rfl
  next =>
    split at h
    · cases h; exact .stay _ rfl
    · cases h
  next =>
    split at h
    next =>
      split at h
      · cases h; exact .stay _ rfl
      · cases h; exact .throwApply _ rfl rfl rfl
    next => cases h
  next => cases h; exact .stay _ rfl
  next success =>
    cases h
    cases success
    · exact .stay _ rfl
    · exact .stay _ rfl
  next => cases h; exact .failApply _ rfl rfl
  next =>
    split at h
    · cases h; exact .stay _ rfl
    · cases h
  next => cases h

theorem atomicSwap_effect (h : atomicSwap b l e = some (b', l')) :
    Effect l l' e b.state b'.state := by
  unfold atomicSwap at h
  split at h
  next =>
    split at h
    next hs => rw [hs]; cases h; exact .beginSwap rfl rfl
    next => cases h; exact .stay _ rfl
  next outcome =>
    cases h
    split
    · exact .callSwap _ rfl rfl
    · exact .callSwap _ rfl rfl
  next => cases h; exact .failSwap _ rfl rfl
  next => cases h; exact .finishSwap _ rfl rfl
  next => cases h

/-- A step is a call, a return, or a step of one of the four functions. -/
theorem builderStep_cases (h : builderStep ops b l e = some (b', l')) :
    (l = .idle ∧ calls e = some l' ∧ b' = b) ∨
    (∃ r, l = .returning r ∧ e = .ret r ∧ b' = b ∧ l' = .idle) ∨
    fillIndexParallel ops b l e = some (b', l') ∨ bufferWrite b l e = some (b', l') ∨
    applyChangelog b l e = some (b', l') ∨ atomicSwap b l e = some (b', l') := by
  unfold builderStep at h
  split at h
  next =>
    obtain ⟨l₁, hc, hl₁⟩ := Option.map_eq_some_iff.mp h
    cases hl₁
    exact .inl ⟨rfl, hc, rfl⟩
  next =>
    split at h
    next hr => cases h; exact .inr (.inl ⟨_, rfl, by rw [hr], rfl, rfl⟩)
    next => cases h
  next =>
    simp only [Option.orElse_eq_or, Option.or_eq_some_iff] at h
    tauto

theorem builderStep_effect (h : builderStep ops b l e = some (b', l')) :
    Effect l l' e b.state b'.state := by
  obtain ⟨hl, hc, hb⟩ | ⟨r, hl, he, hb, hl'⟩ | hf | hw | ha | hs := builderStep_cases ops h
  · rw [hb, hl]
    cases e <;> cases hc <;> exact .stay _ rfl
  · rw [hb, hl, hl', he]
    cases r with
    | fillIndexParallel value =>
      cases value
      · exact .stay _ rfl
      · exact .endFill _ rfl rfl rfl
    | bufferWrite entry value => exact .stay _ rfl
    | applyChangelog value =>
      cases value
      · exact .stay _ rfl
      · exact .endApply _ rfl rfl rfl
    | applyChangelogThrew => exact .stay _ rfl
    | atomicSwap value => exact .stay _ rfl
  · exact fillIndexParallel_effect ops hf
  · exact bufferWrite_effect hw
  · exact applyChangelog_effect ha
  · exact atomicSwap_effect hs

theorem swapCallback_phase {o : Outcome}
    (h : builderStep ops b l (.swapCallback o) = some (b', l')) : l = .swapCall := by
  cases l <;>
    simp_all [builderStep, calls, fillIndexParallel, bufferWrite, applyChangelog, atomicSwap]

end Steps
/-! ### The invariant of runs without an early swap -/

section Runs
variable {T : Type}

def Filled (past : List (T × Event)) : Prop := ∃ t, (t, .ret (.fillIndexParallel true)) ∈ past
def Applied (past : List (T × Event)) : Prop := ∃ t, (t, .ret (.applyChangelog true)) ∈ past

/-- When the swap callback is called, nobody has given the build up, no fill
and no changelog application is under way, and no applier has thrown. -/
def QuietSwap (past : List (T × Event)) (c : Config T RocksDBBuilderIndexEE Control)
    (x : T × Event) : Prop :=
  c.control x.1 = .swapCall → c.shared.state = .kSwapping ∧
    (∀ t, phase (c.control t) ≠ .fill ∧ phase (c.control t) ≠ .apply) ∧
      ∀ y ∈ past, applierThrew y.2 = false

instance [Fintype T] (past : List (T × Event)) (c : Config T RocksDBBuilderIndexEE Control)
    (x : T × Event) : Decidable (QuietSwap past c x) := by
  unfold QuietSwap
  infer_instance

/- The states a thread in the phase may find. -/
def Phase.allows : Phase → BuildState → Prop
  | .none, _ => True
  | .fill, s => s ≠ .kIdle ∧ s ≠ .kComplete
  | .apply, s => s = .kApplyingChangelog ∨ s = .kSwapping ∨ s = .kFailed
  | .swap, s => s = .kSwapping ∨ s = .kFailed
  | .publish, s => s = .kSwapping

def Phase.swaps (p : Phase) : Prop := p = .swap ∨ p = .publish

def Phase.works (p : Phase) : Prop := p = .fill ∨ p = .apply

structure Lifecycle (past : List (T × Event)) (s : BuildState) (ph : T → Phase) : Prop where
  allows : ∀ t, (ph t).allows s
  single : ∀ t u, (ph t).swaps → (ph u).swaps → t = u
  quiet : ∀ t u, ph t = .publish → ¬ (ph u).works
  filled : s = .kBuilding ∨ s = .kApplyingChangelog ∨ s = .kSwapping →
    (∃ t, ph t = .fill) ∨ Filled past
  applied : s = .kApplyingChangelog ∨ s = .kSwapping →
    (∃ t, ph t = .apply) ∨ Applied past ∨ ∃ y ∈ past, applierThrew y.2 = true

theorem Filled.snoc {past : List (T × Event)} (h : Filled past) (x : T × Event) :
    Filled (past ++ [x]) := by
  obtain ⟨t, ht⟩ := h
  exact ⟨t, List.mem_append_left _ ht⟩

theorem Applied.snoc {past : List (T × Event)} (h : Applied past) (x : T × Event) :
    Applied (past ++ [x]) := by
  obtain ⟨t, ht⟩ := h
  exact ⟨t, List.mem_append_left _ ht⟩

theorem thrown_snoc {past : List (T × Event)} (h : ∃ y ∈ past, applierThrew y.2 = true)
    (x : T × Event) : ∃ y ∈ past ++ [x], applierThrew y.2 = true := by
  obtain ⟨y, hy, ht⟩ := h
  exact ⟨y, List.mem_append_left _ hy, ht⟩

section Step
variable {l l' : Control} {e : Event} {s s' : BuildState} (h : Effect l l' e s s')
include h

/-- The thread that steps finds its new phase allowed. -/
theorem Effect.allows_self (hl : (phase l).allows s) (hq : l = .swapCall → s = .kSwapping) :
    (phase l').allows s' := by
  cases h with
  | stay _ hp => rw [hp]; exact hl
  | callSwap _ hc hp => rw [hp]; exact hq hc
  | beginFill _ hp => rw [hp]; simp [Phase.allows]
  | beginApply _ hp => rw [hp]; simp [Phase.allows]
  | beginSwap _ hp => rw [hp]; simp [Phase.allows]
  | failFill _ _ hp => rw [hp]; trivial
  | endFill _ _ hp => rw [hp]; trivial
  | failApply _ _ hp => rw [hp]; trivial
  | endApply _ _ hp => rw [hp]; trivial
  | throwApply _ _ hp => rw [hp]; trivial
  | failSwap _ _ hp => rw [hp]; trivial
  | finishSwap _ _ hp => rw [hp]; trivial

theorem Effect.allows_other {q : Phase} (hl : (phase l).allows s) (hq : q.allows s)
    (hsingle : (phase l).swaps → ¬ q.swaps) (hquiet : phase l = .publish → ¬ q.works)
    (hquiet' : q = .publish → ¬ (phase l).works) : q.allows s' := by
  cases h with
  | stay | endFill | endApply | throwApply | callSwap => exact hq
  | beginFill | beginApply | beginSwap => cases q <;> simp_all [Phase.allows]
  | failFill _ hp => cases q <;> simp_all [Phase.allows, Phase.works]
  | failApply _ hp => cases q <;> simp_all [Phase.allows, Phase.works]
  | failSwap _ hp => cases q <;> simp_all [Phase.allows, Phase.swaps]
  | finishSwap _ hp => cases q <;> simp_all [Phase.allows, Phase.swaps, Phase.works]

theorem Effect.filled (hs : s' = .kBuilding ∨ s' = .kApplyingChangelog ∨ s' = .kSwapping) :
    phase l' = .fill ∨ ((s = .kBuilding ∨ s = .kApplyingChangelog ∨ s = .kSwapping) ∧
      (phase l = .fill → e = .ret (.fillIndexParallel true))) := by
  cases h with
  | stay _ hp => rw [hp]; tauto
  | beginFill _ hp => exact .inl hp
  | endFill _ _ _ he => exact .inr ⟨hs, fun _ => he⟩
  | beginApply hp => exact .inr ⟨.inl rfl, fun hf => by rw [hp] at hf; cases hf⟩
  | beginSwap hp => exact .inr ⟨.inr (.inl rfl), fun hf => by rw [hp] at hf; cases hf⟩
  | endApply _ hp => exact .inr ⟨hs, fun hf => by rw [hp] at hf; cases hf⟩
  | throwApply _ hp => exact .inr ⟨hs, fun hf => by rw [hp] at hf; cases hf⟩
  | callSwap _ hc => exact .inr ⟨hs, fun hf => by rw [hc] at hf; cases hf⟩
  | failFill | failApply | failSwap | finishSwap => simp at hs

theorem Effect.applied (hs : s' = .kApplyingChangelog ∨ s' = .kSwapping) :
    phase l' = .apply ∨ ((s = .kApplyingChangelog ∨ s = .kSwapping) ∧
      (phase l = .apply → e = .ret (.applyChangelog true) ∨ applierThrew e = true)) := by
  cases h with
  | stay _ hp => rw [hp]; tauto
  | beginApply _ hp => exact .inl hp
  | endFill _ hp => exact .inr ⟨hs, fun hf => by rw [hp] at hf; cases hf⟩
  | endApply _ _ _ he => exact .inr ⟨hs, fun _ => .inl he⟩
  | throwApply _ _ _ he => exact .inr ⟨hs, fun _ => .inr he⟩
  | beginSwap hp => exact .inr ⟨.inl rfl, fun hf => by rw [hp] at hf; cases hf⟩
  | callSwap _ hc => exact .inr ⟨hs, fun hf => by rw [hc] at hf; cases hf⟩
  | beginFill | failFill | failApply | failSwap | finishSwap => simp at hs

theorem Effect.enters_swap (hp : (phase l').swaps) :
    (phase l).swaps ∨ s = .kApplyingChangelog := by
  cases h with
  | stay _ h => rw [← h]; exact .inl hp
  | beginSwap => exact .inr rfl
  | callSwap _ hc => rw [hc]; exact .inl (.inl rfl)
  | beginFill _ h | beginApply _ h => rw [h] at hp; simp [Phase.swaps] at hp
  | failFill _ _ h | endFill _ _ h | failApply _ _ h | endApply _ _ h | throwApply _ _ h
  | failSwap _ _ h | finishSwap _ _ h => rw [h] at hp; simp [Phase.swaps] at hp

theorem Effect.enters_publish (hp : phase l' = .publish) :
    phase l = .publish ∨ l = .swapCall := by
  cases h with
  | stay _ h => exact .inl (h.symm.trans hp)
  | callSwap _ hc => exact .inr hc
  | beginFill _ h | beginApply _ h | beginSwap _ h => rw [h] at hp; cases hp
  | failFill _ _ h | endFill _ _ h | failApply _ _ h | endApply _ _ h | throwApply _ _ h
  | failSwap _ _ h | finishSwap _ _ h => rw [h] at hp; cases hp

theorem Effect.enters_work (hp : (phase l').works) :
    (phase l).works ∨ s = .kIdle ∨ s = .kBuilding := by
  cases h with
  | stay _ h => rw [← h]; exact .inl hp
  | beginFill => exact .inr (.inl rfl)
  | beginApply => exact .inr (.inr rfl)
  | beginSwap _ h => rw [h] at hp; simp [Phase.works] at hp
  | callSwap _ _ h => rw [h] at hp; simp [Phase.works] at hp
  | failFill _ _ h | endFill _ _ h | failApply _ _ h | endApply _ _ h | throwApply _ _ h
  | failSwap _ _ h | finishSwap _ _ h => rw [h] at hp; simp [Phase.works] at hp

theorem Effect.final (hl : (phase l).allows s) (hs : s = .kComplete ∨ s = .kFailed) : s' = s := by
  cases h with
  | stay | endFill | endApply | throwApply | callSwap => rfl
  | beginFill | beginApply | beginSwap => simp at hs
  | failFill _ hp | failApply _ hp => rw [hp] at hl; cases hs <;> simp_all [Phase.allows]
  | failSwap _ hp | finishSwap _ hp => rw [hp] at hl; cases hs <;> simp_all [Phase.allows]

end Step

/-- At the swap callback of a quiet run both earlier phases have returned. -/
theorem Lifecycle.published {past : List (T × Event)} {ph : T → Phase}
    (hI : Lifecycle past .kSwapping ph) (hw : ∀ t, ph t ≠ .fill ∧ ph t ≠ .apply)
    (ht : ∀ y ∈ past, applierThrew y.2 = false) : Filled past ∧ Applied past := by
  constructor
  · cases hI.filled (.inr (.inr rfl)) with
    | inl h => obtain ⟨t, h⟩ := h; exact absurd h (hw t).1
    | inr h => exact h
  · obtain ⟨t, h⟩ | h | ⟨y, hy, h⟩ := hI.applied (.inr rfl)
    · exact absurd h (hw t).2
    · exact h
    · rw [ht y hy] at h
      cases h

variable [DecidableEq T]

section Next
variable {past : List (T × Event)} {s s' : BuildState} {ctl : T → Control} {x : T × Event}
  {l' : Control}

theorem phase_self : phase (Function.update ctl x.1 l' x.1) = phase l' := by
  rw [Function.update_self]

theorem phase_other {t : T} (ht : t ≠ x.1) :
    phase (Function.update ctl x.1 l' t) = phase (ctl t) := by
  rw [Function.update_of_ne ht]

theorem Lifecycle.single_next (hI : Lifecycle past s fun t => phase (ctl t))
    (hE : Effect (ctl x.1) l' x.2 s s') (t u : T)
    (ht : (phase (Function.update ctl x.1 l' t)).swaps)
    (hu : (phase (Function.update ctl x.1 l' u)).swaps) : t = u := by
  have key : ∀ u, u ≠ x.1 → (phase l').swaps → ¬ (phase (ctl u)).swaps := by
    intro u hu hp hs
    cases hE.enters_swap hp with
    | inl hx => exact hu (hI.single u x.1 hs hx)
    | inr hst =>
      have ha := hI.allows u
      rw [hst] at ha
      obtain h | h := hs
      · rw [h] at ha; simp [Phase.allows] at ha
      · rw [h] at ha; simp [Phase.allows] at ha
  refine unique_of_frame (P := Phase.swaps) (fun _ => phase_other) hI.single
    (fun hl t ht => ?_) t u ht hu
  rw [phase_self] at hl
  exact key t ht hl

/-- A publishing thread was publishing before, or it is at its callback now. -/
theorem Lifecycle.publish_next (hI : Lifecycle past s fun t => phase (ctl t))
    (hE : Effect (ctl x.1) l' x.2 s s')
    (hq : ctl x.1 = .swapCall → s = .kSwapping ∧ ∀ t, ¬ (phase (ctl t)).works) {t : T}
    (ht : phase (Function.update ctl x.1 l' t) = .publish) :
    s = .kSwapping ∧ ∀ u, ¬ (phase (ctl u)).works := by
  have hbefore : ∀ t, phase (ctl t) = .publish → s = .kSwapping ∧ ∀ u, ¬ (phase (ctl u)).works := by
    intro t ht
    have ha := hI.allows t
    rw [ht] at ha
    exact ⟨ha, fun u => hI.quiet t u ht⟩
  by_cases htx : t = x.1
  · rw [htx, phase_self] at ht
    cases hE.enters_publish ht with
    | inl h => exact hbefore x.1 h
    | inr h => exact hq h
  · rw [phase_other htx] at ht
    exact hbefore t ht

theorem Lifecycle.quiet_next (hI : Lifecycle past s fun t => phase (ctl t))
    (hE : Effect (ctl x.1) l' x.2 s s')
    (hq : ctl x.1 = .swapCall → s = .kSwapping ∧ ∀ t, ¬ (phase (ctl t)).works) (t u : T)
    (ht : phase (Function.update ctl x.1 l' t) = .publish) :
    ¬ (phase (Function.update ctl x.1 l' u)).works := by
  intro hu
  obtain ⟨hs, hw⟩ := hI.publish_next hE hq ht
  by_cases hux : u = x.1
  · rw [hux, phase_self] at hu
    obtain h | h | h := hE.enters_work hu
    · exact hw x.1 h
    · rw [h] at hs; cases hs
    · rw [h] at hs; cases hs
  · rw [phase_other hux] at hu
    exact hw u hu

theorem Lifecycle.filled_next (hI : Lifecycle past s fun t => phase (ctl t))
    (hE : Effect (ctl x.1) l' x.2 s s')
    (hs' : s' = .kBuilding ∨ s' = .kApplyingChangelog ∨ s' = .kSwapping) :
    (∃ t, phase (Function.update ctl x.1 l' t) = .fill) ∨ Filled (past ++ [x]) := by
  have hlast : (x.1, x.2) ∈ past ++ [x] := List.mem_append_right _ (List.mem_singleton_self x)
  cases hE.filled hs' with
  | inl hp => exact .inl ⟨x.1, phase_self.trans hp⟩
  | inr h =>
    obtain ⟨hs, he⟩ := h
    cases hI.filled hs with
    | inr hf => exact .inr (hf.snoc x)
    | inl hf =>
      obtain ⟨t, ht⟩ := hf
      by_cases htx : t = x.1
      · subst htx
        rw [he ht] at hlast
        exact .inr ⟨x.1, hlast⟩
      · exact .inl ⟨t, (phase_other htx).trans ht⟩

theorem Lifecycle.applied_next (hI : Lifecycle past s fun t => phase (ctl t))
    (hE : Effect (ctl x.1) l' x.2 s s') (hs' : s' = .kApplyingChangelog ∨ s' = .kSwapping) :
    (∃ t, phase (Function.update ctl x.1 l' t) = .apply) ∨ Applied (past ++ [x]) ∨
      ∃ y ∈ past ++ [x], applierThrew y.2 = true := by
  have hlast : (x.1, x.2) ∈ past ++ [x] := List.mem_append_right _ (List.mem_singleton_self x)
  cases hE.applied hs' with
  | inl hp => exact .inl ⟨x.1, phase_self.trans hp⟩
  | inr h =>
    obtain ⟨hs, he⟩ := h
    obtain ⟨t, ht⟩ | hf | hf := hI.applied hs
    · by_cases htx : t = x.1
      · subst htx
        cases he ht with
        | inl he =>
          rw [he] at hlast
          exact .inr (.inl ⟨x.1, hlast⟩)
        | inr he => exact .inr (.inr ⟨x, hlast, he⟩)
      · exact .inl ⟨t, (phase_other htx).trans ht⟩
    · exact .inr (.inl (hf.snoc x))
    · exact .inr (.inr (thrown_snoc hf x))

theorem Lifecycle.next (hI : Lifecycle past s fun t => phase (ctl t))
    (hE : Effect (ctl x.1) l' x.2 s s')
    (hq : ctl x.1 = .swapCall → s = .kSwapping ∧
      (∀ t, phase (ctl t) ≠ .fill ∧ phase (ctl t) ≠ .apply) ∧ ∀ y ∈ past, applierThrew y.2 = false) :
    Lifecycle (past ++ [x]) s' fun t => phase (Function.update ctl x.1 l' t) := by
  have hquiet : ctl x.1 = .swapCall → s = .kSwapping ∧ ∀ t, ¬ (phase (ctl t)).works := by
    intro hc
    obtain ⟨hs, hw, -⟩ := hq hc
    exact ⟨hs, fun t ht => ht.elim (hw t).1 (hw t).2⟩
  constructor
  case allows =>
    intro t
    by_cases ht : t = x.1
    · rw [ht, phase_self]
      exact hE.allows_self (hI.allows _) fun hc => (hq hc).1
    · rw [phase_other ht]
      apply hE.allows_other (hI.allows x.1) (hI.allows t)
      · intro hx hs
        exact ht (hI.single t x.1 hs hx)
      · exact hI.quiet x.1 t
      · exact hI.quiet t x.1
  case single => exact hI.single_next hE
  case quiet => exact hI.quiet_next hE hquiet
  case filled => exact hI.filled_next hE
  case applied => exact hI.applied_next hE

end Next

variable {F : Type} (ops : FractionOps F)

theorem run_lifecycle {past tr : List (T × Event)}
    {c c' : Config T RocksDBBuilderIndexEE Control}
    (hI : Lifecycle past c.shared.state fun t => phase (c.control t))
    (hq : EachStep (builderStep ops) QuietSwap past c tr)
    (h : exec (builderStep ops) c tr = some c') :
    Lifecycle (past ++ tr) c'.shared.state fun t => phase (c'.control t) := by
  apply exec_rule (P := QuietSwap)
    (fun past c => Lifecycle past c.shared.state fun t => phase (c.control t)) _ tr past c c' hI hq h
  intro past c x c' hI hP hf
  obtain ⟨b, l, hs, rfl⟩ := fire_inv hf
  exact hI.next (builderStep_effect ops hs) hP

omit [DecidableEq T] in
theorem start_lifecycle (config : IndexBuilderConfig) :
    Lifecycle ([] : List (T × Event)) (start (T := T) config).shared.state
      fun t => phase ((start (T := T) config).control t) where
  allows _ := trivial
  single _ _ h := by simp [start, phase, Phase.swaps] at h
  quiet _ _ h := by simp [start, phase] at h
  filled h := by simp [start, RocksDBBuilderIndexEE.new] at h
  applied h := by simp [start, RocksDBBuilderIndexEE.new] at h

theorem run_final {past tr : List (T × Event)} {c c' : Config T RocksDBBuilderIndexEE Control}
    (hI : Lifecycle past c.shared.state fun t => phase (c.control t))
    (hq : EachStep (builderStep ops) QuietSwap past c tr)
    (h : exec (builderStep ops) c tr = some c')
    (hs : c.shared.state = .kComplete ∨ c.shared.state = .kFailed) :
    c'.shared.state = c.shared.state := by
  have key : Lifecycle (past ++ tr) c'.shared.state (fun t => phase (c'.control t)) ∧
      c'.shared.state = c.shared.state := by
    apply exec_rule (P := QuietSwap) (fun past d =>
      Lifecycle past d.shared.state (fun t => phase (d.control t)) ∧
        d.shared.state = c.shared.state) _ tr past c c' ⟨hI, rfl⟩ hq h
    intro past d x d' hd hP hf
    obtain ⟨b, l, hstep, rfl⟩ := fire_inv hf
    have hE := builderStep_effect ops hstep
    refine ⟨hd.1.next hE hP, ?_⟩
    rw [← hd.2] at hs ⊢
    exact hE.final (hd.1.allows x.1) hs
  exact key.2

/-! ### Results -/

def CompleteBeforeSwap (tr : List (T × Event)) : Prop :=
  ∀ before t o, before ++ [(t, .swapCallback o)] <+: tr → Filled before ∧ Applied before

def FinalStatesStay (config : IndexBuilderConfig) (tr : List (T × Event)) : Prop :=
  ∀ before later c c', before <+: later → later <+: tr →
    exec (builderStep ops) (start config) before = some c →
    exec (builderStep ops) (start config) later = some c' →
    (c.shared.state = .kComplete ∨ c.shared.state = .kFailed) → c'.shared.state = c.shared.state

/-- A run whose swaps are quiet publishes only complete builds. -/
theorem quiet_swaps_publish_complete_builds (config : IndexBuilderConfig) (tr : List (T × Event))
    (c : Config T RocksDBBuilderIndexEE Control)
    (h : exec (builderStep ops) (start config) tr = some c)
    (hq : EachStep (builderStep ops) QuietSwap [] (start config) tr) :
    CompleteBeforeSwap tr ∧ FinalStatesStay ops config tr := by
  constructor
  · intro before t o hx
    obtain ⟨c₁, c₂, hb, hf⟩ := exec_at h hx
    obtain ⟨hqb, hP⟩ := eachStep_at hq hx hb
    obtain ⟨b, l, hs, -⟩ := fire_inv hf
    obtain ⟨hstate, hw, ht⟩ := hP (swapCallback_phase ops hs)
    have hI := run_lifecycle ops (start_lifecycle config) hqb hb
    rw [hstate] at hI
    exact hI.published hw ht
  · intro before later c₁ c₂ hbl hlt h₁ h₂ hs
    obtain ⟨mid, rfl⟩ := hbl
    obtain ⟨rest, rfl⟩ := hlt
    have hex : exec (builderStep ops) c₁ mid = some c₂ := by
      rw [exec_append, h₁] at h₂
      exact h₂
    rw [eachStep_append [] _ c₂ _ _ h₂, eachStep_append [] _ c₁ _ _ h₁] at hq
    have hI := run_lifecycle ops (start_lifecycle config) hq.1.1 h₁
    exact run_final ops hI hq.1.2 hex hs

end Runs

inductive TwoThreads where
  | first
  | second
  deriving DecidableEq

instance : Fintype TwoThreads := ⟨{.first, .second}, fun t => by cases t <;> decide⟩

/- A fill of one partition, an empty changelog and a swap, one after the other. -/
def orderlyRun : List (TwoThreads × Event) :=
  [(.first, .callFillIndexParallel [] []), (.first, .step), (.first, .submit true), (.first, .step),
    (.first, .future (.returned true)), (.first, .step), (.first, .ret (.fillIndexParallel true)),
    (.second, .callApplyChangelog), (.second, .step), (.second, .lock),
    (.second, .step), (.second, .step), (.second, .ret (.applyChangelog true)),
    (.second, .callAtomicSwap), (.second, .step),
    (.second, .swapCallback (.returned true)), (.second, .step), (.second, .ret (.atomicSwap true))]

theorem orderlyRun_publishes_complete_build :
    CompleteBeforeSwap orderlyRun ∧ FinalStatesStay exactOps ⟨1, 1, true⟩ orderlyRun := by
  have h : (exec (builderStep exactOps) (start ⟨1, 1, true⟩) orderlyRun).isSome = true := by decide
  obtain ⟨c, hc⟩ := Option.isSome_iff_exists.mp h
  exact quiet_swaps_publish_complete_builds exactOps ⟨1, 1, true⟩ orderlyRun c hc (by decide)

/- The fill is still waiting for its task when the changelog is applied and
swapped; then the task fails. -/
def overtakingSwap : List (TwoThreads × Event) :=
  [(.first, .callFillIndexParallel [] []), (.first, .step), (.first, .submit true), (.first, .step),
    (.second, .callApplyChangelog), (.second, .step), (.second, .lock),
    (.second, .step), (.second, .step), (.second, .ret (.applyChangelog true)),
    (.second, .callAtomicSwap), (.second, .step)]

def overtakenFill : List (TwoThreads × Event) :=
  [(.first, .future (.returned false)), (.first, .step), (.first, .step),
    (.first, .ret (.fillIndexParallel false))]

def stateAfter (tr : List (TwoThreads × Event)) : Option BuildState :=
  (exec (builderStep exactOps) (start ⟨1, 1, true⟩) tr).map fun c => c.shared.state

theorem swap_publishes_unfinished_fill :
    ∃ (swapped failed : List (TwoThreads × Event)), swapped <+: failed ∧
      stateAfter swapped = some .kComplete ∧ stateAfter failed = some .kFailed ∧
      ¬ CompleteBeforeSwap swapped ∧ ¬ FinalStatesStay exactOps ⟨1, 1, true⟩ failed := by
  have hc : stateAfter (overtakingSwap ++
      [(.second, .swapCallback (.returned true)), (.second, .step)]) = some .kComplete := by decide
  have hf : stateAfter (overtakingSwap ++
      [(.second, .swapCallback (.returned true)), (.second, .step)] ++ overtakenFill) =
        some .kFailed := by decide
  refine ⟨_, _, List.prefix_append _ _, hc, hf, ?_, ?_⟩
  · intro h
    have hx := (h overtakingSwap .second (.returned true)
      ⟨[(.second, .step)], by rw [List.append_assoc]; rfl⟩).1
    revert hx
    unfold Filled
    decide
  · intro h
    obtain ⟨c, hc₁, hcs⟩ := Option.map_eq_some_iff.mp hc
    obtain ⟨d, hd₁, hds⟩ := Option.map_eq_some_iff.mp hf
    have hx := h _ _ c d (List.prefix_append _ _) (List.prefix_refl _) hc₁ hd₁ (.inl hcs)
    rw [hcs, hds] at hx
    cases hx

end RocksDBBuilderIndexEE
end OpenArangoDBCore.RocksDBEngine
