import Mathlib.Data.List.TakeWhile
import OpenArangoDBCore.RocksDBEngine.BuilderLifecycle

/-!
# Acknowledged background writes

`bufferWrite` checks the state and appends in two steps, and the changelog is
locked for the scan and again for the clear. A write that is appended after
the scan has begun waits for the scan to end and is then cleared away.
-/

namespace OpenArangoDBCore.RocksDBEngine
namespace RocksDBBuilderIndexEE
open Interleaving

/- `each rest` is the scan of an applier that has accepted everything so far. -/
inductive Stage where
  | outside
  | locking
  | each (rest : List ChangelogEntry)
  | done
  deriving DecidableEq

def stage : Control → Stage
  | .applyLock => .locking
  | .applyEach rest true => .each rest
  | .applyClear => .done
  | .returning (.applyChangelog true) => .done
  | _ => .outside

def acceptedEntry : Event → Option ChangelogEntry
  | .append entry true => some entry
  | _ => none

def appliedEntry : Event → Option ChangelogEntry
  | .applier entry _ => some entry
  | _ => none

/-- A step that touches neither the order of writes nor the scan. -/
def Plain (e : Event) : Prop := acceptedEntry e = none ∧ appliedEntry e = none ∧ e ≠ .lock

/-! ### What a step does to the changelog -/

inductive LogEffect (l l' : Control) (e : Event) (s s' : BuildState) (es : List ChangelogEntry) :
    List ChangelogEntry → Prop where
  | plain : Plain e → stage l' = stage l ∨ stage l' = .outside → LogEffect l l' e s s' es es
  | enter : Plain e → stage l = .outside → stage l' = .locking → s = .kBuilding →
      s' = .kApplyingChangelog → LogEffect l l' e s s' es es
  | write (entry : ChangelogEntry) : e = .append entry true → stage l = .outside →
      stage l' = .outside → LogEffect l l' e s s' es (es ++ [entry])
  | scan : e = .lock → stage l = .locking → stage l' = .each es → LogEffect l l' e s s' es es
  | apply (entry : ChangelogEntry) (rest : List ChangelogEntry) (outcome : Outcome) :
      e = .applier entry outcome → stage l = .each (entry :: rest) →
      stage l' = .each rest ∨ stage l' = .outside → LogEffect l l' e s s' es es
  | finish : Plain e → stage l = .each [] → stage l' = .done → LogEffect l l' e s s' es es
  | clear : Plain e → stage l = .done → stage l' = .done → LogEffect l l' e s s' es []

section Steps
variable {F : Type} (ops : FractionOps F) {b b' : RocksDBBuilderIndexEE} {l l' : Control}
  {e : Event}

theorem plain_step : Plain .step := ⟨rfl, rfl, by simp⟩

theorem fillIndexParallel_logEffect (h : fillIndexParallel ops b l e = some (b', l')) :
    LogEffect l l' e b.state b'.state b.changelog.entries b'.changelog.entries := by
  unfold fillIndexParallel at h
  split at h
  next =>
    split at h
    next =>
      dsimp only at h
      split at h
      · cases h; exact .plain plain_step (.inl rfl)
      · cases h; exact .plain plain_step (.inl rfl)
    next => cases h; exact .plain plain_step (.inl rfl)
  next =>
    split at h
    · cases h; exact .plain ⟨rfl, rfl, by simp⟩ (.inl rfl)
    · cases h; exact .plain ⟨rfl, rfl, by simp⟩ (.inl rfl)
  next => cases h; exact .plain plain_step (.inl rfl)
  next => cases h; exact .plain ⟨rfl, rfl, by simp⟩ (.inl rfl)
  next =>
    split at h
    · cases h; exact .plain plain_step (.inl rfl)
    · cases h; exact .plain plain_step (.inl rfl)
  next => cases h; exact .plain plain_step (.inl rfl)
  next => cases h

theorem bufferWrite_logEffect (h : bufferWrite b l e = some (b', l')) :
    LogEffect l l' e b.state b'.state b.changelog.entries b'.changelog.entries := by
  unfold bufferWrite at h
  split at h
  next =>
    split at h
    · cases h; exact .plain plain_step (.inl rfl)
    · cases h; exact .plain plain_step (.inl rfl)
  next entry appended accepted =>
    split at h
    next hc =>
      obtain ⟨-, happ, hacc⟩ := hc
      cases h
      have hes := b.changelog.append_entries entry
      rw [← ChangelogBuffer.append_accepted, ← hacc] at hes
      rw [hes, happ]
      cases accepted
      · exact .plain ⟨rfl, rfl, by simp⟩ (.inl rfl)
      · exact .write entry rfl rfl rfl
    next => cases h
  next => cases h

theorem applyChangelog_logEffect (h : applyChangelog b l e = some (b', l')) :
    LogEffect l l' e b.state b'.state b.changelog.entries b'.changelog.entries := by
  unfold applyChangelog at h
  split at h
  next =>
    split at h
    next hs => cases h; exact .enter plain_step rfl rfl hs rfl
    next => cases h; exact .plain plain_step (.inl rfl)
  next =>
    split at h
    · cases h; exact .scan rfl rfl rfl
    · cases h
  next entry rest applied outcome =>
    split at h
    next happ =>
      rw [happ]
      split at h
      next value =>
        cases h
        cases value
        · exact .apply entry rest _ rfl rfl (.inr rfl)
        · exact .apply entry rest _ rfl rfl (.inl rfl)
      next => cases h; exact .apply entry rest _ rfl rfl (.inr rfl)
    next => cases h
  next => cases h; exact .plain plain_step (.inl rfl)
  next success =>
    cases h
    cases success
    · exact .plain plain_step (.inl rfl)
    · exact .finish plain_step rfl rfl
  next => cases h; exact .plain plain_step (.inl rfl)
  next =>
    split at h
    · cases h; exact .clear plain_step rfl rfl
    · cases h
  next => cases h

theorem atomicSwap_logEffect (h : atomicSwap b l e = some (b', l')) :
    LogEffect l l' e b.state b'.state b.changelog.entries b'.changelog.entries := by
  unfold atomicSwap at h
  split at h
  next =>
    split at h
    · cases h; exact .plain plain_step (.inl rfl)
    · cases h; exact .plain plain_step (.inl rfl)
  next =>
    cases h
    refine .plain ⟨rfl, rfl, by simp⟩ (.inl ?_)
    split
    · rfl
    · rfl
  next => cases h; exact .plain plain_step (.inl rfl)
  next => cases h; exact .plain plain_step (.inl rfl)
  next => cases h

theorem builderStep_logEffect (h : builderStep ops b l e = some (b', l')) :
    LogEffect l l' e b.state b'.state b.changelog.entries b'.changelog.entries := by
  obtain ⟨hl, hc, hb⟩ | ⟨r, hl, he, hb, hl'⟩ | hf | hw | ha | hs := builderStep_cases ops h
  · rw [hb]
    cases e <;> cases hc <;> exact .plain ⟨rfl, rfl, by simp⟩ (.inr rfl)
  · rw [hb, hl']
    exact .plain (by rw [he]; exact ⟨rfl, rfl, by simp⟩) (.inr rfl)
  · exact fillIndexParallel_logEffect ops hf
  · exact bufferWrite_logEffect hw
  · exact applyChangelog_logEffect ha
  · exact atomicSwap_logEffect hs

theorem append_control {entry : ChangelogEntry} {accepted : Bool}
    (h : builderStep ops b l (.append entry accepted) = some (b', l')) :
    l = .writeAppend entry ∧ accepted = b.changelog.admits entry := by
  rw [← ChangelogBuffer.append_accepted]
  cases l with
  | writeAppend entry' =>
    dsimp only [builderStep, bufferWrite] at h
    split at h
    next hc =>
      obtain ⟨-, rfl, haccepted⟩ := hc
      exact ⟨rfl, haccepted⟩
    next => cases h
  | fillSubmit partitions _ => cases partitions <;> cases h
  | fillWait futures _ => cases futures <;> cases h
  | applyEach entries success => cases entries <;> cases success <;> cases h
  | _ => cases h

theorem writeAppend_event {entry : ChangelogEntry}
    (h : builderStep ops b (.writeAppend entry) e = some (b', l')) :
    e = .append entry (b.changelog.admits entry) := by
  rw [← ChangelogBuffer.append_accepted]
  cases e with
  | append appended accepted =>
    dsimp only [builderStep, bufferWrite] at h
    split at h
    next hc => exact congrArg₂ _ hc.2.1 hc.2.2
    next => cases h
  | _ => cases h

theorem accepted_iff (h : builderStep ops b l e = some (b', l')) (entry : ChangelogEntry) :
    acceptedEntry e = some entry ↔ l = .writeAppend entry ∧ b.changelog.admits entry = true := by
  constructor
  · intro he
    have hea : e = .append entry true := by
      unfold acceptedEntry at he
      split at he
      · cases he; rfl
      · cases he
    rw [hea] at h
    obtain ⟨hl, ha⟩ := append_control ops h
    exact ⟨hl, ha.symm⟩
  · intro hl
    obtain ⟨hl, ha⟩ := hl
    rw [hl] at h
    rw [writeAppend_event ops h, ha]
    rfl

theorem acknowledge_event {entry : ChangelogEntry}
    (h : builderStep ops b l e = some (b', .returning (.bufferWrite entry true))) :
    e = .append entry true := by
  obtain ⟨hl, hc, hb⟩ | ⟨r, hl, he, hb, hl'⟩ | hf | hw | ha | hs := builderStep_cases ops h
  · cases e <;> cases hc
  · cases hl'
  · unfold fillIndexParallel at hf
    dsimp only at hf
    split at hf <;> (try split_ifs at hf) <;> simp at hf
  · unfold bufferWrite at hw
    split at hw
    next => split_ifs at hw <;> simp at hw
    next =>
      split_ifs at hw with hc
      obtain ⟨-, happ, hacc⟩ := hc
      simp only [Option.some.injEq, Prod.mk.injEq, Control.returning.injEq,
        Returned.bufferWrite.injEq] at hw
      rw [happ, hw.2.1, hw.2.2]
    next => cases hw
  · unfold applyChangelog at ha
    split at ha <;> (try split_ifs at ha) <;> (try split at ha) <;> simp at ha
  · unfold atomicSwap at hs
    split at hs <;> (try split_ifs at hs) <;> simp at hs

theorem ret_control {r : Returned} (h : builderStep ops b l (.ret r) = some (b', l')) :
    l = .returning r := by
  cases l with
  | returning r' =>
    dsimp only [builderStep] at h
    split at h
    next heq => exact congrArg _ heq.symm
    next => cases h
  | fillSubmit partitions _ => cases partitions <;> cases h
  | fillWait futures _ => cases futures <;> cases h
  | applyEach entries success => cases entries <;> cases success <;> cases h
  | _ => cases h

end Steps

section Effects
variable {l l' : Control} {e : Event} {s s' : BuildState} {es es' : List ChangelogEntry}

theorem LogEffect.outside (h : LogEffect l l' e s s' es es') (hl : stage l = .outside) :
    appliedEntry e = none ∧ e ≠ .lock := by
  cases h with
  | plain he => exact he.2
  | enter he => exact he.2
  | write entry he => rw [he]; exact ⟨rfl, by simp⟩
  | scan _ h | apply _ _ _ _ h | finish _ h | clear _ h => rw [h] at hl; cases hl

theorem LogEffect.active (h : LogEffect l l' e s s' es es') (hl : stage l' ≠ .outside) :
    stage l ≠ .outside ∨ s = .kBuilding := by
  cases h with
  | plain _ hp => cases hp with
    | inl hp => rw [← hp]; exact .inl hl
    | inr hp => exact absurd hp hl
  | enter _ _ _ hs => exact .inr hs
  | write _ _ _ hp => exact absurd hp hl
  | scan _ h | apply _ _ _ _ h | finish _ h | clear _ h => rw [h]; exact .inl (by simp)

theorem Effect.opened (h : Effect l l' e s s') (hs : s' = .kIdle ∨ s' = .kBuilding) :
    s = .kIdle ∨ s = .kBuilding := by
  cases h with
  | stay | endFill | endApply | throwApply | callSwap => exact hs
  | beginFill => exact .inl rfl
  | failFill | beginApply | failApply | beginSwap | failSwap | finishSwap => simp at hs

end Effects

/-! ### The order of writes, scan and clear in a run -/

section Runs
variable {T : Type}

def acknowledged (past : List (T × Event)) : List ChangelogEntry :=
  past.filterMap fun x => acceptedEntry x.2

def applied (past : List (T × Event)) : List ChangelogEntry :=
  past.filterMap fun x => appliedEntry x.2

def Unscanned (past : List (T × Event)) : Prop := ∀ x ∈ past, x.2 ≠ .lock

def beforeScan (past : List (T × Event)) : List (T × Event) :=
  past.takeWhile fun x => x.2 ≠ .lock

theorem acknowledged_snoc (past : List (T × Event)) (x : T × Event) :
    acknowledged (past ++ [x]) = acknowledged past ++ (acceptedEntry x.2).toList := by
  unfold acknowledged
  rw [List.filterMap_append]
  cases h : acceptedEntry x.2 <;> simp [h]

theorem applied_snoc (past : List (T × Event)) (x : T × Event) :
    applied (past ++ [x]) = applied past ++ (appliedEntry x.2).toList := by
  unfold applied
  rw [List.filterMap_append]
  cases h : appliedEntry x.2 <;> simp [h]

theorem unscanned_snoc (past : List (T × Event)) (x : T × Event) :
    Unscanned (past ++ [x]) ↔ Unscanned past ∧ x.2 ≠ .lock := by
  simp [Unscanned, or_imp, forall_and]

theorem beforeScan_of_unscanned {past : List (T × Event)} (h : Unscanned past) :
    beforeScan past = past :=
  List.takeWhile_eq_self_iff.mpr fun x hx => decide_eq_true (h x hx)

theorem beforeScan_append {past : List (T × Event)} (h : ¬ Unscanned past)
    (more : List (T × Event)) : beforeScan (past ++ more) = beforeScan past := by
  induction past with
  | nil => exact absurd (fun _ hx => absurd hx List.not_mem_nil) h
  | cons y ys ih =>
    by_cases hy : y.2 = .lock
    · simp [beforeScan, hy]
    · have hys : ¬ Unscanned ys := fun hu => h (List.forall_mem_cons.mpr ⟨hy, hu⟩)
      have := ih hys
      simp_all [beforeScan]

theorem beforeScan_lock {past : List (T × Event)} (h : Unscanned past) {x : T × Event}
    (hx : x.2 = .lock) : beforeScan (past ++ [x]) = past := by
  unfold beforeScan
  rw [List.takeWhile_append_of_pos fun y hy => decide_eq_true (h y hy)]
  simp [hx]

structure ScanOrder (past : List (T × Event)) (s : BuildState) (es : List ChangelogEntry)
    (st : T → Stage) : Prop where
  opened : s = .kIdle ∨ s = .kBuilding → (∀ t, st t = .outside) ∧ Unscanned past
  unique : ∀ t u, st t ≠ .outside → st u ≠ .outside → t = u
  unscanned : Unscanned past → es = acknowledged past ∧ applied past = []
  locking : ∀ t, st t = .locking → Unscanned past
  each : ∀ t rest, st t = .each rest →
    ¬ Unscanned past ∧ applied past ++ rest = acknowledged (beforeScan past)
  done : ∀ t, st t = .done → ¬ Unscanned past ∧ applied past = acknowledged (beforeScan past)

theorem scan_frame (past : List (T × Event)) {x : T × Event} (ha : appliedEntry x.2 = none)
    (hx : x.2 ≠ .lock) : (Unscanned (past ++ [x]) ↔ Unscanned past) ∧
      applied (past ++ [x]) = applied past ∧
      (¬ Unscanned past → beforeScan (past ++ [x]) = beforeScan past) := by
  refine ⟨?_, ?_, fun h => beforeScan_append h [x]⟩
  · rw [unscanned_snoc]
    exact and_iff_left hx
  · rw [applied_snoc, ha]
    exact List.append_nil _

/-- A step that neither applies an entry nor scans keeps what is left to apply. -/
theorem scanned_frame {past : List (T × Event)} {x : T × Event} {rest : List ChangelogEntry}
    (ha : appliedEntry x.2 = none) (hx : x.2 ≠ .lock)
    (h : ¬ Unscanned past ∧ applied past ++ rest = acknowledged (beforeScan past)) :
    ¬ Unscanned (past ++ [x]) ∧
      applied (past ++ [x]) ++ rest = acknowledged (beforeScan (past ++ [x])) := by
  obtain ⟨hn, hr⟩ := h
  obtain ⟨hu, ha', hb⟩ := scan_frame past ha hx
  rw [hu, ha', hb hn]
  exact ⟨hn, hr⟩

section OneStep
variable {past : List (T × Event)} {s s' : BuildState} {es es' : List ChangelogEntry}
  {ctl : T → Control} {x : T × Event} {l' : Control} {rest : List ChangelogEntry} {t : T}

theorem ScanOrder.done_scanned {st : T → Stage} (hI : ScanOrder past s es st) (h : st t = .done) :
    ¬ Unscanned past ∧ applied past ++ [] = acknowledged (beforeScan past) := by
  rw [List.append_nil]
  exact hI.done t h

/-- While another thread is in the scan, this one is outside. -/
theorem ScanOrder.outside_of_other (hI : ScanOrder past s es fun t => stage (ctl t))
    (hL : LogEffect (ctl x.1) l' x.2 s s' es es') (ht : t ≠ x.1) (hs : stage (ctl t) ≠ .outside) :
    appliedEntry x.2 = none ∧ x.2 ≠ .lock := by
  apply hL.outside
  by_contra hx
  exact ht (hI.unique t x.1 hs hx)

theorem ScanOrder.other_outside (hI : ScanOrder past s es fun t => stage (ctl t))
    (hL : LogEffect (ctl x.1) l' x.2 s s' es es') (ht : t ≠ x.1) (hl : stage l' ≠ .outside) :
    stage (ctl t) = .outside := by
  cases hL.active hl with
  | inl hx =>
    by_contra hs
    exact ht (hI.unique t x.1 hs hx)
  | inr hs => exact (hI.opened (.inr hs)).1 t

theorem ScanOrder.own_outside (hI : ScanOrder past s es fun t => stage (ctl t))
    (hE : Effect (ctl x.1) l' x.2 s s') (hL : LogEffect (ctl x.1) l' x.2 s s' es es')
    (hs' : s' = .kIdle ∨ s' = .kBuilding) : stage l' = .outside := by
  have hx := (hI.opened (hE.opened hs')).1 x.1
  cases hL with
  | plain _ hp => exact hp.elim (fun hp => hp.trans hx) id
  | enter _ _ _ _ hs => rw [hs] at hs'; simp at hs'
  | write _ _ _ hp => exact hp
  | scan _ h | apply _ _ _ _ h | finish _ h | clear _ h => rw [h] at hx; cases hx

theorem ScanOrder.own_locking (hI : ScanOrder past s es fun t => stage (ctl t))
    (hL : LogEffect (ctl x.1) l' x.2 s s' es es') (h : stage l' = .locking) :
    Unscanned (past ++ [x]) := by
  cases hL with
  | plain he hp =>
    rw [unscanned_snoc]
    rw [h] at hp
    exact ⟨hI.locking x.1 (hp.elim Eq.symm fun h => by cases h), he.2.2⟩
  | enter he _ _ hs => exact (unscanned_snoc past x).mpr ⟨(hI.opened (.inr hs)).2, he.2.2⟩
  | write _ _ _ hl | scan _ _ hl | finish _ _ hl | clear _ _ hl => rw [hl] at h; cases h
  | apply _ _ _ _ _ hl => rw [h] at hl; simp at hl

theorem ScanOrder.own_each (hI : ScanOrder past s es fun t => stage (ctl t))
    (hL : LogEffect (ctl x.1) l' x.2 s s' es es') (h : stage l' = .each rest) :
    ¬ Unscanned (past ++ [x]) ∧
      applied (past ++ [x]) ++ rest = acknowledged (beforeScan (past ++ [x])) := by
  cases hL with
  | plain he hp =>
    rw [h] at hp
    exact scanned_frame he.2.1 he.2.2 (hI.each x.1 rest (hp.elim Eq.symm fun h => by cases h))
  | scan he hl hp =>
    -- the lock is taken: the scan runs over what is in the buffer now
    have hun := hI.locking x.1 hl
    obtain ⟨hes, hap⟩ := hI.unscanned hun
    rw [h] at hp
    cases hp
    rw [beforeScan_lock hun he, unscanned_snoc, applied_snoc, hap, he, hes]
    exact ⟨fun h => h.2 rfl, rfl⟩
  | apply entry rest' outcome he hl hp =>
    obtain ⟨hn, hr⟩ := hI.each x.1 _ hl
    rw [h] at hp
    obtain h | h := hp
    · cases h
      rw [unscanned_snoc, beforeScan_append hn, applied_snoc, he, ← hr]
      refine ⟨fun h => hn h.1, ?_⟩
      simp [appliedEntry]
    · cases h
  | enter _ _ hl | write _ _ _ hl | finish _ _ hl | clear _ _ hl => rw [hl] at h; cases h

theorem ScanOrder.own_done (hI : ScanOrder past s es fun t => stage (ctl t))
    (hL : LogEffect (ctl x.1) l' x.2 s s' es es') (h : stage l' = .done) :
    ¬ Unscanned (past ++ [x]) ∧
      applied (past ++ [x]) ++ [] = acknowledged (beforeScan (past ++ [x])) := by
  cases hL with
  | plain he hp =>
    rw [h] at hp
    have hdone : stage (ctl x.1) = .done := hp.elim Eq.symm fun h => by cases h
    exact scanned_frame he.2.1 he.2.2 (hI.done_scanned hdone)
  | finish he hl => exact scanned_frame he.2.1 he.2.2 (hI.each x.1 [] hl)
  | clear he hl => exact scanned_frame he.2.1 he.2.2 (hI.done_scanned hl)
  | enter _ _ hl | write _ _ _ hl | scan _ _ hl => rw [hl] at h; cases h
  | apply _ _ _ _ _ hl => rw [h] at hl; simp at hl

theorem ScanOrder.unscanned_next (hI : ScanOrder past s es fun t => stage (ctl t))
    (hL : LogEffect (ctl x.1) l' x.2 s s' es es') (hu : Unscanned (past ++ [x])) :
    es' = acknowledged (past ++ [x]) ∧ applied (past ++ [x]) = [] := by
  obtain ⟨hun, hlock⟩ := (unscanned_snoc past x).mp hu
  obtain ⟨hes, hap⟩ := hI.unscanned hun
  rw [acknowledged_snoc, applied_snoc, hap, ← hes]
  cases hL with
  | plain he | enter he | finish he => rw [he.1, he.2.1]; simp
  | write entry he => rw [he]; simp [acceptedEntry, appliedEntry]
  | scan he => exact absurd he hlock
  | apply _ _ _ _ h => exact absurd hun (hI.each x.1 _ h).1
  | clear _ h => exact absurd hun (hI.done x.1 h).1

end OneStep

variable [DecidableEq T]

theorem ScanOrder.next {past : List (T × Event)} {s s' : BuildState}
    {es es' : List ChangelogEntry} {ctl : T → Control} {x : T × Event} {l' : Control}
    (hI : ScanOrder past s es fun t => stage (ctl t)) (hE : Effect (ctl x.1) l' x.2 s s')
    (hL : LogEffect (ctl x.1) l' x.2 s s' es es') :
    ScanOrder (past ++ [x]) s' es' fun t => stage (Function.update ctl x.1 l' t) := by
  have hself : stage (Function.update ctl x.1 l' x.1) = stage l' := by
    rw [Function.update_self]
  have hother : ∀ t, t ≠ x.1 → stage (Function.update ctl x.1 l' t) = stage (ctl t) := by
    intro t ht
    rw [Function.update_of_ne ht]
  constructor
  case opened =>
    intro hs'
    obtain ⟨hall, hun⟩ := hI.opened (hE.opened hs')
    refine ⟨fun t => ?_, (unscanned_snoc past x).mpr ⟨hun, (hL.outside (hall x.1)).2⟩⟩
    by_cases ht : t = x.1
    · rw [ht, hself]
      exact hI.own_outside hE hL hs'
    · rw [hother t ht]
      exact hall t
  case unique =>
    refine unique_of_frame (P := (· ≠ .outside)) hother hI.unique fun hl t ht => ?_
    rw [hself] at hl
    exact not_not.mpr (hI.other_outside hL ht hl)
  case unscanned => exact hI.unscanned_next hL
  case locking =>
    intro t ht
    by_cases htx : t = x.1
    · rw [htx, hself] at ht
      exact hI.own_locking hL ht
    · rw [hother t htx] at ht
      obtain ⟨ha, hlock⟩ := hI.outside_of_other hL htx (by rw [ht]; simp)
      exact (scan_frame past ha hlock).1.mpr (hI.locking t ht)
  case each =>
    intro t rest ht
    by_cases htx : t = x.1
    · rw [htx, hself] at ht
      exact hI.own_each hL ht
    · rw [hother t htx] at ht
      obtain ⟨ha, hlock⟩ := hI.outside_of_other hL htx (by rw [ht]; simp)
      exact scanned_frame ha hlock (hI.each t rest ht)
  case done =>
    intro t ht
    rw [← List.append_nil (applied _)]
    by_cases htx : t = x.1
    · rw [htx, hself] at ht
      exact hI.own_done hL ht
    · rw [hother t htx] at ht
      obtain ⟨ha, hlock⟩ := hI.outside_of_other hL htx (by rw [ht]; simp)
      exact scanned_frame ha hlock (hI.done_scanned ht)

variable {F : Type} (ops : FractionOps F)

omit [DecidableEq T] in
theorem start_scanOrder (config : IndexBuilderConfig) :
    ScanOrder ([] : List (T × Event)) (start (T := T) config).shared.state
      (start (T := T) config).shared.changelog.entries
      fun t => stage ((start (T := T) config).control t) where
  opened _ := ⟨fun _ => rfl, fun _ hx => absurd hx List.not_mem_nil⟩
  unique _ _ h := absurd rfl h
  unscanned _ := ⟨rfl, rfl⟩
  locking _ h := by cases h
  each _ _ h := by cases h
  done _ h := by cases h

theorem run_scanOrder {config : IndexBuilderConfig} {tr : List (T × Event)}
    {c : Config T RocksDBBuilderIndexEE Control}
    (h : exec (builderStep ops) (start config) tr = some c) :
    ScanOrder tr c.shared.state c.shared.changelog.entries fun t => stage (c.control t) := by
  apply exec_invariant (fun past (c : Config T RocksDBBuilderIndexEE Control) =>
    ScanOrder past c.shared.state c.shared.changelog.entries fun t => stage (c.control t))
    _ tr (start config) c (start_scanOrder config) h
  intro past c x c' hI hf
  obtain ⟨b, l, hs, rfl⟩ := fire_inv hf
  exact hI.next (builderStep_effect ops hs) (builderStep_logEffect ops hs)

/-- A writer appends an entry that fits the budget only while no scan has begun. -/
def WritesBeforeScan (past : List (T × Event)) (c : Config T RocksDBBuilderIndexEE Control)
    (x : T × Event) : Prop :=
  ∀ entry, c.control x.1 = .writeAppend entry → c.shared.changelog.admits entry = true →
    Unscanned past

omit [DecidableEq T] in
theorem acknowledged_beforeScan_length (tr : List (T × Event)) :
    (acknowledged (beforeScan tr)).length ≤ (acknowledged tr).length :=
  List.Sublist.length_le ((List.takeWhile_sublist _).filterMap _)

theorem writesBeforeScan_iff {config : IndexBuilderConfig} {tr : List (T × Event)}
    {c : Config T RocksDBBuilderIndexEE Control}
    (h : exec (builderStep ops) (start config) tr = some c) :
    EachStep (builderStep ops) WritesBeforeScan [] (start config) tr ↔
      acknowledged tr = acknowledged (beforeScan tr) := by
  induction tr using List.reverseRecOn generalizing c with
  | nil => exact ⟨fun _ => rfl, fun _ => trivial⟩
  | append_singleton tr x ih =>
    rw [exec_snoc] at h
    obtain ⟨c₁, hc₁, hf⟩ := Option.bind_eq_some_iff.mp h
    obtain ⟨b, l, hs, -⟩ := fire_inv hf
    have hacc := accepted_iff ops hs
    rw [eachStep_append [] _ c₁ _ _ hc₁, ih hc₁]
    simp only [EachStep, hf, and_true, List.nil_append]
    by_cases hu : Unscanned tr
    · have htr := beforeScan_of_unscanned hu
      have hP : WritesBeforeScan tr c₁ x := fun _ _ _ => hu
      by_cases hx : x.2 = .lock
      · rw [beforeScan_lock hu hx, acknowledged_snoc, hx, htr]
        simp [hP, acceptedEntry]
      · have hux := (unscanned_snoc tr x).mpr ⟨hu, hx⟩
        rw [beforeScan_of_unscanned hux, htr]
        simp [hP]
    · have hP : WritesBeforeScan tr c₁ x ↔ acceptedEntry x.2 = none := by
        rw [Option.eq_none_iff_forall_ne_some]
        constructor
        · intro hw entry he
          obtain ⟨hl, ha⟩ := (hacc entry).mp he
          exact hu (hw entry hl ha)
        · intro hn entry hl ha
          exact absurd ((hacc entry).mpr ⟨hl, ha⟩) (hn entry)
      have hlen := acknowledged_beforeScan_length tr
      rw [hP, beforeScan_append hu, acknowledged_snoc]
      cases he : acceptedEntry x.2 with
      | none => simp
      | some entry =>
        simp only [reduceCtorEq, and_false, Option.toList_some, false_iff]
        intro heq
        have hl := congrArg List.length heq
        rw [List.length_append, List.length_singleton] at hl
        omega

/-! ### Results -/

/-- `bufferWrite` returns true for an entry only after its append took effect. -/
theorem returned_write_took_effect {config : IndexBuilderConfig} {tr : List (T × Event)}
    {c : Config T RocksDBBuilderIndexEE Control}
    (h : exec (builderStep ops) (start config) tr = some c) {t : T} {entry : ChangelogEntry}
    (ht : (t, .ret (.bufferWrite entry true)) ∈ tr) : (t, .append entry true) ∈ tr := by
  have key : (∀ t entry, c.control t = .returning (.bufferWrite entry true) →
      (t, .append entry true) ∈ tr) ∧ ∀ t entry, (t, .ret (.bufferWrite entry true)) ∈ tr →
        (t, .append entry true) ∈ tr := by
    apply exec_invariant (fun past (c : Config T RocksDBBuilderIndexEE Control) =>
      (∀ t entry, c.control t = .returning (.bufferWrite entry true) →
        (t, .append entry true) ∈ past) ∧
      ∀ t entry, (t, .ret (.bufferWrite entry true)) ∈ past → (t, .append entry true) ∈ past)
      _ tr (start config) c _ h
    · intro past c x c' hI hf
      obtain ⟨b, l, hs, rfl⟩ := fire_inv hf
      constructor
      · intro t entry ht
        by_cases htx : t = x.1
        · simp only [htx, Function.update_self] at ht
          rw [ht] at hs
          rw [htx, ← acknowledge_event ops hs]
          exact List.mem_append_right _ (List.mem_singleton_self x)
        · simp only [Function.update_of_ne htx] at ht
          exact List.mem_append_left _ (hI.1 t entry ht)
      · intro t entry ht
        obtain ht | ht := List.mem_append.mp ht
        · exact List.mem_append_left _ (hI.2 t entry ht)
        · rw [← List.mem_singleton.mp ht] at hs
          exact List.mem_append_left _ (hI.1 t entry (ret_control ops hs))
    · exact ⟨fun t entry ht => (by cases ht), fun t entry ht => absurd ht List.not_mem_nil⟩
  exact key.2 t entry ht

/-- What the applier has seen when `applyChangelog` returns true is what the
writers were told is buffered, in the order of the appends, exactly if no
append came after the scan. -/
theorem acknowledged_writes_applied_iff (config : IndexBuilderConfig) (tr : List (T × Event))
    (c : Config T RocksDBBuilderIndexEE Control)
    (h : exec (builderStep ops) (start config) tr = some c) (before : List (T × Event)) (t : T)
    (hx : before ++ [(t, .ret (.applyChangelog true))] <+: tr) :
    applied before = acknowledged tr ↔
      EachStep (builderStep ops) WritesBeforeScan [] (start config) tr := by
  obtain ⟨c₁, c₂, hb, hf⟩ := exec_at h hx
  obtain ⟨b, l, hs, -⟩ := fire_inv hf
  have hdone : stage (c₁.control t) = .done := by rw [ret_control ops hs]; rfl
  obtain ⟨hn, hap⟩ := (run_scanOrder ops hb).done t hdone
  have htr : beforeScan tr = beforeScan before := by
    obtain ⟨rest, rfl⟩ := hx
    rw [List.append_assoc, beforeScan_append hn]
  rw [writesBeforeScan_iff ops h, hap, htr]
  exact eq_comm

end Runs

def someInsert : ChangelogEntry :=
  ⟨.kInsert, ⟨lit "k", 15, by decide⟩, ⟨lit "r", 15, by decide⟩, ⟨lit "d", 15, by decide⟩⟩

def filled : List (TwoThreads × Event) :=
  [(.first, .callFillIndexParallel [] []), (.first, .step), (.first, .submit true), (.first, .step),
    (.first, .future (.returned true)), (.first, .step), (.first, .ret (.fillIndexParallel true)),
    (.second, .callBufferWrite someInsert), (.second, .step)]

/- The writer appends before `applyChangelog` is called. -/
def timelyWrite : List (TwoThreads × Event) :=
  filled ++ [(.second, .append someInsert true), (.second, .ret (.bufferWrite someInsert true)),
    (.first, .callApplyChangelog), (.first, .step), (.first, .lock),
    (.first, .applier someInsert (.returned true)), (.first, .step), (.first, .step)]

theorem timelyWrite_is_applied :
    applied timelyWrite = [someInsert] ∧ EachStep (builderStep exactOps) WritesBeforeScan []
      (start ⟨1, 1, true⟩) (timelyWrite ++ [(.first, .ret (.applyChangelog true))]) := by
  have h : (exec (builderStep exactOps) (start ⟨1, 1, true⟩)
      (timelyWrite ++ [(.first, .ret (.applyChangelog true))])).isSome = true := by decide
  obtain ⟨c, hc⟩ := Option.isSome_iff_exists.mp h
  exact ⟨by decide, (acknowledged_writes_applied_iff exactOps _ _ c hc timelyWrite .first
    (List.prefix_refl _)).mp (by decide)⟩

/- The writer has passed the state check; the scan of the empty buffer is over
when it appends, and the clear is still to come. -/
def lateWrite : List (TwoThreads × Event) :=
  filled ++ [(.first, .callApplyChangelog), (.first, .step), (.first, .lock), (.first, .step),
    (.second, .append someInsert true), (.second, .ret (.bufferWrite someInsert true)),
    (.first, .step)]

theorem late_write_is_cleared :
    (exec (builderStep exactOps) (start (T := TwoThreads) ⟨1, 1, true⟩)
        (lateWrite ++ [(.first, .ret (.applyChangelog true))])).isSome = true ∧
      (.second, .ret (.bufferWrite someInsert true)) ∈ lateWrite ∧
      acknowledged lateWrite = [someInsert] ∧ applied lateWrite = [] ∧
      (exec (builderStep exactOps) (start ⟨1, 1, true⟩) lateWrite).map
        (fun c => c.shared.changelog.entries) = some [] := by
  decide

end RocksDBBuilderIndexEE
end OpenArangoDBCore.RocksDBEngine
