import OpenArangoDBCore.Lib.Interleaving
import OpenArangoDBCore.Replication.IdempotencyChecker

/-!
# Workers that share one idempotency checker

Every call of the tracker takes the lock of the tracker and is one step.
`check` makes two such calls; applying the message and `accept` are two
further steps. A worker is idle between two messages.
-/

namespace OpenArangoDBCore.Replication.ConcurrentReceivers
open Interleaving SequenceNumberTracker

structure Target where
  tracker : SequenceNumberTracker
  applied : List DirectMQMessage

inductive Control where
  | idle
  | checking (msg : DirectMQMessage)
  | reading (msg : DirectMQMessage)
  | applying (msg : DirectMQMessage)
  | accepting (msg : DirectMQMessage)
  deriving DecidableEq

inductive Event where
  | receive (msg : DirectMQMessage)
  | step
  deriving DecidableEq

/- `applyGaps` says whether the worker applies a message on `OutOfOrder` as
the header does, or on `Accept` alone. -/
def worker (applyGaps : Bool) : Program Target Control Event
  | s, .idle, .receive msg => some (s, .checking msg)
  | s, .checking msg, .step =>
    some (s, if s.tracker.isAlreadyApplied msg.shard_id msg.sequence then .idle else .reading msg)
  | s, .reading msg, .step =>
    let expectedNext := s.tracker.lastAppliedSequence msg.shard_id + 1
    some (s, if expectedNext < msg.sequence ∧ applyGaps = false then .idle else .applying msg)
  | s, .applying msg, .step => some ({s with applied := s.applied ++ [msg]}, .accepting msg)
  | s, .accepting msg, .step =>
    some ({s with tracker := IdempotencyChecker.accept s.tracker msg}, .idle)
  | _, _, _ => none

def start {T : Type} : Config T Target Control := ⟨⟨.new, []⟩, fun _ => .idle⟩

def pair (msg : DirectMQMessage) : ByteString × UInt64 := (msg.shard_id, msg.sequence)

/-- The message that the first call of `check` is about. -/
def Control.tested : Control → Option DirectMQMessage
  | .checking msg => some msg
  | _ => none

/-- The message that has passed the first call of `check` and is not yet accepted. -/
def Control.passed : Control → Option DirectMQMessage
  | .reading msg | .applying msg | .accepting msg => some msg
  | _ => none

/-- The message that has passed the first call of `check` and is not yet applied. -/
def Control.waiting : Control → Option DirectMQMessage
  | .reading msg | .applying msg => some msg
  | _ => none

theorem passed_of_waiting {l : Control} {msg : DirectMQMessage} (h : l.waiting = some msg) :
    l.passed = some msg := by
  cases l with
  | idle => cases h
  | checking => cases h
  | reading m => exact h
  | applying m => exact h
  | accepting m => cases h

/-! ### One worker alone is the receiver of the header -/

def Event.ofMessage (t : SequenceNumberTracker) (msg : DirectMQMessage) : List Event :=
  if t.isAlreadyApplied msg.shard_id msg.sequence then [.receive msg, .step]
  else [.receive msg, .step, .step, .step, .step]

theorem alone_receive (s : Target) (msg : DirectMQMessage) :
    alone (worker true) s .idle (Event.ofMessage s.tracker msg) =
      some (⟨(IdempotencyChecker.receive (s.tracker, s.applied) msg).1,
        (IdempotencyChecker.receive (s.tracker, s.applied) msg).2⟩, .idle) := by
  rw [IdempotencyChecker.receive_cases]
  unfold Event.ofMessage
  by_cases h : s.tracker.isAlreadyApplied msg.shard_id msg.sequence = true
  · rw [if_pos h, if_pos h]
    simp [alone, worker, h]
  · rw [if_neg h, if_neg h]
    simp [alone, worker, h]

/-! ### What a step does -/

/-- The four steps of a worker that touch what the others see or rely on. -/
inductive Effect (s : Target) : Control → Target → Control → Prop
  | outside {l l' : Control} : l.passed = none → l'.passed = none → Effect s l s l'
  | pass (msg : DirectMQMessage) :
      s.tracker.isAlreadyApplied msg.shard_id msg.sequence = false →
      Effect s (.checking msg) s (.reading msg)
  | classify (msg : DirectMQMessage) {l' : Control} : l' = .idle ∨ l' = .applying msg →
      Effect s (.reading msg) s l'
  | apply (msg : DirectMQMessage) :
      Effect s (.applying msg) {s with applied := s.applied ++ [msg]} (.accepting msg)
  | accept (msg : DirectMQMessage) : Effect s (.accepting msg)
      {s with tracker := IdempotencyChecker.accept s.tracker msg} .idle

theorem worker_effect {applyGaps : Bool} {s s' : Target} {l l' : Control} {e : Event}
    (h : worker applyGaps s l e = some (s', l')) : Effect s l s' l' := by
  cases l with
  | idle =>
    cases e with
    | receive msg =>
      cases h
      exact .outside rfl rfl
    | step => cases h
  | checking msg =>
    cases e with
    | receive => cases h
    | step =>
      cases h
      by_cases ha : s.tracker.isAlreadyApplied msg.shard_id msg.sequence = true
      · rw [if_pos ha]
        exact .outside rfl rfl
      · rw [if_neg ha]
        exact .pass msg (Bool.eq_false_iff.mpr ha)
  | reading msg =>
    cases e with
    | receive => cases h
    | step =>
      cases h
      apply Effect.classify
      split
      · exact .inl rfl
      · exact .inr rfl
  | applying msg =>
    cases e with
    | receive => cases h
    | step =>
      cases h
      exact .apply msg
  | accepting msg =>
    cases e with
    | receive => cases h
    | step =>
      cases h
      exact .accept msg

variable {T : Type}

/-- A worker is told that a message is new only while no other worker that
was told so for the same shard and sequence has still to accept. -/
def TestedAlone (_ : List (T × Event)) (c : Config T Target Control) (x : T × Event) : Prop :=
  ∀ msg ∈ (c.control x.1).tested,
    c.shared.tracker.isAlreadyApplied msg.shard_id msg.sequence = false →
    ∀ u, ∀ other ∈ (c.control u).passed, pair other ≠ pair msg

instance [Fintype T] (past : List (T × Event)) (c : Config T Target Control) (x : T × Event) :
    Decidable (TestedAlone past c x) := by
  unfold TestedAlone
  infer_instance

structure AtMostOnce (c : Config T Target Control) : Prop where
  nodup : (c.shared.applied.map pair).Nodup
  marked : ∀ m ∈ c.shared.applied, c.shared.tracker.isAlreadyApplied m.shard_id m.sequence = true ∨
    ∃ t msg, c.control t = .accepting msg ∧ pair msg = pair m
  single : ∀ t u m m', (c.control t).passed = some m → (c.control u).passed = some m' →
    pair m = pair m' → t = u
  fresh : ∀ t m, (c.control t).waiting = some m → pair m ∉ c.shared.applied.map pair

theorem start_atMostOnce : AtMostOnce (start : Config T Target Control) := by
  refine ⟨List.nodup_nil, ?_, ?_, ?_⟩
  · intro m hm
    cases hm
  · intro t u m m' ht
    cases ht
  · intro t m ht
    cases ht

section Step
variable [DecidableEq T] {c : Config T Target Control} {t : T} {l : Control}

/-- A worker that is in no message of another worker's pair may go on. -/
theorem AtMostOnce.single_update (h : AtMostOnce c)
    (hnew : ∀ m, l.passed = some m → (c.control t).passed = some m ∨
      ∀ u other, (c.control u).passed = some other → pair other ≠ pair m) :
    ∀ a b m m', (Function.update c.control t l a).passed = some m →
      (Function.update c.control t l b).passed = some m' → pair m = pair m' → a = b := by
  intro a b m m' ha hb hp
  by_cases hat : a = t
  · by_cases hbt : b = t
    · rw [hat, hbt]
    · subst hat
      rw [Function.update_self] at ha
      rw [Function.update_of_ne hbt] at hb
      cases hnew m ha with
      | inl hold => exact h.single a b m m' hold hb hp
      | inr hother => exact absurd hp.symm (hother b m' hb)
  · rw [Function.update_of_ne hat] at ha
    by_cases hbt : b = t
    · subst hbt
      rw [Function.update_self] at hb
      cases hnew m' hb with
      | inl hold => exact h.single a b m m' ha hold hp
      | inr hother => exact absurd hp (hother a m ha)
    · rw [Function.update_of_ne hbt] at hb
      exact h.single a b m m' ha hb hp

/-- A worker that is not accepting is no reason for a message to count as marked. -/
theorem AtMostOnce.marked_update (h : AtMostOnce c)
    (hold : ∀ msg, c.control t ≠ .accepting msg) :
    ∀ m ∈ c.shared.applied, c.shared.tracker.isAlreadyApplied m.shard_id m.sequence = true ∨
      ∃ u msg, Function.update c.control t l u = .accepting msg ∧ pair msg = pair m := by
  intro m hm
  apply (h.marked m hm).imp_right
  intro hacc
  obtain ⟨u, msg, hu, hp⟩ := hacc
  refine ⟨u, msg, ?_, hp⟩
  rw [Function.update_of_ne]
  · exact hu
  · intro hut
    subst hut
    exact hold msg hu

theorem AtMostOnce.fresh_update (h : AtMostOnce c)
    (hnew : ∀ m, l.waiting = some m → pair m ∉ c.shared.applied.map pair) :
    ∀ u m, (Function.update c.control t l u).waiting = some m →
      pair m ∉ c.shared.applied.map pair := by
  intro u m hu
  by_cases hut : u = t
  · subst hut
    rw [Function.update_self] at hu
    exact hnew m hu
  · rw [Function.update_of_ne hut] at hu
    exact h.fresh u m hu

theorem AtMostOnce.pass (h : AtMostOnce c) {msg : DirectMQMessage}
    (hl : c.control t = .checking msg)
    (hnot : c.shared.tracker.isAlreadyApplied msg.shard_id msg.sequence = false)
    (halone : ∀ u other, (c.control u).passed = some other → pair other ≠ pair msg) :
    AtMostOnce ⟨c.shared, Function.update c.control t (.reading msg)⟩ := by
  refine ⟨h.nodup, h.marked_update ?_, h.single_update ?_, h.fresh_update ?_⟩
  · intro other hother
    rw [hl] at hother
    cases hother
  · intro m hm
    cases hm
    exact .inr halone
  · intro m hm
    cases hm
    intro hmem
    obtain ⟨m', hm', hpair⟩ := List.mem_map.mp hmem
    cases h.marked m' hm' with
    | inl hmark =>
      -- an applied message of this pair that is marked would have failed the test
      simp only [pair, Prod.mk.injEq] at hpair
      rw [hpair.1, hpair.2, hnot] at hmark
      cases hmark
    | inr hacc =>
      obtain ⟨u, other, hu, hp⟩ := hacc
      exact halone u other (by rw [hu]; rfl) (hp.trans hpair)

theorem AtMostOnce.apply (h : AtMostOnce c) {msg : DirectMQMessage}
    (hl : c.control t = .applying msg) :
    AtMostOnce ⟨{c.shared with applied := c.shared.applied ++ [msg]},
      Function.update c.control t (.accepting msg)⟩ := by
  have hfresh : pair msg ∉ c.shared.applied.map pair := h.fresh t msg (by rw [hl]; rfl)
  refine ⟨?_, ?_, h.single_update ?_, ?_⟩
  · show ((c.shared.applied ++ [msg]).map pair).Nodup
    rw [List.map_append, List.map_singleton, List.nodup_append_comm]
    exact List.nodup_cons.mpr ⟨hfresh, h.nodup⟩
  · intro m hm
    cases List.mem_append.mp hm with
    | inl hold =>
      apply h.marked_update _ m hold
      intro other hother
      rw [hl] at hother
      cases hother
    | inr hnew =>
      rw [List.mem_singleton.mp hnew]
      exact .inr ⟨t, msg, Function.update_self .., rfl⟩
  · intro m hm
    rw [hl]
    exact .inl hm
  · intro u m hu hmem
    dsimp only at hu hmem
    by_cases hut : u = t
    · subst hut
      rw [Function.update_self] at hu
      cases hu
    · rw [Function.update_of_ne hut] at hu
      rw [List.map_append, List.mem_append] at hmem
      cases hmem with
      | inl hold => exact h.fresh u m hu hold
      | inr hnew =>
        have hp : pair m = pair msg := List.mem_singleton.mp hnew
        exact hut (h.single u t m msg (passed_of_waiting hu) (by rw [hl]; rfl) hp)

theorem AtMostOnce.accept (h : AtMostOnce c) {msg : DirectMQMessage}
    (hl : c.control t = .accepting msg) :
    AtMostOnce ⟨{c.shared with tracker := IdempotencyChecker.accept c.shared.tracker msg},
      Function.update c.control t .idle⟩ := by
  refine ⟨h.nodup, ?_, h.single_update ?_, h.fresh_update ?_⟩
  · intro m hm
    rw [IdempotencyChecker.accept, IdempotencyChecker.markApplied_isAlreadyApplied]
    cases h.marked m hm with
    | inl hmark => exact .inl (.inl hmark)
    | inr hacc =>
      obtain ⟨u, other, hu, hp⟩ := hacc
      by_cases hut : u = t
      · subst hut
        rw [hl] at hu
        cases hu
        simp only [pair, Prod.mk.injEq] at hp
        exact .inl (.inr ⟨hp.1.symm, UInt64.le_of_eq hp.2.symm⟩)
      · refine .inr ⟨u, other, ?_, hp⟩
        show Function.update c.control t .idle u = _
        rw [Function.update_of_ne hut, hu]
  · intro m hm
    cases hm
  · intro m hm
    cases hm

theorem AtMostOnce.next {applyGaps : Bool} (h : AtMostOnce c) {past : List (T × Event)}
    {x : T × Event} {c' : Config T Target Control} (hx : TestedAlone past c x)
    (hf : fire (worker applyGaps) c x = some c') : AtMostOnce c' := by
  obtain ⟨s, l, hw, rfl⟩ := fire_inv hf
  have heff := worker_effect hw
  generalize hl : c.control x.1 = l₀ at heff
  cases heff with
  | outside hbefore hafter =>
    refine ⟨h.nodup, h.marked_update ?_, h.single_update ?_, h.fresh_update ?_⟩
    · intro other hother
      rw [← hl, hother] at hbefore
      cases hbefore
    · intro m hm
      rw [hafter] at hm
      cases hm
    · intro m hm
      have hp := passed_of_waiting hm
      rw [hafter] at hp
      cases hp
  | pass msg hnot => exact h.pass hl hnot (hx msg (by rw [hl]; rfl) hnot)
  | classify msg hnext =>
    refine ⟨h.nodup, h.marked_update ?_, h.single_update ?_, h.fresh_update ?_⟩
    · intro other hother
      rw [hl] at hother
      cases hother
    · intro m hm
      cases hnext with
      | inl hidle =>
        rw [hidle] at hm
        cases hm
      | inr happly =>
        rw [happly] at hm
        rw [hl]
        exact .inl hm
    · intro m hm
      cases hnext with
      | inl hidle =>
        rw [hidle] at hm
        cases hm
      | inr happly =>
        rw [happly] at hm
        exact h.fresh x.1 m (by rw [hl]; exact hm)
  | apply msg => exact h.apply hl
  | accept msg => exact h.accept hl

end Step

/-! ### Results -/

theorem applied_at_most_once [DecidableEq T] (applyGaps : Bool) (tr : List (T × Event))
    (c : Config T Target Control) (hx : EachStep (worker applyGaps) TestedAlone [] start tr)
    (h : exec (worker applyGaps) start tr = some c) : (c.shared.applied.map pair).Nodup :=
  (exec_rule (fun _ => AtMostOnce) (fun _ _ _ _ hI hP hf => hI.next hP hf)
    tr [] start c start_atMostOnce hx h).nodup

theorem accepting_applied [DecidableEq T] {applyGaps : Bool} (tr : List (T × Event))
    (c : Config T Target Control) (h : exec (worker applyGaps) start tr = some c) :
    ∀ t msg, c.control t = .accepting msg → msg ∈ c.shared.applied := by
  refine exec_invariant (fun _ c => ∀ t msg, c.control t = .accepting msg → msg ∈ c.shared.applied)
    ?_ tr start c ?_ h
  · intro past c x c' hI hf t msg ht
    obtain ⟨s, l, hw, rfl⟩ := fire_inv hf
    have heff := worker_effect hw
    dsimp only at ht ⊢
    by_cases htx : t = x.1
    · subst htx
      rw [Function.update_self] at ht
      subst ht
      generalize c.control x.1 = l₀ at heff
      cases heff with
      | outside _ hafter => cases hafter
      | classify _ hnext => cases hnext <;> contradiction
      | apply => exact List.mem_append_right _ List.mem_cons_self
    · rw [Function.update_of_ne htx] at ht
      have hold := hI t msg ht
      generalize c.control x.1 = l₀ at heff
      cases heff with
      | outside => exact hold
      | pass => exact hold
      | classify => exact hold
      | apply => exact List.mem_append_left _ hold
      | accept => exact hold
  · intro t msg ht
    cases ht

/-- With the use of the header, whoever waits gets to apply. -/
theorem waiting_applies [DecidableEq T] (c : Config T Target Control) (t : T)
    (msg : DirectMQMessage) (h : (c.control t).waiting = some msg) :
    ∃ more, exec (worker true) c more =
      some ⟨{c.shared with applied := c.shared.applied ++ [msg]},
        Function.update c.control t (.accepting msg)⟩ := by
  have happlies : ∃ es, alone (worker true) c.shared (c.control t) es =
      some ({c.shared with applied := c.shared.applied ++ [msg]}, .accepting msg) := by
    generalize hl : c.control t = l at h
    cases l with
    | reading m =>
      cases h
      exact ⟨[.step, .step], by simp [alone, worker]⟩
    | applying m =>
      cases h
      exact ⟨[.step], by simp [alone, worker]⟩
    | _ => cases h
  obtain ⟨es, hes⟩ := happlies
  exact ⟨_, exec_alone hes⟩

/-- The condition is not too strong: once two workers overlap, the same
workers can go on so that both apply. -/
theorem overlap_applies_twice [DecidableEq T] {tr : List (T × Event)} {x : T × Event}
    {c c₁ : Config T Target Control} (h : exec (worker true) start tr = some c)
    (hf : fire (worker true) c x = some c₁) (hx : ¬ TestedAlone tr c x) :
    ∃ more c', exec (worker true) c₁ more = some c' ∧ ¬ (c'.shared.applied.map pair).Nodup := by
  unfold TestedAlone at hx
  push Not at hx
  obtain ⟨msg, hmsg, hnot, u, other, hother, hpair⟩ := hx
  obtain ⟨s, l, hw, rfl⟩ := fire_inv hf
  obtain ⟨t, e⟩ := x
  dsimp only at hmsg hw ⊢
  have hl : c.control t = .checking msg := by
    generalize c.control t = l₀ at hmsg
    cases l₀ with
    | checking m =>
      cases hmsg
      rfl
    | _ => cases hmsg
  have hut : u ≠ t := by
    intro heq
    rw [heq, hl] at hother
    cases hother
  have hreading : s = c.shared ∧ l = .reading msg := by
    rw [hl] at hw
    cases e with
    | receive => cases hw
    | step =>
      simp only [worker, hnot] at hw
      cases hw
      exact ⟨rfl, rfl⟩
  obtain ⟨rfl, rfl⟩ := hreading
  obtain ⟨first, hfirst⟩ := waiting_applies
    ⟨c.shared, Function.update c.control t (.reading msg)⟩ t msg (by simp [Control.waiting])
  generalize hlu : c.control u = l at hother
  cases l with
  | accepting m =>
    cases hother
    refine ⟨first, _, hfirst, ?_⟩
    have hmem := List.mem_map_of_mem (f := pair) (accepting_applied tr c h u other hlu)
    rw [List.map_append, List.map_singleton, List.nodup_append_comm, List.singleton_append,
      List.nodup_cons, ← hpair]
    exact fun hnodup => hnodup.1 hmem
  | reading m | applying m =>
    cases hother
    obtain ⟨second, hsecond⟩ := waiting_applies
      ⟨{c.shared with applied := c.shared.applied ++ [msg]},
        Function.update (Function.update c.control t (.reading msg)) t (.accepting msg)⟩ u other
      (by simp [Function.update_of_ne hut, hlu, Control.waiting])
    have hboth : exec (worker true) _ (first ++ second) = _ :=
      exec_append ⟨c.shared, Function.update c.control t (.reading msg)⟩ first second
    rw [hfirst] at hboth
    refine ⟨first ++ second, _, hboth.trans hsecond, ?_⟩
    rw [List.map_append, List.map_singleton, List.nodup_append_comm, List.singleton_append,
      List.nodup_cons, hpair]
    exact fun hnodup => hnodup.1 (List.mem_map_of_mem List.mem_concat_self)
  | _ => cases hother

open IdempotencyChecker in
/-- The copy for the second worker is tested after the first one has accepted. -/
def orderlyRun : List (Bool × Event) :=
  [(false, .receive (insertAt 1)), (true, .receive (insertAt 1)), (false, .step), (false, .step),
    (false, .step), (false, .step), (true, .step)]

theorem orderlyRun_applies_once :
    ∃ c, exec (worker true) start orderlyRun = some c ∧
      c.shared.applied = [IdempotencyChecker.insertAt 1] ∧ (c.shared.applied.map pair).Nodup := by
  refine ⟨_, rfl, rfl, ?_⟩
  exact applied_at_most_once true orderlyRun _ (by decide) rfl

open IdempotencyChecker in
/-- Both workers ask the tracker before either of them accepts. -/
def raceRun : List (Bool × Event) :=
  [(false, .receive (insertAt 1)), (true, .receive (insertAt 1)), (false, .step), (true, .step),
    (false, .step), (true, .step), (false, .step), (true, .step), (false, .step), (true, .step)]

/-- With either use of `OutOfOrder`. -/
theorem retransmission_is_applied_twice :
    (∃ c, exec (worker true) start raceRun = some c ∧
      c.shared.applied = [IdempotencyChecker.insertAt 1, IdempotencyChecker.insertAt 1] ∧
      ¬ (c.shared.applied.map pair).Nodup) ∧
    ∃ c, exec (worker false) start raceRun = some c ∧
      c.shared.applied = [IdempotencyChecker.insertAt 1, IdempotencyChecker.insertAt 1] ∧
      ¬ (c.shared.applied.map pair).Nodup := by
  constructor
  · exact ⟨_, rfl, rfl, by decide⟩
  · exact ⟨_, rfl, rfl, by decide⟩

end OpenArangoDBCore.Replication.ConcurrentReceivers
