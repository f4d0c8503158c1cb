import OpenArangoDBCore.Lib.MutualExclusion

/-!
# The thread pool of the index builder (IndexBuilderThreadPool.cpp)

Workers and any number of other threads, which submit tasks and shut the pool
down, interleave at the accesses to the mutex, the flag `_shutdown` and the
condition variable. A notification reaches threads that wait at that moment
only. Tasks are numbered in the order of the calls of `submit`.
-/

namespace OpenArangoDBCore.RocksDBEngine.IndexBuilderThreadPool
open Interleaving

/-- `waiting` are the workers asleep on `_cv`, `exited` those that returned. -/
structure Pool (n : ℕ) where
  taskQueue : List ℕ
  locked : Bool
  shutdown : Bool
  waiting : Fin n → Bool
  exited : Fin n → Bool
  created : ℕ

/-- Where a worker goes on once it has left the critical section. -/
inductive After where
  | leave
  | again
  | run (task : ℕ)
  deriving DecidableEq

inductive WorkerPhase where
  | locking
  | testing
  | falling
  | asleep
  | deciding
  | taking
  | unlocking (after : After)
  | running (task : ℕ)
  | exited
  deriving DecidableEq

inductive ClientPhase where
  | idle
  | submitting (task : ℕ)
  | checking (task : ℕ)
  | pushing (task : ℕ)
  | unlocking (task : ℕ) (accepted : Bool)
  | notifying (task : ℕ)
  | notifyingAll
  | joining (i : ℕ)
  deriving DecidableEq

inductive Control (n : ℕ) where
  | worker (w : Fin n) (phase : WorkerPhase)
  | client (phase : ClientPhase)
  deriving DecidableEq

inductive Event (n : ℕ) where
  | step
  | spuriousWakeup
  | submit
  | notify (w : Option (Fin n))
  | shutdown

variable {n : ℕ}

def After.phase : After → WorkerPhase
  | .leave => .exited
  | .again => .locking
  | .run task => .running task

/-- `workerLoop` -/
def workerStep (w : Fin n) (s : Pool n) : WorkerPhase → Event n → Option (Pool n × WorkerPhase)
  | .locking, .step => if s.locked then none else some ({s with locked := true}, .testing)
  -- the predicate, with the mutex held
  | .testing, .step =>
    if s.shutdown = true ∨ s.taskQueue ≠ [] then some (s, .deciding) else some (s, .falling)
  | .falling, .step =>
    some ({s with locked := false, waiting := Function.update s.waiting w true}, .asleep)
  | .asleep, .step =>
    if s.waiting w ∨ s.locked then none else some ({s with locked := true}, .testing)
  | .asleep, .spuriousWakeup =>
    some ({s with waiting := Function.update s.waiting w false}, .asleep)
  | .deciding, .step =>
    if s.shutdown = true ∧ s.taskQueue = [] then some (s, .unlocking .leave)
    else if s.taskQueue = [] then some (s, .unlocking .again)
    else some (s, .taking)
  | .taking, .step =>
    match s.taskQueue with
    | [] => none
    | task :: rest => some ({s with taskQueue := rest}, .unlocking (.run task))
  | .unlocking after, .step =>
    some ({s with
      locked := false
      exited := if after = .leave then Function.update s.exited w true else s.exited}, after.phase)
  | .running _, .step => some (s, .locking)
  | _, _ => none

/-- `submit` and `shutdown` -/
def clientStep (s : Pool n) : ClientPhase → Event n → Option (Pool n × ClientPhase)
  | .idle, .submit =>
    if s.shutdown then some ({s with created := s.created + 1}, .idle)
    else some ({s with created := s.created + 1}, .submitting s.created)
  | .submitting task, .step =>
    if s.locked then none else some ({s with locked := true}, .checking task)
  -- the flag again, with the mutex held
  | .checking task, .step =>
    if s.shutdown then some (s, .unlocking task false) else some (s, .pushing task)
  | .pushing task, .step =>
    some ({s with taskQueue := s.taskQueue ++ [task]}, .unlocking task true)
  | .unlocking task accepted, .step =>
    some ({s with locked := false}, if accepted then .notifying task else .idle)
  | .notifying _, .notify (some w) =>
    if s.waiting w then some ({s with waiting := Function.update s.waiting w false}, .idle)
    else none
  | .notifying _, .notify none => if ∃ w, s.waiting w = true then none else some (s, .idle)
  | .idle, .shutdown =>
    if s.shutdown then some (s, .joining 0) else some ({s with shutdown := true}, .notifyingAll)
  | .notifyingAll, .step => some ({s with waiting := fun _ => false}, .joining 0)
  | .joining i, .step =>
    if h : i < n then
      if s.exited ⟨i, h⟩ then some (s, .joining (i + 1)) else none
    else some (s, .idle)
  | _, _ => none

def pool : Program (Pool n) (Control n) (Event n)
  | s, .worker w phase, e => (workerStep w s phase e).map fun r => (r.1, .worker w r.2)
  | s, .client phase, e => (clientStep s phase e).map fun r => (r.1, .client r.2)

/-- The pool as constructed; the threads of type `C` are not its own. -/
def start (n : ℕ) (C : Type) : Config (Fin n ⊕ C) (Pool n) (Control n) where
  shared := ⟨[], false, false, fun _ => false, fun _ => false, 0⟩
  control
    | .inl w => .worker w .locking
    | .inr _ => .client .idle

/-- The only worker of a pool of one. -/
def onlyWorker : Fin 1 := 0

def byWorker (e : Event 1) : (Fin 1 ⊕ Unit) × Event 1 := (.inl onlyWorker, e)
def byClient (e : Event 1) : (Fin 1 ⊕ Unit) × Event 1 := (.inr (), e)

/-! ### The transitions -/

/-- The steps of the threads, one by one. -/
inductive Step (s : Pool n) : Control n → Event n → Pool n → Control n → Prop where
  | lock {w : Fin n} (h : s.locked = false) :
      Step s (.worker w .locking) .step {s with locked := true} (.worker w .testing)
  | predicateTrue {w : Fin n} (h : s.shutdown = true ∨ s.taskQueue ≠ []) :
      Step s (.worker w .testing) .step s (.worker w .deciding)
  | predicateFalse {w : Fin n} (hflag : s.shutdown = false) (hqueue : s.taskQueue = []) :
      Step s (.worker w .testing) .step s (.worker w .falling)
  | wait {w : Fin n} : Step s (.worker w .falling) .step
      {s with locked := false, waiting := Function.update s.waiting w true} (.worker w .asleep)
  | wake {w : Fin n} (hnotified : s.waiting w = false) (h : s.locked = false) :
      Step s (.worker w .asleep) .step {s with locked := true} (.worker w .testing)
  | spuriousWakeup {w : Fin n} : Step s (.worker w .asleep) .spuriousWakeup
      {s with waiting := Function.update s.waiting w false} (.worker w .asleep)
  | leave {w : Fin n} (hflag : s.shutdown = true) (hqueue : s.taskQueue = []) :
      Step s (.worker w .deciding) .step s (.worker w (.unlocking .leave))
  | again {w : Fin n} (hflag : s.shutdown = false) (hqueue : s.taskQueue = []) :
      Step s (.worker w .deciding) .step s (.worker w (.unlocking .again))
  | found {w : Fin n} (hqueue : s.taskQueue ≠ []) :
      Step s (.worker w .deciding) .step s (.worker w .taking)
  | take {w : Fin n} {task : ℕ} {rest : List ℕ} (hqueue : s.taskQueue = task :: rest) :
      Step s (.worker w .taking) .step {s with taskQueue := rest}
        (.worker w (.unlocking (.run task)))
  | exit {w : Fin n} : Step s (.worker w (.unlocking .leave)) .step
      {s with locked := false, exited := Function.update s.exited w true} (.worker w .exited)
  | loop {w : Fin n} : Step s (.worker w (.unlocking .again)) .step {s with locked := false}
      (.worker w .locking)
  | taken {w : Fin n} {task : ℕ} : Step s (.worker w (.unlocking (.run task))) .step
      {s with locked := false} (.worker w (.running task))
  | run {w : Fin n} {task : ℕ} :
      Step s (.worker w (.running task)) .step s (.worker w .locking)
  | refuse (hflag : s.shutdown = true) :
      Step s (.client .idle) .submit {s with created := s.created + 1} (.client .idle)
  | submit (hflag : s.shutdown = false) : Step s (.client .idle) .submit
      {s with created := s.created + 1} (.client (.submitting s.created))
  | lockQueue {task : ℕ} (h : s.locked = false) : Step s (.client (.submitting task)) .step
      {s with locked := true} (.client (.checking task))
  | reject {task : ℕ} (hflag : s.shutdown = true) :
      Step s (.client (.checking task)) .step s (.client (.unlocking task false))
  | accept {task : ℕ} (hflag : s.shutdown = false) :
      Step s (.client (.checking task)) .step s (.client (.pushing task))
  | push {task : ℕ} : Step s (.client (.pushing task)) .step
      {s with taskQueue := s.taskQueue ++ [task]} (.client (.unlocking task true))
  | rejected {task : ℕ} : Step s (.client (.unlocking task false)) .step {s with locked := false}
      (.client .idle)
  | pushed {task : ℕ} : Step s (.client (.unlocking task true)) .step {s with locked := false}
      (.client (.notifying task))
  | notifyOne {task : ℕ} {w : Fin n} (h : s.waiting w = true) :
      Step s (.client (.notifying task)) (.notify (some w))
        {s with waiting := Function.update s.waiting w false} (.client .idle)
  | notifyNone {task : ℕ} (h : ∀ w, s.waiting w = false) :
      Step s (.client (.notifying task)) (.notify none) s (.client .idle)
  | announce (hflag : s.shutdown = false) : Step s (.client .idle) .shutdown
      {s with shutdown := true} (.client .notifyingAll)
  | announced (hflag : s.shutdown = true) :
      Step s (.client .idle) .shutdown s (.client (.joining 0))
  | notifyAll : Step s (.client .notifyingAll) .step {s with waiting := fun _ => false}
      (.client (.joining 0))
  | join {i : ℕ} (h : i < n) (hexited : s.exited ⟨i, h⟩ = true) :
      Step s (.client (.joining i)) .step s (.client (.joining (i + 1)))
  | done {i : ℕ} (h : ¬ i < n) : Step s (.client (.joining i)) .step s (.client .idle)

theorem step_of_worker {w : Fin n} {s s' : Pool n} {phase phase' : WorkerPhase} {e : Event n}
    (h : workerStep w s phase e = some (s', phase')) :
    Step s (.worker w phase) e s' (.worker w phase') := by
  unfold workerStep at h
  split at h
  case h_1 =>
    split at h
    next => cases h
    next hlock =>
      cases h
      exact .lock (eq_false_of_ne_true hlock)
  case h_2 =>
    split at h
    next htrue =>
      cases h
      exact .predicateTrue htrue
    next hfalse =>
      cases h
      obtain ⟨hflag, hqueue⟩ := not_or.mp hfalse
      exact .predicateFalse (eq_false_of_ne_true hflag) (not_not.mp hqueue)
  case h_3 =>
    cases h
    exact .wait
  case h_4 =>
    split at h
    next => cases h
    next hwake =>
      cases h
      obtain ⟨hnotified, hlock⟩ := not_or.mp hwake
      exact .wake (eq_false_of_ne_true hnotified) (eq_false_of_ne_true hlock)
  case h_5 =>
    cases h
    exact .spuriousWakeup
  case h_6 =>
    split at h
    next hleave =>
      cases h
      exact .leave hleave.1 hleave.2
    next hstay =>
      split at h
      next hqueue =>
        cases h
        exact .again (eq_false_of_ne_true fun hflag => hstay ⟨hflag, hqueue⟩) hqueue
      next hqueue =>
        cases h
        exact .found hqueue
  case h_7 =>
    split at h
    next => cases h
    next hqueue =>
      cases h
      exact .take hqueue
  case h_8 after =>
    cases h
    cases after with
    | leave => exact .exit
    | again => exact .loop
    | run task => exact .taken
  case h_9 =>
    cases h
    exact .run
  case h_10 => cases h

theorem step_of_client {s s' : Pool n} {phase phase' : ClientPhase} {e : Event n}
    (h : clientStep s phase e = some (s', phase')) :
    Step s (.client phase) e s' (.client phase') := by
  unfold clientStep at h
  split at h
  case h_1 =>
    split at h
    next hflag =>
      cases h
      exact .refuse hflag
    next hflag =>
      cases h
      exact .submit (eq_false_of_ne_true hflag)
  case h_2 =>
    split at h
    next => cases h
    next hlock =>
      cases h
      exact .lockQueue (eq_false_of_ne_true hlock)
  case h_3 =>
    split at h
    next hflag =>
      cases h
      exact .reject hflag
    next hflag =>
      cases h
      exact .accept (eq_false_of_ne_true hflag)
  case h_4 =>
    cases h
    exact .push
  case h_5 task accepted =>
    cases h
    cases accepted with
    | false => exact .rejected
    | true => exact .pushed
  case h_6 =>
    split at h
    next hwaiting =>
      cases h
      exact .notifyOne hwaiting
    next => cases h
  case h_7 =>
    split at h
    next => cases h
    next hnone =>
      cases h
      exact .notifyNone fun w => eq_false_of_ne_true fun hw => hnone ⟨w, hw⟩
  case h_8 =>
    split at h
    next hflag =>
      cases h
      exact .announced hflag
    next hflag =>
      cases h
      exact .announce (eq_false_of_ne_true hflag)
  case h_9 =>
    cases h
    exact .notifyAll
  case h_10 =>
    split at h
    next hi =>
      split at h
      next hexited =>
        cases h
        exact .join hi hexited
      next => cases h
    next hi =>
      cases h
      exact .done hi
  case h_11 => cases h

theorem step_of_pool {s s' : Pool n} {l l' : Control n} {e : Event n}
    (h : pool s l e = some (s', l')) : Step s l e s' l' := by
  cases l with
  | worker w phase =>
    obtain ⟨r, hr, hres⟩ := Option.map_eq_some_iff.mp h
    cases hres
    exact step_of_worker hr
  | client phase =>
    obtain ⟨r, hr, hres⟩ := Option.map_eq_some_iff.mp h
    cases hres
    exact step_of_client hr

/-! ### The mutex -/

variable {s s' : Pool n} {l l' : Control n} {e : Event n}

/-- Between taking `_mutex` and freeing it. -/
def holds : Control n → Bool
  | .worker _ .testing => true
  | .worker _ .falling => true
  | .worker _ .deciding => true
  | .worker _ .taking => true
  | .worker _ (.unlocking _) => true
  | .client (.checking _) => true
  | .client (.pushing _) => true
  | .client (.unlocking _ _) => true
  | _ => false

theorem pool_guarded : Guarded (pool (n := n)) Pool.locked holds where
  acquire s l e s' l' hpool hl hl' := by
    cases step_of_pool hpool with
    | lock h => exact h
    | wake _ h => exact h
    | lockQueue h => exact h
    | _ => first | exact Bool.noConfusion hl' | exact Bool.noConfusion hl
  change s l e s' l' hpool htaken := by
    cases step_of_pool hpool with
    | _ => first | exact htaken rfl | simp [holds]

theorem start_exclusive (C : Type) : Exclusive Pool.locked holds (start n C) where
  unique t u ht := by cases t <;> cases ht
  taken t ht := by cases t <;> cases ht

theorem queue_guarded (h : Step s l e s' l') (hqueue : s'.taskQueue ≠ s.taskQueue) :
    holds l = true := by
  cases h with
  | take => rfl
  | push => rfl
  | _ => exact absurd rfl hqueue

theorem step_flag (h : Step s l e s' l') :
    s'.shutdown = s.shutdown ∨ s'.shutdown = true ∧ l' = .client .notifyingAll := by
  cases h with
  | announce => exact .inr ⟨rfl, rfl⟩
  | _ => exact .inl rfl

theorem step_announcing (h : Step s l e s' (.client .notifyingAll)) : s'.shutdown = true := by
  cases h
  rfl

theorem step_joining {i : ℕ} (h : Step s l e s' (.client (.joining i))) :
    s.shutdown = true ∨ l = .client .notifyingAll ∨ ∃ j, l = .client (.joining j) := by
  cases h with
  | announced hflag => exact .inl hflag
  | notifyAll => exact .inr (.inl rfl)
  | join => exact .inr (.inr ⟨_, rfl⟩)

theorem step_exited (h : Step s l e s' l') {w : Fin n} (hw : s'.exited w = true) :
    s.exited w = true ∨ l' = .worker w .exited := by
  cases h with
  | @exit w₀ =>
    dsimp only at hw
    rw [Function.update_apply] at hw
    split at hw
    next heq => exact .inr (by rw [heq])
    next => exact .inl hw
  | _ => exact .inl hw

theorem step_keeps_exited (h : Step s l e s' l') {w : Fin n} (hw : s.exited w = true) :
    s'.exited w = true := by
  cases h with
  | exit =>
    dsimp only
    rw [Function.update_apply]
    split
    next => rfl
    next => exact hw
  | _ => exact hw

theorem step_joined {i : ℕ} (h : Step s l e s' (.client (.joining i))) :
    i = 0 ∨ ∃ j, l = .client (.joining j) ∧ i = j + 1 ∧ ∃ hj : j < n, s.exited ⟨j, hj⟩ = true := by
  cases h with
  | announced => exact .inl rfl
  | notifyAll => exact .inl rfl
  | join hj hexited => exact .inr ⟨_, rfl, rfl, hj, hexited⟩

section Threads
variable {C : Type} {c c' : Config (Fin n ⊕ C) (Pool n) (Control n)}

/-- What holds of every state of the pool: a control state belongs to the
thread that has it, and `shutdown` joins the workers one after the other. -/
structure Orderly (c : Config (Fin n ⊕ C) (Pool n) (Control n)) : Prop where
  worker : ∀ w, ∃ phase, c.control (.inl w) = .worker w phase
  client : ∀ t, ∃ phase, c.control (.inr t) = .client phase
  exited : ∀ w, c.shared.exited w = true → c.control (.inl w) = .worker w .exited
  announcing : ∀ t, c.control t = .client .notifyingAll → c.shared.shutdown = true
  joining : ∀ t i, c.control t = .client (.joining i) → c.shared.shutdown = true
  joined : ∀ t i, c.control t = .client (.joining i) → ∀ w : Fin n, w.val < i →
    c.shared.exited w = true

theorem start_orderly : Orderly (start n C) where
  worker _ := ⟨_, rfl⟩
  client _ := ⟨_, rfl⟩
  exited _ hw := by cases hw
  announcing t ht := by cases t <;> cases ht
  joining t i ht := by cases t <;> cases ht
  joined t i ht := by cases t <;> cases ht

theorem owner_of_worker {w : Fin n} {phase : WorkerPhase} {t : Fin n ⊕ C}
    (hworker : ∀ w, ∃ phase, c.control (.inl w) = .worker w phase)
    (hclient : ∀ t, ∃ phase, c.control (.inr t) = .client phase)
    (ht : c.control t = .worker w phase) : t = .inl w := by
  cases t with
  | inl w' =>
    obtain ⟨phase', hphase⟩ := hworker w'
    rw [hphase] at ht
    cases ht
    rfl
  | inr t =>
    obtain ⟨phase', hphase⟩ := hclient t
    rw [hphase] at ht
    cases ht

theorem pool_worker {w : Fin n} {phase : WorkerPhase}
    (h : pool s (.worker w phase) e = some (s', l')) : ∃ phase', l' = .worker w phase' := by
  obtain ⟨r, -, hres⟩ := Option.map_eq_some_iff.mp h
  cases hres
  exact ⟨_, rfl⟩

theorem pool_client {phase : ClientPhase} (h : pool s (.client phase) e = some (s', l')) :
    ∃ phase', l' = .client phase' := by
  obtain ⟨r, -, hres⟩ := Option.map_eq_some_iff.mp h
  cases hres
  exact ⟨_, rfl⟩

variable [DecidableEq C]

theorem Orderly.step {x : (Fin n ⊕ C) × Event n} (h : Orderly c)
    (hf : fire pool c x = some c') : Orderly c' := by
  have hp := fire_own hf
  have hstep := step_of_pool hp
  have hflag : c.shared.shutdown = true → c'.shared.shutdown = true := by
    intro hset
    rcases step_flag hstep with hsame | ⟨hset', -⟩
    · rw [hsame, hset]
    · exact hset'
  have hworker : ∀ w, ∃ phase, c'.control (.inl w) = .worker w phase := by
    intro w
    obtain ⟨phase, hphase⟩ := h.worker w
    by_cases hw : .inl w = x.1
    · rw [← hw, hphase] at hp
      exact pool_worker hp
    · exact ⟨phase, (fire_frame hf hw).trans hphase⟩
  have hclient : ∀ t, ∃ phase, c'.control (.inr t) = .client phase := by
    intro t
    obtain ⟨phase, hphase⟩ := h.client t
    by_cases ht : .inr t = x.1
    · rw [← ht, hphase] at hp
      exact pool_client hp
    · exact ⟨phase, (fire_frame hf ht).trans hphase⟩
  refine ⟨hworker, hclient, ?_, ?_, ?_, ?_⟩
  · intro w hw
    rcases step_exited hstep hw with hold | hnow
    · have hcontrol := h.exited w hold
      rw [fire_frame hf, hcontrol]
      intro hself
      rw [← hself, hcontrol] at hstep
      cases hstep
    · rw [← owner_of_worker hworker hclient hnow]
      exact hnow
  · intro t ht
    by_cases hself : t = x.1
    · subst hself
      rw [ht] at hstep
      exact step_announcing hstep
    · exact hflag (h.announcing t ((fire_frame hf hself).symm.trans ht))
  · intro t i ht
    by_cases hself : t = x.1
    · subst hself
      rw [ht] at hstep
      rcases step_joining hstep with hset | hall | ⟨j, hj⟩
      · exact hflag hset
      · exact hflag (h.announcing x.1 hall)
      · exact hflag (h.joining x.1 j hj)
    · exact hflag (h.joining t i ((fire_frame hf hself).symm.trans ht))
  · intro t i ht w hw
    by_cases hself : t = x.1
    · subst hself
      apply step_keeps_exited hstep
      rw [ht] at hstep
      rcases step_joined hstep with rfl | ⟨j, hj, rfl, hlt, hexited⟩
      · exact absurd hw (Nat.not_lt_zero _)
      · rcases Nat.lt_succ_iff_lt_or_eq.mp hw with hbelow | heq
        · exact h.joined x.1 j hj w hbelow
        · rwa [show w = ⟨j, hlt⟩ from Fin.ext heq]
    · apply step_keeps_exited hstep
      exact h.joined t i ((fire_frame hf hself).symm.trans ht) w hw

theorem run_orderly {tr : List ((Fin n ⊕ C) × Event n)}
    (h : exec pool (start n C) tr = some c) : Orderly c :=
  exec_invariant (fun _ => Orderly) (fun _ _ _ _ hI hf => hI.step hf) tr _ c start_orderly h

theorem run_exclusive {tr : List ((Fin n ⊕ C) × Event n)}
    (h : exec pool (start n C) tr = some c) : Exclusive Pool.locked holds c :=
  pool_guarded.run (start_exclusive C) h

/-- No other thread is in a critical section when the queue changes. -/
theorem queue_changed_alone {tr : List ((Fin n ⊕ C) × Event n)} {x : (Fin n ⊕ C) × Event n}
    (hrun : exec pool (start n C) tr = some c) (hf : fire pool c x = some c')
    (hqueue : c'.shared.taskQueue ≠ c.shared.taskQueue) (u : Fin n ⊕ C) (hu : u ≠ x.1) :
    holds (c.control u) = false :=
  (run_exclusive hrun).alone (queue_guarded (step_of_pool (fire_own hf)) hqueue) hu

end Threads
end OpenArangoDBCore.RocksDBEngine.IndexBuilderThreadPool
