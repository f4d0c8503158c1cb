import OpenArangoDBCore.Lib.ProducerConsumer
import OpenArangoDBCore.RocksDBEngine.IndexBuilderThreadPool

/-!
# Accepted tasks run exactly once

The pool moves tasks as producers and consumers do: a call of `submit` offers
its task under the flag and the mutex, a worker takes it from the queue.
-/

namespace OpenArangoDBCore.RocksDBEngine.IndexBuilderThreadPool
open Interleaving ProducerConsumer

/-- What is seen of the pool: a task ran, `submit` returned a future or
`nullopt`, `shutdown` returned. -/
inductive Outcome where
  | ran (task : ℕ)
  | accepted (task : ℕ)
  | rejected (task : ℕ)
  | shutdownReturned
  deriving DecidableEq

variable {n : ℕ} {s s' : Pool n} {l l' : Control n} {e : Event n}

def outcome {T : Type} (_ : T) (s : Pool n) : Control n → Event n → List Outcome
  | .worker _ (.running task), .step => [.ran task]
  | .client .idle, .submit => if s.shutdown then [.rejected s.created] else []
  | .client (.unlocking task false), .step => [.rejected task]
  | .client (.notifying task), .notify _ => [.accepted task]
  | .client (.joining i), .step => if i < n then [] else [.shutdownReturned]
  | _, _ => []

def ran (seen : List Outcome) : List ℕ :=
  seen.filterMap fun
    | .ran task => some task
    | _ => none

def rejected (seen : List Outcome) : List ℕ :=
  seen.filterMap fun
    | .rejected task => some task
    | _ => none

theorem mem_tasks {f : Outcome → Option ℕ} {kind : ℕ → Outcome}
    (hkind : ∀ o task, f o = some task ↔ o = kind task) {seen : List Outcome} {task : ℕ} :
    task ∈ seen.filterMap f ↔ kind task ∈ seen := by
  simp only [List.mem_filterMap, hkind, exists_eq_right]

theorem mem_ran {seen : List Outcome} {task : ℕ} : task ∈ ran seen ↔ .ran task ∈ seen :=
  mem_tasks fun o task => by cases o <;> simp

theorem mem_rejected {seen : List Outcome} {task : ℕ} :
    task ∈ rejected seen ↔ .rejected task ∈ seen :=
  mem_tasks fun o task => by cases o <;> simp

@[simp] theorem ran_append (seen more : List Outcome) :
    ran (seen ++ more) = ran seen ++ ran more := List.filterMap_append

@[simp] theorem rejected_append (seen more : List Outcome) :
    rejected (seen ++ more) = rejected seen ++ rejected more := List.filterMap_append

theorem joining_moves_none {T : Type} (t : T) (s : Pool n) (i : ℕ) :
    ran (outcome t s (.client (.joining i)) .step) = [] ∧
      rejected (outcome t s (.client (.joining i)) .step) = [] := by
  by_cases hi : i < n <;> simp [outcome, hi, ran, rejected]

def offers : Control n → Option ℕ
  | .client (.submitting task) => some task
  | .client (.checking task) => some task
  | .client (.pushing task) => some task
  | .client (.unlocking task false) => some task
  | _ => none

def takes : Control n → Option ℕ
  | .worker _ (.unlocking (.run task)) => some task
  | .worker _ (.running task) => some task
  | _ => none

/-! ### The steps -/

def leaves : Control n → Bool
  | .worker _ (.unlocking .leave) => true
  | .worker _ .exited => true
  | _ => false

theorem step_leaves (h : Step s l e s' l') (hl : leaves l' = true) :
    leaves l = true ∨ s' = s ∧ s.shutdown = true ∧ s.taskQueue = [] ∧ holds l = true := by
  cases h with
  | leave hflag hqueue => exact .inr ⟨rfl, hflag, hqueue, rfl⟩
  | exit => exact .inl rfl
  | _ => exact Bool.noConfusion hl

theorem step_empty (h : Step s l e s' l') (hqueue : s.taskQueue = []) :
    s'.taskQueue = [] ∨ ∃ task, l = .client (.pushing task) := by
  cases h with
  | take hcons => exact absurd hqueue (by rw [hcons]; nofun)
  | push => exact .inr ⟨_, rfl⟩
  | _ => exact .inl hqueue

theorem step_pushing {task : ℕ} (h : Step s l e s' (.client (.pushing task))) :
    s.shutdown = false := by
  cases h with
  | accept hflag => exact hflag

theorem step_created (h : Step s l e s' l') : s.created ≤ s'.created := by
  cases h with
  | refuse => exact Nat.le_succ _
  | submit => exact Nat.le_succ _
  | _ => exact Nat.le_refl _

/-- The task is in the queue or has been there, as far as its `submit` goes. -/
def pushed : Control n → Option ℕ
  | .client (.unlocking task true) => some task
  | .client (.notifying task) => some task
  | _ => none

theorem step_pushed {task : ℕ} (h : Step s l e s' l') (hl : pushed l' = some task) :
    pushed l = some task ∨ s'.taskQueue = s.taskQueue ++ [task] := by
  cases h with
  | push =>
    cases hl
    exact .inr rfl
  | pushed => exact .inl hl
  | _ => cases hl

theorem outcome_accepted {T : Type} {t : T} {task : ℕ}
    (h : .accepted task ∈ outcome t s l e) : l = .client (.notifying task) := by
  unfold outcome at h
  split at h
  case h_2 => split at h <;> simp at h
  case h_5 => split at h <;> simp at h
  all_goals simp_all

theorem outcome_returned {T : Type} {t : T} (h : .shutdownReturned ∈ outcome t s l e) :
    ∃ i, ¬ i < n ∧ l = .client (.joining i) := by
  unfold outcome at h
  split at h
  case h_2 => split at h <;> simp at h
  case h_5 i =>
    split at h
    next => simp at h
    next hi => exact ⟨i, hi, rfl⟩
  all_goals simp_all

section Threads
variable {C : Type} {seen : List Outcome}
  {c c' : Config (Fin n ⊕ C) (Pool n) (Control n)}

def offered (c : Config (Fin n ⊕ C) (Pool n) (Control n)) (t : C) : Option ℕ :=
  offers (c.control (.inr t))

def taken (c : Config (Fin n ⊕ C) (Pool n) (Control n)) (w : Fin n) : Option ℕ :=
  takes (c.control (.inl w))

/-- Where the tasks are. -/
def custody (seen : List Outcome) (c : Config (Fin n ⊕ C) (Pool n) (Control n)) :
    Custody C (Fin n) ℕ :=
  ⟨offered c, c.shared.taskQueue, taken c, ran seen, rejected seen⟩

/-- Once a worker has found the flag set and the queue empty, no task comes in. -/
structure Closed (c : Config (Fin n ⊕ C) (Pool n) (Control n)) : Prop where
  flag : c.shared.shutdown = true
  queue : c.shared.taskQueue = []
  pushing : ∀ t task, c.control t ≠ .client (.pushing task)

def Closing (c : Config (Fin n ⊕ C) (Pool n) (Control n)) : Prop :=
  (∃ t, leaves (c.control t) = true) → Closed c

structure Accounted (seen : List Outcome) (c : Config (Fin n ⊕ C) (Pool n) (Control n)) :
    Prop where
  orderly : Orderly c
  exclusive : Exclusive Pool.locked holds c
  closing : Closing c
  separate : (custody seen c).Separate
  numbered : ∀ task p, (custody seen c).At task p → task < c.shared.created
  accepted : ∀ task, .accepted task ∈ seen → (custody seen c).Accepted task
  pushed : ∀ t task, pushed (c.control t) = some task → (custody seen c).Accepted task
  returned : .shutdownReturned ∈ seen → ∀ w, c.shared.exited w = true

theorem start_accounted : Accounted [] (start n C) where
  orderly := start_orderly
  exclusive := start_exclusive C
  closing := by
    rintro ⟨t, ht⟩
    cases t <;> cases ht
  separate := by
    refine ⟨fun task p q hp => ?_, List.nodup_nil, List.nodup_nil⟩
    cases p <;> cases hp
  numbered task p hp := by cases p <;> cases hp
  accepted _ hmem := by cases hmem
  pushed t task ht := by cases t <;> cases ht
  returned hmem := by cases hmem

theorem Accounted.empty_of_exited (h : Accounted seen c) (w : Fin n)
    (hexited : c.shared.exited w = true) : c.shared.taskQueue = [] := by
  refine (h.closing ⟨.inl w, ?_⟩).queue
  rw [h.orderly.exited w hexited]
  rfl

theorem Accounted.ran_of_exited (h : Accounted seen c) (hn : 0 < n)
    (hexited : ∀ w, c.shared.exited w = true) {task : ℕ} (hmem : .accepted task ∈ seen) :
    task ∈ ran seen := by
  obtain ⟨p, hinside, hat⟩ := h.accepted task hmem
  cases p with
  | queued =>
    have hqueue : task ∈ c.shared.taskQueue := hat
    rw [h.empty_of_exited ⟨0, hn⟩ (hexited _)] at hqueue
    cases hqueue
  | taken w =>
    have htakes : takes (c.control (.inl w)) = some task := hat
    rw [h.orderly.exited w (hexited w)] at htakes
    cases htakes
  | finished => exact hat
  | _ => exact hinside.elim

/-! ### The pool moves tasks -/

variable [DecidableEq C]

theorem custody_worker (seen : List Outcome) (s' : Pool n) (w : Fin n) (l : Control n) :
    custody seen ⟨s', Function.update c.control (.inl w) l⟩ = ⟨offered c, s'.taskQueue,
      Function.update (taken c) w (takes l), ran seen, rejected seen⟩ := by
  have htaken : taken ⟨s', Function.update c.control (.inl w) l⟩ =
      Function.update (taken c) w (takes l) := by
    funext u
    simp only [taken, Function.update_apply, Sum.inl.injEq]
    split <;> rfl
  rw [custody, htaken]
  rfl

theorem custody_client (seen : List Outcome) (s' : Pool n) (t : C) (l : Control n) :
    custody seen ⟨s', Function.update c.control (.inr t) l⟩ =
      ⟨Function.update (offered c) t (offers l), s'.taskQueue, taken c, ran seen,
        rejected seen⟩ := by
  have hoffered : offered ⟨s', Function.update c.control (.inr t) l⟩ =
      Function.update (offered c) t (offers l) := by
    funext u
    simp only [offered, Function.update_apply, Sum.inr.injEq]
    split <;> rfl
  rw [custody, hoffered]
  rfl

/-- A task that appears is one that was just numbered. -/
def Numbered (s s' : Pool n) (task : ℕ) : Prop :=
  task = s.created ∧ s.created < s'.created

theorem worker_stays {new : ℕ → Prop} {more : List Outcome} {w : Fin n}
    (hqueue : s'.taskQueue = c.shared.taskQueue) (hl : takes l' = taken c w)
    (hmore : more = []) : Move new (custody seen c)
      (custody (seen ++ more) ⟨s', Function.update c.control (.inl w) l'⟩) := by
  rw [custody_worker, hqueue, hl, Function.update_eq_self, hmore, List.append_nil]
  exact .stay

theorem client_stays {new : ℕ → Prop} {more : List Outcome} {t : C}
    (hqueue : s'.taskQueue = c.shared.taskQueue) (hl : offers l' = offered c t)
    (hran : ran more = []) (hrejected : rejected more = []) : Move new (custody seen c)
      (custody (seen ++ more) ⟨s', Function.update c.control (.inr t) l'⟩) := by
  rw [custody_client, hqueue, hl, Function.update_eq_self, ran_append, rejected_append, hran,
    hrejected, List.append_nil, List.append_nil]
  exact .stay

theorem worker_moves {w : Fin n} {phase phase' : WorkerPhase}
    (hw : c.control (.inl w) = .worker w phase)
    (h : Step c.shared (.worker w phase) e s' (.worker w phase')) :
    Move (Numbered c.shared s') (custody seen c)
      (custody (seen ++ outcome (.inl w : Fin n ⊕ C) c.shared (.worker w phase) e)
        ⟨s', Function.update c.control (.inl w) (.worker w phase')⟩) := by
  have htaken : taken c w = takes (.worker w phase) := congrArg takes hw
  cases h with
  | @take _ task rest hqueue =>
    have heq : custody (seen ++ []) ⟨{c.shared with taskQueue := rest}, Function.update c.control
        (.inl w) (.worker w (.unlocking (.run task)))⟩ =
        ((custody seen c).remove .queued).put task (.taken w) := by
      rw [custody_worker, List.append_nil]
      simp [custody, Custody.remove, Custody.put, takes, hqueue]
    have hready : (custody seen c).Ready task .queued := by
      show c.shared.taskQueue.head? = some task
      rw [hqueue]
      rfl
    have hmove : Move (Numbered c.shared {c.shared with taskQueue := rest}) (custody seen c)
        (((custody seen c).remove .queued).put task (.taken w)) := .pass hready trivial htaken
    rwa [← heq] at hmove
  | @run _ task =>
    have heq : custody (seen ++ [.ran task]) ⟨c.shared, Function.update c.control
        (.inl w) (.worker w .locking)⟩ =
        ((custody seen c).remove (.taken w)).put task .finished := by
      rw [custody_worker]
      simp [custody, Custody.remove, Custody.put, takes, ran, rejected]
    have hmove : Move (Numbered c.shared c.shared) (custody seen c)
        (((custody seen c).remove (.taken w)).put task .finished) := .pass htaken trivial trivial
    rwa [← heq] at hmove
  | _ => exact worker_stays rfl htaken.symm rfl

theorem client_moves {t : C} {phase phase' : ClientPhase}
    (ht : c.control (.inr t) = .client phase)
    (h : Step c.shared (.client phase) e s' (.client phase')) :
    Move (Numbered c.shared s') (custody seen c)
      (custody (seen ++ outcome (.inr t : Fin n ⊕ C) c.shared (.client phase) e)
        ⟨s', Function.update c.control (.inr t) (.client phase')⟩) := by
  have hoffered : offered c t = offers (.client phase : Control n) := congrArg offers ht
  cases h with
  | refuse hflag =>
    have hrefused : outcome (.inr t : Fin n ⊕ C) c.shared (.client .idle) .submit =
        [.rejected c.shared.created] := if_pos hflag
    have heq : custody (seen ++ [.rejected c.shared.created])
        ⟨{c.shared with created := c.shared.created + 1}, Function.update c.control (.inr t)
          (.client .idle)⟩ = (custody seen c).put c.shared.created .refused := by
      rw [custody_client, show offers (.client .idle : Control n) = offered c t from hoffered.symm,
        Function.update_eq_self]
      simp [custody, Custody.put, ran, rejected]
    have hmove : Move (Numbered c.shared {c.shared with created := c.shared.created + 1})
        (custody seen c) ((custody seen c).put c.shared.created .refused) :=
      .arrive ⟨rfl, Nat.lt_succ_self _⟩ trivial trivial
    rwa [← heq, ← hrefused] at hmove
  | submit hflag =>
    have hoff : outcome (.inr t : Fin n ⊕ C) c.shared (.client .idle) .submit = [] :=
      if_neg (by rw [hflag]; nofun)
    have heq : custody (seen ++ []) ⟨{c.shared with created := c.shared.created + 1},
        Function.update c.control (.inr t) (.client (.submitting c.shared.created))⟩ =
        (custody seen c).put c.shared.created (.offered t) := by
      rw [custody_client, List.append_nil]
      rfl
    have hmove : Move (Numbered c.shared {c.shared with created := c.shared.created + 1})
        (custody seen c) ((custody seen c).put c.shared.created (.offered t)) :=
      .arrive ⟨rfl, Nat.lt_succ_self _⟩ trivial hoffered
    rwa [← heq, ← hoff] at hmove
  | @push task =>
    have heq : custody (seen ++ []) ⟨{c.shared with taskQueue := c.shared.taskQueue ++ [task]},
        Function.update c.control (.inr t) (.client (.unlocking task true))⟩ =
        ((custody seen c).remove (.offered t)).put task .queued := by
      rw [custody_client, List.append_nil]
      rfl
    have hmove : Move
        (Numbered c.shared {c.shared with taskQueue := c.shared.taskQueue ++ [task]})
        (custody seen c) (((custody seen c).remove (.offered t)).put task .queued) :=
      .pass hoffered trivial trivial
    rwa [← heq] at hmove
  | @rejected task =>
    have heq : custody (seen ++ [.rejected task]) ⟨{c.shared with locked := false},
        Function.update c.control (.inr t) (.client .idle)⟩ =
        ((custody seen c).remove (.offered t)).put task .refused := by
      rw [custody_client]
      simp [custody, Custody.remove, Custody.put, offers, ran, rejected]
    have hmove : Move (Numbered c.shared {c.shared with locked := false}) (custody seen c)
        (((custody seen c).remove (.offered t)).put task .refused) :=
      .pass hoffered trivial trivial
    rwa [← heq] at hmove
  | done =>
    exact client_stays rfl hoffered.symm (joining_moves_none _ _ _).1 (joining_moves_none _ _ _).2
  | join =>
    exact client_stays rfl hoffered.symm (joining_moves_none _ _ _).1 (joining_moves_none _ _ _).2
  | _ => exact client_stays rfl hoffered.symm rfl rfl

theorem fire_moves {x : (Fin n ⊕ C) × Event n} (horderly : Orderly c)
    (hf : fire pool c x = some c') : Move (Numbered c.shared c'.shared) (custody seen c)
      (custody (seen ++ outcome x.1 c.shared (c.control x.1) x.2) c') := by
  obtain ⟨t₀, e⟩ := x
  obtain ⟨s, l, hp, rfl⟩ := fire_inv hf
  dsimp only at hp ⊢
  cases t₀ with
  | inl w =>
    obtain ⟨phase, hphase⟩ := horderly.worker w
    rw [hphase] at hp ⊢
    obtain ⟨phase', rfl⟩ := pool_worker hp
    exact worker_moves hphase (step_of_pool hp)
  | inr t =>
    obtain ⟨phase, hphase⟩ := horderly.client t
    rw [hphase] at hp ⊢
    obtain ⟨phase', rfl⟩ := pool_client hp
    exact client_moves hphase (step_of_pool hp)

/-! ### The last worker leaves an empty queue -/

theorem Closed.step {x : (Fin n ⊕ C) × Event n} (h : Closed c) (hf : fire pool c x = some c') :
    Closed c' := by
  have hstep := step_of_pool (fire_own hf)
  constructor
  · rcases step_flag hstep with hsame | ⟨hset, -⟩
    · exact hsame.trans h.flag
    · exact hset
  · rcases step_empty hstep h.queue with hempty | ⟨task, hpushing⟩
    · exact hempty
    · exact absurd hpushing (h.pushing x.1 task)
  · intro t task ht
    by_cases hself : t = x.1
    · rw [← hself, ht] at hstep
      exact absurd h.flag (by rw [step_pushing hstep]; nofun)
    · exact h.pushing t task ((fire_frame hf hself).symm.trans ht)

theorem Closing.step {x : (Fin n ⊕ C) × Event n} (h : Closing c)
    (hexclusive : Exclusive Pool.locked holds c) (hf : fire pool c x = some c') : Closing c' := by
  rintro ⟨t, ht⟩
  by_cases hbefore : ∃ t, leaves (c.control t) = true
  · exact (h hbefore).step hf
  have hself : t = x.1 := by
    by_contra hother
    exact hbefore ⟨t, by rwa [← fire_frame hf hother]⟩
  subst hself
  -- the worker that decides has the mutex, so no client has it
  rcases step_leaves (step_of_pool (fire_own hf)) ht with hold | ⟨hsame, hflag, hqueue, hholds⟩
  · exact absurd ⟨x.1, hold⟩ hbefore
  · refine ⟨hsame ▸ hflag, hsame ▸ hqueue, fun u task hu => ?_⟩
    by_cases hother : u = x.1
    · rw [← hother, hu] at ht
      cases ht
    · rw [fire_frame hf hother] at hu
      exact hother (hexclusive.unique u x.1 (by rw [hu]; rfl) hholds)

/-! ### Every task is accounted for -/

theorem Accounted.step {x : (Fin n ⊕ C) × Event n} (h : Accounted seen c)
    (hf : fire pool c x = some c') :
    Accounted (seen ++ outcome x.1 c.shared (c.control x.1) x.2) c' := by
  have hstep := step_of_pool (fire_own hf)
  have hmove : Move _ (custody seen c) _ := fire_moves h.orderly hf
  have hkeep : ∀ task, (custody seen c).Accepted task →
      (custody (seen ++ outcome x.1 c.shared (c.control x.1) x.2) c').Accepted task :=
    fun _ hacc => hmove.accepted h.separate hacc
  refine ⟨h.orderly.step hf, pool_guarded.step h.exclusive hf, h.closing.step h.exclusive hf,
    ?_, ?_, ?_, ?_, ?_⟩
  · apply hmove.separate h.separate
    rintro task ⟨rfl, -⟩ p hat
    exact Nat.lt_irrefl _ (h.numbered _ p hat)
  · intro task p hat
    rcases hmove.known hat with ⟨rfl, hlt⟩ | ⟨q, hold⟩
    · exact hlt
    · exact Nat.lt_of_lt_of_le (h.numbered task q hold) (step_created hstep)
  · intro task hmem
    apply hkeep
    rcases List.mem_append.mp hmem with hold | hnow
    · exact h.accepted task hold
    · exact h.pushed x.1 task (by rw [outcome_accepted hnow]; rfl)
  · intro t task ht
    by_cases hself : t = x.1
    · subst hself
      rcases step_pushed hstep ht with hold | hqueue
      · exact hkeep task (h.pushed x.1 task hold)
      · refine ⟨.queued, trivial, ?_⟩
        show task ∈ c'.shared.taskQueue
        rw [hqueue]
        exact List.mem_append_right _ (List.mem_singleton_self task)
    · rw [fire_frame hf hself] at ht
      exact hkeep task (h.pushed t task ht)
  · intro hmem w
    apply step_keeps_exited hstep
    rcases List.mem_append.mp hmem with hold | hnow
    · exact h.returned hold w
    · obtain ⟨i, hi, hjoining⟩ := outcome_returned hnow
      exact h.orderly.joined x.1 i hjoining w (Nat.lt_of_lt_of_le w.isLt (Nat.le_of_not_lt hi))

theorem run_accounted {tr : List ((Fin n ⊕ C) × Event n)}
    (h : exec pool (start n C) tr = some c) :
    Accounted (observed pool outcome (start n C) tr) c :=
  observed_invariant outcome Accounted (fun _ _ _ _ hI hf => hI.step hf) tr _ c start_accounted h

theorem exec_keeps_exited {tr : List ((Fin n ⊕ C) × Event n)} (h : exec pool c tr = some c')
    (hexited : ∀ w, c.shared.exited w = true) (w : Fin n) : c'.shared.exited w = true := by
  refine exec_invariant (fun _ c => c.shared.exited w = true) (fun _ c x c' hI hf => ?_) tr c c'
    (hexited w) h
  exact step_keeps_exited (step_of_pool (fire_own hf)) hI

def history (tr : List ((Fin n ⊕ C) × Event n)) : List Outcome :=
  observed pool outcome (start n C) tr

theorem accepted_tasks_run_once (n : ℕ) (hn : 0 < n) (C : Type) [DecidableEq C]
    (tr : List ((Fin n ⊕ C) × Event n)) (c : Config (Fin n ⊕ C) (Pool n) (Control n))
    (hrun : exec pool (start n C) tr = some c) :
    (ran (history tr)).Nodup ∧ (∀ task, .rejected task ∈ history tr → .ran task ∉ history tr) ∧
      (.shutdownReturned ∈ history tr → ∀ w, c.shared.exited w = true) ∧
      ((∀ w, c.shared.exited w = true) →
        (∀ task, .accepted task ∈ history tr → .ran task ∈ history tr) ∧
        ∀ more c', exec pool c more = some c' → c'.shared.taskQueue = []) := by
  have h : Accounted (history tr) c := run_accounted hrun
  refine ⟨h.separate.finished, ?_, h.returned, ?_⟩
  · intro task hrejected hran
    cases h.separate.unique task .refused .finished (mem_rejected.mpr hrejected) (mem_ran.mpr hran)
  · refine fun hexited => ⟨fun task hmem => mem_ran.mp (h.ran_of_exited hn hexited hmem), ?_⟩
    intro more c' hmore
    have hall : exec pool (start n C) (tr ++ more) = some c' := by
      rw [exec_append, hrun]
      exact hmore
    exact (run_accounted hall).empty_of_exited ⟨0, hn⟩ (exec_keeps_exited hmore hexited _)

/-- A task is accepted while the only worker is at its test; then `shutdown`
is called, and the task runs before the worker leaves. -/
def taskRun : List ((Fin 1 ⊕ Unit) × Event 1) :=
  [byClient .submit, byClient .step, byClient .step, byClient .step, byClient .step,
    byWorker .step, byClient (.notify none), byClient .shutdown, byClient .step, byWorker .step,
    byWorker .step, byWorker .step, byWorker .step, byWorker .step, byWorker .step,
    byWorker .step, byWorker .step, byWorker .step, byClient .step, byClient .step]

theorem taskRun_runs : .shutdownReturned ∈ history taskRun ∧ .accepted 0 ∈ history taskRun ∧
    .ran 0 ∈ history taskRun :=
  have h := accepted_tasks_run_once 1 (by decide) Unit taskRun _ rfl
  ⟨by decide, by decide, (h.2.2.2 (h.2.2.1 (by decide))).1 0 (by decide)⟩

end Threads
end OpenArangoDBCore.RocksDBEngine.IndexBuilderThreadPool
