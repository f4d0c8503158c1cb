import OpenArangoDBCore.RocksDBEngine.IndexBuilderThreadPool

/-!
# Shutting the thread pool down

`shutdown` sets the flag and notifies without the mutex. A worker that has
found the predicate false and does not wait yet misses the notification, and
there is none to come.
-/

namespace OpenArangoDBCore.RocksDBEngine.IndexBuilderThreadPool
open Interleaving

variable {n : ℕ} {s s' : Pool n} {l l' : Control n} {e : Event n}

/-- A notification by this thread is to come. -/
def willNotify : Control n → Bool
  | .client (.pushing _) => true
  | .client (.unlocking _ accepted) => accepted
  | .client (.notifying _) => true
  | .client .notifyingAll => true
  | _ => false

/-- A `shutdown` joins a worker that is asleep, and nobody will notify it. -/
def Deadlocked {C : Type} (c : Config (Fin n ⊕ C) (Pool n) (Control n)) : Prop :=
  ∃ t w, c.control (.inr t) = .client (.joining w.val) ∧ c.control (.inl w) = .worker w .asleep ∧
    c.shared.waiting w = true ∧ ∀ u, willNotify (c.control u) = false

/-! ### What a step does to the flag and to the sleepers -/

theorem step_waiting (h : Step s l e s' l') {w : Fin n} (hw : s'.waiting w = true) :
    s.waiting w = true ∨ l = .worker w .falling := by
  cases h with
  | @wait w₀ =>
    dsimp only at hw
    rw [Function.update_apply] at hw
    split at hw
    next heq => exact .inr (by rw [heq])
    next => exact .inl hw
  | spuriousWakeup =>
    dsimp only at hw
    rw [Function.update_apply] at hw
    split at hw
    next => cases hw
    next => exact .inl hw
  | notifyOne =>
    dsimp only at hw
    rw [Function.update_apply] at hw
    split at hw
    next => cases hw
    next => exact .inl hw
  | notifyAll => cases hw
  | _ => exact .inl hw

theorem step_falling {w : Fin n} (h : Step s l e s' (.worker w .falling)) : s.shutdown = false := by
  cases h with
  | predicateFalse hflag => exact hflag

theorem notifyAll_wakes (h : Step s (.client .notifyingAll) e s' l') (w : Fin n) :
    s'.waiting w = false := by
  cases h
  rfl

theorem step_of_asleep {w : Fin n} (h : Step s (.worker w .asleep) e s' l') :
    s.waiting w = false ∨ e = .spuriousWakeup := by
  cases h with
  | wake hnotified => exact .inl hnotified
  | spuriousWakeup => exact .inr rfl

theorem step_of_joining {w : Fin n} (h : Step s (.client (.joining w)) e s' l') :
    s.exited w = true := by
  cases h with
  | join _ hexited => exact hexited
  | done hw => exact absurd w.isLt hw

/-! ### Notifications in time -/

section Threads
variable {C : Type} [DecidableEq C] {c c' : Config (Fin n ⊕ C) (Pool n) (Control n)}

/-- No worker is between a predicate found false and its wait when `shutdown`
notifies. -/
def NotifiesInTime (c : Config (Fin n ⊕ C) (Pool n) (Control n)) (x : (Fin n ⊕ C) × Event n) :
    Prop :=
  c.control x.1 = .client .notifyingAll → ∀ t w, c.control t ≠ .worker w .falling

/-- Once the flag is set, all workers are awake or are going to be notified. -/
def Notified (c : Config (Fin n ⊕ C) (Pool n) (Control n)) : Prop :=
  c.shared.shutdown = true → (∃ t, c.control t = .client .notifyingAll) ∨
    ∀ w, (∀ t, c.control t ≠ .worker w .falling) ∧ c.shared.waiting w = false

omit [DecidableEq C] in
theorem start_notified : Notified (start n C) := by
  intro hset
  cases hset

theorem notified_step {x : (Fin n ⊕ C) × Event n} (h : Notified c) (hx : NotifiesInTime c x)
    (hf : fire pool c x = some c') : Notified c' := by
  have hstep := step_of_pool (fire_own hf)
  intro hset
  rcases step_flag hstep with hsame | ⟨-, hall⟩
  · rw [hsame] at hset
    -- the awake workers stay awake
    have hstay : (∀ w, (∀ t, c.control t ≠ .worker w .falling) ∧ c'.shared.waiting w = false) →
        ∀ w, (∀ t, c'.control t ≠ .worker w .falling) ∧ c'.shared.waiting w = false := by
      refine fun hawake w => ⟨fun t ht => ?_, (hawake w).2⟩
      by_cases hself : t = x.1
      · rw [← hself, ht] at hstep
        exact absurd (step_falling hstep) (by rw [hset]; nofun)
      · exact (hawake w).1 t ((fire_frame hf hself).symm.trans ht)
    rcases h hset with ⟨t, ht⟩ | hawake
    · by_cases hself : t = x.1
      · subst hself
        refine .inr (hstay fun w => ⟨fun u => hx ht u w, ?_⟩)
        rw [ht] at hstep
        exact notifyAll_wakes hstep w
      · exact .inl ⟨t, (fire_frame hf hself).trans ht⟩
    · refine .inr (hstay fun w => ⟨(hawake w).1, eq_false_of_ne_true fun hw => ?_⟩)
      rcases step_waiting hstep hw with hold | hold
      · exact absurd hold (by rw [(hawake w).2]; nofun)
      · exact absurd hold ((hawake w).1 x.1)
  · exact .inl ⟨x.1, hall⟩

instance [Fintype C] (c : Config (Fin n ⊕ C) (Pool n) (Control n)) (x : (Fin n ⊕ C) × Event n) :
    Decidable (NotifiesInTime c x) :=
  inferInstanceAs (Decidable (_ → ∀ t w, c.control t ≠ .worker w .falling))

theorem shutdown_never_deadlocks (n : ℕ) (C : Type) [DecidableEq C]
    (tr : List ((Fin n ⊕ C) × Event n)) (c : Config (Fin n ⊕ C) (Pool n) (Control n))
    (hrun : exec pool (start n C) tr = some c)
    (htime : EachStep pool (fun _ c x => NotifiesInTime c x) [] (start n C) tr) :
    ¬ Deadlocked c := by
  have hnotified : Notified c := exec_rule (fun _ => Notified)
    (fun _ _ _ _ hI hP hf => notified_step hI hP hf) tr [] _ c start_notified htime hrun
  have horderly := run_orderly hrun
  rintro ⟨t, w, hjoining, -, hwaiting, hnone⟩
  rcases hnotified (horderly.joining (.inr t) _ hjoining) with ⟨u, hu⟩ | hawake
  · have hwill := hnone u
    rw [hu] at hwill
    cases hwill
  · rw [(hawake w).2] at hwaiting
    cases hwaiting

/-- A worker goes to sleep before `shutdown` notifies, and leaves after it. -/
def sleepingRun : List ((Fin 1 ⊕ Unit) × Event 1) :=
  [byWorker .step, byWorker .step, byWorker .step, byClient .shutdown, byClient .step,
    byWorker .step, byWorker .step, byWorker .step, byWorker .step, byClient .step]

theorem sleepingRun_not_deadlocked :
    ∃ c, exec pool (start 1 Unit) sleepingRun = some c ∧ ¬ Deadlocked c :=
  ⟨_, rfl, shutdown_never_deadlocks 1 Unit sleepingRun _ rfl (by decide)⟩

/-- The only worker finds the predicate false, the flag is set and notified,
and then the worker waits. -/
def lateSleeperRun : List ((Fin 1 ⊕ Unit) × Event 1) :=
  [byWorker .step, byWorker .step, byClient .shutdown, byClient .step, byWorker .step]

theorem late_sleeper_deadlocks :
    ∃ c, exec pool (start 1 Unit) lateSleeperRun = some c ∧ Deadlocked c :=
  ⟨_, rfl, (), onlyWorker, rfl, rfl, rfl, by decide⟩

/-! ### A deadlock is final -/

theorem step_willNotify (h : Step s l e s' l') (hflag : s.shutdown = true)
    (hl : willNotify l = false) : willNotify l' = false := by
  cases h with
  | accept hoff => exact absurd hflag (by rw [hoff]; nofun)
  | announce hoff => exact absurd hflag (by rw [hoff]; nofun)
  | _ => first | rfl | exact Bool.noConfusion hl

theorem step_keeps_waiting (h : Step s l e s' l') (hl : willNotify l = false) {w : Fin n}
    (hw : s.waiting w = true) (hself : l = .worker w .asleep → e ≠ .spuriousWakeup) :
    s'.waiting w = true := by
  cases h with
  | @wait w₀ =>
    dsimp only
    rw [Function.update_apply]
    split
    next => rfl
    next => exact hw
  | @spuriousWakeup w₀ =>
    dsimp only
    rw [Function.update_of_ne]
    · exact hw
    · rintro rfl
      exact hself rfl rfl
  | notifyOne => cases hl
  | notifyAll => cases hl
  | _ => exact hw

theorem Deadlocked.step {x : (Fin n ⊕ C) × Event n} (h : Deadlocked c) (horderly : Orderly c)
    (hx : x.2 ≠ .spuriousWakeup) (hf : fire pool c x = some c') : Deadlocked c' := by
  obtain ⟨t, w, hjoining, hasleep, hwaiting, hnone⟩ := h
  have hstep := step_of_pool (fire_own hf)
  have hflag := horderly.joining (.inr t) w hjoining
  have hclient : .inr t ≠ x.1 := by
    intro hself
    rw [← hself, hjoining] at hstep
    exact absurd (hasleep ▸ horderly.exited w (step_of_joining hstep)) nofun
  have hworker : .inl w ≠ x.1 := by
    intro hself
    rw [← hself, hasleep] at hstep
    rcases step_of_asleep hstep with hnotified | hspurious
    · exact absurd hwaiting (by rw [hnotified]; nofun)
    · exact hx hspurious
  refine ⟨t, w, (fire_frame hf hclient).trans hjoining, (fire_frame hf hworker).trans hasleep,
    step_keeps_waiting hstep (hnone x.1) hwaiting fun _ => hx, fun u => ?_⟩
  by_cases hself : u = x.1
  · subst hself
    exact step_willNotify hstep hflag (hnone x.1)
  · rw [fire_frame hf hself]
    exact hnone u

/-- No continuation ends a deadlock, unless a worker wakes up by itself. -/
theorem deadlock_is_final {tr more : List ((Fin n ⊕ C) × Event n)}
    (hrun : exec pool (start n C) tr = some c) (h : Deadlocked c)
    (hmore : ∀ x ∈ more, x.2 ≠ .spuriousWakeup) (hrest : exec pool c more = some c') :
    Deadlocked c' := by
  induction more using List.reverseRecOn generalizing c' with
  | nil =>
    obtain rfl := Option.some.inj hrest
    exact h
  | append_singleton more x ih =>
    rw [exec_snoc] at hrest
    obtain ⟨c₁, hc₁, hlast⟩ := Option.bind_eq_some_iff.mp hrest
    have hpast : exec pool (start n C) (tr ++ more) = some c₁ := by
      rw [exec_append, hrun]
      exact hc₁
    exact (ih (fun y hy => hmore y (List.mem_append_left _ hy)) hc₁).step (run_orderly hpast)
      (hmore x (by simp)) hlast

end Threads
end OpenArangoDBCore.RocksDBEngine.IndexBuilderThreadPool
