import OpenArangoDBCore.Replication.ReplicationApplier

/-!
# What the applier's updates do to the last-applied map and the buffer

All later proofs see the state through `lastAppliedSequence` and `held`. The
rules at the end carry an invariant through the drain loop and through a run
of calls; `applyLocked_cases` says once what a call of `applyLocked` can do.
-/

namespace OpenArangoDBCore.Replication
open ReplicationApplier UnorderedMap
variable {ω : Type}

namespace ReplicationApplier

@[simp] theorem new_last (s : ByteString) : new.lastAppliedSequence s = 0 := rfl
@[simp] theorem new_held (s : ByteString) (q : UInt64) : new.held s q = none := rfl

@[simp] theorem hold_last (a : ReplicationApplier) (m : ApplyMessage) (s : ByteString) :
    (a.hold m).lastAppliedSequence s = a.lastAppliedSequence s := rfl

theorem hold_held (a : ReplicationApplier) (m : ApplyMessage) (s : ByteString) (q : UInt64) :
    (a.hold m).held s q =
      if s = m.shardId ∧ q = m.sequence then some m else a.held s q := by
  simp only [hold, held, lookup_insert_of]
  by_cases hs : s = m.shardId
  · subst hs
    simp only [ite_true, Option.bind_some, lookup_insert_of, true_and]
    split
    · rfl
    · cases a.buffer.lookup m.shardId with
      | none => rfl
      | some buf => rfl
  · simp only [hs, ite_false, false_and]

theorem advance_last (a : ReplicationApplier) (s : ByteString) (q : UInt64) (s' : ByteString) :
    (a.advance s q).lastAppliedSequence s' =
      if s' = s then q else a.lastAppliedSequence s' := by
  simp only [advance, lastAppliedSequence, lookup_insert_of]
  split <;> rfl

@[simp] theorem advance_held (a : ReplicationApplier) (s : ByteString) (q : UInt64)
    (s' : ByteString) (q' : UInt64) : (a.advance s q).held s' q' = a.held s' q' := rfl

@[simp] theorem release_last (a : ReplicationApplier) (s : ByteString) (q : UInt64)
    (s' : ByteString) : (a.release s q).lastAppliedSequence s' = a.lastAppliedSequence s' := by
  unfold release
  split <;> rfl

theorem release_held (a : ReplicationApplier) (s : ByteString) (q : UInt64)
    (s' : ByteString) (q' : UInt64) :
    (a.release s q).held s' q' = if s' = s ∧ q' = q then none else a.held s' q' := by
  unfold release
  split
  next hb =>
    split
    next h =>
      obtain ⟨rfl, rfl⟩ := h
      simp only [held, hb, Option.bind_none]
    next => rfl
  next buf hb =>
    simp only [held, lookup_insert_of]
    by_cases hs : s' = s
    · subst hs
      simp only [ite_true, Option.bind_some, lookup_erase_of, true_and, hb]
    · simp only [hs, ite_false, false_and]

@[simp] theorem touchLast_last (a : ReplicationApplier) (s s' : ByteString) :
    (a.touchLast s).lastAppliedSequence s' = a.lastAppliedSequence s' :=
  touch_getD a.lastApplied s s' 0

@[simp] theorem touchLast_held (a : ReplicationApplier) (s s' : ByteString) (q : UInt64) :
    (a.touchLast s).held s' q = a.held s' q := rfl

@[simp] theorem dropEmpty_last (a : ReplicationApplier) (s s' : ByteString) :
    (a.dropEmpty s).lastAppliedSequence s' = a.lastAppliedSequence s' := by
  unfold dropEmpty
  split
  · rfl
  · split <;> rfl

@[simp] theorem dropEmpty_held (a : ReplicationApplier) (s s' : ByteString) (q : UInt64) :
    (a.dropEmpty s).held s' q = a.held s' q := by
  unfold dropEmpty
  split
  · rfl
  next buf hb =>
    split
    next hz =>
      simp only [held, lookup_erase_of]
      by_cases hs : s' = s
      · subst hs
        simp only [ite_true, Option.bind_none, hb, Option.bind_some,
          size_zero_lookup buf hz]
      · simp only [hs, ite_false]
    next => rfl

def heldCount (a : ReplicationApplier) (s : ByteString) : ℕ :=
  ((a.buffer.lookup s).map UnorderedMap.size).getD 0

theorem heldCount_zero (a : ReplicationApplier) (s : ByteString) (h : a.heldCount s = 0)
    (q : UInt64) : a.held s q = none := by
  unfold heldCount at h
  unfold held
  cases hb : a.buffer.lookup s with
  | none => rfl
  | some buf =>
    simp only [hb, Option.map_some, Option.getD_some] at h
    exact size_zero_lookup buf h q

theorem heldCount_release (a : ReplicationApplier) (s : ByteString) (q : UInt64)
    (m : ApplyMessage) (h : a.held s q = some m) :
    (a.release s q).heldCount s + 1 = a.heldCount s := by
  unfold held at h
  cases hb : a.buffer.lookup s with
  | none => simp [hb] at h
  | some buf =>
    simp only [hb, Option.bind_some] at h
    have hq : q ∈ buf := AList.lookup_isSome.mp (by rw [h]; rfl)
    simp only [release, heldCount, hb, AList.lookup_insert, Option.map_some, Option.getD_some]
    exact size_erase buf q hq

end ReplicationApplier

/-! ### Rules for the loops -/

/-- A state predicate that survives one drained message survives the loop.
The hypotheses of `drained` are what the pass has checked. -/
structure DrainRule (writeCb : WriteCallback ω) (s : ByteString)
    (I : ReplicationApplier → ω → Prop) : Prop where
  touched : ∀ a env, I a env → I (a.touchLast s) env
  failed : ∀ a env msg, I a env → a.held s (a.lastAppliedSequence s + 1) = some msg →
    (writeCb msg.writeArgs env).1 ≠ 0 → I a (writeCb msg.writeArgs env).2
  drained : ∀ a env msg, I a env → a.held s (a.lastAppliedSequence s + 1) = some msg →
    (writeCb msg.writeArgs env).1 = 0 →
    I ((a.advance s (a.lastAppliedSequence s + 1)).release s (a.lastAppliedSequence s + 1))
      (writeCb msg.writeArgs env).2

theorem drainLoop_rule (writeCb : WriteCallback ω) (s : ByteString)
    (I : ReplicationApplier → ω → Prop) (hI : DrainRule writeCb s I)
    (size : ℕ) (drained : UInt64) (a : ReplicationApplier) (env : ω) (h : I a env) :
    I (drainLoop writeCb s size drained a env).2.1 (drainLoop writeCb s size drained a env).2.2 := by
  induction size generalizing drained a env with
  | zero => exact h
  | succ size ih =>
    have ht := hI.touched a env h
    simp only [drainLoop]
    split
    · exact ht
    next msg hm =>
      split
      next hrc => exact hI.failed _ env msg ht hm hrc
      next hrc => exact ih _ _ _ (hI.drained _ env msg ht hm (not_not.mp hrc))

theorem drainBuffered_rule (writeCb : WriteCallback ω) (s : ByteString)
    (I : ReplicationApplier → ω → Prop) (hI : DrainRule writeCb s I)
    (hdrop : ∀ a env, I a env → I (a.dropEmpty s) env)
    (a : ReplicationApplier) (env : ω) (h : I a env) :
    I (drainBuffered writeCb s a env).2.1 (drainBuffered writeCb s a env).2.2 := by
  unfold drainBuffered
  split
  · exact h
  · exact hdrop _ _ (drainLoop_rule writeCb s I hI _ _ a env h)

inductive LockedCase (writeCb : WriteCallback ω) (satelliteCb : SatelliteCheckCallback)
    (m : ApplyMessage) (a : ReplicationApplier) (env : ω) : ℤ × ReplicationApplier × ω → Prop where
  | satellite (h : satelliteCb m.shardId = true) :
      LockedCase writeCb satelliteCb m a env
        (0, {a with totalSatelliteSkipped := a.totalSatelliteSkipped + 1}, env)
  | duplicate (h : satelliteCb m.shardId = false)
      (hd : m.sequence ≤ a.lastAppliedSequence m.shardId) :
      LockedCase writeCb satelliteCb m a env
        (0, {a with totalDuplicates := a.totalDuplicates + 1}, env)
  | ahead (h : satelliteCb m.shardId = false)
      (hd : a.lastAppliedSequence m.shardId < m.sequence)
      (hn : m.sequence ≠ a.lastAppliedSequence m.shardId + 1) :
      LockedCase writeCb satelliteCb m a env (0, a.hold m, env)
  | refused (h : satelliteCb m.shardId = false)
      (hd : a.lastAppliedSequence m.shardId < m.sequence)
      (hn : m.sequence = a.lastAppliedSequence m.shardId + 1)
      (hrc : (writeCb m.writeArgs env).1 ≠ 0) :
      LockedCase writeCb satelliteCb m a env
        ((writeCb m.writeArgs env).1, a, (writeCb m.writeArgs env).2)
  | applied (h : satelliteCb m.shardId = false)
      (hd : a.lastAppliedSequence m.shardId < m.sequence)
      (hn : m.sequence = a.lastAppliedSequence m.shardId + 1)
      (hrc : (writeCb m.writeArgs env).1 = 0) :
      LockedCase writeCb satelliteCb m a env
        (0, (drainBuffered writeCb m.shardId (a.advance m.shardId m.sequence)
          (writeCb m.writeArgs env).2).2)

theorem applyLocked_cases (writeCb : WriteCallback ω) (satelliteCb : SatelliteCheckCallback)
    (m : ApplyMessage) (a : ReplicationApplier) (env : ω) :
    LockedCase writeCb satelliteCb m a env (applyLocked writeCb satelliteCb m a env) := by
  unfold applyLocked
  split
  next h => exact .satellite h
  next h =>
    have hs : satelliteCb m.shardId = false := by simpa using h
    simp only
    split
    next hd => exact .duplicate hs hd
    next hd =>
      have hlt := UInt64.not_le.mp hd
      split
      next hn => exact .ahead hs hlt hn
      next hn =>
        have he := not_not.mp hn
        split
        next hrc => exact .refused hs hlt he hrc
        next hrc => exact .applied hs hlt he (not_not.mp hrc)

/-- What an invariant of a whole run has to survive. -/
structure ApplierRule (writeCb : WriteCallback ω) (satelliteCb : SatelliteCheckCallback)
    (D : ApplyMessage → Prop) (I : ReplicationApplier → ω → Prop) : Prop where
  locked : ∀ m a env, D m → I a env →
    I (applyLocked writeCb satelliteCb m a env).2.1 (applyLocked writeCb satelliteCb m a env).2.2
  drain : ∀ s a env, I a env →
    I (drainBuffered writeCb s a env).2.1 (drainBuffered writeCb s a env).2.2

theorem applyBatchLoop_rule (writeCb : WriteCallback ω) (satelliteCb : SatelliteCheckCallback)
    (D : ApplyMessage → Prop) (I : ReplicationApplier → ω → Prop)
    (hI : ApplierRule writeCb satelliteCb D I) (ms : List ApplyMessage)
    (a : ReplicationApplier) (env : ω) (hD : ∀ m ∈ ms, D m) (h : I a env) :
    I (applyBatchLoop writeCb satelliteCb ms a env).1
      (applyBatchLoop writeCb satelliteCb ms a env).2 := by
  induction ms generalizing a env with
  | nil => exact h
  | cons m ms ih =>
    have hm := hI.locked m a env (hD m (List.mem_cons_self ..)) h
    simp only [applyBatchLoop]
    split
    · exact hm
    · exact ih _ _ (fun x hx => hD x (List.mem_cons_of_mem _ hx)) hm

theorem runCalls_rule (writeCb : WriteCallback ω) (satelliteCb : SatelliteCheckCallback)
    (D : ApplyMessage → Prop) (I : ReplicationApplier → ω → Prop)
    (hI : ApplierRule writeCb satelliteCb D I) (calls : List ApplierCall)
    (a : ReplicationApplier) (env : ω) (hD : ∀ m ∈ delivered calls, D m) (h : I a env) :
    I (runCalls writeCb satelliteCb calls a env).1 (runCalls writeCb satelliteCb calls a env).2 := by
  induction calls generalizing a env with
  | nil => exact h
  | cons call calls ih =>
    have hhead : ∀ m ∈ call.messages, D m := fun m hm =>
      hD m (List.mem_append_left _ hm)
    have htail : ∀ m ∈ delivered calls, D m := fun m hm =>
      hD m (List.mem_append_right _ hm)
    refine ih _ _ htail ?_
    cases call with
    | applyMessage m => exact hI.locked m a env (hhead m (List.mem_cons_self ..)) h
    | applyBatch ms => exact applyBatchLoop_rule writeCb satelliteCb D I hI ms a env hhead h
    | drainBuffered s => exact hI.drain s a env h

end OpenArangoDBCore.Replication
