import OpenArangoDBCore.Replication.ApplierState

/-!
# In-order, exactly-once application (ReplicationApplier.h:46-50)

The invariant ties the three parts of a run together: the log of successful
writes, the last-applied map and the buffer. It is about an arbitrary
callback, so it covers every pattern of failing writes.
-/

namespace OpenArangoDBCore.Replication
open ReplicationApplier UnorderedMap
variable {ω : Type}

/-- `w` writes a message delivered for shard `s` with sequence `i`. -/
def WrittenFrom (D : List ApplyMessage) (s : ByteString) (i : ℕ) (w : WriteArgs) : Prop :=
  ∃ m ∈ D, m.shardId = s ∧ m.sequence.toNat = i ∧ w = m.writeArgs

/- `D` is what has been delivered, `log` the successful writes. -/
structure InOrder (satelliteCb : SatelliteCheckCallback) (D : List ApplyMessage)
    (a : ReplicationApplier) (log : List WriteArgs) : Prop where
  writes : ∀ s, List.Forall₂ (WrittenFrom D s)
    (List.range' 1 (a.lastAppliedSequence s).toNat) (writesOf s log)
  satellite : ∀ s, satelliteCb s = true → a.lastAppliedSequence s = 0
  buffered : ∀ s q m, a.held s q = some m →
    m ∈ D ∧ m.shardId = s ∧ m.sequence = q ∧ satelliteCb s = false ∧ 0 < q
  total : a.totalApplied = UInt64.ofNat log.length
  sum : sumBy UInt64.toNat a.lastApplied = log.length

theorem new_inOrder (satelliteCb : SatelliteCheckCallback) (D : List ApplyMessage) :
    InOrder satelliteCb D new [] where
  writes _ := List.Forall₂.nil
  satellite _ _ := rfl
  buffered s q m h := by simp at h
  total := rfl
  sum := rfl

theorem writesOf_append (s : ByteString) (log : List WriteArgs) (w : WriteArgs) :
    writesOf s (log ++ [w]) = if w.collection = s then writesOf s log ++ [w] else writesOf s log := by
  simp only [writesOf, List.filter_append, List.filter_cons, List.filter_nil, decide_eq_true_eq]
  split
  · rfl
  · exact List.append_nil _

theorem advance_sum (a : ReplicationApplier) (s : ByteString)
    (h : a.lastAppliedSequence s < a.lastAppliedSequence s + 1) :
    sumBy UInt64.toNat (a.advance s (a.lastAppliedSequence s + 1)).lastApplied =
      sumBy UInt64.toNat a.lastApplied + 1 := by
  have he := sumBy_erase UInt64.toNat a.lastApplied s
  have hl : ((a.lastApplied.lookup s).map UInt64.toNat).getD 0 = (a.lastAppliedSequence s).toNat := by
    unfold lastAppliedSequence
    cases a.lastApplied.lookup s <;> rfl
  simp only [advance]
  rw [sumBy_insert, toNat_succ_of_lt _ h, he, hl]
  omega

variable {satelliteCb : SatelliteCheckCallback} {D : List ApplyMessage}
  {a : ReplicationApplier} {log : List WriteArgs}

/- The one place where the log grows: the next sequence of a shard is written. -/
theorem InOrder.advance (hI : InOrder satelliteCb D a log) (m : ApplyMessage) (hm : m ∈ D)
    (hs : satelliteCb m.shardId = false)
    (hlt : a.lastAppliedSequence m.shardId < m.sequence)
    (hn : m.sequence = a.lastAppliedSequence m.shardId + 1) :
    InOrder satelliteCb D (a.advance m.shardId m.sequence) (log ++ [m.writeArgs]) := by
  have hnat : m.sequence.toNat = (a.lastAppliedSequence m.shardId).toNat + 1 := by
    rw [hn] at hlt ⊢
    exact toNat_succ_of_lt _ hlt
  refine ⟨?_, ?_, ?_, ?_, ?_⟩
  · intro s
    rw [advance_last, writesOf_append]
    by_cases h : s = m.shardId
    · subst h
      have hc : m.writeArgs.collection = m.shardId := rfl
      rw [if_pos rfl, if_pos hc, hnat, List.range'_1_concat]
      refine List.rel_append (hI.writes m.shardId) (List.Forall₂.cons ?_ List.Forall₂.nil)
      exact ⟨m, hm, rfl, by omega, rfl⟩
    · have hc : m.writeArgs.collection ≠ s := fun hc => h hc.symm
      rw [if_neg h, if_neg hc]
      exact hI.writes s
  · intro s hsat
    rw [advance_last, if_neg (by rintro rfl; simp [hs] at hsat)]
    exact hI.satellite s hsat
  · exact hI.buffered
  · simp only [ReplicationApplier.advance, hI.total, List.length_append, List.length_singleton,
      UInt64.ofNat_add]
    rfl
  · rw [hn] at hlt
    rw [hn, advance_sum a m.shardId hlt, hI.sum, List.length_append, List.length_singleton]

theorem InOrder.release (hI : InOrder satelliteCb D a log) (s : ByteString) (q : UInt64) :
    InOrder satelliteCb D (a.release s q) log := by
  have hlast : (a.release s q).lastApplied = a.lastApplied := by
    unfold ReplicationApplier.release
    split <;> rfl
  have htotal : (a.release s q).totalApplied = a.totalApplied := by
    unfold ReplicationApplier.release
    split <;> rfl
  refine ⟨?_, ?_, ?_, htotal ▸ hI.total, hlast ▸ hI.sum⟩
  · simpa using hI.writes
  · simpa using hI.satellite
  · intro s' q' m h
    rw [release_held] at h
    split at h
    · cases h
    · exact hI.buffered s' q' m h

theorem InOrder.hold (hI : InOrder satelliteCb D a log) (m : ApplyMessage) (hm : m ∈ D)
    (hs : satelliteCb m.shardId = false) (hlt : a.lastAppliedSequence m.shardId < m.sequence) :
    InOrder satelliteCb D (a.hold m) log := by
  refine ⟨hI.writes, hI.satellite, ?_, hI.total, hI.sum⟩
  intro s q m' h
  rw [hold_held] at h
  split at h
  next hc =>
    obtain ⟨rfl, rfl⟩ := hc
    cases h
    exact ⟨hm, rfl, rfl, hs, UInt64.lt_of_le_of_lt (UInt64.zero_le) hlt⟩
  next => exact hI.buffered s q m' h

theorem InOrder.dropEmpty (hI : InOrder satelliteCb D a log) (s : ByteString) :
    InOrder satelliteCb D (a.dropEmpty s) log := by
  have hlast : (a.dropEmpty s).lastApplied = a.lastApplied := by
    unfold ReplicationApplier.dropEmpty
    split
    · rfl
    · split <;> rfl
  have htotal : (a.dropEmpty s).totalApplied = a.totalApplied := by
    unfold ReplicationApplier.dropEmpty
    split
    · rfl
    · split <;> rfl
  refine ⟨?_, ?_, ?_, htotal ▸ hI.total, hlast ▸ hI.sum⟩
  · simpa using hI.writes
  · simpa using hI.satellite
  · simpa using hI.buffered

theorem InOrder.touchLast (hI : InOrder satelliteCb D a log) (s : ByteString) :
    InOrder satelliteCb D (a.touchLast s) log := by
  refine ⟨?_, ?_, hI.buffered, hI.total, ?_⟩
  · simpa using hI.writes
  · simpa using hI.satellite
  · rw [← hI.sum]
    exact sumBy_touch UInt64.toNat a.lastApplied s 0 rfl

theorem drain_inOrder (writeCb : WriteCallback ω) (satelliteCb : SatelliteCheckCallback)
    (D : List ApplyMessage) (s : ByteString) :
    DrainRule (logged writeCb) s fun a env => InOrder satelliteCb D a env.2 where
  touched a env h := h.touchLast s
  failed a env msg h _ hrc := by
    have hrc : (writeCb msg.writeArgs env.1).1 ≠ 0 := hrc
    simpa [logged, hrc] using h
  drained a env msg h hm hrc := by
    have hrc : (writeCb msg.writeArgs env.1).1 = 0 := hrc
    obtain ⟨hD, hs, hq, hsat, hpos⟩ := h.buffered s _ msg hm
    have hlt := lt_succ_of_pos _ hpos
    subst hs
    have hadv := h.advance msg hD hsat (by rw [hq]; exact hlt) hq
    rw [hq] at hadv
    simpa [logged, hrc] using hadv.release msg.shardId _

theorem locked_inOrder (writeCb : WriteCallback ω) (satelliteCb : SatelliteCheckCallback)
    (D : List ApplyMessage) :
    ApplierRule (logged writeCb) satelliteCb (· ∈ D) fun a env =>
      InOrder satelliteCb D a env.2 where
  drain s a env h := drainBuffered_rule (logged writeCb) s _
    (drain_inOrder writeCb satelliteCb D s) (fun _ _ h => h.dropEmpty s) a env h
  locked m a env hm h := by
    have hc := applyLocked_cases (logged writeCb) satelliteCb m a env
    generalize applyLocked (logged writeCb) satelliteCb m a env = r at hc ⊢
    cases hc with
    | satellite => exact ⟨h.writes, h.satellite, h.buffered, h.total, h.sum⟩
    | duplicate => exact ⟨h.writes, h.satellite, h.buffered, h.total, h.sum⟩
    | ahead hs hlt hn => exact h.hold m hm hs hlt
    | refused hs hlt hn hrc =>
      have hrc : (writeCb m.writeArgs env.1).1 ≠ 0 := hrc
      simpa [logged, hrc] using h
    | applied hs hlt hn hrc =>
      have hrc : (writeCb m.writeArgs env.1).1 = 0 := hrc
      refine drainBuffered_rule (logged writeCb) m.shardId _
        (drain_inOrder writeCb satelliteCb D m.shardId) (fun _ _ h => h.dropEmpty m.shardId) _ _ ?_
      simpa [logged, hrc] using h.advance m hm hs hlt hn

theorem runCalls_inOrder (writeCb : WriteCallback ω) (satelliteCb : SatelliteCheckCallback)
    (calls : List ApplierCall) (env : ω) :
    InOrder satelliteCb (delivered calls)
      (runCalls (logged writeCb) satelliteCb calls new (env, [])).1
      (runCalls (logged writeCb) satelliteCb calls new (env, [])).2.2 :=
  runCalls_rule (logged writeCb) satelliteCb (· ∈ delivered calls) _
    (locked_inOrder writeCb satelliteCb (delivered calls)) calls new (env, [])
    (fun _ h => h) (new_inOrder satelliteCb _)

/-- Whatever the callback does, after any calls the successful writes of a
shard are one write for each of `1, ..., lastApplied`, in that order and each
of a delivered message; satellites are never written; and `totalApplied`
counts the writes, as does the sum of the last-applied sequences. -/
theorem applied_exactly_once_in_order (writeCb : WriteCallback ω)
    (satelliteCb : SatelliteCheckCallback) (calls : List ApplierCall) (env : ω) :
    let r := runCalls (logged writeCb) satelliteCb calls new (env, [])
    (∀ s, List.Forall₂ (WrittenFrom (delivered calls) s)
      (List.range' 1 (r.1.lastAppliedSequence s).toNat) (writesOf s r.2.2)) ∧
    (∀ s, satelliteCb s = true → writesOf s r.2.2 = []) ∧
    r.1.totalApplied = UInt64.ofNat r.2.2.length ∧
    sumBy UInt64.toNat r.1.lastApplied = r.2.2.length := by
  intro r
  have h := runCalls_inOrder writeCb satelliteCb calls env
  refine ⟨h.writes, ?_, h.total, h.sum⟩
  intro s hs
  have hw := h.writes s
  rw [h.satellite s hs] at hw
  exact List.forall₂_nil_left_iff.mp hw

end OpenArangoDBCore.Replication
