import OpenArangoDBCore.Replication.ApplierState
import OpenArangoDBCore.Replication.IdempotencyChecker

/-!
# The checker and the applier classify alike

Both compare a sequence with the last one applied: the checker to answer, the
applier to count a duplicate, to hold the message or to write it. An unseen
shard is a missing entry to the one and the sequence zero to the other.
-/

namespace OpenArangoDBCore.Replication
open ReplicationApplier IdempotencyChecker
variable {ω : Type}

/-- The callback instrumented with the list of all its calls. -/
def recorded (writeCb : WriteCallback ω) : WriteCallback (ω × List WriteArgs) := fun args env =>
  let rc := writeCb args env.1
  (rc.1, rc.2, env.2 ++ [args])

section
variable (writeCb : WriteCallback ω) (satelliteCb : SatelliteCheckCallback) (m : ApplyMessage)
  (a : ReplicationApplier) (env : ω) (calls : List WriteArgs)

/-- The duplicates are one more, and nothing else has happened. -/
def CountsDuplicate : Prop :=
  applyLocked (recorded writeCb) satelliteCb m a (env, calls) =
    (0, { a with totalDuplicates := a.totalDuplicates + 1 }, env, calls)

/-- The message is in the buffer, and nothing else has happened. -/
def Buffers : Prop :=
  applyLocked (recorded writeCb) satelliteCb m a (env, calls) = (0, a.hold m, env, calls)

/-- The first call of the callback is for the message. -/
def Writes : Prop :=
  ∃ later, (applyLocked (recorded writeCb) satelliteCb m a (env, calls)).2.2.2 =
    calls ++ m.writeArgs :: later

/-! ### The applier -/

/-- The drain adds to the calls. -/
theorem drainBuffered_recorded (s : ByteString) (before : List WriteArgs) (env : ω × List WriteArgs)
    (h : before <+: env.2) : before <+: (drainBuffered (recorded writeCb) s a env).2.2.2 := by
  have hcall : ∀ (args : WriteArgs) (env : ω × List WriteArgs), before <+: env.2 →
      before <+: (recorded writeCb args env).2.2 := fun args env henv =>
    henv.trans (List.prefix_append _ _)
  have hrule : DrainRule (recorded writeCb) s fun _ env => before <+: env.2 :=
    { touched := fun _ _ henv => henv
      failed := fun _ env msg henv _ _ => hcall msg.writeArgs env henv
      drained := fun _ env msg henv _ _ => hcall msg.writeArgs env henv }
  exact drainBuffered_rule (recorded writeCb) s _ hrule (fun _ _ henv => henv) a env h

/-- The calls of each branch. -/
theorem calls_cases (hsatellite : satelliteCb m.shardId = false) :
    (m.sequence ≤ a.lastAppliedSequence m.shardId ∧
        CountsDuplicate writeCb satelliteCb m a env calls) ∨
      (a.lastAppliedSequence m.shardId < m.sequence ∧
        m.sequence ≠ a.lastAppliedSequence m.shardId + 1 ∧
        Buffers writeCb satelliteCb m a env calls) ∨
      (m.sequence = a.lastAppliedSequence m.shardId + 1 ∧
        a.lastAppliedSequence m.shardId < m.sequence ∧
          Writes writeCb satelliteCb m a env calls) := by
  have hcases := applyLocked_cases (recorded writeCb) satelliteCb m a (env, calls)
  generalize hresult : applyLocked (recorded writeCb) satelliteCb m a (env, calls) = result
    at hcases
  cases hcases with
  | satellite h => rw [hsatellite] at h; cases h
  | duplicate _ hd => exact .inl ⟨hd, hresult⟩
  | ahead _ hd hn => exact .inr (.inl ⟨hd, hn, hresult⟩)
  | refused _ hd hn _ =>
    refine .inr (.inr ⟨hn, hd, [], ?_⟩)
    rw [hresult]
    rfl
  | applied _ hd hn _ =>
    refine .inr (.inr ⟨hn, hd, ?_⟩)
    have hprefix := drainBuffered_recorded writeCb (a.advance m.shardId m.sequence) m.shardId
      (calls ++ [m.writeArgs]) (recorded writeCb m.writeArgs (env, calls)).2 (List.prefix_refl _)
    obtain ⟨later, hlater⟩ := hprefix
    rw [Writes, hresult]
    exact ⟨later, by rw [← hlater, List.append_assoc, List.singleton_append]⟩

variable {writeCb satelliteCb m a env calls}

theorem CountsDuplicate.not_buffers (h : CountsDuplicate writeCb satelliteCb m a env calls) :
    ¬ Buffers writeCb satelliteCb m a env calls := by
  intro hbuffers
  have hsame : a.totalDuplicates + 1 = a.totalDuplicates :=
    congrArg (fun r => r.2.1.totalDuplicates) (h.symm.trans hbuffers)
  grind

theorem Writes.calls_ne (h : Writes writeCb satelliteCb m a env calls) :
    (applyLocked (recorded writeCb) satelliteCb m a (env, calls)).2.2.2 ≠ calls := by
  obtain ⟨later, hlater⟩ := h
  rw [hlater]
  simp

theorem Writes.not_countsDuplicate (h : Writes writeCb satelliteCb m a env calls) :
    ¬ CountsDuplicate writeCb satelliteCb m a env calls := fun hduplicate =>
  h.calls_ne (congrArg (fun r => r.2.2.2) hduplicate)

theorem Writes.not_buffers (h : Writes writeCb satelliteCb m a env calls) :
    ¬ Buffers writeCb satelliteCb m a env calls := fun hbuffers =>
  h.calls_ne (congrArg (fun r => r.2.2.2) hbuffers)

/-- Three kinds of sequences, with no sequence after the last of all. -/
theorem sequence_cases (last sequence : UInt64) :
    (sequence ≤ last ↔ sequence.toNat ≤ last.toNat) ∧
      (sequence = last + 1 ∧ last < sequence ↔ sequence.toNat = last.toNat + 1) ∧
      (sequence ≠ last + 1 ∧ last < sequence ↔ last.toNat + 1 < sequence.toNat) := by
  have hnext : last < sequence → (last + 1).toNat = last.toNat + 1 := by
    intro hlt
    have hsequence := sequence.toNat_lt
    rw [UInt64.lt_iff_toNat_lt] at hlt
    rw [UInt64.toNat_add]
    exact Nat.mod_eq_of_lt (by change last.toNat + 1 < 2 ^ 64; omega)
  refine ⟨UInt64.le_iff_toNat_le, ?_, ?_⟩
  · constructor
    · intro h
      rw [← hnext h.2, h.1]
    · intro h
      have hlt : last < sequence := UInt64.lt_iff_toNat_lt.mpr (by omega)
      exact ⟨UInt64.toNat_inj.mp (h.trans (hnext hlt).symm), hlt⟩
  · constructor
    · intro h
      have hne : sequence.toNat ≠ last.toNat + 1 := fun heq =>
        h.1 (UInt64.toNat_inj.mp (heq.trans (hnext h.2).symm))
      have hlt := UInt64.lt_iff_toNat_lt.mp h.2
      omega
    · intro h
      have hlt : last < sequence := UInt64.lt_iff_toNat_lt.mpr (by omega)
      refine ⟨fun heq => ?_, hlt⟩
      have hsame := hnext hlt
      rw [← heq] at hsame
      omega

variable (writeCb satelliteCb m a env calls) in
/-- The applier on a shard that is not skipped. -/
theorem applier_iff (hsatellite : satelliteCb m.shardId = false) :
    (CountsDuplicate writeCb satelliteCb m a env calls ↔
        m.sequence.toNat ≤ (a.lastAppliedSequence m.shardId).toNat) ∧
      (Writes writeCb satelliteCb m a env calls ↔
        m.sequence.toNat = (a.lastAppliedSequence m.shardId).toNat + 1) ∧
      (Buffers writeCb satelliteCb m a env calls ↔
        (a.lastAppliedSequence m.shardId).toNat + 1 < m.sequence.toNat) := by
  obtain ⟨hle, heq, hgt⟩ := sequence_cases (a.lastAppliedSequence m.shardId) m.sequence
  rcases calls_cases writeCb satelliteCb m a env calls hsatellite with
    ⟨hd, h⟩ | ⟨hd, hn, h⟩ | ⟨hn, hd, h⟩
  · have hnat := hle.mp hd
    exact ⟨iff_of_true h hnat, iff_of_false (fun hw => hw.not_countsDuplicate h) (by omega),
      iff_of_false h.not_buffers (by omega)⟩
  · have hnat := hgt.mp ⟨hn, hd⟩
    exact ⟨iff_of_false (fun hdup => hdup.not_buffers h) (by omega),
      iff_of_false (fun hw => hw.not_buffers h) (by omega), iff_of_true h hnat⟩
  · have hnat := heq.mp ⟨hn, hd⟩
    exact ⟨iff_of_false h.not_countsDuplicate (by omega), iff_of_true h hnat,
      iff_of_false h.not_buffers (by omega)⟩

end

/-! ### The checker -/

section
variable {t : SequenceNumberTracker} {msg : DirectMQMessage}

/-- The tracker compares as documented, unless the shard is new to it and the
sequence is zero. -/
theorem isAlreadyApplied_iff
    (h : msg.sequence ≠ 0 ∨ (t.lastApplied.lookup msg.shard_id).isSome = true) :
    t.isAlreadyApplied msg.shard_id msg.sequence = true ↔
      msg.sequence.toNat ≤ (t.lastAppliedSequence msg.shard_id).toNat := by
  unfold SequenceNumberTracker.isAlreadyApplied SequenceNumberTracker.lastAppliedSequence
  cases hlast : t.lastApplied.lookup msg.shard_id with
  | none =>
    rw [hlast] at h
    have hne : msg.sequence ≠ 0 := h.resolve_right Bool.false_ne_true
    have hpos : msg.sequence.toNat ≠ 0 := fun hzero => hne (UInt64.toNat_inj.mp hzero)
    exact iff_of_false Bool.false_ne_true fun hle => hpos (Nat.le_zero.mp hle)
  | some last => exact decide_eq_true_iff.trans UInt64.le_iff_toNat_le

theorem checker_iff (h : msg.sequence ≠ 0 ∨ (t.lastApplied.lookup msg.shard_id).isSome = true) :
    (check t msg = .Reject ↔
        msg.sequence.toNat ≤ (t.lastAppliedSequence msg.shard_id).toNat) ∧
      (check t msg = .Accept ↔
        msg.sequence.toNat = (t.lastAppliedSequence msg.shard_id).toNat + 1) ∧
      (check t msg = .OutOfOrder ↔
        (t.lastAppliedSequence msg.shard_id).toNat + 1 < msg.sequence.toNat) := by
  have happlied := isAlreadyApplied_iff h
  by_cases hreject : t.isAlreadyApplied msg.shard_id msg.sequence = true
  · have hle := happlied.mp hreject
    have hcheck : check t msg = .Reject := (check_reject t msg).mpr hreject
    rw [hcheck]
    exact ⟨iff_of_true rfl hle, iff_of_false nofun (by omega), iff_of_false nofun (by omega)⟩
  · have hgt : (t.lastAppliedSequence msg.shard_id).toNat < msg.sequence.toNat :=
      Nat.lt_of_not_le fun hle => hreject (happlied.mpr hle)
    have hsequence := msg.sequence.toNat_lt
    have hnext : (t.lastAppliedSequence msg.shard_id + 1).toNat =
        (t.lastAppliedSequence msg.shard_id).toNat + 1 := by
      rw [UInt64.toNat_add]
      exact Nat.mod_eq_of_lt
        (by change (t.lastAppliedSequence msg.shard_id).toNat + 1 < 2 ^ 64; omega)
    rw [check, if_neg hreject]
    dsimp only
    split
    next hahead =>
      rw [UInt64.lt_iff_toNat_lt, hnext] at hahead
      exact ⟨iff_of_false nofun (by omega), iff_of_false nofun (by omega),
        iff_of_true rfl hahead⟩
    next hnot =>
      rw [UInt64.lt_iff_toNat_lt, hnext] at hnot
      exact ⟨iff_of_false nofun (by omega), iff_of_true rfl (by omega),
        iff_of_false nofun hnot⟩

end

/-! ### Side by side -/

/-- A rejected message is counted as a duplicate, an accepted one is the next
and is written, and one out of order lies beyond the next and is held. -/
def ClassifyAlike (writeCb : WriteCallback ω) (satelliteCb : SatelliteCheckCallback)
    (t : SequenceNumberTracker) (msg : DirectMQMessage) (a : ReplicationApplier) (m : ApplyMessage)
    (env : ω) (calls : List WriteArgs) : Prop :=
  (check t msg = .Reject ↔ CountsDuplicate writeCb satelliteCb m a env calls) ∧
    ((check t msg = .Accept ↔
        msg.sequence.toNat = (t.lastAppliedSequence msg.shard_id).toNat + 1) ∧
      (check t msg = .Accept ↔ Writes writeCb satelliteCb m a env calls)) ∧
    ((check t msg = .OutOfOrder ↔
        (t.lastAppliedSequence msg.shard_id).toNat + 1 < msg.sequence.toNat) ∧
      (check t msg = .OutOfOrder ↔ Buffers writeCb satelliteCb m a env calls))

/-- Every tracker and every applier that agree on the shard classify its
messages alike, where the applier does not skip the shard; the sequence zero is
left to the shards that the tracker has seen. -/
theorem checker_applier_alike (writeCb : WriteCallback ω) (satelliteCb : SatelliteCheckCallback)
    (t : SequenceNumberTracker) (msg : DirectMQMessage) (a : ReplicationApplier) (m : ApplyMessage)
    (env : ω) (calls : List WriteArgs)
    (hmessage : m.shardId = msg.shard_id ∧ m.sequence = msg.sequence)
    (hlast : t.lastAppliedSequence msg.shard_id = a.lastAppliedSequence msg.shard_id)
    (hsatellite : satelliteCb msg.shard_id = false)
    (hseen : msg.sequence ≠ 0 ∨ (t.lastApplied.lookup msg.shard_id).isSome = true) :
    ClassifyAlike writeCb satelliteCb t msg a m env calls := by
  obtain ⟨hshard, hsequence⟩ := hmessage
  obtain ⟨hduplicate, hwrites, hbuffers⟩ :=
    applier_iff writeCb satelliteCb m a env calls (hshard ▸ hsatellite)
  obtain ⟨hreject, haccept, horder⟩ := checker_iff hseen
  rw [hshard, hsequence, ← hlast] at hduplicate hwrites hbuffers
  exact ⟨hreject.trans hduplicate.symm, ⟨haccept, haccept.trans hwrites.symm⟩, horder,
    horder.trans hbuffers.symm⟩

def applyAt (seq : UInt64) : ApplyMessage := ⟨lit "s1", seq, .insert, [], [], []⟩

def acceptsAll : WriteCallback Unit := fun _ env => (0, env)

theorem checker_applier_alike_first :
    ClassifyAlike acceptsAll (fun _ => false) .new (insertAt 1) .new (applyAt 1) () [] :=
  checker_applier_alike acceptsAll (fun _ => false) .new (insertAt 1) .new (applyAt 1) () []
    ⟨rfl, rfl⟩ rfl rfl (.inl (by decide))

/-- A new tracker and a new applier: the sequence zero is accepted by the one and
a duplicate to the other, and a satellite shard is skipped. -/
theorem checker_applier_differ :
    SequenceNumberTracker.new.lastAppliedSequence (lit "s1") =
        ReplicationApplier.new.lastAppliedSequence (lit "s1") ∧
      ¬ ClassifyAlike acceptsAll (fun _ => false) .new (insertAt 0) .new (applyAt 0) () [] ∧
      ¬ ClassifyAlike acceptsAll (fun _ => true) .new (insertAt 1) .new (applyAt 1) () [] := by
  refine ⟨rfl, fun h => ?_, fun h => ?_⟩
  · have hreject := h.1.mpr rfl
    exact absurd hreject (by decide)
  · have hwrites := h.2.1.2.mp (by decide)
    exact hwrites.calls_ne rfl

end OpenArangoDBCore.Replication
