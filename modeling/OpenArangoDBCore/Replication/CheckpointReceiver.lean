import OpenArangoDBCore.Basics
import OpenArangoDBCore.Lib.CheckThenAct
import OpenArangoDBCore.Lib.Interleaving

/-!
# Progress reports (CheckpointReceiver.ipp)

`receive` reads the state of a shard, checks the reported sequence against it
and assigns it. Requests run side by side, so another report can be written
between the read and the assignment of one; the number of a shard falls when
it was a larger one. The tracker is the one of the repository's mocks.
-/

namespace OpenArangoDBCore.Replication
open Interleaving CheckThenAct

structure ShardSequenceState where
  shardId : ByteString
  lastGenerated : UInt64
  lastApplied : UInt64
  pendingCount : UInt64
  deriving DecidableEq

abbrev MockSequenceNumberTracker := UnorderedMap ByteString ShardSequenceState

namespace MockSequenceNumberTracker

def getState (t : MockSequenceNumberTracker) (shardId : ByteString) : ShardSequenceState :=
  (t.lookup shardId).getD ⟨[], 0, 0, 0⟩

def updateApplied (t : MockSequenceNumberTracker) (shardId : ByteString) (sequence : UInt64) :
    MockSequenceNumberTracker :=
  match t.lookup shardId with
  | none => t
  | some state => t.insert shardId {state with
      lastApplied := sequence
      pendingCount :=
        if sequence ≤ state.lastGenerated then state.lastGenerated - sequence else 0}

end MockSequenceNumberTracker

namespace CheckpointReceiver
open MockSequenceNumberTracker

structure CheckpointResult where
  accepted : Bool
  reason : ByteString
  deriving DecidableEq

/-- The checks of `receive` on the state that it has read. -/
def validate (shardId : ByteString) (appliedSequence : UInt64) (state : ShardSequenceState) :
    CheckpointResult :=
  if state.lastGenerated = 0 ∧ state.lastApplied = 0 then
    ⟨false, lit "unknown shard: " ++ shardId⟩
  else if appliedSequence ≤ state.lastApplied then
    ⟨false, lit "appliedSequence " ++ decimal appliedSequence.toNat ++
      lit " is not ahead of current lastApplied " ++ decimal state.lastApplied.toNat ++
      lit " for shard " ++ shardId⟩
  else if state.lastGenerated < appliedSequence then
    ⟨false, lit "appliedSequence " ++ decimal appliedSequence.toNat ++
      lit " exceeds lastGenerated " ++ decimal state.lastGenerated.toNat ++
      lit " for shard " ++ shardId⟩
  else ⟨true, []⟩

def receive (t : MockSequenceNumberTracker) (shardId : ByteString) (appliedSequence : UInt64) :
    CheckpointResult × MockSequenceNumberTracker :=
  let result := validate shardId appliedSequence (getState t shardId)
  if result.accepted then (result, updateApplied t shardId appliedSequence) else (result, t)

inductive Control where
  | idle
  | reading (shardId : ByteString) (appliedSequence : UInt64)
  | validating (shardId : ByteString) (appliedSequence : UInt64) (state : ShardSequenceState)
  | writing (shardId : ByteString) (appliedSequence : UInt64)
  | returned (result : CheckpointResult)
  deriving DecidableEq

inductive Event where
  | receive (shardId : ByteString) (appliedSequence : UInt64)
  | step
  deriving DecidableEq

def receiver : Program MockSequenceNumberTracker Control Event
  | t, .idle, .receive shardId appliedSequence => some (t, .reading shardId appliedSequence)
  | t, .returned _, .receive shardId appliedSequence => some (t, .reading shardId appliedSequence)
  | t, .reading shardId appliedSequence, .step =>
    some (t, .validating shardId appliedSequence (getState t shardId))
  | t, .validating shardId appliedSequence state, .step =>
    let result := validate shardId appliedSequence state
    some (t, if result.accepted then .writing shardId appliedSequence else .returned result)
  | t, .writing shardId appliedSequence, .step =>
    some (updateApplied t shardId appliedSequence, .returned ⟨true, []⟩)
  | _, _, _ => none

def start {T : Type} (tracker : MockSequenceNumberTracker) :
    Config T MockSequenceNumberTracker Control := ⟨tracker, fun _ => .idle⟩

theorem validate_accepted_iff (shardId : ByteString) (appliedSequence : UInt64)
    (state : ShardSequenceState) : (validate shardId appliedSequence state).accepted = true ↔
      state.lastApplied < appliedSequence ∧ appliedSequence ≤ state.lastGenerated := by
  unfold validate
  simp only [UInt64.le_iff_toNat_le, UInt64.lt_iff_toNat_lt, ← UInt64.toNat_inj, UInt64.toNat_zero]
  split
  next hzero => exact iff_of_false nofun (by omega)
  next =>
    split
    next hbehind => exact iff_of_false nofun (by omega)
    next =>
      split
      next hahead => exact iff_of_false nofun (by omega)
      next => exact iff_of_true rfl (by omega)

theorem validate_of_accepted {shardId : ByteString} {appliedSequence : UInt64}
    {state : ShardSequenceState} (h : (validate shardId appliedSequence state).accepted = true) :
    validate shardId appliedSequence state = ⟨true, []⟩ := by
  unfold validate at h ⊢
  split at h
  next => cases h
  next hknown =>
    rw [if_neg hknown]
    split at h
    next => cases h
    next hahead =>
      rw [if_neg hahead]
      split at h
      next => cases h
      next hgenerated => rw [if_neg hgenerated]

/-- A call that runs alone does what `receive` says. -/
theorem alone_receive (t : MockSequenceNumberTracker) (shardId : ByteString)
    (appliedSequence : UInt64) :
    let result := receive t shardId appliedSequence
    alone receiver t .idle (.receive shardId appliedSequence ::
        List.replicate (if result.1.accepted then 3 else 2) .step) =
      some (result.2, .returned result.1) := by
  unfold receive
  dsimp only
  cases h : (validate shardId appliedSequence (getState t shardId)).accepted with
  | true => simp [alone, receiver, validate_of_accepted h, List.replicate]
  | false => simp [alone, receiver, h, List.replicate]

end CheckpointReceiver
end OpenArangoDBCore.Replication
