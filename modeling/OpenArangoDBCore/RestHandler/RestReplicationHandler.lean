import OpenArangoDBCore.Replication.CheckpointReceiver
import OpenArangoDBCore.Replication.ReplicationFeedStream

/-! # REST handler of the replication (RestReplicationHandler.ipp) -/

namespace OpenArangoDBCore.RestHandler.RestReplicationHandler
open Replication

def formatSuccess (resultJson : ByteString) : ByteString :=
  lit "\x7b\n  \"error\": false,\n  \"code\": 200,\n  \"result\": " ++ resultJson ++ lit "\n\x7d"

def formatError (code : ℤ) (message : ByteString) : ByteString :=
  lit "\x7b\n  \"error\": true,\n  \"code\": " ++ decimalInt code ++
    lit ",\n  \"errorMessage\": \"" ++ message ++ lit "\"\n\x7d"

/-- The default of 1000 for 0, and the ceiling of 10000. -/
def effectiveCount (maxCount : UInt32) : UInt32 :=
  let maxCount := if maxCount = 0 then 1000 else maxCount
  if 10000 < maxCount then 10000 else maxCount

def executeFeed (nextBatch : NextBatch) (shardId : ByteString) (afterSequence : UInt64)
    (maxCount : UInt32) : ByteString :=
  if shardId = [] then formatError 400 (lit "missing required parameter: shardId")
  else formatSuccess
    (ReplicationFeedStream.fetch nextBatch shardId afterSequence (effectiveCount maxCount))

/-- The page in the response of `executeFeed`. -/
def feedPage (nextBatch : NextBatch) (shardId : ByteString) (afterSequence : UInt64)
    (maxCount : UInt32) : FeedPage :=
  ReplicationFeedStream.fetchPage nextBatch shardId afterSequence (effectiveCount maxCount)

/-- `response` and the tracker. -/
def executeCheckpoint (tracker : MockSequenceNumberTracker) (shardId : ByteString)
    (appliedSequence : UInt64) : ByteString × MockSequenceNumberTracker :=
  if shardId = [] then (formatError 400 (lit "missing required field: shardId"), tracker)
  else if appliedSequence = 0 then
    (formatError 400 (lit "appliedSequence must be greater than 0"), tracker)
  else
    match CheckpointReceiver.receive tracker shardId appliedSequence with
    | (result, tracker') =>
      if result.accepted = false then (formatError 409 result.reason, tracker')
      else (formatSuccess (lit "\x7b\"acknowledged\": true, \"shardId\": \"" ++ shardId ++
        lit "\", \"appliedSequence\": " ++ decimal appliedSequence.toNat ++ lit "\x7d"), tracker')

theorem executeFeed_eq (nextBatch : NextBatch) {shardId : ByteString} (h : shardId ≠ [])
    (afterSequence : UInt64) (maxCount : UInt32) :
    executeFeed nextBatch shardId afterSequence maxCount = formatSuccess
      (ReplicationFeedStream.renderPage (feedPage nextBatch shardId afterSequence maxCount)) :=
  if_neg h

theorem effectiveCount_range (maxCount : UInt32) :
    0 < (effectiveCount maxCount).toNat ∧ (effectiveCount maxCount).toNat ≤ 10000 := by
  unfold effectiveCount
  dsimp only
  by_cases hzero : maxCount = 0
  · rw [if_pos hzero]
    decide
  · have hpos : maxCount.toNat ≠ 0 := fun h => hzero (UInt32.toNat_inj.mp h)
    rw [if_neg hzero]
    split
    next => decide
    next hceiling =>
      rw [UInt32.lt_iff_toNat_lt, show (10000 : UInt32).toNat = 10000 from rfl] at hceiling
      omega

/-- A report that is refused leaves the tracker as it is. -/
theorem executeCheckpoint_refused (tracker : MockSequenceNumberTracker) (shardId : ByteString)
    (appliedSequence : UInt64)
    (h : (CheckpointReceiver.receive tracker shardId appliedSequence).1.accepted = false) :
    (executeCheckpoint tracker shardId appliedSequence).2 = tracker := by
  unfold executeCheckpoint
  split
  · rfl
  · split
    · rfl
    · dsimp only
      rw [if_pos h]
      unfold CheckpointReceiver.receive at h ⊢
      dsimp only at h ⊢
      split at h
      next haccepted =>
        dsimp only at h
        rw [h] at haccepted
        cases haccepted
      next hrefused => rw [if_neg hrefused]

end OpenArangoDBCore.RestHandler.RestReplicationHandler
