import OpenArangoDBCore.Basics

/-!
# The replication feed (ReplicationFeedStream.ipp)

A tailer is given by its `nextBatch`. `fetch` cuts a page out of what it
returns, with one message more as a sign that there are more, and prints it.
-/

namespace OpenArangoDBCore.Replication

structure ReplicationMessage where
  shardId : ByteString
  sequence : UInt64
  operation : ByteString
  payload : ByteString
  deriving DecidableEq

/-- `nextBatch(shardId, afterSequence, maxCount)` -/
abbrev NextBatch := ByteString → UInt64 → UInt32 → List ReplicationMessage

namespace MockShardWALTailer

/-- The loop of `nextBatch`, with `result` collected before. -/
def nextBatchLoop (shardId : ByteString) (afterSequence : UInt64) (maxCount : UInt32) :
    List ReplicationMessage → List ReplicationMessage → List ReplicationMessage
  | [], result => result
  | m :: messages, result =>
    if m.shardId = shardId ∧ afterSequence < m.sequence then
      if maxCount.toNat ≤ (result ++ [m]).length then result ++ [m]
      else nextBatchLoop shardId afterSequence maxCount messages (result ++ [m])
    else nextBatchLoop shardId afterSequence maxCount messages result

def nextBatch (messages : List ReplicationMessage) : NextBatch :=
  fun shardId afterSequence maxCount =>
    nextBatchLoop shardId afterSequence maxCount messages []

end MockShardWALTailer

/-- What `fetch` prints. -/
structure FeedPage where
  messages : List ReplicationMessage
  hasMore : Bool
  lastSequence : UInt64
  deriving DecidableEq

namespace ReplicationFeedStream

def lastSequence (afterSequence : UInt64) (messages : List ReplicationMessage) : UInt64 :=
  messages.foldl (fun _ m => m.sequence) afterSequence

def fetchPage (nextBatch : NextBatch) (shardId : ByteString) (afterSequence : UInt64)
    (maxCount : UInt32) : FeedPage :=
  let batch := nextBatch shardId afterSequence (maxCount + 1)
  let hasMore := decide (maxCount.toNat < batch.length)
  let messages := if hasMore then batch.take maxCount.toNat else batch
  ⟨messages, hasMore, lastSequence afterSequence messages⟩

def renderMessage (m : ReplicationMessage) : ByteString :=
  lit "\x7b\n" ++
    (lit "    \"shardId\": \"" ++ m.shardId ++ lit "\",\n") ++
    (lit "    \"sequence\": " ++ decimal m.sequence.toNat ++ lit ",\n") ++
    (lit "    \"operation\": \"" ++ m.operation ++ lit "\",\n") ++
    (lit "    \"payload\": \"" ++ m.payload ++ lit "\"\n") ++
    lit "  \x7d"

def renderPage (page : FeedPage) : ByteString :=
  lit "\x7b\n  \"messages\": [" ++ (lit ", ").intercalate (page.messages.map renderMessage) ++
    lit "],\n" ++
    (lit "  \"hasMore\": " ++ (if page.hasMore then lit "true" else lit "false") ++ lit ",\n") ++
    (lit "  \"lastSequence\": " ++ decimal page.lastSequence.toNat ++ lit "\n") ++
    lit "\x7d"

def fetch (nextBatch : NextBatch) (shardId : ByteString) (afterSequence : UInt64)
    (maxCount : UInt32) : ByteString :=
  renderPage (fetchPage nextBatch shardId afterSequence maxCount)

end ReplicationFeedStream

/-! ### What a tailer returns -/

/-- The messages of the shard behind the sequence. -/
def messagesAfter (log : List ReplicationMessage) (shardId : ByteString) (afterSequence : UInt64) :
    List ReplicationMessage :=
  log.filter fun m => decide (m.shardId = shardId ∧ afterSequence < m.sequence)

/-- `nextBatch` returns the first messages of the shard behind the sequence. -/
def ReadsFirst (log : List ReplicationMessage) (nextBatch : NextBatch) : Prop :=
  ∀ shardId afterSequence maxCount, 0 < maxCount →
    nextBatch shardId afterSequence maxCount =
      (messagesAfter log shardId afterSequence).take maxCount.toNat

theorem nextBatchLoop_eq (shardId : ByteString) (afterSequence : UInt64) {maxCount : UInt32}
    (messages result : List ReplicationMessage) (h : result.length < maxCount.toNat) :
    MockShardWALTailer.nextBatchLoop shardId afterSequence maxCount messages result =
      (result ++ messagesAfter messages shardId afterSequence).take maxCount.toNat := by
  induction messages generalizing result with
  | nil =>
    rw [MockShardWALTailer.nextBatchLoop, messagesAfter, List.filter_nil, List.append_nil,
      List.take_of_length_le h.le]
  | cons m messages ih =>
    unfold MockShardWALTailer.nextBatchLoop
    by_cases hm : m.shardId = shardId ∧ afterSequence < m.sequence
    · have hlength : (result ++ [m]).length = result.length + 1 := by simp
      have hcons : result ++ messagesAfter (m :: messages) shardId afterSequence =
          result ++ [m] ++ messagesAfter messages shardId afterSequence := by
        simp [messagesAfter, hm]
      rw [if_pos hm, hcons]
      split
      next hfull =>
        have hexact : maxCount.toNat = (result ++ [m]).length := by omega
        rw [hexact, List.take_left]
      next hroom => exact ih _ (by omega)
    · have hpass : messagesAfter (m :: messages) shardId afterSequence =
          messagesAfter messages shardId afterSequence := List.filter_cons_of_neg (by simpa using hm)
      rw [if_neg hm, hpass]
      exact ih result h

theorem mock_readsFirst (log : List ReplicationMessage) :
    ReadsFirst log (MockShardWALTailer.nextBatch log) := by
  intro shardId afterSequence maxCount hpos
  rw [UInt32.lt_iff_toNat_lt, UInt32.toNat_zero] at hpos
  rw [MockShardWALTailer.nextBatch, nextBatchLoop_eq shardId afterSequence log [] hpos,
    List.nil_append]

end OpenArangoDBCore.Replication
