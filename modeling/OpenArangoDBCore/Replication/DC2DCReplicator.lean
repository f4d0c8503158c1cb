import OpenArangoDBCore.Lib.Interleaving
import OpenArangoDBCore.Replication.ShardWALTailer

/-!
# The tail loops of the replicator (DC2DCReplicator.cpp, MessageBatcher.cpp)

`start()` has spawned one `shardTailLoop` thread for every shard. They share
`_tailing`, the sequence provider and the callback for sealed batches; the
provider is an atomic counter, and the batches it was handed are kept in the
order of the calls. The thread `none` is the owner of the replicator.
-/

namespace OpenArangoDBCore.Replication
open Interleaving

structure MessageBatch where
  shardId : ByteString
  sequenceNumber : UInt64
  entries : List WALEntry
  batchTimestamp : UInt64
  deriving DecidableEq

structure MessageBatcher where
  shardId : ByteString
  batchSize : UInt32
  pending : List WALEntry

namespace MessageBatcher

def new (shardId : ByteString) (batchSize : UInt32) : MessageBatcher := ⟨shardId, batchSize, []⟩

/- `add` is `push`, and `sealBatch` if the batch is `full` then. -/
def push (b : MessageBatcher) (entry : WALEntry) : MessageBatcher :=
  {b with pending := b.pending ++ [entry]}

def full (b : MessageBatcher) : Bool := b.batchSize.toNat ≤ b.pending.length

/-- `seal()`, with the answers of the sequence provider and of the clock. -/
def sealBatch (b : MessageBatcher) (sequenceNumber now : UInt64) : MessageBatch × MessageBatcher :=
  (⟨b.shardId, sequenceNumber, b.pending, now⟩, {b with pending := []})

end MessageBatcher

structure DC2DCReplicator where
  batchSize : UInt32
  numberOfShards : UInt32
  tailing : Bool
  counter : UInt64
  handed : List MessageBatch

namespace DC2DCReplicator

/-- `"shard_" + std::to_string(shardIndex)` -/
def shardIdOf (shardIndex : UInt32) : ByteString := lit "shard_" ++ decimal shardIndex.toNat

/- Where the loop goes on after a batch: with the rest of the polled entries,
with the next round, or out of the loop. -/
inductive After where
  | adding (entries : List WALEntry)
  | looping
  | leaving

inductive Control where
  | owner
  | starting (shardIndex : UInt32)
  | looping (tailer : ShardWALTailer) (batcher : MessageBatcher)
  | adding (tailer : ShardWALTailer) (batcher : MessageBatcher) (entries : List WALEntry)
      (polled : Bool)
  | sealing (tailer : ShardWALTailer) (batcher : MessageBatcher) (after : After)
  | handing (batch : MessageBatch) (tailer : ShardWALTailer) (batcher : MessageBatcher)
      (after : After)
  | done

inductive Event where
  | stop
  | step
  | draw (now : UInt64)
  | hand

def After.control (tailer : ShardWALTailer) (batcher : MessageBatcher) : After → Control
  | .adding entries => .adding tailer batcher entries true
  | .looping => .looping tailer batcher
  | .leaving => .done

def flush (tailer : ShardWALTailer) (batcher : MessageBatcher) (after : After) : Control :=
  if batcher.pending = [] then after.control tailer batcher else .sealing tailer batcher after

def shardTailLoop (iteratorFactory : UInt32 → List WALEntry) (resolver : CollectionInfoResolver) :
    Program DC2DCReplicator Control Event
  | r, .owner, .stop => some ({r with tailing := false}, .owner)
  | r, .starting shardIndex, .step =>
    let tailer := ShardWALTailer.new shardIndex r.numberOfShards
      (.new (iteratorFactory shardIndex))
    some (r, .looping tailer (.new (shardIdOf shardIndex) r.batchSize))
  | r, .looping tailer batcher, .step =>
    if r.tailing then
      let (entries, tailer') := tailer.poll resolver r.batchSize
      some (r, .adding tailer' batcher entries (!entries.isEmpty))
    else some (r, flush tailer batcher .leaving)
  | r, .adding tailer batcher (entry :: rest) polled, .step =>
    let batcher' := batcher.push entry
    some (r, if batcher'.full then .sealing tailer batcher' (.adding rest)
      else .adding tailer batcher' rest polled)
  | r, .adding tailer batcher [] polled, .step =>
    some (r, if polled then .looping tailer batcher else flush tailer batcher .looping)
  | r, .sealing tailer batcher after, .draw now =>
    let number := r.counter + 1
    some ({r with counter := number},
      .handing (batcher.sealBatch number now).1 tailer (batcher.sealBatch number now).2 after)
  | r, .handing batch tailer batcher after, .hand =>
    some ({r with handed := r.handed ++ [batch]}, after.control tailer batcher)
  | _, _, _ => none

def start (batchSize numberOfShards : UInt32) :
    Config (Option (Fin numberOfShards.toNat)) DC2DCReplicator Control :=
  ⟨⟨batchSize, numberOfShards, true, 0, []⟩, fun t =>
    t.elim .owner fun i => .starting (UInt32.ofNat i)⟩

end DC2DCReplicator
end OpenArangoDBCore.Replication
