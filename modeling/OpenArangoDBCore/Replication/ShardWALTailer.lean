import OpenArangoDBCore.Sharding.ShardingStrategyEE

/-!
# The WAL tailer of one shard (ShardWALTailer.cpp)

The iterator is a position in a finite log. The resolver of collection
infos is fixed, so the cache of the tailer never answers differently.
-/

namespace OpenArangoDBCore.Replication
open Sharding

inductive WALOperation where
  | kInsert
  | kUpdate
  | kDelete
  deriving DecidableEq, Repr

structure WALEntry where
  sequenceNumber : UInt64
  timestamp : UInt64
  collectionName : ByteString
  documentKey : ByteString
  operation : WALOperation
  payload : ByteString
  deriving DecidableEq

/-- `rest` is what the iterator has left, its current entry first. -/
structure WALIterator where
  wal : List WALEntry
  rest : List WALEntry

namespace WALIterator

def new (wal : List WALEntry) : WALIterator := ⟨wal, wal⟩

/-- The first entry with `sequenceNumber >= target`. -/
def seek (it : WALIterator) (target : UInt64) : WALIterator :=
  ⟨it.wal, it.wal.dropWhile fun e => e.sequenceNumber < target⟩

end WALIterator

structure CollectionReplicationInfo where
  replicationFactor : UInt64
  numberOfShards : UInt32

abbrev CollectionInfoResolver := ByteString → Option CollectionReplicationInfo

/-- `SatelliteDistribution::isSatellite` -/
def isSatellite (replicationFactor : UInt64) : Bool := replicationFactor = 0

structure ShardWALTailer where
  shardIndex : UInt32
  numberOfShards : UInt32
  iterator : WALIterator
  stopped : Bool
  lastProcessedSeq : UInt64
  infoCache : UnorderedMap ByteString CollectionReplicationInfo

namespace ShardWALTailer

def new (shardIndex numberOfShards : UInt32) (iterator : WALIterator) : ShardWALTailer :=
  ⟨shardIndex, numberOfShards, iterator, false, 0, ∅⟩

variable (resolver : CollectionInfoResolver)

/-- The cache is `mutable`, so the check returns the tailer as well. -/
def isSatelliteEntry (t : ShardWALTailer) (entry : WALEntry) : Bool × ShardWALTailer :=
  match t.infoCache.lookup entry.collectionName with
  | some info => (isSatellite info.replicationFactor, t)
  | none =>
    match resolver entry.collectionName with
    | none => (false, t)
    | some info => (isSatellite info.replicationFactor,
        {t with infoCache := t.infoCache.insert entry.collectionName info})

def belongsToShard (t : ShardWALTailer) (entry : WALEntry) : Bool :=
  if t.numberOfShards ≤ 1 then true
  else computeShardIndex entry.documentKey t.numberOfShards = t.shardIndex

/-- The body of the loop for the current entry, without `_iterator->next()`;
whether the entry goes into the result. -/
def examine (t : ShardWALTailer) (current : WALEntry) : Bool × ShardWALTailer :=
  let (satellite, t₁) := t.isSatelliteEntry resolver current
  let keep := !satellite && t₁.belongsToShard current
  let t₂ := if keep then {t₁ with lastProcessedSeq := current.sequenceNumber}
    else (t₁.isSatelliteEntry resolver current).2
  (keep, if t₂.lastProcessedSeq < current.sequenceNumber then
    {t₂ with lastProcessedSeq := current.sequenceNumber} else t₂)

/-- `while (_iterator->valid() && !_stopped && result.size() < maxEntries)` -/
def pollLoop (maxEntries : UInt32) :
    List WALEntry → ShardWALTailer → List WALEntry → List WALEntry × ShardWALTailer
  | [], t, result => (result, {t with iterator := ⟨t.iterator.wal, []⟩})
  | current :: rest, t, result =>
    if t.stopped = true ∨ maxEntries.toNat ≤ result.length then
      (result, {t with iterator := ⟨t.iterator.wal, current :: rest⟩})
    else
      let (keep, t') := t.examine resolver current
      pollLoop maxEntries rest t' (if keep then result ++ [current] else result)

def poll (t : ShardWALTailer) (maxEntries : UInt32) : List WALEntry × ShardWALTailer :=
  pollLoop resolver maxEntries t.iterator.rest t []

def seekTo (t : ShardWALTailer) (sequenceNumber : UInt64) : ShardWALTailer :=
  {t with
    iterator := t.iterator.seek sequenceNumber
    lastProcessedSeq := if 0 < sequenceNumber then sequenceNumber - 1 else 0}

def stop (t : ShardWALTailer) : ShardWALTailer := {t with stopped := true}

/-! ### What a poll returns -/

/-- An entry that the tailer of the shard returns: not of a satellite
collection, and of its shard. -/
def keeps (shardIndex numberOfShards : UInt32) (entry : WALEntry) : Bool :=
  !((resolver entry.collectionName).elim false fun info => isSatellite info.replicationFactor) &&
    (if numberOfShards ≤ 1 then true
      else computeShardIndex entry.documentKey numberOfShards = shardIndex)

def CacheOk (t : ShardWALTailer) : Prop :=
  ∀ name info, t.infoCache.lookup name = some info → resolver name = some info

variable {resolver}

theorem isSatelliteEntry_spec {t : ShardWALTailer} (h : CacheOk resolver t) (entry : WALEntry) :
    (t.isSatelliteEntry resolver entry).1 = (resolver entry.collectionName).elim false
        (fun info => isSatellite info.replicationFactor) ∧
      ∃ cache, (t.isSatelliteEntry resolver entry).2 = {t with infoCache := cache} ∧
        CacheOk resolver (t.isSatelliteEntry resolver entry).2 := by
  unfold isSatelliteEntry
  cases hc : t.infoCache.lookup entry.collectionName with
  | some info =>
    rw [h _ _ hc]
    exact ⟨rfl, t.infoCache, rfl, h⟩
  | none =>
    cases hr : resolver entry.collectionName with
    | none => exact ⟨rfl, t.infoCache, rfl, h⟩
    | some info =>
      refine ⟨rfl, _, rfl, ?_⟩
      intro name i hi
      simp only [UnorderedMap.lookup_insert_of] at hi
      by_cases hn : name = entry.collectionName
      · rw [if_pos hn] at hi
        rw [hn, hr, hi]
      · rw [if_neg hn] at hi
        exact h name i hi

def SamePlace (t t' : ShardWALTailer) : Prop :=
  t'.shardIndex = t.shardIndex ∧ t'.numberOfShards = t.numberOfShards ∧
    t'.iterator = t.iterator ∧ t'.stopped = t.stopped

theorem examine_spec {t : ShardWALTailer} (h : CacheOk resolver t) (entry : WALEntry) :
    (t.examine resolver entry).1 = keeps resolver t.shardIndex t.numberOfShards entry ∧
      SamePlace t (t.examine resolver entry).2 ∧ CacheOk resolver (t.examine resolver entry).2 := by
  obtain ⟨hs, cache, ht, hc⟩ := isSatelliteEntry_spec h entry
  obtain ⟨-, cache', ht', hc'⟩ := isSatelliteEntry_spec hc entry
  have hkeep : (!(t.isSatelliteEntry resolver entry).1 &&
      (t.isSatelliteEntry resolver entry).2.belongsToShard entry) =
        keeps resolver t.shardIndex t.numberOfShards entry := by
    rw [hs, ht]
    rfl
  unfold examine
  dsimp only
  refine ⟨hkeep, ?_, ?_⟩
  · rw [ht', ht]
    split <;> split <;> exact ⟨rfl, rfl, rfl, rfl⟩
  · split <;> split
    · exact hc
    · exact hc
    · exact hc'
    · exact hc'

theorem pollLoop_stop {maxEntries : UInt32} {t : ShardWALTailer} {result : List WALEntry}
    (h : t.stopped = true ∨ maxEntries.toNat ≤ result.length) (current : WALEntry)
    (rest : List WALEntry) : pollLoop resolver maxEntries (current :: rest) t result =
      (result, {t with iterator := ⟨t.iterator.wal, current :: rest⟩}) := if_pos h

theorem pollLoop_step {maxEntries : UInt32} {t : ShardWALTailer} {result : List WALEntry}
    (h : ¬ (t.stopped = true ∨ maxEntries.toNat ≤ result.length)) (current : WALEntry)
    (rest : List WALEntry) : pollLoop resolver maxEntries (current :: rest) t result =
      pollLoop resolver maxEntries rest (t.examine resolver current).2
        (if (t.examine resolver current).1 = true then result ++ [current] else result) := if_neg h

/-- From `rest` on, with `result` collected before. -/
structure Polled (resolver : CollectionInfoResolver) (maxEntries : UInt32) (t : ShardWALTailer)
    (rest result : List WALEntry) (r : List WALEntry × ShardWALTailer) : Prop where
  consumed : ∃ passed, rest = passed ++ r.2.iterator.rest ∧
    r.1 = result ++ passed.filter (keeps resolver t.shardIndex t.numberOfShards)
  ended : r.2.iterator.rest = [] ∨ t.stopped = true ∨ maxEntries.toNat ≤ r.1.length
  bounded : r.1.length ≤ maxEntries.toNat
  cacheOk : CacheOk resolver r.2
  shardIndex : r.2.shardIndex = t.shardIndex
  numberOfShards : r.2.numberOfShards = t.numberOfShards
  wal : r.2.iterator.wal = t.iterator.wal
  stopped : r.2.stopped = t.stopped

theorem pollLoop_spec (maxEntries : UInt32) (rest : List WALEntry) (t : ShardWALTailer)
    (result : List WALEntry) (h : CacheOk resolver t) (hlen : result.length ≤ maxEntries.toNat) :
    Polled resolver maxEntries t rest result
      (pollLoop resolver maxEntries rest t result) := by
  induction rest generalizing t result with
  | nil => exact ⟨⟨[], rfl, (List.append_nil _).symm⟩, .inl rfl, hlen, h, rfl, rfl, rfl, rfl⟩
  | cons current rest ih =>
    by_cases hstop : t.stopped = true ∨ maxEntries.toNat ≤ result.length
    · rw [pollLoop_stop hstop]
      exact ⟨⟨[], rfl, (List.append_nil _).symm⟩, .inr hstop, hlen, h, rfl, rfl, rfl, rfl⟩
    · obtain ⟨hkeep, hsame, hcache⟩ := examine_spec h current
      obtain ⟨hidx, hnum, hit, hstopped⟩ := hsame
      have hlen' : (if (t.examine resolver current).1 = true then result ++ [current]
          else result).length ≤ maxEntries.toNat := by
        push Not at hstop
        split
        · rw [List.length_append, List.length_singleton]
          omega
        · exact hlen
      have hlater := ih (t.examine resolver current).2 _ hcache hlen'
      rw [← pollLoop_step hstop] at hlater
      obtain ⟨passed, hrest, hres⟩ := hlater.consumed
      refine ⟨⟨current :: passed, ?_, ?_⟩, ?_, hlater.bounded, hlater.cacheOk,
        hlater.shardIndex.trans hidx, hlater.numberOfShards.trans hnum, ?_,
        hlater.stopped.trans hstopped⟩
      · rw [List.cons_append, ← hrest]
      · rw [hres, hkeep, hidx, hnum, List.filter_cons]
        split <;> simp
      · have hended := hlater.ended
        rw [hstopped] at hended
        exact hended
      · rw [hlater.wal, hit]

theorem poll_spec (t : ShardWALTailer) (maxEntries : UInt32) (h : CacheOk resolver t) :
    Polled resolver maxEntries t t.iterator.rest [] (t.poll resolver maxEntries) :=
  pollLoop_spec maxEntries t.iterator.rest t [] h (Nat.zero_le _)

end ShardWALTailer
end OpenArangoDBCore.Replication
