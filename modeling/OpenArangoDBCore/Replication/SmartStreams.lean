import OpenArangoDBCore.Replication.TailerPolls

/-!
# The streams of smart documents (ShardWALTailer.cpp, ShardingStrategyEE.cpp)

The tailers hash the whole document key, the sharding strategies its smart
prefix. So a document travels in the stream of its own shard only if its key
has no `':'`, or if the two hashes happen to agree.
-/

namespace OpenArangoDBCore.Replication.ShardWALTailer
open Sharding
variable {resolver : CollectionInfoResolver} {entry : WALEntry} {i numberOfShards : UInt32}

def fnv1a (value : ByteString) : UInt32 :=
  value.foldl (fun hash c => (hash ^^^ UInt32.ofNat c.val) * kFnvPrime) kFnvOffsetBasis

theorem computeShardIndex_toNat (value : ByteString) (numberOfShards : UInt32) :
    (computeShardIndex value numberOfShards).toNat =
      (fnv1a value).toNat % numberOfShards.toNat := UInt32.toNat_mod _ _

theorem eq_of_mod_eq {m x y : ℕ} (hodd : m % 2 = 1) (hx : x ≤ m) (hy : y ≤ m)
    (hparity : x % 2 = y % 2) (h : x % m = y % m) : x = y := by
  rcases hx.lt_or_eq with hx | rfl
  · rw [Nat.mod_eq_of_lt hx] at h
    rcases hy.lt_or_eq with hy | rfl
    · rwa [Nat.mod_eq_of_lt hy] at h
    · rw [Nat.mod_self] at h
      omega
  · rw [Nat.mod_self] at h
    rcases hy.lt_or_eq with hy | rfl
    · rw [Nat.mod_eq_of_lt hy] at h
      omega
    · rfl

/-- Two hashes that agree for every number of shards are the same: for the
largest number they can differ only as `0` and itself, and it is odd. -/
theorem hash_eq_of_mod_eq {a b : UInt32} (h : ∀ n : UInt32, 2 ≤ n →
    a.toNat % n.toNat = b.toNat % n.toNat) : a = b := by
  have hlargest : (4294967295 : UInt32).toNat = 2 ^ 32 - 1 := by decide
  have hall := h 4294967295 (by decide)
  rw [hlargest] at hall
  exact UInt32.toNat_inj.mp (eq_of_mod_eq (by decide) (Nat.le_sub_one_of_lt a.toNat_lt)
    (Nat.le_sub_one_of_lt b.toNat_lt) (h 2 (by decide)) hall)

/-- `getResponsibleShard` of the strategies for smart collections. -/
def smartStrategies : List (ByteString → UInt32 → UInt32) :=
  [EnterpriseHashSmartEdgeShardingStrategy.getResponsibleShard,
    EnterpriseHexSmartVertexShardingStrategy.getResponsibleShard,
    EnterpriseSmartEdgeCompatShardingStrategy.getResponsibleShard]

theorem smartStrategy_eq {strategy : ByteString → UInt32 → UInt32} (h : strategy ∈ smartStrategies)
    (key : ByteString) (numberOfShards : UInt32) :
    strategy key numberOfShards = computeShardIndex (extractSmartPrefix key) numberOfShards := by
  rcases List.mem_cons.mp h with rfl | h
  · rfl
  · rcases List.mem_cons.mp h with rfl | h
    · rfl
    · obtain rfl := List.mem_singleton.mp h
      rfl

/-- Some polls of the tailer of the shard, over some log, return the entry. -/
def Yields (resolver : CollectionInfoResolver) (i numberOfShards : UInt32) (entry : WALEntry) :
    Prop :=
  ∃ wal limits, entry ∈ (polls resolver (new i numberOfShards (.new wal)) limits).1.flatten

theorem yields_iff_keeps :
    Yields resolver i numberOfShards entry ↔ keeps resolver i numberOfShards entry = true := by
  constructor
  · rintro ⟨wal, limits, hmem⟩
    have hcache : CacheOk resolver (new i numberOfShards (.new wal)) := new_cacheOk _ _ _
    have hp := polls_spec limits _ hcache rfl
    rw [hp.taken] at hmem
    exact (List.mem_filter.mp (List.mem_of_mem_take hmem)).2
  · intro hkeeps
    refine ⟨[entry], [1], ?_⟩
    have hcache : CacheOk resolver (new i numberOfShards (.new [entry])) := new_cacheOk _ _ _
    have hp := polls_spec [1] _ hcache rfl
    have hahead : ahead resolver (new i numberOfShards (.new [entry])) = [entry] :=
      List.filter_eq_self.mpr (List.forall_mem_singleton.mpr hkeeps)
    rw [hp.taken, hahead]
    exact List.mem_singleton_self entry

theorem yields_iff (hentry : isSatelliteOf resolver entry = false) (hn : 2 ≤ numberOfShards) :
    Yields resolver i numberOfShards entry ↔
      computeShardIndex entry.documentKey numberOfShards = i := by
  have hmany : ¬ numberOfShards ≤ 1 := by
    rw [UInt32.le_iff_toNat_le] at hn ⊢
    exact fun hone => absurd (hn.trans hone) (by decide)
  have hsatellite : (resolver entry.collectionName).elim false
      (fun info => isSatellite info.replicationFactor) = false := hentry
  rw [yields_iff_keeps, keeps, hsatellite, if_neg hmany]
  simp

/-- An entry comes from the tailer of the shard that its sharding strategy
computes, for all numbers of shards, exactly when whole key and prefix have
one hash. -/
theorem entry_keeps_its_stream_iff (hentry : isSatelliteOf resolver entry = false)
    {strategy : ByteString → UInt32 → UInt32} (hstrategy : strategy ∈ smartStrategies) :
    (∀ numberOfShards, 2 ≤ numberOfShards → ∀ i,
        (Yields resolver i numberOfShards entry ↔
          i = strategy entry.documentKey numberOfShards)) ↔
      smartSeparator ∉ entry.documentKey ∨
        fnv1a entry.documentKey = fnv1a (extractSmartPrefix entry.documentKey) := by
  constructor
  · intro h
    right
    apply hash_eq_of_mod_eq
    intro n hn
    have hown := (h n hn (strategy entry.documentKey n)).mpr rfl
    rw [yields_iff hentry hn, smartStrategy_eq hstrategy] at hown
    have hnat := congrArg UInt32.toNat hown
    rwa [computeShardIndex_toNat, computeShardIndex_toNat] at hnat
  · intro h n hn i
    rw [yields_iff hentry hn, smartStrategy_eq hstrategy, eq_comm]
    rcases h with hbare | hhash
    · rw [extractSmartPrefix_of_notMem hbare]
    · have hsame : computeShardIndex entry.documentKey n =
          computeShardIndex (extractSmartPrefix entry.documentKey) n := by
        apply UInt32.toNat_inj.mp
        rw [computeShardIndex_toNat, computeShardIndex_toNat, hhash]
      rw [hsame]

def smartEntry (key : ByteString) : WALEntry := ⟨1, 0, lit "users", key, .kInsert, []⟩

theorem bareEntry_keeps_its_stream :
    Yields sampleResolver
      (EnterpriseHexSmartVertexShardingStrategy.getResponsibleShard (lit "alice") 2) 2
      (smartEntry (lit "alice")) := by
  have hentry : isSatelliteOf sampleResolver (smartEntry (lit "alice")) = false := rfl
  have hstrategy : EnterpriseHexSmartVertexShardingStrategy.getResponsibleShard ∈
      smartStrategies := List.mem_cons_of_mem _ List.mem_cons_self
  have hstream := (entry_keeps_its_stream_iff hentry hstrategy).mpr (.inl (by decide))
  exact (hstream 2 (by decide) _).mpr rfl

/-- Vertices of one shard, in the streams of two. -/
theorem smart_entry_leaves_its_stream :
    EnterpriseHexSmartVertexShardingStrategy.getResponsibleShard (lit "eu:a") 2 =
        EnterpriseHexSmartVertexShardingStrategy.getResponsibleShard (lit "eu:b") 2 ∧
      Yields sampleResolver 0 2 (smartEntry (lit "eu:a")) ∧
      Yields sampleResolver 1 2 (smartEntry (lit "eu:b")) := by
  refine ⟨by decide, ?_, ?_⟩
  · rw [yields_iff_keeps]
    decide
  · rw [yields_iff_keeps]
    decide

end OpenArangoDBCore.Replication.ShardWALTailer
