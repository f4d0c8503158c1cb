import OpenArangoDBCore.VocBase.SmartGraphSchema

/-!
# Routing in smart graphs (SmartGraphProvider.cpp, SmartGraphStep.cpp, PathValidatorEE.cpp)

A vertex, the edges that leave it and a step to it go to the same shard. The
check of edges in a disjoint graph accepts more than the check of paths: to it
a key without a `':'` has an empty prefix, to the sharding it is a prefix.
-/

namespace OpenArangoDBCore.Graph
open Sharding VocBase.SmartGraphSchema Delimited

structure VertexRef where
  collection : ByteString
  key : ByteString

structure SmartGraphProvider where
  collectionToShard : UnorderedMap ByteString ByteString
  numberOfShards : UInt32

/-- The name of a shard of the collection. -/
def shardName (collection : ByteString) (shardIndex : UInt32) : ByteString :=
  collection ++ lit "_s" ++ decimal shardIndex.toNat

namespace SmartGraphProvider

def getResponsibleShard (p : SmartGraphProvider) (collection key : ByteString) : ByteString :=
  shardName collection (computeShardIndex (extractSmartPrefix key) p.numberOfShards)

def isResponsible (p : SmartGraphProvider) (vertex : VertexRef) : Bool :=
  match p.collectionToShard.lookup vertex.collection with
  | none => false
  | some shard => shard = p.getResponsibleShard vertex.collection vertex.key

theorem isResponsible_iff (p : SmartGraphProvider) (vertex : VertexRef) :
    p.isResponsible vertex = true ↔
      p.collectionToShard.lookup vertex.collection =
        some (p.getResponsibleShard vertex.collection vertex.key) := by
  unfold isResponsible
  cases p.collectionToShard.lookup vertex.collection with
  | none => exact iff_of_false nofun nofun
  | some shard => simp

end SmartGraphProvider

structure SmartGraphStep where
  vertexId : ByteString

def SmartGraphStep.getSmartPrefix (step : SmartGraphStep) : ByteString :=
  if slash ∈ step.vertexId then extractSmartPrefix (step.vertexId.dropWhile (· ≠ slash)).tail
  else extractSmartPrefix step.vertexId

structure PathValidationResult where
  valid : Bool
  errorMessage : ByteString
  deriving DecidableEq

def checkValidDisjointPath (startVertexKey currentVertexKey : ByteString) (isDisjoint : Bool) :
    PathValidationResult :=
  if isDisjoint = false then ⟨true, []⟩
  else
    let startPrefix := extractSmartPrefix startVertexKey
    let currentPrefix := extractSmartPrefix currentVertexKey
    if startPrefix ≠ currentPrefix then
      ⟨false, lit "Disjoint SmartGraph violation: vertex '" ++ currentVertexKey ++
        lit "' has smart prefix '" ++ currentPrefix ++ lit "' but expected '" ++ startPrefix ++
        lit "'"⟩
    else ⟨true, []⟩

theorem checkValidDisjointPath_valid_iff (startVertexKey currentVertexKey : ByteString) :
    (checkValidDisjointPath startVertexKey currentVertexKey true).valid = true ↔
      extractSmartPrefix startVertexKey = extractSmartPrefix currentVertexKey := by
  unfold checkValidDisjointPath
  rw [if_neg nofun]
  dsimp only
  split
  next hne => exact iff_of_false nofun hne
  next heq => exact iff_of_true rfl (not_not.mp heq)

/-! ### One shard for a smart value -/

/-- `collection/key` -/
def vertexId (collection key : ByteString) : ByteString := collection ++ slash :: key

theorem getSmartPrefix_vertexId {collection : ByteString} (h : slash ∉ collection)
    (key : ByteString) :
    SmartGraphStep.getSmartPrefix ⟨vertexId collection key⟩ = extractSmartPrefix key := by
  unfold SmartGraphStep.getSmartPrefix vertexId
  rw [if_pos (by simp), dropWhile_delimited h, List.tail_cons]

/-- A vertex with this smart value: its key was built from it, or it passes
the check of documents. -/
inductive HasSmartValue (smartValue : ByteString) : ByteString → Prop where
  | built (localKey : ByteString) : HasSmartValue smartValue (buildSmartKey smartValue localKey)
  | validated {key smartAttributeName : ByteString}
      (h : (validateDocument key smartValue smartAttributeName).ok = true) :
      HasSmartValue smartValue key

theorem HasSmartValue.same_start {smartValue key : ByteString} (h : HasSmartValue smartValue key) :
    extractSmartPrefix key = extractSmartPrefix smartValue := by
  cases h with
  | built localKey => exact extractSmartPrefix_append smartValue localKey
  | validated h =>
    obtain ⟨-, hmem, hvalue⟩ := (validateDocument_ok_iff _ _ _).mp h
    rw [extractSmartValue, if_pos hmem] at hvalue
    have hplain : smartSeparator ∉ smartValue := by
      intro hsep
      rw [← hvalue] at hsep
      simpa using List.mem_takeWhile_imp hsep
    rw [extractSmartPrefix_of_notMem hplain, extractSmartPrefix, if_pos hmem, hvalue]

theorem smartEdgeKey_starts (fromSmart toSmart edgeKey : ByteString) :
    extractSmartPrefix (buildSmartEdgeKey fromSmart toSmart edgeKey) =
      extractSmartPrefix fromSmart :=
  extractSmartPrefix_append fromSmart _

/-- The shard of a smart value is the one of all its vertices and of the edges
that leave them; the provider of a collection finds it, too, and a step has
the prefix that the sharding sees. -/
theorem smart_routing_agrees (smartValue : ByteString) (numberOfShards : UInt32)
    (hn : 1 ≤ numberOfShards) :
    ∃ shard < numberOfShards,
      (∀ key, HasSmartValue smartValue key →
        EnterpriseHexSmartVertexShardingStrategy.getResponsibleShard key numberOfShards = shard) ∧
      (∀ toSmart edgeKey,
        EnterpriseHashSmartEdgeShardingStrategy.getResponsibleShard
          (buildSmartEdgeKey smartValue toSmart edgeKey) numberOfShards = shard ∧
        EnterpriseSmartEdgeCompatShardingStrategy.getResponsibleShard
          (buildSmartEdgeKey smartValue toSmart edgeKey) numberOfShards = shard) ∧
      ∀ collection, slash ∉ collection →
        (∀ key, SmartGraphStep.getSmartPrefix ⟨vertexId collection key⟩ =
          extractSmartPrefix key) ∧
        ∀ key collectionToShard, HasSmartValue smartValue key →
          SmartGraphProvider.getResponsibleShard ⟨collectionToShard, numberOfShards⟩
            collection key = shardName collection shard ∧
          (SmartGraphProvider.isResponsible ⟨collectionToShard, numberOfShards⟩
              ⟨collection, key⟩ = true ↔
            collectionToShard.lookup collection = some (shardName collection shard)) := by
  refine ⟨computeShardIndex (extractSmartPrefix smartValue) numberOfShards,
    computeShardIndex_lt _ hn, ?_, ?_, ?_⟩
  · intro key hkey
    rw [EnterpriseHexSmartVertexShardingStrategy.getResponsibleShard, hkey.same_start]
  · intro toSmart edgeKey
    unfold EnterpriseHashSmartEdgeShardingStrategy.getResponsibleShard
      EnterpriseSmartEdgeCompatShardingStrategy.getResponsibleShard
    rw [smartEdgeKey_starts]
    exact ⟨rfl, rfl⟩
  · intro collection hcollection
    refine ⟨getSmartPrefix_vertexId hcollection, ?_⟩
    intro key collectionToShard hkey
    have hshard : SmartGraphProvider.getResponsibleShard ⟨collectionToShard, numberOfShards⟩
        collection key =
        shardName collection (computeShardIndex (extractSmartPrefix smartValue) numberOfShards) :=
      by rw [SmartGraphProvider.getResponsibleShard, hkey.same_start]
    refine ⟨hshard, ?_⟩
    rw [SmartGraphProvider.isResponsible_iff]
    dsimp only
    rw [hshard]

theorem smart_routing_agrees_colon :
    1 ≤ (4 : UInt32) ∧ ∃ shard < 4,
      EnterpriseHexSmartVertexShardingStrategy.getResponsibleShard (lit "e:u:alice") 4 = shard ∧
      EnterpriseHashSmartEdgeShardingStrategy.getResponsibleShard (lit "e:u:us:knows") 4 = shard ∧
      SmartGraphStep.getSmartPrefix ⟨lit "users/e:u:alice"⟩ = extractSmartPrefix (lit "e:u:alice") ∧
      SmartGraphProvider.getResponsibleShard ⟨∅, 4⟩ (lit "users") (lit "e:u:alice") =
        shardName (lit "users") shard := by
  obtain ⟨shard, hlt, hvertex, hedge, hcollection⟩ :=
    smart_routing_agrees (lit "e:u") 4 (by decide)
  have hkey : HasSmartValue (lit "e:u") (lit "e:u:alice") := .built (lit "alice")
  obtain ⟨hstep, hprovider⟩ := hcollection (lit "users") (by decide)
  exact ⟨by decide, shard, hlt, hvertex _ hkey, (hedge (lit "us") (lit "knows")).1, hstep _,
    (hprovider _ ∅ hkey).1⟩

/-! ### Edges of a disjoint graph -/

/-- Where the sharding, the provider and the check of paths see one partition. -/
structure Colocated (fromVertex toVertex : ByteString) : Prop where
  shard : ∀ numberOfShards, 1 ≤ numberOfShards →
    EnterpriseHexSmartVertexShardingStrategy.getResponsibleShard fromVertex numberOfShards =
      EnterpriseHexSmartVertexShardingStrategy.getResponsibleShard toVertex numberOfShards
  provider : ∀ (p : SmartGraphProvider) (collection : ByteString), 1 ≤ p.numberOfShards →
    p.getResponsibleShard collection fromVertex = p.getResponsibleShard collection toVertex
  path : (checkValidDisjointPath fromVertex toVertex true).valid = true

theorem colocated_iff (fromVertex toVertex : ByteString) : Colocated fromVertex toVertex ↔
    extractSmartPrefix fromVertex = extractSmartPrefix toVertex := by
  constructor
  · exact fun h => (checkValidDisjointPath_valid_iff _ _).mp h.path
  · intro h
    refine ⟨?_, ?_, (checkValidDisjointPath_valid_iff _ _).mpr h⟩
    · intro n _
      rw [EnterpriseHexSmartVertexShardingStrategy.getResponsibleShard, h]
      rfl
    · intro p collection _
      rw [SmartGraphProvider.getResponsibleShard, h]
      rfl

/-- A key that the sharding takes for a prefix beside one of an empty smart value. -/
def BareBeside (key other : ByteString) : Prop :=
  key ≠ [] ∧ smartSeparator ∉ key ∧ extractSmartValue other = []

instance (key other : ByteString) : Decidable (BareBeside key other) :=
  inferInstanceAs (Decidable (_ ∧ _))

theorem prefix_of_bareBeside {key other : ByteString} (h : BareBeside key other)
    (heq : extractSmartPrefix key = extractSmartPrefix other) : key = other := by
  obtain ⟨hne, hbare, hother⟩ := h
  rw [extractSmartPrefix_of_notMem hbare] at heq
  by_cases hsep : smartSeparator ∈ other
  · rw [← extractSmartValue_of_mem hsep, hother] at heq
    exact absurd heq hne
  · rwa [extractSmartPrefix_of_notMem hsep] at heq

theorem prefix_of_not_bareBeside {key other : ByteString} (h : ¬ BareBeside key other)
    (heq : extractSmartValue key = extractSmartValue other) :
    extractSmartPrefix key = extractSmartValue key := by
  by_cases hsep : smartSeparator ∈ key
  · exact (extractSmartValue_of_mem hsep).symm
  · rw [extractSmartValue_of_notMem hsep] at heq ⊢
    rw [extractSmartPrefix_of_notMem hsep]
    by_contra hne
    exact h ⟨hne, hsep, heq.symm⟩

theorem values_give_prefixes_iff (key other : ByteString) :
    (extractSmartValue key = extractSmartValue other →
        extractSmartPrefix key = extractSmartPrefix other) ↔
      key = other ∨ ¬ BareBeside key other ∧ ¬ BareBeside other key := by
  constructor
  · intro h
    by_contra hno
    obtain ⟨hne, hbare⟩ := not_or.mp hno
    rcases not_and_or.mp hbare with hkey | hother
    · have hb := not_not.mp hkey
      have hvalue := (extractSmartValue_of_notMem hb.2.1).trans hb.2.2.symm
      exact hne (prefix_of_bareBeside hb (h hvalue))
    · have hb := not_not.mp hother
      have hvalue := hb.2.2.trans (extractSmartValue_of_notMem hb.2.1).symm
      exact hne (prefix_of_bareBeside hb (h hvalue).symm).symm
  · rintro (rfl | ⟨hkey, hother⟩) heq
    · rfl
    · rw [prefix_of_not_bareBeside hkey heq, prefix_of_not_bareBeside hother heq.symm, heq]

/-- The check of edges keeps the ends together unless one of them is a key
without a `':'` and the other is a different one without a smart value. -/
theorem accepted_edge_is_colocated_iff (satelliteCollections : Finset ByteString)
    (fromKey toKey : ByteString) (hfrom : isSatelliteSide satelliteCollections fromKey = false)
    (hto : isSatelliteSide satelliteCollections toKey = false) :
    ((validateEdge fromKey toKey true satelliteCollections).ok = true →
        Colocated (keyPart fromKey) (keyPart toKey)) ↔
      keyPart fromKey = keyPart toKey ∨ ¬ BareBeside (keyPart fromKey) (keyPart toKey) ∧
        ¬ BareBeside (keyPart toKey) (keyPart fromKey) := by
  rw [validateEdge_ok_iff hfrom hto, colocated_iff, values_give_prefixes_iff]

theorem accepted_edge_is_colocated_eu :
    Colocated (lit "eu:alice") (lit "eu:bob") := by
  have h := (accepted_edge_is_colocated_iff {lit "countries"} (lit "users/eu:alice")
    (lit "users/eu:bob") (by decide) (by decide)).mpr (.inr (by decide))
  exact h (by decide)

/-- Two keys without a `':'`: no smart prefixes to compare, but two shards. -/
theorem bare_keys_pass_edge_check :
    (validateEdge (lit "users/alice") (lit "users/bob") true ∅).ok = true ∧
      EnterpriseHexSmartVertexShardingStrategy.getResponsibleShard (lit "alice") 2 ≠
        EnterpriseHexSmartVertexShardingStrategy.getResponsibleShard (lit "bob") 2 ∧
      (checkValidDisjointPath (lit "alice") (lit "bob") true).valid = false := by
  decide

end OpenArangoDBCore.Graph
