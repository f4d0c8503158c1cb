import OpenArangoDBCore.Graph.SmartGraphRouting

/-!
# Traversals of disjoint graphs (PathValidatorEE.cpp, SatelliteDistribution.cpp:58-77)

Documents are checked one by one, and edges end by end; a traversal goes from
edge to edge. Between vertices of one smart value it can go on, wherever it
goes, until it comes over an edge between a smart collection and a satellite.
-/

namespace OpenArangoDBCore.Cluster
open VocBase.SmartGraphSchema

/-- The names that are registered and not unregistered. -/
abbrev SatelliteCollectionRegistry := Finset ByteString

namespace SatelliteDistribution

def extractCollectionName (documentId : ByteString) : ByteString :=
  if slash ∈ documentId then documentId.takeWhile (· ≠ slash) else documentId

def isSmartToSatEdge (fromCollection toCollection : ByteString)
    (registry : SatelliteCollectionRegistry) : Bool :=
  let fromIsSatellite := decide (fromCollection ∈ registry)
  let toIsSatellite := decide (toCollection ∈ registry)
  fromIsSatellite != toIsSatellite

end SatelliteDistribution

end OpenArangoDBCore.Cluster

namespace OpenArangoDBCore.Graph
open Sharding VocBase.SmartGraphSchema Delimited Cluster SatelliteDistribution

def VertexRef.id (v : VertexRef) : ByteString := vertexId v.collection v.key

structure EdgeRef where
  collection : ByteString
  key : ByteString
  fromId : ByteString
  toId : ByteString

def SmartGraphProvider.startVertex (p : SmartGraphProvider) (vertex : VertexRef) : Bool :=
  p.isResponsible vertex

/-- The vertices outside the satellites have passed the check of documents. -/
structure SmartGraph where
  satellites : SatelliteCollectionRegistry
  vertices : List VertexRef
  edges : List EdgeRef
  named : ∀ v ∈ vertices, v.collection ≠ [] ∧ slash ∉ v.collection
  checked : ∀ v ∈ vertices, v.collection ∉ satellites →
    ∃ smartValue smartAttributeName,
      (validateDocument v.key smartValue smartAttributeName).ok = true
  ends : ∀ e ∈ edges, ∃ v ∈ vertices, ∃ w ∈ vertices, e.fromId = v.id ∧ e.toId = w.id

/-- In the direction of the edge or against it. -/
def EdgeRef.Joins (e : EdgeRef) (v w : VertexRef) : Prop :=
  (e.fromId = v.id ∧ e.toId = w.id) ∨ (e.fromId = w.id ∧ e.toId = v.id)

namespace SmartGraph

def isSmart (g : SmartGraph) (v : VertexRef) : Prop := v ∈ g.vertices ∧ v.collection ∉ g.satellites

def crossesToSatellite (g : SmartGraph) (e : EdgeRef) : Bool :=
  isSmartToSatEdge (extractCollectionName e.fromId) (extractCollectionName e.toId) g.satellites

/-- The steps of a traversal, each an edge and the vertex it leads to. -/
inductive Traverses (g : SmartGraph) : VertexRef → List (EdgeRef × VertexRef) → Prop
  | nil (v : VertexRef) : Traverses g v []
  | cons {v w : VertexRef} {e : EdgeRef} {steps : List (EdgeRef × VertexRef)} (he : e ∈ g.edges)
      (hw : w ∈ g.vertices) (hjoins : e.Joins v w) (h : Traverses g w steps) :
      Traverses g v ((e, w) :: steps)

/-- What the check of edges in a disjoint graph lets in. -/
def EdgesAccepted (g : SmartGraph) : Prop :=
  ∀ e ∈ g.edges, (validateEdge e.fromId e.toId true g.satellites).ok = true

end SmartGraph

/-! ### One step -/

section Steps
variable {g : SmartGraph} {v w : VertexRef} {e : EdgeRef}

theorem extractCollectionName_id (h : slash ∉ v.collection) :
    extractCollectionName v.id = v.collection := by
  unfold extractCollectionName VertexRef.id vertexId
  rw [if_pos (by simp), takeWhile_delimited h]

theorem parseCollectionName_id (h : slash ∉ v.collection) :
    parseCollectionName v.id = v.collection := by
  unfold parseCollectionName VertexRef.id vertexId
  rw [if_pos (by simp), takeWhile_delimited h]

theorem keyPart_id (h : slash ∉ v.collection) : keyPart v.id = v.key := by
  unfold keyPart VertexRef.id vertexId
  rw [if_pos (by simp), dropWhile_delimited h, List.tail_cons]

theorem SmartGraph.isSatelliteSide_iff (g : SmartGraph) (hv : v ∈ g.vertices) :
    isSatelliteSide g.satellites v.id = true ↔ v.collection ∈ g.satellites := by
  obtain ⟨hne, hslash⟩ := g.named v hv
  unfold isSatelliteSide
  rw [parseCollectionName_id hslash, decide_eq_true_eq]
  exact and_iff_right hne

/-- To a vertex that was checked the smart value and the prefix are one thing. -/
theorem SmartGraph.isSmart.value (h : g.isSmart v) :
    extractSmartValue v.key = extractSmartPrefix v.key := by
  obtain ⟨smartValue, name, hok⟩ := g.checked v h.1 h.2
  exact extractSmartValue_of_mem ((validateDocument_ok_iff _ _ _).mp hok).2.1

theorem validateEdge_smart_iff (hv : g.isSmart v) (hw : g.isSmart w) :
    (validateEdge v.id w.id true g.satellites).ok = true ↔
      extractSmartPrefix v.key = extractSmartPrefix w.key := by
  have hside : ∀ {u : VertexRef}, g.isSmart u → isSatelliteSide g.satellites u.id = false := by
    intro u hu
    rw [← Bool.not_eq_true, g.isSatelliteSide_iff hu.1]
    exact hu.2
  rw [validateEdge_ok_iff (hside hv) (hside hw), keyPart_id (g.named v hv.1).2,
    keyPart_id (g.named w hw.1).2, hv.value, hw.value]

theorem crosses_iff (hv : v ∈ g.vertices) (hw : w ∈ g.vertices) (hjoins : e.Joins v w) :
    g.crossesToSatellite e = false ↔
      (v.collection ∈ g.satellites ↔ w.collection ∈ g.satellites) := by
  have hnamev := extractCollectionName_id (g.named v hv).2
  have hnamew := extractCollectionName_id (g.named w hw).2
  unfold SmartGraph.crossesToSatellite isSmartToSatEdge
  rcases hjoins with ⟨hfrom, hto⟩ | ⟨hfrom, hto⟩
  · rw [hfrom, hto, hnamev, hnamew, bne_eq_false_iff_eq, decide_eq_decide]
  · rw [hfrom, hto, hnamev, hnamew, bne_eq_false_iff_eq, decide_eq_decide]
    exact Iff.comm

theorem step_keeps_smart_value (hedges : g.EdgesAccepted) (hv : g.isSmart v) (hw : w ∈ g.vertices)
    (he : e ∈ g.edges) (hjoins : e.Joins v w) (hstays : g.crossesToSatellite e = false) :
    g.isSmart w ∧ extractSmartPrefix v.key = extractSmartPrefix w.key := by
  have hsmart : g.isSmart w := by
    refine ⟨hw, ?_⟩
    rw [← (crosses_iff hv.1 hw hjoins).mp hstays]
    exact hv.2
  have hok := hedges e he
  refine ⟨hsmart, ?_⟩
  rcases hjoins with ⟨hfrom, hto⟩ | ⟨hfrom, hto⟩
  · rw [hfrom, hto, validateEdge_smart_iff hv hsmart] at hok
    exact hok
  · rw [hfrom, hto, validateEdge_smart_iff hsmart hv] at hok
    exact hok.symm

end Steps

/-! ### Whole traversals -/

section Traversals
variable {g : SmartGraph} {v : VertexRef} {steps : List (EdgeRef × VertexRef)}

theorem traversal_keeps_smart_value (hedges : g.EdgesAccepted) (h : g.Traverses v steps)
    (hv : g.isSmart v) (hstays : ∀ s ∈ steps, g.crossesToSatellite s.1 = false) :
    ∀ s ∈ steps, g.isSmart s.2 ∧ extractSmartPrefix v.key = extractSmartPrefix s.2.key := by
  induction h with
  | nil v => exact nofun
  | @cons v w e steps he hw hjoins _ ih =>
    obtain ⟨hfirst, hrest⟩ := List.forall_mem_cons.mp hstays
    obtain ⟨hsmart, hprefix⟩ := step_keeps_smart_value hedges hv hw he hjoins hfirst
    rw [List.forall_mem_cons]
    refine ⟨⟨hsmart, hprefix⟩, ?_⟩
    intro s hs
    obtain ⟨hlater, hsame⟩ := ih hsmart hrest s hs
    exact ⟨hlater, hprefix.trans hsame⟩

/-- The check of the single edges is what traversals need: exactly if every
edge passes it, all that a traversal reaches from a smart vertex, until it
comes over an edge to or from a satellite, lies with its start, for the
sharding, the provider and the check of paths. -/
theorem disjoint_traversals_iff (g : SmartGraph) :
    g.EdgesAccepted ↔ ∀ v steps, g.Traverses v steps → g.isSmart v →
      (∀ s ∈ steps, g.crossesToSatellite s.1 = false) → ∀ s ∈ steps, Colocated v.key s.2.key := by
  constructor
  · intro hedges v steps h hv hstays s hs
    exact (colocated_iff _ _).mpr (traversal_keeps_smart_value hedges h hv hstays s hs).2
  · intro h e he
    obtain ⟨v, hv, w, hw, hfrom, hto⟩ := g.ends e he
    have hjoins : e.Joins v w := .inl ⟨hfrom, hto⟩
    rw [hfrom, hto]
    by_cases hsat : v.collection ∈ g.satellites ∨ w.collection ∈ g.satellites
    · rw [← g.isSatelliteSide_iff hv, ← g.isSatelliteSide_iff hw] at hsat
      unfold validateEdge
      rw [if_neg nofun, if_pos hsat]
      rfl
    · obtain ⟨hvsmart, hwsmart⟩ := not_or.mp hsat
      have hstays : g.crossesToSatellite e = false :=
        (crosses_iff hv hw hjoins).mpr (iff_of_false hvsmart hwsmart)
      rw [validateEdge_smart_iff ⟨hv, hvsmart⟩ ⟨hw, hwsmart⟩, ← colocated_iff]
      exact h v [(e, w)] (.cons he hw hjoins (.nil w)) ⟨hv, hvsmart⟩
        (List.forall_mem_singleton.mpr hstays) (e, w) (List.mem_singleton_self _)

end Traversals

/-! ### Local traversals -/

section Local
variable {g : SmartGraph} {p : SmartGraphProvider}

/-- The server has the same part of every smart collection. -/
def HoldsPart (g : SmartGraph) (p : SmartGraphProvider) (shardIndex : UInt32) : Prop :=
  ∀ v, g.isSmart v →
    p.collectionToShard.lookup v.collection = some (shardName v.collection shardIndex)

theorem shardName_injective (collection : ByteString) {i j : UInt32}
    (h : shardName collection i = shardName collection j) : i = j :=
  UInt32.toNat_inj.mp (decimal_injective (List.append_cancel_left h))

theorem responsible_iff {shardIndex : UInt32} (hpart : HoldsPart g p shardIndex) {v : VertexRef}
    (hv : g.isSmart v) : p.isResponsible v = true ↔
      computeShardIndex (extractSmartPrefix v.key) p.numberOfShards = shardIndex := by
  rw [p.isResponsible_iff, hpart v hv, Option.some.injEq, SmartGraphProvider.getResponsibleShard]
  constructor
  · intro h
    exact (shardName_injective v.collection h).symm
  · rintro rfl
    rfl

/-- A server that has the start of a traversal has all it reaches, until it
comes over an edge to or from a satellite; one that has not, nothing. -/
theorem traversal_stays_local (g : SmartGraph) (hedges : g.EdgesAccepted) (p : SmartGraphProvider)
    (shardIndex : UInt32) (hpart : HoldsPart g p shardIndex) (v : VertexRef) (hv : g.isSmart v)
    (steps : List (EdgeRef × VertexRef)) (h : g.Traverses v steps)
    (hstays : ∀ s ∈ steps, g.crossesToSatellite s.1 = false) :
    ∀ s ∈ steps, p.isResponsible s.2 = p.startVertex v := by
  intro s hs
  obtain ⟨hsmart, hprefix⟩ := traversal_keeps_smart_value hedges h hv hstays s hs
  rw [Bool.eq_iff_iff, SmartGraphProvider.startVertex, responsible_iff hpart hsmart,
    responsible_iff hpart hv, hprefix]

end Local

/-! ### Two users and their country -/

def alice : VertexRef := ⟨lit "users", lit "eu:alice"⟩
def bob : VertexRef := ⟨lit "users", lit "eu:bob"⟩
def france : VertexRef := ⟨lit "countries", lit "fr"⟩

def knows : EdgeRef := ⟨lit "knows", lit "eu:eu:1", alice.id, bob.id⟩
def livesIn : EdgeRef := ⟨lit "livesIn", lit "eu:2", bob.id, france.id⟩

def sampleGraph : SmartGraph where
  satellites := {lit "countries"}
  vertices := [alice, bob, france]
  edges := [knows, livesIn]
  named := by simp only [List.forall_mem_cons]; decide
  checked := by
    simp only [List.forall_mem_cons]
    refine ⟨fun _ => ⟨lit "eu", lit "region", by decide⟩, fun _ => ⟨lit "eu", lit "region",
      by decide⟩, fun h => absurd (by decide) h, nofun⟩
  ends := by
    simp only [List.forall_mem_cons]
    exact ⟨⟨alice, by simp, bob, by simp, rfl, rfl⟩, ⟨bob, by simp, france, by simp, rfl, rfl⟩,
      nofun⟩

def sampleProvider : SmartGraphProvider :=
  ⟨(∅ : UnorderedMap ByteString ByteString).insert (lit "users")
    (shardName (lit "users") (computeShardIndex (lit "eu") 4)), 4⟩

theorem sampleProvider_holdsPart :
    HoldsPart sampleGraph sampleProvider (computeShardIndex (lit "eu") 4) := by
  rintro v ⟨hmem, hsmart⟩
  have hcollection : v.collection = lit "users" := by
    rcases List.mem_cons.mp hmem with rfl | hmem
    · rfl
    rcases List.mem_cons.mp hmem with rfl | hmem
    · rfl
    · rw [List.mem_singleton.mp hmem] at hsmart
      exact absurd (by decide) hsmart
  rw [hcollection]
  exact AList.lookup_insert _

theorem bob_is_local : sampleProvider.isResponsible bob = true := by
  have hedges : sampleGraph.EdgesAccepted := by
    unfold SmartGraph.EdgesAccepted sampleGraph
    decide
  have hpath : sampleGraph.Traverses alice [(knows, bob)] :=
    .cons (by simp [sampleGraph]) (by simp [sampleGraph]) (.inl ⟨rfl, rfl⟩) (.nil bob)
  have hstart : sampleGraph.isSmart alice := ⟨by simp [sampleGraph], by decide⟩
  have hlocal := traversal_stays_local sampleGraph hedges sampleProvider _ sampleProvider_holdsPart
    alice hstart [(knows, bob)] hpath (by decide) (knows, bob) (List.mem_singleton_self _)
  exact hlocal.trans (by decide)

end OpenArangoDBCore.Graph
