import OpenArangoDBCore.Lib.Tickets
import OpenArangoDBCore.Replication.ApplierConvergence
import OpenArangoDBCore.Replication.TailLoopConservation

/-!
# From the tail loops of one cluster to the applier of another

The batches handed to `onBatchReady` reach the target as messages with the
shard id and the sequence number of the batch; how the entries of a batch are
put into a payload is left to the transport. Messages are delivered in any
order, any number of times, or not at all.
-/

namespace OpenArangoDBCore.Replication

/-- What the transport keeps of a batch. -/
structure Transport where
  message : MessageBatch → ApplyMessage
  shardId : ∀ batch, (message batch).shardId = batch.shardId
  sequence : ∀ batch, (message batch).sequence = batch.sequenceNumber

/-- What the write callback of the target gets for a batch. -/
def Transport.writeArgs (transport : Transport) (batch : MessageBatch) : WriteArgs :=
  (transport.message batch).writeArgs

def MessageBatch.number (b : MessageBatch) : ℕ := b.sequenceNumber.toNat

namespace DC2DCReplicator
open Interleaving Tickets Frontier ReplicationApplier

def batchesOf (shardId : ByteString) (handed : List MessageBatch) : List MessageBatch :=
  handed.filter fun b => b.shardId = shardId

theorem mem_batchesOf {shardId : ByteString} {handed : List MessageBatch} {b : MessageBatch} :
    b ∈ batchesOf shardId handed ↔ b ∈ handed ∧ b.shardId = shardId := by
  unfold batchesOf
  rw [List.mem_filter, decide_eq_true_eq]

section Loops
variable {ω : Type} {iteratorFactory : UInt32 → List WALEntry}
  {resolver : CollectionInfoResolver} {batchSize numberOfShards : UInt32}

/-! ### Who has drawn which number -/

/-- The numbers of a shard, handed over or in flight, are the tickets its loop
has drawn. -/
structure DrawInv (iteratorFactory : UInt32 → List WALEntry) (resolver : CollectionInfoResolver)
    (batchSize numberOfShards : UInt32) (draws : List (Fin numberOfShards.toNat))
    (c : Wire numberOfShards) : Prop where
  sizes : c.shared.batchSize = batchSize ∧ c.shared.numberOfShards = numberOfShards
  owner : c.control none = .owner
  loops : ∀ i : Fin numberOfShards.toNat,
    LoopOf iteratorFactory resolver batchSize numberOfShards (UInt32.ofNat i) (c.control (some i))
  counter : c.shared.counter = UInt64.ofNat draws.length
  numbers : ∀ i : Fin numberOfShards.toNat,
    numbersOf (shardIdOf (UInt32.ofNat i)) c.shared.handed ++ inFlight (c.control (some i)) =
      (tickets i draws).map UInt64.ofNat
  shards : ∀ batch ∈ c.shared.handed, ∃ i : Fin numberOfShards.toNat,
    batch.shardId = shardIdOf (UInt32.ofNat i)

theorem drawInv_start : DrawInv iteratorFactory resolver batchSize numberOfShards []
    (start batchSize numberOfShards) :=
  ⟨⟨rfl, rfl⟩, rfl, fun _ => rfl, rfl, fun _ => rfl, fun _ hb => nomatch hb⟩

theorem numbersOf_snoc (shardId : ByteString) (handed : List MessageBatch) (batch : MessageBatch) :
    numbersOf shardId (handed ++ [batch]) = numbersOf shardId handed ++
      if batch.shardId = shardId then [batch.sequenceNumber] else [] := by
  unfold numbersOf
  rw [List.filter_append, List.map_append, List.filter_singleton]
  congr 1
  by_cases h : batch.shardId = shardId
  · simp [h]
  · simp [h]

section Step
variable {draws : List (Fin numberOfShards.toNat)} {c : Wire numberOfShards}
  {k : Option (Fin numberOfShards.toNat)} {r' : DC2DCReplicator} {l' : Control}

theorem DrawInv.thread_of_handing
    (h : DrawInv iteratorFactory resolver batchSize numberOfShards draws c) {batch : MessageBatch}
    {t : ShardWALTailer} {b : MessageBatcher} {a : After}
    (hk : c.control k = .handing batch t b a) :
    ∃ i, k = some i ∧ batch.shardId = shardIdOf (UInt32.ofNat i) := by
  cases k with
  | none =>
    rw [h.owner] at hk
    cases hk
  | some i =>
    have hl := h.loops i
    rw [hk] at hl
    exact ⟨i, rfl, hl.2.2.2⟩

theorem DrawInv.thread_of_sealing
    (h : DrawInv iteratorFactory resolver batchSize numberOfShards draws c)
    {t : ShardWALTailer} {b : MessageBatcher} {a : After}
    (hk : c.control k = .sealing t b a) : ∃ i, k = some i := by
  cases k with
  | none =>
    rw [h.owner] at hk
    cases hk
  | some i => exact ⟨i, rfl⟩

theorem DrawInv.numbers_step
    (h : DrawInv iteratorFactory resolver batchSize numberOfShards draws c)
    (heff : Effect c.shared (c.control k) r' l') :
    ∃ draws', draws'.length ≤ draws.length + 1 ∧ r'.counter = UInt64.ofNat draws'.length ∧
      (∀ i : Fin numberOfShards.toNat, numbersOf (shardIdOf (UInt32.ofNat i)) r'.handed ++
        inFlight (Function.update c.control k l' (some i)) =
          (tickets i draws').map UInt64.ofNat) ∧
      ∀ batch ∈ r'.handed, ∃ i : Fin numberOfShards.toNat,
        batch.shardId = shardIdOf (UInt32.ofNat i) := by
  cases heff with
  | quiet before after counter handed =>
    refine ⟨draws, Nat.le_succ _, counter.trans h.counter, ?_, handed ▸ h.shards⟩
    intro i
    have hkeep : inFlight (Function.update c.control k l' (some i)) =
        inFlight (c.control (some i)) := by
      by_cases hk : some i = k
      · subst hk
        rw [Function.update_self, after, before]
      · rw [Function.update_of_ne hk]
    rw [handed, hkeep]
    exact h.numbers i
  | drawn t b a before after counter handed =>
    obtain ⟨j, rfl⟩ := h.thread_of_sealing before
    refine ⟨draws ++ [j], ?_, ?_, ?_, handed ▸ h.shards⟩
    · rw [List.length_append, List.length_singleton]
    · rw [counter, h.counter, List.length_append, List.length_singleton]
      exact (UInt64.ofNat_add _ 1).symm
    · intro i
      have hnumbers := h.numbers i
      by_cases hi : i = j
      · subst hi
        rw [before, show inFlight (.sealing t b a) = [] from rfl, List.append_nil] at hnumbers
        rw [Function.update_self, after, handed, hnumbers, tickets_draw, List.map_append,
          h.counter, List.map_singleton, UInt64.ofNat_add]
        rfl
      · have hne : some i ≠ some j := fun heq => hi (Option.some.inj heq)
        rw [Function.update_of_ne hne, handed, tickets_draw_other (Ne.symm hi)]
        exact hnumbers
  | handed batch t b a before after counter handed =>
    obtain ⟨j, rfl, hshard⟩ := h.thread_of_handing before
    refine ⟨draws, Nat.le_succ _, counter.trans h.counter, ?_, ?_⟩
    · intro i
      have hnumbers := h.numbers i
      rw [handed, numbersOf_snoc, hshard]
      by_cases hi : i = j
      · subst hi
        rw [before] at hnumbers
        rw [if_pos rfl, Function.update_self, after, List.append_nil]
        exact hnumbers
      · have hne : some i ≠ some j := fun heq => hi (Option.some.inj heq)
        rw [if_neg (fun heq => hi (shardIdOf_injective heq).symm), List.append_nil,
          Function.update_of_ne hne]
        exact hnumbers
    · intro batch' hb'
      rw [handed] at hb'
      cases List.mem_append.mp hb' with
      | inl hold => exact h.shards batch' hold
      | inr hnew =>
        rw [List.mem_singleton.mp hnew]
        exact ⟨j, hshard⟩

end Step

theorem drawInv_step {draws : List (Fin numberOfShards.toNat)} {c c' : Wire numberOfShards}
    {x : Option (Fin numberOfShards.toNat) × Event}
    (h : DrawInv iteratorFactory resolver batchSize numberOfShards draws c)
    (hf : fire (shardTailLoop iteratorFactory resolver) c x = some c') :
    ∃ draws', draws'.length ≤ draws.length + 1 ∧
      DrawInv iteratorFactory resolver batchSize numberOfShards draws' c' := by
  obtain ⟨k, e⟩ := x
  obtain ⟨r', l', hp, rfl⟩ := fire_inv hf
  obtain ⟨⟨hbs, hns, howner⟩, heff⟩ := step_effect hp
  obtain ⟨draws', hlen, hcounter, hnumbers, hshards⟩ := h.numbers_step heff
  refine ⟨draws', hlen, ⟨hbs.trans h.sizes.1, hns.trans h.sizes.2⟩, ?_, ?_, hcounter, hnumbers,
    hshards⟩
  · cases k with
    | none => simpa using howner h.owner
    | some i => simpa using h.owner
  · intro j
    by_cases hj : some j = k
    · subst hj
      simpa using loopOf_step h.sizes.1 h.sizes.2 (h.loops j) hp
    · simpa [Function.update_of_ne hj] using h.loops j

theorem drawInv_run {tr : List (Option (Fin numberOfShards.toNat) × Event)}
    {c : Wire numberOfShards}
    (h : exec (shardTailLoop iteratorFactory resolver) (start batchSize numberOfShards) tr =
      some c) :
    ∃ draws, draws.length ≤ tr.length ∧
      DrawInv iteratorFactory resolver batchSize numberOfShards draws c := by
  refine exec_invariant (fun past c => ∃ draws, draws.length ≤ past.length ∧
    DrawInv iteratorFactory resolver batchSize numberOfShards draws c) ?_ tr _ c
    ⟨[], le_rfl, drawInv_start⟩ h
  rintro past c x c' ⟨draws, hlen, hI⟩ hf
  obtain ⟨draws', hlen', hI'⟩ := drawInv_step hI hf
  refine ⟨draws', ?_, hI'⟩
  rw [List.length_append, List.length_singleton]
  omega

/-! ### The numbers of the batches -/

section Numbers
variable {draws : List (Fin numberOfShards.toNat)} {c : Wire numberOfShards}

theorem DrawInv.number_prefix
    (h : DrawInv iteratorFactory resolver batchSize numberOfShards draws c)
    (hlen : draws.length < 2 ^ 64) (i : Fin numberOfShards.toNat) :
    (batchesOf (shardIdOf (UInt32.ofNat i)) c.shared.handed).map MessageBatch.number <+:
      tickets i draws := by
  have hback : ((tickets i draws).map UInt64.ofNat).map UInt64.toNat = tickets i draws := by
    rw [List.map_map, List.map_congr_left (g := id), List.map_id]
    intro k hk
    exact UInt64.toNat_ofNat_of_lt' (lt_of_le_of_lt (ticket_le hk).2 hlen)
  refine ⟨(inFlight (c.control (some i))).map UInt64.toNat, ?_⟩
  rw [← hback, ← h.numbers i, List.map_append]
  congr 1
  unfold numbersOf batchesOf
  rw [List.map_map]
  rfl

variable (h : DrawInv iteratorFactory resolver batchSize numberOfShards draws c)
  (hlen : draws.length < 2 ^ 64)
include h hlen

theorem DrawInv.number_increasing (s : ByteString) :
    ((batchesOf s c.shared.handed).map MessageBatch.number).Pairwise (· < ·) ∧
      ∀ k ∈ (batchesOf s c.shared.handed).map MessageBatch.number, 1 ≤ k := by
  by_cases hs : ∃ batch ∈ c.shared.handed, batch.shardId = s
  · obtain ⟨batch, hb, rfl⟩ := hs
    obtain ⟨i, hi⟩ := h.shards batch hb
    have hpre := h.number_prefix hlen i
    rw [hi]
    exact ⟨(tickets_increasing i draws).sublist hpre.sublist,
      fun k hk => (ticket_le (hpre.subset hk)).1⟩
  · have hnone : batchesOf s c.shared.handed = [] := by
      rw [List.eq_nil_iff_forall_not_mem]
      intro batch hb
      exact hs ⟨batch, mem_batchesOf.mp hb⟩
    rw [hnone]
    exact ⟨List.Pairwise.nil, fun k hk => nomatch hk⟩

theorem DrawInv.number_injective {b b' : MessageBatch} (hb : b ∈ c.shared.handed)
    (hb' : b' ∈ c.shared.handed) (heq : b.number = b'.number) : b = b' := by
  obtain ⟨i, hi⟩ := h.shards b hb
  obtain ⟨j, hj⟩ := h.shards b' hb'
  have hmem := mem_batchesOf.mpr ⟨hb, hi⟩
  have hmem' := mem_batchesOf.mpr ⟨hb', hj⟩
  have hown := (h.number_prefix hlen i).subset (List.mem_map_of_mem hmem)
  have hown' := (h.number_prefix hlen j).subset (List.mem_map_of_mem hmem')
  rw [heq] at hown
  have hij := owner_unique hown hown'
  subst hij
  have hnodup := (h.number_increasing hlen (shardIdOf (UInt32.ofNat i))).1.imp
    fun hlt => Nat.ne_of_lt hlt
  exact List.inj_on_of_nodup_map hnodup hmem hmem' heq

end Numbers

/-! ### What the target writes -/

/-- Every message delivered is one of a batch handed over. -/
def SentBy (transport : Transport) (handed : List MessageBatch) (D : List ApplyMessage) : Prop :=
  ∀ m ∈ D, ∃ batch ∈ handed, m = transport.message batch

theorem written_of_batch {transport : Transport} {handed : List MessageBatch}
    {D : List ApplyMessage} (hsent : SentBy transport handed D) {s : ByteString} {k : ℕ}
    {w : WriteArgs} (h : WrittenFrom D s k w) :
    ∃ b ∈ batchesOf s handed, b.number = k ∧ w = transport.writeArgs b := by
  obtain ⟨m, hm, hs, hq, rfl⟩ := h
  obtain ⟨b, hb, rfl⟩ := hsent m hm
  rw [transport.shardId] at hs
  rw [transport.sequence] at hq
  exact ⟨b, mem_batchesOf.mpr ⟨hb, hs⟩, hq, rfl⟩

theorem writes_take {draws : List (Fin numberOfShards.toNat)} {c : Wire numberOfShards}
    (h : DrawInv iteratorFactory resolver batchSize numberOfShards draws c)
    (hlen : draws.length < 2 ^ 64) {transport : Transport} {D : List ApplyMessage}
    (hsent : SentBy transport c.shared.handed D) {s : ByteString} {n : ℕ} {ws : List WriteArgs}
    (hws : List.Forall₂ (WrittenFrom D s) (List.range' 1 n) ws) :
    ws = ((batchesOf s c.shared.handed).take n).map transport.writeArgs := by
  obtain ⟨hinc, hpos⟩ := h.number_increasing hlen s
  exact writes_of_prefix MessageBatch.number transport.writeArgs hinc hpos
    (hws.imp fun _ _ hw => written_of_batch hsent hw)

/-- Whatever is delivered and whatever the write callback does, the target has
written for every shard the first batches of its loop, in their order; and no
more than one shard ever has a batch written, because only one shard gets the
first number of the counter they all draw from. -/
theorem target_writes_first_batches (transport : Transport)
    (iteratorFactory : UInt32 → List WALEntry) (resolver : CollectionInfoResolver)
    (batchSize numberOfShards : UInt32)
    (tr : List (Option (Fin numberOfShards.toNat) × Event)) (hshort : tr.length < 2 ^ 64)
    (c : Wire numberOfShards)
    (h : exec (shardTailLoop iteratorFactory resolver) (start batchSize numberOfShards) tr =
      some c)
    (writeCb : WriteCallback ω) (satelliteCb : SatelliteCheckCallback) (calls : List ApplierCall)
    (env : ω) (hsent : SentBy transport c.shared.handed (delivered calls)) :
    let r := runCalls (logged writeCb) satelliteCb calls new (env, [])
    (∀ s, writesOf s r.2.2 =
      ((batchesOf s c.shared.handed).take (r.1.lastAppliedSequence s).toNat).map
        transport.writeArgs ∧
      (writesOf s r.2.2).length = (r.1.lastAppliedSequence s).toNat) ∧
    ∀ s s', writesOf s r.2.2 ≠ [] → writesOf s' r.2.2 ≠ [] → s = s' := by
  intro r
  obtain ⟨draws, hdraws, hinv⟩ := drawInv_run h
  have hlen := lt_of_le_of_lt hdraws hshort
  have hrun := runCalls_inOrder writeCb satelliteCb calls env
  have hcount : ∀ s, (writesOf s r.2.2).length = (r.1.lastAppliedSequence s).toNat := by
    intro s
    rw [← (hrun.writes s).length_eq, List.length_range']
  refine ⟨fun s => ⟨writes_take hinv hlen hsent (hrun.writes s), hcount s⟩, ?_⟩
  have hfirst : ∀ s, writesOf s r.2.2 ≠ [] →
      ∃ b ∈ c.shared.handed, b.shardId = s ∧ b.number = 1 := by
    intro s hs
    have hpos := List.length_pos_of_ne_nil hs
    rw [hcount s] at hpos
    obtain ⟨m, hm, hms, hmq⟩ := hrun.contiguous s 1 le_rfl hpos
    obtain ⟨b, hb, rfl⟩ := hsent m hm
    exact ⟨b, hb, (transport.shardId b).symm.trans hms,
      (congrArg UInt64.toNat (transport.sequence b)).symm.trans hmq⟩
  intro s s' hs hs'
  obtain ⟨b, hb, rfl, hone⟩ := hfirst s hs
  obtain ⟨b', hb', rfl, hone'⟩ := hfirst s' hs'
  rw [hinv.number_injective hlen hb hb' (hone.trans hone'.symm)]

/- A transport whose payloads are empty. -/
def sampleTransport : Transport :=
  ⟨fun b => ⟨b.shardId, b.sequenceNumber, .insert, [], [], []⟩, fun _ => rfl, fun _ => rfl⟩

/-- Number 2 belongs to the second shard, and the target waits for its number 1. -/
theorem second_shard_never_written :
    ∃ c, exec (shardTailLoop
        (fun _ => [⟨1, 0, lit "c", lit "a", .kInsert, []⟩, ⟨2, 0, lit "c", lit "b", .kInsert, []⟩])
        (fun _ => none)) (start 1 2) oneThenOther = some c ∧
      let r := runCalls (logged fun _ (e : Unit) => (0, e)) (fun _ => false)
        ((c.shared.handed.reverse.map sampleTransport.message).map .applyMessage) new ((), [])
      r.2.2 = [⟨lit "shard_0", .insert, [], []⟩] ∧ writesOf (lit "shard_1") r.2.2 = [] := by
  have hwrites : (exec (shardTailLoop
      (fun _ => [⟨1, 0, lit "c", lit "a", .kInsert, []⟩, ⟨2, 0, lit "c", lit "b", .kInsert, []⟩])
      (fun _ => none)) (start 1 2) oneThenOther).map (fun c =>
        (runCalls (logged fun _ (e : Unit) => (0, e)) (fun _ => false)
          ((c.shared.handed.reverse.map sampleTransport.message).map .applyMessage) new
          ((), [])).2.2) = some [⟨lit "shard_0", .insert, [], []⟩] := by
    decide +kernel
  obtain ⟨c, hc, hfirst⟩ := Option.map_eq_some_iff.mp hwrites
  refine ⟨c, hc, hfirst, ?_⟩
  have hone := (target_writes_first_batches sampleTransport _ _ 1 2 oneThenOther
    (by decide +kernel) c hc (fun _ (e : Unit) => (0, e)) (fun _ => false)
    ((c.shared.handed.reverse.map sampleTransport.message).map .applyMessage) () (by
      rw [delivered_messages]
      intro m hm
      obtain ⟨b, hb, rfl⟩ := List.mem_map.mp hm
      exact ⟨b, List.mem_reverse.mp hb, rfl⟩)).2
  by_contra hne
  refine absurd (hone (lit "shard_0") (lit "shard_1") ?_ hne) (by decide +kernel)
  rw [hfirst]
  decide +kernel

/-! ### One sending shard -/

theorem handed_observed {r r' : DC2DCReplicator} {l l' : Control} {e : Event}
    (hs : shardTailLoop iteratorFactory resolver r l e = some (r', l')) :
    r'.handed = r.handed ++ handedBatches (observe resolver r l e) := by
  unfold shardTailLoop at hs
  split at hs
  next =>
    cases hs
    exact (List.append_nil _).symm
  next =>
    cases hs
    exact (List.append_nil _).symm
  next t b =>
    unfold observe
    split at hs
    next ht =>
      cases hs
      dsimp only
      rw [if_pos ht]
      exact (List.append_nil _).symm
    next ht =>
      cases hs
      dsimp only
      rw [if_neg ht]
      exact (List.append_nil _).symm
  next =>
    cases hs
    exact (List.append_nil _).symm
  next =>
    cases hs
    exact (List.append_nil _).symm
  next =>
    cases hs
    exact (List.append_nil _).symm
  next =>
    cases hs
    rfl
  next => cases hs

theorem handed_of_loop (i : Fin numberOfShards.toNat)
    (tr : List (Option (Fin numberOfShards.toNat) × Event)) (c : Wire numberOfShards)
    (h : exec (shardTailLoop iteratorFactory resolver) (start batchSize numberOfShards) tr =
      some c) :
    batchesOf (shardIdOf (UInt32.ofNat i)) c.shared.handed =
      handedBatches (loopHistory iteratorFactory resolver batchSize numberOfShards i tr) := by
  suffices hI : (∃ draws, DrawInv iteratorFactory resolver batchSize numberOfShards draws c) ∧
      batchesOf (shardIdOf (UInt32.ofNat i)) c.shared.handed =
        handedBatches (loopHistory iteratorFactory resolver batchSize numberOfShards i tr) from hI.2
  unfold loopHistory
  refine observed_invariant (onlyOf (some i) (observe resolver))
    (fun seen c =>
      (∃ draws, DrawInv iteratorFactory resolver batchSize numberOfShards draws c) ∧
        batchesOf (shardIdOf (UInt32.ofNat i)) c.shared.handed = handedBatches seen)
    ?_ tr _ c ⟨⟨[], drawInv_start⟩, rfl⟩ h
  rintro seen c ⟨k, e⟩ c' ⟨⟨draws, hdraws⟩, hbatches⟩ hf
  obtain ⟨draws', -, hdraws'⟩ := drawInv_step hdraws hf
  refine ⟨⟨draws', hdraws'⟩, ?_⟩
  obtain ⟨r', l', hp, rfl⟩ := fire_inv hf
  have hnew := handed_observed hp
  have hof : ∀ b ∈ handedBatches (observe resolver c.shared (c.control k) e),
      b.shardId = shardIdOf (UInt32.ofNat i) ↔ k = some i := by
    intro b hb
    obtain ⟨t, mb, a, hk, rfl⟩ : ∃ t mb a, c.control k = .handing b t mb a ∧ e = .hand := by
      unfold observe at hb
      split at hb
      next =>
        split at hb <;> exact absurd hb List.not_mem_nil
      next => exact absurd hb List.not_mem_nil
      next batch t mb a heq =>
        rw [List.mem_singleton.mp hb]
        exact ⟨t, mb, a, heq, rfl⟩
      next => exact absurd hb List.not_mem_nil
    obtain ⟨j, rfl, hshard⟩ := hdraws.thread_of_handing hk
    rw [hshard, Option.some_inj]
    exact ⟨shardIdOf_injective, fun heq => by rw [heq]⟩
  show batchesOf _ r'.handed = _
  have happ : batchesOf (shardIdOf (UInt32.ofNat i)) r'.handed = handedBatches seen ++
      (handedBatches (observe resolver c.shared (c.control k) e)).filter
        fun b => b.shardId = shardIdOf (UInt32.ofNat i) := by
    rw [hnew, ← hbatches]
    exact List.filter_append ..
  rw [happ, handedBatches_append]
  congr 1
  unfold onlyOf
  by_cases hk : k = some i
  · rw [if_pos hk, List.filter_eq_self]
    intro b hb
    exact decide_eq_true ((hof b hb).mpr hk)
  · rw [if_neg hk, show handedBatches [] = [] from rfl, List.filter_eq_nil_iff]
    intro b hb heq
    exact hk ((hof b hb).mp (of_decide_eq_true heq))

section Complete
variable {transport : Transport} {handed : List MessageBatch} {D : List ApplyMessage}

theorem delivered_numbers (hall : ∀ b ∈ handed, transport.message b ∈ D)
    (hsent : SentBy transport handed D) (s : ByteString) :
    deliveredSeqs D s = {k | k ∈ (batchesOf s handed).map MessageBatch.number} := by
  ext k
  simp only [deliveredSeqs, Set.mem_ofPred_eq, List.mem_map, mem_batchesOf]
  constructor
  · rintro ⟨m, hm, rfl, rfl⟩
    obtain ⟨b, hb, rfl⟩ := hsent m hm
    exact ⟨b, ⟨hb, (transport.shardId b).symm⟩,
      (congrArg UInt64.toNat (transport.sequence b)).symm⟩
  · rintro ⟨b, ⟨hb, rfl⟩, rfl⟩
    exact ⟨_, hall b hb, transport.shardId b, congrArg UInt64.toNat (transport.sequence b)⟩

end Complete

section OneSender
variable {i : Fin numberOfShards.toNat}
  (hone : ∀ j : Fin numberOfShards.toNat,
    MaySend iteratorFactory resolver batchSize numberOfShards (UInt32.ofNat j) → j = i)
  {tr : List (Option (Fin numberOfShards.toNat) × Event)} {c : Wire numberOfShards}
  (h : exec (shardTailLoop iteratorFactory resolver) (start batchSize numberOfShards) tr = some c)
include hone h

theorem numbers_of_one_sender (hshort : tr.length < 2 ^ 64) :
    (batchesOf (shardIdOf (UInt32.ofNat i)) c.shared.handed).map MessageBatch.number =
      List.range' 1 (batchesOf (shardIdOf (UInt32.ofNat i)) c.shared.handed).length := by
  obtain ⟨draws, hdraws, hinv⟩ := drawInv_run h
  have hbound := (hinv.number_prefix (lt_of_le_of_lt hdraws hshort) i).length_le
  have hticket : (tickets i draws).length ≤ draws.length := by
    unfold tickets
    rw [List.length_idxsOf]
    exact List.count_le_length
  rw [List.length_map] at hbound
  have hcontig := contiguous_of_one (fun j hj => congrArg some (hone j hj).symm) h
    (shardIdOf (UInt32.ofNat i))
  have hnumbers : numbersOf (shardIdOf (UInt32.ofNat i)) c.shared.handed =
      (batchesOf (shardIdOf (UInt32.ofNat i)) c.shared.handed).map MessageBatch.sequenceNumber :=
    rfl
  rw [hnumbers, List.length_map] at hcontig
  have hmap := congrArg (List.map UInt64.toNat) hcontig
  unfold firstNumbers at hmap
  rw [List.map_map, List.map_map] at hmap
  refine hmap.trans ((List.map_congr_left ?_).trans (List.map_id _))
  intro k hk
  rw [List.mem_range'_1] at hk
  have hlt : k < 2 ^ 64 := by omega
  exact UInt64.toNat_ofNat_of_lt' hlt

theorem shard_of_one_sender {b : MessageBatch} (hb : b ∈ c.shared.handed) :
    b.shardId = shardIdOf (UInt32.ofNat i) := by
  have hinv := exec_invariant
    (fun _ c => WireInv iteratorFactory resolver batchSize numberOfShards (some i) c)
    (fun _ _ _ _ hI hf => wireInv_step (fun j hj => congrArg some (hone j hj).symm) hI hf) tr _ c
    wireInv_start h
  obtain ⟨j, hj, hshard⟩ := hinv.shards b hb
  rw [hshard, Option.some.inj hj]

end OneSender

/-- If no other shard has an entry to send and every batch arrives, however
often and in whatever order, the target has written the batches of the loop
in order and holds nothing back; and they are all that the loop has polled. -/
theorem target_writes_all_of_one_sender (transport : Transport)
    (iteratorFactory : UInt32 → List WALEntry) (resolver : CollectionInfoResolver)
    (batchSize numberOfShards : UInt32) (hpos : 0 < batchSize) (i : Fin numberOfShards.toNat)
    (hone : ∀ j : Fin numberOfShards.toNat,
      MaySend iteratorFactory resolver batchSize numberOfShards (UInt32.ofNat j) → j = i)
    (tr : List (Option (Fin numberOfShards.toNat) × Event)) (hshort : tr.length < 2 ^ 64)
    (c : Wire numberOfShards)
    (h : exec (shardTailLoop iteratorFactory resolver) (start batchSize numberOfShards) tr =
      some c)
    (hdone : c.control (some i) = .done)
    (writeCb : WriteCallback ω) (hcb : AlwaysAccepts writeCb)
    (satelliteCb : SatelliteCheckCallback)
    (hsat : satelliteCb (shardIdOf (UInt32.ofNat i)) = false) (calls : List ApplierCall) (env : ω)
    (hsent : SentBy transport c.shared.handed (delivered calls))
    (hall : ∀ b ∈ c.shared.handed, transport.message b ∈ delivered calls) :
    let r := runCalls (logged writeCb) satelliteCb calls new (env, [])
    let seen := loopHistory iteratorFactory resolver batchSize numberOfShards i tr
    writesOf (shardIdOf (UInt32.ofNat i)) r.2.2 = (handedBatches seen).map transport.writeArgs ∧
    (r.1.lastAppliedSequence (shardIdOf (UInt32.ofNat i))).toNat = (handedBatches seen).length ∧
    (∀ s q, r.1.held s q = none) ∧
    polledEntries seen = (handedBatches seen).flatMap MessageBatch.entries := by
  intro r seen
  obtain ⟨draws, hdraws, hinv⟩ := drawInv_run h
  have hlen := lt_of_le_of_lt hdraws hshort
  have hrun : Settled satelliteCb (delivered calls) r.1 r.2.2 :=
    runCalls_settled writeCb hcb calls env
  have hnumbers := numbers_of_one_sender hone h hshort
  have hseen := handed_of_loop i tr c h
  have hlast : (r.1.lastAppliedSequence (shardIdOf (UInt32.ofNat i))).toNat =
      (batchesOf (shardIdOf (UInt32.ofNat i)) c.shared.handed).length := by
    have hgreat := caughtUp_of_noReady hrun.inOrder hrun.complete hrun.noReady _ hsat
    rw [delivered_numbers hall hsent, hnumbers] at hgreat
    refine hgreat.unique (isGreatest_of_gap _ _ ?_ ?_)
    · intro k hk hle
      exact List.mem_range'_1.mpr ⟨hk, by omega⟩
    · intro hmem
      have hlt := (List.mem_range'_1.mp hmem).2
      omega
  refine ⟨?_, ?_, ?_, ?_⟩
  · rw [writes_take hinv hlen hsent (hrun.inOrder.writes _), hlast, List.take_length, hseen]
  · rw [hlast, hseen]
  · intro s q
    cases hm : r.1.held s q with
    | none => rfl
    | some m =>
      obtain ⟨hD, hs, rfl, -, -⟩ := hrun.inOrder.buffered s q m hm
      obtain ⟨b, hb, rfl⟩ := hsent m hD
      have hlate := hrun.hygiene s _ _ hm
      rw [transport.shardId, shard_of_one_sender hone h hb] at hs
      subst hs
      rw [transport.sequence, UInt64.lt_iff_toNat_lt, hlast] at hlate
      have hin : b.number ∈ (batchesOf (shardIdOf (UInt32.ofNat i)) c.shared.handed).map
          MessageBatch.number :=
        List.mem_map_of_mem (mem_batchesOf.mpr ⟨hb, shard_of_one_sender hone h hb⟩)
      rw [hnumbers, List.mem_range'_1] at hin
      have hnum : b.number = b.sequenceNumber.toNat := rfl
      omega
  · have hentries := (run_conserved hpos i tr c h).entries
    rw [hdone] at hentries
    exact hentries.trans (List.append_nil _)

def Control.isDone : Control → Bool
  | .done => true
  | _ => false

theorem Control.isDone_iff {control : Control} : control.isDone = true ↔ control = .done := by
  constructor
  · intro h
    cases control with
    | done => rfl
    | _ => cases h
  · rintro rfl
    rfl

/-- The second batch arrives first and twice. -/
theorem stoppedRun_reaches_target :
    ∃ c, exec (shardTailLoop (fun _ => ShardWALTailer.sampleLog) (fun _ => none)) (start 2 1)
        stoppedRun = some c ∧
      let sent := c.shared.handed.map sampleTransport.message
      let r := runCalls (logged fun _ (e : Unit) => (0, e)) (fun _ => false)
        ((sent.reverse ++ sent).map .applyMessage) new ((), [])
      (r.1.lastAppliedSequence (lit "shard_0")).toNat = 2 ∧
        c.shared.handed.flatMap MessageBatch.entries = ShardWALTailer.sampleLog := by
  have hruns : (exec (shardTailLoop (fun _ => ShardWALTailer.sampleLog) (fun _ => none))
      (start 2 1) stoppedRun).map (fun c => ((c.control (some ⟨0, by decide⟩)).isDone,
        (batchesOf (lit "shard_0") c.shared.handed).length,
        c.shared.handed.flatMap MessageBatch.entries)) =
      some (true, 2, ShardWALTailer.sampleLog) := by
    decide +kernel
  obtain ⟨c, hc, hstate⟩ := Option.map_eq_some_iff.mp hruns
  obtain ⟨hdone, hstate⟩ := Prod.mk.inj hstate
  obtain ⟨htwo, hentries⟩ := Prod.mk.inj hstate
  refine ⟨c, hc, ?_, hentries⟩
  have hzero : ∀ j : Fin (UInt32.toNat 1), j = ⟨0, by decide⟩ := by decide
  have hmem : ∀ m, m ∈ delivered (((c.shared.handed.map sampleTransport.message).reverse ++
      c.shared.handed.map sampleTransport.message).map ApplierCall.applyMessage) ↔
      m ∈ c.shared.handed.map sampleTransport.message := by
    intro m
    rw [delivered_messages]
    simp
  obtain ⟨-, hcount, -, -⟩ := target_writes_all_of_one_sender sampleTransport
    (fun _ => ShardWALTailer.sampleLog) (fun _ => none) 2 1 (by decide) ⟨0, by decide⟩
    (fun j _ => hzero j) stoppedRun (by decide +kernel) c hc (Control.isDone_iff.mp hdone)
    (fun _ (e : Unit) => (0, e)) (fun _ _ => rfl) (fun _ => false) rfl _ () (fun m hm => by
      obtain ⟨b, hb, rfl⟩ := List.mem_map.mp ((hmem m).mp hm)
      exact ⟨b, hb, rfl⟩)
    (fun b hb => (hmem _).mpr (List.mem_map_of_mem hb))
  rw [← handed_of_loop ⟨0, by decide⟩ stoppedRun c hc] at hcount
  exact hcount.trans htwo

end Loops
end DC2DCReplicator
end OpenArangoDBCore.Replication
