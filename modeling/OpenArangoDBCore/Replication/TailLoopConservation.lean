import OpenArangoDBCore.Replication.TailerPolls
import OpenArangoDBCore.Replication.WireSequence

/-!
# What one tail loop does with the entries it polls

Entries go from the result of a poll through the pending entries of the
batcher into a sealed batch and out through the callback. None is lost,
repeated or moved on the way, whenever the owner stops the loops.
-/

namespace OpenArangoDBCore.Replication.DC2DCReplicator
open Interleaving

/-- What a loop gets from its tailer and from the sequence provider, and what it hands over. -/
inductive Observation where
  | polled (entries : List WALEntry)
  | drew (number : UInt64)
  | handed (batch : MessageBatch)

def observe (resolver : CollectionInfoResolver) (r : DC2DCReplicator) :
    Control → Event → List Observation
  | .looping tailer _, .step =>
    if r.tailing then [.polled (tailer.poll resolver r.batchSize).1] else []
  | .sealing _ _ _, .draw _ => [.drew (r.counter + 1)]
  | .handing batch _ _ _, .hand => [.handed batch]
  | _, _ => []

def polledEntries (seen : List Observation) : List WALEntry :=
  seen.flatMap fun o => match o with
    | .polled entries => entries
    | _ => []

def drawnNumbers (seen : List Observation) : List UInt64 :=
  seen.filterMap fun o => match o with
    | .drew number => some number
    | _ => none

def handedBatches (seen : List Observation) : List MessageBatch :=
  seen.filterMap fun o => match o with
    | .handed batch => some batch
    | _ => none

theorem polledEntries_append (seen more : List Observation) :
    polledEntries (seen ++ more) = polledEntries seen ++ polledEntries more :=
  List.flatMap_append

theorem drawnNumbers_append (seen more : List Observation) :
    drawnNumbers (seen ++ more) = drawnNumbers seen ++ drawnNumbers more :=
  List.filterMap_append

theorem handedBatches_append (seen more : List Observation) :
    handedBatches (seen ++ more) = handedBatches seen ++ handedBatches more :=
  List.filterMap_append

def After.entries : After → List WALEntry
  | .adding entries => entries
  | _ => []

/-- The entries that a loop has polled and not yet handed over. -/
def held : Control → List WALEntry
  | .looping _ batcher => batcher.pending
  | .adding _ batcher entries _ => batcher.pending ++ entries
  | .sealing _ batcher after => batcher.pending ++ after.entries
  | .handing batch _ batcher after => batch.entries ++ batcher.pending ++ after.entries
  | _ => []

def Control.batcher : Control → Option MessageBatcher
  | .looping _ b | .adding _ b _ _ | .sealing _ b _ | .handing _ _ b _ => some b
  | _ => none

section Loop
variable (shardIndex batchSize : UInt32)

structure BatchOf (batch : MessageBatch) : Prop where
  shardId : batch.shardId = shardIdOf shardIndex
  nonempty : batch.entries ≠ []
  bounded : batch.entries.length ≤ batchSize.toNat

structure BatcherFits (b : MessageBatcher) : Prop where
  shardId : b.shardId = shardIdOf shardIndex
  batchSize : b.batchSize = batchSize

/-- Between two entries the batcher has room for one more. -/
def LoopFits : Control → Prop
  | .owner => False
  | .starting k => k = shardIndex
  | .looping _ b => BatcherFits shardIndex batchSize b ∧ b.pending.length < batchSize.toNat
  | .adding _ b _ _ => BatcherFits shardIndex batchSize b ∧ b.pending.length < batchSize.toNat
  | .sealing _ b _ => BatcherFits shardIndex batchSize b ∧ b.pending ≠ [] ∧
      b.pending.length ≤ batchSize.toNat
  | .handing batch _ b _ => BatcherFits shardIndex batchSize b ∧ b.pending = [] ∧
      BatchOf shardIndex batchSize batch
  | .done => True

structure Conserved (seen : List Observation) (r : DC2DCReplicator) (l : Control) : Prop where
  size : r.batchSize = batchSize
  entries : polledEntries seen = (handedBatches seen).flatMap MessageBatch.entries ++ held l
  numbers : drawnNumbers seen = (handedBatches seen).map MessageBatch.sequenceNumber ++ inFlight l
  batches : ∀ batch ∈ handedBatches seen, BatchOf shardIndex batchSize batch
  loop : LoopFits shardIndex batchSize l

variable {shardIndex batchSize}

theorem conserved_start (i : UInt32) (r : DC2DCReplicator) (hr : r.batchSize = batchSize) :
    Conserved i batchSize [] r (.starting i) := by
  refine ⟨hr, rfl, rfl, ?_, rfl⟩
  intro batch hbatch
  cases hbatch

theorem Conserved.quiet {seen : List Observation} {r : DC2DCReplicator} {l l' : Control}
    (h : Conserved shardIndex batchSize seen r l) (hheld : held l' = held l)
    (hflight : inFlight l' = inFlight l) (hloop : LoopFits shardIndex batchSize l') :
    Conserved shardIndex batchSize (seen ++ []) r l' := by
  rw [List.append_nil]
  refine ⟨h.size, ?_, ?_, h.batches, hloop⟩
  · rw [hheld]
    exact h.entries
  · rw [hflight]
    exact h.numbers

theorem held_control (t : ShardWALTailer) (b : MessageBatcher) (after : After)
    (hb : b.pending = []) : held (after.control t b) = after.entries := by
  cases after with
  | adding entries =>
    show b.pending ++ entries = entries
    rw [hb, List.nil_append]
  | looping => exact hb
  | leaving => rfl

theorem held_flush (t : ShardWALTailer) (b : MessageBatcher) (after : After)
    (hafter : after.entries = []) : held (flush t b after) = b.pending := by
  unfold flush
  split
  next hb => rw [held_control t b after hb, hafter, hb]
  next => exact (congrArg (b.pending ++ ·) hafter).trans (List.append_nil _)

theorem loopFits_control {t : ShardWALTailer} {b : MessageBatcher} (after : After)
    (hb : BatcherFits shardIndex batchSize b) (hpending : b.pending = []) (hpos : 0 < batchSize) :
    LoopFits shardIndex batchSize (after.control t b) := by
  have hroom : b.pending.length < batchSize.toNat := by
    rw [hpending]
    exact UInt32.lt_iff_toNat_lt.mp hpos
  cases after with
  | adding entries => exact ⟨hb, hroom⟩
  | looping => exact ⟨hb, hroom⟩
  | leaving => exact trivial

theorem loopFits_flush {t : ShardWALTailer} {b : MessageBatcher} (after : After)
    (hb : BatcherFits shardIndex batchSize b) (hroom : b.pending.length < batchSize.toNat)
    (hpos : 0 < batchSize) : LoopFits shardIndex batchSize (flush t b after) := by
  unfold flush
  split
  next hpending => exact loopFits_control after hb hpending hpos
  next hne => exact ⟨hb, hne, Nat.le_of_lt hroom⟩

variable {iteratorFactory : UInt32 → List WALEntry} {resolver : CollectionInfoResolver}

theorem Conserved.poll {seen : List Observation} {r : DC2DCReplicator} {t : ShardWALTailer}
    {b : MessageBatcher} (h : Conserved shardIndex batchSize seen r (.looping t b)) :
    Conserved shardIndex batchSize (seen ++ [.polled (t.poll resolver r.batchSize).1]) r
      (.adding (t.poll resolver r.batchSize).2 b (t.poll resolver r.batchSize).1
        (!(t.poll resolver r.batchSize).1.isEmpty)) := by
  have hhanded : handedBatches (seen ++ [.polled (t.poll resolver r.batchSize).1]) =
      handedBatches seen := by
    rw [handedBatches_append]
    exact List.append_nil _
  have hpolled : polledEntries [.polled (t.poll resolver r.batchSize).1] =
      (t.poll resolver r.batchSize).1 := List.append_nil _
  refine ⟨h.size, ?_, ?_, ?_, h.loop⟩
  · rw [polledEntries_append, h.entries, hhanded, hpolled, List.append_assoc]
    rfl
  · rw [drawnNumbers_append, h.numbers, hhanded]
    exact List.append_nil _
  · rw [hhanded]
    exact h.batches

theorem Conserved.push {seen : List Observation} {r : DC2DCReplicator} {t : ShardWALTailer}
    {b : MessageBatcher} {entry : WALEntry} {rest : List WALEntry} {polled : Bool}
    (h : Conserved shardIndex batchSize seen r (.adding t b (entry :: rest) polled)) :
    Conserved shardIndex batchSize (seen ++ []) r
      (if (b.push entry).full then .sealing t (b.push entry) (.adding rest)
        else .adding t (b.push entry) rest polled) := by
  obtain ⟨hb, hroom⟩ := h.loop
  have hb' : BatcherFits shardIndex batchSize (b.push entry) := ⟨hb.shardId, hb.batchSize⟩
  have hlen : (b.push entry).pending.length = b.pending.length + 1 := List.length_append
  apply h.quiet
  · split <;> exact List.append_assoc _ [entry] rest
  · split <;> rfl
  · split
    next =>
      refine ⟨hb', ?_, ?_⟩
      · exact List.append_ne_nil_of_right_ne_nil _ (List.cons_ne_nil _ _)
      · omega
    next hfull =>
      refine ⟨hb', ?_⟩
      rw [MessageBatcher.full, hb'.batchSize, decide_eq_true_eq] at hfull
      omega

theorem Conserved.draw {seen : List Observation} {r : DC2DCReplicator} {t : ShardWALTailer}
    {b : MessageBatcher} {after : After} (now : UInt64)
    (h : Conserved shardIndex batchSize seen r (.sealing t b after)) :
    Conserved shardIndex batchSize (seen ++ [.drew (r.counter + 1)])
      {r with counter := r.counter + 1}
      (.handing (b.sealBatch (r.counter + 1) now).1 t (b.sealBatch (r.counter + 1) now).2
        after) := by
  obtain ⟨hb, hne, hlen⟩ := h.loop
  have hhanded : handedBatches (seen ++ [.drew (r.counter + 1)]) = handedBatches seen := by
    rw [handedBatches_append]
    exact List.append_nil _
  refine ⟨h.size, ?_, ?_, ?_, ⟨hb.shardId, hb.batchSize⟩, rfl, hb.shardId, hne, hlen⟩
  · rw [polledEntries_append, h.entries, hhanded]
    simp [held, polledEntries, MessageBatcher.sealBatch]
  · rw [drawnNumbers_append, h.numbers, hhanded]
    simp [inFlight, drawnNumbers, MessageBatcher.sealBatch]
  · rw [hhanded]
    exact h.batches

theorem Conserved.hand {seen : List Observation} {r : DC2DCReplicator} {batch : MessageBatch}
    {t : ShardWALTailer} {b : MessageBatcher} {after : After} (hpos : 0 < batchSize)
    (h : Conserved shardIndex batchSize seen r (.handing batch t b after)) :
    Conserved shardIndex batchSize (seen ++ [Observation.handed batch])
      {r with handed := r.handed ++ [batch]} (after.control t b) := by
  obtain ⟨hb, hpending, hbatch⟩ := h.loop
  have hhanded :
      handedBatches (seen ++ [Observation.handed batch]) = handedBatches seen ++ [batch] :=
    handedBatches_append seen [.handed batch]
  refine ⟨h.size, ?_, ?_, ?_, loopFits_control after hb hpending hpos⟩
  · rw [polledEntries_append, h.entries, hhanded, held_control t b after hpending, held, hpending]
    simp [polledEntries]
  · rw [drawnNumbers_append, h.numbers, hhanded, inFlight_control]
    simp [inFlight, drawnNumbers]
  · intro x hx
    rw [hhanded] at hx
    cases List.mem_append.mp hx with
    | inl hold => exact h.batches x hold
    | inr hnew =>
      rw [List.mem_singleton.mp hnew]
      exact hbatch

theorem conserved_step {seen : List Observation}
    {r r' : DC2DCReplicator} {l l' : Control} {e : Event} (hpos : 0 < batchSize)
    (h : Conserved shardIndex batchSize seen r l)
    (hs : shardTailLoop iteratorFactory resolver r l e = some (r', l')) :
    Conserved shardIndex batchSize (seen ++ observe resolver r l e) r' l' := by
  unfold shardTailLoop at hs
  split at hs
  next => exact absurd h.loop id
  next k =>
    cases hs
    have hk : k = shardIndex := h.loop
    refine h.quiet rfl rfl ⟨⟨congrArg shardIdOf hk, h.size⟩, ?_⟩
    exact UInt32.lt_iff_toNat_lt.mp hpos
  next t b =>
    unfold observe
    obtain ⟨hb, hroom⟩ := h.loop
    split at hs
    next ht =>
      cases hs
      dsimp only
      rw [if_pos ht]
      exact h.poll
    next ht =>
      cases hs
      dsimp only
      rw [if_neg ht]
      exact h.quiet (held_flush t b .leaving rfl) (inFlight_flush t b .leaving)
        (loopFits_flush .leaving hb hroom hpos)
  next t b entry rest polled =>
    cases hs
    exact h.push
  next t b polled =>
    cases hs
    obtain ⟨hb, hroom⟩ := h.loop
    have hheld : held (.adding t b [] polled) = b.pending := List.append_nil _
    apply h.quiet
    · rw [hheld]
      split
      · rfl
      · exact held_flush t b .looping rfl
    · split
      · rfl
      · exact inFlight_flush t b .looping
    · split
      · exact ⟨hb, hroom⟩
      · exact loopFits_flush .looping hb hroom hpos
  next t b after now =>
    cases hs
    exact h.draw now
  next batch t b after =>
    cases hs
    exact h.hand hpos
  next => cases hs

/-- The batcher that a loop leaves behind is empty. -/
theorem leaves_nothing {r r' : DC2DCReplicator} {l l' : Control} {e : Event} {b : MessageBatcher}
    (h : LoopFits shardIndex batchSize l) (hb : l.batcher = some b)
    (hs : shardTailLoop iteratorFactory resolver r l e = some (r', l')) (hdone : l' = .done) :
    b.pending = [] := by
  unfold shardTailLoop at hs
  split at hs
  next => cases hb
  next => cases hb
  next t b' =>
    cases hb
    split at hs
    · cases hs
      cases hdone
    · cases hs
      by_contra hne
      rw [flush, if_neg hne] at hdone
      cases hdone
  next t b' entry rest polled =>
    cases hs
    split at hdone <;> cases hdone
  next t b' polled =>
    cases hs
    split at hdone
    · cases hdone
    · unfold flush at hdone
      split at hdone <;> cases hdone
  next t b' after now =>
    cases hs
    cases hdone
  next batch t b' after =>
    cases hb
    exact h.2.1
  next => cases hs

end Loop

/-! ### Result -/

section Run
variable (iteratorFactory : UInt32 → List WALEntry) (resolver : CollectionInfoResolver)
  (batchSize numberOfShards : UInt32)

def loopHistory (i : Fin numberOfShards.toNat)
    (tr : List (Option (Fin numberOfShards.toNat) × Event)) : List Observation :=
  observed (shardTailLoop iteratorFactory resolver) (onlyOf (some i) (observe resolver))
    (start batchSize numberOfShards) tr

variable {iteratorFactory resolver batchSize numberOfShards}

theorem run_conserved (hpos : 0 < batchSize) (i : Fin numberOfShards.toNat)
    (tr : List (Option (Fin numberOfShards.toNat) × Event)) (c : Wire numberOfShards)
    (h : exec (shardTailLoop iteratorFactory resolver) (start batchSize numberOfShards) tr =
      some c) :
    Conserved (UInt32.ofNat i) batchSize
      (loopHistory iteratorFactory resolver batchSize numberOfShards i tr) c.shared
      (c.control (some i)) := by
  refine observed_rule (some i) (observe resolver) (Conserved (UInt32.ofNat i) batchSize)
    ?_ ?_ tr _ c (conserved_start _ _ rfl) h
  · intro seen r l e r' l' hI hs
    exact conserved_step hpos hI hs
  · intro seen r l l₀ e r' l₁ hI hs
    exact ⟨(step_effect hs).1.batchSize.trans hI.size, hI.entries, hI.numbers, hI.batches, hI.loop⟩

end Run

/-- Whatever the other loops do and whenever the owner stops: the batches of a
loop hold what it has polled but for what it still holds, and when it is done
it holds nothing. -/
theorem tail_loop_conserves (iteratorFactory : UInt32 → List WALEntry)
    (resolver : CollectionInfoResolver) (batchSize numberOfShards : UInt32) (hpos : 0 < batchSize)
    (i : Fin numberOfShards.toNat) (tr : List (Option (Fin numberOfShards.toNat) × Event))
    (c : Wire numberOfShards)
    (h : exec (shardTailLoop iteratorFactory resolver) (start batchSize numberOfShards) tr =
      some c) :
    let seen := loopHistory iteratorFactory resolver batchSize numberOfShards i tr
    polledEntries seen =
      (handedBatches seen).flatMap MessageBatch.entries ++ held (c.control (some i)) ∧
    drawnNumbers seen =
      (handedBatches seen).map MessageBatch.sequenceNumber ++ inFlight (c.control (some i)) ∧
    (∀ batch ∈ handedBatches seen, BatchOf (UInt32.ofNat i) batchSize batch) ∧
    (c.control (some i) = .done →
      (handedBatches seen).flatMap MessageBatch.entries = polledEntries seen ∧
      (handedBatches seen).map MessageBatch.sequenceNumber = drawnNumbers seen) ∧
    ∀ e c', fire (shardTailLoop iteratorFactory resolver) c (some i, e) = some c' →
      c'.control (some i) = .done → ∀ b, (c.control (some i)).batcher = some b →
        b.pending = [] := by
  intro seen
  have hc := run_conserved hpos i tr c h
  refine ⟨hc.entries, hc.numbers, hc.batches, ?_, ?_⟩
  · intro hdone
    have hentries := hc.entries
    have hnumbers := hc.numbers
    rw [hdone] at hentries hnumbers
    exact ⟨(hentries.trans (List.append_nil _)).symm, (hnumbers.trans (List.append_nil _)).symm⟩
  · intro e c' hf hdone b hb
    obtain ⟨r', l', hs, rfl⟩ := fire_inv hf
    dsimp only at hdone
    rw [Function.update_self] at hdone
    exact leaves_nothing hc.loop hb hs hdone

/-- Three entries in batches of two; the last one is flushed after the stop. -/
def stoppedRun : List (Option (Fin (UInt32.toNat 1)) × Event) :=
  ([.step, .step, .step, .step, .draw 7, .hand, .step, .step, .step, .step].map
    fun e => (some ⟨0, by decide⟩, e)) ++ (none, .stop) ::
    [.step, .draw 8, .hand].map fun e => (some ⟨0, by decide⟩, e)

theorem stoppedRun_hands_over_all :
    let seen := loopHistory (fun _ => ShardWALTailer.sampleLog) (fun _ => none) 2 1
      ⟨0, by decide⟩ stoppedRun
    (handedBatches seen).flatMap MessageBatch.entries = polledEntries seen ∧
      (handedBatches seen).map MessageBatch.sequenceNumber = drawnNumbers seen ∧
      polledEntries seen = ShardWALTailer.sampleLog ∧ drawnNumbers seen = [1, 2] := by
  obtain ⟨hentries, hnumbers⟩ := (tail_loop_conserves (fun _ => ShardWALTailer.sampleLog)
    (fun _ => none) 2 1 (by decide) ⟨0, by decide⟩ stoppedRun _ rfl).2.2.2.1 rfl
  refine ⟨hentries, hnumbers, ?_, ?_⟩
  · decide +kernel
  · decide +kernel

end OpenArangoDBCore.Replication.DC2DCReplicator
