import OpenArangoDBCore.Replication.FeedPaging
import OpenArangoDBCore.Replication.ReportedProgress

/-!
# The replication endpoints together (RestReplicationHandler.ipp, ReplicationStatusBuilder.ipp)

The handler works on a tracker and a tailer, here those of the repository's
mocks. Between the requests the cluster goes on: a new message comes to the
tailer, and its sequence to the tracker.
-/

namespace OpenArangoDBCore.Replication

namespace MockSequenceNumberTracker

def addShard (t : MockSequenceNumberTracker) (shardId : ByteString) (generated applied : UInt64) :
    MockSequenceNumberTracker :=
  t.insert shardId ⟨shardId, generated, applied,
    if applied ≤ generated then generated - applied else 0⟩

def resetAll (_ : MockSequenceNumberTracker) : MockSequenceNumberTracker := ∅

/-- The orders in which the loops over a tracker go. -/
abbrev Orders := (t : MockSequenceNumberTracker) → UnorderedMap.IterationOrder t

def getAllStates (order : Orders) (t : MockSequenceNumberTracker) : List ShardSequenceState :=
  (order t).val.map fun entry => entry.2

def totalPending (order : Orders) (t : MockSequenceNumberTracker) : UInt64 :=
  (order t).val.foldl (fun total entry => total + entry.2.pendingCount) 0

end MockSequenceNumberTracker

structure MockShardWALTailer where
  running : Bool
  messages : List ReplicationMessage
  sent : UInt64
  acked : UInt64

namespace MockShardWALTailer

def addMessage (tailer : MockShardWALTailer) (msg : ReplicationMessage) : MockShardWALTailer :=
  {tailer with messages := tailer.messages ++ [msg], sent := tailer.sent + 1}

end MockShardWALTailer

namespace ReplicationStatusBuilder

/-- An element of `shardStates`. -/
def shardText (shardId : ByteString) (lastGenerated lastApplied pending : ℕ) : ByteString :=
  lit "\x7b\n" ++ (lit "    \"shardId\": \"" ++ shardId ++ lit "\",\n") ++
    (lit "    \"lastGenerated\": " ++ decimal lastGenerated ++ lit ",\n") ++
    (lit "    \"lastApplied\": " ++ decimal lastApplied ++ lit ",\n") ++
    (lit "    \"pending\": " ++ decimal pending ++ lit "\n") ++ lit "  \x7d"

/-- What is written to `oss`. -/
def text (running : Bool) (lag : ByteString) (sent acked totalPending : ℕ)
    (shards : List ByteString) : ByteString :=
  lit "\x7b\n" ++
    (lit "  \"isRunning\": " ++ (if running then lit "true" else lit "false") ++ lit ",\n") ++
    (lit "  \"lagSeconds\": " ++ lag ++ lit ",\n") ++
    (lit "  \"totalMessagesSent\": " ++ decimal sent ++ lit ",\n") ++
    (lit "  \"totalMessagesAcked\": " ++ decimal acked ++ lit ",\n") ++
    (lit "  \"totalPending\": " ++ decimal totalPending ++ lit ",\n") ++
    lit "  \"shardStates\": [" ++ (lit ", ").intercalate shards ++ lit "]\n" ++
    lit "\x7d"

/-- `lagText` stands for `estimateLagSeconds` and the output of its double. -/
def build (lagText : UInt64 → UInt64 → UInt64 → ByteString)
    (order : MockSequenceNumberTracker.Orders) (tracker : MockSequenceNumberTracker)
    (tailer : MockShardWALTailer) : ByteString :=
  let states := MockSequenceNumberTracker.getAllStates order tracker
  let maxPending := states.foldl (fun maxPending s => max maxPending s.pendingCount) 0
  text tailer.running (lagText maxPending tailer.sent tailer.acked) tailer.sent.toNat
    tailer.acked.toNat (MockSequenceNumberTracker.totalPending order tracker).toNat
    (states.map fun s =>
      shardText s.shardId s.lastGenerated.toNat s.lastApplied.toNat s.pendingCount.toNat)

end ReplicationStatusBuilder

end OpenArangoDBCore.Replication

namespace OpenArangoDBCore.RestHandler.RestReplicationHandler
open Replication MockSequenceNumberTracker

inductive Route where
  | STATUS
  | START
  | STOP
  | RESET
  | FEED
  | CHECKPOINT
  | UNKNOWN
  deriving DecidableEq

def parseRoute (suffix : ByteString) : Route :=
  if suffix = lit "status" then .STATUS
  else if suffix = lit "start" then .START
  else if suffix = lit "stop" then .STOP
  else if suffix = lit "reset" then .RESET
  else if suffix = lit "feed" then .FEED
  else if suffix = lit "checkpoint" then .CHECKPOINT
  else .UNKNOWN

/-- `_tracker` and `_tailer` -/
structure Server where
  tracker : MockSequenceNumberTracker
  tailer : MockShardWALTailer

def Server.new : Server := ⟨∅, ⟨false, [], 0, 0⟩⟩

section Requests
variable (lagText : UInt64 → UInt64 → UInt64 → ByteString) (order : Orders)

def executeStatus (server : Server) : ByteString :=
  formatSuccess (ReplicationStatusBuilder.build lagText order server.tracker server.tailer)

/-- `epoch` is the time of the request in seconds. -/
def executeStart (server : Server) (epoch : ℤ) : ByteString × Server :=
  if server.tailer.running then
    (formatError 409 (lit "replication is already running"), server)
  else
    (formatSuccess (lit "\x7b\"started\": true, \"timestamp\": " ++ decimalInt epoch ++
        lit ", \"previousState\": \"stopped\"\x7d"),
      {server with tailer := {server.tailer with running := true}})

def executeStop (server : Server) (epoch : ℤ) : ByteString × Server :=
  if server.tailer.running = false then
    (formatError 409 (lit "replication is not running"), server)
  else
    (formatSuccess (lit "\x7b\"stopped\": true, \"timestamp\": " ++ decimalInt epoch ++
        lit ", \"previousState\": \"running\"\x7d"),
      {server with tailer := {server.tailer with running := false}})

/-- `static_cast<uint32_t>` -/
def executeReset (server : Server) : ByteString × Server :=
  (formatSuccess (lit "\x7b\"reset\": true, \"shardsReset\": " ++
      decimal ((getAllStates order server.tracker).length % 2 ^ 32) ++ lit "\x7d"),
    {server with tracker := resetAll server.tracker})

inductive Request where
  | status
  | start (epoch : ℤ)
  | stop (epoch : ℤ)
  | reset
  | feed (shardId : ByteString) (afterSequence : UInt64) (maxCount : UInt32)
  | checkpoint (shardId : ByteString) (appliedSequence : UInt64)
  deriving DecidableEq

def handle (server : Server) : Request → ByteString × Server
  | .status => (executeStatus lagText order server, server)
  | .start epoch => executeStart server epoch
  | .stop epoch => executeStop server epoch
  | .reset => executeReset order server
  | .feed shardId afterSequence maxCount =>
    (executeFeed (MockShardWALTailer.nextBatch server.tailer.messages) shardId afterSequence
      maxCount, server)
  | .checkpoint shardId appliedSequence =>
    let result := executeCheckpoint server.tracker shardId appliedSequence
    (result.1, {server with tracker := result.2})

end Requests

/-- The cluster has a new message. -/
def generate (server : Server) (m : ReplicationMessage) : Server :=
  ⟨addShard server.tracker m.shardId m.sequence (getState server.tracker m.shardId).lastApplied,
    server.tailer.addMessage m⟩

/-! ### The state of a shard -/

section States
variable {t : MockSequenceNumberTracker} {shardId other : ByteString} {sequence : UInt64}

theorem getState_addShard (generated applied : UInt64) :
    getState (addShard t shardId generated applied) other =
      if other = shardId then ⟨shardId, generated, applied,
        if applied ≤ generated then generated - applied else 0⟩ else getState t other := by
  unfold getState addShard
  rw [UnorderedMap.lookup_insert_of]
  split <;> rfl

/-- What a report does to the tracker: it is accepted and assigned, or nothing. -/
theorem executeCheckpoint_cases (t : MockSequenceNumberTracker) (shardId : ByteString)
    (sequence : UInt64) :
    (executeCheckpoint t shardId sequence).2 = t ∨
      ((getState t shardId).lastApplied < sequence ∧
        sequence ≤ (getState t shardId).lastGenerated ∧
        (executeCheckpoint t shardId sequence).2 = updateApplied t shardId sequence) := by
  cases haccepted : (CheckpointReceiver.receive t shardId sequence).1.accepted with
  | false => exact .inl (executeCheckpoint_refused t shardId sequence haccepted)
  | true =>
    unfold executeCheckpoint
    split
    · exact .inl rfl
    · split
      · exact .inl rfl
      · dsimp only
        rw [haccepted, if_neg Bool.noConfusion]
        unfold CheckpointReceiver.receive at haccepted ⊢
        dsimp only at haccepted ⊢
        split at haccepted
        next hvalid =>
          rw [if_pos hvalid]
          obtain ⟨happlied, hgenerated⟩ :=
            (CheckpointReceiver.validate_accepted_iff shardId sequence _).mp hvalid
          exact .inr ⟨happlied, hgenerated, rfl⟩
        next hrefused =>
          rw [if_neg hrefused]
          exact .inl rfl

theorem lookup_updateApplied (t : MockSequenceNumberTracker) (shardId other : ByteString)
    (sequence : UInt64) : (updateApplied t shardId sequence).lookup other =
      if other = shardId then (t.lookup other).map fun state => {state with
        lastApplied := sequence
        pendingCount :=
          if sequence ≤ state.lastGenerated then state.lastGenerated - sequence else 0}
      else t.lookup other := by
  split
  next h =>
    subst h
    unfold updateApplied
    cases hlookup : t.lookup other with
    | none =>
      dsimp only
      rw [hlookup]
      rfl
    | some state => exact AList.lookup_insert t
  next h => exact lookup_updateApplied_of_ne h sequence

end States

/-! ### Every reachable state -/

inductive Event where
  | request (r : Request)
  | generated (m : ReplicationMessage)
  deriving DecidableEq

/-- A new message comes behind the others of its shard. -/
def Fresh (server : Server) (m : ReplicationMessage) : Prop :=
  0 < m.sequence ∧ ∀ earlier ∈ server.tailer.messages, earlier.shardId = m.shardId →
    earlier.sequence < m.sequence

section Runs
variable (lagText : UInt64 → UInt64 → UInt64 → ByteString) (order : Orders)

inductive Run : List Event → Server → Prop where
  | start : Run [] .new
  | request {past : List Event} {server : Server} (h : Run past server) (r : Request) :
      Run (past ++ [.request r]) (handle lagText order server r).2
  | generated {past : List Event} {server : Server} (h : Run past server) (m : ReplicationMessage)
      (hfresh : Fresh server m) : Run (past ++ [.generated m]) (generate server m)

/-- What the numbers of a shard have to do with each other. -/
structure Numbers (messages : List ReplicationMessage) (shardId : ByteString)
    (state : ShardSequenceState) : Prop where
  shard : state.shardId = shardId
  applied_le : state.lastApplied ≤ state.lastGenerated
  pending : state.pendingCount = state.lastGenerated - state.lastApplied
  latest : ∀ m ∈ messages, m.shardId = shardId → m.sequence ≤ state.lastGenerated
  generated : ∃ m ∈ messages, m.shardId = shardId ∧ m.sequence = state.lastGenerated

/-- The numbers of all shards in a state of the server. -/
def Consistent (server : Server) : Prop :=
  ∀ shardId state, server.tracker.lookup shardId = some state →
    Numbers server.tailer.messages shardId state

variable {lagText order} {server : Server} {shardId : ByteString} {sequence : UInt64}

theorem Consistent.checkpoint (h : Consistent server)
    (hgenerated : sequence ≤ (getState server.tracker shardId).lastGenerated) :
    Consistent {server with tracker := updateApplied server.tracker shardId sequence} := by
  intro other state hlookup
  dsimp only at hlookup ⊢
  rw [lookup_updateApplied] at hlookup
  split at hlookup
  next hother =>
    obtain ⟨before, hbefore, rfl⟩ := Option.map_eq_some_iff.mp hlookup
    obtain ⟨hshard, -, -, hlatest, hmessage⟩ := h other before hbefore
    have hle : sequence ≤ before.lastGenerated := by
      rw [← hother, getState, hbefore] at hgenerated
      exact hgenerated
    exact ⟨hshard, hle, if_pos hle, hlatest, hmessage⟩
  next => exact h other state hlookup

theorem Consistent.request (h : Consistent server) (r : Request) :
    Consistent (handle lagText order server r).2 := by
  cases r with
  | status => exact h
  | feed => exact h
  | start epoch =>
    unfold handle executeStart
    dsimp only
    split <;> exact h
  | stop epoch =>
    unfold handle executeStop
    dsimp only
    split <;> exact h
  | reset =>
    intro shardId state hlookup
    cases hlookup
  | checkpoint shardId sequence =>
    unfold handle
    dsimp only
    rcases executeCheckpoint_cases server.tracker shardId sequence with
      hsame | ⟨-, hgenerated, hnext⟩
    · rw [hsame]
      exact h
    · rw [hnext]
      exact h.checkpoint hgenerated

theorem Consistent.generate (h : Consistent server) {m : ReplicationMessage}
    (hfresh : Fresh server m) : Consistent (generate server m) := by
  intro shardId state hlookup
  unfold RestReplicationHandler.generate at hlookup ⊢
  dsimp only at hlookup ⊢
  have hmem : m ∈ (server.tailer.addMessage m).messages :=
    List.mem_append_right _ (List.mem_singleton_self m)
  unfold addShard at hlookup
  rw [UnorderedMap.lookup_insert_of] at hlookup
  split at hlookup
  next hshard =>
    obtain rfl := Option.some.inj hlookup
    have hle : (getState server.tracker m.shardId).lastApplied ≤ m.sequence := by
      cases hbefore : server.tracker.lookup m.shardId with
      | none =>
        rw [getState, hbefore, UInt64.le_iff_toNat_le]
        exact Nat.zero_le _
      | some before =>
        obtain ⟨-, happlied, -, -, earlier, hearlier, hsame, hsequence⟩ := h _ before hbefore
        have hlt := hfresh.2 earlier hearlier hsame
        rw [getState, hbefore, Option.getD_some]
        rw [hsequence, UInt64.lt_iff_toNat_lt] at hlt
        rw [UInt64.le_iff_toNat_le] at happlied ⊢
        omega
    refine ⟨hshard.symm, hle, if_pos hle, ?_, m, hmem, hshard.symm, rfl⟩
    intro m' hm' hsame
    rcases List.mem_append.mp hm' with hearlier | hlast
    · exact UInt64.le_of_lt (hfresh.2 m' hearlier (hsame.trans hshard))
    · rw [List.mem_singleton.mp hlast]
      exact UInt64.le_refl m.sequence
  next hother =>
    obtain ⟨hshard, happlied, hpending, hlatest, earlier, hearlier, hsame⟩ :=
      h shardId state hlookup
    refine ⟨hshard, happlied, hpending, ?_, earlier, List.mem_append_left _ hearlier, hsame⟩
    intro m' hm' hsame'
    rcases List.mem_append.mp hm' with hbefore | hlast
    · exact hlatest m' hbefore hsame'
    · rw [List.mem_singleton.mp hlast] at hsame'
      exact absurd hsame'.symm hother

theorem Run.consistent {past : List Event} (h : Run lagText order past server) :
    Consistent server := by
  induction h with
  | start =>
    intro shardId state hlookup
    cases hlookup
  | request _ r ih => exact ih.request r
  | generated _ m hfresh ih => exact ih.generate hfresh

/-! ### The status -/

theorem toNat_foldl_add {β : Type} (f : β → UInt64) (l : List β) (total : UInt64) :
    (l.foldl (fun total x => total + f x) total).toNat =
      (total.toNat + (l.map fun x => (f x).toNat).sum) % 2 ^ 64 := by
  induction l generalizing total with
  | nil => exact (Nat.mod_eq_of_lt (by simpa using total.toNat_lt)).symm
  | cons x l ih =>
    rw [List.foldl_cons, ih, UInt64.toNat_add, List.map_cons, List.sum_cons, Nat.mod_add_mod,
      Nat.add_assoc]

theorem toNat_foldl_max {β : Type} (f : β → UInt64) (l : List β) (largest : UInt64) :
    (l.foldl (fun largest x => max largest (f x)) largest).toNat =
      (l.map fun x => (f x).toNat).foldl max largest.toNat := by
  induction l generalizing largest with
  | nil => rfl
  | cons x l ih =>
    have hmax : (max largest (f x)).toNat = max largest.toNat (f x).toNat := by
      rw [UInt64.max_def, Nat.max_def]
      simp only [UInt64.le_iff_toNat_le]
      split <;> rfl
    rw [List.foldl_cons, ih, hmax, List.map_cons, List.foldl_cons]

/-- What the status says of a shard: the last message generated for it and how far
it is applied. -/
structure ShardNumbers where
  shardId : ByteString
  generated : ℕ
  applied : ℕ

def ShardNumbers.pending (s : ShardNumbers) : ℕ := s.generated - s.applied

def ShardNumbers.text (s : ShardNumbers) : ByteString :=
  ReplicationStatusBuilder.shardText s.shardId s.generated s.applied s.pending

/-- The shards of a state of the server with their numbers, each once. -/
structure ShardsOf (server : Server) (shards : List ShardNumbers) : Prop where
  nodup : (shards.map ShardNumbers.shardId).Nodup
  tracked : ∀ shardId, shardId ∈ shards.map ShardNumbers.shardId ↔ shardId ∈ server.tracker
  applied_le : ∀ s ∈ shards, s.applied ≤ s.generated
  latest : ∀ s ∈ shards, ∀ m ∈ server.tailer.messages, m.shardId = s.shardId →
    m.sequence.toNat ≤ s.generated
  generated : ∀ s ∈ shards, ∃ m ∈ server.tailer.messages,
    m.shardId = s.shardId ∧ m.sequence.toNat = s.generated

/-- A state of the tracker in natural numbers. -/
def numbersOf (state : ShardSequenceState) : ShardNumbers :=
  ⟨state.shardId, state.lastGenerated.toNat, state.lastApplied.toNat⟩

theorem Consistent.state (h : Consistent server) {e : ByteString × ShardSequenceState}
    (hmem : e ∈ (order server.tracker).val) : Numbers server.tailer.messages e.1 e.2 :=
  h e.1 e.2 (((order server.tracker).mem_iff e.1 e.2).mp hmem)

theorem Consistent.pending (h : Consistent server) {e : ByteString × ShardSequenceState}
    (hmem : e ∈ (order server.tracker).val) :
    e.2.pendingCount.toNat = (numbersOf e.2).pending := by
  obtain ⟨-, happlied, hpending, -⟩ := h.state hmem
  rw [hpending, UInt64.toNat_sub_of_le _ _ happlied]
  rfl

theorem Consistent.shardsOf (h : Consistent server) :
    ShardsOf server ((getAllStates order server.tracker).map numbersOf) := by
  have hids : ((getAllStates order server.tracker).map numbersOf).map ShardNumbers.shardId =
      (order server.tracker).val.map Prod.fst := by
    rw [getAllStates, List.map_map, List.map_map]
    exact List.map_congr_left fun e hmem => (h.state hmem).shard
  constructor
  · rw [hids]
    exact (order server.tracker).nodup
  · intro shardId
    rw [hids]
    constructor
    · intro hmem
      obtain ⟨e, hentry, rfl⟩ := List.mem_map.mp hmem
      exact (order server.tracker).mem_of_mem hentry
    · intro hmem
      obtain ⟨state, hlookup⟩ := Option.isSome_iff_exists.mp (AList.lookup_isSome.mpr hmem)
      exact List.mem_map.mpr ⟨_, ((order server.tracker).mem_iff shardId state).mpr hlookup, rfl⟩
  · intro s hmem
    obtain ⟨state, hstate, rfl⟩ := List.mem_map.mp hmem
    obtain ⟨e, hentry, rfl⟩ := List.mem_map.mp hstate
    exact UInt64.le_iff_toNat_le.mp (h.state hentry).applied_le
  · intro s hmem m hm hsame
    obtain ⟨state, hstate, rfl⟩ := List.mem_map.mp hmem
    obtain ⟨e, hentry, rfl⟩ := List.mem_map.mp hstate
    obtain ⟨hshard, -, -, hlatest, -⟩ := h.state hentry
    exact UInt64.le_iff_toNat_le.mp (hlatest m hm (hsame.trans hshard))
  · intro s hmem
    obtain ⟨state, hstate, rfl⟩ := List.mem_map.mp hmem
    obtain ⟨e, hentry, rfl⟩ := List.mem_map.mp hstate
    obtain ⟨hshard, -, -, -, m, hm, hid, hsequence⟩ := h.state hentry
    exact ⟨m, hm, hid.trans hshard.symm, congrArg UInt64.toNat hsequence⟩

/-- Whatever requests have come in, in whatever order with new messages, the
status prints of every shard the last message generated, how far it is applied,
and the difference, and as their total the sum of the differences, whichever
way the shards are gone through. -/
theorem status_numbers (past : List Event) (server : Server) (h : Run lagText order past server) :
    ∃ shards largest, ShardsOf server shards ∧
      largest.toNat = (shards.map ShardNumbers.pending).foldl max 0 ∧
      executeStatus lagText order server = formatSuccess (ReplicationStatusBuilder.text
        server.tailer.running (lagText largest server.tailer.sent server.tailer.acked)
        server.tailer.sent.toNat server.tailer.acked.toNat
        ((shards.map ShardNumbers.pending).sum % 2 ^ 64) (shards.map ShardNumbers.text)) := by
  obtain ⟨states, hstates⟩ : ∃ states, states = getAllStates order server.tracker := ⟨_, rfl⟩
  have hpending : states.map (fun state => state.pendingCount.toNat) =
      (states.map numbersOf).map ShardNumbers.pending := by
    rw [hstates, getAllStates, List.map_map, List.map_map, List.map_map]
    exact List.map_congr_left fun e hmem => h.consistent.pending hmem
  have htotal : (totalPending order server.tracker).toNat =
      ((states.map numbersOf).map ShardNumbers.pending).sum % 2 ^ 64 := by
    unfold totalPending
    rw [toNat_foldl_add, UInt64.toNat_zero, Nat.zero_add, ← hpending, hstates, getAllStates,
      List.map_map]
    rfl
  have htexts : (states.map fun s => ReplicationStatusBuilder.shardText s.shardId
      s.lastGenerated.toNat s.lastApplied.toNat s.pendingCount.toNat) =
        (states.map numbersOf).map ShardNumbers.text := by
    rw [hstates, getAllStates, List.map_map, List.map_map, List.map_map]
    refine List.map_congr_left fun e hmem => ?_
    dsimp only [Function.comp_apply]
    rw [h.consistent.pending hmem]
    rfl
  refine ⟨states.map numbersOf,
    states.foldl (fun largest s => max largest s.pendingCount) 0, ?_, ?_, ?_⟩
  · rw [hstates]
    exact h.consistent.shardsOf
  · rw [toNat_foldl_max, hpending]
    rfl
  · unfold executeStatus ReplicationStatusBuilder.build
    dsimp only
    rw [← hstates, htexts, htotal]

end Runs

def noLag (_ _ _ : UInt64) : ByteString := lit "0"

def sampleOrder : Orders := UnorderedMap.entryOrder

def inserted (shardId : ByteString) (sequence : UInt64) : ReplicationMessage :=
  ⟨shardId, sequence, lit "insert", []⟩

/-- Three messages have come for two shards, and one is applied. -/
def sampleServer : Server :=
  (handle noLag sampleOrder (generate (generate (generate .new (inserted (lit "s") 1))
    (inserted (lit "t") 2)) (inserted (lit "s") 3)) (.checkpoint (lit "s") 1)).2

theorem sampleServer_run : Run noLag sampleOrder [.generated (inserted (lit "s") 1),
    .generated (inserted (lit "t") 2), .generated (inserted (lit "s") 3),
    .request (.checkpoint (lit "s") 1)] sampleServer := by
  have hfirst : Fresh .new (inserted (lit "s") 1) := ⟨by decide, nofun⟩
  have hsecond : Fresh (generate .new (inserted (lit "s") 1)) (inserted (lit "t") 2) :=
    ⟨by decide, by decide⟩
  have hthird : Fresh (generate (generate .new (inserted (lit "s") 1)) (inserted (lit "t") 2))
      (inserted (lit "s") 3) := ⟨by decide, by decide⟩
  exact (((Run.start.generated _ hfirst).generated _ hsecond).generated _ hthird).request _

theorem sampleServer_status : ∃ shards largest, ShardsOf sampleServer shards ∧
    largest.toNat = (shards.map ShardNumbers.pending).foldl max 0 ∧
    executeStatus noLag sampleOrder sampleServer = formatSuccess (ReplicationStatusBuilder.text
      false (noLag largest 3 0) 3 0 ((shards.map ShardNumbers.pending).sum % 2 ^ 64)
      (shards.map ShardNumbers.text)) :=
  status_numbers _ _ sampleServer_run

example : executeStatus noLag sampleOrder sampleServer = formatSuccess
    (ReplicationStatusBuilder.text false (lit "0") 3 0 4
      [ShardNumbers.text ⟨lit "s", 3, 1⟩, ShardNumbers.text ⟨lit "t", 2, 0⟩]) := by decide +kernel

end OpenArangoDBCore.RestHandler.RestReplicationHandler
