import OpenArangoDBCore.RestHandler.ReplicationServer

/-!
# A client that feeds and reports (RestReplicationHandler.ipp:92-143)

The client pulls a shard page by page, each behind the last, and reports how
far it has come whenever it likes. Meanwhile others send requests and new
messages come. The feed needs nothing of the tracker; the reports are accepted
as long as nobody else resets the tracker or reports for the shard.
-/

namespace OpenArangoDBCore.RestHandler.RestReplicationHandler
open Replication MockSequenceNumberTracker FeedPaging ReplicationFeedStream

structure Client where
  position : UInt64
  reported : UInt64
  received : List ReplicationMessage
  responses : List ByteString

structure Pair where
  server : Server
  client : Client

def Pair.new : Pair := ⟨.new, ⟨0, 0, [], []⟩⟩

inductive Action where
  | fetch (maxCount : UInt32)
  | report
  | other (r : Request)
  | generated (m : ReplicationMessage)
  deriving DecidableEq

section Steps
variable (shardId : ByteString)

def Pair.page (p : Pair) (maxCount : UInt32) : FeedPage :=
  feedPage (MockShardWALTailer.nextBatch p.server.tailer.messages) shardId p.client.position maxCount

def Pair.fetch (p : Pair) (maxCount : UInt32) : Pair :=
  let page := p.page shardId maxCount
  {p with client := {p.client with
    position := page.lastSequence
    received := p.client.received ++ page.messages}}

def Pair.report (p : Pair) : Pair :=
  let result := executeCheckpoint p.server.tracker shardId p.client.position
  ⟨{p.server with tracker := result.2}, {p.client with
    reported := p.client.position
    responses := p.client.responses ++ [result.1]}⟩

/-- Somebody else takes the shard from the client. -/
def Action.interferes : Action → Prop
  | .other .reset => True
  | .other (.checkpoint reported _) => reported = shardId
  | _ => False

/-- All messages of the shard in the tailer. -/
def Pair.ofShard (p : Pair) : List ReplicationMessage :=
  p.server.tailer.messages.filter fun m => decide (m.shardId = shardId)

variable (lagText : UInt64 → UInt64 → UInt64 → ByteString) (order : Orders)

/-- The client reports when it has come further than it has reported. -/
inductive PairRun : List Action → Pair → Prop where
  | start : PairRun [] .new
  | fetch {past : List Action} {p : Pair} (h : PairRun past p) (maxCount : UInt32) :
      PairRun (past ++ [.fetch maxCount]) (p.fetch shardId maxCount)
  | report {past : List Action} {p : Pair} (h : PairRun past p)
      (hnews : p.client.position ≠ p.client.reported) :
      PairRun (past ++ [.report]) (p.report shardId)
  | other {past : List Action} {p : Pair} (h : PairRun past p) (r : Request) :
      PairRun (past ++ [.other r]) {p with server := (handle lagText order p.server r).2}
  | generated {past : List Action} {p : Pair} (h : PairRun past p) (m : ReplicationMessage)
      (hfresh : Fresh p.server m) :
      PairRun (past ++ [.generated m]) {p with server := generate p.server m}

end Steps

/-! ### What has been pulled -/

/-- The client has the messages of the shard up to its position. -/
structure Pulled (shardId : ByteString) (p : Pair) : Prop where
  increasing : Increasing p.server.tailer.messages
  received : p.client.received =
    (p.ofShard shardId).filter fun m => decide (m.sequence ≤ p.client.position)
  position : p.client.position = 0 ∨ ∃ m ∈ p.ofShard shardId, m.sequence = p.client.position

section Feed
variable {log : List ReplicationMessage} {shardId : ByteString} {p : Pair}

theorem messagesAfter_taken (hlog : Increasing log) (shardId : ByteString) (position : UInt64)
    {n : ℕ} (hpos : 0 < n) :
    let left := messagesAfter log shardId position
    messagesAfter log shardId (lastSequence position (left.take n)) = left.drop n := by
  intro left
  by_cases hn : n < left.length
  · exact messagesAfter_page hlog shardId position hpos hn
  · rw [List.take_of_length_le (Nat.le_of_not_lt hn), List.drop_of_length_le (Nat.le_of_not_lt hn)]
    have hbehind : ∀ m ∈ left, position < m.sequence := by
      intro m hm
      exact (of_decide_eq_true (List.mem_filter.mp hm).2).2
    rw [messagesAfter_later log shardId (lastSequence_ge hbehind)]
    by_cases hleft : left = []
    · show left.filter _ = []
      rw [hleft]
      rfl
    · have hsorted : (left ++ []).Pairwise fun m m' : ReplicationMessage =>
          m.sequence < m'.sequence := by
        rw [List.append_nil]
        exact hlog.messagesAfter shardId position
      have hnone := filter_behind_last hleft hsorted position
      rwa [List.append_nil] at hnone

theorem upTo_append_after (hlog : Increasing log) (shardId : ByteString) (position : UInt64) :
    ((log.filter fun m => decide (m.shardId = shardId)).filter fun m =>
        decide (m.sequence ≤ position)) ++ messagesAfter log shardId position =
      log.filter fun m => decide (m.shardId = shardId) := by
  rw [messagesAfter_eq]
  have hsorted := hlog shardId
  generalize (log.filter fun m => decide (m.shardId = shardId)) = l at hsorted
  induction l with
  | nil => rfl
  | cons m l ih =>
    obtain ⟨hm, hl⟩ := List.pairwise_cons.mp hsorted
    by_cases hle : m.sequence ≤ position
    · rw [List.filter_cons_of_pos (by simpa using hle), List.filter_cons_of_neg
        (by simpa using hle), List.cons_append, ih hl]
    · have hlt : position < m.sequence := by
        rw [UInt64.lt_iff_toNat_lt]
        rw [UInt64.le_iff_toNat_le] at hle
        omega
      have hnone : l.filter (fun m' => decide (m'.sequence ≤ position)) = [] := by
        rw [List.filter_eq_nil_iff]
        intro m' hm' hle'
        rw [decide_eq_true_eq, UInt64.le_iff_toNat_le] at hle'
        have hless := hm m' hm'
        rw [UInt64.lt_iff_toNat_lt] at hless hlt
        omega
      have hall : l.filter (fun m' => decide (position < m'.sequence)) = l := by
        rw [List.filter_eq_self]
        intro m' hm'
        have hless := hm m' hm'
        rw [UInt64.lt_iff_toNat_lt] at hless hlt
        rw [decide_eq_true_eq, UInt64.lt_iff_toNat_lt]
        omega
      rw [List.filter_cons_of_neg (by simpa using hle), hnone, List.nil_append,
        List.filter_cons_of_pos (by simpa using hlt), hall]

theorem page_spec (p : Pair) (shardId : ByteString) (maxCount : UInt32) :
    let n := (effectiveCount maxCount).toNat
    let left := messagesAfter p.server.tailer.messages shardId p.client.position
    (p.page shardId maxCount).messages = left.take n ∧
      ((p.page shardId maxCount).hasMore = true ↔ n < left.length) ∧
      (p.page shardId maxCount).lastSequence = lastSequence p.client.position (left.take n) :=
  fetchPage_spec (mock_readsFirst p.server.tailer.messages) shardId p.client.position
    (effectiveCount_range maxCount).2

theorem Pulled.received_append (h : Pulled shardId p) :
    p.client.received ++ messagesAfter p.server.tailer.messages shardId p.client.position =
      p.ofShard shardId := by
  rw [h.received]
  exact upTo_append_after h.increasing shardId p.client.position

theorem Pulled.fetch (h : Pulled shardId p) (maxCount : UInt32) :
    Pulled shardId (p.fetch shardId maxCount) := by
  obtain ⟨hmessages, -, hlast⟩ := page_spec p shardId maxCount
  obtain ⟨hpos, -⟩ := effectiveCount_range maxCount
  have hbehind := messagesAfter_taken h.increasing shardId p.client.position hpos
  refine ⟨h.increasing, ?_, ?_⟩
  · have hsplit := upTo_append_after h.increasing shardId (p.page shardId maxCount).lastSequence
    have hbefore := h.received_append
    rw [hlast, hbehind, ← hlast] at hsplit
    rw [← List.take_append_drop (effectiveCount maxCount).toNat
      (messagesAfter p.server.tailer.messages shardId p.client.position), ← List.append_assoc,
      ← hmessages] at hbefore
    exact (List.append_cancel_right (hsplit.trans hbefore.symm)).symm
  · show (p.page shardId maxCount).lastSequence = 0 ∨ ∃ m ∈ p.ofShard shardId,
      m.sequence = (p.page shardId maxCount).lastSequence
    rw [hlast]
    rcases List.eq_nil_or_concat' ((messagesAfter p.server.tailer.messages shardId
      p.client.position).take (effectiveCount maxCount).toNat) with hnil | ⟨front, last, htake⟩
    · rw [hnil]
      exact h.position
    · rw [htake, lastSequence_concat]
      refine .inr ⟨last, ?_, rfl⟩
      have hmem := List.mem_of_mem_take (htake ▸ List.mem_append_right front
        (List.mem_singleton_self last))
      obtain ⟨hlog, hboth⟩ := List.mem_filter.mp hmem
      exact List.mem_filter.mpr ⟨hlog, decide_eq_true (of_decide_eq_true hboth).1⟩

theorem Pulled.congr (h : Pulled shardId p) {p' : Pair}
    (hmessages : p'.server.tailer.messages = p.server.tailer.messages)
    (hposition : p'.client.position = p.client.position)
    (hreceived : p'.client.received = p.client.received) : Pulled shardId p' := by
  have hshard : p'.ofShard shardId = p.ofShard shardId := by
    unfold Pair.ofShard
    rw [hmessages]
  refine ⟨hmessages ▸ h.increasing, ?_, ?_⟩
  · rw [hreceived, hshard, hposition]
    exact h.received
  · rw [hshard, hposition]
    exact h.position

theorem handle_messages (lagText : UInt64 → UInt64 → UInt64 → ByteString) (order : Orders)
    (server : Server) (r : Request) :
    (handle lagText order server r).2.tailer.messages = server.tailer.messages := by
  unfold handle
  cases r with
  | start epoch =>
    unfold executeStart
    dsimp only
    split <;> rfl
  | stop epoch =>
    unfold executeStop
    dsimp only
    split <;> rfl
  | _ => rfl

theorem increasing_snoc {m : ReplicationMessage} (h : Increasing log)
    (hfresh : ∀ earlier ∈ log, earlier.shardId = m.shardId → earlier.sequence < m.sequence) :
    Increasing (log ++ [m]) := by
  intro shardId
  rw [List.filter_append, List.pairwise_append]
  refine ⟨h shardId, ?_, ?_⟩
  · exact (List.pairwise_singleton _ m).sublist List.filter_sublist
  · intro earlier hearlier later hlater
    obtain ⟨hlog, hshard⟩ := List.mem_filter.mp hearlier
    obtain ⟨hm, hshard'⟩ := List.mem_filter.mp hlater
    obtain rfl := List.mem_singleton.mp hm
    exact hfresh earlier hlog ((of_decide_eq_true hshard).trans (of_decide_eq_true hshard').symm)

theorem Pulled.position_lt (h : Pulled shardId p) {m : ReplicationMessage}
    (hfresh : Fresh p.server m) (hm : m.shardId = shardId) : p.client.position < m.sequence := by
  rcases h.position with hzero | ⟨last, hlast, hposition⟩
  · rw [hzero]
    exact hfresh.1
  · obtain ⟨hlog, hshard⟩ := List.mem_filter.mp hlast
    rw [← hposition]
    exact hfresh.2 last hlog ((of_decide_eq_true hshard).trans hm.symm)

theorem Pulled.generated (h : Pulled shardId p) {m : ReplicationMessage}
    (hfresh : Fresh p.server m) : Pulled shardId {p with server := generate p.server m} := by
  have hshard : Pair.ofShard shardId {p with server := generate p.server m} =
      p.ofShard shardId ++ [m].filter fun m => decide (m.shardId = shardId) :=
    List.filter_append _ _
  have hlater : ([m].filter fun m => decide (m.shardId = shardId)).filter
      (fun m => decide (m.sequence ≤ p.client.position)) = [] := by
    rw [List.filter_eq_nil_iff]
    intro later hmem hle
    obtain ⟨hm, heq⟩ := List.mem_filter.mp hmem
    obtain rfl := List.mem_singleton.mp hm
    have hlt := h.position_lt hfresh (of_decide_eq_true heq)
    rw [decide_eq_true_eq, UInt64.le_iff_toNat_le] at hle
    rw [UInt64.lt_iff_toNat_lt] at hlt
    omega
  refine ⟨increasing_snoc h.increasing hfresh.2, ?_, ?_⟩
  · rw [hshard, List.filter_append, hlater, List.append_nil]
    exact h.received
  · rw [hshard]
    rcases h.position with hzero | ⟨last, hlast, hposition⟩
    · exact .inl hzero
    · exact .inr ⟨last, List.mem_append_left _ hlast, hposition⟩

end Feed

/-! ### What is accepted -/

/-- The answer to a report that is accepted. -/
def acknowledgement (shardId : ByteString) (appliedSequence : UInt64) : ByteString :=
  formatSuccess (lit "\x7b\"acknowledged\": true, \"shardId\": \"" ++ shardId ++
    lit "\", \"appliedSequence\": " ++ decimal appliedSequence.toNat ++ lit "\x7d")

/-- The tracker knows the client's reports, and has accepted all of them. -/
structure Acknowledged (shardId : ByteString) (p : Pair) : Prop where
  applied : (getState p.server.tracker shardId).lastApplied = p.client.reported
  reported_le : p.client.reported ≤ p.client.position
  generated : ∀ m ∈ p.ofShard shardId,
    m.sequence ≤ (getState p.server.tracker shardId).lastGenerated
  responses : ∀ response ∈ p.client.responses, ∃ appliedSequence,
    response = acknowledgement shardId appliedSequence

section Reports
variable {shardId : ByteString} {p : Pair}

theorem executeCheckpoint_accepted {t : MockSequenceNumberTracker} {sequence : UInt64}
    (hshard : shardId ≠ []) (happlied : (getState t shardId).lastApplied < sequence)
    (hgenerated : sequence ≤ (getState t shardId).lastGenerated) :
    executeCheckpoint t shardId sequence =
      (acknowledgement shardId sequence, updateApplied t shardId sequence) := by
  have hzero : sequence ≠ 0 := by
    rintro rfl
    rw [UInt64.lt_iff_toNat_lt] at happlied
    exact absurd happlied (Nat.not_lt_zero _)
  have hvalid := (CheckpointReceiver.validate_accepted_iff shardId sequence
    (getState t shardId)).mpr ⟨happlied, hgenerated⟩
  unfold executeCheckpoint CheckpointReceiver.receive
  rw [if_neg hshard, if_neg hzero]
  dsimp only
  rw [if_pos hvalid]
  dsimp only
  rw [hvalid, if_neg Bool.noConfusion]
  rfl

theorem Acknowledged.fetch (h : Acknowledged shardId p) (maxCount : UInt32) :
    Acknowledged shardId (p.fetch shardId maxCount) := by
  refine ⟨h.applied, ?_, h.generated, h.responses⟩
  obtain ⟨-, -, hlast⟩ := page_spec p shardId maxCount
  have hbehind : ∀ m ∈ (messagesAfter p.server.tailer.messages shardId p.client.position).take
      (effectiveCount maxCount).toNat, p.client.position < m.sequence := by
    intro m hm
    exact (of_decide_eq_true (List.mem_filter.mp (List.mem_of_mem_take hm)).2).2
  have hge := lastSequence_ge hbehind
  rw [← hlast] at hge
  exact UInt64.le_trans h.reported_le hge

theorem Acknowledged.report (h : Acknowledged shardId p) (hpulled : Pulled shardId p)
    (hshard : shardId ≠ []) (hnews : p.client.position ≠ p.client.reported) :
    Acknowledged shardId (p.report shardId) := by
  have hlt : p.client.reported < p.client.position :=
    UInt64.lt_of_le_of_ne h.reported_le (Ne.symm hnews)
  have hgenerated : p.client.position ≤ (getState p.server.tracker shardId).lastGenerated := by
    rcases hpulled.position with hzero | ⟨m, hm, hposition⟩
    · rw [hzero, UInt64.lt_iff_toNat_lt] at hlt
      exact absurd hlt (Nat.not_lt_zero _)
    · rw [← hposition]
      exact h.generated m hm
  have haccepted := executeCheckpoint_accepted hshard (h.applied ▸ hlt) hgenerated
  have hknown : (getState p.server.tracker shardId).lastGenerated ≠ 0 := by
    intro hzero
    rw [hzero, UInt64.le_iff_toNat_le] at hgenerated
    rw [UInt64.lt_iff_toNat_lt] at hlt
    exact absurd (hlt.trans_le hgenerated) (Nat.not_lt_zero _)
  unfold Pair.report
  rw [haccepted]
  refine ⟨applied_updateApplied hknown, UInt64.le_refl _, ?_, ?_⟩
  · intro m hm
    dsimp only
    rw [generated_updateApplied]
    exact h.generated m hm
  · intro response hresponse
    rcases List.mem_append.mp hresponse with hold | hlast
    · exact h.responses response hold
    · exact ⟨p.client.position, List.mem_singleton.mp hlast⟩

/-- Only resets and reports for the shard change what the tracker knows of it. -/
theorem getState_handle (lagText : UInt64 → UInt64 → UInt64 → ByteString) (order : Orders)
    (server : Server) {r : Request} (h : ¬ Action.interferes shardId (.other r)) :
    getState (handle lagText order server r).2.tracker shardId =
      getState server.tracker shardId := by
  unfold handle
  cases r with
  | start epoch =>
    unfold executeStart
    dsimp only
    split <;> rfl
  | stop epoch =>
    unfold executeStop
    dsimp only
    split <;> rfl
  | status => rfl
  | feed => rfl
  | reset => exact absurd trivial h
  | checkpoint reported sequence =>
    dsimp only
    rcases executeCheckpoint_cases server.tracker reported sequence with hsame | ⟨-, -, hnext⟩
    · rw [hsame]
    · rw [hnext]
      exact getState_updateApplied_of_ne (Ne.symm h) sequence

theorem Acknowledged.other (h : Acknowledged shardId p)
    (lagText : UInt64 → UInt64 → UInt64 → ByteString) (order : Orders) {r : Request}
    (hr : ¬ Action.interferes shardId (.other r)) :
    Acknowledged shardId {p with server := (handle lagText order p.server r).2} := by
  have hstate := getState_handle lagText order p.server hr
  refine ⟨?_, h.reported_le, ?_, h.responses⟩
  · dsimp only
    rw [hstate]
    exact h.applied
  · intro m hm
    dsimp only
    rw [hstate]
    unfold Pair.ofShard at hm
    dsimp only at hm
    rw [handle_messages] at hm
    exact h.generated m hm

theorem Acknowledged.generated_step (h : Acknowledged shardId p) {m : ReplicationMessage}
    (hfresh : Fresh p.server m) :
    Acknowledged shardId {p with server := generate p.server m} := by
  have hstate : getState (generate p.server m).tracker shardId =
      if shardId = m.shardId then ⟨m.shardId, m.sequence,
        (getState p.server.tracker m.shardId).lastApplied,
        if (getState p.server.tracker m.shardId).lastApplied ≤ m.sequence then
          m.sequence - (getState p.server.tracker m.shardId).lastApplied else 0⟩
      else getState p.server.tracker shardId := getState_addShard _ _
  refine ⟨?_, h.reported_le, ?_, h.responses⟩
  · dsimp only
    rw [hstate]
    split
    next hshard =>
      rw [← hshard]
      exact h.applied
    next => exact h.applied
  · intro m' hm'
    obtain ⟨hlog, heq⟩ := List.mem_filter.mp hm'
    have hshard' := of_decide_eq_true heq
    dsimp only
    rw [hstate]
    rcases List.mem_append.mp hlog with hold | hnew
    · split
      next hshard => exact UInt64.le_of_lt (hfresh.2 m' hold (hshard'.trans hshard))
      next => exact h.generated m' (List.mem_filter.mpr ⟨hold, heq⟩)
    · obtain rfl := List.mem_singleton.mp hnew
      rw [if_pos hshard'.symm]
      exact UInt64.le_refl _

end Reports

/-! ### Runs -/

section Runs
variable {shardId : ByteString} {lagText : UInt64 → UInt64 → UInt64 → ByteString} {order : Orders}
  {past : List Action} {p : Pair}

theorem PairRun.consistent (h : PairRun shardId lagText order past p) : Consistent p.server := by
  induction h with
  | start =>
    intro shardId state hlookup
    cases hlookup
  | fetch _ _ ih => exact ih
  | @report _ p _ _ ih =>
    have hnext : Consistent
        (handle lagText order p.server (.checkpoint shardId p.client.position)).2 := ih.request _
    exact hnext
  | other _ r ih => exact ih.request r
  | generated _ m hfresh ih => exact ih.generate hfresh

theorem PairRun.pulled (h : PairRun shardId lagText order past p) : Pulled shardId p := by
  induction h with
  | start => exact ⟨fun _ => List.Pairwise.nil, rfl, .inl rfl⟩
  | fetch _ maxCount ih => exact ih.fetch maxCount
  | report _ _ ih => exact ih.congr rfl rfl rfl
  | @other _ p _ r ih => exact ih.congr (handle_messages lagText order p.server r) rfl rfl
  | generated _ m hfresh ih => exact ih.generated hfresh

theorem PairRun.acknowledged (h : PairRun shardId lagText order past p) (hshard : shardId ≠ [])
    (hothers : ∀ a ∈ past, ¬ a.interferes shardId) : Acknowledged shardId p := by
  induction h with
  | start => exact ⟨rfl, UInt64.le_refl _, nofun, nofun⟩
  | fetch _ maxCount ih =>
    exact (ih fun a ha => hothers a (List.mem_append_left _ ha)).fetch maxCount
  | report hrun hnews ih =>
    exact (ih fun a ha => hothers a (List.mem_append_left _ ha)).report hrun.pulled hshard hnews
  | other _ r ih =>
    exact (ih fun a ha => hothers a (List.mem_append_left _ ha)).other lagText order
      (hothers _ (List.mem_append_right _ (List.mem_singleton_self _)))
  | generated _ m hfresh ih =>
    exact (ih fun a ha => hothers a (List.mem_append_left _ ha)).generated_step hfresh

/-- However the client's pages and reports, the requests of others and new
messages follow one another, the client has received exactly the messages of
the shard up to its position, each once and in order, and all of them after a
page without more. As long as nobody resets the tracker or reports for the
shard, each of its reports is acknowledged, the tracker shows what it has
reported last, and as pending what was generated since. -/
theorem client_keeps_up (shardId : ByteString) (hshard : shardId ≠ [])
    (lagText : UInt64 → UInt64 → UInt64 → ByteString) (order : Orders) (past : List Action)
    (p : Pair) (h : PairRun shardId lagText order past p) :
    p.client.received =
        (p.ofShard shardId).filter (fun m => decide (m.sequence ≤ p.client.position)) ∧
      (∀ maxCount, (p.page shardId maxCount).hasMore = false →
        (p.fetch shardId maxCount).client.received = p.ofShard shardId) ∧
      ((∀ a ∈ past, ¬ a.interferes shardId) →
        (∀ response ∈ p.client.responses, ∃ appliedSequence,
          response = acknowledgement shardId appliedSequence) ∧
        let state := getState p.server.tracker shardId
        state.lastApplied = p.client.reported ∧
          state.pendingCount = state.lastGenerated - p.client.reported) := by
  have hpulled := h.pulled
  refine ⟨hpulled.received, ?_, ?_⟩
  · intro maxCount hlast
    obtain ⟨hmessages, hmore, -⟩ := page_spec p shardId maxCount
    have hall : ¬ (effectiveCount maxCount).toNat <
        (messagesAfter p.server.tailer.messages shardId p.client.position).length := by
      rw [← hmore, hlast]
      exact Bool.false_ne_true
    have hreceived : (p.fetch shardId maxCount).client.received =
        p.client.received ++ (p.page shardId maxCount).messages := rfl
    rw [hreceived, hmessages, List.take_of_length_le (Nat.le_of_not_lt hall)]
    exact hpulled.received_append
  · intro hothers
    have hack := h.acknowledged hshard hothers
    refine ⟨hack.responses, hack.applied, ?_⟩
    rw [← hack.applied]
    cases hlookup : p.server.tracker.lookup shardId with
    | none =>
      unfold getState
      rw [hlookup]
      rfl
    | some state =>
      unfold getState
      rw [hlookup]
      exact (h.consistent shardId state hlookup).pending

end Runs
def samplePast : List Action :=
  [.generated (inserted (lit "s") 1), .generated (inserted (lit "t") 2),
    .generated (inserted (lit "s") 3), .fetch 1, .other (.checkpoint (lit "t") 2), .report]

/-- One message is pulled and reported, another one waits. -/
def samplePair : Pair :=
  let server := generate (generate (generate .new (inserted (lit "s") 1))
    (inserted (lit "t") 2)) (inserted (lit "s") 3)
  let fetched := Pair.fetch (lit "s") ⟨server, Pair.new.client⟩ 1
  Pair.report (lit "s")
    {fetched with server := (handle noLag sampleOrder server (.checkpoint (lit "t") 2)).2}

theorem samplePair_run : PairRun (lit "s") noLag sampleOrder samplePast samplePair := by
  have hfirst : Fresh .new (inserted (lit "s") 1) := ⟨by decide, nofun⟩
  have hsecond : Fresh (generate .new (inserted (lit "s") 1)) (inserted (lit "t") 2) :=
    ⟨by decide, by decide⟩
  have hthird : Fresh (generate (generate .new (inserted (lit "s") 1)) (inserted (lit "t") 2))
      (inserted (lit "s") 3) := ⟨by decide, by decide⟩
  exact (((((PairRun.start.generated _ hfirst).generated _ hsecond).generated _ hthird).fetch
    1).other _).report (by decide)

theorem samplePair_keeps_up : samplePair.client.received = [inserted (lit "s") 1] ∧
    (getState samplePair.server.tracker (lit "s")).pendingCount = 2 := by
  have hkeeps := client_keeps_up (lit "s") (by decide) noLag sampleOrder samplePast samplePair
    samplePair_run
  have hothers : ∀ a ∈ samplePast, ¬ a.interferes (lit "s") := by
    unfold samplePast
    simp only [List.forall_mem_cons]
    exact ⟨nofun, nofun, nofun, nofun, by unfold Action.interferes; decide, nofun, nofun⟩
  exact ⟨hkeeps.1.trans (by decide), ((hkeeps.2.2 hothers).2).2.trans (by decide)⟩

end OpenArangoDBCore.RestHandler.RestReplicationHandler
