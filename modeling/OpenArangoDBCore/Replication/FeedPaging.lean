import OpenArangoDBCore.RestHandler.RestReplicationHandler

/-!
# Paging through the replication feed

A client asks for page after page, each behind the last sequence of the one
before. A page that has more is full, so every request but the last shortens
what is left of the shard by at least one message.
-/

namespace OpenArangoDBCore.Replication.FeedPaging
open RestHandler.RestReplicationHandler ReplicationFeedStream
variable {log : List ReplicationMessage} {nextBatch : NextBatch} {shardId : ByteString}

/-- The messages that the client receives with its requests from number `i`
on, when it asks for `counts i` messages in the request of this number;
`none` if it has not come to an end after so many requests. -/
def pull (nextBatch : NextBatch) (shardId : ByteString) (counts : ℕ → UInt32) :
    (requests : ℕ) → (i : ℕ) → (afterSequence : UInt64) → Option (List ReplicationMessage)
  | 0, _, _ => none
  | requests + 1, i, afterSequence =>
    let page := feedPage nextBatch shardId afterSequence (counts i)
    if page.hasMore then
      (pull nextBatch shardId counts requests (i + 1) page.lastSequence).map fun later =>
        page.messages ++ later
    else some page.messages

/-- Sequences increase strictly within each shard. -/
def Increasing (log : List ReplicationMessage) : Prop :=
  ∀ shardId, (log.filter fun m => decide (m.shardId = shardId)).Pairwise fun m m' =>
    m.sequence < m'.sequence

/-! ### One page -/

theorem messagesAfter_eq (log : List ReplicationMessage) (shardId : ByteString)
    (afterSequence : UInt64) : messagesAfter log shardId afterSequence =
      (log.filter fun m => decide (m.shardId = shardId)).filter fun m =>
        decide (afterSequence < m.sequence) := by
  rw [messagesAfter, List.filter_filter]
  refine List.filter_congr fun m _ => ?_
  rw [Bool.decide_and, Bool.and_comm]

theorem Increasing.messagesAfter (h : Increasing log) (shardId : ByteString)
    (afterSequence : UInt64) : (messagesAfter log shardId afterSequence).Pairwise fun m m' =>
      m.sequence < m'.sequence := by
  rw [messagesAfter_eq]
  exact (h shardId).filter _

theorem lastSequence_concat (afterSequence : UInt64) (messages : List ReplicationMessage)
    (m : ReplicationMessage) : lastSequence afterSequence (messages ++ [m]) = m.sequence := by
  rw [lastSequence, List.foldl_append]
  rfl

/-- Behind the last of some first messages come the others. -/
theorem filter_behind_last {first others : List ReplicationMessage} (hfirst : first ≠ [])
    (h : (first ++ others).Pairwise fun m m' => m.sequence < m'.sequence) (start : UInt64) :
    (first ++ others).filter (fun m => decide (lastSequence start first < m.sequence)) =
      others := by
  obtain ⟨front, last, rfl⟩ := (List.eq_nil_or_concat' first).resolve_left hfirst
  rw [lastSequence_concat, List.filter_append]
  obtain ⟨hfront, -, hacross⟩ := List.pairwise_append.mp h
  have hnone : (front ++ [last]).filter (fun m => decide (last.sequence < m.sequence)) = [] := by
    rw [List.filter_eq_nil_iff]
    intro m hm hlater
    rw [decide_eq_true_eq, UInt64.lt_iff_toNat_lt] at hlater
    rcases List.mem_append.mp hm with hearlier | hself
    · have hlt := (List.pairwise_append.mp hfront).2.2 m hearlier last (List.mem_singleton_self _)
      rw [UInt64.lt_iff_toNat_lt] at hlt
      omega
    · rw [List.mem_singleton.mp hself] at hlater
      omega
  have hall : others.filter (fun m => decide (last.sequence < m.sequence)) = others := by
    rw [List.filter_eq_self]
    intro m hm
    exact decide_eq_true (hacross last (by simp) m hm)
  rw [hnone, hall, List.nil_append]

/-- A request behind a later sequence skips what lies between. -/
theorem messagesAfter_later (log : List ReplicationMessage) (shardId : ByteString)
    {afterSequence later : UInt64} (h : afterSequence ≤ later) :
    messagesAfter log shardId later =
      (messagesAfter log shardId afterSequence).filter fun m => decide (later < m.sequence) := by
  rw [messagesAfter, messagesAfter, List.filter_filter]
  refine List.filter_congr fun m _ => ?_
  rw [UInt64.le_iff_toNat_le] at h
  simp only [← Bool.decide_and, decide_eq_decide, UInt64.lt_iff_toNat_lt]
  constructor
  · rintro ⟨hshard, hlater⟩
    exact ⟨hlater, hshard, by omega⟩
  · rintro ⟨hlater, hshard, -⟩
    exact ⟨hshard, hlater⟩

theorem lastSequence_ge {afterSequence : UInt64} {messages : List ReplicationMessage}
    (h : ∀ m ∈ messages, afterSequence < m.sequence) :
    afterSequence ≤ lastSequence afterSequence messages := by
  rcases List.eq_nil_or_concat' messages with rfl | ⟨front, last, rfl⟩
  · exact UInt64.le_refl _
  · rw [lastSequence_concat]
    exact UInt64.le_of_lt (h last (by simp))

/-- What is left after the first `n` messages that were left. -/
theorem messagesAfter_page (hlog : Increasing log) (shardId : ByteString) (afterSequence : UInt64)
    {n : ℕ} (hpos : 0 < n) (hn : n < (messagesAfter log shardId afterSequence).length) :
    let left := messagesAfter log shardId afterSequence
    messagesAfter log shardId (lastSequence afterSequence (left.take n)) = left.drop n := by
  intro left
  have hsplit : left.take n ++ left.drop n = left := List.take_append_drop n left
  have hbehind : ∀ m ∈ left.take n, afterSequence < m.sequence := by
    intro m hm
    have hmem := (List.mem_filter.mp (List.mem_of_mem_take hm)).2
    exact (of_decide_eq_true hmem).2
  have hfirst : left.take n ≠ [] := by
    rw [← List.length_pos_iff_ne_nil, List.length_take]
    exact lt_min hpos (hpos.trans hn)
  have hsorted : (left.take n ++ left.drop n).Pairwise fun m m' => m.sequence < m'.sequence := by
    rw [hsplit]
    exact hlog.messagesAfter shardId afterSequence
  rw [messagesAfter_later log shardId (lastSequence_ge hbehind)]
  show left.filter _ = _
  have hfilter := filter_behind_last hfirst hsorted afterSequence
  rwa [hsplit] at hfilter

/-- What a page of `count` messages is, when `count` is not zero. -/
theorem fetchPage_spec (h : ReadsFirst log nextBatch) (shardId : ByteString)
    (afterSequence : UInt64) {count : UInt32} (hcount : count.toNat ≤ 10000) :
    let left := messagesAfter log shardId afterSequence
    let page := fetchPage nextBatch shardId afterSequence count
    page.messages = left.take count.toNat ∧ (page.hasMore = true ↔ count.toNat < left.length) ∧
      page.lastSequence = lastSequence afterSequence (left.take count.toNat) := by
  intro left page
  have hnext : (count + 1).toNat = count.toNat + 1 := by
    rw [UInt32.toNat_add, UInt32.toNat_one, Nat.mod_eq_of_lt (by omega)]
  have hpos : 0 < count + 1 := by
    rw [UInt32.lt_iff_toNat_lt, hnext]
    exact Nat.succ_pos _
  have hbatch : nextBatch shardId afterSequence (count + 1) = left.take (count.toNat + 1) := by
    rw [h shardId afterSequence _ hpos, hnext]
  have hmessages : page.messages = left.take count.toNat := by
    show (if decide (count.toNat < (nextBatch shardId afterSequence (count + 1)).length) = true
      then _ else _) = _
    rw [hbatch, List.length_take, List.take_take, min_eq_left (Nat.le_succ _)]
    split
    next => rfl
    next hall =>
      rw [decide_eq_true_eq] at hall
      rw [List.take_of_length_le (by omega), List.take_of_length_le (by omega)]
  refine ⟨hmessages, ?_, ?_⟩
  · show decide (count.toNat < (nextBatch shardId afterSequence (count + 1)).length) = true ↔ _
    rw [hbatch, List.length_take, decide_eq_true_eq]
    omega
  · rw [← hmessages]
    rfl

/-! ### All pages -/

theorem pull_spec (h : ReadsFirst log nextBatch) (hlog : Increasing log) (counts : ℕ → UInt32)
    (requests i : ℕ) (afterSequence : UInt64)
    (hrequests : (messagesAfter log shardId afterSequence).length < requests) :
    pull nextBatch shardId counts requests i afterSequence =
      some (messagesAfter log shardId afterSequence) := by
  induction requests generalizing i afterSequence with
  | zero => exact absurd hrequests (Nat.not_lt_zero _)
  | succ requests ih =>
    obtain ⟨hpos, hceiling⟩ := effectiveCount_range (counts i)
    have hsorted := hlog.messagesAfter shardId afterSequence
    obtain ⟨hmessages, hmore, hlast⟩ := fetchPage_spec h shardId afterSequence hceiling
    unfold pull feedPage
    dsimp only
    rw [hmessages]
    split
    next hhas =>
      have hlong := hmore.mp hhas
      have hleft := messagesAfter_page hlog shardId afterSequence hpos hlong
      rw [hlast, ih, hleft, Option.map_some, List.take_append_drop]
      rw [hleft, List.length_drop]
      omega
    next hno =>
      rw [hmore] at hno
      rw [List.take_of_length_le (by omega)]

/-- Whatever it asks for in each request, the client comes to an end with
exactly the messages of the shard behind its start, each once and in order. -/
theorem feed_paging_complete (log : List ReplicationMessage) (hlog : Increasing log)
    (nextBatch : NextBatch) (hnext : ReadsFirst log nextBatch) (shardId : ByteString)
    (hshard : shardId ≠ []) (afterSequence : UInt64) (counts : ℕ → UInt32) :
    (∀ afterSequence maxCount, executeFeed nextBatch shardId afterSequence maxCount =
      formatSuccess (renderPage (feedPage nextBatch shardId afterSequence maxCount))) ∧
    ∃ enough, ∀ requests, enough ≤ requests →
      pull nextBatch shardId counts requests 0 afterSequence =
        some (log.filter fun m => decide (m.shardId = shardId ∧ afterSequence < m.sequence)) := by
  refine ⟨fun after count => executeFeed_eq nextBatch hshard after count,
    (messagesAfter log shardId afterSequence).length + 1, ?_⟩
  intro requests hrequests
  exact pull_spec hnext hlog counts requests 0 afterSequence hrequests

def sampleFeed : List ReplicationMessage :=
  [⟨lit "s", 1, lit "insert", lit "a"⟩, ⟨lit "t", 2, lit "insert", lit "b"⟩,
    ⟨lit "s", 3, lit "update", lit "c"⟩, ⟨lit "s", 4, lit "delete", lit "d"⟩]

theorem sampleFeed_increasing : Increasing sampleFeed := by
  intro shardId
  have hall : sampleFeed.Pairwise fun m m' => m.sequence < m'.sequence := by decide
  exact hall.sublist List.filter_sublist

/-- In pages of one message, then of as many as there are by default. -/
theorem sampleFeed_pulled : ∃ enough, ∀ requests, enough ≤ requests →
    pull (MockShardWALTailer.nextBatch sampleFeed) (lit "s") (fun i => if i = 0 then 1 else 0)
      requests 0 1 =
      some [⟨lit "s", 3, lit "update", lit "c"⟩, ⟨lit "s", 4, lit "delete", lit "d"⟩] :=
  (feed_paging_complete sampleFeed sampleFeed_increasing _ (mock_readsFirst sampleFeed) (lit "s")
    (by decide) 1 fun i => if i = 0 then 1 else 0).2

end OpenArangoDBCore.Replication.FeedPaging
