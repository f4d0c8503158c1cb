import OpenArangoDBCore.Replication.ShardWALTailer

/-!
# Sequences of polls of a WAL tailer

What a tailer returns depends only on what its shard has in the rest of the
log: every call cuts the next `maxEntries` of it. The tailers of all shards
share out a log, and a tailer that is restarted behind the reported position
goes on where the first one stopped.
-/

namespace OpenArangoDBCore.Replication.ShardWALTailer
open Sharding
variable (resolver : CollectionInfoResolver)

/-- One call of `poll` for every limit; the results, and the tailer after the last call. -/
def polls : ShardWALTailer → List UInt32 → List (List WALEntry) × ShardWALTailer
  | t, [] => ([], t)
  | t, maxEntries :: limits =>
    let (entries, t₁) := t.poll resolver maxEntries
    let (results, t₂) := polls t₁ limits
    (entries :: results, t₂)

/-- What the shard has in the rest of the log. -/
def ahead (t : ShardWALTailer) : List WALEntry :=
  t.iterator.rest.filter (keeps resolver t.shardIndex t.numberOfShards)

variable {resolver}

/-! ### The results are cut from the shard's part of the log -/

theorem poll_ahead (t : ShardWALTailer) (maxEntries : UInt32) (h : CacheOk resolver t) :
    ahead resolver t =
      (t.poll resolver maxEntries).1 ++ ahead resolver (t.poll resolver maxEntries).2 := by
  have hp := poll_spec t maxEntries h
  obtain ⟨passed, hrest, hres⟩ := hp.consumed
  unfold ahead
  rw [hp.shardIndex, hp.numberOfShards, hres, hrest, List.filter_append, List.nil_append]

theorem poll_take (t : ShardWALTailer) (maxEntries : UInt32) (h : CacheOk resolver t)
    (hs : t.stopped = false) :
    (t.poll resolver maxEntries).1 = (ahead resolver t).take maxEntries.toNat ∧
      ahead resolver (t.poll resolver maxEntries).2 =
        (ahead resolver t).drop maxEntries.toNat := by
  have hp := poll_spec t maxEntries h
  rw [poll_ahead t maxEntries h]
  have hlen := hp.bounded
  rcases hp.ended with hend | hstop | hfull
  · have hnil : ahead resolver (t.poll resolver maxEntries).2 = [] := by
      unfold ahead
      rw [hend, List.filter_nil]
    rw [hnil, List.append_nil, List.take_of_length_le hlen, List.drop_of_length_le hlen]
    exact ⟨rfl, rfl⟩
  · rw [hs] at hstop
    cases hstop
  · have heq : maxEntries.toNat = (t.poll resolver maxEntries).1.length := by omega
    rw [heq, List.take_left, List.drop_left]
    exact ⟨rfl, rfl⟩

structure PolledAll (resolver : CollectionInfoResolver) (limits : List UInt32)
    (t : ShardWALTailer) (r : List (List WALEntry) × ShardWALTailer) : Prop where
  bounded : List.Forall₂ (fun entries maxEntries => entries.length ≤ UInt32.toNat maxEntries)
    r.1 limits
  taken : r.1.flatten = (ahead resolver t).take (limits.map UInt32.toNat).sum
  left : ahead resolver r.2 = (ahead resolver t).drop (limits.map UInt32.toNat).sum
  cacheOk : CacheOk resolver r.2
  shardIndex : r.2.shardIndex = t.shardIndex
  numberOfShards : r.2.numberOfShards = t.numberOfShards
  wal : r.2.iterator.wal = t.iterator.wal
  stopped : r.2.stopped = false

theorem polls_spec (limits : List UInt32) (t : ShardWALTailer) (h : CacheOk resolver t)
    (hs : t.stopped = false) : PolledAll resolver limits t (polls resolver t limits) := by
  induction limits generalizing t with
  | nil => exact ⟨.nil, rfl, rfl, h, rfl, rfl, rfl, hs⟩
  | cons maxEntries limits ih =>
    have hp := poll_spec t maxEntries h
    obtain ⟨htake, hdrop⟩ := poll_take t maxEntries h hs
    have hrest := ih (t.poll resolver maxEntries).2 hp.cacheOk (hp.stopped.trans hs)
    refine ⟨.cons hp.bounded hrest.bounded, ?_, ?_, hrest.cacheOk,
      hrest.shardIndex.trans hp.shardIndex, hrest.numberOfShards.trans hp.numberOfShards,
      hrest.wal.trans hp.wal, hrest.stopped⟩
    · show (t.poll resolver maxEntries).1 ++
        (polls resolver (t.poll resolver maxEntries).2 limits).1.flatten = _
      rw [hrest.taken, hdrop, htake, List.map_cons, List.sum_cons, List.take_add]
    · show ahead resolver (polls resolver (t.poll resolver maxEntries).2 limits).2 = _
      rw [hrest.left, hdrop, List.drop_drop, List.map_cons, List.sum_cons]

theorem polls_append (t : ShardWALTailer) (limits more : List UInt32) :
    polls resolver t (limits ++ more) =
      ((polls resolver t limits).1 ++ (polls resolver (polls resolver t limits).2 more).1,
        (polls resolver (polls resolver t limits).2 more).2) := by
  induction limits generalizing t with
  | nil => rfl
  | cons maxEntries limits ih =>
    simp only [List.cons_append, polls, ih]

theorem new_cacheOk (shardIndex numberOfShards : UInt32) (iterator : WALIterator) :
    CacheOk resolver (new shardIndex numberOfShards iterator) := by
  intro name info h
  cases h

/-! ### The tailers of all shards -/

theorem poll_shortens (t : ShardWALTailer) (maxEntries : UInt32) (h : CacheOk resolver t)
    (hs : t.stopped = false) (hpos : 0 < maxEntries) :
    (t.poll resolver maxEntries).2.iterator.rest.length ≤ t.iterator.rest.length - 1 := by
  have hp := poll_spec t maxEntries h
  obtain ⟨passed, hrest, hres⟩ := hp.consumed
  rw [UInt32.lt_iff_toNat_lt, UInt32.toNat_zero] at hpos
  rcases hp.ended with hend | hstop | hfull
  · rw [hend]
    exact Nat.zero_le _
  · rw [hs] at hstop
    cases hstop
  · rw [hres, List.nil_append] at hfull
    have hsome := hfull.trans (List.length_filter_le _ _)
    have hlen := congrArg List.length hrest
    rw [List.length_append] at hlen
    omega

theorem polls_drain (limits : List UInt32) (t : ShardWALTailer) (h : CacheOk resolver t)
    (hs : t.stopped = false) (hpos : ∀ maxEntries ∈ limits, 0 < maxEntries)
    (hlen : t.iterator.rest.length ≤ limits.length) :
    (polls resolver t limits).2.iterator.rest = [] := by
  induction limits generalizing t with
  | nil => exact List.eq_nil_of_length_eq_zero (Nat.le_zero.mp hlen)
  | cons maxEntries limits ih =>
    have hp := poll_spec t maxEntries h
    have hshort := poll_shortens t maxEntries h hs (hpos _ List.mem_cons_self)
    apply ih (t.poll resolver maxEntries).2 hp.cacheOk (hp.stopped.trans hs)
    · intro m hm
      exact hpos m (List.mem_cons_of_mem _ hm)
    · rw [List.length_cons] at hlen
      omega

def isSatelliteOf (resolver : CollectionInfoResolver) (entry : WALEntry) : Bool :=
  (resolver entry.collectionName).elim false fun info => isSatellite info.replicationFactor

def shardOf (numberOfShards : UInt32) (entry : WALEntry) : UInt32 :=
  if numberOfShards ≤ 1 then 0 else computeShardIndex entry.documentKey numberOfShards

theorem shardOf_lt {numberOfShards : UInt32} (hn : 0 < numberOfShards) (entry : WALEntry) :
    shardOf numberOfShards entry < numberOfShards := by
  unfold shardOf
  split
  · exact hn
  · exact UInt32.mod_lt _ hn

theorem keeps_shardOf {shardIndex numberOfShards : UInt32} (hi : shardIndex < numberOfShards)
    (entry : WALEntry) : keeps resolver shardIndex numberOfShards entry =
      (!isSatelliteOf resolver entry && decide (shardOf numberOfShards entry = shardIndex)) := by
  unfold keeps shardOf isSatelliteOf
  split
  next hone =>
    have hzero : (0 : UInt32) = shardIndex := by
      rw [UInt32.lt_iff_toNat_lt] at hi
      rw [UInt32.le_iff_toNat_le, UInt32.toNat_one] at hone
      apply UInt32.toNat_inj.mp
      rw [UInt32.toNat_zero]
      omega
    simp [hzero]
  next => rfl

/-- Every entry that is not of a satellite collection is returned by the tailer
of its shard and no other, in the order of the log. -/
theorem tailers_share_out_log (resolver : CollectionInfoResolver) (wal : List WALEntry)
    (numberOfShards : UInt32) (hn : 0 < numberOfShards) (limits : UInt32 → List UInt32)
    (hdrained : ∀ i < numberOfShards,
      (polls resolver (new i numberOfShards (.new wal)) (limits i)).2.iterator.rest = []) :
    (∀ entry, shardOf numberOfShards entry < numberOfShards) ∧
      ∀ i < numberOfShards,
        (polls resolver (new i numberOfShards (.new wal)) (limits i)).1.flatten =
          wal.filter (fun entry => !isSatelliteOf resolver entry &&
            decide (shardOf numberOfShards entry = i)) ∧
        List.Forall₂ (fun entries maxEntries => entries.length ≤ UInt32.toNat maxEntries)
          (polls resolver (new i numberOfShards (.new wal)) (limits i)).1 (limits i) := by
  refine ⟨shardOf_lt hn, ?_⟩
  intro i hi
  have hcache : CacheOk resolver (new i numberOfShards (.new wal)) := new_cacheOk _ _ _
  have hp := polls_spec (limits i) _ hcache rfl
  refine ⟨?_, hp.bounded⟩
  have hleft : ahead resolver (polls resolver (new i numberOfShards (.new wal)) (limits i)).2 =
      [] := by
    unfold ahead
    rw [hdrained i hi, List.filter_nil]
  rw [hp.left, List.drop_eq_nil_iff] at hleft
  rw [hp.taken, List.take_of_length_le hleft]
  exact List.filter_congr fun entry _ => keeps_shardOf hi entry

/-- Keys of both shards of two, and an entry of the satellite collection "sat". -/
def sampleLog : List WALEntry :=
  [⟨1, 0, lit "c", lit "a", .kInsert, []⟩, ⟨2, 0, lit "sat", lit "b", .kInsert, []⟩,
    ⟨3, 0, lit "c", lit "b", .kInsert, []⟩]

def sampleResolver : CollectionInfoResolver := fun name =>
  if name = lit "sat" then some ⟨0, 1⟩ else none

theorem tailers_share_out_sampleLog :
    (∀ entry, shardOf 2 entry < 2) ∧ ∀ i < 2,
      (polls sampleResolver (new i 2 (.new sampleLog)) [1, 1, 1]).1.flatten =
        sampleLog.filter (fun entry => !isSatelliteOf sampleResolver entry &&
          decide (shardOf 2 entry = i)) ∧
      List.Forall₂ (fun entries maxEntries => entries.length ≤ UInt32.toNat maxEntries)
        (polls sampleResolver (new i 2 (.new sampleLog)) [1, 1, 1]).1 [1, 1, 1] :=
  tailers_share_out_log sampleResolver sampleLog 2 (by decide) (fun _ => [1, 1, 1]) fun _ _ =>
    polls_drain _ _ (new_cacheOk _ _ _) rfl (by simp) (Nat.le_refl _)

/-! ### Stop and restart -/

/-- The log is read in the order of its sequence numbers, and no entry left has a
smaller one than the reported position. -/
structure Ordered (t : ShardWALTailer) (rest : List WALEntry) : Prop where
  rising : rest.Pairwise fun a b => a.sequenceNumber < b.sequenceNumber
  behind : ∀ entry ∈ rest, t.lastProcessedSeq ≤ entry.sequenceNumber

theorem examine_last (t : ShardWALTailer) (entry : WALEntry) (h : CacheOk resolver t)
    (hle : t.lastProcessedSeq ≤ entry.sequenceNumber) :
    (t.examine resolver entry).2.lastProcessedSeq = entry.sequenceNumber := by
  obtain ⟨-, cache, ht, hc⟩ := isSatelliteEntry_spec h entry
  obtain ⟨-, cache', ht', -⟩ := isSatelliteEntry_spec hc entry
  have hlast : (t.isSatelliteEntry resolver entry).2.lastProcessedSeq = t.lastProcessedSeq := by
    rw [ht]
  have hlast' : ((t.isSatelliteEntry resolver entry).2.isSatelliteEntry resolver
      entry).2.lastProcessedSeq = t.lastProcessedSeq := by
    rw [ht', hlast]
  unfold examine
  dsimp only
  split
  · -- a kept entry has just been made the position
    rw [if_neg (UInt64.lt_irrefl _)]
  · split
    next => rfl
    next hnot =>
      rw [hlast'] at hnot ⊢
      exact UInt64.le_antisymm hle (UInt64.not_lt.mp hnot)

/-- The position behind `passed` entries. -/
def positionAfter (position : UInt64) (passed : List WALEntry) : UInt64 :=
  (passed.getLast?.map WALEntry.sequenceNumber).getD position

theorem positionAfter_append (position : UInt64) (passed more : List WALEntry) :
    positionAfter position (passed ++ more) =
      positionAfter (positionAfter position passed) more := by
  unfold positionAfter
  rw [List.getLast?_append]
  cases more.getLast? with
  | none => rfl
  | some e => rfl

theorem Ordered.passed {t t' : ShardWALTailer} {passed rest : List WALEntry}
    (h : Ordered t (passed ++ rest))
    (hlast : t'.lastProcessedSeq = positionAfter t.lastProcessedSeq passed) :
    Ordered t' rest ∧ t.lastProcessedSeq ≤ t'.lastProcessedSeq := by
  obtain ⟨-, hrest, hacross⟩ := List.pairwise_append.mp h.rising
  rw [hlast]
  unfold positionAfter
  cases hp : passed.getLast? with
  | none =>
    refine ⟨⟨hrest, ?_⟩, UInt64.le_refl _⟩
    intro entry hentry
    rw [hlast, positionAfter, hp]
    exact h.behind entry (List.mem_append_right _ hentry)
  | some e =>
    have hmem := List.mem_of_getLast? hp
    refine ⟨⟨hrest, ?_⟩, h.behind e (List.mem_append_left _ hmem)⟩
    intro entry hentry
    rw [hlast, positionAfter, hp]
    exact UInt64.le_of_lt (hacross e hmem entry hentry)

theorem pollLoop_last (maxEntries : UInt32) (rest : List WALEntry) (t : ShardWALTailer)
    (result : List WALEntry) (h : CacheOk resolver t) (ho : Ordered t rest) :
    ∃ passed, rest = passed ++ (pollLoop resolver maxEntries rest t result).2.iterator.rest ∧
      (pollLoop resolver maxEntries rest t result).2.lastProcessedSeq =
        positionAfter t.lastProcessedSeq passed := by
  induction rest generalizing t result with
  | nil => exact ⟨[], rfl, rfl⟩
  | cons current rest ih =>
    by_cases hstop : t.stopped = true ∨ maxEntries.toNat ≤ result.length
    · rw [pollLoop_stop hstop]
      exact ⟨[], rfl, rfl⟩
    · have hseq := examine_last t current h (ho.behind current List.mem_cons_self)
      have hone : Ordered t ([current] ++ rest) := ho
      have hnext : Ordered (t.examine resolver current).2 rest := (hone.passed hseq).1
      obtain ⟨passed, hrest, hlast⟩ := ih (t.examine resolver current).2 _
        (examine_spec h current).2.2 hnext
      rw [pollLoop_step hstop]
      refine ⟨current :: passed, ?_, ?_⟩
      · rw [List.cons_append, ← hrest]
      · rw [hlast, hseq]
        exact (positionAfter_append t.lastProcessedSeq [current] passed).symm

theorem polls_last (limits : List UInt32) (t : ShardWALTailer) (h : CacheOk resolver t)
    (ho : Ordered t t.iterator.rest) :
    ∃ passed, t.iterator.rest = passed ++ (polls resolver t limits).2.iterator.rest ∧
      (polls resolver t limits).2.lastProcessedSeq = positionAfter t.lastProcessedSeq passed := by
  induction limits generalizing t with
  | nil => exact ⟨[], rfl, rfl⟩
  | cons maxEntries limits ih =>
    have hcache := (poll_spec t maxEntries h).cacheOk
    obtain ⟨passed, hrest, hlast⟩ := pollLoop_last maxEntries t.iterator.rest t [] h ho
    rw [hrest] at ho
    obtain ⟨more, hrest', hlast'⟩ := ih (t.poll resolver maxEntries).2 hcache (ho.passed hlast).1
    refine ⟨passed ++ more, ?_, ?_⟩
    · rw [List.append_assoc]
      exact hrest.trans (congrArg (passed ++ ·) hrest')
    · rw [positionAfter_append, ← hlast]
      exact hlast'

theorem polls_ordered (limits : List UInt32) (t : ShardWALTailer) (h : CacheOk resolver t)
    (ho : Ordered t t.iterator.rest) :
    Ordered (polls resolver t limits).2 (polls resolver t limits).2.iterator.rest ∧
      t.lastProcessedSeq ≤ (polls resolver t limits).2.lastProcessedSeq := by
  obtain ⟨passed, hrest, hlast⟩ := polls_last limits t h ho
  rw [hrest] at ho
  exact ho.passed hlast

variable (resolver) in
/-- The position before the first call and after every call. -/
def positions : ShardWALTailer → List UInt32 → List UInt64
  | t, [] => [t.lastProcessedSeq]
  | t, maxEntries :: limits =>
    t.lastProcessedSeq :: positions (t.poll resolver maxEntries).2 limits

theorem positions_between (limits : List UInt32) (t : ShardWALTailer) (h : CacheOk resolver t)
    (ho : Ordered t t.iterator.rest) :
    (positions resolver t limits).Pairwise (· ≤ ·) ∧ ∀ position ∈ positions resolver t limits,
      t.lastProcessedSeq ≤ position ∧ position ≤ (polls resolver t limits).2.lastProcessedSeq := by
  induction limits generalizing t with
  | nil =>
    refine ⟨List.pairwise_singleton _ _, ?_⟩
    intro position hposition
    rw [List.mem_singleton.mp hposition]
    exact ⟨UInt64.le_refl _, UInt64.le_refl _⟩
  | cons maxEntries limits ih =>
    have hcache := (poll_spec t maxEntries h).cacheOk
    obtain ⟨hnext, hle⟩ := polls_ordered [maxEntries] t h ho
    obtain ⟨hsorted, hbetween⟩ := ih (t.poll resolver maxEntries).2 hcache hnext
    constructor
    · refine List.pairwise_cons.mpr ⟨?_, hsorted⟩
      intro position hposition
      exact UInt64.le_trans hle (hbetween position hposition).1
    · intro position hposition
      cases List.mem_cons.mp hposition with
      | inl hfirst =>
        rw [hfirst]
        exact ⟨UInt64.le_refl _, (polls_ordered (maxEntries :: limits) t h ho).2⟩
      | inr hlater =>
        exact ⟨UInt64.le_trans hle (hbetween position hlater).1, (hbetween position hlater).2⟩

theorem new_ordered (shardIndex numberOfShards : UInt32) {wal : List WALEntry}
    (hwal : wal.Pairwise fun a b => a.sequenceNumber < b.sequenceNumber) :
    Ordered (new shardIndex numberOfShards (.new wal)) wal :=
  ⟨hwal, fun _ _ => UInt64.zero_le⟩

/-- A fresh tailer of the same log, positioned behind the reported position. -/
def restarted (shardIndex numberOfShards : UInt32) (wal : List WALEntry) (position : UInt64) :
    ShardWALTailer :=
  (new shardIndex numberOfShards (.new wal)).seekTo (position + 1)

theorem lt_succ_iff {x position : UInt64} (h : position < 18446744073709551615) :
    x < position + 1 ↔ x ≤ position := by
  rw [UInt64.lt_iff_toNat_lt] at h ⊢
  rw [UInt64.le_iff_toNat_le, UInt64.toNat_add, UInt64.toNat_one]
  have hmax : (18446744073709551615 : UInt64).toNat = 18446744073709551615 := rfl
  omega

theorem positionAfter_lt {passed : List WALEntry}
    (hmax : ∀ entry ∈ passed, entry.sequenceNumber < 18446744073709551615) :
    positionAfter 0 passed < 18446744073709551615 := by
  unfold positionAfter
  cases hp : passed.getLast? with
  | none => decide
  | some e => exact hmax e (List.mem_of_getLast? hp)

theorem restarted_last (shardIndex numberOfShards : UInt32) (wal : List WALEntry)
    {position : UInt64} (h : position < 18446744073709551615) :
    (restarted shardIndex numberOfShards wal position).lastProcessedSeq = position := by
  have hpos : 0 < position + 1 := (lt_succ_iff h).mpr UInt64.zero_le
  show (if 0 < position + 1 then position + 1 - 1 else 0) = position
  rw [if_pos hpos, UInt64.add_sub_cancel]

/-- Behind at least one entry, the restarted tailer finds what was left. -/
theorem seek_behind {passed rest : List WALEntry} (hne : passed ≠ [])
    (hwal : (passed ++ rest).Pairwise fun a b => a.sequenceNumber < b.sequenceNumber)
    (hmax : ∀ entry ∈ passed, entry.sequenceNumber < 18446744073709551615) :
    (passed ++ rest).dropWhile (fun e => e.sequenceNumber < positionAfter 0 passed + 1) = rest := by
  have hlast := positionAfter_lt hmax
  obtain ⟨init, e, rfl⟩ := (List.eq_nil_or_concat' passed).resolve_left hne
  have hpos : positionAfter 0 (init ++ [e]) = e.sequenceNumber := by
    rw [positionAfter_append]
    rfl
  rw [hpos] at hlast ⊢
  obtain ⟨hpassed, -, hacross⟩ := List.pairwise_append.mp hwal
  have hbelow : ∀ a ∈ init ++ [e], decide (a.sequenceNumber < e.sequenceNumber + 1) = true := by
    intro a ha
    rw [decide_eq_true_eq, lt_succ_iff hlast]
    cases List.mem_append.mp ha with
    | inl hinit =>
      have hlt := (List.pairwise_append.mp hpassed).2.2 a hinit e List.mem_cons_self
      exact UInt64.le_of_lt hlt
    | inr hend =>
      rw [List.mem_singleton.mp hend]
      exact UInt64.le_refl _
  rw [List.dropWhile_append_of_pos hbelow]
  cases rest with
  | nil => rfl
  | cons a rest =>
    have hlt := hacross e (List.mem_append_right _ List.mem_cons_self) a List.mem_cons_self
    apply List.dropWhile_cons_of_neg
    rw [decide_eq_true_eq, lt_succ_iff hlast]
    exact UInt64.not_le.mpr hlt

/-- Nothing has been polled yet, and the first entry is one of the shard and has
the sequence number zero, which is the position of a tailer at the beginning. -/
def BeforeZero (resolver : CollectionInfoResolver) (shardIndex numberOfShards : UInt32)
    (wal : List WALEntry) (before : List UInt32) : Prop :=
  (∃ entry ∈ wal.head?, entry.sequenceNumber = 0 ∧
    keeps resolver shardIndex numberOfShards entry = true) ∧ ∀ maxEntries ∈ before, maxEntries = 0

theorem sum_limits_zero (limits : List UInt32) :
    (limits.map UInt32.toNat).sum = 0 ↔ ∀ maxEntries ∈ limits, maxEntries = 0 := by
  rw [List.sum_eq_zero_iff]
  simp only [List.mem_map, forall_exists_index, and_imp, forall_apply_eq_imp_iff₂]
  constructor
  · intro h m hm
    exact UInt32.toNat_inj.mp (h m hm)
  · intro h m hm
    rw [h m hm]
    rfl

section Restart
variable {shardIndex numberOfShards : UInt32} {wal : List WALEntry}

theorem Ordered.dropWhile {t : ShardWALTailer} (h : Ordered t wal) (p : WALEntry → Bool) :
    Ordered t (wal.dropWhile p) :=
  ⟨h.rising.sublist (List.dropWhile_sublist p),
    fun entry hentry => h.behind entry ((List.dropWhile_sublist p).mem hentry)⟩

theorem dropWhile_zero {entry : WALEntry} {rest : List WALEntry} (hzero : entry.sequenceNumber = 0)
    (hwal : (entry :: rest).Pairwise fun a b => a.sequenceNumber < b.sequenceNumber) :
    (entry :: rest).dropWhile (fun e => e.sequenceNumber < positionAfter 0 [] + 1) = rest := by
  have hpass : decide (entry.sequenceNumber < positionAfter 0 [] + 1) = true := by
    rw [hzero]
    rfl
  rw [List.dropWhile_cons, if_pos hpass]
  cases rest with
  | nil => rfl
  | cons a rest =>
    have hlt := (List.pairwise_cons.mp hwal).1 a List.mem_cons_self
    apply List.dropWhile_cons_of_neg
    rw [decide_eq_true_eq, lt_succ_iff (by decide), UInt64.not_le, ← hzero]
    exact hlt

section Stop
variable {before : List UInt32} {r : List (List WALEntry) × ShardWALTailer}
  (hp : PolledAll resolver before (new shardIndex numberOfShards (.new wal)) r)
include hp

theorem PolledAll.ahead_eq :
    ahead resolver r.2 = r.2.iterator.rest.filter (keeps resolver shardIndex numberOfShards) := by
  unfold ahead
  rw [hp.shardIndex, hp.numberOfShards]
  rfl

theorem PolledAll.ahead_beforeZero
    (hzero : BeforeZero resolver shardIndex numberOfShards wal before) :
    ∃ entry rest, wal = entry :: rest ∧ entry.sequenceNumber = 0 ∧
      ahead resolver r.2 = entry :: rest.filter (keeps resolver shardIndex numberOfShards) := by
  obtain ⟨⟨entry, hhead, hseq, hkeep⟩, hlimits⟩ := hzero
  obtain ⟨rest, rfl⟩ := List.head?_eq_some_iff.mp hhead
  refine ⟨entry, rest, rfl, hseq, ?_⟩
  rw [hp.left, (sum_limits_zero before).mpr hlimits, List.drop_zero]
  exact List.filter_cons_of_pos hkeep

/-- A first entry of the shard that is still ahead has seen only zero limits. -/
theorem PolledAll.limits_zero {entry : WALEntry} {rest : List WALEntry}
    (hwal : wal = entry :: rest) (hrest : r.2.iterator.rest = wal)
    (hkeep : keeps resolver shardIndex numberOfShards entry = true) :
    ∀ maxEntries ∈ before, maxEntries = 0 := by
  have hleft := hp.left
  rw [hp.ahead_eq, hrest] at hleft
  have hlen := congrArg List.length hleft
  rw [List.length_drop] at hlen
  have hpos : 0 < (wal.filter (keeps resolver shardIndex numberOfShards)).length := by
    rw [hwal, List.filter_cons_of_pos hkeep]
    exact Nat.succ_pos _
  change (wal.filter (keeps resolver shardIndex numberOfShards)).length =
    (wal.filter (keeps resolver shardIndex numberOfShards)).length - _ at hlen
  apply (sum_limits_zero before).mp
  omega

/-- Where nothing has been passed and no kept entry with the number zero is
ahead, the first entry is not kept or has another number. -/
theorem PolledAll.zero_not_kept (hrest : r.2.iterator.rest = wal)
    (hzero : ¬ BeforeZero resolver shardIndex numberOfShards wal before)
    {entry : WALEntry} {rest : List WALEntry} (hwal : wal = entry :: rest)
    (hseq : entry.sequenceNumber = 0) :
    keeps resolver shardIndex numberOfShards entry = false := by
  cases hkeep : keeps resolver shardIndex numberOfShards entry with
  | false => rfl
  | true =>
    have hlimits := hp.limits_zero hwal hrest hkeep
    subst hwal
    exact absurd ⟨⟨entry, rfl, hseq, hkeep⟩, hlimits⟩ hzero

/-- The first entry would be both passed and ahead. -/
theorem PolledAll.not_beforeZero {passed : List WALEntry} (hne : passed ≠ [])
    (hsplit : wal = passed ++ r.2.iterator.rest)
    (hwal : wal.Pairwise fun a b => a.sequenceNumber < b.sequenceNumber) :
    ¬ BeforeZero resolver shardIndex numberOfShards wal before := by
  intro hzero
  obtain ⟨entry, rest, hcons, -, hleft⟩ := hp.ahead_beforeZero hzero
  rw [hp.ahead_eq] at hleft
  have hahead := List.mem_of_mem_filter (hleft ▸ List.mem_cons_self)
  have hpassed : entry ∈ passed := by
    cases passed with
    | nil => exact absurd rfl hne
    | cons e passed =>
      rw [hcons] at hsplit
      rw [(List.cons.inj hsplit).1]
      exact List.mem_cons_self
  rw [hsplit] at hwal
  exact UInt64.lt_irrefl _ ((List.pairwise_append.mp hwal).2.2 entry hpassed entry hahead)

end Stop

theorem head_not_mem {entry : WALEntry} {rest : List WALEntry}
    (hwal : (entry :: rest).Pairwise fun a b => a.sequenceNumber < b.sequenceNumber) :
    entry ∉ rest :=
  fun hmem => UInt64.lt_irrefl _ ((List.pairwise_cons.mp hwal).1 entry hmem)

/-- Only a kept first entry with the number zero is lost behind position zero. -/
theorem filter_dropWhile_zero {wal : List WALEntry}
    (hwal : wal.Pairwise fun a b => a.sequenceNumber < b.sequenceNumber)
    (hkeep : ∀ entry rest, wal = entry :: rest → entry.sequenceNumber = 0 →
      keeps resolver shardIndex numberOfShards entry = false) :
    (wal.dropWhile (fun e => e.sequenceNumber < positionAfter 0 [] + 1)).filter
      (keeps resolver shardIndex numberOfShards) =
        wal.filter (keeps resolver shardIndex numberOfShards) := by
  cases wal with
  | nil => rfl
  | cons entry rest =>
    by_cases hseq : entry.sequenceNumber = 0
    · have hpass := hkeep entry rest rfl hseq
      rw [dropWhile_zero hseq hwal, List.filter_cons_of_neg (by simp [hpass])]
    · rw [List.dropWhile_cons, if_neg]
      rw [decide_eq_true_eq, lt_succ_iff (by decide)]
      exact fun hle => hseq (UInt64.le_zero_iff.mp hle)

/-- What the restarted tailer has ahead, compared with the one that goes on. -/
theorem restarted_ahead (before : List UInt32)
    (hwal : wal.Pairwise fun a b => a.sequenceNumber < b.sequenceNumber)
    (hmax : ∀ entry ∈ wal, entry.sequenceNumber < 18446744073709551615) :
    let first := (polls resolver (new shardIndex numberOfShards (.new wal)) before).2
    let again := restarted shardIndex numberOfShards wal first.lastProcessedSeq
    again.lastProcessedSeq = first.lastProcessedSeq ∧ Ordered again again.iterator.rest ∧
    (BeforeZero resolver shardIndex numberOfShards wal before → ∃ entry,
      ahead resolver first = entry :: ahead resolver again ∧ entry ∉ ahead resolver again) ∧
    (¬ BeforeZero resolver shardIndex numberOfShards wal before →
      ahead resolver again = ahead resolver first) := by
  intro first again
  have hcache : CacheOk resolver (new shardIndex numberOfShards (.new wal)) := new_cacheOk _ _ _
  have hp := polls_spec before _ hcache rfl
  have ho := new_ordered shardIndex numberOfShards hwal
  obtain ⟨passed, hrest, hlast⟩ := polls_last before _ hcache ho
  have hfirst : first.lastProcessedSeq = positionAfter 0 passed := hlast
  have hsplit : wal = passed ++ first.iterator.rest := hrest
  have hposition : first.lastProcessedSeq < 18446744073709551615 := by
    rw [hfirst]
    apply positionAfter_lt
    intro entry hentry
    exact hmax entry (hsplit ▸ List.mem_append_left _ hentry)
  have hagain : again.lastProcessedSeq = first.lastProcessedSeq := restarted_last _ _ _ hposition
  have hseek : again.iterator.rest =
      wal.dropWhile (fun e => e.sequenceNumber < positionAfter 0 passed + 1) := by
    rw [← hfirst]
    rfl
  have hahead : ahead resolver again =
      again.iterator.rest.filter (keeps resolver shardIndex numberOfShards) := rfl
  by_cases hne : passed = []
  · subst hne
    have hwhole : first.iterator.rest = wal := hsplit.symm
    refine ⟨hagain, ?_, ?_, ?_⟩
    · rw [hseek]
      refine ⟨(ho.dropWhile _).rising, ?_⟩
      intro entry _
      rw [hagain, hfirst]
      exact UInt64.zero_le
    · intro hzero
      obtain ⟨entry, rest, rfl, hseq, hleft⟩ := hp.ahead_beforeZero hzero
      rw [dropWhile_zero hseq hwal] at hseek
      rw [hahead, hseek]
      exact ⟨entry, hleft, fun hmem => head_not_mem hwal (List.mem_of_mem_filter hmem)⟩
    · intro hzero
      have hsame : ahead resolver first =
          wal.filter (keeps resolver shardIndex numberOfShards) := by
        rw [← hwhole]
        exact hp.ahead_eq
      rw [hahead, hseek, hsame]
      exact filter_dropWhile_zero hwal fun entry rest => hp.zero_not_kept hwhole hzero
  · have hsame : again.iterator.rest = first.iterator.rest := by
      rw [hseek, hsplit]
      refine seek_behind hne (hsplit ▸ hwal) ?_
      intro entry hentry
      exact hmax entry (hsplit ▸ List.mem_append_left _ hentry)
    have hordered := (polls_ordered before _ hcache ho).1
    refine ⟨hagain, ⟨?_, ?_⟩, ?_, ?_⟩
    · rw [hsame]
      exact hordered.rising
    · rw [hsame, hagain]
      exact hordered.behind
    · intro hzero
      exact absurd hzero (hp.not_beforeZero hne hsplit hwal)
    · intro _
      rw [hahead, hsame]
      exact hp.ahead_eq.symm

theorem take_of_missing {entry : WALEntry} {l : List WALEntry} (hmem : entry ∉ l) (n : ℕ) :
    l.take n = (entry :: l).take n ↔ n = 0 := by
  cases n with
  | zero => simp
  | succ n =>
    apply iff_of_false
    · intro h
      rw [List.take_succ_cons] at h
      exact hmem (List.mem_of_mem_take (h ▸ List.mem_cons_self))
    · exact Nat.succ_ne_zero n

/-- Stop after the calls `before` and go on with a fresh tailer behind the
reported position: the results are those of one tailer, but for a first entry
with the sequence number zero. The reported position never decreases. -/
theorem restart_is_lossless_iff (resolver : CollectionInfoResolver)
    (shardIndex numberOfShards : UInt32) (wal : List WALEntry) (before after : List UInt32)
    (hwal : wal.Pairwise fun a b => a.sequenceNumber < b.sequenceNumber)
    (hmax : ∀ entry ∈ wal, entry.sequenceNumber < 18446744073709551615) :
    let start := new shardIndex numberOfShards (.new wal)
    let first := polls resolver start before
    let again := restarted shardIndex numberOfShards wal first.2.lastProcessedSeq
    let second := polls resolver again after
    (first.1.flatten ++ second.1.flatten = (polls resolver start (before ++ after)).1.flatten ↔
      ¬ (BeforeZero resolver shardIndex numberOfShards wal before ∧
        ∃ maxEntries ∈ after, maxEntries ≠ 0)) ∧
    (positions resolver start before ++ positions resolver again after).Pairwise (· ≤ ·) := by
  intro start first again second
  have hcache : CacheOk resolver start := new_cacheOk _ _ _
  have hcache' : CacheOk resolver again := hcache
  have hp := polls_spec before start hcache rfl
  have ho := new_ordered shardIndex numberOfShards hwal
  have hstop : again.lastProcessedSeq = first.2.lastProcessedSeq ∧
      Ordered again again.iterator.rest ∧
      (BeforeZero resolver shardIndex numberOfShards wal before → ∃ entry,
        ahead resolver first.2 = entry :: ahead resolver again ∧ entry ∉ ahead resolver again) ∧
      (¬ BeforeZero resolver shardIndex numberOfShards wal before →
        ahead resolver again = ahead resolver first.2) := restarted_ahead before hwal hmax
  obtain ⟨hlast, hordered, hmissing, hsame⟩ := hstop
  constructor
  · rw [polls_append, List.flatten_append, List.append_cancel_left_eq,
      (polls_spec after again hcache' rfl).taken,
      (polls_spec after first.2 hp.cacheOk hp.stopped).taken]
    by_cases hzero : BeforeZero resolver shardIndex numberOfShards wal before
    · obtain ⟨entry, hahead, hmem⟩ := hmissing hzero
      rw [hahead, take_of_missing hmem, sum_limits_zero]
      simp [hzero]
    · rw [hsame hzero]
      simp [hzero]
  · obtain ⟨hfirst, hbefore⟩ := positions_between before start hcache ho
    obtain ⟨hsecond, hafter⟩ := positions_between after again hcache' hordered
    refine List.pairwise_append.mpr ⟨hfirst, hsecond, ?_⟩
    intro a ha b hb
    have hle := (hafter b hb).1
    rw [hlast] at hle
    exact UInt64.le_trans (hbefore a ha).2 hle

theorem restart_of_sampleLog :
    let start := new 0 1 (.new sampleLog)
    let first := polls sampleResolver start [1]
    let again := restarted 0 1 sampleLog first.2.lastProcessedSeq
    let second := polls sampleResolver again [5]
    first.1.flatten ++ second.1.flatten = (polls sampleResolver start ([1] ++ [5])).1.flatten ∧
      (positions sampleResolver start [1] ++ positions sampleResolver again [5]).Pairwise
        (· ≤ ·) := by
  intro start first again second
  obtain ⟨hlossless, hpositions⟩ :=
    restart_is_lossless_iff sampleResolver 0 1 sampleLog [1] [5] (by decide) (by decide)
  exact ⟨hlossless.mpr fun h => absurd (h.1.2 1 (by decide)) (by decide), hpositions⟩

/-- Stopped before the first call, the tailer reports 0, and `seekTo(1)` passes
over an entry that has the sequence number 0. -/
theorem restart_passes_over_zero :
    let wal : List WALEntry := [⟨0, 0, lit "c", lit "a", .kInsert, []⟩]
    let start := new 0 1 (.new wal)
    let first := polls sampleResolver start []
    let second := polls sampleResolver (restarted 0 1 wal first.2.lastProcessedSeq) [5]
    first.1.flatten ++ second.1.flatten = [] ∧
      (polls sampleResolver start ([] ++ [5])).1.flatten = wal := by
  decide +kernel

end Restart

end OpenArangoDBCore.Replication.ShardWALTailer
