import OpenArangoDBCore.Basics
import OpenArangoDBCore.Lib.Stride
import Mathlib.Data.List.GetD

/-!
# Reads from followers (ReadFromFollower.cpp)

All shards draw from one round-robin counter, so between two calls the indices
of a shard move by the number of shards that have followers. Where this number
and the replica count have a common factor, some replicas are never read.
-/

namespace OpenArangoDBCore.Cluster
open Stride

structure ReplicaSelection where
  serverId : ByteString
  isFollower : Bool
  deriving DecidableEq

namespace ReadFromFollower

/-- `_roundRobinCounter` goes in and comes out. -/
def chooseReplica (counter : UInt64) (leader : ByteString) (followers : List ByteString) :
    ReplicaSelection × UInt64 :=
  if followers = [] then (⟨leader, false⟩, counter)
  else
    let totalReplicas := 1 + followers.length
    let index := counter.toNat % totalReplicas
    (if index = 0 then ⟨leader, false⟩ else ⟨followers.getD (index - 1) [], true⟩, counter + 1)

/-- One round of the loop of `getResponsibleServersReadFromFollower`. -/
def routeShard (shardLeaderMap : UnorderedMap ByteString ByteString)
    (shardFollowersMap : UnorderedMap ByteString (List ByteString))
    (state : UnorderedMap ByteString ByteString × UInt64) (shard : ByteString) :
    UnorderedMap ByteString ByteString × UInt64 :=
  match shardLeaderMap.lookup shard with
  | none => state
  | some leader =>
    let followers := (shardFollowersMap.lookup shard).getD []
    let (selection, counter) := chooseReplica state.2 leader followers
    (state.1.insert shard selection.serverId, counter)

/-- `shards` in the order of their iteration. -/
def getResponsibleServersReadFromFollower (counter : UInt64) (shards : List ByteString)
    (shardLeaderMap : UnorderedMap ByteString ByteString)
    (shardFollowersMap : UnorderedMap ByteString (List ByteString)) :
    UnorderedMap ByteString ByteString × UInt64 :=
  shards.foldl (routeShard shardLeaderMap shardFollowersMap) (∅, counter)

/-- The shards of a request with the servers that hold them: no shard is there
twice, and no server is a replica of a shard twice. -/
structure Topology where
  shards : List ByteString
  leaders : UnorderedMap ByteString ByteString
  followers : UnorderedMap ByteString (List ByteString)
  shards_nodup : shards.Nodup
  replicas_nodup : ∀ shard leader, leaders.lookup shard = some leader →
    (leader :: (followers.lookup shard).getD []).Nodup

namespace Topology
variable (top : Topology)

/-- The leader and the followers of a shard, if its leader is known. -/
def replicas (shard : ByteString) : List ByteString :=
  match top.leaders.lookup shard with
  | none => []
  | some leader => leader :: (top.followers.lookup shard).getD []

def hasFollowers (shard : ByteString) : Bool := 2 ≤ (top.replicas shard).length

/-- What one call adds to the counter. -/
def stride : ℕ := top.shards.countP top.hasFollowers

def route (counter : UInt64) : UnorderedMap ByteString ByteString × UInt64 :=
  getResponsibleServersReadFromFollower counter top.shards top.leaders top.followers

/-- The results of consecutive calls. -/
def results : ℕ → UInt64 → List (UnorderedMap ByteString ByteString)
  | 0, _ => []
  | M + 1, counter =>
    let (result, counter') := top.route counter
    result :: results M counter'

/-- How many of `M` calls map the shard to the server. -/
def chosen (M : ℕ) (counter : UInt64) (shard server : ByteString) : ℕ :=
  (top.results M counter).countP fun result => result.lookup shard = some server

/-- Reads are spread over the replicas of every shard. -/
structure SpreadsReads (M : ℕ) (counter : UInt64) : Prop where
  fair : ∀ shard ∈ top.shards, ∀ server ∈ top.replicas shard,
    M / (top.replicas shard).length - 1 ≤ top.chosen M counter shard server ∧
      top.chosen M counter shard server ≤ M ⌈/⌉ (top.replicas shard).length + 1
  routed : ∀ result ∈ top.results M counter, ∀ shard,
    ((result.lookup shard).isSome ↔ shard ∈ top.shards ∧ (top.leaders.lookup shard).isSome) ∧
      ∀ server, result.lookup shard = some server → server ∈ top.replicas shard

end Topology

/-! ### One call -/

theorem chooseReplica_serverId (counter : UInt64) (leader : ByteString)
    (followers : List ByteString) : (chooseReplica counter leader followers).1.serverId =
      (leader :: followers).getD (counter.toNat % (leader :: followers).length) [] := by
  unfold chooseReplica
  rw [List.length_cons, add_comm followers.length]
  split
  next hnone =>
    subst hnone
    rw [List.length_nil, add_zero, Nat.mod_one]
    rfl
  next =>
    dsimp only
    cases counter.toNat % (1 + followers.length) with
    | zero => rfl
    | succ index => rfl

theorem chooseReplica_counter (counter : UInt64) (leader : ByteString)
    (followers : List ByteString) : (chooseReplica counter leader followers).2 =
      counter + UInt64.ofNat (if 2 ≤ (leader :: followers).length then 1 else 0) := by
  unfold chooseReplica
  cases followers with
  | nil => simp
  | cons follower followers =>
    rw [if_neg (List.cons_ne_nil _ _), if_pos (by simp)]
    rfl

namespace Topology
variable {top : Topology} {shard server : ByteString} {counter : UInt64} {M : ℕ}

/-- The replica that a counter value stands for. -/
def pick (top : Topology) (shard : ByteString) (index : ℕ) : ByteString :=
  (top.replicas shard).getD (index % (top.replicas shard).length) []

theorem replicas_of_unknown (h : (top.leaders.lookup shard).isSome = false) :
    top.replicas shard = [] := by
  rw [Option.isSome_eq_false_iff, Option.isNone_iff_eq_none] at h
  rw [replicas, h]

theorem replicas_pos (h : (top.leaders.lookup shard).isSome) :
    0 < (top.replicas shard).length := by
  obtain ⟨leader, hleader⟩ := Option.isSome_iff_exists.mp h
  rw [replicas, hleader]
  exact Nat.succ_pos _

theorem nodup_replicas (top : Topology) (shard : ByteString) : (top.replicas shard).Nodup := by
  unfold replicas
  cases h : top.leaders.lookup shard with
  | none => exact List.nodup_nil
  | some leader => exact top.replicas_nodup shard leader h

theorem pick_mem (h : (top.leaders.lookup shard).isSome) (index : ℕ) :
    top.pick shard index ∈ top.replicas shard := by
  have hlt := Nat.mod_lt index (replicas_pos h)
  rw [pick, List.getD_eq_getElem _ _ hlt]
  exact List.getElem_mem hlt

abbrev step (top : Topology) := routeShard top.leaders top.followers

theorem step_counter (state : UnorderedMap ByteString ByteString × UInt64) (shard : ByteString) :
    (top.step state shard).2 = state.2 + UInt64.ofNat (if top.hasFollowers shard then 1 else 0) := by
  unfold step routeShard hasFollowers replicas
  cases h : top.leaders.lookup shard with
  | none => simp
  | some leader =>
    simp only [decide_eq_true_eq]
    exact chooseReplica_counter _ _ _

theorem step_lookup_of_ne {other : ByteString} (h : other ≠ shard)
    (state : UnorderedMap ByteString ByteString × UInt64) :
    (top.step state shard).1.lookup other = state.1.lookup other := by
  unfold step routeShard
  cases top.leaders.lookup shard with
  | none => rfl
  | some leader => exact AList.lookup_insert_ne h

theorem step_lookup (h : (top.leaders.lookup shard).isSome)
    (state : UnorderedMap ByteString ByteString × UInt64) :
    (top.step state shard).1.lookup shard = some (top.pick shard state.2.toNat) := by
  obtain ⟨leader, hleader⟩ := Option.isSome_iff_exists.mp h
  unfold step routeShard pick replicas
  rw [hleader]
  dsimp only
  rw [AList.lookup_insert, chooseReplica_serverId]

theorem step_unknown (h : (top.leaders.lookup shard).isSome = false)
    (state : UnorderedMap ByteString ByteString × UInt64) : top.step state shard = state := by
  rw [Option.isSome_eq_false_iff, Option.isNone_iff_eq_none] at h
  unfold step routeShard
  rw [h]

theorem foldl_counter (shards : List ByteString)
    (state : UnorderedMap ByteString ByteString × UInt64) :
    (shards.foldl top.step state).2 = state.2 + UInt64.ofNat (shards.countP top.hasFollowers) := by
  induction shards generalizing state with
  | nil => exact (UInt64.add_zero _).symm
  | cons shard shards ih =>
    rw [List.foldl_cons, ih, step_counter, List.countP_cons, UInt64.add_assoc, ← UInt64.ofNat_add,
      Nat.add_comm]

theorem foldl_lookup_of_not_mem {shards : List ByteString} (h : shard ∉ shards)
    (state : UnorderedMap ByteString ByteString × UInt64) :
    (shards.foldl top.step state).1.lookup shard = state.1.lookup shard := by
  induction shards generalizing state with
  | nil => rfl
  | cons other shards ih =>
    rw [List.mem_cons, not_or] at h
    rw [List.foldl_cons, ih h.2, step_lookup_of_ne h.1]

theorem foldl_lookup_of_unknown (h : (top.leaders.lookup shard).isSome = false)
    (shards : List ByteString) (state : UnorderedMap ByteString ByteString × UInt64) :
    (shards.foldl top.step state).1.lookup shard = state.1.lookup shard := by
  induction shards generalizing state with
  | nil => rfl
  | cons other shards ih =>
    rw [List.foldl_cons, ih]
    by_cases hother : shard = other
    · rw [← hother, step_unknown h]
    · exact step_lookup_of_ne hother state

/-! ### Consecutive calls -/

theorem route_counter (top : Topology) (counter : UInt64) :
    (top.route counter).2 = counter + UInt64.ofNat top.stride := foldl_counter top.shards _

/-- A shard reads the counter at an offset of its own, the same in every call. -/
theorem exists_offset (h : shard ∈ top.shards) (hknown : (top.leaders.lookup shard).isSome) :
    ∃ j, (j < top.stride ∨ (top.replicas shard).length = 1) ∧ ∀ counter,
      (top.route counter).1.lookup shard =
        some (top.pick shard (counter + UInt64.ofNat j).toNat) := by
  obtain ⟨before, after, hshards⟩ := List.append_of_mem h
  have hnodup := top.shards_nodup
  rw [hshards] at hnodup
  have hafter : shard ∉ after := (List.nodup_cons.mp (List.nodup_append.mp hnodup).2.1).1
  refine ⟨before.countP top.hasFollowers, ?_, ?_⟩
  · rw [stride, hshards, List.countP_append, List.countP_cons]
    have hpos := replicas_pos hknown
    by_cases hmany : top.hasFollowers shard
    · rw [if_pos hmany]
      exact .inl (by omega)
    · unfold hasFollowers at hmany
      rw [decide_eq_true_eq] at hmany
      exact .inr (by omega)
  · intro counter
    unfold route getResponsibleServersReadFromFollower
    rw [hshards, List.foldl_append, List.foldl_cons, foldl_lookup_of_not_mem hafter,
      step_lookup hknown, foldl_counter]

theorem pick_eq_iff {i : ℕ} (hi : i < (top.replicas shard).length) (index : ℕ) :
    top.pick shard index = (top.replicas shard)[i] ↔ index % (top.replicas shard).length = i := by
  have hlt := Nat.mod_lt index (Nat.zero_lt_of_lt hi)
  rw [pick, List.getD_eq_getElem _ _ hlt, (top.nodup_replicas shard).getElem_inj_iff]

theorem toNat_add_ofNat {n : ℕ} (h : counter.toNat + n < 2 ^ 64) :
    (counter + UInt64.ofNat n).toNat = counter.toNat + n := by
  rw [UInt64.toNat_add, UInt64.toNat_ofNat_of_lt' (by rw [UInt64.size]; omega),
    Nat.mod_eq_of_lt h]

theorem chosen_zero : top.chosen 0 counter shard server = 0 := rfl

theorem chosen_succ : top.chosen (M + 1) counter shard server =
    top.chosen M (counter + UInt64.ofNat top.stride) shard server +
      if (top.route counter).1.lookup shard = some server then 1 else 0 := by
  rw [← route_counter]
  unfold chosen
  rw [results, List.countP_cons]
  simp only [decide_eq_true_eq]

/-- The counter stays below its bound while calls are left. -/
theorem chosen_eq_visits (h : shard ∈ top.shards) (hknown : (top.leaders.lookup shard).isSome) :
    ∃ j, ∀ M counter, counter.toNat + M * top.stride ≤ 2 ^ 64 →
      ∀ i (hi : i < (top.replicas shard).length),
        top.chosen M counter shard (top.replicas shard)[i] =
          visits (top.replicas shard).length top.stride (counter.toNat + j) M i := by
  obtain ⟨j, hj, hlookup⟩ := exists_offset h hknown
  refine ⟨j, fun M => ?_⟩
  induction M with
  | zero =>
    intro counter _ i hi
    rw [chosen_zero, visits_zero]
  | succ M ih =>
    intro counter hwrap i hi
    rw [add_one_mul] at hwrap
    have hindex : (counter + UInt64.ofNat j).toNat % (top.replicas shard).length =
        (counter.toNat + j) % (top.replicas shard).length := by
      rcases hj with hj | hone
      · rw [toNat_add_ofNat (by omega)]
      · rw [hone, Nat.mod_one, Nat.mod_one]
    rw [chosen_succ, visits_succ]
    simp only [hlookup, Option.some.injEq, pick_eq_iff hi, hindex]
    congr 1
    rcases Nat.eq_zero_or_pos M with rfl | hmore
    · rw [chosen_zero, visits_zero]
    · have hbelow : counter.toNat + top.stride < 2 ^ 64 := by
        rcases Nat.eq_zero_or_pos top.stride with hzero | hpos
        · rw [hzero]
          exact counter.toNat_lt
        · have hle := Nat.le_mul_of_pos_left top.stride hmore
          omega
      have hnext := toNat_add_ofNat hbelow
      rw [ih _ (by omega) i hi, hnext, add_right_comm]

theorem results_route {result : UnorderedMap ByteString ByteString}
    (h : result ∈ top.results M counter) : ∃ counter', result = (top.route counter').1 := by
  induction M generalizing counter with
  | zero => cases h
  | succ M ih =>
    rcases List.mem_cons.mp h with rfl | hrest
    · exact ⟨counter, rfl⟩
    · exact ih hrest

theorem route_routed (top : Topology) (counter : UInt64) (shard : ByteString) :
    (((top.route counter).1.lookup shard).isSome ↔
      shard ∈ top.shards ∧ (top.leaders.lookup shard).isSome) ∧
    ∀ server, (top.route counter).1.lookup shard = some server →
      server ∈ top.replicas shard := by
  by_cases hmem : shard ∈ top.shards
  · cases hknown : (top.leaders.lookup shard).isSome with
    | true =>
      obtain ⟨j, -, hlookup⟩ := exists_offset hmem hknown
      rw [hlookup]
      refine ⟨iff_of_true rfl ⟨hmem, rfl⟩, ?_⟩
      intro server hserver
      rw [← Option.some.inj hserver]
      exact pick_mem hknown _
    | false =>
      have hnone : (top.route counter).1.lookup shard = none :=
        foldl_lookup_of_unknown hknown top.shards (∅, counter)
      rw [hnone]
      exact ⟨iff_of_false nofun fun h => Bool.false_ne_true h.2, nofun⟩
  · have hnone : (top.route counter).1.lookup shard = none :=
      foldl_lookup_of_not_mem hmem (∅, counter)
    rw [hnone]
    exact ⟨iff_of_false nofun fun h => hmem h.1, nofun⟩

/-- The reads of a shard are even over its replicas exactly where the number of
shards with followers has no factor in common with the number of its replicas,
or the calls are too few to tell. -/
theorem spreadsReads_iff (top : Topology) (M : ℕ) (counter : UInt64)
    (hwrap : counter.toNat + M * top.stride ≤ 2 ^ 64) : top.SpreadsReads M counter ↔
      ∀ shard ∈ top.shards, (top.leaders.lookup shard).isSome →
        let r := (top.replicas shard).length
        r.Coprime top.stride ∨
          M / r ≤ 1 ∧ M ⌈/⌉ (r / r.gcd top.stride) ≤ M ⌈/⌉ r + 1 := by
  constructor
  · intro hspreads shard hmem hknown
    obtain ⟨j, hvisits⟩ := chosen_eq_visits hmem hknown
    refine (evenly_iff (c := counter.toNat + j) (replicas_pos hknown)).mp ?_
    intro i hi
    rw [← hvisits M counter hwrap i hi]
    have hfair := hspreads.fair shard hmem _ (List.getElem_mem hi)
    exact ⟨by omega, hfair.2⟩
  · intro h
    refine ⟨?_, ?_⟩
    · intro shard hmem server hserver
      have hknown : (top.leaders.lookup shard).isSome := by
        by_contra hunknown
        rw [Bool.not_eq_true] at hunknown
        rw [replicas_of_unknown hunknown] at hserver
        cases hserver
      obtain ⟨i, hi, rfl⟩ := List.getElem_of_mem hserver
      obtain ⟨j, hvisits⟩ := chosen_eq_visits hmem hknown
      rw [hvisits M counter hwrap i hi]
      have heven := (evenly_iff (c := counter.toNat + j) (replicas_pos hknown)).mpr
        (h shard hmem hknown) i hi
      exact ⟨by omega, heven.2⟩
    · intro result hresult shard
      obtain ⟨counter', rfl⟩ := results_route hresult
      exact top.route_routed counter' shard

theorem pair_nodup (shard leader : ByteString)
    (h : ((∅ : UnorderedMap ByteString ByteString).insert (lit "s1") (lit "A")
      |>.insert (lit "s2") (lit "B")).lookup shard = some leader) :
    (leader :: (((∅ : UnorderedMap ByteString (List ByteString)).insert (lit "s1") [lit "B"]
      |>.insert (lit "s2") [lit "A"]).lookup shard).getD []).Nodup := by
  by_cases hsecond : shard = lit "s2"
  · subst hsecond
    rw [AList.lookup_insert] at h ⊢
    cases h
    decide
  · rw [AList.lookup_insert_ne hsecond] at h ⊢
    by_cases hfirst : shard = lit "s1"
    · subst hfirst
      rw [AList.lookup_insert] at h ⊢
      cases h
      decide
    · rw [AList.lookup_insert_ne hfirst] at h
      cases h

/-- Two servers, each the leader of one shard and the follower of the other. -/
def pair : Topology where
  shards := [lit "s1", lit "s2"]
  leaders := (∅ : UnorderedMap ByteString ByteString).insert (lit "s1") (lit "A")
    |>.insert (lit "s2") (lit "B")
  followers := (∅ : UnorderedMap ByteString (List ByteString)).insert (lit "s1") [lit "B"]
    |>.insert (lit "s2") [lit "A"]
  shards_nodup := by decide
  replicas_nodup := pair_nodup

theorem pair_spreads_three : pair.SpreadsReads 3 0 :=
  (spreadsReads_iff pair 3 0 (by decide)).mpr (by decide)

/-- The leader of the first shard gets every read, its follower none. -/
theorem pair_never_reads_follower : (0 : UInt64).toNat + 4 * pair.stride ≤ 2 ^ 64 ∧
    pair.chosen 4 0 (lit "s1") (lit "A") = 4 ∧ pair.chosen 4 0 (lit "s1") (lit "B") = 0 ∧
    ¬ pair.SpreadsReads 4 0 := by
  refine ⟨by decide, by decide, by decide, ?_⟩
  intro h
  exact absurd (h.fair (lit "s1") (by decide) (lit "A") (by decide)).2 (by decide)

end Topology
end ReadFromFollower
end OpenArangoDBCore.Cluster
