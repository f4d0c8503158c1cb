import OpenArangoDBCore.Lib.Commuting
import OpenArangoDBCore.RocksDBEngine.PartitionOrder

/-!
# The index that a parallel fill leaves (RocksDBBuilderIndexEE.cpp:34-105)

The tasks call one inserter, and their calls reach it in any order. An inserter
that does not mind the order of two pairs leaves the index that the pairs of
the range leave one after another, if the ranges do not overlap; where they do,
it has to bear the same pair twice.
-/

namespace OpenArangoDBCore.RocksDBEngine
open Commuting Segments

/-- The calls of all tasks, each under the number of its task. -/
abbrev Calls := List (ℕ × (ByteString × ByteString))

def CallOrder (tasks : List TaskResult) (calls : Calls) : Prop :=
  Merge (tasks.map TaskResult.passed) calls

section Contents
variable {S : Type} (indexInserter : S → ByteString × ByteString → S)

/-- What accepted calls make of an index. -/
def contents (index : S) (calls : Calls) : S :=
  (calls.map Prod.snd).foldl indexInserter index

/-- Pairs of different keys may come in any order. -/
def OrderFree : Prop :=
  ∀ index (p q : ByteString × ByteString), p.1 ≠ q.1 →
    indexInserter (indexInserter index p) q = indexInserter (indexInserter index q) p

/-- The pairs of the range, in the order of their keys. -/
def pairsWithin (snapshot : Snapshot) (lower upper : ByteString) :
    List (ByteString × ByteString) :=
  snapshot.pairs.filter fun p => (KeyRange.mk lower upper).holds p.1

def sequentialContents (index : S) (snapshot : Snapshot) (lower upper : ByteString) : S :=
  (pairsWithin snapshot lower upper).foldl indexInserter index

end Contents

/-! ### The pairs passed on -/

section Passed
variable {F : Type} (ops : FractionOps F) (config : IndexBuilderConfig) (env : FillEnv)
  (snapshot : Snapshot) (lower upper : ByteString)

/-- What the tasks pass on from the snapshot, if nothing goes wrong. -/
def passedPairs : List (List (ByteString × ByteString)) :=
  (partition ops lower upper config.numThreads).map fun range =>
    snapshot.pairs.filter fun p => range.holds p.1

variable {ops config env snapshot lower upper}

theorem snapshot_key_unique {p q : ByteString × ByteString} (hp : p ∈ snapshot.pairs)
    (hq : q ∈ snapshot.pairs) (h : p.1 = q.1) : p = q := by
  have hkeys : (snapshot.pairs.map Prod.fst).Nodup :=
    List.pairwise_map.mpr (snapshot.ascending.imp fun h => h.ne)
  exact List.inj_on_of_nodup_map hkeys hp hq h

theorem snapshot_nodup (snapshot : Snapshot) : snapshot.pairs.Nodup := by
  apply snapshot.ascending.imp
  intro p q hlt heq
  rw [heq] at hlt
  exact lt_irrefl _ hlt

theorem pairsWithin_nodup (snapshot : Snapshot) (lower upper : ByteString) :
    (pairsWithin snapshot lower upper).Nodup :=
  (snapshot_nodup snapshot).filter _

theorem fill_passes (h : (ParallelFill.fillIndexParallel ops config .kIdle env snapshot
    lower upper).value = true) :
    (ParallelFill.fillIndexParallel ops config .kIdle env snapshot lower upper).tasks.map
      TaskResult.passed = passedPairs ops config snapshot lower upper := by
  unfold passedPairs
  obtain ⟨hempty, -, hnone⟩ | ⟨htasks, hall⟩ := fillIndexParallel_true ops config .kIdle env snapshot
    lower upper h
  · rw [hempty, hnone]
    rfl
  · have hpassed : ∀ x ∈ (partition ops lower upper config.numThreads).zipIdx 0,
        (partitionTask env snapshot x.2 x.1).passed =
          snapshot.pairs.filter fun p => x.1.holds p.1 := by
      intro x hx
      refine partitionTask_true env snapshot x.2 x.1 (hall _ ?_)
      rw [htasks]
      exact List.mem_map.mpr ⟨x, hx, rfl⟩
    rw [htasks, List.map_map]
    conv_rhs => rw [← List.zipIdx_map_fst 0 (partition ops lower upper config.numThreads),
      List.map_map]
    exact List.map_congr_left hpassed

theorem mem_passedPairs {p : ByteString × ByteString} :
    p ∈ (passedPairs ops config snapshot lower upper).flatten ↔ p ∈ snapshot.pairs ∧
      ∃ range ∈ partition ops lower upper config.numThreads, range.holds p.1 := by
  unfold passedPairs
  rw [List.mem_flatten]
  constructor
  · rintro ⟨l, hl, hp⟩
    obtain ⟨range, hrange, rfl⟩ := List.mem_map.mp hl
    obtain ⟨hmem, hholds⟩ := List.mem_filter.mp hp
    exact ⟨hmem, range, hrange, of_decide_eq_true hholds⟩
  · rintro ⟨hp, range, hrange, hholds⟩
    exact ⟨_, List.mem_map.mpr ⟨range, hrange, rfl⟩,
      List.mem_filter.mpr ⟨hp, decide_eq_true hholds⟩⟩

theorem mem_passedPairs_within (hn : 1 ≤ config.numThreads)
    (hwithin : ∀ range ∈ partition ops lower upper config.numThreads, ∀ k, range.holds k →
      lower ≤ k ∧ (upper = [] ∨ k < upper)) (p : ByteString × ByteString) :
    p ∈ (passedPairs ops config snapshot lower upper).flatten ↔
      p ∈ pairsWithin snapshot lower upper := by
  have hn0 : config.numThreads ≠ 0 := by grind
  unfold pairsWithin
  rw [mem_passedPairs, List.mem_filter, decide_eq_true_eq]
  refine and_congr_right fun hp => ⟨?_, ?_⟩
  · rintro ⟨range, hrange, hholds⟩
    exact hwithin range hrange p.1 hholds
  · rintro ⟨hl, hu⟩
    exact partition_covers ops lower upper p.1 config.numThreads hn0 hl hu

theorem passedPairs_perm (hn : 1 ≤ config.numThreads)
    (h : RangesSeparate lower upper (partition ops lower upper config.numThreads)) :
    (passedPairs ops config snapshot lower upper).flatten.Perm
      (pairsWithin snapshot lower upper) := by
  obtain ⟨hpair, hwithin⟩ := h
  have hflat : (passedPairs ops config snapshot lower upper).flatten.Nodup := by
    unfold passedPairs
    rw [List.nodup_flatten, List.forall_mem_map, List.pairwise_map]
    refine ⟨fun range _ => (snapshot_nodup snapshot).filter _, hpair.imp ?_⟩
    intro range range' hsep p hp hp'
    exact hsep p.1 ⟨of_decide_eq_true (List.mem_filter.mp hp).2,
      of_decide_eq_true (List.mem_filter.mp hp').2⟩
  rw [List.perm_ext_iff_of_nodup hflat (pairsWithin_nodup snapshot lower upper)]
  exact mem_passedPairs_within hn hwithin

variable {S : Type} {indexInserter : S → ByteString × ByteString → S}

theorem OrderFree.exchangeable (h : OrderFree indexInserter)
    {l : List (ByteString × ByteString)} (hsub : l ⊆ snapshot.pairs) :
    Exchangeable indexInserter l := by
  intro p hp q hq index
  by_cases hkey : p.1 = q.1
  · rw [snapshot_key_unique (hsub hp) (hsub hq) hkey]
  · exact h index p q hkey

theorem passed_subset : (passedPairs ops config snapshot lower upper).flatten ⊆ snapshot.pairs :=
  fun _ hp => (mem_passedPairs.mp hp).1

theorem within_subset : pairsWithin snapshot lower upper ⊆ snapshot.pairs :=
  List.filter_subset_self _

theorem contents_passed (h : OrderFree indexInserter) {calls : Calls}
    (hcalls : Merge (passedPairs ops config snapshot lower upper) calls) (index : S) :
    contents indexInserter index calls =
      (passedPairs ops config snapshot lower upper).flatten.foldl indexInserter index :=
  (h.exchangeable passed_subset).foldl_eq hcalls.perm index

end Passed

/-! ### Ranges that overlap -/

/-- Counts its calls, and so minds neither order nor keys. -/
def countCalls (n : ℕ) (_ : ByteString × ByteString) : ℕ := n + 1

theorem foldl_countCalls (l : List (ByteString × ByteString)) (n : ℕ) :
    l.foldl countCalls n = n + l.length := by
  induction l generalizing n with
  | nil => rfl
  | cons p l ih =>
    rw [List.foldl_cons, ih, List.length_cons]
    unfold countCalls
    omega

theorem countCalls_orderFree : OrderFree countCalls := fun _ _ _ _ => rfl

def oneKey (k : ByteString) : Snapshot := ⟨[(k, [])], List.pairwise_singleton _ _⟩

theorem length_passed_oneKey (ranges : List KeyRange) (k : ByteString) :
    (ranges.map fun range => (oneKey k).pairs.filter fun p => range.holds p.1).flatten.length =
      ranges.countP fun range => range.holds k := by
  induction ranges with
  | nil => rfl
  | cons range ranges ih =>
    rw [List.map_cons, List.flatten_cons, List.length_append, ih, List.countP_cons, Nat.add_comm]
    congr 1
    unfold oneKey
    by_cases hk : range.holds k
    · rw [List.filter_cons_of_pos (by simpa using hk), if_pos (by simpa using hk)]
      rfl
    · rw [List.filter_cons_of_neg (by simpa using hk), if_neg (by simpa using hk)]
      rfl

theorem pairwise_of_countP_le {β : Type} (p : β → Bool) (l : List β) (h : l.countP p ≤ 1) :
    l.Pairwise fun a b => ¬ (p a = true ∧ p b = true) := by
  induction l with
  | nil => exact List.Pairwise.nil
  | cons a l ih =>
    rw [List.countP_cons] at h
    refine List.Pairwise.cons ?_ (ih (by omega))
    rintro b hb ⟨ha, hpb⟩
    have hpos : 0 < l.countP p := List.countP_pos_iff.mpr ⟨b, hb, hpb⟩
    rw [if_pos ha] at h
    omega

theorem separate_of_counts {lower upper : ByteString} {ranges : List KeyRange}
    (h : ∀ k, (ranges.countP fun range => range.holds k) =
      (pairsWithin (oneKey k) lower upper).length) : RangesSeparate lower upper ranges := by
  have hone : ∀ k, (pairsWithin (oneKey k) lower upper).length ≤ 1 := by
    intro k
    exact List.length_filter_le _ (oneKey k).pairs
  constructor
  · rw [List.pairwise_iff_getElem]
    intro i j hi hj hij k hboth
    have hpair := pairwise_of_countP_le (fun range : KeyRange => decide (range.holds k)) ranges
      ((h k).trans_le (hone k))
    exact List.pairwise_iff_getElem.mp hpair i j hi hj hij
      ⟨decide_eq_true hboth.1, decide_eq_true hboth.2⟩
  · intro range hrange k hk
    have hpos : 0 < ranges.countP fun range => range.holds k :=
      List.countP_pos_iff.mpr ⟨range, hrange, decide_eq_true hk⟩
    rw [h k] at hpos
    obtain ⟨p, hp⟩ := List.exists_mem_of_length_pos hpos
    obtain ⟨hmem, hin⟩ := List.mem_filter.mp hp
    rw [List.mem_singleton.mp hmem] at hin
    exact of_decide_eq_true hin

/-! ### Results -/

section Results
variable {F : Type} (ops : FractionOps F) (config : IndexBuilderConfig)
  (lower upper : ByteString)

theorem agreeable_value (snapshot : Snapshot) :
    (ParallelFill.fillIndexParallel ops config .kIdle agreeable snapshot
      lower upper).value = true := by
  simp only [ParallelFill.fillIndexParallel]
  rw [if_neg (not_not.mpr rfl)]
  split
  · rfl
  · have hsub := agreeable_submits snapshot 0 (partition ops lower upper config.numThreads)
    have hall : (submitTasks agreeable snapshot 0 (partition ops lower upper
        config.numThreads)).2.all (fun r => r.outcome = .returned true) = true := by
      rw [submitTasks_accepted agreeable snapshot 0 _ hsub, List.all_eq_true]
      intro r hr
      obtain ⟨x, -, rfl⟩ := List.mem_map.mp hr
      exact decide_eq_true (agreeable_task snapshot x.2 x.1)
    rw [if_neg (by rw [hsub]; simp), if_pos hall]

/-- Whatever the arithmetic gives: the ranges neither overlap nor leave the request
exactly if it is empty or the split points ascend from bound to bound. -/
theorem ranges_separate_iff_ascending (hn : 1 ≤ config.numThreads) :
    RangesSeparate lower upper (partition ops lower upper config.numThreads) ↔
      (upper ≠ [] ∧ upper ≤ lower) ∨
        Ascending lower (splitKeys ops lower upper config.numThreads.toNat) (upTo upper) := by
  have hn0 : config.numThreads ≠ 0 := by grind
  by_cases hempty : upper ≠ [] ∧ upper ≤ lower
  · have hnone : partition ops lower upper config.numThreads = [] := by
      unfold partition
      rw [if_neg hn0, if_pos hempty]
    rw [hnone]
    exact iff_of_true ⟨List.Pairwise.nil, fun r hr => absurd hr List.not_mem_nil⟩ (.inl hempty)
  · have hlo : (lower : WithTop ByteString) ≤ upTo upper := by
      by_cases hu : upper = []
      · rw [hu]
        exact le_top
      · exact ((lt_upTo lower upper).mpr (.inr (not_le.mp fun hle => hempty ⟨hu, hle⟩))).le
    rw [rangesSeparate_iff, partition_segments ops lower upper config.numThreads hn0 hempty,
      separate_iff_ascending hlo, or_iff_right hempty]

/-- Every fill that returns true leaves what the pairs of the range leave one
after another. -/
def FillsAsSequential : Prop :=
  ∀ (S : Type) (indexInserter : S → ByteString × ByteString → S), OrderFree indexInserter →
    ∀ (env : FillEnv) (snapshot : Snapshot) (calls : Calls) (index : S),
      let fill := ParallelFill.fillIndexParallel ops config .kIdle env snapshot lower upper
      fill.value = true → CallOrder fill.tasks calls →
        contents indexInserter index calls =
          sequentialContents indexInserter index snapshot lower upper

/-- A parallel fill leaves the index of a sequential one, for every snapshot,
every inserter that does not mind the order of different keys and every order
of the calls, exactly if the range is empty or the split points that the
arithmetic gives, rounded or not, ascend from bound to bound. -/
theorem fill_as_sequential_iff (hn : 1 ≤ config.numThreads) :
    FillsAsSequential ops config lower upper ↔ (upper ≠ [] ∧ upper ≤ lower) ∨
      Ascending lower (splitKeys ops lower upper config.numThreads.toNat) (upTo upper) := by
  rw [← ranges_separate_iff_ascending ops config lower upper hn]
  constructor
  · intro h
    apply separate_of_counts
    intro k
    obtain ⟨calls, hcalls⟩ := exists_merge (passedPairs ops config (oneKey k) lower upper)
    have hvalue := agreeable_value ops config lower upper (oneKey k)
    have horder : CallOrder (ParallelFill.fillIndexParallel ops config .kIdle agreeable
        (oneKey k) lower upper).tasks calls := by
      unfold CallOrder
      rw [fill_passes hvalue]
      exact hcalls
    have hcount := h ℕ countCalls countCalls_orderFree agreeable (oneKey k) calls 0 hvalue horder
    rw [contents_passed countCalls_orderFree hcalls, sequentialContents, foldl_countCalls,
      foldl_countCalls, Nat.zero_add, Nat.zero_add] at hcount
    rw [← hcount]
    exact (length_passed_oneKey _ k).symm
  · intro hsep S indexInserter hfree env snapshot calls index fill hvalue hcalls
    unfold CallOrder at hcalls
    rw [fill_passes hvalue] at hcalls
    rw [contents_passed hfree hcalls]
    exact (hfree.exchangeable within_subset).foldl_eq (passedPairs_perm hn hsep) index

theorem two_threads_as_sequential : FillsAsSequential exactOps ⟨2, 64, false⟩ (lit "a") [] :=
  (fill_as_sequential_iff exactOps ⟨2, 64, false⟩ (lit "a") [] (by decide)).mpr
    (.inr ⟨not_lt.mp List.le_append_left, le_top⟩)

/-! ### Whatever the fractions -/

theorem splitKeys_above {F : Type} (ops : FractionOps F) (n : ℕ) :
    ∀ s ∈ splitKeys ops lower [] n, lower ≤ s := by
  intro s hs
  obtain ⟨i, -, rfl⟩ := List.mem_map.mp hs
  exact not_lt.mp List.le_append_left

theorem chainRanges_above {splits : List ByteString} (hsplits : ∀ s ∈ splits, lower ≤ s)
    {prevBound : ByteString} (hprev : lower ≤ prevBound) :
    ∀ range ∈ chainRanges prevBound splits upper, lower ≤ range.lowerBound := by
  induction splits generalizing prevBound with
  | nil =>
    intro range hrange
    rw [List.mem_singleton.mp hrange]
    exact hprev
  | cons s rest ih =>
    intro range hrange
    rcases List.mem_cons.mp hrange with rfl | hrest
    · exact hprev
    · exact ih (fun s' hs' => hsplits s' (List.mem_cons_of_mem _ hs'))
        (hsplits s List.mem_cons_self) range hrest

theorem unbounded_ranges_within {F : Type} (ops : FractionOps F) (numPartitions : UInt32) :
    ∀ range ∈ partition ops lower [] numPartitions, ∀ k, range.holds k →
      lower ≤ k ∧ (([] : ByteString) = [] ∨ k < []) := by
  intro range hrange k hk
  refine ⟨?_, .inl rfl⟩
  unfold partition at hrange
  split at hrange
  · cases hrange
  · rw [if_neg (fun h => h.1 rfl)] at hrange
    split at hrange
    · rw [List.mem_singleton.mp hrange] at hk
      exact hk.1
    · exact (chainRanges_above lower [] (splitKeys_above lower ops _) le_rfl range hrange).trans
        hk.1

/-- From a lower bound to the end of the keys an inserter that also bears a
pair twice gives the sequential index with any arithmetic of the fractions,
rounded or not. -/
theorem unbounded_fill_as_sequential {F S : Type} (ops : FractionOps F)
    (hn : 1 ≤ config.numThreads) (indexInserter : S → ByteString × ByteString → S)
    (hfree : OrderFree indexInserter)
    (hrepeat : ∀ index p, indexInserter (indexInserter index p) p = indexInserter index p)
    (env : FillEnv) (snapshot : Snapshot) (calls : Calls) (index : S)
    (hvalue : (ParallelFill.fillIndexParallel ops config .kIdle env snapshot
      lower []).value = true)
    (hcalls : CallOrder (ParallelFill.fillIndexParallel ops config .kIdle env snapshot
      lower []).tasks calls) :
    contents indexInserter index calls =
      sequentialContents indexInserter index snapshot lower [] := by
  unfold CallOrder at hcalls
  rw [fill_passes hvalue] at hcalls
  rw [contents_passed hfree hcalls]
  exact foldl_same_members (hfree.exchangeable within_subset) (fun p _ index => hrepeat index p)
    (mem_passedPairs_within hn (unbounded_ranges_within lower ops config.numThreads)) index

end Results

def put (index : ByteString → Option ByteString) (p : ByteString × ByteString) :
    ByteString → Option ByteString :=
  Function.update index p.1 (some p.2)

/-- The second split point falls back below the first. -/
def fallingOps : FractionOps ℕ := ⟨fun i _ => i, fun lo _ _ => lo, fun i => if i = 1 then 255 else 0⟩

def betweenSplits : Snapshot := ⟨[(lit "az", lit "x")], List.pairwise_singleton _ _⟩

theorem put_twice_as_sequential :
    contents put (fun _ => none) [(2, (lit "az", lit "x")), (0, (lit "az", lit "x"))] =
      sequentialContents put (fun _ => none) betweenSplits (lit "a") [] := by
  have hpassed : (ParallelFill.fillIndexParallel fallingOps ⟨3, 64, false⟩ .kIdle agreeable
      betweenSplits (lit "a") []).tasks.map TaskResult.passed =
      [[(lit "az", lit "x")], [], [(lit "az", lit "x")]] := by decide +kernel
  refine unbounded_fill_as_sequential ⟨3, 64, false⟩ (lit "a") fallingOps (by decide) put ?_ ?_
    agreeable betweenSplits _ _ (by decide +kernel) ?_
  · intro index p q hne
    exact Function.update_comm hne _ _ index
  · intro index p
    exact Function.update_idem _ _ index
  · unfold CallOrder
    rw [hpassed]
    intro i
    match i with
    | 0 | 1 | 2 => rfl
    | i + 3 => simp

end OpenArangoDBCore.RocksDBEngine
