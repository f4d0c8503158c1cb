import OpenArangoDBCore.Lib.Segments
import OpenArangoDBCore.RocksDBEngine.RocksDBBuilderIndexEE

/-!
# What a parallel fill indexes (RocksDBBuilderIndexEE.cpp:34-105)

The tasks run at the same time, and what the inserter answers to one of them
may depend on the others; here every task brings the answers it gets, in the
order of its calls. Whatever the split points are, a fill that returns true
has passed every pair of the requested range to the inserter.
-/

namespace OpenArangoDBCore.RocksDBEngine
open Segments

structure Snapshot where
  pairs : List (ByteString × ByteString)
  ascending : pairs.Pairwise fun p q => p.1 < q.1

/-- An iterator over a snapshot, `rest` being the pairs from its position on. -/
structure IndexIterator where
  snapshot : Snapshot
  rest : List (ByteString × ByteString)

def IndexIterator.seek (it : IndexIterator) (key : ByteString) : IndexIterator :=
  ⟨it.snapshot, it.snapshot.pairs.dropWhile fun p => p.1 < key⟩

/- What `snapshotFactory` comes to for one task. -/
inductive Produced where
  | iterator
  | null
  | threw
  deriving DecidableEq, Repr

/- `accepts i`: the thread pool takes the `i`-th task; `inserts i n k v`: what
the inserter answers to the `n`-th call of that task. -/
structure FillEnv where
  accepts : ℕ → Bool
  produces : ℕ → KeyRange → Produced
  inserts : ℕ → ℕ → ByteString → ByteString → Outcome

/- The outcome of a task and the pairs it passed to the inserter. -/
structure TaskResult where
  outcome : Outcome
  passed : List (ByteString × ByteString)
  deriving DecidableEq

/-- `while (iterator->valid())`, by recursion on what the iterator has left. -/
def insertLoop (indexInserter : ℕ → ByteString → ByteString → Outcome) (upperBound : ByteString) :
    ℕ → List (ByteString × ByteString) → TaskResult
  | _, [] => ⟨.returned true, []⟩
  | n, (k, v) :: rest =>
    if upperBound ≠ [] ∧ upperBound ≤ k then ⟨.returned true, []⟩
    else match indexInserter n k v with
      | .returned true =>
        let later := insertLoop indexInserter upperBound (n + 1) rest
        ⟨later.outcome, (k, v) :: later.passed⟩
      | .returned false => ⟨.returned false, [(k, v)]⟩
      | .threw => ⟨.threw, [(k, v)]⟩

def partitionTask (env : FillEnv) (snapshot : Snapshot) (i : ℕ) (range : KeyRange) : TaskResult :=
  match env.produces i range with
  | .null => ⟨.returned false, []⟩
  | .threw => ⟨.threw, []⟩
  | .iterator =>
    let iterator : IndexIterator := ⟨snapshot, snapshot.pairs⟩
    insertLoop (env.inserts i) range.upperBound 0 (iterator.seek range.lowerBound).rest

/-- The submit loop from the `i`-th range on: whether every task was accepted,
and the results of the accepted ones. -/
def submitTasks (env : FillEnv) (snapshot : Snapshot) : ℕ → List KeyRange → Bool × List TaskResult
  | _, [] => (true, [])
  | i, range :: rest =>
    if env.accepts i then
      let later := submitTasks env snapshot (i + 1) rest
      (later.1, partitionTask env snapshot i range :: later.2)
    else (false, [])

structure FillResult where
  value : Bool
  state : BuildState
  tasks : List TaskResult

def ParallelFill.fillIndexParallel {F : Type} (ops : FractionOps F) (config : IndexBuilderConfig)
    (state : BuildState) (env : FillEnv) (snapshot : Snapshot)
    (keyRangeLower keyRangeUpper : ByteString) : FillResult :=
  if state ≠ .kIdle then ⟨false, state, []⟩
  else
    let partitions := partition ops keyRangeLower keyRangeUpper config.numThreads
    if partitions = [] ∧ 0 < config.numThreads then ⟨true, .kBuilding, []⟩
    else
      let submitted := submitTasks env snapshot 0 partitions
      if submitted.1 = false then ⟨false, .kFailed, submitted.2⟩
      else if submitted.2.all fun r => r.outcome = .returned true then
        ⟨true, .kBuilding, submitted.2⟩
      else ⟨false, .kFailed, submitted.2⟩

/-! ### Ranges as segments -/

/-- The empty upper bound is no bound. -/
def upTo (upperBound : ByteString) : WithTop ByteString :=
  if upperBound = [] then ⊤ else upperBound

def KeyRange.segment (range : KeyRange) : ByteString × WithTop ByteString :=
  (range.lowerBound, upTo range.upperBound)

def KeyRange.holds (range : KeyRange) (k : ByteString) : Prop :=
  range.lowerBound ≤ k ∧ (range.upperBound = [] ∨ k < range.upperBound)

instance (range : KeyRange) (k : ByteString) : Decidable (range.holds k) := by
  unfold KeyRange.holds
  infer_instance

theorem lt_upTo (k upperBound : ByteString) :
    (k : WithTop ByteString) < upTo upperBound ↔ upperBound = [] ∨ k < upperBound := by
  unfold upTo
  split
  next h => simp [h]
  next h => simp [h]

theorem holds_iff_inside (range : KeyRange) (k : ByteString) :
    range.holds k ↔ Inside k range.segment := by
  unfold KeyRange.holds Inside KeyRange.segment
  rw [lt_upTo]

theorem chainRanges_segments (prevBound upperBound : ByteString) (splits : List ByteString)
    (h : ∀ s ∈ splits, s ≠ []) : (chainRanges prevBound splits upperBound).map KeyRange.segment =
      segments prevBound splits (upTo upperBound) := by
  induction splits generalizing prevBound with
  | nil => rfl
  | cons s rest ih =>
    have hs := h s List.mem_cons_self
    have hrest := ih s fun x hx => h x (List.mem_cons_of_mem _ hx)
    simp only [chainRanges, segments, List.map_cons, hrest, KeyRange.segment, upTo, hs, if_false]

/-! ### What one task passes on -/

section Tasks
variable (env : FillEnv) (snapshot : Snapshot)

theorem takeWhile_eq_filter {β : Type} (p : β → Bool) (l : List β)
    (h : l.Pairwise fun a b => p b = true → p a = true) : l.takeWhile p = l.filter p := by
  induction l with
  | nil => rfl
  | cons a l ih =>
    obtain ⟨ha, hl⟩ := List.pairwise_cons.mp h
    by_cases hp : p a = true
    · rw [List.takeWhile_cons_of_pos hp, List.filter_cons_of_pos hp, ih hl]
    · rw [List.takeWhile_cons_of_neg hp, List.filter_cons_of_neg hp]
      symm
      apply List.filter_eq_nil_iff.mpr
      intro b hb hpb
      exact hp (ha b hb hpb)

theorem dropWhile_eq_filter {β : Type} (p : β → Bool) (l : List β)
    (h : l.Pairwise fun a b => p b = true → p a = true) :
    l.dropWhile p = l.filter fun a => !p a := by
  induction l with
  | nil => rfl
  | cons a l ih =>
    obtain ⟨ha, hl⟩ := List.pairwise_cons.mp h
    by_cases hp : p a = true
    · rw [List.dropWhile_cons_of_pos hp, List.filter_cons_of_neg (by simp [hp]), ih hl]
    · rw [List.dropWhile_cons_of_neg hp, List.filter_cons_of_pos (by simp [hp])]
      congr 1
      symm
      apply List.filter_eq_self.mpr
      intro b hb
      by_contra hpb
      exact hp (ha b hb (by simpa using hpb))

theorem insertLoop_true (inserts : ℕ → ByteString → ByteString → Outcome) (upperBound : ByteString)
    (n : ℕ) (rest : List (ByteString × ByteString))
    (h : (insertLoop inserts upperBound n rest).outcome = .returned true) :
    (insertLoop inserts upperBound n rest).passed =
      rest.takeWhile fun p => upperBound = [] ∨ p.1 < upperBound := by
  induction rest generalizing n with
  | nil => rfl
  | cons p rest ih =>
    obtain ⟨k, v⟩ := p
    by_cases hk : upperBound ≠ [] ∧ upperBound ≤ k
    · simp [insertLoop, hk]
    · have hp : upperBound = [] ∨ k < upperBound := by
        rw [← not_le]
        tauto
      rw [List.takeWhile_cons, if_pos (decide_eq_true hp)]
      simp only [insertLoop, if_neg hk] at h ⊢
      cases hi : inserts n k v with
      | threw => simp [hi] at h
      | returned b =>
        cases b with
        | false => simp [hi] at h
        | true =>
          simp only [hi] at h ⊢
          rw [ih (n + 1) h]

theorem insertLoop_accepted (inserts : ℕ → ByteString → ByteString → Outcome)
    (upperBound : ByteString) (n : ℕ) (rest : List (ByteString × ByteString))
    (h : ∀ m k v, inserts m k v = .returned true) :
    (insertLoop inserts upperBound n rest).outcome = .returned true := by
  induction rest generalizing n with
  | nil => rfl
  | cons p rest ih =>
    obtain ⟨k, v⟩ := p
    unfold insertLoop
    split
    · rfl
    · rw [h n k v]
      exact ih (n + 1)

theorem partitionTask_true (i : ℕ) (range : KeyRange)
    (h : (partitionTask env snapshot i range).outcome = .returned true) :
    (partitionTask env snapshot i range).passed =
      snapshot.pairs.filter fun p => range.holds p.1 := by
  unfold partitionTask at h ⊢
  cases hp : env.produces i range with
  | null => simp [hp] at h
  | threw => simp [hp] at h
  | iterator =>
    simp only [hp] at h ⊢
    rw [insertLoop_true _ _ _ _ h]
    unfold IndexIterator.seek
    have hasc := snapshot.ascending
    have hseek : snapshot.pairs.Pairwise fun p q =>
        decide (q.1 < range.lowerBound) = true → decide (p.1 < range.lowerBound) = true := by
      apply hasc.imp
      intro p q hpq hq
      exact decide_eq_true (hpq.trans (of_decide_eq_true hq))
    have hstop : snapshot.pairs.Pairwise fun p q =>
        decide (range.upperBound = [] ∨ q.1 < range.upperBound) = true →
          decide (range.upperBound = [] ∨ p.1 < range.upperBound) = true := by
      apply hasc.imp
      intro p q hpq hq
      exact decide_eq_true ((of_decide_eq_true hq).imp id hpq.trans)
    rw [dropWhile_eq_filter _ _ hseek, takeWhile_eq_filter _ _ (hstop.filter _), List.filter_filter]
    apply List.filter_congr
    intro p hmem
    rw [← decide_not, ← Bool.decide_and]
    apply decide_eq_decide.mpr
    rw [not_lt]
    exact and_comm

theorem submitTasks_accepted (i : ℕ) (ranges : List KeyRange)
    (h : (submitTasks env snapshot i ranges).1 = true) :
    (submitTasks env snapshot i ranges).2 =
      (ranges.zipIdx i).map fun x => partitionTask env snapshot x.2 x.1 := by
  induction ranges generalizing i with
  | nil => rfl
  | cons range rest ih =>
    unfold submitTasks at h ⊢
    by_cases ha : env.accepts i = true
    · simp only [ha, if_true] at h ⊢
      rw [ih (i + 1) h]
      rfl
    · simp [ha] at h

end Tasks

/-! ### Coverage -/

theorem trimReversed_ne_nil (bytes : ByteString) (h : bytes ≠ []) : trimReversed bytes ≠ [] := by
  induction bytes with
  | nil => exact h
  | cons b rest ih =>
    cases rest with
    | nil => unfold trimReversed; split <;> simp_all
    | cons c rest =>
      unfold trimReversed
      split
      next heq =>
        cases heq
        exact ih (by simp)
      next => exact h

section Fill
variable {F : Type} (ops : FractionOps F)

/-- An interior bound is never the empty string, which would mean unbounded. -/
theorem splitKey_ne_nil (lowerBound upperBound : ByteString) (numPartitions i : ℕ) :
    splitKey ops lowerBound upperBound numPartitions i ≠ [] := by
  unfold splitKey
  dsimp only
  by_cases hu : upperBound = []
  · rw [if_pos hu]
    simp
  · rw [if_neg hu]
    have hlen := List.length_pos_of_ne_nil hu
    have hmax : max lowerBound.length upperBound.length ≠ 0 := by omega
    unfold interpolateKey trimZeros
    dsimp only
    rw [if_neg (fun h => hu h.2), if_neg hmax]
    simp only [ne_eq, List.reverse_eq_nil_iff]
    apply trimReversed_ne_nil
    simpa using hmax

theorem splitKeys_ne_nil (lowerBound upperBound : ByteString) (numPartitions : ℕ) :
    ∀ s ∈ splitKeys ops lowerBound upperBound numPartitions, s ≠ [] := by
  intro s hs
  obtain ⟨i, -, rfl⟩ := List.mem_map.mp hs
  exact splitKey_ne_nil ops lowerBound upperBound numPartitions i

/-- The ranges of a request that is not empty are the segments of its bounds. -/
theorem partition_segments (lowerBound upperBound : ByteString) (numPartitions : UInt32)
    (hn : numPartitions ≠ 0) (hr : ¬ (upperBound ≠ [] ∧ upperBound ≤ lowerBound)) :
    (partition ops lowerBound upperBound numPartitions).map KeyRange.segment =
      segments lowerBound (splitKeys ops lowerBound upperBound numPartitions.toNat)
        (upTo upperBound) := by
  unfold partition
  rw [if_neg hn, if_neg hr]
  split
  next h1 => rw [h1]; rfl
  next => exact chainRanges_segments _ _ _ (splitKeys_ne_nil ops _ _ _)

theorem partition_covers (lowerBound upperBound k : ByteString) (numPartitions : UInt32)
    (hn : numPartitions ≠ 0) (hl : lowerBound ≤ k) (hu : upperBound = [] ∨ k < upperBound) :
    ∃ range ∈ partition ops lowerBound upperBound numPartitions, range.holds k := by
  have hr : ¬ (upperBound ≠ [] ∧ upperBound ≤ lowerBound) := by
    intro h
    obtain ⟨hne, hle⟩ := h
    exact absurd (hu.resolve_left hne) (not_lt.mpr (hle.trans hl))
  have hk : Inside k (lowerBound, upTo upperBound) := ⟨hl, (lt_upTo k upperBound).mpr hu⟩
  obtain ⟨seg, hseg, hin⟩ :=
    segments_cover (splitKeys ops lowerBound upperBound numPartitions.toNat) hk
  rw [← partition_segments ops lowerBound upperBound numPartitions hn hr] at hseg
  obtain ⟨range, hmem, rfl⟩ := List.mem_map.mp hseg
  exact ⟨range, hmem, (holds_iff_inside range k).mpr hin⟩

variable (config : IndexBuilderConfig) (state : BuildState) (env : FillEnv) (snapshot : Snapshot)
  (keyRangeLower keyRangeUpper : ByteString)

/-- A fill returns true after an empty request, or when every task was taken
and returned true. -/
theorem fillIndexParallel_true
    (h : (ParallelFill.fillIndexParallel ops config state env snapshot
      keyRangeLower keyRangeUpper).value = true) :
    let partitions := partition ops keyRangeLower keyRangeUpper config.numThreads
    let tasks := (ParallelFill.fillIndexParallel ops config state env snapshot
      keyRangeLower keyRangeUpper).tasks
    (partitions = [] ∧ 0 < config.numThreads ∧ tasks = []) ∨
      (tasks = (partitions.zipIdx 0).map (fun x => partitionTask env snapshot x.2 x.1) ∧
        ∀ r ∈ tasks, r.outcome = .returned true) := by
  simp only [ParallelFill.fillIndexParallel] at h ⊢
  split_ifs at h ⊢ with hs hp hsub hall
  · exact .inl ⟨hp.1, hp.2, rfl⟩
  · have hacc := submitTasks_accepted env snapshot 0 _ (by simpa using hsub)
    exact .inr ⟨hacc, fun r hr => by simpa using List.all_eq_true.mp hall r hr⟩

/-- A fill that returns true has passed every pair of the range to the inserter. -/
theorem parallel_fill_loses_no_pair (hn : 1 ≤ config.numThreads)
    (h : (ParallelFill.fillIndexParallel ops config state env snapshot
      keyRangeLower keyRangeUpper).value = true) :
    ∀ p ∈ snapshot.pairs, keyRangeLower ≤ p.1 → (keyRangeUpper = [] ∨ p.1 < keyRangeUpper) →
      ∃ r ∈ (ParallelFill.fillIndexParallel ops config state env snapshot
        keyRangeLower keyRangeUpper).tasks, p ∈ r.passed := by
  intro p hp hl hu
  have hn0 : config.numThreads ≠ 0 := by grind
  obtain ⟨range, hmem, hk⟩ := partition_covers ops keyRangeLower keyRangeUpper p.1
    config.numThreads hn0 hl hu
  obtain ⟨hempty, -, -⟩ | ⟨htasks, hall⟩ := fillIndexParallel_true ops config state env snapshot
    keyRangeLower keyRangeUpper h
  · rw [hempty] at hmem
    cases hmem
  · obtain ⟨i, hlt, hget⟩ := List.getElem_of_mem hmem
    have hi : (range, i) ∈ (partition ops keyRangeLower keyRangeUpper
        config.numThreads).zipIdx 0 := by
      rw [List.mk_mem_zipIdx_iff_getElem?, ← hget]
      exact List.getElem?_eq_getElem hlt
    have hr : partitionTask env snapshot i range ∈ (ParallelFill.fillIndexParallel ops config state
        env snapshot keyRangeLower keyRangeUpper).tasks := by
      rw [htasks]
      exact List.mem_map.mpr ⟨(range, i), hi, rfl⟩
    refine ⟨_, hr, ?_⟩
    rw [partitionTask_true env snapshot i range (hall _ hr)]
    exact List.mem_filter.mpr ⟨hp, decide_eq_true hk⟩

end Fill

/- Split points that never leave the lower bound. -/
def stuckOps : FractionOps Unit := ⟨fun _ _ => (), fun lo _ _ => lo, fun _ => 0⟩

def agreeable : FillEnv := ⟨fun _ => true, fun _ _ => .iterator, fun _ _ _ _ => .returned true⟩

theorem parallel_fill_loses_no_pair_two :
    ∃ r ∈ (ParallelFill.fillIndexParallel stuckOps ⟨2, 64, false⟩ .kIdle agreeable
      ⟨[(lit "b", lit "x")], List.pairwise_singleton _ _⟩ (lit "a") (lit "c")).tasks,
      (lit "b", lit "x") ∈ r.passed :=
  parallel_fill_loses_no_pair stuckOps ⟨2, 64, false⟩ .kIdle agreeable _ (lit "a") (lit "c")
    (by decide) (by decide) (lit "b", lit "x") (List.mem_singleton_self _) (by decide) (by decide)

/-! ### The fill as a run of the machine -/

section Machine
open RocksDBBuilderIndexEE Interleaving
variable {F : Type} (ops : FractionOps F) (b : RocksDBBuilderIndexEE)

theorem alone_future (outcomes : List Outcome) (allSucceeded : Bool) :
    alone (builderStep ops) b (.fillWait outcomes.length allSucceeded) (outcomes.map .future) =
      some (b, .fillWait 0 (allSucceeded && outcomes.all fun o => o = .returned true)) := by
  induction outcomes generalizing allSucceeded with
  | nil => simp [alone]
  | cons o os ih =>
    have hstep : builderStep ops b (.fillWait (os.length + 1) allSucceeded) (.future o) =
        some (b, .fillWait os.length (allSucceeded && o = .returned true)) := rfl
    simp only [List.length_cons, List.map_cons, alone, hstep, Option.bind_some, ih,
      List.all_cons, Bool.and_assoc]

theorem alone_submit (env : FillEnv) (snapshot : Snapshot) (i futures : ℕ) (ranges : List KeyRange) :
    ∃ events, alone (builderStep ops) b (.fillSubmit ranges futures) events =
      if (submitTasks env snapshot i ranges).1 = true then
        some (b, .fillSubmit [] (futures + (submitTasks env snapshot i ranges).2.length))
      else some ({b with state := .kFailed}, .returning (.fillIndexParallel false)) := by
  induction ranges generalizing i futures with
  | nil => exact ⟨[], rfl⟩
  | cons range rest ih =>
    cases ha : env.accepts i with
    | false =>
      refine ⟨[.submit false], ?_⟩
      simp [submitTasks, ha, alone, builderStep, RocksDBBuilderIndexEE.fillIndexParallel]
    | true =>
      obtain ⟨events, he⟩ := ih (i + 1) (futures + 1)
      refine ⟨.submit true :: events, ?_⟩
      have hstep : builderStep ops b (.fillSubmit (range :: rest) futures) (.submit true) =
          some (b, .fillSubmit rest (futures + 1)) := rfl
      simp only [alone, hstep, Option.bind_some, he, submitTasks, ha, if_true, List.length_cons]
      rw [Nat.add_right_comm, Nat.add_assoc futures]

theorem alone_wait (outcomes : List Outcome) :
    let ok := outcomes.all fun o => o = .returned true
    ∃ events, alone (builderStep ops) b (.fillSubmit [] outcomes.length) events =
      some (if ok = true then b else {b with state := .kFailed},
        .returning (.fillIndexParallel ok)) := by
  have henter : builderStep ops b (.fillSubmit [] outcomes.length) .step =
      some (b, .fillWait outcomes.length true) := rfl
  have hwait := alone_future ops b outcomes true
  rw [Bool.true_and] at hwait
  cases hok : outcomes.all fun o => o = .returned true with
  | true =>
    rw [hok] at hwait
    have hlast : builderStep ops b (.fillWait 0 true) .step =
        some (b, .returning (.fillIndexParallel true)) := rfl
    refine ⟨.step :: (outcomes.map .future ++ [.step]), ?_⟩
    simp [alone, henter, alone_append, hwait, hlast]
  | false =>
    rw [hok] at hwait
    have hfail : builderStep ops b (.fillWait 0 false) .step = some (b, .fillFail) := rfl
    have hlast : builderStep ops b .fillFail .step =
        some ({b with state := .kFailed}, .returning (.fillIndexParallel false)) := rfl
    refine ⟨.step :: (outcomes.map .future ++ [.step, .step]), ?_⟩
    simp [alone, henter, alone_append, hwait, hfail, hlast]

theorem alone_fill (env : FillEnv) (snapshot : Snapshot) (lower upper : ByteString) :
    let r := ParallelFill.fillIndexParallel ops b.config b.state env snapshot lower upper
    ∃ events, alone (builderStep ops) b (.fillEnter lower upper) events =
      some ({b with state := r.state}, .returning (.fillIndexParallel r.value)) := by
  simp only [ParallelFill.fillIndexParallel]
  by_cases hs : b.state = .kIdle
  · rw [if_neg (not_not.mpr hs)]
    by_cases hp : partition ops lower upper b.config.numThreads = [] ∧ 0 < b.config.numThreads
    · refine ⟨[.step], ?_⟩
      simp [alone, builderStep, RocksDBBuilderIndexEE.fillIndexParallel, hs, hp]
    · rw [if_neg hp]
      have henter : builderStep ops b (.fillEnter lower upper) .step = some ({b with
          state := .kBuilding}, .fillSubmit (partition ops lower upper b.config.numThreads) 0) := by
        simp only [builderStep, RocksDBBuilderIndexEE.fillIndexParallel, hs, if_true, if_neg hp]
        rfl
      obtain ⟨submits, hsub⟩ := alone_submit ops {b with state := .kBuilding} env snapshot 0 0
        (partition ops lower upper b.config.numThreads)
      generalize submitTasks env snapshot 0 (partition ops lower upper b.config.numThreads) = r
        at hsub ⊢
      obtain ⟨accepted, tasks⟩ := r
      cases accepted with
      | false =>
        refine ⟨.step :: submits, ?_⟩
        simp only [alone, henter, Option.bind_some, hsub]
        rfl
      | true =>
        obtain ⟨waits, hwait⟩ := alone_wait ops {b with state := .kBuilding}
          (tasks.map TaskResult.outcome)
        rw [List.length_map, List.all_map] at hwait
        refine ⟨.step :: (submits ++ waits), ?_⟩
        simp only [alone, henter, Option.bind_some, alone_append, hsub, if_true, Nat.zero_add, hwait]
        simp only [Function.comp_def]
        split
        next hall => simp [hall]
        next hall => simp [hall]
  · rw [if_pos hs]
    refine ⟨[.step], ?_⟩
    simp [alone, builderStep, RocksDBBuilderIndexEE.fillIndexParallel, hs]

/-- Every result of a parallel fill is what some run of the machine ends with. -/
theorem fillIndexParallel_runs {T : Type} [DecidableEq T]
    (c : Config T RocksDBBuilderIndexEE Control) (t : T) (env : FillEnv) (snapshot : Snapshot)
    (lower upper : ByteString) (ht : c.control t = .fillEnter lower upper) :
    let r := ParallelFill.fillIndexParallel ops c.shared.config c.shared.state env snapshot
      lower upper
    ∃ events, exec (builderStep ops) c (List.map (fun e => (t, e)) events) =
      some ⟨{c.shared with state := r.state},
        Function.update c.control t (.returning (.fillIndexParallel r.value))⟩ := by
  obtain ⟨events, h⟩ := alone_fill ops c.shared env snapshot lower upper
  rw [← ht] at h
  exact ⟨events, exec_alone h⟩

end Machine

end OpenArangoDBCore.RocksDBEngine
