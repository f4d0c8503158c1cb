import OpenArangoDBCore.Replication.ReplicationCheckpoint

/-!
# The life cycle of the replicator (DC2DCReplicator.cpp)

One owner prepares, starts, stops, joins and destroys the replicator, while
messages are marked as applied and tail threads come to their end. A thread
object in `_tailThreads` is joinable until it has been joined, also when its
loop is over; destroying it before that terminates the process.
-/

namespace OpenArangoDBCore.Replication.ReplicatorLifecycle
open ReplicationCheckpoint

inductive TailPhase where
  | looping
  | leaving
  | finished
  deriving DecidableEq

structure TailThread where
  joinable : Bool
  phase : TailPhase

/-- What `prepare` makes. -/
structure Components where
  tracker : SequenceNumberTracker
  checkpointPath : ByteString

/-- `_prepared` and `_walTailingConfigured` are the presence of the components
and of the number of shards. -/
structure Replicator where
  checkpointPath : ByteString
  components : Option Components
  numberOfShards : Option UInt32
  tailing : Bool
  tailThreads : List TailThread
  destroying : Bool

/-- How a call ends. One that blocks has to wait for a thread, and is taken up
again later. -/
inductive Outcome where
  | returns
  | throws (what : ByteString)
  | blocks
  | terminates
  deriving DecidableEq

/-- The replicator, unless it has been destroyed, and the checkpoint on disk. -/
structure System where
  replicator : Option Replicator
  files : CheckpointFiles

namespace Replicator

def new (checkpointPath : ByteString) : Replicator :=
  ⟨checkpointPath, none, none, false, [], false⟩

def prepare (r : Replicator) : Replicator :=
  {r with components := some ⟨.new, r.checkpointPath⟩}

def configureWALTailing (numberOfShards : UInt32) (r : Replicator) : Replicator :=
  {r with numberOfShards := some numberOfShards}

/-- `clear()` of the vector of threads, `none` if that terminates the process. -/
def clear (threads : List TailThread) : Option (List TailThread) :=
  if threads.any TailThread.joinable then none else some []

/-- The second half of `start`; `limit` is how many threads can be created. -/
def startTailing (limit : ℕ) (r : Replicator) : Outcome × Option Replicator :=
  match r.numberOfShards with
  | none => (.returns, some r)
  | some numberOfShards =>
    if r.tailing then (.returns, some r)
    else
      match clear r.tailThreads with
      | none => (.terminates, none)
      | some threads =>
        let created := List.replicate (min numberOfShards.toNat limit) ⟨true, .looping⟩
        let r := {r with tailing := true, tailThreads := threads ++ created}
        if limit < numberOfShards.toNat then
          (.throws (lit "Resource temporarily unavailable"), some r)
        else (.returns, some r)

def start (opens : Bool) (limit : ℕ) (files : CheckpointFiles) (r : Replicator) :
    Outcome × Option Replicator :=
  match r.components with
  | none => (.throws (lit "DC2DCReplicator::start() called before prepare()"), some r)
  | some components =>
    let (result, tracker) := load components.checkpointPath opens files components.tracker
    let r := {r with components := some {components with tracker := tracker}}
    if result.success = false then
      (.throws (lit "Failed to load replication checkpoint: " ++ result.error), some r)
    else startTailing limit r

/-- `stop`; what `save` says about a failure is dropped. -/
def stop (order : (state : ShardState) → UnorderedMap.IterationOrder state) (outcome : SaveOutcome)
    (files : CheckpointFiles) (r : Replicator) : Replicator × CheckpointFiles :=
  match r.components with
  | none => (r, files)
  | some components =>
    ({r with tailing := false},
      (save components.checkpointPath components.tracker (order _) outcome files).2)

def joinTailThreads (r : Replicator) : Outcome × Option Replicator :=
  if ∀ t ∈ r.tailThreads, t.joinable = true → t.phase = .finished then
    match clear (r.tailThreads.map fun t => {t with joinable := false}) with
    | none => (.terminates, none)
    | some threads => (.returns, some {r with tailThreads := threads})
  else (.blocks, some r)

/-- The destructor, up to the end of the members. -/
def destroy (r : Replicator) : Outcome × Option Replicator :=
  match joinTailThreads {r with tailing := false, destroying := true} with
  | (.returns, some r) =>
    match clear r.tailThreads with
    | none => (.terminates, none)
    | some _ => (.returns, none)
  | res => res

def markApplied (shardId : ByteString) (seq : UInt64) (r : Replicator) : Replicator :=
  {r with components := r.components.map fun components =>
    {components with tracker := components.tracker.markApplied shardId seq}}

/-- A tail thread sees that `_tailing` is off, or returns. -/
def threadStep (i : ℕ) (r : Replicator) : Replicator :=
  {r with tailThreads := r.tailThreads.modify i fun t =>
    match t.phase with
    | .looping => if r.tailing then t else {t with phase := .leaving}
    | .leaving => {t with phase := .finished}
    | .finished => t}

end Replicator

inductive Event where
  | prepare
  | configureWALTailing (numberOfShards : UInt32)
  | start (opens : Bool) (limit : ℕ)
  | stop (order : (state : ShardState) → UnorderedMap.IterationOrder state)
      (outcome : SaveOutcome)
  | joinTailThreads
  | destroy
  | markApplied (shardId : ByteString) (seq : UInt64)
  | threadStep (i : ℕ)

/-- The owner calls nothing else while the destructor waits. -/
def Event.possible (e : Event) (r : Replicator) : Bool :=
  match e with
  | .destroy => true
  | .threadStep _ => true
  | _ => !r.destroying

def System.step (s : System) (e : Event) : Outcome × System :=
  match s.replicator with
  | none => (.blocks, s)
  | some r =>
    if e.possible r = false then (.blocks, s)
    else
      match e with
      | .prepare => (.returns, {s with replicator := some r.prepare})
      | .configureWALTailing n => (.returns, {s with replicator := some (r.configureWALTailing n)})
      | .start opens limit =>
        let (outcome, replicator) := r.start opens limit s.files
        (outcome, {s with replicator := replicator})
      | .stop order outcome =>
        let (r, files) := r.stop order outcome s.files
        (.returns, ⟨some r, files⟩)
      | .joinTailThreads =>
        let (outcome, replicator) := r.joinTailThreads
        (outcome, {s with replicator := replicator})
      | .destroy =>
        let (outcome, replicator) := r.destroy
        (outcome, {s with replicator := replicator})
      | .markApplied shardId seq =>
        (.returns, {s with replicator := some (r.markApplied shardId seq)})
      | .threadStep i => (.returns, {s with replicator := some (r.threadStep i)})

def System.run (s : System) (events : List Event) : System :=
  events.foldl (fun s e => (s.step e).2) s

theorem System.run_snoc (s : System) (events : List Event) (e : Event) :
    s.run (events ++ [e]) = ((s.run events).step e).2 := by
  simp [System.run]

/-! ### What the calls can do -/

namespace Replicator

theorem clear_none_iff (threads : List TailThread) :
    clear threads = none ↔ ∃ t ∈ threads, t.joinable = true := by
  unfold clear
  rw [← List.any_eq_true]
  split
  next h => exact iff_of_true rfl h
  next h => exact iff_of_false nofun h

theorem clear_joined (threads : List TailThread) :
    clear (threads.map fun t => {t with joinable := false}) = some [] := by
  unfold clear
  rw [if_neg]
  simp

/-- Threads that were not joined, tailing configured and off. -/
def Unjoined (r : Replicator) : Prop :=
  r.numberOfShards ≠ none ∧ r.tailing = false ∧ ∃ t ∈ r.tailThreads, t.joinable = true

theorem startTailing_cases (limit : ℕ) (r : Replicator) :
    (r.Unjoined ∧ startTailing limit r = (.terminates, none)) ∨
      (¬ r.Unjoined ∧ ∃ outcome next, startTailing limit r = (outcome, some next) ∧
        outcome ≠ .terminates ∧ next.components = r.components) := by
  unfold startTailing Unjoined
  cases hshards : r.numberOfShards with
  | none => exact .inr ⟨fun h => h.1 rfl, _, _, rfl, nofun, rfl⟩
  | some numberOfShards =>
    dsimp only
    by_cases htailing : r.tailing = true
    · rw [if_pos htailing]
      exact .inr ⟨fun h => absurd h.2.1 (by simp [htailing]), _, _, rfl, nofun, rfl⟩
    · rw [if_neg htailing, ← clear_none_iff]
      have hoff : r.tailing = false := eq_false_of_ne_true htailing
      cases hclear : clear r.tailThreads with
      | none => exact .inl ⟨⟨nofun, hoff, rfl⟩, rfl⟩
      | some threads =>
        refine .inr ⟨fun h => (nomatch h.2.2), ?_⟩
        dsimp only
        split
        · exact ⟨_, _, rfl, nofun, rfl⟩
        · exact ⟨_, _, rfl, nofun, rfl⟩

theorem joinTailThreads_returns (r : Replicator) :
    joinTailThreads r = (.blocks, some r) ∨
      joinTailThreads r = (.returns, some {r with tailThreads := []}) := by
  unfold joinTailThreads
  rw [clear_joined]
  split
  · exact .inr rfl
  · exact .inl rfl

theorem destroy_returns (r : Replicator) :
    destroy r = (.blocks, some {r with tailing := false, destroying := true}) ∨
      destroy r = (.returns, none) := by
  unfold destroy
  rcases joinTailThreads_returns {r with tailing := false, destroying := true} with h | h
  · rw [h]
    exact .inl rfl
  · rw [h]
    exact .inr rfl

end Replicator

/-- The checkpoint on disk can be loaded, or there is none. -/
def Loads (opens : Bool) (files : CheckpointFiles) : Prop :=
  ∀ content, files.file = some content → opens = true ∧ ∃ state, parse content = .ok state

/-- What a `load` that succeeds makes of the tracker. -/
inductive Restored (files : CheckpointFiles) (tracker : SequenceNumberTracker) :
    SequenceNumberTracker → Prop where
  | fresh (h : files.file = none) : Restored files tracker tracker
  | loaded {content : ByteString} {state : ShardState} (h : files.file = some content)
      (hparse : parse content = .ok state) : Restored files tracker ⟨state⟩

theorem load_cases (path : ByteString) (opens : Bool) (files : CheckpointFiles)
    (tracker : SequenceNumberTracker) :
    (¬ Loads opens files ∧ ∃ error, load path opens files tracker = (⟨false, error⟩, tracker)) ∨
      (Loads opens files ∧ ∃ restored, load path opens files tracker = (⟨true, []⟩, restored) ∧
        Restored files tracker restored) := by
  unfold load Loads
  cases hfile : files.file with
  | none => exact .inr ⟨nofun, _, rfl, .fresh hfile⟩
  | some content =>
    dsimp only
    by_cases hopens : opens = false
    · rw [if_pos hopens]
      refine .inl ⟨fun h => ?_, _, rfl⟩
      rw [hopens] at h
      exact nomatch (h content rfl).1
    · rw [if_neg hopens]
      cases hparse : parse content with
      | error e =>
        refine .inl ⟨fun h => ?_, _, rfl⟩
        obtain ⟨state, hstate⟩ := (h content rfl).2
        rw [hparse] at hstate
        cases hstate
      | ok state =>
        refine .inr ⟨?_, _, rfl, .loaded hfile hparse⟩
        rintro _ ⟨⟩
        exact ⟨eq_true_of_ne_false hopens, state, hparse⟩

theorem Replicator.start_cases (opens : Bool) (limit : ℕ) (files : CheckpointFiles)
    (r : Replicator) :
    (∃ what, r.start opens limit files = (.throws what, some r) ∧
        (r.components ≠ none → ¬ Loads opens files)) ∨
      ∃ components restored, r.components = some components ∧ Loads opens files ∧
        Restored files components.tracker restored ∧ r.start opens limit files =
          startTailing limit {r with components := some {components with tracker := restored}} := by
  unfold start
  cases hcomponents : r.components with
  | none => exact .inl ⟨_, rfl, fun h => absurd rfl h⟩
  | some components =>
    rcases load_cases components.checkpointPath opens files components.tracker with
      ⟨hfails, error, hload⟩ | ⟨hloads, restored, hload, hrestored⟩
    · left
      dsimp only
      rw [hload]
      refine ⟨lit "Failed to load replication checkpoint: " ++ error, ?_, fun _ => hfails⟩
      dsimp only
      rw [if_pos rfl, ← hcomponents]
    · right
      dsimp only
      rw [hload]
      exact ⟨components, restored, rfl, hloads, hrestored, if_neg nofun⟩

namespace System

def tracker (s : System) : Option SequenceNumberTracker :=
  s.replicator.bind fun r => r.components.map Components.tracker

/-- A `start` that goes on to tailing although threads were not joined. -/
def UnjoinedRestart (s : System) (opens : Bool) : Prop :=
  ∃ r, s.replicator = some r ∧ r.destroying = false ∧ r.components ≠ none ∧
    Loads opens s.files ∧ r.Unjoined

end System

/-- What an event does to the replicator `r`. -/
inductive Effect (s : System) (r : Replicator) : Event → Outcome → Option Replicator → Prop where
  | quiet {e : Event} {outcome : Outcome} {next : Replicator}
      (hstart : ∀ opens limit, e = .start opens limit → r.destroying = false →
        ¬ (r.components ≠ none ∧ Loads opens s.files))
      (houtcome : outcome ≠ .terminates) (h : next.components = r.components) :
      Effect s r e outcome (some next)
  | prepared : Effect s r .prepare .returns (some r.prepare)
  | marked (shardId : ByteString) (seq : UInt64) :
      Effect s r (.markApplied shardId seq) .returns (some (r.markApplied shardId seq))
  | restored {opens : Bool} {limit : ℕ} {outcome : Outcome} {components : Components}
      {tracker : SequenceNumberTracker} {next : Replicator}
      (hsafe : ¬ s.UnjoinedRestart opens) (houtcome : outcome ≠ .terminates)
      (hdestroying : r.destroying = false) (hcomponents : r.components = some components)
      (hloads : Loads opens s.files) (htracker : Restored s.files components.tracker tracker)
      (h : next.components = some {components with tracker := tracker}) :
      Effect s r (.start opens limit) outcome (some next)
  | terminated {opens : Bool} {limit : ℕ} (h : s.UnjoinedRestart opens) :
      Effect s r (.start opens limit) .terminates none
  | destroyed : Effect s r .destroy .returns none

theorem start_effect {s : System} {r : Replicator} (hr : s.replicator = some r)
    (hdestroying : r.destroying = false) (opens : Bool) (limit : ℕ) :
    Effect s r (.start opens limit) (r.start opens limit s.files).1
      (r.start opens limit s.files).2 := by
  rcases r.start_cases opens limit s.files with
    ⟨what, hstart, hfails⟩ | ⟨components, restored, hsome, hloads, hrestored, hstart⟩
  · rw [hstart]
    refine .quiet ?_ nofun rfl
    rintro _ _ ⟨⟩ -
    exact fun h => hfails h.1 h.2
  · rw [hstart]
    have hcomponents : r.components ≠ none := hsome ▸ nofun
    rcases Replicator.startTailing_cases limit
        {r with components := some {components with tracker := restored}} with
      ⟨hunjoined, htail⟩ | ⟨hjoined, outcome, next, htail, houtcome, hnext⟩
    · rw [htail]
      exact .terminated ⟨r, hr, hdestroying, hcomponents, hloads, hunjoined⟩
    · rw [htail]
      refine .restored ?_ houtcome hdestroying hsome hloads hrestored hnext
      rintro ⟨r', hr', -, -, -, hunjoined⟩
      rw [hr] at hr'
      cases hr'
      exact hjoined hunjoined

theorem step_effect {s : System} {r : Replicator} (hr : s.replicator = some r) (e : Event) :
    Effect s r e (s.step e).1 (s.step e).2.replicator := by
  have hquiet : ∀ {outcome : Outcome} {next : Replicator},
      (∀ opens limit, e ≠ .start opens limit) → outcome ≠ .terminates →
      next.components = r.components → Effect s r e outcome (some next) :=
    fun he houtcome hnext => .quiet (fun opens limit heq => absurd heq (he opens limit)) houtcome
      hnext
  unfold System.step
  rw [hr]
  dsimp only
  by_cases hpossible : e.possible r = false
  · rw [if_pos hpossible, hr]
    refine .quiet (fun opens limit heq hdestroying => ?_) nofun rfl
    subst heq
    change (!r.destroying) = false at hpossible
    rw [hdestroying] at hpossible
    cases hpossible
  rw [if_neg hpossible]
  cases e with
  | prepare => exact .prepared
  | configureWALTailing n => exact hquiet nofun nofun rfl
  | start opens limit =>
    refine start_effect hr ?_ opens limit
    cases h : r.destroying with
    | false => rfl
    | true => exact absurd (by simp [Event.possible, h]) hpossible
  | stop order outcome =>
    refine hquiet nofun nofun ?_
    unfold Replicator.stop
    split <;> rfl
  | joinTailThreads =>
    dsimp only
    rcases r.joinTailThreads_returns with h | h <;> rw [h] <;> exact hquiet nofun nofun rfl
  | destroy =>
    dsimp only
    rcases r.destroy_returns with h | h <;> rw [h]
    · exact hquiet nofun nofun rfl
    · exact .destroyed
  | markApplied shardId seq => exact .marked shardId seq
  | threadStep i => exact hquiet nofun nofun rfl

/-! ### The high-water marks -/

/-- The checkpoint that `start` loads is not behind the tracker. -/
def System.UpToDate (s : System) (opens : Bool) : Prop :=
  ∀ r components content state, s.replicator = some r → r.destroying = false →
    r.components = some components → opens = true → s.files.file = some content →
    parse content = .ok state → ∀ shardId,
      components.tracker.lastAppliedSequence shardId ≤ (state.lookup shardId).getD 0

theorem lastApplied_markApplied (t : SequenceNumberTracker) (shardId other : ByteString)
    (seq : UInt64) :
    t.lastAppliedSequence other ≤ (t.markApplied shardId seq).lastAppliedSequence other := by
  unfold SequenceNumberTracker.lastAppliedSequence SequenceNumberTracker.markApplied
  cases hlast : t.lastApplied.lookup shardId with
  | none =>
    dsimp only
    rw [UnorderedMap.lookup_insert_of]
    split
    next heq =>
      rw [heq, hlast]
      exact UInt64.zero_le
    next => exact UInt64.le_refl _
  | some last =>
    dsimp only
    rw [UnorderedMap.lookup_insert_of]
    split
    next heq =>
      rw [heq, hlast]
      dsimp only [Option.getD_some]
      split
      next hlt => exact UInt64.le_of_lt hlt
      next => exact UInt64.le_refl _
    next => exact UInt64.le_refl _

theorem tracker_iff {s : System} {t : SequenceNumberTracker} :
    s.tracker = some t ↔ ∃ r components, s.replicator = some r ∧ r.components = some components ∧
      components.tracker = t := by
  unfold System.tracker
  simp [Option.bind_eq_some_iff, Option.map_eq_some_iff]

/-- A start that is up to date lowers no mark, nor does anything else. -/
theorem step_raises {s : System} {e : Event} (hprepare : e ≠ .prepare)
    (hstart : ∀ opens limit, e = .start opens limit →
      s.UnjoinedRestart opens ∨ s.UpToDate opens)
    {t' : SequenceNumberTracker} (ht' : (s.step e).2.tracker = some t') :
    ∃ t, s.tracker = some t ∧
      ∀ shardId, t.lastAppliedSequence shardId ≤ t'.lastAppliedSequence shardId := by
  obtain ⟨next, components', hnext, hcomponents', rfl⟩ := tracker_iff.mp ht'
  cases hr : s.replicator with
  | none =>
    unfold System.step at hnext
    rw [hr] at hnext
    exact nomatch hr.symm.trans hnext
  | some r =>
    have heffect := step_effect hr e
    rw [hnext] at heffect
    generalize (s.step e).1 = outcome at heffect
    cases heffect with
    | quiet _ _ h =>
      rw [h] at hcomponents'
      exact ⟨_, tracker_iff.mpr ⟨r, _, hr, hcomponents', rfl⟩, fun _ => UInt64.le_refl _⟩
    | prepared => exact absurd rfl hprepare
    | marked shardId seq =>
      unfold Replicator.markApplied at hcomponents'
      cases hcomponents : r.components with
      | none =>
        rw [hcomponents] at hcomponents'
        cases hcomponents'
      | some components =>
        rw [hcomponents] at hcomponents'
        cases hcomponents'
        refine ⟨_, tracker_iff.mpr ⟨r, _, hr, hcomponents, rfl⟩, fun other => ?_⟩
        exact lastApplied_markApplied components.tracker shardId other seq
    | @restored opens limit _ components tracker _ hsafe houtcome hdestroying hcomponents hloads
        htracker h =>
      rw [h] at hcomponents'
      cases hcomponents'
      refine ⟨_, tracker_iff.mpr ⟨r, _, hr, hcomponents, rfl⟩, fun other => ?_⟩
      cases htracker with
      | fresh => exact UInt64.le_refl _
      | loaded hfile hparse =>
        have hup := (hstart opens limit rfl).resolve_left hsafe
        exact hup r components _ _ hr hdestroying hcomponents (hloads _ hfile).1 hfile hparse other

/-- No mark is lower after more of the events than before. -/
def KeepsMarks (s : System) (events : List Event) : Prop :=
  ∀ before more, before ++ more <+: events → ∀ t t', (s.run before).tracker = some t →
    (s.run (before ++ more)).tracker = some t' → ∀ shardId,
      t.lastAppliedSequence shardId ≤ t'.lastAppliedSequence shardId

/-- Every start finds a checkpoint that is not behind. -/
def StartsUpToDate (s : System) (events : List Event) : Prop :=
  ∀ before opens limit, before ++ [.start opens limit] <+: events →
    (s.run before).UnjoinedRestart opens ∨ (s.run before).UpToDate opens

theorem keepsMarks_of_starts {s : System} {events : List Event} (hprepare : .prepare ∉ events)
    (h : StartsUpToDate s events) : KeepsMarks s events := by
  intro before more hmore
  induction more using List.reverseRecOn with
  | nil =>
    intro t t' ht ht' shardId
    rw [List.append_nil, ht] at ht'
    cases ht'
    exact UInt64.le_refl _
  | append_singleton more e ih =>
    intro t t' ht ht' shardId
    have hprefix : before ++ more <+: events := by
      refine List.IsPrefix.trans ?_ hmore
      rw [← List.append_assoc]
      exact List.prefix_append _ _
    have he : e ≠ .prepare := by
      rintro rfl
      exact hprepare (hmore.subset (by simp))
    rw [← List.append_assoc, System.run_snoc] at ht'
    obtain ⟨t₁, ht₁, hraise⟩ := step_raises he (fun opens limit heq => by
      refine h (before ++ more) opens limit ?_
      rwa [List.append_assoc, ← heq]) ht'
    exact UInt64.le_trans (ih hprefix t t₁ ht ht₁ shardId) (hraise shardId)

/-- A start that gets through has the state of the checkpoint. -/
theorem start_tracker {s : System} {r : Replicator} {components : Components} {opens : Bool}
    {content : ByteString} {state : ShardState} (limit : ℕ) (hr : s.replicator = some r)
    (hdestroying : r.destroying = false) (hcomponents : r.components = some components)
    (hopens : opens = true) (hfile : s.files.file = some content)
    (hparse : parse content = .ok state) (hsafe : ¬ s.UnjoinedRestart opens) :
    (s.step (.start opens limit)).2.tracker = some ⟨state⟩ := by
  have hloads : Loads opens s.files := by
    intro content' hfile'
    rw [hfile] at hfile'
    cases hfile'
    exact ⟨hopens, state, hparse⟩
  have heffect := step_effect hr (.start opens limit)
  generalize hnext : (s.step (.start opens limit)).2.replicator = next at heffect
  generalize (s.step (.start opens limit)).1 = outcome at heffect
  cases heffect with
  | quiet hstart => exact absurd ⟨hcomponents ▸ nofun, hloads⟩ (hstart opens limit rfl hdestroying)
  | terminated h => exact absurd h hsafe
  | restored _ _ _ hsome _ htracker h =>
    refine tracker_iff.mpr ⟨_, _, hnext, h, ?_⟩
    cases htracker with
    | fresh hnone => exact nomatch hnone.symm.trans hfile
    | loaded hfile' hparse' =>
      rw [hfile] at hfile'
      cases hfile'
      rw [hparse] at hparse'
      cases hparse'
      rfl

theorem starts_of_keepsMarks {s : System} {events : List Event} (h : KeepsMarks s events) :
    StartsUpToDate s events := by
  intro before opens limit hstart
  by_cases hunjoined : (s.run before).UnjoinedRestart opens
  · exact .inl hunjoined
  · right
    intro r components content state hr hdestroying hcomponents hopens hfile hparse shardId
    have hnext := start_tracker limit hr hdestroying hcomponents hopens hfile hparse hunjoined
    rw [← System.run_snoc] at hnext
    exact h before [.start opens limit] hstart components.tracker ⟨state⟩
      (tracker_iff.mpr ⟨r, components, hr, hcomponents, rfl⟩) hnext shardId

/-- For the calls after `prepare`; a start may also end the process. -/
theorem marks_never_go_back_iff (s : System) (events : List Event) (hprepare : .prepare ∉ events) :
    KeepsMarks s events ↔ StartsUpToDate s events :=
  ⟨starts_of_keepsMarks, keepsMarks_of_starts hprepare⟩

/-- A checkpoint saved from the tracker as it is now is not behind it. -/
theorem upToDate_of_saved {s : System} {t : SequenceNumberTracker} (opens : Bool)
    (ht : s.tracker = some t) (order : UnorderedMap.IterationOrder t.getState)
    (hfile : s.files.file = some (render order.val))
    (hids : ∀ shardId ∈ t.getState, RocksDBEngine.BackupManifest.quote ∉ shardId) :
    s.UpToDate opens := by
  intro r components content state hr _ hcomponents _ hcontent hparse shardId
  obtain ⟨r', components', hr', hcomponents', rfl⟩ := tracker_iff.mp ht
  rw [hr] at hr'
  cases hr'
  rw [hcomponents] at hcomponents'
  cases hcomponents'
  rw [hfile] at hcontent
  cases hcontent
  rw [parse_render order hids] at hparse
  cases hparse
  rw [order.lookup_refilled]
  exact UInt64.le_refl _

def samplePrepared : System :=
  System.run ⟨some (.new (lit "c.json")), ⟨none, none⟩⟩ [.prepare]

theorem cleanRestart_keepsMarks : KeepsMarks samplePrepared
    [.markApplied (lit "s1") 10, .stop UnorderedMap.entryOrder .renamed, .start true 0] := by
  refine (marks_never_go_back_iff _ _ (by simp)).mpr ?_
  intro before opens limit h
  rcases before with _ | ⟨a, _ | ⟨b, _ | ⟨c, before⟩⟩⟩
  · simp at h
  · simp at h
  · obtain ⟨rfl, rfl, rfl, rfl⟩ : a = .markApplied (lit "s1") 10 ∧
        b = .stop UnorderedMap.entryOrder .renamed ∧ opens = true ∧ limit = 0 := by
      simpa [eq_comm] using h
    have htracker : (samplePrepared.run [.markApplied (lit "s1") 10,
        .stop UnorderedMap.entryOrder .renamed]).tracker =
          some (SequenceNumberTracker.new.markApplied (lit "s1") 10) := rfl
    exact .inr (upToDate_of_saved true htracker (UnorderedMap.entryOrder _) rfl (by decide))
  · simp at h

/-- The marks of a restart are those of the stop before, however many came since. -/
theorem restart_lowers_mark :
    let events := [.start true 0, .markApplied (lit "s1") 10,
      .stop UnorderedMap.entryOrder .renamed, .markApplied (lit "s1") 20]
    ((samplePrepared.run events).tracker.map fun t => t.lastAppliedSequence (lit "s1")) = some 20 ∧
      ((samplePrepared.run (events ++ [.start true 0])).tracker.map fun t =>
        t.lastAppliedSequence (lit "s1")) = some 10 := by
  decide +kernel

/-! ### The thread objects -/

/-- No event ends the process by destroying a thread that was not joined. -/
def NeverTerminates (s : System) (events : List Event) : Prop :=
  ∀ before e, before ++ [e] <+: events → ((s.run before).step e).1 ≠ .terminates

theorem terminates_iff (s : System) (e : Event) :
    (s.step e).1 = .terminates ↔ ∃ opens limit, e = .start opens limit ∧
      s.UnjoinedRestart opens := by
  constructor
  · intro h
    cases hr : s.replicator with
    | none =>
      unfold System.step at h
      rw [hr] at h
      cases h
    | some r =>
      have heffect := step_effect hr e
      rw [h] at heffect
      generalize (s.step e).2.replicator = next at heffect
      cases heffect with
      | quiet _ houtcome => exact absurd rfl houtcome
      | restored _ houtcome => exact absurd rfl houtcome
      | terminated hunjoined => exact ⟨_, _, rfl, hunjoined⟩
  · rintro ⟨opens, limit, rfl, hunjoined⟩
    obtain ⟨r, hr, hdestroying, hcomponents, hloads, _⟩ := id hunjoined
    have heffect := step_effect hr (.start opens limit)
    generalize (s.step (.start opens limit)).2.replicator = next at heffect
    generalize (s.step (.start opens limit)).1 = outcome at heffect ⊢
    cases heffect with
    | quiet hstart => exact absurd ⟨hcomponents, hloads⟩ (hstart opens limit rfl hdestroying)
    | restored hsafe => exact absurd hunjoined hsafe
    | terminated => rfl

theorem no_thread_destroyed_iff (checkpointPath : ByteString) (files : CheckpointFiles)
    (events : List Event) :
    NeverTerminates ⟨some (.new checkpointPath), files⟩ events ↔
      ∀ before opens limit, before ++ [.start opens limit] <+: events →
        ¬ (System.run ⟨some (.new checkpointPath), files⟩ before).UnjoinedRestart opens := by
  unfold NeverTerminates
  constructor
  · intro h before opens limit hstart hunjoined
    exact h before _ hstart ((terminates_iff _ _).mpr ⟨opens, limit, rfl, hunjoined⟩)
  · intro h before e he hterminates
    obtain ⟨opens, limit, rfl, hunjoined⟩ := (terminates_iff _ _).mp hterminates
    exact h before opens limit he hunjoined

/-- Start, stop and start again. -/
theorem restart_destroys_threads :
    (System.step (System.run ⟨some (.new (lit "c.json")), ⟨none, none⟩⟩
      [.prepare, .configureWALTailing 1, .start true 1, .stop UnorderedMap.entryOrder .renamed])
        (.start true 1)).1 = .terminates := by
  decide +kernel

end OpenArangoDBCore.Replication.ReplicatorLifecycle
