import OpenArangoDBCore.Replication.CheckpointCrash

/-!
# The checkpoint over crashes and restarts (ReplicationCheckpoint.cpp)

A process marks sequences, saves the checkpoint now and then, and can be killed
between any two steps; the files stay. A cell that holds one state, and that a
save fills when it renames its file, is all that the next process sees.
-/

namespace OpenArangoDBCore.Replication.DurableCheckpoint
open ReplicationCheckpoint IdempotencyChecker
open RocksDBEngine.BackupManifest (quote)

/-- A save has taken the state it writes before its first step. -/
structure Saving where
  taken : SequenceNumberTracker
  order : UnorderedMap.IterationOrder taken.getState
  phase : SavePhase

/-- `cell` is what the last rename has brought to the path of the checkpoint. -/
structure Process where
  tracker : SequenceNumberTracker := .new
  saving : Option Saving := none
  files : CheckpointFiles := ⟨none, none⟩
  cell : Option SequenceNumberTracker := none

inductive Event where
  | applied (shardId : ByteString) (seq : UInt64)
  | save (order : (state : ShardState) → UnorderedMap.IterationOrder state)
  | saveStep (e : SaveEvent)
  | load (opens : Bool)
  | crash

section Steps
variable (path : ByteString)

/-- One step of the save; with the rename the cell gets its state. -/
def Process.saveStep (p : Process) (saving : Saving) (e : SaveEvent) : Option Process :=
  match saver path (render saving.order.val) p.files saving.phase e with
  | none => none
  | some (_, .killed) => none
  | some (files, .returned _) => some {p with files := files, saving := none}
  | some (files, .ending) => some {p with
      files := files, saving := some {saving with phase := .ending}, cell := some saving.taken}
  | some (files, phase) => some {p with files := files, saving := some {saving with phase := phase}}

def Process.step (p : Process) : Event → Option Process
  | .applied shardId seq => some {p with tracker := p.tracker.markApplied shardId seq}
  | .save order =>
    match p.saving with
    | some _ => none
    | none => some {p with saving := some ⟨p.tracker, order p.tracker.getState, .opening⟩}
  | .saveStep e =>
    match p.saving with
    | none => none
    | some saving => p.saveStep path saving e
  | .load opens =>
    match p.saving with
    | some _ => none
    | none => some {p with tracker := (load path opens p.files p.tracker).2}
  | .crash => some {p with tracker := .new, saving := none}

def Process.run : Process → List Event → Option Process
  | p, [] => some p
  | p, e :: rest => (p.step path e).bind fun p' => p'.run rest

end Steps

/-! ### What the steps keep -/

/-- No id with a quotation mark. -/
def Plain (t : SequenceNumberTracker) : Prop := ∀ shardId ∈ t.getState, quote ∉ shardId

structure UnderWay (p : Process) (saving : Saving) : Prop where
  taken : Plain saving.taken
  replacing : saving.phase = .replacing → p.files.tmpFile = some (render saving.order.val)
  ending : saving.phase = .ending → p.cell = some saving.taken

structure Refines (p : Process) : Prop where
  plain : Plain p.tracker
  saving : ∀ saving, p.saving = some saving → UnderWay p saving
  empty : p.cell = none → p.files.file = none
  filled : ∀ saved, p.cell = some saved → Plain saved ∧
    ∃ order : UnorderedMap.IterationOrder saved.getState, p.files.file = some (render order.val)

section Keeps
variable {path : ByteString} {p p' : Process}

theorem plain_markApplied {t : SequenceNumberTracker} (h : Plain t) {shardId : ByteString}
    (hid : quote ∉ shardId) (seq : UInt64) : Plain (t.markApplied shardId seq) := by
  have hinsert : ∀ value : UInt64, Plain ⟨t.lastApplied.insert shardId value⟩ := by
    intro value id hmem
    rcases (AList.mem_insert t.lastApplied).mp hmem with heq | hold
    · rw [heq]
      exact hid
    · exact h id hold
  unfold SequenceNumberTracker.markApplied
  split
  · exact hinsert seq
  · exact hinsert _

variable (path) in
theorem load_plain {files : CheckpointFiles} (t : SequenceNumberTracker)
    {saved : SequenceNumberTracker} (hsaved : Plain saved)
    {order : UnorderedMap.IterationOrder saved.getState}
    (hfile : files.file = some (render order.val)) :
    ∃ restored, load path true files t = (⟨true, []⟩, restored) ∧
      ∀ shardId, restored.getState.lookup shardId = saved.getState.lookup shardId := by
  refine ⟨⟨order.val.foldl (fun state e => state.insert e.1 e.2) ∅⟩, ?_, ?_⟩
  · unfold load
    rw [hfile]
    dsimp only
    rw [if_neg (by decide), parse_render order hsaved]
    rfl
  · intro shardId
    exact order.lookup_refilled shardId

theorem Refines.loaded (h : Refines p) (opens : Bool) :
    Plain (load path opens p.files p.tracker).2 := by
  cases hcell : p.cell with
  | none =>
    unfold load
    rw [h.empty hcell]
    exact h.plain
  | some saved =>
    obtain ⟨hsaved, order, hfile⟩ := h.filled saved hcell
    cases opens with
    | false =>
      unfold load
      rw [hfile]
      exact h.plain
    | true =>
      obtain ⟨restored, hload, hlookup⟩ := load_plain path p.tracker hsaved hfile
      rw [hload]
      intro shardId hmem
      apply hsaved
      rw [← AList.lookup_isSome] at hmem ⊢
      rw [← hlookup]
      exact hmem

/-- What a step of a save can do. -/
inductive SaveEffect (p : Process) (saving : Saving) : SaveEvent → Process → Prop
  | goesOn (e : SaveEvent) (files : CheckpointFiles) (phase : SavePhase)
      (hfile : files.file = p.files.file) (hnot : phase ≠ .ending)
      (hwhole : phase = .replacing → files.tmpFile = some (render saving.order.val)) :
      SaveEffect p saving e
        {p with files := files, saving := some {saving with phase := phase}}
  | returns (e : SaveEvent) : SaveEffect p saving e {p with saving := none}
  | renames (hphase : saving.phase = .replacing) : SaveEffect p saving .renamed {p with
      files := ⟨p.files.tmpFile, none⟩
      saving := some {saving with phase := .ending}
      cell := some saving.taken}

theorem saveStep_effect {saving : Saving} {e : SaveEvent}
    (hstep : p.saveStep path saving e = some p') : SaveEffect p saving e p' := by
  unfold Process.saveStep at hstep
  cases hphase : saving.phase with
  | opening =>
    cases e with
    | notOpened =>
      simp only [hphase, saver, Option.some.injEq] at hstep
      subst hstep
      exact .returns _
    | opened =>
      simp only [hphase, saver, Option.some.injEq] at hstep
      subst hstep
      exact .goesOn _ _ .writing rfl nofun nofun
    | _ => simp [hphase, saver] at hstep
  | writing =>
    cases e with
    | written part =>
      simp only [hphase, saver, Option.some.injEq] at hstep
      subst hstep
      exact .goesOn _ _ .writing rfl nofun nofun
    | notGood =>
      simp only [hphase, saver, Option.some.injEq] at hstep
      subst hstep
      exact .returns _
    | flushed =>
      simp only [hphase, saver, Option.some.injEq] at hstep
      subst hstep
      exact .goesOn _ _ .replacing rfl nofun fun _ => rfl
    | _ => simp [hphase, saver] at hstep
  | replacing =>
    cases e with
    | notRenamed message =>
      simp only [hphase, saver, Option.some.injEq] at hstep
      subst hstep
      exact .returns _
    | renamed =>
      simp only [hphase, saver, Option.some.injEq] at hstep
      subst hstep
      exact .renames hphase
    | _ => simp [hphase, saver] at hstep
  | ending =>
    cases e with
    | ends =>
      simp only [hphase, saver, Option.some.injEq] at hstep
      subst hstep
      exact .returns _
    | _ => simp [hphase, saver] at hstep
  | returned result => cases e <;> simp [hphase, saver] at hstep
  | killed => cases e <;> simp [hphase, saver] at hstep

theorem saveStep_cell {saving : Saving} {e : SaveEvent}
    (hstep : p.saveStep path saving e = some p') :
    p'.cell = p.cell ∨ e = .renamed ∧ p'.cell = some saving.taken := by
  cases saveStep_effect hstep with
  | goesOn => exact .inl rfl
  | returns => exact .inl rfl
  | renames => exact .inr ⟨rfl, rfl⟩

theorem Refines.saveStep (h : Refines p) {saving : Saving} (hsaving : p.saving = some saving)
    {e : SaveEvent} (hstep : p.saveStep path saving e = some p') : Refines p' := by
  obtain ⟨htaken, hreplacing, -⟩ := h.saving saving hsaving
  cases saveStep_effect hstep with
  | goesOn _ files phase hfile hnot hwhole =>
    refine ⟨h.plain, ?_, ?_, ?_⟩
    · simp only [Option.some.injEq, forall_eq']
      exact ⟨htaken, hwhole, fun hending => absurd hending hnot⟩
    · rw [hfile]
      exact h.empty
    · rw [hfile]
      exact h.filled
  | returns => exact ⟨h.plain, nofun, h.empty, h.filled⟩
  | renames hphase =>
    refine ⟨h.plain, ?_, nofun, ?_⟩
    · simp only [Option.some.injEq, forall_eq']
      exact ⟨htaken, nofun, fun _ => rfl⟩
    · simp only [Option.some.injEq, forall_eq']
      exact ⟨htaken, saving.order, hreplacing hphase⟩

theorem Refines.step (h : Refines p) {e : Event}
    (hid : ∀ shardId seq, e = .applied shardId seq → quote ∉ shardId)
    (hstep : p.step path e = some p') : Refines p' := by
  cases e with
  | applied shardId seq =>
    obtain rfl := Option.some.inj hstep
    have hsaving : ∀ saving, p.saving = some saving →
        UnderWay {p with tracker := p.tracker.markApplied shardId seq} saving := by
      intro saving hsaving
      obtain ⟨htaken, hreplacing, hending⟩ := h.saving saving hsaving
      exact ⟨htaken, hreplacing, hending⟩
    exact ⟨plain_markApplied h.plain (hid shardId seq rfl) seq, hsaving, h.empty, h.filled⟩
  | save order =>
    cases hsaving : p.saving with
    | some saving => simp [Process.step, hsaving] at hstep
    | none =>
      simp only [Process.step, hsaving, Option.some.injEq] at hstep
      subst hstep
      refine ⟨h.plain, ?_, h.empty, h.filled⟩
      simp only [Option.some.injEq, forall_eq']
      exact ⟨h.plain, nofun, nofun⟩
  | saveStep e =>
    cases hsaving : p.saving with
    | none => simp [Process.step, hsaving] at hstep
    | some saving =>
      simp only [Process.step, hsaving] at hstep
      exact h.saveStep hsaving hstep
  | load opens =>
    cases hsaving : p.saving with
    | some saving => simp [Process.step, hsaving] at hstep
    | none =>
      simp only [Process.step, hsaving, Option.some.injEq] at hstep
      subst hstep
      exact ⟨h.loaded opens, nofun, h.empty, h.filled⟩
  | crash =>
    obtain rfl := Option.some.inj hstep
    exact ⟨nofun, nofun, h.empty, h.filled⟩

theorem step_cell {e : Event} (hstep : p.step path e = some p') (hcell : p'.cell ≠ p.cell) :
    ∃ saving, p.saving = some saving ∧ e = .saveStep .renamed ∧ p'.cell = some saving.taken := by
  cases e with
  | applied shardId seq =>
    obtain rfl := Option.some.inj hstep
    exact absurd rfl hcell
  | save order =>
    cases hsaving : p.saving with
    | some saving => simp [Process.step, hsaving] at hstep
    | none =>
      simp only [Process.step, hsaving, Option.some.injEq] at hstep
      subst hstep
      exact absurd rfl hcell
  | saveStep e =>
    cases hsaving : p.saving with
    | none => simp [Process.step, hsaving] at hstep
    | some saving =>
      simp only [Process.step, hsaving] at hstep
      rcases saveStep_cell hstep with hsame | ⟨rfl, htaken⟩
      · exact absurd hsame hcell
      · exact ⟨saving, rfl, rfl, htaken⟩
  | load opens =>
    cases hsaving : p.saving with
    | some saving => simp [Process.step, hsaving] at hstep
    | none =>
      simp only [Process.step, hsaving, Option.some.injEq] at hstep
      subst hstep
      exact absurd rfl hcell
  | crash =>
    obtain rfl := Option.some.inj hstep
    exact absurd rfl hcell

theorem Refines.run (h : Refines p) {events : List Event}
    (hids : ∀ shardId seq, .applied shardId seq ∈ events → quote ∉ shardId)
    (hrun : p.run path events = some p') : Refines p' := by
  induction events generalizing p with
  | nil =>
    obtain rfl := Option.some.inj hrun
    exact h
  | cons e events ih =>
    obtain ⟨next, hstep, hrest⟩ := Option.bind_eq_some_iff.mp hrun
    have hnext : Refines next := by
      refine h.step ?_ hstep
      rintro shardId seq rfl
      exact hids shardId seq List.mem_cons_self
    refine ih hnext ?_ hrest
    intro shardId seq hmem
    exact hids shardId seq (List.mem_cons_of_mem _ hmem)

theorem refines_new : Refines {} := ⟨nofun, nofun, fun _ => rfl, nofun⟩

end Keeps

/-! ### What the next process sees -/

theorem check_congr {t t' : SequenceNumberTracker}
    (h : ∀ shardId, t.getState.lookup shardId = t'.getState.lookup shardId)
    (msg : DirectMQMessage) : check t msg = check t' msg := by
  unfold SequenceNumberTracker.getState at h
  unfold check SequenceNumberTracker.isAlreadyApplied SequenceNumberTracker.lastAppliedSequence
  simp only [h]

/-- Between any steps of any process, over any number of crashes and restarts,
a load finds what the cell holds: the state that the last save to rename its
file had taken, for the checker the same one in every respect. A save that
returns success has its state in the cell, and only a save changes the cell. -/
theorem checkpoint_is_durable (path : ByteString) (events : List Event) (p : Process)
    (hids : ∀ shardId seq, .applied shardId seq ∈ events → quote ∉ shardId)
    (hrun : Process.run path {} events = some p) :
    (p.cell = none → ∀ opens, load path opens p.files p.tracker = (⟨true, []⟩, p.tracker)) ∧
    (∀ saved, p.cell = some saved → ∃ restored,
      load path true p.files p.tracker = (⟨true, []⟩, restored) ∧
        (∀ shardId, restored.lastAppliedSequence shardId = saved.lastAppliedSequence shardId) ∧
        ∀ msg, check restored msg = check saved msg) ∧
    (∀ saving, p.saving = some saving → saving.phase = .ending → p.cell = some saving.taken) ∧
    ∀ e p', p.step path e = some p' → p'.cell ≠ p.cell →
      ∃ saving, p.saving = some saving ∧ e = .saveStep .renamed ∧ p'.cell = some saving.taken := by
  have h := refines_new.run hids hrun
  refine ⟨?_, ?_, fun saving hsaving => (h.saving saving hsaving).ending,
    fun e p' => step_cell⟩
  · intro hcell opens
    unfold load
    rw [h.empty hcell]
  · intro saved hcell
    obtain ⟨hsaved, order, hfile⟩ := h.filled saved hcell
    obtain ⟨restored, hload, hlookup⟩ := load_plain path p.tracker hsaved hfile
    refine ⟨restored, hload, ?_, check_congr hlookup⟩
    intro shardId
    exact congrArg (Option.getD · 0) (hlookup shardId)

def sampleEvents : List Event :=
  [.applied (lit "s1") 42, .save UnorderedMap.entryOrder, .saveStep .opened, .saveStep .flushed,
    .saveStep .renamed, .saveStep .ends, .applied (lit "s1") 50, .save UnorderedMap.entryOrder,
    .saveStep .opened, .crash]

/-- The second save did not get to its rename. -/
theorem killed_save_keeps_first : ∃ p restored,
    Process.run (lit "/c.json") {} sampleEvents = some p ∧
      load (lit "/c.json") true p.files p.tracker = (⟨true, []⟩, restored) ∧
        restored.lastAppliedSequence (lit "s1") = 42 := by
  refine ⟨⟨.new, none, ⟨some (render [(lit "s1", 42)]), some []⟩,
    some (SequenceNumberTracker.new.markApplied (lit "s1") 42)⟩, ?_⟩
  have hids : ∀ shardId seq, .applied shardId seq ∈ sampleEvents → quote ∉ shardId := by
    intro shardId seq hmem
    have hid : shardId = lit "s1" := by
      simp [sampleEvents] at hmem
      tauto
    rw [hid]
    decide
  have hrun : Process.run (lit "/c.json") {} sampleEvents =
      some ⟨.new, none, ⟨some (render [(lit "s1", 42)]), some []⟩,
        some (SequenceNumberTracker.new.markApplied (lit "s1") 42)⟩ := rfl
  obtain ⟨restored, hload, hlast, -⟩ :=
    (checkpoint_is_durable (lit "/c.json") sampleEvents _ hids hrun).2.1 _ rfl
  exact ⟨restored, hrun, hload, (hlast _).trans (by decide)⟩

end OpenArangoDBCore.Replication.DurableCheckpoint
