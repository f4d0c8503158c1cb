import OpenArangoDBCore.Lib.Interleaving
import OpenArangoDBCore.Replication.ReplicationCheckpoint

/-!
# Failures and crashes during a save

The file operations of `save` one by one. What stands in the temporary file
before a flush has succeeded is left open, and the process can be killed before
any of the operations.
-/

namespace OpenArangoDBCore.Replication
open Interleaving
open RocksDBEngine.BackupManifest (quote)

inductive SavePhase where
  | opening
  | writing
  | replacing
  | ending
  | returned (result : CheckpointResult)
  | killed

/-- What the file system answers, or what happens to the process. -/
inductive SaveEvent where
  | notOpened
  | opened
  | written (part : ByteString)
  | notGood
  | flushed
  | notRenamed (message : ByteString)
  | renamed
  | ends
  | killed

namespace ReplicationCheckpoint

def saver (path content : ByteString) : Program CheckpointFiles SavePhase SaveEvent
  | files, .opening, .notOpened => some (files, .returned
      ⟨false, lit "Failed to open temporary checkpoint file: " ++ (path ++ lit ".tmp")⟩)
  -- std::ios::trunc
  | files, .opening, .opened => some ({files with tmpFile := some []}, .writing)
  | files, .writing, .written part => some ({files with tmpFile := some part}, .writing)
  | files, .writing, .notGood => some (files, .returned
      ⟨false, lit "Failed to write checkpoint data to: " ++ (path ++ lit ".tmp")⟩)
  | files, .writing, .flushed => some ({files with tmpFile := some content}, .replacing)
  | files, .replacing, .notRenamed message => some (files, .returned
      ⟨false, lit "Failed to rename checkpoint file: " ++ message⟩)
  | files, .replacing, .renamed => some (⟨files.tmpFile, none⟩, .ending)
  | files, .ending, .ends => some (files, .returned ⟨true, []⟩)
  | files, .opening, .killed => some (files, .killed)
  | files, .writing, .killed => some (files, .killed)
  | files, .replacing, .killed => some (files, .killed)
  | files, .ending, .killed => some (files, .killed)
  | _, _, _ => none

section Run
variable {path : ByteString} {tracker : SequenceNumberTracker}
  {order : UnorderedMap.IterationOrder tracker.getState}
  {files before after : CheckpointFiles} {phase next : SavePhase}

/-- The files in each phase of a save that began with `files`. A save that has
returned did what `save` does. -/
def Progress (path : ByteString) (tracker : SequenceNumberTracker)
    (order : UnorderedMap.IterationOrder tracker.getState) (files after : CheckpointFiles) :
    SavePhase → Prop
  | .opening => after = files
  | .writing => ∃ part, after = {files with tmpFile := some part}
  | .replacing => after = {files with tmpFile := some (render order.val)}
  | .ending => after = ⟨some (render order.val), none⟩
  | .returned result => ∃ outcome, save path tracker order outcome files = (result, after)
  | .killed => after.file = files.file ∨ after.file = some (render order.val)

theorem progress_step {event : SaveEvent} (h : Progress path tracker order files before phase)
    (hstep : saver path (render order.val) before phase event = some (after, next)) :
    Progress path tracker order files after next := by
  cases phase with
  | opening =>
    obtain rfl : before = files := h
    cases event with
    | notOpened =>
      cases hstep
      exact ⟨.notOpened, rfl⟩
    | opened =>
      cases hstep
      exact ⟨[], rfl⟩
    | killed =>
      cases hstep
      exact .inl rfl
    | _ => cases hstep
  | writing =>
    obtain ⟨part, rfl⟩ := h
    cases event with
    | written more =>
      cases hstep
      exact ⟨more, rfl⟩
    | notGood =>
      cases hstep
      exact ⟨.notWritten part, rfl⟩
    | flushed =>
      cases hstep
      exact rfl
    | killed =>
      cases hstep
      exact .inl rfl
    | _ => cases hstep
  | replacing =>
    obtain rfl : before = _ := h
    cases event with
    | notRenamed message =>
      cases hstep
      exact ⟨.notRenamed message, rfl⟩
    | renamed =>
      cases hstep
      exact rfl
    | killed =>
      cases hstep
      exact .inl rfl
    | _ => cases hstep
  | ending =>
    obtain rfl : before = _ := h
    cases event with
    | ends =>
      cases hstep
      exact ⟨.renamed, rfl⟩
    | killed =>
      cases hstep
      exact .inr rfl
    | _ => cases hstep
  | returned result => cases event <;> cases hstep
  | killed => cases event <;> cases hstep

theorem progress_alone {events : List SaveEvent}
    (h : Progress path tracker order files before phase)
    (hrun : alone (saver path (render order.val)) before phase events = some (after, next)) :
    Progress path tracker order files after next := by
  induction events generalizing before phase with
  | nil =>
    cases hrun
    exact h
  | cons event events ih =>
    obtain ⟨⟨reached, later⟩, hstep, hrest⟩ := Option.bind_eq_some_iff.mp hrun
    exact ih (progress_step h hstep) hrest

/-- Each outcome of `save` is that of a run. -/
theorem exists_run_of_outcome (outcome : SaveOutcome) :
    ∃ events, alone (saver path (render order.val)) files .opening events =
      some ((save path tracker order outcome files).2,
        .returned (save path tracker order outcome files).1) := by
  cases outcome with
  | notOpened => exact ⟨[.notOpened], rfl⟩
  | notWritten written => exact ⟨[.opened, .written written, .notGood], rfl⟩
  | notRenamed message => exact ⟨[.opened, .flushed, .notRenamed message], rfl⟩
  | renamed => exact ⟨[.opened, .flushed, .renamed, .ends], rfl⟩

/-! ### What a later load sees -/

/-- A file left over beside the checkpoint is not looked at. -/
theorem load_congr (h : after.file = before.file) (opens : Bool) (target : SequenceNumberTracker) :
    load path opens after target = load path opens before target := by
  unfold load
  rw [h]

def SeesPrevious (path : ByteString) (files after : CheckpointFiles) : Prop :=
  ∀ opens target, load path opens after target = load path opens files target

structure SeesNew (path : ByteString) (tracker : SequenceNumberTracker)
    (order : UnorderedMap.IterationOrder tracker.getState) (after : CheckpointFiles) : Prop where
  complete : ∀ opens target,
    load path opens after target = load path opens ⟨some (render order.val), none⟩ target
  restores : (∀ shardId ∈ tracker.getState, quote ∉ shardId) → ∀ target,
    ∃ restored, load path true after target = (⟨true, []⟩, restored) ∧
      ∀ shardId, restored.getState.lookup shardId = tracker.getState.lookup shardId

theorem seesNew_of_file (h : after.file = some (render order.val)) :
    SeesNew path tracker order after := by
  have hsame : ∀ opens target,
      load path opens after target = load path opens ⟨some (render order.val), none⟩ target :=
    load_congr h
  refine ⟨hsame, fun hids target => ?_⟩
  have hround := (checkpoint_round_trip path tracker order hids ⟨none, none⟩ target).2
  rw [hsame]
  exact hround

theorem save_file {outcome : SaveOutcome} {result : CheckpointResult}
    (h : save path tracker order outcome files = (result, after)) :
    (result.success = false → after.file = files.file) ∧
      (result.success = true → after.file = some (render order.val)) := by
  cases outcome with
  | notOpened =>
    cases h
    exact ⟨fun _ => rfl, nofun⟩
  | notWritten written =>
    cases h
    exact ⟨fun _ => rfl, nofun⟩
  | notRenamed message =>
    cases h
    exact ⟨fun _ => rfl, nofun⟩
  | renamed =>
    cases h
    exact ⟨nofun, fun _ => rfl⟩

theorem Progress.file (h : Progress path tracker order files after phase) :
    after.file = files.file ∨ after.file = some (render order.val) := by
  cases phase with
  | opening =>
    obtain rfl := h
    exact .inl rfl
  | writing =>
    obtain ⟨part, rfl⟩ := h
    exact .inl rfl
  | replacing =>
    obtain rfl := h
    exact .inl rfl
  | ending =>
    obtain rfl := h
    exact .inr rfl
  | returned result =>
    obtain ⟨outcome, hsave⟩ := h
    cases hsuccess : result.success with
    | false => exact .inl ((save_file hsave).1 hsuccess)
    | true => exact .inr ((save_file hsave).2 hsuccess)
  | killed => exact h

theorem save_all_or_nothing {events : List SaveEvent}
    (h : alone (saver path (render order.val)) files .opening events = some (after, phase)) :
    (SeesPrevious path files after ∨ SeesNew path tracker order after) ∧
      ∀ result, phase = .returned result →
        (result.success = false → SeesPrevious path files after) ∧
          (result.success = true → SeesNew path tracker order after) := by
  have hstart : Progress path tracker order files files .opening := rfl
  have hprogress := progress_alone hstart h
  refine ⟨hprogress.file.imp load_congr seesNew_of_file, ?_⟩
  rintro result rfl
  obtain ⟨outcome, hsave⟩ := hprogress
  obtain ⟨hfailed, hdone⟩ := save_file hsave
  exact ⟨fun h => load_congr (hfailed h), fun h => seesNew_of_file (hdone h)⟩

end Run

def sampleOrder : UnorderedMap.IterationOrder sampleTracker.getState :=
  ⟨[(lit "s1", 42), (lit "a\x7d:\n shards 7", 18446744073709551615)], by decide +kernel⟩

/-- Killed with half of the data in a temporary file that an earlier run left
over, and run to its end. -/
theorem sampleTracker_all_or_nothing :
    (SeesPrevious (lit "/c.json") ⟨none, some (lit "old")⟩ ⟨none, some header⟩ ∨
      SeesNew (lit "/c.json") sampleTracker sampleOrder ⟨none, some header⟩) ∧
    SeesNew (lit "/c.json") sampleTracker sampleOrder ⟨some (render sampleOrder.val), none⟩ := by
  have hkilled : alone (saver (lit "/c.json") (render sampleOrder.val))
      ⟨none, some (lit "old")⟩ .opening [.opened, .written header, .killed] =
        some (⟨none, some header⟩, .killed) := rfl
  have hended : alone (saver (lit "/c.json") (render sampleOrder.val))
      ⟨none, some (lit "old")⟩ .opening [.opened, .flushed, .renamed, .ends] =
        some (⟨some (render sampleOrder.val), none⟩, .returned ⟨true, []⟩) := rfl
  exact ⟨(save_all_or_nothing hkilled).1, ((save_all_or_nothing hended).2 _ rfl).2 rfl⟩

end ReplicationCheckpoint
end OpenArangoDBCore.Replication
