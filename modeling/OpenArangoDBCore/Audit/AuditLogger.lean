import OpenArangoDBCore.Basics
import OpenArangoDBCore.Lib.MutualExclusion

/-!
# The audit logger (AuditLogger.cpp)

Producers append events to a buffer, and one writer thread swaps it out batch
by batch and writes the batches to the output files. The threads interleave at
the accesses to the mutex, the buffer, the flag `_running` and the condition
variable. Events are numbered in the order in which they are enqueued.
-/

namespace OpenArangoDBCore.Audit

structure AuditEvent where
  timestamp : ByteString
  server : ByteString
  topic : ByteString
  username : ByteString
  database : ByteString
  clientIp : ByteString
  authMethod : ByteString
  text : ByteString
  deriving DecidableEq

def AuditEvent.format (event : AuditEvent) : ByteString :=
  event.timestamp ++ lit "|" ++ event.server ++ lit "|" ++ event.topic ++ lit "|" ++
    event.username ++ lit "|" ++ event.database ++ lit "|" ++ event.clientIp ++ lit "|" ++
    event.authMethod ++ lit "|" ++ event.text

namespace AuditLogger
open Interleaving

/-- `text` is what was inserted, `flushed` how much of it is in the file for sure. -/
structure Ofstream where
  is_open : Bool
  text : ByteString
  flushed : ℕ

def Ofstream.insert (stream : Ofstream) (s : ByteString) : Ofstream :=
  {stream with text := stream.text ++ s}

def Ofstream.flush (stream : Ofstream) : Ofstream :=
  {stream with flushed := stream.text.length}

structure FileOutput where
  path : ByteString
  stream : Option Ofstream

/-- `if (fo.stream && fo.stream->is_open())` -/
def FileOutput.whenOpen (f : Ofstream → Ofstream) (fo : FileOutput) : FileOutput :=
  match fo.stream with
  | none => fo
  | some stream => if stream.is_open then {fo with stream := some (f stream)} else fo

def writeEvent (fileOutputs : List FileOutput) (event : AuditEvent) : List FileOutput :=
  fileOutputs.map (FileOutput.whenOpen fun stream =>
    (stream.insert event.format).insert (lit "\n"))

def flushOutputs (fileOutputs : List FileOutput) : List FileOutput :=
  fileOutputs.map (FileOutput.whenOpen Ofstream.flush)

/-- An event in the buffer. -/
structure Entry where
  number : ℕ
  event : AuditEvent
  deriving DecidableEq

/-- `waiting` tells whether the writer is asleep on `_cv`, `exited` whether it
has returned; `enqueued` counts the events ever enqueued. -/
structure Logger where
  buffer : List Entry
  locked : Bool
  running : Bool
  waiting : Bool
  exited : Bool
  joinable : Bool
  fileOutputs : List FileOutput
  enqueued : ℕ

/-- The parameter `last` marks the final drain, after the loop. -/
inductive WriterPhase where
  | locking
  | testing
  | falling
  | asleep
  | timedOut
  | swapping (last : Bool)
  | unlocking (last : Bool) (batch : List Entry)
  | writing (last : Bool) (batch : List Entry)
  | flushing (last : Bool)
  | testingRunning
  | lockingAgain
  | testingEmpty
  | unlockingAgain (empty : Bool)
  | lockingLast
  | exited
  deriving DecidableEq

inductive ClientPhase where
  | idle
  | logging (event : AuditEvent)
  | pushing (event : AuditEvent)
  | unlocking (entry : Entry)
  | notifying (entry : Entry)
  | notifyingStop
  | joining
  deriving DecidableEq

inductive Control where
  | writer (phase : WriterPhase)
  | client (phase : ClientPhase)
  deriving DecidableEq

inductive Event where
  | step
  | spuriousWakeup
  | timeout
  | log (event : AuditEvent)
  | stop

/-- `drainLoop` -/
def writerStep (s : Logger) : WriterPhase → Event → Option (Logger × WriterPhase)
  | .locking, .step => if s.locked then none else some ({s with locked := true}, .testing)
  | .testing, .step =>
    if s.buffer ≠ [] ∨ s.running = false then some (s, .swapping false) else some (s, .falling)
  | .falling, .step => some ({s with locked := false, waiting := true}, .asleep)
  | .asleep, .step =>
    if s.waiting ∨ s.locked then none else some ({s with locked := true}, .testing)
  | .asleep, .spuriousWakeup => some ({s with waiting := false}, .asleep)
  | .asleep, .timeout => some ({s with waiting := false}, .timedOut)
  -- `wait_for` evaluates the predicate once more and returns either way
  | .timedOut, .step =>
    if s.locked then none else some ({s with locked := true}, .swapping false)
  | .swapping last, .step => some ({s with buffer := []}, .unlocking last s.buffer)
  | .unlocking last batch, .step => some ({s with locked := false}, .writing last batch)
  | .writing last [], .step => some (s, .flushing last)
  | .writing last (entry :: batch), .step =>
    some ({s with fileOutputs := writeEvent s.fileOutputs entry.event}, .writing last batch)
  | .flushing false, .step =>
    some ({s with fileOutputs := flushOutputs s.fileOutputs}, .testingRunning)
  | .flushing true, .step =>
    some ({s with fileOutputs := flushOutputs s.fileOutputs, exited := true}, .exited)
  | .testingRunning, .step => some (s, if s.running then .locking else .lockingAgain)
  | .lockingAgain, .step =>
    if s.locked then none else some ({s with locked := true}, .testingEmpty)
  | .testingEmpty, .step => some (s, .unlockingAgain s.buffer.isEmpty)
  | .unlockingAgain empty, .step =>
    some ({s with locked := false}, if empty then .lockingLast else .locking)
  | .lockingLast, .step =>
    if s.locked then none else some ({s with locked := true}, .swapping true)
  | _, _ => none

/-- `log` and `stop` -/
def clientStep (s : Logger) : ClientPhase → Event → Option (Logger × ClientPhase)
  | .idle, .log event => some (s, .logging event)
  | .logging event, .step =>
    if s.locked then none else some ({s with locked := true}, .pushing event)
  | .pushing event, .step =>
    some ({s with buffer := s.buffer ++ [⟨s.enqueued, event⟩], enqueued := s.enqueued + 1},
      .unlocking ⟨s.enqueued, event⟩)
  | .unlocking entry, .step => some ({s with locked := false}, .notifying entry)
  -- the writer is the only thread that waits on `_cv`
  | .notifying _, .step => some ({s with waiting := false}, .idle)
  | .idle, .stop => some ({s with running := false}, .notifyingStop)
  | .notifyingStop, .step => some ({s with waiting := false}, .joining)
  | .joining, .step =>
    if s.joinable then
      if s.exited then some ({s with joinable := false}, .idle) else none
    else some (s, .idle)
  | _, _ => none

def logger : Program Logger Control Event
  | s, .writer phase, e => (writerStep s phase e).map fun r => (r.1, .writer r.2)
  | s, .client phase, e => (clientStep s phase e).map fun r => (r.1, .client r.2)

def entries (events : List AuditEvent) : List Entry :=
  events.zipIdx.map fun p => ⟨p.2, p.1⟩

/-- The logger as `start` leaves it; `before` was logged until then. The
writer is `none`, the others are of type `C`. -/
def started {C : Type} (before : List AuditEvent) (outputs : List FileOutput) :
    Config (Option C) Logger Control where
  shared := ⟨entries before, false, true, false, false, true, outputs, before.length⟩
  control
    | none => .writer .locking
    | some _ => .client .idle

/-! ### The transitions -/

inductive Step (s : Logger) : Control → Event → Logger → Control → Prop where
  | lock (h : s.locked = false) :
      Step s (.writer .locking) .step {s with locked := true} (.writer .testing)
  | predicateTrue : Step s (.writer .testing) .step s (.writer (.swapping false))
  | predicateFalse : Step s (.writer .testing) .step s (.writer .falling)
  | wait : Step s (.writer .falling) .step {s with locked := false, waiting := true}
      (.writer .asleep)
  | wake (h : s.locked = false) :
      Step s (.writer .asleep) .step {s with locked := true} (.writer .testing)
  | spuriousWakeup : Step s (.writer .asleep) .spuriousWakeup {s with waiting := false}
      (.writer .asleep)
  | timeout : Step s (.writer .asleep) .timeout {s with waiting := false} (.writer .timedOut)
  | lockLate (h : s.locked = false) :
      Step s (.writer .timedOut) .step {s with locked := true} (.writer (.swapping false))
  | swap {last : Bool} : Step s (.writer (.swapping last)) .step {s with buffer := []}
      (.writer (.unlocking last s.buffer))
  | swapped {last : Bool} {batch : List Entry} : Step s (.writer (.unlocking last batch)) .step
      {s with locked := false} (.writer (.writing last batch))
  | write {last : Bool} {entry : Entry} {batch : List Entry} :
      Step s (.writer (.writing last (entry :: batch))) .step
        {s with fileOutputs := writeEvent s.fileOutputs entry.event} (.writer (.writing last batch))
  | written {last : Bool} :
      Step s (.writer (.writing last [])) .step s (.writer (.flushing last))
  | flush : Step s (.writer (.flushing false)) .step
      {s with fileOutputs := flushOutputs s.fileOutputs} (.writer .testingRunning)
  | exit : Step s (.writer (.flushing true)) .step
      {s with fileOutputs := flushOutputs s.fileOutputs, exited := true} (.writer .exited)
  | goOn (h : s.running = true) : Step s (.writer .testingRunning) .step s (.writer .locking)
  | stopped (h : s.running = false) :
      Step s (.writer .testingRunning) .step s (.writer .lockingAgain)
  | lockAgain (h : s.locked = false) :
      Step s (.writer .lockingAgain) .step {s with locked := true} (.writer .testingEmpty)
  | testEmpty : Step s (.writer .testingEmpty) .step s (.writer (.unlockingAgain s.buffer.isEmpty))
  | drained : Step s (.writer (.unlockingAgain true)) .step {s with locked := false}
      (.writer .lockingLast)
  | notDrained : Step s (.writer (.unlockingAgain false)) .step {s with locked := false}
      (.writer .locking)
  | lockLast (h : s.locked = false) :
      Step s (.writer .lockingLast) .step {s with locked := true} (.writer (.swapping true))
  | log {event : AuditEvent} : Step s (.client .idle) (.log event) s (.client (.logging event))
  | lockBuffer {event : AuditEvent} (h : s.locked = false) :
      Step s (.client (.logging event)) .step {s with locked := true} (.client (.pushing event))
  | push {event : AuditEvent} : Step s (.client (.pushing event)) .step
      {s with buffer := s.buffer ++ [⟨s.enqueued, event⟩], enqueued := s.enqueued + 1}
      (.client (.unlocking ⟨s.enqueued, event⟩))
  | pushed {entry : Entry} : Step s (.client (.unlocking entry)) .step {s with locked := false}
      (.client (.notifying entry))
  | notifyOne {entry : Entry} : Step s (.client (.notifying entry)) .step {s with waiting := false}
      (.client .idle)
  | stop : Step s (.client .idle) .stop {s with running := false} (.client .notifyingStop)
  | notifyStop : Step s (.client .notifyingStop) .step {s with waiting := false} (.client .joining)
  | join (hjoinable : s.joinable = true) (hexited : s.exited = true) :
      Step s (.client .joining) .step {s with joinable := false} (.client .idle)
  | joined (hjoinable : s.joinable = false) : Step s (.client .joining) .step s (.client .idle)

theorem step_of_writer {s s' : Logger} {phase phase' : WriterPhase} {e : Event}
    (h : writerStep s phase e = some (s', phase')) :
    Step s (.writer phase) e s' (.writer phase') := by
  unfold writerStep at h
  split at h
  case h_1 =>
    split at h
    next => cases h
    next hlock =>
      cases h
      exact .lock (eq_false_of_ne_true hlock)
  case h_2 =>
    split at h
    next =>
      cases h
      exact .predicateTrue
    next =>
      cases h
      exact .predicateFalse
  case h_3 =>
    cases h
    exact .wait
  case h_4 =>
    split at h
    next => cases h
    next hwake =>
      cases h
      exact .wake (eq_false_of_ne_true (not_or.mp hwake).2)
  case h_5 =>
    cases h
    exact .spuriousWakeup
  case h_6 =>
    cases h
    exact .timeout
  case h_7 =>
    split at h
    next => cases h
    next hlock =>
      cases h
      exact .lockLate (eq_false_of_ne_true hlock)
  case h_8 =>
    cases h
    exact .swap
  case h_9 =>
    cases h
    exact .swapped
  case h_10 =>
    cases h
    exact .written
  case h_11 =>
    cases h
    exact .write
  case h_12 =>
    cases h
    exact .flush
  case h_13 =>
    cases h
    exact .exit
  case h_14 =>
    cases h
    cases hrunning : s.running with
    | true => exact .goOn hrunning
    | false => exact .stopped hrunning
  case h_15 =>
    split at h
    next => cases h
    next hlock =>
      cases h
      exact .lockAgain (eq_false_of_ne_true hlock)
  case h_16 =>
    cases h
    exact .testEmpty
  case h_17 empty =>
    cases h
    cases empty with
    | true => exact .drained
    | false => exact .notDrained
  case h_18 =>
    split at h
    next => cases h
    next hlock =>
      cases h
      exact .lockLast (eq_false_of_ne_true hlock)
  case h_19 => cases h

theorem step_of_client {s s' : Logger} {phase phase' : ClientPhase} {e : Event}
    (h : clientStep s phase e = some (s', phase')) :
    Step s (.client phase) e s' (.client phase') := by
  unfold clientStep at h
  split at h
  case h_1 =>
    cases h
    exact .log
  case h_2 =>
    split at h
    next => cases h
    next hlock =>
      cases h
      exact .lockBuffer (eq_false_of_ne_true hlock)
  case h_3 =>
    cases h
    exact .push
  case h_4 =>
    cases h
    exact .pushed
  case h_5 =>
    cases h
    exact .notifyOne
  case h_6 =>
    cases h
    exact .stop
  case h_7 =>
    cases h
    exact .notifyStop
  case h_8 =>
    split at h
    next hjoinable =>
      split at h
      next hexited =>
        cases h
        exact .join hjoinable hexited
      next => cases h
    next hjoinable =>
      cases h
      exact .joined (eq_false_of_ne_true hjoinable)
  case h_9 => cases h

theorem step_of_logger {s s' : Logger} {l l' : Control} {e : Event}
    (h : logger s l e = some (s', l')) : Step s l e s' l' := by
  cases l with
  | writer phase =>
    obtain ⟨r, hr, hres⟩ := Option.map_eq_some_iff.mp h
    cases hres
    exact step_of_writer hr
  | client phase =>
    obtain ⟨r, hr, hres⟩ := Option.map_eq_some_iff.mp h
    cases hres
    exact step_of_client hr

/-! ### The mutex -/

variable {s s' : Logger} {l l' : Control} {e : Event}

/-- Between taking `_mutex` and freeing it. -/
def holds : Control → Bool
  | .writer .testing => true
  | .writer .falling => true
  | .writer (.swapping _) => true
  | .writer (.unlocking _ _) => true
  | .writer .testingEmpty => true
  | .writer (.unlockingAgain _) => true
  | .client (.pushing _) => true
  | .client (.unlocking _) => true
  | _ => false

theorem logger_guarded : Guarded logger Logger.locked holds where
  acquire s l e s' l' hlogger hl hl' := by
    cases step_of_logger hlogger with
    | lock h => exact h
    | wake h => exact h
    | lockLate h => exact h
    | lockAgain h => exact h
    | lockLast h => exact h
    | lockBuffer h => exact h
    | _ => first | exact Bool.noConfusion hl' | exact Bool.noConfusion hl
  change s l e s' l' hlogger htaken := by
    cases step_of_logger hlogger with
    | _ => first | exact htaken rfl | simp [holds]

theorem started_exclusive (C : Type) (before : List AuditEvent) (outputs : List FileOutput) :
    Exclusive Logger.locked holds (started (C := C) before outputs) where
  unique t u ht := by cases t <;> cases ht
  taken t ht := by cases t <;> cases ht

theorem buffer_guarded (h : Step s l e s' l') (hbuffer : s'.buffer ≠ s.buffer) :
    holds l = true := by
  cases h with
  | swap => rfl
  | push => rfl
  | _ => exact absurd rfl hbuffer

/-- No other thread is in a critical section when the buffer changes. -/
theorem buffer_changed_alone {C : Type} [DecidableEq C] {before : List AuditEvent}
    {outputs : List FileOutput} {tr : List (Option C × Event)}
    {c c' : Config (Option C) Logger Control} {x : Option C × Event}
    (hrun : exec logger (started before outputs) tr = some c) (hf : fire logger c x = some c')
    (hbuffer : c'.shared.buffer ≠ c.shared.buffer) (u : Option C) (hu : u ≠ x.1) :
    holds (c.control u) = false := by
  have hexclusive := logger_guarded.run (started_exclusive C before outputs) hrun
  have hown := buffer_guarded (step_of_logger (fire_own hf)) hbuffer
  exact hexclusive.alone hown hu

end AuditLogger
end OpenArangoDBCore.Audit
