import OpenArangoDBCore.Audit.AuditCompleteness
import OpenArangoDBCore.Lib.Records

/-!
# Reading the audit file back (AuditLogger.cpp)

`AuditEvent::format` escapes nothing. The events can be read out of the file
as long as no field has a newline and no field before the text has a `|`;
with a newline in a text one event looks like two.
-/

namespace OpenArangoDBCore.Audit
open Records AuditLogger

def newline : Byte := 0x0A
def pipe : Byte := 0x7C

def AuditEvent.fields (event : AuditEvent) : List ByteString :=
  [event.timestamp, event.server, event.topic, event.username, event.database, event.clientIp,
    event.authMethod, event.text]

def AuditEvent.ofFields : List ByteString → Option AuditEvent
  | [timestamp, server, topic, username, database, clientIp, authMethod, text] =>
    some ⟨timestamp, server, topic, username, database, clientIp, authMethod, text⟩
  | _ => none

theorem AuditEvent.format_eq (event : AuditEvent) :
    event.format = [pipe].intercalate event.fields := by
  simp [AuditEvent.format, AuditEvent.fields, show lit "|" = [pipe] from rfl]

theorem AuditEvent.ofFields_iff {fields : List ByteString} {event : AuditEvent} :
    AuditEvent.ofFields fields = some event ↔ fields = event.fields := by
  constructor
  · intro h
    unfold AuditEvent.ofFields at h
    split at h
    · obtain rfl := Option.some.inj h
      rfl
    · cases h
  · rintro rfl
    rfl

/-- The output files after `writeEvent` of the events, one after the other. -/
def writeEvents (fileOutputs : List FileOutput) (events : List AuditEvent) : List FileOutput :=
  events.foldl writeEvent fileOutputs

/-- What a new audit file holds after the events were written. -/
def auditFileText (path : ByteString) (events : List AuditEvent) : ByteString :=
  (writeEvents [⟨path, some ⟨true, [], 0⟩⟩] events).flatMap FileOutput.text

/-- A line of the file, cut at its first seven separators. -/
def readEvent (line : ByteString) : Option AuditEvent := (cut pipe 7 line).bind AuditEvent.ofFields

/-- The event of each line. -/
def readEvents (text : ByteString) : List (Option AuditEvent) :=
  (readLines newline text).map readEvent

/-- No field has a newline, and none before the text a separator. -/
def AuditEvent.Separable (event : AuditEvent) : Prop :=
  (∀ field ∈ event.fields, newline ∉ field) ∧ ∀ field ∈ event.fields.dropLast, pipe ∉ field

instance (event : AuditEvent) : Decidable event.Separable :=
  inferInstanceAs (Decidable (_ ∧ _))

theorem writeEvents_text (path text : ByteString) (flushed : ℕ) (events : List AuditEvent) :
    (writeEvents [⟨path, some ⟨true, text, flushed⟩⟩] events).flatMap FileOutput.text =
      text ++ writeLines newline (events.map AuditEvent.format) := by
  induction events generalizing text with
  | nil => simp [writeEvents, writeLines, FileOutput.text]
  | cons event events ih =>
    have hnext := ih (text ++ event.format ++ lit "\n")
    rw [writeEvents, List.foldl_cons]
    refine hnext.trans ?_
    simp [writeLines, show lit "\n" = [newline] from rfl]

theorem auditFile_eq (path : ByteString) (events : List AuditEvent) :
    auditFileText path events = writeLines newline (events.map AuditEvent.format) :=
  writeEvents_text path [] 0 events

theorem readEvents_iff (text : ByteString) (events : List AuditEvent) :
    readEvents text = events.map some ↔
      (readLines newline text).map (cut pipe 7) = (events.map AuditEvent.fields).map some := by
  have hline : ∀ (line : ByteString) (event : AuditEvent),
      readEvent line = some event ↔ cut pipe 7 line = some event.fields := by
    intro line event
    unfold readEvent
    rw [Option.bind_eq_some_iff]
    simp [AuditEvent.ofFields_iff]
  have hlines : ∀ lines : List ByteString, lines.map readEvent = events.map some ↔
      lines.map (cut pipe 7) = (events.map AuditEvent.fields).map some := by
    induction events with
    | nil => simp
    | cons event events ih =>
      intro lines
      cases lines with
      | nil => simp
      | cons line lines => simp only [List.map_cons, List.cons_eq_cons, hline, ih]
  exact hlines (readLines newline text)

/-- The file gives the events back, in order and one to a line, exactly when
each of them can be separated. -/
theorem audit_file_reads_back_iff (path : ByteString) (events : List AuditEvent) :
    readEvents (auditFileText path events) = events.map some ↔
      ∀ event ∈ events, event.Separable := by
  have hformat : events.map AuditEvent.format =
      (events.map AuditEvent.fields).map [pipe].intercalate := by
    rw [List.map_map]
    exact List.map_congr_left fun event _ => event.format_eq
  rw [readEvents_iff, auditFile_eq, hformat, records_read_back_iff (by decide), List.forall_mem_map]
  refine forall₂_congr fun event _ => ?_
  exact ⟨fun h => ⟨h.newline, h.separator⟩, fun h => ⟨rfl, h.1, h.2⟩⟩

def loginEvent : AuditEvent :=
  ⟨lit "12:00", lit "srv", lit "authentication", lit "bob", lit "db", lit "10.0.0.1", lit "basic",
    lit "ok"⟩

/-- What bob would like to be on record. -/
def forgedEvent : AuditEvent :=
  ⟨lit "12:01", lit "srv", lit "authentication", lit "root", lit "db", lit "10.0.0.2", lit "basic",
    lit "ok"⟩

/-- One event, with a newline in its text, and the file of two events. -/
theorem newline_forges_event :
    let forging := {loginEvent with text := loginEvent.text ++ newline :: forgedEvent.format}
    auditFileText (lit "audit.log") [forging] = auditFileText (lit "audit.log") [loginEvent, forgedEvent] ∧
      readEvents (auditFileText (lit "audit.log") [forging]) = [some loginEvent, some forgedEvent] := by
  intro forging
  have hsame : auditFileText (lit "audit.log") [forging] =
      auditFileText (lit "audit.log") [loginEvent, forgedEvent] := by
    simp [auditFile_eq, writeLines, forging, AuditEvent.format]
  refine ⟨hsame, ?_⟩
  rw [hsame]
  decide

end OpenArangoDBCore.Audit
