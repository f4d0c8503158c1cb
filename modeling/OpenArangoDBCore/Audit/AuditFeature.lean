import OpenArangoDBCore.Audit.AuditRecords
import OpenArangoDBCore.RocksDBEngine.RocksDBHotBackup

/-!
# The audit log over several lives of the server (AuditFeature.cpp, AuditLogger.cpp:23-42)

Each life opens the files of its options for appending. What its logger has
flushed is in the files at its end, and perhaps more; what it still held back
is lost.
-/

namespace OpenArangoDBCore.Audit
open Interleaving AuditLogger Records RocksDBEngine.RocksDBHotBackup

namespace AuditLogger

/-- `addOutput` for a file; `opens` tells which of them can be opened. -/
def addOutput (opens : ByteString → Bool) (target : ByteString) : Except ByteString FileOutput :=
  if opens target then .ok ⟨target, some ⟨true, [], 0⟩⟩
  else .error (lit "Cannot open audit file: " ++ target)

end AuditLogger

namespace AuditFeature

def isFile (spec : ByteString) : Bool := decide (spec.take 7 = lit "file://")

def isSyslog (spec : ByteString) : Bool := decide (spec.take 9 = lit "syslog://")

/-- What the exception says, if there is one. -/
def validateOptions (outputSpecs : List ByteString) : Option ByteString :=
  (outputSpecs.find? fun spec => !isFile spec && !isSyslog spec).map fun spec =>
    lit "Invalid --audit.output spec: '" ++ spec ++
      lit "'. Expected file:///path or syslog://facility"

def targets (outputSpecs : List ByteString) : List ByteString :=
  outputSpecs.filterMap fun spec => if isFile spec then some (spec.drop 7) else none

/-- A stream of what is appended. -/
def fresh (target : ByteString) : FileOutput := ⟨target, some ⟨true, [], 0⟩⟩

def prepare (opens : ByteString → Bool) (outputSpecs : List ByteString) :
    Except ByteString (List FileOutput) :=
  (targets outputSpecs).mapM (addOutput opens)

/-! ### What is logged -/

structure Arguments where
  username : ByteString
  database : ByteString
  clientIp : ByteString
  authMethod : ByteString
  text : ByteString

def currentTimestamp (now : ℤ) : ByteString := putTime (gmtime (toTimeT now)) (lit ":") ++ lit "Z"

def logEvent (topic : ByteString) (now : ℤ) (hostname : ByteString) (a : Arguments) : AuditEvent :=
  ⟨currentTimestamp now, hostname, topic, a.username, a.database, a.clientIp, a.authMethod, a.text⟩

def logAuthentication := logEvent (lit "authentication")
def logAuthorization := logEvent (lit "authorization")
def logCollection := logEvent (lit "collection")
def logDatabase := logEvent (lit "database")
def logDocument := logEvent (lit "document")
def logView := logEvent (lit "view")
def logService := logEvent (lit "service")
def logHotbackup := logEvent (lit "hotbackup")

def topics : List ByteString :=
  [lit "authentication", lit "authorization", lit "collection", lit "database", lit "document",
    lit "view", lit "service", lit "hotbackup"]

def Clean (field : ByteString) : Prop := newline ∉ field ∧ pipe ∉ field

theorem clean_of {field : ByteString} (h : ∀ b ∈ field, b ≠ newline ∧ b ≠ pipe) : Clean field :=
  ⟨fun hmem => (h _ hmem).1 rfl, fun hmem => (h _ hmem).2 rfl⟩

theorem idByte_clean {b : Byte} (h : IdByte b) : b ≠ newline ∧ b ≠ pipe := by
  constructor
  · intro heq
    rw [heq] at h
    exact absurd h (by unfold IdByte; decide)
  · intro heq
    rw [heq] at h
    exact absurd h (by unfold IdByte; decide)

theorem currentTimestamp_clean (now : ℤ) : Clean (currentTimestamp now) := by
  have hyear := fun b hb => idByte_clean (decimalInt_idByte (gmtime (toTimeT now)).year b hb)
  have hfield := fun n b hb => idByte_clean (setw_idByte 2 n b hb)
  have hlit : ∀ s ∈ [lit "-", lit "T", lit ":", lit "Z"], ∀ b ∈ s, b ≠ newline ∧ b ≠ pipe := by
    decide +kernel
  simp only [List.forall_mem_cons] at hlit
  obtain ⟨hdash, hT, hcolon, hZ, -⟩ := hlit
  apply clean_of
  simp only [currentTimestamp, putTime, List.forall_mem_append]
  exact ⟨⟨⟨⟨⟨⟨⟨⟨⟨⟨⟨hyear, hdash⟩, hfield _⟩, hdash⟩, hfield _⟩, hT⟩, hfield _⟩, hcolon⟩, hfield _⟩,
    hcolon⟩, hfield _⟩, hZ⟩

/-- A logged event can be read back exactly if what the caller passes, and the
name of the host, have no newline and, but for the text, no separator. -/
theorem logEvent_separable_iff {topic : ByteString} (htopic : topic ∈ topics) (now : ℤ)
    (hostname : ByteString) (a : Arguments) : (logEvent topic now hostname a).Separable ↔
      Clean hostname ∧ Clean a.username ∧ Clean a.database ∧ Clean a.clientIp ∧
        Clean a.authMethod ∧ newline ∉ a.text := by
  have hclean : ∀ topic ∈ topics, Clean topic := by
    unfold Clean
    decide +kernel
  obtain ⟨hline, hpipe⟩ := hclean topic htopic
  obtain ⟨hnowLine, hnowPipe⟩ := currentTimestamp_clean now
  unfold Clean AuditEvent.Separable AuditEvent.fields logEvent
  simp only [List.dropLast_cons_cons, List.dropLast_singleton, List.forall_mem_cons,
    List.not_mem_nil, false_imp_iff, implies_true, and_true, hline, hpipe, hnowLine, hnowPipe,
    not_false_eq_true, true_and]
  constructor
  · rintro ⟨⟨hhost, huser, hdatabase, hip, hmethod, htext⟩, hhost', huser', hdatabase', hip',
      hmethod'⟩
    exact ⟨⟨hhost, hhost'⟩, ⟨huser, huser'⟩, ⟨hdatabase, hdatabase'⟩, ⟨hip, hip'⟩,
      ⟨hmethod, hmethod'⟩, htext⟩
  · rintro ⟨hhost, huser, hdatabase, hip, hmethod, htext⟩
    exact ⟨⟨hhost.1, huser.1, hdatabase.1, hip.1, hmethod.1, htext⟩, hhost.2, huser.2,
      hdatabase.2, hip.2, hmethod.2⟩

/-! ### Lives -/

/-- `names` tells which file a path means, and `opens` which paths can be opened.
Every output of a life is a file of its own, and `kept` is how much of what was
written has got to each of them. -/
structure Life (C : Type) {F : Type} (names : ByteString → F) where
  opens : ByteString → Bool
  outputSpecs : List ByteString
  before : List AuditEvent
  tr : List (Option C × Event)
  kept : F → ℕ
  distinct : ((targets outputSpecs).map names).Nodup

section Lives
variable {C F : Type} [DecidableEq C] [DecidableEq F] {names : ByteString → F}

def flushedLength (fo : FileOutput) : ℕ :=
  match fo.stream with
  | none => 0
  | some stream => stream.flushed

namespace Life

def history (life : Life C names) : List Outcome :=
  AuditLogger.history life.before ((targets life.outputSpecs).map fresh) life.tr

def Stopped (life : Life C names) : Prop := .stopReturned ∈ life.history

/-- The outputs at the end, wherever the threads have come by then. -/
def run (life : Life C names) : Option (List FileOutput) :=
  match validateOptions life.outputSpecs, prepare life.opens life.outputSpecs with
  | none, .ok outputs =>
    (exec logger (started life.before outputs) life.tr).bind fun c =>
      if ∀ fo ∈ c.shared.fileOutputs, flushedLength fo ≤ life.kept (names fo.path) then
        some c.shared.fileOutputs
      else none
  | _, _ => none

def files (life : Life C names) : List F := (targets life.outputSpecs).map names

/-- The events that were written to a file. -/
def recorded (f : F) (life : Life C names) : List AuditEvent :=
  if f ∈ life.files then (written life.history).map Entry.event else []

end Life

variable (names) in
def append (kept : F → ℕ) (files : F → ByteString) (outputs : List FileOutput) : F → ByteString :=
  outputs.foldl (fun files fo => Function.update files (names fo.path)
    (files (names fo.path) ++ fo.text.take (kept (names fo.path)))) files

def runLives : (F → ByteString) → List (Life C names) → Option (F → ByteString)
  | files, [] => some files
  | files, life :: rest =>
    life.run.bind fun outputs => runLives (append names life.kept files outputs) rest

/-! ### The files after a life -/

theorem prepare_eq {opens : ByteString → Bool} {outputSpecs : List ByteString}
    {outputs : List FileOutput} (h : prepare opens outputSpecs = .ok outputs) :
    outputs = (targets outputSpecs).map fresh := by
  unfold prepare at h
  generalize targets outputSpecs = ts at h ⊢
  induction ts generalizing outputs with
  | nil =>
    cases h
    rfl
  | cons target rest ih =>
    rw [List.mapM_cons] at h
    cases hopens : opens target with
    | false => simp [addOutput, hopens, bind, Except.bind] at h
    | true =>
      cases hrest : rest.mapM (addOutput opens) with
      | error e => simp [addOutput, hopens, hrest, bind, Except.bind] at h
      | ok others =>
        have hcons : fresh target :: others = outputs := by
          simpa [addOutput, fresh, hopens, hrest, bind, Except.bind, pure, Except.pure] using h
        rw [← hcons, ih hrest, List.map_cons]

theorem lines_eq (es : List Entry) :
    lines es = writeLines newline ((es.map Entry.event).map AuditEvent.format) := by
  unfold lines writeLines
  rw [List.flatMap_map, List.flatMap_map]
  rfl

omit [DecidableEq C] in
theorem append_apply {es : List Entry} {ts : List ByteString} {outputs : List FileOutput}
    (hwrote : List.Forall₂ (Wrote es) (ts.map fresh) outputs) (hdistinct : (ts.map names).Nodup)
    (kept : F → ℕ) (files : F → ByteString) (f : F) : append names kept files outputs f =
      files f ++ if f ∈ ts.map names then (lines es).take (kept f) else [] := by
  induction ts generalizing outputs files with
  | nil =>
    cases hwrote
    simp [append]
  | cons t ts ih =>
    cases hwrote with
    | @cons _ out _ outs hone hrest =>
    obtain ⟨hnot, hnodup⟩ := List.nodup_cons.mp hdistinct
    have hpath : names out.path = names t := congrArg names hone.path
    have htext : out.text = lines es := by
      rw [hone.text]
      rfl
    have hstep := ih hrest hnodup (Function.update files (names t)
      (files (names t) ++ (lines es).take (kept (names t))))
    unfold append at hstep ⊢
    rw [List.foldl_cons, hpath, htext, hstep]
    by_cases hf : f = names t
    · subst hf
      rw [if_neg hnot, Function.update_self, List.append_nil, List.map_cons,
        if_pos List.mem_cons_self]
    · rw [Function.update_of_ne hf, List.map_cons]
      simp [hf]

theorem exists_output {es : List Entry} {ts : List ByteString} {outputs : List FileOutput}
    (hwrote : List.Forall₂ (Wrote es) (ts.map fresh) outputs) {target : ByteString}
    (h : target ∈ ts) : ∃ fo ∈ outputs, Wrote es (fresh target) fo := by
  induction ts generalizing outputs with
  | nil => cases h
  | cons t ts ih =>
    cases hwrote with
    | @cons _ out _ outs hone hrest =>
    rcases List.mem_cons.mp h with rfl | hlater
    · exact ⟨out, List.mem_cons_self, hone⟩
    · obtain ⟨fo, hfo, hfound⟩ := ih hrest hlater
      exact ⟨fo, List.mem_cons_of_mem out hfo, hfound⟩

theorem flushed_all {es : List Entry} {target : ByteString} {fo : FileOutput}
    (hflushed : fo.Flushed) (hwrote : Wrote es (fresh target) fo) :
    flushedLength fo = (lines es).length := by
  have hopen : fo.is_open = true := hwrote.is_open
  have htext : fo.text = lines es := hwrote.text
  unfold flushedLength
  cases hstream : fo.stream with
  | none => simp [FileOutput.is_open, hstream] at hopen
  | some stream =>
    rw [FileOutput.is_open_of hstream] at hopen
    rw [FileOutput.text_of hstream] at htext
    rw [← htext]
    exact hflushed stream hstream hopen

section OneLife
variable {life : Life C names} {outputs : List FileOutput}

omit [DecidableEq F] in
theorem run_audits (h : life.run = some outputs) :
    ∃ c : Config (Option C) Logger Control,
      Audited life.before ((targets life.outputSpecs).map fresh) life.history c ∧
      c.shared.fileOutputs = outputs ∧
      ∀ fo ∈ outputs, flushedLength fo ≤ life.kept (names fo.path) := by
  unfold Life.run at h
  split at h
  next hprepared =>
    obtain ⟨c, hexec, hc⟩ := Option.bind_eq_some_iff.mp h
    rw [prepare_eq hprepared] at hexec
    split at hc
    next hkept =>
      obtain rfl := Option.some.inj hc
      exact ⟨c, run_audited hexec, rfl, hkept⟩
    next => cases hc
  next => cases h

theorem life_appends (h : life.run = some outputs) (files : F → ByteString) (f : F) :
    append names life.kept files outputs f =
      files f ++ (writeLines newline ((life.recorded f).map AuditEvent.format)).take
        (life.kept f) := by
  obtain ⟨c, haudited, rfl, -⟩ := run_audits h
  rw [append_apply haudited.filed.wrote life.distinct, lines_eq]
  unfold Life.recorded Life.files
  split
  next => rfl
  next => simp [writeLines]

/-- What `stop` waits for is flushed. -/
theorem stopped_keeps_all (h : life.run = some outputs) (hstopped : life.Stopped) (f : F) :
    (writeLines newline ((life.recorded f).map AuditEvent.format)).length ≤ life.kept f := by
  obtain ⟨c, haudited, rfl, hkept⟩ := run_audits h
  have hexited := haudited.exiting.exited (haudited.exiting.returned hstopped)
  unfold Life.recorded
  split
  next hf =>
    obtain ⟨target, htarget, rfl⟩ := List.mem_map.mp hf
    obtain ⟨fo, hfo, hwrote⟩ := exists_output haudited.filed.wrote htarget
    have hlength := hkept fo hfo
    rw [flushed_all (haudited.filed.flushed hexited fo hfo) hwrote, lines_eq] at hlength
    rw [show names target = names fo.path from congrArg names hwrote.path.symm]
    exact hlength
  next => simp [writeLines]

theorem stopped_appends (h : life.run = some outputs) (hstopped : life.Stopped)
    (files : F → ByteString) (f : F) : append names life.kept files outputs f =
      files f ++ writeLines newline ((life.recorded f).map AuditEvent.format) := by
  rw [life_appends h, List.take_of_length_le (stopped_keeps_all h hstopped f)]

omit [DecidableEq F] in
theorem in_order (h : life.run = some outputs) :
    written life.history <+: enqueueOrder life.before life.history := by
  obtain ⟨c, haudited, -, -⟩ := run_audits h
  exact ⟨_, haudited.ordered.order⟩

omit [DecidableEq F] in
theorem stopped_writes (h : life.run = some outputs) (hstopped : life.Stopped) :
    enqueueOrder life.before (untilStop life.history) <+: written life.history := by
  obtain ⟨c, haudited, -, -⟩ := run_audits h
  have hexited := haudited.exiting.exited (haudited.exiting.returned hstopped)
  obtain ⟨-, hwritten⟩ := haudited.stopping.ending (by rw [hexited]; rfl)
  rw [hexited, show hand (.writer .exited) = [] from rfl, List.append_nil] at hwritten
  exact hwritten

end OneLife

/-! ### Over the lives -/

section Runs
variable {files files' : F → ByteString} {lives : List (Life C names)}

theorem runLives_append (files : F → ByteString) (lives more : List (Life C names)) :
    runLives files (lives ++ more) =
      (runLives files lives).bind fun between => runLives between more := by
  induction lives generalizing files with
  | nil => rfl
  | cons life lives ih =>
    rw [List.cons_append, runLives, runLives, Option.bind_assoc]
    simp only [ih]

theorem runLives_runs (hrun : runLives files lives = some files') :
    ∀ life ∈ lives, ∃ outputs, life.run = some outputs := by
  induction lives generalizing files with
  | nil => exact nofun
  | cons life lives ih =>
    obtain ⟨outputs, hlife, hrest⟩ := Option.bind_eq_some_iff.mp hrun
    exact List.forall_mem_cons.mpr ⟨⟨outputs, hlife⟩, ih hrest⟩

theorem runLives_appends (hrun : runLives files lives = some files')
    (hstopped : ∀ life ∈ lives, life.Stopped) (f : F) : files' f = files f ++
      writeLines newline ((lives.flatMap fun life => life.recorded f).map AuditEvent.format) := by
  induction lives generalizing files with
  | nil =>
    obtain rfl := Option.some.inj hrun
    simp [writeLines]
  | cons life lives ih =>
    obtain ⟨outputs, hlife, hrest⟩ := Option.bind_eq_some_iff.mp hrun
    obtain ⟨hfirst, hlater⟩ := List.forall_mem_cons.mp hstopped
    rw [ih hrest hlater, stopped_appends hlife hfirst, List.flatMap_cons, List.map_append,
      List.append_assoc]
    simp only [writeLines, List.flatMap_append]

end Runs

/-! ### Reading back -/

theorem readEvents_writeLines_iff (events : List AuditEvent) :
    readEvents (writeLines newline (events.map AuditEvent.format)) = events.map some ↔
      ∀ event ∈ events, event.Separable := by
  have hformat : events.map AuditEvent.format =
      (events.map AuditEvent.fields).map [pipe].intercalate := by
    rw [List.map_map]
    exact List.map_congr_left fun event _ => event.format_eq
  rw [readEvents_iff, hformat, records_read_back_iff (by decide), List.forall_mem_map]
  refine forall₂_congr fun event _ => ?_
  exact ⟨fun h => ⟨h.newline, h.separator⟩, fun h => ⟨rfl, h.1, h.2⟩⟩

theorem readEvent_format {event : AuditEvent} (h : event.Separable) :
    readEvent event.format = some event := by
  have hcut : cut pipe 7 event.format = some event.fields :=
    cut_iff.mpr ⟨rfl, event.format_eq.symm, h.2⟩
  unfold readEvent
  rw [hcut]
  rfl

theorem format_line {event : AuditEvent} (h : event.Separable) : newline ∉ event.format := by
  rw [event.format_eq]
  intro hmem
  rcases mem_intercalate hmem with hsep | ⟨field, hfield, hin⟩
  · exact absurd hsep (by decide)
  · exact h.1 field hfield hin

/-- Over all lives that were stopped, whatever threads have logged what before,
between and after, each audit file has the events of its lives in their order,
and exactly if they can be separated it can be read back. -/
theorem audit_files_over_lives (files files' : F → ByteString) (lives : List (Life C names))
    (hrun : runLives files lives = some files')
    (hstopped : ∀ life ∈ lives, life.Stopped) :
    (∀ f, files' f = files f ++
      writeLines newline ((lives.flatMap fun life => life.recorded f).map AuditEvent.format)) ∧
    (∀ f, files f = [] →
      (readEvents (files' f) = (lives.flatMap fun life => life.recorded f).map some ↔
        ∀ event ∈ lives.flatMap fun life => life.recorded f, event.Separable)) ∧
    ∀ life ∈ lives, enqueueOrder life.before (untilStop life.history) <+: written life.history ∧
      written life.history <+: enqueueOrder life.before life.history := by
  refine ⟨runLives_appends hrun hstopped, ?_, ?_⟩
  · intro f hempty
    rw [runLives_appends hrun hstopped, hempty, List.nil_append]
    exact readEvents_writeLines_iff _
  · intro life hlife
    obtain ⟨outputs, hone⟩ := runLives_runs hrun life hlife
    exact ⟨stopped_writes hone (hstopped life hlife), in_order hone⟩

/-- A process that is killed, at whatever moment, has lost the end of its log
and nothing else: the events that are whole in the file are read back behind
those of the lives before, in their order. -/
theorem killed_life_leaves_beginning (files files' : F → ByteString)
    (lives : List (Life C names)) (last : Life C names) (f : F)
    (hrun : runLives files (lives ++ [last]) = some files')
    (hstopped : ∀ life ∈ lives, life.Stopped) (hempty : files f = [])
    (hseparable : ∀ event ∈ (lives ++ [last]).flatMap fun life => life.recorded f,
      event.Separable) :
    written last.history <+: enqueueOrder last.before last.history ∧
    ∃ k, readEvents (files' f) =
        ((lives.flatMap fun life => life.recorded f) ++ (last.recorded f).take k).map some ∧
      ∀ j ≤ (last.recorded f).length,
        (writeLines newline (((last.recorded f).take j).map AuditEvent.format)).length ≤
          last.kept f → j ≤ k := by
  rw [runLives_append] at hrun
  obtain ⟨between, hlives, hlast⟩ := Option.bind_eq_some_iff.mp hrun
  obtain ⟨outputs, hone, hend⟩ := Option.bind_eq_some_iff.mp hlast
  obtain rfl := Option.some.inj hend
  rw [List.flatMap_append, List.flatMap_singleton, List.forall_mem_append] at hseparable
  obtain ⟨hearlier, hrecorded⟩ := hseparable
  have hlines : ∀ events : List AuditEvent, (∀ event ∈ events, event.Separable) →
      ∀ line ∈ events.map AuditEvent.format, newline ∉ line := by
    intro events h
    rw [List.forall_mem_map]
    exact fun event hevent => format_line (h event hevent)
  obtain ⟨k, hread, hmost⟩ := readLines_take (hlines _ hrecorded) (last.kept f)
  refine ⟨in_order hone, k, ?_, ?_⟩
  · rw [life_appends hone, runLives_appends hlives hstopped, hempty, List.nil_append, readEvents,
      readLines_writeLines_append (hlines _ hearlier), hread, ← List.map_take, ← List.map_append,
      List.map_map]
    apply List.map_congr_left
    intro event hevent
    apply readEvent_format
    rcases List.mem_append.mp hevent with hmem | hmem
    · exact hearlier event hmem
    · exact hrecorded event (List.mem_of_mem_take hmem)
  · intro j hj hfits
    apply hmost j
    · rwa [List.length_map]
    · rwa [← List.map_take]

end Lives

def login : AuditEvent :=
  logAuthentication 0 (lit "srv") ⟨lit "bob", lit "db", lit "10.0.0.1", lit "basic", lit "login"⟩

def logout : AuditEvent :=
  logAuthentication 0 (lit "srv") ⟨lit "bob", lit "db", lit "10.0.0.1", lit "basic", lit "logout"⟩

/-- One event is logged and the writer takes it. -/
def writing (event : AuditEvent) : List (Option Unit × Event) :=
  (some (), .log event) :: (List.replicate 4 (some (), .step) ++ List.replicate 5 (none, .step))

def stopped : List (Option Unit × Event) :=
  List.replicate 3 (none, .step) ++ [(some (), .stop), (some (), .step)] ++
    List.replicate 15 (none, .step) ++ [(some (), .step)]

def sampleLife (tr : List (Option Unit × Event)) : Life Unit (id : ByteString → ByteString) where
  opens := fun _ => true
  outputSpecs := [lit "file:///audit.log", lit "syslog://local0"]
  before := []
  tr := tr
  kept := fun _ => 1000
  distinct := by decide +kernel

theorem two_lives_read_back :
    ∃ files', runLives (fun _ => [])
        [sampleLife (writing login ++ stopped), sampleLife (writing logout ++ stopped)] =
          some files' ∧
      readEvents (files' (lit "/audit.log")) = [some login, some logout] := by
  have hsome : (runLives (fun _ => []) [sampleLife (writing login ++ stopped),
      sampleLife (writing logout ++ stopped)]).isSome = true := by decide +kernel
  obtain ⟨files', hrun⟩ := Option.isSome_iff_exists.mp hsome
  have hstopped : ∀ life ∈ [sampleLife (writing login ++ stopped),
      sampleLife (writing logout ++ stopped)], life.Stopped := by
    unfold Life.Stopped
    decide +kernel
  have hrecorded : ([sampleLife (writing login ++ stopped),
      sampleLife (writing logout ++ stopped)].flatMap fun life =>
        life.recorded (lit "/audit.log")) = [login, logout] := by decide +kernel
  have hread := (audit_files_over_lives _ files' _ hrun hstopped).2.1 (lit "/audit.log") rfl
  rw [hrecorded] at hread
  exact ⟨files', hrun, hread.mpr (by decide +kernel)⟩

/-- The second life is killed before it flushes its event. -/
theorem killed_life_read_back :
    ∃ files', runLives (fun _ => [])
        ([sampleLife (writing login ++ stopped)] ++ [sampleLife (writing logout)]) =
          some files' ∧
      readEvents (files' (lit "/audit.log")) = [some login, some logout] := by
  have hsome : (runLives (fun _ => []) ([sampleLife (writing login ++ stopped)] ++
      [sampleLife (writing logout)])).isSome = true := by decide +kernel
  obtain ⟨files', hrun⟩ := Option.isSome_iff_exists.mp hsome
  have hstopped : ∀ life ∈ [sampleLife (writing login ++ stopped)], life.Stopped := by
    unfold Life.Stopped
    decide +kernel
  have hseparable : ∀ event ∈ ([sampleLife (writing login ++ stopped)] ++
      [sampleLife (writing logout)]).flatMap fun life => life.recorded (lit "/audit.log"),
        event.Separable := by decide +kernel
  obtain ⟨-, k, hread, hmost⟩ := killed_life_leaves_beginning _ files' _ _ (lit "/audit.log") hrun
    hstopped rfl hseparable
  have hfirst : (sampleLife (writing login ++ stopped)).recorded (lit "/audit.log") = [login] := by
    decide +kernel
  have hlast : (sampleLife (writing logout)).recorded (lit "/audit.log") = [logout] := by
    decide +kernel
  have hk : 1 ≤ k := by
    apply hmost 1
    · rw [hlast]
      decide
    · rw [hlast]
      decide +kernel
  rw [hlast, List.take_of_length_le hk, List.flatMap_singleton, hfirst] at hread
  exact ⟨files', hrun, hread⟩

end AuditFeature
end OpenArangoDBCore.Audit
