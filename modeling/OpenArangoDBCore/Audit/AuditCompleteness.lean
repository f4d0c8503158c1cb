import OpenArangoDBCore.Audit.AuditLogger

/-!
# The audit log is complete

Events go from the buffer into the batch of the writer and from there into
the files, and they stay in order on the way.
-/

namespace OpenArangoDBCore.Audit.AuditLogger
open Interleaving

inductive Outcome where
  | enqueued (entry : Entry)
  | logReturned (entry : Entry)
  | stopCalled
  | wrote (entry : Entry)
  | stopReturned
  deriving DecidableEq

variable {s s' : Logger} {l l' : Control} {e : Event} {seen more : List Outcome}

def outcome {T : Type} (_ : T) (s : Logger) : Control → Event → List Outcome
  | .client (.pushing event), .step => [.enqueued ⟨s.enqueued, event⟩]
  | .client (.notifying entry), .step => [.logReturned entry]
  | .client .idle, .stop => [.stopCalled]
  | .writer (.writing _ (entry :: _)), .step => [.wrote entry]
  | .client .joining, .step => [.stopReturned]
  | _, _ => []

def enqueued (seen : List Outcome) : List Entry :=
  seen.filterMap fun
    | .enqueued entry => some entry
    | _ => none

def written (seen : List Outcome) : List Entry :=
  seen.filterMap fun
    | .wrote entry => some entry
    | _ => none

@[simp] theorem enqueued_append : enqueued (seen ++ more) = enqueued seen ++ enqueued more :=
  List.filterMap_append

@[simp] theorem written_append : written (seen ++ more) = written seen ++ written more :=
  List.filterMap_append

/-- The events in the order in which they came into the buffer. -/
def enqueueOrder (before : List AuditEvent) (seen : List Outcome) : List Entry :=
  entries before ++ enqueued seen

/-- What happened before `stop` was called. -/
def untilStop (seen : List Outcome) : List Outcome :=
  seen.takeWhile fun o => o ≠ .stopCalled

theorem untilStop_of_notMem (h : .stopCalled ∉ seen) : untilStop seen = seen := by
  rw [untilStop, List.takeWhile_eq_self_iff]
  intro o ho
  exact decide_eq_true fun heq => h (heq ▸ ho)

theorem untilStop_append_of_mem (h : .stopCalled ∈ seen) :
    untilStop (seen ++ more) = untilStop seen := by
  induction seen with
  | nil => cases h
  | cons o seen ih =>
    rw [List.cons_append]
    unfold untilStop at ih ⊢
    rw [List.takeWhile_cons, List.takeWhile_cons]
    split
    next ho =>
      have hne : Outcome.stopCalled ≠ o := Ne.symm (of_decide_eq_true ho)
      rw [ih ((List.mem_cons.mp h).resolve_left hne)]
    next => rfl

theorem untilStop_stopCalled (h : .stopCalled ∉ seen) :
    untilStop (seen ++ [.stopCalled]) = seen := by
  have hall : ∀ o ∈ seen, decide (o ≠ .stopCalled) = true := fun o ho =>
    decide_eq_true fun heq => h (heq ▸ ho)
  rw [untilStop, List.takeWhile_append_of_pos hall]
  simp

theorem enqueued_untilStop_prefix : enqueued (untilStop seen) <+: enqueued seen :=
  (List.takeWhile_prefix _).filterMap _

/-! ### The steps -/

/-- The batch that the writer has taken and not written yet. -/
def hand : Control → List Entry
  | .writer (.unlocking _ batch) => batch
  | .writer (.writing _ batch) => batch
  | _ => []

/-- The event of a `log` that has pushed it and not returned. -/
def pushed : Control → Option Entry
  | .client (.unlocking entry) => some entry
  | .client (.notifying entry) => some entry
  | _ => none

/-- The writer has found `_running` unset and has not gone back to the loop. -/
def decided : Control → Bool
  | .writer .lockingAgain => true
  | .writer .testingEmpty => true
  | .writer (.unlockingAgain _) => true
  | .writer .lockingLast => true
  | .writer (.swapping true) => true
  | _ => false

/-- The writer has swapped the buffer for the last time. -/
def ends : Control → Bool
  | .writer (.unlocking true _) => true
  | .writer (.writing true _) => true
  | .writer (.flushing true) => true
  | .writer .exited => true
  | _ => false

section Steps
variable {T : Type} (t : T)

theorem writer_carries {phase phase' : WriterPhase}
    (h : Step s (.writer phase) e s' (.writer phase')) :
    written (outcome t s (.writer phase) e) ++ (hand (.writer phase') ++ s'.buffer) =
      hand (.writer phase) ++ s.buffer ∧ enqueued (outcome t s (.writer phase) e) = [] := by
  cases h with
  | swap => exact ⟨List.append_nil _, rfl⟩
  | _ => exact ⟨rfl, rfl⟩

theorem client_enqueues {phase phase' : ClientPhase}
    (h : Step s (.client phase) e s' (.client phase')) :
    s'.buffer = s.buffer ++ enqueued (outcome t s (.client phase) e) ∧
      written (outcome t s (.client phase) e) = [] := by
  cases h with
  | push => exact ⟨rfl, rfl⟩
  | _ => exact ⟨(List.append_nil _).symm, rfl⟩

theorem step_numbers (h : Step s l e s' l') : List.range s'.enqueued =
    List.range s.enqueued ++ (enqueued (outcome t s l e)).map Entry.number := by
  cases h with
  | push => exact List.range_succ
  | _ => exact (List.append_nil _).symm

theorem step_pushed {entry : Entry} (h : Step s l e s' l') (hl : pushed l' = some entry) :
    pushed l = some entry ∨ entry ∈ enqueued (outcome t s l e) := by
  cases h with
  | push =>
    cases hl
    exact .inr List.mem_cons_self
  | pushed => exact .inl hl
  | _ => cases hl

theorem step_running (h : Step s l e s' l') :
    s'.running = s.running ∧ .stopCalled ∉ outcome t s l e ∨
      s'.running = false ∧ outcome t s l e = [.stopCalled] := by
  cases h with
  | stop => exact .inr ⟨rfl, rfl⟩
  | _ => exact .inl ⟨rfl, by simp [outcome]⟩

theorem outcome_returned {entry : Entry} (h : Step s l e s' l')
    (hmem : .logReturned entry ∈ outcome t s l e) : pushed l = some entry := by
  cases h with
  | notifyOne =>
    cases List.mem_singleton.mp hmem
    rfl
  | _ => simp [outcome] at hmem

theorem step_decided (h : Step s l e s' l') (hl : decided l' = true) :
    decided l = true ∨ s.running = false := by
  cases h with
  | stopped hrunning => exact .inr hrunning
  | lockAgain => exact .inl rfl
  | testEmpty => exact .inl rfl
  | drained => exact .inl rfl
  | lockLast => exact .inl rfl
  | _ => exact Bool.noConfusion hl

theorem step_ends (h : Step s l e s' l') (hl : ends l' = true) :
    ends l = true ∧ written (outcome t s l e) ++ hand l' = hand l ∨
      decided l = true ∧ outcome t s l e = [] ∧ hand l = [] ∧ hand l' = s.buffer := by
  cases h with
  | @swap last =>
    cases last with
    | true => exact .inr ⟨rfl, rfl, rfl, rfl⟩
    | false => exact Bool.noConfusion hl
  | @swapped last =>
    cases last with
    | true => exact .inl ⟨rfl, rfl⟩
    | false => exact Bool.noConfusion hl
  | @write last =>
    cases last with
    | true => exact .inl ⟨rfl, rfl⟩
    | false => exact Bool.noConfusion hl
  | @written last =>
    cases last with
    | true => exact .inl ⟨rfl, rfl⟩
    | false => exact Bool.noConfusion hl
  | exit => exact .inl ⟨rfl, rfl⟩
  | _ => exact Bool.noConfusion hl

theorem step_exited (h : Step s l e s' l') (hexited : s'.exited = true) :
    s.exited = true ∨ l' = .writer .exited := by
  cases h with
  | exit => exact .inr rfl
  | _ => exact .inl hexited

theorem step_keeps_exited (h : Step s l e s' l') (hexited : s.exited = true) :
    s'.exited = true := by
  cases h with
  | exit => rfl
  | _ => exact hexited

theorem step_joinable (h : Step s l e s' l') (hjoinable : s'.joinable = false) :
    s.joinable = false ∨ s.exited = true := by
  cases h with
  | join _ hexited => exact .inr hexited
  | _ => exact .inl hjoinable

theorem outcome_stopReturned (h : Step s l e s' l') (hmem : .stopReturned ∈ outcome t s l e) :
    s.joinable = false ∨ s.exited = true := by
  cases h with
  | join _ hexited => exact .inr hexited
  | joined hjoinable => exact .inl hjoinable
  | _ => simp [outcome] at hmem

end Steps

/-! ### The threads -/

section Threads
variable {C : Type} {before : List AuditEvent} {outputs : List FileOutput}
  {c c' : Config (Option C) Logger Control}

structure Seated (c : Config (Option C) Logger Control) : Prop where
  writer : ∃ phase, c.control none = .writer phase
  client : ∀ t, ∃ phase, c.control (some t) = .client phase

theorem started_seated : Seated (started (C := C) before outputs) where
  writer := ⟨_, rfl⟩
  client _ := ⟨_, rfl⟩

variable [DecidableEq C] {x : Option C × Event}

theorem Seated.fire_cases (h : Seated c) (hf : fire logger c x = some c') :
    (∃ e phase phase', x = (none, e) ∧ c.control none = .writer phase ∧
      c'.control none = .writer phase' ∧
      Step c.shared (.writer phase) e c'.shared (.writer phase')) ∨
    ∃ t e phase phase', x = (some t, e) ∧ c.control (some t) = .client phase ∧
      c'.control (some t) = .client phase' ∧ c'.control none = c.control none ∧
      Step c.shared (.client phase) e c'.shared (.client phase') := by
  have hp := fire_own hf
  have hframe := fire_frame hf (t := none)
  obtain ⟨t₀, e⟩ := x
  dsimp only at hp hframe
  cases t₀ with
  | none =>
    obtain ⟨phase, hphase⟩ := h.writer
    rw [hphase] at hp
    obtain ⟨r, hr, hres⟩ := Option.map_eq_some_iff.mp hp
    obtain ⟨hshared, hcontrol⟩ := Prod.mk.inj hres
    rw [← hshared]
    exact .inl ⟨e, phase, r.2, rfl, hphase, hcontrol.symm, step_of_writer hr⟩
  | some t =>
    obtain ⟨phase, hphase⟩ := h.client t
    rw [hphase] at hp
    obtain ⟨r, hr, hres⟩ := Option.map_eq_some_iff.mp hp
    obtain ⟨hshared, hcontrol⟩ := Prod.mk.inj hres
    rw [← hshared]
    exact .inr ⟨t, e, phase, r.2, rfl, hphase, hcontrol.symm,
      hframe (Option.some_ne_none t).symm, step_of_client hr⟩

theorem Seated.step (h : Seated c) (hf : fire logger c x = some c') : Seated c' := by
  rcases h.fire_cases hf with ⟨e, phase, phase', rfl, -, hphase', -⟩ |
    ⟨t, e, phase, phase', rfl, -, hphase', hwriter, -⟩
  · refine ⟨⟨phase', hphase'⟩, fun u => ?_⟩
    rw [fire_frame hf (Option.some_ne_none u)]
    exact h.client u
  · refine ⟨hwriter ▸ h.writer, fun u => ?_⟩
    by_cases hself : some u = some t
    · exact ⟨phase', hself ▸ hphase'⟩
    · rw [fire_frame hf hself]
      exact h.client u

/-- The events written, those in the hand of the writer and those in the buffer
are the events enqueued, in order. -/
structure Ordered (before : List AuditEvent) (seen : List Outcome)
    (c : Config (Option C) Logger Control) : Prop where
  order : written seen ++ (hand (c.control none) ++ c.shared.buffer) = enqueueOrder before seen
  numbers : (enqueueOrder before seen).map Entry.number = List.range c.shared.enqueued

theorem Ordered.step (h : Ordered before seen c) (hseated : Seated c)
    (hf : fire logger c x = some c') :
    Ordered before (seen ++ outcome x.1 c.shared (c.control x.1) x.2) c' := by
  constructor
  · rcases hseated.fire_cases hf with ⟨e, phase, phase', rfl, hphase, hphase', hstep⟩ |
      ⟨t, e, phase, phase', rfl, hphase, -, hwriter, hstep⟩
    · obtain ⟨hcarries, hnone⟩ := writer_carries (none : Option C) hstep
      have horder := h.order
      dsimp only
      rw [hphase] at horder ⊢
      rw [hphase', written_append, List.append_assoc, hcarries, horder, enqueueOrder,
        enqueueOrder, enqueued_append, hnone, List.append_nil]
    · obtain ⟨hbuffer, hnone⟩ := client_enqueues (some t : Option C) hstep
      dsimp only
      rw [hphase, hwriter, written_append, hnone, List.append_nil, hbuffer,
        ← List.append_assoc, ← List.append_assoc, List.append_assoc (written seen), h.order,
        enqueueOrder, enqueueOrder, enqueued_append, List.append_assoc]
  · rw [step_numbers x.1 (step_of_logger (fire_own hf)), ← h.numbers, enqueueOrder, enqueueOrder,
      enqueued_append, ← List.append_assoc, List.map_append]

/-- What `stop` and the writer's end have to do with what was logged before. -/
structure Stopping (before : List AuditEvent) (seen : List Outcome)
    (c : Config (Option C) Logger Control) : Prop where
  pushed : ∀ t entry, pushed (c.control t) = some entry → entry ∈ enqueued seen
  returned : ∀ entry, .logReturned entry ∈ untilStop seen → entry ∈ enqueued (untilStop seen)
  running : c.shared.running = false ↔ .stopCalled ∈ seen
  deciding : decided (c.control none) = true → c.shared.running = false
  ending : ends (c.control none) = true → .stopCalled ∈ seen ∧
    enqueueOrder before (untilStop seen) <+: written seen ++ hand (c.control none)

theorem Stopping.step_pushed (h : Stopping before seen c) (hf : fire logger c x = some c')
    (t : Option C) (entry : Entry) (ht : AuditLogger.pushed (c'.control t) = some entry) :
    entry ∈ enqueued (seen ++ outcome x.1 c.shared (c.control x.1) x.2) := by
  rw [enqueued_append, List.mem_append]
  by_cases hself : t = x.1
  · subst hself
    rcases AuditLogger.step_pushed x.1 (step_of_logger (fire_own hf)) ht with hold | hnow
    · exact .inl (h.pushed x.1 entry hold)
    · exact .inr hnow
  · rw [fire_frame hf hself] at ht
    exact .inl (h.pushed t entry ht)

theorem Stopping.step_returned (h : Stopping before seen c) (hf : fire logger c x = some c')
    (entry : Entry)
    (hmem : .logReturned entry ∈ untilStop (seen ++ outcome x.1 c.shared (c.control x.1) x.2)) :
    entry ∈ enqueued (untilStop (seen ++ outcome x.1 c.shared (c.control x.1) x.2)) := by
  by_cases hstopped : .stopCalled ∈ seen
  · rw [untilStop_append_of_mem hstopped] at hmem ⊢
    exact h.returned entry hmem
  have hstep := step_of_logger (fire_own hf)
  have hbefore := h.returned entry
  rw [untilStop_of_notMem hstopped] at hbefore
  rcases step_running x.1 hstep with ⟨-, hnone⟩ | ⟨-, hstop⟩
  · have hall : .stopCalled ∉ seen ++ outcome x.1 c.shared (c.control x.1) x.2 := by
      rw [List.mem_append, not_or]
      exact ⟨hstopped, hnone⟩
    rw [untilStop_of_notMem hall] at hmem ⊢
    rw [enqueued_append, List.mem_append]
    rcases List.mem_append.mp hmem with hold | hnow
    · exact .inl (hbefore hold)
    · exact .inl (h.pushed x.1 entry (outcome_returned x.1 hstep hnow))
  · rw [hstop, untilStop_stopCalled hstopped] at hmem ⊢
    exact hbefore hmem

theorem Stopping.step_ending (h : Stopping before seen c) (hseated : Seated c)
    (hordered : Ordered before seen c) (hf : fire logger c x = some c')
    (hends : ends (c'.control none) = true) :
    .stopCalled ∈ seen ++ outcome x.1 c.shared (c.control x.1) x.2 ∧
      enqueueOrder before (untilStop (seen ++ outcome x.1 c.shared (c.control x.1) x.2)) <+:
        written (seen ++ outcome x.1 c.shared (c.control x.1) x.2) ++ hand (c'.control none) := by
  have hstay : .stopCalled ∈ seen →
      .stopCalled ∈ seen ++ outcome x.1 c.shared (c.control x.1) x.2 := List.mem_append_left _
  rcases hseated.fire_cases hf with ⟨e, phase, phase', rfl, hphase, hphase', hstep⟩ |
    ⟨t, e, phase, phase', rfl, hphase, -, hwriter, hstep⟩
  · dsimp only at hends hstay ⊢
    rw [hphase'] at hends ⊢
    rw [hphase] at hstay ⊢
    rcases step_ends (none : Option C) hstep hends with ⟨hold, hcarry⟩ |
      ⟨hdecided, hnone, hempty, hswapped⟩
    · obtain ⟨hstopped, hprefix⟩ := h.ending (by rwa [hphase])
      rw [hphase] at hprefix
      refine ⟨hstay hstopped, ?_⟩
      rwa [untilStop_append_of_mem hstopped, written_append, List.append_assoc, hcarry]
    · -- the last swap takes all that was enqueued until then
      have hstopped := h.running.mp (h.deciding (by rwa [hphase]))
      have horder := hordered.order
      rw [hphase, hempty, List.nil_append] at horder
      refine ⟨hstay hstopped, ?_⟩
      rw [untilStop_append_of_mem hstopped, hnone, List.append_nil, hswapped, horder]
      exact (List.prefix_append_right_inj _).mpr enqueued_untilStop_prefix
  · obtain ⟨-, hnone⟩ := client_enqueues (some t : Option C) hstep
    dsimp only at hends hstay ⊢
    rw [hwriter] at hends ⊢
    rw [hphase] at hstay ⊢
    obtain ⟨hstopped, hprefix⟩ := h.ending hends
    refine ⟨hstay hstopped, ?_⟩
    rwa [untilStop_append_of_mem hstopped, written_append, hnone, List.append_nil]

theorem Stopping.step (h : Stopping before seen c) (hseated : Seated c)
    (hordered : Ordered before seen c) (hf : fire logger c x = some c') :
    Stopping before (seen ++ outcome x.1 c.shared (c.control x.1) x.2) c' := by
  have hstep := step_of_logger (fire_own hf)
  refine ⟨h.step_pushed hf, h.step_returned hf, ?_, ?_, h.step_ending hseated hordered hf⟩
  · rw [List.mem_append, ← h.running]
    rcases step_running x.1 hstep with ⟨hsame, hnone⟩ | ⟨hoff, hstop⟩
    · rw [hsame]
      exact ⟨.inl, fun hor => hor.resolve_right hnone⟩
    · rw [hstop]
      exact ⟨fun _ => .inr List.mem_cons_self, fun _ => hoff⟩
  · intro hdecided
    have hoff : c.shared.running = false → c'.shared.running = false := by
      intro hold
      rcases step_running x.1 hstep with ⟨hsame, -⟩ | ⟨hnew, -⟩
      · rw [hsame, hold]
      · exact hnew
    by_cases hself : none = x.1
    · rw [hself] at hdecided
      rcases step_decided hstep hdecided with hold | hnow
      · exact hoff (h.deciding (by rwa [hself]))
      · exact hoff hnow
    · rw [fire_frame hf hself] at hdecided
      exact hoff (h.deciding hdecided)

structure Exiting (seen : List Outcome) (c : Config (Option C) Logger Control) : Prop where
  exited : c.shared.exited = true → c.control none = .writer .exited
  joined : c.shared.joinable = false → c.shared.exited = true
  returned : .stopReturned ∈ seen → c.shared.exited = true

theorem Exiting.step (h : Exiting seen c) (hseated : Seated c) (hf : fire logger c x = some c') :
    Exiting (seen ++ outcome x.1 c.shared (c.control x.1) x.2) c' := by
  have hdone : c.shared.joinable = false ∨ c.shared.exited = true → c.shared.exited = true :=
    fun hor => hor.elim h.joined id
  constructor
  · rcases hseated.fire_cases hf with ⟨e, phase, phase', rfl, hphase, hphase', hstep⟩ |
      ⟨t, e, phase, phase', rfl, hphase, -, hwriter, hstep⟩
    · intro hexited
      rw [hphase']
      rcases step_exited hstep hexited with hold | hnow
      · have hgone := h.exited hold
        rw [hphase] at hgone
        cases hgone
        cases hstep
      · exact hnow
    · intro hexited
      rw [hwriter]
      rcases step_exited hstep hexited with hold | hnow
      · exact h.exited hold
      · cases hnow
  · intro hjoinable
    have hstep := step_of_logger (fire_own hf)
    exact step_keeps_exited hstep (hdone (step_joinable hstep hjoinable))
  · intro hmem
    have hstep := step_of_logger (fire_own hf)
    apply step_keeps_exited hstep
    rcases List.mem_append.mp hmem with hold | hnow
    · exact h.returned hold
    · exact hdone (outcome_stopReturned x.1 hstep hnow)

end Threads

/-! ### The files -/

namespace FileOutput

def is_open (fo : FileOutput) : Bool :=
  match fo.stream with
  | none => false
  | some stream => stream.is_open

def text (fo : FileOutput) : ByteString :=
  match fo.stream with
  | none => []
  | some stream => stream.text

/-- What was inserted is in the file. -/
def Flushed (fo : FileOutput) : Prop :=
  ∀ stream, fo.stream = some stream → stream.is_open = true → stream.flushed = stream.text.length

theorem is_open_of {fo : FileOutput} {stream : Ofstream} (h : fo.stream = some stream) :
    fo.is_open = stream.is_open := by
  rw [is_open, h]

theorem text_of {fo : FileOutput} {stream : Ofstream} (h : fo.stream = some stream) :
    fo.text = stream.text := by
  rw [text, h]

theorem whenOpen_cases (fo : FileOutput) (f : Ofstream → Ofstream) :
    (fo.is_open = false ∧ fo.whenOpen f = fo) ∨ ∃ stream, fo.stream = some stream ∧
      stream.is_open = true ∧ fo.whenOpen f = {fo with stream := some (f stream)} := by
  obtain ⟨path, stream⟩ := fo
  cases stream with
  | none => exact .inl ⟨rfl, rfl⟩
  | some stream =>
    cases hopen : stream.is_open with
    | false => exact .inl ⟨hopen, if_neg (by rw [hopen]; nofun)⟩
    | true => exact .inr ⟨stream, rfl, hopen, if_pos hopen⟩

end FileOutput

def lines (written : List Entry) : ByteString :=
  written.flatMap fun entry => entry.event.format ++ lit "\n"

/-- An output after these events were written to it. -/
structure Wrote (written : List Entry) (fo fo' : FileOutput) : Prop where
  path : fo'.path = fo.path
  is_open : fo'.is_open = fo.is_open
  text : fo'.text = fo.text ++ if fo.is_open then lines written else []

theorem Wrote.start (fo : FileOutput) : Wrote [] fo fo where
  path := rfl
  is_open := rfl
  text := by
    rw [show lines [] = [] from rfl, ite_self, List.append_nil]

theorem Wrote.insert {es : List Entry} {fo fo' : FileOutput} (h : Wrote es fo fo') (entry : Entry) :
    Wrote (es ++ [entry]) fo (fo'.whenOpen fun stream =>
      (stream.insert entry.event.format).insert (lit "\n")) := by
  obtain ⟨hpath, hopen, htext⟩ := h
  rcases fo'.whenOpen_cases fun stream => (stream.insert entry.event.format).insert (lit "\n") with
    ⟨hclosed, heq⟩ | ⟨stream, hstream, hstreamOpen, heq⟩
  · rw [heq]
    refine ⟨hpath, hopen, ?_⟩
    rw [htext, ← hopen, hclosed]
    rfl
  · have hfo : fo.is_open = true := by
      rw [← hopen, FileOutput.is_open_of hstream, hstreamOpen]
    rw [FileOutput.text_of hstream, if_pos hfo] at htext
    rw [heq]
    refine ⟨hpath, ?_, ?_⟩
    · exact hstreamOpen.trans hfo.symm
    · have hlines : lines (es ++ [entry]) = lines es ++ (entry.event.format ++ lit "\n") := by
        simp [lines]
      show stream.text ++ entry.event.format ++ lit "\n" = _
      rw [if_pos hfo, hlines, htext, List.append_assoc, List.append_assoc]

theorem Wrote.flush {es : List Entry} {fo fo' : FileOutput} (h : Wrote es fo fo') :
    Wrote es fo (fo'.whenOpen Ofstream.flush) := by
  obtain ⟨hpath, hopen, htext⟩ := h
  rcases fo'.whenOpen_cases Ofstream.flush with ⟨-, heq⟩ | ⟨stream, hstream, -, heq⟩
  · rw [heq]
    exact ⟨hpath, hopen, htext⟩
  · rw [FileOutput.is_open_of hstream] at hopen
    rw [FileOutput.text_of hstream] at htext
    rw [heq]
    exact ⟨hpath, hopen, htext⟩

theorem flushOutputs_flushed {outputs : List FileOutput} {fo : FileOutput}
    (h : fo ∈ flushOutputs outputs) : fo.Flushed := by
  obtain ⟨fo₀, -, rfl⟩ := List.mem_map.mp h
  rcases fo₀.whenOpen_cases Ofstream.flush with ⟨hclosed, heq⟩ | ⟨stream, -, -, heq⟩
  · intro stream hstream hopen
    rw [heq] at hstream
    rw [FileOutput.is_open_of hstream, hopen] at hclosed
    cases hclosed
  · intro flushed hflushed _
    rw [heq] at hflushed
    cases hflushed
    rfl

theorem step_files {T : Type} (t : T) (h : Step s l e s' l') :
    (s'.fileOutputs = s.fileOutputs ∧ written (outcome t s l e) = []) ∨
      (s'.fileOutputs = flushOutputs s.fileOutputs ∧ written (outcome t s l e) = []) ∨
      ∃ entry, s'.fileOutputs = writeEvent s.fileOutputs entry.event ∧
        written (outcome t s l e) = [entry] := by
  cases h with
  | write => exact .inr (.inr ⟨_, rfl, rfl⟩)
  | flush => exact .inr (.inl ⟨rfl, rfl⟩)
  | exit => exact .inr (.inl ⟨rfl, rfl⟩)
  | _ => exact .inl ⟨rfl, rfl⟩

theorem client_keeps_files {phase : ClientPhase} (h : Step s (.client phase) e s' l') :
    s'.fileOutputs = s.fileOutputs := by
  cases h <;> rfl

theorem exit_flushes (h : Step s l e s' (.writer .exited)) :
    s'.fileOutputs = flushOutputs s.fileOutputs := by
  cases h
  rfl

section Files
variable {C : Type} {before : List AuditEvent} {outputs : List FileOutput}
  {c c' : Config (Option C) Logger Control}

structure Filed (outputs : List FileOutput) (seen : List Outcome)
    (c : Config (Option C) Logger Control) : Prop where
  wrote : List.Forall₂ (Wrote (written seen)) outputs c.shared.fileOutputs
  flushed : c.control none = .writer .exited → ∀ fo ∈ c.shared.fileOutputs, fo.Flushed

variable [DecidableEq C] {x : Option C × Event}

theorem Filed.step (h : Filed outputs seen c) (hseated : Seated c)
    (hf : fire logger c x = some c') :
    Filed outputs (seen ++ outcome x.1 c.shared (c.control x.1) x.2) c' := by
  constructor
  · rcases step_files x.1 (step_of_logger (fire_own hf)) with ⟨hfiles, hwrote⟩ | ⟨hfiles, hwrote⟩ |
      ⟨entry, hfiles, hwrote⟩
    · rw [hfiles, written_append, hwrote, List.append_nil]
      exact h.wrote
    · rw [hfiles, written_append, hwrote, List.append_nil]
      exact List.forall₂_map_right_iff.mpr (h.wrote.imp fun _ _ => Wrote.flush)
    · rw [hfiles, written_append, hwrote]
      exact List.forall₂_map_right_iff.mpr (h.wrote.imp fun _ _ hone => hone.insert entry)
  · rcases hseated.fire_cases hf with ⟨e, phase, phase', rfl, hphase, hphase', hstep⟩ |
      ⟨t, e, phase, phase', rfl, hphase, -, hwriter, hstep⟩
    · intro hexited fo hfo
      rw [hphase'] at hexited
      rw [hexited] at hstep
      rw [exit_flushes hstep] at hfo
      exact flushOutputs_flushed hfo
    · intro hexited fo hfo
      rw [hwriter] at hexited
      rw [client_keeps_files hstep] at hfo
      exact h.flushed hexited fo hfo

/-! ### Every run -/

omit [DecidableEq C] in
theorem entries_numbers (events : List AuditEvent) :
    (entries events).map Entry.number = List.range events.length := by
  rw [entries, List.map_map, List.range_eq_range']
  exact List.zipIdx_map_snd 0 events

structure Audited (before : List AuditEvent) (outputs : List FileOutput) (seen : List Outcome)
    (c : Config (Option C) Logger Control) : Prop where
  seated : Seated c
  ordered : Ordered before seen c
  stopping : Stopping before seen c
  exiting : Exiting seen c
  filed : Filed outputs seen c

omit [DecidableEq C] in
theorem started_audited : Audited before outputs [] (started (C := C) before outputs) where
  seated := started_seated
  ordered := by
    refine ⟨(List.append_nil _).symm, ?_⟩
    rw [enqueueOrder, show enqueued [] = [] from rfl, List.append_nil]
    exact entries_numbers before
  stopping := by
    refine ⟨fun t entry ht => ?_, fun entry hmem => ?_, ?_, nofun, nofun⟩
    · cases t <;> cases ht
    · cases hmem
    · exact ⟨nofun, nofun⟩
  exiting := ⟨nofun, nofun, nofun⟩
  filed := ⟨List.forall₂_same.mpr fun fo _ => Wrote.start fo, nofun⟩

theorem run_audited {tr : List (Option C × Event)}
    (h : exec logger (started before outputs) tr = some c) :
    Audited before outputs (observed logger outcome (started before outputs) tr) c :=
  observed_invariant outcome (Audited before outputs)
    (fun _ _ _ _ hI hf => ⟨hI.seated.step hf, hI.ordered.step hI.seated hf,
      hI.stopping.step hI.seated hI.ordered hf, hI.exiting.step hI.seated hf,
      hI.filed.step hI.seated hf⟩) tr _ c started_audited h

def history (before : List AuditEvent) (outputs : List FileOutput)
    (tr : List (Option C × Event)) : List Outcome :=
  observed logger outcome (started before outputs) tr

/-- The log is complete in a state with this history. -/
structure Complete (before : List AuditEvent) (outputs : List FileOutput) (seen : List Outcome)
    (c : Config (Option C) Logger Control) : Prop where
  in_order : written seen <+: enqueueOrder before seen
  once : (enqueueOrder before seen).Nodup
  files : List.Forall₂ (Wrote (written seen)) outputs c.shared.fileOutputs
  stopped : .stopReturned ∈ seen → ∀ entry, entry ∈ entries before ∨
    .logReturned entry ∈ untilStop seen → entry ∈ written seen
  flushed : .stopReturned ∈ seen → ∀ fo ∈ c.shared.fileOutputs, fo.Flushed
  left : c.control none = .writer .exited →
    written seen ++ c.shared.buffer = enqueueOrder before seen

theorem audit_log_complete (C : Type) [DecidableEq C] (before : List AuditEvent)
    (outputs : List FileOutput) (tr : List (Option C × Event))
    (c : Config (Option C) Logger Control)
    (hrun : exec logger (started before outputs) tr = some c) :
    Complete before outputs (history before outputs tr) c := by
  have h : Audited before outputs (history before outputs tr) c := run_audited hrun
  have hgone : .stopReturned ∈ history before outputs tr → c.control none = .writer .exited :=
    fun hreturned => h.exiting.exited (h.exiting.returned hreturned)
  constructor
  · exact ⟨_, h.ordered.order⟩
  · apply List.Nodup.of_map Entry.number
    rw [h.ordered.numbers]
    exact List.nodup_range
  · exact h.filed.wrote
  · intro hreturned entry hentry
    have hexited := hgone hreturned
    obtain ⟨-, hwritten⟩ := h.stopping.ending (by rw [hexited]; rfl)
    rw [hexited, show hand (.writer .exited) = [] from rfl, List.append_nil] at hwritten
    apply hwritten.subset
    rw [enqueueOrder, List.mem_append]
    exact hentry.imp_right (h.stopping.returned entry)
  · exact fun hreturned => h.filed.flushed (hgone hreturned)
  · intro hexited
    have horder := h.ordered.order
    rw [hexited] at horder
    exact horder

def sampleEvent : AuditEvent :=
  ⟨[], lit "localhost", lit "authentication", lit "testuser", [], [], lit "basic", lit "login"⟩

def auditFile : FileOutput := ⟨lit "audit.log", some ⟨true, [], 0⟩⟩

/-- One event is logged and written, and `stop` is called. -/
def sampleRun : List (Option Unit × Event) :=
  (some (), .log sampleEvent) :: [List.replicate 4 (some (), Event.step),
    List.replicate 8 (none, Event.step), [(some (), .stop), (some (), .step)],
    List.replicate 15 (none, Event.step), [(some (), .step)]].flatten

theorem sampleRun_written : .stopReturned ∈ history [] [auditFile] sampleRun ∧
    ⟨0, sampleEvent⟩ ∈ written (history [] [auditFile] sampleRun) := by
  have hsome : (exec logger (started [] [auditFile]) sampleRun).isSome = true := by decide
  obtain ⟨c, hrun⟩ := Option.isSome_iff_exists.mp hsome
  have h := audit_log_complete Unit [] [auditFile] sampleRun c hrun
  exact ⟨by decide, h.stopped (by decide) _ (.inr (by decide))⟩

end Files
end OpenArangoDBCore.Audit.AuditLogger
