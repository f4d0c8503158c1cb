import OpenArangoDBCore.RClone.RCloneProcess

/-!
# What the progress callback gets

The lines that are parsed are those between newlines and returns, unless one
read brings a return in front of a newline: then the newlines are taken first,
and a line with a return in it is parsed as one.
-/

namespace OpenArangoDBCore.RClone
open Lines Patterns

namespace RCloneProcess

def Poll.stdout : Poll → Option Read
  | .ready stdout _ => stdout
  | _ => none

def Poll.stderr : Poll → Option Read
  | .ready _ stderr => stderr
  | _ => none

/-- The pieces of one poll in front of later ones, if it does not bring the end. -/
def arrive : Option Read → List ByteString → List ByteString
  | some (some []), _ => []
  | some (some (b :: bytes)), later => (b :: bytes) :: later
  | _, later => later

/-- What is read from one side of the child until it is closed. -/
def received (side : Poll → Option Read) : List Poll → List ByteString
  | [] => []
  | .timeout :: _ => []
  | .failed :: _ => []
  | poll :: polls => arrive (side poll) (received side polls)

/-- The lines that are parsed on the way. -/
def parsedLines (pieces : List ByteString) : List ByteString := (readPieces takeLines [] pieces).1

def lineEnd : Byte → Bool := eitherEnd newline carriageReturn

/-- No return in front of a newline. -/
abbrev Ordered (piece : ByteString) : Prop := FirstKindFirst newline carriageReturn piece

theorem return_not_newline (ch : Byte) (h : newline ch = true) : carriageReturn ch = false := by
  obtain rfl := of_decide_eq_true h
  rfl

/-! ### The loop -/

section Loop
variable {progressCallback : Bool} {s s' : PollLoop} {timedOut : Bool} {later : List ByteString}

def ifOpen : Bool → List ByteString → List ByteString
  | true, pieces => pieces
  | false, _ => []

def reports (progressCallback : Bool) (lineBuffer : ByteString) (pieces : List ByteString) :
    List ℕ :=
  if progressCallback then (readPieces takeLines lineBuffer pieces).1.filterMap parseProgressLine
  else []

/-- What the loop has made of the pieces that it has got. -/
structure Collected (progressCallback : Bool) (s : PollLoop) (out err : List ByteString)
    (s' : PollLoop) : Prop where
  stdout : s'.stdoutBuf = s.stdoutBuf ++ (ifOpen s.stdoutOpen out).flatten
  stderr : s'.stderrBuf = s.stderrBuf ++ (ifOpen s.stderrOpen err).flatten
  reported : s'.reported =
    s.reported ++ reports progressCallback s.lineBuffer (ifOpen s.stdoutOpen out)

theorem reports_nil (lineBuffer : ByteString) : reports progressCallback lineBuffer [] = [] :=
  ite_self _

theorem reports_cons (s : PollLoop) (b : Byte) (bytes : ByteString) :
    s.reported ++ reports progressCallback s.lineBuffer ((b :: bytes) :: later) =
      (readStdout progressCallback s (some (b :: bytes))).reported ++
        reports progressCallback (readStdout progressCallback s (some (b :: bytes))).lineBuffer
          later := by
  unfold readStdout reports
  cases progressCallback with
  | false => rfl
  | true =>
    dsimp only
    rw [if_pos rfl, if_pos rfl, if_pos rfl, readPieces]
    dsimp only
    rw [List.filterMap_append, List.append_assoc]

theorem takeStderr_frame (s : PollLoop) (read : Option Read) :
    (takeStderr s read).stdoutBuf = s.stdoutBuf ∧ (takeStderr s read).lineBuffer = s.lineBuffer ∧
      (takeStderr s read).stdoutOpen = s.stdoutOpen ∧
      (takeStderr s read).reported = s.reported := by
  unfold takeStderr readStderr
  split
  · exact ⟨rfl, rfl, rfl, rfl⟩
  · split
    · split <;> exact ⟨rfl, rfl, rfl, rfl⟩
    · exact ⟨rfl, rfl, rfl, rfl⟩

theorem takeStdout_frame (progressCallback : Bool) (s : PollLoop) (read : Option Read) :
    (takeStdout progressCallback s read).stderrBuf = s.stderrBuf ∧
      (takeStdout progressCallback s read).stderrOpen = s.stderrOpen := by
  unfold takeStdout readStdout
  split
  · exact ⟨rfl, rfl⟩
  · split
    · split
      · exact ⟨rfl, rfl⟩
      · exact ⟨rfl, rfl⟩
      · dsimp only
        split <;> exact ⟨rfl, rfl⟩
    · exact ⟨rfl, rfl⟩

theorem takeStdout_of_open (h : s.stdoutOpen = true) (read : Read) :
    takeStdout progressCallback s (some read) = readStdout progressCallback s read := if_pos h

theorem takeStdout_of_closed (h : s.stdoutOpen = false) (read : Option Read) :
    takeStdout progressCallback s read = s := by
  cases read with
  | none => rfl
  | some read => exact if_neg (Bool.eq_false_iff.mp h)

theorem takeStderr_of_open (h : s.stderrOpen = true) (read : Read) :
    takeStderr s (some read) = readStderr s read := if_pos h

theorem takeStderr_of_closed (h : s.stderrOpen = false) (read : Option Read) :
    takeStderr s read = s := by
  cases read with
  | none => rfl
  | some read => exact if_neg (Bool.eq_false_iff.mp h)

theorem readStdout_data (progressCallback : Bool) (s : PollLoop) (b : Byte) (bytes : ByteString) :
    (readStdout progressCallback s (some (b :: bytes))).stdoutOpen = s.stdoutOpen ∧
      (readStdout progressCallback s (some (b :: bytes))).stdoutBuf =
        s.stdoutBuf ++ b :: bytes := by
  unfold readStdout
  dsimp only
  split <;> exact ⟨rfl, rfl⟩

theorem takeStdout_collects (progressCallback : Bool) (s : PollLoop) (read : Option Read)
    (later : List ByteString) :
    let s₁ := takeStdout progressCallback s read
    s₁.stdoutBuf ++ (ifOpen s₁.stdoutOpen later).flatten =
        s.stdoutBuf ++ (ifOpen s.stdoutOpen (arrive read later)).flatten ∧
      s₁.reported ++ reports progressCallback s₁.lineBuffer (ifOpen s₁.stdoutOpen later) =
        s.reported ++
          reports progressCallback s.lineBuffer (ifOpen s.stdoutOpen (arrive read later)) := by
  intro s₁
  unfold s₁
  cases hopen : s.stdoutOpen with
  | false =>
    rw [takeStdout_of_closed hopen, hopen]
    exact ⟨rfl, rfl⟩
  | true =>
    match read with
    | none =>
      unfold takeStdout
      dsimp only
      rw [hopen]
      exact ⟨rfl, rfl⟩
    | some none =>
      rw [takeStdout_of_open hopen]
      unfold readStdout
      dsimp only
      rw [hopen]
      exact ⟨rfl, rfl⟩
    | some (some []) =>
      rw [takeStdout_of_open hopen]
      exact ⟨rfl, rfl⟩
    | some (some (b :: bytes)) =>
      obtain ⟨hstill, hbuf⟩ := readStdout_data progressCallback s b bytes
      rw [takeStdout_of_open hopen, hstill, hopen, hbuf]
      refine ⟨?_, (reports_cons s b bytes).symm⟩
      exact List.append_assoc s.stdoutBuf (b :: bytes) later.flatten

theorem takeStderr_collects (s : PollLoop) (read : Option Read) (later : List ByteString) :
    (takeStderr s read).stderrBuf ++ (ifOpen (takeStderr s read).stderrOpen later).flatten =
      s.stderrBuf ++ (ifOpen s.stderrOpen (arrive read later)).flatten := by
  cases hopen : s.stderrOpen with
  | false =>
    rw [takeStderr_of_closed hopen, hopen]
    rfl
  | true =>
    match read with
    | none =>
      unfold takeStderr
      dsimp only
      rw [hopen]
      rfl
    | some none =>
      rw [takeStderr_of_open hopen]
      unfold readStderr
      dsimp only
      rw [hopen]
      rfl
    | some (some []) =>
      rw [takeStderr_of_open hopen]
      rfl
    | some (some (b :: bytes)) =>
      rw [takeStderr_of_open hopen]
      unfold readStderr
      dsimp only
      rw [hopen]
      exact List.append_assoc s.stderrBuf (b :: bytes) later.flatten

theorem collected_closed (h : (s.stdoutOpen || s.stderrOpen) = false) (out err : List ByteString) :
    Collected progressCallback s out err s := by
  obtain ⟨hout, herr⟩ := Bool.or_eq_false_iff.mp h
  refine ⟨?_, ?_, ?_⟩
  · rw [hout]
    exact (List.append_nil _).symm
  · rw [herr]
    exact (List.append_nil _).symm
  · rw [hout]
    exact (List.append_nil _).symm.trans (congrArg _ (reports_nil s.lineBuffer).symm)

theorem collected_stop {out err : List ByteString} (hout : out = []) (herr : err = []) :
    Collected progressCallback s out err s := by
  have hnone : ∀ open_, ifOpen open_ [] = [] := by
    rintro (_ | _) <;> rfl
  subst hout
  subst herr
  refine ⟨?_, ?_, ?_⟩
  · rw [hnone]
    exact (List.append_nil _).symm
  · rw [hnone]
    exact (List.append_nil _).symm
  · rw [hnone, reports_nil]
    exact (List.append_nil _).symm

theorem pollLoop_collects (polls : List Poll)
    (h : pollLoop progressCallback s polls = some (s', timedOut)) :
    Collected progressCallback s (received Poll.stdout polls) (received Poll.stderr polls) s' := by
  induction polls generalizing s with
  | nil =>
    unfold pollLoop at h
    split at h
    · cases h
    next hclosed =>
      cases h
      exact collected_closed (Bool.eq_false_iff.mpr hclosed) _ _
  | cons poll polls ih =>
    unfold pollLoop at h
    split at h
    next =>
      match poll with
      | .timeout =>
        cases h
        exact collected_stop rfl rfl
      | .failed =>
        cases h
        exact collected_stop rfl rfl
      | .interrupted => exact ih h
      | .ready stdout stderr =>
        obtain ⟨hstdout, hstderr, hreported⟩ := ih h
        obtain ⟨hbuf, hline, hopen, hrep⟩ :=
          takeStderr_frame (takeStdout progressCallback s stdout) stderr
        obtain ⟨herr, herrOpen⟩ := takeStdout_frame progressCallback s stdout
        obtain ⟨hout, hcalls⟩ := takeStdout_collects progressCallback s stdout
          (received Poll.stdout polls)
        refine ⟨?_, ?_, ?_⟩
        · rw [hstdout, hbuf, hopen]
          exact hout
        · rw [hstderr, takeStderr_collects, herr, herrOpen]
          rfl
        · rw [hreported, hrep, hline, hopen]
          exact hcalls
    next hclosed =>
      cases h
      exact collected_closed (Bool.eq_false_iff.mpr hclosed) _ _

end Loop

theorem pollLoop_result (progressCallback : Bool) (polls : List Poll) (s : PollLoop)
    (timedOut : Bool)
    (h : pollLoop progressCallback ⟨[], [], [], true, true, []⟩ polls = some (s, timedOut)) :
    s.stdoutBuf = (received Poll.stdout polls).flatten ∧
      s.stderrBuf = (received Poll.stderr polls).flatten ∧
      s.reported = reports progressCallback [] (received Poll.stdout polls) := by
  obtain ⟨hstdout, hstderr, hreported⟩ := pollLoop_collects polls h
  exact ⟨hstdout, hstderr, hreported⟩

/-- What an upload returns and reports once its child runs: everything that was
read, and a percentage, never above 100, for each parsed line that has one. The
parsed lines are those between the line ends of the output, wherever the reads
cut it, exactly if no read brings a return in front of a newline. -/
theorem reports_follow_lines_iff (system : System) (config : RCloneConfig)
    (localPath : ByteString) (child : Child) (hpipe : system.pipe = none)
    (hspawn : system.posix_spawn (buildCommand config localPath) (buildEnvironment config) =
      .ok child) (result : RCloneResult) (reported : List ℕ)
    (h : execute system config localPath true = some (result, reported)) :
    let pieces := received Poll.stdout child.polls
    result.stdoutOutput = pieces.flatten ∧
      result.stderrOutput = (received Poll.stderr child.polls).flatten ∧
      reported = (parsedLines pieces).filterMap parseProgressLine ∧
      (∀ percent ∈ reported, percent ≤ 100) ∧
      (parsedLines pieces = (cutLines lineEnd result.stdoutOutput).1 ↔
        ∀ piece ∈ pieces, Ordered piece) := by
  intro pieces
  rw [execute_running hpipe hspawn] at h
  obtain ⟨⟨s, timedOut⟩, hloop, hresult⟩ := Option.map_eq_some_iff.mp h
  obtain ⟨hstdout, hstderr, hreported⟩ := pollLoop_result true child.polls s timedOut hloop
  cases hresult
  refine ⟨hstdout, hstderr, hreported, ?_, ?_⟩
  · intro percent hpercent
    dsimp only at hpercent
    rw [hreported] at hpercent
    obtain ⟨line, -, hline⟩ := List.mem_filterMap.mp hpercent
    exact parseProgressLine_le hline
  · dsimp only
    rw [hstdout]
    exact readPieces_iff return_not_newline pieces (List.forall_mem_nil _)

def sampleConfig : RCloneConfig :=
  ⟨.kS3, [], lit "bucket", [], [], lit "rclone", 300, 4, 3, lit "id", lit "secret", [], [], []⟩

def systemOf (child : Child) : System := ⟨none, fun _ _ => .ok child⟩

/-- The reads of the child, then both of its pipes are closed. -/
def childOf (reads : List ByteString) : Child :=
  ⟨(reads.map fun bytes => .ready (some (some bytes)) none) ++
    [.interrupted, .ready (some (some [])) (some (some []))], some 0⟩

def halfLine : ByteString := lit "Transferred: 1 B / 4 B, 25%\r"

/-- The line of the second percentage is cut in two. -/
def orderedReads : List ByteString :=
  [halfLine ++ lit "Transferred: 4 B / 4", lit " B, 100%\nErrors: 0\n"]

theorem orderedReads_reported :
    parsedLines orderedReads = (cutLines lineEnd (orderedReads.flatten)).1 :=
  (reports_follow_lines_iff (systemOf (childOf orderedReads)) sampleConfig (lit "/b")
    (childOf orderedReads) rfl rfl ⟨0, orderedReads.flatten, [], false⟩ [25, 100]
    (by decide +kernel)).2.2.2.2.mpr (by decide +kernel)

/-- In one read the same output is reported as one line, and so is the percentage. -/
example : execute (systemOf (childOf [orderedReads.flatten])) sampleConfig (lit "/b") true =
    some (⟨0, orderedReads.flatten, [], false⟩, [25]) := by decide +kernel

/-! ### Progress as rclone prints it -/

/-- `Transferred: 1.2 GiB / 3.4 GiB, 35%, ...` -/
structure ProgressLine where
  blanks : ByteString
  done : ByteString
  doneUnit : ByteString
  total : ByteString
  totalUnit : ByteString
  percent : ℕ
  more : ByteString
  blanks_ne : blanks ≠ []
  blanks_space : ∀ ch ∈ blanks, isSpace ch = true ∧ lineEnd ch = false
  done_ne : done ≠ []
  done_numeric : ∀ ch ∈ done, isNumeric ch = true
  doneUnit_ne : doneUnit ≠ []
  doneUnit_word : ∀ ch ∈ doneUnit, isSpace ch = false
  total_ne : total ≠ []
  total_numeric : ∀ ch ∈ total, isNumeric ch = true
  totalUnit_ne : totalUnit ≠ []
  totalUnit_word : ∀ ch ∈ totalUnit, isSpace ch = false
  percent_le : percent ≤ 100
  more_open : ∀ ch ∈ more, lineEnd ch = false

namespace ProgressLine

/-- From the percentage on. -/
def percentText (line : ProgressLine) : ByteString :=
  decimal line.percent ++ (lit "%" ++ line.more)

def totalText (line : ProgressLine) : ByteString :=
  line.total ++ (lit " " ++ (line.totalUnit ++ (lit ", " ++ line.percentText)))

def text (line : ProgressLine) : ByteString :=
  lit "Transferred:" ++ (line.blanks ++
    (line.done ++ (lit " " ++ (line.doneUnit ++ (lit " / " ++ line.totalText)))))

end ProgressLine

theorem numeric_not_space {ch : Byte} (h : isNumeric ch = true) : isSpace ch = false := by
  unfold isNumeric isDigit at h
  unfold isSpace
  simp only [Bool.or_eq_true, decide_eq_true_eq] at h
  rw [decide_eq_false_iff_not]
  omega

theorem word_open {ch : Byte} (h : isSpace ch = false) : lineEnd ch = false := by
  unfold isSpace at h
  rw [decide_eq_false_iff_not] at h
  refine eitherEnd_eq_false (decide_eq_false ?_) (decide_eq_false ?_)
  · rintro rfl
    exact h (.inr (by decide))
  · rintro rfl
    exact h (.inr (by decide))

section Match
variable (line : ProgressLine)

/-- The items match, and in the end they match the percentage and its sign. -/
def MatchesPercent (items : List (Item Byte)) (text : ByteString) : Prop :=
  ∃ found, matchItems items text = some (found ++ [decimal line.percent, lit "%"])

theorem percent_matches : MatchesPercent line percentItems line.percentText := by
  have hdigit : ∀ ch ∈ decimal line.percent, isDigit ch = true := fun ch hch =>
    decide_eq_true (decimal_digit line.percent ch hch)
  have hsign : matchItems percentSign (lit "%" ++ line.more) = some [lit "%"] :=
    matchItems_literal (lit "%") rfl
  exact ⟨[], matchItems_many hdigit (decimal_ne_nil line.percent) (matchMany_stop rfl _) hsign⟩

variable {line}

theorem MatchesPercent.literal {items : List (Item Byte)} {text : ByteString}
    (h : MatchesPercent line items text) (word : ByteString) :
    MatchesPercent line (Patterns.literal word ++ items) (word ++ text) := by
  obtain ⟨found, hfound⟩ := h
  refine ⟨(word.map fun a => [a]) ++ found, ?_⟩
  rw [matchItems_literal word hfound, List.append_assoc]

theorem MatchesPercent.many {items : List (Item Byte)} {text : ByteString}
    (h : MatchesPercent line items text) {p : Byte → Bool} {run : ByteString} (hne : run ≠ [])
    (hrun : ∀ ch ∈ run, p ch = true) (hstop : matchMany p (matchItems items) text = none) :
    MatchesPercent line (.many p :: items) (run ++ text) := by
  obtain ⟨found, hfound⟩ := h
  exact ⟨run :: found, matchItems_many hrun hne hstop hfound⟩

variable (line)

theorem totalUnit_matches : MatchesPercent line totalUnitItems
    (line.totalUnit ++ (lit ", " ++ line.percentText)) := by
  refine ((percent_matches line).literal (lit ", ")).many line.totalUnit_ne ?_ ?_
  · intro ch hch
    rw [line.totalUnit_word ch hch]
    rfl
  · -- the comma could belong to the run, but then the next item has none to match
    show matchMany _ _ (0x2C :: 0x20 :: line.percentText) = none
    rw [matchMany, if_pos (by decide), matchMany_stop (by decide)]
    rfl

theorem total_matches : MatchesPercent line
    (.many isNumeric :: (literal (lit " ") ++ totalUnitItems)) line.totalText :=
  ((totalUnit_matches line).literal (lit " ")).many line.total_ne line.total_numeric
    (matchMany_stop rfl _)

theorem doneUnit_matches : MatchesPercent line doneUnitItems
    (line.doneUnit ++ (lit " / " ++ line.totalText)) := by
  refine ((total_matches line).literal (lit " / ")).many line.doneUnit_ne ?_ (matchMany_stop rfl _)
  intro ch hch
  rw [line.doneUnit_word ch hch]
  rfl

theorem text_matches : MatchesPercent line kProgressRegex line.text := by
  have hdone := ((doneUnit_matches line).literal (lit " ")).many line.done_ne line.done_numeric
    (matchMany_stop rfl _)
  refine (hdone.many line.blanks_ne (fun ch hch => (line.blanks_space ch hch).1) ?_).literal
    (lit "Transferred:")
  obtain ⟨ch, more, hdone⟩ := List.exists_cons_of_ne_nil line.done_ne
  have hnumeric := line.done_numeric ch (by rw [hdone]; exact List.mem_cons_self)
  rw [hdone]
  exact matchMany_stop (numeric_not_space hnumeric) _

/-- The percentage that rclone prints is the one that is parsed. -/
theorem parse_progressLine : parseProgressLine line.text = some line.percent := by
  obtain ⟨found, hfound⟩ := text_matches line
  have hgroup : (found ++ [decimal line.percent, lit "%"]).dropLast.getLastD [] =
      decimal line.percent := by
    rw [List.append_cons, List.dropLast_concat, List.getLastD_concat]
  have hpercent := line.percent_le
  have hvalue : percentValue (decimal line.percent) = some line.percent := by
    unfold percentValue
    rw [digitsValue_decimal, if_pos (by omega), Nat.mod_eq_of_lt (by omega)]
  unfold parseProgressLine
  rw [search_here hfound]
  dsimp only
  rw [hgroup, hvalue]
  exact if_pos hpercent

theorem progressLine_open : ∀ ch ∈ line.text, lineEnd ch = false := by
  have hword : ∀ word : ByteString, (∀ ch ∈ word, isSpace ch = false) →
      ∀ ch ∈ word, lineEnd ch = false := fun word h ch hch => word_open (h ch hch)
  have hdigits : ∀ ch ∈ decimal line.percent, lineEnd ch = false := by
    intro ch hch
    refine word_open (numeric_not_space ?_)
    unfold isNumeric isDigit
    rw [decide_eq_true (decimal_digit line.percent ch hch), Bool.true_or]
  unfold ProgressLine.text ProgressLine.totalText ProgressLine.percentText
  simp only [List.forall_mem_append]
  exact ⟨by decide +kernel, fun ch hch => (line.blanks_space ch hch).2,
    hword _ fun ch hch => numeric_not_space (line.done_numeric ch hch), by decide +kernel,
    hword _ line.doneUnit_word, by decide +kernel,
    hword _ fun ch hch => numeric_not_space (line.total_numeric ch hch), by decide +kernel,
    hword _ line.totalUnit_word, by decide +kernel, hdigits, by decide +kernel, line.more_open⟩

end Match

/-- A line of the output, with its end. -/
inductive OutputLine where
  | progress (line : ProgressLine) (end_ : Byte) (hend : lineEnd end_ = true)
  | other (text : ByteString) (end_ : Byte) (hend : lineEnd end_ = true)
    (htext : ∀ ch ∈ text, lineEnd ch = false) (hnone : parseProgressLine text = none)

namespace OutputLine

def text : OutputLine → ByteString
  | progress line _ _ => line.text
  | other text _ _ _ _ => text

def ending : OutputLine → Byte
  | progress _ end_ _ => end_
  | other _ end_ _ _ _ => end_

def percent : OutputLine → Option ℕ
  | progress line _ _ => some line.percent
  | other _ _ _ _ _ => none

def write (line : OutputLine) : ByteString := line.text ++ [line.ending]

theorem text_open (line : OutputLine) : ∀ ch ∈ line.text, lineEnd ch = false := by
  cases line with
  | progress line _ _ => exact progressLine_open line
  | other _ _ _ htext _ => exact htext

theorem ending_ends (line : OutputLine) : lineEnd line.ending = true := by
  cases line with
  | progress _ _ hend => exact hend
  | other _ _ hend _ _ => exact hend

theorem parse_text (line : OutputLine) : parseProgressLine line.text = line.percent := by
  cases line with
  | progress line _ _ => exact parse_progressLine line
  | other _ _ _ _ hnone => exact hnone

end OutputLine

theorem cutLines_output (lines : List OutputLine) {rest : ByteString}
    (hrest : ∀ ch ∈ rest, lineEnd ch = false) :
    (cutLines lineEnd (lines.flatMap OutputLine.write ++ rest)).1 = lines.map OutputLine.text := by
  induction lines with
  | nil => rw [List.flatMap_nil, List.nil_append, cutLines_of_open hrest, List.map_nil]
  | cons line lines ih =>
    rw [List.flatMap_cons, OutputLine.write, List.append_assoc, List.append_assoc,
      List.singleton_append, cutLines_line line.text_open line.ending_ends, ih, List.map_cons]

/-- An output of whole lines, ended by newlines or returns, and an open rest is
reported as it was printed: the percentages of its progress lines in their
order. The reads may cut it anywhere, if none has a return in front of a newline. -/
theorem output_reported (system : System) (config : RCloneConfig) (localPath : ByteString)
    (child : Child) (hpipe : system.pipe = none)
    (hspawn : system.posix_spawn (buildCommand config localPath) (buildEnvironment config) =
      .ok child) (lines : List OutputLine) (rest : ByteString)
    (hrest : ∀ ch ∈ rest, lineEnd ch = false)
    (houtput : (received Poll.stdout child.polls).flatten =
      lines.flatMap OutputLine.write ++ rest)
    (hordered : ∀ piece ∈ received Poll.stdout child.polls, Ordered piece)
    (result : RCloneResult) (reported : List ℕ)
    (h : execute system config localPath true = some (result, reported)) :
    reported = lines.filterMap OutputLine.percent := by
  rw [execute_running hpipe hspawn] at h
  obtain ⟨⟨s, timedOut⟩, hloop, hresult⟩ := Option.map_eq_some_iff.mp h
  obtain ⟨-, -, hreported⟩ := pollLoop_result true child.polls s timedOut hloop
  have hlines := (readPieces_iff return_not_newline (received Poll.stdout child.polls)
    (List.forall_mem_nil _)).mpr hordered
  rw [List.nil_append, houtput] at hlines
  have hcut := hlines.trans (cutLines_output lines hrest)
  cases hresult
  dsimp only
  rw [hreported]
  unfold reports
  rw [if_pos rfl]
  refine (congrArg (List.filterMap parseProgressLine) hcut).trans ?_
  rw [List.filterMap_map]
  exact List.filterMap_congr fun line _ => line.parse_text

def sampleLine (done : ByteString) (percent : ℕ) (hne : done ≠ [])
    (hnumeric : ∀ ch ∈ done, isNumeric ch = true) (hle : percent ≤ 100) : ProgressLine :=
  ⟨lit " ", done, lit "B", lit "4", lit "B", percent, [], by decide +kernel, by decide +kernel, hne,
    hnumeric, by decide +kernel, by decide +kernel, by decide +kernel, by decide +kernel,
    by decide +kernel, by decide +kernel, hle, List.forall_mem_nil _⟩

def sampleLines : List OutputLine :=
  [.progress (sampleLine (lit "1") 25 (by decide +kernel) (by decide +kernel) (by decide)) 0x0D rfl,
    .progress (sampleLine (lit "4") 100 (by decide +kernel) (by decide +kernel) (by decide)) 0x0A
      rfl,
    .other (lit "Errors: 0") 0x0A rfl (by decide +kernel) (by decide +kernel)]

theorem sampleLines_reported : [25, 100] = sampleLines.filterMap OutputLine.percent :=
  output_reported (systemOf (childOf orderedReads)) sampleConfig (lit "/b") (childOf orderedReads)
    rfl rfl sampleLines [] (List.forall_mem_nil _) (by decide +kernel) (by decide +kernel)
    ⟨0, orderedReads.flatten, [], false⟩ [25, 100] (by decide +kernel)

end RCloneProcess
end OpenArangoDBCore.RClone
