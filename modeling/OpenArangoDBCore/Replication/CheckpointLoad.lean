import OpenArangoDBCore.Lib.Loops
import OpenArangoDBCore.Lib.TextSearch
import OpenArangoDBCore.Replication.ReplicationCheckpoint

/-!
# The positions that `load` goes through (ReplicationCheckpoint.cpp)

`load` with the positions in the content that it keeps, and with what `substr`
and `stoull` may throw. It is the one that works on the rest of the text.
-/

namespace OpenArangoDBCore.Replication.ReplicationCheckpoint
open TextSearch (findFrom findFrom_singleton_iff findFrom_singleton_none_iff findFrom_lt_iff
  drop_past)
open Loops (run scanFrom scanFrom_le drop_scanFrom take_scanFrom scanFrom_eq_self_iff)
open RocksDBEngine.BackupManifest (afterFirst afterFirst_eq quote isDigit stoull)

inductive Thrown where
  | substr
  | stoull
  deriving DecidableEq

def substr (s : ByteString) (pos count : ℕ) : Except Thrown ByteString :=
  if pos ≤ s.length then .ok ((s.drop pos).take count) else .error .substr

/-- The loop leaves with the shards read so far, or `load` returns an error. -/
abbrev Parsed := Except Thrown (Except ByteString ShardState)

structure Parsing where
  pos : ℕ
  state : ShardState

def readNumber (content key : ByteString) (numStart : ℕ) (state : ShardState) :
    Loops.Round Parsing Parsed :=
  let numEnd := scanFrom isDigit content numStart
  if numEnd = numStart then
    .ends (.ok (.error (lit "Checkpoint file has non-numeric sequence for shard: " ++ key)))
  else
    -- both calls stand in the `try`
    match (substr content numStart (numEnd - numStart)).bind fun digits =>
      (stoull digits).mapError fun _ => .stoull with
    | .error _ =>
      .ends (.ok (.error (lit "Checkpoint file has invalid sequence number for shard: " ++ key)))
    | .ok seq => .next ⟨numEnd, state.insert key seq⟩

/-- From the colon behind the key on. -/
def readValue (content key : ByteString) (quoteEnd : ℕ) (state : ShardState) :
    Loops.Round Parsing Parsed :=
  match findFrom [colon] content quoteEnd with
  | none => .ends (.ok (.ok state))
  | some colonPos =>
    if ∃ brace ∈ findFrom [closeBrace] content quoteEnd, brace < colonPos then
      .ends (.ok (.ok state))
    else readNumber content key (scanFrom isSpace content (colonPos + 1)) state

def readEntry (content : ByteString) (p : Parsing) : Loops.Round Parsing Parsed :=
  if p.pos < content.length then
    match findFrom [quote] content p.pos with
    | none => .ends (.ok (.ok p.state))
    | some quoteStart =>
      match findFrom [quote] content (quoteStart + 1) with
      | none => .ends (.ok (.error (lit "Checkpoint file has unterminated string")))
      | some quoteEnd =>
        match substr content (quoteStart + 1) (quoteEnd - quoteStart - 1) with
        | .error thrown => .ends (.error thrown)
        | .ok key => readValue content key quoteEnd p.state
  else .ends (.ok (.ok p.state))

def parseAt (rounds : ℕ) (content : ByteString) : Option Parsed :=
  match TextSearch.find (lit "\"shards\"") content with
  | none => some (.ok (.error (lit "Checkpoint file missing 'shards' key")))
  | some shardsPos =>
    match findFrom [openBrace] content shardsPos with
    | none => some (.ok (.error (lit "Checkpoint file has malformed 'shards' object")))
    | some bracePos => run (readEntry content) rounds ⟨bracePos + 1, ∅⟩

/-- What the caller sees and the tracker afterwards; `none` if the loop is not
over after so many rounds. -/
def loadAt (rounds : ℕ) (path : ByteString) (opens : Bool) (files : CheckpointFiles)
    (tracker : SequenceNumberTracker) :
    Option (Except Thrown CheckpointResult × SequenceNumberTracker) :=
  match files.file with
  | none => some (.ok ⟨true, []⟩, tracker)
  | some content =>
    if opens = false then
      some (.ok ⟨false, lit "Failed to open checkpoint file: " ++ path⟩, tracker)
    else
      (parseAt rounds content).map fun
        | .error thrown => (.error thrown, tracker)
        | .ok (.error error) => (.ok ⟨false, error⟩, tracker)
        | .ok (.ok state) => (.ok ⟨true, []⟩, tracker.restoreState state)

/-! ### A round -/

theorem substr_eq {s part rest : ByteString} {pos : ℕ} (h : s.drop pos = part ++ rest)
    (hpos : pos ≤ s.length) : substr s pos part.length = .ok part := by
  rw [substr, if_pos hpos, h, List.take_left]

theorem findFrom_none {c : Byte} {content : ByteString} {pos : ℕ}
    (h : find c (content.drop pos) = none) : findFrom [c] content pos = none :=
  findFrom_singleton_none_iff.mpr (find_none_iff.mp h)

theorem findFrom_some {c : Byte} {content before after : ByteString} {pos : ℕ}
    (h : find c (content.drop pos) = some (before, after)) :
    findFrom [c] content pos = some (pos + before.length) ∧
      content.drop (pos + before.length) = c :: after ∧
        content.drop (pos + before.length + 1) = after := by
  obtain ⟨hsplit, hno⟩ := find_iff.mp h
  have hdrop : content.drop (pos + before.length) = [c] ++ after := drop_past hsplit
  exact ⟨findFrom_singleton_iff.mpr ⟨before, after, hsplit, hno, rfl⟩, hdrop, drop_past hdrop⟩

theorem find_append {c : Byte} {front : ByteString} (hfront : c ∉ front) (text : ByteString) :
    find c (front ++ text) = (find c text).map fun found => (front ++ found.1, found.2) := by
  cases htext : find c text with
  | none =>
    refine find_none_iff.mpr ?_
    rw [List.mem_append, not_or]
    exact ⟨hfront, find_none_iff.mp htext⟩
  | some found =>
    obtain ⟨before, after⟩ := found
    obtain ⟨rfl, hno⟩ := find_iff.mp htext
    refine find_iff.mpr ⟨(List.append_assoc front before _).symm, ?_⟩
    rw [List.mem_append, not_or]
    exact ⟨hfront, hno⟩

/-- A round does at a position what it does to the text from there on. -/
inductive Agrees (content : ByteString) (state : ShardState) :
    Round → Loops.Round Parsing Parsed → Prop where
  | leaves : Agrees content state .leaves (.ends (.ok (.ok state)))
  | fails {error : ByteString} : Agrees content state (.fails error) (.ends (.ok (.error error)))
  | reads {key : ByteString} {seq : UInt64} {pos : ℕ} :
      Agrees content state (.reads key seq (content.drop pos)) (.next ⟨pos, state.insert key seq⟩)

theorem readNumber_agrees {content : ByteString} {numStart : ℕ} (hpos : numStart ≤ content.length)
    (key : ByteString) (state : ShardState) :
    Agrees content state (parseNumber key (content.drop numStart))
      (readNumber content key numStart state) := by
  unfold readNumber parseNumber
  dsimp only
  by_cases hnone : scanFrom isDigit content numStart = numStart
  · rw [if_pos hnone, if_pos (scanFrom_eq_self_iff.mp hnone)]
    exact .fails
  · rw [if_neg hnone, if_neg (mt scanFrom_eq_self_iff.mpr hnone), substr, if_pos hpos,
      take_scanFrom, ← drop_scanFrom]
    dsimp only [Except.bind]
    cases stoull ((content.drop numStart).takeWhile isDigit) with
    | error e => exact .fails
    | ok seq => exact .reads

theorem readValue_agrees {content afterKey : ByteString} {quoteEnd : ℕ}
    (hat : content.drop quoteEnd = quote :: afterKey) (key : ByteString) (state : ShardState) :
    Agrees content state
      (match find colon afterKey with
        | none => .leaves
        | some (skipped, afterColon) =>
          if closeBrace ∈ skipped then .leaves
          else parseNumber key (afterColon.dropWhile isSpace))
      (readValue content key quoteEnd state) := by
  -- the search begins at the quote that ends the key
  have hfind : find colon (content.drop quoteEnd) =
      (find colon afterKey).map fun found => (quote :: found.1, found.2) := by
    have hquote : colon ∉ [quote] := by decide
    rw [hat]
    exact find_append hquote afterKey
  unfold readValue
  cases hcolon : find colon afterKey with
  | none =>
    rw [hcolon] at hfind
    rw [findFrom_none hfind]
    exact .leaves
  | some found =>
    obtain ⟨skipped, afterColon⟩ := found
    rw [hcolon, Option.map_some] at hfind
    dsimp only at hfind
    obtain ⟨hcolonPos, hatColon, hafterColon⟩ := findFrom_some hfind
    have hsplit := (find_iff.mp hfind).1
    have hbrace := findFrom_lt_iff (b := closeBrace) hsplit
    rw [List.mem_cons, or_iff_right (by decide)] at hbrace
    rw [hcolonPos]
    dsimp only
    generalize quoteEnd + (quote :: skipped).length = colonPos at *
    by_cases hclosed : closeBrace ∈ skipped
    · rw [if_pos hclosed, if_pos (hbrace.mpr hclosed)]
      exact .leaves
    · rw [if_neg hclosed, if_neg (mt hbrace.mp hclosed), ← hafterColon, ← drop_scanFrom]
      have hlen := congrArg List.length hatColon
      rw [List.length_drop, List.length_cons] at hlen
      exact readNumber_agrees (scanFrom_le (by omega)) key state

theorem readEntry_agrees (content : ByteString) (p : Parsing) :
    Agrees content p.state (parseEntry (content.drop p.pos)) (readEntry content p) := by
  by_cases hpos : p.pos < content.length
  · unfold readEntry parseEntry
    rw [if_pos hpos]
    cases hstart : find quote (content.drop p.pos) with
    | none =>
      rw [findFrom_none hstart]
      exact .leaves
    | some found =>
      obtain ⟨gap, afterStart⟩ := found
      obtain ⟨hquoteStart, hat, hafterStart⟩ := findFrom_some hstart
      rw [hquoteStart]
      generalize p.pos + gap.length = quoteStart at *
      have hle : quoteStart + 1 ≤ content.length := by
        have hlen := congrArg List.length hat
        rw [List.length_drop, List.length_cons] at hlen
        omega
      dsimp only
      cases hend : find quote afterStart with
      | none =>
        rw [← hafterStart] at hend
        rw [findFrom_none hend]
        exact .fails
      | some found =>
        obtain ⟨key, afterKey⟩ := found
        rw [← hafterStart] at hend
        obtain ⟨hquoteEnd, hatEnd, -⟩ := findFrom_some hend
        have hkey : content.drop (quoteStart + 1) = key ++ quote :: afterKey := (find_iff.mp hend).1
        rw [hquoteEnd]
        dsimp only
        rw [Nat.sub_sub, Nat.add_sub_cancel_left, substr_eq hkey hle]
        exact readValue_agrees hatEnd key p.state
  · unfold readEntry
    rw [if_neg hpos, List.drop_eq_nil_of_le (not_lt.mp hpos)]
    exact .leaves

/-! ### The whole content -/

theorem run_eq_parseBody {content : ByteString} {rounds : ℕ} (h : content.length < rounds)
    (p : Parsing) :
    run (readEntry content) rounds p = some (.ok (parseBody (content.drop p.pos) p.state)) := by
  refine Loops.run_eq (fun p : Parsing => (content.drop p.pos).length)
    (fun p : Parsing => Except.ok (parseBody (content.drop p.pos) p.state)) ?_ ?_ ?_
  · intro p next hround
    have hagrees := readEntry_agrees content p
    rw [hround] at hagrees
    generalize hentry : parseEntry (content.drop p.pos) = entry at hagrees
    cases hagrees with
    | reads =>
      refine ⟨parseEntry_shorter hentry, ?_⟩
      rw [parseBody_eq (content.drop p.pos), hentry]
  · intro p result hround
    have hagrees := readEntry_agrees content p
    rw [hround] at hagrees
    generalize hentry : parseEntry (content.drop p.pos) = entry at hagrees
    rw [parseBody_eq, hentry]
    cases hagrees with
    | leaves => rfl
    | fails => rfl
  · rw [List.length_drop]
    omega

theorem afterFirst_find (key text : ByteString) : afterFirst key text =
    (TextSearch.find key text).map fun pos => text.drop (pos + key.length) := by
  induction text with
  | nil =>
    unfold afterFirst TextSearch.find
    split
    next hnil =>
      rw [hnil]
      rfl
    next => rfl
  | cons b text ih =>
    unfold afterFirst TextSearch.find
    split
    next => rw [Option.map_some, Nat.zero_add]
    next =>
      rw [ih, Option.map_map]
      congr 1
      funext pos
      rw [Function.comp_apply, Nat.add_right_comm, List.drop_succ_cons]

theorem parseAt_eq {content : ByteString} {rounds : ℕ} (h : content.length < rounds) :
    parseAt rounds content = some (.ok (parse content)) := by
  unfold parseAt parse
  rw [afterFirst_find]
  cases hshards : TextSearch.find (lit "\"shards\"") content with
  | none => rfl
  | some shardsPos =>
    obtain ⟨rest, hrest⟩ := TextSearch.find_isPrefix hshards
    have hbrace : find openBrace (content.drop shardsPos) = (find openBrace rest).map
        fun found => (lit "\"shards\"" ++ found.1, found.2) := by
      rw [← hrest]
      exact find_append (by decide) rest
    rw [Option.map_some, drop_past hrest.symm]
    dsimp only
    cases hopen : find openBrace rest with
    | none =>
      rw [hopen] at hbrace
      rw [findFrom_none hbrace]
    | some found =>
      obtain ⟨skipped, body⟩ := found
      rw [hopen] at hbrace
      obtain ⟨hbracePos, -, hbody⟩ := findFrom_some hbrace
      rw [hbracePos]
      dsimp only
      rw [run_eq_parseBody h, hbody]

theorem loadAt_eq {rounds : ℕ} {files : CheckpointFiles}
    (h : ∀ content ∈ files.file, content.length < rounds) (path : ByteString) (opens : Bool)
    (tracker : SequenceNumberTracker) : loadAt rounds path opens files tracker =
      some (.ok (load path opens files tracker).1, (load path opens files tracker).2) := by
  unfold loadAt load
  cases hfile : files.file with
  | none => rfl
  | some content =>
    dsimp only
    by_cases hopens : opens = false
    · rw [if_pos hopens, if_pos hopens]
    · rw [if_neg hopens, if_neg hopens, parseAt_eq (h content hfile)]
      cases parse content with
      | error error => rfl
      | ok state => rfl

theorem load_unchanged {path : ByteString} {opens : Bool} {files : CheckpointFiles}
    {tracker : SequenceNumberTracker}
    (h : (load path opens files tracker).1.success = false ∨ files.file = none) :
    (load path opens files tracker).2 = tracker := by
  unfold load at h ⊢
  cases hfile : files.file with
  | none => rfl
  | some content =>
    rw [hfile] at h
    dsimp only at h ⊢
    split at h
    next hopens => rw [if_pos hopens]
    next hopens =>
      rw [if_neg hopens]
      cases hparse : parse content with
      | error error => rfl
      | ok state =>
        rw [hparse] at h
        rcases h with hfails | hnone
        · cases hfails
        · cases hnone

/-- One round more than the content has characters is enough. -/
theorem load_total_atomic (path : ByteString) (opens : Bool) (files : CheckpointFiles)
    (tracker : SequenceNumberTracker) : ∃ result after,
      (∀ rounds, (∀ content ∈ files.file, content.length < rounds) →
        loadAt rounds path opens files tracker = some (.ok result, after)) ∧
      (result.success = false ∨ files.file = none → after = tracker) :=
  ⟨(load path opens files tracker).1, (load path opens files tracker).2,
    fun _ h => loadAt_eq h path opens tracker, load_unchanged⟩

end OpenArangoDBCore.Replication.ReplicationCheckpoint
