import OpenArangoDBCore.Replication.IdempotencyChecker
import OpenArangoDBCore.RocksDBEngine.BackupManifest

/-!
# The replication checkpoint (ReplicationCheckpoint.cpp)

`save` iterates over the state of the tracker in the order of the map, and
what the file system does with its files is an argument. Of a position in the
content `load` needs the text behind it only.
-/

namespace OpenArangoDBCore.Replication
open Delimited
open RocksDBEngine.BackupManifest (afterFirst afterFirst_eq quote isDigit stoull stoull_decimal)

abbrev ShardState := UnorderedMap ByteString UInt64

namespace SequenceNumberTracker

def getState (t : SequenceNumberTracker) : ShardState := t.lastApplied
def restoreState (_ : SequenceNumberTracker) (state : ShardState) : SequenceNumberTracker := ⟨state⟩

end SequenceNumberTracker

structure CheckpointResult where
  success : Bool
  error : ByteString
  deriving DecidableEq

/-- The file at the path of the checkpoint and the one beside it. -/
structure CheckpointFiles where
  file : Option ByteString
  tmpFile : Option ByteString

inductive SaveOutcome where
  | notOpened
  | notWritten (written : ByteString)
  | notRenamed (message : ByteString)
  | renamed

namespace ReplicationCheckpoint

def colon : Byte := 0x3A
def openBrace : Byte := 0x7B
def closeBrace : Byte := 0x7D

/-! ### `save` -/

/-- The text up to the opening brace of the shards. -/
def header : ByteString := lit "\x7b\n  \"version\": 1,\n  \"shards\": \x7b"

def renderEntries : Bool → List (ByteString × UInt64) → ByteString
  | _, [] => []
  | first, (shardId, seq) :: entries =>
    (if first then [] else lit ",") ++ (lit "\n    \"" ++ shardId ++ lit "\": ") ++
      decimal seq.toNat ++ renderEntries false entries

def render (order : List (ByteString × UInt64)) : ByteString :=
  header ++ renderEntries true order ++ lit "\n  \x7d\n\x7d\n"

def save (path : ByteString) (tracker : SequenceNumberTracker)
    (order : UnorderedMap.IterationOrder tracker.getState) (outcome : SaveOutcome)
    (files : CheckpointFiles) : CheckpointResult × CheckpointFiles :=
  let tmpPath := path ++ lit ".tmp"
  match outcome with
  | .notOpened => (⟨false, lit "Failed to open temporary checkpoint file: " ++ tmpPath⟩, files)
  | .notWritten written =>
    (⟨false, lit "Failed to write checkpoint data to: " ++ tmpPath⟩,
      {files with tmpFile := some written})
  | .notRenamed message =>
    (⟨false, lit "Failed to rename checkpoint file: " ++ message⟩,
      {files with tmpFile := some (render order.val)})
  | .renamed => (⟨true, []⟩, ⟨some (render order.val), none⟩)

/-! ### `load` -/

def isSpace (b : Byte) : Bool := b = 0x20 ∨ b = 0x0A ∨ b = 0x0D ∨ b = 0x09

/-- What stands before the first occurrence of the character and what behind. -/
def find (c : Byte) (text : ByteString) : Option (ByteString × ByteString) :=
  if c ∈ text then some (text.takeWhile (· ≠ c), (text.dropWhile (· ≠ c)).tail) else none

/-- How a round of the loop over the entries ends. -/
inductive Round where
  | leaves
  | fails (error : ByteString)
  | reads (key : ByteString) (seq : UInt64) (rest : ByteString)

def parseNumber (key number : ByteString) : Round :=
  let digits := number.takeWhile isDigit
  if digits = [] then
    .fails (lit "Checkpoint file has non-numeric sequence for shard: " ++ key)
  else
    match stoull digits with
    | .error _ => .fails (lit "Checkpoint file has invalid sequence number for shard: " ++ key)
    | .ok seq => .reads key seq (number.dropWhile isDigit)

def parseEntry (text : ByteString) : Round :=
  match find quote text with
  | none => .leaves
  | some (_, afterStart) =>
    match find quote afterStart with
    | none => .fails (lit "Checkpoint file has unterminated string")
    | some (key, afterKey) =>
      match find colon afterKey with
      | none => .leaves
      | some (skipped, afterColon) =>
        -- past the closing brace of the shards
        if closeBrace ∈ skipped then .leaves
        else parseNumber key (afterColon.dropWhile isSpace)

/-- The loop over the entries. A round that goes on has consumed something, so
as many rounds as there are characters suffice. -/
def parseLoop : ℕ → ByteString → ShardState → Except ByteString ShardState
  | 0, _, state => .ok state
  | rounds + 1, text, state =>
    match parseEntry text with
    | .leaves => .ok state
    | .fails error => .error error
    | .reads key seq rest => parseLoop rounds rest (state.insert key seq)

def parseBody (body : ByteString) (state : ShardState) : Except ByteString ShardState :=
  parseLoop body.length body state

def parse (content : ByteString) : Except ByteString ShardState :=
  match afterFirst (lit "\"shards\"") content with
  | none => .error (lit "Checkpoint file missing 'shards' key")
  | some rest =>
    match find openBrace rest with
    | none => .error (lit "Checkpoint file has malformed 'shards' object")
    | some (_, body) => parseBody body ∅

/-- `opens` tells if a file that exists can be opened. -/
def load (path : ByteString) (opens : Bool) (files : CheckpointFiles)
    (tracker : SequenceNumberTracker) : CheckpointResult × SequenceNumberTracker :=
  match files.file with
  | none => (⟨true, []⟩, tracker)
  | some content =>
    if opens = false then (⟨false, lit "Failed to open checkpoint file: " ++ path⟩, tracker)
    else
      match parse content with
      | .error error => (⟨false, error⟩, tracker)
      | .ok state => (⟨true, []⟩, tracker.restoreState state)

/-! ### What a round reads -/

theorem find_iff {c : Byte} {text before after : ByteString} :
    find c text = some (before, after) ↔ text = before ++ c :: after ∧ c ∉ before := by
  have hfind : ∀ before after : ByteString, c ∉ before →
      find c (before ++ c :: after) = some (before, after) := by
    intro before after hno
    unfold find
    rw [if_pos (by simp), takeWhile_delimited hno, dropWhile_delimited hno,
      List.tail_cons]
  constructor
  · intro h
    have hmem : c ∈ text := by
      by_contra hno
      rw [find, if_neg hno] at h
      cases h
    obtain ⟨front, back, rfl, hno⟩ := List.eq_append_cons_of_mem hmem
    rw [hfind front back hno] at h
    obtain ⟨rfl, rfl⟩ := Prod.mk.inj (Option.some.inj h)
    exact ⟨rfl, hno⟩
  · rintro ⟨rfl, hno⟩
    exact hfind before after hno

theorem find_none_iff {c : Byte} {text : ByteString} : find c text = none ↔ c ∉ text := by
  unfold find
  split
  next h => exact iff_of_false nofun (not_not.mpr h)
  next h => exact iff_of_true rfl h

/-- A key in quotes and a colon, and what follows up to the number. -/
inductive Opens : ByteString → ByteString → ByteString → Prop where
  | mk {gap key skipped space number : ByteString} (hgap : quote ∉ gap) (hkey : quote ∉ key)
      (hcolon : colon ∉ skipped) (hbrace : closeBrace ∉ skipped)
      (hspace : ∀ b ∈ space, isSpace b = true) (hnumber : StopsAt isSpace number) :
      Opens (gap ++ quote :: (key ++ quote :: (skipped ++ colon :: (space ++ number)))) key number

theorem Opens.parseEntry_eq {text key number : ByteString} (h : Opens text key number) :
    parseEntry text = parseNumber key number := by
  obtain ⟨hgap, hkey, hcolon, hbrace, hspace, hnumber⟩ := h
  unfold parseEntry
  rw [find_iff.mpr ⟨rfl, hgap⟩]
  dsimp only
  rw [find_iff.mpr ⟨rfl, hkey⟩]
  dsimp only
  rw [find_iff.mpr ⟨rfl, hcolon⟩]
  dsimp only
  rw [if_neg hbrace, hnumber.dropWhile hspace]

theorem parseEntry_of_unterminated {gap key : ByteString} (hgap : quote ∉ gap)
    (hkey : quote ∉ key) : parseEntry (gap ++ quote :: key) =
      .fails (lit "Checkpoint file has unterminated string") := by
  unfold parseEntry
  rw [find_iff.mpr ⟨rfl, hgap⟩]
  dsimp only
  rw [find_none_iff.mpr hkey]

/-- Nothing that looks like an entry is left. -/
inductive Ends : ByteString → Prop where
  | noQuote {text : ByteString} (h : quote ∉ text) : Ends text
  | noColon {gap key rest : ByteString} (hgap : quote ∉ gap) (hkey : quote ∉ key)
      (h : colon ∉ rest) : Ends (gap ++ quote :: (key ++ quote :: rest))
  | closed {gap key skipped rest : ByteString} (hgap : quote ∉ gap) (hkey : quote ∉ key)
      (hcolon : colon ∉ skipped) (h : closeBrace ∈ skipped) :
      Ends (gap ++ quote :: (key ++ quote :: (skipped ++ colon :: rest)))

theorem Ends.parseEntry_eq {text : ByteString} (h : Ends text) : parseEntry text = .leaves := by
  unfold parseEntry
  cases h with
  | noQuote h => rw [find_none_iff.mpr h]
  | noColon hgap hkey h =>
    rw [find_iff.mpr ⟨rfl, hgap⟩]
    dsimp only
    rw [find_iff.mpr ⟨rfl, hkey⟩]
    dsimp only
    rw [find_none_iff.mpr h]
  | closed hgap hkey hcolon h =>
    rw [find_iff.mpr ⟨rfl, hgap⟩]
    dsimp only
    rw [find_iff.mpr ⟨rfl, hkey⟩]
    dsimp only
    rw [find_iff.mpr ⟨rfl, hcolon⟩]
    dsimp only
    rw [if_pos h]

/-- Every text is of one of these kinds. -/
theorem ends_or_opens (text : ByteString) :
    Ends text ∨ (∃ gap key, quote ∉ gap ∧ quote ∉ key ∧ text = gap ++ quote :: key) ∨
      ∃ key number, Opens text key number := by
  by_cases hstart : quote ∈ text
  · obtain ⟨gap, afterStart, rfl, hgap⟩ := List.eq_append_cons_of_mem hstart
    by_cases hend : quote ∈ afterStart
    · obtain ⟨key, afterKey, rfl, hkey⟩ := List.eq_append_cons_of_mem hend
      by_cases hcolon : colon ∈ afterKey
      · obtain ⟨skipped, afterColon, rfl, hskipped⟩ := List.eq_append_cons_of_mem hcolon
        by_cases hbrace : closeBrace ∈ skipped
        · exact .inl (.closed hgap hkey hskipped hbrace)
        · refine .inr (.inr ⟨key, afterColon.dropWhile isSpace, ?_⟩)
          have hspace : ∀ b ∈ afterColon.takeWhile isSpace, isSpace b = true :=
            fun _ => List.mem_takeWhile_imp
          have hopens := Opens.mk hgap hkey hskipped hbrace hspace
            (stopsAt_dropWhile isSpace afterColon)
          rwa [List.takeWhile_append_dropWhile] at hopens
      · exact .inl (.noColon hgap hkey hcolon)
    · exact .inr (.inl ⟨gap, afterStart, hgap, hend, rfl⟩)
  · exact .inl (.noQuote hstart)

theorem parseNumber_digits {key digits rest : ByteString} (hne : digits ≠ [])
    (hdigits : ∀ b ∈ digits, isDigit b = true) (hstop : StopsAt isDigit rest) :
    parseNumber key (digits ++ rest) =
      match stoull digits with
      | .error _ => .fails (lit "Checkpoint file has invalid sequence number for shard: " ++ key)
      | .ok seq => .reads key seq rest := by
  unfold parseNumber
  rw [hstop.takeWhile hdigits, hstop.dropWhile hdigits]
  dsimp only
  rw [if_neg hne]

theorem parseNumber_reads {key number key' rest : ByteString} {seq : UInt64}
    (h : parseNumber key number = .reads key' seq rest) : key' = key ∧ StopsAt isDigit rest ∧
      ∃ digits, digits ≠ [] ∧ (∀ b ∈ digits, isDigit b = true) ∧ stoull digits = .ok seq ∧
        number = digits ++ rest := by
  unfold parseNumber at h
  dsimp only at h
  split at h
  next => cases h
  next hne =>
    cases hvalue : stoull (number.takeWhile isDigit) with
    | error e =>
      rw [hvalue] at h
      cases h
    | ok n =>
      rw [hvalue] at h
      cases h
      exact ⟨rfl, stopsAt_dropWhile _ _, _, hne, fun _ => List.mem_takeWhile_imp, hvalue,
        List.takeWhile_append_dropWhile.symm⟩

theorem parseEntry_reads {text key rest : ByteString} {seq : UInt64}
    (h : parseEntry text = .reads key seq rest) :
    ∃ number, Opens text key number ∧ parseNumber key number = .reads key seq rest := by
  rcases ends_or_opens text with hends | ⟨gap, word, hgap, hword, rfl⟩ | ⟨word, number, hopens⟩
  · rw [hends.parseEntry_eq] at h
    cases h
  · rw [parseEntry_of_unterminated hgap hword] at h
    cases h
  · rw [hopens.parseEntry_eq] at h
    obtain ⟨rfl, -⟩ := parseNumber_reads h
    exact ⟨number, hopens, h⟩

theorem parseEntry_shorter {text key rest : ByteString} {seq : UInt64}
    (h : parseEntry text = .reads key seq rest) : rest.length < text.length := by
  obtain ⟨number, hopens, hnumber⟩ := parseEntry_reads h
  obtain ⟨-, -, digits, -, -, -, rfl⟩ := parseNumber_reads hnumber
  cases hopens
  simp only [List.length_append, List.length_cons]
  omega

theorem parseLoop_enough {rounds : ℕ} {text : ByteString} (h : text.length ≤ rounds)
    (state : ShardState) : parseLoop rounds text state = parseBody text state := by
  have hsame : ∀ {m n : ℕ} {text : ByteString}, text.length ≤ m → text.length ≤ n →
      ∀ state, parseLoop m text state = parseLoop n text state := by
    intro m
    induction m with
    | zero =>
      intro n text hm hn state
      obtain rfl := List.eq_nil_of_length_eq_zero (Nat.le_zero.mp hm)
      cases n <;> rfl
    | succ m ih =>
      intro n text hm hn state
      cases n with
      | zero =>
        obtain rfl := List.eq_nil_of_length_eq_zero (Nat.le_zero.mp hn)
        rfl
      | succ n =>
        unfold parseLoop
        cases hround : parseEntry text with
        | leaves => rfl
        | fails error => rfl
        | reads key seq rest =>
          have hrest := parseEntry_shorter hround
          exact ih (by omega) (by omega) _
  exact hsame h le_rfl state

theorem parseBody_eq (text : ByteString) (state : ShardState) :
    parseBody text state =
      match parseEntry text with
      | .leaves => .ok state
      | .fails error => .error error
      | .reads key seq rest => parseBody rest (state.insert key seq) := by
  rw [← parseLoop_enough (Nat.le_succ text.length), parseLoop]
  cases hround : parseEntry text with
  | leaves => rfl
  | fails error => rfl
  | reads key seq rest => exact parseLoop_enough (parseEntry_shorter hround).le _

/-! ### The entries that `save` writes -/

/-- What stands before the key of an entry. -/
def entryGap (first : Bool) : ByteString := (if first then [] else lit ",") ++ lit "\n    "

theorem quote_entryGap (first : Bool) : quote ∉ entryGap first := by
  cases first <;> decide

theorem renderEntries_cons (first : Bool) (shardId : ByteString) (seq : UInt64)
    (entries : List (ByteString × UInt64)) :
    renderEntries first ((shardId, seq) :: entries) = entryGap first ++ quote :: (shardId ++
      quote :: colon :: 0x20 :: (decimal seq.toNat ++ renderEntries false entries)) := by
  have hstart : lit "\n    \"" = lit "\n    " ++ [quote] := rfl
  have hend : lit "\": " = [quote, colon, 0x20] := rfl
  rw [renderEntries, hstart, hend]
  simp [entryGap]

theorem stopsAt_renderEntries {first : Bool} {entries : List (ByteString × UInt64)}
    {tail : ByteString} (h : StopsAt isDigit tail) :
    StopsAt isDigit (renderEntries first entries ++ tail) := by
  cases entries with
  | nil => exact h
  | cons e entries =>
    obtain ⟨shardId, seq⟩ := e
    rw [renderEntries_cons]
    cases first <;> exact fun b hb => by cases hb; decide

theorem isDigit_decimal (n : ℕ) : ∀ b ∈ decimal n, isDigit b = true :=
  fun b hb => decide_eq_true (decimal_digit n b hb)

theorem stopsAt_space_of_digits {digits : ByteString} (hne : digits ≠ [])
    (hdigits : ∀ b ∈ digits, isDigit b = true) (rest : ByteString) :
    StopsAt isSpace (digits ++ rest) := by
  cases digits with
  | nil => exact absurd rfl hne
  | cons d digits =>
    intro b hb
    cases hb
    have hdigit : 0x30 ≤ d.val ∧ d.val ≤ 0x39 := by
      simpa [isDigit] using hdigits d List.mem_cons_self
    unfold isSpace
    rw [decide_eq_false_iff_not]
    rintro (rfl | rfl | rfl | rfl) <;> simp at hdigit

theorem opens_entry {gap key number : ByteString} (hgap : quote ∉ gap) (hkey : quote ∉ key)
    (hnumber : StopsAt isSpace number) :
    Opens (gap ++ quote :: (key ++ quote :: colon :: 0x20 :: number)) key number := by
  have hspace : ∀ b ∈ ([0x20] : ByteString), isSpace b = true := by simp [isSpace]
  exact Opens.mk hgap hkey List.not_mem_nil List.not_mem_nil hspace hnumber

theorem parseEntry_entry {gap key rest : ByteString} {seq : UInt64} (hgap : quote ∉ gap)
    (hkey : quote ∉ key) (hstop : StopsAt isDigit rest) :
    parseEntry (gap ++ quote :: (key ++ quote :: colon :: 0x20 :: (decimal seq.toNat ++ rest))) =
      .reads key seq rest := by
  have hne := decimal_ne_nil seq.toNat
  have hdigits := isDigit_decimal seq.toNat
  rw [(opens_entry hgap hkey (stopsAt_space_of_digits hne hdigits rest)).parseEntry_eq,
    parseNumber_digits hne hdigits hstop, stoull_decimal]

theorem parseBody_entries {done : List (ByteString × UInt64)} (hids : ∀ e ∈ done, quote ∉ e.1)
    {first : Bool} {tail : ByteString} (hstop : StopsAt isDigit tail) (state : ShardState) :
    parseBody (renderEntries first done ++ tail) state =
      parseBody tail (done.foldl (fun state e => state.insert e.1 e.2) state) := by
  induction done generalizing first state with
  | nil => rfl
  | cons e done ih =>
    obtain ⟨shardId, seq⟩ := e
    obtain ⟨hid, hrest⟩ := List.forall_mem_cons.mp hids
    have hround : parseEntry (renderEntries first ((shardId, seq) :: done) ++ tail) =
        .reads shardId seq (renderEntries false done ++ tail) := by
      rw [renderEntries_cons, ← parseEntry_entry (quote_entryGap first) hid
        (stopsAt_renderEntries hstop)]
      simp only [List.append_assoc, List.cons_append]
    rw [parseBody_eq, hround]
    exact ih hrest _

/-! ### The header -/

theorem find_shards (body : ByteString) :
    afterFirst (lit "\"shards\"") (header ++ body) = some (lit ": \x7b" ++ body) := by
  have hsplit : header ++ body = lit "\x7b\n  " ++ quote :: (lit "version" ++ quote ::
      (lit ": 1,\n  " ++ (lit "\"shards\"" ++ (lit ": \x7b" ++ body)))) := by
    simp [header, lit, quote]
  have hkey : lit "\"shards\"" = quote :: (lit "shards" ++ quote :: []) := rfl
  have hcolon : lit "shards" = 0x73 :: lit "hards" := rfl
  have hversion : lit ": 1,\n  " = 0x3A :: lit " 1,\n  " := rfl
  have hrest : findAfter (quote :: (lit "shards" ++ quote :: [])) (lit ": 1,\n  " ++
      (quote :: (lit "shards" ++ quote :: []) ++ (lit ": \x7b" ++ body))) =
        some (lit ": \x7b" ++ body) :=
    (findAfter_skip (by decide) _).trans findAfter_here
  rw [hcolon, hversion] at hrest
  rw [afterFirst_eq, hsplit, hkey, findAfter_skip (by decide),
    findAfter_word (by decide) (by decide) (.inl (by decide)), hcolon, hversion]
  exact (findAfter_closing (by decide)).trans hrest

theorem parse_header (body : ByteString) : parse (header ++ body) = parseBody body ∅ := by
  have hbrace : find openBrace (lit ": \x7b" ++ body) = some (lit ": ", body) :=
    find_iff.mpr ⟨rfl, by decide⟩
  unfold parse
  rw [find_shards]
  dsimp only
  rw [hbrace]

/-! ### The round trip -/

theorem parse_render {tracker : SequenceNumberTracker}
    (order : UnorderedMap.IterationOrder tracker.getState)
    (hids : ∀ shardId ∈ tracker.getState, quote ∉ shardId) :
    parse (render order.val) =
      .ok (order.val.foldl (fun state e => state.insert e.1 e.2) ∅) := by
  have horder : ∀ e ∈ order.val, quote ∉ e.1 := fun e he => hids e.1 (order.mem_of_mem he)
  have hstop : StopsAt isDigit (lit "\n  \x7d\n\x7d\n") := by
    intro b hb
    cases hb
    decide
  have hends : Ends (lit "\n  \x7d\n\x7d\n") := .noQuote (by decide)
  rw [render, List.append_assoc, parse_header, parseBody_entries horder hstop, parseBody_eq,
    hends.parseEntry_eq]

theorem checkpoint_round_trip (path : ByteString) (tracker : SequenceNumberTracker)
    (order : UnorderedMap.IterationOrder tracker.getState)
    (hids : ∀ shardId ∈ tracker.getState, quote ∉ shardId) (files : CheckpointFiles)
    (target : SequenceNumberTracker) :
    (save path tracker order .renamed files).1 = ⟨true, []⟩ ∧
      ∃ restored, load path true (save path tracker order .renamed files).2 target =
          (⟨true, []⟩, restored) ∧
        ∀ shardId, restored.getState.lookup shardId = tracker.getState.lookup shardId := by
  refine ⟨rfl, ⟨order.val.foldl (fun state e => state.insert e.1 e.2) ∅⟩, ?_, fun shardId => ?_⟩
  · unfold load save
    dsimp only
    rw [if_neg (by decide), parse_render order hids]
    rfl
  · exact order.lookup_refilled shardId

def sampleTracker : SequenceNumberTracker :=
  (SequenceNumberTracker.new.markApplied (lit "s1") 42).markApplied
    (lit "a\x7d:\n shards 7") 18446744073709551615

/-- A name with a brace, a colon, a line break and digits. -/
theorem sampleTracker_reads_back :
    ∃ restored, load (lit "/c.json") true
        ⟨some (render [(lit "s1", 42), (lit "a\x7d:\n shards 7", 18446744073709551615)]), none⟩
        SequenceNumberTracker.new = (⟨true, []⟩, restored) ∧
      ∀ shardId, restored.getState.lookup shardId = sampleTracker.getState.lookup shardId :=
  (checkpoint_round_trip (lit "/c.json") sampleTracker
    ⟨[(lit "s1", 42), (lit "a\x7d:\n shards 7", 18446744073709551615)], by decide +kernel⟩
    (by decide +kernel) ⟨none, none⟩ SequenceNumberTracker.new).2

end ReplicationCheckpoint
end OpenArangoDBCore.Replication
