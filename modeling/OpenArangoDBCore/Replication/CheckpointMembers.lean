import OpenArangoDBCore.Replication.ReplicationCheckpoint

/-!
# The members of a checkpoint file

An object with integer members around its shards, as JSON writes it: any white
space between the tokens, any order, and the text between two quotes for a key.
A closing brace counts for `load` only if it stands between a key and its colon.
-/

namespace OpenArangoDBCore.Replication
namespace ReplicationCheckpoint
open Delimited
open RocksDBEngine.BackupManifest (afterFirst afterFirst_eq quote isDigit stoull stoull_eq)

def comma : Byte := 0x2C
def minus : Byte := 0x2D

/-- White space between tokens. -/
abbrev Gap := {space : ByteString // ∀ b ∈ space, isSpace b = true}

def noGap : Gap := ⟨[], by simp⟩
def blank : Gap := ⟨[0x20], by simp [isSpace]⟩

theorem Gap.not_mem (g : Gap) {b : Byte} (h : isSpace b = false) : b ∉ g.val := by
  intro hb
  rw [g.property b hb] at h
  cases h

theorem Gap.stopsAt (g : Gap) {p : Byte → Bool} (hp : ∀ b, isSpace b = true → p b = false)
    {rest : ByteString} (h : StopsAt p rest) : StopsAt p (g.val ++ rest) := by
  obtain ⟨space, hspace⟩ := g
  cases space with
  | nil => exact h
  | cons b space =>
    intro c hc
    obtain rfl := Option.some.inj hc
    exact hp b (hspace b List.mem_cons_self)

theorem isDigit_of_isSpace (b : Byte) (h : isSpace b = true) : isDigit b = false := by
  obtain rfl | rfl | rfl | rfl := of_decide_eq_true h <;> rfl

structure IntegerLiteral where
  negative : Bool
  magnitude : ℕ

namespace IntegerLiteral
variable (n : IntegerLiteral)

def text : ByteString := (if n.negative then [minus] else []) ++ decimal n.magnitude
def value : ℤ := if n.negative then -n.magnitude else n.magnitude

/-- What can be a sequence number. -/
def IsSequence : Prop := n.negative = false ∧ n.magnitude < 2 ^ 64

end IntegerLiteral

structure Member where
  key : ByteString
  quoteFree : quote ∉ key
  number : IntegerLiteral
  beforeKey : Gap
  beforeColon : Gap
  afterColon : Gap
  afterNumber : Gap

def Member.text (m : Member) : ByteString :=
  m.beforeKey.val ++ quote :: (m.key ++ quote :: (m.beforeColon.val ++ colon ::
    (m.afterColon.val ++ (m.number.text ++ m.afterNumber.val))))

def separator (first : Bool) : ByteString := if first then [] else [comma]

def joined : Bool → List Member → ByteString
  | _, [] => []
  | first, m :: members => separator first ++ (m.text ++ joined false members)

/-- What an object has under a key: of two members the later. -/
def valueOf (members : List Member) (key : ByteString) : Option ℤ :=
  (members.filterMap fun m => if m.key = key then some m.number.value else none).getLast?

structure CheckpointText where
  leading : Gap
  before : List Member
  beforeShards : Gap
  beforeColon : Gap
  afterColon : Gap
  shards : List Member
  shardsEnd : Gap
  afterShards : Gap
  behind : List Member
  trailing : Gap
  /-- There is one member of this name. -/
  named : ∀ m ∈ before, m.key ≠ lit "shards"

namespace CheckpointText
variable (c : CheckpointText)

def body : ByteString :=
  joined true c.shards ++ (c.shardsEnd.val ++ closeBrace :: (c.afterShards.val ++
    (joined false c.behind ++ closeBrace :: c.trailing.val)))

def text : ByteString :=
  c.leading.val ++ openBrace :: (c.before.flatMap (fun m => m.text ++ [comma]) ++
    (c.beforeShards.val ++ quote :: (lit "shards" ++ quote :: (c.beforeColon.val ++ colon ::
      (c.afterColon.val ++ openBrace :: c.body)))))

end CheckpointText

/-! ### The shards object is found -/

theorem quote_decimal (n : ℕ) : quote ∉ decimal n := by
  intro h
  have hdigit := isDigit_decimal n quote h
  cases hdigit

theorem IntegerLiteral.quote_text (n : IntegerLiteral) : quote ∉ n.text := by
  obtain ⟨negative, magnitude⟩ := n
  have hdigits := quote_decimal magnitude
  cases negative with
  | false => exact hdigits
  | true =>
    intro h
    rcases List.mem_cons.mp h with h | h
    · cases h
    · exact hdigits h

theorem find_passes_member {m : Member} (h : m.key ≠ lit "shards") (rest : ByteString) :
    findAfter (quote :: (lit "shards" ++ quote :: [])) (m.text ++ rest) =
      findAfter (quote :: (lit "shards" ++ quote :: [])) rest := by
  have hs : lit "shards" = 0x73 :: lit "hards" := rfl
  have hbehind : StopsAt (· = 0x73) (m.beforeColon.val ++ colon ::
      (m.afterColon.val ++ (m.number.text ++ (m.afterNumber.val ++ rest)))) := by
    refine m.beforeColon.stopsAt (fun b hb => decide_eq_false ?_) fun b hb => ?_
    · rintro rfl
      cases hb
    · cases hb
      rfl
  have hgap : ∀ g : Gap, quote ∉ g.val := fun g => g.not_mem (by decide)
  have hquote : quote ∉ m.beforeColon.val ++ colon ::
      (m.afterColon.val ++ (m.number.text ++ m.afterNumber.val)) := by
    simp only [List.mem_append, List.mem_cons, not_or]
    exact ⟨hgap _, by decide, hgap _, m.number.quote_text, hgap _⟩
  have hskip := @findAfter_skip _ quote _ (0x73 :: (lit "hards" ++ quote :: [])) _ hquote rest
  simp only [Member.text, List.append_assoc, List.cons_append] at hskip ⊢
  rw [findAfter_skip (hgap m.beforeKey), findAfter_word (by decide) m.quoteFree (.inl (Ne.symm h)),
    hs, List.cons_append, findAfter_behind hbehind, hskip]

theorem find_passes (members : List Member) (h : ∀ m ∈ members, m.key ≠ lit "shards")
    (rest : ByteString) :
    findAfter (quote :: (lit "shards" ++ quote :: []))
        (members.flatMap (fun m => m.text ++ [comma]) ++ rest) =
      findAfter (quote :: (lit "shards" ++ quote :: [])) rest := by
  induction members with
  | nil => rfl
  | cons m members ih =>
    obtain ⟨hm, hrest⟩ := List.forall_mem_cons.mp h
    have hcomma : quote ∉ [comma] := by decide
    rw [List.flatMap_cons, List.append_assoc, List.append_assoc, find_passes_member hm,
      findAfter_skip hcomma, ih hrest]

theorem parse_text (c : CheckpointText) : parse c.text = parseBody c.body ∅ := by
  have hgap := fun (g : Gap) (b : Byte) (hb : isSpace b = false) => g.not_mem hb
  have hopen : quote ∉ c.leading.val ++ [openBrace] := by
    rw [List.mem_append, not_or]
    exact ⟨hgap _ _ (by decide), by decide⟩
  have hshards : afterFirst (lit "\"shards\"") c.text =
      some (c.beforeColon.val ++ colon :: (c.afterColon.val ++ openBrace :: c.body)) := by
    have hkey : lit "\"shards\"" = quote :: (lit "shards" ++ quote :: []) := rfl
    have hstart : c.text = c.leading.val ++ [openBrace] ++
        (c.before.flatMap (fun m => m.text ++ [comma]) ++ (c.beforeShards.val ++
          (quote :: (lit "shards" ++ quote :: []) ++ (c.beforeColon.val ++ colon ::
            (c.afterColon.val ++ openBrace :: c.body))))) := by
      simp [CheckpointText.text]
    rw [afterFirst_eq, hkey, hstart, findAfter_skip hopen, find_passes c.before c.named,
      findAfter_skip (hgap _ _ (by decide)), findAfter_here]
  have hbrace : find openBrace (c.beforeColon.val ++ colon :: (c.afterColon.val ++
      openBrace :: c.body)) = some (c.beforeColon.val ++ colon :: c.afterColon.val, c.body) := by
    refine find_iff.mpr ⟨by simp, ?_⟩
    simp only [List.mem_append, List.mem_cons, not_or]
    exact ⟨hgap _ _ (by decide), by decide, hgap _ _ (by decide)⟩
  unfold parse
  rw [hshards]
  dsimp only
  rw [hbrace]

/-! ### The loop over the members -/

/-- What stands before the next quote makes no difference. -/
theorem parseBody_skip {gap : ByteString} (h : quote ∉ gap) (text : ByteString)
    (state : ShardState) : parseBody (gap ++ text) state = parseBody text state := by
  have hround : parseEntry (gap ++ text) = parseEntry text := by
    unfold parseEntry
    cases hfind : find quote text with
    | none =>
      have hno : quote ∉ gap ++ text := by
        rw [List.mem_append, not_or]
        exact ⟨h, find_none_iff.mp hfind⟩
      rw [find_none_iff.mpr hno]
    | some parts =>
      obtain ⟨before, afterStart⟩ := parts
      obtain ⟨rfl, hbefore⟩ := find_iff.mp hfind
      have hno : quote ∉ gap ++ before := by
        rw [List.mem_append, not_or]
        exact ⟨h, hbefore⟩
      rw [find_iff.mpr ⟨(List.append_assoc gap before _).symm, hno⟩]
  rw [parseBody_eq, hround, ← parseBody_eq]

/-- What a round does with a member. -/
def Member.read (m : Member) (state : ShardState) : Except ByteString ShardState :=
  if m.number.negative then
    .error (lit "Checkpoint file has non-numeric sequence for shard: " ++ m.key)
  else if m.number.magnitude < 2 ^ 64 then
    .ok (state.insert m.key (UInt64.ofNat m.number.magnitude))
  else .error (lit "Checkpoint file has invalid sequence number for shard: " ++ m.key)

def readAll : List Member → ShardState → Except ByteString ShardState
  | [], state => .ok state
  | m :: members, state =>
    match m.read state with
    | .error error => .error error
    | .ok state => readAll members state

theorem stopsAt_number (n : IntegerLiteral) (rest : ByteString) :
    StopsAt isSpace (n.text ++ rest) := by
  obtain ⟨negative, magnitude⟩ := n
  cases negative with
  | false => exact stopsAt_space_of_digits (decimal_ne_nil _) (isDigit_decimal _) rest
  | true =>
    intro b hb
    cases hb
    rfl

theorem parseBody_member (m : Member) {rest : ByteString}
    (hrest : StopsAt isDigit (m.afterNumber.val ++ rest)) (state : ShardState) :
    parseBody (m.text ++ rest) state =
      match m.read state with
      | .error error => .error error
      | .ok state => parseBody (m.afterNumber.val ++ rest) state := by
  have hopens : Opens (m.text ++ rest) m.key
      (m.number.text ++ (m.afterNumber.val ++ rest)) := by
    have h := Opens.mk (m.beforeKey.not_mem (by decide)) m.quoteFree
      (m.beforeColon.not_mem (by decide)) (m.beforeColon.not_mem (by decide))
      m.afterColon.property (stopsAt_number m.number (m.afterNumber.val ++ rest))
    simpa [Member.text] using h
  rw [parseBody_eq, hopens.parseEntry_eq]
  unfold Member.read IntegerLiteral.text
  cases m.number.negative with
  | true => rfl
  | false =>
    have hdigits := isDigit_decimal m.number.magnitude
    rw [if_neg Bool.false_ne_true, if_neg Bool.false_ne_true, List.nil_append,
      parseNumber_digits (decimal_ne_nil _) hdigits hrest, stoull_eq, digitsValue_decimal]
    by_cases hsmall : m.number.magnitude < 2 ^ 64
    · rw [if_pos hsmall, if_pos hsmall]
    · rw [if_neg hsmall, if_neg hsmall]

theorem parseBody_joined (members : List Member) (first : Bool) {rest : ByteString}
    (hrest : StopsAt isDigit rest) (state : ShardState) :
    parseBody (joined first members ++ rest) state =
      match readAll members state with
      | .error error => .error error
      | .ok state => parseBody rest state := by
  induction members generalizing first state with
  | nil => rfl
  | cons m members ih =>
    have hseparator : quote ∉ separator first := by cases first <;> decide
    have hmore : StopsAt isDigit (joined false members ++ rest) := by
      cases members with
      | nil => exact hrest
      | cons next members =>
        intro b hb
        cases hb
        rfl
    rw [joined, List.append_assoc, List.append_assoc, parseBody_skip hseparator,
      parseBody_member m (m.afterNumber.stopsAt isDigit_of_isSpace hmore), readAll]
    cases m.read state with
    | error error => rfl
    | ok state =>
      dsimp only
      rw [parseBody_skip (m.afterNumber.not_mem (by decide)), ih]

theorem readAll_append (members more : List Member) (state : ShardState) :
    readAll (members ++ more) state =
      match readAll members state with
      | .error error => .error error
      | .ok state => readAll more state := by
  induction members generalizing state with
  | nil => rfl
  | cons m members ih =>
    rw [List.cons_append, readAll, readAll]
    cases m.read state with
    | error error => rfl
    | ok state => exact ih state

/-- The closing brace of the shards is passed over. -/
theorem parseBody_body (c : CheckpointText) (state : ShardState) :
    parseBody c.body state = readAll (c.shards ++ c.behind) state := by
  have hbrace : StopsAt isDigit (closeBrace :: (c.afterShards.val ++
      (joined false c.behind ++ closeBrace :: c.trailing.val))) := by
    intro b hb
    cases hb
    rfl
  have hend : StopsAt isDigit (closeBrace :: c.trailing.val) := by
    intro b hb
    cases hb
    rfl
  have hgap : quote ∉ c.shardsEnd.val ++ closeBrace :: c.afterShards.val := by
    rw [List.mem_append, List.mem_cons, not_or, not_or]
    exact ⟨c.shardsEnd.not_mem (by decide), by decide, c.afterShards.not_mem (by decide)⟩
  have hlast : Ends (closeBrace :: c.trailing.val) := by
    refine .noQuote ?_
    rw [List.mem_cons, not_or]
    exact ⟨by decide, c.trailing.not_mem (by decide)⟩
  rw [readAll_append, CheckpointText.body,
    parseBody_joined c.shards true (c.shardsEnd.stopsAt isDigit_of_isSpace hbrace)]
  cases readAll c.shards state with
  | error error => rfl
  | ok state =>
    have hskip := parseBody_skip hgap (joined false c.behind ++ closeBrace :: c.trailing.val) state
    rw [List.append_assoc, List.cons_append] at hskip
    dsimp only
    rw [hskip, parseBody_joined c.behind false hend]
    cases readAll c.behind state with
    | error error => rfl
    | ok state =>
      dsimp only
      rw [parseBody_eq, hlast.parseEntry_eq]

/-! ### What is restored -/

theorem valueOf_append (members more : List Member) (key : ByteString) :
    valueOf (members ++ more) key = (valueOf more key).or (valueOf members key) := by
  unfold valueOf
  rw [List.filterMap_append, List.getLast?_append]

theorem valueOf_cons (m : Member) (members : List Member) (key : ByteString) :
    valueOf (m :: members) key =
      (valueOf members key).or (if m.key = key then some m.number.value else none) := by
  have hone : valueOf [m] key = if m.key = key then some m.number.value else none := by
    by_cases hkey : m.key = key <;> simp [valueOf, hkey]
  rw [← hone]
  exact valueOf_append [m] members key

theorem valueOf_none_iff {members : List Member} {key : ByteString} :
    valueOf members key = none ↔ ∀ m ∈ members, m.key ≠ key := by
  unfold valueOf
  rw [List.getLast?_eq_none_iff, List.filterMap_eq_nil_iff]
  refine forall₂_congr fun m _ => ?_
  by_cases hkey : m.key = key <;> simp [hkey]

def sequenceOf (state : ShardState) (key : ByteString) : Option ℤ :=
  (state.lookup key).map fun seq => (seq.toNat : ℤ)

theorem Member.read_ok_iff {m : Member} {state next : ShardState} :
    m.read state = .ok next ↔ m.number.IsSequence ∧
      next = state.insert m.key (UInt64.ofNat m.number.magnitude) := by
  unfold Member.read IntegerLiteral.IsSequence
  cases m.number.negative with
  | true => exact iff_of_false nofun nofun
  | false =>
    rw [if_neg Bool.false_ne_true]
    by_cases hsmall : m.number.magnitude < 2 ^ 64
    · rw [if_pos hsmall]
      exact ⟨fun h => ⟨⟨rfl, hsmall⟩, (Except.ok.inj h).symm⟩, fun h => congrArg _ h.2.symm⟩
    · rw [if_neg hsmall]
      exact iff_of_false nofun fun h => hsmall h.1.2

theorem sequenceOf_insert {n : IntegerLiteral} (h : n.IsSequence) (state : ShardState)
    (key other : ByteString) :
    sequenceOf (state.insert key (UInt64.ofNat n.magnitude)) other =
      (if key = other then some n.value else none).or (sequenceOf state other) := by
  obtain ⟨hsign, hsmall⟩ := h
  unfold sequenceOf
  rw [UnorderedMap.lookup_insert_of]
  by_cases hkey : key = other
  · subst hkey
    rw [if_pos rfl, if_pos rfl, Option.map_some, UInt64.toNat_ofNat_of_lt' hsmall,
      IntegerLiteral.value, hsign]
    rfl
  · rw [if_neg fun h => hkey h.symm, if_neg hkey]
    rfl

theorem readAll_ok {members : List Member} {state restored : ShardState}
    (h : readAll members state = .ok restored) :
    (∀ m ∈ members, m.number.IsSequence) ∧
      ∀ key, sequenceOf restored key = (valueOf members key).or (sequenceOf state key) := by
  induction members generalizing state with
  | nil =>
    cases h
    exact ⟨nofun, fun _ => rfl⟩
  | cons m members ih =>
    rw [readAll] at h
    cases hread : m.read state with
    | error error =>
      rw [hread] at h
      cases h
    | ok next =>
      rw [hread] at h
      obtain ⟨hm, rfl⟩ := Member.read_ok_iff.mp hread
      obtain ⟨hmembers, hvalues⟩ := ih h
      refine ⟨List.forall_mem_cons.mpr ⟨hm, hmembers⟩, fun key => ?_⟩
      rw [hvalues key, valueOf_cons, sequenceOf_insert hm, Option.or_assoc]

theorem readAll_of_sequences {members : List Member}
    (h : ∀ m ∈ members, m.number.IsSequence) (state : ShardState) :
    ∃ restored, readAll members state = .ok restored := by
  induction members generalizing state with
  | nil => exact ⟨state, rfl⟩
  | cons m members ih =>
    obtain ⟨hm, hmembers⟩ := List.forall_mem_cons.mp h
    rw [readAll, Member.read_ok_iff.mpr ⟨hm, rfl⟩]
    exact ih hmembers _

/-- `load` restores the entries of the shards object and nothing else. -/
def Restores (path : ByteString) (tmpFile : Option ByteString) (target : SequenceNumberTracker)
    (c : CheckpointText) : Prop :=
  ∃ restored, load path true ⟨some c.text, tmpFile⟩ target = (⟨true, []⟩, restored) ∧
    ∀ shardId, sequenceOf restored.getState shardId = valueOf c.shards shardId

/-- Nothing that stands behind the shards can be told from a shard. -/
structure CheckpointText.Harmless (c : CheckpointText) : Prop where
  sequences : ∀ m ∈ c.shards ++ c.behind, m.number.IsSequence
  behind : ∀ m ∈ c.behind, valueOf c.behind m.key = valueOf c.shards m.key

theorem load_text (path : ByteString) (tmpFile : Option ByteString)
    (target : SequenceNumberTracker) (c : CheckpointText) :
    load path true ⟨some c.text, tmpFile⟩ target =
      match readAll (c.shards ++ c.behind) ∅ with
      | .error error => (⟨false, error⟩, target)
      | .ok state => (⟨true, []⟩, target.restoreState state) := by
  have hparse := (parse_text c).trans (parseBody_body c ∅)
  cases hread : readAll (c.shards ++ c.behind) ∅ with
  | error error => simp [load, hparse, hread]
  | ok state => simp [load, hparse, hread]

theorem restores_iff_readAll (path : ByteString) (tmpFile : Option ByteString)
    (target : SequenceNumberTracker) (c : CheckpointText) :
    Restores path tmpFile target c ↔ ∃ state, readAll (c.shards ++ c.behind) ∅ = .ok state ∧
      ∀ shardId, sequenceOf state shardId = valueOf c.shards shardId := by
  unfold Restores
  rw [load_text]
  cases readAll (c.shards ++ c.behind) ∅ with
  | error error =>
    constructor
    · rintro ⟨_, h, _⟩
      cases h
    · rintro ⟨_, h, _⟩
      cases h
  | ok state =>
    constructor
    · rintro ⟨_, h, hvalues⟩
      cases h
      exact ⟨state, rfl, hvalues⟩
    · rintro ⟨_, h, hvalues⟩
      cases h
      exact ⟨⟨state⟩, rfl, hvalues⟩

theorem restores_iff_harmless (path : ByteString) (tmpFile : Option ByteString)
    (target : SequenceNumberTracker) (c : CheckpointText) :
    Restores path tmpFile target c ↔ c.Harmless := by
  have hempty : ∀ key, sequenceOf ∅ key = none := fun key => by
    rw [sequenceOf, AList.lookup_empty, Option.map_none]
  rw [restores_iff_readAll]
  constructor
  · rintro ⟨state, hread, hvalues⟩
    obtain ⟨hsequences, hstate⟩ := readAll_ok hread
    refine ⟨hsequences, fun m hm => ?_⟩
    have hboth := hstate m.key
    rw [hvalues, hempty, Option.or_none, valueOf_append] at hboth
    cases hbehind : valueOf c.behind m.key with
    | none => exact absurd rfl (valueOf_none_iff.mp hbehind m hm)
    | some value =>
      rw [hbehind] at hboth
      exact hboth.symm
  · rintro ⟨hsequences, hbehind⟩
    obtain ⟨state, hread⟩ := readAll_of_sequences hsequences ∅
    refine ⟨state, hread, fun shardId => ?_⟩
    rw [(readAll_ok hread).2 shardId, hempty, Option.or_none, valueOf_append]
    by_cases hid : ∃ m ∈ c.behind, m.key = shardId
    · obtain ⟨m, hm, rfl⟩ := hid
      rw [hbehind m hm, Option.or_self]
    · rw [valueOf_none_iff.mpr fun m hm hkey => hid ⟨m, hm, hkey⟩, Option.none_or]

/-- `save` writes the version before the shards. -/
def versionBehind : CheckpointText where
  leading := noGap
  before := []
  beforeShards := noGap
  beforeColon := noGap
  afterColon := blank
  shards := []
  shardsEnd := noGap
  afterShards := noGap
  behind := [⟨lit "version", by decide, ⟨false, 1⟩, blank, noGap, blank, noGap⟩]
  trailing := noGap
  named := by simp

theorem versionBehind_imported :
    versionBehind.text = lit "\x7b\"shards\": \x7b\x7d, \"version\": 1\x7d" ∧
      ∃ restored, load (lit "/c.json") true ⟨some versionBehind.text, none⟩
          SequenceNumberTracker.new = (⟨true, []⟩, restored) ∧
        sequenceOf restored.getState (lit "version") = some 1 ∧
        ¬ Restores (lit "/c.json") none SequenceNumberTracker.new versionBehind := by
  have htext : versionBehind.text = lit "\x7b\"shards\": \x7b\x7d, \"version\": 1\x7d" := by
    decide +kernel
  have hload : load (lit "/c.json") true ⟨some versionBehind.text, none⟩
      SequenceNumberTracker.new =
        (⟨true, []⟩, ⟨(∅ : ShardState).insert (lit "version") 1⟩) :=
    load_text _ _ _ versionBehind
  refine ⟨htext, _, hload, by decide +kernel, ?_⟩
  rintro ⟨restored, hrestored, hvalues⟩
  cases hload.symm.trans hrestored
  exact absurd (hvalues (lit "version")) (by decide +kernel)

end ReplicationCheckpoint
end OpenArangoDBCore.Replication
