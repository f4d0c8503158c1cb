import OpenArangoDBCore.RocksDBEngine.BackupManifest
import OpenArangoDBCore.Lib.Delimited

/-!
# A manifest that is written and read again

Nothing is escaped, and every field is looked for in the whole text. As long
as no string has a quote in it the names of the fields are the only quoted
words with a colon behind them, so every field is found where it was written.
-/

namespace OpenArangoDBCore.RocksDBEngine.BackupManifest
open Delimited

/-! ### Lines -/

def colon : Byte := 0x3A
def bracket : Byte := 0x5D

/-- How the extraction functions look for a field. -/
def fieldKey (field sep : ByteString) : ByteString := quoted field ++ colon :: sep

def line (name value : ByteString) : ByteString :=
  lit "  " ++ quoted name ++ lit ": " ++ value ++ lit ",\n"

/-- No quotes, or one quoted string. -/
def PlainValue (value : ByteString) : Prop :=
  quote ∉ value ∨ ∃ s, quote ∉ s ∧ value = quoted s

structure FieldName (field : ByteString) : Prop where
  nonempty : field ≠ []
  no_quote : quote ∉ field
  no_colon : colon ∉ field
  no_comma : (0x2C : Byte) ∉ field

/-- The search for the field goes past the text. -/
def Passes (text field : ByteString) : Prop :=
  ∀ sep rest, findAfter (fieldKey field sep) (text ++ rest) = findAfter (fieldKey field sep) rest

theorem Passes.append {text text' field : ByteString} (h : Passes text field)
    (h' : Passes text' field) : Passes (text ++ text') field := by
  intro sep rest
  rw [List.append_assoc, h, h']

theorem Passes.of_no_quote {text : ByteString} (h : quote ∉ text) (field : ByteString) :
    Passes text field := fun _ rest => findAfter_skip h rest

/-- A word that is not the field, or has no colon behind it. -/
theorem Passes.word {word field : ByteString} {b : Byte} (hf : FieldName field)
    (hword : quote ∉ word) (hcolon : field ≠ word ∨ colon ≠ b) (hb : b ∉ field)
    (hquote : quote ∉ [b]) :
    Passes (quoted word ++ [b]) field := by
  intro sep rest
  obtain ⟨c, key, rfl⟩ := List.exists_cons_of_ne_nil hf.nonempty
  have hbc : c ≠ b := fun heq => hb (heq ▸ List.mem_cons_self)
  have hkey : fieldKey (c :: key) sep = quote :: ((c :: key) ++ quote :: colon :: sep) := by
    simp [fieldKey, quoted]
  have htext : quoted word ++ [b] ++ rest = quote :: (word ++ quote :: b :: rest) := by
    simp [quoted]
  rw [hkey, htext, findAfter_word hf.no_quote hword]
  · rw [List.cons_append, findAfter_closing hbc]
    exact findAfter_skip hquote rest
  · rw [List.cons_prefix_cons]
    exact hcolon.imp_right fun hne hwhole => hne hwhole.1

theorem Passes.line {name value field : ByteString} (hf : FieldName field) (hname : quote ∉ name)
    (hne : field ≠ name) (hvalue : PlainValue value) : Passes (line name value) field := by
  have htext : BackupManifest.line name value =
      lit "  " ++ ((quoted name ++ [colon]) ++ (lit " " ++ (value ++ lit ",\n"))) := by
    have hlit : lit ": " = [colon] ++ lit " " := rfl
    simp [BackupManifest.line, hlit]
  rw [htext]
  refine (Passes.of_no_quote (by decide) field).append ((Passes.word hf hname (.inl hne)
    hf.no_colon (by decide)).append ((Passes.of_no_quote (by decide) field).append ?_))
  cases hvalue with
  | inl hplain =>
    refine .of_no_quote ?_ field
    intro hmem
    rcases List.mem_append.mp hmem with hmem | hmem
    · exact hplain hmem
    · exact absurd hmem (by decide)
  | inr hquoted =>
    obtain ⟨s, hs, rfl⟩ := hquoted
    have hcomma : quoted s ++ lit ",\n" = (quoted s ++ [0x2C]) ++ lit "\n" := by
      have hlit : lit ",\n" = [0x2C] ++ lit "\n" := rfl
      rw [hlit, List.append_assoc]
    rw [hcomma]
    exact (Passes.word hf hs (.inr (by decide)) hf.no_comma (by decide)).append
      (.of_no_quote (by decide) field)

/-! ### The fields of a manifest -/

def names : List ByteString :=
  [lit "backupId", lit "timestamp", lit "version", lit "sequenceNumber", lit "path",
    lit "isConsistent", lit "collections"]

theorem names_nodup : names.Nodup := by decide +kernel

instance (field : ByteString) : Decidable (FieldName field) :=
  decidable_of_iff (field ≠ [] ∧ quote ∉ field ∧ colon ∉ field ∧ (0x2C : Byte) ∉ field)
    ⟨fun h => ⟨h.1, h.2.1, h.2.2.1, h.2.2.2⟩, fun h => ⟨h.1, h.2, h.3, h.4⟩⟩

theorem names_fieldName : ∀ name ∈ names, FieldName name := by decide +kernel

/-- The fields before the collections, as they are written. -/
def fields (m : BackupManifest) : List (ByteString × ByteString) :=
  [(lit "backupId", quoted m.backupId), (lit "timestamp", quoted m.timestamp),
    (lit "version", quoted m.version), (lit "sequenceNumber", decimal m.sequenceNumber.toNat),
    (lit "path", quoted m.path),
    (lit "isConsistent", if m.isConsistent then lit "true" else lit "false")]

def lines (fields : List (ByteString × ByteString)) : ByteString :=
  (fields.map fun field => line field.1 field.2).flatten

def items (collections : List ByteString) : ByteString :=
  (lit ", ").intercalate (collections.map quoted)

def lastLine (collections : List ByteString) : ByteString :=
  lit "  " ++ (quoted (lit "collections") ++ (lit ": " ++ (lit "[" ++
    (items collections ++ lit "]\n\x7d"))))

theorem toJson_eq (m : BackupManifest) :
    toJson m = lit "\x7b\n" ++ lines m.fields ++ lastLine m.collections := by
  have hid : lit "  \"backupId\": \"" =
    lit "  " ++ quoted (lit "backupId") ++ lit ": " ++ [quote] := by decide +kernel
  have htimestamp : lit "  \"timestamp\": \"" =
    lit "  " ++ quoted (lit "timestamp") ++ lit ": " ++ [quote] := by decide +kernel
  have hversion : lit "  \"version\": \"" =
    lit "  " ++ quoted (lit "version") ++ lit ": " ++ [quote] := by decide +kernel
  have hsequence : lit "  \"sequenceNumber\": " =
    lit "  " ++ quoted (lit "sequenceNumber") ++ lit ": " := by decide +kernel
  have hpath : lit "  \"path\": \"" =
    lit "  " ++ quoted (lit "path") ++ lit ": " ++ [quote] := by decide +kernel
  have hconsistent : lit "  \"isConsistent\": " =
    lit "  " ++ quoted (lit "isConsistent") ++ lit ": " := by decide +kernel
  have hcollections : lit "  \"collections\": [" =
    lit "  " ++ quoted (lit "collections") ++ lit ": " ++ lit "[" := by decide +kernel
  have hclose : lit "\",\n" = [quote] ++ lit ",\n" := rfl
  have hend : lit "]\n\x7d" = lit "]\n" ++ lit "\x7d" := rfl
  simp only [toJson, fields, lines, line, items, lastLine, List.map_cons, List.map_nil,
    List.flatten_cons, List.flatten_nil, hid, htimestamp, hversion, hsequence, hpath, hconsistent,
    hcollections, hclose, hend, quoted, List.append_assoc, List.cons_append, List.nil_append,
    List.append_nil]

theorem passes_lines {fields : List (ByteString × ByteString)} {name : ByteString}
    (hname : FieldName name) (hnames : ∀ field ∈ fields, name ≠ field.1 ∧ quote ∉ field.1)
    (hplain : ∀ field ∈ fields, PlainValue field.2) : Passes (lines fields) name := by
  induction fields with
  | nil => exact fun _ _ => rfl
  | cons field fields ih =>
    obtain ⟨hhead, htail⟩ := List.forall_mem_cons.mp hnames
    obtain ⟨hvalue, hvalues⟩ := List.forall_mem_cons.mp hplain
    exact (Passes.line hname hhead.2 hhead.1 hvalue).append (ih htail hvalues)

/-- What `find` has behind the name of a field, if the values before it are plain. -/
theorem find_name {m : BackupManifest} {before after : List ByteString} {name : ByteString}
    {fields : List (ByteString × ByteString)} (hnames : names = before ++ name :: after)
    (hfields : fields.map Prod.fst = before) (hplain : ∀ field ∈ fields, PlainValue field.2)
    {rest : ByteString} (sep : ByteString)
    (hjson : m.toJson = lit "\x7b\n" ++ lines fields ++
      (lit "  " ++ (quoted name ++ (lit ": " ++ (sep ++ rest))))) :
    afterFirst (quoted name ++ (lit ": " ++ sep)) m.toJson = some rest := by
  have hname := names_fieldName name (by simp [hnames])
  have hothers : ∀ field ∈ fields, name ≠ field.1 ∧ quote ∉ field.1 := by
    intro field hfield
    have hbefore : field.1 ∈ before := hfields ▸ List.mem_map_of_mem hfield
    refine ⟨?_, (names_fieldName field.1 (by simp [hnames, hbefore])).no_quote⟩
    rintro rfl
    have hnodup := names_nodup
    rw [hnames] at hnodup
    exact (List.nodup_append.mp hnodup).2.2 _ hbefore _ List.mem_cons_self rfl
  have hopen : quote ∉ lit "\x7b\n" := by decide
  have hpass := (Passes.of_no_quote hopen name).append
    (passes_lines hname hothers hplain)
  have hkey : quoted name ++ (lit ": " ++ sep) = fieldKey name (lit " " ++ sep) := rfl
  have hrest : quoted name ++ (lit ": " ++ (sep ++ rest)) =
      fieldKey name (lit " " ++ sep) ++ rest := by
    rw [← List.append_assoc, ← List.append_assoc, List.append_assoc, ← hkey]
    simp
  rw [afterFirst_eq, hjson, hkey, hpass, hrest]
  exact (findAfter_skip (by decide) _).trans findAfter_here

/-- The same for the name of a field before the collections. -/
theorem find_field {m : BackupManifest} {before after : List (ByteString × ByteString)}
    {name : ByteString} (sep value : ByteString)
    (hfields : m.fields = before ++ (name, sep ++ value) :: after)
    (hplain : ∀ field ∈ before, PlainValue field.2) :
    ∃ rest, afterFirst (quoted name ++ (lit ": " ++ sep)) m.toJson =
      some (value ++ (lit ",\n" ++ rest)) := by
  have hnames : names = m.fields.map Prod.fst ++ [lit "collections"] := rfl
  rw [hfields, List.map_append, List.map_cons, List.append_assoc, List.cons_append] at hnames
  refine ⟨lines after ++ lastLine m.collections, find_name hnames rfl hplain sep ?_⟩
  rw [toJson_eq, hfields]
  simp only [lines, line, List.map_append, List.map_cons, List.flatten_append, List.flatten_cons,
    List.append_assoc]

theorem extractStringField_iff {m : BackupManifest} {before after : List (ByteString × ByteString)}
    {name s : ByteString} (hfields : m.fields = before ++ (name, quoted s) :: after)
    (hplain : ∀ field ∈ before, PlainValue field.2) :
    extractStringField m.toJson name = s ↔ quote ∉ s := by
  obtain ⟨rest, hfind⟩ := find_field [quote] (s ++ [quote]) hfields hplain
  have hvalue : s ++ [quote] ++ (lit ",\n" ++ rest) = s ++ quote :: (lit ",\n" ++ rest) := by simp
  rw [hvalue] at hfind
  have hkey : quoted name ++ lit ": \"" = quoted name ++ (lit ": " ++ [quote]) := rfl
  unfold extractStringField
  rw [hkey, hfind]
  dsimp only
  rw [if_pos (by simp)]
  exact takeWhile_delimited_iff _

/-- Behind the name the value is what the text goes on with. -/
theorem find_value {m : BackupManifest} {before after : List (ByteString × ByteString)}
    {name value : ByteString} (hfields : m.fields = before ++ (name, value) :: after)
    (hplain : ∀ field ∈ before, PlainValue field.2) :
    ∃ rest, afterFirst (quoted name ++ lit ": ") m.toJson =
      some (value ++ (lit ",\n" ++ rest)) := by
  have hfind := find_field [] value hfields hplain
  rwa [List.append_nil] at hfind

theorem extractUint64Field_eq {m : BackupManifest} {before after : List (ByteString × ByteString)}
    {name : ByteString} {n : UInt64}
    (hfields : m.fields = before ++ (name, decimal n.toNat) :: after)
    (hplain : ∀ field ∈ before, PlainValue field.2) :
    extractUint64Field m.toJson name = .ok n := by
  obtain ⟨rest, hfind⟩ := find_value hfields hplain
  have hdigits : (decimal n.toNat ++ (lit ",\n" ++ rest)).takeWhile isDigit = decimal n.toNat := by
    rw [List.takeWhile_append_of_pos, show lit ",\n" = [0x2C, 0x0A] from rfl, List.cons_append,
      List.takeWhile_cons_of_neg (by decide), List.append_nil]
    exact fun b hb => decide_eq_true (decimal_digit _ b hb)
  unfold extractUint64Field
  rw [hfind]
  dsimp only
  rw [hdigits, if_neg (decimal_ne_nil _), stoull_decimal]

theorem extractBoolField_eq {m : BackupManifest} {before after : List (ByteString × ByteString)}
    {name : ByteString} {b : Bool}
    (hfields : m.fields = before ++ (name, if b then lit "true" else lit "false") :: after)
    (hplain : ∀ field ∈ before, PlainValue field.2) : extractBoolField m.toJson name = b := by
  obtain ⟨rest, hfind⟩ := find_value hfields hplain
  unfold extractBoolField
  rw [hfind]
  cases b with
  | false =>
    refine decide_eq_false ?_
    rw [List.take_append_of_le_length (by decide)]
    decide
  | true =>
    refine decide_eq_true ?_
    rw [List.take_append_of_le_length (by decide)]
    decide

/-! ### The collections -/

/-- Names behind the first one, as they are written. -/
def moreItems (collections : List ByteString) : ByteString :=
  (collections.map fun name => lit ", " ++ quoted name).flatten

theorem items_cons (name : ByteString) (collections : List ByteString) :
    items (name :: collections) = quoted name ++ moreItems collections := by
  induction collections generalizing name with
  | nil => simp [items, moreItems]
  | cons next collections ih =>
    have hcons : items (name :: next :: collections) =
        quoted name ++ (lit ", " ++ items (next :: collections)) := by
      simp [items, List.intercalate_cons_cons]
    rw [hcons, ih next]
    simp [moreItems]

/-- A name without quotes and brackets is read up to its closing quote. -/
theorem quotedItems_plain {name : ByteString} (item rest : ByteString) (hquote : quote ∉ name)
    (hbracket : bracket ∉ name) :
    quotedItems (some item) ((name ++ quote :: rest).takeWhile (· ≠ bracket)) =
      (item ++ name) :: quotedItems none (rest.takeWhile (· ≠ bracket)) := by
  induction name generalizing item with
  | nil =>
    rw [List.nil_append, List.takeWhile_cons_of_pos (by decide), List.append_nil]
    exact if_pos rfl
  | cons b name ih =>
    obtain ⟨hb, hquote⟩ := List.ne_and_not_mem_of_not_mem_cons hquote
    obtain ⟨hb', hbracket⟩ := List.ne_and_not_mem_of_not_mem_cons hbracket
    rw [List.cons_append, List.takeWhile_cons_of_pos (by simpa using Ne.symm hb')]
    refine (if_neg (Ne.symm hb)).trans ?_
    rw [ih (item ++ [b]) hquote hbracket, List.append_assoc]
    rfl

/-- What is read as the name has neither. -/
theorem quotedItems_plain_of_eq {name item rest : ByteString} {more : List ByteString}
    (h : quotedItems (some item) ((name ++ quote :: rest).takeWhile (· ≠ bracket)) =
      (item ++ name) :: more) : quote ∉ name ∧ bracket ∉ name := by
  induction name generalizing item with
  | nil => exact ⟨List.not_mem_nil, List.not_mem_nil⟩
  | cons b name ih =>
    by_cases hbracket : b = bracket
    · rw [hbracket, List.cons_append, List.takeWhile_cons_of_neg (by simp)] at h
      cases h
    rw [List.cons_append, List.takeWhile_cons_of_pos (by simpa using hbracket)] at h
    by_cases hquote : b = quote
    · rw [hquote, show quotedItems (some item) (quote :: _) = item :: _ from if_pos rfl] at h
      have hlen := congrArg List.length (List.cons.inj h).1
      simp at hlen
    · have hnext : quotedItems (some item) (b :: (name ++ quote :: rest).takeWhile (· ≠ bracket)) =
          quotedItems (some (item ++ [b])) ((name ++ quote :: rest).takeWhile (· ≠ bracket)) :=
        if_neg hquote
      have happend : item ++ b :: name = item ++ [b] ++ name := by simp
      rw [hnext, happend] at h
      obtain ⟨hq, hb⟩ := ih h
      exact ⟨by simp [hq, Ne.symm hquote], by simp [hb, Ne.symm hbracket]⟩

/-- The names are read back if and only if none has a quote or a bracket. -/
theorem moreItems_iff (collections : List ByteString) (rest : ByteString) :
    quotedItems none ((moreItems collections ++ bracket :: rest).takeWhile (· ≠ bracket)) =
      collections ↔ ∀ name ∈ collections, quote ∉ name ∧ bracket ∉ name := by
  induction collections with
  | nil =>
    have hempty : (moreItems [] ++ bracket :: rest).takeWhile (· ≠ bracket) = [] :=
      List.takeWhile_cons_of_neg (by simp)
    rw [hempty]
    simp [quotedItems]
  | cons name collections ih =>
    have htext : moreItems (name :: collections) ++ bracket :: rest = 0x2C :: 0x20 :: quote ::
        (name ++ quote :: (moreItems collections ++ bracket :: rest)) := by
      simp [moreItems, quoted, show lit ", " = [0x2C, 0x20] from rfl]
    have hopen : quotedItems none ((moreItems (name :: collections) ++ bracket :: rest).takeWhile
        (· ≠ bracket)) = quotedItems (some []) ((name ++ quote :: (moreItems collections ++
          bracket :: rest)).takeWhile (· ≠ bracket)) := by
      rw [htext, List.takeWhile_cons_of_pos (by decide), List.takeWhile_cons_of_pos (by decide),
        List.takeWhile_cons_of_pos (by decide)]
      rfl
    rw [hopen, List.forall_mem_cons, ← ih]
    constructor
    · intro h
      obtain ⟨hquote, hbracket⟩ := quotedItems_plain_of_eq h
      rw [quotedItems_plain [] _ hquote hbracket] at h
      exact ⟨⟨hquote, hbracket⟩, (List.cons.inj h).2⟩
    · rintro ⟨⟨hquote, hbracket⟩, hmore⟩
      rw [quotedItems_plain [] _ hquote hbracket, hmore]
      rfl

theorem items_iff (collections : List ByteString) (rest : ByteString) :
    quotedItems none ((items collections ++ bracket :: rest).takeWhile (· ≠ bracket)) =
      collections ↔ ∀ name ∈ collections, quote ∉ name ∧ bracket ∉ name := by
  rw [← moreItems_iff collections rest]
  cases collections with
  | nil => rfl
  | cons name collections =>
    have htext : moreItems (name :: collections) ++ bracket :: rest =
        0x2C :: 0x20 :: (items (name :: collections) ++ bracket :: rest) := by
      rw [items_cons]
      simp [moreItems, show lit ", " = [0x2C, 0x20] from rfl]
    rw [htext, List.takeWhile_cons_of_pos (by decide), List.takeWhile_cons_of_pos (by decide)]
    rfl

theorem extractStringArray_iff {m : BackupManifest}
    (hplain : ∀ field ∈ m.fields, PlainValue field.2) :
    extractStringArray m.toJson (lit "collections") = m.collections ↔
      ∀ name ∈ m.collections, quote ∉ name ∧ bracket ∉ name := by
  have hlast : names = m.fields.map Prod.fst ++ lit "collections" :: [] := rfl
  have hfind := find_name hlast rfl hplain (lit "[") (toJson_eq m)
  have hend : lit "]\n\x7d" = bracket :: lit "\n\x7d" := rfl
  have hkey : quoted (lit "collections") ++ lit ": [" =
      quoted (lit "collections") ++ (lit ": " ++ lit "[") := rfl
  unfold extractStringArray
  rw [hkey, hfind, hend]
  dsimp only
  rw [if_pos (by simp [bracket])]
  exact items_iff m.collections _

/-! ### Round trip -/

/-- No quotes, and in the names of collections no closing brackets. -/
structure WithoutQuotes (m : BackupManifest) : Prop where
  strings : ∀ s ∈ [m.backupId, m.timestamp, m.version, m.path], quote ∉ s
  collections : ∀ name ∈ m.collections, quote ∉ name ∧ bracket ∉ name

instance (m : BackupManifest) : Decidable m.WithoutQuotes :=
  decidable_of_iff ((∀ s ∈ [m.backupId, m.timestamp, m.version, m.path], quote ∉ s) ∧
    ∀ name ∈ m.collections, quote ∉ name ∧ bracket ∉ name)
    ⟨fun h => ⟨h.1, h.2⟩, fun h => ⟨h.1, h.2⟩⟩

theorem hasField_toJson {m : BackupManifest} {field : ByteString × ByteString}
    (h : field ∈ m.fields) : hasField m.toJson field.1 = true := by
  obtain ⟨before, after, hfields⟩ := List.append_of_mem h
  unfold hasField
  rw [afterFirst_eq, findAfter_isSome_iff, toJson_eq, hfields]
  simp only [lines, line, List.map_append, List.map_cons, List.flatten_append, List.flatten_cons,
    List.append_assoc]
  refine List.IsInfix.trans ?_ (List.suffix_append _ _).isInfix
  refine List.IsInfix.trans ?_ (List.suffix_append _ _).isInfix
  refine List.IsInfix.trans ?_ (List.suffix_append _ _).isInfix
  exact (List.prefix_append _ _).isInfix

/-- What `fromJson` has to find for a success with `m`. -/
theorem fromJson_ok_iff {json : ByteString} {m : BackupManifest} (hjson : json ≠ [])
    (hasId : hasField json (lit "backupId") = true)
    (hasTimestamp : hasField json (lit "timestamp") = true) (hid : m.backupId ≠ [])
    (htimestamp : m.timestamp ≠ []) (out : BackupManifest) :
    fromJson json out = .ok (.success, m) ↔
      extractUint64Field json (lit "sequenceNumber") = .ok m.sequenceNumber ∧
      extractStringField json (lit "backupId") = m.backupId ∧
      extractStringField json (lit "timestamp") = m.timestamp ∧
      extractStringField json (lit "version") = m.version ∧
      extractStringField json (lit "path") = m.path ∧
      extractBoolField json (lit "isConsistent") = m.isConsistent ∧
      extractStringArray json (lit "collections") = m.collections := by
  unfold fromJson
  rw [if_neg hjson, hasId, hasTimestamp]
  generalize extractUint64Field json (lit "sequenceNumber") = sequence
  generalize extractStringField json (lit "backupId") = id
  generalize extractStringField json (lit "timestamp") = timestamp
  generalize extractStringField json (lit "version") = version
  generalize extractStringField json (lit "path") = path
  generalize extractBoolField json (lit "isConsistent") = consistent
  generalize extractStringArray json (lit "collections") = collections
  rw [if_neg Bool.noConfusion, if_neg Bool.noConfusion]
  have hsuccess : ∀ (msg : ByteString) (read : BackupManifest),
      (pure (HotBackupResult.badRequest msg, read) : Except OutOfRange _) ≠ .ok (.success, m) := by
    intro msg read heq
    cases congrArg HotBackupResult.ok (Prod.mk.inj (Except.ok.inj heq)).1
  cases sequence with
  | error e => exact ⟨nofun, nofun⟩
  | ok n =>
    rw [show (Except.ok n : Except OutOfRange UInt64) = pure n from rfl, pure_bind]
    dsimp only
    constructor
    · intro h
      split at h
      next => exact absurd h (hsuccess _ _)
      next =>
        split at h
        next => exact absurd h (hsuccess _ _)
        next =>
          cases Except.ok.inj h
          exact ⟨rfl, rfl, rfl, rfl, rfl, rfl, rfl⟩
    · rintro ⟨hn, rfl, rfl, rfl, rfl, rfl, rfl⟩
      rw [Except.ok.inj hn, if_neg hid, if_neg htimestamp]
      rfl

theorem plain_snoc {before fields : List (ByteString × ByteString)}
    {last : ByteString × ByteString} (hfields : fields = before ++ [last])
    (h : ∀ field ∈ before, PlainValue field.2) (hlast : PlainValue last.2) :
    ∀ field ∈ fields, PlainValue field.2 := by
  rw [hfields]
  exact List.forall_mem_append.mpr ⟨h, List.forall_mem_singleton.mpr hlast⟩

/-- A string is read back only if it has no quotes, and then what is behind it can be. -/
theorem reads_back_iff (m : BackupManifest) :
    (extractUint64Field m.toJson (lit "sequenceNumber") = .ok m.sequenceNumber ∧
      extractStringField m.toJson (lit "backupId") = m.backupId ∧
      extractStringField m.toJson (lit "timestamp") = m.timestamp ∧
      extractStringField m.toJson (lit "version") = m.version ∧
      extractStringField m.toJson (lit "path") = m.path ∧
      extractBoolField m.toJson (lit "isConsistent") = m.isConsistent ∧
      extractStringArray m.toJson (lit "collections") = m.collections) ↔ m.WithoutQuotes := by
  have hstring : ∀ s, quote ∉ s → PlainValue (quoted s) := fun s hs => .inr ⟨s, hs, rfl⟩
  have hnumber : PlainValue (decimal m.sequenceNumber.toNat) :=
    .inl fun hmem => absurd (decimal_digit _ _ hmem) (by decide)
  have hbool : PlainValue (if m.isConsistent then lit "true" else lit "false") := by
    left
    split <;> decide
  have hsplit : ∀ i, m.fields = m.fields.take i ++ m.fields.drop i :=
    fun i => (List.take_append_drop i _).symm
  have plain₀ : ∀ field ∈ m.fields.take 0, PlainValue field.2 := nofun
  have plain₁ : quote ∉ m.backupId → ∀ field ∈ m.fields.take 1, PlainValue field.2 :=
    fun h₁ => plain_snoc rfl plain₀ (hstring _ h₁)
  have plain₂ : quote ∉ m.backupId → quote ∉ m.timestamp →
      ∀ field ∈ m.fields.take 2, PlainValue field.2 :=
    fun h₁ h₂ => plain_snoc rfl (plain₁ h₁) (hstring _ h₂)
  have plain₃ : quote ∉ m.backupId → quote ∉ m.timestamp → quote ∉ m.version →
      ∀ field ∈ m.fields.take 3, PlainValue field.2 :=
    fun h₁ h₂ h₃ => plain_snoc rfl (plain₂ h₁ h₂) (hstring _ h₃)
  have plain₄ : quote ∉ m.backupId → quote ∉ m.timestamp → quote ∉ m.version →
      ∀ field ∈ m.fields.take 4, PlainValue field.2 :=
    fun h₁ h₂ h₃ => plain_snoc rfl (plain₃ h₁ h₂ h₃) hnumber
  have plain₆ : quote ∉ m.backupId → quote ∉ m.timestamp → quote ∉ m.version →
      quote ∉ m.path → ∀ field ∈ m.fields, PlainValue field.2 :=
    fun h₁ h₂ h₃ h₄ => plain_snoc rfl (plain_snoc rfl (plain₄ h₁ h₂ h₃) (hstring _ h₄)) hbool
  constructor
  · rintro ⟨-, hreadId, hreadTimestamp, hreadVersion, hreadPath, -, hreadCollections⟩
    have h₁ := (extractStringField_iff (hsplit 0) plain₀).mp hreadId
    have h₂ := (extractStringField_iff (hsplit 1) (plain₁ h₁)).mp hreadTimestamp
    have h₃ := (extractStringField_iff (hsplit 2) (plain₂ h₁ h₂)).mp hreadVersion
    have h₄ := (extractStringField_iff (hsplit 4) (plain₄ h₁ h₂ h₃)).mp hreadPath
    refine ⟨?_, (extractStringArray_iff (plain₆ h₁ h₂ h₃ h₄)).mp hreadCollections⟩
    simp [h₁, h₂, h₃, h₄]
  · rintro ⟨hstrings, hcollections⟩
    have h₁ : quote ∉ m.backupId := hstrings _ (by simp)
    have h₂ : quote ∉ m.timestamp := hstrings _ (by simp)
    have h₃ : quote ∉ m.version := hstrings _ (by simp)
    have h₄ : quote ∉ m.path := hstrings _ (by simp)
    exact ⟨extractUint64Field_eq (hsplit 3) (plain₃ h₁ h₂ h₃),
      (extractStringField_iff (hsplit 0) plain₀).mpr h₁,
      (extractStringField_iff (hsplit 1) (plain₁ h₁)).mpr h₂,
      (extractStringField_iff (hsplit 2) (plain₂ h₁ h₂)).mpr h₃,
      (extractStringField_iff (hsplit 4) (plain₄ h₁ h₂ h₃)).mpr h₄,
      extractBoolField_eq (hsplit 5) (plain_snoc rfl (plain₄ h₁ h₂ h₃) (hstring _ h₄)),
      (extractStringArray_iff (plain₆ h₁ h₂ h₃ h₄)).mpr hcollections⟩

/-- A manifest with an id and a timestamp is read back as it was written exactly if no string
in it has a quote and no collection name has a closing bracket. -/
theorem manifest_round_trip_iff (m : BackupManifest) (hid : m.backupId ≠ [])
    (htimestamp : m.timestamp ≠ []) :
    (∀ out, fromJson m.toJson out = .ok (.success, m)) ↔ m.WithoutQuotes := by
  have hjson : m.toJson ≠ [] := by
    rw [toJson_eq]
    exact fun h => absurd (List.append_eq_nil_iff.mp (List.append_eq_nil_iff.mp h).1).1 (by decide)
  have hasId := hasField_toJson (List.mem_cons_self : (_, quoted m.backupId) ∈ m.fields)
  have hasTimestamp := hasField_toJson
    (List.mem_cons_of_mem _ List.mem_cons_self : (_, quoted m.timestamp) ∈ m.fields)
  rw [← reads_back_iff m]
  constructor
  · intro h
    exact (fromJson_ok_iff hjson hasId hasTimestamp hid htimestamp m).mp (h m)
  · intro h out
    exact (fromJson_ok_iff hjson hasId hasTimestamp hid htimestamp out).mpr h

def sampleManifest (collections : List ByteString) : BackupManifest where
  backupId := lit "monday"
  timestamp := lit "2026-03-31"
  version := lit "3.12.0"
  sequenceNumber := 12345
  collections := collections
  path := lit "/backups/monday"
  isConsistent := true

theorem sampleManifest_reads_back :
    fromJson (sampleManifest [lit "_users", lit "orders"]).toJson {} =
      .ok (.success, sampleManifest [lit "_users", lit "orders"]) :=
  (manifest_round_trip_iff _ (by decide) (by decide)).mpr (by decide +kernel) {}

/-- The names behind a closing bracket are lost. -/
theorem bracket_ends_the_collections :
    let m := sampleManifest [lit "_users", lit "a]b", lit "orders"]
    m.backupId ≠ [] ∧ m.timestamp ≠ [] ∧
      fromJson m.toJson {} = .ok (.success, sampleManifest [lit "_users"]) ∧
      sampleManifest [lit "_users"] ≠ m := by
  decide +kernel

end OpenArangoDBCore.RocksDBEngine.BackupManifest
