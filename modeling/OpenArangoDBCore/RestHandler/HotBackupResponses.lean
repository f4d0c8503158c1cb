import OpenArangoDBCore.Lib.JsonFields
import OpenArangoDBCore.Replication.FeedEncoding
import OpenArangoDBCore.RestHandler.RestHotBackupHandler

/-!
# Decoding the responses about hot backups

Both responses print the strings of a manifest as they are, the names of the
collections on one line. The response of `create` has the sequence number where
it names the duration; a manifest in the list has no duration.
-/

namespace OpenArangoDBCore.RestHandler.HotBackupResponses
open Json RocksDBEngine RestHotBackupHandler
open Replication.FeedEncoding (Clean clean_iff natural_decimal ascii_decimal wellFormed_line
  mem_of_mapM lineEnd lexes_lineEnd)

/-! ### The decoder -/

/-- What follows the digits of a number, from the letter on. -/
def exponentValue : ByteString → ℤ
  | [] => 0
  | _ :: text =>
    if text.head? = some (chr '-') then -digitsValue text.tail
    else if text.head? = some (chr '+') then digitsValue text.tail
    else digitsValue text

def numberValue (text : ByteString) : ℚ :=
  let negative := text.head? = some (chr '-')
  let unsigned := if negative then text.tail else text
  let whole := unsigned.takeWhile isDigit
  let behind := unsigned.dropWhile isDigit
  let point := behind.head? = some (chr '.')
  let fraction := if point then behind.tail.takeWhile isDigit else []
  let exponent := exponentValue (if point then behind.tail.dropWhile isDigit else behind)
  (if negative then -1 else 1) * digitsValue (whole ++ fraction) *
    10 ^ (exponent - fraction.length)

structure BackupInfo where
  id : ByteString
  datetime : ByteString
  version : ByteString
  collections : List ByteString
  isConsistent : Bool
  deriving DecidableEq

def BackupInfo.of (m : BackupManifest) : BackupInfo :=
  ⟨m.backupId, m.timestamp, m.version, m.collections, m.isConsistent⟩

def decodeInfo (value : Json) : Option BackupInfo := do
  let id ← value.member (lit "id") >>= string
  let datetime ← value.member (lit "datetime") >>= string
  let version ← value.member (lit "version") >>= string
  let collections ← value.member (lit "collections") >>= items
  let collections ← collections.mapM string
  let isConsistent ← value.member (lit "isConsistent") >>= boolean
  return ⟨id, datetime, version, collections, isConsistent⟩

/-- The backup in the document's `result` and its duration. -/
def decodeCreated (response : ByteString) : Option (BackupInfo × ℚ) := do
  let document ← parse response
  let result ← document.member (lit "result")
  let info ← decodeInfo result
  let duration ← result.member (lit "durationSeconds") >>= number
  return (info, numberValue duration)

def decodeListed (response : ByteString) : Option (List BackupInfo) := do
  let document ← parse response
  let manifests ← document.member (lit "result") >>= items
  manifests.mapM decodeInfo

theorem numberValue_decimal (n : ℕ) : numberValue (decimal n) = n := by
  have hall : ∀ b ∈ decimal n, isDigit b = true :=
    List.all_eq_true.mp (natural_decimal n).all_isDigit
  have hsign : (decimal n).head? ≠ some (chr '-') := by
    intro hhead
    exact absurd (hall _ (List.mem_of_mem_head? hhead)) (by decide)
  have hwhole : (decimal n).takeWhile isDigit = decimal n := List.takeWhile_eq_self_iff.mpr hall
  have hbehind : (decimal n).dropWhile isDigit = [] := List.dropWhile_eq_nil_iff.mpr hall
  unfold numberValue
  dsimp only
  rw [if_neg hsign, if_neg hsign, hwhole, hbehind, if_neg nofun, if_neg nofun, List.append_nil,
    digitsValue_decimal]
  simp [exponentValue]

/-! ### The lines of a backup -/

/-- The strings of a manifest that the responses print. -/
def strings (m : BackupManifest) : List ByteString :=
  m.backupId :: m.timestamp :: m.version :: m.collections

def backupOpening : ByteString := lit "\x7b\n"
def idKey : ByteString := lit "  \"id\": \""
def datetimeKey : ByteString := lit "  \"datetime\": \""
def versionKey : ByteString := lit "  \"version\": \""
def durationKey : ByteString := lit "  \"durationSeconds\": "
def collectionsKey : ByteString := lit "  \"collections\": ["

def ending (isConsistent : Bool) : ByteString :=
  lit "],\n" ++ (lit "  \"isConsistent\": " ++
    ((if isConsistent then lit "true" else lit "false") ++ (lit "\n" ++ lit "\x7d")))

/-- The line of the duration, if there is one. -/
def durationLine : Option ℕ → ByteString
  | none => []
  | some n => durationKey ++ (decimal n ++ chr ',' :: [lineFeed])

def backupPiece (duration : Option ℕ) (m : BackupManifest) : ByteString :=
  backupOpening ++ ((idKey ++ (m.backupId ++ Json.quote :: lineEnd)) ++
    ((datetimeKey ++ (m.timestamp ++ Json.quote :: lineEnd)) ++
      ((versionKey ++ (m.version ++ Json.quote :: lineEnd)) ++
        (durationLine duration ++ (collectionsKey ++ row m.collections (ending m.isConsistent))))))

theorem renderCollections_append (collections : List ByteString) (closing : ByteString) :
    renderCollections collections ++ closing = row collections closing :=
  (row_eq_intercalate collections closing).symm

theorem renderCreated_eq (m : BackupManifest) :
    renderCreated m = backupPiece (some m.sequenceNumber.toNat) m := by
  simp only [renderCreated, backupPiece, durationLine, ← renderCollections_append,
    List.append_assoc]
  rfl

theorem renderListed_eq (m : BackupManifest) : renderListed m = backupPiece none m := by
  simp only [renderListed, backupPiece, ← renderCollections_append, List.append_assoc]
  rfl

/-! ### Tokens -/

def durationTokens : Option ℕ → List Token
  | none => []
  | some n => [Token.str (lit "durationSeconds"), Token.colon, Token.num (decimal n), Token.comma]

def endingTokens (isConsistent : Bool) : List Token :=
  [Token.closeBracket, Token.comma, Token.str (lit "isConsistent"), Token.colon,
    Token.bool isConsistent, Token.closeBrace]

def stringTokens (key value : ByteString) : List Token :=
  [Token.str key, Token.colon, Token.str value, Token.comma]

def backupTokens (duration : Option ℕ) (m : BackupManifest) : List Token :=
  [Token.openBrace] ++ (stringTokens (lit "id") m.backupId ++
    (stringTokens (lit "datetime") m.timestamp ++ (stringTokens (lit "version") m.version ++
      (durationTokens duration ++
        ([Token.str (lit "collections"), Token.colon, Token.openBracket] ++
          rowTokens m.collections (endingTokens m.isConsistent))))))

theorem run_idKey : run .between idKey =
    some ([Token.str (lit "id"), Token.colon], .quoted []) := by decide

theorem run_datetimeKey : run .between datetimeKey =
    some ([Token.str (lit "datetime"), Token.colon], .quoted []) := by decide

theorem run_versionKey : run .between versionKey =
    some ([Token.str (lit "version"), Token.colon], .quoted []) := by decide

theorem lexes_backupOpening : Lexes [Token.openBrace] backupOpening := by decide

theorem lexes_collectionsKey :
    Lexes [Token.str (lit "collections"), Token.colon, Token.openBracket] collectionsKey := by
  decide

theorem lexes_ending (isConsistent : Bool) :
    Lexes (endingTokens isConsistent) (ending isConsistent) := by
  cases isConsistent <;> decide

theorem lexes_durationLine (duration : Option ℕ) :
    Lexes (durationTokens duration) (durationLine duration) := by
  cases duration with
  | none => exact lexes_nil
  | some n =>
    have hkey : Lexes [Token.str (lit "durationSeconds"), Token.colon] durationKey := by decide
    exact lexes_natural hkey (natural_decimal n) (by decide) lexes_lineEnd

theorem lexes_backup {m : BackupManifest} (h : ∀ s ∈ strings m, Plain s) (duration : Option ℕ) :
    Lexes (backupTokens duration m) (backupPiece duration m) := by
  obtain ⟨hid, hrest⟩ := List.forall_mem_cons.mp h
  obtain ⟨hdatetime, hrest⟩ := List.forall_mem_cons.mp hrest
  obtain ⟨hversion, hcollections⟩ := List.forall_mem_cons.mp hrest
  have hid := lexes_field run_idKey lexes_lineEnd hid
  have hdatetime := lexes_field run_datetimeKey lexes_lineEnd hdatetime
  have hversion := lexes_field run_versionKey lexes_lineEnd hversion
  have hrow := lexes_row (lexes_ending m.isConsistent) hcollections
  exact lexes_backupOpening.append (hid.append (hdatetime.append (hversion.append
    ((lexes_durationLine duration).append (lexes_collectionsKey.append hrow)))))

theorem unquotable_lineEnd : Unquotable lineEnd := fun _ => rfl

theorem unquotable_ending (isConsistent : Bool) : Unquotable (ending isConsistent) := fun _ => rfl

theorem reads_backup {fields : List ByteString} {m : BackupManifest} (h : strings m ⊆ fields)
    (duration : Option ℕ) : Reads (Returned fields) (backupPiece duration m) := by
  obtain ⟨hid, hrest⟩ := List.cons_subset.mp h
  obtain ⟨hdatetime, hrest⟩ := List.cons_subset.mp hrest
  obtain ⟨hversion, hcollections⟩ := List.cons_subset.mp hrest
  have hopening : Reads (Returned fields) backupOpening :=
    reads_plain lexes_backupOpening (by decide)
  have hid := reads_member run_idKey lexes_lineEnd unquotable_lineEnd (by decide) (by decide) hid
  have hdatetime := reads_member run_datetimeKey lexes_lineEnd unquotable_lineEnd (by decide)
    (by decide) hdatetime
  have hversion := reads_member run_versionKey lexes_lineEnd unquotable_lineEnd (by decide)
    (by decide) hversion
  have hduration : Reads (Returned fields) (durationLine duration) := by
    refine reads_plain (lexes_durationLine duration) ?_
    cases duration <;> rfl
  have hrow := reads_row lexes_collectionsKey (lexes_ending m.isConsistent)
    (unquotable_ending m.isConsistent) (by decide) (by cases m.isConsistent <;> decide)
    fun name hname => hcollections hname
  exact hopening.append (hid.append (hdatetime.append (hversion.append (hduration.append hrow))))

theorem wellFormed_backup (duration : Option ℕ) (m : BackupManifest) (rest : ByteString) :
    wellFormed (backupPiece duration m ++ rest) =
      ((strings m).all wellFormed && wellFormed rest) := by
  have hduration : (durationLine duration).all isAscii := by
    cases duration with
    | none => rfl
    | some n =>
      rw [durationLine, List.all_append, List.all_append, ascii_decimal]
      decide
  have hending : (ending m.isConsistent).all isAscii := by cases m.isConsistent <;> decide
  have hassoc : backupPiece duration m ++ rest =
      backupOpening ++ ((idKey ++ (m.backupId ++ Json.quote :: lineEnd)) ++
        ((datetimeKey ++ (m.timestamp ++ Json.quote :: lineEnd)) ++
          ((versionKey ++ (m.version ++ Json.quote :: lineEnd)) ++
            (durationLine duration ++
              (collectionsKey ++ row m.collections (ending m.isConsistent ++ rest)))))) := by
    rw [← row_append]
    simp only [backupPiece, List.append_assoc]
  rw [hassoc, wellFormed_ascii_append (by decide), wellFormed_line (by decide) _ (by decide),
    wellFormed_line (by decide) _ (by decide), wellFormed_line (by decide) _ (by decide),
    wellFormed_ascii_append hduration, wellFormed_ascii_append (by decide), wellFormed_row,
    wellFormed_ascii_append hending]
  simp only [strings, List.all_cons, Bool.and_assoc]

/-! ### Values -/

def durationMembers : Option ℕ → List (Text × Json)
  | none => []
  | some n => [(lit "durationSeconds", Json.num (decimal n))]

def backupValue (duration : Option ℕ) (m : BackupManifest) : Json :=
  .obj ([(lit "id", Json.str m.backupId), (lit "datetime", Json.str m.timestamp),
    (lit "version", Json.str m.version)] ++ durationMembers duration ++
      [(lit "collections", Json.arr (m.collections.map Json.str)),
        (lit "isConsistent", Json.bool m.isConsistent)])

theorem parse_backup (duration : Option ℕ) (m : BackupManifest) (frames : List Frame) :
    (backupTokens duration m).foldlM parseToken (.value frames) =
      some (place (backupValue duration m) frames) := by
  have hcollections : ∀ before, ([Token.str (lit "collections"), Token.colon, Token.openBracket] ++
      rowTokens m.collections (endingTokens m.isConsistent)).foldlM parseToken
        (.key before frames) = some (place (.obj (before ++
          [(lit "collections", Json.arr (m.collections.map Json.str)),
            (lit "isConsistent", Json.bool m.isConsistent)])) frames) := by
    intro before
    have hrow := parse_row m.collections (endingTokens m.isConsistent).tail
      (.obj before (lit "collections") :: frames)
    refine hrow.trans ?_
    have hend : before ++ [(lit "collections", Json.arr (m.collections.map Json.str))] ++
        [(lit "isConsistent", Json.bool m.isConsistent)] =
          before ++ [(lit "collections", Json.arr (m.collections.map Json.str)),
            (lit "isConsistent", Json.bool m.isConsistent)] := by simp
    rw [← hend]
    rfl
  cases duration with
  | none => exact hcollections _
  | some n => exact hcollections _

theorem parse_firstBackup (duration : Option ℕ) (m : BackupManifest) (frames : List Frame) :
    (backupTokens duration m).foldlM parseToken (.firstItem frames) =
      some (.afterItem [backupValue duration m] frames) :=
  parse_backup duration m (.arr [] :: frames)

theorem mapM_string (names : List ByteString) :
    (names.map Json.str).mapM string = some names := by
  induction names with
  | nil => rfl
  | cons name names ih =>
    rw [List.map_cons, List.mapM_cons, ih]
    rfl

theorem decodeInfo_backupValue (duration : Option ℕ) (m : BackupManifest) :
    decodeInfo (backupValue duration m) = some (BackupInfo.of m) := by
  have hmembers : decodeInfo (backupValue duration m) =
      ((m.collections.map Json.str).mapM string).bind fun collections =>
        some ⟨m.backupId, m.timestamp, m.version, collections, m.isConsistent⟩ := by
    cases duration <;> rfl
  rw [hmembers, mapM_string]
  rfl

theorem mentions_of_decodeInfo {value : Json} {m : BackupManifest}
    (h : decodeInfo value = some (BackupInfo.of m)) : ∀ s ∈ strings m, Mentions s value := by
  unfold decodeInfo at h
  obtain ⟨id, hid, h⟩ := Option.bind_eq_some_iff.mp h
  obtain ⟨datetime, hdatetime, h⟩ := Option.bind_eq_some_iff.mp h
  obtain ⟨version, hversion, h⟩ := Option.bind_eq_some_iff.mp h
  obtain ⟨values, hvalues, h⟩ := Option.bind_eq_some_iff.mp h
  obtain ⟨collections, hcollections, h⟩ := Option.bind_eq_some_iff.mp h
  obtain ⟨isConsistent, -, h⟩ := Option.bind_eq_some_iff.mp h
  obtain ⟨rfl, rfl, rfl, rfl, rfl⟩ := BackupInfo.mk.inj (Option.some.inj h)
  intro s hs
  obtain rfl | hs := List.mem_cons.mp hs
  · exact Mentions.of_memberString hid
  obtain rfl | hs := List.mem_cons.mp hs
  · exact Mentions.of_memberString hdatetime
  obtain rfl | hs := List.mem_cons.mp hs
  · exact Mentions.of_memberString hversion
  obtain ⟨part, hpart, hitems⟩ := Option.bind_eq_some_iff.mp hvalues
  obtain ⟨item, hitem, hstring⟩ := mem_of_mapM hcollections hs
  exact Mentions.of_member hpart (Mentions.of_items hitems hitem (Mentions.of_string hstring))

/-! ### The envelope -/

def successTokens : List Token :=
  [Token.openBrace, Token.str (lit "error"), Token.colon, Token.bool false, Token.comma,
    Token.str (lit "code"), Token.colon, Token.num (lit "200"), Token.comma,
    Token.str (lit "result"), Token.colon]

def successFrames : List Frame :=
  [.obj [(lit "error", Json.bool false), (lit "code", Json.num (lit "200"))] (lit "result")]

def successValue (result : Json) : Json :=
  .obj [(lit "error", Json.bool false), (lit "code", Json.num (lit "200")), (lit "result", result)]

section Envelope
variable {resultJson : ByteString} {fields : List ByteString}

theorem lexes_successOpening : Lexes successTokens
    (lit "\x7b\n  \"error\": false,\n  \"code\": 200,\n  \"result\": ") := by decide

theorem lexes_successClosing : Lexes [Token.closeBrace] (lit "\n\x7d") := by decide

theorem parse_formatSuccess {tokens : List Token} (hlexes : Lexes tokens resultJson) {result : Json}
    (hresult : tokens.foldlM parseToken (.value successFrames) = some (place result successFrames))
    (hwellFormed : wellFormed (formatSuccess resultJson) = true) :
    parse (formatSuccess resultJson) = some (successValue result) := by
  have hstart : successTokens.foldlM parseToken (.value []) = some (.value successFrames) := rfl
  have hall := (lexes_successOpening.append hlexes).append lexes_successClosing
  rw [parse, if_pos hwellFormed, formatSuccess, hall.lex, Option.bind_some, parseTokens,
    List.foldlM_append, List.foldlM_append, hstart, Option.bind_eq_bind, Option.bind_some, hresult]
  rfl

theorem wellFormed_formatSuccess :
    wellFormed (formatSuccess resultJson) = wellFormed (resultJson ++ lit "\n\x7d") := by
  rw [formatSuccess, List.append_assoc, wellFormed_ascii_append (by decide)]

theorem reads_formatSuccess (h : Reads (Returned fields) resultJson) :
    Reads (Returned fields) (formatSuccess resultJson) :=
  ((reads_plain lexes_successOpening (by decide)).append h).append
    (reads_plain lexes_successClosing (by decide))

end Envelope

/-! ### `create` -/

section Created
variable {m : BackupManifest}

theorem decodeCreated_clean (h : ∀ s ∈ strings m, Clean s) :
    decodeCreated (formatSuccess (renderCreated m)) =
      some (BackupInfo.of m, (m.sequenceNumber.toNat : ℚ)) := by
  obtain ⟨hplain, hwellFormed⟩ := (clean_iff _).mp h
  have hdocument :
      wellFormed (formatSuccess (backupPiece (some m.sequenceNumber.toNat) m)) = true := by
    rw [wellFormed_formatSuccess, wellFormed_backup, hwellFormed]
    rfl
  have hparse := parse_formatSuccess (lexes_backup hplain _) (parse_backup _ m successFrames)
    hdocument
  have hdecode : decodeCreated (formatSuccess (backupPiece (some m.sequenceNumber.toNat) m)) =
      (decodeInfo (backupValue (some m.sequenceNumber.toNat) m)).bind fun info =>
        some (info, numberValue (decimal m.sequenceNumber.toNat)) := by
    unfold decodeCreated
    rw [hparse]
    rfl
  rw [renderCreated_eq, hdecode, decodeInfo_backupValue, numberValue_decimal]
  rfl

theorem decodeCreated_iff {duration : ℚ} :
    decodeCreated (formatSuccess (renderCreated m)) = some (BackupInfo.of m, duration) ↔
      (∀ s ∈ strings m, Clean s) ∧ duration = m.sequenceNumber.toNat := by
  constructor
  · intro h
    have hclean : ∀ s ∈ strings m, Clean s := by
      obtain ⟨document, hdocument, h⟩ := Option.bind_eq_some_iff.mp h
      obtain ⟨result, hresult, h⟩ := Option.bind_eq_some_iff.mp h
      obtain ⟨info, hinfo, h⟩ := Option.bind_eq_some_iff.mp h
      obtain ⟨text, -, h⟩ := Option.bind_eq_some_iff.mp h
      obtain ⟨rfl, -⟩ := Prod.mk.inj (Option.some.inj h)
      rw [renderCreated_eq] at hdocument
      obtain ⟨hwellFormed, hholds⟩ := parse_holds
        (reads_formatSuccess (reads_backup (List.Subset.refl (strings m)) _)) hdocument
      rw [wellFormed_formatSuccess, wellFormed_backup, Bool.and_eq_true] at hwellFormed
      refine (clean_iff _).mpr ⟨plain_of_returned fun s hs => ?_, hwellFormed.1⟩
      exact hholds s (Mentions.of_member hresult (mentions_of_decodeInfo hinfo s hs))
    rw [decodeCreated_clean hclean] at h
    exact ⟨hclean, (Prod.mk.inj (Option.some.inj h)).2.symm⟩
  · rintro ⟨hclean, rfl⟩
    exact decodeCreated_clean hclean

end Created

/-! ### `list` -/

section Listed
variable {manifests : List BackupManifest}

def listedPiece (manifests : List BackupManifest) : ByteString :=
  lit "[" ++ ((lit ", ").intercalate (manifests.map renderListed) ++ lit "]")

def listedTokens (manifests : List BackupManifest) : List Token :=
  [Token.openBracket] ++ (itemsTokens (backupTokens none) manifests ++ [Token.closeBracket])

theorem renderListed_funext : renderListed = backupPiece none := funext renderListed_eq

theorem lexes_openBracket : Lexes [Token.openBracket] (lit "[") := by decide

theorem lexes_closeBracket : Lexes [Token.closeBracket] (lit "]") := by decide

theorem lexes_listed (h : ∀ m ∈ manifests, ∀ s ∈ strings m, Plain s) :
    Lexes (listedTokens manifests) (listedPiece manifests) := by
  have hbackups := lexes_items fun m hm => lexes_backup (h m hm) none
  rw [listedPiece, renderListed_funext]
  exact lexes_openBracket.append (hbackups.append lexes_closeBracket)

theorem reads_listed :
    Reads (Returned (manifests.flatMap strings)) (listedPiece manifests) := by
  have hbackups : Reads (Returned (manifests.flatMap strings))
      ((lit ", ").intercalate (manifests.map (backupPiece none))) :=
    reads_items fun m hm => reads_backup (fun s hs => List.mem_flatMap_of_mem hm hs) none
  rw [listedPiece, renderListed_funext]
  exact (reads_plain lexes_openBracket (by decide)).append
    (hbackups.append (reads_plain lexes_closeBracket (by decide)))

theorem wellFormed_listed (rest : ByteString) : wellFormed (listedPiece manifests ++ rest) =
    ((manifests.flatMap strings).all wellFormed && wellFormed (lit "]" ++ rest)) := by
  rw [listedPiece, renderListed_funext, List.append_assoc, List.append_assoc,
    wellFormed_ascii_append (by decide)]
  exact wellFormed_items (wellFormed_backup none) manifests _

theorem parse_listed (frames : List Frame) :
    (listedTokens manifests).foldlM parseToken (.value frames) =
      some (place (.arr (manifests.map (backupValue none))) frames) := by
  have hbackup : ∀ m items frames, (backupTokens none m).foldlM parseToken
      (.value (.arr items :: frames)) = some (.afterItem (items ++ [backupValue none m]) frames) :=
    fun m items frames => parse_backup none m (.arr items :: frames)
  exact parse_items (parse_firstBackup none) hbackup manifests frames

theorem mapM_decodeInfo :
    (manifests.map (backupValue none)).mapM decodeInfo = some (manifests.map BackupInfo.of) := by
  induction manifests with
  | nil => rfl
  | cons m manifests ih =>
    rw [List.map_cons, List.mapM_cons, decodeInfo_backupValue, ih]
    rfl

theorem decodeListed_iff :
    decodeListed (formatSuccess (listedPiece manifests)) = some (manifests.map BackupInfo.of) ↔
      ∀ m ∈ manifests, ∀ s ∈ strings m, Clean s := by
  rw [← List.forall_mem_flatMap, clean_iff]
  constructor
  · intro h
    obtain ⟨document, hdocument, h⟩ := Option.bind_eq_some_iff.mp h
    obtain ⟨values, hvalues, h⟩ := Option.bind_eq_some_iff.mp h
    obtain ⟨result, hresult, hitems⟩ := Option.bind_eq_some_iff.mp hvalues
    obtain ⟨hwellFormed, hholds⟩ := parse_holds (reads_formatSuccess reads_listed) hdocument
    rw [wellFormed_formatSuccess, wellFormed_listed, Bool.and_eq_true] at hwellFormed
    refine ⟨plain_of_returned fun s hs => ?_, hwellFormed.1⟩
    obtain ⟨m, hm, hs⟩ := List.mem_flatMap.mp hs
    obtain ⟨item, hitem, hdecode⟩ := mem_of_mapM h (List.mem_map_of_mem hm)
    exact hholds s (Mentions.of_member hresult
      (Mentions.of_items hitems hitem (mentions_of_decodeInfo hdecode s hs)))
  · rintro ⟨hplain, hwellFormed⟩
    have hdocument : wellFormed (formatSuccess (listedPiece manifests)) = true := by
      rw [wellFormed_formatSuccess, wellFormed_listed, hwellFormed]
      decide
    have hparse := parse_formatSuccess (lexes_listed (List.forall_mem_flatMap.mp hplain))
      (parse_listed successFrames) hdocument
    unfold decodeListed
    rw [hparse]
    exact mapM_decodeInfo

end Listed

/-- The responses say what the engine has answered exactly when no string needs
an escape and the backup took as many seconds as its sequence number says. -/
theorem responses_faithful_iff (result : HotBackupCreate.CreateResult)
    (manifests : List BackupManifest) :
    (decodeCreated (executeCreate (.success, result)).2 =
        some (BackupInfo.of result.manifest, result.durationSeconds) ↔
      (∀ s ∈ strings result.manifest, Clean s) ∧
        result.durationSeconds = result.manifest.sequenceNumber.toNat) ∧
    (decodeListed (executeList (.success, manifests)).2 = some (manifests.map BackupInfo.of) ↔
      ∀ m ∈ manifests, ∀ s ∈ strings m, Clean s) := by
  have hlist : (executeList (.success, manifests)).2 = formatSuccess (listedPiece manifests) := by
    rw [listedPiece, ← List.append_assoc]
    rfl
  rw [hlist]
  exact ⟨decodeCreated_iff, decodeListed_iff⟩

def sampleManifest : BackupManifest :=
  ⟨lit "b1", lit "2024-01-01T00:00:00Z", lit "3.12.0", 42, [lit "users", lit "orders"], lit "/b/b1",
    true⟩

/-- Half a second comes back as 42, and a quotation mark in a name breaks the list. -/
theorem sequence_as_duration :
    decodeCreated (executeCreate (.success, ⟨sampleManifest, 1 / 2⟩)).2 =
        some (BackupInfo.of sampleManifest, 42) ∧
      decodeCreated (executeCreate (.success, ⟨sampleManifest, 1 / 2⟩)).2 ≠
        some (BackupInfo.of sampleManifest, 1 / 2) ∧
      parse (executeList (.success, [{sampleManifest with collections := [lit "a\"b"]}])).2 =
        none := by
  have hclean : ∀ s ∈ strings sampleManifest, Clean s := by decide
  have hcreated : decodeCreated (executeCreate (.success, ⟨sampleManifest, 1 / 2⟩)).2 =
      some (BackupInfo.of sampleManifest, 42) := decodeCreated_clean hclean
  refine ⟨hcreated, fun h => ?_, ?_⟩
  · rw [hcreated] at h
    have hduration : (42 : ℚ) = 1 / 2 := (Prod.mk.inj (Option.some.inj h)).2
    norm_num at hduration
  · exact Option.isNone_iff_eq_none.mp (by decide +kernel)

end OpenArangoDBCore.RestHandler.HotBackupResponses
