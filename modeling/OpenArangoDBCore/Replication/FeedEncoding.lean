import OpenArangoDBCore.Lib.JsonFields
import OpenArangoDBCore.RestHandler.RestReplicationHandler

/-!
# Decoding the replication feed

The response is JSON with the strings of the messages between quotation marks
as they are. A string that is not plain either breaks the document or comes
back shorter, so the longest one of them cannot come back.
-/

namespace OpenArangoDBCore.Replication.FeedEncoding
open Json RestHandler.RestReplicationHandler ReplicationFeedStream

/-! ### The decoder -/

def decodeSequence (value : Json) : Option UInt64 := do
  let digits ← value.number
  if digits.all isDigit ∧ digitsValue digits < 2 ^ 64 then some (UInt64.ofNat (digitsValue digits))
  else none

def decodeMessage (value : Json) : Option ReplicationMessage := do
  let shardId ← value.member (lit "shardId") >>= string
  let sequence ← value.member (lit "sequence") >>= decodeSequence
  let operation ← value.member (lit "operation") >>= string
  let payload ← value.member (lit "payload") >>= string
  return ⟨shardId, sequence, operation, payload⟩

def decodePage (value : Json) : Option FeedPage := do
  let messages ← value.member (lit "messages") >>= items
  let messages ← messages.mapM decodeMessage
  let hasMore ← value.member (lit "hasMore") >>= boolean
  let lastSequence ← value.member (lit "lastSequence") >>= decodeSequence
  return ⟨messages, hasMore, lastSequence⟩

/-- The page in the document's `result`. -/
def decodeFeed (response : ByteString) : Option FeedPage := do
  let document ← parse response
  let result ← document.member (lit "result")
  decodePage result

/-! ### Plain strings -/

/-- The strings of a message that `fetch` prints as they are. -/
def strings (m : ReplicationMessage) : List ByteString := [m.shardId, m.operation, m.payload]

/-- UTF-8 without quotation marks, backslashes and control characters. -/
def Clean (s : ByteString) : Prop := Plain s ∧ wellFormed s = true

instance (s : ByteString) : Decidable (Clean s) := inferInstanceAs (Decidable (_ ∧ _))

/-- A string that can come back from messages with these strings. -/
def Returns (fields : List ByteString) (text : ByteString) : Prop :=
  Plain text ∨ ∃ field ∈ fields, ¬ Plain field ∧ text.length < field.length

theorem plain_of_returns {fields : List ByteString} (h : ∀ field ∈ fields, Returns fields field) :
    ∀ field ∈ fields, Plain field := by
  exact plain_of_larger List.length h

theorem clean_iff (fields : List ByteString) : (∀ field ∈ fields, Clean field) ↔
    (∀ field ∈ fields, Plain field) ∧ fields.all wellFormed = true := by
  rw [List.all_eq_true, ← forall₂_and]
  rfl

/-! ### The lines of a message -/

theorem natural_decimal (n : ℕ) : Natural (decimal n) := by
  by_cases hn : n = 0
  · subst hn
    exact .inl rfl
  · have hall : (decimal n).all isDigit :=
      List.all_eq_true.mpr fun b hb => decide_eq_true (decimal_digit n b hb)
    have hne : Nat.digits 10 n ≠ [] := Nat.digits_ne_nil_iff_ne_zero.mpr hn
    obtain ⟨front, last, hlast⟩ := (List.eq_nil_or_concat' (Nat.digits 10 n)).resolve_left hne
    have hhead : decimal n = Fin.ofNat 256 (48 + last) ::
        front.reverse.map fun d => Fin.ofNat 256 (48 + d) := by
      rw [decimal, if_neg hn, hlast]
      simp
    refine .inr ⟨_, _, hhead, ?_, hall⟩
    have hmem : last ∈ Nat.digits 10 n := by simp [hlast]
    have hlt : last < 10 := Nat.digits_lt_base (by norm_num) hmem
    have hpos : last ≠ 0 := by
      have hgetLast := Nat.getLast_digit_ne_zero 10 hn
      simpa [hlast] using hgetLast
    intro heq
    have hval : (48 + last) % 256 = 48 := congrArg Fin.val heq
    omega

theorem decodeSequence_num (n : UInt64) : decodeSequence (.num (decimal n.toNat)) = some n := by
  have hall : (decimal n.toNat).all isDigit := (natural_decimal n.toNat).all_isDigit
  have hlt := n.toNat_lt
  show (if _ then _ else _) = _
  rw [digitsValue_decimal, if_pos ⟨hall, hlt⟩, UInt64.ofNat_toNat]

def shardIdKey : ByteString := lit "    \"shardId\": \""
def sequenceKey : ByteString := lit "    \"sequence\": "
def operationKey : ByteString := lit "    \"operation\": \""
def payloadKey : ByteString := lit "    \"payload\": \""
def messageOpening : ByteString := lit "\x7b\n"
def messageClosing : ByteString := lit "\n  \x7d"
def lineEnd : ByteString := lit ",\n"

/-- `renderMessage`, with the quotation marks behind the strings. -/
theorem renderMessage_eq (m : ReplicationMessage) : renderMessage m =
    messageOpening ++ ((shardIdKey ++ (m.shardId ++ Json.quote :: lineEnd)) ++
      ((sequenceKey ++ (decimal m.sequence.toNat ++ chr ',' :: [lineFeed])) ++
        ((operationKey ++ (m.operation ++ Json.quote :: lineEnd)) ++
          (payloadKey ++ (m.payload ++ Json.quote :: messageClosing))))) := by
  simp only [renderMessage, List.append_assoc]
  rfl

def messageTokens (m : ReplicationMessage) : List Token :=
  [.openBrace,
    .str (lit "shardId"), .colon, .str m.shardId, .comma,
    .str (lit "sequence"), .colon, .num (decimal m.sequence.toNat), .comma,
    .str (lit "operation"), .colon, .str m.operation, .comma,
    .str (lit "payload"), .colon, .str m.payload, .closeBrace]

theorem run_shardIdKey : run .between shardIdKey =
    some ([.str (lit "shardId"), .colon], .quoted []) := by decide

theorem lexes_sequenceKey : Lexes [.str (lit "sequence"), .colon] sequenceKey := by decide

theorem run_operationKey : run .between operationKey =
    some ([.str (lit "operation"), .colon], .quoted []) := by decide

theorem run_payloadKey : run .between payloadKey =
    some ([.str (lit "payload"), .colon], .quoted []) := by decide

theorem lexes_messageOpening : Lexes [.openBrace] messageOpening := by decide

theorem lexes_messageClosing : Lexes [.closeBrace] messageClosing := by decide

theorem lexes_lineEnd : Lexes [.comma] lineEnd := by decide

theorem lexes_sequenceLine (n : ℕ) :
    Lexes [.str (lit "sequence"), .colon, .num (decimal n), .comma]
      (sequenceKey ++ (decimal n ++ chr ',' :: [lineFeed])) :=
  lexes_natural lexes_sequenceKey (natural_decimal n) (by decide) lexes_lineEnd

/-- Messages with plain strings are read as they are. -/
theorem lexes_message {m : ReplicationMessage} (h : ∀ field ∈ strings m, Plain field) :
    Lexes (messageTokens m) (renderMessage m) := by
  have hshardId := lexes_field run_shardIdKey lexes_lineEnd (h m.shardId (by simp [strings]))
  have hoperation := lexes_field run_operationKey lexes_lineEnd (h m.operation (by simp [strings]))
  have hpayload := lexes_field run_payloadKey lexes_messageClosing (h m.payload (by simp [strings]))
  rw [renderMessage_eq]
  exact lexes_messageOpening.append
    (hshardId.append ((lexes_sequenceLine _).append (hoperation.append hpayload)))

section Pieces
variable {fields : List ByteString}

theorem reads_fixed {tokens : List Token} {piece : ByteString} (h : Lexes tokens piece)
    (hplain : tokens.all Token.isPlain) : Reads (Returns fields) piece :=
  h.reads fun text hmem => .inl (plain_of_mem hplain text hmem)

theorem reads_line {opening closing : ByteString} {before after : List Token}
    (hopening : run .between opening = some (before, .quoted [])) (hclosing : Lexes after closing)
    (hends : EndsLine closing) (hbefore : before.all Token.isPlain)
    (hafter : after.all Token.isPlain) {field : ByteString} (hfield : field ∈ fields) :
    Reads (Returns fields) (opening ++ (field ++ Json.quote :: closing)) := by
  refine reads_field hopening hclosing hends
    (fun text hmem => .inl (plain_of_mem hbefore text hmem))
    (fun text hmem => .inl (plain_of_mem hafter text hmem)) fun text htext => ?_
  exact htext.imp id fun hshorter => ⟨field, hfield, hshorter⟩

theorem endsLine_lineEnd : EndsLine lineEnd := ⟨[], .inr rfl⟩

theorem endsLine_messageClosing : EndsLine messageClosing := ⟨lit "  \x7d", .inl rfl⟩

theorem reads_message {m : ReplicationMessage} (h : strings m ⊆ fields) :
    Reads (Returns fields) (renderMessage m) := by
  have hopening : Reads (Returns fields) messageOpening :=
    reads_fixed lexes_messageOpening (by decide)
  have hshardId := reads_line run_shardIdKey lexes_lineEnd endsLine_lineEnd (by decide) (by decide)
    (h (show m.shardId ∈ strings m by simp [strings]))
  have hsequence : Reads (Returns fields)
      (sequenceKey ++ (decimal m.sequence.toNat ++ chr ',' :: [lineFeed])) :=
    reads_fixed (lexes_sequenceLine _) rfl
  have hoperation := reads_line run_operationKey lexes_lineEnd endsLine_lineEnd (by decide)
    (by decide) (h (show m.operation ∈ strings m by simp [strings]))
  have hpayload := reads_line run_payloadKey lexes_messageClosing endsLine_messageClosing
    (by decide) (by decide) (h (show m.payload ∈ strings m by simp [strings]))
  rw [renderMessage_eq]
  exact hopening.append (hshardId.append (hsequence.append (hoperation.append hpayload)))

end Pieces

theorem ascii_decimal (n : ℕ) : (decimal n).all isAscii := by
  refine List.all_eq_true.mpr fun b hb => decide_eq_true ?_
  have hdigit := decimal_digit n b hb
  omega

theorem wellFormed_line {opening closing : ByteString} {field : ByteString}
    (hopening : opening.all isAscii) (rest : ByteString) (hclosing : closing.all isAscii) :
    wellFormed (opening ++ (field ++ Json.quote :: closing) ++ rest) =
      (wellFormed field && wellFormed rest) := by
  have hquote : (Json.quote :: closing).all isAscii := by
    rw [List.all_cons, hclosing]
    rfl
  have hassoc : opening ++ (field ++ Json.quote :: closing) ++ rest =
      opening ++ (field ++ Json.quote :: (closing ++ rest)) := by simp
  rw [hassoc, wellFormed_ascii_append hopening, wellFormed_append (by decide),
    ← List.cons_append, wellFormed_ascii_append hquote]

theorem wellFormed_message (m : ReplicationMessage) (rest : ByteString) :
    wellFormed (renderMessage m ++ rest) = ((strings m).all wellFormed && wellFormed rest) := by
  have hsequence : (sequenceKey ++ (decimal m.sequence.toNat ++ chr ',' :: [lineFeed])).all
      isAscii := by
    rw [List.all_append, List.all_append, ascii_decimal]
    rfl
  have hassoc : renderMessage m ++ rest =
      messageOpening ++ ((shardIdKey ++ (m.shardId ++ Json.quote :: lineEnd)) ++
        ((sequenceKey ++ (decimal m.sequence.toNat ++ chr ',' :: [lineFeed])) ++
          ((operationKey ++ (m.operation ++ Json.quote :: lineEnd)) ++
            ((payloadKey ++ (m.payload ++ Json.quote :: messageClosing)) ++ rest)))) := by
    rw [renderMessage_eq]
    simp only [List.append_assoc]
  rw [hassoc, wellFormed_ascii_append (by decide), wellFormed_line (by decide) _ (by decide),
    wellFormed_ascii_append hsequence, wellFormed_line (by decide) _ (by decide),
    wellFormed_line (by decide) _ (by decide)]
  simp [strings, Bool.and_assoc]

/-! ### The page -/

def separator : ByteString := lit ", "

def renderMessages (messages : List ReplicationMessage) : ByteString :=
  separator.intercalate (messages.map renderMessage)

def messagesTokens : List ReplicationMessage → List Token
  | [] => []
  | m :: messages => messageTokens m ++ messages.flatMap fun m => [.comma] ++ messageTokens m

theorem messagesTokens_eq (messages : List ReplicationMessage) :
    messagesTokens messages = itemsTokens messageTokens messages := by
  cases messages <;> rfl

theorem lexes_messages {messages : List ReplicationMessage}
    (h : ∀ m ∈ messages, ∀ field ∈ strings m, Plain field) :
    Lexes (messagesTokens messages) (renderMessages messages) := by
  rw [messagesTokens_eq]
  exact lexes_items fun m hm => lexes_message (h m hm)

theorem reads_messages {fields : List ByteString} {messages : List ReplicationMessage}
    (h : messages.flatMap strings ⊆ fields) :
    Reads (Returns fields) (renderMessages messages) := by
  have hstrings : ∀ m ∈ messages, strings m ⊆ fields := fun m hm field hfield =>
    h (List.mem_flatMap_of_mem hm hfield)
  exact reads_items fun m hm => reads_message (hstrings m hm)

theorem wellFormed_messages (messages : List ReplicationMessage) (rest : ByteString) :
    wellFormed (renderMessages messages ++ rest) =
      ((messages.flatMap strings).all wellFormed && wellFormed rest) :=
  wellFormed_items wellFormed_message messages rest

def pageOpening : ByteString :=
  lit "\x7b\n  \"error\": false,\n  \"code\": 200,\n  \"result\": " ++
    lit "\x7b\n  \"messages\": ["

def hasMoreLine (hasMore : Bool) : ByteString :=
  lit "],\n" ++ (lit "  \"hasMore\": " ++ ((if hasMore then lit "true" else lit "false") ++
    lit ",\n"))

def lastSequenceKey : ByteString := lit "  \"lastSequence\": "
def pageClosing : ByteString := lit "\x7d" ++ lit "\n\x7d"

def response (page : FeedPage) : ByteString := formatSuccess (renderPage page)

theorem response_eq (page : FeedPage) : response page =
    pageOpening ++ (renderMessages page.messages ++ (hasMoreLine page.hasMore ++
      (lastSequenceKey ++ (decimal page.lastSequence.toNat ++ lineFeed :: pageClosing)))) := by
  simp only [response, formatSuccess, renderPage, pageOpening, hasMoreLine, pageClosing,
    List.append_assoc]
  rfl

def openingTokens : List Token :=
  [.openBrace,
    .str (lit "error"), .colon, .bool false, .comma,
    .str (lit "code"), .colon, .num (lit "200"), .comma,
    .str (lit "result"), .colon, .openBrace, .str (lit "messages"), .colon, .openBracket]

def closingTokens (page : FeedPage) : List Token :=
  [.closeBracket, .comma, .str (lit "hasMore"), .colon, .bool page.hasMore, .comma,
    .str (lit "lastSequence"), .colon, .num (decimal page.lastSequence.toNat),
    .closeBrace, .closeBrace]

theorem lexes_pageOpening : Lexes openingTokens pageOpening := by decide

theorem lexes_closing (page : FeedPage) : Lexes (closingTokens page)
    (hasMoreLine page.hasMore ++
      (lastSequenceKey ++ (decimal page.lastSequence.toNat ++ lineFeed :: pageClosing))) := by
  have hmore : Lexes [.closeBracket, .comma, .str (lit "hasMore"), .colon, .bool page.hasMore,
      .comma] (hasMoreLine page.hasMore) := by
    cases page.hasMore <;> decide
  have hkey : Lexes [.str (lit "lastSequence"), .colon] lastSequenceKey := by decide
  have hend : Lexes [.closeBrace, .closeBrace] (lineFeed :: pageClosing) := by decide
  exact hmore.append (lexes_natural hkey (natural_decimal _) (by decide) hend)

theorem lexes_response {page : FeedPage}
    (h : ∀ m ∈ page.messages, ∀ field ∈ strings m, Plain field) :
    Lexes (openingTokens ++ (messagesTokens page.messages ++ closingTokens page))
      (response page) := by
  rw [response_eq]
  exact lexes_pageOpening.append ((lexes_messages h).append (lexes_closing page))

theorem reads_response (page : FeedPage) :
    Reads (Returns (page.messages.flatMap strings)) (response page) := by
  rw [response_eq]
  refine (reads_fixed lexes_pageOpening (by decide)).append
    ((reads_messages (List.Subset.refl _)).append (reads_fixed (lexes_closing page) ?_))
  rfl

theorem wellFormed_response (page : FeedPage) :
    wellFormed (response page) = (page.messages.flatMap strings).all wellFormed := by
  have hclosing : (hasMoreLine page.hasMore ++
      (lastSequenceKey ++ (decimal page.lastSequence.toNat ++ lineFeed :: pageClosing))).all
        isAscii := by
    have hmore : (hasMoreLine page.hasMore).all isAscii := by
      cases page.hasMore <;> decide
    rw [List.all_append, List.all_append, List.all_append, ascii_decimal, hmore]
    decide
  have hend := wellFormed_ascii_append hclosing []
  rw [List.append_nil] at hend
  rw [response_eq, wellFormed_ascii_append (by decide), wellFormed_messages, hend]
  exact Bool.and_true _

/-! ### The document -/

def messageValue (m : ReplicationMessage) : Json :=
  .obj [(lit "shardId", .str m.shardId), (lit "sequence", .num (decimal m.sequence.toNat)),
    (lit "operation", .str m.operation), (lit "payload", .str m.payload)]

def pageValue (page : FeedPage) : Json :=
  .obj [(lit "messages", .arr (page.messages.map messageValue)),
    (lit "hasMore", .bool page.hasMore),
    (lit "lastSequence", .num (decimal page.lastSequence.toNat))]

def responseValue (page : FeedPage) : Json :=
  .obj [(lit "error", .bool false), (lit "code", .num (lit "200")),
    (lit "result", pageValue page)]

def resultFrames : List Frame :=
  [.obj [] (lit "messages"),
    .obj [(lit "error", .bool false), (lit "code", .num (lit "200"))] (lit "result")]

theorem parse_opening :
    openingTokens.foldlM parseToken (.value []) = some (.firstItem resultFrames) := rfl

theorem parse_message (items : List Json) (frames : List Frame) (m : ReplicationMessage) :
    (messageTokens m).foldlM parseToken (.value (.arr items :: frames)) =
      some (.afterItem (items ++ [messageValue m]) frames) := rfl

theorem parse_firstMessage (frames : List Frame) (m : ReplicationMessage) :
    (messageTokens m).foldlM parseToken (.firstItem frames) =
      some (.afterItem [messageValue m] frames) := rfl

theorem parse_messages (frames : List Frame) (messages : List ReplicationMessage) :
    (messagesTokens messages ++ [Token.closeBracket]).foldlM parseToken (.firstItem frames) =
      some (place (.arr (messages.map messageValue)) frames) := by
  rw [messagesTokens_eq]
  exact parse_items (fun m frames => parse_firstMessage frames m)
    (fun m items frames => parse_message items frames m) messages frames

theorem parseTokens_response (page : FeedPage) :
    parseTokens (openingTokens ++ (messagesTokens page.messages ++ closingTokens page)) =
      some (responseValue page) := by
  have hclosing : closingTokens page = [.closeBracket] ++ (closingTokens page).tail := rfl
  unfold parseTokens
  rw [hclosing, ← List.append_assoc (messagesTokens _), List.foldlM_append, parse_opening,
    Option.bind_eq_bind, Option.bind_some, List.foldlM_append, parse_messages]
  rfl

theorem decode_messages (messages : List ReplicationMessage) :
    (messages.map messageValue).mapM decodeMessage = some messages := by
  induction messages with
  | nil => rfl
  | cons m messages ih =>
    have hm : decodeMessage (messageValue m) = some m := by
      have hsequence : (messageValue m).member (lit "sequence") >>= decodeSequence =
          some m.sequence := decodeSequence_num m.sequence
      unfold decodeMessage
      rw [hsequence]
      rfl
    rw [List.map_cons, List.mapM_cons, hm, ih]
    rfl

theorem decodePage_pageValue (page : FeedPage) : decodePage (pageValue page) = some page := by
  have hitems : (pageValue page).member (lit "messages") >>= items =
      some (page.messages.map messageValue) := rfl
  have hlast : (pageValue page).member (lit "lastSequence") >>= decodeSequence =
      some page.lastSequence := decodeSequence_num page.lastSequence
  unfold decodePage
  rw [hitems, hlast, Option.bind_eq_bind, Option.bind_some, decode_messages]
  rfl

/-- A decoded message has strings of the document. -/
theorem mentions_of_decodeMessage {value : Json} {m : ReplicationMessage}
    (h : decodeMessage value = some m) : ∀ field ∈ strings m, Mentions field value := by
  unfold decodeMessage at h
  obtain ⟨shardId, hshardId, h⟩ := Option.bind_eq_some_iff.mp h
  obtain ⟨sequence, -, h⟩ := Option.bind_eq_some_iff.mp h
  obtain ⟨operation, hoperation, h⟩ := Option.bind_eq_some_iff.mp h
  obtain ⟨payload, hpayload, h⟩ := Option.bind_eq_some_iff.mp h
  obtain rfl := Option.some.inj h
  intro field hfield
  simp only [strings, List.mem_cons, List.not_mem_nil, or_false] at hfield
  rcases hfield with rfl | rfl | rfl
  · exact Mentions.of_memberString hshardId
  · exact Mentions.of_memberString hoperation
  · exact Mentions.of_memberString hpayload

theorem mem_of_mapM {α β : Type} {f : α → Option β} {xs : List α} {ys : List β}
    (h : xs.mapM f = some ys) {y : β} (hy : y ∈ ys) : ∃ x ∈ xs, f x = some y := by
  induction xs generalizing ys with
  | nil =>
    obtain rfl := Option.some.inj h
    exact absurd hy List.not_mem_nil
  | cons x xs ih =>
    rw [List.mapM_cons] at h
    obtain ⟨z, hz, h⟩ := Option.bind_eq_some_iff.mp h
    obtain ⟨zs, hzs, h⟩ := Option.bind_eq_some_iff.mp h
    obtain rfl := Option.some.inj h
    rcases List.mem_cons.mp hy with rfl | hy
    · exact ⟨x, List.mem_cons_self, hz⟩
    · obtain ⟨x', hmem, hx'⟩ := ih hzs hy
      exact ⟨x', List.mem_cons_of_mem x hmem, hx'⟩

theorem mentions_of_decodePage {value : Json} {page : FeedPage}
    (h : decodePage value = some page) :
    ∀ field ∈ page.messages.flatMap strings, Mentions field value := by
  unfold decodePage at h
  obtain ⟨values, hvalues, h⟩ := Option.bind_eq_some_iff.mp h
  obtain ⟨messages, hmessages, h⟩ := Option.bind_eq_some_iff.mp h
  obtain ⟨hasMore, -, h⟩ := Option.bind_eq_some_iff.mp h
  obtain ⟨lastSequence, -, h⟩ := Option.bind_eq_some_iff.mp h
  obtain rfl := Option.some.inj h
  obtain ⟨part, hpart, hitems⟩ := Option.bind_eq_some_iff.mp hvalues
  intro field hfield
  obtain ⟨m, hm, hfield⟩ := List.mem_flatMap.mp hfield
  obtain ⟨item, hitem, hdecode⟩ := mem_of_mapM hmessages hm
  exact Mentions.of_member hpart
    (Mentions.of_items hitems hitem (mentions_of_decodeMessage hdecode field hfield))

theorem decode_response_iff (page : FeedPage) : decodeFeed (response page) = some page ↔
    ∀ m ∈ page.messages, ∀ field ∈ strings m, Clean field := by
  rw [← List.forall_mem_flatMap, clean_iff, ← wellFormed_response page]
  constructor
  · intro h
    obtain ⟨document, hdocument, h⟩ := Option.bind_eq_some_iff.mp h
    obtain ⟨result, hresult, h⟩ := Option.bind_eq_some_iff.mp h
    obtain ⟨hwellFormed, hholds⟩ := parse_holds (reads_response page) hdocument
    refine ⟨plain_of_returns fun field hfield => ?_, hwellFormed⟩
    exact hholds field (Mentions.of_member hresult (mentions_of_decodePage h field hfield))
  · rintro ⟨hplain, hwellFormed⟩
    have hlexes : Lexes _ (response page) :=
      lexes_response fun m hm field hfield => hplain field (List.mem_flatMap_of_mem hm hfield)
    unfold decodeFeed parse
    rw [if_pos hwellFormed, hlexes.lex, Option.bind_some, parseTokens_response]
    exact decodePage_pageValue page

theorem fetchPage_messages (nextBatch : NextBatch) (shardId : ByteString) (afterSequence : UInt64)
    (maxCount : UInt32) : (fetchPage nextBatch shardId afterSequence maxCount).messages =
      (nextBatch shardId afterSequence (maxCount + 1)).take maxCount.toNat := by
  unfold fetchPage
  dsimp only
  split
  next => rfl
  next hall =>
    rw [decide_eq_true_eq, not_lt] at hall
    rw [List.take_of_length_le hall]

/-- The page comes back from the response exactly when all its strings are clean. -/
theorem feed_decodes_iff_clean (nextBatch : NextBatch) {shardId : ByteString} (h : shardId ≠ [])
    (afterSequence : UInt64) (maxCount : UInt32) :
    decodeFeed (executeFeed nextBatch shardId afterSequence maxCount) =
        some (feedPage nextBatch shardId afterSequence maxCount) ↔
      ∀ m ∈ (nextBatch shardId afterSequence (effectiveCount maxCount + 1)).take
          (effectiveCount maxCount).toNat, ∀ field ∈ strings m, Clean field := by
  rw [executeFeed_eq nextBatch h, ← fetchPage_messages]
  exact decode_response_iff _

def textMessage : ReplicationMessage := ⟨lit "s1", 1, lit "insert", lit "text"⟩

theorem textMessage_decodes :
    decodeFeed (executeFeed (MockShardWALTailer.nextBatch [textMessage]) (lit "s1") 0 10) =
      some (feedPage (MockShardWALTailer.nextBatch [textMessage]) (lit "s1") 0 10) :=
  (feed_decodes_iff_clean _ (by decide) 0 10).mpr (by decide)

def documentMessage : ReplicationMessage := ⟨lit "s1", 1, lit "insert", lit "\x7b\"a\":1\x7d"⟩

/-- A document as the payload of the only message: the response is not JSON. -/
theorem documentMessage_breaks_feed :
    decodeFeed (executeFeed (MockShardWALTailer.nextBatch [documentMessage]) (lit "s1") 0 10) ≠
        some (feedPage (MockShardWALTailer.nextBatch [documentMessage]) (lit "s1") 0 10) ∧
      parse (executeFeed (MockShardWALTailer.nextBatch [documentMessage]) (lit "s1") 0 10) =
        none := by
  refine ⟨fun h => ?_, ?_⟩
  · rw [executeFeed_eq _ (by decide)] at h
    exact absurd ((decode_response_iff _).mp h) (by decide)
  · exact Option.isNone_iff_eq_none.mp (by decide +kernel)

end OpenArangoDBCore.Replication.FeedEncoding
