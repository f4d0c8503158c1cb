import OpenArangoDBCore.Aql.SignatureMerge
import OpenArangoDBCore.IResearch.IResearchAnalyzerFeature
import OpenArangoDBCore.Lib.Cuts
import OpenArangoDBCore.Lib.Delimited
import OpenArangoDBCore.Lib.Iterate
import OpenArangoDBCore.Lib.SlotTags

/-!
# The tokens of the MinHash analyzer (IResearchAnalyzerFeature.cpp)

`reset` cuts its input, hashes the pieces and keeps one token for each slot of
the signature; `next` and `value` hand the tokens out. The loops of `reset` run
for a number of rounds and give nothing when it does not suffice.
-/

namespace OpenArangoDBCore.IResearch
open Aql TextSearch Cuts Delimited Iterate SlotTags
open RocksDBEngine.BackupManifest (quote quoted)
open Maskings.AttributeMasking (isspace colon)

structure MinHashAnalyzer where
  config : MinHashAnalyzerConfig
  signatureTokens : List ByteString := []
  currentToken : ℕ := 0

namespace MinHashAnalyzer

/-- The delimiter that `reset` reads from the properties. -/
def delimiterOf (config : MinHashAnalyzerConfig) : ByteString :=
  (quotedValue config.analyzerProperties (lit "delimiter")).getD (lit " ")

/-- `stream >> token` -/
def extractWord (stream : ByteString) : Option (ByteString × ByteString) :=
  let text := stream.dropWhile isspace
  if text = [] then none
  else some (text.takeWhile fun b => !isspace b, text.dropWhile fun b => !isspace b)

/-- The tokens and the position of the last piece. -/
def splitLoop (delimiter input : ByteString) :
    (rounds start : ℕ) → Option ℕ → List ByteString → Option (List ByteString × ℕ)
  | _, start, none, tokens => some (tokens, start)
  | 0, _, some _, _ => none
  | rounds + 1, start, some stop, tokens =>
    let tok := (input.drop start).take (stop - start)
    let start := stop + delimiter.length
    splitLoop delimiter input rounds start (findFrom delimiter input start)
      (if tok = [] then tokens else tokens ++ [tok])

def splitInput (delimiter input : ByteString) (rounds : ℕ) : Option (List ByteString) :=
  (splitLoop delimiter input rounds 0 (find delimiter input) []).map fun split =>
    let last := input.drop split.2
    if last = [] then split.1 else split.1 ++ [last]

def tokenize (rounds : ℕ) (config : MinHashAnalyzerConfig) (data : ByteString) :
    Option (List ByteString) :=
  if config.analyzerType = lit "delimiter" then
    if delimiterOf config = lit " " then iterate extractWord rounds data
    else splitInput (delimiterOf config) data rounds
  else some []

def configSignature (config : MinHashAnalyzerConfig) (tokens : List ByteString) : List UInt64 :=
  signature (generatePermutationSeeds config.numHashes kDefaultMasterSeed) tokens

/-- `"slot:value"` -/
def slotToken (slot : ℕ) (value : UInt64) : ByteString :=
  decimal slot ++ colon :: decimal value.toNat

def slotTokens (signature : List UInt64) : List ByteString :=
  signature.zipIdx.map fun entry => slotToken entry.2 entry.1

def reset (rounds : ℕ) (analyzer : MinHashAnalyzer) (data : ByteString) :
    Option (Bool × MinHashAnalyzer) :=
  (tokenize rounds analyzer.config data).map fun tokens =>
    let signatureTokens := slotTokens (configSignature analyzer.config tokens)
    (signatureTokens ≠ [] ∨ tokens = [],
      { config := analyzer.config, signatureTokens, currentToken := 0 })

def next (analyzer : MinHashAnalyzer) : Bool × MinHashAnalyzer :=
  if analyzer.signatureTokens.length ≤ analyzer.currentToken then (false, analyzer)
  else (true, { analyzer with currentToken := analyzer.currentToken + 1 })

def value (analyzer : MinHashAnalyzer) : ByteString :=
  if analyzer.currentToken = 0 ∨ analyzer.signatureTokens.length < analyzer.currentToken then []
  else analyzer.signatureTokens.getD (analyzer.currentToken - 1) []

/-- One round of a reader: `value` after a `next` that returns `true`. -/
def read (analyzer : MinHashAnalyzer) : Option (ByteString × MinHashAnalyzer) :=
  match analyzer.next with
  | (false, _) => none
  | (true, advanced) => some (advanced.value, advanced)

/-- Whatever an earlier input has left, `reset` returns, and a reader gets these
tokens and no others. -/
def Emits (config : MinHashAnalyzerConfig) (data : ByteString) (stream : List ByteString) : Prop :=
  ∀ signatureTokens currentToken, ∃ rounds ok analyzer,
    reset rounds { config, signatureTokens, currentToken } data = some (ok, analyzer) ∧
      ∃ reads, iterate read reads analyzer = some stream

/-- The loop of `reset` is over, with these tokens. -/
def Tokenizes (config : MinHashAnalyzerConfig) (data : ByteString) (tokens : List ByteString) :
    Prop := ∃ rounds, tokenize rounds config data = some tokens

/-! ### The cursor -/

theorem iterate_read (config : MinHashAnalyzerConfig) (signatureTokens : List ByteString)
    {currentToken left : ℕ} (h : currentToken + left = signatureTokens.length) :
    iterate read (left + 1) { config, signatureTokens, currentToken } =
      some (signatureTokens.drop currentToken) := by
  induction left generalizing currentToken with
  | zero =>
    have hstop : read { config, signatureTokens, currentToken } = none := by
      rw [read, next, if_pos (by dsimp only; omega)]
    rw [iterate_stop hstop, List.drop_eq_nil_of_le (by omega)]
  | succ left ih =>
    have hlt : currentToken < signatureTokens.length := by omega
    have hread : read { config, signatureTokens, currentToken } =
        some (signatureTokens[currentToken],
          { config, signatureTokens, currentToken := currentToken + 1 }) := by
      rw [read, next, if_neg (by dsimp only; omega)]
      dsimp only
      rw [value, if_neg (by dsimp only; omega)]
      simp [hlt]
    rw [iterate_step hread, ih (by omega), Option.map_some, List.drop_eq_getElem_cons hlt]

theorem Tokenizes.emits {config : MinHashAnalyzerConfig} {data : ByteString}
    {tokens : List ByteString} (h : Tokenizes config data tokens) :
    Emits config data (slotTokens (configSignature config tokens)) := by
  intro signatureTokens currentToken
  obtain ⟨rounds, hrounds⟩ := h
  exact ⟨rounds, _, _, by rw [reset, hrounds]; rfl, _,
    iterate_read config _ (Nat.zero_add _)⟩

theorem Emits.tokenizes {config : MinHashAnalyzerConfig} {data : ByteString}
    {stream : List ByteString} (h : Emits config data stream) :
    ∃ tokens, Tokenizes config data tokens := by
  obtain ⟨rounds, ok, analyzer, hreset, -⟩ := h [] 0
  obtain ⟨tokens, htokens, -⟩ := Option.map_eq_some_iff.mp hreset
  exact ⟨tokens, rounds, htokens⟩

/-! ### The pieces -/

/-- Between the configured delimiters, or between white space for a space. -/
def PiecesOf (delimiter data : ByteString) (pieces : List ByteString) : Prop :=
  if delimiter = lit " " then pieces = data.splitOnP isspace else Pieces delimiter data pieces

theorem PiecesOf.unique {delimiter data : ByteString} {pieces pieces' : List ByteString}
    (h : PiecesOf delimiter data pieces) (h' : PiecesOf delimiter data pieces') :
    pieces = pieces' := by
  unfold PiecesOf at h h'
  split at h
  next hspace =>
    rw [if_pos hspace] at h'
    exact h.trans h'.symm
  next hspace =>
    rw [if_neg hspace] at h'
    exact h.unique h'

/-- Enough rounds for the words, which are the pieces between white space. -/
theorem iterate_extractWord (data : ByteString) {rounds : ℕ} (h : data.length < rounds) :
    iterate extractWord rounds data = some (words isspace data) := by
  induction rounds generalizing data with
  | zero => exact absurd h (Nat.not_lt_zero _)
  | succ rounds ih =>
    rw [← words_dropWhile]
    have hlength := (List.dropWhile_suffix (l := data) isspace).length_le
    cases htext : data.dropWhile isspace with
    | nil =>
      have hstop : extractWord data = none := by
        unfold extractWord
        rw [htext]
        rfl
      rw [iterate_stop hstop]
      rfl
    | cons a text =>
      have ha : isspace a = false := by
        have hhead := List.head?_dropWhile_not isspace data
        rw [htext] at hhead
        exact hhead
      have hword : extractWord data = some ((a :: text).takeWhile (fun b => !isspace b),
          (a :: text).dropWhile fun b => !isspace b) := by
        unfold extractWord
        rw [htext]
        rfl
      have hrest : ((a :: text).dropWhile fun b => !isspace b).length ≤ text.length := by
        rw [List.dropWhile_cons_of_pos (by rw [ha]; rfl)]
        exact (List.dropWhile_suffix _).length_le
      rw [htext, List.length_cons] at hlength
      rw [iterate_step hword, ih _ (by omega), words_cons isspace ha]
      rfl

theorem findFrom_zero (key text : ByteString) : findFrom key text 0 = find key text := by
  simp [findFrom]

/-- With a delimiter that is not empty, each round brings the position nearer to
the end of the input. -/
theorem splitLoop_eq {delimiter : ByteString} (hne : delimiter ≠ []) (input : ByteString)
    {rounds start : ℕ} (tokens : List ByteString) (hstart : start ≤ input.length)
    (hrounds : input.length - start ≤ rounds) :
    ∃ pieces stop,
      splitLoop delimiter input rounds start (findFrom delimiter input start) tokens =
        some (tokens ++ nonEmpty pieces, stop) ∧
      Pieces delimiter (input.drop start) (pieces ++ [input.drop stop]) := by
  induction rounds generalizing start tokens with
  | zero =>
    have hend : input.drop start = [] := List.drop_eq_nil_of_le (by omega)
    have hnone : find delimiter (input.drop start) = none := by
      rw [hend, find, if_neg hne]
    have hloop : findFrom delimiter input start = none := by rw [findFrom, hnone, Option.map_none]
    rw [hloop]
    exact ⟨[], start, by rw [splitLoop, nonEmpty_nil, List.append_nil],
      .last (not_infix_of_find_none hnone)⟩
  | succ rounds ih =>
    cases hfind : find delimiter (input.drop start) with
    | none =>
      rw [findFrom, hfind, Option.map_none]
      exact ⟨[], start, by rw [splitLoop, nonEmpty_nil, List.append_nil],
        .last (not_infix_of_find_none hfind)⟩
    | some i =>
      have hlength := find_le hfind
      have hpos := List.length_pos_iff.mpr hne
      rw [List.length_drop] at hlength
      rw [findFrom, hfind, Option.map_some, splitLoop, Nat.add_sub_cancel_left]
      obtain ⟨pieces, stop, hloop, hpieces⟩ :=
        ih (if (input.drop start).take i = [] then tokens
          else tokens ++ [(input.drop start).take i])
          (show start + i + delimiter.length ≤ input.length by omega) (by omega)
      refine ⟨(input.drop start).take i :: pieces, stop, ?_, ?_⟩
      · rw [hloop]
        split
        next hnil => rw [hnil, nonEmpty_cons_nil]
        next hword => rw [nonEmpty_cons hword, List.append_assoc, List.singleton_append]
      · rw [Nat.add_assoc, ← List.drop_drop] at hpieces
        exact hpieces.of_find hfind

theorem splitInput_eq {delimiter : ByteString} (hne : delimiter ≠ []) (input : ByteString) :
    ∃ pieces, Pieces delimiter input pieces ∧
      splitInput delimiter input input.length = some (nonEmpty pieces) := by
  obtain ⟨pieces, stop, hloop, hpieces⟩ :=
    splitLoop_eq hne input [] (Nat.zero_le input.length) (Nat.sub_zero _).le
  rw [findFrom_zero] at hloop
  rw [List.drop_zero] at hpieces
  refine ⟨_, hpieces, ?_⟩
  rw [splitInput, hloop, Option.map_some, nonEmpty_append, List.nil_append]
  dsimp only
  by_cases hlast : input.drop stop = []
  · rw [if_pos hlast, hlast, nonEmpty_cons_nil, nonEmpty_nil, List.append_nil]
  · rw [if_neg hlast, nonEmpty_cons hlast, nonEmpty_nil]

/-- The empty delimiter is found where the search begins, for ever. -/
theorem splitLoop_nil (input : ByteString) (rounds : ℕ) (tokens : List ByteString) :
    splitLoop [] input rounds 0 (find [] input) tokens = none := by
  have hfind : find [] input = some 0 := find_here [] input
  induction rounds with
  | zero =>
    rw [hfind]
    rfl
  | succ rounds ih =>
    rw [hfind, splitLoop, List.length_nil, Nat.add_zero, findFrom_zero, Nat.sub_self,
      List.take_zero, if_pos rfl]
    exact ih

theorem tokenizes_of_delimiter {config : MinHashAnalyzerConfig}
    (htype : config.analyzerType = lit "delimiter") (hne : delimiterOf config ≠ [])
    (data : ByteString) : ∃ pieces, PiecesOf (delimiterOf config) data pieces ∧
      Tokenizes config data (nonEmpty pieces) := by
  by_cases hspace : delimiterOf config = lit " "
  · refine ⟨data.splitOnP isspace, by rw [PiecesOf, if_pos hspace], data.length + 1, ?_⟩
    rw [tokenize, if_pos htype, if_pos hspace]
    exact iterate_extractWord data (Nat.lt_succ_self _)
  · obtain ⟨pieces, hpieces, hsplit⟩ := splitInput_eq hne data
    refine ⟨pieces, by rwa [PiecesOf, if_neg hspace], data.length, ?_⟩
    rw [tokenize, if_pos htype, if_neg hspace, hsplit]

theorem not_tokenizes_of_nil {config : MinHashAnalyzerConfig}
    (htype : config.analyzerType = lit "delimiter") (hnil : delimiterOf config = [])
    (data : ByteString) (tokens : List ByteString) : ¬ Tokenizes config data tokens := by
  intro ⟨rounds, h⟩
  rw [tokenize, if_pos htype, hnil, if_neg (by decide), splitInput, splitLoop_nil] at h
  cases h

/-- What stops the loops is that there is something to cut at. -/
theorem tokenizes_iff (config : MinHashAnalyzerConfig) (data : ByteString) :
    (∃ tokens, Tokenizes config data tokens) ↔
      config.analyzerType ≠ lit "delimiter" ∨ delimiterOf config ≠ [] := by
  by_cases htype : config.analyzerType = lit "delimiter"
  · by_cases hnil : delimiterOf config = []
    · refine iff_of_false ?_ (by simp [htype, hnil])
      intro ⟨tokens, h⟩
      exact not_tokenizes_of_nil htype hnil data tokens h
    · obtain ⟨pieces, -, h⟩ := tokenizes_of_delimiter htype hnil data
      exact iff_of_true ⟨_, h⟩ (.inr hnil)
  · exact iff_of_true ⟨[], 0, if_neg htype⟩ (.inl htype)

/-! ### The configured delimiter -/

/-- What `make` finds in the configuration text. -/
def configuredDelimiter (args : ByteString) : ByteString :=
  (quotedValue args (lit "delimiter")).getD (lit " ")

theorem quote_notMem_quotedValue {input key found : ByteString}
    (h : quotedValue input key = some found) : quote ∉ found := by
  obtain ⟨pos, -, h⟩ := Option.bind_eq_some_iff.mp h
  obtain ⟨colonPos, -, h⟩ := Option.bind_eq_some_iff.mp h
  obtain ⟨quoteStart, -, h⟩ := Option.bind_eq_some_iff.mp h
  obtain ⟨quoteEnd, hend, rfl⟩ := Option.map_eq_some_iff.mp h
  obtain ⟨i, hfind, rfl⟩ := Option.map_eq_some_iff.mp hend
  obtain ⟨front, rest, htext, hfront, rfl⟩ := find_singleton_iff.mp hfind
  rw [htext, show quoteStart + 1 + front.length - quoteStart - 1 = front.length by omega,
    List.take_left]
  exact hfront

/-- The second search, over what `make` has stored, finds the same. -/
theorem quotedValue_delimiterProperties {delim : ByteString} (h : quote ∉ delim) :
    quotedValue (delimiterProperties delim) (lit "delimiter") = some delim := by
  have htext : delimiterProperties delim =
      lit "\x7b\"delimiter\": \"" ++ (delim ++ quote :: lit "\x7d") := by
    rw [delimiterProperties, List.append_assoc]
    rfl
  have hkey : find (quoted (lit "delimiter")) (delimiterProperties delim) = some 1 := rfl
  have hcolon : findFrom [colon] (delimiterProperties delim) 1 = some 12 := rfl
  have hopen : findFrom [quote] (delimiterProperties delim) (12 + 1) = some 14 := rfl
  have hdrop : (delimiterProperties delim).drop (14 + 1) = delim ++ quote :: lit "\x7d" := by
    rw [htext]
    rfl
  have hclose : findFrom [quote] (delimiterProperties delim) (14 + 1) =
      some (14 + 1 + delim.length) := by
    rw [findFrom, hdrop, find_singleton_iff.mpr ⟨delim, lit "\x7d", rfl, h, rfl⟩, Option.map_some]
  rw [quotedValue, hkey, Option.bind_some, hcolon, Option.bind_some, hopen, Option.bind_some,
    hclose, Option.map_some, hdrop,
    show 14 + 1 + delim.length - 14 - 1 = delim.length by omega, List.take_left]

/-- What `make` stores is what the text is read for. -/
theorem make_analyzerProperties {args : ByteString} {config : MinHashAnalyzerConfig}
    (h : make args = .ok (some config)) : config.analyzerProperties =
      ((quotedValue args (lit "delimiter")).map delimiterProperties).getD
        (delimiterProperties (lit " ")) := by
  rw [make] at h
  split at h
  next hdefault =>
    obtain rfl := Option.some.inj (Except.ok.inj h)
    rcases hdefault with rfl | rfl
    · rfl
    · decide
  next =>
    cases hnumber : makeNumHashes args with
    | error _ =>
      rw [hnumber] at h
      cases h
    | ok numHashes =>
      rw [hnumber] at h
      obtain ⟨n, -, rfl⟩ := Option.map_eq_some_iff.mp (Except.ok.inj h)
      rfl

theorem delimiterOf_make {args : ByteString} {config : MinHashAnalyzerConfig}
    (h : make args = .ok (some config)) : delimiterOf config = configuredDelimiter args := by
  rw [delimiterOf, make_analyzerProperties h, configuredDelimiter]
  cases hvalue : quotedValue args (lit "delimiter") with
  | none =>
    rw [Option.map_none, Option.getD_none, Option.getD_none,
      quotedValue_delimiterProperties (by decide), Option.getD_some]
  | some delim =>
    rw [Option.map_some, Option.getD_some, Option.getD_some,
      quotedValue_delimiterProperties (quote_notMem_quotedValue hvalue), Option.getD_some]

/-- The pieces of the input are one list, and the tokens are its signature. -/
def EmitsPieces (config : MinHashAnalyzerConfig) (delimiter data : ByteString) : Prop :=
  ∃ pieces, (∀ other, PiecesOf delimiter data other ↔ other = pieces) ∧
    Emits config data (slotTokens (configSignature config (nonEmpty pieces)))

theorem emitsPieces_iff {config : MinHashAnalyzerConfig}
    (htype : config.analyzerType = lit "delimiter") (data : ByteString) :
    EmitsPieces config (delimiterOf config) data ↔ delimiterOf config ≠ [] := by
  constructor
  · intro ⟨_, _, hemits⟩ hnil
    obtain ⟨tokens, htokens⟩ := hemits.tokenizes
    exact not_tokenizes_of_nil htype hnil data tokens htokens
  · intro hne
    obtain ⟨pieces, hpieces, htokens⟩ := tokenizes_of_delimiter htype hne data
    refine ⟨pieces, fun other => ⟨fun hother => hother.unique hpieces, ?_⟩, htokens.emits⟩
    intro heq
    exact heq ▸ hpieces

/-- The search for the next delimiter goes on as long as there is one to find:
every delimiter but the empty one comes to the end of the input. -/
theorem reset_emits_pieces_iff (args data : ByteString) (config : MinHashAnalyzerConfig)
    (hmake : make args = .ok (some config)) (htype : config.analyzerType = lit "delimiter") :
    EmitsPieces config (configuredDelimiter args) data ↔ configuredDelimiter args ≠ [] := by
  rw [← delimiterOf_make hmake]
  exact emitsPieces_iff htype data

theorem reset_emits_pieces_comma :
    EmitsPieces { numHashes := 4, analyzerProperties := delimiterProperties (lit ",") } (lit ",")
      (lit "hello,world,,foo") :=
  (reset_emits_pieces_iff (lit "\x7b\"numHashes\": 4, \"delimiter\": \",\"\x7d")
    (lit "hello,world,,foo") _ (by decide +kernel) rfl).mpr (by decide +kernel)

/-- The text `{"delimiter": ""}` is accepted, and no input is ever cut. -/
theorem reset_empty_delimiter :
    ¬ ∀ (args data : ByteString) (config : MinHashAnalyzerConfig),
      make args = .ok (some config) → config.analyzerType = lit "delimiter" →
        EmitsPieces config (configuredDelimiter args) data := by
  intro h
  have hmake : make (lit "\x7b\"delimiter\": \"\"\x7d") =
      .ok (some { analyzerProperties := delimiterProperties [] }) := by decide +kernel
  have hemits := h _ [] _ hmake rfl
  rw [← delimiterOf_make hmake] at hemits
  exact (emitsPieces_iff rfl []).mp hemits (by decide +kernel)

/-! ### Tokens as slots -/

theorem colon_notMem_decimal (n : ℕ) : colon ∉ decimal n := by
  intro h
  have hdigit := decimal_digit n colon h
  exact absurd hdigit (by decide)

/-- The digits in front of the colon are the slot, those behind it the value. -/
theorem slotToken_injective (i j : ℕ) (x y : UInt64) (h : slotToken i x = slotToken j y) :
    i = j ∧ x = y := by
  have hfront := congrArg (List.takeWhile fun b => b ≠ colon) h
  rw [slotToken, slotToken, takeWhile_delimited (colon_notMem_decimal i),
    takeWhile_delimited (colon_notMem_decimal j)] at hfront
  rw [slotToken, slotToken, hfront] at h
  have hvalue := decimal_injective (List.cons.inj (List.append_cancel_left h)).2
  exact ⟨decimal_injective hfront, UInt64.toNat_inj.mp hvalue⟩

theorem slotTokens_eq (sig : List UInt64) : slotTokens sig = tagFrom slotToken 0 sig :=
  tagFrom_eq_zipIdx 0 sig

theorem length_configSignature (config : MinHashAnalyzerConfig) (tokens : List ByteString) :
    (configSignature config tokens).length = config.numHashes.toNat := by
  have hslots := congrArg List.length (minimums_eq
    (generatePermutationSeeds config.numHashes kDefaultMasterSeed) tokens).2
  rw [List.length_map, List.length_map, generatePermutationSeeds, List.length_map,
    List.length_range] at hslots
  exact hslots

/-- Streams of the two inputs that stand for their signatures: as many tokens as
hashes, no token twice, and a common one for each slot that agrees. -/
structure TokensReproduce (config : MinHashAnalyzerConfig) (sig sig' : List UInt64)
    (stream stream' : List ByteString) : Prop where
  slots : sig.length = config.numHashes.toNat ∧ sig'.length = config.numHashes.toNat
  length : stream.length = config.numHashes.toNat ∧ stream'.length = config.numHashes.toNat
  distinct : stream.Nodup ∧ stream'.Nodup
  common : (stream.toFinset ∩ stream'.toFinset).card = (jaccardMatches sig sig').toNat
  estimate : estimateJaccard sig sig' =
    (stream.toFinset ∩ stream'.toFinset).card / config.numHashes.toNat

theorem tokensReproduce_slotTokens (config : MinHashAnalyzerConfig)
    (tokens tokens' : List ByteString) :
    TokensReproduce config (configSignature config tokens) (configSignature config tokens')
      (slotTokens (configSignature config tokens))
      (slotTokens (configSignature config tokens')) := by
  have hlength := length_configSignature config tokens
  have hlength' := length_configSignature config tokens'
  have hlt : (configSignature config tokens).length < 2 ^ 32 := hlength ▸ config.numHashes.toNat_lt
  have hcommon := card_inter_tagFrom slotToken_injective 0 _ _ (hlength.trans hlength'.symm)
  rw [← toNat_jaccardMatches _ hlt] at hcommon
  rw [slotTokens_eq, slotTokens_eq]
  exact
    { slots := ⟨hlength, hlength'⟩
      length := ⟨(length_tagFrom 0 _).trans hlength, (length_tagFrom 0 _).trans hlength'⟩
      distinct := ⟨nodup_tagFrom slotToken_injective 0 _, nodup_tagFrom slotToken_injective 0 _⟩
      common := hcommon
      estimate := by
        rw [hcommon, ← hlength]
        exact estimateJaccard_eq (hlength.trans hlength'.symm) }

/-- The signature that `reset` computes. -/
def Signs (config : MinHashAnalyzerConfig) (data : ByteString) (sig : List UInt64) : Prop :=
  ∃ tokens, Tokenizes config data tokens ∧ sig = configSignature config tokens

/-- Comparing tokens is comparing signatures, for all inputs and configurations
but those whose tokenizer cuts at the empty delimiter. -/
theorem tokens_reproduce_signatures_iff (config : MinHashAnalyzerConfig) (data data' : ByteString) :
    (∃ sig sig' stream stream', Signs config data sig ∧ Signs config data' sig' ∧
      Emits config data stream ∧ Emits config data' stream' ∧
      TokensReproduce config sig sig' stream stream') ↔
      config.analyzerType ≠ lit "delimiter" ∨ delimiterOf config ≠ [] := by
  constructor
  · intro ⟨_, _, _, _, ⟨tokens, htokens, _⟩, _⟩
    exact (tokenizes_iff config data).mp ⟨tokens, htokens⟩
  · intro h
    obtain ⟨tokens, htokens⟩ := (tokenizes_iff config data).mpr h
    obtain ⟨tokens', htokens'⟩ := (tokenizes_iff config data').mpr h
    exact ⟨_, _, _, _, ⟨tokens, htokens, rfl⟩, ⟨tokens', htokens', rfl⟩, htokens.emits,
      htokens'.emits, tokensReproduce_slotTokens config tokens tokens'⟩

/-- The analyzer that cuts at the empty delimiter has no stream at all. -/
theorem tokens_empty_delimiter :
    ¬ ∀ (config : MinHashAnalyzerConfig) (data data' : ByteString), 1 ≤ config.numHashes.toNat →
      ∃ sig sig' stream stream', Signs config data sig ∧ Signs config data' sig' ∧
        Emits config data stream ∧ Emits config data' stream' ∧
        TokensReproduce config sig sig' stream stream' := by
  intro h
  obtain ⟨_, _, _, _, ⟨tokens, htokens, _⟩, _⟩ :=
    h { analyzerProperties := delimiterProperties [] } [] [] (by decide)
  exact not_tokenizes_of_nil rfl (by decide +kernel) [] tokens htokens

end MinHashAnalyzer
end OpenArangoDBCore.IResearch
