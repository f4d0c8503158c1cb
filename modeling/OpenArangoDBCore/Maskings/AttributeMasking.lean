import OpenArangoDBCore.Basics
import OpenArangoDBCore.Lib.Iterate
import OpenArangoDBCore.Lib.TextSearch
import OpenArangoDBCore.Maskings.DigitMasks

/-!
# Loading the masking configuration (AttributeMasking.cpp)

Positions are indices into the text; `json[pos]` at the end of the text is the
terminating zero, which is none of the characters that the parser looks for. The
depth of brackets is an `int`: where it overflows, nothing is promised, and
neither is anything of what the parser does with it (`none`).
-/

namespace OpenArangoDBCore.Maskings
open TextSearch Iterate

structure MaskingRule where
  path : ByteString
  type : ByteString
  roles : List ByteString
  deriving DecidableEq

structure CollectionMaskingConfig where
  collectionName : ByteString
  rules : List MaskingRule
  deriving DecidableEq

namespace AttributeMasking

def quote : Byte := 0x22
def backslash : Byte := 0x5C
def comma : Byte := 0x2C
def colon : Byte := 0x3A
def openBrace : Byte := 0x7B
def closeBrace : Byte := 0x7D
def openBracket : Byte := 0x5B
def closeBracket : Byte := 0x5D

def quoted (s : ByteString) : ByteString := quote :: (s ++ [quote])

/-- `std::isspace` in the C locale. -/
def isspace (b : Byte) : Bool := b.val = 0x20 ∨ (0x09 ≤ b.val ∧ b.val ≤ 0x0D)

/-- The string and how many bytes it takes with its closing quote. -/
def scanString : ByteString → ByteString × ℕ
  | [] => ([], 0)
  | b :: rest =>
    if b = quote then ([], 1)
    else if b = backslash then
      match rest with
      | [] => ([b], 1)
      | c :: rest => (c :: (scanString rest).1, (scanString rest).2 + 2)
    else (b :: (scanString rest).1, (scanString rest).2 + 1)

/-- The result and the position that `pos` is advanced to. -/
def extractString (json : ByteString) (pos : ℕ) : ByteString × ℕ :=
  ((scanString (json.drop pos)).1, pos + (scanString (json.drop pos)).2)

def skipWs (json : ByteString) (pos : ℕ) : ℕ := pos + ((json.drop pos).takeWhile isspace).length

/-- How many bytes the loops of `findMatchingBrace` pass, at this depth, in a
string or not. An escape at the end of the text is passed as two bytes. -/
def scanBraces (opening closing : Byte) :
    (inString : Bool) → (depth : ℕ) → ByteString → Option ℕ
  | _, _, [] => some 0
  | true, depth, b :: rest =>
    if b = quote then (scanBraces opening closing false depth rest).map (· + 1)
    else if b = backslash then
      match rest with
      | [] => some 2
      | _ :: rest => (scanBraces opening closing true depth rest).map (· + 2)
    else (scanBraces opening closing true depth rest).map (· + 1)
  | false, depth, b :: rest =>
    if b = quote then (scanBraces opening closing true depth rest).map (· + 1)
    else
      (if b = opening then increment depth else some depth).bind fun depth =>
        let depth := if b = closing then depth - 1 else depth
        if 0 < depth then (scanBraces opening closing false depth rest).map (· + 1) else some 0

def findMatchingBrace (json : ByteString) (start : ℕ) (opening closing : Byte) : Option ℕ :=
  (scanBraces opening closing false 1 (json.drop start)).map (start + ·)

/-- Whitespace and a comma in front of `limit`. -/
def skipComma (json : ByteString) (limit pos : ℕ) : ℕ :=
  let pos := skipWs json pos
  if pos < limit ∧ json[pos]? = some comma then pos + 1 else pos

theorem le_skipWs (json : ByteString) (pos : ℕ) : pos ≤ skipWs json pos := Nat.le_add_right _ _

theorem le_extractString (json : ByteString) (pos : ℕ) : pos ≤ (extractString json pos).2 :=
  Nat.le_add_right _ _

theorem le_findMatchingBrace {json : ByteString} {start stop : ℕ} {opening closing : Byte}
    (h : findMatchingBrace json start opening closing = some stop) : start ≤ stop := by
  obtain ⟨passed, -, rfl⟩ := Option.map_eq_some_iff.mp h
  exact Nat.le_add_right _ _

theorem le_skipComma (json : ByteString) (limit pos : ℕ) : pos ≤ skipComma json limit pos := by
  have hle := le_skipWs json pos
  unfold skipComma
  dsimp only
  split <;> omega

/-! ### Rules -/

/-- The string behind the first occurrence of a key, if there is one. -/
def stringField (ruleStr key : ByteString) : ByteString :=
  match find (quoted key) ruleStr with
  | none => []
  | some keyPos =>
    match findFrom [quote] ruleStr (keyPos + (quoted key).length) with
    | none => []
    | some qStart => (extractString ruleStr (qStart + 1)).1

/-- The loop over the roles, from `rp` on. -/
def rolesLoop (ruleStr : ByteString) (rolesArrayEnd rp : ℕ) : List ByteString :=
  if rp < rolesArrayEnd then
    if skipWs ruleStr rp < rolesArrayEnd ∧ ruleStr[skipWs ruleStr rp]? = some quote then
      (extractString ruleStr (skipWs ruleStr rp + 1)).1 ::
        rolesLoop ruleStr rolesArrayEnd (extractString ruleStr (skipWs ruleStr rp + 1)).2
    else rolesLoop ruleStr rolesArrayEnd (skipWs ruleStr rp + 1)
  else []
termination_by rolesArrayEnd - rp
decreasing_by
  · have hskip := le_skipWs ruleStr rp
    have hextract := le_extractString ruleStr (skipWs ruleStr rp + 1)
    omega
  · have hskip := le_skipWs ruleStr rp
    omega

/-- `rolesArrayStart` -/
def rolesArray (ruleStr : ByteString) : Option ℕ :=
  (find (quoted (lit "roles")) ruleStr).bind (findFrom [openBracket] ruleStr)

def rolesField (ruleStr : ByteString) : Option (List ByteString) :=
  match rolesArray ruleStr with
  | none => some []
  | some rolesArrayStart =>
    (findMatchingBrace ruleStr (rolesArrayStart + 1) openBracket closeBracket).map
      fun rolesArrayEnd => rolesLoop ruleStr rolesArrayEnd (rolesArrayStart + 1)

def parseRule (ruleStr : ByteString) : Option MaskingRule :=
  (rolesField ruleStr).map fun roles =>
    ⟨stringField ruleStr (lit "path"), stringField ruleStr (lit "type"), roles⟩

/-- The loop over the rule objects, from `rulePos` on. -/
def rulesLoop (json : ByteString) (arrayEnd rulePos : ℕ) : Option (List MaskingRule) :=
  if rulePos < arrayEnd then
    let rulePos' := skipWs json rulePos
    if arrayEnd ≤ rulePos' ∨ json[rulePos']? ≠ some openBrace then
      rulesLoop json arrayEnd (rulePos' + 1)
    else
      match hend : findMatchingBrace json (rulePos' + 1) openBrace closeBrace with
      | none => none
      | some ruleEnd =>
        (parseRule ((json.drop rulePos').take (ruleEnd - rulePos' + 1))).bind fun rule =>
          (rulesLoop json arrayEnd (skipComma json arrayEnd (ruleEnd + 1))).map fun rest =>
            if rule.path ≠ [] ∧ rule.type ≠ [] then rule :: rest else rest
  else some []
termination_by arrayEnd - rulePos
decreasing_by
  · have hskip := le_skipWs json rulePos
    omega
  · have hskip := le_skipWs json rulePos
    have hbrace := le_findMatchingBrace hend
    have hcomma := le_skipComma json arrayEnd (ruleEnd + 1)
    omega

/-! ### Collections -/

/-- The name of the collection at `pos` and the position behind its colon. -/
def collectionHeader (json : ByteString) (collectionsEnd pos : ℕ) : Option (ByteString × ℕ) :=
  let pos := skipWs json pos
  if collectionsEnd ≤ pos ∨ json[pos]? ≠ some quote then none
  else
    let name := extractString json (pos + 1)
    let pos := skipWs json name.2
    let pos := if json[pos]? = some colon then pos + 1 else pos
    some (name.1, skipWs json pos)

/-- `arrayStart` -/
def rulesArray (json : ByteString) (collectionsEnd pos : ℕ) : Option ℕ :=
  (findFrom (quoted (lit "rules")) json pos).bind fun rulesKeyPos =>
    if rulesKeyPos < collectionsEnd then findFrom [openBracket] json rulesKeyPos else none

/-- The rules of the collection and the position that is left. -/
def collectionRules (json : ByteString) (collectionsEnd pos : ℕ) :
    Option (List MaskingRule × ℕ) :=
  match rulesArray json collectionsEnd pos with
  | none => some ([], pos)
  | some arrayStart =>
    (findMatchingBrace json (arrayStart + 1) openBracket closeBracket).bind fun arrayEnd =>
      (rulesLoop json arrayEnd (arrayStart + 1)).map fun rules => (rules, arrayEnd + 1)

/-- `collObjStart` -/
def objectStart (json collName : ByteString) : Option ℕ :=
  (find (quoted collName) json).bind (findFrom [openBrace] json)

/-- Behind the object of the collection, or `pos` if there is none. -/
def objectEnd (json collName : ByteString) (pos : ℕ) : Option ℕ :=
  match objectStart json collName with
  | none => some pos
  | some collObjStart =>
    (findMatchingBrace json (collObjStart + 1) openBrace closeBrace).map (· + 1)

/-- One round of the loop over the collections: the configuration and the next
`pos`, or the end of the loop. -/
def parseCollection (json : ByteString) (collectionsEnd pos : ℕ) :
    Option (Option (CollectionMaskingConfig × ℕ)) :=
  match collectionHeader json collectionsEnd pos with
  | none => some none
  | some header =>
    (collectionRules json collectionsEnd header.2).bind fun rules =>
      (objectEnd json header.1 rules.2).map fun pos =>
        some (⟨header.1, rules.1⟩, skipComma json collectionsEnd pos)

/-- `bracePos` -/
def collectionsBrace (json : ByteString) : Option ℕ :=
  (find (quoted (lit "collections")) json).bind fun collectionsPos =>
    findFrom [openBrace] json (collectionsPos + 14)

/-- `none` if the loop over the collections is not over after so many rounds. -/
def loadConfigFromJson (rounds : ℕ) (json : ByteString) : Option (List CollectionMaskingConfig) :=
  match collectionsBrace json with
  | none => some []
  | some bracePos =>
    (findMatchingBrace json (bracePos + 1) openBrace closeBrace).bind fun collectionsEnd =>
      attempt (parseCollection json collectionsEnd) rounds (bracePos + 1)

end AttributeMasking
end OpenArangoDBCore.Maskings
