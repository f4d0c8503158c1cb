import OpenArangoDBCore.Maskings.AttributeMasking

/-!
# Documented masking configurations

The layout that AttributeMasking.h documents, as tokens with whitespace in
front of each. Names have letters, digits, `_` and `.` only.
-/

namespace OpenArangoDBCore.Maskings
open AttributeMasking TextSearch

def isNameByte (b : Byte) : Bool :=
  (0x30 ≤ b.val ∧ b.val ≤ 0x39) ∨ (0x41 ≤ b.val ∧ b.val ≤ 0x5A) ∨
    (0x61 ≤ b.val ∧ b.val ≤ 0x7A) ∨ b.val = 0x5F ∨ b.val = 0x2E

abbrev Name := {s : ByteString // s.all isNameByte = true}

/-- Whitespace of JSON. -/
def isJsonSpace (b : Byte) : Bool := b.val = 0x20 ∨ b.val = 0x09 ∨ b.val = 0x0A ∨ b.val = 0x0D

abbrev Gap := {s : ByteString // s.all isJsonSpace = true}

inductive Token where
  | openBrace
  | closeBrace
  | openBracket
  | closeBracket
  | comma
  | colon
  | str (name : Name)
  deriving DecidableEq

def Token.text : Token → ByteString
  | .openBrace => [AttributeMasking.openBrace]
  | .closeBrace => [AttributeMasking.closeBrace]
  | .openBracket => [AttributeMasking.openBracket]
  | .closeBracket => [AttributeMasking.closeBracket]
  | .comma => [AttributeMasking.comma]
  | .colon => [AttributeMasking.colon]
  | .str name => quoted name.val

/-- A token with the whitespace in front of it. -/
abbrev Piece := Gap × Token

def print (pieces : List Piece) : ByteString := pieces.flatMap fun p => p.1.val ++ p.2.text

def tokensOf (pieces : List Piece) : List Token := pieces.map Prod.snd

@[simp] theorem print_nil : print [] = [] := rfl

@[simp] theorem print_cons (p : Piece) (pieces : List Piece) :
    print (p :: pieces) = p.1.val ++ (p.2.text ++ print pieces) := by
  rw [print, List.flatMap_cons, List.append_assoc]
  rfl

@[simp] theorem print_append (pieces more : List Piece) :
    print (pieces ++ more) = print pieces ++ print more := List.flatMap_append

/-! ### Documents -/

def collectionsKey : Name := ⟨lit "collections", by decide⟩
def rulesKey : Name := ⟨lit "rules", by decide⟩
def pathKey : Name := ⟨lit "path", by decide⟩
def typeKey : Name := ⟨lit "type", by decide⟩
def rolesKey : Name := ⟨lit "roles", by decide⟩

/-- Roles are optional; an empty list can be printed or not. -/
structure DocumentRule where
  path : Name
  type : Name
  roles : List Name
  printsRoles : Bool
  path_ne_nil : path.val ≠ []
  type_ne_nil : type.val ≠ []
  printsRoles_of_ne : roles ≠ [] → printsRoles = true

structure DocumentCollection where
  name : Name
  rules : List DocumentRule

structure Document where
  collections : List DocumentCollection
  nodup : (collections.map DocumentCollection.name).Nodup

def DocumentRule.rule (r : DocumentRule) : MaskingRule :=
  ⟨r.path.val, r.type.val, r.roles.map Subtype.val⟩

def DocumentCollection.config (c : DocumentCollection) : CollectionMaskingConfig :=
  ⟨c.name.val, c.rules.map DocumentRule.rule⟩

def Document.configs (doc : Document) : List CollectionMaskingConfig :=
  doc.collections.map DocumentCollection.config

/-- With commas between them. -/
def separated (items : List (List Token)) : List Token := [Token.comma].intercalate items

def DocumentRule.rolesTokens (r : DocumentRule) : List Token :=
  if r.printsRoles then
    [.comma, .str rolesKey, .colon, .openBracket] ++
      (separated (r.roles.map fun name => [.str name]) ++ [.closeBracket])
  else []

def DocumentRule.tokens (r : DocumentRule) : List Token :=
  [.openBrace, .str pathKey, .colon, .str r.path, .comma, .str typeKey, .colon, .str r.type] ++
    (r.rolesTokens ++ [.closeBrace])

def DocumentCollection.tokens (c : DocumentCollection) : List Token :=
  [.str c.name, .colon, .openBrace, .str rulesKey, .colon, .openBracket] ++
    (separated (c.rules.map DocumentRule.tokens) ++ [.closeBracket, .closeBrace])

def documentOpening : List Token := [.openBrace, .str collectionsKey, .colon, .openBrace]

def Document.tokens (doc : Document) : List Token :=
  documentOpening ++
    (separated (doc.collections.map DocumentCollection.tokens) ++ [.closeBrace, .closeBrace])

/-- A text of the document, with any whitespace. -/
structure Layout (doc : Document) where
  pieces : List Piece
  trailing : Gap
  tokensOf_pieces : tokensOf pieces = doc.tokens

def Layout.text {doc : Document} (layout : Layout doc) : ByteString :=
  print layout.pieces ++ layout.trailing.val

/-! ### Where names are found -/

/-- The first opening brace behind the first occurrence of the name. -/
def braceBehind (name : Name) (tokens : List Token) : Option ℕ :=
  (find [.str name] tokens).bind (findFrom [.openBrace] tokens)

/-- What stands between the opening of the document and collection number `k`. -/
def Document.before (doc : Document) (k : ℕ) : List Token :=
  (doc.collections.take k).flatMap fun c => c.tokens ++ [.comma]

/-- What stands behind collection number `k`. -/
def Document.behind (doc : Document) (k : ℕ) : List Token :=
  ((doc.collections.drop (k + 1)).flatMap fun c => [.comma] ++ c.tokens) ++
    [.closeBrace, .closeBrace]

/-- Where the object of collection number `k` begins. -/
def Document.brace (doc : Document) (k : ℕ) : ℕ :=
  (documentOpening ++ doc.before k).length + 2

/-- The name of every collection but the last leads to its own object, and the
last one's not to that of an earlier collection. -/
def Document.Located (doc : Document) : Prop :=
  ∀ k c, doc.collections[k]? = some c →
    if k + 1 < doc.collections.length then braceBehind c.name doc.tokens = some (doc.brace k)
    else ∀ j < k, braceBehind c.name doc.tokens ≠ some (doc.brace j)

/-- A rule for the path `type` has the type `type`. -/
def Document.TypesReadable (doc : Document) : Prop :=
  ∀ c ∈ doc.collections, ∀ r ∈ c.rules, r.path = typeKey → r.type = typeKey

end OpenArangoDBCore.Maskings
