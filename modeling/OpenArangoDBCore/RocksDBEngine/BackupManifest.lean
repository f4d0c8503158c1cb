import OpenArangoDBCore.Basics
import OpenArangoDBCore.Lib.Delimited

/-!
# The manifest of a backup (RocksDBHotBackup.h, RocksDBHotBackup.cpp)

`find` is used for what follows the text found. The one exception that the
parsing can throw is `std::out_of_range` of `std::stoull`.
-/

namespace OpenArangoDBCore.RocksDBEngine

structure HotBackupResult where
  ok : Bool
  errorNumber : ℤ
  errorMessage : ByteString
  deriving DecidableEq

namespace HotBackupResult

def success : HotBackupResult := ⟨true, 0, []⟩
def error (code : ℤ) (msg : ByteString) : HotBackupResult := ⟨false, code, msg⟩
def notFound (msg : ByteString) : HotBackupResult := ⟨false, 404, msg⟩
def badRequest (msg : ByteString) : HotBackupResult := ⟨false, 400, msg⟩

end HotBackupResult

structure BackupManifest where
  backupId : ByteString := []
  timestamp : ByteString := []
  version : ByteString := []
  sequenceNumber : UInt64 := 0
  collections : List ByteString := []
  path : ByteString := []
  isConsistent : Bool := false
  deriving DecidableEq

inductive OutOfRange where
  | stoull
  deriving DecidableEq

namespace BackupManifest

def quote : Byte := 0x22

def quoted (s : ByteString) : ByteString := quote :: s ++ [quote]

def toJson (m : BackupManifest) : ByteString :=
  lit "\x7b\n" ++
    (lit "  \"backupId\": \"" ++ m.backupId ++ lit "\",\n") ++
    (lit "  \"timestamp\": \"" ++ m.timestamp ++ lit "\",\n") ++
    (lit "  \"version\": \"" ++ m.version ++ lit "\",\n") ++
    (lit "  \"sequenceNumber\": " ++ decimal m.sequenceNumber.toNat ++ lit ",\n") ++
    (lit "  \"path\": \"" ++ m.path ++ lit "\",\n") ++
    (lit "  \"isConsistent\": " ++ (if m.isConsistent then lit "true" else lit "false") ++
      lit ",\n") ++
    (lit "  \"collections\": [" ++ (lit ", ").intercalate (m.collections.map quoted) ++
      lit "]\n") ++
    lit "\x7d"

/-- What follows the first occurrence of the key. -/
def afterFirst (key : ByteString) : ByteString → Option ByteString
  | [] => if key = [] then some [] else none
  | b :: rest =>
    if key.isPrefixOf (b :: rest) then some ((b :: rest).drop key.length)
    else afterFirst key rest

theorem afterFirst_eq (key text : ByteString) : afterFirst key text =
    Delimited.findAfter key text := by
  induction text with
  | nil => rfl
  | cons b rest ih =>
    unfold afterFirst Delimited.findAfter
    rw [ih]

def extractStringField (json field : ByteString) : ByteString :=
  match afterFirst (quoted field ++ lit ": \"") json with
  | none => []
  | some rest => if quote ∈ rest then rest.takeWhile (· ≠ quote) else []

def hasField (json field : ByteString) : Bool := (afterFirst (quoted field) json).isSome

def isDigit (b : Byte) : Bool := 0x30 ≤ b.val ∧ b.val ≤ 0x39

def stoull (digits : ByteString) : Except OutOfRange UInt64 :=
  let value := digits.foldl (fun n b => 10 * n + (b.val - 0x30)) 0
  if value < 2 ^ 64 then .ok (UInt64.ofNat value) else .error .stoull

theorem stoull_eq (digits : ByteString) : stoull digits =
    if digitsValue digits < 2 ^ 64 then .ok (UInt64.ofNat (digitsValue digits))
    else .error .stoull := rfl

theorem stoull_decimal (n : UInt64) : stoull (decimal n.toNat) = .ok n := by
  rw [stoull_eq, digitsValue_decimal, if_pos n.toNat_lt, UInt64.ofNat_toNat]

def extractUint64Field (json field : ByteString) : Except OutOfRange UInt64 :=
  match afterFirst (quoted field ++ lit ": ") json with
  | none => .ok 0
  | some rest =>
    let digits := rest.takeWhile isDigit
    if digits = [] then .ok 0 else stoull digits

def extractBoolField (json field : ByteString) : Bool :=
  match afterFirst (quoted field ++ lit ": ") json with
  | none => false
  | some rest => rest.take 4 = lit "true"

/-- The strings between quotes, `none` outside of one; what is not closed is dropped. -/
def quotedItems : Option ByteString → ByteString → List ByteString
  | _, [] => []
  | none, b :: rest => if b = quote then quotedItems (some []) rest else quotedItems none rest
  | some item, b :: rest =>
    if b = quote then item :: quotedItems none rest else quotedItems (some (item ++ [b])) rest

def extractStringArray (json field : ByteString) : List ByteString :=
  match afterFirst (quoted field ++ lit ": [") json with
  | none => []
  | some rest =>
    if 0x5D ∈ rest then quotedItems none (rest.takeWhile (· ≠ 0x5D)) else []

/-- The answer and `out`. -/
def fromJson (json : ByteString) (out : BackupManifest) :
    Except OutOfRange (HotBackupResult × BackupManifest) := do
  if json = [] then return (.badRequest (lit "Empty JSON input"), out)
  if hasField json (lit "backupId") = false then
    return (.badRequest (lit "Missing required field: backupId"), out)
  if hasField json (lit "timestamp") = false then
    return (.badRequest (lit "Missing required field: timestamp"), out)
  let sequenceNumber ← extractUint64Field json (lit "sequenceNumber")
  let out : BackupManifest := {
    backupId := extractStringField json (lit "backupId")
    timestamp := extractStringField json (lit "timestamp")
    version := extractStringField json (lit "version")
    sequenceNumber := sequenceNumber
    path := extractStringField json (lit "path")
    isConsistent := extractBoolField json (lit "isConsistent")
    collections := extractStringArray json (lit "collections") }
  if out.backupId = [] then return (.badRequest (lit "backupId cannot be empty"), out)
  if out.timestamp = [] then return (.badRequest (lit "timestamp cannot be empty"), out)
  return (.success, out)

end BackupManifest
end OpenArangoDBCore.RocksDBEngine
