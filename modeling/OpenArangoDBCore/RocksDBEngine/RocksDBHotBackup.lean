import OpenArangoDBCore.Lib.FileTree
import OpenArangoDBCore.RocksDBEngine.BackupManifest

/-!
# Hot backups (RocksDBHotBackup.cpp)

The file system is a tree without links and `cwd` the working directory. The
functions of `std::filesystem` resolve the C string of their path.
-/

namespace OpenArangoDBCore.RocksDBEngine.RocksDBHotBackup
open FileTree

/-! ### Clock -/

/-- `std::tm` with the full year and the months from 1. -/
structure Tm where
  year : ℤ
  mon : ℤ
  mday : ℤ
  hour : ℤ
  min : ℤ
  sec : ℤ
  deriving DecidableEq

/-- The date in the calendar whose years begin in March, in eras of 400 years. -/
def gmtime (timeT : ℤ) : Tm :=
  let z := timeT / 86400 + 719468
  let doe := z % 146097
  let yoe := (doe - doe / 1460 + doe / 36524 - doe / 146096) / 365
  let doy := doe - (365 * yoe + yoe / 4 - yoe / 100)
  let mp := (5 * doy + 2) / 153
  let mon := if mp < 10 then mp + 3 else mp - 9
  let sod := timeT % 86400
  { year := yoe + z / 146097 * 400 + if mon ≤ 2 then 1 else 0
    mon := mon
    mday := doy - (153 * mp + 2) / 5 + 1
    hour := sod / 3600
    min := sod / 60 % 60
    sec := sod % 60 }

def setw (width : ℕ) (s : ByteString) : ByteString :=
  List.replicate (width - s.length) 0x30 ++ s

/-- `std::put_time` with `%Y-%m-%dT%H.%M.%S` for the separator `.` of the time. -/
def putTime (tm : Tm) (sep : ByteString) : ByteString :=
  decimalInt tm.year ++ lit "-" ++ setw 2 (decimalInt tm.mon) ++ lit "-" ++
    setw 2 (decimalInt tm.mday) ++ lit "T" ++ setw 2 (decimalInt tm.hour) ++ sep ++
    setw 2 (decimalInt tm.min) ++ sep ++ setw 2 (decimalInt tm.sec)

/-- `to_time_t`; the clock counts nanoseconds. -/
def toTimeT (now : ℤ) : ℤ := now.tdiv 1000000000

def generateBackupId (now : ℤ) : ByteString :=
  let us := (now.tdiv 1000).tmod 1000000
  putTime (gmtime (toTimeT now)) (lit ".") ++ lit "." ++ setw 6 (decimalInt us)

def IdByte (b : Byte) : Prop :=
  (0x30 ≤ b.val ∧ b.val ≤ 0x39) ∨ b = 0x2D ∨ b = 0x2E ∨ b = 0x54

theorem decimal_idByte (n : ℕ) : ∀ b ∈ decimal n, IdByte b :=
  fun b hb => .inl (decimal_digit n b hb)

theorem decimalInt_idByte (n : ℤ) : ∀ b ∈ decimalInt n, IdByte b := by
  intro b hb
  unfold decimalInt at hb
  split at hb
  · rcases List.mem_append.mp hb with hb | hb
    · rw [show lit "-" = [0x2D] from rfl, List.mem_singleton] at hb
      exact .inr (.inl hb)
    · exact decimal_idByte _ b hb
  · exact decimal_idByte _ b hb

theorem setw_idByte (width : ℕ) (n : ℤ) : ∀ b ∈ setw width (decimalInt n), IdByte b := by
  intro b hb
  rcases List.mem_append.mp hb with hb | hb
  · rw [List.eq_of_mem_replicate hb]
    exact .inl (by decide)
  · exact decimalInt_idByte n b hb

theorem isName_generateBackupId (now : ℤ) : IsName (generateBackupId now) := by
  have hbytes : ∀ b ∈ generateBackupId now, IdByte b := by
    have hlits : (∀ b ∈ lit "-", IdByte b) ∧ (∀ b ∈ lit ".", IdByte b) ∧
        ∀ b ∈ lit "T", IdByte b := by
      unfold IdByte
      decide +kernel
    simp only [generateBackupId, putTime, List.forall_mem_append]
    exact ⟨⟨⟨⟨⟨⟨⟨⟨⟨⟨⟨⟨decimalInt_idByte _, hlits.1⟩, setw_idByte _ _⟩, hlits.1⟩, setw_idByte _ _⟩,
      hlits.2.2⟩, setw_idByte _ _⟩, hlits.2.1⟩, setw_idByte _ _⟩, hlits.2.1⟩, setw_idByte _ _⟩,
      hlits.2.1⟩, setw_idByte _ _⟩
  have hT : (0x54 : Byte) ∈ generateBackupId now := by
    simp [generateBackupId, putTime, show lit "T" = [0x54] from rfl]
  refine ⟨?_, ?_, ?_, ?_, ?_⟩
  · intro h
    rw [h] at hT
    cases hT
  · intro h
    rw [h] at hT
    exact absurd hT (by decide)
  · intro h
    rw [h] at hT
    exact absurd hT (by decide)
  · intro h
    exact absurd (hbytes _ h) (by unfold IdByte; decide)
  · intro h
    exact absurd (hbytes _ h) (by unfold IdByte; decide)

/-! ### File system -/

theorem c_str_child {s : ByteString} {n : Name} (hs : 0 ∉ s) (hn : IsName n) :
    (c_str (s ++ lit "/" ++ n)).val = s ++ slash :: n := by
  have hlit : s ++ lit "/" ++ n = s ++ slash :: n := by
    rw [List.append_assoc]
    rfl
  rw [hlit]
  apply c_str_of_no_zero
  intro hmem
  rcases List.mem_append.mp hmem with hmem | hmem
  · exact hs hmem
  · rcases List.mem_cons.mp hmem with hmem | hmem
    · exact absurd hmem (by decide)
    · exact hn.2.2.2.2 hmem

section FileSystem
variable (cwd : Path)

def fsExists (path : ByteString) (t : Tree) : Bool := (resolve cwd t (c_str path).val).isSome

/-- The message of the error code, which is never set, and the tree. -/
def fsRemoveAll (path : ByteString) (t : Tree) : Option ByteString × Tree :=
  match resolve cwd t (c_str path).val with
  | some p => (none, t.remove p)
  | none => (none, t)

def message : Errno → ByteString
  | .noEntry => lit "No such file or directory"
  | .notDirectory => lit "Not a directory"

def fsCreateDirectories (path : ByteString) (t : Tree) : Made :=
  let s := (c_str path).val
  if s = [] then ⟨some .noEntry, [], t⟩ else makeDirs t (origin cwd s) (components s)

def fsIsDirectory (path : ByteString) (t : Tree) : Bool :=
  (resolve cwd t (c_str path).val).bind t.node = some .directory

/-- `std::ifstream`; a directory can be opened and has nothing to read. -/
def readFile (path : ByteString) (t : Tree) : Option ByteString :=
  match (resolve cwd t (c_str path).val).bind t.node with
  | none => none
  | some .directory => some []
  | some (.file content) => some content

def entryPath (directory : ByteString) (name : Name) : ByteString :=
  if directory.getLast? = some slash then directory ++ name else directory ++ lit "/" ++ name

/-! ### Backups -/

def loadFromFile (manifestPath : ByteString) (out : BackupManifest) (t : Tree) :
    Except OutOfRange (HotBackupResult × BackupManifest) :=
  match readFile cwd manifestPath t with
  | none => .ok (.notFound (lit "Manifest file not found: " ++ manifestPath), out)
  | some json =>
    if json = [] then .ok (.badRequest (lit "Manifest file is empty: " ++ manifestPath), out)
    else BackupManifest.fromJson json out

def removeDirectory (path : ByteString) (t : Tree) : HotBackupResult × Tree :=
  match fsRemoveAll cwd path t with
  | (some message, t) => (.error 500 (lit "Failed to remove directory: " ++ path ++ lit " (" ++
      message ++ lit ")"), t)
  | (none, t) => (.success, t)

variable (backupBasePath : ByteString)

def backupPath (backupId : ByteString) : ByteString := backupBasePath ++ lit "/" ++ backupId

def listEntry (t : Tree) (base : Path) (name : Name) :
    Except OutOfRange (Option BackupManifest) := do
  if t.node (base ++ [name]) ≠ some .directory then return none
  let manifestPath := entryPath backupBasePath name ++ lit "/MANIFEST.json"
  let (res, manifest) ← loadFromFile cwd manifestPath {} t
  return if res.ok then some manifest else none

/-- The answer and `out`. The names are those of the base directory, in the
order in which the iterator gives them. -/
def list (names : List Name) (t : Tree) :
    Except OutOfRange (HotBackupResult × List BackupManifest) := do
  match resolve cwd t (c_str backupBasePath).val with
  | none => return (.success, [])
  | some base =>
    let out ← names.filterMapM (listEntry cwd backupBasePath t base)
    return (.success, out.mergeSort fun a b => a.timestamp ≤ b.timestamp)

def deleteBackup (backupId : ByteString) (t : Tree) : HotBackupResult × Tree :=
  let dir := backupPath backupBasePath backupId
  if fsExists cwd dir t = false then (.notFound (lit "Backup not found: " ++ backupId), t)
  else removeDirectory cwd dir t

end FileSystem
end OpenArangoDBCore.RocksDBEngine.RocksDBHotBackup
