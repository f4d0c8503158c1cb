import OpenArangoDBCore.Basics
import OpenArangoDBCore.Lib.Lines
import OpenArangoDBCore.Lib.Patterns

/-!
# The rclone process (RCloneProcess.cpp)

The child is given by what `pipe` and `posix_spawn` answer, by what each call
of `poll` and the reads behind it come to, and by how it ended.
-/

namespace OpenArangoDBCore.RClone
open Lines Patterns

inductive CloudProvider where
  | kS3
  | kAzureBlob
  | kGCS
  deriving DecidableEq

def cloudProviderToRCloneType : CloudProvider → ByteString
  | .kS3 => lit "s3"
  | .kAzureBlob => lit "azureblob"
  | .kGCS => lit "google cloud storage"

structure RCloneConfig where
  provider : CloudProvider
  endpoint : ByteString
  bucket : ByteString
  pathPrefix : ByteString
  region : ByteString
  rcloneBinaryPath : ByteString
  timeoutSeconds : UInt64
  transfers : UInt32
  retries : UInt32
  accessKeyId : ByteString
  secretAccessKey : ByteString
  azureAccount : ByteString
  azureKey : ByteString
  gcsServiceAccountFile : ByteString
  deriving DecidableEq

structure RCloneResult where
  exitCode : ℤ
  stdoutOutput : ByteString
  stderrOutput : ByteString
  timedOut : Bool
  deriving DecidableEq

namespace RCloneProcess

def buildCommand (config : RCloneConfig) (localPath : ByteString) : List ByteString :=
  let remoteDest := lit "remote:" ++ config.bucket
  let remoteDest :=
    if config.pathPrefix ≠ [] then remoteDest ++ lit "/" ++ config.pathPrefix else remoteDest
  [config.rcloneBinaryPath, lit "copy", localPath, remoteDest, lit "--progress", lit "--stats",
    lit "1s", lit "--transfers", decimal config.transfers.toNat, lit "--retries",
    decimal config.retries.toNat, lit "--timeout", decimal config.timeoutSeconds.toNat ++ lit "s",
    lit "--log-level", lit "INFO"]

abbrev Environment := UnorderedMap ByteString ByteString

def buildEnvironment (config : RCloneConfig) : Environment :=
  let env : Environment := AList.insert (lit "RCLONE_CONFIG_REMOTE_TYPE")
    (cloudProviderToRCloneType config.provider) ∅
  match config.provider with
  | .kS3 =>
    let env := env.insert (lit "RCLONE_CONFIG_REMOTE_ACCESS_KEY_ID") config.accessKeyId
    let env := env.insert (lit "RCLONE_CONFIG_REMOTE_SECRET_ACCESS_KEY") config.secretAccessKey
    let env :=
      if config.endpoint ≠ [] then env.insert (lit "RCLONE_CONFIG_REMOTE_ENDPOINT") config.endpoint
      else env
    if config.region ≠ [] then env.insert (lit "RCLONE_CONFIG_REMOTE_REGION") config.region else env
  | .kAzureBlob =>
    (env.insert (lit "RCLONE_CONFIG_REMOTE_ACCOUNT") config.azureAccount).insert
      (lit "RCLONE_CONFIG_REMOTE_KEY") config.azureKey
  | .kGCS =>
    (env.insert (lit "RCLONE_CONFIG_REMOTE_SERVICE_ACCOUNT_FILE")
      config.gcsServiceAccountFile).insert (lit "RCLONE_CONFIG_REMOTE_BUCKET_POLICY_ONLY")
      (lit "true")

/-! ### Progress lines -/

/-- `\s` -/
def isSpace (ch : Byte) : Bool := ch.val = 0x20 ∨ (0x09 ≤ ch.val ∧ ch.val ≤ 0x0D)

/-- `\d` -/
def isDigit (ch : Byte) : Bool := 0x30 ≤ ch.val ∧ ch.val ≤ 0x39

/-- `[\d.]` -/
def isNumeric (ch : Byte) : Bool := isDigit ch || ch.val = 0x2E

/-- What stands behind the percentage, the `%`. -/
def percentSign : List (Item Byte) := literal (lit "%")

/-- `(\d+)%` -/
def percentItems : List (Item Byte) := .many isDigit :: percentSign

/-- `\S+, (\d+)%` -/
def totalUnitItems : List (Item Byte) :=
  .many (fun ch => !isSpace ch) :: (literal (lit ", ") ++ percentItems)

/-- `\S+ / [\d.]+ \S+, (\d+)%` -/
def doneUnitItems : List (Item Byte) :=
  .many (fun ch => !isSpace ch) ::
    (literal (lit " / ") ++ .many isNumeric :: (literal (lit " ") ++ totalUnitItems))

/-- `Transferred:\s+[\d.]+ \S+ / [\d.]+ \S+, (\d+)%` -/
def kProgressRegex : List (Item Byte) :=
  literal (lit "Transferred:") ++
    .many isSpace :: .many isNumeric :: (literal (lit " ") ++ doneUnitItems)

/-- The value of `stoul` and the cast to 32 bits; `none` when it is out of range. -/
def percentValue (digits : ByteString) : Option ℕ :=
  if digitsValue digits < 2 ^ 64 then some (digitsValue digits % 2 ^ 32) else none

/-- The group is the last match but one, in front of the `%`. -/
def parseProgressLine (line : ByteString) : Option ℕ :=
  match search kProgressRegex line with
  | none => none
  | some found =>
    match percentValue (found.dropLast.getLastD []) with
    | none => none
    | some value => if value ≤ 100 then some value else none

/-! ### The poll loop -/

/-- What a call of `read` comes to: an error, or data; no data is the end. -/
abbrev Read := Option ByteString

/-- What a call of `poll` comes to, with the reads behind it. -/
inductive Poll where
  | timeout
  | interrupted
  | failed
  | ready (stdout stderr : Option Read)

structure PollLoop where
  stdoutBuf : ByteString
  stderrBuf : ByteString
  lineBuffer : ByteString
  stdoutOpen : Bool
  stderrOpen : Bool
  reported : List ℕ

def newline (ch : Byte) : Bool := ch = 0x0A
def carriageReturn (ch : Byte) : Bool := ch = 0x0D

/-- The two loops over `lineBuffer.find`: all newlines first, then all returns. -/
def takeLines (lineBuffer : ByteString) : List ByteString × ByteString :=
  cutTwice newline carriageReturn lineBuffer

def readStdout (progressCallback : Bool) (s : PollLoop) : Read → PollLoop
  | none => s
  | some [] => {s with stdoutOpen := false}
  | some (b :: bytes) =>
    let s := {s with stdoutBuf := s.stdoutBuf ++ b :: bytes}
    if progressCallback then
      let lines := takeLines (s.lineBuffer ++ b :: bytes)
      {s with
        lineBuffer := lines.2
        reported := s.reported ++ lines.1.filterMap parseProgressLine}
    else s

def readStderr (s : PollLoop) : Read → PollLoop
  | none => s
  | some [] => {s with stderrOpen := false}
  | some (b :: bytes) => {s with stderrBuf := s.stderrBuf ++ b :: bytes}

/-- A closed descriptor is -1, and `poll` reports nothing for it. -/
def takeStdout (progressCallback : Bool) (s : PollLoop) : Option Read → PollLoop
  | none => s
  | some read => if s.stdoutOpen then readStdout progressCallback s read else s

def takeStderr (s : PollLoop) : Option Read → PollLoop
  | none => s
  | some read => if s.stderrOpen then readStderr s read else s

/-- The loop, and whether it timed out; `none` as long as it has not come to an end. -/
def pollLoop (progressCallback : Bool) : PollLoop → List Poll → Option (PollLoop × Bool)
  | s, [] => if s.stdoutOpen || s.stderrOpen then none else some (s, false)
  | s, poll :: polls =>
    if s.stdoutOpen || s.stderrOpen then
      match poll with
      | .timeout => some (s, true)
      | .interrupted => pollLoop progressCallback s polls
      | .failed => some (s, false)
      | .ready stdout stderr =>
        pollLoop progressCallback (takeStderr (takeStdout progressCallback s stdout) stderr) polls
    else some (s, false)

/-- The child: `status` is its exit status, if it exited. -/
structure Child where
  polls : List Poll
  status : Option ℤ

/-- `pipe` is the error message of `pipe`, if it fails. -/
structure System where
  pipe : Option ByteString
  posix_spawn : List ByteString → Environment → Except ByteString Child

/-- The result, and the calls of the progress callback. -/
def forkAndExec (system : System) (args : List ByteString) (env : Environment)
    (progressCallback : Bool) : Option (RCloneResult × List ℕ) :=
  if args = [] then some (⟨-1, [], lit "empty command", false⟩, [])
  else match system.pipe with
    | some message => some (⟨-1, [], lit "pipe() failed: " ++ message, false⟩, [])
    | none =>
      match system.posix_spawn args env with
      | .error message => some (⟨-1, [], lit "posix_spawn failed: " ++ message, false⟩, [])
      | .ok child =>
        (pollLoop progressCallback ⟨[], [], [], true, true, []⟩ child.polls).map fun ended =>
          let s := ended.1
          let exitCode := if ended.2 then -1 else child.status.getD (-1)
          (⟨exitCode, s.stdoutBuf, s.stderrBuf, ended.2⟩, s.reported)

def execute (system : System) (config : RCloneConfig) (localPath : ByteString)
    (progressCallback : Bool) : Option (RCloneResult × List ℕ) :=
  forkAndExec system (buildCommand config localPath) (buildEnvironment config) progressCallback

theorem buildCommand_ne_nil (config : RCloneConfig) (localPath : ByteString) :
    buildCommand config localPath ≠ [] := List.cons_ne_nil _ _

/-- Once the child runs, all depends on the loop. -/
theorem execute_running {system : System} {config : RCloneConfig} {localPath : ByteString}
    {child : Child} (hpipe : system.pipe = none)
    (hspawn : system.posix_spawn (buildCommand config localPath) (buildEnvironment config) =
      .ok child) (progressCallback : Bool) :
    execute system config localPath progressCallback =
      (pollLoop progressCallback ⟨[], [], [], true, true, []⟩ child.polls).map fun ended =>
        (⟨if ended.2 then -1 else child.status.getD (-1), ended.1.stdoutBuf, ended.1.stderrBuf,
          ended.2⟩, ended.1.reported) := by
  unfold execute forkAndExec
  rw [if_neg (buildCommand_ne_nil config localPath), hpipe]
  dsimp only
  rw [hspawn]

theorem parseProgressLine_le {line : ByteString} {value : ℕ}
    (h : parseProgressLine line = some value) : value ≤ 100 := by
  unfold parseProgressLine at h
  split at h
  · cases h
  · split at h
    · cases h
    · split at h
      next hle => exact Option.some.inj h ▸ hle
      next => cases h

end RCloneProcess
end OpenArangoDBCore.RClone
