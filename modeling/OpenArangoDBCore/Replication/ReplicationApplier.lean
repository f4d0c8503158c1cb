import OpenArangoDBCore.Basics

/-!
# The replication applier (ReplicationApplier.cpp)

Every public method takes `_mutex` for its whole body, so a call is one
transition of the applier together with the state of the write callback.
The callback is arbitrary: `ω` is whatever it keeps between calls, and its
result code is 0 on success and anything else on failure.
-/

namespace OpenArangoDBCore.Replication

inductive ReplicationOperation where
  | insert
  | update
  | remove
  | truncate
  deriving DecidableEq, Repr

/-- A single replication message to apply on the target. -/
structure ApplyMessage where
  shardId : ByteString
  sequence : UInt64
  operation : ReplicationOperation
  payload : List Byte
  documentKey : ByteString
  documentRev : ByteString
  deriving DecidableEq, Repr

structure WriteArgs where
  collection : ByteString
  op : ReplicationOperation
  payload : List Byte
  docKey : ByteString
  deriving DecidableEq, Repr

def ApplyMessage.writeArgs (m : ApplyMessage) : WriteArgs :=
  ⟨m.shardId, m.operation, m.payload, m.documentKey⟩

abbrev WriteCallback (ω : Type) := WriteArgs → ω → ℤ × ω
abbrev SatelliteCheckCallback := ByteString → Bool

structure ReplicationApplier where
  lastApplied : UnorderedMap ByteString UInt64
  buffer : UnorderedMap ByteString (UnorderedMap UInt64 ApplyMessage)
  totalApplied : UInt64
  totalDuplicates : UInt64
  totalSatelliteSkipped : UInt64

namespace ReplicationApplier

/-- The state after construction. -/
def new : ReplicationApplier := ⟨∅, ∅, 0, 0, 0⟩

def lastAppliedSequence (a : ReplicationApplier) (shardId : ByteString) : UInt64 :=
  (a.lastApplied.lookup shardId).getD 0

/-- `_buffer[shardId]` at key `seq`, when both exist. -/
def held (a : ReplicationApplier) (shardId : ByteString) (seq : UInt64) : Option ApplyMessage :=
  (a.buffer.lookup shardId).bind fun buf => buf.lookup seq

def bufferedCount (a : ReplicationApplier) : UInt64 :=
  UInt64.ofNat (UnorderedMap.sumBy UnorderedMap.size a.buffer)

/-- `_buffer[message.shardId][message.sequence] = message` -/
def hold (a : ReplicationApplier) (m : ApplyMessage) : ReplicationApplier :=
  let buf := (a.buffer.lookup m.shardId).getD ∅
  {a with buffer := a.buffer.insert m.shardId (buf.insert m.sequence m)}

/-- `_lastApplied[shardId] = seq; ++_totalApplied` -/
def advance (a : ReplicationApplier) (shardId : ByteString) (seq : UInt64) : ReplicationApplier :=
  {a with lastApplied := a.lastApplied.insert shardId seq, totalApplied := a.totalApplied + 1}

/-- `shardBuf.erase(msgIt)` -/
def release (a : ReplicationApplier) (shardId : ByteString) (seq : UInt64) : ReplicationApplier :=
  match a.buffer.lookup shardId with
  | none => a
  | some buf => {a with buffer := a.buffer.insert shardId (AList.erase seq buf)}

/-- `_lastApplied[shardId]` read through `operator[]`, which creates a zero entry. -/
def touchLast (a : ReplicationApplier) (shardId : ByteString) : ReplicationApplier :=
  {a with lastApplied := a.lastApplied.touch shardId 0}

/-- `if (shardBuf.empty()) _buffer.erase(bufIt)` -/
def dropEmpty (a : ReplicationApplier) (shardId : ByteString) : ReplicationApplier :=
  match a.buffer.lookup shardId with
  | none => a
  | some buf =>
    if buf.size = 0 then {a with buffer := AList.erase shardId a.buffer} else a

end ReplicationApplier

open ReplicationApplier
variable {ω : Type}

/-- `while (!shardBuf.empty())` of `drainBuffered`. The first argument is
`shardBuf.size()`, which every pass that does not break lowers by one. -/
def drainLoop (writeCb : WriteCallback ω) (shardId : ByteString) :
    ℕ → UInt64 → ReplicationApplier → ω → UInt64 × ReplicationApplier × ω
  | 0, drained, a, env => (drained, a, env)
  | size + 1, drained, a, env =>
    let a := a.touchLast shardId
    let nextSeq := a.lastAppliedSequence shardId + 1
    match a.held shardId nextSeq with
    | none => (drained, a, env)
    | some msg =>
      let rc := writeCb msg.writeArgs env
      if rc.1 ≠ 0 then (drained, a, rc.2)
      else drainLoop writeCb shardId size (drained + 1)
        ((a.advance shardId nextSeq).release shardId nextSeq) rc.2

def drainBuffered (writeCb : WriteCallback ω) (shardId : ByteString)
    (a : ReplicationApplier) (env : ω) : UInt64 × ReplicationApplier × ω :=
  match a.buffer.lookup shardId with
  | none => (0, a, env)
  | some shardBuf =>
    let r := drainLoop writeCb shardId shardBuf.size 0 a env
    (r.1, r.2.1.dropEmpty shardId, r.2.2)

def applyLocked (writeCb : WriteCallback ω) (satelliteCb : SatelliteCheckCallback)
    (message : ApplyMessage) (a : ReplicationApplier) (env : ω) : ℤ × ReplicationApplier × ω :=
  if satelliteCb message.shardId then
    (0, {a with totalSatelliteSkipped := a.totalSatelliteSkipped + 1}, env)
  else
    let lastSeq := a.lastAppliedSequence message.shardId
    if message.sequence ≤ lastSeq then
      (0, {a with totalDuplicates := a.totalDuplicates + 1}, env)
    else
      let expectedSeq := lastSeq + 1
      if message.sequence ≠ expectedSeq then (0, a.hold message, env)
      else
        let rc := writeCb message.writeArgs env
        if rc.1 ≠ 0 then (rc.1, a, rc.2)
        else
          let a := a.advance message.shardId message.sequence
          -- the count returned by the drain is discarded
          (0, (drainBuffered writeCb message.shardId a rc.2).2)

def applyMessage (writeCb : WriteCallback ω) (satelliteCb : SatelliteCheckCallback)
    (message : ApplyMessage) (a : ReplicationApplier) (env : ω) : ℤ × ReplicationApplier × ω :=
  applyLocked writeCb satelliteCb message a env

def applyBatchLoop (writeCb : WriteCallback ω) (satelliteCb : SatelliteCheckCallback) :
    List ApplyMessage → ReplicationApplier → ω → ReplicationApplier × ω
  | [], a, env => (a, env)
  | msg :: rest, a, env =>
    let r := applyLocked writeCb satelliteCb msg a env
    if r.1 ≠ 0 then r.2 else applyBatchLoop writeCb satelliteCb rest r.2.1 r.2.2

def applyBatch (writeCb : WriteCallback ω) (satelliteCb : SatelliteCheckCallback)
    (messages : List ApplyMessage) (a : ReplicationApplier) (env : ω) :
    UInt64 × ReplicationApplier × ω :=
  let r := applyBatchLoop writeCb satelliteCb messages a env
  (r.1.totalApplied - a.totalApplied, r)

inductive ApplierCall where
  | applyMessage (message : ApplyMessage)
  | applyBatch (messages : List ApplyMessage)
  | drainBuffered (shardId : ByteString)

def runCall (writeCb : WriteCallback ω) (satelliteCb : SatelliteCheckCallback)
    (call : ApplierCall) (a : ReplicationApplier) (env : ω) : ReplicationApplier × ω :=
  match call with
  | .applyMessage m => (applyMessage writeCb satelliteCb m a env).2
  | .applyBatch ms => (applyBatch writeCb satelliteCb ms a env).2
  | .drainBuffered s => (drainBuffered writeCb s a env).2

def runCalls (writeCb : WriteCallback ω) (satelliteCb : SatelliteCheckCallback) :
    List ApplierCall → ReplicationApplier → ω → ReplicationApplier × ω
  | [], a, env => (a, env)
  | call :: rest, a, env =>
    let r := runCall writeCb satelliteCb call a env
    runCalls writeCb satelliteCb rest r.1 r.2

def ApplierCall.messages : ApplierCall → List ApplyMessage
  | .applyMessage m => [m]
  | .applyBatch ms => ms
  | .drainBuffered _ => []

def delivered (calls : List ApplierCall) : List ApplyMessage :=
  calls.flatMap ApplierCall.messages

/-- The callback instrumented with the log of its successful calls. -/
def logged (writeCb : WriteCallback ω) : WriteCallback (ω × List WriteArgs) := fun args env =>
  let rc := writeCb args env.1
  (rc.1, rc.2, if rc.1 = 0 then env.2 ++ [args] else env.2)

/-- The successful writes of one shard, in the order they happened. -/
def writesOf (shardId : ByteString) (log : List WriteArgs) : List WriteArgs :=
  log.filter fun w => w.collection = shardId

end OpenArangoDBCore.Replication
