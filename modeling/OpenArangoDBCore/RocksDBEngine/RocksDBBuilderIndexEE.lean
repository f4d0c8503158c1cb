import OpenArangoDBCore.Lib.Interleaving
import OpenArangoDBCore.RocksDBEngine.ChangelogBuffer
import OpenArangoDBCore.RocksDBEngine.KeySpacePartitioner

/-!
# The index builder as a machine of threads (RocksDBBuilderIndexEE.cpp)

One step is one access to the shared atomic or to the locked changelog, or
one call of a callback with the outcome that call had. What the partition
tasks do with their key range is in `ParallelFill`; here a task is the
outcome its future delivers.
-/

namespace OpenArangoDBCore.RocksDBEngine
open Interleaving

inductive BuildState where
  | kIdle
  | kBuilding
  | kApplyingChangelog
  | kSwapping
  | kComplete
  | kFailed
  deriving DecidableEq, Repr

structure IndexBuilderConfig where
  numThreads : UInt32
  memoryBudgetMB : UInt64
  backgroundMode : Bool

/- `scanning` says that `forEach` holds the mutex of the changelog. -/
structure RocksDBBuilderIndexEE where
  config : IndexBuilderConfig
  changelog : ChangelogBuffer
  state : BuildState
  scanning : Bool

def RocksDBBuilderIndexEE.new (config : IndexBuilderConfig) : RocksDBBuilderIndexEE :=
  ⟨config, ChangelogBuffer.new (config.memoryBudgetMB * 1024 * 1024), .kIdle, false⟩

/-- What a call of user code comes to. -/
inductive Outcome where
  | returned (value : Bool)
  | threw
  deriving DecidableEq, Repr

inductive Returned where
  | fillIndexParallel (value : Bool)
  | bufferWrite (entry : ChangelogEntry) (value : Bool)
  | applyChangelog (value : Bool)
  | applyChangelogThrew
  | atomicSwap (value : Bool)
  deriving DecidableEq

/- The point a thread has reached, with its local variables. `futures` counts
the submitted tasks that have not been waited for. -/
inductive Control where
  | idle
  | fillEnter (keyRangeLower keyRangeUpper : ByteString)
  | fillSubmit (partitions : List KeyRange) (futures : ℕ)
  | fillWait (futures : ℕ) (allSucceeded : Bool)
  | fillFail
  | writeEnter (entry : ChangelogEntry)
  | writeAppend (entry : ChangelogEntry)
  | applyEnter
  | applyLock
  | applyEach (entries : List ChangelogEntry) (success : Bool)
  | applyFail
  | applyClear
  | swapEnter
  | swapCall
  | swapFail
  | swapFinish
  | returning (value : Returned)
  deriving DecidableEq

/- `step` is a step with no choice of the environment in it. -/
inductive Event where
  | callFillIndexParallel (keyRangeLower keyRangeUpper : ByteString)
  | callBufferWrite (entry : ChangelogEntry)
  | callApplyChangelog
  | callAtomicSwap
  | step
  | submit (accepted : Bool)
  | future (outcome : Outcome)
  | append (entry : ChangelogEntry) (accepted : Bool)
  | lock
  | applier (entry : ChangelogEntry) (outcome : Outcome)
  | swapCallback (outcome : Outcome)
  | ret (value : Returned)
  deriving DecidableEq

namespace RocksDBBuilderIndexEE
variable {F : Type} (ops : FractionOps F)

def fillIndexParallel (b : RocksDBBuilderIndexEE) :
    Control → Event → Option (RocksDBBuilderIndexEE × Control)
  | .fillEnter lower upper, .step =>
    if b.state = .kIdle then
      let partitions := partition ops lower upper b.config.numThreads
      if partitions = [] ∧ 0 < b.config.numThreads then
        some ({b with state := .kBuilding}, .returning (.fillIndexParallel true))
      else some ({b with state := .kBuilding}, .fillSubmit partitions 0)
    else some (b, .returning (.fillIndexParallel false))
  | .fillSubmit (_ :: rest) futures, .submit accepted =>
    if accepted then some (b, .fillSubmit rest (futures + 1))
    else some ({b with state := .kFailed}, .returning (.fillIndexParallel false))
  | .fillSubmit [] futures, .step => some (b, .fillWait futures true)
  | .fillWait (futures + 1) allSucceeded, .future outcome =>
    some (b, .fillWait futures (allSucceeded && outcome = .returned true))
  | .fillWait 0 allSucceeded, .step =>
    if allSucceeded then some (b, .returning (.fillIndexParallel true)) else some (b, .fillFail)
  | .fillFail, .step =>
    some ({b with state := .kFailed}, .returning (.fillIndexParallel false))
  | _, _ => none

def bufferWrite (b : RocksDBBuilderIndexEE) :
    Control → Event → Option (RocksDBBuilderIndexEE × Control)
  | .writeEnter entry, .step =>
    if b.config.backgroundMode = true ∧ b.state = .kBuilding then some (b, .writeAppend entry)
    else some (b, .returning (.bufferWrite entry false))
  | .writeAppend entry, .append appended accepted =>
    -- waits for the mutex
    if b.scanning = false ∧ appended = entry ∧ accepted = (b.changelog.append entry).1 then
      some ({b with changelog := (b.changelog.append entry).2},
        .returning (.bufferWrite entry accepted))
    else none
  | _, _ => none

/- An exception of the applier leaves `forEach`, which unlocks, and then
`applyChangelog` itself. -/
def applyChangelog (b : RocksDBBuilderIndexEE) :
    Control → Event → Option (RocksDBBuilderIndexEE × Control)
  | .applyEnter, .step =>
    if b.state = .kBuilding then some ({b with state := .kApplyingChangelog}, .applyLock)
    else some (b, .returning (.applyChangelog false))
  | .applyLock, .lock =>
    if b.scanning = false then
      some ({b with scanning := true}, .applyEach b.changelog.entries true)
    else none
  | .applyEach (entry :: rest) true, .applier applied outcome =>
    if applied = entry then
      match outcome with
      | .returned value => some (b, .applyEach rest value)
      | .threw => some ({b with scanning := false}, .returning .applyChangelogThrew)
    else none
  | .applyEach (_ :: rest) false, .step => some (b, .applyEach rest false)
  | .applyEach [] success, .step =>
    some ({b with scanning := false}, if success then .applyClear else .applyFail)
  | .applyFail, .step => some ({b with state := .kFailed}, .returning (.applyChangelog false))
  | .applyClear, .step =>
    if b.scanning = false then
      some ({b with changelog := b.changelog.clear}, .returning (.applyChangelog true))
    else none
  | _, _ => none

def atomicSwap (b : RocksDBBuilderIndexEE) :
    Control → Event → Option (RocksDBBuilderIndexEE × Control)
  | .swapEnter, .step =>
    if b.state = .kApplyingChangelog then some ({b with state := .kSwapping}, .swapCall)
    else some (b, .returning (.atomicSwap false))
  | .swapCall, .swapCallback outcome =>
    some (b, if outcome = .threw then .swapFail else .swapFinish)
  | .swapFail, .step => some ({b with state := .kFailed}, .returning (.atomicSwap false))
  | .swapFinish, .step => some ({b with state := .kComplete}, .returning (.atomicSwap true))
  | _, _ => none

def calls : Event → Option Control
  | .callFillIndexParallel lower upper => some (.fillEnter lower upper)
  | .callBufferWrite entry => some (.writeEnter entry)
  | .callApplyChangelog => some .applyEnter
  | .callAtomicSwap => some .swapEnter
  | _ => none

def builderStep : Program RocksDBBuilderIndexEE Control Event
  | b, .idle, e => (calls e).map fun l => (b, l)
  | b, .returning value, .ret returned => if returned = value then some (b, .idle) else none
  | b, l, e =>
    (fillIndexParallel ops b l e).orElse fun _ =>
      (bufferWrite b l e).orElse fun _ => (applyChangelog b l e).orElse fun _ => atomicSwap b l e

def start {T : Type} (config : IndexBuilderConfig) : Config T RocksDBBuilderIndexEE Control :=
  ⟨.new config, fun _ => .idle⟩

end RocksDBBuilderIndexEE
end OpenArangoDBCore.RocksDBEngine
