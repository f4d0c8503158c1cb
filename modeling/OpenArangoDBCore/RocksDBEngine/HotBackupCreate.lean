import OpenArangoDBCore.Lib.Interleaving
import OpenArangoDBCore.RocksDBEngine.RocksDBHotBackup

/-!
# The steps of `RocksDBHotBackup::create`

Every call of the file system, of the database and of the mutex is one step,
with the outcome and the clock readings in its label. A thread outside of
`create` is a client of the database, which knows nothing of the mutex.
-/

namespace OpenArangoDBCore.RocksDBEngine.HotBackupCreate
open FileTree Interleaving RocksDBHotBackup

structure CreateResult where
  manifest : BackupManifest := {}
  durationSeconds : ℚ := 0

structure Database where
  latestSequenceNumber : UInt64
  collectionNames : List ByteString
  deriving DecidableEq

structure Shared where
  tree : Tree
  db : Database
  mutexLocked : Bool

/- The last three fields are for the statements alone: what the call found and
made in the file system, and the database at its checkpoint. -/
structure Call where
  id : ByteString
  named : IsName id
  startTime : ℤ
  baseExisted : Bool := false
  created : List Path := []
  captured : Option Database := none

inductive Stage where
  | outside (last : Option (Call × HotBackupResult))
  | creatingDirectories (call : Call)
  | locking (call : Call)
  | flushing (call : Call)
  | checkpointing (call : Call) (isConsistent : Bool)
  | readingSequence (call : Call) (isConsistent : Bool)
  | unlocking (call : Call) (isConsistent : Bool) (seqNum : UInt64)
  | listingCollections (call : Call) (isConsistent : Bool) (seqNum : UInt64)
  | openingManifest (call : Call) (isConsistent : Bool) (seqNum : UInt64)
      (collectionNames : List ByteString)
  | writingManifest (call : Call) (manifest : BackupManifest)
  | removing (call : Call) (errorMessage : ByteString) (holdsLock : Bool)

structure Local where
  stage : Stage
  out : CreateResult

inductive CreateEvent where
  | create (now startTime : ℤ) (out : CreateResult)
  | step
  | flushWAL (ok : Bool)
  | createCheckpoint (ok : Bool) (files : List (Path × Name × Node))
  | openManifest (now : ℤ) (ok : Bool)
  /-- `none` is success, otherwise the number of bytes that are in the file. -/
  | writeManifest (written : Option ℕ) (endTime : ℤ)
  | clientWrite (count : UInt64)
  | createCollection (name : ByteString) (count : UInt64)

section Create
variable (cwd : Path) (backupBasePath : ByteString)

def Call.backupDir (call : Call) : ByteString := backupPath backupBasePath call.id
def Call.manifestPath (call : Call) : ByteString :=
  call.backupDir backupBasePath ++ lit "/MANIFEST.json"

def writeCheckpoint (path : ByteString) (files : List (Path × Name × Node)) (t : Tree) : Tree :=
  match resolve cwd t (c_str path).val with
  | some dir => t.populate dir files
  | none => t

def Call.manifest (call : Call) (isConsistent : Bool) (seqNum : UInt64)
    (collectionNames : List ByteString) (now : ℤ) : BackupManifest where
  backupId := call.id
  timestamp := putTime (gmtime (toTimeT now)) (lit ":") ++ lit "Z"
  version := lit "3.12.0"
  sequenceNumber := seqNum
  collections := collectionNames
  path := call.backupDir backupBasePath
  isConsistent := isConsistent

/- A file that was opened is written even when its entry is gone; then the
tree does not change. `attached` is `_db != nullptr`. -/
def create (attached : Bool) : Program Shared Local CreateEvent
  | s, ⟨.outside _, _⟩, .create now startTime out =>
    let call : Call :=
      { id := generateBackupId now, named := isName_generateBackupId now, startTime }
    some (s, ⟨.creatingDirectories call, out⟩)
  | s, ⟨.creatingDirectories call, out⟩, .step =>
    let made := fsCreateDirectories cwd (call.backupDir backupBasePath) s.tree
    let call := { call with
      baseExisted := fsIsDirectory cwd backupBasePath s.tree
      created := made.created }
    some ({s with tree := made.tree}, ⟨match made.error with
      | some errno => .outside (some (call, .error 500
          (lit "Failed to create backup directory: " ++ message errno)))
      | none => if attached then .locking call else .openingManifest call false 0 [], out⟩)
  | s, ⟨.locking call, out⟩, .step =>
    if s.mutexLocked then none else some ({s with mutexLocked := true}, ⟨.flushing call, out⟩)
  | s, ⟨.flushing call, out⟩, .flushWAL ok => some (s, ⟨.checkpointing call ok, out⟩)
  | s, ⟨.checkpointing call isConsistent, out⟩, .createCheckpoint ok files =>
    let tree := writeCheckpoint cwd (call.backupDir backupBasePath) files s.tree
    some ({s with tree := tree}, ⟨
      if ok then .readingSequence {call with captured := some s.db} isConsistent
      else .removing call (lit "Failed to create RocksDB checkpoint") true, out⟩)
  | s, ⟨.readingSequence call isConsistent, out⟩, .step =>
    some (s, ⟨.unlocking call isConsistent s.db.latestSequenceNumber, out⟩)
  | s, ⟨.unlocking call isConsistent seqNum, out⟩, .step =>
    some ({s with mutexLocked := false}, ⟨.listingCollections call isConsistent seqNum, out⟩)
  | s, ⟨.listingCollections call isConsistent seqNum, out⟩, .step =>
    some (s, ⟨.openingManifest call isConsistent seqNum s.db.collectionNames, out⟩)
  | s, ⟨.openingManifest call isConsistent seqNum names, out⟩, .openManifest now ok =>
    let manifestPath := call.manifestPath backupBasePath
    if ok then
      (writeFile cwd (c_str manifestPath).val [] s.tree).map fun tree =>
        ({s with tree := tree}, ⟨.writingManifest call
          (call.manifest backupBasePath isConsistent seqNum names now), out⟩)
    else some (s, ⟨.removing call
      (lit "Failed to open manifest file for writing: " ++ manifestPath) false, out⟩)
  | s, ⟨.writingManifest call manifest, out⟩, .writeManifest written endTime =>
    let manifestPath := call.manifestPath backupBasePath
    let content := match written with
      | none => manifest.toJson
      | some n => manifest.toJson.take n
    let tree := (writeFile cwd (c_str manifestPath).val content s.tree).getD s.tree
    some ({s with tree := tree}, match written with
      | none => ⟨.outside (some (call, .success)),
          ⟨manifest, (endTime - call.startTime : ℤ) / 1000000000⟩⟩
      | some _ => ⟨.removing call
          (lit "Failed to write manifest file: " ++ manifestPath) false, out⟩)
  | s, ⟨.removing call errorMessage holdsLock, out⟩, .step =>
    let tree := (removeDirectory cwd (call.backupDir backupBasePath) s.tree).2
    some ({s with tree := tree, mutexLocked := if holdsLock then false else s.mutexLocked},
      ⟨.outside (some (call, .error 500 errorMessage)), out⟩)
  | s, ⟨.outside last, out⟩, .clientWrite count =>
    some ({s with db := {s.db with latestSequenceNumber := s.db.latestSequenceNumber + count}},
      ⟨.outside last, out⟩)
  | s, ⟨.outside last, out⟩, .createCollection name count =>
    some ({s with db := ⟨s.db.latestSequenceNumber + count, s.db.collectionNames ++ [name]⟩},
      ⟨.outside last, out⟩)
  | _, _, _ => none

end Create

/-- No thread is in `create`. -/
def start {T : Type} (s : Shared) : Config T Shared Local := ⟨s, fun _ => ⟨.outside none, {}⟩⟩

/-! ### What a step can do -/

/-- The call that has made its backup directory and is not yet over. -/
def Stage.owner : Stage → Option Call
  | .outside _ | .creatingDirectories _ => none
  | .locking call | .flushing call | .checkpointing call _ | .readingSequence call _
  | .unlocking call _ _ | .listingCollections call _ _ | .openingManifest call _ _ _
  | .writingManifest call _ | .removing call _ _ => some call

section Effect
variable (cwd : Path) (backupBasePath : ByteString)

def backupEntry (id : ByteString) : Path :=
  target cwd (c_str (backupPath backupBasePath id)).val

def Call.making (call : Call) (t : Tree) : Made :=
  fsCreateDirectories cwd (call.backupDir backupBasePath) t

/-- The call with what it has found and made. -/
def Call.made (call : Call) (t : Tree) : Call := { call with
  baseExisted := fsIsDirectory cwd backupBasePath t
  created := (call.making cwd backupBasePath t).created }

/-- The steps between the making of the directory and the end of the call. -/
inductive Next (db : Database) : Stage → Stage → Prop
  | lock (call : Call) : Next db (.locking call) (.flushing call)
  | flush (call : Call) (ok : Bool) : Next db (.flushing call) (.checkpointing call ok)
  | checkpoint (call : Call) (ok : Bool) : Next db (.checkpointing call ok)
      (.readingSequence {call with captured := some db} ok)
  | readSequence (call : Call) (ok : Bool) : Next db (.readingSequence call ok)
      (.unlocking call ok db.latestSequenceNumber)
  | unlock (call : Call) (ok : Bool) (seqNum : UInt64) : Next db (.unlocking call ok seqNum)
      (.listingCollections call ok seqNum)
  | list (call : Call) (ok : Bool) (seqNum : UInt64) :
      Next db (.listingCollections call ok seqNum)
        (.openingManifest call ok seqNum db.collectionNames)
  | open (call : Call) (ok : Bool) (seqNum : UInt64) (names : List ByteString) (now : ℤ) :
      Next db (.openingManifest call ok seqNum names)
        (.writingManifest call (call.manifest backupBasePath ok seqNum names now))
  | fail {stage : Stage} (call : Call) (errorMessage : ByteString) (holdsLock : Bool) :
      stage.owner = some call → Next db stage (.removing call errorMessage holdsLock)

inductive Effect (attached : Bool) (s : Shared) : Local → CreateEvent → Shared → Local → Prop
  | begin {last : Option (Call × HotBackupResult)} {out : CreateResult} {now startTime : ℤ}
      (call : Call) (out' : CreateResult) :
      Effect attached s ⟨.outside last, out⟩ (.create now startTime out') s
        ⟨.creatingDirectories call, out'⟩
  | client {last : Option (Call × HotBackupResult)} {out : CreateResult} {e : CreateEvent}
      (db : Database) :
      (∃ count, e = .clientWrite count ∧ db.collectionNames = s.db.collectionNames) ∨
        (∃ name count, e = .createCollection name count) →
      Effect attached s ⟨.outside last, out⟩ e {s with db := db} ⟨.outside last, out⟩
  | refuse {call : Call} {out : CreateResult} (errorMessage : ByteString) :
      (call.making cwd backupBasePath s.tree).error ≠ none →
      Effect attached s ⟨.creatingDirectories call, out⟩ .step
        {s with tree := (call.making cwd backupBasePath s.tree).tree}
        ⟨.outside (some (call.made cwd backupBasePath s.tree, .error 500 errorMessage)), out⟩
  | make {call : Call} {out : CreateResult} {stage : Stage} :
      (call.making cwd backupBasePath s.tree).error = none →
      stage = (if attached then .locking (call.made cwd backupBasePath s.tree)
        else .openingManifest (call.made cwd backupBasePath s.tree) false 0 []) →
      Effect attached s ⟨.creatingDirectories call, out⟩ .step
        {s with tree := (call.making cwd backupBasePath s.tree).tree} ⟨stage, out⟩
  | advance {stage stage' : Stage} {out : CreateResult} {e : CreateEvent} {call : Call}
      (tree : Tree) (mutexLocked : Bool) : stage.owner = some call →
      Next backupBasePath s.db stage stage' →
      s.tree.Within (backupEntry cwd backupBasePath call.id) tree →
      Effect attached s ⟨stage, out⟩ e ⟨tree, s.db, mutexLocked⟩ ⟨stage', out⟩
  | finish {call : Call} {manifest : BackupManifest} {out : CreateResult} {e : CreateEvent}
      (tree : Tree) (duration : ℚ) :
      s.tree.Within (backupEntry cwd backupBasePath call.id) tree →
      Effect attached s ⟨.writingManifest call manifest, out⟩ e {s with tree := tree}
        ⟨.outside (some (call, .success)), ⟨manifest, duration⟩⟩
  | remove {call : Call} {errorMessage : ByteString} {holdsLock : Bool} {out : CreateResult}
      (mutexLocked : Bool) :
      Effect attached s ⟨.removing call errorMessage holdsLock, out⟩ .step
        ⟨(removeDirectory cwd (call.backupDir backupBasePath) s.tree).2, s.db, mutexLocked⟩
        ⟨.outside (some (call, .error 500 errorMessage)), out⟩

variable {cwd backupBasePath}

theorem writeCheckpoint_within (call : Call) (files : List (Path × Name × Node)) (t : Tree) :
    t.Within (backupEntry cwd backupBasePath call.id)
      (writeCheckpoint cwd (call.backupDir backupBasePath) files t) := by
  unfold writeCheckpoint
  split
  next dir hdir =>
    rw [resolve_target cwd hdir]
    exact .populate t _ files
  next => exact .refl _ t

theorem target_manifestPath (call : Call) : backupEntry cwd backupBasePath call.id <+:
    target cwd (c_str (call.manifestPath backupBasePath)).val := by
  unfold Call.manifestPath backupEntry Call.backupDir
  by_cases hzero : (0 : Byte) ∈ backupPath backupBasePath call.id
  · rw [c_str_append_of_zero hzero]
  · have hname : IsName (lit "MANIFEST.json") := by decide +kernel
    have hslash : backupPath backupBasePath call.id ≠ [] := by
      unfold backupPath
      simp [show lit "/" = [0x2F] from rfl]
    have hlit : lit "/MANIFEST.json" = lit "/" ++ lit "MANIFEST.json" := rfl
    rw [hlit, ← List.append_assoc, c_str_child hzero hname, target_child cwd hslash hname,
      c_str_of_no_zero hzero]
    exact List.prefix_append _ _

theorem writeManifest_within (call : Call) (content : ByteString) (t : Tree) :
    t.Within (backupEntry cwd backupBasePath call.id)
      ((writeFile cwd (c_str (call.manifestPath backupBasePath)).val content t).getD t) := by
  cases hwrite : writeFile cwd (c_str (call.manifestPath backupBasePath)).val content t with
  | none => exact .refl _ t
  | some t' => exact writeFile_within (target_manifestPath call) hwrite

theorem create_effect {attached : Bool} {s s' : Shared} {l l' : Local} {e : CreateEvent}
    (h : create cwd backupBasePath attached s l e = some (s', l')) :
    Effect cwd backupBasePath attached s l e s' l' := by
  unfold create at h
  split at h
  next =>
    cases h
    exact .begin _ _
  next call out =>
    cases h
    split
    next errno herror => exact .refuse _ (by rw [Call.making, herror]; nofun)
    next herror => exact .make herror rfl
  next call out =>
    split at h
    · cases h
    · cases h
      exact .advance _ _ rfl (.lock call) (.refl _ _)
  next call out ok =>
    cases h
    exact .advance _ _ rfl (.flush call ok) (.refl _ _)
  next call isConsistent out ok files =>
    cases h
    refine .advance _ _ rfl ?_ (writeCheckpoint_within call files s.tree)
    split
    · exact .checkpoint call isConsistent
    · exact .fail call _ _ rfl
  next call isConsistent out =>
    cases h
    exact .advance _ _ rfl (.readSequence call isConsistent) (.refl _ _)
  next call isConsistent seqNum out =>
    cases h
    exact .advance _ _ rfl (.unlock call isConsistent seqNum) (.refl _ _)
  next call isConsistent seqNum out =>
    cases h
    exact .advance _ _ rfl (.list call isConsistent seqNum) (.refl _ _)
  next call isConsistent seqNum names out now ok =>
    split at h
    · obtain ⟨tree, hwrite, heq⟩ := Option.map_eq_some_iff.mp h
      cases heq
      exact .advance _ _ rfl (.open call isConsistent seqNum names now)
        (writeFile_within (target_manifestPath call) hwrite)
    · cases h
      exact .advance _ _ rfl (.fail call _ _ rfl) (.refl _ _)
  next call manifest out written endTime =>
    cases h
    cases written with
    | none => exact .finish _ _ (writeManifest_within call _ s.tree)
    | some n => exact .advance _ _ rfl (.fail call _ _ rfl) (writeManifest_within call _ s.tree)
  next call errorMessage holdsLock out =>
    cases h
    exact .remove _
  next =>
    cases h
    exact .client _ (.inl ⟨_, rfl, rfl⟩)
  next =>
    cases h
    exact .client _ (.inr ⟨_, _, rfl⟩)
  next => cases h

theorem fire_effect {T : Type} [DecidableEq T] {attached : Bool} {c c' : Config T Shared Local}
    {x : T × CreateEvent} (h : fire (create cwd backupBasePath attached) c x = some c') :
    ∃ s' l', Effect cwd backupBasePath attached c.shared (c.control x.1) x.2 s' l' ∧
      c' = ⟨s', Function.update c.control x.1 l'⟩ := by
  obtain ⟨s', l', hstep, hc'⟩ := fire_inv h
  exact ⟨s', l', create_effect hstep, hc'⟩

/-- The thread that has made its directories owns them from then on. -/
theorem owner_of_make {attached : Bool} {stage : Stage} {call : Call}
    (h : stage = if attached then .locking call else .openingManifest call false 0 []) :
    stage.owner = some call := by
  rw [h]
  split <;> rfl

end Effect

end OpenArangoDBCore.RocksDBEngine.HotBackupCreate
