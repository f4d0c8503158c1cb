import OpenArangoDBCore.RocksDBEngine.RestoreBackup

/-!
# The hot backup feature (HotBackupFeature.h)

The feature makes its engine without a database, so the backups of the engine
are manifests alone. Any number of threads may create, delete and restore at
the same time; a restore reads the file system several times.
-/

namespace OpenArangoDBCore.StorageEngine
open FileTree Interleaving RocksDBEngine RocksDBHotBackup HotBackupCreate CreateSafety
  RestoreBackup

/- `hotBackup` is the base path of the engine. -/
structure HotBackupFeature where
  enabled : Bool := true
  backupPath : ByteString := []
  maxBackups : UInt64 := 0
  hotBackup : Option ByteString := none

namespace HotBackupFeature

def validateOptions (f : HotBackupFeature) : HotBackupFeature :=
  if f.enabled = true ∧ f.backupPath = [] then {f with backupPath := lit "/tmp/arangodb-backups"}
  else f

def prepare (f : HotBackupFeature) : HotBackupFeature :=
  if f.enabled = false then f else {f with hotBackup := some f.backupPath}

def stop (f : HotBackupFeature) : HotBackupFeature := {f with hotBackup := none}

/-- The engine, or the text of the exception. -/
def getHotBackup (f : HotBackupFeature) : Except ByteString ByteString :=
  match f.hotBackup with
  | some engine => .ok engine
  | none => .error (lit "HotBackupFeature is not enabled or not yet prepared")

theorem engine_path_ne_nil (f : HotBackupFeature) {engine : ByteString}
    (h : f.validateOptions.prepare.getHotBackup = .ok engine) (hnew : f.hotBackup = none) :
    engine ≠ [] := by
  unfold getHotBackup prepare validateOptions at h
  obtain ⟨enabled, backupPath, maxBackups, hotBackup⟩ := f
  obtain rfl : hotBackup = none := hnew
  cases enabled with
  | false => cases h
  | true =>
    by_cases hpath : backupPath = []
    · subst hpath
      cases h
      exact (by decide : lit "/tmp/arangodb-backups" ≠ [])
    · simp only [hpath, and_false, if_false, Bool.true_eq_false] at h
      cases h
      exact hpath

end HotBackupFeature

/-! ### Requests to the engine -/

/-- Between two accesses of a restore to the file system. -/
inductive Request where
  | creating (l : Local)
  | looking (backupId : ByteString)
  | checkingManifest (backupId : ByteString)
  | countingFiles (backupId : ByteString)
  | loading (backupId : ByteString)
  | answered (backupId : ByteString) (res : HotBackupResult)
  | threw (backupId : ByteString)

inductive RequestEvent where
  | create (e : CreateEvent)
  | delete (backupId : ByteString)
  | restore (backupId : ByteString)
  | step
  /-- What the directory iterator gives. -/
  | iterate (names : List Name)

section Serve
variable (cwd : Path) (backupBasePath : ByteString)

/- A thread outside of `create` takes the next request. -/
def serve : Program Shared Request RequestEvent
  | s, .creating l, .create e =>
    (HotBackupCreate.create cwd backupBasePath false s l e).map fun r => (r.1, .creating r.2)
  | s, .creating ⟨.outside last, out⟩, .delete backupId =>
    some ({s with tree := (deleteBackup cwd backupBasePath backupId s.tree).2},
      .creating ⟨.outside last, out⟩)
  | s, .creating ⟨.outside _, _⟩, .restore backupId => some (s, .looking backupId)
  | s, .looking backupId, .step =>
    some (s, if fsExists cwd (backupPath backupBasePath backupId) s.tree then
      .checkingManifest backupId
      else .answered backupId (.notFound (lit "Backup not found: " ++ backupId)))
  | s, .checkingManifest backupId, .step =>
    let dir := backupPath backupBasePath backupId
    some (s, if fsExists cwd (dir ++ lit "/MANIFEST.json") s.tree then .countingFiles backupId
      else .answered backupId (.error 400 (lit "Backup directory missing MANIFEST.json: " ++ dir)))
  | s, .countingFiles backupId, .iterate names =>
    let dir := backupPath backupBasePath backupId
    some (s, if fileCount cwd names dir s.tree = 0 then .answered backupId (.error 400
        (lit "Backup directory contains no data files (expected SST files): " ++ dir))
      else .loading backupId)
  | s, .loading backupId, .step =>
    let manifestPath := backupPath backupBasePath backupId ++ lit "/MANIFEST.json"
    some (s, match loadFromFile cwd manifestPath {} s.tree with
      | .error _ => .threw backupId
      | .ok (res, _) => .answered backupId (if res.ok then .success else res))
  | s, .answered _ _, .step => some (s, .creating ⟨.outside none, {}⟩)
  | _, _, _ => none

/-- A restore that is not disturbed answers what `restore` does. -/
theorem serve_restore (s : Shared) (backupId : ByteString) (names : List Name)
    (last : Option (Call × HotBackupResult)) (out : CreateResult) :
    ∃ events, events <+: [.restore backupId, .step, .step, .iterate names, .step] ∧
      alone (serve cwd backupBasePath) s (.creating ⟨.outside last, out⟩) events =
        some (s, match restore cwd backupBasePath names backupId s.tree with
          | .ok res => .answered backupId res
          | .error _ => .threw backupId) := by
  unfold restore validateBackupDirectory
  dsimp only
  cases hdir : fsExists cwd (backupPath backupBasePath backupId) s.tree with
  | false =>
    refine ⟨[.restore backupId, .step], ⟨_, rfl⟩, ?_⟩
    simp [alone, serve, hdir]
    rfl
  | true =>
    cases hmanifest : fsExists cwd (backupPath backupBasePath backupId ++ lit "/MANIFEST.json")
        s.tree with
    | false =>
      refine ⟨[.restore backupId, .step, .step], ⟨_, rfl⟩, ?_⟩
      simp [alone, serve, hdir, hmanifest]
      rfl
    | true =>
      simp only [Bool.true_eq_false, if_false]
      by_cases hcount : fileCount cwd names (backupPath backupBasePath backupId) s.tree = 0
      · refine ⟨[.restore backupId, .step, .step, .iterate names], ⟨_, rfl⟩, ?_⟩
        simp [alone, serve, hdir, hmanifest, hcount]
        rfl
      · refine ⟨[.restore backupId, .step, .step, .iterate names, .step], ⟨_, rfl⟩, ?_⟩
        simp only [alone, serve, hdir, hmanifest, hcount, if_false, if_true, Option.bind_some]
        cases loadFromFile cwd (backupPath backupBasePath backupId ++ lit "/MANIFEST.json") {}
            s.tree with
        | error e => rfl
        | ok r =>
          obtain ⟨res, m⟩ := r
          cases hok : res.ok with
          | false => simp [HotBackupResult.success, bind, Except.bind, hok, pure, Except.pure]
          | true => simp [HotBackupResult.success, bind, Except.bind, hok, pure, Except.pure]

/-! ### The files of the backups -/

/-- Every file but the manifests has been there before. -/
def NoNewData (t t' : Tree) : Prop :=
  ∀ p n content, n ≠ manifestName → t'.node (p ++ [n]) = some (.file content) →
    t.node (p ++ [n]) = some (.file content)

theorem NoNewData.refl (t : Tree) : NoNewData t t := fun _ _ _ _ h => h

theorem NoNewData.trans {t t' t'' : Tree} (h : NoNewData t t') (h' : NoNewData t' t'') :
    NoNewData t t'' :=
  fun p n content hn hfile => h p n content hn (h' p n content hn hfile)

theorem NoNewData.grows {t t' : Tree} (h : t.Grows t') : NoNewData t t' := by
  intro p n content _ hfile
  by_cases hnew : t.node (p ++ [n]) = none
  · have hdir := h.added _ hnew (by rw [hfile]; nofun)
    rw [hfile] at hdir
    cases hdir
  · rw [← h.kept _ hnew]
    exact hfile

theorem NoNewData.remove (t : Tree) (d : Path) : NoNewData t (t.remove d) := by
  intro p n content _ hfile
  rw [t.remove_node] at hfile
  split at hfile
  next => cases hfile
  next => exact hfile

theorem NoNewData.hasData {t t' : Tree} (h : NoNewData t t') {dir : Path} (hdata : HasData t' dir) :
    HasData t dir := by
  obtain ⟨n, content, hn, hfile⟩ := hdata
  exact ⟨n, content, hn, h dir n content hn hfile⟩

variable {cwd backupBasePath}

theorem NoNewData.removeDirectory (path : ByteString) (t : Tree) :
    NoNewData t (removeDirectory cwd path t).2 := by
  unfold RocksDBHotBackup.removeDirectory fsRemoveAll
  cases resolve cwd t (c_str path).val with
  | none => exact .refl t
  | some p => exact .remove t p

theorem NoNewData.deleteBackup (backupId : ByteString) (t : Tree) :
    NoNewData t (deleteBackup cwd backupBasePath backupId t).2 := by
  unfold RocksDBHotBackup.deleteBackup
  dsimp only
  split
  next => exact .refl t
  next => exact .removeDirectory _ t

theorem NoNewData.writeManifest (hzero : 0 ∉ backupBasePath) (call : HotBackupCreate.Call)
    {content : ByteString} {t t' : Tree}
    (h : writeFile cwd (c_str (call.manifestPath backupBasePath)).val content t = some t') :
    NoNewData t t' := by
  intro p n content' hn hfile
  rw [← writeFile_other h]
  · exact hfile
  · rw [target_manifest hzero call]
    intro heq
    exact hn (List.singleton_inj.mp (List.append_inj' heq rfl).2)

/-- The stages that a create without a database goes through. -/
def Detached : Stage → Prop
  | .outside _ | .creatingDirectories _ | .openingManifest _ _ _ _ | .writingManifest _ _
  | .removing _ _ _ => True
  | _ => False

theorem create_noNewData (hzero : 0 ∉ backupBasePath) {s s' : Shared} {l l' : Local}
    {e : CreateEvent} (h : HotBackupCreate.create cwd backupBasePath false s l e = some (s', l'))
    (hdetached : Detached l.stage) : Detached l'.stage ∧ NoNewData s.tree s'.tree := by
  have heffect := create_effect h
  obtain ⟨stage, out⟩ := l
  cases stage with
  | outside =>
    cases heffect with
    | begin => exact ⟨trivial, .refl _⟩
    | client => exact ⟨trivial, .refl _⟩
    | advance _ _ howner => cases howner
  | creatingDirectories call =>
    cases heffect with
    | refuse => exact ⟨trivial, .grows (making_spec cwd backupBasePath call s.tree).1⟩
    | make _ hstage =>
      rw [hstage]
      exact ⟨trivial, .grows (making_spec cwd backupBasePath call s.tree).1⟩
    | advance _ _ howner => cases howner
  | openingManifest call isConsistent seqNum names =>
    cases e with
    | openManifest now ok =>
      cases ok with
      | true =>
        obtain ⟨tree, hwrite, heq⟩ := Option.map_eq_some_iff.mp h
        obtain ⟨hs, hl⟩ := Prod.mk.inj heq
        rw [← hs, ← hl]
        exact ⟨trivial, .writeManifest hzero call hwrite⟩
      | false =>
        obtain ⟨hs, hl⟩ := Prod.mk.inj (Option.some.inj h)
        rw [← hs, ← hl]
        exact ⟨trivial, .refl _⟩
    | _ => cases h
  | writingManifest call m =>
    cases e with
    | writeManifest written endTime =>
      have hwritten : ∀ content, NoNewData s.tree ((writeFile cwd
          (c_str (call.manifestPath backupBasePath)).val content s.tree).getD s.tree) := by
        intro content
        cases hwrite : writeFile cwd (c_str (call.manifestPath backupBasePath)).val content
            s.tree with
        | none => exact .refl _
        | some t => exact .writeManifest hzero call hwrite
      obtain ⟨hs, hl⟩ := Prod.mk.inj (Option.some.inj h)
      rw [← hs, ← hl]
      refine ⟨?_, hwritten _⟩
      cases written <;> trivial
    | _ => cases h
  | removing =>
    cases e with
    | step =>
      obtain ⟨hs, hl⟩ := Prod.mk.inj (Option.some.inj h)
      rw [← hs, ← hl]
      exact ⟨trivial, .removeDirectory _ _⟩
    | _ => cases h
  | _ => exact hdetached.elim

variable (cwd backupBasePath) in
def backupDir (backupId : ByteString) : Path :=
  target cwd (c_str (backupPath backupBasePath backupId)).val

variable (cwd backupBasePath) in
/-- What is known of a request in a run that has begun with the tree `t`. -/
def Known (t : Tree) : Request → Prop
  | .creating l => Detached l.stage
  | .loading backupId => HasData t (backupDir cwd backupBasePath backupId)
  | .answered backupId res => res.ok = true → HasData t (backupDir cwd backupBasePath backupId)
  | _ => True

theorem hasData_of_fileCount {names : List Name} {backupId : ByteString} {t : Tree}
    (h : fileCount cwd names (backupPath backupBasePath backupId) t ≠ 0) :
    HasData t (backupDir cwd backupBasePath backupId) := by
  unfold fileCount at h
  cases hdir : resolve cwd t (c_str (backupPath backupBasePath backupId)).val with
  | none =>
    rw [hdir] at h
    exact absurd rfl h
  | some dir =>
    rw [hdir] at h
    obtain rfl := resolve_target cwd hdir
    obtain ⟨n, -, hn⟩ := List.countP_pos_iff.mp (Nat.pos_of_ne_zero h)
    obtain ⟨hne, content, hcontent⟩ := countsAsData_iff.mp hn
    exact ⟨n, content, hne, hcontent⟩

theorem serve_known (hzero : 0 ∉ backupBasePath) {t : Tree} {s s' : Shared} {r r' : Request}
    {e : RequestEvent} (h : serve cwd backupBasePath s r e = some (s', r'))
    (hknown : Known cwd backupBasePath t r) (hold : NoNewData t s.tree) :
    Known cwd backupBasePath t r' ∧ NoNewData t s'.tree := by
  unfold serve at h
  split at h
  next l e =>
    obtain ⟨⟨s₁, l₁⟩, hcreate, heq⟩ := Option.map_eq_some_iff.mp h
    cases heq
    obtain ⟨hdetached, hnew⟩ := create_noNewData hzero hcreate hknown
    exact ⟨hdetached, hold.trans hnew⟩
  next =>
    cases h
    exact ⟨trivial, hold.trans (.deleteBackup _ _)⟩
  next =>
    cases h
    exact ⟨trivial, hold⟩
  next =>
    cases h
    refine ⟨?_, hold⟩
    split
    · trivial
    · exact nofun
  next =>
    cases h
    refine ⟨?_, hold⟩
    split
    · trivial
    · exact nofun
  next =>
    cases h
    refine ⟨?_, hold⟩
    split
    · exact nofun
    next hcount => exact hold.hasData (hasData_of_fileCount hcount)
  next =>
    cases h
    refine ⟨?_, hold⟩
    split
    · trivial
    · exact fun _ => hknown
  next =>
    cases h
    exact ⟨trivial, hold⟩
  next => cases h

variable {T : Type} [DecidableEq T]

def idle : Request := .creating ⟨.outside none, {}⟩

theorem run_known (hzero : 0 ∉ backupBasePath) {s : Shared} {tr : List (T × RequestEvent)}
    {c : Config T Shared Request}
    (h : exec (serve cwd backupBasePath) ⟨s, fun _ => idle⟩ tr = some c) :
    (∀ t, Known cwd backupBasePath s.tree (c.control t)) ∧ NoNewData s.tree c.shared.tree := by
  refine exec_invariant (fun _ c => (∀ t, Known cwd backupBasePath s.tree (c.control t)) ∧
    NoNewData s.tree c.shared.tree) ?_ tr ⟨s, fun _ => idle⟩ c ⟨fun _ => trivial, .refl _⟩ h
  rintro past c₁ x c₂ ⟨hknown, hold⟩ hf
  obtain ⟨hown, hold'⟩ := serve_known hzero (fire_own hf) (hknown x.1) hold
  refine ⟨fun t => ?_, hold'⟩
  by_cases ht : t = x.1
  · rw [ht]
    exact hown
  · rw [fire_frame hf ht]
    exact hknown t

/-- Whatever is created, deleted and restored at the same time, a restore that
the feature answers with success is of a backup with files from before the
start of the feature. One that was not there before cannot be restored. -/
theorem restores_earlier_backups_only (f : HotBackupFeature) (hnew : f.hotBackup = none)
    (engine : ByteString) (hengine : f.validateOptions.prepare.getHotBackup = .ok engine)
    (hzero : 0 ∉ engine) (s : Shared) (tr : List (T × RequestEvent)) (c : Config T Shared Request)
    (h : exec (serve cwd engine) ⟨s, fun _ => idle⟩ tr = some c) (t : T) (backupId : ByteString)
    (res : HotBackupResult) (hanswer : c.control t = .answered backupId res) :
    engine ≠ [] ∧ (res.ok = true → HasData s.tree (backupDir cwd engine backupId)) ∧
      (s.tree.node (backupDir cwd engine backupId) = none → res.ok = false) := by
  have hknown := (run_known hzero h).1 t
  rw [hanswer] at hknown
  refine ⟨f.engine_path_ne_nil hengine hnew, hknown, ?_⟩
  intro hmissing
  cases hok : res.ok with
  | false => rfl
  | true =>
    obtain ⟨n, content, -, hfile⟩ := hknown hok
    have hdir := s.tree.above _ n (by rw [hfile]; nofun)
    rw [hmissing] at hdir
    cases hdir

end Serve
def answerOf : Request → Option (ByteString × HotBackupResult)
  | .answered backupId res => some (backupId, res)
  | _ => none

theorem answerOf_eq {r : Request} {backupId : ByteString} {res : HotBackupResult}
    (h : answerOf r = some (backupId, res)) : r = .answered backupId res := by
  unfold answerOf at h
  split at h
  next =>
    cases h
    rfl
  next => cases h

def sampleFeature : HotBackupFeature := {backupPath := lit "/b"}

/-- One thread makes a backup, then the other one tries to restore it. -/
def createThenRestore : List (Bool × RequestEvent) :=
  [(true, .create (.create 0 0 {})), (true, .create .step), (true, .create (.openManifest 0 true)),
    (true, .create (.writeManifest none 1)), (false, .restore (generateBackupId 0)),
    (false, .step), (false, .step), (false, .iterate [lit "MANIFEST.json"])]

theorem created_backup_not_restored :
    ∃ c res, exec (serve [] (lit "/b")) ⟨sampleShared (lit "old"), fun _ => idle⟩
        createThenRestore = some c ∧
      c.control false = .answered (generateBackupId 0) res ∧ res.ok = false := by
  have hruns : (exec (serve [] (lit "/b")) ⟨sampleShared (lit "old"), fun _ => idle⟩
      createThenRestore).bind (fun c => (answerOf (c.control false)).map Prod.fst) =
      some (generateBackupId 0) := by
    decide +kernel
  obtain ⟨c, hc, hanswer⟩ := Option.bind_eq_some_iff.mp hruns
  obtain ⟨⟨backupId, res⟩, hanswer, rfl⟩ := Option.map_eq_some_iff.mp hanswer
  have hanswer := answerOf_eq hanswer
  refine ⟨c, res, hc, hanswer, ?_⟩
  exact (restores_earlier_backups_only sampleFeature rfl (lit "/b") (by decide) (by decide) _
    createThenRestore c hc false _ res hanswer).2.2 (by decide +kernel)

end OpenArangoDBCore.StorageEngine
