import OpenArangoDBCore.RocksDBEngine.CreateSafety
import OpenArangoDBCore.RocksDBEngine.ManifestRoundTrip

/-!
# Restoring a backup

`restore` changes nothing: it says whether there is a backup with a manifest
and at least one other file. What a finished create has made is in the list
from then on, with the manifest that create has returned.
-/

namespace OpenArangoDBCore.RocksDBEngine.RestoreBackup
open BackupManifest CreateSafety FileTree HotBackupCreate Interleaving RocksDBHotBackup

def manifestName : Name := lit "MANIFEST.json"

theorem manifestName_isName : IsName manifestName := by decide +kernel

section Restore
variable (cwd : Path) (backupBasePath : ByteString)

/-- `is_regular_file() && filename() != "MANIFEST.json"`. -/
def countsAsData (t : Tree) (dir : Path) (name : Name) : Bool :=
  match t.node (dir ++ [name]) with
  | some (.file _) => name != manifestName
  | _ => false

/-- The names are those that the directory iterator gives. -/
def fileCount (names : List Name) (backupDir : ByteString) (t : Tree) : ℕ :=
  match resolve cwd t (c_str backupDir).val with
  | none => 0
  | some dir => names.countP (countsAsData t dir)

def validateBackupDirectory (names : List Name) (backupDir : ByteString) (t : Tree) :
    HotBackupResult :=
  if fsExists cwd (backupDir ++ lit "/MANIFEST.json") t = false then
    .error 400 (lit "Backup directory missing MANIFEST.json: " ++ backupDir)
  else
    if fileCount cwd names backupDir t = 0 then
      .error 400 (lit "Backup directory contains no data files (expected SST files): " ++ backupDir)
    else .success

def restore (names : List Name) (backupId : ByteString) (t : Tree) :
    Except OutOfRange HotBackupResult := do
  let dir := backupPath backupBasePath backupId
  if fsExists cwd dir t = false then return .notFound (lit "Backup not found: " ++ backupId)
  let valRes := validateBackupDirectory cwd names dir t
  if valRes.ok = false then return valRes
  let (loadRes, _) ← loadFromFile cwd (dir ++ lit "/MANIFEST.json") {} t
  if loadRes.ok = false then return loadRes
  return .success

/-- A file of the backup that is not its manifest. -/
def HasData (t : Tree) (dir : Path) : Prop :=
  ∃ n content, n ≠ manifestName ∧ t.node (dir ++ [n]) = some (.file content)

theorem countsAsData_iff {t : Tree} {dir : Path} {name : Name} :
    countsAsData t dir name = true ↔
      name ≠ manifestName ∧ ∃ content, t.node (dir ++ [name]) = some (.file content) := by
  unfold countsAsData
  cases t.node (dir ++ [name]) with
  | none => exact ⟨nofun, nofun⟩
  | some x =>
    cases x with
    | directory => exact ⟨nofun, nofun⟩
    | file content =>
      dsimp only
      rw [bne_iff_ne]
      exact ⟨fun h => ⟨h, content, rfl⟩, fun h => h.1⟩

theorem countP_ne_zero_iff {t : Tree} {dir : Path} {names : List Name}
    (hnames : ∀ n, n ∈ names ↔ t.node (dir ++ [n]) ≠ none) :
    names.countP (countsAsData t dir) ≠ 0 ↔ HasData t dir := by
  rw [← Nat.pos_iff_ne_zero, List.countP_pos_iff]
  constructor
  · rintro ⟨n, -, hn⟩
    obtain ⟨hne, content, hcontent⟩ := countsAsData_iff.mp hn
    exact ⟨n, content, hne, hcontent⟩
  · rintro ⟨n, content, hne, hcontent⟩
    refine ⟨n, (hnames n).mpr ?_, countsAsData_iff.mpr ⟨hne, content, hcontent⟩⟩
    rw [hcontent]
    nofun

/-! ### The paths of a backup -/

variable {cwd backupBasePath} {t : Tree} {id : ByteString}

theorem backupPath_terminated (hzero : 0 ∉ backupBasePath) (hid : IsName id) :
    0 ∉ backupPath backupBasePath id := by
  unfold backupPath
  rw [List.append_assoc]
  intro hmem
  rcases List.mem_append.mp hmem with hmem | hmem
  · exact hzero hmem
  · rcases List.mem_append.mp hmem with hmem | hmem
    · exact absurd hmem (by decide)
    · exact hid.2.2.2.2 hmem

theorem resolve_backupPath (hzero : 0 ∉ backupBasePath)
    (hbase : BaseThere cwd backupBasePath t) (hid : IsName id) :
    resolve cwd t (c_str (backupPath backupBasePath id)).val =
      if t.node (baseEntry cwd backupBasePath ++ [id]) ≠ none then
        some (baseEntry cwd backupBasePath ++ [id]) else none := by
  obtain ⟨hne, hdirs⟩ := hbase
  have hdir : t.node (baseEntry cwd backupBasePath) = some .directory := hdirs.target
  have hroot := resolve_of_allDirs cwd hne hdirs
  unfold backupPath
  rw [c_str_child hzero hid, resolve_child cwd t (c_str_of_terminated hzero hne) hid]
  rw [c_str_of_no_zero hzero] at hroot
  rw [hroot, Option.bind_some]
  unfold baseEntry at hdir ⊢
  rw [c_str_of_no_zero hzero] at hdir ⊢
  simp only [hdir, true_and]

theorem resolve_manifestPath (hzero : 0 ∉ backupBasePath)
    (hbase : BaseThere cwd backupBasePath t) (hid : IsName id) :
    resolve cwd t (c_str (backupPath backupBasePath id ++ lit "/MANIFEST.json")).val =
      if t.node (baseEntry cwd backupBasePath ++ [id]) = some .directory ∧
          t.node (baseEntry cwd backupBasePath ++ [id] ++ [manifestName]) ≠ none then
        some (baseEntry cwd backupBasePath ++ [id] ++ [manifestName]) else none := by
  have hlit : lit "/MANIFEST.json" = lit "/" ++ manifestName := rfl
  have hentry := resolve_backupPath hzero hbase hid
  have hterminated := backupPath_terminated hzero hid
  have hnonempty : backupPath backupBasePath id ≠ [] := by
    unfold backupPath
    simp [show lit "/" = [0x2F] from rfl]
  rw [c_str_of_no_zero hterminated] at hentry
  rw [hlit, ← List.append_assoc, c_str_child hterminated manifestName_isName,
    resolve_child cwd t hnonempty manifestName_isName, hentry]
  by_cases hthere : t.node (baseEntry cwd backupBasePath ++ [id]) = none
  · rw [if_neg (not_not.mpr hthere), if_neg (by rw [hthere]; exact fun h => nomatch h.1)]
    rfl
  · rw [if_pos hthere, Option.bind_some]

theorem baseThere_of_backup (hzero : 0 ∉ backupBasePath) (hne : backupBasePath ≠ [])
    (hid : IsName id) (h : fsExists cwd (backupPath backupBasePath id) t = true) :
    BaseThere cwd backupBasePath t := by
  unfold fsExists backupPath at h
  rw [c_str_child hzero hid, resolve_child cwd t hne hid] at h
  obtain ⟨p, hp⟩ := Option.isSome_iff_exists.mp h
  obtain ⟨base, hbase, hdir⟩ := Option.bind_eq_some_iff.mp hp
  split at hdir
  next hthere =>
    apply (resolve_directory_iff cwd t _).mp
    rw [c_str_of_no_zero hzero]
    exact ⟨base, hbase, hthere.1⟩
  next => cases hdir

theorem manifestPath_node (hzero : 0 ∉ backupBasePath)
    (hbase : BaseThere cwd backupBasePath t) (hid : IsName id)
    (hdir : t.node (baseEntry cwd backupBasePath ++ [id]) = some .directory) :
    (resolve cwd t (c_str (backupPath backupBasePath id ++ lit "/MANIFEST.json")).val).bind t.node =
      t.node (baseEntry cwd backupBasePath ++ [id] ++ [manifestName]) := by
  rw [resolve_manifestPath hzero hbase hid]
  split
  next => rfl
  next hmissing =>
    by_contra hne
    exact hmissing ⟨hdir, fun hnone => hne hnone.symm⟩

theorem loads_iff (path : ByteString) (out m : BackupManifest) :
    (∃ res, loadFromFile cwd path out t = .ok (res, m) ∧ res.ok = true) ↔
      ∃ json res, readFile cwd path t = some json ∧ json ≠ [] ∧
        fromJson json out = .ok (res, m) ∧ res.ok = true := by
  unfold loadFromFile
  constructor
  · rintro ⟨res, hload, hok⟩
    split at hload
    next =>
      cases hload
      cases hok
    next json hread =>
      split at hload
      next =>
        cases hload
        cases hok
      next hjson => exact ⟨json, res, hread, hjson, hload, hok⟩
  · rintro ⟨json, res, hread, hjson, hparse, hok⟩
    rw [hread]
    dsimp only
    rw [if_neg hjson]
    exact ⟨res, hparse, hok⟩

theorem listEntry_iff (base : Path) (name : Name) (m : BackupManifest) :
    listEntry cwd backupBasePath t base name = .ok (some m) ↔
      t.node (base ++ [name]) = some .directory ∧ ∃ res,
        loadFromFile cwd (entryPath backupBasePath name ++ lit "/MANIFEST.json") {} t =
          .ok (res, m) ∧ res.ok = true := by
  unfold listEntry
  by_cases hdir : t.node (base ++ [name]) = some .directory
  · dsimp only
    rw [if_neg (not_not.mpr hdir)]
    cases loadFromFile cwd (entryPath backupBasePath name ++ lit "/MANIFEST.json") {} t with
    | error e => exact iff_of_false nofun (by rintro ⟨-, res, hres, -⟩; cases hres)
    | ok r =>
      obtain ⟨res, found⟩ := r
      constructor
      · intro h
        have hanswer : (if res.ok = true then some found else none) = some m := Except.ok.inj h
        split at hanswer
        next hok =>
          cases hanswer
          exact ⟨hdir, res, rfl, hok⟩
        next => cases hanswer
      · rintro ⟨-, _, hres, hok⟩
        cases hres
        exact congrArg Except.ok (if_pos hok)
  · rw [if_pos hdir]
    exact iff_of_false nofun (fun h => hdir h.1)

theorem listed_iff (hzero : 0 ∉ backupBasePath) (hbase : BaseThere cwd backupBasePath t)
    (hid : IsName id) (m : BackupManifest) :
    Listed cwd backupBasePath t id m ↔
      t.node (baseEntry cwd backupBasePath ++ [id]) = some .directory ∧ ∃ res,
        loadFromFile cwd (backupPath backupBasePath id ++ lit "/MANIFEST.json") {} t =
          .ok (res, m) ∧ res.ok = true := by
  have hlisted : Listed cwd backupBasePath t id m ↔
      listEntry cwd backupBasePath t (baseEntry cwd backupBasePath) id = .ok (some m) :=
    ⟨fun h => h.elim.2.2.2, fun h => ⟨_, resolve_of_allDirs cwd hbase.1 hbase.2, h⟩⟩
  rw [hlisted, listEntry_iff]
  refine and_congr_right ?_
  intro hdir
  have hread : readFile cwd (entryPath backupBasePath id ++ lit "/MANIFEST.json") t =
      readFile cwd (backupPath backupBasePath id ++ lit "/MANIFEST.json") t := by
    unfold readFile
    rw [(manifest_node hzero hbase hdir).trans (manifestPath_node hzero hbase hid hdir).symm]
  rw [loads_iff, loads_iff, hread]

theorem validates_iff (names : List Name) (backupDir : ByteString) :
    (validateBackupDirectory cwd names backupDir t).ok = true ↔
      fsExists cwd (backupDir ++ lit "/MANIFEST.json") t = true ∧
        ∃ dir, resolve cwd t (c_str backupDir).val = some dir ∧
          names.countP (countsAsData t dir) ≠ 0 := by
  unfold validateBackupDirectory fileCount
  cases hexists : fsExists cwd (backupDir ++ lit "/MANIFEST.json") t with
  | false => exact iff_of_false nofun (fun h => nomatch h.1)
  | true =>
    rw [if_neg Bool.noConfusion]
    cases resolve cwd t (c_str backupDir).val with
    | none => exact iff_of_false nofun (by rintro ⟨-, dir, hdir, -⟩; cases hdir)
    | some dir =>
      dsimp only
      split
      next hcount =>
        refine iff_of_false nofun ?_
        rintro ⟨-, _, hdir, hpos⟩
        cases hdir
        exact hpos hcount
      next hcount => exact iff_of_true rfl ⟨rfl, dir, rfl, hcount⟩

theorem restores_iff (names : List Name) (backupId : ByteString) :
    restore cwd backupBasePath names backupId t = .ok .success ↔
      fsExists cwd (backupPath backupBasePath backupId) t = true ∧
      (validateBackupDirectory cwd names (backupPath backupBasePath backupId) t).ok = true ∧
      ∃ m res, loadFromFile cwd (backupPath backupBasePath backupId ++ lit "/MANIFEST.json") {} t =
        .ok (res, m) ∧ res.ok = true := by
  have hanswer : ∀ {res : HotBackupResult}, res.ok = false →
      (pure res : Except OutOfRange HotBackupResult) ≠ .ok .success := by
    intro res hok heq
    rw [Except.ok.inj heq] at hok
    cases hok
  unfold restore
  dsimp only
  cases fsExists cwd (backupPath backupBasePath backupId) t with
  | false => exact iff_of_false (hanswer rfl) (fun h => nomatch h.1)
  | true =>
    rw [if_neg Bool.noConfusion]
    cases hvalid : (validateBackupDirectory cwd names (backupPath backupBasePath backupId) t).ok with
    | false => exact iff_of_false (hanswer hvalid) (fun h => nomatch h.2.1)
    | true =>
      rw [if_neg Bool.noConfusion]
      cases loadFromFile cwd (backupPath backupBasePath backupId ++ lit "/MANIFEST.json") {} t with
      | error e => exact iff_of_false nofun (by rintro ⟨-, -, m, res, hres, -⟩; cases hres)
      | ok r =>
        obtain ⟨res, m⟩ := r
        cases hok : res.ok with
        | false =>
          refine iff_of_false ?_ ?_
          · intro h
            refine hanswer hok ?_
            rw [← h]
            exact (if_pos hok).symm
          · rintro ⟨-, -, _, _, hres, hok'⟩
            cases hres
            rw [hok] at hok'
            cases hok'
        | true =>
          refine iff_of_true ?_ ⟨rfl, rfl, m, res, rfl, hok⟩
          have hno : ¬ res.ok = false := by
            rw [hok]
            exact Bool.noConfusion
          exact if_neg hno

/-- `restore` accepts a backup if it is listed and has a file besides its manifest. -/
theorem restore_success_iff (hzero : 0 ∉ backupBasePath) (hne : backupBasePath ≠ [])
    (hid : IsName id) {names : List Name}
    (hnames : ∀ n, n ∈ names ↔ t.node (baseEntry cwd backupBasePath ++ [id] ++ [n]) ≠ none) :
    restore cwd backupBasePath names id t = .ok .success ↔
      (∃ m, Listed cwd backupBasePath t id m) ∧
        HasData t (baseEntry cwd backupBasePath ++ [id]) := by
  rw [restores_iff, validates_iff]
  constructor
  · rintro ⟨hexists, ⟨hmanifest, dir, hdir, hcount⟩, m, hload⟩
    have hbase := baseThere_of_backup hzero hne hid hexists
    unfold fsExists at hmanifest
    rw [resolve_manifestPath hzero hbase hid] at hmanifest
    split at hmanifest
    next hthere =>
      obtain rfl := resolve_target cwd hdir
      rw [show target cwd (c_str (backupPath backupBasePath id)).val = _ from
        backupEntry_child hzero hbase.1 hid] at hcount
      exact ⟨⟨m, (listed_iff hzero hbase hid m).mpr ⟨hthere.1, hload⟩⟩,
        (countP_ne_zero_iff hnames).mp hcount⟩
    next => cases hmanifest
  · rintro ⟨⟨m, hlisted⟩, hdata⟩
    have hbase := hlisted.elim.2.1
    obtain ⟨hdir, hload⟩ := (listed_iff hzero hbase hid m).mp hlisted
    have hthere : t.node (baseEntry cwd backupBasePath ++ [id]) ≠ none := by
      rw [hdir]
      nofun
    have hentry := resolve_backupPath hzero hbase hid
    rw [if_pos hthere] at hentry
    refine ⟨?_, ⟨?_, _, hentry, (countP_ne_zero_iff hnames).mpr hdata⟩, m, hload⟩
    · unfold fsExists
      rw [hentry]
      rfl
    · obtain ⟨json, -, hread, -, -, -⟩ := (loads_iff _ _ _).mp hload
      unfold readFile at hread
      unfold fsExists
      rw [Option.isSome_iff_exists]
      split at hread
      next => cases hread
      next hnode => exact (Option.bind_eq_some_iff.mp hnode).imp fun _ h => h.1
      next hnode => exact (Option.bind_eq_some_iff.mp hnode).imp fun _ h => h.1

end Restore

section Run
variable {T : Type} {cwd : Path} {backupBasePath : ByteString}

theorem fromJson_toJson {m : BackupManifest} (hid : m.backupId ≠ []) (htimestamp : m.timestamp ≠ [])
    (hquotes : m.WithoutQuotes) : m.toJson ≠ [] ∧ fromJson m.toJson {} = .ok (.success, m) := by
  have hjson : m.toJson ≠ [] := by
    rw [toJson_eq]
    exact fun h => absurd (List.append_eq_nil_iff.mp (List.append_eq_nil_iff.mp h).1).1 (by decide)
  have hasId := hasField_toJson (List.mem_cons_self : (_, quoted m.backupId) ∈ m.fields)
  have hasTimestamp := hasField_toJson
    (List.mem_cons_of_mem _ List.mem_cons_self : (_, quoted m.timestamp) ∈ m.fields)
  exact ⟨hjson, (fromJson_ok_iff hjson hasId hasTimestamp hid htimestamp {}).mpr
    ((reads_back_iff m).mpr hquotes)⟩

/-! ### The file of the manifest -/

/-- The step that opens the manifest has put a file there. -/
theorem open_inv {attached : Bool} {s s' : Shared} {l l' : Local} {e : CreateEvent} {call : Call}
    {m : BackupManifest} (h : create cwd backupBasePath attached s l e = some (s', l'))
    (hstage : l'.stage = .writingManifest call m) :
    l.stage.owner = some call ∧
      (∃ isConsistent seqNum names now,
        m = call.manifest backupBasePath isConsistent seqNum names now) ∧
      writeFile cwd (c_str (call.manifestPath backupBasePath)).val [] s.tree = some s'.tree := by
  cases create_effect h with
  | make _ hmade =>
    rw [hmade] at hstage
    split at hstage <;> cases hstage
  | advance _ _ _ hnext _ =>
    cases hnext with
    | «open» call isConsistent seqNum names now =>
      cases e with
      | openManifest now' ok =>
        cases ok with
        | true =>
          obtain ⟨tree, hwrite, heq⟩ := Option.map_eq_some_iff.mp h
          obtain rfl : tree = _ := congrArg (fun r => Shared.tree r.1) heq
          cases hstage
          exact ⟨rfl, ⟨isConsistent, seqNum, names, now, rfl⟩, hwrite⟩
        | false => exact nomatch congrArg (fun r => Local.stage r.2) (Option.some.inj h)
      | _ => cases h
    | _ => cases hstage
  | _ => cases hstage

theorem finish_inv {attached : Bool} {s s' : Shared} {l l' : Local} {e : CreateEvent} {call : Call}
    (h : create cwd backupBasePath attached s l e = some (s', l')) (hin : inCreate l.stage = true)
    (hstage : l'.stage = .outside (some (call, .success))) :
    ∃ m, l.stage = .writingManifest call m ∧ l'.out.manifest = m ∧
      s'.tree = (writeFile cwd (c_str (call.manifestPath backupBasePath)).val m.toJson
        s.tree).getD s.tree := by
  cases create_effect h with
  | client => cases hin
  | make _ hmade =>
    rw [hmade] at hstage
    split at hstage <;> cases hstage
  | advance _ _ _ hnext _ => cases hnext <;> cases hstage
  | @finish call' m _ _ _ _ _ =>
    cases e with
    | writeManifest written endTime =>
      cases written with
      | none =>
        cases h
        cases hstage
        exact ⟨m, rfl, rfl, rfl⟩
      | some n => cases h
    | _ => cases h
  | _ => cases hstage

theorem target_manifest (hzero : 0 ∉ backupBasePath) (call : Call) :
    target cwd (c_str (call.manifestPath backupBasePath)).val =
      backupEntry cwd backupBasePath call.id ++ [manifestName] := by
  have hterminated := backupPath_terminated hzero call.named
  have hnonempty : backupPath backupBasePath call.id ≠ [] := by
    unfold backupPath
    simp [show lit "/" = [0x2F] from rfl]
  have hlit : lit "/MANIFEST.json" = lit "/" ++ manifestName := rfl
  unfold Call.manifestPath backupEntry Call.backupDir
  rw [hlit, ← List.append_assoc, c_str_child hterminated manifestName_isName,
    target_child cwd hnonempty manifestName_isName, c_str_of_no_zero hterminated]

theorem writeManifest_node (hzero : 0 ∉ backupBasePath) (call : Call) {t : Tree}
    (hdirs : AllDirs t (onTheWay cwd (c_str (backupPath backupBasePath call.id)).val))
    {content : ByteString}
    (hfile : t.node (backupEntry cwd backupBasePath call.id ++ [manifestName]) =
      some (.file content)) (json : ByteString) :
    ((writeFile cwd (c_str (call.manifestPath backupBasePath)).val json t).getD t).node
      (backupEntry cwd backupBasePath call.id ++ [manifestName]) = some (.file json) := by
  have hterminated := backupPath_terminated hzero call.named
  have hnonempty : backupPath backupBasePath call.id ≠ [] := by
    unfold backupPath
    simp [show lit "/" = [0x2F] from rfl]
  have hlit : lit "/MANIFEST.json" = lit "/" ++ manifestName := rfl
  have hpath : (c_str (call.manifestPath backupBasePath)).val =
      backupPath backupBasePath call.id ++ slash :: manifestName := by
    unfold Call.manifestPath Call.backupDir
    rw [hlit, ← List.append_assoc, c_str_child hterminated manifestName_isName]
  rw [c_str_of_no_zero hterminated] at hdirs
  unfold backupEntry at hfile
  rw [c_str_of_no_zero hterminated] at hfile
  have hwrite := writeFile_child cwd hnonempty manifestName_isName hdirs (by rw [hfile]; nofun) json
  rw [← hpath] at hwrite
  rw [← target_manifest hzero call, hwrite]
  exact writeFile_node hwrite

/-! ### The directory of a call -/

variable {c : Config T Shared Local}

theorem Safe.base (hsafe : Safe cwd backupBasePath c) (hzero : 0 ∉ backupBasePath)
    (hne : backupBasePath ≠ []) {t : T} {call : Call}
    (howner : (c.control t).stage.owner = some call) :
    BaseThere cwd backupBasePath c.shared.tree ∧
      c.shared.tree.node (baseEntry cwd backupBasePath ++ [call.id]) = some .directory := by
  have hcut : (c_str backupBasePath).val ≠ [] := by rwa [c_str_of_no_zero hzero]
  have hdirs := hsafe.there t call howner
  have hentry : c.shared.tree.node (backupEntry cwd backupBasePath call.id) = _ := hdirs.target
  rw [backupEntry_child hzero hcut call.named] at hentry
  rw [onTheWay_backupPath hzero hcut call.named] at hdirs
  exact ⟨⟨hcut, fun p hp => hdirs p (List.mem_append_left _ hp)⟩, hentry⟩

theorem others_next [DecidableEq T] {attached : Bool} {past : List (T × CreateEvent)}
    {x : T × CreateEvent} {c' : Config T Shared Local} {n : Name} (hzero : 0 ∉ backupBasePath)
    (hsafe : Safe cwd backupBasePath c) (hord : Orderly cwd backupBasePath past c x)
    (hf : fire (create cwd backupBasePath attached) c x = some c')
    (hbase : BaseThere cwd backupBasePath c.shared.tree)
    (hthere : c.shared.tree.node (baseEntry cwd backupBasePath ++ [n]) ≠ none)
    (hother : ∀ call, (c.control x.1).stage.owner = some call →
      ¬ backupEntry cwd backupBasePath call.id <+: baseEntry cwd backupBasePath ++ [n]) :
    BaseThere cwd backupBasePath c'.shared.tree ∧
      SameBackup cwd backupBasePath c.shared.tree c'.shared.tree n := by
  obtain ⟨t, e⟩ := x
  obtain ⟨s', l', heffect, rfl⟩ := fire_effect hf
  dsimp only at heffect hother
  have hwithin : ∀ call tree, (c.control t).stage.owner = some call →
      c.shared.tree.Within (backupEntry cwd backupBasePath call.id) tree →
      BaseThere cwd backupBasePath tree ∧
        SameBackup cwd backupBasePath c.shared.tree tree n := by
    intro call tree howner hwithin
    refine ⟨⟨hbase.1, fun p hp => hwithin.kept p (hbase.2 p hp)⟩, fun q hq => ?_⟩
    exact hwithin.outside q (not_below hzero hbase.1 call.named (hother call howner) hq)
  generalize hl : c.control t = l at heffect
  unfold Orderly at hord
  dsimp only at hord
  rw [hl] at hord
  cases heffect with
  | begin => exact ⟨hbase, fun _ _ => rfl⟩
  | client => exact ⟨hbase, fun _ _ => rfl⟩
  | @refuse call _ _ herror =>
    have hsame : (call.making cwd backupBasePath c.shared.tree).tree = c.shared.tree :=
      (making_spec cwd backupBasePath call c.shared.tree).2.2.1 (hord.2.resolve_left herror)
    rw [hsame]
    exact ⟨hbase, fun _ _ => rfl⟩
  | @make call out stage herror hstage =>
    have hgrows := (making_spec cwd backupBasePath call c.shared.tree).1
    refine ⟨⟨hbase.1, fun p hp => hgrows.directory (hbase.2 p hp)⟩, ?_⟩
    obtain ⟨hmaking, -, hentry⟩ := making_of_base call hbase hord.1
    intro q hq
    rw [hmaking]
    refine c.shared.tree.put_other _ _ _ ?_
    rintro rfl
    rw [← hentry] at hq
    have hsame := hq.eq_of_length (by rw [hentry]; simp)
    rw [hsame] at hthere
    exact hthere hord.1
  | advance tree _ howner _ hbelow => exact hwithin _ tree (by rw [hl]; exact howner) hbelow
  | finish tree _ hbelow => exact hwithin _ tree (by rw [hl]; rfl) hbelow
  | @remove call _ _ _ _ =>
    have howner : (c.control t).stage.owner = some call := by rw [hl]; rfl
    obtain ⟨-, -, -, houtside⟩ := hsafe.outsideBase t call howner hord
    rw [hsafe.removal howner hord]
    refine ⟨⟨hbase.1, fun p hp => ?_⟩, fun q hq => ?_⟩
    · rw [c.shared.tree.remove_other (houtside p hp)]
      exact hbase.2 p hp
    · exact c.shared.tree.remove_other (not_below hzero hbase.1 call.named (hother call howner) hq)

variable (cwd backupBasePath) in
/-- The manifests that are being written have the ids of their calls, and their files are there. -/
def Opened (c : Config T Shared Local) : Prop :=
  ∀ t call m, (c.control t).stage = .writingManifest call m →
    m.backupId = call.id ∧ m.timestamp ≠ [] ∧ ∃ content, c.shared.tree.node
      (backupEntry cwd backupBasePath call.id ++ [manifestName]) = some (.file content)

theorem Opened.next [DecidableEq T] {attached : Bool} {past : List (T × CreateEvent)}
    {x : T × CreateEvent} {c' : Config T Shared Local} (hzero : 0 ∉ backupBasePath)
    (hne : backupBasePath ≠ []) (hsafe : Safe cwd backupBasePath c)
    (hopened : Opened cwd backupBasePath c) (hord : Orderly cwd backupBasePath past c x)
    (hf : fire (create cwd backupBasePath attached) c x = some c') :
    Opened cwd backupBasePath c' := by
  have hcut : (c_str backupBasePath).val ≠ [] := by rwa [c_str_of_no_zero hzero]
  intro u call m hstage
  by_cases hu : u = x.1
  · subst hu
    obtain ⟨-, ⟨isConsistent, seqNum, names, now, rfl⟩, hwrite⟩ := open_inv (fire_own hf) hstage
    refine ⟨rfl, ?_, [], ?_⟩
    · intro h
      exact absurd (List.append_eq_nil_iff.mp h).2 (by decide)
    · rw [← target_manifest hzero call]
      exact writeFile_node hwrite
  · rw [fire_frame hf hu] at hstage
    obtain ⟨hid, htimestamp, content, hcontent⟩ := hopened u call m hstage
    have howner : (c.control u).stage.owner = some call := by
      rw [hstage]
      rfl
    obtain ⟨hbase, hdir⟩ := Safe.base hsafe hzero hne howner
    have hentry : backupEntry cwd backupBasePath call.id = _ :=
      backupEntry_child hzero hcut call.named
    obtain ⟨-, hsame⟩ := others_next (n := call.id) hzero hsafe hord hf hbase (by rw [hdir]; nofun) (by
      intro call' howner' hpre
      rw [← hentry] at hpre
      exact hsafe.apart x.1 u call' call (Ne.symm hu) howner' howner
        (backupEntry_nested call'.named call.named hpre))
    refine ⟨hid, htimestamp, content, ?_⟩
    rw [hentry, hsame _ (List.prefix_append _ _), ← hentry]
    exact hcontent

/-- When a create ends well its backup is in the list, and no other create works on it. -/
theorem finished_listed [DecidableEq T] {attached : Bool} {past : List (T × CreateEvent)}
    {x : T × CreateEvent} {c' : Config T Shared Local} {call : Call} (hzero : 0 ∉ backupBasePath)
    (hne : backupBasePath ≠ []) (hsafe : Safe cwd backupBasePath c)
    (hopened : Opened cwd backupBasePath c) (hord : Orderly cwd backupBasePath past c x)
    (hf : fire (create cwd backupBasePath attached) c x = some c')
    (hin : inCreate (c.control x.1).stage = true)
    (hstage : (c'.control x.1).stage = .outside (some (call, .success)))
    (hquotes : (c'.control x.1).out.manifest.WithoutQuotes) :
    (c'.control x.1).out.manifest.backupId = call.id ∧
      Listed cwd backupBasePath c'.shared.tree call.id (c'.control x.1).out.manifest ∧
      Unowned cwd backupBasePath c' call.id := by
  have hcut : (c_str backupBasePath).val ≠ [] := by rwa [c_str_of_no_zero hzero]
  have hentry : backupEntry cwd backupBasePath call.id = _ :=
    backupEntry_child hzero hcut call.named
  obtain ⟨m, hwriting, hout, htree⟩ := finish_inv (fire_own hf) hin hstage
  rw [hout] at hquotes ⊢
  obtain ⟨hid, htimestamp, content, hcontent⟩ := hopened x.1 call m hwriting
  have howner : (c.control x.1).stage.owner = some call := by
    rw [hwriting]
    rfl
  have hsafe' := hsafe.next hord hf
  obtain ⟨hbase, hdir⟩ := Safe.base hsafe hzero hne howner
  have hwithin : c.shared.tree.Within (backupEntry cwd backupBasePath call.id) c'.shared.tree :=
    htree ▸ writeManifest_within call m.toJson c.shared.tree
  have hbase' : BaseThere cwd backupBasePath c'.shared.tree :=
    ⟨hbase.1, fun p hp => hwithin.kept p (hbase.2 p hp)⟩
  have hdir' := hwithin.kept _ hdir
  have hmanifest := writeManifest_node hzero call (hsafe.there x.1 call howner) hcontent m.toJson
  rw [← htree, hentry] at hmanifest
  refine ⟨hid, ?_, ?_⟩
  · obtain ⟨hjson, hparse⟩ := fromJson_toJson (hid ▸ call.named.1) htimestamp hquotes
    refine (listed_iff hzero hbase' call.named m).mpr ⟨hdir', ?_⟩
    refine (loads_iff _ _ _).mpr ⟨m.toJson, .success, ?_, hjson, hparse, rfl⟩
    unfold readFile
    rw [manifestPath_node hzero hbase' call.named hdir', hmanifest]
  · intro u call' howner' hpre
    by_cases hu : u = x.1
    · subst hu
      rw [hstage] at howner'
      cases howner'
    · rw [fire_frame hf hu] at howner'
      rw [← hentry] at hpre
      exact hsafe.apart u x.1 call' call hu howner' howner
        (backupEntry_nested call'.named call.named hpre)

variable {s : Shared} {tr : List (T × CreateEvent)} {attached : Bool}

theorem run_opened [DecidableEq T] (hzero : 0 ∉ backupBasePath) (hne : backupBasePath ≠ [])
    (hord : EachStep (create cwd backupBasePath attached) (Orderly cwd backupBasePath) []
      (start s) tr)
    (h : exec (create cwd backupBasePath attached) (start s) tr = some c) :
    Safe cwd backupBasePath c ∧ Opened cwd backupBasePath c :=
  exec_rule (fun _ c => Safe cwd backupBasePath c ∧ Opened cwd backupBasePath c)
    (fun _ _ _ _ hinv hord hf =>
      ⟨hinv.1.next hord hf, Opened.next hzero hne hinv.1 hinv.2 hord hf⟩)
    tr [] (start s) c ⟨⟨nofun, nofun, nofun⟩, nofun⟩ hord h

theorem listed_later [DecidableEq T] {past : List (T × CreateEvent)} {c' : Config T Shared Local}
    {n : Name} {m : BackupManifest} (hsafe : Safe cwd backupBasePath c)
    (hlisted : Listed cwd backupBasePath c.shared.tree n m)
    (hunowned : Unowned cwd backupBasePath c n)
    (hord : EachStep (create cwd backupBasePath attached) (Orderly cwd backupBasePath) past c tr)
    (h : exec (create cwd backupBasePath attached) c tr = some c') :
    Listed cwd backupBasePath c'.shared.tree n m ∧
      SameBackup cwd backupBasePath c.shared.tree c'.shared.tree n := by
  refine (exec_rule (fun _ c₁ => Safe cwd backupBasePath c₁ ∧ Unowned cwd backupBasePath c₁ n ∧
    Listed cwd backupBasePath c₁.shared.tree n m ∧
    SameBackup cwd backupBasePath c.shared.tree c₁.shared.tree n) ?_ tr past c c'
    ⟨hsafe, hunowned, hlisted, fun _ _ => rfl⟩ hord h).2.2
  rintro past c₁ x c₂ ⟨hsafe, hunowned, hlisted, hsame⟩ hord hf
  obtain ⟨hunowned', hbase, hsame'⟩ := kept_next hsafe hord hf hlisted hunowned
  exact ⟨hsafe.next hord hf, hunowned', hlisted.keep hbase hsame',
    fun q hq => (hsame' q hq).trans (hsame q hq)⟩

/-- In an orderly run a create that ends well leaves a backup that is in the
list from then on, with the manifest that the create has returned, and that
does not change. It can be restored exactly if it has a file besides its manifest. -/
theorem finished_create_stays_listed [DecidableEq T] (hzero : 0 ∉ backupBasePath)
    (hne : backupBasePath ≠ [])
    (hord : EachStep (create cwd backupBasePath attached) (Orderly cwd backupBasePath) []
      (start s) tr)
    (h : exec (create cwd backupBasePath attached) (start s) tr = some c)
    (before : List (T × CreateEvent)) (x : T × CreateEvent) (c₁ c₂ : Config T Shared Local)
    (call : Call) (hx : before ++ [x] <+: tr)
    (hbefore : exec (create cwd backupBasePath attached) (start s) before = some c₁)
    (hf : fire (create cwd backupBasePath attached) c₁ x = some c₂)
    (hin : inCreate (c₁.control x.1).stage = true)
    (hstage : (c₂.control x.1).stage = .outside (some (call, .success)))
    (hquotes : (c₂.control x.1).out.manifest.WithoutQuotes) :
    (c₂.control x.1).out.manifest.backupId = call.id ∧
      Listed cwd backupBasePath c.shared.tree call.id (c₂.control x.1).out.manifest ∧
      SameBackup cwd backupBasePath c₂.shared.tree c.shared.tree call.id ∧
      ∀ names : List Name, (∀ n, n ∈ names ↔
          c.shared.tree.node (baseEntry cwd backupBasePath ++ [call.id] ++ [n]) ≠ none) →
        (restore cwd backupBasePath names call.id c.shared.tree = .ok .success ↔
          HasData c.shared.tree (baseEntry cwd backupBasePath ++ [call.id])) := by
  obtain ⟨rest, rfl⟩ := hx
  have hsnoc : exec (create cwd backupBasePath attached) (start s) (before ++ [x]) = some c₂ := by
    rw [exec_append, hbefore, Option.bind_some]
    unfold exec
    rw [hf]
    rfl
  rw [eachStep_append [] (start s) c₂ (before ++ [x]) rest hsnoc] at hord
  rw [exec_append, hsnoc, Option.bind_some] at h
  obtain ⟨hord₁, hstep⟩ := eachStep_at hord.1 List.prefix_rfl hbefore
  obtain ⟨hsafe, hopened⟩ := run_opened hzero hne hord₁ hbefore
  obtain ⟨hid, hlisted, hunowned⟩ :=
    finished_listed hzero hne hsafe hopened hstep hf hin hstage hquotes
  obtain ⟨hlisted', hsame⟩ := listed_later (hsafe.next hstep hf) hlisted hunowned hord.2 h
  refine ⟨hid, hlisted', hsame, ?_⟩
  intro names hnames
  rw [restore_success_iff hzero hne call.named hnames]
  exact ⟨fun hrestored => hrestored.2, fun hdata => ⟨⟨_, hlisted'⟩, hdata⟩⟩

end Run
/-- A create with one file in its checkpoint, up to the writing of its manifest. -/
def writtenCreate : List (Bool × CreateEvent) :=
  [(true, .create 0 0 {}), (true, .step), (true, .step), (true, .flushWAL true),
    (true, .createCheckpoint true [([], lit "1.sst", .file (lit "data"))]), (true, .step),
    (true, .step), (true, .step), (true, .openManifest 0 true)]

def finishWrite : Bool × CreateEvent := (true, .writeManifest none 1)

/-- One that fails, a second later. -/
def laterFailedCreate : List (Bool × CreateEvent) :=
  [(false, .create 1000000000 0 {}), (false, .step), (false, .step), (false, .flushWAL true),
    (false, .createCheckpoint false []), (false, .step)]

def succeeded : Stage → Option Call
  | .outside (some (call, ⟨true, 0, []⟩)) => some call
  | _ => none

theorem succeeded_eq {stage : Stage} {call : Call} (h : succeeded stage = some call) :
    stage = .outside (some (call, .success)) := by
  unfold succeeded at h
  split at h
  next =>
    cases h
    rfl
  next => cases h

theorem writtenCreate_listed :
    ∃ c m, exec (create [] (lit "/b") true) (start (sampleShared (lit "old")))
        (writtenCreate ++ [finishWrite] ++ laterFailedCreate) = some c ∧
      m.backupId = generateBackupId 0 ∧
      Listed [] (lit "/b") c.shared.tree (generateBackupId 0) m := by
  have hruns : (exec (create [] (lit "/b") true) (start (sampleShared (lit "old")))
      (writtenCreate ++ [finishWrite] ++ laterFailedCreate)).isSome := by
    decide +kernel
  have hfinished : ((exec (create [] (lit "/b") true) (start (sampleShared (lit "old")))
      writtenCreate).bind fun c₁ => (fire (create [] (lit "/b") true) c₁ finishWrite).bind fun c₂ =>
        (succeeded (c₂.control true).stage).map fun call => (call.id,
          inCreate (c₁.control true).stage,
          decide (c₂.control true).out.manifest.WithoutQuotes)) =
      some (generateBackupId 0, true, true) := by
    decide +kernel
  obtain ⟨c, hc⟩ := Option.isSome_iff_exists.mp hruns
  obtain ⟨c₁, hbefore, hfinished⟩ := Option.bind_eq_some_iff.mp hfinished
  obtain ⟨c₂, hf, hfinished⟩ := Option.bind_eq_some_iff.mp hfinished
  obtain ⟨call, hcall, hfinished⟩ := Option.map_eq_some_iff.mp hfinished
  obtain ⟨hid, hfinished⟩ := Prod.mk.inj hfinished
  obtain ⟨hin, hquotes⟩ := Prod.mk.inj hfinished
  obtain ⟨hsame, hlisted, -, -⟩ := finished_create_stays_listed (by decide) (by decide)
    (by decide +kernel) hc writtenCreate finishWrite c₁ c₂ call (List.prefix_append _ _) hbefore hf
    hin (succeeded_eq hcall) (of_decide_eq_true hquotes)
  exact ⟨c, _, hc, hsame.trans hid, hid ▸ hlisted⟩

end OpenArangoDBCore.RocksDBEngine.RestoreBackup
