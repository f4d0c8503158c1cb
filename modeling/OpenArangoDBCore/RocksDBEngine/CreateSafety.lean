import OpenArangoDBCore.RocksDBEngine.HotBackupCreate

/-!
# What a create does to the other backups

The id of a backup is a clock reading, and making a directory that exists is
no error. As long as every create finds its directory missing, no create harms
a backup of another one; a failed create also leaves nothing behind if it did
not have to make the base directory.
-/

namespace OpenArangoDBCore.RocksDBEngine.CreateSafety
open FileTree Interleaving RocksDBHotBackup HotBackupCreate

section Paths
variable (cwd : Path) (backupBasePath : ByteString)

def baseEntry : Path := target cwd (c_str backupBasePath).val

def BaseThere (t : Tree) : Prop :=
  (c_str backupBasePath).val ≠ [] ∧ AllDirs t (onTheWay cwd (c_str backupBasePath).val)

/-- The backup is in the answer of `list`. -/
def Listed (t : Tree) (name : Name) (manifest : BackupManifest) : Prop :=
  ∃ base, resolve cwd t (c_str backupBasePath).val = some base ∧
    listEntry cwd backupBasePath t base name = .ok (some manifest)

variable {cwd backupBasePath}

theorem fsIsDirectory_iff (t : Tree) :
    fsIsDirectory cwd backupBasePath t = true ↔ BaseThere cwd backupBasePath t := by
  unfold BaseThere
  rw [← resolve_directory_iff, fsIsDirectory, decide_eq_true_eq, Option.bind_eq_some_iff]

theorem c_str_of_terminated {s : ByteString} (h : 0 ∉ s) (hs : (c_str s).val ≠ []) : s ≠ [] := by
  rintro rfl
  exact hs rfl

/-- Behind a zero in the base path the id is lost. -/
theorem backupEntry_of_zero (h : 0 ∈ backupBasePath) (id : ByteString) :
    backupEntry cwd backupBasePath id = baseEntry cwd backupBasePath := by
  unfold backupEntry baseEntry backupPath
  rw [List.append_assoc, c_str_append_of_zero h]

theorem backupEntry_child (h : 0 ∉ backupBasePath) (hne : (c_str backupBasePath).val ≠ [])
    {id : ByteString} (hid : IsName id) :
    backupEntry cwd backupBasePath id = baseEntry cwd backupBasePath ++ [id] := by
  unfold backupEntry baseEntry backupPath
  rw [c_str_child h hid, target_child cwd (c_str_of_terminated h hne) hid, c_str_of_no_zero h]

theorem backupEntry_root {id : ByteString} (hid : IsName id) :
    backupEntry cwd [] id = [id] := by
  have hpath : (c_str (backupPath [] id)).val = slash :: id := by
    unfold backupPath
    rw [c_str_child List.not_mem_nil hid]
    rfl
  have hcomponents : components (slash :: id) = [[], id] := by
    have hchild := components_child (s := []) hid.2.2.2.1
    rw [List.nil_append] at hchild
    rw [hchild]
    rfl
  unfold backupEntry target
  rw [hpath, hcomponents]
  exact enter_name hid []

/-- No backup directory is inside of another one. -/
theorem backupEntry_nested {id id' : ByteString} (hid : IsName id) (hid' : IsName id')
    (h : backupEntry cwd backupBasePath id <+: backupEntry cwd backupBasePath id') :
    backupEntry cwd backupBasePath id = backupEntry cwd backupBasePath id' := by
  apply h.eq_of_length
  by_cases hzero : 0 ∈ backupBasePath
  · rw [backupEntry_of_zero hzero, backupEntry_of_zero hzero]
  by_cases hne : backupBasePath = []
  · subst hne
    rw [backupEntry_root hid, backupEntry_root hid']
    rfl
  · have hcut : (c_str backupBasePath).val ≠ [] := by rwa [c_str_of_no_zero hzero]
    rw [backupEntry_child hzero hcut hid, backupEntry_child hzero hcut hid']
    simp

/-! ### The directory of a new backup -/

/-- Where the base directory is there, the backup directory alone is made. -/
theorem making_of_base (call : Call) {t : Tree} (hbase : BaseThere cwd backupBasePath t)
    (hmissing : t.node (backupEntry cwd backupBasePath call.id) = none) :
    call.making cwd backupBasePath t = ⟨none, [backupEntry cwd backupBasePath call.id],
      t.put (baseEntry cwd backupBasePath) call.id .directory⟩ ∧ 0 ∉ backupBasePath ∧
    backupEntry cwd backupBasePath call.id = baseEntry cwd backupBasePath ++ [call.id] := by
  obtain ⟨hne, hdirs⟩ := hbase
  have hdir : t.node (baseEntry cwd backupBasePath) = some .directory := hdirs.target
  have hzero : 0 ∉ backupBasePath := by
    intro hzero
    rw [backupEntry_of_zero hzero, hdir] at hmissing
    cases hmissing
  have hentry : backupEntry cwd backupBasePath call.id = _ :=
    backupEntry_child hzero hne call.named
  refine ⟨?_, hzero, hentry⟩
  rw [hentry] at hmissing ⊢
  rw [c_str_of_no_zero hzero] at hne hdirs
  have hfree : t.Free (baseEntry cwd backupBasePath) call.id :=
    ⟨hdir, call.named, by rw [hmissing]; nofun⟩
  have hleads : leads (origin cwd backupBasePath) (components backupBasePath) =
      baseEntry cwd backupBasePath := by
    unfold baseEntry
    rw [c_str_of_no_zero hzero]
    rfl
  unfold Call.making fsCreateDirectories Call.backupDir backupPath
  rw [c_str_child hzero call.named]
  dsimp only
  rw [if_neg (by simp), origin_child cwd hne, components_child call.named.2.2.2.1,
    makeDirs_append hdirs, hleads, makeDirs, enter_name call.named, if_neg (not_not.mpr hdir),
    if_pos hmissing, makeDirs, if_pos (by rw [t.put_node hfree, if_pos rfl])]

variable (cwd backupBasePath) in
theorem making_spec (call : Call) (t : Tree) :
    t.Grows (call.making cwd backupBasePath t).tree ∧
      ((call.making cwd backupBasePath t).error = none →
        AllDirs (call.making cwd backupBasePath t).tree
          (onTheWay cwd (c_str (backupPath backupBasePath call.id)).val)) ∧
      ((call.making cwd backupBasePath t).created = [] →
        (call.making cwd backupBasePath t).tree = t) ∧
      ∀ q, t.node q = none → (call.making cwd backupBasePath t).tree.node q ≠ none →
        q ∈ (call.making cwd backupBasePath t).created := by
  unfold Call.making fsCreateDirectories Call.backupDir
  generalize hs : (c_str (backupPath backupBasePath call.id)).val = s
  have hcs : ∀ c ∈ components s, IsComponent c := by
    apply components_isComponent
    rw [← hs]
    exact (c_str _).property
  dsimp only
  by_cases hempty : s = []
  · rw [if_pos hempty]
    exact ⟨.refl t, nofun, fun _ => rfl, fun q hq hq' => absurd hq hq'⟩
  · rw [if_neg hempty]
    obtain ⟨hgrows, hdirs, hsame⟩ := makeDirs_spec t (origin cwd s) (components s) hcs
    exact ⟨hgrows, hdirs, hsame, makeDirs_created t _ _ hcs⟩

/-! ### What `list` reads of a backup -/

theorem entryPath_of_zero (h : 0 ∈ backupBasePath) (n : Name) (rest : ByteString) :
    c_str (entryPath backupBasePath n ++ rest) = c_str backupBasePath := by
  unfold entryPath
  split
  · rw [List.append_assoc, c_str_append_of_zero h]
  · rw [List.append_assoc, List.append_assoc, c_str_append_of_zero h]

variable (cwd) in
theorem entryPath_spec (t : Tree) {n : Name} (hzero : 0 ∉ backupBasePath)
    (hne : backupBasePath ≠ []) (hn : IsName n) :
    0 ∉ entryPath backupBasePath n ∧ entryPath backupBasePath n ≠ [] ∧
      resolve cwd t (entryPath backupBasePath n) =
        (resolve cwd t backupBasePath).bind fun p =>
          if t.node p = some .directory ∧ t.node (p ++ [n]) ≠ none then some (p ++ [n])
          else none := by
  have hname : (0 : Byte) ∉ n := hn.2.2.2.2
  unfold entryPath
  split
  next hlast =>
    have hbase : backupBasePath = backupBasePath.dropLast ++ [slash] :=
      (List.dropLast_append_getLast? slash hlast).symm
    refine ⟨?_, by simp [hne], ?_⟩
    · intro hmem
      rcases List.mem_append.mp hmem with hmem | hmem
      · exact hzero hmem
      · exact hname hmem
    · rw [hbase]
      exact resolve_child_slash cwd t _ hn
  next =>
    have hcut := c_str_child hzero hn
    have hpath : backupBasePath ++ lit "/" ++ n = backupBasePath ++ slash :: n := by
      rw [List.append_assoc]
      rfl
    refine ⟨?_, by simp [hne], ?_⟩
    · intro hmem
      rw [hpath, ← hcut] at hmem
      exact (c_str _).property hmem
    · rw [hpath]
      exact resolve_child cwd t hne hn

theorem manifest_node {t : Tree} {n : Name} (hzero : 0 ∉ backupBasePath)
    (hbase : BaseThere cwd backupBasePath t)
    (hdir : t.node (baseEntry cwd backupBasePath ++ [n]) = some .directory) :
    (resolve cwd t (c_str (entryPath backupBasePath n ++ lit "/MANIFEST.json")).val).bind t.node =
      t.node (baseEntry cwd backupBasePath ++ [n] ++ [lit "MANIFEST.json"]) := by
  have hthere : t.node (baseEntry cwd backupBasePath ++ [n]) ≠ none := by
    rw [hdir]
    nofun
  have hn := t.named _ n hthere
  have hmanifest : IsName (lit "MANIFEST.json") := by decide +kernel
  obtain ⟨hne, hdirs⟩ := hbase
  obtain ⟨hzero', hne', hresolve⟩ :=
    entryPath_spec cwd t hzero (c_str_of_terminated hzero hne) hn
  have hroot := resolve_of_allDirs cwd hne hdirs
  have hcut := c_str_of_no_zero hzero
  have hlit : lit "/MANIFEST.json" = lit "/" ++ lit "MANIFEST.json" := rfl
  rw [hlit, ← List.append_assoc, c_str_child hzero' hmanifest, resolve_child cwd t hne' hmanifest,
    hresolve]
  rw [hcut] at hroot
  rw [hroot, Option.bind_some]
  unfold baseEntry at hdir hthere ⊢
  rw [hcut] at hdir hthere ⊢
  rw [if_pos ⟨t.above _ n hthere, hthere⟩, Option.bind_some]
  split
  next => rfl
  next hmissing =>
    by_contra hne
    exact hmissing ⟨hdir, fun hnone => hne hnone.symm⟩

theorem Listed.elim {t : Tree} {n : Name} {m : BackupManifest}
    (h : Listed cwd backupBasePath t n m) :
    0 ∉ backupBasePath ∧ BaseThere cwd backupBasePath t ∧
      t.node (baseEntry cwd backupBasePath ++ [n]) = some .directory ∧
      listEntry cwd backupBasePath t (baseEntry cwd backupBasePath) n = .ok (some m) := by
  obtain ⟨base, hbase, hentry⟩ := h
  obtain rfl : base = baseEntry cwd backupBasePath := resolve_target cwd hbase
  have hdir : t.node (baseEntry cwd backupBasePath ++ [n]) = some .directory := by
    by_contra hne
    unfold listEntry at hentry
    rw [if_pos hne] at hentry
    cases hentry
  have hroot : t.node (baseEntry cwd backupBasePath) = some .directory :=
    t.above _ n (by rw [hdir]; nofun)
  refine ⟨?_, (resolve_directory_iff cwd t _).mp ⟨_, hbase, hroot⟩, hdir, hentry⟩
  -- With a zero in the base path the manifest would be read from the base directory.
  intro hzero
  have hempty : readFile cwd (entryPath backupBasePath n ++ lit "/MANIFEST.json") t = some [] := by
    unfold readFile
    rw [entryPath_of_zero hzero, hbase, Option.bind_some, hroot]
  unfold listEntry loadFromFile at hentry
  dsimp only at hentry
  rw [if_neg (not_not.mpr hdir), hempty] at hentry
  cases hentry

/-- `list` answers with the manifests of the listed backups. -/
theorem mem_list_iff {t : Tree} {names : List Name} {res : HotBackupResult}
    {out : List BackupManifest}
    (hnames : ∀ base, resolve cwd t (c_str backupBasePath).val = some base →
      ∀ n, n ∈ names ↔ t.node (base ++ [n]) ≠ none)
    (h : list cwd backupBasePath names t = .ok (res, out)) (m : BackupManifest) :
    m ∈ out ↔ ∃ n, Listed cwd backupBasePath t n m := by
  unfold list at h
  cases hbase : resolve cwd t (c_str backupBasePath).val with
  | none =>
    rw [hbase] at h
    cases h
    unfold Listed
    rw [hbase]
    simp
  | some base =>
    rw [hbase] at h
    dsimp only at h
    cases hloop : names.filterMapM (listEntry cwd backupBasePath t base) with
    | error e =>
      rw [hloop] at h
      cases h
    | ok found =>
      rw [hloop] at h
      cases h
      rw [List.mem_mergeSort, mem_filterMapM hloop]
      constructor
      · rintro ⟨n, -, hentry⟩
        exact ⟨n, base, hbase, hentry⟩
      · rintro ⟨n, hlisted⟩
        obtain ⟨-, -, hdir, hentry⟩ := hlisted.elim
        obtain rfl : base = baseEntry cwd backupBasePath := resolve_target cwd hbase
        exact ⟨n, (hnames _ hbase n).mpr (by rw [hdir]; nofun), hentry⟩

/-- A backup stays listed as long as nothing below its directory changes. -/
theorem Listed.keep {t t' : Tree} {n : Name} {m : BackupManifest}
    (h : Listed cwd backupBasePath t n m) (hbase : BaseThere cwd backupBasePath t')
    (hsame : ∀ q, baseEntry cwd backupBasePath ++ [n] <+: q → t'.node q = t.node q) :
    Listed cwd backupBasePath t' n m := by
  obtain ⟨hzero, hbase₀, hdir, hentry⟩ := h.elim
  have hdir' : t'.node (baseEntry cwd backupBasePath ++ [n]) = some .directory := by
    rw [hsame _ List.prefix_rfl]
    exact hdir
  have hread : readFile cwd (entryPath backupBasePath n ++ lit "/MANIFEST.json") t' =
      readFile cwd (entryPath backupBasePath n ++ lit "/MANIFEST.json") t := by
    unfold readFile
    rw [manifest_node hzero hbase hdir', manifest_node hzero hbase₀ hdir,
      hsame _ (List.prefix_append _ _)]
  refine ⟨baseEntry cwd backupBasePath, resolve_of_allDirs cwd hbase.1 hbase.2, ?_⟩
  rw [← hentry]
  unfold listEntry loadFromFile
  dsimp only
  rw [hread, hsame _ List.prefix_rfl]

theorem removeDirectory_tree {t : Tree} {id : ByteString} (hzero : 0 ∉ backupBasePath)
    (hid : IsName id)
    (h : AllDirs t (onTheWay cwd (c_str (backupPath backupBasePath id)).val)) :
    (removeDirectory cwd (backupPath backupBasePath id) t).2 =
      t.remove (backupEntry cwd backupBasePath id) := by
  have hne : (c_str (backupPath backupBasePath id)).val ≠ [] := by
    unfold backupPath
    rw [c_str_child hzero hid]
    simp
  unfold removeDirectory fsRemoveAll
  rw [resolve_of_allDirs cwd hne h]
  rfl

end Paths

section Run
variable {T : Type} (cwd : Path) (backupBasePath : ByteString)

/- A create finds its directory missing and makes no other one in vain. One
that had to make the base directory does not fail after that. -/
def Orderly (_ : List (T × CreateEvent)) (c : Config T Shared Local) (x : T × CreateEvent) : Prop :=
  match (c.control x.1).stage with
  | .creatingDirectories call =>
    c.shared.tree.node (backupEntry cwd backupBasePath call.id) = none ∧
      ((call.making cwd backupBasePath c.shared.tree).error = none ∨
        (call.making cwd backupBasePath c.shared.tree).created = [])
  | .removing call _ _ => call.baseExisted = true
  | _ => True

instance (past : List (T × CreateEvent)) (c : Config T Shared Local) (x : T × CreateEvent) :
    Decidable (Orderly cwd backupBasePath past c x) :=
  match h : (c.control x.1).stage with
  | .creatingDirectories call =>
    decidable_of_iff (c.shared.tree.node (backupEntry cwd backupBasePath call.id) = none ∧
      ((call.making cwd backupBasePath c.shared.tree).error = none ∨
        (call.making cwd backupBasePath c.shared.tree).created = [])) (by simp [Orderly, h])
  | .removing call _ _ => decidable_of_iff (call.baseExisted = true) (by simp [Orderly, h])
  | .outside _ | .locking _ | .flushing _ | .checkpointing _ _ | .readingSequence _ _
  | .unlocking _ _ _ | .listingCollections _ _ _ | .openingManifest _ _ _ _
  | .writingManifest _ _ => isTrue (by simp [Orderly, h])

/-- What holds of the calls that have made their directories. -/
structure Safe (c : Config T Shared Local) : Prop where
  there : ∀ t call, (c.control t).stage.owner = some call →
    AllDirs c.shared.tree (onTheWay cwd (c_str (backupPath backupBasePath call.id)).val)
  apart : ∀ t u call call', t ≠ u → (c.control t).stage.owner = some call →
    (c.control u).stage.owner = some call' →
    backupEntry cwd backupBasePath call.id ≠ backupEntry cwd backupBasePath call'.id
  outsideBase : ∀ t call, (c.control t).stage.owner = some call → call.baseExisted = true →
    0 ∉ backupBasePath ∧ (c_str backupBasePath).val ≠ [] ∧
      call.created = [backupEntry cwd backupBasePath call.id] ∧
      ∀ p ∈ onTheWay cwd (c_str backupBasePath).val, ¬ backupEntry cwd backupBasePath call.id <+: p

variable {cwd backupBasePath} {c : Config T Shared Local}

theorem Next.owner {db : Database} {stage stage' : Stage} {call : Call}
    (h : Next backupBasePath db stage stage') (howner : stage.owner = some call) :
    ∃ call', stage'.owner = some call' ∧ call'.id = call.id ∧
      call'.baseExisted = call.baseExisted ∧ call'.created = call.created := by
  cases h with
  | checkpoint => cases howner; exact ⟨_, rfl, rfl, rfl, rfl⟩
  | fail call' _ _ hstage =>
    obtain rfl := Option.some.inj (hstage.symm.trans howner)
    exact ⟨_, rfl, rfl, rfl, rfl⟩
  | _ => cases howner; exact ⟨_, rfl, rfl, rfl, rfl⟩

theorem Next.same_call {db : Database} {stage stage' : Stage} {call call' : Call}
    (h : Next backupBasePath db stage stage') (howner : stage.owner = some call)
    (howner' : stage'.owner = some call') :
    call'.id = call.id ∧ call'.baseExisted = call.baseExisted ∧ call'.created = call.created := by
  obtain ⟨call'', hown'', hsame⟩ := Next.owner h howner
  obtain rfl := Option.some.inj (hown''.symm.trans howner')
  exact hsame

theorem owner_update [DecidableEq T] {t u : T} {s' : Shared} {l' : Local} {call : Call}
    (h : ((⟨s', Function.update c.control t l'⟩ : Config T Shared Local).control u).stage.owner =
      some call) :
    (u = t ∧ l'.stage.owner = some call) ∨ (u ≠ t ∧ (c.control u).stage.owner = some call) := by
  dsimp only at h
  by_cases hu : u = t
  · rw [hu, Function.update_self] at h
    exact .inl ⟨hu, h⟩
  · rw [Function.update_of_ne hu] at h
    exact .inr ⟨hu, h⟩

theorem Safe.update [DecidableEq T] {t : T} {s' : Shared} {l' : Local}
    (h : Safe cwd backupBasePath c)
    (hothers : ∀ u call, u ≠ t → (c.control u).stage.owner = some call →
      AllDirs s'.tree (onTheWay cwd (c_str (backupPath backupBasePath call.id)).val))
    (hown : ∀ call, l'.stage.owner = some call →
      AllDirs s'.tree (onTheWay cwd (c_str (backupPath backupBasePath call.id)).val) ∧
      (∀ u call', u ≠ t → (c.control u).stage.owner = some call' →
        backupEntry cwd backupBasePath call'.id ≠ backupEntry cwd backupBasePath call.id) ∧
      (call.baseExisted = true → 0 ∉ backupBasePath ∧ (c_str backupBasePath).val ≠ [] ∧
        call.created = [backupEntry cwd backupBasePath call.id] ∧
        ∀ p ∈ onTheWay cwd (c_str backupBasePath).val,
          ¬ backupEntry cwd backupBasePath call.id <+: p)) :
    Safe cwd backupBasePath ⟨s', Function.update c.control t l'⟩ := by
  constructor
  · intro u call howner
    rcases owner_update howner with ⟨-, hmine⟩ | ⟨hu, htheirs⟩
    · exact (hown call hmine).1
    · exact hothers u call hu htheirs
  · intro u v call call' huv hu hv
    rcases owner_update hu with ⟨hut, hmine⟩ | ⟨hut, htheirs⟩
    · rcases owner_update hv with ⟨hvt, -⟩ | ⟨hvt, htheirs'⟩
      · exact absurd (hut.trans hvt.symm) huv
      · exact Ne.symm ((hown call hmine).2.1 v call' hvt htheirs')
    · rcases owner_update hv with ⟨-, hmine'⟩ | ⟨-, htheirs'⟩
      · exact (hown call' hmine').2.1 u call hut htheirs
      · exact h.apart u v call call' huv htheirs htheirs'
  · intro u call howner
    rcases owner_update howner with ⟨-, hmine⟩ | ⟨hu, htheirs⟩
    · exact (hown call hmine).2.2
    · exact h.outsideBase u call htheirs

/-- What follows a failure removes the backup directory. -/
theorem Safe.removal {t : T} {call : Call} (h : Safe cwd backupBasePath c)
    (howner : (c.control t).stage.owner = some call) (hexisted : call.baseExisted = true) :
    (removeDirectory cwd (call.backupDir backupBasePath) c.shared.tree).2 =
      c.shared.tree.remove (backupEntry cwd backupBasePath call.id) :=
  removeDirectory_tree (h.outsideBase t call howner hexisted).1 call.named (h.there t call howner)

theorem onTheWay_backupPath (hzero : 0 ∉ backupBasePath) (hne : (c_str backupBasePath).val ≠ [])
    {id : ByteString} (hid : IsName id) :
    onTheWay cwd (c_str (backupPath backupBasePath id)).val =
      onTheWay cwd (c_str backupBasePath).val ++ [backupEntry cwd backupBasePath id] := by
  rw [backupEntry_child hzero hne hid]
  unfold backupPath baseEntry
  rw [c_str_child hzero hid, c_str_of_no_zero hzero]
  exact onTheWay_child cwd (c_str_of_terminated hzero hne) hid

theorem Safe.next [DecidableEq T] {attached : Bool} {past : List (T × CreateEvent)}
    {x : T × CreateEvent}
    {c' : Config T Shared Local} (hsafe : Safe cwd backupBasePath c)
    (hord : Orderly cwd backupBasePath past c x)
    (hf : fire (create cwd backupBasePath attached) c x = some c') :
    Safe cwd backupBasePath c' := by
  obtain ⟨t, e⟩ := x
  obtain ⟨s', l', heffect, rfl⟩ := fire_effect hf
  have hthere := hsafe.there
  dsimp only at heffect
  generalize hl : c.control t = l at heffect
  unfold Orderly at hord
  rw [hl] at hord
  cases heffect with
  | begin => exact hsafe.update (fun u call _ hu => hthere u call hu) nofun
  | client => exact hsafe.update (fun u call _ hu => hthere u call hu) nofun
  | @refuse call _ _ herror =>
    refine hsafe.update (fun u call' _ hu p hp => ?_) nofun
    exact (making_spec cwd backupBasePath call c.shared.tree).1.directory (hthere u call' hu p hp)
  | @make call out stage herror hstage =>
    obtain ⟨hgrows, hdirs, -, -⟩ := making_spec cwd backupBasePath call c.shared.tree
    refine hsafe.update (fun u call' _ hu p hp => hgrows.directory (hthere u call' hu p hp)) ?_
    intro call' howner
    obtain rfl := Option.some.inj ((owner_of_make hstage).symm.trans howner)
    refine ⟨hdirs herror, ?_, ?_⟩
    · intro u call' _ hu heq
      have hentry : c.shared.tree.node (backupEntry cwd backupBasePath call'.id) = _ :=
        (hthere u call' hu).target
      rw [heq] at hentry
      cases hord.1.symm.trans hentry
    · intro hbase
      have hbase := (fsIsDirectory_iff _).mp hbase
      obtain ⟨hmaking, hzero, -⟩ := making_of_base call hbase hord.1
      refine ⟨hzero, hbase.1, congrArg Made.created hmaking, ?_⟩
      · intro p hp hpre
        exact c.shared.tree.exists_of_prefix hpre (by rw [hbase.2 p hp]; nofun) hord.1
  | @advance stage stage' out _ call tree _ howner hnext hwithin =>
    have howner' : (c.control t).stage.owner = some call := by rw [hl]; exact howner
    refine hsafe.update (fun u call' _ hu p hp => hwithin.kept p (hthere u call' hu p hp)) ?_
    intro call' hown'
    obtain ⟨hid, hbase, hcreated⟩ := Next.same_call hnext howner hown'
    rw [hid, hbase, hcreated]
    refine ⟨fun p hp => hwithin.kept p (hthere t call howner' p hp), ?_,
      hsafe.outsideBase t call howner'⟩
    intro u call' hu hcall'
    exact hsafe.apart u t call' call hu hcall' howner'
  | finish tree _ hwithin =>
    exact hsafe.update (fun u call' _ hu p hp => hwithin.kept p (hthere u call' hu p hp)) nofun
  | @remove call _ _ _ _ =>
    have howner : (c.control t).stage.owner = some call := by rw [hl]; rfl
    obtain ⟨hzero, hne, -, houtside⟩ := hsafe.outsideBase t call howner hord
    refine hsafe.update ?_ nofun
    intro u call' hu hcall' p hp
    have hdir := hthere u call' hcall' p hp
    dsimp only
    rw [hsafe.removal howner hord, c.shared.tree.remove_other]
    · exact hdir
    intro hpre
    rw [onTheWay_backupPath hzero hne call'.named] at hp
    rcases List.mem_append.mp hp with hp | hp
    · exact houtside p hp hpre
    · rw [List.mem_singleton.mp hp] at hpre
      exact hsafe.apart t u call call' (Ne.symm hu) howner hcall'
        (backupEntry_nested call.named call'.named hpre)

/-! ### The backups of others -/

variable (cwd backupBasePath) in
/-- No create is at work on the directory of the backup. -/
def Unowned (c : Config T Shared Local) (name : Name) : Prop :=
  ∀ t call, (c.control t).stage.owner = some call →
    ¬ backupEntry cwd backupBasePath call.id <+: baseEntry cwd backupBasePath ++ [name]

variable (cwd backupBasePath) in
/-- Byte for byte what it was. -/
def SameBackup (t t' : Tree) (name : Name) : Prop :=
  ∀ q, baseEntry cwd backupBasePath ++ [name] <+: q → t'.node q = t.node q

theorem not_below {n : Name} {id : ByteString} (hzero : 0 ∉ backupBasePath)
    (hne : (c_str backupBasePath).val ≠ []) (hid : IsName id)
    (hno : ¬ backupEntry cwd backupBasePath id <+: baseEntry cwd backupBasePath ++ [n]) {q : Path}
    (hq : baseEntry cwd backupBasePath ++ [n] <+: q) :
    ¬ backupEntry cwd backupBasePath id <+: q := by
  intro hbelow
  refine hno (List.prefix_of_prefix_length_le hbelow hq ?_)
  rw [backupEntry_child hzero hne hid]
  simp

theorem Unowned.update [DecidableEq T] {t : T} {s' : Shared} {l' : Local} {n : Name}
    (h : Unowned cwd backupBasePath c n)
    (hown : ∀ call, l'.stage.owner = some call →
      ¬ backupEntry cwd backupBasePath call.id <+: baseEntry cwd backupBasePath ++ [n]) :
    Unowned cwd backupBasePath ⟨s', Function.update c.control t l'⟩ n := by
  intro u call howner
  rcases owner_update howner with ⟨-, hmine⟩ | ⟨-, htheirs⟩
  · exact hown call hmine
  · exact h u call htheirs

theorem kept_next [DecidableEq T] {attached : Bool} {past : List (T × CreateEvent)}
    {x : T × CreateEvent}
    {c' : Config T Shared Local} {n : Name} {m : BackupManifest}
    (hsafe : Safe cwd backupBasePath c) (hord : Orderly cwd backupBasePath past c x)
    (hf : fire (create cwd backupBasePath attached) c x = some c')
    (hlisted : Listed cwd backupBasePath c.shared.tree n m)
    (hunowned : Unowned cwd backupBasePath c n) :
    Unowned cwd backupBasePath c' n ∧ BaseThere cwd backupBasePath c'.shared.tree ∧
      SameBackup cwd backupBasePath c.shared.tree c'.shared.tree n := by
  obtain ⟨t, e⟩ := x
  obtain ⟨s', l', heffect, rfl⟩ := fire_effect hf
  dsimp only at heffect
  obtain ⟨hzero, hbase, hdir, -⟩ := hlisted.elim
  have hbackup : c.shared.tree.node (baseEntry cwd backupBasePath ++ [n]) ≠ none := by
    rw [hdir]
    nofun
  have hwithin : ∀ call tree, (c.control t).stage.owner = some call →
      c.shared.tree.Within (backupEntry cwd backupBasePath call.id) tree →
      BaseThere cwd backupBasePath tree ∧
        SameBackup cwd backupBasePath c.shared.tree tree n := by
    intro call tree howner hwithin
    refine ⟨⟨hbase.1, fun p hp => hwithin.kept p (hbase.2 p hp)⟩, fun q hq => ?_⟩
    exact hwithin.outside q (not_below hzero hbase.1 call.named (hunowned t call howner) hq)
  generalize hl : c.control t = l at heffect
  unfold Orderly at hord
  dsimp only at hord
  rw [hl] at hord
  cases heffect with
  | begin => exact ⟨hunowned.update nofun, hbase, fun _ _ => rfl⟩
  | client => exact ⟨hunowned.update nofun, hbase, fun _ _ => rfl⟩
  | @refuse call _ _ herror =>
    have hsame : (call.making cwd backupBasePath c.shared.tree).tree = c.shared.tree :=
      (making_spec cwd backupBasePath call c.shared.tree).2.2.1 (hord.2.resolve_left herror)
    rw [hsame]
    exact ⟨hunowned.update nofun, hbase, fun _ _ => rfl⟩
  | @make call out stage herror hstage =>
    have hgrows := (making_spec cwd backupBasePath call c.shared.tree).1
    refine ⟨hunowned.update ?_, ⟨hbase.1, fun p hp => hgrows.directory (hbase.2 p hp)⟩, ?_⟩
    · intro call' howner hpre
      obtain rfl := Option.some.inj ((owner_of_make hstage).symm.trans howner)
      exact c.shared.tree.exists_of_prefix hpre hbackup hord.1
    · obtain ⟨hmaking, -, hentry⟩ := making_of_base call hbase hord.1
      intro q hq
      rw [hmaking]
      refine c.shared.tree.put_other _ _ _ ?_
      intro heq
      rw [heq, ← hentry] at hq
      have hlen : (baseEntry cwd backupBasePath ++ [n]).length =
          (backupEntry cwd backupBasePath call.id).length := by
        rw [hentry]
        simp
      rw [hq.eq_of_length hlen] at hbackup
      exact hbackup hord.1
  | @advance stage stage' out _ call tree _ howner hnext hbelow =>
    have howner' : (c.control t).stage.owner = some call := by rw [hl]; exact howner
    refine ⟨hunowned.update ?_, hwithin call tree howner' hbelow⟩
    intro call' hown'
    rw [(Next.same_call hnext howner hown').1]
    exact hunowned t call howner'
  | @finish call _ _ _ tree _ hbelow =>
    exact ⟨hunowned.update nofun, hwithin call tree (by rw [hl]; rfl) hbelow⟩
  | @remove call _ _ _ _ =>
    have howner : (c.control t).stage.owner = some call := by rw [hl]; rfl
    obtain ⟨-, -, -, houtside⟩ := hsafe.outsideBase t call howner hord
    rw [hsafe.removal howner hord]
    refine ⟨hunowned.update nofun, ⟨hbase.1, fun p hp => ?_⟩, fun q hq => ?_⟩
    · rw [c.shared.tree.remove_other (houtside p hp)]
      exact hbase.2 p hp
    · refine c.shared.tree.remove_other ?_
      exact not_below hzero hbase.1 call.named (hunowned t call howner) hq

/-! ### What a failed create leaves -/

/-- The call that a thread is in or was in last. -/
def lastCall : Stage → Option Call
  | .outside last => last.map Prod.fst
  | .creatingDirectories call => some call
  | stage => stage.owner

theorem lastCall_of_owner {stage : Stage} {call : Call} (h : stage.owner = some call) :
    lastCall stage = some call := by
  cases stage with
  | outside | creatingDirectories => cases h
  | _ => exact h

def inCreate : Stage → Bool
  | .outside _ => false
  | _ => true

variable (cwd backupBasePath) in
/-- A step changes nothing but below the backup directory of its call and in
making directories; when it ends the call with an error none of these is left.
Only success changes the output parameter. -/
structure CleanStep (c : Config T Shared Local) (t : T) (c' : Config T Shared Local) : Prop where
  within : ∀ q, c'.shared.tree.node q ≠ c.shared.tree.node q →
    ∃ call, lastCall (c'.control t).stage = some call ∧
      (q ∈ call.created ∨ backupEntry cwd backupBasePath call.id <+: q)
  nothingLeft : ∀ call res, inCreate (c.control t).stage = true →
    (c'.control t).stage = .outside (some (call, res)) → res.ok = false →
    ∀ q, q ∈ call.created ∨ backupEntry cwd backupBasePath call.id <+: q →
      c'.shared.tree.node q = none
  outKept : inCreate (c.control t).stage = true → (c'.control t).out = (c.control t).out ∨
    ∃ call, (c'.control t).stage = .outside (some (call, .success))

/-- It is about the control of the thread that steps. -/
theorem CleanStep.of_update [DecidableEq T] {c : Config T Shared Local} {s' : Shared} {t : T}
    {l l' : Local} (hl : c.control t = l)
    (h : CleanStep cwd backupBasePath ⟨c.shared, fun _ => l⟩ t ⟨s', fun _ => l'⟩) :
    CleanStep cwd backupBasePath c t ⟨s', Function.update c.control t l'⟩ := by
  have hcontrol : (⟨s', Function.update c.control t l'⟩ : Config T Shared Local).control t = l' :=
    Function.update_self ..
  refine ⟨?_, ?_, ?_⟩
  · intro q hq
    rw [hcontrol]
    exact h.within q hq
  · intro call res hin hout
    rw [hl] at hin
    rw [hcontrol] at hout
    exact h.nothingLeft call res hin hout
  · intro hin
    rw [hl] at hin ⊢
    rw [hcontrol]
    exact h.outKept hin

theorem clean_step [DecidableEq T] {attached : Bool} {past : List (T × CreateEvent)}
    {x : T × CreateEvent}
    {c' : Config T Shared Local} (hsafe : Safe cwd backupBasePath c)
    (hord : Orderly cwd backupBasePath past c x)
    (hf : fire (create cwd backupBasePath attached) c x = some c') :
    CleanStep cwd backupBasePath c x.1 c' := by
  obtain ⟨t, e⟩ := x
  obtain ⟨s', l', heffect, rfl⟩ := fire_effect hf
  dsimp only at heffect
  generalize hl : c.control t = l at heffect
  unfold Orderly at hord
  dsimp only at hord
  rw [hl] at hord
  refine CleanStep.of_update hl ?_
  cases heffect with
  | begin => exact ⟨fun q hq => absurd rfl hq, nofun, nofun⟩
  | client => exact ⟨fun q hq => absurd rfl hq, nofun, nofun⟩
  | @refuse call out msg herror =>
    obtain ⟨-, -, hsame, -⟩ :=
      making_spec cwd backupBasePath call c.shared.tree
    have hnone := hord.2.resolve_left herror
    refine ⟨fun q hq => absurd (congrArg (fun t : Tree => t.node q) (hsame hnone)) hq, ?_,
      fun _ => .inl rfl⟩
    rintro _ _ - hstage - q hq
    cases hstage
    rcases hq with hq | hq
    · rw [Call.made, hnone] at hq
      cases hq
    · dsimp only
      rw [hsame hnone]
      by_contra hthere
      exact c.shared.tree.exists_of_prefix hq hthere hord.1
  | @make call out stage herror hstage =>
    obtain ⟨hgrows, -, -, hcreated⟩ :=
      making_spec cwd backupBasePath call c.shared.tree
    have howner := owner_of_make hstage
    refine ⟨?_, ?_, fun _ => .inl rfl⟩
    · intro q hq
      refine ⟨_, lastCall_of_owner howner, .inl ?_⟩
      have hnew : c.shared.tree.node q = none := by
        by_contra hold
        exact hq (hgrows.kept q hold)
      refine hcreated q hnew ?_
      rw [hnew] at hq
      exact hq
    · intro _ _ _ hout
      rw [show stage = _ from hout] at howner
      cases howner
  | @advance stage stage' out _ call tree _ howner hnext hwithin =>
    obtain ⟨call', howner', hid, -, -⟩ := Next.owner hnext howner
    refine ⟨?_, ?_, fun _ => .inl rfl⟩
    · intro q hq
      refine ⟨call', lastCall_of_owner howner', .inr ?_⟩
      rw [hid]
      exact hwithin.below hq
    · intro _ _ _ hout
      rw [show stage' = _ from hout] at howner'
      cases howner'
  | @finish call _ _ _ tree _ hwithin =>
    refine ⟨?_, ?_, fun _ => .inr ⟨call, rfl⟩⟩
    · intro q hq
      exact ⟨call, rfl, .inr (hwithin.below hq)⟩
    · rintro _ _ - hout herror
      cases hout
      cases herror
  | @remove call _ _ _ _ =>
    have howner : (c.control t).stage.owner = some call := by rw [hl]; rfl
    obtain ⟨hzero, -, hcreated, -⟩ := hsafe.outsideBase t call howner hord
    rw [hsafe.removal howner hord]
    refine ⟨?_, ?_, fun _ => .inl rfl⟩
    · intro q hq
      refine ⟨call, rfl, .inr ?_⟩
      by_contra houtside
      exact hq (c.shared.tree.remove_other houtside)
    · rintro _ _ - hout - q hq
      cases hout
      rw [hcreated, List.mem_singleton] at hq
      refine if_pos ?_
      rcases hq with rfl | hq
      · exact List.prefix_rfl
      · exact hq

/-! ### Runs -/

variable {s : Shared} {tr : List (T × CreateEvent)} {attached : Bool}

theorem run_safe [DecidableEq T]
    (hord : EachStep (create cwd backupBasePath attached) (Orderly cwd backupBasePath) []
      (start s) tr)
    (h : exec (create cwd backupBasePath attached) (start s) tr = some c) :
    Safe cwd backupBasePath c :=
  exec_rule (fun _ c => Safe cwd backupBasePath c)
    (fun _ _ _ _ hsafe hord hf => hsafe.next hord hf) tr [] (start s) c
    ⟨nofun, nofun, nofun⟩ hord h

/-- In an orderly run a backup that is in the list at some point, and that no
create is at work on, is in it for ever and never changes. No two creates work
on the same directory, and every step is clean. -/
theorem creates_keep_backups [DecidableEq T]
    (hord : EachStep (create cwd backupBasePath attached) (Orderly cwd backupBasePath) []
      (start s) tr)
    (h : exec (create cwd backupBasePath attached) (start s) tr = some c) :
    (∀ before c₁, before <+: tr →
        exec (create cwd backupBasePath attached) (start s) before = some c₁ →
        ∀ n m, Listed cwd backupBasePath c₁.shared.tree n m → Unowned cwd backupBasePath c₁ n →
          Listed cwd backupBasePath c.shared.tree n m ∧
            SameBackup cwd backupBasePath c₁.shared.tree c.shared.tree n) ∧
      (∀ t u call call', t ≠ u → (c.control t).stage.owner = some call →
        (c.control u).stage.owner = some call' →
        backupEntry cwd backupBasePath call.id ≠ backupEntry cwd backupBasePath call'.id) ∧
      ∀ before x c₁ c₂, before ++ [x] <+: tr →
        exec (create cwd backupBasePath attached) (start s) before = some c₁ →
        fire (create cwd backupBasePath attached) c₁ x = some c₂ →
        CleanStep cwd backupBasePath c₁ x.1 c₂ := by
  refine ⟨?_, (run_safe hord h).apart, ?_⟩
  · rintro before c₁ ⟨rest, rfl⟩ hbefore n m hlisted hunowned
    rw [eachStep_append [] (start s) c₁ before rest hbefore] at hord
    rw [exec_append, hbefore] at h
    have hrun := exec_rule (fun _ c => Safe cwd backupBasePath c ∧ Unowned cwd backupBasePath c n ∧
        Listed cwd backupBasePath c.shared.tree n m ∧
        SameBackup cwd backupBasePath c₁.shared.tree c.shared.tree n) ?_ rest before c₁ c
      ⟨run_safe hord.1 hbefore, hunowned, hlisted, fun _ _ => rfl⟩ hord.2 h
    · exact hrun.2.2
    · rintro past c x c' ⟨hsafe, hunowned, hlisted, hsame⟩ hord hf
      obtain ⟨hunowned', hbase, hsame'⟩ := kept_next hsafe hord hf hlisted hunowned
      exact ⟨hsafe.next hord hf, hunowned', hlisted.keep hbase hsame',
        fun q hq => (hsame' q hq).trans (hsame q hq)⟩
  · intro before x c₁ c₂ hx hbefore hf
    obtain ⟨hord₁, hstep⟩ := eachStep_at hord hx hbefore
    exact clean_step (run_safe hord₁ hbefore) hstep hf

end Run

def sampleShared (name : Name) : Shared :=
  ⟨((Tree.root.put [] (lit "b") .directory).put [lit "b"] name .directory).put
    [lit "b", name] (lit "MANIFEST.json")
      (.file (lit "\x7b\"backupId\": \"old\", \"timestamp\": \"monday\"\x7d")),
    ⟨7, [lit "_users"]⟩, false⟩

def sampleManifest : BackupManifest := { backupId := lit "old", timestamp := lit "monday" }

/-- A create whose checkpoint fails, at the zero of the clock. -/
def failedCreate : List (Bool × CreateEvent) :=
  [(true, .create 0 0 {}), (true, .step), (true, .step), (true, .flushWAL true),
    (true, .createCheckpoint false []), (true, .step)]

theorem listed_of_entry {t : Tree} {name : Name} {m : BackupManifest}
    (h : (resolve [] t (c_str (lit "/b")).val).map (fun base => listEntry [] (lit "/b") t base name)
      = some (.ok (some m))) : Listed [] (lit "/b") t name m := by
  obtain ⟨base, hbase, hentry⟩ := Option.map_eq_some_iff.mp h
  exact ⟨base, hbase, hentry⟩

theorem failedCreate_keeps_other_backup :
    ∃ c, exec (create [] (lit "/b") true) (start (sampleShared (lit "old"))) failedCreate = some c ∧
      Listed [] (lit "/b") c.shared.tree (lit "old") sampleManifest := by
  have hruns : (exec (create [] (lit "/b") true) (start (sampleShared (lit "old")))
      failedCreate).isSome := by
    decide +kernel
  obtain ⟨c, hc⟩ := Option.isSome_iff_exists.mp hruns
  refine ⟨c, hc, ((creates_keep_backups (by decide +kernel) hc).1 [] _ List.nil_prefix rfl _ _ ?_
    nofun).1⟩
  exact listed_of_entry (by decide +kernel)

/-- The backup of the same stamp goes with the failed one. -/
theorem failedCreate_removes_backup_of_same_stamp :
    Listed [] (lit "/b") (sampleShared (generateBackupId 0)).tree (generateBackupId 0)
        sampleManifest ∧
      ∃ c, exec (create [] (lit "/b") true) (start (sampleShared (generateBackupId 0)))
          failedCreate = some c ∧
        ∀ m, ¬ Listed [] (lit "/b") c.shared.tree (generateBackupId 0) m := by
  refine ⟨listed_of_entry (by decide +kernel), ?_⟩
  have hgone : (exec (create [] (lit "/b") true) (start (sampleShared (generateBackupId 0)))
      failedCreate).map (fun c => c.shared.tree.node
        (baseEntry [] (lit "/b") ++ [generateBackupId 0])) = some none := by
    decide +kernel
  obtain ⟨c, hc, hnode⟩ := Option.map_eq_some_iff.mp hgone
  refine ⟨c, hc, ?_⟩
  intro m hlisted
  rw [hlisted.elim.2.2.1] at hnode
  cases hnode

end OpenArangoDBCore.RocksDBEngine.CreateSafety
