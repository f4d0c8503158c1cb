import OpenArangoDBCore.RocksDBEngine.CreateSafety
import OpenArangoDBCore.RocksDBEngine.EncryptionProvider

/-!
# Keys from files (RocksDBEncryptionUtils.cpp, RocksDBEncryptionUtilsEE.h)

A directory iterator gives the entries of a folder in no particular order. The
keys are sorted by their names, and no two entries have one name.
-/

namespace OpenArangoDBCore.RocksDBEngine
open FileTree RocksDBHotBackup CreateSafety

structure EncryptionSecret where
  key : Key
  id : ByteString
  deriving DecidableEq

namespace RocksDBEncryptionUtils

/-- `std::filesystem::path::filename` -/
def filename (path : ByteString) : ByteString := (components path).getLast?.getD []

section Load
variable (cwd : Path)

def loadKeyFromFile (path : ByteString) (t : Tree) : Option EncryptionSecret :=
  match readFile cwd path t with
  | none => none
  | some content =>
    if h : content.length = 32 then some ⟨⟨content, h⟩, filename path⟩ else none

def isRegularFile (t : Tree) (entry : Path) : Bool :=
  match t.node entry with
  | some (.file _) => true
  | _ => false

def loadEntry (path : ByteString) (t : Tree) (folder : Path) (name : Name) :
    Option EncryptionSecret :=
  if isRegularFile t (folder ++ [name]) = false then none
  else loadKeyFromFile cwd (entryPath path name) t

/-- The names are those of the folder, in the order of the iterator. -/
def loadKeysFromFolder (path : ByteString) (names : List Name) (t : Tree) :
    List EncryptionSecret :=
  match resolve cwd t (c_str path).val with
  | none => []
  | some folder =>
    if t.node folder ≠ some .directory then []
    else (names.filterMap (loadEntry cwd path t folder)).mergeSort fun a b => a.id ≤ b.id

def hasNewRotationKey (keyfolderPath : ByteString) (names : List Name) (currentKeyId : ByteString)
    (t : Tree) : Bool :=
  (loadKeysFromFolder cwd keyfolderPath names t).any fun k => k.id ≠ currentKeyId

end Load

/-! ### One entry -/

structure Enumerates (t : Tree) (folder : Path) (names : List Name) : Prop where
  nodup : names.Nodup
  complete : ∀ n, n ∈ names ↔ t.node (folder ++ [n]) ≠ none

def HoldsKey (t : Tree) (folder : Path) (secret : EncryptionSecret) : Prop :=
  t.node (folder ++ [secret.id]) = some (.file secret.key.val)

section Entry
variable {cwd : Path} {path : ByteString} {t : Tree} {folder : Path}

theorem filename_entryPath {n : Name} (hn : IsName n) : filename (entryPath path n) = n := by
  have hlast : ∀ front : ByteString, filename (front ++ slash :: n) = n := by
    intro front
    unfold filename
    rw [components_child hn.2.2.2.1]
    simp
  unfold entryPath
  split
  next hslash =>
    rw [← List.dropLast_append_getLast? slash hslash, List.append_assoc]
    exact hlast path.dropLast
  next =>
    rw [List.append_assoc]
    exact hlast path

theorem readFile_entry (hzero : 0 ∉ path) (hne : path ≠ [])
    (hfolder : resolve cwd t path = some folder) {n : Name} {content : List Octet}
    (hnode : t.node (folder ++ [n]) = some (.file content)) :
    readFile cwd (entryPath path n) t = some content := by
  have hn : IsName n := t.named folder n (by simp [hnode])
  have hdir : t.node folder = some .directory := t.above folder n (by simp [hnode])
  obtain ⟨hzero', -, hresolve⟩ := entryPath_spec cwd t hzero hne hn
  unfold readFile
  rw [c_str_of_no_zero hzero', hresolve, hfolder]
  simp [hdir, hnode]

theorem loadEntry_of_file (hzero : 0 ∉ path) (hne : path ≠ [])
    (hfolder : resolve cwd t path = some folder) {n : Name} {content : List Octet}
    (hnode : t.node (folder ++ [n]) = some (.file content)) :
    loadEntry cwd path t folder n =
      if h : content.length = 32 then some ⟨⟨content, h⟩, n⟩ else none := by
  have hn : IsName n := t.named folder n (by simp [hnode])
  unfold loadEntry isRegularFile loadKeyFromFile
  rw [hnode, readFile_entry hzero hne hfolder hnode, filename_entryPath hn]
  simp

theorem loadEntry_of_other {n : Name}
    (h : ∀ content, t.node (folder ++ [n]) ≠ some (.file content)) :
    loadEntry cwd path t folder n = none := by
  unfold loadEntry isRegularFile
  cases hnode : t.node (folder ++ [n]) with
  | none => simp
  | some node =>
    cases node with
    | directory => simp
    | file content => exact absurd hnode (h content)

theorem loadEntry_eq_some_iff (hzero : 0 ∉ path) (hne : path ≠ [])
    (hfolder : resolve cwd t path = some folder) {n : Name} {secret : EncryptionSecret} :
    loadEntry cwd path t folder n = some secret ↔ secret.id = n ∧ HoldsKey t folder secret := by
  unfold HoldsKey
  by_cases hfile : ∃ content, t.node (folder ++ [n]) = some (.file content)
  · obtain ⟨content, hnode⟩ := hfile
    rw [loadEntry_of_file hzero hne hfolder hnode]
    constructor
    · intro h
      split at h
      next hlen =>
        obtain rfl := Option.some.inj h
        exact ⟨rfl, hnode⟩
      next => cases h
    · rintro ⟨rfl, hkey⟩
      rw [hnode] at hkey
      have hcontent : content = secret.key.val := by simpa using hkey
      subst hcontent
      rw [dif_pos secret.key.property]
  · push Not at hfile
    rw [loadEntry_of_other hfile]
    constructor
    · exact nofun
    · rintro ⟨rfl, hkey⟩
      exact absurd hkey (hfile _)

end Entry

/-! ### The folder -/

section Folder
variable {cwd : Path} {path : ByteString} {t : Tree} {folder : Path} {names : List Name}

theorem loadKeys_eq (hzero : 0 ∉ path) (hfolder : resolve cwd t path = some folder)
    (hdir : t.node folder = some .directory) (names : List Name) :
    loadKeysFromFolder cwd path names t =
      (names.filterMap (loadEntry cwd path t folder)).mergeSort fun a b => a.id ≤ b.id := by
  unfold loadKeysFromFolder
  rw [c_str_of_no_zero hzero, hfolder]
  simp [hdir]

theorem loadKeys_perm (hzero : 0 ∉ path) (hfolder : resolve cwd t path = some folder)
    (hdir : t.node folder = some .directory) (names : List Name) :
    (loadKeysFromFolder cwd path names t).Perm
      (names.filterMap (loadEntry cwd path t folder)) := by
  rw [loadKeys_eq hzero hfolder hdir]
  exact List.mergeSort_perm _ _

theorem mem_loadKeys_iff (hzero : 0 ∉ path) (hne : path ≠ [])
    (hfolder : resolve cwd t path = some folder) (hdir : t.node folder = some .directory)
    (hnames : Enumerates t folder names) (secret : EncryptionSecret) :
    secret ∈ loadKeysFromFolder cwd path names t ↔ HoldsKey t folder secret := by
  rw [(loadKeys_perm hzero hfolder hdir names).mem_iff, List.mem_filterMap]
  constructor
  · rintro ⟨n, -, hload⟩
    exact ((loadEntry_eq_some_iff hzero hne hfolder).mp hload).2
  · intro hkey
    have hthere : t.node (folder ++ [secret.id]) ≠ none := by
      rw [hkey]
      simp
    exact ⟨secret.id, (hnames.complete _).mpr hthere,
      (loadEntry_eq_some_iff hzero hne hfolder).mpr ⟨rfl, hkey⟩⟩

theorem loaded_ids_nodup (hzero : 0 ∉ path) (hne : path ≠ [])
    (hfolder : resolve cwd t path = some folder) (hnames : names.Nodup) :
    (names.filterMap (loadEntry cwd path t folder)).Pairwise fun a b => a.id ≠ b.id := by
  rw [List.pairwise_filterMap]
  apply hnames.imp
  intro n m hnm a ha b hb hid
  have hn := ((loadEntry_eq_some_iff hzero hne hfolder).mp ha).1
  have hm := ((loadEntry_eq_some_iff hzero hne hfolder).mp hb).1
  exact hnm (hn.symm.trans (hid.trans hm))

theorem loadKeys_ascending (hzero : 0 ∉ path) (hne : path ≠ [])
    (hfolder : resolve cwd t path = some folder) (hdir : t.node folder = some .directory)
    (hnames : names.Nodup) :
    (loadKeysFromFolder cwd path names t).Pairwise fun a b => a.id < b.id := by
  have hdiff : (loadKeysFromFolder cwd path names t).Pairwise fun a b => a.id ≠ b.id :=
    ((loadKeys_perm hzero hfolder hdir names).pairwise_iff (fun h => h.symm)).mpr
      (loaded_ids_nodup hzero hne hfolder hnames)
  have hsorted : (loadKeysFromFolder cwd path names t).Pairwise fun a b => a.id ≤ b.id := by
    rw [loadKeys_eq hzero hfolder hdir]
    refine (List.pairwise_mergeSort ?_ ?_ _).imp of_decide_eq_true
    · intro a b c hab hbc
      rw [decide_eq_true_eq] at hab hbc ⊢
      exact hab.trans hbc
    · intro a b
      simpa using le_total a.id b.id
  exact (hsorted.and hdiff).imp fun h => lt_of_le_of_ne h.1 h.2

theorem nodup_of_ascending {l : List EncryptionSecret} (h : l.Pairwise fun a b => a.id < b.id) :
    l.Nodup := by
  apply h.imp
  intro a b hlt heq
  rw [heq] at hlt
  exact lt_irrefl _ hlt

/-- The keys of a folder are its files of 32 bytes, in the order of their
names, whatever the order of the iterator; there is a new one to rotate to
exactly if one of these files is not called like the current key. -/
theorem folder_keys (cwd : Path) (path : ByteString) (t : Tree) (folder : Path) (names : List Name)
    (hzero : 0 ∉ path) (hfolder : resolve cwd t path = some folder)
    (hdir : t.node folder = some .directory) (hnames : Enumerates t folder names) :
    let keys := loadKeysFromFolder cwd path names t
    keys.Pairwise (fun a b => a.id < b.id) ∧ (∀ secret, secret ∈ keys ↔ HoldsKey t folder secret) ∧
      (∀ other, Enumerates t folder other → loadKeysFromFolder cwd path other t = keys) ∧
      ∀ currentKeyId, hasNewRotationKey cwd path names currentKeyId t = true ↔
        ∃ secret, HoldsKey t folder secret ∧ secret.id ≠ currentKeyId := by
  have hne : path ≠ [] := by
    rintro rfl
    cases hfolder
  have hmem := mem_loadKeys_iff hzero hne hfolder hdir hnames
  have hsorted := loadKeys_ascending hzero hne hfolder hdir hnames.nodup
  refine ⟨hsorted, hmem, ?_, ?_⟩
  · intro other hother
    have hsorted' := loadKeys_ascending hzero hne hfolder hdir hother.nodup
    have hmem' := mem_loadKeys_iff hzero hne hfolder hdir hother
    have hperm : (loadKeysFromFolder cwd path other t).Perm
        (loadKeysFromFolder cwd path names t) := by
      rw [List.perm_ext_iff_of_nodup (nodup_of_ascending hsorted')
        (nodup_of_ascending hsorted)]
      intro secret
      rw [hmem', hmem]
    exact hperm.eq_of_pairwise (fun a b _ _ hab hba => absurd hba (lt_asymm hab)) hsorted' hsorted
  · intro currentKeyId
    unfold hasNewRotationKey
    simp only [List.any_eq_true, decide_eq_true_eq, hmem]

end Folder

/- A key called k2 and a file that is none. -/
def keyFolder : Tree :=
  ((Tree.root.put [] (lit "keys") .directory).put [lit "keys"] (lit "k2")
    (.file (List.replicate 32 1))).put [lit "keys"] (lit "notes") (.file (lit "old"))

theorem keyFolder_node (n : Name) : keyFolder.node ([lit "keys"] ++ [n]) =
    if n = lit "notes" then some (.file (lit "old"))
    else if n = lit "k2" then some (.file (List.replicate 32 1)) else none := by
  have hkeys : Tree.root.Free [] (lit "keys") := by decide +kernel
  have hfirst : (Tree.root.put [] (lit "keys") .directory).Free [lit "keys"] (lit "k2") := by
    decide +kernel
  have hsecond : ((Tree.root.put [] (lit "keys") .directory).put [lit "keys"] (lit "k2")
      (.file (List.replicate 32 1))).Free [lit "keys"] (lit "notes") := by decide +kernel
  unfold keyFolder
  rw [Tree.put_node _ hsecond, Tree.put_node _ hfirst, Tree.put_node _ hkeys]
  simp [Tree.root]

theorem keyFolder_has_new_key :
    hasNewRotationKey [] (lit "/keys") [lit "notes", lit "k2"] (lit "k1") keyFolder = true := by
  have hnames : Enumerates keyFolder [lit "keys"] [lit "notes", lit "k2"] := by
    refine ⟨by decide, ?_⟩
    intro n
    rw [keyFolder_node]
    by_cases hnotes : n = lit "notes"
    · simp [hnotes]
    · rw [if_neg hnotes]
      by_cases hkey : n = lit "k2" <;> simp [hnotes, hkey]
  have hkeys := folder_keys [] (lit "/keys") keyFolder [lit "keys"] [lit "notes", lit "k2"]
    (by decide) (by decide +kernel) (by decide +kernel) hnames
  refine (hkeys.2.2.2 (lit "k1")).mpr ⟨⟨⟨List.replicate 32 1, rfl⟩, lit "k2"⟩, ?_, by decide⟩
  unfold HoldsKey
  rw [keyFolder_node]
  exact if_neg (by decide)

end RocksDBEncryptionUtils
end OpenArangoDBCore.RocksDBEngine
