import OpenArangoDBCore.RocksDBEngine.RocksDBHotBackup

/-!
# Listing backups with bad manifests

A manifest that does not parse is left out of the list. Only the number can
throw, and what it throws is not caught by `list`.
-/

namespace OpenArangoDBCore.RocksDBEngine.ManifestListing
open FileTree BackupManifest RocksDBHotBackup

/-- The digits behind the name of the sequence number are a `uint64_t`. -/
def SequenceFits (json : ByteString) : Prop :=
  ∀ rest, afterFirst (quoted (lit "sequenceNumber") ++ lit ": ") json = some rest →
    digitsValue (rest.takeWhile isDigit) < 2 ^ 64

/-- The number of a text without the required fields is not looked at. -/
def Readable (json : ByteString) : Prop :=
  hasField json (lit "backupId") = true → hasField json (lit "timestamp") = true →
    SequenceFits json

theorem extractUint64Field_returns_iff (json : ByteString) :
    (∃ n, extractUint64Field json (lit "sequenceNumber") = .ok n) ↔ SequenceFits json := by
  unfold extractUint64Field SequenceFits
  cases afterFirst (quoted (lit "sequenceNumber") ++ lit ": ") json with
  | none => simp
  | some rest =>
    dsimp only
    by_cases hdigits : rest.takeWhile isDigit = []
    · simp [hdigits, digitsValue]
    · rw [if_neg hdigits, stoull_eq]
      split
      next hfits => exact iff_of_true ⟨_, rfl⟩ fun _ h => Option.some.inj h ▸ hfits
      next hlarge =>
        refine iff_of_false ?_ fun h => hlarge (h rest rfl)
        rintro ⟨n, hn⟩
        cases hn

theorem fromJson_returns_iff (json : ByteString) (out : BackupManifest) :
    (∃ r, fromJson json out = .ok r) ↔ Readable json := by
  unfold fromJson Readable
  rw [← extractUint64Field_returns_iff]
  by_cases hjson : json = []
  · rw [if_pos hjson, hjson]
    exact iff_of_true ⟨_, rfl⟩ fun h => absurd h (by decide)
  rw [if_neg hjson]
  by_cases hid : hasField json (lit "backupId") = false
  · rw [if_pos hid, hid]
    exact iff_of_true ⟨_, rfl⟩ nofun
  rw [if_neg hid]
  by_cases htimestamp : hasField json (lit "timestamp") = false
  · rw [if_pos htimestamp, htimestamp]
    exact iff_of_true ⟨_, rfl⟩ fun _ => nofun
  rw [if_neg htimestamp]
  simp only [eq_true_of_ne_false hid, eq_true_of_ne_false htimestamp, true_imp_iff]
  cases extractUint64Field json (lit "sequenceNumber") with
  | error e => exact ⟨nofun, nofun⟩
  | ok n =>
    refine iff_of_true ?_ ⟨n, rfl⟩
    rw [show (Except.ok n : Except OutOfRange UInt64) = pure n from rfl, pure_bind]
    split
    next => exact ⟨_, rfl⟩
    next =>
      split
      next => exact ⟨_, rfl⟩
      next => exact ⟨_, rfl⟩

/-! ### The loop of `list` -/

/-- The manifest of a text that parses. -/
def parsed (json : ByteString) : Option BackupManifest :=
  match fromJson json {} with
  | .ok (res, manifest) => if res.ok then some manifest else none
  | .error _ => none

section Listing
variable (cwd : Path) (backupBasePath : ByteString)

/-- What MANIFEST.json of a subdirectory of the base directory holds. -/
def manifestText (t : Tree) (base : Path) (name : Name) : Option ByteString :=
  if t.node (base ++ [name]) = some .directory then
    readFile cwd (entryPath backupBasePath name ++ lit "/MANIFEST.json") t
  else none

/-- The manifests that parse, in the order of the directory. -/
def goodManifests (names : List Name) (t : Tree) : List BackupManifest :=
  match resolve cwd t (c_str backupBasePath).val with
  | none => []
  | some base => names.filterMap fun name =>
    (manifestText cwd backupBasePath t base name).bind parsed

variable {cwd backupBasePath}

theorem listEntry_of_none {t : Tree} {base : Path} {name : Name}
    (h : manifestText cwd backupBasePath t base name = none) :
    listEntry cwd backupBasePath t base name = .ok none := by
  unfold manifestText at h
  unfold listEntry loadFromFile
  by_cases hdir : t.node (base ++ [name]) = some .directory
  · rw [if_pos hdir] at h
    dsimp only
    rw [if_neg (not_not.mpr hdir), h]
    rfl
  · rw [if_pos hdir]
    rfl

theorem listEntry_of_some {t : Tree} {base : Path} {name : Name} {json : ByteString}
    (h : manifestText cwd backupBasePath t base name = some json) :
    listEntry cwd backupBasePath t base name =
      (fromJson json {}).map fun r => if r.1.ok then some r.2 else none := by
  unfold manifestText at h
  split at h
  next hdir =>
    unfold listEntry loadFromFile
    dsimp only
    rw [if_neg (not_not.mpr hdir), h]
    dsimp only
    by_cases hjson : json = []
    · rw [if_pos hjson, hjson]
      rfl
    · rw [if_neg hjson]
      cases fromJson json {} with
      | error e => rfl
      | ok r => rfl
  next => cases h

theorem listEntry_returns_iff (t : Tree) (base : Path) (name : Name) :
    (∃ entry, listEntry cwd backupBasePath t base name = .ok entry) ↔
      ∀ json, manifestText cwd backupBasePath t base name = some json → Readable json := by
  cases htext : manifestText cwd backupBasePath t base name with
  | none => exact iff_of_true ⟨none, listEntry_of_none htext⟩ nofun
  | some json =>
    rw [listEntry_of_some htext]
    constructor
    · rintro ⟨entry, hentry⟩ _ ⟨⟩
      rw [← fromJson_returns_iff json {}]
      cases hread : fromJson json {} with
      | error e =>
        rw [hread] at hentry
        cases hentry
      | ok r => exact ⟨r, rfl⟩
    · intro h
      obtain ⟨r, hr⟩ := (fromJson_returns_iff json {}).mpr (h json rfl)
      rw [hr]
      exact ⟨_, rfl⟩

theorem listEntry_value {t : Tree} {base : Path} {name : Name} {entry : Option BackupManifest}
    (h : listEntry cwd backupBasePath t base name = .ok entry) :
    entry = (manifestText cwd backupBasePath t base name).bind parsed := by
  cases htext : manifestText cwd backupBasePath t base name with
  | none =>
    rw [listEntry_of_none htext] at h
    exact (Except.ok.inj h).symm
  | some json =>
    rw [listEntry_of_some htext] at h
    unfold parsed
    rw [Option.bind_some]
    cases hread : fromJson json {} with
    | error e =>
      rw [hread] at h
      cases h
    | ok r =>
      rw [hread] at h
      exact (Except.ok.inj h).symm

variable (cwd backupBasePath) in
/-- The manifests that parse and no others, in the order of their timestamps. -/
def ListsGood (names : List Name) (t : Tree) : Prop :=
  ∃ out, list cwd backupBasePath names t = .ok (.success, out) ∧
    out.Pairwise (fun a b => a.timestamp ≤ b.timestamp) ∧
    out.Perm (goodManifests cwd backupBasePath names t)

theorem listsGood_iff (names : List Name) (t : Tree) :
    ListsGood cwd backupBasePath names t ↔
      ∀ base, resolve cwd t (c_str backupBasePath).val = some base → ∀ name ∈ names,
        ∀ json, manifestText cwd backupBasePath t base name = some json → Readable json := by
  unfold ListsGood list goodManifests
  cases resolve cwd t (c_str backupBasePath).val with
  | none => exact iff_of_true ⟨[], rfl, .nil, .refl _⟩ nofun
  | some base =>
    have hthrow : (∃ found, names.filterMapM (listEntry cwd backupBasePath t base) = .ok found) ↔
        ∀ name ∈ names, ∃ entry, listEntry cwd backupBasePath t base name = .ok entry :=
      filterMapM_ok_iff
    simp only [listEntry_returns_iff] at hthrow
    constructor
    · rintro ⟨out, hout, -⟩ _ ⟨⟩
      dsimp only at hout
      refine hthrow.mp ?_
      cases hfound : names.filterMapM (listEntry cwd backupBasePath t base) with
      | error e =>
        rw [hfound] at hout
        cases hout
      | ok found => exact ⟨found, rfl⟩
    · intro h
      obtain ⟨found, hfound⟩ := hthrow.mpr (h base rfl)
      have hvalue := filterMapM_value hfound fun _ _ _ => listEntry_value
      dsimp only
      rw [hfound, ← hvalue]
      refine ⟨_, rfl, ?_, List.mergeSort_perm _ _⟩
      have hsorted : (found.mergeSort fun a b => decide (a.timestamp ≤ b.timestamp)).Pairwise
          fun a b => decide (a.timestamp ≤ b.timestamp) = true := by
        refine List.pairwise_mergeSort ?_ ?_ found
        · intro a b c hab hbc
          exact decide_eq_true (le_trans (of_decide_eq_true hab) (of_decide_eq_true hbc))
        · intro a b
          rw [Bool.or_eq_true]
          exact (le_total a.timestamp b.timestamp).imp decide_eq_true decide_eq_true
      exact hsorted.imp of_decide_eq_true

/-- `fromJson` throws on a number that does not fit only, and where no MANIFEST.json has one
`list` answers with all manifests that parse. -/
theorem bad_manifest_hides_nothing_iff (json : ByteString) (out : BackupManifest) (cwd : Path)
    (backupBasePath : ByteString) (names : List Name) (t : Tree) :
    ((∃ r, fromJson json out = .ok r) ↔ Readable json) ∧
      (ListsGood cwd backupBasePath names t ↔
        ∀ base, resolve cwd t (c_str backupBasePath).val = some base → ∀ name ∈ names,
          ∀ json, manifestText cwd backupBasePath t base name = some json → Readable json) :=
  ⟨fromJson_returns_iff json out, listsGood_iff names t⟩

end Listing

/-- The backup `good` and one whose sequence number is 2^64. -/
def sampleTree : Tree :=
  ((((Tree.root.put [] (lit "b") .directory).put [lit "b"] (lit "good") .directory).put
    [lit "b", lit "good"] (lit "MANIFEST.json")
      (.file (lit "\x7b\"backupId\": \"good\", \"timestamp\": \"monday\"\x7d"))).put
    [lit "b"] (lit "bad") .directory).put [lit "b", lit "bad"] (lit "MANIFEST.json")
      (.file (lit "\"backupId\" \"timestamp\" \"sequenceNumber\": 18446744073709551616"))

theorem large_number_aborts_list :
    goodManifests [] (lit "/b") [lit "good", lit "bad"] sampleTree =
        [{ backupId := lit "good", timestamp := lit "monday" }] ∧
      list [] (lit "/b") [lit "good", lit "bad"] sampleTree = .error .stoull := by
  decide +kernel

end OpenArangoDBCore.RocksDBEngine.ManifestListing
