import OpenArangoDBCore.RestHandler.RestHotBackupHandler

/-!
# What is deleted with a backup

The id of a request is not checked: it takes part in the resolution of the
path, and what the path leads to is removed.
-/

namespace OpenArangoDBCore.RocksDBEngine.DeleteBackup
open FileTree RocksDBHotBackup RestHandler.RestHotBackupHandler

section Delete
variable (cwd : Path) (backupBasePath : ByteString) (t : Tree)

/-- What is found at the path of a backup with a name is the entry of the base directory. -/
theorem resolve_backupPath {backupId : ByteString} (hne : backupBasePath ≠ [])
    (hbase : 0 ∉ backupBasePath) (hid : IsName backupId) {p : Path}
    (h : resolve cwd t (c_str (backupPath backupBasePath backupId)).val = some p) :
    ∃ dir, resolve cwd t (c_str backupBasePath).val = some dir ∧
      t.node (dir ++ [backupId]) ≠ none ∧ p = dir ++ [backupId] := by
  rw [backupPath, c_str_child hbase hid, resolve_child cwd t hne hid] at h
  obtain ⟨dir, hdir, h⟩ := Option.bind_eq_some_iff.mp h
  split at h
  next hthere =>
    refine ⟨dir, ?_, hthere.2, (Option.some.inj h).symm⟩
    rw [c_str_of_no_zero hbase]
    exact hdir
  next => cases h

theorem deleteBackup_found {backupId : ByteString} {p : Path}
    (h : resolve cwd t (c_str (backupPath backupBasePath backupId)).val = some p) :
    deleteBackup cwd backupBasePath backupId t = (.success, t.remove p) := by
  simp only [deleteBackup, removeDirectory, fsExists, fsRemoveAll, h, Option.isSome_some,
    Bool.true_eq_false, if_false]

/-- An error without effect, or the removal of the entry of the base directory
with the name and of what is below it. -/
def RemovesOnlyNamed (backupId : ByteString) (r : HotBackupResult × Tree) : Prop :=
  (r.1.ok = false ∧ r.2 = t) ∨
    (r.1.ok = true ∧ ∃ dir, resolve cwd t (c_str backupBasePath).val = some dir ∧
      t.node (dir ++ [backupId]) ≠ none ∧ r.2 = t.remove (dir ++ [backupId]))

theorem removesOnlyNamed_iff (backupId : ByteString) :
    RemovesOnlyNamed cwd backupBasePath t backupId (deleteBackup cwd backupBasePath backupId t) ↔
      fsExists cwd (backupPath backupBasePath backupId) t = false ∨
        (backupBasePath ≠ [] ∧ 0 ∉ backupBasePath ∧ IsName backupId) := by
  cases hfound : resolve cwd t (c_str (backupPath backupBasePath backupId)).val with
  | none =>
    have hmissing : fsExists cwd (backupPath backupBasePath backupId) t = false := by
      rw [fsExists, hfound]
      rfl
    constructor
    · exact fun _ => .inl hmissing
    · intro _
      unfold deleteBackup
      rw [if_pos hmissing]
      exact .inl ⟨rfl, rfl⟩
  | some p =>
    have hthere : fsExists cwd (backupPath backupBasePath backupId) t ≠ false := by
      rw [fsExists, hfound]
      exact Bool.noConfusion
    rw [deleteBackup_found cwd backupBasePath t hfound]
    constructor
    · rintro (⟨hok, -⟩ | ⟨-, dir, hdir, hchild, hsame⟩)
      · cases hok
      · refine .inr ⟨?_, ?_, t.named dir backupId hchild⟩
        · rintro rfl
          cases hdir
        · -- A zero octet ends the path at the base directory, which goes with its entries.
          intro hzero
          unfold backupPath at hfound
          rw [List.append_assoc, c_str_append_of_zero hzero, hdir] at hfound
          obtain rfl := Option.some.inj hfound
          have hnode := congrArg (fun t : Tree => t.node dir) hsame
          have hlonger : ¬ dir ++ [backupId] <+: dir := by
            intro hwhole
            have := hwhole.length_le
            simp at this
          simp only [Tree.remove_node, List.prefix_rfl, if_true, if_neg hlonger,
            t.above dir backupId hchild] at hnode
          cases hnode
    · rintro (hmissing | ⟨hne, hbase, hid⟩)
      · exact absurd hmissing hthere
      · obtain ⟨dir, hdir, hchild, rfl⟩ :=
          resolve_backupPath cwd backupBasePath t hne hbase hid hfound
        exact .inr ⟨rfl, dir, hdir, hchild, rfl⟩

/-- The handler reports the deletion and does nothing else to the tree. -/
theorem executeDelete_deletes (backupId : ByteString) :
    (executeDelete cwd backupBasePath backupId t).2.2 =
        (deleteBackup cwd backupBasePath backupId t).2 ∧
      (executeDelete cwd backupBasePath backupId t).1.ok =
        (deleteBackup cwd backupBasePath backupId t).1.ok := by
  unfold executeDelete
  rcases deleteBackup cwd backupBasePath backupId t with ⟨res, t'⟩
  cases hok : res.ok with
  | false => simp [hok]
  | true => simp [hok, HotBackupResult.success]

end Delete

def sampleTree : Tree :=
  ((Tree.root.put [] (lit "backups") .directory).put [lit "backups"] (lit "monday") .directory).put
    [lit "backups", lit "monday"] (lit "MANIFEST.json") (.file (lit "\x7b\x7d"))

/-- The empty id deletes all backups and their directory. -/
theorem empty_id_removes_base :
    (deleteBackup [] (lit "/backups") [] sampleTree).1.ok = true ∧
      sampleTree.node [lit "backups", lit "monday"] = some .directory ∧
      (deleteBackup [] (lit "/backups") [] sampleTree).2.node [lit "backups", lit "monday"] = none ∧
      ¬ RemovesOnlyNamed [] (lit "/backups") sampleTree []
        (deleteBackup [] (lit "/backups") [] sampleTree) := by
  have hok : (deleteBackup [] (lit "/backups") [] sampleTree).1.ok = true := by decide +kernel
  refine ⟨hok, by decide +kernel, by decide +kernel, ?_⟩
  rintro (⟨herror, -⟩ | ⟨-, dir, -, hchild, -⟩)
  · rw [hok] at herror
    cases herror
  · exact (sampleTree.named dir [] hchild).1 rfl

end OpenArangoDBCore.RocksDBEngine.DeleteBackup
