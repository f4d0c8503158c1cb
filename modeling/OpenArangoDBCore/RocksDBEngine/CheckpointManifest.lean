import OpenArangoDBCore.RocksDBEngine.HotBackupCreate

/-!
# What the manifest says of the checkpoint

The sequence number and the collection names are read after the checkpoint,
and the mutex of `RocksDBHotBackup` does not keep the clients of the database
out. Only what happens between the checkpoint and the two reads can part the
manifest from the checkpoint.
-/

namespace OpenArangoDBCore.RocksDBEngine.CheckpointManifest
open FileTree Interleaving HotBackupCreate

def awaitsSequence : Stage → Bool
  | .readingSequence _ _ => true
  | _ => false

def awaitsNames : Stage → Bool
  | .readingSequence _ _ | .unlocking _ _ _ | .listingCollections _ _ _ => true
  | _ => false

/- A client writes while no create is between its checkpoint and the sequence
number, and makes a collection while none is between it and the names. -/
def Quiet {T : Type} (_ : List (T × CreateEvent)) (c : Config T Shared Local)
    (x : T × CreateEvent) : Prop :=
  match x.2 with
  | .clientWrite _ => ∀ t, awaitsSequence (c.control t).stage = false
  | .createCollection _ _ => ∀ t, awaitsNames (c.control t).stage = false
  | _ => True

instance {T : Type} [Fintype T] (past : List (T × CreateEvent)) (c : Config T Shared Local)
    (x : T × CreateEvent) : Decidable (Quiet past c x) :=
  match h : x.2 with
  | .clientWrite _ =>
    decidable_of_iff (∀ t, awaitsSequence (c.control t).stage = false) (by simp [Quiet, h])
  | .createCollection _ _ =>
    decidable_of_iff (∀ t, awaitsNames (c.control t).stage = false) (by simp [Quiet, h])
  | .create _ _ _ | .step | .flushWAL _ | .createCheckpoint _ _ | .openManifest _ _
  | .writeManifest _ _ => isTrue (by simp [Quiet, h])

def Describes (call : Call) (seqNum : UInt64) (names : List ByteString) : Prop :=
  ∃ db, call.captured = some db ∧ seqNum = db.latestSequenceNumber ∧ names = db.collectionNames

def ManifestDescribes (call : Call) (manifest : BackupManifest) : Prop :=
  Describes call manifest.sequenceNumber manifest.collections

/-- What a thread has read is what its checkpoint captured. -/
def Faithful (db : Database) (l : Local) : Prop :=
  match l.stage with
  | .readingSequence call _ => call.captured = some db
  | .unlocking call _ seqNum | .listingCollections call _ seqNum =>
    Describes call seqNum db.collectionNames
  | .openingManifest call _ seqNum names => Describes call seqNum names
  | .writingManifest call manifest => ManifestDescribes call manifest
  | .outside (some (call, res)) => res = .success → ManifestDescribes call l.out.manifest
  | _ => True

theorem Faithful.outside {db db' : Database} {last : Option (Call × HotBackupResult)}
    {out : CreateResult} (h : Faithful db ⟨.outside last, out⟩) :
    Faithful db' ⟨.outside last, out⟩ := by
  cases last with
  | none => trivial
  | some last => exact h

section Steps
variable {cwd : Path} {backupBasePath : ByteString} {s s' : Shared} {l l' : Local} {e : CreateEvent}

theorem Next.faithful {stage stage' : Stage} {out : CreateResult}
    (h : Next backupBasePath s.db stage stage') (hI : Faithful s.db ⟨stage, out⟩) :
    Faithful s.db ⟨stage', out⟩ := by
  cases h with
  | lock => trivial
  | flush => trivial
  | checkpoint => exact rfl
  | readSequence => exact ⟨s.db, hI, rfl, rfl⟩
  | unlock => exact hI
  | list => exact hI
  | «open» => exact hI
  | fail => trivial

theorem Effect.faithful (h : Effect cwd backupBasePath true s l e s' l')
    (hI : Faithful s.db l) : Faithful s'.db l' := by
  cases h with
  | begin => trivial
  | client => exact Faithful.outside hI
  | refuse => exact fun hsuccess => absurd (congrArg HotBackupResult.ok hsuccess) Bool.noConfusion
  | make _ hstage =>
    subst hstage
    trivial
  | advance _ _ _ hnext => exact Next.faithful hnext hI
  | finish => exact fun _ => hI
  | remove => exact fun hsuccess => absurd (congrArg HotBackupResult.ok hsuccess) Bool.noConfusion

theorem Effect.faithful_other {l₀ : Local} {T : Type} {past : List (T × CreateEvent)}
    {c : Config T Shared Local} {t u : T} (h : Effect cwd backupBasePath true c.shared l e s' l')
    (hquiet : Quiet past c (t, e)) (hu : c.control u = l₀) (hI : Faithful c.shared.db l₀) :
    Faithful s'.db l₀ := by
  cases h with
  | begin => exact hI
  | client db hclient =>
    obtain ⟨stage, out⟩ := l₀
    obtain ⟨count, rfl, hnames⟩ | ⟨name, count, rfl⟩ := hclient
    · have hseq := hquiet u
      rw [hu] at hseq
      cases stage with
      | readingSequence => cases hseq
      | unlocking call ok seqNum =>
        unfold Faithful at hI ⊢
        rwa [hnames]
      | listingCollections call ok seqNum =>
        unfold Faithful at hI ⊢
        rwa [hnames]
      | outside => exact Faithful.outside hI
      | _ => exact hI
    · have hwait := hquiet u
      rw [hu] at hwait
      cases stage with
      | readingSequence | unlocking | listingCollections => cases hwait
      | outside => exact Faithful.outside hI
      | _ => exact hI
  | refuse => exact hI
  | make => exact hI
  | advance => exact hI
  | finish => exact hI
  | remove => exact hI

end Steps

section Run
variable {T : Type} [DecidableEq T] {cwd : Path} {backupBasePath : ByteString} {s : Shared}
variable {tr : List (T × CreateEvent)} {c : Config T Shared Local}

theorem run_faithful (hquiet : EachStep (create cwd backupBasePath true) Quiet [] (start s) tr)
    (h : exec (create cwd backupBasePath true) (start s) tr = some c) (t : T) :
    Faithful c.shared.db (c.control t) := by
  refine exec_rule (fun _ c => ∀ t, Faithful c.shared.db (c.control t)) ?_ tr [] (start s) c
    (fun _ => trivial) hquiet h t
  intro past c x c' hI hquiet hf t
  obtain ⟨s', l', heffect, rfl⟩ := fire_effect hf
  dsimp only
  by_cases ht : t = x.1
  · rw [ht, Function.update_self]
    exact Effect.faithful heffect (hI x.1)
  · rw [Function.update_of_ne ht]
    exact Effect.faithful_other heffect hquiet rfl (hI t)

/-- In a run with quiet clients every manifest that is written, and every one
that a successful call returns, describes the database at the checkpoint. -/
theorem manifest_describes_checkpoint
    (hquiet : EachStep (create cwd backupBasePath true) Quiet [] (start s) tr)
    (h : exec (create cwd backupBasePath true) (start s) tr = some c) (t : T) :
    (∀ call manifest, (c.control t).stage = .writingManifest call manifest →
        ManifestDescribes call manifest) ∧
      ∀ call, (c.control t).stage = .outside (some (call, .success)) →
        ManifestDescribes call (c.control t).out.manifest := by
  have hI := run_faithful hquiet h t
  unfold Faithful at hI
  constructor
  · intro call manifest hstage
    rwa [hstage] at hI
  · intro call hstage
    rw [hstage] at hI
    exact hI rfl

end Run

def sampleShared : Shared :=
  ⟨Tree.root.put [] (lit "b") .directory, ⟨7, [lit "_users"]⟩, false⟩

/-- One create, and a client that writes before or behind the read of the sequence number. -/
def sampleRun (early : Bool) : List (Bool × CreateEvent) :=
  let clientWrite := [(false, CreateEvent.clientWrite 1)]
  [(true, .create 0 0 {}), (true, .step), (true, .step), (true, .flushWAL true),
      (true, .createCheckpoint true [])] ++ (if early then clientWrite else []) ++
    [(true, .step), (true, .step)] ++ (if early then [] else clientWrite) ++
    [(true, .step), (true, .openManifest 0 true), (true, .writeManifest none 5)]

theorem lateWrite_is_left_out :
    ∃ c, exec (create [] (lit "/b") true) (start sampleShared) (sampleRun false) = some c ∧
      ∀ call, (c.control true).stage = .outside (some (call, .success)) →
        ManifestDescribes call (c.control true).out.manifest := by
  have hruns : (exec (create [] (lit "/b") true) (start sampleShared)
      (sampleRun false)).isSome := by
    decide +kernel
  obtain ⟨c, hc⟩ := Option.isSome_iff_exists.mp hruns
  exact ⟨c, hc, (manifest_describes_checkpoint (by decide +kernel) hc true).2⟩

def sequenceNumbers (l : Local) : Option (Option UInt64 × UInt64) :=
  match l.stage with
  | .outside (some (call, res)) =>
    if res = .success then
      some (call.captured.map (·.latestSequenceNumber), l.out.manifest.sequenceNumber)
    else none
  | _ => none

/-- The write behind the checkpoint is counted in the manifest. -/
theorem early_write_is_counted :
    ∃ c, exec (create [] (lit "/b") true) (start sampleShared) (sampleRun true) = some c ∧
      ∃ call, (c.control true).stage = .outside (some (call, .success)) ∧
        ¬ ManifestDescribes call (c.control true).out.manifest := by
  have hnumbers : ((exec (create [] (lit "/b") true) (start sampleShared) (sampleRun true)).bind
      fun c => sequenceNumbers (c.control true)) = some (some 7, 8) := by
    decide +kernel
  obtain ⟨c, hc, hl⟩ := Option.bind_eq_some_iff.mp hnumbers
  refine ⟨c, hc, ?_⟩
  unfold sequenceNumbers at hl
  split at hl
  next call res hstage =>
    split at hl
    next hres =>
      refine ⟨call, hres ▸ hstage, ?_⟩
      obtain ⟨hcaptured, hrecorded⟩ := Prod.mk.inj (Option.some.inj hl)
      rintro ⟨db, hdb, hseq, -⟩
      rw [hdb] at hcaptured
      have hseven : db.latestSequenceNumber = 7 := Option.some.inj hcaptured
      rw [hrecorded, hseven] at hseq
      exact absurd hseq (by decide)
    next => cases hl
  next => cases hl

end OpenArangoDBCore.RocksDBEngine.CheckpointManifest
