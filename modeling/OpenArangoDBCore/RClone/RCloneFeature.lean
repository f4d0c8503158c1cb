import OpenArangoDBCore.Lib.TwoRuns
import OpenArangoDBCore.RClone.ProgressReports

/-!
# The rclone feature and its credentials (RCloneFeature.cpp, RCloneConfig.cpp)

The credentials come from the environment of the server and go into the
environment of the child. Whoever does not look there sees no more of them
than whether they are empty.
-/

namespace OpenArangoDBCore.RClone
open TwoRuns

def parseCloudProvider (input : ByteString) : Option CloudProvider :=
  if input = lit "s3" ∨ input = lit "S3" then some .kS3
  else if input = lit "azure" ∨ input = lit "azureblob" ∨ input = lit "Azure" then some .kAzureBlob
  else if input = lit "gcs" ∨ input = lit "GCS" then some .kGCS
  else none

/-- The empty text on success. -/
def RCloneConfig.validate (config : RCloneConfig) : ByteString :=
  if config.rcloneBinaryPath = [] then
    lit "rclone binary path must not be empty (set --rclone-executable)"
  else if config.bucket = [] then
    lit "bucket/container name must not be empty (set --rclone-bucket)"
  else match config.provider with
    | .kS3 =>
      if config.accessKeyId = [] then
        lit "S3 access key ID must not be empty (set ARANGO_RCLONE_S3_ACCESS_KEY_ID)"
      else if config.secretAccessKey = [] then
        lit "S3 secret access key must not be empty (set ARANGO_RCLONE_S3_SECRET_ACCESS_KEY)"
      else []
    | .kAzureBlob =>
      if config.azureAccount = [] then
        lit "Azure account must not be empty (set ARANGO_RCLONE_AZURE_ACCOUNT)"
      else if config.azureKey = [] then
        lit "Azure key must not be empty (set ARANGO_RCLONE_AZURE_KEY)"
      else []
    | .kGCS =>
      if config.gcsServiceAccountFile = [] then
        lit "GCS service account file must not be empty (set ARANGO_RCLONE_GCS_SERVICE_ACCOUNT_FILE)"
      else []

/-- The targets of the command line options. -/
structure Options where
  rcloneExecutable : ByteString
  providerString : ByteString
  endpoint : ByteString
  bucket : ByteString
  pathPrefix : ByteString
  region : ByteString
  timeoutSeconds : UInt64
  transfers : UInt64
  retries : UInt64

def Options.default : Options := ⟨lit "rclone", [], [], [], [], [], 300, 4, 3⟩

structure RCloneFeature where
  options : Options
  config : Option RCloneConfig
  configured : Bool
  validationError : ByteString

namespace RCloneFeature

def new : RCloneFeature := ⟨.default, none, false, []⟩

/-- `std::getenv` -/
abbrev Getenv := ByteString → Option ByteString

def readEnv (getenv : Getenv) (name : ByteString) : ByteString := (getenv name).getD []

/-- `cfg` with the credentials of its provider. -/
def readConfig (options : Options) (provider : CloudProvider) (getenv : Getenv) : RCloneConfig :=
  let cfg : RCloneConfig := {
    provider := provider
    endpoint := options.endpoint
    bucket := options.bucket
    pathPrefix := options.pathPrefix
    region := options.region
    rcloneBinaryPath := options.rcloneExecutable
    timeoutSeconds := options.timeoutSeconds
    transfers := options.transfers.toUInt32
    retries := options.retries.toUInt32
    accessKeyId := []
    secretAccessKey := []
    azureAccount := []
    azureKey := []
    gcsServiceAccountFile := [] }
  match provider with
  | .kS3 => {cfg with
      accessKeyId := readEnv getenv (lit "ARANGO_RCLONE_S3_ACCESS_KEY_ID")
      secretAccessKey := readEnv getenv (lit "ARANGO_RCLONE_S3_SECRET_ACCESS_KEY")}
  | .kAzureBlob => {cfg with
      azureAccount := readEnv getenv (lit "ARANGO_RCLONE_AZURE_ACCOUNT")
      azureKey := readEnv getenv (lit "ARANGO_RCLONE_AZURE_KEY")}
  | .kGCS => {cfg with
      gcsServiceAccountFile := readEnv getenv (lit "ARANGO_RCLONE_GCS_SERVICE_ACCOUNT_FILE")}

def validateOptions (f : RCloneFeature) (getenv : Getenv) : RCloneFeature :=
  if f.options.providerString = [] then
    {f with
      validationError := lit "cloud provider not specified (set --rclone-provider)"
      configured := false}
  else match parseCloudProvider f.options.providerString with
    | none => {f with
        validationError := lit "unsupported cloud provider '" ++ f.options.providerString ++
          lit "' (valid: s3, azure, gcs)"
        configured := false}
    | some provider =>
      let cfg := readConfig f.options provider getenv
      let error := cfg.validate
      if error ≠ [] then {f with validationError := error, configured := false}
      else {f with config := some cfg, configured := true, validationError := []}

/-- `exists_` is what `fs::exists` answers. -/
def prepare (f : RCloneFeature) (exists_ : ByteString → Bool) : RCloneFeature :=
  if f.configured = false then f
  else match f.config with
    | none => f
    | some config =>
      if exists_ config.rcloneBinaryPath then f
      else {f with
        validationError := lit "rclone binary not found at '" ++ config.rcloneBinaryPath ++
          lit "' (set --rclone-executable)"
        configured := false}

def uploadBackup (f : RCloneFeature) (system : RCloneProcess.System)
    (localBackupPath : ByteString) (progressCallback : Bool) :
    Option (RCloneResult × List ℕ) :=
  match f.configured, f.config with
  | true, some config => RCloneProcess.execute system config localBackupPath progressCallback
  | _, _ => some (⟨-1, [], lit "RClone feature is not configured", false⟩, [])

inductive Call where
  | setOptions (options : Options)
  | validateOptions (getenv : Getenv)
  | prepare (exists_ : ByteString → Bool)
  | uploadBackup (system : RCloneProcess.System) (localBackupPath : ByteString)
      (progressCallback : Bool)

/-- What can be seen after a call: `isConfigured`, `validationError`, and for
an upload its result and the reports. -/
structure Seen where
  isConfigured : Bool
  validationError : ByteString
  upload : Option (Option (RCloneResult × List ℕ))

def step (f : RCloneFeature) : Call → RCloneFeature × Seen
  | .setOptions options =>
    let f := {f with options := options}
    (f, ⟨f.configured, f.validationError, none⟩)
  | .validateOptions getenv =>
    let f := f.validateOptions getenv
    (f, ⟨f.configured, f.validationError, none⟩)
  | .prepare exists_ =>
    let f := f.prepare exists_
    (f, ⟨f.configured, f.validationError, none⟩)
  | .uploadBackup system localBackupPath progressCallback =>
    (f, ⟨f.configured, f.validationError,
      some (f.uploadBackup system localBackupPath progressCallback)⟩)

end RCloneFeature

/-! ### Without the credentials -/

def RCloneConfig.withoutCredentials (config : RCloneConfig) : RCloneConfig :=
  {config with
    accessKeyId := []
    secretAccessKey := []
    azureAccount := []
    azureKey := []
    gcsServiceAccountFile := []}

theorem buildCommand_withoutCredentials (config : RCloneConfig) (localPath : ByteString) :
    RCloneProcess.buildCommand config.withoutCredentials localPath =
      RCloneProcess.buildCommand config localPath := rfl

/-- A system that shows nothing of what is in the environment of a child. -/
def RCloneProcess.System.Discreet (system : System) : Prop :=
  ∀ args env env', system.posix_spawn args env = system.posix_spawn args env'

namespace RCloneFeature

/-- The same variables are empty or not set. -/
def SameNames (getenv getenv' : Getenv) : Prop :=
  ∀ name, readEnv getenv name = [] ↔ readEnv getenv' name = []

/-- Calls that differ at most in the values of the credentials. -/
inductive SameCall : Call → Call → Prop where
  | setOptions (options : Options) : SameCall (.setOptions options) (.setOptions options)
  | validateOptions {getenv getenv' : Getenv} (h : SameNames getenv getenv') :
      SameCall (.validateOptions getenv) (.validateOptions getenv')
  | prepare (exists_ : ByteString → Bool) : SameCall (.prepare exists_) (.prepare exists_)
  | uploadBackup {system : RCloneProcess.System} (h : system.Discreet)
      (localBackupPath : ByteString) (progressCallback : Bool) :
      SameCall (.uploadBackup system localBackupPath progressCallback)
        (.uploadBackup system localBackupPath progressCallback)

structure Alike (f f' : RCloneFeature) : Prop where
  options : f.options = f'.options
  config : f.config.map RCloneConfig.withoutCredentials =
    f'.config.map RCloneConfig.withoutCredentials
  configured : f.configured = f'.configured
  validationError : f.validationError = f'.validationError

theorem readConfig_alike (options : Options) (provider : CloudProvider) (getenv getenv' : Getenv) :
    (readConfig options provider getenv).withoutCredentials =
      (readConfig options provider getenv').withoutCredentials := by
  cases provider <;> rfl

theorem validate_alike (options : Options) (provider : CloudProvider) {getenv getenv' : Getenv}
    (h : SameNames getenv getenv') :
    (readConfig options provider getenv).validate =
      (readConfig options provider getenv').validate := by
  unfold RCloneConfig.validate readConfig
  cases provider with
  | kS3 => simp only [h _]
  | kAzureBlob => simp only [h _]
  | kGCS => simp only [h _]

theorem Alike.validateOptions {f f' : RCloneFeature} (h : Alike f f') {getenv getenv' : Getenv}
    (hgetenv : SameNames getenv getenv') :
    Alike (f.validateOptions getenv) (f'.validateOptions getenv') := by
  unfold RCloneFeature.validateOptions
  rw [← h.options]
  split
  · exact ⟨rfl, h.config, rfl, rfl⟩
  · split
    · exact ⟨rfl, h.config, rfl, rfl⟩
    next provider _ =>
      dsimp only
      rw [← validate_alike f.options provider hgetenv]
      split
      · exact ⟨rfl, h.config, rfl, rfl⟩
      · exact ⟨rfl, congrArg some (readConfig_alike f.options provider getenv getenv'), rfl, rfl⟩

theorem Alike.configs {f f' : RCloneFeature} (h : Alike f f') :
    (f.config = none ∧ f'.config = none) ∨ ∃ config config', f.config = some config ∧
      f'.config = some config' ∧ config.withoutCredentials = config'.withoutCredentials := by
  have hconfig := h.config
  cases hf : f.config with
  | none =>
    rw [hf, Option.map_none] at hconfig
    exact .inl ⟨rfl, Option.map_eq_none_iff.mp hconfig.symm⟩
  | some config =>
    rw [hf, Option.map_some] at hconfig
    obtain ⟨config', hf', heq⟩ := Option.map_eq_some_iff.mp hconfig.symm
    exact .inr ⟨config, config', rfl, hf', heq.symm⟩

theorem Alike.prepare {f f' : RCloneFeature} (h : Alike f f') (exists_ : ByteString → Bool) :
    Alike (f.prepare exists_) (f'.prepare exists_) := by
  unfold RCloneFeature.prepare
  rw [← h.configured]
  split
  · exact h
  · rcases h.configs with ⟨hnone, hnone'⟩ | ⟨config, config', hf, hf', heq⟩
    · rw [hnone, hnone']
      exact h
    · have hpath : config.withoutCredentials.rcloneBinaryPath =
          config'.withoutCredentials.rcloneBinaryPath := congrArg _ heq
      change config.rcloneBinaryPath = config'.rcloneBinaryPath at hpath
      rw [hf, hf']
      dsimp only
      rw [← hpath]
      split
      · exact h
      · exact ⟨h.options, hf ▸ hf' ▸ h.config, rfl, rfl⟩

theorem execute_alike {system : RCloneProcess.System} (hsystem : system.Discreet)
    {config config' : RCloneConfig} (h : config.withoutCredentials = config'.withoutCredentials)
    (localPath : ByteString) (progressCallback : Bool) :
    RCloneProcess.execute system config localPath progressCallback =
      RCloneProcess.execute system config' localPath progressCallback := by
  unfold RCloneProcess.execute RCloneProcess.forkAndExec
  rw [← buildCommand_withoutCredentials config, ← buildCommand_withoutCredentials config', h,
    hsystem _ (RCloneProcess.buildEnvironment config) (RCloneProcess.buildEnvironment config')]

theorem Alike.uploadBackup {f f' : RCloneFeature} (h : Alike f f') {system : RCloneProcess.System}
    (hsystem : system.Discreet) (localBackupPath : ByteString) (progressCallback : Bool) :
    f.uploadBackup system localBackupPath progressCallback =
      f'.uploadBackup system localBackupPath progressCallback := by
  unfold RCloneFeature.uploadBackup
  rw [← h.configured]
  rcases h.configs with ⟨hnone, hnone'⟩ | ⟨config, config', hf, hf', heq⟩
  · rw [hnone, hnone']
  · rw [hf, hf']
    cases f.configured with
    | false => rfl
    | true => exact execute_alike hsystem heq localBackupPath progressCallback

theorem Alike.step {f f' : RCloneFeature} (h : Alike f f') {call call' : Call}
    (hcall : SameCall call call') :
    Alike (f.step call).1 (f'.step call').1 ∧ (f.step call).2 = (f'.step call').2 := by
  have hseen : ∀ {g g' : RCloneFeature}, Alike g g' →
      Seen.mk g.configured g.validationError none = ⟨g'.configured, g'.validationError, none⟩ := by
    intro g g' hg
    rw [hg.configured, hg.validationError]
  cases hcall with
  | setOptions options =>
    have hset : Alike {f with options := options} {f' with options := options} :=
      ⟨rfl, h.config, h.configured, h.validationError⟩
    exact ⟨hset, hseen hset⟩
  | validateOptions hgetenv =>
    have hvalidate := h.validateOptions hgetenv
    exact ⟨hvalidate, hseen hvalidate⟩
  | prepare exists_ =>
    have hprepare := h.prepare exists_
    exact ⟨hprepare, hseen hprepare⟩
  | uploadBackup hsystem localBackupPath progressCallback =>
    refine ⟨h, ?_⟩
    unfold RCloneFeature.step
    dsimp only
    rw [h.configured, h.validationError,
      h.uploadBackup hsystem localBackupPath progressCallback]

/-- Two servers get the same calls in any order, and the same credentials are
set; whatever values these have, no error, no upload and no report tells the
servers apart, unless the child itself shows its environment. -/
theorem credentials_not_seen (calls calls' : List Call) (h : List.Forall₂ SameCall calls calls') :
    answers step new calls = answers step new calls' := by
  have hstart : Alike new new := ⟨rfl, rfl, rfl, rfl⟩
  refine answers_eq_of_alike ?_ h hstart
  intro f f' call call' hf hcall
  exact hf.step hcall

def sampleCalls (secret : ByteString) : List Call :=
  [.setOptions {Options.default with providerString := lit "s3", bucket := lit "bucket"},
    .validateOptions fun _ => some secret, .prepare fun _ => true,
    .uploadBackup (RCloneProcess.systemOf (RCloneProcess.childOf RCloneProcess.orderedReads))
      (lit "/b") true]

theorem rotated_keys_not_seen :
    answers step new (sampleCalls (lit "old")) = answers step new (sampleCalls (lit "new")) := by
  have hnames : SameNames (fun _ => some (lit "old")) fun _ => some (lit "new") :=
    fun _ => iff_of_false (show lit "old" ≠ [] by decide +kernel)
      (show lit "new" ≠ [] by decide +kernel)
  exact credentials_not_seen _ _ (.cons (.setOptions _) (.cons (.validateOptions hnames)
    (.cons (.prepare _) (.cons (.uploadBackup (fun _ _ _ => rfl) _ _) .nil))))

example : (answers step new (sampleCalls (lit "old"))).map (fun seen =>
    (seen.isConfigured, seen.upload.map (Option.map Prod.snd))) =
      [(false, none), (true, none), (true, none), (true, some (some [25, 100]))] := by
  decide +kernel

end RCloneFeature
end OpenArangoDBCore.RClone
