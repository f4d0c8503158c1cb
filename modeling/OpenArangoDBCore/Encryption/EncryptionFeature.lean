import OpenArangoDBCore.Lib.Overlay
import OpenArangoDBCore.RocksDBEngine.RocksDBEncryptionUtils

/-!
# A file over several lives of the server (EncryptionFeature.cpp, EncryptionProvider.cpp:122-171)

Preparing the server loads the key file and makes a provider of it, and
unpreparing lets the provider go. A file has a prefix from its creation on, and
each access makes a stream of the key and this prefix.
-/

namespace OpenArangoDBCore.RocksDBEngine

inductive ProviderError where
  | invalidArgument (message : ByteString)
  | ioError (message : ByteString)

structure EncryptionProvider where
  key : Key

namespace EncryptionProvider

def GetPrefixLength : ℕ := 16

/-- `randBytes` is `RAND_bytes` for so many bytes. -/
def CreateNewPrefix (prefixLength : ℕ)
    (randBytes : ℤ × {bytes : ByteString // bytes.length = prefixLength}) :
    Except ProviderError {bytes : ByteString // bytes.length = prefixLength} :=
  if prefixLength < 16 then .error (.invalidArgument (lit "Prefix too short for IV"))
  else if randBytes.1 ≠ 1 then .error (.ioError (lit "RAND_bytes failed to generate IV"))
  else .ok randBytes.2

def CreateCipherStream (provider : EncryptionProvider) (filePrefix : ByteString) :
    Except ProviderError AESCTRCipherStream :=
  if h : filePrefix.length < 16 then .error (.invalidArgument (lit "Prefix too short for IV"))
  else .ok ⟨provider.key, ⟨filePrefix.take 16, by simp [kBlockSize]; omega⟩⟩

theorem CreateCipherStream_ok (provider : EncryptionProvider) {filePrefix : ByteString}
    {stream : AESCTRCipherStream} (h : provider.CreateCipherStream filePrefix = .ok stream) :
    stream.key = provider.key ∧ stream.iv.val = filePrefix.take 16 := by
  unfold CreateCipherStream at h
  split at h
  next => cases h
  next =>
    cases h
    simp

end EncryptionProvider
end OpenArangoDBCore.RocksDBEngine

namespace OpenArangoDBCore.Encryption
open FileTree RocksDBEngine RocksDBHotBackup RocksDBEncryptionUtils Overlay CounterMode
  AESCTRCipherStream

structure EncryptionFeature where
  keyfilePath : ByteString
  keyfolderPath : ByteString
  encryptionEnabled : Bool := false
  provider : Option EncryptionProvider := none

namespace EncryptionFeature

/-- What the exception says, if there is one. -/
def validateOptions (cwd : Path) (t : Tree) (f : EncryptionFeature) : Option ByteString :=
  if f.keyfilePath ≠ [] ∧ fsExists cwd f.keyfilePath t = false then
    some (lit "Encryption keyfile does not exist: " ++ f.keyfilePath)
  else if f.keyfilePath ≠ [] ∧
      ((resolve cwd t (c_str f.keyfilePath).val).map (isRegularFile t)).getD false = false then
    some (lit "Encryption keyfile is not a regular file: " ++ f.keyfilePath)
  else if f.keyfolderPath ≠ [] ∧ fsIsDirectory cwd f.keyfolderPath t = false then
    some (lit "Encryption keyfolder is not a directory: " ++ f.keyfolderPath)
  else none

def prepare (cwd : Path) (t : Tree) (f : EncryptionFeature) : Except ByteString EncryptionFeature :=
  if f.keyfilePath = [] ∧ f.keyfolderPath = [] then .ok f
  else if f.keyfilePath ≠ [] then
    match loadKeyFromFile cwd f.keyfilePath t with
    | none => .error (lit "Failed to load encryption key from: " ++ f.keyfilePath ++
        lit " (file must contain exactly 32 bytes)")
    | some secret => .ok {f with provider := some ⟨secret.key⟩, encryptionEnabled := true}
  else .ok f

def unprepare (f : EncryptionFeature) : EncryptionFeature :=
  {f with provider := none, encryptionEnabled := false}

end EncryptionFeature

/-! ### The server and one of its files -/

/-- `written` is what was written, in the clear. -/
structure Server where
  feature : EncryptionFeature
  filePrefix : ByteString := []
  stored : Cells Byte := Cells.empty
  written : Cells Byte := Cells.empty

/-- A start is `validateOptions` and `prepare`, a stop is `unprepare`: `start` and
`stop` of the feature do nothing. -/
inductive Event (ω : Type) where
  | start (t : Tree)
  | stop
  | create (randBytes : ℤ × Block)
  | write (fileOffset : UInt64) (data : ByteString) (library : ω)

namespace Server

def openStream (s : Server) : Option AESCTRCipherStream :=
  s.feature.provider.bind fun provider => (provider.CreateCipherStream s.filePrefix).toOption

section Step
variable {ω Ctx : Type} (evp : EVP ω Ctx) (cwd : Path)

/-- The first exception ends the start. -/
def start (s : Server) (t : Tree) : Server :=
  match s.feature.validateOptions cwd t, s.feature.prepare cwd t with
  | none, .ok feature => {s with feature := feature}
  | _, _ => s

def create (s : Server) (randBytes : ℤ × Block) : Server :=
  open EncryptionProvider in
  match s.feature.provider, CreateNewPrefix GetPrefixLength randBytes with
  | some _, .ok iv => {s with filePrefix := iv.val, stored := Cells.empty, written := Cells.empty}
  | _, _ => s

def write (s : Server) (fileOffset : UInt64) (data : ByteString) (library : ω) : Server :=
  match s.openStream with
  | none => s
  | some stream =>
    let result := Encrypt evp stream fileOffset data library
    if result.status = .ok then
      {s with
        stored := Overlay.write s.stored fileOffset.toNat result.data
        written := Overlay.write s.written fileOffset.toNat data}
    else s

def step (s : Server) : Event ω → Server
  | .start t => s.start cwd t
  | .stop => {s with feature := s.feature.unprepare}
  | .create randBytes => s.create randBytes
  | .write fileOffset data library => s.write evp fileOffset data library

/-- The stored bytes from the offset on, decrypted. -/
def readBack (s : Server) (fileOffset : UInt64) (buffer : ByteString) (library : ω) :
    Option ByteString :=
  s.openStream.bind fun stream =>
    let result := Decrypt evp stream fileOffset buffer library
    if result.status = .ok then some result.data else none

end Step

end Server

/-! ### What every event keeps -/

structure Faithful (aes : Key → Block → Block) (keyfilePath content : ByteString) (s : Server) :
    Prop where
  path : s.feature.keyfilePath = keyfilePath
  enabled : s.feature.encryptionEnabled = s.feature.provider.isSome
  key : ∀ provider, s.feature.provider = some provider →
    keyfilePath ≠ [] ∧ provider.key.val = content
  filePrefix : s.filePrefix = [] ∨ s.filePrefix.length = 16
  coded : ∀ stream : AESCTRCipherStream, stream.key.val = content →
    stream.iv.val = s.filePrefix.take 16 →
    Coded (· ^^^ ·) (keystream aes stream.key stream.iv) s.written s.stored

/-- The key file, if there is one, is the same at each start. -/
def Event.Fits {ω : Type} (cwd : Path) (keyfilePath content : ByteString) : Event ω → Prop
  | .start t => keyfilePath ≠ [] → readFile cwd keyfilePath t = some content
  | .write _ data _ => data.length ≤ INT_MAX
  | _ => True

section Runs
variable {ω Ctx : Type} {evp : EVP ω Ctx} {aes : Key → Block → Block}
  {started : Ctx → Key → Block → ℕ → Prop} {cwd : Path} {keyfilePath content : ByteString}
  {s : Server}

theorem loadKeyFromFile_content {path : ByteString} {t : Tree} {secret : EncryptionSecret}
    (h : loadKeyFromFile cwd path t = some secret) : readFile cwd path t = some secret.key.val := by
  unfold loadKeyFromFile at h
  cases hread : readFile cwd path t with
  | none => simp [hread] at h
  | some text =>
    rw [hread] at h
    dsimp only at h
    split at h
    next => rw [← Option.some.inj h]
    next => cases h

theorem prepare_ok {t : Tree} {f g : EncryptionFeature} (h : f.prepare cwd t = .ok g) :
    g = f ∨ f.keyfilePath ≠ [] ∧ ∃ secret, loadKeyFromFile cwd f.keyfilePath t = some secret ∧
      g = {f with provider := some ⟨secret.key⟩, encryptionEnabled := true} := by
  unfold EncryptionFeature.prepare at h
  split at h
  next => exact .inl (Except.ok.inj h).symm
  next =>
    split at h
    next hpath =>
      cases hload : loadKeyFromFile cwd f.keyfilePath t with
      | none =>
        rw [hload] at h
        cases h
      | some secret =>
        rw [hload] at h
        exact .inr ⟨hpath, secret, rfl, (Except.ok.inj h).symm⟩
    next => exact .inl (Except.ok.inj h).symm

theorem Faithful.start (h : Faithful aes keyfilePath content s) {t : Tree}
    (hfile : keyfilePath ≠ [] → readFile cwd keyfilePath t = some content) :
    Faithful aes keyfilePath content (s.start cwd t) := by
  unfold Server.start
  split
  next feature _ hprepare =>
    rcases prepare_ok hprepare with rfl | ⟨hpath, secret, hload, rfl⟩
    · exact h
    · have hcontent := loadKeyFromFile_content hload
      rw [h.path] at hpath hcontent
      rw [hfile hpath, Option.some.injEq] at hcontent
      refine ⟨h.path, rfl, ?_, h.filePrefix, h.coded⟩
      rintro provider hprovider
      obtain rfl := Option.some.inj hprovider
      exact ⟨hpath, hcontent.symm⟩
  next => exact h

theorem Faithful.stop (h : Faithful aes keyfilePath content s) :
    Faithful aes keyfilePath content {s with feature := s.feature.unprepare} :=
  ⟨h.path, rfl, nofun, h.filePrefix, h.coded⟩

theorem Faithful.create (h : Faithful aes keyfilePath content s) (randBytes : ℤ × Block) :
    Faithful aes keyfilePath content (s.create randBytes) := by
  unfold Server.create
  split
  next iv _ _ => exact ⟨h.path, h.enabled, h.key, .inr iv.property, fun _ _ _ => coded_empty⟩
  next => exact h

theorem Faithful.openStream (h : Faithful aes keyfilePath content s) {stream : AESCTRCipherStream}
    (hopen : s.openStream = some stream) :
    stream.key.val = content ∧ stream.iv.val = s.filePrefix.take 16 := by
  unfold Server.openStream at hopen
  obtain ⟨provider, hprovider, hstream⟩ := Option.bind_eq_some_iff.mp hopen
  cases hcreate : provider.CreateCipherStream s.filePrefix with
  | error e =>
    rw [hcreate] at hstream
    cases hstream
  | ok made =>
    rw [hcreate] at hstream
    obtain rfl := Option.some.inj hstream
    obtain ⟨hkey, hiv⟩ := provider.CreateCipherStream_ok hcreate
    exact ⟨hkey ▸ (h.key provider hprovider).2, hiv⟩

theorem stream_unique {stream other : AESCTRCipherStream} (hkey : stream.key.val = other.key.val)
    (hiv : stream.iv.val = other.iv.val) : stream = other := by
  obtain ⟨key, iv⟩ := stream
  obtain ⟨key', iv'⟩ := other
  obtain rfl : key = key' := Subtype.ext hkey
  obtain rfl : iv = iv' := Subtype.ext hiv
  rfl

theorem Faithful.write (hevp : OutputsKeystream evp aes started)
    (h : Faithful aes keyfilePath content s) (fileOffset : UInt64) {data : ByteString}
    (hsize : data.length ≤ INT_MAX) (library : ω) :
    Faithful aes keyfilePath content (s.write evp fileOffset data library) := by
  unfold Server.write
  cases hopen : s.openStream with
  | none => exact h
  | some stream =>
    obtain ⟨hkey, hiv⟩ := h.openStream hopen
    dsimp only
    split
    next hok =>
      refine ⟨h.path, h.enabled, h.key, h.filePrefix, ?_⟩
      intro other hkey' hiv'
      obtain rfl := stream_unique (hkey.trans hkey'.symm) (hiv.trans hiv'.symm)
      unfold Encrypt at hok ⊢
      rw [ctrTransform_data hevp hsize hok]
      exact (h.coded stream hkey hiv).write _ _
    next => exact h

theorem Faithful.step (hevp : OutputsKeystream evp aes started)
    (h : Faithful aes keyfilePath content s) {e : Event ω} (he : e.Fits cwd keyfilePath content) :
    Faithful aes keyfilePath content (s.step evp cwd e) := by
  cases e with
  | start t => exact h.start he
  | stop => exact h.stop
  | create randBytes => exact h.create randBytes
  | write fileOffset data library => exact h.write hevp fileOffset he library

theorem Faithful.run (hevp : OutputsKeystream evp aes started)
    (h : Faithful aes keyfilePath content s) {events : List (Event ω)}
    (hfits : ∀ e ∈ events, e.Fits cwd keyfilePath content) :
    Faithful aes keyfilePath content (events.foldl (Server.step evp cwd) s) := by
  induction events generalizing s with
  | nil => exact h
  | cons e events ih =>
    obtain ⟨he, hrest⟩ := List.forall_mem_cons.mp hfits
    exact ih (h.step hevp he) hrest

theorem faithful_new (aes : Key → Block → Block) (keyfilePath keyfolderPath content : ByteString) :
    Faithful aes keyfilePath content {feature := {keyfilePath, keyfolderPath}} :=
  ⟨rfl, rfl, nofun, .inl rfl, fun _ _ _ => coded_empty⟩

theorem Faithful.readBack (hevp : OutputsKeystream evp aes started)
    (h : Faithful aes keyfilePath content s) {fileOffset : UInt64} {buffer answer : ByteString}
    {library : ω} (hheld : Holds s.stored fileOffset.toNat buffer) (hsize : buffer.length ≤ INT_MAX)
    (hread : s.readBack evp fileOffset buffer library = some answer) :
    Holds s.written fileOffset.toNat answer := by
  unfold Server.readBack at hread
  obtain ⟨stream, hopen, hresult⟩ := Option.bind_eq_some_iff.mp hread
  obtain ⟨hkey, hiv⟩ := h.openStream hopen
  dsimp only at hresult
  split at hresult
  next hok =>
    unfold Decrypt at hok hresult
    rw [ctrTransform_data hevp hsize hok] at hresult
    rw [← Option.some.inj hresult]
    exact (h.coded stream hkey hiv).read xor_cancel hheld
  next => cases hresult

theorem Faithful.readable (hsucceeds : Succeeds evp) (h : Faithful aes keyfilePath content s)
    (henabled : s.feature.encryptionEnabled = true) (hfile : s.filePrefix ≠ [])
    (fileOffset : UInt64) (buffer : ByteString) (library : ω) :
    ∃ answer, s.readBack evp fileOffset buffer library = some answer := by
  have hlen : ¬ s.filePrefix.length < 16 := by
    have := h.filePrefix.resolve_left hfile
    omega
  rw [h.enabled] at henabled
  obtain ⟨provider, hprovider⟩ := Option.isSome_iff_exists.mp henabled
  unfold Server.readBack Server.openStream EncryptionProvider.CreateCipherStream
  rw [hprovider, Option.bind_some, dif_neg hlen]
  simp only [Except.toOption, Option.bind_some]
  unfold Decrypt
  rw [if_pos (ctrTransform_ok hsucceeds _ _ _ _)]
  exact ⟨_, rfl⟩

/-- As long as the key file is the same at every start, what a file is read
back to is what was last written at each of its positions, in whatever life of
the server and at whatever offsets. A server that has a key file has a provider
exactly while it says so; one with only a key folder never encrypts. -/
theorem file_survives_restarts {ω Ctx : Type} (evp : EVP ω Ctx) (aes : Key → Block → Block)
    (started : Ctx → Key → Block → ℕ → Prop) (hevp : OutputsKeystream evp aes started) (cwd : Path)
    (keyfilePath keyfolderPath content : ByteString) (events : List (Event ω))
    (hfits : ∀ e ∈ events, e.Fits cwd keyfilePath content) :
    let s := events.foldl (Server.step evp cwd) {feature := {keyfilePath, keyfolderPath}}
    (s.feature.encryptionEnabled = s.feature.provider.isSome ∧
      (keyfilePath = [] → s.feature.encryptionEnabled = false)) ∧
    ∀ fileOffset buffer library, buffer.length ≤ INT_MAX →
      Holds s.stored fileOffset.toNat buffer →
      (∀ answer, s.readBack evp fileOffset buffer library = some answer →
        Holds s.written fileOffset.toNat answer) ∧
      (Succeeds evp → s.feature.encryptionEnabled = true → s.filePrefix ≠ [] →
        ∃ answer, s.readBack evp fileOffset buffer library = some answer) := by
  intro s
  have h : Faithful aes keyfilePath content s :=
    (faithful_new aes keyfilePath keyfolderPath content).run hevp hfits
  refine ⟨⟨h.enabled, ?_⟩, ?_⟩
  · intro hnone
    rw [h.enabled]
    cases hprovider : s.feature.provider with
    | none => rfl
    | some provider => exact absurd hnone (h.key provider hprovider).1
  · intro fileOffset buffer library hsize hheld
    refine ⟨fun answer hread => h.readBack hevp hheld hsize hread, ?_⟩
    intro hsucceeds henabled hfile
    exact h.readable hsucceeds henabled hfile fileOffset buffer library

end Runs

/- A file of the first life, written over in the second. -/
def sampleEvents : List (Event Unit) :=
  [.start keyFolder, .create (1, vectorIv), .write 0 (lit "hello") (), .stop,
    .start keyFolder, .write 2 (lit "y") ()]

def twoLives : Server :=
  sampleEvents.foldl (Server.step (referenceEVP vectorAes) [])
    {feature := {keyfilePath := lit "/keys/k2", keyfolderPath := []}}

theorem twoLives_read_back :
    twoLives.readBack (referenceEVP vectorAes) 0 ((List.range 5).filterMap twoLives.stored) () =
        some (lit "heylo") ∧ Holds twoLives.written 0 (lit "heylo") := by
  have hfits : ∀ e ∈ sampleEvents, e.Fits [] (lit "/keys/k2") (List.replicate 32 1) := by
    have hkey : readFile [] (lit "/keys/k2") keyFolder = some (List.replicate 32 1) := by
      decide +kernel
    unfold sampleEvents
    simp only [List.forall_mem_cons]
    exact ⟨fun _ => hkey, trivial, by unfold Event.Fits; decide, trivial, fun _ => hkey,
      by unfold Event.Fits; decide, nofun⟩
  have hread : twoLives.readBack (referenceEVP vectorAes) 0
      ((List.range 5).filterMap twoLives.stored) () = some (lit "heylo") := by decide +kernel
  have hheld : Holds twoLives.stored 0 ((List.range 5).filterMap twoLives.stored) := by
    unfold Holds
    decide +kernel
  have hsurvives := file_survives_restarts (referenceEVP vectorAes) vectorAes _
    (referenceEVP_outputsKeystream vectorAes) [] (lit "/keys/k2") [] (List.replicate 32 1)
    sampleEvents hfits
  have hsize : ((List.range 5).filterMap twoLives.stored).length ≤ INT_MAX := by
    refine (List.length_filterMap_le _ _).trans ?_
    decide
  exact ⟨hread, (hsurvives.2 0 _ () hsize hheld).1 _ hread⟩

end OpenArangoDBCore.Encryption
