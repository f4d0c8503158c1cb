import OpenArangoDBCore.Basics
import OpenArangoDBCore.Lib.CounterMode

/-!
# AES-256-CTR at any offset (EncryptionProvider.cpp)

The functions of the EVP library are a parameter, contexts are values.
`OutputsKeystream` is what is relied on: a context in CTR mode that was
started at a counter puts out the encryptions of this counter and its
successors, one update after the other.
-/

namespace OpenArangoDBCore.RocksDBEngine
open CounterMode

def INT_MAX : ℕ := 2 ^ 31 - 1
def kBlockSize : ℕ := 16

abbrev Key := {key : ByteString // key.length = 32}
abbrev Block := {block : ByteString // block.length = kBlockSize}

inductive Status
  | ok
  | ioError (message : ByteString)
  deriving DecidableEq

/-- The first component of a result is the return code; `encryptUpdate` works
in place on a buffer. -/
structure EVP (ω Ctx : Type) where
  cipherCtxNew : ω → Option Ctx × ω
  encryptInit : Ctx → Key → Block → ℤ × Ctx
  encryptUpdate : Ctx → ByteString → ℤ → ℤ × ByteString × Ctx
  cipherCtxFree : Ctx → ω → ω

structure AESCTRCipherStream where
  key : Key
  iv : Block

namespace AESCTRCipherStream

/-- The constructor, or what its exception says. -/
def create (key iv : ByteString) : Except ByteString AESCTRCipherStream :=
  if hkey : key.length = 32 then
    if hiv : iv.length = kBlockSize then .ok ⟨⟨key, hkey⟩, ⟨iv, hiv⟩⟩
    else .error (lit "AES-256-CTR requires a 16-byte IV")
  else .error (lit "AES-256-CTR requires a 32-byte key")

/-- The loop over the counter, from its last byte to its first, as long as
there is something to carry. -/
def addCarry : List Byte → UInt64 → List Byte
  | [], _ => []
  | byte :: bytes, carry =>
    if carry = 0 then byte :: bytes
    else
      let sum := UInt64.ofNat byte.val + (carry &&& 0xFF)
      Fin.ofNat 256 (sum &&& 0xFF).toNat :: addCarry bytes ((carry >>> 8) + (sum >>> 8))

theorem addCarry_length (bytes : List Byte) (carry : UInt64) :
    (addCarry bytes carry).length = bytes.length := by
  induction bytes generalizing carry with
  | nil => rfl
  | cons byte bytes ih =>
    unfold addCarry
    split
    · rfl
    · dsimp only
      rw [List.length_cons, ih, List.length_cons]

def counterAt (iv : Block) (blockIndex : UInt64) : Block :=
  ⟨(addCarry iv.val.reverse blockIndex).reverse, by
    rw [List.length_reverse, addCarry_length, List.length_reverse, iv.property]⟩

/-- What the call leaves behind: the status, the buffer and the library. -/
structure Transformed (ω : Type) where
  status : Status
  data : ByteString
  library : ω

section Transform
variable {ω Ctx : Type} (evp : EVP ω Ctx)

/-- `static_cast<int>` -/
def toInt (n : ℕ) : ℤ := Int.bmod n (2 ^ 32)

/-- Keystream bytes in front of the data are taken out of the context. -/
def skipPrefix (ctx : Ctx) (blockOffset : UInt64) : ℤ × Ctx :=
  if 0 < blockOffset then
    let update := evp.encryptUpdate ctx (List.replicate kBlockSize 0) (toInt blockOffset.toNat)
    (update.1, update.2.2)
  else (1, ctx)

variable (stream : AESCTRCipherStream)

def ctrTransform (fileOffset : UInt64) (data : ByteString) (library : ω) : Transformed ω :=
  if data.length = 0 then ⟨.ok, data, library⟩
  else
    let blockIndex := fileOffset / UInt64.ofNat kBlockSize
    let blockOffset := fileOffset % UInt64.ofNat kBlockSize
    let counter := counterAt stream.iv blockIndex
    match evp.cipherCtxNew library with
    | (none, library) => ⟨.ioError (lit "Failed to create EVP context"), data, library⟩
    | (some ctx, library) =>
      let init := evp.encryptInit ctx stream.key counter
      if init.1 ≠ 1 then
        ⟨.ioError (lit "EVP_EncryptInit_ex failed"), data, evp.cipherCtxFree init.2 library⟩
      else
        let skip := skipPrefix evp init.2 blockOffset
        if skip.1 ≠ 1 then
          ⟨.ioError (lit "EVP_EncryptUpdate (skip) failed"), data,
            evp.cipherCtxFree skip.2 library⟩
        else
          let update := evp.encryptUpdate skip.2 data (toInt data.length)
          if update.1 ≠ 1 then
            ⟨.ioError (lit "EVP_EncryptUpdate failed"), update.2.1,
              evp.cipherCtxFree update.2.2 library⟩
          else ⟨.ok, update.2.1, evp.cipherCtxFree update.2.2 library⟩

def Encrypt (fileOffset : UInt64) (data : ByteString) (library : ω) : Transformed ω :=
  ctrTransform evp stream fileOffset data library

def Decrypt (fileOffset : UInt64) (data : ByteString) (library : ω) : Transformed ω :=
  ctrTransform evp stream fileOffset data library

/-- A buffer in pieces, each at its own offset; the library may be in any
state when a piece is transformed. -/
def transformPieces : UInt64 → List (ByteString × ω) → List (Transformed ω)
  | _, [] => []
  | fileOffset, (piece, library) :: pieces =>
    ctrTransform evp stream fileOffset piece library ::
      transformPieces (fileOffset + UInt64.ofNat piece.length) pieces

end Transform
/-! ### The counter -/

theorem toNat_low_byte (x : UInt64) : (x &&& 0xFF).toNat = x.toNat % 256 := by
  rw [UInt64.toNat_and]
  exact Nat.and_two_pow_sub_one_eq_mod x.toNat 8

theorem toNat_high_bytes (x : UInt64) : (x >>> 8).toNat = x.toNat / 256 := by
  rw [UInt64.toNat_shiftRight]
  exact Nat.shiftRight_eq_div_pow x.toNat 8

theorem value_addCarry (bytes : List Byte) (carry : UInt64) :
    value (addCarry bytes carry).reverse =
      (value bytes.reverse + carry.toNat) % 256 ^ bytes.length := by
  induction bytes generalizing carry with
  | nil => simp [addCarry, value, Nat.mod_one]
  | cons byte bytes ih =>
    unfold addCarry
    split
    next hcarry =>
      have hlt := value_lt (byte :: bytes).reverse
      rw [List.length_reverse] at hlt
      rw [hcarry, UInt64.toNat_zero, Nat.add_zero, Nat.mod_eq_of_lt hlt]
    next =>
      have hbyte : (UInt64.ofNat byte.val).toNat = byte.val := by
        rw [UInt64.toNat_ofNat']
        exact Nat.mod_eq_of_lt (byte.isLt.trans (by norm_num))
      have hsum : (UInt64.ofNat byte.val + (carry &&& 0xFF)).toNat =
          byte.val + carry.toNat % 256 := by
        rw [UInt64.toNat_add, hbyte, toNat_low_byte]
        have := byte.isLt
        omega
      have hnext : ((carry >>> 8) + ((UInt64.ofNat byte.val + (carry &&& 0xFF)) >>> 8)).toNat =
          carry.toNat / 256 + (byte.val + carry.toNat % 256) / 256 := by
        rw [UInt64.toNat_add, toNat_high_bytes, toNat_high_bytes, hsum]
        have := byte.isLt
        have := carry.toNat_lt
        omega
      dsimp only
      rw [List.reverse_cons, List.reverse_cons, value_snoc, value_snoc, ih, hnext, toNat_low_byte,
        hsum, Fin.val_ofNat, List.length_cons, pow_succ', Nat.mod_mul]
      have hhigh : (256 * value bytes.reverse + byte.val + carry.toNat) / 256 =
          value bytes.reverse + (carry.toNat / 256 + (byte.val + carry.toNat % 256) / 256) := by
        omega
      have hlow : (256 * value bytes.reverse + byte.val + carry.toNat) % 256 =
          (byte.val + carry.toNat % 256) % 256 % 256 := by
        omega
      rw [hhigh, hlow, Nat.add_comm]

/-- The counter block of a number modulo 2^128. -/
def counterBlock (n : ℕ) : Block := ⟨numeral kBlockSize n, numeral_length _ _⟩

/-- The IV as a number. -/
def ivValue (iv : Block) : ℕ := value iv.val

theorem ivValue_counterAt (iv : Block) (blockIndex : UInt64) :
    ivValue (counterAt iv blockIndex) = (ivValue iv + blockIndex.toNat) % 256 ^ kBlockSize := by
  unfold ivValue counterAt
  rw [value_addCarry, List.reverse_reverse, List.length_reverse, iv.property]

/-! ### The data -/

/-- Byte `pos` of the keystream that starts at the IV. -/
def keystream (aes : Key → Block → Block) (key : Key) (iv : Block) (pos : ℕ) : Byte :=
  counterStream (fun n i => (aes key (counterBlock n)).val.getD i 0) kBlockSize (ivValue iv) pos

theorem keystream_counterAt (aes : Key → Block → Block) (key : Key) (iv : Block)
    (blockIndex : UInt64) (pos : ℕ) : keystream aes key (counterAt iv blockIndex) pos =
      keystream aes key iv (blockIndex.toNat * kBlockSize + pos) := by
  have hwrap : counterBlock (ivValue (counterAt iv blockIndex) + pos / kBlockSize) =
      counterBlock (ivValue iv + blockIndex.toNat + pos / kBlockSize) := by
    apply Subtype.ext
    apply numeral_congr
    rw [ivValue_counterAt, Nat.mod_add_mod]
  unfold keystream
  rw [← counterStream_add _ (by decide)]
  unfold counterStream
  dsimp only
  rw [hwrap]

theorem xor_cancel (a k : Byte) : (a ^^^ k) ^^^ k = a := by
  apply Fin.ext
  rw [Fin.xor_val_of_two_pow (w := 8), Fin.xor_val_of_two_pow (w := 8), Nat.xor_assoc, Nat.xor_self,
    Nat.xor_zero]

theorem toInt_of_le {n : ℕ} (h : n ≤ INT_MAX) : toInt n = n := by
  unfold toInt INT_MAX at *
  rw [Int.bmod_def]
  omega

/-- A length that the cast keeps non-negative has lost at most high bits. -/
theorem toInt_eq_natCast {m n : ℕ} (h : toInt m = n) : n ≤ INT_MAX ∧ n ≤ m := by
  unfold toInt INT_MAX at *
  rw [Int.bmod_def] at h
  omega

section Correctness
variable {ω Ctx : Type} {evp : EVP ω Ctx} {aes : Key → Block → Block}
variable {started : Ctx → Key → Block → ℕ → Prop}

/-- `started ctx key counter pos`: the context works with this key from this
counter on and has put out `pos` bytes. -/
structure OutputsKeystream (evp : EVP ω Ctx) (aes : Key → Block → Block)
    (started : Ctx → Key → Block → ℕ → Prop) : Prop where
  init : ∀ ctx key counter, (evp.encryptInit ctx key counter).1 = 1 →
    started (evp.encryptInit ctx key counter).2 key counter 0
  update : ∀ ctx key counter pos buffer (inl : ℕ), started ctx key counter pos →
    inl ≤ INT_MAX → inl ≤ buffer.length → (evp.encryptUpdate ctx buffer inl).1 = 1 →
    (evp.encryptUpdate ctx buffer inl).2.1 =
        combineFrom (· ^^^ ·) (keystream aes key counter) pos (buffer.take inl) ++
          buffer.drop inl ∧
      started (evp.encryptUpdate ctx buffer inl).2.2 key counter (pos + inl)

/-- No function of the library reports a failure. -/
structure Succeeds (evp : EVP ω Ctx) : Prop where
  cipherCtxNew : ∀ library, (evp.cipherCtxNew library).1 ≠ none
  encryptInit : ∀ ctx key counter, (evp.encryptInit ctx key counter).1 = 1
  encryptUpdate : ∀ ctx buffer inl, (evp.encryptUpdate ctx buffer inl).1 = 1

theorem skipPrefix_started (h : OutputsKeystream evp aes started) {ctx : Ctx} {key : Key}
    {counter : Block} {blockOffset : UInt64} (hctx : started ctx key counter 0)
    (hblock : blockOffset.toNat < kBlockSize) (hrc : (skipPrefix evp ctx blockOffset).1 = 1) :
    started (skipPrefix evp ctx blockOffset).2 key counter blockOffset.toNat := by
  unfold skipPrefix at hrc ⊢
  split at hrc
  next hpos =>
    have hint : blockOffset.toNat ≤ INT_MAX := hblock.le.trans (by decide)
    have hlen : blockOffset.toNat ≤ (List.replicate kBlockSize (0 : Byte)).length := by
      rw [List.length_replicate]
      exact hblock.le
    rw [if_pos hpos]
    rw [toInt_of_le hint] at hrc ⊢
    have hstarted := (h.update _ _ _ _ _ _ hctx hint hlen hrc).2
    rwa [Nat.zero_add] at hstarted
  next hpos =>
    have hzero : blockOffset.toNat = 0 := by
      rw [UInt64.lt_iff_toNat_lt, UInt64.toNat_zero] at hpos
      omega
    rw [if_neg hpos, hzero]
    exact hctx

theorem offset_split (fileOffset : UInt64) :
    (fileOffset / UInt64.ofNat kBlockSize).toNat * kBlockSize +
        (fileOffset % UInt64.ofNat kBlockSize).toNat = fileOffset.toNat ∧
      (fileOffset % UInt64.ofNat kBlockSize).toNat < kBlockSize := by
  have hsize : (UInt64.ofNat kBlockSize).toNat = kBlockSize := rfl
  rw [UInt64.toNat_div, UInt64.toNat_mod, hsize]
  unfold kBlockSize
  omega

/-- The cipher gets the length through the cast: the bytes behind it stay as
they are. -/
theorem ctrTransform_processed (h : OutputsKeystream evp aes started) {stream : AESCTRCipherStream}
    {fileOffset : UInt64} {data : ByteString} {library : ω} {n : ℕ} (hint : toInt data.length = n)
    (hok : (ctrTransform evp stream fileOffset data library).status = .ok) :
    (ctrTransform evp stream fileOffset data library).data =
      combineFrom (· ^^^ ·) (keystream aes stream.key stream.iv) fileOffset.toNat (data.take n) ++
        data.drop n := by
  obtain ⟨hsplit, hblock⟩ := offset_split fileOffset
  obtain ⟨hmax, hle⟩ := toInt_eq_natCast hint
  unfold ctrTransform at hok ⊢
  by_cases hdata : data.length = 0
  · rw [if_pos hdata, List.eq_nil_of_length_eq_zero hdata, List.take_nil, List.drop_nil]
    rfl
  rw [if_neg hdata] at hok ⊢
  dsimp only at hok ⊢
  cases hnew : evp.cipherCtxNew library with
  | mk ctx library =>
    rw [hnew] at hok
    cases ctx with
    | none => cases hok
    | some ctx =>
      dsimp only at hok ⊢
      split at hok
      next => cases hok
      next hinit =>
        rw [if_neg hinit]
        split at hok
        next => cases hok
        next hskip =>
          rw [if_neg hskip]
          split at hok
          next => cases hok
          next hupdate =>
            rw [if_neg hupdate]
            rw [hint] at hupdate ⊢
            have hstarted := skipPrefix_started h (h.init _ _ _ (not_not.mp hinit)) hblock
              (not_not.mp hskip)
            have hout := (h.update _ _ _ _ _ _ hstarted hmax hle (not_not.mp hupdate)).1
            rw [hout]
            refine congrArg (· ++ data.drop n) (combineFrom_congr ?_ _)
            intro j
            rw [keystream_counterAt, ← Nat.add_assoc, hsplit]

theorem ctrTransform_data (h : OutputsKeystream evp aes started) {stream : AESCTRCipherStream}
    {fileOffset : UInt64} {data : ByteString} {library : ω} (hsize : data.length ≤ INT_MAX)
    (hok : (ctrTransform evp stream fileOffset data library).status = .ok) :
    (ctrTransform evp stream fileOffset data library).data =
      combineFrom (· ^^^ ·) (keystream aes stream.key stream.iv) fileOffset.toNat data := by
  rw [ctrTransform_processed h (toInt_of_le hsize) hok, List.take_length, List.drop_length,
    List.append_nil]

theorem ctrTransform_ok (h : Succeeds evp) (stream : AESCTRCipherStream) (fileOffset : UInt64)
    (data : ByteString) (library : ω) :
    (ctrTransform evp stream fileOffset data library).status = .ok := by
  have hskip : ∀ ctx blockOffset, (skipPrefix evp ctx blockOffset).1 = 1 := by
    intro ctx blockOffset
    unfold skipPrefix
    split
    · exact h.encryptUpdate _ _ _
    · rfl
  unfold ctrTransform
  by_cases hdata : data.length = 0
  · rw [if_pos hdata]
  rw [if_neg hdata]
  dsimp only
  cases hnew : evp.cipherCtxNew library with
  | mk ctx next =>
    cases ctx with
    | none => exact absurd (congrArg Prod.fst hnew) (h.cipherCtxNew library)
    | some ctx =>
      dsimp only
      rw [if_neg (not_not.mpr (h.encryptInit _ _ _)), if_neg (not_not.mpr (hskip _ _)),
        if_neg (not_not.mpr (h.encryptUpdate _ _ _))]

theorem toNat_add_size {fileOffset : UInt64} {k size : ℕ} (hk : k ≤ size)
    (h : fileOffset.toNat + size < 2 ^ 64) :
    (fileOffset + UInt64.ofNat k).toNat = fileOffset.toNat + k := by
  rw [UInt64.toNat_add, UInt64.toNat_ofNat']
  omega

variable (evp) in
/-- Any part of an encrypted buffer is decrypted at its own offset. -/
def DecryptInvertsEncrypt (stream : AESCTRCipherStream) : Prop :=
  ∀ fileOffset data library library' k n, data.length ≤ INT_MAX →
    fileOffset.toNat + data.length < 2 ^ 64 → k ≤ data.length →
    (Encrypt evp stream fileOffset data library).status = .ok →
    (Decrypt evp stream (fileOffset + UInt64.ofNat k)
      (((Encrypt evp stream fileOffset data library).data.drop k).take n) library').status = .ok →
    (Decrypt evp stream (fileOffset + UInt64.ofNat k)
      (((Encrypt evp stream fileOffset data library).data.drop k).take n) library').data =
        (data.drop k).take n

theorem decrypt_inverts_encrypt (h : OutputsKeystream evp aes started)
    (stream : AESCTRCipherStream) : DecryptInvertsEncrypt evp stream := by
  intro fileOffset data library library' k n hsize hend hk hencrypt hdecrypt
  have hdata := ctrTransform_data h hsize hencrypt
  have hshort : (((Encrypt evp stream fileOffset data library).data.drop k).take n).length ≤
      INT_MAX := by
    have hlen : (Encrypt evp stream fileOffset data library).data.length = data.length := by
      rw [Encrypt, hdata, combineFrom_length]
    rw [List.length_take, List.length_drop, hlen]
    omega
  rw [Decrypt, ctrTransform_data h hshort hdecrypt, toNat_add_size hk hend, Encrypt, hdata,
    combineFrom_take, ← combineFrom_drop _ _ _ hk, combineFrom_twice xor_cancel]

variable (evp) in
/-- Pieces transformed at their own offsets give what the whole gives. -/
def PiecesAgree (stream : AESCTRCipherStream) : Prop :=
  ∀ fileOffset (pieces : List (ByteString × ω)) library,
    (pieces.flatMap Prod.fst).length ≤ INT_MAX →
    fileOffset.toNat + (pieces.flatMap Prod.fst).length < 2 ^ 64 →
    (∀ part ∈ transformPieces evp stream fileOffset pieces, part.status = .ok) →
    (ctrTransform evp stream fileOffset (pieces.flatMap Prod.fst) library).status = .ok →
    (transformPieces evp stream fileOffset pieces).flatMap Transformed.data =
      (ctrTransform evp stream fileOffset (pieces.flatMap Prod.fst) library).data

theorem transformPieces_data (h : OutputsKeystream evp aes started) (stream : AESCTRCipherStream)
    (fileOffset : UInt64) (pieces : List (ByteString × ω))
    (hsize : (pieces.flatMap Prod.fst).length ≤ INT_MAX)
    (hend : fileOffset.toNat + (pieces.flatMap Prod.fst).length < 2 ^ 64)
    (hok : ∀ part ∈ transformPieces evp stream fileOffset pieces, part.status = .ok) :
    (transformPieces evp stream fileOffset pieces).flatMap Transformed.data =
      combineFrom (· ^^^ ·) (keystream aes stream.key stream.iv) fileOffset.toNat
        (pieces.flatMap Prod.fst) := by
  induction pieces generalizing fileOffset with
  | nil => rfl
  | cons piece pieces ih =>
    obtain ⟨data, library⟩ := piece
    rw [List.flatMap_cons, List.length_append] at hsize hend
    dsimp only at hsize hend
    obtain ⟨hfirst, hrest⟩ := List.forall_mem_cons.mp hok
    have hnext := toNat_add_size (Nat.le_add_right data.length _) hend
    have hpieces := ih (fileOffset + UInt64.ofNat data.length) (by omega) (by omega) hrest
    rw [transformPieces, List.flatMap_cons, List.flatMap_cons, combineFrom_append, hpieces, hnext,
      ctrTransform_data h (by omega) hfirst]

/-! ### Random access -/

theorem ctr_random_access (h : OutputsKeystream evp aes started) (stream : AESCTRCipherStream) :
    (∀ fileOffset data library, data.length ≤ INT_MAX →
      (Succeeds evp → (ctrTransform evp stream fileOffset data library).status = .ok) ∧
      ((ctrTransform evp stream fileOffset data library).status = .ok →
        (ctrTransform evp stream fileOffset data library).data = data.mapIdx fun j byte =>
          byte ^^^ (aes stream.key
            (counterBlock (ivValue stream.iv + (fileOffset.toNat + j) / 16))).val.getD
              ((fileOffset.toNat + j) % 16) 0)) ∧
      DecryptInvertsEncrypt evp stream ∧ PiecesAgree evp stream := by
  refine ⟨fun fileOffset data library hsize => ⟨fun hsucceeds => ?_, fun hok => ?_⟩,
    decrypt_inverts_encrypt h stream, fun fileOffset pieces library hsize hend hok hwhole => ?_⟩
  · exact ctrTransform_ok hsucceeds stream fileOffset data library
  · exact ctrTransform_data h hsize hok
  · rw [transformPieces_data h stream fileOffset pieces hsize hend hok,
      ctrTransform_data h hsize hwhole]

end Correctness

/-! ### A library and a test vector -/

/-- A context is what it was started with and the position reached. -/
def referenceEVP (aes : Key → Block → Block) : EVP Unit (Option (Key × Block × ℕ)) where
  cipherCtxNew _ := (some none, ())
  encryptInit _ key counter := (1, some (key, counter, 0))
  encryptUpdate ctx buffer inl :=
    match ctx with
    | none => (0, buffer, none)
    | some (key, counter, pos) =>
      (1, combineFrom (· ^^^ ·) (keystream aes key counter) pos (buffer.take inl.toNat) ++
        buffer.drop inl.toNat, some (key, counter, pos + inl.toNat))
  cipherCtxFree _ _ := ()

theorem referenceEVP_outputsKeystream (aes : Key → Block → Block) :
    OutputsKeystream (referenceEVP aes) aes fun ctx key counter pos =>
      ctx = some (key, counter, pos) where
  init _ _ _ _ := rfl
  update ctx key counter pos buffer inl hctx _ _ _ := by
    subst hctx
    exact ⟨rfl, rfl⟩

/-- Key, IV, plaintext and ciphertext of the published CTR-AES256 vector. -/
def vectorKey : Key :=
  ⟨[0x60, 0x3d, 0xeb, 0x10, 0x15, 0xca, 0x71, 0xbe, 0x2b, 0x73, 0xae, 0xf0, 0x85, 0x7d, 0x77, 0x81,
    0x1f, 0x35, 0x2c, 0x07, 0x3b, 0x61, 0x08, 0xd7, 0x2d, 0x98, 0x10, 0xa3, 0x09, 0x14, 0xdf,
    0xf4], rfl⟩

def vectorIv : Block :=
  ⟨[0xf0, 0xf1, 0xf2, 0xf3, 0xf4, 0xf5, 0xf6, 0xf7, 0xf8, 0xf9, 0xfa, 0xfb, 0xfc, 0xfd, 0xfe,
    0xff], rfl⟩

def vectorPlaintext : ByteString :=
  [0x6b, 0xc1, 0xbe, 0xe2, 0x2e, 0x40, 0x9f, 0x96, 0xe9, 0x3d, 0x7e, 0x11, 0x73, 0x93, 0x17, 0x2a,
    0xae, 0x2d, 0x8a, 0x57, 0x1e, 0x03, 0xac, 0x9c, 0x9e, 0xb7, 0x6f, 0xac, 0x45, 0xaf, 0x8e, 0x51]

def vectorCiphertext : ByteString :=
  [0x60, 0x1e, 0xc3, 0x13, 0x77, 0x57, 0x89, 0xa5, 0xb7, 0xa7, 0xf5, 0x04, 0xbb, 0xf3, 0xd2, 0x28,
    0xf4, 0x43, 0xe3, 0xca, 0x4d, 0x62, 0xb5, 0x9a, 0xca, 0x84, 0xe9, 0x90, 0xca, 0xca, 0xf5, 0xc5]

/-- AES-256 on the two counter blocks of the vector; the last byte of the IV
is 0xff, so the second counter carries. -/
def vectorAes (_ : Key) (block : Block) : Block :=
  if block = vectorIv then
    ⟨[0x0b, 0xdf, 0x7d, 0xf1, 0x59, 0x17, 0x16, 0x33, 0x5e, 0x9a, 0x8b, 0x15, 0xc8, 0x60, 0xc5,
      0x02], rfl⟩
  else
    ⟨[0x5a, 0x6e, 0x69, 0x9d, 0x53, 0x61, 0x19, 0x06, 0x54, 0x33, 0x86, 0x3c, 0x8f, 0x65, 0x7b,
      0x94], rfl⟩

/-- The vector, and its last bytes decrypted from the middle of a block on. -/
theorem vector_random_access :
    (ctrTransform (referenceEVP vectorAes) ⟨vectorKey, vectorIv⟩ 0 vectorPlaintext ()).data =
        vectorCiphertext ∧
      (Decrypt (referenceEVP vectorAes) ⟨vectorKey, vectorIv⟩ 20
        ((vectorCiphertext.drop 20).take 12) ()).data = vectorPlaintext.drop 20 := by
  have h := ctr_random_access (referenceEVP_outputsKeystream vectorAes) ⟨vectorKey, vectorIv⟩
  have hencrypt : (ctrTransform (referenceEVP vectorAes) ⟨vectorKey, vectorIv⟩ 0 vectorPlaintext
      ()).data = vectorCiphertext := by
    rw [(h.1 0 vectorPlaintext () (by decide)).2 rfl]
    decide +kernel
  have hdecrypt := h.2.1 0 vectorPlaintext () () 20 12 (by decide) (by decide) (by decide) rfl rfl
  rw [Encrypt, hencrypt] at hdecrypt
  exact ⟨hencrypt, hdecrypt⟩

end AESCTRCipherStream
end OpenArangoDBCore.RocksDBEngine
