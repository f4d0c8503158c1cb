import OpenArangoDBCore.RocksDBEngine.EncryptionProvider

/-!
# The length that is encrypted

The size of the buffer goes to the cipher through a cast to `int`. From 2 GiB
on this length is another one: where it is negative the cipher refuses it, and
else the bytes behind it stay in plaintext while the status is OK.
-/

namespace OpenArangoDBCore.RocksDBEngine.AESCTRCipherStream
open CounterMode

/-- There is no negative number of bytes to process. -/
def RefusesNegative {ω Ctx : Type} (evp : EVP ω Ctx) : Prop :=
  ∀ ctx buffer inl, inl < 0 → (evp.encryptUpdate ctx buffer inl).1 ≠ 1

/-- Whatever the library does otherwise: with the status OK every byte has been
XORed with its byte of the keystream. -/
def EncryptsAll (aes : Key → Block → Block) (stream : AESCTRCipherStream) (fileOffset : UInt64)
    (data : ByteString) : Prop :=
  ∀ (ω Ctx : Type) (evp : EVP ω Ctx) (started : Ctx → Key → Block → ℕ → Prop) (library : ω),
    OutputsKeystream evp aes started → RefusesNegative evp →
    (Encrypt evp stream fileOffset data library).status = .ok →
    (Encrypt evp stream fileOffset data library).data = data.mapIdx fun j byte =>
      byte ^^^ keystream aes stream.key stream.iv (fileOffset.toNat + j)

theorem xor_eq_self_iff {a k : Byte} : a ^^^ k = a ↔ k = 0 := by
  constructor
  · intro h
    have hval := congrArg Fin.val h
    rw [Fin.xor_val_of_two_pow (w := 8)] at hval
    apply Fin.ext
    calc k.val = a.val ^^^ (a.val ^^^ k.val) := by
          rw [← Nat.xor_assoc, Nat.xor_self, Nat.zero_xor]
      _ = 0 := by rw [hval, Nat.xor_self]
  · rintro rfl
    rw [Fin.ext_iff, Fin.xor_val_of_two_pow (w := 8)]
    exact Nat.xor_zero a.val

/-- A text of which only a front part was combined is combined as a whole
exactly where the rest meets zeros. -/
theorem processed_eq_iff {stream : ℕ → Byte} {pos n : ℕ} {data : ByteString} (h : n ≤ data.length) :
    combineFrom (· ^^^ ·) stream pos (data.take n) ++ data.drop n =
        combineFrom (· ^^^ ·) stream pos data ↔
      ∀ j, n ≤ j → j < data.length → stream (pos + j) = 0 := by
  have hlen : (data.take n).length = n := List.length_take_of_le h
  have hsplit : combineFrom (· ^^^ ·) stream pos data =
      combineFrom (· ^^^ ·) stream pos (data.take n) ++
        combineFrom (· ^^^ ·) stream (pos + n) (data.drop n) := by
    conv_lhs => rw [← List.take_append_drop n data, combineFrom_append, hlen]
  rw [hsplit, List.append_cancel_left_eq, eq_comm, combineFrom_eq_self_iff]
  simp only [xor_eq_self_iff, List.length_drop]
  constructor
  · intro hrest j hn hj
    have hzero := hrest (j - n) (by omega)
    rwa [add_assoc, Nat.add_sub_cancel' hn] at hzero
  · intro hrest j hj
    rw [add_assoc]
    exact hrest (n + j) (by omega) (by omega)

/-- The reference library with an error for a negative length. -/
def refusingEVP (aes : Key → Block → Block) : EVP Unit (Option (Key × Block × ℕ)) :=
  {referenceEVP aes with
    encryptUpdate := fun ctx buffer inl =>
      if inl < 0 then (0, buffer, ctx) else (referenceEVP aes).encryptUpdate ctx buffer inl}

section Refusing
variable (aes : Key → Block → Block)

theorem refusingEVP_update (ctx : Option (Key × Block × ℕ)) (buffer : ByteString) (inl : ℕ) :
    (refusingEVP aes).encryptUpdate ctx buffer inl =
      (referenceEVP aes).encryptUpdate ctx buffer inl := by
  have hpos : ¬ (inl : ℤ) < 0 := by omega
  show (if (inl : ℤ) < 0 then (0, buffer, ctx)
    else (referenceEVP aes).encryptUpdate ctx buffer inl) = _
  rw [if_neg hpos]

theorem refusingEVP_update_ok (started : Key × Block × ℕ) (buffer : ByteString) (inl : ℕ) :
    ((refusingEVP aes).encryptUpdate (some started) buffer inl).1 = 1 := by
  rw [refusingEVP_update]
  rfl

theorem refusingEVP_outputsKeystream :
    OutputsKeystream (refusingEVP aes) aes fun ctx key counter pos =>
      ctx = some (key, counter, pos) where
  init _ _ _ _ := rfl
  update ctx key counter pos buffer inl hctx _ _ _ := by
    rw [refusingEVP_update]
    subst hctx
    exact ⟨rfl, rfl⟩

theorem refusingEVP_refuses : RefusesNegative (refusingEVP aes) := by
  intro ctx buffer inl h
  show (if inl < 0 then _ else _ : ℤ × ByteString × Option (Key × Block × ℕ)).1 ≠ 1
  rw [if_pos h]
  exact zero_ne_one

theorem refusingEVP_ok (stream : AESCTRCipherStream) (fileOffset : UInt64) {data : ByteString}
    {n : ℕ} (hint : toInt data.length = n) :
    (Encrypt (refusingEVP aes) stream fileOffset data ()).status = .ok := by
  have hskip : ∀ counter blockOffset, blockOffset.toNat < kBlockSize →
      (skipPrefix (refusingEVP aes) (some (stream.key, counter, 0)) blockOffset).1 = 1 := by
    intro counter blockOffset hblock
    unfold skipPrefix
    split
    · rw [toInt_of_le (hblock.le.trans (by decide))]
      exact refusingEVP_update_ok aes (stream.key, counter, 0) (List.replicate kBlockSize 0)
        blockOffset.toNat
    · rfl
  have hblock := (offset_split fileOffset).2
  unfold Encrypt ctrTransform
  by_cases hdata : data.length = 0
  · rw [if_pos hdata]
  have hinit : ∀ counter, (refusingEVP aes).encryptInit none stream.key counter =
      (1, some (stream.key, counter, 0)) := fun _ => rfl
  have hnew : (refusingEVP aes).cipherCtxNew () = (some none, ()) := rfl
  rw [if_neg hdata, hnew]
  dsimp only
  rw [hinit, if_neg (not_not.mpr rfl), if_neg (not_not.mpr (hskip _ _ hblock)), hint]
  have hstarted := skipPrefix_started (refusingEVP_outputsKeystream aes) rfl hblock
    (hskip (counterAt stream.iv (fileOffset / UInt64.ofNat kBlockSize)) _ hblock)
  dsimp only at hstarted ⊢
  rw [hstarted, if_neg (not_not.mpr (refusingEVP_update_ok aes _ _ _))]

end Refusing

theorem ctrTransform_negative {ω Ctx : Type} {evp : EVP ω Ctx} (h : RefusesNegative evp)
    {stream : AESCTRCipherStream} {fileOffset : UInt64} {data : ByteString} {library : ω}
    (hint : toInt data.length < 0) :
    (ctrTransform evp stream fileOffset data library).status ≠ .ok := by
  have hdata : data.length ≠ 0 := by
    intro hzero
    rw [hzero] at hint
    exact absurd hint (by decide)
  unfold ctrTransform
  rw [if_neg hdata]
  dsimp only
  cases evp.cipherCtxNew library with
  | mk ctx library =>
    cases ctx with
    | none => exact nofun
    | some ctx =>
      dsimp only
      split
      next => exact nofun
      next =>
        split
        next => exact nofun
        next =>
          rw [if_pos (h _ _ _ hint)]
          exact nofun

/-- With the status OK everything is encrypted exactly where the length
survives the cast, or is refused, or the bytes that are left out meet zeros of
the keystream. -/
theorem encryptsAll_iff (aes : Key → Block → Block) (stream : AESCTRCipherStream)
    (fileOffset : UInt64) (data : ByteString) : EncryptsAll aes stream fileOffset data ↔
      data.length ≤ INT_MAX ∨ toInt data.length < 0 ∨
        ∀ j, (toInt data.length).toNat ≤ j → j < data.length →
          keystream aes stream.key stream.iv (fileOffset.toNat + j) = 0 := by
  rcases lt_or_ge (toInt data.length) 0 with hneg | hpos
  · refine iff_of_true ?_ (.inr (.inl hneg))
    intro ω Ctx evp started library _ hrefuses hok
    exact absurd hok (ctrTransform_negative hrefuses hneg)
  obtain ⟨n, hint⟩ := Int.eq_ofNat_of_zero_le hpos
  rw [hint, Int.toNat_natCast]
  have hn := (toInt_eq_natCast hint).2
  constructor
  · intro hall
    refine .inr (.inr ?_)
    have hout := hall _ _ _ _ () (refusingEVP_outputsKeystream aes) (refusingEVP_refuses aes)
      (refusingEVP_ok aes stream fileOffset hint)
    rw [Encrypt, ctrTransform_processed (refusingEVP_outputsKeystream aes) hint
      (refusingEVP_ok aes stream fileOffset hint)] at hout
    exact (processed_eq_iff hn).mp hout
  · intro h ω Ctx evp started library houtputs _ hok
    have hrest : ∀ j, n ≤ j → j < data.length →
        keystream aes stream.key stream.iv (fileOffset.toNat + j) = 0 := by
      rcases h with hsize | hneg | hrest
      · intro j hj hlt
        rw [toInt_of_le hsize] at hint
        omega
      · omega
      · exact hrest
    rw [Encrypt, ctrTransform_processed houtputs hint hok]
    exact (processed_eq_iff hn).mpr hrest

/-- 4 GiB of zeros stay zeros. -/
theorem four_gib_stay_plain :
    (Encrypt (refusingEVP vectorAes) ⟨vectorKey, vectorIv⟩ 0 (List.replicate (2 ^ 32) 0)
        ()).status = .ok ∧
      (Encrypt (refusingEVP vectorAes) ⟨vectorKey, vectorIv⟩ 0 (List.replicate (2 ^ 32) 0)
        ()).data = List.replicate (2 ^ 32) 0 ∧
      ¬ EncryptsAll vectorAes ⟨vectorKey, vectorIv⟩ 0 (List.replicate (2 ^ 32) 0) := by
  have hint : toInt (List.replicate (2 ^ 32) (0 : Byte)).length = (0 : ℕ) := by
    rw [List.length_replicate]
    decide
  have hok := refusingEVP_ok vectorAes ⟨vectorKey, vectorIv⟩ 0 hint
  have hplain := ctrTransform_processed (refusingEVP_outputsKeystream vectorAes) hint hok
  refine ⟨hok, hplain, ?_⟩
  intro hall
  have hout := hall _ _ _ _ () (refusingEVP_outputsKeystream vectorAes)
    (refusingEVP_refuses vectorAes) hok
  have hzero := (processed_eq_iff (Nat.zero_le _)).mp (hplain.symm.trans hout) 0 le_rfl
    (by rw [List.length_replicate]; decide)
  exact absurd hzero (by decide +kernel)

end OpenArangoDBCore.RocksDBEngine.AESCTRCipherStream
