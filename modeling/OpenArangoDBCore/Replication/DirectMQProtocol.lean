import OpenArangoDBCore.Basics
import OpenArangoDBCore.Lib.CounterMode
import OpenArangoDBCore.Lib.PrefixCode

/-! # Frames of DirectMQ (DirectMQProtocol.h, DirectMQProtocol.cpp) -/

namespace OpenArangoDBCore.Replication.DirectMQProtocol
open CounterMode

/-- 64 MB -/
def kMaxPayloadSize : UInt32 := 64 * 1024 * 1024

structure ParseResult where
  ok : Bool := false
  payload : ByteString := []
  statusCode : UInt32 := 0
  errorMessage : ByteString := []
  deriving DecidableEq

/-- The four bytes that are written. -/
def writeBE32 (value : UInt32) : ByteString :=
  [Fin.ofNat 256 ((value >>> 24) &&& 0xFF).toNat, Fin.ofNat 256 ((value >>> 16) &&& 0xFF).toNat,
    Fin.ofNat 256 ((value >>> 8) &&& 0xFF).toNat, Fin.ofNat 256 (value &&& 0xFF).toNat]

def readBE32 (buf : ByteString) (offset : ℕ) : UInt32 :=
  let byte := fun i => UInt32.ofNat (buf.getD (offset + i) 0).val
  byte 0 <<< 24 ||| byte 1 <<< 16 ||| byte 2 <<< 8 ||| byte 3

/-- A payload that is not too long. -/
abbrev Payload := {payload : ByteString // payload.length ≤ kMaxPayloadSize.toNat}

def frame (payload : Payload) : ByteString :=
  writeBE32 (UInt32.ofNat payload.val.length) ++ payload.val

/-- The error is what the exception says. -/
def frameMessage (payload : ByteString) : Except ByteString ByteString :=
  if h : kMaxPayloadSize.toNat < payload.length then
    .error (lit "DirectMQProtocol::frameMessage: payload exceeds maximum size of " ++
      decimal kMaxPayloadSize.toNat ++ lit " bytes")
  else .ok (frame ⟨payload, not_lt.mp h⟩)

def parseFrame (buffer : ByteString) : ParseResult :=
  if buffer.length < 4 then
    { errorMessage := lit "Buffer too short for frame header (need 4 bytes, got " ++
        decimal buffer.length ++ lit ")" }
  else
    let length := readBE32 buffer 0
    if kMaxPayloadSize < length then
      { errorMessage := lit "Declared payload length " ++ decimal length.toNat ++
          lit " exceeds maximum " ++ decimal kMaxPayloadSize.toNat }
    else if buffer.length < (4 + length).toNat then
      { errorMessage := lit "Buffer too short for payload (need " ++
          decimal (4 + length).toNat ++ lit " bytes, got " ++ decimal buffer.length ++ lit ")" }
    else { ok := true, payload := (buffer.drop 4).take length.toNat }

def buildAck (statusCode : UInt32) : ByteString := writeBE32 4 ++ writeBE32 statusCode

def parseAck (buffer : ByteString) : ParseResult :=
  if buffer.length < 8 then
    { errorMessage := lit "ACK buffer too short (need 8 bytes, got " ++ decimal buffer.length ++
        lit ")" }
  else
    let payloadLen := readBE32 buffer 0
    if payloadLen ≠ 4 then
      { errorMessage := lit "ACK payload length must be 4, got " ++ decimal payloadLen.toNat }
    else { ok := true, statusCode := readBE32 buffer 4 }

/-! ### Big-endian numbers -/

theorem toNat_low_byte (x : UInt32) : (x &&& 0xFF).toNat = x.toNat % 256 := by
  rw [UInt32.toNat_and]
  exact Nat.and_two_pow_sub_one_eq_mod x.toNat 8

theorem toNat_shiftRight (x : UInt32) {n : UInt32} (hn : n.toNat < 32) :
    (x >>> n).toNat = x.toNat / 2 ^ n.toNat := by
  rw [UInt32.toNat_shiftRight, Nat.mod_eq_of_lt hn, Nat.shiftRight_eq_div_pow]

theorem writeBE32_eq (value : UInt32) : writeBE32 value = numeral 4 value.toNat := by
  have hbyte : ∀ x : UInt32, (Fin.ofNat 256 (x &&& 0xFF).toNat : Byte) = Fin.ofNat 256 x.toNat := by
    intro x
    apply Fin.ext
    rw [Fin.val_ofNat, Fin.val_ofNat, toNat_low_byte, Nat.mod_mod]
  unfold writeBE32
  rw [hbyte, hbyte, hbyte, hbyte, toNat_shiftRight value (by decide),
    toNat_shiftRight value (by decide), toNat_shiftRight value (by decide)]
  simp [numeral, Nat.div_div_eq_div_mul]

theorem writeBE32_length (value : UInt32) : (writeBE32 value).length = 4 := rfl

theorem toNat_shifted (b : Byte) {n : UInt32} (hn : n.toNat ≤ 24) :
    (UInt32.ofNat b.val <<< n).toNat = b.val <<< n.toNat := by
  have hb := b.isLt
  have hval : (UInt32.ofNat b.val).toNat = b.val :=
    UInt32.toNat_ofNat_of_lt' (by rw [UInt32.size]; omega)
  have hle : b.val <<< n.toNat < 2 ^ 32 := by
    rw [Nat.shiftLeft_eq]
    calc b.val * 2 ^ n.toNat ≤ 255 * 2 ^ 24 :=
          Nat.mul_le_mul (by omega) (Nat.pow_le_pow_right (by norm_num) hn)
      _ < 2 ^ 32 := by norm_num
  rw [UInt32.toNat_shiftLeft, hval, Nat.mod_eq_of_lt (by omega : n.toNat < 32),
    Nat.mod_eq_of_lt hle]

/-- The bytes do not overlap, so putting them together adds them up. -/
theorem readBE32_eq {digits : ByteString} (h : digits.length = 4) (rest : ByteString) :
    (readBE32 (digits ++ rest) 0).toNat = value digits := by
  obtain ⟨b₀, b₁, b₂, b₃, rfl⟩ : ∃ b₀ b₁ b₂ b₃, digits = [b₀, b₁, b₂, b₃] :=
    List.length_eq_four.mp h
  have h₁ := b₁.isLt
  have h₂ := b₂.isLt
  have h₃ := b₃.isLt
  have hlast : (UInt32.ofNat b₃.val).toNat = b₃.val :=
    UInt32.toNat_ofNat_of_lt' (by rw [UInt32.size]; omega)
  have hlow : b₂.val <<< 8 ||| b₃.val = b₂.val <<< 8 + b₃.val :=
    (Nat.shiftLeft_add_eq_or_of_lt h₃ _).symm
  have hmiddle : b₁.val <<< 16 ||| (b₂.val <<< 8 + b₃.val) =
      b₁.val <<< 16 + (b₂.val <<< 8 + b₃.val) := by
    refine (Nat.shiftLeft_add_eq_or_of_lt ?_ _).symm
    rw [Nat.shiftLeft_eq]
    omega
  have hhigh : b₀.val <<< 24 ||| (b₁.val <<< 16 + (b₂.val <<< 8 + b₃.val)) =
      b₀.val <<< 24 + (b₁.val <<< 16 + (b₂.val <<< 8 + b₃.val)) := by
    refine (Nat.shiftLeft_add_eq_or_of_lt ?_ _).symm
    rw [Nat.shiftLeft_eq, Nat.shiftLeft_eq]
    omega
  have hread : (readBE32 ([b₀, b₁, b₂, b₃] ++ rest) 0).toNat =
      b₀.val <<< 24 ||| b₁.val <<< 16 ||| b₂.val <<< 8 ||| b₃.val := by
    show (UInt32.ofNat b₀.val <<< 24 ||| UInt32.ofNat b₁.val <<< 16 |||
      UInt32.ofNat b₂.val <<< 8 ||| UInt32.ofNat b₃.val).toNat = _
    rw [UInt32.toNat_or, UInt32.toNat_or, UInt32.toNat_or, toNat_shifted b₀ (by decide),
      toNat_shifted b₁ (by decide), toNat_shifted b₂ (by decide), hlast]
    rfl
  have hvalue : value [b₀, b₁, b₂, b₃] =
      256 * (256 * (256 * b₀.val + b₁.val) + b₂.val) + b₃.val := by
    simp [value]
  rw [hread, Nat.or_assoc, Nat.or_assoc, hlow, hmiddle, hhigh, hvalue, Nat.shiftLeft_eq,
    Nat.shiftLeft_eq, Nat.shiftLeft_eq]
  omega

theorem readBE32_writeBE32 (n : UInt32) (rest : ByteString) :
    readBE32 (writeBE32 n ++ rest) 0 = n := by
  apply UInt32.toNat_inj.mp
  rw [readBE32_eq (writeBE32_length n), writeBE32_eq, value_numeral]
  exact Nat.mod_eq_of_lt n.toNat_lt

/-- Four bytes are the number that is read from them. -/
theorem writeBE32_readBE32 {digits : ByteString} (h : digits.length = 4) (rest : ByteString) :
    writeBE32 (readBE32 (digits ++ rest) 0) = digits := by
  rw [writeBE32_eq, readBE32_eq h, ← h, numeral_value]

/-! ### Frames -/

theorem frameMessage_ok_iff {payload bytes : ByteString} : frameMessage payload = .ok bytes ↔
    ∃ h : payload.length ≤ kMaxPayloadSize.toNat, bytes = frame ⟨payload, h⟩ := by
  unfold frameMessage
  split
  next hlong => exact iff_of_false nofun fun ⟨h, _⟩ => absurd h (not_le.mpr hlong)
  next hshort =>
    constructor
    · intro h
      exact ⟨not_lt.mp hshort, (Except.ok.inj h).symm⟩
    · rintro ⟨-, rfl⟩
      rfl

theorem frameMessage_error_iff (payload : ByteString) :
    (∃ error, frameMessage payload = .error error) ↔ kMaxPayloadSize.toNat < payload.length := by
  unfold frameMessage
  split
  next hlong => exact iff_of_true ⟨_, rfl⟩ hlong
  next hshort => exact iff_of_false nofun hshort

theorem frame_length (payload : Payload) : (frame payload).length = 4 + payload.val.length := by
  rw [frame, List.length_append, writeBE32_length]

theorem toNat_payload_length (payload : Payload) :
    (UInt32.ofNat payload.val.length).toNat = payload.val.length := by
  have hle := payload.property
  have hmax : kMaxPayloadSize.toNat = 2 ^ 26 := by decide
  exact UInt32.toNat_ofNat_of_lt' (by rw [UInt32.size]; omega)

theorem toNat_frame_size {n : UInt32} (h : n ≤ kMaxPayloadSize) : (4 + n).toNat = 4 + n.toNat := by
  have hmax : kMaxPayloadSize.toNat = 2 ^ 26 := by decide
  rw [UInt32.le_iff_toNat_le, hmax] at h
  rw [UInt32.toNat_add]
  exact Nat.mod_eq_of_lt (by rw [show (4 : UInt32).toNat = 4 from rfl]; omega)

/-- What the checks of `parseFrame` come to. -/
theorem parseFrame_ok_iff (buffer : ByteString) : (parseFrame buffer).ok = true ↔
    4 ≤ buffer.length ∧ readBE32 buffer 0 ≤ kMaxPayloadSize ∧
      4 + (readBE32 buffer 0).toNat ≤ buffer.length := by
  unfold parseFrame
  dsimp only
  split
  next hheader => exact iff_of_false Bool.false_ne_true fun h => absurd h.1 (by omega)
  next hheader =>
    split
    next hlong =>
      exact iff_of_false Bool.false_ne_true fun h => absurd hlong (UInt32.not_lt.mpr h.2.1)
    next hlong =>
      have hle := UInt32.not_lt.mp hlong
      have hsize := toNat_frame_size hle
      split
      next hbody => exact iff_of_false Bool.false_ne_true fun h => absurd h.2.2 (by omega)
      next hbody => exact iff_of_true rfl ⟨by omega, hle, by omega⟩

theorem parseFrame_payload {buffer : ByteString} (h : (parseFrame buffer).ok = true) :
    (parseFrame buffer).payload = (buffer.drop 4).take (readBE32 buffer 0).toNat := by
  unfold parseFrame at h ⊢
  dsimp only at h ⊢
  split at h
  next => cases h
  next hheader =>
    split at h
    next => cases h
    next hlong =>
      split at h
      next => cases h
      next hbody => rw [if_neg hheader, if_neg hlong, if_neg hbody]

/-- A buffer that is parsed is the frame of its payload with something behind it. -/
theorem parseFrame_iff (buffer payload : ByteString) :
    (parseFrame buffer).ok = true ∧ (parseFrame buffer).payload = payload ↔
      ∃ h : payload.length ≤ kMaxPayloadSize.toNat, ∃ rest,
        buffer = frame ⟨payload, h⟩ ++ rest := by
  constructor
  · rintro ⟨hok, rfl⟩
    obtain ⟨hheader, hlong, hbody⟩ := (parseFrame_ok_iff buffer).mp hok
    rw [parseFrame_payload hok]
    have hdigits : (buffer.take 4).length = 4 := List.length_take_of_le hheader
    have hlength : ((buffer.drop 4).take (readBE32 buffer 0).toNat).length =
        (readBE32 buffer 0).toNat := List.length_take_of_le (by rw [List.length_drop]; omega)
    refine ⟨hlength.trans_le (UInt32.le_iff_toNat_le.mp hlong),
      (buffer.drop 4).drop (readBE32 buffer 0).toNat, ?_⟩
    have hwritten : writeBE32 (readBE32 buffer 0) = buffer.take 4 := by
      have hread := writeBE32_readBE32 hdigits (buffer.drop 4)
      rwa [List.take_append_drop] at hread
    unfold frame
    dsimp only
    rw [hlength, UInt32.ofNat_toNat, hwritten, List.append_assoc, List.take_append_drop,
      List.take_append_drop]
  · rintro ⟨h, rest, rfl⟩
    have hread : readBE32 (frame ⟨payload, h⟩ ++ rest) 0 = UInt32.ofNat payload.length := by
      rw [frame, List.append_assoc]
      exact readBE32_writeBE32 _ _
    have hnat := toNat_payload_length ⟨payload, h⟩
    dsimp only at hnat
    have hok : (parseFrame (frame ⟨payload, h⟩ ++ rest)).ok = true := by
      rw [parseFrame_ok_iff, hread, List.length_append, frame_length, UInt32.le_iff_toNat_le, hnat]
      dsimp only
      omega
    refine ⟨hok, ?_⟩
    rw [parseFrame_payload hok, hread, hnat, frame, List.append_assoc]
    exact List.take_left

/-- No frame begins another. -/
theorem frame_start {payload payload' : Payload} (h : frame payload <+: frame payload') :
    payload = payload' := by
  obtain ⟨rest, hrest⟩ := h
  have hparsed := (parseFrame_iff (frame payload') payload.val).mpr
    ⟨payload.property, rest, hrest.symm⟩
  have hown := (parseFrame_iff (frame payload') payload'.val).mpr
    ⟨payload'.property, [], (List.append_nil _).symm⟩
  exact Subtype.ext (hparsed.2.symm.trans hown.2)

theorem frame_ne_nil (payload : Payload) : frame payload ≠ [] := by
  have hlength := frame_length payload
  intro hnil
  rw [hnil, List.length_nil] at hlength
  omega

theorem parseFrame_of_proper_prefix {payload : Payload} {buffer : ByteString}
    (h : buffer <+: frame payload) (hne : buffer ≠ frame payload) :
    (parseFrame buffer).ok = false := by
  by_contra hok
  rw [Bool.not_eq_false] at hok
  obtain ⟨hshort, rest, hbuffer⟩ := (parseFrame_iff buffer _).mp ⟨hok, rfl⟩
  -- the frame at the front would begin the whole one
  have hfront : frame ⟨(parseFrame buffer).payload, hshort⟩ <+: frame payload := by
    refine (List.prefix_append _ rest).trans ?_
    rwa [← hbuffer]
  have hsame := frame_start hfront
  rw [hsame] at hbuffer
  have hlength := h.length_le
  rw [hbuffer, List.length_append] at hlength
  have hrest : rest = [] := List.length_eq_zero_iff.mp (by omega)
  rw [hrest, List.append_nil] at hbuffer
  exact hne hbuffer

/-- The frames of the payloads, written one after the other, if none is too long. -/
def frameMessages (payloads : List ByteString) : Except ByteString ByteString :=
  (payloads.mapM frameMessage).map List.flatten

theorem mapM_frameMessage_ok {payloads frames : List ByteString}
    (h : payloads.mapM frameMessage = .ok frames) : ∃ short : List Payload,
      payloads = short.map Subtype.val ∧ frames = short.map frame := by
  induction payloads generalizing frames with
  | nil =>
    obtain rfl := Except.ok.inj h
    exact ⟨[], rfl, rfl⟩
  | cons payload payloads ih =>
    rw [List.mapM_cons] at h
    cases hframe : frameMessage payload with
    | error error =>
      rw [hframe] at h
      cases h
    | ok bytes =>
      rw [hframe] at h
      cases hrest : payloads.mapM frameMessage with
      | error error =>
        rw [hrest] at h
        cases h
      | ok rest =>
        rw [hrest] at h
        obtain rfl := Except.ok.inj h
        obtain ⟨hle, rfl⟩ := frameMessage_ok_iff.mp hframe
        obtain ⟨short, rfl, rfl⟩ := ih hrest
        exact ⟨⟨payload, hle⟩ :: short, rfl, rfl⟩

/-- The format of frames is exact and self-delimiting. -/
theorem frame_format_exact :
    (∀ buffer payload, (parseFrame buffer).ok = true ∧ (parseFrame buffer).payload = payload ↔
      payload.length ≤ kMaxPayloadSize.toNat ∧ ∃ bytes rest,
        frameMessage payload = .ok bytes ∧ buffer = bytes ++ rest) ∧
    (∀ payload bytes buffer, frameMessage payload = .ok bytes → buffer <+: bytes →
      buffer ≠ bytes → (parseFrame buffer).ok = false) ∧
    (∀ payload, (∃ error, frameMessage payload = .error error) ↔
      kMaxPayloadSize.toNat < payload.length) ∧
    (∀ payload payload' bytes bytes', frameMessage payload = .ok bytes →
      frameMessage payload' = .ok bytes' → bytes <+: bytes' → bytes = bytes') ∧
    ∀ payloads payloads' bytes, frameMessages payloads = .ok bytes →
      frameMessages payloads' = .ok bytes → payloads = payloads' := by
  refine ⟨?_, ?_, frameMessage_error_iff, ?_, ?_⟩
  · intro buffer payload
    rw [parseFrame_iff]
    constructor
    · rintro ⟨h, rest, rfl⟩
      exact ⟨h, _, rest, frameMessage_ok_iff.mpr ⟨h, rfl⟩, rfl⟩
    · rintro ⟨h, bytes, rest, hframe, rfl⟩
      obtain ⟨_, rfl⟩ := frameMessage_ok_iff.mp hframe
      exact ⟨h, rest, rfl⟩
  · intro payload bytes buffer hframe hprefix hne
    obtain ⟨h, rfl⟩ := frameMessage_ok_iff.mp hframe
    exact parseFrame_of_proper_prefix hprefix hne
  · intro payload payload' bytes bytes' hframe hframe' hprefix
    obtain ⟨h, rfl⟩ := frameMessage_ok_iff.mp hframe
    obtain ⟨h', rfl⟩ := frameMessage_ok_iff.mp hframe'
    rw [frame_start hprefix]
  · intro payloads payloads' bytes h h'
    cases hframes : payloads.mapM frameMessage with
    | error error =>
      rw [frameMessages, hframes] at h
      cases h
    | ok frames =>
      cases hframes' : payloads'.mapM frameMessage with
      | error error =>
        rw [frameMessages, hframes'] at h'
        cases h'
      | ok frames' =>
        obtain ⟨short, rfl, rfl⟩ := mapM_frameMessage_ok hframes
        obtain ⟨short', rfl, rfl⟩ := mapM_frameMessage_ok hframes'
        rw [frameMessages, hframes] at h
        rw [frameMessages, hframes'] at h'
        have hsame : short.flatMap frame = short'.flatMap frame :=
          (Except.ok.inj h).trans (Except.ok.inj h').symm
        rw [PrefixCode.flatMap_injective (fun _ _ => frame_start) frame_ne_nil hsame]

/-! ### Acknowledgements -/

theorem parseAck_buildAck (statusCode : UInt32) (rest : ByteString) :
    parseAck (buildAck statusCode ++ rest) = { ok := true, statusCode := statusCode } := by
  have hlength : (buildAck statusCode ++ rest).length = 8 + rest.length := by
    rw [List.length_append, buildAck, List.length_append, writeBE32_length, writeBE32_length]
  have hsize : readBE32 (buildAck statusCode ++ rest) 0 = 4 := by
    rw [buildAck, List.append_assoc]
    exact readBE32_writeBE32 _ _
  have hstatus : readBE32 (buildAck statusCode ++ rest) 4 = statusCode :=
    readBE32_writeBE32 statusCode rest
  unfold parseAck
  rw [hlength, if_neg (by omega), hsize, hstatus]
  rfl

end OpenArangoDBCore.Replication.DirectMQProtocol
