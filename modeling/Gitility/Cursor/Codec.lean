import Gitility.Base.Object

/-!
# Versioned, checksummed continuation cursors

`crates/gitility-core/src/cursor.rs`: the frozen v1 wire format. A cursor is a version byte,
a hash tag, the snapshot digest, an operation tag, an eight-byte option fingerprint and two
length-prefixed byte strings, followed by a CRC-32 of everything before it. Decoding checks
the fields in that order against the query's expected identity.
-/

namespace Gitility.Cursor

/-- `cursor.rs` `VERSION`. -/
def version : UInt8 := 0x01

/-- `cursor.rs` `MAX_CURSOR_BYTES`. -/
def maxCursorBytes : ℕ := 4096

/-- `cursor.rs` `CRC_BYTES`. -/
def crcBytes : ℕ := 4

/-- `cursor.rs` `OPERATION_LIST_TREE`. -/
def operationListTree : UInt8 := 0x01
/-- `cursor.rs` `OPERATION_SEARCH`. -/
def operationSearch : UInt8 := 0x02
/-- `cursor.rs` `OPERATION_LOG`. -/
def operationLog : UInt8 := 0x03
/-- `cursor.rs` `OPERATION_HISTORY`. -/
def operationHistory : UInt8 := 0x04

/-- `cursor.rs` `CursorExpected`: the query identity a cursor must carry. -/
structure Expected where
  hashKind : HashKind
  snapshotDigest : Bytes
  operationTag : UInt8
  optionFingerprint : UInt64
  deriving DecidableEq

end Cursor

/-- `cursor.rs` `Cursor`. -/
structure Cursor extends Cursor.Expected where
  generation : Bytes
  position : Bytes
  deriving DecidableEq

namespace Cursor

/-- `cursor.rs` `hash_tag`. -/
def hashTag : HashKind → UInt8
  | .sha1 => 0x01
  | .sha256 => 0x02

/-- One of the eight shift steps `cursor.rs` `crc32` makes for a byte. -/
def crcBit (crc : UInt32) : UInt32 :=
  let mask := 0 - (crc &&& 1)
  (crc >>> 1) ^^^ (0xedb88320 &&& mask)

/-- The loop body of `cursor.rs` `crc32`. -/
def crcByte (crc : UInt32) (byte : UInt8) : UInt32 :=
  (crcBit^[8]) (crc ^^^ byte.toUInt32)

/-- `cursor.rs` `crc32`. -/
def crc32 (bytes : Bytes) : UInt32 := ~~~(bytes.foldl crcByte 0xffffffff)

/-- `cursor.rs` `fnv1a_64`. -/
def fnv1a64 (bytes : Bytes) : UInt64 :=
  bytes.foldl (fun hash byte ↦ (hash ^^^ byte.toUInt64) * 0x00000100000001b3) 0xcbf29ce484222325

/-- `u16::try_from(len).unwrap_or(u16::MAX).to_le_bytes()`. -/
def lengthField (length : ℕ) : Bytes := Bytes.toLe 2 (min length 65535)

/-- The bytes `encode` pushes before the checksum. -/
def body (cursor : Cursor) : Bytes :=
  version :: hashTag cursor.hashKind :: cursor.snapshotDigest ++
    (cursor.operationTag :: Bytes.toLe 8 cursor.optionFingerprint.toNat ++
      (lengthField cursor.generation.length ++ cursor.generation ++
        (lengthField cursor.position.length ++ cursor.position)))

/-- `cursor.rs` `encode`. -/
def encode (cursor : Cursor) : Bytes :=
  cursor.body ++ Bytes.toLe crcBytes (crc32 cursor.body).toNat

/-- `cursor.rs` `invalid`. -/
def invalid (message : String) : Error := { code := .invalidCursor, message }

/-- `cursor.rs` `take`: the slice and the advanced offset, when the bytes reach that far. -/
def take (bytes : Bytes) (offset len : ℕ) : Option (Bytes × ℕ) :=
  if offset + len ≤ bytes.length then some ((bytes.drop offset).take len, offset + len) else none

/-- `cursor.rs` `read_u16_le`, `read_u32_le` and `read_u64_le` at a width of `n` bytes. -/
def readLe (n : ℕ) (bytes : Bytes) : Option ℕ :=
  if bytes.length = n then some (Bytes.ofLe bytes) else none

/-- `ok_or_else(|| invalid(message))`. -/
def orInvalid {α : Type} (value : Option α) (message : String) : Except Error α :=
  value.elim (.error (invalid message)) .ok

/-- `cursor.rs` `decode`, with the checks in their frozen order. -/
def decode (bytes : Bytes) (expected : Expected) : Except Error Cursor := do
  ensure (bytes.length ≤ maxCursorBytes)
    (invalid "length check failed: cursor exceeds 4096 bytes")
  ensure (crcBytes ≤ bytes.length) (invalid "CRC check failed: cursor is too short")
  let bodyLen := bytes.length - crcBytes
  let body := bytes.take bodyLen
  let encodedCrc ← orInvalid (readLe 4 (bytes.drop bodyLen))
    "CRC check failed: cursor checksum is truncated"
  ensure ((crc32 body).toNat = encodedCrc)
    (invalid "CRC check failed: cursor checksum does not match")
  ensure (body.head? = some version)
    (invalid "version check failed: unsupported cursor version")
  ensure (body[1]? = some (hashTag expected.hashKind)) (invalid "hash kind check failed")
  let digestLen := expected.hashKind.digestLen
  ensure (expected.snapshotDigest.length = digestLen)
    (invalid "snapshot digest check failed: expected digest is invalid")
  let (digest, offset) ← orInvalid (take body 2 digestLen)
    "snapshot digest check failed: cursor is truncated"
  ensure (digest = expected.snapshotDigest) (invalid "snapshot digest check failed")
  let (tag, offset) ← orInvalid (take body offset 1)
    "operation tag check failed: cursor is truncated"
  let operationTag ← orInvalid tag.head? "operation tag check failed: cursor is truncated"
  ensure (operationTag = expected.operationTag) (invalid "operation tag check failed")
  let (field, offset) ← orInvalid (take body offset 8)
    "option fingerprint check failed: cursor is truncated"
  let fingerprint ← orInvalid (readLe 8 field)
    "option fingerprint check failed: cursor is truncated"
  ensure (fingerprint = expected.optionFingerprint.toNat)
    (invalid "option fingerprint check failed")
  let (field, offset) ← orInvalid (take body offset 2) "generation length check failed"
  let generationLen ← orInvalid (readLe 2 field) "generation length check failed"
  let (generation, offset) ← orInvalid (take body offset generationLen)
    "generation length check failed"
  let (field, offset) ← orInvalid (take body offset 2) "position length check failed"
  let positionLen ← orInvalid (readLe 2 field) "position length check failed"
  let (position, offset) ← orInvalid (take body offset positionLen)
    "position length check failed"
  ensure (offset = body.length) (invalid "trailing data check failed")
  return { expected with
    snapshotDigest := digest, operationTag, optionFingerprint := UInt64.ofNat fingerprint,
    generation, position }

/-! ### Slices and fields -/

/-- Only a value is accepted. -/
theorem orInvalid_eq_ok {α : Type} {value : Option α} {message : String} {a : α} :
    orInvalid value message = .ok a ↔ value = some a := by
  cases value <;> simp [orInvalid]

private theorem readLe_eq_some {n value : ℕ} {bytes : Bytes} :
    readLe n bytes = some value ↔ bytes.length = n ∧ value = Bytes.ofLe bytes := by
  unfold readLe
  split <;> simp_all [eq_comm]

private theorem take_eq_some {bytes slice : Bytes} {offset len next : ℕ} :
    take bytes offset len = some (slice, next) ↔
      offset + len ≤ bytes.length ∧ slice = (bytes.drop offset).take len ∧ next = offset + len := by
  unfold take
  split <;> simp_all [eq_comm]

/-- A successful `take` splits the unread bytes into the slice and what follows it. -/
theorem drop_of_take {bytes slice : Bytes} {offset len next : ℕ}
    (h : offset + len ≤ bytes.length ∧ slice = (bytes.drop offset).take len ∧
      next = offset + len) :
    slice.length = len ∧ bytes.drop offset = slice ++ bytes.drop next := by
  obtain ⟨hle, rfl, rfl⟩ := h
  constructor
  · rw [List.length_take, List.length_drop]
    omega
  · rw [← List.drop_drop, List.take_append_drop]

/-- Reading the slice that the unread bytes start with. -/
theorem take_of_drop {bytes slice rest : Bytes} {offset len : ℕ} (hlen : slice.length = len)
    (h : bytes.drop offset = slice ++ rest) (hle : offset ≤ bytes.length) :
    take bytes offset len = some (slice, offset + len) ∧ bytes.drop (offset + len) = rest ∧
      offset + len ≤ bytes.length := by
  have hl := congrArg List.length h
  rw [List.length_drop, List.length_append] at hl
  refine ⟨?_, ?_, by omega⟩
  · rw [take_eq_some, h]
    refine ⟨by omega, ?_, rfl⟩
    rw [List.take_append_of_le_length (by omega), List.take_of_length_le (by omega)]
  · rw [← List.drop_drop, h, List.drop_append_of_le_length (by omega),
      List.drop_of_length_le (by omega), List.nil_append]

private theorem lengthField_ofLe {field : Bytes} (h : field.length = 2) :
    lengthField (Bytes.ofLe field) = field := by
  have hlt := Bytes.ofLe_lt field
  rw [h] at hlt
  rw [lengthField, Nat.min_eq_left (by omega), ← h, Bytes.toLe_ofLe]

private theorem ofLe_lengthField (length : ℕ) (h : length ≤ 65535) :
    Bytes.ofLe (lengthField length) = length := by
  rw [lengthField, Nat.min_eq_left h, Bytes.ofLe_toLe_of_lt (by omega)]

private theorem length_lengthField (length : ℕ) : (lengthField length).length = 2 := by
  simp [lengthField]

/-- Number of bytes a cursor with empty generation spends besides its position. -/
theorem length_encode (cursor : Cursor) :
    cursor.encode.length = 19 + cursor.snapshotDigest.length + cursor.generation.length +
      cursor.position.length := by
  simp only [encode, body, crcBytes, List.length_append, List.length_cons, Bytes.length_toLe,
    length_lengthField]
  omega

/-! ### Both directions of the codec -/

private theorem eq_cons_cons {list : Bytes} {a b : UInt8} (ha : list.head? = some a)
    (hb : list[1]? = some b) : list = a :: b :: list.drop 2 := by
  match list with
  | [] => simp at ha
  | [_] => simp at hb
  | x :: y :: rest => simp_all

-- The checksum is determined by the body, so recovering the body recovers every byte.
private theorem encode_eq_of_body {cursor : Cursor} {front tail : Bytes}
    (hbody : cursor.body = front) (hlen : tail.length = 4)
    (hsum : (crc32 front).toNat = Bytes.ofLe tail) : cursor.encode = front ++ tail := by
  rw [encode, hbody, hsum, show crcBytes = tail.length from hlen.symm, Bytes.toLe_ofLe]

/-- What a successful decode has read: the cursor of the expected identity whose encoding
is the whole input. -/
theorem encode_of_decode {bytes : Bytes} {expected : Expected} {cursor : Cursor}
    (h : decode bytes expected = .ok cursor) :
    cursor.encode = bytes ∧ cursor.toExpected = expected ∧
      cursor.snapshotDigest.length = cursor.hashKind.digestLen := by
  simp only [decode, Except.bind_eq_ok, ensure_eq_ok, orInvalid_eq_ok, Prod.exists,
    take_eq_some, readLe_eq_some, pure, Except.pure, Except.ok.injEq, exists_and_left,
    exists_const] at h
  obtain ⟨-, hcrc, crc, ⟨hl4, rfl⟩, hsum, hversion, htag, hdigest, digest, o₁, h₁, rfl,
    tag, o₂, h₂, op, hop, rfl, field, o₃, h₃, fp, ⟨hl8, rfl⟩, hfp, glen, o₄, h₄, -,
    ⟨hl2, rfl⟩, generation, o₅, h₅, plen, o₆, h₆, -, ⟨hl2', rfl⟩, position, o₇, h₇, hend,
    rfl⟩ := h
  obtain ⟨-, d₁⟩ := drop_of_take h₁
  obtain ⟨l₂, d₂⟩ := drop_of_take h₂
  obtain ⟨-, d₃⟩ := drop_of_take h₃
  obtain ⟨-, d₄⟩ := drop_of_take h₄
  obtain ⟨l₅, d₅⟩ := drop_of_take h₅
  obtain ⟨-, d₆⟩ := drop_of_take h₆
  obtain ⟨l₇, d₇⟩ := drop_of_take h₇
  have hfingerprint : UInt64.ofNat (Bytes.ofLe field) = expected.optionFingerprint := by
    rw [hfp, UInt64.ofNat_toNat]
  have htail : (bytes.take (bytes.length - crcBytes)).drop o₇ = [] :=
    List.drop_of_length_le (by omega)
  have htagByte : tag = [expected.operationTag] := by
    obtain ⟨byte, rfl⟩ := List.length_eq_one_iff.mp l₂
    simpa using hop
  simp only [hfingerprint, and_true, hdigest]
  rw [← List.take_append_drop (bytes.length - crcBytes) bytes]
  refine encode_eq_of_body ?_ hl4 hsum
  rw [eq_cons_cons hversion htag, d₁, d₂, d₃, d₄, d₅, d₆, d₇, htail, htagByte]
  simp only [body, ← hfp, l₅, l₇, lengthField_ofLe hl2, lengthField_ofLe hl2', ← hl8,
    Bytes.toLe_ofLe]
  simp

/-- Decoding an encoded cursor of the expected identity returns it. -/
theorem decode_encode_of_le {cursor : Cursor}
    (hdigest : cursor.snapshotDigest.length = cursor.hashKind.digestLen)
    (hlen : cursor.encode.length ≤ maxCursorBytes) :
    decode cursor.encode cursor.toExpected = .ok cursor := by
  have hl := length_encode cursor
  have hmax : cursor.encode.length ≤ 4096 := hlen
  have hn : cursor.encode.length - crcBytes = cursor.body.length := by
    simp [encode]
  have hfront : cursor.encode.take cursor.body.length = cursor.body := by simp [encode]
  have htail : cursor.encode.drop cursor.body.length =
      Bytes.toLe 4 (crc32 cursor.body).toNat := by simp [encode, crcBytes]
  have hcrc : Bytes.ofLe (Bytes.toLe 4 (crc32 cursor.body).toNat) =
      (crc32 cursor.body).toNat := by
    refine Bytes.ofLe_toLe_of_lt ?_
    have := (crc32 cursor.body).toNat_lt
    simpa using this
  have hfp : Bytes.ofLe (Bytes.toLe 8 cursor.optionFingerprint.toNat) =
      cursor.optionFingerprint.toNat := by
    refine Bytes.ofLe_toLe_of_lt ?_
    have := cursor.optionFingerprint.toNat_lt
    simpa using this
  have hgen := ofLe_lengthField cursor.generation.length (by omega)
  have hpos := ofLe_lengthField cursor.position.length (by omega)
  -- Each field starts where the previous one ends.
  have d₀ : cursor.body.drop 2 = cursor.snapshotDigest ++ ([cursor.operationTag] ++
      (Bytes.toLe 8 cursor.optionFingerprint.toNat ++ (lengthField cursor.generation.length ++
        (cursor.generation ++ (lengthField cursor.position.length ++
          (cursor.position ++ [])))))) := by simp [body]
  obtain ⟨t₁, d₁, b₁⟩ := take_of_drop hdigest d₀ (by simp [body])
  obtain ⟨t₂, d₂, b₂⟩ := take_of_drop (show [cursor.operationTag].length = 1 from rfl) d₁ b₁
  obtain ⟨t₃, d₃, b₃⟩ := take_of_drop (Bytes.length_toLe 8 _) d₂ b₂
  obtain ⟨t₄, d₄, b₄⟩ := take_of_drop (length_lengthField _) d₃ b₃
  obtain ⟨t₅, d₅, b₅⟩ := take_of_drop rfl d₄ b₄
  obtain ⟨t₆, d₆, b₆⟩ := take_of_drop (length_lengthField _) d₅ b₅
  obtain ⟨t₇, d₇, b₇⟩ := take_of_drop rfl d₆ b₆
  have hend := List.drop_eq_nil_iff.mp d₇
  have hlt : crcBytes ≤ cursor.encode.length := by rw [hl, crcBytes]; omega
  have hhead : cursor.body.head? = some version := rfl
  have htag : cursor.body[1]? = some (hashTag cursor.hashKind) := rfl
  simp only [decode, ensure, hn, hfront, htail, hlen, hlt, if_true, orInvalid, readLe, bind,
    Except.bind, hcrc, Bytes.length_toLe, Option.elim, hdigest, hhead, htag, t₁, t₂, t₃, t₄,
    length_lengthField, hgen, hpos, t₅, t₆, t₇, hfp, List.head?_cons,
    UInt64.ofNat_toNat, pure, Except.pure, Nat.le_antisymm b₇ hend]

/-- The v1 codec is a bijection between the cursors whose digest has its hash kind's length
and whose encoding fits, and the accepted byte strings: encoding then decoding under the
cursor's own identity returns the cursor, and an accepted byte string is the one encoding of
a cursor that carries the expected identity. -/
theorem codec_bijective_on_image :
    (∀ cursor : Cursor, cursor.snapshotDigest.length = cursor.hashKind.digestLen →
      cursor.encode.length ≤ maxCursorBytes →
        decode cursor.encode cursor.toExpected = .ok cursor) ∧
    (∀ (bytes : Bytes) (expected : Expected) (cursor : Cursor),
      decode bytes expected = .ok cursor →
        cursor.encode = bytes ∧ cursor.hashKind = expected.hashKind ∧
          cursor.snapshotDigest = expected.snapshotDigest ∧
          cursor.operationTag = expected.operationTag ∧
          cursor.optionFingerprint = expected.optionFingerprint) := by
  refine ⟨fun cursor hdigest hlen ↦ decode_encode_of_le hdigest hlen, ?_⟩
  intro bytes expected cursor h
  obtain ⟨hbytes, rfl, -⟩ := encode_of_decode h
  exact ⟨hbytes, rfl, rfl, rfl, rfl⟩

/-- The cursor of the source's own round-trip tests. -/
def sample : Cursor where
  hashKind := .sha1
  snapshotDigest := (List.range 20).map UInt8.ofNat
  operationTag := 0x01
  optionFingerprint := 0x0123456789abcdef
  generation := "pack-generation".toUTF8.toList
  position := "src/lib.rs".toUTF8.toList

/-- The theorem at a sample cursor: it is decoded as it was encoded. -/
theorem codec_bijective_on_image_sample :
    decode sample.encode sample.toExpected = .ok sample ∧ sample.hashKind = .sha1 := by
  have h := codec_bijective_on_image.1 sample (by decide) (by decide +kernel)
  exact ⟨h, (codec_bijective_on_image.2 _ _ _ h).2.1⟩

end Cursor
end Gitility
