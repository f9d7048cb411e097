import Gitility.Base.Program
import Gitility.Bundle.Snapshot
import Gitility.Cursor.Codec

/-!
# Cursors of reference listings

`encode_ref_cursor` and `decode_ref_cursor` of `crates/gitility-core/src/refs.rs`. A cursor holds a full
reference name. A name that is too long for it is packed: every 32 bytes of the alphabet of reference names
become 31 bytes. Arithmetic on `u16` and the assertion on the carry panic where they fail.
-/

namespace Gitility

/-- `cursor.rs` `OPERATION_REFS`. -/
def Cursor.operationRefs : UInt8 := 0x05

namespace RefCursor

/-- `refs.rs` `COMPACT_CURSOR_GENERATION`. -/
def compactCursorGeneration : Bytes := [1]
/-- `refs.rs` `COMPACT_REF_BLOCK_SYMBOLS`. -/
def compactRefBlockSymbols : ℕ := 32
/-- `refs.rs` `COMPACT_REF_BLOCK_BYTES`. -/
def compactRefBlockBytes : ℕ := 31
/-- `refs.rs` `REF_NAME_ALPHABET_LEN`. -/
def refNameAlphabetLen : ℕ := 215

/-! ### The alphabet -/

/-- The bytes `*:?[\^~`. -/
def forbiddenRefBytes : Bytes := [0x2a, 0x3a, 0x3f, 0x5b, 0x5c, 0x5e, 0x7e]

/-- `refs.rs` `is_forbidden_ref_byte`. -/
def isForbiddenRefByte (byte : UInt8) : Bool := byte ∈ forbiddenRefBytes

/-- `refs.rs` `ref_name_alphabet_rank`. -/
def refNameAlphabetRank (byte : UInt8) : Option UInt8 :=
  if 0x80 ≤ byte then some (87 + (byte - 0x80))
  else if ¬ (0x21 ≤ byte ∧ byte ≤ 0x7e) ∨ isForbiddenRefByte byte then none
  else some (byte - 0x21 - UInt8.ofNat (forbiddenRefBytes.countP (· < byte)))

/-- The loop of `ref_name_alphabet_byte`. -/
def findRank (rank : UInt8) : Bytes → UInt8 → Option UInt8
  | [], _ => none
  | byte :: rest, seen =>
    if isForbiddenRefByte byte then findRank rank rest seen
    else if seen = rank then some byte
    else findRank rank rest (seen + 1)

/-- `refs.rs` `ref_name_alphabet_byte`. -/
def refNameAlphabetByte (rank : UInt8) : Option UInt8 :=
  if 87 ≤ rank then if rank ≤ 214 then some (0x80 + (rank - 87)) else none
  else findRank rank ((List.range' 0x21 94).map UInt8.ofNat) 0

/-! ### Packing -/

/-- A `u16` result. -/
def checkedU16 (value : ℕ) : Outcome Error ℕ := if value < 2 ^ 16 then .ok value else .diverged

/-- The inner loop of `encode_compact_ref_position`. -/
def addSymbol : Bytes → ℕ → Outcome Error (Bytes × ℕ)
  | [], carry => .ok ([], carry)
  | slot :: rest, carry => do
    let product ← checkedU16 (slot.toNat * refNameAlphabetLen)
    let value ← checkedU16 (product + carry)
    let (packed, carry) ← addSymbol rest (value >>> 8)
    return (UInt8.ofNat value :: packed, carry)

/-- The symbols of one block of `encode_compact_ref_position`. -/
def packSymbols : Bytes → Bytes → Outcome Error Bytes
  | [], packed => .ok packed
  | byte :: block, packed => do
    let rank ← .ofExcept (Cursor.orInvalid (refNameAlphabetRank byte)
      "reference cursor position contains a forbidden byte")
    let (packed, carry) ← addSymbol packed rank.toNat
    if carry = 0 then packSymbols block packed else .diverged

/-- One block of `encode_compact_ref_position`. -/
def packBlock (block : Bytes) : Outcome Error Bytes :=
  packSymbols block (List.replicate compactRefBlockBytes 0)

/-- The blocks of `encode_compact_ref_position`. -/
def packBlocks : ℕ → Bytes → Outcome Error Bytes
  | 0, _ => .ok []
  | blocks + 1, position => do
    let packed ← packBlock (position.take compactRefBlockSymbols)
    let rest ← packBlocks blocks (position.drop compactRefBlockSymbols)
    return packed ++ rest

/-- `refs.rs` `encode_compact_ref_position`. -/
def encodeCompactRefPosition (position : Bytes) : Outcome Error Bytes := do
  .ofExcept (ensure (position.length ≤ 65535)
    (.new .resultTooLarge "reference continuation name exceeds the compact cursor limit"))
  let fullBlocks := position.length / compactRefBlockSymbols
  let blocks ← packBlocks fullBlocks position
  return Bytes.toLe 2 position.length ++ blocks ++ position.drop (fullBlocks * compactRefBlockSymbols)

/-! ### Unpacking -/

/-- One division of `decode_compact_ref_position`, from the last byte to the first. -/
def divideBlock : Bytes → Bytes × ℕ
  | [] => ([], 0)
  | slot :: rest =>
    let (rest, remainder) := divideBlock rest
    let dividend := (remainder <<< 8) % 2 ^ 16 ||| slot.toNat
    (UInt8.ofNat (dividend / refNameAlphabetLen) :: rest, dividend % refNameAlphabetLen)

/-- The divisions of a block: the ranks and what is left. -/
def unpackRanks : ℕ → Bytes → Bytes × Bytes
  | 0, value => ([], value)
  | symbols + 1, value =>
    let (value, remainder) := divideBlock value
    let (ranks, value) := unpackRanks symbols value
    (ranks ++ [UInt8.ofNat remainder], value)

/-- One block of `decode_compact_ref_position`. -/
def unpackBlock (packed : Bytes) : Except Error Bytes := do
  let (ranks, value) := unpackRanks compactRefBlockSymbols packed
  ensure (∀ byte ∈ value, byte = 0)
    (Cursor.invalid "compact reference cursor block is outside the ref-name alphabet")
  ranks.mapM fun rank ↦
    Cursor.orInvalid (refNameAlphabetByte rank) "compact reference cursor rank is invalid"

/-- The blocks of `decode_compact_ref_position`. -/
def unpackBlocks : ℕ → Bytes → Except Error Bytes
  | 0, _ => .ok []
  | blocks + 1, encoded => do
    let block ← unpackBlock (encoded.take compactRefBlockBytes)
    let rest ← unpackBlocks blocks (encoded.drop compactRefBlockBytes)
    return block ++ rest

/-- `refs.rs` `decode_compact_ref_position`. -/
def decodeCompactRefPosition (encoded : Bytes) : Except Error Bytes := do
  ensure (2 ≤ encoded.length) (Cursor.invalid "compact reference cursor length is missing")
  let length := Bytes.ofLe (encoded.take 2)
  ensure (length ≤ RefDb.maxRefNameBytes)
    (Cursor.invalid "compact reference cursor name exceeds 4096 bytes")
  let fullBlocks := length / compactRefBlockSymbols
  let tailLen := length % compactRefBlockSymbols
  ensure (encoded.length = 2 + fullBlocks * compactRefBlockBytes + tailLen)
    (Cursor.invalid "compact reference cursor payload length is invalid")
  let position ← unpackBlocks fullBlocks (encoded.drop 2)
  return position ++ encoded.drop (2 + fullBlocks * compactRefBlockBytes)

/-! ### Cursors -/

/-- `refs.rs` `cursor_identity`. -/
def cursorIdentity (hash : HashKind) : Bytes := List.replicate hash.digestLen 0

/-- The identity of a reference cursor. -/
def expected (hash : HashKind) (fingerprint : UInt64) : Cursor.Expected where
  hashKind := hash
  snapshotDigest := cursorIdentity hash
  operationTag := Cursor.operationRefs
  optionFingerprint := fingerprint

/-- The position in a decoded cursor. -/
def decodePosition (decoded : Cursor) : Except Error Bytes :=
  if decoded.generation = [] then .ok decoded.position
  else if decoded.generation = compactCursorGeneration then decodeCompactRefPosition decoded.position
  else .error (Cursor.invalid "reference cursor generation is not recognized")

/-- `refs.rs` `decode_ref_cursor`. -/
def decodeRefCursor (store : RefDb.Store) (encoded : Bytes) (hash : HashKind) (fingerprint : UInt64) :
    Except Error Bytes := do
  let decoded ← Cursor.decode encoded (expected hash fingerprint)
  let position ← decodePosition decoded
  (RefDb.validateFullRefName store position).mapError fun _ ↦
    Cursor.invalid "reference cursor position is not a full ref name"
  return position

/-- `refs.rs` `encode_ref_cursor`. -/
def encodeRefCursor (hash : HashKind) (fingerprint : UInt64) (position : Bytes) :
    Outcome Error Bytes := do
  let cursor : Cursor := ⟨expected hash fingerprint, [], position⟩
  let encoded ←
    if Cursor.maxCursorBytes < cursor.encode.length then do
      let compact ← encodeCompactRefPosition position
      pure { cursor with generation := compactCursorGeneration, position := compact }.encode
    else pure cursor.encode
  .ofExcept (ensure (encoded.length ≤ Cursor.maxCursorBytes)
    (.new .resultTooLarge "reference continuation name exceeds the cursor size limit"))
  return encoded

end RefCursor
end Gitility
