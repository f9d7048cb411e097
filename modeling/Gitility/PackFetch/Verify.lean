import Gitility.PackFetch.Manifest
import Gitility.Provider.ProviderOdb

/-!
# The verification of a pack and its index

`verify_pair_bytes` and `first_index_oid` of `crates/gitility-core/src/packfetch.rs`. A pair verifies exactly
when its pack and its index do, each for the ID.
-/

namespace Gitility.PackFetch

open Provider (Hashers)

/-- `checksum_error`. -/
def checksumError (code : ErrorCode) (detail : String) : Error :=
  let artifact := if code = .indexChecksumMismatch then "index" else "pack"
  .new code ("hydrated " ++ artifact ++ " " ++ detail)

variable (hashers : Hashers)

/-- `hash_bytes`. -/
def hashBytes (hash : HashKind) (bytes : Bytes) (code : ErrorCode) : Except Error Oid :=
  (hashers.finalize hash bytes).mapError fun _ ↦ checksumError code "collision detected while hashing"

/-- `verify_pair_bytes`, which reads only the ID of the descriptor. -/
def verifyPairBytes (pack index id : Bytes) (hash : HashKind) : Except Error Unit := do
  let id ← (Oid.parseHex id).mapError fun _ ↦ protocolError "validated pack ID could not be parsed"
  let digestLen := hash.digestLen
  ensure (digestLen ≤ pack.length) (checksumError .packChecksumMismatch "is shorter than its checksum")
  let packTrailer := pack.drop (pack.length - digestLen)
  let actualPack ← hashBytes hashers hash (pack.take (pack.length - digestLen)) .packChecksumMismatch
  ensure (actualPack.bytes = packTrailer ∧ packTrailer = id.bytes)
    (checksumError .packChecksumMismatch "checksum does not match its trailer or manifest ID")
  ensure (digestLen * 2 ≤ index.length)
    (checksumError .indexChecksumMismatch "is shorter than its checksums")
  let packChecksumStart := index.length - digestLen * 2
  let indexChecksumStart := index.length - digestLen
  ensure ((index.take indexChecksumStart).drop packChecksumStart = id.bytes)
    (checksumError .packChecksumMismatch "index refers to a different pack checksum")
  let actualIndex ← hashBytes hashers hash (index.take indexChecksumStart) .indexChecksumMismatch
  ensure (actualIndex.bytes = index.drop indexChecksumStart)
    (checksumError .indexChecksumMismatch "checksum does not match")

/-- How much of an index `first_index_oid` reads. -/
def firstOidBytes (hash : HashKind) : ℕ := 8 + 256 * 4 + hash.digestLen

/-- `first_index_oid` after its read. -/
def firstIndexOid (header : Bytes) (hash : HashKind) : Except Error Oid := do
  let versioned := header.take 4 = [0xff, 0x74, 0x4f, 0x63]
  ensure (versioned → (header.drop 4).take 4 = [0, 0, 0, 2])
    (malformed "hydrated index version is unsupported")
  let fanoutStart := if versioned then 8 else 0
  let oidStart := if versioned then 8 + 256 * 4 else 256 * 4 + 4
  let count := Bytes.ofLe ((header.drop (fanoutStart + 256 * 4 - 4)).take 4).reverse
  ensure (count ≠ 0) (malformed "hydrated index contains no objects")
  (Oid.new hash ((header.drop oidStart).take hash.digestLen)).mapError fun _ ↦
    malformed "hydrated index contains an invalid first object ID"

/-! ### The two halves of a pair -/

variable {hashers} {pack pack' index index' id id' : Bytes} {hash : HashKind}

/-- A pack ends in the digest of what stands before, which is the ID. -/
def PackVerified (hashers : Hashers) (hash : HashKind) (id pack : Bytes) : Prop :=
  ∃ oid actual, Oid.parseHex id = .ok oid ∧ hash.digestLen ≤ pack.length ∧
    hashers.finalize hash (pack.take (pack.length - hash.digestLen)) = .ok actual ∧
    actual.bytes = pack.drop (pack.length - hash.digestLen) ∧
    pack.drop (pack.length - hash.digestLen) = oid.bytes

/-- An index ends in the ID and in the digest of what stands before. -/
def IndexVerified (hashers : Hashers) (hash : HashKind) (id index : Bytes) : Prop :=
  ∃ oid actual, Oid.parseHex id = .ok oid ∧ hash.digestLen * 2 ≤ index.length ∧
    (index.take (index.length - hash.digestLen)).drop (index.length - hash.digestLen * 2) = oid.bytes ∧
    hashers.finalize hash (index.take (index.length - hash.digestLen)) = .ok actual ∧
    actual.bytes = index.drop (index.length - hash.digestLen)

private theorem mapError_eq_ok {α : Type} {x : Except Error α} {f : Error → Error} {a : α} :
    x.mapError f = .ok a ↔ x = .ok a := by
  cases x with
  | ok b => rfl
  | error e => exact ⟨nofun, nofun⟩

/-- A pair verifies exactly when both halves do. -/
theorem verifyPairBytes_eq_ok : verifyPairBytes hashers pack index id hash = .ok () ↔
    PackVerified hashers hash id pack ∧ IndexVerified hashers hash id index := by
  simp only [verifyPairBytes, hashBytes, Except.bind_eq_ok, ensure_eq_ok, exists_const, mapError_eq_ok,
    PackVerified, IndexVerified]
  constructor
  · rintro ⟨oid, hid, hpack, actual, hactual, ⟨htrailer, hsame⟩, hindex, hrefers, sum, hsum, heq⟩
    exact ⟨⟨oid, actual, hid, hpack, hactual, htrailer, hsame⟩, oid, sum, hid, hindex, hrefers, hsum, heq⟩
  · rintro ⟨⟨oid, actual, hid, hpack, hactual, htrailer, hsame⟩, oid', sum, hid', hindex, hrefers, hsum, heq⟩
    cases hid.symm.trans hid'
    exact ⟨oid, hid, hpack, actual, hactual, ⟨htrailer, hsame⟩, hindex, hrefers, sum, hsum, heq⟩

/-- IDs that name the same files verify the same pairs. -/
theorem verifyPairBytes_congr (h : id.map toAsciiLowercase = id'.map toAsciiLowercase) :
    verifyPairBytes hashers pack index id hash = verifyPairBytes hashers pack index id' hash := by
  have hparse : Oid.parseHex id = Oid.parseHex id' := by rw [← parseHex_map id, h, parseHex_map]
  rw [verifyPairBytes, verifyPairBytes, hparse]

end Gitility.PackFetch
