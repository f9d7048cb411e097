import Gitility.Bundle.Grammar

/-!
# Pack manifests

The manifest of `crates/gitility-core/src/packfetch.rs` and its validation, and the names that a pack has on
disk.
-/

namespace Gitility.PackFetch

/-- `packfetch.rs` `PackDescriptor`. -/
structure PackDescriptor where
  id : Bytes
  packKey : Bytes
  indexKey : Bytes
  packSize : ℕ
  indexSize : ℕ
  etag : Option Bytes
  deriving DecidableEq

/-- `packfetch.rs` `PackManifest`. -/
structure PackManifest where
  version : ℕ
  generation : Bytes
  hash : HashKind
  packs : List PackDescriptor
  loose : List Bytes
  deriving DecidableEq

/-- `packfetch.rs` `protocol_error`. -/
def protocolError (message : String) : Error := .new .providerProtocolError message

/-- The loop of `PackManifest::validate`. -/
def validatePacks (hash : HashKind) : List PackDescriptor → List Oid → Except Error Unit
  | [], _ => .ok ()
  | pack :: packs, ids => do
    ensure (pack.packKey ≠ [] ∧ pack.indexKey ≠ []) (protocolError "pack manifest keys must not be empty")
    ensure (pack.packSize ≠ 0 ∧ pack.indexSize ≠ 0)
      (protocolError "pack manifest sizes must be greater than zero")
    let id ← (Oid.parseHex pack.id).mapError fun _ ↦
      protocolError "pack manifest ID is not a full hex digest"
    ensure (id.kind = hash) (protocolError "pack manifest ID length does not match its hash kind")
    ensure (id ∉ ids) (protocolError "pack manifest contains a duplicate pack ID")
    validatePacks hash packs (id :: ids)

/-- `PackManifest::validate`. -/
def PackManifest.validate (manifest : PackManifest) (expectedHash : HashKind) : Except Error Unit := do
  ensure (manifest.version = 1) (protocolError "pack manifest version must be 1")
  ensure (manifest.hash = expectedHash)
    (protocolError "pack manifest hash does not match the PackFetch store")
  ensure (manifest.generation ≠ []) (protocolError "pack manifest generation must not be empty")
  ensure (manifest.loose = []) (protocolError "PackFetch 0.2 manifests must not contain loose objects")
  validatePacks manifest.hash manifest.packs []

/-- `u8::to_ascii_lowercase`. -/
def toAsciiLowercase (byte : UInt8) : UInt8 := if 0x41 ≤ byte ∧ byte ≤ 0x5a then byte + 0x20 else byte

/-- The stem of a pack's files, `pack-` and its ID in lower case. -/
def stem (id : Bytes) : Bytes := Bytes.ascii "pack-" ++ id.map toAsciiLowercase

/-- The file name of a pack. -/
def packName (id : Bytes) : Bytes := stem id ++ Bytes.ascii ".pack"

/-- The file name of its index. -/
def indexName (id : Bytes) : Bytes := stem id ++ Bytes.ascii ".idx"

/-! ### IDs in lower case -/

variable {id id' : Bytes} {oid : Oid} {hash : HashKind} {packs : List PackDescriptor} {ids : List Oid}

private theorem hexVal_toAsciiLowercase (byte : UInt8) : Oid.hexVal (toAsciiLowercase byte) = Oid.hexVal byte := by
  rw [toAsciiLowercase]
  split
  · next h =>
    have hlow : 0x41 ≤ byte.toNat := UInt8.le_iff_toNat_le.mp h.1
    have hhigh : byte.toNat ≤ 0x5a := UInt8.le_iff_toNat_le.mp h.2
    have hsum : (byte + 0x20).toNat = (byte.toNat + 0x20) % 2 ^ 8 := UInt8.toNat_add byte 0x20
    have hlower : (byte + 0x20).toNat = byte.toNat + 0x20 := by omega
    have hvalue : byte + 0x20 - 0x61 + 10 = byte - 0x41 + 10 := by grind
    simp only [Oid.hexVal, UInt8.le_iff_toNat_le, hlower, hvalue]
    by_cases hhex : byte.toNat ≤ 0x46
    · rw [if_neg (by simp; omega), if_pos (by simp; omega), if_neg (by simp; omega),
        if_neg (by simp; omega), if_pos (by simp; omega)]
    · rw [if_neg (by simp; omega), if_neg (by simp; omega), if_neg (by simp; omega),
        if_neg (by simp; omega), if_neg (by simp; omega), if_neg (by simp; omega)]
  · rfl

/-- A hexadecimal digit in lower case. -/
theorem isLowerHex_toAsciiLowercase {byte value : UInt8} (h : Oid.hexVal byte = .ok value) :
    Bundle.isLowerHex (toAsciiLowercase byte) = true := by
  have hsum : (byte + 0x20).toNat = (byte.toNat + 0x20) % 2 ^ 8 := UInt8.toNat_add byte 0x20
  simp only [Oid.hexVal, UInt8.le_iff_toNat_le] at h
  simp only [toAsciiLowercase, Bundle.isLowerHex, UInt8.le_iff_toNat_le, decide_eq_true_eq]
  split at h
  · next hdigit =>
    rw [if_neg (by simp at hdigit ⊢; omega)]
    exact .inl hdigit
  · split at h
    · next hlower =>
      rw [if_neg (by simp at hlower ⊢; omega)]
      exact .inr hlower
    · split at h
      · next hupper =>
        rw [if_pos (by simp at hupper ⊢; omega)]
        right
        simp at hupper ⊢
        omega
      · cases h

private theorem hexDigest_map (bytes : Bytes) :
    Oid.hexDigest (bytes.map toAsciiLowercase) = Oid.hexDigest bytes := by
  induction bytes using Oid.hexDigest.induct with
  | case1 hi lo rest ih => simp only [List.map_cons, Oid.hexDigest, hexVal_toAsciiLowercase, ih]
  | case2 bytes h =>
    cases bytes with
    | nil => rfl
    | cons hi rest =>
      cases rest with
      | nil => rfl
      | cons lo rest => exact absurd rfl (h hi lo rest)

/-- An ID names the same object in lower case. -/
theorem parseHex_map (id : Bytes) : Oid.parseHex (id.map toAsciiLowercase) = Oid.parseHex id := by
  rw [Oid.parseHex, Oid.parseHex, List.length_map, hexDigest_map]

private theorem hexVal_of_hexDigest {bytes digest : Bytes} (h : Oid.hexDigest bytes = .ok digest)
    (heven : bytes.length % 2 = 0) : ∀ byte ∈ bytes, ∃ value, Oid.hexVal byte = .ok value := by
  induction bytes using Oid.hexDigest.induct generalizing digest with
  | case1 hi lo rest ih =>
    simp only [Oid.hexDigest, Except.bind_eq_ok] at h
    obtain ⟨high, hhigh, low, hlow, more, hmore, -⟩ := h
    simp only [List.length_cons] at heven
    exact List.forall_mem_cons.mpr ⟨⟨high, hhigh⟩, List.forall_mem_cons.mpr ⟨⟨low, hlow⟩,
      ih hmore (by omega)⟩⟩
  | case2 bytes hshape =>
    cases bytes with
    | nil => exact fun byte hbyte ↦ absurd hbyte List.not_mem_nil
    | cons hi rest =>
      cases rest with
      | nil => cases heven
      | cons lo rest => exact absurd rfl (hshape hi lo rest)

/-- An ID in lower case is the digest of a pack name. -/
theorem packDigest_of_parseHex (h : Oid.parseHex id = .ok oid) :
    Bundle.PackDigest oid.kind (id.map toAsciiLowercase) := by
  have hdigits {kind : HashKind} {digest : Bytes} (hlength : id.length = 2 * kind.digestLen)
      (hdigest : Oid.hexDigest id = .ok digest) (hnew : Oid.new kind digest = .ok oid) :
      Bundle.PackDigest oid.kind (id.map toAsciiLowercase) := by
    have hkind : oid.kind = kind := by
      rw [Oid.new] at hnew
      split at hnew
      · cases hnew
        rfl
      · cases hnew
    refine ⟨?_, List.all_eq_true.mpr fun byte hbyte ↦ ?_⟩
    · rw [List.length_map, hkind, hlength]
      rfl
    · obtain ⟨digit, hdigit, rfl⟩ := List.mem_map.mp hbyte
      obtain ⟨value, hvalue⟩ := hexVal_of_hexDigest hdigest (by omega) digit hdigit
      exact isLowerHex_toAsciiLowercase hvalue
  rw [Oid.parseHex] at h
  split at h
  · next hlength =>
    obtain ⟨digest, hdigest, hnew⟩ := Except.bind_eq_ok.mp h
    exact @hdigits .sha1 digest hlength hdigest hnew
  · split at h
    · next hlength =>
      obtain ⟨digest, hdigest, hnew⟩ := Except.bind_eq_ok.mp h
      exact @hdigits .sha256 digest hlength hdigest hnew
    · cases h

/-- What a valid manifest says of one pack. -/
structure ValidPack (hash : HashKind) (pack : PackDescriptor) : Prop where
  keys : pack.packKey ≠ [] ∧ pack.indexKey ≠ []
  sizes : pack.packSize ≠ 0 ∧ pack.indexSize ≠ 0
  id : ∃ oid, Oid.parseHex pack.id = .ok oid ∧ oid.kind = hash

private theorem validatePacks_eq_ok (h : validatePacks hash packs ids = .ok ()) :
    (∀ pack ∈ packs, ValidPack hash pack) ∧ (packs.map fun pack ↦ pack.id.map toAsciiLowercase).Nodup ∧
      ∀ pack ∈ packs, ∀ oid, Oid.parseHex pack.id = .ok oid → oid ∉ ids := by
  induction packs generalizing ids with
  | nil => simp
  | cons pack packs ih =>
    simp only [validatePacks, Except.bind_eq_ok, ensure_eq_ok, exists_const] at h
    obtain ⟨hkeys, hsizes, oid, hid, hkind, hnew, h⟩ := h
    obtain ⟨hvalid, hnodup, hfresh⟩ := ih h
    have hparse : Oid.parseHex pack.id = .ok oid := by
      cases hparse : Oid.parseHex pack.id with
      | error error =>
        rw [hparse] at hid
        cases hid
      | ok oid' =>
        rw [hparse] at hid
        exact congrArg Except.ok (Except.ok.inj hid)
    refine ⟨List.forall_mem_cons.mpr ⟨⟨hkeys, hsizes, oid, hparse, hkind⟩, hvalid⟩, ?_, ?_⟩
    · rw [List.map_cons, List.nodup_cons]
      refine ⟨fun hmem ↦ ?_, hnodup⟩
      obtain ⟨other, hother, heq⟩ := List.mem_map.mp hmem
      -- Names that agree in lower case are the same object.
      have hsame : Oid.parseHex other.id = .ok oid := by rw [← parseHex_map, heq, parseHex_map, hparse]
      exact hfresh other hother oid hsame List.mem_cons_self
    · refine List.forall_mem_cons.mpr ⟨fun oid' hoid' ↦ ?_, fun other hother oid' hoid' hmem ↦
        hfresh other hother oid' hoid' (List.mem_cons_of_mem _ hmem)⟩
      rw [hparse] at hoid'
      cases hoid'
      exact hnew

/-- What a valid manifest says of its packs. -/
theorem PackManifest.validate_eq_ok {manifest : PackManifest} (h : manifest.validate hash = .ok ()) :
    manifest.hash = hash ∧ manifest.loose = [] ∧ (∀ pack ∈ manifest.packs, ValidPack hash pack) ∧
      (manifest.packs.map fun pack ↦ pack.id.map toAsciiLowercase).Nodup := by
  simp only [PackManifest.validate, Except.bind_eq_ok, ensure_eq_ok, exists_const] at h
  obtain ⟨-, rfl, -, hloose, hpacks⟩ := h
  obtain ⟨hvalid, hnodup, -⟩ := validatePacks_eq_ok hpacks
  exact ⟨rfl, hloose, hvalid, hnodup⟩

end Gitility.PackFetch
