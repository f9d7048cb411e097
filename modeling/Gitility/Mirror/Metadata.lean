import Mathlib.Data.Nat.Digits.Lemmas
import Gitility.Bundle.Grammar

/-!
# The metadata of a stored bundle

`validate_metadata`, `validate_remote_metadata` and `tips_digest` of `lib/gitility/mirror.ex`. A
metadata map is the list of its entries.
-/

namespace Gitility.Mirror

open Gitility.Bundle

/-- A metadata map. -/
abbrev Metadata := List (Bytes × Bytes)

/-- `@maximum_generation`. -/
def maximumGeneration : ℕ := 18446744073709551615

/-- `@maximum_count`. -/
def maximumCount : ℕ := 4294967295

/-- `@format`. -/
def format : Bytes := Bytes.ascii "gitility-bundle/1.0"

/-! ### Numbers and digests -/

/-- `Integer.to_string`. -/
def decimal (n : ℕ) : Bytes :=
  if n = 0 then [0x30] else (Nat.digits 10 n).reverse.map fun digit ↦ UInt8.ofNat (0x30 + digit)

/-- `Integer.parse` of digits. -/
def parseDecimal (digits : Bytes) : ℕ :=
  digits.foldl (fun value digit ↦ 10 * value + (digit.toNat - 0x30)) 0

/-- `ascii_digits?`. -/
def asciiDigits (bytes : Bytes) : Bool := bytes.all fun digit ↦ 0x30 ≤ digit ∧ digit ≤ 0x39

/-- `canonical_positive_decimal?`. -/
def canonicalPositiveDecimal : Bytes → Bool
  | first :: rest => (0x31 ≤ first ∧ first ≤ 0x39) ∧ asciiDigits rest
  | [] => false

/-- `canonical_integer`. -/
def canonicalInteger (value : Option Bytes) (allowZero : Bool) (maximum : ℕ) : Option ℕ := do
  let value ← value
  let syntaxOk := value.length ≤ (decimal maximum).length ∧
    (allowZero ∧ value = Bytes.ascii "0" ∨ canonicalPositiveDecimal value)
  if syntaxOk ∧ parseDecimal value ≤ maximum then some (parseDecimal value) else none

/-- `lowercase_hex?`. -/
def lowercaseHex (size : ℕ) (value : Bytes) : Bool := value.length = size ∧ value.all isLowerHex

/-- One lowercase hexadecimal digit. -/
def hexByte (nibble : ℕ) : UInt8 :=
  if nibble < 10 then UInt8.ofNat (0x30 + nibble) else UInt8.ofNat (0x57 + nibble)

/-- `Base.encode16(_, case: :lower)`. -/
def encode16 (bytes : Bytes) : Bytes :=
  bytes.flatMap fun byte ↦ [hexByte (byte.toNat / 16), hexByte (byte.toNat % 16)]

/-- `tips_digest`. -/
def tipsDigest (sha256 : Bytes → Bytes) (refs : List RefEntry) (headSymref : Option Bytes) : Bytes :=
  let refLines := refs.map fun ref ↦
    ref.name ++ Bytes.ascii " " ++ encode16 ref.target ++ Bytes.ascii "\n"
  let lines := (headSymref.map fun symref ↦
    Bytes.ascii "HEAD -> " ++ symref ++ Bytes.ascii "\n").toList ++ refLines
  encode16 (sha256 (lines.mergeSort fun a b ↦ a ≤ b).flatten)

/-- `toc.metadata["head_symref"]`. -/
def headSymref (toc : Toc) : Option Bytes := toc.metadata.lookup (Bytes.ascii "head_symref")

/-- The digest of a parsed bundle. -/
def tocDigest (sha256 : Bytes → Bytes) (toc : Toc) : Bytes :=
  tipsDigest sha256 toc.refs (headSymref toc)

/-! ### Maps -/

/-- `valid_metadata_key?`. -/
def validMetadataKey (key : Bytes) : Bool :=
  key ≠ [] ∧ key.all fun byte ↦
    0x61 ≤ byte ∧ byte ≤ 0x7A ∨ 0x30 ≤ byte ∧ byte ≤ 0x39 ∨ byte = 0x5F ∨ byte = 0x2D

/-- `printable_ascii?`. -/
def printableAscii (value : Bytes) : Bool := value.all fun byte ↦ 0x20 ≤ byte ∧ byte ≤ 0x7E

/-- `validate_metadata`. -/
def validateMetadata (metadata : Metadata) : Except Error Unit :=
  ensure (metadata.length ≤ 8 ∧
      (∀ entry ∈ metadata, validMetadataKey entry.1 ∧ entry.2.length ≤ 128 ∧ printableAscii entry.2) ∧
      (metadata.map fun entry ↦ entry.1.length + entry.2.length).sum ≤ 1024)
    (.new .invalidArgument
      "object metadata must use at most 8 lowercase keys and 1 KiB of printable ASCII")

/-- What `validate_remote_metadata` returns. -/
structure RemoteMetadata where
  generation : ℕ
  tipsDigest : Bytes
  refCount : ℕ
  fileCount : ℕ
  deriving DecidableEq

/-- `foreign_object_error`. -/
def foreignObjectError : Error :=
  .new .backendError "object at key is not a gitility mirror bundle (missing or malformed metadata)"

/-- The fields of `validate_remote_metadata`. -/
def remoteMetadata (metadata : Metadata) : Option RemoteMetadata := do
  guard (metadata.lookup (Bytes.ascii "format") = some format)
  let generation ←
    canonicalInteger (metadata.lookup (Bytes.ascii "generation")) false maximumGeneration
  let tips ← metadata.lookup (Bytes.ascii "tips_digest")
  guard (lowercaseHex 64 tips)
  let refCount ← canonicalInteger (metadata.lookup (Bytes.ascii "ref_count")) true maximumCount
  let fileCount ← canonicalInteger (metadata.lookup (Bytes.ascii "file_count")) true maximumCount
  return ⟨generation, tips, refCount, fileCount⟩

/-- `validate_remote_metadata`. -/
def validateRemoteMetadata (metadata : Metadata) : Except Error RemoteMetadata :=
  match remoteMetadata metadata with
  | some remote => .ok remote
  | none => .error foreignObjectError

/-- Metadata is accepted exactly when it is the metadata of a mirrored bundle. -/
theorem validateRemoteMetadata_eq_ok {metadata : Metadata} {remote : RemoteMetadata} :
    validateRemoteMetadata metadata = .ok remote ↔ remoteMetadata metadata = some remote := by
  unfold validateRemoteMetadata
  split <;> simp [*]

private theorem canonicalInteger_le {value : Option Bytes} {allowZero : Bool} {maximum n : ℕ}
    (h : canonicalInteger value allowZero maximum = some n) : n ≤ maximum := by
  obtain ⟨value, -, h⟩ := Option.bind_eq_some_iff.mp h
  dsimp only at h
  split at h
  · rename_i hvalid
    cases h
    exact hvalid.2
  · cases h

/-- An accepted generation is in range. -/
theorem generation_le_of_remoteMetadata {metadata : Metadata} {remote : RemoteMetadata}
    (h : remoteMetadata metadata = some remote) : remote.generation ≤ maximumGeneration := by
  obtain ⟨⟨⟩, -, h⟩ := Option.bind_eq_some_iff.mp h
  obtain ⟨generation, hgeneration, h⟩ := Option.bind_eq_some_iff.mp h
  obtain ⟨tips, -, h⟩ := Option.bind_eq_some_iff.mp h
  obtain ⟨⟨⟩, -, h⟩ := Option.bind_eq_some_iff.mp h
  obtain ⟨refCount, -, h⟩ := Option.bind_eq_some_iff.mp h
  obtain ⟨fileCount, -, h⟩ := Option.bind_eq_some_iff.mp h
  cases h
  exact canonicalInteger_le hgeneration

/-- The map that `maybe_publish_bundle` stores. -/
def bundleMetadata (toc : Toc) (digest : Bytes) : Metadata :=
  [(Bytes.ascii "generation", decimal toc.generation), (Bytes.ascii "tips_digest", digest),
    (Bytes.ascii "format", format), (Bytes.ascii "ref_count", decimal toc.refs.length),
    (Bytes.ascii "file_count", decimal toc.files.length)]

/-! ### What is stored validates -/

private theorem decimal_digits {n : ℕ} (h : n ≠ 0) :
    ∃ digits : List ℕ, digits = Nat.digits 10 n ∧ (∀ digit ∈ digits, digit < 10) ∧
      decimal n = digits.reverse.map fun digit ↦ UInt8.ofNat (0x30 + digit) :=
  ⟨_, rfl, fun _ hdigit ↦ Nat.digits_lt_base (by decide) hdigit, by simp [decimal, h]⟩

private theorem toNat_digit {digit : ℕ} (h : digit < 10) : (UInt8.ofNat (0x30 + digit)).toNat = 0x30 + digit := by
  rw [UInt8.toNat_ofNat']
  omega

/-- A number is what its digits parse to. -/
theorem parseDecimal_decimal (n : ℕ) : parseDecimal (decimal n) = n := by
  by_cases h : n = 0
  · subst h
    rfl
  · obtain ⟨digits, hdigits, hlt, heq⟩ := decimal_digits h
    rw [heq, parseDecimal, List.foldl_map, List.foldl_reverse]
    have hfold : digits.foldr (fun digit value ↦ 10 * value + ((UInt8.ofNat (0x30 + digit)).toNat - 0x30))
        0 = Nat.ofDigits 10 digits := by
      clear hdigits heq
      induction digits with
      | nil => rfl
      | cons digit digits ih =>
        obtain ⟨hdigit, hlt⟩ := List.forall_mem_cons.mp hlt
        rw [List.foldr_cons, ih hlt, toNat_digit hdigit, Nat.ofDigits_cons]
        have := Nat.cast_id digit
        omega
    rw [hfold, hdigits, Nat.ofDigits_digits]

private theorem length_decimal_le {n m : ℕ} (h : n ≤ m) (hm : m ≠ 0) :
    (decimal n).length ≤ (decimal m).length := by
  have hlength {k : ℕ} (hk : k ≠ 0) : (decimal k).length = (Nat.digits 10 k).length := by
    simp [decimal, hk]
  by_cases hn : n = 0
  · subst hn
    rw [hlength hm]
    exact List.length_pos_iff.mpr (Nat.digits_ne_nil_iff_ne_zero.mpr hm)
  · rw [hlength hn, hlength hm]
    exact Nat.le_length_digits_le 10 n m h

private theorem isDigit_decimal {digit : ℕ} (h : digit < 10) :
    (0x30 : UInt8) ≤ UInt8.ofNat (0x30 + digit) ∧ UInt8.ofNat (0x30 + digit) ≤ 0x39 := by
  interval_cases digit <;> decide

private theorem canonicalPositiveDecimal_decimal {n : ℕ} (h : n ≠ 0) :
    canonicalPositiveDecimal (decimal n) = true := by
  obtain ⟨digits, hdigits, hlt, heq⟩ := decimal_digits h
  have hne : digits ≠ [] := by
    rw [hdigits]
    exact Nat.digits_ne_nil_iff_ne_zero.mpr h
  -- The leading digit is the last one that `Nat.digits` returns.
  have hlast : digits.getLast hne ≠ 0 := by
    subst hdigits
    exact Nat.getLast_digit_ne_zero 10 h
  obtain ⟨first, rest, hreverse⟩ : ∃ first rest, digits.reverse = first :: rest :=
    List.exists_cons_of_ne_nil (by simpa using hne)
  have hfirst : first = digits.getLast hne := by
    have := List.head_reverse (l := digits) (by simpa using hne)
    simpa [hreverse] using this
  have hmem (digit : ℕ) (hdigit : digit ∈ first :: rest) : digit < 10 := by
    rw [← hreverse] at hdigit
    exact hlt digit (List.mem_reverse.mp hdigit)
  rw [heq, hreverse, List.map_cons, canonicalPositiveDecimal]
  refine decide_eq_true ⟨?_, List.all_eq_true.mpr ?_⟩
  · have hpos : first ≠ 0 := by rwa [hfirst]
    have hbound := hmem first List.mem_cons_self
    interval_cases first
    · exact absurd rfl hpos
    all_goals decide
  · intro byte hbyte
    obtain ⟨digit, hdigit, rfl⟩ := List.mem_map.mp hbyte
    exact decide_eq_true (isDigit_decimal (hmem digit (List.mem_cons_of_mem _ hdigit)))

private theorem canonicalInteger_decimal {n maximum : ℕ} {allowZero : Bool} (h : n ≤ maximum)
    (hmaximum : maximum ≠ 0) (hzero : n = 0 → allowZero = true) :
    canonicalInteger (some (decimal n)) allowZero maximum = some n := by
  have hvalid : allowZero = true ∧ decimal n = Bytes.ascii "0" ∨
      canonicalPositiveDecimal (decimal n) = true := by
    by_cases hn : n = 0
    · subst hn
      exact .inl ⟨hzero rfl, by decide⟩
    · exact .inr (canonicalPositiveDecimal_decimal hn)
  have hlength := length_decimal_le h hmaximum
  have hparse := parseDecimal_decimal n
  simp only [canonicalInteger, Option.bind_eq_bind, Option.bind_some, hparse]
  exact if_pos ⟨⟨hlength, hvalid⟩, h⟩

private theorem isLowerHex_hexByte {nibble : ℕ} (h : nibble < 16) : isLowerHex (hexByte nibble) = true := by
  interval_cases nibble <;> decide

private theorem length_encode16 (bytes : Bytes) : (encode16 bytes).length = 2 * bytes.length := by
  simp [encode16, List.length_flatMap, Nat.mul_comm]

private theorem lowercaseHex_encode16 {bytes : Bytes} {n : ℕ} (h : bytes.length = n) :
    lowercaseHex (2 * n) (encode16 bytes) = true := by
  have hlower : ∀ byte ∈ encode16 bytes, isLowerHex byte = true := by
    intro byte hbyte
    obtain ⟨source, -, hmem⟩ := List.mem_flatMap.mp hbyte
    simp only [List.mem_cons, List.not_mem_nil, or_false] at hmem
    have hsource := source.toNat_lt
    rcases hmem with rfl | rfl
    · exact isLowerHex_hexByte (by omega)
    · exact isLowerHex_hexByte (by omega)
  simp only [lowercaseHex, decide_eq_true_eq]
  exact ⟨by rw [length_encode16, h], List.all_eq_true.mpr hlower⟩

/-- The counts and the generation of a parsed bundle fit the metadata. -/
theorem bounds_of_parse {sha256 : Bytes → Bytes} {file : Bytes} {toc : Toc}
    (h : parse sha256 file = .ok toc) :
    (1 ≤ toc.generation ∧ toc.generation ≤ maximumGeneration) ∧
      toc.refs.length ≤ maximumCount ∧ toc.files.length ≤ maximumCount := by
  obtain ⟨c, ⟨hvalid, -, -⟩, rfl⟩ := parse_eq_ok.mp h
  obtain ⟨hmin, hmax⟩ := hvalid.content.generation
  obtain ⟨-, hfiles, hrefs⟩ := hvalid.content.counts
  have hfilter := List.length_filter_le (fun entry : FileEntry ↦ entry.kind.isKnown) c.files
  simp only [Contents.parsed, maximumGeneration, maximumCount]
  refine ⟨⟨hmin, ?_⟩, ?_, ?_⟩
  · omega
  · omega
  · omega

/-- What `publish` stores with a bundle validates to the bundle's generation, digest and counts. -/
theorem remoteMetadata_bundleMetadata {sha256 : Bytes → Bytes} {file : Bytes} {toc : Toc}
    (hsha : ∀ bytes, (sha256 bytes).length = 32) (h : parse sha256 file = .ok toc) :
    remoteMetadata (bundleMetadata toc (tocDigest sha256 toc)) =
      some ⟨toc.generation, tocDigest sha256 toc, toc.refs.length, toc.files.length⟩ := by
  obtain ⟨⟨hmin, hmax⟩, hrefs, hfiles⟩ := bounds_of_parse h
  have hgeneration := @canonicalInteger_decimal _ _ false hmax (by decide) (by omega)
  have hrefCount := @canonicalInteger_decimal _ _ true hrefs (by decide) (fun _ ↦ rfl)
  have hfileCount := @canonicalInteger_decimal _ _ true hfiles (by decide) (fun _ ↦ rfl)
  have hdigest : lowercaseHex 64 (tocDigest sha256 toc) = true := lowercaseHex_encode16 (hsha _)
  have hlookup : ((bundleMetadata toc (tocDigest sha256 toc)).lookup (Bytes.ascii "format") = some format ∧
      (bundleMetadata toc (tocDigest sha256 toc)).lookup (Bytes.ascii "generation") =
        some (decimal toc.generation) ∧
      (bundleMetadata toc (tocDigest sha256 toc)).lookup (Bytes.ascii "tips_digest") =
        some (tocDigest sha256 toc) ∧
      (bundleMetadata toc (tocDigest sha256 toc)).lookup (Bytes.ascii "ref_count") =
        some (decimal toc.refs.length) ∧
      (bundleMetadata toc (tocDigest sha256 toc)).lookup (Bytes.ascii "file_count") =
        some (decimal toc.files.length)) := ⟨rfl, rfl, rfl, rfl, rfl⟩
  obtain ⟨h₁, h₂, h₃, h₄, h₅⟩ := hlookup
  simp only [remoteMetadata, h₁, h₂, h₃, h₄, h₅, hgeneration, hrefCount, hfileCount]
  simp [hdigest]

private theorem printableAscii_decimal (n : ℕ) : printableAscii (decimal n) = true := by
  refine List.all_eq_true.mpr fun byte hbyte ↦ decide_eq_true ?_
  by_cases h : n = 0
  · subst h
    obtain rfl := List.mem_singleton.mp hbyte
    decide
  · obtain ⟨digits, -, hlt, heq⟩ := decimal_digits h
    rw [heq] at hbyte
    obtain ⟨digit, hdigit, rfl⟩ := List.mem_map.mp hbyte
    obtain ⟨hlow, hhigh⟩ := isDigit_decimal (hlt digit (List.mem_reverse.mp hdigit))
    exact ⟨UInt8.le_trans (show (0x20 : UInt8) ≤ 0x30 by decide) hlow,
      UInt8.le_trans hhigh (show (0x39 : UInt8) ≤ 0x7E by decide)⟩

private theorem printableAscii_encode16 (bytes : Bytes) : printableAscii (encode16 bytes) = true := by
  refine List.all_eq_true.mpr fun byte hbyte ↦ decide_eq_true ?_
  have hhex {nibble : ℕ} (h : nibble < 16) : 0x20 ≤ hexByte nibble ∧ hexByte nibble ≤ 0x7E := by
    interval_cases nibble <;> decide
  obtain ⟨source, -, hmem⟩ := List.mem_flatMap.mp hbyte
  have hsource := source.toNat_lt
  simp only [List.mem_cons, List.not_mem_nil, or_false] at hmem
  rcases hmem with rfl | rfl
  · exact hhex (by omega)
  · exact hhex (by omega)

/-- What `publish` stores with a bundle is valid metadata. -/
theorem validateMetadata_bundleMetadata {sha256 : Bytes → Bytes} {file : Bytes} {toc : Toc}
    (hsha : ∀ bytes, (sha256 bytes).length = 32) (h : parse sha256 file = .ok toc) :
    validateMetadata (bundleMetadata toc (tocDigest sha256 toc)) = .ok () := by
  obtain ⟨⟨-, hmax⟩, hrefs, hfiles⟩ := bounds_of_parse h
  have hdigits : (decimal maximumGeneration).length = 20 := by norm_num [decimal, maximumGeneration]
  have hcount : maximumCount ≤ maximumGeneration := by decide
  have hshort {n : ℕ} (hn : n ≤ maximumGeneration) : (decimal n).length ≤ 20 :=
    hdigits ▸ length_decimal_le hn (by decide)
  have hgeneration := hshort hmax
  have hrefCount := hshort (hrefs.trans hcount)
  have hfileCount := hshort (hfiles.trans hcount)
  have hdigest : (tocDigest sha256 toc).length = 64 := by
    rw [tocDigest, tipsDigest, length_encode16, hsha]
  have hkeys : validMetadataKey (Bytes.ascii "generation") = true ∧
      validMetadataKey (Bytes.ascii "tips_digest") = true ∧ validMetadataKey (Bytes.ascii "format") = true ∧
      validMetadataKey (Bytes.ascii "ref_count") = true ∧
      validMetadataKey (Bytes.ascii "file_count") = true := by decide +kernel
  obtain ⟨h₁, h₂, h₃, h₄, h₅⟩ := hkeys
  refine ensure_eq_ok.mpr ⟨by simp [bundleMetadata], ?_, ?_⟩
  · intro entry hentry
    simp only [bundleMetadata, List.mem_cons, List.not_mem_nil, or_false] at hentry
    rcases hentry with rfl | rfl | rfl | rfl | rfl
    · exact ⟨h₁, hgeneration.trans (by decide), printableAscii_decimal _⟩
    · exact ⟨h₂, hdigest.trans_le (by decide), printableAscii_encode16 _⟩
    · exact ⟨h₃, by decide +kernel, by decide +kernel⟩
    · exact ⟨h₄, hrefCount.trans (by decide), printableAscii_decimal _⟩
    · exact ⟨h₅, hfileCount.trans (by decide), printableAscii_decimal _⟩
  · have hkeys : (Bytes.ascii "generation").length = 10 ∧ (Bytes.ascii "tips_digest").length = 11 ∧
        (Bytes.ascii "format").length = 6 ∧ (Bytes.ascii "ref_count").length = 9 ∧
        (Bytes.ascii "file_count").length = 10 ∧ format.length = 19 := by decide +kernel
    simp only [bundleMetadata, List.map_cons, List.map_nil, List.sum_cons, List.sum_nil, hkeys, hdigest]
    omega

end Gitility.Mirror
