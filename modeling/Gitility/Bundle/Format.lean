import Mathlib.Data.List.Sort
import Gitility.Base.Object

/-!
# Bundle format v1

`lib/gitility/bundle/format.ex`: the encoder and the strict positional parser. A bundle file is the
list of its bytes and the I/O errors of the source are left out. The bundle errors keep their code
and message.
-/

namespace Gitility.Bundle

/-- `String.valid?`. -/
def validUtf8 (bytes : Bytes) : Bool := ByteArray.validateUTF8 ⟨bytes.toArray⟩

/-- A byte string inside a message. -/
def text (bytes : Bytes) : String := (String.fromUTF8? ⟨bytes.toArray⟩).getD ""

/-- The `malformed` of `format.ex`. -/
def malformed (message : String) : Error := .new .malformedObject message

/-- `@magic`. -/
def magic : Bytes := Bytes.ascii "GITBNDL" ++ [0]

/-- `@header_size`. -/
def headerSize : ℕ := 16

/-- `@trailer_size`. -/
def trailerSize : ℕ := 64

/-- `@minimum_size`. -/
def minimumSize : ℕ := headerSize + trailerSize

/-- `@max_toc_len`. -/
def maxTocLen : ℕ := 64 * 1024 * 1024

/-- `file_kind`. The codes of the two known kinds are not unknown. -/
inductive FileKind where
  | pack
  | idx
  | unknown (code : UInt8) (h : code ≠ 1 ∧ code ≠ 2)
  deriving DecidableEq

/-- `encode_file_kind`. -/
def FileKind.encode : FileKind → UInt8
  | .pack => 1
  | .idx => 2
  | .unknown code _ => code

/-- `decode_file_kind`. -/
def FileKind.decode (code : UInt8) : FileKind :=
  if h₁ : code = 1 then .pack
  else if h₂ : code = 2 then .idx
  else .unknown code ⟨h₁, h₂⟩

/-- The filter of `parse_toc`. -/
def FileKind.isKnown : FileKind → Bool
  | .pack | .idx => true
  | .unknown .. => false

/-- `file_entry`. -/
structure FileEntry where
  kind : FileKind
  name : Bytes
  offset : ℕ
  length : ℕ
  sha256 : Bytes
  deriving DecidableEq

/-- `ref_entry`. -/
structure RefEntry where
  name : Bytes
  target : Bytes
  kind : ObjectKind
  peeled : Option Bytes
  deriving DecidableEq

/-- `encode_hash`. -/
def encodeHash : HashKind → UInt8
  | .sha1 => 1
  | .sha256 => 2

/-- `encode_ref_kind`. -/
def encodeRefKind : ObjectKind → UInt8
  | .commit => 1
  | .tag => 2
  | .tree => 3
  | .blob => 4

/-- `length_prefixed`. -/
def lengthPrefixed (bytes : Bytes) : Bytes := Bytes.toLe 4 bytes.length ++ bytes

/-- `encode_file`. -/
def encodeFile (entry : FileEntry) : Bytes :=
  entry.kind.encode :: (lengthPrefixed entry.name ++ Bytes.toLe 8 entry.offset ++
    Bytes.toLe 8 entry.length ++ entry.sha256)

/-- `encode_ref`. -/
def encodeRef (ref : RefEntry) : Bytes :=
  lengthPrefixed ref.name ++ ref.target ++ encodeRefKind ref.kind ::
    match ref.peeled with
    | some peeled => 1 :: peeled
    | none => [0]

/-- One row of the metadata. -/
def encodeMetadata (entry : Bytes × Bytes) : Bytes :=
  lengthPrefixed entry.1 ++ lengthPrefixed entry.2

/-- What `encode_toc` is given. The metadata map is any list of its entries. -/
structure TocContent where
  hashAlgorithm : HashKind
  generation : ℕ
  metadata : List (Bytes × Bytes)
  files : List FileEntry
  refs : List RefEntry

/-- `encode_toc` after its two sorts. -/
def encodeSorted (content : TocContent) : Bytes :=
  encodeHash content.hashAlgorithm :: (Bytes.toLe 8 content.generation ++
    Bytes.toLe 4 content.metadata.length ++ content.metadata.flatMap encodeMetadata ++
    Bytes.toLe 4 content.files.length ++ content.files.flatMap encodeFile ++
    Bytes.toLe 4 content.refs.length ++ content.refs.flatMap encodeRef)

/-- `encode_toc`. -/
def encodeToc (content : TocContent) : Bytes :=
  encodeSorted { content with
    metadata := content.metadata.mergeSort fun a b ↦ a.1 ≤ b.1
    refs := content.refs.mergeSort fun a b ↦ a.name ≤ b.name }

/-- `encode_header`. -/
def encodeHeader : Bytes := magic ++ Bytes.toLe 2 1 ++ Bytes.toLe 2 0 ++ Bytes.toLe 4 0

/-- `encode_trailer`. -/
def encodeTrailer (tocOffset tocLen : ℕ) (tocSha256 : Bytes) : Bytes :=
  Bytes.toLe 8 tocOffset ++ Bytes.toLe 8 tocLen ++ tocSha256 ++ Bytes.toLe 8 0 ++ magic

/-- `toc`. The metadata map is the list of its entries in the order of their keys. -/
structure Toc where
  formatMajor : ℕ
  formatMinor : ℕ
  hashAlgorithm : HashKind
  generation : ℕ
  metadata : List (Bytes × Bytes)
  files : List FileEntry
  sections : List FileEntry
  refs : List RefEntry
  tocOffset : ℕ
  tocLen : ℕ
  tocSha256 : Bytes
  fileSize : ℕ
  deriving DecidableEq

/-! ### Fields -/

/-- `take_u8`. -/
def takeU8 (label : String) : Bytes → Except Error (UInt8 × Bytes)
  | value :: rest => .ok (value, rest)
  | [] => .error (malformed s!"TOC ended while reading {label}")

/-- A little-endian field of the table of contents. -/
def takeLe (width : ℕ) (label : String) (bytes : Bytes) : Except Error (ℕ × Bytes) :=
  if width ≤ bytes.length then .ok (Bytes.ofLe (bytes.take width), bytes.drop width)
  else .error (malformed s!"TOC ended while reading {label}")

/-- `take_u32`. -/
def takeU32 : String → Bytes → Except Error (ℕ × Bytes) := takeLe 4

/-- `take_u64`. -/
def takeU64 : String → Bytes → Except Error (ℕ × Bytes) := takeLe 8

/-- `take_bytes`. -/
def takeBytes (length : ℕ) (label : String) (bytes : Bytes) : Except Error (Bytes × Bytes) :=
  if length ≤ bytes.length then .ok (bytes.take length, bytes.drop length)
  else .error (malformed s!"TOC length prefix overruns while reading {label}")

/-- `take_length_prefixed`. -/
def takeLengthPrefixed (minimum maximum : ℕ) (label : String) (bytes : Bytes) :
    Except Error (Bytes × Bytes) := do
  let (length, rest) ← takeU32 s!"{label} length" bytes
  ensure (minimum ≤ length) (malformed s!"{label} is shorter than {minimum} bytes")
  ensure (length ≤ maximum) (malformed s!"{label} exceeds {maximum} bytes")
  takeBytes length label rest

/-- `decode_hash`. -/
def decodeHash (code : UInt8) : Except Error HashKind :=
  if code = 1 then .ok .sha1
  else if code = 2 then .ok .sha256
  else .error (malformed s!"unknown bundle hash algorithm {code}")

/-- `decode_ref_kind`. -/
def decodeRefKind (code : UInt8) : Except Error ObjectKind :=
  if code = 1 then .ok .commit
  else if code = 2 then .ok .tag
  else if code = 3 then .ok .tree
  else if code = 4 then .ok .blob
  else .error (malformed s!"unknown ref kind {code}")

/-! ### Rows -/

/-- `do_parse_metadata`. -/
def doParseMetadata : ℕ → Bytes → Option Bytes → List (Bytes × Bytes) →
    Except Error (List (Bytes × Bytes) × Bytes)
  | 0, bytes, _, entries => .ok (entries.reverse, bytes)
  | count + 1, bytes, previous, entries => do
    let (key, rest) ← takeLengthPrefixed 1 4096 "metadata key" bytes
    ensure (validUtf8 key) (malformed "metadata key is not UTF-8")
    ensure (∀ earlier ∈ previous, earlier < key)
      (malformed "metadata keys are not strictly sorted and unique")
    let (value, rest) ← takeLengthPrefixed 0 65536 "metadata value" rest
    ensure (validUtf8 value) (malformed "metadata value is not UTF-8")
    doParseMetadata count rest (some key) ((key, value) :: entries)

/-- `parse_metadata`. -/
def parseMetadata (count : ℕ) (bytes : Bytes) : Except Error (List (Bytes × Bytes) × Bytes) := do
  ensure (count ≤ bytes.length / 9) (malformed "metadata count exceeds the remaining TOC bytes")
  doParseMetadata count bytes none []

/-- `validate_metadata`. -/
def validateMetadata (metadata : List (Bytes × Bytes)) : Except Error Unit := do
  ensure (∀ entry ∈ metadata, entry.1 ≠ Bytes.ascii "shallow_roots")
    (.new .unsupportedOperation
      "bundle metadata key shallow_roots is reserved and unsupported by format v1")
  ensure (∃ entry ∈ metadata, entry.1 = Bytes.ascii "source_identity")
    (malformed "required metadata key source_identity is missing")

/-- `do_parse_files`. -/
def doParseFiles : ℕ → Bytes → List Bytes → List FileEntry → Except Error (List FileEntry × Bytes)
  | 0, bytes, _, entries => .ok (entries.reverse, bytes)
  | count + 1, bytes, names, entries => do
    let (kindCode, rest) ← takeU8 "file kind" bytes
    let (name, rest) ← takeLengthPrefixed 1 4096 "file name" rest
    ensure (validUtf8 name) (malformed "file name is not UTF-8")
    ensure (name ∉ names) (malformed s!"file names are not unique: {text name}")
    let (offset, rest) ← takeU64 "file offset" rest
    let (length, rest) ← takeU64 "file length" rest
    ensure (1 ≤ length) (malformed s!"file section {text name} has zero length")
    let (sha256, rest) ← takeBytes 32 "file sha256" rest
    doParseFiles count rest (name :: names)
      (⟨.decode kindCode, name, offset, length, sha256⟩ :: entries)

/-- `parse_files`. -/
def parseFiles (count : ℕ) (bytes : Bytes) : Except Error (List FileEntry × Bytes) := do
  ensure (count ≤ bytes.length / 54) (malformed "file count exceeds the remaining TOC bytes")
  doParseFiles count bytes [] []

/-- `take_peeled`. -/
def takePeeled (flag : UInt8) (bytes : Bytes) (oidSize : ℕ) : Except Error (Option Bytes × Bytes) :=
  if flag = 0 then .ok (none, bytes)
  else if flag = 1 then do
    let (peeled, rest) ← takeBytes oidSize "peeled ref target" bytes
    return (some peeled, rest)
  else .error (malformed s!"unknown ref peeled flag {flag}")

/-- `do_parse_refs`. -/
def doParseRefs (hash : HashKind) : ℕ → Bytes → Option Bytes → List RefEntry →
    Except Error (List RefEntry × Bytes)
  | 0, bytes, _, refs => .ok (refs.reverse, bytes)
  | count + 1, bytes, previous, refs => do
    let (name, rest) ← takeLengthPrefixed 1 4096 "ref name" bytes
    ensure (∀ earlier ∈ previous, earlier < name)
      (malformed "ref names are not strictly sorted and unique")
    let (target, rest) ← takeBytes hash.digestLen "ref target" rest
    let (kindCode, rest) ← takeU8 "ref kind" rest
    let kind ← decodeRefKind kindCode
    let (peeledFlag, rest) ← takeU8 "ref peeled flag" rest
    let (peeled, rest) ← takePeeled peeledFlag rest hash.digestLen
    doParseRefs hash count rest (some name) (⟨name, target, kind, peeled⟩ :: refs)

/-- `parse_refs`. -/
def parseRefs (hash : HashKind) (count : ℕ) (bytes : Bytes) :
    Except Error (List RefEntry × Bytes) := do
  ensure (count ≤ bytes.length / (4 + 1 + hash.digestLen + 1 + 1))
    (malformed "ref count exceeds the remaining TOC bytes")
  doParseRefs hash count bytes none []

/-! ### Sections -/

/-- The fold of `validate_tiling`. -/
def tile : ℕ → List FileEntry → Except Error ℕ
  | expected, [] => .ok expected
  | expected, entry :: sections => do
    ensure (entry.offset = expected)
      (malformed s!"file section {text entry.name} starts at {entry.offset}, expected {expected}")
    tile (expected + entry.length) sections

/-- `validate_tiling`. -/
def validateTiling (sections : List FileEntry) (tocOffset : ℕ) : Except Error Unit := do
  let endOffset ← tile headerSize sections
  ensure (endOffset = tocOffset)
    (malformed s!"file sections end at {endOffset}, expected {tocOffset}")

/-- The class `[0-9a-f]`. -/
def isLowerHex (byte : UInt8) : Bool := 0x30 ≤ byte ∧ byte ≤ 0x39 ∨ 0x61 ≤ byte ∧ byte ≤ 0x66

/-- How many hexadecimal digits a digest has. -/
def hexLength (hash : HashKind) : ℕ := 2 * hash.digestLen

/-- `pack_stem`. -/
def packStem (name extension : Bytes) (hash : HashKind) : Option Bytes :=
  let stem := name.take (5 + hexLength hash)
  if stem.take 5 = Bytes.ascii "pack-" ∧ (stem.drop 5).length = hexLength hash ∧
      (stem.drop 5).all isLowerHex ∧ name.drop (5 + hexLength hash) = extension then some stem
  else none

/-- `validate_pairs`. -/
def validatePairs (hash : HashKind) : List FileEntry → Except Error Unit
  | [] => .ok ()
  | [entry] => .error (unpaired entry)
  | pack :: index :: rest =>
    if pack.kind = .pack ∧ index.kind = .idx then
      match packStem pack.name (Bytes.ascii ".pack") hash, packStem index.name (Bytes.ascii ".idx") hash with
      | some stem, some stem' =>
        if stem' = stem then validatePairs hash rest else .error (mismatch pack index)
      | _, _ => .error (mismatch pack index)
    else .error (unpaired pack)
where
  /-- The error of a pair whose names do not match. -/
  mismatch (pack index : FileEntry) : Error :=
    malformed s!"pack/index pair {text pack.name} and {text index.name} does not share a valid stem"
  /-- The error of an entry without a partner. -/
  unpaired (entry : FileEntry) : Error :=
    match entry.kind with
    | .pack => malformed s!"pack file {text entry.name} is missing its adjacent idx partner"
    | .idx => malformed s!"idx file {text entry.name} is not preceded by its pack partner"
    | .unknown .. => malformed "bundle parser crashed safely"

/-- `parse_toc`, with the tail that the source drops. -/
def parseToc (bytes : Bytes) (tocOffset : ℕ) : Except Error (TocContent × Bytes) := do
  let (hashCode, rest) ← takeU8 "hash algorithm" bytes
  let hashAlgorithm ← decodeHash hashCode
  let (generation, rest) ← takeU64 "generation" rest
  ensure (1 ≤ generation) (malformed "bundle generation must be at least 1")
  let (metadataCount, rest) ← takeU32 "metadata count" rest
  let (metadata, rest) ← parseMetadata metadataCount rest
  validateMetadata metadata
  let (fileCount, rest) ← takeU32 "file count" rest
  let (sections, rest) ← parseFiles fileCount rest
  validateTiling sections tocOffset
  validatePairs hashAlgorithm (sections.filter (·.kind.isKnown))
  let (refCount, rest) ← takeU32 "ref count" rest
  let (refs, minorTail) ← parseRefs hashAlgorithm refCount rest
  return (⟨hashAlgorithm, generation, metadata, sections, refs⟩, minorTail)

/-! ### Files -/

/-- `decode_header`. -/
def decodeHeader (bytes : Bytes) : Except Error (ℕ × ℕ) := do
  ensure (8 ≤ bytes.length ∧ bytes.take 8 = magic) (.new .invalidArgument "not a gitility bundle")
  ensure (bytes.length = headerSize) (malformed "bundle header is truncated")
  let major := Bytes.ofLe ((bytes.drop 8).take 2)
  let minor := Bytes.ofLe ((bytes.drop 10).take 2)
  let reserved := Bytes.ofLe ((bytes.drop 12).take 4)
  ensure (major ≤ 1)
    (.new .unsupportedOperation s!"bundle format major {major} is newer than reader major 1")
  ensure (major = 1) (malformed s!"bundle format major {major} is not version 1")
  ensure (reserved = 0) (malformed "bundle header reserved bytes are not zero")
  return (major, minor)

/-- `decode_trailer`. -/
def decodeTrailer (bytes : Bytes) (size : ℕ) : Except Error (ℕ × ℕ × Bytes) := do
  ensure (bytes.length = trailerSize) (malformed "bundle trailer is truncated")
  let tocOffset := Bytes.ofLe (bytes.take 8)
  let tocLen := Bytes.ofLe ((bytes.drop 8).take 8)
  let tocSha256 := (bytes.drop 16).take 32
  let reserved := Bytes.ofLe ((bytes.drop 48).take 8)
  ensure (bytes.drop 56 = magic) (malformed "bundle trailer magic is invalid")
  ensure (reserved = 0) (malformed "bundle trailer reserved bytes are not zero")
  ensure (headerSize ≤ tocOffset) (malformed "bundle TOC offset is before the section region")
  ensure (tocOffset + tocLen + trailerSize = size)
    (malformed "bundle trailer bounds do not end exactly at EOF")
  return (tocOffset, tocLen, tocSha256)

/-- `pread_exact`. -/
def preadExact (file : Bytes) (offset length : ℕ) (label : String) : Except Error Bytes :=
  let bytes := (file.drop offset).take length
  if length = 0 then .ok []
  else if bytes.length = length then .ok bytes
  else if bytes.isEmpty then .error (malformed s!"unexpected EOF while reading {label}")
  else .error (malformed s!"short read while reading {label}")

/-- `parse`, of the bytes of a file. -/
def parse (sha256 : Bytes → Bytes) (file : Bytes) : Except Error Toc := do
  let size := file.length
  let (major, minor) ← decodeHeader (file.take (min size headerSize))
  ensure (minimumSize ≤ size) (malformed "bundle is smaller than 80 bytes")
  let trailer ← preadExact file (size - trailerSize) trailerSize "trailer"
  let (tocOffset, tocLen, tocSha256) ← decodeTrailer trailer size
  ensure (tocLen ≤ maxTocLen) (malformed "TOC length exceeds the 64 MiB sanity ceiling")
  let tocBytes ← preadExact file tocOffset tocLen "table of contents"
  ensure (sha256 tocBytes = tocSha256) (malformed "TOC sha256 does not match the trailer")
  let (content, _) ← parseToc tocBytes tocOffset
  return {
    formatMajor := major
    formatMinor := minor
    hashAlgorithm := content.hashAlgorithm
    generation := content.generation
    metadata := content.metadata
    files := content.files.filter (·.kind.isKnown)
    sections := content.files
    refs := content.refs
    tocOffset
    tocLen
    tocSha256
    fileSize := size }

end Gitility.Bundle
