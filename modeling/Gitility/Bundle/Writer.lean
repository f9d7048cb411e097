import Gitility.Bundle.Snapshot

/-!
# Writing a bundle

`lib/gitility/bundle/writer.ex`, the inventory of `lib/gitility/odb/pack_inventory.ex` and the
metadata and verification of `lib/gitility/bundle.ex`. The temporary file is the list of the bytes
written to it.
-/

namespace Gitility.Bundle

/-! ### The inventory -/

/-- A source file under its base name. -/
structure Artifact where
  name : Bytes
  content : Bytes
  deriving DecidableEq

/-- `Path.rootname`. -/
def rootname (name : Bytes) : Bytes :=
  match name.reverse.dropWhile (· ≠ 0x2E) with
  | [] => name
  | _ :: stem => stem.reverse

/-- The wildcard `pack-*.pack`. -/
def isPackName (name : Bytes) : Bool :=
  (Bytes.ascii "pack-").isPrefixOf name ∧ (Bytes.ascii ".pack").isSuffixOf name ∧ 10 ≤ name.length

/-- The packs of a directory in the order of their names. -/
def packs (directory : List Artifact) : List Artifact :=
  (directory.filter (isPackName ·.name)).mergeSort fun a b ↦ a.name ≤ b.name

/-- The index beside a pack. -/
def indexOf (directory : List Artifact) (pack : Artifact) : Option Artifact :=
  directory.find? (·.name = rootname pack.name ++ Bytes.ascii ".idx")

/-- `packed_pairs`, of one object directory. -/
def packedPairs (directory : List Artifact) : List (Artifact × Artifact) :=
  (packs directory).filterMap fun pack ↦ (indexOf directory pack).map (pack, ·)

/-- `write_error`. -/
def writeError : Error := .new .backendError "bundle publication failed"

/-- `pack_loose_objects`, of the directory that `git pack-objects` wrote. -/
def packLooseObjects (staged : List Artifact) : Except Error (List (Artifact × Artifact)) :=
  match (packs staged).mapM fun pack ↦ (indexOf staged pack).map (pack, ·) with
  | none | some [] => .error writeError
  | some pairs => .ok pairs

/-- `maybe_pack_loose`. -/
def maybePackLoose : Option (List Artifact) → Except Error (List (Artifact × Artifact))
  | none => .ok []
  | some staged => packLooseObjects staged

/-- `collect`, of the object directories and of the packed loose objects, if there are any. -/
def collect (directories : List (List Artifact)) (loose : Option (List Artifact)) :
    Except Error (List (Artifact × Artifact)) := do
  let pairs := directories.flatMap packedPairs
  let loosePairs ← maybePackLoose loose
  return (uniqBy (·.1.name) [] (pairs ++ loosePairs)).mergeSort fun a b ↦ a.1.name ≤ b.1.name

/-- The pattern of `validate_inventory`. -/
def isPackStem (hash : HashKind) (stem : Bytes) : Bool :=
  stem.take 5 = Bytes.ascii "pack-" ∧ (stem.drop 5).length = hexLength hash ∧
    (stem.drop 5).all isLowerHex

/-- `validate_inventory`. -/
def validateInventory (pairs : List (Artifact × Artifact)) (hash : HashKind) : Except Error Unit :=
  ensure (∀ pair ∈ pairs, rootname pair.1.name = rootname pair.2.name ∧
    isPackStem hash (rootname pair.1.name)) writeError

/-! ### The metadata -/

/-- The options of `write` that the bundle depends on. -/
structure WriteOptions where
  sourceIdentity : Option Bytes := none
  publisher : Option Bytes := none
  createdAt : Option Bytes := none
  strictRefs : Bool := false

/-- The map of `metadata` before it is checked. -/
def metadataEntries (source : Bytes) (opts : WriteOptions) : List (Bytes × Bytes) :=
  (Bytes.ascii "source_identity", opts.sourceIdentity.getD (Bytes.ascii "repository:" ++ source)) ::
    (opts.publisher.map fun value ↦ (Bytes.ascii "publisher", value)).toList ++
    (opts.createdAt.map fun value ↦ (Bytes.ascii "created_at", value)).toList

/-- `metadata`. `timestamp` is the acceptance set of `DateTime.from_iso8601`. -/
def metadata (timestamp : Bytes → Bool) (source : Bytes) (opts : WriteOptions) :
    Except Error (List (Bytes × Bytes)) := do
  ensure (∀ value ∈ opts.createdAt, timestamp value)
    (.new .invalidArgument ":created_at must be an RFC3339 timestamp")
  ensure (∀ entry ∈ metadataEntries source opts, validUtf8 entry.2 ∧ 1 ≤ entry.1.length ∧
      entry.1.length ≤ 4096 ∧ entry.2.length ≤ 65536)
    (.new .invalidArgument "bundle metadata must be valid UTF-8 within format ceilings")
  return metadataEntries source opts

/-- `Map.merge`. -/
def merge (map other : List (Bytes × Bytes)) : List (Bytes × Bytes) :=
  map.filter (fun entry ↦ entry.1 ∉ other.map Prod.fst) ++ other

/-! ### The writer -/

namespace Writer

/-- `IO.binwrite`. A file ends before offset `2 ^ 63`. -/
def binwrite (output bytes : Bytes) : Except Error Bytes :=
  if output.length + bytes.length < 2 ^ 63 then .ok (output ++ bytes) else .error writeError

variable (sha256 : Bytes → Bytes)

/-- `stream_section`. -/
def streamSection (artifact : Artifact) (kind : FileKind) (output : Bytes) (offset : ℕ) :
    Except Error (FileEntry × Bytes × ℕ) := do
  let output ← binwrite output artifact.content
  ensure (0 < artifact.content.length) writeError
  return (⟨kind, artifact.name, offset, artifact.content.length, sha256 artifact.content⟩, output,
    offset + artifact.content.length)

/-- `stream_pairs`. -/
def streamPairs : List (Artifact × Artifact) → Bytes → ℕ → List FileEntry →
    Except Error (List FileEntry × Bytes × ℕ)
  | [], output, offset, files => .ok (files.reverse, output, offset)
  | (pack, index) :: rest, output, offset, files => do
    let (packEntry, output, offset) ← streamSection sha256 pack .pack output offset
    let (indexEntry, output, offset) ← streamSection sha256 index .idx output offset
    streamPairs rest output offset (indexEntry :: packEntry :: files)

/-- What the writer is given. The metadata map is any list of its entries. -/
structure Input where
  pairs : List (Artifact × Artifact)
  hashAlgorithm : HashKind
  generation : ℕ
  metadata : List (Bytes × Bytes)
  refs : List RefEntry
  warnings : List Warning

/-- `receipt.ex` `Receipt`. -/
structure Receipt where
  generation : ℕ
  bytes : ℕ
  files : ℕ
  refs : ℕ
  warnings : List Warning
  deriving DecidableEq

/-- `sort_pairs`. -/
def sortPairs (pairs : List (Artifact × Artifact)) : List (Artifact × Artifact) :=
  pairs.mergeSort fun a b ↦ a.1.name ≤ b.1.name

/-- `write`: the receipt and the bytes of the published file. -/
def write (input : Input) : Except Error (Receipt × Bytes) := do
  let output ← binwrite [] encodeHeader
  let (files, output, tocOffset) ← streamPairs sha256 (sortPairs input.pairs) output 16 []
  let toc := encodeToc ⟨input.hashAlgorithm, input.generation, input.metadata, files, input.refs⟩
  ensure (toc.length ≤ maxTocLen)
    (.new .unsupportedOperation "bundle table of contents exceeds the v1 format ceiling")
  let output ← binwrite output toc
  let output ← binwrite output (encodeTrailer tocOffset toc.length (sha256 toc))
  return (⟨input.generation, tocOffset + toc.length + 64, files.length, input.refs.length,
    input.warnings⟩, output)

end Writer

/-! ### Verification -/

/-- `@copy_chunk_bytes`. -/
def copyChunkBytes : ℕ := 8 * 1024 * 1024

/-- `read_trailer_identity`. -/
def readTrailerIdentity (file : Bytes) : Except Error Bytes := do
  ensure (minimumSize ≤ file.length) (malformed "bundle is smaller than 80 bytes")
  let trailer ← preadExact file (file.length - trailerSize) trailerSize "trailer"
  let (_, _, tocSha256) ← decodeTrailer trailer file.length
  return tocSha256

/-- `hash_section`. The read that falls short meets the end of the file at a chunk boundary or
inside a chunk. -/
def hashSection (sha256 : Bytes → Bytes) (file : Bytes) (entry : FileEntry) : Except Error Bytes :=
  let bytes := (file.drop entry.offset).take entry.length
  if bytes.length = entry.length then .ok (sha256 bytes)
  else if bytes.length % copyChunkBytes = 0 then
    .error (malformed s!"unexpected EOF while verifying {text entry.name}")
  else .error (malformed s!"short read while verifying {text entry.name}")

/-- `verify_sections`. -/
def verifySections (sha256 : Bytes → Bytes) (file : Bytes) : List FileEntry → Except Error Unit
  | [] => .ok ()
  | entry :: rest => do
    let digest ← hashSection sha256 file entry
    ensure (digest = entry.sha256) (malformed s!"section sha256 mismatch for {text entry.name}")
    verifySections sha256 file rest

/-- `verify`. -/
def verify (sha256 : Bytes → Bytes) (file : Bytes) : Except Error Unit := do
  let toc ← parse sha256 file
  let tocSha256 ← readTrailerIdentity file
  ensure (tocSha256 = toc.tocSha256) (malformed "bundle generation moved during verification")
  verifySections sha256 file toc.sections

end Gitility.Bundle
