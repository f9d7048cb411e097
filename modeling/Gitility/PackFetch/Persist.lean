import Gitility.Bundle.Generations
import Gitility.PackFetch.Manifest

/-!
# The bundle of a hydration

`into: {:bundle, path}` of `lib/gitility/odb/pack_fetch.ex`: the existing bundle is extracted into a scratch
directory before the hydration, and afterwards the pairs of the manifest are published as a bundle when they
differ from it. The file system does what it is asked for and nothing else works on the two paths.
-/

namespace Gitility.PackFetch

open Gitility.Bundle

/-- What stands under a name in the `objects/pack` of the scratch directory. -/
inductive ScratchFile where
  | regular (content : Bytes)
  | other
  deriving DecidableEq

/-- The `objects/pack` of the scratch directory. -/
abbrev Scratch := Bytes → Option ScratchFile

/-- The bundle context of a destination. `start_link` has checked the source identity. -/
structure BundleContext where
  sourceIdentity : Option Bytes
  valid : ∀ identity ∈ sourceIdentity, validUtf8 identity = true

/-- A pair that is to be published. -/
structure SnapshotPair where
  packName : Bytes
  packLength : ℕ
  indexName : Bytes
  indexLength : ℕ
  deriving DecidableEq

/-- `bundle_write_error`. -/
def bundleWriteError (message : String) : Error := .new .backendError message

/-! ### Before the hydration -/

/-- An algorithm inside a message. -/
def hashText : HashKind → String
  | .sha1 => "sha1"
  | .sha256 => "sha256"

/-- `validate_existing_bundle`. -/
def validateExistingBundle (hash : HashKind) (toc : Toc) : Except Error Unit := do
  ensure (toc.hashAlgorithm = hash) (.new .invalidArgument
    (s!"bundle destination hash algorithm {hashText toc.hashAlgorithm} does not match " ++
      s!"configured PackFetch hash {hashText hash}"))
  ensure (toc.refs = []) (.new .invalidArgument
    (s!"bundle destination contains {toc.refs.length} refs; hydration bundles are ODB-only; " ++
      "use Gitility.Bundle.write/2 for full repository bundles"))

variable (sha256 : Bytes → Bytes)

/-- `extract_section`: whether the section is damaged. -/
def sectionDamaged (file : Bytes) (entry : FileEntry) : Bool :=
  sha256 ((file.drop entry.offset).take entry.length) ≠ entry.sha256

/-- `extract_bundle`: whether a section is damaged. -/
def extractBundle (file : Bytes) (toc : Toc) : Bool := toc.files.any (sectionDamaged sha256 file)

/-- `prepare_bundle_destination`: whether the bundle has to be rewritten. -/
def prepareBundleDestination (hash : HashKind) (destination : Option Bytes) : Except Error Bool := do
  match ← classifyDestination sha256 destination with
  | none => return false
  | some toc => do
    validateExistingBundle hash toc
    return extractBundle sha256 (destination.getD []) toc

/-! ### After the hydration -/

/-- `validate_snapshot_manifest`. -/
def validateSnapshotManifest (manifest : PackManifest) (hash : HashKind) : Except Error Unit := do
  ensure (manifest.hash = hash ∧ manifest.loose = [])
    (bundleWriteError "PackFetch manifest cannot be represented as a hydration bundle")
  ensure (validUtf8 manifest.generation)
    (bundleWriteError "PackFetch manifest generation is not valid UTF-8")

/-- The source identity of a snapshot. -/
def sourceIdentity (context : BundleContext) (manifest : PackManifest) : Bytes :=
  context.sourceIdentity.getD (Bytes.ascii "packfetch:generation:" ++ manifest.generation)

/-- `snapshot_metadata`. -/
def snapshotMetadata (context : BundleContext) (manifest : PackManifest) :
    Except Error (List (Bytes × Bytes)) := do
  ensure ((sourceIdentity context manifest).length ≤ 65536)
    (bundleWriteError "bundle source identity exceeds the format metadata ceiling")
  return [(Bytes.ascii "source_identity", sourceIdentity context manifest)]

variable (scratch : Scratch)

/-- `validate_snapshot_artifact`. -/
def validateSnapshotArtifact (name : Bytes) (expectedSize : ℕ) : Except Error Unit :=
  match scratch name with
  | some (.regular content) => ensure (content.length = expectedSize)
      (bundleWriteError "hydrated artifact size changed before bundle publication")
  | some .other => .error (bundleWriteError "hydrated artifact is not a regular file")
  | none => .error (bundleWriteError "could not inspect hydrated artifact")

/-- `snapshot_pair`. -/
def snapshotPair (descriptor : PackDescriptor) : Except Error SnapshotPair := do
  ensure (0 < descriptor.packSize ∧ 0 < descriptor.indexSize)
    (bundleWriteError "PackFetch manifest contains an invalid pair")
  validateSnapshotArtifact scratch (packName descriptor.id) descriptor.packSize
  validateSnapshotArtifact scratch (indexName descriptor.id) descriptor.indexSize
  return ⟨packName descriptor.id, descriptor.packSize, indexName descriptor.id, descriptor.indexSize⟩

/-- `snapshot_pairs`. -/
def snapshotPairs (manifest : PackManifest) : Except Error (List SnapshotPair) := do
  let pairs ← manifest.packs.mapM (snapshotPair scratch)
  return pairs.reverse.mergeSort fun a b ↦ a.packName ≤ b.packName

/-- The names and lengths of the files of the pairs. -/
def expectedFiles (pairs : List SnapshotPair) : List (Bytes × ℕ) :=
  pairs.flatMap fun pair ↦ [(pair.packName, pair.packLength), (pair.indexName, pair.indexLength)]

/-- The content of a hydrated file. -/
def readArtifact (name : Bytes) (error : Error) : Except Error Bytes :=
  match scratch name with
  | some (.regular content) => .ok content
  | _ => .error error

/-- `hash_file`. -/
def hashFile (name : Bytes) : Except Error Bytes :=
  sha256 <$> readArtifact scratch name (bundleWriteError "could not open hydrated artifact for hashing")

/-- `snapshot_hashes_changed?`. -/
def snapshotHashesChanged : List (FileEntry × Bytes) → Except Error Bool
  | [] => .ok false
  | (entry, name) :: rest => do
    let digest ← hashFile sha256 scratch name
    if digest = entry.sha256 then snapshotHashesChanged rest else return true

/-- `snapshot_changed?`. -/
def snapshotChanged (toc : Option Toc) (pairs : List SnapshotPair) (metadata : List (Bytes × Bytes))
    (force : Bool) : Except Error Bool :=
  match toc with
  | none => .ok true
  | some toc =>
    if force then .ok true
    else if toc.metadata = metadata then
      if toc.files.map (fun entry ↦ (entry.name, entry.length)) = expectedFiles pairs then
        snapshotHashesChanged sha256 scratch (toc.files.zip ((expectedFiles pairs).map Prod.fst))
      else .ok true
    else .ok true

/-- The files of a pair as the writer reads them. -/
def writerPair (pair : SnapshotPair) : Except Error (Artifact × Artifact) := do
  let failed := bundleWriteError "bundle snapshot publication failed"
  let pack ← readArtifact scratch pair.packName failed
  let index ← readArtifact scratch pair.indexName failed
  return (⟨pair.packName, pack⟩, ⟨pair.indexName, index⟩)

/-- `maybe_write_snapshot`: the file that replaces the bundle, if one does. -/
def maybeWriteSnapshot (manifest : PackManifest) (metadata : List (Bytes × Bytes))
    (pairs : List SnapshotPair) (toc : Option Toc) : Bool → Except Error (Option Bytes)
  | false => .ok none
  | true => do
    let generation := toc.elim 1 (·.generation + 1)
    let writerPairs ← pairs.mapM (writerPair scratch)
    let (_, file) ←
      (Writer.write sha256 ⟨writerPairs, manifest.hash, generation, metadata, [], []⟩).mapError fun error ↦
        if error.code = .unsupportedOperation then error
        else bundleWriteError "bundle snapshot publication failed"
    return some file

/-- `persist_bundle`: the file that replaces the bundle, if one does. -/
def persistBundle (hash : HashKind) (manifest : PackManifest) (context : BundleContext)
    (destination : Option Bytes) (force : Bool) : Except Error (Option Bytes) := do
  validateSnapshotManifest manifest hash
  let metadata ← snapshotMetadata context manifest
  let pairs ← snapshotPairs scratch manifest
  let toc ← classifyDestination sha256 destination
  let changed ← snapshotChanged sha256 scratch toc pairs metadata force
  maybeWriteSnapshot sha256 scratch manifest metadata pairs toc changed

end Gitility.PackFetch
