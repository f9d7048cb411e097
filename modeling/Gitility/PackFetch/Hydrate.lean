import Gitility.Base.Program
import Gitility.PackFetch.Persist
import Gitility.PackFetch.Verify
import Gitility.Store.ObjectDb

/-!
# Hydration

`PackFetchOdb::hydrate` of `crates/gitility-core/src/packfetch.rs`, as a program that calls the budget, the
range backend, the file system under the destination, the memory of the instance and the opened store. The
timings of the statistics are not kept. `usize` has 64 bits.
-/

namespace Gitility.PackFetch

open Provider (Hashers)

/-- `ByteRange`. -/
structure ByteRange where
  key : Bytes
  offset : ℕ
  length : ℕ
  deriving DecidableEq

/-- `PackFetchOptions` that `validate` has accepted; the destination is the directory the operations are on. -/
structure PackFetchOptions where
  chunkBytes : ℕ
  concurrency : ℕ
  maxHydrationBytes : ℕ
  maxBytes : Option ℕ
  chunkBytes_pos : 0 < chunkBytes
  concurrency_pos : 0 < concurrency
  maxHydrationBytes_pos : 0 < maxHydrationBytes

/-- `HydrationStats` without its timings. -/
structure HydrationStats where
  generation : Bytes := []
  packsHydrated : ℕ := 0
  bytesFetched : ℕ := 0
  bytesVerified : ℕ := 0
  packsSkipped : ℕ := 0
  replacedCorrupt : ℕ := 0
  deriving DecidableEq

/-- `HydrationPlanItem`. -/
structure HydrationPlanItem where
  descriptor : PackDescriptor
  fetch : Bool
  deriving DecidableEq

/-- What a hydration calls. -/
inductive HydrateOp (Local : Type) where
  | check
  | chargeProviderRequest
  | chargeProviderBytes (bytes : ℕ)
  | manifest
  | readRangesWindow (batches : List (List ByteRange))
  | createDirAll
  | readDir
  | isFile (name : Bytes)
  | openFile (name : Bytes)
  | fileLength (name : Bytes)
  | readToEnd (name : Bytes)
  | readExact (name : Bytes) (length : ℕ)
  | removeFile (name : Bytes)
  | nextTempId
  | createNew (name : Bytes)
  | writeAll (name bytes : Bytes)
  | rename (source target : Bytes)
  | isVerified (id : Bytes)
  | insertVerified (id : Bytes)
  | removeVerified (id : Bytes)
  | verifyPairBytes (pack index id : Bytes)
  | openObjectsDir
  | tryHeader (store : Local) (oid : Oid)
  | publish (store : Local)
  | setStats (stats : HydrationStats)

/-- What is answered. -/
@[reducible] def HydrateOp.Ans {Local : Type} : HydrateOp Local → Type
  | .manifest => PackManifest
  | .readRangesWindow _ => List (List Bytes)
  | .readDir => List Bytes
  | .isFile _ | .isVerified _ => Bool
  | .fileLength _ | .nextTempId => ℕ
  | .readToEnd _ | .readExact _ _ => Bytes
  | .openObjectsDir => Local
  | .tryHeader _ _ => Option ObjectHeader
  | _ => Unit

/-- A part of a hydration. -/
abbrev Hydration (Local : Type) := Program (HydrateOp Local) HydrateOp.Ans Error

variable {Local : Type}

open Program (fail)

/-- One call, with `?` on its answer. -/
def ask (op : HydrateOp Local) : Hydration Local op.Ans := Program.request op

/-! ### The manifest -/

/-- `checked_add` of two `u64`. -/
def checkedAdd (error : Error) (total amount : ℕ) : Except Error ℕ := do
  ensure (total + amount < 2 ^ 64) error
  return total + amount

/-- `PackManifest::described_bytes`. -/
def PackManifest.describedBytes (manifest : PackManifest) : Except Error ℕ :=
  manifest.packs.foldlM (fun total pack ↦ do
    let overflow := protocolError "pack manifest byte total overflows u64"
    checkedAdd overflow (← checkedAdd overflow total pack.packSize) pack.indexSize) 0

/-- What one pack adds to the reply bytes of its manifest. -/
def PackDescriptor.replyBytes (pack : PackDescriptor) : List ℕ :=
  [pack.id.length, pack.packKey.length, pack.indexKey.length, pack.etag.elim 0 List.length, 32]

/-- `PackManifest::reply_bytes`. -/
def PackManifest.replyBytes (manifest : PackManifest) : Except Error ℕ :=
  (manifest.generation.length :: manifest.packs.flatMap PackDescriptor.replyBytes ++
    manifest.loose.map List.length).foldlM
    (checkedAdd (protocolError "pack manifest reply byte total overflows u64")) 16

/-- `hydration_budget_error`. -/
def hydrationBudgetError (message : String) : Error :=
  (Error.new .budgetExceeded message).withLimit "max_hydration_bytes"

/-- `remap_hydration_budget` of a pack manifest reply. -/
def remapHydrationBudget (error : Error) : Error :=
  if error.code = .budgetExceeded ∧ error.limit = some "max_provider_bytes" then
    hydrationBudgetError "pack manifest reply exceeds max_hydration_bytes"
  else error

/-! ### Files of the destination -/

/-- The backend error of a file operation. -/
def fileError (message : String) : Error := .new .backendError message

/-- `map_err` of one operation. -/
def requestOr (op : HydrateOp Local) (error : Error) : Hydration Local op.Ans :=
  (ask op).mapError fun _ ↦ error

/-- One operation whose result is dropped. -/
def ignored (op : HydrateOp Local) : Hydration Local Unit := do
  let _ ← (ask op).attempt
  return ()

/-- `remove_destination_pair`. -/
def removeDestinationPair (id : Bytes) : Hydration Local Unit := do
  ignored (.removeFile (packName id))
  ignored (.removeFile (indexName id))

/-- `Path::extension` of a file name. -/
def extension (name : Bytes) : Option Bytes :=
  match Bytes.rposition (· = 0x2e) name with
  | some (position + 1) => some (name.drop (position + 2))
  | _ => none

/-- The error of a sum beyond `max_bytes`. -/
def maxBytesError (message : String) : Error := (Error.new .budgetExceeded message).withLimit "max_bytes"

/-- The bytes of the packs and indices in the destination. -/
def existingBytes : List Bytes → ℕ → Hydration Local ℕ
  | [], total => return total
  | name :: names, total => do
    if extension name ∈ [some (Bytes.ascii "pack"), some (Bytes.ascii "idx")] then
      let length ← requestOr (.fileLength name) (fileError "could not inspect PackFetch memory destination")
      existingBytes names (← checkedAdd (maxBytesError "max_bytes exceeded") total length)
    else existingBytes names total

/-- What replacing one file does to the total. -/
def replacedBytes (total : ℕ) (name : Bytes) (expected : ℕ) : Hydration Local ℕ := do
  let existing ← (ask (.fileLength name)).attempt
  let existing := existing.toOption.getD 0
  ensure (existing ≤ total) (maxBytesError "max_bytes exceeded")
  checkedAdd (maxBytesError "max_bytes exceeded") (total - existing) expected

/-- The bytes of the destination with the pairs of a manifest in place. -/
def describedPairs : List PackDescriptor → ℕ → Hydration Local ℕ
  | [], total => return total
  | descriptor :: packs, total => do
    let total ← replacedBytes total (packName descriptor.id) descriptor.packSize
    let total ← replacedBytes total (indexName descriptor.id) descriptor.indexSize
    describedPairs packs total

/-- `projected_destination_bytes`. -/
def projectedDestinationBytes (manifest : PackManifest) : Hydration Local ℕ := do
  let names ← requestOr .readDir (fileError "could not inspect PackFetch memory destination")
  describedPairs manifest.packs (← existingBytes names 0)

/-- The check of `max_bytes`. -/
def checkMaxBytes (options : PackFetchOptions) (manifest : PackManifest) : Hydration Local Unit :=
  match options.maxBytes with
  | none => return ()
  | some maximum => do
    let projected ← projectedDestinationBytes manifest
    ensure (projected ≤ maximum) (maxBytesError "hydrated memory destination exceeds max_bytes")

/-! ### The plan -/

/-- `verify_pair_sizes`. -/
def verifyPairSizes (descriptor : PackDescriptor) : Hydration Local Unit := do
  let packSize ← requestOr (.fileLength (packName descriptor.id))
    (checksumError .packChecksumMismatch "could not inspect")
  ensure (packSize = descriptor.packSize)
    (checksumError .packChecksumMismatch "size does not match manifest")
  let indexSize ← requestOr (.fileLength (indexName descriptor.id))
    (checksumError .indexChecksumMismatch "could not inspect")
  ensure (indexSize = descriptor.indexSize)
    (checksumError .indexChecksumMismatch "size does not match manifest")

/-- `read_exact_file`. -/
def readExactFile (name : Bytes) (expected : ℕ) (code : ErrorCode) : Hydration Local Bytes := do
  requestOr (.openFile name) (checksumError code "could not read")
  let length ← requestOr (.fileLength name) (checksumError code "could not inspect")
  ensure (length = expected) (checksumError code "size does not match manifest")
  requestOr (.readToEnd name) (checksumError code "could not read")

/-- `verify_pair_paths`. -/
def verifyPairPaths (descriptor : PackDescriptor) : Hydration Local ℕ := do
  let pack ← readExactFile (packName descriptor.id) descriptor.packSize .packChecksumMismatch
  let index ← readExactFile (indexName descriptor.id) descriptor.indexSize .indexChecksumMismatch
  ask .check
  ask (.verifyPairBytes pack index descriptor.id)
  return pack.length + index.length

/-- The verification of a pair that exists. -/
def verifyExisting (descriptor : PackDescriptor) : Bool → Hydration Local ℕ
  | true => do
    verifyPairSizes descriptor
    return 0
  | false => verifyPairPaths descriptor

/-- A pair that is to be replaced. -/
def replacePair (descriptor : PackDescriptor) (stats : HydrationStats) :
    Hydration Local (HydrationPlanItem × HydrationStats) := do
  ask (.removeVerified descriptor.id)
  removeDestinationPair descriptor.id
  return (⟨descriptor, true⟩, { stats with replacedCorrupt := stats.replacedCorrupt + 1 })

/-- What becomes of a pair after its verification. -/
def planExisting (descriptor : PackDescriptor) (stats : HydrationStats) :
    Except Error ℕ → Hydration Local (HydrationPlanItem × HydrationStats)
  | .ok bytes => do
    ask (.insertVerified descriptor.id)
    return (⟨descriptor, false⟩, { stats with
      bytesVerified := saturatingAdd stats.bytesVerified bytes
      packsSkipped := stats.packsSkipped + 1 })
  | .error error =>
    if error.code = .packChecksumMismatch ∨ error.code = .indexChecksumMismatch then
      replacePair descriptor stats
    else fail error

/-- What the plan does with a descriptor whose pack and index exist or not. -/
def planFiles (descriptor : PackDescriptor) (stats : HydrationStats) (verifiedHere : Bool) :
    Bool → Bool → Hydration Local (HydrationPlanItem × HydrationStats)
  | true, true => do
    planExisting descriptor stats (← (verifyExisting descriptor verifiedHere).attempt)
  | false, false => return (⟨descriptor, true⟩, stats)
  | _, _ => replacePair descriptor stats

/-- One descriptor of `plan_hydration`. -/
def planDescriptor (descriptor : PackDescriptor) (stats : HydrationStats) :
    Hydration Local (HydrationPlanItem × HydrationStats) := do
  ask .check
  let packExists ← ask (.isFile (packName descriptor.id))
  let indexExists ← ask (.isFile (indexName descriptor.id))
  let verifiedHere ← ask (.isVerified descriptor.id)
  planFiles descriptor stats verifiedHere packExists indexExists

/-- `plan_hydration`. -/
def planHydration : List PackDescriptor → HydrationStats →
    Hydration Local (List HydrationPlanItem × HydrationStats)
  | [], stats => return ([], stats)
  | descriptor :: packs, stats => do
    let (item, stats) ← planDescriptor descriptor stats
    let (plan, stats) ← planHydration packs stats
    return (item :: plan, stats)

/-- The bytes that a plan fetches. -/
def bytesToFetch (plan : List HydrationPlanItem) : Except Error ℕ :=
  plan.foldlM (fun total item ↦
    if item.fetch then do
      let overflow := protocolError "pack hydration byte total overflows u64"
      checkedAdd overflow (← checkedAdd overflow total item.descriptor.packSize) item.descriptor.indexSize
    else return total) 0

/-! ### The fetches -/

/-- The ranges of an artifact from `offset` on; `chunk` is never zero. -/
def byteRanges (key : Bytes) (chunk size offset : ℕ) : List ByteRange :=
  if offset < size ∧ 0 < chunk then
    ⟨key, offset, min chunk (size - offset)⟩ ::
      byteRanges key chunk size (offset + min chunk (size - offset))
  else []
termination_by size - offset

/-- One request for each range of a window. -/
def chargeRequests : List ByteRange → Hydration Local Unit
  | [] => return ()
  | _ :: window => do
    ask .chargeProviderRequest
    chargeRequests window

/-- The ranges of one batch. -/
def collectRanges : List (ByteRange × Bytes) → Bytes → Hydration Local Bytes
  | [], output => return output
  | (range, bytes) :: ranges, output => do
    ensure (bytes.length = range.length)
      (protocolError "range backend returned a short or over-long range")
    ask (.chargeProviderBytes bytes.length)
    collectRanges ranges (output ++ bytes)

/-- The batches of one window. -/
def collectBatches : List (List ByteRange × List Bytes) → Bytes → Hydration Local Bytes
  | [], output => return output
  | (batch, reply) :: batches, output => do
    ensure (reply.length = batch.length)
      (protocolError "range backend returned the wrong number of range replies")
    let output ← collectRanges (batch.zip reply) output
    collectBatches batches output

/-- The windows of an artifact. -/
def fetchWindows : List (List ByteRange) → Bytes → Hydration Local Bytes
  | [], output => return output
  | window :: windows, output => do
    chargeRequests window
    let batches := window.map fun range ↦ [range]
    let replies ← ask (.readRangesWindow batches)
    ensure (replies.length = batches.length)
      (protocolError "range backend omitted a read_ranges callback reply")
    let output ← collectBatches (batches.zip replies) output
    fetchWindows windows output

/-- `fetch_artifact`. -/
def fetchArtifact (options : PackFetchOptions) (key : Bytes) (size chunkBytes : ℕ) :
    Hydration Local Bytes := do
  let output ← fetchWindows ((byteRanges key chunkBytes size 0).toChunks options.concurrency) []
  ensure (output.length = size)
    (protocolError "range backend artifact length does not match the manifest")
  return output

/-! ### The publication of a pair -/

/-- The name of a temporary file of process `pid`. -/
def tempName (pid : ℕ) (name : Bytes) (id : ℕ) : Bytes :=
  Bytes.ascii "." ++ name ++ Bytes.ascii ".tmp-" ++ Bytes.ascii (toString pid) ++ Bytes.ascii "-" ++
    Bytes.ascii (toString id)

/-- `TempFile::write`. -/
def writeTemp (pid : ℕ) (name bytes : Bytes) : Hydration Local Bytes := do
  let id ← ask .nextTempId
  let path := tempName pid name id
  requestOr (.createNew path) (fileError "could not create PackFetch temporary file")
  match ← (ask (.writeAll path bytes)).attempt with
  | .ok _ => return path
  | .error error => do
    ignored (.removeFile path)
    fail (fileError s!"could not write PackFetch temporary file: {error.message}")

/-- `TempFile::publish`. -/
def publishTemp (path name : Bytes) : Hydration Local Unit := do
  match ← (ask (.rename path name)).attempt with
  | .ok _ => return ()
  | .error error => do
    ignored (.removeFile path)
    fail (fileError s!"could not publish hydrated pack file: {error.message}")

/-- A step that drops the temporary file `path` when it fails. -/
def orDrop {α : Type} (path : Bytes) (step : Hydration Local α) : Hydration Local α := do
  match ← step.attempt with
  | .ok a => return a
  | .error error => do
    ignored (.removeFile path)
    fail error

/-- `write_pair_atomically`. -/
def writePairAtomically (pid : ℕ) (id pack index : Bytes) : Hydration Local Unit := do
  let packTemp ← writeTemp pid (packName id) pack
  let indexTemp ← orDrop packTemp (writeTemp pid (indexName id) index)
  orDrop indexTemp (publishTemp packTemp (packName id))
  publishTemp indexTemp (indexName id)

/-- One item of the plan that is to be fetched. -/
def fetchPack (options : PackFetchOptions) (pid : ℕ) (descriptor : PackDescriptor) (stats : HydrationStats) :
    Hydration Local HydrationStats := do
  ask .check
  let _ ← (Oid.parseHex descriptor.id).mapError fun _ ↦
    protocolError "validated pack ID could not be parsed"
  let index ← fetchArtifact options descriptor.indexKey descriptor.indexSize descriptor.indexSize
  let pack ← fetchArtifact options descriptor.packKey descriptor.packSize options.chunkBytes
  ask (.verifyPairBytes pack index descriptor.id)
  ask .check
  writePairAtomically pid descriptor.id pack index
  ask (.insertVerified descriptor.id)
  return { stats with
    bytesFetched := saturatingAdd (saturatingAdd stats.bytesFetched index.length) pack.length
    bytesVerified := saturatingAdd stats.bytesVerified (pack.length + index.length)
    packsHydrated := stats.packsHydrated + 1 }

/-- The items of the plan. -/
def fetchPlan (options : PackFetchOptions) (pid : ℕ) : List HydrationPlanItem → HydrationStats →
    Hydration Local HydrationStats
  | [], stats => return stats
  | ⟨_, false⟩ :: plan, stats => fetchPlan options pid plan stats
  | ⟨descriptor, true⟩ :: plan, stats => do
    let stats ← fetchPack options pid descriptor stats
    fetchPlan options pid plan stats

/-! ### The probe -/

/-- The error of a pack that fails its probe. -/
def probeError (id : Bytes) : Error :=
  .new .malformedObject
    (s!"hydrated pack {String.ofList (id.map fun byte ↦ Char.ofNat byte.toNat)} " ++
      "failed the open-time probe")

/-- `first_index_oid`. -/
def readFirstIndexOid (name : Bytes) (hash : HashKind) : Hydration Local Oid := do
  requestOr (.openFile name) (malformed "could not open hydrated index for its open-time probe")
  let header ← requestOr (.readExact name (firstOidBytes hash))
    (malformed "hydrated index is too short for its open-time probe")
  firstIndexOid header hash

/-- The header of the first object of an index. -/
def probe (store : Local) (hash : HashKind) (id : Bytes) : Hydration Local (Option ObjectHeader) := do
  let oid ← readFirstIndexOid (indexName id) hash
  ask (.tryHeader store oid)

/-- What becomes of a probed pack. -/
def probed (id : Bytes) : Except Error (Option ObjectHeader) → Hydration Local Unit
  | .ok (some _) => return ()
  | _ => do
    removeDestinationPair id
    ask (.removeVerified id)
    fail (probeError id)

/-- `probe_hydrated_packs`. -/
def probeHydratedPacks (store : Local) (hash : HashKind) : List PackDescriptor → Hydration Local Unit
  | [] => return ()
  | descriptor :: packs => do
    ask .check
    probed descriptor.id (← (probe store hash descriptor.id).attempt)
    probeHydratedPacks store hash packs

/-! ### The hydration -/

/-- The manifest of a hydration and the size of its reply. -/
def readManifest (options : PackFetchOptions) (hash : HashKind) : Hydration Local (PackManifest × ℕ) := do
  ask .chargeProviderRequest
  let manifest ← ask .manifest
  manifest.validate hash
  let _ ← manifest.describedBytes
  let manifestBytes ← manifest.replyBytes
  ensure (manifestBytes ≤ options.maxHydrationBytes)
    (hydrationBudgetError "pack manifest reply exceeds max_hydration_bytes")
  (ask (.chargeProviderBytes manifestBytes)).mapError remapHydrationBudget
  requestOr .createDirAll (fileError "could not create PackFetch destination directory")
  checkMaxBytes options manifest
  return (manifest, manifestBytes)

/-- The packs of a manifest, fetched where the plan says so. -/
def fetchManifest (options : PackFetchOptions) (pid : ℕ) (manifest : PackManifest) (manifestBytes : ℕ) :
    Hydration Local HydrationStats := do
  let (plan, stats) ← planHydration manifest.packs { generation := manifest.generation }
  let bytes ← bytesToFetch plan
  ensure (bytes ≤ options.maxHydrationBytes - manifestBytes)
    (hydrationBudgetError "pack hydration plan exceeds max_hydration_bytes before fetching")
  fetchPlan options pid plan stats

/-- The store over the destination, served when every pack of the manifest answers. -/
def openStore (hash : HashKind) (manifest : PackManifest) (stats : HydrationStats) :
    Hydration Local HydrationStats := do
  let store ← ask .openObjectsDir
  probeHydratedPacks store hash manifest.packs
  ask (.publish store)
  ask (.setStats stats)
  return stats

/-- `PackFetchOdb::hydrate`. -/
def hydrate (options : PackFetchOptions) (pid : ℕ) (hash : HashKind) : Hydration Local HydrationStats := do
  let (manifest, manifestBytes) ← readManifest options hash
  let stats ← fetchManifest options pid manifest manifestBytes
  openStore hash manifest stats

end Gitility.PackFetch
