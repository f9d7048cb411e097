import Gitility.Diff.Content
import Gitility.Search.Search

/-!
# Structured diffs

`diff` of `crates/gitility-core/src/diff.rs` under an unlimited budget. The walk of `gix-diff` over both trees is
a parameter: a program that reads through `GixObjectStore` and hands each change to the callback of `diff`.
-/

namespace Gitility.Diff

/-! ### Results -/

/-- `diff.rs` `DiffWarningCode`. -/
inductive DiffWarningCode where
  | truncated
  | oversizeSkipped
  deriving DecidableEq, Repr

/-- `diff.rs` `DiffWarning`. -/
structure DiffWarning where
  code : DiffWarningCode
  message : String
  deriving DecidableEq

/-- The `QueryStats` of a diff, without the budget and cache counters and those that are always zero. -/
structure DiffStats extends QueryStats where
  filesScanned : ℕ
  binarySkipped : ℕ
  oversizeSkipped : ℕ
  deriving DecidableEq

/-- `diff.rs` `Diff`. -/
structure StructuredDiff where
  files : List DiffFile
  stats : DiffStats
  warnings : List DiffWarning
  truncated : Bool
  deriving DecidableEq

/-! ### Changes -/

/-- `diff.rs` `RawChange`. -/
structure RawChange where
  status : DiffStatus
  oldPath : Option Bytes
  newPath : Option Bytes
  oldOid : Option Oid
  newOid : Option Oid
  oldMode : Option ℕ
  newMode : Option ℕ
  similarity : Option ℕ

namespace RawChange

/-- `RawChange::sort_path`. -/
def sortPath (change : RawChange) : Bytes := (change.newPath.or change.oldPath).getD []

/-- `RawChange::into_file`. -/
def intoFile (change : RawChange) : DiffFile where
  status := change.status
  oldPath := change.oldPath
  newPath := change.newPath
  oldOid := change.oldOid
  newOid := change.newOid
  oldMode := change.oldMode
  newMode := change.newMode
  similarity := change.similarity
  additions := none
  deletions := none
  binary := false
  hunks := []

/-- The order of two optional paths; no path is the least. -/
def oldPathLe : Option Bytes → Option Bytes → Bool
  | none, _ => true
  | some _, none => false
  | some a, some b => ¬ b < a

/-- The order of the changes. -/
def le (left right : RawChange) : Bool :=
  left.sortPath < right.sortPath ∨ left.sortPath = right.sortPath ∧ oldPathLe left.oldPath right.oldPath

end RawChange

/-- `gix_diff::tree_with_rewrites::ChangeRef`, as far as `normalize_change` reads it. The similarity of a rewrite
is given in whole percent. -/
inductive ChangeRef where
  | addition (location : Bytes) (entryMode : ℕ) (id : Oid)
  | deletion (location : Bytes) (entryMode : ℕ) (id : Oid)
  | modification (location : Bytes) (previousEntryMode : ℕ) (previousId : Oid) (entryMode : ℕ) (id : Oid)
  | rewrite (sourceLocation : Bytes) (sourceEntryMode : ℕ) (sourceId : Oid) (similarity : Option ℕ)
    (entryMode : ℕ) (id : Oid) (location : Bytes) (copy : Bool)

/-- `normalize_change`; every ID of `gix-hash` has a kind of its own here, so `core_oid` does not fail. -/
def normalizeChange : ChangeRef → Option RawChange
  | .addition location entryMode id =>
    if isTree entryMode then none
    else some ⟨.added, none, some location, none, some id, none, some entryMode, none⟩
  | .deletion location entryMode id =>
    if isTree entryMode then none
    else some ⟨.deleted, some location, none, some id, none, some entryMode, none, none⟩
  | .modification location previousEntryMode previousId entryMode id =>
    if isTree previousEntryMode ∧ isTree entryMode then none
    else some ⟨if modeType previousEntryMode = modeType entryMode then .modified else .typeChanged,
      some location, some location, some previousId, some id, some previousEntryMode, some entryMode, none⟩
  | .rewrite sourceLocation sourceEntryMode sourceId similarity entryMode id location copy =>
    if isTree sourceEntryMode ∨ isTree entryMode then none
    else some ⟨if copy then .copied else .renamed, some sourceLocation, some location, some sourceId, some id,
      some sourceEntryMode, some entryMode, some ((similarity.map (min · 100)).getD 100)⟩

/-! ### The walk of both trees -/

/-- What `gix_diff::tree_with_rewrites` calls: the two traits of its object store, and its callback. -/
inductive WalkOp where
  | find (oid : Oid)
  | header (oid : Oid)
  | change (change : ChangeRef)

/-- What a call returns; the callback says whether to go on. -/
def WalkOp.Answer : WalkOp → Type
  | .find _ => Option Object
  | .header _ => Option ObjectHeader
  | .change _ => Bool

/-- `gix_diff::tree_with_rewrites::Error`. -/
inductive TreeDiffError where
  | forEach (error : Error)
  | other

/-- A run of `gix_diff::tree_with_rewrites`. -/
abbrev TreeWalk := Program WalkOp WalkOp.Answer TreeDiffError Unit

/-- What a diff depends on besides its stores. The walk is given both root payloads with their kinds, the limit
of its rename tracking, if any, and the threshold of its blobs. -/
structure Gitoxide where
  trees : Gix
  hashers : Provider.Hashers
  blobDiff : GixBlobDiff
  treeWithRewrites : HashKind × Bytes → HashKind × Bytes → Option ℕ → ℕ → TreeWalk

/-- `GixObjectStore::try_header`. -/
def GixObjectStore.tryHeader (adapter : GixObjectStore) (oid : Oid) :
    Query (Except Error (Option ObjectHeader) × GixObjectStore) :=
  match adapter.projectedTrees.lookup oid with
  | some tree => return (.ok (some ⟨.tree, tree.length⟩), adapter)
  | none => do
    let found ← (Query.tryHeaderWithProvenance oid).attempt
    match found with
    | .error error => return (.error error, { adapter with lastError := some error })
    | .ok none => return (.ok none, adapter)
    | .ok (some read) =>
      if read.header.kind = .blob ∧ adapter.maxObjectBytes < read.header.size then
        return (.ok (some read.header), adapter.recordOversize oid)
      else return (.ok (some read.header), adapter)

/-- The state of the walk: the adapter, `changes` and `walk_stopped_by`. -/
structure WalkState where
  adapter : GixObjectStore
  changes : List RawChange := []
  stoppedBy : Option String := none

/-- The callback of `diff` behind its budget check, and whether the walk goes on. -/
def WalkState.push (maxDiffFiles : ℕ) (state : WalkState) (change : ChangeRef) : Bool × WalkState :=
  match normalizeChange change with
  | none => (true, state)
  | some raw =>
    if state.changes.length = maxDiffFiles then (false, { state with stoppedBy := some "max_diff_files" })
    else (true, { state with changes := state.changes ++ [raw] })

/-- The walk with the adapter and the callback of `diff`. -/
def runWalk (maxDiffFiles : ℕ) : TreeWalk → WalkState → Query (Outcome TreeDiffError Unit × WalkState)
  | .done outcome, state => return (outcome, state)
  | .call (.find oid) k, state => do
    let (found, adapter) ← state.adapter.tryFind oid
    runWalk maxDiffFiles (k (found.mapError fun _ ↦ .other)) { state with adapter }
  | .call (.header oid) k, state => do
    let (found, adapter) ← state.adapter.tryHeader oid
    runWalk maxDiffFiles (k (found.mapError fun _ ↦ .other)) { state with adapter }
  | .call (.change change) k, state => do
    match ← Query.check.attempt with
    | .error error => runWalk maxDiffFiles (k (.error (.forEach error))) state
    | .ok () =>
      let (goOn, state) := state.push maxDiffFiles change
      runWalk maxDiffFiles (k (.ok goOn)) state

/-- `map_tree_diff_error`. -/
def mapTreeDiffError : TreeDiffError → Error
  | .forEach error => error
  | .other => .new .malformedObject "tree or rewrite diff failed on malformed object data"

/-- What `diff` makes of the end of the walk. -/
def closeWalk : Outcome TreeDiffError Unit × WalkState → Query WalkState
  | (.ok (), state) => return state
  | (.error error, state) =>
    match state.adapter.lastError with
    | some core => Program.fail core
    | none => if state.stoppedBy = none then Program.fail (mapTreeDiffError error) else return state
  | (.diverged, _) => Program.diverge

/-- The trees of a diff, read or projected. -/
def prepareTrees (gix : Gitoxide) (fuel : ℕ) (opts : TreeDiffOptions) (base head : Oid) : Query PreparedTrees :=
  if opts.pathspecs = [] then do
    let baseTree ← readRequiredTree base
    let headTree ← readRequiredTree head
    return ⟨baseTree, headTree, []⟩
  else projectDiffTrees ⟨gix.trees, gix.hashers, opts.pathspecs⟩ fuel base head

/-- The `limit` of the rename tracking. -/
def rewriteLimit (opts : TreeDiffOptions) : Option ℕ :=
  match opts.renames with
  | .disabled => none
  | .similarity => some (min (opts.maxDiffFiles * opts.maxDiffFiles) u64Max)

/-- `diff` from the trees to its sorted changes. -/
def walkTrees (gix : Gitoxide) (fuel : ℕ) (opts : TreeDiffOptions) (base head : Oid) : Query WalkState := do
  let prepared ← prepareTrees gix fuel opts base head
  let walked ← runWalk opts.maxDiffFiles
    (gix.treeWithRewrites (base.kind, prepared.base) (head.kind, prepared.head) (rewriteLimit opts)
      opts.maxObjectBytes) { adapter := ⟨opts.maxObjectBytes, prepared.projected, none, []⟩ }
  let state ← closeWalk walked
  return { state with changes := state.changes.mergeSort RawChange.le }

/-! ### The files -/

/-- `is_gitlink`. -/
def isGitlink (mode : ℕ) : Bool := modeType mode = 0o160000

/-- `needs_content`. -/
def needsContent (file : DiffFile) : Bool := ¬ file.oldMode.any isGitlink ∧ ¬ file.newMode.any isGitlink

/-- `populate_gitlink_stats`. -/
def populateGitlinkStats (file : DiffFile) : DiffFile :=
  { file with
    additions := some (if file.newOid.isSome then 1 else 0)
    deletions := some (if file.oldOid.isSome then 1 else 0) }

/-- `file_oids_overlap`. -/
def fileOidsOverlap (file : DiffFile) (oids : List Oid) : Bool :=
  file.oldOid.any (· ∈ oids) ∨ file.newOid.any (· ∈ oids)

/-- The state of the loop over the changes. -/
structure Population where
  files : List DiffFile := []
  warnings : List DiffWarning
  oversizeSkipped : ℕ
  used : Used := {}
  stoppedBy : Option String := none

namespace Population

/-- The state before the first change. -/
def ofOversize (rewriteOversize : List Oid) : Population where
  warnings := if rewriteOversize = [] then []
    else [⟨.oversizeSkipped, "rename candidate content suppressed by max_object_bytes"⟩]
  oversizeSkipped := rewriteOversize.length

variable (population : Population)

/-- The state when the content of a file is too large. -/
def noteOversize (rewriteOversize : List Oid) (file : DiffFile) : Population :=
  { population with
    oversizeSkipped := if fileOidsOverlap file rewriteOversize then population.oversizeSkipped
      else saturatingAdd population.oversizeSkipped 1
    warnings := if population.warnings.any (·.code = .oversizeSkipped) then population.warnings
      else population.warnings ++ [⟨.oversizeSkipped, "diff content suppressed by max_object_bytes"⟩] }

/-- The state behind a file. -/
def push (rewriteOversize : List Oid) (result : DiffFile × Used × PopulateOutcome) : Population :=
  let (file, used, outcome) := result
  let population := match outcome with
    | .complete => population
    | .oversize => population.noteOversize rewriteOversize file
    | .stopped limit => { population with stoppedBy := some limit }
  { population with files := population.files ++ [file], used }

end Population

/-- The body of the loop over the changes from the new file on. -/
def populateFile (gix : GixBlobDiff) (opts : DiffOptions) (file : DiffFile) (used : Used) :
    Query (DiffFile × Used × PopulateOutcome) :=
  if opts.format = .summary then return (file, used, .complete)
  else if needsContent file then populateContent gix opts file used
  else return (populateGitlinkStats file, used, .complete)

/-- The loop over the changes. -/
def populateFiles (gix : GixBlobDiff) (opts : DiffOptions) (rewriteOversize : List Oid) :
    List RawChange → Population → Query Population
  | [], population => return population
  | change :: changes, population => do
    Query.check
    let result ← populateFile gix opts change.intoFile population.used
    let population := population.push rewriteOversize result
    if population.stoppedBy.isSome then return population
    else populateFiles gix opts rewriteOversize changes population

/-! ### The diff -/

/-- `validate`. -/
def validate (baseInfo : StoreInfo) (base : Snapshot) (headInfo : StoreInfo) (head : Snapshot)
    (opts : DiffOptions) : Except Error Unit := do
  ensure (baseInfo.hashKind = headInfo.hashKind)
    (.new .hashMismatch "diff object stores use different hash algorithms")
  ensureQueryCompatible baseInfo base
  ensureQueryCompatible headInfo head
  ensure (base.commitOid.kind = head.commitOid.kind)
    (.new .hashMismatch "diff snapshots use different hash algorithms")
  ensure (opts.contextLines ≤ Search.maxContextLines)
    (.new .invalidArgument "diff context_lines must be between 0 and 32")
  ensure (opts.copies = false) ((Error.new .unsupportedOperation
    ("copy detection is disabled in 0.x because upstream copy tracking can score the post-image blob and " ++
      "suppress the modified source record")).withReason "upstream_post_image_copy_tracking_source_suppression")
  ensure (opts.maxDiffFiles ≠ 0 ∧ opts.maxDiffHunks ≠ 0 ∧ opts.maxDiffLines ≠ 0)
    (.new .invalidArgument "diff limits must be greater than zero")

/-- `finish`. -/
def finish (population : Population) (warnings : List DiffWarning) (stoppedBy : Option String) :
    StructuredDiff where
  files := population.files
  stats := {
    entriesEmitted := population.files.length
    stoppedBy
    filesScanned := population.files.length
    binarySkipped := population.files.countP (·.binary)
    oversizeSkipped := population.oversizeSkipped }
  warnings
  truncated := stoppedBy.isSome

/-- What `diff` makes of the populated files; `walkStoppedBy` is the limit of the walk. -/
def conclude (population : Population) (walkStoppedBy : Option String) : StructuredDiff :=
  let stoppedBy := population.stoppedBy.or walkStoppedBy
  finish population
    ((stoppedBy.map fun limit ↦ ⟨.truncated, s!"diff truncated by {limit}"⟩).toList ++ population.warnings)
    stoppedBy

/-- `diff` on the union of its stores. -/
def diffTrees (gix : Gitoxide) (fuel : ℕ) (base head : Oid) (opts : DiffOptions) : Query StructuredDiff := do
  Query.check
  if base = head then return finish ⟨[], [], 0, {}, none⟩ [] none
  else do
    let state ← walkTrees gix fuel opts.toTreeDiffOptions base head
    let population ← populateFiles gix.blobDiff opts state.adapter.oversize state.changes
      (.ofOversize state.adapter.oversize)
    return conclude population state.stoppedBy

/-- `diff.rs` `diff` of two immutable stores, whose union is asked; `fuel` bounds the depth of the trees that are
projected. -/
def diff (gix : Gitoxide) (fuel : ℕ) (baseStore : ObjectDb) (base : Snapshot) (headStore : ObjectDb)
    (head : Snapshot) (opts : DiffOptions) : Outcome Error StructuredDiff := do
  Outcome.ofExcept (validate baseStore.toStoreInfo base headStore.toStoreInfo head opts)
  let union ← Outcome.ofExcept (UnionObjectDb.new headStore baseStore)
  union.toObjectDb.eval (diffTrees gix fuel base.treeOid head.treeOid opts)

end Gitility.Diff
