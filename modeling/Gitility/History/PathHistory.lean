import Gitility.History.Log
import Gitility.Tree.Entries

/-!
# Path history

`crates/gitility-core/src/path_history.rs`. The chronological walk is replayed from the start,
and the tracked path moves to its rename source wherever a comparison reports one, also on
commits that a page skips. The two tree comparisons of `path_change` are `diff` of
`crates/gitility-core/src/diff.rs`, which is a parameter: a query on the store that reads
nothing of the shallow boundary.
-/

namespace Gitility.PathHistory

/-- `path_history.rs` `HistoryOptions`. -/
structure HistoryOptions where
  followRenames : Bool := true
  limit : ℕ := 1000
  cursor : Option Bytes := none

/-- `diff.rs` `DiffStatus`. -/
inductive DiffStatus where
  | added
  | deleted
  | modified
  | renamed
  | copied
  | typeChanged
  deriving DecidableEq

/-- The part of a `diff.rs` `DiffFile` that `path_change` reads. -/
structure DiffFile where
  status : DiffStatus
  oldPath : Option Bytes
  newPath : Option Bytes
  deriving DecidableEq

/-- The part of a `diff.rs` result that `path_change` reads. -/
structure DiffResult where
  files : List DiffFile
  oversizeSkipped : ℕ
  deriving DecidableEq

/-- The two comparisons `path_change` asks for: the tracked path alone, or every addition and
deletion with rename detection by similarity. -/
inductive Comparison where
  | focused (path : Bytes)
  | renames
  deriving DecidableEq

/-- `diff` between two snapshots of one store. -/
abbrev Diff := HashKind → Bool → Snapshot → Snapshot → Comparison → Query DiffResult

/-- `path_history.rs` `PathChange`. -/
structure PathChange where
  changed : Bool
  renameSource : Option Bytes
  deriving DecidableEq

/-- `path_change` at a root: whether the path names an entry. -/
def rootChange : Except Error ResolvedPath → Except Error PathChange
  | .ok (.entry ..) => .ok ⟨true, none⟩
  | .ok (.rootTree _) => .ok ⟨false, none⟩
  | .error error => if error.code = .invalidPath then .ok ⟨false, none⟩ else .error error

/-- The rename source of an added path, from the comparison with rename detection. -/
def renameChange (path : Bytes) (rewritten : DiffResult) : Except Error PathChange := do
  ensure (rewritten.oversizeSkipped = 0)
    ((Error.new .objectTooLarge
      "path-history rename candidates exceed max_object_bytes").withLimit "max_object_bytes")
  let source := rewritten.files.find? fun file ↦
    file.status = .renamed ∧ file.newPath = some path
  return ⟨true, source.bind DiffFile.oldPath⟩

/-- `path_history.rs` `path_change`. -/
def pathChange (gix : Gix) (diff : Diff) (info : StoreInfo) (followRenames : Bool)
    (commit : LogCommit) (path : Bytes) : Query PathChange :=
  match commit.parents.head? with
  | none => do
    let resolved ← (resolvePath gix info ⟨commit.id, commit.treeId⟩ path).attempt
    Program.ofExcept (rootChange resolved)
  | some parentId => do
    let payload ← readPayload parentId false
    let parent ← Program.ofExcept (decodeLogCommit parentId payload (info.isShallow parentId))
    let base : Snapshot := ⟨parent.id, parent.treeId⟩
    let head : Snapshot := ⟨commit.id, commit.treeId⟩
    let focused ← diff info.hashKind info.supportsPrefetch base head (.focused path)
    match focused.files.head? with
    | none => return ⟨false, none⟩
    | some file =>
      if file.status ≠ .added ∨ ¬ followRenames then return ⟨true, none⟩
      else do
        let rewritten ← diff info.hashKind info.supportsPrefetch base head .renames
        Program.ofExcept (renameChange path rewritten)

/-- The closure `load_change`. -/
def loadChange (gix : Gix) (diff : Diff) (info : StoreInfo) (followRenames : Bool)
    (trackedPath : Bytes) (id : Oid) : Query (LogCommit × PathChange) := do
  let payload ← readPayload id false
  let commit ← Program.ofExcept (decodeLogCommit id payload (info.isShallow id))
  let change ← pathChange gix diff info followRenames commit trackedPath
  return (commit, change)

/-- `budget.without_object_recharge` around the replayed prefix. -/
def replaying {α : Type} (foundResume : Bool) (query : Query α) : Query α :=
  if foundResume then query else query.withoutObjectRecharge

/-- `path_history.rs` `option_fingerprint`. -/
def optionFingerprint (path : Bytes) (followRenames : Bool) : UInt64 :=
  Cursor.fnv1a64 (Bytes.ascii "history-v1" ++ [0] ++ Bytes.toLe 8 path.length ++ path ++
    [if followRenames then 1 else 0])

/-- The identity the cursors of a path history carry. -/
def expected (snapshot : Snapshot) (path : Bytes) (followRenames : Bool) : Cursor.Expected where
  hashKind := snapshot.commitOid.kind
  snapshotDigest := snapshot.commitOid.bytes
  operationTag := Cursor.operationHistory
  optionFingerprint := optionFingerprint path followRenames

/-- The messages of `history`. -/
def messages : PageMessages where
  notFound := "position check failed: commit is not an emitted history commit"
  noProgress := "budget exhausted before any path-history pagination progress"
  tooLarge := "history cursor exceeds the cursor size limit"

/-- The options of the walk: chronological, without bounds. -/
def walkOptions : WalkOptions := {}

/-- The loop of `history`. -/
def collect (gix : Gix) (diff : Diff) (info : StoreInfo) (opts : HistoryOptions)
    (resume : Option Oid) : ℕ → Walk → Bytes → Bool → List LogCommit → Query Collected
  | 0, _, _, _, _ => Program.diverge
  | fuel + 1, walk, trackedPath, foundResume, commits => do
    Query.check
    match ← replaying foundResume (walk.next info walkOptions foundResume) with
    | (none, _) => return ⟨foundResume, commits, none⟩
    | (some (.error error), _) => stopOn error foundResume commits
    | (some (.ok walked), walk) => do
      match ← (replaying foundResume
          (loadChange gix diff info opts.followRenames trackedPath walked.id)).attempt with
      | .error error => stopOn error foundResume commits
      | .ok (commit, change) =>
        let trackedPath := change.renameSource.getD trackedPath
        if change.changed ∧ ¬ foundResume then
          collect gix diff info opts resume fuel walk trackedPath (some walked.id = resume) commits
        else if change.changed ∧ commits.length = opts.limit then
          return ⟨foundResume, commits, some "limit"⟩
        else
          let commits := if change.changed then commits ++ [commit] else commits
          match walk.pendingError with
          | some error => stopOn error foundResume commits
          | none => collect gix diff info opts resume fuel walk trackedPath foundResume commits

/-- `path_history.rs` `history`. -/
def history (gix : Gix) (diff : Diff) (fuel : ℕ) (info : StoreInfo) (snapshot : Snapshot)
    (path : Bytes) (opts : HistoryOptions) : Query LogPage := do
  Program.ofExcept (ensureSha1 info [snapshot.commitOid, snapshot.treeOid])
  Program.ofExcept (validateLiteralPath path "history")
  Program.ofExcept (ensure (path ≠ [])
    (.new .invalidPath "history path must name a repository entry"))
  Program.ofExcept (ensure (opts.limit ≠ 0)
    (.new .invalidArgument "history page limit must be greater than zero"))
  Query.check
  let expected := expected snapshot path opts.followRenames
  let resume ← Program.ofExcept (opts.cursor.mapM
    fun bytes ↦ decodeResume bytes expected snapshot.commitOid.kind)
  let walk ← replaying resume.isNone (Walk.new fuel info snapshot.commitOid walkOptions)
  let collected ← collect gix diff info opts resume fuel walk path resume.isNone []
  Program.ofExcept (closePage expected messages collected)

end Gitility.PathHistory
