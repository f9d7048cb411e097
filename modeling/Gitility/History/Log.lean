import Gitility.Cursor.Codec
import Gitility.History.Walk

/-!
# Commit log pages

`crates/gitility-core/src/log.rs` `log`. A page replays the walk from the snapshot's commit up
to the commit its cursor names, and then collects commits within the time bounds until the page
is full. Budget counters and cache statistics are left out of the page's statistics.
-/

namespace Gitility

/-- `log.rs` `LogPage`. -/
structure LogPage where
  commits : List LogCommit
  nextCursor : Option Bytes
  truncated : Bool
  stats : QueryStats
  deriving DecidableEq

/-- `log.rs` `decode_resume`, which `path_history.rs` has as well. -/
def decodeResume (bytes : Bytes) (expected : Cursor.Expected) (hashKind : HashKind) :
    Except Error Oid := do
  let decoded ← Cursor.decode bytes expected
  ensure (decoded.generation = [])
    (Cursor.invalid "generation check failed for this object store")
  (Oid.new hashKind decoded.position).mapError fun _ ↦
    Cursor.invalid "position check failed: commit digest has the wrong length"

/-- What a page loop leaves behind: whether it met the commit its cursor names, the commits it
collected and what stopped it. -/
structure Collected where
  foundResume : Bool
  commits : List LogCommit
  stoppedBy : Option String

/-- A truncatable error ends a page that has commits; any other error is returned. -/
def stopOn (error : Error) (foundResume : Bool) (commits : List LogCommit) : Query Collected :=
  if truncatable error ∧ commits ≠ [] then
    pure ⟨foundResume, commits, some (error.limit.getD "budget")⟩
  else Program.fail error

/-- The messages in which the pages of `log` and of `history` differ. -/
structure PageMessages where
  notFound : String
  noProgress : String
  tooLarge : String

/-- The cursor behind the last commit of a page. -/
def resumeAt (expected : Cursor.Expected) (id : Oid) : Cursor :=
  { expected with generation := [], position := id.bytes }

/-- The continuation of a stopped page; its last commit exists. -/
def continuation (expected : Cursor.Expected) (messages : PageMessages)
    (commits : List LogCommit) (stoppedBy : String) : Except Error Bytes :=
  match commits.getLast? with
  | none => .error ((Error.new .budgetExceeded messages.noProgress).withLimit stoppedBy)
  | some last => do
    let encoded := (resumeAt expected last.id).encode
    ensure (encoded.length ≤ Cursor.maxCursorBytes) (.new .resultTooLarge messages.tooLarge)
    return encoded

/-- The end of `log` and of `history`: the page for what was collected. -/
def closePage (expected : Cursor.Expected) (messages : PageMessages) (collected : Collected) :
    Except Error LogPage := do
  ensure collected.foundResume (Cursor.invalid messages.notFound)
  let nextCursor ← collected.stoppedBy.mapM (continuation expected messages collected.commits)
  return { commits := collected.commits, nextCursor, truncated := collected.stoppedBy.isSome,
           stats := ⟨collected.commits.length, collected.stoppedBy⟩ }

namespace Log

/-- `log.rs` `push_optional_i64`. -/
def optionalI64 : Option ℤ → Bytes
  | some value => 1 :: Bytes.toLe 8 (value % 2 ^ 64).toNat
  | none => [0]

/-- `log.rs` `option_fingerprint`. -/
def optionFingerprint (opts : WalkOptions) : UInt64 :=
  let order : UInt8 := match opts.order with
    | .chronological => 0
    | .topological => 1
    | .dateOrder => 2
  Cursor.fnv1a64 (Bytes.ascii "log-v1" ++ [0, order, if opts.firstParent then 1 else 0] ++
    optionalI64 opts.since ++ optionalI64 opts.untilTime)

/-- The identity the cursors of a log query carry. -/
def expected (snapshot : Snapshot) (opts : WalkOptions) : Cursor.Expected where
  hashKind := snapshot.commitOid.kind
  snapshotDigest := snapshot.commitOid.bytes
  operationTag := Cursor.operationLog
  optionFingerprint := optionFingerprint opts

/-- The messages of `log`. -/
def messages : PageMessages where
  notFound := "position check failed: commit is not in this traversal"
  noProgress := "budget exhausted before any commit-log pagination progress"
  tooLarge := "commit log cursor exceeds the cursor size limit"

/-- The loop of `log`. -/
def collect (info : StoreInfo) (opts : LogOptions) (resume : Option Oid) :
    ℕ → Walk → Bool → List LogCommit → Query Collected
  | 0, _, _, _ => Program.diverge
  | fuel + 1, walk, foundResume, commits => do
    Query.check
    match ← walk.next info opts.toWalkOptions foundResume with
    | (none, _) => return ⟨foundResume, commits, none⟩
    | (some (.error error), _) => stopOn error foundResume commits
    | (some (.ok walked), walk) =>
      if !foundResume then
        collect info opts resume fuel walk (some walked.id = resume) commits
      else if !withinTimeBounds walked.time opts.toWalkOptions then
        collect info opts resume fuel walk foundResume commits
      else if commits.length = opts.limit then
        return ⟨foundResume, commits, some "limit"⟩
      else do
        match ← (readPayload walked.id false).attempt with
        | .error error => stopOn error foundResume commits
        | .ok payload =>
          let decoded ← Program.ofExcept
            (decodeLogCommit walked.id payload (info.isShallow walked.id))
          match walk.pendingError with
          | some error => stopOn error foundResume (commits ++ [decoded])
          | none =>
            if (commits ++ [decoded]).length = opts.limit ∧
                walk.hasMatching opts.toWalkOptions then
              return ⟨foundResume, commits ++ [decoded], some "limit"⟩
            else collect info opts resume fuel walk foundResume (commits ++ [decoded])

/-- `log.rs` `log`. -/
def log (fuel : ℕ) (info : StoreInfo) (snapshot : Snapshot) (opts : LogOptions) :
    Query LogPage := do
  Program.ofExcept (ensureSha1 info [snapshot.commitOid, snapshot.treeOid])
  Program.ofExcept (ensure (opts.limit ≠ 0)
    (.new .invalidArgument "commit log page limit must be greater than zero"))
  Query.check
  let expected := expected snapshot opts.toWalkOptions
  let resume ← Program.ofExcept (opts.cursor.mapM
    fun bytes ↦ decodeResume bytes expected snapshot.commitOid.kind)
  let walk ← Walk.new fuel info snapshot.commitOid opts.toWalkOptions
  let collected ← collect info opts resume fuel walk resume.isNone []
  Program.ofExcept (closePage expected messages collected)

end Log
end Gitility
