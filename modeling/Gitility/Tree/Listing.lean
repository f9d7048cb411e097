import Gitility.Cursor.Codec
import Gitility.Tree.Entries

/-!
# Tree listings

`list_tree` of `crates/gitility-core/src/tree.rs`, with the pathspec matcher of
`crates/gitility-core/src/pathspec.rs`. The walk keeps a stack of directories and emits the
selected entries whose path is greater, byte by byte, than the one its cursor names.
-/

namespace Gitility

/-- `tree.rs` `TypeFilter`. -/
structure TypeFilter where
  bits : UInt8
  deriving DecidableEq

/-- `TypeFilter::ALL`. -/
def TypeFilter.all : TypeFilter := ⟨0b1111⟩

/-- `TypeFilter::contains`. -/
def TypeFilter.contains (types : TypeFilter) (kind : TreeItemKind) : Bool :=
  let flag : UInt8 := match kind with
    | .blob => 0b0001
    | .tree => 0b0010
    | .symlink => 0b0100
    | .gitlink => 0b1000
  types.bits &&& flag ≠ 0

/-- The part of `tree.rs` `TreeOptions` that selects entries. -/
structure TreeQuery where
  path : Bytes := []
  recursive : Bool := false
  depth : Option ℕ := none
  types : TypeFilter := .all
  pathspecs : List Bytes := []
  includeSize : Bool := false

/-- `tree.rs` `TreeOptions`. -/
structure TreeOptions extends TreeQuery where
  limit : ℕ := 1000
  cursor : Option Bytes := none

/-- `tree.rs` `TreeItem`. -/
structure TreeItem where
  path : Bytes
  name : Bytes
  oid : Oid
  kind : TreeItemKind
  mode : ℕ
  size : Option ℕ
  deriving DecidableEq

/-- `tree.rs` `TreePage`. -/
structure TreePage where
  entries : List TreeItem
  nextCursor : Option Bytes
  truncated : Bool
  stats : QueryStats
  deriving DecidableEq

/-! ### Pathspecs -/

namespace Pathspec

/-- `strip_prefix(b":(glob)")`: the pattern and whether it was marked as a glob. -/
def stripGlob (pattern : Bytes) : Bytes × Bool :=
  if (Bytes.ascii ":(glob)").isPrefixOf pattern then (pattern.drop 7, true) else (pattern, false)

/-- The metacharacters `*`, `?` and `[`. -/
def isMeta (byte : UInt8) : Bool := byte ∈ [0x2a, 0x3f, 0x5b]

/-- `starts_with(left)` with a `/` behind it. -/
def isBelow (path left : Bytes) : Bool := left.isPrefixOf path ∧ path[left.length]? = some 0x2f

/-- `pathspec.rs` `matches`. -/
def matchesOne (gix : Gix) (path pattern : Bytes) : Bool :=
  let (pattern, forceGlob) := stripGlob pattern
  if ¬ forceGlob ∧ ¬ pattern.any isMeta then path = pattern ∨ isBelow path pattern
  else gix.wildmatch pattern path

/-- `PathspecMatcher::matches`. -/
def matchesPath (gix : Gix) (patterns : List Bytes) (path : Bytes) : Bool :=
  patterns = [] ∨ patterns.any (matchesOne gix path)

/-- `pathspec.rs` `path_prefixes_overlap`. -/
def pathPrefixesOverlap (left right : Bytes) : Bool :=
  left = right ∨ isBelow left right ∨ isBelow right left

/-- `pathspec.rs` `pattern_may_match_descendant`. -/
def patternMayMatchDescendant (directory pattern : Bytes) : Bool :=
  let (pattern, forceGlob) := stripGlob pattern
  let firstMeta := pattern.findIdx? isMeta
  if ¬ forceGlob ∧ firstMeta.isNone then pathPrefixesOverlap pattern directory
  else
    let fixed := pattern.take (firstMeta.getD pattern.length)
    match Bytes.rposition (· = 0x2f) fixed with
    | none => true
    | some lastSlash => pathPrefixesOverlap (fixed.take lastSlash) directory

/-- `PathspecMatcher::may_match_descendant`. -/
def mayMatchDescendant (patterns : List Bytes) (directory : Bytes) : Bool :=
  patterns = [] ∨ patterns.any (patternMayMatchDescendant directory)

end Pathspec

namespace ListTree

/-- `tree.rs` `push_bytes`. -/
def pushBytes (bytes : Bytes) : Bytes := Bytes.toLe 4 (min bytes.length u32Max) ++ bytes

/-- `tree.rs` `option_fingerprint`. -/
def optionFingerprint (query : TreeQuery) : UInt64 :=
  let depth := match query.depth with
    | some depth => 1 :: Bytes.toLe 4 depth
    | none => [0]
  Cursor.fnv1a64 (Bytes.ascii "gitility:list_tree:options:v1" ++ [0] ++ pushBytes query.path ++
    [if query.recursive then 1 else 0] ++ depth ++ [query.types.bits] ++
    Bytes.toLe 4 (min query.pathspecs.length u32Max) ++ query.pathspecs.flatMap pushBytes ++
    [if query.includeSize then 1 else 0])

/-- The identity the cursors of a listing carry. -/
def expected (snapshot : Snapshot) (query : TreeQuery) : Cursor.Expected where
  hashKind := snapshot.commitOid.kind
  snapshotDigest := snapshot.commitOid.bytes
  operationTag := Cursor.operationListTree
  optionFingerprint := optionFingerprint query

/-- `tree.rs` `validate_cursor_position`. -/
def validateCursorPosition (position base : Bytes) : Except Error Unit :=
  if position = [] then .ok ()
  else do
    (validatePath position).mapError fun _ ↦ Cursor.invalid "position path check failed"
    ensure (base = [] ∨ (base.isPrefixOf position ∧ position[base.length]? = some 0x2f ∧
        base.length + 1 < position.length))
      (Cursor.invalid "position path is outside the listed tree")

/-- The position `list_tree` resumes behind; empty without a cursor. -/
def decodeResume (snapshot : Snapshot) (opts : TreeOptions) : Except Error Bytes :=
  match opts.cursor with
  | none => .ok []
  | some bytes => do
    let decoded ← Cursor.decode bytes (expected snapshot opts.toTreeQuery)
    ensure (decoded.generation = [])
      (Cursor.invalid "generation check failed for this object store")
    validateCursorPosition decoded.position opts.path
    return decoded.position

/-- `max_depth`. -/
def maxDepth (query : TreeQuery) : ℕ :=
  if query.recursive then query.depth.getD u32Max else 1

/-- `should_descend`. -/
def shouldDescend (query : TreeQuery) (path : Bytes) (entry : OwnedTreeEntry) (depth : ℕ) : Bool :=
  entry.kind = .tree ∧ query.recursive ∧ depth < maxDepth query ∧
    Pathspec.mayMatchDescendant query.pathspecs (relativeToScope path query.path)

/-- Whether an entry is selected, wherever the page begins. -/
def selects (gix : Gix) (query : TreeQuery) (path : Bytes) (entry : OwnedTreeEntry) : Bool :=
  query.types.contains entry.kind ∧
    Pathspec.matchesPath gix query.pathspecs (relativeToScope path query.path)

/-- `should_emit`. -/
def shouldEmit (gix : Gix) (query : TreeQuery) (resume path : Bytes) (entry : OwnedTreeEntry) :
    Bool :=
  selects gix query path entry ∧ (resume = [] ∨ resume < path)

/-- The size of a listed blob or symlink, from its header. -/
def headerSize (oid : Oid) : Option HeaderRead → Except Error ℕ
  | none => .error (missingObject oid "listed entry")
  | some read =>
    if read.header.kind = .blob then .ok read.header.size
    else .error (match read.provenance with
      | .unverifiedProvider =>
        .new .providerProtocolError "provider header contradicts tree entry kind"
      | .verified => malformed s!"listed blob {oid} addresses a non-blob object")

/-- The size of an emitted entry. -/
def entrySize (query : TreeQuery) (entry : OwnedTreeEntry) : Query (Option ℕ) :=
  if query.includeSize ∧ (entry.kind = .blob ∨ entry.kind = .symlink) then do
    let read ← Query.tryHeaderWithProvenance entry.oid
    let size ← Program.ofExcept (headerSize entry.oid read)
    return some size
  else pure none

/-- The charge and the item of an emitted entry. -/
def emitItem (query : TreeQuery) (path : Bytes) (entry : OwnedTreeEntry) : Query TreeItem := do
  Query.chargeTreeEntry
  let size ← entrySize query entry
  return ⟨path, entry.name, entry.oid, entry.kind, entry.mode, size⟩

/-- `tree.rs` `WalkOutcome`. -/
inductive WalkOutcome where
  | complete
  | stopped (limit : String)
  deriving DecidableEq

/-- A `Frame` of `walk_tree`; `directory` is its `prefix`. -/
structure Frame where
  entries : List OwnedTreeEntry
  directory : Bytes
  depth : ℕ

/-- What an entry of the walk leads to: the rest of the stack, or the end of the walk. -/
inductive Visit where
  | go (stack : List Frame)
  | stop (outcome : Except Error WalkOutcome)

/-- The descent into a visited tree. -/
def descend (gix : Gix) (info : StoreInfo) (query : TreeQuery) (path : Bytes)
    (entry : OwnedTreeEntry) (depth : ℕ) (stack : List Frame) : Query Visit :=
  if shouldDescend query path entry depth then do
    match ← (readTreeEntriesForWalk gix info query.recursive entry.oid).attempt with
    | .error error => return .stop (.error error)
    | .ok children => return .go (⟨children, path, min (depth + 1) u32Max⟩ :: stack)
  else pure (.go stack)

/-- The loop body of `walk_tree` for one entry, which may add an item. -/
def visitEntry (gix : Gix) (info : StoreInfo) (opts : TreeOptions) (resume path : Bytes)
    (entry : OwnedTreeEntry) (depth : ℕ) (stack : List Frame) (items : List TreeItem) :
    Query (List TreeItem × Visit) :=
  if shouldEmit gix opts.toTreeQuery resume path entry then
    if items.length = opts.limit then pure (items, .stop (.ok (.stopped "limit")))
    else do
      match ← (emitItem opts.toTreeQuery path entry).attempt with
      | .error error => return (items, .stop (.error error))
      | .ok item => do
        let visit ← descend gix info opts.toTreeQuery path entry depth stack
        return (items ++ [item], visit)
  else do
    let visit ← descend gix info opts.toTreeQuery path entry depth stack
    return (items, visit)

/-- The loop of `walk_tree`. An error leaves the items that were collected before it. -/
def walkTree (gix : Gix) (info : StoreInfo) (opts : TreeOptions) (resume : Bytes) :
    ℕ → List Frame → List TreeItem → Query (List TreeItem × Except Error WalkOutcome)
  | 0, _, _ => Program.diverge
  | _ + 1, [], items => pure (items, .ok .complete)
  | fuel + 1, frame :: stack, items => do
    match ← Query.check.attempt with
    | .error error => return (items, .error error)
    | .ok _ =>
      match frame.entries with
      | [] => walkTree gix info opts resume fuel stack items
      | entry :: rest => do
        let (items, visit) ← visitEntry gix info opts resume (joinPath frame.directory entry.name)
          entry frame.depth ({ frame with entries := rest } :: stack) items
        match visit with
        | .go stack => walkTree gix info opts resume fuel stack items
        | .stop outcome => return (items, outcome)

/-- `walk_tree` from the listed tree on. -/
def walkFrom (gix : Gix) (info : StoreInfo) (opts : TreeOptions) (resume : Bytes) (fuel : ℕ)
    (treeOid : Oid) : Query (List TreeItem × Except Error WalkOutcome) := do
  if maxDepth opts.toTreeQuery = 0 then return ([], .ok .complete)
  else do
    match ← (readTreeEntriesForWalk gix info opts.recursive treeOid).attempt with
    | .error error => return ([], .error error)
    | .ok entries => walkTree gix info opts resume fuel [⟨entries, opts.path, 1⟩] []

/-- What `list_tree` makes of an error of its walk. -/
def stoppedBy : Except Error WalkOutcome → Except Error (Option String)
  | .ok .complete => .ok none
  | .ok (.stopped limit) => .ok (some limit)
  | .error error =>
    if truncatable error then .ok (some (error.limit.getD "budget")) else .error error

/-- The continuation of a stopped page. -/
def continuation (snapshot : Snapshot) (query : TreeQuery) (items : List TreeItem)
    (limit : String) : Except Error Bytes :=
  match items.getLast? with
  | none => .error ((Error.new .budgetExceeded
      "budget exhausted before any pagination progress").withLimit limit)
  | some last => do
    let encoded := Cursor.encode
      { expected snapshot query with generation := [], position := last.path }
    ensure (encoded.length ≤ Cursor.maxCursorBytes)
      (.new .resultTooLarge "tree continuation path exceeds the cursor size limit")
    return encoded

/-- The page of a finished walk. -/
def closePage (snapshot : Snapshot) (query : TreeQuery) (items : List TreeItem)
    (outcome : Except Error WalkOutcome) : Except Error TreePage := do
  let stopped ← stoppedBy outcome
  let nextCursor ← stopped.mapM (continuation snapshot query items)
  return ⟨items, nextCursor, stopped.isSome, ⟨items.length, stopped⟩⟩

/-- `tree.rs` `list_tree`. -/
def listTree (gix : Gix) (fuel : ℕ) (info : StoreInfo) (snapshot : Snapshot)
    (opts : TreeOptions) : Query TreePage := do
  Program.ofExcept (ensureQueryCompatible info snapshot)
  Program.ofExcept (validatePath opts.path)
  Program.ofExcept (ensure (opts.limit ≠ 0)
    (.new .invalidArgument "tree page limit must be greater than zero"))
  let resume ← Program.ofExcept (decodeResume snapshot opts)
  let resolved ← resolvePath gix info snapshot opts.path
  let treeOid ← Program.ofExcept resolved.treeOid
  let (items, outcome) ← walkFrom gix info opts resume fuel treeOid
  Program.ofExcept (closePage snapshot opts.toTreeQuery items outcome)

end ListTree
end Gitility
