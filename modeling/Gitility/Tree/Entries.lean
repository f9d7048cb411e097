import Gitility.Store.ObjectDb

/-!
# Tree objects and path resolution

The tree reader of `crates/gitility-core/src/decode.rs` and the parts of
`crates/gitility-core/src/tree.rs` that read one tree and resolve a path in a snapshot. The
entries of a payload are parsed by `gix_object::TreeRefIter`, which is a parameter: for each of
its items it gives the bytes left before the item, and the item or a parse error.
-/

namespace Gitility

/-- `tree.rs` `TreeItemKind`. -/
inductive TreeItemKind where
  | blob
  | tree
  | symlink
  | gitlink
  deriving DecidableEq, Repr

/-- `decode.rs` `TreeEntry`. -/
structure TreeEntry where
  mode : ℕ
  name : Bytes
  oid : Oid
  deriving DecidableEq

/-- `tree.rs` `OwnedTreeEntry`. -/
structure OwnedTreeEntry extends TreeEntry where
  kind : TreeItemKind
  deriving DecidableEq

/-- The functions of the `gix` crates that the tree queries call. -/
structure Gix where
  /-- `gix_object::TreeRefIter`, run to its end or to its first error. -/
  treeRefIter : HashKind → Bytes → List (Bytes × Option TreeEntry)
  /-- `gix_glob::wildmatch` with `NO_MATCH_SLASH_LITERAL`. -/
  wildmatch : Bytes → Bytes → Bool

/-! ### Decoding -/

/-- The mode check `TreeIter::next` makes before each item. -/
def validMode (remaining : Bytes) : Bool :=
  match remaining.findIdx? (· = 0x20) with
  | some stop =>
    let mode := remaining.take stop
    mode ≠ [] ∧ mode.length ≤ 6 ∧ mode.any (· ≠ 0x30)
  | none => false

/-- One item of `decode_tree`. -/
def decodeTreeItem (remaining : Bytes) (item : Option TreeEntry) : Except Error TreeEntry := do
  ensure (remaining = [] ∨ validMode remaining) (malformed "tree entry mode is malformed")
  item.elim (.error (malformed "tree payload is malformed")) .ok

/-- `tree.rs` `kind_from_mode`. -/
def kindFromMode (mode : ℕ) : Except Error TreeItemKind :=
  match mode &&& 0o170000 with
  | 0o040000 => .ok .tree
  | 0o100000 => .ok .blob
  | 0o120000 => .ok .symlink
  | 0o160000 => .ok .gitlink
  | _ =>
    let octal := String.ofList (Nat.toDigits 8 mode)
    .error (malformed s!"tree entry has unsupported mode {octal}")

/-- `tree.rs` `validate_tree_name`. -/
def validateTreeName (name : Bytes) : Except Error Unit :=
  ensure (name ≠ [] ∧ 0 ∉ name ∧ 0x2f ∉ name ∧ name ≠ [0x2e] ∧ name ≠ [0x2e, 0x2e])
    (malformed "tree entry name is malformed")

/-- The closure `read_tree_entries` maps over the decoded items. -/
def ownTreeEntry (remaining : Bytes) (item : Option TreeEntry) : Except Error OwnedTreeEntry := do
  let entry ← decodeTreeItem remaining item
  validateTreeName entry.name
  let kind ← kindFromMode entry.mode
  return { entry with kind }

/-- `tree.rs` `decode_owned_tree_entries`, whose body `read_tree_entries` has as well. -/
def decodeOwnedTreeEntries (gix : Gix) (payload : Bytes) (hashKind : HashKind) :
    Except Error (List OwnedTreeEntry) :=
  (gix.treeRefIter hashKind payload).mapM fun (remaining, item) ↦ ownTreeEntry remaining item

/-! ### Paths -/

/-- `tree.rs` `validate_path`, segment by segment. -/
def validateSegment (segment : Bytes) : Except Error Unit := do
  ensure (segment ≠ [0x2e] ∧ segment ≠ [0x2e, 0x2e])
    (.new .invalidPath "path contains a semantic dot segment")
  ensure (segment ≠ []) (.new .invalidPath "path contains an empty segment")

/-- `tree.rs` `validate_path`. -/
def validatePath (path : Bytes) : Except Error Unit := do
  ensure (0 ∉ path) (.new .invalidPath "path contains a NUL byte")
  if path = [] then return () else (path.splitOn 0x2f).forM validateSegment

private theorem code_validateSegment {segment : Bytes} {e : Error}
    (h : validateSegment segment = .error e) : e.code = .invalidPath := by
  simp only [validateSegment, Except.bind_eq_error, ensure_eq_error] at h
  rcases h with ⟨-, rfl⟩ | ⟨-, -, -, rfl⟩ <;> rfl

private theorem code_forM_validateSegment {segments : List Bytes} {e : Error}
    (h : segments.forM validateSegment = .error e) : e.code = .invalidPath := by
  induction segments with
  | nil => cases h
  | cons segment segments ih =>
    unfold List.forM at h
    rw [Except.bind_eq_error] at h
    rcases h with h | ⟨-, -, h⟩
    · exact code_validateSegment h
    · exact ih h

/-- Every error of the path check is an invalid path. -/
theorem code_validatePath {path : Bytes} {e : Error} (h : validatePath path = .error e) :
    e.code = .invalidPath := by
  simp only [validatePath, Except.bind_eq_error, ensure_eq_error] at h
  rcases h with ⟨-, rfl⟩ | ⟨-, -, h⟩
  · rfl
  · split at h
    · cases h
    · exact code_forM_validateSegment h

/-- `tree.rs` `validate_literal_path`. -/
def validateLiteralPath (path : Bytes) (operation : String) : Except Error Unit := do
  validatePath path
  ensure (¬ (Bytes.ascii ":(").isPrefixOf path ∧ ∀ byte ∈ path, byte ∉ [0x2a, 0x3f, 0x5b])
    ((Error.new .invalidArgument s!"{operation} path must be literal, not a pathspec").withReason
      "pathspec_not_literal")

/-- `tree.rs` `join_path`. -/
def joinPath (directory name : Bytes) : Bytes :=
  if directory = [] then name else directory ++ 0x2f :: name

/-- `tree.rs` `relative_to_scope`. -/
def relativeToScope (path scope : Bytes) : Bytes :=
  if scope = [] then path else path.drop (scope.length + 1)

/-- `tree.rs` `path_not_found`. -/
def pathNotFound : Error := .new .invalidPath "path does not exist in this snapshot"

/-- `tree.rs` `missing_object`. -/
def missingObject (oid : Oid) (role : String) : Error :=
  .new .missingObject s!"{role} object {oid} is missing from the object store"

/-- `tree.rs` `ensure_query_compatible`. -/
def ensureQueryCompatible (info : StoreInfo) (snapshot : Snapshot) : Except Error Unit := do
  ensure (info.hashKind ≠ .sha256)
    (.new .unsupportedHash "SHA-256 query execution not yet supported")
  ensure (snapshot.commitOid.kind = info.hashKind ∧ snapshot.treeOid.kind = info.hashKind)
    (.new .invalidOid "snapshot object ID algorithm does not match the object store")

/-! ### Reads -/

/-- The checks `read_tree_entries` makes on what the store found. -/
def treeEntriesOf (gix : Gix) (info : StoreInfo) (oid : Oid) (found : Option Object) :
    Except Error (List OwnedTreeEntry) :=
  match found with
  | none => .error (missingObject oid "tree")
  | some (kind, payload) => do
    ensure (kind = .tree) (.new .notATree s!"tree object {oid} is not a tree")
    decodeOwnedTreeEntries gix payload info.hashKind

/-- `tree.rs` `read_tree_entries`. -/
def readTreeEntries (gix : Gix) (info : StoreInfo) (oid : Oid) : Query (List OwnedTreeEntry) := do
  let found ← Query.tryFind oid
  Program.ofExcept (treeEntriesOf gix info oid found)

/-- `tree.rs` `read_tree_entries_graph`. -/
def readTreeEntriesGraph (gix : Gix) (info : StoreInfo) (oid : Oid) :
    Query (List OwnedTreeEntry) := do
  let found ← Query.tryFindGraph oid
  Program.ofExcept (treeEntriesOf gix info oid found)

/-- The child trees `read_tree_entries_for_walk` hints at. -/
def childTrees (entries : List OwnedTreeEntry) : List Oid :=
  (entries.filter (·.kind = .tree)).map (·.oid)

/-- The hint of `read_tree_entries_for_walk`; nothing is hinted without child trees. -/
def prefetchTrees (info : StoreInfo) (prefetchChildren : Bool) (entries : List OwnedTreeEntry) :
    Query Unit :=
  if prefetchChildren ∧ info.supportsPrefetch ∧ childTrees entries ≠ [] then
    Query.prefetch (childTrees entries)
  else pure ()

/-- `tree.rs` `read_tree_entries_for_walk`. -/
def readTreeEntriesForWalk (gix : Gix) (info : StoreInfo) (prefetchChildren : Bool) (oid : Oid) :
    Query (List OwnedTreeEntry) := do
  let entries ← readTreeEntries gix info oid
  prefetchTrees info prefetchChildren entries
  return entries

/-- `tree.rs` `read_tree_entries_for_graph_walk`. -/
def readTreeEntriesForGraphWalk (gix : Gix) (info : StoreInfo) (oid : Oid) :
    Query (List OwnedTreeEntry) := do
  let entries ← readTreeEntriesGraph gix info oid
  prefetchTrees info true entries
  return entries

/-! ### Resolution -/

/-- `tree.rs` `ResolvedPath`; an entry keeps its mode, object and kind. -/
inductive ResolvedPath where
  | rootTree (oid : Oid)
  | entry (mode : ℕ) (oid : Oid) (kind : TreeItemKind)

/-- The loop of `resolve_path` over the remaining segments. -/
def resolveSegments (read : Oid → Query (List OwnedTreeEntry)) (treeOid : Oid) :
    List Bytes → Query ResolvedPath
  | [] => Program.fail pathNotFound
  | segment :: segments => do
    let entries ← read treeOid
    match entries.find? (·.name = segment) with
    | none => Program.fail pathNotFound
    | some entry =>
      if segments = [] then return .entry entry.mode entry.oid entry.kind
      else if entry.kind ≠ .tree then Program.fail pathNotFound
      else resolveSegments read entry.oid segments

/-- `tree.rs` `resolve_path` and `resolve_path_for_graph_walk`, which differ in the read. -/
def resolvePathWith (read : Oid → Query (List OwnedTreeEntry)) (snapshot : Snapshot)
    (path : Bytes) : Query ResolvedPath := do
  Program.ofExcept (validatePath path)
  if path = [] then return .rootTree snapshot.treeOid
  else resolveSegments read snapshot.treeOid (path.splitOn 0x2f)

/-- `tree.rs` `resolve_path`. -/
def resolvePath (gix : Gix) (info : StoreInfo) (snapshot : Snapshot) (path : Bytes) :
    Query ResolvedPath :=
  resolvePathWith (readTreeEntries gix info) snapshot path

/-- `tree.rs` `resolve_path_for_graph_walk`. -/
def resolvePathForGraphWalk (gix : Gix) (info : StoreInfo) (snapshot : Snapshot) (path : Bytes) :
    Query ResolvedPath :=
  resolvePathWith (readTreeEntriesGraph gix info) snapshot path

/-- The tree a listing or a search starts from. -/
def ResolvedPath.treeOid : ResolvedPath → Except Error Oid
  | .rootTree oid => .ok oid
  | .entry _ oid kind => do
    ensure (kind = .tree) (.new .notATree "path does not resolve to a tree")
    return oid

/-! ### A tree reader -/

/-- The entry at the front of a SHA-1 tree payload: mode, name and object. -/
def sampleTreeEntry (bytes : Bytes) : Option (TreeEntry × Bytes) :=
  let (mode, rest) := bytes.span (· ≠ 0x20)
  let (name, rest) := (rest.drop 1).span (· ≠ 0)
  let digest := (rest.drop 1).take 20
  if h : digest.length = 20 then
    some (⟨mode.foldl (fun value digit ↦ 8 * value + (digit - 0x30).toNat) 0, name,
      ⟨.sha1, digest, h⟩⟩, (rest.drop 1).drop 20)
  else none

/-- The entries of a SHA-1 tree payload, up to one that is cut off. -/
def sampleTreeEntries : ℕ → Bytes → List (Bytes × Option TreeEntry)
  | 0, _ => []
  | fuel + 1, bytes =>
    if bytes = [] then []
    else match sampleTreeEntry bytes with
      | none => [(bytes, none)]
      | some (entry, rest) => (bytes, some entry) :: sampleTreeEntries fuel rest

/-- A reader of SHA-1 trees, for concrete runs without pathspecs. -/
def sampleGix : Gix where
  treeRefIter _ payload := sampleTreeEntries payload.length payload
  wildmatch _ _ := false

/-- The payload of a tree with these modes, names and objects. -/
def sampleTree (entries : List (String × String × UInt8)) : Bytes :=
  entries.flatMap fun (mode, name, byte) ↦
    Bytes.ascii mode ++ 0x20 :: Bytes.ascii name ++ 0 :: (sampleId byte).bytes

example : sampleTreeEntries 40 (sampleTree [("100644", "a", 7)]) =
    [(sampleTree [("100644", "a", 7)], some ⟨0o100644, [0x61], sampleId 7⟩)] := by
  decide

end Gitility
