import Gitility.Provider.ProviderOdb
import Gitility.Tree.Pruning

/-!
# Projecting trees for a path-limited diff

`project_diff_trees` of `crates/gitility-core/src/diff.rs` and the stores it works between. A tree is
written again with the entries that the pathspecs select: a subtree is replaced by its own projection,
which is kept under its new ID for the diff to find, and is left out when nothing of it is left. The
projections of both sides of a diff share their memory.
-/

namespace Gitility

/-! ### The stores of a diff -/

/-- `diff.rs` `UnionObjectDb`. -/
structure UnionObjectDb where
  head : ObjectDb
  base : ObjectDb

namespace UnionObjectDb

/-- `UnionObjectDb::new`. -/
def new (head base : ObjectDb) : Except Error UnionObjectDb := do
  ensure (head.hashKind = base.hashKind)
    (.new .hashMismatch "diff object stores use different hash algorithms")
  return ⟨head, base⟩

/-- `UnionObjectDb::try_header_with_provenance`. -/
def tryHeaderWithProvenance (store : UnionObjectDb) (oid : Oid) : Except Error (Option HeaderRead) := do
  match ← store.head.tryHeaderWithProvenance oid with
  | some header => return some header
  | none => store.base.tryHeaderWithProvenance oid

/-- `UnionObjectDb::try_find`. -/
def tryFind (store : UnionObjectDb) (oid : Oid) : Except Error (Option Object) := do
  match ← store.head.tryFind oid with
  | some object => return some object
  | none => store.base.tryFind oid

/-- The calls of a diff on its two stores; it makes no others. -/
def toObjectDb (store : UnionObjectDb) : ObjectDb where
  hashKind := store.head.hashKind
  tryHeaderWithProvenance := store.tryHeaderWithProvenance
  tryFind := store.tryFind
  tryFindManyBounded oids readBudget := ObjectDb.findEach store.tryFind readBudget 0 oids

end UnionObjectDb

namespace Diff

/-- `diff.rs` `mode_type`. -/
def modeType (mode : ℕ) : ℕ := mode &&& 0o170000

/-- `mode_type(mode) == 0o040000`. -/
def isTree (mode : ℕ) : Bool := modeType mode = 0o040000

/-- `diff.rs` `missing_object`. -/
def missingObject (oid : Oid) (role : String) : Error :=
  (Error.new .missingObject s!"{role} object {oid} is missing from the object store union").withOid oid

/-- What `read_required_tree` makes of the store's answer. -/
def requiredTree (oid : Oid) : Option Object → Except Error Bytes
  | none => .error (missingObject oid "tree")
  | some (kind, payload) => do
    ensure (kind = .tree) (.new .notATree s!"tree object {oid} is not a tree")
    return payload

/-- `diff.rs` `read_required_tree`. -/
def readRequiredTree (oid : Oid) : Query Bytes := do
  let found ← Query.tryFind oid
  Program.ofExcept (requiredTree oid found)

/-! ### Projections -/

/-- `entry(key).or_insert(value)`. -/
def orInsert (map : List (Oid × Bytes)) (oid : Oid) (payload : Bytes) : List (Oid × Bytes) :=
  if (map.lookup oid).isSome then map else (oid, payload) :: map

/-- The maps `project_tree` fills: `cache` by tree and directory, `projected` by the new ID. -/
structure Maps where
  cache : List ((Oid × Bytes) × Bytes) := []
  projected : List (Oid × Bytes) := []

/-- An entry as `project_tree` writes it. -/
def encodeEntry (entry : TreeEntry) : Bytes :=
  Bytes.ascii (String.ofList (Nat.toDigits 8 entry.mode)) ++ 0x20 :: entry.name ++ 0 :: entry.oid.bytes

/-- What a projection depends on besides the store. -/
structure Scope where
  gix : Gix
  hashers : Provider.Hashers
  patterns : List Bytes

/-- `object_id` of a projected tree. -/
def Scope.treeId (scope : Scope) (kind : HashKind) (payload : Bytes) : Except Error Oid :=
  Provider.objectId scope.hashers kind .tree payload

/-- The body of the loop of `project_tree` for a decoded entry: the entry it writes, if any. -/
def projectEntry (scope : Scope) (project : Oid → Bytes → Maps → Query (Bytes × Maps)) (kind : HashKind)
    (directory : Bytes) (entry : TreeEntry) (maps : Maps) : Query (Option TreeEntry × Maps) :=
  let path := joinPath directory entry.name
  if isTree entry.mode then
    if ¬ Pathspec.mayMatchDescendant scope.patterns path then return (none, maps)
    else do
      let (child, maps) ← project entry.oid path maps
      if child = [] then return (none, maps)
      else do
        let childOid ← Program.ofExcept (scope.treeId kind child)
        return (some { entry with oid := childOid },
          { maps with projected := orInsert maps.projected childOid child })
  else if ¬ Pathspec.matchesPath scope.gix scope.patterns path then return (none, maps)
  else return (some entry, maps)

/-- The loop of `project_tree` over the items of `decode_tree`. -/
def projectEntries (scope : Scope) (project : Oid → Bytes → Maps → Query (Bytes × Maps)) (kind : HashKind)
    (directory : Bytes) :
    List (Bytes × Option TreeEntry) → Bytes → Maps → Query (Bytes × Maps)
  | [], output, maps => pure (output, maps)
  | (remaining, item) :: rest, output, maps => do
    Query.check
    let entry ← Program.ofExcept (decodeTreeItem remaining item)
    let (kept, maps) ← projectEntry scope project kind directory entry maps
    projectEntries scope project kind directory rest (output ++ (kept.map encodeEntry).getD []) maps

/-- `diff.rs` `project_tree`; `directory` is its `prefix`, and `fuel` bounds its recursion. -/
def projectTree (scope : Scope) : ℕ → Oid → Bytes → Maps → Query (Bytes × Maps)
  | 0, _, _, _ => Program.diverge
  | fuel + 1, oid, directory, maps =>
    match maps.cache.lookup (oid, directory) with
    | some payload => return (payload, maps)
    | none => do
      let payload ← readRequiredTree oid
      let (output, maps) ← projectEntries scope (projectTree scope fuel) oid.kind directory
        (scope.gix.treeRefIter oid.kind payload) [] maps
      return (output, { maps with cache := ((oid, directory), output) :: maps.cache })

/-- `diff.rs` `PreparedTrees`. -/
structure PreparedTrees where
  base : Bytes
  head : Bytes
  projected : List (Oid × Bytes)

/-- `diff.rs` `project_diff_trees`. -/
def projectDiffTrees (scope : Scope) (fuel : ℕ) (baseOid headOid : Oid) : Query PreparedTrees := do
  let (base, maps) ← projectTree scope fuel baseOid [] {}
  let (head, maps) ← projectTree scope fuel headOid [] maps
  return ⟨base, head, maps.projected⟩

/-- `diff.rs` `GixObjectStore`, without its store. -/
structure GixObjectStore where
  maxObjectBytes : ℕ
  projectedTrees : List (Oid × Bytes)
  lastError : Option Error := none
  oversize : List Oid := []

namespace GixObjectStore

/-- `GixObjectStore::record_oversize`. -/
def recordOversize (adapter : GixObjectStore) (oid : Oid) : GixObjectStore :=
  if oid ∈ adapter.oversize then adapter else { adapter with oversize := adapter.oversize ++ [oid] }

/-- `GixObjectStore::try_find`, which records its errors and the blobs that are too large. -/
def tryFind (adapter : GixObjectStore) (oid : Oid) :
    Query (Except Error (Option Object) × GixObjectStore) :=
  match adapter.projectedTrees.lookup oid with
  | some tree => return (.ok (some (.tree, tree)), adapter)
  | none => do
    let found ← (Query.tryFind oid).attempt
    match found with
    | .error error => return (.error error, { adapter with lastError := some error })
    | .ok (some (.blob, payload)) =>
      if adapter.maxObjectBytes < payload.length then
        return (.ok (some (.blob, payload)), adapter.recordOversize oid)
      else return (.ok (some (.blob, payload)), adapter)
    | .ok found => return (.ok found, adapter)

end GixObjectStore

end Diff
end Gitility
