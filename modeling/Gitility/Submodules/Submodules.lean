import Gitility.Submodules.Declarations
import Gitility.Tree.Entries

/-!
# Submodules

`crates/gitility-core/src/submodules.rs`, the query: it reads the declarations of the root tree, collects the
gitlinks of the whole snapshot in a walk over an explicit stack, and lets each declaration claim the gitlink at
its path. The map that the declarations take from is threaded through `joinDeclarations`.
-/

namespace Gitility.Submodules

/-- `GITMODULES_PATH`. -/
def gitmodulesPath : Bytes := Bytes.ascii ".gitmodules"

/-- `MAX_GITMODULES_BYTES`. -/
def maxGitmodulesBytes : ℕ := 1024 * 1024

/-- `SubmoduleStatus`. -/
inductive SubmoduleStatus where
  | active
  | undeclared
  | orphaned
  deriving DecidableEq, Repr

/-- `Submodule`. -/
structure Submodule where
  name : Option Bytes
  path : Bytes
  url : Option Bytes
  branch : Option Bytes
  commitOid : Option Oid
  status : SubmoduleStatus
  deriving DecidableEq

/-! ### Errors -/

/-- `name_gitmodules_error`. -/
def nameGitmodulesError (error : Error) : Error :=
  if error.code = .malformedObject ∨ error.code = .objectTooLarge then error.withFile .gitmodules else error

/-- `missing_gitmodules`. -/
def missingGitmodules (oid : Oid) : Error :=
  { Error.new .missingObject s!".gitmodules blob {oid} is missing from the object store" with
    retryable := true }.withOid oid

/-- `gitmodules_too_large`. -/
def gitmodulesTooLarge : Error :=
  ((Error.new .objectTooLarge "snapshot .gitmodules exceeds the dedicated 1 MiB config limit").withLimit
    "max_gitmodules_bytes").withFile .gitmodules

/-! ### The two sides -/

/-- The part of `read_declarations` that reads the blob of an entry. -/
def readGitmodules (oid : Oid) : Query (List Declaration) := do
  match ← (Query.tryHeaderWithProvenance oid).mapError nameGitmodulesError with
  | none => Program.fail (missingGitmodules oid)
  | some read =>
    if read.header.kind ≠ .blob then return []
    else if maxGitmodulesBytes < read.header.size then Program.fail gitmodulesTooLarge
    else do
      match ← (Query.tryFind oid).mapError nameGitmodulesError with
      | none => Program.fail (missingGitmodules oid)
      | some (kind, payload) =>
        if kind ≠ .blob then return []
        else if maxGitmodulesBytes < payload.length then Program.fail gitmodulesTooLarge
        else .done (parseDeclarations payload)

/-- `read_declarations`. -/
def readDeclarations (rootEntries : List OwnedTreeEntry) : Query (List Declaration) :=
  match rootEntries.find? fun entry ↦ entry.name = gitmodulesPath with
  | none => pure []
  | some entry => if entry.kind ≠ .blob then pure [] else readGitmodules entry.oid

/-- A `Frame` of `collect_gitlinks`; `directory` is its `prefix`. -/
structure Frame where
  entries : List OwnedTreeEntry
  directory : Bytes

/-- The loop of `collect_gitlinks`. -/
def collectLoop (gix : Gix) (info : StoreInfo) :
    ℕ → List Frame → Std.TreeMap Bytes Oid → Query (Std.TreeMap Bytes Oid)
  | 0, _, _ => Program.diverge
  | _ + 1, [], gitlinks => pure gitlinks
  | fuel + 1, frame :: stack, gitlinks => do
    Query.check
    match frame.entries with
    | [] => collectLoop gix info fuel stack gitlinks
    | entry :: rest =>
      let path := joinPath frame.directory entry.name
      let stack := { frame with entries := rest } :: stack
      match entry.kind with
      | .tree => do
        let entries ← readTreeEntriesForWalk gix info true entry.oid
        collectLoop gix info fuel (⟨entries, path⟩ :: stack) gitlinks
      | .gitlink => do
        Query.chargeTreeEntry
        collectLoop gix info fuel stack (gitlinks.insert path entry.oid)
      | .blob | .symlink => collectLoop gix info fuel stack gitlinks

/-- `collect_gitlinks`. -/
def collectGitlinks (gix : Gix) (fuel : ℕ) (info : StoreInfo) (rootEntries : List OwnedTreeEntry) :
    Query (Std.TreeMap Bytes Oid) :=
  collectLoop gix info fuel [⟨rootEntries, []⟩] ∅

/-! ### The rows -/

/-- The row of a declaration that has taken its gitlink, if there is one. -/
def declaredRow (declaration : Declaration) (commitOid : Option Oid) : Submodule where
  name := some declaration.name
  path := declaration.path
  url := declaration.url
  branch := declaration.branch
  commitOid := commitOid
  status := if commitOid.isSome then .active else .orphaned

/-- The row of a gitlink that no declaration has taken. -/
def undeclaredRow (path : Bytes) (commitOid : Oid) : Submodule :=
  ⟨none, path, none, none, some commitOid, .undeclared⟩

/-- The loop over the declarations, with what it leaves of the gitlinks. -/
def joinDeclarations : List Declaration → Std.TreeMap Bytes Oid → List Submodule × Std.TreeMap Bytes Oid
  | [], gitlinks => ([], gitlinks)
  | declaration :: declarations, gitlinks =>
    let commitOid := gitlinks[declaration.path]?
    let (rows, gitlinks) := joinDeclarations declarations (gitlinks.erase declaration.path)
    (declaredRow declaration commitOid :: rows, gitlinks)

/-- The rows before they are sorted. -/
def joinRows (declarations : List Declaration) (gitlinks : Std.TreeMap Bytes Oid) : List Submodule :=
  let (rows, gitlinks) := joinDeclarations declarations gitlinks
  rows ++ gitlinks.toList.map fun link ↦ undeclaredRow link.1 link.2

/-- `submodules`. -/
def submodules (gix : Gix) (fuel : ℕ) (info : StoreInfo) (snapshot : Snapshot) : Query (List Submodule) := do
  Program.ofExcept (ensureQueryCompatible info snapshot)
  let rootEntries ← readTreeEntriesForWalk gix info true snapshot.treeOid
  let declarations ← readDeclarations rootEntries
  let gitlinks ← collectGitlinks gix fuel info rootEntries
  return (joinRows declarations gitlinks).mergeSort fun left right ↦ left.path ≤ right.path

end Gitility.Submodules
