import Gitility.Refs.Cursor

/-!
# Listing local references

`LocalRefDb::list` of `crates/gitility-core/src/refs.rs`, run without a budget. The overlay iterator of
`gix-ref` yields references and errors; a page collects them from the start and leaves out what its cursor
says was delivered.
-/

namespace Gitility

open RefDb (RefTarget Store)

/-- `gix_ref::Target`. -/
inductive GixTarget where
  | symbolic (name : Bytes)
  | object (oid : Bytes)
  deriving DecidableEq

/-- `gix_ref::Reference`. -/
structure GixReference where
  name : Bytes
  target : GixTarget
  peeled : Option Bytes
  deriving DecidableEq

/-- The variants of `gix_ref::file::iter::loose_then_packed::Error`. -/
inductive IterErrorKind where
  | referenceCreation (relativePath : Bytes)
  | readFileContents (path : Bytes)
  | packedReference (invalidLine : Bytes)
  | traversal
  deriving DecidableEq

/-- An error of the overlay iterator with its text. -/
structure IterError where
  kind : IterErrorKind
  text : String
  deriving DecidableEq

/-- `refs.rs` `RefWarning`. -/
structure RefWarning where
  name : Bytes
  message : String
  deriving DecidableEq

/-- `refs.rs` `RefQuery`. -/
structure RefQuery where
  namePrefix : Option Bytes
  limit : ℕ
  cursor : Option Bytes

/-- `refs.rs` `RefPage`. -/
structure RefPage where
  refs : List (Bytes × RefTarget)
  nextCursor : Option Bytes
  truncated : Bool
  warnings : List RefWarning
  deriving DecidableEq

/-- What the overlay iterator yields. -/
abbrev RefItem := Except IterError GixReference

/-- `refs.rs` `LocalRefDb` over unchanging files. `packed` says whether the packed references could be
snapshotted and `relativePath` which prefixes are relative paths. `relative` takes the git directory off a
path, `lossy` is `to_string_lossy`, and `peelTag` is the best-effort peeling of a tag. -/
structure LocalRefDb where
  hash : HashKind
  store : Store
  packed : Bool
  relativePath : Bytes → Bool
  iterate : Option Bytes → Option (List RefItem)
  relative : Bytes → Bytes
  lossy : Bytes → Bytes
  peelTag : Bytes → Option Bytes

namespace LocalRefDb

variable (db : LocalRefDb)

/-- `refs.rs` `ref_query_fingerprint`. -/
def refQueryFingerprint (namePrefix : Option Bytes) : UInt64 :=
  Cursor.fnv1a64 (Bytes.ascii "refs-v1" ++ 0 ::
    namePrefix.elim [0] fun bytes ↦ 1 :: Bytes.toLe 8 bytes.length ++ bytes)

/-- The name that stands for an unknown one. -/
def unknown : Bytes := Bytes.ascii "<unknown>"

/-- The name in an invalid line: what follows its first blank. -/
def lineName (invalidLine : Bytes) : Bytes :=
  match invalidLine.dropWhile (· ≠ 0x20) with
  | [] => unknown
  | _ :: name => name

/-- The name that an iteration error is reported under. -/
def errorName : IterErrorKind → Bytes
  | .referenceCreation relativePath => db.lossy relativePath
  | .readFileContents path => db.lossy (db.relative path)
  | .packedReference invalidLine => lineName invalidLine
  | .traversal => unknown

/-- `refs.rs` `iteration_warning`. -/
def iterationWarning (error : IterError) : RefWarning where
  name := db.errorName error.kind
  message := s!"skipped malformed reference {db.store.display (db.errorName error.kind)}: {error.text}"

/-- `refs.rs` `validate_full_ref_name` with the names of this store. -/
def validateFullRefName (name : Bytes) : Except Error Unit := RefDb.validateFullRefName db.store name

/-- The warning about a reference that is skipped for an error. -/
def skipWarning (name : Bytes) (error : Error) : RefWarning :=
  let reason := error.reason.elim "" fun reason ↦ s!" ({reason})"
  ⟨name, s!"skipped malformed reference {db.store.display name}: {error.message}{reason}"⟩

/-- `LocalRefDb::target`. -/
def target (reference : GixReference) : Except Error RefTarget :=
  match reference.target with
  | .symbolic target => .ok (.symbolic target)
  | .object oid => do
    ensure (oid.length = db.hash.digestLen)
      ((Error.new .malformedRef "local reference contains an invalid object ID").withReason
        s!"ref {db.store.display reference.name}")
    return .direct oid ((reference.peeled.filter (·.length = db.hash.digestLen)).or (db.peelTag oid))

/-- What the loop of `list` has collected, and whether it found one more reference. -/
structure Collected where
  refs : List (Bytes × RefTarget)
  warnings : List RefWarning
  hasMore : Bool
  deriving DecidableEq

/-- The loop of `list`. -/
def collect (limit : ℕ) (resume : Option Bytes) :
    List RefItem → List (Bytes × RefTarget) → List RefWarning → Collected
  | [], refs, warnings => ⟨refs, warnings, false⟩
  | .error error :: items, refs, warnings =>
    let warning := db.iterationWarning error
    let alreadyReported := resume.any (warning.name ≤ ·) ∧ warning.name ≠ unknown
    collect limit resume items refs (if alreadyReported then warnings else warnings ++ [warning])
  | .ok reference :: items, refs, warnings =>
    let name := reference.name
    if resume.any (name ≤ ·) then collect limit resume items refs warnings
    else
      match db.validateFullRefName name with
      | .error error => collect limit resume items refs (warnings ++ [db.skipWarning name error])
      | .ok () =>
        if refs.length = limit then ⟨refs, warnings, true⟩
        else
          match db.target reference with
          | .ok target => collect limit resume items (refs ++ [(name, target)]) warnings
          | .error error => collect limit resume items refs (warnings ++ [db.skipWarning name error])

/-- The overlay iterator of `list`. -/
def overlay (namePrefix : Option Bytes) : Except Error (List RefItem) := do
  ensure db.packed (.new .malformedRef "local packed-refs could not be snapshotted")
  if let some bytes := namePrefix then
    ensure (db.relativePath bytes)
      ((Error.new .malformedRef "reference prefix is not a valid relative path").withReason
        s!"prefix {db.store.display bytes}")
  match db.iterate namePrefix with
  | some items => return items
  | none => .error (.new .backendError "local references could not be enumerated")

/-- The cursor of a page that leaves a reference out, which is behind its last one. -/
def continuation (fingerprint : UInt64) (collected : Collected) : Outcome Error (Option Bytes) :=
  if collected.hasMore then
    match collected.refs.getLast? with
    | none => .diverged
    | some last => some <$> RefCursor.encodeRefCursor db.hash fingerprint last.1
  else .ok none

/-- `LocalRefDb::list`. -/
def list (query : RefQuery) : Outcome Error RefPage := do
  .ofExcept (ensure (query.limit ≠ 0) (.new .invalidArgument "reference page limit must be positive"))
  let fingerprint := refQueryFingerprint query.namePrefix
  let resume ← .ofExcept (query.cursor.mapM fun encoded ↦
    RefCursor.decodeRefCursor db.store encoded db.hash fingerprint)
  let items ← .ofExcept (db.overlay query.namePrefix)
  let collected := db.collect query.limit resume items [] []
  let nextCursor ← db.continuation fingerprint collected
  return ⟨collected.refs, nextCursor, collected.hasMore, collected.warnings⟩

end LocalRefDb
end Gitility
