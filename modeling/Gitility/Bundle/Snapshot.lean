import Mathlib.Data.List.DropRight
import Gitility.Bundle.Format

/-!
# Reference snapshots

`lib/gitility/ref_name.ex`, the resolution of `crates/gitility-core/src/refs.rs` and the
`snapshot_refs` of `lib/gitility/bundle.ex`. `gix-ref`, the object store, the engine's peel and the
`HEAD` file are parameters of the source repository.
-/

namespace Gitility

/-! ### Portable names -/

namespace RefName

/-- `@maximum_bytes`. -/
def maximumBytes : ℕ := 4096

/-- `@maximum_component_bytes`. -/
def maximumComponentBytes : ℕ := 255

/-- `@forbidden_bytes`. -/
def forbiddenBytes : Bytes := [0x7E, 0x5E, 0x3A, 0x3F, 0x2A, 0x5B, 0x5C]

/-- Why a name is refused. -/
inductive Reason where
  | empty | tooLong | invalidName | invalidSequence | invalidComponent | componentTooLong
  | notABranch
  deriving DecidableEq, Repr

/-- `:binary.split(name, "/", [:global])`. -/
def components (name : Bytes) : List Bytes := name.splitOn 0x2F

/-- `String.contains?`. -/
def contains (pattern : Bytes) (bytes : Bytes) : Bool := bytes.tails.any pattern.isPrefixOf

/-- `valid_full_name?`. -/
def validFullName (name : Bytes) : Bool :=
  name.contains 0x2F || name.all fun byte ↦ 0x41 ≤ byte ∧ byte ≤ 0x5A ∨ byte = 0x5F

/-- `valid_component?`. -/
def validComponent (component : Bytes) : Bool :=
  component ≠ [] ∧ component ≠ Bytes.ascii "." ∧ component ≠ Bytes.ascii ".." ∧
    ¬ (Bytes.ascii ".").isPrefixOf component ∧ ¬ (Bytes.ascii ".lock").isSuffixOf component ∧
    ¬ contains (Bytes.ascii "..") component ∧
    component.all fun byte ↦ 0x20 < byte ∧ byte ≠ 0x7F ∧ byte ∉ forbiddenBytes

/-- `validate`. -/
def validate (name : Bytes) : Except Reason Unit :=
  if name.length = 0 then .error .empty
  else if maximumBytes < name.length then .error .tooLong
  else if name = Bytes.ascii "@" then .error .invalidName
  else if contains (Bytes.ascii "@\x7b") name then .error .invalidSequence
  else if (Bytes.ascii ".").isSuffixOf name then .error .invalidComponent
  else if (components name).any (maximumComponentBytes < ·.length) then .error .componentTooLong
  else if ¬ validFullName name then .error .invalidName
  else if (components name).all validComponent then .ok ()
  else .error .invalidComponent

/-- `valid_branch?`. -/
def validBranch (name : Bytes) : Bool :=
  (Bytes.ascii "refs/heads/").isPrefixOf name ∧ (Bytes.ascii "refs/heads/").length < name.length ∧
    Bundle.validUtf8 name ∧ validate name = .ok ()

/-- A portable name is neither empty nor longer than the limit. -/
theorem length_of_validate {name : Bytes} (h : validate name = .ok ()) :
    1 ≤ name.length ∧ name.length ≤ maximumBytes := by
  unfold validate at h
  split at h
  · cases h
  · next hempty =>
    split at h
    · cases h
    · next hlong => omega

end RefName

/-! ### Resolution -/

namespace RefDb

/-- `refs.rs` `RefTarget`. -/
inductive RefTarget where
  | direct (oid : Bytes) (peeled : Option Bytes)
  | symbolic (name : Bytes)
  deriving DecidableEq

/-- `MAX_SYMBOLIC_REF_HOPS`. -/
def maxSymbolicRefHops : ℕ := 16

/-- `MAX_REF_NAME_BYTES`. -/
def maxRefNameBytes : ℕ := 4096

/-- The local reference files: `fullName` is the acceptance set of `gix_ref::FullName`, `find` is
one lookup with the target that `LocalRefDb::target` makes of it, and `display` is `display_ref`. -/
structure Store where
  fullName : Bytes → Bool
  find : Bytes → Except Error (Option RefTarget)
  display : Bytes → String

variable (store : Store)

/-- `validate_full_ref_name`. -/
def validateFullRefName (name : Bytes) : Except Error Unit := do
  ensure (name.length ≤ maxRefNameBytes)
    ((Error.new .malformedRef "reference name exceeds the 4096-byte limit").withReason
      s!"ref {store.display name} has length {name.length} bytes (limit {maxRefNameBytes})")
  ensure ((name = Bytes.ascii "HEAD" ∨ (Bytes.ascii "refs/").isPrefixOf name) ∧ store.fullName name)
    ((Error.new .malformedRef "reference name is not a valid full ref name").withReason
      s!"ref {store.display name}")

/-- `display_chain`. -/
def displayChain (chain : List Bytes) : String := String.intercalate " -> " (chain.map store.display)

/-- `symbolic_cycle`. -/
def symbolicCycle (chain : List Bytes) : Error :=
  (Error.new .malformedRef "symbolic reference cycle detected").withReason
    s!"symbolic cycle {displayChain store chain}"

/-- The loop of `resolve_with`; the chain is kept from its last name on. -/
def resolveHops : ℕ → Bytes → List Bytes → Except Error (Option (Bytes × Option Bytes))
  | 0, _, chain => .error ((Error.new .malformedRef "symbolic reference exceeds the 16-hop limit").withReason
    s!"symbolic chain {displayChain store chain.reverse}")
  | hops + 1, current, chain => do
    ensure (current ∉ chain) (symbolicCycle store (current :: chain).reverse)
    match ← store.find current with
    | none => return none
    | some (.direct oid peeled) => return some (oid, peeled)
    | some (.symbolic next) =>
      match validateFullRefName store next with
      | .ok () => resolveHops hops next (current :: chain)
      | .error _ =>
        .error ((Error.new .malformedRef "symbolic reference points to an invalid full ref name").withReason
          s!"symbolic target {store.display next}")

/-- `resolve_with`. -/
def resolve (name : Bytes) : Except Error (Option (Bytes × Option Bytes)) := do
  validateFullRefName store name
  resolveHops store maxSymbolicRefHops name []

variable {store}

/-- A name that resolves is neither empty nor longer than the limit. -/
theorem length_of_resolve {name : Bytes} {target : Option (Bytes × Option Bytes)}
    (h : resolve store name = .ok target) : 1 ≤ name.length ∧ name.length ≤ maxRefNameBytes := by
  simp only [resolve, validateFullRefName, Except.bind_eq_ok, ensure_eq_ok] at h
  obtain ⟨-, ⟨-, hlength, hscope, -⟩, -⟩ := h
  refine ⟨?_, hlength⟩
  rcases hscope with rfl | hscope
  · decide
  · exact le_trans (by decide) (List.isPrefixOf_iff_prefix.mp hscope).length_le

end RefDb

namespace Bundle

/-! ### The source repository -/

/-- `inspect` of a name inside a message, without its escapes. -/
def inspect (name : Bytes) : String :=
  if validUtf8 name then s!"\"{text name}\""
  else
    let bytes := String.intercalate ", " (name.map fun byte ↦ toString byte.toNat)
    s!"<<{bytes}>>"

/-- The codes of the warnings. -/
inductive WarningCode where
  | malformedRef
  | truncated
  deriving DecidableEq, Repr

/-- A warning of a listing or of the snapshot. -/
structure Warning where
  code : WarningCode
  message : String
  deriving DecidableEq, Repr

/-- `warning`. -/
def warning (message : String) : Warning := ⟨.malformedRef, message⟩

/-- One answer of `RefDB.list`. -/
structure RefPage where
  items : List Bytes
  warnings : List Warning
  truncated : Bool
  nextCursor : Option Bytes

/-- An opened repository. `pages` are the answers of `RefDB.list` in the order of the calls, `peel`
is the engine's peel to a commit under the strict or the default limits, `gitPeel` what `git
rev-parse` prints and `headFile` the bytes of the `HEAD` file. -/
structure Repository where
  hash : HashKind
  refs : Option RefDb.Store
  refError : String
  pages : List (Except Error RefPage)
  tryHeader : Oid → Except Error (Option ObjectKind)
  peel : Bool → Bytes → Except Error Bytes
  gitPeel : Bytes → Option Bytes
  headFile : Except String Bytes

variable (repository : Repository)

/-- `ODB.header`. -/
def objectKind (oid : Bytes) : Except Error ObjectKind := do
  let id ← Oid.new repository.hash oid
  match ← repository.tryHeader id with
  | some kind => return kind
  | none => .error (.new .missingObject s!"object {id} is missing from the object store")

/-- `strict_ref_error`. -/
def strictRefError (message : String) : Error := .new .malformedRef message

/-! ### Rows -/

/-- `existing_commit_peel`. -/
def existingCommitPeel (peeled : Option Bytes) : Option Bytes :=
  peeled.bind fun oid ↦
    match objectKind repository oid with
    | .ok .commit => some oid
    | _ => none

/-- `peel_to_commit`. -/
def peelToCommit (oid : Bytes) (strict : Bool) : Except Error Bytes :=
  match repository.peel strict oid with
  | .ok peeled => .ok peeled
  | .error error =>
    if error.code = .unsupportedHash then
      match repository.gitPeel oid with
      | some peeled => .ok peeled
      | none => .error (.new .backendError "peel_unavailable")
    else .error error

/-- `peel_failure`. -/
def peelFailure (name : Bytes) (strict : Bool) : Except Error (Option Bytes × List Warning) :=
  if strict then
    .error (.new .malformedRef s!"ref {inspect name} could not be peeled to a commit")
  else .ok (none, [warning s!"ref {inspect name} could not be peeled to a commit"])

/-- `peel_commit_with_policy`. -/
def peelCommitWithPolicy (oid name : Bytes) (strict : Bool) :
    Except Error (Option Bytes × List Warning) :=
  match peelToCommit repository oid strict with
  | .ok peeled =>
    match objectKind repository peeled with
    | .ok .commit => .ok (some peeled, [])
    | _ => peelFailure name strict
  | .error _ => peelFailure name strict

/-- `peeled_commit`. -/
def peeledCommit (oid : Bytes) (peeled : Option Bytes) (kind : ObjectKind) (name : Bytes)
    (strict : Bool) : Except Error (Option Bytes × List Warning) :=
  if kind = .tag then
    if strict then peelCommitWithPolicy repository oid name true
    else
      match existingCommitPeel repository peeled with
      | some commit => .ok (some commit, [])
      | none => peelCommitWithPolicy repository oid name false
  else .ok (existingCommitPeel repository peeled, [])

/-- What `do_ref_row` returns. -/
inductive RowResult where
  | ok (row : RefEntry) (warnings : List Warning)
  | skip (message : String)
  | error (error : Error)

/-- `do_ref_row`. -/
def doRefRow (name oid : Bytes) (peeled : Option Bytes) (strict : Bool) : RowResult :=
  match objectKind repository oid with
  | .ok kind =>
    match peeledCommit repository oid peeled kind name strict with
    | .ok (commit, warnings) => .ok ⟨name, oid, kind, commit⟩ warnings
    | .error error => .error error
  | .error error =>
    if error.code = .missingObject then
      if strict then
        .error (.new .missingObject
          s!"ref {inspect name} targets an object missing from the source ODB")
      else .skip s!"ref {inspect name} targets an object missing from the source ODB"
    else if strict then
      .error (strictRefError s!"ref {inspect name} targets an unreadable object")
    else .error error

/-- `validate_strict_ref_name`. -/
def validateStrictRefName (name : Bytes) : Except Error Unit :=
  match RefName.validate name with
  | .ok () => .ok ()
  | .error _ =>
    .error (strictRefError s!"ref {inspect name} is not a portable full reference name")

/-- `maybe_validate_strict_ref_name`. -/
def maybeValidateStrictRefName (name : Bytes) (strict : Bool) : Except Error Unit :=
  if strict then validateStrictRefName name else .ok ()

/-- `ref_row`. -/
def refRow (name oid : Bytes) (peeled : Option Bytes) (strict : Bool) : RowResult :=
  match maybeValidateStrictRefName name strict with
  | .ok () => doRefRow repository name oid peeled strict
  | .error error => .error error

/-! ### Listed references -/

/-- `collect_ref_pages`. A store that stops answering times out. -/
def collectRefPages : List (Except Error RefPage) → List Bytes → List Warning →
    Except Error (List Bytes × List Warning)
  | [], _, _ => .error (.new .timeout "ref listing timed out")
  | .error error :: _, _, _ => .error error
  | .ok page :: pages, items, warnings =>
    let items := items ++ page.items
    let warnings := warnings ++ page.warnings.filter (·.code ≠ .truncated)
    if page.truncated then
      if page.nextCursor.isSome then collectRefPages pages items warnings
      else .error (.new .backendError "ref listing truncated without a cursor")
    else .ok (items, warnings)

/-- `reject_snapshot_warnings`. -/
def rejectSnapshotWarnings (warnings : List Warning) (strict : Bool) : Except Error Unit :=
  ensure (strict → warnings = []) (strictRefError "reference listing produced a degraded snapshot")

/-- `snapshot_listed_refs`. -/
def snapshotListedRefs (store : RefDb.Store) (strict : Bool) :
    List Bytes → List RefEntry → List Warning → Except Error (List RefEntry × List Warning)
  | [], rows, warnings => .ok (rows, warnings)
  | name :: names, rows, warnings =>
    match maybeValidateStrictRefName name strict with
    | .error error => .error error
    | .ok () =>
      match RefDb.resolve store name with
      | .ok (some (oid, peeled)) =>
        match refRow repository name oid peeled strict with
        | .ok row rowWarnings =>
          snapshotListedRefs store strict names (row :: rows) (warnings ++ rowWarnings)
        | .skip message =>
          snapshotListedRefs store strict names rows (warnings ++ [warning message])
        | .error error => .error error
      | .ok none =>
        if strict then .error (strictRefError s!"ref {inspect name} became unresolved")
        else
          snapshotListedRefs store strict names rows
            (warnings ++ [warning s!"ref {inspect name} became unresolved"])
      | .error error =>
        if strict then .error (strictRefError s!"ref {inspect name} could not be resolved")
        else
          snapshotListedRefs store strict names rows
            (warnings ++ [warning s!"ref {inspect name}: {error.message}"])

/-! ### The head -/

/-- `trim_line`. -/
def trimLine (bytes : Bytes) : Bytes := (bytes.rdropWhile (· = 0x0A)).rdropWhile (· = 0x0D)

/-- `head_symref`. -/
def headSymref : Except String (Option Bytes) :=
  match repository.headFile with
  | .error reason => .error s!"could not inspect HEAD symref: {reason}"
  | .ok bytes =>
    let value := trimLine bytes
    let symref := value.drop 5
    if value.take 5 = Bytes.ascii "ref: " ∧ symref ≠ [] then
      if validUtf8 symref then .ok (some symref) else .error "HEAD symref is not UTF-8"
    else .ok none

/-- The key of the head's metadata. -/
def headSymrefKey : Bytes := Bytes.ascii "head_symref"

/-- `snapshot_head` of a snapshot that is not strict. -/
def snapshotHeadLenient (store : RefDb.Store) (warnings : List Warning) :
    Option RefEntry × List (Bytes × Bytes) × List Warning :=
  match RefDb.resolve store (Bytes.ascii "HEAD") with
  | .ok (some (oid, peeled)) =>
    match refRow repository (Bytes.ascii "HEAD") oid peeled false with
    | .ok row rowWarnings =>
      let warnings := warnings ++ rowWarnings
      match headSymref repository with
      | .ok none => (some row, [], warnings)
      | .ok (some symref) => (some row, [(headSymrefKey, symref)], warnings)
      | .error message => (some row, [], warnings ++ [warning message])
    | .skip message => (none, [], warnings ++ [warning s!"HEAD: {message}"])
    | .error error => (none, [], warnings ++ [warning s!"HEAD: {error.message}"])
  | .ok none => (none, [], warnings ++ [warning "HEAD is unresolved and was omitted"])
  | .error error => (none, [], warnings ++ [warning s!"HEAD is unresolved: {error.message}"])

/-- `strict_head_symref`. -/
def strictHeadSymref : Except Error (Option Bytes) :=
  match headSymref repository with
  | .ok symref => .ok symref
  | .error _ => .error (strictRefError "HEAD symbolic target could not be read")

/-- `validate_strict_head_symref`. -/
def validateStrictHeadSymref : Option Bytes → Except Error Unit
  | none => .ok ()
  | some symref =>
    ensure (RefName.validate symref = .ok () ∧ RefName.validBranch symref)
      (strictRefError "HEAD symbolic target must be a valid name under refs/heads/")

/-- `validate_resolved_head`. -/
def validateResolvedHead (head : RefEntry) : Option Bytes → List RefEntry → Except Error Unit
  | none, _ => .ok ()
  | some symref, rows =>
    match rows.find? (·.name = symref) with
    | some row =>
      ensure (row.target = head.target)
        (strictRefError "HEAD symbolic target disagrees with the resolved HEAD row")
    | none => .error (strictRefError "HEAD symbolic target is absent from the source refs")

/-- `validate_unborn_head`. -/
def validateUnbornHead (listed : List Bytes) (warnings : List Warning) :
    Option Bytes → Except Error (Option RefEntry × List (Bytes × Bytes) × List Warning)
  | some symref => do
    validateStrictHeadSymref (some symref)
    ensure (symref ∉ listed)
      (strictRefError "unborn HEAD symbolic target is present in the source refs")
    return (none, [(headSymrefKey, symref)], warnings)
  | none => .error (strictRefError "HEAD is unresolved and has no symbolic branch target")

/-- `snapshot_head` of a strict snapshot. -/
def snapshotHeadStrict (store : RefDb.Store) (listed : List Bytes) (rows : List RefEntry)
    (warnings : List Warning) :
    Except Error (Option RefEntry × List (Bytes × Bytes) × List Warning) := do
  let symref ← strictHeadSymref repository
  match RefDb.resolve store (Bytes.ascii "HEAD") with
  | .ok (some (oid, peeled)) =>
    validateStrictHeadSymref symref
    match refRow repository (Bytes.ascii "HEAD") oid peeled true with
    | .ok row [] =>
      validateResolvedHead row symref rows
      return (some row, (symref.map fun name ↦ (headSymrefKey, name)).toList, warnings)
    | .error error => .error error
    | _ => .error (.new .backendError "bundle publication failed")
  | .ok none => validateUnbornHead listed warnings symref
  | .error _ => .error (strictRefError "HEAD could not be resolved")

/-- `snapshot_head`. -/
def snapshotHead (store : RefDb.Store) (listed : List Bytes) (rows : List RefEntry)
    (warnings : List Warning) (strict : Bool) :
    Except Error (Option RefEntry × List (Bytes × Bytes) × List Warning) :=
  if strict then snapshotHeadStrict repository store listed rows warnings
  else .ok (snapshotHeadLenient repository store warnings)

/-! ### The snapshot -/

/-- `Enum.uniq_by`. -/
def uniqBy {α : Type} (key : α → Bytes) : List Bytes → List α → List α
  | _, [] => []
  | seen, row :: rows =>
    if key row ∈ seen then uniqBy key seen rows else row :: uniqBy key (key row :: seen) rows

/-- `snapshot_refs`: the rows, the metadata of the head and the warnings. -/
def snapshotRefs (strict : Bool) :
    Except Error (List RefEntry × List (Bytes × Bytes) × List Warning) :=
  match repository.refs with
  | none =>
    if strict then .error (strictRefError "source reference store is unavailable")
    else .ok ([], [], [warning s!"source reference store is unavailable: {repository.refError}"])
  | some store => do
    let (listed, warnings) ← collectRefPages repository.pages [] []
    rejectSnapshotWarnings warnings strict
    let listed := listed.filter (· ≠ Bytes.ascii "HEAD")
    let (rows, warnings) ← snapshotListedRefs repository store strict listed [] warnings
    let (head, headMetadata, warnings) ← snapshotHead repository store listed rows warnings strict
    let rows := uniqBy RefEntry.name [] (head.toList ++ rows)
    return (rows.mergeSort (fun a b ↦ a.name ≤ b.name), headMetadata, warnings)

end Bundle

end Gitility
