import Gitility.Base.GraphSearch
import Gitility.History.CommitGraph

/-!
# Ancestry

`is_ancestor` of `crates/gitility-core/src/ancestry.rs`, and `decode_commit` of
`crates/gitility-core/src/decode.rs`, through which it reads parents. The commit parser of `gix_object` is
a parameter. The search ends on every finite graph, with cycles or without.
-/

namespace Gitility

/-! ### Decoded commits -/

/-- What `decode_commit` takes from a `gix_object::CommitRef`. -/
structure CommitRef where
  tree : Bytes
  parents : List Bytes
  author : Bytes
  committer : Bytes
  encoding : Option Bytes
  extraHeaders : List (Bytes × Bytes)
  message : Bytes

/-- `gix_object::CommitRef::from_bytes`. -/
abbrev CommitParser := Bytes → HashKind → Option CommitRef

/-- `decode.rs` `Commit`. -/
structure Commit where
  treeOid : Oid
  parents : List Oid
  author : Identity
  committer : Identity
  message : Bytes
  signatureHeaders : List (Bytes × Bytes)
  extraHeaders : List (Bytes × Bytes)

/-- `decode.rs` `parse_embedded_oid`. -/
def parseEmbeddedOid (raw : Bytes) (kind : HashKind) (field : String) : Except Error Oid := do
  ensure (raw.length = kind.digestLen * 2) (malformed s!"{field} object ID is malformed")
  let oid ← (Oid.parseHex raw).mapError fun _ ↦ malformed s!"{field} object ID is malformed"
  ensure (oid.kind = kind) (malformed s!"{field} object ID uses the wrong hash algorithm")
  return oid

/-- `decode.rs` `decode_commit`. -/
def decodeCommit (parser : CommitParser) (payload : Bytes) (hashKind : HashKind) :
    Except Error Commit := do
  let parsed ← orMalformed (parser payload hashKind) "commit payload is malformed"
  let treeOid ← parseEmbeddedOid parsed.tree hashKind "commit tree"
  let parents ← parsed.parents.mapM fun parent ↦ parseEmbeddedOid parent hashKind "commit parent"
  let author ← decodeIdentity parsed.author
  let committer ← decodeIdentity parsed.committer
  let encoding := parsed.encoding.toList.map fun encoding ↦ (Bytes.ascii "encoding", encoding)
  let signature := parsed.extraHeaders.filter fun header ↦ isSignatureHeader header.1
  let extra := parsed.extraHeaders.filter fun header ↦ ¬isSignatureHeader header.1
  return {
    treeOid, parents, author, committer
    message := parsed.message
    signatureHeaders := signature
    extraHeaders := encoding ++ extra }

/-! ### The search -/

namespace Ancestry

/-- What `read_parents` makes of the store's answer. -/
def foundParents (parser : CommitParser) (info : StoreInfo) (oid : Oid) (input : Bool) :
    Option Object → Except Error (List Oid)
  | none => .error
      { code := .missingObject
        message := s!"commit object {oid} is missing from the object store"
        retryable := true
        objectOid := some oid }
  | some (kind, payload) => do
    ensure (kind = .commit)
      ((Error.new (if input then .notACommit else .malformedObject)
        s!"object {oid} reached by ancestry traversal is not a commit").withOid oid)
    let commit ← atOid oid (decodeCommit parser payload oid.kind)
    return if info.isShallow oid then [] else commit.parents

/-- `ancestry.rs` `read_parents`. -/
def readParents (parser : CommitParser) (info : StoreInfo) (oid : Oid) (input : Bool) :
    Query (List Oid) := do
  let found ← (Query.tryFind oid).mapError (·.withOidIfNone oid)
  Program.ofExcept (foundParents parser info oid input found)

/-- The loop of `is_ancestor`. The head of `pending` is the end of its `Vec`. -/
def isAncestorLoop (parser : CommitParser) (info : StoreInfo) (ancestor : Oid) :
    ℕ → List Oid → List Oid → Query Bool
  | 0, _, _ => Program.diverge
  | _ + 1, [], _ => return false
  | fuel + 1, id :: pending, seen => do
    Query.check
    if id ∈ seen then isAncestorLoop parser info ancestor fuel pending seen
    else if id = ancestor then return true
    else do
      let parents ← readParents parser info id false
      isAncestorLoop parser info ancestor fuel (parents.reverse ++ pending) (id :: seen)

/-- `ancestry.rs` `is_ancestor`; `fuel` bounds its loop. -/
def isAncestor (parser : CommitParser) (fuel : ℕ) (info : StoreInfo) (ancestor descendant : Oid) :
    Query Bool := do
  Program.ofExcept (ensureSha1 info [ancestor, descendant])
  Query.check
  let _ ← readParents parser info ancestor true
  if ancestor = descendant then return true
  else do
    let descendantParents ← readParents parser info descendant true
    isAncestorLoop parser info ancestor fuel descendantParents.reverse [descendant]

/-! ### The commit graph -/

variable {parser : CommitParser} {db : ObjectDb} {ancestor descendant oid : Oid}

/-- The commit that the store serves under an ID. -/
def commitOf (parser : CommitParser) (db : ObjectDb) (oid : Oid) : Option Commit :=
  match db.tryFind oid with
  | .ok (some (.commit, payload)) => (decodeCommit parser payload oid.kind).toOption
  | _ => none

/-- The parent edges, without those out of shallow roots. -/
def parentsOf (parser : CommitParser) (db : ObjectDb) (oid : Oid) : List Oid :=
  if db.shallowRoots.any (oid ∈ ·) then [] else ((commitOf parser db oid).map Commit.parents).getD []

/-- A commit that the store serves is read with its edges. -/
theorem eval_readParents (h : (commitOf parser db oid).isSome) (input : Bool) :
    db.eval (readParents parser db.toStoreInfo oid input) = .ok (parentsOf parser db oid) := by
  obtain ⟨commit, hcommit⟩ := Option.isSome_iff_exists.mp h
  have hread := hcommit
  rw [commitOf] at hread
  split at hread
  · next payload hfind =>
    cases hdecode : decodeCommit parser payload oid.kind with
    | error e => simp [hdecode, Except.toOption] at hread
    | ok found =>
      rw [hdecode] at hread
      obtain rfl := Option.some.inj hread
      have hask : db.eval (Query.tryFind oid) = .ok (some (.commit, payload)) := by
        rw [ObjectDb.eval_tryFind, hfind, Outcome.ofExcept_ok]
      have hparents : foundParents parser db.toStoreInfo oid input (some (.commit, payload)) =
          .ok (parentsOf parser db oid) := by
        rw [parentsOf, hcommit]
        simp only [foundParents, ensure, if_true, atOid, hdecode, StoreInfo.isShallow]
        rfl
      rw [readParents, ObjectDb.eval_bind, ObjectDb.eval_mapError_of_ok hask, Outcome.ok_bind,
        ObjectDb.eval_ofExcept, hparents, Outcome.ofExcept_ok]
  · cases hread

/-- The outcome of a search that may not be over. -/
def searched (found : Option Bool) : Outcome Error Bool := found.elim .diverged .ok

/-- The loop is a depth-first search of the commit graph. -/
theorem eval_isAncestorLoop {fuel : ℕ} {pending seen : List Oid}
    (hserved : ∀ v ∈ pending, ∀ id, Reach (parentsOf parser db) v id → (commitOf parser db id).isSome) :
    db.eval (isAncestorLoop parser db.toStoreInfo ancestor fuel pending seen) =
      searched (depthFirst (parentsOf parser db) ancestor fuel pending seen) := by
  induction fuel generalizing pending seen with
  | zero => rfl
  | succ fuel ih =>
    cases pending with
    | nil => rfl
    | cons id pending =>
      have hrest : ∀ v ∈ pending, ∀ id, Reach (parentsOf parser db) v id →
          (commitOf parser db id).isSome := fun v hv ↦ hserved v (List.mem_cons_of_mem _ hv)
      have hid := hserved id List.mem_cons_self
      simp only [isAncestorLoop, ObjectDb.eval_bind, ObjectDb.eval_check, Outcome.ok_bind]
      rw [depthFirst]
      split
      · exact ih hrest
      · split
        · rfl
        · rw [ObjectDb.eval_bind, eval_readParents (hid id .refl), Outcome.ok_bind]
          refine ih fun v hv w hw ↦ ?_
          rcases List.mem_append.mp hv with hv | hv
          · exact hid w (.head (List.mem_reverse.mp hv) hw)
          · exact hrest v hv w hw

/-- On a commit graph that the store serves, `is_ancestor` ends and tells whether the ancestor is the
descendant or can be reached from it through parent edges, without those out of shallow roots. -/
theorem isAncestor_iff_reach (hsha1 : ensureSha1 db.toStoreInfo [ancestor, descendant] = .ok ())
    (hancestor : (commitOf parser db ancestor).isSome)
    (hserved : ∀ id, Reach (parentsOf parser db) descendant id → (commitOf parser db id).isSome) :
    ∃ bound, ∀ fuel ≥ bound, ∃ found,
      db.eval (isAncestor parser fuel db.toStoreInfo ancestor descendant) = .ok found ∧
        (found = true ↔ Reach (parentsOf parser db) descendant ancestor) := by
  let nodes := (Set.toFinite { id | Reach (parentsOf parser db) descendant id }).toFinset
  have hmem : ∀ id, id ∈ nodes ↔ Reach (parentsOf parser db) descendant id := by simp [nodes]
  let start := (parentsOf parser db descendant).reverse
  refine ⟨depthFirstWeight (parentsOf parser db) nodes start [descendant] + 1, fun fuel hfuel ↦ ?_⟩
  simp only [isAncestor, ObjectDb.eval_bind, ObjectDb.eval_ofExcept, hsha1, Outcome.ofExcept_ok,
    Outcome.ok_bind, ObjectDb.eval_check, eval_readParents hancestor]
  by_cases heq : ancestor = descendant
  · subst heq
    exact ⟨true, by simp, iff_of_true rfl .refl⟩
  · rw [if_neg heq, ObjectDb.eval_bind, eval_readParents (hserved descendant .refl), Outcome.ok_bind]
    have hstart : ∀ v ∈ start, Reach (parentsOf parser db) descendant v := fun v hv ↦
      .single (List.mem_reverse.mp hv)
    rw [eval_isAncestorLoop fun v hv id hid ↦ hserved id ((hstart v hv).trans hid)]
    have hover : (depthFirst (parentsOf parser db) ancestor fuel start [descendant]).isSome :=
      depthFirst_isSome (fun v hv w hw ↦ (hmem w).mpr (((hmem v).mp hv).tail hw))
      (fun v hv ↦ (hmem v).mpr (hstart v hv)) hfuel
    obtain ⟨found, hfound⟩ := Option.isSome_iff_exists.mp hover
    refine ⟨found, ?_, depthFirst_eq_some (.initial heq) hfound⟩
    rw [hfound]
    rfl

/-! ### A cyclic history -/

/-- A reader of commits without continued header lines. -/
def sampleParser : CommitParser := fun payload _ ↦ do
  let separator ← messageSeparator payload
  let headers ← ((payload.take separator).splitOn 0x0a).mapM fun line ↦ (splitHeader line).toOption
  let named (name : String) := headers.filterMap fun header ↦
    if header.1 = Bytes.ascii name then some header.2 else none
  return {
    tree := ← (named "tree").head?
    parents := named "parent"
    author := ← (named "author").head?
    committer := ← (named "committer").head?
    encoding := (named "encoding").head?
    extraHeaders := []
    message := payload.drop (separator + 2) }

private theorem sampleHistory_served : ∀ id ∈ sampleCommits, (commitOf sampleParser sampleHistory id).isSome := by
  decide +kernel

private theorem sampleHistory_inside : ∀ a ∈ sampleCommits, ∀ b ∈ parentsOf sampleParser sampleHistory a,
    b ∈ sampleCommits := by
  decide +kernel

/-- The commit 5 is an ancestor of the commit 1, whose history has a cycle and a shallow root. -/
theorem isAncestor_iff_reach_sample : ∃ bound, ∀ fuel ≥ bound,
    sampleHistory.eval (isAncestor sampleParser fuel sampleHistory.toStoreInfo (sampleId 5) (sampleId 1)) =
      .ok true := by
  have hserved : ∀ id, Reach (parentsOf sampleParser sampleHistory) (sampleId 1) id →
      (commitOf sampleParser sampleHistory id).isSome := fun id hid ↦
    sampleHistory_served id (hid.mem_of_closed (by decide) sampleHistory_inside)
  have hreach : Reach (parentsOf sampleParser sampleHistory) (sampleId 1) (sampleId 5) :=
    .head (b := sampleId 2) (by decide +kernel) (.head (b := sampleId 4) (by decide +kernel)
      (.single (by decide +kernel)))
  obtain ⟨bound, hbound⟩ := isAncestor_iff_reach (by rfl)
    (sampleHistory_served (sampleId 5) (by decide)) hserved
  refine ⟨bound, fun fuel hfuel ↦ ?_⟩
  obtain ⟨found, hrun, hfound⟩ := hbound fuel hfuel
  rw [hrun, hfound.mpr hreach]

end Ancestry
end Gitility
