import Gitility.Search.Search
import Gitility.Tree.Order

/-!
# The candidates of a search

Where prefetch hints do not fail, what `BlobWalk` yields depends on the trees alone and not on
the position it resumes at: `trace` lists the candidates it yields and how it ends. Over
canonical trees the candidates come in the byte order of their paths.
-/

namespace Gitility.Search

variable {db : ObjectDb} {gix : Gix} {query : SearchQuery}

/-! ### Reads without hints -/

/-- A prefetch is a hint: it may do nothing, and it does not fail. -/
def Hints (db : ObjectDb) : Prop := ∀ oids, db.prefetch oids = .ok ()

private theorem eval_prefetchTrees (hhints : Hints db) (prefetchChildren : Bool)
    (entries : List OwnedTreeEntry) :
    db.eval (prefetchTrees db.toStoreInfo prefetchChildren entries) = .ok () := by
  unfold prefetchTrees
  split
  · rw [ObjectDb.eval_prefetch, hhints]
    rfl
  · rfl

private theorem eval_readTreeEntriesGraph (oid : Oid) :
    db.eval (readTreeEntriesGraph gix db.toStoreInfo oid) =
      db.eval (readTreeEntries gix db.toStoreInfo oid) := rfl

/-- A path resolves through every read that gives the entries of a tree. -/
theorem eval_resolveSegments {read read' : Oid → Query (List OwnedTreeEntry)}
    (hread : ∀ oid, db.eval (read oid) = db.eval (read' oid)) (treeOid : Oid)
    (segments : List Bytes) :
    db.eval (resolveSegments read treeOid segments) =
      db.eval (resolveSegments read' treeOid segments) := by
  induction segments generalizing treeOid with
  | nil => rfl
  | cons segment segments ih =>
    simp only [resolveSegments, ObjectDb.eval_bind, hread]
    congr 1
    funext entries
    cases entries.find? (·.name = segment) with
    | none => rfl
    | some entry =>
      dsimp only
      split
      · rfl
      · split
        · rfl
        · exact ih entry.oid

/-- The scope of a resumed search is that of a fresh one. -/
theorem eval_resolveScope (snapshot : Snapshot) (path : Bytes) (resumed : Bool) :
    db.eval (resolveScope gix db.toStoreInfo snapshot path resumed) =
      db.eval (resolveScope gix db.toStoreInfo snapshot path false) := by
  cases resumed with
  | false => rfl
  | true =>
    simp only [resolveScope, resolvePathWith, ObjectDb.eval_bind, if_true, Bool.false_eq_true,
      if_false]
    congr 2
    funext _
    split
    · rfl
    · exact eval_resolveSegments eval_readTreeEntriesGraph _ _

/-- Both reads of the walk give the entries of the tree. -/
theorem eval_readTree (hhints : Hints db) (resumePath : Option Bytes) (replaying : Bool)
    (oid : Oid) :
    db.eval (readTree ⟨gix, db.toStoreInfo, query, resumePath⟩ replaying oid) =
      db.eval (readTreeEntries gix db.toStoreInfo oid) := by
  have hread : (db.eval (readTreeEntries gix db.toStoreInfo oid) >>= fun entries ↦
      Outcome.ok entries) = db.eval (readTreeEntries gix db.toStoreInfo oid) := by
    cases db.eval (readTreeEntries gix db.toStoreInfo oid) <;> rfl
  unfold readTree
  cases replaying with
  | true =>
    simp only [if_true, readTreeEntriesForGraphWalk, ObjectDb.eval_bind, eval_readTreeEntriesGraph,
      eval_prefetchTrees hhints, Outcome.ok_bind, ObjectDb.eval_pure, hread]
  | false =>
    simp only [Bool.false_eq_true, if_false, readTreeEntriesForWalk, ObjectDb.eval_bind,
      eval_prefetchTrees hhints, Outcome.ok_bind, ObjectDb.eval_pure, hread]

private theorem eval_forM_prefetch (hhints : Hints db) (windows : List (List Oid)) :
    db.eval (windows.forM Query.prefetch) = .ok () := by
  induction windows with
  | nil => rfl
  | cons window windows ih =>
    unfold List.forM
    rw [ObjectDb.eval_bind, ObjectDb.eval_prefetch, hhints]
    exact ih

private theorem eval_prefetchBlobs (hhints : Hints db) (scope : WalkScope) (directory : Bytes)
    (entries : List OwnedTreeEntry) (prefetched : List Oid) :
    ∃ grown, db.eval (prefetchBlobs scope directory entries prefetched) = .ok grown := by
  unfold prefetchBlobs
  split
  · refine ⟨(pendingBlobs (hintedBlobs scope directory entries) prefetched).2, ?_⟩
    rw [ObjectDb.eval_bind]
    exact Outcome.bind_eq_ok.mpr ⟨(), eval_forM_prefetch hhints _, rfl⟩
  · exact ⟨_, rfl⟩

/-- Entering a directory reads it and pushes its frame. -/
theorem eval_enter (hhints : Hints db) (resumePath : Option Bytes) (walk : BlobWalk) (oid : Oid)
    (directory : Bytes) :
    (db.eval (enter ⟨gix, db.toStoreInfo, query, resumePath⟩ walk oid directory) >>= fun walk ↦
      .ok walk.stack) =
    db.eval (readTreeEntries gix db.toStoreInfo oid) >>= fun entries ↦
      .ok (⟨entries, directory⟩ :: walk.stack) := by
  simp only [enter, ObjectDb.eval_bind, eval_readTree hhints]
  cases db.eval (readTreeEntries gix db.toStoreInfo oid) with
  | ok entries =>
    obtain ⟨grown, hgrown⟩ := eval_prefetchBlobs hhints
      ⟨gix, db.toStoreInfo, query, resumePath⟩ directory entries walk.prefetchedBlobs
    simp [hgrown]
  | error e => rfl
  | diverged => rfl

/-! ### The walk without its position -/

/-- The pathspec check of a search. -/
def selects (gix : Gix) (query : SearchQuery) (path : Bytes) : Bool :=
  Pathspec.matchesPath gix query.pathspecs (relativeToScope path query.path)

private theorem scope_selects (info : StoreInfo) (resumePath : Option Bytes) (path : Bytes) :
    (⟨gix, info, query, resumePath⟩ : WalkScope).selects path = selects gix query path := rfl

/-- `BlobWalk::next` on the stack alone. -/
def nextOf (db : ObjectDb) (gix : Gix) (query : SearchQuery) :
    ℕ → List WalkFrame → Outcome Error (Option BlobCandidate × List WalkFrame)
  | 0, _ => .diverged
  | _ + 1, [] => .ok (none, [])
  | fuel + 1, frame :: stack =>
    match frame.entries with
    | [] => nextOf db gix query fuel stack
    | entry :: rest =>
      let path := joinPath frame.directory entry.name
      let stack := { frame with entries := rest } :: stack
      if entry.kind = .tree then do
        let entries ← db.eval (readTreeEntries gix db.toStoreInfo entry.oid)
        nextOf db gix query fuel (⟨entries, path⟩ :: stack)
      else if entry.kind = .blob ∧ selects gix query path then
        .ok (some ⟨path, entry.oid⟩, stack)
      else nextOf db gix query fuel stack

/-- The walk of every position advances in the same way. -/
theorem eval_next (hhints : Hints db) (resumePath : Option Bytes) (fuel : ℕ) (walk : BlobWalk) :
    (db.eval (next ⟨gix, db.toStoreInfo, query, resumePath⟩ fuel walk) >>= fun (candidate, walk) ↦
      .ok (candidate, walk.stack)) = nextOf db gix query fuel walk.stack := by
  induction fuel generalizing walk with
  | zero => rfl
  | succ fuel ih =>
    obtain ⟨stack, replaying, prefetched⟩ := walk
    simp only [next, ObjectDb.eval_bind, ObjectDb.eval_check, Outcome.ok_bind]
    cases stack with
    | nil => rfl
    | cons frame stack =>
      cases hentries : frame.entries with
      | nil =>
        simp only [nextOf, hentries]
        exact ih _
      | cons entry rest =>
        simp only [nextOf, hentries]
        by_cases htree : entry.kind = .tree
        · rw [if_pos htree, if_pos htree, ObjectDb.eval_bind]
          calc _ = (db.eval (enter ⟨gix, db.toStoreInfo, query, resumePath⟩
                  ⟨{ frame with entries := rest } :: stack, replaying, prefetched⟩ entry.oid
                  (joinPath frame.directory entry.name)) >>= fun walk ↦ .ok walk.stack) >>=
                nextOf db gix query fuel := by
                rw [Outcome.bind_assoc, Outcome.bind_assoc]
                congr 1
                funext walk
                exact ih walk
            _ = _ := by
                rw [eval_enter hhints, Outcome.bind_assoc]
                rfl
        · rw [if_neg htree, if_neg htree, scope_selects]
          by_cases hselects : entry.kind = .blob ∧
              selects gix query (joinPath frame.directory entry.name) = true
          · rw [if_pos hselects, if_pos hselects]
            rfl
          · rw [if_neg hselects, if_neg hselects]
            exact ih _

/-- The walk advances as its stack does. -/
theorem eval_next_of_ok (hhints : Hints db) (resumePath : Option Bytes) {fuel : ℕ}
    {walk : BlobWalk} {candidate : Option BlobCandidate} {stack : List WalkFrame}
    (h : nextOf db gix query fuel walk.stack = .ok (candidate, stack)) :
    ∃ walk', db.eval (next ⟨gix, db.toStoreInfo, query, resumePath⟩ fuel walk) =
      .ok (candidate, walk') ∧ walk'.stack = stack := by
  rw [← eval_next hhints resumePath] at h
  obtain ⟨⟨candidate', walk'⟩, hnext, h⟩ := Outcome.bind_eq_ok.mp h
  obtain ⟨rfl, rfl⟩ := Prod.mk.inj (Outcome.ok.inj h)
  exact ⟨walk', hnext, rfl⟩

/-- A directory that is entered has been read. -/
theorem enter_eq_ok {resumePath : Option Bytes} {walk walk' : BlobWalk} {oid : Oid}
    {directory : Bytes}
    (h : db.eval (enter ⟨gix, db.toStoreInfo, query, resumePath⟩ walk oid directory) = .ok walk') :
    ∃ entries, db.eval (readTreeEntries gix db.toStoreInfo oid) = .ok entries ∧
      walk'.stack = ⟨entries, directory⟩ :: walk.stack := by
  simp only [enter, ObjectDb.eval_bind, Outcome.bind_eq_ok] at h
  obtain ⟨entries, hread, prefetched, -, h⟩ := h
  obtain rfl := Outcome.ok.inj h
  refine ⟨entries, ?_, rfl⟩
  unfold readTree at hread
  split at hread
  · simp only [readTreeEntriesForGraphWalk, ObjectDb.eval_bind, eval_readTreeEntriesGraph,
      Outcome.bind_eq_ok] at hread
    obtain ⟨entries', hread, -, -, h⟩ := hread
    rw [hread, ← h, ObjectDb.eval_pure]
  · exact ObjectDb.eval_readTreeEntriesForWalk hread

/-- Whether or not hints succeed, a walk that advances does so as its stack says. -/
theorem nextOf_of_next {resumePath : Option Bytes} {fuel : ℕ} {walk walk' : BlobWalk}
    {candidate : Option BlobCandidate}
    (h : db.eval (next ⟨gix, db.toStoreInfo, query, resumePath⟩ fuel walk) =
      .ok (candidate, walk')) :
    nextOf db gix query fuel walk.stack = .ok (candidate, walk'.stack) := by
  induction fuel generalizing walk with
  | zero => cases h
  | succ fuel ih =>
    obtain ⟨stack, replaying, prefetched⟩ := walk
    simp only [next, ObjectDb.eval_bind, ObjectDb.eval_check, Outcome.ok_bind] at h
    cases stack with
    | nil =>
      obtain ⟨rfl, rfl⟩ := Prod.mk.inj (Outcome.ok.inj h)
      rfl
    | cons frame stack =>
      cases hentries : frame.entries with
      | nil =>
        simp only [hentries] at h
        simp only [nextOf, hentries]
        exact ih h
      | cons entry rest =>
        simp only [hentries] at h
        simp only [nextOf, hentries]
        by_cases htree : entry.kind = .tree
        · rw [if_pos htree, ObjectDb.eval_bind, Outcome.bind_eq_ok] at h
          obtain ⟨entered, henter, h⟩ := h
          obtain ⟨entries, hread, hstack⟩ := enter_eq_ok henter
          have hnext := ih h
          rw [hstack] at hnext
          rw [if_pos htree, hread]
          exact hnext
        · rw [if_neg htree, scope_selects] at h
          rw [if_neg htree]
          by_cases hselects : entry.kind = .blob ∧
              selects gix query (joinPath frame.directory entry.name) = true
          · rw [if_pos hselects] at h ⊢
            obtain ⟨rfl, rfl⟩ := Prod.mk.inj (Outcome.ok.inj h)
            rfl
          · rw [if_neg hselects] at h ⊢
            exact ih h

/-- The candidates a walk yields, up to a number of them, and how it ends. -/
def trace (db : ObjectDb) (gix : Gix) (query : SearchQuery) (bound : ℕ) :
    ℕ → List WalkFrame → List BlobCandidate × Outcome Error Unit
  | 0, _ => ([], .diverged)
  | fuel + 1, stack =>
    match nextOf db gix query bound stack with
    | .ok (none, _) => ([], .ok ())
    | .ok (some candidate, stack) =>
      (candidate :: (trace db gix query bound fuel stack).1, (trace db gix query bound fuel stack).2)
    | .error e => ([], .error e)
    | .diverged => ([], .diverged)

/-! ### The order of the candidates -/

/-- The candidates among visited entries. -/
def candidatesOf (gix : Gix) (query : SearchQuery) (visited : List (Bytes × OwnedTreeEntry)) :
    List BlobCandidate :=
  (visited.filter fun v ↦ v.2.kind = .blob ∧ selects gix query v.1).map fun v ↦ ⟨v.1, v.2.oid⟩

/-- The trees a search reads: it descends into all of them. -/
def blobWalk (db : ObjectDb) (gix : Gix) : TreeWalk :=
  db.treeWalk gix fun _ entry _ ↦ entry.kind = .tree

private theorem regular_blobWalk (hcanonical : db.CanonicalTrees gix) : (blobWalk db gix).Regular :=
  db.regular_treeWalk hcanonical fun _ _ _ h ↦ by simpa using h

/-- The depth of a directory does not matter to a search. -/
theorem visits_depth {cut : Prop} {entries : List OwnedTreeEntry} {dir : Bytes} {depth : ℕ}
    {visited : List (Bytes × OwnedTreeEntry)}
    (h : (blobWalk db gix).Visits cut entries dir depth visited) (depth' : ℕ) :
    (blobWalk db gix).Visits cut entries dir depth' visited := by
  induction h generalizing depth' with
  | nil => exact .nil
  | leave hcut => exact .leave hcut
  | leaf hleaf hrest ih => exact .leaf hleaf (ih depth')
  | tree htree hread hbelow hrest ihbelow ih =>
    exact .tree htree hread (ihbelow _) (ih depth')

/-- What the walk visits from a stack of directories on, where it may end anywhere. -/
inductive Walked (db : ObjectDb) (gix : Gix) :
    List WalkFrame → List (Bytes × OwnedTreeEntry) → Prop where
  | nil : Walked db gix [] []
  | cons {frame : WalkFrame} {stack : List WalkFrame}
      {visited visited' : List (Bytes × OwnedTreeEntry)}
      (hframe : (blobWalk db gix).Visits True frame.entries frame.directory 1 visited)
      (hstack : Walked db gix stack visited') :
      Walked db gix (frame :: stack) (visited ++ visited')

private theorem walked_nil (stack : List WalkFrame) : Walked db gix stack [] := by
  induction stack with
  | nil => exact .nil
  | cons frame stack ih => exact .cons (.leave trivial) ih

/-- The entry at the front of a stack is visited before the rest. -/
theorem Walked.leaf {frame : WalkFrame} {entry : OwnedTreeEntry} {rest : List OwnedTreeEntry}
    {stack : List WalkFrame} {visited : List (Bytes × OwnedTreeEntry)}
    (hentries : frame.entries = entry :: rest) (hkind : entry.kind ≠ .tree)
    (h : Walked db gix ({ frame with entries := rest } :: stack) visited) :
    Walked db gix (frame :: stack) ((joinPath frame.directory entry.name, entry) :: visited) := by
  cases h with
  | cons hframe hstack =>
    have hleaf : (blobWalk db gix).descends (joinPath frame.directory entry.name) entry 1 = false :=
      decide_eq_false hkind
    have hvisits := TreeWalk.Visits.leaf hleaf hframe
    rw [← hentries] at hvisits
    exact .cons hvisits hstack

/-- A tree at the front of a stack is visited, then what is in it, then the rest. -/
theorem Walked.tree {frame : WalkFrame} {entry : OwnedTreeEntry}
    {rest children : List OwnedTreeEntry} {stack : List WalkFrame}
    {visited : List (Bytes × OwnedTreeEntry)} (hentries : frame.entries = entry :: rest)
    (hkind : entry.kind = .tree)
    (hread : db.eval (readTreeEntries gix db.toStoreInfo entry.oid) = .ok children)
    (h : Walked db gix (⟨children, joinPath frame.directory entry.name⟩ ::
      { frame with entries := rest } :: stack) visited) :
    Walked db gix (frame :: stack) ((joinPath frame.directory entry.name, entry) :: visited) := by
  cases h with
  | cons hbelow hstack =>
    cases hstack with
    | cons hframe hstack =>
      have htree : (blobWalk db gix).descends (joinPath frame.directory entry.name) entry 1 = true :=
        decide_eq_true hkind
      have hvisits := TreeWalk.Visits.tree htree hread (visits_depth hbelow _) hframe
      rw [← hentries] at hvisits
      rw [← List.append_assoc]
      exact .cons hvisits hstack

private theorem candidatesOf_cons_blob {path : Bytes} {entry : OwnedTreeEntry}
    {visited : List (Bytes × OwnedTreeEntry)}
    (h : entry.kind = .blob ∧ selects gix query path = true) :
    candidatesOf gix query ((path, entry) :: visited) =
      ⟨path, entry.oid⟩ :: candidatesOf gix query visited := by
  simp [candidatesOf, h]

private theorem candidatesOf_cons_other {path : Bytes} {entry : OwnedTreeEntry}
    {visited : List (Bytes × OwnedTreeEntry)}
    (h : ¬ (entry.kind = .blob ∧ selects gix query path = true)) :
    candidatesOf gix query ((path, entry) :: visited) = candidatesOf gix query visited := by
  simp [candidatesOf, h]

/-- The candidate the walk advances to is the first among what it visits. -/
theorem walked_of_nextOf {fuel : ℕ} {stack stack' : List WalkFrame} {candidate : BlobCandidate}
    (h : nextOf db gix query fuel stack = .ok (some candidate, stack'))
    {visited' : List (Bytes × OwnedTreeEntry)} (hwalked : Walked db gix stack' visited') :
    ∃ visited, Walked db gix stack visited ∧
      candidatesOf gix query visited = candidate :: candidatesOf gix query visited' := by
  induction fuel generalizing stack with
  | zero => cases h
  | succ fuel ih =>
    cases stack with
    | nil => cases h
    | cons frame stack =>
      cases hentries : frame.entries with
      | nil =>
        simp only [nextOf, hentries] at h
        obtain ⟨visited, hvisited, hcandidates⟩ := ih h
        rw [← List.nil_append visited] at hcandidates
        refine ⟨[] ++ visited, .cons ?_ hvisited, hcandidates⟩
        rw [hentries]
        exact .nil
      | cons entry rest =>
        simp only [nextOf, hentries] at h
        by_cases htree : entry.kind = .tree
        · rw [if_pos htree, Outcome.bind_eq_ok] at h
          obtain ⟨children, hread, h⟩ := h
          obtain ⟨visited, hvisited, hcandidates⟩ := ih h
          refine ⟨_, hvisited.tree hentries htree hread, ?_⟩
          rw [candidatesOf_cons_other (by simp [htree]), hcandidates]
        · rw [if_neg htree] at h
          by_cases hselects : entry.kind = .blob ∧
              selects gix query (joinPath frame.directory entry.name) = true
          · rw [if_pos hselects] at h
            obtain ⟨hcandidate, rfl⟩ := Prod.mk.inj (Outcome.ok.inj h)
            obtain rfl := Option.some.inj hcandidate
            exact ⟨_, hwalked.leaf hentries htree, candidatesOf_cons_blob hselects⟩
          · rw [if_neg hselects] at h
            obtain ⟨visited, hvisited, hcandidates⟩ := ih h
            refine ⟨_, hvisited.leaf hentries htree, ?_⟩
            rw [candidatesOf_cons_other hselects, hcandidates]

/-- The candidates of a trace are those among what the walk visits. -/
theorem walked_trace (bound fuel : ℕ) (stack : List WalkFrame) :
    ∃ visited, Walked db gix stack visited ∧
      (trace db gix query bound fuel stack).1 = candidatesOf gix query visited := by
  induction fuel generalizing stack with
  | zero => exact ⟨[], walked_nil stack, rfl⟩
  | succ fuel ih =>
    rw [trace]
    cases hnext : nextOf db gix query bound stack with
    | error e => exact ⟨[], walked_nil stack, rfl⟩
    | diverged => exact ⟨[], walked_nil stack, rfl⟩
    | ok advanced =>
      obtain ⟨candidate, stack'⟩ := advanced
      cases candidate with
      | none => exact ⟨[], walked_nil stack, rfl⟩
      | some candidate =>
        obtain ⟨visited', hvisited', hcandidates'⟩ := ih stack'
        obtain ⟨visited, hvisited, hcandidates⟩ := walked_of_nextOf hnext hvisited'
        refine ⟨visited, hvisited, ?_⟩
        rw [hcandidates, ← hcandidates']

/-- Candidates in the order of their paths, all valid and inside the searched tree. -/
structure InOrder (base : Bytes) (candidates : List BlobCandidate) : Prop where
  sorted : candidates.Pairwise fun c d ↦ c.path < d.path
  inside : ∀ c ∈ candidates, validatePath c.path = .ok () ∧
    ∃ rest, rest ≠ [] ∧ c.path = joinPath base rest

/-- Over canonical trees the candidates come in order. -/
theorem inOrder_trace (hcanonical : db.CanonicalTrees gix) {treeOid : Oid}
    {entries : List OwnedTreeEntry}
    (hread : db.eval (readTreeEntries gix db.toStoreInfo treeOid) = .ok entries)
    (hpath : validatePath query.path = .ok ()) (bound fuel : ℕ) :
    InOrder query.path (trace db gix query bound fuel [⟨entries, query.path⟩]).1 := by
  have hregular := regular_blobWalk hcanonical
  have hvalid := hregular.valid _ _ hread
  obtain ⟨visited, hwalked, hcandidates⟩ : ∃ visited,
      Walked db gix [⟨entries, query.path⟩] visited ∧
      (trace db gix query bound fuel [⟨entries, query.path⟩]).1 = candidatesOf gix query visited :=
    walked_trace bound fuel _
  rw [hcandidates]
  cases hwalked with
  | @cons _ _ visited visited' hvisits hstack =>
    cases hstack
    rw [List.append_nil]
    constructor
    · have hordered := hvisits.ordered hregular (hregular.canonical _ _ hread) hvalid
      refine List.pairwise_map.mpr (List.Pairwise.imp_of_mem ?_ (hordered.sublist List.filter_sublist))
      intro v w hv hw h
      have hkind : ∀ u ∈ visited.filter fun v ↦ v.2.kind = .blob ∧ selects gix query v.1,
          u.2.kind ≠ .tree := by
        intro u hu
        have hblob := of_decide_eq_true (List.mem_filter.mp hu).2
        rw [hblob.1]
        exact nofun
      rw [gitKey_of_ne (hkind v hv), gitKey_of_ne (hkind w hw)] at h
      exact h.1
    · intro c hc
      obtain ⟨v, hv, rfl⟩ := List.mem_map.mp hc
      exact (hvisits.reaches (List.mem_of_mem_filter hv)).valid hregular hvalid hpath

end Gitility.Search
