import Gitility.Diff.TrackerRuns

/-!
# Diffs with rename tracking

Rename tracking only joins changes: a diff that lists renames lists the deletion and the addition that each stands for,
and with these it lists exactly the differences of the leaves, each once.
-/

namespace Gitility.GixDiff

open Diff
open scoped List

variable {db : ObjectDb} {projected : List (Oid × Bytes)} {gix : Gix} {find : Oid → Option Bytes} {depth fuel : ℕ}
  {directory : Bytes} {as bs : List TreeEntry} {change : Change} {path : Bytes} {σ : Type}

/-! ### Files and trees -/

private theorem kind_bare (change : Change) : change.bare.kind = change.kind := by cases change <;> rfl

/-- Trees that are deleted or added are found. -/
theorem isSome_of_mem_differences (has : Walkable gix find depth as) (hbs : Walkable gix find depth bs)
    (hmem : (change, path) ∈ differences gix find depth directory as bs) (hkind : change.kind ≠ .modification)
    (htree : isTree change.entryMode) : (find change.id).isSome := by
  induction depth generalizing directory as bs with
  | zero => exact has.elim
  | succ depth ih =>
    rw [differences_succ] at hmem
    obtain ⟨j, hj, hmem⟩ := List.mem_flatMap.mp hmem
    rw [nameDifferences] at hmem
    rcases List.mem_append.mp hmem with hmem | hmem
    · obtain ⟨own, hown, heq⟩ := List.mem_map.mp hmem
      cases heq
      cases j with
      | left entry =>
        obtain rfl := List.mem_singleton.mp hown
        obtain ⟨payload, children, hfind, -⟩ := has.2.2 entry (mem_left_iff.mpr ⟨_, hj, rfl⟩) htree
        exact Option.isSome_iff_exists.mpr ⟨payload, hfind⟩
      | right entry =>
        obtain rfl := List.mem_singleton.mp hown
        obtain ⟨payload, children, hfind, -⟩ := hbs.2.2 entry (mem_right_iff.mpr ⟨_, hj, rfl⟩) htree
        exact Option.isSome_iff_exists.mpr ⟨payload, hfind⟩
      | both lhs rhs =>
        simp only [nameChanges] at hown
        split at hown <;> split at hown <;> simp at hown <;> simp [hown, Change.kind] at hkind
    · obtain ⟨trees, htrees, hmem⟩ := List.mem_flatMap.mp hmem
      obtain ⟨hlhs, hrhs⟩ := Task.walkable (ready_of_nameTrees has hbs hj (Option.mem_toList.mp htrees) none [])
      exact ih hlhs hrhs hmem

/-- Where no file has the ID of a tree, the ID of a deleted or added entry tells its sort. -/
theorem sort_of_mem_differences (has : Walkable gix find depth as) (hbs : Walkable gix find depth bs)
    (hold : ∀ leaf, LeafOf gix find directory as leaf → find leaf.oid = none)
    (hnew : ∀ leaf, LeafOf gix find directory bs leaf → find leaf.oid = none)
    (hmem : (change, path) ∈ differences gix find depth directory as bs) (hkind : change.kind ≠ .modification) :
    isTree change.entryMode ↔ (find change.id).isSome := by
  refine ⟨isSome_of_mem_differences has hbs hmem hkind, fun hsome ↦ ?_⟩
  by_contra hfile
  have hleaf : change.ofLeaf := by
    cases change with
    | modification => exact absurd rfl hkind
    | addition | deletion => simpa [Change.ofLeaf, Change.entryMode] using hfile
  have hdiffers := (mem_differences has hbs).mp ⟨hmem, hleaf⟩
  have hnone : find change.id = none := by
    cases change with
    | modification => exact absurd rfl hkind
    | addition => exact hnew _ hdiffers.2.1
    | deletion => exact hold _ hdiffers.2.1
  rw [hnone] at hsome
  cases hsome

/-! ### Tracked walks -/

/-- The diff with the walk of gix-diff and its rename tracking, for a platform of a threshold for blobs. -/
def withTracker (gix : Gitoxide) (platform : ℕ → Platform σ) (turns : ℕ) : Gitoxide :=
  { gix with
    treeWithRewrites := fun base head limit maxObjectBytes ↦ match limit with
      | none => treeWithoutRewrites gix.trees turns base head
      | some limit => treeWithTracker (platform maxObjectBytes) gix.trees turns limit base head }

/-- The walk of prepared trees lists the parts of what it keeps, unless it is stopped; it relies on as few subtrees
as there are change IDs. -/
theorem exec_treeWithTracker (platform : Platform σ) (maxDiffFiles : ℕ) {pathspecs : List Bytes} {base head : Oid}
    {basePayload headPayload : Bytes} (hbase : Prepared gix db pathspecs projected depth base basePayload)
    (hhead : Prepared gix db pathspecs projected depth head headPayload)
    (hfiles : ∀ leaf, Selected gix db pathspecs base leaf ∨ Selected gix db pathspecs head leaf →
      findTree db projected leaf.oid = none)
    (hfew : storedSubtrees gix db depth base + storedSubtrees gix db depth head < 2 ^ 32) : ∃ turns changes,
      (∀ raw, raw ∈ changes ↔ Difference (Selected gix db pathspecs base) (Selected gix db pathspecs head) raw) ∧
      (changes.map RawChange.sortPath).Nodup ∧
      ∀ limit more (state state' : WalkState),
        state.adapter.projectedTrees = projected → state.changes = [] →
        (treeWithTracker platform gix (more + turns) limit (base.kind, basePayload) (head.kind, headPayload)).exec
            (walkAnswer db maxDiffFiles) state = (.ok (), state') →
        state'.stoppedBy = none → state'.changes.flatMap parts ~ changes := by
  obtain ⟨as, has, hwalkBase, hleavesBase, hcountBase⟩ := hbase
  obtain ⟨bs, hbs, hwalkHead, hleavesHead, hcountHead⟩ := hhead
  obtain ⟨turns, visits, hperm, hsides, hrun⟩ := exec_tree track serves_walkAnswer hwalkBase hwalkHead has hbs
  have hdirectories : directories gix (findTree db projected) depth as bs ≤ 2 ^ 32 :=
    (directories_le hwalkBase hwalkHead).trans (by omega)
  obtain ⟨deleted, bound, hsided⟩ := hsides hdirectories
  have hchanges : rawChanges visits ~ rawChanges (differences gix (findTree db projected) depth [] as bs) := by
    rw [← rawChanges_bare visits]
    exact hperm.filterMap _
  have hvisits : ∀ v ∈ visits, (∃ bound, v.1.Sided deleted bound) ∧
      (v.1.kind ≠ .modification → (isTree v.1.entryMode ↔ (findTree db projected v.1.id).isSome)) := by
    rintro ⟨change, path⟩ hv
    refine ⟨⟨bound, hsided _ hv⟩, fun hkind ↦ ?_⟩
    have hmem : (change.bare, path) ∈ differences gix (findTree db projected) depth [] as bs :=
      hperm.mem_iff.mp (List.mem_map_of_mem (f := Prod.map Change.bare id) hv)
    have hsort := sort_of_mem_differences hwalkBase hwalkHead
      (fun leaf hleaf ↦ hfiles leaf (.inl ((hleavesBase leaf).mp hleaf)))
      (fun leaf hleaf ↦ hfiles leaf (.inr ((hleavesHead leaf).mp hleaf))) hmem
      (by rwa [kind_bare])
    cases change <;> exact hsort
  refine ⟨turns, rawChanges visits, fun raw ↦ ?_, ?_, fun limit more state state' hstate hnone h hgoing ↦ ?_⟩
  · rw [hchanges.mem_iff, mem_rawChanges hwalkBase hwalkHead, funext fun leaf ↦ propext (hleavesBase leaf),
      funext fun leaf ↦ propext (hleavesHead leaf)]
  · exact (hchanges.map _).nodup_iff.mpr (nodup_rawChanges hwalkBase hwalkHead)
  · obtain ⟨tracker, state₁, htracked, h⟩ := Program.exec_bind_eq_ok.mp h
    obtain ⟨emission, state₂, hemitted, h⟩ := Program.exec_bind_eq_ok.mp h
    have hstart : Consistent deleted (fun oid ↦ (findTree db projected oid).isSome) [] { limit } state :=
      ⟨by simp, by simp, fun _ ↦ by simp [hnone, waiting]⟩
    rw [hrun more { limit } state hstate] at htracked
    have hconsistent := (leads_track hstart hvisits).exec (fun _ _ ↦ rfl) htracked
    have hlisted := (leads_emitTracked hconsistent).exec (fun _ _ ↦ rfl) hemitted
    have hend : state' = state₂ := by
      cases herr : emission.err with
      | none =>
        rw [herr] at h
        cases h
        rfl
      | some error =>
        rw [herr] at h
        cases h
    subst hend
    exact hlisted hgoing

/-! ### Diffs -/

/-- No file has the ID of a tree, stored or projected. -/
def FilesApart (scope : Scope) (db : ObjectDb) (oid : Oid) : Prop :=
  ∀ leaf, HasLeaf scope.gix (treeOf db) oid [] leaf → treeOf db leaf.oid = none ∧
    (scope.patterns ≠ [] → ∀ fuel source directory kept, selection scope db fuel source directory = some kept →
      scope.treeId leaf.oid.kind (encodeTree kept) ≠ .ok leaf.oid)

private theorem findTree_of_filesApart {scope : Scope} {oid : Oid} {leaf : TreeLeaf} (h : FilesApart scope db oid)
    (hwritten : Written scope db projected) (hplain : scope.patterns = [] → projected = [])
    (hleaf : HasLeaf scope.gix (treeOf db) oid [] leaf) : findTree db projected leaf.oid = none := by
  obtain ⟨hstored, hprojected⟩ := h leaf hleaf
  have hlookup : projected.lookup leaf.oid = none := by
    by_contra hsome
    obtain ⟨fuel, source, directory, kept, hselection, hid⟩ := hwritten leaf.oid (Option.isSome_iff_ne_none.mpr hsome)
    refine hprojected (fun hpatterns ↦ ?_) fuel source directory kept hselection hid
    rw [hplain hpatterns] at hsome
    exact hsome rfl
  rw [findTree, hlookup, hstored]
  rfl

/-- A walk is closed with its state if it has ended well, or was stopped. -/
theorem eval_closeWalk_eq_ok {walked : Outcome TreeDiffError Unit × WalkState} {state : WalkState}
    (h : db.eval (closeWalk walked) = .ok state) :
    walked.2 = state ∧ (walked.1 = .ok () ∨ state.stoppedBy ≠ none) := by
  obtain ⟨outcome, state'⟩ := walked
  cases outcome with
  | ok _ =>
    cases h
    exact ⟨rfl, .inl rfl⟩
  | error error =>
    rw [closeWalk] at h
    split at h
    · cases h
    · split at h
      · cases h
      · next hstopped =>
        cases h
        exact ⟨rfl, .inr hstopped⟩
  | diverged => cases h

variable {opts : DiffOptions} {base head : Oid}

/-- The renames that a diff lists stand for a deletion and an addition each, and with these it lists the differences
of the selected leaves, each once, unless it is truncated. -/
theorem diffTrees_renames (gix : Gitoxide) (platform : ℕ → Platform σ) (hrenames : opts.renames = .similarity)
    (hformat : opts.format = .summary) (hle : depth ≤ fuel) (hbase : Canonical gix.trees db depth base)
    (hhead : Canonical gix.trees db depth head)
    (hprojects : opts.pathspecs ≠ [] → Projects ⟨gix.trees, gix.hashers, opts.pathspecs⟩ db)
    (hfilesBase : FilesApart ⟨gix.trees, gix.hashers, opts.pathspecs⟩ db base)
    (hfilesHead : FilesApart ⟨gix.trees, gix.hashers, opts.pathspecs⟩ db head)
    (hfew : storedSubtrees gix.trees db depth base + storedSubtrees gix.trees db depth head < 2 ^ 32) :
    ∃ turns, ∃ changes : List RawChange, (∀ raw, raw ∈ changes ↔
        Difference (Selected gix.trees db opts.pathspecs base) (Selected gix.trees db opts.pathspecs head) raw) ∧
      (changes.map RawChange.sortPath).Nodup ∧
      ∀ more diff, db.eval (diffTrees (withTracker gix platform (more + turns)) fuel base head opts) = .ok diff →
        diff.truncated = false →
        ∃ listed : List RawChange, diff.files = listed.map RawChange.intoFile ∧ listed.flatMap parts ~ changes := by
  obtain ⟨prepared, hprepared, hpreparedBase, hpreparedHead, hplain, hwritten⟩ :
      ∃ prepared, db.eval (prepareTrees gix fuel opts.toTreeDiffOptions base head) = .ok prepared ∧ _ :=
    exists_prepared gix hle hbase hhead hprojects
  obtain ⟨turns, changes, hmem, hnodup, hrun⟩ := exec_treeWithTracker (platform opts.maxObjectBytes)
    opts.maxDiffFiles hpreparedBase hpreparedHead (fun leaf hleaf ↦ by
      rcases hleaf with hleaf | hleaf
      · exact findTree_of_filesApart hfilesBase hwritten hplain hleaf.1
      · exact findTree_of_filesApart hfilesHead hwritten hplain hleaf.1) hfew
  refine ⟨turns, changes, hmem, hnodup, fun more diff hdiff htruncated ↦ ?_⟩
  by_cases heq : base = head
  · subst heq
    obtain rfl : changes = [] := List.eq_nil_iff_forall_not_mem.mpr fun raw hraw ↦
      not_difference_self hpreparedBase.unique ((hmem raw).mp hraw)
    obtain rfl : finish ⟨[], [], 0, {}, none⟩ [] none = diff := by simpa [diffTrees] using hdiff
    exact ⟨[], rfl, .refl _⟩
  · have hlimit : rewriteLimit opts.toTreeDiffOptions = some (min (opts.maxDiffFiles * opts.maxDiffFiles) u64Max) := by
      rw [rewriteLimit, hrenames]
    have hprepared' : db.eval (prepareTrees (withTracker gix platform (more + turns)) fuel opts.toTreeDiffOptions
        base head) = .ok prepared := hprepared
    simp only [diffTrees, ObjectDb.eval_bind, ObjectDb.eval_check, Outcome.ok_bind, if_neg heq] at hdiff
    obtain ⟨state, hwalk, hdiff⟩ := Outcome.bind_eq_ok.mp hdiff
    simp only [walkTrees, ObjectDb.eval_bind, hprepared', Outcome.ok_bind, hlimit, eval_runWalk] at hwalk
    obtain ⟨closed, hclosed, hwalk⟩ := Outcome.bind_eq_ok.mp hwalk
    cases hwalk
    rw [eval_populateFiles_summary _ hformat _ _ _ rfl] at hdiff
    cases hdiff
    obtain ⟨hstate, hend⟩ := eval_closeWalk_eq_ok hclosed
    have hgoing : closed.stoppedBy = none := by
      simpa [conclude, finish, Population.ofOversize] using htruncated
    refine ⟨closed.changes.mergeSort RawChange.le, rfl, ?_⟩
    have hparts := hrun _ more ⟨⟨opts.maxObjectBytes, prepared.projected, none, []⟩, [], none⟩ closed rfl rfl
      (Prod.ext (hend.resolve_right (not_not_intro hgoing)) hstate) hgoing
    exact ((List.mergeSort_perm _ _).flatMap_right _).trans hparts

/-! ### Sample trees -/

/-- A platform that finds nothing similar. -/
def samplePlatform : Platform Unit where
  initial := ()
  setResource _ _ _ _ _ := pure ()
  prepareDiff _ := pure (none, ())
  reads_setResource _ _ _ _ _ := trivial
  reads_prepareDiff _ := trivial

/-- The blobs in the sample. -/
def sampleBlobs : List Oid := [emptyBlob, letterBlob]

private theorem sampleTrees_files : ∀ tree ∈ sampleTrees, ∀ entry ∈ tree.2, ¬isTree entry.mode →
    entry.oid ∈ sampleBlobs := by
  decide +kernel

private theorem sampleBlobs_apart : ∀ blob ∈ sampleBlobs, blob.kind = .sha1 ∧
    treeOf sampleUnion.toObjectDb blob = none ∧ ∀ tree ∈ sampleProjections, tree.1 ≠ blob := by
  decide +kernel

/-- The files of the sample are its blobs. -/
theorem oid_of_sampleLeaf {oid : Oid} {leaf : TreeLeaf}
    (h : HasLeaf sampleDiffGix (treeOf sampleUnion.toObjectDb) oid directory leaf) : leaf.oid ∈ sampleBlobs := by
  obtain ⟨payload, hpayload, hleaf⟩ := h
  have hread : ∀ {oid : Oid} {payload : Bytes} {entries : List TreeEntry},
      treeOf sampleUnion.toObjectDb oid = some payload → treeEntries sampleDiffGix oid.kind payload = some entries →
        (oid, entries) ∈ sampleTrees := by
    intro oid payload entries hpayload hentries
    obtain ⟨stored, hmem, rfl⟩ := treeOf_sampleUnion hpayload
    obtain ⟨hkind, hstored⟩ := sampleTrees_read hmem
    rw [hkind] at hentries
    obtain rfl := Option.some.inj (hstored.symm.trans hentries)
    exact hmem
  generalize hkind : oid.kind = kind at hleaf
  induction hleaf generalizing oid with
  | @entry kind payload directory entries entry hentries hmem hfile =>
    subst hkind
    exact sampleTrees_files _ (hread hpayload hentries) entry hmem hfile
  | inside hentries hmem htree hfind hinside ih => exact ih hfind rfl

private theorem sampleFiles_apart (oid : Oid) : FilesApart sampleScope sampleUnion.toObjectDb oid := by
  intro leaf hleaf
  obtain ⟨hkind, hstored, hprojected⟩ := sampleBlobs_apart _ (oid_of_sampleLeaf hleaf)
  refine ⟨hstored, fun _ fuel source directory kept hselection hid ↦ ?_⟩
  obtain ⟨-, id, hmem, hid'⟩ := sampleProjections_of_selection hselection
  rw [hkind] at hid
  obtain rfl := Except.ok.inj (hid'.symm.trans hid)
  exact hprojected _ hmem rfl

private theorem sampleTrees_few : storedSubtrees sampleDiffGix sampleUnion.toObjectDb 2 sourceTreeId +
    storedSubtrees sampleDiffGix sampleUnion.toObjectDb 2 renamedTreeId < 2 ^ 32 := by
  decide +kernel

/-- A diff with rename tracking and without content. -/
def sampleRenameOptions : DiffOptions :=
  { pathspecs := sampleScope.patterns, renames := .similarity, format := .summary }

/-- The blob `x` is now `d`. -/
def sampleRename : RawChange := ⟨.renamed, some (Bytes.ascii "x"), some (Bytes.ascii "d"), some letterBlob,
  some letterBlob, some 0o100644, some 0o100644, some 100⟩

/-- What the walk tracks between the trees. -/
def sampleItems : List Item := [⟨.addition 0o100644 letterBlob none, Bytes.ascii "d", false⟩,
  ⟨.deletion 0o100644 letterBlob none, Bytes.ascii "x", false⟩]

private theorem mergeSort_pair {α : Type} {le : α → α → Bool} {a b : α} (h : le a b) : [a, b].mergeSort le = [a, b] := by
  simp [List.mergeSort, h]

/-- The tracker of the walk, with the limit of a thousand files. -/
def sampleTracker : Tracker := { items := sampleItems, limit := 1000000 }

private theorem sort_sampleTracker : sampleTracker.sortItemsByIdAndLocation = sampleTracker := by
  rw [Tracker.sortItemsByIdAndLocation, sampleTracker, sampleItems, mergeSort_pair (by decide +kernel)]

section Run

variable (state : WalkState)

private theorem exec_sampleTree (turns : ℕ) : (tree track sampleDiffGix (turns + 3) (.sha1, encodeTree sourceTree)
    (.sha1, encodeTree renamedTree) { limit := 1000000 }).exec (walkAnswer sampleUnion.toObjectDb 1000) state =
      (.ok sampleTracker, state) := rfl

/-- The blob is found again under its new name. -/
theorem exec_sampleTracker (hempty : state.changes = []) :
    (emitTracked samplePlatform { toTracker := sampleTracker, platform := () }).exec
        (walkAnswer sampleUnion.toObjectDb 1000) state =
      (.ok { items := sampleItems.map fun item ↦ { item with emitted := true }, limit := 1000000, platform := () },
        { state with changes := [sampleRename] }) := by
  obtain ⟨adapter, changes, stoppedBy⟩ := state
  subst hempty
  have hmatch : (emitMatches samplePlatform { toTracker := sampleTracker, platform := () }).exec
      (walkAnswer sampleUnion.toObjectDb 1000) ⟨adapter, [], stoppedBy⟩ =
        (.ok { items := sampleItems.map fun item ↦ { item with emitted := true }, limit := 1000000, platform := () },
          ⟨adapter, [sampleRename], stoppedBy⟩) := by
    rw [emitMatches, if_pos (by decide +kernel)]
    simp only [sort_sampleTracker]
    rfl
  rw [emitTracked, Program.exec_bind_ok hmatch, sampleItems, List.map_cons, List.map_cons, List.map_nil,
    mergeSort_pair (by decide +kernel)]
  rfl

/-- The diff lists the rename. -/
theorem eval_sampleRename (turns : ℕ) : sampleUnion.toObjectDb.eval (diffTrees (withTracker sampleGitoxide
    (fun _ ↦ samplePlatform) (turns + 3)) 2 sourceTreeId renamedTreeId sampleRenameOptions) =
      .ok (conclude ⟨[sampleRename.intoFile], [], 0, {}, none⟩ none) := by
  have hprepared : sampleUnion.toObjectDb.eval (prepareTrees (withTracker sampleGitoxide (fun _ ↦ samplePlatform)
      (turns + 3)) 2 sampleRenameOptions.toTreeDiffOptions sourceTreeId renamedTreeId) =
        .ok ⟨encodeTree sourceTree, encodeTree renamedTree, []⟩ := rfl
  have hlimit : rewriteLimit sampleRenameOptions.toTreeDiffOptions = some 1000000 := by decide +kernel
  have hwalk : (treeWithTracker samplePlatform sampleDiffGix (turns + 3) 1000000 (.sha1, encodeTree sourceTree)
      (.sha1, encodeTree renamedTree)).exec (walkAnswer sampleUnion.toObjectDb 1000)
        { adapter := ⟨sampleRenameOptions.maxObjectBytes, [], none, []⟩ } =
      (.ok (), { adapter := ⟨sampleRenameOptions.maxObjectBytes, [], none, []⟩, changes := [sampleRename] }) := by
    rw [treeWithTracker, Program.exec_bind_ok (exec_sampleTree _ turns)]
    exact Program.exec_bind_ok (exec_sampleTracker _ rfl) _
  have hne : sourceTreeId ≠ renamedTreeId := by decide +kernel
  have hclosed : sampleUnion.toObjectDb.eval (closeWalk ((treeWithTracker samplePlatform sampleGitoxide.trees
      (turns + 3) 1000000 (sourceTreeId.kind, encodeTree sourceTree) (renamedTreeId.kind, encodeTree renamedTree)).exec
        (walkAnswer sampleUnion.toObjectDb sampleRenameOptions.maxDiffFiles)
        { adapter := ⟨sampleRenameOptions.maxObjectBytes, [], none, []⟩ })) =
      .ok { adapter := ⟨sampleRenameOptions.maxObjectBytes, [], none, []⟩, changes := [sampleRename] } :=
    congrArg (fun walked ↦ sampleUnion.toObjectDb.eval (closeWalk walked)) hwalk
  simp only [diffTrees, ObjectDb.eval_bind, ObjectDb.eval_check, Outcome.ok_bind, if_neg hne, walkTrees, hprepared,
    hlimit, eval_runWalk]
  simp only [withTracker, hclosed, Outcome.ok_bind, ObjectDb.eval_pure, List.mergeSort_singleton]
  rfl

end Run

/-- Between the blob as `x` and as `d`. -/
theorem diffTrees_renames_sample : ∃ turns, ∃ changes : List RawChange, (∀ raw, raw ∈ changes ↔
      Difference (Selected sampleDiffGix sampleUnion.toObjectDb sampleScope.patterns sourceTreeId)
        (Selected sampleDiffGix sampleUnion.toObjectDb sampleScope.patterns renamedTreeId) raw) ∧
    ∃ diff, sampleUnion.toObjectDb.eval (diffTrees (withTracker sampleGitoxide (fun _ ↦ samplePlatform) turns) 2
        sourceTreeId renamedTreeId sampleRenameOptions) = .ok diff ∧
      diff.truncated = false ∧ diff.files = [sampleRename.intoFile] ∧
      ∃ listed : List RawChange, diff.files = listed.map RawChange.intoFile ∧ listed.flatMap parts ~ changes := by
  obtain ⟨turns, changes, hmem, -, hrun⟩ := @diffTrees_renames sampleUnion.toObjectDb 2 2 Unit sampleRenameOptions
    sourceTreeId renamedTreeId sampleGitoxide (fun _ ↦ samplePlatform) rfl rfl (Nat.le_refl 2)
    (canonical_sampleUnion (sourceTreeId, sourceTree) (by simp [sampleTrees]))
    (canonical_sampleUnion (renamedTreeId, renamedTree) (by simp [sampleTrees])) (fun _ ↦ sampleScope_projects)
    (sampleFiles_apart _) (sampleFiles_apart _) sampleTrees_few
  have hdiff := eval_sampleRename turns
  rw [Nat.add_comm] at hdiff
  exact ⟨3 + turns, changes, hmem, _, hdiff, rfl, rfl, hrun 3 _ hdiff rfl⟩

end Gitility.GixDiff
