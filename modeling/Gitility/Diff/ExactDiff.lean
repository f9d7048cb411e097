import Gitility.Diff.PreparedTrees

/-!
# Exact diffs

A diff without rename tracking, with or without pathspecs, lists the differences of the selected leaves of both trees,
each once and sorted by their paths, as far as its limit on files allows.
-/

namespace Gitility.GixDiff

open Diff
open scoped List

variable {db : ObjectDb} {projected : List (Oid × Bytes)} {maxDiffFiles : ℕ} {visits : List Visit}

/-! ### The callback of a diff -/

/-- How the adapter and the callback of `diff` answer a walk. -/
def walkAnswer (db : ObjectDb) (maxDiffFiles : ℕ) :
    ∀ op, WalkState → Except TreeDiffError (WalkOp.Answer op) × WalkState
  | .find oid, state =>
    match db.eval (state.adapter.tryFind oid) with
    | .ok (found, adapter) => (found.mapError fun _ ↦ .other, { state with adapter })
    | _ => (.error .other, state)
  | .header oid, state =>
    match db.eval (state.adapter.tryHeader oid) with
    | .ok (found, adapter) => (found.mapError fun _ ↦ .other, { state with adapter })
    | _ => (.error .other, state)
  | .change change, state => (.ok (state.push maxDiffFiles change).1, (state.push maxDiffFiles change).2)

private theorem projectedTrees_recordOversize (adapter : GixObjectStore) (oid : Oid) :
    (adapter.recordOversize oid).projectedTrees = adapter.projectedTrees := by
  rw [GixObjectStore.recordOversize]
  split <;> rfl

/-- An adapter answers, and goes on with the same projected trees. -/
theorem eval_tryFind_adapter (adapter : GixObjectStore) (oid : Oid) :
    ∃ found adapter', db.eval (adapter.tryFind oid) = .ok (found, adapter') ∧
      adapter'.projectedTrees = adapter.projectedTrees := by
  rw [GixObjectStore.tryFind]
  cases adapter.projectedTrees.lookup oid with
  | some tree => exact ⟨_, _, rfl, rfl⟩
  | none =>
    simp only [ObjectDb.eval_bind, ObjectDb.eval_attempt, ObjectDb.eval_tryFind]
    cases db.tryFind oid with
    | error error => exact ⟨_, _, rfl, rfl⟩
    | ok found =>
      simp only [Outcome.ofExcept_ok, Outcome.ok_bind]
      split
      · next heq => cases heq
      · split
        · exact ⟨_, _, rfl, projectedTrees_recordOversize adapter oid⟩
        · exact ⟨_, _, rfl, rfl⟩
      · exact ⟨_, _, rfl, rfl⟩

/-- The header lookup of the adapter always answers, and keeps the projected trees. -/
theorem eval_tryHeader_adapter (adapter : GixObjectStore) (oid : Oid) :
    ∃ found adapter', db.eval (adapter.tryHeader oid) = .ok (found, adapter') ∧
      adapter'.projectedTrees = adapter.projectedTrees := by
  rw [GixObjectStore.tryHeader]
  cases adapter.projectedTrees.lookup oid with
  | some tree => exact ⟨_, _, rfl, rfl⟩
  | none =>
    simp only [ObjectDb.eval_bind, ObjectDb.eval_attempt, ObjectDb.eval_tryHeaderWithProvenance]
    cases db.tryHeaderWithProvenance oid with
    | error error => exact ⟨_, _, rfl, rfl⟩
    | ok found =>
      simp only [Outcome.ofExcept_ok, Outcome.ok_bind]
      cases found with
      | none => exact ⟨_, _, rfl, rfl⟩
      | some read =>
        dsimp only
        split
        · exact ⟨_, _, rfl, projectedTrees_recordOversize adapter oid⟩
        · exact ⟨_, _, rfl, rfl⟩

/-- A walk runs as its answers say. -/
theorem eval_runWalk (walk : Diff.TreeWalk) (state : WalkState) :
    db.eval (runWalk maxDiffFiles walk state) = .ok (walk.exec (walkAnswer db maxDiffFiles) state) := by
  induction walk generalizing state with
  | done outcome => rfl
  | call op k ih =>
    cases op with
    | find oid =>
      obtain ⟨found, adapter, hrun, -⟩ := @eval_tryFind_adapter db state.adapter oid
      simp only [runWalk, ObjectDb.eval_bind, hrun, Outcome.ok_bind, ih, Program.exec, walkAnswer]
    | header oid =>
      obtain ⟨found, adapter, hrun, -⟩ := @eval_tryHeader_adapter db state.adapter oid
      simp only [runWalk, ObjectDb.eval_bind, hrun, Outcome.ok_bind, ih, Program.exec, walkAnswer]
    | change change =>
      rw [runWalk, ObjectDb.eval_bind, ObjectDb.eval_attempt_of_ok ObjectDb.eval_check, Outcome.ok_bind]
      exact ih _ _

/-- The adapter finds projected trees and stored ones. -/
theorem serves_walkAnswer : Serves (walkAnswer db maxDiffFiles)
    (fun state ↦ state.adapter.projectedTrees = projected) (findTree db projected) where
  keeps op state hstate := by
    cases op with
    | find oid =>
      obtain ⟨found, adapter, hrun, hkept⟩ := @eval_tryFind_adapter db state.adapter oid
      simp only [walkAnswer, hrun]
      exact hkept.trans hstate
    | header oid =>
      obtain ⟨found, adapter, hrun, hkept⟩ := @eval_tryHeader_adapter db state.adapter oid
      simp only [walkAnswer, hrun]
      exact hkept.trans hstate
    | change change =>
      have hpush : (state.push maxDiffFiles change).2.adapter = state.adapter := by
        rw [WalkState.push]
        split
        · rfl
        · split <;> rfl
      exact (congrArg GixObjectStore.projectedTrees hpush).trans hstate
  finds state hstate oid payload hfind := by
    rw [findTree, Option.or_eq_some_iff] at hfind
    simp only [walkAnswer, GixObjectStore.tryFind, hstate]
    rcases hfind with hprojected | ⟨hprojected, hstored⟩
    · rw [hprojected]
      rfl
    · have hfound : db.tryFind oid = .ok (some (.tree, payload)) := by
        rw [treeOf] at hstored
        split at hstored
        · next hread =>
          cases hstored
          exact hread
        · cases hstored
      rw [hprojected]
      simp only [ObjectDb.eval_bind, ObjectDb.eval_attempt, ObjectDb.eval_tryFind, hfound, Outcome.ofExcept_ok,
        Outcome.ok_bind]
      rfl

/-- What the callback keeps of the visits, without its limit. -/
def rawChanges (visits : List Visit) : List RawChange := visits.filterMap fun v ↦ normalizeChange (v.1.toRef v.2)

/-- The callback keeps the first changes. -/
theorem exec_visitEach (visits : List Visit) (state : WalkState) (hroom : state.changes.length ≤ maxDiffFiles) :
    (visitEach emit visits ()).exec (walkAnswer db maxDiffFiles) state =
      if (state.changes ++ rawChanges visits).length ≤ maxDiffFiles then
        (.ok (), { state with changes := state.changes ++ rawChanges visits })
      else (.error .other, { state with
        changes := (state.changes ++ rawChanges visits).take maxDiffFiles, stoppedBy := some "max_diff_files" }) := by
  induction visits generalizing state with
  | nil => simp [visitEach, rawChanges, hroom]
  | cons v visits ih =>
    obtain ⟨change, path⟩ := v
    have hvisit : (emit change path ()).exec (walkAnswer db maxDiffFiles) state =
        (if (state.push maxDiffFiles (change.toRef path)).1 then .ok () else .error .other,
          (state.push maxDiffFiles (change.toRef path)).2) := by
      have hask : (Program.request (WalkOp.change (change.toRef path)) :
          Walking (WalkOp.Answer (.change (change.toRef path)))).exec (walkAnswer db maxDiffFiles) state =
            (.ok (state.push maxDiffFiles (change.toRef path)).1, (state.push maxDiffFiles (change.toRef path)).2) := rfl
      refine (Program.exec_bind_ok hask _).trans ?_
      split <;> rfl
    have hlast : ∀ raw, normalizeChange (change.toRef path) = some raw →
        rawChanges ((change, path) :: visits) = raw :: rawChanges visits := fun raw hraw ↦
      List.filterMap_cons_some hraw
    have hskip : normalizeChange (change.toRef path) = none →
        rawChanges ((change, path) :: visits) = rawChanges visits := fun h ↦ List.filterMap_cons_none h
    cases hraw : normalizeChange (change.toRef path) with
    | none =>
      have hpush : state.push maxDiffFiles (change.toRef path) = (true, state) := by rw [WalkState.push, hraw]
      rw [hpush] at hvisit
      rw [visitEach, Program.exec_bind_ok hvisit, ih state hroom, hskip hraw]
    | some raw =>
      rw [hlast raw hraw]
      by_cases hfull : state.changes.length = maxDiffFiles
      · have hpush : state.push maxDiffFiles (change.toRef path) =
            (false, { state with stoppedBy := some "max_diff_files" }) := by
          rw [WalkState.push, hraw]
          exact if_pos hfull
        rw [hpush] at hvisit
        rw [visitEach, Program.exec_bind_error hvisit, if_neg (by simp; omega), ← hfull, List.take_left]
      · have hpush : state.push maxDiffFiles (change.toRef path) =
            (true, { state with changes := state.changes ++ [raw] }) := by
          rw [WalkState.push, hraw]
          exact if_neg hfull
        rw [hpush] at hvisit
        rw [visitEach, Program.exec_bind_ok hvisit, ih _ (by simp; omega), List.append_assoc]
        rfl

/-! ### Differences of leaves -/

/-- The change is a difference of the old leaves and the new ones. -/
inductive Difference (old new : TreeLeaf → Prop) : RawChange → Prop
  | added {leaf : TreeLeaf} (hnew : new leaf) (hold : ∀ other, old other → other.path ≠ leaf.path) :
    Difference old new ⟨.added, none, some leaf.path, none, some leaf.oid, none, some leaf.mode, none⟩
  | deleted {leaf : TreeLeaf} (hold : old leaf) (hnew : ∀ other, new other → other.path ≠ leaf.path) :
    Difference old new ⟨.deleted, some leaf.path, none, some leaf.oid, none, some leaf.mode, none, none⟩
  | modified {path : Bytes} {oldMode newMode : ℕ} {oldOid newOid : Oid} (hold : old ⟨path, oldMode, oldOid⟩)
      (hnew : new ⟨path, newMode, newOid⟩) (hne : oldOid ≠ newOid ∨ oldMode ≠ newMode) :
    Difference old new ⟨if modeType oldMode = modeType newMode then .modified else .typeChanged, some path,
      some path, some oldOid, some newOid, some oldMode, some newMode, none⟩

variable {old new : TreeLeaf → Prop} {raw : RawChange} {change : Change} {path : Bytes}

private theorem normalizeChange_bare : normalizeChange (change.bare.toRef path) = normalizeChange (change.toRef path) := by
  cases change <;> rfl

/-- The callback keeps the changes of files. -/
theorem ofLeaf_of_normalizeChange (h : normalizeChange (change.toRef path) = some raw) : change.ofLeaf := by
  cases change with
  | addition entryMode oid relation =>
    by_cases htree : isTree entryMode
    · simp [Change.toRef, normalizeChange, htree] at h
    · simp [Change.ofLeaf, htree]
  | deletion entryMode oid relation =>
    by_cases htree : isTree entryMode
    · simp [Change.toRef, normalizeChange, htree] at h
    · simp [Change.ofLeaf, htree]
  | modification previousEntryMode previousOid entryMode oid =>
    by_cases htree : isTree previousEntryMode ∧ isTree entryMode
    · simp [Change.toRef, normalizeChange, htree] at h
    · simp [Change.ofLeaf, htree]

private theorem sortPath_of_normalizeChange (h : normalizeChange (change.toRef path) = some raw) : raw.sortPath = path := by
  cases change with
  | addition | deletion | modification =>
    rw [Change.toRef, normalizeChange] at h
    split at h
    · cases h
    · cases h
      rfl

/-- Differences of files are kept as they are. -/
theorem difference_iff (hold : ∀ leaf, old leaf → ¬isTree leaf.mode) (hnew : ∀ leaf, new leaf → ¬isTree leaf.mode) :
    Difference old new raw ↔
      ∃ change path, Differs old new change path ∧ normalizeChange (change.toRef path) = some raw := by
  constructor
  · intro h
    cases h with
    | added hmem hother => exact ⟨.addition _ _ none, _, ⟨rfl, hmem, hother⟩, if_neg (hnew _ hmem)⟩
    | deleted hmem hother => exact ⟨.deletion _ _ none, _, ⟨rfl, hmem, hother⟩, if_neg (hold _ hmem)⟩
    | modified hmem hmem' hne =>
      exact ⟨.modification _ _ _ _, _, ⟨hmem, hmem', hne⟩, if_neg fun h ↦ hold _ hmem h.1⟩
  · rintro ⟨change, path, hdiffers, hraw⟩
    cases change with
    | addition entryMode oid relation =>
      obtain ⟨-, hmem, hother⟩ := hdiffers
      cases (if_neg (hnew _ hmem)).symm.trans hraw
      exact .added hmem hother
    | deletion entryMode oid relation =>
      obtain ⟨-, hmem, hother⟩ := hdiffers
      cases (if_neg (hold _ hmem)).symm.trans hraw
      exact .deleted hmem hother
    | modification previousEntryMode previousOid entryMode oid =>
      obtain ⟨hmem, hmem', hne⟩ := hdiffers
      cases (if_neg fun h : isTree previousEntryMode ∧ isTree entryMode ↦ hold _ hmem h.1).symm.trans hraw
      exact .modified hmem hmem' hne

section Leaves

variable {gix : Gix} {find : Oid → Option Bytes} {directory : Bytes} {depth : ℕ} {as bs : List TreeEntry}
  {leaf : TreeLeaf}

/-- A leaf is not a tree. -/
theorem not_isTree_of_leafOf (has : Walkable gix find depth as) (h : LeafOf gix find directory as leaf) :
    ¬isTree leaf.mode := by
  induction depth generalizing directory as with
  | zero => exact has.elim
  | succ depth ih =>
    obtain ⟨entry, hmem, hleaf⟩ := h
    rw [EntryLeaf] at hleaf
    split at hleaf
    · next htree =>
      obtain ⟨payload, children, hfind, hchildren, hwalkable⟩ := has.2.2 entry hmem htree
      exact ih hwalkable ((hasLeaf_iff_leafOf hfind hchildren).mp hleaf)
    · next htree =>
      rw [hleaf]
      exact htree

/-- What the callback keeps of the differences of two trees are the differences of their leaves. -/
theorem mem_rawChanges (has : Walkable gix find depth as) (hbs : Walkable gix find depth bs) :
    raw ∈ rawChanges (differences gix find depth directory as bs) ↔
      Difference (LeafOf gix find directory as) (LeafOf gix find directory bs) raw := by
  rw [difference_iff (fun _ ↦ not_isTree_of_leafOf has) fun _ ↦ not_isTree_of_leafOf hbs, rawChanges,
    List.mem_filterMap]
  constructor
  · rintro ⟨⟨change, path⟩, hmem, hraw⟩
    exact ⟨change, path, (mem_differences has hbs).mp ⟨hmem, ofLeaf_of_normalizeChange hraw⟩, hraw⟩
  · rintro ⟨change, path, hdiffers, hraw⟩
    exact ⟨(change, path), ((mem_differences has hbs).mpr hdiffers).1, hraw⟩

/-- Their paths are different. -/
theorem nodup_rawChanges (has : Walkable gix find depth as) (hbs : Walkable gix find depth bs) :
    ((rawChanges (differences gix find depth directory as bs)).map RawChange.sortPath).Nodup := by
  rw [rawChanges, List.map_filterMap, List.Nodup, List.pairwise_filterMap]
  refine (pairwise_differences has hbs).imp ?_
  rintro ⟨change, path⟩ ⟨change', path'⟩ hapart p hp p' hp'
  obtain ⟨raw, hraw, rfl⟩ := Option.map_eq_some_iff.mp hp
  obtain ⟨raw', hraw', rfl⟩ := Option.map_eq_some_iff.mp hp'
  rw [sortPath_of_normalizeChange hraw, sortPath_of_normalizeChange hraw']
  exact hapart (ofLeaf_of_normalizeChange hraw) (ofLeaf_of_normalizeChange hraw')

/-- The relations of changes have no part in the raw changes. -/
theorem rawChanges_bare (visits : List Visit) :
    rawChanges (visits.map (Prod.map Change.bare id)) = rawChanges visits := by
  rw [rawChanges, List.filterMap_map]
  exact List.filterMap_congr fun _ _ ↦ normalizeChange_bare

end Leaves

/-! ### Exact diffs -/

/-- The diff with the walk of gix-diff where it does not track rewrites; `turns` bounds its loop. -/
def withWalk (gix : Gitoxide) (turns : ℕ) : Gitoxide :=
  { gix with
    treeWithRewrites := fun base head limit maxObjectBytes ↦ match limit with
      | none => treeWithoutRewrites gix.trees turns base head
      | some limit => gix.treeWithRewrites base head (some limit) maxObjectBytes }

variable {depth fuel : ℕ} {opts : DiffOptions} {base head : Oid}

/-- The walk of prepared trees keeps the differences of their leaves, as many as it may. -/
theorem exec_treeWithoutRewrites (maxDiffFiles : ℕ) {gix : Gix} {pathspecs : List Bytes} {basePayload headPayload : Bytes}
    (hbase : Prepared gix db pathspecs projected depth base basePayload)
    (hhead : Prepared gix db pathspecs projected depth head headPayload) : ∃ turns changes,
      (∀ raw, raw ∈ changes ↔ Difference (Selected gix db pathspecs base) (Selected gix db pathspecs head) raw) ∧
      (changes.map RawChange.sortPath).Nodup ∧
      ∀ more (state : WalkState), state.adapter.projectedTrees = projected → state.changes = [] →
        (treeWithoutRewrites gix (more + turns) (base.kind, basePayload) (head.kind, headPayload)).exec
            (walkAnswer db maxDiffFiles) state =
          if changes.length ≤ maxDiffFiles then (.ok (), { state with changes })
          else (.error .other,
            { state with changes := changes.take maxDiffFiles, stoppedBy := some "max_diff_files" }) := by
  obtain ⟨as, has, hwalkBase, hleavesBase, -⟩ := hbase
  obtain ⟨bs, hbs, hwalkHead, hleavesHead, -⟩ := hhead
  obtain ⟨turns, visits, hperm, -, hrun⟩ := exec_tree emit serves_walkAnswer hwalkBase hwalkHead has hbs
  have hchanges : rawChanges visits ~ rawChanges (differences gix (findTree db projected) depth [] as bs) := by
    rw [← rawChanges_bare visits]
    exact hperm.filterMap _
  refine ⟨turns, rawChanges visits, fun raw ↦ ?_, ?_, fun more state hstate hnone ↦ ?_⟩
  · rw [hchanges.mem_iff, mem_rawChanges hwalkBase hwalkHead, funext fun leaf ↦ propext (hleavesBase leaf),
      funext fun leaf ↦ propext (hleavesHead leaf)]
  · exact (hchanges.map _).nodup_iff.mpr (nodup_rawChanges hwalkBase hwalkHead)
  · rw [treeWithoutRewrites, hrun more () state hstate, exec_visitEach visits state (by simp [hnone]), hnone,
      List.nil_append]

/-- Without content each change becomes a file. -/
theorem eval_populateFiles_summary (gix : GixBlobDiff) (hformat : opts.format = .summary) (rewriteOversize : List Oid)
    (changes : List RawChange) (population : Population) (hgoing : population.stoppedBy = none) :
    db.eval (populateFiles gix opts rewriteOversize changes population) =
      .ok { population with files := population.files ++ changes.map RawChange.intoFile } := by
  induction changes generalizing population with
  | nil => simp [populateFiles]
  | cons change changes ih =>
    have hfile : populateFile gix opts change.intoFile population.used =
        pure (change.intoFile, population.used, .complete) := if_pos hformat
    have hpush : population.push rewriteOversize (change.intoFile, population.used, .complete) =
        { population with files := population.files ++ [change.intoFile] } := rfl
    simp only [populateFiles, ObjectDb.eval_bind, ObjectDb.eval_check, Outcome.ok_bind, hfile, ObjectDb.eval_pure,
      hpush]
    have hrest := ih { population with files := population.files ++ [change.intoFile] } hgoing
    rw [if_neg (by simp [hgoing]), hrest]
    simp

/-- A tree has no difference from itself. -/
theorem not_difference_self (hunique : ∀ leaf leaf', old leaf → old leaf' → leaf.path = leaf'.path → leaf = leaf') :
    ¬Difference old old raw := by
  intro h
  cases h with
  | added hnew hold => exact hold _ hnew rfl
  | deleted hold hnew => exact hnew _ hold rfl
  | modified hold hnew hne =>
    cases hunique _ _ hold hnew rfl
    simp at hne

/-- Of the selected leaves there is one at each path. -/
theorem Prepared.unique {gix : Gix} {pathspecs : List Bytes} {payload : Bytes}
    (h : Prepared gix db pathspecs projected depth base payload) (leaf leaf' : TreeLeaf)
    (hleaf : Selected gix db pathspecs base leaf) (hleaf' : Selected gix db pathspecs base leaf')
    (hpath : leaf.path = leaf'.path) : leaf = leaf' := by
  obtain ⟨entries, -, hwalkable, hleaves, -⟩ := h
  exact leafOf_unique hwalkable ((hleaves leaf).mpr hleaf) ((hleaves leaf').mpr hleaf') hpath

/-- A diff without rename tracking lists the first of the differences of the selected leaves, sorted by their paths,
and is truncated when there are more. -/
theorem diffTrees_exact (gix : Gitoxide) (hrenames : opts.renames = .disabled) (hformat : opts.format = .summary)
    (hle : depth ≤ fuel) (hbase : Canonical gix.trees db depth base) (hhead : Canonical gix.trees db depth head)
    (hprojects : opts.pathspecs ≠ [] → Projects ⟨gix.trees, gix.hashers, opts.pathspecs⟩ db) :
    ∃ turns, ∃ changes : List RawChange, (∀ raw, raw ∈ changes ↔
        Difference (Selected gix.trees db opts.pathspecs base) (Selected gix.trees db opts.pathspecs head) raw) ∧
      (changes.map RawChange.sortPath).Nodup ∧
      ∀ more, ∃ diff, db.eval (diffTrees (withWalk gix (more + turns)) fuel base head opts) = .ok diff ∧
        diff.files = ((changes.take opts.maxDiffFiles).mergeSort RawChange.le).map RawChange.intoFile ∧
        (diff.truncated ↔ opts.maxDiffFiles < changes.length) := by
  obtain ⟨prepared, hprepared, hpreparedBase, hpreparedHead, -, -⟩ :
      ∃ prepared, db.eval (prepareTrees gix fuel opts.toTreeDiffOptions base head) = .ok prepared ∧ _ :=
    exists_prepared gix hle hbase hhead hprojects
  obtain ⟨turns, changes, hmem, hnodup, hrun⟩ := exec_treeWithoutRewrites opts.maxDiffFiles hpreparedBase
    hpreparedHead
  refine ⟨turns, changes, hmem, hnodup, fun more ↦ ?_⟩
  by_cases heq : base = head
  · subst heq
    obtain rfl : changes = [] := List.eq_nil_iff_forall_not_mem.mpr fun raw hraw ↦
      not_difference_self hpreparedBase.unique ((hmem raw).mp hraw)
    refine ⟨finish ⟨[], [], 0, {}, none⟩ [] none, ?_, by simp [finish], by simp [finish]⟩
    simp [diffTrees]
  · have hlimit : rewriteLimit opts.toTreeDiffOptions = none := by rw [rewriteLimit, hrenames]
    have hwalk : db.eval (walkTrees (withWalk gix (more + turns)) fuel opts.toTreeDiffOptions base head) =
        .ok ⟨⟨opts.maxObjectBytes, prepared.projected, none, []⟩,
          (changes.take opts.maxDiffFiles).mergeSort RawChange.le,
          if changes.length ≤ opts.maxDiffFiles then none else some "max_diff_files"⟩ := by
      have hprepared' : db.eval (prepareTrees (withWalk gix (more + turns)) fuel opts.toTreeDiffOptions base head) =
          .ok prepared := hprepared
      simp only [walkTrees, ObjectDb.eval_bind, hprepared', Outcome.ok_bind, hlimit, eval_runWalk]
      simp only [withWalk]
      rw [hrun more ⟨⟨opts.maxObjectBytes, prepared.projected, none, []⟩, [], none⟩ rfl rfl]
      split
      · next hfits =>
        rw [List.take_of_length_le hfits]
        rfl
      · rfl
    refine ⟨conclude ⟨((changes.take opts.maxDiffFiles).mergeSort RawChange.le).map RawChange.intoFile, [], 0, {}, none⟩
      (if changes.length ≤ opts.maxDiffFiles then none else some "max_diff_files"), ?_, rfl, ?_⟩
    · have hfiles : db.eval (populateFiles gix.blobDiff opts [] ((changes.take opts.maxDiffFiles).mergeSort RawChange.le)
          (.ofOversize [])) = .ok ⟨((changes.take opts.maxDiffFiles).mergeSort RawChange.le).map RawChange.intoFile,
            [], 0, {}, none⟩ := eval_populateFiles_summary gix.blobDiff hformat _ _ _ rfl
      simp only [diffTrees, ObjectDb.eval_bind, ObjectDb.eval_check, Outcome.ok_bind, if_neg heq, hwalk]
      exact congrArg (· >>= _) hfiles
    · rw [← Nat.not_le]
      by_cases hfits : changes.length ≤ opts.maxDiffFiles <;> simp [conclude, finish, hfits]

/-! ### Sample trees -/

/-- A diff of the sample trees without content. -/
def sampleGitoxide : Gitoxide where
  trees := sampleDiffGix
  hashers := sampleHashers
  blobDiff _ _ := ⟨0, 0, fun _ ↦ []⟩
  treeWithRewrites _ _ _ _ := pure ()

/-- The sample satisfies what a projection asks of its parts. -/
theorem sampleScope_projects : Projects sampleScope sampleUnion.toObjectDb where
  reads := sampleDiffGix_reads
  glob := sampleDiffGix_follows
  plain := by decide
  free := sampleScope_collisionFree

private theorem sampleTrees_ordered : ∀ tree ∈ sampleTrees.take 4,
    (∀ entry ∈ tree.2, entry.name ≠ [] ∧ 0x2f ∉ entry.name) ∧ tree.2.Pairwise (entryKey · < entryKey ·) := by
  decide

/-- The stored trees of the sample are canonical. -/
theorem canonical_sampleUnion : ∀ tree ∈ sampleTrees.take 4,
    Canonical sampleDiffGix sampleUnion.toObjectDb 2 tree.1 := by
  have hcanonical : ∀ tree ∈ sampleTrees.take 4, ∀ depth,
      (∀ entry ∈ tree.2, isTree entry.mode → Canonical sampleDiffGix sampleUnion.toObjectDb depth entry.oid) →
        Canonical sampleDiffGix sampleUnion.toObjectDb (depth + 1) tree.1 := by
    intro tree hmem depth hinside
    have hstored : tree ∈ sampleTrees := List.mem_of_mem_take (i := 4) hmem
    obtain ⟨hnamed, hascending⟩ := sampleTrees_ordered tree hmem
    exact ⟨_, _, (treeOf_sampleUnion_of_mem hstored).1,
      toOption_eq_some.mp (treeOf_sampleUnion_of_mem hstored).2, hnamed, hascending, hinside⟩
  have hno : ∀ entry ∈ fileTree, ¬isTree entry.mode := by decide
  intro tree hmem
  refine hcanonical tree hmem 1 fun entry hentry htree ↦ ?_
  rw [sampleTrees_subtrees (List.mem_of_mem_take (i := 4) hmem) entry hentry htree]
  exact hcanonical _ List.mem_cons_self 0 fun other hother htree' ↦ absurd htree' (hno other hother)

/-- Between `d/x` and `z`, and `x`. -/
theorem diffTrees_exact_sample : ∃ turns, ∃ changes : List RawChange, (∀ raw, raw ∈ changes ↔
      Difference (Selected sampleDiffGix sampleUnion.toObjectDb sampleScope.patterns namedTreeId)
        (Selected sampleDiffGix sampleUnion.toObjectDb sampleScope.patterns fileTreeId) raw) ∧
    ∃ diff, sampleUnion.toObjectDb.eval (diffTrees (withWalk sampleGitoxide turns) 2 namedTreeId fileTreeId
        { pathspecs := sampleScope.patterns, format := .summary }) = .ok diff ∧
      diff.files = ((changes.take 1000).mergeSort RawChange.le).map RawChange.intoFile := by
  obtain ⟨turns, changes, hmem, -, hrun⟩ := @diffTrees_exact sampleUnion.toObjectDb 2 2
    { pathspecs := sampleScope.patterns, format := .summary } namedTreeId fileTreeId sampleGitoxide rfl rfl
    (Nat.le_refl 2) (canonical_sampleUnion (namedTreeId, [subtree, otherFile]) (by simp [sampleTrees]))
    (canonical_sampleUnion (fileTreeId, fileTree) (by simp [sampleTrees]))
    fun _ ↦ sampleScope_projects
  obtain ⟨diff, hdiff, hfiles, -⟩ := hrun 0
  rw [Nat.zero_add] at hdiff
  exact ⟨turns, changes, hmem, diff, hdiff, hfiles⟩

end Gitility.GixDiff
