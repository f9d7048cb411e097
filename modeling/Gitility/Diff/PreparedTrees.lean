import Gitility.Diff.LeafChanges
import Gitility.Diff.PathLimited

/-!
# The trees of a diff

Both trees of a diff are walked as they are stored, or as they are projected. What is stored in canonical order is
projected in canonical order, and either way the leaves are those that the pathspecs select.
-/

namespace Gitility.GixDiff

open Diff

variable {gix : Gix} {find : Oid → Option Bytes} {db : ObjectDb} {depth fuel : ℕ} {oid : Oid} {directory : Bytes}
  {entries kept : List TreeEntry} {entry : TreeEntry} {leaf : TreeLeaf} {scope : Scope} {maps : Maps}

/-! ### Canonical trees -/

/-- The tree is stored in canonical order with all its subtrees, and is at most this deep. -/
def Canonical (gix : Gix) (db : ObjectDb) : ℕ → Oid → Prop
  | 0, _ => False
  | depth + 1, oid => ∃ payload entries, treeOf db oid = some payload ∧
      decodeTree gix oid.kind payload = .ok entries ∧ (∀ entry ∈ entries, Named entry) ∧
      Ascending entryKey entries ∧ ∀ entry ∈ entries, isTree entry.mode → Canonical gix db depth entry.oid

private theorem Canonical.complete (h : Canonical gix db depth oid) : Complete gix db depth oid := by
  induction depth generalizing oid with
  | zero => exact h
  | succ depth ih =>
    obtain ⟨payload, entries, hpayload, hentries, -, -, hinside⟩ := h
    exact ⟨payload, entries, hpayload, hentries, fun entry hmem htree ↦ ih (hinside entry hmem htree)⟩

private theorem Canonical.namedRoot (h : Canonical gix db depth oid) : NamedRoot gix db oid := by
  intro payload entries hpayload hentries entry hmem _
  cases depth with
  | zero => exact h.elim
  | succ depth =>
    obtain ⟨payload', entries', hpayload', hentries', hnamed, -, -⟩ := h
    obtain rfl := Option.some.inj (hpayload.symm.trans hpayload')
    obtain rfl := Option.some.inj (hentries.symm.trans (treeEntries_of_decodeTree hentries'))
    exact (hnamed entry hmem).1

/-- A canonical tree can be walked as it is stored. -/
theorem Canonical.walkable (h : Canonical gix db depth oid) : ∃ payload entries, treeOf db oid = some payload ∧
    treeEntries gix oid.kind payload = some entries ∧ Walkable gix (treeOf db) depth entries := by
  induction depth generalizing oid with
  | zero => exact h.elim
  | succ depth ih =>
    obtain ⟨payload, entries, hpayload, hentries, hnamed, hascending, hinside⟩ := h
    exact ⟨payload, entries, hpayload, treeEntries_of_decodeTree hentries, hnamed, hascending,
      fun entry hmem htree ↦ ih (hinside entry hmem htree)⟩

/-! ### Projections in canonical order -/

/-- What is selected of an entry has its key. -/
theorem entryKey_of_selectEntry {select : Oid → Bytes → Option (List TreeEntry)} {kind : HashKind}
    {selected : TreeEntry} (h : selectEntry scope select kind directory entry = some (some selected)) :
    entryKey selected = entryKey entry := by
  obtain ⟨id, rfl, -⟩ := selectEntry_shape h
  rfl

/-- The keys of what is kept are some of the keys there were, in their order. -/
theorem sublist_entryKey_of_selectEntries {select : Oid → Bytes → Option (List TreeEntry)} {kind : HashKind}
    (h : selectEntries scope select kind directory entries = some kept) :
    (kept.map entryKey).Sublist (entries.map entryKey) := by
  induction entries generalizing kept with
  | nil =>
    cases h
    exact List.Sublist.refl _
  | cons entry rest ih =>
    obtain ⟨first, hfirst, h⟩ := Option.bind_eq_some_iff.mp h
    obtain ⟨others, hothers, h⟩ := Option.bind_eq_some_iff.mp h
    cases h
    cases first with
    | none => exact (ih hothers).cons _
    | some selected =>
      rw [Option.toList_some, List.singleton_append, List.map_cons, List.map_cons, entryKey_of_selectEntry hfirst]
      exact (ih hothers).cons_cons _

/-- A subtree is selected as what is selected of it. -/
theorem selectEntry_tree {select : Oid → Bytes → Option (List TreeEntry)} {kind : HashKind} {selected : TreeEntry}
    (h : selectEntry scope select kind directory entry = some (some selected)) (htree : isTree selected.mode) :
    ∃ child, select entry.oid (joinPath directory entry.name) = some child ∧ isTree entry.mode ∧
      scope.treeId kind (encodeTree child) = .ok selected.oid := by
  obtain ⟨id, rfl, -⟩ := selectEntry_shape h
  simp only [selectEntry] at h
  rw [if_pos htree] at h
  split at h
  · obtain ⟨child, hchild, h⟩ := Option.bind_eq_some_iff.mp h
    split at h
    · cases h
    · obtain ⟨childOid, hid, h⟩ := Option.bind_eq_some_iff.mp h
      obtain rfl : childOid = id := by
        simpa using congrArg (Option.map (Option.map TreeEntry.oid)) h
      exact ⟨child, hchild, htree, toOption_eq_some.mp hid⟩
  · cases h

/-- What is kept weighs no more, if no entry does. -/
theorem sum_selectEntries_le {select : Oid → Bytes → Option (List TreeEntry)} {kind : HashKind} {w w' : TreeEntry → ℕ}
    (h : selectEntries scope select kind directory entries = some kept)
    (hle : ∀ entry ∈ entries, ∀ selected ∈ kept,
      selectEntry scope select kind directory entry = some (some selected) → w selected ≤ w' entry) :
    (kept.map w).sum ≤ (entries.map w').sum := by
  induction entries generalizing kept with
  | nil =>
    cases h
    exact Nat.le_refl _
  | cons entry rest ih =>
    obtain ⟨first, hfirst, h⟩ := Option.bind_eq_some_iff.mp h
    obtain ⟨others, hothers, h⟩ := Option.bind_eq_some_iff.mp h
    cases h
    have hrest := ih hothers fun entry' hentry' selected hmem ↦
      hle entry' (List.mem_cons_of_mem _ hentry') selected (List.mem_append_right _ hmem)
    rw [List.map_cons, List.sum_cons]
    cases first with
    | none => exact hrest.trans (Nat.le_add_left _ _)
    | some selected =>
      have hentry := hle entry List.mem_cons_self selected (List.mem_append_left _ List.mem_cons_self) hfirst
      rw [Option.toList_some, List.singleton_append, List.map_cons, List.sum_cons]
      exact Nat.add_le_add hentry hrest

/-- The IDs in a tree have the kind of its own. -/
theorem kind_of_mem (hgix : ReadsTrees gix) {kind : HashKind} {payload : Bytes}
    (hentries : treeEntries gix kind payload = some entries) (hmem : entry ∈ entries) : entry.oid.kind = kind := by
  obtain ⟨remaining, hitem⟩ := mem_of_treeEntries hentries hmem
  exact hgix.kind _ _ _ _ hitem

section Projections

variable (hmemo : Memo scope db maps) (hgix : ReadsTrees scope.gix) (hfree : CollisionFree scope db)
  (hfind : ∀ oid payload, maps.projected.lookup oid = some payload → find oid = some payload)

include hmemo hgix hfree hfind in
/-- Behind a subtree that is selected stands what is selected of it. -/
theorem exists_selected_child {n : ℕ} {selected : TreeEntry} (hkind : entry.oid.kind = oid.kind)
    (hfrom : selectEntry scope (selection scope db n) oid.kind directory entry = some (some selected))
    (htree : isTree selected.mode) (hresolved : (maps.projected.lookup selected.oid).isSome) :
    ∃ child, isTree entry.mode ∧ selection scope db n entry.oid (joinPath directory entry.name) = some child ∧
      find selected.oid = some (encodeTree child) ∧
      treeEntries scope.gix selected.oid.kind (encodeTree child) = some child ∧ Resolved maps.projected child := by
  obtain ⟨child, hchild, htree', hid⟩ := selectEntry_tree hfrom htree
  obtain ⟨hlookup, hinner⟩ := hmemo.lookup_child hgix hfree hchild hkind hid hresolved
  refine ⟨child, htree', hchild, hfind _ _ hlookup, ?_, hinner⟩
  rw [kind_of_treeId hid, ← hkind]
  exact (readable_of_selection hgix hchild).treeEntries hgix

include hmemo hgix hfree hfind in
/-- What is selected of a canonical tree can be walked. -/
theorem walkable_of_selection (hcanonical : Canonical scope.gix db depth oid)
    (hselection : selection scope db fuel oid directory = some kept) (hresolved : Resolved maps.projected kept) :
    Walkable scope.gix find depth kept := by
  induction depth generalizing fuel oid directory kept with
  | zero => exact hcanonical.elim
  | succ depth ih =>
    obtain ⟨payload, entries, hpayload, hentries, hnamed, hascending, hinside⟩ := hcanonical
    obtain ⟨n, payload', entries', rfl, hpayload', hentries', hselect⟩ := selection_eq_some hselection
    obtain rfl := Option.some.inj (hpayload.symm.trans hpayload')
    obtain rfl := Option.some.inj ((treeEntries_of_decodeTree hentries).symm.trans hentries')
    refine ⟨fun selected hmem ↦ ?_, hascending.of_map_sublist (sublist_entryKey_of_selectEntries hselect), ?_⟩
    · obtain ⟨entry, hentry, hfrom⟩ := (mem_selectEntries hselect).mp hmem
      obtain ⟨id, rfl, -⟩ := selectEntry_shape hfrom
      exact hnamed entry hentry
    · intro selected hmem htree
      obtain ⟨entry, hentry, hfrom⟩ := (mem_selectEntries hselect).mp hmem
      obtain ⟨child, htree', hchild, hfound, hread, hinner⟩ := exists_selected_child hmemo hgix hfree hfind
        (kind_of_mem hgix hentries' hentry) hfrom htree (hresolved selected hmem htree)
      exact ⟨_, child, hfound, hread, ih (hinside entry hentry htree') hchild hinner⟩

include hmemo hgix hfree hfind in
/-- What is selected of a canonical tree has no more subtrees. -/
theorem subtreeCount_of_selection (hcanonical : Canonical scope.gix db depth oid)
    (hselection : selection scope db fuel oid directory = some kept) (hresolved : Resolved maps.projected kept) :
    subtreeCount scope.gix find depth kept ≤
      subtreeCount scope.gix (treeOf db) depth (entriesOf scope.gix (treeOf db) (some oid)) := by
  induction depth generalizing fuel oid directory kept with
  | zero => exact hcanonical.elim
  | succ depth ih =>
    obtain ⟨payload, entries, hpayload, hentries, -, -, hinside⟩ := hcanonical
    obtain ⟨n, payload', entries', rfl, hpayload', hentries', hselect⟩ := selection_eq_some hselection
    obtain rfl := Option.some.inj (hpayload.symm.trans hpayload')
    obtain rfl := Option.some.inj ((treeEntries_of_decodeTree hentries).symm.trans hentries')
    rw [entriesOf_some hpayload hentries', subtreeCount, subtreeCount]
    refine sum_selectEntries_le hselect fun entry hentry selected hmem hfrom ↦ ?_
    by_cases htree : isTree selected.mode
    · obtain ⟨child, htree', hchild, hfound, hread, hinner⟩ := exists_selected_child hmemo hgix hfree hfind
        (kind_of_mem hgix hentries' hentry) hfrom htree (hresolved selected hmem htree)
      rw [if_pos htree, if_pos htree', entriesOf_some hfound hread]
      exact Nat.add_le_add_right (ih (hinside entry hentry htree') hchild hinner) 1
    · rw [if_neg htree]
      exact Nat.zero_le _

end Projections

/-! ### Prepared trees -/

/-- What a diff with pathspecs relies on: that `TreeRefIter` reads trees and patterns are matched as documented, that
no pattern has a backslash, and that projections do not collide. -/
structure Projects (scope : Scope) (db : ObjectDb) : Prop where
  reads : ReadsTrees scope.gix
  glob : Pathspec.FollowsWildmatch scope.gix
  plain : ∀ pattern ∈ scope.patterns, 0x5c ∉ pattern
  free : CollisionFree scope db

/-- A leaf of a stored tree that the pathspecs select. -/
def Selected (gix : Gix) (db : ObjectDb) (pathspecs : List Bytes) (oid : Oid) (leaf : TreeLeaf) : Prop :=
  HasLeaf gix (treeOf db) oid [] leaf ∧ (pathspecs = [] ∨ Pathspec.matchesPath gix pathspecs leaf.path)

/-- The trees that are found behind projected ones. -/
def findTree (db : ObjectDb) (projected : List (Oid × Bytes)) (oid : Oid) : Option Bytes :=
  (projected.lookup oid).or (treeOf db oid)

/-- The number of subtrees of a stored tree, counted at each place where they stand. -/
def storedSubtrees (gix : Gix) (db : ObjectDb) (depth : ℕ) (oid : Oid) : ℕ :=
  subtreeCount gix (treeOf db) depth (entriesOf gix (treeOf db) (some oid))

/-- A prepared root can be walked to the selected leaves of its tree, through no more subtrees than this has. -/
def Prepared (gix : Gix) (db : ObjectDb) (pathspecs : List Bytes) (projected : List (Oid × Bytes)) (depth : ℕ)
    (oid : Oid) (payload : Bytes) : Prop :=
  ∃ entries, treeEntries gix oid.kind payload = some entries ∧
    Walkable gix (findTree db projected) depth entries ∧
    (∀ leaf, LeafOf gix (findTree db projected) [] entries leaf ↔ Selected gix db pathspecs oid leaf) ∧
    subtreeCount gix (findTree db projected) depth entries ≤ storedSubtrees gix db depth oid

private theorem prepared_of_canonical (h : Canonical gix db depth oid) : ∃ payload,
    db.eval (readRequiredTree oid) = .ok payload ∧ Prepared gix db [] [] depth oid payload := by
  obtain ⟨payload, entries, hpayload, hentries, hwalkable⟩ := h.walkable
  refine ⟨payload, eval_readRequiredTree.mpr hpayload, entries, hentries, hwalkable, fun leaf ↦ ?_, ?_⟩
  · change LeafOf gix (treeOf db) [] entries leaf ↔ _
    rw [← hasLeaf_iff_leafOf hpayload hentries, Selected, and_iff_left (.inl rfl)]
  · rw [storedSubtrees, entriesOf_some hpayload hentries]
    exact Nat.le_refl _

private theorem prepared_of_made (hprojects : Projects scope db) (hmemo : Memo scope db maps)
    (hcanonical : Canonical scope.gix db depth oid) {output : Bytes} (hpatterns : scope.patterns ≠ [])
    (hmade : Made scope db maps.projected oid [] output) :
    Prepared scope.gix db scope.patterns maps.projected depth oid output := by
  obtain ⟨fuel, kept, hselection, rfl, hresolved⟩ := hmade
  have hfind : ∀ oid payload, maps.projected.lookup oid = some payload →
      findTree db maps.projected oid = some payload := fun oid payload h ↦ by rw [findTree, h, Option.some_or]
  refine ⟨kept, (readable_of_selection hprojects.reads hselection).treeEntries hprojects.reads,
    walkable_of_selection hmemo hprojects.reads hprojects.free hfind hcanonical hselection hresolved,
    fun leaf ↦ ?_, subtreeCount_of_selection hmemo hprojects.reads hprojects.free hfind hcanonical hselection hresolved⟩
  rw [Selected, or_iff_right hpatterns]
  exact selectsLeaves hmemo hprojects.reads hprojects.free (sound_of_plain hprojects.glob hprojects.plain) hfind
    hselection hresolved (fun _ ↦ hcanonical.namedRoot) leaf

/-- Projected trees have the IDs of what was selected. -/
def Written (scope : Scope) (db : ObjectDb) (projected : List (Oid × Bytes)) : Prop :=
  ∀ id, (projected.lookup id).isSome → ∃ fuel oid directory kept,
    selection scope db fuel oid directory = some kept ∧ scope.treeId id.kind (encodeTree kept) = .ok id

private theorem written_of_memo (hmemo : Memo scope db maps) : Written scope db maps.projected := by
  intro id hsome
  obtain ⟨payload, hpayload⟩ := Option.isSome_iff_exists.mp hsome
  obtain ⟨-, hid, source, directory, -, fuel, kept, hselection, rfl, -⟩ := hmemo.projected id payload hpayload
  exact ⟨fuel, source, directory, kept, hselection, hid⟩

/-- Canonical trees are prepared. -/
theorem exists_prepared (gix : Gitoxide) {opts : TreeDiffOptions} {base head : Oid} (hle : depth ≤ fuel)
    (hbase : Canonical gix.trees db depth base) (hhead : Canonical gix.trees db depth head)
    (hprojects : opts.pathspecs ≠ [] → Projects ⟨gix.trees, gix.hashers, opts.pathspecs⟩ db) :
    ∃ prepared, db.eval (prepareTrees gix fuel opts base head) = .ok prepared ∧
      Prepared gix.trees db opts.pathspecs prepared.projected depth base prepared.base ∧
      Prepared gix.trees db opts.pathspecs prepared.projected depth head prepared.head ∧
      (opts.pathspecs = [] → prepared.projected = []) ∧
      Written ⟨gix.trees, gix.hashers, opts.pathspecs⟩ db prepared.projected := by
  rw [prepareTrees]
  by_cases hpathspecs : opts.pathspecs = []
  · obtain ⟨basePayload, hreadBase, hpreparedBase⟩ := prepared_of_canonical hbase
    obtain ⟨headPayload, hreadHead, hpreparedHead⟩ := prepared_of_canonical hhead
    rw [if_pos hpathspecs, hpathspecs]
    refine ⟨⟨basePayload, headPayload, []⟩, ?_, hpreparedBase, hpreparedHead, fun _ ↦ rfl, by simp [Written]⟩
    simp only [ObjectDb.eval_bind, hreadBase, hreadHead, Outcome.ok_bind, ObjectDb.eval_pure]
  · have hproj := hprojects hpathspecs
    obtain ⟨basePayload, maps, hrunBase⟩ := exists_projectTree hproj.reads hproj.free hle hbase.complete [] memo_empty
    obtain ⟨hmemo, -, hmadeBase⟩ := remembers_projectTree hproj.reads fuel _ _ _ _ _ memo_empty hrunBase
    obtain ⟨headPayload, maps', hrunHead⟩ := exists_projectTree hproj.reads hproj.free hle hhead.complete [] hmemo
    obtain ⟨hmemo', hextends, hmadeHead⟩ := remembers_projectTree hproj.reads fuel _ _ _ _ _ hmemo hrunHead
    rw [if_neg hpathspecs]
    refine ⟨⟨basePayload, headPayload, maps'.projected⟩, ?_,
      prepared_of_made hproj hmemo' hbase hpathspecs (hmadeBase.extend hextends),
      prepared_of_made hproj hmemo' hhead hpathspecs hmadeHead, fun h ↦ absurd h hpathspecs, written_of_memo hmemo'⟩
    simp only [projectDiffTrees, ObjectDb.eval_bind, hrunBase, Outcome.ok_bind, hrunHead, ObjectDb.eval_pure]

end Gitility.GixDiff
