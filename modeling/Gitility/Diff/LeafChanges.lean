import Gitility.Diff.TreeRuns

/-!
# The changes of the leaves

Between two trees in canonical order the changes of files are exactly the differences of their leaves: a path is
deleted, added or modified when only the old tree, only the new one, or both with something else have a leaf there.
-/

namespace Gitility.GixDiff

open Diff

variable {gix : Gix} {find : Oid → Option Bytes} {directory : Bytes} {depth : ℕ} {as bs : List TreeEntry}
  {a b : TreeEntry} {leaf leaf' : TreeLeaf} {change : Change} {path : Bytes}

/-! ### Leaves -/

/-- A leaf of a tree with these entries in this directory. -/
def LeafOf (gix : Gix) (find : Oid → Option Bytes) (directory : Bytes) (entries : List TreeEntry)
    (leaf : TreeLeaf) : Prop := ∃ entry ∈ entries, EntryLeaf gix find directory entry leaf

/-- The leaves of a stored tree are those of its entries. -/
theorem hasLeaf_iff_leafOf {oid : Oid} {payload : Bytes} {children : List TreeEntry}
    (hfind : find oid = some payload) (hchildren : treeEntries gix oid.kind payload = some children) :
    HasLeaf gix find oid directory leaf ↔ LeafOf gix find directory children leaf := by
  simp [HasLeaf, hfind, isLeaf_iff, hchildren, LeafOf]

/-- Where the path of a leaf goes on behind the name of its entry. -/
theorem path_of_entryLeaf (ha : Named a) (h : EntryLeaf gix find directory a leaf) :
    ∃ rest, leaf.path = joinPath directory (a.name ++ rest) ∧ (isTree a.mode → ∃ more, rest = 0x2f :: more) ∧
      (¬isTree a.mode → rest = []) := by
  rw [EntryLeaf] at h
  split at h
  · next htree =>
    obtain ⟨payload, -, hleaf⟩ := h
    obtain ⟨more, hpath⟩ := hleaf.path_eq (joinPath_ne_nil ha.1)
    exact ⟨0x2f :: more, by rw [hpath, joinPath_append], fun _ ↦ ⟨more, rfl⟩, fun h ↦ absurd htree h⟩
  · next htree => exact ⟨[], by rw [h, List.append_nil], fun h ↦ absurd h htree, fun _ ↦ rfl⟩

/-- Leaves with the same path come from entries with the same key. -/
theorem entryKey_of_path (ha : Named a) (hb : Named b) (hleaf : EntryLeaf gix find directory a leaf)
    (hleaf' : EntryLeaf gix find directory b leaf') (hpath : leaf.path = leaf'.path) : entryKey a = entryKey b := by
  obtain ⟨rest, hrest, htree, hfile⟩ := path_of_entryLeaf ha hleaf
  obtain ⟨rest', hrest', htree', hfile'⟩ := path_of_entryLeaf hb hleaf'
  have heq : a.name ++ rest = b.name ++ rest' := joinPath_inj (hrest.symm.trans (hpath.trans hrest'))
  have hslash : ∀ {e : TreeEntry} {rest : Bytes}, (isTree e.mode → ∃ more, rest = 0x2f :: more) →
      (¬isTree e.mode → rest = []) → rest = [] ∨ ∃ more, rest = 0x2f :: more := by
    intro e rest htree hfile
    by_cases h : isTree e.mode
    · exact .inr (htree h)
    · exact .inl (hfile h)
  have hname := name_eq_of_append ha.2 hb.2 (hslash htree hfile) (hslash htree' hfile') heq
  obtain rfl : rest = rest' := List.append_cancel_left (hname ▸ heq)
  have hsort : isTree a.mode ↔ isTree b.mode := by
    constructor <;> intro h <;> by_contra hother
    · obtain ⟨more, rfl⟩ := htree h
      exact absurd (hfile' hother) (List.cons_ne_nil _ _)
    · obtain ⟨more, rfl⟩ := htree' h
      exact absurd (hfile hother) (List.cons_ne_nil _ _)
  rw [entryKey, entryKey, hname]
  by_cases h : isTree a.mode
  · rw [if_pos h, if_pos (hsort.mp h)]
  · rw [if_neg h, if_neg (fun hb ↦ h (hsort.mpr hb))]

/-- A tree has at most one leaf at a path. -/
theorem leafOf_unique (has : Walkable gix find depth as) (hleaf : LeafOf gix find directory as leaf)
    (hleaf' : LeafOf gix find directory as leaf') (hpath : leaf.path = leaf'.path) : leaf = leaf' := by
  induction depth generalizing directory as with
  | zero => exact has.elim
  | succ depth ih =>
    obtain ⟨a, ha, hleaf⟩ := hleaf
    obtain ⟨b, hb, hleaf'⟩ := hleaf'
    obtain rfl := has.2.1.eq_of_key ha hb (entryKey_of_path (has.1 a ha) (has.1 b hb) hleaf hleaf' hpath)
    rw [EntryLeaf] at hleaf hleaf'
    split at hleaf
    · next htree =>
      rw [if_pos htree] at hleaf'
      obtain ⟨payload, children, hfind, hchildren, hwalkable⟩ := has.2.2 a ha htree
      rw [hasLeaf_iff_leafOf hfind hchildren] at hleaf hleaf'
      exact ih hwalkable hleaf hleaf'
    · next htree =>
      rw [if_neg htree] at hleaf'
      rw [hleaf, hleaf']

/-! ### Changes of leaves -/

/-- The change is one of a file, or replaces one. -/
def Change.ofLeaf : Change → Bool
  | addition entryMode _ _ | deletion entryMode _ _ => ¬isTree entryMode
  | modification previousEntryMode _ entryMode _ => ¬(isTree previousEntryMode ∧ isTree entryMode)

/-- This is the difference of the old leaves and the new ones at a path. -/
def Differs (old new : TreeLeaf → Prop) : Change → Bytes → Prop
  | .addition entryMode oid relation, path =>
    relation = none ∧ new ⟨path, entryMode, oid⟩ ∧ ∀ leaf, old leaf → leaf.path ≠ path
  | .deletion entryMode oid relation, path =>
    relation = none ∧ old ⟨path, entryMode, oid⟩ ∧ ∀ leaf, new leaf → leaf.path ≠ path
  | .modification previousEntryMode previousOid entryMode oid, path =>
    old ⟨path, previousEntryMode, previousOid⟩ ∧ new ⟨path, entryMode, oid⟩ ∧
      (previousOid ≠ oid ∨ previousEntryMode ≠ entryMode)

variable {old new old' new' : TreeLeaf → Prop}

private theorem differs_congr (hold : ∀ leaf, old leaf ↔ old' leaf) (hnew : ∀ leaf, new leaf ↔ new' leaf) :
    Differs old new change path ↔ Differs old' new' change path := by
  obtain rfl : old = old' := funext fun leaf ↦ propext (hold leaf)
  obtain rfl : new = new' := funext fun leaf ↦ propext (hnew leaf)
  rfl

/-- A difference at a path is one of a leaf there. -/
theorem Differs.exists_leaf (h : Differs old new change path) : ∃ leaf, (old leaf ∨ new leaf) ∧ leaf.path = path := by
  cases change with
  | addition entryMode oid relation => exact ⟨_, .inr h.2.1, rfl⟩
  | deletion entryMode oid relation => exact ⟨_, .inl h.2.1, rfl⟩
  | modification previousEntryMode previousOid entryMode oid => exact ⟨_, .inl h.1, rfl⟩

/-- Leaves that are alone at their path do not differ from themselves. -/
theorem not_differs_self (hunique : ∀ leaf leaf', old leaf → old leaf' → leaf.path = leaf'.path → leaf = leaf') :
    ¬Differs old old change path := by
  intro h
  cases change with
  | addition entryMode oid relation => exact h.2.2 _ h.2.1 rfl
  | deletion entryMode oid relation => exact h.2.2 _ h.2.1 rfl
  | modification previousEntryMode previousOid entryMode oid =>
    obtain ⟨hold, hnew, hne⟩ := h
    cases hunique _ _ hold hnew rfl
    simp at hne

/-! ### The differences at one name -/

/-- The leaves of an entry at one name. -/
def SideLeaf (gix : Gix) (find : Oid → Option Bytes) (directory : Bytes) (side : Option TreeEntry)
    (leaf : TreeLeaf) : Prop := ∃ entry ∈ side, EntryLeaf gix find directory entry leaf

private theorem leafOf_left_iff (bs : List TreeEntry) : LeafOf gix find directory as leaf ↔
    ∃ j ∈ mergeJoin compare as bs, SideLeaf gix find directory j.left? leaf := by
  constructor
  · rintro ⟨entry, hmem, hleaf⟩
    obtain ⟨j, hj, hside⟩ : ∃ j ∈ mergeJoin compare as bs, j.left? = some entry := mem_left_iff.mp hmem
    exact ⟨j, hj, entry, hside, hleaf⟩
  · rintro ⟨j, hj, entry, hside, hleaf⟩
    exact ⟨entry, mem_left_iff.mpr ⟨j, hj, hside⟩, hleaf⟩

private theorem leafOf_right_iff (as : List TreeEntry) : LeafOf gix find directory bs leaf ↔
    ∃ j ∈ mergeJoin compare as bs, SideLeaf gix find directory j.right? leaf := by
  constructor
  · rintro ⟨entry, hmem, hleaf⟩
    obtain ⟨j, hj, hside⟩ : ∃ j ∈ mergeJoin compare as bs, j.right? = some entry := mem_right_iff.mp hmem
    exact ⟨j, hj, entry, hside, hleaf⟩
  · rintro ⟨j, hj, entry, hside, hleaf⟩
    exact ⟨entry, mem_right_iff.mpr ⟨j, hj, hside⟩, hleaf⟩

/-- Where a name has subtrees, its leaves are theirs. -/
theorem sideLeaf_of_finds {task : Task} {entry : TreeEntry} (htree : isTree entry.mode)
    (hfinds : task.Finds gix find entry.oid) : SideLeaf gix find directory (some entry) leaf ↔
      LeafOf gix find (joinPath directory entry.name) (entriesOf gix find (some entry.oid)) leaf := by
  obtain ⟨payload, children, hfind, hchildren, -⟩ := hfinds
  rw [entriesOf_some hfind hchildren, ← hasLeaf_iff_leafOf hfind hchildren]
  simp [SideLeaf, EntryLeaf, htree]

private theorem sideLeaf_of_file {entry : TreeEntry} (hfile : isTree entry.mode = false) :
    SideLeaf gix find directory (some entry) leaf ↔
      leaf = ⟨joinPath directory entry.name, entry.mode, entry.oid⟩ := by
  simp [SideLeaf, EntryLeaf, hfile]

private theorem not_sideLeaf_none : ¬SideLeaf gix find directory none leaf := by simp [SideLeaf]

private theorem not_leafOf_nil : ¬LeafOf gix find directory [] leaf := by simp [LeafOf]

section Directory

variable (has : Walkable gix find (depth + 1) as) (hbs : Walkable gix find (depth + 1) bs)

include has hbs

/-- A leaf on either side of a name tells the key of the name. -/
theorem key_of_sideLeaf {j : Joined TreeEntry} (hj : j ∈ mergeJoin compare as bs)
    (h : SideLeaf gix find directory j.left? leaf ∨ SideLeaf gix find directory j.right? leaf) :
    ∃ entry, Named entry ∧ j.key entryKey = entryKey entry ∧ EntryLeaf gix find directory entry leaf := by
  rcases h with ⟨entry, hside, hleaf⟩ | ⟨entry, hside, hleaf⟩
  · exact ⟨entry, has.1 entry (mem_left_iff.mpr ⟨j, hj, hside⟩), j.key_of_left hside, hleaf⟩
  · exact ⟨entry, hbs.1 entry (mem_right_iff.mpr ⟨j, hj, hside⟩),
      key_of_right (comparesKeys has.1 hbs.1) hj hside, hleaf⟩

/-- Names at which there are leaves with the same path are the same. -/
theorem eq_of_sideLeaf {j j' : Joined TreeEntry} (hj : j ∈ mergeJoin compare as bs)
    (hj' : j' ∈ mergeJoin compare as bs)
    (hleaf : SideLeaf gix find directory j.left? leaf ∨ SideLeaf gix find directory j.right? leaf)
    (hleaf' : SideLeaf gix find directory j'.left? leaf' ∨ SideLeaf gix find directory j'.right? leaf')
    (hpath : leaf.path = leaf'.path) : j = j' := by
  obtain ⟨entry, hnamed, hkey, hentry⟩ := key_of_sideLeaf has hbs hj hleaf
  obtain ⟨entry', hnamed', hkey', hentry'⟩ := key_of_sideLeaf has hbs hj' hleaf'
  refine (ascending_mergeJoin (comparesKeys has.1 hbs.1) has.2.1 hbs.2.1).eq_of_key hj hj' ?_
  rw [hkey, hkey', entryKey_of_path hnamed hnamed' hentry hentry' hpath]

/-- The leaves of a name with subtrees are those of the subtrees. -/
theorem sideLeaf_of_nameTrees {j : Joined TreeEntry} (hj : j ∈ mergeJoin compare as bs)
    {trees : Option Oid × Option Oid} (htrees : nameTrees j = some trees) :
    (SideLeaf gix find directory j.left? leaf ↔
      LeafOf gix find (joinPath directory (j.key TreeEntry.name)) (entriesOf gix find trees.1) leaf) ∧
    (SideLeaf gix find directory j.right? leaf ↔
      LeafOf gix find (joinPath directory (j.key TreeEntry.name)) (entriesOf gix find trees.2) leaf) := by
  obtain ⟨-, hlhs, hrhs⟩ := ready_of_nameTrees has hbs hj htrees none []
  cases j with
  | left entry =>
    simp only [nameTrees, Option.ite_none_right_eq_some] at htrees
    obtain ⟨htree, ⟨⟩⟩ := htrees
    exact ⟨sideLeaf_of_finds htree (hlhs _ rfl), iff_of_false not_sideLeaf_none not_leafOf_nil⟩
  | right entry =>
    simp only [nameTrees, Option.ite_none_right_eq_some] at htrees
    obtain ⟨htree, ⟨⟩⟩ := htrees
    exact ⟨iff_of_false not_sideLeaf_none not_leafOf_nil, sideLeaf_of_finds htree (hrhs _ rfl)⟩
  | both lhs rhs =>
    simp only [nameTrees, Option.ite_none_right_eq_some] at htrees
    obtain ⟨⟨htree, -⟩, ⟨⟩⟩ := htrees
    obtain ⟨-, -, hname, hsort⟩ := both_of_mem has hbs hj
    refine ⟨sideLeaf_of_finds htree (hlhs _ rfl), ?_⟩
    rw [Joined.key, hname]
    exact sideLeaf_of_finds (hsort ▸ htree) (hrhs _ rfl)

/-- Where there are subtrees to go into, the change at the name itself is not one of a file. -/
theorem not_ofLeaf_of_nameTrees {j : Joined TreeEntry} (hj : j ∈ mergeJoin compare as bs)
    {trees : Option Oid × Option Oid} (htrees : nameTrees j = some trees) (hchange : change ∈ nameChanges j) :
    change.ofLeaf = false := by
  cases j with
  | left entry =>
    simp only [nameTrees, Option.ite_none_right_eq_some] at htrees
    obtain rfl := List.mem_singleton.mp hchange
    simp [Change.ofLeaf, htrees.1]
  | right entry =>
    simp only [nameTrees, Option.ite_none_right_eq_some] at htrees
    obtain rfl := List.mem_singleton.mp hchange
    simp [Change.ofLeaf, htrees.1]
  | both lhs rhs =>
    simp only [nameTrees, Option.ite_none_right_eq_some] at htrees
    obtain ⟨⟨htree, hoid⟩, -⟩ := htrees
    obtain ⟨-, -, -, hsort⟩ := both_of_mem has hbs hj
    simp only [nameChanges, if_pos htree, if_neg hoid, List.mem_singleton] at hchange
    simp [hchange, Change.ofLeaf, htree, ← hsort]

/-- Where there are no subtrees to go into, the changes at a name are its differences. -/
theorem mem_nameChanges {j : Joined TreeEntry} (hj : j ∈ mergeJoin compare as bs) (htrees : nameTrees j = none) :
    (change ∈ nameChanges j ∧ joinPath directory (j.key TreeEntry.name) = path) ∧ change.ofLeaf ↔
      Differs (SideLeaf gix find directory j.left?) (SideLeaf gix find directory j.right?) change path := by
  cases j with
  | left entry =>
    have hfile : isTree entry.mode = false := by simpa [nameTrees] using htrees
    rw [Joined.left?, Joined.right?, differs_congr (fun _ ↦ sideLeaf_of_file hfile)
      fun _ ↦ iff_of_false not_sideLeaf_none not_false]
    cases change with
    | deletion entryMode oid relation =>
      simp only [nameChanges, List.mem_singleton, Joined.key, Change.ofLeaf, Differs]
      grind
    | addition | modification => simp [nameChanges, Differs]
  | right entry =>
    have hfile : isTree entry.mode = false := by simpa [nameTrees] using htrees
    rw [Joined.left?, Joined.right?, differs_congr (fun _ ↦ iff_of_false not_sideLeaf_none not_false)
      fun _ ↦ sideLeaf_of_file hfile]
    cases change with
    | addition entryMode oid relation =>
      simp only [nameChanges, List.mem_singleton, Joined.key, Change.ofLeaf, Differs]
      grind
    | deletion | modification => simp [nameChanges, Differs]
  | both lhs rhs =>
    obtain ⟨hlhs, hrhs, hname, hsort⟩ := both_of_mem has hbs hj
    cases htree : isTree lhs.mode with
    | true =>
      -- Equal trees, which have no differences.
      have hoid : lhs.oid = rhs.oid := by simpa [nameTrees, htree] using htrees
      have hside : ∀ leaf, SideLeaf gix find directory (some rhs) leaf ↔ SideLeaf gix find directory (some lhs) leaf := by
        intro leaf
        simp [SideLeaf, EntryLeaf, htree, ← hsort, hoid, hname]
      rw [Joined.left?, Joined.right?, differs_congr (fun _ ↦ Iff.rfl) hside]
      refine iff_of_false (by simp [nameChanges, htree, hoid]) (not_differs_self fun leaf leaf' hleaf hleaf' ↦ ?_)
      obtain ⟨_, ⟨⟩, hleaf⟩ := hleaf
      obtain ⟨_, ⟨⟩, hleaf'⟩ := hleaf'
      exact leafOf_unique has ⟨lhs, hlhs, hleaf⟩ ⟨lhs, hlhs, hleaf'⟩
    | false =>
      rw [Joined.left?, Joined.right?, differs_congr (fun _ ↦ sideLeaf_of_file htree)
        fun _ ↦ sideLeaf_of_file (hsort ▸ htree)]
      cases change with
      | modification previousEntryMode previousOid entryMode oid =>
        simp only [nameChanges, htree, Joined.key, Change.ofLeaf, Differs, hname]
        grind
      | addition | deletion =>
        -- There is a file on both sides.
        refine iff_of_false (fun h ↦ ?_) (fun h ↦ h.2.2 _ rfl ?_)
        · simp [nameChanges, htree] at h
        · simpa [hname] using (congrArg TreeLeaf.path h.2.1).symm

/-- A difference of two directories is one at a name. -/
theorem differs_iff : Differs (LeafOf gix find directory as) (LeafOf gix find directory bs) change path ↔
    ∃ j ∈ mergeJoin compare as bs,
      Differs (SideLeaf gix find directory j.left?) (SideLeaf gix find directory j.right?) change path := by
  rw [differs_congr (fun _ ↦ leafOf_left_iff bs) fun _ ↦ leafOf_right_iff as]
  cases change with
  | addition entryMode oid relation =>
    constructor
    · rintro ⟨hrelation, ⟨j, hj, hnew⟩, hold⟩
      exact ⟨j, hj, hrelation, hnew, fun leaf hleaf ↦ hold leaf ⟨j, hj, hleaf⟩⟩
    · rintro ⟨j, hj, hrelation, hnew, hold⟩
      refine ⟨hrelation, ⟨j, hj, hnew⟩, ?_⟩
      rintro leaf ⟨j', hj', hleaf⟩ hpath
      obtain rfl := eq_of_sideLeaf has hbs hj' hj (.inl hleaf) (.inr hnew) hpath
      exact hold leaf hleaf hpath
  | deletion entryMode oid relation =>
    constructor
    · rintro ⟨hrelation, ⟨j, hj, hold⟩, hnew⟩
      exact ⟨j, hj, hrelation, hold, fun leaf hleaf ↦ hnew leaf ⟨j, hj, hleaf⟩⟩
    · rintro ⟨j, hj, hrelation, hold, hnew⟩
      refine ⟨hrelation, ⟨j, hj, hold⟩, ?_⟩
      rintro leaf ⟨j', hj', hleaf⟩ hpath
      obtain rfl := eq_of_sideLeaf has hbs hj' hj (.inr hleaf) (.inl hold) hpath
      exact hnew leaf hleaf hpath
  | modification previousEntryMode previousOid entryMode oid =>
    constructor
    · rintro ⟨⟨j, hj, hold⟩, ⟨j', hj', hnew⟩, hne⟩
      obtain rfl := eq_of_sideLeaf has hbs hj hj' (.inl hold) (.inr hnew) rfl
      exact ⟨j, hj, hold, hnew, hne⟩
    · rintro ⟨j, hj, hold, hnew, hne⟩
      exact ⟨⟨j, hj, hold⟩, ⟨j, hj, hnew⟩, hne⟩

end Directory

/-- The changes at a name and below it. -/
def nameDifferences (gix : Gix) (find : Oid → Option Bytes) (depth : ℕ) (directory : Bytes) (j : Joined TreeEntry) :
    List Visit :=
  let path := joinPath directory (j.key TreeEntry.name)
  (nameChanges j).map (·, path) ++ (nameTrees j).toList.flatMap fun trees ↦
    differences gix find depth path (entriesOf gix find trees.1) (entriesOf gix find trees.2)

/-- The differences of two trees are those of their names, in the order of the join. -/
theorem differences_succ : differences gix find (depth + 1) directory as bs =
    (mergeJoin compare as bs).flatMap (nameDifferences gix find depth directory) := rfl

/-- The differences of the subtrees at a name, without the changes of subtrees themselves. -/
theorem mem_subtrees {j : Joined TreeEntry} {trees : Option Oid × Option Oid} (htrees : nameTrees j = some trees) :
    (change, path) ∈ (nameTrees j).toList.flatMap (fun trees ↦ differences gix find depth
        (joinPath directory (j.key TreeEntry.name)) (entriesOf gix find trees.1) (entriesOf gix find trees.2)) ↔
      (change, path) ∈ differences gix find depth (joinPath directory (j.key TreeEntry.name))
        (entriesOf gix find trees.1) (entriesOf gix find trees.2) := by
  simp [htrees]

section Directory

variable (has : Walkable gix find (depth + 1) as) (hbs : Walkable gix find (depth + 1) bs)

include has hbs

/-- The changes of files at a name and below it are its differences, as far as those below it are. -/
theorem mem_nameDifferences {j : Joined TreeEntry} (hj : j ∈ mergeJoin compare as bs)
    (hbelow : ∀ trees, nameTrees j = some trees →
      ((change, path) ∈ differences gix find depth (joinPath directory (j.key TreeEntry.name))
          (entriesOf gix find trees.1) (entriesOf gix find trees.2) ∧ change.ofLeaf ↔
        Differs (LeafOf gix find (joinPath directory (j.key TreeEntry.name)) (entriesOf gix find trees.1))
          (LeafOf gix find (joinPath directory (j.key TreeEntry.name)) (entriesOf gix find trees.2)) change path)) :
    (change, path) ∈ nameDifferences gix find depth directory j ∧ change.ofLeaf ↔
      Differs (SideLeaf gix find directory j.left?) (SideLeaf gix find directory j.right?) change path := by
  rw [nameDifferences]
  cases htrees : nameTrees j with
  | none =>
    rw [← mem_nameChanges has hbs hj htrees]
    simp
  | some trees =>
    rw [differs_congr (fun _ ↦ (sideLeaf_of_nameTrees has hbs hj htrees).1)
      fun _ ↦ (sideLeaf_of_nameTrees has hbs hj htrees).2]
    refine Iff.trans ?_ (hbelow trees htrees)
    rw [List.mem_append, ← htrees, mem_subtrees htrees]
    constructor
    · rintro ⟨hmem | hmem, hleaf⟩
      · obtain ⟨own, hown, ⟨⟩⟩ := List.mem_map.mp hmem
        rw [not_ofLeaf_of_nameTrees has hbs hj htrees hown] at hleaf
        cases hleaf
      · exact ⟨hmem, hleaf⟩
    · exact fun ⟨hmem, hleaf⟩ ↦ ⟨.inr hmem, hleaf⟩

end Directory

/-- Between trees in canonical order the changes of files are the differences of the leaves. -/
theorem mem_differences (has : Walkable gix find depth as) (hbs : Walkable gix find depth bs) :
    (change, path) ∈ differences gix find depth directory as bs ∧ change.ofLeaf ↔
      Differs (LeafOf gix find directory as) (LeafOf gix find directory bs) change path := by
  induction depth generalizing directory as bs with
  | zero => exact has.elim
  | succ depth ih =>
    have hname : ∀ j ∈ mergeJoin compare as bs,
        ((change, path) ∈ nameDifferences gix find depth directory j ∧ change.ofLeaf ↔
          Differs (SideLeaf gix find directory j.left?) (SideLeaf gix find directory j.right?) change path) := by
      intro j hj
      refine mem_nameDifferences has hbs hj fun trees htrees ↦ ?_
      obtain ⟨hlhs, hrhs⟩ := Task.walkable (ready_of_nameTrees has hbs hj htrees none [])
      exact ih hlhs hrhs
    rw [differs_iff has hbs, differences_succ, List.mem_flatMap]
    constructor
    · rintro ⟨⟨j, hj, hmem⟩, hleaf⟩
      exact ⟨j, hj, (hname j hj).mp ⟨hmem, hleaf⟩⟩
    · rintro ⟨j, hj, hdiffers⟩
      obtain ⟨hmem, hleaf⟩ := (hname j hj).mpr hdiffers
      exact ⟨⟨j, hj, hmem⟩, hleaf⟩

/-- Changes of files are at different paths. -/
def Apart (v v' : Visit) : Prop := v.1.ofLeaf → v'.1.ofLeaf → v.2 ≠ v'.2

/-- There is one change at a name at most. -/
theorem pairwise_nameChanges (R : Change → Change → Prop) (j : Joined TreeEntry) : (nameChanges j).Pairwise R := by
  cases j with
  | left | right => exact List.pairwise_singleton _ _
  | both lhs rhs =>
    simp only [nameChanges]
    split <;> split <;> simp

/-- Each path comes up in one change of a file at most. -/
theorem pairwise_differences (has : Walkable gix find depth as) (hbs : Walkable gix find depth bs) :
    (differences gix find depth directory as bs).Pairwise Apart := by
  induction depth generalizing directory as bs with
  | zero => exact has.elim
  | succ depth ih =>
    have hkeys := ascending_mergeJoin (comparesKeys has.1 hbs.1) has.2.1 hbs.2.1
    have hside : ∀ j ∈ mergeJoin compare as bs, ∀ v ∈ nameDifferences gix find depth directory j, v.1.ofLeaf →
        ∃ leaf, (SideLeaf gix find directory j.left? leaf ∨ SideLeaf gix find directory j.right? leaf) ∧
          leaf.path = v.2 := fun j hj v hv hleaf ↦
      Differs.exists_leaf <| (mem_nameDifferences has hbs hj fun trees htrees ↦
        have hwalkable := Task.walkable (ready_of_nameTrees has hbs hj htrees none [])
        mem_differences hwalkable.1 hwalkable.2).mp ⟨hv, hleaf⟩
    rw [differences_succ, List.pairwise_flatMap]
    refine ⟨fun j hj ↦ ?_, hkeys.imp_of_mem ?_⟩
    · rw [nameDifferences, List.pairwise_append]
      refine ⟨List.pairwise_map.mpr (pairwise_nameChanges _ j), ?_, ?_⟩
      · cases htrees : nameTrees j with
        | none => exact List.Pairwise.nil
        | some trees =>
          obtain ⟨hlhs, hrhs⟩ := Task.walkable (ready_of_nameTrees has hbs hj htrees none [])
          rw [Option.toList_some, List.flatMap_singleton]
          exact ih hlhs hrhs
      · -- A change at the name itself is not one of a file when there are subtrees to go into.
        intro v hv v' hv' hleaf
        obtain ⟨own, hown, rfl⟩ := List.mem_map.mp hv
        obtain ⟨trees, htrees, -⟩ := List.mem_flatMap.mp hv'
        rw [not_ofLeaf_of_nameTrees has hbs hj (Option.mem_toList.mp htrees) hown] at hleaf
        cases hleaf
    · intro j j' hj hj' hlt v hv v' hv' hleaf hleaf' hpath
      obtain ⟨leaf, hside₁, hleaf₁⟩ := hside j hj v hv hleaf
      obtain ⟨leaf', hside₂, hleaf₂⟩ := hside j' hj' v' hv' hleaf'
      obtain rfl := eq_of_sideLeaf has hbs hj hj' hside₁ hside₂ (hleaf₁.trans (hpath.trans hleaf₂.symm))
      exact absurd hlt (Std.Irrefl.irrefl (r := (· < · : Bytes → Bytes → Prop)) _)

end Gitility.GixDiff
