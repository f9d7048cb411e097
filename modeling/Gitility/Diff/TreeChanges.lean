import Mathlib.Algebra.Order.BigOperators.Group.List
import Gitility.Diff.TreeLevels

/-!
# The changes of a tree diff

What the walk visits in one directory, and the subtrees that it schedules there, are the differences of both trees
at each name, if the relations between the changes are left aside.
-/

namespace Gitility.GixDiff

open Diff
open scoped List

variable {T : Type} {visit : Change → Bytes → T → Walking T} {gix : Gix} {find : Oid → Option Bytes}

/-! ### The visits of one directory -/

/-- A change with its path. -/
abbrev Visit := Change × Bytes

/-- Subtrees that are scheduled, with the depth of what is in them. -/
structure Task where
  depth : ℕ
  lhs : Option Oid
  rhs : Option Oid
  relation : Option Relation
  path : Bytes

/-- The visits one after another. -/
def visitEach (visit : Change → Bytes → T → Walking T) : List Visit → T → Walking T
  | [], tracked => pure tracked
  | (change, path) :: visits, tracked => do
    let tracked ← visit change path tracked
    visitEach visit visits tracked

/-- Visits are made one after another. -/
theorem visitEach_append (visits visits' : List Visit) (tracked : T) :
    visitEach visit (visits ++ visits') tracked = visitEach visit visits tracked >>= visitEach visit visits' := by
  induction visits generalizing tracked with
  | nil => rfl
  | cons change visits ih => simp only [List.cons_append, visitEach, Program.bind_assoc, ih]

private theorem visitAll_eq (path : Bytes) (changes : List Change) (tracked : T) :
    visitAll visit path changes tracked = visitEach visit (changes.map (·, path)) tracked := by
  induction changes generalizing tracked with
  | nil => rfl
  | cons change changes ih => simp only [visitAll, List.map_cons, visitEach, ih]

/-- The visits of a directory, the subtrees that are scheduled in it, and the last change ID. -/
def level (depth : ℕ) (relation : Option Relation) (directory : Bytes) :
    ℕ → List (Joined TreeEntry) → List Visit × List Task × ℕ
  | changeId, [] => ([], [], changeId)
  | changeId, j :: js =>
    let found := visitedAt relation changeId j
    let path := joinPath directory (j.key TreeEntry.name)
    let (visits, tasks, last) := level depth relation directory found.changeId js
    (found.changes.map (·, path) ++ visits,
      (found.tree.toList.map fun tree ↦ ⟨depth, tree.1, tree.2.1, tree.2.2, path⟩) ++ tasks, last)

/-- The trees that a task schedules. -/
def Task.info (task : Task) : TreeInfo := (task.lhs, task.rhs, task.relation)

/-- A name of both entries is a part of a path. -/
def NamedJoin (j : Joined TreeEntry) : Prop := j.key TreeEntry.name ≠ [] ∧ 0x2f ∉ j.key TreeEntry.name

private theorem popPath_eq {j : Joined TreeEntry} (hj : NamedJoin j) (pathDeque : List Bytes) (directory : Bytes)
    (trees : List TreeInfo) (changeId : ℕ) (tracked : T) :
    Walk.popPath ⟨⟨pathDeque, joinPath directory (j.key TreeEntry.name)⟩, trees, changeId, tracked⟩ =
      ⟨⟨pathDeque, directory⟩, trees, changeId, tracked⟩ := by
  rw [Walk.popPath]
  exact congrArg (Walk.mk · trees changeId tracked)
    (popElement_eq (show Named ⟨0, j.key TreeEntry.name, sampleId 0⟩ from hj) directory pathDeque)

/-- The walk through the names of a directory. -/
theorem walkNames_eq (depth : ℕ) {relation : Option Relation} {js : List (Joined TreeEntry)}
    (hjs : ∀ j ∈ js, NamedJoin j) (pathDeque : List Bytes) (directory : Bytes) (trees : List TreeInfo)
    (changeId : ℕ) (tracked : T) :
    walkNames visit relation js ⟨⟨pathDeque, directory⟩, trees, changeId, tracked⟩ =
      visitEach visit (level depth relation directory changeId js).1 tracked >>= fun tracked ↦
        pure ⟨⟨pathDeque ++ (level depth relation directory changeId js).2.1.map Task.path, directory⟩,
          trees ++ (level depth relation directory changeId js).2.1.map Task.info,
          (level depth relation directory changeId js).2.2, tracked⟩ := by
  induction js generalizing pathDeque trees changeId tracked with
  | nil => simp [walkNames, level, visitEach, Program.pure_bind]
  | cons j js ih =>
    have hj := hjs j List.mem_cons_self
    have htail : ∀ j ∈ js, NamedJoin j := fun j' hj' ↦ hjs j' (List.mem_cons_of_mem _ hj')
    simp only [walkNames, walkName, level, visitEach_append, visitAll_eq, Program.bind_assoc, Program.pure_bind,
      popPath_eq hj, ih htail, List.map_append, List.append_assoc]
    refine congrArg _ (funext fun tracked ↦ congrArg _ (funext fun tracked ↦ ?_))
    simp [Task.info, Function.comp_def]

/-! ### Differences -/

/-- A change without its relation. -/
def Change.bare : Change → Change
  | addition entryMode oid _ => addition entryMode oid none
  | deletion entryMode oid _ => deletion entryMode oid none
  | modification previousEntryMode previousOid entryMode oid =>
    modification previousEntryMode previousOid entryMode oid

/-- The changes at one name. -/
def nameChanges : Joined TreeEntry → List Change
  | .left entry => [.deletion entry.mode entry.oid none]
  | .right entry => [.addition entry.mode entry.oid none]
  | .both lhs rhs =>
    if isTree lhs.mode then
      if lhs.oid = rhs.oid then [] else [.modification lhs.mode lhs.oid rhs.mode rhs.oid]
    else if lhs.oid ≠ rhs.oid ∨ lhs.mode ≠ rhs.mode then [.modification lhs.mode lhs.oid rhs.mode rhs.oid]
    else []

/-- The subtrees at one name that may differ. -/
def nameTrees : Joined TreeEntry → Option (Option Oid × Option Oid)
  | .left entry => if isTree entry.mode then some (some entry.oid, none) else none
  | .right entry => if isTree entry.mode then some (none, some entry.oid) else none
  | .both lhs rhs => if isTree lhs.mode ∧ lhs.oid ≠ rhs.oid then some (some lhs.oid, some rhs.oid) else none

/-- The entries of a tree, if there is one. -/
def entriesOf (gix : Gix) (find : Oid → Option Bytes) : Option Oid → List TreeEntry
  | none => []
  | some oid => ((find oid).bind (treeEntries gix oid.kind)).getD []

/-- The changes from one list of entries to another and below them. -/
def differences (gix : Gix) (find : Oid → Option Bytes) : ℕ → Bytes → List TreeEntry → List TreeEntry → List Visit
  | 0, _, _, _ => []
  | depth + 1, directory, as, bs => (mergeJoin compare as bs).flatMap fun j ↦
    let path := joinPath directory (j.key TreeEntry.name)
    (nameChanges j).map (·, path) ++ (nameTrees j).toList.flatMap fun trees ↦
      differences gix find depth path (entriesOf gix find trees.1) (entriesOf gix find trees.2)

/-- The number of directories in which there may be changes. -/
def directories (gix : Gix) (find : Oid → Option Bytes) : ℕ → List TreeEntry → List TreeEntry → ℕ
  | 0, _, _ => 0
  | depth + 1, as, bs => ((mergeJoin compare as bs).flatMap fun j ↦ (nameTrees j).toList.map fun trees ↦
      directories gix find depth (entriesOf gix find trees.1) (entriesOf gix find trees.2)).sum + 1

/-- The number of subtrees below some entries, counted at each place where they stand. -/
def subtreeCount (gix : Gix) (find : Oid → Option Bytes) : ℕ → List TreeEntry → ℕ
  | 0, _ => 0
  | depth + 1, entries => (entries.map fun entry ↦
      if isTree entry.mode then subtreeCount gix find depth (entriesOf gix find (some entry.oid)) + 1 else 0).sum

/-- A tree with these entries is in canonical order, its subtrees are found, and so on to a depth. -/
def Walkable (gix : Gix) (find : Oid → Option Bytes) : ℕ → List TreeEntry → Prop
  | 0, _ => False
  | depth + 1, entries => (∀ entry ∈ entries, Named entry) ∧ Ascending entryKey entries ∧
    ∀ entry ∈ entries, isTree entry.mode → ∃ payload children, find entry.oid = some payload ∧
      treeEntries gix entry.oid.kind payload = some children ∧ Walkable gix find depth children

namespace Task

variable (gix find) (task : Task)

/-- The entries of the old tree. -/
def lhsEntries : List TreeEntry := entriesOf gix find task.lhs

/-- The entries of the new tree. -/
def rhsEntries : List TreeEntry := entriesOf gix find task.rhs

/-- The changes in the scheduled trees. -/
def changes : List Visit := differences gix find task.depth task.path (task.lhsEntries gix find) (task.rhsEntries gix find)

/-- The number of directories in which the task may find changes. -/
def size : ℕ := directories gix find task.depth (task.lhsEntries gix find) (task.rhsEntries gix find)

/-- A tree of the task is found. -/
def Finds (oid : Oid) : Prop := ∃ payload children, find oid = some payload ∧
  treeEntries gix oid.kind payload = some children ∧ Walkable gix find task.depth children

/-- There is a tree, and each is found. -/
structure Ready : Prop where
  some : task.lhs.isSome ∨ task.rhs.isSome
  lhs : ∀ oid ∈ task.lhs, task.Finds gix find oid
  rhs : ∀ oid ∈ task.rhs, task.Finds gix find oid

end Task

private theorem bare_visitedAt (relation : Option Relation) (changeId : ℕ) (j : Joined TreeEntry) :
    (visitedAt relation changeId j).changes.map Change.bare = nameChanges j := by
  cases j with
  | left entry => rfl
  | right entry => rfl
  | both lhs rhs =>
    simp only [visitedAt, nameChanges]
    split <;> split <;> rfl

private theorem trees_visitedAt (relation : Option Relation) (changeId : ℕ) (j : Joined TreeEntry) :
    (visitedAt relation changeId j).tree.map (fun tree ↦ (tree.1, tree.2.1)) = nameTrees j := by
  cases j with
  | left entry =>
    simp only [visitedAt, nameTrees]
    split <;> rfl
  | right entry =>
    simp only [visitedAt, nameTrees]
    split <;> rfl
  | both lhs rhs =>
    simp only [visitedAt, nameTrees]
    by_cases htree : isTree lhs.mode <;> by_cases hoid : lhs.oid = rhs.oid <;> simp [htree, hoid]
    split <;> rfl

variable {relation : Option Relation} {directory : Bytes} {js : List (Joined TreeEntry)} {depth : ℕ}

/-- Without relations, the visits of a level are the changes of its names. -/
theorem bare_level (changeId : ℕ) : (level depth relation directory changeId js).1.map (Prod.map Change.bare id) =
    js.flatMap fun j ↦ (nameChanges j).map (·, joinPath directory (j.key TreeEntry.name)) := by
  induction js generalizing changeId with
  | nil => rfl
  | cons j js ih =>
    simp only [level, List.map_append, ih, List.flatMap_cons, ← bare_visitedAt relation changeId j, List.map_map]
    rfl

/-- The tasks of a directory, whose relations have no part in what they change. -/
theorem tasks_level (changeId : ℕ) {α : Type} {f : Task → α} (hf : ∀ task relation, f { task with relation } = f task) :
    (level depth relation directory changeId js).2.1.map f = js.flatMap fun j ↦ (nameTrees j).toList.map fun trees ↦
      f ⟨depth, trees.1, trees.2, none, joinPath directory (j.key TreeEntry.name)⟩ := by
  induction js generalizing changeId with
  | nil => rfl
  | cons j js ih =>
    simp only [level, List.map_append, ih, List.flatMap_cons, ← trees_visitedAt relation changeId j]
    congr 1
    cases (visitedAt relation changeId j).tree with
    | none => rfl
    | some tree => exact congrArg (fun a ↦ [a]) (hf ⟨depth, tree.1, tree.2.1, none, _⟩ tree.2.2)

/-! ### Trees in canonical order -/

/-- Entries are compared by their keys. -/
theorem comparesKeys {as bs : List TreeEntry} (has : ∀ e ∈ as, Named e) (hbs : ∀ e ∈ bs, Named e) :
    ComparesKeys entryKey compare as bs where
  lt a ha b hb h := Bytes.compare_eq_lt.mp (compare_eq (has a ha).2 (hbs b hb).2 ▸ h)
  eq a ha b hb h := Std.compare_eq_iff_eq.mp (compare_eq (has a ha).2 (hbs b hb).2 ▸ h)
  gt a ha b hb h := Bytes.compare_eq_lt.mp <| by
    rw [Std.OrientedOrd.eq_swap, ← compare_eq (has a ha).2 (hbs b hb).2, h]
    rfl

/-- Joined entries have a name that is a part of a path. -/
theorem namedJoin_of_mem {as bs : List TreeEntry} (has : ∀ e ∈ as, Named e) (hbs : ∀ e ∈ bs, Named e)
    {j : Joined TreeEntry} (hj : j ∈ mergeJoin compare as bs) : NamedJoin j := by
  rcases exists_key TreeEntry.name hj with ⟨e, he, hkey⟩ | ⟨e, he, hkey⟩
  · rw [NamedJoin, hkey]
    exact has e he
  · rw [NamedJoin, hkey]
    exact hbs e he

/-- The entries of a stored tree. -/
theorem entriesOf_some {oid : Oid} {payload : Bytes} {children : List TreeEntry} (hfind : find oid = some payload)
    (hchildren : treeEntries gix oid.kind payload = some children) : entriesOf gix find (some oid) = children := by
  simp [entriesOf, hfind, hchildren]

/-- A tree without entries can be walked. -/
theorem Walkable.nil (gix : Gix) (find : Oid → Option Bytes) (depth : ℕ) : Walkable gix find (depth + 1) [] :=
  ⟨by simp, List.Pairwise.nil, by simp⟩

private theorem Walkable.finds {entries : List TreeEntry} {entry : TreeEntry} (h : Walkable gix find (depth + 1) entries)
    (hmem : entry ∈ entries) (htree : isTree entry.mode) (task : Task) (hdepth : task.depth = depth) :
    task.Finds gix find entry.oid := by
  subst hdepth
  exact h.2.2 entry hmem htree

section Directory

variable {as bs : List TreeEntry} (has : Walkable gix find (depth + 1) as) (hbs : Walkable gix find (depth + 1) bs)

include has hbs in
/-- Entries at the same name are in both trees, and of the same sort. -/
theorem both_of_mem {a b : TreeEntry} (h : .both a b ∈ mergeJoin compare as bs) :
    a ∈ as ∧ b ∈ bs ∧ a.name = b.name ∧ isTree a.mode = isTree b.mode := by
  obtain ⟨ha, hb, hkey⟩ := (both_mem_mergeJoin (comparesKeys has.1 hbs.1) has.2.1 hbs.2.1).mp h
  exact ⟨ha, hb, entryKey_inj (has.1 a ha) (hbs.1 b hb) hkey⟩

include has hbs in
/-- The trees that are scheduled in a directory are found. -/
theorem ready_of_nameTrees {j : Joined TreeEntry} (hj : j ∈ mergeJoin compare as bs)
    {trees : Option Oid × Option Oid} (htrees : nameTrees j = some trees) (relation : Option Relation)
    (path : Bytes) : Task.Ready gix find ⟨depth, trees.1, trees.2, relation, path⟩ := by
  cases j with
  | left entry =>
    simp only [nameTrees, Option.ite_none_right_eq_some] at htrees
    obtain ⟨htree, ⟨⟩⟩ := htrees
    refine ⟨.inl rfl, ?_, by simp⟩
    rintro oid ⟨⟩
    exact has.finds (mem_left_iff.mpr ⟨_, hj, rfl⟩) htree _ rfl
  | right entry =>
    simp only [nameTrees, Option.ite_none_right_eq_some] at htrees
    obtain ⟨htree, ⟨⟩⟩ := htrees
    refine ⟨.inr rfl, by simp, ?_⟩
    rintro oid ⟨⟩
    exact hbs.finds (mem_right_iff.mpr ⟨_, hj, rfl⟩) htree _ rfl
  | both lhs rhs =>
    simp only [nameTrees, Option.ite_none_right_eq_some] at htrees
    obtain ⟨⟨htree, -⟩, ⟨⟩⟩ := htrees
    obtain ⟨hl, hr, -, hsort⟩ := both_of_mem has hbs hj
    refine ⟨.inl rfl, ?_, ?_⟩
    · rintro oid ⟨⟩
      exact has.finds hl htree _ rfl
    · rintro oid ⟨⟩
      exact hbs.finds hr (hsort ▸ htree) _ rfl

include has hbs in
/-- At a name there are no more directories than subtrees, with those that stand there. -/
theorem directories_name_le (ih : ∀ {as bs}, Walkable gix find depth as → Walkable gix find depth bs →
      directories gix find depth as bs ≤ subtreeCount gix find depth as + subtreeCount gix find depth bs + 1)
    {j : Joined TreeEntry} (hj : j ∈ mergeJoin compare as bs) :
    ((nameTrees j).toList.map fun trees ↦
        directories gix find depth (entriesOf gix find trees.1) (entriesOf gix find trees.2)).sum ≤
      j.weight fun entry ↦
        if isTree entry.mode then subtreeCount gix find depth (entriesOf gix find (some entry.oid)) + 1 else 0 := by
  have hinside : ∀ {entries : List TreeEntry} {entry : TreeEntry}, Walkable gix find (depth + 1) entries →
      entry ∈ entries → isTree entry.mode → Walkable gix find depth (entriesOf gix find (some entry.oid)) := by
    intro entries entry hwalk hmem htree
    obtain ⟨payload, children, hfind, hchildren, hwalkable⟩ := hwalk.2.2 entry hmem htree
    rwa [entriesOf_some hfind hchildren]
  have hnone : ∀ {entries : List TreeEntry}, Walkable gix find depth entries →
      Walkable gix find depth (entriesOf gix find none) := by
    intro entries hwalk
    cases depth with
    | zero => exact hwalk.elim
    | succ n => exact Walkable.nil gix find n
  have hempty : subtreeCount gix find depth (entriesOf gix find none) = 0 := by cases depth <;> rfl
  cases j with
  | left entry =>
    by_cases htree : isTree entry.mode
    · have hwalk := hinside has (mem_left_iff.mpr ⟨_, hj, rfl⟩) htree
      have hle := ih hwalk (hnone hwalk)
      simp only [nameTrees, Joined.weight, if_pos htree, Option.toList_some, List.map_cons, List.map_nil,
        List.sum_cons, List.sum_nil]
      omega
    · simp [nameTrees, htree]
  | right entry =>
    by_cases htree : isTree entry.mode
    · have hwalk := hinside hbs (mem_right_iff.mpr ⟨_, hj, rfl⟩) htree
      have hle := ih (hnone hwalk) hwalk
      simp only [nameTrees, Joined.weight, if_pos htree, Option.toList_some, List.map_cons, List.map_nil,
        List.sum_cons, List.sum_nil]
      omega
    · simp [nameTrees, htree]
  | both lhs rhs =>
    obtain ⟨hl, hr, -, hsort⟩ := both_of_mem has hbs hj
    by_cases htree : isTree lhs.mode ∧ lhs.oid ≠ rhs.oid
    · have htree' : isTree rhs.mode := hsort ▸ htree.1
      have hle := ih (hinside has hl htree.1) (hinside hbs hr htree')
      simp only [nameTrees, Joined.weight, if_pos htree, if_pos htree.1, if_pos htree', Option.toList_some,
        List.map_cons, List.map_nil, List.sum_cons, List.sum_nil]
      omega
    · simp [nameTrees, htree]

end Directory

/-- Two trees have no more directories than subtrees, and their roots. -/
theorem directories_le {as bs : List TreeEntry} (has : Walkable gix find depth as) (hbs : Walkable gix find depth bs) :
    directories gix find depth as bs ≤ subtreeCount gix find depth as + subtreeCount gix find depth bs + 1 := by
  induction depth generalizing as bs with
  | zero => exact has.elim
  | succ depth ih =>
    rw [directories, subtreeCount, subtreeCount, ← @sum_weight_mergeJoin _ compare, List.flatMap_def,
      List.sum_flatten, List.map_map]
    exact Nat.add_le_add_right (List.sum_le_sum fun j hj ↦ directories_name_le has hbs ih hj) 1

end Gitility.GixDiff
