import Gitility.Base.Lockstep
import Gitility.Diff.Relations

/-!
# A whole tree diff

The walk visits one directory after another, and the subtrees that it schedules later: all differences of both trees,
each once.
-/

namespace Gitility.GixDiff

open Diff
open scoped List

variable {T : Type} {visit : Change → Bytes → T → Walking T} {gix : Gix} {find : Oid → Option Bytes}
  {relation : Option Relation} {directory : Bytes} {js : List (Joined TreeEntry)} {depth : ℕ}

section Exec

variable {S : Type} {handler : ∀ op, S → Except TreeDiffError (WalkOp.Answer op) × S}

/-- In all good states these trees are found, which changes nothing. -/
structure Serves (handler : ∀ op, S → Except TreeDiffError (WalkOp.Answer op) × S) (good : S → Prop)
    (find : Oid → Option Bytes) : Prop where
  keeps : ∀ op s, good s → good (handler op s).2
  finds : ∀ s, good s → ∀ oid payload, find oid = some payload →
    handler (.find oid) s = (.ok (some (.tree, payload)), s)

variable {good : S → Prop} {s : S}

private theorem exec_findTreeIter (hserves : Serves handler good find) {oid : Oid} {payload : Bytes}
    {children : List TreeEntry} (hfind : find oid = some payload)
    (hchildren : treeEntries gix oid.kind payload = some children) (hs : good s) :
    (findTreeIter gix oid).exec handler s = (.ok (children.map some), s) := by
  have hask : (Program.request (WalkOp.find oid) : Walking (WalkOp.Answer (.find oid))).exec handler s =
      (.ok (some (.tree, payload)), s) :=
    Program.exec_request_of (hserves.finds s hs oid payload hfind)
  rw [findTreeIter, Program.exec_bind_ok hask]
  exact congrArg (fun items ↦ (Outcome.ok items, s)) (treeEntries_eq_some.mp hchildren)

/-- The turn of the loop that takes up a task. -/
theorem exec_diffLoop_task (hserves : Serves handler good find) {task : Task} (hready : task.Ready gix find)
    (fuel : ℕ) (path : Bytes) (paths : List Bytes) (trees : List TreeInfo) (changeId : ℕ) (tracked : T) (hs : good s) :
    (diffLoop visit gix (fuel + 1) false [] [] relation
        ⟨⟨task.path :: paths, path⟩, task.info :: trees, changeId, tracked⟩).exec handler s =
      (diffLoop visit gix fuel false ((task.lhsEntries gix find).map some) ((task.rhsEntries gix find).map some)
        task.relation ⟨⟨paths, task.path⟩, trees, changeId, tracked⟩).exec handler s := by
  obtain ⟨depth, lhs, rhs, relation', path'⟩ := task
  obtain ⟨hsome, hlhs, hrhs⟩ := hready
  cases lhs with
  | none =>
    cases rhs with
    | none => simp at hsome
    | some rhs =>
      obtain ⟨payload, children, hfind, hchildren, -⟩ := hrhs rhs rfl
      have hiter := exec_findTreeIter hserves hfind hchildren hs
      simp only [Task.rhsEntries, entriesOf_some hfind hchildren]
      exact Program.exec_bind_ok hiter _
  | some lhs =>
    obtain ⟨payload, children, hfind, hchildren, -⟩ := hlhs lhs rfl
    have hiter := exec_findTreeIter hserves hfind hchildren hs
    simp only [Task.lhsEntries, entriesOf_some hfind hchildren]
    cases rhs with
    | none => exact Program.exec_bind_ok hiter _
    | some rhs =>
      obtain ⟨payload', children', hfind', hchildren', -⟩ := hrhs rhs rfl
      have hiter' := exec_findTreeIter hserves hfind' hchildren' hs
      simp only [Task.rhsEntries, entriesOf_some hfind' hchildren']
      exact (Program.exec_bind_ok hiter _).trans (Program.exec_bind_ok hiter' _)

/-- A ready task has two trees that can be walked. -/
theorem Task.walkable {task : Task} (hready : task.Ready gix find) :
    Walkable gix find task.depth (task.lhsEntries gix find) ∧ Walkable gix find task.depth (task.rhsEntries gix find) := by
  obtain ⟨depth, lhs, rhs, relation, path⟩ := task
  obtain ⟨hsome, hlhs, hrhs⟩ := hready
  have hpos : ∃ n, depth = n + 1 := by
    have hfinds : ∀ oid, Task.Finds gix find ⟨depth, lhs, rhs, relation, path⟩ oid → ∃ n, depth = n + 1 := by
      rintro oid ⟨payload, children, hfind, hchildren, hwalkable⟩
      cases depth with
      | zero => exact hwalkable.elim
      | succ n => exact ⟨n, rfl⟩
    rcases hsome with h | h
    · obtain ⟨oid, rfl⟩ := Option.isSome_iff_exists.mp h
      exact hfinds oid (hlhs oid rfl)
    · obtain ⟨oid, rfl⟩ := Option.isSome_iff_exists.mp h
      exact hfinds oid (hrhs oid rfl)
  obtain ⟨n, rfl⟩ := hpos
  have hside : ∀ side : Option Oid, (∀ oid ∈ side, Task.Finds gix find ⟨n + 1, lhs, rhs, relation, path⟩ oid) →
      Walkable gix find (n + 1) (entriesOf gix find side) := by
    intro side hfinds
    cases side with
    | none => exact Walkable.nil gix find n
    | some oid =>
      obtain ⟨payload, children, hfind, hchildren, hwalkable⟩ := hfinds oid rfl
      rw [entriesOf_some hfind hchildren]
      exact hwalkable
  exact ⟨hside lhs hlhs, hside rhs hrhs⟩

/-- The tasks of a directory are ready. -/
theorem ready_of_level {as bs : List TreeEntry} (has : Walkable gix find (depth + 1) as)
    (hbs : Walkable gix find (depth + 1) bs) {changeId : ℕ} {task : Task}
    (hmem : task ∈ (level depth relation directory changeId (mergeJoin compare as bs)).2.1) :
    task.Ready gix find := by
  have hbare := List.mem_map_of_mem (f := fun task : Task ↦ { task with relation := none }) hmem
  rw [tasks_level changeId fun _ _ ↦ rfl] at hbare
  obtain ⟨j, hj, hbare⟩ := List.mem_flatMap.mp hbare
  obtain ⟨trees, htrees, hbare⟩ := List.mem_map.mp hbare
  have hready := ready_of_nameTrees has hbs hj (Option.mem_toList.mp htrees) none
    (joinPath directory (j.key TreeEntry.name))
  rw [hbare] at hready
  exact ⟨hready.some, hready.lhs, hready.rhs⟩

/-- The changes of a directory are those at its names and those of the tasks that it leaves. -/
theorem perm_level (depth : ℕ) (relation : Option Relation) (directory : Bytes) (changeId : ℕ)
    (as bs : List TreeEntry) : differences gix find (depth + 1) directory as bs ~
      (level depth relation directory changeId (mergeJoin compare as bs)).1.map (Prod.map Change.bare id) ++
        (level depth relation directory changeId (mergeJoin compare as bs)).2.1.flatMap (Task.changes gix find) := by
  have htasks : (level depth relation directory changeId (mergeJoin compare as bs)).2.1.flatMap
      (Task.changes gix find) = (mergeJoin compare as bs).flatMap fun j ↦
        (nameTrees j).toList.flatMap fun trees ↦ differences gix find depth
          (joinPath directory (j.key TreeEntry.name)) (entriesOf gix find trees.1) (entriesOf gix find trees.2) := by
    rw [List.flatMap_def, tasks_level changeId fun _ _ ↦ rfl, List.flatten_eq_flatMap, List.flatMap_assoc]
    refine List.flatMap_congr fun j _ ↦ ?_
    rw [List.flatMap_map]
    rfl
  rw [htasks, bare_level, differences]
  exact (List.flatMap_append_perm _ _ _).symm

/-- The directories of a directory are itself and those of the tasks that it leaves. -/
theorem size_level (depth : ℕ) (relation : Option Relation) (directory : Bytes) (changeId : ℕ)
    (as bs : List TreeEntry) : directories gix find (depth + 1) as bs =
      ((level depth relation directory changeId (mergeJoin compare as bs)).2.1.map (Task.size gix find)).sum + 1 := by
  rw [tasks_level changeId fun _ _ ↦ rfl]
  rfl

/-- The walk of one directory, when that of what is scheduled then is known. -/
theorem exec_directory (hserves : Serves handler good find) {depth : ℕ} {as bs : List TreeEntry} (has : Walkable gix find (depth + 1) as)
    (hbs : Walkable gix find (depth + 1) bs) (relation : Option Relation) (directory : Bytes) (tasks : List Task)
    (changeId turns : ℕ) (visits : List Visit)
    (hrest : ∀ fuel (tracked : T) s, good s → (diffLoop visit gix (fuel + turns) false [] [] relation
        ⟨⟨(tasks ++ (level depth relation directory changeId (mergeJoin compare as bs)).2.1).map Task.path, directory⟩,
          (tasks ++ (level depth relation directory changeId (mergeJoin compare as bs)).2.1).map Task.info,
          (level depth relation directory changeId (mergeJoin compare as bs)).2.2, tracked⟩).exec handler s =
      (visitEach visit visits tracked).exec handler s) :
    ∃ turns', ∀ fuel (tracked : T) s, good s → (diffLoop visit gix (fuel + turns') false (as.map some) (bs.map some) relation
        ⟨⟨tasks.map Task.path, directory⟩, tasks.map Task.info, changeId, tracked⟩).exec handler s =
      (visitEach visit ((level depth relation directory changeId (mergeJoin compare as bs)).1 ++ visits)
        tracked).exec handler s := by
  have hjs : ∀ j ∈ mergeJoin compare as bs, NamedJoin j := fun j hj ↦ namedJoin_of_mem has.1 hbs.1 hj
  obtain ⟨turns', hnames⟩ := diffLoop_names visit relation gix has.1 hbs.1
  refine ⟨turns + 1 + turns', fun fuel tracked s hs ↦ ?_⟩
  have hfuel : fuel + (turns + 1 + turns') = fuel + turns + 1 + turns' := by omega
  rw [hfuel, hnames, walkNames_eq depth hjs, visitEach_append, Program.bind_assoc]
  refine Program.exec_bind_congr fun tracked' s' hvisits ↦ ?_
  have hs' : good s' := by
    have hkept := Program.exec_inv hserves.keeps
      (visitEach visit (level depth relation directory changeId (mergeJoin compare as bs)).1 tracked) hs
    rwa [hvisits] at hkept
  rw [Program.pure_bind, ← List.map_append, ← List.map_append, Nat.add_right_comm]
  exact hrest (fuel + 1) tracked' s' hs'

/-- There is a directory in each task. -/
theorem length_le_sum_size {tasks : List Task} (hready : ∀ task ∈ tasks, task.Ready gix find) :
    tasks.length ≤ (tasks.map (Task.size gix find)).sum := by
  have hone : ∀ size ∈ tasks.map (Task.size gix find), 1 ≤ size := by
    intro size hsize
    obtain ⟨task, hmem, rfl⟩ := List.mem_map.mp hsize
    obtain ⟨hlhs, -⟩ := Task.walkable (hready task hmem)
    rw [Task.size]
    cases hdepth : task.depth with
    | zero =>
      rw [hdepth] at hlhs
      exact hlhs.elim
    | succ n => exact Nat.le_add_left 1 _
  simpa using List.length_le_sum_of_one_le _ hone

/-- The relations of some visits are each of one side. -/
def SidedVisits (deleted : ℕ → Bool) (changeId : ℕ) (visits : List Visit) : Prop :=
  ∃ deleted' bound, Agree changeId deleted deleted' ∧ ∀ v ∈ visits, v.1.Sided deleted' bound

/-- The relations of a directory, and of what is visited behind it. -/
theorem sidedVisits_level {deleted : ℕ → Bool} {changeId : ℕ} (tasks : List Task) {visits : List Visit}
    (hjs : ∀ j ∈ js, Joined.Sided deleted changeId relation j)
    (htasks : ∀ task ∈ tasks, TreeInfo.Sided deleted changeId task.info)
    (hwrap : changeId + (level depth relation directory changeId js).2.1.length < 2 ^ 32)
    (hrest : ∀ deleted, (∀ task ∈ tasks ++ (level depth relation directory changeId js).2.1,
        TreeInfo.Sided deleted (level depth relation directory changeId js).2.2 task.info) →
      SidedVisits deleted (level depth relation directory changeId js).2.2 visits) :
    SidedVisits deleted changeId ((level depth relation directory changeId js).1 ++ visits) := by
  obtain ⟨deleted₁, hagree₁, hle, hvisits, hfound⟩ := sided_level depth directory hjs hwrap
  obtain ⟨deleted₂, bound, hagree₂, hlast⟩ := hrest deleted₁ fun task hmem ↦ by
    rcases List.mem_append.mp hmem with hmem | hmem
    · exact (htasks task hmem).mono hagree₁ hle
    · exact hfound task hmem
  refine ⟨deleted₂, max bound (level depth relation directory changeId js).2.2, hagree₁.trans hagree₂ hle, ?_⟩
  intro v hv
  rcases List.mem_append.mp hv with hv | hv
  · exact (hvisits v hv).mono hagree₂ (Nat.le_max_right _ _)
  · exact (hlast v hv).mono (fun _ _ ↦ rfl) (Nat.le_max_left _ _)

variable (visit) in
/-- The walk of what is scheduled visits the changes of each task, without regard to their order and their
relations, which are each of one side as long as the change IDs do not wrap. -/
theorem exec_diffLoop (hserves : Serves handler good find) {tasks : List Task} (hready : ∀ task ∈ tasks, task.Ready gix find)
    (relation : Option Relation) (path : Bytes) (changeId : ℕ) : ∃ turns visits,
      visits.map (Prod.map Change.bare id) ~ tasks.flatMap (Task.changes gix find) ∧
      (changeId + (tasks.map (Task.size gix find)).sum < 2 ^ 32 + tasks.length → ∀ deleted,
        (∀ task ∈ tasks, TreeInfo.Sided deleted changeId task.info) → SidedVisits deleted changeId visits) ∧
      ∀ fuel (tracked : T) s, good s → (diffLoop visit gix (fuel + turns) false [] [] relation
          ⟨⟨tasks.map Task.path, path⟩, tasks.map Task.info, changeId, tracked⟩).exec handler s =
        (visitEach visit visits tracked).exec handler s := by
  induction hsize : (tasks.map (Task.size gix find)).sum using Nat.strong_induction_on
    generalizing tasks relation path changeId with
  | _ size ih =>
    subst hsize
    cases tasks with
    | nil =>
      exact ⟨1, [], by simp, fun _ deleted _ ↦ ⟨deleted, 0, fun _ _ ↦ rfl, by simp⟩, fun fuel tracked s _ ↦ rfl⟩
    | cons task tasks =>
      obtain ⟨hlhs, hrhs⟩ := Task.walkable (hready task List.mem_cons_self)
      obtain ⟨n, hdepth⟩ : ∃ n, task.depth = n + 1 := by
        cases hdepth : task.depth with
        | zero =>
          rw [hdepth] at hlhs
          exact hlhs.elim
        | succ n => exact ⟨n, rfl⟩
      rw [hdepth] at hlhs hrhs
      -- The tasks that the directory leaves behind those that are waiting.
      let found := level n task.relation task.path changeId
        (mergeJoin compare (task.lhsEntries gix find) (task.rhsEntries gix find))
      have hfound : ∀ task' ∈ tasks ++ found.2.1, task'.Ready gix find := by
        intro task' hmem
        rcases List.mem_append.mp hmem with hmem | hmem
        · exact hready task' (List.mem_cons_of_mem _ hmem)
        · exact ready_of_level hlhs hrhs hmem
      have hsize : task.size gix find = (found.2.1.map (Task.size gix find)).sum + 1 := by
        rw [Task.size, hdepth]
        exact size_level n task.relation task.path changeId _ _
      have hsizes : ((tasks ++ found.2.1).map (Task.size gix find)).sum <
          ((task :: tasks).map (Task.size gix find)).sum := by
        rw [List.map_append, List.sum_append, List.map_cons, List.sum_cons, hsize]
        omega
      obtain ⟨turns, visits, hperm, hsides, hrun⟩ := ih _ hsizes hfound task.relation task.path found.2.2 rfl
      obtain ⟨turns', hdirectory⟩ := exec_directory hserves hlhs hrhs task.relation task.path tasks changeId turns visits hrun
      refine ⟨turns' + 1, found.1 ++ visits, ?_, fun hwrap deleted hsided ↦ ?_, fun fuel tracked s hs ↦ ?_⟩
      · have htask : task.changes gix find ~ found.1.map (Prod.map Change.bare id) ++
            found.2.1.flatMap (Task.changes gix find) := by
          rw [Task.changes, hdepth]
          exact perm_level n task.relation task.path changeId _ _
        rw [List.map_append, List.flatMap_cons]
        calc found.1.map (Prod.map Change.bare id) ++ visits.map (Prod.map Change.bare id)
          _ ~ found.1.map (Prod.map Change.bare id) ++
              (tasks.flatMap (Task.changes gix find) ++ found.2.1.flatMap (Task.changes gix find)) := by
            rw [← List.flatMap_append]
            exact hperm.append_left _
          _ ~ found.1.map (Prod.map Change.bare id) ++ found.2.1.flatMap (Task.changes gix find) ++
              tasks.flatMap (Task.changes gix find) := by
            rw [List.append_assoc]
            exact List.perm_append_comm.append_left _
          _ ~ task.changes gix find ++ tasks.flatMap (Task.changes gix find) := htask.symm.append_right _
      · have hlast : found.2.2 ≤ changeId + found.2.1.length := changeId_level_le _ _ _ _ _
        have hwaiting : tasks.length ≤ (tasks.map (Task.size gix find)).sum :=
          length_le_sum_size fun task' hmem ↦ hready task' (List.mem_cons_of_mem _ hmem)
        have hnew : found.2.1.length ≤ (found.2.1.map (Task.size gix find)).sum :=
          length_le_sum_size fun task' hmem ↦ hfound task' (List.mem_append_right _ hmem)
        rw [List.map_cons, List.sum_cons, List.length_cons, hsize] at hwrap
        have hlevel : changeId + found.2.1.length < 2 ^ 32 := by omega
        have hrest : found.2.2 + ((tasks ++ found.2.1).map (Task.size gix find)).sum <
            2 ^ 32 + (tasks ++ found.2.1).length := by
          rw [List.map_append, List.sum_append, List.length_append]
          omega
        exact sidedVisits_level tasks (fun j hj ↦ Task.sided_of_mem (hsided task List.mem_cons_self) hj)
          (fun task' hmem ↦ hsided task' (List.mem_cons_of_mem _ hmem)) hlevel (hsides hrest)
      · rw [List.map_cons, List.map_cons, ← Nat.add_assoc,
          exec_diffLoop_task hserves (hready task List.mem_cons_self) _ _ _ _ _ _ hs]
        exact hdirectory fuel tracked s hs

variable (visit) in
/-- The walk of two trees visits the changes between them; their relations are each of one side, as long as the
directories are too few for the change IDs to wrap. -/
theorem exec_tree (hserves : Serves handler good find) {depth : ℕ} {as bs : List TreeEntry}
    (has : Walkable gix find depth as) (hbs : Walkable gix find depth bs) {kind kind' : HashKind}
    {payload payload' : Bytes} (hlhs : treeEntries gix kind payload = some as)
    (hrhs : treeEntries gix kind' payload' = some bs) : ∃ turns visits,
      visits.map (Prod.map Change.bare id) ~ differences gix find depth [] as bs ∧
      (directories gix find depth as bs ≤ 2 ^ 32 → ∃ deleted bound, ∀ v ∈ visits, v.1.Sided deleted bound) ∧
      ∀ fuel (tracked : T) s, good s →
        (tree visit gix (fuel + turns) (kind, payload) (kind', payload') tracked).exec handler s =
          (visitEach visit visits tracked).exec handler s := by
  cases depth with
  | zero => exact has.elim
  | succ depth =>
    have hready : ∀ task ∈ (level depth none [] 0 (mergeJoin compare as bs)).2.1, task.Ready gix find :=
      fun task ↦ ready_of_level has hbs
    obtain ⟨turns, visits, hperm, hsides, hrun⟩ := exec_diffLoop visit hserves hready none [] _
    obtain ⟨turns', hdirectory⟩ := exec_directory hserves has hbs none [] [] 0 turns visits hrun
    refine ⟨turns', (level depth none [] 0 (mergeJoin compare as bs)).1 ++ visits, ?_,
      fun hfew ↦ ?_, fun fuel tracked s hs ↦ ?_⟩
    · rw [List.map_append]
      exact (hperm.append_left _).trans (perm_level depth none [] 0 as bs).symm
    · have hnames : ∀ j ∈ mergeJoin compare as bs, Joined.Sided (fun _ ↦ false) 0 none j := fun j _ ↦ sided_none j
      have hlast := changeId_level_le depth none [] 0 (mergeJoin compare as bs)
      have hnew := length_le_sum_size hready
      rw [size_level depth none [] 0 as bs] at hfew
      obtain ⟨deleted, bound, -, hsided⟩ := sidedVisits_level [] hnames (by simp) (by omega) (hsides (by omega))
      exact ⟨deleted, bound, hsided⟩
    · rw [tree, treeEntries_eq_some.mp hlhs, treeEntries_eq_some.mp hrhs]
      exact hdirectory fuel tracked s hs

end Exec

end Gitility.GixDiff
