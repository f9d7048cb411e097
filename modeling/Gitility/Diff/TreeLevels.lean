import Gitility.Base.MergeJoin
import Gitility.Diff.ProjectedLeaves
import Gitility.Diff.TreeDiff
import Gitility.Tree.Order

/-!
# One level of a tree diff

The entries of two trees in canonical order are joined by their names. The walk visits the changes of each name once
and schedules the subtrees that differ, whatever its catching up looks like.
-/

namespace Gitility

section Program

variable {Op : Type} {Ans : Op → Type} {ε α β γ : Type}

/-- A returned value is passed on. -/
theorem Program.pure_bind (a : α) (f : α → Program Op Ans ε β) : (pure a >>= f) = f a := rfl

/-- Sequences of programs are associative. -/
theorem Program.bind_assoc (p : Program Op Ans ε α) (f : α → Program Op Ans ε β) (g : β → Program Op Ans ε γ) :
    p >>= f >>= g = p >>= fun a ↦ f a >>= g := by
  induction p with
  | done outcome => cases outcome <;> rfl
  | call op k ih => exact congrArg (Program.call op) (funext ih)

end Program

namespace GixDiff

open Diff

/-! ### Names -/

/-- A name that is a part of a path of its own. -/
def Named (entry : TreeEntry) : Prop := entry.name ≠ [] ∧ 0x2f ∉ entry.name

/-- What canonical trees are sorted by. -/
def entryKey (entry : TreeEntry) : Bytes := if isTree entry.mode then entry.name ++ [0x2f] else entry.name

variable {a b entry lhs rhs : TreeEntry} {recorder : Recorder} {as bs : List TreeEntry}

private theorem entryKey_append (front back : Bytes) (mode : ℕ) (oid : Oid) :
    entryKey ⟨mode, front ++ back, oid⟩ = front ++ entryKey ⟨mode, back, oid⟩ := by
  unfold entryKey
  dsimp only
  split
  · rw [List.append_assoc]
  · rfl

/-- Names with the same key are the same, of the same sort. -/
theorem entryKey_inj (ha : Named a) (hb : Named b) (h : entryKey a = entryKey b) :
    a.name = b.name ∧ isTree a.mode = isTree b.mode := by
  have hslash : ∀ {e e' : TreeEntry}, Named e' → e.name ++ [0x2f] ≠ e'.name := fun hnamed heq ↦
    hnamed.2 (heq ▸ List.mem_append_right _ List.mem_cons_self)
  unfold entryKey at h
  split at h <;> rename_i hat <;> split at h <;> rename_i hbt
  · exact ⟨List.append_cancel_right h, hat.trans hbt.symm⟩
  · exact absurd h (hslash hb)
  · exact absurd h.symm (hslash ha)
  · exact ⟨h, by simp_all⟩

private theorem entryKey_cons (x : UInt8) (name : Bytes) (mode : ℕ) (oid : Oid) :
    entryKey ⟨mode, x :: name, oid⟩ = x :: entryKey ⟨mode, name, oid⟩ := entryKey_append [x] name mode oid

private theorem compare_cons (x y : UInt8) (xs ys : Bytes) :
    Ord.compare (x :: xs) (y :: ys) = (Ord.compare x y).then (Ord.compare xs ys) := by
  rw [List.compare_eq_compareLex, List.compareLex_cons_cons, ← List.compare_eq_compareLex]

/-- What is compared behind an empty name. -/
theorem compare_behind_nil {amode bmode : ℕ} {aoid boid : Oid} {name : Bytes} (hname : 0x2f ∉ name) :
    Ord.compare (behind ⟨amode, [], aoid⟩ 0) (behind ⟨bmode, name, boid⟩ 0) =
      Ord.compare (entryKey ⟨amode, [], aoid⟩) (entryKey ⟨bmode, name, boid⟩) := by
  cases name with
  | nil => simp only [behind, entryKey]; split <;> split <;> rfl
  | cons y name =>
    rw [entryKey_cons]
    simp only [behind, entryKey]
    split
    · have hne : Ord.compare (0x2f : UInt8) y ≠ .eq := fun h ↦
        hname (Std.compare_eq_iff_eq.mp h ▸ List.mem_cons_self)
      change Ord.compare (0x2f : UInt8) y = _
      rw [List.nil_append, compare_cons]
      cases h : Ord.compare (0x2f : UInt8) y with
      | eq => exact absurd h hne
      | lt => rfl
      | gt => rfl
    · rfl

/-- `compare` orders names by their keys. -/
theorem compare_eq (ha : 0x2f ∉ a.name) (hb : 0x2f ∉ b.name) :
    compare a b = Ord.compare (entryKey a) (entryKey b) := by
  obtain ⟨amode, aname, aoid⟩ := a
  obtain ⟨bmode, bname, boid⟩ := b
  induction aname generalizing bname with
  | nil =>
    have hcommon : min ([] : Bytes).length bname.length = 0 := Nat.zero_min _
    simp only [compare, hcommon, List.take_zero]
    exact compare_behind_nil hb
  | cons x aname ih =>
    cases bname with
    | nil =>
      have hcommon : min (x :: aname).length ([] : Bytes).length = 0 := Nat.min_zero _
      simp only [compare, hcommon, List.take_zero]
      have hbehind : Ord.compare (behind ⟨bmode, [], boid⟩ 0) (behind ⟨amode, x :: aname, aoid⟩ 0) =
          Ord.compare (entryKey ⟨bmode, [], boid⟩) (entryKey ⟨amode, x :: aname, aoid⟩) := compare_behind_nil ha
      have hswap := congrArg Ordering.swap hbehind
      rwa [← Std.OrientedCmp.eq_swap, ← Std.OrientedCmp.eq_swap] at hswap
    | cons y bname =>
      have hrest := ih (fun h ↦ ha (List.mem_cons_of_mem _ h)) bname fun h ↦ hb (List.mem_cons_of_mem _ h)
      have hcommon : min (x :: aname).length (y :: bname).length = min aname.length bname.length + 1 :=
        Nat.succ_min_succ _ _
      rw [entryKey_cons, entryKey_cons, compare_cons, ← hrest]
      simp only [compare, hcommon, List.take_succ_cons, compare_cons]
      rw [Ordering.then_assoc]
      rfl

/-- Popping a name off a path leaves its directory. -/
theorem path_popElement {directory : Bytes} (hentry : Named entry)
    (h : recorder.path = joinPath directory entry.name) : recorder.popElement.path = directory := by
  have hname : ∀ byte ∈ entry.name, decide (byte = 0x2f) = false := fun byte hmem ↦
    decide_eq_false fun heq ↦ hentry.2 (heq ▸ hmem)
  by_cases hdirectory : directory = []
  · have hnone : Bytes.rposition (· = 0x2f) recorder.path = none := by
      rw [h, joinPath, if_pos hdirectory, Bytes.rposition, Option.map_eq_none_iff, List.findIdx?_eq_none_iff]
      exact fun byte hmem ↦ hname byte (List.mem_reverse.mp hmem)
    rw [Recorder.popElement, hnone, hdirectory]
  · rw [joinPath, if_neg hdirectory] at h
    have hsome : Bytes.rposition (· = 0x2f) recorder.path = some directory.length :=
      Bytes.rposition_eq_some.mpr ⟨directory, 0x2f, entry.name, h, rfl, by decide, hname⟩
    rw [Recorder.popElement, hsome, h]
    exact List.take_left

/-! ### The changes of one name -/

/-- What the walk visits at one name, the trees that it schedules there, and the last change ID. -/
structure Visited where
  changes : List Change
  tree : Option TreeInfo
  changeId : ℕ

/-- The relation of a change, and the last change ID. -/
def relatedTo (changeId : ℕ) (relationToPropagate : Option Relation) (starts : Bool) : Option Relation × ℕ :=
  match relationToPropagate with
  | some relation => (some relation, changeId)
  | none => if starts then (some (.parent (nextChangeId changeId)), nextChangeId changeId) else (none, changeId)

/-- What the walk visits where the trees have these entries. -/
def visitedAt (relation : Option Relation) (changeId : ℕ) : Joined TreeEntry → Visited
  | .left entry =>
    let related := relatedTo changeId relation (isTree entry.mode)
    ⟨[.deletion entry.mode entry.oid related.1],
      if isTree entry.mode then some (some entry.oid, none, toChild related.1) else none, related.2⟩
  | .right entry =>
    let related := relatedTo changeId relation (isTree entry.mode)
    ⟨[.addition entry.mode entry.oid related.1],
      if isTree entry.mode then some (none, some entry.oid, toChild related.1) else none, related.2⟩
  | .both lhs rhs =>
    if isTree lhs.mode then
      if lhs.oid = rhs.oid then ⟨[], none, changeId⟩
      else ⟨[.modification lhs.mode lhs.oid rhs.mode rhs.oid], some (some lhs.oid, some rhs.oid, relation), changeId⟩
    else if lhs.oid ≠ rhs.oid ∨ lhs.mode ≠ rhs.mode then
      ⟨[.modification lhs.mode lhs.oid rhs.mode rhs.oid], none, changeId⟩
    else ⟨[], none, changeId⟩

section Walks

variable {T : Type} (visit : Change → Bytes → T → Walking T) (relation : Option Relation)

/-- Visits of changes at one path. -/
def visitAll (path : Bytes) : List Change → T → Walking T
  | [], tracked => pure tracked
  | change :: changes, tracked => do
    let tracked ← visit change path tracked
    visitAll path changes tracked

/-- The walk behind one name of the current directory, whose path it leaves. -/
def walkName (walk : Walk T) (j : Joined TreeEntry) : Walking (Walk T) := do
  let found := visitedAt relation walk.changeId j
  let path := joinPath walk.path (j.key TreeEntry.name)
  let tracked ← visitAll visit path found.changes walk.tracked
  return {
    pathDeque := walk.pathDeque ++ found.tree.toList.map fun _ ↦ path
    path
    trees := walk.trees ++ found.tree.toList
    changeId := found.changeId
    tracked }

variable {visit relation} {walk : Walk T}

private theorem relate_eq (walk : Walk T) (starts : Bool) : walk.relate relation starts =
    ((relatedTo walk.changeId relation starts).1,
      { walk with changeId := (relatedTo walk.changeId relation starts).2 }) := by
  cases relation with
  | some relation => rfl
  | none => cases starts <;> rfl

private theorem pushElement_eq (hentry : Named entry) (recorder : Recorder) :
    recorder.pushElement entry.name = { recorder with path := joinPath recorder.path entry.name } :=
  if_neg hentry.1

/-- Dropping the last part of a path gives its directory. -/
theorem popElement_eq (hentry : Named entry) (directory : Bytes) (pathDeque : List Bytes) :
    (⟨pathDeque, joinPath directory entry.name⟩ : Recorder).popElement = ⟨pathDeque, directory⟩ :=
  congrArg (Recorder.mk pathDeque) (path_popElement hentry rfl)

private theorem pushBack_eq (hentry : Named entry) (directory : Bytes) (pathDeque : List Bytes) :
    (⟨pathDeque, directory⟩ : Recorder).pushBack entry.name =
      ⟨pathDeque ++ [joinPath directory entry.name], joinPath directory entry.name⟩ := by
  rw [Recorder.pushBack, pushElement_eq hentry]

private theorem delete_eq (hentry : Named entry) :
    deleteEntryScheduleRecursion visit entry relation walk = walkName visit relation walk (.left entry) := by
  simp only [deleteEntryScheduleRecursion, walkName, Walk.pushPath, pushElement_eq hentry, relate_eq,
    Walk.visited, visitedAt, visitAll, Program.bind_assoc, Program.pure_bind, Joined.key]
  refine congrArg _ (funext fun tracked ↦ ?_)
  cases isTree entry.mode with
  | true => simp [Walk.popPath, popElement_eq hentry, Walk.pushBackPath, pushBack_eq hentry, Walk.enqueue]
  | false => simp

private theorem add_eq (hentry : Named entry) :
    addEntryScheduleRecursion visit entry relation walk = walkName visit relation walk (.right entry) := by
  simp only [addEntryScheduleRecursion, walkName, Walk.pushPath, pushElement_eq hentry, relate_eq,
    Walk.visited, visitedAt, visitAll, Program.bind_assoc, Program.pure_bind, Joined.key]
  refine congrArg _ (funext fun tracked ↦ ?_)
  cases isTree entry.mode with
  | true => simp [Walk.popPath, popElement_eq hentry, Walk.pushBackPath, pushBack_eq hentry, Walk.enqueue]
  | false => simp

/-- Entries of the same name are of the same sort. -/
theorem handle_eq (hentry : Named lhs) (hsort : isTree lhs.mode = isTree rhs.mode) :
    handleLhsAndRhsWithEqualFilenames visit lhs rhs relation walk =
      walkName visit relation walk (.both lhs rhs) := by
  unfold handleLhsAndRhsWithEqualFilenames walkName
  rw [← hsort]
  cases htree : isTree lhs.mode with
  | true =>
    by_cases hoid : lhs.oid = rhs.oid
    · simp [visitedAt, htree, hoid, visitAll, Walk.pushPath, pushElement_eq hentry, Joined.key, Program.pure_bind]
    · simp [visitedAt, htree, hoid, visitAll, Walk.pushBackPath, pushBack_eq hentry, Joined.key, Walk.visited,
        Walk.enqueue, Program.bind_assoc, Program.pure_bind]
  | false =>
    by_cases hdiff : lhs.oid ≠ rhs.oid ∨ lhs.mode ≠ rhs.mode
    · simp [visitedAt, htree, hdiff, visitAll, Walk.pushPath, pushElement_eq hentry, Joined.key, Walk.visited,
        Program.bind_assoc, Program.pure_bind]
    · simp [visitedAt, htree, hdiff, visitAll, Walk.pushPath, pushElement_eq hentry, Joined.key,
        Program.pure_bind]

/-! ### The changes of one directory -/

variable (visit relation) in
/-- The walk behind names of the current directory, which it returns to behind each. -/
def walkNames : List (Joined TreeEntry) → Walk T → Walking (Walk T)
  | [], walk => pure walk
  | j :: js, walk => do
    let walk ← walkName visit relation walk j
    walkNames js walk.popPath

private theorem walkNames_append (js js' : List (Joined TreeEntry)) (walk : Walk T) :
    walkNames visit relation (js ++ js') walk =
      walkNames visit relation js walk >>= walkNames visit relation js' := by
  induction js generalizing walk with
  | nil => rfl
  | cons j js ih => simp only [List.cons_append, walkNames, Program.bind_assoc, ih]

/-- Entries that compare as equal are of the same sort. -/
theorem sort_of_compare (hl : Named lhs) (hr : Named rhs) (h : compare lhs rhs = .eq) :
    isTree lhs.mode = isTree rhs.mode := by
  rw [compare_eq hl.2 hr.2] at h
  exact (entryKey_inj hl hr (Std.compare_eq_iff_eq.mp h)).2

variable (visit relation) in
/-- Catching up on the left goes through the first names of the join, up to that of the right entry. -/
theorem catchupLhs_spec (hrhs : Named rhs) (has : ∀ e ∈ as, Named e) (bs : List TreeEntry) :
    ∃ js front rest, as = front ++ rest ∧ mergeJoin compare as (rhs :: bs) = js ++ mergeJoin compare rest bs ∧
      ∀ walk : Walk T, (catchupLhs visit rhs relation (as.map some) walk >>= fun r ↦ pure (r.1, r.2.popPath)) =
        (walkNames visit relation js walk.popPath >>= fun walk ↦ pure (rest.map some, walk)) := by
  induction as with
  | nil =>
    refine ⟨[.right rhs], [], [], rfl, by simp [mergeJoin], fun walk ↦ ?_⟩
    simp only [List.map_nil, catchupLhs, add_eq hrhs, walkNames, Program.bind_assoc, Program.pure_bind]
  | cons lhs as ih =>
    have hlhs := has lhs List.mem_cons_self
    obtain ⟨js, front, rest, hsplit, hjoin, hrun⟩ := ih fun e he ↦ has e (List.mem_cons_of_mem _ he)
    cases hcmp : compare lhs rhs with
    | eq =>
      refine ⟨[.both lhs rhs], [lhs], as, rfl, by rw [mergeJoin, hcmp]; rfl, fun walk ↦ ?_⟩
      simp only [List.map_cons, catchupLhs, hcmp, handle_eq hlhs (sort_of_compare hlhs hrhs hcmp), walkNames,
        Program.bind_assoc, Program.pure_bind]
    | lt =>
      refine ⟨.left lhs :: js, lhs :: front, rest, by rw [hsplit]; rfl, by rw [mergeJoin, hcmp, hjoin]; rfl,
        fun walk ↦ ?_⟩
      simp only [List.map_cons, catchupLhs, hcmp, delete_eq hlhs, walkNames, Program.bind_assoc, hrun]
    | gt =>
      refine ⟨[.right rhs], [], lhs :: as, rfl, by rw [mergeJoin, hcmp]; rfl, fun walk ↦ ?_⟩
      simp only [List.map_cons, catchupLhs, hcmp, add_eq hrhs, walkNames, Program.bind_assoc, Program.pure_bind]

variable (visit relation) in
/-- Catching up on the right goes through the first names of the join, up to that of the left entry. -/
theorem catchupRhs_spec (hlhs : Named lhs) (hbs : ∀ e ∈ bs, Named e) (as : List TreeEntry) :
    ∃ js front rest, bs = front ++ rest ∧ mergeJoin compare (lhs :: as) bs = js ++ mergeJoin compare as rest ∧
      ∀ walk : Walk T, (catchupRhs visit lhs relation (bs.map some) walk >>= fun r ↦ pure (r.1, r.2.popPath)) =
        (walkNames visit relation js walk.popPath >>= fun walk ↦ pure (rest.map some, walk)) := by
  induction bs with
  | nil =>
    refine ⟨[.left lhs], [], [], rfl, by cases as <;> simp [mergeJoin], fun walk ↦ ?_⟩
    simp only [List.map_nil, catchupRhs, delete_eq hlhs, walkNames, Program.bind_assoc, Program.pure_bind]
  | cons rhs bs ih =>
    have hrhs := hbs rhs List.mem_cons_self
    obtain ⟨js, front, rest, hsplit, hjoin, hrun⟩ := ih fun e he ↦ hbs e (List.mem_cons_of_mem _ he)
    cases hcmp : compare lhs rhs with
    | eq =>
      refine ⟨[.both lhs rhs], [rhs], bs, rfl, by rw [mergeJoin, hcmp]; rfl, fun walk ↦ ?_⟩
      simp only [List.map_cons, catchupRhs, hcmp, handle_eq hlhs (sort_of_compare hlhs hrhs hcmp), walkNames,
        Program.bind_assoc, Program.pure_bind]
    | gt =>
      refine ⟨.right rhs :: js, rhs :: front, rest, by rw [hsplit]; rfl, by rw [mergeJoin, hcmp, hjoin]; rfl,
        fun walk ↦ ?_⟩
      simp only [List.map_cons, catchupRhs, hcmp, add_eq hrhs, walkNames, Program.bind_assoc, hrun]
    | lt =>
      refine ⟨[.left lhs], [], rhs :: bs, rfl, by rw [mergeJoin, hcmp]; rfl, fun walk ↦ ?_⟩
      simp only [List.map_cons, catchupRhs, hcmp, delete_eq hlhs, walkNames, Program.bind_assoc, Program.pure_bind]

variable {gix : Gix}

/-- A turn of the loop that pops the path first begins in the directory. -/
theorem diffLoop_popPath {fuel : ℕ} (hfuel : 0 < fuel) (lhsEntries rhsEntries : List (Option TreeEntry))
    (walk : Walk T) : diffLoop visit gix fuel true lhsEntries rhsEntries relation walk =
      diffLoop visit gix fuel false lhsEntries rhsEntries relation walk.popPath := by
  obtain ⟨n, rfl⟩ := Nat.exists_eq_add_one.mpr hfuel
  rfl

private theorem mergeJoin_nil (as : List TreeEntry) : mergeJoin compare as [] = as.map .left := by
  cases as <;> simp [mergeJoin]

variable (visit gix relation) in
/-- The turns of the loop in one directory go through the names of both trees. -/
theorem diffLoop_names (has : ∀ e ∈ as, Named e) (hbs : ∀ e ∈ bs, Named e) : ∃ turns, ∀ fuel (walk : Walk T),
    diffLoop visit gix (fuel + 1 + turns) false (as.map some) (bs.map some) relation walk =
      walkNames visit relation (mergeJoin compare as bs) walk >>= fun walk ↦
        diffLoop visit gix (fuel + 1) false [] [] relation walk := by
  induction hsize : as.length + bs.length using Nat.strong_induction_on generalizing as bs with
  | _ size ih =>
    subst hsize
    have hpos : ∀ fuel turns, 0 < fuel + 1 + turns := fun fuel turns ↦ by omega
    match as, bs with
    | [], [] => exact ⟨0, fun fuel walk ↦ by rw [mergeJoin]; rfl⟩
    | lhs :: as, [] =>
      have hlhs := has lhs List.mem_cons_self
      obtain ⟨turns, hrun⟩ := ih _ (by simp) (fun e he ↦ has e (List.mem_cons_of_mem _ he)) hbs rfl
      refine ⟨turns + 1, fun fuel walk ↦ ?_⟩
      have hturn : diffLoop visit gix (fuel + 1 + (turns + 1)) false ((lhs :: as).map some) ([].map some) relation
          walk = deleteEntryScheduleRecursion visit lhs relation walk >>= fun walk ↦
            diffLoop visit gix (fuel + 1 + turns) true (as.map some) ([].map some) relation walk := rfl
      rw [mergeJoin_nil] at hrun ⊢
      rw [hturn, delete_eq hlhs]
      simp only [diffLoop_popPath (hpos fuel turns), hrun, List.map_cons, walkNames, Program.bind_assoc]
    | [], rhs :: bs =>
      have hrhs := hbs rhs List.mem_cons_self
      obtain ⟨turns, hrun⟩ := ih _ (by simp) has (fun e he ↦ hbs e (List.mem_cons_of_mem _ he)) rfl
      refine ⟨turns + 1, fun fuel walk ↦ ?_⟩
      have hturn : diffLoop visit gix (fuel + 1 + (turns + 1)) false ([].map some) ((rhs :: bs).map some) relation
          walk = addEntryScheduleRecursion visit rhs relation walk >>= fun walk ↦
            diffLoop visit gix (fuel + 1 + turns) true ([].map some) (bs.map some) relation walk := rfl
      rw [mergeJoin] at hrun ⊢
      rw [hturn, add_eq hrhs]
      simp only [diffLoop_popPath (hpos fuel turns), hrun, List.map_cons, walkNames, Program.bind_assoc]
    | lhs :: as, rhs :: bs =>
      have hlhs := has lhs List.mem_cons_self
      have hrhs := hbs rhs List.mem_cons_self
      have has' : ∀ e ∈ as, Named e := fun e he ↦ has e (List.mem_cons_of_mem _ he)
      have hbs' : ∀ e ∈ bs, Named e := fun e he ↦ hbs e (List.mem_cons_of_mem _ he)
      rw [mergeJoin]
      cases hcmp : compare lhs rhs with
      | eq =>
        obtain ⟨turns, hrun⟩ := ih _ (by simp; omega) has' hbs' rfl
        refine ⟨turns + 1, fun fuel walk ↦ ?_⟩
        have hturn : diffLoop visit gix (fuel + 1 + (turns + 1)) false ((lhs :: as).map some)
            ((rhs :: bs).map some) relation walk =
              handleLhsAndRhsWithEqualFilenames visit lhs rhs relation walk >>= fun walk ↦
                diffLoop visit gix (fuel + 1 + turns) true (as.map some) (bs.map some) relation walk := by
          rw [← Nat.add_assoc, List.map_cons, List.map_cons, diffLoop]
          simp only [hcmp]
          rfl
        simp only [hturn, handle_eq hlhs (sort_of_compare hlhs hrhs hcmp), diffLoop_popPath (hpos fuel turns),
          hrun, walkNames, Program.bind_assoc]
      | lt =>
        obtain ⟨js, front, rest, rfl, hjoin, hcatch⟩ := catchupLhs_spec visit relation hrhs has' bs
        obtain ⟨turns, hrun⟩ := ih (rest.length + bs.length) (by simp; omega)
          (fun e he ↦ has' e (List.mem_append_right _ he)) hbs' rfl
        refine ⟨turns + 1, fun fuel walk ↦ ?_⟩
        have hturn : diffLoop visit gix (fuel + 1 + (turns + 1)) false ((lhs :: (front ++ rest)).map some)
            ((rhs :: bs).map some) relation walk =
              deleteEntryScheduleRecursion visit lhs relation walk >>= fun walk ↦
                (catchupLhs visit rhs relation ((front ++ rest).map some) walk >>=
                  fun r ↦ pure (r.1, r.2.popPath)) >>= fun r ↦
                diffLoop visit gix (fuel + 1 + turns) false r.1 (bs.map some) relation r.2 := by
          rw [← Nat.add_assoc, List.map_cons, List.map_cons, diffLoop]
          simp only [hcmp, catchupLhsWithRhs, Program.bind_assoc, Program.pure_bind,
            diffLoop_popPath (hpos fuel turns)]
          rfl
        simp only [hturn, delete_eq hlhs, hcatch, Program.bind_assoc, Program.pure_bind, hrun, hjoin, walkNames,
          walkNames_append]
      | gt =>
        obtain ⟨js, front, rest, rfl, hjoin, hcatch⟩ := catchupRhs_spec visit relation hlhs hbs' as
        obtain ⟨turns, hrun⟩ := ih (as.length + rest.length) (by simp; omega) has'
          (fun e he ↦ hbs' e (List.mem_append_right _ he)) rfl
        refine ⟨turns + 1, fun fuel walk ↦ ?_⟩
        have hturn : diffLoop visit gix (fuel + 1 + (turns + 1)) false ((lhs :: as).map some)
            ((rhs :: (front ++ rest)).map some) relation walk =
              addEntryScheduleRecursion visit rhs relation walk >>= fun walk ↦
                (catchupRhs visit lhs relation ((front ++ rest).map some) walk >>=
                  fun r ↦ pure (r.1, r.2.popPath)) >>= fun r ↦
                diffLoop visit gix (fuel + 1 + turns) false (as.map some) r.1 relation r.2 := by
          rw [← Nat.add_assoc, List.map_cons, List.map_cons, diffLoop]
          simp only [hcmp, catchupRhsWithLhs, Program.bind_assoc, Program.pure_bind,
            diffLoop_popPath (hpos fuel turns)]
          rfl
        simp only [hturn, add_eq hrhs, hcatch, Program.bind_assoc, Program.pure_bind, hrun, hjoin, walkNames,
          walkNames_append]

end Walks

end GixDiff
end Gitility
