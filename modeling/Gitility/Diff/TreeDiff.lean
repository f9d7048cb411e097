import Gitility.Diff.StructuredDiff

/-!
# The tree diff of gix-diff

`crates/gitility-core/vendor/gix-diff/src/tree/function.rs` with the `Recorder` that follows its paths, and
`tree_with_rewrites` without rename tracking. The walk goes through both trees breadth first. What it does with a
change is a parameter, and `T` is what that keeps.
-/

namespace Gitility.GixDiff

open Diff

/-- A part of `gix_diff::tree_with_rewrites`. -/
abbrev Walking (α : Type) := Program WalkOp WalkOp.Answer TreeDiffError α

/-- `tree::visit::Relation`. -/
inductive Relation where
  | parent (id : ℕ)
  | childOfParent (id : ℕ)
  deriving DecidableEq

/-- `tree::visit::Change`. -/
inductive Change where
  | addition (entryMode : ℕ) (oid : Oid) (relation : Option Relation)
  | deletion (entryMode : ℕ) (oid : Oid) (relation : Option Relation)
  | modification (previousEntryMode : ℕ) (previousOid : Oid) (entryMode : ℕ) (oid : Oid)
  deriving DecidableEq

/-! ### Paths -/

/-- `tree::Recorder` with `Location::Path`. -/
structure Recorder where
  pathDeque : List Bytes := []
  path : Bytes := []

namespace Recorder

variable (recorder : Recorder)

/-- `Recorder::pop_element`. -/
def popElement : Recorder :=
  { recorder with
    path := match Bytes.rposition (· = 0x2f) recorder.path with
      | some position => recorder.path.take position
      | none => [] }

/-- `Recorder::push_element`. -/
def pushElement (name : Bytes) : Recorder :=
  if name = [] then recorder else { recorder with path := joinPath recorder.path name }

/-- `Visit::push_back_tracked_path_component`. -/
def pushBack (name : Bytes) : Recorder :=
  let recorder := recorder.pushElement name
  { recorder with pathDeque := recorder.pathDeque ++ [recorder.path] }

/-- `Visit::pop_front_tracked_path_and_set_current`. -/
def popFront : Option Recorder :=
  match recorder.pathDeque with
  | [] => none
  | path :: pathDeque => some { pathDeque, path }

end Recorder

/-! ### The walk -/

/-- `TreeInfoTuple`. -/
abbrev TreeInfo := Option Oid × Option Oid × Option Relation

/-- `tree::State` and the delegate, which follows the paths. -/
structure Walk (T : Type) extends Recorder where
  trees : List TreeInfo := []
  changeId : ℕ := 0
  tracked : T

/-- `*change_id += 1` of a `ChangeId`, which is a `u32`. -/
def nextChangeId (changeId : ℕ) : ℕ := (changeId + 1) % 2 ^ 32

variable {T : Type} (visit : Change → Bytes → T → Walking T)

namespace Walk

/-- `pop_path_component`. -/
def popPath (walk : Walk T) : Walk T := { walk with toRecorder := walk.popElement }

/-- `push_path_component`. -/
def pushPath (walk : Walk T) (name : Bytes) : Walk T := { walk with toRecorder := walk.pushElement name }

/-- `push_back_tracked_path_component`. -/
def pushBackPath (walk : Walk T) (name : Bytes) : Walk T := { walk with toRecorder := walk.pushBack name }

/-- `Visit::visit`. -/
def visited (walk : Walk T) (change : Change) : Walking (Walk T) := do
  let tracked ← visit change walk.path walk.tracked
  return { walk with tracked }

/-- The relation of a change that propagates this one, or else starts one if it is to. -/
def relate (walk : Walk T) (relationToPropagate : Option Relation) (starts : Bool) :
    Option Relation × Walk T :=
  match relationToPropagate with
  | some relation => (some relation, walk)
  | none =>
    if starts then
      (some (.parent (nextChangeId walk.changeId)), { walk with changeId := nextChangeId walk.changeId })
    else (none, walk)

/-- `queue.push_back`. -/
def enqueue (walk : Walk T) (tree : TreeInfo) : Walk T := { walk with trees := walk.trees ++ [tree] }

end Walk

/-- `to_child`. -/
def toChild : Option Relation → Option Relation
  | none => none
  | some (.parent id) | some (.childOfParent id) => some (.childOfParent id)

/-- What follows the common part of two names. -/
def behind (entry : TreeEntry) (common : ℕ) : Option UInt8 :=
  entry.name[common]?.or (if isTree entry.mode then some 0x2f else none)

/-- `compare`. -/
def compare (a b : TreeEntry) : Ordering :=
  let common := min a.name.length b.name.length
  (Ord.compare (a.name.take common) (b.name.take common)).then (Ord.compare (behind a common) (behind b common))

/-- `delete_entry_schedule_recursion`. -/
def deleteEntryScheduleRecursion (entry : TreeEntry) (relationToPropagate : Option Relation)
    (walk : Walk T) : Walking (Walk T) := do
  let walk := walk.pushPath entry.name
  let (relation, walk) := walk.relate relationToPropagate (isTree entry.mode)
  let walk ← walk.visited visit (.deletion entry.mode entry.oid relation)
  if isTree entry.mode then
    return (walk.popPath.pushBackPath entry.name).enqueue (some entry.oid, none, toChild relation)
  else return walk

/-- `add_entry_schedule_recursion`. -/
def addEntryScheduleRecursion (entry : TreeEntry) (relationToPropagate : Option Relation)
    (walk : Walk T) : Walking (Walk T) := do
  let walk := walk.pushPath entry.name
  let (relation, walk) := walk.relate relationToPropagate (isTree entry.mode)
  let walk ← walk.visited visit (.addition entry.mode entry.oid relation)
  if isTree entry.mode then
    return (walk.popPath.pushBackPath entry.name).enqueue (none, some entry.oid, toChild relation)
  else return walk

/-- `handle_lhs_and_rhs_with_equal_filenames`. -/
def handleLhsAndRhsWithEqualFilenames (lhs rhs : TreeEntry) (relationToPropagate : Option Relation)
    (walk : Walk T) : Walking (Walk T) :=
  match isTree lhs.mode, isTree rhs.mode with
  | true, true =>
    if lhs.oid = rhs.oid then return walk.pushPath lhs.name
    else do
      let walk ← (walk.pushBackPath lhs.name).visited visit (.modification lhs.mode lhs.oid rhs.mode rhs.oid)
      return walk.enqueue (some lhs.oid, some rhs.oid, relationToPropagate)
  | false, true => do
    let walk ← (walk.pushBackPath lhs.name).visited visit (.deletion lhs.mode lhs.oid none)
    let (relation, walk) := walk.relate relationToPropagate true
    let walk ← walk.visited visit (.addition rhs.mode rhs.oid relation)
    return walk.enqueue (none, some rhs.oid, toChild relation)
  | true, false => do
    let (relation, walk) := (walk.pushBackPath lhs.name).relate relationToPropagate true
    let walk ← walk.visited visit (.deletion lhs.mode lhs.oid relation)
    let walk ← walk.visited visit (.addition rhs.mode rhs.oid none)
    return walk.enqueue (some lhs.oid, none, toChild relation)
  | false, false =>
    let walk := walk.pushPath lhs.name
    if lhs.oid ≠ rhs.oid ∨ lhs.mode ≠ rhs.mode then
      walk.visited visit (.modification lhs.mode lhs.oid rhs.mode rhs.oid)
    else return walk

/-- The loop of `catchup_lhs_with_rhs`, which returns the entries that are left on its side. -/
def catchupLhs (rhs : TreeEntry) (relation : Option Relation) :
    List (Option TreeEntry) → Walk T → Walking (List (Option TreeEntry) × Walk T)
  | [], walk => do
    let walk ← addEntryScheduleRecursion visit rhs relation walk.popPath
    return ([], walk)
  | none :: _, _ => Program.fail .other
  | some lhs :: lhsEntries, walk =>
    match compare lhs rhs with
    | .eq => do
      let walk ← handleLhsAndRhsWithEqualFilenames visit lhs rhs relation walk.popPath
      return (lhsEntries, walk)
    | .lt => do
      let walk ← deleteEntryScheduleRecursion visit lhs relation walk.popPath
      catchupLhs rhs relation lhsEntries walk
    | .gt => do
      let walk ← addEntryScheduleRecursion visit rhs relation walk.popPath
      return (some lhs :: lhsEntries, walk)

/-- `catchup_lhs_with_rhs`. -/
def catchupLhsWithRhs (lhsEntries : List (Option TreeEntry)) (lhs rhs : TreeEntry) (relation : Option Relation)
    (walk : Walk T) : Walking (List (Option TreeEntry) × Walk T) := do
  let walk ← deleteEntryScheduleRecursion visit lhs relation walk
  catchupLhs visit rhs relation lhsEntries walk

/-- The loop of `catchup_rhs_with_lhs`. -/
def catchupRhs (lhs : TreeEntry) (relation : Option Relation) :
    List (Option TreeEntry) → Walk T → Walking (List (Option TreeEntry) × Walk T)
  | [], walk => do
    let walk ← deleteEntryScheduleRecursion visit lhs relation walk.popPath
    return ([], walk)
  | none :: _, _ => Program.fail .other
  | some rhs :: rhsEntries, walk =>
    match compare lhs rhs with
    | .eq => do
      let walk ← handleLhsAndRhsWithEqualFilenames visit lhs rhs relation walk.popPath
      return (rhsEntries, walk)
    | .gt => do
      let walk ← addEntryScheduleRecursion visit rhs relation walk.popPath
      catchupRhs lhs relation rhsEntries walk
    | .lt => do
      let walk ← deleteEntryScheduleRecursion visit lhs relation walk.popPath
      return (some rhs :: rhsEntries, walk)

/-- `catchup_rhs_with_lhs`. -/
def catchupRhsWithLhs (rhsEntries : List (Option TreeEntry)) (lhs rhs : TreeEntry) (relation : Option Relation)
    (walk : Walk T) : Walking (List (Option TreeEntry) × Walk T) := do
  let walk ← addEntryScheduleRecursion visit rhs relation walk
  catchupRhs visit lhs relation rhsEntries walk

/-- `FindExt::find_tree_iter`. -/
def findTreeIter (gix : Gix) (oid : Oid) : Walking (List (Option TreeEntry)) := do
  match ← Program.request (WalkOp.find oid) with
  | some (.tree, payload) => return (gix.treeRefIter oid.kind payload).map Prod.snd
  | _ => Program.fail .other

/-- The loop of `tree`; the relation is that of the trees it is in. -/
def diffLoop (gix : Gix) : ℕ → Bool → List (Option TreeEntry) → List (Option TreeEntry) → Option Relation →
    Walk T → Walking T
  | 0, _, _, _, _, _ => Program.diverge
  | fuel + 1, popPath, lhsEntries, rhsEntries, relation, walk =>
    let walk := if popPath then walk.popPath else walk
    match lhsEntries, rhsEntries with
    | [], [] =>
      match walk.trees with
      | [] => return walk.tracked
      | (lhs, rhs, relationToPropagate) :: trees =>
        match walk.popFront with
        | none => Program.diverge
        | some recorder => do
          let walk := { walk with toRecorder := recorder, trees }
          match lhs, rhs with
          | none, some rhs => do
            let rhsEntries ← findTreeIter gix rhs
            diffLoop gix fuel false [] rhsEntries relationToPropagate walk
          | some lhs, some rhs => do
            let lhsEntries ← findTreeIter gix lhs
            let rhsEntries ← findTreeIter gix rhs
            diffLoop gix fuel false lhsEntries rhsEntries relationToPropagate walk
          | some lhs, none => do
            let lhsEntries ← findTreeIter gix lhs
            diffLoop gix fuel false lhsEntries [] relationToPropagate walk
          | none, none => Program.diverge
    | some lhs :: lhsEntries, some rhs :: rhsEntries =>
      match compare lhs rhs with
      | .eq => do
        let walk ← handleLhsAndRhsWithEqualFilenames visit lhs rhs relation walk
        diffLoop gix fuel true lhsEntries rhsEntries relation walk
      | .lt => do
        let (lhsEntries, walk) ← catchupLhsWithRhs visit lhsEntries lhs rhs relation walk
        diffLoop gix fuel true lhsEntries rhsEntries relation walk
      | .gt => do
        let (rhsEntries, walk) ← catchupRhsWithLhs visit rhsEntries lhs rhs relation walk
        diffLoop gix fuel true lhsEntries rhsEntries relation walk
    | some lhs :: lhsEntries, [] => do
      let walk ← deleteEntryScheduleRecursion visit lhs relation walk
      diffLoop gix fuel true lhsEntries [] relation walk
    | [], some rhs :: rhsEntries => do
      let walk ← addEntryScheduleRecursion visit rhs relation walk
      diffLoop gix fuel true [] rhsEntries relation walk
    | none :: _, _ | _, none :: _ => Program.fail .other

/-- `gix_diff::tree` from two tree payloads on; `fuel` bounds its loop. -/
def tree (gix : Gix) (fuel : ℕ) (lhs rhs : HashKind × Bytes) (tracked : T) : Walking T :=
  diffLoop visit gix fuel false ((gix.treeRefIter lhs.1 lhs.2).map Prod.snd)
    ((gix.treeRefIter rhs.1 rhs.2).map Prod.snd) none { tracked }

/-! ### Changes without rename tracking -/

/-- The `ChangeRef` of `Delegate::emit_change`. -/
def Change.toRef (location : Bytes) : Change → ChangeRef
  | addition entryMode oid _ => .addition location entryMode oid
  | deletion entryMode oid _ => .deletion location entryMode oid
  | modification previousEntryMode previousOid entryMode oid =>
    .modification location previousEntryMode previousOid entryMode oid

/-- `Delegate::visit` without a tracker. A change that the callback breaks at cancels the walk. -/
def emit (change : Change) (location : Bytes) (_ : Unit) : Walking Unit := do
  let goOn : Bool ← Program.request (WalkOp.change (change.toRef location))
  if goOn then return () else Program.fail .other

/-- `tree_with_rewrites` with `rewrites: None`. -/
def treeWithoutRewrites (gix : Gix) (fuel : ℕ) (lhs rhs : HashKind × Bytes) : Diff.TreeWalk :=
  tree emit gix fuel lhs rhs ()

end Gitility.GixDiff
