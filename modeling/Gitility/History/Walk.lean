import Mathlib.Data.Finset.Card
import Mathlib.Data.List.AList
import Mathlib.Data.List.Sort
import Gitility.Base.Traversal
import Gitility.History.Commit

/-!
# Commit walks

The walks of `crates/gitility-core/src/log.rs`: a time-priority walk that reads a commit when
it first sees it, and an ordered walk that reads the whole reachable graph first and then emits
a commit once all its children are out. A `HashMap` is an association list, a `HashSet` a
finite set and a `BinaryHeap` a list from which the greatest element is taken.
-/

namespace Gitility

/-- `log.rs` `WalkedCommit`. -/
structure WalkedCommit where
  id : Oid
  time : ℤ
  deriving DecidableEq

/-- The order of `log.rs` `TimedCommit` and `TimedOid`: later times are greater, and of two
equal times the smaller sequence number is greater. -/
def timedLt (time : ℤ) (sequence : ℕ) (otherTime : ℤ) (otherSequence : ℕ) : Bool :=
  time < otherTime ∨ (time = otherTime ∧ otherSequence < sequence)

/-- `log.rs` `within_time_bounds`. -/
def withinTimeBounds (time : ℤ) (opts : WalkOptions) : Bool :=
  opts.since.all (· ≤ time) ∧ opts.untilTime.all (time ≤ ·)

/-! ### Chronological order -/

/-- `log.rs` `TimedCommit`. -/
structure TimedCommit where
  id : Oid
  commitMeta : CommitMeta
  sequence : ℕ

/-- `Ord for TimedCommit`. -/
def TimedCommit.lt (a b : TimedCommit) : Bool :=
  timedLt a.commitMeta.time a.sequence b.commitMeta.time b.sequence

/-- `log.rs` `ChronologicalWalk`. -/
structure ChronologicalWalk where
  queue : List TimedCommit
  seen : Finset Oid
  nextSequence : ℕ
  pendingError : Option Error

namespace ChronologicalWalk

/-- `ChronologicalWalk::new`. -/
def new (info : StoreInfo) (start : Oid) (opts : WalkOptions) : Query ChronologicalWalk := do
  let commitMeta ← readMeta info opts start true
  return { queue := [⟨start, commitMeta, 0⟩], seen := {start}, nextSequence := 1,
           pendingError := none }

/-- `queue.push` of a commit that was just read. -/
def push (walk : ChronologicalWalk) (id : Oid) (commitMeta : CommitMeta) : ChronologicalWalk :=
  { walk with
    queue := ⟨id, commitMeta, walk.nextSequence⟩ :: walk.queue
    nextSequence := saturatingAdd walk.nextSequence 1 }

/-- The loop of `ChronologicalWalk::next` over the parents of the popped commit. -/
def enqueueParents (info : StoreInfo) (opts : WalkOptions) :
    List Oid → ChronologicalWalk → Query ChronologicalWalk
  | [], walk => pure walk
  | parent :: parents, walk =>
    if parent ∈ walk.seen then enqueueParents info opts parents walk
    else do
      let walk := { walk with seen := insert parent walk.seen }
      match ← (readMeta info opts parent false).attempt with
      | .ok commitMeta => enqueueParents info opts parents (walk.push parent commitMeta)
      | .error error => pure { walk with pendingError := some error }

/-- The budget call of `ChronologicalWalk::next`. -/
def visit (chargeVisit : Bool) : Query Unit :=
  if chargeVisit then Query.chargeObjectVisit else Query.check

/-- `ChronologicalWalk::next`. -/
def next (info : StoreInfo) (opts : WalkOptions) (chargeVisit : Bool) (walk : ChronologicalWalk) :
    Query (Option (Except Error WalkedCommit) × ChronologicalWalk) :=
  match walk.pendingError with
  | some error => pure (some (.error error), { walk with pendingError := none })
  | none =>
    match popMax TimedCommit.lt walk.queue with
    | none => pure (none, walk)
    | some (current, queue) => do
      match ← (visit chargeVisit).attempt with
      | .error error => return (some (.error error), { walk with queue })
      | .ok _ =>
        let walk ← enqueueParents info opts current.commitMeta.parents { walk with queue }
        return (some (.ok ⟨current.id, current.commitMeta.time⟩), walk)

end ChronologicalWalk

/-! ### Topological and date order -/

/-- `log.rs` `OrderedNode`. -/
structure OrderedNode where
  commitMeta : CommitMeta
  discovery : ℕ

/-- `log.rs` `TimedOid`. -/
structure TimedOid where
  id : Oid
  time : ℤ
  sequence : ℕ

/-- `Ord for TimedOid`. -/
def TimedOid.lt (a b : TimedOid) : Bool := timedLt a.time a.sequence b.time b.sequence

/-- `log.rs` `OrderedQueue`; the top of the stack comes first. -/
inductive OrderedQueue where
  | topological (stack : List Oid)
  | date (heap : List TimedOid)

/-- The nodes of the pre-pass. -/
abbrev OrderedNodes := AList fun _ : Oid ↦ OrderedNode

/-- `log.rs` `OrderedWalk`. -/
structure OrderedWalk where
  nodes : OrderedNodes
  childCounts : AList fun _ : Oid ↦ ℕ
  queue : OrderedQueue
  nextSequence : ℕ
  emitted : Finset Oid
  residue : List Oid

/-- `Ord for Oid`, as derived: the algorithm first, then the digest bytes. -/
def Oid.le (a b : Oid) : Prop :=
  a.kind.digestLen < b.kind.digestLen ∨ (a.kind = b.kind ∧ a.bytes ≤ b.bytes)

instance : DecidableRel Oid.le := fun a b ↦
  inferInstanceAs (Decidable (a.kind.digestLen < b.kind.digestLen ∨
    (a.kind = b.kind ∧ a.bytes ≤ b.bytes)))

/-- `log.rs` `ordered_prepass_error`. -/
def orderedPrepassError (order : LogOrder) (error : Error) : Error :=
  if error.code = .budgetExceeded ∧ error.limit = some "max_objects" then
    let errorOrder : ErrorOrder := if order = .topological then .topological else .date
    let orderName := errorOrder.asStr
    ((Error.new .budgetExceeded s!":{orderName} order requires limits.max_objects at or above the reachable commit count").withLimit
        "max_objects").withOrder errorOrder
  else error

namespace OrderedWalk

/-- The pre-pass of `OrderedWalk::new`; the top of `pending` comes first. -/
def prepass (info : StoreInfo) (start : Oid) (opts : WalkOptions) :
    ℕ → List Oid → OrderedNodes → ℕ → Query OrderedNodes
  | 0, _, _, _ => Program.diverge
  | _ + 1, [], nodes, _ => pure nodes
  | fuel + 1, id :: pending, nodes, discovery =>
    if id ∈ nodes then prepass info start opts fuel pending nodes discovery
    else do
      Query.chargeObjectVisit.mapError (orderedPrepassError opts.order)
      let commitMeta ← readMeta info opts id (id = start)
      let pending := commitMeta.parents.foldr
        (fun parent pending ↦ if parent ∈ nodes then pending else parent :: pending) pending
      prepass info start opts fuel pending (nodes.insert id ⟨commitMeta, discovery⟩)
        (saturatingAdd discovery 1)

/-- `*count += 1` for a parent that is a node. -/
def countChild (counts : AList fun _ : Oid ↦ ℕ) (parent : Oid) : AList fun _ : Oid ↦ ℕ :=
  match counts.lookup parent with
  | some count => counts.insert parent (count + 1)
  | none => counts

/-- The child counts of `OrderedWalk::new`: one for every edge to a node. -/
def countChildren (nodes : OrderedNodes) : AList fun _ : Oid ↦ ℕ :=
  nodes.entries.foldl (fun counts node ↦ node.2.commitMeta.parents.foldl countChild counts)
    (nodes.keys.foldr (fun id counts ↦ counts.insert id 0) ∅)

/-- The nodes without children, by time and then by discovery. -/
def initial (nodes : OrderedNodes) (counts : AList fun _ : Oid ↦ ℕ) : List (Oid × OrderedNode) :=
  ((nodes.entries.filter fun node ↦ counts.lookup node.1 = some 0).map
    fun node ↦ (node.1, node.2)).insertionSort fun a b ↦
      a.2.commitMeta.time < b.2.commitMeta.time ∨
        (a.2.commitMeta.time = b.2.commitMeta.time ∧ a.2.discovery ≤ b.2.discovery)

/-- The heap of a date-ordered walk and its next sequence number. -/
def dateQueue (nodes : List (Oid × OrderedNode)) : List TimedOid × ℕ :=
  nodes.foldl (fun (heap, sequence) (id, node) ↦
    (⟨id, node.commitMeta.time, sequence⟩ :: heap, saturatingAdd sequence 1)) ([], 0)

/-- `OrderedWalk::new` after its pre-pass. A chronological order is `unreachable!`. -/
def ofNodes (order : LogOrder) (nodes : OrderedNodes) : Option OrderedWalk :=
  let childCounts := countChildren nodes
  let initial := initial nodes childCounts
  match order with
  | .topological => some
      { nodes, childCounts, queue := .topological (initial.map Prod.fst).reverse,
        nextSequence := 0, emitted := ∅, residue := [] }
  | .dateOrder =>
    let (heap, nextSequence) := dateQueue initial.reverse
    some { nodes, childCounts, queue := .date heap, nextSequence, emitted := ∅, residue := [] }
  | .chronological => none

/-- `OrderedWalk::new`. -/
def new (fuel : ℕ) (info : StoreInfo) (start : Oid) (opts : WalkOptions) : Query OrderedWalk := do
  let nodes ← prepass info start opts fuel [start] ∅ 0
  Program.unwrap (ofNodes opts.order nodes)

/-- `OrderedWalk::pop_ready`. -/
def popReady (walk : OrderedWalk) : Option (Oid × OrderedWalk) :=
  match walk.queue with
  | .topological [] => none
  | .topological (id :: stack) => some (id, { walk with queue := .topological stack })
  | .date heap =>
    (popMax TimedOid.lt heap).map fun (entry, heap) ↦ (entry.id, { walk with queue := .date heap })

/-- `OrderedWalk::push_ready`; `none` where `self.nodes[&id]` panics. -/
def pushReady (walk : OrderedWalk) (id : Oid) : Option OrderedWalk :=
  match walk.queue with
  | .topological stack => some { walk with queue := .topological (id :: stack) }
  | .date heap => do
    let node ← walk.nodes.lookup id
    return { walk with
      queue := .date (⟨id, node.commitMeta.time, walk.nextSequence⟩ :: heap)
      nextSequence := saturatingAdd walk.nextSequence 1 }

/-- The residue queue `OrderedWalk::pop_residue` takes from. -/
def fillResidue (walk : OrderedWalk) : List Oid :=
  if walk.residue = [] ∧ walk.emitted.card < walk.nodes.keys.length then
    (walk.nodes.keys.filter (· ∉ walk.emitted)).insertionSort Oid.le
  else walk.residue

/-- `OrderedWalk::pop_residue`. -/
def popResidue (walk : OrderedWalk) : Option Oid × OrderedWalk :=
  (walk.fillResidue.getLast?, { walk with residue := walk.fillResidue.dropLast })

/-- The loop of `OrderedWalk::next` over the parents of a ready commit; `none` where the
`expect` on the child count panics. -/
def releaseParents : List Oid → OrderedWalk → Option OrderedWalk
  | [], walk => some walk
  | parent :: parents, walk => do
    let count ← walk.childCounts.lookup parent
    let walk := { walk with childCounts := walk.childCounts.insert parent (count - 1) }
    if count - 1 = 0 then releaseParents parents (← walk.pushReady parent)
    else releaseParents parents walk

/-- `OrderedWalk::next`; `none` where it panics. -/
def next (walk : OrderedWalk) : Option (Option WalkedCommit × OrderedWalk) :=
  match walk.popReady with
  | some (id, walk) => do
    let node ← walk.nodes.lookup id
    let walk := { walk with emitted := insert id walk.emitted }
    let walk ← releaseParents node.commitMeta.parents walk
    return (some ⟨id, node.commitMeta.time⟩, walk)
  | none =>
    match walk.popResidue with
    | (none, walk) => some (none, walk)
    | (some id, walk) => do
      let node ← walk.nodes.lookup id
      return (some ⟨id, node.commitMeta.time⟩, { walk with emitted := insert id walk.emitted })

/-- `OrderedWalk::has_matching`. -/
def hasMatching (walk : OrderedWalk) (opts : WalkOptions) : Bool :=
  walk.nodes.entries.any fun node ↦
    node.1 ∉ walk.emitted ∧ withinTimeBounds node.2.commitMeta.time opts

end OrderedWalk

/-! ### All orders -/

/-- `log.rs` `Walk`. -/
inductive Walk where
  | chronological (walk : ChronologicalWalk)
  | ordered (walk : OrderedWalk)

namespace Walk

/-- `Walk::new`. -/
def new (fuel : ℕ) (info : StoreInfo) (start : Oid) (opts : WalkOptions) : Query Walk :=
  match opts.order with
  | .chronological => chronological <$> ChronologicalWalk.new info start opts
  | .topological | .dateOrder => ordered <$> OrderedWalk.new fuel info start opts

/-- `Walk::next`. -/
def next (info : StoreInfo) (opts : WalkOptions) (chargeVisit : Bool) :
    Walk → Query (Option (Except Error WalkedCommit) × Walk)
  | .chronological walk => do
    let (walked, walk) ← walk.next info opts chargeVisit
    return (walked, .chronological walk)
  | .ordered walk => do
    let (walked, walk) ← Program.unwrap walk.next
    return (walked.map .ok, .ordered walk)

/-- The error `Walk::take_pending_error` takes. A walk goes on only where there is none. -/
def pendingError : Walk → Option Error
  | .chronological walk => walk.pendingError
  | .ordered _ => none

/-- `Walk::has_matching`. -/
def hasMatching (walk : Walk) (opts : WalkOptions) : Bool :=
  match walk with
  | .chronological walk => walk.pendingError.isSome ∨
      walk.queue.any fun commit ↦ withinTimeBounds commit.commitMeta.time opts
  | .ordered walk => walk.hasMatching opts

/-- Everything a walk yields: `while let Some(walked) = walk.next(true)`. -/
def emitAll (info : StoreInfo) (opts : WalkOptions) : ℕ → Walk → Query (List WalkedCommit)
  | 0, _ => Program.diverge
  | fuel + 1, walk => do
    match ← walk.next info opts true with
    | (none, _) => return []
    | (some (.error error), _) => Program.fail error
    | (some (.ok walked), walk) => return walked :: (← emitAll info opts fuel walk)

end Walk
end Gitility
