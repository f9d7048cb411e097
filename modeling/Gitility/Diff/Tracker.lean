import Mathlib.Data.List.Sort
import Gitility.Base.Lockstep
import Gitility.Diff.TreeDiff

/-!
# Rename tracking of gix-diff

`crates/gitility-core/vendor/gix-diff/src/rewrites/tracker.rs` without copies, and `tree_with_rewrites` that hands its
changes to it. Paths are kept in the items, and the counters of the outcome, which nobody reads, are left out.
-/

namespace Gitility.GixDiff

open Diff

/-! ### Items -/

/-- `tracker::ChangeKind`. -/
inductive ChangeKind where
  | deletion
  | modification
  | addition
  deriving DecidableEq

namespace Change

/-- `Change::id`. -/
def id : Change → Oid
  | addition _ oid _ | deletion _ oid _ | modification _ _ _ oid => oid

/-- `Change::relation`. -/
def relation : Change → Option Relation
  | addition _ _ relation | deletion _ _ relation => relation
  | modification .. => none

/-- `Change::kind`. -/
def kind : Change → ChangeKind
  | addition .. => .addition
  | deletion .. => .deletion
  | modification .. => .modification

/-- `Change::entry_mode`. -/
def entryMode : Change → ℕ
  | addition entryMode _ _ | deletion entryMode _ _ | modification _ _ entryMode _ => entryMode

end Change

/-- `EntryKind`, where executable files are blobs like others. -/
inductive EntryKind where
  | blob
  | link
  | tree
  | commit
  deriving DecidableEq

/-- `EntryMode::kind`. -/
def entryKind (mode : ℕ) : EntryKind :=
  if modeType mode = 0o100000 then .blob
  else if modeType mode = 0o120000 then .link
  else if isTree mode then .tree
  else .commit

/-- `filename`. -/
def filename (path : Bytes) : Bytes :=
  match Bytes.rposition (· = 0x2f) path with
  | some position => path.drop (position + 1)
  | none => path

/-- The digest of `ObjectId::empty_blob`. -/
def emptyBlobId : HashKind → Bytes
  | .sha1 => [0xe6, 0x9d, 0xe2, 0x9b, 0xb2, 0xd1, 0xd6, 0x43, 0x4b, 0x8b, 0x29, 0xae, 0x77, 0x5a, 0xd8, 0xc2,
      0xe4, 0x8c, 0x53, 0x91]
  | .sha256 => [0x47, 0x3a, 0x0f, 0x4c, 0x3b, 0xe8, 0xa9, 0x36, 0x81, 0xa2, 0x67, 0xe3, 0xb1, 0xe9, 0xa7, 0xdc,
      0xda, 0x11, 0x85, 0x43, 0x6f, 0xe1, 0x41, 0xf7, 0x74, 0x91, 0x20, 0xa3, 0x03, 0x72, 0x18, 0x13]

/-- `Ord for ObjectId`. -/
def compareId (a b : Oid) : Ordering :=
  (Ord.compare a.kind.digestLen b.kind.digestLen).then (Ord.compare a.bytes b.bytes)

/-- `tracker::Item`. -/
structure Item where
  change : Change
  path : Bytes
  emitted : Bool := false

namespace Item

variable (item : Item)

/-- `Item::is_source_for_destination_of` of `SourceKind::Rename`. -/
def isSourceForDestinationOf (mode : ℕ) : Bool :=
  entryKind mode = entryKind item.change.entryMode ∧ ¬item.emitted ∧ item.change.kind = .deletion

/-- The change ID of a top-most directory. -/
def isParentOf (id : ℕ) : Bool := ¬item.emitted ∧ item.change.relation = some (.parent id)

/-- An item below a top-most directory. -/
def isChildOf (id : ℕ) : Bool := ¬item.emitted ∧ item.change.relation = some (.childOfParent id)

/-- The filter of `match_pairs`: `is_parent`, or what counts with `track_empty: false`. -/
def passes (parents : Bool) : Bool :=
  match parents, item.change.relation with
  | true, some (.parent _) => true
  | true, _ => false
  | false, some (.childOfParent _) => true
  | false, _ => item.change.id.bytes ≠ emptyBlobId item.change.id.kind

/-- What `match_pairs` takes up as a destination. -/
def isDestination (parents : Bool) : Bool :=
  ¬item.emitted ∧ item.change.kind = .addition ∧ item.passes parents

/-- `ChangeKind` and `Option<Relation>` as they are ordered. -/
def rank : ℕ × ℕ × ℕ :=
  (match item.change.kind with
    | .deletion => 0
    | .modification => 1
    | .addition => 2,
  match item.change.relation with
    | none => (0, 0)
    | some (.parent id) => (1, id)
    | some (.childOfParent id) => (2, id))

/-- The order of `sort_items_by_id_and_location`. -/
def compareByIdAndLocation (a b : Item) : Ordering :=
  (compareId a.change.id b.change.id).then <| (Ord.compare a.path b.path).then <|
    (Ord.compare a.rank.1 b.rank.1).then <| (Ord.compare a.rank.2.1 b.rank.2.1).then <|
      (Ord.compare a.rank.2.2 b.rank.2.2).then (Ord.compare a.change.entryMode b.change.entryMode)

end Item

/-- `Tracker`; the items without `path_backing`, and the limit of `rewrites`. -/
structure Tracker where
  items : List Item := []
  limit : ℕ
  childRenames : List (ℕ × ℕ) := []

namespace Tracker

variable (tracker : Tracker)

/-- `try_push_change` with `copies: None`; `none` if the change is refused. -/
def tryPushChange (change : Change) (location : Bytes) : Option Tracker :=
  if change.kind = .modification then none
  else if change.relation = none ∧ isTree change.entryMode then none
  else some { tracker with items := tracker.items ++ [⟨change, location, false⟩] }

/-- `emitted = true` at an index. -/
def markEmitted (idx : ℕ) : Tracker :=
  { tracker with items := tracker.items.modify idx fun item ↦ { item with emitted := true } }

/-- `child_renames.insert`, into a `BTreeSet`. -/
def insertRename (src dst : ℕ) : Tracker :=
  if (src, dst) ∈ tracker.childRenames then tracker
  else { tracker with childRenames :=
    tracker.childRenames.orderedInsert (fun a b ↦ a.1 < b.1 ∨ a.1 = b.1 ∧ a.2 ≤ b.2) (src, dst) }

/-- `sort_items_by_id_and_location`. -/
def sortItemsByIdAndLocation : Tracker :=
  { tracker with items := tracker.items.mergeSort fun a b ↦ (a.compareByIdAndLocation b).isLE }

/-- There is a pair to look for. -/
def hasWork : Bool :=
  tracker.items.any (·.change.kind = .deletion) ∧ tracker.items.any (·.change.kind = .addition)

/-- `estimate_involved_items` of renames. -/
def estimateInvolvedItems : ℕ × ℕ :=
  let open_ := tracker.items.filter (¬·.emitted)
  (open_.countP (·.change.kind = .deletion), open_.countP (·.change.kind = .addition))

end Tracker

/-! ### Similarity -/

/-- The part of `DiffLineStats` that is read: the bits of the similarity, which are ordered as it is, and it in
whole percent. -/
structure DiffLineStats where
  similarity : ℕ
  percent : ℕ

/-- A call that only reads objects. -/
def Reads : WalkOp → Prop
  | .change _ => False
  | _ => True

/-- `blob::Platform`, with the comparison of what is set: nothing if it is binary, or less similar than half. -/
structure Platform (σ : Type) where
  initial : σ
  setResource : (isNew : Bool) → Oid → ℕ → Bytes → σ → Walking σ
  prepareDiff : σ → Walking (Option DiffLineStats × σ)
  reads_setResource : ∀ isNew oid mode path s, (setResource isNew oid mode path s).Asks Reads
  reads_prepareDiff : ∀ s, (prepareDiff s).Asks Reads

/-- The state of `Tracker::emit` and of the delegate behind its callback. -/
structure Emission (σ : Type) extends Tracker where
  platform : σ
  err : Option TreeDiffError := none

variable {σ : Type} (platform : Platform σ)

/-- What `find_match` returns: the source with its index and similarity. -/
abbrev SourceTuple := ℕ × Item × Option DiffLineStats

/-- The loop of `find_match` over the items with the same ID, which counts its checks. -/
def findIdentical (dest : Item) (destIdx : ℕ) :
    List (Item × ℕ) → Option SourceTuple → ℕ → Option SourceTuple × ℕ
  | [], fallback, checks => (fallback, checks)
  | (src, srcIdx) :: rest, fallback, checks =>
    if srcIdx = destIdx ∨ ¬src.isSourceForDestinationOf dest.change.entryMode then
      findIdentical dest destIdx rest fallback (checks + 1)
    else if filename src.path = filename dest.path then (some (srcIdx, src, none), checks + 1)
    else findIdentical dest destIdx rest (fallback.or (some (srcIdx, src, none))) (checks + 1)

/-- A candidate is better than the best so far, if it is more similar, or as similar with the right name. -/
def isBetter (stats : DiffLineStats) (sameFilename : Bool) : Option (SourceTuple × Bool) → Bool
  | none => true
  | some ((_, _, best), bestSameFilename) =>
    match Ord.compare stats.similarity ((best.map DiffLineStats.similarity).getD 0) with
    | .gt => true
    | .eq => sameFilename ∧ ¬bestSameFilename
    | .lt => false

/-- The destination is set before the first candidate. -/
def setDestination (dest : Item) (hasNew : Bool) (s : σ) : Walking σ :=
  if hasNew then pure s else platform.setResource true dest.change.id dest.change.entryMode dest.path s

/-- The loop of `find_match` over the candidates that may be similar. -/
def findSimilar (dest : Item) : List (Item × ℕ) → Bool → Option (SourceTuple × Bool) → σ → ℕ →
    Walking (Option SourceTuple × σ × ℕ)
  | [], _, best, s, checks => return (best.map Prod.fst, s, checks)
  | (src, srcIdx) :: rest, hasNew, best, s, checks => do
    let s ← setDestination platform dest hasNew s
    let s ← platform.setResource false src.change.id src.change.entryMode src.path s
    let (stats, s) ← platform.prepareDiff s
    match stats with
    | none => findSimilar dest rest true best s (checks + 1)
    | some stats =>
      let sameFilename := filename src.path = filename dest.path
      if isBetter stats sameFilename best then
        findSimilar dest rest true (some ((srcIdx, src, some stats), sameFilename)) s (checks + 1)
      else findSimilar dest rest true best s (checks + 1)

/-- `find_match` by identity, or by similarity. -/
def findMatch (identity : Bool) (items : List Item) (dest : Item) (destIdx : ℕ) (s : σ) (checks : ℕ) :
    Walking (Option SourceTuple × σ × ℕ) :=
  let mode := dest.change.entryMode
  if identity ∨ entryKind mode = .link ∨ entryKind mode = .commit then
    let range := (items.zipIdx.dropWhile fun a ↦ (compareId a.1.change.id dest.change.id).isLT).takeWhile
      fun a ↦ a.1.change.id = dest.change.id
    let (found, checks) := findIdentical dest destIdx range none checks
    return (found, s, checks)
  else if entryKind mode = .blob then
    findSimilar platform dest
      (items.zipIdx.filter fun a ↦ a.2 ≠ destIdx ∧ a.1.isSourceForDestinationOf mode) false none s checks
  else return (none, s, checks)

/-! ### Emission -/

/-- The `ChangeRef` of `process_tracked_changes` for a rename. -/
def rewriteRef (src dest : Item) (diff : Option DiffLineStats) : ChangeRef :=
  .rewrite src.path src.change.entryMode src.change.id (diff.map DiffLineStats.percent) dest.change.entryMode
    dest.change.id dest.path false

/-- The callback of `process_tracked_changes`, and whether to go on. -/
def callback (change : ChangeRef) (emission : Emission σ) : Walking (Bool × Emission σ) := do
  match ← (Program.request (WalkOp.change change) : Walking Bool).attempt with
  | .ok goOn => return (goOn, emission)
  | .error error => return (false, { emission with err := some error })

/-- A rename is emitted, and both items are marked. -/
def emitPair (src dest : Item) (srcIdx destIdx : ℕ) (diff : Option DiffLineStats) (emission : Emission σ) :
    Walking (Bool × Emission σ) := do
  let (goOn, emission) ← callback (rewriteRef src dest diff) emission
  return (goOn, { emission with toTracker := (emission.markEmitted destIdx).markEmitted srcIdx })

/-- The loop of `emit_child_renames_matching_identity`. -/
def emitChildren : List ((Item × ℕ) × (Item × ℕ)) → Emission σ → Walking (Bool × Emission σ)
  | [], emission => return (true, emission)
  | ((src, srcIdx), (dest, destIdx)) :: rest, emission =>
    if src.change.id = dest.change.id ∧ filename src.path = filename dest.path then do
      let (goOn, emission) ← emitPair src dest srcIdx destIdx none emission
      if goOn then emitChildren rest emission else return (false, emission)
    else return (true, emission)

/-- `emit_child_renames_matching_identity`. -/
def emitChildRenamesMatchingIdentity (srcParentId dstParentId : ℕ) (emission : Emission σ) :
    Walking (Bool × Emission σ) :=
  emitChildren ((emission.items.zipIdx.filter (·.1.isChildOf srcParentId)).zip
    (emission.items.zipIdx.filter fun a ↦ a.1.isChildOf dstParentId ∧ ¬a.1.isChildOf srcParentId)) emission

/-- The loop of `match_pairs` over the items. -/
def matchEach (identity parents : Bool) (maxChecks : ℕ) :
    List ℕ → ℕ → Emission σ → Walking (Bool × Emission σ)
  | [], _, emission => return (true, emission)
  | destIdx :: rest, checks, emission =>
    match emission.items[destIdx]?.filter (·.isDestination parents) with
    | none => matchEach identity parents maxChecks rest checks emission
    | some dest => do
      let (found, s, checks) ← findMatch platform identity emission.items dest destIdx emission.platform checks
      let emission := { emission with platform := s }
      if maxChecks ≠ 0 ∧ maxChecks < checks then return (false, emission)
      else
        match found with
        | none => matchEach identity parents maxChecks rest checks emission
        | some (srcIdx, src, diff) => do
          let (goOn, emission) ← emitPair src dest srcIdx destIdx diff emission
          if ¬goOn then return (false, emission)
          else
            match identity, src.change.relation, dest.change.relation with
            | true, some (.parent src), some (.parent dst) => do
              let (goOn, emission) ← emitChildRenamesMatchingIdentity src dst emission
              if ¬goOn then return (false, emission)
              else matchEach identity parents maxChecks rest checks emission
            | true, some (.childOfParent src), some (.childOfParent dst) =>
              matchEach identity parents maxChecks rest checks
                { emission with toTracker := emission.insertRename src dst }
            | _, _, _ => matchEach identity parents maxChecks rest checks emission

/-- `match_pairs`. -/
def matchPairs (identity parents : Bool) (emission : Emission σ) : Walking (Bool × Emission σ) :=
  let maxChecks := if emission.items.length < 100000 then 0 else min (emission.limit ^ 2) u64Max
  matchEach platform identity parents maxChecks (List.range emission.items.length) 0 emission

/-- `match_pairs_of_kind` of renames, by identity only or by a percentage. -/
def matchPairsOfKind (identity parents : Bool) (emission : Emission σ) : Walking (Emission σ) := do
  let (goOn, emission) ← matchPairs platform true parents emission
  if ¬goOn ∨ identity then return emission
  else
    let (sources, destinations) := emission.estimateInvolvedItems
    if emission.limit ≠ 0 ∧ emission.limit < sources * destinations then return emission
    else do
      let (_, emission) ← matchPairs platform false false emission
      return emission

/-- The loop of `match_renamed_directories`. -/
def matchRenamedDirectories : List (ℕ × ℕ) → Emission σ → Walking (Emission σ)
  | [], emission => return emission
  | (deletedChildId, addedChildId) :: rest, emission =>
    match emission.items.zipIdx.find? (·.1.isParentOf deletedChildId),
      emission.items.zipIdx.find? (·.1.isParentOf addedChildId) with
    | some (src, srcIdx), some (dest, destIdx) => do
      let (goOn, emission) ← emitPair src dest srcIdx destIdx none emission
      if goOn then matchRenamedDirectories rest emission else return emission
    | _, _ => matchRenamedDirectories rest emission

/-- The loop of `emit` over what is left. -/
def emitRest : List Item → Emission σ → Walking (Emission σ)
  | [], emission => return emission
  | item :: rest, emission => do
    let (goOn, emission) ← callback (item.change.toRef item.path) emission
    if goOn then emitRest rest emission else return emission

/-- The part of `emit` that looks for pairs. -/
def emitMatches (emission : Emission σ) : Walking (Emission σ) :=
  if emission.hasWork then do
    let emission ← matchPairsOfKind platform true true
      { emission with toTracker := emission.sortItemsByIdAndLocation }
    let emission ← matchPairsOfKind platform false false emission
    matchRenamedDirectories emission.childRenames emission
  else return emission

/-- `Tracker::emit`. -/
def emitTracked (emission : Emission σ) : Walking (Emission σ) := do
  let emission ← emitMatches platform emission
  emitRest ((emission.items.mergeSort fun a b ↦ (Ord.compare a.path b.path).isLE).filter (¬·.emitted)) emission

/-- `Delegate::visit` with a tracker. -/
def track (change : Change) (location : Bytes) (tracker : Tracker) : Walking Tracker :=
  match tracker.tryPushChange change location with
  | some tracker => return tracker
  | none => do
    emit change location ()
    return tracker

/-- `tree_with_rewrites` with rename tracking. -/
def treeWithTracker (gix : Gix) (fuel limit : ℕ) (lhs rhs : HashKind × Bytes) : Diff.TreeWalk := do
  let tracker ← tree track gix fuel lhs rhs { limit }
  let emission ← emitTracked platform { toTracker := tracker, platform := platform.initial }
  match emission.err with
  | some error => Program.fail error
  | none => return ()

end Gitility.GixDiff
