import Gitility.Cursor.Codec
import Gitility.Search.Scan
import Gitility.Tree.Listing

/-!
# Searching a snapshot

`search` of `crates/gitility-core/src/search.rs`. A walk yields the blobs of the searched tree,
each is scanned or its scan is taken from an LRU cache, and its matching lines are emitted until
the page is full. A cursor names the path and the ordinal of the last emitted line.
-/

namespace Gitility

/-- `search.rs` `SearchOptions`. -/
structure SearchOptions extends SearchQuery where
  limit : ℕ := 1000
  maxResultBytes : ℕ := 8 * 1024 * 1024
  cursor : Option Bytes := none

/-- The `QueryStats` of a search, without the budget and store counters. -/
structure SearchStats extends QueryStats where
  filesScanned : ℕ
  blobsDeduped : ℕ
  binarySkipped : ℕ
  oversizeSkipped : ℕ
  payloadRereads : ℕ
  deriving DecidableEq

/-- `search.rs` `SearchPage`; `found` is its `matches`. -/
structure SearchPage where
  found : List SearchMatch
  nextCursor : Option Bytes
  truncated : Bool
  stats : SearchStats
  deriving DecidableEq

namespace Search

/-- `search.rs` `BLOB_PREFETCH_WINDOW`. -/
def blobPrefetchWindow : ℕ := 64
/-- `search.rs` `SCAN_CACHE_MATCH_CAP`. -/
def scanCacheMatchCap : ℕ := 64 * 1024
/-- `search.rs` `MAX_CONTEXT_LINES`. -/
def maxContextLines : ℕ := 32

/-- `search.rs` `validate_options`. -/
def validateOptions (opts : SearchOptions) : Except Error Unit := do
  validatePath opts.path
  ensure (opts.limit ≠ 0) (.new .invalidArgument "search page limit must be greater than zero")
  ensure (opts.maxResultBytes ≠ 0)
    (.new .invalidArgument "search max_result_bytes must be greater than zero")
  ensure (opts.contextLines ≤ maxContextLines)
    (.new .invalidArgument s!"context_lines must not exceed {maxContextLines}")

/-- `search.rs` `option_fingerprint`. -/
def optionFingerprint (pattern : Bytes) (query : SearchQuery) : UInt64 :=
  Cursor.fnv1a64 (Bytes.ascii "gitility:search:options:v1" ++ [0] ++
    ListTree.pushBytes pattern ++
    [query.mode.tag, if query.caseSensitive then 1 else 0] ++ ListTree.pushBytes query.path ++
    Bytes.toLe 4 (min query.pathspecs.length u32Max) ++
    (query.pathspecs.mergeSort fun a b ↦ ¬ b < a).flatMap ListTree.pushBytes ++
    [query.binary.tag] ++ Bytes.toLe 4 query.contextLines)

/-- The identity the cursors of a search carry. -/
def expected (snapshot : Snapshot) (pattern : Bytes) (query : SearchQuery) : Cursor.Expected where
  hashKind := snapshot.commitOid.kind
  snapshotDigest := snapshot.commitOid.bytes
  operationTag := Cursor.operationSearch
  optionFingerprint := optionFingerprint pattern query

/-- A position: the path and the ordinal of a line. -/
structure Position where
  path : Bytes
  ordinal : ℕ
  deriving DecidableEq

/-- The checks `decode_resume` makes on the position of a decoded cursor. -/
def decodePosition (base position : Bytes) : Except Error Position := do
  ensure (4 ≤ position.length) (Cursor.invalid "position is missing its match ordinal")
  let path := position.drop 4
  ensure (path ≠ []) (Cursor.invalid "position is missing its path")
  (validatePath path).mapError fun _ ↦ Cursor.invalid "position path check failed"
  ensure (base = [] ∨ (base.isPrefixOf path ∧ path[base.length]? = some 0x2f ∧
      base.length + 1 < path.length))
    (Cursor.invalid "position path is outside the searched tree")
  return ⟨path, Bytes.ofLe (position.take 4)⟩

/-- `search.rs` `decode_resume`. -/
def decodeResume (snapshot : Snapshot) (pattern : Bytes) (opts : SearchOptions) :
    Except Error (Option Position) :=
  match opts.cursor with
  | none => .ok none
  | some bytes => do
    let decoded ← Cursor.decode bytes (expected snapshot pattern opts.toSearchQuery)
    ensure (decoded.generation = [])
      (Cursor.invalid "generation check failed for this object store")
    let position ← decodePosition opts.path decoded.position
    return some position

/-! ### The walk -/

/-- `search.rs` `BlobCandidate`. -/
structure BlobCandidate where
  path : Bytes
  oid : Oid
  deriving DecidableEq

/-- `search.rs` `WalkFrame`; `directory` is its `prefix`. -/
structure WalkFrame where
  entries : List OwnedTreeEntry
  directory : Bytes

/-- The state of `search.rs` `BlobWalk`. -/
structure BlobWalk where
  stack : List WalkFrame
  replaying : Bool
  prefetchedBlobs : List Oid

/-- What `BlobWalk` keeps for its whole walk. -/
structure WalkScope where
  gix : Gix
  info : StoreInfo
  query : SearchQuery
  resumePath : Option Bytes

/-- The pathspec check on a path of the walk. -/
def WalkScope.selects (scope : WalkScope) (path : Bytes) : Bool :=
  Pathspec.matchesPath scope.gix scope.query.pathspecs (relativeToScope path scope.query.path)

/-- `resume_path.is_none_or(|resume_path| path >= resume_path)`. -/
def WalkScope.isAhead (scope : WalkScope) (path : Bytes) : Bool :=
  scope.resumePath.all fun resumePath ↦ ¬ path < resumePath

/-- `filter(|oid| prefetched_blobs.insert(*oid))`: the new objects and the grown set. -/
def pendingBlobs : List Oid → List Oid → List Oid × List Oid
  | [], prefetched => ([], prefetched)
  | oid :: oids, prefetched =>
    if oid ∈ prefetched then pendingBlobs oids prefetched
    else
      let (pending, prefetched) := pendingBlobs oids (prefetched ++ [oid])
      (oid :: pending, prefetched)

/-- The blobs of a directory that `read_entries` hints at. -/
def hintedBlobs (scope : WalkScope) (directory : Bytes) (entries : List OwnedTreeEntry) :
    List Oid :=
  ((entries.filter (·.kind = .blob)).filter fun entry ↦
    scope.selects (joinPath directory entry.name) ∧
      scope.isAhead (joinPath directory entry.name)).map (·.oid)

/-- The hints of `read_entries`. -/
def prefetchBlobs (scope : WalkScope) (directory : Bytes) (entries : List OwnedTreeEntry)
    (prefetched : List Oid) : Query (List Oid) :=
  if scope.info.supportsPrefetch then do
    let (pending, prefetched) := pendingBlobs (hintedBlobs scope directory entries) prefetched
    (pending.toChunks blobPrefetchWindow).forM Query.prefetch
    return prefetched
  else pure prefetched

/-- The read of `read_entries`: a replayed tree goes through the graph seam. -/
def readTree (scope : WalkScope) (replaying : Bool) (oid : Oid) : Query (List OwnedTreeEntry) :=
  if replaying then readTreeEntriesForGraphWalk scope.gix scope.info oid
  else readTreeEntriesForWalk scope.gix scope.info true oid

/-- `BlobWalk::read_entries`, with the frame of the directory pushed. -/
def enter (scope : WalkScope) (walk : BlobWalk) (oid : Oid) (directory : Bytes) :
    Query BlobWalk := do
  let entries ← readTree scope walk.replaying oid
  let prefetchedBlobs ← prefetchBlobs scope directory entries walk.prefetchedBlobs
  return { walk with stack := ⟨entries, directory⟩ :: walk.stack, prefetchedBlobs }

/-- `BlobWalk::new`. -/
def newWalk (scope : WalkScope) (treeOid : Oid) : Query BlobWalk :=
  enter scope ⟨[], scope.resumePath.isSome, []⟩ treeOid scope.query.path

/-- `BlobWalk::next`. -/
def next (scope : WalkScope) : ℕ → BlobWalk → Query (Option BlobCandidate × BlobWalk)
  | 0, _ => Program.diverge
  | fuel + 1, walk => do
    Query.check
    match walk.stack with
    | [] => return (none, walk)
    | frame :: stack =>
      match frame.entries with
      | [] => next scope fuel { walk with stack }
      | entry :: rest =>
        let path := joinPath frame.directory entry.name
        let walk := { walk with stack := { frame with entries := rest } :: stack }
        if entry.kind = .tree then do
          let walk ← enter scope walk entry.oid path
          next scope fuel walk
        else if entry.kind = .blob ∧ scope.selects path then
          return (some ⟨path, entry.oid⟩,
            { walk with
              replaying := walk.replaying ∧ ¬ (scope.resumePath.isSome ∧ scope.isAhead path) })
        else next scope fuel walk

/-! ### Emission -/

/-- A match with its ordinal in its file. `matches` and `positions` of the source grow and shrink
together, and the path of a position is that of its match. -/
structure Emitted where
  item : SearchMatch
  ordinal : ℕ

/-- The position of an emitted match. -/
def Emitted.position (emitted : Emitted) : Position := ⟨emitted.item.path, emitted.ordinal⟩

/-- What a search has collected. -/
structure Collected where
  emitted : List Emitted := []
  payloadBytes : ℕ := 0

/-- Both pushes of `emit_matches`. -/
def Collected.push (collected : Collected) (emitted : Emitted) : Collected where
  emitted := collected.emitted ++ [emitted]
  payloadBytes := saturatingAdd collected.payloadBytes emitted.item.payloadBytes

/-- `u32::try_from(ordinal)` in `emit_matches`. -/
def checkOrdinal (ordinal : ℕ) : Except Error Unit :=
  ensure (ordinal ≤ u32Max)
    ((Error.new .resultTooLarge "one file has too many matching lines for a search cursor").withLimit
      "max_result_bytes")

/-- The loop of `emit_matches` over the items of a file; the answer names the limit that stopped
the page. -/
def emitItems (limit maxResultBytes : ℕ) :
    List Emitted → Collected → Query (Collected × Option String)
  | [], collected => pure (collected, none)
  | emitted :: rest, collected => do
    Query.check
    if collected.emitted.length = limit then return (collected, some "limit")
    else do
      Program.ofExcept (checkOrdinal emitted.ordinal)
      if maxResultBytes < saturatingAdd collected.payloadBytes emitted.item.payloadBytes then
        return (if collected.emitted = [] then collected.push emitted else collected,
          some "max_result_bytes")
      else emitItems limit maxResultBytes rest (collected.push emitted)

/-- The items of a file, with their ordinals. -/
def fileItems (snapshot : Snapshot) (matcher : CompiledMatcher) (candidate : BlobCandidate)
    (payload : Bytes) (lines : List CachedLineMatch) : List Emitted :=
  lines.zipIdx.map fun (line, ordinal) ↦
    ⟨matchOf snapshot matcher candidate.path candidate.oid payload line, ordinal⟩

/-- The line `emit_matches` starts at. -/
def startLine (count : ℕ) : Option ℕ → Except Error ℕ
  | none => .ok 0
  | some start => do
    ensure (start - 1 < count)
      (Cursor.invalid "position check failed: match ordinal is outside the file")
    return start

/-- `search.rs` `emit_matches`. -/
def emitMatches (snapshot : Snapshot) (matcher : CompiledMatcher) (opts : SearchOptions)
    (candidate : BlobCandidate) (lines : List CachedLineMatch) (payload : Bytes)
    (startOrdinal : Option ℕ) (collected : Collected) : Query (Collected × Option String) := do
  let start ← Program.ofExcept (startLine lines.length startOrdinal)
  emitItems opts.limit opts.maxResultBytes
    ((fileItems snapshot matcher candidate payload lines).drop start) collected

/-! ### The search loop -/

/-- The counters of `search_with_cache_capacity` and the sets they are kept with. -/
structure Tally where
  filesScanned : ℕ := 0
  blobsDeduped : ℕ := 0
  binarySkipped : ℕ := 0
  oversizeSkipped : ℕ := 0
  payloadRereads : ℕ := 0
  visitedBlobs : List Oid := []
  payloadReads : List Oid := []

/-- `visited_blobs.insert`, with the count of repeated blobs. -/
def Tally.visit (tally : Tally) (oid : Oid) : Tally :=
  if oid ∈ tally.visitedBlobs then
    { tally with blobsDeduped := saturatingAdd tally.blobsDeduped 1 }
  else { tally with visitedBlobs := tally.visitedBlobs ++ [oid] }

/-- `payload_reads.insert`, with the count of repeated reads. -/
def Tally.readPayload (tally : Tally) (oid : Oid) : Tally :=
  if oid ∈ tally.payloadReads then
    { tally with payloadRereads := saturatingAdd tally.payloadRereads 1 }
  else { tally with payloadReads := tally.payloadReads ++ [oid] }

/-- The count of a scan, made at the first visit of its blob. -/
def Tally.countScan (tally : Tally) : CachedScan → Tally
  | .found _ => { tally with filesScanned := saturatingAdd tally.filesScanned 1 }
  | .binarySkipped => { tally with binarySkipped := saturatingAdd tally.binarySkipped 1 }
  | .oversizeSkipped => { tally with oversizeSkipped := saturatingAdd tally.oversizeSkipped 1 }

/-- The state of the search loop. -/
structure State where
  cache : LruCache Oid CachedScan
  collected : Collected := {}
  tally : Tally := {}

/-- What a search keeps for its whole run. -/
structure SearchScope where
  snapshot : Snapshot
  matcher : CompiledMatcher
  opts : SearchOptions
  maxObjectBytes : ℕ

/-- The error of a cursor whose file was skipped. -/
def noEmittedMatches : Error :=
  Cursor.invalid "position check failed: cursor path has no emitted matches"

/-- A candidate whose scan is cached. -/
def emitCached (scope : SearchScope) (candidate : BlobCandidate) (startOrdinal : Option ℕ)
    (firstVisit : Bool) (state : State) : CachedScan → Query (State × Option String)
  | .found lines => do
    let payload ← readBlobPayload candidate.oid
    match payload with
    | none =>
      let tally := state.tally
      let skipped := if firstVisit then saturatingAdd tally.oversizeSkipped 1
        else tally.oversizeSkipped
      return ({ state with tally := { tally with oversizeSkipped := skipped } }, none)
    | some payload => do
      let (collected, stopped) ← emitMatches scope.snapshot scope.matcher scope.opts candidate lines
        payload startOrdinal state.collected
      return ({ state with collected, tally := state.tally.readPayload candidate.oid }, stopped)
  | .binarySkipped | .oversizeSkipped => do
    Program.ofExcept (ensure (startOrdinal = none) noEmittedMatches)
    return (state, none)

/-- The emission of a scan that was just made. -/
def emitScan (scope : SearchScope) (candidate : BlobCandidate) (startOrdinal : Option ℕ)
    (scanned : ScannedBlob) (collected : Collected) : Query (Collected × Option String) :=
  match scanned.scan with
  | .found lines => do
    let payload ← Program.unwrap scanned.payload
    emitMatches scope.snapshot scope.matcher scope.opts candidate lines payload startOrdinal
      collected
  | _ => do
    Program.ofExcept (ensure (startOrdinal = none) noEmittedMatches)
    return (collected, none)

/-- The counts of a scan that was just made. -/
def Tally.scanned (tally : Tally) (candidate : BlobCandidate) (firstVisit : Bool)
    (scanned : ScannedBlob) : Tally :=
  let tally := if scanned.payload.isSome then tally.readPayload candidate.oid else tally
  if firstVisit then tally.countScan scanned.scan else tally

/-- A candidate whose scan is not cached; a page that stops in it does not cache its scan. -/
def emitFresh (scope : SearchScope) (candidate : BlobCandidate) (startOrdinal : Option ℕ)
    (firstVisit : Bool) (state : State) : Query (State × Option String) := do
  let scanned ← (scanBlob scope.matcher scope.opts.toSearchQuery scope.maxObjectBytes
    candidate.oid).attempt
  match scanned with
  | .error error =>
    if truncatable error ∧ state.collected.emitted ≠ [] then
      return (state, some (error.limit.getD "budget"))
    else Program.fail error
  | .ok scanned => do
    let tally := state.tally.scanned candidate firstVisit scanned
    let (collected, stopped) ← emitScan scope candidate startOrdinal scanned state.collected
    if stopped.isSome then return ({ state with collected, tally }, stopped)
    else do
      let cache ← Program.unwrap
        (state.cache.insert candidate.oid scanned.scan scanned.scan.cacheWeight)
      return (⟨cache, collected, tally⟩, none)

/-- The charge of a cached candidate; a refused one ends a page that has matches. -/
def chargeVisit (state : State) : Query (Option String) := do
  let charged ← Query.chargeObjectVisit.attempt
  match charged with
  | .ok _ => return none
  | .error error =>
    if truncatable error ∧ state.collected.emitted ≠ [] then
      return some (error.limit.getD "budget")
    else Program.fail error

/-- The loop body of `search_with_cache_capacity` for a candidate that is not skipped. -/
def visitCandidate (scope : SearchScope) (candidate : BlobCandidate) (startOrdinal : Option ℕ)
    (state : State) : Query (State × Option String) := do
  let firstVisit := decide (candidate.oid ∉ state.tally.visitedBlobs)
  let state := { state with tally := state.tally.visit candidate.oid }
  let (scan, cache) ← Program.unwrap (state.cache.get candidate.oid)
  let state := { state with cache }
  match scan with
  | none => emitFresh scope candidate startOrdinal firstVisit state
  | some scan => do
    let stopped ← chargeVisit state
    if stopped.isSome then return (state, stopped)
    else emitCached scope candidate startOrdinal firstVisit state scan

/-- What the loop does with a candidate: skip it, or visit it from a line on. -/
def startOrdinal (resume : Option Position) (foundResume : Bool) (candidate : BlobCandidate) :
    Except Error (Option (Option ℕ)) :=
  match resume with
  | none => .ok (some none)
  | some position =>
    if foundResume then .ok (some none)
    else if candidate.path < position.path then .ok none
    else if position.path < candidate.path then
      .error (Cursor.invalid "position check failed: path is not in this traversal")
    else .ok (some (some (min (position.ordinal + 1) u32Max)))

/-- The loop of `search_with_cache_capacity`: the state, the limit that stopped the page and
whether the resume position was found. -/
def loop (scope : SearchScope) (walkScope : WalkScope) (resume : Option Position) (bound : ℕ) :
    ℕ → BlobWalk → Bool → State → Query (State × Option String × Bool)
  | 0, _, _, _ => Program.diverge
  | fuel + 1, walk, foundResume, state => do
    Query.check
    let advanced ← (next walkScope bound walk).attempt
    match advanced with
    | .error error =>
      if truncatable error ∧ state.collected.emitted ≠ [] then
        return (state, some (error.limit.getD "budget"), foundResume)
      else Program.fail error
    | .ok (none, _) => return (state, none, foundResume)
    | .ok (some candidate, walk) => do
      let start ← Program.ofExcept (startOrdinal resume foundResume candidate)
      match start with
      | none => loop scope walkScope resume bound fuel walk foundResume state
      | some start => do
        let (state, stopped) ← visitCandidate scope candidate start state
        if stopped.isSome then return (state, stopped, true)
        else loop scope walkScope resume bound fuel walk true state

/-! ### The page -/

/-- The cursor of a page that ends at a position. -/
def cursorAt (snapshot : Snapshot) (pattern : Bytes) (query : SearchQuery) (position : Position) :
    Bytes :=
  Cursor.encode { expected snapshot pattern query with
    generation := [], position := Bytes.toLe 4 position.ordinal ++ position.path }

/-- The two pops of `fit_cursor`. -/
def Collected.pop (collected : Collected) (last : Emitted) : Collected where
  emitted := collected.emitted.dropLast
  payloadBytes := collected.payloadBytes - last.item.payloadBytes

/-- `search.rs` `fit_cursor`: matches are given up until the cursor fits. -/
def fitCursor (snapshot : Snapshot) (pattern : Bytes) (query : SearchQuery)
    (maxResultBytes : ℕ) :
    ℕ → Collected → String → Except Error (Collected × String × Bytes)
  | 0, _, stoppedBy => .error ((Error.new .budgetExceeded
      "budget exhausted before any search pagination progress").withLimit stoppedBy)
  | count + 1, collected, stoppedBy =>
    match collected.emitted.getLast? with
    | none => .error ((Error.new .budgetExceeded
        "budget exhausted before any search pagination progress").withLimit stoppedBy)
    | some last =>
      let encoded := cursorAt snapshot pattern query last.position
      if Cursor.maxCursorBytes < encoded.length then
        if collected.emitted.length = 1 then
          .error (.new .resultTooLarge "search continuation path exceeds the cursor size limit")
        else fitCursor snapshot pattern query maxResultBytes count (collected.pop last)
          "max_result_bytes"
      else if (collected.emitted.length = 1 ∧ maxResultBytes < collected.payloadBytes) ∨
          saturatingAdd collected.payloadBytes encoded.length ≤ maxResultBytes then
        .ok (collected, stoppedBy, encoded)
      else if collected.emitted.length = 1 then
        .error ((Error.new .budgetExceeded
          "budget exhausted before any search pagination progress").withLimit "max_result_bytes")
      else fitCursor snapshot pattern query maxResultBytes count (collected.pop last)
        "max_result_bytes"

/-- The page of a finished loop. -/
def closePage (snapshot : Snapshot) (pattern : Bytes) (opts : SearchOptions) (state : State)
    (stopped : Option String) : Except Error SearchPage := do
  let fitted ← stopped.mapM (fitCursor snapshot pattern opts.toSearchQuery opts.maxResultBytes
    (state.collected.emitted.length + 1) state.collected)
  let found := (fitted.elim state.collected fun fitted ↦ fitted.1).emitted.map (·.item)
  let tally := state.tally
  return ⟨found, fitted.map fun fitted ↦ fitted.2.2, fitted.isSome,
    ⟨⟨found.length, fitted.map fun fitted ↦ fitted.2.1⟩, tally.filesScanned, tally.blobsDeduped,
      tally.binarySkipped, tally.oversizeSkipped, tally.payloadRereads⟩⟩

/-- The listed tree, resolved through the graph seam when a cursor is resumed. -/
def resolveScope (gix : Gix) (info : StoreInfo) (snapshot : Snapshot) (path : Bytes)
    (resumed : Bool) : Query Oid := do
  let read := if resumed then readTreeEntriesGraph gix info else readTreeEntries gix info
  let resolved ← resolvePathWith read snapshot path
  Program.ofExcept resolved.treeOid

/-- `search.rs` `search_with_cache_capacity`; `compile` is `CompiledMatcher::compile`. -/
def searchWithCacheCapacity (gix : Gix) (compile : Bytes → SearchQuery → Except Error CompiledMatcher)
    (fuel : ℕ) (info : StoreInfo) (maxObjectBytes : ℕ) (snapshot : Snapshot) (pattern : Bytes)
    (opts : SearchOptions) (scanCacheCapacity : ℕ) : Query SearchPage := do
  Program.ofExcept (ensureQueryCompatible info snapshot)
  Program.ofExcept (validateOptions opts)
  Query.check
  let matcher ← Program.ofExcept (compile pattern opts.toSearchQuery)
  let resume ← Program.ofExcept (decodeResume snapshot pattern opts)
  let treeOid ← resolveScope gix info snapshot opts.path resume.isSome
  let walkScope : WalkScope := ⟨gix, info, opts.toSearchQuery, resume.map (·.path)⟩
  let walk ← newWalk walkScope treeOid
  let (state, stopped, foundResume) ← loop ⟨snapshot, matcher, opts, maxObjectBytes⟩ walkScope
    resume fuel fuel walk resume.isNone ⟨.new scanCacheCapacity, {}, {}⟩
  Program.ofExcept (ensure foundResume
    (Cursor.invalid "position check failed: path is not in this traversal"))
  Program.ofExcept (closePage snapshot pattern opts state stopped)

/-- `search.rs` `search`. -/
def search (gix : Gix) (compile : Bytes → SearchQuery → Except Error CompiledMatcher) (fuel : ℕ)
    (info : StoreInfo) (maxObjectBytes : ℕ) (snapshot : Snapshot) (pattern : Bytes)
    (opts : SearchOptions) : Query SearchPage :=
  searchWithCacheCapacity gix compile fuel info maxObjectBytes snapshot pattern opts
    scanCacheMatchCap

end Search
end Gitility
