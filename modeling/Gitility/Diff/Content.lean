import Gitility.Base.Lines
import Gitility.Diff.Projection
import Gitility.Search.Scan

/-!
# The content of one changed file

`populate_content` of `crates/gitility-core/src/diff.rs`: both blobs are read, and their hunks are assembled from
what `gix-diff` hands over, or from the two sides alone when the type of the entry has changed. The counters of
hunks and lines are shared by all files of a diff; they count what the result holds, so they do not saturate.
-/

namespace Gitility.Diff

/-- `diff.rs` `DiffFormat`. -/
inductive DiffFormat where
  | summary
  | stats
  | patch
  deriving DecidableEq, Repr

/-- `diff.rs` `RenameTracking`. -/
inductive RenameTracking where
  | disabled
  | similarity
  deriving DecidableEq, Repr

/-- The part of `diff.rs` `DiffOptions` that the walk of the trees reads. -/
structure TreeDiffOptions where
  pathspecs : List Bytes := []
  renames : RenameTracking := .disabled
  maxDiffFiles : ℕ := 1000
  maxObjectBytes : ℕ := 4 * 1024 * 1024

/-- `diff.rs` `DiffOptions`. -/
structure DiffOptions extends TreeDiffOptions where
  format : DiffFormat := .patch
  contextLines : ℕ := 3
  copies : Bool := false
  maxDiffHunks : ℕ := 10000
  maxDiffLines : ℕ := 100000

/-- `diff.rs` `DiffStatus`. -/
inductive DiffStatus where
  | added
  | deleted
  | modified
  | renamed
  | copied
  | typeChanged
  deriving DecidableEq, Repr

/-- `diff.rs` `DiffLineOrigin`. -/
inductive DiffLineOrigin where
  | context
  | addition
  | deletion
  deriving DecidableEq, Repr

/-- `diff.rs` `DiffLine`. -/
structure DiffLine where
  origin : DiffLineOrigin
  content : Bytes
  oldLine : Option ℕ
  newLine : Option ℕ
  noNewline : Bool
  deriving DecidableEq

/-- `diff.rs` `DiffHunk`; its `header` is always `None`. -/
structure DiffHunk where
  oldStart : ℕ
  oldLines : ℕ
  newStart : ℕ
  newLines : ℕ
  header : Option Bytes
  lines : List DiffLine
  deriving DecidableEq

/-- `diff.rs` `DiffFile`. -/
structure DiffFile where
  status : DiffStatus
  oldPath : Option Bytes
  newPath : Option Bytes
  oldOid : Option Oid
  newOid : Option Oid
  oldMode : Option ℕ
  newMode : Option ℕ
  similarity : Option ℕ
  additions : Option ℕ
  deletions : Option ℕ
  binary : Bool
  hunks : List DiffHunk
  deriving DecidableEq

/-! ### What `gix-diff` hands over -/

/-- `gix_diff::blob::unified_diff::DiffLineKind`. -/
inductive DiffLineKind where
  | context
  | add
  | remove
  deriving DecidableEq, Repr

/-- `gix_diff::blob::unified_diff::HunkHeader`. -/
structure HunkHeader where
  beforeHunkStart : ℕ
  beforeHunkLen : ℕ
  afterHunkStart : ℕ
  afterHunkLen : ℕ
  deriving DecidableEq

/-- The arguments of one call of `consume_hunk`. -/
abbrev Window := HunkHeader × List (DiffLineKind × Bytes)

/-- `diff_with_slider_heuristics` of two token lists: the two counts, and the windows that `UnifiedDiff` hands
over one by one for a width of context. -/
structure BlobDiff where
  additions : ℕ
  removals : ℕ
  windows : ℕ → List Window

/-- The histogram algorithm on the lines of both sides. -/
abbrev GixBlobDiff := List Bytes → List Bytes → BlobDiff

/-! ### Lines -/

/-- `LinesWithLf`. -/
def linesWithLf (data : Bytes) : List Bytes := lines 0x0a data

/-- `line_count`. -/
def lineCount (data : Bytes) : ℕ := min (linesWithLf data).length u32Max

/-- `lacks_trailing_newline`. -/
def lacksTrailingNewline (data : Bytes) : Bool := data ≠ [] ∧ data.getLast? ≠ some 0x0a

/-- `zero_side_start`. -/
def zeroSideStart (start lines : ℕ) : ℕ := if lines = 0 then start - 1 else start

/-- `content.strip_suffix(b"\n").unwrap_or(content)`. -/
def stripNewline (content : Bytes) : Bytes :=
  if content.getLast? = some 0x0a then content.dropLast else content

/-- `saturating_add(1)` of a `u32`. -/
def nextLine (line : ℕ) : ℕ := min (line + 1) u32Max

/-! ### Reading -/

/-- `diff.rs` `BlobRead`. -/
inductive BlobRead where
  | data (payload : Bytes)
  | oversize
  deriving DecidableEq

/-- The header that `read_diff_blob` accepts, with `validate_blob_header`. -/
def diffBlobHeader (oid : Oid) : Option HeaderRead → Except Error ObjectHeader
  | none => .error (missingObject oid "blob header")
  | some read =>
    if read.header.kind = .blob then .ok read.header
    else .error (match read.provenance with
      | .unverifiedProvider =>
        (Error.new .providerProtocolError "provider header contradicts tree entry kind").withOid oid
      | .verified => Search.notABlob oid)

/-- The payload that `read_diff_blob` accepts. -/
def diffBlob (oid : Oid) : Option Object → Except Error Bytes
  | none => .error (missingObject oid "blob")
  | some (kind, payload) => do
    ensure (kind = .blob) (Search.notABlob oid)
    return payload

/-- `read_diff_blob`. -/
def readDiffBlob (maxBytes : ℕ) : Option Oid → Query BlobRead
  | none => return .data []
  | some oid => do
    let read ← Query.tryHeaderWithProvenance oid
    let header ← Program.ofExcept (diffBlobHeader oid read)
    if maxBytes < header.size then return .oversize
    else do
      let found ← Query.tryFind oid
      let payload ← Program.ofExcept (diffBlob oid found)
      if maxBytes < payload.length then return .oversize else return .data payload

/-- `DIFF_CHECK_BYTES`. -/
def diffCheckBytes : ℕ := 64 * 1024

/-- A number of budget checks. -/
def checks : ℕ → Query Unit
  | 0 => pure ()
  | n + 1 => do
    Query.check
    checks n

/-- `check_comparison_cadence`: a check for each chunk of both sides, and one more. -/
def checkComparisonCadence (old new : Bytes) : Query Unit := do
  checks ((old.length + diffCheckBytes - 1) / diffCheckBytes)
  checks ((new.length + diffCheckBytes - 1) / diffCheckBytes)
  Query.check

/-! ### Hunks -/

/-- `hunks_used` and `lines_used`. -/
structure Used where
  hunks : ℕ := 0
  lines : ℕ := 0
  deriving DecidableEq

/-- The limit that a hunk of so many lines would exceed, if any. -/
def Used.exceeds (used : Used) (opts : DiffOptions) (lines : ℕ) : Option String :=
  if used.hunks = opts.maxDiffHunks then some "max_diff_hunks"
  else if opts.maxDiffLines < used.lines + lines then some "max_diff_lines"
  else none

/-- The counters behind a hunk of so many lines. -/
def Used.add (used : Used) (lines : ℕ) : Used := ⟨used.hunks + 1, used.lines + lines⟩

/-- `PopulateOutcome`. -/
inductive PopulateOutcome where
  | complete
  | oversize
  | stopped (limit : String)
  deriving DecidableEq

/-- What `HunkCollector` knows about the two sides. -/
structure HunkCollector where
  oldFinalLine : ℕ
  newFinalLine : ℕ
  oldLacksNewline : Bool
  newLacksNewline : Bool

namespace HunkCollector

/-- The collector of `populate_content`. -/
def ofSides (old new : Bytes) : HunkCollector where
  oldFinalLine := lineCount old
  newFinalLine := lineCount new
  oldLacksNewline := lacksTrailingNewline old
  newLacksNewline := lacksTrailingNewline new

variable (collector : HunkCollector)

/-- One line of `consume_hunk`, and the line numbers behind it. -/
def line (oldLine newLine : ℕ) (content : Bytes) : DiffLineKind → DiffLine × ℕ × ℕ
  | .context =>
    (⟨.context, stripNewline content, some oldLine, some newLine,
      (collector.oldLacksNewline ∧ oldLine = collector.oldFinalLine) ∨
        (collector.newLacksNewline ∧ newLine = collector.newFinalLine)⟩, nextLine oldLine, nextLine newLine)
  | .add =>
    (⟨.addition, stripNewline content, none, some newLine,
      collector.newLacksNewline ∧ newLine = collector.newFinalLine⟩, oldLine, nextLine newLine)
  | .remove =>
    (⟨.deletion, stripNewline content, some oldLine, none,
      collector.oldLacksNewline ∧ oldLine = collector.oldFinalLine⟩, nextLine oldLine, newLine)

/-- The loop of `consume_hunk`. -/
def collectLines : ℕ → ℕ → List (DiffLineKind × Bytes) → Query (List DiffLine)
  | _, _, [] => return []
  | oldLine, newLine, (kind, content) :: rest => do
    Query.check
    let (line, oldLine, newLine) := collector.line oldLine newLine content kind
    let lines ← collectLines oldLine newLine rest
    return line :: lines

/-- `consume_hunk`: the hunk of a window, or the limit that stops the collection. -/
def consumeHunk (opts : DiffOptions) (used : Used) (window : Window) : Query (Except String DiffHunk) := do
  let (header, lines) := window
  Query.check
  match used.exceeds opts lines.length with
  | some limit => return .error limit
  | none => do
    let output ← collector.collectLines header.beforeHunkStart header.afterHunkStart lines
    return .ok {
      oldStart := zeroSideStart header.beforeHunkStart header.beforeHunkLen
      oldLines := header.beforeHunkLen
      newStart := zeroSideStart header.afterHunkStart header.afterHunkLen
      newLines := header.afterHunkLen
      header := none
      lines := output }

/-- `UnifiedDiff::consume` with this collector: the windows until one is refused. -/
def consume (opts : DiffOptions) : List Window → Used → List DiffHunk →
    Query (List DiffHunk × Used × PopulateOutcome)
  | [], used, hunks => return (hunks, used, .complete)
  | window :: windows, used, hunks => do
    match ← collector.consumeHunk opts used window with
    | .error limit => return (hunks, used, .stopped limit)
    | .ok hunk => consume opts windows (used.add window.2.length) (hunks ++ [hunk])

end HunkCollector

/-- The lines of a type change from an index on. -/
def typeChangeLines (origin : DiffLineOrigin) (lacksNewline : Bool) (count : ℕ) :
    ℕ → List Bytes → Query (List DiffLine)
  | _, [] => return []
  | index, content :: rest => do
    Query.check
    let number := min (index + 1) u32Max
    let lines ← typeChangeLines origin lacksNewline count (index + 1) rest
    return {
      origin
      content := stripNewline content
      oldLine := if origin = .deletion then some number else none
      newLine := if origin = .addition then some number else none
      noNewline := lacksNewline ∧ number = count } :: lines

/-- The hunk of one side of a type change. -/
def pureSideHunk (origin : DiffLineOrigin) (count : ℕ) (lines : List DiffLine) : DiffHunk :=
  if origin = .deletion then ⟨zeroSideStart 1 count, count, 0, 0, none, lines⟩
  else ⟨0, 0, zeroSideStart 1 count, count, none, lines⟩

/-- The loop of `populate_type_change_hunks` over the sides. -/
def typeChangeHunks (opts : DiffOptions) : List (DiffLineOrigin × Bytes) → Used → List DiffHunk →
    Query (List DiffHunk × Used × PopulateOutcome)
  | [], used, hunks => return (hunks, used, .complete)
  | (origin, data) :: sides, used, hunks => do
    Query.check
    let count := lineCount data
    match used.exceeds opts count with
    | some limit => return (hunks, used, .stopped limit)
    | none => do
      let lines ← typeChangeLines origin (lacksTrailingNewline data) count 0 (linesWithLf data)
      typeChangeHunks opts sides (used.add count) (hunks ++ [pureSideHunk origin count lines])

/-- The hunks of a file, and how they end. -/
def DiffFile.withHunks (file : DiffFile) (result : List DiffHunk × Used × PopulateOutcome) :
    DiffFile × Used × PopulateOutcome := ({ file with hunks := result.1 }, result.2)

/-- `populate_content` from the two payloads on. -/
def populateData (gix : GixBlobDiff) (opts : DiffOptions) (file : DiffFile) (used : Used) (old new : Bytes) :
    Query (DiffFile × Used × PopulateOutcome) :=
  if Search.isBinaryPayload old ∨ Search.isBinaryPayload new then
    return ({ file with binary := true }, used, .complete)
  else do
    checkComparisonCadence old new
    if file.status = .typeChanged ∧ opts.format = .patch then
      let file := { file with additions := some (lineCount new), deletions := some (lineCount old) }
      file.withHunks <$> typeChangeHunks opts [(.deletion, old), (.addition, new)] used file.hunks
    else
      let computed := gix (linesWithLf old) (linesWithLf new)
      let file := { file with additions := some computed.additions, deletions := some computed.removals }
      if opts.format = .stats then return (file, used, .complete)
      else file.withHunks <$>
        (HunkCollector.ofSides old new).consume opts (computed.windows opts.contextLines) used []

/-- `populate_content`. -/
def populateContent (gix : GixBlobDiff) (opts : DiffOptions) (file : DiffFile) (used : Used) :
    Query (DiffFile × Used × PopulateOutcome) :=
  if file.oldOid = file.newOid then
    return ({ file with additions := some 0, deletions := some 0 }, used, .complete)
  else do
    let old ← readDiffBlob opts.maxObjectBytes file.oldOid
    let new ← readDiffBlob opts.maxObjectBytes file.newOid
    match old, new with
    | .data old, .data new => populateData gix opts file used old new
    | _, _ => return (file, used, .oversize)

end Gitility.Diff
