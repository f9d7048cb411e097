import Gitility.Tree.Entries

/-!
# Scanning one blob

The part of `crates/gitility-core/src/search.rs` that reads a blob and finds its matching lines.
A scan keeps byte spans only; the bytes of a match are cut from the payload when it is emitted.
The compiled matcher is a function from a line to its occurrences, in the order it visits them.
-/

namespace Gitility

/-- `search.rs` `SearchMode`. -/
inductive SearchMode where
  | literal
  | regex
  deriving DecidableEq

/-- The byte of a mode in the option fingerprint. -/
def SearchMode.tag : SearchMode → UInt8
  | .literal => 0
  | .regex => 1

/-- `search.rs` `SearchBinaryMode`. -/
inductive SearchBinaryMode where
  | skip
  | text
  deriving DecidableEq

/-- The byte of a binary mode in the option fingerprint. -/
def SearchBinaryMode.tag : SearchBinaryMode → UInt8
  | .skip => 0
  | .text => 1

/-- The part of `search.rs` `SearchOptions` that selects matches. -/
structure SearchQuery where
  mode : SearchMode := .literal
  caseSensitive : Bool := true
  path : Bytes := []
  pathspecs : List Bytes := []
  binary : SearchBinaryMode := .skip
  contextLines : ℕ := 0

/-- `search.rs` `SearchSubmatch`. -/
structure SearchSubmatch where
  start : ℕ
  length : ℕ
  deriving DecidableEq

/-- `search.rs` `SearchMatch`. -/
structure SearchMatch where
  commitOid : Oid
  blobOid : Oid
  path : Bytes
  line : ℕ
  column : ℕ
  preview : Bytes
  previewTruncated : Bool
  submatches : List SearchSubmatch
  submatchesTruncated : Bool
  contextBefore : List Bytes
  contextAfter : List Bytes
  deriving DecidableEq

/-- `CompiledMatcher`: the occurrences in a line, each with its start and its end. -/
abbrev CompiledMatcher := Bytes → List (ℕ × ℕ)

/-- `search.rs` `ByteSpan`. -/
structure ByteSpan where
  start : ℕ
  stop : ℕ
  deriving DecidableEq

/-- `search.rs` `CachedLineMatch`. -/
structure CachedLineMatch where
  line : ℕ
  column : ℕ
  preview : ByteSpan
  lineEnd : ℕ
  contextBefore : Option ByteSpan
  contextAfter : Option ByteSpan
  deriving DecidableEq

/-- `search.rs` `CachedScan`. -/
inductive CachedScan where
  | found (lines : List CachedLineMatch)
  | binarySkipped
  | oversizeSkipped
  deriving DecidableEq

/-- `CachedScan::cache_weight`. -/
def CachedScan.cacheWeight : CachedScan → ℕ
  | .found lines => max (min lines.length u64Max) 1
  | .binarySkipped | .oversizeSkipped => 1

/-- `search.rs` `ScannedBlob`. -/
structure ScannedBlob where
  scan : CachedScan
  payload : Option Bytes

namespace Search

/-- `search.rs` `BINARY_PROBE_BYTES`. -/
def binaryProbeBytes : ℕ := 8000
/-- `search.rs` `PREVIEW_BYTES`. -/
def previewBytes : ℕ := 1024
/-- `search.rs` `SCAN_CHECK_BYTES`. -/
def scanCheckBytes : ℕ := 64 * 1024
/-- `search.rs` `MAX_SUBMATCHES`. -/
def maxSubmatches : ℕ := 256

/-- `search.rs` `result_too_large`. -/
def resultTooLarge : Error :=
  (Error.new .resultTooLarge "search match position exceeds the supported result range").withLimit
    "max_result_bytes"

/-- `search.rs` `missing_blob`. -/
def missingBlob (oid : Oid) : Error :=
  { Error.new .missingObject s!"blob object {oid} is missing from the object store" with
    retryable := true, objectOid := some oid }

/-- The error of a tree entry that calls a blob what the store has as another kind. -/
def notABlob (oid : Oid) : Error :=
  (malformed s!"tree blob {oid} addresses a non-blob object").withOid oid

/-- `u32::try_from(value).map_err(|_| result_too_large())`. -/
def toU32 (value : ℕ) : Except Error ℕ := do
  ensure (value ≤ u32Max) resultTooLarge
  return value

/-- `ByteSpan::new`. -/
def byteSpan (start stop : ℕ) : Except Error ByteSpan := do
  let start ← toU32 start
  let stop ← toU32 stop
  return ⟨start, stop⟩

/-- The slice `payload[start..stop]`. -/
def slice (payload : Bytes) (start stop : ℕ) : Bytes := (payload.take stop).drop start

/-! ### Lines -/

/-- The bytes of one chunk of `line_spans`: the spans that end in it and the start of the next. -/
def spansOfChunk : Bytes → ℕ → ℕ → List (ℕ × ℕ) → List (ℕ × ℕ) × ℕ
  | [], _, start, spans => (spans, start)
  | byte :: rest, index, start, spans =>
    if byte = 0x0a then spansOfChunk rest (index + 1) (index + 1) (spans ++ [(start, index)])
    else spansOfChunk rest (index + 1) start spans

/-- The loop of `line_spans`. -/
def lineSpansLoop (payload : Bytes) : ℕ → ℕ → ℕ → List (ℕ × ℕ) → Query (List (ℕ × ℕ))
  | 0, _, _, _ => Program.diverge
  | fuel + 1, chunkStart, start, spans =>
    if chunkStart < payload.length then do
      Query.check
      let chunkEnd := min (chunkStart + scanCheckBytes) payload.length
      let (spans, start) := spansOfChunk (slice payload chunkStart chunkEnd) chunkStart start spans
      lineSpansLoop payload fuel chunkEnd start spans
    else pure (if start < payload.length then spans ++ [(start, payload.length)] else spans)

/-- `search.rs` `line_spans`. -/
def lineSpans (payload : Bytes) : Query (List (ℕ × ℕ)) :=
  lineSpansLoop payload (payload.length + 1) 0 0 []

/-- `CompiledMatcher::first_occurrence`. -/
def firstOccurrence (matcher : CompiledMatcher) (line : Bytes) : Option (ℕ × ℕ) :=
  (matcher line).head?

/-- The lines `first` to `stop` as one span, when there are any. -/
def contextSpan (spans : List (ℕ × ℕ)) (first stop : ℕ) : Query (Option ByteSpan) :=
  if first < stop then do
    let opening ← Program.unwrap spans[first]?
    let closing ← Program.unwrap spans[stop - 1]?
    let span ← Program.ofExcept (byteSpan opening.1 closing.2)
    return some span
  else pure none

/-- The record `scan_payload` keeps of a matching line. -/
def cacheLine (spans : List (ℕ × ℕ)) (contextLines index start stop firstStart : ℕ) :
    Query CachedLineMatch := do
  let line ← Program.ofExcept (toU32 (index + 1))
  let column ← Program.ofExcept (toU32 firstStart)
  let preview ← Program.ofExcept (byteSpan start (start + min (stop - start) previewBytes))
  let lineEnd ← Program.ofExcept (toU32 stop)
  let contextBefore ← contextSpan spans (index - contextLines) index
  let contextAfter ← contextSpan spans (index + 1) (min (index + 1 + contextLines) spans.length)
  return ⟨line, column, preview, lineEnd, contextBefore, contextAfter⟩

/-- The loop of `scan_payload`. -/
def scanLines (payload : Bytes) (matcher : CompiledMatcher) (contextLines : ℕ)
    (spans : List (ℕ × ℕ)) : ℕ → List (ℕ × ℕ) → Query (List CachedLineMatch)
  | _, [] => pure []
  | index, (start, stop) :: rest => do
    Query.check
    match firstOccurrence matcher (slice payload start stop) with
    | none => scanLines payload matcher contextLines spans (index + 1) rest
    | some (firstStart, _) => do
      let line ← cacheLine spans contextLines index start stop firstStart
      let lines ← scanLines payload matcher contextLines spans (index + 1) rest
      return line :: lines

/-- `search.rs` `scan_payload`. -/
def scanPayload (payload : Bytes) (matcher : CompiledMatcher) (contextLines : ℕ) :
    Query (List CachedLineMatch) := do
  let spans ← lineSpans payload
  scanLines payload matcher contextLines spans 0 spans

/-! ### Blobs -/

/-- `search.rs` `is_binary_payload`. -/
def isBinaryPayload (payload : Bytes) : Bool := 0 ∈ payload.take binaryProbeBytes

/-- What `read_blob_payload` makes of the store's answer; an object that is too large is a skip. -/
def blobPayload (oid : Oid) : Except Error (Option Object) → Except Error (Option Bytes)
  | .ok none => .error (missingBlob oid)
  | .ok (some (kind, payload)) => do
    ensure (kind = .blob) (notABlob oid)
    return some payload
  | .error error => if error.code = .objectTooLarge then .ok none else .error error

/-- `search.rs` `read_blob_payload`. -/
def readBlobPayload (oid : Oid) : Query (Option Bytes) := do
  let found ← (Query.tryFindGraph oid).attempt
  Program.ofExcept (blobPayload oid found)

/-- The header check of `scan_blob`. -/
def blobHeader (oid : Oid) : Option HeaderRead → Except Error ObjectHeader
  | none => .error (missingBlob oid)
  | some read =>
    if read.header.kind = .blob then .ok read.header
    else .error (match read.provenance with
      | .unverifiedProvider =>
        (Error.new .providerProtocolError "provider header contradicts tree entry kind").withOid oid
      | .verified => notABlob oid)

/-- `scan_blob` from the payload on. -/
def scanRead (matcher : CompiledMatcher) (query : SearchQuery) :
    Option Bytes → Query ScannedBlob
  | none => pure ⟨.oversizeSkipped, none⟩
  | some payload => do
    Query.check
    if query.binary = .skip ∧ isBinaryPayload payload then return ⟨.binarySkipped, some payload⟩
    else do
      let lines ← scanPayload payload matcher query.contextLines
      return ⟨.found lines, some payload⟩

/-- `search.rs` `scan_blob`, under the budget's `max_object_bytes`. -/
def scanBlob (matcher : CompiledMatcher) (query : SearchQuery) (maxObjectBytes : ℕ) (oid : Oid) :
    Query ScannedBlob := do
  Query.check
  let read ← Query.tryHeaderWithProvenance oid
  let header ← Program.ofExcept (blobHeader oid read)
  if maxObjectBytes < header.size then return ⟨.oversizeSkipped, none⟩
  else do
    let payload ← readBlobPayload oid
    scanRead matcher query payload

/-! ### Matches -/

/-- The closure `retain` of `preview_submatches`, over the occurrences in their order. -/
def retain (previewLen : ℕ) :
    List (ℕ × ℕ) → List SearchSubmatch → List SearchSubmatch × Bool
  | [], kept => (kept, false)
  | (start, stop) :: rest, kept =>
    if previewLen ≤ start ∨ kept.length = maxSubmatches then (kept, true)
    else retain previewLen rest
      (kept ++ [⟨min start u32Max, min (min stop previewLen - start) u32Max⟩])

/-- `CompiledMatcher::preview_submatches`. -/
def previewSubmatches (matcher : CompiledMatcher) (line : Bytes) (previewLen : ℕ) :
    List SearchSubmatch × Bool :=
  retain previewLen (matcher line) []

/-- `search.rs` `materialize_lines`. -/
def materializeLines (payload : Bytes) : Option ByteSpan → List Bytes
  | none => []
  | some span =>
    ((slice payload span.start span.stop).splitOn 0x0a).map (·.take previewBytes)

/-- The item `emit_matches` makes of a matching line. -/
def matchOf (snapshot : Snapshot) (matcher : CompiledMatcher) (path : Bytes) (blobOid : Oid)
    (payload : Bytes) (cached : CachedLineMatch) : SearchMatch :=
  let preview := slice payload cached.preview.start cached.preview.stop
  let (submatches, submatchesTruncated) :=
    previewSubmatches matcher (slice payload cached.preview.start cached.lineEnd) preview.length
  { commitOid := snapshot.commitOid
    blobOid
    path
    line := cached.line
    column := cached.column
    preview
    previewTruncated := cached.preview.stop < cached.lineEnd
    submatches
    submatchesTruncated
    contextBefore := materializeLines payload cached.contextBefore
    contextAfter := materializeLines payload cached.contextAfter }

end Search

/-- `SearchMatch::payload_bytes`. -/
def SearchMatch.payloadBytes (item : SearchMatch) : ℕ :=
  let context := ((item.contextBefore ++ item.contextAfter).map List.length).sum
  let byteVectors := saturatingAdd (saturatingAdd item.preview.length item.path.length) context
  let fixed := saturatingAdd (saturatingAdd (saturatingAdd item.commitOid.bytes.length
    item.blobOid.bytes.length) 16) (min (item.submatches.length * 32) u64Max)
  saturatingAdd byteVectors fixed

end Gitility
