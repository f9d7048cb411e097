import Gitility.Base.Lines
import Gitility.Base.Object
import Gitility.Base.Program

/-!
# Slices of a file

`slice_payload` of `crates/gitility-core/src/file.rs`: the bytes of a file that a read returns, under a line
range and a byte cap. A capped read scans the first bytes of the payload only, so its last line may be open.
-/

namespace Gitility

/-- `file.rs` `FileOptions`. -/
structure FileOptions where
  lines : Option (ℕ × ℕ) := none
  maxBytes : ℕ := 256000

/-- `file.rs` `SlicedPayload`. -/
structure SlicedPayload where
  data : Bytes
  startLine : Option ℕ
  endLine : Option ℕ
  totalLines : Option ℕ
  truncated : Bool
  stoppedBy : Option String
  deriving DecidableEq

namespace File

/-- The byte LF. -/
def lf : UInt8 := 0x0a

/-- The check that `read_file` makes on a line range. -/
def checkLines (opts : FileOptions) : Except Error Unit :=
  match opts.lines with
  | none => .ok ()
  | some (start, stop) => ensure (¬ (start = 0 ∨ stop = 0 ∨ stop < start))
      (.new .invalidArgument "line range must be 1-based and ordered")

/-- `file.rs` `too_many_lines`. -/
def tooManyLines : Error :=
  .new .resultTooLarge "file contains more lines than the result format can represent"

/-- `u32::try_from(count).map_err(|_| too_many_lines())`. -/
def toLine (count : ℕ) : Outcome Error ℕ :=
  if count ≤ u32Max then .ok count else .error tooManyLines

/-- `!bytes.is_empty() && !bytes.ends_with(b"\n")`. -/
def isOpen (bytes : Bytes) : Bool := bytes ≠ [] ∧ bytes.getLast? ≠ some lf

/-- `file.rs` `line_count`. -/
def lineCount (bytes : Bytes) : Outcome Error ℕ :=
  toLine (bytes.count lf + (isOpen bytes).toNat)

/-- The loop of `line_spans`: the spans that LFs end and the start of the next one. -/
def lineSpansLoop : Bytes → ℕ → ℕ → List (ℕ × ℕ) → List (ℕ × ℕ) × ℕ
  | [], _, start, spans => (spans, start)
  | byte :: rest, index, start, spans =>
    if byte = lf then lineSpansLoop rest (index + 1) (index + 1) (spans ++ [(start, index + 1)])
    else lineSpansLoop rest (index + 1) start spans

/-- `file.rs` `line_spans`. -/
def lineSpans (bytes : Bytes) : List (ℕ × ℕ) :=
  let (spans, start) := lineSpansLoop bytes 0 0 []
  if start < bytes.length then spans ++ [(start, bytes.length)] else spans

/-- The slice `payload[start..stop]`. -/
def slice (payload : Bytes) (start stop : ℕ) : Bytes := (payload.take stop).drop start

/-- A read without a line range. -/
def sliceWhole (payload scanned : Bytes) (capped : Bool) : Outcome Error SlicedPayload := do
  let returnedLen :=
    if capped ∧ isOpen scanned then
      match Bytes.rposition (· = lf) scanned with
      | some lastNewline => lastNewline + 1
      | none => scanned.length
    else scanned.length
  let totalLines ← if capped then pure none else some <$> lineCount payload
  return {
    data := scanned.take returnedLen
    startLine := none
    endLine := none
    totalLines
    truncated := capped
    stoppedBy := if capped then some "max_bytes" else none }

/-- A read of a line range that scans the whole payload. -/
def sliceRange (payload : Bytes) (requestedStart requestedEnd : ℕ) : Outcome Error SlicedPayload :=
  let spans := lineSpans payload
  let empty (total : ℕ) : SlicedPayload := ⟨[], none, none, some total, false, none⟩
  if spans = [] then .ok (empty 0)
  else do
    let total ← toLine spans.length
    if total < requestedStart then return empty total
    else
      let stop := min requestedEnd total
      match spans[requestedStart - 1]?, spans[stop - 1]? with
      | some first, some last =>
        return ⟨slice payload first.1 last.2, some requestedStart, some stop, some total, false, none⟩
      | _, _ => .diverged

/-- What the loop of a capped range read has taken. -/
structure Taken where
  data : Bytes := []
  startLine : Option ℕ := none
  endLine : Option ℕ := none
  deriving DecidableEq

/-- A line more. -/
def Taken.push (taken : Taken) (line : ℕ) (bytes : Bytes) : Taken where
  data := taken.data ++ bytes
  startLine := taken.startLine.or (some line)
  endLine := some line

/-- The loop of a capped range read. -/
def takeLines (scanned : Bytes) (requestedStart requestedEnd count : ℕ) (lastIsPartial : Bool) :
    ℕ → List (ℕ × ℕ) → Taken → Outcome Error Taken
  | _, [], taken => .ok taken
  | index, (start, stop) :: rest, taken => do
    let line ← toLine (index + 1)
    if line < requestedStart ∨ requestedEnd < line then
      takeLines scanned requestedStart requestedEnd count lastIsPartial (index + 1) rest taken
    else
      let incomplete := lastIsPartial ∧ index + 1 = count
      if incomplete ∧ taken.startLine.isSome then return taken
      else
        let taken := taken.push line (slice scanned start stop)
        if incomplete then return taken
        else takeLines scanned requestedStart requestedEnd count lastIsPartial (index + 1) rest taken

/-- A read of a line range under a cap that cuts the payload. -/
def sliceCapped (scanned : Bytes) (requestedStart requestedEnd : ℕ) : Outcome Error SlicedPayload := do
  let spans := lineSpans scanned
  let lastIsPartial := isOpen scanned
  let completeLines := spans.length - lastIsPartial.toNat
  let rangeCompleted := decide (requestedEnd ≤ completeLines)
  let taken ← takeLines scanned requestedStart requestedEnd spans.length lastIsPartial 0 spans {}
  return {
    data := taken.data
    startLine := taken.startLine
    endLine := taken.endLine
    totalLines := none
    truncated := ! rangeCompleted
    stoppedBy := if rangeCompleted then none else some "max_bytes" }

/-- `file.rs` `slice_payload`. -/
def slicePayload (payload : Bytes) (opts : FileOptions) : Outcome Error SlicedPayload :=
  let scanLen := min payload.length opts.maxBytes
  let capped := decide (scanLen < payload.length)
  match opts.lines with
  | none => sliceWhole payload (payload.take scanLen) capped
  | some (requestedStart, requestedEnd) =>
    if capped then sliceCapped (payload.take scanLen) requestedStart requestedEnd
    else sliceRange payload requestedStart requestedEnd

example : slicePayload (Bytes.ascii "a\nbc\nd") ⟨some (2, 3), 3⟩ =
    .ok ⟨Bytes.ascii "b", some 2, some 2, none, true, some "max_bytes"⟩ := by
  decide

end File
end Gitility
