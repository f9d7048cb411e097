import Gitility.Store.ObjectDb

/-!
# Commit payloads

The parts of `crates/gitility-core/src/log.rs` and `crates/gitility-core/src/decode.rs` that
read one commit: header lines, identities, and the two decoders the history queries use. A
walk needs a commit's parents and committer time (`readMeta`, which prunes the parents); an
emitted commit is decoded in full (`decodeLogCommit`).

Timestamps and object IDs are validated as UTF-8 before they are parsed; both parsers accept
ASCII only, so the model parses the bytes.
-/

namespace Gitility

/-- `log.rs` `LogOrder`. -/
inductive LogOrder where
  | chronological
  | topological
  | dateOrder
  deriving DecidableEq, Repr

/-- The part of `log.rs` `LogOptions` that the walks read; `untilTime` is its `until`. -/
structure WalkOptions where
  order : LogOrder := .chronological
  firstParent : Bool := false
  since : Option ℤ := none
  untilTime : Option ℤ := none

/-- `log.rs` `LogOptions`. -/
structure LogOptions extends WalkOptions where
  limit : ℕ := 1000
  cursor : Option Bytes := none

/-- `decode.rs` `Identity`. -/
structure Identity where
  name : Bytes
  email : Bytes
  time : ℤ
  tz : Bytes
  deriving DecidableEq

/-- `log.rs` `LogIdentity`. -/
structure LogIdentity extends Identity where
  tzOffsetMinutes : Option ℤ
  deriving DecidableEq

/-- `log.rs` `LogCommit`. -/
structure LogCommit where
  id : Oid
  parents : List Oid
  treeId : Oid
  author : LogIdentity
  committer : LogIdentity
  subject : Bytes
  subjectTruncated : Bool
  messageRaw : Bytes
  messageTruncated : Bool
  signatureHeaders : List Bytes
  encoding : Option Bytes
  deriving DecidableEq

/-- `log.rs` `CommitMeta`. -/
structure CommitMeta where
  parents : List Oid
  time : ℤ
  deriving DecidableEq

/-- `log.rs` `malformed_for`. -/
def malformedFor (oid : Oid) (message : String) : Error := (malformed message).withOid oid

/-! ### Numbers and object IDs in text -/

/-- `u8::is_ascii_digit`. -/
def isDigit (byte : UInt8) : Bool := 0x30 ≤ byte ∧ byte ≤ 0x39

/-- A nonempty run of decimal digits. -/
def decimal (digits : Bytes) : Option ℕ :=
  if digits ≠ [] ∧ digits.all isDigit then
    some (digits.foldl (fun value digit ↦ value * 10 + (digit.toNat - 0x30)) 0)
  else none

/-- `str::parse::<i64>`. -/
def parseI64 (text : Bytes) : Option ℤ :=
  match text with
  | 0x2d :: digits => do
    let value ← decimal digits
    if value ≤ 2 ^ 63 then some (-value) else none
  | 0x2b :: digits => do
    let value ← decimal digits
    if value < 2 ^ 63 then some value else none
  | digits => do
    let value ← decimal digits
    if value < 2 ^ 63 then some value else none

/-- `log.rs` `parse_oid`. -/
def parseOid (raw : Bytes) (kind : HashKind) (field : String) (object : Oid) :
    Except Error Oid :=
  match Oid.parseHex raw with
  | .ok oid => if oid.kind = kind then .ok oid else .error (malformedFor object field)
  | .error _ => .error (malformedFor object field)

/-! ### Identities -/

/-- `u8::is_ascii_whitespace`. -/
def isAsciiWhitespace (byte : UInt8) : Bool := byte ∈ [0x20, 0x09, 0x0a, 0x0c, 0x0d]

/-- `ok_or_else(|| malformed(message))`. -/
def orMalformed {α : Type} (value : Option α) (message : String) : Except Error α :=
  value.elim (.error (malformed message)) .ok

/-- `strip_prefix(b" ")`. -/
def stripSpace : Bytes → Option Bytes
  | 0x20 :: rest => some rest
  | _ => none

/-- `log.rs` `identity_time`. -/
def identityTime (raw : Bytes) : Except Error ℤ := do
  let right ← orMalformed (Bytes.rposition (· = 0x3e) raw) "commit identity is malformed"
  let suffix ← orMalformed (stripSpace (raw.drop (right + 1)))
    "commit identity is missing its timestamp"
  orMalformed (parseI64 (suffix.takeWhile (· ≠ 0x20))) "commit identity timestamp is malformed"

/-- `decode.rs` `decode_identity`. -/
def decodeIdentity (raw : Bytes) : Except Error Identity := do
  let left ← orMalformed (raw.findIdx? (· = 0x3c)) "identity is missing an opening angle bracket"
  let offset ← orMalformed ((raw.drop (left + 1)).findIdx? (· = 0x3e))
    "identity is missing a closing angle bracket"
  let right := left + 1 + offset
  let nameEnd := (Bytes.rposition (!isAsciiWhitespace ·) (raw.take left)).elim 0 (· + 1)
  let suffix ← orMalformed (stripSpace (raw.drop (right + 1))) "identity is missing its timestamp"
  let timeSeparator ← orMalformed (suffix.findIdx? (· = 0x20)) "identity is missing its timezone"
  let timeBytes := suffix.take timeSeparator
  let tz := suffix.drop (timeSeparator + 1)
  ensure (timeBytes ≠ [] ∧ tz ≠ [] ∧ 0x20 ∉ tz ∧ 0x09 ∉ tz)
    (malformed "identity timestamp or timezone is malformed")
  let time ← orMalformed (parseI64 timeBytes) "identity timestamp is malformed"
  return { name := raw.take nameEnd, email := (raw.take right).drop (left + 1), time, tz }

/-- `log.rs` `timezone_offset_minutes`. -/
def timezoneOffsetMinutes (tz : Bytes) : Option ℤ :=
  match tz with
  | [sign, h1, h2, m1, m2] =>
    if (sign = 0x2b ∨ sign = 0x2d) ∧ [h1, h2, m1, m2].all isDigit then
      let hours := (h1.toNat - 0x30) * 10 + (h2.toNat - 0x30)
      let minutes := (m1.toNat - 0x30) * 10 + (m2.toNat - 0x30)
      if hours ≥ 24 ∨ minutes ≥ 60 then none
      else some (if sign = 0x2d then -((hours * 60 + minutes : ℕ) : ℤ) else hours * 60 + minutes)
    else none
  | _ => none

/-- `log.rs` `log_identity`. -/
def logIdentity (identity : Identity) : LogIdentity :=
  { identity with tzOffsetMinutes := timezoneOffsetMinutes identity.tz }

/-! ### Header lines -/

/-- `windows(2).position(|window| window == b"\n\n")`. -/
def messageSeparator : Bytes → Option ℕ
  | a :: b :: rest =>
    if a = 0x0a ∧ b = 0x0a then some 0 else (messageSeparator (b :: rest)).map (· + 1)
  | _ => none

/-- `log.rs` `split_commit`. -/
def splitCommit (payload : Bytes) : Except Error (Bytes × Bytes) := do
  let separator ← orMalformed (messageSeparator payload)
    "commit payload has no message separator"
  return (payload.take separator, payload.drop (separator + 2))

/-- `log.rs` `split_header`. -/
def splitHeader (line : Bytes) : Except Error (Bytes × Bytes) := do
  let separator ← orMalformed (line.findIdx? (· = 0x20)) "commit header is malformed"
  ensure (separator ≠ 0 ∧ separator + 1 < line.length) (malformed "commit header is malformed")
  return (line.take separator, line.drop (separator + 1))

/-- The header lines of a payload that are not continuation lines. -/
def headerLines (headers : Bytes) : List Bytes :=
  (headers.splitOn 0x0a).filter fun line ↦ line.head? ≠ some 0x20

/-- `map_err(|error| error.with_oid_if_none(id))`. -/
def atOid {α : Type} (id : Oid) (x : Except Error α) : Except Error α :=
  x.mapError (·.withOidIfNone id)

/-- The loop body of `log.rs` `read_meta`. -/
def metaHeader (id : Oid) (found : List Oid × Option ℤ) (line : Bytes) :
    Except Error (List Oid × Option ℤ) := do
  let (name, value) ← atOid id (splitHeader line)
  if name = Bytes.ascii "parent" then
    return (found.1 ++ [← parseOid value id.kind "commit parent" id], found.2)
  else if name = Bytes.ascii "committer" then
    return (found.1, some (← atOid id (identityTime value)))
  else return found

/-- What `log.rs` `read_meta` reads from a payload, before it prunes the parents. -/
def recordedMeta (id : Oid) (payload : Bytes) : Except Error CommitMeta := do
  let (headers, _) ← atOid id (splitCommit payload)
  let (parents, time) ← (headerLines headers).foldlM (metaHeader id) ([], none)
  match time with
  | some time => return { parents, time }
  | none => .error (malformedFor id "commit payload is missing its committer header")

/-- `store.shallow_roots().is_some_and(|roots| roots.contains(&id))`. -/
def StoreInfo.isShallow (info : StoreInfo) (id : Oid) : Bool :=
  info.shallowRoots.any (id ∈ ·)

/-- The pruning at the end of `log.rs` `read_meta`. -/
def CommitMeta.prune (info : StoreInfo) (opts : WalkOptions) (id : Oid) (found : CommitMeta) :
    CommitMeta :=
  if opts.since.any (found.time < ·) ∨ info.isShallow id then { found with parents := [] }
  else if opts.firstParent then { found with parents := found.parents.take 1 }
  else found

/-! ### Reads -/

/-- The checks `log.rs` `read_payload` makes on what the store found. -/
def commitPayload (id : Oid) (input : Bool) : Option Object → Except Error Bytes
  | none => .error
      { code := .missingObject
        message := s!"commit object {id} is missing from the object store"
        retryable := true
        objectOid := some id }
  | some (kind, payload) => do
    ensure (kind = .commit)
      ((Error.new (if input then .notACommit else .malformedObject)
        s!"object {id} reached by commit traversal is not a commit").withOid id)
    return payload

/-- `log.rs` `read_payload`. -/
def readPayload (id : Oid) (input : Bool) : Query Bytes := do
  let found ← (Query.tryFindGraph id).mapError (·.withOidIfNone id)
  Program.ofExcept (commitPayload id input found)

/-- `log.rs` `read_meta`. -/
def readMeta (info : StoreInfo) (opts : WalkOptions) (id : Oid) (input : Bool) :
    Query CommitMeta := do
  let payload ← readPayload id input
  let found ← Program.ofExcept (recordedMeta id payload)
  return found.prune info opts id

/-! ### Emitted commits -/

/-- `log.rs` `SUBJECT_BYTES`. -/
def subjectBytes : ℕ := 1024

/-- `log.rs` `MESSAGE_BYTES`. -/
def messageBytes : ℕ := 64 * 1024

/-- `log.rs` `is_signature_header`. -/
def isSignatureHeader (name : Bytes) : Bool :=
  name = Bytes.ascii "gpgsig" ∨ (Bytes.ascii "gpgsig-").isPrefixOf name

/-- The headers `log.rs` `decode_log_commit` collects. -/
structure CommitHeaders where
  treeId : Option Oid := none
  parents : List Oid := []
  author : Option Identity := none
  committer : Option Identity := none
  signatureHeaders : List Bytes := []
  encoding : Option Bytes := none

/-- The loop body of `log.rs` `decode_log_commit`. -/
def commitHeader (id : Oid) (found : CommitHeaders) (line : Bytes) :
    Except Error CommitHeaders := do
  let (name, value) ← atOid id (splitHeader line)
  if name = Bytes.ascii "tree" then
    return { found with treeId := some (← parseOid value id.kind "commit tree" id) }
  else if name = Bytes.ascii "parent" then
    return { found with parents := found.parents ++ [← parseOid value id.kind "commit parent" id] }
  else if name = Bytes.ascii "author" then
    return { found with author := some (← atOid id (decodeIdentity value)) }
  else if name = Bytes.ascii "committer" then
    return { found with committer := some (← atOid id (decodeIdentity value)) }
  else if name = Bytes.ascii "encoding" then
    return { found with encoding := some value }
  else if isSignatureHeader name then
    return { found with signatureHeaders := found.signatureHeaders ++ [name] }
  else return found

/-- `ok_or_else(|| malformed_for(id, message))`. -/
def orMalformedFor {α : Type} (value : Option α) (id : Oid) (message : String) : Except Error α :=
  value.elim (.error (malformedFor id message)) .ok

/-- `log.rs` `decode_log_commit`. -/
def decodeLogCommit (id : Oid) (payload : Bytes) (shallow : Bool) : Except Error LogCommit := do
  let (headers, message) ← atOid id (splitCommit payload)
  let subjectLen := (message.findIdx? (· = 0x0a)).getD message.length
  let found ← (headerLines headers).foldlM (commitHeader id) {}
  let treeId ← orMalformedFor found.treeId id "commit payload is missing its tree"
  let author ← orMalformedFor found.author id "commit payload is missing its author"
  let committer ← orMalformedFor found.committer id "commit payload is missing its committer"
  return {
    id
    parents := if shallow then [] else found.parents
    treeId
    author := logIdentity author
    committer := logIdentity committer
    subject := message.take (min subjectLen subjectBytes)
    subjectTruncated := subjectLen > subjectBytes
    messageRaw := message.take (min message.length messageBytes)
    messageTruncated := message.length > messageBytes
    signatureHeaders := found.signatureHeaders
    encoding := found.encoding }

/-- `commit_graph.rs` `ensure_sha1`. -/
def ensureSha1 (info : StoreInfo) (oids : List Oid) : Except Error Unit := do
  ensure (info.hashKind ≠ .sha256)
    (.new .unsupportedHash "SHA-256 query execution not yet supported")
  ensure (∀ oid ∈ oids, oid.kind = info.hashKind)
    (.new .invalidOid "commit object ID algorithm does not match the object store")

end Gitility
