import Gitility.Base.Runs
import Gitility.Bundle.Writer
import Gitility.Mirror.Metadata

/-!
# Publishing to an object store

`publish` of `lib/gitility/mirror.ex`: any number of calls on one key of a store with conditional
writes. A call reads the key's head, writes a bundle of the next generation, puts it on the condition
that the key is unchanged and, when the put failed, reads the head once more. The store applies a put
at any time after it was issued, also after its callback returned or was killed. Leases, temporary
files and `init` are left out.
-/

namespace Gitility.Mirror

open Gitility.Bundle

/-! ### Results -/

/-- `receipt.ex` `Receipt`. -/
structure Receipt where
  generation : ℕ
  etag : Bytes
  bytes : ℕ
  tipsDigest : Bytes
  refCount : ℕ
  fileCount : ℕ
  deriving DecidableEq

/-- An error of `publish` with its `details.indeterminate`. -/
structure PublishError where
  error : Error
  indeterminate : Option Bool := none
  deriving DecidableEq

/-- What `publish` returns. -/
inductive Result where
  | receipt (receipt : Receipt)
  | notNewer
  | error (error : PublishError)
  deriving DecidableEq

/-- An error that does not carry `indeterminate: true`. -/
def Result.Definite : Result → Prop
  | .error failure => failure.indeterminate ≠ some true
  | _ => False

/-- The reasons that an adapter may return. `other` is any other term. -/
inductive Reason where
  | notFound
  | preconditionFailed
  | unsupportedOperation (message : String)
  | invalidKey (message : String)
  | transport (reason : String)
  | http (status : ℕ) (code : Option String)
  | adapter (reason : String)
  | other
  deriving DecidableEq

/-- How a callback ends. `bad` is a return value of another shape. -/
inductive Callback (α : Type) where
  | ok (value : α)
  | error (reason : Reason)
  | bad
  | raised
  | killed

/-- `sanitize_provider_code`. -/
def sanitizeProviderCode (code : Option String) : Option String :=
  code.map fun code ↦ if 40 ≤ code.utf8ByteSize then "Redacted" else code

/-- `validate_adapter_reason` in the phase of a put. -/
def validatePutReason : Reason → Reason
  | .notFound | .other => .adapter "bad_return"
  | .http status code =>
    if 100 ≤ status ∧ status ≤ 599 then .http status (sanitizeProviderCode code)
    else .adapter "bad_return"
  | reason => reason

/-- `validate_adapter_reason` in the phase of a head. -/
def validateHeadReason : Reason → Reason
  | .preconditionFailed | .other => .adapter "bad_return"
  | .http status code =>
    if 100 ≤ status ∧ status ≤ 599 then .http status (sanitizeProviderCode code)
    else .adapter "bad_return"
  | reason => reason

/-- `adapter_error` in the phases of a head and of a put. -/
def adapterError : Reason → PublishError
  | .unsupportedOperation message => { error := .new .unsupportedOperation message }
  | .invalidKey _ => { error := .new .invalidArgument "object store rejected the key" }
  | .transport _ =>
    { error := { Error.new .backendError "object-store transport failed" with retryable := true } }
  | .http status _ =>
    if status = 408 ∨ status = 429 ∨ 500 ≤ status then
      { error :=
          { Error.new .backendError "object store returned a retryable HTTP error" with
            retryable := true } }
    else if status = 401 ∨ status = 403 then
      { error := .new .authenticationFailed "object-store authentication failed" }
    else { error := .new .backendError "object store returned an HTTP error" }
  | .adapter reason =>
    if reason = "credentials_unavailable" then
      { error := .new .credentialsUnavailable "credential provider was unavailable" }
    else { error := .new .backendError "object-store adapter failed" }
  | .notFound | .preconditionFailed | .other =>
    { error := .new .backendError "object-store adapter returned an invalid result" }

/-- `conflict_error`. -/
def conflictError : PublishError :=
  { error := { Error.new .conflict "object at key changed during publish" with retryable := true } }

/-- `transport_backend_error`. -/
def transportBackendError : PublishError :=
  { error := { Error.new .backendError "object-store PUT did not commit" with retryable := true } }

/-- `indeterminate_error`. -/
def indeterminateError : PublishError :=
  { error := { Error.new .backendError "object-store PUT outcome is indeterminate" with
      retryable := true }
    indeterminate := some true }

/-- `timeout_error`. -/
def timeoutError (indeterminate : Option Bool) : PublishError :=
  { error := .new .timeout "mirror publish deadline expired", indeterminate }

/-! ### The store -/

/-- A stored object. `toc` is the table of contents of its bytes, if they are a bundle. -/
structure Version where
  etag : Bytes
  size : ℕ
  metadata : Metadata
  toc : Option Toc

/-- What the first head of a call found. -/
structure Remote where
  generation : ℕ
  digest : Option Bytes
  etag : Option Bytes
  deriving DecidableEq

/-- The conditional put of a call. -/
structure Put where
  ifMatch : Option Bytes
  size : ℕ
  metadata : Metadata
  toc : Toc

/-- What became of a put. -/
inductive PutStatus where
  | inFlight
  | committed (etag : Bytes)
  deriving DecidableEq

/-- How the callback of a put ended. `failed` is every failure that is not read as a lost precondition,
a transport failure or a deadline. -/
inductive PutAnswer where
  | ok
  | precondition
  | transport
  | failed
  | killed
  deriving DecidableEq

/-- How far a call is. -/
inductive Phase where
  | started
  | headed (remote : Remote)
  | ready (remote : Remote) (toc : Toc)
  | putting (remote : Remote) (toc : Toc)
  | reconcilePrecondition (toc : Toc)
  | reconcileTransport (ifMatch : Option Bytes) (toc : Toc)
  | returned (result : Result)

/-- One call. The version that its first head saw, its bundle, the answer of its put and whether its
second head was answered are kept for the statements only. -/
structure Call where
  phase : Phase
  put : Option (Put × PutStatus) := none
  seen : Option Version := none
  bundle : Option Toc := none
  answer : Option PutAnswer := none
  reconciled : Option Bool := none

/-- The versions of the key, oldest first, and the calls on it. -/
structure Bucket where
  versions : List Version
  calls : List Call

namespace Bucket

/-- The current version. -/
def current (s : Bucket) : Option Version := s.versions.getLast?

/-- A call changes. -/
def advance (s : Bucket) (i : ℕ) (call : Call) : Bucket := { s with calls := s.calls.set i call }

/-- The answer of a head: the current version or a failure. -/
inductive HeadAnswer where
  | answered
  | failed (callback : Callback Empty)

/-- The steps. -/
inductive Move where
  | start
  | head (call : ℕ) (answer : HeadAnswer)
  | bundle (call : ℕ) (collected : Except Error Writer.Input)
  | issue (call : ℕ)
  | expire (call : ℕ)
  | apply (call : ℕ) (etag : Bytes)
  | answer (call : ℕ) (callback : Callback Bytes)
  | reconcile (call : ℕ) (answer : HeadAnswer)

/-- How `adapter_head` reports a failure: a deadline, or a reason. -/
def headFailure : Callback Empty → Option Reason
  | .error reason => some (validateHeadReason reason)
  | .bad => some (.adapter "bad_return")
  | .raised => some (.adapter "exception")
  | .killed => none

/-- `not_found` is an answer about the key, not a failure. -/
def HeadAnswer.allowed : HeadAnswer → Bool
  | .failed (.error .notFound) => false
  | _ => true

/-- `publish_remote_head` when its head failed. -/
def firstHeadError (callback : Callback Empty) : PublishError :=
  match headFailure callback with
  | some reason => adapterError reason
  | none => timeoutError (some false)

/-- `publish_remote_head` with `ensure_generation_available`. -/
def publishRemoteHead (current : Option Version) : Except PublishError Remote :=
  match current with
  | none => .ok ⟨0, none, none⟩
  | some version =>
    match validateRemoteMetadata version.metadata with
    | .ok metadata =>
      if metadata.generation = maximumGeneration then
        .error { error := .new .unsupportedOperation "generation space exhausted for key" }
      else .ok ⟨metadata.generation, some metadata.tipsDigest, some version.etag⟩
    | .error error => .error { error }

/-- `write_publish_bundle` after the snapshot was collected. -/
def writePublishBundle (sha256 : Bytes → Bytes) (generation : ℕ) (input : Writer.Input) :
    Except Error Toc := do
  let (receipt, file) ← Writer.write sha256 { input with generation }
  ensure (receipt.warnings = []) (.new .internalError "strict bundle snapshot returned warnings")
  parse sha256 file

/-- `reconcile_precondition`. -/
def reconcilePrecondition (digest : Bytes) (current : Option Version) : Result :=
  match current with
  | some version =>
    match validateRemoteMetadata version.metadata with
    | .ok metadata => if metadata.tipsDigest = digest then .notNewer else .error conflictError
    | .error error => .error { error }
  | none => .error conflictError

/-- `reconcile_transport`. -/
def reconcileTransport (ifMatch : Option Bytes) (generation : ℕ) (digest : Bytes)
    (current : Option Version) : Result :=
  match current with
  | some version =>
    match validateRemoteMetadata version.metadata with
    | .ok metadata =>
      if metadata.tipsDigest = digest ∧ metadata.generation = generation ∧
          (ifMatch = none ∨ some version.etag ≠ ifMatch) then
        .receipt ⟨metadata.generation, version.etag, version.size, metadata.tipsDigest,
          metadata.refCount, metadata.fileCount⟩
      else if ifMatch ≠ none ∧ some version.etag = ifMatch then .error transportBackendError
      else .error conflictError
    | .error error => .error { error }
  | none => if ifMatch = none then .error transportBackendError else .error conflictError

/-- `reconcile_precondition` when its head failed. -/
def preconditionHeadError (callback : Callback Empty) : PublishError :=
  match headFailure callback with
  | some reason => adapterError reason
  | none => timeoutError none

/-- `reconcile_transport` when its head failed. -/
def transportHeadError (callback : Callback Empty) : PublishError :=
  match headFailure callback with
  | some _ => indeterminateError
  | none => timeoutError (some true)

/-- The phase after the callback of a put ended, and how it ended. -/
def putAnswer (sha256 : Bytes → Bytes) (remote : Remote) (toc : Toc) :
    Callback Bytes → Phase × PutAnswer
  | .ok etag =>
    if etag = [] then (.returned (.error (adapterError (.adapter "bad_return"))), .failed)
    else
      (.returned (.receipt ⟨toc.generation, etag, toc.fileSize, tocDigest sha256 toc, toc.refs.length,
        toc.files.length⟩), .ok)
  | .error reason =>
    match validatePutReason reason with
    | .preconditionFailed => (.reconcilePrecondition toc, .precondition)
    | .transport _ => (.reconcileTransport remote.etag toc, .transport)
    | reason => (.returned (.error (adapterError reason)), .failed)
  | .bad => (.returned (.error (adapterError (.adapter "bad_return"))), .failed)
  | .raised => (.returned (.error (adapterError (.adapter "exception"))), .failed)
  | .killed => (.returned (.error (timeoutError (some true))), .killed)

/-- One step. -/
def step (sha256 : Bytes → Bytes) (s : Bucket) : Move → Option Bucket
  | .start => some { s with calls := s.calls ++ [{ phase := .started }] }
  | .head i answer => do
    guard answer.allowed
    let call ← s.calls[i]?
    match call.phase, answer with
    | .started, .answered =>
      match publishRemoteHead s.current with
      | .ok remote => some (s.advance i { call with phase := .headed remote, seen := s.current })
      | .error error => some (s.advance i { call with phase := .returned (.error error) })
    | .started, .failed callback =>
      some (s.advance i { call with phase := .returned (.error (firstHeadError callback)) })
    | _, _ => none
  | .bundle i collected => do
    let call ← s.calls[i]?
    match call.phase, collected with
    | .headed _, .error error => some (s.advance i { call with phase := .returned (.error { error }) })
    | .headed remote, .ok input =>
      match writePublishBundle sha256 (remote.generation + 1) input with
      | .error error => some (s.advance i { call with phase := .returned (.error { error }) })
      | .ok toc =>
        if some (tocDigest sha256 toc) = remote.digest then
          some (s.advance i { call with phase := .returned .notNewer, bundle := some toc })
        else
          match validateMetadata (bundleMetadata toc (tocDigest sha256 toc)) with
          | .error error =>
            some (s.advance i { call with phase := .returned (.error { error }), bundle := some toc })
          | .ok () => some (s.advance i { call with phase := .ready remote toc, bundle := some toc })
    | _, _ => none
  | .issue i => do
    let call ← s.calls[i]?
    match call.phase with
    | .ready remote toc =>
      some (s.advance i { call with
        phase := .putting remote toc
        put := some (⟨remote.etag, toc.fileSize, bundleMetadata toc (tocDigest sha256 toc), toc⟩,
          .inFlight) })
    | _ => none
  | .expire i => do
    let call ← s.calls[i]?
    match call.phase with
    | .headed _ | .ready _ _ =>
      some (s.advance i { call with phase := .returned (.error (timeoutError (some false))) })
    | _ => none
  | .apply i etag => do
    let call ← s.calls[i]?
    let (put, status) ← call.put
    if status = .inFlight ∧ s.current.map Version.etag = put.ifMatch ∧ etag ≠ [] ∧
        etag ∉ s.versions.map Version.etag then
      some { s.advance i { call with put := some (put, .committed etag) } with
        versions := s.versions ++ [⟨etag, put.size, put.metadata, some put.toc⟩] }
    else none
  | .answer i callback => do
    let call ← s.calls[i]?
    match call.phase with
    | .putting remote toc =>
      let (phase, answer) := putAnswer sha256 remote toc callback
      some (s.advance i { call with phase, answer := some answer })
    | _ => none
  | .reconcile i answer => do
    guard answer.allowed
    let call ← s.calls[i]?
    match call.phase, answer with
    | .reconcilePrecondition toc, .answered =>
      some (s.advance i { call with
        phase := .returned (reconcilePrecondition (tocDigest sha256 toc) s.current)
        reconciled := some true })
    | .reconcilePrecondition _, .failed callback =>
      some (s.advance i { call with
        phase := .returned (.error (preconditionHeadError callback)), reconciled := some false })
    | .reconcileTransport ifMatch toc, .answered =>
      some (s.advance i { call with
        phase := .returned (reconcileTransport ifMatch toc.generation (tocDigest sha256 toc) s.current)
        reconciled := some true })
    | .reconcileTransport _ _, .failed callback =>
      some (s.advance i { call with
        phase := .returned (.error (transportHeadError callback)), reconciled := some false })
    | _, _ => none

/-- Advancing one call leaves the others as they are. -/
theorem calls_advance {s : Bucket} {i j : ℕ} {call found : Call}
    (h : (s.advance i call).calls[j]? = some found) :
    j = i ∧ found = call ∨ j ≠ i ∧ s.calls[j]? = some found := by
  by_cases hj : j = i
  · subst hj
    rw [advance, List.getElem?_set_self'] at h
    obtain ⟨-, -, rfl⟩ := Option.map_eq_some_iff.mp h
    exact .inl ⟨rfl, rfl⟩
  · rw [advance, List.getElem?_set_ne (Ne.symm hj)] at h
    exact .inr ⟨hj, h⟩

/-! ### What the pure parts return -/

/-- What is made of the end of a put's callback. -/
theorem putAnswer_cases (sha256 : Bytes → Bytes) (remote : Remote) (toc : Toc)
    (callback : Callback Bytes) :
    (∃ etag, callback = .ok etag ∧ putAnswer sha256 remote toc callback =
      (.returned (.receipt ⟨toc.generation, etag, toc.fileSize, tocDigest sha256 toc, toc.refs.length,
        toc.files.length⟩), .ok)) ∨
    putAnswer sha256 remote toc callback = (.reconcilePrecondition toc, .precondition) ∨
    putAnswer sha256 remote toc callback = (.reconcileTransport remote.etag toc, .transport) ∨
    (∃ error, putAnswer sha256 remote toc callback = (.returned (.error error), .failed)) ∨
    putAnswer sha256 remote toc callback = (.returned (.error (timeoutError (some true))), .killed) := by
  cases callback with
  | ok etag =>
    simp only [putAnswer]
    split
    · exact .inr (.inr (.inr (.inl ⟨_, rfl⟩)))
    · exact .inl ⟨etag, rfl, rfl⟩
  | error reason =>
    simp only [putAnswer]
    split
    · exact .inr (.inl rfl)
    · exact .inr (.inr (.inl rfl))
    · exact .inr (.inr (.inr (.inl ⟨_, rfl⟩)))
  | bad => exact .inr (.inr (.inr (.inl ⟨_, rfl⟩)))
  | raised => exact .inr (.inr (.inr (.inl ⟨_, rfl⟩)))
  | killed => exact .inr (.inr (.inr (.inr rfl)))

/-- A lost precondition never yields a receipt, and nothing newer is claimed only of the digest that
the key carries. -/
theorem reconcilePrecondition_cases (digest : Bytes) (current : Option Version) :
    (∃ version metadata, current = some version ∧ remoteMetadata version.metadata = some metadata ∧
      metadata.tipsDigest = digest ∧ reconcilePrecondition digest current = .notNewer) ∨
    ∃ error, reconcilePrecondition digest current = .error error := by
  cases current with
  | none => exact .inr ⟨_, rfl⟩
  | some version =>
    simp only [reconcilePrecondition]
    split
    · rename_i metadata hmetadata
      split
      · exact .inl ⟨version, metadata, rfl, validateRemoteMetadata_eq_ok.mp hmetadata, ‹_›, rfl⟩
      · exact .inr ⟨_, rfl⟩
    · exact .inr ⟨_, rfl⟩

/-- A transport failure yields a receipt only for a new version with the generation and the digest of
the put. -/
theorem reconcileTransport_cases (ifMatch : Option Bytes) (generation : ℕ) (digest : Bytes)
    (current : Option Version) :
    (∃ version metadata, current = some version ∧ remoteMetadata version.metadata = some metadata ∧
      metadata.tipsDigest = digest ∧ metadata.generation = generation ∧
      reconcileTransport ifMatch generation digest current =
        .receipt ⟨metadata.generation, version.etag, version.size, metadata.tipsDigest, metadata.refCount,
          metadata.fileCount⟩) ∨
    ∃ error, reconcileTransport ifMatch generation digest current = .error error := by
  cases current with
  | none =>
    simp only [reconcileTransport]
    split
    · exact .inr ⟨_, rfl⟩
    · exact .inr ⟨_, rfl⟩
  | some version =>
    simp only [reconcileTransport]
    split
    · rename_i metadata hmetadata
      split
      · rename_i hsame
        exact .inl ⟨version, metadata, rfl, validateRemoteMetadata_eq_ok.mp hmetadata, hsame.1, hsame.2.1,
          rfl⟩
      · split
        · exact .inr ⟨_, rfl⟩
        · exact .inr ⟨_, rfl⟩
    · exact .inr ⟨_, rfl⟩

/-! ### What a step does to a call -/

/-- The phases before the put of a call. -/
def BeforePut : Phase → Prop
  | .started | .headed _ | .ready _ _ => True
  | _ => False

variable {sha256 : Bytes → Bytes} {current : Option Version} {i : ℕ} {call : Call}

/-- The steps of call `i` while `current` is the current version. -/
inductive Advance (sha256 : Bytes → Bytes) (current : Option Version) (i : ℕ) :
    Move → Call → Call → Prop
  | head {call remote} : call.phase = .started → publishRemoteHead current = .ok remote →
      Advance sha256 current i (.head i .answered) call
        { call with phase := .headed remote, seen := current }
  | stop {move call error bundle} : BeforePut call.phase →
      Advance sha256 current i move call { call with phase := .returned (.error error), bundle }
  | notNewer {call remote input toc} : call.phase = .headed remote →
      writePublishBundle sha256 (remote.generation + 1) input = .ok toc →
      some (tocDigest sha256 toc) = remote.digest →
      Advance sha256 current i (.bundle i (.ok input)) call
        { call with phase := .returned .notNewer, bundle := some toc }
  | bundle {call remote input toc} : call.phase = .headed remote →
      writePublishBundle sha256 (remote.generation + 1) input = .ok toc →
      Advance sha256 current i (.bundle i (.ok input)) call
        { call with phase := .ready remote toc, bundle := some toc }
  | issue {call remote toc} : call.phase = .ready remote toc →
      Advance sha256 current i (.issue i) call
        { call with
          phase := .putting remote toc
          put := some (⟨remote.etag, toc.fileSize, bundleMetadata toc (tocDigest sha256 toc), toc⟩,
            .inFlight) }
  | answer {call remote toc} (callback : Callback Bytes) : call.phase = .putting remote toc →
      Advance sha256 current i (.answer i callback) call
        { call with
          phase := (putAnswer sha256 remote toc callback).1
          answer := some (putAnswer sha256 remote toc callback).2 }
  | precondition {call toc} : call.phase = .reconcilePrecondition toc →
      Advance sha256 current i (.reconcile i .answered) call
        { call with
          phase := .returned (reconcilePrecondition (tocDigest sha256 toc) current)
          reconciled := some true }
  | preconditionFailed {call toc} (callback : Callback Empty) :
      call.phase = .reconcilePrecondition toc →
      Advance sha256 current i (.reconcile i (.failed callback)) call
        { call with
          phase := .returned (.error (preconditionHeadError callback)), reconciled := some false }
  | transport {call ifMatch toc} : call.phase = .reconcileTransport ifMatch toc →
      Advance sha256 current i (.reconcile i .answered) call
        { call with
          phase := .returned
            (reconcileTransport ifMatch toc.generation (tocDigest sha256 toc) current)
          reconciled := some true }
  | transportFailed {call ifMatch toc} (callback : Callback Empty) :
      call.phase = .reconcileTransport ifMatch toc →
      Advance sha256 current i (.reconcile i (.failed callback)) call
        { call with
          phase := .returned (.error (transportHeadError callback)), reconciled := some false }

/-- Everything that a step can do. -/
theorem step_cases {s s' : Bucket} {move : Move} (h : step sha256 s move = some s') :
    (move = .start ∧ s' = { s with calls := s.calls ++ [{ phase := .started }] }) ∨
    (∃ i etag call put, move = .apply i etag ∧ s.calls[i]? = some call ∧
      call.put = some (put, .inFlight) ∧ s.current.map Version.etag = put.ifMatch ∧
      etag ∉ s.versions.map Version.etag ∧
      s' = { s.advance i { call with put := some (put, .committed etag) } with
        versions := s.versions ++ [⟨etag, put.size, put.metadata, some put.toc⟩] }) ∨
    (∃ i call call', s.calls[i]? = some call ∧ s' = s.advance i call' ∧
      Advance sha256 s.current i move call call') := by
  cases move with
  | start => exact .inl ⟨rfl, by simpa [step] using h.symm⟩
  | head i answer =>
    obtain ⟨-, -, h⟩ := Option.bind_eq_some_iff.mp h
    obtain ⟨call, hcall, h⟩ := Option.bind_eq_some_iff.mp h
    split at h
    · split at h
      · cases h
        exact .inr (.inr ⟨i, call, _, hcall, rfl, .head ‹_› ‹_›⟩)
      · cases h
        exact .inr (.inr ⟨i, call, _, hcall, rfl, .stop (by simp [*, BeforePut])⟩)
    · cases h
      exact .inr (.inr ⟨i, call, _, hcall, rfl, .stop (by simp [*, BeforePut])⟩)
    · cases h
  | bundle i collected =>
    obtain ⟨call, hcall, h⟩ := Option.bind_eq_some_iff.mp h
    split at h
    · cases h
      exact .inr (.inr ⟨i, call, _, hcall, rfl, .stop (by simp [*, BeforePut])⟩)
    · split at h
      · cases h
        exact .inr (.inr ⟨i, call, _, hcall, rfl, .stop (by simp [*, BeforePut])⟩)
      · split at h
        · cases h
          exact .inr (.inr ⟨i, call, _, hcall, rfl, .notNewer ‹_› ‹_› ‹_›⟩)
        · split at h
          · cases h
            exact .inr (.inr ⟨i, call, _, hcall, rfl, .stop (by simp [*, BeforePut])⟩)
          · cases h
            exact .inr (.inr ⟨i, call, _, hcall, rfl, .bundle ‹_› ‹_›⟩)
    · cases h
  | issue i =>
    obtain ⟨call, hcall, h⟩ := Option.bind_eq_some_iff.mp h
    split at h
    · cases h
      exact .inr (.inr ⟨i, call, _, hcall, rfl, .issue ‹_›⟩)
    · cases h
  | expire i =>
    obtain ⟨call, hcall, h⟩ := Option.bind_eq_some_iff.mp h
    split at h
    · cases h
      exact .inr (.inr ⟨i, call, _, hcall, rfl, .stop (by simp [*, BeforePut])⟩)
    · cases h
      exact .inr (.inr ⟨i, call, _, hcall, rfl, .stop (by simp [*, BeforePut])⟩)
    · cases h
  | apply i etag =>
    obtain ⟨call, hcall, h⟩ := Option.bind_eq_some_iff.mp h
    obtain ⟨⟨put, status⟩, hput, h⟩ := Option.bind_eq_some_iff.mp h
    dsimp only at h
    split at h
    · rename_i happlied
      obtain ⟨rfl, hmatch, -, hfresh⟩ := happlied
      cases h
      exact .inr (.inl ⟨i, etag, call, put, rfl, hcall, hput, hmatch, hfresh, rfl⟩)
    · cases h
  | answer i callback =>
    obtain ⟨call, hcall, h⟩ := Option.bind_eq_some_iff.mp h
    split at h
    · cases h
      exact .inr (.inr ⟨i, call, _, hcall, rfl, .answer callback ‹_›⟩)
    · cases h
  | reconcile i answer =>
    obtain ⟨-, -, h⟩ := Option.bind_eq_some_iff.mp h
    obtain ⟨call, hcall, h⟩ := Option.bind_eq_some_iff.mp h
    split at h
    · cases h
      exact .inr (.inr ⟨i, call, _, hcall, rfl, .precondition ‹_›⟩)
    · cases h
      exact .inr (.inr ⟨i, call, _, hcall, rfl, .preconditionFailed _ ‹_›⟩)
    · cases h
      exact .inr (.inr ⟨i, call, _, hcall, rfl, .transport ‹_›⟩)
    · cases h
      exact .inr (.inr ⟨i, call, _, hcall, rfl, .transportFailed _ ‹_›⟩)
    · cases h

end Bucket

end Gitility.Mirror
