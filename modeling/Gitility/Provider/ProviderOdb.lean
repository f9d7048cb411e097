import Mathlib.Data.List.Dedup
import Gitility.Store.ObjectDb
import Gitility.Provider.Rendezvous

/-!
# Reads through a provider

`crates/gitility-core/src/provider_odb.rs` from `request_results` to `try_find_many_with_budget`, and
`crates/gitility-core/src/verify.rs`. A read looks at the caches, asks the provider for what it does
not find there and stores what the reply brings; between the two sections under the lock of the caches
other reads may run. What `send_and_wait` returns is arbitrary. The budget and the clock answer as
they like. `none` stands for a panic of one of the `expect` and `unreachable` calls of the source.
-/

namespace Gitility

/-- `ObjectKind::as_str`. -/
def ObjectKind.asStr : ObjectKind → String
  | .commit => "commit"
  | .tree => "tree"
  | .blob => "blob"
  | .tag => "tag"

namespace Provider

/-- The hash functions. `none` says that a SHA-1 collision attack was detected. -/
structure Hashers where
  sha1 : Bytes → Option Bytes
  sha256 : Bytes → Bytes

/-- `ContentHasher::finalize` of all bytes that were given. -/
def Hashers.finalize (hashers : Hashers) (kind : HashKind) (bytes : Bytes) : Except Error Oid :=
  match kind with
  | .sha1 =>
    match hashers.sha1 bytes with
    | some digest => Oid.new .sha1 digest
    | none => .error (.new .hashMismatch "SHA-1 collision attack detected while hashing object data")
  | .sha256 => Oid.new .sha256 (hashers.sha256 bytes)

/-- `verify.rs` `object_id`. -/
def objectId (hashers : Hashers) (hashKind : HashKind) (objectKind : ObjectKind) (payload : Bytes) :
    Except Error Oid :=
  hashers.finalize hashKind (Bytes.ascii objectKind.asStr ++ Bytes.ascii " " ++
    Bytes.ascii (toString payload.length) ++ [0] ++ payload)

/-- `verify.rs` `verify`. -/
def verify (hashers : Hashers) (oid : Oid) (kind : ObjectKind) (payload : Bytes) :
    Except Error Unit := do
  let actual ← objectId hashers oid.kind kind payload
  ensure (actual = oid)
    (.new .hashMismatch s!"object hash mismatch: expected {oid}, computed {actual}")

/-- `ProviderKind`, without the prefetch whose reply nobody reads. -/
inductive ProviderKind where
  | header
  | object
  deriving DecidableEq

/-- `ProviderReplyValue`. -/
inductive ProviderReplyValue where
  | notFound
  | header (header : ObjectHeader)
  | object (kind : ObjectKind) (data : Bytes)
  deriving DecidableEq

/-- `ProviderPayload`. -/
inductive ProviderPayload where
  | results (results : List (Oid × ProviderReplyValue))
  | backendError

/-- `PROVIDER_HEADER_SIZE_CEILING`. -/
def providerHeaderSizeCeiling : ℕ := 2 ^ 40

/-- `protocol_error`. -/
def protocolError (message : String) : Error := .new .providerProtocolError message

/-- The limits of a `Budget` that replies are checked against. -/
structure Limits where
  maxObjectBytes : ℕ
  maxProviderBytes : ℕ

/-- What a budget answers: to `charge_provider_bytes`, and to the charges and checks of a read in
their order. -/
structure Charges where
  provider : Option Error
  read : ℕ → Option Error

/-- A budget call that comes before a result. -/
def charged {α : Type} (failure : Option Error) (result : α) : Except Error α :=
  match failure with
  | some error => .error error
  | none => .ok result

/-- Replies by their object IDs. -/
abbrev Decoded := AList fun _ : Oid ↦ ProviderReplyValue

/-- The match on the request kind and the shape of a value. -/
def shapeMatches : ProviderKind → ProviderReplyValue → Bool
  | .header, _ => true
  | .object, .object .. | .object, .notFound => true
  | .object, .header _ => false

/-- The size checks of one value, with the bytes of the reply so far. -/
def checkSize (limits : Limits) (readBudget : ReadManyBudget) (replyBytes : ℕ) :
    ProviderReplyValue → Except Error ℕ
  | .object _ data => do
    let bytes := data.length
    ensure (bytes ≤ limits.maxObjectBytes)
      ((Error.new .objectTooLarge
        s!"provider object of {bytes} bytes exceeds max_object_bytes {limits.maxObjectBytes}").withLimit
          "max_object_bytes")
    let replyBytes := saturatingAdd replyBytes bytes
    ensure (replyBytes ≤ limits.maxProviderBytes)
      ((Error.new .budgetExceeded "max_provider_bytes exceeded").withLimit "max_provider_bytes")
    enforceReadManyBudget replyBytes readBudget
    return replyBytes
  | .header header => do
    ensure (header.size ≤ providerHeaderSizeCeiling)
      (protocolError "provider header size exceeds the 2^40 sanity ceiling")
    return replyBytes
  | .notFound => .ok replyBytes

/-- The loop of `request_results` over the values of a reply. -/
def decodeResults (kind : ProviderKind) (expected : List Oid) (limits : Limits)
    (readBudget : ReadManyBudget) :
    Decoded → ℕ → List (Oid × ProviderReplyValue) → Except Error (Decoded × ℕ)
  | decoded, replyBytes, [] => .ok (decoded, replyBytes)
  | decoded, replyBytes, (oid, value) :: results => do
    ensure (oid ∈ expected ∧ oid ∉ decoded)
      (protocolError "provider reply contains an unexpected or duplicate object ID")
    ensure (shapeMatches kind value) (protocolError "provider reply result has the wrong shape")
    let replyBytes ← checkSize limits readBudget replyBytes value
    decodeResults kind expected limits readBudget (decoded.insert oid value) replyBytes results

/-- The verification loop of `request_results`. The source leaves its order to the hash map. -/
def verifyAll (hashers : Hashers) : List (Sigma fun _ : Oid ↦ ProviderReplyValue) → Except Error Unit
  | [] => .ok ()
  | ⟨oid, .object kind data⟩ :: rest => do
    verify hashers oid kind data
    verifyAll hashers rest
  | _ :: rest => verifyAll hashers rest

/-- `request_results`, of what `send_and_wait` returned. -/
def requestResults (hashers : Hashers) (kind : ProviderKind) (expected : List Oid) (limits : Limits)
    (readBudget : ReadManyBudget) (charge : Option Error) (payload : Message ProviderPayload) :
    Except Error Decoded := do
  match ← payload with
  | .backendError =>
    .error { Error.new .backendError "provider callback failed" with retryable := true }
  | .results results =>
    let (decoded, _) ← decodeResults kind expected limits readBudget ∅ 0 results
    ensure (decoded.entries.length = expected.dedup.length)
      (protocolError "provider reply omitted a requested object ID")
    charged charge ()
    verifyAll hashers decoded.entries
    return decoded

/-- `NegativeCache`. -/
structure NegativeCache where
  values : LruCache Oid ℕ
  ttl : ℕ

namespace NegativeCache

/-- `NegativeCache::contains_fresh`. -/
def containsFresh (negative : NegativeCache) (now : ℕ) (oid : Oid) : Option (Bool × NegativeCache) :=
  if negative.ttl = 0 then some (false, negative)
  else do
    let (inserted, values) ← negative.values.get oid
    if inserted.any fun inserted ↦ now - inserted < negative.ttl then
      return (true, { negative with values })
    else
      let (_, values) ← values.remove oid
      return (false, { negative with values })

/-- `NegativeCache::insert`. -/
def insert (negative : NegativeCache) (now : ℕ) (oid : Oid) : Option NegativeCache :=
  if negative.ttl = 0 then some negative
  else do
    let values ← negative.values.insert oid now 1
    return { negative with values }

end NegativeCache

/-- `ProviderCaches`. -/
structure ProviderCaches where
  objects : LruCache Oid Object
  headers : LruCache Oid HeaderRead
  negative : NegativeCache

/-- `ProviderCacheOptions`. -/
structure ProviderCacheOptions where
  objectBytes : ℕ
  headerEntries : ℕ
  negativeTtl : ℕ

/-- `ProviderCaches::new`, with `DEFAULT_NEGATIVE_ENTRIES`. -/
def ProviderCaches.new (options : ProviderCacheOptions) : ProviderCaches where
  objects := .new options.objectBytes
  headers := .new options.headerEntries
  negative := ⟨.new 4096, options.negativeTtl⟩

/-- What a batch has found: an object, or that there is none. -/
abbrev Found := AList fun _ : Oid ↦ Option Object

/-- A read that waits for its reply, with what it needs afterwards. -/
inductive Waiting where
  | header (oid : Oid)
  | many (oids : List Oid) (found : Found) (misses : List Oid) (remaining : ReadManyBudget)

/-- The call of `request_results` that a waiting read makes. -/
def Waiting.results (hashers : Hashers) (limits : Limits) (charge : Option Error)
    (payload : Message ProviderPayload) : Waiting → Except Error Decoded
  | .header oid => requestResults hashers .header [oid] limits {} charge payload
  | .many _ _ misses remaining =>
    requestResults hashers .object misses limits remaining charge payload

namespace ProviderCaches

variable (caches : ProviderCaches)

/-- `try_header_read` up to its request. -/
def headerLookup (now : ℕ) (charge : Option Error) (oid : Oid) :
    Option (ProviderCaches × (Except Error (Option HeaderRead) ⊕ Waiting)) := do
  let (header, headers) ← caches.headers.get oid
  let caches := { caches with headers }
  match header with
  | some header => return (caches, .inl (charged charge (some header)))
  | none =>
    let (object, objects) ← caches.objects.get oid
    let caches := { caches with objects }
    match object with
    | some (kind, data) =>
      return (caches, .inl (charged charge (some ⟨⟨kind, data.length⟩, .verified⟩)))
    | none =>
      let (fresh, negative) ← caches.negative.containsFresh now oid
      let caches := { caches with negative }
      if fresh then return (caches, .inl (charged charge none))
      else return (caches, .inr (.header oid))

/-- `try_header_read` after its request. -/
def headerStore (now : ℕ) (charge : Option Error) (oid : Oid) (results : Decoded) :
    Option (ProviderCaches × Except Error (Option HeaderRead)) := do
  match ← results.lookup oid with
  | .notFound =>
    let negative ← caches.negative.insert now oid
    return ({ caches with negative }, charged charge none)
  | .header header =>
    let read : HeaderRead := ⟨header, .unverifiedProvider⟩
    let headers ← caches.headers.insert oid read 1
    return ({ caches with headers }, charged charge (some read))
  | .object kind data =>
    let read : HeaderRead := ⟨⟨kind, data.length⟩, .verified⟩
    let objects ← caches.objects.insert oid (kind, data) data.length
    let headers ← caches.headers.insert oid read 1
    return ({ caches with objects, headers }, charged charge (some read))

/-- The loop of `try_find_many_with_budget` over the caches. -/
def residents (now : ℕ) (readBudget : ReadManyBudget) :
    ProviderCaches → Found → List Oid → ℕ → List Oid →
      Option (ProviderCaches × Except Error (Found × List Oid × ℕ))
  | caches, found, misses, residentBytes, [] => some (caches, .ok (found, misses, residentBytes))
  | caches, found, misses, residentBytes, oid :: oids => do
    if oid ∈ found then residents now readBudget caches found misses residentBytes oids
    else
      let (object, objects) ← caches.objects.get oid
      let caches := { caches with objects }
      match object with
      | some (kind, data) =>
        let residentBytes := saturatingAdd residentBytes data.length
        match enforceReadManyBudget residentBytes readBudget with
        | .error error => return (caches, .error error)
        | .ok _ =>
          residents now readBudget caches (found.insert oid (some (kind, data))) misses residentBytes
            oids
      | none =>
        let (fresh, negative) ← caches.negative.containsFresh now oid
        let caches := { caches with negative }
        if fresh then
          residents now readBudget caches (found.insert oid none) misses residentBytes oids
        else residents now readBudget caches found (misses ++ [oid]) residentBytes oids

/-- The loop of `try_find_many_with_budget` over the misses. -/
def manyStore (now : ℕ) (results : Decoded) :
    ProviderCaches → Found → List Oid → Option (ProviderCaches × Found)
  | caches, found, [] => some (caches, found)
  | caches, found, oid :: misses => do
    match ← results.lookup oid with
    | .notFound =>
      let negative ← caches.negative.insert now oid
      manyStore now results { caches with negative } (found.insert oid none) misses
    | .object kind data =>
      let objects ← caches.objects.insert oid (kind, data) data.length
      let headers ← caches.headers.insert oid ⟨⟨kind, data.length⟩, .verified⟩ 1
      manyStore now results { caches with objects, headers } (found.insert oid (some (kind, data)))
        misses
    | .header _ => none

end ProviderCaches

/-- The output loop of `try_find_many_with_budget`. -/
def output (found : Found) (charges : ℕ → Option Error) :
    ℕ → List Oid → Option (Except Error (List (Option Object)))
  | _, [] => some (.ok [])
  | i, oid :: oids => do
    let value ← found.lookup oid
    match charged (charges i) () with
    | .error error => return .error error
    | .ok _ =>
      let rest ← output found charges (i + 1) oids
      return rest.map (value :: ·)

/-- The reads of `ObjectDb` for a provider. `try_find` is a batch of one. -/
inductive Read where
  | header (oid : Oid)
  | find (oid : Oid)
  | findMany (oids : List Oid) (readBudget : ReadManyBudget)

/-- What a read returns. -/
inductive Answer where
  | header (oid : Oid) (result : Except Error (Option HeaderRead))
  | find (oid : Oid) (result : Except Error (Option Object))
  | findMany (oids : List Oid) (result : Except Error (List (Option Object)))

/-- The batch of a read, which is how `try_find` and the two batch reads run. -/
def Read.oids : Read → List Oid
  | .header oid | .find oid => [oid]
  | .findMany oids _ => oids

/-- The ceiling of the batch of a read. -/
def Read.budget : Read → ReadManyBudget
  | .header _ | .find _ => {}
  | .findMany _ readBudget => readBudget

/-- A failed read. -/
def Read.fail (error : Error) : Read → Answer
  | .header oid => .header oid (.error error)
  | .find oid => .find oid (.error error)
  | .findMany oids _ => .findMany oids (.error error)

/-- What a read returns of its batch: `try_find` pops the only value. -/
def Read.ofMany (result : Except Error (List (Option Object))) : Read → Option Answer
  | .header _ => none
  | .find oid =>
    match result with
    | .error error => some (.find oid (.error error))
    | .ok values => do
      let value ← values.getLast?
      return .find oid (.ok value)
  | .findMany oids _ => some (.findMany oids result)

/-- The error of `ensure_oid`. -/
def wrongHash : Error := .new .invalidOid "object ID hash does not match the provider store"

/-- A provider store and the reads that wait for a reply, by thread. -/
structure ProviderOdb where
  hash : HashKind
  alive : Bool
  caches : ProviderCaches
  waiting : ℕ → Option (Read × Limits × Waiting)

/-- What callers and the provider see. -/
inductive ReadEvent where
  | replied (payload : Message ProviderPayload)
  | answered (answer : Answer)

/-- One scheduling decision: a read starts, `send_and_wait` returns to one that waits, the negative
cache is cleared or the provider dies. -/
inductive ReadMove where
  | read (thread : ℕ) (read : Read) (limits : Limits) (charges : Charges) (now : ℕ)
  | reply (thread : ℕ) (payload : Message ProviderPayload) (charges : Charges) (now : ℕ)
  | refresh (failure : Option Error)
  | providerDown

namespace ProviderOdb

variable (s : ProviderOdb)

/-- `ProviderOdb::new`. -/
def new (hash : HashKind) (options : ProviderCacheOptions) : ProviderOdb :=
  ⟨hash, true, .new options, fun _ ↦ none⟩

/-- `ensure_alive` and `ensure_oid`, in the order of the two read paths. -/
def ensureRead (read : Read) : Except Error Unit :=
  match read with
  | .header oid => do
    ensure (oid.kind = s.hash) wrongHash
    ensure (s.alive = true) providerDown
  | _ => do
    ensure (s.alive = true) providerDown
    ensure (∀ oid ∈ read.oids, oid.kind = s.hash) wrongHash

/-- `try_find_many_with_budget` up to its request. -/
def manyLookup (read : Read) (charges : Charges) (now : ℕ) :
    Option (ProviderCaches × (Answer ⊕ Waiting)) := do
  let (caches, result) ← s.caches.residents now read.budget ∅ [] 0 read.oids
  match result with
  | .error error => return (caches, .inl (read.fail error))
  | .ok (found, misses, residentBytes) =>
    if misses.isEmpty then
      let result ← output found charges.read 0 read.oids
      let answer ← read.ofMany result
      return (caches, .inl answer)
    else
      let remaining := read.budget.maxTotalBytes.map (· - residentBytes)
      return (caches, .inr (.many read.oids found misses ⟨remaining⟩))

/-- The first part of a read: it answers at once or waits for a reply. -/
def start (read : Read) (charges : Charges) (now : ℕ) :
    Option (ProviderCaches × (Answer ⊕ Waiting)) :=
  match s.ensureRead read with
  | .error error => some (s.caches, .inl (read.fail error))
  | .ok _ =>
    match read with
    | .header oid => do
      let (caches, result) ← s.caches.headerLookup now (charges.read 0) oid
      return (caches, result.map (.header oid) id)
    | .find _ | .findMany .. => s.manyLookup read charges now

/-- The second part of a read. -/
def finish (hashers : Hashers) (read : Read) (limits : Limits) (charges : Charges) (now : ℕ)
    (payload : Message ProviderPayload) (waiting : Waiting) : Option (ProviderCaches × Answer) :=
  match waiting.results hashers limits charges.provider payload with
  | .error error => some (s.caches, read.fail error)
  | .ok results =>
    match waiting with
    | .header oid => do
      let (caches, result) ← s.caches.headerStore now (charges.read 0) oid results
      return (caches, .header oid result)
    | .many oids found misses _ => do
      let (caches, found) ← ProviderCaches.manyStore now results s.caches found misses
      let result ← output found charges.read 0 oids
      let answer ← read.ofMany result
      return (caches, answer)

/-- One move. `none` means that it is not enabled or that it panics. -/
def step (hashers : Hashers) : ReadMove → Option (ProviderOdb × List ReadEvent)
  | .read thread read limits charges now =>
    match s.waiting thread with
    | some _ => none
    | none => do
      let (caches, result) ← s.start read charges now
      match result with
      | .inl answer => return ({ s with caches }, [.answered answer])
      | .inr waiting =>
        return ({ s with
          caches
          waiting := Function.update s.waiting thread (some (read, limits, waiting)) }, [])
  | .reply thread payload charges now => do
    let (read, limits, waiting) ← s.waiting thread
    let (caches, answer) ← s.finish hashers read limits charges now payload waiting
    return ({ s with caches, waiting := Function.update s.waiting thread none },
      [.replied payload, .answered answer])
  | .refresh failure =>
    match failure with
    | some _ => some (s, [])
    | none =>
      let negative := { s.caches.negative with values := s.caches.negative.values.clear }
      some ({ s with caches := { s.caches with negative } }, [])
  | .providerDown => some ({ s with alive := false }, [])

/-- The states reached from a new store, with everything that happened on the way. -/
inductive Reachable (hashers : Hashers) (hash : HashKind) (options : ProviderCacheOptions) :
    List ReadEvent → ProviderOdb → Prop where
  | new : Reachable hashers hash options [] (new hash options)
  | step {trace events : List ReadEvent} {s s' : ProviderOdb} {move : ReadMove}
      (h : Reachable hashers hash options trace s) (hs : s.step hashers move = some (s', events)) :
      Reachable hashers hash options (trace ++ events) s'

/-- A schedule, with everything that happens in it. -/
def run (hashers : Hashers) : ProviderOdb → List ReadMove → Option (List ReadEvent × ProviderOdb)
  | s, [] => some ([], s)
  | s, move :: moves => do
    let (s, events) ← s.step hashers move
    let (trace, s) ← run hashers s moves
    return (events ++ trace, s)

/-- A schedule leads from a reachable state to a reachable state. -/
theorem Reachable.run {hashers : Hashers} {hash : HashKind} {options : ProviderCacheOptions}
    {trace trace' : List ReadEvent} {s s' : ProviderOdb} {moves : List ReadMove}
    (h : Reachable hashers hash options trace s)
    (hr : s.run hashers moves = some (trace', s')) :
    Reachable hashers hash options (trace ++ trace') s' := by
  induction moves generalizing trace trace' s with
  | nil =>
    cases hr
    rw [List.append_nil]
    exact h
  | cons move moves ih =>
    simp only [ProviderOdb.run, Option.bind_eq_bind, Option.bind_eq_some_iff] at hr
    obtain ⟨⟨s₁, events⟩, hstep, ⟨trace₁, s₂⟩, hrun, heq⟩ := hr
    cases heq
    rw [← List.append_assoc]
    exact ih (h.step hstep) hrun

end ProviderOdb
end Provider
end Gitility
