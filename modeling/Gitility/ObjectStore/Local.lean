import Gitility.Base.Runs
import Gitility.ObjectStore.Server

/-!
# Clients of a local object store

`put`, `get` and `head` of `lib/gitility/object_store/local.ex`: any number of calls on one root, each in
a task of its own, with a server that may die and be started again at any time. A call sends one message
at a time and stops waiting for its answer when its time is over; the server may still answer it. Tasks
may be killed. The server handles the messages of a task in their order and those of different tasks in
any order. Checks of options, the `key` file, the part file of a `get` and the hooks of tests are left
out.
-/

namespace Gitility.LocalStore

open Gitility.Mirror (Metadata encode16)

/-! ### Calls -/

/-- A call of the store. -/
inductive Op where
  | put (key : Bytes) (ifMatch : Option Bytes) (metadata : Metadata)
  | get (key : Bytes)
  | head (key : Bytes)
  deriving DecidableEq

/-- What a task returns. `got` has the bytes that it copied; their number is its `bytes`. -/
inductive Outcome where
  | put (etag : Bytes)
  | head (info : Meta)
  | got (etag : Bytes) (metadata : Metadata) (content : Bytes)
  | error (reason : Reason)
  deriving DecidableEq

/-- How far a task is. A `put` that is `discarding` removes its version directory and then releases its
hold. -/
inductive Phase where
  | holding (retries : ℕ)
  | creating
  | claiming
  | preparing
  | copying
  | committing
  | discarding (outcome : Outcome)
  | releasing (outcome : Outcome)
  | pinning (retries : ℕ)
  | reading
  | unpinning (outcome : Outcome)
  | returned (outcome : Outcome)
  | killed
  deriving DecidableEq

/-- Whether a task waits for the reply of a call, or has it. -/
inductive Wait where
  | idle
  | waiting
  | answered (reply : Reply)
  deriving DecidableEq

/-- A task: its messages that the server has not handled, the version that it created, the bytes that it
copied to it, and what its pin found. -/
structure Client where
  op : Op
  phase : Phase
  wait : Wait := .idle
  queue : List Request := []
  version : Option Bytes := none
  written : Bytes := []
  pinned : Option (Bytes × Meta) := none
  deriving DecidableEq

/-- The tasks of a root, its files and its server. A task is its index, which also stands for the
reference of its hold. -/
structure World where
  objects : Objects := fun _ ↦ {}
  server : Option Server := none
  clients : List Client := []
  nextMonitor : ℕ := 0

/-- A reason that a task finds itself: a file operation fails, or its time is over. -/
inductive Fault where
  | adapter (reason : AdapterReason)
  | timeout

/-- The steps. -/
inductive Move where
  | start (op : Op)
  | boot
  | crash
  | idle
  | send (i : ℕ)
  | serve (i : ℕ) (fault : Option AdapterReason)
  | receive (i : ℕ)
  | expire (i : ℕ)
  /-- The name of a version is 32 random bytes in hex; no two tasks draw the same, and none is reused. -/
  | create (i : ℕ) (version : Bytes)
  | openData (i : ℕ)
  | write (i : ℕ) (chunk : Bytes)
  | writeMeta (i : ℕ)
  | read (i : ℕ)
  | fail (i : ℕ) (fault : Fault)
  | discard (i : ℕ) (removal : Removal)
  | kill (i : ℕ)
  | down (i monitor : ℕ)
  | sweep (hash : Bytes) (removal : Bytes → Removal)

/-- The reason of a fault. -/
def Fault.reason : Fault → Reason
  | .adapter reason => .adapter reason
  | .timeout => .transport .timeout

/-- `key_hash`. -/
def keyHash (sha256 : Bytes → Bytes) (key : Bytes) : Bytes := encode16 (sha256 key)

namespace Op

/-- The key of a call. -/
def key : Op → Bytes
  | put key _ _ | get key | head key => key

/-- The hash of a call's key. -/
def hash (sha256 : Bytes → Bytes) (op : Op) : Bytes := keyHash sha256 op.key

/-- The condition of a put. -/
def ifMatch : Op → Option Bytes
  | put _ ifMatch _ => ifMatch
  | _ => none

/-- The metadata of a put. -/
def metadata : Op → Metadata
  | put _ _ metadata => metadata
  | _ => []

end Op

namespace Client

/-- A task begins: `do_put` holds, `do_get` and `do_head` pin. Each call is tried again three times. -/
def start (op : Op) : Client :=
  match op with
  | .put _ _ _ => { op, phase := .holding 3 }
  | .get _ | .head _ => { op, phase := .pinning 3 }

/-- The call that a task makes in its phase. -/
def request (sha256 : Bytes → Bytes) (i : ℕ) (c : Client) : Option Request :=
  match c.phase with
  | .holding _ => some (.hold i)
  | .claiming => c.version.map (.claim i)
  | .committing => c.version.map (.commit (c.op.hash sha256) c.op.ifMatch)
  | .releasing _ => some (.release i)
  | .pinning _ => some (.pin (c.op.hash sha256))
  | .unpinning _ => c.pinned.map fun pinned ↦ .unpin pinned.1
  | _ => none

/-- What `prepare_version` writes to `meta`. -/
def info (sha256 : Bytes → Bytes) (c : Client) : Meta :=
  { etag := encode16 (sha256 c.written), size := c.written.length, metadata := c.op.metadata }

/-- The phase of a task after the reply of its call. -/
def next (sha256 : Bytes → Bytes) (c : Client) (reply : Reply) : Phase :=
  match c.phase, reply with
  | .holding _, .ok => .creating
  | .holding (n + 1), .error (.transport .closed) => .holding n
  | .holding _, .error reason => .returned (.error reason)
  | .claiming, .ok => .preparing
  | .claiming, .error reason => .discarding (.error reason)
  | .committing, .ok => .releasing (.put (c.info sha256).etag)
  -- the version may have become the current one
  | .committing, .error (.transport reason) => .releasing (.error (.transport reason))
  | .committing, .error reason => .discarding (.error reason)
  | .releasing outcome, _ => .returned outcome
  | .pinning _, .pinned _ info =>
    match c.op with
    | .get _ => .reading
    | _ => .unpinning (.head info)
  | .pinning (n + 1), .error (.transport .closed) => .pinning n
  | .pinning _, .error reason => .returned (.error reason)
  | .unpinning outcome, _ => .returned outcome
  | phase, _ => phase

/-- What a task does with the reply of its call. -/
def resume (sha256 : Bytes → Bytes) (c : Client) (reply : Reply) : Client :=
  { c with
    phase := c.next sha256 reply
    wait := .idle
    pinned :=
      match reply with
      | .pinned version info => some (version, info)
      | _ => c.pinned }

/-- A server handles the first message of a task. Only the last one has not been given up. -/
def served (c : Client) (reply : Reply) : Client :=
  let queue := c.queue.tail
  { c with
    queue
    wait := if c.wait = .waiting ∧ queue = [] then .answered reply else c.wait }

/-- The server dies. A task that waits for it takes note, also of a reply that it has not read. -/
def disconnect (c : Client) : Client :=
  { c with
    queue := []
    wait := if c.wait = .idle then .idle else .answered (.error (.transport .closed)) }

/-- A task meets a fault. It does so before its call of the server is under way. -/
def fail (c : Client) (reason : Reason) : Option Client :=
  match c.phase, c.wait with
  | .holding _, .idle | .pinning _, .idle => some { c with phase := .returned (.error reason) }
  | .creating, _ => some { c with phase := .releasing (.error reason) }
  | .preparing, _ | .copying, _ => some { c with phase := .discarding (.error reason) }
  | .reading, _ => some { c with phase := .unpinning (.error reason) }
  | _, _ => none

/-- `do_get` after `copy_for_get` copied `content`. -/
def copied (c : Client) (info : Meta) (content : Bytes) : Client :=
  if content.length = info.size then
    { c with phase := .unpinning (.got info.etag info.metadata content) }
  else { c with phase := .unpinning (.error (.adapter .shortBody)) }

/-- The process of a task has ended. -/
def Ended (c : Client) : Prop := c.phase = .killed ∨ ∃ outcome, c.phase = .returned outcome

instance (c : Client) : Decidable c.Ended :=
  match h : c.phase with
  | .killed => isTrue (.inl h)
  | .returned outcome => isTrue (.inr ⟨outcome, h⟩)
  | .holding _ | .creating | .claiming | .preparing | .copying | .committing | .discarding _ | .releasing _
  | .pinning _ | .reading | .unpinning _ => isFalse (by simp [Ended, h])

end Client

/-- One version directory of a key is changed. -/
def setVersion (objects : Objects) (hash version : Bytes) (dir : Option VersionDir) : Objects :=
  Function.update objects hash
    { objects hash with versions := Function.update (objects hash).versions version dir }

namespace World

/-- A task changes. -/
def advance (w : World) (i : ℕ) (c : Client) : World := { w with clients := w.clients.set i c }

/-- A task and its version directory change. -/
def advanceVersion (sha256 : Bytes → Bytes) (w : World) (i : ℕ) (c : Client) (version : Bytes)
    (dir : Option VersionDir) : World :=
  { w.advance i c with objects := setVersion w.objects (c.op.hash sha256) version dir }

/-- A version directory. -/
def dir (sha256 : Bytes → Bytes) (w : World) (c : Client) (version : Bytes) : Option VersionDir :=
  (w.objects (c.op.hash sha256)).versions version

end World

/-- One step. -/
def step (sha256 : Bytes → Bytes) (w : World) : Move → Option World
  | .start op => some { w with clients := w.clients ++ [Client.start op] }
  | .boot => if w.server.isNone then some { w with server := some {} } else none
  | .crash =>
    if w.server.isSome then some { w with server := none, clients := w.clients.map Client.disconnect }
    else none
  | .idle => do
    let s ← w.server
    guard s.idle
    some { w with server := none, clients := w.clients.map Client.disconnect }
  | .send i => do
    let c ← w.clients[i]?
    let request ← c.request sha256 i
    guard (c.wait = .idle)
    match w.server with
    | some _ => some (w.advance i { c with wait := .waiting, queue := c.queue ++ [request] })
    | none => some (w.advance i { c with wait := .answered (.error (.transport .closed)) })
  | .serve i fault => do
    let s ← w.server
    let c ← w.clients[i]?
    let request ← c.queue.head?
    let (reply, s, objects) := s.answer w.objects i w.nextMonitor request fault
    some { objects, server := some s, clients := w.clients.set i (c.served reply)
           nextMonitor := w.nextMonitor + 1 }
  | .receive i => do
    let c ← w.clients[i]?
    match c.wait with
    | .answered reply => some (w.advance i (c.resume sha256 reply))
    | _ => none
  | .expire i => do
    let c ← w.clients[i]?
    let _ ← c.request sha256 i
    match c.wait with
    | .answered _ => none
    | _ => some (w.advance i (c.resume sha256 (.error (.transport .timeout))))
  | .create i version => do
    let c ← w.clients[i]?
    guard (c.phase = .creating ∧ validPointer version ∧ (w.dir sha256 c version).isNone ∧
      ∀ c' ∈ w.clients, c'.version ≠ some version)
    some (w.advanceVersion sha256 i { c with phase := .claiming, version := some version } version
      (some {}))
  | .openData i => do
    let c ← w.clients[i]?
    guard (c.phase = .preparing)
    let version ← c.version
    match w.dir sha256 c version with
    | some ⟨none, info⟩ =>
      some (w.advanceVersion sha256 i { c with phase := .copying, written := [] } version
        (some ⟨some [], info⟩))
    | _ => some (w.advance i { c with phase := .discarding (.error (.adapter .io)) })
  | .write i chunk => do
    let c ← w.clients[i]?
    guard (c.phase = .copying)
    let version ← c.version
    -- a file that was removed after it was opened takes bytes that nobody will see
    some (w.advanceVersion sha256 i { c with written := c.written ++ chunk } version
      ((w.dir sha256 c version).map fun dir ↦ { dir with data := dir.data.map (· ++ chunk) }))
  | .writeMeta i => do
    let c ← w.clients[i]?
    guard (c.phase = .copying)
    let version ← c.version
    if (c.info sha256).termSize ≤ 65536 then
      match w.dir sha256 c version with
      | some ⟨data, none⟩ =>
        some (w.advanceVersion sha256 i { c with phase := .committing } version
          (some ⟨data, some (c.info sha256)⟩))
      | _ => some (w.advance i { c with phase := .discarding (.error (.adapter .io)) })
    else some (w.advance i { c with phase := .discarding (.error (.adapter .corruptMeta)) })
  | .read i => do
    let c ← w.clients[i]?
    guard (c.phase = .reading)
    let (version, info) ← c.pinned
    match (w.dir sha256 c version).bind VersionDir.data with
    | some content => some (w.advance i (c.copied info content))
    | none => some (w.advance i { c with phase := .unpinning (.error (.adapter .io)) })
  | .fail i fault => do
    let c ← w.clients[i]?
    let c' ← c.fail fault.reason
    some (w.advance i c')
  | .discard i removal => do
    let c ← w.clients[i]?
    match c.phase, c.version with
    | .discarding outcome, some version =>
      some (w.advanceVersion sha256 i { c with phase := .releasing outcome } version
        ((w.dir sha256 c version).bind removal.leaves))
    | _, _ => none
  | .kill i => do
    let c ← w.clients[i]?
    guard (¬ c.Ended)
    some (w.advance i { c with phase := .killed, wait := .idle })
  | .down i monitor => do
    let s ← w.server
    let c ← w.clients[i]?
    -- the message comes after all others of its process
    guard (c.Ended ∧ c.queue = [])
    some { w with server := some (s.handleDown monitor i) }
  | .sweep hash removal => do
    let s ← w.server
    some { w with objects := Function.update w.objects hash (s.sweepHash removal (w.objects hash)) }

end Gitility.LocalStore
