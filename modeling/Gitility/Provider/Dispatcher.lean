import Gitility.Base.Object

/-!
# The dispatcher of a provider process

`lib/gitility/odb/provider.ex` and `lib/gitility/ref_db/provider.ex`: the two processes queue and start their
requests with the same clauses, here over the contents `R` of a request. A handler is a function of the state,
the message and what the outside answers while it runs; it returns, beside the state, what becomes of requests.
Demonitoring and cancelling a timer only bear on the messages that still arrive, and any message may.
-/

namespace Gitility.Dispatcher

variable {R : Type}

/-- `{token, request, kind, payload, received_at}`. -/
structure Item (R : Type) where
  token : ℕ
  body : R
  receivedAt : ℤ

/-- An entry of `running`. -/
structure Entry where
  token : ℕ
  pid : ℕ
  timer : ℕ
  deriving DecidableEq, Repr

/-- An entry of `refreshes`; `caller` is its `from`. -/
structure Refresh where
  caller : ℕ
  pid : ℕ
  monitor : ℕ
  timer : ℕ
  deriving DecidableEq, Repr

/-- The part of the process state the dispatcher works on. References are numbers, and `nextRef` is the next
one that `make_ref`, `Process.monitor` or `Process.send_after` gives out. -/
structure State (R : Type) where
  concurrency : ℕ
  requestTimeout : ℕ
  queue : List (Item R) := []
  running : Std.TreeMap ℕ Entry := ∅
  refreshes : Std.TreeMap ℕ Refresh := ∅
  nextRef : ℕ := 0

/-- What the outside answers while a message is handled: `System.monotonic_time`, when a request arrives and
when an item is taken out of the queue, and `Task.Supervisor.start_child`, with a pid or not. -/
structure World (R : Type) where
  arrival : ℤ
  now : Item R → ℤ
  startChild : Item R → Option ℕ
  startRefresh : Option ℕ

/-- What a refresh is answered. -/
inductive RefreshReply where
  | result (ok : Bool)
  | taskStartFailed
  | providerTimeout
  | backendError
  deriving DecidableEq, Repr

/-- The messages that are no requests; `ignored` is what only the last clause takes. -/
inductive Control where
  | taskDone (token : ℕ)
  | taskTimeout (token : ℕ)
  | down (monitor : ℕ)
  | refresh (caller : ℕ)
  | refreshDone (token : ℕ) (ok : Bool)
  | refreshTimeout (token : ℕ)
  | ignored
  deriving DecidableEq, Repr

/-- The messages of the process. -/
inductive Message (R : Type) where
  | request (body : R)
  | control (control : Control)

/-- What happens while a message is handled. -/
inductive Event (R : Type) where
  | accepted (item : Item R)
  | started (item : Item R)
  /-- `provider_reply(request, kind, {:error, :task_start_failed})`. -/
  | startFailed (item : Item R)
  | expired (item : Item R)
  /-- A task has left `running`. -/
  | finished (token : ℕ)
  /-- `Process.exit(pid, :kill)`. -/
  | killed (pid : ℕ)
  | refreshed (caller : ℕ) (reply : RefreshReply)

namespace State

/-- `start_request`. -/
def startRequest (world : World R) (item : Item R) (s : State R) : State R × List (Event R) :=
  match world.startChild item with
  | some pid =>
    let monitor := s.nextRef
    let timer := s.nextRef + 1
    ({ s with running := s.running.insert monitor ⟨item.token, pid, timer⟩, nextRef := s.nextRef + 2 },
      [.started item])
  | none => (s, [.startFailed item])

/-- `dispatch_or_queue`. -/
def dispatchOrQueue (world : World R) (item : Item R) (s : State R) : State R × List (Event R) :=
  if s.running.size < s.concurrency then s.startRequest world item
  else ({ s with queue := s.queue ++ [item] }, [])

/-- `drain_queue`, with the queue that is left as an argument. -/
def drainFrom (world : World R) : List (Item R) → State R → State R × List (Event R)
  | [], s => ({ s with queue := [] }, [])
  | item :: queue, s =>
    if s.concurrency ≤ s.running.size then ({ s with queue := item :: queue }, [])
    else if s.requestTimeout ≤ world.now item - item.receivedAt then
      let (s, events) := drainFrom world queue s
      (s, .expired item :: events)
    else
      let (s, starts) := s.startRequest world item
      let (s, events) := drainFrom world queue s
      (s, starts ++ events)

/-- `drain_queue`. -/
def drainQueue (world : World R) (s : State R) : State R × List (Event R) := drainFrom world s.queue s

/-- `Enum.find(state.running, fn {_monitor, entry} -> entry.token == token end)`. -/
def findRunning (s : State R) (token : ℕ) : Option (ℕ × Entry) :=
  s.running.toList.find? fun running ↦ running.2.token = token

/-- `remove_running`, and the drain that follows it. -/
def release (world : World R) (monitor : ℕ) (entry : Entry) (s : State R) : State R × List (Event R) :=
  let (s, events) := { s with running := s.running.erase monitor }.drainQueue world
  (s, .finished entry.token :: events)

/-- `handle_refresh_down`. -/
def handleRefreshDown (monitor : ℕ) (s : State R) : State R × List (Event R) :=
  match s.refreshes.toList.find? fun refresh ↦ refresh.2.monitor = monitor with
  | none => (s, [])
  | some (token, entry) =>
    ({ s with refreshes := s.refreshes.erase token }, [.refreshed entry.caller .backendError])

/-- `handle_info` of a request. -/
def handleRequest (world : World R) (body : R) (s : State R) : State R × List (Event R) :=
  let item := ⟨s.nextRef, body, world.arrival⟩
  let (s, events) := { s with nextRef := s.nextRef + 1 }.dispatchOrQueue world item
  (s, .accepted item :: events)

/-- `handle_info` of the other messages, and `handle_call` of a refresh that the backend supports. -/
def handleControl (world : World R) (s : State R) : Control → State R × List (Event R)
  | .taskDone token =>
    match s.findRunning token with
    | none => (s, [])
    | some (monitor, entry) => s.release world monitor entry
  | .taskTimeout token =>
    match s.findRunning token with
    | none => (s, [])
    | some (_, entry) => (s, [.killed entry.pid])
  | .down monitor =>
    match s.running[monitor]? with
    | none => s.handleRefreshDown monitor
    | some entry => s.release world monitor entry
  | .refresh caller =>
    match world.startRefresh with
    | none => ({ s with nextRef := s.nextRef + 1 }, [.refreshed caller .taskStartFailed])
    | some pid =>
      let refresh := ⟨caller, pid, s.nextRef + 1, s.nextRef + 2⟩
      ({ s with refreshes := s.refreshes.insert s.nextRef refresh, nextRef := s.nextRef + 3 }, [])
  | .refreshDone token ok =>
    match s.refreshes[token]? with
    | none => (s, [])
    | some entry =>
      ({ s with refreshes := s.refreshes.erase token }, [.refreshed entry.caller (.result ok)])
  | .refreshTimeout token =>
    match s.refreshes[token]? with
    | none => (s, [])
    | some entry =>
      ({ s with refreshes := s.refreshes.erase token },
        [.killed entry.pid, .refreshed entry.caller .providerTimeout])
  | .ignored => (s, [])

/-- The clauses of the process. -/
def handle (world : World R) (s : State R) : Message R → State R × List (Event R)
  | .request body => s.handleRequest world body
  | .control control => s.handleControl world control

/-- A process handles its messages one after the other. -/
def run (s : State R) : List (World R × Message R) → State R × List (Event R)
  | [] => (s, [])
  | (world, message) :: rest =>
    let (s, events) := s.handle world message
    let (s, later) := s.run rest
    (s, events ++ later)

end State

end Gitility.Dispatcher

/-! ### The two processes -/

namespace Gitility.OdbProvider

open Dispatcher

/-- `callback_kind`. -/
inductive CallbackKind where
  | odb
  | range
  deriving DecidableEq, Repr

/-- The kinds of an object request. -/
inductive Kind where
  | header
  | object
  | prefetch
  deriving DecidableEq, Repr

/-- `Gitility.ByteRange`. -/
structure ByteRange where
  key : Bytes
  offset : ℕ
  length : ℕ
  deriving DecidableEq, Repr

/-- `{request, kind, payload}`. -/
inductive Body where
  | oids (request : ℕ) (kind : Kind) (oids : List (HashKind × Bytes))
  | manifest (request : ℕ)
  | readRanges (request : ℕ) (ranges : List ByteRange)
  deriving DecidableEq, Repr

/-- The messages of `lib/gitility/odb/provider.ex`. -/
inductive Info where
  | providerRequest (request : ℕ) (kind : Kind) (oidBytes : List Bytes)
  | rangeManifest (request : ℕ)
  | rangeReadRanges (request : ℕ) (ranges : List ByteRange)
  | control (control : Control)

/-- What the guards of the clauses read. -/
structure Config where
  callbackKind : CallbackKind
  hash : HashKind
  /-- `function_exported?(state.backend, :refresh, 1)`. -/
  refreshExported : Bool

/-- The clause that takes a message. -/
def Config.message (config : Config) : Info → Message Body
  | .providerRequest request kind oidBytes =>
    if config.callbackKind = .odb then .request (.oids request kind (oidBytes.map fun bytes ↦ (config.hash, bytes)))
    else .control .ignored
  | .rangeManifest request =>
    if config.callbackKind = .range then .request (.manifest request) else .control .ignored
  | .rangeReadRanges request ranges =>
    if config.callbackKind = .range then .request (.readRanges request ranges) else .control .ignored
  | .control (.refresh caller) =>
    if config.callbackKind = .odb ∧ config.refreshExported then .control (.refresh caller)
    else .control .ignored
  | .control control => .control control

/-- The process handles its messages. -/
def Config.run (config : Config) (s : State Body) (infos : List (World Body × Info)) :
    State Body × List (Event Body) :=
  s.run (infos.map fun x ↦ (x.1, config.message x.2))

end Gitility.OdbProvider

namespace Gitility.RefProvider

open Dispatcher

/-- `{request, kind, payload}`; a query is a prefix, a limit and a cursor. -/
inductive Body where
  | resolve (request : ℕ) (name : Bytes)
  | list (request : ℕ) (query : Option Bytes × ℕ × Option Bytes)
  deriving DecidableEq, Repr

/-- The messages of `lib/gitility/ref_db/provider.ex`. -/
inductive Info where
  | resolve (request : ℕ) (name : Bytes)
  | list (request : ℕ) (query : Option Bytes × ℕ × Option Bytes)
  | control (control : Control)

/-- The clause that takes a message; `encode64` is `Base.url_encode64`, without padding. -/
def message (refreshExported : Bool) (encode64 : Bytes → Bytes) : Info → Message Body
  | .resolve request name => .request (.resolve request name)
  | .list request (scope, limit, cursor) => .request (.list request (scope, limit, cursor.map encode64))
  | .control (.refresh caller) => if refreshExported then .control (.refresh caller) else .control .ignored
  | .control control => .control control

/-- The process handles its messages. -/
def run (refreshExported : Bool) (encode64 : Bytes → Bytes) (s : State Body) (infos : List (World Body × Info)) :
    State Body × List (Event Body) :=
  s.run (infos.map fun x ↦ (x.1, message refreshExported encode64 x.2))

end Gitility.RefProvider
