import Mathlib.Data.List.Sort
import Mathlib.Logic.Function.Basic
import Gitility.Base.Object

/-!
# The provider rendezvous

The request protocol of `crates/gitility-core/src/provider_odb.rs`, which
`crates/gitility-core/src/provider_refs.rs` repeats for references: the two differ in their payloads
and in the texts of their errors. A call of `send_and_wait` puts the sender of a one-place channel
into a shared table, and whoever takes the sender out of the table may send one message. Threads
take one action at a time, where an action is one section under the lock of the table, one atomic
access or one channel operation.
-/

namespace Gitility.Provider

/-- `provider_odb.rs` `provider_down`. -/
def providerDown : Error :=
  { Error.new .providerDown "provider process is down" with retryable := true }

/-- `provider_refs.rs` `provider_down`. -/
def refProviderDown : Error :=
  { Error.new .providerDown "ref provider process is down" with retryable := true }

/-- What goes through the channel of a request. -/
abbrev Message (Payload : Type) := Except Error Payload

/-- One call of `send_and_wait`: its identifier, whether the sender of its channel still exists,
what the channel holds and what the call has returned. -/
structure Request (Payload : Type) where
  id : ℕ
  sender : Bool
  buffer : Option (Message Payload)
  result : Option (Message Payload)

/-- The `senders` of a `PendingTable`: identifiers in ascending order, each with the call whose
sender is kept there. -/
abbrev PendingTable := List (ℕ × ℕ)

namespace PendingTable

/-- `BTreeMap::get`. -/
def get (table : PendingTable) (id : ℕ) : Option ℕ :=
  (table.find? fun entry ↦ entry.1 = id).map Prod.snd

/-- `BTreeMap::remove`, without the removed sender. -/
def remove (table : PendingTable) (id : ℕ) : PendingTable :=
  table.filter fun entry ↦ entry.1 ≠ id

/-- `PendingTable::insert`. -/
def insert (table : PendingTable) (id call : ℕ) : PendingTable :=
  (table.remove id).orderedInsert (·.1 ≤ ·.1) (id, call)

end PendingTable

/-- The shared state of a provider store. A call is named by its position in `requests`. `down` says
that a call of `fail_all` has finished. -/
structure Shared (Payload : Type) where
  requests : List (Request Payload)
  pending : PendingTable
  alive : Bool
  nextId : ℕ
  down : Bool

/-- The next action of a thread. The actions up to `abandon` belong to `send_and_wait`. -/
inductive Act (Payload : Type) where
  | fetchId
  | insert (call : ℕ)
  | ensureAlive (call : ℕ)
  | request (call : ℕ)
  | check (call : ℕ)
  | receive (call : ℕ)
  | cancel (call : ℕ) (error : Error)
  | abandon (call : ℕ)
  | skipId
  | reply (id : ℕ) (message : Message Payload)
  | send (call : ℕ) (named : Option ℕ) (message : Message Payload)
  | storeDead (error : Error)
  | drain (error : Error)
  | finish

/-- What an action does that callers can see. -/
inductive Event (Payload : Type) where
  | taken (call id : ℕ)
  | cancelled (call : ℕ)
  | delivered (call : ℕ) (named : Option ℕ) (message : Message Payload)
  | ended (call : ℕ) (result : Message Payload)

variable {Payload : Type}

namespace Shared

/-- Assignment to one call. -/
def modify (s : Shared Payload) (call : ℕ) (f : Request Payload → Request Payload) :
    Shared Payload :=
  { s with requests := s.requests.modify call f }

/-- The sender that the table keeps under an identifier is dropped. -/
def dropSender (s : Shared Payload) (id : ℕ) : Shared Payload :=
  match s.pending.get id with
  | none => s
  | some call => s.modify call fun request ↦ { request with sender := false }

/-- `PendingTable::cancel` and the return of an error. -/
def giveUp (s : Shared Payload) (call id : ℕ) (error : Error) : Shared Payload :=
  { s.dropSender id with pending := s.pending.remove id }.modify call fun request ↦
    { request with result := some (.error error) }

/-- What one action does to the shared state, what the thread does next, and what callers see.
`none` means that the action has to wait. `failure` is what the transport, the budget or the clock
answers where an action asks them, and `downError` is the error of a dead provider. -/
def exec (downError : Error) (s : Shared Payload) (failure : Option Error) :
    Act Payload → Option (Shared Payload × List (Act Payload) × Option (Event Payload))
  -- send_and_wait
  | .fetchId =>
    some ({ s with
      requests := s.requests ++ [⟨s.nextId, true, none, none⟩]
      nextId := (s.nextId + 1) % 2 ^ 64 }, [.insert s.requests.length], none)
  | .insert call => do
    let request ← s.requests[call]?
    return ({ s.dropSender request.id with pending := s.pending.insert request.id call },
      [.ensureAlive call], none)
  | .ensureAlive call =>
    if s.alive then some (s, [.request call], none) else some (s, [.abandon call], none)
  | .request call =>
    match failure with
    | some error => some (s, [.cancel call error], none)
    | none => some (s, [.check call], none)
  | .check call =>
    match failure with
    | some error => some (s, [.cancel call error], none)
    | none => some (s, [.receive call], none)
  | .receive call => do
    let request ← s.requests[call]?
    match request.buffer with
    | some message =>
      return (s.modify call fun request ↦ { request with buffer := none, result := some message },
        [], some (.ended call message))
    | none =>
      if request.sender then return (s, [.check call], none)
      else return (s, [.cancel call downError], none)
  | .cancel call error => do
    let request ← s.requests[call]?
    return (s.giveUp call request.id error, [], some (.cancelled call))
  | .abandon call => do
    let request ← s.requests[call]?
    return (s.giveUp call request.id downError, [], some (.cancelled call))
  -- ProviderOdb::prefetch, whose sender never enters the table
  | .skipId => some ({ s with nextId := (s.nextId + 1) % 2 ^ 64 }, [], none)
  -- PendingTable::reply and PendingTable::reply_error
  | .reply id message =>
    match s.pending.get id with
    | none => some (s, [], none)
    | some call =>
      some ({ s with pending := s.pending.remove id }, [.send call (some id) message],
        some (.taken call id))
  | .send call named message => do
    let request ← s.requests[call]?
    if request.buffer.isSome then none
    else return (s.modify call fun request ↦ { request with buffer := some message, sender := false },
      [], some (.delivered call named message))
  -- fail_all
  | .storeDead error => some ({ s with alive := false }, [.drain error], none)
  | .drain error =>
    some ({ s with pending := [] },
      s.pending.map (fun entry ↦ .send entry.2 none (.error error)) ++ [.finish], none)
  | .finish => some ({ s with down := true }, [], none)

end Shared

/-- The calls a thread can make. -/
inductive Call (Payload : Type) where
  | sendAndWait
  | prefetch
  | reply (id : ℕ) (message : Message Payload)
  | failAll (error : Error)

/-- The action a call starts with. -/
def Call.act : Call Payload → Act Payload
  | .sendAndWait => .fetchId
  | .prefetch => .skipId
  | .reply id message => .reply id message
  | .failAll error => .storeDead error

/-- The shared state and what each thread still has to do. -/
structure System (Payload : Type) where
  shared : Shared Payload
  threads : ℕ → List (Act Payload)

/-- One scheduling decision. -/
inductive Move (Payload : Type) where
  | act (thread : ℕ) (failure : Option Error)
  | call (thread : ℕ) (call : Call Payload)
  | pause

/-- The thread that takes an action in a move. -/
def Move.mover : Move Payload → Option ℕ
  | .act thread _ => some thread
  | _ => none

namespace System

/-- A new store, with every thread idle. -/
def init : System Payload := ⟨⟨[], [], true, 1, false⟩, fun _ ↦ []⟩

/-- One move. `none` means that it is not enabled. -/
def step (downError : Error) (s : System Payload) :
    Move Payload → Option (System Payload × Option (Event Payload))
  | .act thread failure =>
    match s.threads thread with
    | [] => none
    | act :: rest => do
      let (shared, todo, event) ← s.shared.exec downError failure act
      return (⟨shared, Function.update s.threads thread (todo ++ rest)⟩, event)
  | .call thread call =>
    match s.threads thread with
    | [] => some ({ s with threads := Function.update s.threads thread [call.act] }, none)
    | _ :: _ => none
  | .pause => some (s, none)

/-- The states reached from the initial one, with everything that happened on the way. -/
inductive Reachable (downError : Error) : List (Event Payload) → System Payload → Prop where
  | init : Reachable downError [] init
  | step {trace : List (Event Payload)} {s s' : System Payload} {move : Move Payload}
      {event : Option (Event Payload)} (h : Reachable downError trace s)
      (hs : s.step downError move = some (s', event)) :
      Reachable downError (trace ++ event.toList) s'

/-- A schedule, with everything that happens in it. -/
def run (downError : Error) (s : System Payload) :
    List (Move Payload) → Option (List (Event Payload) × System Payload)
  | [] => some ([], s)
  | move :: moves => do
    let (s, event) ← s.step downError move
    let (trace, s) ← run downError s moves
    return (event.toList ++ trace, s)

/-- A schedule leads from a reachable state to a reachable state. -/
theorem Reachable.run {downError : Error} {trace trace' : List (Event Payload)}
    {s s' : System Payload} {moves : List (Move Payload)} (h : Reachable downError trace s)
    (hr : s.run downError moves = some (trace', s')) : Reachable downError (trace ++ trace') s' := by
  induction moves generalizing trace trace' s with
  | nil =>
    cases hr
    rw [List.append_nil]
    exact h
  | cons move moves ih =>
    simp only [System.run, Option.bind_eq_bind, Option.bind_eq_some_iff] at hr
    obtain ⟨⟨s₁, event⟩, hstep, ⟨trace₁, s₂⟩, hrun, heq⟩ := hr
    cases heq
    rw [← List.append_assoc]
    exact ih (h.step hstep) hrun

end System
end Gitility.Provider
