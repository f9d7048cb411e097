import Mathlib.Data.List.AList
import Mathlib.Logic.Function.Basic
import Gitility.Base.Runs
import Gitility.Base.Object
import Gitility.Runtime.Jobs

/-!
# Leases of fetch destinations

`lib/gitility/fetch/locks.ex`: the server that keeps at most one lease for each destination path. It
handles one message at a time. Calls come from any process, and the messages about jobs, monitors and
timers may be late, repeated or meant for an earlier lease.
-/

namespace Gitility.Fetch

open Gitility.Runtime (JobState)

/-- A `Gitility.Job` handle: the native resource, and the identifier that its runtime gave it. -/
structure Job where
  ref : ℕ
  id : ℕ
  deriving DecidableEq

/-- An attached job, and whether it is marked terminal. -/
structure JobEntry where
  job : Job
  terminal : Bool
  deriving DecidableEq

/-- A lease. Its generation and its monitor are references, of which no two are the same. -/
structure Lease where
  generation : ℕ
  holder : ℕ
  monitor : ℕ
  timeoutMs : ℕ
  released : Bool := false
  pending : Bool := false
  jobs : AList (fun _ : ℕ ↦ JobEntry) := ∅
  graceDeadline : Option ℤ := none

/-- The state of the server: a lease for each busy destination. -/
abbrev Leases := AList fun _ : String ↦ Lease

/-- A timer that was started for a `:pending_grace` message. -/
structure Timer where
  key : String
  generation : ℕ
  deadline : ℤ
  delay : ℤ

/-- The server and what it depends on: fresh references, `System.monotonic_time`, the native jobs and the
processes that have died. `cancelled` lists the jobs that it has cancelled and `timers` the timers that it
has started. -/
structure State where
  leases : Leases := ∅
  nextRef : ℕ := 0
  now : ℤ := 0
  status : ℕ → JobState := fun _ ↦ .queued
  dead : List ℕ := []
  cancelled : List ℕ := []
  timers : List Timer := []

/-- What `Native.job_register_waiter` does: it answers, or it returns something else or raises. -/
inductive WaiterAnswer where
  | terminal
  | registered
  | unexpected

/-- A call of the server. -/
inductive Call where
  | acquire (timeoutMs : ℕ)
  | pendingSubmit
  | submissionFailed
  | attach (job : Job) (answer : WaiterAnswer)
  | release

/-- The server handles a message, or something happens around it. -/
inductive Move where
  | call (key : String) (holder : ℕ) (call : Call)
  | done (id : ℕ)
  | down (monitor holder : ℕ)
  | pendingGrace (key : String) (generation : ℕ) (deadline : ℤ)
  | tick (now : ℤ)
  | die (process : ℕ)
  | progress (ref : ℕ) (state : JobState)

/-! ### The server's helpers -/

/-- `@max_timer_ms`. -/
def maxTimerMs : ℤ := 4294967295

/-- The error of a busy destination. -/
def busy : Error :=
  { Error.new .busy "fetch destination is busy" with retryable := true }

/-- `terminal_states`. -/
def terminalStates : List JobState := [.completed, .failed, .cancelled]

/-- `waiter_already_terminal?`. -/
def waiterAlreadyTerminal : WaiterAnswer → Bool
  | .terminal => true
  | .registered => false
  | .unexpected => false

/-- `releasable?`. -/
def Lease.releasable (lease : Lease) : Bool :=
  lease.released && !lease.pending && lease.jobs.entries.all fun e ↦ e.2.terminal

/-- `holder_lease`; `none` is `:stale`. -/
def holderLease (leases : Leases) (key : String) (holder : ℕ) : Option Lease :=
  match leases.lookup key with
  | some lease => if lease.holder = holder then some lease else none
  | none => none

/-- `drop_lease`. A monitor that is gone sends nothing more, but no message of it would matter. -/
def dropLease (leases : Leases) (key : String) : Leases := leases.erase key

/-- `put_or_finish`. -/
def putOrFinish (leases : Leases) (key : String) (lease : Lease) : Leases :=
  if lease.releasable then dropLease leases key else leases.insert key lease

namespace State

/-- `schedule_grace`. -/
def scheduleGrace (s : State) (key : String) (generation : ℕ) (deadline : ℤ) : State :=
  let remaining := max (deadline - s.now) 0
  { s with timers := s.timers ++ [⟨key, generation, deadline, min remaining maxTimerMs⟩] }

/-- `Job.cancel` of every job of a lease that is not marked terminal. -/
def cancelJobs (s : State) (lease : Lease) : State :=
  { s with cancelled := s.cancelled ++
      ((lease.jobs.entries.filter fun e ↦ !e.2.terminal).map fun e ↦ e.2.job.ref) }

/-! ### The handlers -/

/-- `handle_call`. -/
def handleCall (s : State) (key : String) (holder : ℕ) : Call → State × Except Error Unit
  | .acquire timeoutMs =>
    if (s.leases.lookup key).isSome then (s, .error busy)
    else
      let lease : Lease :=
        { generation := s.nextRef + 1, holder, monitor := s.nextRef, timeoutMs }
      ({ s with leases := s.leases.insert key lease, nextRef := s.nextRef + 2 }, .ok ())
  | .pendingSubmit =>
    match holderLease s.leases key holder with
    | some lease => ({ s with leases := s.leases.insert key { lease with pending := true } }, .ok ())
    | none => (s, .ok ())
  | .submissionFailed =>
    match holderLease s.leases key holder with
    | some lease => ({ s with leases := putOrFinish s.leases key { lease with pending := false } }, .ok ())
    | none => (s, .ok ())
  | .attach job answer =>
    match holderLease s.leases key holder with
    | some lease =>
      let terminal := waiterAlreadyTerminal answer
      let jobs := lease.jobs.insert job.id ⟨job, terminal⟩
      ({ s with leases := putOrFinish s.leases key { lease with pending := false, jobs } }, .ok ())
    | none => (s, .ok ())
  | .release =>
    match s.leases.lookup key with
    | some lease =>
      if lease.holder = holder then
        ({ s with leases := putOrFinish s.leases key { lease with released := true } }, .ok ())
      else (s, .ok ())
    | none => (s, .ok ())

/-- `handle_info` of `{:gitility_job, id, :done}`. -/
def handleDone (s : State) (id : ℕ) : State :=
  s.leases.entries.foldl (fun acc e ↦
    match e.2.jobs.lookup id with
    | some jobState =>
      let terminal := jobState.terminal || decide (s.status jobState.job.ref ∈ terminalStates)
      let jobs := e.2.jobs.insert id { jobState with terminal }
      { acc with leases := putOrFinish acc.leases e.1 { e.2 with jobs } }
    | none => acc) s

/-- `handle_info` of `{:DOWN, monitor, :process, holder, _reason}`. -/
def handleDown (s : State) (monitor holder : ℕ) : State :=
  s.leases.entries.foldl (fun acc e ↦
    if e.2.monitor = monitor ∧ e.2.holder = holder then
      let acc := acc.cancelJobs e.2
      let lease := { e.2 with released := true }
      if lease.pending then
        let deadline := s.now + 2 * lease.timeoutMs
        let acc := acc.scheduleGrace e.1 lease.generation deadline
        { acc with leases := acc.leases.insert e.1 { lease with graceDeadline := some deadline } }
      else { acc with leases := putOrFinish acc.leases e.1 lease }
    else acc) s

/-- `handle_info` of `{:pending_grace, key, generation, deadline}`. -/
def handlePendingGrace (s : State) (key : String) (generation : ℕ) (deadline : ℤ) : State :=
  match s.leases.lookup key with
  | some lease =>
    if lease.generation = generation ∧ lease.pending ∧ lease.released then
      if deadline ≤ s.now then { s with leases := dropLease s.leases key }
      else s.scheduleGrace key generation deadline
    else s
  | none => s

/-! ### Runs -/

/-- What `job_register_waiter` can do about a job. -/
def answers (s : State) (job : Job) : WaiterAnswer → Bool
  | .terminal => (s.status job.ref).isTerminal
  | .registered => !(s.status job.ref).isTerminal
  | .unexpected => true

/-- One move. Monitors report only processes that have died, time does not go back, and a job that has ended
stays as it is. -/
def step (s : State) : Move → Option State
  | .call key holder (.attach job answer) =>
    if s.answers job answer then some (s.handleCall key holder (.attach job answer)).1 else none
  | .call key holder call => some (s.handleCall key holder call).1
  | .done id => some (s.handleDone id)
  | .down monitor holder => if holder ∈ s.dead then some (s.handleDown monitor holder) else none
  | .pendingGrace key generation deadline => some (s.handlePendingGrace key generation deadline)
  | .tick now => if s.now ≤ now then some { s with now } else none
  | .die process => some { s with dead := process :: s.dead }
  | .progress ref state =>
    if (s.status ref).isTerminal then none
    else some { s with status := Function.update s.status ref state }

end State

end Gitility.Fetch
