import Mathlib.Data.List.AList
import Mathlib.Data.List.Sort
import Mathlib.Logic.Function.Basic
import Gitility.Base.Object

/-!
# The job runtime

`crates/gitility-core/src/runtime/mod.rs`. Any number of threads share one queue and the jobs
admitted so far. A thread holds the actions it still has to take; one action is one
mutex-held section, one compare-exchange or one atomic access of the source, except that the
section of `publish_terminal` under the output lock is cut at each of its accesses, because
`try_start` races with it. A move lets one thread take its next action, an idle thread start
a call, or time pass.
-/

namespace Gitility.Runtime

/-- `JobState`. -/
inductive JobState where
  | queued
  | running
  | completed
  | failed
  | cancelled
  deriving DecidableEq

/-- `JobState::is_terminal`. -/
def JobState.isTerminal : JobState → Bool
  | .completed | .failed | .cancelled => true
  | .queued | .running => false

/-- The admission limits of `RuntimeConfig`, and the last instant the platform's clock can
represent, past which a deadline is treated as unbounded. -/
structure RuntimeConfig where
  maxQueue : ℕ
  maxJobsPerOwner : ℕ
  retryAfterMs : ℕ
  lastInstant : ℕ

/-- `BusyReason`. -/
inductive BusyReason where
  | queueFull
  | ownerCeiling
  deriving DecidableEq

/-- `SubmitError`. -/
inductive SubmitError where
  | busy (reason : BusyReason) (retryAfterMs : ℕ)
  | shuttingDown
  deriving DecidableEq

/-- `ShutdownPhase`. -/
inductive ShutdownPhase where
  | notStarted
  | inProgress
  | complete
  deriving DecidableEq

/-- The consumed part of `JobSpec`: the task closure and its time limit. -/
structure JobSpec (Task : Type) where
  task : Task
  timeoutMs : Option ℕ

/-- `Job`, with the cancellation flag and deadline of its budget. `locked` says that a thread
holds the output mutex between two of the actions below. -/
structure Job (Task Output : Type) where
  id : ℕ
  owner : ℕ
  state : JobState
  cancelFlag : Bool
  deadline : Option ℕ
  task : Option Task
  output : Option (Except Error Output)
  locked : Bool

/-- `Counters`, whose fields wrap at `2 ^ 64`. -/
structure Counters where
  submitted : ℕ
  completed : ℕ
  failed : ℕ
  cancelled : ℕ
  rejected : ℕ
  running : ℕ

/-- `AtomicU64::fetch_add(1)`. -/
def fetchAdd (n : ℕ) : ℕ := (n + 1) % 2 ^ 64

/-- `AtomicU64::fetch_sub(1)`. -/
def fetchSub (n : ℕ) : ℕ := (n + (2 ^ 64 - 1)) % 2 ^ 64

/-- `Shared` with its `QueueState`, the shutdown phase of `Runtime` and the clock. A job is
named by its position in `jobs`, which stands for the identity of its `Arc`. -/
structure Shared (Task Output : Type) where
  jobs : List (Job Task Output)
  queue : List ℕ
  active : List (ℕ × ℕ)
  owners : AList fun _ : ℕ ↦ ℕ
  shuttingDown : Bool
  counters : Counters
  nextJobId : ℕ
  phase : ShutdownPhase
  requestComplete : Bool
  now : ℕ

/-- The arguments of one `publish_terminal` call, and whether its caller discards the task
when it succeeds. -/
structure Publication (Output : Type) where
  job : ℕ
  source : JobState
  target : JobState
  result : Except Error Output
  discard : Bool

/-- The next action of a thread. -/
inductive Act (Task Output : Type) where
  | submit (owner : ℕ) (spec : JobSpec Task) (submittedAt : ℕ)
  | raiseCancel (job : ℕ)
  | checkQueued (job : ℕ)
  | unqueue (job : ℕ)
  | publish (p : Publication Output)
  | writeOutput (p : Publication Output)
  | exchange (p : Publication Output) (previous : Option (Except Error Output))
  | restore (p : Publication Output) (previous : Option (Except Error Output))
  | release (p : Publication Output)
  | recordRunning (p : Publication Output)
  | recordCounter (p : Publication Output)
  | recordActive (p : Publication Output)
  | observe (p : Publication Output)
  | discardTask (job : ℕ)
  | workerLoop
  | tryStart (job : ℕ)
  | countRunning (job : ℕ)
  | check (job : ℕ)
  | discardRunning (job : ℕ) (error : Error)
  | takeTask (job : ℕ)
  | runTask (job : ℕ) (task : Task)
  | finalCheck (job : ℕ) (output : Output)
  | readTerminal (job : ℕ)
  | takeOutput (job : ℕ)
  | requestShutdown
  | beginShutdown
  | publishShutdown

/-- What happens to a job. -/
inductive JobEvent (Output : Type) where
  | started
  | taskRun
  | ended (source target : JobState) (result : Except Error Output)
  | observed
  | taken (result : Except Error Output)

namespace JobEvent

variable {Output : Type}

/-- A transition into a terminal state. -/
def isEnded : JobEvent Output → Bool
  | .ended .. => true
  | _ => false

/-- A call of the observer. -/
def isObserved : JobEvent Output → Bool
  | .observed => true
  | _ => false

/-- A run of the task closure. -/
def isTaskRun : JobEvent Output → Bool
  | .taskRun => true
  | _ => false

/-- A result handed out by `take_output`. -/
def isTaken : JobEvent Output → Bool
  | .taken _ => true
  | _ => false

end JobEvent

/-- What an action does that callers can see. -/
inductive Event (Output : Type) where
  | admitted (job : ℕ)
  | rejected (error : SubmitError)
  | job (job : ℕ) (event : JobEvent Output)

/-- How a task closure returns to `Job::run`. -/
inductive TaskOutcome (Output : Type) where
  | returned (result : Except Error Output)
  | panicked

/-- `cancelled_error`. -/
def cancelledError : Error := .new .cancelled "operation cancelled"

/-- `timeout_error`. -/
def timeoutError : Error := .new .timeout "operation budget expired"

/-- `panic_error`. -/
def panicError : Error := .new .backendError "internal engine panic — this is a Gitility bug"

/-- The error of `Job::run` for an absent closure. -/
def taskUnavailable : Error := .new .backendError "job task was unavailable"

variable {Task Output : Type}

/-- `Budget::deadline_expired`. -/
def Job.deadlineExpired (job : Job Task Output) (now : ℕ) : Bool :=
  job.deadline.any (· ≤ now)

/-- `Budget::check`. -/
def Job.checkBudget (job : Job Task Output) (now : ℕ) : Except Error Unit :=
  if job.cancelFlag then .error cancelledError
  else if job.deadlineExpired now then .error timeoutError
  else .ok ()

/-- The terminal state `finish_running` publishes for a result. -/
def terminalOf : Except Error Output → JobState
  | .ok _ => .completed
  | .error error => if error.code = .cancelled then .cancelled else .failed

/-- `Job::finish_running`. -/
def finishRunning (job : ℕ) (result : Except Error Output) : Act Task Output :=
  .publish ⟨job, .running, terminalOf result, result, false⟩

/-- `Job::cancel`. -/
def cancel (job : ℕ) : List (Act Task Output) :=
  [.raiseCancel job, .checkQueued job]

/-- The publication of `Job::cancel`. -/
def publishCancelled (job : ℕ) : Act Task Output :=
  .publish ⟨job, .queued, .cancelled, .error cancelledError, true⟩

/-- `Job::expire`. -/
def expire (job : ℕ) : Act Task Output :=
  .publish ⟨job, .queued, .failed, .error timeoutError, true⟩

namespace Shared

/-- Assignment to one job. -/
def modifyJob (s : Shared Task Output) (job : ℕ) (f : Job Task Output → Job Task Output) :
    Shared Task Output :=
  { s with jobs := s.jobs.modify job f }

/-- Whether the job at the front of the queue is past its deadline. -/
def expired (s : Shared Task Output) (job : ℕ) : Bool :=
  s.jobs[job]?.any (·.deadlineExpired s.now)

/-- `take_expired_queue_head`. -/
def takeExpiredQueueHead (s : Shared Task Output) : List ℕ × Shared Task Output :=
  (s.queue.takeWhile s.expired, { s with queue := s.queue.dropWhile s.expired })

/-- The admission part of `submit`, once no queued head is expired. -/
def admission (config : RuntimeConfig) (s : Shared Task Output) (owner : ℕ) (spec : JobSpec Task)
    (submittedAt : ℕ) : Event Output × Shared Task Output :=
  let reject (error : SubmitError) : Event Output × Shared Task Output :=
    (.rejected error,
      { s with counters := { s.counters with rejected := fetchAdd s.counters.rejected } })
  if s.shuttingDown then reject .shuttingDown
  else if (s.owners.lookup owner).getD 0 ≥ config.maxJobsPerOwner then
    reject (.busy .ownerCeiling config.retryAfterMs)
  else if s.queue.length ≥ config.maxQueue then reject (.busy .queueFull config.retryAfterMs)
  else
    let job := s.jobs.length
    (.admitted job, { s with
      jobs := s.jobs ++ [{
        id := s.nextJobId
        owner
        state := .queued
        cancelFlag := false
        deadline := (spec.timeoutMs.map (submittedAt + ·)).filter (· ≤ config.lastInstant)
        task := some spec.task
        output := none
        locked := false }]
      active := (s.active.filter fun entry ↦ entry.1 ≠ s.nextJobId).orderedInsert
        (·.1 ≤ ·.1) (s.nextJobId, job)
      owners := s.owners.insert owner ((s.owners.lookup owner).getD 0 + 1)
      queue := s.queue ++ [job]
      counters := { s.counters with submitted := fetchAdd s.counters.submitted }
      nextJobId := fetchAdd s.nextJobId })

/-- The counter `record_terminal` raises. -/
def countTerminal (s : Shared Task Output) (terminal : JobState) : Shared Task Output :=
  match terminal with
  | .completed =>
    { s with counters := { s.counters with completed := fetchAdd s.counters.completed } }
  | .failed => { s with counters := { s.counters with failed := fetchAdd s.counters.failed } }
  | .cancelled =>
    { s with counters := { s.counters with cancelled := fetchAdd s.counters.cancelled } }
  | .queued | .running => s

/-- The section of `record_terminal` under the queue lock. -/
def recordInactive (s : Shared Task Output) (job : Job Task Output) : Shared Task Output :=
  if s.active.any fun entry ↦ entry.1 = job.id then
    let owners := match s.owners.lookup job.owner with
      | none => s.owners
      | some jobs =>
        if jobs - 1 = 0 then s.owners.erase job.owner else s.owners.insert job.owner (jobs - 1)
    { s with active := s.active.filter fun entry ↦ entry.1 ≠ job.id, owners }
  else s

/-- What one action does to the shared state, what the thread does next, and what callers
see. `none` means that the action has to wait. -/
def exec (config : RuntimeConfig) (s : Shared Task Output) (outcome : TaskOutcome Output) :
    Act Task Output → Option (Shared Task Output × List (Act Task Output) × Option (Event Output))
  -- Runtime::submit
  | .submit owner spec submittedAt =>
    match s.takeExpiredQueueHead with
    | ([], s) =>
      let (event, s) := s.admission config owner spec submittedAt
      some (s, [], some event)
    | (job :: expired, s) =>
      some (s, (job :: expired).map expire ++ [.submit owner spec submittedAt], none)
  -- Job::cancel
  | .raiseCancel job => do
    let _ ← s.jobs[job]?
    return (s.modifyJob job fun job ↦ { job with cancelFlag := true }, [], none)
  | .checkQueued job => do
    let record ← s.jobs[job]?
    if record.state = .queued then return (s, [.unqueue job, publishCancelled job], none)
    else return (s, [publishCancelled job], none)
  | .unqueue job => do
    let record ← s.jobs[job]?
    if record.state = .queued then
      return ({ s with
        queue := s.queue.eraseP fun other ↦ (s.jobs[other]?.map Job.id) = some record.id },
        [], none)
    else return (s, [], none)
  -- Job::publish_terminal
  | .publish p => do
    let job ← s.jobs[p.job]?
    if job.locked then none
    else if job.state ≠ p.source then return (s, [], none)
    else return (s.modifyJob p.job fun job ↦ { job with locked := true }, [.writeOutput p], none)
  | .writeOutput p => do
    let job ← s.jobs[p.job]?
    return (s.modifyJob p.job fun job ↦ { job with output := some p.result },
      [.exchange p job.output], none)
  | .exchange p previous => do
    let job ← s.jobs[p.job]?
    if job.state = p.source then
      return (s.modifyJob p.job fun job ↦ { job with state := p.target }, [.release p],
        some (.job p.job (.ended p.source p.target p.result)))
    else return (s, [.restore p previous], none)
  | .restore p previous => do
    let _ ← s.jobs[p.job]?
    return (s.modifyJob p.job fun job ↦ { job with output := previous, locked := false }, [], none)
  | .release p => do
    let _ ← s.jobs[p.job]?
    return (s.modifyJob p.job fun job ↦ { job with locked := false }, [.recordRunning p], none)
  | .recordRunning p =>
    if p.source = .running then
      some ({ s with counters := { s.counters with running := fetchSub s.counters.running } },
        [.recordCounter p], none)
    else some (s, [.recordCounter p], none)
  | .recordCounter p => some (s.countTerminal p.target, [.recordActive p], none)
  | .recordActive p => do
    let job ← s.jobs[p.job]?
    return (s.recordInactive job, [.observe p], none)
  | .observe p =>
    some (s, if p.discard then [.discardTask p.job] else [], some (.job p.job .observed))
  | .discardTask job => do
    let _ ← s.jobs[job]?
    return (s.modifyJob job fun job ↦ { job with task := none }, [], none)
  -- worker_loop
  | .workerLoop =>
    match s.takeExpiredQueueHead with
    | (job :: expired, s) => some (s, (job :: expired).map expire ++ [.workerLoop], none)
    | ([], s) =>
      match s.queue with
      | job :: queue => some ({ s with queue }, [.tryStart job, .workerLoop], none)
      | [] => if s.shuttingDown then some (s, [], none) else some (s, [.workerLoop], none)
  | .tryStart job => do
    let record ← s.jobs[job]?
    if record.state = .queued then
      return (s.modifyJob job fun job ↦ { job with state := .running }, [.countRunning job],
        some (.job job .started))
    else return (s, [.discardTask job], none)
  | .countRunning job =>
    some ({ s with counters := { s.counters with running := fetchAdd s.counters.running } },
      [.check job], none)
  -- Job::run
  | .check job => do
    let record ← s.jobs[job]?
    match record.checkBudget s.now with
    | .error error => return (s, [.discardRunning job error], none)
    | .ok () => return (s, [.takeTask job], none)
  | .discardRunning job error => do
    let _ ← s.jobs[job]?
    return (s.modifyJob job fun job ↦ { job with task := none },
      [finishRunning job (.error error)], none)
  | .takeTask job => do
    let record ← s.jobs[job]?
    let s := s.modifyJob job fun job ↦ { job with task := none }
    match record.task with
    | some task => return (s, [.runTask job task], some (.job job .taskRun))
    | none => return (s, [finishRunning job (.error taskUnavailable)], none)
  | .runTask job _ =>
    match outcome with
    | .returned (.ok output) => some (s, [.finalCheck job output], none)
    | .returned (.error error) => some (s, [finishRunning job (.error error)], none)
    | .panicked => some (s, [finishRunning job (.error panicError)], none)
  | .finalCheck job output => do
    let record ← s.jobs[job]?
    return (s, [finishRunning job ((record.checkBudget s.now).map fun () ↦ output)], none)
  -- Job::take_output
  | .readTerminal job => do
    let record ← s.jobs[job]?
    if record.state.isTerminal then return (s, [.takeOutput job], none)
    else return (s, [], none)
  | .takeOutput job => do
    let record ← s.jobs[job]?
    if record.locked then none
    else return (s.modifyJob job fun job ↦ { job with output := none }, [],
      record.output.map fun result ↦ .job job (.taken result))
  -- Runtime::request_shutdown
  | .requestShutdown =>
    if s.phase = .notStarted then
      some ({ s with phase := .inProgress }, [.beginShutdown], none)
    else some (s, [], none)
  | .beginShutdown =>
    some ({ s with shuttingDown := true, queue := [] },
      s.active.flatMap (fun entry ↦ cancel entry.2) ++ [.publishShutdown], none)
  | .publishShutdown => some ({ s with requestComplete := true }, [], none)

end Shared

/-- The calls a client thread can make; `worker` is the body of a worker thread. -/
inductive Call (Task : Type) where
  | submit (owner : ℕ) (spec : JobSpec Task)
  | cancel (job : ℕ)
  | takeOutput (job : ℕ)
  | requestShutdown
  | worker

/-- The actions a call starts with. -/
def Call.acts (now : ℕ) : Call Task → List (Act Task Output)
  | .submit owner spec => [.submit owner spec now]
  | .cancel job => Runtime.cancel job
  | .takeOutput job => [.readTerminal job]
  | .requestShutdown => [.requestShutdown]
  | .worker => [.workerLoop]

/-- The shared state and what each thread still has to do. -/
structure System (Task Output : Type) where
  shared : Shared Task Output
  threads : ℕ → List (Act Task Output)

/-- One scheduling decision. A task closure or an observer that calls back into the runtime
is a call of another thread between two actions. -/
inductive Move (Task Output : Type) where
  | act (thread : ℕ) (outcome : TaskOutcome Output)
  | call (thread : ℕ) (call : Call Task)
  | tick

namespace System

/-- `Shared::new`, with every thread idle. -/
def init : System Task Output where
  shared := {
    jobs := []
    queue := []
    active := []
    owners := ∅
    shuttingDown := false
    counters := ⟨0, 0, 0, 0, 0, 0⟩
    nextJobId := 1
    phase := .notStarted
    requestComplete := false
    now := 0 }
  threads _ := []

/-- One move. `none` means that it is not enabled. -/
def step (config : RuntimeConfig) (s : System Task Output) :
    Move Task Output → Option (System Task Output × Option (Event Output))
  | .act thread outcome =>
    match s.threads thread with
    | [] => none
    | act :: rest => do
      let (shared, todo, event) ← s.shared.exec config outcome act
      return (⟨shared, Function.update s.threads thread (todo ++ rest)⟩, event)
  | .call thread call =>
    match s.threads thread with
    | [] =>
      some ({ s with threads := Function.update s.threads thread (call.acts s.shared.now) }, none)
    | _ :: _ => none
  | .tick => some ({ s with shared := { s.shared with now := s.shared.now + 1 } }, none)

/-- The states reached from the initial one, with everything that happened on the way. -/
inductive Reachable (config : RuntimeConfig) :
    List (Event Output) → System Task Output → Prop
  | init : Reachable config [] init
  | step {trace : List (Event Output)} {s s' : System Task Output} {move : Move Task Output}
      {event : Option (Event Output)} :
      Reachable config trace s → s.step config move = some (s', event) →
      Reachable config (trace ++ event.toList) s'

/-- A schedule, with everything that happens in it. -/
def run (config : RuntimeConfig) (s : System Task Output) :
    List (Move Task Output) → Option (List (Event Output) × System Task Output)
  | [] => some ([], s)
  | move :: moves => do
    let (s, event) ← s.step config move
    let (trace, s) ← run config s moves
    return (event.toList ++ trace, s)

/-- A schedule leads from a reachable state to a reachable state. -/
theorem Reachable.run {config : RuntimeConfig} {trace trace' : List (Event Output)}
    {s s' : System Task Output} {moves : List (Move Task Output)} (h : Reachable config trace s)
    (hr : s.run config moves = some (trace', s')) : Reachable config (trace ++ trace') s' := by
  induction moves generalizing trace trace' s with
  | nil =>
    cases hr
    rw [List.append_nil]
    exact h
  | cons move moves ih =>
    simp only [System.run, Option.bind_eq_bind, Option.bind_eq_some_iff] at hr
    obtain ⟨⟨s₁, event⟩, hstep, ⟨trace₁, s₂⟩, hrun, heq⟩ := hr
    cases heq
    rw [← List.append_assoc]
    exact ih (h.step hstep) hrun

end System
end Gitility.Runtime
