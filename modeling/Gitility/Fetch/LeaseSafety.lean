import Gitility.Fetch.LeaseSteps

/-!
# Safety of leases

The flags and marks of a lease record what its holder, its jobs and its monitor have reported since it was
granted. So a lease that is dropped was over, and one that is kept still has something that holds it.
-/

namespace Gitility.Fetch

open Gitility.Runtime (JobState)

variable {s s' : State} {key : String} {holder : ℕ} {lease : Lease} {move : Move}

/-! ### What a lease records -/

/-- The calls that a process has made for a key. -/
def callsOf (key : String) (holder : ℕ) (steps : List (State × Move)) : List Call :=
  steps.filterMap fun x ↦ match x.2 with
    | .call key' holder' call => if key' = key ∧ holder' = holder then some call else none
    | _ => none

/-- Whether a submission is pending after calls of the holder. -/
def submissionPending (calls : List Call) : Bool :=
  calls.foldl (fun pending call ↦ match call with
    | .pendingSubmit => true
    | .submissionFailed | .attach .. => false
    | .acquire _ | .release => pending) false

/-- The jobs that calls of the holder have attached. -/
def attachedJobs (calls : List Call) : List Job :=
  calls.filterMap fun call ↦ match call with
    | .attach job _ => some job
    | _ => none

/-- The job that calls of the holder have attached last under an identifier. -/
def lastAttached (calls : List Call) (id : ℕ) : Option Job :=
  calls.foldl (fun last call ↦ match call with
    | .attach job _ => if job.id = id then some job else last
    | _ => last) none

/-- A lease records what has happened since it was granted. -/
structure Records (key : String) (holder monitor : ℕ) (since : List (State × Move)) (s : State)
    (lease : Lease) : Prop where
  ofHolder : lease.holder = holder
  ofMonitor : lease.monitor = monitor
  released : lease.released = true ↔ Call.release ∈ callsOf key holder since ∨
    Move.down monitor holder ∈ since.map Prod.snd
  dead : Move.down monitor holder ∈ since.map Prod.snd → holder ∈ s.dead
  pending : lease.pending = submissionPending (callsOf key holder since)
  attached : ∀ id, (lease.jobs.lookup id).map JobEntry.job = lastAttached (callsOf key holder since) id
  terminal : ∀ id, ∀ jobState ∈ lease.jobs.lookup id, jobState.terminal →
    (s.status jobState.job.ref).isTerminal

/-- Nothing holds the key for the process any more: it has released it or died, no submission is pending,
and the job that it has attached last under each identifier has ended. -/
structure Over (key : String) (holder : ℕ) (since : List (State × Move)) (s : State) : Prop where
  released : Call.release ∈ callsOf key holder since ∨ holder ∈ s.dead
  pending : submissionPending (callsOf key holder since) = false
  attached : ∀ id, ∀ job ∈ lastAttached (callsOf key holder since) id, (s.status job.ref).isTerminal

variable {monitor : ℕ} {since : List (State × Move)}

private theorem Records.over (h : Records key holder monitor since s lease) (hrel : lease.releasable = true) :
    Over key holder since s := by
  simp only [Lease.releasable, Bool.and_eq_true, Bool.not_eq_true', List.all_eq_true] at hrel
  obtain ⟨⟨hreleased, hpending⟩, hall⟩ := hrel
  refine ⟨(h.released.mp hreleased).imp_right h.dead, h.pending.symm.trans hpending, fun id job hjob ↦ ?_⟩
  rw [← h.attached id] at hjob
  obtain ⟨jobState, hlookup, rfl⟩ := Option.map_eq_some_iff.mp hjob
  exact h.terminal id jobState hlookup (hall _ (AList.mem_lookup_iff.mp hlookup))

private theorem callsOf_concat : callsOf key holder (since ++ [(s, move)]) = callsOf key holder since ++
    (match move with
    | .call key' holder' call => if key' = key ∧ holder' = holder then [call] else []
    | _ => []) := by
  unfold callsOf
  rw [List.filterMap_append]
  cases move with
  | call key' holder' call =>
    by_cases h : key' = key ∧ holder' = holder <;> simp [h]
  | _ => simp

/-- A lease that stays as it is keeps its records after a step. -/
theorem Records.later (h : Records key holder monitor since s lease) (hstep : s.step move = some s') :
    Records key holder monitor since s' lease := by
  obtain ⟨-, hdead, hterminal⟩ := State.step_mono hstep
  refine { h with
    dead := fun hm ↦ hdead (h.dead hm), terminal := fun id jobState hlookup hmarked ↦ ?_ }
  have ht := h.terminal id jobState hlookup hmarked
  rwa [hterminal _ ht]

/-- A move that is neither a call of the holder nor the end of the holder adds nothing to record. -/
theorem Records.pass (h : Records key holder monitor since s lease) {t : State}
    (hcalls : callsOf key holder (since ++ [(t, move)]) = callsOf key holder since)
    (hdown : move ≠ .down monitor holder) : Records key holder monitor (since ++ [(t, move)]) s lease := by
  have hmem : Move.down monitor holder ∈ (since ++ [(t, move)]).map Prod.snd ↔
      Move.down monitor holder ∈ since.map Prod.snd := by
    simp [hdown.symm]
  exact ⟨h.ofHolder, h.ofMonitor, by rw [hcalls, hmem]; exact h.released, fun hm ↦ h.dead (hmem.mp hm),
    hcalls ▸ h.pending, hcalls ▸ h.attached, h.terminal⟩

private theorem mem_terminalStates {state : JobState} : state ∈ terminalStates ↔ state.isTerminal := by
  cases state <;> decide

/-- A mark is made only for a job that has ended. -/
theorem Records.marked (h : Records key holder monitor since s lease) (id : ℕ) :
    Records key holder monitor since s (lease.marked s.status id) := by
  unfold Lease.marked
  cases hjob : lease.jobs.lookup id with
  | none => exact h
  | some found =>
    refine { h with
      attached := fun id' ↦ ?_, terminal := fun id' jobState hlookup hmarked ↦ ?_ }
    · rw [← h.attached id']
      by_cases hid : id' = id
      · subst hid
        rw [AList.lookup_insert, hjob]
        rfl
      · rw [AList.lookup_insert_ne hid]
    · by_cases hid : id' = id
      · subst hid
        rw [AList.lookup_insert] at hlookup
        cases hlookup
        rcases Bool.or_eq_true_iff.mp hmarked with hold | hstatus
        · exact h.terminal _ found hjob hold
        · exact mem_terminalStates.mp (of_decide_eq_true hstatus)
      · rw [AList.lookup_insert_ne hid] at hlookup
        exact h.terminal _ jobState hlookup hmarked

/-- The holder of a lease dies. -/
theorem Records.orphaned (h : Records key holder monitor since s lease)
    (hdead : holder ∈ s.dead) {since' : List (State × Move)}
    (hcalls : callsOf key holder since' = callsOf key holder since)
    (hdown : Move.down monitor holder ∈ since'.map Prod.snd) :
    Records key holder monitor since' s (lease.orphaned s.now) := by
  have hreleased : Records key holder monitor since' s { lease with released := true } :=
    ⟨h.ofHolder, h.ofMonitor, by simp [hdown], fun _ ↦ hdead, hcalls ▸ h.pending, hcalls ▸ h.attached,
      h.terminal⟩
  unfold Lease.orphaned
  split
  · exact { hreleased with }
  · exact hreleased

private theorem submissionPending_concat (calls : List Call) (call : Call) :
    submissionPending (calls ++ [call]) = match call with
      | .pendingSubmit => true
      | .submissionFailed | .attach .. => false
      | .acquire _ | .release => submissionPending calls := by
  cases call <;> simp [submissionPending]

private theorem lastAttached_concat (calls : List Call) (call : Call) (id : ℕ) :
    lastAttached (calls ++ [call]) id = match call with
      | .attach job _ => if job.id = id then some job else lastAttached calls id
      | _ => lastAttached calls id := by
  cases call <;> simp [lastAttached]

/-- Every attached job is the one attached last under its identifier, where no two jobs share one. -/
theorem lastAttached_of_mem {calls : List Call} {job : Job} (hjob : job ∈ attachedJobs calls)
    (hnames : ∀ job' ∈ attachedJobs calls, job'.id = job.id → job' = job) :
    lastAttached calls job.id = some job := by
  induction calls using List.reverseRecOn with
  | nil => cases hjob
  | append_singleton calls call ih =>
    have hsplit : attachedJobs (calls ++ [call]) = attachedJobs calls ++ attachedJobs [call] :=
      List.filterMap_append
    rw [hsplit] at hjob hnames
    have hbefore (hmem : job ∈ attachedJobs calls) : lastAttached calls job.id = some job :=
      ih hmem fun job' hjob' ↦ hnames job' (List.mem_append_left _ hjob')
    rw [lastAttached_concat]
    cases call with
    | attach job' answer =>
      by_cases hid : job'.id = job.id
      · have hmem : job' ∈ attachedJobs [Call.attach job' answer] := List.mem_cons_self
        obtain rfl := hnames job' (List.mem_append_right _ hmem) hid
        exact if_pos rfl
      · rcases List.mem_append.mp hjob with hmem | hmem
        · simp only [if_neg hid]
          exact hbefore hmem
        · obtain rfl : job = job' := by simpa [attachedJobs] using hmem
          exact absurd rfl hid
    | _ => exact hbefore (by simpa [attachedJobs] using hjob)

/-- Where no two attached jobs share an identifier, every attached job has ended when nothing holds the key. -/
theorem Over.ended (h : Over key holder since s)
    (hnames : ∀ job ∈ attachedJobs (callsOf key holder since), ∀ job' ∈ attachedJobs (callsOf key holder since),
      job'.id = job.id → job' = job) :
    ∀ job ∈ attachedJobs (callsOf key holder since), (s.status job.ref).isTerminal :=
  fun job hjob ↦ h.attached job.id job (lastAttached_of_mem hjob (hnames job hjob))

/-- The holder of a lease calls. -/
theorem Records.told (h : Records key holder monitor since s lease) (call : Call)
    {since' : List (State × Move)} (hcalls : callsOf key holder since' = callsOf key holder since ++ [call])
    (hdown : Move.down monitor holder ∈ since'.map Prod.snd ↔
      Move.down monitor holder ∈ since.map Prod.snd)
    (hanswer : ∀ job answer, call = .attach job answer → s.answers job answer) :
    Records key holder monitor since' s (lease.told call) := by
  have hdead : Move.down monitor holder ∈ since'.map Prod.snd → holder ∈ s.dead :=
    fun hm ↦ h.dead (hdown.mp hm)
  cases call with
  | acquire timeoutMs =>
    refine ⟨h.ofHolder, h.ofMonitor, ?_, hdead, ?_, ?_, h.terminal⟩
    · simpa [hcalls, hdown, Lease.told] using h.released
    · simpa [hcalls, submissionPending_concat, Lease.told] using h.pending
    · simpa [hcalls, lastAttached_concat, Lease.told] using h.attached
  | release =>
    refine ⟨h.ofHolder, h.ofMonitor, ?_, hdead, ?_, ?_, h.terminal⟩
    · simp [hcalls, Lease.told]
    · simpa [hcalls, submissionPending_concat, Lease.told] using h.pending
    · simpa [hcalls, lastAttached_concat, Lease.told] using h.attached
  | pendingSubmit =>
    refine ⟨h.ofHolder, h.ofMonitor, ?_, hdead, ?_, ?_, h.terminal⟩
    · simpa [hcalls, hdown, Lease.told] using h.released
    · simp [hcalls, submissionPending_concat, Lease.told]
    · simpa [hcalls, lastAttached_concat, Lease.told] using h.attached
  | submissionFailed =>
    refine ⟨h.ofHolder, h.ofMonitor, ?_, hdead, ?_, ?_, h.terminal⟩
    · simpa [hcalls, hdown, Lease.told] using h.released
    · simp [hcalls, submissionPending_concat, Lease.told]
    · simpa [hcalls, lastAttached_concat, Lease.told] using h.attached
  | attach job answer =>
    have hwaiter := hanswer job answer rfl
    refine ⟨h.ofHolder, h.ofMonitor, ?_, hdead, ?_, fun id ↦ ?_,
      fun id jobState hlookup hmarked ↦ ?_⟩
    · simpa [hcalls, hdown, Lease.told] using h.released
    · simp [hcalls, submissionPending_concat, Lease.told]
    · -- The new job takes the place of one with its identifier.
      rw [hcalls, lastAttached_concat, Lease.told]
      by_cases hid : id = job.id
      · subst hid
        simp
      · rw [AList.lookup_insert_ne hid, h.attached id]
        simp [Ne.symm hid]
    · by_cases hid : id = job.id
      · subst hid
        rw [Lease.told, AList.lookup_insert] at hlookup
        cases hlookup
        cases answer with
        | terminal => exact hwaiter
        | _ => cases hmarked
      · exact h.terminal id jobState ((AList.lookup_insert_ne hid).symm.trans hlookup) hmarked

/-- A lease goes on recording. -/
theorem Records.step (h : Records key holder monitor since s lease)
    (hlease : s.leases.lookup key = some lease) (hstep : s.step move = some s') :
    Records key holder monitor (since ++ [(s, move)]) s' (lease.touched s key move) := by
  have hlater := h.later hstep
  cases move with
  | call key' caller call =>
    by_cases hown : key' = key ∧ caller = holder
    · obtain ⟨rfl, rfl⟩ := hown
      simp only [Lease.touched, h.ofHolder, and_self, if_true]
      refine hlater.told call ?_ (by simp) ?_
      · simp [callsOf_concat]
      · rintro job answer rfl
        obtain ⟨hwaiter, -⟩ := Option.ite_none_right_eq_some.mp hstep
        have hstatus : s'.status = s.status := by
          have haround : (s.handleCall key' caller (.attach job answer)).1.around = s.around :=
            State.around_handleCall _
          rw [← State.step_call hstep] at haround
          exact congrArg (·.2.1) haround
        have hanswers : s'.answers job answer = s.answers job answer := by
          cases answer <;> simp [State.answers, hstatus]
        rw [hanswers]
        exact hwaiter
    · have hcalls : callsOf key holder (since ++ [(s, .call key' caller call)]) =
          callsOf key holder since := by
        simp [callsOf_concat, hown]
      simp only [Lease.touched, h.ofHolder, if_neg hown]
      exact hlater.pass hcalls (by simp)
  | done id =>
    obtain rfl := Option.some.inj hstep
    have hstatus : (s.handleDone id).status = s.status := congrArg (·.2.1) (State.around_handleDone id).1
    have hmarked := hlater.marked id
    rw [hstatus] at hmarked
    exact hmarked.pass (by simp [callsOf_concat]) (by simp)
  | down monitor' process =>
    have hcalls : callsOf key holder (since ++ [(s, .down monitor' process)]) = callsOf key holder since := by
      simp [callsOf_concat]
    simp only [Lease.touched, h.ofMonitor, h.ofHolder]
    split
    · next hown =>
      obtain ⟨rfl, rfl⟩ := hown
      obtain ⟨hdead, ⟨⟩⟩ := Option.ite_none_right_eq_some.mp hstep
      have hsame : (s.handleDown monitor holder).around = s.around := (State.around_handleDown monitor).1
      have hnow : (s.handleDown monitor holder).now = s.now := congrArg (·.1) hsame
      have hstill : (s.handleDown monitor holder).dead = s.dead := congrArg (·.2.2) hsame
      rw [← hnow]
      exact hlater.orphaned (hstill ▸ hdead) hcalls (by simp)
    · next hown =>
      exact hlater.pass hcalls fun heq ↦ hown (by cases heq; exact ⟨rfl, rfl⟩)
  | _ => exact hlater.pass (by simp [callsOf_concat]) (by simp)

/-! ### The lease since it was granted -/

/-- A call that acquires a free key is granted. -/
def State.Grants (s : State) (key : String) (holder timeoutMs : ℕ) (s' : State) : Prop :=
  s.leases.lookup key = none ∧ s.step (.call key holder (.acquire timeoutMs)) = some s'

/-- A lease from its grant on: it is there and has its records, or it is gone, after a moment when it was
over, unless its grace timer has expired. -/
structure Since (key : String) (holder monitor : ℕ) (start : State) (since : List (State × Move))
    (s : State) : Prop where
  kept : s.Kept
  later : monitor + 1 < s.nextRef
  lease : (∃ lease, s.leases.lookup key = some lease ∧ lease.generation = monitor + 1 ∧
      Records key holder monitor since s lease) ∨
    (∀ lease, s.leases.lookup key = some lease → lease.generation ≠ monitor + 1) ∧
      ((∃ pre t, pre <+: since ∧ Trace State.step start pre t ∧ Over key holder pre t) ∨
        ∃ x ∈ since, x.1.Expires key (monitor + 1) x.2)

variable {start : State}

private theorem Since.granted (hkept : s.Kept) {timeoutMs : ℕ} (hgrant : s.Grants key holder timeoutMs start) :
    Since key holder s.nextRef start [] start := by
  obtain ⟨hnone, hstep⟩ := hgrant
  rcases State.lookup_step_of_none hkept.held hstep hnone with hstill | ⟨_, _, hmove, href, hnew⟩
  · obtain rfl := State.step_call hstep
    simp only [State.handleCall, hnone] at hstill
    cases (AList.lookup_insert _).symm.trans hstill
  · cases hmove
    refine ⟨hkept.step hstep, by omega, .inl ⟨_, hnew, rfl, ?_⟩⟩
    constructor <;> simp [callsOf, submissionPending, lastAttached]

private theorem Since.step (h : Since key holder monitor start since s) (hrun : Trace State.step start since s)
    (hstep : s.step move = some s') : Since key holder monitor start (since ++ [(s, move)]) s' := by
  have hle := (State.step_mono hstep).1
  have hnext := hrun.move move hstep
  refine ⟨h.kept.step hstep, h.later.trans_le hle, ?_⟩
  rcases h.lease with ⟨lease, hlease, hgeneration, hrecords⟩ | ⟨hgone, hwhy⟩
  · have hrecords' := hrecords.step hlease hstep
    rcases State.lookup_step h.kept.held hstep hlease with htouched | ⟨hdrop, hexpires⟩
    · cases hfinish : (lease.touched s key move).finish with
      | some lease' =>
        obtain ⟨rfl, -⟩ := Lease.finish_eq_some hfinish
        refine .inl ⟨_, htouched.trans hfinish, ?_, hrecords'⟩
        rw [(lease.touched_names s key move).1, hgeneration]
      | none =>
        refine .inr ⟨fun found hfound ↦ ?_, .inl ⟨_, s', List.prefix_rfl, hnext, ?_⟩⟩
        · rw [htouched, hfinish] at hfound
          cases hfound
        · exact hrecords'.over (Lease.finish_eq_none.mp hfinish)
    · refine .inr ⟨fun found hfound ↦ ?_, .inr ⟨(s, move), by simp, hgeneration ▸ hexpires⟩⟩
      rw [hdrop] at hfound
      cases hfound
  · refine .inr ⟨fun found hfound ↦ ?_, ?_⟩
    · cases hlease : s.leases.lookup key with
      | none =>
        rcases State.lookup_step_of_none h.kept.held hstep hlease with hnone | ⟨_, _, -, -, hnew⟩
        · rw [hnone] at hfound
          cases hfound
        · rw [hnew] at hfound
          cases hfound
          have := h.later
          simp only
          omega
      | some lease =>
        rcases State.lookup_step h.kept.held hstep hlease with htouched | ⟨hdrop, -⟩
        · obtain ⟨rfl, -⟩ := Lease.finish_eq_some (htouched.symm.trans hfound)
          rw [(lease.touched_names s key move).1]
          exact hgone lease hlease
        · rw [hdrop] at hfound
          cases hfound
    · rcases hwhy with ⟨pre, t, hpre, htrace, hover⟩ | ⟨x, hx, hexpires⟩
      · exact .inl ⟨pre, t, hpre.trans (List.prefix_append _ _), htrace, hover⟩
      · exact .inr ⟨x, List.mem_append_left _ hx, hexpires⟩

private theorem Since.of_run (hkept : s.Kept) {timeoutMs : ℕ} (hgrant : s.Grants key holder timeoutMs start)
    (hrun : Trace State.step start since s') : Since key holder s.nextRef start since s' := by
  induction hrun with
  | nil => exact .granted hkept hgrant
  | snoc hrun hstep ih => exact ih.step hrun hstep

/-! ### The lease contract -/

/-- The lease of a destination is exclusive and does not leak. After a grant the destination is busy, in
every run without an expired grace timer, until the lease is over; stale messages change no lease; and no
lease is kept that its holder has given up, with no submission pending and with every job marked. -/
theorem lease_exclusive {before : List (State × Move)} (hrun : Trace State.step {} before s) :
    -- Every call that acquires the key is told that it is busy, until the lease is over.
    (∀ key holder timeoutMs start since s', s.Grants key holder timeoutMs start →
      Trace State.step start since s' →
      (∀ x ∈ since, ¬x.1.Expires key (s.nextRef + 1) x.2) →
      (∀ pre t, pre <+: since → Trace State.step start pre t → ¬Over key holder pre t) →
      ∀ caller timeoutMs', s'.handleCall key caller (.acquire timeoutMs') = (s', .error busy)) ∧
    -- Stale calls, messages of other monitors and timers of other generations change nothing.
    (∀ key holder call, (∀ timeoutMs, call ≠ .acquire timeoutMs) →
      (∀ lease ∈ s.leases.lookup key, lease.holder ≠ holder) →
      s.handleCall key holder call = (s, .ok ())) ∧
    (∀ key monitor holder, (∀ lease ∈ s.leases.lookup key, lease.monitor ≠ monitor) →
      (s.handleDown monitor holder).leases.lookup key = s.leases.lookup key) ∧
    (∀ key generation deadline, (∀ lease ∈ s.leases.lookup key, lease.generation ≠ generation) →
      s.handlePendingGrace key generation deadline = s) ∧
    -- No lease is kept that could be dropped, by its own flags or by what has happened since its grant.
    (∀ key lease, s.leases.lookup key = some lease → lease.released → lease.pending = false →
      ∃ id, ∃ jobState ∈ lease.jobs.lookup id, jobState.terminal = false) ∧
    (∀ key holder timeoutMs start since s' lease, s.Grants key holder timeoutMs start →
      Trace State.step start since s' → s'.leases.lookup key = some lease →
      lease.generation = s.nextRef + 1 →
      (Call.release ∈ callsOf key holder since ∨ Move.down s.nextRef holder ∈ since.map Prod.snd) →
      submissionPending (callsOf key holder since) = false →
      ∃ id, ∃ jobState ∈ lease.jobs.lookup id, jobState.terminal = false) := by
  have hkept := State.Kept.of_run hrun
  refine ⟨?_, fun key holder call hcall hstale ↦ State.handleCall_stale hstale hcall, ?_, ?_, ?_, ?_⟩
  · intro key holder timeoutMs start since s' hgrant hsince hexpires hover caller timeoutMs'
    rcases (Since.of_run hkept hgrant hsince).lease with ⟨lease, hlease, -⟩ | ⟨-, hwhy⟩
    · simp [State.handleCall, hlease]
    · rcases hwhy with ⟨pre, t, hpre, htrace, hpast⟩ | ⟨x, hx, hexpired⟩
      · exact absurd hpast (hover pre t hpre htrace)
      · exact absurd hexpired (hexpires x hx)
  · intro key monitor holder hother
    rw [State.lookup_handleDown hkept.held]
    cases hlease : s.leases.lookup key with
    | none => rfl
    | some lease =>
      rw [Option.bind_some, if_neg fun h ↦ hother lease hlease h.1]
      exact Lease.finish_of_not_releasable (hkept.held key lease hlease)
  · intro key generation deadline hother
    cases hlease : s.leases.lookup key with
    | none => simp [State.handlePendingGrace, hlease]
    | some lease => simp [State.handlePendingGrace, hlease, hother lease hlease]
  · intro key lease hlease hreleased hpending
    exact Lease.unmarked (hkept.held key lease hlease) hreleased hpending
  · intro key holder timeoutMs start since s' lease hgrant hsince hlease hgeneration hreleased hpending
    have h := Since.of_run hkept hgrant hsince
    rcases h.lease with ⟨found, hfound, -, hrecords⟩ | ⟨hgone, -⟩
    · rw [hfound] at hlease
      cases hlease
      exact Lease.unmarked (h.kept.held key lease hfound) (hrecords.released.mpr hreleased)
        (hrecords.pending.trans hpending)
    · exact absurd hgeneration (hgone lease hlease)

/-- A holder announces a submission and dies: the destination stays busy. -/
theorem lease_exclusive_sample : ∃ start since s', State.Grants {} "/srv/r.git" 1 100 start ∧
    Trace State.step start since s' ∧ Move.down 0 1 ∈ since.map Prod.snd ∧
    s'.handleCall "/srv/r.git" 2 (.acquire 100) = (s', .error busy) := by
  have hgrant : State.Grants {} "/srv/r.git" 1 100 (State.handleCall {} "/srv/r.git" 1 (.acquire 100)).1 :=
    ⟨rfl, rfl⟩
  have hnil : Trace State.step (State.handleCall {} "/srv/r.git" 1 (.acquire 100)).1 []
      (State.handleCall {} "/srv/r.git" 1 (.acquire 100)).1 := .nil
  have hrun := (hnil.move (.call "/srv/r.git" 1 .pendingSubmit) rfl).move (.die 1) rfl
  have hdown := hrun.move (.down 0 1) rfl
  refine ⟨_, _, _, hgrant, hdown, by simp,
    (lease_exclusive .nil).1 _ 1 100 _ _ _ hgrant hdown ?_ ?_ 2 100⟩
  · rintro x hx ⟨lease, deadline, -, -, -, -, -, hmove⟩
    simp only [List.nil_append, List.cons_append, List.mem_cons, List.not_mem_nil, or_false] at hx
    rcases hx with rfl | rfl | rfl <;> cases hmove
  · intro pre t hpre htrace hover
    have hpres := (List.mem_inits _ _).mpr hpre
    simp only [List.nil_append, List.cons_append, List.inits_cons, List.inits, List.map_cons,
      List.map_nil, List.mem_cons, List.not_mem_nil, or_false] at hpres
    rcases hpres with rfl | rfl | rfl | rfl
    · obtain rfl := htrace.eq_of_nil
      rcases hover.released with hr | hr <;> cases hr
    all_goals cases hover.pending

/-- A holder attaches a job of another runtime under the identifier of a job that is still running. The second
job ends, the holder releases the lease, and the destination is free, although the first job has not ended at
any time. -/
theorem displaced_job_dropped : ∃ start since s', State.Grants {} "/srv/r.git" 1 100 start ∧
    Trace State.step start since s' ∧ (∀ x ∈ since, ¬x.1.Expires "/srv/r.git" 1 x.2) ∧
    (∀ pre t, pre <+: since → Trace State.step start pre t →
      ¬((Call.release ∈ callsOf "/srv/r.git" 1 pre ∨ 1 ∈ t.dead) ∧
        submissionPending (callsOf "/srv/r.git" 1 pre) = false ∧
        ∀ job ∈ attachedJobs (callsOf "/srv/r.git" 1 pre), (t.status job.ref).isTerminal)) ∧
    (s'.handleCall "/srv/r.git" 2 (.acquire 100)).2 = .ok () := by
  have hgrant : State.Grants {} "/srv/r.git" 1 100 (State.handleCall {} "/srv/r.git" 1 (.acquire 100)).1 :=
    ⟨rfl, rfl⟩
  have hnil : Trace State.step (State.handleCall {} "/srv/r.git" 1 (.acquire 100)).1 []
      (State.handleCall {} "/srv/r.git" 1 (.acquire 100)).1 := .nil
  have hfirst := hnil.move (.call "/srv/r.git" 1 (.attach ⟨0, 0⟩ .registered)) rfl
  have hsecond := hfirst.move (.call "/srv/r.git" 1 (.attach ⟨1, 0⟩ .registered)) rfl
  have hended := hsecond.move (.progress 1 .completed) rfl
  have hmarked := hended.move (.done 0) rfl
  have hreleased := hmarked.move (.call "/srv/r.git" 1 .release) rfl
  refine ⟨_, _, _, hgrant, hreleased, ?_, ?_, by decide +kernel⟩
  · rintro x hx ⟨lease, deadline, -, -, -, -, -, hmove⟩
    simp only [List.nil_append, List.cons_append, List.mem_cons, List.not_mem_nil, or_false] at hx
    rcases hx with rfl | rfl | rfl | rfl | rfl <;> cases hmove
  · rintro pre t hpre htrace ⟨hover, -, hall⟩
    have hpres := (List.mem_inits _ _).mpr hpre
    simp only [List.nil_append, List.cons_append, List.inits_cons, List.inits, List.map_cons,
      List.map_nil, List.mem_cons, List.not_mem_nil, or_false] at hpres
    have hjob : (⟨0, 0⟩ : Job) ∈ attachedJobs [.attach ⟨0, 0⟩ .registered, .attach ⟨1, 0⟩ .registered, .release] :=
      List.mem_cons_self
    rcases hpres with rfl | rfl | rfl | rfl | rfl | rfl
    · obtain rfl := hnil.unique htrace
      rcases hover with hr | hr <;> cases hr
    · obtain rfl := hfirst.unique htrace
      rcases hover with hr | hr
      · simp [callsOf] at hr
      · cases hr
    · obtain rfl := hsecond.unique htrace
      rcases hover with hr | hr
      · simp [callsOf] at hr
      · cases hr
    · obtain rfl := hended.unique htrace
      rcases hover with hr | hr
      · simp [callsOf] at hr
      · cases hr
    · obtain rfl := hmarked.unique htrace
      rcases hover with hr | hr
      · simp [callsOf] at hr
      · cases hr
    · obtain rfl := hreleased.unique htrace
      exact nomatch hall ⟨0, 0⟩ hjob

end Gitility.Fetch
