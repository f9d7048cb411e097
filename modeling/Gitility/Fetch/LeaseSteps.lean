import Gitility.Base.Sweep
import Gitility.Fetch.Locks

/-!
# Steps of leases

A move touches each lease and then drops it if nothing holds it any more, except that a grace timer that
expires drops the lease of its generation at once.
-/

namespace Gitility.Fetch

open Gitility.Runtime (JobState)

variable {s s' : State} {key : String} {holder : ℕ} {lease : Lease} {move : Move}

/-! ### One step -/

namespace Lease

/-- What `put_or_finish` keeps. -/
def finish (lease : Lease) : Option Lease := if lease.releasable then none else some lease

/-- What a call of the holder does to a lease, before `put_or_finish`. -/
def told (lease : Lease) : Call → Lease
  | .acquire _ => lease
  | .pendingSubmit => { lease with pending := true }
  | .submissionFailed => { lease with pending := false }
  | .attach job answer =>
    { lease with
      pending := false
      jobs := lease.jobs.insert job.id ⟨job, waiterAlreadyTerminal answer⟩ }
  | .release => { lease with released := true }

/-- What the end of a job does to a lease, before `put_or_finish`. -/
def marked (lease : Lease) (status : ℕ → JobState) (id : ℕ) : Lease :=
  match lease.jobs.lookup id with
  | some jobState =>
    let terminal := jobState.terminal || decide (status jobState.job.ref ∈ terminalStates)
    { lease with jobs := lease.jobs.insert id { jobState with terminal } }
  | none => lease

/-- What the end of the holder does to a lease, before `put_or_finish`. -/
def orphaned (lease : Lease) (now : ℤ) : Lease :=
  if lease.pending then
    { lease with released := true, graceDeadline := some (now + 2 * lease.timeoutMs) }
  else { lease with released := true }

/-- What a move does to the lease of a key, before `put_or_finish`. -/
def touched (lease : Lease) (s : State) (key : String) : Move → Lease
  | .call key' holder call => if key' = key ∧ holder = lease.holder then lease.told call else lease
  | .done id => lease.marked s.status id
  | .down monitor holder =>
    if lease.monitor = monitor ∧ lease.holder = holder then lease.orphaned s.now else lease
  | _ => lease

/-- A lease that something holds is kept as it is. -/
theorem finish_of_not_releasable (h : lease.releasable = false) : lease.finish = some lease := by
  simp [finish, h]

/-- What is kept is the lease itself. -/
theorem finish_eq_some {lease' : Lease} (h : lease.finish = some lease') :
    lease' = lease ∧ lease.releasable = false := by
  unfold finish at h
  split at h
  · cases h
  · next hr => exact ⟨(Option.some.inj h).symm, by simpa using hr⟩

/-- Only a lease that nothing holds is dropped. -/
theorem finish_eq_none : lease.finish = none ↔ lease.releasable = true := by
  simp [finish]

private theorem not_releasable_of_pending (h : lease.pending = true) : lease.releasable = false := by
  simp [releasable, h]

/-- A lease that its holder has given up is held by a submission or by a job that is not marked. -/
theorem unmarked (h : lease.releasable = false) (hreleased : lease.released = true)
    (hpending : lease.pending = false) :
    ∃ id, ∃ jobState ∈ lease.jobs.lookup id, jobState.terminal = false := by
  simp only [releasable, hreleased, hpending, Bool.not_false, Bool.and_self, Bool.true_and] at h
  obtain ⟨e, he, hterminal⟩ := List.all_eq_false.mp h
  exact ⟨e.1, e.2, AList.mem_lookup_iff.mpr he, by simpa using hterminal⟩

end Lease

/-- A grace timer of a generation expires and drops the lease of its key. -/
def State.Expires (s : State) (key : String) (generation : ℕ) (move : Move) : Prop :=
  ∃ lease deadline, s.leases.lookup key = some lease ∧ lease.generation = generation ∧ lease.pending ∧
    lease.released ∧ deadline ≤ s.now ∧ move = .pendingGrace key generation deadline

private theorem lookup_putOrFinish (leases : Leases) (key : String) (lease : Lease) :
    (putOrFinish leases key lease).lookup key = lease.finish := by
  unfold putOrFinish Lease.finish dropLease
  split
  · exact AList.lookup_erase _ _
  · exact AList.lookup_insert _

private theorem lookup_putOrFinish_ne {key' : String} (h : key' ≠ key) (leases : Leases) :
    (putOrFinish leases key lease).lookup key' = leases.lookup key' := by
  unfold putOrFinish dropLease
  split
  · exact AList.lookup_erase_ne h
  · exact AList.lookup_insert_ne h

private theorem holderLease_eq_some {leases : Leases} : holderLease leases key holder = some lease ↔
    leases.lookup key = some lease ∧ lease.holder = holder := by
  unfold holderLease
  cases leases.lookup key with
  | none => simp
  | some found =>
    by_cases hf : found.holder = holder
    · simp only [if_pos hf, Option.some.injEq]
      exact ⟨fun h ↦ ⟨h, h ▸ hf⟩, And.left⟩
    · simp only [if_neg hf, Option.some.injEq, reduceCtorEq, false_iff]
      rintro ⟨rfl, h⟩
      exact hf h

private theorem holderLease_eq_none {leases : Leases} (h : ∀ lease ∈ leases.lookup key, lease.holder ≠ holder) :
    holderLease leases key holder = none := by
  cases hl : holderLease leases key holder with
  | none => rfl
  | some lease =>
    obtain ⟨hlease, hholder⟩ := holderLease_eq_some.mp hl
    exact absurd hholder (h lease hlease)

namespace State

/-- A call of a process that does not hold the key changes nothing. -/
theorem handleCall_stale (h : ∀ lease ∈ s.leases.lookup key, lease.holder ≠ holder) {call : Call}
    (hcall : ∀ timeoutMs, call ≠ .acquire timeoutMs) : s.handleCall key holder call = (s, .ok ()) := by
  cases call with
  | acquire timeoutMs => exact absurd rfl (hcall timeoutMs)
  | release =>
    unfold handleCall
    cases hl : s.leases.lookup key with
    | none => rfl
    | some lease => exact if_neg (h lease hl)
  | _ => simp only [handleCall, holderLease_eq_none h]

/-- Calls for other keys leave the lease of a key alone. -/
theorem lookup_handleCall_ne {key' : String} (hkey : key' ≠ key) (call : Call) :
    (s.handleCall key holder call).1.leases.lookup key' = s.leases.lookup key' := by
  cases call with
  | acquire timeoutMs =>
    simp only [handleCall]
    split
    · rfl
    · exact AList.lookup_insert_ne hkey
  | release =>
    simp only [handleCall]
    split
    · split
      · exact lookup_putOrFinish_ne hkey _
      · rfl
    · rfl
  | pendingSubmit =>
    simp only [handleCall]
    split
    · exact AList.lookup_insert_ne hkey
    · rfl
  | _ =>
    simp only [handleCall]
    split
    · exact lookup_putOrFinish_ne hkey _
    · rfl

private theorem lookup_handleCall (hlease : s.leases.lookup key = some lease) (hkept : lease.releasable = false)
    (call : Call) :
    (s.handleCall key holder call).1.leases.lookup key =
      (if holder = lease.holder then lease.told call else lease).finish := by
  by_cases hholder : holder = lease.holder
  · subst hholder
    have hheld := holderLease_eq_some.mpr ⟨hlease, rfl⟩
    rw [if_pos rfl]
    cases call with
    | acquire timeoutMs =>
      simp only [handleCall, hlease, Option.isSome_some, if_true]
      exact (Lease.finish_of_not_releasable hkept).symm
    | pendingSubmit =>
      simp only [handleCall, hheld]
      rw [AList.lookup_insert]
      exact (Lease.finish_of_not_releasable (Lease.not_releasable_of_pending rfl)).symm
    | submissionFailed =>
      simp only [handleCall, hheld]
      exact lookup_putOrFinish _ _ _
    | attach job answer =>
      simp only [handleCall, hheld]
      exact lookup_putOrFinish _ _ _
    | release =>
      simp only [handleCall, hlease, if_true]
      exact lookup_putOrFinish _ _ _
  · rw [if_neg hholder, Lease.finish_of_not_releasable hkept, ← hlease]
    cases call with
    | acquire timeoutMs => simp [handleCall, hlease]
    | _ =>
      rw [handleCall_stale]
      · intro found hfound heq
        rw [hlease] at hfound
        cases hfound
        exact hholder heq.symm
      · simp

/-- Every lease is marked once. -/
theorem lookup_handleDone
    (hkept : ∀ key lease, s.leases.lookup key = some lease → lease.releasable = false)
    (id : ℕ) (key : String) :
    (s.handleDone id).leases.lookup key =
      (s.leases.lookup key).bind fun lease ↦ (lease.marked s.status id).finish := by
  refine view_sweep (fun (acc : State) key ↦ acc.leases.lookup key)
    (fun _ lease ↦ (Lease.marked lease s.status id).finish) (fun key lease hlease acc hacc ↦ ?_)
    (fun acc e key hkey ↦ ?_) (fun _ ↦ rfl) key
  · cases hjob : lease.jobs.lookup id with
    | none =>
      simp only [hjob, hacc, Lease.marked]
      exact (Lease.finish_of_not_releasable (hkept key lease hlease)).symm
    | some jobState =>
      simp only [hjob, Lease.marked]
      exact lookup_putOrFinish _ _ _
  · dsimp only
    split
    · exact lookup_putOrFinish_ne hkey _
    · rfl

/-- The leases with the monitor lose their holder. -/
theorem lookup_handleDown
    (hkept : ∀ key lease, s.leases.lookup key = some lease → lease.releasable = false)
    (monitor holder : ℕ) (key : String) :
    (s.handleDown monitor holder).leases.lookup key = (s.leases.lookup key).bind fun lease ↦
      (if lease.monitor = monitor ∧ lease.holder = holder then lease.orphaned s.now else lease).finish := by
  refine view_sweep (fun (acc : State) key ↦ acc.leases.lookup key)
    (fun _ lease ↦ (if lease.monitor = monitor ∧ lease.holder = holder then
      lease.orphaned s.now else lease).finish) (fun key lease hlease acc hacc ↦ ?_)
    (fun acc e key hkey ↦ ?_) (fun _ ↦ rfl) key
  · by_cases hdown : lease.monitor = monitor ∧ lease.holder = holder
    · simp only [if_pos hdown, Lease.orphaned]
      split
      · next hpending =>
        refine (AList.lookup_insert _).trans (Lease.finish_of_not_releasable ?_).symm
        exact Lease.not_releasable_of_pending hpending
      · exact lookup_putOrFinish _ _ _
    · simp only [if_neg hdown, hacc]
      exact (Lease.finish_of_not_releasable (hkept key lease hlease)).symm
  · dsimp only
    split
    · split
      · exact AList.lookup_insert_ne hkey
      · exact lookup_putOrFinish_ne hkey _
    · rfl

/-- A call that is let through is handled. -/
theorem step_call {call : Call} (hstep : s.step (.call key holder call) = some s') :
    s' = (s.handleCall key holder call).1 := by
  cases call with
  | attach job answer => exact (Option.some.inj (Option.ite_none_right_eq_some.mp hstep).2).symm
  | _ => exact (Option.some.inj hstep).symm

/-- Only the timer of its own generation drops a lease, and only when it expires. -/
theorem lookup_handlePendingGrace (generation : ℕ) (deadline : ℤ) (key' : String) :
    (s.handlePendingGrace key' generation deadline).leases.lookup key = s.leases.lookup key ∨
      (s.handlePendingGrace key' generation deadline).leases.lookup key = none ∧
        ∃ lease, s.leases.lookup key = some lease ∧
          s.Expires key lease.generation (.pendingGrace key' generation deadline) := by
  cases hlease : s.leases.lookup key' with
  | none => simp [handlePendingGrace, hlease]
  | some lease =>
    simp only [handlePendingGrace, hlease]
    split
    · next h =>
      obtain ⟨rfl, hpending, hreleased⟩ := h
      split
      · next hdeadline =>
        by_cases hkey : key = key'
        · subst hkey
          exact .inr ⟨AList.lookup_erase _ _, lease, hlease, lease, deadline, hlease, rfl, hpending,
            hreleased, hdeadline, rfl⟩
        · exact .inl (AList.lookup_erase_ne hkey)
      · exact .inl rfl
    · exact .inl rfl

/-- A move touches each lease and drops it if nothing holds it any more, unless a grace timer expires. -/
theorem lookup_step (hkept : ∀ key lease, s.leases.lookup key = some lease → lease.releasable = false)
    (hstep : s.step move = some s') (hlease : s.leases.lookup key = some lease) :
    s'.leases.lookup key = (lease.touched s key move).finish ∨
      s'.leases.lookup key = none ∧ s.Expires key lease.generation move := by
  have hsame : some lease = lease.finish :=
    (Lease.finish_of_not_releasable (hkept key lease hlease)).symm
  cases move with
  | call key' holder call =>
    obtain rfl := step_call hstep
    left
    by_cases hkey : key = key'
    · subst hkey
      rw [lookup_handleCall hlease (hkept key lease hlease)]
      simp [Lease.touched]
    · rw [lookup_handleCall_ne hkey, hlease, hsame]
      simp [Lease.touched, Ne.symm hkey]
  | done id =>
    obtain rfl := Option.some.inj hstep
    rw [lookup_handleDone hkept, hlease]
    exact .inl rfl
  | down monitor holder =>
    obtain ⟨-, ⟨⟩⟩ := Option.ite_none_right_eq_some.mp hstep
    rw [lookup_handleDown hkept, hlease]
    exact .inl rfl
  | pendingGrace key' generation deadline =>
    obtain rfl := Option.some.inj hstep
    rcases lookup_handlePendingGrace generation deadline key' with
      hkeep | ⟨hdrop, found, hfound, hexpires⟩
    · rw [hkeep, hlease]
      exact .inl hsame
    · rw [hlease] at hfound
      cases hfound
      exact .inr ⟨hdrop, hexpires⟩
  | tick now =>
    obtain ⟨-, ⟨⟩⟩ := Option.ite_none_right_eq_some.mp hstep
    exact .inl (hlease.trans hsame)
  | die process =>
    obtain rfl := Option.some.inj hstep
    exact .inl (hlease.trans hsame)
  | progress ref state =>
    obtain ⟨-, ⟨⟩⟩ := Option.ite_none_left_eq_some.mp hstep
    exact .inl (hlease.trans hsame)

/-- A key without a lease gets one only from a call that acquires it. -/
theorem lookup_step_of_none
    (hkept : ∀ key lease, s.leases.lookup key = some lease → lease.releasable = false)
    (hstep : s.step move = some s') (hnone : s.leases.lookup key = none) :
    s'.leases.lookup key = none ∨ ∃ holder timeoutMs, move = .call key holder (.acquire timeoutMs) ∧
      s'.nextRef = s.nextRef + 2 ∧ s'.leases.lookup key = some
        { generation := s.nextRef + 1, holder, monitor := s.nextRef, timeoutMs } := by
  cases move with
  | call key' holder call =>
    obtain rfl := step_call hstep
    by_cases hkey : key = key'
    · subst hkey
      cases call with
      | acquire timeoutMs =>
        refine .inr ⟨holder, timeoutMs, rfl, ?_⟩
        simp only [handleCall, hnone]
        exact ⟨rfl, AList.lookup_insert _⟩
      | _ =>
        rw [handleCall_stale (by simp [hnone]) (by simp)]
        exact .inl hnone
    · rw [lookup_handleCall_ne hkey]
      exact .inl hnone
  | done id =>
    obtain rfl := Option.some.inj hstep
    rw [lookup_handleDone hkept, hnone]
    exact .inl rfl
  | down monitor holder =>
    obtain ⟨-, ⟨⟩⟩ := Option.ite_none_right_eq_some.mp hstep
    rw [lookup_handleDown hkept, hnone]
    exact .inl rfl
  | pendingGrace key' generation deadline =>
    obtain rfl := Option.some.inj hstep
    rcases lookup_handlePendingGrace generation deadline key' with hkeep | hdrop
    · exact .inl (hkeep.trans hnone)
    · exact .inl hdrop.1
  | tick now =>
    obtain ⟨-, ⟨⟩⟩ := Option.ite_none_right_eq_some.mp hstep
    exact .inl hnone
  | die process =>
    obtain rfl := Option.some.inj hstep
    exact .inl hnone
  | progress ref state =>
    obtain ⟨-, ⟨⟩⟩ := Option.ite_none_left_eq_some.mp hstep
    exact .inl hnone

/-! ### Around the server -/

/-- What the messages of the server do not change. -/
def around (s : State) : ℤ × (ℕ → JobState) × List ℕ := (s.now, s.status, s.dead)

/-- A call changes neither the clock nor the jobs. -/
theorem around_handleCall (call : Call) : (s.handleCall key holder call).1.around = s.around := by
  cases call <;> simp only [handleCall] <;> repeat' split
  all_goals rfl

/-- The end of a job changes neither the clock nor the jobs, and takes no reference. -/
theorem around_handleDone (id : ℕ) :
    (s.handleDone id).around = s.around ∧ (s.handleDone id).nextRef = s.nextRef := by
  refine ⟨foldl_frame around (fun acc e ↦ ?_) _ _, foldl_frame State.nextRef (fun acc e ↦ ?_) _ _⟩ <;>
  · dsimp only
    split <;> rfl

/-- A monitor message changes neither the clock nor the jobs, and takes no reference. -/
theorem around_handleDown (monitor : ℕ) :
    (s.handleDown monitor holder).around = s.around ∧
      (s.handleDown monitor holder).nextRef = s.nextRef := by
  refine ⟨foldl_frame around (fun acc e ↦ ?_) _ _, foldl_frame State.nextRef (fun acc e ↦ ?_) _ _⟩ <;>
  · dsimp only
    repeat' split
    all_goals rfl

private theorem around_handlePendingGrace (generation : ℕ) (deadline : ℤ) :
    (s.handlePendingGrace key generation deadline).around = s.around ∧
      (s.handlePendingGrace key generation deadline).nextRef = s.nextRef := by
  unfold handlePendingGrace
  repeat' split
  all_goals exact ⟨rfl, rfl⟩

/-- References are not reused, the dead stay dead, and jobs that have ended stay as they are. -/
theorem step_mono (hstep : s.step move = some s') :
    s.nextRef ≤ s'.nextRef ∧ s.dead ⊆ s'.dead ∧
      ∀ ref, (s.status ref).isTerminal → s'.status ref = s.status ref := by
  have hsame : ∀ {t : State}, t.around = s.around → s.nextRef ≤ t.nextRef →
      s.nextRef ≤ t.nextRef ∧ s.dead ⊆ t.dead ∧
        ∀ ref, (s.status ref).isTerminal → t.status ref = s.status ref := by
    intro t haround hle
    simp only [around, Prod.mk.injEq] at haround
    obtain ⟨-, hstatus, hdead⟩ := haround
    exact ⟨hle, fun p hp ↦ hdead ▸ hp, fun ref _ ↦ congrFun hstatus ref⟩
  cases move with
  | call key holder call =>
    obtain rfl := step_call hstep
    refine hsame (around_handleCall call) ?_
    cases call <;> simp only [handleCall] <;> repeat' split
    all_goals simp
  | done id =>
    obtain rfl := Option.some.inj hstep
    exact hsame (around_handleDone id).1 (around_handleDone id).2.ge
  | down monitor holder =>
    obtain ⟨-, ⟨⟩⟩ := Option.ite_none_right_eq_some.mp hstep
    exact hsame (around_handleDown monitor).1 (around_handleDown monitor).2.ge
  | pendingGrace key generation deadline =>
    obtain rfl := Option.some.inj hstep
    exact hsame (around_handlePendingGrace generation deadline).1
      (around_handlePendingGrace generation deadline).2.ge
  | tick now =>
    obtain ⟨-, ⟨⟩⟩ := Option.ite_none_right_eq_some.mp hstep
    exact ⟨le_refl _, fun p hp ↦ hp, fun ref _ ↦ rfl⟩
  | die process =>
    obtain rfl := Option.some.inj hstep
    exact ⟨le_refl _, fun p hp ↦ List.mem_cons_of_mem _ hp, fun ref _ ↦ rfl⟩
  | progress ref state =>
    obtain ⟨hrunning, ⟨⟩⟩ := Option.ite_none_left_eq_some.mp hstep
    refine ⟨le_refl _, fun p hp ↦ hp, fun other hother ↦ Function.update_of_ne ?_ _ _⟩
    rintro rfl
    exact hrunning hother

/-- Only a lease that something holds is kept, and its generation is an old reference. -/
structure Kept (s : State) : Prop where
  held : ∀ key lease, s.leases.lookup key = some lease → lease.releasable = false
  old : ∀ key lease, s.leases.lookup key = some lease → lease.generation < s.nextRef

end State

/-- No move changes the generation, the monitor or the holder of a lease. -/
theorem Lease.touched_names (lease : Lease) (s : State) (key : String) (move : Move) :
    (lease.touched s key move).generation = lease.generation ∧
      (lease.touched s key move).monitor = lease.monitor ∧
      (lease.touched s key move).holder = lease.holder := by
  cases move with
  | call key' holder call =>
    simp only [Lease.touched]
    split
    · cases call <;> exact ⟨rfl, rfl, rfl⟩
    · exact ⟨rfl, rfl, rfl⟩
  | done id =>
    simp only [Lease.touched, Lease.marked]
    split <;> exact ⟨rfl, rfl, rfl⟩
  | down monitor holder =>
    simp only [Lease.touched, Lease.orphaned]
    repeat' split
    all_goals exact ⟨rfl, rfl, rfl⟩
  | _ => exact ⟨rfl, rfl, rfl⟩

namespace State

/-- A step keeps the leases that something holds. -/
theorem Kept.step (h : s.Kept) (hstep : s.step move = some s') : s'.Kept := by
  have hle := (step_mono hstep).1
  constructor
  · intro key lease' hlease'
    cases hlease : s.leases.lookup key with
    | none =>
      rcases lookup_step_of_none h.held hstep hlease with hnone | ⟨holder, timeoutMs, -, -, hnew⟩
      · rw [hnone] at hlease'
        cases hlease'
      · rw [hnew] at hlease'
        cases hlease'
        rfl
    | some lease =>
      rcases lookup_step h.held hstep hlease with htouched | ⟨hdrop, -⟩
      · obtain ⟨rfl, hheld⟩ := Lease.finish_eq_some (htouched.symm.trans hlease')
        exact hheld
      · rw [hdrop] at hlease'
        cases hlease'
  · intro key lease' hlease'
    cases hlease : s.leases.lookup key with
    | none =>
      rcases lookup_step_of_none h.held hstep hlease with hnone | ⟨holder, timeoutMs, -, href, hnew⟩
      · rw [hnone] at hlease'
        cases hlease'
      · rw [hnew] at hlease'
        cases hlease'
        rw [href]
        exact Nat.lt_succ_self _
    | some lease =>
      rcases lookup_step h.held hstep hlease with htouched | ⟨hdrop, -⟩
      · obtain ⟨rfl, -⟩ := Lease.finish_eq_some (htouched.symm.trans hlease')
        rw [(lease.touched_names s key move).1]
        exact (h.old key lease hlease).trans_le hle
      · rw [hdrop] at hlease'
        cases hlease'

/-- In every run, only leases that something holds are kept. -/
theorem Kept.of_run {steps : List (State × Move)} (h : Trace State.step {} steps s) : s.Kept :=
  (h.guarded (I := Kept) (P := fun _ _ ↦ True) (Q := fun _ _ ↦ True)
    ⟨fun key lease hlease ↦ (by cases hlease), fun key lease hlease ↦ (by cases hlease)⟩
    (fun hkept _ hstep ↦ hkept.step hstep) (fun _ _ _ ↦ True.intro) fun _ _ ↦ True.intro).1

end State

end Gitility.Fetch
