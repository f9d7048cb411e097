import Mathlib.Data.List.Count
import Gitility.Runtime.Lifecycle

/-!
# The books of the runtime

How `runtime/mod.rs` accounts for the jobs it has admitted: the queue, the active jobs, the jobs
of each owner and the counters. Each job passes through a few stages, and every action moves at
most one job to its next stage and posts that change. Identifiers and counters are 64-bit
numbers, so the books are right as long as fewer than `2 ^ 64` jobs have been admitted.
-/

namespace Gitility.Runtime

variable {Task Output : Type}

/-! ### Stages -/

/-- How far the books are with a job. -/
inductive Stage where
  | waiting
  | starting
  | counted
  | ended (source : JobState)
  | uncounted
  | tallied
  | closed
  deriving DecidableEq

namespace Stage

/-- The states a job of this stage can show. -/
def Shows : Stage → JobState → Prop
  | .waiting, state => state = .queued
  | .starting, state | .counted, state => state = .running
  | .ended _, state | .uncounted, state | .tallied, state | .closed, state => state.isTerminal

/-- The job is in the count of running jobs. -/
def isCounted : Stage → Bool
  | .counted => true
  | .ended source => source = .running
  | _ => false

/-- The job is among the active ones. -/
def isOpen : Stage → Bool
  | .closed => false
  | _ => true

/-- The job is in one of the counts of ended jobs. -/
def isTallied : Stage → Bool
  | .tallied | .closed => true
  | _ => false

end Stage

namespace Act

/-- Actions that do not touch the books, nor the state of a job, nor the queue as a whole. -/
def Quiet : Act Task Output → Prop
  | .submit .. | .tryStart _ | .countRunning _ | .exchange .. | .recordRunning _
  | .recordCounter _ | .recordActive _ | .workerLoop | .beginShutdown => False
  | _ => True

/-- The stage of job `j` that the thread about to take an action relies on. -/
def Finds (j : ℕ) (stage : Stage) : Act Task Output → Prop
  | .countRunning job => job = j → stage = .starting
  | .check job | .discardRunning job _ | .takeTask job | .runTask job _ | .finalCheck job _ =>
    job = j → stage = .counted
  | .publish p | .writeOutput p | .exchange p _ => p.job = j → p.source = .running → stage = .counted
  | .release p | .recordRunning p => p.job = j → stage = .ended p.source ∧ p.target.isTerminal
  | .recordCounter p => p.job = j → stage = .uncounted ∧ p.target.isTerminal
  | .recordActive p => p.job = j → stage = .tallied
  | _ => True

variable {j : ℕ} {a : Act Task Output} {stage stage' : Stage}

/-- A plain action relies on no stage. -/
theorem Plain.finds (h : a.Plain) : a.Finds j stage := by
  cases a <;> simp_all [Plain, Finds]

/-- An action relies only on the stage of its target. -/
theorem finds_of_target_ne (h : a.target ≠ some j) : a.Finds j stage := by
  cases a <;> simp_all [target, Finds]

/-- Only a thread with a part in the job relies on its stage. -/
theorem finds_of_no_part (hruns : ¬a.Runs j) (hnotes : ¬a.Notes j) : a.Finds j stage := by
  cases a <;> simp_all [Runs, Notes, Finds]

end Act

/-- Job `j` is at `stage`: its state shows it, every thread relies on the right stage, and a
tallied job is about to be closed. -/
structure Booked (threads : ℕ → List (Act Task Output)) (j : ℕ) (job : Job Task Output)
    (stage : Stage) : Prop where
  shows : stage.Shows job.state
  finds : ∀ t, ∀ a ∈ (threads t).head?, a.Finds j stage
  recording : stage = .tallied → ∃ t p, (threads t).head? = some (.recordActive p) ∧ p.job = j

/-- A booked job in the queue is waiting. -/
theorem Booked.waiting {threads : ℕ → List (Act Task Output)} {j : ℕ} {job : Job Task Output}
    {stage : Stage} (h : Booked threads j job stage) (hstate : job.state = .queued) :
    stage = .waiting := by
  have hshows := h.shows
  rw [hstate] at hshows
  cases stage <;> first | rfl | cases hshows

/-- Nobody has a part in a queued job. -/
theorem Lives.free_of_queued {threads : ℕ → List (Act Task Output)} {j : ℕ}
    {job : Job Task Output} {life : Life Output} (h : Lives threads j job life)
    (hstate : job.state = .queued) : ¬life.IsRunning ∧ ¬life.Unobserved := by
  constructor
  · intro hr
    rw [h.state_of_isRunning hr] at hstate
    cases hstate
  · intro hu
    exact h.not_isEnded (by rw [hstate]; rfl) (Life.isEnded_of_unobserved hu)

/-- One thread takes an action: what has to be shown so that the job is booked again. -/
theorem Booked.update {threads : ℕ → List (Act Task Output)} {j t : ℕ} {job job' : Job Task Output}
    {stage stage' : Stage} {life : Life Output} {a : Act Task Output}
    {rest agenda : List (Act Task Output)} (h : Booked threads j job stage)
    (hl : Lives threads j job life) (ht : threads t = a :: rest)
    (shows : stage'.Shows job'.state)
    (finds : ∀ b ∈ agenda.head?, b.Finds j stage')
    (moved : stage' = stage ∨ a.Runs j ∨ a.Notes j ∨ ¬life.IsRunning ∧ ¬life.Unobserved)
    (recording : stage' = .tallied →
      (∃ p, agenda.head? = some (.recordActive p) ∧ p.job = j) ∨
      stage = .tallied ∧ ∀ p, a = .recordActive p → p.job ≠ j) :
    Booked (Function.update threads t agenda) j job' stage' where
  shows := shows
  finds u b hb := by
    by_cases hu : u = t
    · subst u
      rw [Function.update_self] at hb
      exact finds b hb
    · rw [Function.update_of_ne hu] at hb
      rcases moved with rfl | hmoved
      · exact h.finds u b hb
      · -- The other thread has no part in the job: the one that moves it has, or nobody has.
        obtain ⟨others, hothers⟩ : ∃ others, threads u = b :: others :=
          List.head?_eq_some_iff.mp hb
        apply Act.finds_of_no_part
        · intro hruns
          have hrunning := hl.runner.of_head (t := u) (by rw [hothers]; exact hruns)
          rcases hmoved with ha | ha | ha
          · exact hu (hl.runner.unique (by rw [hothers]; exact hruns) (by rw [ht]; exact ha))
          · have hunobserved := hl.noter.of_head (t := t) (by rw [ht]; exact ha)
            cases life <;> simp_all [Life.IsRunning, Life.Unobserved]
          · exact ha.1 hrunning
        · intro hnotes
          have hunobserved := hl.noter.of_head (t := u) (by rw [hothers]; exact hnotes)
          rcases hmoved with ha | ha | ha
          · have hrunning := hl.runner.of_head (t := t) (by rw [ht]; exact ha)
            cases life <;> simp_all [Life.IsRunning, Life.Unobserved]
          · exact hu (hl.noter.unique (by rw [hothers]; exact hnotes) (by rw [ht]; exact ha))
          · exact ha.2 hunobserved
  recording htallied := by
    rcases recording htallied with ⟨p, hp, hj⟩ | ⟨hstage, hother⟩
    · exact ⟨t, p, by rw [Function.update_self]; exact hp, hj⟩
    · obtain ⟨u, p, hp, hj⟩ := h.recording hstage
      have hu : u ≠ t := by
        rintro rfl
        rw [ht] at hp
        exact hother p (Option.some.inj hp) hj
      exact ⟨u, p, by rw [Function.update_of_ne hu]; exact hp, hj⟩

/-- The thread goes on without moving the job to another stage. -/
theorem Booked.keep {threads : ℕ → List (Act Task Output)} {j t : ℕ} {job job' : Job Task Output}
    {stage : Stage} {life : Life Output} {a : Act Task Output}
    {rest agenda : List (Act Task Output)} (h : Booked threads j job stage)
    (hl : Lives threads j job life) (ht : threads t = a :: rest) (state : job'.state = job.state)
    (finds : ∀ b ∈ agenda.head?, b.Finds j stage)
    (active : ∀ p, a = .recordActive p → p.job ≠ j) :
    Booked (Function.update threads t agenda) j job' stage :=
  h.update hl ht (by rw [state]; exact h.shows) finds (.inl rfl) fun hstage ↦ .inr ⟨hstage, active⟩

/-! ### Postings -/

/-- Two states with the same books. -/
def SameBooks (s s' : Shared Task Output) : Prop :=
  s'.active = s.active ∧ s'.owners = s.owners ∧ s'.counters = s.counters ∧
    s'.nextJobId = s.nextJobId

/-- What is posted when a job moves from one stage to the next. -/
inductive Posts (s s' : Shared Task Output) (job : Job Task Output) : Stage → Stage → Prop where
  | keep {stage : Stage} (books : SameBooks s s') : Posts s s' job stage stage
  | start (books : SameBooks s s') : Posts s s' job .waiting .starting
  | count (books : SameBooks
      { s with counters := { s.counters with running := fetchAdd s.counters.running } } s') :
      Posts s s' job .starting .counted
  | cancel (books : SameBooks s s') : Posts s s' job .waiting (.ended .queued)
  | finish (books : SameBooks s s') : Posts s s' job .counted (.ended .running)
  | settleOther {source : JobState} (hsource : source ≠ .running) (books : SameBooks s s') :
      Posts s s' job (.ended source) .uncounted
  | settle (books : SameBooks
      { s with counters := { s.counters with running := fetchSub s.counters.running } } s') :
      Posts s s' job (.ended .running) .uncounted
  | tally {terminal : JobState} (hterminal : terminal.isTerminal)
      (books : SameBooks (s.countTerminal terminal) s') : Posts s s' job .uncounted .tallied
  | close (books : SameBooks (s.recordInactive job) s') : Posts s s' job .tallied .closed

namespace Shared

variable {config : RuntimeConfig} {s s' : Shared Task Output} {outcome : TaskOutcome Output}
  {a : Act Task Output} {todo : List (Act Task Output)} {event : Option (Event Output)} {j : ℕ}

/-- Counting an ended job changes no job. -/
@[simp] theorem jobs_countTerminal (s : Shared Task Output) (terminal : JobState) :
    (s.countTerminal terminal).jobs = s.jobs := by
  cases terminal <;> rfl

/-- Recording that a job is no longer active changes no job. -/
@[simp] theorem jobs_recordInactive (s : Shared Task Output) (job : Job Task Output) :
    (s.recordInactive job).jobs = s.jobs := by
  unfold recordInactive
  split <;> rfl

/-- An action that posts nothing: it leaves the books and the states of all jobs alone, and its
thread goes on to an action that relies on the same stage. -/
theorem exec_quiet (h : s.exec config outcome a = some (s', todo, event)) (hquiet : a.Quiet) :
    SameBooks s s' ∧
    (∀ (j : ℕ) (job : Job Task Output), s.jobs[j]? = some job →
      ∃ job' : Job Task Output, s'.jobs[j]? = some job' ∧ job'.state = job.state) ∧
    ∀ j stage, a.Finds j stage → ∀ b ∈ todo.head?, b.Finds j stage := by
  cases a with
  | tryStart | exchange | recordRunning | recordCounter | recordActive | countRunning | submit
  | workerLoop | beginShutdown => cases hquiet
  | _ =>
    simp only [exec, Option.bind_eq_bind, Option.bind_eq_some_iff, pure] at h
    refine ⟨?_, ?_, ?_⟩
    · grind [SameBooks, modifyJob]
    · grind [getElem?_modifyJob]
    · grind [Act.Finds, publishCancelled, finishRunning]

/-- An action on a job moves it to its next stage and posts the change. -/
theorem exec_booked (h : s.exec config outcome a = some (s', todo, event))
    (ha : a.target = some j) {job : Job Task Output} {life : Life Output} {stage : Stage}
    {threads : ℕ → List (Act Task Output)} {t : ℕ} {rest : List (Act Task Output)}
    (hjob : s.jobs[j]? = some job) (hl : Lives threads j job life)
    (hb : Booked threads j job stage) (ht : threads t = a :: rest) (hrest : ∀ b ∈ rest, b.Plain) :
    ∃ job' stage', s'.jobs[j]? = some job' ∧ Posts s s' job stage stage' ∧
      Booked (Function.update threads t (todo ++ rest)) j job' stage' := by
  have hfinds : a.Finds j stage := hb.finds t a (by rw [ht]; rfl)
  have hplain (stage : Stage) : ∀ b ∈ rest.head?, b.Finds j stage := fun b hb ↦
    (hrest b (List.mem_of_mem_head? hb)).finds
  have hknow : a.Sound j job.output life := by
    rcases hl.sound t with hs | hs
    · rw [ht] at hs
      exact hs
    · rw [ht] at hs
      cases hs
  by_cases hquiet : a.Quiet
  · obtain ⟨hbooks, hjobs, hgoes⟩ := exec_quiet h hquiet
    obtain ⟨job', hjob', hstate⟩ := hjobs j job hjob
    refine ⟨job', stage, hjob', .keep hbooks, hb.keep hl ht hstate ?_ ?_⟩
    · cases todo with
      | nil => exact hplain stage
      | cons b todo => exact hgoes j stage hfinds
    · rintro p rfl
      cases hquiet
  cases a with
  | tryStart i =>
    obtain rfl : i = j := by simpa [Act.target] using ha
    simp only [exec, hjob, Option.bind_eq_bind, Option.bind_some, pure] at h
    split at h
    · next hstate =>
      cases h
      have hwaiting : stage = .waiting := hb.waiting hstate
      subst hwaiting
      refine ⟨_, .starting, getElem?_modifyJob_self hjob, .start ⟨rfl, rfl, rfl, rfl⟩, ?_⟩
      refine hb.update hl ht rfl ?_ (.inr (.inr (.inr (hl.free_of_queued hstate)))) (by simp)
      simp [Act.Finds]
    · cases h
      exact ⟨job, stage, hjob, .keep ⟨rfl, rfl, rfl, rfl⟩,
        hb.keep hl ht rfl (by simp [Act.Finds]) (by simp)⟩
  | exchange p previous =>
    obtain rfl : p.job = j := by simpa [Act.target] using ha
    obtain ⟨hend, -, -, hterminal⟩ := hknow rfl
    simp only [exec, hjob, Option.bind_eq_bind, Option.bind_some, pure] at h
    split at h
    · next hstate =>
      cases h
      have hrelease : ∀ b ∈ ([Act.release p] ++ rest).head?, b.Finds p.job (.ended p.source) := by
        simpa [Act.Finds] using hterminal
      refine ⟨_, .ended p.source, getElem?_modifyJob_self hjob, ?_⟩
      cases hsource : p.source with
      | queued =>
        rw [hsource] at hstate hrelease
        obtain rfl := hb.waiting hstate
        refine ⟨.cancel ⟨rfl, rfl, rfl, rfl⟩, hb.update hl ht hterminal hrelease ?_ (by simp)⟩
        exact .inr (.inr (.inr (hl.free_of_queued hstate)))
      | running =>
        rw [hsource] at hrelease
        obtain rfl : stage = .counted := hfinds rfl hsource
        refine ⟨.finish ⟨rfl, rfl, rfl, rfl⟩, hb.update hl ht hterminal hrelease ?_ (by simp)⟩
        exact .inr (.inl ⟨rfl, hsource⟩)
      | _ =>
        rw [hsource] at hstate
        exact absurd (hl.isEnded (by rw [hstate]; rfl)) hend
    · cases h
      exact ⟨job, stage, hjob, .keep ⟨rfl, rfl, rfl, rfl⟩,
        hb.keep hl ht rfl (by simp [Act.Finds]) (by simp)⟩
  | countRunning i =>
    obtain rfl : i = j := by simpa [Act.target] using ha
    cases h
    obtain rfl : stage = .starting := hfinds rfl
    refine ⟨job, .counted, hjob, .count ⟨rfl, rfl, rfl, rfl⟩, ?_⟩
    exact hb.update hl ht hb.shows (by simp [Act.Finds]) (.inr (.inl rfl)) (by simp)
  | recordRunning p =>
    obtain rfl : p.job = j := by simpa [Act.target] using ha
    obtain ⟨rfl, hterminal⟩ := hfinds rfl
    have hbooked : Booked (Function.update threads t ([.recordCounter p] ++ rest)) p.job job
        .uncounted :=
      hb.update hl ht hb.shows (by simpa [Act.Finds] using hterminal) (.inr (.inr (.inl rfl))) (by simp)
    simp only [exec] at h
    split at h
    · next hsource =>
      cases h
      rw [hsource]
      exact ⟨job, .uncounted, hjob, .settle ⟨rfl, rfl, rfl, rfl⟩, hbooked⟩
    · next hsource =>
      cases h
      exact ⟨job, .uncounted, hjob, .settleOther hsource ⟨rfl, rfl, rfl, rfl⟩, hbooked⟩
  | recordCounter p =>
    obtain rfl : p.job = j := by simpa [Act.target] using ha
    obtain ⟨rfl, hterminal⟩ := hfinds rfl
    cases h
    refine ⟨job, .tallied, ?_, .tally hterminal ⟨rfl, rfl, rfl, rfl⟩, ?_⟩
    · rw [jobs_countTerminal, hjob]
    · refine hb.update hl ht hb.shows (by simp [Act.Finds]) (.inr (.inr (.inl rfl))) ?_
      exact fun _ ↦ .inl ⟨p, rfl, rfl⟩
  | recordActive p =>
    obtain rfl : p.job = j := by simpa [Act.target] using ha
    obtain rfl : stage = .tallied := hfinds rfl
    simp only [exec, hjob, Option.bind_eq_bind, Option.bind_some, pure] at h
    cases h
    refine ⟨job, .closed, ?_, .close ⟨rfl, rfl, rfl, rfl⟩, ?_⟩
    · rw [jobs_recordInactive, hjob]
    · exact hb.update hl ht hb.shows (by simp [Act.Finds]) (.inr (.inr (.inl rfl))) (by simp)
  | submit | workerLoop | beginShutdown => cases ha
  | _ => exact absurd True.intro hquiet

end Shared

/-! ### The books -/

/-- Who the jobs are: their identifiers and owners. -/
def Shared.who (s : Shared Task Output) : List (ℕ × ℕ) := s.jobs.map fun job ↦ (job.id, job.owner)

/-- The number of active jobs of an owner. -/
def Shared.jobsOf (s : Shared Task Output) (owner : ℕ) : ℕ :=
  s.active.countP fun entry ↦ s.who[entry.2]?.any (·.2 = owner)

/-- The books are right: identifiers and counters follow the stages of the jobs. -/
structure Books (config : RuntimeConfig) (s : Shared Task Output) (stages : List Stage) : Prop where
  length : stages.length = s.who.length
  ids : ∀ j, ∀ who ∈ s.who[j]?, who.1 = (j + 1) % 2 ^ 64
  next : s.nextJobId = (s.who.length + 1) % 2 ^ 64
  keys : (s.active.map Prod.fst).Nodup
  active : ∀ id j, (id, j) ∈ s.active ↔
    (∃ who ∈ s.who[j]?, who.1 = id) ∧ ∃ stage ∈ stages[j]?, stage.isOpen
  opened : s.active.length = stages.countP Stage.isOpen
  owners : ∀ owner, (s.owners.lookup owner).getD 0 = s.jobsOf owner
  ceiling : ∀ owner, s.jobsOf owner ≤ config.maxJobsPerOwner
  running : s.counters.running = stages.countP Stage.isCounted
  tallied : s.counters.completed + s.counters.failed + s.counters.cancelled =
    stages.countP Stage.isTallied
  submitted : s.counters.submitted = s.who.length

private theorem fetchAdd_eq {n : ℕ} (h : n + 1 < 2 ^ 64) : fetchAdd n = n + 1 := Nat.mod_eq_of_lt h

private theorem fetchSub_eq {n : ℕ} (h : n + 1 < 2 ^ 64) : fetchSub (n + 1) = n := by
  unfold fetchSub
  omega

/-- The entry of a key, taken out. -/
theorem perm_cons_filter_key {l : List (ℕ × ℕ)} {key value : ℕ} (hkeys : (l.map Prod.fst).Nodup)
    (h : (key, value) ∈ l) : l.Perm ((key, value) :: l.filter fun entry ↦ entry.1 ≠ key) := by
  induction l with
  | nil => cases h
  | cons entry l ih =>
    rw [List.map_cons, List.nodup_cons] at hkeys
    by_cases hentry : entry.1 = key
    · have heq : entry = (key, value) := by
        rcases List.mem_cons.mp h with rfl | h
        · rfl
        · exact absurd (List.mem_map_of_mem h) (hentry ▸ hkeys.1)
      have hrest : l.filter (fun entry ↦ entry.1 ≠ key) = l := by
        rw [List.filter_eq_self]
        intro other hother
        have hne : other.1 ≠ key := fun he ↦ hkeys.1 (hentry ▸ he ▸ List.mem_map_of_mem hother)
        simpa using hne
      rw [List.filter_cons_of_neg (by simpa using hentry), hrest, heq]
    · have hmem : (key, value) ∈ l := by
        rcases List.mem_cons.mp h with rfl | h
        · exact absurd rfl hentry
        · exact h
      rw [List.filter_cons_of_pos (by simpa using hentry)]
      exact ((ih hkeys.2 hmem).cons entry).trans (.swap _ _ _)

namespace Books

variable {config : RuntimeConfig} {s s' : Shared Task Output} {stages : List Stage} {j : ℕ}
  {job : Job Task Output} {stage stage' : Stage}

/-- The books only depend on the accounts and on who the jobs are. -/
theorem congr (h : Books config s stages) (hbooks : SameBooks s s') (hwho : s'.who = s.who) :
    Books config s' stages := by
  obtain ⟨hactive, howners, hcounters, hnext⟩ := hbooks
  have hjobsOf (owner : ℕ) : s'.jobsOf owner = s.jobsOf owner := by
    rw [Shared.jobsOf, hactive, hwho, Shared.jobsOf]
  constructor
  · rw [hwho]; exact h.length
  · rw [hwho]; exact h.ids
  · rw [hwho, hnext]; exact h.next
  · rw [hactive]; exact h.keys
  · rw [hactive, hwho]; exact h.active
  · rw [hactive]; exact h.opened
  · intro owner
    rw [howners, hjobsOf, h.owners]
  · intro owner
    rw [hjobsOf]
    exact h.ceiling owner
  · rw [hcounters]; exact h.running
  · rw [hcounters]; exact h.tallied
  · rw [hcounters, hwho]; exact h.submitted

/-- A job that stays active moves on, and the counters follow. -/
theorem move (h : Books config s stages) (hstage : stages[j]? = some stage)
    (hopen : stage.isOpen ∧ stage'.isOpen) {counters : Counters}
    (hrunning : counters.running = (stages.set j stage').countP Stage.isCounted)
    (htallied : counters.completed + counters.failed + counters.cancelled =
      (stages.set j stage').countP Stage.isTallied)
    (hsubmitted : counters.submitted = s.counters.submitted) :
    Books config { s with counters } (stages.set j stage') := by
  obtain ⟨hlt, hget⟩ := List.getElem?_eq_some_iff.mp hstage
  constructor
  · rw [List.length_set]; exact h.length
  · exact h.ids
  · exact h.next
  · exact h.keys
  · intro id i
    rw [show ((id, i) ∈ s.active ↔ _) from h.active id i]
    by_cases hi : j = i
    · subst i
      rw [hstage, List.getElem?_set_self hlt]
      simp [hopen, Shared.who]
    · rw [List.getElem?_set_ne hi]
      rfl
  · have hpos : 0 < stages.countP Stage.isOpen :=
      List.countP_pos_iff.mpr ⟨stage, List.mem_of_getElem? hstage, hopen.1⟩
    rw [List.countP_set hlt, hget, if_pos hopen.1, if_pos hopen.2, ← h.opened]
    rw [← h.opened] at hpos
    show s.active.length = _
    omega
  · exact h.owners
  · exact h.ceiling
  · exact hrunning
  · exact htallied
  · exact hsubmitted.trans h.submitted

/-- The counts of the stages after one job has moved on. -/
theorem countP_move (stage' : Stage) (hstage : stages[j]? = some stage) (p : Stage → Bool) :
    (stages.set j stage').countP p + (p stage).toNat = stages.countP p + (p stage').toNat ∧
      (stages.set j stage').countP p ≤ stages.length := by
  obtain ⟨hlt, hget⟩ := List.getElem?_eq_some_iff.mp hstage
  constructor
  · rw [List.countP_set hlt, hget]
    cases hp : p stage with
    | false => cases p stage' <;> simp
    | true =>
      have hpos : 0 < stages.countP p :=
        List.countP_pos_iff.mpr ⟨stage, List.mem_of_getElem? hstage, hp⟩
      cases p stage' <;> simp <;> omega
  · have := (stages.set j stage').countP_le_length (p := p)
    rwa [List.length_set] at this

/-- The owners after one job of an owner is gone. -/
theorem lookup_owners {owners : AList fun _ : ℕ ↦ ℕ} {owner : ℕ} {jobs : ℕ → ℕ}
    (h : ∀ other, (owners.lookup other).getD 0 = jobs other) (other : ℕ) :
    ((match owners.lookup owner with
      | none => owners
      | some jobs =>
        if jobs - 1 = 0 then owners.erase owner
        else owners.insert owner (jobs - 1)).lookup other).getD 0 =
      if owner = other then jobs other - 1 else jobs other := by
  cases hlookup : owners.lookup owner with
  | none =>
    dsimp only
    rw [h]
    split
    · next heq =>
      rw [← h, ← heq, hlookup]
      rfl
    · rfl
  | some count =>
    have hcount : jobs owner = count := by rw [← h, hlookup, Option.getD_some]
    dsimp only
    by_cases heq : owner = other
    · subst heq
      rw [if_pos rfl, hcount]
      split
      · next hzero => rw [AList.lookup_erase, hzero]; rfl
      · rw [AList.lookup_insert, Option.getD_some]
    · rw [if_neg heq]
      split
      · rw [AList.lookup_erase_ne (Ne.symm heq), h]
      · rw [AList.lookup_insert_ne (Ne.symm heq), h]

/-- A closed job is no longer active, and its owner has one job less. -/
theorem close (h : Books config s stages) (hwho : s.who[j]? = some (job.id, job.owner))
    (hstage : stages[j]? = some .tallied) :
    Books config (s.recordInactive job) (stages.set j .closed) := by
  obtain ⟨hlt, hget⟩ := List.getElem?_eq_some_iff.mp hstage
  have hmem : (job.id, j) ∈ s.active :=
    (h.active job.id j).mpr ⟨⟨_, hwho, rfl⟩, .tallied, hstage, rfl⟩
  have hany : (s.active.any fun entry ↦ entry.1 = job.id) = true :=
    List.any_eq_true.mpr ⟨_, hmem, by simp⟩
  have hperm := perm_cons_filter_key h.keys hmem
  have hfewer (owner : ℕ) : s.jobsOf owner =
      (s.active.filter fun entry ↦ entry.1 ≠ job.id).countP
        (fun entry ↦ s.who[entry.2]?.any (·.2 = owner)) + if job.owner = owner then 1 else 0 := by
    rw [Shared.jobsOf, hperm.countP_eq, List.countP_cons, hwho]
    simp only [Option.any_some, decide_eq_true_eq]
  have hcounted := (countP_move .closed hstage Stage.isCounted).1
  have htallied := (countP_move .closed hstage Stage.isTallied).1
  have hopened := (countP_move .closed hstage Stage.isOpen).1
  rw [Shared.recordInactive, if_pos hany]
  constructor
  · rw [List.length_set]
    exact h.length
  · exact h.ids
  · exact h.next
  · exact h.keys.sublist (List.filter_sublist.map _)
  · intro id i
    show (id, i) ∈ s.active.filter (fun entry ↦ entry.1 ≠ job.id) ↔ _
    rw [List.mem_filter, h.active]
    by_cases hi : j = i
    · subst i
      rw [List.getElem?_set_self hlt]
      refine iff_of_false ?_ (by simp [Stage.isOpen])
      rintro ⟨⟨⟨who, hid, rfl⟩, -⟩, hne⟩
      rw [hwho] at hid
      cases hid
      simp at hne
    · rw [List.getElem?_set_ne hi]
      refine ⟨And.left, fun hactive ↦ ⟨hactive, ?_⟩⟩
      have hne : id ≠ job.id := by
        rintro rfl
        have hother := (h.active _ _).mpr hactive
        exact hi (congrArg Prod.snd (List.inj_on_of_nodup_map h.keys hmem hother rfl))
      simpa using hne
  · have hlen := hperm.length_eq
    rw [List.length_cons, h.opened] at hlen
    have hsucc : (stages.set j .closed).countP Stage.isOpen + 1 = stages.countP Stage.isOpen :=
      hopened
    show (s.active.filter fun entry ↦ entry.1 ≠ job.id).length = _
    omega
  · intro owner
    refine (lookup_owners h.owners owner).trans ?_
    rw [hfewer]
    split
    · rfl
    · rfl
  · intro owner
    have := h.ceiling owner
    rw [hfewer] at this
    exact (Nat.le_add_right _ _).trans this
  · show s.counters.running = _
    rw [h.running]
    exact hcounted.symm
  · show s.counters.completed + s.counters.failed + s.counters.cancelled = _
    rw [h.tallied]
    exact (Nat.add_right_cancel htallied).symm
  · exact h.submitted

/-- The books after a posting. -/
theorem post (h : Books config s stages) (hfew : s.who.length < 2 ^ 64)
    (hwho : s.who[j]? = some (job.id, job.owner)) (hstage : stages[j]? = some stage)
    (hposts : Posts s s' job stage stage') (hsame : s'.who = s.who) :
    Books config s' (stages.set j stage') := by
  have hcount := countP_move stage' hstage Stage.isCounted
  have htally := countP_move stage' hstage Stage.isTallied
  rw [h.length, ← h.running] at hcount
  rw [h.length, ← h.tallied] at htally
  cases hposts with
  | keep books =>
    obtain ⟨hlt, rfl⟩ := List.getElem?_eq_some_iff.mp hstage
    rw [List.set_getElem_self]
    exact h.congr books hsame
  | start books | cancel books =>
    refine (h.move hstage ⟨rfl, rfl⟩ ?_ ?_ rfl).congr books hsame
    · exact hcount.1.symm
    · exact htally.1.symm
  | finish books =>
    refine (h.move hstage ⟨rfl, rfl⟩ ?_ ?_ rfl).congr books hsame
    · exact (Nat.add_right_cancel hcount.1).symm
    · exact htally.1.symm
  | settleOther hsource books =>
    refine (h.move hstage ⟨rfl, rfl⟩ ?_ ?_ rfl).congr books hsame
    · rw [show Stage.isCounted (.ended _) = false from decide_eq_false hsource] at hcount
      exact hcount.1.symm
    · exact htally.1.symm
  | count books =>
    refine Books.congr ?_ books hsame
    refine h.move hstage ⟨rfl, rfl⟩ ?_ htally.1.symm rfl
    have hsucc : (stages.set j .counted).countP Stage.isCounted = s.counters.running + 1 := hcount.1
    rw [hsucc]
    exact fetchAdd_eq (by omega)
  | settle books =>
    have hsucc : (stages.set j .uncounted).countP Stage.isCounted + 1 = s.counters.running :=
      hcount.1
    have hle : s.counters.running ≤ s.who.length := by
      rw [h.running, ← h.length]
      exact List.countP_le_length
    rw [← hsucc, fetchSub_eq (by omega)] at books
    refine Books.congr ?_ books hsame
    exact h.move hstage ⟨rfl, rfl⟩ rfl htally.1.symm rfl
  | @tally terminal hterminal books =>
    have hsucc : (stages.set j .tallied).countP Stage.isTallied =
        s.counters.completed + s.counters.failed + s.counters.cancelled + 1 := htally.1
    have hwho' : s'.who = (s.countTerminal terminal).who := by
      rw [hsame, Shared.who, Shared.who, Shared.jobs_countTerminal]
    refine Books.congr ?_ books hwho'
    cases terminal with
    | completed =>
      refine h.move hstage ⟨rfl, rfl⟩ hcount.1.symm ?_ rfl
      show fetchAdd s.counters.completed + s.counters.failed + s.counters.cancelled = _
      rw [fetchAdd_eq (by omega), hsucc]
      omega
    | failed =>
      refine h.move hstage ⟨rfl, rfl⟩ hcount.1.symm ?_ rfl
      show s.counters.completed + fetchAdd s.counters.failed + s.counters.cancelled = _
      rw [fetchAdd_eq (by omega), hsucc]
      omega
    | cancelled =>
      refine h.move hstage ⟨rfl, rfl⟩ hcount.1.symm ?_ rfl
      show s.counters.completed + s.counters.failed + fetchAdd s.counters.cancelled = _
      rw [fetchAdd_eq (by omega), hsucc]
      omega
    | queued => cases hterminal
    | running => cases hterminal
  | close books =>
    have hwho' : s'.who = (s.recordInactive job).who := by
      rw [hsame, Shared.who, Shared.who, Shared.jobs_recordInactive]
    exact (h.close hwho hstage).congr books hwho'

end Books

/-! ### Admission -/

namespace Shared

variable {config : RuntimeConfig} {s s' : Shared Task Output} {outcome : TaskOutcome Output}
  {todo : List (Act Task Output)} {event : Option (Event Output)}

/-- The state after `submit` has admitted a job. -/
def enqueue (config : RuntimeConfig) (s : Shared Task Output) (owner : ℕ) (spec : JobSpec Task)
    (submittedAt : ℕ) : Shared Task Output :=
  { s with
    jobs := s.jobs ++ [{
      id := s.nextJobId
      owner
      state := .queued
      cancelFlag := false
      deadline := (spec.timeoutMs.map (submittedAt + ·)).filter (· ≤ config.lastInstant)
      task := some spec.task
      output := none
      locked := false }]
    active := (s.active.filter fun entry ↦ entry.1 ≠ s.nextJobId).orderedInsert
      (·.1 ≤ ·.1) (s.nextJobId, s.jobs.length)
    owners := s.owners.insert owner ((s.owners.lookup owner).getD 0 + 1)
    queue := s.queue ++ [s.jobs.length]
    counters := { s.counters with submitted := fetchAdd s.counters.submitted }
    nextJobId := fetchAdd s.nextJobId }

/-- The state after `submit` has turned a job away. -/
def reject (s : Shared Task Output) : Shared Task Output :=
  { s with counters := { s.counters with rejected := fetchAdd s.counters.rejected } }

/-- What `submit` does in one section: it takes the expired head of the queue, turns the job
away or admits it. -/
theorem exec_submit {owner submittedAt : ℕ} {spec : JobSpec Task}
    (h : s.exec config outcome (.submit owner spec submittedAt) = some (s', todo, event)) :
    (∃ job expired, s.queue.takeWhile s.expired = job :: expired ∧
      s' = { s with queue := s.queue.dropWhile s.expired } ∧
      todo = (job :: expired).map expire ++ [.submit owner spec submittedAt] ∧ event = none) ∨
    (∃ error, s' = s.reject ∧ todo = [] ∧ event = some (.rejected error)) ∨
    (s.shuttingDown = false ∧ (s.owners.lookup owner).getD 0 < config.maxJobsPerOwner ∧
      s.queue.length < config.maxQueue ∧ s' = s.enqueue config owner spec submittedAt ∧ todo = [] ∧
      event = some (.admitted s.jobs.length)) := by
  simp only [exec, takeExpiredQueueHead] at h
  cases htake : s.queue.takeWhile s.expired with
  | cons job expired =>
    rw [htake] at h
    cases h
    exact .inl ⟨job, expired, rfl, rfl, rfl, rfl⟩
  | nil =>
    have hdrop : s.queue.dropWhile s.expired = s.queue := by
      have := List.takeWhile_append_dropWhile (p := s.expired) (l := s.queue)
      rwa [htake] at this
    rw [htake, hdrop] at h
    simp only [admission] at h
    cases hdown : s.shuttingDown with
    | true =>
      simp only [hdown, if_true] at h
      cases h
      exact .inr (.inl ⟨_, by rw [reject, hdown], rfl, rfl⟩)
    | false =>
      simp only [hdown, Bool.false_eq_true, if_false] at h
      split at h
      · cases h
        exact .inr (.inl ⟨_, by rw [reject, hdown], rfl, rfl⟩)
      · split at h
        · cases h
          exact .inr (.inl ⟨_, by rw [reject, hdown], rfl, rfl⟩)
        · next howner hqueue =>
          cases h
          refine .inr (.inr ⟨rfl, by omega, by omega, ?_, rfl, rfl⟩)
          rw [enqueue, hdown]

/-- What a worker does in one section: it takes the expired head of the queue, takes a job, or
waits or leaves. -/
theorem exec_workerLoop (h : s.exec config outcome .workerLoop = some (s', todo, event)) :
    event = none ∧
    ((∃ job expired, s.queue.takeWhile s.expired = job :: expired ∧
      s' = { s with queue := s.queue.dropWhile s.expired } ∧
      todo = (job :: expired).map expire ++ [.workerLoop]) ∨
    (∃ job queue, s.queue = job :: queue ∧ s' = { s with queue } ∧
      todo = [.tryStart job, .workerLoop]) ∨
    (s' = s ∧ (todo = [] ∨ todo = [.workerLoop]))) := by
  simp only [exec, takeExpiredQueueHead] at h
  cases htake : s.queue.takeWhile s.expired with
  | cons job expired =>
    rw [htake] at h
    cases h
    exact ⟨rfl, .inl ⟨job, expired, rfl, rfl, rfl⟩⟩
  | nil =>
    have hdrop : s.queue.dropWhile s.expired = s.queue := by
      have := List.takeWhile_append_dropWhile (p := s.expired) (l := s.queue)
      rwa [htake] at this
    rw [htake, hdrop] at h
    cases hqueue : s.queue with
    | cons job queue =>
      simp only [hqueue] at h
      cases h
      exact ⟨rfl, .inr (.inl ⟨job, queue, rfl, rfl, rfl⟩)⟩
    | nil =>
      simp only [hqueue] at h
      split at h <;> cases h
      · exact ⟨rfl, .inr (.inr ⟨by rw [← hqueue], .inl rfl⟩)⟩
      · exact ⟨rfl, .inr (.inr ⟨by rw [← hqueue], .inr rfl⟩)⟩

end Shared

namespace Shared

variable {config : RuntimeConfig} {s s' : Shared Task Output} {outcome : TaskOutcome Output}
  {a : Act Task Output} {todo : List (Act Task Output)} {event : Option (Event Output)}

private theorem who_modifyJob (s : Shared Task Output) (j : ℕ) {f : Job Task Output → Job Task Output}
    (hf : ∀ job, (f job).id = job.id ∧ (f job).owner = job.owner) :
    (s.modifyJob j f).who = s.who := by
  apply List.ext_getElem?
  intro i
  simp only [who, List.getElem?_map, getElem?_modifyJob, Option.map_map]
  congr 1
  funext job
  simp only [Function.comp]
  split
  · rw [(hf job).1, (hf job).2]
  · rfl

/-- Nothing but an admission changes who the jobs are. -/
theorem exec_who (h : s.exec config outcome a = some (s', todo, event))
    (ha : ∀ owner spec submittedAt, a ≠ .submit owner spec submittedAt) : s'.who = s.who := by
  cases a with
  | submit owner spec submittedAt => exact absurd rfl (ha owner spec submittedAt)
  | workerLoop =>
    rcases exec_workerLoop h with ⟨-, ⟨job, expired, -, rfl, -⟩ | ⟨job, queue, -, rfl, -⟩ | ⟨rfl, -⟩⟩
    all_goals rfl
  | recordCounter p =>
    cases h
    rw [who, who, jobs_countTerminal]
  | recordActive p =>
    simp only [exec, Option.bind_eq_bind, Option.bind_eq_some_iff, pure] at h
    obtain ⟨job, -, h⟩ := h
    cases h
    rw [who, who, jobs_recordInactive]
  | _ =>
    simp only [exec, Option.bind_eq_bind, Option.bind_eq_some_iff, pure] at h
    grind [who_modifyJob, who]

end Shared

namespace Books

variable {config : RuntimeConfig} {s : Shared Task Output} {stages : List Stage}

/-- A job that is turned away leaves no other entry. -/
theorem reject (h : Books config s stages) : Books config s.reject stages :=
  ⟨h.length, h.ids, h.next, h.keys, h.active, h.opened, h.owners, h.ceiling, h.running, h.tallied,
    h.submitted⟩

/-- The books after an admission. -/
theorem enqueue (h : Books config s stages) {owner submittedAt : ℕ} {spec : JobSpec Task}
    (hfew : s.who.length + 1 < 2 ^ 64)
    (hceiling : (s.owners.lookup owner).getD 0 < config.maxJobsPerOwner) :
    Books config (s.enqueue config owner spec submittedAt) (stages ++ [.waiting]) := by
  have hwho : (s.enqueue config owner spec submittedAt).who = s.who ++ [(s.nextJobId, owner)] := by
    simp [Shared.who, Shared.enqueue]
  have hlength : s.jobs.length = s.who.length := by simp [Shared.who]
  have hid : s.nextJobId = s.who.length + 1 := by
    rw [h.next]
    exact Nat.mod_eq_of_lt hfew
  have hfresh : ∀ entry ∈ s.active, entry.1 ≠ s.nextJobId ∧ entry.2 < s.who.length := by
    rintro ⟨id, j⟩ hentry
    obtain ⟨⟨who, hj, rfl⟩, -⟩ := (h.active id j).mp hentry
    have hlt := (List.getElem?_eq_some_iff.mp hj).1
    have hid' : who.1 = j + 1 := by
      rw [h.ids j who hj]
      exact Nat.mod_eq_of_lt (by omega)
    exact ⟨by omega, hlt⟩
  have hperm : (s.enqueue config owner spec submittedAt).active.Perm
      ((s.nextJobId, s.who.length) :: s.active) := by
    have hfilter : s.active.filter (fun entry ↦ entry.1 ≠ s.nextJobId) = s.active := by
      rw [List.filter_eq_self]
      intro entry hentry
      simpa using (hfresh entry hentry).1
    rw [Shared.enqueue, hfilter, hlength]
    exact List.perm_orderedInsert _ _ _
  have hmore (other : ℕ) : (s.enqueue config owner spec submittedAt).jobsOf other =
      s.jobsOf other + if owner = other then 1 else 0 := by
    have hold : s.active.countP (fun entry ↦ (s.who ++ [(s.nextJobId, owner)])[entry.2]?.any
        (·.2 = other)) = s.jobsOf other := by
      apply List.countP_congr
      intro entry hentry
      rw [List.getElem?_append_left (hfresh entry hentry).2]
    rw [Shared.jobsOf, hwho, hperm.countP_eq, List.countP_cons, hold, List.getElem?_concat_length]
    simp only [Option.any_some, decide_eq_true_eq]
  constructor
  · rw [hwho, List.length_append, List.length_append, h.length]
    rfl
  · intro j who hj
    rw [hwho] at hj
    rcases Nat.lt_or_ge j s.who.length with hlt | hge
    · rw [List.getElem?_append_left hlt] at hj
      exact h.ids j who hj
    · obtain rfl : j = s.who.length := by
        have := (List.getElem?_eq_some_iff.mp hj).1
        rw [List.length_append, List.length_singleton] at this
        omega
      rw [List.getElem?_concat_length] at hj
      cases hj
      exact h.next
  · rw [hwho, List.length_append, List.length_singleton]
    show fetchAdd s.nextJobId = _
    rw [hid]
    rfl
  · rw [(hperm.map Prod.fst).nodup_iff, List.map_cons, List.nodup_cons]
    refine ⟨fun hmem ↦ ?_, h.keys⟩
    obtain ⟨entry, hentry, heq⟩ := List.mem_map.mp hmem
    exact (hfresh entry hentry).1 heq
  · intro id j
    rw [hperm.mem_iff, List.mem_cons, h.active, hwho]
    rcases Nat.lt_or_ge j s.who.length with hlt | hge
    · rw [List.getElem?_append_left hlt, List.getElem?_append_left (by rw [h.length]; exact hlt)]
      have hne : (id, j) ≠ (s.nextJobId, s.who.length) := by
        intro heq
        have := congrArg Prod.snd heq
        simp only at this
        omega
      simp only [hne, false_or]
    · rw [List.getElem?_eq_none hge]
      rcases Nat.eq_or_lt_of_le hge with rfl | hgt
      · rw [List.getElem?_concat_length, ← h.length, List.getElem?_concat_length]
        constructor
        · rintro (heq | ⟨⟨_, hwho, -⟩, -⟩)
          · exact ⟨⟨_, rfl, (congrArg Prod.fst heq).symm⟩, _, rfl, rfl⟩
          · cases hwho
        · rintro ⟨⟨_, hwho, rfl⟩, -⟩
          cases hwho
          exact .inl rfl
      · have hnone : (s.who ++ [(s.nextJobId, owner)])[j]? = none := by
          apply List.getElem?_eq_none
          rw [List.length_append, List.length_singleton]
          exact hgt
        rw [hnone]
        refine iff_of_false ?_ (by simp)
        rintro (heq | ⟨⟨_, hwho, -⟩, -⟩)
        · have := congrArg Prod.snd heq
          simp only at this
          omega
        · cases hwho
  · rw [hperm.length_eq, List.length_cons, h.opened, List.countP_append]
    rfl
  · intro other
    rw [hmore, ← h.owners]
    show ((s.owners.insert owner ((s.owners.lookup owner).getD 0 + 1)).lookup other).getD 0 = _
    split
    · next heq => rw [← heq, AList.lookup_insert, Option.getD_some]
    · next hne => rw [AList.lookup_insert_ne (Ne.symm hne), Nat.add_zero]
  · intro other
    rw [hmore]
    have := h.ceiling other
    split
    · next heq =>
      rw [← heq, ← h.owners]
      omega
    · omega
  · show s.counters.running = _
    rw [h.running, List.countP_append]
    rfl
  · show s.counters.completed + s.counters.failed + s.counters.cancelled = _
    rw [h.tallied, List.countP_append]
    rfl
  · rw [hwho, List.length_append, List.length_singleton]
    show fetchAdd s.counters.submitted = _
    rw [h.submitted]
    exact fetchAdd_eq hfew

end Books

end Gitility.Runtime
