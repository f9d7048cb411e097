import Mathlib.Data.List.Induction
import Gitility.Runtime.Jobs

/-!
# Every job ends exactly once

The life a job may lead is a small automaton over what happens to it. Every interleaving of
the threads of `runtime/mod.rs` keeps each job on that automaton: a runner, a thread that
holds the output lock and a thread that still has to call the observer are each unique, and
each exists exactly while the job's life says so.
-/

namespace Gitility.Runtime

variable {Task Output : Type}

/-- What a job has gone through: waiting, running with or without its task started, or ended
once with one result, which is observed and handed out at most once each. -/
inductive Life (Output : Type) where
  | queued
  | running (ran : Bool)
  | ended (source target : JobState) (result : Except Error Output) (ran observed taken : Bool)

namespace Life

/-- The events a life allows next. -/
inductive Next : Life Output → JobEvent Output → Life Output → Prop
  | start : Next .queued .started (.running false)
  | run : Next (.running false) .taskRun (.running true)
  | cancel {target : JobState} {result : Except Error Output} : target.isTerminal →
      Next .queued (.ended .queued target result)
        (.ended .queued target result false false false)
  | finish {target : JobState} {result : Except Error Output} {ran : Bool} :
      target.isTerminal →
      Next (.running ran) (.ended .running target result)
        (.ended .running target result ran false false)
  | observe {source target : JobState} {result : Except Error Output} {ran taken : Bool} :
      Next (.ended source target result ran false taken) .observed
        (.ended source target result ran true taken)
  | take {source target : JobState} {result : Except Error Output} {ran observed : Bool} :
      Next (.ended source target result ran observed false) (.taken result)
        (.ended source target result ran observed true)

/-- The lives a sequence of events leads to. -/
inductive Leads : List (JobEvent Output) → Life Output → Prop
  | nil : Leads [] .queued
  | snoc {events : List (JobEvent Output)} {event : JobEvent Output} {life life' : Life Output} :
      Leads events life → Next life event life' → Leads (events ++ [event]) life'

/-- The state a job in this life shows. -/
def state : Life Output → JobState
  | .queued => .queued
  | .running _ => .running
  | .ended _ target _ _ _ _ => target

/-- A worker is running the job. -/
def IsRunning : Life Output → Prop
  | .running _ => True
  | _ => False

/-- The job is over. -/
def IsEnded : Life Output → Prop
  | .ended .. => True
  | _ => False

/-- The job is over and its observer has not been called. -/
def Unobserved : Life Output → Prop
  | .ended _ _ _ _ observed _ => observed = false
  | _ => False

/-- What the output slot of an ended job holds. -/
def Stored (output : Option (Except Error Output)) : Life Output → Prop
  | .ended _ target result _ _ taken =>
    target.isTerminal ∧ output = if taken then none else some result
  | _ => True

/-- A life that has not been observed is over. -/
theorem isEnded_of_unobserved {life : Life Output} (h : life.Unobserved) : life.IsEnded := by
  cases life with
  | ended => exact True.intro
  | _ => exact h

private theorem stored_of_not_isEnded {output : Option (Except Error Output)} {life : Life Output}
    (h : ¬life.IsEnded) : life.Stored output := by
  cases life with
  | ended => exact absurd True.intro h
  | _ => exact True.intro

private theorem Next.unique {life life₁ life₂ : Life Output} {event : JobEvent Output}
    (h₁ : Next life event life₁) (h₂ : Next life event life₂) : life₁ = life₂ := by
  cases h₁ <;> cases h₂ <;> rfl

/-- A sequence of events leads to at most one life. -/
theorem Leads.unique {events : List (JobEvent Output)} {life₁ life₂ : Life Output}
    (h₁ : Leads events life₁) (h₂ : Leads events life₂) : life₁ = life₂ := by
  induction h₁ generalizing life₂ with
  | nil =>
    generalize hn : ([] : List (JobEvent Output)) = events at h₂
    cases h₂ with
    | nil => rfl
    | snoc _ _ => simp at hn
  | @snoc events event life life' _ hnext ih =>
    generalize hn : events ++ [event] = events' at h₂
    cases h₂ with
    | nil => simp at hn
    | snoc hleads hnext' =>
      obtain ⟨rfl, hev⟩ := List.append_inj' hn rfl
      obtain rfl := List.singleton_inj.mp hev
      obtain rfl := ih hleads
      exact hnext.unique hnext'

/-- The last event continues the life the others lead to. -/
theorem Leads.last {events : List (JobEvent Output)} {event : JobEvent Output}
    {life' : Life Output} (h : Leads (events ++ [event]) life') :
    ∃ life, Leads events life ∧ Next life event life' := by
  generalize hn : events ++ [event] = all at h
  cases h with
  | nil => simp at hn
  | snoc hleads hnext =>
    obtain ⟨rfl, hev⟩ := List.append_inj' hn rfl
    obtain rfl := List.singleton_inj.mp hev
    exact ⟨_, hleads, hnext⟩

/-- Every beginning of a life is a life. -/
theorem Leads.take {events events' : List (JobEvent Output)} {life : Life Output}
    (h : Leads (events ++ events') life) : ∃ life', Leads events life' := by
  induction events' using List.reverseRecOn generalizing life with
  | nil => exact ⟨life, by simpa using h⟩
  | append_singleton events' event ih =>
    rw [← List.append_assoc] at h
    obtain ⟨life', hl, -⟩ := h.last
    exact ih hl

/-- How often the job has ended, its task has run, its observer has been called and its
result has been handed out. -/
def counts : Life Output → ℕ × ℕ × ℕ × ℕ
  | .queued => (0, 0, 0, 0)
  | .running ran => (0, ran.toNat, 0, 0)
  | .ended _ _ _ ran observed taken => (1, ran.toNat, observed.toNat, taken.toNat)

private theorem counts_le (life : Life Output) :
    life.counts.1 ≤ 1 ∧ life.counts.2.1 ≤ 1 ∧ life.counts.2.2.1 ≤ 1 ∧ life.counts.2.2.2 ≤ 1 := by
  cases life with
  | queued => simp [counts]
  | running ran => simp [counts, Bool.toNat_le]
  | ended source target result ran observed taken => simp [counts, Bool.toNat_le]

/-- A life has counted its events. -/
theorem Leads.counts_eq {events : List (JobEvent Output)} {life : Life Output}
    (h : Leads events life) :
    (events.countP JobEvent.isEnded, events.countP JobEvent.isTaskRun,
      events.countP JobEvent.isObserved, events.countP JobEvent.isTaken) = life.counts := by
  induction h with
  | nil => rfl
  | snoc _ hnext ih =>
    cases hnext <;>
      simp_all [counts, JobEvent.isEnded, JobEvent.isTaskRun, JobEvent.isObserved,
        JobEvent.isTaken]

/-- A terminal transition in the past is the one the life remembers, and from the queue it
leaves no run. -/
theorem Leads.of_ended {events : List (JobEvent Output)} {life : Life Output}
    (h : Leads events life) {source target : JobState} {result : Except Error Output}
    (he : .ended source target result ∈ events) :
    ∃ ran observed taken, life = .ended source target result ran observed taken ∧
      (source = .queued → ran = false) := by
  induction h with
  | nil => cases he
  | snoc _ hnext ih =>
    rw [List.mem_append, List.mem_singleton] at he
    rcases he with he | rfl
    · obtain ⟨ran, observed, taken, rfl, hran⟩ := ih he
      cases hnext
      exacts [⟨ran, true, taken, rfl, hran⟩, ⟨ran, observed, true, rfl, hran⟩]
    · cases hnext
      exacts [⟨false, false, false, rfl, fun _ ↦ rfl⟩, ⟨_, false, false, rfl, fun h ↦ by cases h⟩]

end Life

namespace Act

/-- Actions of the one thread that runs job `j`. -/
def Runs (j : ℕ) : Act Task Output → Prop
  | .countRunning job | .check job | .discardRunning job _ | .takeTask job | .runTask job _
  | .finalCheck job _ => job = j
  | .publish p | .writeOutput p | .exchange p _ => p.job = j ∧ p.source = .running
  | _ => False

/-- Actions of the one thread that holds the output lock of job `j`. -/
def Locks (j : ℕ) : Act Task Output → Prop
  | .writeOutput p | .exchange p _ | .restore p _ | .release p => p.job = j
  | _ => False

/-- Actions of the one thread that still has to call the observer of job `j`. -/
def Notes (j : ℕ) : Act Task Output → Prop
  | .release p | .recordRunning p | .recordCounter p | .recordActive p | .observe p => p.job = j
  | _ => False

/-- What the thread about to take an action knows about job `j`. -/
def Sound (j : ℕ) (output : Option (Except Error Output)) (life : Life Output) :
    Act Task Output → Prop
  | .countRunning job | .check job | .takeTask job => job = j → life = .running false
  | .publish p => p.job = j → p.source.isTerminal = false ∧ p.target.isTerminal
  | .writeOutput p => p.job = j → ¬life.IsEnded ∧ output = none ∧ p.target.isTerminal
  | .exchange p previous =>
    p.job = j → ¬life.IsEnded ∧ previous = none ∧ output = some p.result ∧ p.target.isTerminal
  | .restore p previous => p.job = j → ¬life.IsEnded ∧ previous = none
  | .takeOutput job => job = j → life.IsEnded
  | _ => True

/-- An action that may wait behind others: it takes no unique part in any job, and a
publication only leaves the queued state. -/
def Plain : Act Task Output → Prop
  | .submit .. | .raiseCancel _ | .checkQueued _ | .unqueue _ | .discardTask _ | .workerLoop
  | .tryStart _ | .readTerminal _ | .requestShutdown | .beginShutdown | .publishShutdown => True
  | .publish p => p.source = .queued ∧ p.target.isTerminal
  | _ => False

/-- The job an action reads or writes. -/
def target : Act Task Output → Option ℕ
  | .raiseCancel job | .checkQueued job | .unqueue job | .discardTask job | .tryStart job
  | .countRunning job | .check job | .discardRunning job _ | .takeTask job | .runTask job _
  | .finalCheck job _ | .readTerminal job | .takeOutput job => some job
  | .publish p | .writeOutput p | .exchange p _ | .restore p _ | .release p | .recordRunning p
  | .recordCounter p | .recordActive p | .observe p => some p.job
  | _ => none

variable {j : ℕ} {a : Act Task Output} {output output' : Option (Except Error Output)}
  {life life' : Life Output}

private theorem Plain.not_runs (h : a.Plain) : ¬a.Runs j := by
  cases a <;> simp_all [Plain, Runs]

private theorem Plain.not_locks (h : a.Plain) : ¬a.Locks j := by
  cases a <;> simp_all [Plain, Locks]

private theorem Plain.not_notes (h : a.Plain) : ¬a.Notes j := by
  cases a <;> simp_all [Plain, Notes]

private theorem Plain.sound (h : a.Plain) : a.Sound j output life := by
  cases a <;> simp_all [Plain, Sound, JobState.isTerminal]

/-- What a thread knows survives a change of the job that its part in it excludes. -/
theorem Sound.transfer (h : a.Sound j output life) (ended : life.IsEnded → life'.IsEnded)
    (runs : a.Runs j → life' = life)
    (locks : a.Locks j → output' = output ∧ (life'.IsEnded ↔ life.IsEnded)) :
    a.Sound j output' life' := by
  cases a <;> simp only [Sound, Runs, Locks] at * <;> grind

/-- An action that does not concern job `j` knows nothing about it. -/
theorem sound_of_target_ne (h : a.target ≠ some j) : a.Sound j output life := by
  cases a <;> simp_all [target, Sound]

private theorem not_runs_of_target_ne (h : a.target ≠ some j) : ¬a.Runs j := by
  cases a <;> simp_all [target, Runs]

private theorem not_locks_of_target_ne (h : a.target ≠ some j) : ¬a.Locks j := by
  cases a <;> simp_all [target, Locks]

private theorem not_notes_of_target_ne (h : a.target ≠ some j) : ¬a.Notes j := by
  cases a <;> simp_all [target, Notes]

end Act

/-! ### Unique holders -/

/-- The next action of an agenda satisfies `P`. -/
def HeadIs (P : Act Task Output → Prop) : List (Act Task Output) → Prop
  | [] => False
  | a :: _ => P a

/-- At most one thread is at an action satisfying `P`, and one is exactly when `p` holds. -/
def Held (P : Act Task Output → Prop) (threads : ℕ → List (Act Task Output)) (p : Prop) : Prop :=
  ∃ holder : Option ℕ, (∀ t, HeadIs P (threads t) ↔ holder = some t) ∧ (holder.isSome ↔ p)

namespace Held

variable {P : Act Task Output → Prop} {threads : ℕ → List (Act Task Output)} {p p' : Prop}
  {t u : ℕ} {agenda : List (Act Task Output)}

/-- The part is held when some thread is at such an action. -/
theorem of_head (h : Held P threads p) (ht : HeadIs P (threads t)) : p := by
  obtain ⟨holder, hh, hp⟩ := h
  rw [(hh t).mp ht] at hp
  exact hp.mp rfl

/-- At most one thread holds the part. -/
theorem unique (h : Held P threads p) (ht : HeadIs P (threads t)) (hu : HeadIs P (threads u)) :
    t = u := by
  obtain ⟨holder, hh, -⟩ := h
  have := (hh t).mp ht
  rw [(hh u).mp hu] at this
  exact (Option.some.inj this).symm

/-- One thread moves on: it keeps its part, gives it up, or takes a free one. -/
theorem update (h : Held P threads p)
    (hs : (HeadIs P agenda ↔ HeadIs P (threads t)) ∧ (p' ↔ p) ∨
      HeadIs P (threads t) ∧ ¬HeadIs P agenda ∧ ¬p' ∨ ¬p ∧ HeadIs P agenda ∧ p') :
    Held P (Function.update threads t agenda) p' := by
  obtain ⟨holder, hh, hp⟩ := h
  rcases hs with ⟨hsame, hpp⟩ | ⟨hold, hnew, hp'⟩ | ⟨hfree, hnew, hp'⟩
  · refine ⟨holder, fun u ↦ ?_, hp.trans hpp.symm⟩
    by_cases hu : u = t
    · subst u
      rw [Function.update_self, hsame, hh]
    · rw [Function.update_of_ne hu, hh]
  · refine ⟨none, fun u ↦ ?_, by simpa using hp'⟩
    by_cases hu : u = t
    · subst u
      rw [Function.update_self]
      exact iff_of_false hnew (by simp)
    · rw [Function.update_of_ne hu, hh, (hh t).mp hold]
      simpa using Ne.symm hu
  · have hnone : holder = none := by
      rw [← Option.not_isSome_iff_eq_none, hp]
      exact hfree
    refine ⟨some t, fun u ↦ ?_, by simpa using hp'⟩
    by_cases hu : u = t
    · subst u
      rw [Function.update_self]
      exact iff_of_true hnew rfl
    · rw [Function.update_of_ne hu, hh, hnone]
      simpa using Ne.symm hu

end Held

/-! ### The invariant of one job -/

/-- Job `j` leads life `life`: the shared record shows it, its unique parts are held exactly
while it says so, and every thread's knowledge about the job is right. -/
structure Lives (threads : ℕ → List (Act Task Output)) (j : ℕ) (job : Job Task Output)
    (life : Life Output) : Prop where
  state : job.state = life.state
  runner : Held (Act.Runs j) threads life.IsRunning
  locker : Held (Act.Locks j) threads (job.locked = true)
  noter : Held (Act.Notes j) threads life.Unobserved
  quiet : job.locked = false → ¬life.IsEnded → job.output = none
  stored : life.Stored job.output
  sound : ∀ t, HeadIs (Act.Sound j job.output life) (threads t) ∨ threads t = []

namespace Lives

variable {threads : ℕ → List (Act Task Output)} {j : ℕ} {job : Job Task Output}
  {life : Life Output}

/-- A job that leads a running life is running. -/
theorem state_of_isRunning (h : Lives threads j job life) (hr : life.IsRunning) :
    job.state = .running := by
  rw [h.state]
  cases life <;> first | rfl | exact hr.elim

/-- A job that does not show a terminal state is not over. -/
theorem not_isEnded (h : Lives threads j job life) (hs : job.state.isTerminal = false) :
    ¬life.IsEnded := by
  intro he
  have hst := h.stored
  rw [h.state] at hs
  cases life with
  | ended source target result ran observed taken =>
    have ht : target.isTerminal = true := hst.1
    rw [Life.state, ht] at hs
    cases hs
  | _ => exact he

/-- A job that shows a terminal state is over. -/
theorem isEnded (h : Lives threads j job life) (hs : job.state.isTerminal = true) :
    life.IsEnded := by
  rw [h.state] at hs
  cases life with
  | ended => exact True.intro
  | _ => cases hs

section Head

variable {t : ℕ} {a : Act Task Output} {rest : List (Act Task Output)}

/-- What the thread at the head of its agenda knows. -/
theorem sound_head (h : Lives threads j job life) (ht : threads t = a :: rest) :
    a.Sound j job.output life := by
  rcases h.sound t with hs | hs
  · rw [ht] at hs
    exact hs
  · rw [ht] at hs
    cases hs

private theorem isRunning_of_runs (h : Lives threads j job life) (ht : threads t = a :: rest)
    (ha : a.Runs j) : life.IsRunning :=
  h.runner.of_head (t := t) (by rw [ht]; exact ha)

private theorem locked_of_locks (h : Lives threads j job life) (ht : threads t = a :: rest)
    (ha : a.Locks j) : job.locked = true :=
  h.locker.of_head (t := t) (by rw [ht]; exact ha)

private theorem unobserved_of_notes (h : Lives threads j job life) (ht : threads t = a :: rest)
    (ha : a.Notes j) : life.Unobserved :=
  h.noter.of_head (t := t) (by rw [ht]; exact ha)

end Head

end Lives

/-- One thread takes an action: what has to be shown so that the job's life goes on. -/
theorem Lives.update {threads : ℕ → List (Act Task Output)} {j t : ℕ} {job job' : Job Task Output}
    {life life' : Life Output} {a : Act Task Output} {rest agenda : List (Act Task Output)}
    (h : Lives threads j job life) (ht : threads t = a :: rest)
    (state : job'.state = life'.state)
    (runner : (HeadIs (Act.Runs j) agenda ↔ a.Runs j) ∧ (life'.IsRunning ↔ life.IsRunning) ∨
      a.Runs j ∧ ¬HeadIs (Act.Runs j) agenda ∧ ¬life'.IsRunning ∨
      ¬life.IsRunning ∧ HeadIs (Act.Runs j) agenda ∧ life'.IsRunning)
    (locker : (HeadIs (Act.Locks j) agenda ↔ a.Locks j) ∧ (job'.locked = job.locked) ∨
      a.Locks j ∧ ¬HeadIs (Act.Locks j) agenda ∧ job'.locked = false ∨
      job.locked = false ∧ HeadIs (Act.Locks j) agenda ∧ job'.locked = true)
    (noter : (HeadIs (Act.Notes j) agenda ↔ a.Notes j) ∧ (life'.Unobserved ↔ life.Unobserved) ∨
      a.Notes j ∧ ¬HeadIs (Act.Notes j) agenda ∧ ¬life'.Unobserved ∨
      ¬life.Unobserved ∧ HeadIs (Act.Notes j) agenda ∧ life'.Unobserved)
    (quiet : job'.locked = false → ¬life'.IsEnded → job'.output = none)
    (stored : life'.Stored job'.output)
    (sound : HeadIs (Act.Sound j job'.output life') agenda ∨ agenda = [])
    (ended : life.IsEnded → life'.IsEnded)
    (runs : life' = life ∨ a.Runs j ∨ ¬life.IsRunning)
    (locks : job'.output = job.output ∧ (life'.IsEnded ↔ life.IsEnded) ∨ a.Locks j ∨
      job.locked = false) :
    Lives (Function.update threads t agenda) j job' life' where
  state := state
  runner := h.runner.update (by rw [ht]; exact runner)
  locker := by
    refine h.locker.update ?_
    rw [ht]
    rcases locker with ⟨hh, hl⟩ | ⟨ha, hn, hl⟩ | ⟨hl, hn, hl'⟩
    · exact .inl ⟨hh, by rw [hl]⟩
    · exact .inr (.inl ⟨ha, hn, by rw [hl]; exact Bool.false_ne_true⟩)
    · exact .inr (.inr ⟨by rw [hl]; exact Bool.false_ne_true, hn, hl'⟩)
  noter := h.noter.update (by rw [ht]; exact noter)
  quiet := quiet
  stored := stored
  sound := by
    intro u
    by_cases hu : u = t
    · subst u
      rw [Function.update_self]
      exact sound
    · rw [Function.update_of_ne hu]
      cases hb : threads u with
      | nil => exact .inr rfl
      | cons b others =>
        -- Another thread is neither the runner nor the locker when those parts are taken here.
        have hruns (hr : b.Runs j) : ¬a.Runs j := fun ha ↦
          hu (h.runner.unique (by rw [hb]; exact hr) (by rw [ht]; exact ha))
        have hlocks (hl : b.Locks j) : ¬a.Locks j := fun ha ↦
          hu (h.locker.unique (by rw [hb]; exact hl) (by rw [ht]; exact ha))
        have hs : b.Sound j job.output life := by
          rcases h.sound u with hs | hs
          · rw [hb] at hs
            exact hs
          · rw [hb] at hs
            cases hs
        refine .inl (hs.transfer ended ?_ ?_)
        · intro hr
          have hrun := h.runner.of_head (t := u) (by rw [hb]; exact hr)
          rcases runs with hl | ha | hn
          · exact hl
          · exact absurd ha (hruns hr)
          · exact absurd hrun hn
        · intro hl
          have hlocked := h.locker.of_head (t := u) (by rw [hb]; exact hl)
          rcases locks with hsame | ha | hn
          · exact hsame
          · exact absurd ha (hlocks hl)
          · rw [hlocked] at hn
            cases hn

/-- An action that takes no part in the job and leaves its state, lock and output alone. -/
theorem Lives.idle {threads : ℕ → List (Act Task Output)} {j t : ℕ} {job job' : Job Task Output}
    {life : Life Output} {a : Act Task Output} {rest agenda : List (Act Task Output)}
    (h : Lives threads j job life) (ht : threads t = a :: rest)
    (ha : ¬a.Runs j ∧ ¬a.Locks j ∧ ¬a.Notes j)
    (hn : ¬HeadIs (Act.Runs j) agenda ∧ ¬HeadIs (Act.Locks j) agenda ∧
      ¬HeadIs (Act.Notes j) agenda)
    (hs : HeadIs (Act.Sound j job.output life) agenda ∨ agenda = [])
    (state : job'.state = job.state) (locked : job'.locked = job.locked)
    (output : job'.output = job.output) :
    Lives (Function.update threads t agenda) j job' life := by
  refine h.update ht (state.trans h.state) (.inl ⟨iff_of_false hn.1 ha.1, Iff.rfl⟩)
    (.inl ⟨iff_of_false hn.2.1 ha.2.1, locked⟩) (.inl ⟨iff_of_false hn.2.2 ha.2.2, Iff.rfl⟩)
    ?_ ?_ ?_ id (.inl rfl) (.inl ⟨output, Iff.rfl⟩)
  · rw [locked, output]
    exact h.quiet
  · rw [output]
    exact h.stored
  · rw [output]
    exact hs

/-- The thread that still has to call the observer moves on. -/
theorem Lives.record {threads : ℕ → List (Act Task Output)} {j t : ℕ} {job : Job Task Output}
    {life : Life Output} {a b : Act Task Output} {rest : List (Act Task Output)}
    (h : Lives threads j job life) (ht : threads t = a :: rest)
    (ha : a.Notes j) (hb : b.Notes j) (hl : ¬a.Locks j ∧ ¬b.Locks j) (hr : ¬a.Runs j ∧ ¬b.Runs j)
    (hs : b.Sound j job.output life) :
    Lives (Function.update threads t ([b] ++ rest)) j job life :=
  h.update ht h.state (.inl ⟨iff_of_false hr.2 hr.1, Iff.rfl⟩)
    (.inl ⟨iff_of_false hl.2 hl.1, rfl⟩) (.inl ⟨iff_of_true hb ha, Iff.rfl⟩) h.quiet h.stored
    (.inl hs) id (.inl rfl) (.inl ⟨rfl, Iff.rfl⟩)

/-- The runner moves on without touching state, lock or output. -/
theorem Lives.runOn {threads : ℕ → List (Act Task Output)} {j t : ℕ} {job job' : Job Task Output}
    {life : Life Output} {a b : Act Task Output} {rest : List (Act Task Output)}
    (h : Lives threads j job life) (ht : threads t = a :: rest)
    (ha : a.Runs j ∧ ¬a.Locks j ∧ ¬a.Notes j) (hb : b.Runs j ∧ ¬b.Locks j ∧ ¬b.Notes j)
    (hs : b.Sound j job.output life) (state : job'.state = job.state)
    (locked : job'.locked = job.locked) (output : job'.output = job.output) :
    Lives (Function.update threads t ([b] ++ rest)) j job' life := by
  refine h.update ht (state.trans h.state) (.inl ⟨iff_of_true hb.1 ha.1, Iff.rfl⟩)
    (.inl ⟨iff_of_false hb.2.1 ha.2.1, locked⟩) (.inl ⟨iff_of_false hb.2.2 ha.2.2, Iff.rfl⟩) ?_ ?_
    (.inl ?_) id (.inl rfl) (.inl ⟨output, Iff.rfl⟩)
  · rw [locked, output]
    exact h.quiet
  · rw [output]
    exact h.stored
  · rw [output]
    exact hs

/-! ### What an agenda may hold -/

section Agenda

variable {j : ℕ} {output : Option (Except Error Output)} {life : Life Output}
  {rest : List (Act Task Output)}

private theorem not_headIs_runs (h : ∀ b ∈ rest, b.Plain) : ¬HeadIs (Act.Runs j) rest := by
  cases rest with
  | nil => exact id
  | cons b _ => exact (h b List.mem_cons_self).not_runs

private theorem not_headIs_locks (h : ∀ b ∈ rest, b.Plain) : ¬HeadIs (Act.Locks j) rest := by
  cases rest with
  | nil => exact id
  | cons b _ => exact (h b List.mem_cons_self).not_locks

private theorem not_headIs_notes (h : ∀ b ∈ rest, b.Plain) : ¬HeadIs (Act.Notes j) rest := by
  cases rest with
  | nil => exact id
  | cons b _ => exact (h b List.mem_cons_self).not_notes

/-- Plain actions take no unique part. -/
theorem not_headIs_parts (h : ∀ b ∈ rest, b.Plain) : ¬HeadIs (Act.Runs j) rest ∧
    ¬HeadIs (Act.Locks j) rest ∧ ¬HeadIs (Act.Notes j) rest :=
  ⟨not_headIs_runs h, not_headIs_locks h, not_headIs_notes h⟩

private theorem headIs_sound (h : ∀ b ∈ rest, b.Plain) :
    HeadIs (Act.Sound j output life) rest ∨ rest = [] := by
  cases rest with
  | nil => exact .inr rfl
  | cons b _ => exact .inl (h b List.mem_cons_self).sound

end Agenda

private theorem terminalOf_isTerminal (result : Except Error Output) :
    (terminalOf result).isTerminal := by
  cases result with
  | ok output => rfl
  | error error =>
    rw [terminalOf]
    split <;> rfl

private theorem sound_finishRunning {i j : ℕ} {output : Option (Except Error Output)} {life : Life Output}
    (result : Except Error Output) :
    (finishRunning i result : Act Task Output).Sound j output life :=
  fun _ ↦ ⟨rfl, terminalOf_isTerminal result⟩

namespace Shared

variable {config : RuntimeConfig} {s s' : Shared Task Output} {outcome : TaskOutcome Output}
  {a : Act Task Output} {todo : List (Act Task Output)} {event : Option (Event Output)} {j : ℕ}

/-- Only the job of the index is modified. -/
theorem getElem?_modifyJob (s : Shared Task Output) (i : ℕ)
    (f : Job Task Output → Job Task Output) :
    (s.modifyJob i f).jobs[j]? = (s.jobs[j]?).map fun job ↦ if i = j then f job else job := by
  rw [modifyJob, List.getElem?_modify]
  rfl

/-- The modified job. -/
theorem getElem?_modifyJob_self {f : Job Task Output → Job Task Output} {job : Job Task Output}
    (hjob : s.jobs[j]? = some job) : (s.modifyJob j f).jobs[j]? = some (f job) := by
  rw [getElem?_modifyJob, hjob, Option.map_some, if_pos rfl]

/-- What an action leaves to do: only its first successor may take a unique part, and then
in the job the action was about. -/
theorem exec_todo (h : s.exec config outcome a = some (s', todo, event)) :
    (∀ b ∈ todo.tail, b.Plain) ∧ ∀ b ∈ todo.head?, b.Plain ∨ b.target = a.target := by
  cases a with
  | submit owner spec submittedAt =>
    simp only [exec] at h
    split at h
    · cases h
      simp
    · cases h
      refine ⟨fun b hb ↦ ?_, fun b hb ↦ .inl ?_⟩
      · have := List.mem_of_mem_tail hb
        simp only [List.mem_append, List.mem_map, List.mem_singleton] at this
        rcases this with ⟨i, -, rfl⟩ | rfl
        · exact ⟨rfl, rfl⟩
        · exact True.intro
      · simp only [List.map_cons, List.cons_append, List.head?_cons, Option.mem_some_iff] at hb
        subst b
        exact ⟨rfl, rfl⟩
  | workerLoop =>
    simp only [exec] at h
    split at h
    · cases h
      refine ⟨fun b hb ↦ ?_, fun b hb ↦ .inl ?_⟩
      · have := List.mem_of_mem_tail hb
        simp only [List.mem_append, List.mem_map, List.mem_singleton] at this
        rcases this with ⟨i, -, rfl⟩ | rfl
        · exact ⟨rfl, rfl⟩
        · exact True.intro
      · simp only [List.map_cons, List.cons_append, List.head?_cons, Option.mem_some_iff] at hb
        subst b
        exact ⟨rfl, rfl⟩
    · split at h
      · cases h
        simp [Act.Plain]
      · split at h <;> cases h <;> simp [Act.Plain]
  | beginShutdown =>
    simp only [exec] at h
    cases h
    have hall : ∀ b ∈ s.active.flatMap (fun entry ↦ cancel entry.2) ++
        [(.publishShutdown : Act Task Output)], b.Plain := by
      intro b hb
      simp only [List.mem_append, List.mem_flatMap, cancel, List.mem_cons, List.not_mem_nil,
        or_false] at hb
      rcases hb with ⟨entry, -, rfl | rfl⟩ | rfl <;> exact True.intro
    exact ⟨fun b hb ↦ hall b (List.mem_of_mem_tail hb),
      fun b hb ↦ .inl (hall b (List.mem_of_mem_head? hb))⟩
  | _ =>
    simp only [exec, Option.bind_eq_bind, Option.bind_eq_some_iff, pure] at h
    grind [Act.Plain, Act.target, publishCancelled, finishRunning, JobState.isTerminal]

/-- A job event is about the job of the action that shows it. -/
theorem exec_event (h : s.exec config outcome a = some (s', todo, event)) {e : JobEvent Output}
    (he : event = some (.job j e)) : a.target = some j := by
  cases a with
  | submit owner spec submittedAt =>
    simp only [exec, admission] at h
    split at h
    · cases h
      split at he <;> grind
    · cases h
      cases he
  | workerLoop =>
    simp only [exec] at h
    repeat' split at h
    all_goals
      cases h
      cases he
  | _ =>
    simp only [exec, Option.bind_eq_bind, Option.bind_eq_some_iff, pure] at h
    grind [Act.target, Option.map_eq_some_iff]

/-- An action leaves every job but its own as it is. -/
theorem exec_jobs_of_ne (h : s.exec config outcome a = some (s', todo, event))
    (hj : a.target ≠ some j) {job : Job Task Output} (hjob : s.jobs[j]? = some job) :
    s'.jobs[j]? = some job := by
  cases a with
  | submit owner spec submittedAt =>
    simp only [exec, admission, takeExpiredQueueHead] at h
    have hlt : j < s.jobs.length := (List.getElem?_eq_some_iff.mp hjob).1
    grind [List.getElem?_append_left]
  | workerLoop =>
    simp only [exec, takeExpiredQueueHead] at h
    grind
  | recordCounter p =>
    simp only [exec, countTerminal] at h
    grind
  | recordActive p =>
    simp only [exec, recordInactive, Option.bind_eq_bind, Option.bind_eq_some_iff, pure] at h
    grind
  | _ =>
    simp only [exec, Option.bind_eq_bind, Option.bind_eq_some_iff, pure] at h
    simp only [Act.target, ne_eq, Option.some.injEq] at hj
    grind [getElem?_modifyJob]

/-- A job that was not there before is one that `submit` has just admitted. -/
theorem exec_jobs_new (h : s.exec config outcome a = some (s', todo, event))
    (hj : s.jobs[j]? = none) {job : Job Task Output} (hjob : s'.jobs[j]? = some job) :
    todo = [] ∧ job.state = .queued ∧ job.locked = false ∧ job.output = none := by
  cases a with
  | submit owner spec submittedAt =>
    simp only [exec, admission, takeExpiredQueueHead] at h
    grind
  | workerLoop =>
    simp only [exec, takeExpiredQueueHead] at h
    grind
  | recordCounter p =>
    simp only [exec, countTerminal] at h
    grind
  | recordActive p =>
    simp only [exec, recordInactive, Option.bind_eq_bind, Option.bind_eq_some_iff, pure] at h
    grind
  | _ =>
    simp only [exec, Option.bind_eq_bind, Option.bind_eq_some_iff, pure] at h
    grind [getElem?_modifyJob]

end Shared

/-- The part of an event that is about job `j`. -/
def Event.about (j : ℕ) : Event Output → Option (JobEvent Output)
  | .job i event => if i = j then some event else none
  | _ => none

/-- What happened to job `j`, in order. -/
def history (j : ℕ) (trace : List (Event Output)) : List (JobEvent Output) :=
  trace.filterMap (Event.about j)

private theorem history_append (j : ℕ) (trace trace' : List (Event Output)) :
    history j (trace ++ trace') = history j trace ++ history j trace' :=
  List.filterMap_append

/-- The event of an action takes the job from one life to the next. -/
def Life.Continues (j : ℕ) (event : Option (Event Output)) (life life' : Life Output) : Prop :=
  ∀ events, Life.Leads events life → Life.Leads (events ++ history j event.toList) life'

private theorem history_eq_nil {j : ℕ} {event : Option (Event Output)}
    (h : ∀ e, event ≠ some (.job j e)) : history j event.toList = [] := by
  rw [history, List.filterMap_eq_nil_iff]
  intro e he
  rw [Option.mem_toList] at he
  subst he
  cases e with
  | job i e =>
    rw [Event.about, if_neg]
    rintro rfl
    exact h e rfl
  | _ => rfl

private theorem Life.continues_none {j : ℕ} {event : Option (Event Output)} {life : Life Output}
    (h : ∀ e, event ≠ some (.job j e)) : Life.Continues j event life life := by
  intro events hl
  rw [history_eq_nil h, List.append_nil]
  exact hl

private theorem history_job (j : ℕ) (e : JobEvent Output) :
    history j (some (Event.job j e)).toList = [e] := by
  simp [history, Event.about]

private theorem Life.continues_some {j : ℕ} {e : JobEvent Output} {life life' : Life Output}
    (h : Life.Next life e life') : Life.Continues j (some (.job j e)) life life' := by
  intro events hl
  rw [history_job]
  exact hl.snoc h

namespace Shared

variable {config : RuntimeConfig} {s s' : Shared Task Output} {outcome : TaskOutcome Output}
  {a : Act Task Output} {todo : List (Act Task Output)} {event : Option (Event Output)} {j : ℕ}

/-- After the step job `j` leads a life that the event continues, while thread `t` has `agenda`
left to do. -/
def GoesOn (threads : ℕ → List (Act Task Output)) (t : ℕ) (agenda : List (Act Task Output))
    (j : ℕ) (life : Life Output) (s : Shared Task Output) (event : Option (Event Output)) : Prop :=
  ∃ job life', s.jobs[j]? = some job ∧ Life.Continues j event life life' ∧
    Lives (Function.update threads t agenda) j job life'

section Lives

variable {job : Job Task Output} {life : Life Output} {threads : ℕ → List (Act Task Output)}
  {t : ℕ} {rest : List (Act Task Output)} {p : Publication Output}

/-- Raising the cancellation flag leaves the life of the job as it is. -/
private theorem lives_raiseCancel
    (h : s.exec config outcome (.raiseCancel j) = some (s', todo, event))
    (hjob : s.jobs[j]? = some job) (hl : Lives threads j job life)
    (ht : threads t = .raiseCancel j :: rest) (hrest : ∀ b ∈ rest, b.Plain) :
    GoesOn threads t (todo ++ rest) j life s' event := by
  simp only [exec, hjob, Option.bind_eq_bind, Option.bind_some, pure] at h
  cases h
  refine ⟨_, life, getElem?_modifyJob_self hjob, Life.continues_none (by simp), ?_⟩
  exact hl.idle ht ⟨id, id, id⟩ (not_headIs_parts hrest) (headIs_sound hrest) (by simp)
    (by simp) (by simp)

/-- Dropping the task leaves the life of the job as it is. -/
private theorem lives_discardTask
    (h : s.exec config outcome (.discardTask j) = some (s', todo, event))
    (hjob : s.jobs[j]? = some job) (hl : Lives threads j job life)
    (ht : threads t = .discardTask j :: rest) (hrest : ∀ b ∈ rest, b.Plain) :
    GoesOn threads t (todo ++ rest) j life s' event := by
  simp only [exec, hjob, Option.bind_eq_bind, Option.bind_some, pure] at h
  cases h
  refine ⟨_, life, getElem?_modifyJob_self hjob, Life.continues_none (by simp), ?_⟩
  exact hl.idle ht ⟨id, id, id⟩ (not_headIs_parts hrest) (headIs_sound hrest) (by simp)
    (by simp) (by simp)

/-- A canceller that looks at the job starts to publish or to raise the flag. -/
private theorem lives_checkQueued
    (h : s.exec config outcome (.checkQueued j) = some (s', todo, event))
    (hjob : s.jobs[j]? = some job) (hl : Lives threads j job life)
    (ht : threads t = .checkQueued j :: rest) :
    GoesOn threads t (todo ++ rest) j life s' event := by
  simp only [exec, hjob, Option.bind_eq_bind, Option.bind_some, pure] at h
  refine ⟨job, life, ?_, Life.continues_none ?_, hl.idle ht ⟨id, id, id⟩ ?_ ?_ rfl rfl rfl⟩
  all_goals
    split at h
    all_goals
      cases h
      simp [HeadIs, publishCancelled, Act.Runs, Act.Locks, Act.Notes, Act.Sound, hjob,
        JobState.isTerminal]

/-- Taking the job out of the queue leaves its life as it is. -/
private theorem lives_unqueue (h : s.exec config outcome (.unqueue j) = some (s', todo, event))
    (hjob : s.jobs[j]? = some job) (hl : Lives threads j job life)
    (ht : threads t = .unqueue j :: rest) (hrest : ∀ b ∈ rest, b.Plain) :
    GoesOn threads t (todo ++ rest) j life s' event := by
  simp only [exec, hjob, Option.bind_eq_bind, Option.bind_some, pure] at h
  have htodo : todo = [] ∧ event = none ∧ s'.jobs = s.jobs := by
    split at h
    all_goals
      cases h
      simp
  obtain ⟨rfl, rfl, hjobs⟩ := htodo
  refine ⟨job, life, by rw [hjobs, hjob], Life.continues_none (by simp), ?_⟩
  exact hl.idle ht ⟨id, id, id⟩ (not_headIs_parts hrest) (headIs_sound hrest) rfl rfl rfl

/-- A publication locks the output if it finds the state it expects. -/
private theorem lives_publish (h : s.exec config outcome (.publish p) = some (s', todo, event))
    (hjob : s.jobs[p.job]? = some job) (hl : Lives threads p.job job life)
    (ht : threads t = .publish p :: rest) (hrest : ∀ b ∈ rest, b.Plain) :
    GoesOn threads t (todo ++ rest) p.job life s' event := by
  obtain ⟨hsrc, htgt⟩ := hl.sound_head ht rfl
  simp only [exec, hjob, Option.bind_eq_bind, Option.bind_some, pure] at h
  by_cases hlk : job.locked = true
  · rw [if_pos hlk] at h
    cases h
  · rw [if_neg hlk] at h
    rw [Bool.not_eq_true] at hlk
    by_cases hst : job.state = p.source
    · rw [if_neg (not_not.mpr hst)] at h
      cases h
      have hend : ¬life.IsEnded := hl.not_isEnded (hst ▸ hsrc)
      refine ⟨_, life, getElem?_modifyJob_self hjob, Life.continues_none (by simp), ?_⟩
      refine hl.update ht hl.state (.inl ⟨Iff.rfl, Iff.rfl⟩) (.inr (.inr ⟨hlk, rfl, rfl⟩))
        (.inl ⟨Iff.rfl, Iff.rfl⟩) (fun hf ↦ by cases hf) hl.stored
        (.inl fun _ ↦ ⟨hend, hl.quiet hlk hend, htgt⟩) id (.inl rfl) (.inl ⟨rfl, Iff.rfl⟩)
    · rw [if_pos hst] at h
      cases h
      refine ⟨job, life, hjob, Life.continues_none (by simp), ?_⟩
      refine hl.idle ht ⟨?_, id, id⟩ (not_headIs_parts hrest) (headIs_sound hrest) rfl rfl rfl
      rintro ⟨-, hrun⟩
      apply hst
      rw [hl.state_of_isRunning (hl.isRunning_of_runs ht ⟨rfl, hrun⟩), hrun]

/-- The locker writes the result of a job that has not ended. -/
private theorem lives_writeOutput
    (h : s.exec config outcome (.writeOutput p) = some (s', todo, event))
    (hjob : s.jobs[p.job]? = some job) (hl : Lives threads p.job job life)
    (ht : threads t = .writeOutput p :: rest) :
    GoesOn threads t (todo ++ rest) p.job life s' event := by
  obtain ⟨hend, hout, htgt⟩ := hl.sound_head ht rfl
  simp only [exec, hjob, Option.bind_eq_bind, Option.bind_some, pure] at h
  cases h
  refine ⟨_, life, getElem?_modifyJob_self hjob, Life.continues_none (by simp), ?_⟩
  refine hl.update ht hl.state (.inl ⟨Iff.rfl, Iff.rfl⟩) (.inl ⟨Iff.rfl, rfl⟩)
    (.inl ⟨Iff.rfl, Iff.rfl⟩) ?_ (Life.stored_of_not_isEnded hend)
    (.inl fun _ ↦ ⟨hend, hout, rfl, htgt⟩) id (.inl rfl) (.inr (.inl rfl))
  intro hf
  rw [hl.locked_of_locks ht rfl] at hf
  cases hf

/-- The compare-exchange ends the job from the state it expects, or rolls back. -/
private theorem lives_exchange {previous : Option (Except Error Output)}
    (h : s.exec config outcome (.exchange p previous) = some (s', todo, event))
    (hjob : s.jobs[p.job]? = some job) (hl : Lives threads p.job job life)
    (ht : threads t = .exchange p previous :: rest) :
    GoesOn threads t (todo ++ rest) p.job life s' event := by
  obtain ⟨hend, hprev, hout, htgt⟩ := hl.sound_head ht rfl
  simp only [exec, hjob, Option.bind_eq_bind, Option.bind_some, pure] at h
  have hlk := hl.locked_of_locks ht rfl
  by_cases hst : job.state = p.source
  · rw [if_pos hst] at h
    cases h
    cases life with
    | ended => exact absurd True.intro hend
    | queued =>
      have hsrc : p.source = .queued := hst.symm.trans hl.state
      refine ⟨_, .ended .queued p.target p.result false false false,
        getElem?_modifyJob_self hjob, ?_, ?_⟩
      · rw [hsrc]
        exact Life.continues_some (.cancel htgt)
      · refine hl.update ht rfl (.inl ⟨iff_of_false id ?_, Iff.rfl⟩) (.inl ⟨Iff.rfl, rfl⟩)
          (.inr (.inr ⟨id, rfl, rfl⟩)) (fun _ hn ↦ absurd True.intro hn) ⟨htgt, hout⟩
          (.inl True.intro) (fun _ ↦ True.intro) (.inr (.inr id)) (.inr (.inl rfl))
        rintro ⟨-, hrun⟩
        rw [hsrc] at hrun
        cases hrun
    | running ran =>
      have hsrc : p.source = .running := hst.symm.trans hl.state
      refine ⟨_, .ended .running p.target p.result ran false false,
        getElem?_modifyJob_self hjob, ?_, ?_⟩
      · rw [hsrc]
        exact Life.continues_some (.finish htgt)
      · exact hl.update ht rfl (.inr (.inl ⟨⟨rfl, hsrc⟩, id, id⟩)) (.inl ⟨Iff.rfl, rfl⟩)
          (.inr (.inr ⟨id, rfl, rfl⟩)) (fun _ hn ↦ absurd True.intro hn) ⟨htgt, hout⟩
          (.inl True.intro) (fun _ ↦ True.intro) (.inr (.inl ⟨rfl, hsrc⟩)) (.inr (.inl rfl))
  · rw [if_neg hst] at h
    cases h
    -- The runner finds the job running, so only a publication from the queue fails here.
    have hnot : ¬(Act.exchange p previous : Act Task Output).Runs p.job := by
      rintro ⟨-, hrun⟩
      apply hst
      rw [hl.state_of_isRunning (hl.isRunning_of_runs ht ⟨rfl, hrun⟩), hrun]
    refine ⟨job, life, hjob, Life.continues_none (by simp), ?_⟩
    exact hl.update ht hl.state (.inl ⟨iff_of_false id hnot, Iff.rfl⟩) (.inl ⟨Iff.rfl, rfl⟩)
      (.inl ⟨Iff.rfl, Iff.rfl⟩) hl.quiet hl.stored (.inl fun _ ↦ ⟨hend, hprev⟩) id (.inl rfl)
      (.inl ⟨rfl, Iff.rfl⟩)

/-- A publication that lost puts the output back and unlocks it. -/
private theorem lives_restore {previous : Option (Except Error Output)}
    (h : s.exec config outcome (.restore p previous) = some (s', todo, event))
    (hjob : s.jobs[p.job]? = some job) (hl : Lives threads p.job job life)
    (ht : threads t = .restore p previous :: rest) (hrest : ∀ b ∈ rest, b.Plain) :
    GoesOn threads t (todo ++ rest) p.job life s' event := by
  obtain ⟨hend, hprev⟩ := hl.sound_head ht rfl
  simp only [exec, hjob, Option.bind_eq_bind, Option.bind_some, pure] at h
  cases h
  refine ⟨_, life, getElem?_modifyJob_self hjob, Life.continues_none (by simp), ?_⟩
  exact hl.update ht hl.state (.inl ⟨iff_of_false (not_headIs_runs hrest) id, Iff.rfl⟩)
    (.inr (.inl ⟨rfl, not_headIs_locks hrest, rfl⟩))
    (.inl ⟨iff_of_false (not_headIs_notes hrest) id, Iff.rfl⟩)
    (fun _ _ ↦ hprev) (Life.stored_of_not_isEnded hend) (headIs_sound hrest) id (.inl rfl)
    (.inr (.inl rfl))

/-- A publication that won unlocks the output and has the observer left to call. -/
private theorem lives_release (h : s.exec config outcome (.release p) = some (s', todo, event))
    (hjob : s.jobs[p.job]? = some job) (hl : Lives threads p.job job life)
    (ht : threads t = .release p :: rest) :
    GoesOn threads t (todo ++ rest) p.job life s' event := by
  simp only [exec, hjob, Option.bind_eq_bind, Option.bind_some, pure] at h
  cases h
  refine ⟨_, life, getElem?_modifyJob_self hjob, Life.continues_none (by simp), ?_⟩
  have hend : life.IsEnded := Life.isEnded_of_unobserved (hl.unobserved_of_notes ht rfl)
  exact hl.update ht hl.state (.inl ⟨Iff.rfl, Iff.rfl⟩) (.inr (.inl ⟨rfl, id, rfl⟩))
    (.inl ⟨Iff.rfl, Iff.rfl⟩) (fun _ hn ↦ absurd hend hn) hl.stored (.inl True.intro) id
    (.inl rfl) (.inl ⟨rfl, Iff.rfl⟩)

/-- The running count is corrected before the observer is called. -/
private theorem lives_recordRunning
    (h : s.exec config outcome (.recordRunning p) = some (s', todo, event))
    (hjob : s.jobs[p.job]? = some job) (hl : Lives threads p.job job life)
    (ht : threads t = .recordRunning p :: rest) :
    GoesOn threads t (todo ++ rest) p.job life s' event := by
  have hstep : todo = [.recordCounter p] ∧ event = none ∧ s'.jobs = s.jobs := by
    simp only [exec] at h
    split at h
    all_goals
      cases h
      simp
  obtain ⟨rfl, rfl, hjobs⟩ := hstep
  exact ⟨job, life, by rw [hjobs, hjob], Life.continues_none (by simp),
    hl.record ht rfl rfl ⟨id, id⟩ ⟨id, id⟩ True.intro⟩

/-- The terminal counter is raised before the observer is called. -/
private theorem lives_recordCounter
    (h : s.exec config outcome (.recordCounter p) = some (s', todo, event))
    (hjob : s.jobs[p.job]? = some job) (hl : Lives threads p.job job life)
    (ht : threads t = .recordCounter p :: rest) :
    GoesOn threads t (todo ++ rest) p.job life s' event := by
  have hstep : todo = [.recordActive p] ∧ event = none ∧ s'.jobs = s.jobs := by
    simp only [exec, countTerminal] at h
    split at h
    all_goals
      cases h
      simp
  obtain ⟨rfl, rfl, hjobs⟩ := hstep
  exact ⟨job, life, by rw [hjobs, hjob], Life.continues_none (by simp),
    hl.record ht rfl rfl ⟨id, id⟩ ⟨id, id⟩ True.intro⟩

/-- The job leaves the active map before the observer is called. -/
private theorem lives_recordActive
    (h : s.exec config outcome (.recordActive p) = some (s', todo, event))
    (hjob : s.jobs[p.job]? = some job) (hl : Lives threads p.job job life)
    (ht : threads t = .recordActive p :: rest) :
    GoesOn threads t (todo ++ rest) p.job life s' event := by
  have hstep : todo = [.observe p] ∧ event = none ∧ s'.jobs = s.jobs := by
    simp only [exec, hjob, recordInactive, Option.bind_eq_bind, Option.bind_some, pure] at h
    split at h
    all_goals
      cases h
      simp
  obtain ⟨rfl, rfl, hjobs⟩ := hstep
  exact ⟨job, life, by rw [hjobs, hjob], Life.continues_none (by simp),
    hl.record ht rfl rfl ⟨id, id⟩ ⟨id, id⟩ True.intro⟩

/-- The observer is called once, after the job has ended. -/
private theorem lives_observe (h : s.exec config outcome (.observe p) = some (s', todo, event))
    (hjob : s.jobs[p.job]? = some job) (hl : Lives threads p.job job life)
    (ht : threads t = .observe p :: rest) (hrest : ∀ b ∈ rest, b.Plain) :
    GoesOn threads t (todo ++ rest) p.job life s' event := by
  simp only [exec] at h
  cases h
  have hun := hl.unobserved_of_notes ht rfl
  cases life with
  | ended source target result ran observed taken =>
    obtain rfl : observed = false := hun
    refine ⟨job, .ended source target result ran true taken, hjob,
      Life.continues_some .observe, ?_⟩
    have hplain : ∀ b ∈ (if p.discard then [.discardTask p.job] else []) ++ rest, b.Plain := by
      intro b hb
      rw [List.mem_append] at hb
      rcases hb with hb | hb
      · split at hb
        · rw [List.mem_singleton] at hb
          subst hb
          exact True.intro
        · cases hb
      · exact hrest b hb
    exact hl.update ht hl.state (.inl ⟨iff_of_false (not_headIs_runs hplain) id, Iff.rfl⟩)
      (.inl ⟨iff_of_false (not_headIs_locks hplain) id, rfl⟩)
      (.inr (.inl ⟨rfl, not_headIs_notes hplain, by simp [Life.Unobserved]⟩))
      (fun _ hn ↦ absurd True.intro hn) hl.stored (headIs_sound hplain) id (.inr (.inr id))
      (.inl ⟨rfl, Iff.rfl⟩)
  | _ => exact hun.elim

/-- A worker starts a queued job and becomes its runner. -/
private theorem lives_tryStart (h : s.exec config outcome (.tryStart j) = some (s', todo, event))
    (hjob : s.jobs[j]? = some job) (hl : Lives threads j job life)
    (ht : threads t = .tryStart j :: rest) :
    GoesOn threads t (todo ++ rest) j life s' event := by
  simp only [exec, hjob, Option.bind_eq_bind, Option.bind_some, pure] at h
  by_cases hst : job.state = .queued
  · rw [if_pos hst] at h
    cases h
    cases life with
    | queued =>
      refine ⟨_, .running false, getElem?_modifyJob_self hjob, Life.continues_some .start, ?_⟩
      exact hl.update ht rfl (.inr (.inr ⟨id, rfl, True.intro⟩)) (.inl ⟨Iff.rfl, rfl⟩)
        (.inl ⟨Iff.rfl, Iff.rfl⟩) hl.quiet True.intro (.inl fun _ ↦ rfl) id (.inr (.inr id))
        (.inl ⟨rfl, Iff.rfl⟩)
    | running ran =>
      have := hl.state
      rw [hst] at this
      cases this
    | ended source target result ran observed taken =>
      exact absurd True.intro (hl.not_isEnded (by rw [hst]; rfl))
  · rw [if_neg hst] at h
    cases h
    refine ⟨job, life, hjob, Life.continues_none (by simp), ?_⟩
    exact hl.idle ht ⟨id, id, id⟩ ⟨id, id, id⟩ (.inl True.intro) rfl rfl rfl

/-- The runner counts the job as running. -/
private theorem lives_countRunning
    (h : s.exec config outcome (.countRunning j) = some (s', todo, event))
    (hjob : s.jobs[j]? = some job) (hl : Lives threads j job life)
    (ht : threads t = .countRunning j :: rest) :
    GoesOn threads t (todo ++ rest) j life s' event := by
  have hknow := hl.sound_head ht
  simp only [exec] at h
  cases h
  exact ⟨job, life, hjob, Life.continues_none (by simp),
    hl.runOn ht ⟨rfl, id, id⟩ ⟨rfl, id, id⟩ hknow rfl rfl rfl⟩

/-- The runner takes the task unless the job is cancelled or late. -/
private theorem lives_check (h : s.exec config outcome (.check j) = some (s', todo, event))
    (hjob : s.jobs[j]? = some job) (hl : Lives threads j job life)
    (ht : threads t = .check j :: rest) :
    GoesOn threads t (todo ++ rest) j life s' event := by
  have hknow := hl.sound_head ht
  simp only [exec, hjob, Option.bind_eq_bind, Option.bind_some, pure] at h
  split at h
  · cases h
    exact ⟨job, life, hjob, Life.continues_none (by simp),
      hl.runOn ht ⟨rfl, id, id⟩ ⟨rfl, id, id⟩ True.intro rfl rfl rfl⟩
  · cases h
    exact ⟨job, life, hjob, Life.continues_none (by simp),
      hl.runOn ht ⟨rfl, id, id⟩ ⟨rfl, id, id⟩ hknow rfl rfl rfl⟩

/-- The runner drops the task of a job that is cancelled or late. -/
private theorem lives_discardRunning {error : Error}
    (h : s.exec config outcome (.discardRunning j error) = some (s', todo, event))
    (hjob : s.jobs[j]? = some job) (hl : Lives threads j job life)
    (ht : threads t = .discardRunning j error :: rest) :
    GoesOn threads t (todo ++ rest) j life s' event := by
  simp only [exec, hjob, Option.bind_eq_bind, Option.bind_some, pure] at h
  cases h
  exact ⟨_, life, getElem?_modifyJob_self hjob, Life.continues_none (by simp),
    hl.runOn ht ⟨rfl, id, id⟩ ⟨⟨rfl, rfl⟩, id, id⟩ (sound_finishRunning _) rfl rfl rfl⟩

/-- The runner takes the task and runs it at most once. -/
private theorem lives_takeTask (h : s.exec config outcome (.takeTask j) = some (s', todo, event))
    (hjob : s.jobs[j]? = some job) (hl : Lives threads j job life)
    (ht : threads t = .takeTask j :: rest) :
    GoesOn threads t (todo ++ rest) j life s' event := by
  simp only [exec, hjob, Option.bind_eq_bind, Option.bind_some, pure] at h
  split at h
  · cases h
    obtain rfl := hl.sound_head ht rfl
    refine ⟨_, .running true, getElem?_modifyJob_self hjob, Life.continues_some .run, ?_⟩
    exact hl.update ht hl.state (.inl ⟨Iff.rfl, Iff.rfl⟩) (.inl ⟨Iff.rfl, rfl⟩)
      (.inl ⟨Iff.rfl, Iff.rfl⟩) hl.quiet True.intro (.inl True.intro) id (.inr (.inl rfl))
      (.inl ⟨rfl, Iff.rfl⟩)
  · cases h
    exact ⟨_, life, getElem?_modifyJob_self hjob, Life.continues_none (by simp),
      hl.runOn ht ⟨rfl, id, id⟩ ⟨⟨rfl, rfl⟩, id, id⟩ (sound_finishRunning _)
        rfl rfl rfl⟩

/-- The runner goes on with what its task answered. -/
private theorem lives_runTask {task : Task}
    (h : s.exec config outcome (.runTask j task) = some (s', todo, event))
    (hjob : s.jobs[j]? = some job) (hl : Lives threads j job life)
    (ht : threads t = .runTask j task :: rest) :
    GoesOn threads t (todo ++ rest) j life s' event := by
  simp only [exec] at h
  split at h
  · cases h
    exact ⟨job, life, hjob, Life.continues_none (by simp),
      hl.runOn ht ⟨rfl, id, id⟩ ⟨rfl, id, id⟩ True.intro rfl rfl rfl⟩
  all_goals
    cases h
    exact ⟨job, life, hjob, Life.continues_none (by simp),
      hl.runOn ht ⟨rfl, id, id⟩ ⟨⟨rfl, rfl⟩, id, id⟩ (sound_finishRunning _)
        rfl rfl rfl⟩

/-- The runner checks once more before it publishes. -/
private theorem lives_finalCheck {output : Output}
    (h : s.exec config outcome (.finalCheck j output) = some (s', todo, event))
    (hjob : s.jobs[j]? = some job) (hl : Lives threads j job life)
    (ht : threads t = .finalCheck j output :: rest) :
    GoesOn threads t (todo ++ rest) j life s' event := by
  simp only [exec, hjob, Option.bind_eq_bind, Option.bind_some, pure] at h
  cases h
  exact ⟨job, life, hjob, Life.continues_none (by simp),
    hl.runOn ht ⟨rfl, id, id⟩ ⟨⟨rfl, rfl⟩, id, id⟩ (sound_finishRunning _)
      rfl rfl rfl⟩

/-- A reader goes on only if the job has ended. -/
private theorem lives_readTerminal
    (h : s.exec config outcome (.readTerminal j) = some (s', todo, event))
    (hjob : s.jobs[j]? = some job) (hl : Lives threads j job life)
    (ht : threads t = .readTerminal j :: rest) (hrest : ∀ b ∈ rest, b.Plain) :
    GoesOn threads t (todo ++ rest) j life s' event := by
  simp only [exec, hjob, Option.bind_eq_bind, Option.bind_some, pure] at h
  by_cases hst : job.state.isTerminal = true
  · rw [if_pos hst] at h
    cases h
    refine ⟨job, life, hjob, Life.continues_none (by simp), ?_⟩
    exact hl.idle ht ⟨id, id, id⟩ ⟨id, id, id⟩ (.inl fun _ ↦ hl.isEnded hst) rfl rfl rfl
  · rw [if_neg hst] at h
    cases h
    refine ⟨job, life, hjob, Life.continues_none (by simp), ?_⟩
    exact hl.idle ht ⟨id, id, id⟩ (not_headIs_parts hrest) (headIs_sound hrest) rfl rfl rfl

/-- The result of an ended job is handed out at most once. -/
private theorem lives_takeOutput
    (h : s.exec config outcome (.takeOutput j) = some (s', todo, event))
    (hjob : s.jobs[j]? = some job) (hl : Lives threads j job life)
    (ht : threads t = .takeOutput j :: rest) (hrest : ∀ b ∈ rest, b.Plain) :
    GoesOn threads t (todo ++ rest) j life s' event := by
  have hend := hl.sound_head ht rfl
  simp only [exec, hjob, Option.bind_eq_bind, Option.bind_some, pure] at h
  by_cases hlk : job.locked = true
  · rw [if_pos hlk] at h
    cases h
  · rw [if_neg hlk] at h
    rw [Bool.not_eq_true] at hlk
    cases h
    cases life with
    | ended source target result ran observed taken =>
      obtain ⟨htgt, hout⟩ := hl.stored
      refine ⟨_, .ended source target result ran observed true, getElem?_modifyJob_self hjob,
        ?_, ?_⟩
      · cases taken with
        | false =>
          rw [hout]
          exact Life.continues_some .take
        | true =>
          rw [hout]
          exact Life.continues_none (by simp)
      · exact hl.update ht hl.state (.inl ⟨iff_of_false (not_headIs_runs hrest) id, Iff.rfl⟩)
          (.inl ⟨iff_of_false (not_headIs_locks hrest) id, rfl⟩)
          (.inl ⟨iff_of_false (not_headIs_notes hrest) id, Iff.rfl⟩)
          (fun _ hn ↦ absurd True.intro hn) ⟨htgt, rfl⟩ (headIs_sound hrest) id (.inr (.inr id))
          (.inr (.inr hlk))
    | _ => exact hend.elim

end Lives

/-- An action on a job continues the job's life. -/
theorem exec_lives (h : s.exec config outcome a = some (s', todo, event))
    (ha : a.target = some j) {job : Job Task Output} {life : Life Output}
    {threads : ℕ → List (Act Task Output)} {t : ℕ} {rest : List (Act Task Output)}
    (hjob : s.jobs[j]? = some job) (hl : Lives threads j job life) (ht : threads t = a :: rest)
    (hrest : ∀ b ∈ rest, b.Plain) : GoesOn threads t (todo ++ rest) j life s' event := by
  cases a with
  | raiseCancel _ =>
    cases ha
    exact lives_raiseCancel h hjob hl ht hrest
  | discardTask _ =>
    cases ha
    exact lives_discardTask h hjob hl ht hrest
  | checkQueued _ =>
    cases ha
    exact lives_checkQueued h hjob hl ht
  | unqueue _ =>
    cases ha
    exact lives_unqueue h hjob hl ht hrest
  | publish _ =>
    cases ha
    exact lives_publish h hjob hl ht hrest
  | writeOutput _ =>
    cases ha
    exact lives_writeOutput h hjob hl ht
  | exchange _ _ =>
    cases ha
    exact lives_exchange h hjob hl ht
  | restore _ _ =>
    cases ha
    exact lives_restore h hjob hl ht hrest
  | release _ =>
    cases ha
    exact lives_release h hjob hl ht
  | recordRunning _ =>
    cases ha
    exact lives_recordRunning h hjob hl ht
  | recordCounter _ =>
    cases ha
    exact lives_recordCounter h hjob hl ht
  | recordActive _ =>
    cases ha
    exact lives_recordActive h hjob hl ht
  | observe _ =>
    cases ha
    exact lives_observe h hjob hl ht hrest
  | tryStart _ =>
    cases ha
    exact lives_tryStart h hjob hl ht
  | countRunning _ =>
    cases ha
    exact lives_countRunning h hjob hl ht
  | check _ =>
    cases ha
    exact lives_check h hjob hl ht
  | discardRunning _ _ =>
    cases ha
    exact lives_discardRunning h hjob hl ht
  | takeTask _ =>
    cases ha
    exact lives_takeTask h hjob hl ht
  | runTask _ _ =>
    cases ha
    exact lives_runTask h hjob hl ht
  | finalCheck _ _ =>
    cases ha
    exact lives_finalCheck h hjob hl ht
  | readTerminal _ =>
    cases ha
    exact lives_readTerminal h hjob hl ht hrest
  | takeOutput _ =>
    cases ha
    exact lives_takeOutput h hjob hl ht hrest
  | _ => cases ha

end Shared

/-! ### Every reachable state -/

namespace System

/-- Every thread plays a unique part only with its next action, and every admitted job leads
the life its history allows. -/
structure Inv (trace : List (Event Output)) (s : System Task Output) : Prop where
  plain : ∀ t, ∀ b ∈ (s.threads t).tail, b.Plain
  absent : ∀ j, s.shared.jobs[j]? = none → history j trace = [] ∧
    ∀ t, ∀ a ∈ (s.threads t).head?, a.Plain ∨ a.target ≠ some j
  lives : ∀ j job, s.shared.jobs[j]? = some job →
    ∃ life, Life.Leads (history j trace) life ∧ Lives s.threads j job life

variable {config : RuntimeConfig} {trace : List (Event Output)} {s s' : System Task Output}
  {event : Option (Event Output)} {j t : ℕ}

private theorem inv_init : Inv [] (init : System Task Output) where
  plain _ _ hb := by cases hb
  absent _ _ := ⟨rfl, fun _ _ ha ↦ by cases ha⟩
  lives j job hjob := by
    simp [init] at hjob

/-- A new job is queued and nobody has a part in it. -/
private theorem lives_new {threads : ℕ → List (Act Task Output)} {job : Job Task Output}
    (ha : ∀ t, ∀ a ∈ (threads t).head?, a.Plain ∨ a.target ≠ some j)
    (hs : job.state = .queued) (hl : job.locked = false) (ho : job.output = none) :
    Lives threads j job .queued := by
  have hnone {P : Act Task Output → Prop} {p : Prop} (hp : ¬p)
      (hP : ∀ a : Act Task Output, a.Plain ∨ a.target ≠ some j → ¬P a) : Held P threads p := by
    refine ⟨none, fun t ↦ iff_of_false ?_ (by simp), by simpa using hp⟩
    have hat := ha t
    cases hthread : threads t with
    | nil => exact id
    | cons a rest =>
      rw [hthread] at hat
      exact hP a (hat a rfl)
  refine ⟨hs, hnone id ?_, hnone (by simp [hl]) ?_, hnone id ?_, fun _ _ ↦ ho, True.intro, ?_⟩
  · rintro a (hp | hn)
    exacts [hp.not_runs, Act.not_runs_of_target_ne hn]
  · rintro a (hp | hn)
    exacts [hp.not_locks, Act.not_locks_of_target_ne hn]
  · rintro a (hp | hn)
    exacts [hp.not_notes, Act.not_notes_of_target_ne hn]
  · intro t
    have hat := ha t
    cases hthread : threads t with
    | nil => exact .inr rfl
    | cons a rest =>
      rw [hthread] at hat
      rcases hat a rfl with hp | hn
      exacts [.inl hp.sound, .inl (Act.sound_of_target_ne hn)]

/-- A thread with plain actions only is no news to any job. -/
private theorem lives_call {agenda : List (Act Task Output)} {job : Job Task Output}
    {life : Life Output} {threads : ℕ → List (Act Task Output)} (hl : Lives threads j job life)
    (ht : threads t = []) (ha : ∀ b ∈ agenda, b.Plain) :
    Lives (Function.update threads t agenda) j job life where
  state := hl.state
  runner := hl.runner.update (.inl ⟨iff_of_false (not_headIs_runs ha) (by rw [ht]; exact id),
    Iff.rfl⟩)
  locker := hl.locker.update (.inl ⟨iff_of_false (not_headIs_locks ha) (by rw [ht]; exact id),
    Iff.rfl⟩)
  noter := hl.noter.update (.inl ⟨iff_of_false (not_headIs_notes ha) (by rw [ht]; exact id),
    Iff.rfl⟩)
  quiet := hl.quiet
  stored := hl.stored
  sound u := by
    by_cases hu : u = t
    · subst u
      rw [Function.update_self]
      exact headIs_sound ha
    · rw [Function.update_of_ne hu]
      exact hl.sound u

/-- What a call makes its thread do is plain. -/
theorem plain_acts (call : Call Task) (now : ℕ) :
    ∀ b ∈ (call.acts now : List (Act Task Output)), b.Plain := by
  cases call <;> simp [Call.acts, Act.Plain, Runtime.cancel]

/-- A plain action on a job that is not there has to wait. -/
theorem exec_absent {s : Shared Task Output} {outcome : TaskOutcome Output}
    {a : Act Task Output} (hp : a.Plain) (ha : a.target = some j) (hj : s.jobs[j]? = none) :
    s.exec config outcome a = none := by
  cases a <;> simp_all [Act.Plain, Act.target, Shared.exec]

/-- Whatever a thread does next continues the life of every job. -/
private theorem act_lives (h : Inv trace s) {a : Act Task Output} {outcome : TaskOutcome Output}
    {rest todo : List (Act Task Output)} {shared : Shared Task Output}
    (ht : s.threads t = a :: rest)
    (hexec : s.shared.exec config outcome a = some (shared, todo, event)) {job : Job Task Output}
    (hjob : s.shared.jobs[j]? = some job) :
    ∃ job' life', shared.jobs[j]? = some job' ∧
      Life.Leads (history j (trace ++ event.toList)) life' ∧
      Lives (Function.update s.threads t (todo ++ rest)) j job' life' := by
  have hrest : ∀ b ∈ rest, b.Plain := by simpa [ht] using h.plain t
  obtain ⟨life, hleads, hlives⟩ := h.lives j job hjob
  rw [history_append]
  by_cases ha : a.target = some j
  · obtain ⟨job', life', hjob', hcont, hlives'⟩ :=
      Shared.exec_lives hexec ha hjob hlives ht hrest
    exact ⟨job', life', hjob', hcont _ hleads, hlives'⟩
  · have hcont : Life.Continues j event life life := by
      apply Life.continues_none
      intro e he
      exact ha (Shared.exec_event hexec he)
    refine ⟨job, life, Shared.exec_jobs_of_ne hexec ha hjob, hcont _ hleads, ?_⟩
    obtain ⟨-, hhead⟩ := Shared.exec_todo hexec
    have hagenda : ∀ b ∈ (todo ++ rest).head?, b.Plain ∨ b.target ≠ some j := by
      cases todo with
      | nil => exact fun b hb ↦ .inl (hrest b (List.mem_of_mem_head? hb))
      | cons c todo =>
        intro b hb
        obtain rfl : c = b := by simpa using hb
        rcases hhead c rfl with hp | hc
        · exact .inl hp
        · exact .inr (hc ▸ ha)
    refine hlives.idle ht ⟨Act.not_runs_of_target_ne ha, Act.not_locks_of_target_ne ha,
      Act.not_notes_of_target_ne ha⟩ ?_ ?_ rfl rfl rfl
    · cases hag : todo ++ rest with
      | nil => exact ⟨id, id, id⟩
      | cons b tail =>
        rcases hagenda b (by rw [hag]; rfl) with hp | hn
        · exact ⟨hp.not_runs, hp.not_locks, hp.not_notes⟩
        · exact ⟨Act.not_runs_of_target_ne hn, Act.not_locks_of_target_ne hn,
            Act.not_notes_of_target_ne hn⟩
    · cases hag : todo ++ rest with
      | nil => exact .inr rfl
      | cons b tail =>
        rcases hagenda b (by rw [hag]; rfl) with hp | hn
        · exact .inl hp.sound
        · exact .inl (Act.sound_of_target_ne hn)

/-- One action of one thread keeps the invariant. -/
theorem inv_act (h : Inv trace s) {a : Act Task Output} {outcome : TaskOutcome Output}
    {rest todo : List (Act Task Output)} {shared : Shared Task Output}
    (ht : s.threads t = a :: rest)
    (hexec : s.shared.exec config outcome a = some (shared, todo, event)) :
    Inv (trace ++ event.toList) ⟨shared, Function.update s.threads t (todo ++ rest)⟩ := by
  have hrest : ∀ b ∈ rest, b.Plain := by simpa [ht] using h.plain t
  obtain ⟨htail, hhead⟩ := Shared.exec_todo hexec
  -- A job that is not there stays out of every thread's hands.
  have habsent (j : ℕ) (hj : s.shared.jobs[j]? = none) : history j (trace ++ event.toList) = [] ∧
      ∀ u, ∀ b ∈ (Function.update s.threads t (todo ++ rest) u).head?,
        b.Plain ∨ b.target ≠ some j := by
    obtain ⟨hhist, hthreads⟩ := h.absent j hj
    have ha : a.target ≠ some j := by
      intro ha
      rcases hthreads t a (by rw [ht]; rfl) with hp | hn
      · rw [exec_absent hp ha hj] at hexec
        cases hexec
      · exact hn ha
    constructor
    · rw [history_append, hhist, history_eq_nil fun e he ↦ ha (Shared.exec_event hexec he)]
      rfl
    · intro u
      by_cases hu : u = t
      · subst u
        rw [Function.update_self]
        cases todo with
        | nil => exact fun b hb ↦ .inl (hrest b (List.mem_of_mem_head? hb))
        | cons c todo =>
          intro b hb
          obtain rfl : c = b := by simpa using hb
          rcases hhead c rfl with hp | hc
          · exact .inl hp
          · exact .inr (hc ▸ ha)
      · rw [Function.update_of_ne hu]
        exact hthreads u
  refine ⟨?_, ?_, ?_⟩
  · intro u
    by_cases hu : u = t
    · subst u
      simp only [Function.update_self]
      cases todo with
      | nil => exact fun b hb ↦ hrest b (List.mem_of_mem_tail hb)
      | cons c todo =>
        intro b hb
        rcases List.mem_append.mp (show b ∈ todo ++ rest by simpa using hb) with hb | hb
        · exact htail b hb
        · exact hrest b hb
    · simp only [Function.update_of_ne hu]
      exact h.plain u
  · intro j hj
    cases hjob : s.shared.jobs[j]? with
    | none => exact habsent j hjob
    | some job =>
      obtain ⟨job', -, hjob', -⟩ := act_lives h ht hexec hjob
      rw [hj] at hjob'
      cases hjob'
  · intro j job' hjob'
    cases hjob : s.shared.jobs[j]? with
    | some job =>
      obtain ⟨job'', life, hjob'', hleads, hlives⟩ := act_lives h ht hexec hjob
      obtain rfl := Option.some.inj (hjob''.symm.trans hjob')
      exact ⟨life, hleads, hlives⟩
    | none =>
      obtain ⟨hhist, hthreads⟩ := habsent j hjob
      obtain ⟨-, hs, hl, ho⟩ := Shared.exec_jobs_new hexec hjob hjob'
      exact ⟨.queued, hhist ▸ .nil, lives_new hthreads hs hl ho⟩

/-- One move keeps the invariant. -/
theorem inv_step (h : Inv trace s) {move : Move Task Output}
    (hs : s.step config move = some (s', event)) : Inv (trace ++ event.toList) s' := by
  cases move with
  | act t outcome =>
    simp only [step] at hs
    split at hs
    · cases hs
    · next a rest ht =>
      rw [Option.bind_eq_bind, Option.bind_eq_some_iff] at hs
      obtain ⟨⟨shared, todo, event'⟩, hexec, heq⟩ := hs
      cases heq
      exact inv_act h ht hexec
  | call t call =>
    simp only [step] at hs
    split at hs
    · next ht =>
      cases hs
      have hacts : ∀ b ∈ (call.acts s.shared.now : List (Act Task Output)), b.Plain :=
        plain_acts call s.shared.now
      rw [Option.toList_none, List.append_nil]
      refine ⟨?_, ?_, ?_⟩
      · intro u
        by_cases hu : u = t
        · subst u
          simp only [Function.update_self]
          exact fun b hb ↦ hacts b (List.mem_of_mem_tail hb)
        · simp only [Function.update_of_ne hu]
          exact h.plain u
      · intro j hj
        refine ⟨(h.absent j hj).1, fun u ↦ ?_⟩
        by_cases hu : u = t
        · subst u
          simp only [Function.update_self]
          exact fun b hb ↦ .inl (hacts b (List.mem_of_mem_head? hb))
        · simp only [Function.update_of_ne hu]
          exact (h.absent j hj).2 u
      · intro j job hjob
        obtain ⟨life, hleads, hlives⟩ := h.lives j job hjob
        exact ⟨life, hleads, lives_call hlives ht hacts⟩
    · cases hs
  | tick =>
    cases hs
    rw [Option.toList_none, List.append_nil]
    exact ⟨h.plain, h.absent, h.lives⟩

/-- Every reachable state satisfies the invariant. -/
theorem Reachable.inv (h : Reachable config trace s) : Inv trace s := by
  induction h with
  | init => exact inv_init
  | step _ hs ih => exact inv_step ih hs

private theorem mem_history {trace : List (Event Output)} {e : JobEvent Output} :
    e ∈ history j trace ↔ .job j e ∈ trace := by
  rw [history, List.mem_filterMap]
  constructor
  · rintro ⟨event, hm, he⟩
    cases event with
    | job i e' =>
      rw [Event.about] at he
      split at he
      · next hi =>
        cases he
        exact hi ▸ hm
      · cases he
    | _ => cases he
  · intro hm
    exact ⟨_, hm, by simp [Event.about]⟩

/-- The history of every job, admitted or not, is that of a life. -/
theorem Reachable.leads (h : Reachable config trace s) (j : ℕ) :
    ∃ life, Life.Leads (history j trace) life := by
  cases hjob : s.shared.jobs[j]? with
  | none => exact ⟨.queued, (h.inv.absent j hjob).1 ▸ .nil⟩
  | some job =>
    obtain ⟨life, hl, -⟩ := h.inv.lives j job hjob
    exact ⟨life, hl⟩

/-- No job vanishes. -/
theorem step_jobs (h : Inv trace s) {move : Move Task Output}
    (hs : s.step config move = some (s', event)) {job : Job Task Output}
    (hjob : s.shared.jobs[j]? = some job) : ∃ job', s'.shared.jobs[j]? = some job' := by
  cases move with
  | act t outcome =>
    simp only [step] at hs
    split at hs
    · cases hs
    · next a rest ht =>
      rw [Option.bind_eq_bind, Option.bind_eq_some_iff] at hs
      obtain ⟨⟨shared, todo, event'⟩, hexec, heq⟩ := hs
      cases heq
      obtain ⟨job', -, hjob', -⟩ := act_lives h ht hexec hjob
      exact ⟨job', hjob'⟩
  | call t call =>
    simp only [step] at hs
    split at hs
    · cases hs
      exact ⟨job, hjob⟩
    · cases hs
  | tick =>
    cases hs
    exact ⟨job, hjob⟩

/-- One move leaves a job's life as it is or continues it with the move's event. -/
theorem Reachable.next (h : Reachable config trace s) {move : Move Task Output}
    (hs : s.step config move = some (s', event)) {job : Job Task Output}
    (hjob : s.shared.jobs[j]? = some job) :
    ∃ job' life life', s'.shared.jobs[j]? = some job' ∧ Lives s.threads j job life ∧
      Lives s'.threads j job' life' ∧
      (life' = life ∨ ∃ e, event = some (.job j e) ∧ Life.Next life e life') := by
  obtain ⟨life, hleads, hlives⟩ := h.inv.lives j job hjob
  obtain ⟨job', hjob'⟩ := step_jobs h.inv hs hjob
  obtain ⟨life', hleads', hlives'⟩ := (h.step hs).inv.lives j job' hjob'
  refine ⟨job', life, life', hjob', hlives, hlives', ?_⟩
  rw [history_append] at hleads'
  by_cases he : ∃ e, event = some (.job j e)
  · obtain ⟨e, rfl⟩ := he
    rw [history_job] at hleads'
    obtain ⟨life₀, hleads₀, hnext⟩ := hleads'.last
    obtain rfl := hleads.unique hleads₀
    exact .inr ⟨e, rfl, hnext⟩
  · rw [history_eq_nil fun e h ↦ he ⟨e, h⟩, List.append_nil] at hleads'
    exact .inl (hleads'.unique hleads)

/-- A job enters a terminal state only with the event that says so, showing its result. -/
private theorem Reachable.ends (h : Reachable config trace s) {move : Move Task Output}
    (hs : s.step config move = some (s', event)) {job : Job Task Output}
    (hjob : s.shared.jobs[j]? = some job) (hst : job.state.isTerminal = false) :
    ∃ job', s'.shared.jobs[j]? = some job' ∧ (job'.state.isTerminal = true →
      ∃ result, event = some (.job j (.ended job.state job'.state result)) ∧
        job'.output = some result) := by
  obtain ⟨job', life, life', hjob', hlives, hlives', hnext⟩ := h.next hs hjob
  refine ⟨job', hjob', fun hst' ↦ ?_⟩
  have hend := hlives.not_isEnded hst
  have hend' := hlives'.isEnded hst'
  rcases hnext with rfl | ⟨e, rfl, hnext⟩
  · exact absurd hend' hend
  · have hout := hlives'.stored
    rw [hlives.state, hlives'.state]
    cases hnext with
    | start | run => exact hend'.elim
    | cancel | finish => exact ⟨_, rfl, hout.2⟩
    | observe | take => exact absurd True.intro hend

/-- A terminal state and its result stay, except that `take_output` hands the result out. -/
private theorem Reachable.stays (h : Reachable config trace s) {move : Move Task Output}
    (hs : s.step config move = some (s', event)) {job : Job Task Output}
    (hjob : s.shared.jobs[j]? = some job) (hst : job.state.isTerminal = true) :
    ∃ job', s'.shared.jobs[j]? = some job' ∧ job'.state = job.state ∧
      (job'.output = job.output ∨ ∃ result, job.output = some result ∧ job'.output = none ∧
        event = some (.job j (.taken result))) := by
  obtain ⟨job', life, life', hjob', hlives, hlives', hnext⟩ := h.next hs hjob
  have hend := hlives.isEnded hst
  have hout := hlives.stored
  have hout' := hlives'.stored
  refine ⟨job', hjob', ?_⟩
  rw [hlives.state, hlives'.state]
  rcases hnext with rfl | ⟨e, rfl, hnext⟩
  · cases life' with
    | ended => exact ⟨rfl, .inl (hout'.2.trans hout.2.symm)⟩
    | _ => exact hend.elim
  · cases hnext with
    | observe => exact ⟨rfl, .inl (hout'.2.trans hout.2.symm)⟩
    | take => exact ⟨rfl, .inr ⟨_, hout.2, hout'.2, rfl⟩⟩
    | _ => exact hend.elim

/-- The observer is called after the terminal transition. -/
private theorem Reachable.observed (h : Reachable config trace s)
    {before after : List (Event Output)} (ht : trace = before ++ .job j .observed :: after) :
    ∃ source target result, .job j (.ended source target result) ∈ before := by
  obtain ⟨life, hl⟩ := h.leads j
  rw [ht, show before ++ Event.job j .observed :: after =
    before ++ (some (Event.job j .observed)).toList ++ after by simp, history_append,
    history_append, history_job] at hl
  obtain ⟨life', hl'⟩ := hl.take
  obtain ⟨life₀, hl₀, hnext⟩ := hl'.last
  cases hnext with
  | observe =>
    have hc := congrArg Prod.fst hl₀.counts_eq
    have hpos : 0 < (history j before).countP JobEvent.isEnded := by
      rw [show (history j before).countP JobEvent.isEnded = 1 from hc]
      exact Nat.one_pos
    obtain ⟨e, he, hise⟩ := List.countP_pos_iff.mp hpos
    cases e with
    | ended source target result => exact ⟨source, target, result, mem_history.mp he⟩
    | _ => cases hise

/-- In every reachable state of every interleaving, a job has made at most one transition into
a terminal state, had its observer called at most once and after that transition, had its
task run at most once, never if it ended from the queue, and its result handed out at most
once. The transition shows as an event with the result it stores, and from then on every
move leaves state and result alone unless it hands the result out. -/
theorem job_ends_once (h : Reachable config trace s) (j : ℕ) :
    (history j trace).countP JobEvent.isEnded ≤ 1 ∧
    (history j trace).countP JobEvent.isTaskRun ≤ 1 ∧
    (history j trace).countP JobEvent.isObserved ≤ 1 ∧
    (history j trace).countP JobEvent.isTaken ≤ 1 ∧
    (∀ before after, trace = before ++ .job j .observed :: after →
      ∃ source target result, .job j (.ended source target result) ∈ before) ∧
    (∀ target result, .job j (.ended .queued target result) ∈ trace →
      .job j .taskRun ∉ trace) ∧
    ∀ move s' event job, s.step config move = some (s', event) → s.shared.jobs[j]? = some job →
      ∃ job', s'.shared.jobs[j]? = some job' ∧
        (job.state.isTerminal = false → job'.state.isTerminal = true →
          ∃ result, event = some (.job j (.ended job.state job'.state result)) ∧
            job'.output = some result) ∧
        (job.state.isTerminal = true → job'.state = job.state ∧
          (job'.output = job.output ∨ ∃ result, job.output = some result ∧
            job'.output = none ∧ event = some (.job j (.taken result)))) := by
  obtain ⟨life, hleads⟩ := h.leads j
  have hcounts := hleads.counts_eq
  have hle := life.counts_le
  rw [← hcounts] at hle
  refine ⟨hle.1, hle.2.1, hle.2.2.1, hle.2.2.2, fun before after ↦ h.observed, ?_, ?_⟩
  · intro target result hended hrun
    obtain ⟨ran, observed, taken, rfl, hran⟩ := hleads.of_ended (mem_history.mpr hended)
    rw [hran rfl] at hcounts
    have hzero : (history j trace).countP JobEvent.isTaskRun = 0 :=
      congrArg (fun c ↦ c.2.1) hcounts
    exact List.countP_eq_zero.mp hzero _ (mem_history.mpr hrun) rfl
  · intro move s' event job hs hjob
    cases hst : job.state.isTerminal with
    | false =>
      obtain ⟨job', hjob', hends⟩ := h.ends hs hjob hst
      exact ⟨job', hjob', fun _ ↦ hends, fun hf ↦ by cases hf⟩
    | true =>
      obtain ⟨job', hjob', hstays⟩ := h.stays hs hjob hst
      exact ⟨job', hjob', fun hf ↦ by (cases hf), fun _ ↦ hstays⟩

/-- A canceller and a worker race for one job: the worker starts it between the canceller's
output write and compare-exchange, which rolls back, and the runner publishes instead. -/
def race : List (Move Unit Unit) :=
  let act (thread : ℕ) : Move Unit Unit := .act thread .panicked
  [.call 0 (.submit 7 ⟨(), none⟩), act 0, .call 1 .worker, act 1, .call 2 (.cancel 0)] ++
  List.replicate 5 (act 2) ++ [act 1, act 2, act 2] ++ List.replicate 11 (act 1) ++
  [.call 3 (.takeOutput 0), act 3, act 3]

/-- What callers see of the race. -/
def raceTrace : List (Event Unit) :=
  [.admitted 0, .job 0 .started, .job 0 (.ended .running .cancelled (.error cancelledError)),
    .job 0 .observed, .job 0 (.taken (.error cancelledError))]

/-- The race ends the job once, from its running state, and nothing moves it afterwards. -/
theorem job_ends_once_race :
    ∃ s : System Unit Unit, Reachable ⟨1, 1, 100, 1000⟩ raceTrace s ∧
      (history 0 raceTrace).countP JobEvent.isEnded ≤ 1 ∧
      (history 0 raceTrace).countP JobEvent.isTaskRun ≤ 1 ∧
      (history 0 raceTrace).countP JobEvent.isObserved ≤ 1 ∧
      (history 0 raceTrace).countP JobEvent.isTaken ≤ 1 ∧
      (∀ before after, raceTrace = before ++ .job 0 .observed :: after →
        ∃ source target result, .job 0 (.ended source target result) ∈ before) ∧
      (∀ target result, .job 0 (.ended .queued target result) ∈ raceTrace →
        .job 0 .taskRun ∉ raceTrace) ∧
      ∀ move s' event, s.step ⟨1, 1, 100, 1000⟩ move = some (s', event) →
        ∃ job', s'.shared.jobs[0]? = some job' ∧ job'.state = .cancelled ∧
          job'.output = none := by
  have hrun : ∃ (s : System Unit Unit) (job : Job Unit Unit),
      init.run ⟨1, 1, 100, 1000⟩ race = some (raceTrace, s) ∧ s.shared.jobs[0]? = some job ∧
        job.state = .cancelled ∧ job.output = none := ⟨_, _, rfl, rfl, rfl, rfl⟩
  obtain ⟨s, job, hs, hjob, hstate, hout⟩ := hrun
  have hreach := Reachable.init.run hs
  obtain ⟨hended, hran, hobserved, htaken, horder, hqueued, hmoves⟩ := job_ends_once hreach 0
  refine ⟨s, hreach, hended, hran, hobserved, htaken, horder, hqueued, ?_⟩
  intro move s' event hstep
  obtain ⟨job', hjob', -, hstays⟩ := hmoves move s' event job hstep hjob
  obtain ⟨hsame, houtput⟩ := hstays (by rw [hstate]; rfl)
  refine ⟨job', hjob', hsame.trans hstate, ?_⟩
  rcases houtput with heq | ⟨result, hresult, hnone, -⟩
  · exact heq.trans hout
  · exact hnone

end System
end Gitility.Runtime
