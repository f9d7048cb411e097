import Gitility.Runtime.Ledger

/-!
# Admission

No job of `runtime/mod.rs` is lost between the queue and its end: a queued job is in the queue, or
the one thread that took it out still has to start, expire or cancel it.
-/

namespace Gitility.Runtime

variable {Task Output : Type}

namespace Act

/-- Actions that try to move job `j` out of the queued state. -/
def Takes (j : ℕ) : Act Task Output → Prop
  | .tryStart job => job = j
  | .publish p | .writeOutput p | .exchange p _ => p.job = j ∧ p.source = .queued
  | _ => False

/-- Actions of a thread that has job `j` in its hands. -/
def Attends (j : ℕ) : Act Task Output → Prop
  | .checkQueued job => job = j
  | a => a.Takes j

/-- An action that removes a job from the queue on its own. -/
def IsUnqueue : Act Task Output → Prop
  | .unqueue _ => True
  | _ => False

end Act

namespace Shared

variable {config : RuntimeConfig} {s s' : Shared Task Output} {outcome : TaskOutcome Output}
  {a b : Act Task Output} {todo rest agenda : List (Act Task Output)}
  {event : Option (Event Output)} {j : ℕ}

/-- An action takes no job that is still in the queue. -/
def Clear (s : Shared Task Output) (a : Act Task Output) : Prop :=
  ¬a.IsUnqueue ∧ ∀ j, a.Takes j → j ∉ s.queue ∧ j < s.jobs.length

/-- An agenda takes no job that is still in the queue, or first removes the one it cancels. -/
inductive Tidy (s : Shared Task Output) : List (Act Task Output) → Prop where
  | clear {agenda : List (Act Task Output)} (hclear : ∀ b ∈ agenda, s.Clear b) : Tidy s agenda
  | unqueue {j : ℕ} {rest : List (Act Task Output)} (hj : j < s.jobs.length)
      (hclear : ∀ b ∈ rest, s.Clear b) : Tidy s (.unqueue j :: publishCancelled j :: rest)

/-- Most actions leave the queue alone. -/
theorem exec_queue_eq (h : s.exec config outcome a = some (s', todo, event))
    (hsubmit : ∀ owner spec submittedAt, a ≠ .submit owner spec submittedAt)
    (hworker : a ≠ .workerLoop) (hunqueue : ¬a.IsUnqueue) (hshutdown : a ≠ .beginShutdown) :
    s'.queue = s.queue ∧ s'.jobs.length = s.jobs.length ∧ s'.shuttingDown = s.shuttingDown := by
  cases a with
  | submit owner spec submittedAt => exact absurd rfl (hsubmit owner spec submittedAt)
  | workerLoop => exact absurd rfl hworker
  | unqueue job => exact absurd True.intro hunqueue
  | beginShutdown => exact absurd rfl hshutdown
  | recordCounter p =>
    cases h
    unfold countTerminal
    split <;> exact ⟨rfl, rfl, rfl⟩
  | recordActive p =>
    simp only [exec, recordInactive, Option.bind_eq_bind, Option.bind_eq_some_iff, pure] at h
    grind
  | _ =>
    simp only [exec, Option.bind_eq_bind, Option.bind_eq_some_iff, pure] at h
    grind [modifyJob]

/-- The queue loses jobs, or one is admitted to its end; a shutdown is for good and empties it. -/
theorem exec_queue (h : s.exec config outcome a = some (s', todo, event)) :
    (s.shuttingDown → s'.shuttingDown) ∧ (s'.shuttingDown → s.shuttingDown ∨ s'.queue = []) ∧
    (s'.queue.Sublist s.queue ∧ s'.jobs.length = s.jobs.length ∧
        (∀ j, event ≠ some (.admitted j)) ∨
      s.shuttingDown = false ∧ s.queue.length < config.maxQueue ∧
        s'.queue = s.queue ++ [s.jobs.length] ∧ s'.jobs.length = s.jobs.length + 1) := by
  by_cases hunqueue : a.IsUnqueue
  · cases a with
    | unqueue job =>
      simp only [exec, Option.bind_eq_bind, Option.bind_eq_some_iff, pure] at h
      obtain ⟨record, -, h⟩ := h
      split at h <;> cases h
      · exact ⟨id, .inl, .inl ⟨List.eraseP_sublist, rfl, (by simp)⟩⟩
      · exact ⟨id, .inl, .inl ⟨List.Sublist.refl _, rfl, (by simp)⟩⟩
    | _ => exact hunqueue.elim
  cases a with
  | submit owner spec submittedAt =>
    rcases exec_submit h with ⟨job, expired, -, rfl, -, rfl⟩ | ⟨-, rfl, -, rfl⟩ |
      ⟨hdown, -, hroom, rfl, -⟩
    · exact ⟨id, .inl, .inl ⟨List.dropWhile_sublist _, rfl, (by simp)⟩⟩
    · exact ⟨id, .inl, .inl ⟨List.Sublist.refl _, rfl, (by simp)⟩⟩
    · exact ⟨id, .inl, .inr ⟨hdown, hroom, rfl, by simp [enqueue]⟩⟩
  | workerLoop =>
    rcases exec_workerLoop h with ⟨rfl, ⟨job, expired, -, rfl, -⟩ | ⟨job, queue, hq, rfl, -⟩ |
      ⟨rfl, -⟩⟩
    · exact ⟨id, .inl, .inl ⟨List.dropWhile_sublist _, rfl, (by simp)⟩⟩
    · exact ⟨id, .inl, .inl ⟨by rw [hq]; exact List.sublist_cons_self _ _, rfl, (by simp)⟩⟩
    · exact ⟨id, .inl, .inl ⟨List.Sublist.refl _, rfl, (by simp)⟩⟩
  | beginShutdown =>
    cases h
    exact ⟨fun _ ↦ rfl, fun _ ↦ .inr rfl, .inl ⟨List.nil_sublist _, rfl, (by simp)⟩⟩
  | _ =>
    obtain ⟨hqueue, hjobs, hdown⟩ := exec_queue_eq h (by simp) (by simp) hunqueue (by simp)
    refine ⟨fun h ↦ hdown ▸ h, fun h ↦ .inl (hdown ▸ h), .inl ⟨by rw [hqueue], hjobs, ?_⟩⟩
    rintro j rfl
    simp only [exec, Option.bind_eq_bind, Option.bind_eq_some_iff, pure] at h
    grind [Option.map_eq_some_iff]

/-- Only a new job enters the queue, and no job vanishes. -/
theorem exec_queue_subset (h : s.exec config outcome a = some (s', todo, event)) :
    (∀ j ∈ s'.queue, j ∈ s.queue ∨ s.jobs.length ≤ j) ∧ s.jobs.length ≤ s'.jobs.length := by
  obtain ⟨-, -, ⟨hqueue, hjobs, -⟩ | ⟨-, -, hqueue, hjobs⟩⟩ := exec_queue h
  · exact ⟨fun j hj ↦ .inl (hqueue.subset hj), hjobs.ge⟩
  · refine ⟨fun j hj ↦ ?_, by omega⟩
    rw [hqueue] at hj
    rcases List.mem_append.mp hj with hj | hj
    · exact .inl hj
    · exact .inr (List.mem_singleton.mp hj).ge

private theorem Clear.mono (h : s.Clear a) (hqueue : ∀ j ∈ s'.queue, j ∈ s.queue ∨ s.jobs.length ≤ j)
    (hjobs : s.jobs.length ≤ s'.jobs.length) : s'.Clear a := by
  refine ⟨h.1, fun j hj ↦ ?_⟩
  obtain ⟨hnot, hlt⟩ := h.2 j hj
  refine ⟨fun hmem ↦ ?_, by omega⟩
  rcases hqueue j hmem with hin | hge
  · exact hnot hin
  · omega

private theorem Tidy.mono (h : s.Tidy agenda)
    (hqueue : ∀ j ∈ s'.queue, j ∈ s.queue ∨ s.jobs.length ≤ j)
    (hjobs : s.jobs.length ≤ s'.jobs.length) : s'.Tidy agenda := by
  cases h with
  | clear hclear => exact .clear fun b hb ↦ (hclear b hb).mono hqueue hjobs
  | unqueue hj hclear => exact .unqueue (by omega) fun b hb ↦ (hclear b hb).mono hqueue hjobs

/-- What the queue holds: distinct queued jobs, whose identifiers differ. -/
structure Queues (s : Shared Task Output) : Prop where
  nodup : s.queue.Nodup
  queued : ∀ j ∈ s.queue, ∃ job, s.jobs[j]? = some job ∧ job.state = .queued
  ids : ∀ (i j : ℕ) (job job' : Job Task Output), s.jobs[i]? = some job → s.jobs[j]? = some job' →
    job.id = job'.id → i = j

private theorem Queues.lt (h : s.Queues) (hj : j ∈ s.queue) : j < s.jobs.length := by
  obtain ⟨job, hjob, -⟩ := h.queued j hj
  exact (List.getElem?_eq_some_iff.mp hjob).1

private theorem Queues.not_mem {job : Job Task Output} (h : s.Queues) (hjob : s.jobs[j]? = some job)
    (hstate : job.state ≠ .queued) : j ∉ s.queue := by
  intro hj
  obtain ⟨job', hjob', hqueued⟩ := h.queued j hj
  obtain rfl := Option.some.inj (hjob.symm.trans hjob')
  exact hstate hqueued

/-- Cancelling removes the job itself from the queue. -/
theorem Queues.eraseP {job : Job Task Output} (h : s.Queues) (hjob : s.jobs[j]? = some job) :
    s.queue.eraseP (fun other ↦ (s.jobs[other]?.map Job.id) = some job.id) = s.queue.erase j := by
  have hsame : ∀ other ∈ s.queue,
      decide ((s.jobs[other]?.map Job.id) = some job.id) = (other == j) := by
    intro other hother
    obtain ⟨job', hjob', -⟩ := h.queued other hother
    rw [hjob', Option.map_some, Bool.eq_iff_iff, decide_eq_true_eq, beq_iff_eq, Option.some.injEq]
    constructor
    · exact h.ids other j job' job hjob' hjob
    · rintro rfl
      rw [Option.some.inj (hjob'.symm.trans hjob)]
  generalize s.queue = queue at hsame
  induction queue with
  | nil => rfl
  | cons other queue ih =>
    obtain ⟨hother, hqueue⟩ := List.forall_mem_cons.mp hsame
    rw [List.eraseP_cons, List.erase_cons, hother, ih hqueue]
    cases other == j <;> rfl

/-- The jobs an action takes out of the queue are gone from it. -/
theorem clear_expire (h : s.Queues) {job : ℕ} {expired : List ℕ}
    (htake : s.queue.takeWhile s.expired = job :: expired) :
    ∀ b ∈ ((job :: expired).map expire : List (Act Task Output)),
      ({ s with queue := s.queue.dropWhile s.expired } : Shared Task Output).Clear b := by
  intro b hb
  obtain ⟨i, hi, rfl⟩ := List.mem_map.mp hb
  refine ⟨id, ?_⟩
  rintro j ⟨rfl, -⟩
  rw [← htake] at hi
  have hnodup := h.nodup
  rw [← List.takeWhile_append_dropWhile (p := s.expired) (l := s.queue)] at hnodup
  refine ⟨fun hdrop ↦ ?_, h.lt ((List.takeWhile_sublist _).subset hi)⟩
  exact (List.nodup_append.mp hnodup).2.2 _ hi _ hdrop rfl

/-- One action leaves its thread with a tidy agenda. -/
theorem exec_tidy (h : s.exec config outcome a = some (s', todo, event)) (hs : s.Queues)
    (htidy : s.Tidy (a :: rest)) : s'.Tidy (todo ++ rest) := by
  obtain ⟨hqueue, hjobs⟩ := exec_queue_subset h
  cases htidy with
  | @unqueue j rest hj hclear =>
    have hrest : ∀ b ∈ rest, s'.Clear b := fun b hb ↦ (hclear b hb).mono hqueue hjobs
    obtain ⟨job, hjob⟩ : ∃ job, s.jobs[j]? = some job := ⟨_, List.getElem?_eq_getElem hj⟩
    simp only [exec, hjob, Option.bind_eq_bind, Option.bind_some, pure] at h
    have hgone (hnot : j ∉ s'.queue) : s'.Tidy (publishCancelled j :: rest) := by
      refine .clear (List.forall_mem_cons.mpr ⟨⟨id, ?_⟩, hrest⟩)
      rintro i ⟨rfl, -⟩
      exact ⟨hnot, hj.trans_le hjobs⟩
    split at h
    · cases h
      apply hgone
      rw [show s.queue.eraseP _ = _ from hs.eraseP hjob, hs.nodup.mem_erase_iff]
      exact fun hmem ↦ hmem.1 rfl
    · next hstate =>
      cases h
      exact hgone (hs.not_mem hjob hstate)
  | clear hclear =>
    obtain ⟨ha, hrest⟩ := List.forall_mem_cons.mp hclear
    have hrest' : ∀ b ∈ rest, s'.Clear b := fun b hb ↦ (hrest b hb).mono hqueue hjobs
    have happend (htodo : ∀ b ∈ todo, s'.Clear b) : s'.Tidy (todo ++ rest) :=
      .clear (List.forall_mem_append.mpr ⟨htodo, hrest'⟩)
    cases a with
    | submit owner spec submittedAt =>
      rcases exec_submit h with ⟨job, expired, htake, rfl, rfl, -⟩ | ⟨-, -, rfl, -⟩ |
        ⟨-, -, -, -, rfl, -⟩
      · apply happend
        rw [List.forall_mem_append]
        exact ⟨clear_expire hs htake, by simp [Clear, Act.IsUnqueue, Act.Takes]⟩
      · exact happend (by simp)
      · exact happend (by simp)
    | workerLoop =>
      rcases exec_workerLoop h with ⟨-, ⟨job, expired, htake, rfl, rfl⟩ | ⟨job, queue, hq, rfl, rfl⟩ |
        ⟨rfl, rfl | rfl⟩⟩
      · apply happend
        rw [List.forall_mem_append]
        exact ⟨clear_expire hs htake, by simp [Clear, Act.IsUnqueue, Act.Takes]⟩
      · apply happend
        have hnodup := hs.nodup
        have hlt := hs.lt (j := job) (by simp [hq])
        rw [hq, List.nodup_cons] at hnodup
        simp [Clear, Act.IsUnqueue, Act.Takes, hnodup.1, hlt]
      · exact happend (by simp)
      · exact happend (by simp [Clear, Act.IsUnqueue, Act.Takes])
    | beginShutdown =>
      cases h
      apply happend
      intro b hb
      simp only [List.mem_append, List.mem_flatMap, cancel, List.mem_cons, List.not_mem_nil,
        or_false] at hb
      rcases hb with ⟨entry, -, rfl | rfl⟩ | rfl <;> exact ⟨id, fun _ htakes ↦ by cases htakes⟩
    | checkQueued job =>
      simp only [exec, Option.bind_eq_bind, Option.bind_eq_some_iff, pure] at h
      obtain ⟨record, hrecord, h⟩ := h
      have hlt := (List.getElem?_eq_some_iff.mp hrecord).1
      split at h
      · cases h
        exact .unqueue hlt hrest'
      · next hstate =>
        cases h
        apply happend
        have hnot := hs.not_mem hrecord hstate
        simp [Clear, Act.IsUnqueue, Act.Takes, publishCancelled, hnot, hlt]
    | unqueue job => exact absurd True.intro ha.1
    | _ =>
      apply happend
      have hsame := exec_queue_eq h (by simp) (by simp) ha.1 (by simp)
      simp only [exec, Option.bind_eq_bind, Option.bind_eq_some_iff, pure] at h
      grind [Clear, Act.IsUnqueue, Act.Takes, finishRunning]

/-- A queued job stays queued unless the action takes it. -/
theorem exec_queued (h : s.exec config outcome a = some (s', todo, event))
    {job : Job Task Output} (hjob : s.jobs[j]? = some job) (hstate : job.state = .queued)
    (ha : ¬a.Takes j) : ∃ job', s'.jobs[j]? = some job' ∧ job'.state = .queued := by
  by_cases htarget : a.target = some j
  · cases a with
    | submit | workerLoop | beginShutdown | requestShutdown | publishShutdown => cases htarget
    | recordCounter p =>
      cases h
      exact ⟨job, by rw [jobs_countTerminal]; exact hjob, hstate⟩
    | recordActive p =>
      simp only [exec, Option.bind_eq_bind, Option.bind_eq_some_iff, pure] at h
      obtain ⟨record, -, h⟩ := h
      cases h
      exact ⟨job, by rw [jobs_recordInactive]; exact hjob, hstate⟩
    | _ =>
      simp only [exec, Option.bind_eq_bind, Option.bind_eq_some_iff, pure] at h
      simp only [Act.target, Option.some.injEq] at htarget
      subst htarget
      grind [getElem?_modifyJob, Act.Takes]
  · exact ⟨job, exec_jobs_of_ne h htarget hjob, hstate⟩

/-- A thread that has a queued job in its hands lets go of it only when it is queued no more. -/
theorem exec_attends (h : s.exec config outcome a = some (s', todo, event))
    {job job' : Job Task Output} {life : Life Output} (hjob : s.jobs[j]? = some job)
    (hstate : job.state = .queued) (hknow : a.Sound j job.output life)
    (hjob' : s'.jobs[j]? = some job') (hstate' : job'.state = .queued) (ha : a.Attends j) :
    ∃ b ∈ todo, b.Attends j := by
  cases a with
  | checkQueued i =>
    obtain rfl : i = j := ha
    simp only [exec, hjob, Option.bind_eq_bind, Option.bind_some, hstate, if_true, pure] at h
    cases h
    exact ⟨publishCancelled i, by simp, ⟨rfl, rfl⟩⟩
  | tryStart i =>
    obtain rfl : i = j := ha
    simp only [exec, hjob, Option.bind_eq_bind, Option.bind_some, hstate, if_true, pure] at h
    cases h
    rw [getElem?_modifyJob_self hjob] at hjob'
    cases hjob'
    cases hstate'
  | publish p =>
    obtain ⟨rfl, hsource⟩ : p.job = j ∧ p.source = .queued := ha
    simp only [exec, hjob, Option.bind_eq_bind, Option.bind_some, hstate, hsource, pure] at h
    split at h
    · cases h
    · cases h
      exact ⟨.writeOutput p, by simp, ⟨rfl, hsource⟩⟩
  | writeOutput p =>
    obtain ⟨rfl, hsource⟩ : p.job = j ∧ p.source = .queued := ha
    simp only [exec, hjob, Option.bind_eq_bind, Option.bind_some, pure] at h
    cases h
    exact ⟨.exchange p job.output, by simp, ⟨rfl, hsource⟩⟩
  | exchange p previous =>
    obtain ⟨rfl, hsource⟩ : p.job = j ∧ p.source = .queued := ha
    obtain ⟨-, -, -, hterminal⟩ := hknow rfl
    simp only [exec, hjob, Option.bind_eq_bind, Option.bind_some, hstate, hsource, if_true, pure] at h
    cases h
    rw [getElem?_modifyJob_self hjob] at hjob'
    cases hjob'
    rw [show p.target = .queued from hstate'] at hterminal
    cases hterminal
  | _ => exact ha.elim

/-- The thread that removes a job from the queue has it in its hands. -/
theorem exec_taken (h : s.exec config outcome a = some (s', todo, event)) (hs : s.Queues)
    (hactive : ∀ j ∈ s.queue, ∃ id, (id, j) ∈ s.active) (htidy : s.Tidy (a :: rest))
    (hin : j ∈ s.queue) (hout : j ∉ s'.queue) : ∃ b ∈ todo ++ rest, b.Attends j := by
  have hexpired {job : ℕ} {expired : List ℕ} {last : Act Task Output}
      (htake : s.queue.takeWhile s.expired = job :: expired)
      (hdrop : j ∉ s.queue.dropWhile s.expired) :
      ∃ b ∈ (job :: expired).map expire ++ [last] ++ rest, b.Attends j := by
    rw [← List.takeWhile_append_dropWhile (p := s.expired) (l := s.queue), htake] at hin
    rcases List.mem_append.mp hin with hin | hin
    · refine ⟨expire j, ?_, ⟨rfl, rfl⟩⟩
      exact List.mem_append_left _ (List.mem_append_left _ (List.mem_map_of_mem hin))
    · exact absurd hin hdrop
  cases htidy with
  | @unqueue i rest hi hclear =>
    obtain ⟨job, hjob⟩ : ∃ job, s.jobs[i]? = some job := ⟨_, List.getElem?_eq_getElem hi⟩
    simp only [exec, hjob, Option.bind_eq_bind, Option.bind_some, pure] at h
    split at h
    · cases h
      have hi : j = i := by
        by_contra hne
        apply hout
        rw [show s.queue.eraseP _ = _ from hs.eraseP hjob]
        exact (List.mem_erase_of_ne hne).mpr hin
      exact ⟨publishCancelled i, by simp, ⟨hi.symm, rfl⟩⟩
    · cases h
      exact absurd hin hout
  | clear hclear =>
    obtain ⟨ha, -⟩ := List.forall_mem_cons.mp hclear
    cases a with
    | submit owner spec submittedAt =>
      rcases exec_submit h with ⟨job, expired, htake, rfl, rfl, -⟩ | ⟨-, rfl, -, -⟩ |
        ⟨-, -, -, rfl, rfl, -⟩
      · exact hexpired htake hout
      · exact absurd hin hout
      · exact absurd (List.mem_append_left _ hin) hout
    | workerLoop =>
      rcases exec_workerLoop h with ⟨-, ⟨job, expired, htake, rfl, rfl⟩ | ⟨job, queue, hq, rfl, rfl⟩ |
        ⟨rfl, -⟩⟩
      · exact hexpired htake hout
      · rw [hq] at hin
        rcases List.mem_cons.mp hin with rfl | hin
        · exact ⟨.tryStart j, by simp, rfl⟩
        · exact absurd hin hout
      · exact absurd hin hout
    | beginShutdown =>
      cases h
      obtain ⟨id, hentry⟩ := hactive j hin
      refine ⟨.checkQueued j, ?_, rfl⟩
      refine List.mem_append_left _ (List.mem_append_left _ (List.mem_flatMap.mpr ⟨_, hentry, ?_⟩))
      exact List.mem_cons_of_mem _ List.mem_cons_self
    | unqueue job => exact absurd True.intro ha.1
    | _ =>
      obtain ⟨hqueue, -⟩ := exec_queue_eq h (by simp) (by simp) ha.1 (by simp)
      rw [hqueue] at hout
      exact absurd hin hout

end Shared

/-! ### Who has a job in hand -/

/-- The thread a move belongs to. -/
def Move.thread : Move Task Output → Option ℕ
  | .act thread _ | .call thread _ => some thread
  | .tick => none

namespace System

/-- Who took which job out of the queue, after a move. -/
def takers (move : Move Task Output) (s s' : System Task Output) (holder : ℕ → Option ℕ) :
    ℕ → Option ℕ := fun j ↦
  if j ∈ s.shared.queue ∧ j ∉ s'.shared.queue then move.thread else holder j

/-- The reachable states, with the thread that took each job out of the queue. -/
inductive Tracked (config : RuntimeConfig) :
    List (Event Output) → System Task Output → (ℕ → Option ℕ) → Prop where
  | init : Tracked config [] init fun _ ↦ none
  | step {trace : List (Event Output)} {s s' : System Task Output} {holder : ℕ → Option ℕ}
      {move : Move Task Output} {event : Option (Event Output)}
      (h : Tracked config trace s holder) (hs : s.step config move = some (s', event)) :
      Tracked config (trace ++ event.toList) s' (takers move s s' holder)

variable {config : RuntimeConfig} {trace : List (Event Output)} {s s' : System Task Output}
  {event : Option (Event Output)} {holder : ℕ → Option ℕ} {stages : List Stage} {j t : ℕ}

private theorem Tracked.reachable (h : Tracked config trace s holder) : Reachable config trace s := by
  induction h with
  | init => exact .init
  | step _ hs ih => exact ih.step hs

private theorem Reachable.tracked (h : Reachable config trace s) :
    ∃ holder, Tracked config trace s holder := by
  induction h with
  | init => exact ⟨_, .init⟩
  | step _ hs ih =>
    obtain ⟨holder, ih⟩ := ih
    exact ⟨_, ih.step hs⟩

/-- A queued job is in the queue, or in the hands of the thread that took it out. -/
def InHand (s : System Task Output) (holder : ℕ → Option ℕ) (j : ℕ) : Prop :=
  (j ∈ s.shared.queue ∧ holder j = none) ∨
    (j ∉ s.shared.queue ∧ ∃ t, holder j = some t ∧ ∃ a ∈ s.threads t, a.Attends j)

/-- The books are right and no job is lost. -/
structure Accounts (config : RuntimeConfig) (s : System Task Output) (holder : ℕ → Option ℕ)
    (stages : List Stage) : Prop where
  books : Books config s.shared stages
  booked : ∀ j job, s.shared.jobs[j]? = some job → ∃ stage ∈ stages[j]?, Booked s.threads j job stage
  bound : s.shared.queue.length ≤ config.maxQueue
  nodup : s.shared.queue.Nodup
  queued : ∀ j ∈ s.shared.queue, ∃ job, s.shared.jobs[j]? = some job ∧ job.state = .queued
  tidy : ∀ t, s.shared.Tidy (s.threads t)
  down : s.shared.shuttingDown → s.shared.queue = []
  held : ∀ j job, s.shared.jobs[j]? = some job → job.state = .queued → InHand s holder j
  fresh : ∀ j, s.shared.jobs.length ≤ j → holder j = none

private theorem books_init : Books config (init : System Task Output).shared [] where
  length := rfl
  ids j who hj := by cases j <;> cases hj
  next := by rfl
  keys := List.nodup_nil
  active id j := iff_of_false nofun (by simp)
  opened := rfl
  owners _ := rfl
  ceiling _ := Nat.zero_le _
  running := rfl
  tallied := rfl
  submitted := rfl

private theorem accounts_init : Accounts config (init : System Task Output) (fun _ ↦ none) [] where
  books := books_init
  booked j job hjob := by simp [System.init] at hjob
  bound := Nat.zero_le _
  nodup := List.nodup_nil
  queued j hj := absurd hj List.not_mem_nil
  tidy _ := .clear fun b hb ↦ absurd hb List.not_mem_nil
  down _ := rfl
  held j job hjob := by simp [System.init] at hjob
  fresh _ _ := rfl

namespace Accounts

private theorem length_who (s : Shared Task Output) : s.who.length = s.jobs.length := List.length_map _

/-- Jobs have different identifiers while these have not wrapped. -/
theorem queues (h : Accounts config s holder stages) (hfew : s.shared.jobs.length < 2 ^ 64) :
    s.shared.Queues where
  nodup := h.nodup
  queued := h.queued
  ids i j job job' hjob hjob' heq := by
    have hid {i : ℕ} {job : Job Task Output} (hjob : s.shared.jobs[i]? = some job) :
        job.id = (i + 1) % 2 ^ 64 := by
      apply h.books.ids i (job.id, job.owner)
      simp [Shared.who, hjob]
    have hi := (List.getElem?_eq_some_iff.mp hjob).1
    have hj := (List.getElem?_eq_some_iff.mp hjob').1
    rw [hid hjob, hid hjob', Nat.mod_eq_of_lt (by omega), Nat.mod_eq_of_lt (by omega)] at heq
    omega

/-- The queued jobs are active. -/
theorem active_of_queue (h : Accounts config s holder stages) (hj : j ∈ s.shared.queue) :
    ∃ job, s.shared.jobs[j]? = some job ∧ job.state = .queued ∧ (job.id, j) ∈ s.shared.active := by
  obtain ⟨job, hjob, hstate⟩ := h.queued j hj
  obtain ⟨stage, hstage, hbooked⟩ := h.booked j job hjob
  obtain rfl := hbooked.waiting hstate
  refine ⟨job, hjob, hstate, (h.books.active _ _).mpr ⟨⟨(job.id, job.owner), ?_, rfl⟩, _, hstage, rfl⟩⟩
  simp [Shared.who, hjob]

end Accounts

section Act

variable {a : Act Task Output} {outcome : TaskOutcome Output} {rest todo : List (Act Task Output)}
  {shared : Shared Task Output}

/-- The job an action is about has been admitted. -/
theorem Inv.target_admitted (hinv : Inv trace s) (ht : s.threads t = a :: rest)
    (hexec : s.shared.exec config outcome a = some (shared, todo, event))
    (ha : a.target = some j) : ∃ job, s.shared.jobs[j]? = some job := by
  cases hjob : s.shared.jobs[j]? with
  | some job => exact ⟨job, rfl⟩
  | none =>
    rcases (hinv.absent j hjob).2 t a (by rw [ht]; rfl) with hplain | hne
    · rw [exec_absent hplain ha hjob] at hexec
      cases hexec
    · exact absurd ha hne

/-- Another job stays booked as it is. -/
theorem booked_other (hinv : Inv trace s) (ht : s.threads t = a :: rest)
    (hexec : s.shared.exec config outcome a = some (shared, todo, event))
    (ha : a.target ≠ some j) {job : Job Task Output} (hjob : s.shared.jobs[j]? = some job)
    {stage : Stage} (hbooked : Booked s.threads j job stage) :
    Booked (Function.update s.threads t (todo ++ rest)) j job stage := by
  have hrest : ∀ b ∈ rest, b.Plain := by simpa [ht] using hinv.plain t
  obtain ⟨-, hhead⟩ := Shared.exec_todo hexec
  obtain ⟨life, -, hlives⟩ := hinv.lives j job hjob
  refine hbooked.keep hlives ht rfl ?_ ?_
  · cases todo with
    | nil => exact fun b hb ↦ (hrest b (List.mem_of_mem_head? hb)).finds
    | cons c todo =>
      intro b hb
      obtain rfl : c = b := by simpa using hb
      rcases hhead c rfl with hplain | htarget
      · exact hplain.finds
      · exact Act.finds_of_target_ne (htarget ▸ ha)
  · rintro p rfl hp
    exact ha (congrArg some hp)

/-- The books after an action. -/
theorem books_act (h : Accounts config s holder stages) (hinv : Inv trace s)
    (ht : s.threads t = a :: rest)
    (hexec : s.shared.exec config outcome a = some (shared, todo, event))
    (hfew : shared.jobs.length < 2 ^ 64) :
    ∃ stages', Books config shared stages' ∧ ∀ j job, shared.jobs[j]? = some job →
      ∃ stage ∈ stages'[j]?, Booked (Function.update s.threads t (todo ++ rest)) j job stage := by
  have hrest : ∀ b ∈ rest, b.Plain := by simpa [ht] using hinv.plain t
  cases htarget : a.target with
  | some j =>
    obtain ⟨job, hjob⟩ := hinv.target_admitted ht hexec htarget
    obtain ⟨life, -, hlives⟩ := hinv.lives j job hjob
    obtain ⟨stage, hstage, hbooked⟩ := h.booked j job hjob
    obtain ⟨job', stage', hjob', hposts, hbooked'⟩ :=
      Shared.exec_booked hexec htarget hjob hlives hbooked ht hrest
    have hwho : shared.who = s.shared.who := by
      apply Shared.exec_who hexec
      rintro owner spec submittedAt rfl
      cases htarget
    have hfew' : s.shared.who.length < 2 ^ 64 := by
      rw [← hwho, Accounts.length_who]
      exact hfew
    have hwhoj : s.shared.who[j]? = some (job.id, job.owner) := by simp [Shared.who, hjob]
    refine ⟨stages.set j stage', h.books.post hfew' hwhoj hstage hposts hwho, fun i job'' hjob'' ↦ ?_⟩
    by_cases hi : j = i
    · subst i
      obtain rfl := Option.some.inj (hjob'.symm.trans hjob'')
      have hlt := (List.getElem?_eq_some_iff.mp hstage).1
      exact ⟨stage', by rw [List.getElem?_set_self hlt]; rfl, hbooked'⟩
    · have hne : a.target ≠ some i := by
        rw [htarget]
        exact fun heq ↦ hi (Option.some.inj heq)
      have hlength : shared.jobs.length = s.shared.jobs.length := by
        rw [← Accounts.length_who, hwho, Accounts.length_who]
      have hlt : i < s.shared.jobs.length := hlength ▸ (List.getElem?_eq_some_iff.mp hjob'').1
      have hsame := Shared.exec_jobs_of_ne hexec hne (List.getElem?_eq_getElem hlt)
      obtain rfl := Option.some.inj (hsame.symm.trans hjob'')
      obtain ⟨stage, hstage, hbooked⟩ := h.booked i _ (List.getElem?_eq_getElem hlt)
      refine ⟨stage, by rw [List.getElem?_set_ne hi]; exact hstage, ?_⟩
      exact booked_other hinv ht hexec hne (List.getElem?_eq_getElem hlt) hbooked
  | none =>
    have hkeep (hjobs : shared.jobs = s.shared.jobs) : ∀ (j : ℕ) (job : Job Task Output),
        shared.jobs[j]? = some job →
        ∃ stage ∈ stages[j]?, Booked (Function.update s.threads t (todo ++ rest)) j job stage := by
      intro j job hjob
      rw [hjobs] at hjob
      obtain ⟨stage, hstage, hbooked⟩ := h.booked j job hjob
      exact ⟨stage, hstage, booked_other hinv ht hexec (by simp [htarget]) hjob hbooked⟩
    cases a with
    | submit owner spec submittedAt =>
      rcases Shared.exec_submit hexec with ⟨job, expired, -, rfl, -⟩ | ⟨-, rfl, -, -⟩ |
        ⟨-, hceiling, -, rfl, rfl, -⟩
      · exact ⟨stages, h.books.congr ⟨rfl, rfl, rfl, rfl⟩ rfl, hkeep rfl⟩
      · exact ⟨stages, h.books.reject, hkeep rfl⟩
      · have hfew' : s.shared.who.length + 1 < 2 ^ 64 := by
          rw [Accounts.length_who]
          simpa [Shared.enqueue] using hfew
        refine ⟨stages ++ [.waiting], h.books.enqueue hfew' hceiling, fun j job hjob ↦ ?_⟩
        have hlength : stages.length = s.shared.jobs.length := by
          rw [h.books.length, Accounts.length_who]
        rcases Nat.lt_or_ge j s.shared.jobs.length with hlt | hge
        · rw [Shared.enqueue, List.getElem?_append_left hlt] at hjob
          obtain ⟨stage, hstage, hbooked⟩ := h.booked j job hjob
          refine ⟨stage, ?_, booked_other hinv ht hexec (by rw [htarget]; simp) hjob hbooked⟩
          rw [List.getElem?_append_left (by omega)]
          exact hstage
        · obtain rfl : j = s.shared.jobs.length := by
            have := (List.getElem?_eq_some_iff.mp hjob).1
            simp only [Shared.enqueue, List.length_append, List.length_singleton] at this
            omega
          rw [Shared.enqueue, List.getElem?_concat_length] at hjob
          obtain rfl := Option.some.inj hjob
          refine ⟨.waiting, by rw [← hlength, List.getElem?_concat_length]; rfl, rfl, ?_, (by simp)⟩
          intro u b hb
          by_cases hu : u = t
          · subst u
            rw [Function.update_self] at hb
            exact (hrest b (List.mem_of_mem_head? hb)).finds
          · rw [Function.update_of_ne hu] at hb
            have hnone := List.getElem?_eq_none (le_refl s.shared.jobs.length)
            rcases (hinv.absent _ hnone).2 u b hb with hplain | hne
            · exact hplain.finds
            · exact Act.finds_of_target_ne hne
    | workerLoop =>
      rcases Shared.exec_workerLoop hexec with ⟨-, ⟨job, expired, -, rfl, -⟩ | ⟨job, queue, -, rfl, -⟩ |
        ⟨rfl, -⟩⟩
      · exact ⟨stages, h.books.congr ⟨rfl, rfl, rfl, rfl⟩ rfl, hkeep rfl⟩
      · exact ⟨stages, h.books.congr ⟨rfl, rfl, rfl, rfl⟩ rfl, hkeep rfl⟩
      · exact ⟨stages, h.books, hkeep rfl⟩
    | requestShutdown =>
      simp only [Shared.exec] at hexec
      split at hexec <;> cases hexec
      · exact ⟨stages, h.books.congr ⟨rfl, rfl, rfl, rfl⟩ rfl, hkeep rfl⟩
      · exact ⟨stages, h.books, hkeep rfl⟩
    | beginShutdown | publishShutdown =>
      cases hexec
      exact ⟨stages, h.books.congr ⟨rfl, rfl, rfl, rfl⟩ rfl, hkeep rfl⟩
    | _ => cases htarget

/-- A job that is queued after an action was queued before it, or is new. -/
theorem Reachable.queued_before (h : Reachable config trace s) {move : Move Task Output}
    (hs : s.step config move = some (s', event)) {job job' : Job Task Output}
    (hjob : s.shared.jobs[j]? = some job) (hjob' : s'.shared.jobs[j]? = some job')
    (hstate : job'.state = .queued) : job.state = .queued := by
  obtain ⟨job'', life, life', hjob'', hlives, hlives', hnext⟩ := h.next hs hjob
  obtain rfl := Option.some.inj (hjob''.symm.trans hjob')
  have hqueued : life' = .queued := by
    have hend := hlives'.not_isEnded (by rw [hstate]; rfl)
    rw [hlives'.state] at hstate
    cases life' with
    | queued => rfl
    | running => cases hstate
    | ended => exact absurd True.intro hend
  rcases hnext with rfl | ⟨e, -, hnext⟩
  · rw [hlives.state, hqueued]
    rfl
  · rw [hqueued] at hnext
    cases hnext

/-- The queue and the hands of the threads after an action. -/
theorem held_act (h : Accounts config s holder stages) (hreach : Reachable config trace s)
    (hqueues : s.shared.Queues) (ht : s.threads t = a :: rest)
    (hexec : s.shared.exec config outcome a = some (shared, todo, event))
    (hs : s.step config (.act t outcome) =
      some (⟨shared, Function.update s.threads t (todo ++ rest)⟩, event))
    {job' : Job Task Output} (hjob' : shared.jobs[j]? = some job') (hstate' : job'.state = .queued) :
    InHand ⟨shared, Function.update s.threads t (todo ++ rest)⟩
      (takers (.act t outcome) s ⟨shared, Function.update s.threads t (todo ++ rest)⟩ holder) j := by
  obtain ⟨hsubset, -⟩ := Shared.exec_queue_subset hexec
  cases hjob : s.shared.jobs[j]? with
  | none =>
    -- A new job is at the end of the queue.
    have hge := List.getElem?_eq_none_iff.mp hjob
    have hlt := (List.getElem?_eq_some_iff.mp hjob').1
    obtain ⟨-, -, ⟨-, hjobs, -⟩ | ⟨-, -, hqueue, hjobs⟩⟩ := Shared.exec_queue hexec
    · omega
    · have hin : j ∈ shared.queue := by
        rw [hqueue, show j = s.shared.jobs.length by omega]
        exact List.mem_append_right _ List.mem_cons_self
      refine .inl ⟨hin, ?_⟩
      rw [takers, if_neg fun hgone ↦ hgone.2 hin]
      exact h.fresh j hge
  | some job =>
    have hstate := hreach.queued_before hs hjob hjob' hstate'
    have hlt := (List.getElem?_eq_some_iff.mp hjob).1
    rcases h.held j job hjob hstate with ⟨hin, hnone⟩ | ⟨hout, u, hu, b, hb, hattends⟩
    · by_cases hin' : j ∈ shared.queue
      · refine .inl ⟨hin', ?_⟩
        rw [takers, if_neg fun hgone ↦ hgone.2 hin']
        exact hnone
      · obtain ⟨b, hb, hattends⟩ := Shared.exec_taken hexec hqueues
          (fun j hj ↦ by
            obtain ⟨job, -, -, hactive⟩ := h.active_of_queue hj
            exact ⟨job.id, hactive⟩) (ht ▸ h.tidy t) hin hin'
        refine .inr ⟨hin', t, if_pos ⟨hin, hin'⟩, b, ?_, hattends⟩
        simp only [Function.update_self]
        exact hb
    · have hout' : j ∉ shared.queue := fun hj ↦ (hsubset j hj).elim hout (by omega)
      refine .inr ⟨hout', u, ?_, ?_⟩
      · rw [takers, if_neg fun hgone ↦ hout hgone.1]
        exact hu
      · by_cases hut : u = t
        · subst u
          simp only [Function.update_self]
          rw [ht] at hb
          rcases List.mem_cons.mp hb with rfl | hb
          · obtain ⟨life, -, hlives⟩ := hreach.inv.lives j job hjob
            have hknow : b.Sound j job.output life := by
              rcases hlives.sound t with hsound | hsound
              · rw [ht] at hsound
                exact hsound
              · rw [ht] at hsound
                cases hsound
            obtain ⟨c, hc, hattends⟩ :=
              Shared.exec_attends hexec hjob hstate hknow hjob' hstate' hattends
            exact ⟨c, List.mem_append_left _ hc, hattends⟩
          · exact ⟨b, List.mem_append_right _ hb, hattends⟩
        · simp only [Function.update_of_ne hut]
          exact ⟨b, hb, hattends⟩

/-- One action of one thread keeps the accounts. -/
theorem accounts_act (h : Accounts config s holder stages) (hreach : Reachable config trace s)
    (ht : s.threads t = a :: rest)
    (hexec : s.shared.exec config outcome a = some (shared, todo, event))
    (hs : s.step config (.act t outcome) =
      some (⟨shared, Function.update s.threads t (todo ++ rest)⟩, event))
    (hfew : shared.jobs.length < 2 ^ 64) :
    ∃ stages', Accounts config ⟨shared, Function.update s.threads t (todo ++ rest)⟩
      (takers (.act t outcome) s ⟨shared, Function.update s.threads t (todo ++ rest)⟩ holder)
      stages' := by
  obtain ⟨hsubset, hle⟩ := Shared.exec_queue_subset hexec
  have hqueues := h.queues (by omega)
  obtain ⟨stages', hbooks, hbooked⟩ := books_act h hreach.inv ht hexec hfew
  obtain ⟨hdown, hdown', hqueue⟩ := Shared.exec_queue hexec
  refine ⟨stages', hbooks, hbooked, ?_, ?_, ?_, ?_, ?_, ?_, ?_⟩
  · rcases hqueue with ⟨hqueue, -⟩ | ⟨-, hroom, hqueue, -⟩
    · exact hqueue.length_le.trans h.bound
    · simp only [hqueue, List.length_append, List.length_singleton]
      exact hroom
  · rcases hqueue with ⟨hqueue, -⟩ | ⟨-, -, hqueue, -⟩
    · exact h.nodup.sublist hqueue
    · simp only [hqueue]
      refine List.nodup_append.mpr ⟨h.nodup, List.nodup_singleton _, ?_⟩
      rintro i hi _ hj rfl
      have := hqueues.lt hi
      rw [List.mem_singleton] at hj
      omega
  · intro j hj
    rcases hsubset j hj with hin | hge
    · obtain ⟨job, hjob, hstate⟩ := h.queued j hin
      refine Shared.exec_queued hexec hjob hstate fun htakes ↦ ?_
      cases ht ▸ h.tidy t with
      | unqueue => exact htakes
      | clear hclear => exact ((hclear a List.mem_cons_self).2 j htakes).1 hin
    · -- A new job is queued.
      have hnone : s.shared.jobs[j]? = none := List.getElem?_eq_none hge
      rcases hqueue with ⟨hqueue, -⟩ | ⟨-, -, hqueue, hjobs⟩
      · have := hqueues.lt (hqueue.subset hj)
        omega
      · have hlt : j < shared.jobs.length := by
          simp only [hqueue] at hj
          rcases List.mem_append.mp hj with hin | hj
          · have := hqueues.lt hin
            omega
          · rw [List.mem_singleton] at hj
            omega
        have hjob := List.getElem?_eq_getElem hlt
        exact ⟨_, hjob, (Shared.exec_jobs_new hexec hnone hjob).2.1⟩
  · intro u
    by_cases hu : u = t
    · subst u
      simp only [Function.update_self]
      exact Shared.exec_tidy hexec hqueues (ht ▸ h.tidy t)
    · simp only [Function.update_of_ne hu]
      exact (h.tidy u).mono hsubset hle
  · intro hshut
    rcases hdown' hshut with hbefore | hempty
    · rcases hqueue with ⟨hqueue, -⟩ | ⟨hopen, -⟩
      · rw [h.down hbefore] at hqueue
        exact List.sublist_nil.mp hqueue
      · rw [hopen] at hbefore
        cases hbefore
    · exact hempty
  · exact fun j job hjob hstate ↦ held_act h hreach hqueues ht hexec hs hjob hstate
  · intro j hj
    have hge : s.shared.jobs.length ≤ j := hle.trans hj
    rw [takers, if_neg fun hgone ↦ absurd (hqueues.lt hgone.1) (by omega)]
    exact h.fresh j hge

end Act

/-- A call makes plans only. -/
theorem clear_acts (shared : Shared Task Output) (call : Call Task) (now : ℕ) :
    ∀ b ∈ (call.acts now : List (Act Task Output)), shared.Clear b := by
  cases call <;>
    simp [Call.acts, Shared.Clear, Act.IsUnqueue, Act.Takes, Runtime.cancel]

/-- The start of a call keeps the accounts. -/
theorem accounts_call (h : Accounts config s holder stages) {call : Call Task}
    (ht : s.threads t = []) :
    Accounts config
      { s with threads := Function.update s.threads t (call.acts s.shared.now) } holder stages where
  books := h.books
  booked j job hjob := by
    obtain ⟨stage, hstage, hbooked⟩ := h.booked j job hjob
    refine ⟨stage, hstage, hbooked.shows, fun u b hb ↦ ?_, fun htallied ↦ ?_⟩
    · by_cases hu : u = t
      · subst u
        simp only [Function.update_self] at hb
        exact (plain_acts call s.shared.now b (List.mem_of_mem_head? hb)).finds
      · simp only [Function.update_of_ne hu] at hb
        exact hbooked.finds u b hb
    · obtain ⟨u, p, hp, hj⟩ := hbooked.recording htallied
      have hu : u ≠ t := by
        rintro rfl
        rw [ht] at hp
        cases hp
      exact ⟨u, p, by simpa only [Function.update_of_ne hu] using hp, hj⟩
  bound := h.bound
  nodup := h.nodup
  queued := h.queued
  tidy u := by
    by_cases hu : u = t
    · subst u
      simp only [Function.update_self]
      exact .clear (clear_acts _ call _)
    · simp only [Function.update_of_ne hu]
      exact h.tidy u
  down := h.down
  held j job hjob hstate := by
    rcases h.held j job hjob hstate with hin | ⟨hout, u, hu, b, hb, hattends⟩
    · exact .inl hin
    · have hne : u ≠ t := by
        rintro rfl
        rw [ht] at hb
        cases hb
      exact .inr ⟨hout, u, hu, b, by simpa only [Function.update_of_ne hne] using hb, hattends⟩
  fresh := h.fresh

private theorem takers_of_queue_eq {move : Move Task Output} (h : s'.shared.queue = s.shared.queue) :
    takers move s s' holder = holder := by
  funext j
  rw [takers, h, if_neg fun hgone ↦ hgone.2 hgone.1]

/-- One move keeps the accounts, while identifiers have not wrapped. -/
theorem accounts_step (h : Accounts config s holder stages) (hreach : Reachable config trace s)
    {move : Move Task Output} (hs : s.step config move = some (s', event))
    (hfew : s'.shared.jobs.length < 2 ^ 64) :
    ∃ stages', Accounts config s' (takers move s s' holder) stages' := by
  cases move with
  | act t outcome =>
    have hstep := hs
    simp only [step] at hs
    split at hs
    · cases hs
    · next a rest ht =>
      rw [Option.bind_eq_bind, Option.bind_eq_some_iff] at hs
      obtain ⟨⟨shared, todo, event'⟩, hexec, heq⟩ := hs
      cases heq
      exact accounts_act h hreach ht hexec hstep hfew
  | call t call =>
    simp only [step] at hs
    split at hs
    · next ht =>
      cases hs
      rw [takers_of_queue_eq (by rfl)]
      exact ⟨stages, accounts_call h ht⟩
    · cases hs
  | tick =>
    cases hs
    rw [takers_of_queue_eq (by rfl)]
    exact ⟨stages, h.books.congr ⟨rfl, rfl, rfl, rfl⟩ rfl, h.booked, h.bound, h.nodup, h.queued,
      fun t ↦ (h.tidy t).mono (fun _ ↦ .inl) (le_refl _), h.down, h.held, h.fresh⟩

/-- No job vanishes, and a shutdown is for good: nothing is admitted after it. -/
theorem step_jobs_le {move : Move Task Output} (hs : s.step config move = some (s', event)) :
    s.shared.jobs.length ≤ s'.shared.jobs.length ∧
      (s.shared.shuttingDown → s'.shared.shuttingDown ∧ ∀ j, event ≠ some (.admitted j)) := by
  cases move with
  | act t outcome =>
    simp only [step] at hs
    split at hs
    · cases hs
    · next a rest ht =>
      rw [Option.bind_eq_bind, Option.bind_eq_some_iff] at hs
      obtain ⟨⟨shared, todo, event'⟩, hexec, heq⟩ := hs
      cases heq
      refine ⟨(Shared.exec_queue_subset hexec).2, fun hdown ↦ ?_⟩
      obtain ⟨hstays, -, ⟨-, -, hevent⟩ | ⟨hopen, -⟩⟩ := Shared.exec_queue hexec
      · exact ⟨hstays hdown, hevent⟩
      · rw [hopen] at hdown
        cases hdown
  | call t call =>
    simp only [step] at hs
    split at hs
    · cases hs
      exact ⟨le_refl _, fun hdown ↦ ⟨hdown, (by simp)⟩⟩
    · cases hs
  | tick =>
    cases hs
    exact ⟨le_refl _, fun hdown ↦ ⟨hdown, (by simp)⟩⟩

/-- Every reachable state has its accounts in order, while identifiers have not wrapped. -/
theorem Tracked.accounts (h : Tracked config trace s holder)
    (hfew : s.shared.jobs.length < 2 ^ 64) : ∃ stages, Accounts config s holder stages := by
  induction h with
  | init => exact ⟨[], accounts_init⟩
  | step h hs ih =>
    obtain ⟨stages, haccounts⟩ := ih ((step_jobs_le hs).1.trans_lt hfew)
    exact accounts_step haccounts h.reachable hs hfew

/-! ### What the runtime keeps -/

/-- The accounting of the runtime: of the queue, of each owner, of every job that has not ended and
of the counters. A publication is in progress where a thread stands between the two sections of
`record_terminal`. -/
structure Accounted (config : RuntimeConfig) (trace : List (Event Output))
    (s : System Task Output) : Prop where
  bound : s.shared.queue.length ≤ config.maxQueue
  queued : ∀ j ∈ s.shared.queue, ∃ job, s.shared.jobs[j]? = some job ∧ job.state = .queued ∧
    (job.id, j) ∈ s.shared.active
  owners : ∀ owner, (s.shared.owners.lookup owner).getD 0 = s.shared.jobsOf owner ∧
    s.shared.jobsOf owner ≤ config.maxJobsPerOwner
  found : ∀ holder, Tracked config trace s holder → ∀ j job, s.shared.jobs[j]? = some job →
    job.state.isTerminal = false → job.state = .running ∨ job.state = .queued ∧ InHand s holder j
  running : ∀ t p, (s.threads t).head? = some (.recordRunning p) → p.source = .running →
    0 < s.shared.counters.running
  down : s.shared.shuttingDown → s.shared.queue = [] ∧
    ∀ move s' event, s.step config move = some (s', event) →
      s'.shared.shuttingDown ∧ ∀ j, event ≠ some (.admitted j)
  balance : (∀ t p, (s.threads t).head? ≠ some (.recordActive p)) →
    s.shared.counters.submitted = s.shared.active.length + s.shared.counters.completed +
      s.shared.counters.failed + s.shared.counters.cancelled

/-- In every reachable state with fewer than `2 ^ 64` admitted jobs, the accounting is right. -/
theorem admission_accounted (h : Reachable config trace s)
    (hfew : s.shared.jobs.length < 2 ^ 64) : Accounted config trace s := by
  obtain ⟨holder, htracked⟩ := h.tracked
  obtain ⟨stages, haccounts⟩ := htracked.accounts hfew
  have hbooks := haccounts.books
  refine ⟨haccounts.bound, fun j hj ↦ haccounts.active_of_queue hj,
    fun owner ↦ ⟨hbooks.owners owner, hbooks.ceiling owner⟩, ?_, ?_,
    fun hdown ↦ ⟨haccounts.down hdown, fun move s' event hs ↦ (step_jobs_le hs).2 hdown⟩, ?_⟩
  · intro holder htracked j job hjob hstate
    obtain ⟨stages, haccounts⟩ := htracked.accounts hfew
    cases hjobstate : job.state with
    | running => exact .inl rfl
    | queued => exact .inr ⟨rfl, haccounts.held j job hjob hjobstate⟩
    | _ =>
      rw [hjobstate] at hstate
      cases hstate
  · intro t p hp hsource
    cases hjob : s.shared.jobs[p.job]? with
    | none =>
      rcases (h.inv.absent _ hjob).2 t _ hp with hplain | hne
      · exact hplain.elim
      · exact absurd rfl hne
    | some job =>
      obtain ⟨stage, hstage, hbooked⟩ := haccounts.booked _ job hjob
      obtain ⟨rfl, -⟩ := hbooked.finds t _ hp rfl
      rw [hbooks.running, List.countP_pos_iff]
      exact ⟨_, List.mem_of_getElem? hstage, decide_eq_true hsource⟩
  · intro hquiet
    have htallied : ∀ stage ∈ stages, stage.isTallied = true ↔ ¬stage.isOpen = true := by
      intro stage hstage
      obtain ⟨j, hj⟩ := List.mem_iff_getElem?.mp hstage
      have hlt : j < s.shared.jobs.length := by
        rw [← Accounts.length_who, ← hbooks.length]
        exact (List.getElem?_eq_some_iff.mp hj).1
      obtain ⟨stage', hstage', hbooked⟩ := haccounts.booked j _ (List.getElem?_eq_getElem hlt)
      obtain rfl := Option.some.inj (hstage'.symm.trans hj)
      cases stage' with
      | tallied =>
        obtain ⟨t, p, hp, -⟩ := hbooked.recording rfl
        exact absurd hp (hquiet t p)
      | _ => simp [Stage.isTallied, Stage.isOpen]
    have hcount : stages.countP Stage.isTallied = stages.countP fun stage ↦ ¬stage.isOpen :=
      List.countP_congr fun stage hstage ↦ by simpa using htallied stage hstage
    have hlength := List.length_eq_countP_add_countP Stage.isOpen (l := stages)
    rw [hbooks.submitted, ← hbooks.length, hlength, ← hcount, ← hbooks.tallied, ← hbooks.opened]
    omega

/-- Two jobs, of which the second is being cancelled. -/
theorem admission_accounted_sample : ∃ (trace : List (Event Unit)) (s : System Unit Unit),
    Reachable ⟨2, 1, 100, 1000⟩ trace s ∧ s.shared.queue = [0] ∧
    (s.shared.owners.lookup 2).getD 0 = 1 ∧ s.shared.jobsOf 2 = 1 := by
  have hrun : ∃ trace s, (init : System Unit Unit).run ⟨2, 1, 100, 1000⟩
      ([.call 0 (.submit 1 ⟨(), none⟩), .act 0 .panicked, .call 1 (.submit 2 ⟨(), none⟩),
        .act 1 .panicked, .call 2 (.cancel 1)] ++ List.replicate 7 (.act 2 .panicked)) =
        some (trace, s) ∧ s.shared.queue = [0] ∧ s.shared.jobs.length = 2 ∧
        (s.shared.owners.lookup 2).getD 0 = 1 :=
    ⟨_, _, rfl, rfl, rfl, rfl⟩
  obtain ⟨trace, s, hs, hqueue, hjobs, howner⟩ := hrun
  have hreach := Reachable.init.run hs
  have haccounted := admission_accounted hreach (by rw [hjobs]; decide)
  exact ⟨_, s, hreach, hqueue, howner, (haccounted.owners 2).1.symm.trans howner⟩

/-! ### When identifiers wrap -/

/-- Room for two queued jobs, and for one job of each owner. -/
def tightConfig : RuntimeConfig := ⟨2, 1, 100, 1000⟩

/-- A job that waits in the queue. -/
def waitingJob : Job Unit Unit := ⟨1, 1, .queued, false, none, some (), none, false⟩

/-- The first job waits, jobs have ended since, and `job` is the last one. -/
def busyWith (ended : List (Job Unit Unit)) (job : Job Unit Unit) (queue : List ℕ)
    (active : List (ℕ × ℕ)) (owners : AList fun _ : ℕ ↦ ℕ) (counters : Counters) (nextJobId : ℕ) :
    Shared Unit Unit :=
  ⟨waitingJob :: (ended ++ [job]), queue, active, owners, false, counters, nextJobId, .notStarted,
    false, 0⟩

/-- The first job waits, and jobs have ended since. -/
def waiting (ended : List (Job Unit Unit)) (counters : Counters) (nextJobId : ℕ) :
    System Unit Unit :=
  ⟨⟨waitingJob :: ended, [0], [(1, 0)], AList.insert 1 1 ∅, false, counters, nextJobId, .notStarted,
    false, 0⟩, fun _ ↦ []⟩

section Wrap

variable {ended : List (Job Unit Unit)} {job job' : Job Unit Unit}
  {queue : List ℕ} {active : List (ℕ × ℕ)} {owners : AList fun _ : ℕ ↦ ℕ} {counters : Counters}
  {nextJobId : ℕ} {shared shared' : Shared Unit Unit} {a : Act Unit Unit}
  {rest todo agenda : List (Act Unit Unit)} {event : Option (Event Unit)}

/-- A schedule of thread 0 alone can reach this state. -/
def Reached (shared : Shared Unit Unit) (agenda : List (Act Unit Unit)) : Prop :=
  ∃ trace, Reachable tightConfig trace ⟨shared, Function.update (fun _ ↦ []) 0 agenda⟩

private theorem Reached.act (todo : List (Act Unit Unit)) (event : Option (Event Unit))
    (h : Reached shared (a :: rest))
    (hexec : shared.exec tightConfig .panicked a = some (shared', todo, event)) :
    Reached shared' (todo ++ rest) := by
  obtain ⟨trace, h⟩ := h
  have hstep : System.step tightConfig ⟨shared, Function.update (fun _ ↦ []) 0 (a :: rest)⟩
      (.act 0 .panicked) = some (⟨shared', Function.update (fun _ ↦ []) 0 (todo ++ rest)⟩, event) := by
    simp [System.step, hexec]
  exact ⟨_, h.step hstep⟩

private theorem Reached.call (call : Call Unit) (h : Reached shared []) :
    Reached shared (call.acts shared.now) := by
  obtain ⟨trace, h⟩ := h
  have hstep : System.step tightConfig ⟨shared, Function.update (fun _ ↦ []) 0 []⟩ (.call 0 call) =
      some (⟨shared, Function.update (fun _ ↦ []) 0 (call.acts shared.now)⟩, none) := by
    simp [System.step]
  exact ⟨_, h.step hstep⟩

private theorem modify_last (jobs : List (Job Unit Unit)) (job : Job Unit Unit)
    (f : Job Unit Unit → Job Unit Unit) :
    (jobs ++ [job]).modify jobs.length f = jobs ++ [f job] := by
  induction jobs with
  | nil => rfl
  | cons first jobs ih => simp [ih]

@[simp] private theorem getElem?_busyWith :
    (busyWith ended job queue active owners counters nextJobId).jobs[ended.length + 1]? =
      some job := by
  simp [busyWith]

/-- An action that only changes the last job. -/
theorem Reached.modify (f : Job Unit Unit → Job Unit Unit) (todo : List (Act Unit Unit))
    (event : Option (Event Unit))
    (h : Reached (busyWith ended job queue active owners counters nextJobId) (a :: rest))
    (hexec : ∀ shared : Shared Unit Unit, shared.jobs[ended.length + 1]? = some job →
      shared.exec tightConfig .panicked a =
        some (shared.modifyJob (ended.length + 1) f, todo, event)) :
    Reached (busyWith ended (f job) queue active owners counters nextJobId) (todo ++ rest) := by
  have hjobs := modify_last (waitingJob :: ended) job f
  rw [List.length_cons, List.cons_append, List.cons_append] at hjobs
  apply h.act todo event
  rw [hexec _ getElem?_busyWith]
  simp only [busyWith, Shared.modifyJob, hjobs]

/-- The next job is admitted. -/
theorem Reached.enqueue (hid : nextJobId ≠ 1)
    (h : Reached (waiting ended counters nextJobId).shared [.submit 2 ⟨(), none⟩ 0]) :
    ∃ active counters', active.Perm [(nextJobId, ended.length + 1), (1, 0)] ∧
      Reached (busyWith ended ⟨nextJobId, 2, .queued, false, none, some (), none, false⟩
        [0, ended.length + 1] active (AList.insert 2 1 (AList.insert 1 1 ∅)) counters'
        (fetchAdd nextJobId)) [] := by
  have hfree : AList.lookup 2 (AList.singleton 1 1 : AList fun _ : ℕ ↦ ℕ) = none := rfl
  refine ⟨_, { counters with submitted := fetchAdd counters.submitted },
    List.perm_orderedInsert (fun a b : ℕ × ℕ ↦ a.1 ≤ b.1) _ _,
    h.act [] (some (.admitted (ended.length + 1))) ?_⟩
  simp [Shared.exec, Shared.takeExpiredQueueHead, waiting, Shared.expired, waitingJob,
    Job.deadlineExpired, Shared.admission, hfree, tightConfig, busyWith, Ne.symm hid]

/-- The last job is cancelled, and nothing is left of it but its record. -/
theorem Reached.cancel (hid : nextJobId ≠ 1)
    (hperm : active.Perm [(nextJobId, ended.length + 1), (1, 0)])
    (h : Reached (busyWith ended ⟨nextJobId, 2, .queued, false, none, some (), none, false⟩
      [0, ended.length + 1] active (AList.insert 2 1 (AList.insert 1 1 ∅)) counters
      (fetchAdd nextJobId)) []) :
    ∃ job counters',
      Reached (waiting (ended ++ [job]) counters' (fetchAdd nextJobId)).shared [] := by
  let p : Publication Unit := ⟨ended.length + 1, .queued, .cancelled, .error cancelledError, true⟩
  have h₁ := (h.call (.cancel (ended.length + 1))).modify
    (fun job ↦ { job with cancelFlag := true }) [] none fun shared hjob ↦ by simp [Shared.exec, hjob]
  have h₂ := h₁.act [.unqueue (ended.length + 1), .publish p] none (by
    simp only [Shared.exec, getElem?_busyWith]
    rfl)
  have h₃ : Reached (busyWith ended ⟨nextJobId, 2, .queued, true, none, some (), none, false⟩ [0]
      active (AList.insert 2 1 (AList.insert 1 1 ∅)) counters (fetchAdd nextJobId)) [.publish p] := by
    refine h₂.act [] none ?_
    simp [Shared.exec, busyWith, waitingJob, Ne.symm hid]
  have h₄ := h₃.modify (fun job ↦ { job with locked := true }) [.writeOutput p] none
    fun shared hjob ↦ by simp [Shared.exec, hjob, p]
  have h₅ := h₄.modify (fun job ↦ { job with output := some p.result }) [.exchange p none] none
    fun shared hjob ↦ by simp [Shared.exec, hjob, p]
  have h₆ := h₅.modify (fun job ↦ { job with state := p.target }) [.release p]
    (some (.job p.job (.ended p.source p.target p.result)))
    fun shared hjob ↦ by simp [Shared.exec, hjob, p]
  have h₇ := h₆.modify (fun job ↦ { job with locked := false }) [.recordRunning p] none
    fun shared hjob ↦ by simp [Shared.exec, hjob, p]
  have h₈ := h₇.act [.recordCounter p] none (by simp only [Shared.exec]; rfl)
  have h₉ : Reached (busyWith ended
      ⟨nextJobId, 2, .cancelled, true, none, some (), some p.result, false⟩ [0] active
      (AList.insert 2 1 (AList.insert 1 1 ∅))
      { counters with cancelled := fetchAdd counters.cancelled } (fetchAdd nextJobId))
      [.recordActive p] :=
    h₈.act [.recordActive p] none rfl
  have hgone : active.filter (fun entry ↦ entry.1 ≠ nextJobId) = [(1, 0)] := by
    rw [← List.perm_singleton]
    have := hperm.filter fun entry ↦ entry.1 ≠ nextJobId
    simpa [Ne.symm hid] using this
  have hany : (active.any fun entry ↦ entry.1 = nextJobId) = true :=
    List.any_eq_true.mpr ⟨(nextJobId, ended.length + 1), hperm.mem_iff.mpr (by simp), by simp⟩
  have h₁₀ : Reached (busyWith ended
      ⟨nextJobId, 2, .cancelled, true, none, some (), some p.result, false⟩ [0] [(1, 0)]
      (AList.insert 1 1 ∅) { counters with cancelled := fetchAdd counters.cancelled }
      (fetchAdd nextJobId)) [.observe p] := by
    refine h₉.act [.observe p] none ?_
    rw [Shared.exec, show p.job = ended.length + 1 from rfl, getElem?_busyWith]
    simp only [Option.bind_eq_bind, Option.bind_some, Shared.recordInactive, busyWith, hany, if_true, hgone]
    rfl
  have h₁₁ := h₁₀.act [.discardTask p.job] (some (.job p.job .observed)) rfl
  have h₁₂ := h₁₁.modify (fun job ↦ { job with task := none }) [] none
    fun shared hjob ↦ by simp [Shared.exec, hjob, p]
  exact ⟨_, _, h₁₂⟩

/-- The first job can wait while any number of jobs come and go, up to the wrap. -/
theorem reached_waiting (n : ℕ) (hn : n < 2 ^ 64) :
    ∃ ended counters, ended.length = n ∧
      Reached (waiting ended counters ((n + 2) % 2 ^ 64)).shared [] := by
  induction n with
  | zero =>
    have hinit : Reached (init : System Unit Unit).shared [] := by
      refine ⟨[], ?_⟩
      rw [Function.update_eq_self]
      exact .init
    exact ⟨[], _, rfl, (hinit.call (.submit 1 ⟨(), none⟩)).act [] (some (.admitted 0)) rfl⟩
  | succ n ih =>
    obtain ⟨ended, counters, hlength, h⟩ := ih (by omega)
    have hid : (n + 2) % 2 ^ 64 ≠ 1 := by omega
    obtain ⟨active, counters, hperm, h⟩ := (h.call (.submit 2 ⟨(), none⟩)).enqueue hid
    obtain ⟨job, counters, h⟩ := h.cancel hid hperm
    have hnext : fetchAdd ((n + 2) % 2 ^ 64) = (n + 1 + 2) % 2 ^ 64 := by
      unfold fetchAdd
      omega
    rw [hnext] at h
    exact ⟨ended ++ [job], counters, by simp [hlength], h⟩

/-- Job `2 ^ 64` gets the identifier of the first one, which still waits: the queue then holds a
job that is not active, and the count of its owner is wrong. -/
theorem identifiers_wrap : ∃ trace, ∃ s : System Unit Unit, Reachable tightConfig trace s ∧
    (∃ j ∈ s.shared.queue, ∀ id, (id, j) ∉ s.shared.active) ∧
    ∃ owner, (s.shared.owners.lookup owner).getD 0 ≠ s.shared.jobsOf owner := by
  obtain ⟨ended, counters, hlength, h⟩ := reached_waiting (2 ^ 64 - 1) (by decide)
  rw [show (2 ^ 64 - 1 + 2) % 2 ^ 64 = 1 from rfl] at h
  have hfree : AList.lookup 2 (AList.singleton 1 1 : AList fun _ : ℕ ↦ ℕ) = none := rfl
  have hwrap : Reached (busyWith ended ⟨1, 2, .queued, false, none, some (), none, false⟩
      [0, ended.length + 1] [(1, ended.length + 1)] (AList.insert 2 1 (AList.insert 1 1 ∅))
      { counters with submitted := fetchAdd counters.submitted } (fetchAdd 1)) [] := by
    refine (h.call (.submit 2 ⟨(), none⟩)).act [] (some (.admitted (ended.length + 1))) ?_
    simp [Shared.exec, Shared.takeExpiredQueueHead, waiting, Shared.expired, waitingJob,
      Job.deadlineExpired, Shared.admission, hfree, tightConfig, busyWith]
  obtain ⟨trace, hreach⟩ := hwrap
  refine ⟨trace, _, hreach, ⟨0, List.mem_cons_self, ?_⟩, 1, ?_⟩
  · intro id hmem
    have := congrArg Prod.snd (List.mem_singleton.mp hmem)
    cases this
  · have hnone : (busyWith ended ⟨1, 2, .queued, false, none, some (), none, false⟩
        [0, ended.length + 1] [(1, ended.length + 1)] (AList.insert 2 1 (AList.insert 1 1 ∅))
        { counters with submitted := fetchAdd counters.submitted } (fetchAdd 1)).jobsOf 1 = 0 := by
      simp [Shared.jobsOf, Shared.who, busyWith]
    rw [hnone]
    exact Nat.one_ne_zero

end Wrap

end System
end Gitility.Runtime
