import Gitility.ObjectStore.LocalSteps

/-!
# The messages of a task

A task sends a message only in the phase that it belongs to, and only when it has given up its earlier
ones. So a commit is sent at most once, and the answer that a task reads is that of its last message.
-/

namespace Gitility.LocalStore

variable {sha256 : Bytes → Bytes} {w : World} {i : ℕ} {c c' : Client}

/-! ### Phases and messages -/

namespace Request

/-- A `commit`. -/
def isCommit : Request → Bool
  | commit _ _ _ => true
  | _ => false

/-- A `claim`. -/
def isClaim : Request → Bool
  | claim _ _ => true
  | _ => false

end Request

/-- A `put`. -/
def Op.isPut : Op → Bool
  | put _ _ _ => true
  | _ => false

/-- A reason `{:transport, reason}`: the call may still be executed. -/
def Reason.isTransport : Reason → Bool
  | transport _ => true
  | _ => false

/-- An outcome that says that nothing was or will be published. -/
def Outcome.unpublished : Outcome → Bool
  | put _ => false
  | error reason => !reason.isTransport
  | _ => true

namespace Phase

/-- The phases of a `put` in which it has no outcome, or a version to discard. -/
def puts : Phase → Bool
  | holding _ | creating | claiming | preparing | copying | committing | discarding _ => true
  | _ => false

/-- The phases before a task has a version. -/
def unnamed : Phase → Bool
  | holding _ | creating => true
  | _ => false

/-- The phases in which a version has no `meta`. -/
def drafting : Phase → Bool
  | claiming | preparing | copying => true
  | _ => false

/-- The phases after the server accepted the claim of a version. -/
def claimed : Phase → Bool
  | preparing | copying | committing => true
  | _ => false

/-- The outcome that a task has in a phase. -/
def outcome : Phase → Option Outcome
  | discarding outcome | releasing outcome | unpinning outcome | returned outcome => some outcome
  | _ => none

end Phase

/-- A task that has not sent its commit, or whose commit was refused. -/
def Client.unpublished (c : Client) : Bool :=
  match c.phase with
  | .committing => c.wait = .idle
  | .releasing outcome | .returned outcome => outcome.unpublished
  | .killed => false
  | _ => true

/-- What a message of a task says. -/
def Client.Sent (sha256 : Bytes → Bytes) (i : ℕ) (c : Client) : Request → Prop
  | .hold ref | .release ref => ref = i
  | .claim ref version => ref = i ∧ c.version = some version
  | .commit hash ifMatch version =>
    c.op.isPut ∧ hash = c.op.hash sha256 ∧ ifMatch = c.op.ifMatch ∧ c.version = some version
  | .pin _ | .unpin _ => True

/-- What holds of the messages of a task. -/
structure Queued (sha256 : Bytes → Bytes) (i : ℕ) (c : Client) : Prop where
  sent : ∀ r ∈ c.queue, c.Sent sha256 i r
  single : (c.queue.filter Request.isCommit).length ≤ 1
  claims : (c.phase.claimed ∨ ∃ r ∈ c.queue, r.isCommit) → ∀ r ∈ c.queue, r.isClaim = false
  waiting : c.wait = .waiting → ∃ r, c.request sha256 i = some r ∧ c.queue.getLast? = some r
  drained : ∀ reply, c.wait = .answered reply → reply ≠ .error (.transport .closed) → c.queue = []
  quiet : c.request sha256 i = none → c.wait = .idle
  puts : c.phase.puts → c.op.isPut
  unnamed : c.phase.unnamed → c.version = none
  unpublished : c.unpublished → ∀ r ∈ c.queue, r.isCommit = false

/-! ### Each step keeps them -/

/-- A task keeps its messages and does not wait for an answer. -/
theorem Queued.keep (h : Queued sha256 i c) (hqueue : c'.queue = c.queue) (hop : c'.op = c.op)
    (hversion : c'.version = c.version) (hwait : c'.wait = .idle)
    (hclaimed : c'.phase.claimed → ∀ r ∈ c.queue, r.isClaim = false) (hputs : c'.phase.puts → c.phase.puts)
    (hunnamed : c'.phase.unnamed → c.phase.unnamed)
    (hunpublished : c'.unpublished → ∀ r ∈ c.queue, r.isCommit = false) : Queued sha256 i c' where
  sent r hr := by
    have hsent := h.sent r (hqueue ▸ hr)
    cases r <;> simp_all [Client.Sent]
  single := by rw [hqueue]; exact h.single
  claims hcase := by
    rw [hqueue] at hcase ⊢
    rcases hcase with hphase | hcommit
    · exact hclaimed hphase
    · exact h.claims (.inr hcommit)
  waiting hwaiting := by rw [hwait] at hwaiting; cases hwaiting
  drained reply hreply := by rw [hwait] at hreply; cases hreply
  quiet _ := hwait
  puts hphase := by rw [hop]; exact h.puts (hputs hphase)
  unnamed hphase := by rw [hversion]; exact h.unnamed (hunnamed hphase)
  unpublished hphase := by rw [hqueue]; exact hunpublished hphase

/-- A new task has sent nothing. -/
theorem queued_start (op : Op) : Queued sha256 i (Client.start op) := by
  cases op <;>
    exact ⟨by simp [Client.start], by simp [Client.start], by simp [Client.start],
      by simp [Client.start], by simp [Client.start], by simp [Client.start],
      by simp [Client.start, Phase.puts, Op.isPut],
      by simp [Client.start], by simp [Client.start]⟩

private theorem next_puts {reply : Reply} (h : (c.next sha256 reply).puts) : c.phase.puts := by
  revert h
  unfold Client.next
  split
  case h_10 => split <;> simp_all [Phase.puts]
  all_goals simp_all [Phase.puts]

private theorem next_unnamed {reply : Reply} (h : (c.next sha256 reply).unnamed) : c.phase.unnamed := by
  revert h
  unfold Client.next
  split
  case h_10 => split <;> simp_all [Phase.unnamed]
  all_goals simp_all [Phase.unnamed]

/-- A call that was given up does not pass for a claim. -/
theorem next_claimed {reason : TransportReason}
    (h : (c.next sha256 (.error (.transport reason))).claimed) : c.phase.claimed := by
  revert h
  unfold Client.next
  split
  all_goals simp_all [Phase.claimed]

/-- A commit that was given up counts as published. -/
theorem resume_unpublished {reason : TransportReason}
    (h : (c.resume sha256 (.error (.transport reason))).unpublished) : c.unpublished := by
  revert h
  unfold Client.unpublished Client.resume Client.next
  cases c.phase <;> simp [Outcome.unpublished, Reason.isTransport]

/-- What a task does with a reply. Its queue is empty when the server answered. -/
theorem Queued.resume (h : Queued sha256 i c) {reply : Reply}
    (hreply : c.queue = [] ∨ ∃ reason, reply = .error (.transport reason)) :
    Queued sha256 i (c.resume sha256 reply) := by
  refine h.keep rfl rfl rfl rfl ?_ next_puts next_unnamed ?_
  · intro hphase r hr
    rcases hreply with hempty | ⟨reason, rfl⟩
    · rw [hempty] at hr
      cases hr
    · exact h.claims (.inl (next_claimed hphase)) r hr
  · intro hphase r hr
    rcases hreply with hempty | ⟨reason, rfl⟩
    · rw [hempty] at hr
      cases hr
    · exact h.unpublished (resume_unpublished hphase) r hr

/-- The call of a phase. -/
theorem sent_request (h : Queued sha256 i c) {r : Request} (hr : c.request sha256 i = some r) :
    c.Sent sha256 i r ∧ (r.isCommit → c.phase = .committing) ∧ (r.isClaim → c.phase = .claiming) := by
  have hputs := h.puts
  unfold Client.request at hr
  split at hr <;> rename_i hphase
  all_goals simp only [Option.some.injEq, Option.map_eq_some_iff, reduceCtorEq] at hr
  case h_3 =>
    obtain ⟨version, hversion, rfl⟩ := hr
    simp_all [Client.Sent, Phase.puts, Request.isClaim]
  case h_2 =>
    obtain ⟨version, hversion, rfl⟩ := hr
    simp_all [Client.Sent, Request.isCommit]
  case h_6 =>
    obtain ⟨pinned, hpinned, rfl⟩ := hr
    simp [Client.Sent, Request.isCommit, Request.isClaim]
  all_goals
    subst hr
    simp [Client.Sent, Request.isCommit, Request.isClaim]

/-- A task sends its message. -/
theorem Queued.send (h : Queued sha256 i c) {r : Request} (hr : c.request sha256 i = some r)
    (hidle : c.wait = .idle) :
    Queued sha256 i { c with wait := .waiting, queue := c.queue ++ [r] } := by
  obtain ⟨hsent, hcommit, hclaim⟩ := sent_request h hr
  have hnone : r.isCommit → ∀ r ∈ c.queue, r.isCommit = false := by
    intro hiscommit
    exact h.unpublished (by simp [Client.unpublished, hcommit hiscommit, hidle])
  refine ⟨?_, ?_, ?_, ?_, ?_, ?_, h.puts, h.unnamed, ?_⟩
  · intro r' hr'
    rcases List.mem_append.mp hr' with hr' | hr'
    · exact h.sent r' hr'
    · obtain rfl := List.mem_singleton.mp hr'
      exact hsent
  · rw [List.filter_append, List.length_append]
    cases hiscommit : r.isCommit with
    | false => simpa [hiscommit] using h.single
    | true =>
      have hempty : c.queue.filter Request.isCommit = [] := by
        simpa [List.filter_eq_nil_iff] using hnone hiscommit
      simp [hempty, hiscommit]
  · intro hcase r' hr'
    have hold : c.phase.claimed ∨ (∃ r ∈ c.queue, r.isCommit) := by
      rcases hcase with hphase | ⟨r'', hr'', hiscommit⟩
      · exact .inl hphase
      · rcases List.mem_append.mp hr'' with hr'' | hr''
        · exact .inr ⟨r'', hr'', hiscommit⟩
        · obtain rfl := List.mem_singleton.mp hr''
          exact .inl (by simp [hcommit hiscommit, Phase.claimed])
    rcases List.mem_append.mp hr' with hr' | hr'
    · exact h.claims hold r' hr'
    · obtain rfl := List.mem_singleton.mp hr'
      by_contra hisclaim
      have hphase := hclaim (by simpa using hisclaim)
      rcases hold with hclaimed | ⟨r'', hr'', hiscommit⟩
      · simp [hphase, Phase.claimed] at hclaimed
      · have := h.unpublished (by simp [Client.unpublished, hphase]) r'' hr''
        simp [this] at hiscommit
  · exact fun _ ↦ ⟨r, hr, by simp⟩
  · intro reply hreply
    cases hreply
  · intro hrequest
    have : c.request sha256 i = none := hrequest
    simp [hr] at this
  · intro hphase r' hr'
    have hunpublished : c.unpublished := by
      revert hphase
      unfold Client.unpublished
      cases c.phase <;> simp
    rcases List.mem_append.mp hr' with hr' | hr'
    · exact h.unpublished hunpublished r' hr'
    · obtain rfl := List.mem_singleton.mp hr'
      by_contra hiscommit
      have := hcommit (by simpa using hiscommit)
      simp [Client.unpublished, this] at hphase

/-- An answer makes no task unpublished. -/
theorem unpublished_of_served {reply : Reply} (h : (c.served reply).unpublished) : c.unpublished := by
  revert h
  unfold Client.unpublished Client.served
  cases c.phase <;> simp
  intro hidle
  by_cases hlast : c.wait = .waiting ∧ c.queue.tail = []
  · simp [hlast] at hidle
  · simpa [hlast] using hidle

/-- Losing the server makes no task unpublished. -/
theorem unpublished_of_disconnect (h : c.disconnect.unpublished) : c.unpublished := by
  revert h
  unfold Client.unpublished Client.disconnect
  cases c.phase <;> simp

/-- The server handles a message of a task. -/
theorem Queued.served (h : Queued sha256 i c) (reply : Reply) : Queued sha256 i (c.served reply) := by
  have hmem : ∀ r ∈ (c.served reply).queue, r ∈ c.queue := fun r hr ↦ List.mem_of_mem_tail hr
  refine ⟨?_, ?_, ?_, ?_, ?_, ?_, h.puts, h.unnamed, ?_⟩
  · intro r hr
    exact h.sent r (hmem r hr)
  · exact le_trans (List.Sublist.length_le ((List.tail_sublist _).filter _)) h.single
  · rintro (hphase | ⟨r', hr', hcommit⟩) r hr
    · exact h.claims (.inl hphase) r (hmem r hr)
    · exact h.claims (.inr ⟨r', hmem r' hr', hcommit⟩) r (hmem r hr)
  · intro hwaiting
    have hwait : c.wait = .waiting ∧ c.queue.tail ≠ [] := by
      unfold Client.served at hwaiting
      by_cases hlast : c.wait = .waiting ∧ c.queue.tail = []
      · simp [hlast] at hwaiting
      · simp only [hlast, if_false] at hwaiting
        exact ⟨hwaiting, fun htail ↦ hlast ⟨hwaiting, htail⟩⟩
    obtain ⟨r, hr, hlast⟩ := h.waiting hwait.1
    refine ⟨r, hr, ?_⟩
    show c.queue.tail.getLast? = some r
    cases hqueue : c.queue with
    | nil => simp [hqueue] at hwait
    | cons first rest =>
      rw [hqueue] at hlast hwait
      have hrest : rest ≠ [] := hwait.2
      rwa [List.tail_cons, ← List.getLast?_cons_of_ne_nil hrest]
  · intro reply' hreply' hclosed
    show c.queue.tail = []
    unfold Client.served at hreply'
    by_cases hlast : c.wait = .waiting ∧ c.queue.tail = []
    · exact hlast.2
    · simp only [hlast, if_false] at hreply'
      rw [h.drained reply' hreply' hclosed]
      rfl
  · intro hrequest
    have hidle := h.quiet hrequest
    simp [Client.served, hidle]
  · intro hphase r hr
    exact h.unpublished (unpublished_of_served hphase) r (hmem r hr)

/-- The message whose answer a task gets is its call. -/
theorem Queued.request_of_last (h : Queued sha256 i c) {r : Request}
    (hlast : c.wait = .waiting ∧ c.queue.tail = []) (hhead : c.queue.head? = some r) :
    c.request sha256 i = some r := by
  obtain ⟨r', hr', hlastr⟩ := h.waiting hlast.1
  cases hqueue : c.queue with
  | nil => simp [hqueue] at hhead
  | cons first rest =>
    have hrest : rest = [] := by simpa [hqueue] using hlast.2
    rw [hqueue] at hhead hlastr
    subst hrest
    rw [hr', ← hlastr, ← hhead]
    rfl

/-- The server dies. -/
theorem Queued.disconnect (h : Queued sha256 i c) : Queued sha256 i c.disconnect := by
  refine ⟨by simp [Client.disconnect], by simp [Client.disconnect], by simp [Client.disconnect], ?_,
    by simp [Client.disconnect], ?_, h.puts, h.unnamed, by simp [Client.disconnect]⟩
  · intro hwaiting
    unfold Client.disconnect at hwaiting
    dsimp only at hwaiting
    split at hwaiting <;> cases hwaiting
  · intro hrequest
    have hidle := h.quiet hrequest
    simp [Client.disconnect, hidle]

/-- A task goes on by itself. -/
theorem Queued.move (h : Queued sha256 i c) (hqueue : c'.queue = c.queue) (hop : c'.op = c.op)
    (hversion : c'.version = c.version) (hwait : c'.wait = c.wait) (hidle : c.wait = .idle)
    (hclaimed : c'.phase.claimed → c.phase.claimed) (hputs : c'.phase.puts → c.phase.puts)
    (hunnamed : c'.phase.unnamed → c.phase.unnamed) (hunpublished : c'.unpublished → c.unpublished) :
    Queued sha256 i c' :=
  h.keep hqueue hop hversion (hwait.trans hidle) (fun hphase ↦ h.claims (.inl (hclaimed hphase))) hputs
    hunnamed fun hphase ↦ h.unpublished (hunpublished hphase)

variable {move : Move} {version : Bytes} {dir : Option VersionDir}

/-- A step of a task keeps what holds of its messages. -/
theorem Queued.task (h : Queued sha256 i c) (hstep : Local sha256 w i move c c') :
    Queued sha256 i c' := by
  cases hstep with
  | send hr hidle => exact h.send hr hidle
  | refused hr hidle =>
    refine ⟨h.sent, h.single, h.claims, by simp, ?_, ?_, h.puts, h.unnamed, ?_⟩
    · intro reply hreply hclosed
      exact absurd (Wait.answered.inj hreply).symm hclosed
    · intro hrequest
      have : c.request sha256 i = none := hrequest
      simp [hr] at this
    · intro hphase
      refine h.unpublished ?_
      revert hphase
      unfold Client.unpublished
      cases c.phase <;> simp
  | @receive _ reply hreply =>
    refine h.resume ?_
    by_cases hclosed : reply = .error (.transport .closed)
    · exact .inr ⟨_, hclosed⟩
    · exact .inl (h.drained reply hreply hclosed)
  | expire => exact h.resume (.inr ⟨_, rfl⟩)
  | openFailed hphase =>
    refine h.move rfl rfl rfl rfl (h.quiet (by simp [Client.request, hphase])) ?_ ?_ ?_ ?_ <;>
      simp [hphase, Phase.claimed, Phase.puts, Phase.unnamed, Client.unpublished]
  | writeMetaFailed reason hphase =>
    refine h.move rfl rfl rfl rfl (h.quiet (by simp [Client.request, hphase])) ?_ ?_ ?_ ?_ <;>
      simp [hphase, Phase.claimed, Phase.puts, Phase.unnamed, Client.unpublished]
  | read hphase =>
    unfold Client.copied
    split <;> refine h.move rfl rfl rfl rfl (h.quiet (by simp [Client.request, hphase])) ?_ ?_ ?_ ?_ <;>
      simp [hphase, Phase.claimed, Phase.puts, Phase.unnamed, Client.unpublished]
  | readFailed hphase =>
    refine h.move rfl rfl rfl rfl (h.quiet (by simp [Client.request, hphase])) ?_ ?_ ?_ ?_ <;>
      simp [hphase, Phase.claimed, Phase.puts, Phase.unnamed, Client.unpublished]
  | fail fault hfail =>
    unfold Client.fail at hfail
    split at hfail <;> cases hfail
    case h_1 hphase hwait | h_2 hphase hwait =>
      refine h.move rfl rfl rfl rfl hwait ?_ ?_ ?_ ?_ <;>
        simp [hphase, Phase.claimed, Phase.puts, Phase.unnamed, Client.unpublished]
    all_goals
      rename_i hphase
      refine h.move rfl rfl rfl rfl (h.quiet (by simp [Client.request, hphase])) ?_ ?_ ?_ ?_ <;>
        simp [hphase, Phase.claimed, Phase.puts, Phase.unnamed, Client.unpublished]
  | kill hended =>
    refine h.keep rfl rfl rfl rfl ?_ ?_ ?_ ?_ <;>
      simp [Phase.claimed, Phase.puts, Phase.unnamed, Client.unpublished]

/-- So does a step of a task with its version directory. -/
theorem Queued.ownDir (h : Queued sha256 i c) (hstep : OwnDir sha256 w i move c c' version dir) :
    Queued sha256 i c' := by
  cases hstep with
  | create hphase =>
    have hnone : c.version = none := h.unnamed (by simp [hphase, Phase.unnamed])
    have hidle : c.wait = .idle := h.quiet (by simp [Client.request, hphase])
    refine ⟨?_, h.single, ?_, ?_, h.drained, ?_, ?_, by simp [Phase.unnamed], ?_⟩
    · intro r hr
      have hsent := h.sent r hr
      cases r <;> simp_all [Client.Sent]
    · intro hcase
      exact h.claims (hcase.imp_left (by simp [Phase.claimed]))
    · intro hwait
      simp [hidle] at hwait
    · exact fun _ ↦ hidle
    · exact fun _ ↦ h.puts (by simp [hphase, Phase.puts])
    · exact fun _ ↦ h.unpublished (by simp [hphase, Client.unpublished])
  | openData hphase | write chunk hphase | writeMeta hphase | discard removal hphase =>
    refine h.move rfl rfl rfl rfl (h.quiet (by simp [Client.request, hphase])) ?_ ?_ ?_ ?_ <;>
      simp [hphase, Phase.claimed, Phase.puts, Phase.unnamed, Client.unpublished]

end Gitility.LocalStore
