import Mathlib.Data.List.Pairwise
import Gitility.ObjectStore.LocalChanges

/-!
# A local object store over a run

The invariant ties each task to the steps that were taken: whether its commit was executed, and at which
step its pin read the pointer of its key. A version whose commit was executed changes no more, except
that a sweep removes it when it is neither current nor pinned.
-/

namespace Gitility.LocalStore

variable {sha256 : Bytes → Bytes} {past : List (World × Move)} {w w' : World} {i j : ℕ} {c c' : Client}
  {move : Move} {hash version : Bytes}

/-! ### What has happened -/

/-- The server executes the commit of a task. -/
def Applies (i : ℕ) (x : World × Move) : Prop :=
  ∃ s c hash ifMatch version objects, x.1.server = some s ∧ x.1.clients[i]? = some c ∧
    x.2 = .serve i none ∧ c.queue.head? = some (.commit hash ifMatch version) ∧
    commit x.1.objects hash ifMatch version = .ok objects

/-- The server has executed the commit of a task. -/
def Applied (past : List (World × Move)) (i : ℕ) : Prop := ∃ x ∈ past, Applies i x

/-- A task has begun and has not ended. -/
def World.Running (w : World) (i : ℕ) : Prop := ∃ c, w.clients[i]? = some c ∧ ¬ c.Ended

/-- A version directory loses files. -/
def Shrinks (before after : Option VersionDir) : Prop :=
  ∀ dir, after = some dir → ∃ old, before = some old ∧ (dir.data = old.data ∨ dir.data = none) ∧
    (dir.metaFile = old.metaFile ∨ dir.metaFile = none)

/-- The files of a version directory are those that its task wrote. -/
def Written (sha256 : Bytes → Bytes) (c : Client) (dir : VersionDir) : Prop :=
  (dir.data = none ∨ dir.data = some c.written) ∧
    (dir.metaFile = none ∨ dir.metaFile = some (c.info sha256) ∧ c.phase.drafting = false)

/-- The task of a version, of which the commit was executed. -/
def Committed (sha256 : Bytes → Bytes) (past : List (World × Move)) (w : World) (hash version : Bytes) :
    Prop :=
  ∃ i c, w.clients[i]? = some c ∧ c.version = some version ∧ c.op.hash sha256 = hash ∧ Applied past i

/-- A version is as it was when its commit was executed. -/
def Published (sha256 : Bytes → Bytes) (past : List (World × Move)) (w : World) (hash version : Bytes) :
    Prop :=
  ∃ i c dir x, w.clients[i]? = some c ∧ c.version = some version ∧ c.op.hash sha256 = hash ∧ x ∈ past ∧
    Applies i x ∧ (x.1.objects hash).versions version = some dir ∧
    (w.objects hash).versions version = some dir ∧ dir.metaFile = some (c.info sha256) ∧
    (c.info sha256).valid ∧ validPointer version

/-- While a task ran, a version was current. -/
def Saw (sha256 : Bytes → Bytes) (i : ℕ) (c : Client) (version : Bytes) (info : Meta) (x : World × Move) :
    Prop :=
  x.1.Running i ∧ readCurrent x.1.objects (c.op.hash sha256) = .ok (version, info)

/-- A task has read the pointer of its key. -/
def Seen (sha256 : Bytes → Bytes) (past : List (World × Move)) (w : World) (i : ℕ) (c : Client)
    (version : Bytes) (info : Meta) : Prop :=
  Committed sha256 past w (c.op.hash sha256) version ∧
    ∃ x ∈ past, Saw sha256 i c version info x ∧
      Shrinks ((x.1.objects (c.op.hash sha256)).versions version)
        ((w.objects (c.op.hash sha256)).versions version)

/-- While a task ran, its key had no version. -/
def Missed (sha256 : Bytes → Bytes) (past : List (World × Move)) (i : ℕ) (c : Client) : Prop :=
  ∃ x ∈ past, x.1.Running i ∧ (x.1.objects (c.op.hash sha256)).current = none

/-- While a task ran, its key did not meet its condition. -/
def Refused (sha256 : Bytes → Bytes) (past : List (World × Move)) (i : ℕ) (c : Client) : Prop :=
  ∃ x ∈ past, x.1.Running i ∧ ∃ current, currentForCommit x.1.objects (c.op.hash sha256) = .ok current ∧
    current.map (·.2.etag) ≠ c.op.ifMatch

/-- While a task ran, its commit was executed, of what the task has written. -/
def AppliedAs (sha256 : Bytes → Bytes) (past : List (World × Move)) (i : ℕ) (c : Client) : Prop :=
  ∃ x ∈ past, Applies i x ∧ ∃ c₀, x.1.clients[i]? = some c₀ ∧ ¬ c₀.Ended ∧ c₀.info sha256 = c.info sha256

/-! ### The invariant -/

/-- What an error means. -/
def Excused (sha256 : Bytes → Bytes) (past : List (World × Move)) (i : ℕ) (c : Client) (reason : Reason) :
    Prop :=
  (reason = .preconditionFailed → Refused sha256 past i c) ∧
    (reason = .notFound → Missed sha256 past i c)

/-- What a reply means in the phase of a task. -/
def Told (sha256 : Bytes → Bytes) (past : List (World × Move)) (w : World) (i : ℕ) (c : Client) :
    Reply → Prop
  | .ok => c.phase = .committing → AppliedAs sha256 past i c
  | .pinned version info => (∃ n, c.phase = .pinning n) ∧ Seen sha256 past w i c version info
  | .error reason =>
    ((∀ outcome, c.phase ≠ .releasing outcome ∧ c.phase ≠ .unpinning outcome) →
      Excused sha256 past i c reason) ∧
    (c.phase = .committing → reason.isTransport = false → ¬ Applied past i)

/-- What an outcome means. -/
def Justified (sha256 : Bytes → Bytes) (past : List (World × Move)) (i : ℕ) (c : Client) : Outcome → Prop
  | .put etag => AppliedAs sha256 past i c ∧ etag = (c.info sha256).etag
  | .head info => ∃ x ∈ past, ∃ version, Saw sha256 i c version info x
  | .got etag metadata content => ∃ x ∈ past, ∃ version info, Saw sha256 i c version info x ∧
      info.etag = etag ∧ info.metadata = metadata ∧ info.size = content.length ∧
      ((x.1.objects (c.op.hash sha256)).versions version).bind VersionDir.data = some content
  | .error reason => Excused sha256 past i c reason

/-- What holds of a task. -/
structure Sound (sha256 : Bytes → Bytes) (past : List (World × Move)) (w : World) (i : ℕ) (c : Client) :
    Prop where
  queued : Queued sha256 i c
  fresh : (c.unpublished ∨ ∃ r ∈ c.queue, r.isCommit) → ¬ Applied past i
  told : ∀ reply, c.wait = .answered reply → Told sha256 past w i c reply
  outcome : ∀ outcome, c.phase.outcome = some outcome → Justified sha256 past i c outcome
  reading : c.phase = .reading →
    ∃ version info, c.pinned = some (version, info) ∧ Seen sha256 past w i c version info

/-- A task that fills its version directory, or whose commit is under way. -/
def Client.Filling (c : Client) : Prop :=
  c.phase = .copying ∨ c.phase = .committing ∨ ∃ r ∈ c.queue, r.isCommit

/-- The invariant. -/
structure Inv (sha256 : Bytes → Bytes) (past : List (World × Move)) (w : World) : Prop where
  distinct : ∀ (i j : ℕ) (c c' : Client) (version : Bytes), w.clients[i]? = some c →
    w.clients[j]? = some c' → c.version = some version → c'.version = some version → i = j
  owned : ∀ hash version dir, (w.objects hash).versions version = some dir →
    ∃ (i : ℕ) (c : Client), w.clients[i]? = some c ∧ c.version = some version ∧ c.op.hash sha256 = hash ∧
      Written sha256 c dir
  sound : ∀ (i : ℕ) (c : Client), w.clients[i]? = some c → Sound sha256 past w i c
  current : ∀ hash version, (w.objects hash).current = some version →
    Published sha256 past w hash version
  pinned : ∀ s version, w.server = some s → s.Pins version →
    ∃ hash, Published sha256 past w hash version
  claimed : ∀ s ref version, w.server = some s → s.Claims ref version →
    ∃ c, w.clients[ref]? = some c ∧ c.version = some version ∧
      (c.Filling → ∃ dir, w.dir sha256 c version = some dir ∧ dir.data = some c.written)
  begun : ∀ i, Applied past i → ∃ c : Client, w.clients[i]? = some c
  once : past.Pairwise fun x y ↦ ∀ i, Applies i x → ¬ Applies i y

/-! ### Facts about the past -/

private theorem Shrinks.refl (dir : Option VersionDir) : Shrinks dir dir :=
  fun old h ↦ ⟨old, h, .inl rfl, .inl rfl⟩

private theorem Shrinks.trans {a b d : Option VersionDir} (hab : Shrinks a b) (hbd : Shrinks b d) :
    Shrinks a d := by
  have hfile : ∀ {α : Type} {x y z : Option α}, (z = y ∨ z = none) → (y = x ∨ y = none) →
      z = x ∨ z = none := by
    rintro α x y z (rfl | rfl) hy
    · exact hy
    · exact .inr rfl
  intro dir hdir
  obtain ⟨mid, hmid, hdata, hmeta⟩ := hbd dir hdir
  obtain ⟨old, hold, hmiddata, hmidmeta⟩ := hab mid hmid
  exact ⟨old, hold, hfile hdata hmiddata, hfile hmeta hmidmeta⟩

private theorem shrinks_leaves (removal : Removal) (dir : Option VersionDir) :
    Shrinks dir (dir.bind removal.leaves) := by
  intro left hleft
  obtain ⟨old, hold, hleaves⟩ := Option.bind_eq_some_iff.mp hleft
  refine ⟨old, hold, ?_⟩
  cases removal with
  | complete => cases hleaves
  | stopped data info =>
    cases hleaves
    cases data <;> cases info <;> simp

private theorem applied_snoc {x : World × Move} : Applied (past ++ [x]) i ↔ Applied past i ∨ Applies i x := by
  simp [Applied, or_and_right, exists_or]

private theorem Applied.snoc (h : Applied past i) (x : World × Move) : Applied (past ++ [x]) i :=
  applied_snoc.mpr (.inl h)

/-- A commit that is executed is the first message of its task. -/
theorem Applies.head (h : Applies i (w, move)) (hc : w.clients[i]? = some c) :
    ∃ r, c.queue.head? = some r ∧ r.isCommit ∧ move = .serve i none := by
  obtain ⟨s, found, hash, ifMatch, version, objects, -, hfound, hmove, hhead, -⟩ := h
  obtain rfl := Option.some.inj (hc.symm.trans hfound)
  exact ⟨_, hhead, rfl, hmove⟩

private theorem AppliedAs.snoc (h : AppliedAs sha256 past i c) (x : World × Move)
    (hinfo : c'.info sha256 = c.info sha256) : AppliedAs sha256 (past ++ [x]) i c' := by
  obtain ⟨y, hy, happlies, c₀, hc₀, hended, hsame⟩ := h
  exact ⟨y, List.mem_append_left _ hy, happlies, c₀, hc₀, hended, hsame.trans hinfo.symm⟩

private theorem Saw.congr {x : World × Move} {info : Meta} (h : Saw sha256 i c version info x)
    (hop : c'.op = c.op) : Saw sha256 i c' version info x := by
  unfold Saw at *
  rwa [hop]

private theorem Excused.snoc {reason : Reason} (h : Excused sha256 past i c reason) (x : World × Move)
    (hop : c'.op = c.op) : Excused sha256 (past ++ [x]) i c' reason := by
  constructor
  · intro hreason
    obtain ⟨y, hy, hrunning, hrefused⟩ := h.1 hreason
    exact ⟨y, List.mem_append_left _ hy, hrunning, by rwa [hop]⟩
  · intro hreason
    obtain ⟨y, hy, hrunning, hmissed⟩ := h.2 hreason
    exact ⟨y, List.mem_append_left _ hy, hrunning, by rwa [hop]⟩

/-- What an outcome means stays true. -/
theorem Justified.snoc {outcome : Outcome} (h : Justified sha256 past i c outcome) (x : World × Move)
    (hop : c'.op = c.op) (hinfo : (∃ etag, outcome = .put etag) → c'.info sha256 = c.info sha256) :
    Justified sha256 (past ++ [x]) i c' outcome := by
  cases outcome with
  | put etag =>
    have hsame := hinfo ⟨etag, rfl⟩
    exact ⟨h.1.snoc x hsame, h.2.trans (by rw [hsame])⟩
  | head info =>
    obtain ⟨y, hy, version, hsaw⟩ := h
    exact ⟨y, List.mem_append_left _ hy, version, hsaw.congr hop⟩
  | got etag metadata content =>
    obtain ⟨y, hy, version, info, hsaw, hrest⟩ := h
    refine ⟨y, List.mem_append_left _ hy, version, info, hsaw.congr hop, ?_⟩
    rwa [hop]
  | error reason => exact Excused.snoc h x hop

/-! ### What a step leaves alone -/

private theorem OwnDir.unpublished {dir : Option VersionDir} (h : OwnDir sha256 w i move c c' version dir) :
    c.unpublished := by
  cases h <;> simp [Client.unpublished, *]

/-- The version of such a step is that of the task, or no task has it yet. -/
theorem OwnDir.version_eq {dir : Option VersionDir} (h : OwnDir sha256 w i move c c' version dir) :
    c.version = some version ∨ ∀ c ∈ w.clients, c.version ≠ some version := by
  cases h with
  | create hphase hvalid hnone hfresh => exact .inr hfresh
  | openData hphase hversion | write chunk hphase hversion | writeMeta hphase hversion
  | discard removal hphase hversion => exact .inl hversion

/-- A published version is a committed one. -/
theorem Published.committed (h : Published sha256 past w hash version) :
    Committed sha256 past w hash version := by
  obtain ⟨i, c, dir, x, hc, hversion, hhash, hx, happlies, -⟩ := h
  exact ⟨i, c, hc, hversion, hhash, x, hx, happlies⟩

private theorem OwnDir.version_self {dir : Option VersionDir} (h : OwnDir sha256 w i move c c' version dir) :
    c'.version = some version := by
  cases h with
  | create => rfl
  | openData hphase hversion | write chunk hphase hversion | writeMeta hphase hversion
  | discard removal hphase hversion => exact hversion

private theorem OwnDir.version_unique {version' : Bytes} {dir : Option VersionDir} (hq : Queued sha256 i c)
    (h : OwnDir sha256 w i move c c' version' dir) (hversion : c.version = some version) :
    version' = version := by
  cases h with
  | create hphase =>
    have := hq.unnamed (by simp [hphase, Phase.unnamed])
    rw [hversion] at this
    cases this
  | openData hphase hc | write chunk hphase hc | writeMeta hphase hc | discard removal hphase hc =>
    exact Option.some.inj (hc.symm.trans hversion)

private theorem request_eq_pin (h : c.request sha256 i = some (.pin hash)) :
    (∃ n, c.phase = .pinning n) ∧ hash = c.op.hash sha256 := by
  unfold Client.request at h
  split at h
  all_goals simp only [Option.some.injEq, Option.map_eq_some_iff, reduceCtorEq, and_false,
    exists_false] at h
  next n hphase =>
    cases h
    exact ⟨⟨n, hphase⟩, rfl⟩

private theorem request_eq_commit {ifMatch : Option Bytes}
    (h : c.request sha256 i = some (.commit hash ifMatch version)) :
    c.phase = .committing ∧ hash = c.op.hash sha256 ∧ ifMatch = c.op.ifMatch := by
  unfold Client.request at h
  split at h
  all_goals simp only [Option.some.injEq, Option.map_eq_some_iff, reduceCtorEq, and_false,
    exists_false] at h
  next hphase =>
    obtain ⟨version', -, hcommit⟩ := h
    cases hcommit
    exact ⟨hphase, rfl, rfl⟩

/-- A task that reads a reply counts as unpublished if it did before, or its commit was refused. -/
theorem unpublished_of_resume {reply : Reply} (h : (c.resume sha256 reply).unpublished) :
    c.unpublished ∨ c.phase = .committing ∧ ((∃ version info, reply = .pinned version info) ∨
      ∃ reason, reply = .error reason ∧ reason.isTransport = false) := by
  cases reply with
  | ok =>
    left
    revert h
    unfold Client.unpublished Client.resume Client.next
    cases c.phase <;> simp [Outcome.unpublished]
  | pinned version info =>
    by_cases hphase : c.phase = .committing
    · exact .inr ⟨hphase, .inl ⟨version, info, rfl⟩⟩
    · left
      revert h hphase
      unfold Client.unpublished Client.resume Client.next
      cases c.phase <;> simp
  | error reason =>
    cases htransport : reason.isTransport with
    | true =>
      obtain ⟨transport, rfl⟩ : ∃ transport, reason = .transport transport := by
        cases reason <;> simp_all [Reason.isTransport]
      exact .inl (resume_unpublished h)
    | false =>
      by_cases hphase : c.phase = .committing
      · exact .inr ⟨hphase, .inr ⟨reason, rfl, htransport⟩⟩
      · left
        revert h hphase
        unfold Client.unpublished Client.resume Client.next
        cases c.phase <;> simp

/-- A task counts as unpublished if it did before, or its commit was refused. -/
theorem Local.fresh (hq : Queued sha256 i c) (h : Local sha256 w i move c c')
    (hfresh : c'.unpublished ∨ ∃ r ∈ c'.queue, r.isCommit) :
    (c.unpublished ∨ ∃ r ∈ c.queue, r.isCommit) ∨
      c.phase = .committing ∧ ∃ reply, c.wait = .answered reply ∧
        ((∃ version info, reply = .pinned version info) ∨
          ∃ reason, reply = .error reason ∧ reason.isTransport = false) := by
  cases h with
  | send hr hidle =>
    left
    rcases hfresh with hunpublished | ⟨r, hr', hcommit⟩
    · left
      revert hunpublished
      unfold Client.unpublished
      cases c.phase <;> simp
    · rcases List.mem_append.mp hr' with hr' | hr'
      · exact .inr ⟨r, hr', hcommit⟩
      · obtain rfl := List.mem_singleton.mp hr'
        exact .inl (by simp [Client.unpublished, (sent_request hq hr).2.1 hcommit, hidle])
  | refused =>
    left
    refine hfresh.imp_left fun hunpublished ↦ ?_
    revert hunpublished
    unfold Client.unpublished
    cases c.phase <;> simp
  | @receive _ reply hreply =>
    rcases hfresh with hunpublished | hcommit
    · rcases unpublished_of_resume hunpublished with hold | ⟨hphase, hcases⟩
      · exact .inl (.inl hold)
      · exact .inr ⟨hphase, reply, hreply, hcases⟩
    · exact .inl (.inr hcommit)
  | expire =>
    left
    exact hfresh.imp_left resume_unpublished
  | openFailed hphase | writeMetaFailed reason hphase | read hphase | readFailed hphase =>
    exact .inl (.inl (by simp [Client.unpublished, hphase]))
  | fail fault hfail =>
    unfold Client.fail at hfail
    split at hfail <;> cases hfail <;> exact .inl (.inl (by simp [Client.unpublished, *]))
  | kill =>
    left
    refine hfresh.imp_left fun hunpublished ↦ ?_
    simp [Client.unpublished] at hunpublished

private theorem next_drafting {reply : Reply} (h : (c.next sha256 reply).drafting) : c.phase.drafting := by
  revert h
  unfold Client.next
  split
  case h_10 => split <;> simp_all [Phase.drafting]
  all_goals simp_all [Phase.drafting]

private theorem next_filling {reply : Reply} (h : (c.resume sha256 reply).Filling) : c.Filling := by
  rcases h with hphase | hphase | hqueue
  · left
    revert hphase
    show c.next sha256 reply = .copying → _
    unfold Client.next
    split
    case h_10 => split <;> simp_all
    all_goals simp_all
  · right; left
    revert hphase
    show c.next sha256 reply = .committing → _
    unfold Client.next
    split
    case h_10 => split <;> simp_all
    all_goals simp_all
  · exact .inr (.inr hqueue)

/-- What a step of a task that leaves its version directory alone keeps. -/
theorem Local.keeps (hq : Queued sha256 i c) (h : Local sha256 w i move c c') :
    c'.written = c.written ∧ (c'.phase.drafting → c.phase.drafting) ∧ (c'.Filling → c.Filling) := by
  cases h with
  | send hr hidle =>
    refine ⟨rfl, id, ?_⟩
    rintro (hphase | hphase | ⟨r, hr', hcommit⟩)
    · exact .inl hphase
    · exact .inr (.inl hphase)
    · rcases List.mem_append.mp hr' with hr' | hr'
      · exact .inr (.inr ⟨r, hr', hcommit⟩)
      · obtain rfl := List.mem_singleton.mp hr'
        exact .inr (.inl ((sent_request hq hr).2.1 hcommit))
  | refused => exact ⟨rfl, id, id⟩
  | receive | expire => exact ⟨rfl, next_drafting, next_filling⟩
  | openFailed | writeMetaFailed | readFailed | kill =>
    refine ⟨rfl, by simp [Phase.drafting], ?_⟩
    rintro (hphase | hphase | hqueue)
    · cases hphase
    · cases hphase
    · exact .inr (.inr hqueue)
  | read =>
    unfold Client.copied
    split
    all_goals
      refine ⟨rfl, by simp [Phase.drafting], ?_⟩
      rintro (hphase | hphase | hqueue)
      · cases hphase
      · cases hphase
      · exact .inr (.inr hqueue)
  | fail fault hfail =>
    unfold Client.fail at hfail
    split at hfail <;> cases hfail
    all_goals
      refine ⟨rfl, by simp [Phase.drafting], ?_⟩
      rintro (hphase | hphase | hqueue)
      · cases hphase
      · cases hphase
      · exact .inr (.inr hqueue)

/-- So does every change of a task that is not one of its version directory. -/
theorem Change.keeps (hq : Queued sha256 i c) (h : Change sha256 w w' i move c c') :
    (c'.written = c.written ∧ (c'.phase.drafting → c.phase.drafting) ∧ (c'.Filling → c.Filling)) ∨
      ∃ version, OwnDir sha256 w i move c c' version
        ((w'.objects (c.op.hash sha256)).versions version) := by
  cases h with
  | none => exact .inl ⟨rfl, id, id⟩
  | task h => exact .inl (h.keeps hq)
  | ownDir hown hdir => exact .inr ⟨_, hdir ▸ hown⟩
  | served =>
    refine .inl ⟨rfl, id, ?_⟩
    rintro (hphase | hphase | ⟨r, hr, hcommit⟩)
    · exact .inl hphase
    · exact .inr (.inl hphase)
    · exact .inr (.inr ⟨r, List.mem_of_mem_tail hr, hcommit⟩)
  | disconnect =>
    refine .inl ⟨rfl, id, ?_⟩
    rintro (hphase | hphase | ⟨r, hr, -⟩)
    · exact .inl hphase
    · exact .inr (.inl hphase)
    · cases hr

private theorem Written.keeps {dir : VersionDir} (h : Written sha256 c dir) (hop : c'.op = c.op)
    (hwritten : c'.written = c.written) (hdrafting : c'.phase.drafting → c.phase.drafting) :
    Written sha256 c' dir := by
  have hinfo : c'.info sha256 = c.info sha256 := by
    unfold Client.info
    rw [hop, hwritten]
  refine ⟨by rw [hwritten]; exact h.1, h.2.imp_right ?_⟩
  rintro ⟨hmeta, hphase⟩
  refine ⟨hmeta.trans (by rw [hinfo]), ?_⟩
  by_contra hne
  have := hdrafting (by simpa using hne)
  simp [hphase] at this

private theorem Written.leaves {dir left : VersionDir} {removal : Removal} (h : Written sha256 c dir)
    (hleft : removal.leaves dir = some left) : Written sha256 c left := by
  cases removal with
  | complete => cases hleft
  | stopped data info =>
    cases hleft
    refine ⟨?_, ?_⟩
    · cases data
      · exact h.1
      · exact .inl rfl
    · cases info
      · exact h.2
      · exact .inl rfl

/-- A task writes its own files. -/
theorem OwnDir.written {dir : Option VersionDir} {new : VersionDir}
    (h : OwnDir sha256 w i move c c' version dir) (hnew : dir = some new)
    (hold : ∀ old, w.dir sha256 c version = some old → Written sha256 c old) :
    Written sha256 c' new := by
  cases h with
  | create =>
    cases hnew
    exact ⟨.inl rfl, .inl rfl⟩
  | openData hphase hversion hdir =>
    cases hnew
    obtain ⟨-, hmeta⟩ := hold _ hdir
    refine ⟨.inr rfl, .inl ?_⟩
    simpa [hphase, Phase.drafting] using hmeta
  | write chunk hphase =>
    obtain ⟨old, hdir, rfl⟩ := Option.map_eq_some_iff.mp hnew
    obtain ⟨hdata, hmeta⟩ := hold old hdir
    refine ⟨?_, .inl ?_⟩
    · rcases hdata with hdata | hdata
      · exact .inl (by simp [hdata])
      · exact .inr (by simp [hdata])
    · simpa [hphase, Phase.drafting] using hmeta
  | writeMeta hphase hversion hdir =>
    cases hnew
    obtain ⟨hdata, -⟩ := hold _ hdir
    exact ⟨hdata, .inr ⟨rfl, rfl⟩⟩
  | discard removal hphase =>
    obtain ⟨old, hdir, hleaves⟩ := Option.bind_eq_some_iff.mp hnew
    exact ((hold old hdir).leaves hleaves).keeps rfl rfl (by simp [Phase.drafting])

/-- A task that fills its version directory has its bytes there. -/
theorem OwnDir.filled {dir : Option VersionDir} (hq : Queued sha256 i c)
    (h : OwnDir sha256 w i move c c' version dir) (hfilling : c'.Filling)
    (hold : c.Filling → ∃ old, w.dir sha256 c version = some old ∧ old.data = some c.written) :
    ∃ new, dir = some new ∧ new.data = some c'.written := by
  cases h with
  | create hphase =>
    rcases hfilling with hphase' | hphase' | ⟨r, hr, hcommit⟩
    · cases hphase'
    · cases hphase'
    · simp [hq.unpublished (by simp [hphase, Client.unpublished]) r hr] at hcommit
  | openData => exact ⟨_, rfl, rfl⟩
  | write chunk hphase =>
    obtain ⟨old, hdir, hdata⟩ := hold (.inl hphase)
    exact ⟨_, by rw [hdir]; rfl, by simp [hdata]⟩
  | writeMeta hphase hversion hdir =>
    obtain ⟨old, hdir', hdata⟩ := hold (.inl hphase)
    obtain rfl := Option.some.inj (hdir.symm.trans hdir')
    exact ⟨_, rfl, hdata⟩
  | discard removal hphase =>
    rcases hfilling with hphase' | hphase' | ⟨r, hr, hcommit⟩
    · cases hphase'
    · cases hphase'
    · simp [hq.unpublished (by simp [hphase, Client.unpublished]) r hr] at hcommit

section

variable (hinv : Inv sha256 past w)
include hinv

/-- A version directory that its own task changes is not that of an executed commit. -/
theorem Inv.not_ownDir {dir : Option VersionDir} {d d' : Client}
    (hcommitted : Committed sha256 past w hash version) (hd : w.clients[j]? = some d) :
    ¬ OwnDir sha256 w j move d d' version dir := by
  intro hown
  obtain ⟨i, c, hc, hversion, -, happlied⟩ := hcommitted
  rcases hown.version_eq with hsame | hfresh
  · obtain rfl := hinv.distinct i j c d version hc hd hversion hsame
    exact (hinv.sound i d hd).fresh (.inl hown.unpublished) happlied
  · exact hfresh c (List.mem_of_getElem? hc) hversion

/-- A task whose commit was executed is no longer unpublished. -/
theorem Inv.unpublished_of_applied (hc : w.clients[i]? = some c) (happlied : Applied past i) :
    c.unpublished = false := by
  by_contra hunpublished
  exact (hinv.sound i c hc).fresh (.inl (by simpa using hunpublished)) happlied

variable (hstep : Step sha256 w move w')
include hstep

private theorem Inv.committed_step (h : Committed sha256 past w hash version) :
    Committed sha256 (past ++ [(w, move)]) w' hash version := by
  obtain ⟨i, c, hc, hversion, hhash, happlied⟩ := h
  obtain ⟨c', hc', hchange⟩ := hstep.client hc
  have hsound := hinv.sound i c hc
  exact ⟨i, c', hc', hchange.keeps_version hsound.queued hversion, by rw [hchange.op, hhash],
    happlied.snoc _⟩

private theorem Inv.shrinks (h : Committed sha256 past w hash version) :
    Shrinks ((w.objects hash).versions version) ((w'.objects hash).versions version) := by
  rcases hstep.versions hash version with hsame |
    ⟨j, d, d', hd, -, -, hown⟩ | ⟨s, removal, -, -, -, -, -, hleaves⟩
  · rw [hsame]
    exact .refl _
  · exact absurd hown (hinv.not_ownDir h hd)
  · rw [hleaves]
    exact shrinks_leaves _ _

/-- A version that is current or pinned stays as it is. -/
theorem Inv.version_same (h : Committed sha256 past w hash version)
    (hused : (w.objects hash).current = some version ∨ ∃ s, w.server = some s ∧ s.Pins version) :
    (w'.objects hash).versions version = (w.objects hash).versions version := by
  rcases hstep.versions hash version with hsame | ⟨j, d, d', hd, -, -, hown⟩ |
    ⟨s, removal, hs, -, hcurrent, hpins, -⟩
  · exact hsame
  · exact absurd hown (hinv.not_ownDir h hd)
  · rcases hused with hcur | ⟨s', hs', hpinned⟩
    · exact absurd hcur hcurrent
    · obtain rfl := Option.some.inj (hs.symm.trans hs')
      exact absurd hpinned hpins

/-- A published version stays while it is current or pinned. -/
theorem Inv.published_step (h : Published sha256 past w hash version)
    (hused : (w.objects hash).current = some version ∨ ∃ s, w.server = some s ∧ s.Pins version) :
    Published sha256 (past ++ [(w, move)]) w' hash version := by
  have hsame := hinv.version_same hstep h.committed hused
  obtain ⟨i, c, dir, x, hc, hversion, hhash, hx, happlies, hbefore, hdir, hmeta, hvalid, hpointer⟩ := h
  obtain ⟨c', hc', hchange⟩ := hstep.client hc
  have hsound := hinv.sound i c hc
  have hinfo : c'.info sha256 = c.info sha256 :=
    hchange.info (hinv.unpublished_of_applied hc ⟨x, hx, happlies⟩)
  exact ⟨i, c', dir, x, hc', hchange.keeps_version hsound.queued hversion, by rw [hchange.op, hhash],
    List.mem_append_left _ hx, happlies, hbefore, hsame.trans hdir, by rw [hinfo, hmeta],
    by rw [hinfo]; exact hvalid, hpointer⟩

/-! ### Each part of the invariant -/

private theorem Inv.distinct_step : ∀ (i j : ℕ) (c c' : Client) (version : Bytes), w'.clients[i]? = some c →
    w'.clients[j]? = some c' → c.version = some version → c'.version = some version → i = j := by
  intro i j c' d' version hc' hd' hcversion hdversion
  rcases hstep.client_of hc' with ⟨c, hc, hchangec⟩ | ⟨-, op, rfl⟩
  · rcases hstep.client_of hd' with ⟨d, hd, hchanged⟩ | ⟨-, op, rfl⟩
    · rcases hchangec.version_of hcversion with hcold | ⟨hcmove, hcfresh⟩
      · rcases hchanged.version_of hdversion with hdold | ⟨-, hdfresh⟩
        · exact hinv.distinct i j c d version hc hd hcold hdold
        · exact absurd hcold (hdfresh c (List.mem_of_getElem? hc))
      · rcases hchanged.version_of hdversion with hdold | ⟨hdmove, -⟩
        · exact absurd hdold (hcfresh d (List.mem_of_getElem? hd))
        · cases hcmove.symm.trans hdmove
          rfl
    · cases op <;> cases hdversion
  · cases op <;> cases hcversion

private theorem Inv.current_step (hcurrent : (w'.objects hash).current = some version) :
    Published sha256 (past ++ [(w, move)]) w' hash version := by
  rcases hstep.current hash with hsame | ⟨i, c, s, ifMatch, version', hc, hs, rfl, hhead, hcommit, hset⟩
  · have hold := hsame.symm.trans hcurrent
    exact hinv.published_step hstep (hinv.current hash version hold) (.inl hold)
  · obtain rfl := Option.some.inj (hcurrent.symm.trans hset)
    obtain ⟨hpointer, ⟨info, hmeta⟩, -, hobjects⟩ := commit_eq_ok hcommit
    obtain ⟨hfile, hvalid⟩ := readMeta_eq_ok hmeta
    obtain ⟨dir, hdir, hinfo⟩ := Option.bind_eq_some_iff.mp hfile
    have hsound := hinv.sound i c hc
    have hmem : Request.commit hash ifMatch version ∈ c.queue := List.mem_of_mem_head? hhead
    obtain ⟨-, hhash, -, hversion⟩ := hsound.queued.sent _ hmem
    have hunpublished : c.unpublished = false := by
      by_contra hne
      have := hsound.queued.unpublished (by simpa using hne) _ hmem
      simp [Request.isCommit] at this
    obtain ⟨c', hc', hchange⟩ := hstep.client hc
    have hsameinfo := hchange.info hunpublished
    -- the `meta` file is that of the task that created the version
    obtain ⟨j, d, hd, hdversion, -, -, hdmeta⟩ := hinv.owned hash version dir hdir
    obtain rfl := hinv.distinct i j c d version hc hd hversion hdversion
    obtain rfl := Option.some.inj (hc.symm.trans hd)
    have hfull : dir.metaFile = some (c.info sha256) := by
      rcases hdmeta with hnone | ⟨hsome, -⟩
      · rw [hnone] at hinfo
        cases hinfo
      · exact hsome
    obtain rfl := Option.some.inj (hinfo.symm.trans hfull)
    refine ⟨i, c', dir, (w, .serve i none), hc', hchange.keeps_version hsound.queued hversion,
      by rw [hchange.op, hhash], by simp, ⟨s, c, hash, ifMatch, version, w'.objects, hs, hc, rfl, hhead,
        hcommit⟩, hdir, ?_, by rw [hsameinfo, hfull], by rw [hsameinfo]; exact hvalid, hpointer⟩
    rw [hobjects, Function.update_self]
    exact hdir

private theorem Inv.pinned_step {s' : Server} (hs' : w'.server = some s') (hpins : s'.Pins version) :
    ∃ hash, Published sha256 (past ++ [(w, move)]) w' hash version := by
  rcases hstep.pins hs' hpins with ⟨s, hs, hpins⟩ | ⟨hash, info, hread⟩
  · obtain ⟨hash, hpublished⟩ := hinv.pinned s version hs hpins
    exact ⟨hash, hinv.published_step hstep hpublished (.inr ⟨s, hs, hpins⟩)⟩
  · obtain ⟨hcurrent, -, -⟩ := readCurrent_eq_ok hread
    exact ⟨hash, hinv.published_step hstep (hinv.current hash version hcurrent) (.inl hcurrent)⟩

private theorem Inv.owned_step {new : VersionDir} (hnew : (w'.objects hash).versions version = some new) :
    ∃ (i : ℕ) (c : Client), w'.clients[i]? = some c ∧ c.version = some version ∧
      c.op.hash sha256 = hash ∧ Written sha256 c new := by
  -- what the task of a version leaves when the step is not one of its own directory
  have hkept : ∀ old, (w.objects hash).versions version = some old →
      (∀ c, Written sha256 c old → Written sha256 c new) →
      ∃ (i : ℕ) (c : Client), w'.clients[i]? = some c ∧ c.version = some version ∧
        c.op.hash sha256 = hash ∧ Written sha256 c new := by
    intro old hold hleaves
    obtain ⟨i, c, hc, hversion, hhash, hwritten⟩ := hinv.owned hash version old hold
    have hq := (hinv.sound i c hc).queued
    obtain ⟨c', hc', hchange⟩ := hstep.client hc
    have hversion' := hchange.keeps_version hq hversion
    refine ⟨i, c', hc', hversion', by rw [hchange.op, hhash], ?_⟩
    rcases hchange.keeps hq with ⟨hsame, hdrafting, -⟩ | ⟨version', hown⟩
    · exact (hleaves c hwritten).keeps hchange.op hsame hdrafting
    · obtain rfl := hown.version_unique hq hversion
      refine hown.written (hhash ▸ hnew) fun old' hold' ↦ ?_
      rw [World.dir, hhash, hold] at hold'
      exact Option.some.inj hold' ▸ hwritten
  rcases hstep.versions hash version with hsame | ⟨i, c, c', hc, hc', rfl, hown⟩ |
    ⟨s, removal, -, -, -, -, -, hleaves⟩
  · exact hkept new (hsame.symm.trans hnew) fun _ hwritten ↦ hwritten
  · have hq := (hinv.sound i c hc).queued
    refine ⟨i, c', hc', hown.version_self, by rw [hown.op], hown.written hnew fun old hold ↦ ?_⟩
    obtain ⟨j, d, hd, hversion, -, hwritten⟩ := hinv.owned _ version old hold
    rcases hown.version_eq with heq | hfresh
    · obtain rfl := hinv.distinct i j c d version hc hd heq hversion
      obtain rfl := Option.some.inj (hc.symm.trans hd)
      exact hwritten
    · exact absurd hversion (hfresh d (List.mem_of_getElem? hd))
  · obtain ⟨old, hold, hleft⟩ := Option.bind_eq_some_iff.mp (hleaves.symm.trans hnew)
    exact hkept old hold fun _ hwritten ↦ hwritten.leaves hleft

private theorem Inv.claimed_step {s' : Server} {ref : ℕ} (hs' : w'.server = some s')
    (hclaims : s'.Claims ref version) :
    ∃ c, w'.clients[ref]? = some c ∧ c.version = some version ∧
      (c.Filling → ∃ dir, w'.dir sha256 c version = some dir ∧ dir.data = some c.written) := by
  rcases hstep.claims hs' hclaims with ⟨s, hs, hclaims⟩ | ⟨i, c, fault, hc, rfl, hhead⟩
  · obtain ⟨c, hc, hversion, hfilled⟩ := hinv.claimed s ref version hs hclaims
    have hq := (hinv.sound ref c hc).queued
    obtain ⟨c', hc', hchange⟩ := hstep.client hc
    refine ⟨c', hc', hchange.keeps_version hq hversion, fun hfilling ↦ ?_⟩
    unfold World.dir
    rw [hchange.op]
    have hown : ∀ d', w'.clients[ref]? = some d' →
        OwnDir sha256 w ref move c d' version ((w'.objects (c.op.hash sha256)).versions version) →
        ∃ dir, (w'.objects (c.op.hash sha256)).versions version = some dir ∧
          dir.data = some c'.written := by
      intro d' hd' hown
      obtain rfl := Option.some.inj (hc'.symm.trans hd')
      exact hown.filled hq hfilling hfilled
    rcases hchange.keeps hq with ⟨hsame, -, hkeeps⟩ | ⟨version', hown'⟩
    · obtain ⟨dir, hdir, hdata⟩ := hfilled (hkeeps hfilling)
      rcases hstep.versions (c.op.hash sha256) version with hdirs | ⟨j, d, d', hd, hd', -, hown'⟩ |
        ⟨s', removal, hs'', -, -, -, hunclaimed, -⟩
      · exact ⟨dir, hdirs.trans hdir, by rw [hsame, hdata]⟩
      · rcases hown'.version_eq with heq | hfresh
        · obtain rfl := hinv.distinct ref j c d version hc hd hversion heq
          obtain rfl := Option.some.inj (hc.symm.trans hd)
          exact hown d' hd' hown'
        · exact absurd hversion (hfresh c (List.mem_of_getElem? hc))
      · obtain rfl := Option.some.inj (hs.symm.trans hs'')
        exact absurd hclaims (hunclaimed ref)
    · obtain rfl := hown'.version_unique hq hversion
      exact hown c' hc' hown'
  · have hq := (hinv.sound i c hc).queued
    have hmem := List.mem_of_mem_head? hhead
    obtain ⟨rfl, hversion⟩ := hq.sent _ hmem
    obtain ⟨c', hc', hchange⟩ := hstep.client hc
    refine ⟨c', hc', hchange.keeps_version hq hversion, fun hfilling ↦ ?_⟩
    have hfilling' : c.Filling := by
      rcases hchange.keeps hq with ⟨-, -, hkeeps⟩ | ⟨version', hown⟩
      · exact hkeeps hfilling
      · cases hown
    -- a task whose claim is under way neither writes nor commits
    have hclaim : Request.isClaim (.claim ref version) = false := by
      refine hq.claims ?_ _ hmem
      rcases hfilling' with hphase | hphase | hcommit
      · exact .inl (by simp [hphase, Phase.claimed])
      · exact .inl (by simp [hphase, Phase.claimed])
      · exact .inr hcommit
    cases hclaim

omit hstep in
private theorem Inv.once_step :
    (past ++ [(w, move)]).Pairwise fun x y ↦ ∀ i, Applies i x → ¬ Applies i y := by
  refine List.pairwise_append.mpr ⟨hinv.once, List.pairwise_singleton _ _, ?_⟩
  intro x hx y hy i hxi hyi
  obtain rfl := List.mem_singleton.mp hy
  obtain ⟨s, c, hash, ifMatch, version, objects, -, hc, -, hhead, -⟩ := hyi
  exact (hinv.sound i c hc).fresh (.inr ⟨_, List.mem_of_mem_head? hhead, rfl⟩) ⟨x, hx, hxi⟩

omit hinv in
private theorem Inv.begun_step (hbegun : ∀ i, Applied past i → ∃ c : Client, w.clients[i]? = some c) :
    ∀ i, Applied (past ++ [(w, move)]) i → ∃ c : Client, w'.clients[i]? = some c := by
  intro i happlied
  have hold : ∃ c, w.clients[i]? = some c := by
    rcases applied_snoc.mp happlied with happlied | ⟨s, c, hash, ifMatch, version, objects, -, hc, -⟩
    · exact hbegun i happlied
    · exact ⟨c, hc⟩
  obtain ⟨c, hc⟩ := hold
  obtain ⟨c', hc', -⟩ := hstep.client hc
  exact ⟨c', hc'⟩

private theorem Inv.seen_step {info : Meta} (h : Seen sha256 past w i c version info) (hop : c'.op = c.op) :
    Seen sha256 (past ++ [(w, move)]) w' i c' version info := by
  obtain ⟨hcommitted, x, hx, hsaw, hshrinks⟩ := h
  unfold Seen
  rw [hop]
  exact ⟨hinv.committed_step hstep hcommitted, x, List.mem_append_left _ hx, hsaw.congr hop,
    hshrinks.trans (hinv.shrinks hstep hcommitted)⟩

/-- What a reply means stays true while it is not read. -/
theorem Inv.told_step {reply : Reply} (h : Told sha256 past w i c reply) (hop : c'.op = c.op)
    (hphase : c'.phase = c.phase) (hwritten : c'.written = c.written)
    (hnot : reply ≠ .error (.transport .closed) → ¬ Applies i (w, move)) :
    Told sha256 (past ++ [(w, move)]) w' i c' reply := by
  have hinfo : c'.info sha256 = c.info sha256 := by
    unfold Client.info
    rw [hop, hwritten]
  cases reply with
  | ok =>
    intro hcommitting
    exact (h (hphase ▸ hcommitting)).snoc _ hinfo
  | pinned version info =>
    obtain ⟨hpinning, hseen⟩ := h
    exact ⟨by rwa [hphase], hinv.seen_step hstep hseen hop⟩
  | error reason =>
    refine ⟨fun hother ↦ Excused.snoc (h.1 (by rwa [← hphase])) _ hop, fun hcommitting htransport ↦ ?_⟩
    rw [applied_snoc, not_or]
    refine ⟨h.2 (hphase ▸ hcommitting) htransport, hnot ?_⟩
    rintro hclosed
    cases hclosed
    cases htransport

/-- What the server replies to the call of a task. -/
theorem Inv.told_answer {s : Server} {r : Request} {fault : Option AdapterReason} (hs : w.server = some s)
    (hc : w.clients[i]? = some c) (hr : c.request sha256 i = some r) (hmove : move = .serve i fault)
    (hhead : c.queue.head? = some r) (hop : c'.op = c.op) (hphase : c'.phase = c.phase)
    (hwritten : c'.written = c.written) :
    Told sha256 (past ++ [(w, move)]) w' i c' (s.answer w.objects i w.nextMonitor r fault).1 := by
  have hsound := hinv.sound i c hc
  have hended : ¬ c.Ended := by
    rintro (hkilled | ⟨outcome, hreturned⟩)
    · simp [Client.request, hkilled] at hr
    · simp [Client.request, hreturned] at hr
  have hrunning : w.Running i := ⟨c, hc, hended⟩
  have hlast : ((w, move) : World × Move) ∈ past ++ [(w, move)] := by simp
  cases hreply : (s.answer w.objects i w.nextMonitor r fault).1 with
  | ok =>
    intro hcommitting
    rw [hphase] at hcommitting
    simp only [Client.request, hcommitting, Option.map_eq_some_iff] at hr
    obtain ⟨version, hversion, rfl⟩ := hr
    obtain ⟨rfl, objects', hcommit⟩ := Server.commit_of_reply hreply
    refine ⟨_, hlast, ⟨s, c, _, _, version, objects', hs, hc, hmove, hhead, hcommit⟩, c, hc,
      hended, ?_⟩
    unfold Client.info
    rw [hop, hwritten]
  | pinned version info =>
    obtain ⟨hash, rfl, hread⟩ := Server.reply_eq_pinned hreply
    obtain ⟨hpinning, rfl⟩ := request_eq_pin hr
    obtain ⟨hcurrent, -, -⟩ := readCurrent_eq_ok hread
    have hcommitted := (hinv.current _ version hcurrent).committed
    refine ⟨by rwa [hphase], ?_⟩
    unfold Seen Saw
    rw [hop]
    exact ⟨hinv.committed_step hstep hcommitted, _, hlast, ⟨hrunning, hread⟩,
      hinv.shrinks hstep hcommitted⟩
  | error reason =>
    refine ⟨fun _ ↦ ⟨?_, ?_⟩, fun hcommitting htransport ↦ ?_⟩
    · rintro rfl
      rcases Server.reply_eq_error hreply with ⟨r, hreason⟩ | ⟨hash, -, hreason, -⟩ |
        ⟨hash, ifMatch, version, current, rfl, -, hcurrent, hmatch⟩
      · cases hreason
      · cases hreason
      · obtain ⟨-, rfl, rfl⟩ := request_eq_commit hr
        exact ⟨_, hlast, hrunning, current, by rw [hop]; exact hcurrent, by rwa [hop]⟩
    · rintro rfl
      rcases Server.reply_eq_error hreply with ⟨r, hreason⟩ | ⟨hash, rfl, -, hcurrent⟩ |
        ⟨hash, ifMatch, version, current, -, hreason, -⟩
      · cases hreason
      · obtain ⟨-, rfl⟩ := request_eq_pin hr
        exact ⟨_, hlast, hrunning, by rw [hop]; exact hcurrent⟩
      · cases hreason
    · have hmem := List.mem_of_mem_head? hhead
      rw [hphase] at hcommitting
      have hcommit : r.isCommit := by
        simp only [Client.request, hcommitting, Option.map_eq_some_iff] at hr
        obtain ⟨version, -, rfl⟩ := hr
        rfl
      rw [applied_snoc, not_or]
      refine ⟨hsound.fresh (.inr ⟨r, hmem, hcommit⟩), ?_⟩
      rintro ⟨s', c'', hash, ifMatch, version, objects', hs', hc'', hmove', hhead', hok⟩
      obtain rfl := Option.some.inj (hs.symm.trans hs')
      obtain rfl := Option.some.inj (hc.symm.trans hc'')
      obtain rfl := Option.some.inj (hhead.symm.trans hhead')
      cases hmove.symm.trans hmove'
      rw [Server.reply_of_commit hok] at hreply
      cases hreply

omit hstep in
/-- A task that has not sent its commit, or whose commit is under way or was refused, is not published. -/
theorem Inv.fresh_step (hc : w.clients[i]? = some c) (hchange : Change sha256 w w' i move c c')
    (hfresh : c'.unpublished ∨ ∃ r ∈ c'.queue, r.isCommit) : ¬ Applied (past ++ [(w, move)]) i := by
  have hsound := hinv.sound i c hc
  rw [applied_snoc, not_or]
  constructor
  · intro happlied
    have hpublished : ¬ (c.unpublished ∨ ∃ r ∈ c.queue, r.isCommit) := fun h ↦ hsound.fresh h happlied
    rw [not_or] at hpublished
    cases hchange with
    | none => exact hsound.fresh hfresh happlied
    | ownDir hown => exact hpublished.1 hown.unpublished
    | served =>
      rcases hfresh with hunpublished | ⟨r, hr, hcommit⟩
      · exact hpublished.1 (unpublished_of_served hunpublished)
      · exact hpublished.2 ⟨r, List.mem_of_mem_tail hr, hcommit⟩
    | disconnect =>
      rcases hfresh with hunpublished | ⟨r, hr, -⟩
      · exact hpublished.1 (unpublished_of_disconnect hunpublished)
      · cases hr
    | task h =>
      rcases h.fresh hsound.queued hfresh with hold | ⟨hphase, reply, hreply, hcases⟩
      · exact hsound.fresh hold happlied
      · have htold := hsound.told reply hreply
        rcases hcases with ⟨version, info, rfl⟩ | ⟨reason, rfl, htransport⟩
        · obtain ⟨n, hpinning⟩ := htold.1
          simp [hphase] at hpinning
        · exact htold.2 hphase htransport happlied
  · rintro ⟨s, d, hash, ifMatch, version, objects, hs, hd, hmove, hhead, hok⟩
    obtain rfl := Option.some.inj (hc.symm.trans hd)
    have hmem := List.mem_of_mem_head? hhead
    have hpublished : c.unpublished = false := by
      by_contra hne
      have := hsound.queued.unpublished (by simpa using hne) _ hmem
      simp [Request.isCommit] at this
    cases hchange with
    | none hnot => exact hnot none hmove
    | task h => exact h.not_serve i none hmove
    | ownDir h => exact h.not_serve i none hmove
    | disconnect hstop => rcases hstop with hstop | hstop <;> cases hstop.symm.trans hmove
    | served =>
      rcases hfresh with hunpublished | ⟨r, hr, hcommit⟩
      · rw [unpublished_of_served hunpublished] at hpublished
        cases hpublished
      · -- a task has one commit only
        have hsingle := hsound.queued.single
        obtain ⟨rest, hqueue⟩ : ∃ rest, c.queue = .commit hash ifMatch version :: rest := by
          cases hqueue : c.queue with
          | nil => simp [hqueue] at hhead
          | cons first rest =>
            rw [hqueue] at hhead
            exact ⟨rest, by rw [Option.some.inj hhead]⟩
        have hrest : r ∈ rest := by
          have : r ∈ c.queue.tail := hr
          rwa [hqueue] at this
        rw [hqueue, List.filter_cons_of_pos rfl, List.length_cons] at hsingle
        have hempty : rest.filter Request.isCommit = [] := List.eq_nil_of_length_eq_zero (by omega)
        have := List.filter_eq_nil_iff.mp hempty r hrest
        exact this hcommit

/-- What a reply that is not read yet means. -/
theorem Inv.told_change {reply : Reply} (hc : w.clients[i]? = some c)
    (hchange : Change sha256 w w' i move c c') (hreply : c'.wait = .answered reply) :
    Told sha256 (past ++ [(w, move)]) w' i c' reply := by
  have hsound := hinv.sound i c hc
  have hquiet : c.request sha256 i = none → c.wait ≠ .answered reply := by
    intro hrequest hwait
    rw [hsound.queued.quiet hrequest] at hwait
    cases hwait
  cases hchange with
  | none hnot =>
    refine hinv.told_step hstep (hsound.told reply hreply) rfl rfl rfl fun _ ↦ ?_
    rintro ⟨s, d, hash, ifMatch, version, objects, -, -, hmove, -⟩
    exact hnot none hmove
  | ownDir hown =>
    exfalso
    cases hown with
    | create hphase | openData hphase | write chunk hphase | writeMeta hphase | discard removal hphase =>
      exact hquiet (by simp [Client.request, hphase]) hreply
  | disconnect =>
    have hclosed : reply = .error (.transport .closed) := by
      unfold Client.disconnect at hreply
      dsimp only at hreply
      split at hreply
      · cases hreply
      · exact (Wait.answered.inj hreply).symm
    subst hclosed
    exact ⟨fun _ ↦ ⟨by simp, by simp⟩, by simp [Reason.isTransport]⟩
  | @served s r fault hs hhead hmove =>
    by_cases hlast : c.wait = .waiting ∧ c.queue.tail = []
    · have hr := hsound.queued.request_of_last hlast hhead
      have hanswer : reply = (s.answer w.objects i w.nextMonitor r fault).1 := by
        simp only [Client.served, hlast, and_self, if_true, Wait.answered.injEq] at hreply
        exact hreply.symm
      rw [hanswer]
      exact hinv.told_answer hstep hs hc hr hmove hhead rfl rfl rfl
    · have hold : c.wait = .answered reply := by
        simpa only [Client.served, hlast, if_false] using hreply
      refine hinv.told_step hstep (hsound.told reply hold) rfl rfl rfl fun hclosed ↦ ?_
      rw [hsound.queued.drained reply hold hclosed] at hhead
      cases hhead
  | task h =>
    cases h with
    | send | receive | expire | kill => cases hreply
    | refused =>
      cases hreply
      exact ⟨fun _ ↦ ⟨by simp, by simp⟩, by simp [Reason.isTransport]⟩
    | openFailed hphase | writeMetaFailed reason hphase | readFailed hphase =>
      exact absurd hreply (hquiet (by simp [Client.request, hphase]))
    | read hphase =>
      refine absurd ?_ (hquiet (by simp [Client.request, hphase]))
      unfold Client.copied at hreply
      split at hreply <;> exact hreply
    | fail fault hfail =>
      exfalso
      unfold Client.fail at hfail
      split at hfail <;> cases hfail
      case h_1 hphase hidle | h_2 hphase hidle => simp [hidle] at hreply
      all_goals
        rename_i hphase
        exact hquiet (by simp [Client.request, hphase]) hreply

omit hstep in
/-- What a task makes of a reply. -/
theorem Inv.outcome_resume {reply : Reply} (hc : w.clients[i]? = some c)
    (htold : Told sha256 past w i c reply) {outcome : Outcome}
    (houtcome : (c.next sha256 reply).outcome = some outcome) :
    Justified sha256 past i c outcome := by
  have hsound := hinv.sound i c hc
  revert houtcome
  unfold Client.next
  split
  case h_1 | h_2 | h_4 => intro h; cases h
  case h_3 hphase | h_5 hphase =>
    rintro ⟨⟩
    exact htold.1 (by simp [hphase])
  case h_6 hphase =>
    rintro ⟨⟩
    exact ⟨htold hphase, rfl⟩
  case h_7 hphase | h_8 hphase =>
    rintro ⟨⟩
    exact htold.1 (by simp [hphase])
  case h_9 hphase | h_13 hphase =>
    intro h
    exact hsound.outcome outcome (by rw [hphase]; exact h)
  case h_10 version info hphase =>
    split
    · intro h
      cases h
    · rintro ⟨⟩
      obtain ⟨-, -, x, hx, hsaw, -⟩ := htold
      exact ⟨x, hx, version, hsaw⟩
  case h_11 => intro h; cases h
  case h_12 hphase =>
    rintro ⟨⟩
    exact htold.1 (by simp [hphase])
  case h_14 => exact hsound.outcome outcome

/-- What the outcome of a task means. -/
theorem Inv.outcome_step (hc : w.clients[i]? = some c) (hchange : Change sha256 w w' i move c c')
    {outcome : Outcome} (houtcome : c'.phase.outcome = some outcome) :
    Justified sha256 (past ++ [(w, move)]) i c' outcome := by
  have hsound := hinv.sound i c hc
  -- a fault says nothing about the store
  have hadapter : ∀ reason, Justified sha256 (past ++ [(w, move)]) i c' (.error (.adapter reason)) :=
    fun reason ↦ ⟨by simp, by simp⟩
  have hresume : ∀ reply, Told sha256 past w i c reply → c' = c.resume sha256 reply →
      Justified sha256 (past ++ [(w, move)]) i c' outcome := by
    rintro reply htold rfl
    exact Justified.snoc (hinv.outcome_resume hc htold houtcome) _ rfl fun _ ↦ rfl
  cases hchange with
  | none | served | disconnect => exact Justified.snoc (hsound.outcome outcome houtcome) _ rfl fun _ ↦ rfl
  | ownDir hown =>
    cases hown with
    | create | openData | writeMeta => cases houtcome
    | write chunk hphase => simp [hphase, Phase.outcome] at houtcome
    | discard removal hphase =>
      exact Justified.snoc (hsound.outcome outcome (by rw [hphase]; exact houtcome)) _ rfl fun _ ↦ rfl
  | task h =>
    cases h with
    | send | refused => exact Justified.snoc (hsound.outcome outcome houtcome) _ rfl fun _ ↦ rfl
    | receive hreply => exact hresume _ (hsound.told _ hreply) rfl
    | expire =>
      refine hresume (.error (.transport .timeout)) ?_ rfl
      exact ⟨fun _ ↦ ⟨by simp, by simp⟩, by simp [Reason.isTransport]⟩
    | openFailed | writeMetaFailed | readFailed =>
      cases houtcome
      exact hadapter _
    | @read _ version info content hphase hpinned hcontent =>
      unfold Client.copied at houtcome hadapter ⊢
      split
      · next hsize =>
        rw [if_pos hsize] at houtcome
        cases houtcome
        obtain ⟨version', info', hpinned', -, x, hx, hsaw, hshrinks⟩ := hsound.reading hphase
        cases hpinned.symm.trans hpinned'
        refine ⟨x, List.mem_append_left _ hx, version, info, hsaw, rfl, rfl, hsize.symm, ?_⟩
        -- the bytes are those that were there when the version was pinned
        obtain ⟨dir, hdir, hdata⟩ := Option.bind_eq_some_iff.mp hcontent
        obtain ⟨old, hold, hsame | hnone, -⟩ := hshrinks dir hdir
        · exact Option.bind_eq_some_iff.mpr ⟨old, hold, hsame ▸ hdata⟩
        · rw [hnone] at hdata
          cases hdata
      · next hsize =>
        rw [if_neg hsize] at houtcome
        cases houtcome
        simpa only [if_neg hsize] using hadapter .shortBody
    | fail fault hfail =>
      unfold Client.fail at hfail
      split at hfail <;> cases hfail <;> cases houtcome <;> cases fault
      all_goals exact ⟨by simp [Fault.reason], by simp [Fault.reason]⟩
    | kill => cases houtcome

end

/-- A task comes to read only by the answer to its pin. -/
theorem next_reading {reply : Reply} (h : c.next sha256 reply = .reading) :
    c.phase = .reading ∨ ∃ version info, reply = .pinned version info := by
  revert h
  unfold Client.next
  split
  case h_10 version info hphase => exact fun _ ↦ .inr ⟨version, info, rfl⟩
  all_goals simp_all

section

variable (hinv : Inv sha256 past w) (hstep : Step sha256 w move w')
include hinv hstep

/-- What a task reads. -/
theorem Inv.reading_step (hc : w.clients[i]? = some c) (hchange : Change sha256 w w' i move c c')
    (hreading : c'.phase = .reading) :
    ∃ version info, c'.pinned = some (version, info) ∧
      Seen sha256 (past ++ [(w, move)]) w' i c' version info := by
  have hsound := hinv.sound i c hc
  have hkept : c.phase = .reading → c'.pinned = c.pinned → ∃ version info,
      c'.pinned = some (version, info) ∧ Seen sha256 (past ++ [(w, move)]) w' i c' version info := by
    intro hphase hsame
    obtain ⟨version, info, hpinned, hseen⟩ := hsound.reading hphase
    exact ⟨version, info, hsame.trans hpinned, hinv.seen_step hstep hseen hchange.op⟩
  cases hchange with
  | none | served | disconnect => exact hkept hreading rfl
  | ownDir hown =>
    cases hown with
    | create | openData | writeMeta | discard => cases hreading
    | write chunk hphase => cases hphase.symm.trans hreading
  | task h =>
    cases h with
    | send | refused => exact hkept hreading rfl
    | @receive _ reply hreply =>
      rcases next_reading hreading with hphase | ⟨version, info, rfl⟩
      · -- a task that reads its version makes no call
        have := hsound.queued.quiet (by simp [Client.request, hphase])
        rw [hreply] at this
        cases this
      · exact ⟨version, info, rfl, hinv.seen_step hstep (hsound.told _ hreply).2 rfl⟩
    | expire hrequest =>
      rcases next_reading hreading with hphase | ⟨version, info, hreply⟩
      · simp [Client.request, hphase] at hrequest
      · cases hreply
    | openFailed | writeMetaFailed | readFailed | kill => cases hreading
    | read =>
      unfold Client.copied at hreading
      split at hreading <;> cases hreading
    | fail fault hfail =>
      unfold Client.fail at hfail
      split at hfail <;> cases hfail <;> cases hreading

private theorem Inv.sound_step (hc' : w'.clients[i]? = some c') :
    Sound sha256 (past ++ [(w, move)]) w' i c' := by
  rcases hstep.client_of hc' with ⟨c, hc, hchange⟩ | ⟨hnone, op, rfl⟩
  · exact ⟨hchange.queued (hinv.sound i c hc).queued, hinv.fresh_step hc hchange,
      fun reply hreply ↦ hinv.told_change hstep hc hchange hreply,
      fun outcome houtcome ↦ hinv.outcome_step hstep hc hchange houtcome,
      fun hreading ↦ hinv.reading_step hstep hc hchange hreading⟩
  · refine ⟨queued_start op, fun _ happlied ↦ ?_, ?_, ?_, ?_⟩
    · rcases applied_snoc.mp happlied with happlied | ⟨s, c, hash, ifMatch, version, objects, -, hc, -⟩
      · obtain ⟨c, hc⟩ := hinv.begun i happlied
        rw [hnone] at hc
        cases hc
      · rw [hnone] at hc
        cases hc
    all_goals cases op <;> simp [Client.start, Phase.outcome]

/-- A step keeps the invariant. -/
theorem Inv.step : Inv sha256 (past ++ [(w, move)]) w' where
  distinct := hinv.distinct_step hstep
  owned _ _ _ := hinv.owned_step hstep
  sound _ _ := hinv.sound_step hstep
  current _ _ := hinv.current_step hstep
  pinned _ _ := hinv.pinned_step hstep
  claimed _ _ _ := hinv.claimed_step hstep
  begun := Inv.begun_step hstep hinv.begun
  once := hinv.once_step

end

/-- The invariant holds of the empty world. -/
theorem Inv.init : Inv sha256 [] {} := by
  constructor <;> simp [Applied]

/-- The invariant holds in every state of every run. -/
theorem inv_run (h : Trace (step sha256) {} past w) :
    Inv sha256 past w ∧ ∀ x ∈ past, ∃ before w', Inv sha256 before x.1 ∧ Step sha256 x.1 x.2 w' := by
  have hrun := h.along (P := fun _ _ ↦ True) Inv.init
    (fun hinv _ hmove ↦ hinv.step (step_cases hmove)) fun _ _ ↦ trivial
  refine ⟨hrun.1, fun x hx ↦ ?_⟩
  obtain ⟨before, w', hinv, hmove⟩ := hrun.2 x hx
  exact ⟨before, w', hinv, step_cases hmove⟩

end Gitility.LocalStore
