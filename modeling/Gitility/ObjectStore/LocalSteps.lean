import Mathlib.Data.Option.Basic
import Gitility.ObjectStore.Local

/-!
# Steps of a local object store

A step starts a task, changes one task, changes one task and the version directory that it created, or
is one of the server.
-/

namespace Gitility.LocalStore

variable {sha256 : Bytes → Bytes} {w w' : World} {i j : ℕ}

/-! ### The files -/

/-- A version directory is changed without the current pointer. -/
@[simp] theorem current_setVersion (objects : Objects) (hash version : Bytes) (dir : Option VersionDir)
    (hash' : Bytes) : (setVersion objects hash version dir hash').current = (objects hash').current := by
  unfold setVersion
  by_cases h : hash' = hash
  · subst h
    rw [Function.update_self]
  · rw [Function.update_of_ne h]

/-- The version directory that was set. -/
@[simp] theorem versions_setVersion_self (objects : Objects) (hash version : Bytes)
    (dir : Option VersionDir) : (setVersion objects hash version dir hash).versions version = dir := by
  simp [setVersion]

/-- The other version directories stay. -/
theorem versions_setVersion_ne (objects : Objects) {hash version hash' version' : Bytes}
    (dir : Option VersionDir) (h : ¬ (hash' = hash ∧ version' = version)) :
    (setVersion objects hash version dir hash').versions version' = (objects hash').versions version' := by
  unfold setVersion
  by_cases hhash : hash' = hash
  · subst hhash
    rw [Function.update_self]
    exact Function.update_of_ne (fun hversion ↦ h ⟨rfl, hversion⟩) _ _
  · rw [Function.update_of_ne hhash]

/-- Metadata is read from the version directory, and is valid. -/
theorem readMeta_eq_ok {objects : Objects} {hash version : Bytes} {info : Meta}
    (h : readMeta objects hash version = .ok info) :
    ((objects hash).versions version).bind VersionDir.metaFile = some info ∧ info.valid := by
  unfold readMeta at h
  split at h
  · next found hfound =>
    split at h
    · cases h
      exact ⟨hfound, ‹_›⟩
    · cases h
  · cases h

/-- The current version is read through a valid pointer. -/
theorem readCurrent_eq_ok {objects : Objects} {hash version : Bytes} {info : Meta}
    (h : readCurrent objects hash = .ok (version, info)) :
    (objects hash).current = some version ∧ validPointer version ∧
      readMeta objects hash version = .ok info := by
  unfold readCurrent at h
  split at h
  · next found hfound =>
    split at h
    · next hvalid =>
      cases hmeta : readMeta objects hash found with
      | error reason => simp [hmeta, Except.map] at h
      | ok info' =>
        simp only [hmeta, Except.map, Except.ok.injEq, Prod.mk.injEq] at h
        obtain ⟨rfl, rfl⟩ := h
        exact ⟨hfound, hvalid, hmeta⟩
    · cases h
  · cases h

private theorem readMeta_eq_error {objects : Objects} {hash version : Bytes} {reason : Reason}
    (h : readMeta objects hash version = .error reason) : reason = .adapter .corruptMeta := by
  unfold readMeta at h
  split at h
  · split at h <;> cases h
    rfl
  · cases h
    rfl

/-- Only a key without a pointer is not found. -/
theorem readCurrent_eq_error {objects : Objects} {hash : Bytes} {reason : Reason}
    (h : readCurrent objects hash = .error reason) :
    (∃ r, reason = .adapter r) ∨ reason = .notFound ∧ (objects hash).current = none := by
  unfold readCurrent at h
  split at h
  · next version hversion =>
    left
    split at h
    · cases hmeta : readMeta objects hash version with
      | ok info => simp [hmeta, Except.map] at h
      | error r =>
        simp only [hmeta, Except.map, Except.error.injEq] at h
        exact ⟨_, h ▸ readMeta_eq_error hmeta⟩
    · cases h
      exact ⟨_, rfl⟩
  · next hnone =>
    cases h
    exact .inr ⟨rfl, hnone⟩

private theorem currentForCommit_eq_error {objects : Objects} {hash : Bytes} {reason : Reason}
    (h : currentForCommit objects hash = .error reason) : ∃ r, reason = .adapter r := by
  unfold currentForCommit at h
  split at h
  · cases h
  · cases h
  · next r hne hread =>
    cases h
    rcases readCurrent_eq_error hread with hadapter | ⟨rfl, -⟩
    · exact hadapter
    · exact absurd rfl hne

private theorem checkPrecondition_eq_ok {current : Option (Bytes × Meta)} {ifMatch : Option Bytes} :
    checkPrecondition current ifMatch = .ok () ↔ current.map (·.2.etag) = ifMatch := by
  cases current <;> cases ifMatch <;> simp [checkPrecondition]

private theorem checkPrecondition_eq_error {current : Option (Bytes × Meta)} {ifMatch : Option Bytes}
    {reason : Reason} (h : checkPrecondition current ifMatch = .error reason) :
    reason = .preconditionFailed ∧ current.map (·.2.etag) ≠ ifMatch := by
  refine ⟨?_, fun hmatch ↦ by simp [checkPrecondition_eq_ok.mpr hmatch] at h⟩
  unfold checkPrecondition at h
  split at h
  · cases h
  · split at h <;> cases h
    rfl
  · cases h
    rfl

/-- What a commit checks, and all that it changes. -/
theorem commit_eq_ok {objects objects' : Objects} {hash version : Bytes} {ifMatch : Option Bytes}
    (h : commit objects hash ifMatch version = .ok objects') :
    validPointer version ∧ (∃ info, readMeta objects hash version = .ok info) ∧
      (∃ current, currentForCommit objects hash = .ok current ∧ current.map (·.2.etag) = ifMatch) ∧
      objects' = Function.update objects hash { objects hash with current := some version } := by
  unfold commit at h
  cases hvalid : validateHashAndVersion hash version with
  | error reason => simp [hvalid, bind, Except.bind] at h
  | ok u =>
    cases hmeta : readMeta objects hash version with
    | error reason => simp [hvalid, hmeta, bind, Except.bind] at h
    | ok info =>
      cases hcurrent : currentForCommit objects hash with
      | error reason => simp [hvalid, hmeta, hcurrent, bind, Except.bind] at h
      | ok current =>
        cases hcheck : checkPrecondition current ifMatch with
        | error reason => simp [hvalid, hmeta, hcurrent, hcheck, bind, Except.bind] at h
        | ok u =>
          simp only [hvalid, hmeta, hcurrent, hcheck, bind, Except.bind, pure, Except.pure,
            Except.ok.injEq] at h
          have hversion : validPointer version := by
            unfold validateHashAndVersion at hvalid
            split at hvalid
            · next hboth => exact (Bool.and_eq_true_iff.mp hboth).2
            · cases hvalid
          exact ⟨hversion, ⟨info, rfl⟩, ⟨current, rfl, checkPrecondition_eq_ok.mp hcheck⟩, h.symm⟩

/-- Why a commit fails. -/
theorem commit_eq_error {objects : Objects} {hash version : Bytes} {ifMatch : Option Bytes}
    {reason : Reason} (h : commit objects hash ifMatch version = .error reason) :
    (∃ r, reason = .adapter r) ∨ reason = .preconditionFailed ∧
      ∃ current, currentForCommit objects hash = .ok current ∧ current.map (·.2.etag) ≠ ifMatch := by
  unfold commit at h
  cases hvalid : validateHashAndVersion hash version with
  | error r =>
    unfold validateHashAndVersion at hvalid
    split at hvalid
    · cases hvalid
    · cases hvalid
      simp [validateHashAndVersion, *, bind, Except.bind] at h
      exact .inl ⟨_, h.symm⟩
  | ok u =>
    cases hmeta : readMeta objects hash version with
    | error r =>
      simp [hvalid, hmeta, bind, Except.bind] at h
      exact .inl ⟨_, h ▸ readMeta_eq_error hmeta⟩
    | ok info =>
      cases hcurrent : currentForCommit objects hash with
      | error r =>
        simp [hvalid, hmeta, hcurrent, bind, Except.bind] at h
        exact .inl (h ▸ currentForCommit_eq_error hcurrent)
      | ok current =>
        cases hcheck : checkPrecondition current ifMatch with
        | error r =>
          obtain ⟨rfl, hmatch⟩ := checkPrecondition_eq_error hcheck
          simp [hvalid, hmeta, hcurrent, hcheck, bind, Except.bind] at h
          exact .inr ⟨h.symm, current, rfl, hmatch⟩
        | ok u => simp [hvalid, hmeta, hcurrent, hcheck, bind, Except.bind, pure, Except.pure] at h

/-! ### The tasks -/

section

variable {c found : Client}

/-- The task that advances. -/
theorem clients_advance_self (h : w.clients[i]? = some found) : (w.advance i c).clients[i]? = some c := by
  rw [World.advance, List.getElem?_set_self (List.getElem?_eq_some_iff.mp h).1]

/-- The other tasks stay. -/
theorem clients_advance_ne (h : j ≠ i) : (w.advance i c).clients[j]? = w.clients[j]? := by
  rw [World.advance, List.getElem?_set_ne (Ne.symm h)]

end

/-! ### What a step can do -/

/-- The steps that change one task and nothing else. -/
inductive Local (sha256 : Bytes → Bytes) (w : World) (i : ℕ) : Move → Client → Client → Prop
  | send {c request} : c.request sha256 i = some request → c.wait = .idle →
      Local sha256 w i (.send i) c { c with wait := .waiting, queue := c.queue ++ [request] }
  | refused {c request} : c.request sha256 i = some request → c.wait = .idle →
      Local sha256 w i (.send i) c { c with wait := .answered (.error (.transport .closed)) }
  | receive {c reply} : c.wait = .answered reply →
      Local sha256 w i (.receive i) c (c.resume sha256 reply)
  | expire {c request} : c.request sha256 i = some request → (∀ reply, c.wait ≠ .answered reply) →
      Local sha256 w i (.expire i) c (c.resume sha256 (.error (.transport .timeout)))
  | openFailed {c} : c.phase = .preparing →
      Local sha256 w i (.openData i) c { c with phase := .discarding (.error (.adapter .io)) }
  | writeMetaFailed {c} (reason : AdapterReason) : c.phase = .copying →
      Local sha256 w i (.writeMeta i) c { c with phase := .discarding (.error (.adapter reason)) }
  | read {c version info content} : c.phase = .reading → c.pinned = some (version, info) →
      (w.dir sha256 c version).bind VersionDir.data = some content →
      Local sha256 w i (.read i) c (c.copied info content)
  | readFailed {c version info} : c.phase = .reading → c.pinned = some (version, info) →
      (w.dir sha256 c version).bind VersionDir.data = none →
      Local sha256 w i (.read i) c { c with phase := .unpinning (.error (.adapter .io)) }
  | fail {c c'} (fault : Fault) : c.fail fault.reason = some c' → Local sha256 w i (.fail i fault) c c'
  | kill {c} : ¬ c.Ended → Local sha256 w i (.kill i) c { c with phase := .killed, wait := .idle }

/-- The steps that change one task and the version directory that it created. -/
inductive OwnDir (sha256 : Bytes → Bytes) (w : World) (i : ℕ) :
    Move → Client → Client → Bytes → Option VersionDir → Prop
  | create {c version} : c.phase = .creating → validPointer version → w.dir sha256 c version = none →
      (∀ c' ∈ w.clients, c'.version ≠ some version) →
      OwnDir sha256 w i (.create i version) c { c with phase := .claiming, version := some version }
        version (some {})
  | openData {c version info} : c.phase = .preparing → c.version = some version →
      w.dir sha256 c version = some ⟨none, info⟩ →
      OwnDir sha256 w i (.openData i) c { c with phase := .copying, written := [] } version
        (some ⟨some [], info⟩)
  | write {c version} (chunk : Bytes) : c.phase = .copying → c.version = some version →
      OwnDir sha256 w i (.write i chunk) c { c with written := c.written ++ chunk } version
        ((w.dir sha256 c version).map fun dir ↦ { dir with data := dir.data.map (· ++ chunk) })
  | writeMeta {c version data} : c.phase = .copying → c.version = some version →
      w.dir sha256 c version = some ⟨data, none⟩ → (c.info sha256).termSize ≤ 65536 →
      OwnDir sha256 w i (.writeMeta i) c { c with phase := .committing } version
        (some ⟨data, some (c.info sha256)⟩)
  | discard {c version outcome} (removal : Removal) : c.phase = .discarding outcome →
      c.version = some version →
      OwnDir sha256 w i (.discard i removal) c { c with phase := .releasing outcome } version
        ((w.dir sha256 c version).bind removal.leaves)

/-- Everything that a step can do. -/
inductive Step (sha256 : Bytes → Bytes) (w : World) : Move → World → Prop
  | start (op : Op) : Step sha256 w (.start op) { w with clients := w.clients ++ [Client.start op] }
  | boot : w.server = none → Step sha256 w .boot { w with server := some {} }
  | stop {move} : move = .crash ∨ move = .idle → (move = .idle → ∃ s, w.server = some s ∧ s.idle) →
      Step sha256 w move { w with server := none, clients := w.clients.map Client.disconnect }
  | task {move i c c'} : w.clients[i]? = some c → Local sha256 w i move c c' →
      Step sha256 w move (w.advance i c')
  | version {move i c c' version dir} : w.clients[i]? = some c → OwnDir sha256 w i move c c' version dir →
      Step sha256 w move (w.advanceVersion sha256 i c' version dir)
  | serve {i c s request} (fault : Option AdapterReason) : w.server = some s →
      w.clients[i]? = some c → c.queue.head? = some request →
      Step sha256 w (.serve i fault)
        { objects := (s.answer w.objects i w.nextMonitor request fault).2.2
          server := some (s.answer w.objects i w.nextMonitor request fault).2.1
          clients := w.clients.set i (c.served (s.answer w.objects i w.nextMonitor request fault).1)
          nextMonitor := w.nextMonitor + 1 }
  | down {i c s} (monitor : ℕ) : w.server = some s → w.clients[i]? = some c → c.Ended → c.queue = [] →
      Step sha256 w (.down i monitor) { w with server := some (s.handleDown monitor i) }
  | sweep {s} (hash : Bytes) (removal : Bytes → Removal) : w.server = some s →
      Step sha256 w (.sweep hash removal)
        { w with objects := Function.update w.objects hash (s.sweepHash removal (w.objects hash)) }

/-- Every step is one of the listed ones. -/
theorem step_cases {move : Move} (h : step sha256 w move = some w') : Step sha256 w move w' := by
  cases move with
  | start op =>
    cases h
    exact .start op
  | boot =>
    simp only [step] at h
    split at h
    · cases h
      exact .boot (by simpa using ‹w.server.isNone = true›)
    · cases h
  | crash =>
    simp only [step] at h
    split at h
    · cases h
      exact .stop (.inl rfl) (by simp)
    · cases h
  | idle =>
    obtain ⟨s, hs, h⟩ := Option.bind_eq_some_iff.mp h
    obtain ⟨_, hidle, h⟩ := Option.bind_eq_some_iff.mp h
    rw [Option.guard_eq_some'] at hidle
    cases h
    exact .stop (.inr rfl) fun _ ↦ ⟨s, hs, hidle⟩
  | send i =>
    obtain ⟨c, hc, h⟩ := Option.bind_eq_some_iff.mp h
    obtain ⟨request, hrequest, h⟩ := Option.bind_eq_some_iff.mp h
    obtain ⟨_, hidle, h⟩ := Option.bind_eq_some_iff.mp h
    rw [Option.guard_eq_some'] at hidle
    split at h
    · cases h
      exact .task hc (.send hrequest hidle)
    · cases h
      exact .task hc (.refused hrequest hidle)
  | serve i fault =>
    obtain ⟨s, hs, h⟩ := Option.bind_eq_some_iff.mp h
    obtain ⟨c, hc, h⟩ := Option.bind_eq_some_iff.mp h
    obtain ⟨request, hrequest, h⟩ := Option.bind_eq_some_iff.mp h
    cases h
    exact .serve fault hs hc hrequest
  | receive i =>
    obtain ⟨c, hc, h⟩ := Option.bind_eq_some_iff.mp h
    split at h
    · cases h
      exact .task hc (.receive ‹_›)
    · cases h
  | expire i =>
    obtain ⟨c, hc, h⟩ := Option.bind_eq_some_iff.mp h
    obtain ⟨request, hrequest, h⟩ := Option.bind_eq_some_iff.mp h
    split at h
    · cases h
    · next hwait =>
      cases h
      exact .task hc (.expire hrequest fun reply ↦ hwait reply)
  | create i version =>
    obtain ⟨c, hc, h⟩ := Option.bind_eq_some_iff.mp h
    obtain ⟨_, hguard, h⟩ := Option.bind_eq_some_iff.mp h
    rw [Option.guard_eq_some'] at hguard
    obtain ⟨hphase, hvalid, hnone, hfresh⟩ := hguard
    cases h
    exact .version hc (.create hphase hvalid (by simpa using hnone) hfresh)
  | openData i =>
    obtain ⟨c, hc, h⟩ := Option.bind_eq_some_iff.mp h
    obtain ⟨_, hphase, h⟩ := Option.bind_eq_some_iff.mp h
    rw [Option.guard_eq_some'] at hphase
    obtain ⟨version, hversion, h⟩ := Option.bind_eq_some_iff.mp h
    split at h
    · cases h
      exact .version hc (.openData hphase hversion ‹_›)
    · cases h
      exact .task hc (.openFailed hphase)
  | write i chunk =>
    obtain ⟨c, hc, h⟩ := Option.bind_eq_some_iff.mp h
    obtain ⟨_, hphase, h⟩ := Option.bind_eq_some_iff.mp h
    rw [Option.guard_eq_some'] at hphase
    obtain ⟨version, hversion, h⟩ := Option.bind_eq_some_iff.mp h
    cases h
    exact .version hc (.write chunk hphase hversion)
  | writeMeta i =>
    obtain ⟨c, hc, h⟩ := Option.bind_eq_some_iff.mp h
    obtain ⟨_, hphase, h⟩ := Option.bind_eq_some_iff.mp h
    rw [Option.guard_eq_some'] at hphase
    obtain ⟨version, hversion, h⟩ := Option.bind_eq_some_iff.mp h
    split at h
    · next hsize =>
      split at h
      · cases h
        exact .version hc (.writeMeta hphase hversion ‹_› hsize)
      · cases h
        exact .task hc (.writeMetaFailed .io hphase)
    · cases h
      exact .task hc (.writeMetaFailed .corruptMeta hphase)
  | read i =>
    obtain ⟨c, hc, h⟩ := Option.bind_eq_some_iff.mp h
    obtain ⟨_, hphase, h⟩ := Option.bind_eq_some_iff.mp h
    rw [Option.guard_eq_some'] at hphase
    obtain ⟨⟨version, info⟩, hpinned, h⟩ := Option.bind_eq_some_iff.mp h
    dsimp only at h
    split at h
    · cases h
      exact .task hc (.read hphase hpinned ‹_›)
    · cases h
      exact .task hc (.readFailed hphase hpinned ‹_›)
  | fail i fault =>
    obtain ⟨c, hc, h⟩ := Option.bind_eq_some_iff.mp h
    obtain ⟨c', hc', h⟩ := Option.bind_eq_some_iff.mp h
    cases h
    exact .task hc (.fail fault hc')
  | discard i removal =>
    obtain ⟨c, hc, h⟩ := Option.bind_eq_some_iff.mp h
    split at h
    · cases h
      exact .version hc (.discard removal ‹_› ‹_›)
    · cases h
  | kill i =>
    obtain ⟨c, hc, h⟩ := Option.bind_eq_some_iff.mp h
    obtain ⟨_, hended, h⟩ := Option.bind_eq_some_iff.mp h
    rw [Option.guard_eq_some'] at hended
    cases h
    exact .task hc (.kill hended)
  | down i monitor =>
    obtain ⟨s, hs, h⟩ := Option.bind_eq_some_iff.mp h
    obtain ⟨c, hc, h⟩ := Option.bind_eq_some_iff.mp h
    obtain ⟨_, hended, h⟩ := Option.bind_eq_some_iff.mp h
    rw [Option.guard_eq_some'] at hended
    cases h
    exact .down monitor hs hc hended.1 hended.2
  | sweep hash removal =>
    obtain ⟨s, hs, h⟩ := Option.bind_eq_some_iff.mp h
    cases h
    exact .sweep hash removal hs

end Gitility.LocalStore
