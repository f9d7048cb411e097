import Gitility.ObjectStore.LocalQueues
import Gitility.ObjectStore.ServerCalls

/-!
# What a step changes

A step changes a task in one of a few ways. A version directory changes only by its own task, or by a
sweep that finds it unused, and a pointer only by a commit.
-/

namespace Gitility.LocalStore

variable {sha256 : Bytes → Bytes} {w w' : World} {i : ℕ} {c c' : Client} {move : Move}
  {hash version : Bytes}

/-! ### Tasks -/

/-- How a step changes task `i`. -/
inductive Change (sha256 : Bytes → Bytes) (w w' : World) (i : ℕ) (move : Move) :
    Client → Client → Prop
  | none (c : Client) : (∀ fault, move ≠ .serve i fault) → Change sha256 w w' i move c c
  | task {c c' : Client} : Local sha256 w i move c c' → Change sha256 w w' i move c c'
  | ownDir {c c' : Client} {version : Bytes} {dir : Option VersionDir} :
      OwnDir sha256 w i move c c' version dir →
      (w'.objects (c.op.hash sha256)).versions version = dir → Change sha256 w w' i move c c'
  | served {c : Client} {s : Server} {request : Request} {fault : Option AdapterReason} :
      w.server = some s → c.queue.head? = some request → move = .serve i fault →
      Change sha256 w w' i move c (c.served (s.answer w.objects i w.nextMonitor request fault).1)
  | disconnect (c : Client) : move = .crash ∨ move = .idle → Change sha256 w w' i move c c.disconnect

/-- Such a step is not one of the server. -/
theorem Local.not_serve (h : Local sha256 w i move c c') (j : ℕ) (fault : Option AdapterReason) :
    move ≠ .serve j fault := by
  cases h <;> simp

/-- Such a step is not one of the server. -/
theorem OwnDir.not_serve {dir : Option VersionDir} (h : OwnDir sha256 w i move c c' version dir) (j : ℕ)
    (fault : Option AdapterReason) : move ≠ .serve j fault := by
  cases h <;> simp

/-- The operation of a task stays. -/
theorem OwnDir.op {dir : Option VersionDir} (h : OwnDir sha256 w i move c c' version dir) :
    c'.op = c.op := by
  cases h <;> rfl

namespace Change

/-- The operation of a task stays. -/
theorem op (h : Change sha256 w w' i move c c') : c'.op = c.op := by
  cases h with
  | none | served | disconnect => rfl
  | ownDir h => exact h.op
  | task h =>
    cases h with
    | read =>
      unfold Client.copied
      split <;> rfl
    | fail fault hfail =>
      unfold Client.fail at hfail
      split at hfail <;> cases hfail <;> rfl
    | _ => rfl

/-- A task keeps the version it created. -/
theorem keeps_version (hq : Queued sha256 i c) (h : Change sha256 w w' i move c c') (hc : c.version = some version) :
    c'.version = some version := by
  cases h with
  | none | served | disconnect => exact hc
  | ownDir h =>
    cases h with
    | create hphase =>
      have := hq.unnamed (by simp [hphase, Phase.unnamed])
      rw [hc] at this
      cases this
    | _ => exact hc
  | task h =>
    cases h with
    | read =>
      unfold Client.copied
      split <;> exact hc
    | fail fault hfail =>
      unfold Client.fail at hfail
      split at hfail <;> cases hfail <;> exact hc
    | _ => exact hc

/-- Only a task that has not published writes. -/
theorem written (h : Change sha256 w w' i move c c') (hc : c.unpublished = false) : c'.written = c.written := by
  cases h with
  | none | served | disconnect => rfl
  | ownDir h =>
    cases h with
    | openData hphase | write chunk hphase => simp [Client.unpublished, hphase] at hc
    | _ => rfl
  | task h =>
    cases h with
    | read =>
      unfold Client.copied
      split <;> rfl
    | fail fault hfail =>
      unfold Client.fail at hfail
      split at hfail <;> cases hfail <;> rfl
    | _ => rfl

/-- Once a task has published, what it wrote stays. -/
theorem info (h : Change sha256 w w' i move c c') (hc : c.unpublished = false) :
    c'.info sha256 = c.info sha256 := by
  unfold Client.info
  rw [h.written hc, h.op]

/-- The messages of a task stay in the queue of its phase. -/
theorem queued (hq : Queued sha256 i c) (h : Change sha256 w w' i move c c') : Queued sha256 i c' := by
  cases h with
  | none => exact hq
  | served => exact hq.served _
  | disconnect => exact hq.disconnect
  | ownDir h => exact hq.ownDir h
  | task h => exact hq.task h

/-- A version is new, or it was there before. -/
theorem version_of (h : Change sha256 w w' i move c c') (hc : c'.version = some version) :
    c.version = some version ∨
      move = .create i version ∧ ∀ c ∈ w.clients, c.version ≠ some version := by
  cases h with
  | none | served | disconnect => exact .inl hc
  | ownDir h =>
    cases h with
    | create hphase hvalid hnone hfresh =>
      obtain rfl := Option.some.inj hc
      exact .inr ⟨rfl, hfresh⟩
    | _ => exact .inl hc
  | task h =>
    left
    cases h with
    | read =>
      unfold Client.copied at hc
      split at hc <;> exact hc
    | fail fault hfail =>
      unfold Client.fail at hfail
      split at hfail <;> cases hfail <;> exact hc
    | _ => exact hc

end Change

/-- A step changes the tasks that there are, -/
theorem Step.client (h : Step sha256 w move w') (hc : w.clients[i]? = some c) :
    ∃ c', w'.clients[i]? = some c' ∧ Change sha256 w w' i move c c' := by
  cases h with
  | start op =>
    refine ⟨c, ?_, .none c (by simp)⟩
    rw [List.getElem?_append_left (List.getElem?_eq_some_iff.mp hc).1, hc]
  | boot | down | sweep => exact ⟨c, hc, .none c (by simp)⟩
  | stop hmove => exact ⟨_, by simp [hc], .disconnect c hmove⟩
  | @task _ i' found found' hfound hlocal =>
    by_cases hi : i = i'
    · subst hi
      obtain rfl := Option.some.inj (hc.symm.trans hfound)
      exact ⟨found', clients_advance_self hc, .task hlocal⟩
    · exact ⟨c, (clients_advance_ne hi).trans hc, .none c (hlocal.not_serve i)⟩
  | @version _ i' found found' version dir hfound hown =>
    by_cases hi : i = i'
    · subst hi
      obtain rfl := Option.some.inj (hc.symm.trans hfound)
      refine ⟨found', clients_advance_self hc, .ownDir hown ?_⟩
      unfold World.advanceVersion
      rw [hown.op, versions_setVersion_self]
    · exact ⟨c, (clients_advance_ne hi).trans hc, .none c (hown.not_serve i)⟩
  | @serve i' found s request fault hs hfound hrequest =>
    by_cases hi : i = i'
    · subst hi
      obtain rfl := Option.some.inj (hc.symm.trans hfound)
      exact ⟨_, List.getElem?_set_self (List.getElem?_eq_some_iff.mp hc).1, .served hs hrequest rfl⟩
    · refine ⟨c, (List.getElem?_set_ne (Ne.symm hi)).trans hc, .none c fun fault' hmove ↦ ?_⟩
      cases hmove
      exact hi rfl

/-- and may start another one. -/
theorem Step.client_of (h : Step sha256 w move w') (hc' : w'.clients[i]? = some c') :
    (∃ c, w.clients[i]? = some c ∧ Change sha256 w w' i move c c') ∨
      w.clients[i]? = none ∧ ∃ op, c' = Client.start op := by
  cases hc : w.clients[i]? with
  | some c =>
    obtain ⟨found, hfound, hchange⟩ := h.client hc
    obtain rfl := Option.some.inj (hc'.symm.trans hfound)
    exact .inl ⟨c, rfl, hchange⟩
  | none =>
    right
    have hlength := List.getElem?_eq_none_iff.mp hc
    cases h with
    | start op =>
      refine ⟨rfl, op, ?_⟩
      rw [List.getElem?_append_right hlength] at hc'
      exact List.mem_singleton.mp (List.mem_of_getElem? hc')
    | boot | down | sweep =>
      rw [hc] at hc'
      cases hc'
    | stop =>
      simp [hc] at hc'
    | task | version =>
      have := (List.getElem?_eq_some_iff.mp hc').1
      simp [World.advance, World.advanceVersion] at this
      omega
    | serve =>
      have := (List.getElem?_eq_some_iff.mp hc').1
      simp at this
      omega

/-! ### Files -/

/-- A step keeps a version directory unless it is one of its own task, or a sweep of an unused one. -/
theorem Step.versions (h : Step sha256 w move w') (hash version : Bytes) :
    (w'.objects hash).versions version = (w.objects hash).versions version ∨
    (∃ i c c', w.clients[i]? = some c ∧ w'.clients[i]? = some c' ∧ hash = c.op.hash sha256 ∧
      OwnDir sha256 w i move c c' version ((w'.objects hash).versions version)) ∨
    ∃ s removal, w.server = some s ∧ move = .sweep hash removal ∧
      (w.objects hash).current ≠ some version ∧ ¬ s.Pins version ∧ (∀ ref, ¬ s.Claims ref version) ∧
      (w'.objects hash).versions version =
        ((w.objects hash).versions version).bind (removal version).leaves := by
  cases h with
  | start | boot | stop | task | down => exact .inl rfl
  | @version _ i c c' version' dir hc hown =>
    by_cases hself : hash = c'.op.hash sha256 ∧ version = version'
    · obtain ⟨rfl, rfl⟩ := hself
      refine .inr (.inl ⟨i, c, c', hc, clients_advance_self hc, by rw [hown.op], ?_⟩)
      unfold World.advanceVersion
      rwa [versions_setVersion_self]
    · exact .inl (versions_setVersion_ne _ _ hself)
  | @serve i c s request fault hs hc hrequest =>
    left
    dsimp only
    rcases s.objects_answer w.objects i w.nextMonitor request fault with hsame | ⟨hash', ifMatch, version', -, -, hcommit⟩
    · rw [hsame]
    · obtain ⟨-, -, -, hobjects⟩ := commit_eq_ok hcommit
      rw [hobjects]
      by_cases hhash : hash = hash'
      · subst hhash
        rw [Function.update_self]
      · rw [Function.update_of_ne hhash]
  | @sweep s hash' removal hs =>
    dsimp only
    by_cases hhash : hash = hash'
    · subst hhash
      rw [Function.update_self]
      rcases s.versions_sweepHash removal (w.objects hash) with hsame | ⟨hcurrent, hpins, hclaims, hleaves⟩
      · exact .inl hsame
      · exact .inr (.inr ⟨s, removal, hs, rfl, hcurrent, hpins, hclaims, hleaves⟩)
    · rw [Function.update_of_ne hhash]
      exact .inl rfl

/-- A step keeps the pointer of a key unless it executes a commit. -/
theorem Step.current (h : Step sha256 w move w') (hash : Bytes) :
    (w'.objects hash).current = (w.objects hash).current ∨
    ∃ i c s ifMatch version, w.clients[i]? = some c ∧ w.server = some s ∧ move = .serve i none ∧
      c.queue.head? = some (.commit hash ifMatch version) ∧
      commit w.objects hash ifMatch version = .ok w'.objects ∧
      (w'.objects hash).current = some version := by
  cases h with
  | start | boot | stop | task | down => exact .inl rfl
  | version => exact .inl (current_setVersion ..)
  | @serve i c s request fault hs hc hrequest =>
    dsimp only
    rcases s.objects_answer w.objects i w.nextMonitor request fault with hsame | ⟨hash', ifMatch, version', rfl, rfl, hcommit⟩
    · rw [hsame]
      exact .inl rfl
    · obtain ⟨-, -, -, hobjects⟩ := commit_eq_ok hcommit
      by_cases hhash : hash = hash'
      · subst hhash
        refine .inr ⟨i, c, s, ifMatch, version', hc, hs, rfl, hrequest, hcommit, ?_⟩
        rw [hobjects, Function.update_self]
      · rw [hobjects, Function.update_of_ne hhash]
        exact .inl rfl
  | @sweep s hash' removal hs =>
    left
    dsimp only
    by_cases hhash : hash = hash'
    · subst hhash
      rw [Function.update_self, Server.current_sweepHash]
    · rw [Function.update_of_ne hhash]

/-! ### The server -/

/-- A step pins only what is current. -/
theorem Step.pins {s' : Server} (h : Step sha256 w move w') (hs' : w'.server = some s')
    (hpins : s'.Pins version) :
    (∃ s, w.server = some s ∧ s.Pins version) ∨
      ∃ hash info, readCurrent w.objects hash = .ok (version, info) := by
  cases h with
  | start | task | version | sweep => exact .inl ⟨s', hs', hpins⟩
  | boot =>
    obtain rfl := Option.some.inj hs'
    simp [Server.Pins] at hpins
  | stop => cases hs'
  | serve fault hs hc hrequest =>
    obtain rfl := Option.some.inj hs'
    rcases Server.pins_answer hpins with hpins | ⟨hash, info, -, hread⟩
    · exact .inl ⟨_, hs, hpins⟩
    · exact .inr ⟨hash, info, hread⟩
  | down monitor hs hc hended =>
    obtain rfl := Option.some.inj hs'
    exact .inl ⟨_, hs, Server.pins_of_handleDown hpins⟩

/-- A step claims only what a task asks to claim. -/
theorem Step.claims {s' : Server} {ref : ℕ} (h : Step sha256 w move w') (hs' : w'.server = some s')
    (hclaims : s'.Claims ref version) :
    (∃ s, w.server = some s ∧ s.Claims ref version) ∨
      ∃ i c fault, w.clients[i]? = some c ∧ move = .serve i fault ∧
        c.queue.head? = some (.claim ref version) := by
  cases h with
  | start | task | version | sweep => exact .inl ⟨s', hs', hclaims⟩
  | boot =>
    obtain rfl := Option.some.inj hs'
    obtain ⟨holder, hholder⟩ := hclaims
    simp at hholder
  | stop => cases hs'
  | @serve i c s request fault hs hc hrequest =>
    obtain rfl := Option.some.inj hs'
    rcases Server.claims_answer hclaims with hclaims | rfl
    · exact .inl ⟨_, hs, hclaims⟩
    · exact .inr ⟨i, c, fault, hc, rfl, hrequest⟩
  | down monitor hs hc hended =>
    obtain rfl := Option.some.inj hs'
    exact .inl ⟨_, hs, Server.claims_of_handleDown hclaims⟩

end Gitility.LocalStore
