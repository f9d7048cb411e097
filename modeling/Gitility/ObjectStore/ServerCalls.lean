import Gitility.ObjectStore.LocalSteps

/-!
# Calls of the server

What a call, the end of a process and a sweep do to the pins, to the claims and to the files.
-/

namespace Gitility.LocalStore

variable {s : Server} {objects : Objects} {holder monitor ref : ℕ} {version : Bytes} {request : Request}
  {fault : Option AdapterReason}

namespace Server

/-! ### Pins and claims -/

/-- A monitor changes no pin. -/
@[simp] theorem pins_monitorHolder : (s.monitorHolder holder monitor).pins = s.pins := by
  unfold monitorHolder
  split <;> rfl

/-- A monitor changes no hold. -/
@[simp] theorem holds_monitorHolder : (s.monitorHolder holder monitor).holds = s.holds := by
  unfold monitorHolder
  split <;> rfl

/-- Dropping a monitor changes no pin. -/
@[simp] theorem pins_demonitorInactiveHolder : (s.demonitorInactiveHolder holder).pins = s.pins := by
  unfold demonitorInactiveHolder
  split <;> rfl

/-- Dropping a monitor changes no hold. -/
@[simp] theorem holds_demonitorInactiveHolder : (s.demonitorInactiveHolder holder).holds = s.holds := by
  unfold demonitorInactiveHolder
  split <;> rfl

/-- Some process pins a version. -/
def Pins (s : Server) (version : Bytes) : Prop := (s.pins.lookup version).isSome

/-- A hold claims a version. -/
def Claims (s : Server) (ref : ℕ) (version : Bytes) : Prop :=
  ∃ holder, s.holds.lookup ref = some (holder, some version)

private theorem pins_addPin {version' : Bytes} :
    (s.addPin version holder monitor).Pins version' ↔ version' = version ∨ s.Pins version' := by
  unfold Pins addPin
  rw [pins_monitorHolder]
  by_cases h : version' = version
  · subst h
    simp
  · simp [AList.lookup_insert_ne h, h]

private theorem pins_of_removePin {version' : Bytes} (h : (s.removePin version holder).Pins version') :
    s.Pins version' := by
  unfold Pins removePin at *
  rw [pins_demonitorInactiveHolder] at h
  dsimp only [pinsWithout] at h
  split at h
  · next holders hholders =>
    split at h
    · next count hcount =>
      by_cases hv : version' = version
      · subst hv
        simp [hholders]
      · generalize (if count = 1 then holders.erase holder else holders.insert holder (count - 1)) =
          remaining at h
        split at h
        · rwa [AList.lookup_erase_ne hv] at h
        · rwa [AList.lookup_insert_ne hv] at h
    · exact h
  · exact h

private theorem claims_of_removeHold {ref' : ℕ} (h : (s.removeHold ref holder).Claims ref' version) :
    s.Claims ref' version := by
  unfold Claims removeHold at *
  simp only [holds_demonitorInactiveHolder] at h
  split at h
  · split at h
    · by_cases href : ref' = ref
      · subst href
        simp at h
      · simpa [AList.lookup_erase_ne href] using h
    · exact h
  · exact h

private theorem claims_of_addHold {ref' : ℕ} (h : (s.addHold ref holder monitor).Claims ref' version) :
    s.Claims ref' version := by
  unfold Claims addHold at *
  rw [holds_monitorHolder] at h
  by_cases href : ref' = ref
  · subst href
    simp at h
  · simpa [AList.lookup_insert_ne href] using h

/-! ### Calls -/

/-- Removing a hold changes no pin. -/
theorem pins_removeHold : (s.removeHold ref holder).pins = s.pins := by
  simp only [removeHold, pins_demonitorInactiveHolder]
  split
  · split <;> rfl
  · rfl

private theorem claim_cases : s.claim ref version holder = (.error (.adapter .badReturn), s) ∨
    s.holds.lookup ref = some (holder, none) ∧
      s.claim ref version holder = (.ok, { s with holds := s.holds.insert ref (holder, some version) }) ∨
    s.holds.lookup ref = some (holder, some version) ∧ s.claim ref version holder = (.ok, s) := by
  unfold claim
  split
  · split
    · next hlookup =>
      split
      · next howner => exact .inr (.inl ⟨howner ▸ hlookup, rfl⟩)
      · exact .inl rfl
    · next hlookup =>
      split
      · next hsame =>
        obtain ⟨rfl, rfl⟩ := hsame
        exact .inr (.inr ⟨hlookup, rfl⟩)
      · exact .inl rfl
    · exact .inl rfl
  · exact .inl rfl

/-- What a call does to the server and to the files, with its reply. Any call may be refused, a version is
claimed once or again, and a commit is executed only without a fault. -/
inductive Called (s : Server) (objects : Objects) (holder monitor : ℕ) (fault : Option AdapterReason) :
    Request → Reply → Server → Objects → Prop where
  | pin {hash version : Bytes} {info : Meta} : readCurrent objects hash = .ok (version, info) →
      Called s objects holder monitor fault (.pin hash) (.pinned version info)
        (s.addPin version holder monitor) objects
  | unread {hash : Bytes} {reason : Reason} : readCurrent objects hash = .error reason →
      Called s objects holder monitor fault (.pin hash) (.error reason) s objects
  | unpin (version : Bytes) :
      Called s objects holder monitor fault (.unpin version) .ok (s.removePin version holder) objects
  | hold {ref : ℕ} : s.holds.lookup ref = none →
      Called s objects holder monitor fault (.hold ref) .ok (s.addHold ref holder monitor) objects
  | claim {ref : ℕ} (version : Bytes) : s.holds.lookup ref = some (holder, none) →
      Called s objects holder monitor fault (.claim ref version) .ok
        { s with holds := s.holds.insert ref (holder, some version) } objects
  | reclaim {ref : ℕ} {version : Bytes} : s.holds.lookup ref = some (holder, some version) →
      Called s objects holder monitor fault (.claim ref version) .ok s objects
  | release (ref : ℕ) :
      Called s objects holder monitor fault (.release ref) .ok (s.removeHold ref holder) objects
  | commit {hash version : Bytes} {ifMatch : Option Bytes} {objects' : Objects} : fault = none →
      commit objects hash ifMatch version = .ok objects' →
      Called s objects holder monitor fault (.commit hash ifMatch version) .ok s objects'
  | uncommitted {hash version : Bytes} {ifMatch : Option Bytes} {reason : Reason} :
      commit objects hash ifMatch version = .error reason →
      Called s objects holder monitor fault (.commit hash ifMatch version) (.error reason) s objects
  | refused (request : Request) (reason : AdapterReason) :
      Called s objects holder monitor fault request (.error (.adapter reason)) s objects

private theorem called_of_handleCall {reply : Reply} {s' : Server} {objects' : Objects}
    (hfault : fallible request → fault = none)
    (h : s.handleCall objects holder monitor request = (reply, s', objects')) :
    Called s objects holder monitor fault request reply s' objects' := by
  cases request with
  | pin hash =>
    simp only [handleCall] at h
    split at h
    · split at h
      · next hread =>
        cases h
        exact .pin hread
      · next hread =>
        cases h
        exact .unread hread
    · cases h
      exact .refused _ _
  | unpin version =>
    cases h
    exact .unpin version
  | hold ref =>
    simp only [handleCall] at h
    split at h
    · cases h
      exact .refused _ _
    · next hfree =>
      cases h
      exact .hold (by simpa using hfree)
  | claim ref version =>
    rcases @claim_cases s holder ref version with hclaim | ⟨hlookup, hclaim⟩ | ⟨hlookup, hclaim⟩
    all_goals
      simp only [handleCall, hclaim] at h
      cases h
    · exact .refused _ _
    · exact .claim version hlookup
    · exact .reclaim hlookup
  | release ref =>
    cases h
    exact .release ref
  | commit hash ifMatch version =>
    simp only [handleCall] at h
    split at h
    · next hcommit =>
      cases h
      exact .commit (hfault rfl) hcommit
    · next hcommit =>
      cases h
      exact .uncommitted hcommit

/-- Every answer is that of a call. -/
theorem called_of_answer {reply : Reply} {s' : Server} {objects' : Objects}
    (h : s.answer objects holder monitor request fault = (reply, s', objects')) :
    Called s objects holder monitor fault request reply s' objects' := by
  cases fault with
  | none => exact called_of_handleCall (fun _ ↦ rfl) h
  | some reason =>
    simp only [answer] at h
    split at h
    · cases h
      exact .refused _ _
    · next hfallible => exact called_of_handleCall (fun hfallible' ↦ absurd hfallible' hfallible) h

/-- Only a `pin` adds a pin, and only of the current version. -/
theorem pins_answer (h : (s.answer objects holder monitor request fault).2.1.Pins version) :
    s.Pins version ∨ ∃ hash info, request = .pin hash ∧ readCurrent objects hash = .ok (version, info) := by
  rcases hanswer : s.answer objects holder monitor request fault with ⟨reply, s', objects'⟩
  rw [hanswer] at h
  cases called_of_answer hanswer with
  | pin hread =>
    rcases pins_addPin.mp h with rfl | h
    · exact .inr ⟨_, _, rfl, hread⟩
    · exact .inl h
  | unpin => exact .inl (pins_of_removePin h)
  | hold => exact .inl (by simpa [Pins, addHold] using h)
  | release => exact .inl (by rwa [Pins, pins_removeHold] at h)
  | unread | claim | reclaim | commit | uncommitted | refused => exact .inl h

/-- Only a `claim` claims a version. -/
theorem claims_answer (h : (s.answer objects holder monitor request fault).2.1.Claims ref version) :
    s.Claims ref version ∨ request = .claim ref version := by
  rcases hanswer : s.answer objects holder monitor request fault with ⟨reply, s', objects'⟩
  rw [hanswer] at h
  cases called_of_answer hanswer with
  | pin => exact .inl (by simpa [Claims, addPin] using h)
  | unpin => exact .inl (by simpa [Claims, removePin] using h)
  | hold => exact .inl (claims_of_addHold h)
  | @claim ref' version' hlookup =>
    by_cases href : ref = ref'
    · subst href
      obtain rfl : version' = version := by simpa [Claims] using h
      exact .inr rfl
    · exact .inl (by simpa [Claims, AList.lookup_insert_ne href] using h)
  | release => exact .inl (claims_of_removeHold h)
  | unread | reclaim | commit | uncommitted | refused => exact .inl h

/-- Only a commit changes files. -/
theorem objects_answer (s : Server) (objects : Objects) (holder monitor : ℕ) (request : Request)
    (fault : Option AdapterReason) : (s.answer objects holder monitor request fault).2.2 = objects ∨
    ∃ hash ifMatch version, request = .commit hash ifMatch version ∧ fault = none ∧
      commit objects hash ifMatch version = .ok (s.answer objects holder monitor request fault).2.2 := by
  rcases hanswer : s.answer objects holder monitor request fault with ⟨reply, s', objects'⟩
  cases called_of_answer hanswer with
  | commit hfault hcommit => exact .inr ⟨_, _, _, rfl, hfault, hcommit⟩
  | _ => exact .inl rfl

/-- A commit is executed if it is answered with `:ok`, -/
theorem commit_of_reply {hash : Bytes} {ifMatch : Option Bytes}
    (h : (s.answer objects holder monitor (.commit hash ifMatch version) fault).1 = .ok) :
    fault = none ∧ ∃ objects', commit objects hash ifMatch version = .ok objects' := by
  rcases hanswer : s.answer objects holder monitor (.commit hash ifMatch version) fault with
    ⟨reply, s', objects'⟩
  rw [hanswer] at h
  cases called_of_answer hanswer with
  | commit hfault hcommit => exact ⟨hfault, _, hcommit⟩
  | uncommitted | refused => cases h

/-- and only then. -/
theorem reply_of_commit {hash : Bytes} {ifMatch : Option Bytes} {objects' : Objects}
    (h : commit objects hash ifMatch version = .ok objects') :
    (s.answer objects holder monitor (.commit hash ifMatch version) none).1 = .ok := by
  simp [answer, handleCall, h]

/-- A version is given only to a pin, and it is the current one. -/
theorem reply_eq_pinned {info : Meta}
    (h : (s.answer objects holder monitor request fault).1 = .pinned version info) :
    ∃ hash, request = .pin hash ∧ readCurrent objects hash = .ok (version, info) := by
  rcases hanswer : s.answer objects holder monitor request fault with ⟨reply, s', objects'⟩
  rw [hanswer] at h
  cases called_of_answer hanswer with
  | pin hread =>
    cases h
    exact ⟨_, rfl, hread⟩
  | _ => cases h

/-- Why a call fails. -/
theorem reply_eq_error {reason : Reason}
    (h : (s.answer objects holder monitor request fault).1 = .error reason) :
    (∃ r, reason = .adapter r) ∨
    (∃ hash, request = .pin hash ∧ reason = .notFound ∧ (objects hash).current = none) ∨
    ∃ hash ifMatch version current, request = .commit hash ifMatch version ∧
      reason = .preconditionFailed ∧ currentForCommit objects hash = .ok current ∧
      current.map (·.2.etag) ≠ ifMatch := by
  rcases hanswer : s.answer objects holder monitor request fault with ⟨reply, s', objects'⟩
  rw [hanswer] at h
  cases called_of_answer hanswer with
  | unread hread =>
    cases h
    rcases readCurrent_eq_error hread with hadapter | ⟨rfl, hcurrent⟩
    · exact .inl hadapter
    · exact .inr (.inl ⟨_, rfl, rfl, hcurrent⟩)
  | uncommitted hcommit =>
    cases h
    rcases commit_eq_error hcommit with hadapter | ⟨rfl, current, hcurrent, hmatch⟩
    · exact .inl hadapter
    · exact .inr (.inr ⟨_, _, _, current, rfl, rfl, hcurrent, hmatch⟩)
  | refused =>
    cases h
    exact .inl ⟨_, rfl⟩
  | _ => cases h

/-! ### The end of a process, and sweeps -/

/-- The pins after the end of a process: what `Enum.reduce` makes of the entries that come before. -/
theorem lookup_foldl_erase (entries : List (Sigma fun _ : Bytes ↦ Holders)) (hnodup : entries.NodupKeys)
    (pins : AList fun _ : Bytes ↦ Holders) (hdisjoint : ∀ e ∈ entries, pins.lookup e.1 = none) :
    (entries.foldl (fun pins e ↦
      let holders := e.2.erase holder
      if holders.entries.isEmpty then pins else pins.insert e.1 holders) pins).lookup version =
    match entries.dlookup version with
    | some holders => if (holders.erase holder).entries.isEmpty then none else some (holders.erase holder)
    | none => pins.lookup version := by
  induction entries generalizing pins with
  | nil => simp
  | cons e entries ih =>
    obtain ⟨hfresh, hnodup⟩ := List.nodupKeys_cons.mp hnodup
    have hnone : ∀ f ∈ entries, f.1 ≠ e.1 := by
      intro f hf heq
      exact hfresh (heq ▸ List.mem_keys_of_mem hf)
    rw [List.foldl_cons, ih hnodup]
    · obtain ⟨key, holders⟩ := e
      by_cases hv : version = key
      · subst hv
        rw [List.dlookup_cons_eq, List.dlookup_eq_none.mpr hfresh]
        dsimp only
        split
        · exact hdisjoint _ List.mem_cons_self
        · exact AList.lookup_insert _
      · rw [List.dlookup_cons_ne _ _ hv]
        cases entries.dlookup version with
        | some found => rfl
        | none =>
          dsimp only
          split
          · rfl
          · exact AList.lookup_insert_ne hv
    · intro f hf
      dsimp only
      split
      · exact hdisjoint f (List.mem_cons_of_mem _ hf)
      · rw [AList.lookup_insert_ne (hnone f hf)]
        exact hdisjoint f (List.mem_cons_of_mem _ hf)

/-- The end of a process drops its own pins and no others. -/
theorem lookup_pins_handleDown (h : s.monitors.lookup holder = some monitor) :
    (s.handleDown monitor holder).pins.lookup version =
      match s.pins.lookup version with
      | some holders => if (holders.erase holder).entries.isEmpty then none else some (holders.erase holder)
      | none => none := by
  unfold handleDown
  rw [if_pos h]
  dsimp only
  rw [lookup_foldl_erase s.pins.entries s.pins.nodupKeys ∅ (fun _ _ ↦ AList.lookup_empty _),
    AList.lookup_empty]
  rfl

/-- A message of a monitor that is gone changes nothing. -/
theorem handleDown_of_stale (h : s.monitors.lookup holder ≠ some monitor) :
    s.handleDown monitor holder = s := by
  rw [handleDown, if_neg h]

/-- The end of a process adds no pin. -/
theorem pins_of_handleDown (h : (s.handleDown monitor holder).Pins version) : s.Pins version := by
  by_cases hmonitor : s.monitors.lookup holder = some monitor
  · unfold Pins at *
    rw [lookup_pins_handleDown hmonitor] at h
    split at h
    · simp [*]
    · cases h
  · rwa [handleDown_of_stale hmonitor] at h

/-- The end of a process drops its own holds and no others. -/
theorem lookup_holds_handleDown (h : s.monitors.lookup holder = some monitor) :
    (s.handleDown monitor holder).holds.lookup ref =
      (s.holds.lookup ref).filter fun hold ↦ hold.1 != holder := by
  unfold handleDown
  rw [if_pos h]
  apply Option.ext
  intro hold
  rw [Option.filter_eq_some_iff, ← Option.mem_def, AList.mem_lookup_iff, ← Option.mem_def,
    AList.mem_lookup_iff]
  exact List.mem_filter

/-- The end of a process adds no claim. -/
theorem claims_of_handleDown (h : (s.handleDown monitor holder).Claims ref version) :
    s.Claims ref version := by
  by_cases hmonitor : s.monitors.lookup holder = some monitor
  · obtain ⟨owner, howner⟩ := h
    rw [lookup_holds_handleDown hmonitor] at howner
    exact ⟨owner, (Option.filter_eq_some_iff.mp howner).1⟩
  · rwa [handleDown_of_stale hmonitor] at h

/-! ### Sweeps -/

/-- A sweep leaves the current pointer. -/
@[simp] theorem current_sweepHash (removal : Bytes → Removal) (dir : ObjectDir) :
    (s.sweepHash removal dir).current = dir.current := by
  unfold sweepHash
  split <;> rfl

/-- A sweep keeps the current version and those that are pinned or claimed. -/
theorem versions_sweepHash (removal : Bytes → Removal) (dir : ObjectDir) :
    (s.sweepHash removal dir).versions version = dir.versions version ∨
      (dir.current ≠ some version ∧ ¬ s.Pins version ∧ (∀ ref, ¬ s.Claims ref version) ∧
        (s.sweepHash removal dir).versions version =
          (dir.versions version).bind (removal version).leaves) := by
  unfold sweepHash
  split
  · dsimp only
    split
    · next hsweepable =>
      right
      simp only [sweepable, Bool.and_eq_true, bne_iff_ne, ne_eq, Bool.not_eq_true'] at hsweepable
      obtain ⟨⟨⟨-, hcurrent⟩, hpins⟩, hclaims⟩ := hsweepable
      refine ⟨hcurrent, by simp [Pins, hpins], ?_, rfl⟩
      rintro ref ⟨holder, hholder⟩
      have hmem := AList.mem_lookup_iff.mp hholder
      have := List.any_eq_false.mp hclaims _ hmem
      simp at this
    · exact .inl rfl
  · exact .inl rfl

end Server

end Gitility.LocalStore
