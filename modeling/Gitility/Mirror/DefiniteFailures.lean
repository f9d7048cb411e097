import Gitility.Mirror.PublishSafety

/-!
# Definite failures of publish

An error of `publish` without `indeterminate: true` says that the call's put has failed. It is right when
the store rejects a put for good wherever it does not lose the answer, and when a put whose answer was
lost has ended and was not replaced by the time of the second head. An adapter that raises after the store
took the put, and a put that is applied after the second head, make it wrong.
-/

namespace Gitility.Mirror

open Gitility.Bundle

/-- The call has been told, by its put or by its second head, that the put failed. -/
def Call.Refused (call : Call) : Prop :=
  call.answer = some .failed ∨ call.answer = some .precondition ∧ call.reconciled ≠ none ∨
    call.answer = some .transport ∧ call.reconciled = some true

/-- The call returned a definite failure. -/
def Call.Failed (call : Call) : Prop := ∃ result, call.phase = .returned result ∧ result.Definite

namespace Bucket

/-- The callback of an applied put does not end in a failure other than a lost precondition, a transport
failure or a deadline. -/
def AnswersTruly (sha256 : Bytes → Bytes) (call : Call) (callback : Callback Bytes) : Prop :=
  ∀ remote toc, call.phase = .putting remote toc → (putAnswer sha256 remote toc callback).2 ≠ .failed

/-- What the second head of a call whose put was applied must find: its digest after a lost
precondition, its own version after a transport failure. -/
def ReconcilesTruly (sha256 : Bytes → Bytes) (current : Option Version) (phase : Phase)
    (answer : HeadAnswer) (applied : Version) : Prop :=
  match phase, answer with
  | .reconcilePrecondition toc, .answered => digestOf current = some (tocDigest sha256 toc)
  | .reconcilePrecondition _, .failed _ => False
  | .reconcileTransport _ _, .answered => current = some applied
  | _, _ => True

/-- The store rejects for good what it or the second head reports as failed. -/
def Settles (sha256 : Bytes → Bytes) (s : Bucket) : Move → Prop
  | .apply i _ => ∀ call, s.calls[i]? = some call → ¬ call.Refused
  | .answer i callback => ∀ call put etag, s.calls[i]? = some call →
      call.put = some (put, .committed etag) → AnswersTruly sha256 call callback
  | .reconcile i answer => ∀ call put etag, s.calls[i]? = some call →
      call.put = some (put, .committed etag) →
      ReconcilesTruly sha256 s.current call.phase answer (put.version etag)
  | _ => True

/-- How far a call is told about its put. -/
def Told (call : Call) : Prop :=
  match call.phase with
  | .reconcilePrecondition _ => call.answer = some .precondition
  | .reconcileTransport _ _ => call.answer = some .transport
  | .returned result => call.put ≠ none → result.Definite → call.Refused
  | _ => True

/-- No call that failed definitely has a put that was applied. -/
structure Sound (s : Bucket) : Prop where
  told : ∀ (i : ℕ) (call : Call), s.calls[i]? = some call → Told call
  failed : ∀ (i : ℕ) (call : Call) (put : Put) (etag : Bytes), s.calls[i]? = some call → call.Failed →
    call.put ≠ some (put, .committed etag)

section Step

variable {sha256 : Bytes → Bytes} {initial : Option Version} {s s' : Bucket} {i : ℕ} {move : Move}
  {past : List (Bucket × Move)} {call call' : Call}

/-- A call returns once. -/
theorem Advance.not_returned {current : Option Version} (h : Advance sha256 current i move call call')
    (result : Result) : call.phase ≠ .returned result := by
  intro hreturned
  cases h with
  | head hphase | notNewer hphase | bundle hphase | issue hphase | answer _ hphase | precondition hphase
  | preconditionFailed _ hphase | transport hphase | transportFailed _ hphase =>
    rw [hphase] at hreturned
    cases hreturned
  | stop hbefore =>
    rw [hreturned] at hbefore
    exact hbefore

/-- What a call returned stays. -/
theorem returned_step (hstep : step sha256 s move = some s') {result : Result}
    (hcall : s.calls[i]? = some call) (hreturned : call.phase = .returned result) :
    ∃ call', s'.calls[i]? = some call' ∧ call'.phase = .returned result := by
  have hlt := (List.getElem?_eq_some_iff.mp hcall).1
  rcases step_cases hstep with
    ⟨-, rfl⟩ | ⟨j, etag, found, put, -, hfound, -, -, -, rfl⟩ | ⟨j, found, found', hfound, rfl, hadvance⟩
  · exact ⟨call, by rwa [List.getElem?_append_left hlt], hreturned⟩
  · by_cases hij : j = i
    · subst hij
      obtain rfl := Option.some.inj (hcall.symm.trans hfound)
      exact ⟨_, List.getElem?_set_self hlt, hreturned⟩
    · exact ⟨call, by rwa [advance, List.getElem?_set_ne hij], hreturned⟩
  · by_cases hij : j = i
    · subst hij
      obtain rfl := Option.some.inj (hcall.symm.trans hfound)
      exact absurd hreturned (hadvance.not_returned result)
    · exact ⟨call, by rwa [advance, List.getElem?_set_ne hij], hreturned⟩

/-- A second head that finds the call's digest is not a failure. -/
theorem reconcilePrecondition_of_digest {current : Option Version} {digest : Bytes}
    (h : digestOf current = some digest) : reconcilePrecondition digest current = .notNewer := by
  rw [digestOf, Option.map_eq_some_iff] at h
  obtain ⟨metadata, hmetadata, hdigest⟩ := h
  obtain ⟨version, rfl, hmetadata⟩ := Option.bind_eq_some_iff.mp hmetadata
  simp only [reconcilePrecondition, validateRemoteMetadata_eq_ok.mpr hmetadata, hdigest, if_true]

/-- A second head that finds the call's own version yields a receipt. -/
theorem reconcileTransport_of_own {toc : Toc} {etag : Bytes} (hhistory : History sha256 initial s.versions)
    (h : CallInv sha256 initial s.versions past i call)
    (hput : call.put = some (putOf sha256 call toc, .committed etag))
    (hcurrent : s.current = some ((putOf sha256 call toc).version etag)) :
    ∃ receipt, reconcileTransport (call.seen.map Version.etag) toc.generation (tocDigest sha256 toc)
      s.current = .receipt receipt := by
  have hprepared := h.prepared hput
  have hmetadata : remoteMetadata ((putOf sha256 call toc).version etag).metadata =
      some ⟨toc.generation, tocDigest sha256 toc, toc.refs.length, toc.files.length⟩ := hprepared.metadata
  have hchanged : call.seen.map Version.etag = none ∨
      some ((putOf sha256 call toc).version etag).etag ≠ call.seen.map Version.etag := by
    cases hseen : call.seen with
    | none => exact .inl rfl
    | some version =>
      refine .inr fun hetag ↦ ?_
      -- Of one etag there is one version, but the generations differ.
      have hsame := hhistory.eq_of_etag (List.mem_of_getLast? hcurrent) (h.seen version hseen)
        (Option.some.inj hetag)
      have hnext := hprepared.generation
      rw [hseen, ← hsame] at hnext
      simp only [generationOf, Option.bind_some, hmetadata, Option.map_some, Option.getD_some] at hnext
      omega
  rw [hcurrent]
  simp only [reconcileTransport, validateRemoteMetadata_eq_ok.mpr hmetadata]
  rw [if_pos ⟨trivial, trivial, hchanged⟩]
  exact ⟨_, rfl⟩

/-- What a step of a call tells it. -/
theorem Told.advance (h : Told call) (hphase : PhaseInv sha256 initial past i call)
    (hadvance : Advance sha256 s.current i move call call') : Told call' := by
  cases hadvance with
  | head hstarted hremote => trivial
  | stop hbefore =>
    intro hput
    exact absurd (put_none_of_beforePut hphase hbefore) hput
  | notNewer hheaded hwrite hdigest =>
    intro _ hdefinite
    exact absurd hdefinite not_false
  | bundle hheaded hwrite => trivial
  | issue hready => trivial
  | @answer _ remote toc callback hputting =>
    rcases putAnswer_cases sha256 remote toc callback with
      ⟨etag, -, heq⟩ | heq | heq | ⟨error, heq⟩ | heq
    · rw [heq]
      intro _ hdefinite
      exact absurd hdefinite not_false
    · rw [heq]
      rfl
    · rw [heq]
      rfl
    · rw [heq]
      exact fun _ _ ↦ .inl rfl
    · rw [heq]
      intro _ hdefinite
      exact absurd rfl hdefinite
  | precondition hreconcile =>
    simp only [Told, hreconcile] at h
    exact fun _ _ ↦ .inr (.inl ⟨h, Option.some_ne_none _⟩)
  | preconditionFailed callback hreconcile =>
    simp only [Told, hreconcile] at h
    exact fun _ _ ↦ .inr (.inl ⟨h, Option.some_ne_none _⟩)
  | transport hreconcile =>
    simp only [Told, hreconcile] at h
    exact fun _ _ ↦ .inr (.inr ⟨h, rfl⟩)
  | transportFailed callback hreconcile =>
    intro _ hdefinite
    refine absurd hdefinite ?_
    simp only [transportHeadError]
    split
    · exact fun hdefinite ↦ hdefinite rfl
    · exact fun hdefinite ↦ hdefinite rfl

/-- A step that settles its call leaves no applied put behind a definite failure. -/
theorem not_failed_of_settles (hhistory : History sha256 initial s.versions) (hcall : s.calls[i]? = some call)
    (h : CallInv sha256 initial s.versions past i call) (hsettles : Settles sha256 s move)
    (hadvance : Advance sha256 s.current i move call call') {put : Put} {etag : Bytes}
    (hput : call'.put = some (put, .committed etag)) : ¬ call'.Failed := by
  have hphase := h.phase
  rintro ⟨result, hreturned, hdefinite⟩
  cases hadvance with
  | head | bundle | issue => cases hreturned
  | notNewer =>
    cases hreturned
    exact hdefinite
  | stop hbefore =>
    have hnone := put_none_of_beforePut hphase hbefore
    rw [show call.put = some (put, .committed etag) from hput] at hnone
    cases hnone
  | @answer _ remote toc callback hputting =>
    have htrue := hsettles call put etag hcall hput remote toc hputting
    rcases putAnswer_cases sha256 remote toc callback with
      ⟨etag, -, heq⟩ | heq | heq | ⟨error, heq⟩ | heq
    · simp only [heq] at hreturned
      cases hreturned
      exact hdefinite
    · simp only [heq] at hreturned
      cases hreturned
    · simp only [heq] at hreturned
      cases hreturned
    · exact htrue (by rw [heq])
    · simp only [heq] at hreturned
      cases hreturned
      exact hdefinite rfl
  | @precondition _ toc hreconcile =>
    have htrue := hsettles call put etag hcall hput
    simp only [ReconcilesTruly, hreconcile] at htrue
    simp only [reconcilePrecondition_of_digest htrue] at hreturned
    cases hreturned
    exact hdefinite
  | preconditionFailed callback hreconcile =>
    have htrue := hsettles call put etag hcall hput
    simp only [ReconcilesTruly, hreconcile] at htrue
  | @transport _ ifMatch toc hreconcile =>
    have htrue := hsettles call put etag hcall hput
    simp only [ReconcilesTruly, hreconcile] at htrue
    simp only [PhaseInv, hreconcile] at hphase
    obtain ⟨rfl, status, hof⟩ := hphase
    obtain ⟨rfl, rfl⟩ : put = putOf sha256 call toc ∧ PutStatus.committed etag = status := by
      simpa using hput.symm.trans hof
    obtain ⟨receipt, heq⟩ := reconcileTransport_of_own hhistory h hof htrue
    simp only [heq] at hreturned
    cases hreturned
    exact hdefinite
  | transportFailed callback hreconcile =>
    cases hreturned
    simp only [transportHeadError] at hdefinite
    split at hdefinite
    · exact hdefinite rfl
    · exact hdefinite rfl

/-- A call that failed definitely has put nothing, or was told that its put failed. -/
theorem refused_of_failed (htold : Told call) (hfailed : call.Failed) (hput : call.put ≠ none) :
    call.Refused := by
  obtain ⟨result, hreturned, hdefinite⟩ := hfailed
  simp only [Told, hreturned] at htold
  exact htold hput hdefinite

/-- Every step that settles its call keeps the failures sound. -/
theorem Sound.step (hinv : Inv sha256 initial past s) (h : Sound s) (hsettles : Settles sha256 s move)
    (hstep : step sha256 s move = some s') : Sound s' := by
  rcases step_cases hstep with
    ⟨-, rfl⟩ | ⟨j, etag, found, put, rfl, hfound, hput, -, -, rfl⟩ | ⟨j, found, found', hfound, rfl, hadvance⟩
  · have hnew {k : ℕ} {call : Call}
        (hcall : (s.calls ++ [{ phase := .started }])[k]? = some call) :
        s.calls[k]? = some call ∨ call = { phase := .started } := by
      rcases Nat.lt_or_ge k s.calls.length with hlt | hge
      · exact .inl (by rwa [List.getElem?_append_left hlt] at hcall)
      · rw [List.getElem?_append_right hge] at hcall
        exact .inr (List.mem_singleton.mp (List.mem_of_getElem? hcall))
    refine ⟨fun k call hcall ↦ ?_, fun k call put etag hcall hfailed ↦ ?_⟩
    · rcases hnew hcall with hcall | rfl
      · exact h.told k call hcall
      · trivial
    · rcases hnew hcall with hcall | rfl
      · exact h.failed k call put etag hcall hfailed
      · simp
  · refine ⟨fun k call hcall ↦ ?_, fun k call put' etag' hcall hfailed ↦ ?_⟩
    · rcases calls_advance hcall with ⟨rfl, rfl⟩ | ⟨-, hcall⟩
      · have htold := h.told k found hfound
        unfold Told at htold ⊢
        dsimp only
        split
        · next heq => simpa only [heq] using htold
        · next heq => simpa only [heq] using htold
        · next heq =>
          intro _ hdefinite
          simp only [heq] at htold
          exact htold (by rw [hput]; exact Option.some_ne_none _) hdefinite
        · trivial
      · exact h.told k call hcall
    · rcases calls_advance hcall with ⟨rfl, rfl⟩ | ⟨-, hcall⟩
      · have hrefused := refused_of_failed (h.told k found hfound) hfailed
          (by rw [hput]; exact Option.some_ne_none _)
        exact absurd hrefused (hsettles found hfound)
      · exact h.failed k call put' etag' hcall hfailed
  · have hcallInv := hinv.calls j found hfound
    refine ⟨fun k call hcall ↦ ?_, fun k call put etag hcall hfailed hput ↦ ?_⟩
    · rcases calls_advance hcall with ⟨rfl, rfl⟩ | ⟨-, hcall⟩
      · exact (h.told k found hfound).advance hcallInv.phase hadvance
      · exact h.told k call hcall
    · rcases calls_advance hcall with ⟨rfl, rfl⟩ | ⟨-, hcall⟩
      · exact not_failed_of_settles hinv.history hfound hcallInv hsettles hadvance hput hfailed
      · exact h.failed k call put etag hcall hfailed hput

/-- What a run has shown of a call that failed definitely stays so. -/
theorem failed_step (hstep : step sha256 s move = some s') (hcall : s.calls[i]? = some call)
    (hfailed : call.Failed) : ∃ call', s'.calls[i]? = some call' ∧ call'.Failed := by
  obtain ⟨result, hreturned, hdefinite⟩ := hfailed
  obtain ⟨call', hcall', hreturned'⟩ := returned_step hstep hcall hreturned
  exact ⟨call', hcall', result, hreturned', hdefinite⟩

end Step

variable {sha256 : Bytes → Bytes} {initial : Option Version} {s : Bucket}

/-- In a run whose steps all settle their calls, the put of a call that has failed definitely in some
state was not applied then and is not applied later. -/
theorem definite_failures (hsha : ∀ bytes, (sha256 bytes).length = 32) {steps : List (Bucket × Move)}
    (hrun : Trace (step sha256) ⟨initial.toList, []⟩ steps s)
    (hsettles : ∀ x ∈ steps, Settles sha256 x.1 x.2) (i : ℕ) :
    (∀ call, s.calls[i]? = some call → call.Failed → ∀ put etag, call.put ≠ some (put, .committed etag)) ∧
      ∀ x ∈ steps, ∀ call, x.1.calls[i]? = some call → call.Failed →
        ∃ later, s.calls[i]? = some later ∧ ∀ put etag, later.put ≠ some (put, .committed etag) := by
  have hstart : Sound ⟨initial.toList, []⟩ := ⟨by simp, by simp⟩
  obtain ⟨⟨-, hsound, hpast⟩, -⟩ := hrun.along
    (I := fun past s ↦ Inv sha256 initial past s ∧ Sound s ∧ ∀ x ∈ past, ∀ call : Call,
      x.1.calls[i]? = some call → call.Failed → ∃ later, s.calls[i]? = some later ∧ later.Failed)
    (P := Settles sha256) ⟨Inv.start initial, hstart, by simp⟩
    (fun {past s move s'} ⟨hinv, hsound, hpast⟩ hsettles hstep ↦ by
      refine ⟨hinv.step hsha hstep, hsound.step hinv hsettles hstep, fun x hx call hcall hfailed ↦ ?_⟩
      rcases List.mem_append.mp hx with hx | hx
      · obtain ⟨later, hlater, hfailed⟩ := hpast x hx call hcall hfailed
        exact failed_step hstep hlater hfailed
      · obtain rfl := List.mem_singleton.mp hx
        exact failed_step hstep hcall hfailed)
    hsettles
  refine ⟨fun call hcall hfailed put etag ↦ hsound.failed i call put etag hcall hfailed,
    fun x hx call hcall hfailed ↦ ?_⟩
  obtain ⟨later, hlater, hfailed⟩ := hpast x hx call hcall hfailed
  exact ⟨later, hlater, fun put etag ↦ hsound.failed i later put etag hlater hfailed⟩

/-! ### A lost answer -/

/-- One call, whose put is answered by a transport failure before the store applied it, and whose second
head finds the key still empty. -/
theorem sample_lost {input : Writer.Input} {toc : Toc}
    (hbundle : writePublishBundle sha256 1 input = .ok toc)
    (hvalid : validateMetadata (bundleMetadata toc (tocDigest sha256 toc)) = .ok ()) :
    ∃ steps, Trace (step sha256) ⟨[], []⟩ steps ⟨[], [{
      phase := .returned (.error transportBackendError)
      put := some (⟨none, toc.fileSize, bundleMetadata toc (tocDigest sha256 toc), toc⟩, .inFlight)
      bundle := some toc
      answer := some .transport
      reconciled := some true }]⟩ ∧ ∀ x ∈ steps, Settles sha256 x.1 x.2 := by
  have hstart : Trace (step sha256) ⟨[], []⟩ [] ⟨[], []⟩ := .nil
  have hready := ((hstart.move .start rfl).move (.head 0 .answered) rfl).move (.bundle 0 (.ok input))
    (sample_ready hbundle hvalid ⟨[], [sampleHeaded]⟩ 0 rfl)
  have hlost := ((hready.move (.issue 0) rfl).move (.answer 0 (.error (.transport "closed"))) rfl).move
    (.reconcile 0 .answered) rfl
  refine ⟨_, hlost, fun x hx ↦ ?_⟩
  simp only [List.nil_append, List.cons_append, List.mem_cons, List.not_mem_nil, or_false] at hx
  rcases hx with rfl | rfl | rfl | rfl | rfl | rfl
  · trivial
  · trivial
  · trivial
  · trivial
  · rintro call put etag ⟨⟩ ⟨⟩
  · rintro call put etag ⟨⟩ ⟨⟩

/-- The theorem at a call whose PUT was lost: the store has not committed it. -/
theorem definite_failures_sample : ∃ (sha256 : Bytes → Bytes) (steps : List (Bucket × Move)) (s : Bucket)
    (call : Call), Trace (step sha256) ⟨[], []⟩ steps s ∧ s.calls = [call] ∧
      call.phase = .returned (.error transportBackendError) ∧ call.put ≠ none ∧
      ∀ put etag, call.put ≠ some (put, .committed etag) := by
  obtain ⟨input, toc, hbundle, -, hvalid, -⟩ := sample_bundle
  obtain ⟨steps, hrun, hsettles⟩ := sample_lost hbundle hvalid
  have hsound := @definite_failures _ none _ (Writer.length_sampleSha256 rfl) _ hrun hsettles 0
  exact ⟨_, steps, _, _, hrun, rfl, rfl, Option.some_ne_none _,
    hsound.1 _ rfl ⟨_, rfl, (by decide : none ≠ some true)⟩⟩

/-- An adapter that raises after the store applied the put, and a store that applies a put after its
transport failed and the second head was answered. -/
theorem failed_put_applied : ∃ sha256 : Bytes → Bytes, (∀ bytes, (sha256 bytes).length = 32) ∧
    (∃ steps s call put etag, Trace (step sha256) ⟨[], []⟩ steps s ∧ s.calls[0]? = some call ∧
      call.phase = .returned (.error (adapterError (.adapter "exception"))) ∧ call.Failed ∧
      call.put = some (put, .committed etag)) ∧
    ∃ steps s call put etag, Trace (step sha256) ⟨[], []⟩ steps s ∧ s.calls[0]? = some call ∧
      call.phase = .returned (.error transportBackendError) ∧ call.Failed ∧
      call.put = some (put, .committed etag) := by
  obtain ⟨input, toc, hbundle, -, hvalid, -⟩ := sample_bundle
  obtain ⟨steps, hrun, -⟩ := sample_run hbundle hvalid
  obtain ⟨steps', hlost, -⟩ := sample_lost hbundle hvalid
  have hraised := hrun.move (.answer 0 .raised) rfl
  have hlate := hlost.move (.apply 0 [7]) rfl
  refine ⟨_, Writer.length_sampleSha256 rfl, ⟨_, _, _, _, _, hraised, rfl, rfl, ?_, rfl⟩, _, _, _, _, _, hlate,
    rfl, rfl, ?_, rfl⟩
  · exact ⟨_, rfl, (by decide : none ≠ some true)⟩
  · exact ⟨_, rfl, (by decide : none ≠ some true)⟩

end Bucket

end Gitility.Mirror
