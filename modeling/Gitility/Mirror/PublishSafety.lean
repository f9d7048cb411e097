import Gitility.Bundle.Generations
import Gitility.Mirror.Publish

/-!
# Concurrent publishers

Each call remembers an etag, a generation and a digest of one version. The invariant relates them to the
whole history of the key: the version that was seen is still among the versions, and the generation of
each version is that of the one before it plus one.
-/

namespace Gitility.Mirror

open Gitility.Bundle

variable {sha256 : Bytes → Bytes}

/-! ### The history of a key -/

/-- The generation that a version's metadata declares; an empty key has generation 0. -/
def generationOf (version : Option Version) : ℕ :=
  ((version.bind fun v ↦ remoteMetadata v.metadata).map RemoteMetadata.generation).getD 0

/-- The digest that a version's metadata declares. -/
def digestOf (version : Option Version) : Option Bytes :=
  (version.bind fun v ↦ remoteMetadata v.metadata).map RemoteMetadata.tipsDigest

/-- A version that a call committed: its metadata describes its bundle. -/
def Stored (sha256 : Bytes → Bytes) (version : Version) : Prop :=
  ∃ toc, version.toc = some toc ∧ remoteMetadata version.metadata =
    some ⟨toc.generation, tocDigest sha256 toc, toc.refs.length, toc.files.length⟩

/-- The versions of a key that started with `initial`. -/
structure History (sha256 : Bytes → Bytes) (initial : Option Version) (versions : List Version) : Prop where
  start : initial.toList <+: versions
  etags : (versions.map Version.etag).Nodup
  stored : ∀ k v, versions[k]? = some v → initial.toList.length ≤ k → Stored sha256 v
  next : ∀ k v w, versions[k]? = some v → versions[k + 1]? = some w →
    generationOf (some w) = generationOf (some v) + 1

namespace History

variable {initial : Option Version} {versions : List Version}

/-- The generation of a version counts the commits before it. -/
theorem generation_add (h : History sha256 initial versions) {j n : ℕ} {v w : Version}
    (hv : versions[j]? = some v) (hw : versions[j + n]? = some w) :
    generationOf (some w) = generationOf (some v) + n := by
  induction n generalizing w with
  | zero =>
    rw [Nat.add_zero, hv] at hw
    cases hw
    rfl
  | succ n ih =>
    have hlt : j + n < versions.length := by
      have := (List.getElem?_eq_some_iff.mp hw).1
      omega
    have hmid := List.getElem?_eq_getElem hlt
    rw [h.next (j + n) _ w hmid hw, ih hmid, Nat.add_assoc]

/-- A generation is stored once. -/
theorem index_of_generation (h : History sha256 initial versions) {j k : ℕ} {v w : Version}
    (hv : versions[j]? = some v) (hw : versions[k]? = some w)
    (heq : generationOf (some v) = generationOf (some w)) : j = k := by
  rcases Nat.le_total j k with hle | hle
  · obtain ⟨n, rfl⟩ := Nat.exists_eq_add_of_le hle
    have := h.generation_add hv hw
    omega
  · obtain ⟨n, rfl⟩ := Nat.exists_eq_add_of_le hle
    have := h.generation_add hw hv
    omega

/-- A version is determined by its etag. -/
theorem eq_of_etag (h : History sha256 initial versions) {v w : Version} (hv : v ∈ versions)
    (hw : w ∈ versions) (heq : v.etag = w.etag) : v = w :=
  List.inj_on_of_nodup_map h.etags hv hw heq

/-- A commit over the current version extends the history. -/
theorem commit (h : History sha256 initial versions) {v : Version}
    (hfresh : v.etag ∉ versions.map Version.etag) (hstored : Stored sha256 v)
    (hnext : generationOf (some v) = generationOf versions.getLast? + 1) :
    History sha256 initial (versions ++ [v]) where
  start := h.start.trans (List.prefix_append _ _)
  etags := by
    rw [List.map_append, List.nodup_append]
    refine ⟨h.etags, List.nodup_singleton _, ?_⟩
    rintro etag hmem _ hlast rfl
    rw [List.map_singleton, List.mem_singleton] at hlast
    rw [hlast] at hmem
    exact hfresh hmem
  stored := by
    intro k w hk hle
    rcases Nat.lt_or_ge k versions.length with hlt | hge
    · rw [List.getElem?_append_left hlt] at hk
      exact h.stored k w hk hle
    · rw [List.getElem?_append_right hge] at hk
      obtain rfl := List.mem_singleton.mp (List.mem_of_getElem? hk)
      exact hstored
  next := by
    intro k u w hu hw
    have hlt := (List.getElem?_eq_some_iff.mp hw).1
    rw [List.length_append, List.length_singleton] at hlt
    rw [List.getElem?_append_left (by omega)] at hu
    rcases Nat.lt_or_ge (k + 1) versions.length with hinner | hlast
    · rw [List.getElem?_append_left hinner] at hw
      exact h.next k u w hu hw
    · rw [List.getElem?_append_right hlast] at hw
      obtain rfl := List.mem_singleton.mp (List.mem_of_getElem? hw)
      -- The version before the new one is the current one.
      have hcurrent : versions.getLast? = some u := by
        rw [List.getLast?_eq_getElem?, show versions.length - 1 = k by omega, hu]
      rw [hnext, hcurrent]

end History

/-! ### What a call knows -/

/-- The call was running in some state of the past in which the key carried the digest. -/
def Held (past : List (Bucket × Bucket.Move)) (i : ℕ) (digest : Bytes) : Prop :=
  ∃ x ∈ past, ∃ call, x.1.calls[i]? = some call ∧ (∀ result, call.phase ≠ .returned result) ∧
    digestOf x.1.current = some digest

/-- What the first head returned describes the version that it saw. -/
structure Remembers (initial : Option Version) (past : List (Bucket × Bucket.Move)) (i : ℕ)
    (seen : Option Version) (remote : Remote) : Prop where
  generation : remote.generation = generationOf seen
  etag : remote.etag = seen.map Version.etag
  room : remote.generation < maximumGeneration
  held : ∀ digest, remote.digest = some digest → Held past i digest
  empty : seen = none → initial = none

/-- The bundle of a call continues the version that its first head saw. -/
structure Prepared (sha256 : Bytes → Bytes) (initial : Option Version) (call : Call) (toc : Toc) :
    Prop where
  bundle : call.bundle = some toc
  generation : toc.generation = generationOf call.seen + 1
  metadata : remoteMetadata (bundleMetadata toc (tocDigest sha256 toc)) =
    some ⟨toc.generation, tocDigest sha256 toc, toc.refs.length, toc.files.length⟩
  empty : call.seen = none → initial = none

/-- The put of a call. -/
def putOf (sha256 : Bytes → Bytes) (call : Call) (toc : Toc) : Put :=
  ⟨call.seen.map Version.etag, toc.fileSize, bundleMetadata toc (tocDigest sha256 toc), toc⟩

/-- The version that a put commits. -/
def Put.version (put : Put) (etag : Bytes) : Version := ⟨etag, put.size, put.metadata, some put.toc⟩

/-- What a call knows in each phase. -/
def PhaseInv (sha256 : Bytes → Bytes) (initial : Option Version) (past : List (Bucket × Bucket.Move))
    (i : ℕ) (call : Call) : Prop :=
  match call.phase with
  | .started => call.put = none
  | .headed remote => call.put = none ∧ Remembers initial past i call.seen remote
  | .ready remote toc => call.put = none ∧ Prepared sha256 initial call toc ∧
      remote.etag = call.seen.map Version.etag
  | .putting remote toc => remote.etag = call.seen.map Version.etag ∧
      ∃ status, call.put = some (putOf sha256 call toc, status)
  | .reconcilePrecondition toc => ∃ status, call.put = some (putOf sha256 call toc, status)
  | .reconcileTransport ifMatch toc => ifMatch = call.seen.map Version.etag ∧
      ∃ status, call.put = some (putOf sha256 call toc, status)
  | .returned .notNewer => ∃ toc, call.bundle = some toc ∧ Held past i (tocDigest sha256 toc)
  | .returned _ => True

/-- What holds of every call. -/
structure CallInv (sha256 : Bytes → Bytes) (initial : Option Version) (versions : List Version)
    (past : List (Bucket × Bucket.Move)) (i : ℕ) (call : Call) : Prop where
  seen : ∀ version, call.seen = some version → version ∈ versions
  put : ∀ put status, call.put = some (put, status) →
    ∃ toc, put = putOf sha256 call toc ∧ Prepared sha256 initial call toc ∧
      ∀ etag, status = .committed etag → put.version etag ∈ versions
  phase : PhaseInv sha256 initial past i call

/-- The invariant of all publishers. -/
structure Bucket.Inv (sha256 : Bytes → Bytes) (initial : Option Version)
    (past : List (Bucket × Bucket.Move)) (s : Bucket) : Prop where
  history : History sha256 initial s.versions
  calls : ∀ i call, s.calls[i]? = some call → CallInv sha256 initial s.versions past i call

section Step

variable {initial : Option Version} {versions versions' : List Version} {s : Bucket} {i : ℕ}
  {past past' : List (Bucket × Bucket.Move)} {call call' : Call} {toc : Toc}

private theorem Held.mono {digest : Bytes} (h : Held past i digest) (hpast : past ⊆ past') :
    Held past' i digest := by
  obtain ⟨x, hx, hheld⟩ := h
  exact ⟨x, hpast hx, hheld⟩

private theorem Remembers.mono {seen : Option Version} {remote : Remote}
    (h : Remembers initial past i seen remote) (hpast : past ⊆ past') :
    Remembers initial past' i seen remote :=
  { h with held := fun digest hdigest ↦ (h.held digest hdigest).mono hpast }

private theorem PhaseInv.mono (h : PhaseInv sha256 initial past i call) (hpast : past ⊆ past') :
    PhaseInv sha256 initial past' i call := by
  unfold PhaseInv at h ⊢
  split at h
  · exact h
  · exact ⟨h.1, h.2.mono hpast⟩
  · exact h
  · exact h
  · exact h
  · exact h
  · obtain ⟨toc, hbundle, hheld⟩ := h
    exact ⟨toc, hbundle, hheld.mono hpast⟩
  · exact h

private theorem CallInv.mono (h : CallInv sha256 initial versions past i call) (hversions : versions ⊆ versions')
    (hpast : past ⊆ past') : CallInv sha256 initial versions' past' i call where
  seen version hseen := hversions (h.seen version hseen)
  put put status hput := by
    obtain ⟨toc, heq, hprepared, hcommitted⟩ := h.put put status hput
    exact ⟨toc, heq, hprepared, fun etag hetag ↦ hversions (hcommitted etag hetag)⟩
  phase := h.phase.mono hpast

/-- The bundle of a put that was issued. -/
theorem CallInv.prepared {status : PutStatus} (h : CallInv sha256 initial versions past i call)
    (hput : call.put = some (putOf sha256 call toc, status)) : Prepared sha256 initial call toc := by
  obtain ⟨toc', heq, hprepared, -⟩ := h.put _ _ hput
  obtain rfl : toc = toc' := congrArg Put.toc heq
  exact hprepared

/-- A put that is applied replaces the version that its call saw. -/
theorem current_eq_seen (hhistory : History sha256 initial s.versions)
    (h : CallInv sha256 initial s.versions past i call)
    (hmatch : s.current.map Version.etag = call.seen.map Version.etag) : s.current = call.seen := by
  cases hseen : call.seen with
  | none => simpa [hseen] using hmatch
  | some version =>
    rw [hseen, Option.map_some, Option.map_eq_some_iff] at hmatch
    obtain ⟨current, hcurrent, hetag⟩ := hmatch
    rw [hcurrent, hhistory.eq_of_etag (List.mem_of_getLast? hcurrent) (h.seen version hseen) hetag]

/-- What the first head returns describes the current version. -/
theorem remembers_of_head {remote : Remote} {move : Bucket.Move}
    (hhistory : History sha256 initial s.versions) (hcall : s.calls[i]? = some call)
    (hphase : call.phase = .started) (h : Bucket.publishRemoteHead s.current = .ok remote) :
    Remembers initial (past ++ [(s, move)]) i s.current remote := by
  unfold Bucket.publishRemoteHead at h
  split at h
  · rename_i hcurrent
    cases h
    rw [hcurrent]
    refine ⟨rfl, rfl, by decide, by simp, fun _ ↦ ?_⟩
    have hnil : s.versions = [] := List.getLast?_eq_none_iff.mp hcurrent
    have hstart := hhistory.start
    rw [hnil, List.prefix_nil] at hstart
    cases initial with
    | none => rfl
    | some version => cases hstart
  · rename_i version hcurrent
    split at h
    · rename_i metadata hmetadata
      have hremote := validateRemoteMetadata_eq_ok.mp hmetadata
      split at h
      · cases h
      · rename_i hroom
        cases h
        have hle := generation_le_of_remoteMetadata hremote
        have hdigest : digestOf s.current = some metadata.tipsDigest := by simp [digestOf, hcurrent, hremote]
        rw [hcurrent]
        refine ⟨by simp [generationOf, hremote], rfl, Nat.lt_of_le_of_ne hle hroom, ?_, by simp⟩
        rintro digest ⟨⟩
        exact ⟨(s, move), by simp, call, hcall, by simp [hphase], hdigest⟩
    · cases h

/-- The bundle that a call writes continues what its first head saw. -/
theorem prepared_of_write (hsha : ∀ bytes, (sha256 bytes).length = 32) {remote : Remote}
    {input : Writer.Input} {phase : Phase} (hremote : Remembers initial past i call.seen remote)
    (h : Bucket.writePublishBundle sha256 (remote.generation + 1) input = .ok toc) :
    Prepared sha256 initial { call with phase, bundle := some toc } toc := by
  obtain ⟨⟨receipt, file⟩, hwrite, h⟩ := Except.bind_eq_ok.mp h
  obtain ⟨⟨⟩, -, hparse⟩ := Except.bind_eq_ok.mp h
  have hroom := hremote.room
  have hgeneration := BundlePath.generation_of_parse hsha (Nat.succ_le_of_lt hroom) hwrite hparse
  refine ⟨rfl, ?_, remoteMetadata_bundleMetadata hsha hparse, hremote.empty⟩
  rw [hgeneration, ← hremote.generation]

/-- A call keeps its invariant when only its phase, its bundle and what is said of its answers change. -/
theorem CallInv.update (h : CallInv sha256 initial versions past i call) (hseen : call'.seen = call.seen)
    (hput : call'.put = call.put) (hbundle : call.put ≠ none → call'.bundle = call.bundle)
    (hphase : PhaseInv sha256 initial past' i call') :
    CallInv sha256 initial versions past' i call' where
  seen version hversion := h.seen version (hseen ▸ hversion)
  put put status heq := by
    rw [hput] at heq
    obtain ⟨toc, hof, hprepared, hcommitted⟩ := h.put put status heq
    refine ⟨toc, ?_, ⟨?_, ?_, hprepared.metadata, ?_⟩, hcommitted⟩
    · rw [hof, putOf, putOf, hseen]
    · rw [hbundle (by simp [heq]), hprepared.bundle]
    · rw [hseen, hprepared.generation]
    · rw [hseen]
      exact hprepared.empty
  phase := hphase

/-- A call that has not reached its PUT has not put anything. -/
theorem put_none_of_beforePut (h : PhaseInv sha256 initial past i call)
    (hphase : Bucket.BeforePut call.phase) : call.put = none := by
  unfold PhaseInv at h
  split at h <;> simp_all [Bucket.BeforePut]

/-- A step of a call keeps its invariant. -/
theorem CallInv.advance (hsha : ∀ bytes, (sha256 bytes).length = 32) {move : Bucket.Move}
    (hhistory : History sha256 initial s.versions) (hcall : s.calls[i]? = some call)
    (h : CallInv sha256 initial s.versions past i call)
    (hadvance : Bucket.Advance sha256 s.current i move call call') :
    CallInv sha256 initial s.versions (past ++ [(s, move)]) i call' := by
  have hpast : past ⊆ past ++ [(s, move)] := List.subset_append_left _ _
  have hphase := h.phase.mono hpast
  cases hadvance with
  | @head _ remote hstarted hremote =>
    have hnone := put_none_of_beforePut h.phase (by simp [hstarted, Bucket.BeforePut])
    have hremembers := @remembers_of_head _ _ _ _ past _ _ (.head i .answered) hhistory hcall hstarted hremote
    refine ⟨fun version hversion ↦ List.mem_of_getLast? hversion, ?_, hnone, hremembers⟩
    intro put status hput
    rw [hnone] at hput
    cases hput
  | stop hbefore =>
    have hnone := put_none_of_beforePut h.phase hbefore
    exact h.update rfl rfl (fun hput ↦ absurd hnone hput) trivial
  | notNewer hheaded hwrite hdigest =>
    simp only [PhaseInv, hheaded] at hphase
    refine h.update rfl rfl (fun hput ↦ absurd hphase.1 hput) ?_
    exact ⟨_, rfl, hphase.2.held _ hdigest.symm⟩
  | bundle hheaded hwrite =>
    simp only [PhaseInv, hheaded] at hphase
    refine h.update rfl rfl (fun hput ↦ absurd hphase.1 hput) ?_
    exact ⟨hphase.1, prepared_of_write hsha hphase.2 hwrite, hphase.2.etag⟩
  | @issue _ remote toc hready =>
    simp only [PhaseInv, hready] at hphase
    obtain ⟨-, hprepared, hetag⟩ := hphase
    refine ⟨h.seen, ?_, hetag, .inFlight, by rw [putOf, ← hetag]⟩
    rintro put status ⟨⟩
    exact ⟨toc, by rw [putOf, ← hetag], ⟨hprepared.bundle, hprepared.generation, hprepared.metadata,
      hprepared.empty⟩, by simp⟩
  | @answer _ remote toc callback hputting =>
    simp only [PhaseInv, hputting] at hphase
    refine h.update rfl rfl (fun _ ↦ rfl) ?_
    rcases Bucket.putAnswer_cases sha256 remote toc callback with
      ⟨etag, -, heq⟩ | heq | heq | ⟨error, heq⟩ | heq
    · simp only [PhaseInv, heq]
    · simp only [PhaseInv, heq]
      exact hphase.2
    · simp only [PhaseInv, heq]
      exact hphase
    · simp only [PhaseInv, heq]
    · simp only [PhaseInv, heq]
  | @precondition _ toc hreconcile =>
    simp only [PhaseInv, hreconcile] at hphase
    refine h.update rfl rfl (fun _ ↦ rfl) ?_
    rcases Bucket.reconcilePrecondition_cases (tocDigest sha256 toc) s.current with
      ⟨version, metadata, hcurrent, hmetadata, hdigest, heq⟩ | ⟨error, heq⟩
    · simp only [PhaseInv, heq]
      obtain ⟨status, hput⟩ := hphase
      refine ⟨toc, (h.prepared hput).bundle, (s, _), List.mem_append_right _ List.mem_cons_self, call,
        hcall, by simp [hreconcile], ?_⟩
      simp [digestOf, hcurrent, hmetadata, hdigest]
    · simp only [PhaseInv, heq]
  | preconditionFailed callback hreconcile => exact h.update rfl rfl (fun _ ↦ rfl) trivial
  | @transport _ ifMatch toc hreconcile =>
    refine h.update rfl rfl (fun _ ↦ rfl) ?_
    rcases Bucket.reconcileTransport_cases ifMatch toc.generation (tocDigest sha256 toc) s.current with
      ⟨version, metadata, -, -, -, -, heq⟩ | ⟨error, heq⟩
    · simp only [PhaseInv, heq]
    · simp only [PhaseInv, heq]
  | transportFailed callback hreconcile => exact h.update rfl rfl (fun _ ↦ rfl) trivial

private theorem PhaseInv.committed {put : Put} {status status' : PutStatus}
    (h : PhaseInv sha256 initial past i call) (hput : call.put = some (put, status)) :
    PhaseInv sha256 initial past i { call with put := some (put, status') } := by
  unfold PhaseInv at h ⊢
  dsimp only
  split at h
  · simp [h] at hput
  · simp [h.1] at hput
  · simp [h.1] at hput
  · obtain ⟨hetag, status, heq⟩ := h
    obtain ⟨rfl, -⟩ : put = _ ∧ _ := by simpa [hput] using heq
    exact ⟨hetag, status', rfl⟩
  · obtain ⟨status, heq⟩ := h
    obtain ⟨rfl, -⟩ : put = _ ∧ _ := by simpa [hput] using heq
    exact ⟨status', rfl⟩
  · obtain ⟨hetag, status, heq⟩ := h
    obtain ⟨rfl, -⟩ : put = _ ∧ _ := by simpa [hput] using heq
    exact ⟨hetag, status', rfl⟩
  · exact h
  · exact h

/-- The invariant of a call whose put was applied. -/
theorem CallInv.committed {put : Put} {etag : Bytes} (h : CallInv sha256 initial versions past i call)
    (hput : call.put = some (put, .inFlight)) (hpast : past ⊆ past') :
    CallInv sha256 initial (versions ++ [put.version etag]) past' i
      { call with put := some (put, .committed etag) } where
  seen version hseen := List.mem_append_left _ (h.seen version hseen)
  put := by
    rintro _ _ ⟨⟩
    obtain ⟨toc, heq, hprepared, -⟩ := h.put put _ hput
    refine ⟨toc, heq, ⟨hprepared.bundle, hprepared.generation, hprepared.metadata, hprepared.empty⟩, ?_⟩
    rintro _ ⟨⟩
    exact List.mem_append_right _ List.mem_cons_self
  phase := (h.phase.committed hput).mono hpast

namespace Bucket

variable {move : Move} {s' : Bucket}

/-- The invariant holds before any call. -/
theorem Inv.start (initial : Option Version) : Inv sha256 initial [] ⟨initial.toList, []⟩ where
  history :=
    { start := List.prefix_refl _
      etags := by cases initial <;> simp
      stored := by
        intro k v hk hle
        rw [List.getElem?_eq_none hle] at hk
        cases hk
      next := by
        intro k v w _ hw
        have hlt := (List.getElem?_eq_some_iff.mp hw).1
        cases initial <;> simp at hlt }
  calls := by simp

/-- What an applied put commits: the next generation over the version that its call saw. -/
theorem Inv.commit (h : Inv sha256 initial past s) {put : Put} (etag : Bytes)
    (hcall : s.calls[i]? = some call) (hput : call.put = some (put, .inFlight))
    (hmatch : s.current.map Version.etag = put.ifMatch) :
    s.current = call.seen ∧ Stored sha256 (put.version etag) ∧
      generationOf (some (put.version etag)) = generationOf s.current + 1 := by
  have hinv := h.calls i call hcall
  obtain ⟨toc, rfl, hprepared, -⟩ := hinv.put put _ hput
  have hcurrent := current_eq_seen h.history hinv hmatch
  have hstored : remoteMetadata ((putOf sha256 call toc).version etag).metadata = _ := hprepared.metadata
  refine ⟨hcurrent, ⟨toc, rfl, hstored⟩, ?_⟩
  rw [hcurrent, ← hprepared.generation]
  simp only [generationOf, Option.bind_some, hstored, Option.map_some, Option.getD_some]

/-- Every step keeps the invariant. -/
theorem Inv.step (hsha : ∀ bytes, (sha256 bytes).length = 32) (h : Inv sha256 initial past s)
    (hstep : step sha256 s move = some s') : Inv sha256 initial (past ++ [(s, move)]) s' := by
  have hpast : past ⊆ past ++ [(s, move)] := List.subset_append_left _ _
  rcases step_cases hstep with
    ⟨-, rfl⟩ | ⟨i, etag, call, put, -, hcall, hput, hmatch, hfresh, rfl⟩ | ⟨i, call, call', hcall, rfl, hadvance⟩
  · refine ⟨h.history, fun j found hfound ↦ ?_⟩
    rcases Nat.lt_or_ge j s.calls.length with hlt | hge
    · rw [List.getElem?_append_left hlt] at hfound
      exact (h.calls j found hfound).mono (List.Subset.refl _) hpast
    · rw [List.getElem?_append_right hge] at hfound
      obtain rfl := List.mem_singleton.mp (List.mem_of_getElem? hfound)
      exact ⟨by simp, by simp, rfl⟩
  · obtain ⟨-, hstored, hnext⟩ := h.commit etag hcall hput hmatch
    have hversions : s.versions ⊆ s.versions ++ [put.version etag] := List.subset_append_left _ _
    refine ⟨h.history.commit hfresh hstored hnext, fun j found hfound ↦ ?_⟩
    rcases calls_advance hfound with ⟨rfl, rfl⟩ | ⟨-, hfound⟩
    · exact (h.calls _ call hcall).committed hput hpast
    · exact (h.calls j found hfound).mono hversions hpast
  · refine ⟨h.history, fun j found hfound ↦ ?_⟩
    rcases calls_advance hfound with ⟨rfl, rfl⟩ | ⟨-, hfound⟩
    · exact (h.calls _ call hcall).advance hsha h.history hcall hadvance
    · exact (h.calls j found hfound).mono (List.Subset.refl _) hpast

/-! ### Receipts -/

/-- The store answers a put with an etag only if it applied the put. -/
def Honest (s : Bucket) : Move → Prop
  | .answer i (.ok _) => ∃ call put etag, s.calls[i]? = some call ∧ call.put = some (put, .committed etag)
  | _ => True

/-- A bundle with the generation and the digest was stored. -/
def HasBundle (sha256 : Bytes → Bytes) (versions : List Version) (generation : ℕ) (digest : Bytes) : Prop :=
  ∃ version ∈ versions, Stored sha256 version ∧ ∃ toc, version.toc = some toc ∧
    toc.generation = generation ∧ tocDigest sha256 toc = digest

/-- Every receipt is about a stored bundle. -/
def Receipts (sha256 : Bytes → Bytes) (s : Bucket) : Prop :=
  ∀ (i : ℕ) (call : Call) (receipt : Receipt), s.calls[i]? = some call →
    call.phase = .returned (.receipt receipt) → HasBundle sha256 s.versions receipt.generation receipt.tipsDigest

private theorem HasBundle.mono {generation : ℕ} {digest : Bytes}
    (h : HasBundle sha256 versions generation digest) (hversions : versions ⊆ versions') :
    HasBundle sha256 versions' generation digest := by
  obtain ⟨version, hmem, hstored⟩ := h
  exact ⟨version, hversions hmem, hstored⟩

/-- A version one generation after the one that a call saw was committed by a publisher. -/
theorem stored_of_next {version : Version} {seen : Option Version}
    (hhistory : History sha256 initial versions) (hmem : version ∈ versions)
    (hseen : ∀ w, seen = some w → w ∈ versions) (hempty : seen = none → initial = none)
    (hnext : generationOf (some version) = generationOf seen + 1) : Stored sha256 version := by
  obtain ⟨k, hk⟩ := List.mem_iff_getElem?.mp hmem
  cases seen with
  | none => exact hhistory.stored k version hk (by simp [hempty rfl])
  | some w =>
    refine hhistory.stored k version hk (Nat.le_of_not_lt fun hlt ↦ ?_)
    -- Only the initial version has no publisher, and no version has a smaller generation.
    obtain rfl : k = 0 := by
      have := Option.length_toList_le (o := initial)
      omega
    obtain ⟨j, hj⟩ := List.mem_iff_getElem?.mp (hseen w rfl)
    have hadd := hhistory.generation_add hk (show versions[0 + j]? = some w by rwa [Nat.zero_add])
    omega

/-- The bundle of a put that the store acknowledged is stored. -/
theorem hasBundle_of_honest {remote : Remote} {etag : Bytes}
    (h : CallInv sha256 initial s.versions past i call) (hcall : s.calls[i]? = some call)
    (hputting : call.phase = .putting remote toc) (hhonest : Honest s (.answer i (.ok etag))) :
    HasBundle sha256 s.versions toc.generation (tocDigest sha256 toc) := by
  obtain ⟨call', put, committed, hcall', hput⟩ := hhonest
  obtain rfl : call = call' := Option.some.inj (hcall.symm.trans hcall')
  have hphase := h.phase
  simp only [PhaseInv, hputting] at hphase
  obtain ⟨-, status, hof⟩ := hphase
  obtain rfl : put = putOf sha256 call toc := congrArg Prod.fst (Option.some.inj (hput.symm.trans hof))
  obtain ⟨toc', heq, hprepared, hcommitted⟩ := h.put _ _ hput
  obtain rfl : toc = toc' := congrArg Put.toc heq
  exact ⟨_, hcommitted committed rfl, ⟨toc, rfl, hprepared.metadata⟩, toc, rfl, rfl, rfl⟩

/-- A version with the generation of a call's put was committed by a publisher. -/
theorem hasBundle_of_current {version : Version} {metadata : RemoteMetadata} {status : PutStatus}
    (h : CallInv sha256 initial s.versions past i call)
    (hhistory : History sha256 initial s.versions)
    (hput : call.put = some (putOf sha256 call toc, status)) (hcurrent : s.current = some version)
    (hmetadata : remoteMetadata version.metadata = some metadata)
    (hgeneration : metadata.generation = toc.generation) :
    HasBundle sha256 s.versions metadata.generation metadata.tipsDigest := by
  have hprepared := h.prepared hput
  have hmem : version ∈ s.versions := List.mem_of_getLast? hcurrent
  have hnext : generationOf (some version) = generationOf call.seen + 1 := by
    rw [← hprepared.generation, ← hgeneration]
    simp [generationOf, hmetadata]
  have hstored := stored_of_next hhistory hmem h.seen hprepared.empty hnext
  obtain ⟨stored, htoc, heq⟩ := hstored
  obtain rfl := Option.some.inj (hmetadata.symm.trans heq)
  exact ⟨version, hmem, ⟨stored, htoc, heq⟩, stored, htoc, rfl, rfl⟩

private theorem Receipts.step (h : Inv sha256 initial past s) (hreceipts : Receipts sha256 s)
    (hhonest : Honest s move) (hstep : step sha256 s move = some s') : Receipts sha256 s' := by
  rcases step_cases hstep with
    ⟨-, rfl⟩ | ⟨i, etag, call, put, -, hcall, hput, hmatch, hfresh, rfl⟩ | ⟨i, call, call', hcall, rfl, hadvance⟩
  · intro j found receipt hfound hreturned
    rcases Nat.lt_or_ge j s.calls.length with hlt | hge
    · rw [List.getElem?_append_left hlt] at hfound
      exact hreceipts j found receipt hfound hreturned
    · rw [List.getElem?_append_right hge] at hfound
      obtain rfl := List.mem_singleton.mp (List.mem_of_getElem? hfound)
      cases hreturned
  · intro j found receipt hfound hreturned
    have hversions : s.versions ⊆ s.versions ++ [put.version etag] := List.subset_append_left _ _
    rcases calls_advance hfound with ⟨rfl, rfl⟩ | ⟨-, hfound⟩
    · exact (hreceipts _ call receipt hcall hreturned).mono hversions
    · exact (hreceipts j found receipt hfound hreturned).mono hversions
  · intro j found receipt hfound hreturned
    rcases calls_advance hfound with ⟨rfl, rfl⟩ | ⟨-, hfound⟩
    · have hinv := h.calls _ call hcall
      cases hadvance with
      | head | stop | notNewer | bundle | issue | preconditionFailed | transportFailed => cases hreturned
      | @answer _ remote toc callback hputting =>
        rcases putAnswer_cases sha256 remote toc callback with
          ⟨etag, rfl, heq⟩ | heq | heq | ⟨error, heq⟩ | heq
        · simp only [heq] at hreturned
          cases hreturned
          exact hasBundle_of_honest (s := s) hinv hcall hputting hhonest
        all_goals
          simp only [heq] at hreturned
          cases hreturned
      | @precondition _ toc hreconcile =>
        rcases reconcilePrecondition_cases (tocDigest sha256 toc) s.current with
          ⟨version, metadata, -, -, -, heq⟩ | ⟨error, heq⟩
        all_goals
          simp only [heq] at hreturned
          cases hreturned
      | @transport _ ifMatch toc hreconcile =>
        rcases reconcileTransport_cases ifMatch toc.generation (tocDigest sha256 toc) s.current with
          ⟨version, metadata, hcurrent, hmetadata, hdigest, hgeneration, heq⟩ | ⟨error, heq⟩
        · simp only [heq] at hreturned
          cases hreturned
          have hphase := hinv.phase
          simp only [PhaseInv, hreconcile] at hphase
          obtain ⟨-, status, hput⟩ := hphase
          exact hasBundle_of_current hinv h.history hput hcurrent hmetadata hgeneration
        · simp only [heq] at hreturned
          cases hreturned
    · exact hreceipts j found receipt hfound hreturned

/-- Stored bundles of one generation have one digest. -/
theorem HasBundle.unique (hhistory : History sha256 initial s.versions) {generation : ℕ}
    {digest digest' : Bytes} (h : HasBundle sha256 s.versions generation digest)
    (h' : HasBundle sha256 s.versions generation digest') : digest = digest' := by
  have hgeneration {version : Version} {toc : Toc} (hstored : Stored sha256 version)
      (htoc : version.toc = some toc) : generationOf (some version) = toc.generation := by
    obtain ⟨toc', htoc', hmetadata⟩ := hstored
    obtain rfl := Option.some.inj (htoc.symm.trans htoc')
    simp [generationOf, hmetadata]
  obtain ⟨version, hmem, hstored, toc, htoc, hgen, rfl⟩ := h
  obtain ⟨version', hmem', hstored', toc', htoc', hgen', rfl⟩ := h'
  obtain ⟨k, hk⟩ := List.mem_iff_getElem?.mp hmem
  obtain ⟨k', hk'⟩ := List.mem_iff_getElem?.mp hmem'
  obtain rfl := hhistory.index_of_generation hk hk' (by
    rw [hgeneration hstored htoc, hgeneration hstored' htoc', hgen, hgen'])
  obtain rfl := Option.some.inj (hk.symm.trans hk')
  obtain rfl := Option.some.inj (htoc.symm.trans htoc')
  rfl

/-- A step that commits a put replaces the version that the put's call saw by one of the next generation.
No other step changes what is stored. -/
def Replaces (sha256 : Bytes → Bytes) (s : Bucket) (move : Move) : Prop :=
  ∀ s', step sha256 s move = some s' → s'.versions = s.versions ∨
    ∃ i etag call put, move = .apply i etag ∧ s.calls[i]? = some call ∧ call.put = some (put, .inFlight) ∧
      s.current = call.seen ∧ s'.versions = s.versions ++ [put.version etag] ∧
      generationOf s'.current = generationOf s.current + 1

private theorem Inv.replaces (h : Inv sha256 initial past s) (move : Move) : Replaces sha256 s move := by
  intro s' hstep
  rcases step_cases hstep with
    ⟨-, rfl⟩ | ⟨i, etag, call, put, rfl, hcall, hput, hmatch, -, rfl⟩ | ⟨i, call, call', -, rfl, -⟩
  · exact .inl rfl
  · obtain ⟨hseen, -, hnext⟩ := h.commit etag hcall hput hmatch
    refine .inr ⟨i, etag, call, put, rfl, hcall, hput, hseen, rfl, ?_⟩
    rw [← hnext, current, List.getLast?_append, List.getLast?_singleton]
    rfl
  · exact .inl rfl

/-- Any number of publishers of one key, over a store that acknowledges only what it applied: a put
replaces the version that its call saw and moves the generation by one, receipts of one generation
agree on the digest and are about a stored bundle, and nothing newer is answered only to a call during
which the key held its digest. -/
theorem publishers_safe (hsha : ∀ bytes, (sha256 bytes).length = 32) {steps : List (Bucket × Move)}
    (hrun : Trace (step sha256) ⟨initial.toList, []⟩ steps s) (hhonest : ∀ x ∈ steps, Honest x.1 x.2) :
    (∀ x ∈ steps, Replaces sha256 x.1 x.2) ∧
      (∀ (i j : ℕ) (call call' : Call) (receipt receipt' : Receipt),
        s.calls[i]? = some call → s.calls[j]? = some call' →
        call.phase = .returned (.receipt receipt) → call'.phase = .returned (.receipt receipt') →
        receipt.generation = receipt'.generation → receipt.tipsDigest = receipt'.tipsDigest) ∧
      Receipts sha256 s ∧
      ∀ (i : ℕ) (call : Call), s.calls[i]? = some call → call.phase = .returned .notNewer →
        ∃ toc, call.bundle = some toc ∧ Held steps i (tocDigest sha256 toc) := by
  have hstart : Receipts sha256 ⟨initial.toList, []⟩ := by simp [Receipts]
  obtain ⟨⟨hinv, hreceipts⟩, hpast⟩ := hrun.along
    (I := fun past s ↦ Inv sha256 initial past s ∧ Receipts sha256 s) (P := Honest)
    ⟨Inv.start initial, hstart⟩
    (fun hinv hhonest hstep ↦ ⟨hinv.1.step hsha hstep, hinv.2.step hinv.1 hhonest hstep⟩) hhonest
  refine ⟨fun x hx ↦ ?_, ?_, hreceipts, fun i call hcall hreturned ↦ ?_⟩
  · obtain ⟨past, s', ⟨hinv, -⟩, -⟩ := hpast x hx
    exact hinv.replaces x.2
  · intro i j call call' receipt receipt' hcall hcall' hreturned hreturned' heq
    have hbundle := hreceipts j call' receipt' hcall' hreturned'
    rw [← heq] at hbundle
    exact (hreceipts i call receipt hcall hreturned).unique hinv.history hbundle
  · have hphase := (hinv.calls i call hcall).phase
    rwa [PhaseInv, hreturned] at hphase

end Bucket

end Step

/-! ### Two publishers of one snapshot -/

namespace Bucket

/-- The bundle that both write. -/
theorem sample_bundle : ∃ input toc,
    writePublishBundle (Writer.sampleSha256 Writer.shortDigest) 1 input = .ok toc ∧
      toc.generation = 1 ∧
      validateMetadata (bundleMetadata toc (tocDigest (Writer.sampleSha256 Writer.shortDigest) toc)) = .ok () ∧
      remoteMetadata (bundleMetadata toc (tocDigest (Writer.sampleSha256 Writer.shortDigest) toc)) =
        some ⟨1, tocDigest (Writer.sampleSha256 Writer.shortDigest) toc, toc.refs.length,
          toc.files.length⟩ := by
  obtain ⟨receipt, file, hwrite⟩ := @Writer.sample_write Writer.shortDigest
    (Bytes.ascii "refs/heads/main") 1 rfl (by decide)
  obtain ⟨toc, hopens⟩ := Writer.sample_opens hwrite
  have hsha := @Writer.length_sampleSha256 Writer.shortDigest rfl
  have hremote := remoteMetadata_bundleMetadata hsha hopens.parsed
  rw [show toc.generation = 1 from hopens.generation] at hremote
  refine ⟨Writer.sampleInput (Bytes.ascii "refs/heads/main"), toc, ?_, hopens.generation,
    validateMetadata_bundleMetadata hsha hopens.parsed, hremote⟩
  have hwarnings : receipt.warnings = [] := Writer.warnings_of_write hwrite
  simp only [writePublishBundle, Except.bind_eq_ok, ensure_eq_ok]
  exact ⟨_, hwrite, (), hwarnings, hopens.parsed⟩

section Sample

variable {input : Writer.Input} {toc : Toc}
  (hbundle : writePublishBundle sha256 1 input = .ok toc)
  (hvalid : validateMetadata (bundleMetadata toc (tocDigest sha256 toc)) = .ok ())

/-- The call that found the key empty. -/
def sampleHeaded : Call := { phase := .headed ⟨0, none, none⟩ }

/-- It has written its bundle. -/
def sampleReady (toc : Toc) : Call := { phase := .ready ⟨0, none, none⟩ toc, bundle := some toc }

include hbundle hvalid in
/-- The sample call gets ready when its bundle is written. -/
theorem sample_ready (s : Bucket) (i : ℕ) (hcall : s.calls[i]? = some sampleHeaded) :
    step sha256 s (.bundle i (.ok input)) = some (s.advance i (sampleReady toc)) := by
  have hbundle : writePublishBundle sha256 (0 + 1) input = .ok toc := hbundle
  simp only [step, hcall, Option.bind_eq_bind, Option.bind_some, sampleHeaded, hbundle, hvalid,
    reduceCtorEq, if_false]
  rfl

/-- The version that a put of the bundle commits over an empty key. -/
def sampleVersion (sha256 : Bytes → Bytes) (toc : Toc) : Version :=
  ⟨[7], toc.fileSize, bundleMetadata toc (tocDigest sha256 toc), some toc⟩

include hbundle hvalid in
/-- Both calls find the key empty and put their bundles, and the first put is applied. -/
theorem sample_run : ∃ steps, Trace (step sha256) ⟨[], []⟩ steps
    ⟨[sampleVersion sha256 toc],
      [{ sampleReady toc with
          phase := .putting ⟨0, none, none⟩ toc
          put := some (⟨none, toc.fileSize, bundleMetadata toc (tocDigest sha256 toc), toc⟩, .committed [7]) },
        { sampleReady toc with
          phase := .putting ⟨0, none, none⟩ toc
          put := some (⟨none, toc.fileSize, bundleMetadata toc (tocDigest sha256 toc), toc⟩, .inFlight) }]⟩ ∧
    ∀ x ∈ steps, Honest x.1 x.2 := by
  have hstart : Trace (step sha256) ⟨[], []⟩ [] ⟨[], []⟩ := .nil
  have hheaded := (((hstart.move .start rfl).move .start rfl).move (.head 0 .answered) rfl).move
    (.head 1 .answered) rfl
  have hready := (hheaded.move (.bundle 0 (.ok input)) (sample_ready hbundle hvalid
    ⟨[], [sampleHeaded, sampleHeaded]⟩ 0 rfl)).move (.bundle 1 (.ok input)) (sample_ready hbundle hvalid
    ⟨[], [sampleReady toc, sampleHeaded]⟩ 1 rfl)
  have hissued := ((hready.move (.issue 0) rfl).move (.issue 1) rfl).move (.apply 0 [7]) rfl
  exact ⟨_, hissued, by simp [Honest]⟩

end Sample

/-- The first call gets the receipt, the second learns that nothing is newer. -/
theorem publishers_safe_sample : ∃ (sha256 : Bytes → Bytes) (steps : List (Bucket × Move)) (s : Bucket)
    (first second : Call) (receipt : Receipt) (toc : Toc),
    Trace (step sha256) ⟨[], []⟩ steps s ∧ s.calls = [first, second] ∧
      first.phase = .returned (.receipt receipt) ∧ second.phase = .returned .notNewer ∧
      HasBundle sha256 s.versions receipt.generation receipt.tipsDigest ∧
      second.bundle = some toc ∧ Held steps 1 (tocDigest sha256 toc) := by
  obtain ⟨input, toc, hbundle, -, hvalid, hremote⟩ := sample_bundle
  obtain ⟨steps, hrun, hhonest⟩ := sample_run hbundle hvalid
  have hlast := ((hrun.move (.answer 0 (.ok [7])) rfl).move (.answer 1 (.error .preconditionFailed)) rfl).move
    (.reconcile 1 .answered) rfl
  have hsame : reconcilePrecondition (tocDigest (Writer.sampleSha256 Writer.shortDigest) toc)
      (some (sampleVersion (Writer.sampleSha256 Writer.shortDigest) toc)) = .notNewer := by
    simp only [reconcilePrecondition, sampleVersion, validateRemoteMetadata_eq_ok.mpr hremote, if_true]
  obtain ⟨-, -, hreceipts, hnotNewer⟩ := @publishers_safe _ none _ (Writer.length_sampleSha256 rfl) _ hlast
    (fun x hx ↦ by
      simp only [List.mem_append, List.mem_singleton] at hx
      rcases hx with ((hx | rfl) | rfl) | rfl
      · exact hhonest x hx
      · exact ⟨_, _, _, rfl, rfl⟩
      · trivial
      · trivial)
  obtain ⟨toc', htoc, hheld⟩ := hnotNewer 1 _ rfl (congrArg Phase.returned hsame)
  exact ⟨_, _, _, _, _, _, toc', hlast, rfl, rfl, congrArg Phase.returned hsame, hreceipts 0 _ _ rfl rfl,
    htoc, hheld⟩

end Bucket

end Gitility.Mirror
