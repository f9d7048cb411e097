import Gitility.PackFetch.HydrateMoves

/-!
# The runs of a hydration

A hydration of any manifest, in any circumstances and from any state of the instance, makes moves for the
descriptors of the manifest; what it has brought to the disk when it returns or fails. One lemma for each part
of `hydrate` says what the part does from a state that moves have led to.
-/

namespace Gitility.PackFetch

open Provider (Hashers)
open Program (Meets caught)

variable {Local : Type}

/-- A pair that is in `verified_packs` and stands on disk with the sizes of its descriptor. -/
def Settled (d : PackDescriptor) (s : Instance Local) : Prop :=
  d.id ∈ s.verified ∧ ∃ pack index, Holds s.dir d.id pack index ∧ Sized d pack index

/-- A state that moves have led to, or behind it the state with the opened store. -/
def Underway (hashers : Hashers) (hash : HashKind) (c : Circumstances Local) (s₀ s : Instance Local) : Prop :=
  ∃ s₁, Moves hashers hash c s₀ c.packs s₀ s₁ ∧
    (s = s₁ ∨ (∃ manifest, c.manifest = .ok manifest) ∧ (∀ d ∈ c.packs, Settled d s₁) ∧
      ∃ store stats, s = { s₁ with store := some store, stats := stats })

/-- What a hydration keeps. -/
def contract (hashers : Hashers) (hash : HashKind) (c : Circumstances Local) (s₀ : Instance Local) :
    Program.Contract (HydrateOp Local) HydrateOp.Ans Error (Instance Local) where
  world := world hashers hash c
  inv := Underway hashers hash c s₀

/-- The pairs that passed between two states, all of them on disk. -/
def Noted (ids : List Bytes) (s s' : Instance Local) : Prop :=
  ∃ new, s'.passed = new ++ s.passed ∧
    ∀ entry ∈ new, entry.1 ∈ ids ∧ Holds s'.dir entry.1 entry.2.1 entry.2.2

variable {hashers : Hashers} {hash : HashKind} {c : Circumstances Local} {s₀ s s' s'' : Instance Local}
  {d : PackDescriptor} {ds : List PackDescriptor} {α : Type} {op : HydrateOp Local}

private theorem world_quiet {answer : Except Error op.Ans} (hop : op.Quiet) (h : world hashers hash c op s answer s') :
    s' = s := by
  cases op <;> first | exact hop.elim | exact h | exact h.1

private theorem asks_quiet (hop : op.Quiet) : (ask op).Asks HydrateOp.Quiet := Program.asks_request hop

private theorem asks_requestOr {error : Error} (hop : op.Quiet) : (requestOr op error).Asks HydrateOp.Quiet :=
  (asks_quiet hop).mapError

section Rules

variable {Q : α → Instance Local → Prop} {E : Error → Instance Local → Prop}

private theorem Moves.underway (h : Moves hashers hash c s₀ c.packs s₀ s) : Underway hashers hash c s₀ s :=
  ⟨s, h, .inl rfl⟩

/-- A call that changes nothing. -/
theorem meets_ask {Q : op.Ans → Instance Local → Prop} (hs : Moves hashers hash c s₀ c.packs s₀ s)
    (hop : op.Quiet) (hok : ∀ a, world hashers hash c op s (.ok a) s → Q a s)
    (herror : ∀ e, world hashers hash c op s (.error e) s → E e s) :
    (ask op).Meets (contract hashers hash c s₀) Q E s := by
  refine Program.meets_request (fun a s' h ↦ ?_) fun e s' h ↦ ?_
  · obtain rfl := world_quiet hop h
    exact ⟨hs.underway, hok a h⟩
  · obtain rfl := world_quiet hop h
    exact ⟨hs.underway, herror e h⟩

/-- A call that changes nothing, with an error of its own. -/
theorem meets_requestOr {Q : op.Ans → Instance Local → Prop} {error : Error}
    (hs : Moves hashers hash c s₀ c.packs s₀ s) (hop : op.Quiet)
    (hok : ∀ a, world hashers hash c op s (.ok a) s → Q a s)
    (herror : ∀ e, world hashers hash c op s (.error e) s → E error s) :
    (requestOr op error).Meets (contract hashers hash c s₀) Q E s :=
  (meets_ask (E := fun _ s ↦ E error s) hs hop hok herror).mapError fun _ _ h ↦ h

/-- A part that changes nothing. -/
theorem meets_asks {p : Hydration Local α} (hs : Moves hashers hash c s₀ c.packs s₀ s)
    (hp : p.Asks HydrateOp.Quiet) :
    p.Meets (contract hashers hash c s₀) (fun _ s' ↦ s' = s) (fun _ s' ↦ s' = s) s :=
  hp.meets hs.underway fun _ hop _ _ h ↦ world_quiet hop h

end Rules

/-! ### Parts that only read -/

private theorem asks_existingBytes (names : List Bytes) (total : ℕ) :
    (existingBytes names total : Hydration Local ℕ).Asks HydrateOp.Quiet := by
  induction names generalizing total with
  | nil => exact trivial
  | cons name names ih =>
    rw [existingBytes]
    split
    · exact (asks_requestOr (by trivial)).bind fun _ ↦ Program.Asks.bind trivial fun _ ↦ ih _
    · exact ih _

private theorem asks_replacedBytes (total : ℕ) (name : Bytes) (expected : ℕ) :
    (replacedBytes total name expected : Hydration Local ℕ).Asks HydrateOp.Quiet :=
  (asks_quiet (by trivial) : (ask (.fileLength name)).Asks HydrateOp.Quiet).attempt.bind fun _ ↦
    Program.Asks.bind trivial fun _ ↦ trivial

private theorem asks_describedPairs (packs : List PackDescriptor) (total : ℕ) :
    (describedPairs packs total : Hydration Local ℕ).Asks HydrateOp.Quiet := by
  induction packs generalizing total with
  | nil => exact trivial
  | cons d packs ih =>
    exact (asks_replacedBytes _ _ _).bind fun _ ↦ (asks_replacedBytes _ _ _).bind fun _ ↦ ih _

private theorem asks_checkMaxBytes (options : PackFetchOptions) (manifest : PackManifest) :
    (checkMaxBytes options manifest : Hydration Local Unit).Asks HydrateOp.Quiet := by
  rw [checkMaxBytes]
  split
  · exact trivial
  · refine Program.Asks.bind ?_ fun _ ↦ trivial
    exact (asks_requestOr (by trivial)).bind fun names ↦ (asks_existingBytes names 0).bind fun _ ↦
      asks_describedPairs _ _

private theorem asks_chargeRequests (window : List ByteRange) :
    (chargeRequests window : Hydration Local Unit).Asks HydrateOp.Quiet := by
  induction window with
  | nil => exact trivial
  | cons _ window ih => exact (asks_quiet (by trivial)).bind fun _ ↦ ih

private theorem asks_collectRanges (ranges : List (ByteRange × Bytes)) (output : Bytes) :
    (collectRanges ranges output : Hydration Local Bytes).Asks HydrateOp.Quiet := by
  induction ranges generalizing output with
  | nil => exact trivial
  | cons range ranges ih =>
    exact Program.Asks.bind trivial fun _ ↦ (asks_quiet (by trivial)).bind fun _ ↦ ih _

private theorem asks_collectBatches (batches : List (List ByteRange × List Bytes)) (output : Bytes) :
    (collectBatches batches output : Hydration Local Bytes).Asks HydrateOp.Quiet := by
  induction batches generalizing output with
  | nil => exact trivial
  | cons batch batches ih =>
    exact Program.Asks.bind trivial fun _ ↦ (asks_collectRanges _ _).bind fun _ ↦ ih _

private theorem asks_fetchWindows (windows : List (List ByteRange)) (output : Bytes) :
    (fetchWindows windows output : Hydration Local Bytes).Asks HydrateOp.Quiet := by
  induction windows generalizing output with
  | nil => exact trivial
  | cons window windows ih =>
    exact (asks_chargeRequests window).bind fun _ ↦ (asks_quiet (by trivial)).bind fun _ ↦
      Program.Asks.bind trivial fun _ ↦ (asks_collectBatches _ _).bind fun _ ↦ ih _

/-- A fetched artifact has its size. -/
theorem fetchArtifact_meets (hs : Moves hashers hash c s₀ c.packs s₀ s) (options : PackFetchOptions)
    (key : Bytes) (size chunkBytes : ℕ) :
    (fetchArtifact options key size chunkBytes).Meets (contract hashers hash c s₀)
      (fun output s' ↦ s' = s ∧ output.length = size) (fun _ s' ↦ s' = s) s := by
  refine (meets_asks hs (asks_fetchWindows _ [])).bind (fun output s' hsame ↦ ?_) fun _ _ h ↦ h
  obtain rfl := hsame
  exact Meets.lift_bind (fun _ h ↦ ⟨rfl, ensure_eq_ok.mp h⟩) fun _ _ ↦ rfl

/-! ### Pairs on disk -/

section Pairs

variable (hashers hash c)

/-- A failure of a pair's verification: one that says that the pair is damaged never meets a pair that is
verified and spared. -/
def Missed (d : PackDescriptor) (s : Instance Local) (e : Error) (s' : Instance Local) : Prop :=
  s' = s ∧ (e.code = .packChecksumMismatch ∨ e.code = .indexChecksumMismatch → ∀ pack index,
    Holds s.dir d.id pack index → verifyPairBytes hashers pack index d.id hash = .ok () →
      ¬ Spared hash c d pack index)

end Pairs

/-- The sizes of a pair on disk. -/
theorem verifyPairSizes_meets (hs : Moves hashers hash c s₀ c.packs s₀ s) :
    (verifyPairSizes d).Meets (contract hashers hash c s₀)
      (fun _ s' ↦ s' = s ∧ ∀ pack index, Holds s.dir d.id pack index → Sized d pack index)
      (Missed hashers hash c d s) s := by
  have hlength (name : Bytes) (error : Error)
      (hspared : ∀ pack index, Spared hash c d pack index → ¬ c.faulty name)
      (hexists : ∀ pack index, Holds s.dir d.id pack index → ∃ content, Regular s.dir name content) :
      (requestOr (.fileLength name) error).Meets (contract hashers hash c s₀)
        (fun length s' ↦ s' = s ∧ ∀ content, Regular s.dir name content → length = content.length)
        (Missed hashers hash c d s) s := by
    refine meets_requestOr hs trivial (fun length h ↦ ⟨rfl, fun content hcontent ↦ ?_⟩)
      fun e h ↦ ⟨rfl, fun _ pack index hholds _ hkept ↦ ?_⟩
    · exact (h.2 content hcontent).1 length rfl
    · obtain ⟨content, hcontent⟩ := hexists pack index hholds
      exact nomatch (h.2 content hcontent).2 (hspared pack index hkept)
  refine (hlength _ _ (fun _ _ h ↦ h.packFound) fun pack _ h ↦ ⟨pack, h.1⟩).bind
    (fun packSize s' h ↦ ?_) fun _ _ h ↦ h
  obtain ⟨rfl, hpack⟩ := h
  refine Meets.lift_bind (fun _ h ↦ ?_) fun e h ↦ ?_
  · have hpackSize := ensure_eq_ok.mp h
    refine (hlength _ _ (fun _ _ h ↦ h.indexFound) fun _ index h ↦ ⟨index, h.2⟩).bind
      (fun indexSize s' h ↦ ?_) fun _ _ h ↦ h
    obtain ⟨rfl, hindex⟩ := h
    refine Program.meets_ofExcept (fun _ h ↦ ⟨rfl, fun pack index hholds ↦ ?_⟩) fun e h ↦ ?_
    · exact ⟨(hpack pack hholds.1).symm.trans hpackSize,
        (hindex index hholds.2).symm.trans (ensure_eq_ok.mp h)⟩
    · refine ⟨rfl, fun _ pack index hholds _ hkept ↦ (ensure_eq_error.mp h).1 ?_⟩
      exact (hindex index hholds.2).trans hkept.sized.2
  · refine ⟨rfl, fun _ pack index hholds _ hkept ↦ (ensure_eq_error.mp h).1 ?_⟩
    exact (hpack pack hholds.1).trans hkept.sized.1

/-- A file of the expected length. -/
theorem readExactFile_meets (hs : Moves hashers hash c s₀ c.packs s₀ s) (name : Bytes) (expected : ℕ)
    (code : ErrorCode) :
    (readExactFile name expected code).Meets (contract hashers hash c s₀)
      (fun bytes s' ↦ s' = s ∧ Regular s.dir name bytes ∧ bytes.length = expected)
      (fun _ s' ↦ s' = s ∧ ∀ content, Regular s.dir name content → content.length = expected →
        c.faulty name) s := by
  have hopen : (requestOr (.openFile name) (checksumError code "could not read")).Meets
      (contract hashers hash c s₀) (fun _ s' ↦ s' = s) (fun _ s' ↦ s' = s ∧ ∀ content,
        Regular s.dir name content → content.length = expected → c.faulty name) s := by
    refine meets_requestOr hs trivial (fun _ _ ↦ rfl) fun e h ↦ ⟨rfl, fun content hcontent _ ↦ ?_⟩
    by_contra hfound
    exact nomatch h.2 hfound content hcontent
  have hmeasure : (requestOr (.fileLength name) (checksumError code "could not inspect")).Meets
      (contract hashers hash c s₀)
      (fun length s' ↦ s' = s ∧ ∀ content, Regular s.dir name content → length = content.length)
      (fun _ s' ↦ s' = s ∧ ∀ content, Regular s.dir name content → content.length = expected →
        c.faulty name) s := by
    refine meets_requestOr hs trivial (fun length h ↦ ⟨rfl, fun content hcontent ↦
      (h.2 content hcontent).1 length rfl⟩) fun e h ↦ ⟨rfl, fun content hcontent _ ↦ ?_⟩
    by_contra hfound
    exact nomatch (h.2 content hcontent).2 hfound
  refine hopen.bind (fun _ s' hsame ↦ ?_) fun _ _ h ↦ h
  obtain rfl := hsame
  refine hmeasure.bind (fun length s hmeasured ↦ ?_) fun _ _ h ↦ h
  obtain ⟨rfl, hlength⟩ := hmeasured
  refine Meets.lift_bind (fun _ h ↦ ?_) fun e h ↦ ⟨rfl, fun content hcontent hexpected ↦
    absurd ((hlength content hcontent).trans hexpected) (ensure_eq_error.mp h).1⟩
  have hexpected := ensure_eq_ok.mp h
  refine meets_requestOr hs trivial (fun bytes h ↦ ?_) fun e h ↦ ⟨rfl, fun content hcontent _ ↦ ?_⟩
  · have hbytes := h.2.1 bytes rfl
    exact ⟨rfl, hbytes, (hlength bytes hbytes).symm.trans hexpected⟩
  · by_contra hfound
    exact nomatch h.2.2 hfound content hcontent

/-- A call that makes moves. -/
theorem meets_moves {Q : op.Ans → Instance Local → Prop} {E : Error → Instance Local → Prop}
    (hs : Moves hashers hash c s₀ c.packs s₀ s)
    (h : ∀ answer s', world hashers hash c op s answer s' →
      Moves hashers hash c s₀ c.packs s s' ∧ caught Q E answer s') :
    (ask op).Meets (contract hashers hash c s₀) Q E s := by
  refine Program.meets_request (fun a s' hworld ↦ ?_) fun e s' hworld ↦ ?_
  · obtain ⟨hmoves, hQ⟩ := h (.ok a) s' hworld
    exact ⟨Moves.underway (hs.trans hmoves), hQ⟩
  · obtain ⟨hmoves, hE⟩ := h (.error e) s' hworld
    exact ⟨Moves.underway (hs.trans hmoves), hE⟩

/-- A call whose result is dropped. -/
theorem ignored_meets {R : Instance Local → Prop} {E : Error → Instance Local → Prop}
    (hs : Moves hashers hash c s₀ c.packs s₀ s)
    (h : ∀ answer s', world hashers hash c op s answer s' →
      Moves hashers hash c s₀ c.packs s s' ∧ R s') :
    (ignored op).Meets (contract hashers hash c s₀) (fun _ ↦ R) E s := by
  have hcall : (ask op).Meets (contract hashers hash c s₀) (fun _ ↦ R) (fun _ ↦ R) s :=
    meets_moves hs fun answer s' hworld ↦ by cases answer <;> exact h _ s' hworld
  have hcaught : (ask op).attempt.Meets (contract hashers hash c s₀) (fun _ ↦ R) E s :=
    hcall.attempt.mono (fun answer s' h ↦ by cases answer <;> exact h) fun _ _ h ↦ h
  exact hcaught.bind (fun _ _ h ↦ h) fun _ _ h ↦ h

/-- The IDs of the manifest name different files. -/
def Distinct (ds : List PackDescriptor) : Prop := (ds.map fun d ↦ d.id.map toAsciiLowercase).Nodup

private theorem Distinct.eq {d' : PackDescriptor} (h : Distinct ds) (hd : d ∈ ds) (hd' : d' ∈ ds)
    (hshares : Shares d.id d'.id) : d = d' :=
  List.inj_on_of_nodup_map h hd hd' hshares

/-- What is not spared now was not spared before the call. -/
theorem lost_of_moves (hs : Moves hashers hash c s₀ c.packs s₀ s) (hdistinct : Distinct c.packs)
    (hd : d ∈ c.packs) (h : ∀ pack index, Holds s.dir d.id pack index →
      verifyPairBytes hashers pack index d.id hash = .ok () → ¬ Spared hash c d pack index) :
    Lost hashers hash c s₀ d := by
  intro pack index hholds hverified hspared
  refine h pack index (hs.kept hholds hverified fun d' hd' hshares ↦ ?_) hverified hspared
  cases hdistinct.eq hd hd' hshares
  exact hspared

private theorem Noted.refl (ids : List Bytes) (s : Instance Local) : Noted ids s s := ⟨[], rfl, by simp⟩

private theorem noted_of_passed {ids : List Bytes} (h : s'.passed = s.passed) : Noted ids s s' := ⟨[], h, by simp⟩

/-- The verification of a pair on disk. -/
theorem verifyPairPaths_meets (hs : Moves hashers hash c s₀ c.packs s₀ s) (hd : d ∈ c.packs) :
    (verifyPairPaths d).Meets (contract hashers hash c s₀)
      (fun _ s' ↦ Moves hashers hash c s₀ [d] s s' ∧ Acquired d s' ∧
        (∃ pack index, Holds s'.dir d.id pack index ∧ Sized d pack index) ∧ Noted [d.id] s s')
      (Missed hashers hash c d s) s := by
  have hmissed {name : Bytes} {expected : ℕ} {e : Error} {s' : Instance Local}
      (h : s' = s ∧ ∀ content, Regular s.dir name content → content.length = expected → c.faulty name)
      (hspared : ∀ pack index, Holds s.dir d.id pack index → Spared hash c d pack index →
        ∃ content, Regular s.dir name content ∧ content.length = expected ∧ ¬ c.faulty name) :
      Missed hashers hash c d s e s' := by
    refine ⟨h.1, fun _ pack index hholds _ hkept ↦ ?_⟩
    obtain ⟨content, hcontent, hlength, hfound⟩ := hspared pack index hholds hkept
    exact hfound (h.2 content hcontent hlength)
  refine (readExactFile_meets hs _ _ _).bind (fun pack s' h ↦ ?_) fun e s' h ↦
    hmissed h fun pack index hholds hkept ↦ ⟨pack, hholds.1, hkept.sized.1, hkept.packFound⟩
  obtain ⟨rfl, hpack, hpackSize⟩ := h
  refine (readExactFile_meets hs _ _ _).bind (fun index s h ↦ ?_) fun e s h ↦
    hmissed h fun pack index hholds hkept ↦ ⟨index, hholds.2, hkept.sized.2, hkept.indexFound⟩
  obtain ⟨rfl, hindex, hindexSize⟩ := h
  have hcheck : (ask .check).Meets (contract hashers hash c s₀) (fun _ s' ↦ s' = s)
      (Missed hashers hash c d s) s := by
    refine meets_ask hs trivial (fun _ _ ↦ rfl) fun e h ↦ ⟨rfl, fun hcode ↦ ?_⟩
    have hbudget := h.2 e rfl
    simp only [BudgetError, List.mem_cons, List.not_mem_nil, or_false] at hbudget
    rcases hcode with hcode | hcode <;> simp [hcode] at hbudget
  refine hcheck.bind (fun _ s' hsame ↦ ?_) fun _ _ h ↦ h
  obtain rfl := hsame
  have hverify : (ask (.verifyPairBytes pack index d.id)).Meets (contract hashers hash c s₀)
      (fun _ s ↦ Moves hashers hash c s₀ [d] s' s ∧ Acquired d s ∧
        (∃ pack index, Holds s.dir d.id pack index ∧ Sized d pack index) ∧ Noted [d.id] s' s)
      (Missed hashers hash c d s') s' := by
    refine meets_moves hs fun answer s h ↦ ?_
    obtain ⟨hanswer, rfl⟩ := h
    cases answer with
    | ok _ =>
      have hmove : Move hashers hash c s₀ d s' { s' with passed := (d.id, pack, index) :: s'.passed } :=
        .note hanswer.symm
      rw [if_pos rfl]
      refine ⟨Moves.single hd hmove, Moves.single List.mem_cons_self hmove,
        ⟨pack, index, ⟨hpack, hindex⟩, .inr List.mem_cons_self⟩,
        ⟨pack, index, ⟨hpack, hindex⟩, hpackSize, hindexSize⟩, [(d.id, pack, index)], rfl, fun entry h ↦ ?_⟩
      obtain rfl := List.mem_singleton.mp h
      exact ⟨List.mem_cons_self, hpack, hindex⟩
    | error e =>
      have hfailed : (Except.error e : Except Error Unit) ≠ .ok () := by simp
      rw [if_neg hfailed]
      refine ⟨.refl, rfl, fun _ pack' index' hholds hverified _ ↦ ?_⟩
      obtain rfl := ScratchFile.regular.inj (Option.some.inj (hholds.1.symm.trans hpack))
      obtain rfl := ScratchFile.regular.inj (Option.some.inj (hholds.2.symm.trans hindex))
      exact hfailed (hanswer.trans hverified)
  exact hverify.bind (fun _ _ h ↦ h) fun _ _ h ↦ h

/-- The verification of a pair that exists. -/
theorem verifyExisting_meets (hs : Moves hashers hash c s₀ c.packs s₀ s) (hd : d ∈ c.packs)
    {verifiedHere : Bool} (hverified : verifiedHere = true → d.id ∈ s.verified)
    (hholds : ∃ pack index, Holds s.dir d.id pack index) :
    (verifyExisting d verifiedHere).Meets (contract hashers hash c s₀)
      (fun _ s' ↦ Moves hashers hash c s₀ [d] s s' ∧ Acquired d s' ∧
        (∃ pack index, Holds s'.dir d.id pack index ∧ Sized d pack index) ∧ Noted [d.id] s s')
      (Missed hashers hash c d s) s := by
  cases verifiedHere with
  | false => exact verifyPairPaths_meets hs hd
  | true =>
    refine (verifyPairSizes_meets hs).bind (fun _ s' h ↦ ?_) fun _ _ h ↦ h
    obtain ⟨rfl, hsized⟩ := h
    obtain ⟨pack, index, hholds⟩ := hholds
    exact ⟨.refl, ⟨pack, index, hholds, .inl (hverified rfl)⟩,
      ⟨pack, index, hholds, hsized pack index hholds⟩, Noted.refl _ _⟩

section Planned

variable (hashers hash c s₀)

/-- What the plan holds of one descriptor. -/
def Planned (s s' : Instance Local) (item : HydrationPlanItem) : Prop :=
  Moves hashers hash c s₀ [item.descriptor] s s' ∧
    if item.fetch then Lost hashers hash c s₀ item.descriptor ∧ s'.passed = s.passed
    else Settled item.descriptor s' ∧ Noted [item.descriptor.id] s s'

end Planned

/-- The removal of a pair. -/
theorem removeDestinationPair_meets {E : Error → Instance Local → Prop}
    (hs : Moves hashers hash c s₀ c.packs s₀ s) (hd : d ∈ c.packs) (hlost : Lost hashers hash c s₀ d) :
    (removeDestinationPair d.id).Meets (contract hashers hash c s₀)
      (fun _ s' ↦ Moves hashers hash c s₀ [d] s s' ∧ s'.passed = s.passed) E s := by
  have hremove {s : Instance Local} (hs : Moves hashers hash c s₀ c.packs s₀ s) {name : Bytes}
      (hname : name = packName d.id ∨ name = indexName d.id) :
      (ignored (.removeFile name)).Meets (contract hashers hash c s₀)
        (fun _ s' ↦ Moves hashers hash c s₀ [d] s s' ∧ s'.passed = s.passed) E s := by
    refine ignored_meets hs fun answer s' h ↦ ?_
    rcases h with ⟨-, rfl⟩ | ⟨-, rfl⟩
    · exact ⟨.refl, .refl, rfl⟩
    · exact ⟨Moves.single hd (.discard hname hlost), Moves.single List.mem_cons_self (.discard hname hlost), rfl⟩
  refine (hremove hs (.inl rfl)).bind (fun _ s₁ h₁ ↦ ?_) fun _ _ h ↦ h
  have hs₁ : Moves hashers hash c s₀ c.packs s₀ s₁ := Moves.append hs h₁.1 hd
  refine (hremove hs₁ (.inr rfl)).mono (fun _ s₂ h₂ ↦ ?_) fun _ _ h ↦ h
  exact ⟨h₁.1.trans h₂.1, h₂.2.trans h₁.2⟩

/-- A pair leaves `verified_packs`. -/
theorem removeVerified_meets {E : Error → Instance Local → Prop}
    (hs : Moves hashers hash c s₀ c.packs s₀ s) (hd : d ∈ c.packs) :
    (ask (.removeVerified d.id)).Meets (contract hashers hash c s₀)
      (fun _ s' ↦ Moves hashers hash c s₀ [d] s s' ∧ s'.passed = s.passed) E s := by
  refine meets_moves hs fun answer s' h ↦ ?_
  obtain ⟨rfl, rfl⟩ := h
  exact ⟨Moves.single hd .erase, Moves.single List.mem_cons_self .erase, rfl⟩

/-- A pair enters `verified_packs`. -/
theorem insertVerified_meets {E : Error → Instance Local → Prop}
    (hs : Moves hashers hash c s₀ c.packs s₀ s) (hd : d ∈ c.packs) (hready : Acquired d s) :
    (ask (.insertVerified d.id)).Meets (contract hashers hash c s₀)
      (fun _ s' ↦ Moves hashers hash c s₀ [d] s s' ∧ s' = { s with verified := insert d.id s.verified }) E
      s := by
  refine meets_moves hs fun answer s' h ↦ ?_
  obtain ⟨rfl, rfl⟩ := h
  exact ⟨Moves.single hd (.insert hready), Moves.single List.mem_cons_self (.insert hready), rfl⟩

/-- A pair that is to be replaced. -/
theorem replacePair_meets {E : Error → Instance Local → Prop} (hs : Moves hashers hash c s₀ c.packs s₀ s)
    (hd : d ∈ c.packs) (hlost : Lost hashers hash c s₀ d) (stats : HydrationStats) :
    (replacePair d stats).Meets (contract hashers hash c s₀)
      (fun p s' ↦ p.1.descriptor = d ∧ Planned hashers hash c s₀ s s' p.1) E s := by
  refine (removeVerified_meets hs hd).bind (fun _ s₁ h₁ ↦ ?_) fun _ _ h ↦ h
  have hs₁ : Moves hashers hash c s₀ c.packs s₀ s₁ := Moves.append hs h₁.1 hd
  refine (removeDestinationPair_meets hs₁ hd hlost).bind (fun _ s₂ h₂ ↦ ?_) fun _ _ h ↦ h
  exact ⟨rfl, h₁.1.trans h₂.1, hlost, h₂.2.trans h₁.2⟩

/-- What becomes of a pair that exists. -/
theorem planExisting_meets (hs : Moves hashers hash c s₀ c.packs s₀ s) (hdistinct : Distinct c.packs)
    (hd : d ∈ c.packs) {verifiedHere : Bool} (hverified : verifiedHere = true → d.id ∈ s.verified)
    (hholds : ∃ pack index, Holds s.dir d.id pack index) (stats : HydrationStats) :
    ((verifyExisting d verifiedHere).attempt >>= planExisting d stats).Meets (contract hashers hash c s₀)
      (fun p s' ↦ p.1.descriptor = d ∧ Planned hashers hash c s₀ s s' p.1) (fun _ s' ↦ s' = s) s := by
  refine Meets.bind (Meets.attempt (verifyExisting_meets hs hd hverified hholds)) (fun result s₁ h ↦ ?_)
    fun (_ : Error) _ (h : False) ↦ h.elim
  cases result with
  | ok bytes =>
    obtain ⟨hmoves, hready, ⟨pack, index, hholds, hsized⟩, new, hnew, hall⟩ := h
    have hs₁ : Moves hashers hash c s₀ c.packs s₀ s₁ := Moves.append hs hmoves hd
    refine (insertVerified_meets hs₁ hd hready).bind (fun _ s₂ h₂ ↦ ?_) fun _ _ h ↦ h
    obtain ⟨hinsert, rfl⟩ := h₂
    exact ⟨rfl, hmoves.trans hinsert, ⟨Finset.mem_insert_self _ _, pack, index, hholds, hsized⟩, new, hnew, hall⟩
  | error error =>
    obtain ⟨rfl, hmissed⟩ := h
    rw [planExisting]
    split
    · next hcode => exact replacePair_meets hs hd (lost_of_moves hs hdistinct hd (hmissed hcode)) stats
    · exact Program.meets_fail rfl

/-- One descriptor of the plan. -/
theorem planDescriptor_meets (hs : Moves hashers hash c s₀ c.packs s₀ s) (hdistinct : Distinct c.packs)
    (hd : d ∈ c.packs) (stats : HydrationStats) :
    (planDescriptor d stats).Meets (contract hashers hash c s₀)
      (fun p s' ↦ p.1.descriptor = d ∧ Planned hashers hash c s₀ s s' p.1) (fun _ s' ↦ s' = s) s := by
  have hfound (name : Bytes) : (ask (.isFile name)).Meets (contract hashers hash c s₀)
      (fun found s' ↦ s' = s ∧ (found = true → ∃ content, Regular s.dir name content) ∧
        (¬ c.faulty name → ∀ content, Regular s.dir name content → found = true))
      (fun _ s' ↦ s' = s) s := by
    refine meets_ask hs trivial (fun found h ↦ ?_) fun _ _ ↦ rfl
    obtain ⟨-, found', heq, htrue, hall⟩ := h
    cases heq
    exact ⟨rfl, htrue, hall⟩
  have hverified : (ask (.isVerified d.id)).Meets (contract hashers hash c s₀)
      (fun verifiedHere s' ↦ s' = s ∧ (verifiedHere = true → d.id ∈ s.verified)) (fun _ s' ↦ s' = s) s := by
    refine meets_ask hs trivial (fun verifiedHere h ↦ ⟨rfl, fun htrue ↦ ?_⟩) fun _ _ ↦ rfl
    have heq := Except.ok.inj h.2
    rw [htrue] at heq
    exact of_decide_eq_true heq.symm
  have hcheck : (ask .check).Meets (contract hashers hash c s₀) (fun _ s' ↦ s' = s) (fun _ s' ↦ s' = s) s :=
    meets_asks hs (asks_quiet (by trivial))
  refine hcheck.bind (fun _ s' hsame ↦ ?_) fun _ _ h ↦ h
  obtain rfl := hsame
  refine (hfound (packName d.id)).bind (fun packExists s hpack ↦ ?_) fun _ _ h ↦ h
  obtain ⟨rfl, hpack, hpackAll⟩ := hpack
  refine (hfound (indexName d.id)).bind (fun indexExists s' hindex ↦ ?_) fun _ _ h ↦ h
  obtain ⟨rfl, hindex, hindexAll⟩ := hindex
  refine hverified.bind (fun verifiedHere s h ↦ ?_) fun _ _ h ↦ h
  obtain ⟨rfl, hverified⟩ := h
  -- A pair that was not found is not spared.
  have hlost (h : packExists = false ∨ indexExists = false) : Lost hashers hash c s₀ d := by
    refine lost_of_moves hs hdistinct hd fun pack index hholds _ hkept ↦ ?_
    rcases h with rfl | rfl
    · exact nomatch hpackAll hkept.packFound pack hholds.1
    · exact nomatch hindexAll hkept.indexFound index hholds.2
  cases packExists with
  | true =>
    cases indexExists with
    | true =>
      obtain ⟨pack, hpack⟩ := hpack rfl
      obtain ⟨index, hindex⟩ := hindex rfl
      exact planExisting_meets hs hdistinct hd hverified ⟨pack, index, hpack, hindex⟩ stats
    | false => exact replacePair_meets hs hd (hlost (.inr rfl)) stats
  | false =>
    cases indexExists with
    | true => exact replacePair_meets hs hd (hlost (.inl rfl)) stats
    | false => exact Program.meets_pure ⟨rfl, .refl, hlost (.inl rfl), rfl⟩

/-! ### The plan -/

private theorem Settled.frame (h : Settled d s) (hmoves : Moves hashers hash c s₀ ds s s')
    (hfree : ∀ d' ∈ ds, ¬ Shares d.id d'.id) : Settled d s' := by
  obtain ⟨hverified, pack, index, hholds, hsized⟩ := h
  refine ⟨hmoves.mem_verified (fun d' hd' heq ↦ hfree d' hd' (congrArg _ heq)) hverified, pack, index, ?_, hsized⟩
  exact (hmoves.holds_iff hfree).mpr hholds

/-- Pairs that passed stay on disk while other descriptors are worked on. -/
theorem Noted.trans {ids ids' : List Bytes} (h : Noted ids s s') (hmoves : Moves hashers hash c s₀ ds s' s'')
    (hfree : ∀ id ∈ ids, ∀ d ∈ ds, ¬ Shares id d.id) (h' : Noted ids' s' s'') : Noted (ids ++ ids') s s'' := by
  obtain ⟨new, hnew, hall⟩ := h
  obtain ⟨more, hmore, hall'⟩ := h'
  refine ⟨more ++ new, by rw [hmore, hnew, List.append_assoc], fun entry hentry ↦ ?_⟩
  rcases List.mem_append.mp hentry with hentry | hentry
  · exact ⟨List.mem_append_right _ (hall' entry hentry).1, (hall' entry hentry).2⟩
  · obtain ⟨hid, hholds⟩ := hall entry hentry
    exact ⟨List.mem_append_left _ hid, (hmoves.holds_iff (hfree _ hid)).mpr hholds⟩

private theorem Noted.mono {ids ids' : List Bytes} (h : Noted ids s s') (hsub : ids ⊆ ids') : Noted ids' s s' := by
  obtain ⟨new, hnew, hall⟩ := h
  exact ⟨new, hnew, fun entry hentry ↦ ⟨hsub (hall entry hentry).1, (hall entry hentry).2⟩⟩

/-- The IDs that a plan keeps, or those that it fetches. -/
def planned (fetch : Bool) (plan : List HydrationPlanItem) : List Bytes :=
  (plan.filter (·.fetch = fetch)).map (·.descriptor.id)

private theorem mem_planned {fetch : Bool} {plan : List HydrationPlanItem} {id : Bytes} :
    id ∈ planned fetch plan ↔ ∃ item ∈ plan, item.fetch = fetch ∧ item.descriptor.id = id := by
  simp [planned, and_assoc]

private theorem not_shares_of_distinct {ds : List PackDescriptor} (h : Distinct (d :: ds)) :
    ∀ d' ∈ ds, ¬ Shares d.id d'.id := by
  intro d' hd' hshares
  rw [Distinct, List.map_cons, List.nodup_cons] at h
  exact h.1 (List.mem_map.mpr ⟨d', hd', hshares.symm⟩)

private theorem Distinct.tail (h : Distinct (d :: ds)) : Distinct ds := (List.nodup_cons.mp h).2

/-- The plan of descriptors that name different files. -/
theorem planHydration_meets (hdistinct : Distinct c.packs) (ds : List PackDescriptor) (hds : ds ⊆ c.packs)
    (hnodup : Distinct ds) (stats : HydrationStats) (hs : Moves hashers hash c s₀ c.packs s₀ s) :
    (planHydration ds stats).Meets (contract hashers hash c s₀)
      (fun p s' ↦ p.1.map (·.descriptor) = ds ∧ Moves hashers hash c s₀ ds s s' ∧
        (∀ item ∈ p.1, if item.fetch then Lost hashers hash c s₀ item.descriptor
          else Settled item.descriptor s') ∧ Noted (planned false p.1) s s')
      (fun _ s' ↦ Moves hashers hash c s₀ ds s s' ∧ Noted (ds.map (·.id)) s s') s := by
  induction ds generalizing s stats with
  | nil => exact Program.meets_pure ⟨rfl, .refl, by simp, Noted.refl _ _⟩
  | cons d ds ih =>
    have hd : d ∈ c.packs := hds List.mem_cons_self
    have hfree := not_shares_of_distinct hnodup
    refine (planDescriptor_meets hs hdistinct hd stats).bind (fun p s₁ h₁ ↦ ?_) fun _ s' h ↦ ?_
    · obtain ⟨item, stats₁⟩ := p
      obtain ⟨rfl, hmoves₁, hplanned⟩ := h₁
      have hs₁ := Moves.append hs hmoves₁ hd
      have hnoted₁ : Noted (planned false [item]) s s₁ := by
        by_cases hfetch : item.fetch = true
        · rw [if_pos hfetch] at hplanned
          exact noted_of_passed hplanned.2
        · rw [if_neg hfetch] at hplanned
          simp only [planned, List.filter_cons, List.filter_nil, hfetch, decide_true, if_true]
          exact hplanned.2
      have hids : ∀ id ∈ planned false [item], id = item.descriptor.id := by
        intro id hid
        obtain ⟨item', hitem', -, rfl⟩ := mem_planned.mp hid
        rw [List.mem_singleton.mp hitem']
      have hwide₁ : Moves hashers hash c s₀ (item.descriptor :: ds) s s₁ :=
        hmoves₁.mono (List.cons_subset.mpr ⟨List.mem_cons_self, List.nil_subset _⟩)
      refine (ih (fun _ h ↦ hds (List.mem_cons_of_mem _ h)) hnodup.tail stats₁ hs₁).bind
        (fun p s₂ h₂ ↦ ?_) fun _ s₂ h₂ ↦ ?_
      · obtain ⟨plan, stats₂⟩ := p
        obtain ⟨rfl, hmoves₂, hall, hnoted₂⟩ := h₂
        refine ⟨rfl, hwide₁.trans (hmoves₂.mono fun _ h ↦ List.mem_cons_of_mem _ h), ?_, ?_⟩
        · refine List.forall_mem_cons.mpr ⟨?_, hall⟩
          by_cases hfetch : item.fetch = true
          · rw [if_pos hfetch] at hplanned ⊢
            exact hplanned.1
          · rw [if_neg hfetch] at hplanned ⊢
            exact hplanned.1.frame hmoves₂ hfree
        · have hnoted := hnoted₁.trans hmoves₂ (fun id hid d hd ↦ hids id hid ▸ hfree d hd) hnoted₂
          refine hnoted.mono fun id hid ↦ mem_planned.mpr ?_
          rcases List.mem_append.mp hid with hid | hid
          · obtain ⟨item', hitem', hid⟩ := mem_planned.mp hid
            exact ⟨item', List.mem_singleton.mp hitem' ▸ List.mem_cons_self, hid⟩
          · obtain ⟨item', hitem', hid⟩ := mem_planned.mp hid
            exact ⟨item', List.mem_cons_of_mem _ hitem', hid⟩
      · obtain ⟨hmoves₂, hnoted₂⟩ := h₂
        refine ⟨hwide₁.trans (hmoves₂.mono fun _ h ↦ List.mem_cons_of_mem _ h), ?_⟩
        refine (hnoted₁.trans hmoves₂ (fun id hid d hd ↦ hids id hid ▸ hfree d hd) hnoted₂).mono fun id hid ↦ ?_
        rcases List.mem_append.mp hid with hid | hid
        · exact hids id hid ▸ List.mem_cons_self
        · exact List.mem_cons_of_mem _ hid
    · obtain rfl := h
      exact ⟨.refl, Noted.refl _ _⟩

/-! ### The publication of a pair -/

section Shifted

variable (hashers hash c s₀)

/-- Moves for a descriptor, without a verification. -/
def Shifted (d : PackDescriptor) (s s' : Instance Local) : Prop :=
  Moves hashers hash c s₀ [d] s s' ∧ s'.passed = s.passed

end Shifted

private theorem Shifted.refl (d : PackDescriptor) (s : Instance Local) : Shifted hashers hash c s₀ d s s :=
  ⟨.refl, rfl⟩

private theorem Shifted.trans (h : Shifted hashers hash c s₀ d s s') (h' : Shifted hashers hash c s₀ d s' s'') :
    Shifted hashers hash c s₀ d s s'' :=
  ⟨Relation.ReflTransGen.trans h.1 h'.1, h'.2.trans h.2⟩

/-- A change under the name of a temporary file. -/
theorem Shifted.temp {name : Bytes} {file : Option ScratchFile} (hname : IsTemp name) :
    Shifted hashers hash c s₀ d s { s with dir := Function.update s.dir name file } :=
  ⟨Moves.single List.mem_cons_self (.temp hname), rfl⟩

/-- The removal of a temporary file. -/
theorem ignored_removeTemp_meets {E : Error → Instance Local → Prop}
    (hs : Moves hashers hash c s₀ c.packs s₀ s) (hd : d ∈ c.packs) {path : Bytes} (hpath : IsTemp path) :
    (ignored (.removeFile path)).Meets (contract hashers hash c s₀)
      (fun _ s' ↦ Shifted hashers hash c s₀ d s s') E s := by
  refine ignored_meets hs fun answer s' h ↦ ?_
  rcases h with ⟨-, rfl⟩ | ⟨-, rfl⟩
  · exact ⟨.refl, Shifted.refl _ _⟩
  · exact ⟨Moves.single hd (.temp hpath), Shifted.temp hpath⟩

/-- A step that drops a temporary file when it fails. -/
theorem orDrop_meets {α : Type} {step : Hydration Local α} {Q : α → Instance Local → Prop} {path : Bytes}
    (hs : Moves hashers hash c s₀ c.packs s₀ s) (hd : d ∈ c.packs) (hpath : IsTemp path)
    (h : step.Meets (contract hashers hash c s₀) Q (fun _ s' ↦ Shifted hashers hash c s₀ d s s') s) :
    (orDrop path step).Meets (contract hashers hash c s₀) Q
      (fun _ s' ↦ Shifted hashers hash c s₀ d s s') s := by
  refine Meets.bind (Meets.attempt h) (fun result s₁ h₁ ↦ ?_) fun (_ : Error) _ (h : False) ↦ h.elim
  cases result with
  | ok a => exact Program.meets_pure h₁
  | error error =>
    have hs₁ : Moves hashers hash c s₀ c.packs s₀ s₁ := Moves.append hs h₁.1 hd
    exact (ignored_removeTemp_meets hs₁ hd hpath).bind (fun _ s₂ h₂ ↦ Program.meets_fail (h₁.trans h₂))
      fun (_ : Error) _ (h : False) ↦ h.elim

/-- A new temporary file holds the bytes, and what stood under other names stands there. -/
theorem writeTemp_meets (hs : Moves hashers hash c s₀ c.packs s₀ s) (hd : d ∈ c.packs) (pid : ℕ)
    (name bytes : Bytes) :
    (writeTemp pid name bytes).Meets (contract hashers hash c s₀)
      (fun path s' ↦ Shifted hashers hash c s₀ d s s' ∧ IsTemp path ∧ s.dir path = none ∧
        Regular s'.dir path bytes ∧ ∀ other, s.dir other ≠ none → s'.dir other = s.dir other)
      (fun _ s' ↦ Shifted hashers hash c s₀ d s s') s := by
  have hid : (ask .nextTempId).Meets (contract hashers hash c s₀) (fun _ s' ↦ s' = s)
      (fun _ s' ↦ Shifted hashers hash c s₀ d s s') s :=
    meets_ask hs trivial (fun _ _ ↦ rfl) fun _ _ ↦ Shifted.refl _ _
  refine hid.bind (fun id s' hsame ↦ ?_) fun _ _ h ↦ h
  obtain rfl := hsame
  have hpath : IsTemp (tempName pid name id) := ⟨pid, name, id, rfl⟩
  have hcreate : (requestOr (.createNew (tempName pid name id))
      (fileError "could not create PackFetch temporary file")).Meets (contract hashers hash c s₀)
      (fun _ s ↦ Shifted hashers hash c s₀ d s' s ∧ s'.dir (tempName pid name id) = none ∧
        ∀ other, other ≠ tempName pid name id → s.dir other = s'.dir other)
      (fun _ s ↦ Shifted hashers hash c s₀ d s' s) s' := by
    refine Meets.mapError (meets_moves hs fun answer s h ↦ ?_) fun _ _ h ↦ h
    rcases h with ⟨⟨e, rfl⟩, rfl⟩ | ⟨hnone, rfl, rfl⟩
    · exact ⟨.refl, Shifted.refl _ _⟩
    · exact ⟨Moves.single hd (.temp hpath), Shifted.temp hpath, hnone,
        fun other hne ↦ Function.update_of_ne hne _ _⟩
  refine hcreate.bind (fun _ s₁ h₁ ↦ ?_) fun _ _ h ↦ h
  obtain ⟨hshifted₁, hnone, hothers₁⟩ := h₁
  have hs₁ : Moves hashers hash c s₀ c.packs s₀ s₁ := Moves.append hs hshifted₁.1 hd
  have hwrite : (ask (.writeAll (tempName pid name id) bytes)).Meets (contract hashers hash c s₀)
      (fun _ s ↦ Shifted hashers hash c s₀ d s₁ s ∧ Regular s.dir (tempName pid name id) bytes ∧
        ∀ other, other ≠ tempName pid name id → s.dir other = s₁.dir other)
      (fun _ s ↦ Shifted hashers hash c s₀ d s₁ s) s₁ := by
    refine meets_moves hs₁ fun answer s h ↦ ?_
    obtain ⟨content, hanswer, rfl⟩ := h
    refine ⟨Moves.single hd (.temp hpath), ?_⟩
    rcases hanswer with ⟨e, rfl⟩ | ⟨rfl, rfl⟩
    · exact Shifted.temp hpath
    · exact ⟨Shifted.temp hpath, Function.update_self _ _ _, fun other hne ↦ Function.update_of_ne hne _ _⟩
  refine Meets.bind (Meets.attempt hwrite) (fun result s₂ h₂ ↦ ?_) fun (_ : Error) _ (h : False) ↦ h.elim
  cases result with
  | ok _ =>
    obtain ⟨hshifted₂, hcontent, hothers₂⟩ := h₂
    refine Program.meets_pure ⟨hshifted₁.trans hshifted₂, hpath, hnone, hcontent, fun other hother ↦ ?_⟩
    have hne : other ≠ tempName pid name id := by
      rintro rfl
      exact hother hnone
    rw [hothers₂ other hne, hothers₁ other hne]
  | error error =>
    have hs₂ : Moves hashers hash c s₀ c.packs s₀ s₂ := Moves.append hs₁ h₂.1 hd
    exact (ignored_removeTemp_meets hs₂ hd hpath).bind
      (fun _ s₃ h₃ ↦ Program.meets_fail ((hshifted₁.trans h₂).trans h₃))
      fun (_ : Error) _ (h : False) ↦ h.elim

/-- A temporary file takes its final name. -/
theorem publishTemp_meets (hs : Moves hashers hash c s₀ c.packs s₀ s) (hd : d ∈ c.packs)
    {path name content : Bytes} (hpath : IsTemp path) (hname : ¬ IsTemp name)
    (hcontent : Regular s.dir path content)
    (hmove : Move hashers hash c s₀ d s
      { s with dir := Function.update s.dir name (some (.regular content)) }) :
    (publishTemp path name).Meets (contract hashers hash c s₀)
      (fun _ s' ↦ Shifted hashers hash c s₀ d s s' ∧ Regular s'.dir name content ∧
        ∀ other, other ≠ path → other ≠ name → s'.dir other = s.dir other)
      (fun _ s' ↦ Shifted hashers hash c s₀ d s s') s := by
  have hne : name ≠ path := by
    rintro rfl
    exact hname hpath
  have hrename : (ask (.rename path name)).Meets (contract hashers hash c s₀)
      (fun _ s' ↦ Shifted hashers hash c s₀ d s s' ∧ Regular s'.dir name content ∧
        ∀ other, other ≠ path → other ≠ name → s'.dir other = s.dir other)
      (fun _ s' ↦ Shifted hashers hash c s₀ d s s') s := by
    refine meets_moves hs fun answer s' h ↦ ?_
    rcases h with ⟨⟨e, rfl⟩, rfl⟩ | ⟨file, hfile, rfl, rfl⟩
    · exact ⟨.refl, Shifted.refl _ _⟩
    · cases hcontent.symm.trans hfile
      have hmoves : Moves hashers hash c s₀ [d] s { s with
          dir := Function.update (Function.update s.dir name (some (.regular content))) path none } :=
        Relation.ReflTransGen.trans (Moves.single List.mem_cons_self hmove)
          (Moves.single List.mem_cons_self (.temp hpath))
      refine ⟨Moves.append .refl hmoves hd, ⟨hmoves, rfl⟩, ?_, fun other hpath hname ↦ ?_⟩
      · exact (Function.update_of_ne hne _ _).trans (Function.update_self _ _ _)
      · exact (Function.update_of_ne hpath _ _).trans (Function.update_of_ne hname _ _)
  refine Meets.bind (Meets.attempt hrename) (fun result s₁ h₁ ↦ ?_) fun (_ : Error) _ (h : False) ↦ h.elim
  cases result with
  | ok _ => exact Program.meets_pure h₁
  | error error =>
    have hs₁ : Moves hashers hash c s₀ c.packs s₀ s₁ := Moves.append hs h₁.1 hd
    exact (ignored_removeTemp_meets hs₁ hd hpath).bind (fun _ s₂ h₂ ↦ Program.meets_fail (h₁.trans h₂))
      fun (_ : Error) _ (h : False) ↦ h.elim

/-- A verified pair is published. -/
theorem writePairAtomically_meets (hs : Moves hashers hash c s₀ c.packs s₀ s) (hd : d ∈ c.packs)
    {pack index : Bytes} (hpassed : (d.id, pack, index) ∈ s.passed) (hlost : Lost hashers hash c s₀ d)
    (pid : ℕ) :
    (writePairAtomically pid d.id pack index).Meets (contract hashers hash c s₀)
      (fun _ s' ↦ Shifted hashers hash c s₀ d s s' ∧ Holds s'.dir d.id pack index)
      (fun _ s' ↦ Shifted hashers hash c s₀ d s s') s := by
  refine (writeTemp_meets hs hd pid (packName d.id) pack).bind (fun packTemp s₁ h₁ ↦ ?_) fun _ _ h ↦ h
  obtain ⟨hshifted₁, hpackTemp, -, hpack₁, -⟩ := h₁
  have hs₁ : Moves hashers hash c s₀ c.packs s₀ s₁ := Moves.append hs hshifted₁.1 hd
  refine (orDrop_meets hs₁ hd hpackTemp (writeTemp_meets hs₁ hd pid (indexName d.id) index)).bind
    (fun indexTemp s₂ h₂ ↦ ?_) fun _ _ h ↦ hshifted₁.trans h
  obtain ⟨hshifted₂, hindexTemp, hfresh, hindex₂, hothers₂⟩ := h₂
  have hs₂ : Moves hashers hash c s₀ c.packs s₀ s₂ := Moves.append hs₁ hshifted₂.1 hd
  have hpack₂ : Regular s₂.dir packTemp pack :=
    (hothers₂ packTemp (by rw [hpack₁]; exact Option.some_ne_none _)).trans hpack₁
  have hpassed₂ : (d.id, pack, index) ∈ s₂.passed := by rwa [hshifted₂.2, hshifted₁.2]
  have hshifted := hshifted₁.trans hshifted₂
  refine (orDrop_meets hs₂ hd hindexTemp (publishTemp_meets hs₂ hd hpackTemp not_isTemp_packName hpack₂
    (.pack hpassed₂ hlost))).bind (fun _ s₃ h₃ ↦ ?_) fun _ _ h ↦ hshifted.trans h
  obtain ⟨hshifted₃, hpack₃, hothers₃⟩ := h₃
  have hs₃ : Moves hashers hash c s₀ c.packs s₀ s₃ := Moves.append hs₂ hshifted₃.1 hd
  have hindex₃ : Regular s₃.dir indexTemp index := by
    refine (hothers₃ indexTemp ?_ ?_).trans hindex₂
    · rintro rfl
      exact nomatch hfresh.symm.trans hpack₁
    · rintro rfl
      exact not_isTemp_packName hindexTemp
  have hpassed₃ : (d.id, pack, index) ∈ s₃.passed := by rwa [hshifted₃.2]
  refine (publishTemp_meets hs₃ hd hindexTemp not_isTemp_indexName hindex₃
    (.index hpassed₃ hpack₃ hlost)).mono (fun _ s₄ h₄ ↦ ?_) fun _ _ h ↦
      (hshifted.trans hshifted₃).trans h
  obtain ⟨hshifted₄, hindex₄, hothers₄⟩ := h₄
  refine ⟨(hshifted.trans hshifted₃).trans hshifted₄, (hothers₄ _ ?_ packName_ne_indexName).trans hpack₃, hindex₄⟩
  rintro rfl
  exact not_isTemp_packName hindexTemp

/-! ### The fetches -/

/-- One fetched pack. -/
theorem fetchPack_meets (hs : Moves hashers hash c s₀ c.packs s₀ s) (hd : d ∈ c.packs)
    (hlost : Lost hashers hash c s₀ d) (options : PackFetchOptions) (pid : ℕ) (stats : HydrationStats) :
    (fetchPack options pid d stats).Meets (contract hashers hash c s₀)
      (fun _ s' ↦ Moves hashers hash c s₀ [d] s s' ∧ Settled d s' ∧ Noted [d.id] s s')
      (fun _ s' ↦ Moves hashers hash c s₀ [d] s s') s := by
  have hstill {s' : Instance Local} (h : s' = s) : Moves hashers hash c s₀ [d] s s' := h ▸ .refl
  have hcheck {s : Instance Local} (hs : Moves hashers hash c s₀ c.packs s₀ s) :
      (ask .check).Meets (contract hashers hash c s₀) (fun _ s' ↦ s' = s) (fun _ s' ↦ s' = s) s :=
    meets_asks hs (asks_quiet (by trivial))
  refine (hcheck hs).bind (fun _ s₁ hsame ↦ ?_) fun _ _ h ↦ hstill h
  obtain rfl := hsame
  refine Meets.lift_bind (fun _ _ ↦ ?_) fun _ _ ↦ hstill rfl
  refine (fetchArtifact_meets hs options _ _ _).bind (fun index s h ↦ ?_) fun _ _ h ↦ hstill h
  obtain ⟨rfl, hindexSize⟩ := h
  refine (fetchArtifact_meets hs options _ _ _).bind (fun pack s₁ h ↦ ?_) fun _ _ h ↦ hstill h
  obtain ⟨rfl, hpackSize⟩ := h
  have hverify : (ask (.verifyPairBytes pack index d.id)).Meets (contract hashers hash c s₀)
      (fun _ s ↦ Moves hashers hash c s₀ [d] s₁ s ∧ s.passed = (d.id, pack, index) :: s₁.passed)
      (fun _ s ↦ s = s₁) s₁ := by
    refine meets_moves hs fun answer s h ↦ ?_
    obtain ⟨hanswer, rfl⟩ := h
    cases answer with
    | ok _ =>
      have hmove : Move hashers hash c s₀ d s₁ { s₁ with passed := (d.id, pack, index) :: s₁.passed } :=
        .note hanswer.symm
      rw [if_pos rfl]
      exact ⟨Moves.single hd hmove, Moves.single List.mem_cons_self hmove, rfl⟩
    | error e =>
      rw [if_neg nofun]
      exact ⟨.refl, rfl⟩
  refine hverify.bind (fun _ s₂ h₂ ↦ ?_) fun _ _ h ↦ hstill h
  obtain ⟨hmoves₂, hpassed₂⟩ := h₂
  have hs₂ : Moves hashers hash c s₀ c.packs s₀ s₂ := Moves.append hs hmoves₂ hd
  have hlast {s' : Instance Local} (h : Shifted hashers hash c s₀ d s₂ s') : Moves hashers hash c s₀ [d] s₁ s' :=
    Relation.ReflTransGen.trans hmoves₂ h.1
  refine (hcheck hs₂).bind (fun _ s hsame ↦ ?_) fun _ s h ↦ ?_
  · obtain rfl := hsame
    have hpassed : (d.id, pack, index) ∈ s.passed := by
      rw [hpassed₂]
      exact List.mem_cons_self
    refine (writePairAtomically_meets hs₂ hd hpassed hlost pid).bind (fun _ s₃ h₃ ↦ ?_) fun _ _ h ↦ hlast h
    obtain ⟨hshifted₃, hholds₃⟩ := h₃
    have hs₃ : Moves hashers hash c s₀ c.packs s₀ s₃ := Moves.append hs₂ hshifted₃.1 hd
    have hpassed₃ : (d.id, pack, index) ∈ s₃.passed := by rwa [hshifted₃.2]
    refine (insertVerified_meets hs₃ hd ⟨pack, index, hholds₃, .inr hpassed₃⟩).bind (fun _ s₄ h₄ ↦ ?_)
      fun (_ : Error) _ (h : False) ↦ h.elim
    obtain ⟨hinsert, rfl⟩ := h₄
    refine Program.meets_pure ⟨(Relation.ReflTransGen.trans hmoves₂ hshifted₃.1).trans hinsert,
      ⟨Finset.mem_insert_self _ _, pack, index, hholds₃, hpackSize, hindexSize⟩,
      [(d.id, pack, index)], hshifted₃.2.trans hpassed₂, fun entry hentry ↦ ?_⟩
    obtain rfl := List.mem_singleton.mp hentry
    exact ⟨List.mem_cons_self, hholds₃⟩
  · obtain rfl := h
    exact hlast (Shifted.refl _ _)

/-- The descriptors that a plan fetches. -/
def fetched (plan : List HydrationPlanItem) : List PackDescriptor := (plan.filter (·.fetch)).map (·.descriptor)

private theorem Distinct.fetched {plan : List HydrationPlanItem} (h : Distinct (plan.map (·.descriptor))) :
    Distinct (fetched plan) := by
  rw [Distinct, PackFetch.fetched, List.map_map]
  rw [Distinct, List.map_map] at h
  exact h.sublist (List.filter_sublist.map _)

section Failures

variable (hashers hash c)

/-- A part of the call fails in the fetch of a pack: every pair that had passed when that fetch began is on disk
at the end. -/
def FailedFetch (options : PackFetchOptions) (pid : ℕ) (ids : List Bytes) (p : Hydration Local HydrationStats)
    (s : Instance Local) (e : Error) (s' : Instance Local) : Prop :=
  ∃ d stats plan s₁, Runs hashers hash c p s (fetchPack options pid d stats >>= fetchPlan options pid plan) s₁ ∧
    Runs hashers hash c (fetchPack options pid d stats) s₁ (.done (.error e)) s' ∧
      ∃ before, s₁.passed = before ++ s.passed ∧
        ∀ entry ∈ before, entry.1 ∈ ids ∧ Holds s'.dir entry.1 entry.2.1 entry.2.2

end Failures

/-- What had passed before is on disk, and so is what passed on the way to the fetch. -/
theorem FailedFetch.after {options : PackFetchOptions} {pid : ℕ} {ids ids' : List Bytes}
    {p p' : Hydration Local HydrationStats} {e : Error}
    (h : FailedFetch hashers hash c options pid ids' p' s' e s'')
    (hruns : Runs hashers hash c p s p' s') (hnoted : Noted ids s s') (hmoves : Moves hashers hash c s₀ ds s' s'')
    (hfree : ∀ id ∈ ids, ∀ d ∈ ds, ¬ Shares id d.id) :
    FailedFetch hashers hash c options pid (ids ++ ids') p s e s'' := by
  obtain ⟨d, stats, plan, s₁, hfirst, hfetch, before, hbefore, hall⟩ := h
  obtain ⟨new, hnew, hall'⟩ := hnoted
  refine ⟨d, stats, plan, s₁, Relation.ReflTransGen.trans hruns hfirst, hfetch, before ++ new,
    by rw [hbefore, hnew, List.append_assoc], fun entry hentry ↦ ?_⟩
  rcases List.mem_append.mp hentry with hentry | hentry
  · exact ⟨List.mem_append_right _ (hall entry hentry).1, (hall entry hentry).2⟩
  · obtain ⟨hid, hholds⟩ := hall' entry hentry
    exact ⟨List.mem_append_left _ hid, (hmoves.holds_iff (hfree _ hid)).mpr hholds⟩

private theorem FailedFetch.mono {options : PackFetchOptions} {pid : ℕ} {ids ids' : List Bytes}
    {p : Hydration Local HydrationStats} {e : Error} (h : FailedFetch hashers hash c options pid ids p s e s')
    (hsub : ids ⊆ ids') : FailedFetch hashers hash c options pid ids' p s e s' := by
  obtain ⟨d, stats, plan, s₁, hruns, hfetch, before, hbefore, hall⟩ := h
  exact ⟨d, stats, plan, s₁, hruns, hfetch, before, hbefore, fun entry hentry ↦
    ⟨hsub (hall entry hentry).1, (hall entry hentry).2⟩⟩

/-- The packs of a plan. -/
theorem fetchPlan_meets (options : PackFetchOptions) (pid : ℕ) (plan : List HydrationPlanItem)
    (hpacks : fetched plan ⊆ c.packs) (hdistinct : Distinct (fetched plan))
    (hlost : ∀ d ∈ fetched plan, Lost hashers hash c s₀ d) (stats : HydrationStats)
    (hs : Moves hashers hash c s₀ c.packs s₀ s) :
    (fetchPlan options pid plan stats).Meets (contract hashers hash c s₀)
      (fun _ s' ↦ Moves hashers hash c s₀ (fetched plan) s s' ∧ (∀ d ∈ fetched plan, Settled d s') ∧
        Noted ((fetched plan).map (·.id)) s s')
      (fun e s' ↦ Moves hashers hash c s₀ (fetched plan) s s' ∧
        FailedFetch hashers hash c options pid ((fetched plan).map (·.id))
          (fetchPlan options pid plan stats) s e s')
      s := by
  induction plan generalizing s stats with
  | nil => exact Program.meets_pure ⟨.refl, by simp [fetched], Noted.refl _ _⟩
  | cons item plan ih =>
    obtain ⟨d, fetch⟩ := item
    cases fetch with
    | false => exact ih hpacks hdistinct hlost stats hs
    | true =>
      have hfetched : fetched (⟨d, true⟩ :: plan) = d :: fetched plan := rfl
      rw [hfetched] at hpacks hdistinct hlost ⊢
      have hd : d ∈ c.packs := hpacks List.mem_cons_self
      have hfree : ∀ id ∈ [d.id], ∀ d' ∈ fetched plan, ¬ Shares id d'.id := fun id hid d' hd' ↦
        List.mem_singleton.mp hid ▸ not_shares_of_distinct hdistinct d' hd'
      have hone {s s' : Instance Local} (h : Moves hashers hash c s₀ [d] s s') :
          Moves hashers hash c s₀ (d :: fetched plan) s s' := Moves.append .refl h List.mem_cons_self
      have hrest {s s' : Instance Local} (h : Moves hashers hash c s₀ (fetched plan) s s') :
          Moves hashers hash c s₀ (d :: fetched plan) s s' := h.mono fun _ h ↦ List.mem_cons_of_mem _ h
      refine (fetchPack_meets hs hd (hlost d List.mem_cons_self) options pid stats).traced.bind
        (fun stats₁ s₁ h₁ ↦ ?_) fun e s₁ h₁ ↦ ?_
      · obtain ⟨⟨hmoves₁, hsettled₁, hnoted₁⟩, hruns₁⟩ := h₁
        refine (ih (fun _ h ↦ hpacks (List.mem_cons_of_mem _ h)) hdistinct.tail
          (fun d hd ↦ hlost d (List.mem_cons_of_mem _ hd)) stats₁ (Moves.append hs hmoves₁ hd)).mono
          (fun _ s₂ h₂ ↦ ?_) fun _ s₂ h₂ ↦ ?_
        · obtain ⟨hmoves₂, hsettled₂, hnoted₂⟩ := h₂
          refine ⟨(hone hmoves₁).trans (hrest hmoves₂), List.forall_mem_cons.mpr ⟨?_, hsettled₂⟩,
            hnoted₁.trans hmoves₂ hfree hnoted₂⟩
          exact hsettled₁.frame hmoves₂ (not_shares_of_distinct hdistinct)
        · obtain ⟨hmoves₂, hfailed⟩ := h₂
          exact ⟨(hone hmoves₁).trans (hrest hmoves₂),
            hfailed.after (Program.answered_bind hruns₁) hnoted₁ hmoves₂ hfree⟩
      · exact ⟨hone h₁.1, d, stats, plan, s, .refl, h₁.2, [], rfl, by simp⟩

/-- The IDs of descriptors. -/
def idsOf (ds : List PackDescriptor) : List Bytes := ds.map (·.id)

/-- The packs of a manifest. -/
theorem fetchManifest_meets (options : PackFetchOptions) (pid : ℕ) {manifest : PackManifest}
    (hmanifest : manifest.packs = c.packs) (hdistinct : Distinct c.packs) (manifestBytes : ℕ)
    (hs : Moves hashers hash c s₀ c.packs s₀ s) :
    (fetchManifest options pid manifest manifestBytes).Meets (contract hashers hash c s₀)
      (fun _ s' ↦ Moves hashers hash c s₀ c.packs s s' ∧ (∀ d ∈ c.packs, Settled d s') ∧
        Noted (idsOf c.packs) s s')
      (fun e s' ↦ Moves hashers hash c s₀ c.packs s s' ∧ (Noted (idsOf c.packs) s s' ∨
        FailedFetch hashers hash c options pid (idsOf c.packs)
          (fetchManifest options pid manifest manifestBytes) s e s')) s := by
  rw [fetchManifest, hmanifest]
  refine (planHydration_meets hdistinct c.packs (fun _ h ↦ h) hdistinct _ hs).traced.bind (fun p s₁ h₁ ↦ ?_)
    fun _ _ h ↦ ⟨h.1.1, .inl h.1.2⟩
  obtain ⟨plan, stats⟩ := p
  obtain ⟨⟨hplan, hmoves₁, hitems, hnoted₁⟩, hruns₁⟩ := h₁
  have hmem {item : HydrationPlanItem} (h : item ∈ plan) : item.descriptor ∈ c.packs :=
    hplan ▸ List.mem_map.mpr ⟨item, h, rfl⟩
  have hkept : planned false plan ⊆ idsOf c.packs := by
    intro id hid
    obtain ⟨item, hitem, -, rfl⟩ := mem_planned.mp hid
    exact List.mem_map.mpr ⟨_, hmem hitem, rfl⟩
  have hfetched {d : PackDescriptor} (h : d ∈ fetched plan) :
      ∃ item ∈ plan, item.fetch = true ∧ item.descriptor = d := by
    obtain ⟨item, hitem, rfl⟩ := List.mem_map.mp h
    exact ⟨item, (List.mem_filter.mp hitem).1, (List.mem_filter.mp hitem).2, rfl⟩
  have hpacks : fetched plan ⊆ c.packs := by
    intro d hd
    obtain ⟨item, hitem, -, rfl⟩ := hfetched hd
    exact hmem hitem
  -- A descriptor is kept or fetched, and the files of the two kinds are different.
  have hfree : ∀ item ∈ plan, item.fetch = false → ∀ d ∈ fetched plan, ¬ Shares item.descriptor.id d.id := by
    intro item hitem hfetch d hd hshares
    obtain ⟨item', hitem', hfetch', rfl⟩ := hfetched hd
    have hnodup : (plan.map fun item ↦ item.descriptor.id.map toAsciiLowercase).Nodup := by
      have hmapped := hdistinct
      rwa [← hplan, Distinct, List.map_map] at hmapped
    cases List.inj_on_of_nodup_map hnodup hitem hitem' hshares
    rw [hfetch] at hfetch'
    cases hfetch'
  have hfreeIds : ∀ id ∈ planned false plan, ∀ d ∈ fetched plan, ¬ Shares id d.id := by
    intro id hid
    obtain ⟨item, hitem, hfetch, rfl⟩ := mem_planned.mp hid
    exact hfree item hitem hfetch
  have hs₁ : Moves hashers hash c s₀ c.packs s₀ s₁ := Relation.ReflTransGen.trans hs hmoves₁
  have hnoted : Noted (idsOf c.packs) s s₁ := hnoted₁.mono hkept
  refine Meets.lift_bind (fun bytes hbytes ↦ Meets.lift_bind (fun _ hfits ↦ ?_) fun _ _ ↦ ⟨hmoves₁, .inl hnoted⟩)
    fun _ _ ↦ ⟨hmoves₁, .inl hnoted⟩
  have hplanned : Runs hashers hash c (fetchManifest options pid manifest manifestBytes) s
      (fetchPlan options pid plan stats) s₁ := by
    rw [fetchManifest, hmanifest]
    refine (Program.answered_bind hruns₁).trans ((Program.answered_lift hbytes).trans ?_)
    exact Program.answered_lift hfits
  have hids : planned false plan ++ (fetched plan).map (·.id) ⊆ idsOf c.packs := by
    refine List.append_subset.mpr ⟨hkept, fun id hid ↦ ?_⟩
    obtain ⟨d, hd, rfl⟩ := List.mem_map.mp hid
    exact List.mem_map.mpr ⟨d, hpacks hd, rfl⟩
  refine (fetchPlan_meets options pid plan hpacks (Distinct.fetched (hplan.symm ▸ hdistinct)) (fun d hd ↦ ?_)
    stats hs₁).mono (fun _ s₂ h₂ ↦ ?_) fun _ s₂ h₂ ↦ ?_
  · obtain ⟨item, hitem, hfetch, rfl⟩ := hfetched hd
    have hlost := hitems item hitem
    rwa [if_pos hfetch] at hlost
  · obtain ⟨hmoves₂, hsettled₂, hnoted₂⟩ := h₂
    refine ⟨Relation.ReflTransGen.trans hmoves₁ (hmoves₂.mono hpacks), fun d hd ↦ ?_,
      (hnoted₁.trans hmoves₂ hfreeIds hnoted₂).mono hids⟩
    rw [← hplan] at hd
    obtain ⟨item, hitem, rfl⟩ := List.mem_map.mp hd
    by_cases hfetch : item.fetch = true
    · exact hsettled₂ _ (List.mem_map.mpr ⟨item, List.mem_filter.mpr ⟨hitem, hfetch⟩, rfl⟩)
    · have hsettled := hitems item hitem
      rw [if_neg hfetch] at hsettled
      exact hsettled.frame hmoves₂ (hfree item hitem (Bool.not_eq_true _ ▸ hfetch))
  · obtain ⟨hmoves₂, hfailed⟩ := h₂
    have hfailure := (hfailed.after hplanned hnoted₁ hmoves₂ hfreeIds).mono hids
    rw [fetchManifest, hmanifest] at hfailure
    exact ⟨Relation.ReflTransGen.trans hmoves₁ (hmoves₂.mono hpacks), .inr hfailure⟩

/-! ### The probe -/

/-- The first object of an index on disk. -/
theorem readFirstIndexOid_meets (hs : Moves hashers hash c s₀ c.packs s₀ s) (d : PackDescriptor) :
    (readFirstIndexOid (indexName d.id) hash).Meets (contract hashers hash c s₀)
      (fun oid s' ↦ s' = s ∧ ∃ content, Regular s.dir (indexName d.id) content ∧
        firstIndexOid (content.take (firstOidBytes hash)) hash = .ok oid)
      (fun _ s' ↦ s' = s ∧ ∀ pack index, Holds s.dir d.id pack index → ¬ Spared hash c d pack index) s := by
  have hopen : (requestOr (.openFile (indexName d.id))
      (malformed "could not open hydrated index for its open-time probe")).Meets (contract hashers hash c s₀)
      (fun _ s' ↦ s' = s) (fun _ s' ↦ s' = s ∧ ∀ pack index, Holds s.dir d.id pack index →
        ¬ Spared hash c d pack index) s := by
    refine meets_requestOr hs trivial (fun _ _ ↦ rfl) fun e h ↦ ⟨rfl, fun pack index hholds hkept ↦ ?_⟩
    exact nomatch h.2 hkept.indexFound index hholds.2
  have hread : (requestOr (.readExact (indexName d.id) (firstOidBytes hash))
      (malformed "hydrated index is too short for its open-time probe")).Meets (contract hashers hash c s₀)
      (fun header s' ↦ s' = s ∧ ∃ content, Regular s.dir (indexName d.id) content ∧
        header = content.take (firstOidBytes hash))
      (fun _ s' ↦ s' = s ∧ ∀ pack index, Holds s.dir d.id pack index → ¬ Spared hash c d pack index) s := by
    refine meets_requestOr hs trivial (fun header h ↦ ?_) fun e h ↦ ⟨rfl, fun pack index hholds hkept ↦ ?_⟩
    · obtain ⟨content, hcontent, -, heq⟩ := h.2.1 header rfl
      exact ⟨rfl, content, hcontent, heq⟩
    · exact nomatch h.2.2 hkept.indexFound index hholds.2 hkept.probes.1
  refine hopen.bind (fun _ s' hsame ↦ ?_) fun _ _ h ↦ h
  obtain rfl := hsame
  refine hread.bind (fun header s h ↦ ?_) fun _ _ h ↦ h
  obtain ⟨rfl, content, hcontent, rfl⟩ := h
  refine Program.meets_ofExcept (fun oid h ↦ ⟨rfl, content, hcontent, h⟩) fun e h ↦
    ⟨rfl, fun pack index hholds hkept ↦ ?_⟩
  obtain rfl := ScratchFile.regular.inj (Option.some.inj (hcontent.symm.trans hholds.2))
  obtain ⟨-, oid, hoid, -⟩ := hkept.probes
  exact nomatch h.symm.trans hoid

/-- A pair that is spared answers the probe. -/
theorem probe_meets (hs : Moves hashers hash c s₀ c.packs s₀ s) (store : Local) (d : PackDescriptor) :
    (probe store hash d.id).Meets (contract hashers hash c s₀)
      (fun header s' ↦ s' = s ∧ (header = none → ∀ pack index, Holds s.dir d.id pack index →
        ¬ Spared hash c d pack index))
      (fun _ s' ↦ s' = s ∧ ∀ pack index, Holds s.dir d.id pack index → ¬ Spared hash c d pack index) s := by
  refine (readFirstIndexOid_meets hs d).bind (fun oid s' h ↦ ?_) fun _ _ h ↦ h
  obtain ⟨rfl, content, hcontent, hfirst⟩ := h
  have hanswers {answer : Except Error (Option ObjectHeader)} (h : c.headers store oid answer)
      {pack index : Bytes} (hholds : Holds s'.dir d.id pack index) (hkept : Spared hash c d pack index) :
      ∃ header, answer = .ok (some header) := by
    obtain rfl := ScratchFile.regular.inj (Option.some.inj (hcontent.symm.trans hholds.2))
    obtain ⟨-, oid', hoid', hheaders⟩ := hkept.probes
    cases hfirst.symm.trans hoid'
    exact hheaders store answer h
  refine meets_ask hs trivial (fun header h ↦ ⟨rfl, ?_⟩) fun e h ↦ ⟨rfl, fun pack index hholds hkept ↦ ?_⟩
  · rintro rfl pack index hholds hkept
    obtain ⟨header, heq⟩ := hanswers h.2 hholds hkept
    cases heq
  · obtain ⟨header, heq⟩ := hanswers h.2 hholds hkept
    cases heq

/-- The probes change nothing, or one of them fails and takes its pair away. -/
theorem probeHydratedPacks_meets (hdistinct : Distinct c.packs) (store : Local) (ds : List PackDescriptor)
    (hds : ds ⊆ c.packs) (hs : Moves hashers hash c s₀ c.packs s₀ s) :
    (probeHydratedPacks store hash ds).Meets (contract hashers hash c s₀) (fun _ s' ↦ s' = s)
      (fun e s' ↦ s' = s ∨ ∃ d ∈ c.packs, e = probeError d.id ∧ Shifted hashers hash c s₀ d s s') s := by
  induction ds with
  | nil => exact Program.meets_pure rfl
  | cons d ds ih =>
    have hd : d ∈ c.packs := hds List.mem_cons_self
    have hfailed (result : Except Error (Option ObjectHeader)) (hresult : ∀ header, result ≠ .ok (some header))
        (hkept : ∀ pack index, Holds s.dir d.id pack index → ¬ Spared hash c d pack index) :
        (probed d.id result).Meets (contract hashers hash c s₀) (fun _ s' ↦ s' = s)
          (fun e s' ↦ s' = s ∨ ∃ d ∈ c.packs, e = probeError d.id ∧ Shifted hashers hash c s₀ d s s') s := by
      have hlost := lost_of_moves hs hdistinct hd fun pack index hholds _ ↦ hkept pack index hholds
      have hprobed : probed d.id result = (do
          removeDestinationPair d.id
          ask (.removeVerified d.id)
          Program.fail (probeError d.id) : Hydration Local Unit) := by
        rw [probed]
        exact hresult
      rw [hprobed]
      refine (removeDestinationPair_meets hs hd hlost).bind (fun _ s₁ h₁ ↦ ?_)
        fun (_ : Error) _ (h : False) ↦ h.elim
      have hs₁ : Moves hashers hash c s₀ c.packs s₀ s₁ := Moves.append hs h₁.1 hd
      refine (removeVerified_meets hs₁ hd).bind (fun _ s₂ h₂ ↦ ?_) fun (_ : Error) _ (h : False) ↦ h.elim
      exact Program.meets_fail (.inr ⟨d, hd, rfl, Shifted.trans h₁ h₂⟩)
    have hcheck : (ask .check).Meets (contract hashers hash c s₀) (fun _ s' ↦ s' = s) (fun _ s' ↦ s' = s) s :=
      meets_asks hs (asks_quiet (by trivial))
    refine hcheck.bind (fun _ s' hsame ↦ ?_) fun _ _ h ↦ .inl h
    obtain rfl := hsame
    refine Meets.bind (Meets.attempt (probe_meets hs store d)) (fun result s h ↦ ?_)
      fun (_ : Error) _ (h : False) ↦ h.elim
    have hrest : (probed d.id result).Meets (contract hashers hash c s₀) (fun _ s ↦ s = s')
        (fun e s ↦ s = s' ∨ ∃ d ∈ c.packs, e = probeError d.id ∧ Shifted hashers hash c s₀ d s' s) s := by
      cases result with
      | ok header =>
        obtain ⟨rfl, hkept⟩ := h
        cases header with
        | some header => exact Program.meets_pure rfl
        | none => exact hfailed _ nofun (hkept rfl)
      | error e =>
        obtain ⟨rfl, hkept⟩ := h
        exact hfailed _ nofun hkept
    refine hrest.bind (fun _ s hsame ↦ ?_) fun _ _ h ↦ h
    obtain rfl := hsame
    exact ih fun _ h ↦ hds (List.mem_cons_of_mem _ h)

/-! ### The hydration -/

/-- A valid manifest, read without a change. -/
theorem readManifest_meets (hs : Moves hashers hash c s₀ c.packs s₀ s) (options : PackFetchOptions) :
    (readManifest options hash).Meets (contract hashers hash c s₀)
      (fun p s' ↦ s' = s ∧ c.manifest = .ok p.1 ∧ p.1.validate hash = .ok ()) (fun _ s' ↦ s' = s) s := by
  have hquiet {α : Type} {p : Hydration Local α} (hp : p.Asks HydrateOp.Quiet) :
      p.Meets (contract hashers hash c s₀) (fun _ s' ↦ s' = s) (fun _ s' ↦ s' = s) s := meets_asks hs hp
  have hreply : (ask .manifest).Meets (contract hashers hash c s₀)
      (fun manifest s' ↦ s' = s ∧ c.manifest = .ok manifest) (fun _ s' ↦ s' = s) s :=
    meets_ask hs trivial (fun _ h ↦ ⟨rfl, h.2.symm⟩) fun _ _ ↦ rfl
  refine (hquiet (asks_quiet (by trivial))).bind (fun _ s' hsame ↦ ?_) fun _ _ h ↦ h
  obtain rfl := hsame
  refine hreply.bind (fun manifest s h ↦ ?_) fun _ _ h ↦ h
  obtain ⟨rfl, hmanifest⟩ := h
  refine Meets.lift_bind (fun _ hvalid ↦ ?_) fun _ _ ↦ rfl
  refine Meets.lift_bind (fun _ _ ↦ Meets.lift_bind (fun bytes _ ↦ Meets.lift_bind (fun _ _ ↦ ?_)
    fun _ _ ↦ rfl) fun _ _ ↦ rfl) fun _ _ ↦ rfl
  refine (hquiet (Program.Asks.mapError (asks_quiet (by trivial)))).bind (fun _ s' hsame ↦ ?_) fun _ _ h ↦ h
  obtain rfl := hsame
  refine (hquiet (asks_requestOr (by trivial))).bind (fun _ s hsame ↦ ?_) fun _ _ h ↦ h
  obtain rfl := hsame
  refine (hquiet (asks_checkMaxBytes options manifest)).bind (fun _ s' hsame ↦ ?_) fun _ _ h ↦ h
  obtain rfl := hsame
  exact Program.meets_pure ⟨rfl, hmanifest, hvalid⟩

/-- The packs of a call are those of its manifest. -/
theorem packs_of_manifest {manifest : PackManifest} (h : c.manifest = .ok manifest) :
    manifest.packs = c.packs := by
  rw [Circumstances.packs, h]
  rfl

/-- The opened store is served. -/
theorem openStore_meets (hdistinct : Distinct c.packs) {manifest : PackManifest}
    (hmanifest : c.manifest = .ok manifest) (hs : Moves hashers hash c s₀ c.packs s₀ s)
    (hsettled : ∀ d ∈ c.packs, Settled d s) (stats : HydrationStats) :
    (openStore hash manifest stats).Meets (contract hashers hash c s₀)
      (fun stats' s' ↦ ∃ store, s' = { s with store := some store, stats := stats' })
      (fun e s' ↦ s' = s ∨ ∃ d ∈ c.packs, e = probeError d.id ∧ Shifted hashers hash c s₀ d s s') s := by
  have hopen : (ask .openObjectsDir).Meets (contract hashers hash c s₀) (fun _ s' ↦ s' = s)
      (fun _ s' ↦ s' = s) s :=
    meets_asks hs (asks_quiet (by trivial))
  refine hopen.bind (fun store s' hsame ↦ ?_) fun _ _ h ↦ .inl h
  obtain rfl := hsame
  rw [packs_of_manifest hmanifest]
  refine (probeHydratedPacks_meets hdistinct store c.packs (fun _ h ↦ h) hs).bind (fun _ s hsame ↦ ?_)
    fun _ _ h ↦ h
  obtain rfl := hsame
  have hpublish : (ask (.publish store)).Meets (contract hashers hash c s₀)
      (fun _ s' ↦ s' = { s with store := some store }) (fun _ _ ↦ False) s := by
    refine Program.meets_request (fun _ s' h ↦ ?_) fun e s' h ↦ nomatch h.1
    obtain ⟨-, rfl⟩ := h
    exact ⟨⟨s, hs, .inr ⟨⟨manifest, hmanifest⟩, hsettled, store, s.stats, rfl⟩⟩, rfl⟩
  refine hpublish.bind (fun _ s' h ↦ ?_) fun (_ : Error) _ h ↦ h.elim
  obtain rfl := h
  have hstats : (ask (.setStats stats)).Meets (contract hashers hash c s₀)
      (fun _ s' ↦ s' = { s with store := some store, stats := stats }) (fun _ _ ↦ False)
      { s with store := some store } := by
    refine Program.meets_request (fun _ s' h ↦ ?_) fun e s' h ↦ nomatch h.1
    obtain ⟨-, rfl⟩ := h
    exact ⟨⟨s, hs, .inr ⟨⟨manifest, hmanifest⟩, hsettled, store, stats, rfl⟩⟩, rfl⟩
  refine hstats.bind (fun _ s' h ↦ ?_) fun (_ : Error) _ h ↦ h.elim
  obtain rfl := h
  exact Program.meets_pure ⟨store, rfl⟩

section Ends

variable (hashers hash c s₀)

/-- The end of a hydration that returns. -/
def Hydrated (stats : HydrationStats) (s : Instance Local) : Prop :=
  ∃ s₁, Moves hashers hash c s₀ c.packs s₀ s₁ ∧ (∀ d ∈ c.packs, Settled d s₁) ∧
    (∃ manifest, c.manifest = .ok manifest) ∧ ∃ store, s = { s₁ with store := some store, stats := stats }

/-- The end of a hydration that fails: every pair that passed is on disk, except those that passed after the
fetch of the failing pack began and the pair whose probe failed. -/
def Halted (options : PackFetchOptions) (pid : ℕ) (e : Error) (s : Instance Local) : Prop :=
  Moves hashers hash c s₀ c.packs s₀ s ∧ (Noted (idsOf c.packs) s₀ s ∨
    (∃ manifest bytes, Runs hashers hash c (hydrate options pid hash) s₀
        (fetchManifest options pid manifest bytes >>= openStore hash manifest) s₀ ∧
      FailedFetch hashers hash c options pid (idsOf c.packs) (fetchManifest options pid manifest bytes) s₀ e s) ∨
    ∃ d ∈ c.packs, e = probeError d.id ∧ ∃ new, s.passed = new ++ s₀.passed ∧
      ∀ entry ∈ new, entry.1 ≠ d.id → Holds s.dir entry.1 entry.2.1 entry.2.2)

end Ends

/-- What every hydration does. -/
theorem hydrate_meets (options : PackFetchOptions) (pid : ℕ) :
    (hydrate options pid hash).Meets (contract hashers hash c s₀) (Hydrated hashers hash c s₀)
      (Halted hashers hash c s₀ options pid) s₀ := by
  have hstart : Moves hashers hash c s₀ c.packs s₀ s₀ := .refl
  refine (readManifest_meets hstart options).traced.bind (fun p s h ↦ ?_) fun e s h ↦ ?_
  · obtain ⟨manifest, manifestBytes⟩ := p
    obtain ⟨⟨rfl, hmanifest, hvalid⟩, hruns⟩ := h
    have hpacks := packs_of_manifest hmanifest
    have hdistinct : Distinct c.packs := hpacks ▸ (PackManifest.validate_eq_ok hvalid).2.2.2
    refine (fetchManifest_meets options pid hpacks hdistinct manifestBytes hstart).bind (fun stats s₁ h₁ ↦ ?_)
      fun e s₁ h₁ ↦ ?_
    · obtain ⟨hmoves₁, hsettled₁, hnoted₁⟩ := h₁
      refine (openStore_meets hdistinct hmanifest hmoves₁ hsettled₁ stats).mono (fun stats' s₂ h₂ ↦ ?_)
        fun e s₂ h₂ ↦ ?_
      · exact ⟨s₁, hmoves₁, hsettled₁, ⟨manifest, hmanifest⟩, h₂⟩
      · rcases h₂ with rfl | ⟨d, hd, rfl, hshifted⟩
        · exact ⟨hmoves₁, .inl hnoted₁⟩
        · obtain ⟨new, hnew, hall⟩ := hnoted₁
          refine ⟨Moves.append hmoves₁ hshifted.1 hd, .inr (.inr ⟨d, hd, rfl, new, hshifted.2.trans hnew,
            fun entry hentry hne ↦ ?_⟩)⟩
          obtain ⟨hid, hholds⟩ := hall entry hentry
          obtain ⟨d', hd', hid⟩ := List.mem_map.mp hid
          refine (hshifted.1.holds_iff fun d'' hd'' hshares ↦ hne ?_).mpr hholds
          obtain rfl := List.mem_singleton.mp hd''
          rw [← hid] at hshares ⊢
          rw [hdistinct.eq hd' hd hshares]
    · obtain ⟨hmoves₁, hnoted₁ | hfailed⟩ := h₁
      · exact ⟨hmoves₁, .inl hnoted₁⟩
      · exact ⟨hmoves₁, .inr (.inl ⟨manifest, manifestBytes, Program.answered_bind hruns, hfailed⟩)⟩
  · obtain rfl := h.1
    exact ⟨.refl, .inl (Noted.refl _ _)⟩

/-- Every state on the way is underway. -/
theorem underway_of_answered {options : PackFetchOptions} {pid : ℕ} {p : Hydration Local HydrationStats}
    (h : Runs hashers hash c (hydrate options pid hash) s₀ p s) :
    p.Meets (contract hashers hash c s₀) (Hydrated hashers hash c s₀) (Halted hashers hash c s₀ options pid) s ∧
      Underway hashers hash c s₀ s :=
  Meets.answered h (hydrate_meets options pid) (Moves.underway .refl)

end Gitility.PackFetch
