import Gitility.PackFetch.HydrateRuns

/-!
# Only verified packs are served

Over any sequence of hydrations: what is in `verified_packs` and on disk verifies, what a hydration puts under
a final name passed the verification, and a hydration that returns has every pack of its manifest in place. The
store is opened over the whole destination, so that it serves only packs that passed exactly when none that
could be read was left out by the manifest.
-/

namespace Gitility.PackFetch

open Provider (Hashers)

variable {Local : Type}

/-- What the reader of a pack directory accepts: a pack with its index, and a pack under its name with a
multi-pack index. -/
structure PackReader where
  withIndex : Bytes → Bytes → Prop
  withMidx : Bytes → Bytes → Bytes → Prop

/-- A pack that a store over a pack directory can read: an index or a multi-pack index that the reader accepts
leads to it. -/
def Readable (reader : PackReader) (dir : Scratch) (name pack : Bytes) : Prop :=
  ∃ front, name = front ++ Bytes.ascii ".pack" ∧ Regular dir name pack ∧
    ((∃ index, Regular dir (front ++ Bytes.ascii ".idx") index ∧ reader.withIndex pack index) ∨
      ∃ midx, Regular dir midxName midx ∧ reader.withMidx midx name pack)

/-- A pack that passed the verification for the ID of its name. -/
def PackPassed (s : Instance Local) (name pack : Bytes) : Prop :=
  ∃ id index, (id, pack, index) ∈ s.passed ∧ packName id = name

/-- What the served store can read passed the verification. -/
def ServesPassed (reader : PackReader) (s : Instance Local) : Prop :=
  s.store ≠ none → ∀ dir ∈ s.dir :: s.alternates, ∀ name pack, Readable reader dir name pack →
    PackPassed s name pack

/-- The memory of the instance agrees with what passed and with what is on disk. -/
structure Trusted (hashers : Hashers) (hash : HashKind) (s : Instance Local) : Prop where
  accepted : ∀ id pack index, (id, pack, index) ∈ s.passed →
    verifyPairBytes hashers pack index id hash = .ok ()
  packs : ∀ id ∈ s.verified, ∀ pack, Regular s.dir (packName id) pack →
    ∃ id' index, Shares id id' ∧ (id', pack, index) ∈ s.passed
  indices : ∀ id ∈ s.verified, ∀ index, Regular s.dir (indexName id) index →
    ∃ id' pack, Shares id id' ∧ (id', pack, index) ∈ s.passed

variable {hashers : Hashers} {hash : HashKind} {reader : PackReader} {c : Circumstances Local}
  {s₀ s s' : Instance Local}
  {d : PackDescriptor} {ds : List PackDescriptor} {id name pack index content : Bytes} {dir : Scratch}

private theorem PackPassed.mono (h : PackPassed s name pack) (hsub : s.passed ⊆ s'.passed) :
    PackPassed s' name pack := by
  obtain ⟨id, index, hmem, hname⟩ := h
  exact ⟨id, index, hsub hmem, hname⟩

/-- A pair on disk whose ID is in `verified_packs` verifies. -/
theorem Trusted.verifies (h : Trusted hashers hash s) (hid : id ∈ s.verified)
    (hholds : Holds s.dir id pack index) : verifyPairBytes hashers pack index id hash = .ok () := by
  obtain ⟨id₁, index₁, hshares₁, hpack⟩ := h.packs id hid pack hholds.1
  obtain ⟨id₂, pack₂, hshares₂, hindex⟩ := h.indices id hid index hholds.2
  -- The pack and the index may have passed in two pairs; each half verifies for itself.
  have hfirst := h.accepted id₁ pack index₁ hpack
  have hsecond := h.accepted id₂ pack₂ index hindex
  rw [← verifyPairBytes_congr hshares₁] at hfirst
  rw [← verifyPairBytes_congr hshares₂] at hsecond
  exact verifyPairBytes_eq_ok.mpr ⟨(verifyPairBytes_eq_ok.mp hfirst).1, (verifyPairBytes_eq_ok.mp hsecond).2⟩

/-! ### What a move keeps -/

private theorem regular_of_update_none (h : Regular (Function.update dir name none) id content) :
    Regular dir id content := by
  by_cases heq : id = name
  · rw [Regular, heq, Function.update_self] at h
    cases h
  · exact (Function.update_of_ne heq _ _).symm.trans h

/-- What stands under a name that an update leaves alone. -/
theorem regular_update_iff {file : Option ScratchFile} (hne : id ≠ name) :
    Regular (Function.update dir name file) id content ↔ Regular dir id content := by
  rw [Regular, Regular, Function.update_of_ne hne]

private theorem eq_of_regular_update {content' : Bytes} (heq : id = name)
    (h : Regular (Function.update dir name (some (.regular content))) id content') : content' = content := by
  rw [Regular, heq, Function.update_self] at h
  exact (ScratchFile.regular.inj (Option.some.inj h)).symm

private theorem Trusted.move (h : Trusted hashers hash s) (hmove : Move hashers hash c s₀ d s s') :
    Trusted hashers hash s' := by
  cases hmove with
  | @note pack index hverified =>
    refine ⟨fun id pack index hmem ↦ ?_, fun id hid pack hpack ↦ ?_, fun id hid index hindex ↦ ?_⟩
    · rcases List.mem_cons.mp hmem with heq | hmem
      · cases heq
        exact hverified
      · exact h.accepted id pack index hmem
    · obtain ⟨id', index, hshares, hmem⟩ := h.packs id hid pack hpack
      exact ⟨id', index, hshares, List.mem_cons_of_mem _ hmem⟩
    · obtain ⟨id', pack, hshares, hmem⟩ := h.indices id hid index hindex
      exact ⟨id', pack, hshares, List.mem_cons_of_mem _ hmem⟩
  | insert hready =>
    obtain ⟨pack', index', hholds, hready⟩ := hready
    refine ⟨h.accepted, fun id hid pack hpack ↦ ?_, fun id hid index hindex ↦ ?_⟩
    · rcases Finset.mem_insert.mp hid with rfl | hid
      · rcases hready with hid | hmem
        · exact h.packs d.id hid pack hpack
        · obtain rfl := ScratchFile.regular.inj (Option.some.inj (hpack.symm.trans hholds.1))
          exact ⟨d.id, index', rfl, hmem⟩
      · exact h.packs id hid pack hpack
    · rcases Finset.mem_insert.mp hid with rfl | hid
      · rcases hready with hid | hmem
        · exact h.indices d.id hid index hindex
        · obtain rfl := ScratchFile.regular.inj (Option.some.inj (hindex.symm.trans hholds.2))
          exact ⟨d.id, pack', rfl, hmem⟩
      · exact h.indices id hid index hindex
  | erase =>
    exact ⟨h.accepted, fun id hid ↦ h.packs id (Finset.mem_of_mem_erase hid),
      fun id hid ↦ h.indices id (Finset.mem_of_mem_erase hid)⟩
  | discard hname hlost =>
    exact ⟨h.accepted, fun id hid pack hpack ↦ h.packs id hid pack (regular_of_update_none hpack),
      fun id hid index hindex ↦ h.indices id hid index (regular_of_update_none hindex)⟩
  | temp hname =>
    refine ⟨h.accepted, fun id hid pack hpack ↦ h.packs id hid pack ((regular_update_iff ?_).mp hpack),
      fun id hid index hindex ↦ h.indices id hid index ((regular_update_iff ?_).mp hindex)⟩
    · rintro rfl
      exact not_isTemp_packName hname
    · rintro rfl
      exact not_isTemp_indexName hname
  | @pack pack' index' hpassed hlost =>
    refine ⟨h.accepted, fun id hid pack hpack ↦ ?_, fun id hid index hindex ↦ h.indices id hid index
      ((regular_update_iff packName_ne_indexName.symm).mp hindex)⟩
    by_cases heq : packName id = packName d.id
    · obtain rfl := eq_of_regular_update heq hpack
      exact ⟨d.id, index', packName_inj.mp heq, hpassed⟩
    · exact h.packs id hid pack ((regular_update_iff heq).mp hpack)
  | @index pack' index' hpassed hpack hlost =>
    refine ⟨h.accepted, fun id hid pack hpack ↦ h.packs id hid pack
      ((regular_update_iff packName_ne_indexName).mp hpack), fun id hid index hindex ↦ ?_⟩
    by_cases heq : indexName id = indexName d.id
    · obtain rfl := eq_of_regular_update heq hindex
      exact ⟨d.id, pack', indexName_inj.mp heq, hpassed⟩
    · exact h.indices id hid index ((regular_update_iff heq).mp hindex)

private theorem Trusted.moves (h : Trusted hashers hash s) (hmoves : Moves hashers hash c s₀ ds s s') :
    Trusted hashers hash s' := by
  induction hmoves with
  | refl => exact h
  | tail _ hmove ih =>
    obtain ⟨d, -, hmove⟩ := hmove
    exact ih.move hmove

/-- A move makes no pack readable but one that passed. -/
theorem readable_of_move (hmove : Move hashers hash c s₀ d s s') (h : Readable reader s'.dir name pack) :
    Readable reader s.dir name pack ∨ PackPassed s name pack := by
  obtain ⟨front, rfl, hpack, hindexed⟩ := h
  cases hmove with
  | note hverified => exact .inl ⟨front, rfl, hpack, hindexed⟩
  | insert hready => exact .inl ⟨front, rfl, hpack, hindexed⟩
  | erase => exact .inl ⟨front, rfl, hpack, hindexed⟩
  | discard hname hlost =>
    refine .inl ⟨front, rfl, regular_of_update_none hpack, ?_⟩
    rcases hindexed with ⟨index, hindex, hread⟩ | ⟨midx, hmidx, hread⟩
    · exact .inl ⟨index, regular_of_update_none hindex, hread⟩
    · exact .inr ⟨midx, regular_of_update_none hmidx, hread⟩
  | temp hname =>
    refine .inl ⟨front, rfl, (regular_update_iff hname.ne_pack.symm).mp hpack, ?_⟩
    rcases hindexed with ⟨index, hindex, hread⟩ | ⟨midx, hmidx, hread⟩
    · exact .inl ⟨index, (regular_update_iff hname.ne_idx.symm).mp hindex, hread⟩
    · exact .inr ⟨midx, (regular_update_iff hname.ne_midx.symm).mp hmidx, hread⟩
  | @pack pack' index' hpassed hlost =>
    by_cases heq : front ++ Bytes.ascii ".pack" = packName d.id
    · obtain rfl := eq_of_regular_update heq hpack
      exact .inr ⟨d.id, index', hpassed, heq.symm⟩
    · refine .inl ⟨front, rfl, (regular_update_iff heq).mp hpack, ?_⟩
      rcases hindexed with ⟨index, hindex, hread⟩ | ⟨midx, hmidx, hread⟩
      · exact .inl ⟨index, (regular_update_iff pack_ne_idx.symm).mp hindex, hread⟩
      · exact .inr ⟨midx, (regular_update_iff midxName_ne_pack).mp hmidx, hread⟩
  | @index pack' index' hpassed hstands hlost =>
    have hpack' := (regular_update_iff pack_ne_idx).mp hpack
    by_cases heq : front ++ Bytes.ascii ".idx" = indexName d.id
    · -- The index of the pack that was published before it.
      obtain rfl : front = stem d.id := List.append_cancel_right heq
      obtain rfl := ScratchFile.regular.inj (Option.some.inj (hpack'.symm.trans hstands))
      exact .inr ⟨d.id, index', hpassed, rfl⟩
    · refine .inl ⟨front, rfl, hpack', ?_⟩
      rcases hindexed with ⟨index, hindex, hread⟩ | ⟨midx, hmidx, hread⟩
      · exact .inl ⟨index, (regular_update_iff heq).mp hindex, hread⟩
      · exact .inr ⟨midx, (regular_update_iff midxName_ne_indexName).mp hmidx, hread⟩

private theorem ServesPassed.moves (h : ServesPassed reader s) (hmoves : Moves hashers hash c s₀ ds s s') :
    ServesPassed reader s' := by
  induction hmoves with
  | refl => exact h
  | @tail s₁ s₂ _ hmove ih =>
    obtain ⟨d, -, hmove⟩ := hmove
    obtain ⟨hstore, -, halternates⟩ := hmove.served_eq
    obtain ⟨new, hnew, -⟩ := hmove.passed_eq
    have hsub : s₁.passed ⊆ s₂.passed := hnew ▸ List.subset_append_right _ _
    intro hserved dir hdir name pack hreadable
    rw [hstore] at hserved
    rcases List.mem_cons.mp hdir with rfl | hdir
    · rcases readable_of_move hmove hreadable with hreadable | hpassed
      · exact (ih hserved _ List.mem_cons_self name pack hreadable).mono hsub
      · exact hpassed.mono hsub
    · rw [halternates] at hdir
      exact (ih hserved dir (List.mem_cons_of_mem _ hdir) name pack hreadable).mono hsub

/-- A pack of no descriptor is readable as before. -/
theorem readable_iff_of_moves (hmoves : Moves hashers hash c s₀ ds s s')
    (hname : ∀ d ∈ ds, name ≠ packName d.id) :
    Readable reader s'.dir name pack ↔ Readable reader s.dir name pack := by
  have hsame {other : Bytes} (htemp : ¬ IsTemp other)
      (hother : ∀ d ∈ ds, other ≠ packName d.id ∧ other ≠ indexName d.id) {content : Bytes} :
      Regular s'.dir other content ↔ Regular s.dir other content := by
    rw [Regular, Regular, hmoves.dir_eq htemp hother]
  have hmidx {midx : Bytes} : Regular s'.dir midxName midx ↔ Regular s.dir midxName midx :=
    hsame (fun h ↦ h.ne_midx rfl) fun d hd ↦ ⟨midxName_ne_pack, midxName_ne_indexName⟩
  simp only [Readable, hmidx]
  refine exists_congr fun front ↦ and_congr_right fun heq ↦ ?_
  subst heq
  have hpack : Regular s'.dir (front ++ Bytes.ascii ".pack") pack ↔
      Regular s.dir (front ++ Bytes.ascii ".pack") pack :=
    hsame (fun h ↦ h.ne_pack rfl) fun d hd ↦ ⟨hname d hd, pack_ne_idx⟩
  have hindex {index : Bytes} : Regular s'.dir (front ++ Bytes.ascii ".idx") index ↔
      Regular s.dir (front ++ Bytes.ascii ".idx") index := by
    refine hsame (fun h ↦ h.ne_idx rfl) fun d hd ↦ ⟨pack_ne_idx.symm, fun heq ↦ ?_⟩
    obtain rfl : front = stem d.id := List.append_cancel_right heq
    exact hname d hd rfl
  simp only [hpack, hindex]

/-! ### Sequences of hydrations -/

/-- No pack that a store over the destination could read is left out by the manifest of the call, unless it
passed the verification in this instance. -/
def Covered (reader : PackReader) (c : Circumstances Local) (s : Instance Local) : Prop :=
  ∀ manifest, c.manifest = .ok manifest →
    (∀ name pack, Readable reader s.dir name pack →
      PackPassed s name pack ∨ ∃ d ∈ manifest.packs, name = packName d.id) ∧
    ∀ dir ∈ s.alternates, ∀ name pack, Readable reader dir name pack → PackPassed s name pack

section Calls

variable (hashers hash) (options : PackFetchOptions) (pid : ℕ) (P : Circumstances Local → Instance Local → Prop)

/-- One call of `hydrate` as far as it has come. -/
def Calling (c : Circumstances Local) (s : Instance Local) (p : Hydration Local HydrationStats)
    (s' : Instance Local) : Prop :=
  Relation.ReflTransGen (Program.Answered (world hashers hash c)) (hydrate options pid hash, s) (p, s')

/-- The states between calls that all meet a condition. -/
inductive Between : Instance Local → Prop
  | new (dir : Scratch) (alternates : List Scratch) : Between (.new dir alternates)
  | call {c : Circumstances Local} {s s' : Instance Local} {outcome : Outcome Error HydrationStats}
      (h : Between s) (hcondition : P c s)
      (hcalling : Calling hashers hash options pid c s (.done outcome) s') : Between s'

end Calls

variable {options : PackFetchOptions} {pid : ℕ} {p : Hydration Local HydrationStats}
  {P : Circumstances Local → Instance Local → Prop}

private theorem Trusted.underway (h : Trusted hashers hash s) (hunderway : Underway hashers hash c s s') :
    Trusted hashers hash s' := by
  obtain ⟨s₁, hmoves, rfl | ⟨-, -, store, stats, rfl⟩⟩ := hunderway
  · exact h.moves hmoves
  · have h₁ := h.moves hmoves
    exact ⟨h₁.accepted, h₁.packs, h₁.indices⟩

private theorem ServesPassed.underway (h : ServesPassed reader s) (htrusted : Trusted hashers hash s)
    (hcovered : Covered reader c s) (hunderway : Underway hashers hash c s s') : ServesPassed reader s' := by
  obtain ⟨s₁, hmoves, rfl | ⟨⟨manifest, hmanifest⟩, hsettled, store, stats, rfl⟩⟩ := hunderway
  · exact h.moves hmoves
  · obtain ⟨hown, halternates⟩ := hcovered manifest hmanifest
    intro _ dir hdir name pack hreadable
    rcases List.mem_cons.mp hdir with rfl | hdir
    · by_cases hlisted : ∃ d ∈ c.packs, name = packName d.id
      · obtain ⟨d, hd, rfl⟩ := hlisted
        obtain ⟨hverified, -⟩ := hsettled d hd
        obtain ⟨-, -, hpack, -⟩ := hreadable
        obtain ⟨id, index, hshares, hmem⟩ := (htrusted.moves hmoves).packs d.id hverified pack hpack
        exact ⟨id, index, hmem, packName_inj.mpr hshares.symm⟩
      · have hbefore := (readable_iff_of_moves hmoves fun d hd heq ↦ hlisted ⟨d, hd, heq⟩).mp hreadable
        rcases hown name pack hbefore with hpassed | ⟨d, hd, heq⟩
        · exact hpassed.mono hmoves.passed_subset
        · exact absurd ⟨d, packs_of_manifest hmanifest ▸ hd, heq⟩ hlisted
    · have hdir' : dir ∈ s.alternates := hmoves.served_eq.2.2 ▸ hdir
      exact (halternates dir hdir' name pack hreadable).mono hmoves.passed_subset

/-- Between calls the memory of the instance can be trusted, whatever the calls were. -/
theorem trusted_of_between (h : Between hashers hash options pid P s) : Trusted hashers hash s := by
  induction h with
  | new dir alternates => exact ⟨by simp [Instance.new], by simp [Instance.new], by simp [Instance.new]⟩
  | call _ _ hcalling ih => exact ih.underway (underway_of_answered hcalling).2

/-- Between covered calls what is served passed. -/
theorem servesPassed_of_between (h : Between hashers hash options pid (Covered reader) s) :
    ServesPassed reader s := by
  induction h with
  | new dir alternates => exact fun hserved ↦ absurd rfl hserved
  | call hbetween hcovered hcalling ih =>
    exact ih.underway (trusted_of_between hbetween) hcovered (underway_of_answered hcalling).2

/-- What a hydration puts under a final name passed. -/
theorem content_of_underway {file : ScratchFile} (hunderway : Underway hashers hash c s s')
    (htemp : ¬ IsTemp name) (hfile : s'.dir name = some file) :
    s.dir name = some file ∨ ∃ content, file = .regular content ∧ Passed s' name content := by
  obtain ⟨s₁, hmoves, rfl | ⟨-, -, store, stats, rfl⟩⟩ := hunderway
  · exact hmoves.content htemp hfile
  · exact hmoves.content htemp hfile

/-- A hydration that serves only packs that passed has left out no pack of the destination. -/
theorem listed_of_servesPassed {stats : HydrationStats}
    (hcalling : Calling hashers hash options pid c s (.done (.ok stats)) s') (hserves : ServesPassed reader s')
    (hreadable : Readable reader s.dir name pack) :
    PackPassed s name pack ∨ ∃ d ∈ c.packs, name = packName d.id := by
  by_cases hlisted : ∃ d ∈ c.packs, name = packName d.id
  · exact .inr hlisted
  · obtain ⟨s₁, hmoves, -, -, store, rfl⟩ := (underway_of_answered hcalling).1
    have hname : ∀ d ∈ c.packs, name ≠ packName d.id := fun d hd heq ↦ hlisted ⟨d, hd, heq⟩
    obtain ⟨id, index, hmem, rfl⟩ := hserves (Option.some_ne_none _) s₁.dir List.mem_cons_self name pack
      ((readable_iff_of_moves hmoves hname).mpr hreadable)
    obtain ⟨new, hnew, hids⟩ := hmoves.passed_eq
    -- What passed in the call is listed.
    rcases List.mem_append.mp (hnew ▸ hmem : (id, pack, index) ∈ new ++ s.passed) with hmem | hmem
    · obtain ⟨d, hd, hid⟩ := hids _ hmem
      exact absurd (congrArg packName hid) (hname d hd)
    · exact .inl ⟨id, index, hmem, rfl⟩

/-! ### Runs that the world allows -/

section Answers

variable {α : Type} {op : HydrateOp Local} {a : op.Ans} {f : op.Ans → Hydration Local α}

/-- A call that the world answers goes on with the answer. -/
theorem runs_ask (h : world hashers hash c op s (.ok a) s') : Runs hashers hash c (ask op >>= f) s (f a) s' :=
  Program.answered_request h

/-- A call that the world answers goes on with the answer, whatever errors become. -/
theorem runs_mapError {g : Error → Error} (h : world hashers hash c op s (.ok a) s') :
    Runs hashers hash c ((ask op).mapError g >>= f) s (f a) s' :=
  .single (.call h)

end Answers

/-- A valid manifest of a destination without a limit is read. -/
theorem runs_readManifest {manifest : PackManifest} {described manifestBytes : ℕ}
    (hmanifest : c.manifest = .ok manifest) (hvalid : manifest.validate hash = .ok ())
    (hdescribed : manifest.describedBytes = .ok described) (hreply : manifest.replyBytes = .ok manifestBytes)
    (hfits : manifestBytes ≤ options.maxHydrationBytes) (hlimit : options.maxBytes = none) (s : Instance Local) :
    Runs hashers hash c (readManifest options hash) s (.done (.ok (manifest, manifestBytes))) s := by
  have hmaximum : checkMaxBytes options manifest = (pure () : Hydration Local Unit) := by
    rw [checkMaxBytes, hlimit]
  have hcharge : world hashers hash c .chargeProviderRequest s (.ok ()) s := by
    refine ⟨rfl, fun e he ↦ ?_⟩
    cases he
  have hanswer : world hashers hash c .manifest s (.ok manifest) s := ⟨rfl, hmanifest.symm⟩
  have hbytes : world hashers hash c (.chargeProviderBytes manifestBytes) s (.ok ()) s := by
    refine ⟨rfl, fun e he ↦ ?_⟩
    cases he
  have hcreate : world hashers hash c .createDirAll s (.ok ()) s := rfl
  have hsmall : ensure (manifestBytes ≤ options.maxHydrationBytes)
      (hydrationBudgetError "pack manifest reply exceeds max_hydration_bytes") = .ok () := ensure_eq_ok.mpr hfits
  rw [readManifest]
  refine (runs_ask hcharge).trans ((runs_ask hanswer).trans ?_)
  refine (Program.answered_lift hvalid).trans ((Program.answered_lift hdescribed).trans ?_)
  refine (Program.answered_lift hreply).trans ((Program.answered_lift hsmall).trans ?_)
  refine (runs_mapError hbytes).trans ((runs_mapError hcreate).trans ?_)
  rw [hmaximum]
  exact .refl

/-- The length of a file. -/
theorem world_fileLength (h : Regular s.dir name content) :
    world hashers hash c (.fileLength name) s (.ok content.length) s := by
  refine ⟨rfl, fun content' h' ↦ ?_⟩
  obtain rfl := ScratchFile.regular.inj (Option.some.inj (h.symm.trans h'))
  exact ⟨fun length hlength ↦ (Except.ok.inj hlength).symm, fun _ ↦ rfl⟩

/-- A file that is there. -/
theorem world_isFile (h : Regular s.dir name content) :
    world hashers hash c (.isFile name) s (.ok true) s :=
  ⟨rfl, true, rfl, fun _ ↦ ⟨content, h⟩, fun _ _ _ ↦ rfl⟩

/-- A check of a budget that lasts. -/
theorem world_check : world hashers hash c .check s (.ok ()) s := ⟨rfl, fun _ h ↦ nomatch h⟩

/-- A file of the expected length is read. -/
theorem runs_readExactFile (h : Regular s.dir name content) (code : ErrorCode) :
    Runs hashers hash c (readExactFile name content.length code) s (.done (.ok content)) s := by
  have hopen : world hashers hash c (.openFile name) s (.ok ()) s := ⟨rfl, fun _ _ _ ↦ rfl⟩
  have hread : world hashers hash c (.readToEnd name) s (.ok content) s := by
    refine ⟨rfl, fun bytes hbytes ↦ Except.ok.inj hbytes ▸ h, fun _ content' h' ↦ ?_⟩
    rw [ScratchFile.regular.inj (Option.some.inj (h.symm.trans h'))]
  have hlength : ensure (content.length = content.length)
      (checksumError code "size does not match manifest") = .ok () := ensure_eq_ok.mpr rfl
  rw [readExactFile]
  refine (runs_mapError hopen).trans ((runs_mapError (world_fileLength h)).trans ?_)
  exact (Program.answered_lift hlength).trans (.single (.call hread))

/-- A pair on disk that verifies is kept. -/
theorem runs_planDescriptor_kept (hholds : Holds s.dir d.id pack index) (hsized : Sized d pack index)
    (hverified : verifyPairBytes hashers pack index d.id hash = .ok ()) (hnew : d.id ∉ s.verified)
    (stats : HydrationStats) :
    Runs hashers hash c (planDescriptor d stats) s
      (.done (.ok (⟨d, false⟩, { stats with
        bytesVerified := saturatingAdd stats.bytesVerified (pack.length + index.length)
        packsSkipped := stats.packsSkipped + 1 })))
      { s with passed := (d.id, pack, index) :: s.passed, verified := insert d.id s.verified } := by
  have hmemory : world hashers hash c (.isVerified d.id) s (.ok false) s := ⟨rfl, by simp [hnew]⟩
  have hpasses : world hashers hash c (.verifyPairBytes pack index d.id) s (.ok ())
      { s with passed := (d.id, pack, index) :: s.passed } := ⟨hverified.symm, (if_pos rfl).symm⟩
  have hinsert : world hashers hash c (.insertVerified d.id) { s with passed := (d.id, pack, index) :: s.passed }
      (.ok ()) { s with passed := (d.id, pack, index) :: s.passed, verified := insert d.id s.verified } :=
    ⟨rfl, rfl⟩
  have hverify : Runs hashers hash c (verifyPairPaths d) s (.done (.ok (pack.length + index.length)))
      { s with passed := (d.id, pack, index) :: s.passed } := by
    rw [verifyPairPaths, ← hsized.1, ← hsized.2]
    refine (Program.answered_bind (runs_readExactFile hholds.1 _)).trans ?_
    refine (Program.answered_bind (runs_readExactFile hholds.2 _)).trans ?_
    exact (runs_ask world_check).trans (runs_ask hpasses)
  have hcaught : Runs hashers hash c (verifyPairPaths d).attempt s
      (.done (.ok (.ok (pack.length + index.length)))) { s with passed := (d.id, pack, index) :: s.passed } :=
    Program.answered_attempt hverify
  rw [planDescriptor]
  refine (runs_ask world_check).trans ((runs_ask (world_isFile hholds.1)).trans ?_)
  refine (runs_ask (world_isFile hholds.2)).trans ((runs_ask hmemory).trans ?_)
  exact (Program.answered_bind hcaught).trans (runs_ask hinsert)

/-- The store answers for the first object of an index. -/
theorem runs_probe {store : Local} {id : Bytes} {oid : Oid} {header : Except Error (Option ObjectHeader)}
    (hindex : Regular s.dir (indexName id) index) (hlength : firstOidBytes hash ≤ index.length)
    (hfirst : firstIndexOid (index.take (firstOidBytes hash)) hash = .ok oid)
    (hheader : c.headers store oid header) :
    Runs hashers hash c (probe store hash id).attempt s (.done (.ok header)) s := by
  have hopen : world hashers hash c (.openFile (indexName id)) s (.ok ()) s := ⟨rfl, fun _ _ _ ↦ rfl⟩
  have hread : world hashers hash c (.readExact (indexName id) (firstOidBytes hash)) s
      (.ok (index.take (firstOidBytes hash))) s := by
    refine ⟨rfl, fun bytes hbytes ↦ ⟨index, hindex, hlength, (Except.ok.inj hbytes).symm⟩, fun _ content h _ ↦ ?_⟩
    rw [ScratchFile.regular.inj (Option.some.inj (hindex.symm.trans h))]
  have hanswer : world hashers hash c (.tryHeader store oid) s header s := ⟨rfl, hheader⟩
  have hoid : Runs hashers hash c (readFirstIndexOid (indexName id) hash) s (.done (.ok oid)) s := by
    rw [readFirstIndexOid]
    refine (runs_mapError hopen).trans ((runs_mapError hread).trans ?_)
    rw [hfirst]
    exact .refl
  have hasked : Runs hashers hash c (ask (.tryHeader store oid)) s (.done (.ofExcept header)) s := by
    cases header <;> exact .single (.call hanswer)
  rw [probe]
  exact Program.answered_attempt ((Program.answered_bind hoid).trans hasked)

/-! ### A pack with one object -/

/-- The pack of the empty blob, without its checksum. -/
def blobPackBody : Bytes := [0x50, 0x41, 0x43, 0x4b, 0x00, 0x00, 0x00, 0x02, 0x00, 0x00, 0x00, 0x01, 0x30,
  0x78, 0x9c, 0x03, 0x00, 0x00, 0x00, 0x00, 0x01]

/-- Its SHA-1. -/
def blobPackSum : Bytes := [0x11, 0x63, 0x06, 0x5f, 0x24, 0x15, 0x7c, 0xc2, 0xf4, 0x57, 0x6f, 0x36, 0x34,
  0x64, 0xa2, 0xe7, 0x00, 0x31, 0xea, 0xbc]

/-- The ID of the empty blob. -/
def sampleBlob : Oid := ⟨.sha1, [0xe6, 0x9d, 0xe2, 0x9b, 0xb2, 0xd1, 0xd6, 0x43, 0x4b, 0x8b, 0x29, 0xae, 0x77,
  0x5a, 0xd8, 0xc2, 0xe4, 0x8c, 0x53, 0x91], rfl⟩

/-- An index of the pack with the offset of its object, without its checksum. -/
def blobIndexBody (offset : Bytes) : Bytes := [0xff, 0x74, 0x4f, 0x63, 0x00, 0x00, 0x00, 0x02] ++
  (List.replicate 230 [0x00, 0x00, 0x00, 0x00]).flatten ++ (List.replicate 26 [0x00, 0x00, 0x00, 0x01]).flatten ++
  sampleBlob.bytes ++ [0x6e, 0x76, 0x00, 0x29] ++ offset ++ blobPackSum

/-- The offset of the object. -/
def blobOffset : Bytes := [0x00, 0x00, 0x00, 0x0c]

/-- An offset behind the end of the pack. -/
def forgedOffset : Bytes := [0x7f, 0xff, 0xff, 0xff]

/-- The SHA-1 of the index. -/
def blobIndexSum : Bytes := [0x83, 0x08, 0x1f, 0x35, 0x65, 0x00, 0x53, 0x6f, 0x3e, 0x74, 0xed, 0x5f, 0x17,
  0xe3, 0x17, 0x63, 0xe8, 0xca, 0xfe, 0xad]

/-- The SHA-1 of the index with the forged offset. -/
def forgedIndexSum : Bytes := [0x13, 0xd5, 0x2f, 0x94, 0xec, 0x6d, 0x12, 0xbd, 0x5b, 0xff, 0x5d, 0x77, 0x83,
  0xc5, 0xba, 0xdb, 0xbf, 0xc9, 0x0a, 0x82]

/-- SHA-1 of the pack and of the two indices. -/
def sampleHashers : Hashers where
  sha1 bytes := if bytes = blobPackBody then some blobPackSum
    else if bytes = blobIndexBody blobOffset then some blobIndexSum
    else if bytes = blobIndexBody forgedOffset then some forgedIndexSum else none
  sha256 _ := []

/-- The pack of the blob. -/
def blobPack : Bytes := blobPackBody ++ blobPackSum

/-- Its index. -/
def blobIndex : Bytes := blobIndexBody blobOffset ++ blobIndexSum

/-- An index with a valid checksum that leads nowhere. -/
def forgedIndex : Bytes := blobIndexBody forgedOffset ++ forgedIndexSum

/-- The descriptor of the pair, with the size that a manifest says. -/
def blobDescriptor (packSize : ℕ) : PackDescriptor :=
  ⟨Bytes.ascii "1163065f24157cc2f4576f363464a2e70031eabc", Bytes.ascii "p", Bytes.ascii "i", packSize, 1100, none⟩

/-- The manifest of the pair. -/
def blobManifest (packSize : ℕ) : PackManifest := ⟨1, Bytes.ascii "1", .sha1, [blobDescriptor packSize], []⟩

/-- A call in which the file system works and the store answers for the blob. -/
def sampleCall (packSize : ℕ) (header : Except Error (Option ObjectHeader)) : Circumstances Unit :=
  ⟨.ok (blobManifest packSize), fun _ ↦ False, fun _ _ answer ↦ answer = header⟩

/-- A destination that holds the pack with an index. -/
def sampleDir (index : Bytes) : Scratch := Function.update (Function.update (fun _ ↦ none)
  (packName (blobDescriptor 0).id) (some (.regular blobPack)))
  (indexName (blobDescriptor 0).id) (some (.regular index))

/-- Options of an instance. -/
def sampleOptions : PackFetchOptions := ⟨8, 1, 4096, none, by decide, by decide, by decide⟩

/-- The statistics of a call that finds the pair. -/
def sampleStats : HydrationStats :=
  { generation := Bytes.ascii "1", bytesVerified := 1141, packsSkipped := 1 }

/-- An instance over the destination, with the pair verified. -/
def sampleVerified (index : Bytes) : Instance Unit :=
  { Instance.new (sampleDir index) [] with
    verified := {(blobDescriptor 0).id}
    passed := [((blobDescriptor 0).id, blobPack, index)] }

/-- Both indexes of the pack pass its verification, and name the blob first. -/
theorem samplePairs_verified : ∀ index ∈ [blobIndex, forgedIndex],
    index.length = 1100 ∧
    verifyPairBytes sampleHashers blobPack index (blobDescriptor 0).id .sha1 = .ok () ∧
    firstIndexOid (index.take (firstOidBytes .sha1)) .sha1 = .ok sampleBlob := by
  decide +kernel

/-- The pack and its index pass every check, and the index names the blob first. -/
theorem blobPair_verified : blobIndex.length = 1100 ∧
    verifyPairBytes sampleHashers blobPack blobIndex (blobDescriptor 0).id .sha1 = .ok () ∧
    firstIndexOid (blobIndex.take (firstOidBytes .sha1)) .sha1 = .ok sampleBlob :=
  samplePairs_verified _ List.mem_cons_self

/-- The sample destination holds the pack with its index. -/
theorem holds_sampleDir (index : Bytes) : Holds (sampleDir index) (blobDescriptor 0).id blobPack index :=
  ⟨(Function.update_of_ne packName_ne_indexName _ _).trans (Function.update_self _ _ _),
    Function.update_self _ _ _⟩

section Sample

variable {c : Circumstances Unit} {index : Bytes}

/-- An index of this length has a first entry. -/
theorem firstOidBytes_le (h : index.length = 1100) : firstOidBytes .sha1 ≤ index.length := by
  rw [h]
  decide

/-- The manifest is read. -/
theorem runs_readManifest_sample (hmanifest : c.manifest = .ok (blobManifest 41)) (s : Instance Unit) :
    Runs sampleHashers .sha1 c (readManifest sampleOptions .sha1) s (.done (.ok (blobManifest 41, 91))) s :=
  runs_readManifest hmanifest (by decide +kernel) (by decide +kernel : _ = Except.ok 1141) (by decide +kernel)
    (by decide) rfl s

/-- The pair on disk is kept. -/
theorem runs_fetchManifest_sample (hlength : index.length = 1100)
    (hverified : verifyPairBytes sampleHashers blobPack index (blobDescriptor 0).id .sha1 = .ok ()) :
    Runs sampleHashers .sha1 c (fetchManifest sampleOptions 1 (blobManifest 41) 91)
      (.new (sampleDir index) []) (.done (.ok sampleStats)) (sampleVerified index) := by
  have hsized : Sized (blobDescriptor 41) blobPack index := ⟨rfl, hlength⟩
  have hplan : Runs sampleHashers .sha1 c
      (planDescriptor (blobDescriptor 41) { generation := Bytes.ascii "1" }) (.new (sampleDir index) [])
      (.done (.ok (⟨blobDescriptor 41, false⟩, sampleStats))) (sampleVerified index) := by
    have hstats : sampleStats =
        { generation := Bytes.ascii "1"
          bytesVerified := saturatingAdd 0 (blobPack.length + index.length)
          packsSkipped := 1 } := by
      have hpack : blobPack.length = 41 := hsized.1
      simp [sampleStats, saturatingAdd, hpack, hlength, u64Max]
    rw [hstats]
    exact runs_planDescriptor_kept (d := blobDescriptor 41) (holds_sampleDir index) hsized hverified
      (Finset.notMem_empty _) _
  have hplans : Runs sampleHashers .sha1 c
      (planHydration [blobDescriptor 41] { generation := Bytes.ascii "1" }) (.new (sampleDir index) [])
      (.done (.ok ([⟨blobDescriptor 41, false⟩], sampleStats))) (sampleVerified index) := by
    rw [planHydration]
    exact Program.answered_bind hplan
  have hbytes : bytesToFetch [⟨blobDescriptor 41, false⟩] = .ok 0 := rfl
  rw [fetchManifest]
  refine (Program.answered_bind hplans).trans ((Program.answered_lift hbytes).trans ?_)
  exact (Program.answered_lift (ensure_eq_ok.mpr (Nat.zero_le _) : _ = Except.ok ())).trans .refl

/-- The call comes to the probes with the pair verified. -/
theorem runs_hydrate_sample (hmanifest : c.manifest = .ok (blobManifest 41)) (hlength : index.length = 1100)
    (hverified : verifyPairBytes sampleHashers blobPack index (blobDescriptor 0).id .sha1 = .ok ()) :
    Runs sampleHashers .sha1 c (hydrate sampleOptions 1 .sha1) (.new (sampleDir index) [])
      (openStore .sha1 (blobManifest 41) sampleStats) (sampleVerified index) := by
  rw [hydrate]
  refine (Program.answered_bind (runs_readManifest_sample hmanifest _)).trans ?_
  exact Program.answered_bind (runs_fetchManifest_sample hlength hverified)

end Sample

/-! ### A call with a pair, and one without -/

/-- A call in which the store finds the blob. -/
def goodCall : Circumstances Unit := sampleCall 41 (.ok (some ⟨.blob, 0⟩))

/-- The pair of the destination is kept and served. -/
theorem calling_goodCall : Calling sampleHashers .sha1 sampleOptions 1 goodCall (.new (sampleDir blobIndex) [])
    (.done (.ok sampleStats)) { sampleVerified blobIndex with store := some (), stats := sampleStats } := by
  have hopen : world sampleHashers .sha1 goodCall .openObjectsDir (sampleVerified blobIndex) (.ok ())
      (sampleVerified blobIndex) := rfl
  have hprobes : Runs sampleHashers .sha1 goodCall
      (probeHydratedPacks () .sha1 (blobManifest 41).packs) (sampleVerified blobIndex) (.done (.ok ()))
      (sampleVerified blobIndex) := by
    have hprobe : Runs sampleHashers .sha1 goodCall (probe () .sha1 (blobDescriptor 41).id).attempt
        (sampleVerified blobIndex) (.done (.ok (.ok (some ⟨.blob, 0⟩)))) (sampleVerified blobIndex) :=
      runs_probe (holds_sampleDir blobIndex).2 (firstOidBytes_le blobPair_verified.1) blobPair_verified.2.2 rfl
    exact (runs_ask world_check).trans (Program.answered_bind hprobe)
  have hpublish : world sampleHashers .sha1 goodCall (.publish ()) (sampleVerified blobIndex) (.ok ())
    { sampleVerified blobIndex with store := some () } := ⟨rfl, rfl⟩
  have hstats : world sampleHashers .sha1 goodCall (.setStats sampleStats)
    { sampleVerified blobIndex with store := some () } (.ok ())
    { sampleVerified blobIndex with store := some (), stats := sampleStats } := ⟨rfl, rfl⟩
  refine (runs_hydrate_sample rfl blobPair_verified.1 blobPair_verified.2.1).trans ?_
  rw [openStore]
  refine (runs_ask hopen).trans ((Program.answered_bind hprobes).trans ?_)
  exact (runs_ask hpublish).trans (runs_ask hstats)

/-- The manifest lists the only pack of the destination. -/
theorem covered_goodCall (reader : PackReader) : Covered reader goodCall (.new (sampleDir blobIndex) []) := by
  intro manifest hmanifest
  cases hmanifest
  refine ⟨fun name pack hreadable ↦ .inr ⟨blobDescriptor 41, List.mem_cons_self, ?_⟩,
    fun dir hdir ↦ nomatch hdir⟩
  obtain ⟨front, rfl, hpack, -⟩ := hreadable
  by_contra hname
  have hnone : sampleDir blobIndex (front ++ Bytes.ascii ".pack") = none := by
    exact (Function.update_of_ne (@pack_ne_idx front _) _ _).trans (Function.update_of_ne hname _ _)
  exact nomatch hnone.symm.trans hpack

/-- A manifest without packs. -/
def emptyManifest : PackManifest := ⟨1, Bytes.ascii "1", .sha1, [], []⟩

/-- A call that is told of no packs. -/
def emptyCall : Circumstances Unit := ⟨.ok emptyManifest, fun _ ↦ False, fun _ _ _ ↦ False⟩

/-- The call returns and serves the store over what the destination holds. -/
theorem calling_emptyCall (hashers : Hashers) (s : Instance Unit) :
    Calling hashers .sha1 sampleOptions 1 emptyCall s (.done (.ok { generation := Bytes.ascii "1" }))
      { s with store := some (), stats := { generation := Bytes.ascii "1" } } := by
  have hread : Runs hashers .sha1 emptyCall (readManifest sampleOptions .sha1) s
      (.done (.ok (emptyManifest, 17))) s :=
    runs_readManifest rfl rfl rfl (by decide) (by decide) rfl s
  have hfetch : Runs hashers .sha1 emptyCall (fetchManifest sampleOptions 1 emptyManifest 17) s
      (.done (.ok { generation := Bytes.ascii "1" })) s :=
    .refl
  have hopen : world hashers .sha1 emptyCall .openObjectsDir s (.ok ()) s := rfl
  have hpublish : world hashers .sha1 emptyCall (.publish ()) s (.ok ()) { s with store := some () } := ⟨rfl, rfl⟩
  have hstats : world hashers .sha1 emptyCall (.setStats { generation := Bytes.ascii "1" })
      { s with store := some () } (.ok ())
      { s with store := some (), stats := { generation := Bytes.ascii "1" } } := ⟨rfl, rfl⟩
  rw [Calling, hydrate]
  refine (Program.answered_bind hread).trans ((Program.answered_bind hfetch).trans ?_)
  rw [openStore]
  exact (runs_ask hopen).trans ((runs_ask hpublish).trans (runs_ask hstats))

/-- What the call leaves of an instance. -/
def emptyServed (s : Instance Unit) : Instance Unit :=
  { s with store := some (), stats := { generation := Bytes.ascii "1" } }

/-- A reader that accepts the valid pairs, under whatever names they stand, and no multi-pack index. -/
def validReader : PackReader where
  withIndex pack index := ∃ id, verifyPairBytes sampleHashers pack index id .sha1 = .ok ()
  withMidx _ _ _ := False

/-- The name of no pack. -/
def zeros : Bytes := List.replicate 40 0x30

/-- A destination with the valid pair under the name of another pack. -/
def renamedDir : Scratch := Function.update (Function.update (fun _ ↦ none)
  (packName zeros) (some (.regular blobPack))) (indexName zeros) (some (.regular blobIndex))

/-- In every state that covered hydrations lead to, also in the middle of a call: the pairs on disk whose IDs
are in `verified_packs` verify; what the call has put under a final name verified; when the call returns, every
pack of its manifest is in `verified_packs` and on disk, verified and of the sizes of its descriptor; and every
pack that the served store can read, whatever its reader accepts, passed the verification in this instance. -/
theorem covered_hydrations_serve_verified {s s' : Instance Local}
    (hbetween : Between hashers hash options pid (Covered reader) s) (hcovered : Covered reader c s)
    (hcalling : Calling hashers hash options pid c s p s') :
    (∀ id ∈ s'.verified, ∀ pack index, Holds s'.dir id pack index →
      verifyPairBytes hashers pack index id hash = .ok ()) ∧
    (∀ name file, ¬ IsTemp name → s'.dir name = some file → s.dir name = some file ∨ ∃ id pack index,
      verifyPairBytes hashers pack index id hash = .ok () ∧
        (name = packName id ∧ file = .regular pack ∨ name = indexName id ∧ file = .regular index)) ∧
    (∀ stats manifest, p = .done (.ok stats) → c.manifest = .ok manifest → ∀ d ∈ manifest.packs,
      d.id ∈ s'.verified ∧ ∃ pack index, Holds s'.dir d.id pack index ∧ Sized d pack index ∧
        verifyPairBytes hashers pack index d.id hash = .ok ()) ∧
    ServesPassed reader s' := by
  obtain ⟨hmeets, hunderway⟩ := underway_of_answered hcalling
  have hstart := trusted_of_between hbetween
  have htrusted := hstart.underway hunderway
  refine ⟨fun id hid pack index ↦ htrusted.verifies hid, fun name file htemp hfile ↦ ?_,
    fun stats manifest hp hmanifest d hd ↦ ?_,
    (servesPassed_of_between hbetween).underway hstart hcovered hunderway⟩
  · rcases content_of_underway hunderway htemp hfile with hfile | ⟨content, rfl, id, pack, index, hmem, hname⟩
    · exact .inl hfile
    · refine .inr ⟨id, pack, index, htrusted.accepted id pack index hmem, ?_⟩
      rcases hname with ⟨rfl, rfl⟩ | ⟨rfl, rfl⟩
      · exact .inl ⟨rfl, rfl⟩
      · exact .inr ⟨rfl, rfl⟩
  · subst hp
    obtain ⟨s₁, hmoves, hsettled, -, store, rfl⟩ := hmeets
    obtain ⟨hverified, pack, index, hholds, hsized⟩ := hsettled d (packs_of_manifest hmanifest ▸ hd)
    exact ⟨hverified, pack, index, hholds, hsized, (hstart.moves hmoves).verifies hverified hholds⟩

/-- The theorem at a destination that holds a good pack: every pack that is served passes. -/
theorem covered_hydrations_serve_verified_sample :
    (∀ id ∈ (sampleVerified blobIndex).verified, ∀ pack index, Holds (sampleDir blobIndex) id pack index →
      verifyPairBytes sampleHashers pack index id .sha1 = .ok ()) ∧
    (∀ name file, ¬ IsTemp name → sampleDir blobIndex name = some file →
      sampleDir blobIndex name = some file ∨ ∃ id pack index,
        verifyPairBytes sampleHashers pack index id .sha1 = .ok () ∧
          (name = packName id ∧ file = .regular pack ∨ name = indexName id ∧ file = .regular index)) ∧
    (∀ stats manifest, (.done (.ok sampleStats) : Hydration Unit HydrationStats) = .done (.ok stats) →
      goodCall.manifest = .ok manifest → ∀ d ∈ manifest.packs, d.id ∈ (sampleVerified blobIndex).verified ∧
        ∃ pack index, Holds (sampleDir blobIndex) d.id pack index ∧ Sized d pack index ∧
          verifyPairBytes sampleHashers pack index d.id .sha1 = .ok ()) ∧
    ServesPassed validReader { sampleVerified blobIndex with store := some (), stats := sampleStats } :=
  covered_hydrations_serve_verified (.new (sampleDir blobIndex) []) (covered_goodCall _) calling_goodCall

/-- A hydration that is told of no packs returns, and the store that it serves reads a valid pack which stood in
the destination under the ID of another one: it does not pass the verification for that ID, and nothing was
verified in this instance. -/
theorem renamed_pack_served :
    Calling sampleHashers .sha1 sampleOptions 1 emptyCall (.new renamedDir [])
      (.done (.ok { generation := Bytes.ascii "1" })) (emptyServed (.new renamedDir [])) ∧
    (emptyServed (.new renamedDir [])).store ≠ none ∧
    Readable validReader renamedDir (packName zeros) blobPack ∧
    verifyPairBytes sampleHashers blobPack blobIndex zeros .sha1 ≠ .ok () ∧
    ¬ PackPassed (emptyServed (.new renamedDir [])) (packName zeros) blobPack := by
  refine ⟨calling_emptyCall _ _, Option.some_ne_none _, ⟨stem zeros, rfl, ?_, .inl ⟨blobIndex, ?_, ?_⟩⟩,
    by decide +kernel, ?_⟩
  · exact (Function.update_of_ne packName_ne_indexName _ _).trans (Function.update_self _ _ _)
  · exact Function.update_self _ _ _
  · exact ⟨(blobDescriptor 0).id, blobPair_verified.2.1⟩
  · rintro ⟨id, index, hmem, -⟩
    cases hmem

end Gitility.PackFetch
