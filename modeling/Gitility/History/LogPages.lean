import Gitility.Base.Pages
import Gitility.History.Log
import Gitility.History.WalkComplete

/-!
# Log pages reconstruct the log

A page call replays the walk of the unpaginated call, so it continues where its cursor says,
and it is marked as truncated exactly when the rest of the walk has a commit within the time
bounds.
-/

namespace Gitility

variable {db : ObjectDb} {snapshot : Snapshot}

/-- The commit a store holds, as `log` and `history` emit it. -/
def ObjectDb.logCommit (db : ObjectDb) (id : Oid) : Option LogCommit :=
  match db.tryFind id with
  | .ok (some (.commit, payload)) => (decodeLogCommit id payload (db.isShallow id)).toOption
  | _ => none

/-- A decoded commit has the ID it was decoded for. -/
theorem id_of_decodeLogCommit {id : Oid} {payload : Bytes} {shallow : Bool} {commit : LogCommit}
    (h : decodeLogCommit id payload shallow = .ok commit) : commit.id = id := by
  simp only [decodeLogCommit, Except.bind_eq_ok, Prod.exists] at h
  obtain ⟨headers, message, -, found, -, treeId, -, author, -, committer, -, h⟩ := h
  cases h
  rfl

/-- A commit of the store is decoded from the payload stored under its ID. -/
theorem ObjectDb.logCommit_eq_some {id : Oid} {commit : LogCommit}
    (h : db.logCommit id = some commit) :
    commit.id = id ∧ ∃ payload, db.tryFind id = .ok (some (.commit, payload)) ∧
      decodeLogCommit id payload (db.isShallow id) = .ok commit := by
  unfold logCommit at h
  split at h
  · next payload hfind =>
    cases hdecode : decodeLogCommit id payload (db.isShallow id) with
    | error e => simp [hdecode, Except.toOption] at h
    | ok commit' =>
      rw [hdecode, Except.toOption, Option.some.injEq] at h
      subst h
      exact ⟨id_of_decodeLogCommit hdecode, payload, hfind, hdecode⟩
  · cases h

private theorem sampleHistory_decodes : ∀ id ∈ sampleCommits, (sampleHistory.logCommit id).isSome := by
  decide +kernel

/-! ### Cursors -/

/-- A cursor for the next page is decoded to the commit it names, and is short enough. -/
theorem decodeResume_encode (expected : Cursor.Expected) {id : Oid}
    (hdigest : expected.snapshotDigest.length = expected.hashKind.digestLen)
    (hkind : id.kind = expected.hashKind) :
    decodeResume (resumeAt expected id).encode expected expected.hashKind = .ok id ∧
      (resumeAt expected id).encode.length ≤ Cursor.maxCursorBytes := by
  have hlen : (resumeAt expected id).encode.length ≤ Cursor.maxCursorBytes := by
    have hid : id.bytes.length ≤ 32 := by
      rw [id.length_bytes]
      cases id.kind <;> decide
    have hexp : expected.snapshotDigest.length ≤ 32 := by
      rw [hdigest]
      cases expected.hashKind <;> decide
    rw [Cursor.length_encode, resumeAt, Cursor.maxCursorBytes, List.length_nil]
    dsimp only
    omega
  have hdecode : Cursor.decode (resumeAt expected id).encode expected =
      .ok (resumeAt expected id) :=
    Cursor.decode_encode_of_le hdigest hlen
  refine ⟨?_, hlen⟩
  rw [decodeResume, hdecode, ← hkind]
  exact congrArg (Except.mapError _) (Oid.new_bytes id)

private theorem closePage_none (expected : Cursor.Expected) (messages : PageMessages)
    (commits : List LogCommit) :
    closePage expected messages ⟨true, commits, none⟩ =
      .ok ⟨commits, none, false, ⟨commits.length, none⟩⟩ := rfl

private theorem closePage_some {expected : Cursor.Expected} (messages : PageMessages)
    {commits : List LogCommit} {last : LogCommit} (stoppedBy : String)
    (hlast : commits.getLast? = some last)
    (hlen : (resumeAt expected last.id).encode.length ≤ Cursor.maxCursorBytes) :
    closePage expected messages ⟨true, commits, some stoppedBy⟩ =
      .ok ⟨commits, some (resumeAt expected last.id).encode, true,
        ⟨commits.length, some stoppedBy⟩⟩ := by
  have hcont : continuation expected messages commits stoppedBy =
      .ok (resumeAt expected last.id).encode := by
    rw [continuation, hlast]
    simp only [ensure, if_pos hlen]
    rfl
  simp only [closePage, Option.mapM_some, hcont]
  rfl

/-- What a loop past its cursor collects: commits up to the limit, and whether there are more. -/
def Collected.upTo (limit : ℕ) (commits : List LogCommit) : Collected :=
  ⟨true, commits.take limit, if limit < commits.length then some "limit" else none⟩

/-- The page of a finished loop delivers the first part of what was left, when a cursor behind
any of these commits stands for those that follow it. -/
theorem closePage_delivers {expected : Cursor.Expected} (messages : PageMessages)
    {Rest : Option Bytes → List LogCommit → Prop} {limit : ℕ} (hlimit : 1 ≤ limit)
    {rest : List LogCommit}
    (hdigest : expected.snapshotDigest.length = expected.hashKind.digestLen)
    (hkind : ∀ commit ∈ rest, commit.id.kind = expected.hashKind)
    (hrest : ∀ front last later, rest = front ++ last :: later → later ≠ [] →
      Rest (some (resumeAt expected last.id).encode) later) :
    ∃ page, closePage expected messages (.upTo limit rest) = .ok page ∧
      page.commits = rest.take limit ∧
      Delivers LogPage.nextCursor LogPage.commits Rest rest page := by
  by_cases hmore : limit < rest.length
  · have hne : rest.take limit ≠ [] := by
      rw [Ne, List.take_eq_nil_iff, not_or]
      exact ⟨Nat.ne_of_gt hlimit, List.ne_nil_of_length_pos (by omega)⟩
    obtain ⟨front, last, hfront⟩ := (List.eq_nil_or_concat' (rest.take limit)).resolve_left hne
    have hsplit : rest = front ++ last :: rest.drop limit := by
      rw [List.append_cons, ← hfront, List.take_append_drop]
    have hlater : rest.drop limit ≠ [] := by
      rw [Ne, List.drop_eq_nil_iff]
      omega
    have hlast : (rest.take limit).getLast? = some last := by
      rw [hfront, List.getLast?_concat]
    have hmem : last ∈ rest := by
      rw [hsplit]
      exact List.mem_append_right _ List.mem_cons_self
    have hlen := (decodeResume_encode expected hdigest (hkind last hmem)).2
    rw [Collected.upTo, if_pos hmore, closePage_some messages "limit" hlast hlen]
    exact ⟨_, rfl, rfl, .more _ (rest.drop limit) rfl (List.take_append_drop _ _).symm hne
      (hrest front last _ hsplit hlater)⟩
  · have hall : rest.take limit = rest := List.take_of_length_le (Nat.le_of_not_lt hmore)
    rw [Collected.upTo, if_neg hmore, hall, closePage_none]
    exact ⟨_, rfl, rfl, .last rfl rfl⟩

namespace Log

/-- The commits of a log that has walked these commits. -/
def emitted (db : ObjectDb) (opts : WalkOptions) (walked : List WalkedCommit) :
    List LogCommit :=
  (walked.filter fun commit ↦ withinTimeBounds commit.time opts).filterMap
    fun commit ↦ db.logCommit commit.id

/-- The store can decode every walked commit within the time bounds. -/
def Decodable (db : ObjectDb) (opts : WalkOptions) (walked : List WalkedCommit) : Prop :=
  ∀ commit ∈ walked, withinTimeBounds commit.time opts → (db.logCommit commit.id).isSome

section Emitted

variable {opts : WalkOptions} {commit : WalkedCommit} {rest : List WalkedCommit}

private theorem Decodable.tail (h : Decodable db opts (commit :: rest)) : Decodable db opts rest :=
  fun c hc ↦ h c (List.mem_cons_of_mem _ hc)

private theorem emitted_skip (h : withinTimeBounds commit.time opts = false) :
    emitted db opts (commit :: rest) = emitted db opts rest := by
  simp [emitted, h]

private theorem emitted_keep (h : withinTimeBounds commit.time opts = true) {decoded : LogCommit}
    (hdecoded : db.logCommit commit.id = some decoded) :
    emitted db opts (commit :: rest) = decoded :: emitted db opts rest := by
  simp [emitted, h, hdecoded]

private theorem emitted_ne_nil (hdecodable : Decodable db opts rest)
    (h : ∃ later ∈ rest, withinTimeBounds later.time opts) : emitted db opts rest ≠ [] := by
  obtain ⟨later, hlater, hwithin⟩ := h
  obtain ⟨decoded, hdecoded⟩ := Option.isSome_iff_exists.mp (hdecodable later hlater hwithin)
  exact List.ne_nil_of_mem (List.mem_filterMap.mpr
    ⟨later, List.mem_filter.mpr ⟨hlater, by simpa using hwithin⟩, hdecoded⟩)

/-- An emitted commit was walked, and what is emitted behind it was walked behind it. -/
theorem exists_walked_of_emitted {front later : List LogCommit} {decoded : LogCommit}
    (h : emitted db opts rest = front ++ decoded :: later) :
    ∃ before last after, rest = before ++ last :: after ∧ last.id = decoded.id ∧
      emitted db opts after = later := by
  induction rest generalizing front with
  | nil => simp [emitted] at h
  | cons commit rest ih =>
    -- A commit that is not emitted is one of those before.
    have hskip (heq : emitted db opts (commit :: rest) = emitted db opts rest) :
        ∃ before last after, commit :: rest = before ++ last :: after ∧
          last.id = decoded.id ∧ emitted db opts after = later := by
      obtain ⟨before, last, after, hrest, hlast⟩ := ih (heq.symm.trans h)
      exact ⟨commit :: before, last, after, by rw [hrest, List.cons_append], hlast⟩
    cases hwithin : withinTimeBounds commit.time opts with
    | false => exact hskip (emitted_skip hwithin)
    | true =>
      cases hcommit : db.logCommit commit.id with
      | none => exact hskip (by simp [emitted, hwithin, hcommit])
      | some first =>
        rw [emitted_keep hwithin hcommit] at h
        cases front with
        | nil =>
          obtain ⟨rfl, rfl⟩ := List.cons.inj h
          exact ⟨[], commit, rest, rfl, (ObjectDb.logCommit_eq_some hcommit).1.symm, rfl⟩
        | cons _ front =>
          obtain ⟨before, last, after, hrest, hlast⟩ := ih (List.cons.inj h).2
          exact ⟨commit :: before, last, after, by rw [hrest, List.cons_append], hlast⟩

end Emitted

variable {opts : LogOptions}

/-! ### The page loop -/

/-- The loop past its cursor. -/
theorem eval_collect {resume : Option Oid} {walk : Walk} {walked : List WalkedCommit}
    (htrace : Walk.Trace db opts.toWalkOptions walk walked)
    (hdecodable : Decodable db opts.toWalkOptions walked) {commits : List LogCommit}
    (hlimit : commits.length ≤ opts.limit) {fuel : ℕ} (hfuel : walked.length < fuel) :
    db.eval (collect db.toStoreInfo opts resume fuel walk true commits) =
      .ok (Collected.upTo opts.limit (commits ++ emitted db opts.toWalkOptions walked)) := by
  induction htrace generalizing commits fuel with
  | done hnext =>
    cases fuel with
    | zero => cases hfuel
    | succ fuel =>
      have hfull : ¬ opts.limit < commits.length := Nat.not_lt.mpr hlimit
      simp only [collect, ObjectDb.eval_bind, ObjectDb.eval_check, Outcome.ok_bind, hnext true,
        ObjectDb.eval_pure, emitted, List.filter_nil, List.filterMap_nil, List.append_nil,
        Collected.upTo, if_neg hfull, List.take_of_length_le hlimit]
  | @step walk walk' commit rest hnext hpending hmatching _ ih =>
    cases fuel with
    | zero => cases hfuel
    | succ fuel =>
      have hfuel' : rest.length < fuel := Nat.lt_of_succ_lt_succ hfuel
      simp only [collect, ObjectDb.eval_bind, ObjectDb.eval_check, Outcome.ok_bind, hnext true,
        Bool.not_true, Bool.false_eq_true, if_false, Bool.not_eq_true']
      cases hwithin : withinTimeBounds commit.time opts.toWalkOptions with
      | false =>
        rw [if_pos rfl, ih hdecodable.tail hlimit hfuel', emitted_skip hwithin]
      | true =>
        rw [if_neg (by decide)]
        obtain ⟨decoded, hdecoded⟩ :=
          Option.isSome_iff_exists.mp (hdecodable commit List.mem_cons_self hwithin)
        rw [emitted_keep hwithin hdecoded]
        by_cases hfull : commits.length = opts.limit
        · rw [if_pos hfull, ObjectDb.eval_pure, Collected.upTo, ← hfull, List.take_left,
            if_pos (by simp)]
        · obtain ⟨-, payload, hfind, hdecode⟩ := ObjectDb.logCommit_eq_some hdecoded
          rw [if_neg hfull, ObjectDb.eval_bind,
            ObjectDb.eval_attempt_of_ok (ObjectDb.eval_readPayload hfind false), Outcome.ok_bind]
          simp only [ObjectDb.eval_bind, ObjectDb.eval_ofExcept, hdecode, Outcome.ofExcept_ok,
            Outcome.ok_bind, hpending]
          rw [List.append_cons commits decoded (emitted db opts.toWalkOptions rest)]
          have hlen : (commits ++ [decoded]).length ≤ opts.limit := by
            rw [List.length_append, List.length_singleton]
            omega
          split
          · next hstop =>
            -- The page is full, and what `has_matching` saw is still to come.
            have hmore := emitted_ne_nil hdecodable.tail (hmatching hstop.2)
            have hpos := List.length_pos_iff.mpr hmore
            have hover : (commits ++ [decoded]).length <
                (commits ++ [decoded] ++ emitted db opts.toWalkOptions rest).length := by
              simp only [List.length_append]
              omega
            rw [ObjectDb.eval_pure, Collected.upTo, ← hstop.1, List.take_left, if_pos hover]
          · exact ih hdecodable.tail hlen hfuel'

/-- The loop before its cursor: it goes on past the commit the cursor names. -/
theorem eval_collect_resume {walk : Walk} {before after : List WalkedCommit}
    {last : WalkedCommit} (htrace : Walk.Trace db opts.toWalkOptions walk (before ++ last :: after))
    (hbefore : last.id ∉ before.map WalkedCommit.id) (fuel : ℕ) :
    ∃ walk', Walk.Trace db opts.toWalkOptions walk' after ∧
      db.eval (collect db.toStoreInfo opts (some last.id) (before.length + 1 + fuel) walk false
        []) =
        db.eval (collect db.toStoreInfo opts (some last.id) fuel walk' true []) := by
  induction before generalizing walk with
  | nil =>
    cases htrace with
    | @step _ walk' _ _ hnext _ _ hrest =>
      refine ⟨walk', hrest, ?_⟩
      rw [List.length_nil, Nat.zero_add, Nat.add_comm]
      simp [collect, hnext false]
  | cons first before ih =>
    rw [List.map_cons, List.mem_cons, not_or] at hbefore
    cases htrace with
    | @step _ walk' _ _ hnext _ _ hrest =>
      obtain ⟨walk'', htrace'', heval⟩ := ih hrest hbefore.2
      refine ⟨walk'', htrace'', ?_⟩
      rw [← heval, List.length_cons, show before.length + 1 + 1 + fuel =
        (before.length + 1 + fuel) + 1 by omega]
      have hne : ¬ first.id = last.id := fun h ↦ hbefore.1 h.symm
      simp [collect, hnext false, hne]

/-! ### Pages -/

/-- What is left to deliver at a cursor: everything at the start, and otherwise what follows the
commit the cursor names, which is something. -/
def Rest (db : ObjectDb) (snapshot : Snapshot) (opts : WalkOptions) (walked : List WalkedCommit) :
    Option Bytes → List LogCommit → Prop
  | none, rest => rest = emitted db opts walked
  | some cursor, rest => ∃ before last after, walked = before ++ last :: after ∧
      cursor = (resumeAt (expected snapshot opts) last.id).encode ∧
      rest = emitted db opts after ∧ rest ≠ []

private theorem Rest.walked {opts : WalkOptions} {walked : List WalkedCommit} {cursor : Option Bytes}
    {rest : List LogCommit} (h : Rest db snapshot opts walked cursor rest) :
    ∃ before after, walked = before ++ after ∧ rest = emitted db opts after := by
  cases cursor with
  | none => exact ⟨[], walked, rfl, h⟩
  | some cursor =>
    obtain ⟨before, last, after, hwalked, -, hrest, -⟩ := h
    exact ⟨before ++ [last], after, by simp [hwalked], hrest⟩

section Pages

variable {walk : Walk} {walked : List WalkedCommit} {fuel : ℕ}

/-- The loop of a call with a cursor collects from what is left at the cursor. -/
theorem eval_collect_rest
    (htrace : Walk.Trace db opts.toWalkOptions walk walked)
    (hcomplete : Walk.Complete db opts.toWalkOptions snapshot.commitOid walked)
    (hdecodable : Decodable db opts.toWalkOptions walked) (hfuel : walked.length < fuel)
    {rest : List LogCommit} (hrest : Rest db snapshot opts.toWalkOptions walked opts.cursor rest) :
    ∃ resume, opts.cursor.mapM (fun bytes ↦ decodeResume bytes
        (expected snapshot opts.toWalkOptions) snapshot.commitOid.kind) = .ok resume ∧
      db.eval (collect db.toStoreInfo opts resume fuel walk resume.isNone []) =
        .ok (Collected.upTo opts.limit rest) := by
  cases hcursor : opts.cursor with
  | none =>
    rw [hcursor] at hrest
    refine ⟨none, rfl, ?_⟩
    rw [hrest]
    exact eval_collect htrace hdecodable (Nat.zero_le _) hfuel
  | some cursor =>
    rw [hcursor] at hrest
    obtain ⟨before, last, after, rfl, rfl, rfl, -⟩ := hrest
    have hnodup := hcomplete.nodup
    rw [List.map_append, List.map_cons] at hnodup
    have hbefore : last.id ∉ before.map WalkedCommit.id := fun hmem ↦
      List.disjoint_of_nodup_append hnodup hmem List.mem_cons_self
    have hkind : last.id.kind = snapshot.commitOid.kind :=
      ObjectDb.kind_of_reach ((hcomplete.mem_iff last.id).mp (by simp))
    have hresume : decodeResume
        (resumeAt (expected snapshot opts.toWalkOptions) last.id).encode
        (expected snapshot opts.toWalkOptions) snapshot.commitOid.kind = .ok last.id :=
      (decodeResume_encode _ snapshot.commitOid.length_bytes hkind).1
    refine ⟨some last.id, by rw [Option.mapM_some, hresume]; rfl, ?_⟩
    rw [List.length_append, List.length_cons] at hfuel
    obtain ⟨left, rfl⟩ := Nat.exists_eq_add_of_le (show before.length + 1 ≤ fuel by omega)
    obtain ⟨walk', htrace', heval⟩ := eval_collect_resume htrace hbefore left
    have hafter : Decodable db opts.toWalkOptions after := fun c hc ↦
      hdecodable c (List.mem_append_right _ (List.mem_cons_of_mem _ hc))
    rw [Option.isNone_some, heval]
    exact eval_collect htrace' hafter (Nat.zero_le _) (by omega)

/-- One page call delivers the first part of what is left at its cursor. -/
theorem log_delivers (opts : LogOptions)
    (hsha1 : ensureSha1 db.toStoreInfo [snapshot.commitOid, snapshot.treeOid] = .ok ())
    (hnew : db.eval (Walk.new fuel db.toStoreInfo snapshot.commitOid opts.toWalkOptions) =
      .ok walk)
    (htrace : Walk.Trace db opts.toWalkOptions walk walked)
    (hcomplete : Walk.Complete db opts.toWalkOptions snapshot.commitOid walked)
    (hdecodable : Decodable db opts.toWalkOptions walked) (hfuel : walked.length < fuel)
    (hlimit : 1 ≤ opts.limit) {rest : List LogCommit}
    (hrest : Rest db snapshot opts.toWalkOptions walked opts.cursor rest) :
    ∃ page, db.eval (log fuel db.toStoreInfo snapshot opts) = .ok page ∧
      page.commits = rest.take opts.limit ∧
      Delivers LogPage.nextCursor LogPage.commits (Rest db snapshot opts.toWalkOptions walked)
        rest page := by
  obtain ⟨resume, hresume, hcollect⟩ :=
    eval_collect_rest htrace hcomplete hdecodable hfuel hrest
  have hlog : db.eval (log fuel db.toStoreInfo snapshot opts) =
      .ofExcept (closePage (expected snapshot opts.toWalkOptions) messages
        (Collected.upTo opts.limit rest)) := by
    have hpos : opts.limit ≠ 0 := Nat.ne_of_gt hlimit
    simp only [log, ObjectDb.eval_bind, ObjectDb.eval_ofExcept, hsha1, ensure, if_pos hpos,
      Outcome.ofExcept_ok, Outcome.ok_bind, ObjectDb.eval_check, hresume, hnew, hcollect]
  have hkind (commit : LogCommit) (hcommit : commit ∈ rest) :
      commit.id.kind = snapshot.commitOid.kind := by
    obtain ⟨before, after, hwalked, rfl⟩ := hrest.walked
    obtain ⟨front, later, hsplit⟩ := List.append_of_mem hcommit
    obtain ⟨between, last, behind, hbetween, hid, -⟩ := exists_walked_of_emitted hsplit
    rw [← hid]
    exact ObjectDb.kind_of_reach ((hcomplete.mem_iff last.id).mp (by simp [hwalked, hbetween]))
  have hbehind (front : List LogCommit) (last : LogCommit) (later : List LogCommit)
      (hsplit : rest = front ++ last :: later) (hlater : later ≠ []) :
      Rest db snapshot opts.toWalkOptions walked
        (some (resumeAt (expected snapshot opts.toWalkOptions) last.id).encode) later := by
    obtain ⟨before, after, hwalked, hafter⟩ := hrest.walked
    obtain ⟨between, commit, behind, hbetween, hid, hbehind⟩ :=
      exists_walked_of_emitted (hafter.symm.trans hsplit)
    exact ⟨before ++ between, commit, behind, by rw [hwalked, hbetween, List.append_assoc],
      by rw [hid], hbehind.symm, hlater⟩
  rw [hlog]
  obtain ⟨page, hpage, hcommits, hdelivers⟩ :=
    closePage_delivers messages hlimit snapshot.commitOid.length_bytes hkind hbehind
  exact ⟨page, by rw [hpage, Outcome.ofExcept_ok], hcommits, hdelivers⟩

end Pages

section Window

variable {opts : WalkOptions} {start : Oid} {walked : List WalkedCommit}

/-- A commit that the pruned graph reaches, within the time bounds. -/
def InWindow (db : ObjectDb) (opts : WalkOptions) (start id : Oid) : Prop :=
  Reach (db.prunedParents opts) start id ∧ withinTimeBounds (db.commitTime id) opts

/-- The emitted commits are walked commits, in the order of the walk. -/
theorem emitted_ids_sublist (db : ObjectDb) (opts : WalkOptions) (walked : List WalkedCommit) :
    ((emitted db opts walked).map LogCommit.id).Sublist (walked.map WalkedCommit.id) := by
  induction walked with
  | nil => exact .slnil
  | cons commit rest ih =>
    cases hwithin : withinTimeBounds commit.time opts with
    | false =>
      rw [emitted_skip hwithin]
      exact ih.cons _
    | true =>
      cases hcommit : db.logCommit commit.id with
      | none =>
        have hskip : emitted db opts (commit :: rest) = emitted db opts rest := by
          simp [emitted, hwithin, hcommit]
        rw [hskip]
        exact ih.cons _
      | some decoded =>
        rw [emitted_keep hwithin hcommit, List.map_cons, List.map_cons,
          (ObjectDb.logCommit_eq_some hcommit).1]
        exact ih.cons_cons _

/-- A complete walk emits the commits of the window. -/
theorem mem_emitted_ids (hcomplete : Walk.Complete db opts start walked)
    (hdecodable : Decodable db opts walked) (id : Oid) :
    id ∈ (emitted db opts walked).map LogCommit.id ↔ InWindow db opts start id := by
  constructor
  · intro hid
    obtain ⟨decoded, hdecoded, rfl⟩ := List.mem_map.mp hid
    obtain ⟨commit, hcommit, hlog⟩ := List.mem_filterMap.mp hdecoded
    obtain ⟨hwalked, hwithin⟩ := List.mem_filter.mp hcommit
    rw [(ObjectDb.logCommit_eq_some hlog).1]
    refine ⟨(hcomplete.mem_iff _).mp (List.mem_map_of_mem hwalked), ?_⟩
    rw [← hcomplete.time commit hwalked]
    exact hwithin
  · rintro ⟨hreach, hwithin⟩
    obtain ⟨commit, hwalked, rfl⟩ := List.mem_map.mp ((hcomplete.mem_iff id).mpr hreach)
    rw [← hcomplete.time commit hwalked] at hwithin
    obtain ⟨decoded, hdecoded⟩ := Option.isSome_iff_exists.mp (hdecodable commit hwalked hwithin)
    refine List.mem_map.mpr ⟨decoded, ?_, (ObjectDb.logCommit_eq_some hdecoded).1⟩
    exact List.mem_filterMap.mpr ⟨commit, List.mem_filter.mpr ⟨hwalked, hwithin⟩, hdecoded⟩

/-- What comes first in a log is not all of it exactly when a commit of the window is not in it. -/
theorem ne_emitted_iff (hcomplete : Walk.Complete db opts start walked)
    (hdecodable : Decodable db opts walked) {front : List LogCommit}
    (hfront : front <+: emitted db opts walked) :
    front ≠ emitted db opts walked ↔
      ∃ id, InWindow db opts start id ∧ id ∉ front.map LogCommit.id := by
  obtain ⟨later, hsplit⟩ := hfront
  constructor
  · intro hne
    obtain ⟨next, later', rfl⟩ := List.exists_cons_of_ne_nil (l := later) (by
      rintro rfl
      exact hne ((List.append_nil front).symm.trans hsplit))
    refine ⟨next.id, (mem_emitted_ids hcomplete hdecodable _).mp ?_, fun hmem ↦ ?_⟩
    · rw [← hsplit]
      exact List.mem_map_of_mem (List.mem_append_right _ List.mem_cons_self)
    · have hnodup := (emitted_ids_sublist db opts walked).nodup hcomplete.nodup
      rw [← hsplit, List.map_append, List.map_cons] at hnodup
      exact List.disjoint_of_nodup_append hnodup hmem List.mem_cons_self
  · rintro ⟨id, hwindow, hmissing⟩ rfl
    exact hmissing ((mem_emitted_ids hcomplete hdecodable id).mpr hwindow)

end Window

/-- Following the log's cursors, on a store that holds the history and can decode the commits within the time
bounds, and with enough fuel. The walk of the call is complete; an unpaginated call returns what it emits; under
any sequence of limits the pages are the chunks of that log and make up all of it; and a page carries a cursor
exactly when a commit of the graph within the time bounds is on none of the pages up to it. -/
theorem follow_log (opts : LogOptions) (snapshot : Snapshot)
    (hsha1 : ensureSha1 db.toStoreInfo [snapshot.commitOid, snapshot.treeOid] = .ok ())
    (hheld : db.HoldsHistory opts.toWalkOptions snapshot.commitOid)
    (hdecodable : ∀ id, InWindow db opts.toWalkOptions snapshot.commitOid id →
      (db.logCommit id).isSome) :
    ∃ bound, ∀ fuel ≥ bound, ∃ walked,
      db.eval (do
        let walk ← Walk.new fuel db.toStoreInfo snapshot.commitOid opts.toWalkOptions
        walk.emitAll db.toStoreInfo opts.toWalkOptions fuel) = .ok walked ∧
      Walk.Complete db opts.toWalkOptions snapshot.commitOid walked ∧
      (∀ limit, 1 ≤ limit → (emitted db opts.toWalkOptions walked).length ≤ limit → ∃ page,
        db.eval (log fuel db.toStoreInfo snapshot { opts with limit, cursor := none }) =
          .ok page ∧ page.commits = emitted db opts.toWalkOptions walked ∧ page.nextCursor = none) ∧
      ∀ limits : ℕ → ℕ, (∀ i, 1 ≤ limits i) → ∃ pages,
        follow (fun cursor limit ↦
            db.eval (log fuel db.toStoreInfo snapshot { opts with limit, cursor }))
          LogPage.nextCursor ((emitted db opts.toWalkOptions walked).length + 1) limits none =
            .ok pages ∧
        pages.flatMap LogPage.commits = emitted db opts.toWalkOptions walked ∧
        pages.map LogPage.commits = chunked ((emitted db opts.toWalkOptions walked).length + 1) limits
          (emitted db opts.toWalkOptions walked) ∧
        ∀ i page, pages[i]? = some page → (page.nextCursor.isSome ↔
          ∃ id, InWindow db opts.toWalkOptions snapshot.commitOid id ∧
            id ∉ ((pages.take (i + 1)).flatMap LogPage.commits).map LogCommit.id) := by
  obtain ⟨bound, hbound⟩ := Walk.eval_new hheld
  refine ⟨max bound ((db.reachable opts.toWalkOptions snapshot.commitOid).card + 1),
    fun fuel hfuel ↦ ?_⟩
  obtain ⟨walk, walked, hnew, htrace, hcomplete⟩ := hbound fuel (le_of_max_le_left hfuel)
  have hlen : walked.length < fuel := by
    rw [hcomplete.length_eq]
    exact le_of_max_le_right hfuel
  have hdecodes : Decodable db opts.toWalkOptions walked := by
    intro commit hcommit hwithin
    rw [hcomplete.time commit hcommit] at hwithin
    exact hdecodable commit.id ⟨(hcomplete.mem_iff _).mp (List.mem_map_of_mem hcommit), hwithin⟩
  have hcall (cursor : Option Bytes) (rest : List LogCommit) (limit : ℕ)
      (hrest : Rest db snapshot opts.toWalkOptions walked cursor rest) (hlimit : 1 ≤ limit) :=
    log_delivers { opts with limit, cursor } hsha1 hnew htrace hcomplete hdecodes hlen
      hlimit hrest
  have hstands (cursor : Bytes) (later : List LogCommit)
      (hrest : Rest db snapshot opts.toWalkOptions walked (some cursor) later) : later ≠ [] := by
    obtain ⟨-, -, -, -, -, -, hlater⟩ := hrest
    exact hlater
  have hstart : Rest db snapshot opts.toWalkOptions walked none
      (emitted db opts.toWalkOptions walked) := rfl
  refine ⟨walked, ?_, hcomplete, fun limit hlimit hall ↦ ?_, fun limits hlimits ↦ ?_⟩
  · rw [ObjectDb.eval_bind, hnew, Outcome.ok_bind, htrace.eval_emitAll hlen]
  · obtain ⟨page, hpage, hcommits, hdelivers⟩ := hcall none _ limit hstart hlimit
    refine ⟨page, hpage, hcommits.trans (List.take_of_length_le hall), ?_⟩
    cases hdelivers with
    | last hnext _ => exact hnext
    | more cursor later _ hsplit _ hrest =>
      rw [hcommits, List.take_of_length_le hall] at hsplit
      exact absurd (List.self_eq_append_right.mp hsplit) (hstands cursor later hrest)
  · have hpage (cursor : Option Bytes) (rest : List LogCommit) (limit : ℕ)
        (hrest : Rest db snapshot opts.toWalkOptions walked cursor rest) (hlimit : 1 ≤ limit) :
        ∃ page, db.eval (log fuel db.toStoreInfo snapshot { opts with limit, cursor }) =
            .ok page ∧ Delivers LogPage.nextCursor LogPage.commits
              (Rest db snapshot opts.toWalkOptions walked) rest page := by
      obtain ⟨page, hpage, -, hdelivers⟩ := hcall cursor rest limit hrest hlimit
      exact ⟨page, hpage, hdelivers⟩
    obtain ⟨pages, hfollow, hall, hmarks⟩ :=
      follow_delivers hpage hstart hlimits (Nat.lt_succ_self _)
    refine ⟨pages, hfollow, hall, follow_chunked hcall hstands hstart hlimits hfollow,
      fun i page hi ↦ (hmarks hstands i page hi).trans (ne_emitted_iff hcomplete hdecodes ?_)⟩
    refine ⟨(pages.drop (i + 1)).flatMap LogPage.commits, ?_⟩
    rw [← List.flatMap_append, List.take_append_drop, hall]

/-- The chronological walk of the sample history. -/
def sampleWalked : List WalkedCommit :=
  [⟨sampleId 1, 10⟩, ⟨sampleId 3, 20⟩, ⟨sampleId 2, 5⟩, ⟨sampleId 4, 5⟩, ⟨sampleId 5, 2⟩]

private theorem eval_emitAll_sample {fuel : ℕ} (hfuel : 6 ≤ fuel) :
    sampleHistory.eval (do
      let walk ← Walk.new fuel sampleHistory.toStoreInfo (sampleId 1) {}
      walk.emitAll sampleHistory.toStoreInfo {} fuel) = .ok sampleWalked := by
  have hsix : sampleHistory.eval (do
      let walk ← Walk.new 6 sampleHistory.toStoreInfo (sampleId 1) {}
      walk.emitAll sampleHistory.toStoreInfo {} 6) = .ok sampleWalked := by
    decide +kernel
  rw [ObjectDb.eval_bind] at hsix ⊢
  obtain ⟨walk, hwalk, hemit⟩ := Outcome.bind_eq_ok.mp hsix
  -- A chronological walk starts without fuel.
  have hnew : sampleHistory.eval (Walk.new fuel sampleHistory.toStoreInfo (sampleId 1) {}) = .ok walk := hwalk
  rw [hnew, Outcome.ok_bind]
  exact Walk.eval_emitAll_mono hemit hfuel

/-- Pages of one and of two commits over the sample history, with the merge, the shallow root and the commits in
a cycle on pages of their own. -/
theorem follow_log_sample : ∃ bound, ∀ fuel ≥ bound, ∃ pages,
    follow (fun cursor limit ↦ sampleHistory.eval (log fuel sampleHistory.toStoreInfo
        ⟨sampleId 1, sampleId 0xaa⟩ { limit, cursor })) LogPage.nextCursor 6 (fun i ↦ i % 2 + 1) none =
      .ok pages ∧
    pages.map (fun page ↦ page.commits.map LogCommit.id) =
      [[sampleId 1], [sampleId 3, sampleId 2], [sampleId 4], [sampleId 5]] := by
  obtain ⟨bound, hbound⟩ := follow_log {} ⟨sampleId 1, sampleId 0xaa⟩ rfl
    (sampleHistory_holds .chronological) fun id hid ↦
      sampleHistory_decodes id (ObjectDb.mem_of_reach (by decide) sampleHistory_closed hid.1)
  refine ⟨max bound 6, fun fuel hfuel ↦ ?_⟩
  obtain ⟨walked, hwalked, -, -, hpages⟩ := hbound fuel (le_of_max_le_left hfuel)
  obtain rfl : walked = sampleWalked :=
    Outcome.ok.inj (hwalked.symm.trans (eval_emitAll_sample (le_of_max_le_right hfuel)))
  obtain ⟨pages, hfollow, -, hchunks, -⟩ := hpages (fun i ↦ i % 2 + 1) fun i ↦ Nat.le_add_left 1 _
  have hlength : (emitted sampleHistory {} sampleWalked).length = 5 := by
    decide +kernel
  rw [hlength] at hfollow hchunks
  have hids := congrArg (List.map (List.map LogCommit.id)) hchunks
  rw [List.map_map] at hids
  refine ⟨pages, hfollow, hids.trans ?_⟩
  decide +kernel

end Log
end Gitility
