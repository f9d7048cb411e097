import Gitility.History.LogPages
import Gitility.History.PathHistory

/-!
# History pages reconstruct the history

The tracked path is a function of the walked commits, so a replay that has walked the same
commits tracks the same path. `emitted` is the history of a walk that tracks a given path from
here on, and `tracked` the path it tracks after some commits.
-/

namespace Gitility.PathHistory

variable {gix : Gix} {diff : Diff} {db : ObjectDb} {opts : HistoryOptions} {snapshot : Snapshot}
  {path trackedPath : Bytes}

@[simp] private theorem eval_replaying {α : Type} (foundResume : Bool) (query : Query α) :
    db.eval (replaying foundResume query) = db.eval query := by
  cases foundResume with
  | true => rfl
  | false => exact ObjectDb.eval_withoutObjectRecharge query

/-- A commit and its comparison, where both can be read. -/
def loaded (gix : Gix) (diff : Diff) (db : ObjectDb) (followRenames : Bool) (trackedPath : Bytes)
    (id : Oid) : Option (LogCommit × PathChange) :=
  match db.eval (loadChange gix diff db.toStoreInfo followRenames trackedPath id) with
  | .ok found => some found
  | _ => none

private theorem loaded_eq_some {followRenames : Bool} {id : Oid} {found : LogCommit × PathChange}
    (h : loaded gix diff db followRenames trackedPath id = some found) :
    db.eval (loadChange gix diff db.toStoreInfo followRenames trackedPath id) = .ok found := by
  unfold loaded at h
  split at h
  · next found' heval =>
    cases h
    exact heval
  · cases h

private theorem id_of_loaded {followRenames : Bool} {id : Oid} {found : LogCommit × PathChange}
    (h : loaded gix diff db followRenames trackedPath id = some found) : found.1.id = id := by
  have heval := loaded_eq_some h
  simp only [loadChange, ObjectDb.eval_bind, ObjectDb.eval_ofExcept, Outcome.bind_eq_ok,
    Outcome.ofExcept_eq_ok] at heval
  obtain ⟨payload, -, commit, hdecode, change, -, hfound⟩ := heval
  cases hfound
  exact id_of_decodeLogCommit hdecode

/-- The tracked path behind a walked commit. -/
def trackedStep (gix : Gix) (diff : Diff) (db : ObjectDb) (followRenames : Bool)
    (trackedPath : Bytes) (commit : WalkedCommit) : Bytes :=
  match loaded gix diff db followRenames trackedPath commit.id with
  | some (_, change) => change.renameSource.getD trackedPath
  | none => trackedPath

/-- The tracked path behind some walked commits. -/
def tracked (gix : Gix) (diff : Diff) (db : ObjectDb) (followRenames : Bool)
    (trackedPath : Bytes) (walked : List WalkedCommit) : Bytes :=
  walked.foldl (trackedStep gix diff db followRenames) trackedPath

private theorem tracked_append {followRenames : Bool} (before after : List WalkedCommit) :
    tracked gix diff db followRenames trackedPath (before ++ after) =
      tracked gix diff db followRenames
        (tracked gix diff db followRenames trackedPath before) after :=
  List.foldl_append

/-- The history of the commits still to be walked. -/
def emitted (gix : Gix) (diff : Diff) (db : ObjectDb) (followRenames : Bool) :
    Bytes → List WalkedCommit → List LogCommit
  | _, [] => []
  | trackedPath, commit :: rest =>
    match loaded gix diff db followRenames trackedPath commit.id with
    | some (decoded, change) =>
      let later := emitted gix diff db followRenames (change.renameSource.getD trackedPath) rest
      if change.changed then decoded :: later else later
    | none => []

/-- Every walked commit can be read and compared, whatever path is tracked. -/
def Comparable (gix : Gix) (diff : Diff) (db : ObjectDb) (followRenames : Bool)
    (walked : List WalkedCommit) : Prop :=
  ∀ commit ∈ walked, ∀ trackedPath,
    (loaded gix diff db followRenames trackedPath commit.id).isSome

private theorem Comparable.tail {followRenames : Bool} {commit : WalkedCommit} {rest : List WalkedCommit}
    (h : Comparable gix diff db followRenames (commit :: rest)) :
    Comparable gix diff db followRenames rest :=
  fun c hc ↦ h c (List.mem_cons_of_mem _ hc)

/-- The comparison of a commit with the path tracked there reports a change. -/
def Changed (gix : Gix) (diff : Diff) (db : ObjectDb) (followRenames : Bool) (trackedPath : Bytes)
    (commit : WalkedCommit) : Prop :=
  ∃ found, loaded gix diff db followRenames trackedPath commit.id = some found ∧ found.2.changed

private theorem trackedStep_of_loaded {followRenames : Bool} {commit : WalkedCommit}
    {found : LogCommit × PathChange}
    (h : loaded gix diff db followRenames trackedPath commit.id = some found) :
    trackedStep gix diff db followRenames trackedPath commit =
      found.2.renameSource.getD trackedPath := by
  rw [trackedStep, h]

/-- An emitted commit was walked and had changed, and what follows it in the history is the
history of what was walked behind it. -/
theorem exists_walked_of_emitted {followRenames : Bool} {walked : List WalkedCommit}
    {front later : List LogCommit} {decoded : LogCommit}
    (h : emitted gix diff db followRenames trackedPath walked = front ++ decoded :: later) :
    ∃ before last after, walked = before ++ last :: after ∧ last.id = decoded.id ∧
      Changed gix diff db followRenames (tracked gix diff db followRenames trackedPath before)
        last ∧
      emitted gix diff db followRenames
        (tracked gix diff db followRenames trackedPath (before ++ [last])) after = later := by
  induction walked generalizing front trackedPath with
  | nil => simp [emitted] at h
  | cons commit rest ih =>
    cases hloaded : loaded gix diff db followRenames trackedPath commit.id with
    | none => simp [emitted, hloaded] at h
    | some found =>
      have hstep := trackedStep_of_loaded hloaded
      simp only [emitted, hloaded] at h
      -- The commit is one of those before, unless it is the emitted one.
      have hskip {front' : List LogCommit} (h' : emitted gix diff db followRenames
          (found.2.renameSource.getD trackedPath) rest = front' ++ decoded :: later) :
          ∃ before last after, commit :: rest = before ++ last :: after ∧
            last.id = decoded.id ∧
            Changed gix diff db followRenames
              (tracked gix diff db followRenames trackedPath before) last ∧
            emitted gix diff db followRenames
              (tracked gix diff db followRenames trackedPath (before ++ [last])) after =
              later := by
        obtain ⟨before, last, after, hrest, hid, hchanged, hafter⟩ := ih h'
        refine ⟨commit :: before, last, after, by rw [hrest, List.cons_append], hid, ?_, ?_⟩
        · rw [tracked, List.foldl_cons, hstep]
          exact hchanged
        · rw [List.cons_append, tracked, List.foldl_cons, hstep]
          exact hafter
      cases hchanged : found.2.changed with
      | false =>
        rw [hchanged, if_neg Bool.false_ne_true] at h
        exact hskip h
      | true =>
        rw [hchanged, if_pos rfl] at h
        cases front with
        | nil =>
          obtain ⟨rfl, rfl⟩ := List.cons.inj h
          refine ⟨[], commit, rest, rfl, (id_of_loaded hloaded).symm, ⟨found, hloaded, hchanged⟩,
            ?_⟩
          rw [List.nil_append, tracked, List.foldl_cons, hstep, List.foldl_nil]
        | cons _ front => exact hskip (List.cons.inj h).2

/-! ### The page loop -/

/-- The loop past its cursor. -/
theorem eval_collect {resume : Option Oid} {walk : Walk} {walked : List WalkedCommit}
    (htrace : Walk.Trace db walkOptions walk walked)
    (hcomparable : Comparable gix diff db opts.followRenames walked)
    {commits : List LogCommit} (hlimit : commits.length ≤ opts.limit) {fuel : ℕ}
    (hfuel : walked.length < fuel) :
    db.eval (collect gix diff db.toStoreInfo opts resume fuel walk trackedPath true commits) =
      .ok (Collected.upTo opts.limit
        (commits ++ emitted gix diff db opts.followRenames trackedPath walked)) := by
  induction htrace generalizing commits fuel trackedPath with
  | done hnext =>
    cases fuel with
    | zero => cases hfuel
    | succ fuel =>
      have hfull : ¬ opts.limit < commits.length := Nat.not_lt.mpr hlimit
      simp only [collect, ObjectDb.eval_bind, ObjectDb.eval_check, Outcome.ok_bind,
        eval_replaying, hnext true, ObjectDb.eval_pure, emitted, List.append_nil, Collected.upTo,
        if_neg hfull, List.take_of_length_le hlimit]
  | @step walk walk' commit rest hnext hpending _ _ ih =>
    cases fuel with
    | zero => cases hfuel
    | succ fuel =>
      have hfuel' : rest.length < fuel := Nat.lt_of_succ_lt_succ hfuel
      obtain ⟨⟨decoded, change⟩, hloaded⟩ :=
        Option.isSome_iff_exists.mp (hcomparable commit List.mem_cons_self trackedPath)
      have hload : db.eval (replaying true (loadChange gix diff db.toStoreInfo opts.followRenames
          trackedPath commit.id)) = .ok (decoded, change) :=
        loaded_eq_some hloaded
      simp only [collect, ObjectDb.eval_bind, ObjectDb.eval_check, Outcome.ok_bind,
        eval_replaying true (Walk.next _ _ _ _), hnext true, ObjectDb.eval_attempt_of_ok hload,
        not_true, and_false, if_false, hpending, emitted, hloaded]
      cases hchanged : change.changed with
      | false =>
        simp only [Bool.false_eq_true, false_and, if_false]
        exact ih hcomparable.tail hlimit hfuel'
      | true =>
        simp only [true_and, if_true]
        by_cases hfull : commits.length = opts.limit
        · rw [if_pos hfull, ObjectDb.eval_pure, Collected.upTo, ← hfull, List.take_left,
            if_pos (by simp)]
        · have hlen : (commits ++ [decoded]).length ≤ opts.limit := by
            rw [List.length_append, List.length_singleton]
            omega
          rw [if_neg hfull, ih hcomparable.tail hlen hfuel', ← List.append_cons]

/-- A commit that the replay of a page passes: the walk and the tracked path move on. -/
theorem eval_collect_skip {walk walk' : Walk} {commit : WalkedCommit} {last : Oid}
    {decoded : LogCommit} {change : PathChange}
    (hnext : ∀ charge, db.eval (walk.next db.toStoreInfo walkOptions charge) =
      .ok (some (.ok commit), walk'))
    (hpending : walk'.pendingError = none)
    (hloaded : loaded gix diff db opts.followRenames trackedPath commit.id =
      some (decoded, change))
    (hne : change.changed → commit.id ≠ last) (fuel : ℕ) :
    db.eval (collect gix diff db.toStoreInfo opts (some last) (fuel + 1) walk trackedPath false
        []) =
      db.eval (collect gix diff db.toStoreInfo opts (some last) fuel walk'
        (change.renameSource.getD trackedPath) false []) := by
  have hload : db.eval (replaying false (loadChange gix diff db.toStoreInfo opts.followRenames
      trackedPath commit.id)) = .ok (decoded, change) := by
    rw [eval_replaying]
    exact loaded_eq_some hloaded
  simp only [collect, ObjectDb.eval_bind, ObjectDb.eval_check, Outcome.ok_bind,
    eval_replaying false (Walk.next _ _ _ _), hnext false, ObjectDb.eval_attempt_of_ok hload,
    hpending]
  cases hchanged : change.changed with
  | false => simp
  | true =>
    have hid := hne hchanged
    simp [hid]

/-- The changed commit that the cursor names. -/
theorem eval_collect_found {walk walk' : Walk} {commit : WalkedCommit}
    {decoded : LogCommit} {change : PathChange}
    (hnext : ∀ charge, db.eval (walk.next db.toStoreInfo walkOptions charge) =
      .ok (some (.ok commit), walk'))
    (hloaded : loaded gix diff db opts.followRenames trackedPath commit.id =
      some (decoded, change))
    (hchanged : change.changed) (fuel : ℕ) :
    db.eval (collect gix diff db.toStoreInfo opts (some commit.id) (fuel + 1) walk trackedPath
        false []) =
      db.eval (collect gix diff db.toStoreInfo opts (some commit.id) fuel walk'
        (change.renameSource.getD trackedPath) true []) := by
  have hload : db.eval (replaying false (loadChange gix diff db.toStoreInfo opts.followRenames
      trackedPath commit.id)) = .ok (decoded, change) := by
    rw [eval_replaying]
    exact loaded_eq_some hloaded
  simp only [collect, ObjectDb.eval_bind, ObjectDb.eval_check, Outcome.ok_bind,
    eval_replaying false (Walk.next _ _ _ _), hnext false, ObjectDb.eval_attempt_of_ok hload]
  simp [hchanged]

/-- The loop before its cursor: it goes on past the commit the cursor names, with the path
tracked there. -/
theorem eval_collect_resume {walk : Walk} {before after : List WalkedCommit} {last : WalkedCommit}
    (htrace : Walk.Trace db walkOptions walk (before ++ last :: after))
    (hcomparable : Comparable gix diff db opts.followRenames (before ++ last :: after))
    (hbefore : last.id ∉ before.map WalkedCommit.id)
    (hchanged : Changed gix diff db opts.followRenames
      (tracked gix diff db opts.followRenames trackedPath before) last) (fuel : ℕ) :
    ∃ walk', Walk.Trace db walkOptions walk' after ∧
      db.eval (collect gix diff db.toStoreInfo opts (some last.id) (before.length + 1 + fuel) walk
          trackedPath false []) =
        db.eval (collect gix diff db.toStoreInfo opts (some last.id) fuel walk'
          (tracked gix diff db opts.followRenames trackedPath (before ++ [last])) true []) := by
  induction before generalizing walk trackedPath with
  | nil =>
    cases htrace with
    | @step _ walk' _ _ hnext _ _ hrest =>
      obtain ⟨⟨decoded, change⟩, hloaded, hchanged⟩ := hchanged
      rw [tracked, List.foldl_nil] at hloaded
      refine ⟨walk', hrest, ?_⟩
      rw [List.length_nil, Nat.zero_add, Nat.add_comm, List.nil_append, tracked, List.foldl_cons,
        List.foldl_nil, trackedStep_of_loaded hloaded]
      exact eval_collect_found hnext hloaded hchanged fuel
  | cons first before ih =>
    rw [List.map_cons, List.mem_cons, not_or] at hbefore
    cases htrace with
    | @step _ walk' _ _ hnext hpending _ hrest =>
      obtain ⟨⟨decoded, change⟩, hloaded⟩ := Option.isSome_iff_exists.mp
        (hcomparable first List.mem_cons_self trackedPath)
      have hstep := trackedStep_of_loaded hloaded
      rw [tracked, List.foldl_cons, hstep] at hchanged
      obtain ⟨walk'', htrace'', heval⟩ := ih hrest hcomparable.tail hbefore.2 hchanged
      refine ⟨walk'', htrace'', ?_⟩
      rw [List.cons_append, tracked, List.foldl_cons, hstep]
      refine Eq.trans ?_ heval
      rw [List.length_cons, show before.length + 1 + 1 + fuel = (before.length + 1 + fuel) + 1 by
        omega]
      exact eval_collect_skip hnext hpending hloaded (fun _ h ↦ hbefore.1 h.symm) _

/-! ### Pages -/

/-- What is left to deliver at a cursor: the whole history at the start, and otherwise the
history behind the changed commit the cursor names, which is something. -/
def Rest (gix : Gix) (diff : Diff) (db : ObjectDb) (snapshot : Snapshot) (path : Bytes)
    (followRenames : Bool) (walked : List WalkedCommit) : Option Bytes → List LogCommit → Prop
  | none, rest => rest = emitted gix diff db followRenames path walked
  | some cursor, rest => ∃ before last after, walked = before ++ last :: after ∧
      cursor = (resumeAt (expected snapshot path followRenames) last.id).encode ∧
      Changed gix diff db followRenames (tracked gix diff db followRenames path before) last ∧
      rest = emitted gix diff db followRenames
        (tracked gix diff db followRenames path (before ++ [last])) after ∧ rest ≠ []

private theorem Rest.walked {followRenames : Bool} {walked : List WalkedCommit} {cursor : Option Bytes}
    {rest : List LogCommit}
    (h : Rest gix diff db snapshot path followRenames walked cursor rest) :
    ∃ before after, walked = before ++ after ∧
      rest = emitted gix diff db followRenames
        (tracked gix diff db followRenames path before) after := by
  cases cursor with
  | none => exact ⟨[], walked, rfl, h⟩
  | some cursor =>
    obtain ⟨before, last, after, hwalked, -, -, hrest, -⟩ := h
    exact ⟨before ++ [last], after, by simp [hwalked], hrest⟩

section Pages

variable {walk : Walk} {walked : List WalkedCommit} {fuel : ℕ}

/-- The loop of a call with a cursor collects from what is left at the cursor. -/
theorem eval_collect_rest (htrace : Walk.Trace db walkOptions walk walked)
    (hcomplete : Walk.Complete db walkOptions snapshot.commitOid walked)
    (hcomparable : Comparable gix diff db opts.followRenames walked)
    (hfuel : walked.length < fuel) {rest : List LogCommit}
    (hrest : Rest gix diff db snapshot path opts.followRenames walked opts.cursor rest) :
    ∃ resume, opts.cursor.mapM (fun bytes ↦ decodeResume bytes
        (expected snapshot path opts.followRenames) snapshot.commitOid.kind) = .ok resume ∧
      db.eval (collect gix diff db.toStoreInfo opts resume fuel walk path resume.isNone []) =
        .ok (.upTo opts.limit rest) := by
  cases hcursor : opts.cursor with
  | none =>
    rw [hcursor] at hrest
    refine ⟨none, rfl, ?_⟩
    rw [hrest]
    exact eval_collect htrace hcomparable (Nat.zero_le _) hfuel
  | some cursor =>
    rw [hcursor] at hrest
    obtain ⟨before, last, after, rfl, rfl, hchanged, rfl, -⟩ := hrest
    have hnodup := hcomplete.nodup
    rw [List.map_append, List.map_cons] at hnodup
    have hbefore : last.id ∉ before.map WalkedCommit.id := fun hmem ↦
      List.disjoint_of_nodup_append hnodup hmem List.mem_cons_self
    have hkind : last.id.kind = snapshot.commitOid.kind :=
      ObjectDb.kind_of_reach ((hcomplete.mem_iff last.id).mp (by simp))
    have hresume : decodeResume
        (resumeAt (expected snapshot path opts.followRenames) last.id).encode
        (expected snapshot path opts.followRenames) snapshot.commitOid.kind = .ok last.id :=
      (decodeResume_encode _ snapshot.commitOid.length_bytes hkind).1
    refine ⟨some last.id, by rw [Option.mapM_some, hresume]; rfl, ?_⟩
    rw [List.length_append, List.length_cons] at hfuel
    obtain ⟨left, rfl⟩ := Nat.exists_eq_add_of_le (show before.length + 1 ≤ fuel by omega)
    obtain ⟨walk', htrace', heval⟩ :=
      eval_collect_resume htrace hcomparable hbefore hchanged left
    have hafter : Comparable gix diff db opts.followRenames after := fun c hc ↦
      hcomparable c (List.mem_append_right _ (List.mem_cons_of_mem _ hc))
    rw [Option.isNone_some, heval]
    exact eval_collect htrace' hafter (Nat.zero_le _) (by omega)

/-- One page call delivers the first part of what is left at its cursor. -/
theorem history_delivers (opts : HistoryOptions)
    (hsha1 : ensureSha1 db.toStoreInfo [snapshot.commitOid, snapshot.treeOid] = .ok ())
    (hliteral : validateLiteralPath path "history" = .ok ()) (hpath : path ≠ [])
    (hnew : db.eval (Walk.new fuel db.toStoreInfo snapshot.commitOid walkOptions) = .ok walk)
    (htrace : Walk.Trace db walkOptions walk walked)
    (hcomplete : Walk.Complete db walkOptions snapshot.commitOid walked)
    (hcomparable : Comparable gix diff db opts.followRenames walked)
    (hfuel : walked.length < fuel) (hlimit : 1 ≤ opts.limit) {rest : List LogCommit}
    (hrest : Rest gix diff db snapshot path opts.followRenames walked opts.cursor rest) :
    ∃ page, db.eval (history gix diff fuel db.toStoreInfo snapshot path opts) = .ok page ∧
      page.commits = rest.take opts.limit ∧
      Delivers LogPage.nextCursor LogPage.commits
        (Rest gix diff db snapshot path opts.followRenames walked) rest page := by
  obtain ⟨resume, hresume, hcollect⟩ :=
    eval_collect_rest htrace hcomplete hcomparable hfuel hrest
  have hhistory : db.eval (history gix diff fuel db.toStoreInfo snapshot path opts) =
      .ofExcept (closePage (expected snapshot path opts.followRenames) messages
        (.upTo opts.limit rest)) := by
    have hpos : opts.limit ≠ 0 := Nat.ne_of_gt hlimit
    simp only [history, ObjectDb.eval_bind, ObjectDb.eval_ofExcept, hsha1, hliteral, ensure,
      if_pos hpath, if_pos hpos, Outcome.ofExcept_ok, Outcome.ok_bind, ObjectDb.eval_check,
      hresume, eval_replaying, hnew, hcollect]
  have hkind (commit : LogCommit) (hcommit : commit ∈ rest) :
      commit.id.kind = snapshot.commitOid.kind := by
    obtain ⟨before, after, hwalked, rfl⟩ := hrest.walked
    obtain ⟨front, later, hsplit⟩ := List.append_of_mem hcommit
    obtain ⟨between, last, behind, hbetween, hid, -⟩ := exists_walked_of_emitted hsplit
    rw [← hid]
    exact ObjectDb.kind_of_reach ((hcomplete.mem_iff last.id).mp (by simp [hwalked, hbetween]))
  have hbehind (front : List LogCommit) (last : LogCommit) (later : List LogCommit)
      (hsplit : rest = front ++ last :: later) (hlater : later ≠ []) :
      Rest gix diff db snapshot path opts.followRenames walked
        (some (resumeAt (expected snapshot path opts.followRenames) last.id).encode) later := by
    obtain ⟨before, after, hwalked, hafter⟩ := hrest.walked
    obtain ⟨between, commit, behind, hbetween, hid, hchanged, hbehind⟩ :=
      exists_walked_of_emitted (hafter.symm.trans hsplit)
    refine ⟨before ++ between, commit, behind, by rw [hwalked, hbetween, List.append_assoc],
      by rw [hid], ?_, ?_, hlater⟩
    · rw [tracked_append]
      exact hchanged
    · rw [← hbehind, List.append_assoc, ← tracked_append]
  rw [hhistory]
  obtain ⟨page, hpage, hcommits, hdelivers⟩ :=
    closePage_delivers messages hlimit snapshot.commitOid.length_bytes hkind hbehind
  exact ⟨page, by rw [hpage, Outcome.ofExcept_ok], hcommits, hdelivers⟩

end Pages

/-- Following the cursors of a path history, on a store that holds the history, where every commit can be read and
compared, and with enough fuel. The walk of the call is complete; an unpaginated call returns the history of the
walked commits, which compares each of them with the path tracked there; and under any sequence of limits the
pages are the chunks of that history and make up all of it, and carry a cursor as long as they leave something out. -/
theorem follow_history (gix : Gix) (diff : Diff) (snapshot : Snapshot) (path : Bytes)
    (followRenames : Bool)
    (hsha1 : ensureSha1 db.toStoreInfo [snapshot.commitOid, snapshot.treeOid] = .ok ())
    (hliteral : validateLiteralPath path "history" = .ok ()) (hpath : path ≠ [])
    (hheld : db.HoldsHistory walkOptions snapshot.commitOid)
    (hcomparable : ∀ id, Reach (db.prunedParents walkOptions) snapshot.commitOid id →
      ∃ commit, db.logCommit id = some commit ∧ ∀ trackedPath, ∃ change,
        db.eval (pathChange gix diff db.toStoreInfo followRenames commit trackedPath) =
          .ok change) :
    ∃ bound, ∀ fuel ≥ bound, ∃ walked,
      db.eval (do
        let walk ← Walk.new fuel db.toStoreInfo snapshot.commitOid walkOptions
        walk.emitAll db.toStoreInfo walkOptions fuel) = .ok walked ∧
      Walk.Complete db walkOptions snapshot.commitOid walked ∧
      (∀ limit, 1 ≤ limit → (emitted gix diff db followRenames path walked).length ≤ limit → ∃ page,
        db.eval (history gix diff fuel db.toStoreInfo snapshot path
          { followRenames, limit, cursor := none }) = .ok page ∧
        page.commits = emitted gix diff db followRenames path walked ∧ page.nextCursor = none) ∧
      ∀ limits : ℕ → ℕ, (∀ i, 1 ≤ limits i) → ∃ pages,
        follow (fun cursor limit ↦ db.eval (history gix diff fuel db.toStoreInfo snapshot path
            { followRenames, limit, cursor }))
          LogPage.nextCursor ((emitted gix diff db followRenames path walked).length + 1) limits none =
            .ok pages ∧
        pages.flatMap LogPage.commits = emitted gix diff db followRenames path walked ∧
        pages.map LogPage.commits =
          chunked ((emitted gix diff db followRenames path walked).length + 1) limits
            (emitted gix diff db followRenames path walked) ∧
        ∀ i page, pages[i]? = some page → (page.nextCursor.isSome ↔
          (pages.take (i + 1)).flatMap LogPage.commits ≠
            emitted gix diff db followRenames path walked) := by
  obtain ⟨bound, hbound⟩ := Walk.eval_new hheld
  refine ⟨max bound ((db.reachable walkOptions snapshot.commitOid).card + 1),
    fun fuel hfuel ↦ ?_⟩
  obtain ⟨walk, walked, hnew, htrace, hcomplete⟩ := hbound fuel (le_of_max_le_left hfuel)
  have hlen : walked.length < fuel := by
    rw [hcomplete.length_eq]
    exact le_of_max_le_right hfuel
  have hcompare : Comparable gix diff db followRenames walked := by
    intro commit hcommit trackedPath
    obtain ⟨decoded, hdecoded, hchange⟩ :=
      hcomparable commit.id ((hcomplete.mem_iff _).mp (List.mem_map_of_mem hcommit))
    obtain ⟨-, payload, hfind, hdecode⟩ := ObjectDb.logCommit_eq_some hdecoded
    obtain ⟨change, hchange⟩ := hchange trackedPath
    simp [loaded, loadChange, ObjectDb.eval_readPayload hfind, hdecode, hchange]
  have hcall (cursor : Option Bytes) (rest : List LogCommit) (limit : ℕ)
      (hrest : Rest gix diff db snapshot path followRenames walked cursor rest)
      (hlimit : 1 ≤ limit) :=
    history_delivers { followRenames, limit, cursor } hsha1 hliteral hpath hnew htrace hcomplete
      hcompare hlen hlimit hrest
  have hstands (cursor : Bytes) (later : List LogCommit)
      (hrest : Rest gix diff db snapshot path followRenames walked (some cursor) later) : later ≠ [] := by
    obtain ⟨-, -, -, -, -, -, -, hlater⟩ := hrest
    exact hlater
  have hstart : Rest gix diff db snapshot path followRenames walked none
      (emitted gix diff db followRenames path walked) := rfl
  refine ⟨walked, ?_, hcomplete, fun limit hlimit hall ↦ ?_, fun limits hlimits ↦ ?_⟩
  · rw [ObjectDb.eval_bind, hnew, Outcome.ok_bind, htrace.eval_emitAll hlen]
  · obtain ⟨page, hpage, hcommits, hdelivers⟩ := hcall none _ limit hstart hlimit
    refine ⟨page, hpage, hcommits.trans (List.take_of_length_le hall), ?_⟩
    cases hdelivers with
    | last hnext _ => exact hnext
    | more cursor later _ hsplit _ hrest =>
      rw [hcommits, List.take_of_length_le hall] at hsplit
      exact absurd (List.self_eq_append_right.mp hsplit) (hstands cursor later hrest)
  · have hpage (cursor : Option Bytes) (rest : List LogCommit) (limit : ℕ)
        (hrest : Rest gix diff db snapshot path followRenames walked cursor rest)
        (hlimit : 1 ≤ limit) :
        ∃ page, db.eval (history gix diff fuel db.toStoreInfo snapshot path
            { followRenames, limit, cursor }) = .ok page ∧
          Delivers LogPage.nextCursor LogPage.commits
            (Rest gix diff db snapshot path followRenames walked) rest page := by
      obtain ⟨page, hpage, -, hdelivers⟩ := hcall cursor rest limit hrest hlimit
      exact ⟨page, hpage, hdelivers⟩
    obtain ⟨pages, hfollow, hall, hmarks⟩ :=
      follow_delivers hpage hstart hlimits (Nat.lt_succ_self _)
    exact ⟨pages, hfollow, hall, follow_chunked hcall hstands hstart hlimits hfollow, hmarks hstands⟩

/-! ### A renamed file -/

/-- A root with the file `g`, a commit that renames it to `f`, and a commit that changes `f`. -/
def sampleStore : ObjectDb := .ofFind .sha1 none fun oid ↦ .ok <|
  if oid = sampleId 1 then some (.commit, samplePayload (sampleId 0xcc) [sampleId 2] "10")
  else if oid = sampleId 2 then some (.commit, samplePayload (sampleId 0xbb) [sampleId 3] "5")
  else if oid = sampleId 3 then some (.commit, samplePayload (sampleId 0xaa) [] "2")
  else if oid = sampleId 0xaa then some (.tree, sampleTree [("100644", "g", 7)])
  else if oid = sampleId 0xbb then some (.tree, sampleTree [("100644", "f", 7)])
  else if oid = sampleId 0xcc then some (.tree, sampleTree [("100644", "f", 8)])
  else none

/-- The files that differ between the sample's trees. -/
def sampleFiles (base head : Oid) : Comparison → List DiffFile
  | .focused path =>
    if base = sampleId 0xaa ∧ head = sampleId 0xbb then
      if path = [0x66] then [⟨.added, none, some [0x66]⟩]
      else if path = [0x67] then [⟨.deleted, some [0x67], none⟩]
      else []
    else if base = sampleId 0xbb ∧ head = sampleId 0xcc ∧ path = [0x66] then
      [⟨.modified, some [0x66], some [0x66]⟩]
    else []
  | .renames =>
    if base = sampleId 0xaa ∧ head = sampleId 0xbb then [⟨.renamed, some [0x67], some [0x66]⟩]
    else if base = sampleId 0xbb ∧ head = sampleId 0xcc then [⟨.modified, some [0x66], some [0x66]⟩]
    else []

/-- The comparison of the sample's trees. -/
def sampleDiff : Diff := fun _ _ base head comparison ↦
  pure ⟨sampleFiles base.treeOid head.treeOid comparison, 0⟩

/-- The commits of the sample. -/
def sampleRenamed : List Oid := [sampleId 1, sampleId 2, sampleId 3]

/-- The commits of the sample are recorded, and have no other parents. -/
theorem sampleStore_commits : ∀ a ∈ sampleRenamed, (sampleStore.recorded a).isSome ∧
    ∀ b ∈ sampleStore.prunedParents walkOptions a, b ∈ sampleRenamed := by
  decide +kernel

/-- A path of the sample's root names the file `g`, or nothing. -/
theorem sampleStore_resolve (id : Oid) (path : Bytes) :
    (∃ resolved, sampleStore.eval (resolvePath sampleGix sampleStore.toStoreInfo
      ⟨id, sampleId 0xaa⟩ path) = .ok resolved) ∨
    ∃ e, sampleStore.eval (resolvePath sampleGix sampleStore.toStoreInfo
      ⟨id, sampleId 0xaa⟩ path) = .error e ∧ e.code = .invalidPath := by
  have hread : sampleStore.eval (readTreeEntries sampleGix sampleStore.toStoreInfo (sampleId 0xaa)) =
      .ok [⟨⟨0o100644, [0x67], sampleId 7⟩, .blob⟩] := by
    decide +kernel
  cases hvalid : validatePath path with
  | error e =>
    refine .inr ⟨e, ?_, code_validatePath hvalid⟩
    simp [resolvePath, resolvePathWith, hvalid]
  | ok _ =>
    by_cases hpath : path = []
    · subst hpath
      refine .inl ⟨.rootTree (sampleId 0xaa), ?_⟩
      simp [resolvePath, resolvePathWith, hvalid]
    · cases hsegments : path.splitOn 0x2f with
      | nil =>
        refine .inr ⟨pathNotFound, ?_, rfl⟩
        simp [resolvePath, resolvePathWith, hvalid, hpath, hsegments, resolveSegments]
      | cons segment segments =>
        by_cases hname : segment = [0x67]
        · -- The file itself, or a path below it.
          subst hname
          by_cases hlast : segments = []
          · refine .inl ⟨.entry 0o100644 (sampleId 7) .blob, ?_⟩
            simp [resolvePath, resolvePathWith, hvalid, hpath, hsegments, resolveSegments, hread, hlast]
          · refine .inr ⟨pathNotFound, ?_, rfl⟩
            simp [resolvePath, resolvePathWith, hvalid, hpath, hsegments, resolveSegments, hread, hlast]
        · refine .inr ⟨pathNotFound, ?_, rfl⟩
          simp [resolvePath, resolvePathWith, hvalid, hpath, hsegments, resolveSegments, hread, Ne.symm hname]

/-- A commit of the sample that has a parent is compared with it. -/
theorem sampleStore_pathChange {parentId : Oid} {commit parent : LogCommit}
    (hparents : commit.parents = [parentId]) (hparent : sampleStore.logCommit parentId = some parent)
    (trackedPath : Bytes) : ∃ change, sampleStore.eval (pathChange sampleGix sampleDiff
      sampleStore.toStoreInfo true commit trackedPath) = .ok change := by
  obtain ⟨-, payload, hfind, hdecode⟩ := ObjectDb.logCommit_eq_some hparent
  simp only [pathChange, hparents, List.head?_cons, ObjectDb.eval_bind,
    ObjectDb.eval_readPayload hfind, Outcome.ok_bind, ObjectDb.eval_ofExcept, hdecode,
    Outcome.ofExcept_ok, sampleDiff, ObjectDb.eval_pure]
  split
  · exact ⟨_, rfl⟩
  · split
    · exact ⟨_, rfl⟩
    · exact ⟨_, rfl⟩

private theorem sampleStore_comparable : ∀ id ∈ sampleRenamed, ∃ commit,
    sampleStore.logCommit id = some commit ∧ ∀ trackedPath, ∃ change,
      sampleStore.eval (pathChange sampleGix sampleDiff sampleStore.toStoreInfo true commit
        trackedPath) = .ok change := by
  have hfirst : (sampleStore.logCommit (sampleId 1)).map LogCommit.parents =
      some [sampleId 2] := by decide +kernel
  have hsecond : (sampleStore.logCommit (sampleId 2)).map LogCommit.parents =
      some [sampleId 3] := by decide +kernel
  have hthird : (sampleStore.logCommit (sampleId 3)).map
      (fun commit ↦ (commit.parents, commit.treeId)) = some ([], sampleId 0xaa) := by
    decide +kernel
  obtain ⟨first, hfirst, hparent⟩ := Option.map_eq_some_iff.mp hfirst
  obtain ⟨second, hsecond, hgrandparent⟩ := Option.map_eq_some_iff.mp hsecond
  obtain ⟨third, hthird, hroot⟩ := Option.map_eq_some_iff.mp hthird
  obtain ⟨hnone, htree⟩ := Prod.mk.inj hroot
  intro id hid
  simp only [sampleRenamed, List.mem_cons, List.not_mem_nil, or_false] at hid
  rcases hid with rfl | rfl | rfl
  · exact ⟨first, hfirst, sampleStore_pathChange hparent hsecond⟩
  · exact ⟨second, hsecond, sampleStore_pathChange hgrandparent hthird⟩
  · refine ⟨third, hthird, fun trackedPath ↦ ?_⟩
    simp only [pathChange, hnone, List.head?_nil, ObjectDb.eval_bind, ObjectDb.eval_attempt,
      htree]
    rcases sampleStore_resolve third.id trackedPath with ⟨resolved, hr⟩ | ⟨e, hr, he⟩
    · rw [hr]
      cases resolved <;> exact ⟨_, rfl⟩
    · rw [hr]
      refine ⟨⟨false, none⟩, ?_⟩
      simp [rootChange, he]

/-- The walk of the sample. -/
def sampleRenamedWalk : List WalkedCommit := [⟨sampleId 1, 10⟩, ⟨sampleId 2, 5⟩, ⟨sampleId 3, 2⟩]

private theorem eval_emitAll_sample {fuel : ℕ} (hfuel : 4 ≤ fuel) :
    sampleStore.eval (do
      let walk ← Walk.new fuel sampleStore.toStoreInfo (sampleId 1) walkOptions
      walk.emitAll sampleStore.toStoreInfo walkOptions fuel) = .ok sampleRenamedWalk := by
  have hfour : sampleStore.eval (do
      let walk ← Walk.new 4 sampleStore.toStoreInfo (sampleId 1) walkOptions
      walk.emitAll sampleStore.toStoreInfo walkOptions 4) = .ok sampleRenamedWalk := by
    decide +kernel
  rw [ObjectDb.eval_bind] at hfour ⊢
  obtain ⟨walk, hwalk, hemit⟩ := Outcome.bind_eq_ok.mp hfour
  have hnew : sampleStore.eval (Walk.new fuel sampleStore.toStoreInfo (sampleId 1) walkOptions) = .ok walk :=
    hwalk
  rw [hnew, Outcome.ok_bind]
  exact Walk.eval_emitAll_mono hemit hfuel

/-- The history of `f` on pages of one commit: the change of `f`, the rename, and behind it, where the walk is
replayed past the rename, the root that has only `g`. -/
theorem follow_history_sample : ∃ bound, ∀ fuel ≥ bound, ∃ pages,
    follow (fun cursor limit ↦ sampleStore.eval (history sampleGix sampleDiff fuel
        sampleStore.toStoreInfo ⟨sampleId 1, sampleId 0xcc⟩ [0x66]
        { followRenames := true, limit, cursor })) LogPage.nextCursor 4 (fun _ ↦ 1) none = .ok pages ∧
    pages.map (fun page ↦ page.commits.map LogCommit.id) = [[sampleId 1], [sampleId 2], [sampleId 3]] ∧
    tracked sampleGix sampleDiff sampleStore true [0x66] (sampleRenamedWalk.take 2) = [0x67] := by
  have hmem (id : Oid) (hid : Reach (sampleStore.prunedParents walkOptions) (sampleId 1) id) :
      id ∈ sampleRenamed :=
    ObjectDb.mem_of_reach List.mem_cons_self (fun a ha ↦ (sampleStore_commits a ha).2) hid
  obtain ⟨bound, hbound⟩ := follow_history sampleGix sampleDiff ⟨sampleId 1, sampleId 0xcc⟩ [0x66]
    true rfl (by decide +kernel) (by decide) (fun id hid ↦ (sampleStore_commits id (hmem id hid)).1)
    (fun id hid ↦ sampleStore_comparable id (hmem id hid))
  refine ⟨max bound 4, fun fuel hfuel ↦ ?_⟩
  obtain ⟨walked, hwalked, -, -, hpages⟩ := hbound fuel (le_of_max_le_left hfuel)
  obtain rfl : walked = sampleRenamedWalk :=
    Outcome.ok.inj (hwalked.symm.trans (eval_emitAll_sample (le_of_max_le_right hfuel)))
  obtain ⟨pages, hfollow, -, hchunks, -⟩ := hpages (fun _ ↦ 1) fun _ ↦ Nat.le_refl 1
  have hlength : (emitted sampleGix sampleDiff sampleStore true [0x66] sampleRenamedWalk).length = 3 := by
    decide +kernel
  rw [hlength] at hfollow hchunks
  have hids := congrArg (List.map (List.map LogCommit.id)) hchunks
  rw [List.map_map] at hids
  refine ⟨pages, hfollow, hids.trans ?_, ?_⟩
  · decide +kernel
  · decide +kernel

end Gitility.PathHistory
