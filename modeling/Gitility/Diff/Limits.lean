import Gitility.Diff.ExactHunks
import Gitility.Diff.StructuredDiff

/-!
# Limits cut a suffix

The two limits of a diff on hunks and lines leave a first part of its hunks: all files but the last are whole, and
the last one has the first of its hunks. A hunk counts with its lines; in a type change it counts with at most
`u32::MAX`.
-/

namespace Gitility.Diff

/-! ### What counts -/

/-- The number of lines a hunk of the file counts with. -/
def DiffFile.charge (file : DiffFile) (hunk : DiffHunk) : ℕ :=
  if file.status = .typeChanged then min hunk.lines.length u32Max else hunk.lines.length

/-- The hunks of all files. -/
def totalHunks (files : List DiffFile) : ℕ := (files.map (·.hunks.length)).sum

/-- The lines that the hunks of all files count with. -/
def totalCharge (files : List DiffFile) : ℕ := (files.map fun file ↦ (file.hunks.map file.charge).sum).sum

/-- The lines of the hunks of all files. -/
def totalLines (files : List DiffFile) : ℕ := (files.map fun file ↦ (file.hunks.map (·.lines.length)).sum).sum

/-- A limit that one more hunk of so many lines exceeds. -/
def Exceeded (opts : DiffOptions) (files : List DiffFile) (lines : ℕ) (limit : String) : Prop :=
  limit = "max_diff_hunks" ∧ opts.maxDiffHunks < totalHunks files + 1 ∨
    limit = "max_diff_lines" ∧ opts.maxDiffLines < totalCharge files + lines

/-- Files that the limits leave of others: all of them, or some whole files and a first part of the hunks of the
next, whose first omitted hunk exceeds the limit. -/
inductive CutOf (opts : DiffOptions) : List DiffFile → List DiffFile → Option String → Prop
  | whole (files : List DiffFile) : CutOf opts files files none
  | part (before later : List DiffFile) (last : DiffFile) {kept omitted : List DiffHunk} {next : DiffHunk}
    {limit : String} (hhunks : last.hunks = kept ++ next :: omitted)
    (h : Exceeded opts (before ++ [{ last with hunks := kept }]) (last.charge next) limit) :
    CutOf opts (before ++ [{ last with hunks := kept }]) (before ++ last :: later) (some limit)

variable {opts : DiffOptions} {used : Used}

@[simp] private theorem totalHunks_append (files files' : List DiffFile) :
    totalHunks (files ++ files') = totalHunks files + totalHunks files' := by
  simp [totalHunks]

@[simp] private theorem totalCharge_append (files files' : List DiffFile) :
    totalCharge (files ++ files') = totalCharge files + totalCharge files' := by
  simp [totalCharge]

@[simp] private theorem totalHunks_singleton (file : DiffFile) : totalHunks [file] = file.hunks.length := by
  simp [totalHunks]

@[simp] private theorem totalCharge_singleton (file : DiffFile) :
    totalCharge [file] = (file.hunks.map file.charge).sum := by
  simp [totalCharge]

/-- Without a hunk of more than `u32::MAX` lines in a type change, the lines are what counts. -/
theorem totalCharge_eq {files : List DiffFile}
    (h : ∀ file ∈ files, file.status = .typeChanged → ∀ hunk ∈ file.hunks, hunk.lines.length ≤ u32Max) :
    totalCharge files = totalLines files := by
  have hfile : ∀ file ∈ files, (file.hunks.map file.charge).sum = (file.hunks.map (·.lines.length)).sum := by
    intro file hfile
    refine congrArg List.sum (List.map_congr_left fun hunk hhunk ↦ ?_)
    rw [DiffFile.charge]
    split
    · next hstatus => exact Nat.min_eq_left (h file hfile hstatus hunk hhunk)
    · rfl
  rw [totalCharge, totalLines, List.map_congr_left hfile]

/-- Files that are cut differ from the others. -/
theorem CutOf.eq_iff {files full : List DiffFile} {stoppedBy : Option String}
    (h : CutOf opts files full stoppedBy) : files = full ↔ stoppedBy = none := by
  cases h with
  | whole => exact iff_of_true rfl rfl
  | part before later last hhunks hexceeded =>
    refine iff_of_false (fun heq ↦ ?_) (Option.some_ne_none _)
    have hlast := congrArg DiffFile.hunks (List.cons.inj (List.append_cancel_left heq)).1
    rw [hhunks] at hlast
    exact List.cons_ne_nil _ _ (List.self_eq_append_right.mp hlast)

/-! ### The hunks of a file -/

/-- The limits keep the first hunks, up to one that exceeds them. -/
theorem cut_spec (h : used.Within opts) (hunks : List Counted) : ∃ kept rest, hunks = kept ++ rest ∧
    (used.addAll kept).Within opts ∧ (cut opts hunks used).1 = kept.map Prod.fst ∧
    (cut opts hunks used).2.1 = used.addAll kept ∧
    (rest = [] ∧ (cut opts hunks used).2.2 = .complete ∨
      ∃ next omitted limit, rest = next :: omitted ∧ (cut opts hunks used).2.2 = .stopped limit ∧
        (used.addAll kept).exceeds opts next.2 = some limit) := by
  induction hunks generalizing used with
  | nil => exact ⟨[], [], rfl, h, rfl, rfl, .inl ⟨rfl, rfl⟩⟩
  | cons hunk hunks ih =>
    obtain ⟨hunk, lines⟩ := hunk
    rw [cut]
    cases hexceeds : used.exceeds opts lines with
    | some limit =>
      exact ⟨[], (hunk, lines) :: hunks, rfl, h, rfl, rfl, .inr ⟨(hunk, lines), hunks, limit, rfl, rfl, hexceeds⟩⟩
    | none =>
      obtain ⟨kept, rest, hsplit, hwithin, hkept, hused, hend⟩ := ih (Used.within_add h hexceeds)
      refine ⟨(hunk, lines) :: kept, rest, congrArg _ hsplit, ?_, congrArg _ hkept, ?_, ?_⟩
      · rw [Used.addAll_cons]
        exact hwithin
      · rw [Used.addAll_cons]
        exact hused
      · rw [Used.addAll_cons]
        exact hend

/-! ### The contents of a change -/

/-- What is found out about a change in the patch format, whatever the limits are. -/
def changeContents (gix : GixBlobDiff) (contextLines maxObjectBytes : ℕ) (change : RawChange) : Query Contents :=
  if needsContent change.intoFile then fileContents gix .patch contextLines maxObjectBytes change.intoFile
  else return ⟨populateGitlinkStats change.intoFile, [], false⟩

/-- Each hunk counts with its charge, and the file has none before. -/
structure Contents.Sound (contents : Contents) : Prop where
  charges : ∀ hunk ∈ contents.hunks, hunk.2 = contents.file.charge hunk.1
  fresh : contents.file.hunks = []

private theorem length_numbered (collector : HunkCollector) (oldLine newLine : ℕ) (lines : List (DiffLineKind × Bytes)) :
    (collector.numbered oldLine newLine lines).length = lines.length := by
  induction lines generalizing oldLine newLine with
  | nil => rfl
  | cons line lines ih => rw [HunkCollector.numbered_cons, List.length_cons, List.length_cons, ih]

private theorem length_sideLines (origin : DiffLineOrigin) (lacksNewline : Bool) (count index : ℕ) (lines : List Bytes) :
    (sideLines origin lacksNewline count index lines).length = lines.length := by
  induction lines generalizing index with
  | nil => rfl
  | cons line lines ih => rw [sideLines, List.length_cons, List.length_cons, ih]

private theorem lines_sideHunk (side : DiffLineOrigin × Bytes) : (sideHunk side).1.lines =
    sideLines side.1 (lacksTrailingNewline side.2) (lineCount side.2) 0 (linesWithLf side.2) := by
  rw [sideHunk, pureSideHunk]
  split <;> rfl

section Contents

variable {db : ObjectDb} {gix : GixBlobDiff} {file : DiffFile} {contents : Contents}

private theorem sound_of_nil (hfresh : file.hunks = []) (oversize : Bool) : (⟨file, [], oversize⟩ : Contents).Sound :=
  ⟨fun _ hhunk ↦ absurd hhunk List.not_mem_nil, hfresh⟩

private theorem sound_dataContents (hfresh : file.hunks = []) (format : DiffFormat) (contextLines : ℕ) (old new : Bytes)
    (hformat : format = .patch) : (dataContents gix format contextLines file old new).Sound := by
  rw [dataContents]
  split
  · refine sound_of_nil ?_ false
    exact hfresh
  split
  · next hstatus =>
    refine ⟨fun hunk hhunk ↦ ?_, hfresh⟩
    obtain ⟨side, -, rfl⟩ := List.mem_map.mp hhunk
    rw [DiffFile.charge, if_pos hstatus.1, lines_sideHunk, length_sideLines]
    rfl
  · next hstatus =>
    refine ⟨fun hunk hhunk ↦ ?_, hfresh⟩
    dsimp only at hhunk
    split at hhunk
    · exact absurd hhunk List.not_mem_nil
    obtain ⟨window, -, rfl⟩ := List.mem_map.mp hhunk
    have htype : ¬ file.status = .typeChanged := fun htype ↦ hstatus ⟨htype, hformat⟩
    rw [DiffFile.charge, if_neg htype]
    exact (length_numbered _ _ _ _).symm

private theorem sound_changeContents {contextLines maxObjectBytes : ℕ} {change : RawChange}
    (h : db.eval (changeContents gix contextLines maxObjectBytes change) = .ok contents) : contents.Sound := by
  have hfresh : change.intoFile.hunks = [] := rfl
  rw [changeContents] at h
  split at h
  · rw [fileContents] at h
    split at h
    · cases h
      refine sound_of_nil ?_ false
      exact hfresh
    · simp only [ObjectDb.eval_bind, Outcome.bind_eq_ok] at h
      obtain ⟨old, -, new, -, h⟩ := h
      cases old <;> cases new <;> cases h
      · exact sound_dataContents hfresh .patch contextLines _ _ rfl
      all_goals exact sound_of_nil hfresh true
  · cases h
    refine sound_of_nil ?_ false
    exact hfresh

/-- The body of the loop keeps what the limits allow. -/
theorem eval_populateFile (hformat : opts.format = .patch) (change : RawChange) :
    db.eval (populateFile gix opts change.intoFile used) =
      db.eval (changeContents gix opts.contextLines opts.maxObjectBytes change) >>= fun contents ↦
        .ok (contents.within opts used) := by
  rw [populateFile, hformat, if_neg DiffFormat.noConfusion, changeContents]
  split
  · rw [eval_populateContent rfl, hformat]
  · rfl

end Contents

/-! ### The loop over the changes -/

/-- The loop over changes whose contents are found out. -/
def fill (opts : DiffOptions) (rewriteOversize : List Oid) : List Contents → Population → Population
  | [], population => population
  | contents :: rest, population =>
    let population := population.push rewriteOversize (contents.within opts population.used)
    if population.stoppedBy.isSome then population else fill opts rewriteOversize rest population

/-- The counters count the files, and are within the limits. -/
structure Population.Sound (opts : DiffOptions) (population : Population) : Prop where
  hunks : population.used.hunks = totalHunks population.files
  lines : population.used.lines = totalCharge population.files
  within : population.used.Within opts

section Loop

variable {db : ObjectDb} {gix : GixBlobDiff} {rewriteOversize : List Oid} {population population' : Population}
  {contents : Contents} {opts' : DiffOptions}

private theorem eval_populateFiles (hformat : opts.format = .patch) {changes : List RawChange} {found : List Contents}
    (h : List.Forall₂ (fun change contents ↦ db.eval
      (changeContents gix opts.contextLines opts.maxObjectBytes change) = .ok contents) changes found) :
    db.eval (populateFiles gix opts rewriteOversize changes population) =
      .ok (fill opts rewriteOversize found population) := by
  induction h generalizing population with
  | nil => rfl
  | cons hcontents hrest ih =>
    simp only [populateFiles, fill, ObjectDb.eval_bind, ObjectDb.eval_check, Outcome.ok_bind,
      eval_populateFile hformat, hcontents]
    split
    · rfl
    · exact ih

/-- The loop fills in what it finds out about the first changes, and about all of them if no limit stops it. -/
theorem populateFiles_spec (hformat : opts.format = .patch) {changes : List RawChange}
    (h : db.eval (populateFiles gix opts rewriteOversize changes population) = .ok population') :
    ∃ first rest found, changes = first ++ rest ∧ List.Forall₂ (fun change contents ↦ db.eval
        (changeContents gix opts.contextLines opts.maxObjectBytes change) = .ok contents) first found ∧
      population' = fill opts rewriteOversize found population ∧ (population'.stoppedBy = none → rest = []) := by
  induction changes generalizing population with
  | nil =>
    cases h
    exact ⟨[], [], [], rfl, .nil, rfl, fun _ ↦ rfl⟩
  | cons change changes ih =>
    simp only [populateFiles, ObjectDb.eval_bind, ObjectDb.eval_check, Outcome.ok_bind,
      eval_populateFile hformat, Outcome.bind_assoc] at h
    obtain ⟨contents, hcontents, h⟩ := Outcome.bind_eq_ok.mp h
    split at h
    · next hstopped =>
      cases h
      refine ⟨[change], changes, [contents], rfl, .cons hcontents .nil, ?_, fun hnone ↦ ?_⟩
      · rw [fill, if_pos hstopped]
      · rw [hnone] at hstopped
        cases hstopped
    · next hgoes =>
      obtain ⟨first, rest, found, rfl, hfound, hfill, hrest⟩ := ih h
      refine ⟨change :: first, rest, contents :: found, rfl, .cons hcontents hfound, ?_, hrest⟩
      rw [fill, if_neg hgoes]
      exact hfill

@[simp] private theorem push_files (result : DiffFile × Used × PopulateOutcome) :
    (population.push rewriteOversize result).files = population.files ++ [result.1] := by
  obtain ⟨file, used, outcome⟩ := result
  cases outcome <;> rfl

@[simp] private theorem push_used (result : DiffFile × Used × PopulateOutcome) :
    (population.push rewriteOversize result).used = result.2.1 := rfl

private theorem push_stoppedBy (result : DiffFile × Used × PopulateOutcome) {limit : String}
    (hnone : population.stoppedBy = none) :
    (population.push rewriteOversize result).stoppedBy = some limit ↔ result.2.2 = .stopped limit := by
  obtain ⟨file, used, outcome⟩ := result
  cases outcome <;> simp [Population.push, Population.noteOversize, hnone]

private theorem push_stoppedBy_none (result : DiffFile × Used × PopulateOutcome)
    (h : (population.push rewriteOversize result).stoppedBy = none) : ∀ limit, result.2.2 ≠ .stopped limit := by
  obtain ⟨file, used, outcome⟩ := result
  cases outcome with
  | complete => exact fun limit ↦ PopulateOutcome.noConfusion
  | oversize => exact fun limit ↦ PopulateOutcome.noConfusion
  | stopped limit => exact absurd h (Option.some_ne_none _)

/-- Where no limit is reached, the limits do not matter. -/
theorem within_of_not_stopped (h : ∀ limit, (contents.within opts used).2.2 ≠ .stopped limit) :
    contents.within opts used = if contents.oversize then (contents.file, used, .oversize)
      else ({ contents.file with hunks := contents.hunks.map Prod.fst }, used.addAll contents.hunks,
        .complete) := by
  rw [Contents.within] at h ⊢
  split
  · rfl
  · next hsize =>
    rw [if_neg hsize] at h
    rw [cut_complete h]
    rfl

private theorem sum_charge {hunks : List Counted} {file : DiffFile} (h : ∀ hunk ∈ hunks, hunk.2 = file.charge hunk.1) :
    ((hunks.map Prod.fst).map file.charge).sum = (hunks.map Prod.snd).sum := by
  rw [List.map_map]
  exact congrArg List.sum (List.map_congr_left fun hunk hhunk ↦ (h hunk hhunk).symm)

private theorem sound_push (hsound : population.Sound opts) (hcontents : contents.Sound) :
    (population.push rewriteOversize (contents.within opts population.used)).Sound opts := by
  rw [Contents.within]
  split
  · refine ⟨?_, ?_, hsound.within⟩
    · simp [hcontents.fresh, hsound.hunks]
    · simp [hcontents.fresh, hsound.lines]
  · obtain ⟨kept, rest, hsplit, hwithin, hkept, hused, -⟩ := cut_spec hsound.within contents.hunks
    have hcharges : ∀ hunk ∈ kept, hunk.2 = contents.file.charge hunk.1 := by
      intro hunk hhunk
      exact hcontents.charges hunk (hsplit ▸ List.mem_append_left rest hhunk)
    refine ⟨?_, ?_, ?_⟩
    · rw [push_used, push_files, totalHunks_append, totalHunks_singleton, ← hsound.hunks]
      dsimp only [DiffFile.withHunks]
      rw [hused, hkept, List.length_map]
      rfl
    · rw [push_used, push_files, totalCharge_append, totalCharge_singleton, ← hsound.lines]
      dsimp only [DiffFile.withHunks]
      rw [hused, hkept]
      exact congrArg _ (sum_charge hcharges).symm
    · rw [push_used]
      dsimp only [DiffFile.withHunks]
      rw [hused]
      exact hwithin

/-- A limit stops the loop at a hunk that exceeds it. -/
theorem exceeded_of_stopped (hsound : population.Sound opts) (hcontents : contents.Sound)
    (hnone : population.stoppedBy = none) {limit : String}
    (h : (population.push rewriteOversize (contents.within opts population.used)).stoppedBy = some limit) :
    ∃ kept omitted next, contents.oversize = false ∧ contents.hunks = kept ++ next :: omitted ∧
      (population.push rewriteOversize (contents.within opts population.used)).files =
        population.files ++ [{ contents.file with hunks := kept.map Prod.fst }] ∧
      Exceeded opts (population.files ++ [{ contents.file with hunks := kept.map Prod.fst }])
        (contents.file.charge next.1) limit := by
  have hpushed := @sound_push _ rewriteOversize _ _ hsound hcontents
  have hstopped := (push_stoppedBy _ hnone).mp h
  have hhunks := hpushed.hunks
  have hlines := hpushed.lines
  rw [push_files, push_used] at hhunks hlines
  rw [push_files]
  rw [Contents.within] at hhunks hlines hstopped ⊢
  split at hstopped
  · cases hstopped
  · next hsize =>
    rw [if_neg hsize] at hhunks hlines ⊢
    obtain ⟨kept, rest, hsplit, -, hkept, hused, hend⟩ := cut_spec hsound.within contents.hunks
    dsimp only [DiffFile.withHunks] at hhunks hlines hstopped ⊢
    rw [hused, hkept] at hhunks hlines
    rw [hkept]
    rcases hend with ⟨-, hcomplete⟩ | ⟨next, omitted, limit', rfl, hlimit, hexceeds⟩
    · exact absurd (hcomplete.symm.trans hstopped) PopulateOutcome.noConfusion
    · cases hlimit.symm.trans hstopped
      refine ⟨kept, omitted, next, Bool.eq_false_of_not_eq_true hsize, hsplit, rfl, ?_⟩
      have hcharge := hcontents.charges next (hsplit ▸ List.mem_append_right kept List.mem_cons_self)
      rw [Exceeded, ← hcharge, ← hhunks, ← hlines]
      rw [Used.exceeds] at hexceeds
      split at hexceeds
      · next hmax =>
        cases hexceeds
        exact .inl ⟨rfl, by omega⟩
      · split at hexceeds
        · next hmax =>
          cases hexceeds
          exact .inr ⟨rfl, hmax⟩
        · cases hexceeds

/-- The loop only adds files. -/
theorem exists_later (found : List Contents) (population : Population) :
    ∃ later, (fill opts rewriteOversize found population).files = population.files ++ later := by
  induction found generalizing population with
  | nil => exact ⟨[], (List.append_nil _).symm⟩
  | cons contents found ih =>
    rw [fill]
    split
    · exact ⟨_, push_files _⟩
    · obtain ⟨later, hlater⟩ := ih (population.push rewriteOversize (contents.within opts population.used))
      refine ⟨(contents.within opts population.used).1 :: later, ?_⟩
      rw [hlater, push_files, List.append_assoc, List.singleton_append]

private theorem sound_fill {found : List Contents} (hfound : ∀ contents ∈ found, contents.Sound)
    (hsound : population.Sound opts) : (fill opts rewriteOversize found population).Sound opts := by
  induction found generalizing population with
  | nil => exact hsound
  | cons contents found ih =>
    obtain ⟨hcontents, hfound⟩ := List.forall_mem_cons.mp hfound
    rw [fill]
    split
    · exact sound_push hsound hcontents
    · exact ih hfound (sound_push hsound hcontents)

/-- What the limits leave is cut from what others leave that stop nothing. -/
theorem cutOf_fill {found : List Contents} (hfound : ∀ contents ∈ found, contents.Sound)
    (hsound : population.Sound opts) (hnone : population.stoppedBy = none)
    (hfull : (fill opts' rewriteOversize found population).stoppedBy = none) :
    CutOf opts (fill opts rewriteOversize found population).files
        (fill opts' rewriteOversize found population).files
        (fill opts rewriteOversize found population).stoppedBy ∧
      ((fill opts rewriteOversize found population).stoppedBy = none →
        fill opts rewriteOversize found population = fill opts' rewriteOversize found population) := by
  induction found generalizing population with
  | nil =>
    rw [fill, fill, hnone]
    exact ⟨.whole _, fun _ ↦ rfl⟩
  | cons contents found ih =>
    obtain ⟨hcontents, hfound⟩ := List.forall_mem_cons.mp hfound
    rw [fill] at hfull
    split at hfull
    · next hstopped =>
      rw [hfull] at hstopped
      cases hstopped
    · next hgoes =>
      have hwhole := within_of_not_stopped
        (push_stoppedBy_none _ (Option.not_isSome_iff_eq_none.mp hgoes))
      rw [fill, fill, if_neg hgoes]
      cases hlimit : (population.push rewriteOversize (contents.within opts population.used)).stoppedBy with
      | none =>
        have hsame := within_of_not_stopped (push_stoppedBy_none _ hlimit)
        rw [if_neg (by exact Bool.false_ne_true)]
        rw [hwhole, ← hsame] at hfull ⊢
        exact ih hfound (sound_push hsound hcontents) hlimit hfull
      | some limit =>
        obtain ⟨kept, omitted, next, hsize, hsplit, hfiles, hexceeded⟩ :=
          exceeded_of_stopped hsound hcontents hnone hlimit
        obtain ⟨later, hlater⟩ := @exists_later opts' rewriteOversize found
          (population.push rewriteOversize (contents.within opts' population.used))
        rw [if_pos (by rfl), hfiles, hlater, push_files, hwhole, hsize, hlimit, List.append_assoc,
          List.singleton_append]
        have hhunks : contents.hunks.map Prod.fst =
            kept.map Prod.fst ++ next.1 :: omitted.map Prod.fst := by
          rw [hsplit, List.map_append, List.map_cons]
        refine ⟨?_, fun hsome ↦ absurd hsome (Option.some_ne_none _)⟩
        exact CutOf.part population.files later
          { contents.file with hunks := contents.hunks.map Prod.fst } hhunks hexceeded

end Loop

/-! ### The diff -/

section Runs

variable {gix : Gitoxide} {fuel : ℕ} {baseStore headStore : ObjectDb} {base head : Snapshot}
  {result : StructuredDiff}

private theorem sound_ofOversize (rewriteOversize : List Oid) : (Population.ofOversize rewriteOversize).Sound opts :=
  ⟨rfl, rfl, Nat.zero_le _, Nat.zero_le _⟩

/-- A diff is made of valid arguments, and of the files of the walk where the trees differ. -/
theorem diff_eq_ok : diff gix fuel baseStore base headStore head opts = .ok result ↔
    validate baseStore.toStoreInfo base headStore.toStoreInfo head opts = .ok () ∧
      ∃ union, UnionObjectDb.new headStore baseStore = .ok union ∧
        (base.treeOid = head.treeOid ∧ result = finish ⟨[], [], 0, {}, none⟩ [] none ∨
          base.treeOid ≠ head.treeOid ∧ ∃ state population, union.toObjectDb.eval
            (walkTrees gix fuel opts.toTreeDiffOptions base.treeOid head.treeOid) = .ok state ∧
          union.toObjectDb.eval (populateFiles gix.blobDiff opts state.adapter.oversize state.changes
            (.ofOversize state.adapter.oversize)) = .ok population ∧
          result = conclude population state.stoppedBy) := by
  rw [diff, Outcome.bind_eq_ok]
  constructor
  · rintro ⟨⟨⟩, hvalid, h⟩
    obtain ⟨union, hunion, h⟩ := Outcome.bind_eq_ok.mp h
    refine ⟨Outcome.ofExcept_eq_ok.mp hvalid, union, Outcome.ofExcept_eq_ok.mp hunion, ?_⟩
    rw [diffTrees, ObjectDb.eval_bind, ObjectDb.eval_check, Outcome.ok_bind] at h
    split at h
    · next heq =>
      cases h
      exact .inl ⟨heq, rfl⟩
    · next hne =>
      simp only [ObjectDb.eval_bind, Outcome.bind_eq_ok] at h
      obtain ⟨state, hstate, population, hpopulation, h⟩ := h
      cases h
      exact .inr ⟨hne, state, population, hstate, hpopulation, rfl⟩
  · rintro ⟨hvalid, union, hunion, h⟩
    refine ⟨(), Outcome.ofExcept_eq_ok.mpr hvalid, Outcome.bind_eq_ok.mpr
      ⟨union, Outcome.ofExcept_eq_ok.mpr hunion, ?_⟩⟩
    rw [diffTrees, ObjectDb.eval_bind, ObjectDb.eval_check, Outcome.ok_bind]
    rcases h with ⟨heq, rfl⟩ | ⟨hne, state, population, hstate, hpopulation, rfl⟩
    · rw [if_pos heq]
      rfl
    · rw [if_neg hne]
      simp only [ObjectDb.eval_bind, hstate, hpopulation, Outcome.ok_bind]
      rfl

/-- Limits that are not zero are valid where others are. -/
theorem validate_limits {baseInfo headInfo : StoreInfo} {maxDiffHunks maxDiffLines : ℕ}
    (hhunks : 1 ≤ opts.maxDiffHunks) (hlines : 1 ≤ opts.maxDiffLines)
    (h : validate baseInfo base headInfo head { opts with maxDiffHunks, maxDiffLines } = .ok ()) :
    validate baseInfo base headInfo head opts = .ok () := by
  simp only [validate, Except.bind_eq_ok, ensure_eq_ok] at h ⊢
  obtain ⟨u, hkinds, u₁, hbase, u₂, hhead, u₃, hcommits, u₄, hcontext, u₅, hcopies, hlimits⟩ := h
  exact ⟨u, hkinds, u₁, hbase, u₂, hhead, u₃, hcommits, u₄, hcontext, u₅, hcopies, hlimits.1,
    Nat.one_le_iff_ne_zero.mp hhunks, Nat.one_le_iff_ne_zero.mp hlines⟩

private theorem sound_of_forall₂ {db : ObjectDb} {blobDiff : GixBlobDiff} {contextLines maxObjectBytes : ℕ}
    {changes : List RawChange} {found : List Contents}
    (h : List.Forall₂ (fun change contents ↦
      db.eval (changeContents blobDiff contextLines maxObjectBytes change) = .ok contents) changes found) :
    ∀ contents ∈ found, contents.Sound := by
  induction h with
  | nil => exact fun contents hmem ↦ absurd hmem List.not_mem_nil
  | cons hcontents hrest ih => exact List.forall_mem_cons.mpr ⟨sound_changeContents hcontents, ih⟩

/-- The limits bound what is returned. -/
theorem totals_of_diff (hformat : opts.format = .patch)
    (h : diff gix fuel baseStore base headStore head opts = .ok result) :
    totalHunks result.files ≤ opts.maxDiffHunks ∧ totalCharge result.files ≤ opts.maxDiffLines := by
  obtain ⟨-, union, -, ⟨-, rfl⟩ | ⟨-, state, population, -, hpopulation, rfl⟩⟩ := diff_eq_ok.mp h
  · exact ⟨Nat.zero_le _, Nat.zero_le _⟩
  · obtain ⟨first, rest, found, -, hfound, rfl, -⟩ := populateFiles_spec hformat hpopulation
    have hsound := @sound_fill opts state.adapter.oversize _ _ (sound_of_forall₂ hfound)
      (sound_ofOversize state.adapter.oversize)
    exact ⟨hsound.hunks ▸ hsound.within.1, hsound.lines ▸ hsound.within.2⟩

private theorem conclude_of_not_truncated {population : Population} {walkStoppedBy : Option String}
    (h : (conclude population walkStoppedBy).truncated = false) :
    population.stoppedBy = none ∧ walkStoppedBy = none := by
  rw [← Option.or_eq_none_iff]
  exact Option.isNone_iff_eq_none.mp (Option.isSome_eq_false_iff.mp h)

/-- The limits leave a first part of what a diff with other limits returns that is not truncated. -/
theorem cutOf_diff (hformat : opts.format = .patch) (hhunks : 1 ≤ opts.maxDiffHunks)
    (hlines : 1 ≤ opts.maxDiffLines) {maxDiffHunks maxDiffLines : ℕ} {full : StructuredDiff}
    (hfull : diff gix fuel baseStore base headStore head { opts with maxDiffHunks, maxDiffLines } = .ok full)
    (huntruncated : full.truncated = false) :
    ∃ result, diff gix fuel baseStore base headStore head opts = .ok result ∧
      CutOf opts result.files full.files result.stats.stoppedBy ∧
      result.truncated = result.stats.stoppedBy.isSome ∧ (result.stats.stoppedBy = none → result = full) := by
  obtain ⟨hvalid, union, hunion, hfull⟩ := diff_eq_ok.mp hfull
  have hvalid := validate_limits hhunks hlines hvalid
  rcases hfull with ⟨heq, rfl⟩ | ⟨hne, state, population, hstate, hpopulation, rfl⟩
  · exact ⟨_, diff_eq_ok.mpr ⟨hvalid, union, hunion, .inl ⟨heq, rfl⟩⟩, .whole _, rfl, fun _ ↦ rfl⟩
  · obtain ⟨hnone, hwalk⟩ := conclude_of_not_truncated huntruncated
    have hpatch : ({ opts with maxDiffHunks, maxDiffLines } : DiffOptions).format = .patch := hformat
    obtain ⟨first, rest, found, hchanges, hfound, rfl, hrest⟩ := populateFiles_spec hpatch hpopulation
    obtain rfl := hrest hnone
    rw [List.append_nil] at hchanges
    rw [← hchanges] at hfound
    have hcut := cutOf_fill (sound_of_forall₂ hfound) (@sound_ofOversize opts _) rfl hnone
    have hrun := @eval_populateFiles opts union.toObjectDb gix.blobDiff state.adapter.oversize
      (.ofOversize state.adapter.oversize) hformat _ _ hfound
    refine ⟨_, diff_eq_ok.mpr ⟨hvalid, union, hunion, .inr ⟨hne, state, _, hstate, hrun, rfl⟩⟩, ?_, rfl, ?_⟩
    · have hstopped := hcut.1
      rw [conclude, hwalk, Option.or_none]
      exact hstopped
    · intro hstopped
      rw [conclude, hwalk, Option.or_none] at hstopped
      rw [hcut.2 hstopped]

end Runs

/-! ### A link that becomes a file -/

/-- A change that is handed to the callback. -/
theorem eval_runWalk_change {db : ObjectDb} (maxDiffFiles : ℕ) (change : ChangeRef)
    (k : Except TreeDiffError (WalkOp.Answer (.change change)) → TreeWalk) (state : WalkState) :
    db.eval (runWalk maxDiffFiles (.call (.change change) k) state) =
      db.eval (runWalk maxDiffFiles (k (.ok (state.push maxDiffFiles change).1))
        (state.push maxDiffFiles change).2) := by
  rw [runWalk, ObjectDb.eval_bind, ObjectDb.eval_attempt_of_ok ObjectDb.eval_check, Outcome.ok_bind]

/-- A blob that is not too large is read. -/
theorem eval_readDiffBlob {db : ObjectDb} {maxBytes : ℕ} {oid : Oid} {payload : Bytes}
    (hheader : db.tryHeaderWithProvenance oid = .ok (some ⟨⟨.blob, payload.length⟩, .verified⟩))
    (hfind : db.tryFind oid = .ok (some (.blob, payload))) (hsize : payload.length ≤ maxBytes) :
    db.eval (readDiffBlob maxBytes (some oid)) = .ok (.data payload) := by
  have hfits : ¬ maxBytes < payload.length := Nat.not_lt.mpr hsize
  rw [readDiffBlob, ObjectDb.eval_bind, ObjectDb.eval_tryHeaderWithProvenance, hheader, Outcome.ofExcept_ok,
    Outcome.ok_bind, ObjectDb.eval_bind, ObjectDb.eval_ofExcept, diffBlobHeader, if_pos rfl, Outcome.ofExcept_ok,
    Outcome.ok_bind, if_neg hfits, ObjectDb.eval_bind, ObjectDb.eval_tryFind, hfind, Outcome.ofExcept_ok,
    Outcome.ok_bind, ObjectDb.eval_bind, ObjectDb.eval_ofExcept]
  exact congrArg (ObjectDb.eval db) (if_neg hfits)

/-- The two trees, the target of the link and the payload of the file. -/
def linkStore (payload : Bytes) : ObjectDb := .ofFind .sha1 none fun oid ↦ .ok <|
  if oid = sampleId 0xaa then some (.tree, sampleTree [("120000", "f", 1)])
  else if oid = sampleId 0xbb then some (.tree, sampleTree [("100644", "f", 2)])
  else if oid = sampleId 1 then some (.blob, [0x78])
  else if oid = sampleId 2 then some (.blob, payload)
  else none

/-- The walk of the two trees. -/
def linkGitoxide : Gitoxide where
  trees := sampleGix
  hashers := ⟨fun _ ↦ none, fun _ ↦ []⟩
  blobDiff := sampleDiff
  treeWithRewrites _ _ _ _ := do
    let _ ← Program.request (.change (.modification [0x66] 0o120000 (sampleId 1) 0o100644 (sampleId 2)))
    return ()

/-- The diff of the two trees. -/
def linkDiff (payload : Bytes) (opts : DiffOptions) : Outcome Error StructuredDiff :=
  diff linkGitoxide 0 (linkStore payload) ⟨sampleId 3, sampleId 0xaa⟩ (linkStore payload)
    ⟨sampleId 4, sampleId 0xbb⟩ opts

/-- The changed file, without its hunks. -/
def linkFile (payload : Bytes) : DiffFile :=
  ⟨.typeChanged, some [0x66], some [0x66], some (sampleId 1), some (sampleId 2), some 0o120000, some 0o100644,
    none, some (lineCount payload), some 1, false, []⟩

/-- The change of the two trees. -/
def linkRaw : RawChange :=
  ⟨.typeChanged, some [0x66], some [0x66], some (sampleId 1), some (sampleId 2), some 0o120000, some 0o100644,
    none⟩

section Link

variable {payload : Bytes} {maxObjectBytes maxDiffHunks maxDiffLines : ℕ}

/-- The hunks of both sides, as far as the limits allow. -/
theorem eval_linkDiff (htext : ¬ Search.isBinaryPayload payload) (hsize : payload.length ≤ maxObjectBytes)
    (hlink : 1 ≤ maxObjectBytes) (hhunks : 1 ≤ maxDiffHunks) (hlines : 1 ≤ maxDiffLines) :
    linkDiff payload { maxObjectBytes, maxDiffHunks, maxDiffLines } =
      .ok (conclude (fill { maxObjectBytes, maxDiffHunks, maxDiffLines } []
        [⟨linkFile payload, [(.deletion, [0x78]), (.addition, payload)].map sideHunk, false⟩]
          (.ofOversize [])) none) := by
  have hvalid : validate (linkStore payload).toStoreInfo ⟨sampleId 3, sampleId 0xaa⟩
      (linkStore payload).toStoreInfo ⟨sampleId 4, sampleId 0xbb⟩
        { maxObjectBytes, maxDiffHunks, maxDiffLines } = .ok () := by
    have hlimits : 1000 ≠ 0 ∧ maxDiffHunks ≠ 0 ∧ maxDiffLines ≠ 0 :=
      ⟨by decide, Nat.one_le_iff_ne_zero.mp hhunks, Nat.one_le_iff_ne_zero.mp hlines⟩
    exact if_pos hlimits
  have hwalk : (UnionObjectDb.mk (linkStore payload) (linkStore payload)).toObjectDb.eval
      (walkTrees linkGitoxide 0 { maxObjectBytes } (sampleId 0xaa) (sampleId 0xbb)) =
        .ok ⟨⟨maxObjectBytes, [], none, []⟩, [linkRaw], none⟩ := by
    have hprepared : (UnionObjectDb.mk (linkStore payload) (linkStore payload)).toObjectDb.eval
        (prepareTrees linkGitoxide 0 { maxObjectBytes } (sampleId 0xaa) (sampleId 0xbb)) =
          .ok ⟨sampleTree [("120000", "f", 1)], sampleTree [("100644", "f", 2)], []⟩ := rfl
    have hrun : (UnionObjectDb.mk (linkStore payload) (linkStore payload)).toObjectDb.eval
        (runWalk 1000 (.call (.change (.modification [0x66] 0o120000 (sampleId 1) 0o100644 (sampleId 2)))
          fun answer ↦ Program.ofExcept answer >>= fun _ ↦ pure ()) ⟨⟨maxObjectBytes, [], none, []⟩, [], none⟩) =
            .ok (.ok (), ⟨⟨maxObjectBytes, [], none, []⟩, [linkRaw], none⟩) := eval_runWalk_change _ _ _ _
    rw [walkTrees, ObjectDb.eval_bind, hprepared, Outcome.ok_bind, ObjectDb.eval_bind]
    refine (congrArg (· >>= _) hrun).trans ?_
    exact congrArg (fun changes ↦ Outcome.ok (WalkState.mk ⟨maxObjectBytes, [], none, []⟩ changes none))
      (@List.mergeSort_singleton RawChange RawChange.le linkRaw)
  have hold := @eval_readDiffBlob (UnionObjectDb.mk (linkStore payload) (linkStore payload)).toObjectDb
    maxObjectBytes (sampleId 1) [0x78] rfl rfl hlink
  have hnew := @eval_readDiffBlob (UnionObjectDb.mk (linkStore payload) (linkStore payload)).toObjectDb
    maxObjectBytes (sampleId 2) payload rfl rfl hsize
  have hfound : (UnionObjectDb.mk (linkStore payload) (linkStore payload)).toObjectDb.eval
      (changeContents sampleDiff 3 maxObjectBytes linkRaw) =
        .ok ⟨linkFile payload, [(.deletion, [0x78]), (.addition, payload)].map sideHunk, false⟩ := by
    have hne : ¬ linkRaw.intoFile.oldOid = linkRaw.intoFile.newOid := by decide
    have hneither : ¬ (Search.isBinaryPayload [0x78] ∨ Search.isBinaryPayload payload) :=
      not_or.mpr ⟨by decide, htext⟩
    rw [changeContents, if_pos (by decide), fileContents, if_neg hne]
    simp only [ObjectDb.eval_bind, linkRaw, RawChange.intoFile, hold, hnew, Outcome.ok_bind, ObjectDb.eval_pure,
      dataContents, if_neg hneither, and_self, if_true]
    rfl
  refine diff_eq_ok.mpr ⟨hvalid, _, rfl, .inr ⟨by decide, _, _, hwalk, ?_, rfl⟩⟩
  exact eval_populateFiles rfl (.cons hfound .nil)

/-- Both sides fit, the file's with as many lines as it counts with. -/
theorem totalLines_linkDiff (htext : ¬ Search.isBinaryPayload payload) (hsize : payload.length ≤ maxObjectBytes)
    (hlink : 1 ≤ maxObjectBytes) (hhunks : 2 ≤ maxDiffHunks) (hfits : 1 + lineCount payload ≤ maxDiffLines) :
    ∃ result, linkDiff payload { maxObjectBytes, maxDiffHunks, maxDiffLines } = .ok result ∧
      totalLines result.files = 1 + (linesWithLf payload).length := by
  have hrun := eval_linkDiff htext hsize hlink (Nat.le_of_succ_le hhunks)
    (Nat.le_trans (Nat.le_add_right 1 _) hfits)
  refine ⟨_, hrun, ?_⟩
  have hone : lineCount [0x78] = 1 := rfl
  have hcut := @cut_of_within { maxObjectBytes, maxDiffHunks, maxDiffLines } (Population.ofOversize []).used
    ([(.deletion, [0x78]), (.addition, payload)].map sideHunk)
    ⟨hhunks, by simpa [Population.ofOversize, Used.addAll, sideHunk, hone] using hfits⟩
  have hlines : ∀ side, (sideHunk side).1.lines.length = (linesWithLf side.2).length := by
    intro side
    rw [lines_sideHunk, length_sideLines]
  rw [fill, Contents.within, if_neg Bool.false_ne_true, hcut]
  change (sideHunk (.deletion, [0x78])).1.lines.length +
    ((sideHunk (.addition, payload)).1.lines.length + 0) + 0 = _
  rw [hlines, hlines]
  rfl

end Link

/-! ### What the limits leave -/

/-- The limits on hunks and lines only cut a suffix off the result. -/
theorem diff_limits {gix : Gitoxide} {fuel : ℕ} {baseStore headStore : ObjectDb} {base head : Snapshot}
    (hformat : opts.format = .patch) :
    (∀ result, diff gix fuel baseStore base headStore head opts = .ok result →
      totalHunks result.files ≤ opts.maxDiffHunks ∧ totalCharge result.files ≤ opts.maxDiffLines ∧
        ((∀ file ∈ result.files, file.status = .typeChanged → ∀ hunk ∈ file.hunks, hunk.lines.length ≤ u32Max) →
          totalLines result.files ≤ opts.maxDiffLines)) ∧
      ∀ maxDiffHunks maxDiffLines full, 1 ≤ opts.maxDiffHunks → 1 ≤ opts.maxDiffLines →
        diff gix fuel baseStore base headStore head { opts with maxDiffHunks, maxDiffLines } = .ok full →
        full.truncated = false →
        ∃ result, diff gix fuel baseStore base headStore head opts = .ok result ∧
          CutOf opts result.files full.files result.stats.stoppedBy ∧
          (result.truncated = true ↔ result.files ≠ full.files) ∧ (result.truncated = false → result = full) := by
  constructor
  · intro result h
    obtain ⟨hhunks, hcharge⟩ := totals_of_diff hformat h
    exact ⟨hhunks, hcharge, fun hshort ↦ totalCharge_eq hshort ▸ hcharge⟩
  · intro maxDiffHunks maxDiffLines full hhunks hlines hfull huntruncated
    obtain ⟨result, hresult, hcut, htruncated, hwhole⟩ := cutOf_diff hformat hhunks hlines hfull huntruncated
    refine ⟨result, hresult, hcut, ?_, fun hnot ↦ hwhole ?_⟩
    · rw [htruncated, Ne, hcut.eq_iff, Option.isSome_iff_ne_none]
    · rw [htruncated] at hnot
      exact Option.isNone_iff_eq_none.mp (Option.isSome_eq_false_iff.mp hnot)

/-- One of the two hunks is left. -/
theorem diff_limits_sample : ∃ full result, linkDiff [0x61, 0x0a] {} = .ok full ∧
    linkDiff [0x61, 0x0a] { maxDiffHunks := 1 } = .ok result ∧
      CutOf { maxDiffHunks := 1 } result.files full.files result.stats.stoppedBy ∧
      (result.truncated = true ↔ result.files ≠ full.files) := by
  have hfull := @eval_linkDiff [0x61, 0x0a] (4 * 1024 * 1024) 10000 100000 (by decide) (by decide) (by decide)
    (by decide) (by decide)
  have hcut := (@diff_limits { maxDiffHunks := 1 } linkGitoxide 0 (linkStore [0x61, 0x0a]) (linkStore [0x61, 0x0a])
    ⟨sampleId 3, sampleId 0xaa⟩ ⟨sampleId 4, sampleId 0xbb⟩ rfl).2
  obtain ⟨result, hresult, hcut, htruncated, -⟩ := hcut 10000 100000 _ (by decide) (by decide) hfull rfl
  exact ⟨_, result, hfull, hresult, hcut, htruncated⟩

/-- Lines of a newline each. -/
theorem lines_replicate (n : ℕ) : linesWithLf (List.replicate n 0x0a) = List.replicate n [0x0a] := by
  induction n with
  | zero => rfl
  | succ n ih =>
    rw [List.replicate_succ, List.replicate_succ, linesWithLf, lines, if_pos rfl]
    exact congrArg _ ih

/-- A side of more than `u32::MAX` lines counts with `u32::MAX`. -/
theorem exists_overlong (n : ℕ) (hn : u32Max < n) :
    ∃ result, linkDiff (List.replicate n 0x0a) { maxObjectBytes := n, maxDiffLines := u32Max + 1 } = .ok result ∧
      u32Max + 1 < totalLines result.files := by
  have htext : ¬ Search.isBinaryPayload (List.replicate n 0x0a) := by
    rw [Search.isBinaryPayload, decide_eq_true_eq]
    intro hzero
    exact absurd (List.eq_of_mem_replicate (List.mem_of_mem_take hzero)) (by decide)
  have hlength : (linesWithLf (List.replicate n 0x0a)).length = n := by
    rw [lines_replicate, List.length_replicate]
  have hfits : 1 + lineCount (List.replicate n 0x0a) ≤ u32Max + 1 := by
    rw [Nat.add_comm]
    exact Nat.succ_le_succ (Nat.min_le_right _ _)
  obtain ⟨result, hresult, htotal⟩ := @totalLines_linkDiff _ n 10000 (u32Max + 1) htext
    (Nat.le_of_eq List.length_replicate) (Nat.zero_lt_of_lt hn) (by decide) hfits
  refine ⟨result, hresult, ?_⟩
  rw [htotal, hlength]
  omega

/-- A file of 2^32 lines in place of a link of one line. -/
theorem diff_lines_over_limit :
    ∃ result, linkDiff (List.replicate (2 ^ 32) 0x0a)
        { maxObjectBytes := 2 ^ 32, maxDiffLines := 2 ^ 32 } = .ok result ∧
      2 ^ 32 < totalLines result.files :=
  exists_overlong (2 ^ 32) (by decide)

end Gitility.Diff
