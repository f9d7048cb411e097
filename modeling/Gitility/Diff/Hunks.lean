import Gitility.Diff.Content

/-!
# Hunks and limits

The hunks of a file do not depend on the limits of a diff: the limits keep the first of them. A hunk counts with a
number of lines, which for a side of a type change is a saturated count.
-/

namespace Gitility.Diff

/-- A hunk with the number of lines it counts with. -/
abbrev Counted := DiffHunk × ℕ

/-- The hunks that the limits keep, with the counters behind them and how they end. -/
def cut (opts : DiffOptions) : List Counted → Used → List DiffHunk × Used × PopulateOutcome
  | [], used => ([], used, .complete)
  | (hunk, lines) :: rest, used =>
    match used.exceeds opts lines with
    | some limit => ([], used, .stopped limit)
    | none =>
      let (kept, result) := cut opts rest (used.add lines)
      (hunk :: kept, result)

/-- The counters behind more hunks. -/
def Used.addAll (used : Used) (hunks : List Counted) : Used :=
  ⟨used.hunks + hunks.length, used.lines + (hunks.map Prod.snd).sum⟩

/-- The first hunk is counted first. -/
theorem Used.addAll_cons (used : Used) (hunk : Counted) (hunks : List Counted) :
    used.addAll (hunk :: hunks) = (used.add hunk.2).addAll hunks := by
  simp only [addAll, add, List.length_cons, List.map_cons, List.sum_cons, Nat.add_assoc, Nat.add_comm 1]

/-- If no limit is reached, all hunks are kept. -/
theorem cut_complete {opts : DiffOptions} {hunks : List Counted} {used : Used}
    (h : ∀ limit, (cut opts hunks used).2.2 ≠ .stopped limit) :
    cut opts hunks used = (hunks.map Prod.fst, used.addAll hunks, .complete) := by
  induction hunks generalizing used with
  | nil => rfl
  | cons hunk hunks ih =>
    obtain ⟨hunk, lines⟩ := hunk
    rw [cut] at h ⊢
    cases hexceeds : used.exceeds opts lines with
    | some limit =>
      rw [hexceeds] at h
      exact absurd rfl (h limit)
    | none =>
      rw [hexceeds] at h
      rw [Used.addAll_cons]
      exact congrArg (fun result ↦ (hunk :: result.1, result.2)) (ih h)

section Within

variable {opts : DiffOptions} {used : Used}

/-- The counters are within the limits. -/
def Used.Within (opts : DiffOptions) (used : Used) : Prop :=
  used.hunks ≤ opts.maxDiffHunks ∧ used.lines ≤ opts.maxDiffLines

instance (opts : DiffOptions) (used : Used) : Decidable (used.Within opts) :=
  inferInstanceAs (Decidable (_ ∧ _))

/-- A hunk that exceeds no limit stays within them. -/
theorem Used.within_add (h : used.Within opts) {lines : ℕ} (hexceeds : used.exceeds opts lines = none) :
    (used.add lines).Within opts := by
  rw [Used.exceeds] at hexceeds
  split at hexceeds
  · cases hexceeds
  · next hhunks =>
    split at hexceeds
    · cases hexceeds
    · next hlines => exact ⟨Nat.lt_of_le_of_ne h.1 hhunks, Nat.le_of_not_lt hlines⟩

/-- A hunk that stays within the limits exceeds none. -/
theorem Used.exceeds_eq_none {lines : ℕ} (h : (used.add lines).Within opts) : used.exceeds opts lines = none := by
  have hhunks : ¬ used.hunks = opts.maxDiffHunks := Nat.ne_of_lt h.1
  have hlines : ¬ opts.maxDiffLines < used.lines + lines := Nat.not_lt.mpr h.2
  rw [Used.exceeds, if_neg hhunks, if_neg hlines]

/-- The limits keep hunks that stay within them. -/
theorem cut_of_within {hunks : List Counted} (h : (used.addAll hunks).Within opts) :
    cut opts hunks used = (hunks.map Prod.fst, used.addAll hunks, .complete) := by
  induction hunks generalizing used with
  | nil => rfl
  | cons hunk hunks ih =>
    obtain ⟨hunk, lines⟩ := hunk
    rw [Used.addAll_cons] at h ⊢
    have hadd : (used.add lines).Within opts :=
      ⟨Nat.le_trans (Nat.le_add_right _ _) h.1, Nat.le_trans (Nat.le_add_right _ _) h.2⟩
    rw [cut, Used.exceeds_eq_none hadd]
    exact congrArg (fun result ↦ (hunk :: result.1, result.2)) (ih h)

/-- Hunks that the limits all keep stay within them. -/
theorem within_of_cut {hunks : List Counted} (h : used.Within opts)
    (hcut : ∀ limit, (cut opts hunks used).2.2 ≠ .stopped limit) : (used.addAll hunks).Within opts := by
  induction hunks generalizing used with
  | nil => exact h
  | cons hunk hunks ih =>
    obtain ⟨hunk, lines⟩ := hunk
    rw [cut] at hcut
    cases hexceeds : used.exceeds opts lines with
    | some limit =>
      rw [hexceeds] at hcut
      exact absurd rfl (hcut limit)
    | none =>
      rw [hexceeds] at hcut
      rw [Used.addAll_cons]
      exact ih (Used.within_add h hexceeds) hcut

/-- Within the limits, a collection is stopped exactly if its hunks do not fit. -/
theorem cut_complete_iff {hunks : List Counted} (h : used.Within opts) :
    (∀ limit, (cut opts hunks used).2.2 ≠ .stopped limit) ↔ (used.addAll hunks).Within opts := by
  refine ⟨within_of_cut h, fun hwithin limit hlimit ↦ ?_⟩
  rw [cut_of_within hwithin] at hlimit
  cases hlimit

end Within

namespace HunkCollector

variable (collector : HunkCollector)

/-- The lines of `consume_hunk`. -/
def numbered : ℕ → ℕ → List (DiffLineKind × Bytes) → List DiffLine
  | _, _, [] => []
  | oldLine, newLine, (kind, content) :: rest =>
    let (line, oldLine, newLine) := collector.line oldLine newLine content kind
    line :: numbered oldLine newLine rest

/-- The first line is numbered before the rest. -/
theorem numbered_cons (oldLine newLine : ℕ) (item : DiffLineKind × Bytes) (rest : List (DiffLineKind × Bytes)) :
    collector.numbered oldLine newLine (item :: rest) =
      (collector.line oldLine newLine item.2 item.1).1 ::
        collector.numbered (collector.line oldLine newLine item.2 item.1).2.1
          (collector.line oldLine newLine item.2 item.1).2.2 rest := rfl

/-- The hunk of a window. -/
def hunk (window : Window) : DiffHunk where
  oldStart := zeroSideStart window.1.beforeHunkStart window.1.beforeHunkLen
  oldLines := window.1.beforeHunkLen
  newStart := zeroSideStart window.1.afterHunkStart window.1.afterHunkLen
  newLines := window.1.afterHunkLen
  header := none
  lines := collector.numbered window.1.beforeHunkStart window.1.afterHunkStart window.2

/-- The hunk of a window with its number of lines. -/
def counted (window : Window) : Counted := (collector.hunk window, window.2.length)

end HunkCollector

/-- The lines of one side of a type change. -/
def sideLines (origin : DiffLineOrigin) (lacksNewline : Bool) (count : ℕ) : ℕ → List Bytes → List DiffLine
  | _, [] => []
  | index, content :: rest =>
    let number := min (index + 1) u32Max
    { origin
      content := stripNewline content
      oldLine := if origin = .deletion then some number else none
      newLine := if origin = .addition then some number else none
      noNewline := lacksNewline ∧ number = count } :: sideLines origin lacksNewline count (index + 1) rest

/-- The hunk of one side of a type change with its number of lines. -/
def sideHunk (side : DiffLineOrigin × Bytes) : Counted :=
  (pureSideHunk side.1 (lineCount side.2)
    (sideLines side.1 (lacksTrailingNewline side.2) (lineCount side.2) 0 (linesWithLf side.2)), lineCount side.2)

/-- What is found out about a file whatever the limits are: the file without its hunks, all its hunks, and whether
a side is too large. -/
structure Contents where
  file : DiffFile
  hunks : List Counted
  oversize : Bool

/-- What the limits leave of a file. -/
def Contents.within (contents : Contents) (opts : DiffOptions) (used : Used) : DiffFile × Used × PopulateOutcome :=
  if contents.oversize then (contents.file, used, .oversize)
  else contents.file.withHunks (cut opts contents.hunks used)

/-- The contents of a file whose payloads are read. -/
def dataContents (gix : GixBlobDiff) (format : DiffFormat) (contextLines : ℕ) (file : DiffFile)
    (old new : Bytes) : Contents :=
  if Search.isBinaryPayload old ∨ Search.isBinaryPayload new then ⟨{ file with binary := true }, [], false⟩
  else if file.status = .typeChanged ∧ format = .patch then
    ⟨{ file with additions := some (lineCount new), deletions := some (lineCount old) },
      [(.deletion, old), (.addition, new)].map sideHunk, false⟩
  else
    let computed := gix (linesWithLf old) (linesWithLf new)
    ⟨{ file with additions := some computed.additions, deletions := some computed.removals },
      if format = .stats then []
      else (computed.windows contextLines).map (HunkCollector.ofSides old new).counted, false⟩

/-- The contents of a file. -/
def fileContents (gix : GixBlobDiff) (format : DiffFormat) (contextLines maxObjectBytes : ℕ) (file : DiffFile) :
    Query Contents :=
  if file.oldOid = file.newOid then
    return ⟨{ file with additions := some 0, deletions := some 0 }, [], false⟩
  else do
    let old ← readDiffBlob maxObjectBytes file.oldOid
    let new ← readDiffBlob maxObjectBytes file.newOid
    match old, new with
    | .data old, .data new => return dataContents gix format contextLines file old new
    | _, _ => return ⟨file, [], true⟩

/-! ### Under an unlimited budget -/

section Eval

variable {db : ObjectDb} {gix : GixBlobDiff} {opts : DiffOptions} {file : DiffFile} {used : Used}

private theorem eval_checks (n : ℕ) : db.eval (checks n) = .ok () := by
  induction n with
  | zero => rfl
  | succ n ih => rw [checks, ObjectDb.eval_bind, ObjectDb.eval_check, Outcome.ok_bind, ih]

private theorem eval_collectLines (collector : HunkCollector) (oldLine newLine : ℕ) (lines : List (DiffLineKind × Bytes)) :
    db.eval (collector.collectLines oldLine newLine lines) = .ok (collector.numbered oldLine newLine lines) := by
  induction lines generalizing oldLine newLine with
  | nil => rfl
  | cons line lines ih =>
    obtain ⟨kind, content⟩ := line
    simp only [HunkCollector.collectLines, HunkCollector.numbered, ObjectDb.eval_bind, ObjectDb.eval_check,
      Outcome.ok_bind, ih, ObjectDb.eval_pure]

/-- `UnifiedDiff::consume` keeps the first hunks. -/
theorem eval_consume (collector : HunkCollector) (windows : List Window) (used : Used) (hunks : List DiffHunk) :
    db.eval (collector.consume opts windows used hunks) =
      .ok (hunks ++ (cut opts (windows.map collector.counted) used).1,
        (cut opts (windows.map collector.counted) used).2) := by
  induction windows generalizing used hunks with
  | nil =>
    rw [HunkCollector.consume, List.map_nil, cut, List.append_nil]
    rfl
  | cons window windows ih =>
    obtain ⟨header, lines⟩ := window
    rw [List.map_cons, HunkCollector.counted, cut]
    simp only [HunkCollector.consume, HunkCollector.consumeHunk, ObjectDb.eval_bind, ObjectDb.eval_check,
      Outcome.ok_bind]
    cases hexceeds : used.exceeds opts lines.length with
    | some limit =>
      dsimp only
      rw [ObjectDb.eval_pure, Outcome.ok_bind, List.append_nil]
      rfl
    | none =>
      simp only [ObjectDb.eval_bind, eval_collectLines, Outcome.ok_bind, ObjectDb.eval_pure, ih,
        List.append_assoc, List.singleton_append]
      rfl

private theorem eval_typeChangeLines (origin : DiffLineOrigin) (lacksNewline : Bool) (count index : ℕ)
    (lines : List Bytes) :
    db.eval (typeChangeLines origin lacksNewline count index lines) =
      .ok (sideLines origin lacksNewline count index lines) := by
  induction lines generalizing index with
  | nil => rfl
  | cons content lines ih =>
    simp only [typeChangeLines, sideLines, ObjectDb.eval_bind, ObjectDb.eval_check, Outcome.ok_bind, ih,
      ObjectDb.eval_pure]

/-- `populate_type_change_hunks` keeps the first hunks. -/
theorem eval_typeChangeHunks (sides : List (DiffLineOrigin × Bytes)) (used : Used) (hunks : List DiffHunk) :
    db.eval (typeChangeHunks opts sides used hunks) =
      .ok (hunks ++ (cut opts (sides.map sideHunk) used).1, (cut opts (sides.map sideHunk) used).2) := by
  induction sides generalizing used hunks with
  | nil =>
    rw [typeChangeHunks, List.map_nil, cut, List.append_nil]
    rfl
  | cons side sides ih =>
    obtain ⟨origin, data⟩ := side
    rw [List.map_cons, sideHunk, cut]
    simp only [typeChangeHunks, ObjectDb.eval_bind, ObjectDb.eval_check, Outcome.ok_bind]
    cases hexceeds : used.exceeds opts (lineCount data) with
    | some limit =>
      dsimp only
      rw [ObjectDb.eval_pure, List.append_nil]
    | none =>
      simp only [ObjectDb.eval_bind, eval_typeChangeLines, Outcome.ok_bind, ih, List.append_assoc,
        List.singleton_append]

private theorem eval_populateData (hfresh : file.hunks = []) (old new : Bytes) :
    db.eval (populateData gix opts file used old new) =
      .ok ((dataContents gix opts.format opts.contextLines file old new).within opts used) := by
  have hcadence : db.eval (checkComparisonCadence old new) = .ok () := by
    simp only [checkComparisonCadence, ObjectDb.eval_bind, eval_checks, Outcome.ok_bind, ObjectDb.eval_check]
  have hempty : ∀ file : DiffFile, file.hunks = [] →
      file.withHunks (cut opts [] used) = (file, used, .complete) := by
    intro file hfile
    rw [cut, DiffFile.withHunks, ← hfile]
  rw [populateData, dataContents]
  split
  · exact congrArg Outcome.ok (hempty { file with binary := true } hfresh).symm
  rw [ObjectDb.eval_bind, hcadence, Outcome.ok_bind]
  split
  · rw [ObjectDb.eval_map, eval_typeChangeHunks, Outcome.ok_bind, hfresh, List.nil_append]
    rfl
  split
  · exact congrArg Outcome.ok (hempty
      { file with
        additions := some (gix (linesWithLf old) (linesWithLf new)).additions
        deletions := some (gix (linesWithLf old) (linesWithLf new)).removals } hfresh).symm
  · rw [ObjectDb.eval_map, eval_consume, Outcome.ok_bind, List.nil_append]
    rfl

/-- `populate_content` finds out what the file's contents are and keeps what the limits allow. -/
theorem eval_populateContent (hfresh : file.hunks = []) :
    db.eval (populateContent gix opts file used) =
      db.eval (fileContents gix opts.format opts.contextLines opts.maxObjectBytes file) >>= fun contents ↦
        .ok (contents.within opts used) := by
  rw [populateContent, fileContents]
  split
  · rw [ObjectDb.eval_pure, ObjectDb.eval_pure, Outcome.ok_bind]
    simp [Contents.within, DiffFile.withHunks, cut, hfresh]
  simp only [ObjectDb.eval_bind, Outcome.bind_assoc]
  congr 1
  funext old
  congr 1
  funext new
  cases old <;> cases new <;>
    simp only [eval_populateData hfresh, ObjectDb.eval_pure, Outcome.ok_bind] <;> rfl

end Eval

end Gitility.Diff
