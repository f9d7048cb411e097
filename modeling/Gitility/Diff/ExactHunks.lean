import Gitility.Base.Alignment
import Gitility.Diff.Hunks

/-!
# Hunks are an exact patch

The hunks that `populate_content` assembles turn the old payload into the new one and back, byte for byte. Of
`gix-diff` this uses that its windows are those of an alignment of the lines.
-/

namespace Gitility.Diff

/-! ### Applying hunks -/

/-- The sides a line stands on. -/
def DiffLineKind.on : Side → DiffLineKind → Bool
  | .old, kind => kind ≠ .add
  | .new, kind => kind ≠ .remove

/-- The origin that `consume_hunk` gives a line. -/
def DiffLineKind.origin : DiffLineKind → DiffLineOrigin
  | .context => .context
  | .add => .addition
  | .remove => .deletion

/-- The sides a line stands on. -/
def DiffLineOrigin.on : Side → DiffLineOrigin → Bool
  | .old, origin => origin ≠ .addition
  | .new, origin => origin ≠ .deletion

/-- The bytes of a line in its payload. -/
def DiffLine.bytes (line : DiffLine) : Bytes := line.content ++ if line.noNewline then [] else [0x0a]

/-- The number of a line on a side. -/
def DiffLine.number (side : Side) (line : DiffLine) : Option ℕ := side.pick line.oldLine line.newLine

namespace DiffHunk

variable (hunk : DiffHunk)

/-- Where the hunk says it starts on a side. -/
def start (side : Side) : ℕ := side.pick hunk.oldStart hunk.newStart

/-- How many lines of a side the hunk says it has. -/
def count (side : Side) : ℕ := side.pick hunk.oldLines hunk.newLines

/-- The number of lines before the hunk. Without lines of a side it stands behind the line it names. -/
def position (side : Side) : ℕ := if hunk.count side = 0 then hunk.start side else hunk.start side - 1

/-- The lines of a side. -/
def sideLines (side : Side) : List Bytes := (hunk.lines.filter (·.origin.on side)).map DiffLine.bytes

/-- The hunk as an edit of a side. -/
def edit (side : Side) : Edit Bytes := ⟨hunk.position side, hunk.sideLines side, hunk.sideLines side.other⟩

end DiffHunk

/-- Hunks, applied to a payload of one side. -/
def patch (side : Side) (hunks : List DiffHunk) (payload : Bytes) : Option Bytes :=
  (Edit.apply (hunks.map (·.edit side)) (linesWithLf payload)).map List.flatten

/-- The hunks of a file turn each payload into the other, their lines and counts are those of the payloads, and
the two numbers of the file are those of its hunks. -/
structure ExactPatch (old new : Bytes) (file : DiffFile) : Prop where
  forth : patch .old file.hunks old = some new
  back : patch .new file.hunks new = some old
  counts : ∀ hunk ∈ file.hunks, ∀ side, hunk.count side = hunk.lines.countP (·.origin.on side)
  sides : ∀ hunk ∈ file.hunks, ∀ line ∈ hunk.lines, ∀ side, (line.number side).isSome = line.origin.on side
  numbers : ∀ hunk ∈ file.hunks, ∀ side,
    hunk.lines.filterMap (·.number side) = List.range' (hunk.position side + 1) (hunk.count side)
  places : ∀ hunk ∈ file.hunks, ∀ line ∈ hunk.lines, ∀ side, ∀ number ∈ line.number side,
    1 ≤ number ∧ (linesWithLf (side.pick old new))[number - 1]? = some line.bytes
  additions : file.additions = some ((file.hunks.flatMap (·.lines)).countP (·.origin = .addition))
  deletions : file.deletions = some ((file.hunks.flatMap (·.lines)).countP (·.origin = .deletion))

/-! ### What `gix-diff` hands over -/

/-- The header of a window. -/
def headerOf (window : (Side → ℕ) × List (DiffLineKind × Bytes)) : HunkHeader where
  beforeHunkStart := window.1 .old + 1
  beforeHunkLen := (Alignment.items DiffLineKind.on .old window.2).length
  afterHunkStart := window.1 .new + 1
  afterHunkLen := (Alignment.items DiffLineKind.on .new window.2).length

/-- The windows are those of an alignment of both sides, with 1-based starts and the lengths of both sides, and
the two counts are those of the alignment. -/
def Unified (old new : List Bytes) (computed : BlobDiff) (contextLines : ℕ) : Prop :=
  ∃ script windows, Alignment.items DiffLineKind.on .old script = old ∧
    Alignment.items DiffLineKind.on .new script = new ∧
    Alignment.Windowed DiffLineKind.on (fun _ ↦ 0) script windows ∧
    computed.windows contextLines = windows.map (fun window ↦ (headerOf window, window.2)) ∧
    computed.additions = script.countP (·.1 = .add) ∧ computed.removals = script.countP (·.1 = .remove)

/-! ### Lines -/

section Lines

variable {data line : Bytes} {i : ℕ}

/-- The flag of a line that lacks its newline. -/
theorem lacks_iff (hlines : (linesWithLf data).length < 2 ^ 32) (h : (linesWithLf data)[i]? = some line) :
    (lacksTrailingNewline data ∧ i + 1 = lineCount data) ↔ line.getLast? ≠ some 0x0a := by
  have hcount : lineCount data = (linesWithLf data).length := Nat.min_eq_left (Nat.le_pred_of_lt hlines)
  have hlt := (List.getElem?_eq_some_iff.mp h).1
  have hdata : data ≠ [] := by
    rintro rfl
    simp [linesWithLf, lines] at h
  rw [Ne, getLast?_line h, hcount, lacksTrailingNewline, decide_eq_true_eq]
  change i < (lines 0x0a data).length at hlt
  change (_ ∧ i + 1 = (lines 0x0a data).length) ↔ _
  constructor
  · rintro ⟨⟨-, hlacks⟩, hlast⟩ (hmore | hends)
    · omega
    · exact hlacks hends
  · intro hnot
    exact ⟨⟨hdata, fun hends ↦ hnot (.inr hends)⟩, by
      by_contra hne
      exact hnot (.inl (by omega))⟩

/-- Content and flag restore a line. -/
theorem bytes_eq (noNewline : Bool) (h : noNewline = true ↔ line.getLast? ≠ some 0x0a) :
    (stripNewline line ++ if noNewline then [] else [0x0a]) = line := by
  rw [stripNewline]
  by_cases hends : line.getLast? = some 0x0a
  · have hflag : ¬ noNewline = true := fun hflag ↦ h.mp hflag hends
    rw [if_pos hends, if_neg hflag]
    exact List.dropLast_append_getLast? _ hends
  · rw [if_neg hends, if_pos (h.mpr hends), List.append_nil]

end Lines

/-! ### The lines of a hunk -/

/-- A line of a hunk says what it is, and where, of an item behind the items before it. -/
structure LineOf (front : List (DiffLineKind × Bytes)) (item : DiffLineKind × Bytes) (line : DiffLine) : Prop where
  origin : line.origin = item.1.origin
  bytes : line.bytes = item.2
  number : ∀ side, line.number side =
    if item.1.on side then some ((Alignment.items DiffLineKind.on side front).length + 1) else none

/-- The lines of consecutive items. -/
inductive LinesOf : List (DiffLineKind × Bytes) → List (DiffLineKind × Bytes) → List DiffLine → Prop
  | nil {front : List (DiffLineKind × Bytes)} : LinesOf front [] []
  | cons {front rest : List (DiffLineKind × Bytes)} {item : DiffLineKind × Bytes} {line : DiffLine}
    {lines : List DiffLine} (h : LineOf front item line) (hrest : LinesOf (front ++ [item]) rest lines) :
    LinesOf front (item :: rest) (line :: lines)

@[simp] private theorem DiffLineKind.on_origin (side : Side) (kind : DiffLineKind) :
    kind.origin.on side = kind.on side := by
  cases side <;> cases kind <;> rfl

private theorem DiffLineKind.origin_inj {kind kind' : DiffLineKind} : kind.origin = kind'.origin ↔ kind = kind' := by
  cases kind <;> cases kind' <;> decide

namespace LinesOf

variable {front window : List (DiffLineKind × Bytes)} {lines : List DiffLine}

private theorem sideLines (h : LinesOf front window lines) (side : Side) :
    (lines.filter (·.origin.on side)).map DiffLine.bytes = Alignment.items DiffLineKind.on side window := by
  induction h with
  | nil => rfl
  | cons h hrest ih =>
    rw [Alignment.items_cons, List.filter_cons, h.origin, DiffLineKind.on_origin]
    split
    · rw [List.map_cons, h.bytes, ih]
    · exact ih

private theorem countP_on (h : LinesOf front window lines) (side : Side) :
    lines.countP (·.origin.on side) = (Alignment.items DiffLineKind.on side window).length := by
  rw [← h.sideLines side, List.length_map, List.countP_eq_length_filter]

private theorem countP_origin (h : LinesOf front window lines) (p : DiffLineOrigin → Bool) :
    lines.countP (p ·.origin) = window.countP (p ·.1.origin) := by
  induction h with
  | nil => rfl
  | cons h hrest ih => rw [List.countP_cons, List.countP_cons, ih, h.origin]

private theorem isSome_number (h : LinesOf front window lines) :
    ∀ line ∈ lines, ∀ side, (line.number side).isSome = line.origin.on side := by
  induction h with
  | nil => exact fun line hline ↦ absurd hline List.not_mem_nil
  | cons h hrest ih =>
    intro line hline side
    rcases List.mem_cons.mp hline with rfl | hline
    · rw [h.number, h.origin, DiffLineKind.on_origin]
      split
      · next hon =>
        rw [hon]
        rfl
      · next hon =>
        rw [Bool.not_eq_true] at hon
        rw [hon]
        rfl
    · exact ih line hline side

private theorem filterMap_number (h : LinesOf front window lines) (side : Side) :
    lines.filterMap (·.number side) = List.range' ((Alignment.items DiffLineKind.on side front).length + 1)
      (Alignment.items DiffLineKind.on side window).length := by
  induction h with
  | nil => rfl
  | @cons front rest item line lines h hrest ih =>
    rw [Alignment.items_append, Alignment.items_cons] at ih
    rw [List.filterMap_cons, h.number, Alignment.items_cons]
    split at ih
    · next hon =>
      rw [if_pos hon, if_pos hon, List.length_cons, List.range'_succ, ih]
      simp [Alignment.items]
    · next hon =>
      rw [if_neg hon, if_neg hon, ih]
      simp [Alignment.items]

/-- A line stands at its number. -/
theorem getElem?_number (h : LinesOf front window lines) :
    ∀ line ∈ lines, ∀ side, ∀ number ∈ line.number side,
      1 ≤ number ∧ (Alignment.items DiffLineKind.on side (front ++ window))[number - 1]? = some line.bytes := by
  induction h with
  | nil => exact fun line hline ↦ absurd hline List.not_mem_nil
  | cons h hrest ih =>
    intro line hline side number hnumber
    rcases List.mem_cons.mp hline with rfl | hline
    · rw [h.number, Option.mem_def] at hnumber
      split at hnumber
      · next hon =>
        cases hnumber
        refine ⟨Nat.le_add_left 1 _, ?_⟩
        rw [Nat.add_sub_cancel, h.bytes]
        exact Alignment.getElem?_items _ _ hon
      · cases hnumber
    · rw [List.append_cons]
      exact ih line hline side number hnumber

end LinesOf

/-! ### What the code produces -/

section Produced

variable {old new : Bytes}

/-- The line that `consume_hunk` makes of an item, and the two numbers behind it. -/
theorem lineOf_line (hshort : ∀ side : Side, (linesWithLf (side.pick old new)).length < 2 ^ 32 - 1)
    {front back : List (DiffLineKind × Bytes)} {kind : DiffLineKind} {content : Bytes}
    (hscript : ∀ side, Alignment.items DiffLineKind.on side (front ++ (kind, content) :: back) =
      linesWithLf (side.pick old new)) :
    let result := (HunkCollector.ofSides old new).line
      ((Alignment.items DiffLineKind.on .old front).length + 1)
      ((Alignment.items DiffLineKind.on .new front).length + 1) content kind
    LineOf front (kind, content) result.1 ∧
      result.2 = ((Alignment.items DiffLineKind.on .old (front ++ [(kind, content)])).length + 1,
        (Alignment.items DiffLineKind.on .new (front ++ [(kind, content)])).length + 1) := by
  intro result
  have hnext : ∀ side, kind.on side →
      (Alignment.items DiffLineKind.on side (front ++ [(kind, content)])).length + 1 =
        nextLine ((Alignment.items DiffLineKind.on side front).length + 1) := by
    intro side hon
    have hlt := hshort side
    rw [← hscript side, Alignment.items_append, List.length_append, Alignment.items_cons, if_pos hon,
      List.length_cons] at hlt
    rw [Alignment.items_append, Alignment.items_cons, if_pos hon, List.length_append, nextLine]
    have hle : (Alignment.items DiffLineKind.on side front).length + 1 + 1 ≤ u32Max := by
      rw [u32Max]
      omega
    rw [Nat.min_eq_left hle]
    rfl
  have hsame : ∀ side, ¬ kind.on side →
      (Alignment.items DiffLineKind.on side (front ++ [(kind, content)])).length =
        (Alignment.items DiffLineKind.on side front).length := by
    intro side hon
    rw [Alignment.items_append, Alignment.items_cons, if_neg hon, List.length_append]
    rfl
  have hflag : ∀ side, kind.on side →
      ((lacksTrailingNewline (side.pick old new) ∧
        (Alignment.items DiffLineKind.on side front).length + 1 = lineCount (side.pick old new)) ↔
          content.getLast? ≠ some 0x0a) := by
    intro side hon
    refine lacks_iff (Nat.lt_of_lt_of_le (hshort side) (Nat.sub_le _ _)) ?_
    rw [← hscript side]
    exact Alignment.getElem?_items front back hon
  cases kind with
  | context =>
    refine ⟨⟨rfl, bytes_eq _ ?_, fun side ↦ ?_⟩, ?_⟩
    · exact decide_eq_true_iff.trans ((or_congr (hflag .old rfl) (hflag .new rfl)).trans or_self_iff)
    · cases side <;> rfl
    · rw [hnext .old rfl, hnext .new rfl]
      rfl
  | add =>
    refine ⟨⟨rfl, bytes_eq _ ?_, fun side ↦ ?_⟩, ?_⟩
    · exact decide_eq_true_iff.trans (hflag .new rfl)
    · cases side <;> rfl
    · rw [hsame .old Bool.false_ne_true, hnext .new rfl]
      rfl
  | remove =>
    refine ⟨⟨rfl, bytes_eq _ ?_, fun side ↦ ?_⟩, ?_⟩
    · exact decide_eq_true_iff.trans (hflag .old rfl)
    · cases side <;> rfl
    · rw [hnext .old rfl, hsame .new Bool.false_ne_true]
      rfl

/-- The lines that `consume_hunk` makes of a window. -/
theorem linesOf_numbered (hshort : ∀ side : Side, (linesWithLf (side.pick old new)).length < 2 ^ 32 - 1)
    {front window back : List (DiffLineKind × Bytes)}
    (hscript : ∀ side, Alignment.items DiffLineKind.on side (front ++ (window ++ back)) =
      linesWithLf (side.pick old new)) :
    LinesOf front window ((HunkCollector.ofSides old new).numbered
      ((Alignment.items DiffLineKind.on .old front).length + 1)
      ((Alignment.items DiffLineKind.on .new front).length + 1) window) := by
  induction window generalizing front with
  | nil => exact .nil
  | cons item window ih =>
    obtain ⟨kind, content⟩ := item
    obtain ⟨hof, hnext⟩ := lineOf_line hshort hscript
    rw [HunkCollector.numbered_cons, hnext]
    refine .cons hof ?_
    exact ih (fun side ↦ by rw [← List.append_cons, ← List.cons_append, hscript])

/-- A line of one side only. -/
def sideKind : Side → DiffLineKind
  | .old => .remove
  | .new => .add

private theorem items_sideKind (side other : Side) (lines : List Bytes) :
    Alignment.items DiffLineKind.on other (lines.map (sideKind side, ·)) = if other = side then lines else [] := by
  induction lines with
  | nil => split <;> rfl
  | cons line lines ih =>
    rw [List.map_cons, Alignment.items_cons, ih]
    cases side <;> cases other <;> rfl

/-- The lines of one side of a type change. -/
theorem linesOf_sideLines (side : Side) {data : Bytes} (hshort : (linesWithLf data).length < 2 ^ 32 - 1)
    {front rest : List Bytes} (hlines : linesWithLf data = front ++ rest) :
    LinesOf (front.map (sideKind side, ·)) (rest.map (sideKind side, ·))
      (sideLines (sideKind side).origin (lacksTrailingNewline data) (lineCount data) front.length rest) := by
  induction rest generalizing front with
  | nil => exact .nil
  | cons content rest ih =>
    have hlength := congrArg List.length hlines
    rw [List.length_append, List.length_cons] at hlength
    have hnumber : min (front.length + 1) u32Max = front.length + 1 := by
      refine Nat.min_eq_left ?_
      rw [u32Max]
      omega
    have hcontent : (linesWithLf data)[front.length]? = some content := by
      rw [hlines, List.getElem?_append_right (Nat.le_refl _), Nat.sub_self]
      rfl
    have hrest := @ih (front ++ [content]) (by rw [hlines, List.append_assoc, List.singleton_append])
    rw [List.map_append, List.length_append] at hrest
    rw [sideLines, hnumber]
    refine .cons ⟨rfl, bytes_eq _ ?_, fun other ↦ ?_⟩ hrest
    · exact decide_eq_true_iff.trans (lacks_iff (Nat.lt_of_lt_of_le hshort (Nat.sub_le _ _)) hcontent)
    · rw [items_sideKind]
      cases side <;> cases other <;> rfl

end Produced

/-! ### Exactness of a hunk -/

/-- A hunk is that of a window behind other items of an alignment. -/
structure HunkOf (old new : Bytes) (front window : List (DiffLineKind × Bytes)) (hunk : DiffHunk) : Prop where
  lines : LinesOf front window hunk.lines
  count : ∀ side, hunk.count side = (Alignment.items DiffLineKind.on side window).length
  position : ∀ side, hunk.position side = (Alignment.items DiffLineKind.on side front).length
  begins : ∀ side,
    Alignment.items DiffLineKind.on side (front ++ window) <+: linesWithLf (side.pick old new)

namespace HunkOf

variable {old new : Bytes} {front window : List (DiffLineKind × Bytes)} {hunk : DiffHunk}

private theorem edit (h : HunkOf old new front window hunk) (side : Side) :
    hunk.edit side = ⟨(Alignment.items DiffLineKind.on side front).length,
      Alignment.items DiffLineKind.on side window, Alignment.items DiffLineKind.on side.other window⟩ := by
  rw [DiffHunk.edit, h.position, DiffHunk.sideLines, DiffHunk.sideLines, h.lines.sideLines, h.lines.sideLines]

private theorem count_lines (h : HunkOf old new front window hunk) (side : Side) :
    hunk.count side = hunk.lines.countP (·.origin.on side) := by
  rw [h.count, h.lines.countP_on]

private theorem numbers (h : HunkOf old new front window hunk) (side : Side) :
    hunk.lines.filterMap (·.number side) = List.range' (hunk.position side + 1) (hunk.count side) := by
  rw [h.lines.filterMap_number, h.position, h.count]

private theorem places (h : HunkOf old new front window hunk) :
    ∀ line ∈ hunk.lines, ∀ side, ∀ number ∈ line.number side,
      1 ≤ number ∧ (linesWithLf (side.pick old new))[number - 1]? = some line.bytes := by
  intro line hline side number hnumber
  obtain ⟨hpos, hfound⟩ := h.lines.getElem?_number line hline side number hnumber
  obtain ⟨rest, hrest⟩ := h.begins side
  refine ⟨hpos, ?_⟩
  rw [← hrest, List.getElem?_append_left (List.getElem?_eq_some_iff.mp hfound).1, hfound]

end HunkOf

section Exact

variable {old new : Bytes}

/-- The hunk of one side of a type change is that of all its lines. -/
theorem hunkOf_sideHunk (side : Side) (hshort : (linesWithLf (side.pick old new)).length < 2 ^ 32 - 1) :
    HunkOf old new [] ((linesWithLf (side.pick old new)).map (sideKind side, ·))
      (sideHunk ((sideKind side).origin, side.pick old new)).1 := by
  have hcount : lineCount (side.pick old new) = (linesWithLf (side.pick old new)).length :=
    Nat.min_eq_left (Nat.le_of_lt hshort)
  have hlines := @linesOf_sideLines side _ hshort [] _ rfl
  refine ⟨?_, fun other ↦ ?_, fun other ↦ ?_, fun other ↦ ?_⟩
  · cases side <;> exact hlines
  · rw [items_sideKind]
    cases side <;> cases other <;> first | exact hcount | rfl
  · have hzero : ∀ count, (if count = 0 then zeroSideStart 1 count else zeroSideStart 1 count - 1) = 0 := by
      intro count
      rw [zeroSideStart]
      split <;> rfl
    cases side <;> cases other <;> exact hzero _
  · rw [List.nil_append, items_sideKind]
    split
    · next heq =>
      rw [heq]
    · exact List.nil_prefix

/-- The hunk of a window of an alignment. -/
theorem hunkOf_hunk (hshort : ∀ side : Side, (linesWithLf (side.pick old new)).length < 2 ^ 32 - 1)
    {window : (Side → ℕ) × List (DiffLineKind × Bytes)} {front back : List (DiffLineKind × Bytes)}
    (hplace : ∀ side, window.1 side = (Alignment.items DiffLineKind.on side front).length)
    (hscript : ∀ side, Alignment.items DiffLineKind.on side (front ++ (window.2 ++ back)) =
      linesWithLf (side.pick old new)) :
    HunkOf old new front window.2 ((HunkCollector.ofSides old new).hunk (headerOf window, window.2)) := by
  refine ⟨?_, fun side ↦ ?_, fun side ↦ ?_, fun side ↦ ?_⟩
  · have hlines := linesOf_numbered hshort hscript
    rw [← hplace, ← hplace] at hlines
    exact hlines
  · cases side <;> rfl
  · have hstart : ∀ start lines, (if lines = 0 then zeroSideStart (start + 1) lines
        else zeroSideStart (start + 1) lines - 1) = start := by
      intro start lines
      rw [zeroSideStart]
      split <;> rfl
    rw [← hplace]
    cases side <;> exact hstart _ _
  · rw [← hscript side, ← List.append_assoc, Alignment.items_append side (front ++ window.2)]
    exact List.prefix_append _ _

/-- Hunks of windows, with the two numbers of the file. -/
theorem exactPatch_of_hunkOf {file : DiffFile}
    (hhunks : ∀ hunk ∈ file.hunks, ∃ front window, HunkOf old new front window hunk)
    (hpatch : ∀ side, Edit.apply (file.hunks.map (·.edit side)) (linesWithLf (side.pick old new)) =
      some (linesWithLf (side.other.pick old new)))
    (hadditions : file.additions = some ((file.hunks.flatMap (·.lines)).countP (·.origin = .addition)))
    (hdeletions : file.deletions = some ((file.hunks.flatMap (·.lines)).countP (·.origin = .deletion))) :
    ExactPatch old new file where
  forth := by
    have happly := hpatch .old
    simp only [Side.pick, Side.other] at happly
    rw [patch, happly, Option.map_some, linesWithLf, flatten_lines]
  back := by
    have happly := hpatch .new
    simp only [Side.pick, Side.other] at happly
    rw [patch, happly, Option.map_some, linesWithLf, flatten_lines]
  counts := fun hunk hhunk side ↦ by
    obtain ⟨front, window, hof⟩ := hhunks hunk hhunk
    exact hof.count_lines side
  sides := fun hunk hhunk ↦ by
    obtain ⟨front, window, hof⟩ := hhunks hunk hhunk
    exact hof.lines.isSome_number
  numbers := fun hunk hhunk side ↦ by
    obtain ⟨front, window, hof⟩ := hhunks hunk hhunk
    exact hof.numbers side
  places := fun hunk hhunk ↦ by
    obtain ⟨front, window, hof⟩ := hhunks hunk hhunk
    exact hof.places
  additions := hadditions
  deletions := hdeletions

/-- The hunks of a type change remove one payload and insert the other. -/
theorem exactPatch_typeChange (hshort : ∀ side : Side, (linesWithLf (side.pick old new)).length < 2 ^ 32 - 1)
    {file : DiffFile} (hhunks : file.hunks = ([(.deletion, old), (.addition, new)].map sideHunk).map Prod.fst)
    (hadditions : file.additions = some (lineCount new)) (hdeletions : file.deletions = some (lineCount old)) :
    ExactPatch old new file := by
  have hold := hunkOf_sideHunk .old (hshort .old)
  have hnew := hunkOf_sideHunk .new (hshort .new)
  have hcount : ∀ side : Side, lineCount (side.pick old new) = (linesWithLf (side.pick old new)).length :=
    fun side ↦ Nat.min_eq_left (Nat.le_of_lt (hshort side))
  have hmarked : ∀ origin, (file.hunks.flatMap (·.lines)).countP (·.origin = origin) =
      ((linesWithLf (Side.old.pick old new)).map (sideKind .old, ·)).countP (·.1.origin = origin) +
        ((linesWithLf (Side.new.pick old new)).map (sideKind .new, ·)).countP (·.1.origin = origin) := by
    intro origin
    rw [← hold.lines.countP_origin (· = origin), ← hnew.lines.countP_origin (· = origin), hhunks,
      ← List.countP_append]
    simp [Side.pick, sideKind, DiffLineKind.origin]
  refine exactPatch_of_hunkOf ?_ (fun side ↦ ?_) ?_ ?_
  · rw [hhunks]
    intro hunk hhunk
    rcases List.mem_cons.mp hhunk with rfl | hhunk
    · exact ⟨_, _, hold⟩
    · rw [List.mem_singleton.mp hhunk]
      exact ⟨_, _, hnew⟩
  · have hedits : file.hunks.map (·.edit side) =
        [(sideHunk ((sideKind .old).origin, Side.old.pick old new)).1.edit side,
          (sideHunk ((sideKind .new).origin, Side.new.pick old new)).1.edit side] := by
      rw [hhunks]
      rfl
    rw [hedits, hold.edit, hnew.edit]
    simp only [items_sideKind]
    cases side with
    | old => exact (Edit.apply_replace _ _).1
    | new => exact (Edit.apply_replace _ _).2
  · rw [hadditions, hmarked, List.countP_map, List.countP_map]
    have hlength := hcount .new
    simp only [Side.pick] at hlength
    simp [Function.comp_def, Side.pick, sideKind, DiffLineKind.origin, hlength]
  · rw [hdeletions, hmarked, List.countP_map, List.countP_map]
    have hlength := hcount .old
    simp only [Side.pick] at hlength
    simp [Function.comp_def, Side.pick, sideKind, DiffLineKind.origin, hlength]

/-- The hunks of the windows of an alignment. -/
theorem exactPatch_windows (hshort : ∀ side : Side, (linesWithLf (side.pick old new)).length < 2 ^ 32 - 1)
    {computed : BlobDiff} {contextLines : ℕ}
    (h : Unified (linesWithLf old) (linesWithLf new) computed contextLines) {file : DiffFile}
    (hhunks : file.hunks =
      ((computed.windows contextLines).map (HunkCollector.ofSides old new).counted).map Prod.fst)
    (hadditions : file.additions = some computed.additions)
    (hdeletions : file.deletions = some computed.removals) : ExactPatch old new file := by
  obtain ⟨script, windows, hold, hnew, hwindowed, hwindows, hadds, hremovals⟩ := h
  have hsides : ∀ side : Side, Alignment.items DiffLineKind.on side script =
      linesWithLf (side.pick old new) := by
    intro side
    cases side with
    | old => exact hold
    | new => exact hnew
  have hfile : file.hunks =
      windows.map fun window ↦ (HunkCollector.ofSides old new).hunk (headerOf window, window.2) := by
    rw [hhunks, hwindows, List.map_map, List.map_map]
    rfl
  have hof : ∀ window ∈ windows, ∃ front, (∀ side, window.1 side =
      (Alignment.items DiffLineKind.on side front).length) ∧
      HunkOf old new front window.2 ((HunkCollector.ofSides old new).hunk (headerOf window, window.2)) := by
    intro window hwindow
    obtain ⟨front, back, hscript, hplace⟩ := Alignment.exists_front hwindowed hwindow
    have hplace' : ∀ side, window.1 side = (Alignment.items DiffLineKind.on side front).length := by
      intro side
      rw [hplace, Nat.zero_add]
    exact ⟨front, hplace', hunkOf_hunk hshort hplace' fun side ↦ by rw [← hscript, hsides]⟩
  have hmarked : ∀ kind : DiffLineKind, kind ≠ .context →
      script.countP (·.1 = kind) = (file.hunks.flatMap (·.lines)).countP (·.origin = kind.origin) := by
    intro kind hkind
    have hone : ∀ mark : DiffLineKind, (∀ side, mark.on side) → decide (mark = kind) = false := by
      intro mark hboth
      rw [decide_eq_false_iff_not]
      rintro rfl
      cases mark with
      | context => exact hkind rfl
      | add => exact Bool.false_ne_true (hboth .old)
      | remove => exact Bool.false_ne_true (hboth .new)
    rw [Alignment.countP_windows hwindowed hone, hfile, List.flatMap_map, List.countP_flatMap,
      List.countP_flatMap]
    congr 1
    refine List.map_congr_left fun window hwindow ↦ ?_
    obtain ⟨front, -, hwindow⟩ := hof window hwindow
    dsimp only [Function.comp_apply]
    rw [hwindow.lines.countP_origin (· = kind.origin)]
    refine List.countP_congr fun item _ ↦ ?_
    rw [decide_eq_true_eq, decide_eq_true_eq, DiffLineKind.origin_inj]
  refine exactPatch_of_hunkOf ?_ (fun side ↦ ?_) ?_ ?_
  · rw [hfile]
    intro hunk hhunk
    obtain ⟨window, hwindow, rfl⟩ := List.mem_map.mp hhunk
    obtain ⟨front, -, hof⟩ := hof window hwindow
    exact ⟨front, window.2, hof⟩
  · have hedits : file.hunks.map (·.edit side) = windows.map (Alignment.edit DiffLineKind.on side) := by
      rw [hfile, List.map_map]
      refine List.map_congr_left fun window hwindow ↦ ?_
      obtain ⟨front, hplace, hof⟩ := hof window hwindow
      exact (hof.edit side).trans (by rw [← hplace, Alignment.edit])
    rw [hedits, ← hsides side, ← hsides side.other]
    exact Alignment.apply_edits hwindowed side
  · rw [hadditions, hadds, hmarked .add DiffLineKind.noConfusion]
    rfl
  · rw [hdeletions, hremovals, hmarked .remove DiffLineKind.noConfusion]
    rfl

/-- The contents of two payloads that are not binary. -/
theorem exactPatch_dataContents {gix : GixBlobDiff} {contextLines : ℕ} {file : DiffFile}
    (hold : ¬ Search.isBinaryPayload old) (hnew : ¬ Search.isBinaryPayload new)
    (hshort : ∀ side : Side, (linesWithLf (side.pick old new)).length < 2 ^ 32 - 1)
    (hgix : Unified (linesWithLf old) (linesWithLf new) (gix (linesWithLf old) (linesWithLf new)) contextLines) :
    let contents := dataContents gix .patch contextLines file old new
    contents.oversize = false ∧
      ExactPatch old new { contents.file with hunks := contents.hunks.map Prod.fst } := by
  intro contents
  have htext : ¬ (Search.isBinaryPayload old ∨ Search.isBinaryPayload new) := not_or.mpr ⟨hold, hnew⟩
  by_cases hstatus : file.status = .typeChanged
  · have hcontents : contents =
        ⟨{ file with additions := some (lineCount new), deletions := some (lineCount old) },
          [(.deletion, old), (.addition, new)].map sideHunk, false⟩ := by
      simp only [contents, dataContents, if_neg htext, hstatus, and_self, if_true]
    rw [hcontents]
    exact ⟨rfl, exactPatch_typeChange hshort rfl rfl rfl⟩
  · have hcontents : contents =
        ⟨{ file with
            additions := some (gix (linesWithLf old) (linesWithLf new)).additions
            deletions := some (gix (linesWithLf old) (linesWithLf new)).removals },
          ((gix (linesWithLf old) (linesWithLf new)).windows contextLines).map
            (HunkCollector.ofSides old new).counted, false⟩ := by
      simp only [contents, dataContents, if_neg htext, hstatus, false_and, if_false]
      rfl
    rw [hcontents]
    exact ⟨rfl, exactPatch_windows hshort hgix rfl rfl rfl⟩

/-- A payload has no changes to itself. -/
theorem exactPatch_self (payload : Bytes) {file : DiffFile} (hhunks : file.hunks = [])
    (hadditions : file.additions = some 0) (hdeletions : file.deletions = some 0) :
    ExactPatch payload payload file := by
  refine exactPatch_of_hunkOf ?_ (fun side ↦ ?_) ?_ ?_
  · rw [hhunks]
    exact fun hunk hhunk ↦ absurd hhunk List.not_mem_nil
  · rw [hhunks]
    cases side <;> simp [Edit.apply, Edit.run, Side.pick, Side.other]
  · rw [hhunks, hadditions]
    rfl
  · rw [hhunks, hdeletions]
    rfl

end Exact

/-- The hunks of a file in the patch format, each with the number of lines it counts with. -/
def patchHunks (gix : GixBlobDiff) (contextLines : ℕ) (file : DiffFile) (old new : Bytes) : List Counted :=
  if file.oldOid = file.newOid then [] else (dataContents gix .patch contextLines file old new).hunks

/-- The hunks of a file whose payloads are text are an exact patch between them, if no limit is reached, and no
limit is reached exactly if the hunks fit. -/
theorem populateContent_exact {db : ObjectDb} {gix : GixBlobDiff} {opts : DiffOptions} {file : DiffFile}
    {used : Used} {old new : Bytes} (hformat : opts.format = .patch) (hfresh : file.hunks = [])
    (hreadOld : db.eval (readDiffBlob opts.maxObjectBytes file.oldOid) = .ok (.data old))
    (hreadNew : db.eval (readDiffBlob opts.maxObjectBytes file.newOid) = .ok (.data new))
    (hold : ¬ Search.isBinaryPayload old) (hnew : ¬ Search.isBinaryPayload new)
    (hshort : ∀ side : Side, (linesWithLf (side.pick old new)).length < 2 ^ 32 - 1)
    (hgix : Unified (linesWithLf old) (linesWithLf new) (gix (linesWithLf old) (linesWithLf new))
      opts.contextLines) :
    ∃ file' used' outcome, db.eval (populateContent gix opts file used) = .ok (file', used', outcome) ∧
      ((∀ limit, outcome ≠ .stopped limit) → outcome = .complete ∧ ExactPatch old new file') ∧
      (used.Within opts → ((∀ limit, outcome ≠ .stopped limit) ↔
        (used.addAll (patchHunks gix opts.contextLines file old new)).Within opts)) := by
  rw [eval_populateContent hfresh, hformat, fileContents, patchHunks]
  by_cases hsame : file.oldOid = file.newOid
  · have hread := hreadOld.symm.trans (hsame ▸ hreadNew)
    cases hread
    rw [if_pos hsame, if_pos hsame, ObjectDb.eval_pure, Outcome.ok_bind]
    refine ⟨_, _, _, rfl, fun _ ↦ ⟨rfl, exactPatch_self old rfl rfl rfl⟩, fun hused ↦ ?_⟩
    refine iff_of_true (fun limit hstopped ↦ ?_) hused
    cases hstopped
  · rw [if_neg hsame, if_neg hsame]
    simp only [ObjectDb.eval_bind, hreadOld, hreadNew, Outcome.ok_bind, ObjectDb.eval_pure]
    obtain ⟨hsize, hexact⟩ := @exactPatch_dataContents old new gix opts.contextLines file hold hnew hshort hgix
    rw [Contents.within, hsize]
    refine ⟨_, _, _, rfl, fun houtcome ↦ ?_, fun hused ↦ cut_complete_iff hused⟩
    have hcut := cut_complete houtcome
    refine ⟨congrArg (·.2.2) hcut, ?_⟩
    have hkept : (cut opts _ used).1 = List.map Prod.fst _ := congrArg Prod.fst hcut
    rw [← hkept] at hexact
    exact hexact

/-- The lines that both sides start with are context, and the others are replaced. -/
def sampleDiff : GixBlobDiff := fun old new ↦
  let shared := ((old.zip new).takeWhile fun pair ↦ pair.1 = pair.2).length
  { additions := new.length - shared
    removals := old.length - shared
    windows := fun contextLines ↦
      let first := shared - contextLines
      [(⟨first + 1, old.length - first, first + 1, new.length - first⟩,
        ((old.take shared).drop first).map (.context, ·) ++ (old.drop shared).map (.remove, ·) ++
          (new.drop shared).map (.add, ·))] }

/-- The second of two lines differs, and on one side it lacks its newline. -/
theorem unified_sampleDiff : Unified (linesWithLf (Bytes.ascii "x\na\n")) (linesWithLf (Bytes.ascii "x\nb"))
    (sampleDiff (linesWithLf (Bytes.ascii "x\na\n")) (linesWithLf (Bytes.ascii "x\nb"))) 3 := by
  let script : List (DiffLineKind × Bytes) :=
    [(.context, Bytes.ascii "x\n"), (.remove, Bytes.ascii "a\n"), (.add, Bytes.ascii "b")]
  refine ⟨script, [(fun _ ↦ 0, script)], by decide, by decide, ?_, by decide, by decide, by decide⟩
  have hwindowed := @Alignment.Windowed.window _ Bytes DiffLineKind.on (fun _ ↦ 0) [] script [] []
    (fun item hitem ↦ absurd hitem List.not_mem_nil) (.gap fun item hitem ↦ absurd hitem List.not_mem_nil)
  rw [List.nil_append, List.append_nil] at hwindowed
  exact hwindowed

/-- A blob that ends its last line, and one that does not. -/
def sampleBlobs : ObjectDb := .ofFind .sha1 none fun oid ↦ .ok <|
  if oid = sampleId 1 then some (.blob, Bytes.ascii "x\na\n")
  else if oid = sampleId 2 then some (.blob, Bytes.ascii "x\nb")
  else none

/-- The change of a file from one blob to the other. -/
def sampleFile : DiffFile :=
  ⟨.modified, some [0x66], some [0x66], some (sampleId 1), some (sampleId 2), some 0o100644, some 0o100644, none,
    none, none, false, []⟩

/-- The hunk of the change: a shared line, and one replaced by a line without a newline. -/
def sampleHunk : DiffHunk :=
  ⟨1, 2, 1, 2, none,
    [⟨.context, Bytes.ascii "x", some 1, some 1, false⟩, ⟨.deletion, Bytes.ascii "a", some 2, none, false⟩,
      ⟨.addition, Bytes.ascii "b", none, some 2, true⟩]⟩

/-- The patch of the change has one hunk, which fits the default limits. -/
theorem populateContent_exact_sample :
    sampleBlobs.eval (populateContent sampleDiff {} sampleFile {}) =
      .ok ({ sampleFile with additions := some 1, deletions := some 1, hunks := [sampleHunk] }, ⟨1, 3⟩,
        .complete) ∧
      ExactPatch (Bytes.ascii "x\na\n") (Bytes.ascii "x\nb")
        { sampleFile with additions := some 1, deletions := some 1, hunks := [sampleHunk] } := by
  have hrun : sampleBlobs.eval (populateContent sampleDiff {} sampleFile {}) =
      .ok ({ sampleFile with additions := some 1, deletions := some 1, hunks := [sampleHunk] }, ⟨1, 3⟩,
        .complete) := by
    rfl
  obtain ⟨file, used, outcome, heval, hexact, hfits⟩ := @populateContent_exact sampleBlobs sampleDiff {} sampleFile
    {} (Bytes.ascii "x\na\n") (Bytes.ascii "x\nb") rfl rfl rfl rfl (by decide) (by decide)
    (by intro side; cases side <;> decide) unified_sampleDiff
  obtain ⟨rfl, rfl, rfl⟩ : file = _ ∧ used = _ ∧ outcome = _ := by
    simpa using heval.symm.trans hrun
  exact ⟨hrun, (hexact ((hfits (by decide)).mpr (by decide))).2⟩

end Gitility.Diff
