import Gitility.File.Slice

/-!
# Capped reads and whole reads

A capped read returns a prefix of what the whole read returns: complete lines, or the open part of the first
line that it wants. A range read numbers the lines that it returns; a read without a range numbers none.
-/

namespace Gitility.File

variable {bytes whole last payload scanned rest : Bytes} {ls : List Bytes} {start stop count index : ℕ}

/-! ### Lines of the source -/

private theorem isOpen_append (hwhole : Closed lf whole) (hlast : lf ∉ last) :
    isOpen (whole ++ last) = true ↔ last ≠ [] := by
  rw [isOpen, decide_eq_true_iff]
  constructor
  · rintro ⟨hne, hend⟩ rfl
    rw [List.append_nil] at hne hend
    rcases hwhole with h | h
    · exact hne h
    · exact hend h
  · intro hne
    refine ⟨by simp [hne], fun hend ↦ hlast ?_⟩
    rw [List.getLast?_append_of_ne_nil _ hne] at hend
    exact List.mem_of_getLast? hend

/-- What `line_spans` returns after its loop. -/
def closeSpans (size : ℕ) (found : List (ℕ × ℕ) × ℕ) : List (ℕ × ℕ) :=
  if found.2 < size then found.1 ++ [(found.2, size)] else found.1

/-- The loop has found the lines before the open one. -/
theorem closeSpans_loop (start : ℕ) (last rest : Bytes) (spans : List (ℕ × ℕ)) (hlast : lf ∉ last) :
    closeSpans (start + last.length + rest.length)
        (lineSpansLoop rest (start + last.length) start spans) =
      spans ++ spansOf start (lines lf (last ++ rest)) := by
  induction rest generalizing last start spans with
  | nil =>
    rw [lineSpansLoop, closeSpans, List.append_nil]
    by_cases hne : last = []
    · simp [hne, lines, spansOf]
    · have hpos := List.length_pos_iff.mpr hne
      simp [lines_open hlast hne, spansOf, hpos]
  | cons byte rest ih =>
    by_cases hbyte : byte = lf
    · rw [lineSpansLoop, if_pos hbyte, hbyte, lines_cut hlast, spansOf, List.append_cons]
      have h := ih (start + last.length + 1) [] (spans ++ [(start, start + last.length + 1)])
        List.not_mem_nil
      simpa [Nat.add_assoc, Nat.add_comm 1] using h
    · rw [lineSpansLoop, if_neg hbyte]
      have h := ih start (last ++ [byte]) spans (by simp [hlast, Ne.symm hbyte])
      simpa [Nat.add_assoc, Nat.add_comm 1] using h

private theorem lineSpans_eq (bytes : Bytes) : lineSpans bytes = spansOf 0 (lines lf bytes) := by
  have h := closeSpans_loop 0 [] bytes [] List.not_mem_nil
  simpa [lineSpans, closeSpans] using h

private theorem length_lines (bytes : Bytes) :
    bytes.count lf + (isOpen bytes).toNat = (lines lf bytes).length := by
  induction bytes using lines_induction lf with
  | hopen last hlast =>
    rw [List.count_eq_zero_of_not_mem hlast]
    by_cases hne : last = []
    · simp [hne, lines, isOpen]
    · have hopen : isOpen last = true := (isOpen_append closed_nil hlast).mpr hne
      simp [hopen, lines_open hlast hne]
  | hcut front rest hfront ih =>
    have hopen : isOpen (front ++ lf :: rest) = isOpen rest := by
      rw [Bool.eq_iff_iff, isOpen, isOpen, decide_eq_true_iff, decide_eq_true_iff,
        List.getLast?_append_cons]
      cases rest with
      | nil => simp
      | cons byte rest =>
        rw [List.getLast?_cons_cons]
        simp
    rw [hopen, lines_cut hfront, List.count_append, List.count_eq_zero_of_not_mem hfront,
      List.count_cons_self, List.length_cons, ← ih]
    omega

private theorem lineCount_eq (bytes : Bytes) : lineCount bytes = toLine (lines lf bytes).length := by
  rw [lineCount, length_lines]

/-! ### Ranges of lines -/

/-- The lines `start` to `stop`, with their numbers. -/
def rangeOf (start stop : ℕ) (ls : List Bytes) : Taken :=
  if start ≤ min stop ls.length then
    ⟨((ls.take stop).drop (start - 1)).flatten, some start, some (min stop ls.length)⟩
  else {}

private theorem rangeOf_append {line : Bytes} (hstart : 1 ≤ start) :
    rangeOf start stop (ls ++ [line]) =
      if ls.length + 1 < start ∨ stop < ls.length + 1 then rangeOf start stop ls
      else (rangeOf start stop ls).push (ls.length + 1) line := by
  rw [rangeOf, rangeOf, List.length_append, List.length_singleton]
  split_ifs with hnew hout hold hold hout hold hold
  · have hstop : stop ≤ ls.length := by omega
    rw [List.take_append_of_le_length hstop, Nat.min_eq_left hstop, Nat.min_eq_left (by omega)]
  · omega
  · have hstop : ls.length + 1 ≤ stop := by omega
    have hfront : start - 1 ≤ ls.length := by omega
    rw [List.take_of_length_le (by simpa using hstop), List.take_of_length_le (by omega),
      List.drop_append_of_le_length hfront, Nat.min_eq_right hstop]
    simp [Taken.push]
  · have hstop : ls.length + 1 ≤ stop := by omega
    obtain rfl : start = ls.length + 1 := by omega
    rw [List.take_of_length_le (by simpa using hstop), Nat.min_eq_right hstop]
    simp [Taken.push]
  · omega
  · rfl
  · omega
  · omega

/-! ### The loop of a capped range read -/

section TakeLines

variable {lastIsPartial : Bool} {spans : List (ℕ × ℕ)} {taken result : Taken}

private theorem toLine_of_le (h : index ≤ u32Max) : toLine index = .ok index := if_pos h

/-- The bytes of a line between its span. -/
theorem slice_line {line : Bytes} : slice ((ls ++ [line]).flatten ++ rest) ls.flatten.length
    (ls.flatten.length + line.length) = line := by
  rw [slice, List.flatten_append, List.flatten_singleton, List.append_assoc, List.take_length_add_append,
    List.drop_left, List.take_left]

/-- Over complete lines the loop takes those of the range. -/
theorem takeLines_append (stop count : ℕ) (lastIsPartial : Bool) (spans : List (ℕ × ℕ)) (rest : Bytes)
    (hstart : 1 ≤ start) (hfit : ls.length ≤ u32Max)
    (hcomplete : ∀ i < ls.length, ¬ (lastIsPartial ∧ i + 1 = count))
    (hbytes : scanned = ls.flatten ++ rest) :
    takeLines scanned start stop count lastIsPartial 0 (spansOf 0 ls ++ spans) {} =
      takeLines scanned start stop count lastIsPartial ls.length spans (rangeOf start stop ls) := by
  induction ls using List.reverseRecOn generalizing spans rest with
  | nil =>
    rw [rangeOf, if_neg (by simp; omega)]
    rfl
  | append_singleton ls line ih =>
    rw [List.length_append, List.length_singleton] at hfit hcomplete ⊢
    have hlater : ∀ i < ls.length, ¬ (lastIsPartial ∧ i + 1 = count) := fun i hi ↦ hcomplete i (by omega)
    have hline := hcomplete ls.length (by omega)
    rw [spansOf_append, List.append_assoc,
      ih _ (line ++ rest) (by omega) hlater (by rw [hbytes]; simp), rangeOf_append hstart]
    simp only [spansOf, Nat.zero_add, List.cons_append, List.nil_append, takeLines, toLine_of_le hfit,
      Outcome.ok_bind]
    by_cases hout : ls.length + 1 < start ∨ stop < ls.length + 1
    · rw [if_pos hout, if_pos hout]
    · rw [if_neg hout, if_neg hout, if_neg (fun h ↦ hline h.1), if_neg hline, hbytes, slice_line]

/-- The loop numbers every line before it ends. -/
theorem length_le_of_takeLines (hcount : index + spans.length = count)
    (h : takeLines scanned start stop count lastIsPartial index spans taken = .ok result)
    (hne : spans ≠ []) : count ≤ u32Max := by
  induction spans generalizing index taken with
  | nil => exact absurd rfl hne
  | cons span spans ih =>
    obtain ⟨first, last⟩ := span
    rw [takeLines] at h
    obtain ⟨line, hline, h⟩ := Outcome.bind_eq_ok.mp h
    rw [toLine] at hline
    split at hline
    · next hfit =>
      by_cases hspans : spans = []
      · rw [hspans] at hcount
        simp at hcount
        omega
      · have hmore := List.length_pos_iff.mpr hspans
        rw [List.length_cons] at hcount
        have hinner : index + 1 ≠ count := by omega
        simp only [hinner, and_false, false_and, if_false] at h
        split at h
        · exact ih (by omega) h hspans
        · exact ih (by omega) h hspans
    · cases hline

end TakeLines

/-! ### What each read returns -/

/-- What the loop of a capped range read takes: the complete lines of the range, or the open line if that is
the first of the range. -/
def cappedRange (start stop : ℕ) (ls : List Bytes) (last : Bytes) : Taken :=
  if last ≠ [] ∧ start = ls.length + 1 then ⟨last, some start, some start⟩ else rangeOf start stop ls

/-- The answer of a range read. -/
def Taken.toSliced (taken : Taken) (totalLines : Option ℕ) (completed : Bool) : SlicedPayload where
  data := taken.data
  startLine := taken.startLine
  endLine := taken.endLine
  totalLines
  truncated := ! completed
  stoppedBy := if completed then none else some "max_bytes"

/-- The lines of a scanned part: the complete ones, and the open one if there is one. -/
theorem lines_scanned (hwhole : Closed lf whole) (hlast : lf ∉ last) :
    lines lf (whole ++ last) = lines lf whole ++ if last = [] then [] else [last] := by
  rw [lines_append hwhole]
  split
  · next hnil =>
    rw [hnil]
    rfl
  · next hne => rw [lines_open hlast hne]

private theorem takeLines_scanned (hstart : 1 ≤ start) (hle : start ≤ stop) (hwhole : Closed lf whole)
    (hlast : lf ∉ last) (hfit : (lines lf (whole ++ last)).length ≤ u32Max) :
    takeLines (whole ++ last) start stop (lines lf (whole ++ last)).length (isOpen (whole ++ last)) 0
      (spansOf 0 (lines lf (whole ++ last))) {} = .ok (cappedRange start stop (lines lf whole) last) := by
  have hopen := isOpen_append hwhole hlast
  have hbytes : whole ++ last = (lines lf whole).flatten ++ last := by rw [flatten_lines]
  rw [lines_scanned hwhole hlast] at hfit ⊢
  by_cases hne : last = []
  · rw [if_pos hne, List.append_nil] at hfit ⊢
    have hclosed : ¬ isOpen (whole ++ last) = true := fun h ↦ hopen.mp h hne
    have hloop := takeLines_append stop (lines lf whole).length (isOpen (whole ++ last)) [] last hstart hfit
      (fun i _ h ↦ hclosed h.1) hbytes
    rw [List.append_nil] at hloop
    rw [hloop, takeLines, cappedRange, if_neg (fun h ↦ h.1 hne)]
  · rw [if_neg hne, List.length_append, List.length_singleton] at hfit ⊢
    have hloop := takeLines_append stop ((lines lf whole).length + 1) (isOpen (whole ++ last))
      (spansOf (lines lf whole).flatten.length [last]) last hstart (by omega) (fun i hi h ↦ by omega) hbytes
    have hslice : slice (whole ++ last) (lines lf whole).flatten.length
        ((lines lf whole).flatten.length + last.length) = last := by
      rw [flatten_lines, slice, ← List.length_append, List.take_length, List.drop_left]
    rw [spansOf_append, Nat.zero_add, hloop]
    simp only [spansOf, takeLines, toLine_of_le hfit, Outcome.ok_bind, hslice, hopen.mpr hne, true_and,
      if_true]
    rw [cappedRange]
    -- the open line is outside the range, behind lines that were taken, or the only one
    by_cases hout : (lines lf whole).length + 1 < start ∨ stop < (lines lf whole).length + 1
    · rw [if_pos hout, if_neg (by omega)]
    · rw [if_neg hout]
      by_cases hfirst : start = (lines lf whole).length + 1
      · have hnone : rangeOf start stop (lines lf whole) = {} := if_neg (by omega)
        have hnew : ¬ (rangeOf start stop (lines lf whole)).startLine.isSome = true := by
          rw [hnone]
          exact Bool.false_ne_true
        rw [if_neg hnew, if_pos (And.intro hne hfirst), hnone, ← hfirst]
        rfl
      · have hsome : (rangeOf start stop (lines lf whole)).startLine.isSome := by
          rw [rangeOf, if_pos (by omega)]
          rfl
        rw [if_pos hsome, if_neg (fun h ↦ hfirst h.2)]
        rfl

private theorem sliceCapped_eq_ok {result : SlicedPayload} (hstart : 1 ≤ start) (hle : start ≤ stop)
    (hwhole : Closed lf whole) (hlast : lf ∉ last) :
    sliceCapped (whole ++ last) start stop = .ok result ↔
      (lines lf (whole ++ last)).length ≤ u32Max ∧
      result = (cappedRange start stop (lines lf whole) last).toSliced none
        (decide (stop ≤ (lines lf whole).length)) := by
  have hspans : (lineSpans (whole ++ last)).length = (lines lf (whole ++ last)).length := by
    rw [lineSpans_eq, length_spansOf]
  have hcomplete : (lines lf (whole ++ last)).length - (isOpen (whole ++ last)).toNat =
      (lines lf whole).length := by
    have hopen := isOpen_append hwhole hlast
    rw [lines_scanned hwhole hlast]
    by_cases hnil : last = []
    · rw [if_pos hnil, Bool.eq_false_iff.mpr fun h ↦ hopen.mp h hnil]
      simp
    · rw [if_neg hnil, hopen.mpr hnil]
      simp
  rw [sliceCapped, hspans, hcomplete, lineSpans_eq]
  constructor
  · intro h
    obtain ⟨taken, htaken, h⟩ := Outcome.bind_eq_ok.mp h
    have hfit : (lines lf (whole ++ last)).length ≤ u32Max := by
      by_cases hnil : lines lf (whole ++ last) = []
      · rw [hnil]
        exact Nat.zero_le _
      · refine length_le_of_takeLines (by simp) htaken ?_
        rwa [← List.length_pos_iff, length_spansOf, List.length_pos_iff]
    rw [takeLines_scanned hstart hle hwhole hlast hfit] at htaken
    cases htaken
    cases h
    refine ⟨hfit, ?_⟩
    simp [Taken.toSliced]
  · rintro ⟨hfit, rfl⟩
    rw [takeLines_scanned hstart hle hwhole hlast hfit]
    simp [Taken.toSliced]

/-- The bytes between the spans of two lines. -/
theorem slice_lines (bytes : Bytes) {i j : ℕ} (hle : i ≤ j) :
    slice bytes ((lines lf bytes).take i).flatten.length ((lines lf bytes).take j).flatten.length =
      (((lines lf bytes).take j).drop i).flatten := by
  have h := flatten_drop_take (lines lf bytes) hle
  rwa [flatten_lines] at h

private theorem sliceRange_eq_ok {result : SlicedPayload} (hstart : 1 ≤ start) (hle : start ≤ stop) :
    sliceRange payload start stop = .ok result ↔
      (lines lf payload).length ≤ u32Max ∧
      result = (rangeOf start stop (lines lf payload)).toSliced (some (lines lf payload).length) true := by
  rw [sliceRange, lineSpans_eq]
  simp only [length_spansOf]
  by_cases hnil : lines lf payload = []
  · have hnone : rangeOf start stop (lines lf payload) = {} := by
      rw [rangeOf, if_neg (by rw [hnil, List.length_nil]; omega)]
    rw [hnone, hnil]
    simp [spansOf, Taken.toSliced, eq_comm]
  · have hspans : spansOf 0 (lines lf payload) ≠ [] := by
      rwa [← List.length_pos_iff, length_spansOf, List.length_pos_iff]
    have hpos := List.length_pos_iff.mpr hnil
    rw [if_neg hspans]
    by_cases hfit : (lines lf payload).length ≤ u32Max
    · rw [toLine_of_le hfit, Outcome.ok_bind]
      by_cases hpast : (lines lf payload).length < start
      · have hnone : rangeOf start stop (lines lf payload) = {} := by
          rw [rangeOf, if_neg (by omega)]
        rw [if_pos hpast, hnone]
        simp [Taken.toSliced, hfit, eq_comm]
      · rw [if_neg hpast, getElem?_spansOf (by omega), getElem?_spansOf (by omega)]
        have hslice := slice_lines payload
          (show start - 1 ≤ min stop (lines lf payload).length - 1 + 1 by omega)
        have hstop : min stop (lines lf payload).length - 1 + 1 = min stop (lines lf payload).length := by
          omega
        have htake : (lines lf payload).take (min stop (lines lf payload).length) =
            (lines lf payload).take stop := List.take_eq_take_iff.mpr (by omega)
        rw [hstop, htake] at hslice
        simp only [Nat.zero_add, hstop, htake, hslice]
        rw [rangeOf, if_pos (by omega)]
        simp [Taken.toSliced, hfit, eq_comm]
    · rw [toLine, if_neg hfit]
      simp [hfit]

/-! ### Reads under a cap -/

/-- The data of a read is `count` lines behind the first `first`: complete ones, or the open part of a
single one. -/
inductive Returned (all : List Bytes) (first : ℕ) : ℕ → Bytes → Prop
  | nothing : Returned all first 0 []
  | complete {count : ℕ} (hpos : 0 < count) (h : first + count ≤ all.length) :
      Returned all first count ((all.drop first).take count).flatten
  | opened {line data : Bytes} (hline : all[first]? = some line) (hdata : data <+: line) (hne : data ≠ []) :
      Returned all first 1 data

/-- The numbers of the first and the last of `count` lines. -/
def numbers (first count : ℕ) : Option ℕ × Option ℕ :=
  if count = 0 then (none, none) else (some (first + 1), some (first + count))

/-- The lines before those that a read asks for. -/
def linesBefore (opts : FileOptions) : ℕ := opts.lines.elim 0 fun range ↦ range.1 - 1

/-- A cap that cuts the payload cuts one of its lines, or falls between two. -/
theorem exists_cut {size : ℕ} (h : size < payload.length) :
    ∃ whole last line more, payload.take size = whole ++ last ∧ Closed lf whole ∧ lf ∉ last ∧
      lines lf payload = lines lf whole ++ (last ++ line) :: more := by
  obtain ⟨whole, last, hcut, hwhole, hlast⟩ := exists_open lf (payload.take size)
  have hrest : last ++ payload.drop size ≠ [] := by
    intro hnil
    have hlen := congrArg List.length hnil
    simp at hlen
    omega
  obtain ⟨line, more, hline⟩ := lines_open_append hlast hrest
  refine ⟨whole, last, line, more, hcut, hwhole, hlast, ?_⟩
  rw [← hline, ← lines_append hwhole, ← List.append_assoc, ← hcut, List.take_append_drop]

section Cut

variable {line : Bytes} {more : List Bytes}

private theorem rangeOf_part (start stop : ℕ) (ls : List Bytes) :
    (rangeOf start stop ls).data <:+: ls.flatten := by
  rw [rangeOf]
  split
  · have hsub : (ls.take stop).drop (start - 1) <:+: ls :=
      (List.drop_suffix _ _).isInfix.trans (List.take_prefix _ _).isInfix
    obtain ⟨front, back, hsplit⟩ := hsub
    exact ⟨front.flatten, back.flatten, by rw [← List.flatten_append, ← List.flatten_append, hsplit]⟩
  · exact List.nil_infix

private theorem cappedRange_part (start stop : ℕ) (whole last : Bytes) :
    (cappedRange start stop (lines lf whole) last).data <:+: whole ++ last := by
  rw [cappedRange]
  split
  · exact (List.suffix_append _ _).isInfix
  · have h := rangeOf_part start stop (lines lf whole)
    rw [flatten_lines] at h
    exact h.trans (List.prefix_append _ _).isInfix

/-- A range of complete lines is the same range of all lines. -/
theorem cappedRange_of_le (last : Bytes) (more : List Bytes) (hle : start ≤ stop)
    (hstop : stop ≤ ls.length) :
    cappedRange start stop ls last = rangeOf start stop (ls ++ more) := by
  rw [cappedRange, if_neg (by omega), rangeOf, rangeOf, List.take_append_of_le_length hstop,
    List.length_append, Nat.min_eq_left hstop, Nat.min_eq_left (by omega)]

private theorem cappedRange_begins (hstart : 1 ≤ start) (hle : start ≤ stop) :
    (cappedRange start stop ls last).data <+: (rangeOf start stop (ls ++ (last ++ line) :: more)).data := by
  rw [cappedRange]
  split
  · next hfirst =>
    obtain ⟨-, rfl⟩ := hfirst
    obtain ⟨k, rfl⟩ := Nat.exists_eq_add_of_le hle
    have htake : (ls ++ (last ++ line) :: more).take (ls.length + 1 + k) =
        ls ++ (last ++ line) :: more.take k := by
      rw [Nat.add_assoc, List.take_length_add_append, Nat.add_comm 1 k, List.take_succ_cons]
    rw [rangeOf, if_pos (by simp), htake, Nat.add_sub_cancel, List.drop_left, List.flatten_cons,
      List.append_assoc]
    exact List.prefix_append _ _
  · by_cases hold : start ≤ min stop ls.length
    · have hdrop : start - 1 ≤ (ls.take stop).length := by
        rw [List.length_take]
        omega
      rw [rangeOf, if_pos hold, rangeOf, if_pos (by simp; omega), List.take_append,
        List.drop_append_of_le_length hdrop, List.flatten_append]
      exact List.prefix_append _ _
    · rw [rangeOf, if_neg hold]
      exact List.nil_prefix

/-- A range that ends behind the complete lines returns those from its start on, or the open one. -/
theorem cappedRange_returned (hstart : 1 ≤ start) (hstop : ls.length < stop) :
    ∃ count,
      Returned (ls ++ (last ++ line) :: more) (start - 1) count (cappedRange start stop ls last).data ∧
      ((cappedRange start stop ls last).startLine, (cappedRange start stop ls last).endLine) =
        numbers (start - 1) count := by
  rw [cappedRange]
  split
  · next hfirst =>
    obtain ⟨hne, rfl⟩ := hfirst
    have hline : (ls ++ (last ++ line) :: more)[ls.length + 1 - 1]? = some (last ++ line) := by simp
    refine ⟨1, .opened hline (List.prefix_append _ _) hne, ?_⟩
    simp [numbers]
  · by_cases hold : start ≤ min stop ls.length
    · refine ⟨ls.length - (start - 1), ?_, ?_⟩
      · have hdata : (rangeOf start stop ls).data =
            (((ls ++ (last ++ line) :: more).drop (start - 1)).take (ls.length - (start - 1))).flatten := by
          rw [rangeOf, if_pos hold, List.take_of_length_le (by omega),
            List.drop_append_of_le_length (by omega), List.take_append_of_le_length (by simp),
            List.take_of_length_le (by simp)]
        rw [hdata]
        exact .complete (by omega) (by simp; omega)
      · rw [rangeOf, if_pos hold, numbers, if_neg (by omega)]
        simp
        omega
    · rw [rangeOf, if_neg hold]
      exact ⟨0, .nothing, rfl⟩

end Cut

/-- A read without a range and without a cap. -/
theorem sliceWhole_eq_ok {result : SlicedPayload} (h : sliceWhole payload payload false = .ok result) :
    result.data = payload ∧ result.startLine = none ∧ result.endLine = none ∧ result.truncated = false := by
  obtain ⟨total, -, h⟩ := Outcome.bind_eq_ok.mp h
  cases h
  simp

/-- The last LF of a scanned part ends its complete lines. -/
theorem rposition_scanned (hwhole : Closed lf whole) (hlast : lf ∉ last) :
    Bytes.rposition (· = lf) (whole ++ last) = if whole = [] then none else some (whole.length - 1) := by
  have hother : ∀ byte ∈ last, decide (byte = lf) = false :=
    fun byte hbyte ↦ decide_eq_false fun h ↦ hlast (h ▸ hbyte)
  rcases hwhole with rfl | hend
  · rw [if_pos rfl, Bytes.rposition, Option.map_eq_none_iff, List.findIdx?_eq_none_iff]
    exact fun byte hbyte ↦ hother byte (List.mem_reverse.mp hbyte)
  · obtain ⟨front, rfl⟩ := List.getLast?_eq_some_iff.mp hend
    rw [if_neg (by simp), Bytes.rposition_eq_some]
    exact ⟨front, lf, last, by simp, by simp, decide_eq_true rfl, hother⟩

/-- Under a cap that cuts the payload, a read without a range returns the complete lines, or else the open
one. -/
theorem sliceWhole_capped (hwhole : Closed lf whole) (hlast : lf ∉ last) :
    sliceWhole payload (whole ++ last) true =
      .ok ⟨if whole = [] then last else whole, none, none, none, true, some "max_bytes"⟩ := by
  have hopen := isOpen_append hwhole hlast
  rw [sliceWhole, rposition_scanned hwhole hlast]
  by_cases hne : last = []
  · have hclosed : isOpen (whole ++ last) = false := Bool.eq_false_iff.mpr fun h ↦ hopen.mp h hne
    rw [hclosed, hne]
    by_cases hnil : whole = [] <;> simp [hnil]
  · rw [hopen.mpr hne]
    by_cases hnil : whole = []
    · simp [hnil]
    · have hlen : whole.length - 1 + 1 = whole.length := Nat.sub_add_cancel (List.length_pos_iff.mpr hnil)
      simp [hnil, hlen]

private theorem sliceWhole_returned (whole last line : Bytes) (more : List Bytes) :
    ∃ count, Returned (lines lf whole ++ (last ++ line) :: more) 0 count
      (if whole = [] then last else whole) := by
  by_cases hnil : whole = []
  · rw [if_pos hnil, hnil]
    by_cases hne : last = []
    · exact ⟨0, by rw [hne]; exact .nothing⟩
    · exact ⟨1, .opened rfl (List.prefix_append _ _) hne⟩
  · have hpos : 0 < (lines lf whole).length := by
      rw [List.length_pos_iff]
      exact fun h ↦ hnil (lines_eq_nil.mp h)
    have h : Returned (lines lf whole ++ (last ++ line) :: more) 0 _ _ := .complete hpos (by simp)
    rw [List.drop_zero, List.take_left, flatten_lines] at h
    rw [if_neg hnil]
    exact ⟨_, h⟩

/-! ### The main result -/

/-- What a read under a cap answers, beside the same read under a cap that leaves the payload whole. -/
structure CappedRead (payload : Bytes) (opts : FileOptions) (cap : ℕ) (r : SlicedPayload) : Prop where
  /-- The data is a contiguous slice of the payload. -/
  slice : r.data <:+: payload
  fits : r.data.length ≤ opts.maxBytes
  /-- The data begins the data of the whole read. -/
  begins : ∀ u, slicePayload payload { opts with maxBytes := cap } = .ok u → r.data <+: u.data
  /-- A read that is not truncated answers like the whole read. -/
  completed : r.truncated = false → ∀ u, slicePayload payload { opts with maxBytes := cap } = .ok u →
    r.data = u.data ∧ r.startLine = u.startLine ∧ r.endLine = u.endLine
  /-- A truncated read returns complete lines, or the open part of a single one; those of a range are
  numbered. -/
  lines : r.truncated = true → ∃ count, Returned (lines lf payload) (linesBefore opts) count r.data ∧
    (r.startLine, r.endLine) =
      if opts.lines.isSome then numbers (linesBefore opts) count else (none, none)

section Main

variable {cap size : ℕ} {result : SlicedPayload}

private theorem slicePayload_whole (h : payload.length ≤ size) :
    slicePayload payload ⟨none, size⟩ = sliceWhole payload payload false := by
  rw [slicePayload, Nat.min_eq_left h, List.take_length, decide_eq_false (Nat.lt_irrefl _)]

private theorem slicePayload_range (h : payload.length ≤ size) :
    slicePayload payload ⟨some (start, stop), size⟩ = sliceRange payload start stop := by
  rw [slicePayload, Nat.min_eq_left h, decide_eq_false (Nat.lt_irrefl _)]
  rfl

/-- A read without a range. -/
theorem whole_cappedRead (hcap : payload.length ≤ cap)
    (h : slicePayload payload ⟨none, size⟩ = .ok result) :
    CappedRead payload ⟨none, size⟩ cap result := by
  have hu : ∀ u, slicePayload payload ⟨none, cap⟩ = .ok u →
      u.data = payload ∧ u.startLine = none ∧ u.endLine = none := by
    intro u hu
    rw [slicePayload_whole hcap] at hu
    obtain ⟨hdata, hstart, hend, -⟩ := sliceWhole_eq_ok hu
    exact ⟨hdata, hstart, hend⟩
  by_cases hsize : payload.length ≤ size
  · rw [slicePayload_whole hsize] at h
    obtain ⟨hdata, hstart, hend, htruncated⟩ := sliceWhole_eq_ok h
    refine ⟨hdata ▸ List.infix_rfl, hdata ▸ hsize, fun u h ↦ ?_, fun _ u h ↦ ?_, fun h ↦ ?_⟩
    · rw [hdata, (hu u h).1]
    · obtain ⟨hdata', hstart', hend'⟩ := hu u h
      exact ⟨hdata.trans hdata'.symm, hstart.trans hstart'.symm, hend.trans hend'.symm⟩
    · rw [htruncated] at h
      cases h
  · have hlt : size < payload.length := Nat.lt_of_not_le hsize
    obtain ⟨whole, last, line, more, hcut, hwhole, hlast, hlines⟩ := exists_cut hlt
    rw [slicePayload, Nat.min_eq_right hlt.le, decide_eq_true hlt] at h
    simp only [hcut, sliceWhole_capped hwhole hlast] at h
    cases h
    have hscanned : (if whole = [] then last else whole) <+: payload.take size := by
      rw [hcut]
      split
      · next hnil => rw [hnil, List.nil_append]
      · exact List.prefix_append _ _
    have hdata := hscanned.trans (List.take_prefix _ _)
    refine ⟨hdata.isInfix, hscanned.length_le.trans (List.length_take_le _ _), fun u h ↦ ?_, ?_, fun _ ↦ ?_⟩
    · rwa [(hu u h).1]
    · intro h
      cases h
    · obtain ⟨count, hreturned⟩ := sliceWhole_returned whole last line more
      exact ⟨count, by rwa [hlines], rfl⟩

/-- A read of a range. -/
theorem range_cappedRead (hstart : 1 ≤ start) (hle : start ≤ stop) (hcap : payload.length ≤ cap)
    (h : slicePayload payload ⟨some (start, stop), size⟩ = .ok result) :
    CappedRead payload ⟨some (start, stop), size⟩ cap result := by
  have hu : ∀ u, slicePayload payload ⟨some (start, stop), cap⟩ = .ok u →
      u = (rangeOf start stop (lines lf payload)).toSliced (some (lines lf payload).length) true := by
    intro u hu
    rw [slicePayload_range hcap] at hu
    exact ((sliceRange_eq_ok hstart hle).mp hu).2
  by_cases hsize : payload.length ≤ size
  · rw [slicePayload_range hsize] at h
    obtain ⟨-, rfl⟩ := (sliceRange_eq_ok hstart hle).mp h
    have hpart := rangeOf_part start stop (lines lf payload)
    rw [flatten_lines] at hpart
    refine ⟨hpart, hpart.length_le.trans hsize, fun u h ↦ ?_, fun _ u h ↦ ?_, fun h ↦ ?_⟩
    · rw [hu u h]
    · rw [hu u h]
      exact ⟨rfl, rfl, rfl⟩
    · cases h
  · have hlt : size < payload.length := Nat.lt_of_not_le hsize
    obtain ⟨whole, last, line, more, hcut, hwhole, hlast, hlines⟩ := exists_cut hlt
    rw [slicePayload, Nat.min_eq_right hlt.le, decide_eq_true hlt] at h
    simp only [hcut, if_true] at h
    obtain ⟨-, rfl⟩ := (sliceCapped_eq_ok hstart hle hwhole hlast).mp h
    have hpart := cappedRange_part start stop whole last
    rw [← hcut] at hpart
    refine ⟨hpart.trans (List.take_prefix _ _).isInfix, hpart.length_le.trans (List.length_take_le _ _),
      fun u h ↦ ?_, fun hcompleted u h ↦ ?_, fun htruncated ↦ ?_⟩
    · rw [hu u h, hlines]
      exact cappedRange_begins hstart hle
    · have hstop : stop ≤ (lines lf whole).length := by simpa [Taken.toSliced] using hcompleted
      have hsame := cappedRange_of_le last ((last ++ line) :: more) hle hstop
      rw [hu u h, hlines, ← hsame]
      exact ⟨rfl, rfl, rfl⟩
    · have hstop : (lines lf whole).length < stop := by simpa [Taken.toSliced] using htruncated
      rw [hlines]
      exact cappedRange_returned hstart hstop

/-- The line range that `read_file` lets through. -/
theorem of_checkLines {opts : FileOptions} (h : checkLines opts = .ok ())
    (hlines : opts.lines = some (start, stop)) : 1 ≤ start ∧ start ≤ stop := by
  rw [checkLines, hlines] at h
  have hrange := ensure_eq_ok.mp h
  omega

/-- **Capped reads.** A read is a slice of its payload that its cap has room for, it begins what the read
without a cap returns, and it says whether it returned all of that. It returns whenever the number of lines
fits. -/
theorem slicePayload_capped (payload : Bytes) (opts : FileOptions) (cap : ℕ)
    (hcheck : checkLines opts = .ok ()) (hcap : payload.length ≤ cap) :
    ((lines lf payload).length ≤ u32Max → ∃ r, slicePayload payload opts = .ok r) ∧
      ∀ r, slicePayload payload opts = .ok r → CappedRead payload opts cap r := by
  obtain ⟨range, size⟩ := opts
  cases range with
  | none =>
    refine ⟨fun hfit ↦ ?_, fun r h ↦ whole_cappedRead hcap h⟩
    by_cases hsize : payload.length ≤ size
    · rw [slicePayload_whole hsize, sliceWhole, lineCount_eq, toLine_of_le hfit]
      exact ⟨_, rfl⟩
    · have hlt : size < payload.length := Nat.lt_of_not_le hsize
      rw [slicePayload, Nat.min_eq_right hlt.le, decide_eq_true hlt]
      exact ⟨_, rfl⟩
  | some range =>
    obtain ⟨start, stop⟩ := range
    obtain ⟨hstart, hle⟩ := of_checkLines hcheck rfl
    refine ⟨fun hfit ↦ ?_, fun r h ↦ range_cappedRead hstart hle hcap h⟩
    by_cases hsize : payload.length ≤ size
    · rw [slicePayload_range hsize]
      exact ⟨_, (sliceRange_eq_ok hstart hle).mpr ⟨hfit, rfl⟩⟩
    · have hlt : size < payload.length := Nat.lt_of_not_le hsize
      obtain ⟨whole, last, line, more, hcut, hwhole, hlast, hlines⟩ := exists_cut hlt
      have hscanned : (lines lf (whole ++ last)).length ≤ u32Max := by
        rw [lines_scanned hwhole hlast, List.length_append]
        rw [hlines, List.length_append, List.length_cons] at hfit
        split
        · simp
          omega
        · simp
          omega
      rw [slicePayload, Nat.min_eq_right hlt.le, decide_eq_true hlt]
      simp only [hcut, if_true]
      exact ⟨_, (sliceCapped_eq_ok hstart hle hwhole hlast).mpr ⟨hscanned, rfl⟩⟩

/-- The theorem at the lines 2 to 3 with a cap of three bytes. -/
theorem slicePayload_capped_sample :
    ∃ r, slicePayload (Bytes.ascii "a\nbc\nd") ⟨some (2, 3), 3⟩ = .ok r ∧
      CappedRead (Bytes.ascii "a\nbc\nd") ⟨some (2, 3), 3⟩ 6 r := by
  have h := slicePayload_capped (Bytes.ascii "a\nbc\nd") ⟨some (2, 3), 3⟩ 6 rfl (by decide)
  obtain ⟨r, hr⟩ := h.1 (by decide)
  exact ⟨r, hr, h.2 r hr⟩

/-- A truncated read of a whole file returns a line and no number. -/
theorem whole_read_unnumbered : ∃ r, slicePayload (Bytes.ascii "a\nb\n") ⟨none, 2⟩ = .ok r ∧
    r.truncated = true ∧ Returned (lines lf (Bytes.ascii "a\nb\n")) 0 1 r.data ∧
    (r.startLine, r.endLine) ≠ numbers 0 1 := by
  refine ⟨⟨Bytes.ascii "a\n", none, none, none, true, some "max_bytes"⟩, by decide, rfl, ?_, by decide⟩
  exact .complete Nat.one_pos (by decide)

end Main

end Gitility.File
