import Gitility.Base.Lines
import Gitility.Base.Lockstep
import Gitility.Search.Search

/-!
# What a match says about its line

A scan keeps byte spans only, and the context of a match as one span over several lines. The matches that
are cut from the payload later are those of its lines, with the lines around them.
-/

namespace Gitility.Search

/-- The byte LF. -/
def lf : UInt8 := 0x0a

/-- The lines of a payload, without their LFs. -/
def contents (payload : Bytes) : List Bytes := (lines lf payload).map (content lf)

/-- The match of a line. -/
def lineMatch (snapshot : Snapshot) (matcher : CompiledMatcher) (path : Bytes) (blobOid : Oid)
    (contextLines : ℕ) (all : List Bytes) (index : ℕ) (line : Bytes) (column : ℕ) : SearchMatch where
  commitOid := snapshot.commitOid
  blobOid
  path
  line := index + 1
  column
  preview := line.take previewBytes
  previewTruncated := previewBytes < line.length
  submatches := (previewSubmatches matcher line (line.take previewBytes).length).1
  submatchesTruncated := (previewSubmatches matcher line (line.take previewBytes).length).2
  contextBefore := ((all.take index).drop (index - contextLines)).map (·.take previewBytes)
  contextAfter := ((all.drop (index + 1)).take contextLines).map (·.take previewBytes)

/-- The matches of the lines with an occurrence. -/
def lineMatches (snapshot : Snapshot) (matcher : CompiledMatcher) (path : Bytes) (blobOid : Oid)
    (contextLines : ℕ) (payload : Bytes) : List SearchMatch :=
  (contents payload).zipIdx.filterMap fun item ↦ (firstOccurrence matcher item.1).map fun occurrence ↦
    lineMatch snapshot matcher path blobOid contextLines (contents payload) item.2 item.1 occurrence.1

variable {payload last chunk rest : Bytes} {matcher : CompiledMatcher}
  {contextLines start stop index first : ℕ} {spans : List (ℕ × ℕ)} {db : ObjectDb}

/-! ### Spans -/

/-- Chunks are scanned like what they make up. -/
theorem spansOfChunk_append : spansOfChunk (chunk ++ rest) index start spans =
    spansOfChunk rest (index + chunk.length) (spansOfChunk chunk index start spans).2
      (spansOfChunk chunk index start spans).1 := by
  induction chunk generalizing index start spans with
  | nil => rfl
  | cons byte chunk ih =>
    rw [List.cons_append, spansOfChunk, spansOfChunk]
    split
    · rw [ih, List.length_cons, Nat.add_assoc, Nat.add_comm 1]
    · rw [ih, List.length_cons, Nat.add_assoc, Nat.add_comm 1]

/-- What `line_spans` returns after its loop. -/
def closeSpans (size : ℕ) (found : List (ℕ × ℕ) × ℕ) : List (ℕ × ℕ) :=
  if found.2 < size then found.1 ++ [(found.2, size)] else found.1

private theorem eval_lineSpansLoop (fuel chunkStart : ℕ) (hle : chunkStart ≤ payload.length)
    (hfuel : payload.length < chunkStart + fuel) :
    db.eval (lineSpansLoop payload fuel chunkStart start spans) =
      .ok (closeSpans payload.length (spansOfChunk (payload.drop chunkStart) chunkStart start spans)) := by
  induction fuel generalizing chunkStart start spans with
  | zero => omega
  | succ fuel ih =>
    rw [lineSpansLoop]
    split
    · next hlt =>
      obtain ⟨chunkEnd, hend⟩ : ∃ chunkEnd, chunkEnd = min (chunkStart + scanCheckBytes) payload.length :=
        ⟨_, rfl⟩
      have hbounds : chunkStart < chunkEnd ∧ chunkEnd ≤ payload.length := by
        have hsize : scanCheckBytes = 65536 := rfl
        omega
      have hsplit : payload.drop chunkStart =
          slice payload chunkStart chunkEnd ++ payload.drop chunkEnd := by
        rw [slice, ← List.drop_append_of_le_length (by simp; omega), List.take_append_drop]
      have hlength : chunkStart + (slice payload chunkStart chunkEnd).length = chunkEnd := by
        rw [slice, List.length_drop, List.length_take]
        omega
      rw [ObjectDb.eval_bind, ObjectDb.eval_check, Outcome.ok_bind, ← hend]
      rw [ih chunkEnd hbounds.2 (by omega), hsplit, spansOfChunk_append, hlength]
    · next hge =>
      rw [List.drop_eq_nil_of_le (by omega)]
      rfl

/-- The loop has found the contents of the lines before the open one. -/
theorem closeSpans_spansOfChunk (start : ℕ) (last rest : Bytes) (spans : List (ℕ × ℕ)) (hlast : lf ∉ last) :
    closeSpans (start + last.length + rest.length)
        (spansOfChunk rest (start + last.length) start spans) =
      spans ++ contentSpans lf start (lines lf (last ++ rest)) := by
  induction rest generalizing last start spans with
  | nil =>
    rw [spansOfChunk, closeSpans, List.append_nil]
    by_cases hne : last = []
    · simp [hne, lines, contentSpans]
    · have hpos := List.length_pos_iff.mpr hne
      simp [lines_open hlast hne, contentSpans, content_of_open hlast, hpos]
  | cons byte rest ih =>
    by_cases hbyte : byte = lf
    · rw [spansOfChunk, if_pos (show byte = 0x0a from hbyte), hbyte, lines_cut hlast, contentSpans,
        content_append_sep hlast, List.append_cons]
      have h := ih (start + last.length + 1) [] (spans ++ [(start, start + last.length)]) List.not_mem_nil
      simpa [Nat.add_assoc, Nat.add_comm 1] using h
    · rw [spansOfChunk, if_neg (show ¬ byte = 0x0a from hbyte)]
      have h := ih start (last ++ [byte]) spans (by simp [hlast, Ne.symm hbyte])
      simpa [Nat.add_assoc, Nat.add_comm 1] using h

private theorem eval_lineSpans (payload : Bytes) :
    db.eval (lineSpans payload) = .ok (contentSpans lf 0 (lines lf payload)) := by
  have h := closeSpans_spansOfChunk 0 [] payload [] List.not_mem_nil
  rw [lineSpans, eval_lineSpansLoop _ _ (Nat.zero_le _) (by omega), List.drop_zero]
  simpa using h

/-! ### Cutting by spans -/

/-- What lies between the starts of a line and the end of the content of another. -/
theorem slice_lines {line : Bytes} {i j : ℕ} (hle : i ≤ j) (h : (lines lf payload)[j]? = some line) :
    slice payload ((lines lf payload).take i).flatten.length
        (((lines lf payload).take j).flatten.length + (content lf line).length) =
      (((lines lf payload).take j).drop i).flatten ++ content lf line := by
  have hslice := flatten_drop_take_content lf hle h
  rwa [flatten_lines] at hslice

/-- The start of a content. -/
theorem slice_content {line : Bytes} {size : ℕ} (h : (lines lf payload)[index]? = some line)
    (hsize : size ≤ (content lf line).length) :
    slice payload ((lines lf payload).take index).flatten.length
        (((lines lf payload).take index).flatten.length + size) = (content lf line).take size := by
  have hfull := slice_lines le_rfl h
  rw [List.drop_of_length_le (by simp), List.flatten_nil, List.nil_append, slice, List.drop_take,
    Nat.add_sub_cancel_left] at hfull
  rw [slice, List.drop_take, Nat.add_sub_cancel_left]
  conv_rhs => rw [← hfull, List.take_take, Nat.min_eq_left hsize]

private theorem toU32_eq_ok {value result : ℕ} : toU32 value = .ok result ↔ value ≤ u32Max ∧ result = value := by
  rw [toU32, ensure]
  split
  · next h => simp [h, pure, Except.pure, bind, Except.bind, eq_comm]
  · next h => simp [h, bind, Except.bind]

private theorem byteSpan_eq_ok {span : ByteSpan} : byteSpan start stop = .ok span ↔
    start ≤ u32Max ∧ stop ≤ u32Max ∧ span = ⟨start, stop⟩ := by
  rw [byteSpan, Except.bind_eq_ok]
  constructor
  · rintro ⟨opening, hopening, hrest⟩
    obtain ⟨closing, hclosing, hspan⟩ := Except.bind_eq_ok.mp hrest
    obtain ⟨hfirst, rfl⟩ := toU32_eq_ok.mp hopening
    obtain ⟨hlast, rfl⟩ := toU32_eq_ok.mp hclosing
    cases hspan
    exact ⟨hfirst, hlast, rfl⟩
  · rintro ⟨hfirst, hlast, rfl⟩
    exact ⟨start, toU32_eq_ok.mpr ⟨hfirst, rfl⟩,
      Except.bind_eq_ok.mpr ⟨stop, toU32_eq_ok.mpr ⟨hlast, rfl⟩, rfl⟩⟩

/-- A context is one span, from the start of its first line to the end of its last. -/
theorem eval_contextSpan {lines : List Bytes} {opening closing : Bytes} {stop : ℕ} (hlt : first < stop)
    (hopening : lines[first]? = some opening) (hclosing : lines[stop - 1]? = some closing) :
    db.eval (contextSpan (contentSpans lf 0 lines) first stop) =
      .ofExcept (some <$> byteSpan (lines.take first).flatten.length
        ((lines.take (stop - 1)).flatten.length + (content lf closing).length)) := by
  rw [contextSpan, if_pos hlt, getElem?_contentSpans hopening, getElem?_contentSpans hclosing]
  simp only [ObjectDb.eval_bind, ObjectDb.eval_unwrap_some, Outcome.ok_bind, Nat.zero_add,
    ObjectDb.eval_ofExcept, ObjectDb.eval_pure]
  cases byteSpan _ _ <;> rfl

/-- A context is cut into its lines again. -/
theorem materializeLines_contextSpan {span : Option ByteSpan} {stop : ℕ}
    (hstop : stop ≤ (lines lf payload).length)
    (h : db.eval (contextSpan (contentSpans lf 0 (lines lf payload)) first stop) = .ok span) :
    materializeLines payload span =
      (((contents payload).take stop).drop first).map (·.take previewBytes) := by
  by_cases hlt : first < stop
  · obtain ⟨opening, hopening⟩ : ∃ opening, (lines lf payload)[first]? = some opening :=
      ⟨_, List.getElem?_eq_getElem (by omega)⟩
    obtain ⟨closing, hclosing⟩ : ∃ closing, (lines lf payload)[stop - 1]? = some closing :=
      ⟨_, List.getElem?_eq_getElem (by omega)⟩
    rw [eval_contextSpan hlt hopening hclosing, Outcome.ofExcept_eq_ok] at h
    cases hspan : byteSpan _ _ with
    | error e =>
      rw [hspan] at h
      cases h
    | ok bytes =>
      rw [hspan] at h
      cases h
      obtain ⟨-, -, rfl⟩ := byteSpan_eq_ok.mp hspan
      have hpieces := splitOn_lines (show first ≤ stop - 1 by omega) hclosing
      rw [materializeLines, slice_lines (by omega) hclosing, show (0x0a : UInt8) = lf from rfl, hpieces,
        Nat.sub_add_cancel (by omega)]
      rfl
  · rw [contextSpan, if_neg hlt] at h
    cases h
    rw [List.drop_of_length_le (by simp; omega)]
    rfl

/-! ### Matching lines -/

section Matches

variable {snapshot : Snapshot} {path : Bytes} {blobOid : Oid} {line : Bytes}

private theorem slice_whole (h : (lines lf payload)[index]? = some line) :
    slice payload ((lines lf payload).take index).flatten.length
      (((lines lf payload).take index).flatten.length + (content lf line).length) = content lf line := by
  rw [slice_content h le_rfl, List.take_length]

private theorem drop_contentSpans (h : (lines lf payload)[index]? = some line) :
    (contentSpans lf 0 (lines lf payload)).drop index =
      (((lines lf payload).take index).flatten.length,
        ((lines lf payload).take index).flatten.length + (content lf line).length) ::
      (contentSpans lf 0 (lines lf payload)).drop (index + 1) := by
  have hspan : (contentSpans lf 0 (lines lf payload))[index]? = some _ := getElem?_contentSpans h
  obtain ⟨hindex, hspan⟩ := List.getElem?_eq_some_iff.mp hspan
  rw [List.drop_eq_getElem_cons hindex, hspan, Nat.zero_add]

/-- The record of a matching line keeps what its match says. -/
theorem matchOf_cacheLine {cached : CachedLineMatch} {column : ℕ}
    (hline : (lines lf payload)[index]? = some line)
    (h : db.eval (cacheLine (contentSpans lf 0 (lines lf payload)) contextLines index
      ((lines lf payload).take index).flatten.length
      (((lines lf payload).take index).flatten.length + (content lf line).length) column) = .ok cached) :
    matchOf snapshot matcher path blobOid payload cached =
      lineMatch snapshot matcher path blobOid contextLines (contents payload) index (content lf line)
        column := by
  obtain ⟨hindex, rfl⟩ := List.getElem?_eq_some_iff.mp hline
  simp only [cacheLine, ObjectDb.eval_bind, ObjectDb.eval_ofExcept, Outcome.bind_eq_ok,
    Outcome.ofExcept_eq_ok, toU32_eq_ok, byteSpan_eq_ok, ObjectDb.eval_pure] at h
  obtain ⟨_, ⟨-, rfl⟩, _, ⟨-, rfl⟩, _, ⟨-, -, rfl⟩, _, ⟨-, rfl⟩, before, hbefore, after, hafter, h⟩ := h
  cases h
  have hcontextBefore := materializeLines_contextSpan (by omega) hbefore
  have hcontextAfter := materializeLines_contextSpan (by simp) hafter
  have hpreview := slice_content hline (Nat.min_le_left _ previewBytes)
  rw [List.take_eq_take_iff.mpr (show min (min _ previewBytes) _ = min previewBytes _ by omega)] at hpreview
  have hwhole := slice_whole hline
  have hsize : (contents payload).length = (lines lf payload).length := List.length_map _
  have hwindow : ((contents payload).take (min (index + 1 + contextLines)
      (contentSpans lf 0 (lines lf payload)).length)).drop (index + 1) =
      ((contents payload).drop (index + 1)).take contextLines := by
    rw [List.drop_take, length_contentSpans]
    exact List.take_eq_take_iff.mpr (by rw [List.length_drop]; omega)
  rw [hwindow] at hcontextAfter
  rw [Nat.add_sub_cancel_left, matchOf, lineMatch]
  simp only [hcontextBefore, hcontextAfter, hpreview, hwhole, SearchMatch.mk.injEq, true_and, and_true,
    decide_eq_decide]
  omega

/-- The records of a scan keep what its matches say. -/
theorem matches_of_scanLines (index : ℕ) {cached : List CachedLineMatch}
    (h : db.eval (scanLines payload matcher contextLines (contentSpans lf 0 (lines lf payload)) index
      ((contentSpans lf 0 (lines lf payload)).drop index)) = .ok cached) :
    cached.map (matchOf snapshot matcher path blobOid payload) =
      ((contents payload).zipIdx.drop index).filterMap fun item ↦
        (firstOccurrence matcher item.1).map fun occurrence ↦
          lineMatch snapshot matcher path blobOid contextLines (contents payload) item.2 item.1
            occurrence.1 := by
  induction hleft : (lines lf payload).length - index generalizing index cached with
  | zero =>
    have hend : (contentSpans lf 0 (lines lf payload)).drop index = [] :=
      List.drop_of_length_le (by rw [length_contentSpans]; omega)
    rw [hend] at h
    cases h
    rw [List.drop_of_length_le (by simp [contents]; omega)]
    rfl
  | succ left ih =>
    have hindex : index < (lines lf payload).length := by omega
    have hline : (lines lf payload)[index]? = some (lines lf payload)[index] :=
      List.getElem?_eq_getElem hindex
    have hitem : (contents payload).zipIdx.drop index =
        (content lf (lines lf payload)[index], index) :: (contents payload).zipIdx.drop (index + 1) := by
      rw [List.drop_eq_getElem_cons (by simpa [contents] using hindex)]
      simp [contents]
    rw [drop_contentSpans hline, scanLines, ObjectDb.eval_bind, ObjectDb.eval_check, Outcome.ok_bind,
      slice_whole hline] at h
    rw [hitem, List.filterMap_cons]
    cases hoccurrence : firstOccurrence matcher (content lf (lines lf payload)[index]) with
    | none =>
      rw [hoccurrence] at h
      exact ih (index + 1) h (by omega)
    | some occurrence =>
      rw [hoccurrence] at h
      obtain ⟨column, columnEnd⟩ := occurrence
      simp only [ObjectDb.eval_bind, Outcome.bind_eq_ok] at h
      obtain ⟨record, hrecord, later, hlater, h⟩ := h
      cases h
      rw [List.map_cons, matchOf_cacheLine hline hrecord, ih (index + 1) hlater (by omega)]
      rfl

end Matches

/-! ### Returning -/

section Returns

variable {line : Bytes}

private theorem offset_le (h : (lines lf payload)[index]? = some line) :
    ((lines lf payload).take index).flatten.length + (content lf line).length ≤ payload.length := by
  obtain ⟨hindex, rfl⟩ := List.getElem?_eq_some_iff.mp h
  have hflatten : (lines lf payload).flatten = payload := flatten_lines payload
  have hsplit := congrArg List.length hflatten
  rw [← List.take_append_drop index (lines lf payload), List.drop_eq_getElem_cons hindex] at hsplit
  have hcontent := (content_begins lf (lines lf payload)[index]).length_le
  simp only [List.flatten_append, List.flatten_cons, List.length_append] at hsplit
  omega

private theorem contextSpan_returns (db : ObjectDb) (first : ℕ) {stop : ℕ} (hfits : payload.length ≤ u32Max)
    (hstop : stop ≤ (lines lf payload).length) :
    ∃ span, db.eval (contextSpan (contentSpans lf 0 (lines lf payload)) first stop) = .ok span := by
  by_cases hlt : first < stop
  · obtain ⟨opening, hopening⟩ : ∃ opening, (lines lf payload)[first]? = some opening :=
      ⟨_, List.getElem?_eq_getElem (by omega)⟩
    obtain ⟨closing, hclosing⟩ : ∃ closing, (lines lf payload)[stop - 1]? = some closing :=
      ⟨_, List.getElem?_eq_getElem (by omega)⟩
    have hfirst := offset_le hopening
    have hlast := offset_le hclosing
    rw [eval_contextSpan hlt hopening hclosing, byteSpan_eq_ok.mpr ⟨by omega, by omega, rfl⟩]
    exact ⟨_, rfl⟩
  · rw [contextSpan, if_neg hlt]
    exact ⟨none, rfl⟩

private theorem cacheLine_returns (db : ObjectDb) (contextLines : ℕ) {column : ℕ} (hfits : payload.length ≤ u32Max)
    (hline : (lines lf payload)[index]? = some line) (hcolumn : column ≤ (content lf line).length) :
    ∃ cached, db.eval (cacheLine (contentSpans lf 0 (lines lf payload)) contextLines index
      ((lines lf payload).take index).flatten.length
      (((lines lf payload).take index).flatten.length + (content lf line).length) column) = .ok cached := by
  have hstop := offset_le hline
  obtain ⟨hindex, -⟩ := List.getElem?_eq_some_iff.mp hline
  have hnumber : index + 1 ≤ u32Max := by
    have hlines := length_lines_le lf payload
    omega
  obtain ⟨before, hbefore⟩ := contextSpan_returns db (index - contextLines) hfits hindex.le
  obtain ⟨after, hafter⟩ := contextSpan_returns db (index + 1) hfits
    (show min (index + 1 + contextLines) (contentSpans lf 0 (lines lf payload)).length ≤ _ by simp)
  rw [cacheLine, toU32_eq_ok.mpr ⟨hnumber, rfl⟩, toU32_eq_ok.mpr ⟨by omega, rfl⟩,
    byteSpan_eq_ok.mpr ⟨by omega, by omega, rfl⟩, toU32_eq_ok.mpr ⟨hstop.trans hfits, rfl⟩]
  simp only [ObjectDb.eval_bind, ObjectDb.eval_ofExcept, Outcome.ofExcept_ok, Outcome.ok_bind, hbefore,
    hafter]
  exact ⟨_, rfl⟩

private theorem scanLines_returns (index : ℕ) (hfits : payload.length ≤ u32Max)
    (hmatcher : ∀ line, ∀ occurrence ∈ matcher line, occurrence.1 ≤ line.length) :
    ∃ cached, db.eval (scanLines payload matcher contextLines (contentSpans lf 0 (lines lf payload)) index
      ((contentSpans lf 0 (lines lf payload)).drop index)) = .ok cached := by
  induction hleft : (lines lf payload).length - index generalizing index with
  | zero =>
    rw [List.drop_of_length_le (by rw [length_contentSpans]; omega)]
    exact ⟨[], rfl⟩
  | succ left ih =>
    have hline : (lines lf payload)[index]? = some (lines lf payload)[index] :=
      List.getElem?_eq_getElem (by omega)
    obtain ⟨later, hlater⟩ := ih (index + 1) (by omega)
    rw [drop_contentSpans hline, scanLines, ObjectDb.eval_bind, ObjectDb.eval_check, Outcome.ok_bind,
      slice_whole hline]
    cases hoccurrence : firstOccurrence matcher (content lf (lines lf payload)[index]) with
    | none => exact ⟨later, hlater⟩
    | some occurrence =>
      have hcolumn := hmatcher _ occurrence (List.mem_of_head? hoccurrence)
      obtain ⟨cached, hcached⟩ := cacheLine_returns db contextLines hfits hline hcolumn
      obtain ⟨column, columnEnd⟩ := occurrence
      simp only [ObjectDb.eval_bind, hcached, hlater, Outcome.ok_bind]
      exact ⟨_, rfl⟩

private theorem scanPayload_returns (db : ObjectDb) (payload : Bytes) (contextLines : ℕ)
    (hfits : payload.length ≤ u32Max)
    (hmatcher : ∀ line, ∀ occurrence ∈ matcher line, occurrence.1 ≤ line.length) :
    ∃ cached, db.eval (scanPayload payload matcher contextLines) = .ok cached := by
  rw [scanPayload, ObjectDb.eval_bind, eval_lineSpans, Outcome.ok_bind]
  exact scanLines_returns 0 hfits hmatcher

end Returns

private theorem matches_of_scanPayload {snapshot : Snapshot} {path : Bytes} {blobOid : Oid}
    {cached : List CachedLineMatch}
    (h : db.eval (scanPayload payload matcher contextLines) = .ok cached) :
    cached.map (matchOf snapshot matcher path blobOid payload) =
      lineMatches snapshot matcher path blobOid contextLines payload := by
  rw [scanPayload, ObjectDb.eval_bind, eval_lineSpans, Outcome.ok_bind] at h
  exact matches_of_scanLines 0 h

/-! ### Checks -/

private theorem strict_check : Query.check.Strict (· = StoreOp.check) := Program.strict_request rfl

private theorem strict_lineSpansLoop (fuel chunkStart start : ℕ) (spans : List (ℕ × ℕ)) :
    (lineSpansLoop payload fuel chunkStart start spans).Strict (· = .check) := by
  induction fuel generalizing chunkStart start spans with
  | zero => exact Program.strict_diverge
  | succ fuel ih =>
    rw [lineSpansLoop]
    split
    · exact strict_check.bind fun _ ↦ ih _ _ _
    · exact Program.strict_pure _

private theorem strict_contextSpan (spans : List (ℕ × ℕ)) (first stop : ℕ) :
    (contextSpan spans first stop).Strict (· = .check) := by
  rw [contextSpan]
  split
  · exact (Program.strict_unwrap _).bind fun _ ↦ (Program.strict_unwrap _).bind fun _ ↦
      (Program.strict_ofExcept _).bind fun _ ↦ Program.strict_pure _
  · exact Program.strict_pure _

private theorem strict_cacheLine (spans : List (ℕ × ℕ)) (contextLines index start stop firstStart : ℕ) :
    (cacheLine spans contextLines index start stop firstStart).Strict (· = .check) :=
  (Program.strict_ofExcept _).bind fun _ ↦ (Program.strict_ofExcept _).bind fun _ ↦
    (Program.strict_ofExcept _).bind fun _ ↦ (Program.strict_ofExcept _).bind fun _ ↦
    (strict_contextSpan _ _ _).bind fun _ ↦ (strict_contextSpan _ _ _).bind fun _ ↦ Program.strict_pure _

private theorem strict_scanLines (contextLines index : ℕ) (spans rest : List (ℕ × ℕ)) :
    (scanLines payload matcher contextLines spans index rest).Strict (· = .check) := by
  induction rest generalizing index with
  | nil => exact Program.strict_pure _
  | cons span rest ih =>
    refine strict_check.bind fun _ ↦ ?_
    split
    · exact ih _
    · exact (strict_cacheLine _ _ _ _ _ _).bind fun _ ↦ (ih _).bind fun _ ↦ Program.strict_pure _

/-- A scan only checks the budget. -/
theorem strict_scanPayload (payload : Bytes) (matcher : CompiledMatcher) (contextLines : ℕ) :
    (scanPayload payload matcher contextLines).Strict (· = .check) :=
  (strict_lineSpansLoop _ _ _ _).bind fun _ ↦ strict_scanLines _ _ _ _

private theorem strict_emitItems (limit maxResultBytes : ℕ) (items : List Emitted) (collected : Collected) :
    (emitItems limit maxResultBytes items collected).Strict (· = .check) := by
  induction items generalizing collected with
  | nil => exact Program.strict_pure _
  | cons item items ih =>
    refine strict_check.bind fun _ ↦ ?_
    split
    · exact Program.strict_pure _
    · refine (Program.strict_ofExcept _).bind fun _ ↦ ?_
      split
      · exact Program.strict_pure _
      · exact ih _

private theorem strict_emitMatches (snapshot : Snapshot) (matcher : CompiledMatcher) (opts : SearchOptions)
    (candidate : BlobCandidate) (lines : List CachedLineMatch) (payload : Bytes) (startOrdinal : Option ℕ)
    (collected : Collected) :
    (emitMatches snapshot matcher opts candidate lines payload startOrdinal collected).Strict
      (· = .check) :=
  (Program.strict_ofExcept _).bind fun _ ↦ strict_emitItems _ _ _ _

/-- A check has one answer. -/
theorem answer_check (db : ObjectDb) (op : StoreOp) (a : op.Answer) (h : op = .check) :
    db.answer op = .ok a := by
  subst h
  rfl

/-! ### Emission -/

/-- What stops a page before the matches that are left: it is full, or the next match would make it too large, or
its first match is too large alone. -/
inductive Stops (limit maxResultBytes : ℕ) (collected : Collected) : List SearchMatch → String → Prop
  | full {next : SearchMatch} {later : List SearchMatch} (h : collected.emitted.length = limit) :
    Stops limit maxResultBytes collected (next :: later) "limit"
  | large {next : SearchMatch} {later : List SearchMatch}
    (h : maxResultBytes < saturatingAdd collected.payloadBytes next.payloadBytes) :
    Stops limit maxResultBytes collected (next :: later) "max_result_bytes"
  | alone {later : List SearchMatch} (h : collected.emitted.length = 1) (hbytes : maxResultBytes < collected.payloadBytes) :
    Stops limit maxResultBytes collected later "max_result_bytes"

/-- A page takes the first of the items that it is given; it takes all of them unless a limit stops it. -/
theorem emitted_of_emitItems {limit maxResultBytes : ℕ} {items : List Emitted}
    {collected collected' : Collected} {stopped : Option String}
    (h : db.eval (emitItems limit maxResultBytes items collected) = .ok (collected', stopped)) :
    ∃ count, collected'.emitted = collected.emitted ++ items.take count ∧
      (stopped = none → items.length ≤ count) ∧
      ∀ reason ∈ stopped, Stops limit maxResultBytes collected' ((items.drop count).map (·.item)) reason := by
  induction items generalizing collected with
  | nil =>
    cases h
    exact ⟨0, by simp, fun _ ↦ Nat.le_refl 0, nofun⟩
  | cons item items ih =>
    rw [emitItems, ObjectDb.eval_bind, ObjectDb.eval_check, Outcome.ok_bind] at h
    split at h
    · next hfull =>
      cases h
      refine ⟨0, by simp, nofun, ?_⟩
      rintro _ ⟨⟩
      exact .full hfull
    · rw [ObjectDb.eval_bind, Outcome.bind_eq_ok] at h
      obtain ⟨-, -, h⟩ := h
      split at h
      · next hlarge =>
        cases h
        by_cases hfirst : collected.emitted = []
        · refine ⟨1, by simp [hfirst, Collected.push], nofun, ?_⟩
          rintro _ ⟨⟩
          rw [if_pos hfirst]
          exact .alone (by simp [hfirst, Collected.push]) hlarge
        · refine ⟨0, by simp [hfirst], nofun, ?_⟩
          rintro _ ⟨⟩
          rw [if_neg hfirst]
          exact .large hlarge
      · obtain ⟨count, hemitted, hall, hstops⟩ := ih h
        refine ⟨count + 1, ?_, fun hstopped ↦ Nat.succ_le_succ (hall hstopped), hstops⟩
        rw [hemitted, Collected.push, List.append_assoc]
        rfl

/-- Items that have an ordinal of a cursor are emitted until a limit stops the page. -/
theorem emitItems_returns (db : ObjectDb) (limit maxResultBytes : ℕ) {items : List Emitted} (collected : Collected)
    (hordinals : ∀ item ∈ items, item.ordinal ≤ u32Max) :
    ∃ result, db.eval (emitItems limit maxResultBytes items collected) = .ok result := by
  induction items generalizing collected with
  | nil => exact ⟨_, rfl⟩
  | cons item items ih =>
    have hordinal : checkOrdinal item.ordinal = .ok () := ensure_eq_ok.mpr (hordinals item List.mem_cons_self)
    rw [emitItems, ObjectDb.eval_bind, ObjectDb.eval_check, Outcome.ok_bind]
    split
    · exact ⟨_, rfl⟩
    · rw [ObjectDb.eval_bind, ObjectDb.eval_ofExcept, hordinal, Outcome.ofExcept_ok, Outcome.ok_bind]
      split
      · exact ⟨_, rfl⟩
      · exact ih _ fun item hitem ↦ hordinals item (List.mem_cons_of_mem _ hitem)

private theorem startLine_eq_ok {count first : ℕ} {startOrdinal : Option ℕ}
    (h : startLine count startOrdinal = .ok first) : first = startOrdinal.getD 0 := by
  cases startOrdinal with
  | none =>
    cases h
    rfl
  | some ordinal =>
    obtain ⟨-, -, h⟩ := Except.bind_eq_ok.mp h
    cases h
    rfl

private theorem map_item_fileItems (snapshot : Snapshot) (candidate : BlobCandidate)
    (cached : List CachedLineMatch) :
    (fileItems snapshot matcher candidate payload cached).map (·.item) =
      cached.map (matchOf snapshot matcher candidate.path candidate.oid payload) := by
  simp only [fileItems, List.map_map]
  conv_rhs => rw [← List.zipIdx_map_fst 0 cached, List.map_map]
  rfl

/-- A line of a file that it has matches in can be started at. -/
theorem startLine_returns {count : ℕ} {startOrdinal : Option ℕ} (h : ∀ start ∈ startOrdinal, start - 1 < count) :
    ∃ first, startLine count startOrdinal = .ok first := by
  cases startOrdinal with
  | none => exact ⟨0, rfl⟩
  | some start => exact ⟨start, by simp [startLine, ensure, h start rfl, bind, Except.bind, pure, Except.pure]⟩

private theorem length_lineMatches_le (snapshot : Snapshot) (path : Bytes) (blobOid : Oid) (payload : Bytes) :
    (lineMatches snapshot matcher path blobOid contextLines payload).length ≤ payload.length := by
  refine (List.length_filterMap_le _ _).trans ?_
  rw [List.length_zipIdx, contents, List.length_map]
  exact length_lines_le lf payload

/-- A file with as many matches as it has lines is emitted from each of them on. -/
theorem emitMatches_returns (db : ObjectDb) (snapshot : Snapshot) (opts : SearchOptions) (candidate : BlobCandidate)
    {cached : List CachedLineMatch} (payload : Bytes) {startOrdinal : Option ℕ} (collected : Collected)
    (hfits : cached.length ≤ u32Max) (hstart : ∀ start ∈ startOrdinal, start - 1 < cached.length) :
    ∃ result, db.eval (emitMatches snapshot matcher opts candidate cached payload startOrdinal collected) =
      .ok result := by
  obtain ⟨first, hfirst⟩ := startLine_returns hstart
  rw [emitMatches, ObjectDb.eval_bind, ObjectDb.eval_ofExcept, hfirst, Outcome.ofExcept_ok, Outcome.ok_bind]
  refine emitItems_returns db _ _ collected fun item hitem ↦ ?_
  obtain ⟨⟨line, ordinal⟩, hline, rfl⟩ := List.mem_map.mp (List.mem_of_mem_drop hitem)
  have hordinal := (List.mem_zipIdx hline).2.1
  exact hordinal.le.trans (by omega)

/-! ### The main result -/

/-- What a match says, whatever the checks of the budget answer: a scan that returns has found the lines
with an occurrence, and its emission adds their matches from its start on, all of them unless a limit that the page
has reached stops it. A scan returns when its positions fit and its checks succeed, and so does its emission from
any of the matches on. -/
theorem emitMatches_scanPayload {S : Type} (handler : ∀ op : StoreOp, S → Except Error op.Answer × S)
    (snapshot : Snapshot) (matcher : CompiledMatcher) (opts : SearchOptions) (candidate : BlobCandidate)
    (payload : Bytes) :
    (∀ cached s s', (scanPayload payload matcher opts.contextLines).exec handler s = (.ok cached, s') →
      ∀ startOrdinal collected collected' stopped t t',
        (emitMatches snapshot matcher opts candidate cached payload startOrdinal collected).exec handler t =
          (.ok (collected', stopped), t') →
        ∃ count, collected'.emitted.map (·.item) = collected.emitted.map (·.item) ++
            ((lineMatches snapshot matcher candidate.path candidate.oid opts.contextLines payload).drop
              (startOrdinal.getD 0)).take count ∧
          (stopped = none →
            (lineMatches snapshot matcher candidate.path candidate.oid opts.contextLines payload).length ≤
              startOrdinal.getD 0 + count) ∧
          ∀ reason ∈ stopped, Stops opts.limit opts.maxResultBytes collected'
            ((lineMatches snapshot matcher candidate.path candidate.oid opts.contextLines payload).drop
              (startOrdinal.getD 0 + count)) reason) ∧
    (payload.length ≤ u32Max → (∀ line, ∀ occurrence ∈ matcher line, occurrence.1 ≤ line.length) →
      (∀ s, (handler .check s).1 = .ok ()) →
      ∀ s, ∃ cached s', (scanPayload payload matcher opts.contextLines).exec handler s = (.ok cached, s') ∧
        ∀ startOrdinal : Option ℕ, (∀ start ∈ startOrdinal, start - 1 <
            (lineMatches snapshot matcher candidate.path candidate.oid opts.contextLines payload).length) →
          ∀ collected t, ∃ collected' stopped t',
            (emitMatches snapshot matcher opts candidate cached payload startOrdinal collected).exec handler t =
              (.ok (collected', stopped), t')) := by
  let db : ObjectDb := ObjectDb.ofFind .sha1 none fun _ ↦ .ok none
  constructor
  · intro cached s s' hscan startOrdinal collected collected' stopped t t' hemit
    have hcached := (strict_scanPayload _ _ _).eval_of_exec (answer_check db) hscan
    have hemitted := (strict_emitMatches _ _ _ _ _ _ _ _).eval_of_exec (answer_check db) hemit
    change db.eval _ = _ at hemitted
    rw [emitMatches, ObjectDb.eval_bind] at hemitted
    obtain ⟨first, hfirst, hitems⟩ := Outcome.bind_eq_ok.mp hemitted
    rw [← startLine_eq_ok (Outcome.ofExcept_eq_ok.mp hfirst), ← matches_of_scanPayload hcached,
      ← map_item_fileItems]
    obtain ⟨count, hcount, hall, hstops⟩ := emitted_of_emitItems hitems
    refine ⟨count, ?_, fun hstopped ↦ ?_, fun reason hreason ↦ ?_⟩
    · rw [hcount, List.map_append, List.map_take, List.map_drop]
    · have hlength := hall hstopped
      rw [List.length_drop] at hlength
      rw [List.length_map]
      omega
    · rw [← List.map_drop, ← List.drop_drop]
      exact hstops reason hreason
  · intro hfits hmatcher hcheck s
    have hanswers : ∀ op s, op = .check → ∃ a, (handler op s).1 = .ok a :=
      fun op s hop ↦ by subst hop; exact ⟨(), hcheck s⟩
    obtain ⟨cached, hcached⟩ := scanPayload_returns db payload opts.contextLines hfits hmatcher
    have hexec := (strict_scanPayload payload matcher opts.contextLines).exec_of_eval (answer_check db) hanswers s
    refine ⟨cached, _, Prod.ext (hexec.trans hcached) rfl, fun startOrdinal hstart collected t ↦ ?_⟩
    have hlength : cached.length =
        (lineMatches snapshot matcher candidate.path candidate.oid opts.contextLines payload).length := by
      rw [← matches_of_scanPayload hcached, List.length_map]
    obtain ⟨⟨collected', stopped⟩, hemitted⟩ := emitMatches_returns db snapshot opts candidate payload collected
      (hlength.trans_le ((length_lineMatches_le _ _ _ _).trans hfits)) (hlength ▸ hstart)
    have hexec' := (strict_emitMatches snapshot matcher opts candidate cached payload startOrdinal
      collected).exec_of_eval (answer_check db) hanswers t
    exact ⟨collected', stopped, _, Prod.ext (hexec'.trans hemitted) rfl⟩

/-- Lines that begin with `x`. -/
def sampleMatcher : CompiledMatcher := fun line ↦ if line.head? = some 0x78 then [(0, 1)] else []

/-- Two such lines, the first with an empty line behind it. -/
def sampleBlobText : Bytes := Bytes.ascii "a\nxb\n\nxc"

/-- The matches of this text, with a line of context. -/
def sampleLineMatches : List SearchMatch :=
  lineMatches ⟨sampleId 3, sampleId 4⟩ sampleMatcher [0x66] (sampleId 1) 1 sampleBlobText

/-- A page of one match is full before the second one, and the next page can start at it. -/
theorem emitMatches_scanPayload_sample : (∃ (found : SearchMatch) (page : Collected) (count : ℕ),
      found.contextBefore = [Bytes.ascii "a"] ∧ found.contextAfter = [[]] ∧
      page.emitted.map (·.item) = [found] ∧ [found] = [] ++ (sampleLineMatches.drop 0).take count ∧
      Stops 1 1000 page (sampleLineMatches.drop (0 + count)) "limit") ∧
    ∃ cached, ((scanPayload sampleBlobText sampleMatcher 1).exec (fun op (_ : Unit) ↦
        ((ObjectDb.ofFind .sha1 none fun _ ↦ .ok none).answer op, ())) ()).1 = .ok cached ∧
      ∃ collected stopped t', (emitMatches ⟨sampleId 3, sampleId 4⟩ sampleMatcher
          { contextLines := 1, limit := 1, maxResultBytes := 1000 } ⟨[0x66], sampleId 1⟩ cached sampleBlobText (some 1)
          {}).exec (fun op (_ : Unit) ↦ ((ObjectDb.ofFind .sha1 none fun _ ↦ .ok none).answer op, ())) () =
        (.ok (collected, stopped), t') := by
  obtain ⟨hscanned, hreturns⟩ := @emitMatches_scanPayload Unit
    (fun op _ ↦ ((ObjectDb.ofFind .sha1 none fun _ ↦ .ok none).answer op, ()))
    ⟨sampleId 3, sampleId 4⟩ sampleMatcher { contextLines := 1, limit := 1, maxResultBytes := 1000 }
    ⟨[0x66], sampleId 1⟩ sampleBlobText
  constructor
  · obtain ⟨count, hcount, -, hstops⟩ := hscanned
      [⟨2, 0, ⟨2, 4⟩, 4, some ⟨0, 1⟩, some ⟨5, 5⟩⟩, ⟨4, 0, ⟨6, 8⟩, 8, some ⟨5, 5⟩, none⟩] () () rfl none {} _
      (some "limit") () () rfl
    exact ⟨_, _, count, rfl, rfl, rfl, hcount, hstops _ rfl⟩
  · have hmatcher : ∀ line, ∀ occurrence ∈ sampleMatcher line, occurrence.1 ≤ line.length := by
      intro line occurrence hmem
      rw [sampleMatcher] at hmem
      split at hmem
      · obtain rfl := List.mem_singleton.mp hmem
        exact Nat.zero_le _
      · cases hmem
    obtain ⟨cached, s', hcached, hemits⟩ := hreturns (by decide) hmatcher (fun _ ↦ rfl) ()
    exact ⟨cached, congrArg Prod.fst hcached, hemits (some 1) (by decide +kernel) {} ()⟩

end Gitility.Search
