import Gitility.Base.Occurrences
import Gitility.Search.Scan

/-!
# The literal search of a line

`literal_occurrences` of `crates/gitility-core/src/search.rs` looks for a query in windows of a line,
so that the budget is checked between them. A window is a core and as much of the line behind it as
an occurrence that starts in the core needs; `next_allowed` carries the end of the last occurrence
over the border of a window. The substring search of the `bstr` crate is a parameter.
-/

namespace Gitility.Search

variable {σ β : Type}

/-! ### The scan -/

section Scan

variable (find : Bytes → Bytes → Option ℕ) (line query : Bytes) (visit : σ → ℕ × ℕ → Option β × σ)

/-- The slice `line[start..stop]`, which panics outside of the line. -/
def lineWindow (start stop : ℕ) : Query Bytes :=
  Program.unwrap (if start ≤ stop ∧ stop ≤ line.length then some (slice line start stop) else none)

/-- The inner loop of `literal_occurrences`, for one window. The visitor keeps a state and answers
`some` to break; with its answer come that state and `next_allowed`. -/
def scanWindow (coreEnd windowEnd : ℕ) : ℕ → σ → ℕ → ℕ → Query (Option β × σ × ℕ)
  | 0, _, _, _ => Program.diverge
  | fuel + 1, state, nextAllowed, offset =>
    if offset ≤ windowEnd - query.length then do
      let window ← lineWindow line offset windowEnd
      match find window query with
      | none => pure (none, state, nextAllowed)
      | some relative =>
        let start := offset + relative
        -- The occurrence starts in a later core, whose window finds it again.
        if coreEnd ≤ start ∧ coreEnd < line.length then pure (none, state, nextAllowed)
        else
          let stop := start + query.length
          match visit state (start, stop) with
          | (some value, state) => pure (some value, state, nextAllowed)
          | (none, state) => scanWindow coreEnd windowEnd fuel state stop stop
    else pure (none, state, nextAllowed)

/-- The outer loop of `literal_occurrences`, for windows of one size. -/
def scanWindows (window : ℕ) : ℕ → σ → ℕ → ℕ → Query (Option β × σ)
  | 0, _, _, _ => Program.diverge
  | fuel + 1, state, coreStart, nextAllowed =>
    if coreStart < line.length then do
      Query.check
      let coreEnd := min (coreStart + window) line.length
      let windowEnd := min (coreEnd + (query.length - 1)) line.length
      let (found, state, nextAllowed) ← scanWindow find line query visit coreEnd windowEnd
        (line.length + 1) state nextAllowed (max nextAllowed coreStart)
      match found with
      | some value => pure (some value, state)
      | none => scanWindows window fuel state coreEnd nextAllowed
    else pure (none, state)

/-- `literal_occurrences` with windows of a given size. -/
def windowedOccurrences (window : ℕ) (state : σ) : Query (Option β × σ) :=
  if query = [] ∨ line.length < query.length then do
    Query.check
    return (none, state)
  else scanWindows find line query visit window (line.length + 1) state 0 0

/-- `search.rs` `literal_occurrences`. -/
def literalOccurrences (state : σ) : Query (Option β × σ) :=
  windowedOccurrences find line query visit scanCheckBytes state

/-- `CompiledMatcher::first_occurrence` for a literal. -/
def literalFirstOccurrence : Query (Option (ℕ × ℕ)) :=
  if query = [] then pure (some (0, 0))
  else do
    let (found, _) ← literalOccurrences find line query (fun _ span ↦ (some span, ())) ()
    return found

/-- The closure `retain` of `preview_submatches`, for one occurrence. -/
def retainSpan (previewLen : ℕ) (retained : List SearchSubmatch × Bool) (span : ℕ × ℕ) :
    Option Unit × List SearchSubmatch × Bool :=
  if previewLen ≤ span.1 ∨ retained.1.length = maxSubmatches then (some (), retained.1, true)
  else (none, retained.1 ++ [⟨min span.1 u32Max, min (min span.2 previewLen - span.1) u32Max⟩], retained.2)

/-- `CompiledMatcher::preview_submatches` for a literal. -/
def literalPreviewSubmatches (previewLen : ℕ) : Query (List SearchSubmatch × Bool) :=
  if query = [] then
    let retained := min previewLen maxSubmatches
    pure ((List.range retained).map fun start ↦ ⟨start, 0⟩, retained < line.length + 1)
  else do
    let (_, retained) ← literalOccurrences find line query (retainSpan previewLen) ([], false)
    return retained

end Scan

/-! ### What a plain search visits -/

/-- The visits of all spans in their order, up to the first that breaks. -/
def visitAll (visit : σ → ℕ × ℕ → Option β × σ) : σ → List (ℕ × ℕ) → Option β × σ
  | state, [] => (none, state)
  | state, span :: spans =>
    match visit state span with
    | (some value, state) => (some value, state)
    | (none, state) => visitAll visit state spans

/-- The spans of a query that stands at the given positions. -/
def querySpans (query : Bytes) (starts : List ℕ) : List (ℕ × ℕ) :=
  starts.map fun start ↦ (start, start + query.length)

/-- A query after a number of budget checks. -/
def afterChecks {α : Type} : ℕ → Query α → Query α
  | 0, q => q
  | checks + 1, q => do
    Query.check
    afterChecks checks q

private theorem visitAll_break {visit : σ → ℕ × ℕ → Option β × σ} {state state' : σ} {span : ℕ × ℕ} {value : β}
    (h : visit state span = (some value, state')) (spans : List (ℕ × ℕ)) :
    visitAll visit state (span :: spans) = (some value, state') := by
  rw [visitAll, h]

private theorem visitAll_continue {visit : σ → ℕ × ℕ → Option β × σ} {state state' : σ} {span : ℕ × ℕ}
    (h : visit state span = (none, state')) (spans : List (ℕ × ℕ)) :
    visitAll visit state (span :: spans) = visitAll visit state' spans := by
  rw [visitAll, h]

/-! ### One window -/

section Window

variable {find : Bytes → Bytes → Option ℕ} {line query : Bytes}
variable {visit : σ → ℕ × ℕ → Option β × σ} {start stop coreEnd windowEnd nextAllowed offset : ℕ}
variable {state : σ} {starts : List ℕ}

private theorem lineWindow_eq (hstart : start ≤ stop) (hstop : stop ≤ line.length) :
    lineWindow line start stop = pure (slice line start stop) := by
  rw [lineWindow, if_pos ⟨hstart, hstop⟩]
  rfl

/-- The inner loop inside the window: what the search finds there decides. -/
theorem scanWindow_succ (hoffset : offset ≤ windowEnd - query.length) (hline : windowEnd ≤ line.length)
    (fuel : ℕ) :
    scanWindow find line query visit coreEnd windowEnd (fuel + 1) state nextAllowed offset =
      match find (slice line offset windowEnd) query with
      | none => pure (none, state, nextAllowed)
      | some relative =>
        if coreEnd ≤ offset + relative ∧ coreEnd < line.length then pure (none, state, nextAllowed)
        else match visit state (offset + relative, offset + relative + query.length) with
          | (some value, state) => pure (some value, state, nextAllowed)
          | (none, state) => scanWindow find line query visit coreEnd windowEnd fuel state
              (offset + relative + query.length) (offset + relative + query.length) := by
  rw [scanWindow, if_pos hoffset, lineWindow_eq (by omega) hline]
  rfl

/-- An occurrence that starts in the core ends in its window. -/
theorem end_le_window (hoccurs : OccursAt query line start) (hquery : query ≠ [])
    (hwindow : windowEnd = min (coreEnd + (query.length - 1)) line.length) (hstart : start < coreEnd) :
    start + query.length ≤ windowEnd := by
  have hend := hoccurs.end_le hquery
  omega

/-- What one window leaves to do: either the visitor broke, as it does over all the occurrences, or
the occurrences that start behind the core are still to be visited. -/
inductive WindowRun (line query : Bytes) (visit : σ → ℕ × ℕ → Option β × σ) (coreEnd : ℕ) (all : Option β × σ) :
    Option β × σ × ℕ → Prop
  | broke {value : β} {state : σ} {nextAllowed : ℕ} (visits : all = (some value, state)) :
      WindowRun line query visit coreEnd all (some value, state, nextAllowed)
  | left {state : σ} {nextAllowed : ℕ} {starts : List ℕ}
      (rest : Leftmost query line (max nextAllowed coreEnd) starts)
      (visits : all = visitAll visit state (querySpans query starts)) :
      WindowRun line query visit coreEnd all (none, state, nextAllowed)

/-- A window that stops before it reaches an occurrence in its core leaves all of them. -/
theorem WindowRun.of_not_occursAt (hstarts : Leftmost query line offset starts)
    (hallowed : max nextAllowed coreEnd = max offset coreEnd)
    (hnone : ∀ i, offset ≤ i → i < coreEnd → ¬ OccursAt query line i) :
    WindowRun line query visit coreEnd (visitAll visit state (querySpans query starts))
      (none, state, nextAllowed) := by
  refine .left ?_ rfl
  rw [hallowed]
  exact hstarts.advance (le_max_left _ _) fun i hi hlt ↦ hnone i hi (by omega)

/-- The inner loop ends, without a slice outside of the line, and visits the occurrences that start in
the core. -/
theorem scanWindow_spec (hfind : FindsFirst find) (hquery : query ≠ [])
    (hwindow : windowEnd = min (coreEnd + (query.length - 1)) line.length) (fuel : ℕ)
    (hfuel : windowEnd - offset < fuel) (hstarts : Leftmost query line offset starts)
    (hallowed : max nextAllowed coreEnd = max offset coreEnd) :
    ∃ result, scanWindow find line query visit coreEnd windowEnd fuel state nextAllowed offset =
        pure result ∧
      WindowRun line query visit coreEnd (visitAll visit state (querySpans query starts)) result := by
  have hpos := List.length_pos_iff.mpr hquery
  have hline : windowEnd ≤ line.length := by omega
  induction fuel generalizing state nextAllowed offset starts with
  | zero => omega
  | succ fuel ih =>
    by_cases hoffset : offset ≤ windowEnd - query.length
    · rw [scanWindow_succ hoffset hline]
      cases hfound : find (slice line offset windowEnd) query with
      | none =>
        refine ⟨_, rfl, .of_not_occursAt hstarts hallowed fun i hi hlt hocc ↦ ?_⟩
        obtain ⟨k, rfl⟩ := Nat.exists_eq_add_of_le hi
        have hend := end_le_window hocc hquery hwindow hlt
        exact hfind.not_occursAt hfound k ((occursAt_slice hquery).mpr ⟨hocc, hend⟩)
      | some relative =>
        obtain ⟨hfirst, hend⟩ := ((hfind _ _ _).mp hfound).of_slice hquery
        dsimp only
        split
        · next hlater =>
          -- The first occurrence from here on is behind the core.
          exact ⟨_, rfl, .of_not_occursAt hstarts hallowed fun i hi hlt ↦ hfirst.first i hi (by omega)⟩
        · next hcore =>
          obtain ⟨rest, rfl, hrest⟩ := hstarts.eq_cons hfirst
          cases hvisit : visit state (offset + relative, offset + relative + query.length) with
          | mk found state' =>
            cases found with
            | some value => exact ⟨_, rfl, .broke (visitAll_break hvisit _)⟩
            | none =>
              obtain ⟨result, hresult, hrun⟩ := ih (by omega) hrest rfl
              refine ⟨result, hresult, ?_⟩
              rwa [querySpans, List.map_cons, visitAll_continue hvisit]
    · rw [scanWindow, if_neg hoffset]
      refine ⟨_, rfl, .of_not_occursAt hstarts hallowed fun i hi hlt hocc ↦ ?_⟩
      have hend := end_le_window hocc hquery hwindow hlt
      omega

end Window

/-! ### The whole line -/

section Line

variable {find : Bytes → Bytes → Option ℕ} {line query : Bytes} {visit : σ → ℕ × ℕ → Option β × σ}
variable {window coreStart nextAllowed : ℕ} {state : σ} {starts : List ℕ}

/-- The outer loop inside the line: a check, one window and, unless the visitor broke, the rest. -/
theorem scanWindows_succ {found : Option β} {state' : σ} {nextAllowed' : ℕ}
    (hcore : coreStart < line.length)
    (hscan : scanWindow find line query visit (min (coreStart + window) line.length)
      (min (min (coreStart + window) line.length + (query.length - 1)) line.length) (line.length + 1)
      state nextAllowed (max nextAllowed coreStart) = pure (found, state', nextAllowed')) (fuel : ℕ) :
    scanWindows find line query visit window (fuel + 1) state coreStart nextAllowed = (do
      Query.check
      match found with
      | some value => pure (some value, state')
      | none =>
        scanWindows find line query visit window fuel state' (min (coreStart + window) line.length)
          nextAllowed') := by
  rw [scanWindows, if_pos hcore]
  dsimp only
  rw [hscan]
  rfl

/-- The outer loop at a position visits the leftmost occurrences from there on. -/
theorem scanWindows_spec (hfind : FindsFirst find) (hquery : query ≠ []) (hwindow : 0 < window)
    (fuel : ℕ) (hfuel : line.length - coreStart < fuel)
    (hstarts : Leftmost query line (max nextAllowed coreStart) starts) :
    ∃ checks, scanWindows find line query visit window fuel state coreStart nextAllowed =
      afterChecks checks (pure (visitAll visit state (querySpans query starts))) := by
  induction fuel generalizing state coreStart nextAllowed starts with
  | zero => omega
  | succ fuel ih =>
    by_cases hcore : coreStart < line.length
    · have hallowed : max nextAllowed (min (coreStart + window) line.length) =
          max (max nextAllowed coreStart) (min (coreStart + window) line.length) := by omega
      obtain ⟨result, hscan, hrun⟩ := scanWindow_spec hfind hquery rfl (line.length + 1) (by omega)
        hstarts hallowed
      cases hrun with
      | broke visits =>
        rw [scanWindows_succ hcore hscan, visits]
        exact ⟨1, rfl⟩
      | @left state' nextAllowed' later rest visits =>
        obtain ⟨checks, hchecks⟩ := @ih _ _ state' _ (by omega) rest
        rw [scanWindows_succ hcore hscan, visits]
        exact ⟨checks + 1, congrArg (fun later ↦ Query.check >>= fun _ ↦ later) hchecks⟩
    · have hpos := List.length_pos_iff.mpr hquery
      obtain rfl := hstarts.eq_nil hquery (by omega)
      rw [scanWindows, if_neg hcore]
      exact ⟨0, rfl⟩

/-- With windows of any size the scan visits the leftmost occurrences in their order. -/
theorem windowedOccurrences_eq (hfind : FindsFirst find) (hquery : query ≠ []) (hwindow : 0 < window)
    (hstarts : Leftmost query line 0 starts) :
    ∃ checks, windowedOccurrences find line query visit window state =
      afterChecks checks (pure (visitAll visit state (querySpans query starts))) := by
  rw [windowedOccurrences]
  split
  · next hshort =>
    have hlength := hshort.resolve_left hquery
    obtain rfl := hstarts.eq_nil hquery (by omega)
    exact ⟨1, rfl⟩
  · exact scanWindows_spec hfind hquery hwindow _ (by omega) hstarts

/-- `literal_occurrences` visits the leftmost occurrences in their order. -/
theorem literalOccurrences_eq (visit : σ → ℕ × ℕ → Option β × σ) (state : σ) (hfind : FindsFirst find)
    (hquery : query ≠ []) (hstarts : Leftmost query line 0 starts) :
    ∃ checks, literalOccurrences find line query visit state =
      afterChecks checks (pure (visitAll visit state (querySpans query starts))) :=
  windowedOccurrences_eq hfind hquery (by decide) hstarts

/-- For windows of any size, `literal_occurrences` visits the leftmost occurrences of the query that do
not overlap, in their order and each once, until the visitor breaks. Its loops end and its slices are
inside of the line: only a budget check can stop it. -/
theorem windowedOccurrences_exact (hfind : FindsFirst find) (hquery : query ≠ []) (hwindow : 0 < window) :
    ∃ starts, (∀ found, Leftmost query line 0 found ↔ found = starts) ∧
      ∀ {σ β : Type} (visit : σ → ℕ × ℕ → Option β × σ) (state : σ), ∃ checks,
        windowedOccurrences find line query visit window state =
          afterChecks checks (pure (visitAll visit state (querySpans query starts))) := by
  obtain ⟨starts, hstarts⟩ := Leftmost.exists_of_ne_nil hquery line 0
  refine ⟨starts, fun found ↦ ⟨fun h ↦ h.unique hstarts, fun h ↦ h ▸ hstarts⟩, fun visit state ↦ ?_⟩
  exact windowedOccurrences_eq hfind hquery hwindow hstarts

/-- A query that overlaps itself, across the borders of windows that are as long as it is. -/
theorem windowedOccurrences_exact_sample :
    ∃ checks, windowedOccurrences firstIndex [97, 97, 97, 97, 97] [97, 97]
        (fun spans span ↦ ((none : Option Unit), spans ++ [span])) 2 [] =
      afterChecks checks (pure (none, [(0, 2), (2, 4)])) := by
  obtain ⟨starts, hstarts, hvisits⟩ := @windowedOccurrences_exact firstIndex [97, 97, 97, 97, 97] [97, 97] 2
    findsFirst_firstIndex (by decide) (by decide)
  have hleftmost : Leftmost [97, 97] ([97, 97, 97, 97, 97] : Bytes) 0 [0, 2] := by
    refine .next ⟨by decide, by decide, by omega⟩ (.next ⟨by decide, by decide, ?_⟩ (.done ?_))
    · intro j hj hlt
      simp only [List.length_cons, List.length_nil] at hj
      omega
    · intro i hi hoccurs
      have hend := hoccurs.end_le (by decide)
      simp only [List.length_cons, List.length_nil] at hi hend
      omega
  obtain rfl := (hstarts _).mp hleftmost
  exact hvisits _ _

end Line

/-! ### The matcher of a literal -/

section Matcher

variable {find : Bytes → Bytes → Option ℕ} {line query : Bytes}

/-- `retain` over the occurrences is its visit of each. -/
theorem visitAll_retainSpan (previewLen : ℕ) (spans : List (ℕ × ℕ)) (kept : List SearchSubmatch) :
    (visitAll (retainSpan previewLen) (kept, false) spans).2 = retain previewLen spans kept := by
  induction spans generalizing kept with
  | nil => rfl
  | cons span spans ih =>
    obtain ⟨start, stop⟩ := span
    rw [retain]
    split
    · next hfull =>
      rw [visitAll_break (if_pos hfull)]
    · next hroom =>
      rw [visitAll_continue (if_neg hroom)]
      exact ih _

private theorem afterChecks_bind {α α' : Type} (checks : ℕ) (q : Query α) (f : α → Query α') :
    afterChecks checks q >>= f = afterChecks checks (q >>= f) := by
  induction checks with
  | zero => rfl
  | succ checks ih =>
    refine congrArg (Program.call StoreOp.check) (funext fun answer ↦ ?_)
    cases answer with
    | error error => rfl
    | ok value => exact ih

/-- The empty literal stands at every position: `retain` keeps those in the preview, up to its bound. -/
theorem retain_positions (previewLen : ℕ) (count start : ℕ) {kept : List SearchSubmatch}
    (hkept : kept.length = start) (hstart : start ≤ min previewLen maxSubmatches) :
    retain previewLen ((List.range' start count).map fun i ↦ (i, i)) kept =
      (kept ++ (List.range' start (min count (min previewLen maxSubmatches - start))).map fun i ↦ ⟨i, 0⟩,
        decide (min previewLen maxSubmatches - start < count)) := by
  induction count generalizing start kept with
  | zero => simp [retain]
  | succ count ih =>
    rw [List.range'_succ, List.map_cons, retain]
    split
    · next hfull =>
      have hend : min previewLen maxSubmatches - start = 0 := by omega
      simp [hend]
    · next hroom =>
      have hnext : start + 1 ≤ min previewLen maxSubmatches := by omega
      have hroomy : min previewLen maxSubmatches - start =
          min previewLen maxSubmatches - (start + 1) + 1 := by omega
      have hmatch : (⟨min start u32Max, min (min start previewLen - start) u32Max⟩ : SearchSubmatch) =
          ⟨start, 0⟩ := by
        have hsmall : maxSubmatches ≤ u32Max := by decide
        rw [min_eq_left (show start ≤ u32Max by omega), min_eq_left (show start ≤ previewLen by omega),
          Nat.sub_self, Nat.zero_min]
      rw [hmatch, ih (start + 1) (by simp [hkept]) hnext, hroomy, Nat.add_min_add_right, List.range'_succ]
      simp

/-- A literal is a matcher: some function from lines to occurrences gives, after the budget checks,
its first occurrence and its submatches in every line, and no occurrence starts behind its line. -/
theorem exists_literalMatcher (hfind : FindsFirst find) (query : Bytes) :
    ∃ matcher : CompiledMatcher, (∀ line, ∀ occurrence ∈ matcher line, occurrence.1 ≤ line.length) ∧
      ∀ line, (∃ checks, literalFirstOccurrence find line query =
          afterChecks checks (pure (firstOccurrence matcher line))) ∧
        ∀ previewLen ≤ line.length, ∃ checks, literalPreviewSubmatches find line query previewLen =
          afterChecks checks (pure (previewSubmatches matcher line previewLen)) := by
  by_cases hquery : query = []
  · refine ⟨fun line ↦ (List.range' 0 (line.length + 1)).map fun i ↦ (i, i), fun line occurrence hmem ↦ ?_,
      fun line ↦ ⟨⟨0, ?_⟩, fun previewLen hpreview ↦ ⟨0, ?_⟩⟩⟩
    · obtain ⟨i, hi, rfl⟩ := List.mem_map.mp hmem
      have hrange := (List.mem_range'_1.mp hi).2
      omega
    · rw [literalFirstOccurrence, if_pos hquery]
      rfl
    · rw [literalPreviewSubmatches, if_pos hquery, previewSubmatches,
        retain_positions previewLen _ 0 rfl (Nat.zero_le _), Nat.sub_zero,
        min_eq_right (show min previewLen maxSubmatches ≤ line.length + 1 by omega), ← List.range_eq_range']
      rfl
  · choose starts hstarts using fun line : Bytes ↦ Leftmost.exists_of_ne_nil hquery line 0
    refine ⟨fun line ↦ querySpans query (starts line), fun line occurrence hmem ↦ ?_, fun line ↦ ⟨?_, ?_⟩⟩
    · obtain ⟨start, hstart, rfl⟩ := List.mem_map.mp hmem
      have hend := ((hstarts line).occursAt hstart).end_le hquery
      exact (Nat.le_add_right _ _).trans hend
    · obtain ⟨checks, hchecks⟩ := literalOccurrences_eq (fun (_ : Unit) span ↦ (some span, ())) () hfind
        hquery (hstarts line)
      refine ⟨checks, ?_⟩
      rw [literalFirstOccurrence, if_neg hquery, hchecks, afterChecks_bind, firstOccurrence]
      cases querySpans query (starts line) with
      | nil => rfl
      | cons span spans => rfl
    · intro previewLen _
      obtain ⟨checks, hchecks⟩ := literalOccurrences_eq (retainSpan previewLen) ([], false) hfind hquery
        (hstarts line)
      refine ⟨checks, ?_⟩
      rw [literalPreviewSubmatches, if_neg hquery, hchecks, afterChecks_bind,
        previewSubmatches, ← visitAll_retainSpan]
      rfl

end Matcher
end Gitility.Search
