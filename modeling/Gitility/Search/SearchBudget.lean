import Gitility.Search.SearchPages

/-!
# The result-byte budget of a search

A call has lines ahead of it: those of the candidates that its walk yields from its cursor on, up to
the first candidate that cannot be read. It emits the first of them, as many as its limits let it, and
gives some up again when their cursor does not fit. The cursor is charged apart from the lines, so there
are budgets that hold the first line and not its cursor.
-/

namespace Gitility.Search

variable {db : ObjectDb} {gix : Gix} {query : SearchQuery} {snapshot : Snapshot}
  {matcher : CompiledMatcher} {maxObjectBytes : ℕ} {pattern : Bytes}

/-! ### Lines ahead -/

/-- The candidates that a walk yields, and how it ends. -/
def walkAll (db : ObjectDb) (scope : WalkScope) (bound : ℕ) :
    ℕ → BlobWalk → List BlobCandidate × Outcome Error Unit
  | 0, _ => ([], .diverged)
  | fuel + 1, walk =>
    match db.eval (next scope bound walk) with
    | .ok (none, _) => ([], .ok ())
    | .ok (some candidate, walk) =>
      let (candidates, ending) := walkAll db scope bound fuel walk
      (candidate :: candidates, ending)
    | .error error => ([], .error error)
    | .diverged => ([], .diverged)

/-- The lines of candidates up to the first that cannot be scanned, and how reading them ends. -/
def linesOf (db : ObjectDb) (snapshot : Snapshot) (matcher : CompiledMatcher) (query : SearchQuery)
    (maxObjectBytes : ℕ) :
    List BlobCandidate → Outcome Error Unit → List Emitted × Outcome Error Unit
  | [], ending => ([], ending)
  | candidate :: candidates, ending =>
    match scanOf db matcher query maxObjectBytes candidate.oid with
    | .ok _ =>
      let (lines, ending) := linesOf db snapshot matcher query maxObjectBytes candidates ending
      (itemsOf db snapshot matcher query maxObjectBytes candidate ++ lines, ending)
    | .error error => ([], .error error)
    | .diverged => ([], .diverged)

/-- The lines that are left for a call on its candidates. A call that resumes passes candidates with
smaller paths and goes on behind the line that its position names. -/
def Left (db : ObjectDb) (snapshot : Snapshot) (matcher : CompiledMatcher) (query : SearchQuery)
    (maxObjectBytes : ℕ) (walked : List BlobCandidate × Outcome Error Unit) (lines : List Emitted)
    (ending : Outcome Error Unit) : Option Position → Prop
  | none => linesOf db snapshot matcher query maxObjectBytes walked.1 walked.2 = (lines, ending)
  | some position => ∃ before file after behind,
    walked.1 = before ++ file :: after ∧ (∀ c ∈ before, c.path < position.path) ∧
    file.path = position.path ∧
    position.ordinal < (itemsOf db snapshot matcher query maxObjectBytes file).length ∧
    linesOf db snapshot matcher query maxObjectBytes after walked.2 = (behind, ending) ∧
    lines = (itemsOf db snapshot matcher query maxObjectBytes file).drop (position.ordinal + 1) ++ behind

/-- A call with this cursor has these lines ahead, and reading them ends like this. -/
structure Ahead (db : ObjectDb) (gix : Gix)
    (compile : Bytes → SearchQuery → Except Error CompiledMatcher) (fuel maxObjectBytes : ℕ)
    (snapshot : Snapshot) (pattern : Bytes) (query : SearchQuery) (cursor : Option Bytes)
    (lines : List Emitted) (ending : Outcome Error Unit) : Prop where
  compatible : ensureQueryCompatible db.toStoreInfo snapshot = .ok ()
  path : validatePath query.path = .ok ()
  context : query.contextLines ≤ maxContextLines
  left : ∃ matcher resume treeOid walk,
    compile pattern query = .ok matcher ∧
    decodeResume snapshot pattern { toSearchQuery := query, cursor } = .ok resume ∧
    db.eval (resolveScope gix db.toStoreInfo snapshot query.path resume.isSome) = .ok treeOid ∧
    db.eval (newWalk ⟨gix, db.toStoreInfo, query, resume.map (·.path)⟩ treeOid) = .ok walk ∧
    Left db snapshot matcher query maxObjectBytes
      (walkAll db ⟨gix, db.toStoreInfo, query, resume.map (·.path)⟩ fuel fuel walk) lines ending resume

/-! ### Emission -/

/-- What `emitItems` does to a list of lines whose ordinals fit. -/
def emission (limit maxResultBytes : ℕ) : List Emitted → Collected → Collected × Option String
  | [], collected => (collected, none)
  | emitted :: rest, collected =>
    if collected.emitted.length = limit then (collected, some "limit")
    else if maxResultBytes < saturatingAdd collected.payloadBytes emitted.item.payloadBytes then
      (if collected.emitted = [] then collected.push emitted else collected, some "max_result_bytes")
    else emission limit maxResultBytes rest (collected.push emitted)

/-- What a page collects when reading ends: an error ends a page that has lines if it may truncate. -/
def settle (emission : Collected × Option String) (ending : Outcome Error Unit) :
    Outcome Error (Collected × Option String) :=
  match emission.2, ending with
  | some limit, _ => .ok (emission.1, some limit)
  | none, .ok _ => .ok (emission.1, none)
  | none, .error error =>
    if truncatable error ∧ emission.1.emitted ≠ [] then
      .ok (emission.1, some (error.limit.getD "budget"))
    else .error error
  | none, .diverged => .diverged

section Emission

variable {limit maxResultBytes : ℕ} {items rest : List Emitted} {collected : Collected}

/-- A page that is not stopped in a file goes on with the next one. -/
theorem emission_append_of_none {collected' : Collected}
    (h : emission limit maxResultBytes items collected = (collected', none)) :
    emission limit maxResultBytes (items ++ rest) collected =
      emission limit maxResultBytes rest collected' := by
  induction items generalizing collected with
  | nil =>
    obtain ⟨rfl, -⟩ := Prod.mk.inj h
    rfl
  | cons item items ih =>
    simp only [emission] at h
    simp only [List.cons_append, emission]
    split at h
    · cases h
    · next hlimit =>
      rw [if_neg hlimit]
      split at h
      · cases h
      · next hbytes =>
        rw [if_neg hbytes]
        exact ih h

private theorem emission_append_of_some {collected' : Collected} {stopped : String}
    (h : emission limit maxResultBytes items collected = (collected', some stopped)) :
    emission limit maxResultBytes (items ++ rest) collected = (collected', some stopped) := by
  induction items generalizing collected with
  | nil => cases (Prod.mk.inj h).2
  | cons item items ih =>
    simp only [emission] at h
    simp only [List.cons_append, emission]
    split at h
    · next hlimit => rw [if_pos hlimit, h]
    · next hlimit =>
      rw [if_neg hlimit]
      split at h
      · next hbytes => rw [if_pos hbytes, h]
      · next hbytes =>
        rw [if_neg hbytes]
        exact ih h

private theorem eval_emitItems_eq (hordinals : ∀ item ∈ items, item.ordinal ≤ u32Max) :
    db.eval (emitItems limit maxResultBytes items collected) =
      .ok (emission limit maxResultBytes items collected) := by
  induction items generalizing collected with
  | nil => rfl
  | cons item items ih =>
    have hordinal : checkOrdinal item.ordinal = .ok () :=
      ensure_eq_ok.mpr (hordinals item List.mem_cons_self)
    simp only [emitItems, emission, ObjectDb.eval_bind, ObjectDb.eval_check, Outcome.ok_bind]
    split
    · rfl
    · simp only [ObjectDb.eval_bind, ObjectDb.eval_ofExcept, hordinal, Outcome.ofExcept_ok,
        Outcome.ok_bind]
      split
      · rfl
      · exact ih fun item hitem ↦ hordinals item (List.mem_cons_of_mem _ hitem)

end Emission

/-! ### Candidates -/

section Visit

variable {scope : SearchScope} {candidate : BlobCandidate} {scanned : ScannedBlob} {start : Option ℕ}
  {state : State} {collected : Collected} {e : Error}

/-- A page emits the lines of a candidate from its start on. -/
theorem eval_emitScan_eq (hscan : scope.scan db candidate.oid = .ok scanned)
    (hstart : ∀ s ∈ start, s - 1 < (scope.items db candidate).length) :
    db.eval (emitScan scope candidate start scanned collected) =
      .ok (emission scope.opts.limit scope.opts.maxResultBytes
        ((scope.items db candidate).drop (start.getD 0)) collected) := by
  obtain ⟨scan, payload⟩ := scanned
  by_cases hfound : ∃ lines, scan = .found lines
  · obtain ⟨lines, rfl⟩ := hfound
    obtain ⟨bytes, rfl, -, hitems, hlen⟩ := items_found hscan
    have hordinals : ∀ item ∈ (scope.items db candidate).drop (start.getD 0), item.ordinal ≤ u32Max := by
      intro item hitem
      obtain ⟨i, hi⟩ := List.mem_iff_getElem?.mp (List.mem_of_mem_drop hitem)
      obtain ⟨hposition, hbound⟩ := position_itemsOf hi
      have hordinal : item.ordinal = i := congrArg Position.ordinal hposition
      omega
    have hfirst : startLine lines.length start = .ok (start.getD 0) := by
      cases start with
      | none => rfl
      | some s =>
        have hs := hstart s rfl
        rw [hitems, length_fileItems] at hs
        simp [startLine, ensure, hs, bind, Except.bind, pure, Except.pure]
    simp only [emitScan, emitMatches, ObjectDb.eval_bind, ObjectDb.eval_unwrap_some, Outcome.ok_bind,
      ObjectDb.eval_ofExcept, hfirst, Outcome.ofExcept_ok]
    rw [← hitems]
    exact eval_emitItems_eq hordinals
  · have hskip : ∀ lines, scan ≠ .found lines := fun lines h ↦ hfound ⟨lines, h⟩
    have hitems := items_skipped hscan hskip
    have hnone : start = none := by
      cases start with
      | none => rfl
      | some s =>
        have hs := hstart s rfl
        rw [hitems] at hs
        cases hs
    rw [eval_emitSkipped scan payload hskip, hitems, hnone]
    rfl

/-- A candidate that has lines can be scanned. -/
theorem scan_of_items {i : ℕ} (h : i < (scope.items db candidate).length) :
    ∃ scanned, scope.scan db candidate.oid = .ok scanned := by
  rw [SearchScope.items, itemsOf] at h
  split at h
  · next hscan => exact ⟨_, hscan⟩
  · cases h

/-- A candidate that cannot be scanned ends the page. -/
theorem eval_visitCandidate_error (hcache : state.cache.Holds (scope.Caches db))
    (hscan : scope.scan db candidate.oid = .error e) :
    ∃ state', state'.collected = state.collected ∧
      db.eval (visitCandidate scope candidate start state) =
        if truncatable e ∧ state.collected.emitted ≠ [] then
          .ok (state', some (e.limit.getD "budget"))
        else .error e := by
  obtain ⟨found, cache, hget, -, hfound⟩ := hcache.get candidate.oid
  cases found with
  | some scan =>
    obtain ⟨payload, hpayload⟩ := hfound scan rfl
    rw [hscan] at hpayload
    cases hpayload
  | none =>
    rw [SearchScope.scan, scanOf] at hscan
    refine ⟨⟨cache, state.collected, state.tally.visit candidate.oid⟩, rfl, ?_⟩
    simp only [visitCandidate, hget, ObjectDb.eval_bind, ObjectDb.eval_unwrap_some, Outcome.ok_bind,
      emitFresh, ObjectDb.eval_attempt, hscan]
    split <;> rfl

private theorem eval_visitCandidate_diverged (hcache : state.cache.Holds (scope.Caches db))
    (hscan : scope.scan db candidate.oid = .diverged) :
    db.eval (visitCandidate scope candidate start state) = .diverged := by
  obtain ⟨found, cache, hget, -, hfound⟩ := hcache.get candidate.oid
  cases found with
  | some scan =>
    obtain ⟨payload, hpayload⟩ := hfound scan rfl
    rw [hscan] at hpayload
    cases hpayload
  | none =>
    rw [SearchScope.scan, scanOf] at hscan
    simp only [visitCandidate, hget, ObjectDb.eval_bind, ObjectDb.eval_unwrap_some, Outcome.ok_bind,
      emitFresh, ObjectDb.eval_attempt, hscan, Outcome.diverged_bind]

end Visit

/-! ### The loop -/

section Loop

variable {scope : SearchScope} {walkScope : WalkScope} {resume : Option Position} {bound fuel : ℕ}
  {walk : BlobWalk} {state : State}

/-- The lines of candidates in a search. -/
def SearchScope.lines (db : ObjectDb) (scope : SearchScope)
    (walked : List BlobCandidate × Outcome Error Unit) : List Emitted × Outcome Error Unit :=
  linesOf db scope.snapshot scope.matcher scope.opts.toSearchQuery scope.maxObjectBytes walked.1 walked.2

/-- The part of the loop's result that the page is made of. -/
def pageOf (result : Outcome Error (State × Option String × Bool)) :
    Outcome Error (Collected × Option String × Bool) :=
  result >>= fun (state, stopped, found) ↦ .ok (state.collected, stopped, found)

/-- A page that has found its position. -/
def settled (emission : Collected × Option String) (ending : Outcome Error Unit) :
    Outcome Error (Collected × Option String × Bool) :=
  settle emission ending >>= fun (collected, stopped) ↦ .ok (collected, stopped, true)

private theorem settled_error (collected : Collected) (e : Error) :
    settled (collected, none) (.error e) = if truncatable e ∧ collected.emitted ≠ [] then
      .ok (collected, some (e.limit.getD "budget"), true) else .error e := by
  simp only [settled, settle]
  split <;> rfl

/-- A page emits the lines of a candidate and, if that does not stop it, goes on. -/
theorem eval_visit_then {candidate : BlobCandidate} {scanned : ScannedBlob} (start : Option ℕ)
    (goOn : State → Query (State × Option String × Bool)) {rest : List Emitted}
    {ending : Outcome Error Unit} (hcache : state.cache.Holds (scope.Caches db))
    (hscan : scope.scan db candidate.oid = .ok scanned)
    (hstart : ∀ s ∈ start, s - 1 < (scope.items db candidate).length)
    (hgo : ∀ state' : State, state'.cache.Holds (scope.Caches db) →
      pageOf (db.eval (goOn state')) =
        settled (emission scope.opts.limit scope.opts.maxResultBytes rest state'.collected) ending) :
    pageOf (db.eval (visitCandidate scope candidate start state) >>= fun visited ↦
        db.eval (if visited.2.isSome then pure (visited.1, visited.2, true) else goOn visited.1)) =
      settled (emission scope.opts.limit scope.opts.maxResultBytes
        ((scope.items db candidate).drop (start.getD 0) ++ rest) state.collected) ending := by
  obtain ⟨caches, tally, hcaches, hvisit⟩ := eval_visitCandidate start hcache hscan
  rw [hvisit, eval_emitScan_eq hscan hstart]
  cases hemit : emission scope.opts.limit scope.opts.maxResultBytes
      ((scope.items db candidate).drop (start.getD 0)) state.collected with
  | mk collected stopped =>
    cases stopped with
    | none =>
      rw [emission_append_of_none hemit]
      exact hgo ⟨caches none, collected, tally⟩ (hcaches none)
    | some limit =>
      rw [emission_append_of_some hemit]
      rfl

/-- A loop that has found its position collects the lines ahead of it. -/
theorem eval_loop_eq (hcache : state.cache.Holds (scope.Caches db)) :
    pageOf (db.eval (loop scope walkScope resume bound fuel walk true state)) =
      settled (emission scope.opts.limit scope.opts.maxResultBytes
        (scope.lines db (walkAll db walkScope bound fuel walk)).1 state.collected)
        (scope.lines db (walkAll db walkScope bound fuel walk)).2 := by
  induction fuel generalizing walk state with
  | zero => rfl
  | succ fuel ih =>
    simp only [loop, walkAll, ObjectDb.eval_bind, ObjectDb.eval_check, Outcome.ok_bind,
      ObjectDb.eval_attempt]
    cases hnext : db.eval (next walkScope bound walk) with
    | diverged => rfl
    | error e =>
      simp only [Outcome.ok_bind, SearchScope.lines, linesOf, emission, settled_error]
      split <;> rfl
    | ok advanced =>
      obtain ⟨candidate, walk'⟩ := advanced
      cases candidate with
      | none => rfl
      | some candidate =>
        simp only [Outcome.ok_bind, ObjectDb.eval_bind, ObjectDb.eval_ofExcept, startOrdinal_found,
          Outcome.ofExcept_ok, SearchScope.lines, linesOf]
        cases hscan : scanOf db scope.matcher scope.opts.toSearchQuery scope.maxObjectBytes
            candidate.oid with
        | diverged =>
          rw [eval_visitCandidate_diverged hcache hscan]
          rfl
        | error e =>
          obtain ⟨state', hstate', hvisit⟩ := eval_visitCandidate_error hcache hscan
          rw [hvisit]
          simp only [emission, settled_error]
          split
          · simp [pageOf, hstate']
          · rfl
        | ok scanned =>
          exact eval_visit_then none _ hcache hscan (by simp) fun state' hstate' ↦ ih hstate'

/-- A loop that resumes collects the lines behind its position. -/
theorem eval_loop_resume_eq {position : Position} {before after : List BlobCandidate}
    {file : BlobCandidate} {ending : Outcome Error Unit} {state : State}
    (hcache : state.cache.Holds (scope.Caches db))
    (hwalk : walkAll db walkScope bound fuel walk = (before ++ file :: after, ending))
    (hbefore : ∀ c ∈ before, c.path < position.path) (hpath : file.path = position.path)
    (hordinal : position.ordinal < (scope.items db file).length) :
    pageOf (db.eval (loop scope walkScope (some position) bound fuel walk false state)) =
      settled (emission scope.opts.limit scope.opts.maxResultBytes
        ((scope.items db file).drop (position.ordinal + 1) ++ (scope.lines db (after, ending)).1)
        state.collected) (scope.lines db (after, ending)).2 := by
  induction fuel generalizing walk before with
  | zero => simp [walkAll] at hwalk
  | succ fuel ih =>
    simp only [walkAll] at hwalk
    simp only [loop, ObjectDb.eval_bind, ObjectDb.eval_check, Outcome.ok_bind, ObjectDb.eval_attempt]
    cases hnext : db.eval (next walkScope bound walk) with
    | diverged => simp [hnext] at hwalk
    | error e => simp [hnext] at hwalk
    | ok advanced =>
      obtain ⟨candidate, walk'⟩ := advanced
      rw [hnext] at hwalk
      cases candidate with
      | none => simp at hwalk
      | some candidate =>
        obtain ⟨hcandidates, hending⟩ := Prod.mk.inj hwalk
        simp only [Outcome.ok_bind, ObjectDb.eval_bind, ObjectDb.eval_ofExcept, startOrdinal,
          Bool.false_eq_true, if_false]
        cases before with
        | cons first before =>
          obtain ⟨rfl, hrest⟩ := List.cons.inj hcandidates
          rw [if_pos (hbefore candidate List.mem_cons_self)]
          simp only [Outcome.ofExcept_ok, Outcome.ok_bind]
          exact ih (Prod.ext hrest hending) fun c hc ↦ hbefore c (List.mem_cons_of_mem _ hc)
        | nil =>
          obtain ⟨rfl, hrest⟩ := List.cons.inj hcandidates
          have hsame : walkAll db walkScope bound fuel walk' = (after, ending) := Prod.ext hrest hending
          have hlt : ¬candidate.path < position.path := hpath ▸ List.lt_irrefl _
          have hgt : ¬position.path < candidate.path := hpath ▸ List.lt_irrefl _
          rw [if_neg hlt, if_neg hgt]
          obtain ⟨scanned, hscan⟩ := scan_of_items hordinal
          have hbound := (position_itemsOf (List.getElem?_eq_getElem hordinal)).2
          have hstart : min (position.ordinal + 1) u32Max = position.ordinal + 1 :=
            Nat.min_eq_left hbound
          simp only [Outcome.ofExcept_ok, Outcome.ok_bind, hstart, ObjectDb.eval_bind]
          rw [← hsame]
          refine eval_visit_then (some _) _ hcache hscan ?_ fun state' hstate' ↦ eval_loop_eq hstate'
          rintro s ⟨⟩
          simpa using hordinal

end Loop

/-! ### Sizes -/

section Sizes

variable {limit maxResultBytes : ℕ} {lines : List Emitted} {collected : Collected}

/-- The payload of lines, as a `u64` that saturates. -/
def payloadSize (lines : List Emitted) : ℕ := min (lines.map (·.item.payloadBytes)).sum u64Max

@[simp] private theorem payloadSize_nil : payloadSize [] = 0 := rfl

private theorem payloadSize_concat (lines : List Emitted) (line : Emitted) :
    payloadSize (lines ++ [line]) = saturatingAdd (payloadSize lines) line.item.payloadBytes := by
  simp only [payloadSize, saturatingAdd, List.map_append, List.sum_append, List.map_singleton,
    List.sum_singleton]
  generalize u64Max = m
  omega

/-- More lines are not smaller. -/
theorem payloadSize_take_mono (lines : List Emitted) {n k : ℕ} (h : n ≤ k) :
    payloadSize (lines.take n) ≤ payloadSize (lines.take k) := by
  have hsum : ((lines.take n).map (·.item.payloadBytes)).sum ≤
      ((lines.take k).map (·.item.payloadBytes)).sum := by
    rw [← List.take_append_drop n (lines.take k), List.take_take, Nat.min_eq_left h, List.map_append,
      List.sum_append]
    exact Nat.le_add_right _ _
  simp only [payloadSize]
  generalize u64Max = m at *
  omega

/-- What a page has collected of the lines ahead of it. -/
structure Collects (limit maxResultBytes : ℕ) (lines : List Emitted) (collected : Collected)
    (stopped : Option String) (count : ℕ) : Prop where
  emitted : collected.emitted = lines.take count
  payload : collected.payloadBytes = payloadSize (lines.take count)
  within : count ≤ lines.length ∧ count ≤ limit ∧ payloadSize (lines.take count) ≤ maxResultBytes
  complete : stopped = none → count = lines.length
  more : stopped.isSome → count < lines.length ∧
    (count = limit ∨ maxResultBytes < payloadSize (lines.take (count + 1)))

/-- A page that holds its first lines collects as many as its limits let it. -/
theorem emission_collects {count : ℕ} (hcount : count ≤ lines.length) (hlimit : count ≤ limit)
    (hsize : payloadSize (lines.take count) ≤ maxResultBytes)
    (hfirst : count = 0 → payloadSize (lines.take 1) ≤ maxResultBytes)
    (hemitted : collected.emitted = lines.take count)
    (hpayload : collected.payloadBytes = payloadSize (lines.take count)) :
    ∃ count', Collects limit maxResultBytes lines
      (emission limit maxResultBytes (lines.drop count) collected).1
      (emission limit maxResultBytes (lines.drop count) collected).2 count' := by
  induction hleft : lines.length - count generalizing count collected with
  | zero =>
    have hall : lines.drop count = [] := List.drop_eq_nil_of_le (by omega)
    rw [hall]
    exact ⟨count, hemitted, hpayload, ⟨hcount, hlimit, hsize⟩, fun _ ↦ (by omega), (by simp [emission])⟩
  | succ left ih =>
    have hlt : count < lines.length := by omega
    have hlength : collected.emitted.length = count := by
      rw [hemitted, List.length_take, Nat.min_eq_left hcount]
    have hnext : lines.take (count + 1) = lines.take count ++ [lines[count]] :=
      List.take_succ_eq_append_getElem hlt
    have hgrown : payloadSize (lines.take (count + 1)) =
        saturatingAdd collected.payloadBytes lines[count].item.payloadBytes := by
      rw [hnext, payloadSize_concat, hpayload]
    rw [List.drop_eq_getElem_cons hlt, emission, hlength, ← hgrown]
    split
    · next hfull =>
      exact ⟨count, hemitted, hpayload, ⟨hcount, hlimit, hsize⟩, (by simp), fun _ ↦ ⟨hlt, .inl hfull⟩⟩
    · next hroom =>
      split
      · next hover =>
        have hpositive : collected.emitted ≠ [] := by
          intro hnil
          have hzero : count = 0 := by rw [← hlength, hnil]; rfl
          subst hzero
          exact absurd hover (Nat.not_lt.mpr (hfirst rfl))
        rw [if_neg hpositive]
        exact ⟨count, hemitted, hpayload, ⟨hcount, hlimit, hsize⟩, (by simp), fun _ ↦ ⟨hlt, .inr hover⟩⟩
      · next hfits =>
        refine ih (by omega) (by omega) (Nat.not_lt.mp hfits) (by simp) ?_ ?_ (by omega)
        · rw [Collected.push, hemitted, hnext]
        · exact hgrown.symm

end Sizes

/-! ### Cursors -/

/-- The lines up to this one and the cursor that names it are within the budget. -/
def FitsAt (snapshot : Snapshot) (pattern : Bytes) (query : SearchQuery) (maxResultBytes : ℕ)
    (lines : List Emitted) (i : ℕ) : Prop :=
  ∃ line ∈ lines[i]?, saturatingAdd (payloadSize (lines.take (i + 1)))
    (cursorAt snapshot pattern query line.position).length ≤ maxResultBytes

section Cursors

variable {limit maxResultBytes count : ℕ} {lines : List Emitted} {collected : Collected}

/-- A cursor is fitted if it fits somewhere on the page. -/
theorem fitCursor_iff {bound : ℕ} {stoppedBy : String} (hmax : maxResultBytes ≤ u64Max)
    (hcursors : ∀ line ∈ lines,
      (cursorAt snapshot pattern query line.position).length ≤ Cursor.maxCursorBytes)
    (hbound : count < bound) (hcount : count ≤ lines.length)
    (hemitted : collected.emitted = lines.take count)
    (hpayload : collected.payloadBytes = payloadSize (lines.take count))
    (hsize : payloadSize (lines.take count) ≤ maxResultBytes) :
    (∃ fitted, fitCursor snapshot pattern query maxResultBytes bound collected stoppedBy = .ok fitted) ↔
      ∃ i < count, FitsAt snapshot pattern query maxResultBytes lines i := by
  induction count generalizing bound collected stoppedBy with
  | zero =>
    obtain ⟨bound, rfl⟩ := Nat.exists_eq_succ_of_ne_zero (Nat.ne_of_gt hbound)
    rw [List.take_zero] at hemitted
    simp [fitCursor, hemitted]
  | succ count ih =>
    obtain ⟨bound, rfl⟩ := Nat.exists_eq_succ_of_ne_zero (Nat.ne_of_gt (Nat.zero_lt_of_lt hbound))
    have hlt : count < lines.length := hcount
    have hsplit : lines.take (count + 1) = lines.take count ++ [lines[count]] :=
      List.take_succ_eq_append_getElem hlt
    have hlast : collected.emitted.getLast? = some lines[count] := by
      rw [hemitted, hsplit, List.getLast?_concat]
    have hlength : collected.emitted.length = count + 1 := by
      rw [hemitted, List.length_take, Nat.min_eq_left hcount]
    have hfits := Nat.not_lt.mpr (hcursors lines[count] (List.getElem_mem hlt))
    have hat : FitsAt snapshot pattern query maxResultBytes lines count ↔
        saturatingAdd collected.payloadBytes
          (cursorAt snapshot pattern query lines[count].position).length ≤ maxResultBytes := by
      rw [hpayload]
      simp [FitsAt, List.getElem?_eq_getElem hlt]
    have halone : ¬(collected.emitted.length = 1 ∧ maxResultBytes < collected.payloadBytes) :=
      fun h ↦ absurd h.2 (Nat.not_lt.mpr (hpayload ▸ hsize))
    simp only [fitCursor, hlast, if_neg hfits, halone, false_or]
    by_cases hok : FitsAt snapshot pattern query maxResultBytes lines count
    · rw [if_pos (hat.mp hok)]
      exact iff_of_true ⟨_, rfl⟩ ⟨count, Nat.lt_succ_self _, hok⟩
    · rw [if_neg fun h ↦ hok (hat.mpr h)]
      have hdrop : (∃ i < count + 1, FitsAt snapshot pattern query maxResultBytes lines i) ↔
          ∃ i < count, FitsAt snapshot pattern query maxResultBytes lines i := by
        constructor
        · rintro ⟨i, hi, hfit⟩
          rcases Nat.lt_succ_iff_lt_or_eq.mp hi with hi | rfl
          · exact ⟨i, hi, hfit⟩
          · exact absurd hfit hok
        · rintro ⟨i, hi, hfit⟩
          exact ⟨i, Nat.lt_succ_of_lt hi, hfit⟩
      rw [hdrop]
      split
      · next hone =>
        obtain rfl : count = 0 := by omega
        simp
      · refine ih (by omega) (by omega) ?_ ?_ ?_
        · rw [Collected.pop, hemitted, hsplit, List.dropLast_concat]
        · -- The sum did not saturate, or every cursor would fit.
          have hover := mt hat.mpr hok
          have hsum := payloadSize_concat (lines.take count) lines[count]
          rw [← hsplit] at hsum
          simp only [Collected.pop, hpayload, saturatingAdd] at hover hsum ⊢
          generalize u64Max = m at *
          omega
        · exact (payloadSize_take_mono lines (Nat.le_succ count)).trans hsize

end Cursors

/-! ### Progress -/

section Progress

variable {compile : Bytes → SearchQuery → Except Error CompiledMatcher}
  {fuel limit maxResultBytes : ℕ} {cursor : Option Bytes} {lines : List Emitted}
  {ending : Outcome Error Unit}

/-- A call returns a page with a match. -/
def Returns (db : ObjectDb) (gix : Gix) (compile : Bytes → SearchQuery → Except Error CompiledMatcher)
    (fuel maxObjectBytes : ℕ) (snapshot : Snapshot) (pattern : Bytes) (opts : SearchOptions) : Prop :=
  ∃ page, db.eval (search gix compile fuel db.toStoreInfo maxObjectBytes snapshot pattern opts) =
    .ok page ∧ page.found ≠ []

/-- When a call with lines ahead makes progress: the first line alone is over the budget, or all lines
fit and reading them does not fail, or the page is cut short and some line within its limits fits together
with its cursor. -/
def Progress (snapshot : Snapshot) (pattern : Bytes) (query : SearchQuery) (limit maxResultBytes : ℕ)
    (lines : List Emitted) (ending : Outcome Error Unit) : Prop :=
  maxResultBytes < payloadSize (lines.take 1) ∨
  (lines.length ≤ limit ∧ payloadSize lines ≤ maxResultBytes ∧ ending = .ok ()) ∨
  (limit < lines.length ∨ maxResultBytes < payloadSize lines ∨
    ∃ e, ending = .error e ∧ truncatable e) ∧
    ∃ i < min limit lines.length, FitsAt snapshot pattern query maxResultBytes lines i

/-- A page that was collected is returned: it has lines, and if it was stopped its cursor is fitted. -/
def Closes (snapshot : Snapshot) (pattern : Bytes) (query : SearchQuery) (maxResultBytes : ℕ)
    (collected : Collected) (stopped : Option String) : Prop :=
  collected.emitted ≠ [] ∧ ∀ limit ∈ stopped, ∃ fitted, fitCursor snapshot pattern query maxResultBytes
    (collected.emitted.length + 1) collected limit = .ok fitted

private theorem closePage_found {state : State} {stopped : Option String} :
    (∃ page, closePage snapshot pattern ⟨query, limit, maxResultBytes, cursor⟩ state stopped = .ok page ∧
      page.found ≠ []) ↔ Closes snapshot pattern query maxResultBytes state.collected stopped := by
  cases stopped with
  | none => simp [closePage, Closes, pure, Except.pure, bind, Except.bind]
  | some stoppedBy =>
    cases hfit : fitCursor snapshot pattern query maxResultBytes
        (state.collected.emitted.length + 1) state.collected stoppedBy with
    | error e =>
      refine iff_of_false ?_ ?_
      · rintro ⟨page, hpage, -⟩
        simp [closePage, hfit, bind, Except.bind] at hpage
      · rintro ⟨-, h⟩
        obtain ⟨fitted, hfitted⟩ := h stoppedBy rfl
        rw [hfit] at hfitted
        cases hfitted
    | ok fitted =>
      obtain ⟨collected, stoppedBy', encoded⟩ := fitted
      obtain ⟨front, last, back, hcollected, hemitted, -⟩ := fitCursor_ok hfit
      refine iff_of_true ?_ ⟨by simp [hemitted, hcollected], ?_⟩
      · simp only [closePage, Option.mapM_some, hfit]
        refine ⟨_, rfl, ?_⟩
        simp [hcollected]
      · rintro limit' ⟨⟩
        exact ⟨_, hfit⟩

/-- A loop whose result makes the page. -/
theorem pageOf_eq_ok {result : Outcome Error (State × Option String × Bool)} {collected : Collected}
    {stopped : Option String} {found : Bool} (h : pageOf result = .ok (collected, stopped, found)) :
    ∃ state : State, state.collected = collected ∧ result = .ok (state, stopped, found) := by
  obtain ⟨⟨state, stopped', found'⟩, hresult, hpage⟩ := Outcome.bind_eq_ok.mp h
  simp only [Outcome.ok.injEq, Prod.mk.injEq] at hpage
  obtain ⟨hcollected, rfl, rfl⟩ := hpage
  exact ⟨state, hcollected, hresult⟩

/-- The loop of a call collects the lines ahead of it. -/
theorem Left.eval_loop {resume : Option Position} {walk : BlobWalk} {capacity : ℕ}
    (h : Left db snapshot matcher query maxObjectBytes
      (walkAll db ⟨gix, db.toStoreInfo, query, resume.map (·.path)⟩ fuel fuel walk) lines ending resume) :
    pageOf (db.eval (loop ⟨snapshot, matcher, ⟨query, limit, maxResultBytes, cursor⟩, maxObjectBytes⟩
        ⟨gix, db.toStoreInfo, query, resume.map (·.path)⟩ resume fuel fuel walk resume.isNone
        ⟨.new capacity, {}, {}⟩)) =
      settled (emission limit maxResultBytes lines {}) ending := by
  have hcache : (⟨.new capacity, {}, {}⟩ : State).cache.Holds (SearchScope.Caches db
      ⟨snapshot, matcher, ⟨query, limit, maxResultBytes, cursor⟩, maxObjectBytes⟩) :=
    LruCache.holds_new capacity
  cases resume with
  | none =>
    have hlines : SearchScope.lines db
        ⟨snapshot, matcher, ⟨query, limit, maxResultBytes, cursor⟩, maxObjectBytes⟩
        (walkAll db ⟨gix, db.toStoreInfo, query, none⟩ fuel fuel walk) = (lines, ending) := h
    exact (eval_loop_eq hcache).trans
      (congrArg (fun ahead ↦ settled (emission limit maxResultBytes ahead.1 {}) ahead.2) hlines)
  | some position =>
    obtain ⟨before, file, after, behind, hwalk, hbefore, hpath, hordinal, hbehind, rfl⟩ := h
    have hwalked : walkAll db ⟨gix, db.toStoreInfo, query, some position.path⟩ fuel fuel walk =
        (before ++ file :: after,
          (walkAll db ⟨gix, db.toStoreInfo, query, some position.path⟩ fuel fuel walk).2) :=
      Prod.ext hwalk rfl
    have hlines : SearchScope.lines db
        ⟨snapshot, matcher, ⟨query, limit, maxResultBytes, cursor⟩, maxObjectBytes⟩ (after,
          (walkAll db ⟨gix, db.toStoreInfo, query, some position.path⟩ fuel fuel walk).2) =
        (behind, ending) := hbehind
    exact (eval_loop_resume_eq hcache hwalked hbefore hpath hordinal).trans
      (congrArg (fun ahead ↦ settled (emission limit maxResultBytes
        ((itemsOf db snapshot matcher query maxObjectBytes file).drop (position.ordinal + 1) ++ ahead.1) {})
        ahead.2) hlines)

/-- A call that has lines ahead returns what its loop settles on. -/
theorem returns_iff (hahead : Ahead db gix compile fuel maxObjectBytes snapshot pattern query cursor lines
      ending) (hlimit : 1 ≤ limit) (hmax : 1 ≤ maxResultBytes) :
    Returns db gix compile fuel maxObjectBytes snapshot pattern ⟨query, limit, maxResultBytes, cursor⟩ ↔
      ∃ collected stopped, settled (emission limit maxResultBytes lines {}) ending =
          .ok (collected, stopped, true) ∧
        Closes snapshot pattern query maxResultBytes collected stopped := by
  obtain ⟨hcompatible, hpath, hcontext, matcher, resume, treeOid, walk, hcompiled, hresume, hresolved,
    hwalk, hleft⟩ := hahead
  have hvalid : validateOptions ⟨query, limit, maxResultBytes, cursor⟩ = .ok () := by
    simp only [validateOptions, Except.bind_eq_ok, ensure_eq_ok]
    exact ⟨(), hpath, (), by simp; omega, (), by simp; omega, hcontext⟩
  have hresumed : decodeResume snapshot pattern ⟨query, limit, maxResultBytes, cursor⟩ = .ok resume :=
    hresume
  have hloop : pageOf (db.eval (loop ⟨snapshot, matcher, ⟨query, limit, maxResultBytes, cursor⟩,
      maxObjectBytes⟩ ⟨gix, db.toStoreInfo, query, resume.map (·.path)⟩ resume fuel fuel walk
      resume.isNone ⟨.new scanCacheMatchCap, {}, {}⟩)) = settled (emission limit maxResultBytes lines {})
        ending := hleft.eval_loop
  simp only [Returns, search, searchWithCacheCapacity, ObjectDb.eval_bind, ObjectDb.eval_ofExcept,
    ObjectDb.eval_check, hcompatible, hvalid, hcompiled, hresumed, hresolved, hwalk, Outcome.ofExcept_ok,
    Outcome.ok_bind]
  constructor
  · rintro ⟨page, hpage, hfound⟩
    obtain ⟨⟨state, stopped, found⟩, heval, hpage⟩ := Outcome.bind_eq_ok.mp hpage
    obtain ⟨⟨⟩, hensure, hclose⟩ := Outcome.bind_eq_ok.mp hpage
    obtain rfl : found = true := ensure_eq_ok.mp (Outcome.ofExcept_eq_ok.mp hensure)
    rw [heval] at hloop
    exact ⟨state.collected, stopped, hloop.symm,
      closePage_found.mp ⟨page, Outcome.ofExcept_eq_ok.mp hclose, hfound⟩⟩
  · rintro ⟨collected, stopped, hsettled, hcloses⟩
    obtain ⟨state, rfl, heval⟩ := pageOf_eq_ok (hloop.trans hsettled)
    obtain ⟨page, hclose, hfound⟩ := closePage_found.mpr hcloses
    refine ⟨page, ?_, hfound⟩
    rw [heval]
    simp only [Outcome.ok_bind, ensure, if_true, Outcome.ofExcept_ok]
    exact Outcome.ofExcept_eq_ok.mpr hclose

/-- A first line that is over the budget alone makes a page of its own. -/
theorem closes_over {line : Emitted} {rest : List Emitted} (hlimit : 1 ≤ limit)
    (hcursor : (cursorAt snapshot pattern query line.position).length ≤ Cursor.maxCursorBytes)
    (hover : maxResultBytes < payloadSize [line]) :
    emission limit maxResultBytes (line :: rest) {} = (({} : Collected).push line, some "max_result_bytes") ∧
      Closes snapshot pattern query maxResultBytes (({} : Collected).push line)
        (some "max_result_bytes") := by
  have hsize : payloadSize [line] = saturatingAdd ({} : Collected).payloadBytes line.item.payloadBytes :=
    payloadSize_concat [] line
  have hroom : ({} : Collected).emitted.length ≠ limit := by simp; omega
  constructor
  · rw [emission, if_neg hroom, ← hsize, if_pos hover]
    rfl
  · refine ⟨List.cons_ne_nil _ _, ?_⟩
    rintro stoppedBy ⟨⟩
    rw [hsize] at hover
    have hcut := Nat.not_lt.mpr hcursor
    refine ⟨(({} : Collected).push line, "max_result_bytes",
      cursorAt snapshot pattern query line.position), ?_⟩
    simp only at hover
    simp [fitCursor, Collected.push, hcut, hover]

/-- A page that has collected lines is returned if it is not stopped or one of them fits with its cursor. -/
theorem Collects.closes {collected : Collected} {stopped stopped' : Option String} {count : ℕ}
    (h : Collects limit maxResultBytes lines collected stopped count) (hcount : count ≠ 0)
    (hmax : maxResultBytes ≤ u64Max)
    (hcursors : ∀ line ∈ lines,
      (cursorAt snapshot pattern query line.position).length ≤ Cursor.maxCursorBytes) :
    Closes snapshot pattern query maxResultBytes collected stopped' ↔
      (stopped'.isSome → ∃ i < count, FitsAt snapshot pattern query maxResultBytes lines i) := by
  have hlength : collected.emitted.length = count := by
    rw [h.emitted, List.length_take, Nat.min_eq_left h.within.1]
  have hne : collected.emitted ≠ [] := by
    rintro hnil
    rw [hnil] at hlength
    exact hcount hlength.symm
  rw [Closes, hlength]
  cases stopped' with
  | none => simp [hne]
  | some stoppedBy =>
    have hfit : (∃ fitted, fitCursor snapshot pattern query maxResultBytes (count + 1) collected stoppedBy =
        .ok fitted) ↔ _ := fitCursor_iff hmax hcursors (Nat.lt_succ_self count) h.within.1 h.emitted
          h.payload h.within.2.2
    refine ⟨fun hcloses _ ↦ hfit.mp (hcloses.2 stoppedBy rfl), fun hfits ↦ ⟨hne, ?_⟩⟩
    rintro stoppedBy' ⟨⟩
    exact hfit.mpr (hfits rfl)

/-- What fits with its cursor within the limits is on the page. -/
theorem Collects.fits_iff {collected : Collected} {stopped : Option String} {count : ℕ}
    (h : Collects limit maxResultBytes lines collected stopped count) :
    (∃ i < min limit lines.length, FitsAt snapshot pattern query maxResultBytes lines i) ↔
      ∃ i < count, FitsAt snapshot pattern query maxResultBytes lines i := by
  obtain ⟨hlength, hlimit, -⟩ := h.within
  constructor
  · rintro ⟨i, hi, hfit⟩
    refine ⟨i, ?_, hfit⟩
    cases stopped with
    | none =>
      have := h.complete rfl
      omega
    | some stoppedBy =>
      obtain ⟨-, hfull | hover⟩ := h.more rfl
      · omega
      · by_contra hge
        obtain ⟨line, -, hfit⟩ := hfit
        have hmono : payloadSize (lines.take (count + 1)) ≤ payloadSize (lines.take (i + 1)) :=
          payloadSize_take_mono lines (by omega)
        have hsaturated : payloadSize (lines.take (i + 1)) ≤ u64Max := Nat.min_le_right _ _
        simp only [saturatingAdd] at hfit
        omega
  · rintro ⟨i, hi, hfit⟩
    exact ⟨i, by omega, hfit⟩

/-- A page that is cut short makes progress if some line on it fits with its cursor. -/
theorem Collects.progress_iff {collected : Collected} {stopped : Option String} {count : ℕ}
    (h : Collects limit maxResultBytes lines collected stopped count)
    (hfirst : ¬maxResultBytes < payloadSize (lines.take 1)) (hcut : limit < lines.length ∨
      maxResultBytes < payloadSize lines ∨ ∃ e, ending = .error e ∧ truncatable e) :
    Progress snapshot pattern query limit maxResultBytes lines ending ↔
      ∃ i < count, FitsAt snapshot pattern query maxResultBytes lines i := by
  rw [Progress, or_iff_right hfirst, or_iff_right, and_iff_right hcut]
  · exact h.fits_iff
  · rintro ⟨hlength, hsize, rfl⟩
    rcases hcut with hcut | hcut | ⟨e, he, -⟩
    · omega
    · omega
    · cases he

/-- A call with lines ahead returns a match exactly when it makes progress. -/
theorem returns_iff_progress
    (hahead : Ahead db gix compile fuel maxObjectBytes snapshot pattern query cursor lines ending)
    (hlines : lines ≠ []) (hcursors : ∀ line ∈ lines,
      (cursorAt snapshot pattern query line.position).length ≤ Cursor.maxCursorBytes)
    (hlimit : 1 ≤ limit) (hmax : 1 ≤ maxResultBytes) (hbound : maxResultBytes ≤ u64Max) :
    Returns db gix compile fuel maxObjectBytes snapshot pattern ⟨query, limit, maxResultBytes, cursor⟩ ↔
      Progress snapshot pattern query limit maxResultBytes lines ending := by
  rw [returns_iff hahead hlimit hmax]
  by_cases hfirst : maxResultBytes < payloadSize (lines.take 1)
  · obtain ⟨line, rest, rfl⟩ := List.exists_cons_of_ne_nil hlines
    obtain ⟨hemission, hcloses⟩ : emission limit maxResultBytes (line :: rest) {} = _ ∧
        Closes snapshot pattern query maxResultBytes _ _ :=
      closes_over hlimit (hcursors line List.mem_cons_self) hfirst
    rw [hemission]
    exact iff_of_true ⟨_, _, rfl, hcloses⟩ (.inl hfirst)
  · obtain ⟨count, hcollects⟩ : ∃ count, Collects limit maxResultBytes lines
        (emission limit maxResultBytes (lines.drop 0) {}).1
        (emission limit maxResultBytes (lines.drop 0) {}).2 count :=
      emission_collects (Nat.zero_le _) (Nat.zero_le _) (by simp) (fun _ ↦ Nat.not_lt.mp hfirst) rfl rfl
    rw [List.drop_zero] at hcollects
    cases hemission : emission limit maxResultBytes lines {} with
    | mk collected stopped =>
    rw [hemission] at hcollects
    have hpositive : count ≠ 0 := by
      rintro rfl
      cases stopped with
      | none =>
        have hlength : 0 = lines.length := hcollects.complete rfl
        exact hlines (List.length_eq_zero_iff.mp hlength.symm)
      | some stoppedBy =>
        obtain ⟨-, hfull | hover⟩ := hcollects.more rfl
        · omega
        · exact hfirst hover
    have hcloses (stopped' : Option String) :
        Closes snapshot pattern query maxResultBytes collected stopped' ↔
          (stopped'.isSome → ∃ i < count, FitsAt snapshot pattern query maxResultBytes lines i) :=
      hcollects.closes hpositive hbound hcursors
    cases stopped with
    | some stoppedBy =>
      have hcut : limit < lines.length ∨ maxResultBytes < payloadSize lines ∨
          ∃ e, ending = .error e ∧ truncatable e := by
        obtain ⟨hlt, rfl | hover⟩ := hcollects.more rfl
        · exact .inl hlt
        · refine .inr (.inl (hover.trans_le ?_))
          have hmono := payloadSize_take_mono lines (show count + 1 ≤ lines.length from hlt)
          rwa [List.take_length] at hmono
      rw [hcollects.progress_iff hfirst hcut]
      have hsettled : settled (collected, some stoppedBy) ending =
          .ok (collected, some stoppedBy, true) := rfl
      simp [hsettled, hcloses]
    | none =>
      have hlength := hcollects.complete rfl
      obtain ⟨-, hlimited, hsize⟩ := hcollects.within
      rw [hlength, List.take_length] at hsize
      have hwhole : ¬(limit < lines.length ∨ maxResultBytes < payloadSize lines) := by omega
      cases ending with
      | ok done =>
        refine iff_of_true ⟨collected, none, rfl, (hcloses none).mpr (by simp)⟩
          (.inr (.inl ⟨?_, hsize, rfl⟩))
        omega
      | diverged =>
        refine iff_of_false ?_ ?_
        · rintro ⟨collected', stopped', hsettled, -⟩
          cases hsettled
        · rintro (hover | ⟨-, -, hending⟩ | ⟨hcut | hcut | ⟨e, hending, -⟩, -⟩)
          · exact hfirst hover
          · cases hending
          · exact hwhole (.inl hcut)
          · exact hwhole (.inr hcut)
          · cases hending
      | error e =>
        have hne : collected.emitted ≠ [] := ((hcloses none).mpr (by simp)).1
        by_cases htruncatable : truncatable e
        · rw [hcollects.progress_iff hfirst (.inr (.inr ⟨e, rfl, htruncatable⟩)), settled_error,
            if_pos ⟨htruncatable, hne⟩]
          simp [hcloses]
        · rw [settled_error, if_neg fun h ↦ htruncatable h.1]
          refine iff_of_false (by simp) ?_
          rintro (hover | ⟨-, -, hending⟩ | ⟨hcut | hcut | ⟨e', hending, htruncates⟩, -⟩)
          · exact hfirst hover
          · cases hending
          · exact hwhole (.inl hcut)
          · exact hwhole (.inr hcut)
          · cases hending
            exact htruncatable htruncates

/-! ### The calls of a search -/

/-- Where prefetch hints do not fail, every position is walked to in the same way. -/
theorem walkAll_eq_trace (hhints : Hints db) (resumePath : Option Bytes) (bound : ℕ) (walk : BlobWalk) :
    walkAll db ⟨gix, db.toStoreInfo, query, resumePath⟩ bound fuel walk =
      trace db gix query bound fuel walk.stack := by
  induction fuel generalizing walk with
  | zero => rfl
  | succ fuel ih =>
    rw [walkAll, trace, ← eval_next hhints resumePath]
    cases db.eval (next ⟨gix, db.toStoreInfo, query, resumePath⟩ bound walk) with
    | diverged => rfl
    | error e => rfl
    | ok advanced =>
      obtain ⟨candidate, walk'⟩ := advanced
      cases candidate with
      | none => rfl
      | some candidate =>
        simp only [Outcome.ok_bind, ih]

/-- A call has lines ahead of it where something is left to find. -/
theorem Setup.ahead {treeOid : Oid} {entries : List OwnedTreeEntry} {rest : List Emitted}
    (hsetup : Setup db gix compile snapshot pattern query matcher treeOid entries) (hhints : Hints db)
    (horder : InOrder query.path (trace db gix query fuel fuel [⟨entries, query.path⟩]).1)
    (hrest : Rest db gix fuel snapshot pattern matcher query maxObjectBytes entries cursor rest) :
    ∃ lines ending,
      Ahead db gix compile fuel maxObjectBytes snapshot pattern query cursor lines ending := by
  cases cursor with
  | none =>
    obtain ⟨walk, hwalk, -⟩ : ∃ walk, db.eval (newWalk ⟨gix, db.toStoreInfo, query, none⟩ treeOid) =
        .ok walk ∧ walk.stack = [⟨entries, query.path⟩] := eval_newWalk hhints none hsetup.read
    exact ⟨_, _, hsetup.compatible, hsetup.path, hsetup.context, matcher, none, treeOid, walk,
      hsetup.compiled, rfl, hsetup.resolved _, hwalk, rfl⟩
  | some cursor =>
    obtain ⟨front, last, hall, rfl, hfits, -⟩ := hrest
    have hlast : last ∈ allItems db gix fuel snapshot matcher query maxObjectBytes entries := by
      simp [hall]
    obtain ⟨file, hfile, hmem⟩ := List.mem_flatMap.mp hlast
    obtain ⟨i, hi⟩ := List.mem_iff_getElem?.mp hmem
    obtain ⟨hposition, hbound⟩ := position_itemsOf hi
    have hresume : decodeResume snapshot pattern
        { toSearchQuery := query, cursor := some (cursorAt snapshot pattern query last.position) } =
          .ok (some last.position) :=
      decodeResume_cursorAt (by rw [hposition]; exact horder.inside file hfile)
        (by rw [hposition]; exact hbound) hfits
    obtain ⟨walk, hwalk, hstack⟩ : ∃ walk, db.eval (newWalk ⟨gix, db.toStoreInfo, query,
        some last.position.path⟩ treeOid) = .ok walk ∧ walk.stack = [⟨entries, query.path⟩] :=
      eval_newWalk hhints _ hsetup.read
    obtain ⟨before, after, hsplit⟩ := List.append_of_mem hfile
    have hwalked : (walkAll db ⟨gix, db.toStoreInfo, query, some last.position.path⟩ fuel fuel walk).1 =
        before ++ file :: after := by
      rw [walkAll_eq_trace hhints, hstack, hsplit]
    have hsorted := horder.sorted
    rw [hsplit] at hsorted
    refine ⟨_, _, hsetup.compatible, hsetup.path, hsetup.context, matcher, some last.position, treeOid,
      walk, hsetup.compiled, hresume, hsetup.resolved _, hwalk, before, file, after, _, hwalked, ?_, ?_,
      ?_, rfl, rfl⟩
    · intro c hc
      rw [hposition]
      exact (List.pairwise_append.mp hsorted).2.2 c hc file List.mem_cons_self
    · rw [hposition]
    · rw [hposition]
      exact (List.getElem?_eq_some_iff.mp hi).1

/-- Every call that following a search makes, over canonical trees, has lines ahead of it. -/
theorem ahead_of_called {treeOid : Oid} {entries : List OwnedTreeEntry} {limits : ℕ → ℕ × ℕ} {i : ℕ}
    (hcanonical : db.CanonicalTrees gix) (hhints : Hints db)
    (hsetup : Setup db gix compile snapshot pattern query matcher treeOid entries)
    (hcalled : Called (fun cursor limits ↦ db.eval (search gix compile fuel db.toStoreInfo maxObjectBytes
        snapshot pattern
        { toSearchQuery := query, limit := limits.1, maxResultBytes := limits.2, cursor }))
      SearchPage.nextCursor limits none i cursor) :
    ∃ lines ending,
      Ahead db gix compile fuel maxObjectBytes snapshot pattern query cursor lines ending := by
  have horder := inOrder_trace hcanonical hsetup.read hsetup.path fuel fuel
  obtain ⟨rest, hrest⟩ : ∃ rest,
      Rest db gix fuel snapshot pattern matcher query maxObjectBytes entries cursor rest := by
    induction hcalled with
    | first => exact ⟨_, rfl⟩
    | next _ hpage hnext ih =>
      obtain ⟨rest, hrest⟩ := ih
      obtain ⟨state, stopped, seen, todo, skipped, back, hseen, hclose⟩ :=
        search_seen hsetup horder hrest hpage
      cases (hseen.delivers horder hclose).1 with
      | last hnone _ =>
        rw [hnext] at hnone
        cases hnone
      | more cursor' later hmore _ _ hlater =>
        rw [hnext] at hmore
        cases hmore
        obtain ⟨later, -, hlater⟩ := hlater
        exact ⟨later, hlater⟩
  exact hsetup.ahead hhints horder hrest

/-- A call with lines ahead returns a page with a match exactly when its budget makes progress, and a
larger budget fails where a smaller one does not exactly when it loses that progress. -/
theorem search_progress_iff
    (hahead : Ahead db gix compile fuel maxObjectBytes snapshot pattern query cursor lines ending)
    (hlines : lines ≠ []) (hcursors : ∀ line ∈ lines,
      (cursorAt snapshot pattern query line.position).length ≤ Cursor.maxCursorBytes)
    (hlimit : 1 ≤ limit) :
    (∀ maxResultBytes, 1 ≤ maxResultBytes → maxResultBytes ≤ u64Max →
      (Returns db gix compile fuel maxObjectBytes snapshot pattern ⟨query, limit, maxResultBytes, cursor⟩ ↔
        Progress snapshot pattern query limit maxResultBytes lines ending)) ∧
    ∀ small large, 1 ≤ small → small ≤ large → large ≤ u64Max →
      ((Returns db gix compile fuel maxObjectBytes snapshot pattern ⟨query, limit, small, cursor⟩ →
          Returns db gix compile fuel maxObjectBytes snapshot pattern ⟨query, limit, large, cursor⟩) ↔
        (Progress snapshot pattern query limit small lines ending →
          Progress snapshot pattern query limit large lines ending)) := by
  have hreturns : ∀ maxResultBytes, 1 ≤ maxResultBytes → maxResultBytes ≤ u64Max →
      (Returns db gix compile fuel maxObjectBytes snapshot pattern ⟨query, limit, maxResultBytes, cursor⟩ ↔
        Progress snapshot pattern query limit maxResultBytes lines ending) := fun _ hmax hbound ↦
    returns_iff_progress hahead hlines hcursors hlimit hmax hbound
  refine ⟨hreturns, fun small large hsmall hle hlarge ↦ ?_⟩
  rw [hreturns small hsmall (hle.trans hlarge), hreturns large (hsmall.trans hle) hlarge]

end Progress

/-- The lines ahead of a fresh call on the sample: how many they are, and whether their cursors fit. -/
def sampleLines : Outcome Error (ℕ × Bool) := do
  let matcher ← Outcome.ofExcept (sampleCompile [0x78] {})
  let walk ← sampleStore.eval (newWalk ⟨sampleGix, sampleStore.toStoreInfo, {}, none⟩ (sampleId 0xaa))
  let walked := walkAll sampleStore ⟨sampleGix, sampleStore.toStoreInfo, {}, none⟩ 10 10 walk
  let lines := (linesOf sampleStore ⟨sampleId 3, sampleId 0xaa⟩ matcher {} 1000 walked.1 walked.2).1
  return (lines.length, lines.all fun line ↦
    (cursorAt ⟨sampleId 3, sampleId 0xaa⟩ [0x78] {} line.position).length ≤ Cursor.maxCursorBytes)

private theorem sample_ahead : ∃ lines ending, Ahead sampleStore sampleGix sampleCompile 10 1000
    ⟨sampleId 3, sampleId 0xaa⟩ [0x78] {} none lines ending ∧ lines.length = 3 ∧
    ∀ line ∈ lines, (cursorAt ⟨sampleId 3, sampleId 0xaa⟩ [0x78] {} line.position).length ≤
      Cursor.maxCursorBytes := by
  have hresolved : sampleStore.eval (resolveScope sampleGix sampleStore.toStoreInfo
      ⟨sampleId 3, sampleId 0xaa⟩ [] false) = .ok (sampleId 0xaa) := by
    decide
  have hsample : sampleLines = .ok (3, true) := by
    decide
  obtain ⟨matcher, hcompiled, hsample⟩ := Outcome.bind_eq_ok.mp hsample
  obtain ⟨walk, hwalk, hsample⟩ := Outcome.bind_eq_ok.mp hsample
  obtain ⟨hlength, hcursors⟩ := Prod.mk.inj (Outcome.ok.inj hsample)
  refine ⟨_, _, ⟨by decide, by decide, by decide, matcher, none, sampleId 0xaa, walk,
    Outcome.ofExcept_eq_ok.mp hcompiled, rfl, hresolved, hwalk, rfl⟩, hlength, fun line hline ↦ ?_⟩
  exact of_decide_eq_true (List.all_eq_true.mp hcursors line hline)

/-- The theorem at a fresh call with a limit of 8 lines and 300 bytes. -/
theorem search_progress_sample : ∃ lines ending, Ahead sampleStore sampleGix sampleCompile 10 1000
    ⟨sampleId 3, sampleId 0xaa⟩ [0x78] {} none lines ending ∧
    (Returns sampleStore sampleGix sampleCompile 10 1000 ⟨sampleId 3, sampleId 0xaa⟩ [0x78]
        ⟨{}, 8, 300, none⟩ ↔ Progress ⟨sampleId 3, sampleId 0xaa⟩ [0x78] {} 8 300 lines ending) := by
  obtain ⟨lines, ending, hahead, hlength, hcursors⟩ := sample_ahead
  have hlines : lines ≠ [] := by
    rintro rfl
    cases hlength
  exact ⟨lines, ending, hahead,
    (search_progress_iff hahead hlines hcursors (by decide)).1 300 (by decide) (by decide)⟩

/-- The first line takes 90 bytes and its cursor 44: a budget of 100 fails where one of 80 does not. -/
theorem search_jams : ∃ lines ending, Ahead sampleStore sampleGix sampleCompile 10 1000
      ⟨sampleId 3, sampleId 0xaa⟩ [0x78] {} none lines ending ∧ lines ≠ [] ∧
    (∀ line ∈ lines, (cursorAt ⟨sampleId 3, sampleId 0xaa⟩ [0x78] {} line.position).length ≤
      Cursor.maxCursorBytes) ∧
    Returns sampleStore sampleGix sampleCompile 10 1000 ⟨sampleId 3, sampleId 0xaa⟩ [0x78]
      ⟨{}, 8, 80, none⟩ ∧
    sampleStore.eval (search sampleGix sampleCompile 10 sampleStore.toStoreInfo 1000
        ⟨sampleId 3, sampleId 0xaa⟩ [0x78] ⟨{}, 8, 100, none⟩) =
      .error ((Error.new .budgetExceeded
        "budget exhausted before any search pagination progress").withLimit "max_result_bytes") := by
  obtain ⟨lines, ending, hahead, hlength, hcursors⟩ := sample_ahead
  refine ⟨lines, ending, hahead, ?_, hcursors, ?_, ?_⟩
  · rintro rfl
    cases hlength
  · have hfound : (samplePage none (8, 80) >>= fun page ↦ .ok page.found.length) = .ok 1 := by
      decide
    obtain ⟨page, hpage, hlength⟩ := Outcome.bind_eq_ok.mp hfound
    refine ⟨page, hpage, ?_⟩
    rintro hnil
    rw [hnil] at hlength
    cases hlength
  · decide

end Gitility.Search
