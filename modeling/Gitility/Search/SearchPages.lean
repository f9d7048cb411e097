import Gitility.Base.Pages
import Gitility.Cache.LruRefinement
import Gitility.Search.Candidates

/-!
# The pages of a search

All candidates of a search, scanned one after the other, give one list of matching lines. A page
emits a segment of that list: it replays the candidates before its position, goes on behind the
named line and stops at one of its limits, and what it gives up to fit its cursor is the end of
its segment. The scan cache only ever holds the scan the store gives.
-/

namespace Gitility.Search

variable {db : ObjectDb} {gix : Gix} {query : SearchQuery} {snapshot : Snapshot}
  {matcher : CompiledMatcher} {maxObjectBytes : ℕ} {candidate : BlobCandidate}

/-! ### Scans -/

/-- The scan of a blob. -/
def scanOf (db : ObjectDb) (matcher : CompiledMatcher) (query : SearchQuery) (maxObjectBytes : ℕ)
    (oid : Oid) : Outcome Error ScannedBlob :=
  db.eval (scanBlob matcher query maxObjectBytes oid)

/-- The lines of a file are few enough for their ordinals to be 32-bit numbers. -/
theorem length_scanLines {payload : Bytes} {contextLines : ℕ} {spans rest : List (ℕ × ℕ)}
    {index : ℕ} {lines : List CachedLineMatch}
    (h : db.eval (scanLines payload matcher contextLines spans index rest) = .ok lines) :
    lines = [] ∨ index + lines.length ≤ u32Max := by
  induction rest generalizing index lines with
  | nil => exact .inl (Outcome.ok.inj h).symm
  | cons span rest ih =>
    obtain ⟨start, stop⟩ := span
    simp only [scanLines, ObjectDb.eval_bind, ObjectDb.eval_check, Outcome.ok_bind] at h
    cases hfirst : firstOccurrence matcher (slice payload start stop) with
    | none =>
      rw [hfirst] at h
      rcases ih h with hnil | hlen
      · exact .inl hnil
      · exact .inr (by omega)
    | some occurrence =>
      simp only [hfirst, ObjectDb.eval_bind, Outcome.bind_eq_ok] at h
      obtain ⟨line, hline, later, hlater, h⟩ := h
      obtain rfl := Outcome.ok.inj h
      have hindex : index + 1 ≤ u32Max := by
        simp only [cacheLine, ObjectDb.eval_bind, ObjectDb.eval_ofExcept, Outcome.bind_eq_ok,
          Outcome.ofExcept_eq_ok, toU32, Except.bind_eq_ok, ensure_eq_ok] at hline
        obtain ⟨-, ⟨-, hindex, -⟩, -⟩ := hline
        exact hindex
      rw [List.length_cons]
      rcases ih hlater with rfl | hlen
      · exact .inr hindex
      · exact .inr (by omega)

/-- A scan with lines has read its payload. -/
theorem scanOf_found {oid : Oid} {lines : List CachedLineMatch} {payload : Option Bytes}
    (h : scanOf db matcher query maxObjectBytes oid = .ok ⟨.found lines, payload⟩) :
    ∃ bytes, payload = some bytes ∧ db.eval (readBlobPayload oid) = .ok (some bytes) ∧
      lines.length ≤ u32Max := by
  simp only [scanOf, scanBlob, ObjectDb.eval_bind, ObjectDb.eval_check, Outcome.ok_bind,
    ObjectDb.eval_ofExcept, Outcome.bind_eq_ok] at h
  obtain ⟨read, -, header, -, h⟩ := h
  split at h
  · cases Outcome.ok.inj h
  · rw [ObjectDb.eval_bind, Outcome.bind_eq_ok] at h
    obtain ⟨found, hfound, h⟩ := h
    cases found with
    | none => cases Outcome.ok.inj h
    | some bytes =>
      simp only [scanRead, ObjectDb.eval_bind, ObjectDb.eval_check, Outcome.ok_bind] at h
      split at h
      · cases Outcome.ok.inj h
      · rw [ObjectDb.eval_bind, Outcome.bind_eq_ok] at h
        obtain ⟨scanned, hscanned, h⟩ := h
        cases Outcome.ok.inj h
        refine ⟨bytes, rfl, hfound, ?_⟩
        rw [scanPayload, ObjectDb.eval_bind, Outcome.bind_eq_ok] at hscanned
        obtain ⟨spans, -, hlines⟩ := hscanned
        rcases length_scanLines hlines with rfl | hlen
        · exact Nat.zero_le _
        · omega

/-- The store can scan a candidate. -/
def Scanned (db : ObjectDb) (matcher : CompiledMatcher) (query : SearchQuery) (maxObjectBytes : ℕ)
    (candidate : BlobCandidate) : Prop :=
  ∃ scanned, scanOf db matcher query maxObjectBytes candidate.oid = .ok scanned

/-- The matches of a candidate; a file that is skipped, or that cannot be scanned, has none. -/
def itemsOf (db : ObjectDb) (snapshot : Snapshot) (matcher : CompiledMatcher) (query : SearchQuery)
    (maxObjectBytes : ℕ) (candidate : BlobCandidate) : List Emitted :=
  match scanOf db matcher query maxObjectBytes candidate.oid with
  | .ok ⟨.found lines, some payload⟩ => fileItems snapshot matcher candidate payload lines
  | _ => []

/-- The matches of a candidate are numbered in their order and carry its path. -/
theorem position_itemsOf {i : ℕ} {emitted : Emitted}
    (h : (itemsOf db snapshot matcher query maxObjectBytes candidate)[i]? = some emitted) :
    emitted.position = ⟨candidate.path, i⟩ ∧ i < u32Max := by
  unfold itemsOf at h
  split at h
  · next lines payload hscan =>
    obtain ⟨-, -, -, hlen⟩ := scanOf_found hscan
    simp only [fileItems, List.getElem?_map, List.getElem?_zipIdx, Option.map_map,
      Option.map_eq_some_iff] at h
    obtain ⟨line, hline, rfl⟩ := h
    have hi := (List.getElem?_eq_some_iff.mp hline).1
    refine ⟨?_, by omega⟩
    simp [Emitted.position, matchOf]
  · cases h

/-! ### Emission -/

section Emit

variable {limit maxResultBytes : ℕ} {items : List Emitted} {collected collected' : Collected}
  {stopped : Option String}

/-- A page emits the first items of a file, and all of them when it does not stop. -/
theorem eval_emitItems
    (h : db.eval (emitItems limit maxResultBytes items collected) = .ok (collected', stopped)) :
    ∃ front back, items = front ++ back ∧ collected'.emitted = collected.emitted ++ front ∧
      (stopped = none → back = []) := by
  induction items generalizing collected with
  | nil =>
    obtain ⟨rfl, rfl⟩ := Prod.mk.inj (Outcome.ok.inj h)
    exact ⟨[], [], rfl, (List.append_nil _).symm, fun _ ↦ rfl⟩
  | cons item items ih =>
    simp only [emitItems, ObjectDb.eval_bind, ObjectDb.eval_check, Outcome.ok_bind] at h
    split at h
    · obtain ⟨rfl, rfl⟩ := Prod.mk.inj (Outcome.ok.inj h)
      exact ⟨[], _, rfl, (List.append_nil _).symm, nofun⟩
    · simp only [ObjectDb.eval_bind, ObjectDb.eval_ofExcept, Outcome.bind_eq_ok] at h
      obtain ⟨⟨⟩, -, h⟩ := h
      split at h
      · obtain ⟨rfl, rfl⟩ := Prod.mk.inj (Outcome.ok.inj h)
        split
        · exact ⟨[item], items, rfl, rfl, nofun⟩
        · exact ⟨[], _, rfl, (List.append_nil _).symm, nofun⟩
      · obtain ⟨front, back, rfl, hemitted, hback⟩ := ih h
        refine ⟨item :: front, back, rfl, ?_, hback⟩
        rw [hemitted, Collected.push, List.append_assoc, List.singleton_append]

/-- A page without limits emits all items of a file. -/
theorem eval_emitItems_all (hordinals : ∀ item ∈ items, item.ordinal ≤ u32Max)
    (hroom : collected.emitted.length + items.length ≤ limit) :
    ∃ collected', db.eval (emitItems limit u64Max items collected) = .ok (collected', none) ∧
      collected'.emitted = collected.emitted ++ items := by
  induction items generalizing collected with
  | nil => exact ⟨collected, rfl, (List.append_nil _).symm⟩
  | cons item items ih =>
    rw [List.length_cons] at hroom
    have hlimit : collected.emitted.length ≠ limit := by omega
    have hbytes : ¬ u64Max < saturatingAdd collected.payloadBytes item.item.payloadBytes :=
      Nat.not_lt.mpr (Nat.min_le_right _ _)
    have hordinal : checkOrdinal item.ordinal = .ok () :=
      ensure_eq_ok.mpr (hordinals item List.mem_cons_self)
    have hpush : (collected.push item).emitted.length + items.length ≤ limit := by
      rw [Collected.push, List.length_append, List.length_singleton]
      omega
    obtain ⟨collected', heval, hemitted⟩ :=
      ih (fun item hitem ↦ hordinals item (List.mem_cons_of_mem _ hitem)) hpush
    refine ⟨collected', ?_, ?_⟩
    · simp only [emitItems, ObjectDb.eval_bind, ObjectDb.eval_check, Outcome.ok_bind,
        if_neg hlimit, ObjectDb.eval_ofExcept, hordinal, Outcome.ofExcept_ok, if_neg hbytes, heval]
    · rw [hemitted, Collected.push, List.append_assoc, List.singleton_append]

end Emit

/-! ### Candidates -/

section Visit

variable {scope : SearchScope} {scanned : ScannedBlob} {start : Option ℕ} {state : State}
  {collected collected' : Collected} {stopped : Option String}

/-- The matches of a candidate in a search. -/
def SearchScope.items (db : ObjectDb) (scope : SearchScope) (candidate : BlobCandidate) :
    List Emitted :=
  itemsOf db scope.snapshot scope.matcher scope.opts.toSearchQuery scope.maxObjectBytes candidate

/-- The scan of a candidate in a search. -/
def SearchScope.scan (db : ObjectDb) (scope : SearchScope) (oid : Oid) :
    Outcome Error ScannedBlob :=
  scanOf db scope.matcher scope.opts.toSearchQuery scope.maxObjectBytes oid

/-- A found scan comes with its payload, from which its lines are emitted. -/
theorem items_found {lines : List CachedLineMatch} {payload : Option Bytes}
    (hscan : scope.scan db candidate.oid = .ok ⟨.found lines, payload⟩) :
    ∃ bytes, payload = some bytes ∧ db.eval (readBlobPayload candidate.oid) = .ok (some bytes) ∧
      scope.items db candidate =
        fileItems scope.snapshot scope.matcher candidate bytes lines ∧ lines.length ≤ u32Max := by
  obtain ⟨bytes, rfl, hread, hlen⟩ := scanOf_found hscan
  refine ⟨bytes, rfl, hread, ?_, hlen⟩
  rw [SearchScope.scan] at hscan
  rw [SearchScope.items, itemsOf, hscan]

/-- A skipped scan has no lines. -/
theorem items_skipped (hscan : scope.scan db candidate.oid = .ok scanned)
    (hskip : ∀ lines, scanned.scan ≠ .found lines) : scope.items db candidate = [] := by
  obtain ⟨scan, payload⟩ := scanned
  rw [SearchScope.scan] at hscan
  rw [SearchScope.items, itemsOf, hscan]
  cases scan with
  | found lines => exact absurd rfl (hskip lines)
  | binarySkipped => rfl
  | oversizeSkipped => rfl

/-- A file has one item for each of its lines. -/
theorem length_fileItems (payload : Bytes) (lines : List CachedLineMatch) :
    (fileItems snapshot matcher candidate payload lines).length = lines.length := by
  simp [fileItems]

/-- Emitting a skipped scan adds nothing, and a cursor into it is refused. -/
theorem eval_emitSkipped (scan : CachedScan) (payload : Option Bytes)
    (hskip : ∀ lines, scan ≠ .found lines) :
    db.eval (emitScan scope candidate start ⟨scan, payload⟩ collected) =
      (Outcome.ofExcept (ensure (start = none) noEmittedMatches) >>= fun _ ↦
        .ok (collected, none)) := by
  cases scan with
  | found lines => exact absurd rfl (hskip lines)
  | binarySkipped => simp [emitScan]
  | oversizeSkipped => simp [emitScan]

/-- A page emits the first matches of a candidate from its start on, and all of them when it does
not stop. -/
theorem eval_emitScan (hscan : scope.scan db candidate.oid = .ok scanned)
    (h : db.eval (emitScan scope candidate start scanned collected) = .ok (collected', stopped)) :
    ∃ front back, (scope.items db candidate).drop (start.getD 0) = front ++ back ∧
      collected'.emitted = collected.emitted ++ front ∧ (stopped = none → back = []) ∧
      ∀ s ∈ start, s - 1 < (scope.items db candidate).length := by
  obtain ⟨scan, payload⟩ := scanned
  by_cases hfound : ∃ lines, scan = .found lines
  · obtain ⟨lines, rfl⟩ := hfound
    obtain ⟨bytes, rfl, -, hitems, -⟩ := items_found hscan
    simp only [emitScan, emitMatches, ObjectDb.eval_bind, ObjectDb.eval_unwrap_some,
      Outcome.ok_bind, ObjectDb.eval_ofExcept, Outcome.bind_eq_ok, Outcome.ofExcept_eq_ok] at h
    obtain ⟨first, hfirst, h⟩ := h
    obtain ⟨front, back, hsplit, hemitted, hback⟩ := eval_emitItems h
    have hstart : first = start.getD 0 ∧ ∀ s ∈ start, s - 1 < lines.length := by
      cases start with
      | none => exact ⟨(Except.ok.inj hfirst).symm, fun s hs ↦ by cases hs⟩
      | some s =>
        simp only [startLine, Except.bind_eq_ok, ensure_eq_ok] at hfirst
        obtain ⟨-, hbound, hfirst⟩ := hfirst
        exact ⟨(Except.ok.inj hfirst).symm, fun s' hs' ↦ by rwa [← Option.some.inj hs']⟩
    rw [hitems, length_fileItems, ← hstart.1]
    exact ⟨front, back, hsplit, hemitted, hback, hstart.2⟩
  · have hskip : ∀ lines, scan ≠ .found lines := fun lines h ↦ hfound ⟨lines, h⟩
    rw [eval_emitSkipped scan payload hskip, Outcome.bind_eq_ok] at h
    obtain ⟨⟨⟩, hnone, h⟩ := h
    obtain ⟨rfl, rfl⟩ := Prod.mk.inj (Outcome.ok.inj h)
    rw [Outcome.ofExcept_eq_ok, ensure_eq_ok] at hnone
    rw [items_skipped hscan hskip, hnone]
    exact ⟨[], [], rfl, (List.append_nil _).symm, fun _ ↦ rfl, (by simp)⟩

/-- A page without limits emits all matches of a candidate. -/
theorem eval_emitScan_all (hscan : scope.scan db candidate.oid = .ok scanned)
    (hbytes : scope.opts.maxResultBytes = u64Max)
    (hroom : collected.emitted.length + (scope.items db candidate).length ≤ scope.opts.limit) :
    ∃ collected', db.eval (emitScan scope candidate none scanned collected) =
        .ok (collected', none) ∧
      collected'.emitted = collected.emitted ++ scope.items db candidate := by
  obtain ⟨scan, payload⟩ := scanned
  by_cases hfound : ∃ lines, scan = .found lines
  · obtain ⟨lines, rfl⟩ := hfound
    obtain ⟨bytes, rfl, -, hitems, hlen⟩ := items_found hscan
    have hordinals : ∀ item ∈ scope.items db candidate, item.ordinal ≤ u32Max := by
      intro item hitem
      obtain ⟨i, hi⟩ := List.mem_iff_getElem?.mp hitem
      obtain ⟨hposition, hbound⟩ := position_itemsOf hi
      have hordinal : item.ordinal = i := congrArg Position.ordinal hposition
      omega
    obtain ⟨collected', heval, hemitted⟩ := eval_emitItems_all hordinals hroom
    refine ⟨collected', ?_, hemitted⟩
    simp only [emitScan, emitMatches, startLine, ObjectDb.eval_bind, ObjectDb.eval_unwrap_some,
      Outcome.ok_bind, ObjectDb.eval_ofExcept, Outcome.ofExcept_ok, List.drop_zero, hbytes]
    rw [← hitems]
    exact heval
  · have hskip : ∀ lines, scan ≠ .found lines := fun lines h ↦ hfound ⟨lines, h⟩
    rw [eval_emitSkipped scan payload hskip, items_skipped hscan hskip, List.append_nil]
    exact ⟨collected, rfl, rfl⟩

/-- What the scan cache may hold: the scan of the store. -/
def SearchScope.Caches (db : ObjectDb) (scope : SearchScope) (oid : Oid) (scan : CachedScan) :
    Prop :=
  ∃ payload, scope.scan db oid = .ok ⟨scan, payload⟩

/-- A candidate that can be scanned is emitted as its scan says, cached or not. -/
theorem eval_visitCandidate (start : Option ℕ) (hcache : state.cache.Holds (scope.Caches db))
    (hscan : scope.scan db candidate.oid = .ok scanned) :
    ∃ (caches : Option String → LruCache Oid CachedScan) (tally : Tally),
      (∀ stopped, (caches stopped).Holds (scope.Caches db)) ∧
      db.eval (visitCandidate scope candidate start state) =
        db.eval (emitScan scope candidate start scanned state.collected) >>=
          fun (collected, stopped) ↦ .ok (⟨caches stopped, collected, tally⟩, stopped) := by
  obtain ⟨found, cache, hget, hheld, hfound⟩ := hcache.get candidate.oid
  cases found with
  | none =>
    have hscanned : scope.Caches db candidate.oid scanned.scan := ⟨scanned.payload, hscan⟩
    obtain ⟨grown, hinsert, hgrown⟩ := hheld.insert hscanned scanned.scan.cacheWeight
    refine ⟨fun stopped ↦ if stopped.isSome then cache else grown,
      (state.tally.visit candidate.oid).scanned candidate
        (decide (candidate.oid ∉ state.tally.visitedBlobs)) scanned, fun stopped ↦ ?_, ?_⟩
    · dsimp only
      split
      · exact hheld
      · exact hgrown
    · have hattempt : db.eval (scanBlob scope.matcher scope.opts.toSearchQuery scope.maxObjectBytes
          candidate.oid).attempt = .ok (.ok scanned) := ObjectDb.eval_attempt_of_ok hscan
      simp only [visitCandidate, hget, ObjectDb.eval_bind, ObjectDb.eval_unwrap_some,
        Outcome.ok_bind, emitFresh, hattempt]
      congr 1
      funext ⟨collected, stopped⟩
      cases stopped with
      | none => simp [hinsert]
      | some limit => simp
  | some scan =>
    obtain ⟨payload, hpayload⟩ := hfound scan rfl
    obtain rfl := Outcome.ok.inj (hscan.symm.trans hpayload)
    have hcharge (state : State) : db.eval (chargeVisit state) = .ok none := by
      rw [chargeVisit, ObjectDb.eval_bind,
        ObjectDb.eval_attempt_of_ok ObjectDb.eval_chargeObjectVisit]
      rfl
    cases scan with
    | found lines =>
      obtain ⟨bytes, rfl, hread, -, -⟩ := items_found hscan
      refine ⟨fun _ ↦ cache, (state.tally.visit candidate.oid).readPayload candidate.oid,
        fun _ ↦ hheld, ?_⟩
      simp only [visitCandidate, hget, ObjectDb.eval_bind, ObjectDb.eval_unwrap_some,
        Outcome.ok_bind, hcharge, emitCached, hread, emitScan, Option.isSome_none,
        Bool.false_eq_true, if_false, ObjectDb.eval_pure]
    | binarySkipped =>
      refine ⟨fun _ ↦ cache, state.tally.visit candidate.oid, fun _ ↦ hheld, ?_⟩
      simp only [visitCandidate, hget, ObjectDb.eval_bind, ObjectDb.eval_unwrap_some,
        Outcome.ok_bind, hcharge, emitCached, emitScan, Option.isSome_none,
        Bool.false_eq_true, if_false, ObjectDb.eval_pure, Outcome.bind_assoc]
    | oversizeSkipped =>
      refine ⟨fun _ ↦ cache, state.tally.visit candidate.oid, fun _ ↦ hheld, ?_⟩
      simp only [visitCandidate, hget, ObjectDb.eval_bind, ObjectDb.eval_unwrap_some,
        Outcome.ok_bind, hcharge, emitCached, emitScan, Option.isSome_none,
        Bool.false_eq_true, if_false, ObjectDb.eval_pure, Outcome.bind_assoc]

/-- A candidate that cannot be scanned stops a page that has matches and adds none. -/
theorem eval_visitCandidate_unscanned {state' : State}
    (hcache : state.cache.Holds (scope.Caches db))
    (hscan : ∀ scanned, scope.scan db candidate.oid ≠ .ok scanned)
    (h : db.eval (visitCandidate scope candidate start state) = .ok (state', stopped)) :
    state'.collected = state.collected ∧ stopped.isSome ∧ state.collected.emitted ≠ [] := by
  obtain ⟨found, cache, hget, -, hfound⟩ := hcache.get candidate.oid
  cases found with
  | some scan =>
    obtain ⟨payload, hpayload⟩ := hfound scan rfl
    exact absurd hpayload (hscan _)
  | none =>
    simp only [visitCandidate, hget, ObjectDb.eval_bind, ObjectDb.eval_unwrap_some,
      Outcome.ok_bind, emitFresh, ObjectDb.eval_attempt] at h
    cases hfails : scope.scan db candidate.oid with
    | ok scanned => exact absurd hfails (hscan scanned)
    | diverged =>
      rw [SearchScope.scan, scanOf] at hfails
      rw [hfails] at h
      cases h
    | error e =>
      rw [SearchScope.scan, scanOf] at hfails
      rw [hfails] at h
      simp only [Outcome.ok_bind] at h
      split at h
      · next hstops =>
        obtain ⟨rfl, rfl⟩ := Prod.mk.inj (Outcome.ok.inj h)
        exact ⟨rfl, rfl, hstops.2⟩
      · cases h

/-- What visiting a candidate adds to a page. -/
theorem visit_cases {state' : State} (hcache : state.cache.Holds (scope.Caches db))
    (h : db.eval (visitCandidate scope candidate start state) = .ok (state', stopped)) :
    (stopped.isSome ∧ state'.collected.emitted = state.collected.emitted ∧
      state.collected.emitted ≠ []) ∨
    ((∃ scanned, scope.scan db candidate.oid = .ok scanned) ∧
      state'.cache.Holds (scope.Caches db) ∧
      (∀ s ∈ start, s - 1 < (scope.items db candidate).length) ∧
      ∃ front back, (scope.items db candidate).drop (start.getD 0) = front ++ back ∧
        state'.collected.emitted = state.collected.emitted ++ front ∧
        (stopped = none → back = [])) := by
  by_cases hscan : ∃ scanned, scope.scan db candidate.oid = .ok scanned
  · obtain ⟨scanned, hscan⟩ := hscan
    obtain ⟨caches, tally, hcaches, heval⟩ := eval_visitCandidate start hcache hscan
    rw [heval, Outcome.bind_eq_ok] at h
    obtain ⟨⟨collected, halted⟩, hemit, h⟩ := h
    obtain ⟨rfl, rfl⟩ := Prod.mk.inj (Outcome.ok.inj h)
    obtain ⟨front, back, hsplit, hemitted, hback, hstart⟩ := eval_emitScan hscan hemit
    exact .inr ⟨⟨scanned, hscan⟩, hcaches _, hstart, front, back, hsplit, hemitted, hback⟩
  · obtain ⟨hcollected, hstopped, hne⟩ :=
      eval_visitCandidate_unscanned hcache (fun scanned h ↦ hscan ⟨scanned, h⟩) h
    exact .inl ⟨hstopped, by rw [hcollected], hne⟩

end Visit

/-! ### The loop -/

section Loop

variable {scope : SearchScope} {resume : Option Position} {resumePath : Option Bytes}
  {bound fuel : ℕ} {walk : BlobWalk} {state state' : State} {stopped : Option String}
  {found : Bool}

/-- What a page has emitted of candidates it visits one after the other: a first part of their
matches, and all of them, to the end of the walk, when it was not stopped. -/
structure Emits (db : ObjectDb) (scope : SearchScope)
    (traced : List BlobCandidate × Outcome Error Unit) (front : List Emitted)
    (stopped : Option String) (done todo : List BlobCandidate) (back : List Emitted) : Prop where
  split : traced.1 = done ++ todo
  scanned : ∀ c ∈ done, ∃ scanned, scope.scan db c.oid = .ok scanned
  items : done.flatMap (scope.items db) = front ++ back
  complete : stopped = none → back = [] ∧ todo = [] ∧ traced.2 = .ok ()

private theorem Emits.nothing {traced : List BlobCandidate × Outcome Error Unit}
    (h : stopped = none → traced = ([], .ok ())) :
    Emits db scope traced [] stopped [] traced.1 [] where
  split := rfl
  scanned := nofun
  items := rfl
  complete hstopped := by
    rw [h hstopped]
    exact ⟨rfl, rfl, rfl⟩

/-- Candidates behind the resumed one are searched from their first line. -/
theorem startOrdinal_found (candidate : BlobCandidate) :
    startOrdinal resume true candidate = .ok (some none) := by
  unfold startOrdinal
  cases resume <;> rfl

/-- A loop that has found its position emits the first matches of the candidates it has left. -/
theorem eval_loop_found (hcache : state.cache.Holds (scope.Caches db))
    (h : db.eval (loop scope ⟨gix, db.toStoreInfo, query, resumePath⟩ resume bound fuel walk true
      state) = .ok (state', stopped, found)) :
    found = true ∧ ∃ front done todo back,
      state'.collected.emitted = state.collected.emitted ++ front ∧
      Emits db scope (trace db gix query bound fuel walk.stack) front stopped done todo back := by
  induction fuel generalizing walk state with
  | zero => cases h
  | succ fuel ih =>
    simp only [loop, ObjectDb.eval_bind, ObjectDb.eval_check, Outcome.ok_bind,
      ObjectDb.eval_attempt] at h
    cases hnext : db.eval (next ⟨gix, db.toStoreInfo, query, resumePath⟩ bound walk) with
    | diverged =>
      rw [hnext] at h
      cases h
    | error e =>
      rw [hnext] at h
      simp only [Outcome.ok_bind] at h
      split at h
      · simp only [ObjectDb.eval_pure, Outcome.ok.injEq, Prod.mk.injEq] at h
        obtain ⟨rfl, rfl, rfl⟩ := h
        exact ⟨rfl, [], [], _, [], (List.append_nil _).symm, .nothing (by simp)⟩
      · cases h
    | ok advanced =>
      obtain ⟨candidate, walk'⟩ := advanced
      rw [hnext] at h
      rw [trace, nextOf_of_next hnext]
      cases candidate with
      | none =>
        simp only [Outcome.ok_bind, ObjectDb.eval_pure, Outcome.ok.injEq, Prod.mk.injEq] at h
        obtain ⟨rfl, rfl, rfl⟩ := h
        exact ⟨rfl, [], [], _, [], (List.append_nil _).symm, .nothing fun _ ↦ rfl⟩
      | some candidate =>
        simp only [Outcome.ok_bind, ObjectDb.eval_bind, ObjectDb.eval_ofExcept, startOrdinal_found,
          Outcome.ofExcept_ok, Outcome.bind_eq_ok] at h
        obtain ⟨⟨visited, halted⟩, hvisit, h⟩ := h
        rcases visit_cases hcache hvisit with ⟨hhalted, hemitted, -⟩ |
          ⟨hscanned, hheld, -, front, back, hsplit, hemitted, hback⟩
        · simp only [hhalted, if_true, ObjectDb.eval_pure, Outcome.ok.injEq, Prod.mk.injEq] at h
          obtain ⟨rfl, rfl, rfl⟩ := h
          refine ⟨rfl, [], [], _, [], ?_, .nothing fun hnone ↦ ?_⟩
          · rw [hemitted, List.append_nil]
          · rw [hnone] at hhalted
            cases hhalted
        · rw [Option.getD_none, List.drop_zero] at hsplit
          cases halted with
          | some limit =>
            simp only [Option.isSome_some, if_true, ObjectDb.eval_pure, Outcome.ok.injEq,
              Prod.mk.injEq] at h
            obtain ⟨rfl, rfl, rfl⟩ := h
            refine ⟨rfl, front, [candidate], _, back, hemitted, rfl, ?_, ?_, (by simp)⟩
            · intro c hc
              rw [List.mem_singleton.mp hc]
              exact hscanned
            · simpa using hsplit
          | none =>
            obtain ⟨rfl, front', done, todo, back', hemitted', hemits⟩ := ih hheld h
            refine ⟨rfl, front ++ front', candidate :: done, todo, back', ?_, ?_, ?_, ?_,
              hemits.complete⟩
            · rw [hemitted', hemitted, List.append_assoc]
            · rw [List.cons_append, ← hemits.split]
            · intro c hc
              rcases List.mem_cons.mp hc with rfl | hc
              · exact hscanned
              · exact hemits.scanned c hc
            · rw [List.flatMap_cons, hsplit, hback rfl, hemits.items, List.append_nil,
                List.append_assoc]

/-- A loop that resumes skips the candidates before its position and goes on behind the line it
names. -/
theorem eval_loop_resume {position : Position}
    (hcache : state.cache.Holds (scope.Caches db)) (hempty : state.collected.emitted = [])
    (h : db.eval (loop scope ⟨gix, db.toStoreInfo, query, resumePath⟩ (some position) bound fuel
      walk false state) = .ok (state', stopped, true)) :
    ∃ before at_ after front done todo back,
      (trace db gix query bound fuel walk.stack).1 = before ++ at_ :: after ∧
      (∀ c ∈ before, c.path < position.path) ∧ at_.path = position.path ∧
      min (position.ordinal + 1) u32Max - 1 < (scope.items db at_).length ∧
      state'.collected.emitted = front ∧ after = done ++ todo ∧
      (∀ c ∈ at_ :: done, ∃ scanned, scope.scan db c.oid = .ok scanned) ∧
      (scope.items db at_).drop (min (position.ordinal + 1) u32Max) ++
        done.flatMap (scope.items db) = front ++ back ∧
      (stopped = none → back = [] ∧ todo = [] ∧
        (trace db gix query bound fuel walk.stack).2 = .ok ()) := by
  induction fuel generalizing walk state with
  | zero => cases h
  | succ fuel ih =>
    simp only [loop, ObjectDb.eval_bind, ObjectDb.eval_check, Outcome.ok_bind,
      ObjectDb.eval_attempt] at h
    cases hnext : db.eval (next ⟨gix, db.toStoreInfo, query, resumePath⟩ bound walk) with
    | diverged =>
      rw [hnext] at h
      cases h
    | error e =>
      rw [hnext] at h
      simp only [Outcome.ok_bind, hempty, ne_eq, not_true_eq_false, and_false, if_false] at h
      cases h
    | ok advanced =>
      obtain ⟨candidate, walk'⟩ := advanced
      rw [hnext] at h
      rw [trace, nextOf_of_next hnext]
      cases candidate with
      | none => simp at h
      | some candidate =>
        simp only [Outcome.ok_bind, ObjectDb.eval_bind, ObjectDb.eval_ofExcept, startOrdinal,
          Bool.false_eq_true, if_false] at h
        by_cases hless : candidate.path < position.path
        · rw [if_pos hless] at h
          obtain ⟨before, at_, after, front, done, todo, back, htrace, hbefore, hrest⟩ :=
            ih hcache hempty h
          refine ⟨candidate :: before, at_, after, front, done, todo, back, ?_, ?_, hrest⟩
          · rw [List.cons_append, ← htrace]
          · intro c hc
            rcases List.mem_cons.mp hc with rfl | hc
            · exact hless
            · exact hbefore c hc
        · rw [if_neg hless] at h
          by_cases hgreater : position.path < candidate.path
          · rw [if_pos hgreater] at h
            cases h
          · rw [if_neg hgreater] at h
            have hpath : candidate.path = position.path :=
              List.le_antisymm (List.not_lt.mp hgreater) (List.not_lt.mp hless)
            simp only [Outcome.ofExcept_ok, Outcome.ok_bind, ObjectDb.eval_bind,
              Outcome.bind_eq_ok] at h
            obtain ⟨⟨visited, halted⟩, hvisit, h⟩ := h
            rcases visit_cases hcache hvisit with ⟨-, -, hne⟩ |
              ⟨hscanned, hheld, hstart, front, back, hsplit, hemitted, hback⟩
            · exact absurd hempty hne
            · rw [Option.getD_some] at hsplit
              rw [hempty, List.nil_append] at hemitted
              cases halted with
              | some limit =>
                simp only [Option.isSome_some, if_true, ObjectDb.eval_pure, Outcome.ok.injEq,
                  Prod.mk.injEq] at h
                obtain ⟨rfl, rfl, -⟩ := h
                refine ⟨[], candidate, _, front, [], _, back, rfl, (by simp), hpath, hstart _ rfl,
                  hemitted, rfl, ?_, ?_, (by simp)⟩
                · intro c hc
                  rw [List.mem_singleton.mp hc]
                  exact hscanned
                · rw [List.flatMap_nil, List.append_nil, hsplit]
              | none =>
                obtain ⟨-, front', done, todo, back', hemitted', hemits⟩ :=
                  eval_loop_found hheld h
                refine ⟨[], candidate, _, front ++ front', done, todo, back', rfl, (by simp), hpath,
                  hstart _ rfl, ?_, hemits.split, ?_, ?_, hemits.complete⟩
                · rw [hemitted', hemitted]
                · intro c hc
                  rcases List.mem_cons.mp hc with rfl | hc
                  · exact hscanned
                  · exact hemits.scanned c hc
                · rw [hsplit, hback rfl, hemits.items, List.append_nil, List.append_assoc]

/-- A loop without limits emits all matches, when every candidate can be scanned. -/
theorem eval_loop_all (hhints : Hints db) (hcache : state.cache.Holds (scope.Caches db))
    (hbytes : scope.opts.maxResultBytes = u64Max)
    (hscanned : ∀ c ∈ (trace db gix query bound fuel walk.stack).1,
      ∃ scanned, scope.scan db c.oid = .ok scanned)
    (hend : (trace db gix query bound fuel walk.stack).2 = .ok ())
    (hroom : state.collected.emitted.length +
      ((trace db gix query bound fuel walk.stack).1.flatMap (scope.items db)).length ≤
        scope.opts.limit) :
    ∃ state', db.eval (loop scope ⟨gix, db.toStoreInfo, query, resumePath⟩ none bound fuel walk
        true state) = .ok (state', none, true) ∧
      state'.collected.emitted = state.collected.emitted ++
        (trace db gix query bound fuel walk.stack).1.flatMap (scope.items db) := by
  induction fuel generalizing walk state with
  | zero => cases hend
  | succ fuel ih =>
    simp only [loop, ObjectDb.eval_bind, ObjectDb.eval_check, Outcome.ok_bind,
      ObjectDb.eval_attempt]
    rw [trace] at hscanned hend hroom ⊢
    cases hnext : nextOf db gix query bound walk.stack with
    | diverged =>
      rw [hnext] at hend
      cases hend
    | error e =>
      rw [hnext] at hend
      cases hend
    | ok advanced =>
      obtain ⟨candidate, stack⟩ := advanced
      rw [hnext] at hscanned hend hroom
      obtain ⟨walk', hwalk', rfl⟩ := eval_next_of_ok hhints resumePath hnext
      rw [hwalk']
      cases candidate with
      | none => exact ⟨state, rfl, (List.append_nil _).symm⟩
      | some candidate =>
        dsimp only at hscanned hend hroom ⊢
        rw [List.flatMap_cons, List.length_append] at hroom
        obtain ⟨scanned, hscan⟩ := hscanned candidate List.mem_cons_self
        obtain ⟨caches, tally, hcaches, hvisit⟩ := eval_visitCandidate none hcache hscan
        obtain ⟨collected, hemit, hemitted⟩ := eval_emitScan_all hscan hbytes
          (show state.collected.emitted.length + _ ≤ _ by omega)
        rw [hemit] at hvisit
        have hroom' : collected.emitted.length +
            ((trace db gix query bound fuel walk'.stack).1.flatMap (scope.items db)).length ≤
              scope.opts.limit := by
          rw [hemitted, List.length_append]
          omega
        have hheld : (⟨caches none, collected, tally⟩ : State).cache.Holds (scope.Caches db) :=
          hcaches none
        obtain ⟨state', hloop, hall⟩ := ih hheld
          (fun c hc ↦ hscanned c (List.mem_cons_of_mem _ hc)) hend hroom'
        refine ⟨state', ?_, ?_⟩
        · simp only [Outcome.ok_bind, ObjectDb.eval_bind, ObjectDb.eval_ofExcept, startOrdinal,
            Outcome.ofExcept_ok, hvisit, Option.isSome_none, Bool.false_eq_true, if_false, hloop]
        · rw [hall, hemitted, List.flatMap_cons, List.append_assoc]

end Loop

/-! ### Cursors -/

section Cursors

variable {pattern : Bytes}

/-- A cursor that is fitted names the last match of a first part of the page. -/
theorem fitCursor_ok {maxResultBytes count : ℕ} {collected collected' : Collected}
    {stoppedBy stoppedBy' : String} {cursor : Bytes}
    (h : fitCursor snapshot pattern query maxResultBytes count collected stoppedBy =
      .ok (collected', stoppedBy', cursor)) :
    ∃ front last back, collected'.emitted = front ++ [last] ∧
      collected.emitted = collected'.emitted ++ back ∧
      cursor = cursorAt snapshot pattern query last.position ∧
      cursor.length ≤ Cursor.maxCursorBytes := by
  induction count generalizing collected stoppedBy with
  | zero => cases h
  | succ count ih =>
    rw [fitCursor] at h
    rcases List.eq_nil_or_concat' collected.emitted with hnil | ⟨front, last, hsplit⟩
    · rw [hnil] at h
      cases h
    · have hpop : (collected.pop last).emitted = front := by
        rw [Collected.pop, hsplit, List.dropLast_concat]
      have hgive (h : fitCursor snapshot pattern query maxResultBytes count (collected.pop last)
          "max_result_bytes" = .ok (collected', stoppedBy', cursor)) :
          ∃ front last back, collected'.emitted = front ++ [last] ∧
            collected.emitted = collected'.emitted ++ back ∧
            cursor = cursorAt snapshot pattern query last.position ∧
            cursor.length ≤ Cursor.maxCursorBytes := by
        obtain ⟨front', last', back, hemitted, hfront, hcursor⟩ := ih h
        refine ⟨front', last', back ++ [last], hemitted, ?_, hcursor⟩
        rw [hsplit, ← hpop, hfront, List.append_assoc]
      rw [hsplit, List.getLast?_concat] at h
      dsimp only at h
      split at h
      · split at h
        · cases h
        · exact hgive h
      · next hfits =>
        split at h
        · simp only [Except.ok.injEq, Prod.mk.injEq] at h
          obtain ⟨rfl, -, rfl⟩ := h
          exact ⟨front, last, [], hsplit, (List.append_nil _).symm, rfl, Nat.not_lt.mp hfits⟩
        · split at h
          · cases h
          · exact hgive h

/-- The cursor of a match is resumed at its position. -/
theorem decodeResume_cursorAt {position : Position} {limit maxResultBytes : ℕ}
    (hinside : validatePath position.path = .ok () ∧
      ∃ rest, rest ≠ [] ∧ position.path = joinPath query.path rest)
    (hordinal : position.ordinal < u32Max)
    (hfits : (cursorAt snapshot pattern query position).length ≤ Cursor.maxCursorBytes) :
    decodeResume snapshot pattern
      ⟨query, limit, maxResultBytes, some (cursorAt snapshot pattern query position)⟩ =
        .ok (some position) := by
  obtain ⟨path, ordinal⟩ := position
  obtain ⟨hvalid, rest, hrest, hpath⟩ := hinside
  have hdecode : Cursor.decode (cursorAt snapshot pattern query ⟨path, ordinal⟩)
      (expected snapshot pattern query) = .ok { expected snapshot pattern query with
        generation := [], position := Bytes.toLe 4 ordinal ++ path } :=
    Cursor.decode_encode_of_le snapshot.commitOid.length_bytes hfits
  have hwidth : ordinal < 256 ^ 4 := lt_of_lt_of_le hordinal (by decide)
  have hdrop : (Bytes.toLe 4 ordinal ++ path).drop 4 = path := by
    rw [List.drop_left' (Bytes.length_toLe 4 ordinal)]
  have htake : (Bytes.toLe 4 ordinal ++ path).take 4 = Bytes.toLe 4 ordinal := by
    rw [List.take_left' (Bytes.length_toLe 4 ordinal)]
  have hposition : decodePosition query.path (Bytes.toLe 4 ordinal ++ path) =
      .ok ⟨path, ordinal⟩ := by
    simp only [decodePosition, Except.bind_eq_ok, ensure_eq_ok, hdrop, htake,
      Bytes.ofLe_toLe_of_lt hwidth]
    refine ⟨(), by simp, (), ?_, (), ?_, (), ?_, rfl⟩
    · rw [show path = _ from hpath]
      exact joinPath_ne_nil hrest
    · rw [show validatePath path = _ from hvalid]
      rfl
    · rw [show path = _ from hpath]
      exact inside_joinPath hrest
  simp only [decodeResume, Except.bind_eq_ok]
  exact ⟨_, hdecode, (), rfl, _, hposition, rfl⟩

end Cursors

/-! ### Pages -/

section Pages

variable {pattern : Bytes} {compile : Bytes → SearchQuery → Except Error CompiledMatcher}
  {fuel limit maxResultBytes capacity : ℕ} {cursor : Option Bytes} {treeOid : Oid}
  {entries : List OwnedTreeEntry} {page : SearchPage}

/-- What every call of one search finds, whatever its limits and its cursor. -/
structure Setup (db : ObjectDb) (gix : Gix)
    (compile : Bytes → SearchQuery → Except Error CompiledMatcher) (snapshot : Snapshot)
    (pattern : Bytes) (query : SearchQuery) (matcher : CompiledMatcher) (treeOid : Oid)
    (entries : List OwnedTreeEntry) : Prop where
  compatible : ensureQueryCompatible db.toStoreInfo snapshot = .ok ()
  path : validatePath query.path = .ok ()
  context : query.contextLines ≤ maxContextLines
  compiled : compile pattern query = .ok matcher
  resolved : ∀ resumed,
    db.eval (resolveScope gix db.toStoreInfo snapshot query.path resumed) = .ok treeOid
  read : db.eval (readTreeEntries gix db.toStoreInfo treeOid) = .ok entries

/-- A walk starts at the entries of its tree. -/
theorem eval_newWalk (hhints : Hints db) (resumePath : Option Bytes)
    (hread : db.eval (readTreeEntries gix db.toStoreInfo treeOid) = .ok entries) :
    ∃ walk, db.eval (newWalk ⟨gix, db.toStoreInfo, query, resumePath⟩ treeOid) = .ok walk ∧
      walk.stack = [⟨entries, query.path⟩] := by
  have henter : (db.eval (newWalk ⟨gix, db.toStoreInfo, query, resumePath⟩ treeOid) >>=
      fun walk ↦ .ok walk.stack) = _ := eval_enter hhints resumePath _ treeOid query.path
  rw [hread] at henter
  obtain ⟨walk, hwalk, hstack⟩ := Outcome.bind_eq_ok.mp henter
  exact ⟨walk, hwalk, Outcome.ok.inj hstack⟩

/-- The matches of a whole search. -/
def allItems (db : ObjectDb) (gix : Gix) (fuel : ℕ) (snapshot : Snapshot)
    (matcher : CompiledMatcher) (query : SearchQuery) (maxObjectBytes : ℕ)
    (entries : List OwnedTreeEntry) : List Emitted :=
  (trace db gix query fuel fuel [⟨entries, query.path⟩]).1.flatMap
    (itemsOf db snapshot matcher query maxObjectBytes)

/-- The parts of a call that returns a page. -/
theorem search_eq_ok
    (h : db.eval (searchWithCacheCapacity gix compile fuel db.toStoreInfo maxObjectBytes snapshot
      pattern ⟨query, limit, maxResultBytes, cursor⟩ capacity) = .ok page) :
    ∃ matcher treeOid entries resume walk state stopped,
      Setup db gix compile snapshot pattern query matcher treeOid entries ∧
      decodeResume snapshot pattern ⟨query, limit, maxResultBytes, cursor⟩ = .ok resume ∧
      walk.stack = [⟨entries, query.path⟩] ∧
      db.eval (loop ⟨snapshot, matcher, ⟨query, limit, maxResultBytes, cursor⟩, maxObjectBytes⟩
        ⟨gix, db.toStoreInfo, query, resume.map (·.path)⟩ resume fuel fuel walk resume.isNone
        ⟨.new capacity, {}, {}⟩) = .ok (state, stopped, true) ∧
      closePage snapshot pattern ⟨query, limit, maxResultBytes, cursor⟩ state stopped =
        .ok page := by
  simp only [searchWithCacheCapacity, ObjectDb.eval_bind, ObjectDb.eval_ofExcept,
    ObjectDb.eval_check, Outcome.ok_bind, Outcome.bind_eq_ok, Outcome.ofExcept_eq_ok] at h
  obtain ⟨⟨⟩, hcompatible, ⟨⟩, hvalid, matcher, hcompiled, resume, hresume, treeOid, hresolved,
    walk, hwalk, ⟨state, stopped, found⟩, hloop, ⟨⟩, hfound, hclose⟩ := h
  simp only [validateOptions, Except.bind_eq_ok, ensure_eq_ok] at hvalid
  obtain ⟨⟨⟩, hpath, -, -, -, -, hcontext⟩ := hvalid
  obtain rfl : found = true := ensure_eq_ok.mp hfound
  obtain ⟨entries, hread, hstack⟩ := enter_eq_ok hwalk
  rw [eval_resolveScope] at hresolved
  refine ⟨matcher, treeOid, entries, resume, walk, state, stopped,
    ⟨hcompatible, hpath, hcontext, hcompiled, fun resumed ↦ ?_, hread⟩, hresume,
    hstack, hloop, hclose⟩
  rw [eval_resolveScope]
  exact hresolved

/-- The setup of a search is the same for all its calls. -/
theorem Setup.unique {matcher' : CompiledMatcher} {treeOid' : Oid}
    {entries' : List OwnedTreeEntry}
    (h : Setup db gix compile snapshot pattern query matcher treeOid entries)
    (h' : Setup db gix compile snapshot pattern query matcher' treeOid' entries') :
    matcher' = matcher ∧ entries' = entries := by
  obtain rfl := Outcome.ok.inj ((h.resolved false).symm.trans (h'.resolved false))
  exact ⟨(Except.ok.inj (h.compiled.symm.trans h'.compiled)).symm,
    (Outcome.ok.inj (h.read.symm.trans h'.read)).symm⟩

/-- What is left to find at a cursor. -/
def Rest (db : ObjectDb) (gix : Gix) (fuel : ℕ) (snapshot : Snapshot) (pattern : Bytes)
    (matcher : CompiledMatcher) (query : SearchQuery) (maxObjectBytes : ℕ)
    (entries : List OwnedTreeEntry) (cursor : Option Bytes) (rest : List Emitted) : Prop :=
  match cursor with
  | none => rest = allItems db gix fuel snapshot matcher query maxObjectBytes entries
  | some cursor => ∃ front last,
    allItems db gix fuel snapshot matcher query maxObjectBytes entries = front ++ last :: rest ∧
    cursor = cursorAt snapshot pattern query last.position ∧
    cursor.length ≤ Cursor.maxCursorBytes ∧
    ∀ c ∈ (trace db gix query fuel fuel [⟨entries, query.path⟩]).1,
      ¬ last.item.path < c.path → Scanned db matcher query maxObjectBytes c

section Order

variable {base : Bytes} {candidates : List BlobCandidate}

/-- No match of a search comes twice. -/
theorem nodup_items (horder : InOrder base candidates) :
    (candidates.flatMap (itemsOf db snapshot matcher query maxObjectBytes)).Nodup := by
  rw [List.Nodup, List.pairwise_flatMap]
  constructor
  · intro c _
    rw [List.pairwise_iff_getElem]
    intro i j hi hj hij heq
    have hpi := position_itemsOf (List.getElem?_eq_getElem hi)
    have hpj := position_itemsOf (List.getElem?_eq_getElem hj)
    rw [heq, hpj.1] at hpi
    have := congrArg Position.ordinal hpi.1
    dsimp only at this
    omega
  · refine horder.sorted.imp fun {c d} hlt x hx y hy heq ↦ ?_
    obtain ⟨i, hi⟩ := List.mem_iff_getElem?.mp hx
    obtain ⟨j, hj⟩ := List.mem_iff_getElem?.mp hy
    have hpath := congrArg Position.path ((position_itemsOf hi).1.symm.trans
      ((congrArg Emitted.position heq).trans (position_itemsOf hj).1))
    rw [show c.path = d.path from hpath] at hlt
    exact List.lt_irrefl _ hlt

/-- Candidates at one path are one. -/
theorem InOrder.eq_of_path (horder : InOrder base candidates) {c d : BlobCandidate}
    (hc : c ∈ candidates) (hd : d ∈ candidates) (hpath : c.path = d.path) : c = d := by
  obtain ⟨front, back, rfl⟩ := List.append_of_mem hc
  obtain ⟨-, hback, hcross⟩ := List.pairwise_append.mp horder.sorted
  rcases List.mem_append.mp hd with hd | hd
  · have hlt := hcross d hd c List.mem_cons_self
    rw [hpath] at hlt
    exact absurd hlt (List.lt_irrefl _)
  · rcases List.mem_cons.mp hd with rfl | hd
    · rfl
    · have hlt := (List.pairwise_cons.mp hback).1 d hd
      rw [hpath] at hlt
      exact absurd hlt (List.lt_irrefl _)

/-- A match is found in its file, at its ordinal, and nowhere else. -/
theorem InOrder.locate (horder : InOrder base candidates) {front rest : List Emitted}
    {last : Emitted}
    (hsplit : candidates.flatMap (itemsOf db snapshot matcher query maxObjectBytes) =
      front ++ last :: rest) {before after : List BlobCandidate} {file : BlobCandidate}
    (hcandidates : candidates = before ++ file :: after) (hpath : file.path = last.item.path) :
    last.ordinal < u32Max ∧
    rest = (itemsOf db snapshot matcher query maxObjectBytes file).drop (last.ordinal + 1) ++
      after.flatMap (itemsOf db snapshot matcher query maxObjectBytes) := by
  have hnodup : (candidates.flatMap (itemsOf db snapshot matcher query maxObjectBytes)).Nodup :=
    nodup_items horder
  have hlast : last ∈ candidates.flatMap (itemsOf db snapshot matcher query maxObjectBytes) := by
    simp [hsplit]
  obtain ⟨c, hc, hmem⟩ := List.mem_flatMap.mp hlast
  obtain ⟨i, hi⟩ := List.mem_iff_getElem?.mp hmem
  obtain ⟨hposition, hbound⟩ := position_itemsOf hi
  have hfile : file ∈ candidates := by simp [hcandidates]
  have hcpath : last.item.path = c.path := congrArg Position.path hposition
  obtain rfl : c = file := horder.eq_of_path hc hfile (hcpath.symm.trans hpath.symm)
  have hordinal : last.ordinal = i := congrArg Position.ordinal hposition
  obtain ⟨hlt, hget⟩ := List.getElem?_eq_some_iff.mp hi
  have hitems : itemsOf db snapshot matcher query maxObjectBytes c =
      (itemsOf db snapshot matcher query maxObjectBytes c).take i ++
        last :: (itemsOf db snapshot matcher query maxObjectBytes c).drop (i + 1) := by
    rw [← hget, ← List.drop_eq_getElem_cons hlt, List.take_append_drop]
  rw [hordinal]
  refine ⟨hbound, ?_⟩
  generalize (itemsOf db snapshot matcher query maxObjectBytes c).take i = head at hitems
  generalize (itemsOf db snapshot matcher query maxObjectBytes c).drop (i + 1) = tail at hitems ⊢
  rw [hcandidates, List.flatMap_append, List.flatMap_cons, hitems, List.append_assoc,
    List.cons_append, ← List.append_assoc] at hsplit
  rw [hcandidates, List.flatMap_append, List.flatMap_cons, hitems, List.append_assoc,
    List.cons_append, ← List.append_assoc, hsplit, List.nodup_middle, List.nodup_cons,
    List.mem_append, not_or] at hnodup
  exact ((List.append_cons_inj_of_notMem hnodup.1.1 hnodup.1.2).mp hsplit.symm).2.2

end Order

/-- What a page has seen: the candidates it is done with, all of them scanned, and the segment of
their matches that it emitted. -/
structure Seen (db : ObjectDb) (gix : Gix) (fuel : ℕ) (snapshot : Snapshot)
    (matcher : CompiledMatcher) (query : SearchQuery) (maxObjectBytes : ℕ)
    (entries : List OwnedTreeEntry) (rest emitted : List Emitted) (stopped : Option String)
    (seen todo : List BlobCandidate) (skipped back : List Emitted) : Prop where
  split : (trace db gix query fuel fuel [⟨entries, query.path⟩]).1 = seen ++ todo
  scanned : ∀ c ∈ seen, Scanned db matcher query maxObjectBytes c
  items : seen.flatMap (itemsOf db snapshot matcher query maxObjectBytes) =
    skipped ++ (emitted ++ back)
  rest : rest = emitted ++ (back ++
    todo.flatMap (itemsOf db snapshot matcher query maxObjectBytes))
  complete : stopped = none → back = [] ∧ todo = [] ∧
    (trace db gix query fuel fuel [⟨entries, query.path⟩]).2 = .ok ()

/-- A call that returns a page has seen a segment of what is left at its cursor. -/
theorem search_seen
    (hsetup : Setup db gix compile snapshot pattern query matcher treeOid entries)
    (horder : InOrder query.path (trace db gix query fuel fuel [⟨entries, query.path⟩]).1)
    {rest : List Emitted}
    (hrest : Rest db gix fuel snapshot pattern matcher query maxObjectBytes entries cursor rest)
    (h : db.eval (searchWithCacheCapacity gix compile fuel db.toStoreInfo maxObjectBytes snapshot
      pattern ⟨query, limit, maxResultBytes, cursor⟩ capacity) = .ok page) :
    ∃ state stopped seen todo skipped back,
      Seen db gix fuel snapshot matcher query maxObjectBytes entries rest state.collected.emitted
        stopped seen todo skipped back ∧
      closePage snapshot pattern ⟨query, limit, maxResultBytes, cursor⟩ state stopped =
        .ok page := by
  obtain ⟨matcher', treeOid', entries', resume, walk, state, stopped, hsetup', hresume, hstack,
    hloop, hclose⟩ := search_eq_ok h
  obtain ⟨rfl, rfl⟩ := hsetup.unique hsetup'
  refine ⟨state, stopped, ?_⟩
  have hcache {scope : SearchScope} : (LruCache.new capacity).Holds (scope.Caches db) :=
    LruCache.holds_new capacity
  cases cursor with
  | none =>
    obtain rfl := Except.ok.inj hresume
    obtain ⟨-, front, done, todo, back, hemitted, hemits⟩ := eval_loop_found hcache hloop
    rw [List.nil_append] at hemitted
    rw [hstack] at hemits
    refine ⟨done, todo, [], back, ⟨hemits.split, hemits.scanned, ?_, ?_, hemits.complete⟩, hclose⟩
    · rw [List.nil_append, hemitted]
      exact hemits.items
    · rw [show rest = _ from hrest, allItems, hemits.split, List.flatMap_append, hemitted,
        ← List.append_assoc]
      congr 1
      exact hemits.items
  | some cursor =>
    obtain ⟨front, last, hall, rfl, hfits, hscanned⟩ := hrest
    have hlast : last ∈ allItems db gix fuel snapshot matcher' query maxObjectBytes entries' := by
      simp [hall]
    obtain ⟨c, hc, hmem⟩ := List.mem_flatMap.mp hlast
    obtain ⟨i, hi⟩ := List.mem_iff_getElem?.mp hmem
    obtain ⟨hposition, hbound⟩ := position_itemsOf hi
    have hinside := horder.inside c hc
    have hdecoded : decodeResume snapshot pattern ⟨query, limit, maxResultBytes,
        some (cursorAt snapshot pattern query last.position)⟩ = .ok (some last.position) :=
      decodeResume_cursorAt (by rwa [hposition]) (by rwa [hposition]) hfits
    obtain rfl := Except.ok.inj (hresume.symm.trans hdecoded)
    obtain ⟨before, file, after, front', done, todo, back, htrace, hbefore, hpath, -, hemitted,
      hafter, hfiles, hitems, hcomplete⟩ := eval_loop_resume hcache rfl hloop
    rw [hstack] at htrace hcomplete
    obtain ⟨hordinal, hrest⟩ := horder.locate hall htrace hpath
    have hstart : min (last.position.ordinal + 1) u32Max = last.ordinal + 1 :=
      Nat.min_eq_left hordinal
    have hsegment : (itemsOf db snapshot matcher' query maxObjectBytes file).drop
        (last.ordinal + 1) ++ done.flatMap (itemsOf db snapshot matcher' query maxObjectBytes) =
        state.collected.emitted ++ back := by
      rw [hemitted, ← hstart]
      exact hitems
    refine ⟨before ++ file :: done, todo,
      before.flatMap (itemsOf db snapshot matcher' query maxObjectBytes) ++
        (itemsOf db snapshot matcher' query maxObjectBytes file).take (last.ordinal + 1), back,
      ⟨?_, ?_, ?_, ?_, hcomplete⟩, hclose⟩
    · rw [htrace, hafter, List.append_assoc, List.cons_append]
    · intro c hc
      rcases List.mem_append.mp hc with hc | hc
      · have hlt : c.path < last.item.path := hbefore c hc
        refine hscanned c (by simp [htrace, hc]) fun hgt ↦ ?_
        exact absurd hlt (List.lt_asymm hgt)
      · exact hfiles c hc
    · rw [← hsegment, List.flatMap_append, List.flatMap_cons, List.append_assoc,
        ← List.append_assoc (List.take _ _), List.take_append_drop]
    · rw [hrest, hafter, List.flatMap_append, ← List.append_assoc, hsegment, List.append_assoc]

/-- The page of a segment is its first part. -/
theorem Seen.delivers {rest : List Emitted} {state : State} {stopped : Option String}
    {seen todo : List BlobCandidate} {skipped back : List Emitted}
    (horder : InOrder query.path (trace db gix query fuel fuel [⟨entries, query.path⟩]).1)
    (hseen : Seen db gix fuel snapshot matcher query maxObjectBytes entries rest
      state.collected.emitted stopped seen todo skipped back)
    (hclose : closePage snapshot pattern ⟨query, limit, maxResultBytes, cursor⟩ state stopped =
      .ok page) :
    Delivers SearchPage.nextCursor SearchPage.found
      (fun cursor found ↦ ∃ rest, found = rest.map Emitted.item ∧
        Rest db gix fuel snapshot pattern matcher query maxObjectBytes entries cursor rest)
      (rest.map Emitted.item) page ∧
    (page.nextCursor = none → stopped = none) := by
  cases stopped with
  | none =>
    obtain ⟨rfl, rfl, -⟩ := hseen.complete rfl
    obtain rfl := Except.ok.inj hclose
    refine ⟨.last rfl ?_, fun _ ↦ rfl⟩
    rw [hseen.rest, List.flatMap_nil, List.append_nil, List.append_nil]
    rfl
  | some limit =>
    cases hfit : fitCursor snapshot pattern query maxResultBytes
        (state.collected.emitted.length + 1) state.collected limit with
    | error e => simp [closePage, hfit, bind, Except.bind] at hclose
    | ok fitted =>
      obtain ⟨collected, stoppedBy, cursor'⟩ := fitted
      simp only [closePage, Option.mapM_some, hfit] at hclose
      obtain rfl := Except.ok.inj hclose
      obtain ⟨front, last, given, hcollected, hemitted, hcursor, hfits⟩ := fitCursor_ok hfit
      have hlast : last ∈ seen.flatMap (itemsOf db snapshot matcher query maxObjectBytes) := by
        simp [hseen.items, hemitted, hcollected]
      refine ⟨.more cursor' ((given ++ (back ++ todo.flatMap
        (itemsOf db snapshot matcher query maxObjectBytes))).map Emitted.item) rfl ?_ ?_
        ⟨_, rfl, skipped ++ front, last, ?_, hcursor, hfits, ?_⟩, nofun⟩
      · rw [hseen.rest, hemitted, List.append_assoc, List.map_append]
        rfl
      · simp [hcollected]
      · rw [allItems, hseen.split, List.flatMap_append, hseen.items, hemitted, hcollected]
        simp
      · intro c hc hle
        rw [hseen.split] at hc
        rcases List.mem_append.mp hc with hc | hc
        · exact hseen.scanned c hc
        · obtain ⟨d, hd, hmem⟩ := List.mem_flatMap.mp hlast
          obtain ⟨i, hi⟩ := List.mem_iff_getElem?.mp hmem
          have hpath : last.item.path = d.path := congrArg Position.path (position_itemsOf hi).1
          have hsorted := horder.sorted
          rw [hseen.split] at hsorted
          rw [hpath] at hle
          exact absurd ((List.pairwise_append.mp hsorted).2.2 d hd c hc) hle

/-- A call without limits finds everything, when every candidate can be scanned. -/
theorem search_all (hhints : Hints db)
    (hsetup : Setup db gix compile snapshot pattern query matcher treeOid entries)
    (hlimit : limit ≠ 0)
    (hroom : (allItems db gix fuel snapshot matcher query maxObjectBytes entries).length ≤ limit)
    (hscanned : ∀ c ∈ (trace db gix query fuel fuel [⟨entries, query.path⟩]).1,
      Scanned db matcher query maxObjectBytes c)
    (hend : (trace db gix query fuel fuel [⟨entries, query.path⟩]).2 = .ok ()) :
    ∃ page, db.eval (searchWithCacheCapacity gix compile fuel db.toStoreInfo maxObjectBytes
        snapshot pattern ⟨query, limit, u64Max, none⟩ capacity) = .ok page ∧
      page.found = (allItems db gix fuel snapshot matcher query maxObjectBytes entries).map
        Emitted.item ∧ page.nextCursor = none := by
  obtain ⟨walk, hwalk, hstack⟩ : ∃ walk, db.eval (newWalk ⟨gix, db.toStoreInfo, query, none⟩
      treeOid) = .ok walk ∧ walk.stack = [⟨entries, query.path⟩] :=
    eval_newWalk hhints none hsetup.read
  have hvalid : validateOptions ⟨query, limit, u64Max, none⟩ = .ok () := by
    simp only [validateOptions, Except.bind_eq_ok, ensure_eq_ok]
    exact ⟨(), hsetup.path, (), hlimit, (), by decide, hsetup.context⟩
  have hheld : (⟨.new capacity, {}, {}⟩ : State).cache.Holds
      (SearchScope.Caches db ⟨snapshot, matcher, ⟨query, limit, u64Max, none⟩, maxObjectBytes⟩) :=
    LruCache.holds_new capacity
  rw [← hstack] at hscanned hend
  rw [allItems, ← hstack] at hroom
  have hroom' : ([] : List Emitted).length + ((trace db gix query fuel fuel walk.stack).1.flatMap
      (itemsOf db snapshot matcher query maxObjectBytes)).length ≤ limit := by
    rwa [List.length_nil, Nat.zero_add]
  obtain ⟨state, hloop, hemitted⟩ : ∃ state, db.eval (loop ⟨snapshot, matcher,
        ⟨query, limit, u64Max, none⟩, maxObjectBytes⟩ ⟨gix, db.toStoreInfo, query, none⟩ none fuel
        fuel walk true ⟨.new capacity, {}, {}⟩) = .ok (state, none, true) ∧
      state.collected.emitted = [] ++ (trace db gix query fuel fuel walk.stack).1.flatMap
        (itemsOf db snapshot matcher query maxObjectBytes) :=
    eval_loop_all hhints hheld rfl hscanned hend hroom'
  rw [hstack] at hemitted
  have hpage : db.eval (searchWithCacheCapacity gix compile fuel db.toStoreInfo maxObjectBytes
      snapshot pattern ⟨query, limit, u64Max, none⟩ capacity) =
        .ofExcept (closePage snapshot pattern ⟨query, limit, u64Max, none⟩ state none) := by
    simp only [searchWithCacheCapacity, ObjectDb.eval_bind, ObjectDb.eval_ofExcept,
      ObjectDb.eval_check, hsetup.compatible, hvalid, hsetup.compiled, decodeResume,
      hsetup.resolved, Option.map_none, hwalk, Option.isNone_none, hloop,
      Outcome.ofExcept_ok, Outcome.ok_bind, ensure, if_true]
  exact ⟨_, hpage, congrArg (List.map Emitted.item) hemitted, rfl⟩

/-- Following the cursors of a search: over canonical trees, when every call succeeds, following
ends and its pages make up the matches of one call without limits. That call returns where
prefetch hints do not fail. -/
theorem follow_search (hcanonical : db.CanonicalTrees gix) {limits : ℕ → ℕ × ℕ}
    (hcalls : ∀ i cursor,
      Called (fun cursor limits ↦ db.eval (search gix compile fuel db.toStoreInfo maxObjectBytes
          snapshot pattern
          { toSearchQuery := query, limit := limits.1, maxResultBytes := limits.2, cursor }))
        SearchPage.nextCursor limits none i cursor →
      ∃ page, db.eval (search gix compile fuel db.toStoreInfo maxObjectBytes snapshot pattern
        { toSearchQuery := query, limit := (limits i).1, maxResultBytes := (limits i).2, cursor }) =
          .ok page) :
    ∃ n pages,
      follow (fun cursor limits ↦ db.eval (search gix compile fuel db.toStoreInfo maxObjectBytes
          snapshot pattern
          { toSearchQuery := query, limit := limits.1, maxResultBytes := limits.2, cursor }))
        SearchPage.nextCursor n limits none = .ok pages ∧
      ∀ limit, 1 ≤ limit → (pages.flatMap SearchPage.found).length ≤ limit →
        (∀ page, db.eval (search gix compile fuel db.toStoreInfo maxObjectBytes snapshot pattern
            { toSearchQuery := query, limit, maxResultBytes := u64Max, cursor := none }) =
              .ok page → page.nextCursor = none →
          page.found = pages.flatMap SearchPage.found) ∧
        (Hints db → ∃ page, db.eval (search gix compile fuel db.toStoreInfo maxObjectBytes
            snapshot pattern
            { toSearchQuery := query, limit, maxResultBytes := u64Max, cursor := none }) =
              .ok page ∧ page.nextCursor = none) := by
  obtain ⟨first, hfirst⟩ := hcalls 0 none .first
  obtain ⟨matcher, treeOid, entries, -, -, -, -, hsetup, -⟩ := search_eq_ok hfirst
  have horder := inOrder_trace hcanonical hsetup.read hsetup.path fuel fuel
  have hcall (cursor : Option Bytes) (found : List SearchMatch) (limits : ℕ × ℕ)
      (page : SearchPage)
      (hrest : ∃ rest, found = rest.map Emitted.item ∧
        Rest db gix fuel snapshot pattern matcher query maxObjectBytes entries cursor rest)
      (hpage : db.eval (search gix compile fuel db.toStoreInfo maxObjectBytes snapshot pattern
        { toSearchQuery := query, limit := limits.1, maxResultBytes := limits.2, cursor }) =
          .ok page) :
      Delivers SearchPage.nextCursor SearchPage.found
        (fun cursor found ↦ ∃ rest, found = rest.map Emitted.item ∧
          Rest db gix fuel snapshot pattern matcher query maxObjectBytes entries cursor rest)
        found page ∧
      (page.nextCursor = none →
        (∀ c ∈ (trace db gix query fuel fuel [⟨entries, query.path⟩]).1,
          Scanned db matcher query maxObjectBytes c) ∧
        (trace db gix query fuel fuel [⟨entries, query.path⟩]).2 = .ok ()) := by
    obtain ⟨rest, rfl, hrest⟩ := hrest
    obtain ⟨state, stopped, seen, todo, skipped, back, hseen, hclose⟩ :=
      search_seen hsetup horder hrest hpage
    obtain ⟨hdelivers, hlast⟩ := hseen.delivers horder hclose
    refine ⟨hdelivers, fun hnone ↦ ?_⟩
    obtain ⟨-, rfl, hend⟩ := hseen.complete (hlast hnone)
    refine ⟨fun c hc ↦ hseen.scanned c ?_, hend⟩
    rwa [hseen.split, List.append_nil] at hc
  have hstart : ∃ rest, (allItems db gix fuel snapshot matcher query maxObjectBytes entries).map
      Emitted.item = rest.map Emitted.item ∧
      Rest db gix fuel snapshot pattern matcher query maxObjectBytes entries none rest :=
    ⟨_, rfl, rfl⟩
  obtain ⟨pages, hfollow, hflat, cursor, limit, page, found, hrest, hpage, hnone⟩ :=
    follow_of_called hcalls (fun cursor found limits page hrest hpage ↦
      (hcall cursor found limits page hrest hpage).1) .first hstart (Nat.lt_succ_self _)
  obtain ⟨hscanned, hend⟩ := (hcall cursor found limit page hrest hpage).2 hnone
  simp only [Nat.zero_add] at hfollow
  refine ⟨_, pages, hfollow, fun limit hlimit hroom ↦ ⟨fun page hpage hnone ↦ ?_, fun hhints ↦ ?_⟩⟩
  · cases (hcall none _ (limit, u64Max) page hstart hpage).1 with
    | last _ hitems => rw [hitems, hflat]
    | more cursor _ hnext => rw [hnone] at hnext; cases hnext
  · rw [hflat, List.length_map] at hroom
    obtain ⟨page, hpage, -, hnone⟩ := search_all hhints hsetup (Nat.one_le_iff_ne_zero.mp hlimit)
      hroom hscanned hend
    exact ⟨page, hpage, hnone⟩

end Pages

/-! ### A search in pages of one match -/

/-- Two files, the first with two lines that hold an `x`. -/
def sampleStore : ObjectDb := .ofFind .sha1 none fun oid ↦ .ok <|
  if oid = sampleId 0xaa then
    some (.tree, sampleTree [("100644", "a", 1), ("100644", "b", 2)])
  else if oid = sampleId 1 then some (.blob, Bytes.ascii "x\ny\nxx\n")
  else if oid = sampleId 2 then some (.blob, Bytes.ascii "yx")
  else none

/-- A matcher of a literal byte. -/
def sampleCompile (pattern : Bytes) (_ : SearchQuery) : Except Error CompiledMatcher :=
  .ok fun line ↦ line.zipIdx.filterMap fun (byte, i) ↦
    if some byte = pattern.head? then some (i, i + 1) else none

/-- The call of a page of the sample. -/
def samplePage (cursor : Option Bytes) (limits : ℕ × ℕ) : Outcome Error SearchPage :=
  sampleStore.eval (search sampleGix sampleCompile 10 sampleStore.toStoreInfo 1000
    ⟨sampleId 3, sampleId 0xaa⟩ [0x78]
    { limit := limits.1, maxResultBytes := limits.2, cursor })

private theorem sampleStore_canonical : sampleStore.CanonicalTrees sampleGix := by
  have hdecode : ∀ entries ∈ (decodeOwnedTreeEntries sampleGix
      (sampleTree [("100644", "a", 1), ("100644", "b", 2)]) .sha1).toOption,
      Canonical entries := by
    decide +kernel
  intro oid payload entries hfind h
  have hfind : (if oid = sampleId 0xaa then
      some (ObjectKind.tree, sampleTree [("100644", "a", 1), ("100644", "b", 2)])
    else if oid = sampleId 1 then some (.blob, Bytes.ascii "x\ny\nxx\n")
    else if oid = sampleId 2 then some (.blob, Bytes.ascii "yx")
    else none) = some (.tree, payload) := Except.ok.inj hfind
  split at hfind
  · obtain rfl := (Prod.mk.inj (Option.some.inj hfind)).2
    exact hdecode entries (by rw [show decodeOwnedTreeEntries _ _ .sha1 = _ from h]; rfl)
  · split at hfind
    · cases (Prod.mk.inj (Option.some.inj hfind)).1
    · split at hfind
      · cases (Prod.mk.inj (Option.some.inj hfind)).1
      · cases hfind

/-- The theorem at a sample followed with limit 1: it finds what one large page finds. -/
theorem follow_search_sample : ∃ n pages page,
    follow samplePage SearchPage.nextCursor n (fun _ ↦ (1, 500)) none = .ok pages ∧
    samplePage none (8, u64Max) = .ok page ∧ page.nextCursor = none ∧
    page.found = pages.flatMap SearchPage.found ∧
    page.found.map (fun found ↦ (found.path, found.line)) =
      [(Bytes.ascii "a", 1), (Bytes.ascii "a", 3), (Bytes.ascii "b", 1)] := by
  have hpages : (follow samplePage SearchPage.nextCursor 3 (fun _ ↦ (1, 500)) none >>= fun pages ↦
      .ok (pages.flatMap SearchPage.found).length) = .ok 3 := by
    decide +kernel
  have hfull : (samplePage none (8, u64Max) >>= fun page ↦
      .ok (page.nextCursor, page.found.map fun found ↦ (found.path, found.line))) =
      .ok (none, [(Bytes.ascii "a", 1), (Bytes.ascii "a", 3), (Bytes.ascii "b", 1)]) := by
    decide +kernel
  obtain ⟨three, hthree, hlength⟩ := Outcome.bind_eq_ok.mp hpages
  obtain ⟨page, hpage, hfound⟩ := Outcome.bind_eq_ok.mp hfull
  obtain ⟨hnone, hfound⟩ := Prod.mk.inj (Outcome.ok.inj hfound)
  obtain ⟨n, pages, hfollow, hall⟩ := follow_search sampleStore_canonical
    fun i cursor hcalled ↦ hcalled.answered hthree
  obtain rfl : pages = three := follow_unique hfollow hthree
  have hroom : (pages.flatMap SearchPage.found).length ≤ 8 := by
    rw [Outcome.ok.inj hlength]
    decide
  exact ⟨n, pages, page, hfollow, hpage, hnone, (hall 8 (by decide) hroom).1 page hpage hnone, hfound⟩

end Gitility.Search
