import Gitility.Cache.LruRefinement
import Gitility.Search.MatchLines
import Gitility.Store.StaticOdb

/-!
# The scan cache of a search

A search of an immutable store does the same with any cache: a hit charges the budget like a rescan and
the spans it emits are those that a rescan finds. The reference is a search whose cache keeps nothing.
Only the count of payload rereads tells them apart.
-/

namespace Gitility.Search

variable {odb : StaticOdb} {budget later : Budget} {matcher : CompiledMatcher} {query : SearchQuery}
  {maxObjectBytes : ℕ} {oid : Oid} {payload : Bytes}

/-! ### Calls of a scan -/

private theorem exec_check (h : budget.Running) : odb.exec Query.check budget = (.ok (), budget) :=
  Program.exec_request_of (show odb.call .check budget = (.ok (), budget) from h.check)

/-- A check succeeds only on a running budget. -/
theorem running_of_exec_check (h : odb.exec Query.check budget = (.ok (), later)) :
    budget.Running ∧ later = budget := by
  obtain ⟨houtcome, hlater⟩ := Prod.mk.inj h
  exact Budget.running_of_check (Prod.ext (Outcome.ofExcept_eq_ok.mp houtcome) hlater)

private theorem exec_readBlobPayload (oid : Oid) (budget : Budget) : odb.exec (readBlobPayload oid) budget =
    (.ofExcept (blobPayload oid (odb.tryFindGraph oid budget).1), (odb.tryFindGraph oid budget).2) := by
  exact Program.exec_bind_ok (Program.exec_attempt_request _ _ (StoreOp.tryFindGraph oid)) _

/-- A query that only checks says under one running budget what it says under all, and leaves them. -/
theorem exec_checks {α : Type} {q : Query α} {a : α} (hq : q.Asks (· = .check)) (h : budget.Running)
    (hexec : odb.exec q budget = (.ok a, later)) :
    later = budget ∧ ∀ b : Budget, b.Running → odb.exec q b = (.ok a, b) := by
  have hanswer : ∀ b : Budget, b.Running → ∀ op, op = StoreOp.check →
      odb.call op b = ((odb.call op budget).1, b) := by
    rintro b hb op rfl
    change Budget.check b = ((Budget.check budget).1, b)
    rw [hb.check, h.check]
  obtain ⟨hvalue, hlater⟩ := Prod.mk.inj (hexec.symm.trans (hq.exec (hanswer budget h)))
  exact ⟨hlater, fun b hb ↦ (hq.exec (hanswer b hb)).trans (by rw [hvalue])⟩

private theorem asks_check : Query.check.Asks (· = StoreOp.check) := Program.asks_request rfl

/-- A scan makes no call but checks once the payload is read. -/
theorem asks_scanRead (found : Option Bytes) : (scanRead matcher query found).Asks (· = .check) := by
  cases found with
  | none => exact Program.asks_pure _
  | some payload =>
    refine asks_check.bind fun _ ↦ ?_
    split
    · exact Program.asks_pure _
    · exact (strict_scanPayload _ _ _).asks.bind fun _ ↦ Program.asks_pure _

/-- A scan keeps the payload it was made from. -/
theorem payload_of_scanRead {scanned : ScannedBlob}
    (h : odb.exec (scanRead matcher query (some payload)) budget = (.ok scanned, later)) :
    scanned.payload = some payload := by
  obtain ⟨_, _, -, hscan⟩ := Program.exec_bind_eq_ok.mp h
  split at hscan
  · rw [← Outcome.ok.inj (Prod.mk.inj hscan).1]
  · obtain ⟨_, _, -, hscan⟩ := Program.exec_bind_eq_ok.mp hscan
    rw [← Outcome.ok.inj (Prod.mk.inj hscan).1]

/-- What a scan of a stored blob does: it is charged like a visit, and reads the payload unless the blob
is too large. -/
theorem exec_scanBlob (h : budget.Running) (hkind : oid.kind = odb.hash)
    (hobject : odb.objects oid = some (.blob, payload)) :
    odb.exec (scanBlob matcher query maxObjectBytes oid) budget =
      odb.exec (do
        Query.chargeObjectVisit
        if maxObjectBytes < payload.length then return ⟨.oversizeSkipped, none⟩
        else do
          let payload ← readBlobPayload oid
          scanRead matcher query payload) budget := by
  refine (Program.exec_bind_ok (exec_check h) _).trans ?_
  have hheader := StaticOdb.tryHeaderWithProvenance_eq hkind
  rw [hobject] at hheader
  cases hcharge : Budget.chargeObjectVisit budget with
  | mk result later =>
    have hcall : odb.call .chargeObjectVisit budget = (result, later) := hcharge
    have hanswer : odb.call (.tryHeaderWithProvenance oid) budget =
        (result.map fun _ ↦ some ⟨⟨.blob, payload.length⟩, .verified⟩, later) := by
      change odb.tryHeaderWithProvenance oid budget = _
      rw [hheader, Budget.bind_eq, Budget.chargeHeader_eq, hcharge]
      cases result <;> rfl
    cases result with
    | error e =>
      exact (Program.exec_bind_error (Program.exec_request_of hanswer) _).trans
        (Program.exec_bind_error (Program.exec_request_of hcall) _).symm
    | ok _ =>
      refine (Program.exec_bind_ok (Program.exec_request_of hanswer) _).trans ?_
      exact (Program.exec_bind_ok (Program.exec_request_of hcall) fun _ ↦
        if maxObjectBytes < payload.length then _ else _).symm

/-- A scan that ends in a value is that of a stored blob under a running budget. -/
theorem blob_of_scanBlob {scanned : ScannedBlob}
    (h : odb.exec (scanBlob matcher query maxObjectBytes oid) budget = (.ok scanned, later)) :
    budget.Running ∧ oid.kind = odb.hash ∧ ∃ payload, odb.objects oid = some (.blob, payload) := by
  obtain ⟨_, _, hcheck, hscan⟩ := Program.exec_bind_eq_ok.mp h
  obtain ⟨hrunning, rfl⟩ := running_of_exec_check hcheck
  obtain ⟨read, b, hread, hscan⟩ := Program.exec_bind_eq_ok.mp hscan
  obtain ⟨hanswer, hb⟩ := Prod.mk.inj hread
  have hcall : odb.tryHeaderWithProvenance oid _ = (.ok read, b) :=
    Prod.ext (Outcome.ofExcept_eq_ok.mp hanswer) hb
  have hkind := StaticOdb.kind_of_tryHeader hcall
  refine ⟨hrunning, hkind, ?_⟩
  rw [StaticOdb.tryHeaderWithProvenance_eq hkind] at hcall
  obtain ⟨_, _, -, hread⟩ := Budget.bind_eq_ok.mp hcall
  obtain ⟨header, _, hheader, -⟩ := Program.exec_bind_eq_ok.mp hscan
  have hblob := Outcome.ofExcept_eq_ok.mp (Prod.mk.inj hheader).1
  cases hobject : odb.objects oid with
  | none =>
    rw [hobject] at hread
    cases hread
    cases hblob
  | some object =>
    obtain ⟨kind, payload⟩ := object
    rw [hobject] at hread
    cases hread
    by_cases hkind : kind = .blob
    · exact ⟨payload, by rw [hkind]⟩
    · simp [blobHeader, hkind] at hblob

/-! ### Rescans -/

/-- What a scan keeps saying: under every later budget a rescan is charged like a visit and finds the
same, and the payload of a match is read again for free. -/
def Rescans (odb : StaticOdb) (matcher : CompiledMatcher) (query : SearchQuery) (maxObjectBytes : ℕ)
    (oid : Oid) (scan : CachedScan) (budget : Budget) : Prop :=
  ∃ payload, (∀ later, budget.Later later →
      odb.exec (scanBlob matcher query maxObjectBytes oid) later =
        odb.exec (do Query.chargeObjectVisit; return ⟨scan, payload⟩) later) ∧
    ∀ lines, scan = .found lines → ∃ bytes, payload = some bytes ∧
      ∀ later, budget.Later later → odb.exec (readBlobPayload oid) later = (.ok (some bytes), later)

private theorem Rescans.mono {scan : CachedScan} (h : Rescans odb matcher query maxObjectBytes oid scan budget)
    (hlater : budget.Later later) : Rescans odb matcher query maxObjectBytes oid scan later := by
  obtain ⟨payload, hscan, hread⟩ := h
  refine ⟨payload, fun last hlast ↦ hscan last (hlater.trans hlast), fun lines hlines ↦ ?_⟩
  obtain ⟨bytes, hpayload, hread⟩ := hread lines hlines
  exact ⟨bytes, hpayload, fun last hlast ↦ hread last (hlater.trans hlast)⟩

/-- A first scan says what every rescan will. -/
theorem rescans_of_scan {scanned : ScannedBlob} (hlimit : budget.limits.maxObjectBytes = maxObjectBytes)
    (h : odb.exec (scanBlob matcher query maxObjectBytes oid) budget = (.ok scanned, later)) :
    Rescans odb matcher query maxObjectBytes oid scanned.scan later := by
  obtain ⟨hrunning, hkind, payload, hobject⟩ := blob_of_scanBlob h
  have hlater := StaticOdb.later_of_exec h
  rw [exec_scanBlob hrunning hkind hobject] at h
  obtain ⟨_, charged, hcharge, hscan⟩ := Program.exec_bind_eq_ok.mp h
  have hcharged := StaticOdb.later_of_exec hcharge
  by_cases hover : maxObjectBytes < payload.length
  · rw [if_pos hover] at hscan
    cases hscan
    refine ⟨none, fun last hlast ↦ ?_, fun lines hlines ↦ by cases hlines⟩
    rw [exec_scanBlob (hrunning.mono (hlater.trans hlast)) hkind hobject]
    simp only [if_pos hover]
  · rw [if_neg hover] at hscan
    obtain ⟨found, read, hread, hscan⟩ := Program.exec_bind_eq_ok.mp hscan
    have hfits : ∀ b : Budget, budget.Later b → payload.length ≤ b.limits.maxObjectBytes := by
      intro b hb
      rw [hb.limits, hlimit]
      exact Nat.not_lt.mp hover
    change odb.exec (readBlobPayload oid) charged = _ at hread
    have hreadable := hcharged.trans (StaticOdb.later_of_exec hread)
    rw [exec_readBlobPayload] at hread
    obtain ⟨read', hmem, hfirst | ⟨e, hcode, hfirst⟩⟩ :=
      StaticOdb.tryFindGraph_first (hrunning.mono hcharged) hkind hobject (hfits charged hcharged)
    · rw [hfirst] at hread
      cases hread
      obtain ⟨rfl, hsame⟩ := exec_checks (asks_scanRead _) (hrunning.mono hreadable) hscan
      have hreread : ∀ b : Budget, later.Later b →
          odb.exec (readBlobPayload oid) b = (.ok (some payload), b) := by
        intro b hb
        rw [exec_readBlobPayload, StaticOdb.tryFindGraph_again (hrunning.mono (hlater.trans hb)) hkind hobject
          (hfits b (hlater.trans hb)) (hb.graphReads hmem)]
        rfl
      refine ⟨scanned.payload, fun last hlast ↦ ?_,
        fun lines _ ↦ ⟨payload, payload_of_scanRead hscan, hreread⟩⟩
      rw [exec_scanBlob (hrunning.mono (hlater.trans hlast)) hkind hobject]
      refine Program.exec_bind_congr fun _ b hb ↦ ?_
      have hb := hlast.trans (StaticOdb.later_of_exec hb)
      rw [if_neg hover]
      exact (Program.exec_bind_ok (hreread b hb) _).trans (hsame b (hrunning.mono (hlater.trans hb)))
    · rw [hfirst] at hread
      have hne : e.code ≠ .objectTooLarge := by simp [hcode]
      simp [blobPayload, hne] at hread

/-! ### Counts -/

/-- The counts without those of payload rereads. -/
def Tally.withoutRereads (tally : Tally) : Tally := { tally with payloadRereads := 0, payloadReads := [] }

@[simp] private theorem Tally.withoutRereads_visitedBlobs (tally : Tally) :
    tally.withoutRereads.visitedBlobs = tally.visitedBlobs := rfl

@[simp] private theorem Tally.withoutRereads_readPayload (tally : Tally) (oid : Oid) :
    (tally.readPayload oid).withoutRereads = tally.withoutRereads := by
  rw [Tally.readPayload]
  split <;> rfl

private theorem Tally.withoutRereads_visit (tally : Tally) (oid : Oid) :
    (tally.visit oid).withoutRereads = tally.withoutRereads.visit oid := by
  by_cases h : oid ∈ tally.visitedBlobs <;> simp [Tally.visit, Tally.withoutRereads, h]

private theorem Tally.withoutRereads_countScan (tally : Tally) (scan : CachedScan) :
    (tally.countScan scan).withoutRereads = tally.withoutRereads.countScan scan := by
  cases scan <;> rfl

private theorem Tally.withoutRereads_scanned (tally : Tally) (candidate : BlobCandidate) (firstVisit : Bool)
    (scanned : ScannedBlob) : (tally.scanned candidate firstVisit scanned).withoutRereads =
      if firstVisit then tally.withoutRereads.countScan scanned.scan else tally.withoutRereads := by
  have hread : (if scanned.payload.isSome then tally.readPayload candidate.oid else tally).withoutRereads =
      tally.withoutRereads := by
    split <;> simp
  rw [Tally.scanned]
  split
  · rw [withoutRereads_countScan, hread]
  · exact hread

@[simp] private theorem Tally.visitedBlobs_readPayload (tally : Tally) (oid : Oid) :
    (tally.readPayload oid).visitedBlobs = tally.visitedBlobs := by
  rw [← withoutRereads_visitedBlobs, withoutRereads_readPayload, withoutRereads_visitedBlobs]

@[simp] private theorem Tally.visitedBlobs_scanned (tally : Tally) (candidate : BlobCandidate) (firstVisit : Bool)
    (scanned : ScannedBlob) : (tally.scanned candidate firstVisit scanned).visitedBlobs =
      tally.visitedBlobs := by
  rw [← withoutRereads_visitedBlobs, withoutRereads_scanned]
  cases scanned.scan <;> cases firstVisit <;> rfl

/-- A visit is remembered. -/
theorem Tally.mem_visit (tally : Tally) (oid : Oid) : oid ∈ (tally.visit oid).visitedBlobs := by
  by_cases h : oid ∈ tally.visitedBlobs <;> simp [Tally.visit, h]

private theorem Tally.visitedBlobs_subset (tally : Tally) (oid : Oid) :
    tally.visitedBlobs ⊆ (tally.visit oid).visitedBlobs := by
  by_cases h : oid ∈ tally.visitedBlobs <;> simp [Tally.visit, h]

/-! ### The search beside the one without a cache -/

/-- What every entry of a scan cache is: a blob that was visited, and a scan that rescans repeat. -/
def Cached (odb : StaticOdb) (scope : SearchScope) (tally : Tally) (budget : Budget) (oid : Oid)
    (scan : CachedScan) : Prop :=
  oid ∈ tally.visitedBlobs ∧
    Rescans odb scope.matcher scope.opts.toSearchQuery scope.maxObjectBytes oid scan budget

/-- A search has done the same as one whose cache keeps nothing. -/
structure Same (odb : StaticOdb) (scope : SearchScope) (state reference : State) (budget : Budget) :
    Prop where
  limit : budget.limits.maxObjectBytes = scope.maxObjectBytes
  cached : state.cache.Holds (Cached odb scope state.tally budget)
  idle : reference.cache.Idle
  collected : state.collected = reference.collected
  tally : state.tally.withoutRereads = reference.tally.withoutRereads

/-- What a step of both searches ends with. -/
def SameStep (odb : StaticOdb) (scope : SearchScope) (x y : State × Option String) (budget : Budget) :
    Prop :=
  Same odb scope x.1 y.1 budget ∧ x.2 = y.2

variable {scope : SearchScope} {state reference : State} {candidate : BlobCandidate}
  {startOrdinal : Option ℕ} {firstVisit : Bool}

private theorem Same.mono (h : Same odb scope state reference budget) (hlater : budget.Later later) :
    Same odb scope state reference later where
  limit := (congrArg BudgetLimits.maxObjectBytes hlater.limits).trans h.limit
  cached := h.cached.mono fun _ _ hcached ↦ ⟨hcached.1, hcached.2.mono hlater⟩
  idle := h.idle
  collected := h.collected
  tally := h.tally

/-- A scan that both searches make. -/
theorem Same.agree_emitFresh (h : Same odb scope state reference budget)
    (hvisited : candidate.oid ∈ state.tally.visitedBlobs) :
    Program.Agree (SameStep odb scope)
      (odb.exec (emitFresh scope candidate startOrdinal firstVisit state) budget)
      (odb.exec (emitFresh scope candidate startOrdinal firstVisit reference) budget) := by
  refine Program.Agree.bind_same fun scanned b hb ↦ ?_
  have hlater := StaticOdb.later_of_exec hb
  cases scanned with
  | error e =>
    simp only [h.collected]
    split
    · exact .ok ⟨h.mono hlater, rfl⟩
    · exact .error e b
  | ok scanned =>
    have hscan := rescans_of_scan h.limit (Program.exec_attempt_eq_ok.mp hb)
    simp only [h.collected]
    refine Program.Agree.bind_same fun emitted b' hb' ↦ ?_
    have hlater' := StaticOdb.later_of_exec hb'
    obtain ⟨collected, stopped⟩ := emitted
    have hlast := h.mono (hlater.trans hlater')
    have hcached : state.cache.Holds
        (Cached odb scope (state.tally.scanned candidate firstVisit scanned) b') :=
      hlast.cached.mono fun _ _ hcached ↦ ⟨by simpa using hcached.1, hcached.2⟩
    have htally : (state.tally.scanned candidate firstVisit scanned).withoutRereads =
        (reference.tally.scanned candidate firstVisit scanned).withoutRereads := by
      rw [Tally.withoutRereads_scanned, Tally.withoutRereads_scanned, h.tally]
    by_cases hstopped : stopped.isSome
    · simp only [hstopped, if_true]
      exact .ok ⟨⟨hlast.limit, hcached, h.idle, rfl, htally⟩, rfl⟩
    · have hentry : Cached odb scope (state.tally.scanned candidate firstVisit scanned) b' candidate.oid
          scanned.scan := ⟨by simpa using hvisited, hscan.mono hlater'⟩
      obtain ⟨cache, hinsert, hcache⟩ := hcached.insert hentry scanned.scan.cacheWeight
      obtain ⟨cache', hinsert', hidle⟩ := h.idle.insert candidate.oid scanned.scan scanned.scan.cacheWeight
      simp only [hstopped, hinsert, hinsert']
      exact .ok ⟨⟨hlast.limit, hcache, hidle, rfl, htally⟩, rfl⟩

private theorem exec_chargeVisit {result : Except Error Unit}
    (h : Budget.chargeObjectVisit budget = (result, later)) (state : State) :
    odb.exec (chargeVisit state) budget = match result with
      | .ok _ => (.ok none, later)
      | .error e =>
        if truncatable e ∧ state.collected.emitted ≠ [] then (.ok (some (e.limit.getD "budget")), later)
        else (.error e, later) := by
  have hcall : odb.call .chargeObjectVisit budget = (result, later) := h
  have hattempt : Program.exec odb.call Query.chargeObjectVisit.attempt budget = (.ok result, later) := by
    refine (Program.exec_attempt_request _ _ _).trans ?_
    rw [hcall]
    rfl
  refine (Program.exec_bind_ok hattempt _).trans ?_
  cases result with
  | ok _ => rfl
  | error e =>
    simp only
    split <;> rfl

/-- The end of a rescan, which keeps nothing, beside that of a hit. -/
theorem Same.agree_insert {scan : CachedScan} {stopped : Option String}
    (h : Same odb scope state reference budget) : Program.Agree (SameStep odb scope)
      (.ok (state, stopped), budget)
      (odb.exec (if stopped.isSome then return (reference, stopped)
        else do
          let cache ← Program.unwrap (reference.cache.insert candidate.oid scan scan.cacheWeight)
          return (⟨cache, reference.collected, reference.tally⟩, none)) budget) := by
  cases stopped with
  | some stopped => exact .ok ⟨h, rfl⟩
  | none =>
    obtain ⟨cache, hinsert, hidle⟩ := h.idle.insert candidate.oid scan scan.cacheWeight
    simp only [hinsert, Option.isSome_none, Bool.false_eq_true, if_false]
    exact .ok ⟨⟨h.limit, h.cached, hidle, h.collected, h.tally⟩, rfl⟩

/-- A hit beside a rescan. -/
theorem Same.agree_hit {scan : CachedScan} (h : Same odb scope state reference budget)
    (hentry : Cached odb scope state.tally budget candidate.oid scan) :
    Program.Agree (SameStep odb scope)
      (odb.exec (do
        let stopped ← chargeVisit state
        if stopped.isSome then return (state, stopped)
        else emitCached scope candidate startOrdinal false state scan) budget)
      (odb.exec (emitFresh scope candidate startOrdinal false reference) budget) := by
  obtain ⟨payload, hscan, hread⟩ := hentry.2
  have hrescan := hscan budget (Budget.Later.refl budget)
  change Program.Agree _ (Program.exec odb.call _ budget) (Program.exec odb.call _ budget)
  cases hcharge : Budget.chargeObjectVisit budget with
  | mk result b =>
    have hcall : odb.call .chargeObjectVisit budget = (result, b) := hcharge
    have hlater : budget.Later b := StaticOdb.later_of_exec (Program.exec_request_of hcall)
    have hvisit : odb.exec (chargeVisit state) budget = _ := exec_chargeVisit hcharge state
    cases result with
    | error e =>
      have hscanned := hrescan.trans (Program.exec_bind_error (Program.exec_request_of hcall) _)
      rw [emitFresh, Program.exec_bind_ok (Program.exec_attempt_error hscanned)]
      simp only [← h.collected] at hvisit ⊢
      split at hvisit
      · rw [Program.exec_bind_ok hvisit]
        rename_i hstop
        rw [if_pos hstop]
        exact .ok ⟨h.mono hlater, rfl⟩
      · rw [Program.exec_bind_error hvisit]
        rename_i hstop
        rw [if_neg hstop]
        exact .error e b
    | ok _ =>
      have hscanned := hrescan.trans (Program.exec_bind_ok (Program.exec_request_of hcall) _)
      rw [Program.exec_bind_ok hvisit, emitFresh, Program.exec_bind_ok (Program.exec_attempt_ok hscanned)]
      simp only [Option.isSome_none, Bool.false_eq_true, if_false]
      have hsame := h.mono hlater
      have htally : reference.tally.withoutRereads =
          (reference.tally.scanned candidate false ⟨scan, payload⟩).withoutRereads := by
        rw [Tally.withoutRereads_scanned]
        rfl
      cases scan with
      | found lines =>
        obtain ⟨bytes, rfl, hreread⟩ := hread lines rfl
        rw [emitCached, Program.exec_bind_ok (hreread b hlater), h.collected]
        refine Program.Agree.bind_same fun emitted b' hb' ↦ ?_
        have hlast := hsame.mono (StaticOdb.later_of_exec hb')
        refine Same.agree_insert ⟨hlast.limit, ?_, h.idle, rfl, ?_⟩
        · exact hlast.cached.mono fun _ _ hcached ↦ ⟨by simpa using hcached.1, hcached.2⟩
        · rw [Tally.withoutRereads_readPayload, h.tally, htally]
      | binarySkipped | oversizeSkipped =>
        cases startOrdinal with
        | some start => exact .error noEmittedMatches b
        | none =>
          have hskipped : Same odb scope state
              { reference with tally := reference.tally.scanned candidate false ⟨_, payload⟩ } b :=
            ⟨hsame.limit, hsame.cached, h.idle, hsame.collected, h.tally.trans htally⟩
          exact hskipped.agree_insert

/-- A candidate does the same to both searches. -/
theorem Same.agree_visit (h : Same odb scope state reference budget) :
    Program.Agree (SameStep odb scope)
      (odb.exec (visitCandidate scope candidate startOrdinal state) budget)
      (odb.exec (visitCandidate scope candidate startOrdinal reference) budget) := by
  obtain ⟨found, cache, hget, hcache, hfound⟩ := h.cached.get candidate.oid
  obtain ⟨cache', hget', hidle⟩ := h.idle.get candidate.oid
  have hvisited : reference.tally.visitedBlobs = state.tally.visitedBlobs :=
    (congrArg Tally.visitedBlobs h.tally).symm
  have hsame : Same odb scope { state with cache, tally := state.tally.visit candidate.oid }
      { reference with cache := cache', tally := reference.tally.visit candidate.oid } budget := by
    refine ⟨h.limit, ?_, hidle, h.collected, ?_⟩
    · exact hcache.mono fun _ _ hcached ↦ ⟨state.tally.visitedBlobs_subset _ hcached.1, hcached.2⟩
    · rw [Tally.withoutRereads_visit, Tally.withoutRereads_visit, h.tally]
  simp only [visitCandidate, hget, hget', hvisited]
  cases found with
  | none => exact hsame.agree_emitFresh (state.tally.mem_visit _)
  | some scan =>
    obtain ⟨hmem, hrescans⟩ := hfound scan rfl
    have hfirst : decide (candidate.oid ∉ state.tally.visitedBlobs) = false := by simpa using hmem
    rw [hfirst]
    exact hsame.agree_hit ⟨state.tally.mem_visit _, hrescans⟩

/-- The loops of both searches do the same. -/
theorem Same.agree_loop {walkScope : WalkScope} {resume : Option Position} {bound : ℕ} (fuel : ℕ)
    (walk : BlobWalk) (foundResume : Bool) (h : Same odb scope state reference budget) :
    Program.Agree (fun x y b ↦ Same odb scope x.1 y.1 b ∧ x.2 = y.2)
      (odb.exec (loop scope walkScope resume bound fuel walk foundResume state) budget)
      (odb.exec (loop scope walkScope resume bound fuel walk foundResume reference) budget) := by
  induction fuel generalizing walk foundResume state reference budget with
  | zero => exact .diverged budget
  | succ fuel ih =>
    refine Program.Agree.bind_same fun _ b hb ↦ ?_
    have hcheck := h.mono (StaticOdb.later_of_exec hb)
    refine Program.Agree.bind_same fun advanced b' hb' ↦ ?_
    have hadvanced := hcheck.mono (StaticOdb.later_of_exec hb')
    rcases advanced with e | ⟨candidate, walk'⟩
    · simp only [h.collected]
      split
      · exact .ok ⟨hadvanced, rfl⟩
      · exact .error e b'
    · cases candidate with
      | none => exact .ok ⟨hadvanced, rfl⟩
      | some candidate =>
        refine Program.Agree.bind_same fun start b'' hb'' ↦ ?_
        have hstart := hadvanced.mono (StaticOdb.later_of_exec hb'')
        cases start with
        | none => exact ih walk' foundResume hstart
        | some start =>
          refine hstart.agree_visit.bind ?_
          rintro ⟨state', stopped⟩ ⟨reference', _⟩ last ⟨hvisit, rfl⟩
          simp only
          split
          · exact .ok ⟨hvisit, rfl⟩
          · exact ih walk' true hvisit

end Gitility.Search

namespace Gitility

/-- A page without its count of payload rereads. -/
def SearchPage.withoutRereads (page : SearchPage) : SearchPage :=
  { page with stats := { page.stats with payloadRereads := 0 } }

/-- A search of the store under a budget with a scan cache: its outcome, and the budget it leaves. -/
def StaticOdb.search (odb : StaticOdb) (gix : Gix)
    (compile : Bytes → SearchQuery → Except Error CompiledMatcher) (fuel : ℕ) (snapshot : Snapshot)
    (pattern : Bytes) (opts : SearchOptions) (scanCacheCapacity : ℕ) (budget : Budget) :
    Outcome Error SearchPage × Budget :=
  odb.exec (Search.searchWithCacheCapacity gix compile fuel odb.info budget.limits.maxObjectBytes snapshot
    pattern opts scanCacheCapacity) budget

namespace Search

variable {odb : StaticOdb} {scope : SearchScope} {state reference : State} {budget : Budget}

/-- The same searches close with the same page. -/
theorem Same.agree_closePage (h : Same odb scope state reference budget) (snapshot : Snapshot)
    (pattern : Bytes) (opts : SearchOptions) (stopped : Option String) :
    Program.Agree (fun x y _ ↦ SearchPage.withoutRereads x = SearchPage.withoutRereads y)
      (odb.exec (Program.ofExcept (closePage snapshot pattern opts state stopped)) budget)
      (odb.exec (Program.ofExcept (closePage snapshot pattern opts reference stopped)) budget) := by
  obtain ⟨hscanned, hdeduped, hbinary, hoversize, -⟩ := Tally.mk.inj h.tally
  rw [closePage, closePage, h.collected]
  cases stopped.mapM (fitCursor snapshot pattern opts.toSearchQuery opts.maxResultBytes
      (reference.collected.emitted.length + 1) reference.collected) with
  | error e => exact .error e budget
  | ok fitted =>
    refine .ok ?_
    simp [SearchPage.withoutRereads, hscanned, hdeduped, hbinary, hoversize]

variable (odb) (gix : Gix) (compile : Bytes → SearchQuery → Except Error CompiledMatcher) (fuel : ℕ) (snapshot : Snapshot) (pattern : Bytes) (opts : SearchOptions)

/-- A search with a cache does the same as one whose cache keeps nothing. -/
theorem agree_search (capacity : ℕ) (budget : Budget) :
    Program.Agree (fun x y _ ↦ SearchPage.withoutRereads x = SearchPage.withoutRereads y)
      (odb.search gix compile fuel snapshot pattern opts capacity budget)
      (odb.search gix compile fuel snapshot pattern opts 0 budget) := by
  refine Program.Agree.bind_same fun _ b₁ h₁ ↦ Program.Agree.bind_same fun _ b₂ h₂ ↦
    Program.Agree.bind_same fun _ b₃ h₃ ↦ Program.Agree.bind_same fun matcher b₄ h₄ ↦
    Program.Agree.bind_same fun resume b₅ h₅ ↦ Program.Agree.bind_same fun treeOid b₆ h₆ ↦
    Program.Agree.bind_same fun walk b₇ h₇ ↦ ?_
  have hlater : budget.Later b₇ := (StaticOdb.later_of_exec h₁).trans <| (StaticOdb.later_of_exec h₂).trans <|
    (StaticOdb.later_of_exec h₃).trans <| (StaticOdb.later_of_exec h₄).trans <|
    (StaticOdb.later_of_exec h₅).trans <| (StaticOdb.later_of_exec h₆).trans (StaticOdb.later_of_exec h₇)
  have hstart : Same odb ⟨snapshot, matcher, opts, budget.limits.maxObjectBytes⟩ ⟨.new capacity, {}, {}⟩
      ⟨.new 0, {}, {}⟩ b₇ :=
    ⟨congrArg BudgetLimits.maxObjectBytes hlater.limits, LruCache.holds_new capacity, LruCache.idle_new,
      rfl, rfl⟩
  refine (hstart.agree_loop fuel walk resume.isNone).bind ?_
  rintro ⟨state, stopped, foundResume⟩ ⟨reference, _⟩ b ⟨hsame, ⟨⟩⟩
  refine Program.Agree.bind_same fun _ b' hb' ↦ ?_
  exact (hsame.mono (StaticOdb.later_of_exec hb')).agree_closePage snapshot pattern opts stopped

/-- The scan cache is transparent: whatever its capacity, a search of an immutable store under a budget
ends with the same error, or with a page that differs only in its count of payload rereads, and leaves
the same budget. -/
theorem scan_cache_transparent (capacity capacity' : ℕ) (budget : Budget) :
    SearchPage.withoutRereads <$> (odb.search gix compile fuel snapshot pattern opts capacity budget).1 =
      SearchPage.withoutRereads <$> (odb.search gix compile fuel snapshot pattern opts capacity' budget).1 ∧
    (odb.search gix compile fuel snapshot pattern opts capacity budget).2 =
      (odb.search gix compile fuel snapshot pattern opts capacity' budget).2 := by
  obtain ⟨hpage, hbudget⟩ :=
    (agree_search odb gix compile fuel snapshot pattern opts capacity budget).map_eq fun _ _ _ h ↦ h
  obtain ⟨hpage', hbudget'⟩ :=
    (agree_search odb gix compile fuel snapshot pattern opts capacity' budget).map_eq fun _ _ _ h ↦ h
  exact ⟨hpage.trans hpage'.symm, hbudget.trans hbudget'.symm⟩

end Search
end Gitility
