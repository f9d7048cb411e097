import Gitility.Cache.LruRefinement
import Gitility.Provider.ProviderOdb

/-!
# A hostile provider shows nothing that was not verified

Whatever the provider sends, each cache holds only what a reply brought and what passed the checks
of `request_results`: objects that verify for their ID, headers of such objects or marked as
unverified, and misses that were reported. Reads answer from the caches and from checked replies.
-/

namespace Gitility.Provider

variable {hashers : Hashers} {trace trace' : List ReadEvent} {oid : Oid}

/-- A reply brought a value for an object ID. -/
def Sent (trace : List ReadEvent) (oid : Oid) (value : ProviderReplyValue) : Prop :=
  ∃ results, .replied (.ok (.results results)) ∈ trace ∧ (oid, value) ∈ results

/-- A reply brought an object that verifies for its ID. -/
def Trusted (hashers : Hashers) (trace : List ReadEvent) (oid : Oid) (object : Object) : Prop :=
  verify hashers oid object.1 object.2 = .ok () ∧ Sent trace oid (.object object.1 object.2)

/-- What the answer to a lookup rests on. -/
def Backed (hashers : Hashers) (trace : List ReadEvent) (oid : Oid) : Option Object → Prop
  | some object => Trusted hashers trace oid object
  | none => Sent trace oid .notFound

/-- What a header rests on. -/
def HeaderBacked (hashers : Hashers) (trace : List ReadEvent) (oid : Oid) (read : HeaderRead) : Prop :=
  match read.provenance with
  | .verified => ∃ data, Trusted hashers trace oid (read.header.kind, data) ∧
      read.header.size = data.length
  | .unverifiedProvider => Sent trace oid (.header read.header)

private theorem Sent.mono {value : ProviderReplyValue} (h : Sent trace oid value) (hsub : trace ⊆ trace') :
    Sent trace' oid value := by
  obtain ⟨results, hmem, hvalue⟩ := h
  exact ⟨results, hsub hmem, hvalue⟩

private theorem Trusted.mono {object : Object} (h : Trusted hashers trace oid object)
    (hsub : trace ⊆ trace') : Trusted hashers trace' oid object :=
  ⟨h.1, h.2.mono hsub⟩

private theorem Backed.mono {value : Option Object} (h : Backed hashers trace oid value)
    (hsub : trace ⊆ trace') : Backed hashers trace' oid value := by
  cases value with
  | none => exact Sent.mono h hsub
  | some object => exact Trusted.mono h hsub

private theorem HeaderBacked.mono {read : HeaderRead} (h : HeaderBacked hashers trace oid read)
    (hsub : trace ⊆ trace') : HeaderBacked hashers trace' oid read := by
  unfold HeaderBacked at h ⊢
  split at h
  · obtain ⟨data, htrusted, hsize⟩ := h
    exact ⟨data, htrusted.mono hsub, hsize⟩
  · exact h.mono hsub

/-- What a read may answer. -/
def Answer.Sound (hashers : Hashers) (trace : List ReadEvent) : Answer → Prop
  | .header oid (.ok (some read)) => HeaderBacked hashers trace oid read
  | .header oid (.ok none) => Sent trace oid .notFound
  | .find oid (.ok value) => Backed hashers trace oid value
  | .findMany oids (.ok values) =>
    ∃ f, values = oids.map f ∧ ∀ oid ∈ oids, Backed hashers trace oid (f oid)
  | .header _ (.error _) | .find _ (.error _) | .findMany _ (.error _) => True

private theorem Answer.Sound.mono {answer : Answer} (h : answer.Sound hashers trace)
    (hsub : trace ⊆ trace') : answer.Sound hashers trace' := by
  cases answer with
  | header oid result =>
    cases result with
    | error error => trivial
    | ok read =>
      cases read with
      | none => exact Sent.mono h hsub
      | some read => exact HeaderBacked.mono h hsub
  | find oid result =>
    cases result with
    | error error => trivial
    | ok value => exact Backed.mono h hsub
  | findMany oids result =>
    cases result with
    | error error => trivial
    | ok values =>
      obtain ⟨f, hvalues, hbacked⟩ := h
      exact ⟨f, hvalues, fun oid hoid ↦ (hbacked oid hoid).mono hsub⟩

private theorem Answer.sound_fail (read : Read) (error : Error) :
    (read.fail error).Sound hashers trace := by
  cases read <;> trivial

private theorem Answer.sound_charged {read : Option HeaderRead} (charge : Option Error)
    (hread : (Answer.header oid (.ok read)).Sound hashers trace) :
    (Answer.header oid (charged charge read)).Sound hashers trace := by
  cases charge with
  | none => exact hread
  | some error => trivial

/-! ### Replies that pass the checks -/

private theorem decodeResults_ok {kind : ProviderKind} {expected : List Oid} {limits : Limits}
    {readBudget : ReadManyBudget} {decoded decoded' : Decoded} {n n' : ℕ}
    {results : List (Oid × ProviderReplyValue)}
    (h : decodeResults kind expected limits readBudget decoded n results = .ok (decoded', n')) :
    (∀ oid value, decoded'.lookup oid = some value →
      decoded.lookup oid = some value ∨ (oid, value) ∈ results ∧ shapeMatches kind value = true) ∧
    ∀ oid ∈ decoded', oid ∈ decoded ∨ oid ∈ expected := by
  induction results generalizing decoded n with
  | nil =>
    cases h
    exact ⟨fun _ _ ↦ .inl, fun _ ↦ .inl⟩
  | cons result results ih =>
    obtain ⟨oid, value⟩ := result
    simp only [decodeResults, Except.bind_eq_ok, ensure_eq_ok] at h
    obtain ⟨-, ⟨hexpected, -⟩, -, hshape, m, -, h⟩ := h
    obtain ⟨hlookup, hmem⟩ := ih h
    constructor
    · intro oid' value' hvalue
      rcases hlookup oid' value' hvalue with hold | ⟨hold, hshape'⟩
      · by_cases hoid : oid' = oid
        · subst hoid
          rw [AList.lookup_insert] at hold
          obtain rfl := Option.some.inj hold
          exact .inr ⟨List.mem_cons_self, hshape⟩
        · rw [AList.lookup_insert_ne hoid] at hold
          exact .inl hold
      · exact .inr ⟨List.mem_cons_of_mem _ hold, hshape'⟩
    · intro oid' hoid'
      rcases hmem oid' hoid' with hold | hold
      · rcases (AList.mem_insert decoded).mp hold with rfl | hold
        · exact .inr hexpected
        · exact .inl hold
      · exact .inr hold

private theorem verifyAll_ok {entries : List (Sigma fun _ : Oid ↦ ProviderReplyValue)}
    (h : verifyAll hashers entries = .ok ()) {kind : ObjectKind} {data : Bytes}
    (hmem : ⟨oid, .object kind data⟩ ∈ entries) : verify hashers oid kind data = .ok () := by
  induction entries with
  | nil => cases hmem
  | cons entry entries ih =>
    obtain ⟨oid', value⟩ := entry
    cases value with
    | notFound | header =>
      rcases List.mem_cons.mp hmem with heq | hmem
      · cases heq
      · exact ih h hmem
    | object kind' data' =>
      simp only [verifyAll, Except.bind_eq_ok] at h
      obtain ⟨⟨⟩, hverify, h⟩ := h
      rcases List.mem_cons.mp hmem with heq | hmem
      · cases heq
        exact hverify
      · exact ih h hmem

/-- What a reply that passes the checks brings. -/
structure Checked (hashers : Hashers) (kind : ProviderKind) (expected : List Oid)
    (payload : Message ProviderPayload) (decoded : Decoded) : Prop where
  complete : ∀ oid ∈ expected, ∃ value, decoded.lookup oid = some value
  shape : ∀ oid value, decoded.lookup oid = some value → shapeMatches kind value = true
  verified : ∀ oid kind data, decoded.lookup oid = some (.object kind data) →
    verify hashers oid kind data = .ok ()
  sent : ∀ oid value, decoded.lookup oid = some value → Sent [.replied payload] oid value

private theorem requestResults_ok {kind : ProviderKind} {expected : List Oid} {limits : Limits}
    {readBudget : ReadManyBudget} {charge : Option Error} {payload : Message ProviderPayload}
    {decoded : Decoded}
    (h : requestResults hashers kind expected limits readBudget charge payload = .ok decoded) :
    Checked hashers kind expected payload decoded := by
  simp only [requestResults, Except.bind_eq_ok] at h
  obtain ⟨payload, rfl, h⟩ := h
  cases payload with
  | backendError => cases h
  | results results =>
    simp only [Except.bind_eq_ok, ensure_eq_ok] at h
    obtain ⟨⟨decoded, n⟩, hdecode, -, hlength, -, -, ⟨⟩, hverify, heq⟩ := h
    cases heq
    obtain ⟨hlookup, hmem⟩ := decodeResults_ok hdecode
    have hfrom (oid : Oid) (value : ProviderReplyValue) (hvalue : decoded.lookup oid = some value) :
        (oid, value) ∈ results ∧ shapeMatches kind value = true := by
      rcases hlookup oid value hvalue with hold | hnew
      · cases hold
      · exact hnew
    refine ⟨fun oid hoid ↦ ?_, fun oid value hvalue ↦ (hfrom oid value hvalue).2,
      fun oid kind data hvalue ↦ ?_, fun oid value hvalue ↦ ?_⟩
    · -- The keys are among the expected IDs and there are as many of them.
      have hsub : decoded.keys ⊆ expected.dedup := by
        intro key hkey
        rw [List.mem_dedup]
        rcases hmem key hkey with hold | hnew
        · exact absurd hold (AList.notMem_empty key)
        · exact hnew
      have hperm := (List.subperm_of_subset decoded.keys_nodup hsub).perm_of_length_le
        (by rw [← hlength]; exact (List.length_map _).ge)
      have hkey : oid ∈ decoded := hperm.mem_iff.mpr (List.mem_dedup.mpr hoid)
      exact Option.isSome_iff_exists.mp (AList.lookup_isSome.mpr hkey)
    · exact verifyAll_ok hverify (AList.mem_lookup_iff.mp hvalue)
    · exact ⟨results, List.mem_singleton_self _, (hfrom oid value hvalue).1⟩

/-! ### The caches -/

/-- What the three caches may hold. -/
structure CachesSound (hashers : Hashers) (trace : List ReadEvent) (caches : ProviderCaches) : Prop where
  objects : caches.objects.Holds (Trusted hashers trace)
  headers : caches.headers.Holds (HeaderBacked hashers trace)
  negative : caches.negative.values.Holds fun oid _ ↦ Sent trace oid .notFound

namespace CachesSound

variable {caches : ProviderCaches}

private theorem mono (h : CachesSound hashers trace caches) (hsub : trace ⊆ trace') :
    CachesSound hashers trace' caches where
  objects := h.objects.mono fun _ _ hobject ↦ hobject.mono hsub
  headers := h.headers.mono fun _ _ hread ↦ hread.mono hsub
  negative := h.negative.mono fun _ _ hsent ↦ hsent.mono hsub

private theorem new (options : ProviderCacheOptions) : CachesSound hashers trace (.new options) where
  objects := LruCache.holds_new _
  headers := LruCache.holds_new _
  negative := LruCache.holds_new _

/-- A look at the negative cache returns and believes only what was reported. -/
theorem containsFresh (h : CachesSound hashers trace caches) (now : ℕ) (oid : Oid) :
    ∃ fresh negative, caches.negative.containsFresh now oid = some (fresh, negative) ∧
      CachesSound hashers trace { caches with negative } ∧
      (fresh = true → Sent trace oid .notFound) := by
  unfold NegativeCache.containsFresh
  by_cases httl : caches.negative.ttl = 0
  · rw [if_pos httl]
    exact ⟨false, _, rfl, h, nofun⟩
  · rw [if_neg httl]
    obtain ⟨inserted, values, hget, hvalues, hsent⟩ := h.negative.get oid
    obtain ⟨removed, values', hremove, hvalues'⟩ := hvalues.remove oid
    rw [hget]
    simp only [Option.bind_eq_bind, Option.bind_some, hremove]
    split
    · next hfresh =>
      refine ⟨true, _, rfl, ⟨h.objects, h.headers, hvalues⟩, fun _ ↦ ?_⟩
      cases inserted with
      | none => cases hfresh
      | some instant => exact hsent instant rfl
    · exact ⟨false, _, rfl, ⟨h.objects, h.headers, hvalues'⟩, nofun⟩

private theorem insertNegative (h : CachesSound hashers trace caches) (now : ℕ)
    (hsent : Sent trace oid .notFound) :
    ∃ negative, caches.negative.insert now oid = some negative ∧
      CachesSound hashers trace { caches with negative } := by
  unfold NegativeCache.insert
  by_cases httl : caches.negative.ttl = 0
  · rw [if_pos httl]
    exact ⟨_, rfl, h⟩
  · rw [if_neg httl]
    obtain ⟨values, hinsert, hvalues⟩ := h.negative.insert (V := ℕ) (P := fun oid _ ↦ Sent trace oid .notFound) hsent 1
    rw [hinsert]
    exact ⟨_, rfl, h.objects, h.headers, hvalues⟩

/-- A verified object enters two caches. -/
theorem insertObject (h : CachesSound hashers trace caches) {kind : ObjectKind} {data : Bytes}
    (htrusted : Trusted hashers trace oid (kind, data)) :
    ∃ objects headers, caches.objects.insert oid (kind, data) data.length = some objects ∧
      caches.headers.insert oid ⟨⟨kind, data.length⟩, .verified⟩ 1 = some headers ∧
      CachesSound hashers trace { caches with objects, headers } := by
  obtain ⟨objects, hobjects, hobjects'⟩ := h.objects.insert htrusted data.length
  obtain ⟨headers, hheaders, hheaders'⟩ := h.headers.insert
    (show HeaderBacked hashers trace oid ⟨⟨kind, data.length⟩, .verified⟩ from ⟨data, htrusted, rfl⟩) 1
  exact ⟨objects, headers, hobjects, hheaders, hobjects', hheaders', h.negative⟩

/-- The first part of a header read. -/
theorem headerLookup (h : CachesSound hashers trace caches) (now : ℕ) (charge : Option Error)
    (oid : Oid) :
    ∃ caches' result, caches.headerLookup now charge oid = some (caches', result) ∧
      CachesSound hashers trace caches' ∧
      (∀ answer, result = .inl answer → (Answer.header oid answer).Sound hashers trace) ∧
      ∀ waiting, result = .inr waiting → waiting = .header oid := by
  obtain ⟨header, headers, hget, hheaders, hbacked⟩ := h.headers.get oid
  obtain ⟨object, objects, hget', hobjects, htrusted⟩ := h.objects.get oid
  unfold ProviderCaches.headerLookup
  rw [hget]
  simp only [Option.bind_eq_bind, Option.bind_some]
  cases header with
  | some header =>
    refine ⟨_, _, rfl, ⟨h.objects, hheaders, h.negative⟩, ?_, nofun⟩
    rintro answer ⟨⟩
    exact Answer.sound_charged charge (hbacked header rfl)
  | none =>
    simp only [hget', Option.bind_some]
    cases object with
    | some object =>
      refine ⟨_, _, rfl, ⟨hobjects, hheaders, h.negative⟩, ?_, nofun⟩
      rintro answer ⟨⟩
      exact Answer.sound_charged charge ⟨object.2, htrusted object rfl, rfl⟩
    | none =>
      have h' : CachesSound hashers trace { caches with headers, objects } :=
        ⟨hobjects, hheaders, h.negative⟩
      obtain ⟨fresh, negative, hfresh, h'', hsent⟩ := h'.containsFresh now oid
      simp only at hfresh
      simp only [hfresh, Option.bind_some]
      cases fresh with
      | true =>
        refine ⟨_, _, rfl, h'', ?_, nofun⟩
        rintro answer ⟨⟩
        exact Answer.sound_charged charge (hsent rfl)
      | false =>
        refine ⟨_, _, rfl, h'', ?_, ?_⟩
        · rintro answer ⟨⟩
        · rintro waiting ⟨⟩
          rfl

/-- The second part of a header read. -/
theorem headerStore (h : CachesSound hashers trace caches) (now : ℕ) (charge : Option Error)
    {payload : Message ProviderPayload} {results : Decoded}
    (hchecked : Checked hashers .header [oid] payload results) (hreply : .replied payload ∈ trace) :
    ∃ caches' result, caches.headerStore now charge oid results = some (caches', result) ∧
      CachesSound hashers trace caches' ∧ (Answer.header oid result).Sound hashers trace := by
  have hsub : [.replied payload] ⊆ trace := List.cons_subset.mpr ⟨hreply, List.nil_subset _⟩
  obtain ⟨value, hvalue⟩ := hchecked.complete oid (List.mem_singleton_self oid)
  have hsent := (hchecked.sent oid value hvalue).mono hsub
  unfold ProviderCaches.headerStore
  rw [hvalue]
  simp only [Option.bind_eq_bind, Option.bind_some]
  cases value with
  | notFound =>
    obtain ⟨negative, hinsert, h'⟩ := h.insertNegative now hsent
    simp only [hinsert, Option.bind_some]
    exact ⟨_, _, rfl, h', Answer.sound_charged charge hsent⟩
  | header header =>
    have hbacked : HeaderBacked hashers trace oid ⟨header, .unverifiedProvider⟩ := hsent
    obtain ⟨headers, hinsert, hheaders⟩ := h.headers.insert hbacked 1
    simp only [hinsert, Option.bind_some]
    exact ⟨_, _, rfl, ⟨h.objects, hheaders, h.negative⟩, Answer.sound_charged charge hbacked⟩
  | object kind data =>
    have htrusted : Trusted hashers trace oid (kind, data) :=
      ⟨hchecked.verified oid kind data hvalue, hsent⟩
    obtain ⟨objects, headers, hobjects, hheaders, h'⟩ := h.insertObject htrusted
    simp only [hobjects, hheaders, Option.bind_some]
    exact ⟨_, _, rfl, h', Answer.sound_charged charge ⟨data, htrusted, rfl⟩⟩

end CachesSound

/-! ### Batches -/

/-- What a batch has found so far. -/
def FoundSound (hashers : Hashers) (trace : List ReadEvent) (found : Found) : Prop :=
  ∀ oid value, found.lookup oid = some value → Backed hashers trace oid value

namespace FoundSound

variable {found : Found}

private theorem empty : FoundSound hashers trace ∅ := by
  intro oid value h
  cases h

private theorem mono (h : FoundSound hashers trace found) (hsub : trace ⊆ trace') :
    FoundSound hashers trace' found :=
  fun oid value hvalue ↦ (h oid value hvalue).mono hsub

private theorem insert (h : FoundSound hashers trace found) {value : Option Object}
    (hvalue : Backed hashers trace oid value) :
    FoundSound hashers trace (found.insert oid value) := by
  intro oid' value' hlookup
  by_cases hoid : oid' = oid
  · subst hoid
    rw [AList.lookup_insert] at hlookup
    obtain rfl := Option.some.inj hlookup
    exact hvalue
  · rw [AList.lookup_insert_ne hoid] at hlookup
    exact h oid' value' hlookup

end FoundSound

/-- The loop over the caches returns, and each ID of the batch is found or missed. -/
theorem CachesSound.residents {caches : ProviderCaches} {found : Found} {misses oids : List Oid}
    {residentBytes : ℕ} (h : CachesSound hashers trace caches)
    (hfound : FoundSound hashers trace found) (now : ℕ) (readBudget : ReadManyBudget) :
    ∃ caches' result,
      ProviderCaches.residents now readBudget caches found misses residentBytes oids =
        some (caches', result) ∧
      CachesSound hashers trace caches' ∧
      ∀ found' misses' n, result = .ok (found', misses', n) →
        FoundSound hashers trace found' ∧
        ∀ oid, oid ∈ found ∨ oid ∈ misses ∨ oid ∈ oids → oid ∈ found' ∨ oid ∈ misses' := by
  induction oids generalizing caches found misses residentBytes with
  | nil =>
    refine ⟨caches, _, rfl, h, ?_⟩
    rintro found' misses' n ⟨⟩
    refine ⟨hfound, fun oid hoid ↦ ?_⟩
    simpa using hoid
  | cons oid oids ih =>
    rw [ProviderCaches.residents]
    split
    · next hmem =>
      obtain ⟨caches', result, hrun, h', hresult⟩ := ih h hfound
      refine ⟨caches', result, hrun, h', fun found' misses' n hr ↦ ?_⟩
      obtain ⟨hfound', hcover⟩ := hresult found' misses' n hr
      refine ⟨hfound', fun oid' hoid' ↦ hcover oid' ?_⟩
      rcases hoid' with hold | hold | hold
      · exact .inl hold
      · exact .inr (.inl hold)
      · rcases List.mem_cons.mp hold with rfl | hold
        · exact .inl hmem
        · exact .inr (.inr hold)
    · obtain ⟨object, objects, hget, hobjects, htrusted⟩ := h.objects.get oid
      rw [hget]
      simp only [Option.bind_eq_bind, Option.bind_some]
      -- Both ways of finding an answer put the ID into `found`.
      have hput {caches₁ : ProviderCaches} {value : Option Object} {bytes : ℕ}
          (h₁ : CachesSound hashers trace caches₁) (hvalue : Backed hashers trace oid value) :
          ∃ caches' result, ProviderCaches.residents now readBudget caches₁
              (found.insert oid value) misses bytes oids = some (caches', result) ∧
            CachesSound hashers trace caches' ∧
            ∀ found' misses' n, result = .ok (found', misses', n) →
              FoundSound hashers trace found' ∧
              ∀ oid', oid' ∈ found ∨ oid' ∈ misses ∨ oid' ∈ oid :: oids →
                oid' ∈ found' ∨ oid' ∈ misses' := by
        obtain ⟨caches', result, hrun, h', hresult⟩ := ih h₁ (hfound.insert hvalue)
        refine ⟨caches', result, hrun, h', fun found' misses' n hr ↦ ?_⟩
        obtain ⟨hfound', hcover⟩ := hresult found' misses' n hr
        refine ⟨hfound', fun oid' hoid' ↦ hcover oid' ?_⟩
        rw [AList.mem_insert]
        rw [List.mem_cons] at hoid'
        tauto
      cases object with
      | some object =>
        obtain ⟨kind, data⟩ := object
        have hvalue : Backed hashers trace oid (some (kind, data)) := htrusted _ rfl
        dsimp only
        split
        · next error _ =>
          refine ⟨_, .error error, rfl, ⟨hobjects, h.headers, h.negative⟩, ?_⟩
          rintro found' misses' n ⟨⟩
        · exact hput ⟨hobjects, h.headers, h.negative⟩ hvalue
      | none =>
        have h₁ : CachesSound hashers trace { caches with objects } :=
          ⟨hobjects, h.headers, h.negative⟩
        obtain ⟨fresh, negative, hfresh, h₂, hsent⟩ := h₁.containsFresh now oid
        simp only at hfresh
        simp only [hfresh, Option.bind_some]
        cases fresh with
        | true =>
          rw [if_pos rfl]
          exact hput h₂ (hsent rfl)
        | false =>
          rw [if_neg Bool.false_ne_true]
          obtain ⟨caches', result, hrun, h', hresult⟩ := ih h₂ hfound
          refine ⟨caches', result, hrun, h', fun found' misses' n hr ↦ ?_⟩
          obtain ⟨hfound', hcover⟩ := hresult found' misses' n hr
          refine ⟨hfound', fun oid' hoid' ↦ hcover oid' ?_⟩
          rw [List.mem_append, List.mem_singleton]
          rw [List.mem_cons] at hoid'
          tauto

/-- The loop over the misses returns, and every ID is then found. -/
theorem CachesSound.manyStore {caches : ProviderCaches} {found : Found} {expected misses : List Oid}
    {payload : Message ProviderPayload} {results : Decoded} (h : CachesSound hashers trace caches)
    (hfound : FoundSound hashers trace found) (now : ℕ)
    (hchecked : Checked hashers .object expected payload results) (hmisses : misses ⊆ expected)
    (hreply : .replied payload ∈ trace) :
    ∃ caches' found', ProviderCaches.manyStore now results caches found misses =
        some (caches', found') ∧
      CachesSound hashers trace caches' ∧ FoundSound hashers trace found' ∧
      ∀ oid, oid ∈ found ∨ oid ∈ misses → oid ∈ found' := by
  induction misses generalizing caches found with
  | nil => exact ⟨caches, found, rfl, h, hfound, fun oid hoid ↦ by simpa using hoid⟩
  | cons oid misses ih =>
    have hsub : [.replied payload] ⊆ trace := List.cons_subset.mpr ⟨hreply, List.nil_subset _⟩
    obtain ⟨hoid, hmisses⟩ := List.cons_subset.mp hmisses
    obtain ⟨value, hvalue⟩ := hchecked.complete oid hoid
    have hsent := (hchecked.sent oid value hvalue).mono hsub
    have hput {caches₁ : ProviderCaches} {value : Option Object}
        (h₁ : CachesSound hashers trace caches₁) (hbacked : Backed hashers trace oid value) :
        ∃ caches' found', ProviderCaches.manyStore now results caches₁ (found.insert oid value)
            misses = some (caches', found') ∧
          CachesSound hashers trace caches' ∧ FoundSound hashers trace found' ∧
          ∀ oid', oid' ∈ found ∨ oid' ∈ oid :: misses → oid' ∈ found' := by
      obtain ⟨caches', found', hrun, h', hfound', hcover⟩ := ih h₁ (hfound.insert hbacked) hmisses
      refine ⟨caches', found', hrun, h', hfound', fun oid' hoid' ↦ hcover oid' ?_⟩
      rw [AList.mem_insert]
      rw [List.mem_cons] at hoid'
      tauto
    rw [ProviderCaches.manyStore, hvalue]
    simp only [Option.bind_eq_bind, Option.bind_some]
    cases value with
    | notFound =>
      obtain ⟨negative, hinsert, h₁⟩ := h.insertNegative now hsent
      simp only [hinsert, Option.bind_some]
      exact hput h₁ hsent
    | object kind data =>
      have htrusted : Trusted hashers trace oid (kind, data) :=
        ⟨hchecked.verified oid kind data hvalue, hsent⟩
      obtain ⟨objects, headers, hobjects, hheaders, h₁⟩ := h.insertObject htrusted
      simp only [hobjects, hheaders, Option.bind_some]
      exact hput h₁ htrusted
    | header header =>
      have hshape := hchecked.shape oid _ hvalue
      cases hshape

/-- The output loop answers each position with what was found for its ID. -/
theorem output_of_found {found : Found} {oids : List Oid} (charges : ℕ → Option Error) (i : ℕ)
    (hcover : ∀ oid ∈ oids, oid ∈ found) :
    ∃ result, output found charges i oids = some result ∧
      ∀ values, result = .ok values → values = oids.map fun oid ↦ (found.lookup oid).join := by
  induction oids generalizing i with
  | nil =>
    refine ⟨_, rfl, ?_⟩
    rintro values ⟨⟩
    rfl
  | cons oid oids ih =>
    obtain ⟨hoid, hcover⟩ := List.forall_mem_cons.mp hcover
    obtain ⟨value, hvalue⟩ := Option.isSome_iff_exists.mp (AList.lookup_isSome.mpr hoid)
    obtain ⟨rest, hrest, hvalues⟩ := ih (i + 1) hcover
    rw [output, hvalue]
    simp only [Option.bind_eq_bind, Option.bind_some]
    split
    · next error _ =>
      refine ⟨.error error, rfl, ?_⟩
      rintro values ⟨⟩
    · rw [hrest]
      refine ⟨_, rfl, fun values hr ↦ ?_⟩
      cases rest with
      | error error => cases hr
      | ok rest =>
        cases hr
        rw [List.map_cons, ← hvalues rest rfl, hvalue]
        rfl

/-- A finished batch answers a read with what was found. -/
theorem Read.ofMany_sound {read : Read} {found : Found} (hread : ∀ oid, read ≠ .header oid)
    (hfound : FoundSound hashers trace found) (hcover : ∀ oid ∈ read.oids, oid ∈ found)
    (charges : ℕ → Option Error) :
    ∃ result answer, output found charges 0 read.oids = some result ∧
      read.ofMany result = some answer ∧ answer.Sound hashers trace := by
  obtain ⟨result, hresult, hvalues⟩ := output_of_found charges 0 hcover
  have hbacked (oid : Oid) (hoid : oid ∈ read.oids) :
      Backed hashers trace oid (found.lookup oid).join := by
    obtain ⟨value, hvalue⟩ := Option.isSome_iff_exists.mp (AList.lookup_isSome.mpr (hcover oid hoid))
    rw [hvalue]
    exact hfound oid value hvalue
  refine ⟨result, ?_⟩
  cases read with
  | header oid => exact absurd rfl (hread oid)
  | find oid =>
    cases result with
    | error error => exact ⟨_, hresult, rfl, trivial⟩
    | ok values =>
      have hsingle := hvalues values rfl
      subst hsingle
      exact ⟨_, hresult, rfl, hbacked oid (List.mem_singleton_self oid)⟩
  | findMany oids readBudget =>
    refine ⟨_, hresult, rfl, ?_⟩
    cases result with
    | error error => trivial
    | ok values => exact ⟨_, hvalues values rfl, hbacked⟩

/-! ### Runs -/

/-- What a read that waits has to go on with. -/
def WaitingSound (hashers : Hashers) (trace : List ReadEvent) (read : Read) : Waiting → Prop
  | .header oid => read = .header oid
  | .many oids found misses _ => (∀ oid, read ≠ .header oid) ∧ oids = read.oids ∧
      FoundSound hashers trace found ∧ ∀ oid ∈ oids, oid ∈ found ∨ oid ∈ misses

private theorem WaitingSound.mono {read : Read} {waiting : Waiting}
    (h : WaitingSound hashers trace read waiting) (hsub : trace ⊆ trace') :
    WaitingSound hashers trace' read waiting := by
  cases waiting with
  | header oid => exact h
  | many oids found misses remaining =>
    obtain ⟨hread, hoids, hfound, hcover⟩ := h
    exact ⟨hread, hoids, hfound.mono hsub, hcover⟩

namespace ProviderOdb

variable {s s' : ProviderOdb}

/-- The first part of a batch returns. -/
theorem manyLookup_sound (h : CachesSound hashers trace s.caches) {read : Read}
    (hread : ∀ oid, read ≠ .header oid) (charges : Charges) (now : ℕ) :
    ∃ caches result, s.manyLookup read charges now = some (caches, result) ∧
      CachesSound hashers trace caches ∧
      (∀ answer, result = .inl answer → answer.Sound hashers trace) ∧
      ∀ waiting, result = .inr waiting → WaitingSound hashers trace read waiting := by
  obtain ⟨caches, result, hrun, h', hresult⟩ : ∃ caches result,
      s.caches.residents now read.budget ∅ [] 0 read.oids = some (caches, result) ∧ _ :=
    h.residents FoundSound.empty now read.budget
  unfold manyLookup
  rw [hrun]
  simp only [Option.bind_eq_bind, Option.bind_some]
  cases result with
  | error error =>
    refine ⟨_, _, rfl, h', ?_, ?_⟩
    · rintro answer ⟨⟩
      exact Answer.sound_fail read error
    · rintro waiting ⟨⟩
  | ok result =>
    obtain ⟨found, misses, residentBytes⟩ := result
    obtain ⟨hfound, hcover⟩ := hresult found misses residentBytes rfl
    have hcover (oid : Oid) (hoid : oid ∈ read.oids) : oid ∈ found ∨ oid ∈ misses :=
      hcover oid (.inr (.inr hoid))
    dsimp only
    split
    · next hempty =>
      have hall (oid : Oid) (hoid : oid ∈ read.oids) : oid ∈ found := by
        simpa [List.isEmpty_iff.mp hempty] using hcover oid hoid
      obtain ⟨result, answer, hout, hanswer, hsound⟩ :=
        Read.ofMany_sound hread hfound hall charges.read
      simp only [hout, hanswer, Option.bind_some]
      refine ⟨_, _, rfl, h', ?_, ?_⟩
      · rintro answer ⟨⟩
        exact hsound
      · rintro waiting ⟨⟩
    · refine ⟨_, _, rfl, h', ?_, ?_⟩
      · rintro answer ⟨⟩
      · rintro waiting ⟨⟩
        exact ⟨hread, rfl, hfound, hcover⟩

/-- The first part of a read returns. -/
theorem start_sound (h : CachesSound hashers trace s.caches) (read : Read) (charges : Charges)
    (now : ℕ) :
    ∃ caches result, s.start read charges now = some (caches, result) ∧
      CachesSound hashers trace caches ∧
      (∀ answer, result = .inl answer → answer.Sound hashers trace) ∧
      ∀ waiting, result = .inr waiting → WaitingSound hashers trace read waiting := by
  unfold start
  split
  · next error _ =>
    refine ⟨_, _, rfl, h, ?_, ?_⟩
    · rintro answer ⟨⟩
      exact Answer.sound_fail read error
    · rintro waiting ⟨⟩
  · cases read with
    | header oid =>
      obtain ⟨caches, result, hrun, h', hanswer, hwaiting⟩ :=
        h.headerLookup now (charges.read 0) oid
      simp only [hrun, Option.bind_eq_bind, Option.bind_some]
      refine ⟨_, _, rfl, h', ?_, ?_⟩
      · intro answer hr
        cases result with
        | inl result =>
          cases hr
          exact hanswer result rfl
        | inr waiting => cases hr
      · intro waiting hr
        cases result with
        | inl result => cases hr
        | inr waiting' =>
          cases hr
          rw [id, hwaiting waiting' rfl]
          rfl
    | find oid => exact manyLookup_sound h (fun _ h ↦ by cases h) charges now
    | findMany oids readBudget => exact manyLookup_sound h (fun _ h ↦ by cases h) charges now

/-- The second part of a read returns. -/
theorem finish_sound (h : CachesSound hashers trace s.caches) {read : Read} {waiting : Waiting}
    (hwaiting : WaitingSound hashers trace read waiting) (limits : Limits) (charges : Charges)
    (now : ℕ) {payload : Message ProviderPayload} (hreply : .replied payload ∈ trace) :
    ∃ caches answer, s.finish hashers read limits charges now payload waiting =
        some (caches, answer) ∧
      CachesSound hashers trace caches ∧ answer.Sound hashers trace := by
  unfold finish
  split
  · next error _ => exact ⟨_, _, rfl, h, Answer.sound_fail read error⟩
  · next results hresults =>
    cases waiting with
    | header oid =>
      obtain ⟨caches, result, hrun, h', hsound⟩ :=
        h.headerStore now (charges.read 0) (requestResults_ok hresults) hreply
      simp only [hrun, Option.bind_eq_bind, Option.bind_some]
      exact ⟨_, _, rfl, h', hsound⟩
    | many oids found misses remaining =>
      obtain ⟨hread, rfl, hfound, hcover⟩ := hwaiting
      obtain ⟨caches, found', hrun, h', hfound', hcover'⟩ := h.manyStore hfound now
        (requestResults_ok hresults) (List.Subset.refl misses) hreply
      obtain ⟨result, answer, hout, hanswer, hsound⟩ := Read.ofMany_sound hread hfound'
        (fun oid hoid ↦ hcover' oid (hcover oid hoid)) charges.read
      simp only [hrun, hout, hanswer, Option.bind_eq_bind, Option.bind_some]
      exact ⟨_, _, rfl, h', hsound⟩

/-- The invariant of all runs. -/
structure Inv (hashers : Hashers) (trace : List ReadEvent) (s : ProviderOdb) : Prop where
  caches : CachesSound hashers trace s.caches
  waiting : ∀ thread read limits waiting, s.waiting thread = some (read, limits, waiting) →
    WaitingSound hashers trace read waiting
  answers : ∀ answer, .answered answer ∈ trace → answer.Sound hashers trace

private theorem Inv.mono (h : Inv hashers trace s) {caches : ProviderCaches} {events : List ReadEvent}
    (hcaches : CachesSound hashers (trace ++ events) caches)
    (hevents : ∀ answer, .answered answer ∈ events → answer.Sound hashers (trace ++ events)) :
    Inv hashers (trace ++ events) { s with caches } where
  caches := hcaches
  waiting thread read limits waiting hw :=
    (h.waiting thread read limits waiting hw).mono (List.subset_append_left _ _)
  answers answer hmem := by
    rcases List.mem_append.mp hmem with hmem | hmem
    · exact (h.answers answer hmem).mono (List.subset_append_left _ _)
    · exact hevents answer hmem

/-- A thread waits for another reply or for none. -/
theorem Inv.update (h : Inv hashers trace s) (thread : ℕ) {entry : Option (Read × Limits × Waiting)}
    (hentry : ∀ read limits waiting, entry = some (read, limits, waiting) →
      WaitingSound hashers trace read waiting) :
    Inv hashers trace { s with waiting := Function.update s.waiting thread entry } where
  caches := h.caches
  waiting thread' read limits waiting hw := by
    by_cases heq : thread' = thread
    · subst heq
      simp only [Function.update_self] at hw
      exact hentry read limits waiting hw
    · simp only [Function.update_of_ne heq] at hw
      exact h.waiting thread' read limits waiting hw
  answers := h.answers

private theorem Inv.step (h : Inv hashers trace s) {move : ReadMove} {events : List ReadEvent}
    (hs : s.step hashers move = some (s', events)) : Inv hashers (trace ++ events) s' := by
  cases move with
  | read thread read limits charges now =>
    obtain ⟨caches, result, hstart, hcaches, hanswer, hwaiting⟩ :=
      start_sound (s := s) h.caches read charges now
    simp only [ProviderOdb.step, hstart, Option.bind_eq_bind, Option.bind_some] at hs
    split at hs
    · cases hs
    · cases result with
      | inl answer =>
        cases hs
        have hsub := List.subset_append_left trace [ReadEvent.answered answer]
        refine h.mono (hcaches.mono hsub) fun answer' hmem ↦ ?_
        obtain rfl : answer' = answer := by simpa using hmem
        exact (hanswer answer' rfl).mono hsub
      | inr waiting =>
        cases hs
        rw [List.append_nil]
        have hinv : Inv hashers trace { s with caches } := ⟨hcaches, h.waiting, h.answers⟩
        refine hinv.update thread fun read' limits' waiting' heq ↦ ?_
        cases heq
        exact hwaiting waiting rfl
  | reply thread payload charges now =>
    simp only [ProviderOdb.step, Option.bind_eq_bind, Option.bind_eq_some_iff] at hs
    obtain ⟨⟨read, limits, waiting⟩, hw, ⟨caches, answer⟩, hfinish, heq⟩ := hs
    cases heq
    have hsub := List.subset_append_left trace [ReadEvent.replied payload]
    obtain ⟨caches', answer', hfinish', hcaches, hsound⟩ :=
      finish_sound (s := s) (h.caches.mono hsub)
        ((h.waiting thread read limits waiting hw).mono hsub) limits charges now
        (List.mem_append_right trace (List.mem_singleton_self _))
    cases hfinish.symm.trans hfinish'
    have hsub' : trace ++ [ReadEvent.replied payload] ⊆
        trace ++ [ReadEvent.replied payload, ReadEvent.answered answer] := by
      intro event
      simp only [List.mem_append, List.mem_cons]
      tauto
    have hinv := h.mono (hcaches.mono hsub') fun answer' hmem ↦ by
      obtain rfl : answer' = answer := by simpa using hmem
      exact hsound.mono hsub'
    exact hinv.update thread nofun
  | refresh failure =>
    cases failure with
    | some error =>
      cases hs
      simpa using h
    | none =>
      cases hs
      rw [List.append_nil]
      exact ⟨⟨h.caches.objects, h.caches.headers, h.caches.negative.clear⟩, h.waiting, h.answers⟩
  | providerDown =>
    cases hs
    rw [List.append_nil]
    exact ⟨h.caches, h.waiting, h.answers⟩

private theorem Reachable.inv {hash : HashKind} {options : ProviderCacheOptions}
    (h : Reachable hashers hash options trace s) : Inv hashers trace s := by
  induction h with
  | new =>
    exact ⟨CachesSound.new options, nofun, fun answer hmem ↦ absurd hmem List.not_mem_nil⟩
  | step _ hs ih => exact ih.step hs

/-- Whatever replies come, every answer of every run rests on verified bytes, no read panics, and a
reply that fails a check changes no cache. -/
theorem hostile_provider {hash : HashKind} {options : ProviderCacheOptions}
    (h : Reachable hashers hash options trace s) :
    (∀ answer, .answered answer ∈ trace → answer.Sound hashers trace) ∧
    (∀ thread read limits charges now, s.waiting thread = none →
      ∃ s' events, s.step hashers (.read thread read limits charges now) = some (s', events)) ∧
    ∀ thread read limits waiting payload charges now,
      s.waiting thread = some (read, limits, waiting) →
        ∃ s' answer, s.step hashers (.reply thread payload charges now) =
            some (s', [.replied payload, .answered answer]) ∧
          ∀ error, waiting.results hashers limits charges.provider payload = .error error →
            s'.caches = s.caches ∧ answer = read.fail error := by
  have hinv := h.inv
  refine ⟨hinv.answers, fun thread read limits charges now hidle ↦ ?_, ?_⟩
  · obtain ⟨caches, result, hstart, -⟩ := start_sound (s := s) hinv.caches read charges now
    simp only [ProviderOdb.step, hidle, hstart, Option.bind_eq_bind, Option.bind_some]
    cases result <;> exact ⟨_, _, rfl⟩
  · intro thread read limits waiting payload charges now hw
    have hsub := List.subset_append_left trace [ReadEvent.replied payload]
    obtain ⟨caches, answer, hfinish, -, -⟩ := finish_sound (s := s) (hinv.caches.mono hsub)
      ((hinv.waiting thread read limits waiting hw).mono hsub) limits charges now
      (List.mem_append_right trace (List.mem_singleton_self _))
    refine ⟨{ s with caches, waiting := Function.update s.waiting thread none }, answer, ?_, ?_⟩
    · simp only [ProviderOdb.step, hw, hfinish, Option.bind_eq_bind, Option.bind_some]
      rfl
    · intro error herror
      rw [finish, herror] at hfinish
      cases hfinish
      exact ⟨rfl, rfl⟩

/-- The SHA-1 of the empty blob. -/
def emptyBlobDigest : Bytes :=
  [0xe6, 0x9d, 0xe2, 0x9b, 0xb2, 0xd1, 0xd6, 0x43, 0x4b, 0x8b,
    0x29, 0xae, 0x77, 0x5a, 0xd8, 0xc2, 0xe4, 0x8c, 0x53, 0x91]

/-- Hash functions that are right about the empty blob. -/
def emptyBlobHashers : Hashers := ⟨fun _ ↦ some emptyBlobDigest, fun bytes ↦ bytes⟩

/-- The ID of the empty blob. -/
def emptyBlobId : Oid := ⟨.sha1, emptyBlobDigest, rfl⟩

/-- A read of the empty blob that is answered with another object, then one that is answered. -/
def sampleMoves : List ReadMove :=
  let charges : Charges := ⟨none, fun _ ↦ none⟩
  [.read 0 (.find emptyBlobId) ⟨100, 100⟩ charges 0,
    .reply 0 (.ok (.results [(sampleId 1, .object .blob [])])) charges 0,
    .read 1 (.find emptyBlobId) ⟨100, 100⟩ charges 0,
    .reply 1 (.ok (.results [(emptyBlobId, .object .blob [])])) charges 0]

/-- What happens in it. -/
def sampleTrace : List ReadEvent :=
  [.replied (.ok (.results [(sampleId 1, .object .blob [])])),
    .answered (.find emptyBlobId (.error
      (protocolError "provider reply contains an unexpected or duplicate object ID"))),
    .replied (.ok (.results [(emptyBlobId, .object .blob [])])),
    .answered (.find emptyBlobId (.ok (some (.blob, []))))]

/-- The theorem at a provider that answers with wrong bytes before it answers with the blob. -/
theorem hostile_provider_sample : ∃ s,
    (ProviderOdb.new .sha1 ⟨1024, 8, 5⟩).run emptyBlobHashers sampleMoves = some (sampleTrace, s) ∧
    .answered (.find emptyBlobId (.ok (some (.blob, [])))) ∈ sampleTrace ∧
    Trusted emptyBlobHashers sampleTrace emptyBlobId (.blob, []) := by
  have hrun : (ProviderOdb.new .sha1 ⟨1024, 8, 5⟩).run emptyBlobHashers sampleMoves =
    some (sampleTrace, _) := rfl
  have hmem : .answered (.find emptyBlobId (.ok (some (.blob, [])))) ∈ sampleTrace := by
    simp [sampleTrace]
  exact ⟨_, hrun, hmem, (hostile_provider (Reachable.new.run hrun)).1 _ hmem⟩

end ProviderOdb

end Gitility.Provider
