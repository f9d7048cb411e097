import Gitility.Bundle.Sections

/-!
# The rows of a snapshot

Every reference row and every metadata entry of a publication stays within the limits of the reader,
apart from the symbolic target of a head that is not checked.
-/

namespace Gitility.Bundle

/-! ### The metadata -/

/-- Accepted metadata is the entries as given, each within its limits. -/
theorem metadata_eq_ok {timestamp : Bytes → Bool} {source : Bytes} {opts : WriteOptions}
    {entries : List (Bytes × Bytes)} (h : metadata timestamp source opts = .ok entries) :
    entries = metadataEntries source opts ∧ ∀ entry ∈ entries, validUtf8 entry.2 = true ∧
      1 ≤ entry.1.length ∧ entry.1.length ≤ 4096 ∧ entry.2.length ≤ 65536 := by
  simp only [metadata, Except.bind_eq_ok, ensure_eq_ok] at h
  obtain ⟨-, -, -, hall, heq⟩ := h
  cases heq
  exact ⟨rfl, hall⟩

/-- The keys that a publication can record. -/
def metadataKeys : List Bytes :=
  [Bytes.ascii "source_identity", Bytes.ascii "publisher", Bytes.ascii "created_at"]

private theorem metadataEntries_keys (source : Bytes) (opts : WriteOptions) :
    ((metadataEntries source opts).map Prod.fst).Sublist metadataKeys := by
  unfold metadataEntries metadataKeys
  cases opts.publisher <;> cases opts.createdAt <;> simp

/-- The metadata entries have different keys. -/
theorem nodup_metadataEntries (source : Bytes) (opts : WriteOptions) :
    ((metadataEntries source opts).map Prod.fst).Nodup := by
  apply (metadataEntries_keys source opts).nodup
  decide

private theorem validUtf8_metadataKeys {key : Bytes} (h : key ∈ headSymrefKey :: metadataKeys) :
    validUtf8 key = true ∧ key ≠ Bytes.ascii "shallow_roots" := by
  revert key
  decide

/-- Merging maps of different keys gives a map of different keys. -/
theorem nodup_merge {map other : List (Bytes × Bytes)} (h : (map.map Prod.fst).Nodup)
    (h' : (other.map Prod.fst).Nodup) : ((merge map other).map Prod.fst).Nodup := by
  unfold merge
  rw [List.map_append, List.nodup_append]
  refine ⟨(List.filter_sublist.map Prod.fst).nodup h, h', ?_⟩
  rintro key hkey _ hother rfl
  obtain ⟨entry, hentry, rfl⟩ := List.mem_map.mp hkey
  exact of_decide_eq_true (List.mem_filter.mp hentry).2 hother

/-- The metadata of the head. -/
def headMetadata (symref : Option Bytes) : List (Bytes × Bytes) :=
  (symref.map fun name ↦ (headSymrefKey, name)).toList

/-- The head metadata has different keys. -/
theorem nodup_headMetadata (symref : Option Bytes) : ((headMetadata symref).map Prod.fst).Nodup := by
  cases symref <;> simp [headMetadata]

/-- The head metadata shares no key with the other metadata. -/
theorem merge_headMetadata (source : Bytes) (opts : WriteOptions) (symref : Option Bytes) :
    merge (metadataEntries source opts) (headMetadata symref) =
      metadataEntries source opts ++ headMetadata symref := by
  unfold merge
  rw [List.filter_eq_self.mpr]
  intro entry hentry
  have hkey := (metadataEntries_keys source opts).subset (List.mem_map_of_mem hentry)
  have hfresh : headSymrefKey ∉ metadataKeys := by decide
  apply decide_eq_true
  intro hmem
  cases symref with
  | none => exact absurd hmem List.not_mem_nil
  | some name =>
    rw [List.mem_singleton.mp hmem] at hkey
    exact hfresh hkey

/-- Every row of the recorded metadata passes the reader when the head's symbolic target does. -/
theorem metadataRow_of_publish {timestamp : Bytes → Bool} {source : Bytes} {opts : WriteOptions}
    {entries : List (Bytes × Bytes)} (h : metadata timestamp source opts = .ok entries)
    {symref : Option Bytes} (hutf : ∀ name ∈ symref, validUtf8 name = true)
    (hshort : ∀ name ∈ symref, name.length ≤ 65536) :
    ∀ row ∈ merge entries (headMetadata symref), MetadataRow row ∧
      row.1 ≠ Bytes.ascii "shallow_roots" := by
  obtain ⟨rfl, hall⟩ := metadata_eq_ok h
  rw [merge_headMetadata]
  intro row hrow
  rcases List.mem_append.mp hrow with hrow | hrow
  · have hkey := (metadataEntries_keys source opts).subset (List.mem_map_of_mem hrow)
    obtain ⟨hvalid, hkey⟩ := validUtf8_metadataKeys (List.mem_cons_of_mem _ hkey)
    obtain ⟨hvalue, hmin, hmax, hlong⟩ := hall row hrow
    exact ⟨⟨⟨hmin, hmax, hvalid⟩, hlong, hvalue⟩, hkey⟩
  · cases symref with
    | none => exact absurd hrow List.not_mem_nil
    | some name =>
      obtain rfl := List.mem_singleton.mp hrow
      obtain ⟨hvalid, hkey⟩ := validUtf8_metadataKeys List.mem_cons_self
      have hlength : 1 ≤ headSymrefKey.length ∧ headSymrefKey.length ≤ 4096 := by decide
      exact ⟨⟨⟨hlength.1, hlength.2, hvalid⟩, hshort name rfl, hutf name rfl⟩, hkey⟩

/-! ### The references -/

section Refs

variable {repository : Repository}

private theorem length_of_objectKind {oid : Bytes} {kind : ObjectKind}
    (h : objectKind repository oid = .ok kind) : oid.length = repository.hash.digestLen := by
  simp only [objectKind, Except.bind_eq_ok] at h
  obtain ⟨id, hid, -⟩ := h
  unfold Oid.new at hid
  split at hid
  · next hlength => exact hlength
  · cases hid

private theorem objectKind_of_existingCommitPeel {peeled : Option Bytes} {commit : Bytes}
    (h : existingCommitPeel repository peeled = some commit) :
    peeled = some commit ∧ objectKind repository commit = .ok .commit := by
  obtain ⟨oid, hpeeled, hcommit⟩ := Option.bind_eq_some_iff.mp h
  split at hcommit
  · next hkind =>
    cases hcommit
    exact ⟨hpeeled, hkind⟩
  · cases hcommit

private theorem peelFailure_eq_ok {name : Bytes} {strict : Bool} {commit : Option Bytes}
    {warnings : List Warning} (h : peelFailure name strict = .ok (commit, warnings)) :
    strict = false ∧ commit = none := by
  unfold peelFailure at h
  split at h
  · cases h
  · next hstrict =>
    cases h
    exact ⟨by simpa using hstrict, rfl⟩

private theorem peelCommitWithPolicy_eq_ok {oid name : Bytes} {strict : Bool} {commit : Option Bytes}
    {warnings : List Warning}
    (h : peelCommitWithPolicy repository oid name strict = .ok (commit, warnings)) :
    (∃ peeled, commit = some peeled ∧ warnings = [] ∧ peelToCommit repository oid strict = .ok peeled ∧
      objectKind repository peeled = .ok .commit) ∨ strict = false ∧ commit = none := by
  unfold peelCommitWithPolicy at h
  split at h
  · next peeled hpeeled =>
    split at h
    · next hkind =>
      cases h
      exact .inl ⟨peeled, rfl, rfl, hpeeled, hkind⟩
    · exact .inr (peelFailure_eq_ok h)
  · exact .inr (peelFailure_eq_ok h)

/-- A peeled target is a commit of the source. -/
theorem objectKind_of_peeledCommit {oid name : Bytes} {peeled commit : Option Bytes}
    {kind : ObjectKind} {strict : Bool} {warnings : List Warning}
    (h : peeledCommit repository oid peeled kind name strict = .ok (commit, warnings)) :
    ∀ id ∈ commit, objectKind repository id = .ok .commit := by
  have hpolicy {strict : Bool}
      (h : peelCommitWithPolicy repository oid name strict = .ok (commit, warnings)) :
      ∀ id ∈ commit, objectKind repository id = .ok .commit := by
    rcases peelCommitWithPolicy_eq_ok h with ⟨id, rfl, -, -, hkind⟩ | ⟨-, rfl⟩
    · rintro _ ⟨⟩
      exact hkind
    · exact fun _ hmem ↦ by cases hmem
  unfold peeledCommit at h
  split at h
  · split at h
    · exact hpolicy h
    · split at h
      · next id hexisting =>
        cases h
        rintro _ ⟨⟩
        exact (objectKind_of_existingCommitPeel hexisting).2
      · exact hpolicy h
  · cases h
    intro id hid
    exact (objectKind_of_existingCommitPeel hid).2

private theorem doRefRow_eq_ok {name oid : Bytes} {peeled : Option Bytes} {strict : Bool} {row : RefEntry}
    {warnings : List Warning} (h : doRefRow repository name oid peeled strict = .ok row warnings) :
    ∃ kind commit, objectKind repository oid = .ok kind ∧
      peeledCommit repository oid peeled kind name strict = .ok (commit, warnings) ∧
      row = ⟨name, oid, kind, commit⟩ := by
  unfold doRefRow at h
  split at h
  · next kind hkind =>
    split at h
    · next commit warnings' hpeeled =>
      cases h
      exact ⟨kind, commit, hkind, hpeeled, rfl⟩
    · cases h
  · split at h
    · split at h <;> cases h
    · split at h <;> cases h

private theorem refRow_eq_ok {name oid : Bytes} {peeled : Option Bytes} {strict : Bool} {row : RefEntry}
    {warnings : List Warning} (h : refRow repository name oid peeled strict = .ok row warnings) :
    maybeValidateStrictRefName name strict = .ok () ∧
      doRefRow repository name oid peeled strict = .ok row warnings := by
  unfold refRow at h
  split at h
  · next hvalid => exact ⟨hvalid, h⟩
  · cases h

/-- The row of a name that resolved fits the format. -/
theorem refRow_fits {store : RefDb.Store} {name oid : Bytes} {peeled : Option Bytes} {strict : Bool}
    {row : RefEntry} {warnings : List Warning}
    (hresolve : RefDb.resolve store name = .ok (some (oid, peeled)))
    (h : refRow repository name oid peeled strict = .ok row warnings) :
    RefRow repository.hash row := by
  obtain ⟨kind, commit, hkind, hpeeled, rfl⟩ := doRefRow_eq_ok (refRow_eq_ok h).2
  refine ⟨RefDb.length_of_resolve hresolve, length_of_objectKind hkind, fun id hid ↦ ?_⟩
  exact length_of_objectKind (objectKind_of_peeledCommit hpeeled id hid)

private theorem snapshotListedRefs_fits {store : RefDb.Store} {strict : Bool} {names : List Bytes}
    {rows rows' : List RefEntry} {warnings warnings' : List Warning}
    (h : snapshotListedRefs repository store strict names rows warnings = .ok (rows', warnings'))
    (hrows : ∀ row ∈ rows, RefRow repository.hash row) :
    ∀ row ∈ rows', RefRow repository.hash row := by
  induction names generalizing rows warnings with
  | nil =>
    cases h
    exact hrows
  | cons name names ih =>
    unfold snapshotListedRefs at h
    split at h
    · cases h
    · split at h
      · next oid peeled hresolve =>
        split at h
        · next row rowWarnings hrow =>
          exact ih h (List.forall_mem_cons.mpr ⟨refRow_fits hresolve hrow, hrows⟩)
        · exact ih h hrows
        · cases h
      · split at h
        · cases h
        · exact ih h hrows
      · split at h
        · cases h
        · exact ih h hrows

/-! ### The head -/

private theorem validUtf8_of_headSymref {symref : Bytes} (h : headSymref repository = .ok (some symref)) :
    validUtf8 symref = true := by
  unfold headSymref at h
  split at h
  · cases h
  · dsimp only at h
    split at h
    · split at h
      · next hvalid =>
        cases h
        exact hvalid
      · cases h
    · cases h

/-- A snapshot that is not strict keeps every head whose object it can read. -/
theorem refRow_lenient {name oid : Bytes} {kind : ObjectKind} (peeled : Option Bytes)
    (h : objectKind repository oid = .ok kind) :
    ∃ row warnings, refRow repository name oid peeled false = .ok row warnings := by
  have hpolicy : ∃ result, peelCommitWithPolicy repository oid name false = .ok result := by
    unfold peelCommitWithPolicy
    split
    · split
      · exact ⟨_, rfl⟩
      · exact ⟨_, rfl⟩
    · exact ⟨_, rfl⟩
  have hpeeled : ∃ result, peeledCommit repository oid peeled kind name false = .ok result := by
    unfold peeledCommit
    split
    · rw [if_neg Bool.false_ne_true]
      split
      · exact ⟨_, rfl⟩
      · exact hpolicy
    · exact ⟨_, rfl⟩
  obtain ⟨⟨commit, warnings⟩, hpeeled⟩ := hpeeled
  refine ⟨⟨name, oid, kind, commit⟩, warnings, ?_⟩
  simp only [refRow, maybeValidateStrictRefName, doRefRow, h, hpeeled]
  rfl

variable (repository) in
/-- `HEAD` resolves to an object of the source. -/
def HeadReadable (store : RefDb.Store) : Prop :=
  ∃ oid peeled kind, RefDb.resolve store (Bytes.ascii "HEAD") = .ok (some (oid, peeled)) ∧
    objectKind repository oid = .ok kind

private theorem snapshotHeadLenient_spec {store : RefDb.Store} {warnings warnings' : List Warning}
    {head : Option RefEntry} {entries : List (Bytes × Bytes)}
    (h : snapshotHeadLenient repository store warnings = (head, entries, warnings')) :
    (∀ row ∈ head, RefRow repository.hash row) ∧
      ∃ symref, entries = headMetadata symref ∧
        ∀ name, symref = some name ↔
          headSymref repository = .ok (some name) ∧ HeadReadable repository store := by
  have hnone {head : Option RefEntry} (hhead : ∀ row ∈ head, RefRow repository.hash row)
      (hrest : ∀ name, ¬ (headSymref repository = .ok (some name) ∧ HeadReadable repository store)) :
      (∀ row ∈ head, RefRow repository.hash row) ∧
        ∃ symref, [] = headMetadata symref ∧ ∀ name, symref = some name ↔
          headSymref repository = .ok (some name) ∧ HeadReadable repository store :=
    ⟨hhead, none, rfl, fun name ↦ iff_of_false nofun (hrest name)⟩
  unfold snapshotHeadLenient at h
  split at h
  · next oid peeled hresolve =>
    have hunreadable (hrow : ∀ row warnings, refRow repository (Bytes.ascii "HEAD") oid peeled false ≠
        .ok row warnings) : ¬ HeadReadable repository store := by
      rintro ⟨oid', peeled', kind, hresolve', hkind⟩
      rw [hresolve] at hresolve'
      cases hresolve'
      obtain ⟨row, warnings, heq⟩ := refRow_lenient peeled hkind
      exact hrow row warnings heq
    split at h
    · next row rowWarnings hrow =>
      have hfits : ∀ row' ∈ some row, RefRow repository.hash row' := by
        rintro _ ⟨⟩
        exact refRow_fits hresolve hrow
      obtain ⟨kind, -, hkind, -⟩ := doRefRow_eq_ok (refRow_eq_ok hrow).2
      dsimp only at h
      split at h
      · next hsymref =>
        cases h
        exact hnone hfits fun name hname ↦ by
          rw [hsymref] at hname
          cases hname.1
      · next symref hsymref =>
        cases h
        refine ⟨hfits, some symref, rfl, fun name ↦ ?_⟩
        rw [hsymref]
        constructor
        · rintro ⟨⟩
          exact ⟨rfl, oid, peeled, kind, hresolve, hkind⟩
        · rintro ⟨⟨⟩, -⟩
          rfl
      · next message hsymref =>
        cases h
        exact hnone hfits fun name hname ↦ by
          rw [hsymref] at hname
          cases hname.1
    · next message hrow =>
      cases h
      refine hnone (fun _ hmem ↦ by cases hmem) fun name hname ↦ hunreadable ?_ hname.2
      intro row warnings heq
      rw [hrow] at heq
      cases heq
    · next error hrow =>
      cases h
      refine hnone (fun _ hmem ↦ by cases hmem) fun name hname ↦ hunreadable ?_ hname.2
      intro row warnings heq
      rw [hrow] at heq
      cases heq
  · next hresolve =>
    cases h
    refine hnone (fun _ hmem ↦ by cases hmem) ?_
    rintro name ⟨-, oid, peeled, kind, hresolve', -⟩
    rw [hresolve] at hresolve'
    cases hresolve'
  · next error hresolve =>
    cases h
    refine hnone (fun _ hmem ↦ by cases hmem) ?_
    rintro name ⟨-, oid, peeled, kind, hresolve', -⟩
    rw [hresolve] at hresolve'
    cases hresolve'

private theorem strictHeadSymref_eq_ok {symref : Option Bytes}
    (h : strictHeadSymref repository = .ok symref) : headSymref repository = .ok symref := by
  unfold strictHeadSymref at h
  split at h
  · next hsymref =>
    cases h
    exact hsymref
  · cases h

private theorem validateStrictHeadSymref_eq_ok {symref : Option Bytes} :
    validateStrictHeadSymref symref = .ok () ↔
      ∀ name ∈ symref, RefName.validate name = .ok () ∧ RefName.validBranch name = true := by
  cases symref with
  | none => simp [validateStrictHeadSymref]
  | some name => simp [validateStrictHeadSymref]

/-- What a strict snapshot records for the head. -/
theorem snapshotHeadStrict_spec {store : RefDb.Store} {listed : List Bytes} {rows : List RefEntry}
    {warnings warnings' : List Warning} {head : Option RefEntry} {entries : List (Bytes × Bytes)}
    (h : snapshotHeadStrict repository store listed rows warnings = .ok (head, entries, warnings')) :
    ∃ symref, headSymref repository = .ok symref ∧ entries = headMetadata symref ∧
      warnings' = warnings ∧ (∀ name ∈ symref, RefName.validBranch name = true) ∧
      ((∃ oid peeled row, RefDb.resolve store (Bytes.ascii "HEAD") = .ok (some (oid, peeled)) ∧
          refRow repository (Bytes.ascii "HEAD") oid peeled true = .ok row [] ∧ head = some row ∧
          validateResolvedHead row symref rows = .ok ()) ∨
        RefDb.resolve store (Bytes.ascii "HEAD") = .ok none ∧ head = none ∧
          ∃ name, symref = some name ∧ name ∉ listed) := by
  simp only [snapshotHeadStrict, Except.bind_eq_ok] at h
  obtain ⟨symref, hsymref, h⟩ := h
  refine ⟨symref, strictHeadSymref_eq_ok hsymref, ?_⟩
  split at h
  · next oid peeled hresolve =>
    obtain ⟨⟨⟩, hvalid, h⟩ := Except.bind_eq_ok.mp h
    have hbranch := validateStrictHeadSymref_eq_ok.mp hvalid
    split at h
    · next row hrow =>
      obtain ⟨⟨⟩, hhead, heq⟩ := Except.bind_eq_ok.mp h
      cases heq
      exact ⟨rfl, rfl, fun name hname ↦ (hbranch name hname).2,
        .inl ⟨oid, peeled, row, hresolve, hrow, rfl, hhead⟩⟩
    · cases h
    · cases h
  · next hresolve =>
    cases symref with
    | none => cases h
    | some name =>
      simp only [validateUnbornHead, Except.bind_eq_ok, ensure_eq_ok] at h
      obtain ⟨⟨⟩, hvalid, -, hfresh, heq⟩ := h
      cases heq
      have hbranch := validateStrictHeadSymref_eq_ok.mp hvalid
      exact ⟨rfl, rfl, fun name hname ↦ (hbranch name hname).2,
        .inr ⟨hresolve, rfl, name, rfl, hfresh⟩⟩
  · cases h

variable (repository) in
/-- A snapshot that is not strict records the symbolic target of a readable head, however long it
is. -/
def LongHead (strict : Bool) : Prop :=
  strict = false ∧ ∃ store name, repository.refs = some store ∧ HeadReadable repository store ∧
    headSymref repository = .ok (some name) ∧ 65536 < name.length

/-- The rows of a snapshot fit the format; its metadata does unless the head is too long. -/
theorem snapshotRefs_spec {strict : Bool} {rows : List RefEntry} {entries : List (Bytes × Bytes)}
    {warnings : List Warning} (h : snapshotRefs repository strict = .ok (rows, entries, warnings)) :
    (∀ row ∈ rows, RefRow repository.hash row) ∧ (rows.map RefEntry.name).Pairwise (· < ·) ∧
      ∃ symref, entries = headMetadata symref ∧ (∀ name ∈ symref, validUtf8 name = true) ∧
        ((∃ name ∈ symref, 65536 < name.length) ↔ LongHead repository strict) := by
  unfold snapshotRefs at h
  split at h
  · next hrefs =>
    split at h
    · cases h
    · cases h
      refine ⟨by simp, List.Pairwise.nil, none, rfl, by simp, iff_of_false (by simp) ?_⟩
      rintro ⟨-, store, -, hstore, -⟩
      rw [hrefs] at hstore
      cases hstore
  · next store hrefs =>
    simp only [Except.bind_eq_ok] at h
    obtain ⟨⟨listed, listWarnings⟩, -, -, -, ⟨rows', rowWarnings⟩, hlisted, ⟨head, entries', last⟩,
      hhead, heq⟩ := h
    cases heq
    have hrows := snapshotListedRefs_fits hlisted (by simp)
    have hsorted := mergeSort_ascending RefEntry.name
      (uniqBy_fresh RefEntry.name [] (head.toList ++ rows')).1
    have hall (hfits : ∀ row ∈ head, RefRow repository.hash row) (row : RefEntry)
        (hrow : row ∈ (uniqBy RefEntry.name [] (head.toList ++ rows')).mergeSort
          fun a b ↦ a.name ≤ b.name) : RefRow repository.hash row := by
      have hmem := (uniqBy_sublist _ _ _).subset ((List.mergeSort_perm _ _).mem_iff.mp hrow)
      rcases List.mem_append.mp hmem with hmem | hmem
      · exact hfits row (Option.mem_toList.mp hmem)
      · exact hrows row hmem
    cases strict with
    | false =>
      have hlenient : snapshotHeadLenient repository store rowWarnings = (head, entries', last) :=
        Except.ok.inj hhead
      obtain ⟨hfits, symref, rfl, hsymref⟩ := snapshotHeadLenient_spec hlenient
      refine ⟨hall hfits, hsorted, symref, rfl, ?_, ?_⟩
      · exact fun name hname ↦ validUtf8_of_headSymref ((hsymref name).mp hname).1
      · constructor
        · rintro ⟨name, hname, hlong⟩
          obtain ⟨hhead, hreadable⟩ := (hsymref name).mp hname
          exact ⟨rfl, store, name, hrefs, hreadable, hhead, hlong⟩
        · rintro ⟨-, store', name, hstore, hreadable, hhead, hlong⟩
          rw [hrefs] at hstore
          cases hstore
          exact ⟨name, (hsymref name).mpr ⟨hhead, hreadable⟩, hlong⟩
    | true =>
      obtain ⟨symref, hsymref, rfl, -, hbranch, hrow⟩ := snapshotHeadStrict_spec hhead
      refine ⟨hall ?_, hsorted, symref, rfl, ?_, iff_of_false ?_ ?_⟩
      · rcases hrow with ⟨oid, peeled, row, hresolve, hrow, rfl, -⟩ | ⟨-, rfl, -⟩
        · rintro _ ⟨⟩
          exact refRow_fits hresolve hrow
        · exact fun _ hmem ↦ by cases hmem
      · rintro name rfl
        exact validUtf8_of_headSymref hsymref
      · rintro ⟨name, hname, hlong⟩
        have hvalid := hbranch name hname
        simp only [RefName.validBranch, decide_eq_true_eq] at hvalid
        have hshort := (RefName.length_of_validate hvalid.2.2.2).2
        exact absurd hlong (not_lt.mpr (hshort.trans (by decide)))
      · exact fun hlong ↦ by cases hlong.1

end Refs

end Gitility.Bundle
