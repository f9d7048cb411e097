import Gitility.History.CommitGraph

/-!
# The two readers of a commit

A walk reads a commit with `read_meta`, an emitted commit is decoded by `decode_log_commit`. Both go
through the same header lines, but `identity_time` takes the timestamp after the last `>` and
`decode_identity` the one after the first `>` behind the first `<`. They differ when a committer's
timezone, which `decode_identity` does not look into, holds another `>`.
-/

namespace Gitility

/-- Behind its first `<`, an identity has at most one `>`. -/
def closesOnce (raw : Bytes) : Bool := (raw.dropWhile (· ≠ 0x3c)).count 0x3e ≤ 1

/-- A header line is not a committer, or its identity closes once. -/
def committerCloses (line : Bytes) : Bool :=
  match splitHeader line with
  | .ok (name, value) => name ≠ Bytes.ascii "committer" || closesOnce value
  | .error _ => true

/-- All committer headers of a payload close once. -/
def committersClose (payload : Bytes) : Bool :=
  match splitCommit payload with
  | .ok (headers, _) => (headerLines headers).all committerCloses
  | .error _ => true

/-! ### Brackets -/

/-- A byte string with a byte has a last one. -/
theorem split_last {byte : UInt8} {bytes : Bytes} (h : byte ∈ bytes) :
    ∃ front back, bytes = front ++ byte :: back ∧ byte ∉ back := by
  obtain ⟨back, front, heq, hback⟩ := List.eq_append_cons_of_mem (List.mem_reverse.mpr h)
  refine ⟨front.reverse, back.reverse, ?_, by simpa using hback⟩
  rw [← List.reverse_reverse bytes, heq]
  simp

/-! ### One identity -/

private theorem stripSpace_eq_some {bytes rest : Bytes} (h : stripSpace bytes = some rest) :
    bytes = 0x20 :: rest := by
  unfold stripSpace at h
  split at h
  · rw [Option.some.inj h]
  · cases h

/-- Only a value is accepted. -/
theorem orMalformed_eq_ok {α : Type} {value : Option α} {message : String} {a : α} :
    orMalformed value message = .ok a ↔ value = some a := by
  cases value <;> simp [orMalformed]

/-- The bytes of an identity that `decode_identity` accepts. -/
theorem decodeIdentity_shape {raw : Bytes} {identity : Identity}
    (h : decodeIdentity raw = .ok identity) :
    ∃ front email time, raw = front ++ 0x3c :: (email ++ 0x3e :: 0x20 :: (time ++ 0x20 :: identity.tz)) ∧
      0x3c ∉ front ∧ 0x3e ∉ email ∧ 0x20 ∉ time ∧ 0x20 ∉ identity.tz ∧
      parseI64 time = some identity.time := by
  obtain ⟨left, hleft, h⟩ := Except.bind_eq_ok.mp h
  obtain ⟨offset, hoffset, h⟩ := Except.bind_eq_ok.mp h
  obtain ⟨suffix, hsuffix, h⟩ := Except.bind_eq_ok.mp h
  obtain ⟨separator, hseparator, h⟩ := Except.bind_eq_ok.mp h
  obtain ⟨_, hensure, h⟩ := Except.bind_eq_ok.mp h
  obtain ⟨time, htime, h⟩ := Except.bind_eq_ok.mp h
  obtain ⟨-, -, htz, -⟩ := ensure_eq_ok.mp hensure
  cases h
  obtain ⟨b, hraw, hb, hfront⟩ := Bytes.findIdx?_eq_some_split (orMalformed_eq_ok.mp hleft)
  obtain rfl : b = 0x3c := by simpa using hb
  obtain ⟨b, hrest, hb, hemail⟩ := Bytes.findIdx?_eq_some_split (orMalformed_eq_ok.mp hoffset)
  obtain rfl : b = 0x3e := by simpa using hb
  obtain ⟨b, htimes, hb, hdigits⟩ := Bytes.findIdx?_eq_some_split (orMalformed_eq_ok.mp hseparator)
  obtain rfl : b = 0x20 := by simpa using hb
  have hstrip := stripSpace_eq_some (orMalformed_eq_ok.mp hsuffix)
  refine ⟨raw.take left, (raw.drop (left + 1)).take offset, suffix.take separator, ?_, ?_, ?_, ?_,
    htz, orMalformed_eq_ok.mp htime⟩
  · conv_lhs => rw [hraw, hrest]
    rw [List.drop_drop, ← Nat.add_assoc, hstrip, ← htimes]
  · intro hmem
    simpa using hfront _ hmem
  · intro hmem
    simpa using hemail _ hmem
  · intro hmem
    simpa using hdigits _ hmem

private theorem not_mem_of_decimal {digits : Bytes} {value : ℕ} (h : decimal digits = some value) :
    0x3e ∉ digits := by
  unfold decimal at h
  split at h
  · next hdigits =>
    intro hmem
    have hdigit := List.all_eq_true.mp hdigits.2 _ hmem
    revert hdigit
    decide
  · cases h

/-- A number has no `>`. -/
theorem not_mem_of_parseI64 {text : Bytes} {value : ℤ} (h : parseI64 text = some value) :
    0x3e ∉ text := by
  unfold parseI64 at h
  split at h
  · obtain ⟨_, hdecimal, -⟩ := Option.bind_eq_some_iff.mp h
    simpa using not_mem_of_decimal hdecimal
  · obtain ⟨_, hdecimal, -⟩ := Option.bind_eq_some_iff.mp h
    simpa using not_mem_of_decimal hdecimal
  · obtain ⟨_, hdecimal, -⟩ := Option.bind_eq_some_iff.mp h
    exact not_mem_of_decimal hdecimal

/-- `identity_time` reads what is behind the last `>`. -/
theorem identityTime_append {front back : Bytes} (hback : 0x3e ∉ back) :
    identityTime (front ++ 0x3e :: back) =
      (orMalformed (stripSpace back) "commit identity is missing its timestamp").bind fun suffix ↦
        orMalformed (parseI64 (suffix.takeWhile (· ≠ 0x20)))
          "commit identity timestamp is malformed" := by
  have hlast : Bytes.rposition (· = 0x3e) (front ++ 0x3e :: back) = some front.length :=
    Bytes.rposition_eq_some.mpr ⟨front, 0x3e, back, rfl, rfl, by simp, fun b hb ↦ by
      simp only [decide_eq_false_iff_not]
      rintro rfl
      exact hback hb⟩
  rw [identityTime, hlast]
  simp [orMalformed, bind, Except.bind]

/-- On an identity that `decode_identity` accepts, `identity_time` finds the same time if it closes
once and fails otherwise. -/
theorem identityTime_eq_ok_iff {raw : Bytes} {identity : Identity}
    (h : decodeIdentity raw = .ok identity) :
    (closesOnce raw → identityTime raw = .ok identity.time) ∧
      (¬closesOnce raw → ∀ time, identityTime raw ≠ .ok time) := by
  obtain ⟨front, email, time, rfl, hfront, hemail, hspace, htz, htime⟩ := decodeIdentity_shape h
  have hdigits := not_mem_of_parseI64 htime
  have hcount : ((front ++ 0x3c :: (email ++ 0x3e :: 0x20 :: (time ++ 0x20 :: identity.tz))).dropWhile
      (· ≠ 0x3c)).count 0x3e = 1 + identity.tz.count 0x3e := by
    rw [List.dropWhile_append_of_pos fun b hb ↦ by
      simpa using ne_of_mem_of_not_mem hb hfront]
    simp [List.count_append, List.count_eq_zero.mpr hemail,
      List.count_eq_zero.mpr hdigits, Nat.add_comm]
  simp only [closesOnce, hcount, decide_eq_true_eq]
  constructor
  · intro hcloses
    have hnot : 0x3e ∉ identity.tz := List.count_eq_zero.mp (by omega)
    have hsplit : front ++ 0x3c :: (email ++ 0x3e :: 0x20 :: (time ++ 0x20 :: identity.tz)) =
        (front ++ 0x3c :: email) ++ 0x3e :: (0x20 :: (time ++ 0x20 :: identity.tz)) := by
      simp
    have htake : (time ++ 0x20 :: identity.tz).takeWhile (· ≠ 0x20) = time := by
      rw [List.takeWhile_append_of_pos fun b hb ↦ by simpa using ne_of_mem_of_not_mem hb hspace]
      simp
    rw [hsplit, identityTime_append (by simp [hdigits, hnot]), stripSpace, orMalformed_eq_ok.mpr rfl]
    change orMalformed _ _ = _
    rw [htake]
    exact orMalformed_eq_ok.mpr htime
  · intro hcloses time'
    obtain ⟨tz₁, tz₂, heq, hlast⟩ := split_last (List.count_pos_iff.mp (show 0 < identity.tz.count 0x3e by omega))
    have hsplit : front ++ 0x3c :: (email ++ 0x3e :: 0x20 :: (time ++ 0x20 :: identity.tz)) =
        (front ++ 0x3c :: (email ++ 0x3e :: 0x20 :: (time ++ 0x20 :: tz₁))) ++ 0x3e :: tz₂ := by
      simp [heq]
    -- what is behind the last bracket is part of a timezone, which has no spaces
    have hstrip : stripSpace tz₂ = none := by
      cases hs : stripSpace tz₂ with
      | none => rfl
      | some rest =>
        rw [heq, stripSpace_eq_some hs] at htz
        simp at htz
    rw [hsplit, identityTime_append hlast, hstrip]
    rintro ⟨⟩

/-! ### The headers -/

/-- What a walk has read when the decoder has read these headers. -/
def CommitHeaders.seen (found : CommitHeaders) : List Oid × Option ℤ :=
  (found.parents, found.committer.map Identity.time)

/-- Naming the object changes errors only. -/
theorem atOid_eq_ok {α : Type} {id : Oid} {x : Except Error α} {a : α} :
    atOid id x = .ok a ↔ x = .ok a := by
  cases x <;> simp [atOid, Except.mapError]

/-- Only a value is accepted. -/
theorem orMalformedFor_eq_ok {α : Type} {value : Option α} {id : Oid} {message : String} {a : α} :
    orMalformedFor value id message = .ok a ↔ value = some a := by
  cases value <;> simp [orMalformedFor]

private theorem committerCloses_of_ne {line name value : Bytes} (h : splitHeader line = .ok (name, value))
    (hname : name ≠ Bytes.ascii "committer") : committerCloses line := by
  simp [committerCloses, h, hname]

/-- On a line that the decoder accepts, the walk's reader keeps up with it unless the line is a
committer that closes more than once. -/
theorem metaHeader_of_commitHeader {id : Oid} {found found' : CommitHeaders} {line : Bytes}
    (h : commitHeader id found line = .ok found') :
    (committerCloses line → metaHeader id found.seen line = .ok found'.seen) ∧
      (¬committerCloses line → ∀ read read', metaHeader id read line ≠ .ok read') := by
  obtain ⟨⟨name, value⟩, hline, h⟩ := Except.bind_eq_ok.mp h
  have hsplit := atOid_eq_ok.mp hline
  by_cases hcommitter : name = Bytes.ascii "committer"
  · subst hcommitter
    have hcloses : committerCloses line = closesOnce value := by
      simp [committerCloses, hsplit]
    simp only [show Bytes.ascii "committer" ≠ Bytes.ascii "tree" by decide,
      show Bytes.ascii "committer" ≠ Bytes.ascii "parent" by decide,
      show Bytes.ascii "committer" ≠ Bytes.ascii "author" by decide, if_false, if_true] at h
    obtain ⟨identity, hidentity, h⟩ := Except.bind_eq_ok.mp h
    cases h
    obtain ⟨hagree, hfail⟩ := identityTime_eq_ok_iff (atOid_eq_ok.mp hidentity)
    have hread (read : List Oid × Option ℤ) : metaHeader id read line =
        (atOid id (identityTime value)).bind fun time ↦ .ok (read.1, some time) := by
      rw [metaHeader, hline]
      rfl
    rw [hcloses]
    refine ⟨fun honce ↦ ?_, fun honce read read' hok ↦ ?_⟩
    · rw [hread, atOid_eq_ok.mpr (hagree honce)]
      rfl
    · rw [hread] at hok
      obtain ⟨time, htime, -⟩ := Except.bind_eq_ok.mp hok
      exact hfail honce time (atOid_eq_ok.mp htime)
  · have hcloses := committerCloses_of_ne hsplit hcommitter
    refine ⟨fun _ ↦ ?_, fun hnot ↦ absurd hcloses hnot⟩
    by_cases hparent : name = Bytes.ascii "parent"
    · subst hparent
      simp only [show Bytes.ascii "parent" ≠ Bytes.ascii "tree" by decide, if_false, if_true] at h
      obtain ⟨parent, hoid, h⟩ := Except.bind_eq_ok.mp h
      cases h
      rw [metaHeader, hline]
      change (parseOid value id.kind "commit parent" id).bind _ = _
      rw [hoid]
      rfl
    · have hread : metaHeader id found.seen line = .ok found.seen := by
        rw [metaHeader, hline]
        change (if name = Bytes.ascii "parent" then _ else _) = _
        rw [if_neg hparent, if_neg hcommitter]
        rfl
      have hsame : found'.seen = found.seen := by
        simp only [if_neg hparent, if_neg hcommitter] at h
        split at h
        · obtain ⟨_, -, h⟩ := Except.bind_eq_ok.mp h
          cases h
          rfl
        · split at h
          · obtain ⟨_, -, h⟩ := Except.bind_eq_ok.mp h
            cases h
            rfl
          · split at h
            · cases h
              rfl
            · split at h
              · cases h
                rfl
              · cases h
                rfl
      rw [hread, hsame]

/-- The same over all lines. -/
theorem foldlM_metaHeader {id : Oid} {lines : List Bytes} {found found' : CommitHeaders}
    (h : lines.foldlM (commitHeader id) found = .ok found') :
    ((∀ line ∈ lines, committerCloses line) →
        lines.foldlM (metaHeader id) found.seen = .ok found'.seen) ∧
      ((∃ line ∈ lines, ¬committerCloses line) →
        ∀ read read', lines.foldlM (metaHeader id) read ≠ .ok read') := by
  induction lines generalizing found with
  | nil =>
    cases h
    exact ⟨fun _ ↦ rfl, by simp⟩
  | cons line lines ih =>
    rw [List.foldlM_cons] at h
    obtain ⟨next, hline, hlines⟩ := Except.bind_eq_ok.mp h
    obtain ⟨hkeeps, hfails⟩ := metaHeader_of_commitHeader hline
    obtain ⟨hrest, hrestFails⟩ := ih hlines
    refine ⟨fun hall ↦ ?_, ?_⟩
    · rw [List.foldlM_cons, hkeeps (hall line List.mem_cons_self)]
      exact hrest fun l hl ↦ hall l (List.mem_cons_of_mem line hl)
    · rintro ⟨l, hl, hnot⟩ read read' hok
      rw [List.foldlM_cons] at hok
      obtain ⟨next', hfirst, hok⟩ := Except.bind_eq_ok.mp hok
      rcases List.mem_cons.mp hl with rfl | hl
      · exact hfails hnot read next' hfirst
      · exact hrestFails ⟨l, hl, hnot⟩ next' read' hok

/-! ### The payload -/

/-- For a payload that `decode_log_commit` accepts, `read_meta` reads the same parents and the same
time before it prunes if and only if all committer headers close once. -/
theorem recordedMeta_eq_iff {id : Oid} {payload : Bytes} {commit : LogCommit}
    (h : decodeLogCommit id payload false = .ok commit) :
    recordedMeta id payload = .ok ⟨commit.parents, commit.committer.time⟩ ↔ committersClose payload := by
  obtain ⟨⟨headers, message⟩, hsplit, h⟩ := Except.bind_eq_ok.mp h
  obtain ⟨found, hfound, h⟩ := Except.bind_eq_ok.mp h
  obtain ⟨treeId, -, h⟩ := Except.bind_eq_ok.mp h
  obtain ⟨author, -, h⟩ := Except.bind_eq_ok.mp h
  obtain ⟨committer, hcommitter, h⟩ := Except.bind_eq_ok.mp h
  cases h
  obtain ⟨hagree, hfail⟩ := foldlM_metaHeader hfound
  rw [committersClose, atOid_eq_ok.mp hsplit, List.all_eq_true, recordedMeta, hsplit]
  change ((headerLines headers).foldlM (metaHeader id) ([], none)).bind _ = _ ↔ _
  constructor
  · intro hok line hline
    by_contra hnot
    obtain ⟨read, hfold, -⟩ := Except.bind_eq_ok.mp hok
    exact hfail ⟨line, hline, hnot⟩ _ _ hfold
  · intro hall
    have hseen : found.seen = (found.parents, some committer.time) := by
      rw [CommitHeaders.seen, orMalformedFor_eq_ok.mp hcommitter, Option.map_some]
    have hfold : (headerLines headers).foldlM (metaHeader id) ([], none) = .ok found.seen := hagree hall
    rw [hfold, hseen]
    rfl

/-- `read_meta` without `since`, `first_parent` and shallow roots agrees with `decode_log_commit` on a
payload that the latter accepts if and only if all its committer headers close once. -/
theorem readMeta_eq_iff {db : ObjectDb} {opts : WalkOptions} {id : Oid} {payload : Bytes}
    {commit : LogCommit} (hfind : db.tryFind id = .ok (some (.commit, payload)))
    (hsince : opts.since = none) (hfirst : opts.firstParent = false)
    (hshallow : db.isShallow id = false) (h : decodeLogCommit id payload false = .ok commit)
    (input : Bool) :
    db.eval (readMeta db.toStoreInfo opts id input) = .ok ⟨commit.parents, commit.committer.time⟩ ↔
      committersClose payload := by
  have hprune (found : CommitMeta) : found.prune db.toStoreInfo opts id = found := by
    simp [CommitMeta.prune, hsince, hfirst, hshallow]
  have hread : db.eval (readMeta db.toStoreInfo opts id input) = .ofExcept (recordedMeta id payload) := by
    rw [readMeta, ObjectDb.eval_bind, ObjectDb.eval_readPayload hfind, Outcome.ok_bind,
      ObjectDb.eval_bind, ObjectDb.eval_ofExcept]
    cases recordedMeta id payload with
    | error e => rfl
    | ok found => rw [Outcome.ofExcept_ok, Outcome.ok_bind, ObjectDb.eval_pure, hprune]
  rw [hread, Outcome.ofExcept_eq_ok, recordedMeta_eq_iff h]

/-- A commit with this timezone in its committer header. -/
def timezonePayload (timezone : String) : Bytes :=
  Bytes.ascii "tree " ++ Bytes.ascii (sampleId 0xaa).toHex ++ [0x0a] ++
    Bytes.ascii "parent " ++ Bytes.ascii (sampleId 2).toHex ++ [0x0a] ++
    Bytes.ascii "author A <a> 10 +0000" ++ [0x0a] ++
    Bytes.ascii "committer C <c> 10 " ++ Bytes.ascii timezone ++ [0x0a, 0x0a]

/-- A store of that commit. -/
def timezoneStore (timezone : String) : ObjectDb :=
  .ofFind .sha1 none fun _ ↦ .ok (some (.commit, timezonePayload timezone))

/-- A malformed timezone without a bracket is read past. -/
theorem readMeta_eq_iff_sample :
    ∃ commit, decodeLogCommit (sampleId 1) (timezonePayload "+99x") false = .ok commit ∧
      (timezoneStore "+99x").eval (readMeta (timezoneStore "+99x").toStoreInfo {} (sampleId 1) true) =
        .ok ⟨commit.parents, commit.committer.time⟩ := by
  have hdecode : (decodeLogCommit (sampleId 1) (timezonePayload "+99x") false).toOption.isSome := by
    decide +kernel
  cases h : decodeLogCommit (sampleId 1) (timezonePayload "+99x") false with
  | error e =>
    rw [h] at hdecode
    cases hdecode
  | ok commit =>
    exact ⟨commit, rfl, (readMeta_eq_iff rfl rfl rfl rfl h true).mpr (by decide +kernel)⟩

/-- A timezone with a bracket is decoded, but fails the walk. -/
theorem readMeta_rejects_decoded :
    ∃ commit error, decodeLogCommit (sampleId 1) (timezonePayload "+0>00") false = .ok commit ∧
      (timezoneStore "+0>00").eval
        (readMeta (timezoneStore "+0>00").toStoreInfo {} (sampleId 1) true) = .error error := by
  have hdecode : (decodeLogCommit (sampleId 1) (timezonePayload "+0>00") false).toOption.isSome := by
    decide +kernel
  cases h : decodeLogCommit (sampleId 1) (timezonePayload "+0>00") false with
  | error e =>
    rw [h] at hdecode
    cases hdecode
  | ok commit =>
    refine ⟨commit, ((malformed "commit identity is missing its timestamp").withOid (sampleId 1)), rfl, ?_⟩
    decide +kernel

end Gitility
