import Gitility.Bundle.SnapshotRows

/-!
# What the writer publishes

The writer and the strict reader are separate code. Every limit of the reader follows from a check of
the writer or of its callers, apart from the length of the head's symbolic target.
-/

namespace Gitility.Bundle

/-! ### The published file -/

namespace Writer

variable {sha256 : Bytes → Bytes}

/-- The contents of the file that the writer publishes. -/
def Input.contents (sha256 : Bytes → Bytes) (input : Input) : Contents where
  hashAlgorithm := input.hashAlgorithm
  generation := input.generation
  metadata := input.metadata.mergeSort fun a b ↦ a.1 ≤ b.1
  files := sectionRows sha256 headerSize (artifacts (sortPairs input.pairs))
  refs := input.refs.mergeSort fun a b ↦ a.name ≤ b.name
  minor := 0
  body := sectionBytes (artifacts (sortPairs input.pairs))
  tail := []

/-- A written file is the encoding of its contents, within the limits of the format. -/
theorem write_eq_ok {input : Input} {receipt : Receipt} {file : Bytes}
    (h : write sha256 input = .ok (receipt, file)) :
    file = (input.contents sha256).file sha256 ∧ (input.contents sha256).toc.length ≤ maxTocLen ∧
      file.length < 2 ^ 63 ∧
      ∀ source ∈ artifacts (sortPairs input.pairs), 0 < source.2.content.length := by
  simp only [write, Except.bind_eq_ok, ensure_eq_ok] at h
  obtain ⟨header, hheader, ⟨files, output, tocOffset⟩, hstream, -, hceiling, output₁, htoc, output₂,
    htrailer, heq⟩ := h
  cases heq
  obtain ⟨-, rfl⟩ := binwrite_eq_ok.mp hheader
  obtain ⟨rfl, rfl, rfl, hpos⟩ := streamPairs_eq_ok hstream
  obtain ⟨-, rfl⟩ := binwrite_eq_ok.mp htoc
  obtain ⟨hsize, rfl⟩ := binwrite_eq_ok.mp htrailer
  have hcontents : encodeToc ⟨input.hashAlgorithm, input.generation, input.metadata,
      [].reverse ++ sectionRows sha256 16 (artifacts (sortPairs input.pairs)), input.refs⟩ =
      (input.contents sha256).toc := by
    rw [Contents.toc, Input.contents, List.append_nil]
    rfl
  rw [hcontents] at hceiling hsize ⊢
  refine ⟨?_, hceiling, ?_, hpos⟩
  · rw [Contents.file, List.nil_append]
    rfl
  · rw [List.length_append]
    exact hsize

/-- The receipt repeats the warnings of the input. -/
theorem warnings_of_write {input : Input} {receipt : Receipt} {file : Bytes}
    (h : write sha256 input = .ok (receipt, file)) : receipt.warnings = input.warnings := by
  simp only [write, Except.bind_eq_ok, ensure_eq_ok] at h
  obtain ⟨_, _, ⟨files, output, tocOffset⟩, _, _, _, _, _, _, _, heq⟩ := h
  cases heq
  rfl

private theorem streamPairs_of_pos {pairs : List (Artifact × Artifact)} {output : Bytes} {offset : ℕ}
    {files : List FileEntry} (hpos : ∀ source ∈ artifacts pairs, 0 < source.2.content.length)
    (hsize : output.length + (sectionBytes (artifacts pairs)).length < 2 ^ 63) :
    ∃ result, streamPairs sha256 pairs output offset files = .ok result := by
  induction pairs generalizing output offset files with
  | nil => exact ⟨_, rfl⟩
  | cons pair pairs ih =>
    obtain ⟨pack, index⟩ := pair
    obtain ⟨hpack, hpos⟩ := List.forall_mem_cons.mp hpos
    obtain ⟨hindex, hpos⟩ := List.forall_mem_cons.mp hpos
    have hsplit : (sectionBytes (artifacts ((pack, index) :: pairs))).length = pack.content.length +
        (index.content.length + (sectionBytes (artifacts pairs)).length) := by
      simp [artifacts, sectionBytes]
    rw [hsplit] at hsize
    have hfirst := binwrite_eq_ok.mpr ⟨show output.length + pack.content.length < 2 ^ 63 by omega, rfl⟩
    have hsecond := binwrite_eq_ok.mpr ⟨show (output ++ pack.content).length + index.content.length <
      2 ^ 63 by rw [List.length_append]; omega, rfl⟩
    obtain ⟨result, hrest⟩ := @ih (output ++ pack.content ++ index.content)
      (offset + pack.content.length + index.content.length)
      (⟨.idx, index.name, offset + pack.content.length, index.content.length, sha256 index.content⟩ ::
        ⟨.pack, pack.name, offset, pack.content.length, sha256 pack.content⟩ :: files) hpos (by
        simp only [List.length_append]
        omega)
    refine ⟨result, ?_⟩
    simp only [streamPairs, streamSection, Except.bind_eq_ok, ensure_eq_ok]
    exact ⟨_, ⟨_, hfirst, (), hpack, rfl⟩, _, ⟨_, hsecond, (), hindex, rfl⟩, hrest⟩

/-- The writer publishes every inventory of non-empty files within the ceilings. -/
theorem write_of_fits {input : Input} (hsha : ∀ bytes, (sha256 bytes).length = 32)
    (hpos : ∀ source ∈ artifacts (sortPairs input.pairs), 0 < source.2.content.length)
    (htoc : (input.contents sha256).toc.length ≤ maxTocLen)
    (hsize : (input.contents sha256).tocOffset < 2 ^ 62) :
    ∃ receipt file, write sha256 input = .ok (receipt, file) := by
  have hheader : encodeHeader.length = 16 := by decide
  have hbody : 16 + (sectionBytes (artifacts (sortPairs input.pairs))).length < 2 ^ 62 := hsize
  obtain ⟨⟨files, output, tocOffset⟩, hstream⟩ := @streamPairs_of_pos sha256 _ encodeHeader 16 [] hpos (by
    rw [hheader]
    omega)
  obtain ⟨rfl, rfl, rfl, -⟩ := streamPairs_eq_ok hstream
  have hcontents : encodeToc ⟨input.hashAlgorithm, input.generation, input.metadata,
      [].reverse ++ sectionRows sha256 16 (artifacts (sortPairs input.pairs)), input.refs⟩ =
      (input.contents sha256).toc := by
    rw [Contents.toc, Input.contents, List.append_nil]
    rfl
  have hceiling : (input.contents sha256).toc.length ≤ 67108864 := htoc
  rw [← hcontents] at htoc hceiling
  obtain ⟨toc, htocEq⟩ : ∃ toc, encodeToc ⟨input.hashAlgorithm, input.generation, input.metadata,
      [].reverse ++ sectionRows sha256 16 (artifacts (sortPairs input.pairs)), input.refs⟩ = toc :=
    ⟨_, rfl⟩
  obtain ⟨body, hbodyEq⟩ : ∃ body, sectionBytes (artifacts (sortPairs input.pairs)) = body := ⟨_, rfl⟩
  rw [hbodyEq] at hstream hbody
  rw [htocEq] at htoc hceiling
  have hfirst : binwrite [] encodeHeader = .ok encodeHeader := binwrite_eq_ok.mpr ⟨by decide, rfl⟩
  have hsecond : binwrite (encodeHeader ++ body) toc = .ok (encodeHeader ++ body ++ toc) := by
    refine binwrite_eq_ok.mpr ⟨?_, rfl⟩
    rw [List.length_append, hheader]
    omega
  have hthird : binwrite (encodeHeader ++ body ++ toc)
      (encodeTrailer (16 + body.length) toc.length (sha256 toc)) = .ok (encodeHeader ++ body ++ toc ++
        encodeTrailer (16 + body.length) toc.length (sha256 toc)) := by
    refine binwrite_eq_ok.mpr ⟨?_, rfl⟩
    rw [List.length_append, List.length_append, hheader, length_encodeTrailer _ _ (hsha toc),
      trailerSize]
    omega
  have hresult : ∃ result, write sha256 input = .ok result := by
    simp only [write, Except.bind_eq_ok, ensure_eq_ok]
    refine ⟨_, _, hfirst, _, hstream, (), ?_, encodeHeader ++ body ++ toc, ?_,
      encodeHeader ++ body ++ toc ++ encodeTrailer (16 + body.length) toc.length (sha256 toc), ?_, rfl⟩
    · rw [htocEq]
      exact htoc
    · rw [htocEq]
      exact hsecond
    · rw [htocEq]
      exact hthird
  obtain ⟨⟨receipt, file⟩, h⟩ := hresult
  exact ⟨receipt, file, h⟩

/-- The counts of the table of contents fit because its bytes do. -/
theorem counts_of_tocLen {content : TocContent} (h : (encodeSorted content).length ≤ maxTocLen) :
    content.metadata.length < 2 ^ 32 ∧ content.files.length < 2 ^ 32 ∧
      content.refs.length < 2 ^ 32 := by
  have hmetadata : content.metadata.length ≤ (content.metadata.flatMap encodeMetadata).length := by
    have := @length_le_div _ content.metadata encodeMetadata [] 1 one_pos fun row _ ↦ by
      simp only [encodeMetadata, lengthPrefixed, List.length_append, Bytes.length_toLe]
      omega
    simpa using this
  have hfiles : content.files.length ≤ (content.files.flatMap encodeFile).length := by
    have := @length_le_div _ content.files encodeFile [] 1 one_pos fun row _ ↦ by
      simp only [encodeFile, List.length_cons]
      omega
    simpa using this
  have hrefs : content.refs.length ≤ (content.refs.flatMap encodeRef).length := by
    have := @length_le_div _ content.refs encodeRef [] 1 one_pos fun row _ ↦ by
      simp only [encodeRef, lengthPrefixed, List.length_append, List.length_cons, Bytes.length_toLe]
      omega
    simpa using this
  simp only [encodeSorted, List.length_cons, List.length_append, Bytes.length_toLe, maxTocLen] at h
  omega

/-- What the writer publishes of an inventory, a metadata map and a snapshot follows the rules of the
format. -/
theorem contents_valid {input : Input} {receipt : Receipt} {file : Bytes}
    (hsha : ∀ bytes, (sha256 bytes).length = 32)
    (hpairs : ∀ pair ∈ input.pairs, PackFiles pair)
    (hpacks : (input.pairs.map (·.1.name)).Nodup)
    (hinventory : validateInventory input.pairs input.hashAlgorithm = .ok ())
    (hmetadata : ∀ row ∈ input.metadata, MetadataRow row ∧ row.1 ≠ Bytes.ascii "shallow_roots")
    (hkeys : (input.metadata.map Prod.fst).Nodup)
    (hsource : ∃ row ∈ input.metadata, row.1 = Bytes.ascii "source_identity")
    (hgeneration : 1 ≤ input.generation ∧ input.generation < 2 ^ 64)
    (hrefs : ∀ row ∈ input.refs, RefRow input.hashAlgorithm row)
    (hnames : (input.refs.map RefEntry.name).Nodup)
    (h : write sha256 input = .ok (receipt, file)) : (input.contents sha256).Valid := by
  obtain ⟨hfile, hceiling, hsize, hpos⟩ := write_eq_ok h
  have hsort : (sortPairs input.pairs).Perm input.pairs := List.mergeSort_perm _ _
  have hmeta : (input.contents sha256).metadata.Perm input.metadata := List.mergeSort_perm _ _
  have hrows : (input.contents sha256).refs.Perm input.refs := List.mergeSort_perm _ _
  have hinventory' : validateInventory (sortPairs input.pairs) input.hashAlgorithm = .ok () := by
    simp only [validateInventory, ensure_eq_ok] at hinventory ⊢
    exact fun pair hpair ↦ hinventory pair (hsort.mem_iff.mp hpair)
  obtain ⟨digests, hdigests, hpaired, hpackNames⟩ := artifacts_paired
    (fun pair hpair ↦ hpairs pair (hsort.mem_iff.mp hpair)) hinventory'
  have hdistinct : digests.Nodup := by
    have hnodup := (hsort.map (·.1.name)).nodup_iff.mpr hpacks
    rw [hpackNames] at hnodup
    exact List.Nodup.of_map _ hnodup
  have hmap : (input.contents sha256).files.map (fun entry ↦ (entry.kind, entry.name)) =
      digests.flatMap packPair := by
    rw [← hpaired]
    exact map_sectionRows _ _
  have hoffset : (input.contents sha256).tocOffset < 2 ^ 63 := by
    have := (input.contents sha256).file_parts (hsha _)
    rw [← hfile] at this
    omega
  have hname (entry : FileEntry) (hentry : entry ∈ (input.contents sha256).files) :
      ∃ digest ∈ digests, (entry.kind, entry.name) ∈ packPair digest := by
    have hmem : (entry.kind, entry.name) ∈
        (input.contents sha256).files.map fun entry ↦ (entry.kind, entry.name) :=
      List.mem_map_of_mem hentry
    rw [hmap] at hmem
    exact List.mem_flatMap.mp hmem
  have hknown : (input.contents sha256).files.filter (·.kind.isKnown) =
      (input.contents sha256).files := filter_isKnown_sectionRows _ _
  have hsorted : (encodeSorted (input.contents sha256).toTocContent).length ≤ maxTocLen := by
    rw [Contents.toc, List.length_append] at hceiling
    omega
  refine ⟨Nat.two_pow_pos 16, hoffset.trans (by decide), hceiling, ?_⟩
  exact {
    generation := hgeneration
    counts := counts_of_tocLen hsorted
    metadata := fun row hrow ↦ (hmetadata row (hmeta.mem_iff.mp hrow)).1
    metadataSorted := mergeSort_ascending Prod.fst hkeys
    sourceIdentity := by
      obtain ⟨row, hrow, hkey⟩ := hsource
      exact ⟨row, hmeta.mem_iff.mpr hrow, hkey⟩
    shallowRoots := fun row hrow ↦ (hmetadata row (hmeta.mem_iff.mp hrow)).2
    files := by
      intro entry hentry
      obtain ⟨digest, hdigest, hpair⟩ := hname entry hentry
      obtain ⟨source, hsource, -, hlength, hsha256, hend⟩ := mem_sectionRows hentry
      have hfits := packPair_name (hdigests digest hdigest) (List.mem_map_of_mem hpair)
      have hlast : entry.offset + entry.length < 2 ^ 63 := lt_of_le_of_lt hend hoffset
      refine ⟨hfits, by omega, ⟨?_, by omega⟩, by rw [hsha256, hsha]⟩
      rw [hlength]
      exact hpos source hsource
    filesUnique := by
      have hnames : (input.contents sha256).files.map FileEntry.name =
          (digests.flatMap packPair).map Prod.snd := by
        rw [← hmap, List.map_map]
        rfl
      rw [hnames]
      exact nodup_packPair hdistinct
    tiled := tile_eq_ok.mp (tile_sectionRows _ _)
    paired := ⟨digests, hdigests, by rw [hknown, hmap]⟩
    refs := fun row hrow ↦ hrefs row (hrows.mem_iff.mp hrow)
    refsSorted := mergeSort_ascending RefEntry.name hnames }

private theorem verifySections_of_sectionOf {file : Bytes} {entries : List FileEntry}
    {sources : List (FileKind × Artifact)}
    (h : List.Forall₂ (SectionOf sha256 file) entries sources) :
    verifySections sha256 file entries = .ok () := by
  induction h with
  | nil => rfl
  | @cons entry source entries sources hentry _ ih =>
    have hhash : hashSection sha256 file entry = .ok (sha256 source.2.content) := by
      unfold hashSection
      dsimp only
      rw [hentry.bytes, if_pos hentry.length.symm]
    simp only [verifySections, Except.bind_eq_ok, ensure_eq_ok]
    exact ⟨_, hhash, (), hentry.sha256.symm, ih⟩

private theorem readTrailerIdentity_file {c : Contents} (hvalid : c.Valid)
    (hsha : (sha256 c.toc).length = 32) :
    readTrailerIdentity (c.file sha256) = .ok (sha256 c.toc) := by
  obtain ⟨hsize, -, -, htrailer⟩ := c.file_parts hsha
  have hlen : c.toc.length < 2 ^ 64 := hvalid.tocLen.trans_lt (by decide)
  have hdecode := decodeTrailer_eq_ok.mpr ⟨Nat.le_add_right headerSize c.body.length,
    hvalid.tocOffset, hlen, hsha, hsize.symm, rfl⟩
  have hminimum : minimumSize ≤ (c.file sha256).length := by
    rw [hsize]
    simp only [Contents.tocOffset, minimumSize]
    omega
  have hread : preadExact (c.file sha256) ((c.file sha256).length - trailerSize) trailerSize "trailer" =
      .ok (encodeTrailer c.tocOffset c.toc.length (sha256 c.toc)) := by
    refine preadExact_eq_ok.mpr ⟨?_, length_encodeTrailer _ _ hsha⟩
    rw [hsize, Nat.add_sub_cancel, htrailer]
  simp only [readTrailerIdentity, Except.bind_eq_ok, ensure_eq_ok]
  exact ⟨(), hminimum, _, hread, _, hdecode, rfl⟩

/-- What a reader finds in the published file. -/
structure Opens (sha256 : Bytes → Bytes) (input : Input) (file : Bytes) (toc : Toc) : Prop where
  parsed : parse sha256 file = .ok toc
  hashAlgorithm : toc.hashAlgorithm = input.hashAlgorithm
  generation : toc.generation = input.generation
  metadata : toc.metadata.Perm input.metadata
  refs : toc.refs = input.refs
  sections : toc.sections = toc.files
  files : List.Forall₂ (SectionOf sha256 file) toc.files (artifacts (sortPairs input.pairs))
  verified : verify sha256 file = .ok ()

/-- The reader bounds every value that it returns. -/
theorem Opens.short {input : Input} {file : Bytes} {toc : Toc} (h : Opens sha256 input file toc) :
    ∀ row ∈ input.metadata, row.2.length ≤ 65536 := by
  intro row hrow
  obtain ⟨c, ⟨hvalid, -, -⟩, rfl⟩ := parse_eq_ok.mp h.parsed
  exact (hvalid.content.metadata row (h.metadata.mem_iff.mpr hrow)).value.1

/-- A file whose contents follow the rules opens. -/
theorem opens_of_valid {input : Input} {receipt : Receipt} {file : Bytes}
    (hsha : ∀ bytes, (sha256 bytes).length = 32) (hvalid : (input.contents sha256).Valid)
    (hrefs : (input.refs.map RefEntry.name).Pairwise (· < ·))
    (h : write sha256 input = .ok (receipt, file)) :
    Opens sha256 input file ((input.contents sha256).parsed sha256) := by
  obtain ⟨hfile, -, -, -⟩ := write_eq_ok h
  have hparse := parse_eq_ok.mpr ⟨_, ⟨hvalid, hsha _, hfile⟩, rfl⟩
  have hsections : List.Forall₂ (SectionOf sha256 file) (input.contents sha256).files
      (artifacts (sortPairs input.pairs)) := by
    have hparts : file = (input.contents sha256).header ++ (input.contents sha256).body ++
        ((input.contents sha256).toc ++ encodeTrailer (input.contents sha256).tocOffset
          (input.contents sha256).toc.length (sha256 (input.contents sha256).toc)) := by
      rw [hfile, Contents.file, List.append_assoc]
    exact sectionRows_sectionOf hparts
  have hknown : (input.contents sha256).files.filter (·.kind.isKnown) =
      (input.contents sha256).files := filter_isKnown_sectionRows _ _
  exact {
    parsed := hparse
    hashAlgorithm := rfl
    generation := rfl
    metadata := List.mergeSort_perm _ _
    refs := mergeSort_of_ascending RefEntry.name hrefs
    sections := hknown.symm
    files := by
      rw [Contents.parsed, hknown]
      exact hsections
    verified := by
      simp only [verify, Except.bind_eq_ok, ensure_eq_ok]
      refine ⟨_, hparse, sha256 (input.contents sha256).toc, ?_, (), rfl,
        verifySections_of_sectionOf hsections⟩
      rw [hfile]
      exact readTrailerIdentity_file hvalid (hsha _) }

/-- The same publication with its pairs, metadata and references in another order. -/
structure Input.Reordered (input input' : Input) : Prop where
  pairs : input.pairs.Perm input'.pairs
  metadata : input.metadata.Perm input'.metadata
  refs : input.refs.Perm input'.refs
  hashAlgorithm : input'.hashAlgorithm = input.hashAlgorithm
  generation : input'.generation = input.generation
  warnings : input'.warnings = input.warnings

private theorem write_of_reordered {input input' : Input} (h : input.Reordered input')
    (hpairs : (input.pairs.map (·.1.name)).Nodup) (hkeys : (input.metadata.map Prod.fst).Nodup)
    (hnames : (input.refs.map RefEntry.name).Nodup) : write sha256 input' = write sha256 input := by
  have hsort : sortPairs input'.pairs = sortPairs input.pairs :=
    (mergeSort_eq_of_perm (fun pair : Artifact × Artifact ↦ pair.1.name) h.pairs hpairs).symm
  have htoc (files : List FileEntry) :
      encodeToc ⟨input'.hashAlgorithm, input'.generation, input'.metadata, files, input'.refs⟩ =
        encodeToc ⟨input.hashAlgorithm, input.generation, input.metadata, files, input.refs⟩ := by
    unfold encodeToc
    dsimp only
    rw [h.hashAlgorithm, h.generation, mergeSort_eq_of_perm Prod.fst h.metadata hkeys,
      mergeSort_eq_of_perm RefEntry.name h.refs hnames]
  unfold write
  simp only [hsort, htoc]
  simp only [h.generation, h.warnings, h.refs.length_eq]

/-- What a publication hands to the writer: distinct names and keys, and one `source_identity`; and when the
writer succeeds on a head that is not too long, the file opens. -/
theorem publish_spec (hsha : ∀ bytes, (sha256 bytes).length = 32) {timestamp : Bytes → Bool}
    {source : Bytes} {opts : WriteOptions} {repository : Repository}
    {directories : List (List Artifact)} {loose : Option (List Artifact)}
    {pairs : List (Artifact × Artifact)} (hcollect : collect directories loose = .ok pairs)
    (hinventory : validateInventory pairs repository.hash = .ok ())
    {entries : List (Bytes × Bytes)} (hmetadata : metadata timestamp source opts = .ok entries)
    {generation : ℕ} (hgeneration : 1 ≤ generation ∧ generation < 2 ^ 64)
    {refs : List RefEntry} {head : List (Bytes × Bytes)} {warnings : List Warning}
    (hrefs : snapshotRefs repository opts.strictRefs = .ok (refs, head, warnings))
    {receipt : Receipt} {file : Bytes}
    (h : write sha256 ⟨pairs, repository.hash, generation, merge entries head, refs, warnings⟩ =
      .ok (receipt, file)) :
    ((pairs.map (·.1.name)).Nodup ∧ ((merge entries head).map Prod.fst).Nodup ∧
        (refs.map RefEntry.name).Nodup) ∧
      ((∀ row ∈ merge entries head, row.2.length ≤ 65536) ↔ ¬ LongHead repository opts.strictRefs) ∧
      (¬ LongHead repository opts.strictRefs → ∃ toc,
        Opens sha256 ⟨pairs, repository.hash, generation, merge entries head, refs, warnings⟩ file toc) := by
  obtain ⟨hfits, hascending, symref, rfl, hutf, hlong⟩ := snapshotRefs_spec hrefs
  obtain ⟨hfiles, hpacks⟩ := collect_spec hcollect
  obtain ⟨hentries, -⟩ := metadata_eq_ok hmetadata
  have hnames : (refs.map RefEntry.name).Nodup := hascending.imp fun hlt heq ↦ by
    rw [heq] at hlt
    exact List.lt_irrefl _ hlt
  have hkeys : ((merge entries (headMetadata symref)).map Prod.fst).Nodup := by
    rw [hentries]
    exact nodup_merge (nodup_metadataEntries source opts) (nodup_headMetadata symref)
  rw [← hlong]
  have hrows (hshort : ¬ ∃ name ∈ symref, 65536 < name.length) :=
    metadataRow_of_publish hmetadata hutf fun name hname ↦ by
      by_contra hlength
      exact hshort ⟨name, hname, not_le.mp hlength⟩
  refine ⟨⟨hpacks, hkeys, hnames⟩, ⟨?_, fun hshort row hrow ↦ (hrows hshort row hrow).1.value.1⟩, ?_⟩
  · rintro hshort ⟨name, hname, hlength⟩
    have hrow : (headSymrefKey, name) ∈ merge entries (headMetadata symref) := by
      apply List.mem_append_right
      rw [Option.mem_def.mp hname]
      exact List.mem_singleton_self _
    exact absurd hlength (not_lt.mpr (hshort _ hrow))
  · intro hshort
    have hsource : ∃ row ∈ merge entries (headMetadata symref),
        row.1 = Bytes.ascii "source_identity" := by
      rw [hentries, merge_headMetadata]
      exact ⟨_, List.mem_append_left _ List.mem_cons_self, rfl⟩
    have hvalid := contents_valid hsha hfiles hpacks hinventory (hrows hshort) hkeys hsource hgeneration
      hfits hnames h
    exact ⟨_, opens_of_valid hsha hvalid hascending h⟩

/-- Whatever the writer publishes opens, and its bytes do not depend on the order in which the pairs,
the metadata and the references were supplied, exactly when the snapshot does not record a head whose
symbolic target is too long for the format. -/
theorem published_opens_iff (hsha : ∀ bytes, (sha256 bytes).length = 32) (timestamp : Bytes → Bool)
    (source : Bytes) (opts : WriteOptions) (repository : Repository)
    {directories : List (List Artifact)} {loose : Option (List Artifact)}
    {pairs : List (Artifact × Artifact)} (hcollect : collect directories loose = .ok pairs)
    (hinventory : validateInventory pairs repository.hash = .ok ())
    {entries : List (Bytes × Bytes)} (hmetadata : metadata timestamp source opts = .ok entries)
    {generation : ℕ} (hgeneration : 1 ≤ generation ∧ generation < 2 ^ 64)
    {refs : List RefEntry} {head : List (Bytes × Bytes)} {warnings : List Warning}
    (hrefs : snapshotRefs repository opts.strictRefs = .ok (refs, head, warnings))
    {input : Input}
    (hinput : input = ⟨pairs, repository.hash, generation, merge entries head, refs, warnings⟩)
    {receipt : Receipt} {file : Bytes} (h : write sha256 input = .ok (receipt, file)) :
    ((∃ toc, Opens sha256 input file toc) ∧
        ∀ input', input.Reordered input' → write sha256 input' = .ok (receipt, file)) ↔
      ¬ LongHead repository opts.strictRefs := by
  subst hinput
  obtain ⟨⟨hpacks, hkeys, hnames⟩, hshort, hopen⟩ :=
    publish_spec hsha hcollect hinventory hmetadata hgeneration hrefs h
  constructor
  · rintro ⟨⟨toc, hopens⟩, -⟩
    exact hshort.mp hopens.short
  · refine fun hhead ↦ ⟨hopen hhead, fun input' hinput' ↦ ?_⟩
    rw [write_of_reordered hinput' hpacks hkeys hnames, h]

/-! ### A head with a long symbolic target -/

/-- Two section digests, and the digest of a table of contents. -/
def sampleSha256 (tocDigest : Bytes) (bytes : Bytes) : Bytes :=
  if bytes = [1] then
    [0x4b, 0xf5, 0x12, 0x2f, 0x34, 0x45, 0x54, 0xc5, 0x3b, 0xde, 0x2e, 0xbb, 0x8c, 0xd2, 0xb7, 0xe3,
      0xd1, 0x60, 0x0a, 0xd6, 0x31, 0xc3, 0x85, 0xa5, 0xd7, 0xcc, 0xe2, 0x3c, 0x77, 0x85, 0x45, 0x9a]
  else if bytes = [2] then
    [0xdb, 0xc1, 0xb4, 0xc9, 0x00, 0xff, 0xe4, 0x8d, 0x57, 0x5b, 0x5d, 0xa5, 0xc6, 0x38, 0x04, 0x01,
      0x25, 0xf6, 0x5d, 0xb0, 0xfe, 0x3e, 0x24, 0x49, 0x4b, 0x76, 0xea, 0x98, 0x64, 0x57, 0xd9, 0x86]
  else tocDigest

/-- The sample hash has 32 bytes. -/
theorem length_sampleSha256 {tocDigest : Bytes} (h : tocDigest.length = 32) (bytes : Bytes) :
    (sampleSha256 tocDigest bytes).length = 32 := by
  unfold sampleSha256
  split
  · rfl
  · split
    · rfl
    · exact h

/-- A repository with one branch, and the given `HEAD` file. -/
def sampleRepository (headFile : Bytes) : Repository where
  hash := .sha1
  refs := some {
    fullName := fun _ ↦ true
    find := fun name ↦
      if name = Bytes.ascii "HEAD" then .ok (some (.symbolic (Bytes.ascii "refs/heads/main")))
      else if name = Bytes.ascii "refs/heads/main" then .ok (some (.direct (List.replicate 20 1) none))
      else .ok none
    display := text }
  refError := ""
  pages := [.ok ⟨[Bytes.ascii "refs/heads/main"], [], false, none⟩]
  tryHeader := fun _ ↦ .ok (some .commit)
  peel := fun _ oid ↦ .ok oid
  gitPeel := fun _ ↦ none
  headFile := .ok headFile

/-- The rows of its snapshot. -/
def sampleRefs : List RefEntry :=
  [⟨Bytes.ascii "HEAD", List.replicate 20 1, .commit, none⟩,
    ⟨Bytes.ascii "refs/heads/main", List.replicate 20 1, .commit, none⟩]

private theorem sample_snapshotRefs {headFile target : Bytes}
    (h : headSymref (sampleRepository headFile) = .ok (some target)) :
    snapshotRefs (sampleRepository headFile) false =
      .ok (sampleRefs, [(headSymrefKey, target)], []) := by
  obtain ⟨store, hstore⟩ : ∃ store, (sampleRepository headFile).refs = some store := ⟨_, rfl⟩
  have hresolve : RefDb.resolve store (Bytes.ascii "HEAD") = .ok (some (List.replicate 20 1, none)) := by
    cases hstore
    rfl
  have hlisted : snapshotListedRefs (sampleRepository headFile) store false
      [Bytes.ascii "refs/heads/main"] [] [] =
        .ok ([⟨Bytes.ascii "refs/heads/main", List.replicate 20 1, .commit, none⟩], []) := by
    cases hstore
    rfl
  have hrow : refRow (sampleRepository headFile) (Bytes.ascii "HEAD") (List.replicate 20 1) none false =
      .ok ⟨Bytes.ascii "HEAD", List.replicate 20 1, .commit, none⟩ [] := rfl
  have hhead : snapshotHeadLenient (sampleRepository headFile) store [] =
      (some ⟨Bytes.ascii "HEAD", List.replicate 20 1, .commit, none⟩, [(headSymrefKey, target)], []) := by
    simp only [snapshotHeadLenient, hresolve, hrow, h, List.append_nil]
  have hsort : (uniqBy RefEntry.name [] sampleRefs).mergeSort (fun a b ↦ a.name ≤ b.name) =
      sampleRefs :=
    mergeSort_of_ascending RefEntry.name (by decide)
  simp only [snapshotRefs, hstore, Except.bind_eq_ok]
  refine ⟨([Bytes.ascii "refs/heads/main"], []), rfl, (), rfl, _, hlisted, _, congrArg Except.ok hhead, ?_⟩
  exact congrArg (fun rows ↦ Except.ok (rows, [(headSymrefKey, target)], [])) hsort

/-- The files of the sample. -/
def samplePairs : List (Artifact × Artifact) :=
  [(⟨Bytes.ascii "pack-0000000000000000000000000000000000000000.pack", [1]⟩,
    ⟨Bytes.ascii "pack-0000000000000000000000000000000000000000.idx", [2]⟩)]

/-- What the writer is given. -/
def sampleInput (target : Bytes) : Input where
  pairs := samplePairs
  hashAlgorithm := .sha1
  generation := 1
  metadata := [(Bytes.ascii "source_identity", Bytes.ascii "sample"), (headSymrefKey, target)]
  refs := sampleRefs
  warnings := []

/-- The length of the table of contents does not depend on the sorts. -/
theorem length_encodeToc (content : TocContent) :
    (encodeToc content).length = (encodeSorted content).length := by
  have hperm {α : Type} (rows : List α) (le : α → α → Bool) (encode : α → Bytes) :
      ((rows.mergeSort le).flatMap encode).length = (rows.flatMap encode).length :=
    ((List.mergeSort_perm rows le).flatMap_right encode).length_eq
  simp only [encodeToc, encodeSorted, List.length_cons, List.length_append, Bytes.length_toLe, hperm]

/-- The sample is written under any generation. -/
theorem sample_write {digest target : Bytes} (generation : ℕ) (hdigest : digest.length = 32)
    (htarget : target.length ≤ 2 ^ 20) :
    ∃ receipt file,
      write (sampleSha256 digest) { sampleInput target with generation } = .ok (receipt, file) := by
  have hsort : sortPairs (sampleInput target).pairs = samplePairs := List.mergeSort_singleton _
  apply write_of_fits (length_sampleSha256 hdigest)
  · rw [hsort]
    decide
  · have htoc : (({ sampleInput target with generation } : Input).contents (sampleSha256 digest)).toc =
        encodeToc ⟨.sha1, generation, (sampleInput target).metadata,
          sectionRows (sampleSha256 digest) 16 (artifacts samplePairs), sampleRefs⟩ := by
      rw [Contents.toc, Input.contents, List.append_nil, hsort]
      rfl
    have hfiles : ((sectionRows (sampleSha256 digest) 16 (artifacts samplePairs)).flatMap
        encodeFile).length = 205 := by
      rfl
    have hrefs : (sampleRefs.flatMap encodeRef).length = 71 := by
      rfl
    have hmetadata : ((sampleInput target).metadata.flatMap encodeMetadata).length =
        48 + target.length := by
      have hkeys : (Bytes.ascii "source_identity").length = 15 ∧ (Bytes.ascii "sample").length = 6 ∧
          headSymrefKey.length = 11 := by decide
      simp only [sampleInput, List.flatMap_cons, List.flatMap_nil, encodeMetadata, lengthPrefixed,
        List.length_append, List.length_nil, Bytes.length_toLe, hkeys]
      omega
    rw [htoc, length_encodeToc]
    simp only [encodeSorted, List.length_cons, List.length_append, Bytes.length_toLe, hfiles, hrefs,
      hmetadata, maxTocLen]
    omega
  · have hbody : headerSize + (sectionBytes (artifacts samplePairs)).length < 2 ^ 62 := by decide
    rw [← hsort] at hbody
    exact hbody

private theorem trimLine_line {line : Bytes} {byte : UInt8} (h : byte ≠ 0x0A) (h' : byte ≠ 0x0D) :
    trimLine (line ++ [byte] ++ [0x0A]) = line ++ [byte] := by
  have hfirst : (line ++ [byte] ++ [0x0A]).rdropWhile (· = 0x0A) = line ++ [byte] := by
    rw [List.rdropWhile_concat, if_pos (by decide), List.rdropWhile_concat, if_neg (by simpa using h)]
  rw [trimLine, hfirst, List.rdropWhile_concat, if_neg (by simpa using h')]

private theorem sample_headSymref {line : Bytes} {byte : UInt8} (h : byte ≠ 0x0A) (h' : byte ≠ 0x0D)
    (hascii : ∀ b ∈ line ++ [byte], b < 128) :
    headSymref (sampleRepository (Bytes.ascii "ref: " ++ (line ++ [byte]) ++ [0x0A])) =
      .ok (some (line ++ [byte])) := by
  have hfive : (Bytes.ascii "ref: ").length = 5 := by decide
  have htrim := @trimLine_line (Bytes.ascii "ref: " ++ line) byte h h'
  rw [List.append_assoc (Bytes.ascii "ref: ")] at htrim
  have htake : (Bytes.ascii "ref: " ++ (line ++ [byte])).take 5 = Bytes.ascii "ref: " := by
    rw [← hfive, List.take_left]
  have hdrop : (Bytes.ascii "ref: " ++ (line ++ [byte])).drop 5 = line ++ [byte] := by
    rw [← hfive, List.drop_left]
  have hvalid := validUtf8_of_ascii hascii
  have hne : line ++ [byte] ≠ [] := by simp
  unfold headSymref
  simp only [sampleRepository, htrim, htake, hdrop]
  rw [if_pos ⟨trivial, hne⟩, if_pos hvalid]

/-- Spaces before the name of a branch, which the reference store skips. -/
def longTarget : Bytes := List.replicate 65536 0x20 ++ Bytes.ascii "refs/heads/mai" ++ [0x6E]

/-- The digest of the table of contents that records `longTarget`. -/
def longDigest : Bytes :=
  [0xe3, 0x90, 0x56, 0x4e, 0x80, 0x8d, 0xe0, 0x13, 0x96, 0x21, 0x2e, 0xeb, 0x0c, 0xae, 0x79, 0x55,
    0xed, 0xe4, 0xec, 0xb0, 0xc5, 0x0f, 0x2b, 0x1f, 0x4c, 0xc1, 0x37, 0x23, 0x85, 0x15, 0x11, 0x69]

/-- The digest of the table of contents that records `refs/heads/main`. -/
def shortDigest : Bytes :=
  [0xbd, 0xf4, 0x90, 0xec, 0x18, 0x5f, 0x54, 0x90, 0x05, 0x4d, 0x2c, 0x76, 0x25, 0xeb, 0xb4, 0x79,
    0x99, 0x32, 0x2a, 0x67, 0x69, 0xf8, 0x00, 0x38, 0x55, 0x47, 0x90, 0xdb, 0xe6, 0xc4, 0x35, 0x98]

/-- The options of the sample. -/
def sampleOptions : WriteOptions := { sourceIdentity := some (Bytes.ascii "sample") }

private theorem sample_collect : collect [samplePairs.flatMap fun pair ↦ [pair.1, pair.2]] none =
    .ok samplePairs := by
  have hpacks : packs (samplePairs.flatMap fun pair ↦ [pair.1, pair.2]) = samplePairs.map Prod.fst := by
    rw [packs, show (samplePairs.flatMap fun pair ↦ [pair.1, pair.2]).filter (isPackName ·.name) =
      samplePairs.map Prod.fst by decide]
    exact List.mergeSort_singleton _
  have hpairs : packedPairs (samplePairs.flatMap fun pair ↦ [pair.1, pair.2]) = samplePairs := by
    rw [packedPairs, hpacks]
    decide
  simp only [collect, Except.bind_eq_ok, List.flatMap_cons, List.flatMap_nil, hpairs]
  exact ⟨[], rfl, congrArg Except.ok (List.mergeSort_singleton _)⟩

/-- The metadata, the inventory and the head of the sample. -/
theorem sample_spec : metadata (fun _ ↦ true) (Bytes.ascii "/repository") sampleOptions =
      .ok [(Bytes.ascii "source_identity", Bytes.ascii "sample")] ∧
    validateInventory samplePairs .sha1 = .ok () ∧
    ∀ byte ∈ Bytes.ascii "refs/heads/mai" ++ [0x6E], byte < 128 := by
  decide +kernel

private theorem length_longTarget : longTarget.length = 65551 := by
  have hname : (Bytes.ascii "refs/heads/mai").length = 14 := by decide
  rw [longTarget, List.length_append, List.length_append, List.length_replicate, hname,
    List.length_singleton]

/-- A snapshot records the long target, the writer publishes it and the reader refuses the file. -/
theorem long_head_refused :
    collect [samplePairs.flatMap fun pair ↦ [pair.1, pair.2]] none = .ok samplePairs ∧
      validateInventory samplePairs .sha1 = .ok () ∧
      metadata (fun _ ↦ true) (Bytes.ascii "/repository") sampleOptions =
        .ok [(Bytes.ascii "source_identity", Bytes.ascii "sample")] ∧
      snapshotRefs (sampleRepository (Bytes.ascii "ref: " ++ longTarget ++ [0x0A])) false =
        .ok (sampleRefs, [(headSymrefKey, longTarget)], []) ∧
      ∃ receipt file, write (sampleSha256 longDigest) (sampleInput longTarget) = .ok (receipt, file) ∧
        ¬ ∃ toc, Opens (sampleSha256 longDigest) (sampleInput longTarget) file toc := by
  obtain ⟨hmetadata, hinventory, hname⟩ := sample_spec
  have hascii : ∀ byte ∈ longTarget, byte < 128 := by
    intro byte hbyte
    rw [longTarget, List.append_assoc] at hbyte
    rcases List.mem_append.mp hbyte with hbyte | hbyte
    · rw [List.eq_of_mem_replicate hbyte]
      decide
    · exact hname byte hbyte
  have hhead := sample_headSymref (by decide) (by decide) hascii
  obtain ⟨receipt, file, hwrite⟩ := @sample_write longDigest longTarget 1 rfl
    (by rw [length_longTarget]; decide)
  refine ⟨sample_collect, hinventory, hmetadata, sample_snapshotRefs hhead, receipt, file, hwrite, ?_⟩
  rintro ⟨toc, hopens⟩
  have hshort := hopens.short (headSymrefKey, longTarget) (List.mem_cons_of_mem _ List.mem_cons_self)
  rw [length_longTarget] at hshort
  omega

/-- The sample with its branch as the head opens. -/
theorem sample_opens {receipt : Receipt} {file : Bytes}
    (h : write (sampleSha256 shortDigest) (sampleInput (Bytes.ascii "refs/heads/main")) =
      .ok (receipt, file)) :
    ∃ toc, Opens (sampleSha256 shortDigest) (sampleInput (Bytes.ascii "refs/heads/main")) file toc := by
  obtain ⟨hfiles, hpacks⟩ := collect_spec sample_collect
  obtain ⟨hmetadata, hinventory, hascii⟩ := sample_spec
  have hutf : ∀ name ∈ some (Bytes.ascii "refs/heads/main"), validUtf8 name = true := by
    rintro _ ⟨⟩
    exact validUtf8_of_ascii hascii
  have hshort : ∀ name ∈ some (Bytes.ascii "refs/heads/main"), name.length ≤ 65536 := by
    rintro _ ⟨⟩
    decide
  have hrows := metadataRow_of_publish hmetadata hutf hshort
  have hascending : (sampleRefs.map RefEntry.name).Pairwise (· < ·) := by decide
  have hfits : ∀ row ∈ sampleRefs, RefRow .sha1 row := by
    intro row hrow
    simp only [sampleRefs, List.mem_cons, List.not_mem_nil, or_false] at hrow
    rcases hrow with rfl | rfl
    · exact ⟨by decide, rfl, by simp⟩
    · exact ⟨by decide, rfl, by simp⟩
  have hsource : ∃ row ∈ (sampleInput (Bytes.ascii "refs/heads/main")).metadata,
      row.1 = Bytes.ascii "source_identity" := ⟨_, List.mem_cons_self, rfl⟩
  have hvalid := contents_valid (length_sampleSha256 rfl) hfiles hpacks hinventory hrows
    (by decide) hsource (by decide) hfits (by decide) h
  exact ⟨_, opens_of_valid (length_sampleSha256 rfl) hvalid hascending h⟩

/-- The theorem at a short head symref: every order of the rows is written to the same file, which opens. -/
theorem published_opens_sample : ∃ receipt file,
    write (sampleSha256 shortDigest) (sampleInput (Bytes.ascii "refs/heads/main")) =
        .ok (receipt, file) ∧
      ((∃ toc, Opens (sampleSha256 shortDigest) (sampleInput (Bytes.ascii "refs/heads/main")) file
          toc) ∧
        ∀ input', (sampleInput (Bytes.ascii "refs/heads/main")).Reordered input' →
          write (sampleSha256 shortDigest) input' = .ok (receipt, file)) := by
  obtain ⟨hmetadata, hinventory, hascii⟩ := sample_spec
  have hhead := sample_headSymref (by decide) (by decide) hascii
  obtain ⟨receipt, file, hwrite⟩ := @sample_write shortDigest (Bytes.ascii "refs/heads/main") 1 rfl
    (by decide)
  refine ⟨receipt, file, hwrite, ?_⟩
  apply (published_opens_iff (length_sampleSha256 rfl) (fun _ ↦ true) (Bytes.ascii "/repository")
    sampleOptions _ sample_collect hinventory hmetadata (by decide)
    (sample_snapshotRefs hhead) rfl hwrite).mpr
  rintro ⟨-, store, name, -, -, hname, hlong⟩
  rw [hhead] at hname
  cases hname
  exact absurd hlong (by decide)

end Writer

end Gitility.Bundle
