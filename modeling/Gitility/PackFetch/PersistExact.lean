import Gitility.PackFetch.Persist

/-!
# What a persisted hydration reads back as

The pairs of a manifest in the order of their names, what the change test compares them with, and when the
bundle that stands at the path after `persist_bundle` holds them exactly.
-/

namespace Gitility.PackFetch

open Gitility.Bundle

variable (sha256 : Bytes → Bytes) (scratch : Scratch) (manifest : PackManifest) (context : BundleContext)

/-- The bytes of a file of the scratch directory. -/
def content (name : Bytes) : Bytes :=
  match scratch name with
  | some (.regular bytes) => bytes
  | _ => []

/-- The files of a pack. -/
def pairOf (pack : PackDescriptor) : Artifact × Artifact :=
  (⟨packName pack.id, content scratch (packName pack.id)⟩,
    ⟨indexName pack.id, content scratch (indexName pack.id)⟩)

/-- The pairs of a manifest in the order of their names. -/
def manifestPairs : List (Artifact × Artifact) := Writer.sortPairs (manifest.packs.map (pairOf scratch))

/-- The metadata of every snapshot. -/
def identityMetadata : List (Bytes × Bytes) :=
  [(Bytes.ascii "source_identity", sourceIdentity context manifest)]

/-- Readers of the file find the pairs of the manifest, no references and the metadata of the snapshot. -/
structure Exact (file : Bytes) (toc : Toc) : Prop where
  parsed : parse sha256 file = .ok toc
  metadata : toc.metadata = identityMetadata manifest context
  refs : toc.refs = []
  files : List.Forall₂ (SectionOf sha256 file) toc.files (artifacts (manifestPairs scratch manifest))

/-- A bundle that need not be rewritten: it records the metadata, names, lengths and digests of the
snapshot. -/
structure Current (force : Bool) (toc : Toc) : Prop where
  force : force = false
  metadata : toc.metadata = identityMetadata manifest context
  files : toc.files.map (fun entry ↦ (entry.name, entry.length)) =
    (artifacts (manifestPairs scratch manifest)).map fun source ↦ (source.2.name, source.2.content.length)
  digests : toc.files.map FileEntry.sha256 =
    (artifacts (manifestPairs scratch manifest)).map fun source ↦ sha256 source.2.content

/-- A pair as the snapshot describes it. -/
def describe (pair : Artifact × Artifact) : SnapshotPair :=
  ⟨pair.1.name, pair.1.content.length, pair.2.name, pair.2.content.length⟩

/-- The scratch directory holds a pair. -/
structure Stored (pair : Artifact × Artifact) : Prop where
  pack : scratch pair.1.name = some (.regular pair.1.content)
  index : scratch pair.2.name = some (.regular pair.2.content)

variable {sha256 scratch manifest context} {hash : HashKind} {pack : PackDescriptor}

/-! ### Names -/

private theorem rootname_packName (id : Bytes) : rootname (packName id) = stem id :=
  @rootname_append (stem id) (Bytes.ascii "pack") (by decide)

private theorem rootname_indexName (id : Bytes) : rootname (indexName id) = stem id :=
  @rootname_append (stem id) (Bytes.ascii "idx") (by decide)

private theorem packFiles_pairOf (pack : PackDescriptor) : PackFiles (pairOf scratch pack) where
  pack := by
    rw [pairOf, rootname_packName]
    rfl
  index := by
    rw [pairOf, rootname_packName]
    rfl

private theorem perm_manifestPairs : (manifestPairs scratch manifest).Perm (manifest.packs.map (pairOf scratch)) :=
  List.mergeSort_perm _ _

private theorem packFiles_manifestPairs : ∀ pair ∈ manifestPairs scratch manifest, PackFiles pair := by
  intro pair hpair
  obtain ⟨pack, -, rfl⟩ := List.mem_map.mp (perm_manifestPairs.mem_iff.mp hpair)
  exact packFiles_pairOf pack

/-- Packs of different IDs have different names. -/
theorem nodup_packName (h : manifest.validate hash = .ok ()) :
    (manifest.packs.map fun pack ↦ packName pack.id).Nodup := by
  obtain ⟨-, -, -, hids⟩ := PackManifest.validate_eq_ok h
  have hinj : Function.Injective fun lower : Bytes ↦ Bytes.ascii "pack-" ++ lower ++ Bytes.ascii ".pack" :=
    fun a b hab ↦ List.append_cancel_left (List.append_cancel_right hab)
  have hnames := hids.map hinj
  rw [List.map_map] at hnames
  exact hnames

private theorem nodup_manifestPairs (h : manifest.validate hash = .ok ()) :
    ((manifestPairs scratch manifest).map (·.1.name)).Nodup := by
  refine (perm_manifestPairs.map _).nodup_iff.mpr ?_
  rw [List.map_map]
  exact nodup_packName h

private theorem sortPairs_manifestPairs (h : manifest.validate hash = .ok ()) :
    Writer.sortPairs (manifestPairs scratch manifest) = manifestPairs scratch manifest :=
  mergeSort_eq_of_perm (fun pair : Artifact × Artifact ↦ pair.1.name) perm_manifestPairs
    (nodup_manifestPairs h)

private theorem validateInventory_manifestPairs (h : manifest.validate hash = .ok ()) :
    validateInventory (manifestPairs scratch manifest) manifest.hash = .ok () := by
  obtain ⟨hkind, -, hpacks, -⟩ := PackManifest.validate_eq_ok h
  simp only [validateInventory, ensure_eq_ok]
  intro pair hpair
  obtain ⟨pack, hpack, rfl⟩ := List.mem_map.mp (perm_manifestPairs.mem_iff.mp hpair)
  obtain ⟨oid, hparse, hoid⟩ := (hpacks pack hpack).id
  have hdigest := packDigest_of_parseHex hparse
  rw [hoid, ← hkind] at hdigest
  simp only [pairOf, rootname_packName, rootname_indexName]
  exact ⟨trivial, isPackStem_iff.mpr ⟨_, hdigest, rfl⟩⟩

/-! ### The plan -/

private theorem validateSnapshotArtifact_eq_ok {name : Bytes} {size : ℕ}
    (h : validateSnapshotArtifact scratch name size = .ok ()) :
    scratch name = some (.regular (content scratch name)) ∧ (content scratch name).length = size := by
  cases hfile : scratch name with
  | none =>
    rw [validateSnapshotArtifact, hfile] at h
    cases h
  | some file =>
    cases file with
    | other =>
      rw [validateSnapshotArtifact, hfile] at h
      cases h
    | regular bytes =>
      rw [validateSnapshotArtifact, hfile] at h
      have hcontent : content scratch name = bytes := by rw [content, hfile]
      rw [hcontent]
      exact ⟨rfl, ensure_eq_ok.mp h⟩

private theorem snapshotPair_eq_ok {pair : SnapshotPair} (h : snapshotPair scratch pack = .ok pair) :
    describe (pairOf scratch pack) = pair ∧ Stored scratch (pairOf scratch pack) := by
  simp only [snapshotPair, Except.bind_eq_ok] at h
  obtain ⟨⟨⟩, -, ⟨⟩, hpack, ⟨⟩, hindex, heq⟩ := h
  cases heq
  obtain ⟨hpack, hpackSize⟩ := validateSnapshotArtifact_eq_ok hpack
  obtain ⟨hindex, hindexSize⟩ := validateSnapshotArtifact_eq_ok hindex
  refine ⟨?_, hpack, hindex⟩
  rw [← hpackSize, ← hindexSize]
  rfl

private theorem mapM_snapshotPair {packs : List PackDescriptor} {pairs : List SnapshotPair}
    (h : packs.mapM (snapshotPair scratch) = .ok pairs) :
    pairs = (packs.map (pairOf scratch)).map describe ∧
      ∀ pair ∈ packs.map (pairOf scratch), Stored scratch pair := by
  rw [Except.mapM_eq_ok] at h
  induction h with
  | nil => exact ⟨rfl, fun _ hmem ↦ absurd hmem List.not_mem_nil⟩
  | cons hpair _ ih =>
    obtain ⟨rfl, hstored⟩ := snapshotPair_eq_ok hpair
    obtain ⟨rfl, hrest⟩ := ih
    exact ⟨rfl, List.forall_mem_cons.mpr ⟨hstored, hrest⟩⟩

/-- The plan is the pairs of the manifest in the order in which the writer sorts them. -/
theorem snapshotPairs_eq_ok (hvalid : manifest.validate hash = .ok ()) {pairs : List SnapshotPair}
    (h : snapshotPairs scratch manifest = .ok pairs) :
    pairs = (manifestPairs scratch manifest).map describe ∧
      ∀ pair ∈ manifestPairs scratch manifest, Stored scratch pair := by
  simp only [snapshotPairs, Except.bind_eq_ok] at h
  obtain ⟨found, hfound, heq⟩ := h
  cases heq
  obtain ⟨rfl, hstored⟩ := mapM_snapshotPair hfound
  refine ⟨?_, fun pair hpair ↦ hstored pair (perm_manifestPairs.mem_iff.mp hpair)⟩
  have hnames : (((manifest.packs.map (pairOf scratch)).map describe).reverse.map
      SnapshotPair.packName).Nodup := by
    rw [List.map_reverse, List.nodup_reverse, List.map_map, List.map_map]
    exact nodup_packName hvalid
  have hmap := @List.map_mergeSort _ _ (fun a b : Artifact × Artifact ↦ decide (a.1.name ≤ b.1.name))
    (fun a b : SnapshotPair ↦ decide (a.packName ≤ b.packName)) describe
    (manifest.packs.map (pairOf scratch)) fun _ _ _ _ ↦ rfl
  rw [manifestPairs, Writer.sortPairs, hmap]
  exact mergeSort_eq_of_perm SnapshotPair.packName (List.reverse_perm _) hnames

private theorem snapshotMetadata_eq_ok {metadata : List (Bytes × Bytes)}
    (h : snapshotMetadata context manifest = .ok metadata) :
    metadata = identityMetadata manifest context ∧ (sourceIdentity context manifest).length ≤ 65536 := by
  simp only [snapshotMetadata, Except.bind_eq_ok, ensure_eq_ok] at h
  obtain ⟨-, hlength, heq⟩ := h
  cases heq
  exact ⟨rfl, hlength⟩

/-- The source identity is a text. -/
theorem validUtf8_sourceIdentity (h : validUtf8 manifest.generation = true) :
    validUtf8 (sourceIdentity context manifest) = true := by
  rw [sourceIdentity]
  cases hidentity : context.sourceIdentity with
  | some identity => exact context.valid identity hidentity
  | none =>
    have hlabel : validUtf8 (Bytes.ascii "packfetch:generation:") = true :=
      validUtf8_of_ascii (by decide +kernel)
    have happend := (ByteArray.validateUTF8_eq_true_iff.mp hlabel).append
      (ByteArray.validateUTF8_eq_true_iff.mp h)
    rw [Option.getD_none, validUtf8, ByteArray.validateUTF8_eq_true_iff]
    convert happend using 1
    ext1
    simp

/-! ### The change test -/

private theorem expectedFiles_describe (pairs : List (Artifact × Artifact)) :
    expectedFiles (pairs.map describe) =
      (artifacts pairs).map fun source ↦ (source.2.name, source.2.content.length) := by
  rw [expectedFiles, artifacts, List.flatMap_map, List.map_flatMap]
  rfl

private theorem stored_artifacts {pairs : List (Artifact × Artifact)} (h : ∀ pair ∈ pairs, Stored scratch pair) :
    ∀ source ∈ artifacts pairs, scratch source.2.name = some (.regular source.2.content) := by
  intro source hsource
  obtain ⟨pair, hpair, hsource⟩ := List.mem_flatMap.mp hsource
  simp only [List.mem_cons, List.not_mem_nil, or_false] at hsource
  rcases hsource with rfl | rfl
  · exact (h pair hpair).pack
  · exact (h pair hpair).index

private theorem hashFile_of_stored {name bytes : Bytes} (h : scratch name = some (.regular bytes)) :
    hashFile sha256 scratch name = .ok (sha256 bytes) := by
  rw [hashFile, readArtifact, h]
  rfl

/-- The hashes changed when one of them did. -/
theorem snapshotHashesChanged_eq {sources : List (FileKind × Artifact)} {entries : List FileEntry}
    (hstored : ∀ source ∈ sources, scratch source.2.name = some (.regular source.2.content))
    (hlength : entries.length = sources.length) :
    snapshotHashesChanged sha256 scratch (entries.zip (sources.map (·.2.name))) =
      .ok (decide (entries.map FileEntry.sha256 ≠ sources.map fun source ↦ sha256 source.2.content)) := by
  induction sources generalizing entries with
  | nil =>
    obtain rfl := List.length_eq_zero_iff.mp hlength
    rfl
  | cons source sources ih =>
    obtain ⟨hsource, hstored⟩ := List.forall_mem_cons.mp hstored
    cases entries with
    | nil => cases hlength
    | cons entry entries =>
      have hrest := ih hstored (Nat.succ.inj hlength)
      simp only [List.map_cons, List.zip_cons_cons, snapshotHashesChanged, hashFile_of_stored hsource]
      by_cases hsame : sha256 source.2.content = entry.sha256
      · simp only [bind, Except.bind, hsame, if_true, hrest, ne_eq, List.cons.injEq, true_and]
      · have hne : ¬ (entry.sha256 = sha256 source.2.content) := fun heq ↦ hsame heq.symm
        simp only [bind, Except.bind, if_neg hsame, ne_eq, List.cons.injEq, hne, false_and,
          not_false_eq_true, decide_true]
        rfl

/-- The test answers, and finds no change when the bundle is current. -/
theorem snapshotChanged_eq (hstored : ∀ pair ∈ manifestPairs scratch manifest, Stored scratch pair)
    (toc : Toc) (force : Bool) : ∃ changed, snapshotChanged sha256 scratch (some toc)
        ((manifestPairs scratch manifest).map describe) (identityMetadata manifest context) force =
          .ok changed ∧ (changed = false ↔ Current sha256 scratch manifest context force toc) := by
  rw [snapshotChanged, expectedFiles_describe]
  cases force with
  | true => exact ⟨true, rfl, iff_of_false nofun fun h ↦ nomatch h.force⟩
  | false =>
    rw [if_neg Bool.false_ne_true]
    by_cases hmetadata : toc.metadata = identityMetadata manifest context
    · rw [if_pos hmetadata]
      by_cases hfiles : toc.files.map (fun entry ↦ (entry.name, entry.length)) =
          (artifacts (manifestPairs scratch manifest)).map fun source ↦
            (source.2.name, source.2.content.length)
      · have hlength : toc.files.length = (artifacts (manifestPairs scratch manifest)).length := by
          simpa using congrArg List.length hfiles
        have hhashes := @snapshotHashesChanged_eq sha256 _ _ _ (stored_artifacts hstored) hlength
        rw [if_pos hfiles, List.map_map]
        refine ⟨_, hhashes, ?_⟩
        rw [decide_eq_false_iff_not, not_not]
        exact ⟨fun hdigests ↦ ⟨rfl, hmetadata, hfiles, hdigests⟩, fun h ↦ h.digests⟩
      · rw [if_neg hfiles]
        exact ⟨true, rfl, iff_of_false nofun fun h ↦ hfiles h.files⟩
    · rw [if_neg hmetadata]
      exact ⟨true, rfl, iff_of_false nofun fun h ↦ hmetadata h.metadata⟩

/-! ### One call -/

variable (scratch manifest context hash) in
/-- What every call finds before it looks at the bundle. -/
structure Ready : Prop where
  accepted : validateSnapshotManifest manifest hash = .ok ()
  metadata : snapshotMetadata context manifest = .ok (identityMetadata manifest context)
  pairs : snapshotPairs scratch manifest = .ok ((manifestPairs scratch manifest).map describe)
  stored : ∀ pair ∈ manifestPairs scratch manifest, Stored scratch pair
  generation : validUtf8 manifest.generation = true
  identity : (sourceIdentity context manifest).length ≤ 65536

variable (sha256 scratch manifest context) in
/-- What the writer is given for a generation. -/
def writerInput (generation : ℕ) : Writer.Input :=
  ⟨manifestPairs scratch manifest, manifest.hash, generation, identityMetadata manifest context, [], []⟩

/-- The writer reads the files of the plan. -/
theorem mapM_writerPair {pairs : List (Artifact × Artifact)} (h : ∀ pair ∈ pairs, Stored scratch pair) :
    (pairs.map describe).mapM (writerPair scratch) = .ok pairs := by
  rw [Except.mapM_eq_ok, List.forall₂_map_left_iff, List.forall₂_same]
  intro pair hpair
  have hstored := h pair hpair
  simp only [writerPair, describe, readArtifact, hstored.pack, hstored.index]
  rfl

variable {before written : Option Bytes} {force : Bool}

/-- A call that succeeds found what it needs, and either left a current bundle alone or wrote the next
generation. -/
theorem persistBundle_eq_ok (hvalid : manifest.validate hash = .ok ())
    (h : persistBundle sha256 scratch hash manifest context before force = .ok written) :
    Ready scratch manifest context hash ∧
      ((∃ file toc, before = some file ∧ parse sha256 file = .ok toc ∧
          Current sha256 scratch manifest context force toc ∧ written = none) ∨
        ∃ generation receipt file, written = some file ∧
          Writer.write sha256 (writerInput scratch manifest context generation) = .ok (receipt, file) ∧
          (before = none ∧ generation = 1 ∨
            ∃ old toc, before = some old ∧ parse sha256 old = .ok toc ∧
              ¬ Current sha256 scratch manifest context force toc ∧ generation = toc.generation + 1)) := by
  simp only [persistBundle, Except.bind_eq_ok] at h
  obtain ⟨⟨⟩, hmanifest, metadata, hmetadata, pairs, hpairs, found, hfound, changed, hchanged, h⟩ := h
  obtain ⟨rfl, hidentity⟩ := snapshotMetadata_eq_ok hmetadata
  obtain ⟨rfl, hstored⟩ := snapshotPairs_eq_ok hvalid hpairs
  have hgeneration : validUtf8 manifest.generation = true := by
    simp only [validateSnapshotManifest, Except.bind_eq_ok, ensure_eq_ok, exists_const] at hmanifest
    exact hmanifest.2
  refine ⟨⟨hmanifest, hmetadata, hpairs, hstored, hgeneration, hidentity⟩, ?_⟩
  have hwrite (hyes : changed = true) : ∃ receipt file, written = some file ∧ Writer.write sha256
      (writerInput scratch manifest context (found.elim 1 (·.generation + 1))) = .ok (receipt, file) := by
    subst hyes
    simp only [maybeWriteSnapshot, mapM_writerPair hstored, Except.bind_eq_ok] at h
    obtain ⟨pairs, hpairs, ⟨receipt, file⟩, hfile, heq⟩ := h
    cases hpairs
    cases heq
    refine ⟨receipt, file, rfl, ?_⟩
    rw [writerInput]
    cases hwriter : Writer.write sha256 ⟨manifestPairs scratch manifest, manifest.hash,
      found.elim 1 (·.generation + 1), identityMetadata manifest context, [], []⟩ with
    | error error =>
      rw [hwriter] at hfile
      cases hfile
    | ok result =>
      rw [hwriter] at hfile
      exact congrArg Except.ok (Except.ok.inj hfile)
  rcases BundlePath.classifyDestination_eq_ok hfound with ⟨rfl, rfl⟩ | ⟨file, toc, rfl, hparse, rfl⟩
  · cases hchanged
    obtain ⟨receipt, file, hwritten, hfile⟩ := hwrite rfl
    exact .inr ⟨1, receipt, file, hwritten, hfile, .inl ⟨rfl, rfl⟩⟩
  · obtain ⟨answer, hanswer, hcurrent⟩ :=
      @snapshotChanged_eq sha256 scratch manifest context hstored toc force
    rw [hanswer] at hchanged
    cases hchanged
    cases changed with
    | false =>
      cases h
      exact .inl ⟨file, toc, rfl, hparse, hcurrent.mp rfl, rfl⟩
    | true =>
      obtain ⟨receipt, file', hwritten, hfile⟩ := hwrite rfl
      refine .inr ⟨toc.generation + 1, receipt, file', hwritten, hfile,
        .inr ⟨file, toc, rfl, hparse, ?_, rfl⟩⟩
      exact fun h ↦ nomatch hcurrent.mpr h

/-- A bundle that is not current is replaced by what the writer publishes. -/
theorem persistBundle_of_changed (hready : Ready scratch manifest context hash) {found : Option Toc}
    {receipt : Writer.Receipt} {file : Bytes} (hfound : classifyDestination sha256 before = .ok found)
    (hchanged : ∀ toc ∈ found, ¬ Current sha256 scratch manifest context force toc)
    (hwrite : Writer.write sha256 (writerInput scratch manifest context
      (found.elim 1 (·.generation + 1))) = .ok (receipt, file)) :
    persistBundle sha256 scratch hash manifest context before force = .ok (some file) := by
  have hanswer : snapshotChanged sha256 scratch found ((manifestPairs scratch manifest).map describe)
      (identityMetadata manifest context) force = .ok true := by
    cases found with
    | none => rfl
    | some toc =>
      obtain ⟨answer, hanswer, hcurrent⟩ :=
        @snapshotChanged_eq sha256 scratch manifest context hready.stored toc force
      cases answer with
      | false => exact absurd (hcurrent.mp rfl) (hchanged toc rfl)
      | true => exact hanswer
  have hfile : maybeWriteSnapshot sha256 scratch manifest (identityMetadata manifest context)
      ((manifestPairs scratch manifest).map describe) found true = .ok (some file) := by
    rw [writerInput] at hwrite
    simp only [maybeWriteSnapshot, mapM_writerPair hready.stored, Except.bind_eq_ok]
    exact ⟨_, rfl, (receipt, file), by rw [hwrite]; rfl, rfl⟩
  simp only [persistBundle, Except.bind_eq_ok]
  exact ⟨(), hready.accepted, _, hready.metadata, _, hready.pairs, _, hfound, _, hanswer, hfile⟩

/-- A current bundle is left alone. -/
theorem persistBundle_of_current (hready : Ready scratch manifest context hash) {file : Bytes} {toc : Toc}
    (hparse : parse sha256 file = .ok toc) (h : Current sha256 scratch manifest context force toc) :
    persistBundle sha256 scratch hash manifest context (some file) force = .ok none := by
  obtain ⟨answer, hanswer, hcurrent⟩ := snapshotChanged_eq hready.stored toc force
  rw [hcurrent.mpr h] at hanswer
  have hfound : classifyDestination sha256 (some file) = .ok (some toc) := by
    simp only [classifyDestination, hparse]
  simp only [persistBundle, Except.bind_eq_ok]
  exact ⟨(), hready.accepted, _, hready.metadata, _, hready.pairs, _, hfound, _, hanswer, rfl⟩

/-! ### Exact bundles -/

private theorem mem_sources {source : FileKind × Artifact} {pairs : List (Artifact × Artifact)}
    (hstored : ∀ pair ∈ pairs, Stored scratch pair) (h : source ∈ artifacts pairs) :
    ∃ name, scratch name = some (.regular source.2.content) :=
  ⟨_, stored_artifacts hstored source h⟩

private theorem metadataRow_identity (hready : Ready scratch manifest context hash) :
    ∀ row ∈ identityMetadata manifest context, MetadataRow row ∧ row.1 ≠ Bytes.ascii "shallow_roots" := by
  intro row hrow
  obtain rfl := List.mem_singleton.mp hrow
  have hlength : 1 ≤ (Bytes.ascii "source_identity").length ∧
      (Bytes.ascii "source_identity").length ≤ 4096 := by decide
  have hascii : ∀ byte ∈ Bytes.ascii "source_identity", byte < 128 := by decide +kernel
  have hne : Bytes.ascii "source_identity" ≠ Bytes.ascii "shallow_roots" := by decide
  exact ⟨⟨⟨hlength.1, hlength.2, validUtf8_of_ascii hascii⟩, hready.identity,
    validUtf8_sourceIdentity hready.generation⟩, hne⟩

/-- What the writer publishes under a generation of the format opens. -/
theorem opens_of_write (hsha : ∀ bytes, (sha256 bytes).length = 32)
    (hvalid : manifest.validate hash = .ok ()) (hready : Ready scratch manifest context hash)
    {generation : ℕ} {receipt : Writer.Receipt} {file : Bytes}
    (hgeneration : 1 ≤ generation ∧ generation < 2 ^ 64)
    (h : Writer.write sha256 (writerInput scratch manifest context generation) = .ok (receipt, file)) :
    ∃ toc, Writer.Opens sha256 (writerInput scratch manifest context generation) file toc := by
  have hnames : ((writerInput scratch manifest context generation).refs.map RefEntry.name).Nodup :=
    List.nodup_nil
  have hkeys : ((identityMetadata manifest context).map Prod.fst).Nodup := List.nodup_singleton _
  have hsource : ∃ row ∈ identityMetadata manifest context, row.1 = Bytes.ascii "source_identity" :=
    ⟨_, List.mem_singleton_self _, rfl⟩
  have hcontents := Writer.contents_valid hsha packFiles_manifestPairs (nodup_manifestPairs hvalid)
    (validateInventory_manifestPairs hvalid) (metadataRow_identity hready) hkeys hsource hgeneration
    (fun _ hrow ↦ absurd hrow List.not_mem_nil) hnames h
  exact ⟨_, Writer.opens_of_valid hsha hcontents List.Pairwise.nil h⟩

private theorem exact_of_opens (hvalid : manifest.validate hash = .ok ()) {generation : ℕ} {file : Bytes}
    {toc : Toc} (h : Writer.Opens sha256 (writerInput scratch manifest context generation) file toc) :
    Exact sha256 scratch manifest context file toc := by
  refine ⟨h.parsed, List.perm_singleton.mp h.metadata, h.refs, ?_⟩
  have hfiles := h.files
  rw [writerInput, sortPairs_manifestPairs hvalid] at hfiles
  exact hfiles

/-- The kinds of the sections alternate. -/
theorem kinds_of_length {digests digests' : List Bytes}
    (h : (digests.flatMap packPair).length = (digests'.flatMap packPair).length) :
    (digests.flatMap packPair).map Prod.fst = (digests'.flatMap packPair).map Prod.fst := by
  induction digests generalizing digests' with
  | nil =>
    rw [List.length_eq_zero_iff.mp h.symm]
    rfl
  | cons digest digests ih =>
    cases digests' with
    | nil => cases h
    | cons digest' digests' =>
      have hrest := @ih digests' (Nat.succ.inj (Nat.succ.inj h))
      simp only [List.flatMap_cons, List.map_append, hrest]
      rfl

private theorem undamaged_of_sectionOf {file : Bytes} {entries : List FileEntry}
    {sources : List (FileKind × Artifact)} (h : List.Forall₂ (SectionOf sha256 file) entries sources) :
    entries.any (sectionDamaged sha256 file) = false := by
  induction h with
  | nil => rfl
  | cons hsection _ ih =>
    rw [List.any_cons, ih, sectionDamaged, hsection.bytes, hsection.sha256]
    simp

/-- Sections that agree with their sources in name, length and digest hold their bytes when no digest is
that of other bytes. -/
theorem sectionOf_of_digests {file : Bytes} {entries : List FileEntry}
    {sources : List (FileKind × Artifact)} (hkinds : entries.map FileEntry.kind = sources.map Prod.fst)
    (hfiles : entries.map (fun entry ↦ (entry.name, entry.length)) =
      sources.map fun source ↦ (source.2.name, source.2.content.length))
    (hdigests : entries.map FileEntry.sha256 = sources.map fun source ↦ sha256 source.2.content)
    (hsections : ∀ entry ∈ entries, sectionDamaged sha256 file entry = false)
    (hcollision : ∀ entry ∈ entries, ∀ source ∈ sources,
      sha256 ((file.drop entry.offset).take entry.length) = sha256 source.2.content →
        (file.drop entry.offset).take entry.length = source.2.content) :
    List.Forall₂ (SectionOf sha256 file) entries sources := by
  induction sources generalizing entries with
  | nil =>
    obtain rfl := List.map_eq_nil_iff.mp hkinds
    exact .nil
  | cons source sources ih =>
    cases entries with
    | nil => cases hkinds
    | cons entry entries =>
      obtain ⟨hkind, hkinds⟩ := List.cons.inj hkinds
      obtain ⟨hfile, hfiles⟩ := List.cons.inj hfiles
      obtain ⟨hdigest, hdigests⟩ := List.cons.inj hdigests
      obtain ⟨hsection, hsections⟩ := List.forall_mem_cons.mp hsections
      obtain ⟨hname, hlength⟩ := Prod.mk.inj hfile
      have hbytes := hcollision entry List.mem_cons_self source List.mem_cons_self
      have hsound : sha256 ((file.drop entry.offset).take entry.length) = entry.sha256 := by
        simpa [sectionDamaged] using hsection
      refine .cons ⟨hkind, hname, hlength, hbytes (hsound.trans hdigest), hdigest⟩
        (ih hkinds hfiles hdigests hsections fun entry hentry source hsource ↦ ?_)
      exact hcollision entry (List.mem_cons_of_mem _ hentry) source (List.mem_cons_of_mem _ hsource)

variable (sha256 scratch) in
/-- SHA-256 tells the sections of a bundle from the files of the scratch directory. -/
def Separates (destination : Option Bytes) : Prop :=
  ∀ file toc, destination = some file → parse sha256 file = .ok toc → ∀ entry ∈ toc.files,
    ∀ name content, scratch name = some (.regular content) →
      sha256 ((file.drop entry.offset).take entry.length) = sha256 content →
        (file.drop entry.offset).take entry.length = content

/-- A current bundle is exact when it holds no references and none of its sections is damaged. -/
theorem exact_iff_of_current (hvalid : manifest.validate hash = .ok ())
    (hready : Ready scratch manifest context hash) {file : Bytes} {toc : Toc}
    (hcollision : Separates sha256 scratch (some file)) (hparse : parse sha256 file = .ok toc)
    (hcurrent : Current sha256 scratch manifest context force toc) :
    Exact sha256 scratch manifest context file toc ↔
      toc.refs = [] ∧ extractBundle sha256 file toc = false := by
  constructor
  · exact fun h ↦ ⟨h.refs, undamaged_of_sectionOf h.files⟩
  · rintro ⟨hrefs, hsections⟩
    refine ⟨hparse, hcurrent.metadata, hrefs, sectionOf_of_digests ?_ hcurrent.files hcurrent.digests
      (fun entry hentry ↦ by simpa using List.any_eq_false.mp hsections entry hentry) ?_⟩
    · obtain ⟨c, ⟨hcontents, -, -⟩, rfl⟩ := parse_eq_ok.mp hparse
      obtain ⟨digests, -, hpaired⟩ := hcontents.content.paired
      obtain ⟨digests', -, hpaired', -⟩ :=
        artifacts_paired packFiles_manifestPairs (@validateInventory_manifestPairs scratch _ _ hvalid)
      have hlength : (digests.flatMap packPair).length = (digests'.flatMap packPair).length := by
        have hcount := congrArg List.length hcurrent.files
        rw [List.length_map, List.length_map] at hcount
        rw [← hpaired, ← hpaired', List.length_map, List.length_map]
        exact hcount
      have hkinds := kinds_of_length hlength
      rw [← hpaired, ← hpaired', List.map_map, List.map_map] at hkinds
      exact hkinds
    · intro entry hentry source hsource
      obtain ⟨name, hname⟩ := mem_sources hready.stored hsource
      exact hcollision file toc rfl hparse entry hentry name source.2.content hname

/-- An exact bundle is current. -/
theorem Exact.current {file : Bytes} {toc : Toc} (h : Exact sha256 scratch manifest context file toc) :
    Current sha256 scratch manifest context false toc := by
  have hrows {β : Type} {f : FileEntry → β} {g : FileKind × Artifact → β}
      (hrow : ∀ entry source, SectionOf sha256 file entry source → f entry = g source) :
      toc.files.map f = (artifacts (manifestPairs scratch manifest)).map g := by
    rw [← List.forall₂_eq_eq_eq, List.forall₂_map_left_iff, List.forall₂_map_right_iff]
    exact h.files.imp hrow
  refine ⟨rfl, h.metadata, hrows fun entry source hsection ↦ ?_, hrows fun entry source hsection ↦ ?_⟩
  · rw [hsection.name, hsection.length]
  · exact hsection.sha256

/-- A generation beyond the maximum wraps to a field that every reader refuses. -/
theorem parse_of_overflow (hsha : ∀ bytes, (sha256 bytes).length = 32) {receipt : Writer.Receipt}
    {file : Bytes} {toc : Toc} (h : Writer.write sha256
      (writerInput scratch manifest context (maximumGeneration + 1)) = .ok (receipt, file)) :
    parse sha256 file ≠ .ok toc := by
  intro hparse
  have hbytes := BundlePath.toLe_generation_of_parse hsha h hparse
  obtain ⟨hmin, hmax⟩ := BundlePath.generation_bounds hparse
  have hfits : toc.generation < 256 ^ 8 := lt_of_le_of_lt hmax (by decide)
  have hzero : toc.generation = 0 :=
    calc toc.generation = Bytes.ofLe (Bytes.toLe 8 toc.generation) := (Bytes.ofLe_toLe_of_lt hfits).symm
      _ = (maximumGeneration + 1) % 256 ^ 8 := by rw [hbytes, Bytes.ofLe_toLe, writerInput]
      _ = 0 := by decide
  omega

/-- A successful call leaves an exact bundle that the next call does not touch if and only if it does not
follow the last generation, and leaves nothing alone but undamaged bundles without references. -/
theorem persistBundle_exact_iff (hsha : ∀ bytes, (sha256 bytes).length = 32)
    (hvalid : manifest.validate hash = .ok ()) (hcollision : Separates sha256 scratch before)
    (h : persistBundle sha256 scratch hash manifest context before force = .ok written) :
    ((∃ file toc, written.or before = some file ∧ Exact sha256 scratch manifest context file toc) ∧
        persistBundle sha256 scratch hash manifest context (written.or before) false = .ok none) ↔
      ∀ file toc, before = some file → parse sha256 file = .ok toc →
        (¬ Current sha256 scratch manifest context force toc → toc.generation ≠ maximumGeneration) ∧
          (Current sha256 scratch manifest context force toc →
            toc.refs = [] ∧ extractBundle sha256 file toc = false) := by
  obtain ⟨hready, hcase⟩ := persistBundle_eq_ok hvalid h
  -- An exact bundle is current, so the second call finds nothing to write.
  have hagain {file : Bytes} {toc : Toc} (hexact : Exact sha256 scratch manifest context file toc) :
      persistBundle sha256 scratch hash manifest context (some file) false = .ok none :=
    persistBundle_of_current hready hexact.parsed hexact.current
  rcases hcase with ⟨file, toc, rfl, hparse, hcurrent, rfl⟩ |
    ⟨generation, receipt, file, rfl, hwrite, hbefore⟩
  · have hiff := exact_iff_of_current hvalid hready hcollision hparse hcurrent
    constructor
    · rintro ⟨⟨file', toc', hfile, hexact⟩, -⟩ file'' toc'' hfile'' hparse''
      cases hfile
      cases hfile''
      have hsame := hexact.parsed.symm.trans hparse''
      cases hsame
      have hsame := hparse.symm.trans hparse''
      cases hsame
      exact ⟨fun hstale ↦ absurd hcurrent hstale, fun _ ↦ hiff.mp hexact⟩
    · intro hcondition
      have hexact := hiff.mpr ((hcondition file toc rfl hparse).2 hcurrent)
      exact ⟨⟨file, toc, rfl, hexact⟩, hagain hexact⟩
  · constructor
    · rintro ⟨⟨file', toc', hfile, hexact⟩, -⟩ old toc hold hparse
      cases hfile
      rcases hbefore with ⟨rfl, -⟩ | ⟨old', found, rfl, hfound, hstale, rfl⟩
      · cases hold
      · cases hold
        cases hfound.symm.trans hparse
        refine ⟨fun _ hmax ↦ ?_, fun hcurrent ↦ absurd hcurrent hstale⟩
        rw [hmax] at hwrite
        exact parse_of_overflow hsha hwrite hexact.parsed
    · intro hcondition
      have hgeneration : 1 ≤ generation ∧ generation < 2 ^ 64 := by
        rcases hbefore with ⟨-, rfl⟩ | ⟨old, toc, rfl, hparse, hstale, rfl⟩
        · decide
        · have hne := (hcondition old toc rfl hparse).1 hstale
          have hbound := (BundlePath.generation_bounds hparse).2
          simp only [maximumGeneration] at hne hbound
          omega
      obtain ⟨toc, hopens⟩ := opens_of_write hsha hvalid hready hgeneration hwrite
      have hexact := exact_of_opens hvalid hopens
      exact ⟨⟨file, toc, rfl, hexact⟩, hagain hexact⟩

/-! ### A pair, and the last generation -/

/-- A manifest without packs, or with one. -/
def sampleManifest (packs : List PackDescriptor) : PackManifest := ⟨1, Bytes.ascii "1", .sha1, packs, []⟩

/-- A pack of one byte with an index of one byte. -/
def samplePack : PackDescriptor :=
  ⟨Bytes.ascii "0000000000000000000000000000000000000000", Bytes.ascii "pack", Bytes.ascii "index", 1, 1,
    none⟩

/-- A scratch directory that holds the pack. -/
def sampleScratch : Scratch := fun name ↦
  if name = packName samplePack.id then some (.regular [1])
  else if name = indexName samplePack.id then some (.regular [2])
  else none

/-- A context with an ASCII identity. -/
def sampleContext (identity : Bytes) (h : ∀ byte ∈ identity, byte < 128) : BundleContext where
  sourceIdentity := some identity
  valid := by
    rintro _ ⟨⟩
    exact validUtf8_of_ascii h

private theorem sample_write (hsha : ∀ bytes, (sha256 bytes).length = 32) {pairs : List (Artifact × Artifact)}
    {identity : Bytes} (generation : ℕ) (hsort : Writer.sortPairs pairs = pairs)
    (hpos : ∀ source ∈ artifacts pairs, 0 < source.2.content.length)
    (hrows : ((sectionRows sha256 headerSize (artifacts pairs)).flatMap encodeFile).length ≤ 2 ^ 20)
    (hbody : headerSize + (sectionBytes (artifacts pairs)).length < 2 ^ 62)
    (hidentity : identity.length ≤ 2 ^ 20) :
    ∃ receipt file, Writer.write sha256 ⟨pairs, .sha1, generation,
      [(Bytes.ascii "source_identity", identity)], [], []⟩ = .ok (receipt, file) := by
  apply Writer.write_of_fits hsha
  · rw [hsort]
    exact hpos
  · have hkey : (Bytes.ascii "source_identity").length = 15 := by decide
    have htoc : (Writer.Input.contents sha256 ⟨pairs, .sha1, generation,
        [(Bytes.ascii "source_identity", identity)], [], []⟩).toc = encodeToc ⟨.sha1, generation,
          [(Bytes.ascii "source_identity", identity)], sectionRows sha256 headerSize (artifacts pairs),
          []⟩ := by
      rw [Contents.toc, Writer.Input.contents, List.append_nil, hsort]
      rfl
    rw [htoc, Writer.length_encodeToc]
    simp only [encodeSorted, encodeMetadata, lengthPrefixed, List.flatMap_cons, List.flatMap_nil,
      List.length_cons, List.length_append, List.length_nil, Bytes.length_toLe, hkey, maxTocLen]
    omega
  · rw [← hsort] at hbody
    exact hbody

private theorem ready_sample {packs : List PackDescriptor} {identity : Bytes} {h : ∀ byte ∈ identity, byte < 128}
    (hidentity : identity.length ≤ 65536) (hsort : Writer.sortPairs (packs.map (pairOf scratch)) =
      packs.map (pairOf scratch)) (hpairs : snapshotPairs scratch (sampleManifest packs) =
        .ok ((packs.map (pairOf scratch)).map describe))
    (hstored : ∀ pair ∈ packs.map (pairOf scratch), Stored scratch pair) :
    Ready scratch (sampleManifest packs) (sampleContext identity h) .sha1 := by
  have hgeneration : validUtf8 (Bytes.ascii "1") = true := validUtf8_of_ascii (by decide +kernel)
  have hmanifest : manifestPairs scratch (sampleManifest packs) = packs.map (pairOf scratch) := hsort
  refine ⟨?_, ?_, ?_, ?_, hgeneration, hidentity⟩
  · simp only [validateSnapshotManifest, Except.bind_eq_ok, ensure_eq_ok, exists_const]
    exact ⟨⟨rfl, rfl⟩, hgeneration⟩
  · simp only [snapshotMetadata, Except.bind_eq_ok, ensure_eq_ok, exists_const]
    exact ⟨hidentity, rfl⟩
  · rw [hmanifest]
    exact hpairs
  · rw [hmanifest]
    exact hstored

/-- The digest of the table of contents of the pair. -/
def pairDigest : Bytes :=
  [0x74, 0xd3, 0xed, 0xa2, 0xed, 0xb0, 0xb3, 0x14, 0xac, 0x87, 0x82, 0xd3, 0x48, 0x3c, 0x81, 0x68,
    0x45, 0x4a, 0x13, 0x67, 0x0f, 0x41, 0x2d, 0xd7, 0xe6, 0xd4, 0xc4, 0x33, 0x07, 0x66, 0x8b, 0xc5]

private theorem sample_pair : pairOf sampleScratch samplePack =
    (⟨packName samplePack.id, [1]⟩, ⟨indexName samplePack.id, [2]⟩) := by
  have hpack : sampleScratch (packName samplePack.id) = some (.regular [1]) := if_pos rfl
  have hindex : sampleScratch (indexName samplePack.id) = some (.regular [2]) := by
    rw [sampleScratch, if_neg (by decide), if_pos rfl]
  rw [pairOf, content, hpack, content, hindex]

/-- The source identities of the samples are ASCII. -/
theorem identities_ascii : ∀ identity ∈ [Bytes.ascii "sample", Bytes.ascii "old", Bytes.ascii "new"],
    ∀ byte ∈ identity, byte < 128 := by
  decide +kernel

private theorem sample_ascii : ∀ byte ∈ Bytes.ascii "sample", byte < 128 :=
  identities_ascii _ List.mem_cons_self

private theorem sample_ready : Ready sampleScratch (sampleManifest [samplePack])
    (sampleContext (Bytes.ascii "sample") sample_ascii) .sha1 := by
  have hpack : sampleScratch (packName samplePack.id) = some (.regular [1]) := if_pos rfl
  have hindex : sampleScratch (indexName samplePack.id) = some (.regular [2]) := by
    rw [sampleScratch, if_neg (by decide), if_pos rfl]
  refine ready_sample (by decide) (List.mergeSort_singleton _) ?_ ?_
  · have hpair : snapshotPair sampleScratch samplePack =
        .ok (describe (pairOf sampleScratch samplePack)) := by
      simp only [snapshotPair, validateSnapshotArtifact, hpack, hindex, sample_pair]
      rfl
    simp only [snapshotPairs, sampleManifest, Except.bind_eq_ok, Except.mapM_eq_ok]
    exact ⟨_, .cons hpair .nil, congrArg Except.ok (List.mergeSort_singleton _)⟩
  · intro pair hpair
    obtain rfl := List.mem_singleton.mp hpair
    rw [sample_pair]
    exact ⟨hpack, hindex⟩

/-- A pair is published to an empty path. -/
theorem persistBundle_exact_sample : ∃ file,
    (∃ toc, Exact (Writer.sampleSha256 pairDigest) sampleScratch (sampleManifest [samplePack])
        (sampleContext (Bytes.ascii "sample") sample_ascii) file toc) ∧
      persistBundle (Writer.sampleSha256 pairDigest) sampleScratch .sha1 (sampleManifest [samplePack])
        (sampleContext (Bytes.ascii "sample") sample_ascii) (some file) false = .ok none := by
  have hsha := Writer.length_sampleSha256 (show pairDigest.length = 32 from rfl)
  have hsort : manifestPairs sampleScratch (sampleManifest [samplePack]) =
      [(⟨packName samplePack.id, [1]⟩, ⟨indexName samplePack.id, [2]⟩)] := by
    rw [← sample_pair]
    exact List.mergeSort_singleton _
  obtain ⟨receipt, file, hwrite⟩ : ∃ receipt file, Writer.write (Writer.sampleSha256 pairDigest)
      (writerInput sampleScratch (sampleManifest [samplePack])
        (sampleContext (Bytes.ascii "sample") sample_ascii) 1) = .ok (receipt, file) := by
    rw [writerInput, hsort]
    have hrows : ((sectionRows (Writer.sampleSha256 pairDigest) headerSize (artifacts
        [(⟨packName samplePack.id, [1]⟩, ⟨indexName samplePack.id, [2]⟩)])).flatMap encodeFile).length =
          205 := rfl
    exact sample_write hsha 1 (List.mergeSort_singleton _) (by decide) (by rw [hrows]; decide) (by decide)
      (by decide)
  have hvalid : (sampleManifest [samplePack]).validate .sha1 = .ok () := by rfl
  have hpersist : persistBundle (Writer.sampleSha256 pairDigest) sampleScratch .sha1
      (sampleManifest [samplePack]) (sampleContext (Bytes.ascii "sample") sample_ascii) none false =
        .ok (some file) := persistBundle_of_changed sample_ready rfl (fun toc htoc ↦ nomatch htoc) hwrite
  have hexact := (persistBundle_exact_iff hsha hvalid
    (fun _ _ hfile ↦ absurd hfile (Option.some_ne_none _).symm) hpersist).mpr
    (fun _ _ hfile ↦ absurd hfile (Option.some_ne_none _).symm)
  obtain ⟨⟨file', toc, hfile, hexact⟩, hagain⟩ := hexact
  cases hfile
  exact ⟨file, ⟨toc, hexact⟩, hagain⟩

/-- The digests of the tables of contents of the last generation and of what replaces it. -/
def lastSha256 (bytes : Bytes) : Bytes :=
  if (bytes.drop 1).take 1 = [0xff] then
    [0xa0, 0x49, 0x52, 0x2e, 0x25, 0xd9, 0xc9, 0x6f, 0x8f, 0xb6, 0x79, 0x3e, 0x52, 0x4d, 0xe4, 0x48,
      0xee, 0xb7, 0xa7, 0xdf, 0x17, 0x57, 0xd7, 0x5e, 0x81, 0xf4, 0x39, 0xd3, 0xc5, 0xa1, 0x24, 0x28]
  else
    [0xd9, 0xf2, 0x86, 0x22, 0x30, 0xd1, 0xb7, 0x3e, 0xd3, 0x2b, 0x57, 0x39, 0x28, 0xf0, 0x15, 0x17,
      0x97, 0x3c, 0x4c, 0xb0, 0x94, 0x0a, 0x81, 0x08, 0x60, 0xf4, 0xa6, 0xab, 0xb1, 0x14, 0x27, 0xfb]

/-- The sample identities are ASCII. -/
theorem old_ascii : ∀ byte ∈ Bytes.ascii "old", byte < 128 :=
  identities_ascii _ (List.mem_cons_of_mem _ List.mem_cons_self)

/-- The sample identities are ASCII. -/
theorem new_ascii : ∀ byte ∈ Bytes.ascii "new", byte < 128 :=
  identities_ascii _ (List.mem_cons_of_mem _ (List.mem_cons_of_mem _ List.mem_cons_self))

private theorem ready_empty {identity : Bytes} (hascii : ∀ byte ∈ identity, byte < 128) (h : identity.length ≤ 65536) :
    Ready (fun _ ↦ none) (sampleManifest []) (sampleContext identity hascii) .sha1 :=
  ready_sample h List.mergeSort_nil (congrArg Except.ok List.mergeSort_nil)
    fun _ hmem ↦ absurd hmem List.not_mem_nil

private theorem write_empty (hsha : ∀ bytes, (sha256 bytes).length = 32) {identity : Bytes}
    (hascii : ∀ byte ∈ identity, byte < 128) (h : identity.length ≤ 65536) (generation : ℕ) :
    ∃ receipt file, Writer.write sha256 (writerInput (fun _ ↦ none) (sampleManifest [])
      (sampleContext identity hascii) generation) = .ok (receipt, file) := by
  have hsort : manifestPairs (fun _ ↦ none) (sampleManifest []) = [] := List.mergeSort_nil
  rw [writerInput, hsort]
  exact sample_write hsha generation List.mergeSort_nil (by decide) (Nat.zero_le _) (by decide)
    (h.trans (by decide))

/-- The bundle of an empty manifest is replaced when the source identity changes. -/
theorem persist_new_identity (hsha : ∀ bytes, (sha256 bytes).length = 32) {generation : ℕ}
    (hgeneration : 1 ≤ generation ∧ generation ≤ maximumGeneration) :
    ∃ file toc receipt written, Exact sha256 (fun _ ↦ none) (sampleManifest [])
        (sampleContext (Bytes.ascii "old") old_ascii) file toc ∧ toc.generation = generation ∧
      prepareBundleDestination sha256 .sha1 (some file) = .ok false ∧
      Writer.write sha256 (writerInput (fun _ ↦ none) (sampleManifest [])
        (sampleContext (Bytes.ascii "new") new_ascii) (generation + 1)) = .ok (receipt, written) ∧
      persistBundle sha256 (fun _ ↦ none) .sha1 (sampleManifest [])
        (sampleContext (Bytes.ascii "new") new_ascii) (some file) false = .ok (some written) := by
  have hvalid : (sampleManifest []).validate .sha1 = .ok () := by rfl
  obtain ⟨_, file, hfile⟩ := write_empty hsha old_ascii (by decide) generation
  obtain ⟨toc, hopens⟩ := opens_of_write hsha hvalid (ready_empty old_ascii (by decide))
    ⟨hgeneration.1, Nat.lt_succ_of_le hgeneration.2⟩ hfile
  obtain ⟨receipt, written, hwritten⟩ := write_empty hsha new_ascii (by decide) (generation + 1)
  have hexact := exact_of_opens hvalid hopens
  have hfound : classifyDestination sha256 (some file) = .ok (some toc) := by
    simp only [classifyDestination, hexact.parsed]
  refine ⟨file, toc, receipt, written, hexact, hopens.generation, ?_, hwritten, ?_⟩
  · have hdamaged : extractBundle sha256 file toc = false := undamaged_of_sectionOf hexact.files
    simp only [prepareBundleDestination, validateExistingBundle, Except.bind_eq_ok]
    refine ⟨_, hfound, ?_⟩
    simp only [Except.bind_eq_ok, ensure_eq_ok]
    exact ⟨(), ⟨(), hopens.hashAlgorithm, hexact.refs⟩, congrArg Except.ok hdamaged⟩
  · have hnext : (some toc).elim 1 (fun toc : Toc ↦ toc.generation + 1) = generation + 1 := by
      rw [Option.elim_some, hopens.generation]
      rfl
    rw [← hnext] at hwritten
    refine persistBundle_of_changed (ready_empty new_ascii (by decide)) hfound ?_ hwritten
    rintro _ ⟨⟩ hcurrent
    have hne : Bytes.ascii "old" ≠ Bytes.ascii "new" := by decide
    exact hne (Prod.mk.inj (List.cons.inj (hexact.metadata.symm.trans hcurrent.metadata)).1).2

/-- The sample hash has 32 bytes. -/
theorem length_lastSha256 (bytes : Bytes) : (lastSha256 bytes).length = 32 := by
  rw [lastSha256]
  split <;> rfl

/-- An empty manifest with a new source identity: the bundle of the last generation is replaced by a file
that no reader accepts. -/
theorem persist_after_last : ∃ file written toc, (sampleManifest []).validate .sha1 = .ok () ∧
    parse lastSha256 file = .ok toc ∧ toc.generation = maximumGeneration ∧
      prepareBundleDestination lastSha256 .sha1 (some file) = .ok false ∧
      persistBundle lastSha256 (fun _ ↦ none) .sha1 (sampleManifest [])
        (sampleContext (Bytes.ascii "new") new_ascii) (some file) false = .ok (some written) ∧
      ∀ toc, parse lastSha256 written ≠ .ok toc := by
  obtain ⟨file, toc, _, written, hexact, hgeneration, hprepare, hwritten, hpersist⟩ :=
    persist_new_identity length_lastSha256 ⟨by decide, le_refl maximumGeneration⟩
  exact ⟨file, written, toc, rfl, hexact.parsed, hgeneration, hprepare, hpersist,
    fun toc ↦ parse_of_overflow length_lastSha256 hwritten⟩

end Gitility.PackFetch
