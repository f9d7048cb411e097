import Gitility.Bundle.Grammar
import Gitility.Bundle.Writer

/-!
# The sections of a publication

What the inventory collects and what the writer streams of it: names that pair up and are distinct,
and sections that follow one another.
-/

namespace Gitility.Bundle

/-! ### Sorting -/

section Sorting

variable {α : Type} (key : α → Bytes)

/-- Rows sorted by a key are in the order of the key. -/
theorem pairwise_mergeSort_le (rows : List α) :
    (rows.mergeSort fun a b ↦ key a ≤ key b).Pairwise fun a b ↦ key a ≤ key b := by
  have h := @List.pairwise_mergeSort α (fun a b ↦ decide (key a ≤ key b))
    (fun a b c hab hbc ↦ decide_eq_true
      (List.le_trans (of_decide_eq_true hab) (of_decide_eq_true hbc)))
    (fun a b ↦ by simpa using List.le_total (key a) (key b)) rows
  exact h.imp fun hle ↦ of_decide_eq_true hle

/-- Distinct keys ascend after the sort. -/
theorem mergeSort_ascending {rows : List α} (h : (rows.map key).Nodup) :
    ((rows.mergeSort fun a b ↦ key a ≤ key b).map key).Pairwise (· < ·) := by
  have hperm : (rows.mergeSort fun a b ↦ key a ≤ key b).Perm rows := List.mergeSort_perm rows _
  have hnodup := (hperm.map key).nodup_iff.mpr h
  have hle := pairwise_mergeSort_le key rows
  exact List.pairwise_map.mpr
    (hle.and (List.pairwise_map.mp hnodup) |>.imp fun hab ↦ Std.lt_of_le_of_ne hab.1 hab.2)

/-- The order in which rows are supplied does not matter when their keys tell them apart. -/
theorem mergeSort_eq_of_injOn {rows rows' : List α} (hperm : rows.Perm rows')
    (hinj : ∀ a ∈ rows, ∀ b ∈ rows, key a = key b → a = b) :
    rows.mergeSort (fun a b ↦ key a ≤ key b) = rows'.mergeSort fun a b ↦ key a ≤ key b := by
  have hback : (rows.mergeSort fun a b ↦ key a ≤ key b).Perm rows := List.mergeSort_perm rows _
  have hback' : (rows'.mergeSort fun a b ↦ key a ≤ key b).Perm rows' := List.mergeSort_perm rows' _
  refine List.Perm.eq_of_pairwise ?_ (pairwise_mergeSort_le key rows)
    (pairwise_mergeSort_le key rows') ((hback.trans hperm).trans hback'.symm)
  intro a b ha hb hab hba
  have hmem := hback.mem_iff.mp ha
  have hmem' := hperm.mem_iff.mpr (hback'.mem_iff.mp hb)
  exact hinj a hmem b hmem' (List.le_antisymm hab hba)

/-- Rows of different keys have one sorted order. -/
theorem mergeSort_eq_of_perm {rows rows' : List α} (hperm : rows.Perm rows')
    (hnodup : (rows.map key).Nodup) :
    rows.mergeSort (fun a b ↦ key a ≤ key b) = rows'.mergeSort fun a b ↦ key a ≤ key b :=
  mergeSort_eq_of_injOn key hperm fun _ ha _ hb hkey ↦ List.inj_on_of_nodup_map hnodup ha hb hkey

/-- Dropping repeated keys keeps the order of the rows. -/
theorem uniqBy_sublist (seen : List Bytes) (rows : List α) : (uniqBy key seen rows).Sublist rows := by
  induction rows generalizing seen with
  | nil => exact List.Sublist.slnil
  | cons row rows ih =>
    unfold uniqBy
    split
    · exact (ih seen).cons row
    · exact (ih _).cons_cons row

/-- The rows that stay have different keys, none of them seen before. -/
theorem uniqBy_fresh (seen : List Bytes) (rows : List α) :
    ((uniqBy key seen rows).map key).Nodup ∧ ∀ row ∈ uniqBy key seen rows, key row ∉ seen := by
  induction rows generalizing seen with
  | nil => simp [uniqBy]
  | cons row rows ih =>
    unfold uniqBy
    split
    · exact ih seen
    · next hnew =>
      obtain ⟨hnodup, hfresh⟩ := ih (key row :: seen)
      constructor
      · rw [List.map_cons, List.nodup_cons]
        refine ⟨fun hmem ↦ ?_, hnodup⟩
        obtain ⟨other, hother, heq⟩ := List.mem_map.mp hmem
        exact hfresh other hother (by rw [heq]; exact List.mem_cons_self)
      · intro other hother hmem
        rcases List.mem_cons.mp hother with rfl | hother
        · exact hnew hmem
        · exact hfresh other hother (List.mem_cons_of_mem _ hmem)

end Sorting

/-! ### Sections -/

/-- The files of the pairs in the order of the sections. -/
def artifacts (pairs : List (Artifact × Artifact)) : List (FileKind × Artifact) :=
  pairs.flatMap fun pair ↦ [(.pack, pair.1), (.idx, pair.2)]

/-- The bytes of the sections. -/
def sectionBytes (files : List (FileKind × Artifact)) : Bytes := files.flatMap (·.2.content)

/-- The rows of sections that start at an offset. -/
def sectionRows (sha256 : Bytes → Bytes) : ℕ → List (FileKind × Artifact) → List FileEntry
  | _, [] => []
  | offset, (kind, artifact) :: files =>
    ⟨kind, artifact.name, offset, artifact.content.length, sha256 artifact.content⟩ ::
      sectionRows sha256 (offset + artifact.content.length) files

section Sections

variable {sha256 : Bytes → Bytes}

/-- A write succeeds exactly when the file stays below 2^63 bytes, and appends. -/
theorem binwrite_eq_ok {output bytes result : Bytes} :
    Writer.binwrite output bytes = .ok result ↔
      output.length + bytes.length < 2 ^ 63 ∧ result = output ++ bytes := by
  unfold Writer.binwrite
  split
  · next h =>
    constructor
    · rintro ⟨⟩
      exact ⟨h, rfl⟩
    · rintro ⟨-, rfl⟩
      rfl
  · next h => exact iff_of_false nofun fun hsize ↦ h hsize.1

private theorem streamSection_eq_ok {artifact : Artifact} {kind : FileKind} {output output' : Bytes}
    {offset offset' : ℕ} {entry : FileEntry}
    (h : Writer.streamSection sha256 artifact kind output offset = .ok (entry, output', offset')) :
    0 < artifact.content.length ∧ output' = output ++ artifact.content ∧ output'.length < 2 ^ 63 ∧
      entry = ⟨kind, artifact.name, offset, artifact.content.length, sha256 artifact.content⟩ ∧
      offset' = offset + artifact.content.length := by
  simp only [Writer.streamSection, Except.bind_eq_ok, ensure_eq_ok] at h
  obtain ⟨written, hwritten, -, hpos, heq⟩ := h
  obtain ⟨hsize, rfl⟩ := binwrite_eq_ok.mp hwritten
  cases heq
  exact ⟨hpos, rfl, by simpa using hsize, rfl, rfl⟩

/-- What streaming the pairs writes and records. -/
theorem streamPairs_eq_ok {pairs : List (Artifact × Artifact)} {output output' : Bytes}
    {offset offset' : ℕ} {files files' : List FileEntry}
    (h : Writer.streamPairs sha256 pairs output offset files = .ok (files', output', offset')) :
    output' = output ++ sectionBytes (artifacts pairs) ∧
      files' = files.reverse ++ sectionRows sha256 offset (artifacts pairs) ∧
      offset' = offset + (sectionBytes (artifacts pairs)).length ∧
      ∀ file ∈ artifacts pairs, 0 < file.2.content.length := by
  induction pairs generalizing output offset files with
  | nil =>
    cases h
    simp [artifacts, sectionBytes, sectionRows]
  | cons pair pairs ih =>
    obtain ⟨pack, index⟩ := pair
    simp only [Writer.streamPairs, Except.bind_eq_ok] at h
    obtain ⟨⟨packEntry, output₁, offset₁⟩, hpack, ⟨indexEntry, output₂, offset₂⟩, hindex, hrest⟩ := h
    obtain ⟨hpos, rfl, -, rfl, rfl⟩ := streamSection_eq_ok hpack
    obtain ⟨hpos', rfl, -, rfl, rfl⟩ := streamSection_eq_ok hindex
    obtain ⟨rfl, rfl, rfl, hall⟩ := ih hrest
    have hcons : artifacts ((pack, index) :: pairs) =
        (.pack, pack) :: (.idx, index) :: artifacts pairs := rfl
    rw [hcons]
    refine ⟨by simp [sectionBytes], by simp [sectionRows], ?_, ?_⟩
    · simp only [sectionBytes, List.flatMap_cons, List.length_append]
      omega
    · exact List.forall_mem_cons.mpr ⟨hpos, List.forall_mem_cons.mpr ⟨hpos', hall⟩⟩

/-- Rows laid out one after another tile the range. -/
theorem tile_sectionRows (offset : ℕ) (files : List (FileKind × Artifact)) :
    tile offset (sectionRows sha256 offset files) = .ok (offset + (sectionBytes files).length) := by
  induction files generalizing offset with
  | nil => rfl
  | cons file files ih =>
    simp only [sectionRows, tile, Except.bind_eq_ok, ensure_eq_ok, ih]
    refine ⟨(), trivial, ?_⟩
    simp [sectionBytes, Nat.add_assoc]

/-- A row stands for a file, and lies within the sections. -/
theorem mem_sectionRows {offset : ℕ} {files : List (FileKind × Artifact)} {entry : FileEntry}
    (h : entry ∈ sectionRows sha256 offset files) :
    ∃ source ∈ files, entry.kind = source.1 ∧ entry.length = source.2.content.length ∧
      entry.sha256 = sha256 source.2.content ∧
      entry.offset + entry.length ≤ offset + (sectionBytes files).length := by
  induction files generalizing offset with
  | nil => cases h
  | cons file files ih =>
    have hsplit : (sectionBytes (file :: files)).length =
        file.2.content.length + (sectionBytes files).length := List.length_append
    rw [hsplit]
    rcases List.mem_cons.mp h with rfl | h
    · exact ⟨file, List.mem_cons_self, rfl, rfl, rfl, by dsimp only; omega⟩
    · obtain ⟨source, hsource, hkind, hlength, hsha256, hend⟩ := ih h
      exact ⟨source, List.mem_cons_of_mem _ hsource, hkind, hlength, hsha256, by omega⟩

/-- The sections of the pairs have known kinds. -/
theorem filter_isKnown_sectionRows (offset : ℕ) (pairs : List (Artifact × Artifact)) :
    (sectionRows sha256 offset (artifacts pairs)).filter (·.kind.isKnown) =
      sectionRows sha256 offset (artifacts pairs) := by
  apply List.filter_eq_self.mpr
  intro entry hentry
  obtain ⟨source, hsource, hkind, -⟩ := mem_sectionRows hentry
  obtain ⟨pair, -, hsource⟩ := List.mem_flatMap.mp hsource
  simp only [List.mem_cons, List.not_mem_nil, or_false] at hsource
  rw [hkind]
  rcases hsource with rfl | rfl <;> rfl

/-- The rows have the kinds and names of the files. -/
theorem map_sectionRows (offset : ℕ) (files : List (FileKind × Artifact)) :
    (sectionRows sha256 offset files).map (fun entry ↦ (entry.kind, entry.name)) =
      files.map fun file ↦ (file.1, file.2.name) := by
  induction files generalizing offset with
  | nil => rfl
  | cons file files ih =>
    rw [sectionRows, List.map_cons, List.map_cons, ih]

/-- A section of the file holds the bytes of its source and their digest. -/
structure SectionOf (sha256 : Bytes → Bytes) (file : Bytes) (entry : FileEntry)
    (source : FileKind × Artifact) : Prop where
  kind : entry.kind = source.1
  name : entry.name = source.2.name
  length : entry.length = source.2.content.length
  bytes : (file.drop entry.offset).take entry.length = source.2.content
  sha256 : entry.sha256 = sha256 source.2.content

/-- In a file with the sections at the offset, every row is a section of it. -/
theorem sectionRows_sectionOf {file before after : Bytes} {files : List (FileKind × Artifact)}
    (h : file = before ++ sectionBytes files ++ after) :
    List.Forall₂ (SectionOf sha256 file) (sectionRows sha256 before.length files) files := by
  induction files generalizing before with
  | nil => exact .nil
  | cons source files ih =>
    have hsplit : sectionBytes (source :: files) = source.2.content ++ sectionBytes files := rfl
    rw [hsplit] at h
    have hnext : file = (before ++ source.2.content) ++ sectionBytes files ++ after := by simp [h]
    have hrest := ih hnext
    rw [List.length_append] at hrest
    refine .cons ⟨rfl, rfl, rfl, ?_, rfl⟩ hrest
    exact slice_eq file before source.2.content (sectionBytes files ++ after) (by simp [h]) rfl rfl

end Sections

/-! ### The inventory -/

/-- The extension is what follows the last dot. -/
theorem rootname_append {stem extension : Bytes} (h : (0x2E : UInt8) ∉ extension) :
    rootname (stem ++ 0x2E :: extension) = stem := by
  have hdrop : (stem ++ 0x2E :: extension).reverse.dropWhile (· ≠ 0x2E) =
      0x2E :: stem.reverse := by
    rw [List.reverse_append, List.reverse_cons, List.append_assoc, List.dropWhile_append_of_pos]
    · simp
    · intro byte hbyte
      have hne : byte ≠ 0x2E := by
        rintro rfl
        exact h (List.mem_reverse.mp hbyte)
      simpa using hne
  unfold rootname
  rw [hdrop]
  exact List.reverse_reverse stem

/-- A pair of the inventory: a pack and the index that shares its stem. -/
structure PackFiles (pair : Artifact × Artifact) : Prop where
  pack : pair.1.name = rootname pair.1.name ++ Bytes.ascii ".pack"
  index : pair.2.name = rootname pair.1.name ++ Bytes.ascii ".idx"

private theorem packFiles_of_indexOf {directory : List Artifact} {pack : Artifact} {index : Artifact}
    (hpack : pack ∈ packs directory) (hindex : indexOf directory pack = some index) :
    PackFiles (pack, index) := by
  have hmem := (List.mergeSort_perm _ _).mem_iff.mp hpack
  have hname : isPackName pack.name = true := (List.mem_filter.mp hmem).2
  simp only [isPackName, decide_eq_true_eq] at hname
  obtain ⟨stem, hstem⟩ := List.isSuffixOf_iff_suffix.mp hname.2.1
  have hroot : rootname pack.name = stem := by
    rw [← hstem]
    exact @rootname_append stem (Bytes.ascii "pack") (by decide)
  constructor
  · rw [hroot]
    exact hstem.symm
  · have := List.find?_some hindex
    simpa using this

private theorem packFiles_of_packedPairs {directory : List Artifact} {pair : Artifact × Artifact}
    (h : pair ∈ packedPairs directory) : PackFiles pair := by
  obtain ⟨pack, hpack, heq⟩ := List.mem_filterMap.mp h
  obtain ⟨index, hindex, rfl⟩ := Option.map_eq_some_iff.mp heq
  exact packFiles_of_indexOf hpack hindex

private theorem packFiles_of_mapM {directory packs' : List Artifact} {pairs : List (Artifact × Artifact)}
    (hpacks : ∀ pack ∈ packs', pack ∈ packs directory)
    (h : packs'.mapM (fun pack ↦ (indexOf directory pack).map (pack, ·)) = some pairs) :
    ∀ pair ∈ pairs, PackFiles pair := by
  induction packs' generalizing pairs with
  | nil =>
    cases h
    exact fun _ hmem ↦ absurd hmem List.not_mem_nil
  | cons pack packs' ih =>
    obtain ⟨hpack, hpacks⟩ := List.forall_mem_cons.mp hpacks
    rw [List.mapM_cons] at h
    obtain ⟨pair, hpair, h⟩ := Option.bind_eq_some_iff.mp h
    obtain ⟨rest, hrest, h⟩ := Option.bind_eq_some_iff.mp h
    obtain ⟨index, hindex, rfl⟩ := Option.map_eq_some_iff.mp hpair
    cases h
    exact List.forall_mem_cons.mpr ⟨packFiles_of_indexOf hpack hindex, ih hpacks hrest⟩

private theorem packFiles_of_maybePackLoose {loose : Option (List Artifact)}
    {pairs : List (Artifact × Artifact)} (h : maybePackLoose loose = .ok pairs) :
    ∀ pair ∈ pairs, PackFiles pair := by
  cases loose with
  | none =>
    cases h
    exact fun _ hmem ↦ absurd hmem List.not_mem_nil
  | some staged =>
    simp only [maybePackLoose, packLooseObjects] at h
    split at h
    · cases h
    · cases h
    · next hmap =>
      cases h
      exact packFiles_of_mapM (fun _ hpack ↦ hpack) hmap

/-- Every pair that is collected is a pack with its index, and no pack name occurs twice. -/
theorem collect_spec {directories : List (List Artifact)} {loose : Option (List Artifact)}
    {pairs : List (Artifact × Artifact)} (h : collect directories loose = .ok pairs) :
    (∀ pair ∈ pairs, PackFiles pair) ∧ (pairs.map (·.1.name)).Nodup := by
  simp only [collect, Except.bind_eq_ok] at h
  obtain ⟨loosePairs, hloose, heq⟩ := h
  cases heq
  have hperm := List.mergeSort_perm
    (uniqBy (·.1.name) [] (directories.flatMap packedPairs ++ loosePairs)) fun a b ↦ a.1.name ≤ b.1.name
  constructor
  · intro pair hpair
    have hmem := (uniqBy_sublist _ _ _).subset (hperm.mem_iff.mp hpair)
    rcases List.mem_append.mp hmem with hmem | hmem
    · obtain ⟨directory, -, hmem⟩ := List.mem_flatMap.mp hmem
      exact packFiles_of_packedPairs hmem
    · exact packFiles_of_maybePackLoose hloose pair hmem
  · exact (hperm.map _).nodup_iff.mpr (uniqBy_fresh _ [] _).1

/-- A pack stem is `pack-` and a digest of the hash. -/
theorem isPackStem_iff {hash : HashKind} {stem : Bytes} :
    isPackStem hash stem = true ↔
      ∃ digest, PackDigest hash digest ∧ stem = Bytes.ascii "pack-" ++ digest := by
  simp only [isPackStem, decide_eq_true_eq]
  constructor
  · rintro ⟨hhead, hlength, hlower⟩
    exact ⟨stem.drop 5, ⟨hlength, hlower⟩, by rw [← hhead, List.take_append_drop]⟩
  · rintro ⟨digest, ⟨hlength, hlower⟩, rfl⟩
    have hfive : (Bytes.ascii "pack-").length = 5 := by decide
    have htake : (Bytes.ascii "pack-" ++ digest).take 5 = Bytes.ascii "pack-" := by
      rw [← hfive, List.take_left]
    have hdrop : (Bytes.ascii "pack-" ++ digest).drop 5 = digest := by
      rw [← hfive, List.drop_left]
    exact ⟨htake, by rw [hdrop, hlength], by rw [hdrop, hlower]⟩

/-- The digests of a valid inventory name its sections. -/
theorem artifacts_paired {hash : HashKind} {pairs : List (Artifact × Artifact)}
    (hfiles : ∀ pair ∈ pairs, PackFiles pair) (h : validateInventory pairs hash = .ok ()) :
    ∃ digests : List Bytes, (∀ digest ∈ digests, PackDigest hash digest) ∧
      (artifacts pairs).map (fun file ↦ (file.1, file.2.name)) = digests.flatMap packPair ∧
      pairs.map (·.1.name) =
        digests.map fun digest ↦ Bytes.ascii "pack-" ++ digest ++ Bytes.ascii ".pack" := by
  simp only [validateInventory, ensure_eq_ok] at h
  induction pairs with
  | nil => exact ⟨[], by simp, rfl, rfl⟩
  | cons pair pairs ih =>
    obtain ⟨hpair, hfiles⟩ := List.forall_mem_cons.mp hfiles
    obtain ⟨⟨-, hstem⟩, h⟩ := List.forall_mem_cons.mp h
    obtain ⟨digest, hdigest, hroot⟩ := isPackStem_iff.mp hstem
    obtain ⟨digests, hdigests, hmap, hnames⟩ := ih hfiles h
    refine ⟨digest :: digests, List.forall_mem_cons.mpr ⟨hdigest, hdigests⟩, ?_, ?_⟩
    · have hpack := hpair.pack
      have hindex := hpair.index
      rw [hroot] at hpack hindex
      have hcons : artifacts (pair :: pairs) = (.pack, pair.1) :: (.idx, pair.2) :: artifacts pairs :=
        rfl
      rw [hcons, List.map_cons, List.map_cons, hmap, hpack, hindex]
      rfl
    · rw [List.map_cons, List.map_cons, hnames, hpair.pack, hroot]

/-- An ASCII byte is the encoding of its character. -/
theorem utf8EncodeChar_ascii {byte : UInt8} (h : byte < 128) :
    String.utf8EncodeChar (Char.ofNat byte.toNat) = [byte] := by
  have hall : ∀ n : Fin 128, String.utf8EncodeChar (Char.ofNat n) = [UInt8.ofNat n] := by
    decide +kernel
  have := hall ⟨byte.toNat, h⟩
  simpa using this

/-- ASCII is valid UTF-8. -/
theorem validUtf8_of_ascii {bytes : Bytes} (h : ∀ byte ∈ bytes, byte < 128) :
    validUtf8 bytes = true := by
  apply ByteArray.validateUTF8_eq_true_iff.mpr
  refine ⟨bytes.map fun byte ↦ Char.ofNat byte.toNat, ?_⟩
  have hflat : (bytes.map fun byte ↦ Char.ofNat byte.toNat).flatMap String.utf8EncodeChar = bytes := by
    induction bytes with
    | nil => rfl
    | cons byte bytes ih =>
      obtain ⟨hbyte, hbytes⟩ := List.forall_mem_cons.mp h
      rw [List.map_cons, List.flatMap_cons, utf8EncodeChar_ascii hbyte, ih hbytes]
      rfl
  rw [List.utf8Encode, hflat]
  ext1
  simp

private theorem PackDigest.ascii {hash : HashKind} {digest : Bytes} (h : PackDigest hash digest) :
    ∀ byte ∈ digest, byte < 128 := by
  intro byte hbyte
  have hhex := List.all_eq_true.mp h.lower byte hbyte
  simp only [isLowerHex, decide_eq_true_eq] at hhex
  rcases hhex with hhex | hhex
  · exact UInt8.lt_of_le_of_lt hhex.2 (by decide)
  · exact UInt8.lt_of_le_of_lt hhex.2 (by decide)

/-- The name of a section is a name that the reader accepts. -/
theorem packPair_name {hash : HashKind} {digest : Bytes} (h : PackDigest hash digest)
    {name : Bytes} (hname : name ∈ (packPair digest).map Prod.snd) :
    1 ≤ name.length ∧ name.length ≤ 4096 ∧ validUtf8 name = true := by
  have hhex : hexLength hash ≤ 64 := by cases hash <;> decide
  have hpack : ∀ byte ∈ Bytes.ascii "pack-", byte < 128 := by decide +kernel
  have hascii (extension : Bytes) (hext : ∀ byte ∈ extension, byte < 128) :
      ∀ byte ∈ Bytes.ascii "pack-" ++ digest ++ extension, byte < 128 := by
    intro byte hbyte
    rcases List.mem_append.mp hbyte with hbyte | hbyte
    · rcases List.mem_append.mp hbyte with hbyte | hbyte
      · exact hpack byte hbyte
      · exact h.ascii byte hbyte
    · exact hext byte hbyte
  have hlength (extension : Bytes) (hext : extension.length ≤ 5) :
      1 ≤ (Bytes.ascii "pack-" ++ digest ++ extension).length ∧
        (Bytes.ascii "pack-" ++ digest ++ extension).length ≤ 4096 := by
    have hfive : (Bytes.ascii "pack-").length = 5 := by decide
    simp only [List.length_append, h.length, hfive]
    omega
  simp only [packPair, List.map_cons, List.map_nil, List.mem_cons, List.not_mem_nil, or_false] at hname
  rcases hname with rfl | rfl
  · obtain ⟨hmin, hmax⟩ := hlength (Bytes.ascii ".pack") (by decide)
    exact ⟨hmin, hmax, validUtf8_of_ascii (hascii _ (by decide +kernel))⟩
  · obtain ⟨hmin, hmax⟩ := hlength (Bytes.ascii ".idx") (by decide)
    exact ⟨hmin, hmax, validUtf8_of_ascii (hascii _ (by decide +kernel))⟩

/-- The name of a section determines its digest. -/
theorem rootname_of_mem_packPair {digest name : Bytes} (h : name ∈ (packPair digest).map Prod.snd) :
    rootname name = Bytes.ascii "pack-" ++ digest := by
  simp only [packPair, List.map_cons, List.map_nil, List.mem_cons, List.not_mem_nil, or_false] at h
  rcases h with rfl | rfl
  · exact @rootname_append _ (Bytes.ascii "pack") (by decide)
  · exact @rootname_append _ (Bytes.ascii "idx") (by decide)

/-- The names of the sections are distinct when the digests are. -/
theorem nodup_packPair {digests : List Bytes} (h : digests.Nodup) :
    ((digests.flatMap packPair).map Prod.snd).Nodup := by
  rw [List.map_flatMap, List.nodup_flatMap]
  constructor
  · intro digest _
    have hne : Bytes.ascii ".pack" ≠ Bytes.ascii ".idx" := by decide
    simpa [packPair] using hne
  · refine h.imp fun hne ↦ ?_
    intro name hname hname'
    apply hne
    apply (List.append_right_inj (Bytes.ascii "pack-")).mp
    rw [← rootname_of_mem_packPair hname, rootname_of_mem_packPair hname']

end Gitility.Bundle
