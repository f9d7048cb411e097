import Gitility.Bundle.Format

/-!
# The grammar of bundle format v1

`docs/format/bundle-v1.md`: which byte strings are bundles. The parser accepts exactly these, and
what it returns encodes to the table of contents again.
-/

namespace Gitility.Bundle

/-! ### Fields -/

private theorem takeU8_eq_ok {label : String} {bytes rest : Bytes} {value : UInt8} :
    takeU8 label bytes = .ok (value, rest) ↔ bytes = value :: rest := by
  cases bytes with
  | nil => simp [takeU8]
  | cons byte bytes => simp [takeU8]

private theorem takeLe_eq_ok {width value : ℕ} {label : String} {bytes rest : Bytes} :
    takeLe width label bytes = .ok (value, rest) ↔
      value < 256 ^ width ∧ bytes = Bytes.toLe width value ++ rest := by
  unfold takeLe
  split
  · next hwidth =>
    have hlength : (bytes.take width).length = width := by simp [hwidth]
    constructor
    · rintro ⟨⟩
      refine ⟨by simpa [hlength] using Bytes.ofLe_lt (bytes.take width), ?_⟩
      have hback := Bytes.toLe_ofLe (bytes.take width)
      rw [hlength] at hback
      rw [hback, List.take_append_drop]
    · rintro ⟨hlt, rfl⟩
      have htake : (Bytes.toLe width value ++ rest).take width = Bytes.toLe width value := by
        rw [List.take_append_of_le_length (by simp), List.take_of_length_le (by simp)]
      have hdrop : (Bytes.toLe width value ++ rest).drop width = rest := by
        rw [List.drop_append_of_le_length (by simp), List.drop_of_length_le (by simp)]
        rfl
      rw [htake, hdrop, Bytes.ofLe_toLe_of_lt hlt]
  · next hwidth =>
    refine iff_of_false nofun ?_
    rintro ⟨-, rfl⟩
    simp at hwidth

private theorem takeBytes_eq_ok {length : ℕ} {label : String} {bytes value rest : Bytes} :
    takeBytes length label bytes = .ok (value, rest) ↔
      value.length = length ∧ bytes = value ++ rest := by
  unfold takeBytes
  split
  · next hlength =>
    constructor
    · rintro ⟨⟩
      exact ⟨by simp [hlength], (List.take_append_drop _ _).symm⟩
    · rintro ⟨rfl, rfl⟩
      simp
  · next hlength =>
    refine iff_of_false nofun ?_
    rintro ⟨rfl, rfl⟩
    simp at hlength

private theorem takeLengthPrefixed_eq_ok {minimum maximum : ℕ} {label : String}
    {bytes value rest : Bytes} (hmaximum : maximum < 256 ^ 4) :
    takeLengthPrefixed minimum maximum label bytes = .ok (value, rest) ↔
      minimum ≤ value.length ∧ value.length ≤ maximum ∧ bytes = lengthPrefixed value ++ rest := by
  simp only [takeLengthPrefixed, Except.bind_eq_ok, ensure_eq_ok, takeU32]
  constructor
  · rintro ⟨⟨length, mid⟩, hlength, -, hmin, -, hmax, hvalue⟩
    obtain ⟨-, rfl⟩ := takeLe_eq_ok.mp hlength
    obtain ⟨rfl, rfl⟩ := takeBytes_eq_ok.mp hvalue
    exact ⟨hmin, hmax, by rw [lengthPrefixed, List.append_assoc]⟩
  · rintro ⟨hmin, hmax, rfl⟩
    refine ⟨(value.length, value ++ rest), takeLe_eq_ok.mpr ⟨by omega, ?_⟩, (), hmin, (), hmax,
      takeBytes_eq_ok.mpr ⟨rfl, rfl⟩⟩
    rw [lengthPrefixed, List.append_assoc]

private theorem decodeHash_eq_ok {code : UInt8} {hash : HashKind} :
    decodeHash code = .ok hash ↔ code = encodeHash hash := by
  unfold decodeHash
  split
  · next h => cases hash <;> simp [h, encodeHash]
  · split
    · next h => cases hash <;> simp [h, encodeHash]
    · next h₁ h₂ => cases hash <;> simp [h₁, h₂, encodeHash]

private theorem decodeRefKind_eq_ok {code : UInt8} {kind : ObjectKind} :
    decodeRefKind code = .ok kind ↔ code = encodeRefKind kind := by
  unfold decodeRefKind
  split
  · next h => cases kind <;> simp [h, encodeRefKind]
  · split
    · next h => cases kind <;> simp [h, encodeRefKind]
    · split
      · next h => cases kind <;> simp [h, encodeRefKind]
      · split
        · next h => cases kind <;> simp [h, encodeRefKind]
        · next h₁ h₂ h₃ h₄ => cases kind <;> simp [h₁, h₂, h₃, h₄, encodeRefKind]

@[simp] private theorem FileKind.decode_encode (kind : FileKind) : FileKind.decode kind.encode = kind := by
  cases kind with
  | pack => rfl
  | idx => rfl
  | unknown code h => simp [decode, encode, h.1, h.2]

@[simp] private theorem FileKind.encode_decode (code : UInt8) : (FileKind.decode code).encode = code := by
  unfold decode
  split
  · next h => rw [h, encode]
  · split
    · next h => rw [h, encode]
    · rfl

/-! ### Rows -/

/-- What a row of the metadata may hold. -/
structure MetadataRow (entry : Bytes × Bytes) : Prop where
  key : 1 ≤ entry.1.length ∧ entry.1.length ≤ 4096 ∧ validUtf8 entry.1 = true
  value : entry.2.length ≤ 65536 ∧ validUtf8 entry.2 = true

/-- What a file row may hold. -/
structure FileRow (entry : FileEntry) : Prop where
  name : 1 ≤ entry.name.length ∧ entry.name.length ≤ 4096 ∧ validUtf8 entry.name = true
  offset : entry.offset < 2 ^ 64
  length : 1 ≤ entry.length ∧ entry.length < 2 ^ 64
  sha256 : entry.sha256.length = 32

/-- What a reference row may hold. -/
structure RefRow (hash : HashKind) (ref : RefEntry) : Prop where
  name : 1 ≤ ref.name.length ∧ ref.name.length ≤ 4096
  target : ref.target.length = hash.digestLen
  peeled : ∀ peeled ∈ ref.peeled, peeled.length = hash.digestLen

/-- A key that follows an earlier one, if there is one. -/
theorem isChain_option_cons {previous : Option Bytes} {key : Bytes} {keys : List Bytes} :
    (previous.toList ++ key :: keys).IsChain (· < ·) ↔
      (∀ earlier ∈ previous, earlier < key) ∧ (key :: keys).IsChain (· < ·) := by
  cases previous with
  | none => simp
  | some earlier => simp

private theorem doParseMetadata_eq_ok {count : ℕ} {bytes rest : Bytes} {previous : Option Bytes}
    {entries result : List (Bytes × Bytes)} :
    doParseMetadata count bytes previous entries = .ok (result, rest) ↔
      ∃ rows, result = entries.reverse ++ rows ∧ rows.length = count ∧
        bytes = rows.flatMap encodeMetadata ++ rest ∧
        (previous.toList ++ rows.map Prod.fst).IsChain (· < ·) ∧ ∀ row ∈ rows, MetadataRow row := by
  induction count generalizing bytes previous entries with
  | zero =>
    simp only [doParseMetadata, Except.ok.injEq, Prod.mk.injEq]
    constructor
    · rintro ⟨rfl, rfl⟩
      refine ⟨[], by simp, rfl, rfl, ?_, by simp⟩
      cases previous <;> simp
    · rintro ⟨rows, rfl, hlength, rfl, -, -⟩
      obtain rfl := List.length_eq_zero_iff.mp hlength
      simp
  | succ count ih =>
    simp only [doParseMetadata, Except.bind_eq_ok, ensure_eq_ok]
    constructor
    · rintro ⟨⟨key, mid⟩, hkey, -, hutf, -, horder, ⟨value, last⟩, hvalue, -, hutf', h⟩
      obtain ⟨hmin, hmax, rfl⟩ := (takeLengthPrefixed_eq_ok (by decide)).mp hkey
      obtain ⟨-, hmax', rfl⟩ := (takeLengthPrefixed_eq_ok (by decide)).mp hvalue
      obtain ⟨rows, rfl, rfl, rfl, hchain, hrows⟩ := ih.mp h
      refine ⟨(key, value) :: rows, by simp, rfl, ?_, ?_, ?_⟩
      · simp [encodeMetadata]
      · exact isChain_option_cons.mpr ⟨horder, hchain⟩
      · exact List.forall_mem_cons.mpr ⟨⟨⟨hmin, hmax, hutf⟩, hmax', hutf'⟩, hrows⟩
    · rintro ⟨rows, rfl, hlength, rfl, hchain, hrows⟩
      cases rows with
      | nil => cases hlength
      | cons row rows =>
        obtain ⟨key, value⟩ := row
        obtain ⟨hrow, hrows⟩ := List.forall_mem_cons.mp hrows
        obtain ⟨horder, hchain⟩ := isChain_option_cons.mp hchain
        refine ⟨(key, lengthPrefixed value ++ (rows.flatMap encodeMetadata ++ rest)),
          (takeLengthPrefixed_eq_ok (by decide)).mpr ⟨hrow.key.1, hrow.key.2.1, ?_⟩, (), hrow.key.2.2,
          (), horder, (value, rows.flatMap encodeMetadata ++ rest),
          (takeLengthPrefixed_eq_ok (by decide)).mpr ⟨Nat.zero_le _, hrow.value.1, rfl⟩, (),
          hrow.value.2, ih.mpr ⟨rows, by simp, Nat.succ.inj hlength, rfl, hchain, hrows⟩⟩
        simp [encodeMetadata]

private theorem doParseFiles_eq_ok {count : ℕ} {bytes rest : Bytes} {names : List Bytes}
    {entries result : List FileEntry} :
    doParseFiles count bytes names entries = .ok (result, rest) ↔
      ∃ rows, result = entries.reverse ++ rows ∧ rows.length = count ∧
        bytes = rows.flatMap encodeFile ++ rest ∧
        ((rows.map FileEntry.name).Nodup ∧ ∀ row ∈ rows, row.name ∉ names) ∧
        ∀ row ∈ rows, FileRow row := by
  induction count generalizing bytes names entries with
  | zero =>
    simp only [doParseFiles, Except.ok.injEq, Prod.mk.injEq]
    constructor
    · rintro ⟨rfl, rfl⟩
      exact ⟨[], by simp, rfl, rfl, by simp, by simp⟩
    · rintro ⟨rows, rfl, hlength, rfl, -, -⟩
      obtain rfl := List.length_eq_zero_iff.mp hlength
      simp
  | succ count ih =>
    simp only [doParseFiles, Except.bind_eq_ok, ensure_eq_ok, takeU64]
    constructor
    · rintro ⟨⟨code, mid₁⟩, hcode, ⟨name, mid₂⟩, hname, -, hutf, -, hfresh, ⟨offset, mid₃⟩, hoffset,
        ⟨length, mid₄⟩, hlength, -, hpos, ⟨sha256, mid₅⟩, hsha, h⟩
      obtain rfl := takeU8_eq_ok.mp hcode
      obtain ⟨hmin, hmax, rfl⟩ := (takeLengthPrefixed_eq_ok (by decide)).mp hname
      obtain ⟨hoff, rfl⟩ := takeLe_eq_ok.mp hoffset
      obtain ⟨hlen, rfl⟩ := takeLe_eq_ok.mp hlength
      obtain ⟨hwidth, rfl⟩ := takeBytes_eq_ok.mp hsha
      obtain ⟨rows, rfl, rfl, rfl, ⟨hnodup, hnames⟩, hrows⟩ := ih.mp h
      refine ⟨⟨.decode code, name, offset, length, sha256⟩ :: rows, by simp, rfl, ?_, ⟨?_, ?_⟩, ?_⟩
      · simp [encodeFile]
      · rw [List.map_cons, List.nodup_cons]
        refine ⟨fun hmem ↦ ?_, hnodup⟩
        obtain ⟨row, hrow, heq⟩ := List.mem_map.mp hmem
        exact hnames row hrow (by rw [heq]; exact List.mem_cons_self)
      · refine List.forall_mem_cons.mpr ⟨hfresh, fun row hrow hmem ↦ ?_⟩
        exact hnames row hrow (List.mem_cons_of_mem _ hmem)
      · exact List.forall_mem_cons.mpr ⟨⟨⟨hmin, hmax, hutf⟩, hoff, ⟨hpos, hlen⟩, hwidth⟩, hrows⟩
    · rintro ⟨rows, rfl, hlength, rfl, ⟨hnodup, hnames⟩, hrows⟩
      cases rows with
      | nil => cases hlength
      | cons row rows =>
        obtain ⟨kind, name, offset, length, sha256⟩ := row
        obtain ⟨hrow, hrows⟩ := List.forall_mem_cons.mp hrows
        obtain ⟨hfresh, hnames⟩ := List.forall_mem_cons.mp hnames
        rw [List.map_cons, List.nodup_cons] at hnodup
        refine ⟨⟨kind.encode, lengthPrefixed name ++ (Bytes.toLe 8 offset ++ (Bytes.toLe 8 length ++
            (sha256 ++ (rows.flatMap encodeFile ++ rest))))⟩, takeU8_eq_ok.mpr ?_, ⟨name, _⟩,
          (takeLengthPrefixed_eq_ok (by decide)).mpr ⟨hrow.name.1, hrow.name.2.1, rfl⟩, (),
          hrow.name.2.2, (), hfresh, ⟨offset, _⟩, takeLe_eq_ok.mpr ⟨hrow.offset, rfl⟩,
          ⟨length, _⟩, takeLe_eq_ok.mpr ⟨hrow.length.2, rfl⟩, (), hrow.length.1, ⟨sha256, _⟩,
          takeBytes_eq_ok.mpr ⟨hrow.sha256, rfl⟩,
          ih.mpr ⟨rows, ?_, Nat.succ.inj hlength, rfl, ⟨hnodup.2, ?_⟩, hrows⟩⟩
        · simp [encodeFile]
        · simp
        · intro row hrow hmem
          rcases List.mem_cons.mp hmem with heq | hmem
          · exact hnodup.1 (List.mem_map.mpr ⟨row, hrow, heq⟩)
          · exact hnames row hrow hmem

private theorem takePeeled_eq_ok {flag : UInt8} {bytes rest : Bytes} {oidSize : ℕ} {peeled : Option Bytes} :
    takePeeled flag bytes oidSize = .ok (peeled, rest) ↔
      (∀ oid ∈ peeled, oid.length = oidSize) ∧
        flag :: bytes = (match peeled with | some oid => 1 :: oid | none => [0]) ++ rest := by
  unfold takePeeled
  split
  · next h => cases peeled <;> simp [h]
  · next hzero =>
    split
    · next h =>
      subst h
      simp only [Except.bind_eq_ok]
      constructor
      · rintro ⟨⟨oid, mid⟩, hoid, ⟨⟩⟩
        obtain ⟨hlength, rfl⟩ := takeBytes_eq_ok.mp hoid
        simp [hlength]
      · rintro ⟨hlength, heq⟩
        cases peeled with
        | none => simp at heq
        | some oid =>
          obtain rfl : bytes = oid ++ rest := by simpa using heq
          exact ⟨(oid, rest), takeBytes_eq_ok.mpr ⟨hlength oid rfl, rfl⟩, rfl⟩
    · next hone => cases peeled <;> simp [hzero, hone]

private theorem doParseRefs_eq_ok {hash : HashKind} {count : ℕ} {bytes rest : Bytes}
    {previous : Option Bytes} {refs result : List RefEntry} :
    doParseRefs hash count bytes previous refs = .ok (result, rest) ↔
      ∃ rows, result = refs.reverse ++ rows ∧ rows.length = count ∧
        bytes = rows.flatMap encodeRef ++ rest ∧
        (previous.toList ++ rows.map RefEntry.name).IsChain (· < ·) ∧
        ∀ row ∈ rows, RefRow hash row := by
  induction count generalizing bytes previous refs with
  | zero =>
    simp only [doParseRefs, Except.ok.injEq, Prod.mk.injEq]
    constructor
    · rintro ⟨rfl, rfl⟩
      refine ⟨[], by simp, rfl, rfl, ?_, by simp⟩
      cases previous <;> simp
    · rintro ⟨rows, rfl, hlength, rfl, -, -⟩
      obtain rfl := List.length_eq_zero_iff.mp hlength
      simp
  | succ count ih =>
    simp only [doParseRefs, Except.bind_eq_ok, ensure_eq_ok]
    constructor
    · rintro ⟨⟨name, mid₁⟩, hname, -, horder, ⟨target, mid₂⟩, htarget, ⟨code, mid₃⟩, hcode, kind, hkind,
        ⟨flag, mid₄⟩, hflag, ⟨peeled, mid₅⟩, hpeeled, h⟩
      obtain ⟨hmin, hmax, rfl⟩ := (takeLengthPrefixed_eq_ok (by decide)).mp hname
      obtain ⟨hwidth, rfl⟩ := takeBytes_eq_ok.mp htarget
      obtain rfl := takeU8_eq_ok.mp hcode
      obtain rfl := decodeRefKind_eq_ok.mp hkind
      obtain rfl := takeU8_eq_ok.mp hflag
      obtain ⟨hpeel, heq⟩ := takePeeled_eq_ok.mp hpeeled
      obtain ⟨rows, rfl, rfl, rfl, hchain, hrows⟩ := ih.mp h
      refine ⟨⟨name, target, kind, peeled⟩ :: rows, by simp, rfl, ?_, ?_, ?_⟩
      · rw [heq, List.flatMap_cons, encodeRef]
        cases peeled <;> simp
      · exact isChain_option_cons.mpr ⟨horder, hchain⟩
      · exact List.forall_mem_cons.mpr ⟨⟨⟨hmin, hmax⟩, hwidth, hpeel⟩, hrows⟩
    · rintro ⟨rows, rfl, hlength, rfl, hchain, hrows⟩
      cases rows with
      | nil => cases hlength
      | cons row rows =>
        obtain ⟨name, target, kind, peeled⟩ := row
        obtain ⟨hrow, hrows⟩ := List.forall_mem_cons.mp hrows
        obtain ⟨horder, hchain⟩ := isChain_option_cons.mp hchain
        -- The flag is the first byte of what `encodeRef` writes for the peeled target.
        obtain ⟨flag, last, hlast⟩ : ∃ flag last, (match peeled with
            | some oid => 1 :: oid | none => [0]) ++ (rows.flatMap encodeRef ++ rest) =
              flag :: last := by
          cases peeled <;> exact ⟨_, _, rfl⟩
        refine ⟨⟨name, target ++ encodeRefKind kind :: flag :: last⟩,
          (takeLengthPrefixed_eq_ok (by decide)).mpr ⟨hrow.name.1, hrow.name.2, ?_⟩, (), horder,
          ⟨target, encodeRefKind kind :: flag :: last⟩, takeBytes_eq_ok.mpr ⟨hrow.target, rfl⟩,
          ⟨encodeRefKind kind, flag :: last⟩, takeU8_eq_ok.mpr rfl, kind, decodeRefKind_eq_ok.mpr rfl,
          ⟨flag, last⟩, takeU8_eq_ok.mpr rfl, ⟨peeled, rows.flatMap encodeRef ++ rest⟩,
          takePeeled_eq_ok.mpr ⟨hrow.peeled, hlast.symm⟩,
          ih.mpr ⟨rows, by simp, Nat.succ.inj hlength, rfl, hchain, hrows⟩⟩
        rw [← hlast, List.flatMap_cons, encodeRef]
        cases peeled <;> simp

/-! ### Counts -/

/-- Rows of at least `n` bytes each leave room for their count. -/
theorem length_le_div {α : Type} {rows : List α} {encode : α → Bytes} {rest : Bytes} {n : ℕ}
    (hn : 0 < n) (h : ∀ row ∈ rows, n ≤ (encode row).length) :
    rows.length ≤ (rows.flatMap encode ++ rest).length / n := by
  rw [Nat.le_div_iff_mul_le hn, List.length_append]
  have hrows : rows.length * n ≤ (rows.flatMap encode).length := by
    induction rows with
    | nil => simp
    | cons row rows ih =>
      obtain ⟨hrow, hrest⟩ := List.forall_mem_cons.mp h
      have hle := ih hrest
      rw [List.length_cons, Nat.succ_mul, List.flatMap_cons, List.length_append]
      omega
  omega

private theorem parseMetadata_eq_ok {count : ℕ} {bytes rest : Bytes} {rows : List (Bytes × Bytes)} :
    parseMetadata count bytes = .ok (rows, rest) ↔
      rows.length = count ∧ bytes = rows.flatMap encodeMetadata ++ rest ∧
        (rows.map Prod.fst).Pairwise (· < ·) ∧ ∀ row ∈ rows, MetadataRow row := by
  simp only [parseMetadata, Except.bind_eq_ok, ensure_eq_ok, doParseMetadata_eq_ok]
  constructor
  · rintro ⟨-, -, rows, rfl, rfl, rfl, hchain, hrows⟩
    exact ⟨rfl, rfl, List.isChain_iff_pairwise.mp hchain, hrows⟩
  · rintro ⟨rfl, rfl, hsorted, hrows⟩
    refine ⟨(), length_le_div (by decide) fun row hrow ↦ ?_, rows, rfl, rfl, rfl,
      List.isChain_iff_pairwise.mpr hsorted, hrows⟩
    have hkey := (hrows row hrow).key.1
    simp only [encodeMetadata, lengthPrefixed, List.length_append, Bytes.length_toLe]
    omega

private theorem parseFiles_eq_ok {count : ℕ} {bytes rest : Bytes} {rows : List FileEntry} :
    parseFiles count bytes = .ok (rows, rest) ↔
      rows.length = count ∧ bytes = rows.flatMap encodeFile ++ rest ∧
        (rows.map FileEntry.name).Nodup ∧ ∀ row ∈ rows, FileRow row := by
  simp only [parseFiles, Except.bind_eq_ok, ensure_eq_ok, doParseFiles_eq_ok]
  constructor
  · rintro ⟨-, -, rows, rfl, rfl, rfl, ⟨hnodup, -⟩, hrows⟩
    exact ⟨rfl, rfl, hnodup, hrows⟩
  · rintro ⟨rfl, rfl, hnodup, hrows⟩
    refine ⟨(), length_le_div (by decide) fun row hrow ↦ ?_, rows, rfl, rfl, rfl,
      ⟨hnodup, fun _ _ ↦ List.not_mem_nil⟩, hrows⟩
    have hname := (hrows row hrow).name.1
    have hsha := (hrows row hrow).sha256
    simp only [encodeFile, lengthPrefixed, List.length_append, List.length_cons, Bytes.length_toLe]
    omega

private theorem parseRefs_eq_ok {hash : HashKind} {count : ℕ} {bytes rest : Bytes} {rows : List RefEntry} :
    parseRefs hash count bytes = .ok (rows, rest) ↔
      rows.length = count ∧ bytes = rows.flatMap encodeRef ++ rest ∧
        (rows.map RefEntry.name).Pairwise (· < ·) ∧ ∀ row ∈ rows, RefRow hash row := by
  simp only [parseRefs, Except.bind_eq_ok, ensure_eq_ok, doParseRefs_eq_ok]
  constructor
  · rintro ⟨-, -, rows, rfl, rfl, rfl, hchain, hrows⟩
    exact ⟨rfl, rfl, List.isChain_iff_pairwise.mp hchain, hrows⟩
  · rintro ⟨rfl, rfl, hsorted, hrows⟩
    refine ⟨(), length_le_div (by omega) fun row hrow ↦ ?_, rows, rfl, rfl, rfl,
      List.isChain_iff_pairwise.mpr hsorted, hrows⟩
    have hname := (hrows row hrow).name.1
    have htarget := (hrows row hrow).target
    cases hpeeled : row.peeled <;>
    · simp only [encodeRef, lengthPrefixed, hpeeled, List.length_append, List.length_cons,
        List.length_nil, Bytes.length_toLe]
      omega

/-! ### Sections -/

/-- Sections that follow one another without gaps. -/
structure Tiled (start : ℕ) (sections : List FileEntry) (stop : ℕ) : Prop where
  offsets : ∀ i entry, sections[i]? = some entry →
    entry.offset = start + ((sections.take i).map FileEntry.length).sum
  stop : stop = start + (sections.map FileEntry.length).sum

/-- Sections are accepted exactly when they tile the range. -/
theorem tile_eq_ok {start stop : ℕ} {sections : List FileEntry} :
    tile start sections = .ok stop ↔ Tiled start sections stop := by
  induction sections generalizing start with
  | nil =>
    simp only [tile, Except.ok.injEq]
    constructor
    · rintro rfl
      exact ⟨by simp, by simp⟩
    · intro h
      simpa using h.stop.symm
  | cons entry sections ih =>
    simp only [tile, Except.bind_eq_ok, ensure_eq_ok, ih]
    constructor
    · rintro ⟨-, hoffset, hoffsets, hstop⟩
      refine ⟨fun i entry' hentry ↦ ?_, by simp [hstop, Nat.add_assoc]⟩
      cases i with
      | zero =>
        obtain rfl : entry = entry' := by simpa using hentry
        simpa using hoffset
      | succ i =>
        have := hoffsets i entry' (by simpa using hentry)
        simp [this, Nat.add_assoc]
    · intro h
      refine ⟨(), by simpa using h.offsets 0 entry rfl, fun i entry' hentry ↦ ?_, ?_⟩
      · have := h.offsets (i + 1) entry' (by simpa using hentry)
        simpa [Nat.add_assoc] using this
      · have := h.stop
        simpa [Nat.add_assoc] using this

private theorem validateTiling_eq_ok {sections : List FileEntry} {tocOffset : ℕ} :
    validateTiling sections tocOffset = .ok () ↔ Tiled headerSize sections tocOffset := by
  simp only [validateTiling, Except.bind_eq_ok, ensure_eq_ok, tile_eq_ok]
  constructor
  · rintro ⟨stop, h, rfl⟩
    exact h
  · exact fun h ↦ ⟨tocOffset, h, rfl⟩

/-- The hexadecimal digits of a pack name. -/
structure PackDigest (hash : HashKind) (digest : Bytes) : Prop where
  length : digest.length = hexLength hash
  lower : digest.all isLowerHex = true

private theorem packStem_eq_some {name extension stem : Bytes} {hash : HashKind} :
    packStem name extension hash = some stem ↔
      ∃ digest, PackDigest hash digest ∧ stem = Bytes.ascii "pack-" ++ digest ∧
        name = stem ++ extension := by
  have hfive : (Bytes.ascii "pack-").length = 5 := by decide
  unfold packStem
  simp only [Option.ite_none_right_eq_some, Option.some.injEq]
  constructor
  · rintro ⟨⟨hhead, hlength, hlower, hext⟩, rfl⟩
    refine ⟨(name.take (5 + hexLength hash)).drop 5, ⟨hlength, hlower⟩, ?_, ?_⟩
    · rw [← hhead, List.take_append_drop]
    · rw [← hext, List.take_append_drop]
  · rintro ⟨digest, ⟨hlength, hlower⟩, rfl, rfl⟩
    have htotal : (Bytes.ascii "pack-" ++ digest).length = 5 + hexLength hash := by
      rw [List.length_append, hfive, hlength]
    have htake : (Bytes.ascii "pack-" ++ digest ++ extension).take (5 + hexLength hash) =
        Bytes.ascii "pack-" ++ digest := by
      rw [← htotal, List.take_left]
    have hdrop : (Bytes.ascii "pack-" ++ digest).drop 5 = digest := by
      rw [← hfive, List.drop_left]
    refine ⟨⟨?_, ?_, ?_, ?_⟩, htake⟩
    · rw [htake, ← hfive, List.take_left]
    · rw [htake, hdrop, hlength]
    · rw [htake, hdrop, hlower]
    · rw [← htotal, List.drop_left]

/-- The kinds and names of a pack and its index. -/
def packPair (digest : Bytes) : List (FileKind × Bytes) :=
  [(.pack, Bytes.ascii "pack-" ++ digest ++ Bytes.ascii ".pack"),
    (.idx, Bytes.ascii "pack-" ++ digest ++ Bytes.ascii ".idx")]

private theorem validatePairs_eq_ok (hash : HashKind) : ∀ entries : List FileEntry,
    validatePairs hash entries = .ok () ↔
      ∃ digests : List Bytes, (∀ digest ∈ digests, PackDigest hash digest) ∧
        entries.map (fun entry ↦ (entry.kind, entry.name)) = digests.flatMap packPair
  | [] => iff_of_true rfl ⟨[], by simp, rfl⟩
  | [entry] => by
    refine iff_of_false nofun ?_
    rintro ⟨digests, -, heq⟩
    cases digests with
    | nil => cases heq
    | cons digest digests => simp [packPair] at heq
  | pack :: index :: rest => by
    rw [validatePairs]
    constructor
    · intro h
      split at h
      · next hkinds =>
        split at h
        · next stem stem' hpack hindex =>
          split at h
          · next hstem =>
            subst hstem
            obtain ⟨digest, hdigest, rfl, hname⟩ := packStem_eq_some.mp hpack
            obtain ⟨-, -, -, hname'⟩ := packStem_eq_some.mp hindex
            obtain ⟨digests, hdigests, heq⟩ := (validatePairs_eq_ok hash rest).mp h
            refine ⟨digest :: digests, List.forall_mem_cons.mpr ⟨hdigest, hdigests⟩, ?_⟩
            rw [List.map_cons, List.map_cons, heq, hkinds.1, hkinds.2, hname, hname']
            rfl
          · cases h
        · cases h
      · cases h
    · rintro ⟨digests, hdigests, heq⟩
      cases digests with
      | nil => cases heq
      | cons digest digests =>
        obtain ⟨hdigest, hdigests⟩ := List.forall_mem_cons.mp hdigests
        rw [List.flatMap_cons, packPair, List.map_cons, List.map_cons] at heq
        obtain ⟨⟨hkind, hname⟩, ⟨hkind', hname'⟩, hrest⟩ :
            (pack.kind = .pack ∧ pack.name = _) ∧ (index.kind = .idx ∧ index.name = _) ∧ _ = _ := by
          simpa using heq
        have hpack := packStem_eq_some.mpr ⟨digest, hdigest, rfl, hname⟩
        have hindex := packStem_eq_some.mpr ⟨digest, hdigest, rfl, hname'⟩
        rw [if_pos ⟨hkind, hkind'⟩, hpack, hindex]
        dsimp only
        rw [if_pos rfl]
        exact (validatePairs_eq_ok hash rest).mpr ⟨digests, hdigests, hrest⟩

/-! ### Bundles -/

/-- The rules for the contents of a table of contents that stands at `tocOffset`. -/
structure TocContent.Valid (content : TocContent) (tocOffset : ℕ) : Prop where
  generation : 1 ≤ content.generation ∧ content.generation < 2 ^ 64
  counts : content.metadata.length < 2 ^ 32 ∧ content.files.length < 2 ^ 32 ∧
    content.refs.length < 2 ^ 32
  metadata : ∀ row ∈ content.metadata, MetadataRow row
  metadataSorted : (content.metadata.map Prod.fst).Pairwise (· < ·)
  sourceIdentity : ∃ row ∈ content.metadata, row.1 = Bytes.ascii "source_identity"
  shallowRoots : ∀ row ∈ content.metadata, row.1 ≠ Bytes.ascii "shallow_roots"
  files : ∀ row ∈ content.files, FileRow row
  filesUnique : (content.files.map FileEntry.name).Nodup
  tiled : Tiled headerSize content.files tocOffset
  paired : ∃ digests : List Bytes, (∀ digest ∈ digests, PackDigest content.hashAlgorithm digest) ∧
    (content.files.filter (·.kind.isKnown)).map (fun entry ↦ (entry.kind, entry.name)) =
      digests.flatMap packPair
  refs : ∀ row ∈ content.refs, RefRow content.hashAlgorithm row
  refsSorted : (content.refs.map RefEntry.name).Pairwise (· < ·)

private theorem validateMetadata_eq_ok {metadata : List (Bytes × Bytes)} :
    validateMetadata metadata = .ok () ↔
      (∀ row ∈ metadata, row.1 ≠ Bytes.ascii "shallow_roots") ∧
        ∃ row ∈ metadata, row.1 = Bytes.ascii "source_identity" := by
  simp only [validateMetadata, Except.bind_eq_ok, ensure_eq_ok, exists_const]

private theorem parseToc_eq_ok {bytes tail : Bytes} {tocOffset : ℕ} {content : TocContent} :
    parseToc bytes tocOffset = .ok (content, tail) ↔
      content.Valid tocOffset ∧ bytes = encodeSorted content ++ tail := by
  simp only [parseToc, Except.bind_eq_ok, ensure_eq_ok, takeU32, takeU64]
  constructor
  · rintro ⟨⟨code, rest₁⟩, hcode, hash, hhash, ⟨generation, rest₂⟩, hgen, -, hpos, ⟨n, rest₃⟩, hn,
      ⟨metadata, rest₄⟩, hmeta, ⟨⟩, hvalid, ⟨m, rest₅⟩, hm, ⟨files, rest₆⟩, hfiles, ⟨⟩, htile, ⟨⟩,
      hpairs, ⟨k, rest₇⟩, hk, ⟨refs, rest₈⟩, hrefs, ⟨⟩⟩
    obtain rfl := takeU8_eq_ok.mp hcode
    obtain rfl := decodeHash_eq_ok.mp hhash
    obtain ⟨hgen', rfl⟩ := takeLe_eq_ok.mp hgen
    obtain ⟨hn', rfl⟩ := takeLe_eq_ok.mp hn
    obtain ⟨rfl, rfl, hmsorted, hmrows⟩ := parseMetadata_eq_ok.mp hmeta
    obtain ⟨hshallow, hsource⟩ := validateMetadata_eq_ok.mp hvalid
    obtain ⟨hm', rfl⟩ := takeLe_eq_ok.mp hm
    obtain ⟨rfl, rfl, hunique, hfrows⟩ := parseFiles_eq_ok.mp hfiles
    obtain ⟨hk', rfl⟩ := takeLe_eq_ok.mp hk
    obtain ⟨rfl, rfl, hrsorted, hrrows⟩ := parseRefs_eq_ok.mp hrefs
    refine ⟨⟨⟨hpos, hgen'⟩, ⟨hn', hm', hk'⟩, hmrows, hmsorted, hsource, hshallow, hfrows, hunique,
      validateTiling_eq_ok.mp htile, (validatePairs_eq_ok _ _).mp hpairs, hrrows, hrsorted⟩, ?_⟩
    simp [encodeSorted]
  · rintro ⟨h, rfl⟩
    refine ⟨⟨_, _⟩, takeU8_eq_ok.mpr (List.cons_append ..), content.hashAlgorithm,
      decodeHash_eq_ok.mpr rfl, ⟨content.generation, Bytes.toLe 4 content.metadata.length ++
        (content.metadata.flatMap encodeMetadata ++ (Bytes.toLe 4 content.files.length ++
        (content.files.flatMap encodeFile ++ (Bytes.toLe 4 content.refs.length ++
        (content.refs.flatMap encodeRef ++ tail)))))⟩,
      takeLe_eq_ok.mpr ⟨h.generation.2, by simp⟩, (), h.generation.1, ⟨_, _⟩,
      takeLe_eq_ok.mpr ⟨h.counts.1, rfl⟩, ⟨content.metadata, _⟩,
      parseMetadata_eq_ok.mpr ⟨rfl, rfl, h.metadataSorted, h.metadata⟩, (),
      validateMetadata_eq_ok.mpr ⟨h.shallowRoots, h.sourceIdentity⟩, ⟨_, _⟩,
      takeLe_eq_ok.mpr ⟨h.counts.2.1, rfl⟩, ⟨content.files, _⟩,
      parseFiles_eq_ok.mpr ⟨rfl, rfl, h.filesUnique, h.files⟩, (), validateTiling_eq_ok.mpr h.tiled,
      (), (validatePairs_eq_ok _ _).mpr h.paired, ⟨_, _⟩, takeLe_eq_ok.mpr ⟨h.counts.2.2, rfl⟩,
      ⟨content.refs, _⟩, parseRefs_eq_ok.mpr ⟨rfl, rfl, h.refsSorted, h.refs⟩, rfl⟩

/-- What a bundle holds: its table of contents, the bytes of its sections and the two parts that
readers of this version ignore. -/
structure Contents extends TocContent where
  minor : ℕ
  body : Bytes
  tail : Bytes

namespace Contents

variable (c : Contents)

/-- Where the table of contents stands. -/
def tocOffset : ℕ := headerSize + c.body.length

/-- The bytes of the table of contents. -/
def toc : Bytes := encodeSorted c.toTocContent ++ c.tail

/-- The rules of the format. -/
structure Valid : Prop where
  minor : c.minor < 2 ^ 16
  tocOffset : c.tocOffset < 2 ^ 64
  tocLen : c.toc.length ≤ maxTocLen
  content : c.toTocContent.Valid c.tocOffset

/-- The header. -/
def header : Bytes := magic ++ Bytes.toLe 2 1 ++ Bytes.toLe 2 c.minor ++ Bytes.toLe 4 0

/-- The bytes of the bundle. -/
def file (sha256 : Bytes → Bytes) : Bytes :=
  c.header ++ c.body ++ c.toc ++ encodeTrailer c.tocOffset c.toc.length (sha256 c.toc)

/-- What the parser makes of it. -/
def parsed (sha256 : Bytes → Bytes) : Toc where
  formatMajor := 1
  formatMinor := c.minor
  hashAlgorithm := c.hashAlgorithm
  generation := c.generation
  metadata := c.metadata
  files := c.files.filter (·.kind.isKnown)
  sections := c.files
  refs := c.refs
  tocOffset := c.tocOffset
  tocLen := c.toc.length
  tocSha256 := sha256 c.toc
  fileSize := c.tocOffset + c.toc.length + trailerSize

end Contents

/-- A byte string is a bundle of format v1. -/
def IsBundle (sha256 : Bytes → Bytes) (file : Bytes) (c : Contents) : Prop :=
  c.Valid ∧ (sha256 c.toc).length = 32 ∧ file = c.file sha256

@[simp] private theorem length_magic : magic.length = 8 := by decide

/-- A field of known width is what its number encodes to. -/
theorem toLe_ofLe_of_length {bytes : Bytes} {width : ℕ} (h : bytes.length = width) :
    Bytes.toLe width (Bytes.ofLe bytes) = bytes := by
  rw [← h, Bytes.toLe_ofLe]

private theorem ofLe_lt_of_length {bytes : Bytes} {width : ℕ} (h : bytes.length = width) :
    Bytes.ofLe bytes < 256 ^ width := by
  rw [← h]
  exact Bytes.ofLe_lt bytes

/-- A slice and what follows it. -/
theorem slice_append (bytes : Bytes) (i n : ℕ) :
    (bytes.drop i).take n ++ bytes.drop (i + n) = bytes.drop i := by
  rw [← List.drop_drop, List.take_append_drop]

/-- The slice that holds a field. -/
theorem slice_eq (bytes a b c : Bytes) {i n : ℕ} (h : bytes = a ++ b ++ c)
    (ha : a.length = i) (hb : b.length = n) : (bytes.drop i).take n = b := by
  rw [h, List.append_assoc, ← ha, List.drop_left, ← hb, List.take_left]

private theorem decodeHeader_eq_ok {bytes : Bytes} {major minor : ℕ} :
    decodeHeader bytes = .ok (major, minor) ↔
      major = 1 ∧ minor < 2 ^ 16 ∧
        bytes = magic ++ Bytes.toLe 2 1 ++ Bytes.toLe 2 minor ++ Bytes.toLe 4 0 := by
  simp only [decodeHeader, Except.bind_eq_ok, ensure_eq_ok]
  constructor
  · rintro ⟨-, ⟨-, hmagic⟩, -, hlength, -, -, -, hmajor, -, hreserved, heq⟩
    cases heq
    have hlength : bytes.length = 16 := hlength
    have h₂ : ((bytes.drop 8).take 2).length = 2 := by simp [hlength]
    have h₃ : ((bytes.drop 10).take 2).length = 2 := by simp [hlength]
    have h₄ : ((bytes.drop 12).take 4).length = 4 := by simp [hlength]
    have hlast : (bytes.drop 12).take 4 = bytes.drop 12 :=
      List.take_of_length_le (by simp [hlength])
    refine ⟨hmajor, ofLe_lt_of_length h₃, ?_⟩
    rw [toLe_ofLe_of_length h₃]
    nth_rewrite 1 [← hmajor]
    rw [toLe_ofLe_of_length h₂, ← hreserved, toLe_ofLe_of_length h₄, ← hmagic, hlast,
      List.append_assoc, slice_append, List.append_assoc, slice_append, List.take_append_drop]
  · rintro ⟨rfl, hminor, h⟩
    have hmagic := slice_eq bytes [] magic (Bytes.toLe 2 1 ++ Bytes.toLe 2 minor ++ Bytes.toLe 4 0)
      (by simp [h]) rfl length_magic
    have hmajor := slice_eq bytes magic (Bytes.toLe 2 1) (Bytes.toLe 2 minor ++ Bytes.toLe 4 0) (by simp [h])
      length_magic (Bytes.length_toLe 2 1)
    have hminor' := slice_eq (i := 10) bytes (magic ++ Bytes.toLe 2 1) (Bytes.toLe 2 minor)
      (Bytes.toLe 4 0) h (by simp) (Bytes.length_toLe 2 minor)
    have hreserved := slice_eq (i := 12) bytes (magic ++ Bytes.toLe 2 1 ++ Bytes.toLe 2 minor)
      (Bytes.toLe 4 0) [] (by simp [h]) (by simp) (Bytes.length_toLe 4 0)
    have hlength : bytes.length = headerSize := by
      rw [h]
      simp [headerSize]
    have hone : Bytes.ofLe ((bytes.drop 8).take 2) = 1 := by
      rw [hmajor]
      decide
    refine ⟨(), ⟨by rw [hlength]; decide, hmagic⟩, (), hlength, (), hone.le, (), hone, (), ?_, ?_⟩
    · rw [hreserved]
      decide
    · rw [hone, hminor', Bytes.ofLe_toLe_of_lt hminor]
      rfl

/-- A trailer is accepted exactly when it is an encoding of its three fields for a file of this size. -/
theorem decodeTrailer_eq_ok {bytes tocSha256 : Bytes} {size tocOffset tocLen : ℕ} :
    decodeTrailer bytes size = .ok (tocOffset, tocLen, tocSha256) ↔
      headerSize ≤ tocOffset ∧ tocOffset < 2 ^ 64 ∧ tocLen < 2 ^ 64 ∧ tocSha256.length = 32 ∧
        tocOffset + tocLen + trailerSize = size ∧
        bytes = encodeTrailer tocOffset tocLen tocSha256 := by
  simp only [decodeTrailer, Except.bind_eq_ok, ensure_eq_ok]
  constructor
  · rintro ⟨-, hlength, -, hmagic, -, hreserved, -, hoffset, -, hsize, heq⟩
    cases heq
    have hlength : bytes.length = 64 := hlength
    have h₁ : (bytes.take 8).length = 8 := by simp [hlength]
    have h₂ : ((bytes.drop 8).take 8).length = 8 := by simp [hlength]
    have h₃ : ((bytes.drop 16).take 32).length = 32 := by simp [hlength]
    have h₄ : ((bytes.drop 48).take 8).length = 8 := by simp [hlength]
    refine ⟨hoffset, ofLe_lt_of_length h₁, ofLe_lt_of_length h₂, h₃, hsize, ?_⟩
    rw [encodeTrailer, toLe_ofLe_of_length h₁, toLe_ofLe_of_length h₂, ← hreserved,
      toLe_ofLe_of_length h₄, ← hmagic, List.append_assoc, slice_append, List.append_assoc,
      slice_append, List.append_assoc, slice_append, List.take_append_drop]
  · rintro ⟨hoffset, hoffset', hlen, hsha, hsize, h⟩
    rw [encodeTrailer] at h
    have hlength : bytes.length = trailerSize := by
      rw [h]
      simp [hsha, trailerSize]
    have h₁ := slice_eq (i := 0) bytes [] (Bytes.toLe 8 tocOffset)
      (Bytes.toLe 8 tocLen ++ tocSha256 ++ Bytes.toLe 8 0 ++ magic) (by simp [h]) rfl
      (Bytes.length_toLe 8 _)
    have h₂ := slice_eq (i := 8) bytes (Bytes.toLe 8 tocOffset) (Bytes.toLe 8 tocLen)
      (tocSha256 ++ Bytes.toLe 8 0 ++ magic) (by simp [h]) (by simp) (Bytes.length_toLe 8 _)
    have h₃ := slice_eq (i := 16) bytes (Bytes.toLe 8 tocOffset ++ Bytes.toLe 8 tocLen) tocSha256
      (Bytes.toLe 8 0 ++ magic) (by simp [h]) (by simp) hsha
    have h₄ := slice_eq (i := 48) bytes (Bytes.toLe 8 tocOffset ++ Bytes.toLe 8 tocLen ++ tocSha256)
      (Bytes.toLe 8 0) magic h (by simp [hsha]) (Bytes.length_toLe 8 _)
    have h₅ := slice_eq (i := 56) bytes
      (Bytes.toLe 8 tocOffset ++ Bytes.toLe 8 tocLen ++ tocSha256 ++ Bytes.toLe 8 0) magic []
      (by simp [h]) (by simp [hsha]) length_magic
    rw [List.drop_zero] at h₁
    rw [List.take_of_length_le (by simp [hlength, trailerSize])] at h₅
    simp only [h₁, h₂, h₃, h₄, h₅, Bytes.ofLe_toLe_of_lt (n := 8) hoffset',
      Bytes.ofLe_toLe_of_lt (n := 8) hlen, hoffset, hsize, hlength]
    exact ⟨(), trivial, (), trivial, (), by decide, (), trivial, (), trivial, rfl⟩

/-- A read succeeds exactly when the file has all the bytes of the range. -/
theorem preadExact_eq_ok {file bytes : Bytes} {offset length : ℕ} {label : String} :
    preadExact file offset length label = .ok bytes ↔
      bytes = (file.drop offset).take length ∧ bytes.length = length := by
  unfold preadExact
  dsimp only
  split
  · next hzero =>
    subst hzero
    simp [eq_comm]
  · split
    · next hlength =>
      constructor
      · rintro ⟨⟩
        exact ⟨rfl, hlength⟩
      · rintro ⟨rfl, -⟩
        rfl
    · next hlength =>
      refine iff_of_false ?_ ?_
      · split <;> exact nofun
      · rintro ⟨rfl, h⟩
        exact hlength h

/-- A trailer has a fixed length. -/
theorem length_encodeTrailer (tocOffset tocLen : ℕ) {tocSha256 : Bytes}
    (h : tocSha256.length = 32) : (encodeTrailer tocOffset tocLen tocSha256).length = trailerSize := by
  simp [encodeTrailer, h, trailerSize]

private theorem Contents.length_header (c : Contents) : c.header.length = headerSize := by
  simp [Contents.header, headerSize]

/-- Where the parts of a bundle are found. -/
theorem Contents.file_parts {sha256 : Bytes → Bytes} (c : Contents)
    (hsha : (sha256 c.toc).length = 32) :
    (c.file sha256).length = c.tocOffset + c.toc.length + trailerSize ∧
      (c.file sha256).take headerSize = c.header ∧
      ((c.file sha256).drop c.tocOffset).take c.toc.length = c.toc ∧
      ((c.file sha256).drop (c.tocOffset + c.toc.length)).take trailerSize =
        encodeTrailer c.tocOffset c.toc.length (sha256 c.toc) := by
  have hheader := c.length_header
  have htrailer := length_encodeTrailer c.tocOffset c.toc.length hsha
  refine ⟨?_, ?_, ?_, ?_⟩
  · simp only [Contents.file, List.length_append, hheader, htrailer]
    rfl
  · rw [← hheader, Contents.file, List.append_assoc, List.append_assoc, List.take_left]
  · exact slice_eq _ (c.header ++ c.body) _ _ rfl (by simp [hheader, Contents.tocOffset]) rfl
  · exact slice_eq _ (c.header ++ c.body ++ c.toc) _ [] (by simp [Contents.file])
      (by simp [hheader, Contents.tocOffset, Nat.add_assoc]) htrailer

/-- A file is parsed exactly when it is a bundle, and to the contents of it. -/
theorem parse_eq_ok {sha256 : Bytes → Bytes} {file : Bytes} {toc : Toc} :
    parse sha256 file = .ok toc ↔ ∃ c, IsBundle sha256 file c ∧ toc = c.parsed sha256 := by
  simp only [parse, Except.bind_eq_ok, ensure_eq_ok]
  constructor
  · rintro ⟨⟨major, minor⟩, hheader, -, hminimum, trailer, htrailer, ⟨tocOffset, tocLen, tocSha256⟩,
      hdecode, -, hceiling, tocBytes, htoc, -, hsha, ⟨content, tail⟩, hparse, heq⟩
    cases heq
    obtain ⟨rfl, hminor, hheader⟩ := decodeHeader_eq_ok.mp hheader
    obtain ⟨htrailer, -⟩ := preadExact_eq_ok.mp htrailer
    obtain ⟨hoffset, hoffset', hlen, hwidth, hsize, hdecode⟩ := decodeTrailer_eq_ok.mp hdecode
    obtain ⟨htoc, htocLen⟩ := preadExact_eq_ok.mp htoc
    obtain ⟨hvalid, hbytes⟩ := parseToc_eq_ok.mp hparse
    have hminimum : 80 ≤ file.length := hminimum
    have hoffset : 16 ≤ tocOffset := hoffset
    have hsize : tocOffset + tocLen + 64 = file.length := hsize
    rw [show min file.length headerSize = 16 from min_eq_right (by omega)] at hheader
    have hbody : ((file.drop 16).take (tocOffset - 16)).length = tocOffset - 16 := by
      simp only [List.length_take, List.length_drop]
      omega
    -- The region between the header and the table of contents is the body.
    have hlast : (file.drop (file.length - trailerSize)).take trailerSize =
        file.drop (tocOffset + tocLen) := by
      rw [List.take_of_length_le (by simp only [List.length_drop, trailerSize]; omega), trailerSize]
      congr 1
      omega
    have hparts : file = file.take 16 ++ (file.drop 16).take (tocOffset - 16) ++
        (file.drop tocOffset).take tocLen ++ file.drop (tocOffset + tocLen) := by
      have hback := slice_append file 16 (tocOffset - 16)
      rw [show 16 + (tocOffset - 16) = tocOffset by omega] at hback
      rw [List.append_assoc, slice_append, List.append_assoc, hback, List.take_append_drop]
    let c : Contents := ⟨content, minor, (file.drop 16).take (tocOffset - 16), tail⟩
    have hc : c.tocOffset = tocOffset := by
      simp only [c, Contents.tocOffset, hbody, headerSize]
      omega
    have hctoc : c.toc = tocBytes := hbytes.symm
    refine ⟨c, ⟨⟨hminor, by rw [hc]; exact hoffset', ?_, ?_⟩, ?_, ?_⟩, ?_⟩
    · rw [hctoc, htocLen]
      exact hceiling
    · rw [hc]
      exact hvalid
    · rw [hctoc, hsha]
      exact hwidth
    · rw [Contents.file, hctoc, hc, hsha, htocLen, ← hdecode, htrailer, hlast, htoc]
      rw [Contents.header, ← hheader]
      exact hparts
    · simp only [Contents.parsed, hc, hctoc, htocLen, hsha]
      rw [← hsize]
      rfl
  · rintro ⟨c, ⟨hvalid, hsha, rfl⟩, rfl⟩
    obtain ⟨hsize, hheader, htoc, htrailer⟩ := c.file_parts hsha
    have hlen : c.toc.length < 2 ^ 64 := hvalid.tocLen.trans_lt (by decide)
    refine ⟨(1, c.minor), decodeHeader_eq_ok.mpr ⟨rfl, hvalid.minor, ?_⟩, (), ?_, _,
      preadExact_eq_ok.mpr ⟨?_, length_encodeTrailer c.tocOffset c.toc.length hsha⟩,
      (c.tocOffset, c.toc.length, sha256 c.toc),
      decodeTrailer_eq_ok.mpr ⟨?_, hvalid.tocOffset, hlen, hsha, hsize.symm, rfl⟩, (), hvalid.tocLen,
      c.toc, preadExact_eq_ok.mpr ⟨htoc.symm, rfl⟩, (), rfl, (c.toTocContent, c.tail),
      parseToc_eq_ok.mpr ⟨hvalid.content, rfl⟩, ?_⟩
    · rw [hsize, min_eq_right (by simp only [Contents.tocOffset]; omega), hheader]
      rfl
    · rw [hsize]
      simp only [Contents.tocOffset, minimumSize]
      omega
    · rw [hsize, Nat.add_sub_cancel, htrailer]
    · exact Nat.le_add_right _ _
    · simp only [hsize, Contents.parsed]
      rfl

/-! ### Sorting -/

/-- Sorting by a key does nothing to rows whose keys ascend. -/
theorem mergeSort_of_ascending {α : Type} (key : α → Bytes) {rows : List α}
    (h : (rows.map key).Pairwise (· < ·)) : rows.mergeSort (fun a b ↦ key a ≤ key b) = rows := by
  apply List.mergeSort_of_pairwise
  refine (List.pairwise_map.mp h).imp fun hlt ↦ ?_
  exact decide_eq_true (List.le_of_lt hlt)

/-- The parser accepts exactly the bundles of format v1, and what it returns encodes to the bytes of
the table of contents again, up to the tail that it ignores. -/
theorem parse_iff_bundle (sha256 : Bytes → Bytes) (file : Bytes) :
    ((∃ toc, parse sha256 file = .ok toc) ↔ ∃ c, IsBundle sha256 file c) ∧
      ∀ toc, parse sha256 file = .ok toc →
        (∃ c, IsBundle sha256 file c ∧ toc = c.parsed sha256) ∧
        ∃ tail, (file.drop toc.tocOffset).take toc.tocLen =
          encodeToc ⟨toc.hashAlgorithm, toc.generation, toc.metadata, toc.sections, toc.refs⟩ ++
            tail := by
  constructor
  · constructor
    · rintro ⟨toc, h⟩
      obtain ⟨c, hc, -⟩ := parse_eq_ok.mp h
      exact ⟨c, hc⟩
    · rintro ⟨c, hc⟩
      exact ⟨c.parsed sha256, parse_eq_ok.mpr ⟨c, hc, rfl⟩⟩
  · intro toc h
    obtain ⟨c, ⟨hvalid, hsha, rfl⟩, rfl⟩ := parse_eq_ok.mp h
    refine ⟨⟨c, ⟨hvalid, hsha, rfl⟩, rfl⟩, c.tail, ?_⟩
    obtain ⟨-, -, htoc, -⟩ := c.file_parts hsha
    have hmetadata := mergeSort_of_ascending Prod.fst hvalid.content.metadataSorted
    have hrefs := mergeSort_of_ascending RefEntry.name hvalid.content.refsSorted
    simp only [Contents.parsed, htoc, encodeToc, hmetadata, hrefs]
    rfl

end Gitility.Bundle
