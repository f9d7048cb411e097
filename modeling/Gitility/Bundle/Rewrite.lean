import Gitility.Base.Delimited
import Gitility.Bundle.Generations

/-!
# Rewriting a bundle

`write_validated` and `publish` of `lib/gitility/bundle.ex` on a path that holds a bundle, and what a reader of
the file says about the generation.
-/

namespace Gitility.Bundle

/-- `write_validated` with the `publish` it ends in: the receipt and the file that replaces the destination.
`source` is the outcome of `source_path` and `refuse_shallow_source`, `repository` that of `Repository.open`. -/
def writeValidated (sha256 : Bytes → Bytes) (timestamp : Bytes → Bool) (source : Except Error Bytes)
    (opts : WriteOptions) (requested : Option ℕ) (repository : Except Error Repository)
    (directories : List (List Artifact)) (loose : Option (List Artifact)) (destination : Option Bytes) :
    Except Error (Writer.Receipt × Bytes) := do
  let source ← source
  let generation ← nextGeneration sha256 destination requested
  let entries ← metadata timestamp source opts
  let repository ← repository
  let pairs ← collect directories loose
  validateInventory pairs repository.hash
  let (refs, head, warnings) ← snapshotRefs repository opts.strictRefs
  Writer.write sha256 ⟨pairs, repository.hash, generation, merge entries head, refs, warnings⟩

/-- A reader accepts the file and finds a greater generation in it. -/
def Surpasses (sha256 : Bytes → Bytes) (file : Bytes) (generation : ℕ) : Prop :=
  ∃ toc, parse sha256 file = .ok toc ∧ generation < toc.generation

variable {sha256 : Bytes → Bytes}

/-! ### The rows of a file -/

private theorem delimited_lengthPrefixed : Delimited lengthPrefixed (·.length < 256 ^ 4) :=
  .framed (.ofLength 4 (Bytes.length_toLe 4) fun a b ha hb h ↦ by
    rw [← Bytes.ofLe_toLe_of_lt ha, ← Bytes.ofLe_toLe_of_lt hb, h])

private theorem delimited_encodeMetadata :
    Delimited encodeMetadata (fun row ↦ row.1.length < 256 ^ 4 ∧ row.2.length < 256 ^ 4) :=
  delimited_lengthPrefixed.prod delimited_lengthPrefixed

/-- The table of contents determines the metadata rows. -/
theorem Contents.metadata_of_toc {c c' : Contents} (h : c.toc = c'.toc) (hlen : c.toc.length < 256 ^ 4) :
    c.metadata = c'.metadata := by
  have hrow : ∀ c : Contents, c.toc.length < 256 ^ 4 → ∀ row ∈ c.metadata,
      row.1.length < 256 ^ 4 ∧ row.2.length < 256 ^ 4 := by
    intro c hlen row hrow
    have hle := (List.sublist_flatten_of_mem (List.mem_map_of_mem hrow : encodeMetadata row ∈ _)).length_le
    rw [← List.flatMap_def] at hle
    simp only [toc, encodeSorted, List.length_cons, List.length_append, Bytes.length_toLe] at hlen
    simp only [encodeMetadata, lengthPrefixed, List.length_append, Bytes.length_toLe] at hle
    omega
  have hcount : ∀ c : Contents, c.toc.length < 256 ^ 4 → c.metadata.length < 256 ^ 4 := by
    intro c hlen
    have hle := @length_le_div _ c.metadata encodeMetadata [] 1 Nat.one_pos fun row _ ↦ by
      simp only [encodeMetadata, lengthPrefixed, List.length_append, Bytes.length_toLe]
      omega
    rw [List.append_nil, Nat.div_one] at hle
    simp only [toc, encodeSorted, List.length_cons, List.length_append, Bytes.length_toLe] at hlen
    omega
  have hrows := hrow c hlen
  have hrows' := hrow c' (h ▸ hlen)
  have hcounts := hcount c hlen
  have hcounts' := hcount c' (h ▸ hlen)
  simp only [toc, encodeSorted, List.append_assoc, List.cons_append] at h
  obtain ⟨-, h⟩ := List.cons.inj h
  have h := List.append_inj_right h ((Bytes.length_toLe 8 _).trans (Bytes.length_toLe 8 _).symm)
  obtain ⟨hfield, h⟩ := List.append_inj h ((Bytes.length_toLe 4 _).trans (Bytes.length_toLe 4 _).symm)
  have hlength : c.metadata.length = c'.metadata.length := by
    rw [← Bytes.ofLe_toLe_of_lt hcounts, hfield, Bytes.ofLe_toLe_of_lt hcounts']
  exact (delimited_encodeMetadata.flatMap_of_length hrows hrows' hlength h).1

/-- Every reader of a published file finds the metadata that was written, so none of its values is long. -/
theorem short_of_parse (hsha : ∀ bytes, (sha256 bytes).length = 32) {input : Writer.Input}
    {receipt : Writer.Receipt} {file : Bytes} {toc : Toc}
    (hwrite : Writer.write sha256 input = .ok (receipt, file)) (hparse : parse sha256 file = .ok toc) :
    ∀ row ∈ input.metadata, row.2.length ≤ 65536 := by
  obtain ⟨c, hvalid, -, heq⟩ := BundlePath.toc_of_parse hsha hwrite hparse
  have hrows := Contents.metadata_of_toc heq (hvalid.tocLen.trans_lt (by decide))
  intro row hrow
  have hmem : row ∈ c.metadata := by
    rw [hrows]
    exact (List.mergeSort_perm input.metadata _).mem_iff.mpr hrow
  exact (hvalid.content.metadata row hmem).value.1

/-! ### The generation of a rewrite -/

/-- A call that computes its generation and succeeds leaves a bundle of a greater generation, unless the
snapshot records a head that is too long for the format. -/
theorem surpasses_iff_of_writeValidated (hsha : ∀ bytes, (sha256 bytes).length = 32) {timestamp : Bytes → Bool}
    {source : Except Error Bytes} {opts : WriteOptions} {repository : Except Error Repository}
    {directories : List (List Artifact)} {loose : Option (List Artifact)} {old : Bytes} {toc : Toc}
    (hparse : parse sha256 old = .ok toc) {receipt : Writer.Receipt} {file : Bytes}
    (h : writeValidated sha256 timestamp source opts none repository directories loose (some old) =
      .ok (receipt, file)) :
    Surpasses sha256 file toc.generation ↔ ∀ found, repository = .ok found → ¬ LongHead found opts.strictRefs := by
  simp only [writeValidated, Except.bind_eq_ok] at h
  obtain ⟨_, rfl, generation, hnext, entries, hmetadata, found, rfl, pairs, hcollect, _, hinventory,
    ⟨refs, head, warnings⟩, hrefs, hwrite⟩ := h
  obtain ⟨hgreater, -, hbound⟩ := BundlePath.nextGeneration_eq_ok hnext
  have hless := hgreater old toc rfl hparse
  have hmax := hbound fun _ hnone ↦ absurd hnone (Option.not_mem_none _)
  have hgeneration : 1 ≤ generation ∧ generation < 2 ^ 64 :=
    ⟨Nat.one_le_of_lt hless, Nat.lt_succ_of_le hmax⟩
  obtain ⟨-, hshort, hopen⟩ := Writer.publish_spec hsha hcollect hinventory hmetadata hgeneration hrefs hwrite
  constructor
  · rintro ⟨toc', hparse', -⟩ _ ⟨⟩
    exact hshort.mp (short_of_parse hsha hwrite hparse')
  · intro hhead
    obtain ⟨toc', hopens⟩ := hopen (hhead found rfl)
    exact ⟨toc', hopens.parsed, hless.trans_eq hopens.generation.symm⟩

end Gitility.Bundle
