import Gitility.Bundle.Rewrite
import Gitility.PackFetch.PersistExact

/-!
# The generation after a rewrite

`Bundle.write` without a requested generation and `maybe_write_snapshot` replace the bundle at a path by one of
the next generation. The first refuses to follow the last generation, the second does not look.
-/

namespace Gitility.PackFetch

open Gitility.Bundle

variable {sha256 : Bytes → Bytes}

/-- A hydration that rewrites the bundle leaves a greater generation unless it follows the last one. -/
theorem surpasses_iff_of_persistBundle (hsha : ∀ bytes, (sha256 bytes).length = 32) {scratch : Scratch}
    {hash : HashKind} {manifest : PackManifest} {context : BundleContext} {force : Bool}
    (hvalid : manifest.validate hash = .ok ()) {old : Bytes} {toc : Toc} (hparse : parse sha256 old = .ok toc)
    {file : Bytes}
    (h : persistBundle sha256 scratch hash manifest context (some old) force = .ok (some file)) :
    Surpasses sha256 file toc.generation ↔ toc.generation ≠ maximumGeneration := by
  obtain ⟨hready, hcase⟩ := persistBundle_eq_ok hvalid h
  rcases hcase with ⟨_, _, -, -, -, hnone⟩ | ⟨generation, receipt, file', hfile, hwrite, hbefore⟩
  · cases hnone
  cases hfile
  rcases hbefore with ⟨hnone, -⟩ | ⟨_, found, hold, hfound, -, rfl⟩
  · cases hnone
  cases hold
  cases hfound.symm.trans hparse
  have hbound := (BundlePath.generation_bounds hparse).2
  constructor
  · rintro ⟨toc', hparse', -⟩ hmax
    rw [hmax] at hwrite
    exact parse_of_overflow hsha hwrite hparse'
  · intro hne
    have hlt : toc.generation + 1 < 2 ^ 64 := Nat.succ_lt_succ (Nat.lt_of_le_of_ne hbound hne)
    obtain ⟨toc', hopens⟩ := opens_of_write hsha hvalid hready ⟨Nat.succ_pos _, hlt⟩ hwrite
    exact ⟨toc', hopens.parsed, (Nat.lt_succ_self _).trans_eq hopens.generation.symm⟩

/-- A bundle that is rewritten is replaced by a readable bundle of a greater generation: by `Bundle.write`
exactly when no head is recorded that is too long for the format, and by a hydration exactly when the old bundle
is not of the last generation. -/
theorem rewrites_surpass_iff (hsha : ∀ bytes, (sha256 bytes).length = 32) {old : Bytes} {toc : Toc}
    (hparse : parse sha256 old = .ok toc) :
    (∀ (timestamp : Bytes → Bool) (source : Except Error Bytes) (opts : WriteOptions)
        (repository : Except Error Repository) (directories : List (List Artifact))
        (loose : Option (List Artifact)) (receipt : Writer.Receipt) (file : Bytes),
        writeValidated sha256 timestamp source opts none repository directories loose (some old) =
            .ok (receipt, file) →
          (Surpasses sha256 file toc.generation ↔
            ∀ found, repository = .ok found → ¬ LongHead found opts.strictRefs)) ∧
      ∀ (scratch : Scratch) (hash : HashKind) (manifest : PackManifest) (context : BundleContext)
        (force : Bool) (file : Bytes), manifest.validate hash = .ok () →
        persistBundle sha256 scratch hash manifest context (some old) force = .ok (some file) →
          (Surpasses sha256 file toc.generation ↔ toc.generation ≠ maximumGeneration) := by
  constructor
  · intro timestamp source opts repository directories loose receipt file h
    exact surpasses_iff_of_writeValidated hsha hparse h
  · intro scratch hash manifest context force file hvalid h
    exact surpasses_iff_of_persistBundle hsha hvalid hparse h

/-- The digests of the tables of contents of the first two generations. -/
def firstSha256 (bytes : Bytes) : Bytes :=
  if (bytes.drop 1).take 1 = [0x01] then
    [0x40, 0xd2, 0x5a, 0xe1, 0xca, 0x4b, 0xca, 0x0b, 0xf1, 0xc1, 0x4e, 0x18, 0x0a, 0x19, 0xf1, 0x8d,
      0xda, 0x96, 0xda, 0x95, 0x37, 0x47, 0x87, 0xab, 0x9e, 0x33, 0x70, 0x21, 0xc6, 0x4f, 0x92, 0x3b]
  else
    [0x33, 0x83, 0x30, 0xcd, 0xdd, 0x21, 0x14, 0x5f, 0x3a, 0x72, 0x58, 0x1a, 0x72, 0x72, 0xad, 0x92,
      0xaf, 0x32, 0xd5, 0xd2, 0x55, 0x5a, 0xc6, 0x8d, 0x32, 0x96, 0xff, 0xa2, 0x7d, 0x19, 0x82, 0x05]

private theorem length_firstSha256 (bytes : Bytes) : (firstSha256 bytes).length = 32 := by
  rw [firstSha256]
  split <;> rfl

/-- The second generation follows the first. -/
theorem rewrites_surpass_sample : ∃ old toc file, parse firstSha256 old = .ok toc ∧ toc.generation = 1 ∧
    persistBundle firstSha256 (fun _ ↦ none) .sha1 (sampleManifest [])
      (sampleContext (Bytes.ascii "new") new_ascii) (some old) false = .ok (some file) ∧
    Surpasses firstSha256 file 1 := by
  obtain ⟨old, toc, _, file, hexact, hgeneration, -, -, hpersist⟩ :=
    persist_new_identity length_firstSha256 ⟨le_refl 1, by decide⟩
  have hiff := (rewrites_surpass_iff length_firstSha256 hexact.parsed).2 _ _ _ _ _ _ rfl hpersist
  rw [hgeneration] at hiff
  exact ⟨old, toc, file, hexact.parsed, hgeneration, hpersist, hiff.mpr (by decide)⟩

/-- The bundle of the last generation is replaced by a file that no reader accepts. -/
theorem rewrite_after_last : ∃ old toc file, parse lastSha256 old = .ok toc ∧
    toc.generation = 18446744073709551615 ∧ (sampleManifest []).validate .sha1 = .ok () ∧
    prepareBundleDestination lastSha256 .sha1 (some old) = .ok false ∧
    persistBundle lastSha256 (fun _ ↦ none) .sha1 (sampleManifest [])
      (sampleContext (Bytes.ascii "new") new_ascii) (some old) false = .ok (some file) ∧
    ¬ Surpasses lastSha256 file toc.generation := by
  obtain ⟨old, toc, _, file, hexact, hgeneration, hprepare, hwritten, hpersist⟩ :=
    persist_new_identity length_lastSha256 ⟨by decide, le_refl maximumGeneration⟩
  refine ⟨old, toc, file, hexact.parsed, hgeneration, rfl, hprepare, hpersist, ?_⟩
  rintro ⟨found, hfound, -⟩
  exact parse_of_overflow length_lastSha256 hwritten hfound

end Gitility.PackFetch
