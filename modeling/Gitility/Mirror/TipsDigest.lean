import Gitility.Base.Lines
import Gitility.Bundle.Sections
import Gitility.Mirror.Publish

/-!
# What a tips digest identifies

`tips_digest` hashes one line for each reference and one for a symbolic `HEAD`, sorted and concatenated. The
lines can be told apart again, because no reference name contains a space or a line feed and no hexadecimal
digest begins with a hyphen.
-/

namespace Gitility

open Gitility.Bundle

namespace RefName

private theorem components_of_validate {name : Bytes} (h : validate name = .ok ()) :
    (components name).all validComponent = true := by
  by_contra hcomponents
  rw [validate, if_neg hcomponents] at h
  split_ifs at h

private theorem mem_intercalate {sep byte : UInt8} {pieces : List Bytes} (h : byte ∈ [sep].intercalate pieces) :
    byte = sep ∨ ∃ piece ∈ pieces, byte ∈ piece := by
  induction pieces with
  | nil => cases h
  | cons piece pieces ih =>
    by_cases hne : pieces = []
    · rw [hne, List.intercalate_singleton] at h
      exact .inr ⟨piece, List.mem_cons_self, h⟩
    · rw [List.intercalate_cons_of_ne_nil hne, List.mem_append, List.mem_append, List.mem_singleton] at h
      rcases h with (h | h) | h
      · exact .inr ⟨piece, List.mem_cons_self, h⟩
      · exact .inl h
      · rcases ih h with hsep | ⟨later, hlater, hmem⟩
        · exact .inl hsep
        · exact .inr ⟨later, List.mem_cons_of_mem _ hlater, hmem⟩

/-- A portable name has no control characters and no spaces. -/
theorem space_lt_of_validate {name : Bytes} (h : validate name = .ok ()) : ∀ byte ∈ name, 0x20 < byte := by
  intro byte hbyte
  have hsplit : [0x2F].intercalate (components name) = name := List.intercalate_splitOn 0x2F
  rw [← hsplit] at hbyte
  rcases mem_intercalate hbyte with rfl | ⟨component, hcomponent, hmem⟩
  · decide
  · have hvalid := List.all_eq_true.mp (components_of_validate h) component hcomponent
    simp only [validComponent, decide_eq_true_eq, List.all_eq_true] at hvalid
    exact (hvalid.2.2.2.2.2.2 byte hmem).1

end RefName

namespace Mirror

/-- The line of a reference. -/
def refLine (tip : Bytes × Bytes) : Bytes := tip.1 ++ 0x20 :: (encode16 tip.2 ++ [0x0a])

/-- The line of a symbolic head. -/
def headLine (symref : Bytes) : Bytes :=
  Bytes.ascii "HEAD" ++ 0x20 :: (Bytes.ascii "-> " ++ symref ++ [0x0a])

/-- What a reference contributes. -/
def tip (ref : RefEntry) : Bytes × Bytes := (ref.name, ref.target)

/-- The lines that `tips_digest` sorts. -/
def tipLines (refs : List RefEntry) (head : Option Bytes) : List Bytes :=
  (head.map headLine).toList ++ refs.map fun ref ↦ refLine (tip ref)

/-- The bytes that `tips_digest` hashes. -/
def tipsMessage (refs : List RefEntry) (head : Option Bytes) : Bytes :=
  ((tipLines refs head).mergeSort fun a b ↦ a ≤ b).flatten

private theorem tipsDigest_eq (sha256 : Bytes → Bytes) (refs : List RefEntry) (head : Option Bytes) :
    tipsDigest sha256 refs head = encode16 (sha256 (tipsMessage refs head)) := by
  have hrefs : (refs.map fun ref ↦ ref.name ++ Bytes.ascii " " ++ encode16 ref.target ++ Bytes.ascii "\n") =
      refs.map fun ref ↦ refLine (tip ref) := by
    refine List.map_congr_left fun ref _ ↦ ?_
    simp [refLine, tip, Bytes.ascii]
  have hhead : (head.map fun symref ↦ Bytes.ascii "HEAD -> " ++ symref ++ Bytes.ascii "\n") =
      head.map headLine := by
    cases head <;> simp [headLine, Bytes.ascii]
  rw [tipsDigest, hrefs, hhead]
  rfl

/-- References with portable names that are distinct, under a head that is a portable branch. -/
structure Portable (refs : List RefEntry) (head : Option Bytes) : Prop where
  names : ∀ ref ∈ refs, RefName.validate ref.name = .ok ()
  distinct : (refs.map (·.name)).Nodup
  head : ∀ name ∈ head, RefName.validBranch name = true

/-- The same references with the same targets, and the same form of the head. -/
def SameTips (refs refs' : List RefEntry) (head head' : Option Bytes) : Prop :=
  (∀ t, t ∈ refs.map tip ↔ t ∈ refs'.map tip) ∧ head = head'

/-! ### Hexadecimal digits -/

private theorem hexByte_inj {m n : ℕ} (hm : m < 16) (hn : n < 16) (h : hexByte m = hexByte n) : m = n := by
  have hall : ∀ m : Fin 16, ∀ n : Fin 16, hexByte m = hexByte n → m = n := by decide
  exact congrArg Fin.val (hall ⟨m, hm⟩ ⟨n, hn⟩ h)

private theorem encode16_inj {bytes bytes' : Bytes} (h : encode16 bytes = encode16 bytes') : bytes = bytes' := by
  induction bytes generalizing bytes' with
  | nil =>
    cases bytes' with
    | nil => rfl
    | cons byte' bytes' => cases h
  | cons byte bytes ih =>
    cases bytes' with
    | nil => cases h
    | cons byte' bytes' =>
      have hlt := byte.toNat_lt
      have hlt' := byte'.toNat_lt
      simp only [encode16, List.flatMap_cons, List.cons_append, List.nil_append, List.cons.injEq] at h
      obtain ⟨hhigh, hlow, hrest⟩ := h
      have hquot := hexByte_inj (by omega) (by omega) hhigh
      have hrem := hexByte_inj (Nat.mod_lt _ (by decide)) (Nat.mod_lt _ (by decide)) hlow
      have hbyte : byte = byte' := UInt8.toNat_inj.mp (by omega)
      rw [hbyte, ih hrest]

/-- A digest consists of digits, which are neither a hyphen nor a line feed. -/
theorem ne_of_mem_encode16 {bytes : Bytes} : ∀ byte ∈ encode16 bytes, byte ≠ 0x0a ∧ byte ≠ 0x2d := by
  have hall : ∀ nibble : Fin 16, hexByte nibble ≠ 0x0a ∧ hexByte nibble ≠ 0x2d := by decide
  intro byte hbyte
  obtain ⟨source, -, hmem⟩ := List.mem_flatMap.mp hbyte
  have hlt := source.toNat_lt
  simp only [List.mem_cons, List.not_mem_nil, or_false] at hmem
  rcases hmem with rfl | rfl
  · exact hall ⟨source.toNat / 16, by omega⟩
  · exact hall ⟨source.toNat % 16, by omega⟩

/-! ### Lines -/

section Lines

variable {t t' : Bytes × Bytes} {symref symref' : Bytes} {refs refs' : List RefEntry}
  {head head' : Option Bytes}

private theorem not_mem_name {name : Bytes} (byte : UInt8) (h : RefName.validate name = .ok ())
    (hbyte : byte ≤ 0x20) : byte ∉ name := by
  intro hmem
  exact UInt8.not_lt.mpr hbyte (RefName.space_lt_of_validate h byte hmem)

private theorem validate_of_validBranch {name : Bytes} (h : RefName.validBranch name = true) :
    RefName.validate name = .ok () := by
  simp only [RefName.validBranch, decide_eq_true_eq] at h
  exact h.2.2.2

private theorem refLine_inj (h : RefName.validate t.1 = .ok ()) (h' : RefName.validate t'.1 = .ok ())
    (heq : refLine t = refLine t') : t = t' := by
  obtain ⟨hname, hrest⟩ := cut_inj (not_mem_name 0x20 h (by decide)) (not_mem_name 0x20 h' (by decide)) heq
  exact Prod.ext hname (encode16_inj (List.append_cancel_right hrest))

private theorem headLine_inj (heq : headLine symref = headLine symref') : symref = symref' := by
  simpa [headLine] using heq

/-- Behind the space stands a hyphen in the line of the head only. -/
theorem refLine_ne_headLine (h : RefName.validate t.1 = .ok ()) : refLine t ≠ headLine symref := by
  intro heq
  obtain ⟨-, hrest⟩ := cut_inj (not_mem_name 0x20 h (by decide)) (by decide) heq
  cases hdigits : encode16 t.2 with
  | nil =>
    rw [hdigits] at hrest
    cases hrest
  | cons digit digits =>
    rw [hdigits] at hrest
    have hdigit := ne_of_mem_encode16 digit (hdigits ▸ List.mem_cons_self)
    exact hdigit.2 (List.cons.inj hrest).1

private theorem refLine_ended (h : RefName.validate t.1 = .ok ()) :
    ∃ front, (0x0a : UInt8) ∉ front ∧ refLine t = front ++ [0x0a] := by
  refine ⟨t.1 ++ 0x20 :: encode16 t.2, ?_, by simp [refLine]⟩
  have hname := not_mem_name 0x0a h (by decide)
  have hdigits : (0x0a : UInt8) ∉ encode16 t.2 := fun hmem ↦ (ne_of_mem_encode16 _ hmem).1 rfl
  simp [hname, hdigits]

private theorem headLine_ended (h : RefName.validBranch symref = true) :
    ∃ front, (0x0a : UInt8) ∉ front ∧ headLine symref = front ++ [0x0a] := by
  refine ⟨Bytes.ascii "HEAD" ++ 0x20 :: (Bytes.ascii "-> " ++ symref), ?_, by simp [headLine]⟩
  have hname := not_mem_name 0x0a (validate_of_validBranch h) (by decide)
  have hfront : (0x0a : UInt8) ∉ Bytes.ascii "HEAD" := by decide
  have harrow : (0x0a : UInt8) ∉ Bytes.ascii "-> " := by decide
  simp [hname, hfront, harrow]

private theorem mem_tipLines {line : Bytes} : line ∈ tipLines refs head ↔
    (∃ symref ∈ head, line = headLine symref) ∨ ∃ ref ∈ refs, line = refLine (tip ref) := by
  cases head <;> simp [tipLines, eq_comm]

/-- The lines come back out of the message. -/
theorem lines_tipsMessage (h : Portable refs head) :
    lines 0x0a (tipsMessage refs head) = (tipLines refs head).mergeSort fun a b ↦ a ≤ b := by
  refine lines_flatten fun line hline ↦ ?_
  rcases mem_tipLines.mp (List.mem_mergeSort.mp hline) with ⟨symref, hsymref, rfl⟩ | ⟨ref, href, rfl⟩
  · exact headLine_ended (h.head symref hsymref)
  · exact refLine_ended (h.names ref href)

private theorem mem_tipLines_iff (h : Portable refs head) (h' : Portable refs' head')
    (heq : tipsMessage refs head = tipsMessage refs' head') (line : Bytes) :
    line ∈ tipLines refs head ↔ line ∈ tipLines refs' head' := by
  have hlines := (lines_tipsMessage h).symm.trans ((congrArg (lines 0x0a) heq).trans (lines_tipsMessage h'))
  rw [← List.mem_mergeSort (l := tipLines refs head), hlines, List.mem_mergeSort]

end Lines

/-! ### Messages -/

section Messages

variable {refs refs' : List RefEntry} {head head' : Option Bytes}

private theorem tips_subset (h : Portable refs head) (h' : Portable refs' head')
    (heq : tipsMessage refs head = tipsMessage refs' head') {t : Bytes × Bytes} (ht : t ∈ refs.map tip) :
    t ∈ refs'.map tip := by
  obtain ⟨ref, href, rfl⟩ := List.mem_map.mp ht
  have hline := (mem_tipLines_iff h h' heq _).mp (mem_tipLines.mpr (.inr ⟨ref, href, rfl⟩))
  rcases mem_tipLines.mp hline with ⟨symref, -, heq⟩ | ⟨ref', href', heq⟩
  · exact absurd heq (refLine_ne_headLine (h.names ref href))
  · rw [refLine_inj (h.names ref href) (h'.names ref' href') heq]
    exact List.mem_map_of_mem href'

private theorem head_subset (h : Portable refs head) (h' : Portable refs' head')
    (heq : tipsMessage refs head = tipsMessage refs' head') {symref : Bytes} (hsymref : symref ∈ head) :
    symref ∈ head' := by
  have hline := (mem_tipLines_iff h h' heq _).mp (mem_tipLines.mpr (.inl ⟨symref, hsymref, rfl⟩))
  rcases mem_tipLines.mp hline with ⟨symref', hsymref', heq⟩ | ⟨ref', href', heq⟩
  · rwa [headLine_inj heq]
  · exact absurd heq.symm (refLine_ne_headLine (h'.names ref' href'))

private theorem tipsMessage_congr (h : (refs.map tip).Perm (refs'.map tip)) :
    tipsMessage refs head = tipsMessage refs' head := by
  have hperm : (tipLines refs head).Perm (tipLines refs' head) := by
    have hlines := h.map refLine
    rw [List.map_map, List.map_map] at hlines
    exact hlines.append_left _
  exact congrArg List.flatten (mergeSort_eq_of_injOn id hperm fun _ _ _ _ hline ↦ hline)

/-- The message says which references there are, where they point and what the head is, and no more. -/
theorem tipsMessage_eq_iff (h : Portable refs head) (h' : Portable refs' head') :
    tipsMessage refs head = tipsMessage refs' head' ↔ SameTips refs refs' head head' := by
  constructor
  · intro heq
    refine ⟨fun t ↦ ⟨tips_subset h h' heq, tips_subset h' h heq.symm⟩, ?_⟩
    exact Option.ext fun symref ↦ ⟨head_subset h h' heq, head_subset h' h heq.symm⟩
  · rintro ⟨htips, rfl⟩
    have hnodup : (refs.map tip).Nodup := .of_map Prod.fst (by rw [List.map_map]; exact h.distinct)
    have hnodup' : (refs'.map tip).Nodup := .of_map Prod.fst (by rw [List.map_map]; exact h'.distinct)
    exact tipsMessage_congr ((List.perm_ext_iff_of_nodup hnodup hnodup').mpr htips)

/-- A hash without collisions on two messages tells them apart. -/
theorem tipsDigest_eq_iff {sha256 : Bytes → Bytes} (h : Portable refs head) (h' : Portable refs' head')
    (hsha : sha256 (tipsMessage refs head) = sha256 (tipsMessage refs' head') →
      tipsMessage refs head = tipsMessage refs' head') :
    tipsDigest sha256 refs head = tipsDigest sha256 refs' head' ↔ SameTips refs refs' head head' := by
  rw [← tipsMessage_eq_iff h h', tipsDigest_eq, tipsDigest_eq]
  exact ⟨fun heq ↦ hsha (encode16_inj heq), fun heq ↦ by rw [heq]⟩

end Messages

/-! ### Publishing -/

section Publishing

variable {sha256 : Bytes → Bytes} {s : Bucket} {i : ℕ} {call : Call} {remote : Remote}
  {input : Bundle.Writer.Input} {toc : Toc}

private theorem phase_advance (hcall : s.calls[i]? = some call) (later : Call) :
    (s.advance i later).calls[i]? = some later := by
  obtain ⟨hlt, -⟩ := List.getElem?_eq_some_iff.mp hcall
  simp [Bucket.advance, hlt]

/-- A call that has written its bundle answers `:not_newer` when the digest is the remote one. -/
theorem phase_of_bundle (hcall : s.calls[i]? = some call) (hphase : call.phase = .headed remote)
    (hwrite : Bucket.writePublishBundle sha256 (remote.generation + 1) input = .ok toc) :
    ∃ s' call', Bucket.step sha256 s (.bundle i (.ok input)) = some s' ∧ s'.calls[i]? = some call' ∧
      (call'.phase = .returned .notNewer ↔ some (tocDigest sha256 toc) = remote.digest) := by
  by_cases hsame : some (tocDigest sha256 toc) = remote.digest
  · refine ⟨s.advance i { call with phase := .returned .notNewer, bundle := some toc }, _, ?_,
      phase_advance hcall _, by simp [hsame]⟩
    simp [Bucket.step, hcall, hphase, hwrite, hsame]
  · cases hvalid : validateMetadata (bundleMetadata toc (tocDigest sha256 toc)) with
    | error error =>
      refine ⟨s.advance i { call with phase := .returned (.error { error }), bundle := some toc }, _, ?_,
        phase_advance hcall _, by simp [hsame]⟩
      simp [Bucket.step, hcall, hphase, hwrite, hsame, hvalid]
    | ok _ =>
      refine ⟨s.advance i { call with phase := .ready remote toc, bundle := some toc }, _, ?_,
        phase_advance hcall _, by simp [hsame]⟩
      simp [Bucket.step, hcall, hphase, hwrite, hsame, hvalid]

private theorem reconcilePrecondition_eq_notNewer {digest : Bytes} {version : Version} {metadata : RemoteMetadata}
    (h : validateRemoteMetadata version.metadata = .ok metadata) :
    Bucket.reconcilePrecondition digest (some version) = .notNewer ↔ metadata.tipsDigest = digest := by
  simp only [Bucket.reconcilePrecondition, h]
  split <;> simp [*]

end Publishing

/-- **The tips digest.** What `tips_digest` hashes does not depend on the order of the references, and it
says which references there are, where they point and what the head is. A hash without collisions carries
this over to the digests, and `publish` answers `:not_newer` for a remote digest exactly when nothing
changed. -/
theorem tipsDigest_identifies (sha256 : Bytes → Bytes) {refs refs' : List RefEntry}
    {head head' : Option Bytes} (h : Portable refs head) (h' : Portable refs' head')
    (hsha : sha256 (tipsMessage refs head) = sha256 (tipsMessage refs' head') →
      tipsMessage refs head = tipsMessage refs' head') :
    (∀ permuted : List RefEntry, permuted.Perm refs → tipsMessage permuted head = tipsMessage refs head) ∧
    (tipsMessage refs head = tipsMessage refs' head' ↔ SameTips refs refs' head head') ∧
    (tipsDigest sha256 refs head = tipsDigest sha256 refs' head' ↔ SameTips refs refs' head head') ∧
    (∀ s i call remote input toc, s.calls[i]? = some call → call.phase = .headed remote →
      remote.digest = some (tipsDigest sha256 refs' head') →
      Bucket.writePublishBundle sha256 (remote.generation + 1) input = .ok toc → toc.refs = refs →
      headSymref toc = head →
      ∃ s' call', Bucket.step sha256 s (.bundle i (.ok input)) = some s' ∧ s'.calls[i]? = some call' ∧
        (call'.phase = .returned .notNewer ↔ SameTips refs refs' head head')) ∧
    ∀ version metadata, validateRemoteMetadata version.metadata = .ok metadata →
      metadata.tipsDigest = tipsDigest sha256 refs' head' →
      (Bucket.reconcilePrecondition (tipsDigest sha256 refs head) (some version) = .notNewer ↔
        SameTips refs refs' head head') := by
  have hdigest := tipsDigest_eq_iff h h' hsha
  refine ⟨fun permuted hperm ↦ tipsMessage_congr (hperm.map tip), tipsMessage_eq_iff h h', hdigest, ?_, ?_⟩
  · rintro s i call remote input toc hcall hphase hremote hwrite rfl rfl
    obtain ⟨s', call', hstep, hfound, hnewer⟩ := phase_of_bundle hcall hphase hwrite
    refine ⟨s', call', hstep, hfound, hnewer.trans ?_⟩
    rw [hremote, Option.some.injEq, ← hdigest]
    rfl
  · intro version metadata hmetadata hremote
    rw [reconcilePrecondition_eq_notNewer hmetadata, hremote, ← hdigest, eq_comm]

/-- The theorem at two references in either order, with other kinds. -/
theorem tipsDigest_identifies_sample :
    tipsDigest id [⟨Bytes.ascii "refs/heads/a", [1], .commit, none⟩,
        ⟨Bytes.ascii "refs/heads/b", [2], .commit, none⟩]
        (some (Bytes.ascii "refs/heads/a")) =
      tipsDigest id [⟨Bytes.ascii "refs/heads/b", [2], .tag, none⟩,
        ⟨Bytes.ascii "refs/heads/a", [1], .commit, none⟩]
        (some (Bytes.ascii "refs/heads/a")) := by
  refine (tipsDigest_identifies id ⟨?_, ?_, ?_⟩ ⟨?_, ?_, ?_⟩ fun h ↦ h).2.2.1.mpr ⟨?_, rfl⟩
  · decide
  · decide
  · decide
  · decide
  · decide
  · decide
  · intro t
    simp [tip, or_comm]

end Mirror
end Gitility
