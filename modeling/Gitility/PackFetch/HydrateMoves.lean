import Gitility.PackFetch.HydrateWorld

/-!
# The moves of a hydration

A hydration changes the destination and the memory of the instance only by moves for the descriptors of its
manifest. What follows from that: which names a move leaves alone, which pairs it keeps, and that everything
that is trusted was verified.
-/

namespace Gitility.PackFetch

open Provider (Hashers)
open Relation (ReflTransGen)

variable {Local : Type}

/-- The sizes that a descriptor says. -/
def Sized (d : PackDescriptor) (pack index : Bytes) : Prop :=
  pack.length = d.packSize ∧ index.length = d.indexSize

instance (d : PackDescriptor) (pack index : Bytes) : Decidable (Sized d pack index) :=
  inferInstanceAs (Decidable (_ ∧ _))

/-- A pair that a hydration keeps: it has the sizes of its descriptor, the file system finds and reads it, and
the opened store answers for its first object. -/
structure Spared (hash : HashKind) (c : Circumstances Local) (d : PackDescriptor) (pack index : Bytes) :
    Prop where
  sized : Sized d pack index
  packFound : ¬ c.faulty (packName d.id)
  indexFound : ¬ c.faulty (indexName d.id)
  probes : firstOidBytes hash ≤ index.length ∧
    ∃ oid, firstIndexOid (index.take (firstOidBytes hash)) hash = .ok oid ∧
      ∀ store answer, c.headers store oid answer → ∃ header, answer = .ok (some header)

section Moves

variable (hashers : Hashers) (hash : HashKind) (c : Circumstances Local) (s₀ : Instance Local)

/-- No pair of a descriptor that verifies and is spared stood on disk before the call. -/
def Lost (d : PackDescriptor) : Prop := ∀ pack index, Holds s₀.dir d.id pack index →
  verifyPairBytes hashers pack index d.id hash = .ok () → ¬ Spared hash c d pack index

/-- A pair on disk that was verified. -/
def Acquired (d : PackDescriptor) (s : Instance Local) : Prop :=
  ∃ pack index, Holds s.dir d.id pack index ∧ (d.id ∈ s.verified ∨ (d.id, pack, index) ∈ s.passed)

/-- What a hydration does for one descriptor. -/
inductive Move (d : PackDescriptor) : Instance Local → Instance Local → Prop
  | note {s : Instance Local} {pack index : Bytes} (h : verifyPairBytes hashers pack index d.id hash = .ok ()) :
      Move d s { s with passed := (d.id, pack, index) :: s.passed }
  | insert {s : Instance Local} (h : Acquired d s) : Move d s { s with verified := insert d.id s.verified }
  | erase {s : Instance Local} : Move d s { s with verified := s.verified.erase d.id }
  | discard {s : Instance Local} {name : Bytes} (hname : name = packName d.id ∨ name = indexName d.id)
      (hlost : Lost hashers hash c s₀ d) : Move d s { s with dir := Function.update s.dir name none }
  | temp {s : Instance Local} {name : Bytes} {file : Option ScratchFile} (hname : IsTemp name) :
      Move d s { s with dir := Function.update s.dir name file }
  | pack {s : Instance Local} {pack index : Bytes} (h : (d.id, pack, index) ∈ s.passed)
      (hlost : Lost hashers hash c s₀ d) :
      Move d s { s with dir := Function.update s.dir (packName d.id) (some (.regular pack)) }
  | index {s : Instance Local} {pack index : Bytes} (h : (d.id, pack, index) ∈ s.passed)
      (hpack : Regular s.dir (packName d.id) pack) (hlost : Lost hashers hash c s₀ d) :
      Move d s { s with dir := Function.update s.dir (indexName d.id) (some (.regular index)) }

/-- What it does for several descriptors. -/
def Moves (ds : List PackDescriptor) : Instance Local → Instance Local → Prop :=
  ReflTransGen fun s s' ↦ ∃ d ∈ ds, Move hashers hash c s₀ d s s'

end Moves

variable {hashers : Hashers} {hash : HashKind} {c : Circumstances Local} {s₀ s s' s'' : Instance Local}
  {d : PackDescriptor} {ds ds' : List PackDescriptor} {id name pack index : Bytes}

/-! ### What moves leave alone -/

namespace Move

/-- The files of other names. -/
theorem dir_eq (h : Move hashers hash c s₀ d s s') (htemp : ¬ IsTemp name) (hpack : name ≠ packName d.id)
    (hindex : name ≠ indexName d.id) : s'.dir name = s.dir name := by
  cases h with
  | note h => rfl
  | insert h => rfl
  | erase => rfl
  | discard hname hlost =>
    refine Function.update_of_ne ?_ _ _
    rcases hname with rfl | rfl
    · exact hpack
    · exact hindex
  | temp hname =>
    refine Function.update_of_ne ?_ _ _
    rintro rfl
    exact htemp hname
  | pack h hlost => exact Function.update_of_ne hpack _ _
  | index h hstands hlost => exact Function.update_of_ne hindex _ _

/-- What is served. -/
theorem served_eq (h : Move hashers hash c s₀ d s s') :
    s'.store = s.store ∧ s'.stats = s.stats ∧ s'.alternates = s.alternates := by
  cases h <;> exact ⟨rfl, rfl, rfl⟩

/-- Pairs pass only for the descriptor. -/
theorem passed_eq (h : Move hashers hash c s₀ d s s') :
    ∃ new, s'.passed = new ++ s.passed ∧ ∀ entry ∈ new, entry.1 = d.id := by
  cases h with
  | @note pack index h => exact ⟨[(d.id, pack, index)], rfl, by simp⟩
  | insert h => exact ⟨[], rfl, by simp⟩
  | erase => exact ⟨[], rfl, by simp⟩
  | discard hname hlost => exact ⟨[], rfl, by simp⟩
  | temp hname => exact ⟨[], rfl, by simp⟩
  | pack h hlost => exact ⟨[], rfl, by simp⟩
  | index h hstands hlost => exact ⟨[], rfl, by simp⟩

private theorem mem_verified (h : Move hashers hash c s₀ d s s') (hne : id ≠ d.id) (hid : id ∈ s.verified) :
    id ∈ s'.verified := by
  cases h with
  | insert h => exact Finset.mem_insert_of_mem hid
  | erase => exact Finset.mem_erase.mpr ⟨hne, hid⟩
  | note h => exact hid
  | discard hname hlost => exact hid
  | temp hname => exact hid
  | pack h hlost => exact hid
  | index h hstands hlost => exact hid

end Move

/-- No pack has a temporary name. -/
theorem not_isTemp_packName : ¬ IsTemp (packName id) := fun h ↦ h.ne_pack rfl

/-- No index has a temporary name. -/
theorem not_isTemp_indexName : ¬ IsTemp (indexName id) := fun h ↦ h.ne_idx rfl

namespace Moves

/-- One move for one of the descriptors. -/
theorem single (hd : d ∈ ds) (h : Move hashers hash c s₀ d s s') : Moves hashers hash c s₀ ds s s' :=
  ReflTransGen.single ⟨d, hd, h⟩

/-- Moves for some descriptors are moves for more. -/
theorem mono (h : Moves hashers hash c s₀ ds s s') (hsub : ds ⊆ ds') : Moves hashers hash c s₀ ds' s s' :=
  ReflTransGen.mono (fun _ _ ⟨d, hd, hmove⟩ ↦ ⟨d, hsub hd, hmove⟩) _ _ h

/-- Moves for one descriptor more. -/
theorem append (h : Moves hashers hash c s₀ ds s s') (h' : Moves hashers hash c s₀ [d] s' s'')
    (hd : d ∈ ds) : Moves hashers hash c s₀ ds s s'' :=
  h.trans (mono h' (List.cons_subset.mpr ⟨hd, List.nil_subset _⟩))

/-- Moves write no file but those of their descriptors and temporary ones. -/
theorem dir_eq (h : Moves hashers hash c s₀ ds s s') (htemp : ¬ IsTemp name)
    (hname : ∀ d ∈ ds, name ≠ packName d.id ∧ name ≠ indexName d.id) : s'.dir name = s.dir name := by
  induction h with
  | refl => rfl
  | tail _ hmove ih =>
    obtain ⟨d, hd, hmove⟩ := hmove
    rw [hmove.dir_eq htemp (hname d hd).1 (hname d hd).2, ih]

/-- The pair of an ID that no descriptor shares. -/
theorem holds_iff (h : Moves hashers hash c s₀ ds s s') (hid : ∀ d ∈ ds, ¬ Shares id d.id) :
    Holds s'.dir id pack index ↔ Holds s.dir id pack index := by
  have hpack : s'.dir (packName id) = s.dir (packName id) :=
    h.dir_eq not_isTemp_packName fun d hd ↦
      ⟨fun heq ↦ hid d hd (packName_inj.mp heq), packName_ne_indexName⟩
  have hindex : s'.dir (indexName id) = s.dir (indexName id) :=
    h.dir_eq not_isTemp_indexName fun d hd ↦
      ⟨packName_ne_indexName.symm, fun heq ↦ hid d hd (indexName_inj.mp heq)⟩
  rw [Holds, Holds, Regular, Regular, Regular, Regular, hpack, hindex]

/-- Moves leave what is served. -/
theorem served_eq (h : Moves hashers hash c s₀ ds s s') :
    s'.store = s.store ∧ s'.stats = s.stats ∧ s'.alternates = s.alternates := by
  induction h with
  | refl => exact ⟨rfl, rfl, rfl⟩
  | tail _ hmove ih =>
    obtain ⟨d, -, hmove⟩ := hmove
    obtain ⟨hstore, hstats, halternates⟩ := hmove.served_eq
    exact ⟨hstore.trans ih.1, hstats.trans ih.2.1, halternates.trans ih.2.2⟩

/-- What passes is added for one of the descriptors. -/
theorem passed_eq (h : Moves hashers hash c s₀ ds s s') :
    ∃ new, s'.passed = new ++ s.passed ∧ ∀ entry ∈ new, ∃ d ∈ ds, entry.1 = d.id := by
  induction h with
  | refl => exact ⟨[], rfl, by simp⟩
  | tail _ hmove ih =>
    obtain ⟨d, hd, hmove⟩ := hmove
    obtain ⟨new, hnew, hids⟩ := ih
    obtain ⟨more, hmore, hsame⟩ := hmove.passed_eq
    refine ⟨more ++ new, by rw [hmore, hnew, List.append_assoc], fun entry hentry ↦ ?_⟩
    rcases List.mem_append.mp hentry with hentry | hentry
    · exact ⟨d, hd, hsame entry hentry⟩
    · exact hids entry hentry

/-- What passed stays. -/
theorem passed_subset (h : Moves hashers hash c s₀ ds s s') : s.passed ⊆ s'.passed := by
  obtain ⟨new, hnew, -⟩ := h.passed_eq
  rw [hnew]
  exact List.subset_append_right _ _

/-- An ID that no descriptor has stays verified. -/
theorem mem_verified (h : Moves hashers hash c s₀ ds s s') (hne : ∀ d ∈ ds, id ≠ d.id)
    (hid : id ∈ s.verified) : id ∈ s'.verified := by
  induction h with
  | refl => exact hid
  | tail _ hmove ih =>
    obtain ⟨d, hd, hmove⟩ := hmove
    exact hmove.mem_verified (hne d hd) ih

end Moves

/-! ### What moves keep -/

/-- A verified pair that is spared stays on disk. -/
theorem Moves.kept (h : Moves hashers hash c s₀ ds s₀ s) (hholds : Holds s₀.dir id pack index)
    (hverified : verifyPairBytes hashers pack index id hash = .ok ())
    (hspared : ∀ d ∈ ds, Shares id d.id → Spared hash c d pack index) : Holds s.dir id pack index := by
  -- A descriptor that shares the ID has not lost its pair.
  have hlost {d : PackDescriptor} (hd : d ∈ ds) (hshares : Shares id d.id)
      (hlost : Lost hashers hash c s₀ d) : False := by
    refine hlost pack index ?_ ?_ (hspared d hd hshares)
    · rwa [Holds, ← packName_inj.mpr hshares, ← indexName_inj.mpr hshares]
    · rwa [← verifyPairBytes_congr hshares]
  have hne {d : PackDescriptor} (hd : d ∈ ds) (hlost' : Lost hashers hash c s₀ d) : ¬ Shares id d.id :=
    fun hshares ↦ hlost hd hshares hlost'
  induction h with
  | refl => exact hholds
  | tail _ hmove ih =>
    obtain ⟨d, hd, hmove⟩ := hmove
    cases hmove with
    | note h => exact ih
    | insert h => exact ih
    | erase => exact ih
    | discard hname hlost =>
      refine ⟨(Function.update_of_ne ?_ _ _).trans ih.1, (Function.update_of_ne ?_ _ _).trans ih.2⟩
      · rcases hname with rfl | rfl
        · exact fun heq ↦ hne hd hlost (packName_inj.mp heq)
        · exact packName_ne_indexName
      · rcases hname with rfl | rfl
        · exact packName_ne_indexName.symm
        · exact fun heq ↦ hne hd hlost (indexName_inj.mp heq)
    | temp hname =>
      refine ⟨(Function.update_of_ne ?_ _ _).trans ih.1, (Function.update_of_ne ?_ _ _).trans ih.2⟩
      · rintro rfl
        exact not_isTemp_packName hname
      · rintro rfl
        exact not_isTemp_indexName hname
    | pack h hlost =>
      exact ⟨(Function.update_of_ne (fun heq ↦ hne hd hlost (packName_inj.mp heq)) _ _).trans ih.1,
        (Function.update_of_ne packName_ne_indexName.symm _ _).trans ih.2⟩
    | index h hstands hlost =>
      exact ⟨(Function.update_of_ne packName_ne_indexName _ _).trans ih.1,
        (Function.update_of_ne (fun heq ↦ hne hd hlost (indexName_inj.mp heq)) _ _).trans ih.2⟩

/-! ### What moves write -/

/-- A file that passed the verification under its name. -/
def Passed (s : Instance Local) (name content : Bytes) : Prop :=
  ∃ id pack index, (id, pack, index) ∈ s.passed ∧
    (packName id = name ∧ pack = content ∨ indexName id = name ∧ index = content)

private theorem Passed.mono {content : Bytes} (h : Passed s name content) (hsub : s.passed ⊆ s'.passed) :
    Passed s' name content := by
  obtain ⟨id, pack, index, hmem, h⟩ := h
  exact ⟨id, pack, index, hsub hmem, h⟩

/-- What stands under a final name stood there before or passed. -/
theorem Move.content {file : ScratchFile} (h : Move hashers hash c s₀ d s s') (htemp : ¬ IsTemp name)
    (hfile : s'.dir name = some file) :
    s.dir name = some file ∨ ∃ content, file = .regular content ∧ Passed s' name content := by
  cases h with
  | note h => exact .inl hfile
  | insert h => exact .inl hfile
  | erase => exact .inl hfile
  | @discard other hname hlost =>
    by_cases heq : name = other
    · rw [heq] at hfile
      simp at hfile
    · exact .inl ((Function.update_of_ne heq _ _).symm.trans hfile)
  | @temp other _ hname =>
    refine .inl ((Function.update_of_ne ?_ _ _).symm.trans hfile)
    rintro rfl
    exact htemp hname
  | @pack pack index h hlost =>
    by_cases heq : name = packName d.id
    · subst heq
      simp only [Function.update_self, Option.some.injEq] at hfile
      exact .inr ⟨pack, hfile.symm, d.id, pack, index, h, .inl ⟨rfl, rfl⟩⟩
    · exact .inl ((Function.update_of_ne heq _ _).symm.trans hfile)
  | @index pack index h hstands hlost =>
    by_cases heq : name = indexName d.id
    · subst heq
      simp only [Function.update_self, Option.some.injEq] at hfile
      exact .inr ⟨index, hfile.symm, d.id, pack, index, h, .inr ⟨rfl, rfl⟩⟩
    · exact .inl ((Function.update_of_ne heq _ _).symm.trans hfile)

/-- A file after the moves was there before, or passed the verification. -/
theorem Moves.content {file : ScratchFile} (h : Moves hashers hash c s₀ ds s s') (htemp : ¬ IsTemp name)
    (hfile : s'.dir name = some file) :
    s.dir name = some file ∨ ∃ content, file = .regular content ∧ Passed s' name content := by
  induction h with
  | refl => exact .inl hfile
  | tail _ hmove ih =>
    obtain ⟨d, -, hmove⟩ := hmove
    rcases hmove.content htemp hfile with hfile | hpassed
    · rcases ih hfile with hfile | ⟨content, heq, hpassed⟩
      · exact .inl hfile
      · obtain ⟨new, hnew, -⟩ := hmove.passed_eq
        exact .inr ⟨content, heq, hpassed.mono (by rw [hnew]; exact List.subset_append_right _ _)⟩
    · exact .inr hpassed

end Gitility.PackFetch
