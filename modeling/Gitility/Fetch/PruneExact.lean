import Gitility.Fetch.Prune

/-!
# What pruning deletes

A wildcard spec is read as a mapping of the names `prefix*suffix`, an exact spec as the full name of its
destination. Pruning protects the destinations of exact specs as they are written, so a destination that is
not a full name does not protect the reference it stands for.
-/

namespace Gitility.Prune

/-! ### How a spec is read -/

/-- What stands before and behind the only `*` of a pattern. -/
def starParts (side : Bytes) : Option (Bytes × Bytes) :=
  match side.dropWhile (· ≠ 0x2a) with
  | [] => none
  | _ :: after => if after.contains 0x2a then none else some (side.takeWhile (· ≠ 0x2a), after)

/-- A spec with both sides whose source has a glob byte. -/
def RefSpec.wildcard (spec : RefSpec) : Bool :=
  spec.destination.isSome && spec.source.any containsGlob

/-- A spec with both sides whose source has no glob byte. -/
def RefSpec.exact (spec : RefSpec) : Bool :=
  spec.destination.isSome && spec.source.any fun source ↦ !containsGlob source

/-- The pattern pair of a spec: the parts of its source and those of its destination. -/
def RefSpec.patterns (spec : RefSpec) : Option ((Bytes × Bytes) × (Bytes × Bytes)) := do
  return (← starParts (← spec.source), ← starParts (← spec.destination))

/-- A wildcard spec takes `remote` to `name`: what `*` stands for is the same on both sides. -/
def WildcardMaps (spec : RefSpec) (remote name : Bytes) : Prop :=
  ∃ source destination stem, spec.patterns = some (source, destination) ∧
    remote = source.1 ++ stem ++ source.2 ∧ name = destination.1 ++ stem ++ destination.2

/-- `name` is the reference that the destination of an exact spec stands for. -/
def Pins (gix : Gix) (spec : RefSpec) (name : Bytes) : Prop :=
  spec.exact = true ∧ ∃ destination, spec.destination = some destination ∧ gix.localName destination = name

/-- A spec of the fetch maps `remote` to `name`; `selects` says which remote references the source of an exact
spec names. -/
def MapsTo (gix : Gix) (selects : Bytes → Bytes → Prop) (spec : RefSpec) (remote name : Bytes) : Prop :=
  spec.wildcard = true ∧ WildcardMaps spec remote name ∨
    Pins gix spec name ∧ ∃ source, spec.source = some source ∧ selects source remote

/-- What pruning relies on: `match_rhs` inverts the mappings of pattern specs, one mapping for each spec that
matches, and a full name stands for itself. -/
structure Gix.Documented (gix : Gix) : Prop where
  matchRhs : ∀ specs items, (∀ spec ∈ specs, spec.patterns.isSome) → ∀ mapping,
    mapping ∈ gix.matchRhs specs items ↔ ∃ spec ∈ specs, ∃ item ∈ items, ∃ remote,
      WildcardMaps spec remote item.fullRefName ∧ mapping = ⟨.fullName remote, some item.fullRefName⟩
  localName : ∀ name, gix.fullName name = true → gix.localName name = name

/-! ### What should be pruned -/

/-- A local direct reference in the destination space of a wildcard spec which no exact spec names and none of
whose remote counterparts is advertised. -/
structure Stale (gix : Gix) (refspecs : List RefSpec) (locals : List LocalPruneRef) (advertised : List Bytes)
    (name target : Bytes) : Prop where
  present : ⟨name, target⟩ ∈ locals
  matched : ∃ spec ∈ refspecs, spec.wildcard = true ∧ ∃ remote, WildcardMaps spec remote name
  unpinned : ∀ spec ∈ refspecs, ¬ Pins gix spec name
  unadvertised : ∀ spec ∈ refspecs, spec.wildcard = true → ∀ remote, WildcardMaps spec remote name →
    remote ∉ advertised

/-- The direct references among the local ones. -/
def direct (references : List GixReference) : List LocalPruneRef :=
  references.filterMap fun reference ↦ match reference.target with
    | .object oid => some ⟨reference.name, oid⟩
    | .symbolic _ => none

/-- Pruning picks exactly the stale references, and deletes no symbolic one and none that a spec maps an
advertised reference to. -/
structure PrunesExactly (gix : Gix) (selects : Bytes → Bytes → Prop) (refspecs : List RefSpec)
    (references : List GixReference) (advertised : List Bytes) : Prop where
  candidates : ∀ name target,
    (name, target) ∈ pruneCandidates gix (pruneRefspecs refspecs).1 (pruneRefspecs refspecs).2
      (direct references) (.ofList advertised) ↔
    Stale gix refspecs (direct references) advertised name target
  deleted : ∀ edits names, prune gix (.ok (references.map .ok)) refspecs advertised = .ok (edits, names) →
    ∀ edit ∈ edits,
      (∃ reference ∈ references, reference.name = edit.name ∧ reference.target = .object edit.expected) ∧
      ∀ spec ∈ refspecs, ∀ remote ∈ advertised, ¬ MapsTo gix selects spec remote edit.name

/-- A local direct reference that an exact spec names is written in full by one of them, or is outside the
destination space of every wildcard spec, or has an advertised remote counterpart. -/
def PinsWritten (gix : Gix) (refspecs : List RefSpec) (references : List GixReference)
    (advertised : List Bytes) : Prop :=
  ∀ entry ∈ direct references, (∃ spec ∈ refspecs, Pins gix spec entry.name) →
    (∃ spec ∈ refspecs, spec.exact = true ∧ spec.destination = some entry.name) ∨
    (∀ spec ∈ refspecs, spec.wildcard = true → ∀ remote, ¬ WildcardMaps spec remote entry.name) ∨
    ∃ spec ∈ refspecs, spec.wildcard = true ∧ ∃ remote ∈ advertised, WildcardMaps spec remote entry.name

/-! ### The two kinds of specs -/

/-- `prune_refspecs` collects the wildcard specs in their order. -/
theorem pruneRefspecs_fst (refspecs : List RefSpec) :
    (pruneRefspecs refspecs).1 = refspecs.filter RefSpec.wildcard := by
  have h : ∀ found, (refspecs.foldl pruneRefspecsStep found).1 =
      found.1 ++ refspecs.filter RefSpec.wildcard := by
    induction refspecs with
    | nil => intro found; simp
    | cons spec rest ih =>
      intro found
      obtain ⟨source, destination⟩ := spec
      rw [List.foldl_cons, ih]
      cases source with
      | none => simp [pruneRefspecsStep, RefSpec.wildcard]
      | some source =>
        cases destination with
        | none => simp [pruneRefspecsStep, RefSpec.wildcard]
        | some destination =>
          cases hg : containsGlob source <;> simp [pruneRefspecsStep, RefSpec.wildcard, hg]
  simpa [pruneRefspecs] using h ([], ∅)

/-- `prune_refspecs` protects the destinations of the exact specs as they are written. -/
theorem contains_pruneRefspecs_snd (refspecs : List RefSpec) (name : Bytes) :
    (pruneRefspecs refspecs).2.contains name = true ↔
      ∃ spec ∈ refspecs, spec.exact = true ∧ spec.destination = some name := by
  have h : ∀ found : List RefSpec × Std.TreeSet Bytes,
      (refspecs.foldl pruneRefspecsStep found).2.contains name = true ↔
        found.2.contains name = true ∨
          ∃ spec ∈ refspecs, spec.exact = true ∧ spec.destination = some name := by
    induction refspecs with
    | nil => intro found; simp
    | cons spec rest ih =>
      intro found
      obtain ⟨source, destination⟩ := spec
      rw [List.foldl_cons, ih]
      cases source with
      | none => simp [pruneRefspecsStep, RefSpec.exact]
      | some source =>
        cases destination with
        | none => simp [pruneRefspecsStep, RefSpec.exact]
        | some destination =>
          cases hg : containsGlob source
          · simp [pruneRefspecsStep, RefSpec.exact, hg, Std.TreeSet.contains_insert, or_assoc,
              or_left_comm]
          · simp [pruneRefspecsStep, RefSpec.exact, hg]
  simpa [pruneRefspecs] using h ([], ∅)

/-! ### The accumulated candidates -/

/-- The remote name of a reverse mapping of `name`. -/
def remoteOf (name : Bytes) (mapping : Mapping) : Option Bytes :=
  match mapping.lhs, mapping.rhs with
  | .fullName remote, some mapped => if mapped = name then some remote else none
  | _, _ => none

section Candidates

variable {protectedExact advertised : Std.TreeSet Bytes} {byName : Std.TreeMap Bytes Bytes}
  {mapped : Std.TreeMap Bytes (Bytes × Bool)} {name target : Bytes}

/-- A mapping touches the entry of no other reference. -/
theorem step_of_ne (mapping : Mapping) (h : mapping.rhs ≠ some name) :
    (pruneCandidatesStep protectedExact byName advertised mapped mapping)[name]? = mapped[name]? := by
  unfold pruneCandidatesStep
  split
  · next remote other hl hr =>
    have hne : other ≠ name := fun heq ↦ h (heq ▸ hr)
    split
    · rfl
    · split
      · rfl
      · simp [Std.TreeMap.getElem?_insert, hne]
  · rfl

/-- A reference that is protected or not there keeps having no entry. -/
theorem fold_of_skipped (mappings : List Mapping)
    (h : protectedExact.contains name = true ∨ byName[name]? = none) :
    (mappings.foldl (pruneCandidatesStep protectedExact byName advertised) mapped)[name]? =
      mapped[name]? := by
  induction mappings generalizing mapped with
  | nil => rfl
  | cons mapping rest ih =>
    rw [List.foldl_cons, ih]
    by_cases hr : mapping.rhs = some name
    · unfold pruneCandidatesStep
      rw [hr]
      split
      · next remote other hl ho =>
        cases ho
        rcases h with h | h
        · rw [if_pos h]
        · rw [h, ite_self]
      · rfl
    · exact step_of_ne mapping hr

/-- The entry of a reference that is there and not protected: its target, and whether one of its remote
counterparts was advertised. -/
theorem fold_of_mapped (mappings : List Mapping) (hp : protectedExact.contains name = false)
    (hn : byName[name]? = some target) :
    (mappings.foldl (pruneCandidatesStep protectedExact byName advertised) mapped)[name]? =
      if mappings.filterMap (remoteOf name) = [] then mapped[name]?
      else some ((mapped[name]?.getD (target, false)).1, (mapped[name]?.getD (target, false)).2 ||
        (mappings.filterMap (remoteOf name)).any advertised.contains) := by
  induction mappings generalizing mapped with
  | nil => simp
  | cons mapping rest ih =>
    rw [List.foldl_cons, ih]
    obtain ⟨lhs, rhs⟩ := mapping
    by_cases hr : rhs = some name
    · subst hr
      cases lhs with
      | objectId oid => simp [pruneCandidatesStep, remoteOf]
      | fullName remote =>
        have hstep : (pruneCandidatesStep protectedExact byName advertised mapped
            ⟨.fullName remote, some name⟩)[name]? =
            some ((mapped[name]?.getD (target, false)).1,
              (mapped[name]?.getD (target, false)).2 || advertised.contains remote) := by
          simp [pruneCandidatesStep, hp, hn]
        rw [hstep]
        by_cases hrest : rest.filterMap (remoteOf name) = []
        · simp [remoteOf, hrest]
        · simp [remoteOf, hrest, Bool.or_assoc]
    · have hremote : remoteOf name ⟨lhs, rhs⟩ = none := by
        unfold remoteOf
        split
        · next remote other hl ho =>
          have hne : other ≠ name := fun heq ↦ hr (heq ▸ ho)
          rw [if_neg hne]
        · rfl
      rw [step_of_ne ⟨lhs, rhs⟩ hr, List.filterMap_cons_none hremote]

end Candidates

/-- The names of a reverse mapping of `name`. -/
theorem mem_remotes {mappings : List Mapping} {name remote : Bytes} :
    remote ∈ mappings.filterMap (remoteOf name) ↔
      (⟨.fullName remote, some name⟩ : Mapping) ∈ mappings := by
  rw [List.mem_filterMap]
  constructor
  · rintro ⟨⟨lhs, rhs⟩, hm, hremote⟩
    unfold remoteOf at hremote
    split at hremote
    · next remote' other hl hr =>
      split at hremote
      · next ho =>
        cases hremote
        cases hl
        cases hr
        rw [← ho]
        exact hm
      · cases hremote
    · cases hremote
  · intro hm
    exact ⟨_, hm, by simp [remoteOf]⟩

/-- The map of the local references by name gives each its target. -/
theorem getElem?_byName {locals : List LocalPruneRef} (hnodup : (locals.map LocalPruneRef.name).Nodup)
    {name target : Bytes} :
    (Std.TreeMap.ofList (locals.map fun entry ↦ (entry.name, entry.target)))[name]? = some target ↔
      ⟨name, target⟩ ∈ locals := by
  have hpair : (locals.map fun entry ↦ (entry.name, entry.target)).Pairwise
      fun a b ↦ ¬ compare a.1 b.1 = .eq := by
    rw [List.pairwise_map]
    refine (List.pairwise_map.mp hnodup).imp fun hne ↦ ?_
    simpa using hne
  have hof : ∀ target, ⟨name, target⟩ ∈ locals →
      (Std.TreeMap.ofList (locals.map fun entry ↦ (entry.name, entry.target)))[name]? = some target :=
    fun target hm ↦ Std.TreeMap.getElem?_ofList_of_mem Std.ReflCmp.compare_self hpair
      (List.mem_map.mpr ⟨_, hm, rfl⟩)
  refine ⟨fun h ↦ ?_, hof target⟩
  by_cases hm : name ∈ locals.map LocalPruneRef.name
  · obtain ⟨entry, hentry, rfl⟩ := List.mem_map.mp hm
    have htarget := (hof entry.target hentry).symm.trans h
    rw [Option.some_inj] at htarget
    rw [← htarget]
    exact hentry
  · rw [Std.TreeMap.getElem?_ofList_of_contains_eq_false] at h
    · cases h
    · simpa using hm

/-- A candidate is a local reference with a reverse mapping, not protected, and none of its remote
counterparts advertised. -/
theorem mem_pruneCandidates {gix : Gix} {specs : List RefSpec} {protectedExact advertised : Std.TreeSet Bytes}
    {locals : List LocalPruneRef} (hnodup : (locals.map LocalPruneRef.name).Nodup) {name target : Bytes} :
    (name, target) ∈ pruneCandidates gix specs protectedExact locals advertised ↔
      ⟨name, target⟩ ∈ locals ∧ protectedExact.contains name = false ∧
        (∃ remote, (⟨.fullName remote, some name⟩ : Mapping) ∈
          gix.matchRhs specs (locals.map fun entry ↦ ⟨entry.name, entry.target⟩)) ∧
        ∀ remote, (⟨.fullName remote, some name⟩ : Mapping) ∈
          gix.matchRhs specs (locals.map fun entry ↦ ⟨entry.name, entry.target⟩) →
          advertised.contains remote = false := by
  have hmem : (name, target) ∈ pruneCandidates gix specs protectedExact locals advertised ↔
      (((gix.matchRhs specs (locals.map fun entry ↦ ⟨entry.name, entry.target⟩)).foldl
        (pruneCandidatesStep protectedExact
          (.ofList (locals.map fun entry ↦ (entry.name, entry.target))) advertised) ∅)[name]?) =
        some (target, false) := by
    rw [← Std.TreeMap.mem_toList_iff_getElem?_eq_some]
    simp only [pruneCandidates, List.mem_filterMap]
    constructor
    · rintro ⟨⟨name', target', found⟩, hentry, hsome⟩
      cases found <;> simp at hsome
      obtain ⟨rfl, rfl⟩ := hsome
      exact hentry
    · intro hentry
      exact ⟨_, hentry, rfl⟩
  rw [hmem]
  cases hp : protectedExact.contains name with
  | true =>
    rw [fold_of_skipped _ (.inl hp)]
    simp
  | false =>
    cases hn : (Std.TreeMap.ofList (locals.map fun entry ↦ (entry.name, entry.target)))[name]? with
    | none =>
      have habsent : (⟨name, target⟩ : LocalPruneRef) ∉ locals := fun hm ↦ by
        rw [(getElem?_byName hnodup).mpr hm] at hn
        cases hn
      rw [fold_of_skipped _ (.inr hn)]
      simp [habsent]
    | some found =>
      have hfound : ∀ target, ⟨name, target⟩ ∈ locals ↔ found = target := fun target ↦ by
        rw [← getElem?_byName hnodup, hn, Option.some_inj]
      rw [fold_of_mapped _ hp hn, hfound target]
      simp only [← mem_remotes]
      by_cases hr : (gix.matchRhs specs (locals.map fun entry ↦ ⟨entry.name, entry.target⟩)).filterMap
          (remoteOf name) = []
      · simp [hr]
      · obtain ⟨remote, hremote⟩ := List.exists_mem_of_ne_nil _ hr
        rw [if_neg hr]
        simp only [Std.TreeMap.getElem?_emptyc, Option.getD_none, Bool.false_or, Option.some_inj,
          Prod.mk.injEq, List.any_eq_false, true_and, Bool.not_eq_true]
        exact ⟨fun h ↦ ⟨h.1, ⟨remote, hremote⟩, h.2⟩, fun h ↦ ⟨h.1, h.2.2⟩⟩

/-! ### The run of a prune -/

/-- A direct reference is one that points at an object. -/
theorem mem_direct {references : List GixReference} {entry : LocalPruneRef} :
    entry ∈ direct references ↔
      ∃ reference ∈ references, reference.name = entry.name ∧ reference.target = .object entry.target := by
  rw [direct, List.mem_filterMap]
  constructor
  · rintro ⟨reference, hm, hsome⟩
    cases ht : reference.target with
    | symbolic name =>
      rw [ht] at hsome
      cases hsome
    | object oid =>
      rw [ht] at hsome
      cases hsome
      exact ⟨reference, hm, rfl, ht⟩
  · rintro ⟨reference, hm, hname, ht⟩
    refine ⟨reference, hm, ?_⟩
    rw [ht, hname]

/-- The names of the direct references are among those of all references. -/
theorem direct_sublist (references : List GixReference) :
    ((direct references).map LocalPruneRef.name).Sublist (references.map GixReference.name) := by
  induction references with
  | nil => exact .slnil
  | cons reference rest ih =>
    cases ht : reference.target with
    | symbolic name => simpa [direct, ht] using ih.cons reference.name
    | object oid => simpa [direct, ht] using ih

/-- Reading the references of an iteration without errors. -/
theorem directRefs_ok (references : List GixReference) :
    directRefs (references.map .ok) = .ok (direct references) := by
  induction references with
  | nil => rfl
  | cons reference rest ih =>
    rw [List.map_cons, directRefs, ih]
    cases ht : reference.target with
    | symbolic name => simp [direct, ht, Bind.bind, Except.bind, Pure.pure, Except.pure]
    | object oid => simp [direct, ht, Bind.bind, Except.bind, Pure.pure, Except.pure]

/-- Every edit deletes a candidate. -/
theorem mem_pruneEdits {gix : Gix} {candidates : List (Bytes × Bytes)} {edits : List RefEdit}
    {names : List Bytes} (h : pruneEdits gix candidates = .ok (edits, names)) {edit : RefEdit}
    (hm : edit ∈ edits) : (edit.name, edit.expected) ∈ candidates := by
  induction candidates generalizing edits names with
  | nil =>
    cases h
    cases hm
  | cons candidate rest ih =>
    obtain ⟨name, target⟩ := candidate
    rw [pruneEdits] at h
    split at h
    · cases hrest : pruneEdits gix rest with
      | error e =>
        rw [hrest] at h
        cases h
      | ok done =>
        rw [hrest] at h
        cases h
        rcases List.mem_cons.mp hm with rfl | hm
        · exact List.mem_cons_self
        · exact List.mem_cons_of_mem _ (ih hrest hm)
    · cases h

/-- What a prune deletes is a candidate over the direct references. -/
theorem candidate_of_prune {gix : Gix} {references : List GixReference} {refspecs : List RefSpec}
    {advertised : List Bytes} {edits : List RefEdit} {names : List Bytes}
    (h : prune gix (.ok (references.map .ok)) refspecs advertised = .ok (edits, names)) {edit : RefEdit}
    (hm : edit ∈ edits) :
    (edit.name, edit.expected) ∈ pruneCandidates gix (pruneRefspecs refspecs).1 (pruneRefspecs refspecs).2
      (direct references) (.ofList advertised) := by
  have hbind : ∀ f : List LocalPruneRef → Except Unit (List RefEdit × List Bytes),
      (do let locals ← directRefs (← (.ok (references.map .ok) : Except Unit _)); f locals) =
        f (direct references) := fun f ↦ by
    simp only [Bind.bind, Except.bind, directRefs_ok]
  simp only [prune, hbind] at h
  split at h
  · cases h
    cases hm
  · split at h
    · cases h
      cases hm
    · exact mem_pruneEdits h hm

section Exact

variable {gix : Gix} {refspecs : List RefSpec} {references : List GixReference} {advertised : List Bytes}
  {name target : Bytes}

/-- The candidates over the direct references, in terms of how the specs are read. -/
theorem candidate_iff (hgix : gix.Documented)
    (hread : ∀ spec ∈ refspecs, spec.wildcard = true → spec.patterns.isSome)
    (hnodup : (references.map GixReference.name).Nodup) :
    (name, target) ∈ pruneCandidates gix (pruneRefspecs refspecs).1 (pruneRefspecs refspecs).2
      (direct references) (.ofList advertised) ↔
      ⟨name, target⟩ ∈ direct references ∧
      (¬ ∃ spec ∈ refspecs, spec.exact = true ∧ spec.destination = some name) ∧
      (∃ spec ∈ refspecs, spec.wildcard = true ∧ ∃ remote, WildcardMaps spec remote name) ∧
      ∀ spec ∈ refspecs, spec.wildcard = true → ∀ remote, WildcardMaps spec remote name →
        remote ∉ advertised := by
  rw [mem_pruneCandidates ((direct_sublist references).nodup hnodup)]
  refine and_congr_right fun hlocal ↦ ?_
  rw [← contains_pruneRefspecs_snd, Bool.not_eq_true]
  refine and_congr_right fun _ ↦ ?_
  have hmapping : ∀ remote, (⟨.fullName remote, some name⟩ : Mapping) ∈
      gix.matchRhs (pruneRefspecs refspecs).1
        ((direct references).map fun entry ↦ ⟨entry.name, entry.target⟩) ↔
      ∃ spec ∈ refspecs, spec.wildcard = true ∧ WildcardMaps spec remote name := fun remote ↦ by
    rw [pruneRefspecs_fst, hgix.matchRhs _ _ fun spec hs ↦
      hread spec (List.mem_filter.mp hs).1 (List.mem_filter.mp hs).2]
    constructor
    · rintro ⟨spec, hs, item, -, remote', hmaps, heq⟩
      cases heq
      exact ⟨spec, (List.mem_filter.mp hs).1, (List.mem_filter.mp hs).2, hmaps⟩
    · rintro ⟨spec, hs, hw, hmaps⟩
      exact ⟨spec, List.mem_filter.mpr ⟨hs, hw⟩, ⟨name, target⟩,
        List.mem_map.mpr ⟨_, hlocal, rfl⟩, remote, hmaps, rfl⟩
  simp only [hmapping, Std.TreeSet.contains_ofList, List.contains_eq_mem, decide_eq_false_iff_not]
  refine and_congr ?_ ?_
  · exact ⟨fun ⟨remote, spec, hs, hw, hmaps⟩ ↦ ⟨spec, hs, hw, remote, hmaps⟩,
      fun ⟨spec, hs, hw, remote, hmaps⟩ ↦ ⟨remote, spec, hs, hw, hmaps⟩⟩
  · exact ⟨fun h spec hs hw remote hmaps ↦ h remote ⟨spec, hs, hw, hmaps⟩,
      fun h remote ⟨spec, hs, hw, hmaps⟩ ↦ h spec hs hw remote hmaps⟩

/-- No spec of the fetch maps an advertised reference to a stale one. -/
theorem not_mapsTo_of_stale {selects : Bytes → Bytes → Prop}
    (h : Stale gix refspecs (direct references) advertised name target) :
    ∀ spec ∈ refspecs, ∀ remote ∈ advertised, ¬ MapsTo gix selects spec remote name := by
  rintro spec hs remote hr (⟨hw, hmaps⟩ | ⟨hpins, -⟩)
  · exact h.unadvertised spec hs hw remote hmaps hr
  · exact h.unpinned spec hs hpins

/-- Pruning picks exactly the stale references if and only if every reference that an exact spec names and
that would be stale otherwise is written in full. -/
theorem prune_exact_iff (hgix : gix.Documented) (selects : Bytes → Bytes → Prop)
    (hread : ∀ spec ∈ refspecs, spec.wildcard = true → spec.patterns.isSome)
    (hnodup : (references.map GixReference.name).Nodup)
    (hfull : ∀ reference ∈ references, gix.fullName reference.name = true) :
    PrunesExactly gix selects refspecs references advertised ↔
      PinsWritten gix refspecs references advertised := by
  constructor
  · intro h entry hentry hpins
    by_contra hnot
    push Not at hnot
    obtain ⟨hwritten, hmatched, hadvertised⟩ := hnot
    have hcandidate : (entry.name, entry.target) ∈ pruneCandidates gix (pruneRefspecs refspecs).1
        (pruneRefspecs refspecs).2 (direct references) (.ofList advertised) :=
      (candidate_iff hgix hread hnodup).mpr ⟨hentry, fun ⟨spec, hs, he, hd⟩ ↦ hwritten spec hs he hd, hmatched,
        fun spec hs hw remote hmaps hr ↦ hadvertised spec hs hw remote hr hmaps⟩
    obtain ⟨spec, hs, hspec⟩ := hpins
    exact ((h.candidates _ _).mp hcandidate).unpinned spec hs hspec
  · intro h
    have hcandidates : ∀ name target,
        (name, target) ∈ pruneCandidates gix (pruneRefspecs refspecs).1 (pruneRefspecs refspecs).2
          (direct references) (.ofList advertised) ↔
        Stale gix refspecs (direct references) advertised name target := fun name target ↦ by
      rw [candidate_iff hgix hread hnodup]
      constructor
      · rintro ⟨hlocal, hwritten, hmatched, hadvertised⟩
        refine ⟨hlocal, hmatched, fun spec hs hpins ↦ ?_, hadvertised⟩
        rcases h _ hlocal ⟨spec, hs, hpins⟩ with hw | hw | ⟨other, ho, hw, remote, hr, hmaps⟩
        · exact hwritten hw
        · obtain ⟨other, ho, hwild, remote, hmaps⟩ := hmatched
          exact hw other ho hwild remote hmaps
        · exact hadvertised other ho hw remote hmaps hr
      · intro hstale
        refine ⟨hstale.present, ?_, hstale.matched, hstale.unadvertised⟩
        rintro ⟨spec, hs, he, hd⟩
        obtain ⟨reference, hreference, hname, -⟩ := mem_direct.mp hstale.present
        have hname : reference.name = name := hname
        have hlocal := hgix.localName name (hname ▸ hfull reference hreference)
        exact hstale.unpinned spec hs ⟨he, name, hd, hlocal⟩
    refine ⟨hcandidates, fun edits names hprune edit hedit ↦ ?_⟩
    have hstale := (hcandidates _ _).mp (candidate_of_prune hprune hedit)
    exact ⟨mem_direct.mp hstale.present, not_mapsTo_of_stale hstale⟩

end Exact

/-! ### A reverse matching -/

/-- The remote name that a pattern spec takes to `name`. -/
def reverseName (spec : RefSpec) (name : Bytes) : Option Bytes := do
  let (source, destination) ← spec.patterns
  let stem := (name.drop destination.1.length).take
    (name.length - destination.1.length - destination.2.length)
  if name = destination.1 ++ stem ++ destination.2 then return source.1 ++ stem ++ source.2 else none

/-- Reverse matching one spec after the other; a destination that is no full name stands for a branch. -/
def patternGix : Gix where
  matchRhs specs items := specs.flatMap fun spec ↦ items.filterMap fun item ↦
    (reverseName spec item.fullRefName).map fun remote ↦ ⟨.fullName remote, some item.fullRefName⟩
  localName name := if (Bytes.ascii "refs/").isPrefixOf name then name else Bytes.ascii "refs/heads/" ++ name
  fullName name := (Bytes.ascii "refs/").isPrefixOf name
  lossy := id

/-- `reverseName` finds the preimage of a name. -/
theorem reverseName_eq_some {spec : RefSpec} {name remote : Bytes} :
    reverseName spec name = some remote ↔ WildcardMaps spec remote name := by
  unfold reverseName WildcardMaps
  cases hp : spec.patterns with
  | none => simp [Bind.bind]
  | some parts =>
    obtain ⟨source, destination⟩ := parts
    simp only [Bind.bind, Option.bind_some, Option.some_inj, Prod.mk.injEq]
    constructor
    · intro h
      split at h
      · next hname =>
        cases h
        exact ⟨source, destination, _, ⟨rfl, rfl⟩, rfl, hname⟩
      · cases h
    · rintro ⟨source', destination', stem, ⟨rfl, rfl⟩, rfl, rfl⟩
      have hstem : ((destination.1 ++ stem ++ destination.2).drop destination.1.length).take
          ((destination.1 ++ stem ++ destination.2).length - destination.1.length - destination.2.length) =
          stem := by
        have hlen : (destination.1 ++ stem ++ destination.2).length - destination.1.length -
            destination.2.length = stem.length := by
          simp only [List.length_append]
          omega
        rw [hlen, List.append_assoc, List.drop_left, List.take_left]
      rw [hstem, if_pos rfl]
      rfl

/-- The reverse matching is as documented. -/
theorem patternGix_documented : patternGix.Documented where
  matchRhs specs items _ mapping := by
    simp only [patternGix, List.mem_flatMap, List.mem_filterMap, Option.map_eq_some_iff,
      reverseName_eq_some]
    constructor
    · rintro ⟨spec, hs, item, hi, remote, hmaps, rfl⟩
      exact ⟨spec, hs, item, hi, remote, hmaps, rfl⟩
    · rintro ⟨spec, hs, item, hi, remote, hmaps, rfl⟩
      exact ⟨spec, hs, item, hi, remote, hmaps, rfl⟩
  localName name h := if_pos h

/-- A spec as it is written. -/
def written (source destination : String) : RefSpec :=
  ⟨some (Bytes.ascii source), some (Bytes.ascii destination)⟩

/-- A direct local reference. -/
def branch (name : String) (oid : Bytes) : GixReference := ⟨Bytes.ascii name, .object oid, none⟩

/-- A stale tracking reference and one that an exact spec protects. -/
theorem prune_exact_pinned :
    PrunesExactly patternGix (· = ·)
      [written "refs/heads/*" "refs/remotes/o/*", written "refs/heads/p" "refs/remotes/o/k"]
      [branch "refs/remotes/o/g" [1], branch "refs/remotes/o/k" [2]] [] := by
  refine (prune_exact_iff patternGix_documented _ (by decide) (by decide) (by decide)).mpr ?_
  intro entry hentry hpins
  have hdirect : direct [branch "refs/remotes/o/g" [1], branch "refs/remotes/o/k" [2]] =
      [⟨Bytes.ascii "refs/remotes/o/g", [1]⟩, ⟨Bytes.ascii "refs/remotes/o/k", [2]⟩] := rfl
  rw [hdirect, List.mem_pair] at hentry
  rcases hentry with rfl | rfl
  · obtain ⟨spec, hs, hexact, destination, hd, hlocal⟩ := hpins
    rcases List.mem_pair.mp hs with rfl | rfl
    · exact absurd hexact (by decide)
    · cases hd
      exact absurd hlocal (by decide)
  · exact .inl ⟨written "refs/heads/p" "refs/remotes/o/k", by decide, by decide, rfl⟩

/-- The branch that `refs/heads/main:main` updates lies in the destination space of the wildcard spec: the fetch
that wrote it deletes it. -/
theorem prune_short_destination :
    ¬ PrunesExactly patternGix (· = ·)
      [written "refs/heads/main" "main", written "refs/heads/f/*" "refs/heads/*"]
      [branch "refs/heads/main" [1]] [Bytes.ascii "refs/heads/main"] := by
  intro h
  have hprune : prune patternGix (.ok [.ok (branch "refs/heads/main" [1])])
      [written "refs/heads/main" "main", written "refs/heads/f/*" "refs/heads/*"]
      [Bytes.ascii "refs/heads/main"] =
      .ok ([⟨Bytes.ascii "refs/heads/main", [1]⟩], [Bytes.ascii "refs/heads/main"]) := by rfl
  have hkept := (h.deleted _ _ hprune _ (List.mem_singleton.mpr rfl)).2 (written "refs/heads/main" "main")
    (by decide) (Bytes.ascii "refs/heads/main") (by decide)
  exact hkept (.inr ⟨⟨by decide, Bytes.ascii "main", rfl, by decide⟩, Bytes.ascii "refs/heads/main", rfl, rfl⟩)

end Gitility.Prune
