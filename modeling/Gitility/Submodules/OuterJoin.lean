import Gitility.Bundle.Sections
import Gitility.Submodules.ReadBack
import Gitility.Submodules.Submodules
import Gitility.Tree.Order

/-!
# The rows of a snapshot are an outer join

What the rows owe to the gitlinks of the tree and to the declarations, `OuterJoin`, which names neither the walk
nor the map that is consumed. The map is shown to lose to each declaration what it takes, once, and the walk to
collect what it reaches.
-/

namespace Gitility.Submodules

/-- The declaration a row shows. -/
def Submodule.declaration (row : Submodule) : Option Declaration :=
  row.name.map fun name ↦ ⟨name, row.path, row.url, row.branch⟩

/-- The gitlink a row shows. -/
def Submodule.gitlink (row : Submodule) : Option (Bytes × Oid) := row.commitOid.map fun oid ↦ (row.path, oid)

/-- A declaration owns a gitlink when it is the first, in the order of names, with the path of one. -/
def Owns (gitlink : Bytes → Oid → Prop) (declarations : List Declaration) (d : Declaration) : Prop :=
  (∃ oid, gitlink d.path oid) ∧ ∀ other ∈ declarations, other.path = d.path → d.name ≤ other.name

/-- The rows are a full outer join of gitlinks and declarations on the path. -/
structure OuterJoin (gitlink : Bytes → Oid → Prop) (declarations : List Declaration) (rows : List Submodule) :
    Prop where
  sorted : rows.Pairwise fun a b ↦ a.path ≤ b.path
  gitlinks : ∀ path oid, gitlink path oid → rows.countP (fun row ↦ row.gitlink = some (path, oid)) = 1
  commits : ∀ row ∈ rows, ∀ path oid, row.gitlink = some (path, oid) → gitlink path oid
  declared : ∀ d ∈ declarations, rows.countP (fun row ↦ row.declaration = some d) = 1
  declares : ∀ row ∈ rows, ∀ d, row.declaration = some d → d ∈ declarations
  active : ∀ row ∈ rows, row.status = .active ↔
    ∃ d, row.declaration = some d ∧ Owns gitlink declarations d
  orphaned : ∀ row ∈ rows, row.status = .orphaned ↔
    ∃ d, row.declaration = some d ∧ ¬ Owns gitlink declarations d
  undeclared : ∀ row ∈ rows, row.status = .undeclared ↔
    ∃ path oid, row.gitlink = some (path, oid) ∧ ∀ d ∈ declarations, d.path ≠ path
  unlinked : ∀ row ∈ rows, row.gitlink = none ↔ row.status = .orphaned
  unnamed : ∀ row ∈ rows, row.declaration = none ↔ row.status = .undeclared

/-! ### The join -/

section Join

variable {declarations : List Declaration} {gitlinks : Std.TreeMap Bytes Oid} {row : Submodule} {d : Declaration}
  {path : Bytes} {oid : Oid}

@[simp] private theorem declaration_declaredRow (d : Declaration) (commitOid : Option Oid) :
    (declaredRow d commitOid).declaration = some d := rfl

@[simp] private theorem gitlink_declaredRow (d : Declaration) (commitOid : Option Oid) :
    (declaredRow d commitOid).gitlink = commitOid.map fun oid ↦ (d.path, oid) := rfl

private theorem active_declaredRow {commitOid : Option Oid} :
    (declaredRow d commitOid).status = .active ↔ commitOid.isSome = true := by
  cases commitOid <;> simp [declaredRow]

private theorem orphaned_declaredRow {commitOid : Option Oid} :
    (declaredRow d commitOid).status = .orphaned ↔ ¬ commitOid.isSome = true := by
  cases commitOid <;> simp [declaredRow]

private theorem status_declaredRow_ne (d : Declaration) (commitOid : Option Oid) :
    (declaredRow d commitOid).status ≠ .undeclared := by
  cases commitOid <;> simp [declaredRow]

@[simp] private theorem declaration_undeclaredRow (path : Bytes) (oid : Oid) :
    (undeclaredRow path oid).declaration = none := rfl

@[simp] private theorem gitlink_undeclaredRow (path : Bytes) (oid : Oid) :
    (undeclaredRow path oid).gitlink = some (path, oid) := rfl

private theorem getElem?_erase (gitlinks : Std.TreeMap Bytes Oid) (path p : Bytes) :
    (gitlinks.erase p)[path]? = if p = path then none else gitlinks[path]? := by
  rw [Std.TreeMap.getElem?_erase]
  exact if_congr Std.compare_eq_iff_eq rfl rfl

private theorem joinRows_nil (gitlinks : Std.TreeMap Bytes Oid) :
    joinRows [] gitlinks = gitlinks.toList.map fun link ↦ undeclaredRow link.1 link.2 := rfl

private theorem joinRows_cons (d : Declaration) (declarations : List Declaration) (gitlinks : Std.TreeMap Bytes Oid) :
    joinRows (d :: declarations) gitlinks =
      declaredRow d gitlinks[d.path]? :: joinRows declarations (gitlinks.erase d.path) := rfl

/-- A gitlink is shown by exactly one row. -/
theorem countP_gitlink (declarations : List Declaration) (gitlinks : Std.TreeMap Bytes Oid) (path : Bytes)
    (oid : Oid) : (joinRows declarations gitlinks).countP (fun row ↦ row.gitlink = some (path, oid)) =
      if gitlinks[path]? = some oid then 1 else 0 := by
  induction declarations generalizing gitlinks with
  | nil =>
    have hnodup : gitlinks.toList.Nodup := by
      refine (gitlinks.ordered_keys_toList).imp fun {a b} hlt heq ↦ ?_
      have hself : compare a.1 b.1 = .eq := heq ▸ Std.ReflCmp.compare_self
      exact absurd (hself.symm.trans hlt) (by decide)
    have hcount : (joinRows [] gitlinks).countP (fun row ↦ row.gitlink = some (path, oid)) =
        gitlinks.toList.count (path, oid) := by
      rw [joinRows_nil, List.countP_map, List.count]
      refine List.countP_congr fun link _ ↦ ?_
      simp
    rw [hcount, List.Nodup.count hnodup, if_congr Std.TreeMap.mem_toList_iff_getElem?_eq_some rfl rfl]
  | cons d declarations ih =>
    rw [joinRows_cons, List.countP_cons, ih, getElem?_erase, gitlink_declaredRow]
    by_cases hpath : d.path = path
    · subst hpath
      cases gitlinks[d.path]? <;> simp
    · have hne : ¬ (gitlinks[d.path]?.map fun oid ↦ (d.path, oid)) = some (path, oid) := by
        cases gitlinks[d.path]? <;> simp [hpath]
      rw [if_neg hpath, decide_eq_false hne, if_neg Bool.false_ne_true, Nat.add_zero]

/-- No row shows the commit of another gitlink. -/
theorem gitlink_of_mem_joinRows (hrow : row ∈ joinRows declarations gitlinks)
    (h : row.gitlink = some (path, oid)) : gitlinks[path]? = some oid := by
  have hpos : 0 < (joinRows declarations gitlinks).countP (fun row ↦ row.gitlink = some (path, oid)) :=
    List.countP_pos_iff.mpr ⟨row, hrow, decide_eq_true h⟩
  rw [countP_gitlink] at hpos
  by_contra hnot
  rw [if_neg hnot] at hpos
  exact Nat.lt_irrefl 0 hpos

/-- A declaration is shown by as many rows as it occurs. -/
theorem countP_declaration (declarations : List Declaration) (gitlinks : Std.TreeMap Bytes Oid) (d : Declaration) :
    (joinRows declarations gitlinks).countP (fun row ↦ row.declaration = some d) = declarations.count d := by
  induction declarations generalizing gitlinks with
  | nil =>
    rw [joinRows_nil, List.countP_map, List.count_nil, List.countP_eq_zero]
    simp
  | cons other declarations ih =>
    rw [joinRows_cons, List.countP_cons, ih, declaration_declaredRow, List.count_cons]
    simp

/-- What the declarations leave of the gitlinks. -/
theorem getElem?_joinDeclarations (declarations : List Declaration) (gitlinks : Std.TreeMap Bytes Oid)
    (path : Bytes) : (joinDeclarations declarations gitlinks).2[path]? =
      if path ∈ declarations.map Declaration.path then none else gitlinks[path]? := by
  induction declarations generalizing gitlinks with
  | nil => rfl
  | cons d declarations ih =>
    rw [joinDeclarations, ih, getElem?_erase, List.map_cons]
    by_cases hpath : d.path = path
    · simp [hpath]
    · simp [hpath, Ne.symm hpath]

/-- A row of a declaration: it takes the gitlink unless a declaration before it has. -/
theorem mem_joinDeclarations (h : row ∈ (joinDeclarations declarations gitlinks).1) :
    ∃ before d after, declarations = before ++ d :: after ∧ row = declaredRow d
      (if d.path ∈ before.map Declaration.path then none else gitlinks[d.path]?) := by
  induction declarations generalizing gitlinks with
  | nil => cases h
  | cons first declarations ih =>
    rw [joinDeclarations] at h
    rcases List.mem_cons.mp h with rfl | h
    · exact ⟨[], first, declarations, rfl, rfl⟩
    · obtain ⟨before, d, after, rfl, rfl⟩ := ih h
      refine ⟨first :: before, d, after, rfl, ?_⟩
      rw [getElem?_erase, List.map_cons]
      by_cases hpath : first.path = d.path
      · simp [hpath]
      · simp [hpath, Ne.symm hpath]

/-- Before a declaration in the list is before it in the order of names. -/
theorem owns_iff {gitlink : Bytes → Oid → Prop} {before after : List Declaration}
    (hnames : (before ++ d :: after).Pairwise fun a b ↦ a.name < b.name) :
    Owns gitlink (before ++ d :: after) d ↔
      (∃ oid, gitlink d.path oid) ∧ d.path ∉ before.map Declaration.path := by
  refine and_congr_right fun _ ↦ ⟨fun h hmem ↦ ?_, fun h other hother hpath ↦ ?_⟩
  · obtain ⟨other, hother, hpath⟩ := List.mem_map.mp hmem
    have hlt := (List.pairwise_append.mp hnames).2.2 other hother d List.mem_cons_self
    exact List.not_le.mpr hlt (h other (List.mem_append_left _ hother) hpath)
  · rcases List.mem_append.mp hother with hother | hother
    · exact absurd (List.mem_map.mpr ⟨other, hother, hpath⟩) h
    · rcases List.mem_cons.mp hother with rfl | hother
      · exact List.le_refl _
      · have hlt := (List.pairwise_cons.mp (List.pairwise_append.mp hnames).2.1).1 other hother
        exact List.le_of_lt hlt

/-- Each row stands for a declaration or for a gitlink that is left. -/
theorem joinRows_cases (h : row ∈ joinRows declarations gitlinks) :
    (∃ before d after, declarations = before ++ d :: after ∧ row = declaredRow d
      (if d.path ∈ before.map Declaration.path then none else gitlinks[d.path]?)) ∨
    ∃ path oid, row = undeclaredRow path oid ∧ path ∉ declarations.map Declaration.path := by
  rw [joinRows] at h
  rcases List.mem_append.mp h with h | h
  · exact .inl (mem_joinDeclarations h)
  · obtain ⟨link, hlink, rfl⟩ := List.mem_map.mp h
    refine .inr ⟨link.1, link.2, rfl, fun hmem ↦ ?_⟩
    have hleft := Std.TreeMap.mem_toList_iff_getElem?_eq_some.mp hlink
    rw [getElem?_joinDeclarations, if_pos hmem] at hleft
    cases hleft

/-- Joining declarations in the order of their names with a map of gitlinks. -/
theorem outerJoin_joinRows {gitlink : Bytes → Oid → Prop} {rows : List Submodule}
    (hnames : declarations.Pairwise fun a b ↦ a.name < b.name)
    (hlinks : ∀ path oid, gitlinks[path]? = some oid ↔ gitlink path oid)
    (hperm : rows.Perm (joinRows declarations gitlinks))
    (hsorted : rows.Pairwise fun a b ↦ a.path ≤ b.path) : OuterJoin gitlink declarations rows := by
  have hnodup : declarations.Nodup := by
    refine List.Pairwise.imp ?_ hnames
    rintro a b hlt rfl
    exact List.lt_irrefl _ hlt
  have hmem : ∀ row ∈ rows, row ∈ joinRows declarations gitlinks := fun row hrow ↦ hperm.mem_iff.mp hrow
  -- a row of a declaration is active or orphaned as the declaration owns its gitlink or not
  have hdeclared : ∀ {before after : List Declaration} {d : Declaration},
      declarations = before ++ d :: after →
      ((if d.path ∈ before.map Declaration.path then none else gitlinks[d.path]?).isSome = true ↔
        Owns gitlink declarations d) := by
    intro before after d hsplit
    subst hsplit
    rw [owns_iff hnames]
    split
    · next h => simp [h]
    · next h =>
      rw [Option.isSome_iff_exists]
      simp only [hlinks]
      exact (and_iff_left h).symm
  have hshown : ∀ {d d' : Declaration} {commitOid : Option Oid},
      (declaredRow d commitOid).declaration = some d' ↔ d = d' := Option.some_inj
  exact {
    sorted := hsorted
    gitlinks := fun path oid h ↦ by
      rw [hperm.countP_eq, countP_gitlink, if_pos ((hlinks path oid).mpr h)]
    commits := fun row hrow path oid h ↦ (hlinks path oid).mp (gitlink_of_mem_joinRows (hmem row hrow) h)
    declared := fun d hd ↦ by
      rw [hperm.countP_eq, countP_declaration, hnodup.count, if_pos hd]
    declares := fun row hrow d h ↦ by
      rcases joinRows_cases (hmem row hrow) with ⟨before, d', after, rfl, rfl⟩ | ⟨path, oid, rfl, -⟩
      · obtain rfl := hshown.mp h
        exact List.mem_append_right _ List.mem_cons_self
      · cases h
    active := fun row hrow ↦ by
      rcases joinRows_cases (hmem row hrow) with ⟨before, d, after, hsplit, rfl⟩ | ⟨path, oid, rfl, -⟩
      · rw [active_declaredRow, hdeclared hsplit]
        exact ⟨fun h ↦ ⟨d, rfl, h⟩, fun ⟨d', hd', h⟩ ↦ hshown.mp hd' ▸ h⟩
      · exact iff_of_false (by simp [undeclaredRow]) (by simp)
    orphaned := fun row hrow ↦ by
      rcases joinRows_cases (hmem row hrow) with ⟨before, d, after, hsplit, rfl⟩ | ⟨path, oid, rfl, -⟩
      · rw [orphaned_declaredRow, hdeclared hsplit]
        exact ⟨fun h ↦ ⟨d, rfl, h⟩, fun ⟨d', hd', h⟩ ↦ hshown.mp hd' ▸ h⟩
      · exact iff_of_false (by simp [undeclaredRow]) (by simp)
    undeclared := fun row hrow ↦ by
      rcases joinRows_cases (hmem row hrow) with ⟨before, d, after, rfl, rfl⟩ | ⟨path, oid, rfl, hnone⟩
      · refine iff_of_false (status_declaredRow_ne _ _) ?_
        rintro ⟨path, oid, h, hother⟩
        rw [gitlink_declaredRow, Option.map_eq_some_iff] at h
        obtain ⟨_, _, h⟩ := h
        exact hother d (List.mem_append_right _ List.mem_cons_self) (congrArg Prod.fst h)
      · refine iff_of_true rfl ⟨path, oid, rfl, fun d hd hpath ↦ hnone ?_⟩
        exact List.mem_map.mpr ⟨d, hd, hpath⟩
    unlinked := fun row hrow ↦ by
      rcases joinRows_cases (hmem row hrow) with ⟨before, d, after, -, rfl⟩ | ⟨path, oid, rfl, -⟩
      · rw [orphaned_declaredRow, gitlink_declaredRow, Option.map_eq_none_iff, Option.not_isSome_iff_eq_none]
      · exact iff_of_false (by simp) (by simp [undeclaredRow])
    unnamed := fun row hrow ↦ by
      rcases joinRows_cases (hmem row hrow) with ⟨before, d, after, -, rfl⟩ | ⟨path, oid, rfl, -⟩
      · exact iff_of_false (by simp) (status_declaredRow_ne _ _)
      · exact iff_of_true rfl rfl }

end Join

/-! ### The walk -/

end Gitility.Submodules

namespace Gitility

/-- The trees `collect_gitlinks` reads; it descends into every one. -/
def ObjectDb.submoduleWalk (db : ObjectDb) (gix : Gix) : TreeWalk where
  read oid entries := db.eval (readTreeEntriesForWalk gix db.toStoreInfo true oid) = .ok entries
  descends _ entry _ := entry.kind = .tree

private theorem ObjectDb.regular_submoduleWalk {db : ObjectDb} {gix : Gix} (hcanonical : db.CanonicalTrees gix) :
    (db.submoduleWalk gix).Regular := by
  have hregular : (db.treeWalk gix fun _ entry _ ↦ entry.kind = .tree).Regular :=
    db.regular_treeWalk hcanonical fun _ _ _ ↦ of_decide_eq_true
  exact {
    functional := fun oid entries entries' h h' ↦
      hregular.functional _ _ _ (eval_readTreeEntriesForWalk h) (eval_readTreeEntriesForWalk h')
    canonical := fun oid entries h ↦ hregular.canonical _ _ (eval_readTreeEntriesForWalk h)
    valid := fun oid entries h ↦ hregular.valid _ _ (eval_readTreeEntriesForWalk h)
    descends_tree := hregular.descends_tree }

end Gitility

namespace Gitility.Submodules

section Walk

variable {db : ObjectDb} {gix : Gix} {entries : List OwnedTreeEntry} {dir path : Bytes} {depth : ℕ}
  {visited : List (Bytes × OwnedTreeEntry)} {gitlinks : Std.TreeMap Bytes Oid} {oid : Oid}

/-- What a visited entry adds to the gitlinks. -/
def insertLink (gitlinks : Std.TreeMap Bytes Oid) (visit : Bytes × OwnedTreeEntry) : Std.TreeMap Bytes Oid :=
  if visit.2.kind = .gitlink then gitlinks.insert visit.1 visit.2.oid else gitlinks

/-- The loop works on a directory until it has collected what the walk visits from it. -/
theorem eval_collectLoop (h : (db.submoduleWalk gix).Visits False entries dir depth visited) :
    ∃ n, ∀ fuel stack gitlinks,
      db.eval (collectLoop gix db.toStoreInfo (fuel + n) (⟨entries, dir⟩ :: stack) gitlinks) =
        db.eval (collectLoop gix db.toStoreInfo fuel stack (visited.foldl insertLink gitlinks)) := by
  induction h with
  | nil =>
    refine ⟨1, fun fuel stack gitlinks ↦ ?_⟩
    simp only [collectLoop, ObjectDb.eval_bind, ObjectDb.eval_check, Outcome.ok_bind, List.foldl_nil]
  | leave hcut => exact hcut.elim
  | @leaf entry rest dir depth visited hleaf hrest ih =>
    obtain ⟨n, hn⟩ := ih
    refine ⟨n + 1, fun fuel stack gitlinks ↦ ?_⟩
    have hleaf : ¬ entry.kind = .tree := of_decide_eq_false hleaf
    rw [← Nat.add_assoc, collectLoop, List.foldl_cons, ← hn]
    simp only [ObjectDb.eval_bind, ObjectDb.eval_check, Outcome.ok_bind, insertLink]
    cases hkind : entry.kind with
    | tree => exact absurd hkind hleaf
    | gitlink => simp
    | blob => simp
    | symlink => simp
  | @tree entry rest children dir depth below visited htree hread hbelow hrest ihbelow ih =>
    obtain ⟨n, hn⟩ := ihbelow
    obtain ⟨m, hm⟩ := ih
    refine ⟨m + n + 1, fun fuel stack gitlinks ↦ ?_⟩
    have hkind : entry.kind = .tree := of_decide_eq_true htree
    have hread : db.eval (readTreeEntriesForWalk gix db.toStoreInfo true entry.oid) = .ok children := hread
    rw [← Nat.add_assoc, ← Nat.add_assoc, collectLoop, List.foldl_cons, List.foldl_append, ← hm, ← hn]
    simp only [ObjectDb.eval_bind, ObjectDb.eval_check, Outcome.ok_bind, insertLink, hkind, hread]
    simp

/-- What has been collected of distinct paths. -/
theorem getElem?_foldl_insertLink (hdistinct : visited.Pairwise fun v w ↦ v.1 ≠ w.1) :
    (visited.foldl insertLink gitlinks)[path]? = some oid ↔
      (∃ entry, (path, entry) ∈ visited ∧ entry.kind = .gitlink ∧ entry.oid = oid) ∨
      gitlinks[path]? = some oid ∧ ∀ entry, (path, entry) ∈ visited → entry.kind ≠ .gitlink := by
  induction visited generalizing gitlinks with
  | nil => simp
  | cons visit visited ih =>
    obtain ⟨first, entry⟩ := visit
    obtain ⟨hfirst, hrest⟩ := List.pairwise_cons.mp hdistinct
    rw [List.foldl_cons, ih hrest, insertLink]
    dsimp only
    by_cases hpath : first = path
    · subst hpath
      have hnot : ∀ e, (first, e) ∉ visited := fun e he ↦ hfirst _ he rfl
      split
      · next hkind => simp [hnot, hkind]
      · next hkind => simp [hnot, hkind]
    · have hmem : ∀ e, (path, e) ∈ (first, entry) :: visited ↔ (path, e) ∈ visited := fun e ↦ by
        simp [Ne.symm hpath]
      have hget : (if entry.kind = .gitlink then gitlinks.insert first entry.oid else gitlinks)[path]? =
          gitlinks[path]? := by
        split
        · rw [Std.TreeMap.getElem?_insert, if_neg (fun heq ↦ hpath (Std.LawfulEqCmp.eq_of_compare heq))]
        · rfl
      simp only [hmem, hget]

end Walk

/-! ### The query -/

section Query

variable {db : ObjectDb} {gix : Gix} {snapshot : Snapshot} {entries : List OwnedTreeEntry}
  {declarations : List Declaration} {visited : List (Bytes × OwnedTreeEntry)}

/-- The declarations of a blob are none, or those of its payload. -/
theorem eval_readGitmodules {oid : Oid} (h : db.eval (readGitmodules oid) = .ok declarations) :
    declarations = [] ∨ ∃ payload, parseDeclarations payload = .ok declarations := by
  rw [readGitmodules, ObjectDb.eval_bind, Outcome.bind_eq_ok] at h
  obtain ⟨header, -, h⟩ := h
  cases header with
  | none => cases h
  | some read =>
    dsimp only at h
    split at h
    · exact .inl (Outcome.ok.inj h).symm
    split at h
    · cases h
    rw [ObjectDb.eval_bind, Outcome.bind_eq_ok] at h
    obtain ⟨found, -, h⟩ := h
    rcases found with _ | ⟨kind, payload⟩
    · cases h
    · dsimp only at h
      split at h
      · exact .inl (Outcome.ok.inj h).symm
      split at h
      · cases h
      · exact .inr ⟨payload, h⟩

/-- Declarations that are read come in the order of their names. -/
theorem pairwise_readDeclarations (h : db.eval (readDeclarations entries) = .ok declarations) :
    declarations.Pairwise fun a b ↦ a.name < b.name := by
  unfold readDeclarations at h
  split at h
  · cases h
    exact .nil
  · split at h
    · cases h
      exact .nil
    · rcases eval_readGitmodules h with rfl | ⟨payload, hpayload⟩
      · exact .nil
      · exact pairwise_parseDeclarations hpayload

/-- The submodules of a snapshot of canonical trees that can all be read, however deep they are nested, are the
full outer join of its gitlinks and its declarations. -/
theorem submodules_outerJoin (hcompatible : ensureQueryCompatible db.toStoreInfo snapshot = .ok ())
    (hcanonical : db.CanonicalTrees gix)
    (hroot : db.eval (readTreeEntriesForWalk gix db.toStoreInfo true snapshot.treeOid) = .ok entries)
    (hvisits : (db.submoduleWalk gix).Visits False entries [] 1 visited)
    (hdeclarations : db.eval (readDeclarations entries) = .ok declarations) :
    ∃ enough, ∀ fuel, enough ≤ fuel → ∃ rows,
      db.eval (submodules gix fuel db.toStoreInfo snapshot) = .ok rows ∧
      OuterJoin (fun path oid ↦ ∃ entry, (db.submoduleWalk gix).Reaches entries [] 1 path entry ∧
        entry.kind = .gitlink ∧ entry.oid = oid) declarations rows := by
  have hregular := ObjectDb.regular_submoduleWalk hcanonical
  have hordered := hvisits.ordered hregular (hregular.canonical _ _ hroot) (hregular.valid _ _ hroot)
  obtain ⟨n, hn⟩ := eval_collectLoop hvisits
  refine ⟨n + 1, fun fuel hfuel ↦ ⟨_, ?_, outerJoin_joinRows (pairwise_readDeclarations hdeclarations) ?_
    (List.mergeSort_perm (joinRows declarations (visited.foldl insertLink ∅)) _)
    (Bundle.pairwise_mergeSort_le Submodule.path _)⟩⟩
  · obtain ⟨rest, rfl⟩ := Nat.exists_eq_add_of_le' hfuel
    have hcollect : db.eval (collectGitlinks gix (rest + (n + 1)) db.toStoreInfo entries) =
        .ok (visited.foldl insertLink ∅) := by
      rw [collectGitlinks, Nat.add_comm n, ← Nat.add_assoc, hn]
      rfl
    simp only [submodules, ObjectDb.eval_bind, ObjectDb.eval_ofExcept, hcompatible, Outcome.ofExcept_ok,
      Outcome.ok_bind, hroot, hdeclarations, hcollect, ObjectDb.eval_pure]
  · intro path oid
    rw [getElem?_foldl_insertLink (hordered.imp And.right)]
    simp [hvisits.mem_iff hregular]

end Query

/-! ### A sample -/

/-- A snapshot with two gitlinks, one of them in a directory, and two declarations of one path. -/
def joinStore : ObjectDb := .ofFind .sha1 none fun oid ↦ .ok <|
  if oid = sampleId 0xaa then
    some (.tree, sampleTree [("100644", ".gitmodules", 1), ("160000", "a", 2), ("40000", "lib", 0xbb)])
  else if oid = sampleId 0xbb then some (.tree, sampleTree [("160000", "b", 3)])
  else if oid = sampleId 1 then
    some (.blob, Bytes.ascii "[submodule \"y\"]\n\tpath = lib/b\n[submodule \"x\"]\n\tpath = lib/b\n")
  else none

/-- Its commit and its root. -/
def joinSnapshot : Snapshot := ⟨sampleId 4, sampleId 0xaa⟩

/-- The entries of its root and of the tree in it. -/
def joinRoot : List OwnedTreeEntry :=
  [⟨⟨0o100644, Bytes.ascii ".gitmodules", sampleId 1⟩, .blob⟩, ⟨⟨0o160000, Bytes.ascii "a", sampleId 2⟩, .gitlink⟩,
    ⟨⟨0o40000, Bytes.ascii "lib", sampleId 0xbb⟩, .tree⟩]

/-- The entries of the tree `lib`. -/
def joinLib : List OwnedTreeEntry := [⟨⟨0o160000, Bytes.ascii "b", sampleId 3⟩, .gitlink⟩]

private theorem readForWalk_joinRoot : joinStore.eval
    (readTreeEntriesForWalk sampleGix joinStore.toStoreInfo true (sampleId 0xaa)) = .ok joinRoot := by
  decide +kernel

private theorem readForWalk_joinLib : joinStore.eval
    (readTreeEntriesForWalk sampleGix joinStore.toStoreInfo true (sampleId 0xbb)) = .ok joinLib := by
  decide +kernel

private theorem joinStore_canonical : joinStore.CanonicalTrees sampleGix := by
  have hdecode : ∀ payload ∈
      [sampleTree [("100644", ".gitmodules", 1), ("160000", "a", 2), ("40000", "lib", 0xbb)],
        sampleTree [("160000", "b", 3)]],
      ∀ entries ∈ (decodeOwnedTreeEntries sampleGix payload .sha1).toOption, Canonical entries := by
    decide +kernel
  intro oid payload entries hfind h
  refine hdecode payload ?_ entries (by rw [show decodeOwnedTreeEntries _ _ .sha1 = _ from h]; rfl)
  have hfind := Except.ok.inj hfind
  split at hfind
  · obtain rfl := (Prod.mk.inj (Option.some.inj hfind)).2
    exact List.mem_cons_self
  · split at hfind
    · obtain rfl := (Prod.mk.inj (Option.some.inj hfind)).2
      exact List.mem_cons_of_mem _ List.mem_cons_self
    · split at hfind
      · cases (Prod.mk.inj (Option.some.inj hfind)).1
      · cases hfind

/-- In the sample, one of the declarations owns the gitlink in the directory. -/
theorem submodules_outerJoin_sample : ∃ enough, ∀ fuel, enough ≤ fuel → ∃ rows,
    joinStore.eval (submodules sampleGix fuel joinStore.toStoreInfo joinSnapshot) = .ok rows ∧
    OuterJoin (fun path oid ↦ ∃ entry, (joinStore.submoduleWalk sampleGix).Reaches joinRoot [] 1 path entry ∧
        entry.kind = .gitlink ∧ entry.oid = oid)
      [⟨Bytes.ascii "x", Bytes.ascii "lib/b", none, none⟩, ⟨Bytes.ascii "y", Bytes.ascii "lib/b", none, none⟩]
      rows := by
  have hvisits : ∃ visited, (joinStore.submoduleWalk sampleGix).Visits False joinRoot [] 1 visited :=
    ⟨_, .leaf rfl (.leaf rfl (.tree rfl readForWalk_joinLib (.leaf rfl .nil) .nil))⟩
  obtain ⟨visited, hvisits⟩ := hvisits
  exact submodules_outerJoin rfl joinStore_canonical readForWalk_joinRoot hvisits (by decide +kernel)

end Gitility.Submodules
