import Gitility.Diff.Selection

/-!
# The leaves of a projected tree

The diff reads a projected tree through the map that its projection filled. What it finds are the leaves
of the stored tree whose paths the pathspecs select, and each subtree on the way there has an entry. A
tree whose root has a subtree without a name is an exception: its paths begin with those of the subtree's
own entries, which the pruning does not expect.
-/

namespace Gitility.Diff

/-! ### Leaves -/

/-- The entries that the diff reads from a tree. -/
def treeEntries (gix : Gix) (kind : HashKind) (payload : Bytes) : Option (List TreeEntry) :=
  (gix.treeRefIter kind payload).mapM Prod.snd

/-- A leaf of a flattened tree. -/
structure TreeLeaf where
  path : Bytes
  mode : ℕ
  oid : Oid
  deriving DecidableEq

/-- A tree with this payload in this directory has this leaf, where `find` reads its subtrees. -/
inductive IsLeaf (gix : Gix) (find : Oid → Option Bytes) : HashKind → Bytes → Bytes → TreeLeaf → Prop
  | entry {kind payload directory entries entry} (hentries : treeEntries gix kind payload = some entries)
      (hmem : entry ∈ entries) (hleaf : ¬isTree entry.mode) :
      IsLeaf gix find kind payload directory
        ⟨joinPath directory entry.name, entry.mode, entry.oid⟩
  | inside {kind payload directory entries entry child leaf}
      (hentries : treeEntries gix kind payload = some entries) (hmem : entry ∈ entries)
      (htree : isTree entry.mode) (hfind : find entry.oid = some child)
      (hinside : IsLeaf gix find entry.oid.kind child (joinPath directory entry.name) leaf) :
      IsLeaf gix find kind payload directory leaf

/-- The tree with this ID has this leaf. -/
def HasLeaf (gix : Gix) (find : Oid → Option Bytes) (oid : Oid) (directory : Bytes) (leaf : TreeLeaf) :
    Prop :=
  ∃ payload, find oid = some payload ∧ IsLeaf gix find oid.kind payload directory leaf

/-- An entry is this leaf, or a subtree that has it. -/
def EntryLeaf (gix : Gix) (find : Oid → Option Bytes) (directory : Bytes) (entry : TreeEntry)
    (leaf : TreeLeaf) : Prop :=
  if isTree entry.mode then HasLeaf gix find entry.oid (joinPath directory entry.name) leaf
  else leaf = ⟨joinPath directory entry.name, entry.mode, entry.oid⟩

variable {gix : Gix} {find : Oid → Option Bytes} {kind : HashKind} {payload directory : Bytes}
  {entry : TreeEntry} {entries kept : List TreeEntry} {leaf : TreeLeaf} {oid : Oid} {db : ObjectDb}
  {scope : Scope} {projected : List (Oid × Bytes)}

/-- A tree is read when the reader gives all its entries. -/
theorem treeEntries_eq_some : treeEntries gix kind payload = some entries ↔
    (gix.treeRefIter kind payload).map Prod.snd = entries.map some := by
  rw [treeEntries]
  generalize gix.treeRefIter kind payload = items
  induction items generalizing entries with
  | nil => cases entries <;> simp
  | cons item items ih =>
    obtain ⟨remaining, item⟩ := item
    cases item with
    | none => cases entries <;> simp [List.mapM_cons]
    | some first =>
      have hcons : ((remaining, some first) :: items).mapM Prod.snd = some entries ↔
          ∃ rest, items.mapM Prod.snd = some rest ∧ first :: rest = entries := by
        simp [List.mapM_cons, Option.bind_eq_some_iff]
      rw [hcons]
      constructor
      · rintro ⟨rest, hrest, rfl⟩
        rw [List.map_cons, List.map_cons, ih.mp hrest]
      · intro h
        cases entries with
        | nil => cases h
        | cons entry rest =>
          obtain ⟨hfirst, hrest⟩ := List.cons.inj h
          obtain rfl := Option.some.inj hfirst
          exact ⟨rest, ih.mpr hrest, rfl⟩

/-- The entries of `decode_tree` are those that the diff reads. -/
theorem treeEntries_of_decodeTree (h : decodeTree gix kind payload = .ok entries) :
    treeEntries gix kind payload = some entries := by
  rw [treeEntries_eq_some]
  rw [decodeTree] at h
  generalize gix.treeRefIter kind payload = items at h
  induction items generalizing entries with
  | nil =>
    cases h
    rfl
  | cons item items ih =>
    obtain ⟨remaining, item⟩ := item
    rw [List.mapM_cons] at h
    obtain ⟨entry, hentry, h⟩ := Except.bind_eq_ok.mp h
    obtain ⟨rest, hrest, h⟩ := Except.bind_eq_ok.mp h
    cases h
    rw [List.map_cons, List.map_cons, ih hrest, item_of_decodeTreeItem hentry]

/-- A leaf of a tree is a leaf of one of its entries. -/
theorem isLeaf_iff : IsLeaf gix find kind payload directory leaf ↔
    ∃ entries, treeEntries gix kind payload = some entries ∧
      ∃ entry ∈ entries, EntryLeaf gix find directory entry leaf := by
  constructor
  · intro h
    cases h with
    | entry hentries hmem hleaf => exact ⟨_, hentries, _, hmem, by rw [EntryLeaf, if_neg hleaf]⟩
    | inside hentries hmem htree hfind hinside =>
      refine ⟨_, hentries, _, hmem, ?_⟩
      rw [EntryLeaf, if_pos htree]
      exact ⟨_, hfind, hinside⟩
  · rintro ⟨entries, hentries, entry, hmem, hleaf⟩
    rw [EntryLeaf] at hleaf
    split at hleaf
    · next htree =>
      obtain ⟨child, hfind, hinside⟩ := hleaf
      exact .inside hentries hmem htree hfind hinside
    · next htree =>
      rw [hleaf]
      exact .entry hentries hmem htree

/-- A leaf of a tree is below its directory. -/
theorem IsLeaf.path_eq (h : IsLeaf gix find kind payload directory leaf) (hne : directory ≠ []) :
    ∃ rest, leaf.path = directory ++ 0x2f :: rest := by
  induction h with
  | entry hentries hmem hleaf => exact ⟨_, by rw [joinPath, if_neg hne]⟩
  | @inside kind payload directory entries entry child leaf hentries hmem htree hfind hinside ih =>
    obtain ⟨rest, hrest⟩ := ih (by simp [joinPath, hne])
    refine ⟨entry.name ++ 0x2f :: rest, ?_⟩
    rw [hrest, joinPath, if_neg hne, List.append_assoc, List.cons_append]

/-! ### Reading a projection -/

/-- An option of a result is the value exactly when the result is. -/
theorem toOption_eq_some {α : Type} {x : Except Error α} {a : α} : x.toOption = some a ↔ x = .ok a := by
  cases x <;> simp [Except.toOption]

/-- Each entry has the hash of its tree, and a mode and a name that `TreeRefIter` yields. -/
def Readable (gix : Gix) (kind : HashKind) (entries : List TreeEntry) : Prop :=
  ∀ entry ∈ entries, entry.oid.kind = kind ∧
    ∃ payload remaining oid, (remaining, some { entry with oid }) ∈ gix.treeRefIter kind payload

/-- Entries written out are read back. -/
theorem Readable.treeEntries (hgix : ReadsTrees gix) (h : Readable gix kind entries) :
    treeEntries gix kind (encodeTree entries) = some entries :=
  treeEntries_eq_some.mpr (hgix.encoded kind entries h)

/-- An entry of a read tree comes from the reader. -/
theorem mem_of_treeEntries (h : treeEntries gix kind payload = some entries) (hmem : entry ∈ entries) :
    ∃ remaining, (remaining, some entry) ∈ gix.treeRefIter kind payload := by
  have hsome : some entry ∈ (gix.treeRefIter kind payload).map Prod.snd := by
    rw [treeEntries_eq_some.mp h]
    exact List.mem_map_of_mem hmem
  obtain ⟨⟨remaining, item⟩, hitem, rfl⟩ := List.mem_map.mp hsome
  exact ⟨remaining, hitem⟩

/-- What is selected of an entry keeps its mode and its name. -/
theorem selectEntry_shape {select : Oid → Bytes → Option (List TreeEntry)} {selected : TreeEntry}
    (h : selectEntry scope select kind directory entry = some (some selected)) :
    ∃ oid, selected = { entry with oid } ∧ (oid = entry.oid ∨ oid.kind = kind) := by
  simp only [selectEntry] at h
  split at h
  · split at h
    · obtain ⟨child, -, h⟩ := Option.bind_eq_some_iff.mp h
      split at h
      · cases h
      · obtain ⟨childOid, hid, h⟩ := Option.bind_eq_some_iff.mp h
        cases h
        exact ⟨childOid, rfl, .inr (kind_of_treeId (toOption_eq_some.mp hid))⟩
    · cases h
  · split at h
    · cases h
      exact ⟨entry.oid, rfl, .inl rfl⟩
    · cases h

/-- What is kept of entries comes from one of them. -/
theorem mem_selectEntries {select : Oid → Bytes → Option (List TreeEntry)} {selected : TreeEntry}
    (h : selectEntries scope select kind directory entries = some kept) :
    selected ∈ kept ↔
      ∃ entry ∈ entries, selectEntry scope select kind directory entry = some (some selected) := by
  induction entries generalizing kept with
  | nil =>
    cases h
    simp
  | cons entry rest ih =>
    obtain ⟨first, hfirst, h⟩ := Option.bind_eq_some_iff.mp h
    obtain ⟨others, hothers, h⟩ := Option.bind_eq_some_iff.mp h
    cases h
    simp [ih hothers, hfirst]

/-- Each of the entries was selected or left out. -/
theorem selectEntry_of_mem {select : Oid → Bytes → Option (List TreeEntry)}
    (h : selectEntries scope select kind directory entries = some kept) (hmem : entry ∈ entries) :
    ∃ selected, selectEntry scope select kind directory entry = some selected := by
  induction entries generalizing kept with
  | nil => cases hmem
  | cons other rest ih =>
    obtain ⟨first, hfirst, h⟩ := Option.bind_eq_some_iff.mp h
    obtain ⟨others, hothers, h⟩ := Option.bind_eq_some_iff.mp h
    rcases List.mem_cons.mp hmem with rfl | hmem
    · exact ⟨first, hfirst⟩
    · exact ih hothers hmem

/-- What a selection is made of. -/
theorem selection_eq_some {fuel : ℕ} (h : selection scope db fuel oid directory = some kept) :
    ∃ n payload entries, fuel = n + 1 ∧ treeOf db oid = some payload ∧
      treeEntries scope.gix oid.kind payload = some entries ∧
      selectEntries scope (selection scope db n) oid.kind directory entries = some kept := by
  cases fuel with
  | zero => cases h
  | succ n =>
    obtain ⟨payload, hpayload, h⟩ := Option.bind_eq_some_iff.mp h
    obtain ⟨entries, hentries, h⟩ := Option.bind_eq_some_iff.mp h
    exact ⟨n, payload, entries, rfl, hpayload,
      treeEntries_of_decodeTree (toOption_eq_some.mp hentries), h⟩

/-- A selection can be read again. -/
theorem readable_of_selection (hgix : ReadsTrees scope.gix) {fuel : ℕ}
    (h : selection scope db fuel oid directory = some kept) : Readable scope.gix oid.kind kept := by
  obtain ⟨n, payload, entries, -, -, hentries, hselect⟩ := selection_eq_some h
  intro selected hmem
  obtain ⟨entry, hentry, hselected⟩ := (mem_selectEntries hselect).mp hmem
  obtain ⟨id, rfl, hid⟩ := selectEntry_shape hselected
  obtain ⟨remaining, hitem⟩ := mem_of_treeEntries hentries hentry
  have hkind := hgix.kind _ _ _ _ hitem
  refine ⟨?_, payload, remaining, entry.oid, hitem⟩
  rcases hid with rfl | hid
  · exact hkind
  · exact hid

/-- The hashes of the trees that projections write collide neither with each other nor with the collision
detection. -/
structure CollisionFree (scope : Scope) (db : ObjectDb) : Prop where
  hashes : ∀ fuel oid directory kept, selection scope db fuel oid directory = some kept →
    ∃ id, scope.treeId oid.kind (encodeTree kept) = .ok id
  injective : ∀ fuel oid directory kept fuel' oid' directory' kept' kind id,
    selection scope db fuel oid directory = some kept →
    selection scope db fuel' oid' directory' = some kept' →
    scope.treeId kind (encodeTree kept) = .ok id → scope.treeId kind (encodeTree kept') = .ok id →
      encodeTree kept = encodeTree kept'

/-- A subtree that a projection refers to is in the map with what was selected of it. -/
theorem Memo.lookup_child {maps : Maps} (hmemo : Memo scope db maps) (hgix : ReadsTrees scope.gix)
    (hfree : CollisionFree scope db) {fuel : ℕ} {id : Oid}
    (hselection : selection scope db fuel oid directory = some kept) (hkind : oid.kind = kind)
    (hid : scope.treeId kind (encodeTree kept) = .ok id) (hfound : (maps.projected.lookup id).isSome) :
    maps.projected.lookup id = some (encodeTree kept) ∧ Resolved maps.projected kept := by
  obtain ⟨child, hchild⟩ := Option.isSome_iff_exists.mp hfound
  obtain ⟨-, hid', source, directory', hsource, fuel', kept', hselection', rfl, hresolved⟩ :=
    hmemo.projected id child hchild
  rw [kind_of_treeId hid] at hid' hsource
  have heq : encodeTree kept = encodeTree kept' :=
    hfree.injective _ _ _ _ _ _ _ _ _ _ hselection hselection' hid hid'
  have hread : treeEntries scope.gix kind (encodeTree kept) = some kept := by
    rw [← hkind]
    exact (readable_of_selection hgix hselection).treeEntries hgix
  have hread' : treeEntries scope.gix kind (encodeTree kept') = some kept' := by
    rw [← hsource]
    exact (readable_of_selection hgix hselection').treeEntries hgix
  rw [heq, hread'] at hread
  obtain rfl := Option.some.inj hread
  exact ⟨hchild, hresolved⟩

/-- The root has no subtree without a name. -/
def NamedRoot (gix : Gix) (db : ObjectDb) (oid : Oid) : Prop :=
  ∀ payload entries, treeOf db oid = some payload → treeEntries gix oid.kind payload = some entries →
    ∀ entry ∈ entries, isTree entry.mode → entry.name ≠ []

/-- A leaf of a pruned subtree is not selected. -/
theorem not_matchesPath_of_pruned (hsound : Pathspec.Sound scope.gix scope.patterns)
    (hmay : ¬Pathspec.mayMatchDescendant scope.patterns directory) (hne : directory ≠ [])
    (hleaf : HasLeaf scope.gix find oid directory leaf) :
    ¬Pathspec.matchesPath scope.gix scope.patterns leaf.path := by
  obtain ⟨payload, -, hleaf⟩ := hleaf
  obtain ⟨rest, hpath⟩ := hleaf.path_eq hne
  intro hmatch
  rw [hpath] at hmatch
  exact hmay (hsound directory rest hmatch)

section Leaves

variable {maps : Maps} (hmemo : Memo scope db maps) (hgix : ReadsTrees scope.gix)
  (hfree : CollisionFree scope db) (hsound : Pathspec.Sound scope.gix scope.patterns)
  (hfind : ∀ oid payload, maps.projected.lookup oid = some payload → find oid = some payload)

/-- What is selected is read as the leaves of the stored tree that the pathspecs match. -/
def SelectsLeaves (scope : Scope) (db : ObjectDb) (find : Oid → Option Bytes) (oid : Oid)
    (directory : Bytes) (kept : List TreeEntry) : Prop :=
  ∀ leaf, (∃ entry ∈ kept, EntryLeaf scope.gix find directory entry leaf) ↔
    HasLeaf scope.gix (treeOf db) oid directory leaf ∧
      Pathspec.matchesPath scope.gix scope.patterns leaf.path

include hmemo hgix hfree hfind in
/-- A subtree that a projection refers to is read as what was selected of it. -/
theorem hasLeaf_child {fuel : ℕ} {id : Oid}
    (hselection : selection scope db fuel oid directory = some kept) (hkind : oid.kind = kind)
    (hid : scope.treeId kind (encodeTree kept) = .ok id) (hfound : (maps.projected.lookup id).isSome) :
    HasLeaf scope.gix find id directory leaf ↔
      ∃ entry ∈ kept, EntryLeaf scope.gix find directory entry leaf := by
  obtain ⟨hlookup, -⟩ := hmemo.lookup_child hgix hfree hselection hkind hid hfound
  have hread : treeEntries scope.gix id.kind (encodeTree kept) = some kept := by
    rw [kind_of_treeId hid, ← hkind]
    exact (readable_of_selection hgix hselection).treeEntries hgix
  simp [HasLeaf, hfind id _ hlookup, isLeaf_iff, hread]

include hmemo hgix hfree hsound hfind in
/-- The step of a selection: what is selected of an entry has those of its leaves that are matched. -/
theorem leaf_selectEntry_iff {fuel : ℕ}
    (ih : ∀ oid directory kept, selection scope db fuel oid directory = some kept →
      Resolved maps.projected kept → directory ≠ [] → SelectsLeaves scope db find oid directory kept)
    (hkind : entry.oid.kind = kind) (hname : isTree entry.mode → joinPath directory entry.name ≠ [])
    {selected : Option TreeEntry}
    (hselect : selectEntry scope (selection scope db fuel) kind directory entry = some selected)
    (hresolved : ∀ other ∈ selected, isTree other.mode → (maps.projected.lookup other.oid).isSome) :
    (∃ other ∈ selected, EntryLeaf scope.gix find directory other leaf) ↔
      EntryLeaf scope.gix (treeOf db) directory entry leaf ∧
        Pathspec.matchesPath scope.gix scope.patterns leaf.path := by
  simp only [selectEntry] at hselect
  by_cases htree : isTree entry.mode
  · have hne := hname htree
    have hentry : EntryLeaf scope.gix (treeOf db) directory entry leaf ↔
        HasLeaf scope.gix (treeOf db) entry.oid (joinPath directory entry.name) leaf := by
      rw [EntryLeaf, if_pos htree]
    rw [if_pos htree] at hselect
    rw [hentry]
    by_cases hmay : Pathspec.mayMatchDescendant scope.patterns (joinPath directory entry.name)
    · rw [if_pos hmay] at hselect
      obtain ⟨child, hchild, hselect⟩ := Option.bind_eq_some_iff.mp hselect
      by_cases hempty : child = []
      · rw [if_pos hempty] at hselect
        cases hselect
        subst hempty
        rw [← ih _ _ _ hchild (fun _ hmem ↦ by cases hmem) hne leaf]
        simp
      · rw [if_neg hempty] at hselect
        obtain ⟨id, hid, hselect⟩ := Option.bind_eq_some_iff.mp hselect
        cases hselect
        rw [toOption_eq_some] at hid
        have hfound := hresolved _ rfl htree
        obtain ⟨-, hinside⟩ := hmemo.lookup_child hgix hfree hchild hkind hid hfound
        rw [← ih _ _ _ hchild hinside hne leaf,
          ← hasLeaf_child hmemo hgix hfree hfind hchild hkind hid hfound]
        simp [EntryLeaf, htree]
    · rw [if_neg hmay] at hselect
      cases hselect
      refine iff_of_false (by simp) ?_
      rintro ⟨hleaf, hmatch⟩
      exact not_matchesPath_of_pruned hsound hmay hne hleaf hmatch
  · rw [if_neg htree] at hselect
    cases hselect
    by_cases hmatch : Pathspec.matchesPath scope.gix scope.patterns (joinPath directory entry.name)
    · rw [if_pos hmatch]
      simp only [EntryLeaf, if_neg htree, Option.mem_some_iff, exists_eq_left']
      refine ⟨fun h ↦ ⟨h, ?_⟩, fun h ↦ h.1⟩
      rw [h]
      exact hmatch
    · rw [if_neg hmatch]
      simp only [EntryLeaf, if_neg htree]
      refine iff_of_false (by simp) ?_
      rintro ⟨rfl, hpath⟩
      exact hmatch hpath

include hmemo hgix hfree hsound hfind in
/-- What is selected of a stored tree has those of its leaves that the pathspecs match. -/
theorem selectsLeaves {fuel : ℕ} (hselection : selection scope db fuel oid directory = some kept)
    (hresolved : Resolved maps.projected kept) (hroot : directory = [] → NamedRoot scope.gix db oid) :
    SelectsLeaves scope db find oid directory kept := by
  induction fuel generalizing oid directory kept with
  | zero => cases hselection
  | succ fuel ih =>
    obtain ⟨n, payload, entries, hn, hpayload, hentries, hselect⟩ := selection_eq_some hselection
    obtain rfl := Nat.succ.inj hn
    intro leaf
    have hentry : ∀ entry ∈ entries, ∀ selected,
        selectEntry scope (selection scope db fuel) oid.kind directory entry = some selected →
        (∀ other ∈ selected, isTree other.mode → (maps.projected.lookup other.oid).isSome) →
        ((∃ other ∈ selected, EntryLeaf scope.gix find directory other leaf) ↔
          EntryLeaf scope.gix (treeOf db) directory entry leaf ∧
            Pathspec.matchesPath scope.gix scope.patterns leaf.path) := by
      intro entry hmem selected hfrom hfound
      obtain ⟨remaining, hitem⟩ := mem_of_treeEntries hentries hmem
      refine leaf_selectEntry_iff hmemo hgix hfree hsound hfind
        (fun _ _ _ hselection hresolved hne ↦ ih hselection hresolved fun h ↦ absurd h hne)
        (hgix.kind _ _ _ _ hitem) (fun htree ↦ ?_) hfrom hfound
      by_cases hdir : directory = []
      · exact joinPath_ne_nil (hroot hdir payload entries hpayload hentries entry hmem htree)
      · simp [joinPath, hdir]
    have hleaf : HasLeaf scope.gix (treeOf db) oid directory leaf ↔
        ∃ entry ∈ entries, EntryLeaf scope.gix (treeOf db) directory entry leaf := by
      simp [HasLeaf, hpayload, isLeaf_iff, hentries]
    rw [hleaf]
    constructor
    · rintro ⟨selected, hmem, hselected⟩
      obtain ⟨entry, hentry', hfrom⟩ := (mem_selectEntries hselect).mp hmem
      obtain ⟨horiginal, hmatch⟩ := (hentry entry hentry' (some selected) hfrom (by
        rintro other ⟨⟩
        exact hresolved selected hmem)).mp ⟨selected, rfl, hselected⟩
      exact ⟨⟨entry, hentry', horiginal⟩, hmatch⟩
    · rintro ⟨⟨entry, hmem, horiginal⟩, hmatch⟩
      obtain ⟨selected, hfrom⟩ := selectEntry_of_mem hselect hmem
      obtain ⟨other, rfl, hother⟩ := (hentry entry hmem selected hfrom (by
        rintro other rfl
        exact hresolved other ((mem_selectEntries hselect).mpr ⟨entry, hmem, hfrom⟩))).mpr
          ⟨horiginal, hmatch⟩
      exact ⟨other, (mem_selectEntries hselect).mpr ⟨entry, hmem, hfrom⟩, hother⟩

end Leaves

end Gitility.Diff
