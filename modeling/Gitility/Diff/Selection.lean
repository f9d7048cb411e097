import Gitility.Diff.Projection

/-!
# Projections without memory

The entries that a projection keeps are a function of the stored trees, the directory and the pathspecs.
`project_tree` computes it: what it takes from its cache, it has computed before, and whatever it refers
to is in the map that it fills, under an ID with the right content.
-/

namespace Gitility.Diff

/-- The payload of a stored tree. -/
def treeOf (db : ObjectDb) (oid : Oid) : Option Bytes :=
  match db.tryFind oid with
  | .ok (some (.tree, payload)) => some payload
  | _ => none

/-- The entries of `decode_tree`. -/
def decodeTree (gix : Gix) (kind : HashKind) (payload : Bytes) : Except Error (List TreeEntry) :=
  (gix.treeRefIter kind payload).mapM fun (remaining, item) ↦ decodeTreeItem remaining item

/-- A tree as `project_tree` writes it. -/
def encodeTree (entries : List TreeEntry) : Bytes := entries.flatMap encodeEntry

/-- The entry that a projection keeps for an entry; the outer `none` stands for a failure. -/
def selectEntry (scope : Scope) (select : Oid → Bytes → Option (List TreeEntry)) (kind : HashKind)
    (directory : Bytes) (entry : TreeEntry) : Option (Option TreeEntry) :=
  let path := joinPath directory entry.name
  if isTree entry.mode then
    if Pathspec.mayMatchDescendant scope.patterns path then do
      let child ← select entry.oid path
      if child = [] then return none
      else do
        let childOid ← (scope.treeId kind (encodeTree child)).toOption
        return some { entry with oid := childOid }
    else return none
  else return if Pathspec.matchesPath scope.gix scope.patterns path then some entry else none

/-- The entries that a projection keeps of those of a tree. -/
def selectEntries (scope : Scope) (select : Oid → Bytes → Option (List TreeEntry)) (kind : HashKind)
    (directory : Bytes) : List TreeEntry → Option (List TreeEntry)
  | [] => some []
  | entry :: rest => do
    let kept ← selectEntry scope select kind directory entry
    let others ← selectEntries scope select kind directory rest
    return kept.toList ++ others

/-- The entries that a projection of a stored tree keeps. -/
def selection (scope : Scope) (db : ObjectDb) : ℕ → Oid → Bytes → Option (List TreeEntry)
  | 0, _, _ => none
  | fuel + 1, oid, directory => do
    let payload ← treeOf db oid
    let entries ← (decodeTree scope.gix oid.kind payload).toOption
    selectEntries scope (selection scope db fuel) oid.kind directory entries

variable {scope : Scope} {db : ObjectDb} {kind : HashKind} {directory : Bytes} {entry : TreeEntry}
  {entries kept : List TreeEntry} {oid : Oid}

/-! ### Fuel -/

/-- More depth selects the same. -/
theorem selectEntry_mono {select select' : Oid → Bytes → Option (List TreeEntry)}
    (h : ∀ oid directory kept, select oid directory = some kept → select' oid directory = some kept)
    {kept : Option TreeEntry} (hselect : selectEntry scope select kind directory entry = some kept) :
    selectEntry scope select' kind directory entry = some kept := by
  simp only [selectEntry] at hselect ⊢
  split at hselect
  · split at hselect
    · next htree hmay =>
      obtain ⟨child, hchild, hrest⟩ := Option.bind_eq_some_iff.mp hselect
      rw [if_pos htree, if_pos hmay, h _ _ _ hchild]
      exact hrest
    · next htree hmay =>
      rw [if_pos htree, if_neg hmay]
      exact hselect
  · next htree =>
    rw [if_neg htree]
    exact hselect

private theorem selectEntries_mono {select select' : Oid → Bytes → Option (List TreeEntry)}
    (h : ∀ oid directory kept, select oid directory = some kept → select' oid directory = some kept)
    (hselect : selectEntries scope select kind directory entries = some kept) :
    selectEntries scope select' kind directory entries = some kept := by
  induction entries generalizing kept with
  | nil => exact hselect
  | cons entry rest ih =>
    obtain ⟨first, hfirst, hselect⟩ := Option.bind_eq_some_iff.mp hselect
    obtain ⟨others, hothers, hselect⟩ := Option.bind_eq_some_iff.mp hselect
    rw [selectEntries, selectEntry_mono h hfirst, ih hothers]
    exact hselect

private theorem selection_succ {n : ℕ} (h : selection scope db n oid directory = some kept) :
    selection scope db (n + 1) oid directory = some kept := by
  induction n generalizing oid directory kept with
  | zero => cases h
  | succ n ih =>
    obtain ⟨payload, hpayload, h⟩ := Option.bind_eq_some_iff.mp h
    obtain ⟨entries, hentries, h⟩ := Option.bind_eq_some_iff.mp h
    rw [selection, hpayload, Option.bind_eq_bind, Option.bind_some, hentries, Option.bind_eq_bind,
      Option.bind_some]
    exact selectEntries_mono (fun _ _ _ ↦ ih) h

private theorem selection_mono {n m : ℕ} (hle : n ≤ m) (h : selection scope db n oid directory = some kept) :
    selection scope db m oid directory = some kept := by
  induction hle with
  | refl => exact h
  | step _ ih => exact selection_succ ih

/-! ### Writing -/

/-- No entry is written as nothing. -/
theorem encodeEntry_ne_nil (entry : TreeEntry) : encodeEntry entry ≠ [] := by
  simp [encodeEntry]

/-- Only the tree without entries is written as nothing. -/
theorem encodeTree_eq_nil_iff : encodeTree entries = [] ↔ entries = [] := by
  cases entries with
  | nil => exact iff_of_true rfl rfl
  | cons entry rest => simp [encodeTree, encodeEntry_ne_nil]

@[simp] private theorem encodeTree_append (entries entries' : List TreeEntry) :
    encodeTree (entries ++ entries') = encodeTree entries ++ encodeTree entries' :=
  List.flatMap_append

private theorem encodeTree_toList (kept : Option TreeEntry) :
    encodeTree kept.toList = (kept.map encodeEntry).getD [] := by
  cases kept <;> simp [encodeTree]

/-- The ID of a tree has the kind that it was hashed with. -/
theorem kind_of_treeId {payload : Bytes} (h : scope.treeId kind payload = .ok oid) : oid.kind = kind := by
  have hnew : ∀ kind digest, Oid.new kind digest = .ok oid → oid.kind = kind := by
    intro kind digest hnew
    rw [Oid.new] at hnew
    split at hnew
    · cases hnew
      rfl
    · cases hnew
  cases kind with
  | sha1 =>
    simp only [Scope.treeId, Provider.objectId, Provider.Hashers.finalize] at h
    split at h
    · exact hnew _ _ h
    · cases h
  | sha256 => exact hnew _ _ h

/-! ### The memory of a projection -/

/-- All subtrees among entries are in the map. -/
def Resolved (projected : List (Oid × Bytes)) (entries : List TreeEntry) : Prop :=
  ∀ entry ∈ entries, isTree entry.mode → (projected.lookup entry.oid).isSome

/-- A payload is what a projection writes of a tree, and its subtrees are in the map. -/
def Made (scope : Scope) (db : ObjectDb) (projected : List (Oid × Bytes)) (oid : Oid) (directory : Bytes)
    (output : Bytes) : Prop :=
  ∃ fuel kept, selection scope db fuel oid directory = some kept ∧ output = encodeTree kept ∧
    Resolved projected kept

/-- What the maps of a projection hold. -/
structure Memo (scope : Scope) (db : ObjectDb) (maps : Maps) : Prop where
  cached : ∀ oid directory output, maps.cache.lookup (oid, directory) = some output →
    Made scope db maps.projected oid directory output
  projected : ∀ oid output, maps.projected.lookup oid = some output → output ≠ [] ∧
    scope.treeId oid.kind output = .ok oid ∧
    ∃ source directory, source.kind = oid.kind ∧ Made scope db maps.projected source directory output

/-- The map keeps what it has. -/
def Extends (projected projected' : List (Oid × Bytes)) : Prop :=
  ∀ oid output, projected.lookup oid = some output → projected'.lookup oid = some output

private theorem Extends.refl (projected : List (Oid × Bytes)) : Extends projected projected := fun _ _ h ↦ h

private theorem Extends.trans {projected projected' projected'' : List (Oid × Bytes)}
    (h : Extends projected projected') (h' : Extends projected' projected'') :
    Extends projected projected'' := fun oid output hlookup ↦ h' oid output (h oid output hlookup)

private theorem Extends.isSome {projected projected' : List (Oid × Bytes)} (h : Extends projected projected')
    (hlookup : (projected.lookup oid).isSome) : (projected'.lookup oid).isSome := by
  obtain ⟨output, houtput⟩ := Option.isSome_iff_exists.mp hlookup
  rw [h oid output houtput]
  rfl

private theorem Resolved.extend {projected projected' : List (Oid × Bytes)} (h : Resolved projected entries)
    (hextends : Extends projected projected') : Resolved projected' entries :=
  fun entry hmem htree ↦ hextends.isSome (h entry hmem htree)

/-- A payload stays a projection when the map grows. -/
theorem Made.extend {projected projected' : List (Oid × Bytes)} {output : Bytes}
    (h : Made scope db projected oid directory output) (hextends : Extends projected projected') :
    Made scope db projected' oid directory output := by
  obtain ⟨fuel, kept, hselection, houtput, hresolved⟩ := h
  exact ⟨fuel, kept, hselection, houtput, hresolved.extend hextends⟩

/-- The empty maps hold nothing. -/
theorem memo_empty : Memo scope db {} where
  cached oid directory output h := by cases h
  projected oid output h := by cases h

private theorem extends_orInsert (projected : List (Oid × Bytes)) (oid : Oid) (payload : Bytes) :
    Extends projected (orInsert projected oid payload) := by
  intro other output hother
  rw [orInsert]
  split
  · exact hother
  · next hnone =>
    have hne : (other == oid) = false := by
      rw [beq_eq_false_iff_ne]
      rintro rfl
      exact hnone (by rw [hother]; rfl)
    rw [List.lookup_cons, hne]
    exact hother

private theorem isSome_orInsert (projected : List (Oid × Bytes)) (oid : Oid) (payload : Bytes) :
    ((orInsert projected oid payload).lookup oid).isSome := by
  rw [orInsert]
  split
  · assumption
  · simp

/-- A projected subtree enters the map. -/
theorem Memo.orInsert {maps : Maps} {source : Oid} {output : Bytes} (h : Memo scope db maps)
    (hmade : Made scope db maps.projected source directory output) (hne : output ≠ [])
    (hid : scope.treeId kind output = .ok oid) (hkind : source.kind = kind) :
    Memo scope db { maps with projected := orInsert maps.projected oid output } := by
  have hextends := extends_orInsert maps.projected oid output
  refine ⟨fun other dir out hlookup ↦ (h.cached other dir out hlookup).extend hextends, ?_⟩
  intro other out hlookup
  change (Diff.orInsert maps.projected oid output).lookup other = some out at hlookup
  have hold : maps.projected.lookup other = some out ∨ other = oid ∧ out = output := by
    rw [Diff.orInsert] at hlookup
    split at hlookup
    · exact .inl hlookup
    · rw [List.lookup_cons] at hlookup
      split at hlookup
      · next heq => exact .inr ⟨eq_of_beq heq, (Option.some.inj hlookup).symm⟩
      · exact .inl hlookup
  rcases hold with hold | ⟨rfl, rfl⟩
  · obtain ⟨hne, hid, source, dir, hkind, hmade⟩ := h.projected other out hold
    exact ⟨hne, hid, source, dir, hkind, hmade.extend hextends⟩
  · have hoid := kind_of_treeId hid
    rw [← hoid] at hid hkind
    exact ⟨hne, hid, source, directory, hkind, hmade.extend hextends⟩

/-! ### A run of a projection -/

/-- What is relied on of `TreeRefIter`: the IDs of a tree have the hash of the tree, and the modes and
names that it yields are read again from the entries that `project_tree` writes of them. -/
structure ReadsTrees (gix : Gix) : Prop where
  kind : ∀ kind payload remaining entry, (remaining, some entry) ∈ gix.treeRefIter kind payload →
    entry.oid.kind = kind
  encoded : ∀ kind (entries : List TreeEntry), (∀ entry ∈ entries, entry.oid.kind = kind ∧
      ∃ payload remaining oid, (remaining, some { entry with oid }) ∈ gix.treeRefIter kind payload) →
    (gix.treeRefIter kind (encodeTree entries)).map Prod.snd = entries.map some

/-- Whatever a projection returns is made as it should be, and so is what it leaves in the maps. -/
def Remembers (scope : Scope) (db : ObjectDb) (project : Oid → Bytes → Maps → Query (Bytes × Maps)) :
    Prop :=
  ∀ oid directory maps output maps', Memo scope db maps →
    db.eval (project oid directory maps) = .ok (output, maps') →
    Memo scope db maps' ∧ Extends maps.projected maps'.projected ∧
      Made scope db maps'.projected oid directory output

variable {project : Oid → Bytes → Maps → Query (Bytes × Maps)} {maps maps' : Maps}

/-- An item that is accepted is an entry. -/
theorem item_of_decodeTreeItem {remaining : Bytes} {item : Option TreeEntry}
    (h : decodeTreeItem remaining item = .ok entry) : item = some entry := by
  obtain ⟨_, -, h⟩ := Except.bind_eq_ok.mp h
  cases item with
  | none => cases h
  | some other => rw [Except.ok.inj h]

/-- An entry is projected as it is selected. -/
theorem projectEntry_spec (h : Remembers scope db project) (hmemo : Memo scope db maps)
    (hkind : entry.oid.kind = kind) {kept : Option TreeEntry}
    (hrun : db.eval (projectEntry scope project kind directory entry maps) = .ok (kept, maps')) :
    Memo scope db maps' ∧ Extends maps.projected maps'.projected ∧
      (∃ fuel, selectEntry scope (selection scope db fuel) kind directory entry = some kept) ∧
      Resolved maps'.projected kept.toList := by
  simp only [projectEntry] at hrun
  by_cases htree : isTree entry.mode
  · rw [if_pos htree] at hrun
    by_cases hmay : Pathspec.mayMatchDescendant scope.patterns (joinPath directory entry.name)
    · rw [if_neg (not_not_intro hmay), ObjectDb.eval_bind] at hrun
      obtain ⟨⟨child, maps₁⟩, hchild, hrun⟩ := Outcome.bind_eq_ok.mp hrun
      obtain ⟨hmemo₁, hextends, hmade⟩ := h _ _ _ _ _ hmemo hchild
      obtain ⟨fuel, entries, hselection, rfl, hresolved⟩ := id hmade
      by_cases hempty : entries = []
      · subst hempty
        cases hrun
        exact ⟨hmemo₁, hextends, ⟨fuel, by simp [selectEntry, htree, hmay, hselection]⟩,
          fun _ hmem ↦ by cases hmem⟩
      · have hne : encodeTree entries ≠ [] := fun h ↦ hempty (encodeTree_eq_nil_iff.mp h)
        simp only [if_neg hne, ObjectDb.eval_bind, ObjectDb.eval_ofExcept] at hrun
        obtain ⟨childOid, hid, hrun⟩ := Outcome.bind_eq_ok.mp hrun
        rw [Outcome.ofExcept_eq_ok] at hid
        cases hrun
        refine ⟨hmemo₁.orInsert hmade hne hid hkind, hextends.trans (extends_orInsert _ _ _),
          ⟨fuel, ?_⟩, ?_⟩
        · simp [selectEntry, htree, hmay, hselection, hempty, hid, Except.toOption]
        · intro other hmem _
          obtain rfl := List.mem_singleton.mp hmem
          exact isSome_orInsert _ _ _
    · rw [if_pos hmay] at hrun
      cases hrun
      exact ⟨hmemo, .refl _, ⟨0, by simp [selectEntry, htree, hmay]⟩, fun _ hmem ↦ by cases hmem⟩
  · rw [if_neg htree] at hrun
    by_cases hmatch : Pathspec.matchesPath scope.gix scope.patterns (joinPath directory entry.name)
    · rw [if_neg (not_not_intro hmatch)] at hrun
      cases hrun
      refine ⟨hmemo, .refl _, ⟨0, by simp [selectEntry, htree, hmatch]⟩, fun other hmem htree' ↦ ?_⟩
      obtain rfl := List.mem_singleton.mp hmem
      exact absurd htree' htree
    · rw [if_pos hmatch] at hrun
      cases hrun
      exact ⟨hmemo, .refl _, ⟨0, by simp [selectEntry, htree, hmatch]⟩, fun _ hmem ↦ by cases hmem⟩

/-- The loop writes what is selected of the entries that it decodes. -/
theorem projectEntries_spec (h : Remembers scope db project) {items : List (Bytes × Option TreeEntry)}
    (hkind : ∀ remaining entry, (remaining, some entry) ∈ items → entry.oid.kind = kind)
    (hmemo : Memo scope db maps) {output output' : Bytes}
    (hrun : db.eval (projectEntries scope project kind directory items output maps) =
      .ok (output', maps')) :
    Memo scope db maps' ∧ Extends maps.projected maps'.projected ∧
      ∃ entries fuel kept,
        (items.mapM fun item ↦ decodeTreeItem item.1 item.2) = .ok entries ∧
        selectEntries scope (selection scope db fuel) kind directory entries = some kept ∧
        output' = output ++ encodeTree kept ∧ Resolved maps'.projected kept := by
  induction items generalizing output maps with
  | nil =>
    cases hrun
    exact ⟨hmemo, .refl _, [], 0, [], rfl, rfl, (List.append_nil _).symm, fun _ hmem ↦ by cases hmem⟩
  | cons item items ih =>
    obtain ⟨remaining, item⟩ := item
    rw [projectEntries] at hrun
    simp only [ObjectDb.eval_bind, ObjectDb.eval_check, ObjectDb.eval_ofExcept, Outcome.ok_bind] at hrun
    obtain ⟨entry, hentry, hrest⟩ := Outcome.bind_eq_ok.mp hrun
    obtain ⟨⟨first, maps₁⟩, hfirst, hlast⟩ := Outcome.bind_eq_ok.mp hrest
    rw [Outcome.ofExcept_eq_ok] at hentry
    obtain rfl := item_of_decodeTreeItem hentry
    obtain ⟨hmemo₁, hextends₁, ⟨fuel₁, hselect₁⟩, hresolved₁⟩ :=
      projectEntry_spec h hmemo (hkind remaining entry List.mem_cons_self) hfirst
    obtain ⟨hmemo₂, hextends₂, entries, fuel₂, kept, hentries, hselect₂, houtput, hresolved₂⟩ :=
      ih (fun remaining entry hmem ↦ hkind remaining entry (List.mem_cons_of_mem _ hmem)) hmemo₁ hlast
    refine ⟨hmemo₂, hextends₁.trans hextends₂, entry :: entries, max fuel₁ fuel₂, first.toList ++ kept,
      ?_, ?_, ?_, ?_⟩
    · rw [List.mapM_cons, hentry, hentries]
      rfl
    · have hfirst := selectEntry_mono (fun _ _ _ ↦ selection_mono (Nat.le_max_left fuel₁ fuel₂)) hselect₁
      have hothers := selectEntries_mono (fun _ _ _ ↦ selection_mono (Nat.le_max_right fuel₁ fuel₂)) hselect₂
      rw [selectEntries, hfirst, hothers]
      rfl
    · rw [houtput, encodeTree_append, encodeTree_toList, List.append_assoc]
    · intro other hmem htree
      rcases List.mem_append.mp hmem with hmem | hmem
      · exact (hresolved₁.extend hextends₂) other hmem htree
      · exact hresolved₂ other hmem htree

/-- A required tree is read exactly when the store has it as a tree. -/
theorem eval_readRequiredTree {payload : Bytes} :
    db.eval (readRequiredTree oid) = .ok payload ↔ treeOf db oid = some payload := by
  simp only [readRequiredTree, ObjectDb.eval_bind, ObjectDb.eval_tryFind, ObjectDb.eval_ofExcept, treeOf]
  cases db.tryFind oid with
  | error e => simp
  | ok found =>
    cases found with
    | none => simp [requiredTree]
    | some object =>
      obtain ⟨kind, payload'⟩ := object
      cases kind <;> simp [requiredTree, ensure]

/-- `project_tree` makes what it returns. -/
theorem remembers_projectTree (hgix : ReadsTrees scope.gix) (fuel : ℕ) :
    Remembers scope db (projectTree scope fuel) := by
  induction fuel with
  | zero =>
    intro oid directory maps output maps' _ hrun
    cases hrun
  | succ fuel ih =>
    intro oid directory maps output maps' hmemo hrun
    rw [projectTree] at hrun
    split at hrun
    · next payload hlookup =>
      cases hrun
      exact ⟨hmemo, .refl _, hmemo.cached _ _ _ hlookup⟩
    · rw [ObjectDb.eval_bind] at hrun
      obtain ⟨payload, hpayload, hrun⟩ := Outcome.bind_eq_ok.mp hrun
      rw [ObjectDb.eval_bind] at hrun
      obtain ⟨⟨written, maps₁⟩, hloop, hrun⟩ := Outcome.bind_eq_ok.mp hrun
      rw [eval_readRequiredTree] at hpayload
      cases hrun
      obtain ⟨hmemo₁, hextends, entries, fuel', kept, hentries, hselect, houtput, hresolved⟩ :=
        projectEntries_spec ih (fun _ _ hmem ↦ hgix.kind _ _ _ _ hmem) hmemo hloop
      rw [List.nil_append] at houtput
      have hmade : Made scope db maps₁.projected oid directory output := by
        refine ⟨fuel' + 1, kept, ?_, houtput, hresolved⟩
        rw [selection, hpayload, Option.bind_eq_bind, Option.bind_some,
          show decodeTree scope.gix oid.kind payload = .ok entries from hentries]
        exact hselect
      refine ⟨⟨fun other dir out hlookup ↦ ?_, hmemo₁.projected⟩, hextends, hmade⟩
      change List.lookup (other, dir) (((oid, directory), output) :: maps₁.cache) = some out at hlookup
      rw [List.lookup_cons] at hlookup
      split at hlookup
      · next heq =>
        obtain ⟨rfl, rfl⟩ := Prod.mk.inj (eq_of_beq heq)
        obtain rfl := Option.some.inj hlookup
        exact hmade
      · exact hmemo₁.cached _ _ _ hlookup

end Gitility.Diff
