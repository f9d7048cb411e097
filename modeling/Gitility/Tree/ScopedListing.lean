import Gitility.Tree.DirectoryLists

/-!
# Listings and point lookups

`list_tree` of the root, `list_tree` of a tree below it, and `resolve_path`. A recursive listing descends at
most `u32::MAX` levels, counted from the tree it lists, so the three agree on a snapshot whose trees all lie
less deep than that.
-/

namespace Gitility.ListTree

/-- A recursive listing of everything below a path. -/
def wholeQuery (path : Bytes) (includeSize : Bool) : TreeQuery :=
  { path, recursive := true, includeSize }

/-- How many names a path has. -/
def level (path : Bytes) : ℕ := path.count 0x2f + 1

/-- The depth of the entries of a directory, counted from the root. -/
def entryDepth (dir : Bytes) : ℕ := if dir = [] then 1 else level dir + 1

/-- Every listed tree lies less than `u32::MAX` levels deep. -/
def Shallow (items : List TreeItem) : Prop := ∀ item ∈ items, item.kind = .tree → level item.path < u32Max

/-- An item that lies below a path. -/
def isUnder (path : Bytes) (item : TreeItem) : Bool := (path ++ [0x2f]).isPrefixOf item.path

section Whole

variable {db : ObjectDb} {gix : Gix} {base dir path : Bytes} {size : Bool} {entry : OwnedTreeEntry}
  {entries rest children : List OwnedTreeEntry} {depth : ℕ} {items emitted : List TreeItem} {treeOid oid : Oid}

private theorem selects_whole : selects gix (wholeQuery base size) path entry = true := by
  have hkind : TypeFilter.all.contains entry.kind = true := by cases entry.kind <;> decide
  simp [selects, wholeQuery, hkind, Pathspec.matchesPath]

private theorem shouldDescend_whole : shouldDescend (wholeQuery base size) path entry depth = true ↔
    entry.kind = .tree ∧ depth < u32Max := by
  simp [shouldDescend, wholeQuery, maxDepth, Pathspec.mayMatchDescendant]

/-- Every entry is emitted. -/
theorem Emits.eq_singleton (h : Emits db gix (wholeQuery base size) path entry emitted) :
    ∃ item, emitted = [item] ∧ item.listed = (path, entry) ∧
      db.eval (emitItem (wholeQuery base size) path entry) = .ok item := by
  have hone : emitted.map TreeItem.listed = [(path, entry)] := by simpa [selects_whole] using h.listed
  obtain ⟨item, rfl, hitem⟩ := List.map_eq_singleton_iff.mp hone
  exact ⟨item, rfl, hitem, h.emits item List.mem_cons_self⟩

/-- The path a listing scopes has no part in what it emits. -/
theorem Emits.rescope {base' : Bytes} (h : Emits db gix (wholeQuery base size) path entry emitted) :
    Emits db gix (wholeQuery base' size) path entry emitted where
  listed := by simpa [selects_whole] using h.listed
  emits := h.emits

private theorem level_joinPath {name : Bytes} (h : 0x2f ∉ name) : level (joinPath dir name) = entryDepth dir := by
  have hname : name.count 0x2f = 0 := List.count_eq_zero.mpr h
  unfold level entryDepth joinPath
  split
  · rw [hname]
  · rw [List.count_append, List.count_cons_self, hname, level]

private theorem entryDepth_joinPath {name : Bytes} (h : 0x2f ∉ name) (hne : name ≠ []) :
    entryDepth (joinPath dir name) = entryDepth dir + 1 := by
  rw [entryDepth, if_neg (joinPath_ne_nil hne), level_joinPath h]

/-- What a directory lists at one depth it lists at any lesser depth and in any scope, if the trees it lists
are not too deep. -/
theorem Lists.rescope {base' : Bytes} (hcanonical : db.CanonicalTrees gix)
    (h : Lists db gix (wholeQuery base size) entries dir depth items)
    (hvalid : ∀ entry ∈ entries, validateTreeName entry.name = .ok ()) (hdepth : depth = entryDepth dir)
    (hshallow : Shallow items) {depth' : ℕ} (hle : depth' ≤ depth) :
    Lists db gix (wholeQuery base' size) entries dir depth' items := by
  induction h generalizing depth' with
  | nil => exact .nil
  | @leaf entry rest dir depth emitted items hleaf hemits hrest ih =>
    have hrest' := ih (fun e he ↦ hvalid e (List.mem_cons_of_mem _ he)) hdepth
      (fun i hi ↦ hshallow i (List.mem_append_right _ hi)) hle
    obtain ⟨item, rfl, hitem, -⟩ := hemits.eq_singleton
    refine .leaf ?_ hemits.rescope hrest'
    rw [Bool.eq_false_iff, Ne, shouldDescend_whole]
    rintro ⟨htree, -⟩
    have hlevel := hshallow item (List.mem_append_left _ List.mem_cons_self)
      ((congrArg (·.2.kind) hitem).trans htree)
    have hpath : item.path = joinPath dir entry.name := congrArg Prod.fst hitem
    rw [hpath, level_joinPath (TreeWalk.not_mem_name (hvalid entry List.mem_cons_self)), ← hdepth] at hlevel
    rw [Bool.eq_false_iff, Ne, shouldDescend_whole] at hleaf
    exact hleaf ⟨htree, hlevel⟩
  | @tree entry rest children dir depth emitted below items htree hread hemits hbelow hrest ihbelow ih =>
    have hrest' := ih (fun e he ↦ hvalid e (List.mem_cons_of_mem _ he)) hdepth
      (fun i hi ↦ hshallow i (List.mem_append_right _ (List.mem_append_right _ hi))) hle
    have hregular : (db.treeWalk gix (shouldDescend (wholeQuery base size))).Regular :=
      db.regular_treeWalk hcanonical fun _ _ _ ↦ shouldDescend_tree
    have hname := hvalid entry List.mem_cons_self
    obtain ⟨hkind, hlt⟩ := shouldDescend_whole.mp htree
    have hdeeper : min (depth + 1) u32Max = entryDepth (joinPath dir entry.name) := by
      rw [entryDepth_joinPath (TreeWalk.not_mem_name hname) (TreeWalk.name_ne_nil hname), ← hdepth]
      omega
    have hle' : min (depth' + 1) u32Max ≤ min (depth + 1) u32Max := by omega
    have hbelow' := ihbelow (hregular.valid _ _ (ObjectDb.eval_readTreeEntriesForWalk hread)) hdeeper
      (fun i hi ↦ hshallow i (List.mem_append_right _ (List.mem_append_left _ hi))) hle'
    exact .tree (shouldDescend_whole.mpr ⟨hkind, by omega⟩) hread hemits.rescope hbelow' hrest'

/-! ### What a directory lists -/

/-- A directory lists what a walk over it visits. -/
theorem Lists.visits {query : TreeQuery} (h : Lists db gix query entries dir depth items) :
    ∃ visited, (db.treeWalk gix (shouldDescend query)).Visits False entries dir depth visited ∧
      items.map TreeItem.listed = visited.filter fun v ↦ selects gix query v.1 v.2 := by
  induction h with
  | nil => exact ⟨[], .nil, rfl⟩
  | leaf hleaf hemits hrest ih =>
    obtain ⟨visited, hvisits, hlisted⟩ := ih
    refine ⟨_, .leaf hleaf hvisits, ?_⟩
    rw [List.map_append, hemits.listed, hlisted, ← List.filter_append]
    rfl
  | tree htree hread hemits hbelow hrest ihbelow ih =>
    obtain ⟨below, hvisitsBelow, hlistedBelow⟩ := ihbelow
    obtain ⟨visited, hvisits, hlisted⟩ := ih
    refine ⟨_, .tree htree (ObjectDb.eval_readTreeEntriesForWalk hread) hvisitsBelow hvisits, ?_⟩
    rw [List.map_append, List.map_append, hemits.listed, hlistedBelow, hlisted, ← List.filter_append,
      ← List.filter_append]
    rfl

/-- Every listed item lies at or below an entry of the directory. -/
theorem Lists.within {query : TreeQuery} (hcanonical : db.CanonicalTrees gix)
    (h : Lists db gix query entries dir depth items)
    (hvalid : ∀ entry ∈ entries, validateTreeName entry.name = .ok ()) :
    ∀ item ∈ items, ∃ entry ∈ entries, TreeWalk.Within dir entry item.listed := by
  intro item hitem
  obtain ⟨visited, hvisits, hlisted⟩ := h.visits
  have hmem : item.listed ∈ visited := by
    have := List.mem_map_of_mem (f := TreeItem.listed) hitem
    rw [hlisted] at this
    exact (List.mem_filter.mp this).1
  exact hvisits.within (db.regular_treeWalk hcanonical fun _ _ _ ↦ shouldDescend_tree) hvalid _ hmem

/-- The front and the back of a directory list one after the other. -/
theorem Lists.append {query : TreeQuery} {front : List OwnedTreeEntry}
    (h : Lists db gix query (front ++ rest) dir depth items) :
    ∃ before after, items = before ++ after ∧ Lists db gix query front dir depth before ∧
      Lists db gix query rest dir depth after := by
  induction front generalizing items with
  | nil => exact ⟨[], items, rfl, .nil, h⟩
  | cons entry front ih =>
    cases h with
    | leaf hleaf hemits hrest =>
      obtain ⟨before, after, rfl, hfront, hafter⟩ := ih hrest
      exact ⟨_, after, (List.append_assoc _ _ _).symm, .leaf hleaf hemits hfront, hafter⟩
    | tree htree hread hemits hbelow hrest =>
      obtain ⟨before, after, rfl, hfront, hafter⟩ := ih hrest
      refine ⟨_, after, ?_, .tree htree hread hemits hbelow hfront, hafter⟩
      simp only [List.append_assoc]

private theorem isUnder_iff {item : TreeItem} : isUnder path item = true ↔ ∃ tail, item.path = path ++ 0x2f :: tail := by
  rw [isUnder, List.isPrefixOf_iff_prefix]
  constructor
  · rintro ⟨tail, htail⟩
    exact ⟨tail, by simpa using htail.symm⟩
  · rintro ⟨tail, htail⟩
    exact ⟨tail, by simpa using htail.symm⟩

/-- Nothing at or below one entry of a directory lies below another. -/
theorem not_isUnder_of_within {name : Bytes} {item : TreeItem} (hname : 0x2f ∉ name) (hentry : 0x2f ∉ entry.name)
    (hne : entry.name ≠ name) (h : TreeWalk.Within dir entry item.listed) :
    isUnder (joinPath dir name) item = false := by
  rw [Bool.eq_false_iff, Ne, isUnder_iff]
  rintro ⟨rest, hrest⟩
  obtain ⟨tail, hpath, htail⟩ := h.path
  have hpath : item.path = joinPath dir (entry.name ++ tail) := hpath
  rw [hrest, joinPath_append] at hpath
  exact hne (name_eq_of_append hentry hname htail (.inr ⟨rest, rfl⟩) (joinPath_inj hpath).symm)

/-- Where a directory lists one of its entries: behind the entry comes what lies below it, and nothing else in
the list does. -/
theorem Lists.at_entry (hcanonical : db.CanonicalTrees gix)
    (h : Lists db gix (wholeQuery base size) entries dir depth items) (hentries : Canonical entries)
    (hvalid : ∀ entry ∈ entries, validateTreeName entry.name = .ok ()) {segment : Bytes}
    (hfind : entries.find? (·.name = segment) = some entry) :
    ∃ before item under after, items = before ++ item :: (under ++ after) ∧
      item.listed = (joinPath dir segment, entry) ∧
      (∀ i ∈ before ++ after, isUnder (joinPath dir segment) i = false) ∧
      ((entry.kind = .tree ∧ depth < u32Max ∧ ∃ children,
        db.eval (readTreeEntriesForWalk gix db.toStoreInfo true entry.oid) = .ok children ∧
        Lists db gix (wholeQuery base size) children (joinPath dir segment) (min (depth + 1) u32Max) under) ∨
      (¬ (entry.kind = .tree ∧ depth < u32Max) ∧ under = [])) := by
  obtain ⟨hname, front, back, rfl, hfront⟩ := List.find?_eq_some_iff_append.mp hfind
  obtain rfl : entry.name = segment := by simpa using hname
  obtain ⟨before, items', rfl, hbefore, hitems⟩ := h.append
  have hunique : ∀ f ∈ front ++ back, f.name ≠ entry.name := by
    intro f hf
    rcases List.mem_append.mp hf with hf | hf
    · simpa using hfront f hf
    · have hback := (List.pairwise_append.mp hentries.unique).2.1
      exact ((List.pairwise_cons.mp hback).1 f hf).symm
  have hmem : entry ∈ front ++ entry :: back := List.mem_append_right _ List.mem_cons_self
  have hsub : ∀ f ∈ front ++ back, f ∈ front ++ entry :: back := by
    intro f hf
    rcases List.mem_append.mp hf with hf | hf
    · exact List.mem_append_left _ hf
    · exact List.mem_append_right _ (List.mem_cons_of_mem _ hf)
  have hentry := TreeWalk.not_mem_name (hvalid entry hmem)
  have hother : ∀ {es its}, Lists db gix (wholeQuery base size) es dir depth its →
      (∀ f ∈ es, f ∈ front ++ back) → ∀ i ∈ its, isUnder (joinPath dir entry.name) i = false := by
    intro es its hlists hes i hi
    have hvalid' : ∀ f ∈ es, validateTreeName f.name = .ok () := fun f hf ↦ hvalid f (hsub f (hes f hf))
    obtain ⟨f, hf, hwithin⟩ := hlists.within hcanonical hvalid' i hi
    exact not_isUnder_of_within hentry (TreeWalk.not_mem_name (hvalid' f hf)) (hunique f (hes f hf)) hwithin
  have hoff := hother hbefore fun f hf ↦ List.mem_append_left _ hf
  cases hitems with
  | leaf hleaf hemits hrest =>
    obtain ⟨item, rfl, hitem, -⟩ := hemits.eq_singleton
    refine ⟨before, item, [], _, rfl, hitem, fun i hi ↦ ?_, .inr ⟨?_, rfl⟩⟩
    · rcases List.mem_append.mp hi with hi | hi
      · exact hoff i hi
      · exact hother hrest (fun f hf ↦ List.mem_append_right _ hf) i hi
    · rw [← @shouldDescend_whole _ (joinPath dir entry.name)]
      exact Bool.eq_false_iff.mp hleaf
  | @tree _ _ children _ _ emitted under after htree hread hemits hunder hrest =>
    obtain ⟨item, rfl, hitem, -⟩ := hemits.eq_singleton
    obtain ⟨hkind, hlt⟩ := shouldDescend_whole.mp htree
    refine ⟨before, item, under, after, rfl, hitem, fun i hi ↦ ?_, .inl ⟨hkind, hlt, _, hread, hunder⟩⟩
    rcases List.mem_append.mp hi with hi | hi
    · exact hoff i hi
    · exact hother hrest (fun f hf ↦ List.mem_append_right _ hf) i hi

/-- What lies below a tree is listed below its path. -/
theorem Lists.all_isUnder (hcanonical : db.CanonicalTrees gix) {query : TreeQuery}
    (h : Lists db gix query entries dir depth items)
    (hvalid : ∀ entry ∈ entries, validateTreeName entry.name = .ok ()) (hdir : dir ≠ []) :
    ∀ item ∈ items, isUnder dir item = true := by
  intro item hitem
  obtain ⟨entry, -, hwithin⟩ := h.within hcanonical hvalid item hitem
  obtain ⟨tail, hpath, -⟩ := hwithin.path
  rw [isUnder_iff]
  exact ⟨entry.name ++ tail, hpath.trans (joinPath_of_ne hdir _)⟩

/-- Nothing lies below itself. -/
theorem not_isUnder_self (item : TreeItem) : isUnder item.path item = false := by
  rw [Bool.eq_false_iff, Ne, isUnder_iff]
  rintro ⟨tail, htail⟩
  have hlength := congrArg List.length htail
  rw [List.length_append, List.length_cons] at hlength
  omega

/-- Going down inside the list: what is found below a tree of the list is found in the list. -/
theorem not_isUnder_outside {outer : Bytes} {item i : TreeItem} (hpath : isUnder outer item = true)
    (h : isUnder outer i = false) : isUnder item.path i = false := by
  rw [Bool.eq_false_iff, Ne, isUnder_iff] at h ⊢
  obtain ⟨tail, htail⟩ := isUnder_iff.mp hpath
  rintro ⟨rest, hrest⟩
  exact h ⟨tail ++ 0x2f :: rest, by rw [hrest, htail]; simp⟩

/-! ### Point lookups -/

/-- Looking up the names of a path finds an entry that the list has, with what lies below it behind it. -/
theorem Lists.resolved (hcanonical : db.CanonicalTrees gix) {segments : List Bytes} {mode : ℕ}
    {kind : TreeItemKind} (h : Lists db gix (wholeQuery base size) entries dir (entryDepth dir) items)
    (hread : db.eval (readTreeEntries gix db.toStoreInfo treeOid) = .ok entries) (hshallow : Shallow items)
    (hresolve : db.eval (resolveSegments (readTreeEntries gix db.toStoreInfo) treeOid segments) =
      .ok (.entry mode oid kind)) :
    ∃ before item under after, items = before ++ item :: (under ++ after) ∧
      item.path = joinPath dir ([0x2f].intercalate segments) ∧
      item.mode = mode ∧ item.oid = oid ∧ item.kind = kind ∧
      (∀ i ∈ before ++ after, isUnder item.path i = false) ∧
      (kind = .tree → ∃ children,
        db.eval (readTreeEntriesForWalk gix db.toStoreInfo true oid) = .ok children ∧
        Lists db gix (wholeQuery base size) children item.path (entryDepth item.path) under) := by
  induction segments generalizing treeOid entries dir items with
  | nil => cases hresolve
  | cons segment segments ih =>
    have hregular : (db.treeWalk gix (shouldDescend (wholeQuery base size))).Regular :=
      db.regular_treeWalk hcanonical fun _ _ _ ↦ shouldDescend_tree
    have hentries := hregular.canonical _ _ hread
    have hvalid := hregular.valid _ _ hread
    simp only [resolveSegments, ObjectDb.eval_bind, hread, Outcome.ok_bind] at hresolve
    cases hfind : entries.find? (·.name = segment) with
    | none =>
      rw [hfind] at hresolve
      cases hresolve
    | some entry =>
      rw [hfind] at hresolve
      simp only at hresolve
      obtain ⟨before, item, under, after, rfl, hitem, hoff, hunder⟩ :=
        h.at_entry hcanonical hentries hvalid hfind
      have hmem : entry ∈ entries := List.mem_of_find?_eq_some hfind
      have hname : entry.name = segment := by simpa using List.find?_some hfind
      have hslash := TreeWalk.not_mem_name (hvalid entry hmem)
      have hne := TreeWalk.name_ne_nil (hvalid entry hmem)
      rw [hname] at hslash hne
      have hpath : item.path = joinPath dir segment := congrArg Prod.fst hitem
      have hin : item ∈ before ++ item :: (under ++ after) := List.mem_append_right _ List.mem_cons_self
      have hdeep : entry.kind = .tree → entryDepth dir < u32Max := fun htree ↦ by
        have hlevel := hshallow item hin ((congrArg (·.2.kind) hitem).trans htree)
        rwa [hpath, level_joinPath hslash] at hlevel
      have hdepth : entry.kind = .tree → min (entryDepth dir + 1) u32Max = entryDepth (joinPath dir segment) :=
        fun htree ↦ by
          have := hdeep htree
          rw [entryDepth_joinPath hslash hne]
          omega
      by_cases hlast : segments = []
      · subst hlast
        rw [if_pos rfl] at hresolve
        have hentry : entry.mode = mode ∧ entry.oid = oid ∧ entry.kind = kind := by
          simpa using hresolve
        obtain ⟨rfl, rfl, rfl⟩ := hentry
        refine ⟨before, item, under, after, rfl, ?_, congrArg (·.2.mode) hitem, congrArg (·.2.oid) hitem,
          congrArg (·.2.kind) hitem, ?_, fun htree ↦ ?_⟩
        · rw [hpath]
          simp
        · rw [hpath]
          exact hoff
        · rcases hunder with ⟨-, -, children, hchildren, hlists⟩ | ⟨hnot, -⟩
          · rw [hdepth htree] at hlists
            rw [hpath]
            exact ⟨children, hchildren, hlists⟩
          · exact absurd ⟨htree, hdeep htree⟩ hnot
      · rw [if_neg hlast] at hresolve
        split at hresolve
        · cases hresolve
        · next htree =>
          have htree : entry.kind = .tree := not_not.mp htree
          rcases hunder with ⟨-, -, children, hchildren, hlists⟩ | ⟨hnot, -⟩
          · rw [hdepth htree] at hlists
            obtain ⟨before', found, under', after', rfl, hfound, hmode, hoid, hkind, hoff', hbelow⟩ :=
              ih hlists (ObjectDb.eval_readTreeEntriesForWalk hchildren)
                (fun i hi ↦ hshallow i (by simp [hi])) hresolve
            have hsub := Lists.all_isUnder hcanonical hlists
              (hregular.valid _ _ (ObjectDb.eval_readTreeEntriesForWalk hchildren)) (joinPath_ne_nil hne)
            have hinside : isUnder (joinPath dir segment) found = true := hsub found (by simp)
            refine ⟨before ++ item :: before', found, under', after' ++ after, by simp, ?_, hmode, hoid, hkind,
              fun i hi ↦ ?_, hbelow⟩
            · have hjoin := @TreeWalk.joinPath_below dir _ (hname.symm ▸ hne)
                ([0x2f].intercalate segments)
              rw [hname] at hjoin
              rw [hfound, List.intercalate_cons_of_ne_nil hlast, hjoin, List.append_assoc,
                List.singleton_append]
            · have hself : isUnder found.path item = false := by
                refine not_isUnder_outside hinside ?_
                rw [← hpath]
                exact not_isUnder_self item
              simp only [List.mem_append, List.mem_cons] at hi
              rcases hi with (hi | rfl | hi) | hi | hi
              · exact not_isUnder_outside hinside (hoff i (List.mem_append_left _ hi))
              · exact hself
              · exact hoff' i (List.mem_append_left _ hi)
              · exact hoff' i (List.mem_append_right _ hi)
              · exact not_isUnder_outside hinside (hoff i (List.mem_append_right _ hi))
          · exact absurd ⟨htree, hdeep htree⟩ hnot

/-- What a walk reaches is found under the names of its path. -/
theorem resolve_of_reaches (hcanonical : db.CanonicalTrees gix) {query : TreeQuery}
    (h : (db.treeWalk gix (shouldDescend query)).Reaches entries dir depth path entry)
    (hread : db.eval (readTreeEntries gix db.toStoreInfo treeOid) = .ok entries) :
    ∃ segments, segments ≠ [] ∧ (∀ segment ∈ segments, 0x2f ∉ segment) ∧
      path = joinPath dir ([0x2f].intercalate segments) ∧
      db.eval (resolveSegments (readTreeEntries gix db.toStoreInfo) treeOid segments) =
        .ok (.entry entry.mode entry.oid entry.kind) := by
  have hregular : (db.treeWalk gix (shouldDescend query)).Regular :=
    db.regular_treeWalk hcanonical fun _ _ _ ↦ shouldDescend_tree
  have hfind : ∀ {es : List OwnedTreeEntry} {e : OwnedTreeEntry}, Canonical es → e ∈ es →
      es.find? (·.name = e.name) = some e := by
    intro es e hes he
    obtain ⟨front, back, rfl⟩ := List.append_of_mem he
    refine List.find?_eq_some_iff_append.mpr ⟨by simp, front, back, rfl, fun f hf ↦ ?_⟩
    have := (List.pairwise_append.mp hes.unique).2.2 f hf e List.mem_cons_self
    simpa using this
  induction h generalizing treeOid with
  | @entry entries dir depth entry hmem =>
    refine ⟨[entry.name], by simp, ?_, by simp, ?_⟩
    · simpa using TreeWalk.not_mem_name (hregular.valid _ _ hread entry hmem)
    · simp only [resolveSegments, ObjectDb.eval_bind, hread, Outcome.ok_bind,
        hfind (hregular.canonical _ _ hread) hmem, if_true, ObjectDb.eval_pure]
  | @inside entries children dir path depth tree entry hmem hdescends hchildren hinside ih =>
    obtain ⟨segments, hne, hslash, rfl, hresolve⟩ := ih hchildren
    have hname := hregular.valid _ _ hread tree hmem
    refine ⟨tree.name :: segments, by simp, ?_, ?_, ?_⟩
    · intro segment hsegment
      rcases List.mem_cons.mp hsegment with rfl | hsegment
      · exact TreeWalk.not_mem_name hname
      · exact hslash segment hsegment
    · rw [TreeWalk.joinPath_below (TreeWalk.name_ne_nil hname), List.intercalate_cons_of_ne_nil hne,
        List.append_assoc, List.singleton_append]
    · have htree := hregular.descends_tree _ _ _ hdescends
      simp only [resolveSegments, ObjectDb.eval_bind, hread, Outcome.ok_bind,
        hfind (hregular.canonical _ _ hread) hmem, hne, htree, if_false, ne_eq, not_true_eq_false]
      exact hresolve

end Whole

/-! ### The pages -/

section Pages

variable {db : ObjectDb} {gix : Gix} {snapshot : Snapshot} {query : TreeQuery} {limit fuel : ℕ}
  {page : TreePage} {resolved : ResolvedPath} {treeOid : Oid} {entries : List OwnedTreeEntry}
  {items : List TreeItem}

/-- A listing that comes on one page. -/
theorem lists_of_listTree (hdepth : maxDepth query ≠ 0)
    (h : db.eval (listTree gix fuel db.toStoreInfo snapshot ⟨query, limit, none⟩) = .ok page)
    (hend : page.nextCursor = none) :
    ensureQueryCompatible db.toStoreInfo snapshot = .ok () ∧ validatePath query.path = .ok () ∧
      ∃ resolved treeOid entries,
        db.eval (resolvePath gix db.toStoreInfo snapshot query.path) = .ok resolved ∧
        resolved.treeOid = .ok treeOid ∧
        db.eval (readTreeEntriesForWalk gix db.toStoreInfo query.recursive treeOid) = .ok entries ∧
        Lists db gix query entries query.path 1 page.entries := by
  simp only [listTree, ObjectDb.eval_bind, ObjectDb.eval_ofExcept, Outcome.bind_eq_ok,
    Outcome.ofExcept_eq_ok] at h
  obtain ⟨⟨⟩, hcompatible, ⟨⟩, hpath, ⟨⟩, -, resume, hresume, resolved, hresolved, treeOid,
    htree, ⟨all, outcome⟩, hwalk, hclose⟩ := h
  obtain rfl := Except.ok.inj hresume
  obtain ⟨rfl, hall⟩ := closePage_last hclose hend
  refine ⟨hcompatible, hpath, resolved, treeOid, ?_⟩
  unfold walkFrom at hwalk
  dsimp only at hwalk
  rw [if_neg hdepth, ObjectDb.eval_bind, ObjectDb.eval_attempt] at hwalk
  cases hread : db.eval (readTreeEntriesForWalk gix db.toStoreInfo query.recursive treeOid) with
  | error e =>
    rw [hread] at hwalk
    cases (Prod.mk.inj (Outcome.ok.inj hwalk)).2
  | diverged =>
    rw [hread] at hwalk
    cases hwalk
  | ok entries =>
    rw [hread] at hwalk
    obtain ⟨listed, hlisted, hstack⟩ := lists_of_walkTree hwalk
    cases hstack with
    | cons hframe hstack =>
      cases hstack
      rw [List.nil_append, List.append_nil] at hlisted
      rw [hall, hlisted]
      exact ⟨entries, hresolved, htree, rfl, hframe⟩

/-- What the listed tree lists comes on one page, if the page has room for it. -/
theorem listTree_of_lists (hcompatible : ensureQueryCompatible db.toStoreInfo snapshot = .ok ())
    (hpath : validatePath query.path = .ok ()) (hlimit : limit ≠ 0) (hdepth : maxDepth query ≠ 0)
    (hresolved : db.eval (resolvePath gix db.toStoreInfo snapshot query.path) = .ok resolved)
    (htree : resolved.treeOid = .ok treeOid)
    (hread : db.eval (readTreeEntriesForWalk gix db.toStoreInfo query.recursive treeOid) = .ok entries)
    (h : Lists db gix query entries query.path 1 items) (hroom : items.length ≤ limit) :
    ∃ enough, ∀ fuel, enough ≤ fuel →
      db.eval (listTree gix fuel db.toStoreInfo snapshot ⟨query, limit, none⟩) =
        .ok ⟨items, none, false, ⟨items.length, none⟩⟩ := by
  obtain ⟨n, hn⟩ := eval_walkTree_of_lists h
  refine ⟨n + 1, fun fuel hfuel ↦ ?_⟩
  obtain ⟨rest, rfl⟩ := Nat.exists_eq_add_of_le' hfuel
  have hwalk := hn ⟨query, limit, none⟩ (rest + 1) [] [] rfl (by simpa using hroom)
  rw [Nat.add_right_comm, Nat.add_assoc, List.nil_append] at hwalk
  have hfrom : db.eval (walkFrom gix db.toStoreInfo ⟨query, limit, none⟩ [] (rest + (n + 1)) treeOid) =
      .ok (items, .ok .complete) := by
    unfold walkFrom
    dsimp only
    rw [if_neg hdepth, ObjectDb.eval_bind, ObjectDb.eval_attempt_of_ok hread]
    exact hwalk
  have hresume : decodeResume snapshot ⟨query, limit, none⟩ = .ok [] := rfl
  simp only [listTree, ObjectDb.eval_bind, ObjectDb.eval_ofExcept, hcompatible, hpath, hlimit, hresume,
    hresolved, htree, hfrom, Outcome.ofExcept_ok, Outcome.ok_bind, ensure, ne_eq, not_false_eq_true,
    if_true, closePage_complete]

/-- The root listing, point lookups and scoped listings agree on a snapshot whose trees are not too deep: a
lookup finds what the root listing has at the path, and a tree lists the part of the root listing below it. -/
theorem listings_agree (hcanonical : db.CanonicalTrees gix) {size : Bool}
    (hroot : db.eval (listTree gix fuel db.toStoreInfo snapshot ⟨wholeQuery [] size, limit, none⟩) = .ok page)
    (hend : page.nextCursor = none) (hshallow : Shallow page.entries) (path : Bytes) (hpath : path ≠ []) :
    (∀ mode oid kind,
      db.eval (resolvePath gix db.toStoreInfo snapshot path) = .ok (.entry mode oid kind) ↔
        ∃ item ∈ page.entries, item.path = path ∧ item.mode = mode ∧ item.oid = oid ∧ item.kind = kind) ∧
    ∀ mode oid, db.eval (resolvePath gix db.toStoreInfo snapshot path) = .ok (.entry mode oid .tree) →
      ∀ limit, page.entries.length ≤ limit → ∃ enough, ∀ fuel, enough ≤ fuel →
        ∃ inner,
          db.eval (listTree gix fuel db.toStoreInfo snapshot ⟨wholeQuery path size, limit, none⟩) =
            .ok inner ∧
          inner.nextCursor = none ∧ inner.entries = page.entries.filter (isUnder path) := by
  have hdepth : ∀ base, maxDepth (wholeQuery base size) ≠ 0 := fun base ↦ by
    simp [maxDepth, wholeQuery, u32Max]
  obtain ⟨hcompatible, -, resolved, treeOid, entries, hresolved, htree, hread, hlists⟩ :=
    lists_of_listTree (hdepth []) hroot hend
  obtain rfl : snapshot.treeOid = treeOid := by
    have hrootTree : resolved = .rootTree snapshot.treeOid := (Outcome.ok.inj hresolved).symm
    rw [hrootTree] at htree
    exact Except.ok.inj htree
  have hentries := ObjectDb.eval_readTreeEntriesForWalk hread
  have hregular : (db.treeWalk gix (shouldDescend (wholeQuery [] size))).Regular :=
    db.regular_treeWalk hcanonical fun _ _ _ ↦ shouldDescend_tree
  have hresolve : ∀ {mode oid kind},
      db.eval (resolvePath gix db.toStoreInfo snapshot path) = .ok (.entry mode oid kind) ↔
      validatePath path = .ok () ∧
        db.eval (resolveSegments (readTreeEntries gix db.toStoreInfo) snapshot.treeOid (path.splitOn 0x2f)) =
          .ok (.entry mode oid kind) := by
    intro mode oid kind
    simp only [resolvePath, resolvePathWith, if_neg hpath, ObjectDb.eval_bind, ObjectDb.eval_ofExcept]
    cases hvalid : validatePath path with
    | ok u =>
      cases u
      simp
    | error e => simp
  -- What a lookup finds, and where the root listing has it.
  have hfound : ∀ {mode oid kind},
      db.eval (resolvePath gix db.toStoreInfo snapshot path) = .ok (.entry mode oid kind) →
      validatePath path = .ok () ∧ ∃ before item under after,
        page.entries = before ++ item :: (under ++ after) ∧ item.path = path ∧
        item.mode = mode ∧ item.oid = oid ∧ item.kind = kind ∧
        (∀ i ∈ before ++ after, isUnder path i = false) ∧
        (kind = .tree → ∃ children,
          db.eval (readTreeEntriesForWalk gix db.toStoreInfo true oid) = .ok children ∧
          Lists db gix (wholeQuery [] size) children path (entryDepth path) under) := by
    intro mode oid kind h
    obtain ⟨hvalid, hsegments⟩ := hresolve.mp h
    obtain ⟨before, item, under, after, hsplit, hitem, hmode, hoid, hkind, hoff, hunder⟩ :=
      Lists.resolved hcanonical hlists hentries hshallow hsegments
    rw [List.intercalate_splitOn] at hitem
    obtain rfl : item.path = path := hitem
    exact ⟨hvalid, before, item, under, after, hsplit, rfl, hmode, hoid, hkind, hoff, hunder⟩
  refine ⟨fun mode oid kind ↦ ⟨fun h ↦ ?_, ?_⟩, fun mode oid h limit hroom ↦ ?_⟩
  · obtain ⟨-, before, item, under, after, hsplit, hitem, hmode, hoid, hkind, -⟩ := hfound h
    exact ⟨item, hsplit ▸ List.mem_append_right _ List.mem_cons_self, hitem, hmode, hoid, hkind⟩
  · rintro ⟨item, hitem, rfl, rfl, rfl, rfl⟩
    obtain ⟨visited, hvisits, hlisted⟩ := hlists.visits
    have hmem : item.listed ∈ visited := by
      have := List.mem_map_of_mem (f := TreeItem.listed) hitem
      rw [hlisted] at this
      exact (List.mem_filter.mp this).1
    have hreaches := hvisits.reaches hmem
    obtain ⟨segments, hne, hslash, hjoin, hsegments⟩ := resolve_of_reaches hcanonical hreaches hentries
    have hvalid := (hreaches.valid hregular (hregular.valid _ _ hentries) rfl).1
    have hjoin : item.path = [0x2f].intercalate segments := hjoin
    refine hresolve.mpr ⟨hvalid, ?_⟩
    rw [hjoin, List.splitOn_intercalate 0x2f hslash hne]
    exact hsegments
  · obtain ⟨hvalid, before, item, under, after, hsplit, hitem, -, -, -, hoff, hunder⟩ := hfound h
    obtain ⟨children, hchildren, hbelow⟩ := hunder rfl
    have hvalidChildren := hregular.valid _ _ (ObjectDb.eval_readTreeEntriesForWalk hchildren)
    have hunderShallow : Shallow under := fun i hi ↦ hshallow i (by rw [hsplit]; simp [hi])
    have hdeep : 1 ≤ entryDepth path := by
      unfold entryDepth
      split <;> omega
    have hscoped : Lists db gix (wholeQuery path size) children path 1 under :=
      hbelow.rescope hcanonical hvalidChildren rfl hunderShallow hdeep
    have hfits : under.length ≤ limit := by
      refine le_trans ?_ hroom
      rw [hsplit]
      simp only [List.length_append, List.length_cons]
      omega
    have hlimit : limit ≠ 0 := by
      rintro rfl
      rw [hsplit] at hroom
      simp at hroom
    obtain ⟨enough, henough⟩ := @listTree_of_lists _ _ _ (wholeQuery path size) _ _ _ _ _ hcompatible
      hvalid hlimit (hdepth path) h rfl hchildren hscoped hfits
    refine ⟨enough, fun fuel hfuel ↦ ⟨_, henough fuel hfuel, rfl, ?_⟩⟩
    have hself : isUnder path item = false := hitem ▸ not_isUnder_self item
    have hall := Lists.all_isUnder hcanonical hbelow hvalidChildren hpath
    have hbefore : before.filter (isUnder path) = [] :=
      List.filter_eq_nil_iff.mpr fun i hi ↦ by simp [hoff i (List.mem_append_left _ hi)]
    have hafter : after.filter (isUnder path) = [] :=
      List.filter_eq_nil_iff.mpr fun i hi ↦ by simp [hoff i (List.mem_append_right _ hi)]
    rw [hsplit, List.filter_append, List.filter_cons_of_neg (by simp [hself]), List.filter_append, hbefore,
      hafter, List.filter_eq_self.mpr hall, List.nil_append, List.append_nil]

end Pages

/-- In the sample, the root has a tree `foo` beside a file `foo.txt`. -/
theorem listings_agree_foo : ∃ page,
    sampleStore.eval (listTree sampleGix 10 sampleStore.toStoreInfo sampleSnapshot
      ⟨wholeQuery [] false, 10, none⟩) = .ok page ∧
    (∀ mode oid kind,
      sampleStore.eval (resolvePath sampleGix sampleStore.toStoreInfo sampleSnapshot (Bytes.ascii "foo")) =
          .ok (.entry mode oid kind) ↔
        ∃ item ∈ page.entries, item.path = Bytes.ascii "foo" ∧ item.mode = mode ∧ item.oid = oid ∧
          item.kind = kind) ∧
    ∀ mode oid,
      sampleStore.eval (resolvePath sampleGix sampleStore.toStoreInfo sampleSnapshot (Bytes.ascii "foo")) =
        .ok (.entry mode oid .tree) →
      ∀ limit, page.entries.length ≤ limit → ∃ enough, ∀ fuel, enough ≤ fuel → ∃ inner,
        sampleStore.eval (listTree sampleGix fuel sampleStore.toStoreInfo sampleSnapshot
          ⟨wholeQuery (Bytes.ascii "foo") false, limit, none⟩) = .ok inner ∧
        inner.nextCursor = none ∧ inner.entries = page.entries.filter (isUnder (Bytes.ascii "foo")) := by
  have hroot : (sampleStore.eval (listTree sampleGix 10 sampleStore.toStoreInfo sampleSnapshot
      ⟨wholeQuery [] false, 10, none⟩) >>= fun page ↦
        .ok (page.nextCursor, page.entries.all fun item ↦ level item.path < u32Max)) =
      .ok (none, true) := by
    decide +kernel
  obtain ⟨page, hroot, hpage⟩ := Outcome.bind_eq_ok.mp hroot
  obtain ⟨hend, hlevels⟩ := Prod.mk.inj (Outcome.ok.inj hpage)
  have hshallow : Shallow page.entries := fun item hitem _ ↦ by
    simpa using List.all_eq_true.mp hlevels item hitem
  exact ⟨page, hroot, listings_agree sampleStore_canonical hroot hend hshallow _ (by decide)⟩

/-! ### A snapshot that is too deep -/

/-- The path of the tree `n` levels below the root: `a/a/…/a`. -/
def deepDir (n : ℕ) : Bytes := [0x2f].intercalate (List.replicate n [0x61])

/-- The tree `n` levels below the root. -/
def deepId (n : ℕ) : Oid := ⟨.sha1, Bytes.toLe 20 n, Bytes.length_toLe 20 n⟩

/-- The only entry of the tree above it. -/
def deepEntry (n : ℕ) : OwnedTreeEntry := ⟨⟨0o40000, [0x61], deepId n⟩, .tree⟩

/-- The payload of a tree with that entry. -/
def deepTree (n : ℕ) : Bytes := Bytes.ascii "40000 a" ++ 0 :: Bytes.toLe 20 n

/-- A store of `2 ^ 32 + 1` trees, each the only entry of the one before and the last of them empty. -/
def deepStore : ObjectDb := .ofFind .sha1 none fun oid ↦ .ok <|
  if Bytes.ofLe oid.bytes < 2 ^ 32 then some (.tree, deepTree (Bytes.ofLe oid.bytes + 1))
  else if Bytes.ofLe oid.bytes = 2 ^ 32 then some (.tree, [])
  else none

/-- The snapshot of the first tree. -/
def deepSnapshot : Snapshot := ⟨sampleId 1, deepId 0⟩

private theorem ascii_deep : Bytes.ascii "40000 a" = [0x34, 0x30, 0x30, 0x30, 0x30, 0x20, 0x61] := by decide

private theorem sampleTreeEntry_deep {digest : Bytes} (h : digest.length = 20) :
    sampleTreeEntry (Bytes.ascii "40000 a" ++ 0 :: digest) =
      some (⟨0o40000, [0x61], ⟨.sha1, digest, h⟩⟩, []) := by
  have hmode : ([0x34, 0x30, 0x30, 0x30, 0x30, 0x20, 0x61] ++ 0 :: digest : Bytes).span (· ≠ 0x20) =
      ([0x34, 0x30, 0x30, 0x30, 0x30], 0x20 :: 0x61 :: 0 :: digest) := rfl
  have hname : (0x61 :: 0 :: digest : Bytes).span (· ≠ 0) = ([0x61], 0 :: digest) := rfl
  have htake : digest.take 20 = digest := List.take_of_length_le h.le
  have hdrop : digest.drop 20 = [] := List.drop_of_length_le h.le
  have hvalue : ([0x34, 0x30, 0x30, 0x30, 0x30] : Bytes).foldl
      (fun value digit ↦ 8 * value + (digit - 0x30).toNat) 0 = 0o40000 := by decide
  rw [ascii_deep, sampleTreeEntry]
  simp only [hmode, hname, List.drop_succ_cons, List.drop_zero, htake, hdrop, h, dif_pos, hvalue]

private theorem ownTreeEntry_deep (n : ℕ) :
    ownTreeEntry (deepTree n) (some (deepEntry n).toTreeEntry) = .ok (deepEntry n) := by
  have hmode : validMode (deepTree n) = true := by
    rw [deepTree, ascii_deep]
    simp [validMode, List.findIdx?_cons]
  have hdecode : decodeTreeItem (deepTree n) (some (deepEntry n).toTreeEntry) =
      .ok (deepEntry n).toTreeEntry :=
    Except.bind_eq_ok.mpr ⟨(), ensure_eq_ok.mpr (.inr hmode), rfl⟩
  have hname : validateTreeName [0x61] = .ok () := by decide
  have hkind : kindFromMode 0o40000 = .ok .tree := by decide
  exact Except.bind_eq_ok.mpr ⟨_, hdecode, Except.bind_eq_ok.mpr ⟨(), hname,
    Except.bind_eq_ok.mpr ⟨.tree, hkind, rfl⟩⟩⟩

private theorem decode_deepTree (n : ℕ) :
    decodeOwnedTreeEntries sampleGix (deepTree n) .sha1 = .ok [deepEntry n] := by
  have hone := sampleTreeEntry_deep (Bytes.length_toLe 20 n)
  have hlen : (deepTree n).length = 28 := by
    simp [deepTree, Bytes.ascii]
  have hitems : sampleGix.treeRefIter .sha1 (deepTree n) =
      [(deepTree n, some (deepEntry n).toTreeEntry)] := by
    have hne : deepTree n ≠ [] := by simp [deepTree]
    simp only [sampleGix, hlen, sampleTreeEntries]
    rw [if_neg hne, show sampleTreeEntry (deepTree n) = _ from hone]
    simp only [if_true]
    rfl
  rw [decodeOwnedTreeEntries, hitems]
  simp only [List.mapM_cons, List.mapM_nil, ownTreeEntry_deep]
  rfl

private theorem ofLe_deepId {n : ℕ} (h : n ≤ 2 ^ 32) : Bytes.ofLe (deepId n).bytes = n := by
  refine Bytes.ofLe_toLe_of_lt (lt_of_le_of_lt h ?_)
  decide

private theorem deepStore_canonical : deepStore.CanonicalTrees sampleGix := by
  intro oid payload entries hfind h
  have hfind := Except.ok.inj hfind
  split at hfind
  · obtain rfl := (Prod.mk.inj (Option.some.inj hfind)).2
    obtain rfl := Except.ok.inj ((decode_deepTree _).symm.trans h)
    exact ⟨List.pairwise_singleton _ _, List.pairwise_singleton _ _⟩
  · split at hfind
    · obtain rfl := (Prod.mk.inj (Option.some.inj hfind)).2
      have hempty : decodeOwnedTreeEntries sampleGix [] .sha1 = .ok [] := rfl
      obtain rfl := Except.ok.inj (hempty.symm.trans h)
      exact ⟨.nil, .nil⟩
    · cases hfind

private theorem read_deepId {n : ℕ} (h : n < 2 ^ 32) :
    deepStore.eval (readTreeEntries sampleGix deepStore.toStoreInfo (deepId n)) = .ok [deepEntry (n + 1)] := by
  refine ObjectDb.eval_readTreeEntries_eq_ok.mpr ⟨deepTree (n + 1), ?_, decode_deepTree (n + 1)⟩
  simp only [deepStore, ObjectDb.ofFind, ofLe_deepId h.le, if_pos h]

private theorem readForWalk_deepId {n : ℕ} (h : n < 2 ^ 32) :
    deepStore.eval (readTreeEntriesForWalk sampleGix deepStore.toStoreInfo true (deepId n)) =
      .ok [deepEntry (n + 1)] := by
  simp only [readTreeEntriesForWalk, ObjectDb.eval_bind, read_deepId h, Outcome.ok_bind]
  rfl

private theorem deepDir_succ (n : ℕ) : deepDir (n + 2) = 0x61 :: 0x2f :: deepDir (n + 1) := by
  rw [deepDir, List.replicate_succ, List.replicate_succ, List.intercalate_cons_cons]
  rfl

private theorem joinPath_deepDir (n : ℕ) : joinPath (deepDir n) [0x61] = deepDir (n + 1) := by
  cases n with
  | zero => rfl
  | succ n =>
    induction n with
    | zero => rfl
    | succ n ih =>
      have hne : deepDir (n + 1) ≠ [] := by
        cases n with
        | zero => decide
        | succ n => simp [deepDir_succ]
      rw [joinPath_of_ne hne] at ih
      rw [deepDir_succ, joinPath_of_ne (by simp), deepDir_succ, ← ih]
      rfl

private theorem level_deepDir (n : ℕ) : level (deepDir (n + 1)) = n + 1 := by
  induction n with
  | zero => decide
  | succ n ih =>
    have hcount : level (deepDir (n + 2)) = level (deepDir (n + 1)) + 1 := by
      simp [level, deepDir_succ]
    rw [hcount, ih]

private theorem validatePath_deepDir (n : ℕ) : validatePath (deepDir n) = .ok () := by
  induction n with
  | zero => rfl
  | succ n ih =>
    rw [← joinPath_deepDir]
    exact validatePath_joinPath ih (by decide)

private theorem resolve_deep_step {n : ℕ} (h : n < 2 ^ 32) (segments : List Bytes) :
    deepStore.eval (resolveSegments (readTreeEntries sampleGix deepStore.toStoreInfo) (deepId n)
      ([0x61] :: segments)) =
      if segments = [] then .ok (.entry 0o40000 (deepId (n + 1)) .tree)
      else deepStore.eval (resolveSegments (readTreeEntries sampleGix deepStore.toStoreInfo) (deepId (n + 1))
        segments) := by
  have hfind : [deepEntry (n + 1)].find? (·.name = [0x61]) = some (deepEntry (n + 1)) := by
    simp [deepEntry]
  simp only [resolveSegments, ObjectDb.eval_bind, read_deepId h, Outcome.ok_bind, hfind]
  split
  · rfl
  · rfl

private theorem resolve_deep (k : ℕ) : ∀ {n : ℕ}, n + k < 2 ^ 32 →
    deepStore.eval (resolveSegments (readTreeEntries sampleGix deepStore.toStoreInfo) (deepId n)
      (List.replicate (k + 1) [0x61])) = .ok (.entry 0o40000 (deepId (n + k + 1)) .tree) := by
  induction k with
  | zero =>
    intro n h
    rw [List.replicate_succ, resolve_deep_step (by omega), List.replicate_zero, if_pos rfl, Nat.add_zero]
  | succ k ih =>
    intro n h
    rw [List.replicate_succ, resolve_deep_step (by omega), if_neg (by simp [List.replicate_succ]),
      ih (by omega)]
    congr 3
    omega

private theorem splitOn_deepDir (n : ℕ) : (deepDir (n + 1)).splitOn 0x2f = List.replicate (n + 1) [0x61] := by
  refine List.splitOn_intercalate 0x2f (fun segment hsegment ↦ ?_) (by simp [List.replicate_succ])
  rw [List.eq_of_mem_replicate hsegment]
  decide

/-- A lookup finds every tree of the store. -/
theorem resolvePath_deep {k : ℕ} (h : k < 2 ^ 32) :
    deepStore.eval (resolvePath sampleGix deepStore.toStoreInfo deepSnapshot (deepDir (k + 1))) =
      .ok (.entry 0o40000 (deepId (k + 1)) .tree) := by
  have hresolve := resolve_deep k (n := 0) (by omega)
  rw [Nat.zero_add] at hresolve
  have hne : deepDir (k + 1) ≠ [] := fun heq ↦ by
    have hsplit := splitOn_deepDir k
    rw [heq, List.replicate_succ] at hsplit
    cases hsplit
  rw [resolvePath, resolvePathWith, ObjectDb.eval_bind, validatePath_deepDir, if_neg hne, splitOn_deepDir]
  exact hresolve

/-- What is listed from level `d` on, and how deep it lies. -/
theorem lists_deep {j : ℕ} : ∀ {d : ℕ}, d + 1 + j = u32Max → ∃ items,
    Lists deepStore sampleGix (wholeQuery [] false) [deepEntry (d + 1)] (deepDir d) (d + 1) items ∧
      ∀ item ∈ items, level item.path ≤ u32Max := by
  have hemits : ∀ d, Emits deepStore sampleGix (wholeQuery [] false)
      (joinPath (deepDir d) (deepEntry (d + 1)).name) (deepEntry (d + 1))
      [⟨deepDir (d + 1), [0x61], deepId (d + 1), .tree, 0o40000, none⟩] := fun d ↦ by
    constructor
    · have hselected : selects sampleGix (wholeQuery [] false)
          (joinPath (deepDir d) (deepEntry (d + 1)).name) (deepEntry (d + 1)) = true := selects_whole
      rw [List.filter_cons_of_pos (by simpa using hselected)]
      exact congrArg (fun path ↦ [(path, deepEntry (d + 1))]) (joinPath_deepDir d).symm
    · intro item hitem
      rw [List.mem_singleton.mp hitem, ← joinPath_deepDir]
      rfl
  induction j with
  | zero =>
    intro d hd
    refine ⟨_, .leaf ?_ (hemits d) .nil, fun item hitem ↦ ?_⟩
    · rw [Bool.eq_false_iff, Ne, shouldDescend_whole]
      omega
    · rw [List.append_nil, List.mem_singleton] at hitem
      rw [hitem, level_deepDir]
      omega
  | succ j ih =>
    intro d hd
    obtain ⟨items, hitems, hlevels⟩ := ih (d := d + 1) (by omega)
    have hmax : u32Max < 2 ^ 32 := by decide
    have hdepth : min (d + 1 + 1) u32Max = d + 1 + 1 := by omega
    have hname : joinPath (deepDir d) (deepEntry (d + 1)).name = deepDir (d + 1) := joinPath_deepDir d
    have hbelow : Lists deepStore sampleGix (wholeQuery [] false) [deepEntry (d + 1 + 1)]
        (joinPath (deepDir d) (deepEntry (d + 1)).name) (min (d + 1 + 1) u32Max) items := by
      rw [hdepth, hname]
      exact hitems
    refine ⟨_, .tree (shouldDescend_whole.mpr ⟨rfl, by omega⟩) (readForWalk_deepId (n := d + 1) (by omega))
      (hemits d) hbelow .nil, fun item hitem ↦ ?_⟩
    rw [List.append_nil, List.singleton_append, List.mem_cons] at hitem
    rcases hitem with rfl | hitem
    · rw [level_deepDir]
      omega
    · exact hlevels item hitem

/-- The root listing ends `2 ^ 32 - 1` levels below the root; a lookup goes on. -/
theorem deep_lookup_unlisted : deepStore.CanonicalTrees sampleGix ∧ ∃ limit fuel page,
    deepStore.eval (listTree sampleGix fuel deepStore.toStoreInfo deepSnapshot
      ⟨wholeQuery [] false, limit, none⟩) = .ok page ∧ page.nextCursor = none ∧
    deepStore.eval (resolvePath sampleGix deepStore.toStoreInfo deepSnapshot (deepDir (2 ^ 32))) =
      .ok (.entry 0o40000 (deepId (2 ^ 32)) .tree) ∧
    ∀ item ∈ page.entries, item.path ≠ deepDir (2 ^ 32) := by
  have hmax : u32Max + 1 = 2 ^ 32 := by decide
  obtain ⟨items, hlists, hlevels⟩ := lists_deep (j := u32Max - 1) (d := 0) (by decide)
  obtain ⟨enough, henough⟩ := @listTree_of_lists _ _ deepSnapshot (wholeQuery [] false)
    (items.length + 1) _ _ _ _ rfl rfl (Nat.succ_ne_zero _) (by decide) rfl rfl
    (readForWalk_deepId (n := 0) (by decide)) hlists (Nat.le_succ _)
  refine ⟨deepStore_canonical, _, enough, _, henough enough le_rfl, rfl, ?_, fun item hitem heq ↦ ?_⟩
  · rw [← hmax]
    exact resolvePath_deep (by decide)
  · have hlevel := hlevels item hitem
    rw [heq, ← hmax, level_deepDir] at hlevel
    omega

end Gitility.ListTree
