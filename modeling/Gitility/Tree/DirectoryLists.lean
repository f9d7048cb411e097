import Gitility.Tree.ListPages

/-!
# The list of a directory

The stack walk of `list_tree` in the terms of the tree it walks: a directory lists each of its entries, and
behind a tree what the tree lists. A finished walk has listed its stack so, and what a directory lists is what
the walk emits while it works on the directory.
-/

namespace Gitility.ListTree

/-- What one entry adds to a list: an item if it is selected. -/
structure Emits (db : ObjectDb) (gix : Gix) (query : TreeQuery) (path : Bytes) (entry : OwnedTreeEntry)
    (emitted : List TreeItem) : Prop where
  listed : emitted.map TreeItem.listed = [(path, entry)].filter fun v ↦ selects gix query v.1 v.2
  emits : ∀ item ∈ emitted, db.eval (emitItem query path entry) = .ok item

/-- What the entries of a directory list, in the order of the walk. -/
inductive Lists (db : ObjectDb) (gix : Gix) (query : TreeQuery) :
    List OwnedTreeEntry → Bytes → ℕ → List TreeItem → Prop where
  | nil {dir : Bytes} {depth : ℕ} : Lists db gix query [] dir depth []
  | leaf {entry : OwnedTreeEntry} {rest : List OwnedTreeEntry} {dir : Bytes} {depth : ℕ}
      {emitted items : List TreeItem}
      (hleaf : shouldDescend query (joinPath dir entry.name) entry depth = false)
      (hemits : Emits db gix query (joinPath dir entry.name) entry emitted)
      (hrest : Lists db gix query rest dir depth items) :
      Lists db gix query (entry :: rest) dir depth (emitted ++ items)
  | tree {entry : OwnedTreeEntry} {rest children : List OwnedTreeEntry} {dir : Bytes} {depth : ℕ}
      {emitted below items : List TreeItem}
      (htree : shouldDescend query (joinPath dir entry.name) entry depth = true)
      (hread : db.eval (readTreeEntriesForWalk gix db.toStoreInfo query.recursive entry.oid) = .ok children)
      (hemits : Emits db gix query (joinPath dir entry.name) entry emitted)
      (hbelow : Lists db gix query children (joinPath dir entry.name) (min (depth + 1) u32Max) below)
      (hrest : Lists db gix query rest dir depth items) :
      Lists db gix query (entry :: rest) dir depth (emitted ++ (below ++ items))

/-- What a stack of directories lists. -/
inductive ListsStack (db : ObjectDb) (gix : Gix) (query : TreeQuery) : List Frame → List TreeItem → Prop where
  | nil : ListsStack db gix query [] []
  | cons {frame : Frame} {stack : List Frame} {items items' : List TreeItem}
      (hframe : Lists db gix query frame.entries frame.directory frame.depth items)
      (hstack : ListsStack db gix query stack items') :
      ListsStack db gix query (frame :: stack) (items ++ items')

section Walk

variable {db : ObjectDb} {gix : Gix} {query : TreeQuery} {path dir : Bytes} {entry : OwnedTreeEntry}
  {entries rest : List OwnedTreeEntry} {depth fuel : ℕ} {stack stack' : List Frame}
  {items items' all emitted : List TreeItem} {opts : TreeOptions}

/-! ### From the walk to the list -/

/-- A descent goes on with the children of a tree, or with the stack as it is. -/
theorem descend_eq_go
    (h : db.eval (descend gix db.toStoreInfo query path entry depth stack) = .ok (.go stack')) :
    (shouldDescend query path entry depth = false ∧ stack' = stack) ∨
    (shouldDescend query path entry depth = true ∧ ∃ children,
      db.eval (readTreeEntriesForWalk gix db.toStoreInfo query.recursive entry.oid) = .ok children ∧
      stack' = ⟨children, path, min (depth + 1) u32Max⟩ :: stack) := by
  unfold descend at h
  split at h
  · next hdescend =>
    rw [ObjectDb.eval_bind, ObjectDb.eval_attempt] at h
    cases hread : db.eval (readTreeEntriesForWalk gix db.toStoreInfo query.recursive entry.oid) with
    | ok children =>
      rw [hread] at h
      exact .inr ⟨hdescend, children, rfl, (Visit.go.inj (Outcome.ok.inj h)).symm⟩
    | error e =>
      rw [hread] at h
      cases h
    | diverged =>
      rw [hread] at h
      cases h
  · next hdescend =>
    exact .inl ⟨by simpa using hdescend, (Visit.go.inj (Outcome.ok.inj h)).symm⟩

/-- An entry that is passed adds its item, and what the stack behind it lists. -/
theorem Passes.lists {frame : Frame} (hentries : frame.entries = entry :: rest)
    (h : Passes db gix query (joinPath frame.directory entry.name) entry frame.depth
      ({ frame with entries := rest } :: stack) stack' emitted)
    (hstack : ListsStack db gix query stack' items) :
    ListsStack db gix query (frame :: stack) (emitted ++ items) := by
  have hemits : Emits db gix query (joinPath frame.directory entry.name) entry emitted :=
    ⟨h.listed, h.emits⟩
  rcases descend_eq_go h.descends with ⟨hleaf, rfl⟩ | ⟨htree, children, hread, rfl⟩
  · cases hstack with
    | cons hframe hstack =>
      rw [← List.append_assoc]
      refine .cons ?_ hstack
      rw [hentries]
      exact .leaf hleaf hemits hframe
  · cases hstack with
    | cons hbelow hstack =>
      cases hstack with
      | cons hframe hstack =>
        rw [← List.append_assoc, ← List.append_assoc]
        refine .cons ?_ hstack
        rw [hentries, List.append_assoc]
        exact .tree htree hread hemits hbelow hframe

/-- A walk that completes has listed its stack. -/
theorem lists_of_walkTree
    (h : db.eval (walkTree gix db.toStoreInfo opts [] fuel stack items) = .ok (all, .ok .complete)) :
    ∃ listed, all = items ++ listed ∧ ListsStack db gix opts.toTreeQuery stack listed := by
  induction fuel generalizing stack items with
  | zero => cases h
  | succ fuel ih =>
    cases stack with
    | nil =>
      obtain ⟨rfl, -⟩ := Prod.mk.inj (Outcome.ok.inj h)
      exact ⟨[], (List.append_nil _).symm, .nil⟩
    | cons frame stack =>
      simp only [walkTree, ObjectDb.eval_bind, ObjectDb.eval_attempt, ObjectDb.eval_check,
        Outcome.ok_bind] at h
      cases hentries : frame.entries with
      | nil =>
        rw [hentries] at h
        obtain ⟨listed, hall, hstack⟩ := ih h
        refine ⟨[] ++ listed, hall, .cons ?_ hstack⟩
        rw [hentries]
        exact .nil
      | cons entry rest =>
        simp only [hentries, ObjectDb.eval_bind, Outcome.bind_eq_ok] at h
        obtain ⟨⟨items₁, visit⟩, hvisit, h⟩ := h
        rcases passes_or_stops hvisit with
          ⟨emitted, stack', rfl, rfl, hpasses⟩ | ⟨outcome, rfl, houtcome⟩
        · obtain ⟨listed, rfl, hstack⟩ := ih h
          exact ⟨emitted ++ listed, List.append_assoc _ _ _, hpasses.lists hentries hstack⟩
        · simp only [ObjectDb.eval_pure, Outcome.ok.injEq, Prod.mk.injEq] at h
          exact absurd h.2 houtcome

/-! ### From the list to the walk -/

/-- One step of the walk over an entry that has room. -/
theorem eval_walkTree_entry {frame : Frame} (hentries : frame.entries = entry :: rest)
    (h : Passes db gix opts.toTreeQuery (joinPath frame.directory entry.name) entry frame.depth
      ({ frame with entries := rest } :: stack) stack' emitted)
    (hroom : (items ++ emitted).length ≤ opts.limit) :
    db.eval (walkTree gix db.toStoreInfo opts [] (fuel + 1) (frame :: stack) items) =
      db.eval (walkTree gix db.toStoreInfo opts [] fuel stack' (items ++ emitted)) := by
  have hitems : items.length ≤ opts.limit := by
    rw [List.length_append] at hroom
    omega
  have hvisit := @Passes.eval_visitEntry _ _ _ [] _ _ _ _ _ _ _ h hitems
  have hbehind : behind [] emitted = emitted := List.filter_eq_self.mpr (by simp)
  rw [hbehind, if_pos hroom] at hvisit
  simp only [walkTree, ObjectDb.eval_bind, ObjectDb.eval_attempt, ObjectDb.eval_check,
    Outcome.ok_bind, hentries, hvisit]

/-- The descent into a tree that is read. -/
theorem eval_descend_tree {children : List OwnedTreeEntry}
    (htree : shouldDescend query path entry depth = true)
    (hread : db.eval (readTreeEntriesForWalk gix db.toStoreInfo query.recursive entry.oid) = .ok children) :
    db.eval (descend gix db.toStoreInfo query path entry depth stack) =
      .ok (.go (⟨children, path, min (depth + 1) u32Max⟩ :: stack)) := by
  rw [descend, if_pos htree, ObjectDb.eval_bind, ObjectDb.eval_attempt_of_ok hread]
  rfl

/-- The walk works on a directory until it has emitted what the directory lists. -/
theorem eval_walkTree_of_lists (h : Lists db gix query entries dir depth items) :
    ∃ n, ∀ opts fuel stack front, opts.toTreeQuery = query → (front ++ items).length ≤ opts.limit →
      db.eval (walkTree gix db.toStoreInfo opts [] (fuel + n) (⟨entries, dir, depth⟩ :: stack) front) =
        db.eval (walkTree gix db.toStoreInfo opts [] fuel stack (front ++ items)) := by
  induction h with
  | @nil dir depth =>
    refine ⟨1, fun opts fuel stack front _ _ ↦ ?_⟩
    rw [List.append_nil]
    simp only [walkTree, ObjectDb.eval_bind, ObjectDb.eval_attempt, ObjectDb.eval_check, Outcome.ok_bind]
  | @leaf entry rest dir depth emitted items hleaf hemits hrest ih =>
    obtain ⟨n, hn⟩ := ih
    refine ⟨n + 1, fun opts fuel stack front hquery hroom ↦ ?_⟩
    subst hquery
    have hpasses : Passes db gix opts.toTreeQuery (joinPath dir entry.name) entry depth
        (⟨rest, dir, depth⟩ :: stack) (⟨rest, dir, depth⟩ :: stack) emitted :=
      ⟨hemits.listed, by rw [descend, if_neg (by simp [hleaf])]; rfl, hemits.emits⟩
    rw [← List.append_assoc] at hroom ⊢
    have hfirst : (front ++ emitted).length ≤ opts.limit := by
      rw [List.length_append] at hroom
      omega
    rw [← Nat.add_assoc, eval_walkTree_entry rfl hpasses hfirst]
    exact hn opts fuel stack _ rfl hroom
  | @tree entry rest children dir depth emitted below items htree hread hemits hbelow hrest ihbelow ih =>
    obtain ⟨n, hn⟩ := ihbelow
    obtain ⟨m, hm⟩ := ih
    refine ⟨m + n + 1, fun opts fuel stack front hquery hroom ↦ ?_⟩
    subst hquery
    have hpasses : Passes db gix opts.toTreeQuery (joinPath dir entry.name) entry depth
        (⟨rest, dir, depth⟩ :: stack)
        (⟨children, joinPath dir entry.name, min (depth + 1) u32Max⟩ :: ⟨rest, dir, depth⟩ :: stack)
        emitted :=
      ⟨hemits.listed, eval_descend_tree htree hread, hemits.emits⟩
    rw [← List.append_assoc, ← List.append_assoc] at hroom ⊢
    have hsecond : (front ++ emitted ++ below).length ≤ opts.limit := by
      rw [List.length_append] at hroom
      omega
    have hfirst : (front ++ emitted).length ≤ opts.limit := by
      rw [List.length_append] at hsecond
      omega
    rw [← Nat.add_assoc, ← Nat.add_assoc, eval_walkTree_entry rfl hpasses hfirst,
      hn opts _ _ _ rfl hsecond]
    exact hm opts fuel stack _ rfl hroom

end Walk

end Gitility.ListTree
