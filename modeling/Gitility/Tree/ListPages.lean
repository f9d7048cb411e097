import Gitility.Base.Pages
import Gitility.Tree.Listing
import Gitility.Tree.Order

/-!
# The pages of a listing

A page of `list_tree` makes the walk of the whole listing, drops what is not greater than its
resume path and stops at its limit. The walk visits entries in the order of their keys, so the
pages make up the listing when that is also the order of the paths.
-/

namespace Gitility

/-- The visited entry an item lists. -/
def TreeItem.listed (item : TreeItem) : Bytes × OwnedTreeEntry :=
  (item.path, ⟨⟨item.mode, item.name, item.oid⟩, item.kind⟩)

namespace ListTree

variable {db : ObjectDb} {gix : Gix} {query : TreeQuery} {path resume : Bytes}
  {entry : OwnedTreeEntry} {depth fuel : ℕ} {stack stack' : List Frame}
  {items items' all : List TreeItem}

/-- The items a page that resumes behind a path may emit. -/
def behind (resume : Bytes) (items : List TreeItem) : List TreeItem :=
  items.filter fun item ↦ resume = [] ∨ resume < item.path

/-- The walk of a page: all it may emit, up to its limit. -/
def paged (limit : ℕ) (items : List TreeItem) : List TreeItem × Except Error WalkOutcome :=
  if items.length ≤ limit then (items, .ok .complete)
  else (items.take limit, .ok (.stopped "limit"))

/-! ### One entry -/

private theorem eval_descend {visit : Visit}
    (h : db.eval (descend gix db.toStoreInfo query path entry depth stack) = .ok visit) :
    (shouldDescend query path entry depth = false ∧ visit = .go stack) ∨
    (shouldDescend query path entry depth = true ∧ ∃ children,
      db.eval (readTreeEntries gix db.toStoreInfo entry.oid) = .ok children ∧
      visit = .go (⟨children, path, min (depth + 1) u32Max⟩ :: stack)) ∨
    ∃ e, visit = .stop (.error e) := by
  unfold descend at h
  split at h
  · next hdescend =>
    rw [ObjectDb.eval_bind, ObjectDb.eval_attempt] at h
    cases hread : db.eval (readTreeEntriesForWalk gix db.toStoreInfo query.recursive entry.oid) with
    | ok children =>
      rw [hread] at h
      have hvisit := (Outcome.ok.inj h).symm
      exact .inr (.inl ⟨hdescend, children, ObjectDb.eval_readTreeEntriesForWalk hread, hvisit⟩)
    | error e =>
      rw [hread] at h
      exact .inr (.inr ⟨e, (Outcome.ok.inj h).symm⟩)
    | diverged =>
      rw [hread] at h
      cases h
  · next hdescend => exact .inl ⟨by simpa using hdescend, (Outcome.ok.inj h).symm⟩

private theorem eval_emitItem {item : TreeItem} (h : db.eval (emitItem query path entry) = .ok item) :
    item.listed = (path, entry) := by
  simp only [emitItem, ObjectDb.eval_bind, ObjectDb.eval_chargeTreeEntry, Outcome.ok_bind,
    Outcome.bind_eq_ok] at h
  obtain ⟨size, -, h⟩ := h
  obtain rfl := Outcome.ok.inj h
  rfl

/-- What one entry adds to a page, when the whole listing gets past it. -/
structure Passes (db : ObjectDb) (gix : Gix) (query : TreeQuery) (path : Bytes)
    (entry : OwnedTreeEntry) (depth : ℕ) (stack stack' : List Frame) (emitted : List TreeItem) :
    Prop where
  listed : emitted.map TreeItem.listed = [(path, entry)].filter fun v ↦ selects gix query v.1 v.2
  descends : db.eval (descend gix db.toStoreInfo query path entry depth stack) = .ok (.go stack')
  emits : ∀ item ∈ emitted, db.eval (emitItem query path entry) = .ok item

private theorem Passes.length_behind_le {emitted : List TreeItem}
    (h : Passes db gix query path entry depth stack stack' emitted) (resume : Bytes) :
    (behind resume emitted).length ≤ 1 :=
  calc (behind resume emitted).length ≤ emitted.length := List.length_filter_le _ _
    _ = (emitted.map TreeItem.listed).length := by rw [List.length_map]
    _ ≤ 1 := by
      rw [h.listed]
      exact List.length_filter_le _ _

/-- An entry of the whole listing is passed, or ends the walk before it is complete. -/
theorem passes_or_stops {opts : TreeOptions} {visit : Visit}
    (h : db.eval (visitEntry gix db.toStoreInfo opts [] path entry depth stack items) =
      .ok (items', visit)) :
    (∃ emitted stack', items' = items ++ emitted ∧ visit = .go stack' ∧
      Passes db gix opts.toTreeQuery path entry depth stack stack' emitted) ∨
    ∃ outcome, visit = .stop outcome ∧ outcome ≠ .ok .complete := by
  have hselects : shouldEmit gix opts.toTreeQuery [] path entry =
      selects gix opts.toTreeQuery path entry := by
    simp [shouldEmit]
  have hdescend {visit : Visit} (hvisit : db.eval (descend gix db.toStoreInfo opts.toTreeQuery path
      entry depth stack) = .ok visit) : (∃ stack', visit = .go stack') ∨
        ∃ outcome, visit = .stop outcome ∧ outcome ≠ .ok .complete := by
    rcases eval_descend hvisit with ⟨-, rfl⟩ | ⟨-, children, -, rfl⟩ | ⟨e, rfl⟩
    · exact .inl ⟨_, rfl⟩
    · exact .inl ⟨_, rfl⟩
    · exact .inr ⟨_, rfl, nofun⟩
  unfold visitEntry at h
  rw [hselects] at h
  split at h
  · next hemit =>
    split at h
    · obtain ⟨-, rfl⟩ := Prod.mk.inj (Outcome.ok.inj h)
      exact .inr ⟨_, rfl, nofun⟩
    · rw [ObjectDb.eval_bind, ObjectDb.eval_attempt] at h
      cases hitem : db.eval (emitItem opts.toTreeQuery path entry) with
      | ok item =>
        simp only [hitem, Outcome.ok_bind, ObjectDb.eval_bind, Outcome.bind_eq_ok] at h
        obtain ⟨visit', hvisit, h⟩ := h
        obtain ⟨rfl, rfl⟩ := Prod.mk.inj (Outcome.ok.inj h)
        refine (hdescend hvisit).imp_left ?_
        rintro ⟨stack', rfl⟩
        refine ⟨[item], stack', rfl, rfl, ?_, hvisit, ?_⟩
        · simp [eval_emitItem hitem, hemit]
        · intro other hother
          rw [List.mem_singleton.mp hother]
          exact hitem
      | error e =>
        rw [hitem] at h
        obtain ⟨-, rfl⟩ := Prod.mk.inj (Outcome.ok.inj h)
        exact .inr ⟨_, rfl, nofun⟩
      | diverged =>
        rw [hitem] at h
        cases h
  · next hemit =>
    simp only [ObjectDb.eval_bind, Outcome.bind_eq_ok] at h
    obtain ⟨visit', hvisit, h⟩ := h
    obtain ⟨rfl, rfl⟩ := Prod.mk.inj (Outcome.ok.inj h)
    refine (hdescend hvisit).imp_left ?_
    rintro ⟨stack', rfl⟩
    refine ⟨[], stack', (List.append_nil _).symm, rfl, ?_, hvisit, ?_⟩
    · simp [hemit]
    · intro item hitem
      cases hitem

/-- A page passes an entry like the whole listing does, unless it has no room for it. -/
theorem Passes.eval_visitEntry {opts : TreeOptions} {emitted : List TreeItem}
    (h : Passes db gix opts.toTreeQuery path entry depth stack stack' emitted)
    (hroom : items.length ≤ opts.limit) :
    db.eval (visitEntry gix db.toStoreInfo opts resume path entry depth stack items) =
      if (items ++ behind resume emitted).length ≤ opts.limit then
        .ok (items ++ behind resume emitted, .go stack')
      else .ok (items, .stop (.ok (.stopped "limit"))) := by
  have hskip (hskip : shouldEmit gix opts.toTreeQuery resume path entry = false) :
      db.eval (visitEntry gix db.toStoreInfo opts resume path entry depth stack items) =
        .ok (items, .go stack') := by
    rw [visitEntry, hskip]
    simp [h.descends]
  cases hselects : selects gix opts.toTreeQuery path entry with
  | false =>
    have hemitted : emitted = [] := by simpa [hselects] using h.listed
    rw [hskip (by simp [shouldEmit, hselects]), hemitted]
    simp [behind, hroom]
  | true =>
    have hone : emitted.map TreeItem.listed = [(path, entry)] := by simpa [hselects] using h.listed
    obtain ⟨item, rfl, hitem⟩ := List.map_eq_singleton_iff.mp hone
    have hpath : item.path = path := congrArg Prod.fst hitem
    by_cases hresume : resume = [] ∨ resume < path
    · have hbehind : behind resume [item] = [item] := by simpa [behind, hpath] using hresume
      rw [hbehind, visitEntry, shouldEmit, hselects]
      by_cases hfull : items.length = opts.limit
      · simp [hresume, hfull]
      · have hless : items.length + 1 ≤ opts.limit := by omega
        simp [hresume, hfull, ObjectDb.eval_attempt, h.emits item List.mem_cons_self, h.descends,
          hless]
    · have hbehind : behind resume [item] = [] := by simpa [behind, hpath] using hresume
      rw [hskip (by simpa [shouldEmit, hselects] using hresume), hbehind]
      simp [hroom]

/-! ### The walk -/

/-- What a walk visits from a stack of directories on. -/
inductive Walked (db : ObjectDb) (gix : Gix) (query : TreeQuery) :
    List Frame → List (Bytes × OwnedTreeEntry) → Prop where
  | nil : Walked db gix query [] []
  | cons {frame : Frame} {stack : List Frame} {visited visited' : List (Bytes × OwnedTreeEntry)}
      (hframe : (db.treeWalk gix (shouldDescend query)).Visits False frame.entries
        frame.directory frame.depth visited)
      (hstack : Walked db gix query stack visited') :
      Walked db gix query (frame :: stack) (visited ++ visited')

/-- An entry that is passed is visited before what the stack behind it leads to. -/
theorem Passes.walked {frame : Frame} {rest : List OwnedTreeEntry} {emitted : List TreeItem}
    {visited : List (Bytes × OwnedTreeEntry)} (hentries : frame.entries = entry :: rest)
    (h : Passes db gix query (joinPath frame.directory entry.name) entry frame.depth
      ({ frame with entries := rest } :: stack) stack' emitted)
    (hwalked : Walked db gix query stack' visited) :
    Walked db gix query (frame :: stack)
      ((joinPath frame.directory entry.name, entry) :: visited) := by
  rcases eval_descend h.descends with ⟨hleaf, hgo⟩ | ⟨htree, children, hread, hgo⟩ | ⟨e, hgo⟩
  · obtain rfl := Visit.go.inj hgo
    cases hwalked with
    | cons hframe hstack =>
      have hvisits := TreeWalk.Visits.leaf hleaf hframe
      rw [← hentries] at hvisits
      exact .cons hvisits hstack
  · obtain rfl := Visit.go.inj hgo
    cases hwalked with
    | cons hbelow hstack =>
      cases hstack with
      | cons hframe hstack =>
        have hvisits := TreeWalk.Visits.tree htree hread hbelow hframe
        rw [← hentries] at hvisits
        rw [← List.append_assoc]
        exact .cons hvisits hstack
  · cases hgo

private theorem paged_of_lt {limit : ℕ} (h : limit < (items ++ items').length)
    (hroom : items.length = limit) : paged limit (items ++ items') = (items, .ok (.stopped "limit"))
    := by
  rw [paged, if_neg (Nat.not_le.mpr h), ← hroom, List.take_left]

/-- A walk that completes the whole listing: what it visits, what it selects, and what a page
with a resume path and a limit makes of it. -/
theorem eval_walkTree {opts₀ : TreeOptions} (hquery : opts₀.toTreeQuery = query)
    (h : db.eval (walkTree gix db.toStoreInfo opts₀ [] fuel stack items) =
      .ok (all, .ok .complete)) :
    ∃ selected visited, all = items ++ selected ∧ Walked db gix query stack visited ∧
      selected.map TreeItem.listed = visited.filter (fun v ↦ selects gix query v.1 v.2) ∧
      ∀ opts resume items, opts.toTreeQuery = query → items.length ≤ opts.limit →
        db.eval (walkTree gix db.toStoreInfo opts resume fuel stack items) =
          .ok (paged opts.limit (items ++ behind resume selected)) := by
  induction fuel generalizing stack items with
  | zero => cases h
  | succ fuel ih =>
    cases stack with
    | nil =>
      obtain ⟨rfl, -⟩ := Prod.mk.inj (Outcome.ok.inj h)
      refine ⟨[], [], (List.append_nil _).symm, .nil, rfl, fun opts resume items _ hroom ↦ ?_⟩
      simp [walkTree, behind, paged, hroom]
    | cons frame stack =>
      simp only [walkTree, ObjectDb.eval_bind, ObjectDb.eval_attempt, ObjectDb.eval_check,
        Outcome.ok_bind] at h
      cases hentries : frame.entries with
      | nil =>
        rw [hentries] at h
        obtain ⟨selected, visited, hall, hwalked, hselected, hpages⟩ := ih h
        refine ⟨selected, visited, hall, ?_, hselected, fun opts resume items hopts hroom ↦ ?_⟩
        · rw [← List.nil_append visited]
          refine .cons ?_ hwalked
          rw [hentries]
          exact .nil
        · simp only [walkTree, ObjectDb.eval_bind, ObjectDb.eval_attempt, ObjectDb.eval_check,
            Outcome.ok_bind, hentries]
          exact hpages opts resume items hopts hroom
      | cons entry rest =>
        simp only [hentries, ObjectDb.eval_bind, Outcome.bind_eq_ok] at h
        obtain ⟨⟨items₁, visit⟩, hvisit, h⟩ := h
        rcases passes_or_stops hvisit with
          ⟨emitted, stack', rfl, rfl, hpasses⟩ | ⟨outcome, rfl, houtcome⟩
        · rw [hquery] at hpasses
          obtain ⟨selected, visited, rfl, hwalked, hselected, hpages⟩ := ih h
          refine ⟨emitted ++ selected, _, List.append_assoc _ _ _,
            hpasses.walked hentries hwalked, ?_, fun opts resume items hopts hroom ↦ ?_⟩
          · rw [List.map_append, hpasses.listed, hselected, ← List.filter_append]
            rfl
          · simp only [walkTree, ObjectDb.eval_bind, ObjectDb.eval_attempt, ObjectDb.eval_check,
              Outcome.ok_bind, hentries]
            subst hopts
            rw [hpasses.eval_visitEntry hroom]
            have hbehind : behind resume (emitted ++ selected) =
              behind resume emitted ++ behind resume selected := List.filter_append _ _
            split
            · next hfits =>
              rw [hbehind, ← List.append_assoc]
              exact hpages opts resume _ rfl hfits
            · next hfull =>
              have hone := hpasses.length_behind_le resume
              rw [List.length_append] at hfull
              rw [paged_of_lt]
              · rfl
              · rw [hbehind, List.length_append, List.length_append]
                omega
              · omega
        · simp only [ObjectDb.eval_pure, Outcome.ok.injEq, Prod.mk.injEq] at h
          exact absurd h.2 houtcome

/-! ### Positions -/

/-- Every path below the listed tree is a position its cursors may carry. -/
theorem validateCursorPosition_joinPath {base rest : Bytes} (hrest : rest ≠ [])
    (hvalid : validatePath (joinPath base rest) = .ok ()) :
    validateCursorPosition (joinPath base rest) base = .ok () := by
  rw [validateCursorPosition, if_neg (joinPath_ne_nil hrest), hvalid]
  exact ensure_eq_ok.mpr (inside_joinPath hrest)

/-! ### The listing -/

/-- An entry that the listing selects: the walk from the listed tree reaches it, its kind is
listed and the pathspecs match it. -/
def Selected (db : ObjectDb) (gix : Gix) (snapshot : Snapshot) (query : TreeQuery) (path : Bytes)
    (entry : OwnedTreeEntry) : Prop :=
  ∃ resolved treeOid entries,
    db.eval (resolvePath gix db.toStoreInfo snapshot query.path) = .ok resolved ∧
    resolved.treeOid = .ok treeOid ∧ maxDepth query ≠ 0 ∧
    db.eval (readTreeEntries gix db.toStoreInfo treeOid) = .ok entries ∧
    (db.treeWalk gix (shouldDescend query)).Reaches entries query.path 1 path entry ∧
    selects gix query path entry

variable {snapshot : Snapshot} {full : TreePage} {bound : ℕ}

/-- The whole listing of a store with canonical trees, and what a page makes of it. -/
structure Listing (db : ObjectDb) (gix : Gix) (fuel : ℕ) (snapshot : Snapshot) (query : TreeQuery)
    (all : List TreeItem) : Prop where
  sha1 : snapshot.commitOid.kind = .sha1
  ordered : TreeWalk.Ordered (all.map TreeItem.listed)
  mem_iff : ∀ path entry,
    (path, entry) ∈ all.map TreeItem.listed ↔ Selected db gix snapshot query path entry
  position : ∀ item ∈ all, item.path ≠ [] ∧ validateCursorPosition item.path query.path = .ok ()
  page : ∀ limit cursor resume, limit ≠ 0 →
    decodeResume snapshot ⟨query, limit, cursor⟩ = .ok resume →
    db.eval (listTree gix fuel db.toStoreInfo snapshot ⟨query, limit, cursor⟩) =
      .ofExcept (closePage snapshot query (paged limit (behind resume all)).1
        (paged limit (behind resume all)).2)

/-- A last page has all the items of a walk that ended. -/
theorem closePage_last {outcome : Except Error WalkOutcome}
    (h : closePage snapshot query items outcome = .ok full) (hend : full.nextCursor = none) :
    outcome = .ok .complete ∧ full.entries = items := by
  simp only [closePage, Except.bind_eq_ok] at h
  obtain ⟨stopped, hstopped, nextCursor, hnext, h⟩ := h
  obtain rfl := Except.ok.inj h
  cases stopped with
  | none =>
    refine ⟨?_, rfl⟩
    cases outcome with
    | ok outcome =>
      cases outcome with
      | complete => rfl
      | stopped limit => cases hstopped
    | error e =>
      simp only [stoppedBy] at hstopped
      split at hstopped <;> cases hstopped
  | some limit =>
    rw [Option.mapM_some] at hnext
    cases hcursor : continuation snapshot query items limit with
    | ok cursor =>
      rw [hcursor] at hnext
      obtain rfl := Except.ok.inj hnext
      cases hend
    | error e =>
      rw [hcursor] at hnext
      cases hnext

private theorem sha1_of_compatible {info : StoreInfo}
    (h : ensureQueryCompatible info snapshot = .ok ()) : snapshot.commitOid.kind = .sha1 := by
  simp only [ensureQueryCompatible, Except.bind_eq_ok, ensure_eq_ok] at h
  obtain ⟨-, hsha256, hkind, -⟩ := h
  rw [hkind]
  cases hhash : info.hashKind with
  | sha1 => rfl
  | sha256 => exact absurd hhash hsha256

/-- Only trees are descended into. -/
theorem shouldDescend_tree (h : shouldDescend query path entry depth = true) :
    entry.kind = .tree := by
  simp only [shouldDescend, decide_eq_true_eq] at h
  exact h.1

/-- The walk of a whole listing, and of its pages. -/
theorem eval_walkFrom {treeOid : Oid} (hcanonical : db.CanonicalTrees gix)
    (h : db.eval (walkFrom gix db.toStoreInfo ⟨query, bound, none⟩ [] fuel treeOid) =
      .ok (all, .ok .complete)) :
    TreeWalk.Ordered (all.map TreeItem.listed) ∧
    (∀ v, v ∈ all.map TreeItem.listed ↔ maxDepth query ≠ 0 ∧ ∃ entries,
      db.eval (readTreeEntries gix db.toStoreInfo treeOid) = .ok entries ∧
      (db.treeWalk gix (shouldDescend query)).Reaches entries query.path 1 v.1 v.2 ∧
      selects gix query v.1 v.2) ∧
    ∀ limit cursor resume,
      db.eval (walkFrom gix db.toStoreInfo ⟨query, limit, cursor⟩ resume fuel treeOid) =
        .ok (paged limit (behind resume all)) := by
  unfold walkFrom at h ⊢
  dsimp only at h ⊢
  split at h
  · next hdepth =>
    obtain ⟨rfl, -⟩ := Prod.mk.inj (Outcome.ok.inj h)
    refine ⟨.nil, fun v ↦ by simp [hdepth], fun limit cursor resume ↦ ?_⟩
    simp [hdepth, behind, paged]
  · next hdepth =>
    rw [ObjectDb.eval_bind, ObjectDb.eval_attempt] at h
    cases hread : db.eval (readTreeEntriesForWalk gix db.toStoreInfo query.recursive treeOid) with
    | error e =>
      rw [hread] at h
      cases (Prod.mk.inj (Outcome.ok.inj h)).2
    | diverged =>
      rw [hread] at h
      cases h
    | ok entries =>
      rw [hread] at h
      have hregular : (db.treeWalk gix (shouldDescend query)).Regular :=
        db.regular_treeWalk hcanonical fun _ _ _ ↦ shouldDescend_tree
      have hentries := ObjectDb.eval_readTreeEntriesForWalk hread
      obtain ⟨selected, visited, hall, hwalked, hselected, hpages⟩ := eval_walkTree rfl h
      rw [List.nil_append] at hall
      subst hall
      cases hwalked with
      | cons hvisits hstack =>
        cases hstack
        rw [List.append_nil] at hselected
        refine ⟨?_, fun v ↦ ?_, fun limit cursor resume ↦ ?_⟩
        · rw [hselected]
          exact (hvisits.ordered hregular (hregular.canonical _ _ hentries)
            (hregular.valid _ _ hentries)).sublist List.filter_sublist
        · rw [hselected, List.mem_filter, hvisits.mem_iff hregular]
          refine ⟨fun hv ↦ ⟨hdepth, entries, hentries, hv⟩, ?_⟩
          rintro ⟨-, entries', hentries', hv⟩
          rw [hregular.functional _ _ _ hentries' hentries] at hv
          exact hv
        · rw [if_neg hdepth, ObjectDb.eval_bind, ObjectDb.eval_attempt, hread]
          exact hpages ⟨query, limit, cursor⟩ resume [] rfl (Nat.zero_le _)

private theorem listing_of_full (hcanonical : db.CanonicalTrees gix)
    (hfull : db.eval (listTree gix fuel db.toStoreInfo snapshot ⟨query, bound, none⟩) = .ok full)
    (hend : full.nextCursor = none) : Listing db gix fuel snapshot query full.entries := by
  simp only [listTree, ObjectDb.eval_bind, ObjectDb.eval_ofExcept, Outcome.bind_eq_ok,
    Outcome.ofExcept_eq_ok] at hfull
  obtain ⟨⟨⟩, hcompatible, ⟨⟩, hpath, ⟨⟩, hlimit, resume, hresume, resolved, hresolved, treeOid,
    htree, ⟨items, outcome⟩, hwalk, hclose⟩ := hfull
  obtain rfl := Except.ok.inj hresume
  obtain ⟨rfl, hitems⟩ := closePage_last hclose hend
  obtain ⟨hordered, hmem, hpages⟩ := eval_walkFrom hcanonical hwalk
  rw [hitems]
  refine ⟨sha1_of_compatible hcompatible, hordered, fun path entry ↦ ?_, fun item hitem ↦ ?_,
    fun limit cursor resume hlimit hresume ↦ ?_⟩
  · rw [hmem, Selected]
    constructor
    · rintro ⟨hdepth, entries, hentries, hreaches, hselects⟩
      exact ⟨resolved, treeOid, entries, hresolved, htree, hdepth, hentries, hreaches, hselects⟩
    · rintro ⟨resolved', treeOid', entries, hresolved', htree', hdepth, hentries, hreaches, hselects⟩
      obtain rfl := Outcome.ok.inj (hresolved'.symm.trans hresolved)
      obtain rfl := Except.ok.inj (htree'.symm.trans htree)
      exact ⟨hdepth, entries, hentries, hreaches, hselects⟩
  · have hregular : (db.treeWalk gix (shouldDescend query)).Regular :=
      db.regular_treeWalk hcanonical fun _ _ _ ↦ shouldDescend_tree
    obtain ⟨-, entries, hentries, hreaches, -⟩ := (hmem _).mp (List.mem_map_of_mem hitem)
    obtain ⟨hvalid, rest, hrest, hjoin⟩ :=
      hreaches.valid hregular (hregular.valid _ _ hentries) hpath
    have hitempath : item.path = joinPath query.path rest := hjoin
    have hitemvalid : validatePath item.path = .ok () := hvalid
    rw [hitempath] at hitemvalid ⊢
    exact ⟨joinPath_ne_nil hrest, validateCursorPosition_joinPath hrest hitemvalid⟩
  · simp only [listTree, ObjectDb.eval_bind, ObjectDb.eval_ofExcept, hcompatible, hpath, hlimit,
      hresume, hresolved, htree, hpages, Outcome.ofExcept_ok, Outcome.ok_bind, ensure, ne_eq,
      not_false_eq_true, if_true]

/-! ### Cursors -/

/-- The cursor of a page that ends at a path. -/
def cursorAt (snapshot : Snapshot) (query : TreeQuery) (path : Bytes) : Bytes :=
  Cursor.encode { expected snapshot query with generation := [], position := path }

/-- The bytes of a SHA-1 cursor around its position. -/
def cursorOverhead : ℕ := 39

private theorem length_cursorAt (hsha1 : snapshot.commitOid.kind = .sha1) (path : Bytes) :
    (cursorAt snapshot query path).length = cursorOverhead + path.length := by
  have hdigest := snapshot.commitOid.length_bytes
  rw [hsha1, HashKind.digestLen] at hdigest
  rw [cursorAt, Cursor.length_encode, cursorOverhead, expected, hdigest, List.length_nil]

/-- A position that fits is resumed at. -/
theorem Listing.decodeResume_cursorAt (hlisting : Listing db gix fuel snapshot query all)
    {item : TreeItem} (hitem : item ∈ all) {limit : ℕ}
    (hfits : cursorOverhead + item.path.length ≤ Cursor.maxCursorBytes) :
    decodeResume snapshot ⟨query, limit, some (cursorAt snapshot query item.path)⟩ =
      .ok item.path := by
  have hlen : (cursorAt snapshot query item.path).length ≤ Cursor.maxCursorBytes := by
    rwa [length_cursorAt hlisting.sha1]
  have hdecode : Cursor.decode (cursorAt snapshot query item.path) (expected snapshot query) =
      .ok { expected snapshot query with generation := [], position := item.path } :=
    Cursor.decode_encode_of_le snapshot.commitOid.length_bytes hlen
  simp only [decodeResume, Except.bind_eq_ok]
  exact ⟨_, hdecode, (), rfl, (), (hlisting.position item hitem).2, rfl⟩

private theorem behind_nil (items : List TreeItem) : behind [] items = items := by
  simp [behind]

/-- A walk that ended closes its page with all its items. -/
theorem closePage_complete (items : List TreeItem) :
    closePage snapshot query items (.ok .complete) =
      .ok ⟨items, none, false, ⟨items.length, none⟩⟩ := rfl

/-- A page that stops at its limit is delivered exactly when its last path fits in a cursor. -/
theorem closePage_stopped (hsha1 : snapshot.commitOid.kind = .sha1) {last : TreeItem}
    (hlast : items.getLast? = some last) {page : TreePage} :
    closePage snapshot query items (.ok (.stopped "limit")) = .ok page ↔
      cursorOverhead + last.path.length ≤ Cursor.maxCursorBytes ∧
      page = ⟨items, some (cursorAt snapshot query last.path), true,
        ⟨items.length, some "limit"⟩⟩ := by
  have hcontinuation : continuation snapshot query items "limit" =
      (do
        ensure (cursorOverhead + last.path.length ≤ Cursor.maxCursorBytes)
          (.new .resultTooLarge "tree continuation path exceeds the cursor size limit")
        return cursorAt snapshot query last.path) := by
    have hlen : (cursorAt snapshot query last.path).length = _ := length_cursorAt hsha1 last.path
    rw [← hlen]
    simp only [continuation, hlast]
    rfl
  have hclose : closePage snapshot query items (.ok (.stopped "limit")) =
      (continuation snapshot query items "limit").map fun cursor ↦
        ⟨items, some cursor, true, ⟨items.length, some "limit"⟩⟩ := by
    cases hcursor : continuation snapshot query items "limit" <;>
      simp [closePage, stoppedBy, hcursor, bind, Except.bind, pure, Except.pure, Except.map]
  rw [hclose, hcontinuation, ensure]
  split
  · next hfits => simp [hfits, Except.map, bind, Except.bind, pure, Except.pure, eq_comm]
  · next hfits => simp [hfits, Except.map, bind, Except.bind]

/-! ### Following the cursors -/

/-- No selected path goes on, behind that of a selected tree, with a byte below `/`. -/
def NothingSplits (db : ObjectDb) (gix : Gix) (snapshot : Snapshot) (query : TreeQuery) : Prop :=
  ∀ path tree byte rest entry, Selected db gix snapshot query path tree → tree.kind = .tree →
    Selected db gix snapshot query (path ++ byte :: rest) entry → ¬ byte < 0x2f

/-- Every selected path that a greater one follows fits in a cursor. -/
def PositionsFit (db : ObjectDb) (gix : Gix) (snapshot : Snapshot) (query : TreeQuery) : Prop :=
  ∀ path entry later entry', Selected db gix snapshot query path entry →
    Selected db gix snapshot query later entry' → path < later →
    cursorOverhead + path.length ≤ Cursor.maxCursorBytes

private theorem Listing.selected (hlisting : Listing db gix fuel snapshot query all) {item : TreeItem}
    (hitem : item ∈ all) : Selected db gix snapshot query item.path item.listed.2 :=
  (hlisting.mem_iff _ _).mp (List.mem_map_of_mem hitem)

/-- Where nothing splits, the listing is sorted by path. -/
theorem Listing.sorted (hlisting : Listing db gix fuel snapshot query all)
    (hsplits : NothingSplits db gix snapshot query) :
    all.Pairwise fun item later ↦ item.path < later.path := by
  refine (List.pairwise_map.mp hlisting.ordered).imp_of_mem fun {item later} hitem hlater h ↦ ?_
  rcases lt_of_gitKey_lt h.1 h.2 with hlt | ⟨htree, byte, rest, hpath, hbyte⟩
  · exact hlt
  · have hselected := hlisting.selected hitem
    rw [show item.path = later.path ++ byte :: rest from hpath] at hselected
    exact absurd hbyte (hsplits _ _ _ _ _ (hlisting.selected hlater) htree hselected)

/-- In a listing sorted by path, what is behind an item is what follows it. -/
theorem behind_split {front rest : List TreeItem} {last : TreeItem} (hne : last.path ≠ [])
    (hsorted : (front ++ last :: rest).Pairwise fun item later ↦ item.path < later.path) :
    behind last.path (front ++ last :: rest) = rest := by
  obtain ⟨-, hlast, hcross⟩ := List.pairwise_append.mp hsorted
  have hfront : behind last.path front = [] := by
    refine List.filter_eq_nil_iff.mpr fun item hitem ↦ ?_
    have hlt := hcross item hitem last List.mem_cons_self
    simpa [hne] using List.le_of_lt hlt
  have hself : behind last.path [last] = [] := by simp [behind, hne, List.lt_irrefl]
  have hrest : behind last.path rest = rest := by
    refine List.filter_eq_self.mpr fun item hitem ↦ ?_
    simpa [hne] using (List.pairwise_cons.mp hlast).1 item hitem
  calc behind last.path (front ++ last :: rest)
      = behind last.path front ++ (behind last.path [last] ++ behind last.path rest) := by
        simp only [behind, ← List.filter_append, List.singleton_append]
    _ = rest := by rw [hfront, hself, hrest, List.nil_append, List.nil_append]

/-- What is left to list at a cursor. -/
def Rest (snapshot : Snapshot) (query : TreeQuery) (all : List TreeItem) :
    Option Bytes → List TreeItem → Prop
  | none, rest => rest = all
  | some cursor, rest => ∃ front last, all = front ++ last :: rest ∧ rest ≠ [] ∧
    cursor = cursorAt snapshot query last.path

/-- One page of a sorted listing delivers the first part of what is left. -/
theorem Listing.delivers (hlisting : Listing db gix fuel snapshot query all)
    (hsorted : all.Pairwise fun item later ↦ item.path < later.path)
    (hfit : PositionsFit db gix snapshot query) {cursor : Option Bytes} {rest : List TreeItem}
    {limit : ℕ} (hrest : Rest snapshot query all cursor rest) (hlimit : 1 ≤ limit) :
    ∃ page, db.eval (listTree gix fuel db.toStoreInfo snapshot ⟨query, limit, cursor⟩) = .ok page ∧
      Delivers TreePage.nextCursor TreePage.entries (Rest snapshot query all) rest page := by
  have hfits {front later : List TreeItem} {last next : TreeItem}
      (hall : all = front ++ last :: next :: later) :
      cursorOverhead + last.path.length ≤ Cursor.maxCursorBytes := by
    have hlast : last ∈ all := by simp [hall]
    have hnext : next ∈ all := by simp [hall]
    have hlt : last.path < next.path := by
      rw [hall] at hsorted
      exact (List.pairwise_cons.mp (List.pairwise_append.mp hsorted).2.1).1 _ List.mem_cons_self
    exact hfit _ _ _ _ (hlisting.selected hlast) (hlisting.selected hnext) hlt
  -- Every cursor is decoded, and what is behind its position is what is left.
  obtain ⟨done, resume, hall, hresume, hbehind⟩ : ∃ done resume, all = done ++ rest ∧
      decodeResume snapshot ⟨query, limit, cursor⟩ = .ok resume ∧ behind resume all = rest := by
    cases cursor with
    | none =>
      obtain rfl : rest = all := hrest
      exact ⟨[], [], rfl, rfl, behind_nil rest⟩
    | some cursor =>
      obtain ⟨front, last, hall, hne, rfl⟩ := hrest
      obtain ⟨next, later, rfl⟩ := List.exists_cons_of_ne_nil hne
      have hlast : last ∈ all := by simp [hall]
      refine ⟨front ++ [last], last.path, by simpa using hall,
        hlisting.decodeResume_cursorAt hlast (hfits hall), ?_⟩
      rw [hall] at hsorted ⊢
      exact behind_split (hlisting.position last hlast).1 hsorted
  have hpage := hlisting.page limit cursor resume (by omega) hresume
  rw [hbehind, paged] at hpage
  by_cases hroom : rest.length ≤ limit
  · rw [if_pos hroom, closePage_complete] at hpage
    exact ⟨_, hpage, .last rfl rfl⟩
  · rw [if_neg hroom] at hpage
    have hne : rest.take limit ≠ [] := by
      intro h
      rcases List.take_eq_nil_iff.mp h with h | h
      · omega
      · simp [h] at hroom
    obtain ⟨front, last, hsplit⟩ := (List.eq_nil_or_concat' (rest.take limit)).resolve_left hne
    have hmore : rest.drop limit ≠ [] := fun h ↦ hroom (List.drop_eq_nil_iff.mp h)
    have hlast : (rest.take limit).getLast? = some last := by rw [hsplit, List.getLast?_concat]
    have hrest' : all = (done ++ front) ++ last :: rest.drop limit :=
      calc all = done ++ (rest.take limit ++ rest.drop limit) := by
            rw [hall, List.take_append_drop]
        _ = (done ++ front) ++ last :: rest.drop limit := by simp [hsplit]
    obtain ⟨next, later, hdrop⟩ := List.exists_cons_of_ne_nil hmore
    have hclose : closePage snapshot query (rest.take limit) (.ok (.stopped "limit")) = .ok _ :=
      (closePage_stopped hlisting.sha1 hlast).mpr ⟨hfits (hdrop ▸ hrest'), rfl⟩
    rw [hclose] at hpage
    exact ⟨_, hpage, .more _ (rest.drop limit) rfl (List.take_append_drop _ _).symm hne
      ⟨_, last, hrest', hmore, rfl⟩⟩

section Necessary

variable (hpages : ∀ limits : ℕ → ℕ, (∀ i, 1 ≤ limits i) → ∃ n pages,
  follow (fun cursor limit ↦ db.eval (listTree gix fuel db.toStoreInfo snapshot
      { toTreeQuery := query, limit, cursor }))
    TreePage.nextCursor n limits none = .ok pages ∧ pages.flatMap TreePage.entries = all)

include hpages

/-- Where the pages always make up the listing, a page may end at every item but the last, and
resumes at the next one. -/
theorem Listing.resumes (hlisting : Listing db gix fuel snapshot query all)
    {front rest : List TreeItem} {item next : TreeItem} (hall : all = front ++ item :: next :: rest) :
    cursorOverhead + item.path.length ≤ Cursor.maxCursorBytes ∧ item.path < next.path := by
  -- Two pages: up to the item, and everything behind it.
  have hlong : front.length + 1 < all.length := by simp [hall]
  obtain ⟨n, pages, hfollow, hflat⟩ := hpages
    (fun i ↦ if i = 0 then front.length + 1 else all.length) fun i ↦ by split <;> omega
  have hitem : item ∈ all := by simp [hall]
  cases n with
  | zero => cases hfollow
  | succ n =>
    have hfirst := hlisting.page (front.length + 1) none [] (Nat.succ_ne_zero _) rfl
    have htake : all.take (front.length + 1) = front ++ [item] := by
      simp [hall, List.take_append]
    rw [behind_nil, paged, if_neg (Nat.not_le.mpr hlong), htake] at hfirst
    rw [follow, if_pos rfl, hfirst, Outcome.bind_eq_ok] at hfollow
    obtain ⟨page, hpage, hfollow⟩ := hfollow
    rw [Outcome.ofExcept_eq_ok, closePage_stopped hlisting.sha1 List.getLast?_concat] at hpage
    obtain ⟨hfits, rfl⟩ := hpage
    refine ⟨hfits, ?_⟩
    obtain ⟨later, hlater, hpages⟩ := Outcome.bind_eq_ok.mp hfollow
    obtain rfl := Outcome.ok.inj hpages
    cases n with
    | zero => cases hlater
    | succ n =>
      have hsecond := hlisting.page all.length (some (cursorAt snapshot query item.path)) item.path
        (by omega) (hlisting.decodeResume_cursorAt hitem hfits)
      have hroom : (behind item.path all).length ≤ all.length := List.length_filter_le _ _
      rw [paged, if_pos hroom, closePage_complete, Outcome.ofExcept_ok] at hsecond
      rw [follow, if_neg (Nat.succ_ne_zero 0), hsecond] at hlater
      obtain rfl := Outcome.ok.inj hlater
      have hbehind : behind item.path all = next :: rest := by
        simpa [hall] using hflat
      have hnext : next ∈ behind item.path all := by
        rw [hbehind]
        exact List.mem_cons_self
      simpa [(hlisting.position item hitem).1] using (List.mem_filter.mp hnext).2

private theorem Listing.sorted_of_follow (hlisting : Listing db gix fuel snapshot query all)
    {front rest : List TreeItem} (hall : all = front ++ rest) :
    rest.Pairwise fun item later ↦ item.path < later.path := by
  induction rest generalizing front with
  | nil => exact .nil
  | cons item rest ih =>
    have hall' : all = (front ++ [item]) ++ rest := by simpa using hall
    have hrest := ih hall'
    refine List.pairwise_cons.mpr ⟨fun later hlater ↦ ?_, hrest⟩
    cases rest with
    | nil => cases hlater
    | cons next rest =>
      have hnext := (hlisting.resumes hpages hall).2
      rcases List.mem_cons.mp hlater with rfl | hlater
      · exact hnext
      · exact List.lt_trans hnext ((List.pairwise_cons.mp hrest).1 later hlater)

/-- Where the pages always make up the listing, nothing splits and every position fits. -/
theorem Listing.necessary (hlisting : Listing db gix fuel snapshot query all) :
    NothingSplits db gix snapshot query ∧ PositionsFit db gix snapshot query := by
  have hsorted := hlisting.sorted_of_follow hpages (List.nil_append all).symm
  constructor
  · intro path tree byte rest entry htree hkind hentry hbyte
    obtain ⟨item, hitem, hlisted⟩ := List.mem_map.mp ((hlisting.mem_iff _ _).mpr htree)
    obtain ⟨other, hother, hlisted'⟩ := List.mem_map.mp ((hlisting.mem_iff _ _).mpr hentry)
    have hpath : item.path = path := congrArg Prod.fst hlisted
    have hpath' : other.path = path ++ byte :: rest := congrArg Prod.fst hlisted'
    obtain ⟨front, back, hall⟩ := List.append_of_mem hitem
    have hkeys := List.pairwise_map.mp hlisting.ordered
    rw [hall] at hsorted hother hkeys
    rcases List.mem_append.mp hother with hbefore | hother
    · have hlt := (List.pairwise_append.mp hsorted).2.2 _ hbefore _ List.mem_cons_self
      rw [hpath, hpath'] at hlt
      exact absurd hlt (List.not_lt.mpr List.le_append_left)
    · rcases List.mem_cons.mp hother with rfl | hafter
      · rw [hpath] at hpath'
        simp at hpath'
      · have hlt := ((List.pairwise_cons.mp (List.pairwise_append.mp hkeys).2.1).1 _ hafter).1
        rw [hlisted, hlisted', hkind] at hlt
        exact absurd (gitKey_lt_tree hbyte) (List.lt_asymm hlt)
  · intro path entry later entry' hpath hlater hlt
    obtain ⟨item, hitem, hlisted⟩ := List.mem_map.mp ((hlisting.mem_iff _ _).mpr hpath)
    obtain ⟨other, hother, hlisted'⟩ := List.mem_map.mp ((hlisting.mem_iff _ _).mpr hlater)
    obtain rfl : item.path = path := congrArg Prod.fst hlisted
    obtain rfl : other.path = later := congrArg Prod.fst hlisted'
    obtain ⟨front, back, hall⟩ := List.append_of_mem hitem
    rw [hall] at hother hsorted
    cases back with
    | nil =>
      rcases List.mem_append.mp hother with hbefore | hother
      · have hgt := (List.pairwise_append.mp hsorted).2.2 _ hbefore _ List.mem_cons_self
        exact absurd hgt (List.lt_asymm hlt)
      · rw [List.mem_singleton.mp hother] at hlt
        exact absurd hlt (List.lt_irrefl _)
    | cons next back => exact (hlisting.resumes hpages hall).1

end Necessary

/-- The pages of a listing make it up, for every sequence of limits, exactly when no selected
path goes on behind that of a selected tree with a byte below `/` and every selected path that a
greater one follows fits in a cursor. -/
theorem follow_listTree_iff (hcanonical : db.CanonicalTrees gix)
    (hfull : db.eval (listTree gix fuel db.toStoreInfo snapshot
      { toTreeQuery := query, limit := bound, cursor := none }) = .ok full)
    (hend : full.nextCursor = none) :
    (∀ limits : ℕ → ℕ, (∀ i, 1 ≤ limits i) → ∃ n pages,
      follow (fun cursor limit ↦ db.eval (listTree gix fuel db.toStoreInfo snapshot
          { toTreeQuery := query, limit, cursor }))
        TreePage.nextCursor n limits none = .ok pages ∧
      pages.flatMap TreePage.entries = full.entries) ↔
    NothingSplits db gix snapshot query ∧ PositionsFit db gix snapshot query := by
  have hlisting := listing_of_full hcanonical hfull hend
  refine ⟨fun hpages ↦ hlisting.necessary hpages, fun ⟨hsplits, hfit⟩ limits hlimits ↦ ?_⟩
  have hcall (cursor : Option Bytes) (rest : List TreeItem) (limit : ℕ)
      (hrest : Rest snapshot query full.entries cursor rest) (hlimit : 1 ≤ limit) :=
    hlisting.delivers (hlisting.sorted hsplits) hfit hrest hlimit
  have hstart : Rest snapshot query full.entries none full.entries := rfl
  obtain ⟨pages, hfollow, hflat, -⟩ :=
    follow_delivers hcall hstart hlimits (Nat.lt_succ_self _)
  exact ⟨_, pages, hfollow, hflat⟩

/-! ### A tree that splits -/

/-- A file `foo.txt` and a tree `foo` with a file in it: Git stores the file first. -/
def sampleStore : ObjectDb := .ofFind .sha1 none fun oid ↦ .ok <|
  if oid = sampleId 0xaa then
    some (.tree, sampleTree [("100644", "foo.txt", 1), ("40000", "foo", 0xbb)])
  else if oid = sampleId 0xbb then some (.tree, sampleTree [("100644", "a", 2)])
  else none

/-- The snapshot of the sample. -/
def sampleSnapshot : Snapshot := ⟨sampleId 3, sampleId 0xaa⟩

/-- The sample store has canonical trees. -/
theorem sampleStore_canonical : sampleStore.CanonicalTrees sampleGix := by
  have hdecode : ∀ payload ∈
      [sampleTree [("100644", "foo.txt", 1), ("40000", "foo", 0xbb)],
        sampleTree [("100644", "a", 2)]],
      ∀ entries ∈ (decodeOwnedTreeEntries sampleGix payload .sha1).toOption, Canonical entries := by
    decide +kernel
  intro oid payload entries hfind h
  refine hdecode payload ?_ entries (by rw [show decodeOwnedTreeEntries _ _ .sha1 = _ from h]; rfl)
  have hfind : (if oid = sampleId 0xaa then
      some (ObjectKind.tree, sampleTree [("100644", "foo.txt", 1), ("40000", "foo", 0xbb)])
    else if oid = sampleId 0xbb then some (.tree, sampleTree [("100644", "a", 2)])
    else none) = some (.tree, payload) := Except.ok.inj hfind
  split at hfind
  · obtain rfl := (Prod.mk.inj (Option.some.inj hfind)).2
    exact List.mem_cons_self
  · split at hfind
    · obtain rfl := (Prod.mk.inj (Option.some.inj hfind)).2
      exact List.mem_cons_of_mem _ List.mem_cons_self
    · cases hfind

/-- Pages of one entry over the sample, all kinds listed: the tree `foo` is lost. -/
theorem follow_listTree_loses_tree : ∃ full pages,
    sampleStore.CanonicalTrees sampleGix ∧
    sampleStore.eval (listTree sampleGix 10 sampleStore.toStoreInfo sampleSnapshot
      { recursive := true, limit := 10 }) = .ok full ∧ full.nextCursor = none ∧
    follow (fun cursor limit ↦ sampleStore.eval (listTree sampleGix 10 sampleStore.toStoreInfo
        sampleSnapshot { recursive := true, limit, cursor }))
      TreePage.nextCursor 2 (fun _ ↦ 1) none = .ok pages ∧
    pages.flatMap TreePage.entries ≠ full.entries := by
  have hfull : (sampleStore.eval (listTree sampleGix 10 sampleStore.toStoreInfo sampleSnapshot
      { recursive := true, limit := 10 }) >>= fun full ↦
        .ok (full.entries.map TreeItem.path, full.nextCursor)) =
      .ok (["foo.txt", "foo", "foo/a"].map Bytes.ascii, none) := by
    decide +kernel
  have hpages : (follow (fun cursor limit ↦ sampleStore.eval (listTree sampleGix 10
        sampleStore.toStoreInfo sampleSnapshot { recursive := true, limit, cursor }))
      TreePage.nextCursor 2 (fun _ ↦ 1) none >>= fun pages ↦
        .ok ((pages.flatMap TreePage.entries).map TreeItem.path)) =
      .ok (["foo.txt", "foo/a"].map Bytes.ascii) := by
    decide +kernel
  obtain ⟨full, hfull, hlisted⟩ := Outcome.bind_eq_ok.mp hfull
  obtain ⟨pages, hpages, hflat⟩ := Outcome.bind_eq_ok.mp hpages
  obtain ⟨hlisted, hend⟩ := Prod.mk.inj (Outcome.ok.inj hlisted)
  refine ⟨full, pages, sampleStore_canonical, hfull, hend, hpages, fun h ↦ ?_⟩
  have hlength := congrArg List.length ((congrArg (List.map TreeItem.path) h).trans hlisted)
  rw [Outcome.ok.inj hflat] at hlength
  cases hlength

private theorem sampleStore_selected :
    Selected sampleStore sampleGix sampleSnapshot { recursive := true } (Bytes.ascii "foo")
      ⟨⟨0o40000, Bytes.ascii "foo", sampleId 0xbb⟩, .tree⟩ ∧
    Selected sampleStore sampleGix sampleSnapshot { recursive := true } (Bytes.ascii "foo.txt")
      ⟨⟨0o100644, Bytes.ascii "foo.txt", sampleId 1⟩, .blob⟩ := by
  have hread : sampleStore.eval (readTreeEntries sampleGix sampleStore.toStoreInfo (sampleId 0xaa)) =
      .ok [⟨⟨0o100644, Bytes.ascii "foo.txt", sampleId 1⟩, .blob⟩,
        ⟨⟨0o40000, Bytes.ascii "foo", sampleId 0xbb⟩, .tree⟩] := by
    decide +kernel
  constructor
  · refine ⟨.rootTree (sampleId 0xaa), sampleId 0xaa, _, by rfl, rfl, by decide, hread, ?_, by decide⟩
    exact .entry (List.mem_cons_of_mem _ List.mem_cons_self)
  · refine ⟨.rootTree (sampleId 0xaa), sampleId 0xaa, _, by rfl, rfl, by decide, hread, ?_, by decide⟩
    exact .entry List.mem_cons_self

/-- The sample splits, so its pages do not always make up its listing. -/
theorem follow_listTree_iff_sample : ∃ full,
    sampleStore.eval (listTree sampleGix 10 sampleStore.toStoreInfo sampleSnapshot
      { recursive := true, limit := 10 }) = .ok full ∧ full.nextCursor = none ∧
    ¬ ∀ limits : ℕ → ℕ, (∀ i, 1 ≤ limits i) → ∃ n pages,
      follow (fun cursor limit ↦ sampleStore.eval (listTree sampleGix 10 sampleStore.toStoreInfo
          sampleSnapshot { recursive := true, limit, cursor }))
        TreePage.nextCursor n limits none = .ok pages ∧
      pages.flatMap TreePage.entries = full.entries := by
  have hfull : (sampleStore.eval (listTree sampleGix 10 sampleStore.toStoreInfo sampleSnapshot
      { recursive := true, limit := 10 }) >>= fun full ↦ .ok full.nextCursor) = .ok none := by
    decide +kernel
  obtain ⟨full, hfull, hend⟩ := Outcome.bind_eq_ok.mp hfull
  have hend : full.nextCursor = none := Outcome.ok.inj hend
  refine ⟨full, hfull, hend, fun hpages ↦ ?_⟩
  obtain ⟨hsplits, -⟩ := (follow_listTree_iff sampleStore_canonical hfull hend).mp hpages
  exact hsplits _ _ 0x2e (Bytes.ascii "txt") _ sampleStore_selected.1 rfl sampleStore_selected.2
    (by decide)

end ListTree
end Gitility
