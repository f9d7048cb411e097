import Gitility.Base.Contract
import Gitility.Diff.ExactDiff
import Gitility.Diff.Tracker

/-!
# What rename tracking keeps

Whatever the tracker matches, each of its items is emitted once: alone, or in one rename with another. So what is
listed and what is still waiting are together the changes that were tracked.
-/

namespace Gitility.GixDiff

open Diff
open scoped List

/-! ### Parts of a change -/

/-- The deletion and the addition that a rename stands for. -/
def parts (raw : RawChange) : List RawChange :=
  if raw.status = .renamed then
    [⟨.deleted, raw.oldPath, none, raw.oldOid, none, raw.oldMode, none, none⟩,
      ⟨.added, none, raw.newPath, none, raw.newOid, none, raw.newMode, none⟩]
  else [raw]

/-- What the callback keeps of an item alone. -/
def Item.raw (item : Item) : Option RawChange := normalizeChange (item.change.toRef item.path)

/-- What the callback will keep of the items that are left. -/
def waiting (items : List Item) : List RawChange := (items.filter (¬·.emitted)).filterMap Item.raw

variable {change : Change} {path : Bytes} {raw : RawChange} {items items' : List Item} {item src dest : Item}

private theorem parts_of_normalizeChange (h : normalizeChange (change.toRef path) = some raw) : parts raw = [raw] := by
  cases change with
  | addition | deletion =>
    rw [Change.toRef, normalizeChange] at h
    split at h
    · cases h
    · cases h
      rfl
  | modification previousEntryMode previousOid entryMode oid =>
    rw [Change.toRef, normalizeChange] at h
    split at h
    · cases h
    · cases h
      rw [parts]
      split
      · split at * <;> simp_all
      · rfl

private theorem flatMap_parts_toList (change : Change) (path : Bytes) :
    (normalizeChange (change.toRef path)).toList.flatMap parts = (normalizeChange (change.toRef path)).toList := by
  cases h : normalizeChange (change.toRef path) with
  | none => rfl
  | some raw => simp [parts_of_normalizeChange h]

/-- A rename of two files, or of two directories, stands for the two changes. -/
theorem flatMap_parts_rewriteRef (hsrc : src.change.kind = .deletion) (hdest : dest.change.kind = .addition)
    (hsort : isTree src.change.entryMode ↔ isTree dest.change.entryMode) (diff : Option DiffLineStats) :
    (normalizeChange (rewriteRef src dest diff)).toList.flatMap parts = src.raw.toList ++ dest.raw.toList := by
  obtain ⟨change, path, emitted⟩ := src
  obtain ⟨change', path', emitted'⟩ := dest
  cases change <;> cases hsrc
  cases change' <;> cases hdest
  rename_i entryMode oid relation entryMode' oid' relation'
  by_cases htree : isTree entryMode
  · have htree' : isTree entryMode' := hsort.mp htree
    simp [rewriteRef, normalizeChange, Item.raw, Change.toRef, Change.entryMode, htree, htree']
  · have htree' : ¬isTree entryMode' := fun h ↦ htree (hsort.mpr h)
    simp [rewriteRef, normalizeChange, Item.raw, Change.toRef, Change.entryMode, Change.id, htree, htree', parts]

/-! ### Marks -/

private theorem waiting_perm (h : items ~ items') : waiting items ~ waiting items' := (h.filter _).filterMap _

private theorem waiting_cons (item : Item) (items : List Item) :
    waiting (item :: items) = (if item.emitted then [] else item.raw.toList) ++ waiting items := by
  cases h : item.emitted with
  | true => simp [waiting, h]
  | false =>
    rw [waiting, List.filter_cons_of_pos (by simp [h])]
    cases hraw : item.raw with
    | none => simp [hraw, waiting]
    | some raw => simp [hraw, waiting]

/-- What is marked does not wait any more. -/
theorem waiting_modify {idx : ℕ} (hitem : items[idx]? = some item) (hwaits : item.emitted = false) :
    waiting items ~ item.raw.toList ++ waiting (items.modify idx fun item ↦ { item with emitted := true }) := by
  induction items generalizing idx with
  | nil => cases hitem
  | cons first rest ih =>
    cases idx with
    | zero =>
      obtain rfl : first = item := by simpa using hitem
      rw [List.modify_zero_cons, waiting_cons, waiting_cons, if_neg (by simp [hwaits]), if_pos rfl, List.nil_append]
    | succ idx =>
      rw [List.modify_succ_cons, waiting_cons, waiting_cons]
      calc (if first.emitted then [] else first.raw.toList) ++ waiting rest
        _ ~ (if first.emitted then [] else first.raw.toList) ++ (item.raw.toList ++
            waiting (rest.modify idx fun item ↦ { item with emitted := true })) := (ih hitem).append_left _
        _ ~ item.raw.toList ++ ((if first.emitted then [] else first.raw.toList) ++
            waiting (rest.modify idx fun item ↦ { item with emitted := true })) := by
          rw [← List.append_assoc, ← List.append_assoc]
          exact List.perm_append_comm.append_right _

/-- What is marked keeps its change. -/
theorem exists_of_mem_modify {idx : ℕ}
    (h : item ∈ items.modify idx fun item ↦ { item with emitted := true }) :
    ∃ original ∈ items, item.change = original.change := by
  obtain ⟨i, hi⟩ := List.mem_iff_getElem?.mp h
  rw [List.getElem?_modify] at hi
  obtain ⟨original, horiginal, rfl⟩ := Option.map_eq_some_iff.mp hi
  refine ⟨original, List.mem_iff_getElem?.mpr ⟨i, horiginal⟩, ?_⟩
  split <;> rfl

/-- Two items that are marked do not wait any more. -/
theorem waiting_markEmitted {tracker : Tracker} {srcIdx destIdx : ℕ} (hne : srcIdx ≠ destIdx)
    (hsrc : tracker.items[srcIdx]? = some src) (hdest : tracker.items[destIdx]? = some dest)
    (hsrcWaits : src.emitted = false) (hdestWaits : dest.emitted = false) :
    waiting tracker.items ~
      src.raw.toList ++ dest.raw.toList ++ waiting ((tracker.markEmitted destIdx).markEmitted srcIdx).items := by
  have hsrc' : (tracker.items.modify destIdx fun item ↦ { item with emitted := true })[srcIdx]? = some src := by
    simp [hne.symm, hsrc]
  calc waiting tracker.items
    _ ~ dest.raw.toList ++ waiting (tracker.items.modify destIdx fun item ↦ { item with emitted := true }) :=
      waiting_modify hdest hdestWaits
    _ ~ dest.raw.toList ++ (src.raw.toList ++ waiting ((tracker.markEmitted destIdx).markEmitted srcIdx).items) :=
      (waiting_modify hsrc' hsrcWaits).append_left _
    _ ~ _ := by
      rw [← List.append_assoc]
      exact List.perm_append_comm.append_right _

/-! ### Items -/

/-- What the walk tells of an item: the side of its relation, and that trees and files have IDs of their own. -/
structure Item.Tracked (deleted : ℕ → Bool) (trees : Oid → Prop) (item : Item) : Prop where
  sided : ∃ bound, item.change.Sided deleted bound
  sort : isTree item.change.entryMode ↔ trees item.change.id
  kind : item.change.kind ≠ .modification

variable {deleted : ℕ → Bool} {trees : Oid → Prop} {relation : Relation}

/-- The relation of a deletion belongs to deletions. -/
theorem Item.Tracked.deleted_of_deletion (h : item.Tracked deleted trees) (hkind : item.change.kind = .deletion)
    (hrelation : item.change.relation = some relation) : deleted relation.id = true := by
  obtain ⟨bound, hsided⟩ := h.sided
  obtain ⟨change, path, emitted⟩ := item
  cases change <;> cases hkind
  exact (hsided.1 relation hrelation).2

private theorem Item.Tracked.added_of_addition (h : item.Tracked deleted trees) (hkind : item.change.kind = .addition)
    (hrelation : item.change.relation = some relation) : deleted relation.id = false := by
  obtain ⟨bound, hsided⟩ := h.sided
  obtain ⟨change, path, emitted⟩ := item
  cases change <;> cases hkind
  exact (hsided.1 relation hrelation).2

/-- An item with a relation of deletions is one. -/
theorem Item.Tracked.kind_of_deleted (h : item.Tracked deleted trees)
    (hrelation : item.change.relation = some relation) (hdeleted : deleted relation.id = true) :
    item.change.kind = .deletion := by
  cases hkind : item.change.kind with
  | deletion => rfl
  | modification => exact absurd hkind h.kind
  | addition =>
    rw [h.added_of_addition hkind hrelation] at hdeleted
    cases hdeleted

private theorem Item.Tracked.kind_of_added (h : item.Tracked deleted trees)
    (hrelation : item.change.relation = some relation) (hadded : deleted relation.id = false) :
    item.change.kind = .addition := by
  cases hkind : item.change.kind with
  | addition => rfl
  | modification => exact absurd hkind h.kind
  | deletion =>
    rw [h.deleted_of_deletion hkind hrelation] at hadded
    cases hadded

/-- A relation starts in a directory. -/
theorem Item.Tracked.isTree_of_parent {id : ℕ} (h : item.Tracked deleted trees)
    (hrelation : item.change.relation = some (.parent id)) : isTree item.change.entryMode := by
  obtain ⟨bound, hsided⟩ := h.sided
  obtain ⟨change, path, emitted⟩ := item
  cases change with
  | modification => cases hrelation
  | addition | deletion => exact hsided.2.resolve_right fun hinner ↦ hinner id hrelation

/-! ### Trackers -/

/-- What is listed and what waits are the target, as long as nothing was cut off. -/
structure Consistent (deleted : ℕ → Bool) (trees : Oid → Prop) (target : List RawChange) (tracker : Tracker)
    (state : WalkState) : Prop where
  items : ∀ item ∈ tracker.items, item.Tracked deleted trees
  renames : ∀ pair ∈ tracker.childRenames, deleted pair.1 = true ∧ deleted pair.2 = false
  accounts : state.stoppedBy = none → state.changes.flatMap parts ++ waiting tracker.items ~ target

/-- A pair of items that waits to be emitted. -/
structure Pair (items : List Item) (src dest : Item) (srcIdx destIdx : ℕ) : Prop where
  srcAt : items[srcIdx]? = some src
  destAt : items[destIdx]? = some dest
  srcWaits : src.emitted = false
  destWaits : dest.emitted = false
  srcKind : src.change.kind = .deletion
  destKind : dest.change.kind = .addition
  sort : isTree src.change.entryMode ↔ isTree dest.change.entryMode

private theorem Pair.ne {srcIdx destIdx : ℕ} (h : Pair items src dest srcIdx destIdx) : srcIdx ≠ destIdx := by
  rintro rfl
  obtain rfl := Option.some.inj (h.srcAt.symm.trans h.destAt)
  cases h.srcKind.symm.trans h.destKind

/-! ### Steps -/

variable {db : ObjectDb} {maxDiffFiles : ℕ} {σ : Type} {platform : Platform σ} {target : List RawChange}
  {state : WalkState} {emission : Emission σ} {α : Type}

/-- The adapter and the callback of `diff`. -/
def answering (db : ObjectDb) (maxDiffFiles : ℕ) :
    Program.Contract WalkOp WalkOp.Answer TreeDiffError WalkState where
  world op state answer state' := (answer, state') = walkAnswer db maxDiffFiles op state
  inv _ := True

/-- If the program returns, then with this. -/
abbrev Leads (db : ObjectDb) (maxDiffFiles : ℕ) (p : Walking α) (Q : α → WalkState → Prop) (state : WalkState) : Prop :=
  p.Meets (answering db maxDiffFiles) Q (fun _ _ ↦ True) state

/-- Nothing is listed in between, and the walk is not stopped. -/
def Quiet (state state' : WalkState) : Prop := state'.changes = state.changes ∧ state'.stoppedBy = state.stoppedBy

private theorem Consistent.quiet {tracker : Tracker} {state' : WalkState}
    (h : Consistent deleted trees target tracker state) (hquiet : Quiet state state') :
    Consistent deleted trees target tracker state' where
  items := h.items
  renames := h.renames
  accounts hstopped := by
    rw [hquiet.1]
    exact h.accounts (hquiet.2 ▸ hstopped)

/-- Reading objects lists nothing. -/
theorem leads_of_asks {p : Walking α} (hp : p.Asks Reads) : Leads db maxDiffFiles p (fun _ ↦ Quiet state) state := by
  have hgeneral : ∀ s, Quiet state s → Leads db maxDiffFiles p (fun _ ↦ Quiet state) s := by
    induction p with
    | done outcome =>
      intro s hs
      cases outcome with
      | ok a => exact hs
      | error e => trivial
      | diverged => trivial
    | call op k ih =>
      intro s hs answer s' hworld
      obtain ⟨hreads, hrest⟩ := hp
      have hquiet : Quiet s s' := by
        cases op with
        | find oid =>
          obtain ⟨found, adapter, hrun, -⟩ := @eval_tryFind_adapter db s.adapter oid
          simp only [answering, walkAnswer, hrun] at hworld
          cases hworld
          exact ⟨rfl, rfl⟩
        | header oid =>
          obtain ⟨found, adapter, hrun, -⟩ := @eval_tryHeader_adapter db s.adapter oid
          simp only [answering, walkAnswer, hrun] at hworld
          cases hworld
          exact ⟨rfl, rfl⟩
        | change change => exact hreads.elim
      exact ⟨trivial, ih answer (hrest answer) s' ⟨hquiet.1.trans hs.1, hquiet.2.trans hs.2⟩⟩
  exact hgeneral state ⟨rfl, rfl⟩

/-- A change is listed, or the walk is stopped. -/
def Listed (change : ChangeRef) (state : WalkState) (goOn : Bool) (state' : WalkState) : Prop :=
  (goOn ∨ state'.stoppedBy ≠ none) ∧ (state'.stoppedBy = none →
    state.stoppedBy = none ∧ state'.changes = state.changes ++ (normalizeChange change).toList)

private theorem listed_push (maxDiffFiles : Nat) (change : ChangeRef) (state : WalkState) :
    Listed change state (state.push maxDiffFiles change).1 (state.push maxDiffFiles change).2 := by
  rw [WalkState.push]
  cases hraw : normalizeChange change with
  | none => exact ⟨.inl rfl, fun h ↦ ⟨h, by simp [hraw]⟩⟩
  | some raw =>
    dsimp only
    split
    · exact ⟨.inr (by simp), fun h ↦ by cases h⟩
    · exact ⟨.inl rfl, fun h ↦ ⟨h, by simp [hraw]⟩⟩

/-- The callback lists its change. -/
theorem leads_callback (change : ChangeRef) (emission : Emission σ) (state : WalkState) :
    Leads db maxDiffFiles (callback change emission)
      (fun result state' ↦ result.2 = emission ∧ Listed change state result.1 state') state := by
  intro answer state' hworld
  obtain ⟨rfl, rfl⟩ := Prod.mk.inj (hworld : (answer, state') = walkAnswer db maxDiffFiles (.change change) state)
  exact ⟨trivial, rfl, listed_push maxDiffFiles change state⟩

/-- What is listed of a pair is taken from what waits. -/
theorem Consistent.emitted {tracker : Tracker} {srcIdx destIdx : ℕ} {diff : Option DiffLineStats} {goOn : Bool}
    {state' : WalkState} (h : Consistent deleted trees target tracker state)
    (hpair : Pair tracker.items src dest srcIdx destIdx)
    (hlisted : Listed (rewriteRef src dest diff) state goOn state') :
    Consistent deleted trees target ((tracker.markEmitted destIdx).markEmitted srcIdx) state' where
  items item hmem := by
    obtain ⟨marked, hmarked, hsame⟩ := exists_of_mem_modify hmem
    obtain ⟨original, horiginal, hsame'⟩ := exists_of_mem_modify hmarked
    have htracked := h.items original horiginal
    exact ⟨by rw [hsame, hsame']; exact htracked.sided, by rw [hsame, hsame']; exact htracked.sort,
      by rw [hsame, hsame']; exact htracked.kind⟩
  renames := h.renames
  accounts hstopped := by
    obtain ⟨hgoing, hchanges⟩ := hlisted.2 hstopped
    rw [hchanges, List.flatMap_append, flatMap_parts_rewriteRef hpair.srcKind hpair.destKind hpair.sort]
    calc state.changes.flatMap parts ++ (src.raw.toList ++ dest.raw.toList) ++
          waiting ((tracker.markEmitted destIdx).markEmitted srcIdx).items
      _ ~ state.changes.flatMap parts ++ waiting tracker.items := by
        rw [List.append_assoc]
        exact ((waiting_markEmitted hpair.ne hpair.srcAt hpair.destAt hpair.srcWaits hpair.destWaits).symm).append_left _
      _ ~ target := h.accounts hgoing

private theorem leads_emitPair {srcIdx destIdx : ℕ} (diff : Option DiffLineStats)
    (h : Consistent deleted trees target emission.toTracker state)
    (hpair : Pair emission.items src dest srcIdx destIdx) :
    Leads db maxDiffFiles (emitPair src dest srcIdx destIdx diff emission)
      (fun result state' ↦ result.2.toTracker = (emission.markEmitted destIdx).markEmitted srcIdx ∧
        Consistent deleted trees target result.2.toTracker state') state := by
  refine (leads_callback _ emission state).bind ?_ fun _ _ _ ↦ trivial
  rintro ⟨goOn, _⟩ state' ⟨rfl, hlisted⟩
  exact ⟨rfl, h.emitted hpair hlisted⟩

/-! ### Children -/

/-- Pairs that wait to be emitted, whose items are all different. -/
structure Pairs (items : List Item) (pairs : List ((Item × ℕ) × (Item × ℕ))) : Prop where
  pair : ∀ p ∈ pairs, p.1.1.change.id = p.2.1.change.id → Pair items p.1.1 p.2.1 p.1.2 p.2.2
  nodup : pairs.Pairwise fun p p' ↦ p.1.2 ≠ p'.1.2 ∧ p.1.2 ≠ p'.2.2 ∧ p.2.2 ≠ p'.1.2 ∧ p.2.2 ≠ p'.2.2

private theorem leads_emitChildren {pairs : List ((Item × ℕ) × (Item × ℕ))}
    (h : Consistent deleted trees target emission.toTracker state) (hpairs : Pairs emission.items pairs) :
    Leads db maxDiffFiles (emitChildren pairs emission)
      (fun result state' ↦ Consistent deleted trees target result.2.toTracker state') state := by
  induction pairs generalizing emission state with
  | nil => exact h
  | cons p rest ih =>
    obtain ⟨⟨src, srcIdx⟩, ⟨dest, destIdx⟩⟩ := p
    obtain ⟨hne, hnodup⟩ := List.pairwise_cons.mp hpairs.nodup
    rw [emitChildren]
    split
    · next hsame =>
      have hpair := hpairs.pair _ List.mem_cons_self hsame.1
      refine (leads_emitPair none h hpair).bind ?_ fun _ _ _ ↦ trivial
      rintro ⟨goOn, emission'⟩ state' ⟨hmarked, hconsistent⟩
      cases goOn with
      | false => exact hconsistent
      | true =>
        refine ih hconsistent ⟨fun p hp hid ↦ ?_, hnodup⟩
        obtain ⟨hsrc, hsrc', hdest, hdest'⟩ := hne p hp
        have hkept := hpairs.pair p (List.mem_cons_of_mem _ hp) hid
        rw [hmarked]
        exact { hkept with
          srcAt := by simp [Tracker.markEmitted, hsrc, hdest, hkept.srcAt]
          destAt := by simp [Tracker.markEmitted, hsrc', hdest', hkept.destAt] }
    · exact h

/-- Pairs of different elements. -/
theorem pairwise_zip {β : Type} {R : α → α → Prop} {R' : β → β → Prop} {as : List α} {bs : List β}
    (has : as.Pairwise R) (hbs : bs.Pairwise R') :
    (as.zip bs).Pairwise fun p p' ↦ R p.1 p'.1 ∧ R' p.2 p'.2 := by
  induction as generalizing bs with
  | nil => exact List.Pairwise.nil
  | cons a as ih =>
    cases bs with
    | nil => exact List.Pairwise.nil
    | cons b bs =>
      obtain ⟨ha, has⟩ := List.pairwise_cons.mp has
      obtain ⟨hb, hbs⟩ := List.pairwise_cons.mp hbs
      refine List.pairwise_cons.mpr ⟨fun p hp ↦ ?_, ih has hbs⟩
      obtain ⟨hleft, hright⟩ := List.of_mem_zip hp
      exact ⟨ha _ hleft, hb _ hright⟩

private theorem pairwise_zipIdx (items : List Item) : items.zipIdx.Pairwise fun a b ↦ a.2 ≠ b.2 := by
  refine List.pairwise_map.mp ?_
  rw [List.zipIdx_map_snd]
  exact List.nodup_range'

private theorem getElem?_of_mem_zipIdx {a : Item × ℕ} (h : a ∈ items.zipIdx) : items[a.2]? = some a.1 :=
  List.mem_zipIdx_iff_getElem?.mp h

/-- The children of two directories, of which one is deleted and the other added. -/
theorem pairs_children {srcId dstId : ℕ} (h : ∀ item ∈ items, item.Tracked deleted trees)
    (hsrc : deleted srcId = true) (hdst : deleted dstId = false) :
    Pairs items ((items.zipIdx.filter (·.1.isChildOf srcId)).zip
      (items.zipIdx.filter fun a ↦ a.1.isChildOf dstId ∧ ¬a.1.isChildOf srcId)) := by
  have hmem : ∀ p ∈ (items.zipIdx.filter (·.1.isChildOf srcId)).zip
      (items.zipIdx.filter fun a ↦ a.1.isChildOf dstId ∧ ¬a.1.isChildOf srcId),
      (items[p.1.2]? = some p.1.1 ∧ p.1.1.isChildOf srcId) ∧
        items[p.2.2]? = some p.2.1 ∧ p.2.1.isChildOf dstId ∧ ¬p.2.1.isChildOf srcId := by
    intro p hp
    obtain ⟨hl, hr⟩ := List.of_mem_zip hp
    obtain ⟨hl, hchild⟩ := List.mem_filter.mp hl
    obtain ⟨hr, hchild'⟩ := List.mem_filter.mp hr
    exact ⟨⟨getElem?_of_mem_zipIdx hl, hchild⟩, getElem?_of_mem_zipIdx hr, by simpa using hchild'⟩
  constructor
  · intro p hp hid
    obtain ⟨⟨hl, hchild⟩, hr, hchild', -⟩ := hmem p hp
    simp only [Item.isChildOf, decide_eq_true_eq, Bool.not_eq_true] at hchild hchild'
    have htracked := h _ (List.mem_of_getElem? hl)
    have htracked' := h _ (List.mem_of_getElem? hr)
    exact {
      srcAt := hl
      destAt := hr
      srcWaits := hchild.1
      destWaits := hchild'.1
      srcKind := htracked.kind_of_deleted hchild.2 hsrc
      destKind := htracked'.kind_of_added hchild'.2 hdst
      sort := by rw [htracked.sort, htracked'.sort, hid] }
  · have hdifferent := pairwise_zip ((pairwise_zipIdx items).filter (·.1.isChildOf srcId))
      ((pairwise_zipIdx items).filter fun a ↦ a.1.isChildOf dstId ∧ ¬a.1.isChildOf srcId)
    refine hdifferent.imp_of_mem fun {p p'} hp hp' hne ↦ ⟨hne.1, ?_, ?_, hne.2⟩
    · intro heq
      obtain ⟨⟨hl, hchild⟩, -⟩ := hmem p hp
      obtain ⟨-, hr, -, hchild'⟩ := hmem p' hp'
      rw [heq, hr] at hl
      exact hchild' (Option.some.inj hl ▸ hchild)
    · intro heq
      obtain ⟨-, hr, -, hchild'⟩ := hmem p hp
      obtain ⟨⟨hl, hchild⟩, -⟩ := hmem p' hp'
      rw [← heq, hr] at hl
      exact hchild' (Option.some.inj hl ▸ hchild)

private theorem leads_emitChildRenamesMatchingIdentity {srcId dstId : ℕ}
    (h : Consistent deleted trees target emission.toTracker state) (hsrc : deleted srcId = true)
    (hdst : deleted dstId = false) :
    Leads db maxDiffFiles (emitChildRenamesMatchingIdentity srcId dstId emission)
      (fun result state' ↦ Consistent deleted trees target result.2.toTracker state') state :=
  leads_emitChildren h (pairs_children h.items hsrc hdst)

/-! ### Matches -/

/-- A source that fits a destination. -/
def Fits (items : List Item) (dest : Item) : SourceTuple → Prop
  | (srcIdx, src, _) => items[srcIdx]? = some src ∧ src.isSourceForDestinationOf dest.change.entryMode

private theorem fits_findIdentical {destIdx : ℕ} {range : List (Item × ℕ)} {fallback : Option SourceTuple} {checks : ℕ}
    (hrange : ∀ a ∈ range, items[a.2]? = some a.1) (hfallback : ∀ found ∈ fallback, Fits items dest found) :
    ∀ found ∈ (findIdentical dest destIdx range fallback checks).1, Fits items dest found := by
  induction range generalizing fallback checks with
  | nil => exact hfallback
  | cons a rest ih =>
    obtain ⟨src, srcIdx⟩ := a
    have hrest : ∀ a ∈ rest, items[a.2]? = some a.1 := fun a ha ↦ hrange a (List.mem_cons_of_mem _ ha)
    rw [findIdentical]
    split
    · exact ih hrest hfallback
    · next hsource =>
      have hfits : Fits items dest (srcIdx, src, none) :=
        ⟨hrange _ List.mem_cons_self, by simpa using (not_or.mp hsource).2⟩
      split
      · rintro _ ⟨⟩
        exact hfits
      · refine ih hrest fun found hfound ↦ ?_
        rcases Option.or_eq_some_iff.mp hfound with hfound | ⟨-, ⟨⟩⟩
        · exact hfallback found hfound
        · exact hfits

private theorem leads_findSimilar {range : List (Item × ℕ)} {hasNew : Bool} {best : Option (SourceTuple × Bool)} {s : σ}
    {checks : ℕ} (hrange : ∀ a ∈ range, ∀ diff, Fits items dest (a.2, a.1, diff))
    (hbest : ∀ found ∈ best, Fits items dest found.1) :
    Leads db maxDiffFiles (findSimilar platform dest range hasNew best s checks)
      (fun result state' ↦ Quiet state state' ∧ ∀ found ∈ result.1, Fits items dest found) state := by
  induction range generalizing hasNew best s checks state with
  | nil =>
    refine ⟨⟨rfl, rfl⟩, fun found hfound ↦ ?_⟩
    obtain ⟨found', hfound', rfl⟩ := Option.map_eq_some_iff.mp hfound
    exact hbest found' hfound'
  | cons a rest ih =>
    obtain ⟨src, srcIdx⟩ := a
    have hrest : ∀ a ∈ rest, ∀ diff, Fits items dest (a.2, a.1, diff) :=
      fun a ha ↦ hrange a (List.mem_cons_of_mem _ ha)
    have hquiet : ∀ {state₁ state₂ : WalkState}, Quiet state state₁ → Quiet state₁ state₂ → Quiet state state₂ :=
      fun h h' ↦ ⟨h'.1.trans h.1, h'.2.trans h.2⟩
    have hnew : (setDestination platform dest hasNew s).Asks Reads := by
      rw [setDestination]
      split
      · exact Program.asks_pure _
      · exact platform.reads_setResource _ _ _ _ _
    rw [findSimilar]
    refine (leads_of_asks hnew).bind (fun s₁ state₁ h₁ ↦ ?_) fun _ _ _ ↦ trivial
    refine (leads_of_asks (platform.reads_setResource _ _ _ _ _)).bind (fun s₂ state₂ h₂ ↦ ?_) fun _ _ _ ↦ trivial
    refine (leads_of_asks (platform.reads_prepareDiff _)).bind ?_ fun _ _ _ ↦ trivial
    rintro ⟨stats, s₃⟩ state₃ h₃
    have hsame := hquiet (hquiet h₁ h₂) h₃
    have hgo : ∀ {best : Option (SourceTuple × Bool)}, (∀ found ∈ best, Fits items dest found.1) →
        Leads db maxDiffFiles (findSimilar platform dest rest true best s₃ (checks + 1))
          (fun result state' ↦ Quiet state state' ∧ ∀ found ∈ result.1, Fits items dest found) state₃ :=
      fun hbest ↦ (ih hrest hbest).mono (fun _ _ h ↦ ⟨hquiet hsame h.1, h.2⟩) fun _ _ _ ↦ trivial
    cases stats with
    | none => exact hgo hbest
    | some stats =>
      dsimp only
      split
      · refine hgo ?_
        rintro _ ⟨⟩
        exact hrange _ List.mem_cons_self _
      · exact hgo hbest

/-- A match is a source that fits. -/
theorem leads_findMatch (identity : Bool) (items : List Item) (dest : Item) (destIdx : ℕ) (s : σ) (checks : ℕ) :
    Leads db maxDiffFiles (findMatch platform identity items dest destIdx s checks)
      (fun result state' ↦ Quiet state state' ∧ ∀ found ∈ result.1, Fits items dest found) state := by
  rw [findMatch]
  split
  · refine ⟨⟨rfl, rfl⟩, fits_findIdentical (fun a ha ↦ ?_) (by simp)⟩
    exact getElem?_of_mem_zipIdx ((List.dropWhile_sublist _).subset ((List.takeWhile_sublist _).subset ha))
  · split
    · refine leads_findSimilar (fun a ha diff ↦ ?_) (by simp)
      obtain ⟨hmem, hfits⟩ := List.mem_filter.mp ha
      exact ⟨getElem?_of_mem_zipIdx hmem, (of_decide_eq_true hfits).2⟩
    · exact ⟨⟨rfl, rfl⟩, by simp⟩

private theorem entryKind_eq_tree {mode : ℕ} : entryKind mode = .tree ↔ isTree mode := by
  rw [entryKind]
  by_cases htree : isTree mode
  · have hmode : modeType mode = 0o040000 := by simpa [isTree] using htree
    simp [htree, hmode]
  · simp only [htree]
    split <;> [simp; (split <;> simp)]

/-- A destination and a source that fits it. -/
theorem pair_of_fits {destIdx srcIdx : ℕ} {diff : Option DiffLineStats} {parents : Bool}
    (hdest : items[destIdx]? = some dest) (hdestination : dest.isDestination parents)
    (hfits : Fits items dest (srcIdx, src, diff)) : Pair items src dest srcIdx destIdx := by
  obtain ⟨hsrc, hsource⟩ := hfits
  simp only [Item.isDestination, decide_eq_true_eq, Bool.not_eq_true] at hdestination
  simp only [Item.isSourceForDestinationOf, decide_eq_true_eq, Bool.not_eq_true] at hsource
  exact {
    srcAt := hsrc
    destAt := hdest
    srcWaits := hsource.2.1
    destWaits := hdestination.1
    srcKind := hsource.2.2
    destKind := hdestination.2.1
    sort := by rw [← entryKind_eq_tree, ← entryKind_eq_tree, hsource.1] }

/-- A pair of children is remembered. -/
theorem Consistent.insertRename {tracker : Tracker} {srcId dstId : ℕ}
    (h : Consistent deleted trees target tracker state) (hsrc : deleted srcId = true) (hdst : deleted dstId = false) :
    Consistent deleted trees target (tracker.insertRename srcId dstId) state := by
  rw [Tracker.insertRename]
  split
  · exact h
  · refine ⟨h.items, fun pair hpair ↦ ?_, h.accounts⟩
    rcases List.mem_cons.mp ((List.perm_orderedInsert _ _ _).mem_iff.mp hpair) with rfl | hpair
    · exact ⟨hsrc, hdst⟩
    · exact h.renames pair hpair

/-- Whatever is matched is emitted with what it matches. -/
theorem leads_matchEach {identity parents : Bool} {maxChecks checks : ℕ} {indices : List ℕ}
    (h : Consistent deleted trees target emission.toTracker state) :
    Leads db maxDiffFiles (matchEach platform identity parents maxChecks indices checks emission)
      (fun result state' ↦ Consistent deleted trees target result.2.toTracker state') state := by
  induction indices generalizing emission checks state with
  | nil => exact h
  | cons destIdx rest ih =>
    rw [matchEach]
    split
    · exact ih h
    · next dest hdest =>
      obtain ⟨hdest, hdestination⟩ := Option.filter_eq_some_iff.mp hdest
      refine (leads_findMatch identity _ _ _ _ _).bind ?_ fun _ _ _ ↦ trivial
      rintro ⟨found, s, checks'⟩ state₁ ⟨hquiet, hfound⟩
      have h₁ : Consistent deleted trees target ({ emission with platform := s } : Emission σ).toTracker state₁ :=
        h.quiet hquiet
      dsimp only
      split
      · exact h₁
      · cases found with
        | none => exact ih h₁
        | some found =>
          obtain ⟨srcIdx, src, diff⟩ := found
          have hpair := pair_of_fits hdest hdestination (hfound _ rfl)
          have hsrc := h₁.items src (List.mem_of_getElem? hpair.srcAt)
          have hdst := h₁.items dest (List.mem_of_getElem? hpair.destAt)
          refine (leads_emitPair diff h₁ hpair).bind ?_ fun _ _ _ ↦ trivial
          rintro ⟨goOn, emission₂⟩ state₂ ⟨-, h₂⟩
          dsimp only
          split
          · exact h₂
          · split
            · next srcId dstId hrelation hrelation' =>
              refine (leads_emitChildRenamesMatchingIdentity h₂ (hsrc.deleted_of_deletion hpair.srcKind hrelation)
                (hdst.added_of_addition hpair.destKind hrelation')).bind ?_ fun _ _ _ ↦ trivial
              rintro ⟨goOn, emission₃⟩ state₃ h₃
              dsimp only
              split
              · exact h₃
              · exact ih h₃
            · next srcId dstId hrelation hrelation' =>
              exact ih (h₂.insertRename (hsrc.deleted_of_deletion hpair.srcKind hrelation)
                (hdst.added_of_addition hpair.destKind hrelation'))
            · exact ih h₂

private theorem leads_matchPairsOfKind {identity parents : Bool} (h : Consistent deleted trees target emission.toTracker state) :
    Leads db maxDiffFiles (matchPairsOfKind platform identity parents emission)
      (fun emission state' ↦ Consistent deleted trees target emission.toTracker state') state := by
  rw [matchPairsOfKind]
  refine (leads_matchEach h).bind ?_ fun _ _ _ ↦ trivial
  rintro ⟨goOn, emission₁⟩ state₁ h₁
  dsimp only
  split
  · exact h₁
  · split
    · exact h₁
    · exact (leads_matchEach h₁).bind (fun _ _ h₂ ↦ h₂) fun _ _ _ ↦ trivial

/-- Directories of renamed children are emitted. -/
theorem leads_matchRenamedDirectories {pairs : List (ℕ × ℕ)}
    (h : Consistent deleted trees target emission.toTracker state)
    (hpairs : ∀ pair ∈ pairs, deleted pair.1 = true ∧ deleted pair.2 = false) :
    Leads db maxDiffFiles (matchRenamedDirectories pairs emission)
      (fun emission state' ↦ Consistent deleted trees target emission.toTracker state') state := by
  induction pairs generalizing emission state with
  | nil => exact h
  | cons pair rest ih =>
    obtain ⟨deletedId, addedId⟩ := pair
    obtain ⟨hdeleted, hadded⟩ := hpairs _ List.mem_cons_self
    have hrest : ∀ pair ∈ rest, deleted pair.1 = true ∧ deleted pair.2 = false :=
      fun pair hpair ↦ hpairs pair (List.mem_cons_of_mem _ hpair)
    rw [matchRenamedDirectories]
    split
    · next src srcIdx dest destIdx hsrc hdest =>
      have hsrcAt := getElem?_of_mem_zipIdx (List.mem_of_find?_eq_some hsrc)
      have hdestAt := getElem?_of_mem_zipIdx (List.mem_of_find?_eq_some hdest)
      have hparent := List.find?_some hsrc
      have hparent' := List.find?_some hdest
      simp only [Item.isParentOf, decide_eq_true_eq, Bool.not_eq_true] at hparent hparent'
      have htracked := h.items src (List.mem_of_getElem? hsrcAt)
      have htracked' := h.items dest (List.mem_of_getElem? hdestAt)
      have hpair : Pair emission.items src dest srcIdx destIdx := {
        srcAt := hsrcAt
        destAt := hdestAt
        srcWaits := hparent.1
        destWaits := hparent'.1
        srcKind := htracked.kind_of_deleted hparent.2 hdeleted
        destKind := htracked'.kind_of_added hparent'.2 hadded
        sort := iff_of_true (htracked.isTree_of_parent hparent.2) (htracked'.isTree_of_parent hparent'.2) }
      refine (leads_emitPair none h hpair).bind ?_ fun _ _ _ ↦ trivial
      rintro ⟨goOn, emission₁⟩ state₁ ⟨-, h₁⟩
      cases goOn with
      | false => exact h₁
      | true => exact ih h₁ hrest
    · exact ih h hrest

/-! ### The end -/

/-- What is left is emitted alone. -/
theorem leads_emitRest {rest : List Item} (h : state.stoppedBy = none →
      state.changes.flatMap parts ++ rest.filterMap Item.raw ~ target) :
    Leads db maxDiffFiles (emitRest rest emission)
      (fun _ state' ↦ state'.stoppedBy = none → state'.changes.flatMap parts ~ target) state := by
  induction rest generalizing emission state with
  | nil => exact fun hgoing ↦ by simpa using h hgoing
  | cons item rest ih =>
    rw [emitRest]
    refine (leads_callback _ emission state).bind ?_ fun _ _ _ ↦ trivial
    rintro ⟨goOn, _⟩ state₁ ⟨rfl, hgoOn, hlisted⟩
    cases goOn with
    | false => exact fun hgoing ↦ absurd hgoing (hgoOn.resolve_left Bool.false_ne_true)
    | true =>
      refine ih fun hgoing ↦ ?_
      obtain ⟨hbefore, hchanges⟩ := hlisted hgoing
      have hcons : (item :: rest).filterMap Item.raw = item.raw.toList ++ rest.filterMap Item.raw := by
        rw [List.filterMap_cons]
        cases item.raw <;> rfl
      rw [hchanges, List.flatMap_append, flatMap_parts_toList, List.append_assoc]
      have hall := h hbefore
      rwa [hcons] at hall

private theorem leads_emitMatches (h : Consistent deleted trees target emission.toTracker state) :
    Leads db maxDiffFiles (emitMatches platform emission)
      (fun emission state' ↦ Consistent deleted trees target emission.toTracker state') state := by
  rw [emitMatches]
  split
  · have hperm : emission.sortItemsByIdAndLocation.items ~ emission.items := List.mergeSort_perm _ _
    have hsorted : Consistent deleted trees target emission.sortItemsByIdAndLocation state := {
      items := fun item hitem ↦ h.items item (hperm.mem_iff.mp hitem)
      renames := h.renames
      accounts := fun hgoing ↦ ((waiting_perm hperm).append_left _).trans (h.accounts hgoing) }
    refine (leads_matchPairsOfKind hsorted).bind (fun emission₁ state₁ h₁ ↦ ?_) fun _ _ _ ↦ trivial
    refine (leads_matchPairsOfKind h₁).bind (fun emission₂ state₂ h₂ ↦ ?_) fun _ _ _ ↦ trivial
    exact leads_matchRenamedDirectories h₂ h₂.renames
  · exact h

/-- Everything is emitted in the end. -/
theorem leads_emitTracked (h : Consistent deleted trees target emission.toTracker state) :
    Leads db maxDiffFiles (emitTracked platform emission)
      (fun _ state' ↦ state'.stoppedBy = none → state'.changes.flatMap parts ~ target) state := by
  refine (leads_emitMatches h).bind (fun emission₁ state₁ h₁ ↦ leads_emitRest fun hgoing ↦ ?_) fun _ _ _ ↦ trivial
  have hperm : (emission₁.items.mergeSort fun a b ↦ (Ord.compare a.path b.path).isLE) ~ emission₁.items :=
    List.mergeSort_perm _ _
  exact ((waiting_perm hperm).append_left _).trans (h₁.accounts hgoing)

/-! ### The walk -/

private theorem waiting_append (items items' : List Item) : waiting (items ++ items') = waiting items ++ waiting items' := by
  rw [waiting, List.filter_append, List.filterMap_append]
  rfl

/-- A change that is pushed waits. -/
theorem Consistent.pushed {tracker tracker' : Tracker} {done : List RawChange}
    (h : Consistent deleted trees done tracker state) (hpush : tracker.tryPushChange change path = some tracker')
    (hsided : ∃ bound, change.Sided deleted bound)
    (hsort : change.kind ≠ .modification → (isTree change.entryMode ↔ trees change.id)) :
    Consistent deleted trees (done ++ (normalizeChange (change.toRef path)).toList) tracker' state := by
  rw [Tracker.tryPushChange] at hpush
  split at hpush
  · cases hpush
  · next hkind =>
    split at hpush
    · cases hpush
    · cases hpush
      refine ⟨fun item hitem ↦ ?_, h.renames, fun hgoing ↦ ?_⟩
      · rcases List.mem_append.mp hitem with hitem | hitem
        · exact h.items item hitem
        · obtain rfl := List.mem_singleton.mp hitem
          exact ⟨hsided, hsort hkind, hkind⟩
      · have hlast : waiting [⟨change, path, false⟩] = (normalizeChange (change.toRef path)).toList := by
          rw [waiting_cons]
          exact List.append_nil _
        rw [waiting_append, hlast, ← List.append_assoc]
        exact (h.accounts hgoing).append_right _

/-- A change that is refused is listed at once. -/
theorem leads_emit (change : Change) (path : Bytes) (state : WalkState) :
    Leads db maxDiffFiles (emit change path ())
      (fun _ state' ↦ Listed (change.toRef path) state true state') state := by
  intro answer state' hworld
  obtain ⟨rfl, rfl⟩ := Prod.mk.inj
    (hworld : (answer, state') = walkAnswer db maxDiffFiles (.change (change.toRef path)) state)
  obtain ⟨-, hlisted⟩ := listed_push maxDiffFiles (change.toRef path) state
  refine ⟨trivial, ?_⟩
  cases (state.push maxDiffFiles (change.toRef path)).1 with
  | true => exact ⟨.inl rfl, hlisted⟩
  | false => trivial

/-- What is visited is tracked, or listed at once. -/
theorem leads_track {visits : List Visit} {tracker : Tracker} {done : List RawChange}
    (h : Consistent deleted trees done tracker state)
    (hvisits : ∀ v ∈ visits, (∃ bound, v.1.Sided deleted bound) ∧
      (v.1.kind ≠ .modification → (isTree v.1.entryMode ↔ trees v.1.id))) :
    Leads db maxDiffFiles (visitEach track visits tracker)
      (fun tracker state' ↦ Consistent deleted trees (done ++ rawChanges visits) tracker state') state := by
  induction visits generalizing tracker state done with
  | nil =>
    rw [rawChanges, List.filterMap_nil, List.append_nil]
    exact h
  | cons v visits ih =>
    obtain ⟨change, path⟩ := v
    have hrest : ∀ v ∈ visits, (∃ bound, v.1.Sided deleted bound) ∧
        (v.1.kind ≠ .modification → (isTree v.1.entryMode ↔ trees v.1.id)) :=
      fun v hv ↦ hvisits v (List.mem_cons_of_mem _ hv)
    obtain ⟨hsided, hsort⟩ := hvisits _ List.mem_cons_self
    have hcons : done ++ rawChanges ((change, path) :: visits) =
        done ++ (normalizeChange (change.toRef path)).toList ++ rawChanges visits := by
      rw [rawChanges, List.filterMap_cons, List.append_assoc]
      cases normalizeChange (change.toRef path) <;> rfl
    have hvisit : Leads db maxDiffFiles (track change path tracker) (fun tracker state' ↦
        Consistent deleted trees (done ++ (normalizeChange (change.toRef path)).toList) tracker state') state := by
      rw [track]
      cases hpush : tracker.tryPushChange change path with
      | some tracker' => exact h.pushed hpush hsided hsort
      | none =>
        refine (leads_emit change path state).bind (fun _ state' hlisted ↦ ?_) fun _ _ _ ↦ trivial
        refine ⟨h.items, h.renames, fun hgoing ↦ ?_⟩
        obtain ⟨hbefore, hchanges⟩ := hlisted.2 hgoing
        rw [hchanges, List.flatMap_append, flatMap_parts_toList, List.append_assoc]
        calc state.changes.flatMap parts ++ ((normalizeChange (change.toRef path)).toList ++ waiting tracker.items)
          _ ~ state.changes.flatMap parts ++ waiting tracker.items ++ (normalizeChange (change.toRef path)).toList := by
            rw [List.append_assoc]
            exact List.perm_append_comm.append_left _
          _ ~ _ := (h.accounts hbefore).append_right _
    rw [visitEach, hcons]
    exact hvisit.bind (fun tracker state' h' ↦ ih h' hrest) fun _ _ _ ↦ trivial

end Gitility.GixDiff
