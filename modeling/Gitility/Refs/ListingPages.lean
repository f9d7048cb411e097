import Mathlib.Algebra.BigOperators.Group.Finset.Basic
import Mathlib.Algebra.Group.Action.Defs
import Gitility.Base.Pages
import Gitility.Refs.CursorRoundTrip
import Gitility.Refs.Listing

/-!
# Pages of local references

A page looks behind its last reference for the next one, to learn whether there is more. What it finds
malformed on the way lies behind its cursor, so the next page reports it again.
-/

namespace Gitility.LocalRefDb

open RefDb (RefTarget)

variable {db : LocalRefDb} {limit k m : ℕ} {resume namePrefix : Option Bytes} {item last : RefItem}
  {items rest front : List RefItem} {refs : List (Bytes × RefTarget)} {warnings : List RefWarning}

/-! ### Items -/

/-- The name that an item is yielded under. -/
def key (db : LocalRefDb) : RefItem → Bytes
  | .error error => db.errorName error.kind
  | .ok reference => reference.name

/-- A reference with a valid name. -/
def named (db : LocalRefDb) : RefItem → Bool
  | .error _ => false
  | .ok reference => (db.validateFullRefName reference.name).toBool

/-- A well-formed reference, as it is listed. -/
def listed (db : LocalRefDb) : RefItem → Option (Bytes × RefTarget)
  | .error _ => none
  | .ok reference =>
    match db.validateFullRefName reference.name with
    | .error _ => none
    | .ok () => (db.target reference).toOption.map (reference.name, ·)

/-- The warning about an item that is not listed. -/
def warning (db : LocalRefDb) : RefItem → Option RefWarning
  | .error error => some (db.iterationWarning error)
  | .ok reference =>
    match db.validateFullRefName reference.name with
    | .error error => some (db.skipWarning reference.name error)
    | .ok () =>
      match db.target reference with
      | .error error => some (db.skipWarning reference.name error)
      | .ok _ => none

/-- A warning with a known name. -/
abbrev Known (warning : RefWarning) : Bool := warning.name ≠ unknown

/-- The warning about a malformed reference with a known name. -/
def skipped (db : LocalRefDb) (item : RefItem) : Option RefWarning := (db.warning item).filter (Known ·)

/-- Items with a known name come in ascending order of their names. -/
def Ordered (db : LocalRefDb) (items : List RefItem) : Prop :=
  items.Pairwise fun a b ↦ db.key a ≠ unknown → db.key b ≠ unknown → db.key a < db.key b

/-- The unknown name is no reference's. -/
theorem validateFullRefName_unknown (db : LocalRefDb) : ∃ error, db.validateFullRefName unknown = .error error := by
  have hlength : unknown.length ≤ RefDb.maxRefNameBytes := by decide
  have hscope : ¬ ((unknown = Bytes.ascii "HEAD" ∨ (Bytes.ascii "refs/").isPrefixOf unknown) ∧
      db.store.fullName unknown) := by
    intro h
    have hnot : ¬ (unknown = Bytes.ascii "HEAD" ∨ (Bytes.ascii "refs/").isPrefixOf unknown) := by decide
    exact hnot h.1
  rw [validateFullRefName, RefDb.validateFullRefName, ensure, if_pos hlength, ensure, if_neg hscope]
  exact ⟨_, rfl⟩

private theorem listed_eq_some {entry : Bytes × RefTarget} : db.listed item = some entry ↔
    ∃ reference, item = .ok reference ∧ db.validateFullRefName reference.name = .ok () ∧
      db.target reference = .ok entry.2 ∧ entry.1 = reference.name := by
  cases item with
  | error error => simp [listed]
  | ok reference =>
    obtain ⟨name, target⟩ := entry
    rw [listed]
    split
    · next hvalid => simp [hvalid]
    · next hvalid =>
      cases htarget : db.target reference with
      | error error => simp [Except.toOption, htarget]
      | ok target' =>
        simp only [Except.toOption, Option.map_some, Option.some.injEq, Prod.mk.injEq, Except.ok.injEq,
          exists_eq_left', hvalid, htarget]
        constructor
        · rintro ⟨rfl, rfl⟩
          exact ⟨trivial, rfl, rfl⟩
        · rintro ⟨-, rfl, rfl⟩
          exact ⟨rfl, rfl⟩

private theorem named_of_listed {entry : Bytes × RefTarget} (h : db.listed item = some entry) :
    db.named item = true ∧ db.key item = entry.1 ∧ db.skipped item = none := by
  obtain ⟨reference, rfl, hvalid, htarget, hname⟩ := listed_eq_some.mp h
  refine ⟨by simp [named, hvalid, Except.toBool], hname.symm, ?_⟩
  simp [skipped, warning, hvalid, htarget]

/-- A warning with a known name has the name of its item. -/
theorem key_of_skipped {warning : RefWarning} (h : db.skipped item = some warning) :
    warning.name = db.key item ∧ warning.name ≠ unknown := by
  obtain ⟨h, hknown⟩ := Option.filter_eq_some_iff.mp h
  refine ⟨?_, by simpa using hknown⟩
  cases item with
  | error error =>
    cases h
    rfl
  | ok reference =>
    rw [LocalRefDb.warning] at h
    split at h
    · cases h
      rfl
    · split at h
      · cases h
        rfl
      · cases h

private theorem skipped_of_unknown (h : db.key item = unknown) : db.skipped item = none := by
  cases hskipped : db.skipped item with
  | none => rfl
  | some warning =>
    obtain ⟨hname, hknown⟩ := key_of_skipped hskipped
    exact absurd (hname.trans h) hknown

/-- A reference with a valid name, and its name. -/
theorem named_eq_true (h : db.named item = true) :
    ∃ reference, item = .ok reference ∧ db.validateFullRefName reference.name = .ok () ∧
      db.key item ≠ unknown := by
  cases item with
  | error error => cases h
  | ok reference =>
    cases hvalid : db.validateFullRefName reference.name with
    | error error =>
      rw [named, hvalid] at h
      cases h
    | ok _ =>
      refine ⟨reference, rfl, hvalid, fun hunknown ↦ ?_⟩
      obtain ⟨error, herror⟩ := validateFullRefName_unknown db
      have hname : reference.name = unknown := hunknown
      rw [hname, herror] at hvalid
      cases hvalid

private theorem unnamed_of_unknown (h : db.key item = unknown) : db.named item = false := by
  by_contra hnamed
  rw [Bool.not_eq_false] at hnamed
  obtain ⟨-, -, -, hknown⟩ := named_eq_true hnamed
  exact hknown h

/-! ### Where pages end -/

/-- The items behind the first `k` listed ones. -/
def behind (db : LocalRefDb) : ℕ → List RefItem → List RefItem
  | 0, items => items
  | _ + 1, [] => []
  | k + 1, item :: items => behind db (if (db.listed item).isSome then k else k + 1) items

/-- The items up to the first `k` listed ones. -/
def through (db : LocalRefDb) : ℕ → List RefItem → List RefItem
  | 0, _ => []
  | _ + 1, [] => []
  | k + 1, item :: items => item :: through db (if (db.listed item).isSome then k else k + 1) items

/-- The items ahead of the next reference with a valid name. -/
def ahead (db : LocalRefDb) (items : List RefItem) : List RefItem := items.takeWhile (¬ db.named ·)

private theorem through_append_behind (db : LocalRefDb) (k : ℕ) (items : List RefItem) :
    db.through k items ++ db.behind k items = items := by
  induction items generalizing k with
  | nil => cases k <;> rfl
  | cons item items ih =>
    cases k with
    | zero => rfl
    | succ k => rw [through, behind, List.cons_append, ih]

private theorem behind_nil (db : LocalRefDb) (k : ℕ) : db.behind k [] = [] := by
  cases k <;> rfl

private theorem behind_add (db : LocalRefDb) (k m : ℕ) (items : List RefItem) :
    db.behind (k + m) items = db.behind m (db.behind k items) := by
  induction items generalizing k with
  | nil => rw [behind_nil, behind_nil, behind_nil]
  | cons item items ih =>
    cases k with
    | zero => rw [Nat.zero_add, behind]
    | succ k =>
      rw [Nat.add_right_comm, behind, behind, ← ih]
      split
      · rfl
      · rw [Nat.add_right_comm]

private theorem filterMap_through (db : LocalRefDb) (k : ℕ) (items : List RefItem) :
    (db.through k items).filterMap db.listed = (items.filterMap db.listed).take k := by
  induction items generalizing k with
  | nil => cases k <;> rfl
  | cons item items ih =>
    cases k with
    | zero => rfl
    | succ k =>
      rw [through]
      cases hlisted : db.listed item with
      | none => simp [List.filterMap_cons_none hlisted, ih]
      | some entry => simp [List.filterMap_cons_some hlisted, ih]

/-- A page that is followed by something ends with a listed reference. -/
theorem exists_last (h : db.behind (k + 1) items ≠ []) :
    ∃ front last entry, db.through (k + 1) items = front ++ [last] ∧ db.listed last = some entry := by
  induction items generalizing k with
  | nil => exact absurd rfl h
  | cons item items ih =>
    rw [behind] at h
    rw [through]
    cases hlisted : db.listed item with
    | none =>
      rw [hlisted] at h
      obtain ⟨front, last, entry, hthrough, hlast⟩ := ih h
      exact ⟨item :: front, last, entry, by simpa using hthrough, hlast⟩
    | some entry =>
      rw [hlisted] at h
      cases k with
      | zero => exact ⟨[], item, entry, by simp [through], hlisted⟩
      | succ k =>
        obtain ⟨front, last, entry', hthrough, hlast⟩ := ih h
        exact ⟨item :: front, last, entry', by simpa using hthrough, hlast⟩

private theorem length_behind_lt (hk : 1 ≤ k) (h : db.behind k items ≠ []) :
    (db.behind k items).length < items.length := by
  obtain ⟨room, rfl⟩ : ∃ room, k = room + 1 := Nat.exists_eq_succ_of_ne_zero (by omega)
  obtain ⟨front, last, entry, hthrough, -⟩ := exists_last h
  have hlength := congrArg List.length (through_append_behind db (room + 1) items)
  rw [hthrough, List.length_append, List.length_append, List.length_singleton] at hlength
  omega

/-! ### The loop -/

/-- The warnings with a known name. -/
abbrev known (warnings : List RefWarning) : List RefWarning := warnings.filter (Known ·)

/-- The items that a page looks at when `k` more references fit on it. -/
def scanned (db : LocalRefDb) (k : ℕ) (items : List RefItem) : List RefItem :=
  db.through k items ++ db.ahead (db.behind k items)

private theorem listed_of_unnamed (h : db.named item = false) : db.listed item = none := by
  cases hlisted : db.listed item with
  | none => rfl
  | some entry =>
    rw [(named_of_listed hlisted).1] at h
    cases h

/-- An item without a valid name is looked at, and does not count. -/
theorem scanned_of_unnamed (k : ℕ) (items : List RefItem) (h : db.named item = false) :
    db.scanned k (item :: items) = item :: db.scanned k items ∧
      (db.behind k (item :: items)).any db.named = (db.behind k items).any db.named := by
  cases k with
  | zero => simp [scanned, through, behind, ahead, h]
  | succ k => simp [scanned, through, behind, listed_of_unnamed h]

private theorem scanned_succ (db : LocalRefDb) (k : ℕ) (item : RefItem) (items : List RefItem) :
    db.scanned (k + 1) (item :: items) =
      item :: db.scanned (if (db.listed item).isSome then k else k + 1) items := rfl

/-- The next reference with a valid name ends a full page. -/
theorem scanned_zero_of_named (items : List RefItem) (h : db.named item = true) :
    db.scanned 0 (item :: items) = [] ∧ (db.behind 0 (item :: items)).any db.named = true := by
  simp [scanned, through, behind, ahead, h]

/-- A warning that the loop adds is the item's. -/
theorem known_concat {warning : RefWarning} (h : db.warning item = some warning) :
    known (warnings ++ [warning]) = known warnings ++ (db.skipped item).toList := by
  rw [known, List.filter_append, skipped, h]
  by_cases hknown : warning.name = unknown
  · simp [known, Option.filter, hknown]
  · simp [known, Option.filter, hknown]

private theorem not_any_le {name : Bytes} (h : ∀ last ∈ resume, last < name) : resume.any (name ≤ ·) = false := by
  cases resume with
  | none => rfl
  | some last =>
    have hlt := h last rfl
    simpa using hlt

/-- An item without a valid name that the cursor does not cover is reported. -/
theorem collect_of_unnamed (hnamed : db.named item = false)
    (hkey : db.key item ≠ unknown → ∀ last ∈ resume, last < db.key item) :
    ∃ warnings', db.collect limit resume (item :: items) refs warnings =
        db.collect limit resume items refs warnings' ∧
      known warnings' = known warnings ++ (db.skipped item).toList := by
  cases item with
  | error error =>
    refine ⟨warnings ++ [db.iterationWarning error], ?_, known_concat rfl⟩
    have hnew : ¬ (resume.any ((db.iterationWarning error).name ≤ ·) = true ∧
        (db.iterationWarning error).name ≠ unknown) := by
      rintro ⟨hany, hknown⟩
      exact Bool.false_ne_true ((not_any_le (hkey hknown)).symm.trans hany)
    rw [collect, if_neg hnew]
  | ok reference =>
    rw [collect]
    cases hvalid : db.validateFullRefName reference.name with
    | ok _ =>
      rw [named, hvalid] at hnamed
      cases hnamed
    | error error =>
      have hwarning : db.warning (.ok reference) = some (db.skipWarning reference.name error) := by
        rw [warning, hvalid]
      by_cases hany : resume.any (reference.name ≤ ·) = true
      · -- Only the unknown name can be covered.
        have hunknown : reference.name = unknown := by
          by_contra hknown
          exact Bool.false_ne_true ((not_any_le (hkey hknown)).symm.trans hany)
        refine ⟨warnings, by rw [if_pos hany], ?_⟩
        simp [skipped, hwarning, skipWarning, hunknown]
      · exact ⟨_, by rw [if_neg hany], known_concat hwarning⟩

/-- An item that the cursor covers is left out. -/
theorem collect_of_covered {last : Bytes} (hitem : db.key item ≠ unknown → db.key item ≤ last) :
    ∃ warnings', db.collect limit (some last) (item :: items) refs warnings =
        db.collect limit (some last) items refs warnings' ∧ known warnings' = known warnings := by
  by_cases hkey : db.key item = unknown
  · -- What has no known name is reported again.
    obtain ⟨warnings', hcollect, hknown⟩ := collect_of_unnamed (unnamed_of_unknown hkey)
      (fun h ↦ absurd hkey h)
    rw [skipped_of_unknown hkey, Option.toList_none, List.append_nil] at hknown
    exact ⟨warnings', hcollect, hknown⟩
  · cases item with
    | error error =>
      have hreported : (some last).any ((db.iterationWarning error).name ≤ ·) = true ∧
          (db.iterationWarning error).name ≠ unknown := ⟨decide_eq_true (hitem hkey), hkey⟩
      exact ⟨warnings, by rw [collect, if_pos hreported], rfl⟩
    | ok reference =>
      have hcovered : (some last).any (reference.name ≤ ·) = true :=
        decide_eq_true (hitem hkey)
      exact ⟨warnings, by rw [collect, if_pos hcovered], rfl⟩

private theorem collect_of_valid {reference : GixReference}
    (hvalid : db.validateFullRefName reference.name = .ok ())
    (hname : ∀ last ∈ resume, last < reference.name) :
    db.collect limit resume (.ok reference :: items) refs warnings =
      if refs.length = limit then ⟨refs, warnings, true⟩
      else
        match db.target reference with
        | .ok target => db.collect limit resume items (refs ++ [(reference.name, target)]) warnings
        | .error error =>
          db.collect limit resume items refs (warnings ++ [db.skipWarning reference.name error]) := by
  have hnew : ¬ resume.any (reference.name ≤ ·) = true := by simp [not_any_le hname]
  rw [collect, if_neg hnew]
  exact hvalid ▸ rfl

/-- A reference with a valid name that the cursor does not cover ends a full page. -/
theorem collect_of_full {reference : GixReference}
    (hvalid : db.validateFullRefName reference.name = .ok ())
    (hname : ∀ last ∈ resume, last < reference.name) (hfull : refs.length = limit) :
    db.collect limit resume (.ok reference :: items) refs warnings = ⟨refs, warnings, true⟩ := by
  rw [collect_of_valid hvalid hname, if_pos hfull]

/-- Otherwise it is listed. -/
theorem collect_of_target {reference : GixReference} {target : RefTarget}
    (hvalid : db.validateFullRefName reference.name = .ok ())
    (hname : ∀ last ∈ resume, last < reference.name) (hroom : refs.length ≠ limit)
    (htarget : db.target reference = .ok target) :
    db.collect limit resume (.ok reference :: items) refs warnings =
      db.collect limit resume items (refs ++ [(reference.name, target)]) warnings := by
  rw [collect_of_valid hvalid hname, if_neg hroom, htarget]

/-- Without a target it is reported. -/
theorem collect_of_targetError {reference : GixReference} {error : Error}
    (hvalid : db.validateFullRefName reference.name = .ok ())
    (hname : ∀ last ∈ resume, last < reference.name) (hroom : refs.length ≠ limit)
    (htarget : db.target reference = .error error) :
    db.collect limit resume (.ok reference :: items) refs warnings =
      db.collect limit resume items refs (warnings ++ [db.skipWarning reference.name error]) := by
  rw [collect_of_valid hvalid hname, if_neg hroom, htarget]

private theorem filterMap_skipped_cons (db : LocalRefDb) (item : RefItem) (items : List RefItem) :
    (item :: items).filterMap db.skipped = (db.skipped item).toList ++ items.filterMap db.skipped := by
  cases hskipped : db.skipped item with
  | none => rw [List.filterMap_cons_none hskipped, Option.toList_none, List.nil_append]
  | some warning => rw [List.filterMap_cons_some hskipped, Option.toList_some, List.singleton_append]

/-- What a page lists and reports of items that its cursor does not cover. -/
theorem collect_spec (hrefs : refs.length ≤ limit)
    (hbehind : ∀ item ∈ items, db.key item ≠ unknown → ∀ last ∈ resume, last < db.key item) :
    (db.collect limit resume items refs warnings).refs =
        refs ++ (items.filterMap db.listed).take (limit - refs.length) ∧
      known (db.collect limit resume items refs warnings).warnings =
        known warnings ++ (db.scanned (limit - refs.length) items).filterMap db.skipped ∧
      (db.collect limit resume items refs warnings).hasMore =
        (db.behind (limit - refs.length) items).any db.named := by
  induction items generalizing refs warnings with
  | nil => cases h : limit - refs.length <;> simp [collect, scanned, through, behind, ahead]
  | cons item items ih =>
    obtain ⟨hitem, hitems⟩ := List.forall_mem_cons.mp hbehind
    by_cases hnamed : db.named item = true
    · obtain ⟨reference, rfl, hvalid, hknown⟩ := named_eq_true hnamed
      by_cases hfull : refs.length = limit
      · obtain ⟨hscanned, hmore⟩ := scanned_zero_of_named items hnamed
        rw [collect_of_full hvalid (hitem hknown) hfull, hfull, Nat.sub_self, hscanned, hmore]
        simp
      · obtain ⟨room, hroom⟩ : ∃ room, limit - refs.length = room + 1 :=
          Nat.exists_eq_succ_of_ne_zero (by omega)
        rw [hroom, scanned_succ, behind]
        cases htarget : db.target reference with
        | error error =>
          have hlisted : db.listed (.ok reference) = none := by
            simp [listed, hvalid, htarget, Except.toOption]
          have hwarning : db.warning (.ok reference) = some (db.skipWarning reference.name error) := by
            simp [warning, hvalid, htarget]
          obtain ⟨hlist, hreport, hend⟩ := ih hrefs hitems
          rw [hroom] at hlist hreport hend
          rw [collect_of_targetError hvalid (hitem hknown) hfull htarget, hlist, hreport, hend, hlisted,
            known_concat hwarning, List.filterMap_cons_none hlisted,
            filterMap_skipped_cons, List.append_assoc]
          exact ⟨rfl, rfl, rfl⟩
        | ok target =>
          have hlisted : db.listed (.ok reference) = some (reference.name, target) := by
            simp [listed, hvalid, htarget, Except.toOption]
          have hlength : (refs ++ [(reference.name, target)]).length = refs.length + 1 := by simp
          have hfits : (refs ++ [(reference.name, target)]).length ≤ limit := by omega
          obtain ⟨hlist, hreport, hend⟩ := ih hfits hitems
          rw [hlength, show limit - (refs.length + 1) = room by omega] at hlist hreport hend
          rw [collect_of_target hvalid (hitem hknown) hfull htarget, hlist, hreport, hend, hlisted,
            List.filterMap_cons_some hlisted, filterMap_skipped_cons,
            (named_of_listed hlisted).2.2]
          exact ⟨by simp, rfl, rfl⟩
    · rw [Bool.not_eq_true] at hnamed
      obtain ⟨hscanned, hmore⟩ := scanned_of_unnamed (limit - refs.length) items hnamed
      obtain ⟨warnings', hcollect, hknown⟩ := collect_of_unnamed hnamed hitem
      obtain ⟨hlist, hreport, hend⟩ := ih hrefs hitems
      rw [hcollect, hscanned, hmore, hlist, hreport, hknown, hend,
        List.filterMap_cons_none (listed_of_unnamed hnamed)]
      exact ⟨rfl, by rw [filterMap_skipped_cons, List.append_assoc], rfl⟩

/-- An empty page takes references and warnings up to its end. -/
theorem collect_fresh (limit : ℕ) (warnings : List RefWarning)
    (hbehind : ∀ item ∈ items, db.key item ≠ unknown → ∀ last ∈ resume, last < db.key item) :
    (db.collect limit resume items [] warnings).refs = (items.filterMap db.listed).take limit ∧
      known (db.collect limit resume items [] warnings).warnings =
        known warnings ++ (db.scanned limit items).filterMap db.skipped ∧
      (db.collect limit resume items [] warnings).hasMore = (db.behind limit items).any db.named :=
  collect_spec (Nat.zero_le limit) hbehind

private theorem collect_front {last : Bytes} (hfront : ∀ item ∈ front, db.key item ≠ unknown → db.key item ≤ last) :
    ∃ warnings', db.collect limit (some last) (front ++ rest) refs warnings =
        db.collect limit (some last) rest refs warnings' ∧ known warnings' = known warnings := by
  induction front generalizing warnings with
  | nil => exact ⟨warnings, rfl, rfl⟩
  | cons item front ih =>
    obtain ⟨hitem, hfront⟩ := List.forall_mem_cons.mp hfront
    obtain ⟨covered, hcovered, hknown⟩ := collect_of_covered hitem
    obtain ⟨warnings', hcollect, hknown'⟩ := ih hfront
    exact ⟨warnings', hcovered.trans hcollect, hknown'.trans hknown⟩

/-! ### Pages -/

/-- What a cursor leaves to list: the items behind the reference that it names. -/
def Stands (db : LocalRefDb) (namePrefix : Option Bytes) (items : List RefItem) :
    Option Bytes → List RefItem → Prop
  | none, rest => rest = items
  | some cursor, rest => ∃ front last entry, items = front ++ last :: rest ∧ db.listed last = some entry ∧
      RefCursor.decodeRefCursor db.store cursor db.hash (refQueryFingerprint namePrefix) = .ok entry.1

/-- The loop of a call with a cursor collects from what is left at the cursor. -/
theorem collect_of_stands {cursor : Option Bytes} (limit : ℕ) (hordered : db.Ordered items)
    (hrest : db.Stands namePrefix items cursor rest) :
    ∃ resume, (cursor.mapM fun encoded ↦ RefCursor.decodeRefCursor db.store encoded db.hash
        (refQueryFingerprint namePrefix)) = .ok resume ∧
      (db.collect limit resume items [] []).refs = (rest.filterMap db.listed).take limit ∧
      known (db.collect limit resume items [] []).warnings = (db.scanned limit rest).filterMap db.skipped ∧
      (db.collect limit resume items [] []).hasMore = (db.behind limit rest).any db.named := by
  cases cursor with
  | none =>
    obtain rfl : rest = items := hrest
    exact ⟨none, rfl, collect_fresh limit [] fun _ _ _ _ h ↦ by cases h⟩
  | some cursor =>
    obtain ⟨front, last, entry, rfl, hlast, hdecode⟩ := hrest
    obtain ⟨hnamed, hkey, -⟩ := named_of_listed hlast
    obtain ⟨-, -, -, hknown⟩ := named_eq_true hnamed
    obtain ⟨-, hbehind, hahead⟩ := List.pairwise_append.mp hordered
    have hcovered : ∀ item ∈ front ++ [last], db.key item ≠ unknown → db.key item ≤ entry.1 := by
      intro item hitem hitemKnown
      rw [← hkey]
      rcases List.mem_append.mp hitem with hitem | hitem
      · exact List.le_of_lt (hahead item hitem last List.mem_cons_self hitemKnown hknown)
      · rw [List.mem_singleton.mp hitem]
        exact List.le_refl _
    have hleft : ∀ item ∈ rest, db.key item ≠ unknown → ∀ name ∈ some entry.1, name < db.key item := by
      intro item hitem hitemKnown name hname
      obtain rfl := Option.some.inj hname
      rw [← hkey]
      exact (List.pairwise_cons.mp hbehind).1 item hitem hknown hitemKnown
    refine ⟨some entry.1, by rw [Option.mapM_some, hdecode]; rfl, ?_⟩
    obtain ⟨warnings, hcollect, hwarnings⟩ : ∃ warnings, db.collect limit (some entry.1)
        (front ++ [last] ++ rest) [] [] = db.collect limit (some entry.1) rest [] warnings ∧
          known warnings = known [] := collect_front hcovered
    obtain ⟨hlist, hreport, hend⟩ := collect_fresh limit warnings hleft
    rw [List.append_cons, hcollect, hlist, hreport, hend, hwarnings]
    exact ⟨rfl, rfl, rfl⟩

private theorem valid_of_listed {entry : Bytes × RefTarget} (h : db.listed item = some entry) :
    RefDb.validateFullRefName db.store entry.1 = .ok () ∧ db.store.fullName entry.1 = true := by
  obtain ⟨reference, -, hvalid, -, hname⟩ := listed_eq_some.mp h
  rw [validateFullRefName, ← hname] at hvalid
  refine ⟨hvalid, ?_⟩
  simp only [RefDb.validateFullRefName, Except.bind_eq_ok, ensure_eq_ok, exists_const] at hvalid
  exact hvalid.2.2

/-- A page lists the next references, reports what it looked at, and leaves what lies behind its last
reference. -/
theorem list_page {cursor : Option Bytes}
    (hnames : ∀ name, db.store.fullName name = true → ∀ byte ∈ name, RefCursor.GitRefByte byte)
    (hitems : db.overlay namePrefix = .ok items) (hordered : db.Ordered items) (hlimit : 1 ≤ limit)
    (hrest : db.Stands namePrefix items cursor rest) :
    ∃ page, db.list ⟨namePrefix, limit, cursor⟩ = .ok page ∧
      page.refs = (rest.filterMap db.listed).take limit ∧
      known page.warnings = (db.scanned limit rest).filterMap db.skipped ∧
      ((page.nextCursor = none ∧ (db.behind limit rest).any db.named = false) ∨
        ∃ next, page.nextCursor = some next ∧ (db.behind limit rest).any db.named = true ∧
          db.Stands namePrefix items (some next) (db.behind limit rest)) := by
  obtain ⟨resume, hresume, hlist, hreport, hend⟩ := collect_of_stands limit hordered hrest
  have hpage {next : Option Bytes} (hnext : db.continuation (refQueryFingerprint namePrefix)
      (db.collect limit resume items [] []) = .ok next) : db.list ⟨namePrefix, limit, cursor⟩ =
        .ok ⟨(db.collect limit resume items [] []).refs, next,
          (db.collect limit resume items [] []).hasMore,
          (db.collect limit resume items [] []).warnings⟩ := by
    have hpos : limit ≠ 0 := Nat.ne_of_gt hlimit
    simp only [list, ensure, if_pos hpos, Outcome.ofExcept_ok, Outcome.ok_bind, hresume, hitems, hnext]
    rfl
  cases hmore : (db.behind limit rest).any db.named with
  | false =>
    have hnone : db.continuation (refQueryFingerprint namePrefix) (db.collect limit resume items [] []) =
        .ok none := by
      rw [continuation, hend, hmore]
      rfl
    exact ⟨_, hpage hnone, hlist, hreport, .inl ⟨rfl, rfl⟩⟩
  | true =>
    obtain ⟨room, rfl⟩ : ∃ room, limit = room + 1 := Nat.exists_eq_succ_of_ne_zero (by omega)
    have hbehind : db.behind (room + 1) rest ≠ [] := by
      intro hnil
      rw [hnil] at hmore
      cases hmore
    obtain ⟨front, last, entry, hthrough, hlast⟩ := exists_last hbehind
    have hrefs : (db.collect (room + 1) resume items [] []).refs.getLast? = some entry := by
      rw [hlist, ← filterMap_through, hthrough, List.filterMap_append, List.filterMap_cons_some hlast]
      simp
    obtain ⟨hvalid, hname⟩ := valid_of_listed hlast
    obtain ⟨next, hencode, -, hdecode⟩ := RefCursor.exists_encodeRefCursor db.hash
      (refQueryFingerprint namePrefix) hvalid (hnames _ hname)
    have hnext : db.continuation (refQueryFingerprint namePrefix)
        (db.collect (room + 1) resume items [] []) = .ok (some next) := by
      rw [continuation, hend, hmore, hrefs]
      simp [hencode]
    refine ⟨_, hpage hnext, hlist, hreport, .inr ⟨next, rfl, rfl, ?_⟩⟩
    -- What was left is split behind the last reference of the page.
    have hsplit : rest = front ++ last :: db.behind (room + 1) rest := by
      conv_lhs => rw [← through_append_behind db (room + 1) rest, hthrough, ← List.append_cons]
    cases cursor with
    | none =>
      obtain rfl : rest = items := hrest
      exact ⟨front, last, entry, hsplit, hlast, hdecode⟩
    | some cursor =>
      obtain ⟨before, start, entry', hbefore, -⟩ := hrest
      refine ⟨before ++ start :: front, last, entry, ?_, hlast, hdecode⟩
      rw [hbefore, List.append_assoc, List.cons_append, ← hsplit]

/-! ### Following the cursors -/

private theorem Stands.ordered {cursor : Option Bytes} (hordered : db.Ordered items)
    (hrest : db.Stands namePrefix items cursor rest) : db.Ordered rest := by
  cases cursor with
  | none =>
    obtain rfl : rest = items := hrest
    exact hordered
  | some cursor =>
    obtain ⟨front, last, entry, rfl, -⟩ := hrest
    exact (List.pairwise_cons.mp (List.pairwise_append.mp hordered).2.1).2

/-- Warnings with known names differ. -/
theorem nodup_skipped (hordered : db.Ordered items) : (items.filterMap db.skipped).Nodup := by
  refine List.Pairwise.filterMap db.skipped (fun a b hab w hw w' hw' heq ↦ ?_) hordered
  obtain ⟨hname, hknown⟩ := key_of_skipped hw
  obtain ⟨hname', hknown'⟩ := key_of_skipped hw'
  have hlt := hab (hname ▸ hknown) (hname' ▸ hknown')
  rw [← hname, ← hname', heq] at hlt
  exact List.lt_irrefl _ hlt

private theorem filterMap_listed_of_unnamed (h : items.any db.named = false) : items.filterMap db.listed = [] := by
  rw [List.any_eq_false] at h
  refine List.filterMap_eq_nil_iff.mpr fun item hitem ↦ ?_
  exact listed_of_unnamed (by simpa using h item hitem)

/-- Nothing that is skipped with a known name lies ahead of the next reference with a valid name. -/
def Quiet (db : LocalRefDb) (items : List RefItem) : Prop :=
  items.any db.named = true → ∀ item ∈ db.ahead items, db.skipped item = none

private theorem quiet_behind_of_unnamed (h : items.any db.named = false) (k : ℕ) :
    db.Quiet (db.behind k items) := by
  intro hany
  obtain ⟨item, hitem, hnamed⟩ := List.any_eq_true.mp hany
  have hmem : item ∈ items := by
    rw [← through_append_behind db k items]
    exact List.mem_append_right _ hitem
  rw [List.any_eq_true.mpr ⟨item, hmem, hnamed⟩] at h
  cases h

/-- The pages list what is left, and every warning is in one page exactly when no page looks at one that
lies behind it. -/
structure Pages (db : LocalRefDb) (limits : ℕ → ℕ) (rest : List RefItem) (pages : List RefPage) : Prop where
  refs : pages.flatMap RefPage.refs = rest.filterMap db.listed
  skipped : ∀ page ∈ pages, ∀ w ∈ known page.warnings, w ∈ rest.filterMap db.skipped
  reported : ∀ w ∈ rest.filterMap db.skipped, ∃ page ∈ pages, w ∈ known page.warnings
  once : (∀ w ∈ rest.filterMap db.skipped, (pages.map (known ·.warnings)).countP (w ∈ ·) = 1) ↔
    ∀ i, db.Quiet (db.behind (∑ j ∈ Finset.range (i + 1), limits j) rest)

variable {limits : ℕ → ℕ} {page : RefPage} {pages : List RefPage}

/-- The last page. -/
theorem Pages.single (hrefs : page.refs = (rest.filterMap db.listed).take (limits 0))
    (hwarnings : known page.warnings = (db.scanned (limits 0) rest).filterMap db.skipped)
    (hend : (db.behind (limits 0) rest).any db.named = false) : db.Pages limits rest [page] := by
  have hrest := through_append_behind db (limits 0) rest
  have hall : db.scanned (limits 0) rest = rest := by
    have hahead : db.ahead (db.behind (limits 0) rest) = db.behind (limits 0) rest := by
      rw [ahead, List.takeWhile_eq_self_iff]
      intro item hitem
      simpa using List.any_eq_false.mp hend item hitem
    rw [scanned, hahead, hrest]
  rw [hall] at hwarnings
  refine ⟨?_, ?_, ?_, ?_⟩
  · have hlisted : rest.filterMap db.listed = (rest.filterMap db.listed).take (limits 0) := by
      conv_lhs => rw [← hrest, List.filterMap_append, filterMap_listed_of_unnamed hend, List.append_nil,
        filterMap_through]
    rw [List.flatMap_singleton, hrefs, ← hlisted]
  · intro page' hpage w hw
    rw [List.mem_singleton.mp hpage, hwarnings] at hw
    exact hw
  · exact fun w hw ↦ ⟨page, List.mem_singleton_self _, hwarnings ▸ hw⟩
  · refine iff_of_true (fun w hw ↦ ?_) fun i ↦ ?_
    · rw [List.map_singleton, hwarnings, List.countP_singleton, if_pos (by simpa using hw)]
    · rw [Finset.sum_range_succ', Nat.add_comm, behind_add]
      exact quiet_behind_of_unnamed hend _

/-- A page ahead of others. -/
theorem Pages.cons (hordered : db.Ordered rest)
    (hrefs : page.refs = (rest.filterMap db.listed).take (limits 0))
    (hwarnings : known page.warnings = (db.scanned (limits 0) rest).filterMap db.skipped)
    (hend : (db.behind (limits 0) rest).any db.named = true)
    (hpages : db.Pages (fun i ↦ limits (i + 1)) (db.behind (limits 0) rest) pages) :
    db.Pages limits rest (page :: pages) := by
  have hrest := through_append_behind db (limits 0) rest
  have hbehind : db.behind (limits 0) rest = db.ahead (db.behind (limits 0) rest) ++
      (db.behind (limits 0) rest).dropWhile (¬ db.named ·) := (List.takeWhile_append_dropWhile).symm
  have hskipped : rest.filterMap db.skipped = (db.through (limits 0) rest).filterMap db.skipped ++
      (db.behind (limits 0) rest).filterMap db.skipped := by
    conv_lhs => rw [← hrest, List.filterMap_append]
  have hsplit : (db.behind (limits 0) rest).filterMap db.skipped =
      (db.ahead (db.behind (limits 0) rest)).filterMap db.skipped ++
        ((db.behind (limits 0) rest).dropWhile (¬ db.named ·)).filterMap db.skipped := by
    conv_lhs => rw [hbehind, List.filterMap_append]
  rw [scanned, List.filterMap_append] at hwarnings
  refine ⟨?_, ?_, ?_, ?_⟩
  · rw [List.flatMap_cons, hrefs, hpages.refs, ← filterMap_through, ← List.filterMap_append, hrest]
  · intro page' hpage w hw
    rw [hskipped]
    rcases List.mem_cons.mp hpage with rfl | hpage
    · rw [hwarnings] at hw
      rcases List.mem_append.mp hw with hw | hw
      · exact List.mem_append_left _ hw
      · rw [hsplit]
        exact List.mem_append_right _ (List.mem_append_left _ hw)
    · exact List.mem_append_right _ (hpages.skipped page' hpage w hw)
  · intro w hw
    rw [hskipped] at hw
    rcases List.mem_append.mp hw with hw | hw
    · refine ⟨page, List.mem_cons_self, ?_⟩
      rw [hwarnings]
      exact List.mem_append_left _ hw
    · obtain ⟨page', hpage, hmem⟩ := hpages.reported w hw
      exact ⟨page', List.mem_cons_of_mem _ hpage, hmem⟩
  · have hnodup := nodup_skipped hordered
    rw [hskipped, hsplit] at hnodup
    have hlater : ∀ reports ∈ pages.map (known ·.warnings), ∀ w ∈ reports,
        w ∈ (db.ahead (db.behind (limits 0) rest)).filterMap db.skipped ++
          ((db.behind (limits 0) rest).dropWhile (¬ db.named ·)).filterMap db.skipped := by
      rw [← hsplit]
      exact List.forall_mem_map.mpr hpages.skipped
    have hall : ∀ w ∈ (db.ahead (db.behind (limits 0) rest)).filterMap db.skipped ++
        ((db.behind (limits 0) rest).dropWhile (¬ db.named ·)).filterMap db.skipped,
        ∃ reports ∈ pages.map (known ·.warnings), w ∈ reports := by
      rw [← hsplit]
      intro w hw
      obtain ⟨page', hpage, hmem⟩ := hpages.reported w hw
      exact ⟨_, List.mem_map_of_mem hpage, hmem⟩
    have honce := once_iff hnodup hlater hall
    rw [← hsplit, hpages.once] at honce
    rw [List.map_cons, hwarnings, hskipped, honce]
    refine (and_congr ?_ (forall_congr' fun i ↦ ?_)).trans (Nat.and_forall_add_one
      (p := fun i ↦ db.Quiet (db.behind (∑ j ∈ Finset.range (i + 1), limits j) rest)))
    · rw [Finset.sum_range_one, List.filterMap_eq_nil_iff, Quiet]
      exact ⟨fun h _ ↦ h, fun h ↦ h hend⟩
    · rw [Finset.sum_range_succ' _ (i + 1), Nat.add_comm _ (limits 0), behind_add]

/-- The pages of a listing. -/
theorem follow_pages
    (hnames : ∀ name, db.store.fullName name = true → ∀ byte ∈ name, RefCursor.GitRefByte byte)
    (hitems : db.overlay namePrefix = .ok items) (hordered : db.Ordered items)
    (hlimits : ∀ i, 1 ≤ limits i) :
    ∃ pages, follow (fun cursor limit ↦ db.list ⟨namePrefix, limit, cursor⟩) RefPage.nextCursor
      (items.length + 1) limits none = .ok pages ∧ db.Pages limits items pages := by
  have hcall (cursor : Option Bytes) (rest : List RefItem) (limits : ℕ → ℕ)
      (hrest : db.Stands namePrefix items cursor rest) (hlimit : 1 ≤ limits 0) :
      ∃ page, db.list ⟨namePrefix, limits 0, cursor⟩ = .ok page ∧
        ((page.nextCursor = none ∧ db.Pages limits rest [page]) ∨
          ∃ next later, page.nextCursor = some next ∧ db.Stands namePrefix items (some next) later ∧
            later.length < rest.length ∧ ∀ pages, db.Pages (fun i ↦ limits (i + 1)) later pages →
              db.Pages limits rest (page :: pages)) := by
    obtain ⟨page, hpage, hrefs, hwarnings, ⟨hnext, hend⟩ | ⟨next, hnext, hend, hlater⟩⟩ :=
      list_page hnames hitems hordered hlimit hrest
    · exact ⟨page, hpage, .inl ⟨hnext, .single hrefs hwarnings hend⟩⟩
    · refine ⟨page, hpage, .inr ⟨next, _, hnext, hlater, ?_, fun pages hpages ↦
        .cons (hrest.ordered hordered) hrefs hwarnings hend hpages⟩⟩
      obtain ⟨item, hitem, -⟩ := List.any_eq_true.mp hend
      exact length_behind_lt hlimit (List.ne_nil_of_mem hitem)
  have hstart : db.Stands namePrefix items none items := rfl
  exact follow_induct hcall hstart hlimits (Nat.lt_succ_self items.length)

/-- In which pages a warning is. -/
theorem countP_reports {w : RefWarning} (h : w ∈ items.filterMap db.skipped) (pages : List RefPage) :
    (pages.map (known ·.warnings)).countP (w ∈ ·) = pages.countP (w ∈ ·.warnings) := by
  obtain ⟨item, -, hskipped⟩ := List.mem_filterMap.mp h
  have hknown := (key_of_skipped hskipped).2
  rw [List.countP_map]
  refine List.countP_congr fun page _ ↦ ?_
  simp [known, hknown]

private theorem Pages.once_iff (hpages : db.Pages limits items pages) :
    (∀ warning ∈ items.filterMap db.skipped, pages.countP (warning ∈ ·.warnings) = 1) ↔
      ∀ i, db.Quiet (db.behind (∑ j ∈ Finset.range (i + 1), limits j) items) := by
  rw [← hpages.once]
  exact forall₂_congr fun w hw ↦ by rw [countP_reports hw]

/-- Following the cursors of a listing: on unchanging files whose items come in ascending order of their
known names, the pages list every well-formed reference once and in order, for every prefix and all limits.
Every warning about a malformed reference with a known name is in exactly one page when, and only when, no
such reference lies between the last reference of a page and the next one with a valid name. -/
theorem follow_list_iff (db : LocalRefDb) (namePrefix : Option Bytes) (items : List RefItem)
    (hnames : ∀ name, db.store.fullName name = true → ∀ byte ∈ name, RefCursor.GitRefByte byte)
    (hitems : db.overlay namePrefix = .ok items) (hordered : db.Ordered items) (limits : ℕ → ℕ)
    (hlimits : ∀ i, 1 ≤ limits i) :
    ∃ pages, follow (fun cursor limit ↦ db.list ⟨namePrefix, limit, cursor⟩) RefPage.nextCursor
        (items.length + 1) limits none = .ok pages ∧
      pages.flatMap RefPage.refs = items.filterMap db.listed ∧
      ((∀ warning ∈ items.filterMap db.skipped, pages.countP (warning ∈ ·.warnings) = 1) ↔
        ∀ i, db.Quiet (db.behind (∑ j ∈ Finset.range (i + 1), limits j) items)) := by
  obtain ⟨pages, hfollow, hpages⟩ := follow_pages hnames hitems hordered hlimits
  exact ⟨pages, hfollow, hpages.refs, hpages.once_iff⟩

/-- Three branches and, behind the first, a file that holds no reference. -/
def sampleItems : List RefItem :=
  [.ok ⟨Bytes.ascii "refs/heads/a", .object (List.replicate 20 1), none⟩,
    .error ⟨.referenceCreation (Bytes.ascii "refs/heads/b"), "invalid reference"⟩,
    .ok ⟨Bytes.ascii "refs/heads/c", .object (List.replicate 20 2), none⟩,
    .ok ⟨Bytes.ascii "refs/heads/d", .object (List.replicate 20 3), none⟩]

/-- A SHA-1 repository with them. -/
def sample : LocalRefDb where
  hash := .sha1
  store := ⟨fun name ↦ name.all fun byte ↦ RefCursor.GitRefByte byte, fun _ ↦ .ok none,
    fun name ↦ String.ofList (name.map fun byte ↦ Char.ofNat byte.toNat)⟩
  packed := true
  relativePath := fun _ ↦ true
  iterate := fun _ ↦ some sampleItems
  relative := id
  lossy := id
  peelTag := fun _ ↦ none

private theorem sample_names (name : Bytes) (h : sample.store.fullName name = true) :
    ∀ byte ∈ name, RefCursor.GitRefByte byte := by
  simpa [sample] using h

private theorem sample_ordered : sample.Ordered sampleItems := by
  unfold Ordered
  decide

private theorem sample_overlay : sample.overlay none = .ok sampleItems := rfl

private theorem sample_behind_one : sample.behind 1 sampleItems = sampleItems.drop 1 := rfl

private theorem sample_behind_two : sample.behind 2 sampleItems = sampleItems.drop 3 := rfl

/-- Pages of one reference report the file twice. -/
theorem follow_list_repeats : sample.Ordered sampleItems ∧
    ∃ pages, follow (fun cursor limit ↦ sample.list ⟨none, limit, cursor⟩) RefPage.nextCursor
        (sampleItems.length + 1) (fun _ ↦ 1) none = .ok pages ∧
      ∃ warning ∈ sampleItems.filterMap sample.skipped, pages.countP (warning ∈ ·.warnings) ≠ 1 := by
  have hlimits : ∀ i, 1 ≤ (fun _ : ℕ ↦ 1) i := fun _ ↦ le_rfl
  obtain ⟨pages, hfollow, hpages⟩ := follow_pages sample_names sample_overlay sample_ordered hlimits
  refine ⟨sample_ordered, pages, hfollow, ?_⟩
  by_contra hnone
  push Not at hnone
  have hquiet := hpages.once_iff.mp hnone 0
  rw [Finset.sum_range_one, sample_behind_one] at hquiet
  have hahead : sampleItems[1] ∈ sample.ahead (sampleItems.drop 1) := List.mem_singleton_self _
  have hreported : (sample.skipped sampleItems[1]).isSome = true := by decide
  rw [hquiet rfl _ hahead] at hreported
  cases hreported

/-- The theorem at a listing with limit 2, where every warning comes once. -/
theorem follow_list_iff_sample :
    ∃ pages, follow (fun cursor limit ↦ sample.list ⟨none, limit, cursor⟩) RefPage.nextCursor
        (sampleItems.length + 1) (fun _ ↦ 2) none = .ok pages ∧
      pages.flatMap RefPage.refs = sampleItems.filterMap sample.listed ∧
      ∀ warning ∈ sampleItems.filterMap sample.skipped, pages.countP (warning ∈ ·.warnings) = 1 := by
  obtain ⟨pages, hfollow, hrefs, honce⟩ := follow_list_iff sample none sampleItems sample_names
    sample_overlay sample_ordered (fun _ ↦ 2) fun _ ↦ by decide
  refine ⟨pages, hfollow, hrefs, honce.mpr fun i ↦ ?_⟩
  have hsum : ∑ j ∈ Finset.range (i + 1), (fun _ ↦ 2) j = 2 + 2 * i := by
    rw [Finset.sum_const, Finset.card_range, smul_eq_mul]
    omega
  rw [hsum, behind_add, sample_behind_two]
  cases i with
  | zero => exact fun _ item hitem ↦ absurd hitem List.not_mem_nil
  | succ i =>
    have hnone : sample.behind (2 * (i + 1)) (sampleItems.drop 3) = [] := behind_nil sample (2 * i + 1)
    rw [hnone]
    exact fun _ item hitem ↦ absurd hitem List.not_mem_nil

end Gitility.LocalRefDb
