import Gitility.Diff.TreeChanges

/-!
# Relations of changes

A directory that only one side has starts a relation, which all that is below it shares. So each change ID belongs to
deletions only, or to additions only.
-/

namespace Gitility.GixDiff

open Diff

/-- The ID of a relation. -/
def Relation.id : Relation → ℕ
  | parent id | childOfParent id => id

/-- A relation of deletions, or of additions, with an ID up to a bound. -/
def Side (deleted : ℕ → Bool) (bound : ℕ) (side : Bool) (relation : Option Relation) : Prop :=
  ∀ r ∈ relation, r.id ≤ bound ∧ deleted r.id = side

/-- It is not a relation that starts in a directory. -/
def Inner (relation : Option Relation) : Prop := ∀ id, relation ≠ some (.parent id)

/-- The relation of a change is one of its side; it starts in a directory. -/
def Change.Sided (deleted : ℕ → Bool) (bound : ℕ) : Change → Prop
  | addition entryMode _ relation => Side deleted bound false relation ∧ (isTree entryMode ∨ Inner relation)
  | deletion entryMode _ relation => Side deleted bound true relation ∧ (isTree entryMode ∨ Inner relation)
  | modification .. => True

/-- The relation of scheduled trees is one of their side; there is none for trees of both sides. -/
def TreeInfo.Sided (deleted : ℕ → Bool) (bound : ℕ) : TreeInfo → Prop
  | (some _, none, relation) => Side deleted bound true relation ∧ Inner relation
  | (none, some _, relation) => Side deleted bound false relation ∧ Inner relation
  | (_, _, relation) => relation = none

/-- A name fits the relation of its directory. -/
def Joined.Sided (deleted : ℕ → Bool) (bound : ℕ) (relation : Option Relation) : Joined TreeEntry → Prop
  | .left _ => Side deleted bound true relation ∧ Inner relation
  | .right _ => Side deleted bound false relation ∧ Inner relation
  | .both _ _ => relation = none

variable {deleted deleted' : ℕ → Bool} {bound bound' : ℕ} {side : Bool} {relation : Option Relation}

/-- The sides of the IDs so far stay. -/
def Agree (bound : ℕ) (deleted deleted' : ℕ → Bool) : Prop := ∀ id ≤ bound, deleted' id = deleted id

private theorem Side.mono (h : Side deleted bound side relation) (hagree : Agree bound deleted deleted')
    (hle : bound ≤ bound') : Side deleted' bound' side relation := by
  intro r hr
  obtain ⟨hbound, hside⟩ := h r hr
  exact ⟨hbound.trans hle, (hagree _ hbound).trans hside⟩

/-- Agreement composes, up to the smaller of the two bounds. -/
theorem Agree.trans {deleted'' : ℕ → Bool} (h : Agree bound deleted deleted') (h' : Agree bound' deleted' deleted'')
    (hle : bound ≤ bound') : Agree bound deleted deleted'' :=
  fun id hid ↦ (h' id (hid.trans hle)).trans (h id hid)

/-- A change keeps its side while more IDs are given out. -/
theorem Change.Sided.mono {change : Change} (h : change.Sided deleted bound) (hagree : Agree bound deleted deleted')
    (hle : bound ≤ bound') : change.Sided deleted' bound' := by
  cases change with
  | addition | deletion => exact ⟨h.1.mono hagree hle, h.2⟩
  | modification => trivial

/-- Scheduled trees keep their side while more IDs are given out. -/
theorem TreeInfo.Sided.mono {tree : TreeInfo} (h : TreeInfo.Sided deleted bound tree)
    (hagree : Agree bound deleted deleted') (hle : bound ≤ bound') : TreeInfo.Sided deleted' bound' tree := by
  obtain ⟨lhs, rhs, relation⟩ := tree
  cases lhs <;> cases rhs
  · exact h
  · exact ⟨h.1.mono hagree hle, h.2⟩
  · exact ⟨h.1.mono hagree hle, h.2⟩
  · exact h

private theorem Joined.Sided.mono {j : Joined TreeEntry} (h : Joined.Sided deleted bound relation j)
    (hagree : Agree bound deleted deleted') (hle : bound ≤ bound') : Joined.Sided deleted' bound' relation j := by
  cases j with
  | left | right => exact ⟨h.1.mono hagree hle, h.2⟩
  | both => exact h

private theorem inner_toChild (relation : Option Relation) : Inner (toChild relation) := by
  rintro id h
  cases relation with
  | none => cases h
  | some r => cases r <;> cases h

private theorem Side.toChild (h : Side deleted bound side relation) : Side deleted bound side (toChild relation) := by
  match relation with
  | none => exact h
  | some (.parent id) =>
    rintro _ ⟨⟩
    exact h (.parent id) rfl
  | some (.childOfParent id) =>
    rintro _ ⟨⟩
    exact h (.childOfParent id) rfl

/-- No change ID is taken twice, as long as they do not wrap. -/
theorem nextChangeId_eq {changeId : ℕ} (h : changeId + 1 < 2 ^ 32) : nextChangeId changeId = changeId + 1 :=
  Nat.mod_eq_of_lt h

private theorem nextChangeId_le (changeId : ℕ) : nextChangeId changeId ≤ changeId + 1 := Nat.mod_le _ _

/-- A relation goes on, or a directory starts one with a new ID. -/
theorem side_relatedTo (h : Side deleted bound side relation) (hinner : Inner relation) (starts : Bool)
    (hwrap : starts → bound + 1 < 2 ^ 32) :
    ∃ deleted', Agree bound deleted deleted' ∧ bound ≤ (relatedTo bound relation starts).2 ∧
      Side deleted' (relatedTo bound relation starts).2 side (relatedTo bound relation starts).1 ∧
      (starts ∨ Inner (relatedTo bound relation starts).1) := by
  cases relation with
  | some r => exact ⟨deleted, fun _ _ ↦ rfl, Nat.le_refl _, h, .inr hinner⟩
  | none =>
    cases starts with
    | false => exact ⟨deleted, fun _ _ ↦ rfl, Nat.le_refl _, by rintro _ ⟨⟩, .inr (by rintro _ ⟨⟩)⟩
    | true =>
      simp only [relatedTo, if_true, nextChangeId_eq (hwrap rfl)]
      refine ⟨Function.update deleted (bound + 1) side, fun id hid ↦ ?_, Nat.le_succ _, ?_, .inl trivial⟩
      · exact Function.update_of_ne (Nat.ne_of_lt (Nat.lt_succ_of_le hid)) _ _
      · rintro _ ⟨⟩
        exact ⟨Nat.le_refl _, Function.update_self _ _ _⟩

private theorem changeId_relatedTo_le (changeId : ℕ) (relation : Option Relation) (starts : Bool) :
    (relatedTo changeId relation starts).2 ≤ changeId + if starts then 1 else 0 := by
  cases relation with
  | some r => exact Nat.le_add_right _ _
  | none =>
    cases starts with
    | false => exact Nat.le_refl _
    | true => exact nextChangeId_le changeId

/-- A change ID is taken for a subtree that is scheduled, or not at all. -/
theorem changeId_visitedAt_le (relation : Option Relation) (changeId : ℕ) (j : Joined TreeEntry) :
    (visitedAt relation changeId j).changeId ≤ changeId + (visitedAt relation changeId j).tree.toList.length := by
  cases j with
  | left entry | right entry =>
    have hle := changeId_relatedTo_le changeId relation (isTree entry.mode)
    cases htree : isTree entry.mode <;> simpa [visitedAt, htree] using hle
  | both lhs rhs =>
    rw [visitedAt]
    split <;> split <;> exact Nat.le_add_right _ _

/-- What is visited at a name that fits the relation of its directory. -/
theorem sided_visitedAt {j : Joined TreeEntry} (hj : Joined.Sided deleted bound relation j)
    (hwrap : bound + (visitedAt relation bound j).tree.toList.length < 2 ^ 32) :
    ∃ deleted', Agree bound deleted deleted' ∧ bound ≤ (visitedAt relation bound j).changeId ∧
      (∀ change ∈ (visitedAt relation bound j).changes,
        change.Sided deleted' (visitedAt relation bound j).changeId) ∧
      ∀ tree ∈ (visitedAt relation bound j).tree, TreeInfo.Sided deleted' (visitedAt relation bound j).changeId tree := by
  cases j with
  | left entry =>
    obtain ⟨deleted', hagree, hle, hside, hstarts⟩ := side_relatedTo hj.1 hj.2 (isTree entry.mode)
      fun htree ↦ by simpa [visitedAt, htree] using hwrap
    refine ⟨deleted', hagree, hle, ?_, ?_⟩
    · intro change hchange
      obtain rfl := List.mem_singleton.mp hchange
      exact ⟨hside, hstarts⟩
    · intro tree htree
      simp only [visitedAt, Option.mem_def, Option.ite_none_right_eq_some, Option.some.injEq] at htree
      obtain ⟨-, rfl⟩ := htree
      exact ⟨hside.toChild, inner_toChild _⟩
  | right entry =>
    obtain ⟨deleted', hagree, hle, hside, hstarts⟩ := side_relatedTo hj.1 hj.2 (isTree entry.mode)
      fun htree ↦ by simpa [visitedAt, htree] using hwrap
    refine ⟨deleted', hagree, hle, ?_, ?_⟩
    · intro change hchange
      obtain rfl := List.mem_singleton.mp hchange
      exact ⟨hside, hstarts⟩
    · intro tree htree
      simp only [visitedAt, Option.mem_def, Option.ite_none_right_eq_some, Option.some.injEq] at htree
      obtain ⟨-, rfl⟩ := htree
      exact ⟨hside.toChild, inner_toChild _⟩
  | both lhs rhs =>
    obtain rfl : relation = none := hj
    refine ⟨deleted, fun _ _ ↦ rfl, ?_, ?_, ?_⟩ <;> rw [visitedAt] <;> split <;> split <;>
      simp [Change.Sided, TreeInfo.Sided]

variable {depth : ℕ} {directory : Bytes} {js : List (Joined TreeEntry)}

/-- The subtrees that are scheduled at a first name, and at the others. -/
theorem length_level_cons (depth : ℕ) (relation : Option Relation) (directory : Bytes) (changeId : ℕ)
    (j : Joined TreeEntry) (js : List (Joined TreeEntry)) :
    (level depth relation directory changeId (j :: js)).2.1.length =
      (visitedAt relation changeId j).tree.toList.length +
        (level depth relation directory (visitedAt relation changeId j).changeId js).2.1.length := by
  rw [level, List.length_append, List.length_map]

/-- Change IDs are taken for subtrees that are scheduled. -/
theorem changeId_level_le (depth : ℕ) (relation : Option Relation) (directory : Bytes) (changeId : ℕ)
    (js : List (Joined TreeEntry)) : (level depth relation directory changeId js).2.2 ≤
      changeId + (level depth relation directory changeId js).2.1.length := by
  induction js generalizing changeId with
  | nil => exact Nat.le_refl _
  | cons j js ih =>
    have hname := changeId_visitedAt_le relation changeId j
    rw [length_level_cons, ← Nat.add_assoc]
    exact (ih _).trans (Nat.add_le_add_right hname _)

variable (depth directory) in
/-- What is visited and scheduled in a directory whose names fit its relation. -/
theorem sided_level (hjs : ∀ j ∈ js, Joined.Sided deleted bound relation j)
    (hwrap : bound + (level depth relation directory bound js).2.1.length < 2 ^ 32) :
    ∃ deleted', Agree bound deleted deleted' ∧ bound ≤ (level depth relation directory bound js).2.2 ∧
      (∀ v ∈ (level depth relation directory bound js).1,
        v.1.Sided deleted' (level depth relation directory bound js).2.2) ∧
      ∀ task ∈ (level depth relation directory bound js).2.1,
        TreeInfo.Sided deleted' (level depth relation directory bound js).2.2 task.info := by
  induction js generalizing deleted bound with
  | nil => exact ⟨deleted, fun _ _ ↦ rfl, Nat.le_refl _, by simp [level], by simp [level]⟩
  | cons j js ih =>
    have hname := changeId_visitedAt_le relation bound j
    rw [length_level_cons, ← Nat.add_assoc] at hwrap
    obtain ⟨deleted₁, hagree₁, hle₁, hchanges, htree⟩ := sided_visitedAt (hjs j List.mem_cons_self)
      ((Nat.le_add_right _ _).trans_lt hwrap)
    obtain ⟨deleted₂, hagree₂, hle₂, hvisits, htasks⟩ := ih
      (fun j' hj' ↦ (hjs j' (List.mem_cons_of_mem _ hj')).mono hagree₁ hle₁)
      ((Nat.add_le_add_right hname _).trans_lt hwrap)
    refine ⟨deleted₂, hagree₁.trans hagree₂ hle₁, hle₁.trans hle₂, ?_, ?_⟩
    · intro v hv
      rcases List.mem_append.mp hv with hv | hv
      · obtain ⟨change, hchange, rfl⟩ := List.mem_map.mp hv
        exact (hchanges change hchange).mono hagree₂ hle₂
      · exact hvisits v hv
    · intro task hmem
      rcases List.mem_append.mp hmem with hmem | hmem
      · obtain ⟨tree, hfound, rfl⟩ := List.mem_map.mp hmem
        exact (htree tree (Option.mem_toList.mp hfound)).mono hagree₂ hle₂
      · exact htasks task hmem

/-- Every name fits where there is no relation. -/
theorem sided_none (j : Joined TreeEntry) : Joined.Sided deleted bound none j := by
  cases j with
  | left | right => exact ⟨by rintro _ ⟨⟩, by rintro _ ⟨⟩⟩
  | both => rfl

/-- The names in the trees of a task fit its relation. -/
theorem Task.sided_of_mem {gix : Gix} {find : Oid → Option Bytes} {task : Task}
    (h : TreeInfo.Sided deleted bound task.info) {j : Joined TreeEntry}
    (hj : j ∈ mergeJoin compare (task.lhsEntries gix find) (task.rhsEntries gix find)) :
    Joined.Sided deleted bound task.relation j := by
  obtain ⟨depth, lhs, rhs, relation, path⟩ := task
  have hleft : ∀ {entry}, j.left? = some entry → lhs ≠ none := by
    rintro entry hleft rfl
    exact absurd (mem_left_iff.mpr ⟨j, hj, hleft⟩) List.not_mem_nil
  have hright : ∀ {entry}, j.right? = some entry → rhs ≠ none := by
    rintro entry hright rfl
    exact absurd (mem_right_iff.mpr ⟨j, hj, hright⟩) List.not_mem_nil
  have hnone : relation = none → Joined.Sided deleted bound relation j := by
    rintro rfl
    exact sided_none j
  cases lhs with
  | none =>
    cases rhs with
    | none => exact hnone h
    | some rhs =>
      cases j with
      | left | both => exact absurd rfl (hleft rfl)
      | right => exact h
  | some lhs =>
    cases rhs with
    | none =>
      cases j with
      | left => exact h
      | right | both => exact absurd rfl (hright rfl)
    | some rhs => exact hnone h

end Gitility.GixDiff
