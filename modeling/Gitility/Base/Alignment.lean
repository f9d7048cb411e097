import Mathlib.Data.List.Basic
import Mathlib.Data.List.Infix
import Mathlib.Data.Nat.Notation

/-!
# Alignments and patches

An alignment of two texts is one list of marked items, each of which stands on one side or on both. Windows of it
outside of which every item stands on both sides make a patch: applied to one side it yields the other.
-/

namespace Gitility

/-- The sides of a comparison. -/
inductive Side where
  | old
  | new
  deriving DecidableEq, Repr

/-- The opposite side. -/
def Side.other : Side → Side
  | .old => .new
  | .new => .old

/-- The value of a side. -/
def Side.pick {α : Type} (side : Side) (old new : α) : α :=
  match side with
  | .old => old
  | .new => new

/-- The replacement of a range of items. -/
structure Edit (L : Type) where
  start : ℕ
  removed : List L
  inserted : List L

namespace Edit

variable {L : Type}

/-- Edits in the order of their ranges; an insertion stands before the range that starts at its place. -/
def le (a b : Edit L) : Bool :=
  a.start < b.start ∨ a.start = b.start ∧ (a.removed.isEmpty ∨ ¬ b.removed.isEmpty)

/-- The edits of the items from a position on. Each has to find what it removes. -/
def run [DecidableEq L] : ℕ → List (Edit L) → List L → Option (List L)
  | _, [], items => some items
  | position, edit :: edits, items =>
    let gap := edit.start - position
    if position ≤ edit.start ∧ gap ≤ items.length ∧ edit.removed <+: items.drop gap then
      (run (edit.start + edit.removed.length) edits (items.drop (gap + edit.removed.length))).map
        fun rest ↦ items.take gap ++ edit.inserted ++ rest
    else none

/-- A set of edits, applied to a text. -/
def apply [DecidableEq L] (edits : List (Edit L)) (items : List L) : Option (List L) :=
  run 0 (edits.mergeSort le) items

/-- An edit that finds what it removes. -/
theorem run_cons [DecidableEq L] {edit : Edit L} {edits : List (Edit L)} {position : ℕ} {front rest : List L}
    (h : edit.start = position + front.length) :
    run position (edit :: edits) (front ++ (edit.removed ++ rest)) =
      (run (edit.start + edit.removed.length) edits rest).map fun rest ↦ front ++ edit.inserted ++ rest := by
  have hgap : edit.start - position = front.length := by omega
  have hfound : position ≤ edit.start ∧ front.length ≤ (front ++ (edit.removed ++ rest)).length ∧
      edit.removed <+: (front ++ (edit.removed ++ rest)).drop front.length := by
    refine ⟨by omega, by simp, ?_⟩
    rw [List.drop_left]
    exact List.prefix_append _ _
  have hrest : (front ++ (edit.removed ++ rest)).drop (front.length + edit.removed.length) = rest := by
    rw [← List.drop_drop, List.drop_left, List.drop_left]
  rw [run, hgap, if_pos hfound, hrest, List.take_left]

/-- The edits of a whole replacement, in either order of its two halves. -/
theorem apply_replace [DecidableEq L] (removed inserted : List L) :
    apply [⟨0, removed, []⟩, ⟨0, [], inserted⟩] removed = some inserted ∧
      apply [⟨0, [], inserted⟩, ⟨0, removed, []⟩] removed = some inserted := by
  have hinsertion : le (⟨0, [], inserted⟩ : Edit L) ⟨0, removed, []⟩ := by simp [le]
  have hordered : run 0 [⟨0, [], inserted⟩, ⟨0, removed, []⟩] removed = some inserted := by simp [run]
  have hsorted := List.mergeSort_of_pairwise (List.pairwise_pair.mpr hinsertion)
  constructor
  · cases removed with
    | nil =>
      have hle : le (⟨0, [], []⟩ : Edit L) ⟨0, [], inserted⟩ := by simp [le]
      rw [apply, List.mergeSort_of_pairwise (List.pairwise_pair.mpr hle)]
      simp [run]
    | cons item removed =>
      have hnot : ¬ le (⟨0, item :: removed, []⟩ : Edit L) ⟨0, [], inserted⟩ := by simp [le]
      have hswap : List.mergeSort [⟨0, item :: removed, []⟩, (⟨0, [], inserted⟩ : Edit L)] le =
          [⟨0, [], inserted⟩, ⟨0, item :: removed, []⟩] := by
        simp [List.mergeSort, hnot]
      rw [apply, hswap, hordered]
  · rw [apply, hsorted, hordered]

end Edit

namespace Alignment

variable {K L : Type} (on : Side → K → Bool)

/-- The items of one side. -/
def items (side : Side) (script : List (K × L)) : List L := (script.filter (on side ·.1)).map Prod.snd

/-- Windows of an alignment, each with the numbers of items that stand before it. -/
inductive Windowed : (Side → ℕ) → List (K × L) → List ((Side → ℕ) × List (K × L)) → Prop
  | gap {before : Side → ℕ} {script : List (K × L)} (h : ∀ item ∈ script, ∀ side, on side item.1) :
    Windowed before script []
  | window {before : Side → ℕ} {gap window rest : List (K × L)}
    {windows : List ((Side → ℕ) × List (K × L))} (h : ∀ item ∈ gap, ∀ side, on side item.1)
    (hrest : Windowed (fun side ↦ before side + gap.length + (items on side window).length) rest windows) :
    Windowed before (gap ++ (window ++ rest)) ((fun side ↦ before side + gap.length, window) :: windows)

/-- The edit of one side that a window stands for. -/
def edit (side : Side) (window : (Side → ℕ) × List (K × L)) : Edit L :=
  ⟨window.1 side, items on side window.2, items on side.other window.2⟩

variable {on} {before : Side → ℕ} {script : List (K × L)} {windows : List ((Side → ℕ) × List (K × L))}

/-- The items of one side are collected piece by piece. -/
@[simp] theorem items_append (side : Side) (front rest : List (K × L)) :
    items on side (front ++ rest) = items on side front ++ items on side rest := by
  simp [items]

/-- An entry adds its item when it is on the side. -/
theorem items_cons (side : Side) (item : K × L) (rest : List (K × L)) :
    items on side (item :: rest) =
      if on side item.1 then item.2 :: items on side rest else items on side rest := by
  simp only [items, List.filter_cons]
  split <;> rfl

/-- An item stands on its side behind the items before it. -/
theorem getElem?_items {side : Side} {item : K × L} (front back : List (K × L)) (h : on side item.1) :
    (items on side (front ++ item :: back))[(items on side front).length]? = some item.2 := by
  rw [items_append, items_cons, if_pos h, List.getElem?_append_right (Nat.le_refl _), Nat.sub_self]
  rfl

/-- Items that stand on both sides. -/
theorem items_of_both {gap : List (K × L)} (h : ∀ item ∈ gap, ∀ side, on side item.1) (side : Side) :
    items on side gap = gap.map Prod.snd := by
  rw [items, List.filter_eq_self.mpr fun item hitem ↦ h item hitem side]

/-- The edits of the windows turn one side into the other. -/
theorem run_edits [DecidableEq L] (h : Windowed on before script windows) (side : Side) :
    Edit.run (before side) (windows.map (edit on side)) (items on side script) =
      some (items on side.other script) := by
  induction h with
  | gap h => rw [List.map_nil, Edit.run, items_of_both h, items_of_both h]
  | @window before gap window rest windows h hrest ih =>
    have hlength : (items on side gap).length = gap.length := by rw [items_of_both h, List.length_map]
    have hstart : (edit on side (fun side ↦ before side + gap.length, window)).start =
        before side + (items on side gap).length := by rw [hlength, edit]
    have hstep := @Edit.run_cons L _ _ (windows.map (edit on side)) _ _ (items on side rest) hstart
    rw [List.map_cons, items_append, items_append]
    refine hstep.trans ?_
    rw [hstart, hlength]
    dsimp only [edit]
    rw [ih, Option.map_some, items_append, items_append, items_of_both h, items_of_both h, List.append_assoc]

/-- Windows ascend. -/
theorem le_of_windowed (h : Windowed on before script windows) (side : Side) :
    ∀ window ∈ windows, before side ≤ window.1 side := by
  induction h with
  | gap h => exact fun window hwindow ↦ absurd hwindow List.not_mem_nil
  | window h hrest ih =>
    intro window hwindow
    rcases List.mem_cons.mp hwindow with rfl | hwindow
    · exact Nat.le_add_right _ _
    · have hle := ih window hwindow
      dsimp only at hle
      omega

private theorem pairwise_edits (h : Windowed on before script windows) (side : Side) :
    (windows.map (edit on side)).Pairwise fun a b ↦ Edit.le a b := by
  induction h with
  | gap h => exact .nil
  | @window before gap window rest windows h hrest ih =>
    rw [List.map_cons]
    refine List.pairwise_cons.mpr ⟨fun later hlater ↦ ?_, ih⟩
    obtain ⟨next, hnext, rfl⟩ := List.mem_map.mp hlater
    have hle := le_of_windowed hrest side next hnext
    simp only [Edit.le, edit, decide_eq_true_eq, List.isEmpty_iff]
    by_cases hempty : items on side window = []
    · rw [hempty] at hle
      by_cases heq : before side + gap.length = next.1 side
      · exact .inr ⟨heq, .inl hempty⟩
      · refine .inl (Nat.lt_of_le_of_ne ?_ heq)
        exact hle
    · have hpos := List.length_pos_iff.mpr hempty
      exact .inl (by omega)

/-- Where a window stands. -/
theorem exists_front (h : Windowed on before script windows) {window : (Side → ℕ) × List (K × L)}
    (hwindow : window ∈ windows) : ∃ front back, script = front ++ (window.2 ++ back) ∧
      ∀ side, window.1 side = before side + (items on side front).length := by
  induction h with
  | gap h => exact absurd hwindow List.not_mem_nil
  | @window before gap first rest windows h hrest ih =>
    have hlength : ∀ side, (items on side gap).length = gap.length := by
      intro side
      rw [items_of_both h, List.length_map]
    rcases List.mem_cons.mp hwindow with rfl | hwindow
    · exact ⟨gap, rest, rfl, fun side ↦ by rw [hlength]⟩
    · obtain ⟨front, back, rfl, hplace⟩ := ih hwindow
      refine ⟨gap ++ (first ++ front), back, by simp, fun side ↦ ?_⟩
      rw [hplace, items_append, items_append, List.length_append, List.length_append, hlength]
      simp only [Nat.add_assoc]

/-- What stands on one side only stands in the windows. -/
theorem countP_windows (h : Windowed on before script windows) {p : K → Bool}
    (hp : ∀ mark, (∀ side, on side mark) → p mark = false) :
    script.countP (p ·.1) = (windows.flatMap Prod.snd).countP (p ·.1) := by
  have hgap : ∀ gap : List (K × L), (∀ item ∈ gap, ∀ side, on side item.1) → gap.countP (p ·.1) = 0 := by
    intro gap hboth
    rw [List.countP_eq_zero]
    intro item hitem
    rw [hp item.1 (hboth item hitem)]
    exact Bool.false_ne_true
  induction h with
  | gap h => exact hgap _ h
  | window h hrest ih =>
    rw [List.flatMap_cons, List.countP_append, List.countP_append, List.countP_append, hgap _ h, ih, Nat.zero_add]

/-- The windows of an alignment are a patch from either side to the other. -/
theorem apply_edits [DecidableEq L] (h : Windowed on (fun _ ↦ 0) script windows) (side : Side) :
    Edit.apply (windows.map (edit on side)) (items on side script) = some (items on side.other script) := by
  rw [Edit.apply, List.mergeSort_of_pairwise (pairwise_edits h side)]
  exact run_edits h side

end Alignment

end Gitility
