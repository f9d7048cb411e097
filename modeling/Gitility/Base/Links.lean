import Mathlib.Data.List.Basic
import Mathlib.Data.List.Nodup
import Mathlib.Logic.Function.Basic
import Mathlib.Data.Nat.Notation
import Mathlib.Tactic.Ring

/-!
# Doubly linked lists over a slab

A slab slot is a natural number; a view gives the previous and next links of every occupied
slot. `Linked view before slots after` says that `slots` is a well-linked segment whose first
element points back to `before` and whose last one points on to `after`.
-/

namespace Gitility

/-- The previous and next link of each occupied slot. -/
abbrev LinkView := ℕ → Option (Option ℕ × Option ℕ)

/-- A segment of a doubly linked list, in order, between two outer neighbours. -/
def Linked (view : LinkView) : Option ℕ → List ℕ → Option ℕ → Prop
  | _, [], _ => True
  | before, slot :: rest, after =>
    view slot = some (before, rest.head?.or after) ∧ Linked view (some slot) rest after

namespace Linked

variable {view view' : LinkView} {before after : Option ℕ} {slot : ℕ} {left right : List ℕ}

/-- Only the links of the segment's own slots matter. -/
theorem congr (h : ∀ i ∈ left, view i = view' i) (hl : Linked view before left after) :
    Linked view' before left after := by
  induction left generalizing before with
  | nil => exact True.intro
  | cons i rest ih =>
    refine ⟨?_, ih (fun j hj ↦ h j (List.mem_cons_of_mem _ hj)) hl.2⟩
    rw [← h i List.mem_cons_self]
    exact hl.1

/-- Adjacent segments point at each other. -/
theorem append_iff : Linked view before (left ++ right) after ↔
    Linked view before left (right.head?.or after) ∧
      Linked view (left.getLast?.or before) right after := by
  induction left generalizing before with
  | nil => simp [Linked]
  | cons i rest ih =>
    have hh : (rest ++ right).head?.or after = rest.head?.or (right.head?.or after) := by
      cases rest <;> simp
    have hg : (i :: rest).getLast?.or before = rest.getLast?.or (some i) := by
      rw [List.getLast?_cons]
      cases rest.getLast? <;> rfl
    rw [List.cons_append, Linked, Linked, ih, hh, hg, and_assoc]

/-- Every slot of a segment is occupied. -/
theorem isSome (hl : Linked view before left after) {i : ℕ} (hi : i ∈ left) :
    (view i).isSome := by
  induction left generalizing before with
  | nil => simp at hi
  | cons j rest ih =>
    rcases List.mem_cons.mp hi with rfl | hr
    · rw [hl.1]; rfl
    · exact ih hl.2 hr

/-- The links of a slot inside a segment name its neighbours. -/
theorem middle (hl : Linked view before (left ++ slot :: right) after) :
    view slot = some (left.getLast?.or before, right.head?.or after) :=
  (append_iff.mp hl).2.1

/-- Redirecting the last slot's next link. -/
theorem setNext {next : Option ℕ} (hn : (left ++ [slot]).Nodup)
    (hl : Linked view before (left ++ [slot]) after) :
    Linked (Function.update view slot (some (left.getLast?.or before, next))) before
      (left ++ [slot]) next := by
  have hs : slot ∉ left := by
    intro hm
    exact (List.nodup_append.mp hn).2.2 slot hm slot (by simp) rfl
  obtain ⟨hleft, -⟩ := append_iff.mp hl
  apply append_iff.mpr
  refine ⟨hleft.congr ?_, ?_, True.intro⟩
  · intro i hi
    rw [Function.update_of_ne]
    rintro rfl
    exact hs hi
  · simp

/-- Redirecting the first slot's previous link. -/
theorem setPrevious {previous : Option ℕ} (hn : (slot :: right).Nodup)
    (hl : Linked view before (slot :: right) after) :
    Linked (Function.update view slot (some (previous, right.head?.or after))) previous
      (slot :: right) after := by
  refine ⟨by simp, hl.2.congr ?_⟩
  intro i hi
  rw [Function.update_of_ne]
  rintro rfl
  exact (List.nodup_cons.mp hn).1 hi

end Linked
end Gitility
