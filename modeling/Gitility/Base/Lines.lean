import Mathlib.Data.List.Basic
import Mathlib.Data.List.Flatten
import Mathlib.Data.List.Infix
import Mathlib.Data.List.TakeWhile
import Mathlib.Data.Nat.Notation

/-!
# Lines

A list is cut behind every separator. What is left behind the last separator is a line of its own, and there
is no line behind a separator that ends the list.
-/

namespace Gitility

variable {α : Type} {sep : α}

/-- The lines of a list, each with its separator. -/
def lines [DecidableEq α] (sep : α) : List α → List (List α)
  | [] => []
  | a :: rest =>
    if a = sep then [a] :: lines sep rest
    else match lines sep rest with
      | [] => [[a]]
      | line :: more => (a :: line) :: more

/-- Nothing is open behind the last separator. -/
def Closed (sep : α) (l : List α) : Prop := l = [] ∨ l.getLast? = some sep

/-- The empty list leaves no line open. -/
theorem closed_nil : Closed sep [] := .inl rfl

private theorem closed_append_sep (l : List α) : Closed sep (l ++ [sep]) := .inr (by simp)

section Cuts

variable [DecidableEq α] {front rest last : List α}

/-- Only the empty list has no lines. -/
theorem lines_eq_nil {l : List α} : lines sep l = [] ↔ l = [] := by
  cases l with
  | nil => simp [lines]
  | cons a rest =>
    rw [lines]
    split
    · simp
    · split <;> simp

/-- A line that its separator ends. -/
theorem lines_cut (h : sep ∉ front) :
    lines sep (front ++ sep :: rest) = (front ++ [sep]) :: lines sep rest := by
  induction front with
  | nil => simp [lines]
  | cons a front ih =>
    obtain ⟨hne, hfront⟩ : sep ≠ a ∧ sep ∉ front := by simpa using h
    rw [List.cons_append, lines, if_neg (Ne.symm hne), ih hfront]
    rfl

/-- An open line. -/
theorem lines_open (h : sep ∉ last) (hne : last ≠ []) : lines sep last = [last] := by
  induction last with
  | nil => exact absurd rfl hne
  | cons a last ih =>
    obtain ⟨ha, hlast⟩ : sep ≠ a ∧ sep ∉ last := by simpa using h
    rw [lines, if_neg (Ne.symm ha)]
    cases last with
    | nil => rfl
    | cons b last => rw [ih hlast (List.cons_ne_nil b last)]

/-- Induction line by line. -/
theorem lines_induction (sep : α) {P : List α → Prop} (hopen : ∀ last, sep ∉ last → P last)
    (hcut : ∀ front rest, sep ∉ front → P rest → P (front ++ sep :: rest)) (l : List α) : P l := by
  induction hn : l.length using Nat.strong_induction_on generalizing l with
  | _ n ih =>
    by_cases h : sep ∈ l
    · obtain ⟨front, rest, rfl, hfront⟩ := List.eq_append_cons_of_mem h
      refine hcut front rest hfront (ih rest.length ?_ rest rfl)
      simp at hn
      omega
    · exact hopen l h

/-- The lines make up the list again. -/
@[simp] theorem flatten_lines (l : List α) : (lines sep l).flatten = l := by
  induction l using lines_induction sep with
  | hopen last h =>
    by_cases hne : last = []
    · rw [hne]
      rfl
    · simp [lines_open h hne]
  | hcut front rest h ih => simp [lines_cut h, ih]

/-- There are at most as many lines as elements. -/
theorem length_lines_le (sep : α) (l : List α) : (lines sep l).length ≤ l.length := by
  induction l using lines_induction sep with
  | hopen last h =>
    by_cases hne : last = []
    · simp [hne, lines]
    · rw [lines_open h hne]
      exact List.length_pos_iff.mpr hne
  | hcut front rest h ih =>
    rw [lines_cut h, List.length_cons, List.length_append, List.length_cons]
    omega

/-- Every line is ended but the last one of a list that its last separator does not end. -/
theorem getLast?_line {l line : List α} {i : ℕ} (h : (lines sep l)[i]? = some line) :
    line.getLast? = some sep ↔ i + 1 < (lines sep l).length ∨ l.getLast? = some sep := by
  induction l using lines_induction sep generalizing i with
  | hopen last hlast =>
    by_cases hne : last = []
    · rw [hne] at h
      simp [lines] at h
    · rw [lines_open hlast hne] at h ⊢
      cases i with
      | zero =>
        cases h
        simp
      | succ i => simp at h
  | hcut front rest hfront ih =>
    rw [lines_cut hfront] at h ⊢
    cases i with
    | zero =>
      cases h
      rw [List.length_cons, List.getLast?_append_cons]
      by_cases hrest : rest = []
      · simp [hrest]
      · have hpos := List.length_pos_iff.mpr (mt lines_eq_nil.mp hrest : lines sep rest ≠ [])
        simp [hpos]
    | succ i =>
      rw [List.getElem?_cons_succ] at h
      have hrest : rest ≠ [] := by
        rintro rfl
        simp [lines] at h
      obtain ⟨b, more, rfl⟩ := List.exists_cons_of_ne_nil hrest
      rw [ih h, List.length_cons, List.getLast?_append_cons, List.getLast?_cons_cons, Nat.add_lt_add_iff_right]

/-- Behind a separator the lines start anew. -/
theorem lines_append (h : Closed sep front) :
    lines sep (front ++ rest) = lines sep front ++ lines sep rest := by
  induction front using lines_induction sep with
  | hopen last hlast =>
    have hnil : last = [] := by
      rcases h with h | h
      · exact h
      · exact absurd (List.mem_of_getLast? h) hlast
    rw [hnil]
    rfl
  | hcut front more hfront ih =>
    have hmore : Closed sep more := by
      rcases h with h | h
      · simp at h
      · cases more with
        | nil => exact closed_nil
        | cons b more =>
          refine .inr ?_
          rwa [List.getLast?_append_cons, List.getLast?_cons_cons] at h
    rw [List.append_assoc, List.cons_append, lines_cut hfront, lines_cut hfront, ih hmore]
    rfl

/-- Every list is closed up to its open last line. -/
theorem exists_open (sep : α) (l : List α) :
    ∃ whole last, l = whole ++ last ∧ Closed sep whole ∧ sep ∉ last := by
  induction l using lines_induction sep with
  | hopen last h => exact ⟨[], last, rfl, closed_nil, h⟩
  | hcut front rest hfront ih =>
    obtain ⟨whole, last, rfl, hwhole, hlast⟩ := ih
    refine ⟨front ++ sep :: whole, last, by simp, ?_, hlast⟩
    rcases hwhole with rfl | hwhole
    · exact closed_append_sep front
    · exact .inr (by rw [List.getLast?_append_cons, List.getLast?_cons, hwhole]; rfl)

/-- An open line goes on in what follows it. -/
theorem lines_open_append (h : sep ∉ last) (hne : last ++ rest ≠ []) :
    ∃ line more, lines sep (last ++ rest) = (last ++ line) :: more := by
  induction rest using lines_induction sep with
  | hopen rest hrest =>
    exact ⟨rest, [], lines_open (by simp [h, hrest]) hne⟩
  | hcut front rest hfront _ =>
    refine ⟨front ++ [sep], lines sep rest, ?_⟩
    rw [← List.append_assoc, lines_cut (by simp [h, hfront]), List.append_assoc]

/-- Ended lines are the lines of what they make up. -/
theorem lines_flatten {ls : List (List α)} (h : ∀ line ∈ ls, ∃ front, sep ∉ front ∧ line = front ++ [sep]) :
    lines sep ls.flatten = ls := by
  induction ls with
  | nil => rfl
  | cons line ls ih =>
    obtain ⟨front, hfront, rfl⟩ := h line List.mem_cons_self
    rw [List.flatten_cons, List.append_assoc, List.singleton_append, lines_cut hfront,
      ih fun line hline ↦ h line (List.mem_cons_of_mem _ hline)]

end Cuts

/-- The first separator cuts in one way only. -/
theorem cut_inj {front front' rest rest' : List α} (h : sep ∉ front) (h' : sep ∉ front')
    (heq : front ++ sep :: rest = front' ++ sep :: rest') : front = front' ∧ rest = rest' := by
  induction front generalizing front' with
  | nil =>
    cases front' with
    | nil => exact ⟨rfl, (List.cons.inj heq).2⟩
    | cons a front' => exact absurd (List.cons.inj heq).1 fun hsep ↦ h' (hsep ▸ List.mem_cons_self)
  | cons a front ih =>
    cases front' with
    | nil => exact absurd (List.cons.inj heq).1 fun hsep ↦ h (hsep ▸ List.mem_cons_self)
    | cons b front' =>
      obtain ⟨rfl, htail⟩ := List.cons.inj heq
      obtain ⟨rfl, hrest⟩ := ih (fun hmem ↦ h (List.mem_cons_of_mem _ hmem))
        (fun hmem ↦ h' (List.mem_cons_of_mem _ hmem)) htail
      exact ⟨rfl, hrest⟩

/-! ### Spans -/

/-- Where the lines start and stop, the first at `start`. -/
def spansOf : ℕ → List (List α) → List (ℕ × ℕ)
  | _, [] => []
  | start, line :: more => (start, start + line.length) :: spansOf (start + line.length) more

section Spans

variable {ls more : List (List α)} {start i j : ℕ}

/-- Every line has one span. -/
@[simp] theorem length_spansOf : (spansOf start ls).length = ls.length := by
  induction ls generalizing start with
  | nil => rfl
  | cons line ls ih => simp [spansOf, ih]

/-- The spans of later lines start where the earlier lines stop. -/
theorem spansOf_append :
    spansOf start (ls ++ more) = spansOf start ls ++ spansOf (start + ls.flatten.length) more := by
  induction ls generalizing start with
  | nil => rfl
  | cons line ls ih => simp [spansOf, ih, Nat.add_assoc]

/-- A line starts behind the elements of all lines before it, and stops behind its own. -/
theorem getElem?_spansOf (h : i < ls.length) :
    (spansOf start ls)[i]? =
      some (start + (ls.take i).flatten.length, start + (ls.take (i + 1)).flatten.length) := by
  induction ls generalizing start i with
  | nil => simp at h
  | cons line ls ih =>
    cases i with
    | zero => simp [spansOf]
    | succ i =>
      rw [spansOf, List.getElem?_cons_succ, ih (by simpa using h)]
      simp [Nat.add_assoc]

/-- What lies between the starts of two lines. -/
theorem flatten_drop_take (ls : List (List α)) (hle : i ≤ j) :
    (ls.flatten.take (ls.take j).flatten.length).drop (ls.take i).flatten.length =
      ((ls.take j).drop i).flatten := by
  have hj : ls.flatten.take (ls.take j).flatten.length = (ls.take j).flatten := by
    conv_lhs => rw [← List.take_append_drop j ls, List.flatten_append]
    simp
  have hi : (ls.take j).flatten = (ls.take i).flatten ++ ((ls.take j).drop i).flatten := by
    rw [← List.flatten_append]
    conv_lhs => rw [← List.take_append_drop i (ls.take j), List.take_take, Nat.min_eq_left hle]
  rw [hj, hi]
  simp

end Spans

/-! ### Contents -/

/-- A line without its separator. -/
def content [DecidableEq α] (sep : α) (line : List α) : List α := line.takeWhile (· ≠ sep)

/-- Where the contents of the lines start and stop. -/
def contentSpans [DecidableEq α] (sep : α) : ℕ → List (List α) → List (ℕ × ℕ)
  | _, [] => []
  | start, line :: more => (start, start + (content sep line).length) ::
      contentSpans sep (start + line.length) more

section Contents

variable [DecidableEq α] {front last : List α} {ls : List (List α)} {start i j : ℕ}

/-- A line without separator is all content. -/
theorem content_of_open (h : sep ∉ last) : content sep last = last :=
  List.takeWhile_eq_self_iff.mpr fun a ha ↦ by simpa using fun hsep : a = sep ↦ h (hsep ▸ ha)

/-- A separator at the end is not content. -/
theorem content_append_sep (h : sep ∉ front) : content sep (front ++ [sep]) = front := by
  rw [content, List.takeWhile_append_of_pos fun a ha ↦ by simpa using fun hsep : a = sep ↦ h (hsep ▸ ha)]
  simp

private theorem not_mem_content (line : List α) : sep ∉ content sep line := fun h ↦ by
  simpa using List.mem_takeWhile_imp h

/-- A line begins with its content. -/
theorem content_begins (sep : α) (line : List α) : content sep line <+: line := List.takeWhile_prefix _

/-- Every line but the last ends with a separator. -/
theorem lines_complete {l : List α} {before after : List (List α)} {line : List α} (hne : after ≠ [])
    (h : lines sep l = before ++ line :: after) : line = content sep line ++ [sep] := by
  induction l using lines_induction sep generalizing before with
  | hopen last hlast =>
    by_cases hnil : last = []
    · simp [hnil, lines] at h
    · have hlen := congrArg List.length h
      have hpos := List.length_pos_iff.mpr hne
      rw [lines_open hlast hnil] at hlen
      simp at hlen
      omega
  | hcut front rest hfront ih =>
    rw [lines_cut hfront] at h
    cases before with
    | nil =>
      obtain ⟨rfl, -⟩ := List.cons.inj h
      rw [content_append_sep hfront]
    | cons first before => exact ih (List.cons.inj h).2

/-- Every line has one span of content. -/
@[simp] theorem length_contentSpans : (contentSpans sep start ls).length = ls.length := by
  induction ls generalizing start with
  | nil => rfl
  | cons line ls ih => simp [contentSpans, ih]

/-- The content starts where its line does and is as long as the content. -/
theorem getElem?_contentSpans {line : List α} (h : ls[i]? = some line) :
    (contentSpans sep start ls)[i]? = some (start + (ls.take i).flatten.length,
      start + (ls.take i).flatten.length + (content sep line).length) := by
  induction ls generalizing start i with
  | nil => simp at h
  | cons first ls ih =>
    cases i with
    | zero =>
      obtain rfl : first = line := by simpa using h
      simp [contentSpans]
    | succ i =>
      rw [contentSpans, List.getElem?_cons_succ, ih (by simpa using h)]
      simp [Nat.add_assoc]

/-- What lies between the start of a line and the end of the content of a later one. -/
theorem flatten_drop_take_content (sep : α) {line : List α} (hle : i ≤ j) (h : ls[j]? = some line) :
    (ls.flatten.take ((ls.take j).flatten.length + (content sep line).length)).drop
        (ls.take i).flatten.length =
      ((ls.take j).drop i).flatten ++ content sep line := by
  obtain ⟨rest, hrest⟩ := content_begins sep line
  obtain ⟨hj, rfl⟩ := List.getElem?_eq_some_iff.mp h
  have hsplit : ls.flatten =
      (ls.take j).flatten ++ (content sep ls[j] ++ (rest ++ (ls.drop (j + 1)).flatten)) := by
    conv_lhs => rw [← List.take_append_drop j ls, List.flatten_append, List.drop_eq_getElem_cons hj,
      List.flatten_cons, ← hrest]
    rw [List.append_assoc]
  have hfront : (ls.take j).flatten = (ls.take i).flatten ++ ((ls.take j).drop i).flatten := by
    rw [← List.flatten_append]
    conv_lhs => rw [← List.take_append_drop i (ls.take j), List.take_take, Nat.min_eq_left hle]
  rw [hsplit, List.take_length_add_append, List.take_left, hfront, List.append_assoc, List.drop_left]

/-- Lines that a separator ends, and the content of one more, are their contents with separators between. -/
theorem intercalate_content {init : List (List α)} {last : List α}
    (h : ∀ line ∈ init, line = content sep line ++ [sep]) :
    [sep].intercalate ((init ++ [last]).map (content sep)) = init.flatten ++ content sep last := by
  induction init with
  | nil => simp
  | cons line init ih =>
    have hline := h line List.mem_cons_self
    rw [List.cons_append, List.map_cons, List.intercalate_cons_of_ne_nil (by simp),
      ih fun l hl ↦ h l (List.mem_cons_of_mem _ hl), List.flatten_cons]
    conv_rhs => rw [hline]
    simp

/-- The content of consecutive lines, cut at the separators. -/
theorem splitOn_lines {l : List α} {line : List α} (hle : i ≤ j) (h : (lines sep l)[j]? = some line) :
    ((((lines sep l).take j).drop i).flatten ++ content sep line).splitOn sep =
      (((lines sep l).map (content sep)).take (j + 1)).drop i := by
  obtain ⟨hj, rfl⟩ := List.getElem?_eq_some_iff.mp h
  have hcomplete : ∀ line ∈ ((lines sep l).take j).drop i, line = content sep line ++ [sep] := by
    intro line hline
    obtain ⟨before, after, hsplit⟩ := List.append_of_mem (List.mem_of_mem_drop hline)
    have hlines : lines sep l = before ++ line :: (after ++ (lines sep l).drop j) := by
      conv_lhs => rw [← List.take_append_drop j (lines sep l), hsplit]
      simp
    exact lines_complete (by simp; omega) hlines
  rw [← intercalate_content hcomplete, List.splitOn_intercalate]
  · have hlen : i ≤ ((lines sep l).take j).length := by
      rw [List.length_take]
      omega
    rw [← List.map_take, ← List.map_drop, ← List.take_append_getElem hj, List.drop_append_of_le_length hlen]
  · intro piece hpiece
    obtain ⟨line, -, rfl⟩ := List.mem_map.mp hpiece
    exact not_mem_content line
  · simp

end Contents
end Gitility
