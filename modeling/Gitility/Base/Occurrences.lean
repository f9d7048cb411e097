import Mathlib.Data.List.Infix
import Mathlib.Data.Nat.Find

/-!
# Occurrences of a needle in a text

Where a list stands inside another, the first place where it does, and the leftmost occurrences that
do not overlap: each is the first one at or after the end of the one before it.
-/

namespace Gitility

variable {α : Type*} {needle text : List α} {start stop i j : ℕ} {starts rest : List ℕ}

/-- The needle stands in the text at a position. -/
def OccursAt (needle text : List α) (i : ℕ) : Prop := needle <+: text.drop i

instance [DecidableEq α] (needle text : List α) : DecidablePred (OccursAt needle text) :=
  fun i ↦ inferInstanceAs (Decidable (needle <+: text.drop i))

/-- The first occurrence of the needle from a position on. -/
structure FirstFrom (needle text : List α) (start i : ℕ) : Prop where
  le : start ≤ i
  occurs : OccursAt needle text i
  first : ∀ j, start ≤ j → j < i → ¬ OccursAt needle text j

/-- The leftmost occurrences from a position on, none of which overlaps the one before. -/
inductive Leftmost (needle text : List α) : ℕ → List ℕ → Prop
  | done {start : ℕ} (none : ∀ i, start ≤ i → ¬ OccursAt needle text i) : Leftmost needle text start []
  | next {start i : ℕ} {starts : List ℕ} (first : FirstFrom needle text start i)
      (rest : Leftmost needle text (i + needle.length) starts) : Leftmost needle text start (i :: starts)

/-- A search that answers the first occurrence of a needle in a text. -/
def FindsFirst (find : List α → List α → Option ℕ) : Prop :=
  ∀ text needle i, find text needle = some i ↔ FirstFrom needle text 0 i

/-- The first position at which the needle stands, tried one after the other. -/
def firstIndex [DecidableEq α] (text needle : List α) : Option ℕ :=
  (List.range (text.length + 1)).find? fun i ↦ OccursAt needle text i

/-! ### Positions -/

/-- An occurrence ends inside the text. -/
theorem OccursAt.end_le (h : OccursAt needle text i) (hneedle : needle ≠ []) :
    i + needle.length ≤ text.length := by
  have hlength := h.length_le
  have hpos := List.length_pos_iff.mpr hneedle
  rw [List.length_drop] at hlength
  omega

/-- The occurrences in a part of the text are those that end inside the part. -/
theorem occursAt_slice (hneedle : needle ≠ []) :
    OccursAt needle ((text.take stop).drop start) i ↔
      OccursAt needle text (start + i) ∧ start + i + needle.length ≤ stop := by
  have hpos := List.length_pos_iff.mpr hneedle
  rw [OccursAt, OccursAt, List.drop_drop, List.drop_take, List.prefix_take_iff]
  refine and_congr_right fun _ ↦ ?_
  omega

private theorem FirstFrom.unique (h : FirstFrom needle text start i) (h' : FirstFrom needle text start j) :
    i = j := by
  rcases lt_trichotomy i j with hlt | heq | hgt
  · exact absurd h.occurs (h'.first i h.le hlt)
  · exact heq
  · exact absurd h'.occurs (h.first j h'.le hgt)

/-- The occurrence a search answers in a part of the text is the first one in the text. -/
theorem FirstFrom.of_slice (hneedle : needle ≠ [])
    (h : FirstFrom needle ((text.take stop).drop start) 0 i) :
    FirstFrom needle text start (start + i) ∧ start + i + needle.length ≤ stop := by
  obtain ⟨hoccurs, hstop⟩ := (occursAt_slice hneedle).mp h.occurs
  refine ⟨⟨Nat.le_add_right _ _, hoccurs, fun j hj hji hocc ↦ ?_⟩, hstop⟩
  obtain ⟨k, rfl⟩ := Nat.exists_eq_add_of_le hj
  exact h.first k (Nat.zero_le k) (by omega) ((occursAt_slice hneedle).mpr ⟨hocc, by omega⟩)

/-! ### Searches -/

section Search

variable {find : List α → List α → Option ℕ}

/-- A search answers nothing only when there is no occurrence. -/
theorem FindsFirst.not_occursAt (hfind : FindsFirst find) (h : find text needle = none) (i : ℕ) :
    ¬ OccursAt needle text i := by
  classical
  intro hoccurs
  have hexists : ∃ i, OccursAt needle text i := ⟨i, hoccurs⟩
  have hfirst : FirstFrom needle text 0 (Nat.find hexists) :=
    ⟨Nat.zero_le _, Nat.find_spec hexists, fun j _ hj ↦ Nat.find_min hexists hj⟩
  rw [(hfind text needle _).mpr hfirst] at h
  exact absurd h (Option.some_ne_none _)

/-- Trying the positions one after the other is such a search. -/
theorem findsFirst_firstIndex [DecidableEq α] : FindsFirst (@firstIndex α _) := by
  intro text needle i
  rw [firstIndex, List.find?_range_eq_some]
  constructor
  · rintro ⟨hoccurs, _, hfirst⟩
    refine ⟨Nat.zero_le i, of_decide_eq_true hoccurs, fun j _ hj ↦ ?_⟩
    simpa using hfirst j hj
  · intro h
    refine ⟨decide_eq_true h.occurs, List.mem_range.mpr ?_, fun j hj ↦ ?_⟩
    · by_cases hneedle : needle = []
      · subst hneedle
        by_contra hi
        exact h.first 0 le_rfl (by omega) (List.nil_prefix)
      · have hend := h.occurs.end_le hneedle
        omega
    · simpa using h.first j (Nat.zero_le j) hj

end Search

/-! ### The leftmost occurrences -/

namespace Leftmost

/-- There is one list of leftmost occurrences. -/
theorem unique (h : Leftmost needle text start starts) (h' : Leftmost needle text start rest) :
    starts = rest := by
  induction h generalizing rest with
  | done hnone =>
    cases h' with
    | done => rfl
    | next first => exact absurd first.occurs (hnone _ first.le)
  | next first _ ih =>
    cases h' with
    | done hnone => exact absurd first.occurs (hnone _ first.le)
    | next first' rest' =>
      obtain rfl := first.unique first'
      rw [ih rest']

/-- A needle that is not empty has its leftmost occurrences. -/
theorem exists_of_ne_nil (hneedle : needle ≠ []) (text : List α) (start : ℕ) :
    ∃ starts, Leftmost needle text start starts := by
  classical
  have hpos := List.length_pos_iff.mpr hneedle
  generalize hleft : text.length - start = left
  induction left using Nat.strong_induction_on generalizing start with
  | _ left ih =>
    by_cases hexists : ∃ i, start ≤ i ∧ OccursAt needle text i
    · obtain ⟨hle, hoccurs⟩ := Nat.find_spec hexists
      have hend := hoccurs.end_le hneedle
      have hfirst : FirstFrom needle text start (Nat.find hexists) :=
        ⟨hle, hoccurs, fun j hj hlt hocc ↦ Nat.find_min hexists hlt ⟨hj, hocc⟩⟩
      obtain ⟨starts, hstarts⟩ := ih _ (by omega) (Nat.find hexists + needle.length) rfl
      exact ⟨_, next hfirst hstarts⟩
    · exact ⟨[], done fun i hi hocc ↦ hexists ⟨i, hi, hocc⟩⟩

/-- The leftmost occurrences are those from a later position on when none starts before it. -/
theorem advance (h : Leftmost needle text start starts) (hle : start ≤ stop)
    (hnone : ∀ i, start ≤ i → i < stop → ¬ OccursAt needle text i) :
    Leftmost needle text stop starts := by
  cases h with
  | done hdone => exact done fun i hi ↦ hdone i (hle.trans hi)
  | next first rest =>
    refine next ⟨?_, first.occurs, fun j hj ↦ first.first j (hle.trans hj)⟩ rest
    by_contra hlt
    exact hnone _ first.le (by omega) first.occurs

/-- A listed position is an occurrence. -/
theorem occursAt (h : Leftmost needle text start starts) (hi : i ∈ starts) : OccursAt needle text i := by
  induction h with
  | done => exact absurd hi (List.not_mem_nil)
  | next first _ ih =>
    rcases List.mem_cons.mp hi with rfl | hi
    · exact first.occurs
    · exact ih hi

/-- The first occurrence is the head of the list. -/
theorem eq_cons (h : Leftmost needle text start starts) (hfirst : FirstFrom needle text start i) :
    ∃ rest, starts = i :: rest ∧ Leftmost needle text (i + needle.length) rest := by
  cases h with
  | done hnone => exact absurd hfirst.occurs (hnone i hfirst.le)
  | next first rest =>
    obtain rfl := first.unique hfirst
    exact ⟨_, rfl, rest⟩

/-- No occurrence starts where the needle does not fit any more. -/
theorem eq_nil (h : Leftmost needle text start starts) (hneedle : needle ≠ [])
    (hstart : text.length < start + needle.length) : starts = [] := by
  cases h with
  | done => rfl
  | next first =>
    have hend := first.occurs.end_le hneedle
    have hle := first.le
    omega

end Leftmost
end Gitility
