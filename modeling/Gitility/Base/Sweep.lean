import Mathlib.Data.List.AList

/-!
# Sweeps over a map

A fold over the entries of a map, whose body works on a state that shows a map again and touches there
the entry it is at. The state after the fold shows every entry treated once.
-/

namespace Gitility

variable {α β S : Type} {view : S → α → Option β}
  {body : S → (Sigma fun _ : α ↦ β) → S} {treat : α → β → Option β}

/-- What no step of a fold changes. -/
theorem foldl_frame {T E : Type} (part : S → T) {f : S → E → S} (hf : ∀ s e, part (f s e) = part s)
    (entries : List E) (s : S) : part (entries.foldl f s) = part s := by
  induction entries generalizing s with
  | nil => rfl
  | cons e entries ih => rw [List.foldl_cons, ih, hf]

private theorem view_foldl_of_notMem (hother : ∀ s e a, a ≠ e.1 → view (body s e) a = view s a)
    {entries : List (Sigma fun _ : α ↦ β)} {a : α} (ha : a ∉ entries.keys) (s : S) :
    view (entries.foldl body s) a = view s a := by
  induction entries generalizing s with
  | nil => rfl
  | cons e entries ih =>
    rw [List.keys_cons, List.mem_cons, not_or] at ha
    rw [List.foldl_cons, ih ha.2, hother _ _ _ ha.1]

private theorem view_foldl (hother : ∀ s e a, a ≠ e.1 → view (body s e) a = view s a)
    {entries : List (Sigma fun _ : α ↦ β)} (hnodup : entries.NodupKeys)
    (hself : ∀ e ∈ entries, ∀ s, view s e.1 = some e.2 → view (body s e) e.1 = treat e.1 e.2) {s : S}
    (hs : ∀ e ∈ entries, view s e.1 = some e.2) {e : Sigma fun _ : α ↦ β} (he : e ∈ entries) :
    view (entries.foldl body s) e.1 = treat e.1 e.2 := by
  induction entries generalizing s with
  | nil => cases he
  | cons first entries ih =>
    obtain ⟨hfirst, hrest⟩ := List.nodupKeys_cons.mp hnodup
    rw [List.foldl_cons]
    rcases List.mem_cons.mp he with rfl | he
    · rw [view_foldl_of_notMem hother hfirst]
      exact hself e List.mem_cons_self s (hs e List.mem_cons_self)
    · refine ih hrest (fun e' he' ↦ hself e' (List.mem_cons_of_mem _ he')) (fun e' he' ↦ ?_) he
      rw [hother _ _ _ fun heq ↦ hfirst (heq ▸ List.mem_keys_of_mem he')]
      exact hs e' (List.mem_cons_of_mem _ he')

/-- Every entry of a map is treated once, and no other one appears. -/
theorem view_sweep [DecidableEq α] (view : S → α → Option β) (treat : α → β → Option β)
    {map : AList fun _ : α ↦ β}
    (hself : ∀ a b, map.lookup a = some b →
      ∀ s, view s a = some b → view (body s ⟨a, b⟩) a = treat a b)
    (hother : ∀ s e a, a ≠ e.1 → view (body s e) a = view s a) {s : S}
    (hs : ∀ a, view s a = map.lookup a) (a : α) :
    view (map.entries.foldl body s) a = (map.lookup a).bind (treat a) := by
  cases ha : map.lookup a with
  | none =>
    rw [view_foldl_of_notMem hother (AList.lookup_eq_none.mp ha), hs, ha]
    rfl
  | some b =>
    refine view_foldl hother map.nodupKeys (fun e he ↦ ?_) (fun e he ↦ ?_) (AList.mem_lookup_iff.mp ha)
    · exact hself e.1 e.2 (AList.mem_lookup_iff.mpr he)
    · rw [hs]
      exact AList.mem_lookup_iff.mpr he

end Gitility
