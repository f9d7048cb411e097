import Mathlib.Logic.Basic

/-!
# Runs of labelled systems

A system is a partial step function over states and moves. A run keeps the state before each of its
moves, so that a property of steps can be stated of every step of a run.
-/

namespace Gitility

variable {S M : Type} {step : S → M → Option S} {start s : S} {steps : List (S × M)}

/-- A run from `start` to `s`, with each move and the state before it. -/
inductive Trace (step : S → M → Option S) (start : S) : List (S × M) → S → Prop
  | nil : Trace step start [] start
  | snoc {steps : List (S × M)} {s s' : S} {move : M} : Trace step start steps s →
      step s move = some s' → Trace step start (steps ++ [(s, move)]) s'

namespace Trace

/-- A move extends a trace. -/
theorem move {s' : S} (h : Trace step start steps s) (m : M) (hmove : step s m = some s') :
    Trace step start (steps ++ [(s, m)]) s' :=
  .snoc h hmove

/-- A trace without steps is at its start. -/
theorem eq_of_nil (h : Trace step start [] s) : s = start := by
  generalize hsteps : ([] : List (S × M)) = steps at h
  cases h with
  | nil => rfl
  | snoc _ _ => simp at hsteps

/-- The moves of a run and the states before them determine where it ends. -/
theorem unique {s' : S} (h : Trace step start steps s) (h' : Trace step start steps s') : s = s' := by
  cases h with
  | nil => exact h'.eq_of_nil.symm
  | @snoc steps s s₁ move _ hmove =>
    generalize hsteps : steps ++ [(s, move)] = steps' at h'
    cases h' with
    | nil => simp at hsteps
    | snoc _ hmove' =>
      obtain ⟨-, hlast⟩ := List.append_inj' hsteps rfl
      cases hlast
      exact Option.some.inj (hmove.symm.trans hmove')

/-- In a run whose steps all meet `P`, an invariant of states and their pasts that such steps keep holds
at the end, and before every step. -/
theorem along {I : List (S × M) → S → Prop} {P : S → M → Prop} (h : Trace step start steps s)
    (hstart : I [] start)
    (hstep : ∀ {steps s move s'}, I steps s → P s move → step s move = some s' →
      I (steps ++ [(s, move)]) s')
    (hguard : ∀ x ∈ steps, P x.1 x.2) :
    I steps s ∧ ∀ x ∈ steps, ∃ past s', I past x.1 ∧ step x.1 x.2 = some s' := by
  induction h with
  | nil => exact ⟨hstart, by simp⟩
  | @snoc steps s s' move _ hmove ih =>
    have hlast := hguard (s, move) (by simp)
    obtain ⟨hinv, hall⟩ := ih fun x hx ↦ hguard x (List.mem_append_left _ hx)
    refine ⟨hstep hinv hlast hmove, fun x hx ↦ ?_⟩
    rcases List.mem_append.mp hx with hx | hx
    · exact hall x hx
    · obtain rfl := List.mem_singleton.mp hx
      exact ⟨steps, s', hinv, hmove⟩

/-- In a run whose steps all meet `P`, an invariant that such steps keep holds at the end and a
property that it implies holds of every step. -/
theorem guarded {I : S → Prop} {P Q : S → M → Prop} (h : Trace step start steps s) (hstart : I start)
    (hstep : ∀ {s move s'}, I s → P s move → step s move = some s' → I s')
    (hpost : ∀ {s move s'}, I s → P s move → step s move = some s' → Q s move)
    (hguard : ∀ x ∈ steps, P x.1 x.2) : I s ∧ ∀ x ∈ steps, Q x.1 x.2 := by
  have hrun := h.along (I := fun _ s ↦ I s) (P := P) hstart hstep hguard
  refine ⟨hrun.1, fun x hx ↦ ?_⟩
  obtain ⟨-, s', hinv, hmove⟩ := hrun.2 x hx
  exact hpost hinv (hguard x hx) hmove

end Trace

end Gitility
