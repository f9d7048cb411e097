import Mathlib.Data.List.Induction
import Mathlib.Data.Option.Basic
import Mathlib.Logic.Function.Basic
import Gitility.Base.Runs

/-!
# Conditional writes

A store of values under keys. A write names the tag that it expects of the value it replaces, or that it
expects none. A list of writes is the history of a store when each one met its condition. A system
whose steps write a store one at a time has the history of its run.
-/

namespace Gitility

variable {K V T : Type} [DecidableEq K] [DecidableEq T]

/-- A conditional write. -/
structure ConditionalWrite (K V T : Type) where
  key : K
  expected : Option T
  value : V
  deriving DecidableEq

namespace ConditionalWrite

variable {tag : V → T} {earlier later : List (ConditionalWrite K V T)}

/-- A write on its condition. -/
def apply (tag : V → T) (contents : K → Option V) (op : ConditionalWrite K V T) : Option (K → Option V) :=
  if (contents op.key).map tag = op.expected then some (Function.update contents op.key (some op.value))
  else none

/-- What an empty store has after writes that all met their conditions. -/
def replay (tag : V → T) (writes : List (ConditionalWrite K V T)) : Option (K → Option V) :=
  writes.foldlM (apply tag) fun _ ↦ none

private theorem replay_append :
    replay tag (earlier ++ later) =
      (replay tag earlier).bind fun contents ↦ later.foldlM (apply tag) contents := by
  unfold replay
  rw [List.foldlM_append]
  rfl

end ConditionalWrite

/-! ### Runs -/

namespace Trace

variable {S M : Type} {step : S → M → Option S} {start s : S} {steps : List (S × M)}

/-- A run up to one of its steps. -/
theorem before {earlier later : List (S × M)} {x : S × M} (h : Trace step start steps s)
    (hsteps : steps = earlier ++ x :: later) : Trace step start earlier x.1 := by
  induction h generalizing later with
  | nil => simp at hsteps
  | @snoc steps s s' move hrun _ ih =>
    rcases List.eq_nil_or_concat later with rfl | ⟨later, last, rfl⟩
    · obtain ⟨rfl, hlast⟩ := List.append_inj' hsteps rfl
      obtain rfl := (List.cons.inj hlast).1
      exact hrun
    · rw [List.concat_eq_append, ← List.cons_append, ← List.append_assoc] at hsteps
      exact ih (List.append_inj' hsteps rfl).1

/-- The run of a list of moves. -/
theorem of_moves {moves : List M} (h : moves.foldlM step start = some s) :
    ∃ steps, Trace step start steps s ∧ steps.map Prod.snd = moves := by
  induction moves using List.reverseRecOn generalizing s with
  | nil =>
    cases h
    exact ⟨[], .nil, rfl⟩
  | append_singleton moves last ih =>
    rw [List.foldlM_append] at h
    obtain ⟨middle, hmiddle, hlast⟩ := Option.bind_eq_some_iff.mp h
    rw [List.foldlM_cons] at hlast
    obtain ⟨after, hmove, hnil⟩ := Option.bind_eq_some_iff.mp hlast
    cases hnil
    obtain ⟨steps, hrun, hmoves⟩ := ih hmiddle
    exact ⟨steps ++ [(middle, last)], hrun.move last hmove, by simp [hmoves]⟩

/-- A run whose steps write a store one at a time has the history of its writes. -/
theorem replay {tag : V → T} {contents : S → K → Option V}
    {point : S × M → Option (ConditionalWrite K V T)}
    (h : Trace step start steps s) (hstart : contents start = fun _ ↦ none)
    (hnone : ∀ x ∈ steps, ∀ s', step x.1 x.2 = some s' → point x = none → contents s' = contents x.1)
    (hsome : ∀ x ∈ steps, ∀ s' op, step x.1 x.2 = some s' → point x = some op →
      op.apply tag (contents x.1) = some (contents s')) :
    ConditionalWrite.replay tag (steps.filterMap point) = some (contents s) := by
  induction h with
  | nil => rw [hstart]; rfl
  | @snoc steps s s' move _ hmove ih =>
    have hlast : (s, move) ∈ steps ++ [(s, move)] := by simp
    have hprevious := ih (fun x hx ↦ hnone x (List.mem_append_left _ hx))
      fun x hx ↦ hsome x (List.mem_append_left _ hx)
    rw [List.filterMap_append, ConditionalWrite.replay_append, hprevious, Option.bind_some]
    cases hpoint : point (s, move) with
    | none => simp [hpoint, hnone _ hlast s' hmove hpoint]
    | some op => simp [hpoint, hsome _ hlast s' op hmove hpoint]

end Trace

end Gitility
