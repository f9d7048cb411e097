import Mathlib.Order.Nat

/-!
# Progress in fair runs

Threads that move in any order, each again and again unless it has nothing to do. A state is left
when one thread lowers a rank with every move it makes and no other move raises it.
-/

namespace Gitility

variable {S M T : Type}

/-- An infinite run in which every thread moves again and again or has nothing to do. -/
structure FairRun (step : S → M → Option S) (mover : M → Option T) (idle : T → S → Prop) where
  state : ℕ → S
  move : ℕ → M
  steps : ∀ n, step (state n) (move n) = some (state (n + 1))
  fair : ∀ t n, ∃ m, n ≤ m ∧ (mover (move m) = some t ∨ idle t (state m))

namespace FairRun

variable {step : S → M → Option S} {mover : M → Option T} {idle : T → S → Prop}

/-- What every step keeps holds from then on. -/
theorem always (run : FairRun step mover idle) {P : S → Prop}
    (hstep : ∀ s m s', P s → step s m = some s' → P s') {n : ℕ} (h : P (run.state n)) {m : ℕ}
    (hm : n ≤ m) : P (run.state m) := by
  induction hm with
  | refl => exact h
  | step _ ih => exact hstep _ _ _ ih (run.steps _)

/-- While `P` holds, the moves of thread `t` lower the rank and no move raises it: so `P` is left
for `Q`. -/
theorem reaches (run : FairRun step mover idle) (t : T) {P Q : S → Prop} (rank : S → ℕ)
    (hbusy : ∀ s, P s → ¬idle t s)
    (hstep : ∀ s m s', P s → step s m = some s' →
      Q s' ∨ P s' ∧ rank s' ≤ rank s ∧ (mover m = some t → rank s' < rank s))
    {n : ℕ} (h : P (run.state n)) : ∃ m, n ≤ m ∧ Q (run.state m) := by
  induction hr : rank (run.state n) using Nat.strong_induction_on generalizing n with
  | _ r ih =>
    subst hr
    obtain ⟨k, hk, hmoves⟩ := run.fair t n
    -- Up to the next move of `t`, either `Q` is reached or `P` holds and the rank has not grown.
    have hupto (d : ℕ) : (∃ m, n ≤ m ∧ Q (run.state m)) ∨
        P (run.state (n + d)) ∧ rank (run.state (n + d)) ≤ rank (run.state n) := by
      induction d with
      | zero => exact .inr ⟨h, le_refl _⟩
      | succ d ihd =>
        rcases ihd with hq | ⟨hp, hle⟩
        · exact .inl hq
        · rcases hstep _ _ _ hp (run.steps _) with hq | ⟨hp', hle', -⟩
          · exact .inl ⟨n + d + 1, by omega, hq⟩
          · exact .inr ⟨hp', hle'.trans hle⟩
    rcases hupto (k - n) with hq | ⟨hp, hle⟩
    · exact hq
    · rw [Nat.add_sub_cancel' hk] at hp hle
      have hmove : mover (run.move k) = some t :=
        hmoves.resolve_right (hbusy _ hp)
      rcases hstep _ _ _ hp (run.steps k) with hq | ⟨hp', -, hless⟩
      · exact ⟨k + 1, by omega, hq⟩
      · obtain ⟨m, hm, hq⟩ := ih _ ((hless hmove).trans_le hle) hp' rfl
        exact ⟨m, by omega, hq⟩

end FairRun

end Gitility
