import Mathlib.Logic.Function.Basic

/-!
# Programs over an interface

A program calls operations of an interface and goes on with their answers; a failed operation
answers an error, which the program may catch. `eval` runs it against fixed answers, `run`
against an interface that keeps a state. A loop is written with a bound on its iterations and
ends in `diverged` when the bound is too small.
-/

namespace Gitility

/-- How a program ends. -/
inductive Outcome (ε α : Type) where
  | ok (value : α)
  | error (error : ε)
  | diverged
  deriving DecidableEq

namespace Outcome

variable {ε α β γ : Type}

/-- Sequencing: what is not a value ends the sequence. -/
def bind (x : Outcome ε α) (f : α → Outcome ε β) : Outcome ε β :=
  match x with
  | .ok a => f a
  | .error e => .error e
  | .diverged => .diverged

instance : Monad (Outcome ε) where
  pure := .ok
  bind := bind

/-- The outcome of a fallible step. -/
def ofExcept : Except ε α → Outcome ε α
  | .ok a => .ok a
  | .error e => .error e

/-- The monad's return is the outcome `ok`. -/
@[simp] theorem pure_eq (a : α) : (pure a : Outcome ε α) = .ok a := rfl

/-- A value is passed on. -/
@[simp] theorem ok_bind (a : α) (f : α → Outcome ε β) : (Outcome.ok a >>= f) = f a := rfl

@[simp] private theorem error_bind (e : ε) (f : α → Outcome ε β) :
    ((Outcome.error e : Outcome ε α) >>= f) = .error e := rfl

/-- Nothing follows a divergence. -/
@[simp] theorem diverged_bind (f : α → Outcome ε β) :
    ((Outcome.diverged : Outcome ε α) >>= f) = .diverged := rfl

@[simp] private theorem map_eq (f : α → β) (x : Outcome ε α) :
    f <$> x = x >>= fun a ↦ .ok (f a) := rfl

/-- Sequences of outcomes are associative. -/
theorem bind_assoc (x : Outcome ε α) (f : α → Outcome ε β) (g : β → Outcome ε γ) :
    x >>= f >>= g = x >>= fun a ↦ f a >>= g := by
  cases x <;> rfl

/-- A given value is its outcome. -/
@[simp] theorem ofExcept_ok (a : α) : ofExcept (.ok a : Except ε α) = .ok a := rfl

@[simp] private theorem ofExcept_error (e : ε) : ofExcept (.error e : Except ε α) = .error e := rfl

/-- A sequence ends in a value when each step does. -/
theorem bind_eq_ok {x : Outcome ε α} {f : α → Outcome ε β} {b : β} :
    (x >>= f) = .ok b ↔ ∃ a, x = .ok a ∧ f a = .ok b := by
  cases x with
  | ok a => simp
  | error e => simp
  | diverged => simp

/-- Only a value has the outcome `ok`. -/
@[simp] theorem ofExcept_eq_ok {x : Except ε α} {a : α} : ofExcept x = .ok a ↔ x = .ok a := by
  cases x <;> simp [ofExcept]

/-- An outcome that does not diverge, and whose value has a property. -/
def Ends (post : α → Prop) : Outcome ε α → Prop
  | .ok a => post a
  | .error _ => True
  | .diverged => False

@[simp] private theorem ends_ok {post : α → Prop} {a : α} : (Outcome.ok a : Outcome ε α).Ends post ↔ post a := .rfl

@[simp] private theorem ends_error {post : α → Prop} {e : ε} : (Outcome.error e : Outcome ε α).Ends post :=
  trivial

/-- A postcondition can be weakened. -/
theorem Ends.mono {post post' : α → Prop} {x : Outcome ε α} (h : x.Ends post)
    (hpost : ∀ a, post a → post' a) : x.Ends post' := by
  cases x with
  | ok a => exact hpost a h
  | error e => trivial
  | diverged => exact h

/-- A sequence ends when each step does after the one before. -/
theorem Ends.bind {post : α → Prop} {post' : β → Prop} {x : Outcome ε α} {f : α → Outcome ε β}
    (h : x.Ends post) (hf : ∀ a, post a → (f a).Ends post') : (x >>= f).Ends post' := by
  cases x with
  | ok a => exact hf a h
  | error e => trivial
  | diverged => exact h

/-- What ends does not diverge. -/
theorem Ends.ne_diverged {post : α → Prop} {x : Outcome ε α} (h : x.Ends post) : x ≠ .diverged := by
  rintro rfl
  exact h

end Outcome

/-- A program that calls operations `op` answered by an error or a value of `Ans op`. -/
inductive Program (Op : Type) (Ans : Op → Type) (ε α : Type) : Type where
  | done (outcome : Outcome ε α)
  | call (op : Op) (k : Except ε (Ans op) → Program Op Ans ε α)

namespace Program

variable {Op : Type} {Ans : Op → Type} {ε α β S : Type}

/-- Sequencing. -/
def bind : Program Op Ans ε α → (α → Program Op Ans ε β) → Program Op Ans ε β
  | .done (.ok a), f => f a
  | .done (.error e), _ => .done (.error e)
  | .done .diverged, _ => .done .diverged
  | .call op k, f => .call op fun answer ↦ (k answer).bind f

instance : Monad (Program Op Ans ε) where
  pure a := .done (.ok a)
  bind := bind

/-- `Err(error)?`. -/
def fail (e : ε) : Program Op Ans ε α := .done (.error e)

/-- An exhausted loop bound. -/
def diverge : Program Op Ans ε α := .done .diverged

/-- `expect`: a panic does not return. -/
def unwrap : Option α → Program Op Ans ε α
  | some a => .done (.ok a)
  | none => .done .diverged

/-- A fallible step that calls nothing. -/
def ofExcept (x : Except ε α) : Program Op Ans ε α := .done (.ofExcept x)

instance : MonadLift (Except ε) (Program Op Ans ε) where
  monadLift := ofExcept

/-- One operation, with `?` on its answer. -/
def request (op : Op) : Program Op Ans ε (Ans op) := .call op ofExcept

/-- The result of a program as a value: `match program { Ok(..) => .., Err(..) => .. }`. -/
def attempt : Program Op Ans ε α → Program Op Ans ε (Except ε α)
  | .done (.ok a) => .done (.ok (.ok a))
  | .done (.error e) => .done (.ok (.error e))
  | .done .diverged => .done .diverged
  | .call op k => .call op fun answer ↦ (k answer).attempt

/-- `map_err`. -/
def mapError (f : ε → ε) (p : Program Op Ans ε α) : Program Op Ans ε α := do
  match ← p.attempt with
  | .ok a => pure a
  | .error e => fail (f e)

/-! ### Fixed answers -/

/-- The outcome when every operation always gives the same answer. -/
def eval (answer : ∀ op, Except ε (Ans op)) : Program Op Ans ε α → Outcome ε α
  | .done outcome => outcome
  | .call op k => (k (answer op)).eval answer

section Eval

variable (answer : ∀ op, Except ε (Ans op))

@[simp] private theorem eval_pure (a : α) : (pure a : Program Op Ans ε α).eval answer = .ok a := rfl

@[simp] private theorem eval_fail (e : ε) : (fail e : Program Op Ans ε α).eval answer = .error e := rfl

@[simp] private theorem eval_diverge : (diverge : Program Op Ans ε α).eval answer = .diverged := rfl

@[simp] private theorem eval_unwrap_some (a : α) :
    (unwrap (some a) : Program Op Ans ε α).eval answer = .ok a := rfl

@[simp] private theorem eval_ofExcept (x : Except ε α) :
    (ofExcept x : Program Op Ans ε α).eval answer = .ofExcept x := rfl

@[simp] private theorem eval_lift (x : Except ε α) :
    (liftM x : Program Op Ans ε α).eval answer = .ofExcept x := rfl

@[simp] private theorem eval_request (op : Op) :
    (request op : Program Op Ans ε (Ans op)).eval answer = .ofExcept (answer op) := rfl

/-- Evaluation goes through sequencing. -/
@[simp] theorem eval_bind (p : Program Op Ans ε α) (f : α → Program Op Ans ε β) :
    (p >>= f).eval answer = p.eval answer >>= fun a ↦ (f a).eval answer := by
  induction p with
  | done outcome => cases outcome <;> rfl
  | call op k ih => exact ih (answer op)

/-- A mapped program maps its value. -/
@[simp] theorem eval_map (f : α → β) (p : Program Op Ans ε α) :
    (f <$> p).eval answer = p.eval answer >>= fun a ↦ .ok (f a) :=
  eval_bind answer p _

/-- A caught program ends in a value unless it diverges. -/
theorem eval_attempt (p : Program Op Ans ε α) :
    p.attempt.eval answer = match p.eval answer with
      | .ok a => .ok (.ok a)
      | .error e => .ok (.error e)
      | .diverged => .diverged := by
  induction p with
  | done outcome => cases outcome <;> rfl
  | call op k ih => exact ih (answer op)

/-- Rewriting errors keeps values and divergence. -/
theorem eval_mapError (f : ε → ε) (p : Program Op Ans ε α) :
    (p.mapError f).eval answer = match p.eval answer with
      | .ok a => .ok a
      | .error e => .error (f e)
      | .diverged => .diverged := by
  rw [mapError, eval_bind, eval_attempt]
  cases p.eval answer <;> rfl

end Eval

/-! ### Answers from a state -/

/-- The outcome against an interface that keeps a state; `none` when the interface fails to
answer at all. -/
def run (handler : ∀ op, S → Option (Except ε (Ans op) × S)) :
    Program Op Ans ε α → S → Option (Outcome ε α × S)
  | .done outcome, s => some (outcome, s)
  | .call op k, s => do
    let (answer, s) ← handler op s
    (k answer).run handler s

end Program
end Gitility
