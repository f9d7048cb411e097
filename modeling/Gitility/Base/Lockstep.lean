import Gitility.Base.Program

/-!
# Runs side by side

`exec` runs a program against an interface that keeps a state and always answers. Two runs agree when
they end in the same way and in the same state, with values that are related there. A program that
only makes calls which leave a state alone runs in it as fixed answers do.
-/

namespace Gitility.Program

variable {Op : Type} {Ans : Op → Type} {ε α β γ α' β' S : Type}

/-- The outcome against an interface that keeps a state and always answers. -/
def exec (handler : ∀ op, S → Except ε (Ans op) × S) : Program Op Ans ε α → S → Outcome ε α × S
  | .done outcome, s => (outcome, s)
  | .call op k, s => (k (handler op s).1).exec handler (handler op s).2

section Exec

variable (handler : ∀ op, S → Except ε (Ans op) × S) (s : S)

@[simp] private theorem exec_pure (a : α) : (pure a : Program Op Ans ε α).exec handler s = (.ok a, s) := rfl

@[simp] private theorem exec_fail (e : ε) :
    (fail e : Program Op Ans ε α).exec handler s = (.error e, s) := rfl

@[simp] private theorem exec_unwrap_some (a : α) :
    (unwrap (some a) : Program Op Ans ε α).exec handler s = (.ok a, s) := rfl

@[simp] private theorem exec_ofExcept (x : Except ε α) :
    (ofExcept x : Program Op Ans ε α).exec handler s = (.ofExcept x, s) := rfl

@[simp] private theorem exec_request (op : Op) :
    (request op : Program Op Ans ε (Ans op)).exec handler s =
      (.ofExcept (handler op s).1, (handler op s).2) := rfl

/-- Execution goes through sequencing. -/
theorem exec_bind (p : Program Op Ans ε α) (f : α → Program Op Ans ε β) :
    (p >>= f).exec handler s = match p.exec handler s with
      | (.ok a, s) => (f a).exec handler s
      | (.error e, s) => (.error e, s)
      | (.diverged, s) => (.diverged, s) := by
  induction p generalizing s with
  | done outcome => cases outcome <;> rfl
  | call op k ih => exact ih _ _

/-- A caught program ends in a value unless it diverges. -/
theorem exec_attempt (p : Program Op Ans ε α) :
    p.attempt.exec handler s = match p.exec handler s with
      | (.ok a, s) => (.ok (.ok a), s)
      | (.error e, s) => (.ok (.error e), s)
      | (.diverged, s) => (.diverged, s) := by
  induction p generalizing s with
  | done outcome => cases outcome <;> rfl
  | call op k ih => exact ih _ _

/-- The answer of one caught call. -/
theorem exec_attempt_request (op : Op) :
    (request op : Program Op Ans ε (Ans op)).attempt.exec handler s =
      (.ok (handler op s).1, (handler op s).2) := by
  rw [exec_attempt, exec_request]
  cases (handler op s).1 <;> rfl

variable {handler s}

/-- A request runs to the answer of its handler. -/
theorem exec_request_of {op : Op} {answer : Except ε (Ans op)} {s' : S} (h : handler op s = (answer, s')) :
    (request op : Program Op Ans ε (Ans op)).exec handler s = (.ofExcept answer, s') := by
  rw [exec_request, h]

/-- After a returned value the continuation runs on it. -/
theorem exec_bind_ok {p : Program Op Ans ε α} {a : α} {s' : S} (h : p.exec handler s = (.ok a, s'))
    (f : α → Program Op Ans ε β) : (p >>= f).exec handler s = (f a).exec handler s' := by
  rw [exec_bind, h]

/-- An error ends the sequence. -/
theorem exec_bind_error {p : Program Op Ans ε α} {e : ε} {s' : S}
    (h : p.exec handler s = (.error e, s')) (f : α → Program Op Ans ε β) :
    (p >>= f).exec handler s = (.error e, s') := by
  rw [exec_bind, h]

/-- Sequences that begin alike and go on alike. -/
theorem exec_bind_congr {p : Program Op Ans ε α} {f g : α → Program Op Ans ε β}
    (h : ∀ a s', p.exec handler s = (.ok a, s') → (f a).exec handler s' = (g a).exec handler s') :
    (p >>= f).exec handler s = (p >>= g).exec handler s := by
  rw [exec_bind, exec_bind]
  cases hp : p.exec handler s with
  | mk outcome s' =>
    cases outcome with
    | ok a => exact h a s' hp
    | error e => rfl
    | diverged => rfl

/-- A sequence ends in a value when each step does. -/
theorem exec_bind_eq_ok {p : Program Op Ans ε α} {f : α → Program Op Ans ε β} {b : β} {s' : S} :
    (p >>= f).exec handler s = (.ok b, s') ↔
      ∃ a s₁, p.exec handler s = (.ok a, s₁) ∧ (f a).exec handler s₁ = (.ok b, s') := by
  rw [exec_bind]
  rcases p.exec handler s with ⟨outcome, s₁⟩
  cases outcome with
  | ok a =>
    constructor
    · intro h
      exact ⟨a, s₁, rfl, h⟩
    · rintro ⟨_, _, ⟨⟩, h⟩
      exact h
  | error e => simp
  | diverged => simp

/-- A caught program ends in the value of the program. -/
theorem exec_attempt_eq_ok {p : Program Op Ans ε α} {a : α} {s' : S} :
    p.attempt.exec handler s = (.ok (.ok a), s') ↔ p.exec handler s = (.ok a, s') := by
  rw [exec_attempt]
  rcases p.exec handler s with ⟨outcome, s₁⟩
  cases outcome <;> simp

/-- A returned value is caught as a success. -/
theorem exec_attempt_ok {p : Program Op Ans ε α} {a : α} {s' : S}
    (h : p.exec handler s = (.ok a, s')) : p.attempt.exec handler s = (.ok (.ok a), s') := by
  rw [exec_attempt, h]

/-- An error is caught as a value. -/
theorem exec_attempt_error {p : Program Op Ans ε α} {e : ε} {s' : S}
    (h : p.exec handler s = (.error e, s')) : p.attempt.exec handler s = (.ok (.error e), s') := by
  rw [exec_attempt, h]

/-- What every answer keeps, every program keeps. -/
theorem exec_inv {good : S → Prop} (h : ∀ op s, good s → good (handler op s).2)
    (p : Program Op Ans ε α) (hs : good s) : good (p.exec handler s).2 := by
  induction p generalizing s with
  | done outcome => exact hs
  | call op k ih => exact ih _ (h op s hs)

end Exec

/-! ### Calls of one kind -/

/-- The program makes only calls that satisfy `P`. -/
def Asks (P : Op → Prop) : Program Op Ans ε α → Prop
  | .done _ => True
  | .call op k => P op ∧ ∀ answer, (k answer).Asks P

section Asks

variable {P : Op → Prop}

/-- Returning makes no call. -/
@[simp] theorem asks_pure (a : α) : (pure a : Program Op Ans ε α).Asks P := trivial

@[simp] private theorem asks_ofExcept (x : Except ε α) : (ofExcept x : Program Op Ans ε α).Asks P := trivial

@[simp] private theorem asks_diverge : (diverge : Program Op Ans ε α).Asks P := trivial

@[simp] private theorem asks_unwrap (x : Option α) : (unwrap x : Program Op Ans ε α).Asks P := by
  cases x <;> trivial

/-- A request makes only itself. -/
theorem asks_request {op : Op} (h : P op) : (request op : Program Op Ans ε (Ans op)).Asks P :=
  ⟨h, fun _ ↦ trivial⟩

/-- A sequence makes the calls of its two parts. -/
theorem Asks.bind {p : Program Op Ans ε α} {f : α → Program Op Ans ε β} (hp : p.Asks P)
    (hf : ∀ a, (f a).Asks P) : (p >>= f).Asks P := by
  induction p with
  | done outcome =>
    cases outcome with
    | ok a => exact hf a
    | error e => trivial
    | diverged => trivial
  | call op k ih => exact ⟨hp.1, fun answer ↦ ih answer (hp.2 answer)⟩

/-- Calls that leave the state alone are answered as if the answers were fixed. -/
theorem Asks.exec {handler : ∀ op, S → Except ε (Ans op) × S} {answer : ∀ op, Except ε (Ans op)} {s : S}
    (h : ∀ op, P op → handler op s = (answer op, s)) {p : Program Op Ans ε α} (hp : p.Asks P) :
    p.exec handler s = (p.eval answer, s) := by
  induction p with
  | done outcome => rfl
  | call op k ih =>
    rw [Program.exec, h op hp.1]
    exact ih _ (hp.2 _)

end Asks

/-- The program makes only calls that satisfy `P`, and ends when one fails. -/
def Strict (P : Op → Prop) : Program Op Ans ε α → Prop
  | .done _ => True
  | .call op k => P op ∧ (∀ e, k (.error e) = .done (.error e)) ∧ ∀ a, (k (.ok a)).Strict P

section Strict

variable {P : Op → Prop}

/-- Returning makes no call. -/
theorem strict_pure (a : α) : (pure a : Program Op Ans ε α).Strict P := trivial

/-- A given result makes no call. -/
theorem strict_ofExcept (x : Except ε α) : (ofExcept x : Program Op Ans ε α).Strict P := trivial

/-- Divergence makes no call. -/
theorem strict_diverge : (diverge : Program Op Ans ε α).Strict P := trivial

/-- Unwrapping makes no call. -/
theorem strict_unwrap (x : Option α) : (unwrap x : Program Op Ans ε α).Strict P := by
  cases x <;> trivial

/-- A bare request ends when it fails. -/
theorem strict_request {op : Op} (h : P op) : (request op : Program Op Ans ε (Ans op)).Strict P :=
  ⟨h, fun _ ↦ rfl, fun _ ↦ trivial⟩

/-- A sequence of strict parts is strict. -/
theorem Strict.bind {p : Program Op Ans ε α} {f : α → Program Op Ans ε β} (hp : p.Strict P)
    (hf : ∀ a, (f a).Strict P) : (p >>= f).Strict P := by
  induction p with
  | done outcome =>
    cases outcome with
    | ok a => exact hf a
    | error e => trivial
    | diverged => trivial
  | call op k ih =>
    refine ⟨hp.1, fun e ↦ ?_, fun a ↦ ih (.ok a) (hp.2.2 a)⟩
    change (k (.error e)).bind f = _
    rw [hp.2.1 e]
    rfl

/-- A strict program makes only calls that satisfy the predicate. -/
theorem Strict.asks {p : Program Op Ans ε α} (hp : p.Strict P) : p.Asks P := by
  induction p with
  | done outcome => trivial
  | call op k ih =>
    obtain ⟨hop, herror, hok⟩ := hp
    refine ⟨hop, fun answer ↦ ?_⟩
    cases answer with
    | error e =>
      rw [herror e]
      trivial
    | ok a => exact ih (.ok a) (hok a)

/-- A value that some run returns is the one for fixed answers, if a call can succeed in one way only. -/
theorem Strict.eval_of_exec {handler : ∀ op, S → Except ε (Ans op) × S} {answer : ∀ op, Except ε (Ans op)}
    (hanswer : ∀ op a, P op → answer op = .ok a) {p : Program Op Ans ε α} (hp : p.Strict P) {a : α}
    {s s' : S} (h : p.exec handler s = (.ok a, s')) : p.eval answer = .ok a := by
  induction p generalizing s with
  | done outcome => exact (Prod.mk.inj h).1
  | call op k ih =>
    obtain ⟨hop, herror, hok⟩ := hp
    rw [Program.exec] at h
    cases hcall : (handler op s).1 with
    | error e =>
      rw [hcall, herror e] at h
      cases (Prod.mk.inj h).1
    | ok value =>
      rw [hcall] at h
      rw [Program.eval, hanswer op value hop]
      exact ih (.ok value) (hok value) h

/-- When all calls succeed, a run ends as it does for fixed answers. -/
theorem Strict.exec_of_eval {handler : ∀ op, S → Except ε (Ans op) × S} {answer : ∀ op, Except ε (Ans op)}
    (hanswer : ∀ op a, P op → answer op = .ok a) (hcalls : ∀ op s, P op → ∃ a, (handler op s).1 = .ok a)
    {p : Program Op Ans ε α} (hp : p.Strict P) (s : S) : (p.exec handler s).1 = p.eval answer := by
  induction p generalizing s with
  | done outcome => rfl
  | call op k ih =>
    obtain ⟨hop, -, hok⟩ := hp
    obtain ⟨value, hvalue⟩ := hcalls op s hop
    rw [Program.exec, Program.eval, hvalue, hanswer op value hop]
    exact ih (.ok value) (hok value) _

end Strict

/-! ### Agreement -/

/-- Two runs end in the same way and in the same state, with values that are related there. -/
inductive Agree (R : α → β → S → Prop) : Outcome ε α × S → Outcome ε β × S → Prop where
  | ok {a : α} {b : β} {s : S} (h : R a b s) : Agree R (.ok a, s) (.ok b, s)
  | error (e : ε) (s : S) : Agree R (.error e, s) (.error e, s)
  | diverged (s : S) : Agree R (.diverged, s) (.diverged, s)

namespace Agree

variable {handler : ∀ op, S → Except ε (Ans op) × S} {s : S} {R : α → β → S → Prop}
  {R' : α' → β' → S → Prop}

/-- Sequences agree when their parts do. -/
theorem bind {p : Program Op Ans ε α} {q : Program Op Ans ε β} {f : α → Program Op Ans ε α'}
    {g : β → Program Op Ans ε β'} (h : Agree R (p.exec handler s) (q.exec handler s))
    (hfg : ∀ a b s, R a b s → Agree R' ((f a).exec handler s) ((g b).exec handler s)) :
    Agree R' ((p >>= f).exec handler s) ((q >>= g).exec handler s) := by
  rw [exec_bind, exec_bind]
  generalize p.exec handler s = x at h ⊢
  generalize q.exec handler s = y at h ⊢
  cases h with
  | ok h => exact hfg _ _ _ h
  | error e s => exact .error e s
  | diverged s => exact .diverged s

/-- Sequences that begin alike agree when they go on to agree. -/
theorem bind_same {p : Program Op Ans ε α} {f : α → Program Op Ans ε α'} {g : α → Program Op Ans ε β'}
    (hfg : ∀ a s', p.exec handler s = (.ok a, s') →
      Agree R' ((f a).exec handler s') ((g a).exec handler s')) :
    Agree R' ((p >>= f).exec handler s) ((p >>= g).exec handler s) := by
  rw [exec_bind, exec_bind]
  cases h : p.exec handler s with
  | mk outcome s' =>
    cases outcome with
    | ok a => exact hfg a s' h
    | error e => exact .error e s'
    | diverged => exact .diverged s'

/-- Runs that agree look the same through functions that relate their values. -/
theorem map_eq {x : Outcome ε α × S} {y : Outcome ε β × S} (h : Agree R x y) {f : α → γ} {g : β → γ}
    (hfg : ∀ a b s, R a b s → f a = g b) : f <$> x.1 = g <$> y.1 ∧ x.2 = y.2 := by
  cases h with
  | ok h => exact ⟨congrArg Outcome.ok (hfg _ _ _ h), rfl⟩
  | error e s => exact ⟨rfl, rfl⟩
  | diverged s => exact ⟨rfl, rfl⟩

end Agree
end Gitility.Program
