import Mathlib.Logic.Relation
import Gitility.Base.Lockstep

/-!
# Programs in a world that answers as it likes

A contract says which answers a program has to expect of its interface, with the state after each, and what
holds after every answer. `Meets` is the weakest precondition of a program under it. A program that meets a
contract keeps it in every state on the way to its end.
-/

namespace Gitility.Program

variable {Op : Type} {Ans : Op → Type} {ε α β S : Type}

/-- The answers of an interface, each with the state after it. -/
abbrev World (Op : Type) (Ans : Op → Type) (ε S : Type) := ∀ op, S → Except ε (Ans op) → S → Prop

/-- One call of a program. -/
inductive Answered (world : World Op Ans ε S) : Program Op Ans ε α × S → Program Op Ans ε α × S → Prop
  | call {op : Op} {k : Except ε (Ans op) → Program Op Ans ε α} {s s' : S} {answer : Except ε (Ans op)}
      (h : world op s answer s') : Answered world (.call op k, s) (k answer, s')

/-- What a program relies on, and what it promises after every answer. -/
structure Contract (Op : Type) (Ans : Op → Type) (ε S : Type) where
  world : World Op Ans ε S
  inv : S → Prop

/-- The program keeps the contract, ends in `Q` if it returns and in `E` if it fails. -/
def Meets (c : Contract Op Ans ε S) (Q : α → S → Prop) (E : ε → S → Prop) : Program Op Ans ε α → S → Prop
  | .done (.ok a), s => Q a s
  | .done (.error e), s => E e s
  | .done .diverged, _ => True
  | .call op k, s => ∀ answer s', c.world op s answer s' → c.inv s' ∧ (k answer).Meets c Q E s'

variable {c : Contract Op Ans ε S} {Q Q' : α → S → Prop} {R : β → S → Prop} {E E' : ε → S → Prop} {s : S}

/-- Returning meets what the result has to satisfy. -/
theorem meets_pure {a : α} (h : Q a s) : (pure a : Program Op Ans ε α).Meets c Q E s := h

/-- Failing meets what the error has to satisfy. -/
theorem meets_fail {e : ε} (h : E e s) : (fail e : Program Op Ans ε α).Meets c Q E s := h

/-- A given result meets its contract in either of its two cases. -/
theorem meets_ofExcept {x : Except ε α} (hok : ∀ a, x = .ok a → Q a s) (herror : ∀ e, x = .error e → E e s) :
    (ofExcept x).Meets c Q E s := by
  cases x with
  | ok a => exact hok a rfl
  | error e => exact herror e rfl

/-- A request meets a contract when every answer of the world keeps the invariant and satisfies it. -/
theorem meets_request {op : Op} {Q : Ans op → S → Prop}
    (hok : ∀ a s', c.world op s (.ok a) s' → c.inv s' ∧ Q a s')
    (herror : ∀ e s', c.world op s (.error e) s' → c.inv s' ∧ E e s') :
    (request op : Program Op Ans ε (Ans op)).Meets c Q E s := by
  intro answer s' h
  cases answer with
  | ok a => exact hok a s' h
  | error e => exact herror e s' h

/-- What holds of a caught result. -/
def caught (Q : α → S → Prop) (E : ε → S → Prop) : Except ε α → S → Prop
  | .ok a => Q a
  | .error e => E e

namespace Meets

/-- Weaker ends. -/
theorem mono {p : Program Op Ans ε α} (h : p.Meets c Q E s) (hQ : ∀ a s, Q a s → Q' a s)
    (hE : ∀ e s, E e s → E' e s) : p.Meets c Q' E' s := by
  induction p generalizing s with
  | done outcome =>
    cases outcome with
    | ok a => exact hQ a s h
    | error e => exact hE e s h
    | diverged => trivial
  | call op k ih =>
    intro answer s' hworld
    obtain ⟨hinv, hrest⟩ := h answer s' hworld
    exact ⟨hinv, ih answer hrest⟩

/-- Sequencing. -/
theorem bind {p : Program Op Ans ε α} {f : α → Program Op Ans ε β} (h : p.Meets c Q E' s)
    (hf : ∀ a s, Q a s → (f a).Meets c R E s) (hE : ∀ e s, E' e s → E e s) : (p >>= f).Meets c R E s := by
  induction p generalizing s with
  | done outcome =>
    cases outcome with
    | ok a => exact hf a s h
    | error e => exact hE e s h
    | diverged => trivial
  | call op k ih =>
    intro answer s' hworld
    obtain ⟨hinv, hrest⟩ := h answer s' hworld
    exact ⟨hinv, ih answer hrest⟩

/-- A caught failure is a value. -/
theorem attempt {p : Program Op Ans ε α} (h : p.Meets c Q E s) : p.attempt.Meets c (caught Q E) E' s := by
  induction p generalizing s with
  | done outcome => cases outcome <;> exact h
  | call op k ih =>
    intro answer s' hworld
    obtain ⟨hinv, hrest⟩ := h answer s' hworld
    exact ⟨hinv, ih answer hrest⟩

/-- Sequencing after a step that calls nothing. -/
theorem lift_bind {x : Except ε α} {f : α → Program Op Ans ε β} (hok : ∀ a, x = .ok a → (f a).Meets c R E s)
    (herror : ∀ e, x = .error e → E e s) : ((liftM x : Program Op Ans ε α) >>= f).Meets c R E s := by
  cases x with
  | ok a => exact hok a rfl
  | error e => exact herror e rfl

/-- A contract for the errors carries over to the errors rewritten. -/
theorem mapError {p : Program Op Ans ε α} {f : ε → ε} (h : p.Meets c Q E' s)
    (hE : ∀ e s, E' e s → E (f e) s) : (p.mapError f).Meets c Q E s := by
  have hcaught : p.attempt.Meets c (caught Q E') E s := attempt h
  refine bind hcaught (fun result s hresult ↦ ?_) fun _ _ h ↦ h
  cases result with
  | ok a => exact hresult
  | error e => exact hE e s hresult

/-- The ends come with the runs that lead to them. -/
theorem traced {p : Program Op Ans ε α} (h : p.Meets c Q E s) : p.Meets c
    (fun a s' ↦ Q a s' ∧ Relation.ReflTransGen (Answered c.world) (p, s) (.done (.ok a), s'))
    (fun e s' ↦ E e s' ∧ Relation.ReflTransGen (Answered c.world) (p, s) (.done (.error e), s')) s := by
  induction p generalizing s with
  | done outcome =>
    cases outcome with
    | ok a => exact ⟨h, .refl⟩
    | error e => exact ⟨h, .refl⟩
    | diverged => trivial
  | call op k ih =>
    intro answer s' hworld
    obtain ⟨hinv, hrest⟩ := h answer s' hworld
    refine ⟨hinv, (ih answer hrest).mono (fun a s'' h ↦ ?_) fun e s'' h ↦ ?_⟩
    · exact ⟨h.1, .head (.call hworld) h.2⟩
    · exact ⟨h.1, .head (.call hworld) h.2⟩

/-- What a program meets, the rest of it meets after every call, and the invariant holds there. -/
theorem answered {p p' : Program Op Ans ε α} {s' : S}
    (hstep : Relation.ReflTransGen (Answered c.world) (p, s) (p', s')) (h : p.Meets c Q E s)
    (hinv : c.inv s) : p'.Meets c Q E s' ∧ c.inv s' := by
  generalize hstart : (p, s) = start at hstep
  generalize hstop : (p', s') = stop at hstep
  induction hstep generalizing p' s' with
  | refl =>
    cases hstart
    cases hstop
    exact ⟨h, hinv⟩
  | tail _ hlast ih =>
    cases hlast with
    | call hworld =>
      cases hstop
      obtain ⟨hrest, -⟩ := ih rfl
      exact (hrest _ _ hworld).symm

end Meets

/-- Catching an error makes no further call. -/
theorem Asks.attempt {P : Op → Prop} {p : Program Op Ans ε α} (hp : p.Asks P) : p.attempt.Asks P := by
  induction p with
  | done outcome => cases outcome <;> exact hp
  | call op k ih => exact ⟨hp.1, fun answer ↦ ih answer (hp.2 answer)⟩

/-- Rewriting an error makes no call. -/
theorem Asks.mapError {P : Op → Prop} {p : Program Op Ans ε α} {f : ε → ε} (hp : p.Asks P) :
    (p.mapError f).Asks P :=
  hp.attempt.bind fun result ↦ by cases result <;> exact trivial

/-- A program whose calls all leave the state alone. -/
theorem Asks.meets {P : Op → Prop} {p : Program Op Ans ε α} (hp : p.Asks P) (hinv : c.inv s)
    (h : ∀ op, P op → ∀ answer s', c.world op s answer s' → s' = s) :
    p.Meets c (fun _ s' ↦ s' = s) (fun _ s' ↦ s' = s) s := by
  induction p with
  | done outcome =>
    cases outcome with
    | ok a => rfl
    | error e => rfl
    | diverged => trivial
  | call op k ih =>
    intro answer s' hworld
    obtain rfl := h op hp.1 answer s' hworld
    exact ⟨hinv, ih answer (hp.2 answer)⟩

/-- An interface that keeps to the world ends a program as the contract says. -/
theorem Meets.exec {handler : ∀ op, S → Except ε (Ans op) × S} {p : Program Op Ans ε α}
    (h : p.Meets c Q E s) (hhandler : ∀ op s, c.world op s (handler op s).1 (handler op s).2) {a : α} {s' : S}
    (hrun : p.exec handler s = (.ok a, s')) : Q a s' := by
  induction p generalizing s with
  | done outcome =>
    cases hrun
    exact h
  | call op k ih => exact ih _ (h _ _ (hhandler op s)).2 hrun

/-! ### Given runs -/

section Runs

open Relation (ReflTransGen)

variable {world : World Op Ans ε S} {s' : S} {a : α} {f : α → Program Op Ans ε β}

/-- A run of a first part is one of the sequence. -/
theorem answered_bind_of {p p' : Program Op Ans ε α} (h : ReflTransGen (Answered world) (p, s) (p', s')) :
    ReflTransGen (Answered world) (p >>= f, s) (p' >>= f, s') := by
  generalize hstart : (p, s) = start at h
  generalize hstop : (p', s') = stop at h
  induction h using ReflTransGen.head_induction_on generalizing p s with
  | refl =>
    cases hstop
    cases hstart
    exact .refl
  | head hfirst _ ih =>
    cases hstart
    cases hfirst with
    | call hworld => exact .head (.call hworld) (ih rfl)

/-- Sequencing goes on behind a run that returns. -/
theorem answered_bind {p : Program Op Ans ε α} (h : ReflTransGen (Answered world) (p, s) (.done (.ok a), s')) :
    ReflTransGen (Answered world) (p >>= f, s) (f a, s') :=
  answered_bind_of h

/-- A caught run is a value. -/
theorem answered_attempt {p : Program Op Ans ε α} {result : Except ε α}
    (h : ReflTransGen (Answered world) (p, s) (.done (.ofExcept result), s')) :
    ReflTransGen (Answered world) (p.attempt, s) (.done (.ok result), s') := by
  generalize hstart : (p, s) = start at h
  generalize hstop : (Program.done (.ofExcept result), s') = stop at h
  induction h using ReflTransGen.head_induction_on generalizing p s with
  | refl =>
    cases hstop
    cases hstart
    cases result <;> exact .refl
  | head hfirst _ ih =>
    cases hstart
    cases hfirst with
    | call hworld => exact .head (.call hworld) (ih rfl)

/-- A call that is answered by a value. -/
theorem answered_request {op : Op} {a : Ans op} {f : Ans op → Program Op Ans ε β} (h : world op s (.ok a) s') :
    ReflTransGen (Answered world) (request op >>= f, s) (f a, s') :=
  .single (.call h)

/-- A step that calls nothing and returns. -/
theorem answered_lift {x : Except ε α} (h : x = .ok a) :
    ReflTransGen (Answered world) ((liftM x : Program Op Ans ε α) >>= f, s) (f a, s) := by
  subst h
  exact .refl

end Runs

end Gitility.Program
