import Mathlib.Data.List.Induction
import Gitility.Base.Runs
import Gitility.Budget.Budget

/-!
# The ceiling of a counter

Calls of `charge` on one counter race. Each adds atomically and checks later what its `fetch_add`
returned; in between the others may add and check. As long as the counter does not wrap, the charges
that succeed stay within the ceiling, and none succeeds whose addition follows that of a failed one.
-/

namespace Gitility

/-- A call of `charge` after its `fetch_add`, with what that returned and, once it has checked, the
result. -/
structure ChargeCall where
  amount : ℕ
  previous : ℕ
  result : Option (Except Error Unit) := none

namespace ChargeCall

/-- The call returned `Ok`. -/
def Succeeded (c : ChargeCall) : Prop := c.result = some (.ok ())

/-- The call returned an error. -/
def Failed (c : ChargeCall) : Prop := ∃ error, c.result = some (.error error)

/-- What the call spends of the ceiling: its amount if it succeeded. -/
def spent (c : ChargeCall) : ℕ :=
  match c.result with
  | some (.ok ()) => c.amount
  | _ => 0

end ChargeCall

/-- A counter, and the calls on it in the order of their additions. -/
structure Charges where
  counter : ℕ := 0
  calls : List ChargeCall := []

/-- One atomic step: a call adds, or a call that has added checks. -/
inductive ChargeMove where
  | add (amount : ℕ)
  | check (call : ℕ)

namespace Charges

/-- The sum of the amounts of the successful calls. -/
def spent (s : Charges) : ℕ := (s.calls.map ChargeCall.spent).sum

/-- A step on a counter with a ceiling; amounts are `u64`, and a call checks once. -/
def step (ceiling : ℕ) (limitName : String) (s : Charges) : ChargeMove → Option Charges
  | .add amount =>
    if amount ≤ u64Max then
      let (previous, counter) := fetchAdd s.counter amount
      some ⟨counter, s.calls ++ [⟨amount, previous, none⟩]⟩
    else none
  | .check i =>
    match s.calls[i]? with
    | some ⟨amount, previous, none⟩ =>
      some { s with
        calls := s.calls.set i
          ⟨amount, previous, some (checkCharge previous amount ceiling limitName)⟩ }
    | _ => none

end Charges

/-- The step does not make the counter wrap. -/
def ChargeMove.Fits (s : Charges) : ChargeMove → Prop
  | .add amount => s.counter + amount ≤ u64Max
  | .check _ => True

/-- A call that nothing interrupts is an addition followed by its check. -/
theorem Budget.charge_steps {counter : Counter} {amount : ℕ} {budget : Budget} {s : Charges}
    (hamount : amount ≤ u64Max) (hcounter : s.counter = budget.counter counter) :
    ∃ s₁ s₂, s.step (counter.ceiling budget.limits) counter.limitName (.add amount) = some s₁ ∧
      s₁.step (counter.ceiling budget.limits) counter.limitName (.check s.calls.length) = some s₂ ∧
      s₂.counter = (charge counter amount budget).2.counter counter ∧
      s₂.calls = s.calls ++ [⟨amount, s.counter, some (charge counter amount budget).1⟩] := by
  refine ⟨_, ⟨(s.counter + amount) % 2 ^ 64, s.calls ++ [⟨amount, s.counter,
    some (checkCharge s.counter amount (counter.ceiling budget.limits) counter.limitName)⟩]⟩,
    if_pos hamount, ?_, ?_, ?_⟩
  · simp only [Charges.step, List.getElem?_concat_length]
    rw [List.set_append_right _ _ (Nat.le_refl _), Nat.sub_self, List.set_cons_zero]
  · simp [charge_eq, hcounter]
  · rw [charge_eq, hcounter]

/-! ### The invariant -/

/-- The sum of the amounts of calls. -/
def attempted (calls : List ChargeCall) : ℕ := (calls.map ChargeCall.amount).sum

private theorem attempted_append (calls calls' : List ChargeCall) :
    attempted (calls ++ calls') = attempted calls + attempted calls' := by
  simp [attempted]

private theorem attempted_take_le (calls : List ChargeCall) (i : ℕ) :
    attempted (calls.take i) ≤ attempted calls := by
  conv_rhs => rw [← List.take_append_drop i calls]
  rw [attempted_append]
  exact Nat.le_add_right _ _

/-- A call's amount comes on top of those before it. -/
theorem attempted_take_succ {calls : List ChargeCall} {i : ℕ} {c : ChargeCall}
    (hc : calls[i]? = some c) : attempted (calls.take (i + 1)) = attempted (calls.take i) + c.amount := by
  rw [List.take_add_one, hc, attempted_append]
  rfl

/-- The result of a call changes no amount. -/
theorem attempted_take_set {calls : List ChargeCall} {i : ℕ} {c c' : ChargeCall}
    (hc : calls[i]? = some c) (hamount : c'.amount = c.amount) (j : ℕ) :
    attempted ((calls.set i c').take j) = attempted (calls.take j) := by
  obtain ⟨hlt, rfl⟩ := List.getElem?_eq_some_iff.mp hc
  have hset : (calls.set i c').map ChargeCall.amount = calls.map ChargeCall.amount := by
    rw [List.map_set, hamount, ← List.getElem_map ChargeCall.amount, List.set_getElem_self]
    rwa [List.length_map]
  rw [attempted, attempted, List.map_take, List.map_take, hset]

/-- The counter has not wrapped, and each call saw the sum of the amounts before it. -/
structure Unwrapped (ceiling : ℕ) (limitName : String) (s : Charges) : Prop where
  counter : s.counter = attempted s.calls
  bounded : s.counter ≤ u64Max
  previous : ∀ i c, s.calls[i]? = some c → c.previous = attempted (s.calls.take i)
  result : ∀ c ∈ s.calls, ∀ r ∈ c.result, r = checkCharge c.previous c.amount ceiling limitName

namespace Unwrapped

variable {ceiling : ℕ} {limitName : String} {s s' : Charges}

private theorem new : Unwrapped ceiling limitName {} where
  counter := rfl
  bounded := Nat.zero_le _
  previous i c hc := by simp at hc
  result c hc := by simp at hc

private theorem add (h : Unwrapped ceiling limitName s) {amount : ℕ}
    (hfits : s.counter + amount ≤ u64Max) :
    Unwrapped ceiling limitName
      ⟨(s.counter + amount) % 2 ^ 64, s.calls ++ [⟨amount, s.counter, none⟩]⟩ := by
  have hmod : (s.counter + amount) % 2 ^ 64 = s.counter + amount :=
    Nat.mod_eq_of_lt (Nat.lt_of_le_of_lt hfits (by decide))
  refine ⟨?_, ?_, fun i c hc ↦ ?_, fun c hc r hr ↦ ?_⟩
  · rw [hmod, attempted_append, ← h.counter]
    rfl
  · rwa [hmod]
  · simp only at hc ⊢
    rcases Nat.lt_or_ge i s.calls.length with hlt | hge
    · rw [List.getElem?_append_left hlt] at hc
      rw [List.take_append_of_le_length hlt.le]
      exact h.previous i c hc
    · have hlen := (List.getElem?_eq_some_iff.mp hc).1
      obtain rfl : i = s.calls.length := by
        rw [List.length_append, List.length_singleton] at hlen
        omega
      rw [List.getElem?_concat_length] at hc
      obtain rfl := Option.some.inj hc
      rw [List.take_left, ← h.counter]
  · rcases List.mem_append.mp hc with hc | hc
    · exact h.result c hc r hr
    · rw [List.mem_singleton.mp hc] at hr
      cases hr

private theorem check (h : Unwrapped ceiling limitName s) {i amount previous : ℕ}
    (hi : s.calls[i]? = some ⟨amount, previous, none⟩) :
    Unwrapped ceiling limitName { s with
      calls := s.calls.set i
        ⟨amount, previous, some (checkCharge previous amount ceiling limitName)⟩ } := by
  have hsame := attempted_take_set hi
    (show (⟨amount, previous, some (checkCharge previous amount ceiling limitName)⟩ :
      ChargeCall).amount = amount from rfl)
  refine ⟨?_, h.bounded, fun j c hc ↦ ?_, fun c hc r hr ↦ ?_⟩
  · have hall := hsame s.calls.length
    rw [List.take_of_length_le (by simp), List.take_length] at hall
    exact h.counter.trans hall.symm
  · refine Eq.trans ?_ (hsame j).symm
    rw [List.getElem?_set] at hc
    split at hc
    · next heq =>
      subst heq
      obtain rfl := Option.some.inj (Option.ite_none_right_eq_some.mp hc).2
      exact h.previous i ⟨amount, previous, none⟩ hi
    · exact h.previous j c hc
  · rcases List.mem_or_eq_of_mem_set hc with hc | rfl
    · exact h.result c hc r hr
    · exact (Option.some.inj hr).symm

/-- A step that fits keeps the invariant. -/
theorem step (h : Unwrapped ceiling limitName s) {move : ChargeMove} (hfits : move.Fits s)
    (hstep : s.step ceiling limitName move = some s') : Unwrapped ceiling limitName s' := by
  cases move with
  | add amount =>
    obtain ⟨-, heq⟩ := Option.ite_none_right_eq_some.mp hstep
    obtain rfl := Option.some.inj heq
    exact h.add hfits
  | check i =>
    simp only [Charges.step] at hstep
    split at hstep
    · next hi =>
      obtain rfl := Option.some.inj hstep
      exact h.check hi
    · cases hstep

/-- What a call saw and its amount do not overflow. -/
theorem attempted_succ_le (h : Unwrapped ceiling limitName s) {i : ℕ} {c : ChargeCall}
    (hc : s.calls[i]? = some c) :
    c.previous + c.amount = attempted (s.calls.take (i + 1)) ∧ c.previous + c.amount ≤ u64Max := by
  have heq : c.previous + c.amount = attempted (s.calls.take (i + 1)) := by
    rw [attempted_take_succ hc, h.previous i c hc]
  refine ⟨heq, ?_⟩
  rw [heq]
  exact (attempted_take_le _ _).trans (h.counter ▸ h.bounded)

/-- A call that succeeded found room for itself and all before it. -/
theorem le_ceiling (h : Unwrapped ceiling limitName s) {i : ℕ} {c : ChargeCall}
    (hc : s.calls[i]? = some c) (hok : c.Succeeded) :
    attempted (s.calls.take (i + 1)) ≤ ceiling := by
  obtain ⟨heq, hle⟩ := h.attempted_succ_le hc
  have hr := h.result c (List.mem_of_getElem? hc) (.ok ()) hok
  have hcheck := ensure_eq_ok.mp hr.symm
  rwa [saturatingAdd, Nat.min_eq_left hle, heq] at hcheck

/-- A call that failed saw, with itself, more than the ceiling. -/
theorem ceiling_lt (h : Unwrapped ceiling limitName s) {i : ℕ} {c : ChargeCall}
    (hc : s.calls[i]? = some c) (hfailed : c.Failed) :
    ceiling < attempted (s.calls.take (i + 1)) := by
  obtain ⟨heq, hle⟩ := h.attempted_succ_le hc
  obtain ⟨error, herror⟩ := hfailed
  have hr := h.result c (List.mem_of_getElem? hc) (.error error) herror
  have hcheck := (ensure_eq_error.mp hr.symm).1
  rw [saturatingAdd, Nat.min_eq_left hle, heq] at hcheck
  exact Nat.lt_of_not_le hcheck

end Unwrapped

/-- If each successful call leaves everything attempted so far within the ceiling, so is what they
spend. -/
theorem spent_le_of_attempted {ceiling : ℕ} {calls : List ChargeCall}
    (h : ∀ i c, calls[i]? = some c → c.Succeeded → attempted (calls.take (i + 1)) ≤ ceiling) :
    (calls.map ChargeCall.spent).sum ≤ attempted calls ∧ (calls.map ChargeCall.spent).sum ≤ ceiling := by
  induction calls using List.reverseRecOn with
  | nil => exact ⟨Nat.le_refl _, Nat.zero_le _⟩
  | append_singleton calls c ih =>
    obtain ⟨hattempted, hceiling⟩ := ih fun i d hd hok ↦ by
      have hlt := (List.getElem?_eq_some_iff.mp hd).1
      have hi := h i d (by rwa [List.getElem?_append_left hlt]) hok
      rwa [List.take_append_of_le_length hlt] at hi
    have hlast := h calls.length c List.getElem?_concat_length
    rw [List.take_of_length_le (by simp), attempted_append] at hlast
    rw [List.map_append, List.sum_append, attempted_append]
    simp only [attempted, List.map_cons, List.map_nil, List.sum_singleton] at hattempted hlast ⊢
    by_cases hok : c.Succeeded
    · have hspent : c.spent = c.amount := by rw [ChargeCall.spent, hok]
      have := hlast hok
      omega
    · have hspent : c.spent = 0 := by
        rw [ChargeCall.spent]
        split
        · next hr => exact absurd hr hok
        · rfl
      omega

/-- In a run without a wrapping addition the successful charges stay within the ceiling, and after a
failed charge none succeeds. -/
theorem Charges.ceiling_kept {ceiling : ℕ} {limitName : String} {steps : List (Charges × ChargeMove)}
    {s : Charges} (h : Trace (Charges.step ceiling limitName) {} steps s)
    (hfits : ∀ x ∈ steps, x.2.Fits x.1) :
    s.spent ≤ ceiling ∧ ∀ (i j : ℕ) (c d : ChargeCall), i < j → s.calls[i]? = some c → s.calls[j]? = some d →
      c.Failed → ¬d.Succeeded := by
  have hinv := (h.guarded (P := fun s move ↦ move.Fits s) (Q := fun _ _ ↦ True) Unwrapped.new
    (fun hinv hfit hstep ↦ hinv.step hfit hstep) (fun _ _ _ ↦ True.intro) hfits).1
  refine ⟨(spent_le_of_attempted fun i c hc hok ↦ hinv.le_ceiling hc hok).2, ?_⟩
  intro i j c d hij hc hd hfailed hok
  have hlt := hinv.ceiling_lt hc hfailed
  have hle := hinv.le_ceiling hd hok
  have hmono := attempted_take_le (s.calls.take (j + 1)) (i + 1)
  rw [List.take_take, Nat.min_eq_left (by omega)] at hmono
  omega

/-- Of three racing calls the one that adds last fails, before the others have checked. -/
theorem Charges.ceiling_kept_racing :
    ∃ steps s, Trace (Charges.step 10 "max_provider_bytes") {} steps s ∧ s.counter = 15 ∧
      s.spent ≤ 10 ∧ ∀ (i j : ℕ) (c d : ChargeCall), i < j → s.calls[i]? = some c →
        s.calls[j]? = some d → c.Failed → ¬d.Succeeded := by
  have h : Trace (Charges.step 10 "max_provider_bytes") {} _ _ :=
    ((((Trace.nil.move (.add 4) rfl).move (.add 5) rfl).move (.add 6) rfl).move (.check 2) rfl).move
      (.check 0) rfl
  exact ⟨_, _, h, rfl, Charges.ceiling_kept h (by simp [ChargeMove.Fits, u64Max])⟩

/-- A charge of `u64::MAX` fails and takes one off the counter; the charge after it succeeds, and
eleven of ten are spent. -/
theorem Charges.overspent_after_wrap :
    ∃ steps s, Trace (Charges.step 10 "max_provider_bytes") {} steps s ∧ 10 < s.spent ∧
      ∃ c d, s.calls[1]? = some c ∧ s.calls[2]? = some d ∧ c.Failed ∧
        10 < attempted (s.calls.take 2) ∧ 0 < d.amount ∧ d.Succeeded := by
  have h : Trace (Charges.step 10 "max_provider_bytes") {} _ _ :=
    (((((Trace.nil.move (.add 5) rfl).move (.check 0) rfl).move (.add u64Max) rfl).move
      (.check 1) rfl).move (.add 6) rfl).move (.check 2) rfl
  exact ⟨_, _, h, by decide, _, _, rfl, rfl, ⟨_, rfl⟩, by decide, by decide, rfl⟩

end Gitility
