import Gitility.Store.ObjectDb

/-!
# Per-operation resource budgets

`crates/gitility-core/src/budget.rs`. A charge adds to its counter first and checks afterwards, so
that the failed charges stay in the counter. The additions wrap, the check saturates. Whether the
job is cancelled or its deadline has passed is read from two flags, and the nesting depths of
suspended charging are natural numbers.
-/

namespace Gitility

/-- `budget.rs` `BudgetLimits`. -/
structure BudgetLimits where
  maxObjects : ℕ := 100000
  maxObjectBytes : ℕ := 4 * 2 ^ 20
  maxTotalObjectBytes : ℕ := 256 * 2 ^ 20
  maxProviderRequests : ℕ := 500
  maxProviderBytes : ℕ := 256 * 2 ^ 20
  maxTreeEntries : ℕ := 20000
  maxDeltaDepth : ℕ := 128
  deriving DecidableEq

/-- The counters of a `Budget` that have a ceiling. -/
inductive Counter where
  | objects
  | objectBytes
  | providerRequests
  | providerBytes
  | treeEntries
  deriving DecidableEq, Repr

namespace Counter

/-- The limit that the charges to a counter name. -/
def limitName : Counter → String
  | .objects => "max_objects"
  | .objectBytes => "max_total_object_bytes"
  | .providerRequests => "max_provider_requests"
  | .providerBytes => "max_provider_bytes"
  | .treeEntries => "max_tree_entries"

/-- The ceiling that the charges to a counter check. -/
def ceiling (limits : BudgetLimits) : Counter → ℕ
  | .objects => limits.maxObjects
  | .objectBytes => limits.maxTotalObjectBytes
  | .providerRequests => limits.maxProviderRequests
  | .providerBytes => limits.maxProviderBytes
  | .treeEntries => limits.maxTreeEntries

end Counter

/-- `AtomicU64::fetch_add`: the previous value and the counter after it. -/
def fetchAdd (counter amount : ℕ) : ℕ × ℕ := (counter, (counter + amount) % 2 ^ 64)

/-- What `charge` does with the value `fetch_add` returned. -/
def checkCharge (previous amount ceiling : ℕ) (limitName : String) : Except Error Unit :=
  ensure (saturatingAdd previous amount ≤ ceiling)
    ((Error.new .budgetExceeded (limitName ++ " exceeded")).withLimit limitName)

/-- `budget.rs` `Budget`. -/
structure Budget where
  limits : BudgetLimits
  cancelled : Bool := false
  expired : Bool := false
  counter : Counter → ℕ := fun _ ↦ 0
  objectChargeSuspensions : ℕ := 0
  duplicateGraphReadSuspensions : ℕ := 0
  graphReads : List Oid := []
  objectsRead : ℕ := 0

/-- A call on the budget, which changes it also when it fails. -/
abbrev Charging (α : Type) := ExceptT Error (StateM Budget) α

namespace Budget

/-- `Budget::check`. -/
def check : Charging Unit := do
  let budget ← get
  ensure (budget.cancelled = false) (.new .cancelled "operation cancelled")
  ensure (budget.expired = false) (.new .timeout "operation budget expired")

/-- `budget.rs` `charge`. -/
def charge (counter : Counter) (amount : ℕ) : Charging Unit := do
  let budget ← get
  let (previous, total) := fetchAdd (budget.counter counter) amount
  set { budget with counter := Function.update budget.counter counter total }
  checkCharge previous amount (counter.ceiling budget.limits) counter.limitName

/-- The charge to `max_objects` of every call that is not suspended. -/
def chargeUnsuspended : Charging Unit := do
  if (← get).objectChargeSuspensions = 0 then charge .objects 1

/-- `Budget::charge_object`. -/
def chargeObject (bytes : ℕ) : Charging Unit := do
  check
  let limit := (← get).limits.maxObjectBytes
  ensure (bytes ≤ limit) ((Error.new .objectTooLarge ("object of " ++ toString bytes ++
    " bytes exceeds max_object_bytes " ++ toString limit)).withLimit "max_object_bytes")
  chargeUnsuspended
  if (← get).duplicateGraphReadSuspensions = 0 then
    modify fun budget ↦ { budget with objectsRead := budget.objectsRead + 1 }
    charge .objectBytes bytes

/-- `Budget::charge_object_visit`. -/
def chargeObjectVisit : Charging Unit := do
  check
  chargeUnsuspended

/-- `Budget::charge_header`. -/
def chargeHeader : Charging Unit := do
  check
  chargeUnsuspended

/-- `Budget::charge_tree_entry`. -/
def chargeTreeEntry : Charging Unit := do
  check
  charge .treeEntries 1

/-- `Budget::charge_integrity_bytes`. -/
def chargeIntegrityBytes (bytes : ℕ) : Charging Unit := do
  check
  charge .objectBytes bytes

/-- `Budget::charge_provider_request`. -/
def chargeProviderRequest : Charging Unit := do
  check
  charge .providerRequests 1

/-- `Budget::charge_provider_bytes`. -/
def chargeProviderBytes (bytes : ℕ) : Charging Unit := do
  check
  charge .providerBytes bytes

/-- What `without_object_charge` does before the read: whether the object was read before, and
the suspensions. -/
def suspendCharge (budget : Budget) (oid : Oid) : Bool × Budget :=
  let duplicate := decide (oid ∈ budget.graphReads)
  (duplicate, { budget with
    graphReads := if duplicate then budget.graphReads else oid :: budget.graphReads
    objectChargeSuspensions := budget.objectChargeSuspensions + 1
    duplicateGraphReadSuspensions :=
      budget.duplicateGraphReadSuspensions + if duplicate then 1 else 0 })

/-- The `Restore` of `without_object_charge`. -/
def restoreCharge (duplicate : Bool) (budget : Budget) : Budget :=
  { budget with
    objectChargeSuspensions := budget.objectChargeSuspensions - 1
    duplicateGraphReadSuspensions :=
      budget.duplicateGraphReadSuspensions - if duplicate then 1 else 0 }

/-- `Budget::without_object_charge`. -/
def withoutObjectCharge {α : Type} (oid : Oid) (read : Charging α) : Charging α := fun budget ↦
  let (duplicate, budget) := budget.suspendCharge oid
  let (result, budget) := read budget
  (result, budget.restoreCharge duplicate)

/-- `Budget::without_object_recharge` before the replay. -/
def suspendRecharge : Charging Unit := modify fun budget ↦ { budget with
  objectChargeSuspensions := budget.objectChargeSuspensions + 1
  duplicateGraphReadSuspensions := budget.duplicateGraphReadSuspensions + 1 }

/-- `Budget::without_object_recharge` after the replay. -/
def restoreRecharge : Charging Unit := modify fun budget ↦ { budget with
  objectChargeSuspensions := budget.objectChargeSuspensions - 1
  duplicateGraphReadSuspensions := budget.duplicateGraphReadSuspensions - 1 }

/-! ### Spec lemmas -/

/-- What a charge answers; the counter grows by the amount, modulo 2^64, even when the charge fails. -/
theorem charge_eq (counter : Counter) (amount : ℕ) (budget : Budget) :
    charge counter amount budget =
      (checkCharge (budget.counter counter) amount (counter.ceiling budget.limits) counter.limitName,
        { budget with
          counter := Function.update budget.counter counter
            ((budget.counter counter + amount) % 2 ^ 64) }) := rfl

end Budget
end Gitility
