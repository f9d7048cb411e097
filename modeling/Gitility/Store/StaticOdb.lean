import Gitility.Base.Lockstep
import Gitility.Budget.Budget

/-!
# The immutable store under a budget

`crates/gitility-core/src/static_odb.rs`, with the defaults of `odb.rs` that it keeps. Its answers are
functions of the object and of the budget, which every call charges. What a query does to a budget
cannot be taken back: the limits and flags stay, and the objects read through the graph seam only grow.
An object that was read through it once is read for free from then on.
-/

namespace Gitility

/-- `static_odb.rs` `StaticOdb`. -/
structure StaticOdb where
  hash : HashKind
  objects : Oid → Option Object

namespace StaticOdb

/-- `static_odb.rs` `ensure_hash`. -/
def ensureHash (expected : HashKind) (oid : Oid) : Except Error Unit :=
  ensure (oid.kind = expected) (.new .invalidOid
    s!"object ID uses {oid.kind.debugName}, but the object store uses {expected.debugName}")

variable (odb : StaticOdb)

/-- `StaticOdb::try_header`. -/
def tryHeader (oid : Oid) : Charging (Option ObjectHeader) := do
  Budget.chargeHeader
  ensureHash odb.hash oid
  return (odb.objects oid).map fun (kind, payload) ↦ ⟨kind, payload.length⟩

/-- `ObjectDb::try_header_with_provenance`. -/
def tryHeaderWithProvenance (oid : Oid) : Charging (Option HeaderRead) := do
  let header ← odb.tryHeader oid
  return header.map fun header ↦ ⟨header, .verified⟩

/-- `StaticOdb::try_find`. -/
def tryFind (oid : Oid) : Charging (Option Object) := do
  ensureHash odb.hash oid
  match odb.objects oid with
  | none =>
    Budget.check
    return none
  | some (kind, payload) =>
    Budget.chargeObject payload.length
    return some (kind, payload)

/-- `ObjectDb::try_find_graph`. -/
def tryFindGraph (oid : Oid) : Charging (Option Object) :=
  Budget.withoutObjectCharge oid (odb.tryFind oid)

/-- What the store says about itself: the defaults of `odb.rs`, apart from its hash. -/
def info : StoreInfo where
  hashKind := odb.hash

/-- The calls of a query on the store and on its budget; `prefetch` does nothing. -/
def call : ∀ op : StoreOp, Budget → Except Error op.Answer × Budget
  | .check => Budget.check
  | .chargeTreeEntry => Budget.chargeTreeEntry
  | .chargeObjectVisit => Budget.chargeObjectVisit
  | .suspendRecharge => Budget.suspendRecharge
  | .restoreRecharge => Budget.restoreRecharge
  | .tryHeaderWithProvenance oid => odb.tryHeaderWithProvenance oid
  | .tryFind oid => odb.tryFind oid
  | .tryFindGraph oid => odb.tryFindGraph oid
  | .prefetch _ => fun budget ↦ (.ok (), budget)

/-- The outcome of a query on the store, and the budget it leaves. -/
def exec {α : Type} (query : Query α) (budget : Budget) : Outcome Error α × Budget :=
  Program.exec odb.call query budget

end StaticOdb

/-! ### What a call leaves of a budget -/

/-- A budget that a query may leave. -/
structure Budget.Later (budget later : Budget) : Prop where
  limits : later.limits = budget.limits
  cancelled : later.cancelled = budget.cancelled
  expired : later.expired = budget.expired
  graphReads : budget.graphReads ⊆ later.graphReads

namespace Budget

variable {budget later : Budget}

/-- A budget counts as later than itself. -/
theorem Later.refl (budget : Budget) : budget.Later budget := ⟨rfl, rfl, rfl, fun _ h ↦ h⟩

/-- What is later than a later budget is later. -/
theorem Later.trans {last : Budget} (h : budget.Later later) (h' : later.Later last) :
    budget.Later last where
  limits := h'.limits.trans h.limits
  cancelled := h'.cancelled.trans h.cancelled
  expired := h'.expired.trans h.expired
  graphReads := List.Subset.trans h.graphReads h'.graphReads

/-- Sequencing of calls on a budget. -/
theorem bind_eq {α β : Type} (x : Charging α) (f : α → Charging β) (budget : Budget) :
    (x >>= f) budget = match x budget with
      | (.ok a, budget) => f a budget
      | (.error e, budget) => (.error e, budget) := by
  change (ExceptT.bindCont f (x budget).1 : StateM Budget (Except Error β)) (x budget).2 = _
  rcases x budget with ⟨result, budget⟩
  cases result <;> rfl

/-- A sequence returns when both its parts do. -/
theorem bind_eq_ok {α β : Type} {x : Charging α} {f : α → Charging β} {b : β} :
    (x >>= f) budget = (.ok b, later) ↔
      ∃ a budget', x budget = (.ok a, budget') ∧ f a budget' = (.ok b, later) := by
  rw [bind_eq]
  cases h : x budget with
  | mk result budget' =>
    cases result with
    | ok a =>
      constructor
      · intro hf
        exact ⟨a, budget', rfl, hf⟩
      · rintro ⟨_, _, ⟨⟩, hf⟩
        exact hf
    | error e =>
      constructor
      · rintro ⟨⟩
      · rintro ⟨_, _, ⟨⟩, -⟩

/-- Reading the budget leaves it. -/
@[simp] theorem get_eq (budget : Budget) : (get : Charging Budget) budget = (.ok budget, budget) := rfl

/-- A given result leaves the budget. -/
@[simp] theorem lift_eq {α : Type} (x : Except Error α) (budget : Budget) :
    (liftM x : Charging α) budget = (x, budget) := by
  cases x <;> rfl

@[simp] private theorem pure_eq {α : Type} (a : α) (budget : Budget) :
    (pure a : Charging α) budget = (.ok a, budget) := rfl

/-- The call leaves only later budgets. -/
def Advances {α : Type} (x : Charging α) : Prop := ∀ budget : Budget, budget.Later (x budget).2

private theorem Advances.bind {α β : Type} {x : Charging α} {f : α → Charging β} (hx : Advances x)
    (hf : ∀ a, Advances (f a)) : Advances (x >>= f) := by
  intro budget
  have hlater := hx budget
  rw [bind_eq]
  cases h : x budget with
  | mk result later =>
    rw [h] at hlater
    cases result with
    | ok a => exact hlater.trans (hf a later)
    | error e => exact hlater

private theorem advances_pure {α : Type} (a : α) : Advances (pure a) := fun budget ↦ Later.refl budget

private theorem advances_get : Advances get := fun budget ↦ Later.refl budget

private theorem advances_lift {α : Type} (x : Except Error α) : Advances (liftM x : Charging α) := by
  intro budget
  rw [lift_eq]
  exact Later.refl budget

private theorem advances_check : Advances check :=
  advances_get.bind fun _ ↦ (advances_lift _).bind fun _ ↦ advances_lift _

private theorem advances_charge (counter : Counter) (amount : ℕ) : Advances (charge counter amount) :=
  fun _ ↦ ⟨rfl, rfl, rfl, fun _ h ↦ h⟩

private theorem advances_chargeUnsuspended : Advances chargeUnsuspended := by
  refine advances_get.bind fun budget ↦ ?_
  split
  · exact advances_charge _ _
  · exact advances_pure _

private theorem advances_chargeHeader : Advances chargeHeader :=
  advances_check.bind fun _ ↦ advances_chargeUnsuspended

private theorem advances_chargeObject (bytes : ℕ) : Advances (chargeObject bytes) := by
  refine advances_check.bind fun _ ↦ advances_get.bind fun _ ↦ (advances_lift _).bind fun _ ↦
    advances_chargeUnsuspended.bind fun _ ↦ advances_get.bind fun budget ↦ ?_
  split
  · exact Advances.bind (fun _ ↦ ⟨rfl, rfl, rfl, fun _ h ↦ h⟩) fun _ ↦ advances_charge _ _
  · exact advances_pure _

private theorem advances_withoutObjectCharge {α : Type} (oid : Oid) {read : Charging α} (h : Advances read) :
    Advances (withoutObjectCharge oid read) := by
  intro budget
  have hsuspend : budget.Later (budget.suspendCharge oid).2 := by
    refine ⟨rfl, rfl, rfl, fun other hother ↦ ?_⟩
    by_cases hmem : oid ∈ budget.graphReads <;> simp [suspendCharge, hmem, hother]
  have hlater := hsuspend.trans (h _)
  exact ⟨hlater.limits, hlater.cancelled, hlater.expired, hlater.graphReads⟩

/-- A budget whose job is neither cancelled nor late. -/
def Running (budget : Budget) : Prop := budget.cancelled = false ∧ budget.expired = false

/-- A running budget still runs later. -/
theorem Running.mono (h : budget.Running) (hlater : budget.Later later) : later.Running :=
  ⟨hlater.cancelled.trans h.1, hlater.expired.trans h.2⟩

/-- A running budget passes the check. -/
theorem Running.check (h : budget.Running) : Budget.check budget = (.ok (), budget) := by
  simp [Budget.check, bind_eq, ensure, h.1, h.2]

/-- A check succeeds only on a running budget. -/
theorem running_of_check (h : Budget.check budget = (.ok (), later)) :
    budget.Running ∧ later = budget := by
  by_cases hcancelled : budget.cancelled = false
  · by_cases hexpired : budget.expired = false
    · have hrunning : budget.Running := ⟨hcancelled, hexpired⟩
      rw [hrunning.check] at h
      exact ⟨hrunning, (Prod.mk.inj h).2.symm⟩
    · simp only [Budget.check, bind_eq, get_eq, lift_eq, ensure, if_pos hcancelled, if_neg hexpired] at h
      cases h
  · simp only [Budget.check, bind_eq, get_eq, lift_eq, ensure, if_neg hcancelled] at h
    cases h

/-- A header is charged like a visit. -/
theorem chargeHeader_eq : chargeHeader = chargeObjectVisit := rfl

/-- A refused charge exceeds the budget. -/
theorem code_of_checkCharge {previous amount ceiling : ℕ} {limitName : String} {e : Error}
    (h : checkCharge previous amount ceiling limitName = .error e) : e.code = .budgetExceeded := by
  rw [checkCharge, ensure] at h
  split at h
  · cases h
  · cases h
    rfl

/-- Under a suspended object charge only the bytes of a first read are charged. -/
theorem chargeObject_suspended {bytes : ℕ} (h : budget.Running)
    (hbytes : bytes ≤ budget.limits.maxObjectBytes) (hsuspended : budget.objectChargeSuspensions ≠ 0) :
    chargeObject bytes budget = if budget.duplicateGraphReadSuspensions = 0 then
      charge .objectBytes bytes { budget with objectsRead := budget.objectsRead + 1 }
      else (.ok (), budget) := by
  have hfits : ensure (bytes ≤ budget.limits.maxObjectBytes) = fun _ ↦ .ok () := by
    funext error
    rw [ensure, if_pos hbytes]
  simp only [chargeObject, bind_eq, h.check, get_eq, lift_eq, hfits, chargeUnsuspended, if_neg hsuspended,
    pure_eq]
  split <;> rfl

end Budget

namespace StaticOdb

variable {odb : StaticOdb} {budget later : Budget} {oid : Oid} {kind : ObjectKind} {payload : Bytes}

private theorem advances_tryHeader (oid : Oid) : Budget.Advances (odb.tryHeader oid) :=
  Budget.advances_chargeHeader.bind fun _ ↦ (Budget.advances_lift _).bind fun _ ↦
    Budget.advances_pure _

private theorem advances_tryFind (oid : Oid) : Budget.Advances (odb.tryFind oid) := by
  refine (Budget.advances_lift _).bind fun _ ↦ ?_
  split
  · exact Budget.advances_check.bind fun _ ↦ Budget.advances_pure _
  · exact (Budget.advances_chargeObject _).bind fun _ ↦ Budget.advances_pure _

/-- Every call leaves a later budget. -/
theorem later_call (op : StoreOp) (budget : Budget) : budget.Later (odb.call op budget).2 := by
  cases op with
  | check => exact Budget.advances_check budget
  | chargeTreeEntry =>
    exact (Budget.advances_check.bind fun _ ↦ Budget.advances_charge _ _ :
      Budget.Advances Budget.chargeTreeEntry) budget
  | chargeObjectVisit => exact Budget.advances_chargeHeader budget
  | suspendRecharge => exact ⟨rfl, rfl, rfl, fun _ h ↦ h⟩
  | restoreRecharge => exact ⟨rfl, rfl, rfl, fun _ h ↦ h⟩
  | tryHeaderWithProvenance oid =>
    exact ((advances_tryHeader oid).bind fun _ ↦ Budget.advances_pure _ :
      Budget.Advances (odb.tryHeaderWithProvenance oid)) budget
  | tryFind oid => exact advances_tryFind oid budget
  | tryFindGraph oid => exact Budget.advances_withoutObjectCharge oid (advances_tryFind oid) budget
  | prefetch oids => exact Budget.Later.refl budget

/-- A query leaves a later budget. -/
theorem later_exec {α : Type} (query : Query α) (budget : Budget) :
    budget.Later (odb.exec query budget).2 :=
  Program.exec_inv (fun op _ h ↦ h.trans (later_call op _)) query (Budget.Later.refl budget)

/-- A query leaves a later budget. -/
theorem later_of_exec {α : Type} {query : Query α} {outcome : Outcome Error α}
    (h : odb.exec query budget = (outcome, later)) : budget.Later later := by
  have hlater : budget.Later (odb.exec query budget).2 := later_exec query budget
  rwa [h] at hlater

/-- The header of an ID of the store's hash costs one visit. -/
theorem tryHeaderWithProvenance_eq (h : oid.kind = odb.hash) :
    odb.tryHeaderWithProvenance oid = (do
      Budget.chargeHeader
      return (odb.objects oid).map fun (kind, payload) ↦ ⟨⟨kind, payload.length⟩, .verified⟩) := by
  have hhash : ensureHash odb.hash oid = .ok () := by rw [ensureHash, ensure, if_pos h]
  funext budget
  simp only [tryHeaderWithProvenance, tryHeader, Budget.bind_eq, hhash, Budget.lift_eq]
  rcases Budget.chargeHeader budget with ⟨result, budget⟩
  cases result with
  | ok _ =>
    simp only [Budget.pure_eq, Option.map_map]
    rfl
  | error e => rfl

/-- A header is answered only for an ID of the store's hash. -/
theorem kind_of_tryHeader {found : Option HeaderRead}
    (h : odb.tryHeaderWithProvenance oid budget = (.ok found, later)) : oid.kind = odb.hash := by
  obtain ⟨header, _, hheader, -⟩ := Budget.bind_eq_ok.mp h
  obtain ⟨_, _, -, hensured⟩ := Budget.bind_eq_ok.mp hheader
  obtain ⟨_, _, hhash, -⟩ := Budget.bind_eq_ok.mp hensured
  rw [Budget.lift_eq] at hhash
  exact ensure_eq_ok.mp (Prod.mk.inj hhash).1

/-- A stored object of an ID of the store's hash is charged and answered. -/
theorem tryFind_eq (hkind : oid.kind = odb.hash) (hobject : odb.objects oid = some (kind, payload)) :
    odb.tryFind oid = (do
      Budget.chargeObject payload.length
      return some (kind, payload)) := by
  have hhash : ensureHash odb.hash oid = .ok () := by rw [ensureHash, ensure, if_pos hkind]
  funext budget
  simp only [tryFind, hhash, hobject]
  rfl

/-- An object that was read through the graph seam is read again for free. -/
theorem tryFindGraph_again (h : budget.Running) (hkind : oid.kind = odb.hash)
    (hobject : odb.objects oid = some (kind, payload))
    (hsize : payload.length ≤ budget.limits.maxObjectBytes) (hread : oid ∈ budget.graphReads) :
    odb.tryFindGraph oid budget = (.ok (some (kind, payload)), budget) := by
  have hrunning : (budget.suspendCharge oid).2.Running := h
  have hcharge : Budget.chargeObject payload.length (budget.suspendCharge oid).2 =
      (.ok (), (budget.suspendCharge oid).2) := by
    rw [Budget.chargeObject_suspended hrunning hsize (Nat.succ_ne_zero _), if_neg]
    simp [Budget.suspendCharge, hread]
  rw [tryFindGraph, tryFind_eq hkind hobject, Budget.withoutObjectCharge]
  simp only [Budget.bind_eq, hcharge]
  simp [Budget.suspendCharge, Budget.restoreCharge, hread]

/-- A read of a stored object through the graph seam answers it or exceeds the budget, and from then on
the object is known to have been read. -/
theorem tryFindGraph_first (h : budget.Running) (hkind : oid.kind = odb.hash)
    (hobject : odb.objects oid = some (kind, payload))
    (hsize : payload.length ≤ budget.limits.maxObjectBytes) :
    ∃ later, oid ∈ later.graphReads ∧ (odb.tryFindGraph oid budget = (.ok (some (kind, payload)), later) ∨
      ∃ e, e.code = .budgetExceeded ∧ odb.tryFindGraph oid budget = (.error e, later)) := by
  by_cases hread : oid ∈ budget.graphReads
  · exact ⟨budget, hread, .inl (tryFindGraph_again h hkind hobject hsize hread)⟩
  · have hrunning : (budget.suspendCharge oid).2.Running := h
    have hgraph : oid ∈ (budget.suspendCharge oid).2.graphReads := by simp [Budget.suspendCharge, hread]
    have hcharged : ∃ result later, Budget.chargeObject payload.length (budget.suspendCharge oid).2 =
        (result, later) ∧ oid ∈ later.graphReads ∧ ∀ e, result = .error e → e.code = .budgetExceeded := by
      rw [Budget.chargeObject_suspended hrunning hsize (Nat.succ_ne_zero _)]
      split
      · exact ⟨_, _, Budget.charge_eq _ _ _, hgraph, fun e he ↦ Budget.code_of_checkCharge he⟩
      · exact ⟨_, _, rfl, hgraph, by simp⟩
    obtain ⟨result, later, hcharge, hread, hcode⟩ := hcharged
    rw [tryFindGraph, tryFind_eq hkind hobject, Budget.withoutObjectCharge]
    simp only [Budget.bind_eq, hcharge]
    refine ⟨later.restoreCharge (budget.suspendCharge oid).1, hread, ?_⟩
    cases result with
    | ok _ => exact .inl rfl
    | error e => exact .inr ⟨e, hcode e rfl, rfl⟩

end StaticOdb
end Gitility
