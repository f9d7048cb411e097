import Gitility.Base.Object
import Gitility.Base.Program
import Gitility.Cache.Lru

/-!
# The object database contract

`crates/gitility-core/src/odb.rs`. A query is a program over the calls it makes on its store
and on its budget. An `ObjectDb` here is an immutable store under an unlimited budget: its
reads are functions of their arguments, and every budget check and charge succeeds.
-/

namespace Gitility

/-- `odb.rs` `HeaderProvenance`. -/
inductive HeaderProvenance where
  | verified
  | unverifiedProvider
  deriving DecidableEq, Repr

/-- `odb.rs` `HeaderRead`. -/
structure HeaderRead where
  header : ObjectHeader
  provenance : HeaderProvenance
  deriving DecidableEq, Repr

/-- `snapshot.rs` `Snapshot`. -/
structure Snapshot where
  commitOid : Oid
  treeOid : Oid
  deriving DecidableEq

/-- An inflated payload with its kind. -/
abbrev Object := ObjectKind × Bytes

/-- `odb.rs` `ReadManyBudget`. -/
structure ReadManyBudget where
  maxTotalBytes : Option ℕ := none

/-- `odb.rs` `enforce_read_many_budget`. -/
def enforceReadManyBudget (total : ℕ) (readBudget : ReadManyBudget) : Except Error Unit :=
  ensure (∀ maximum ∈ readBudget.maxTotalBytes, total ≤ maximum)
    ((Error.new .resultTooLarge "object batch exceeds max_total_bytes").withLimit
      "max_total_bytes")

/-- The calls a query makes while it runs. `suspendRecharge` and `restoreRecharge` bracket
`Budget::without_object_recharge`. -/
inductive StoreOp where
  | check
  | chargeTreeEntry
  | chargeObjectVisit
  | suspendRecharge
  | restoreRecharge
  | tryHeaderWithProvenance (oid : Oid)
  | tryFind (oid : Oid)
  | tryFindGraph (oid : Oid)
  | prefetch (oids : List Oid)

/-- What a successful call returns. -/
def StoreOp.Answer : StoreOp → Type
  | .check | .chargeTreeEntry | .chargeObjectVisit | .suspendRecharge | .restoreRecharge
  | .prefetch _ => Unit
  | .tryHeaderWithProvenance _ => Option HeaderRead
  | .tryFind _ | .tryFindGraph _ => Option Object

/-- A query. -/
abbrev Query (α : Type) := Program StoreOp StoreOp.Answer Error α

namespace Query

/-- `Budget::check`. -/
def check : Query Unit := Program.request StoreOp.check
/-- `Budget::charge_tree_entry`. -/
def chargeTreeEntry : Query Unit := Program.request StoreOp.chargeTreeEntry
/-- `Budget::charge_object_visit`. -/
def chargeObjectVisit : Query Unit := Program.request StoreOp.chargeObjectVisit
/-- `ObjectDb::try_header_with_provenance`. -/
def tryHeaderWithProvenance (oid : Oid) : Query (Option HeaderRead) :=
  Program.request (StoreOp.tryHeaderWithProvenance oid)
/-- `ObjectDb::try_find`. -/
def tryFind (oid : Oid) : Query (Option Object) := Program.request (StoreOp.tryFind oid)
/-- `ObjectDb::try_find_graph`. -/
def tryFindGraph (oid : Oid) : Query (Option Object) := Program.request (StoreOp.tryFindGraph oid)
/-- `ObjectDb::prefetch`. -/
def prefetch (oids : List Oid) : Query Unit := Program.request (StoreOp.prefetch oids)

/-- The flag `Budget::without_object_recharge` sets. -/
def suspendRecharge : Query Unit := Program.request StoreOp.suspendRecharge
/-- The flag `Budget::without_object_recharge` restores. -/
def restoreRecharge : Query Unit := Program.request StoreOp.restoreRecharge

/-- `Budget::without_object_recharge`, which restores the charging on every way out. -/
def withoutObjectRecharge {α : Type} (query : Query α) : Query α := do
  suspendRecharge
  let result ← query.attempt
  restoreRecharge
  Program.ofExcept result

end Query

/-- `tree.rs` `QueryStats`, without the budget and cache counters. -/
structure QueryStats where
  entriesEmitted : ℕ
  stoppedBy : Option String
  deriving DecidableEq

/-- The errors that end a page instead of failing it: `truncatable` of `log.rs`,
`path_history.rs` and `search.rs`, and the same match in `list_tree`. -/
def truncatable (error : Error) : Bool :=
  error.code = .budgetExceeded ∧
    error.limit ∉ [some "max_provider_requests", some "max_provider_bytes"]

/-- What a query asks its store about itself. -/
structure StoreInfo where
  hashKind : HashKind
  shallowRoots : Option (List Oid) := none
  supportsPrefetch : Bool := false

/-- `odb.rs` `ObjectDb`. -/
structure ObjectDb extends StoreInfo where
  tryHeaderWithProvenance : Oid → Except Error (Option HeaderRead)
  tryFind : Oid → Except Error (Option Object)
  tryFindManyBounded : List Oid → ReadManyBudget → Except Error (List (Option Object))
  prefetch : List Oid → Except Error Unit := fun _ ↦ .ok ()

namespace ObjectDb

/-- The trait's own `try_find_many_bounded`, which reads one object after the other. -/
def findEach (tryFind : Oid → Except Error (Option Object)) (readBudget : ReadManyBudget) :
    ℕ → List Oid → Except Error (List (Option Object))
  | _, [] => .ok []
  | total, oid :: oids => do
    match ← tryFind oid with
    | none => return none :: (← findEach tryFind readBudget total oids)
    | some (kind, data) =>
      let total := saturatingAdd total data.length
      enforceReadManyBudget total readBudget
      return some (kind, data) :: (← findEach tryFind readBudget total oids)

/-- A store that keeps the trait's defaults. -/
def ofFind (hashKind : HashKind) (shallowRoots : Option (List Oid))
    (tryFind : Oid → Except Error (Option Object)) : ObjectDb where
  hashKind := hashKind
  shallowRoots := shallowRoots
  tryHeaderWithProvenance oid := (tryFind oid).map fun object ↦
    object.map fun (kind, data) ↦ ⟨⟨kind, data.length⟩, .verified⟩
  tryFind := tryFind
  tryFindManyBounded oids readBudget := findEach tryFind readBudget 0 oids

/-- The answers of an immutable store under an unlimited budget. `try_find_graph` is
`try_find` with a different charge. -/
def answer (db : ObjectDb) : ∀ op : StoreOp, Except Error op.Answer
  | .check | .chargeTreeEntry | .chargeObjectVisit | .suspendRecharge | .restoreRecharge =>
    .ok ()
  | .tryHeaderWithProvenance oid => db.tryHeaderWithProvenance oid
  | .tryFind oid | .tryFindGraph oid => db.tryFind oid
  | .prefetch oids => db.prefetch oids

/-- The outcome of a query on an immutable store under an unlimited budget. -/
def eval {α : Type} (db : ObjectDb) (query : Query α) : Outcome Error α :=
  Program.eval db.answer query

section Eval

variable {db : ObjectDb} {α β : Type}

/-- Returning asks nothing. -/
@[simp] theorem eval_pure (a : α) : db.eval (pure a) = .ok a := rfl

@[simp] private theorem eval_fail (e : Error) : db.eval (Program.fail e : Query α) = .error e := rfl

/-- A given result asks nothing. -/
@[simp] theorem eval_ofExcept (x : Except Error α) :
    db.eval (Program.ofExcept x) = .ofExcept x := rfl

/-- Unwrapping a value asks nothing. -/
@[simp] theorem eval_unwrap_some (a : α) : db.eval (Program.unwrap (some a)) = .ok a := rfl

/-- A sequence is evaluated one part after another. -/
@[simp] theorem eval_bind (query : Query α) (f : α → Query β) :
    db.eval (query >>= f) = db.eval query >>= fun a ↦ db.eval (f a) :=
  Program.eval_bind _ _ _

/-- A mapped query maps its value. -/
@[simp] theorem eval_map (f : α → β) (query : Query α) :
    db.eval (f <$> query) = db.eval query >>= fun a ↦ .ok (f a) :=
  Program.eval_map _ _ _

/-- Without a budget the check passes. -/
@[simp] theorem eval_check : db.eval Query.check = .ok () := rfl

/-- Without a budget the charge passes. -/
@[simp] theorem eval_chargeTreeEntry : db.eval Query.chargeTreeEntry = .ok () := rfl

/-- Without a budget the charge passes. -/
@[simp] theorem eval_chargeObjectVisit : db.eval Query.chargeObjectVisit = .ok () := rfl

/-- The store answers a header lookup. -/
@[simp] theorem eval_tryHeaderWithProvenance (oid : Oid) :
    db.eval (Query.tryHeaderWithProvenance oid) = .ofExcept (db.tryHeaderWithProvenance oid) := rfl

/-- The store answers a lookup. -/
@[simp] theorem eval_tryFind (oid : Oid) :
    db.eval (Query.tryFind oid) = .ofExcept (db.tryFind oid) := rfl

/-- The store answers a graph lookup as a lookup. -/
@[simp] theorem eval_tryFindGraph (oid : Oid) :
    db.eval (Query.tryFindGraph oid) = .ofExcept (db.tryFind oid) := rfl

/-- The store answers a prefetch. -/
@[simp] theorem eval_prefetch (oids : List Oid) :
    db.eval (Query.prefetch oids) = .ofExcept (db.prefetch oids) := rfl

@[simp] private theorem eval_suspendRecharge : db.eval Query.suspendRecharge = .ok () := rfl

@[simp] private theorem eval_restoreRecharge : db.eval Query.restoreRecharge = .ok () := rfl

/-- Catching turns an error into a value. -/
theorem eval_attempt (query : Query α) :
    db.eval query.attempt = match db.eval query with
      | .ok a => .ok (.ok a)
      | .error e => .ok (.error e)
      | .diverged => .diverged := by
  unfold ObjectDb.eval
  rw [Program.eval_attempt]
  cases Program.eval db.answer query <;> rfl

/-- Without a budget nothing is charged again. -/
@[simp] theorem eval_withoutObjectRecharge (query : Query α) :
    db.eval query.withoutObjectRecharge = db.eval query := by
  simp only [Query.withoutObjectRecharge, eval_bind, eval_suspendRecharge, Outcome.ok_bind,
    eval_attempt, eval_restoreRecharge, eval_ofExcept]
  cases db.eval query <;> rfl

/-- A returned value is caught as a success. -/
theorem eval_attempt_of_ok {query : Query α} {a : α} (h : db.eval query = .ok a) :
    db.eval query.attempt = .ok (.ok a) := by
  rw [eval_attempt, h]

/-- Rewriting errors keeps a returned value. -/
theorem eval_mapError_of_ok {query : Query α} {f : Error → Error} {a : α}
    (h : db.eval query = .ok a) : db.eval (query.mapError f) = .ok a := by
  rw [ObjectDb.eval] at h ⊢
  rw [Program.eval_mapError, h]

end Eval

end ObjectDb
end Gitility
