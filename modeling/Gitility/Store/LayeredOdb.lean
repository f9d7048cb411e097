import Gitility.Store.ObjectDb

/-!
# Layered object stores and their payload cache

`crates/gitility-core/src/layered_odb.rs`. A composition reads its layers in order and keeps
what it read in one bounded cache at a fixed position of that order. A cache step returns
`none` where the LRU would panic; a failed read keeps what it has already cached.
-/

namespace Gitility

/-- `layered_odb.rs` `CacheOptions`. -/
structure CacheOptions where
  maxBytes : ℕ
  maxEntries : ℕ
  maxObjectBytes : ℕ

/-- `layered_odb.rs` `CacheState`. `insertions` counts the objects that have entered the
cache; the source does not keep it. -/
structure CacheState where
  objects : LruCache (HashKind × Oid) Object
  evictions : ℕ
  insertions : ℕ

namespace CacheState

/-- The state of a new `CacheLayer`. -/
def new (options : CacheOptions) : CacheState := ⟨.new options.maxBytes, 0, 0⟩

/-- `CacheLayer::get`. -/
def get (s : CacheState) (oid : Oid) : Option (Option Object × CacheState) :=
  (s.objects.get (oid.kind, oid)).map fun (value, objects) ↦ (value, { s with objects })

/-- The loop of `CacheLayer::insert` that makes room for one more entry. -/
def makeRoom (maxEntries : ℕ) : ℕ → CacheState → Option CacheState
  | 0, _ => none
  | fuel + 1, s =>
    if s.objects.len ≥ maxEntries then do
      let (entry, objects) ← s.objects.popLru
      match entry with
      | none => some { s with objects }
      | some _ =>
        makeRoom maxEntries fuel { s with objects, evictions := saturatingAdd s.evictions 1 }
    else some s

/-- The entry bound of `CacheLayer::insert`, which a replaced object does not touch. -/
def boundEntries (options : CacheOptions) (replaced : Bool) (s : CacheState) :
    Option CacheState :=
  if replaced then some s
  else (makeRoom options.maxEntries (s.objects.len + 1) s).map fun s ↦
    { s with insertions := s.insertions + 1 }

/-- `CacheLayer::insert`. -/
def insert (options : CacheOptions) (s : CacheState) (oid : Oid) (object : Object) :
    Option CacheState :=
  let bytes := object.2.length
  if bytes > options.maxObjectBytes ∨ bytes > options.maxBytes then some s
  else do
    let key := (oid.kind, oid)
    let (removed, objects) ← s.objects.remove key
    let s ← boundEntries options removed.isSome { s with objects }
    let (evictions, objects) ← s.objects.insertCountingEvictions key object bytes
    return { s with objects, evictions := saturatingAdd s.evictions evictions }

end CacheState

/-- A step that uses the cache and may fail. -/
def CacheM (α : Type) : Type := CacheState → Option (Except Error α × CacheState)

namespace CacheM

variable {α β : Type}

instance : Monad CacheM where
  pure a := fun s ↦ some (.ok a, s)
  bind m f := fun s ↦ do
    match ← m s with
    | (.ok a, s) => f a s
    | (.error e, s) => some (.error e, s)

instance : MonadLift (Except Error) CacheM where
  monadLift x := fun s ↦ some (x, s)

/-- A cache operation that cannot fail. -/
def lift (f : CacheState → Option (α × CacheState)) : CacheM α :=
  fun s ↦ (f s).map fun (a, s) ↦ (.ok a, s)

end CacheM

/-- `layered_odb.rs` `short_batch_error`. -/
def shortBatchError : Error :=
  .new .backendError "layer returned a short batch — ObjectDb contract violation"

/-- `layered_odb.rs` `LayeredOdb`, with the cache's position and bounds; its state is passed
along. -/
structure LayeredOdb where
  hash : HashKind
  layers : List ObjectDb
  cache : Option (ℕ × CacheOptions)

namespace LayeredOdb

/-- `CacheLayer::new`. -/
def newCacheLayer (options : CacheOptions) : Except Error Unit := do
  ensure (options.maxBytes ≠ 0)
    (.new .invalidArgument "cache max_bytes must be greater than zero")
  ensure (options.maxEntries ≠ 0)
    (.new .invalidArgument "cache max_entries must be greater than zero")
  ensure (options.maxObjectBytes ≠ 0)
    (.new .invalidArgument "cache max_object_bytes must be greater than zero")

/-- `LayeredOdb::new`. -/
def new (layers : List ObjectDb) (cache : Option (ℕ × CacheOptions)) :
    Except Error LayeredOdb :=
  match layers with
  | [] =>
    .error (.new .invalidArgument "a layered object database requires at least one store")
  | first :: rest => do
    ensure (∀ layer ∈ first :: rest, layer.hashKind = first.hashKind)
      (.new .hashMismatch "layered object stores use different hash algorithms")
    match cache with
    | none => return ⟨first.hashKind, layers, none⟩
    | some (index, options) =>
      ensure (index < layers.length)
        (.new .invalidArgument "a cache layer must precede at least one object store")
      newCacheLayer options
      return ⟨first.hashKind, layers, some (index, options)⟩

/-- The cache state of a new composition. -/
def initial (db : LayeredOdb) : CacheState :=
  .new ((db.cache.map Prod.snd).getD ⟨0, 0, 0⟩)

/-- `LayeredOdb::ensure_oid`. -/
def ensureOid (db : LayeredOdb) (oid : Oid) : Except Error Unit :=
  ensure (oid.kind = db.hash)
    (.new .invalidOid "object ID hash does not match the layered store")

/-- `LayeredOdb::cache_at`. -/
def cacheAt (db : LayeredOdb) (storeIndex : ℕ) : Option CacheOptions :=
  db.cache.bind fun (index, options) ↦ if index = storeIndex then some options else none

/-- `LayeredOdb::cache_before`. -/
def cacheBefore (db : LayeredOdb) (storeIndex : ℕ) : Option CacheOptions :=
  db.cache.bind fun (index, options) ↦ if index ≤ storeIndex then some options else none

/-- `layered_odb.rs` `verified_header`. -/
def verifiedHeader (object : Object) : HeaderRead := ⟨⟨object.1, object.2.length⟩, .verified⟩

/-- `map_err(|error| error.with_layer(index))`. -/
def atLayer {α : Type} (index : ℕ) (x : Except Error α) : Except Error α :=
  x.mapError fun error ↦ error.withLayer index

/-- A lookup in the cache at a position, if there is one. -/
def lookUp (db : LayeredOdb) (index : ℕ) (oid : Oid) : CacheM (Option Object) :=
  match db.cacheAt index with
  | some _ => CacheM.lift fun s ↦ s.get oid
  | none => pure none

/-- The layer loop of `try_header_with_provenance`, from the layer at `index` on. -/
def headerFrom (db : LayeredOdb) (oid : Oid) : ℕ → List ObjectDb → CacheM (Option HeaderRead)
  | _, [] => return none
  | index, layer :: layers => do
    match ← db.lookUp index oid with
    | some object => return some (verifiedHeader object)
    | none =>
      match ← atLayer index (layer.tryHeaderWithProvenance oid) with
      | some read => return some read
      | none => db.headerFrom oid (index + 1) layers

/-- `LayeredOdb::try_header_with_provenance`. -/
def tryHeaderWithProvenance (db : LayeredOdb) (oid : Oid) : CacheM (Option HeaderRead) := do
  db.ensureOid oid
  db.headerFrom oid 0 db.layers

/-- `LayeredOdb::try_header`. -/
def tryHeader (db : LayeredOdb) (oid : Oid) : CacheM (Option ObjectHeader) := do
  return (← db.tryHeaderWithProvenance oid).map HeaderRead.header

/-- What a batch has resolved so far, newest first, and the bytes it returns. -/
structure Batch where
  resolved : List (Oid × Option Object)
  resultBytes : ℕ

/-- Notes one resolved object, within the batch's byte ceiling. -/
def Batch.resolve (batch : Batch) (readBudget : ReadManyBudget) (oid : Oid) (object : Object) :
    Except Error Batch := do
  let resultBytes := saturatingAdd batch.resultBytes object.2.length
  enforceReadManyBudget resultBytes readBudget
  return ⟨(oid, some object) :: batch.resolved, resultBytes⟩

/-- The cache part of one round: what is resident is resolved, the rest stays unresolved. -/
def consult (db : LayeredOdb) (index : ℕ) (readBudget : ReadManyBudget) :
    List Oid → Batch → CacheM (List Oid × Batch)
  | [], batch => return ([], batch)
  | oid :: oids, batch => do
    match ← db.lookUp index oid with
    | some cached => db.consult index readBudget oids (← batch.resolve readBudget oid cached)
    | none =>
      let (unresolved, batch) ← db.consult index readBudget oids batch
      return (oid :: unresolved, batch)

/-- `if let Some(cache) = self.cache_before(index) { cache.insert(..) }`. -/
def remember (db : LayeredOdb) (index : ℕ) (oid : Oid) (object : Object) : CacheM Unit :=
  match db.cacheBefore index with
  | some options => CacheM.lift fun s ↦ (s.insert options oid object).map fun s ↦ ((), s)
  | none => pure ()

/-- The layer part of one round: what the layer returned is resolved and kept in a cache that
precedes the layer. -/
def keep (db : LayeredOdb) (index : ℕ) (readBudget : ReadManyBudget) :
    List (Oid × Option Object) → Batch → CacheM (List Oid × Batch)
  | [], batch => return ([], batch)
  | (oid, some object) :: values, batch => do
    let batch ← batch.resolve readBudget oid object
    db.remember index oid object
    db.keep index readBudget values batch
  | (oid, none) :: values, batch => do
    let (unresolved, batch) ← db.keep index readBudget values batch
    return (oid :: unresolved, batch)

/-- The layer loop of `try_find_many_bounded`, from the layer at `index` on. -/
def findFrom (db : LayeredOdb) (readBudget : ReadManyBudget) :
    ℕ → List ObjectDb → List Oid → Batch → CacheM (List Oid × Batch)
  | _, [], unresolved, batch => return (unresolved, batch)
  | index, layer :: layers, unresolved, batch => do
    let (unresolved, batch) ← db.consult index readBudget unresolved batch
    if unresolved.isEmpty then return (unresolved, batch)
    else
      let remaining : ReadManyBudget :=
        ⟨readBudget.maxTotalBytes.map fun maximum ↦ maximum - batch.resultBytes⟩
      let values ← atLayer index (layer.tryFindManyBounded unresolved remaining)
      ensure (values.length = unresolved.length) (shortBatchError.withLayer index)
      let (unresolved, batch) ← db.keep index readBudget (unresolved.zip values) batch
      db.findFrom readBudget (index + 1) layers unresolved batch

/-- `filter(|oid| seen.insert(*oid))`: the first appearance of each ID. -/
def firstAppearances (seen : List Oid) : List Oid → List Oid
  | [] => []
  | oid :: oids =>
    if oid ∈ seen then firstAppearances seen oids
    else oid :: firstAppearances (oid :: seen) oids

/-- `LayeredOdb::try_find_many_bounded`. -/
def tryFindManyBounded (db : LayeredOdb) (oids : List Oid) (readBudget : ReadManyBudget) :
    CacheM (List (Option Object)) := do
  (oids.forM db.ensureOid : Except Error Unit)
  let (unresolved, batch) ← db.findFrom readBudget 0 db.layers (firstAppearances [] oids) ⟨[], 0⟩
  let resolved := unresolved.map (fun oid ↦ (oid, none)) ++ batch.resolved
  return oids.map fun oid ↦ (resolved.lookup oid).getD none

/-- `LayeredOdb::try_find_many`. -/
def tryFindMany (db : LayeredOdb) (oids : List Oid) : CacheM (List (Option Object)) :=
  db.tryFindManyBounded oids {}

/-- `LayeredOdb::try_find`. -/
def tryFind (db : LayeredOdb) (oid : Oid) : CacheM (Option Object) := do
  match ← db.tryFindMany [oid] with
  | [value] => return value
  | _ => (.error shortBatchError : Except Error (Option Object))

end LayeredOdb
end Gitility
