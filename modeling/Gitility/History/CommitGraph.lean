import Mathlib.Data.Set.Finite.List
import Gitility.Base.Traversal
import Gitility.History.Commit

/-!
# The commit graph of a store

What the walks are about: the commits a store records, their parents after pruning, and the
commits reachable through them. Object IDs have a fixed length, so there are finitely many.
-/

namespace Gitility

/-! ### Reads on an immutable store -/

namespace ObjectDb

variable {db : ObjectDb} {opts : WalkOptions} {id p : Oid} {payload : Bytes} {found : CommitMeta}

/-- A commit payload is read as it is stored, whether or not it was the query's input. -/
theorem eval_readPayload (h : db.tryFind id = .ok (some (.commit, payload))) (input : Bool) :
    db.eval (readPayload id input) = .ok payload := by
  have hfind : db.eval (Query.tryFindGraph id) = .ok (some (.commit, payload)) := by
    rw [eval_tryFindGraph, h, Outcome.ofExcept_ok]
  rw [readPayload, eval_bind, eval_mapError_of_ok hfind]
  rfl

/-! ### Recorded commits -/

/-- The parents and committer time of a commit the store holds. -/
def recorded (db : ObjectDb) (id : Oid) : Option CommitMeta :=
  match db.tryFind id with
  | .ok (some (.commit, payload)) => (recordedMeta id payload).toOption
  | _ => none

/-- The parents a walk follows: none at a shallow root or at a commit older than `since`, and
at most the first one with `first_parent`. -/
def prunedParents (db : ObjectDb) (opts : WalkOptions) (id : Oid) : List Oid :=
  match db.recorded id with
  | none => []
  | some commit =>
    if (∃ roots, db.shallowRoots = some roots ∧ id ∈ roots) ∨
        (∃ since, opts.since = some since ∧ commit.time < since) then []
    else if opts.firstParent then commit.parents.take 1
    else commit.parents

/-- The committer time of a recorded commit. -/
def commitTime (db : ObjectDb) (id : Oid) : ℤ := ((db.recorded id).map CommitMeta.time).getD 0

/-- The store records every commit that the walk from `start` reaches. -/
def HoldsHistory (db : ObjectDb) (opts : WalkOptions) (start : Oid) : Prop :=
  ∀ id, Reach (db.prunedParents opts) start id → (db.recorded id).isSome

private theorem time_prune (info : StoreInfo) (opts : WalkOptions) (id : Oid) (found : CommitMeta) :
    (found.prune info opts id).time = found.time := by
  unfold CommitMeta.prune
  split
  · rfl
  · split <;> rfl

private theorem parents_prune (h : db.recorded id = some found) :
    (found.prune db.toStoreInfo opts id).parents = db.prunedParents opts id := by
  have hshallow : db.isShallow id ↔ ∃ roots, db.shallowRoots = some roots ∧ id ∈ roots := by
    rw [StoreInfo.isShallow]
    cases db.shallowRoots <;> simp
  have hsince : opts.since.any (found.time < ·) ↔
      ∃ since, opts.since = some since ∧ found.time < since := by
    cases opts.since <;> simp
  rw [prunedParents, h, CommitMeta.prune]
  simp only [hshallow, hsince, or_comm]
  split
  · rfl
  · split <;> rfl

/-- A recorded commit is read with its pruned parents. -/
theorem eval_readMeta (h : db.recorded id = some found) (opts : WalkOptions) (input : Bool) :
    db.eval (readMeta db.toStoreInfo opts id input) =
      .ok ⟨db.prunedParents opts id, db.commitTime id⟩ := by
  have hmeta : found.prune db.toStoreInfo opts id =
      ⟨db.prunedParents opts id, db.commitTime id⟩ := by
    rw [← parents_prune h, commitTime, h, Option.map_some, Option.getD_some,
      ← time_prune db.toStoreInfo opts id found]
  unfold recorded at h
  split at h
  · next payload hfind =>
    cases hrec : recordedMeta id payload with
    | error e => simp [hrec, Except.toOption] at h
    | ok meta' =>
      rw [hrec, Except.toOption, Option.some.injEq] at h
      rw [readMeta, eval_bind, eval_readPayload hfind, Outcome.ok_bind, eval_bind, eval_ofExcept,
        hrec, h, Outcome.ofExcept_ok, Outcome.ok_bind, eval_pure, hmeta]
  · cases h

/-! ### Hash kinds -/

private theorem kind_parseOid {raw : Bytes} {kind : HashKind} {field : String} {object oid : Oid}
    (h : parseOid raw kind field object = .ok oid) : oid.kind = kind := by
  unfold parseOid at h
  split at h
  · split at h
    · next hk =>
      cases h
      exact hk
    · cases h
  · cases h

private theorem kind_metaHeader {acc acc' : List Oid × Option ℤ} {line : Bytes}
    (h : metaHeader id acc line = .ok acc') (hk : ∀ p ∈ acc.1, p.kind = id.kind) :
    ∀ p ∈ acc'.1, p.kind = id.kind := by
  obtain ⟨⟨name, value⟩, -, h⟩ := Except.bind_eq_ok.mp h
  dsimp only at h
  split at h
  · obtain ⟨parent, hparent, h⟩ := Except.bind_eq_ok.mp h
    cases h
    intro p hp
    rcases List.mem_append.mp hp with hp | hp
    · exact hk p hp
    · rw [List.mem_singleton.mp hp]
      exact kind_parseOid hparent
  · split at h
    · obtain ⟨time, -, h⟩ := Except.bind_eq_ok.mp h
      cases h
      exact hk
    · cases h
      exact hk

private theorem kind_foldlM_metaHeader {lines : List Bytes} {acc acc' : List Oid × Option ℤ}
    (h : lines.foldlM (metaHeader id) acc = .ok acc') (hk : ∀ p ∈ acc.1, p.kind = id.kind) :
    ∀ p ∈ acc'.1, p.kind = id.kind := by
  induction lines generalizing acc with
  | nil =>
    cases h
    exact hk
  | cons line lines ih =>
    rw [List.foldlM_cons] at h
    obtain ⟨acc₁, h₁, h⟩ := Except.bind_eq_ok.mp h
    exact ih h (kind_metaHeader h₁ hk)

private theorem kind_recordedMeta (h : recordedMeta id payload = .ok found) :
    ∀ p ∈ found.parents, p.kind = id.kind := by
  obtain ⟨⟨headers, message⟩, -, h⟩ := Except.bind_eq_ok.mp h
  obtain ⟨⟨parents, time⟩, hfold, h⟩ := Except.bind_eq_ok.mp h
  have hk := kind_foldlM_metaHeader hfold (fun p hp ↦ nomatch hp)
  dsimp only at h
  split at h
  · cases h
    exact hk
  · cases h

private theorem mem_of_mem_prunedParents (hp : p ∈ db.prunedParents opts id) :
    ∃ commit, db.recorded id = some commit ∧ p ∈ commit.parents := by
  unfold prunedParents at hp
  split at hp
  · cases hp
  · next commit hc =>
    refine ⟨commit, hc, ?_⟩
    split at hp
    · cases hp
    · split at hp
      · exact List.mem_of_mem_take hp
      · exact hp

private theorem kind_of_mem_prunedParents (hp : p ∈ db.prunedParents opts id) : p.kind = id.kind := by
  obtain ⟨commit, hc, hp⟩ := mem_of_mem_prunedParents hp
  unfold recorded at hc
  split at hc
  · next payload hfind =>
    cases hrec : recordedMeta id payload with
    | error e => simp [hrec, Except.toOption] at hc
    | ok found =>
      rw [hrec, Except.toOption, Option.some.injEq] at hc
      exact kind_recordedMeta hrec p (hc ▸ hp)
  · cases hc

/-- Every reachable commit has the hash kind of the start. -/
theorem kind_of_reach {start : Oid} (h : Reach (db.prunedParents opts) start id) :
    id.kind = start.kind :=
  h.mem_of_closed (p := fun id ↦ id.kind = start.kind) rfl
    fun _ ha _ hb ↦ (kind_of_mem_prunedParents hb).trans ha

end ObjectDb

/-! ### Finitely many commits -/

instance : Finite Oid := by
  have : Finite UInt8 := Finite.of_injective UInt8.toFin fun _ _ h ↦ UInt8.toFin_inj.mp h
  have hbytes : Finite { bytes : Bytes // bytes.length ≤ 32 } := List.finite_length_le UInt8 32
  have hlen (oid : Oid) : oid.bytes.length ≤ 32 := by
    rw [oid.length_bytes]
    cases oid.kind <;> decide
  refine Finite.of_injective (β := Bool × { bytes : Bytes // bytes.length ≤ 32 })
    (fun oid ↦ (oid.kind = .sha1, ⟨oid.bytes, hlen oid⟩)) ?_
  rintro ⟨kind, bytes, h⟩ ⟨kind', bytes', h'⟩ heq
  simp only [Prod.mk.injEq, Subtype.mk.injEq, decide_eq_decide] at heq
  obtain ⟨hkind, rfl⟩ := heq
  cases kind <;> cases kind' <;> simp_all

/-- The reachable commits as a finite set. -/
noncomputable def ObjectDb.reachable (db : ObjectDb) (opts : WalkOptions) (start : Oid) :
    Finset Oid :=
  (Set.toFinite { id | Reach (db.prunedParents opts) start id }).toFinset

/-- The reachable commits are those that paths of unpruned parents lead to. -/
@[simp] theorem ObjectDb.mem_reachable {db : ObjectDb} {opts : WalkOptions} {start id : Oid} :
    id ∈ db.reachable opts start ↔ Reach (db.prunedParents opts) start id := by
  simp [reachable]

/-- Every reachable commit is among recorded ones that are closed under pruned parents. -/
theorem ObjectDb.mem_of_reach {db : ObjectDb} {opts : WalkOptions} {start id : Oid}
    {ids : List Oid} (hstart : start ∈ ids)
    (hclosed : ∀ a ∈ ids, ∀ b ∈ db.prunedParents opts a, b ∈ ids)
    (h : Reach (db.prunedParents opts) start id) : id ∈ ids :=
  h.mem_of_closed hstart hclosed

/-! ### A sample history -/

/-- A commit payload with this tree, these parents and this committer time. -/
def samplePayload (tree : Oid) (parents : List Oid) (time : String) : Bytes :=
  Bytes.ascii "tree " ++ Bytes.ascii tree.toHex ++ [0x0a] ++
    parents.flatMap (fun parent ↦
      Bytes.ascii "parent " ++ Bytes.ascii parent.toHex ++ [0x0a]) ++
    Bytes.ascii "author A <a> " ++ Bytes.ascii time ++ Bytes.ascii " +0000" ++ [0x0a] ++
    Bytes.ascii "committer C <c> " ++ Bytes.ascii time ++ Bytes.ascii " +0000" ++ [0x0a, 0x0a]

/-- A merge that names a parent twice, a shallow root, equal times and two commits in a cycle. -/
def sampleHistory : ObjectDb := .ofFind .sha1 (some [sampleId 3]) fun oid ↦ .ok <|
  if oid = sampleId 1 then
    some (.commit, samplePayload (sampleId 0xaa) [sampleId 2, sampleId 3, sampleId 2] "10")
  else if oid = sampleId 2 then some (.commit, samplePayload (sampleId 0xaa) [sampleId 4] "5")
  else if oid = sampleId 3 then some (.commit, samplePayload (sampleId 0xaa) [sampleId 9] "20")
  else if oid = sampleId 4 then some (.commit, samplePayload (sampleId 0xaa) [sampleId 5] "5")
  else if oid = sampleId 5 then some (.commit, samplePayload (sampleId 0xaa) [sampleId 4] "2")
  else if oid = sampleId 0xaa then some (.tree, [])
  else none

/-- The commits of the sample history. -/
def sampleCommits : List Oid := [sampleId 1, sampleId 2, sampleId 3, sampleId 4, sampleId 5]

/-- The listed commits contain their parents. -/
theorem sampleHistory_closed : ∀ a ∈ sampleCommits,
    ∀ b ∈ sampleHistory.prunedParents {} a, b ∈ sampleCommits := by
  decide +kernel

private theorem sampleHistory_recorded :
    ∀ a ∈ sampleCommits, (sampleHistory.recorded a).isSome := by
  decide +kernel

/-- The sample history can be walked in every order. -/
theorem sampleHistory_holds (order : LogOrder) :
    sampleHistory.HoldsHistory { order } (sampleId 1) := by
  intro id hid
  exact sampleHistory_recorded id
    (ObjectDb.mem_of_reach (by decide) sampleHistory_closed hid)

end Gitility
