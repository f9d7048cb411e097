import Gitility.History.CommitGraph
import Gitility.History.Walk

/-!
# Completeness of the commit walks

On a store that records every reachable commit, each walk emits every one of them exactly once.
A walk is followed through the list `out` of the commits it has emitted: an invariant between
the walk's state and `out` is kept by `next`, and a walk that stops has emitted everything.
-/

namespace Gitility

variable {db : ObjectDb} {opts : WalkOptions} {start : Oid}

namespace Walk

/-- The commits a walk goes on to emit, one `next` after the other, without an error. -/
inductive Trace (db : ObjectDb) (opts : WalkOptions) : Walk → List WalkedCommit → Prop where
  | done {walk walk' : Walk}
      (hnext : ∀ charge, db.eval (walk.next db.toStoreInfo opts charge) = .ok (none, walk')) :
      Trace db opts walk []
  | step {walk walk' : Walk} {walked : WalkedCommit} {rest : List WalkedCommit}
      (hnext : ∀ charge,
        db.eval (walk.next db.toStoreInfo opts charge) = .ok (some (.ok walked), walk'))
      (hpending : walk'.pendingError = none)
      (hmatching : walk'.hasMatching opts →
        ∃ later ∈ rest, withinTimeBounds later.time opts)
      (hrest : Trace db opts walk' rest) :
      Trace db opts walk (walked :: rest)

/-- What one `next` does to a walk that has emitted `out`: it stops when every reachable commit
is out, and otherwise emits one more. -/
def Advances (db : ObjectDb) (opts : WalkOptions) (start : Oid) (inv : Walk → List Oid → Prop)
    (walk : Walk) (out : List Oid) : Prop :=
  (∃ walk', (∀ charge, db.eval (walk.next db.toStoreInfo opts charge) = .ok (none, walk')) ∧
    ∀ id ∈ db.reachable opts start, id ∈ out) ∨
  ∃ walked walk', (∀ charge,
      db.eval (walk.next db.toStoreInfo opts charge) = .ok (some (.ok walked), walk')) ∧
    walked.time = db.commitTime walked.id ∧ inv walk' (out ++ [walked.id])

/-- A relation between a walk and what it has emitted that `next` keeps. -/
structure Invariant (db : ObjectDb) (opts : WalkOptions) (start : Oid)
    (inv : Walk → List Oid → Prop) : Prop where
  nodup : ∀ {walk out}, inv walk out → out.Nodup
  sound : ∀ {walk out}, inv walk out → ∀ id ∈ out, id ∈ db.reachable opts start
  pending : ∀ {walk out}, inv walk out → walk.pendingError = none
  matching : ∀ {walk out}, inv walk out → walk.hasMatching opts →
    ∃ id ∈ db.reachable opts start, id ∉ out ∧ withinTimeBounds (db.commitTime id) opts
  advances : ∀ {walk out}, inv walk out → Advances db opts start inv walk out

/-- A walk with an invariant runs until every reachable commit is out. -/
theorem Invariant.trace {inv : Walk → List Oid → Prop} (h : Invariant db opts start inv)
    {walk : Walk} {out : List Oid} (hinv : inv walk out) :
    ∃ rest walk', Trace db opts walk rest ∧ inv walk' (out ++ rest.map WalkedCommit.id) ∧
      (∀ id ∈ db.reachable opts start, id ∈ out ++ rest.map WalkedCommit.id) ∧
      ∀ walked ∈ rest, walked.time = db.commitTime walked.id := by
  -- Induction on the number of commits still to come.
  obtain ⟨n, hn⟩ : ∃ n, (db.reachable opts start).card ≤ out.length + n :=
    ⟨(db.reachable opts start).card, Nat.le_add_left _ _⟩
  induction n generalizing walk out with
  | zero =>
    rcases h.advances hinv with ⟨walk', hnext, hall⟩ | ⟨walked, walk', hnext, htime, hinv'⟩
    · exact ⟨[], walk, .done hnext, by simpa using hinv, by simpa using hall, by simp⟩
    · have hcard := Finset.card_le_card (s := (out ++ [walked.id]).toFinset) fun id hid ↦
        h.sound hinv' id (List.mem_toFinset.mp hid)
      rw [List.toFinset_card_of_nodup (h.nodup hinv'), List.length_append,
        List.length_singleton] at hcard
      omega
  | succ n ih =>
    rcases h.advances hinv with ⟨walk', hnext, hall⟩ | ⟨walked, walk', hnext, htime, hinv'⟩
    · exact ⟨[], walk, .done hnext, by simpa using hinv, by simpa using hall, by simp⟩
    · obtain ⟨rest, last, htrace, hlast, hall, htimes⟩ := ih hinv' (by simp; omega)
      rw [List.append_assoc, List.singleton_append] at hlast hall
      refine ⟨walked :: rest, last, .step hnext (h.pending hinv') (fun hm ↦ ?_) htrace, hlast,
        hall, ?_⟩
      · -- A matching commit is reachable and not out, so it is among the rest.
        obtain ⟨id, hid, hout, hwithin⟩ := h.matching hinv' hm
        have hmem := hall id hid
        rw [List.append_cons, List.mem_append, or_iff_right hout] at hmem
        obtain ⟨later, hlater, rfl⟩ := List.mem_map.mp hmem
        exact ⟨later, hlater, by rw [htimes later hlater]; exact hwithin⟩
      · intro w hw
        rcases List.mem_cons.mp hw with rfl | hw
        · exact htime
        · exact htimes w hw

end Walk

/-! ### Chronological order -/

namespace ChronologicalWalk

/-- The queued commits and the emitted ones are what has been seen, and every parent of an
emitted commit has been. -/
structure Inv (db : ObjectDb) (opts : WalkOptions) (start : Oid) (walk : ChronologicalWalk)
    (out : List Oid) : Prop where
  pending : walk.pendingError = none
  nodup : (out ++ walk.queue.map TimedCommit.id).Nodup
  mem_seen : ∀ id, id ∈ walk.seen ↔ id ∈ out ++ walk.queue.map TimedCommit.id
  queued : ∀ commit ∈ walk.queue,
    commit.commitMeta = ⟨db.prunedParents opts commit.id, db.commitTime commit.id⟩
  reach : ∀ id ∈ walk.seen, Reach (db.prunedParents opts) start id
  start_mem : start ∈ walk.seen
  closed : ∀ id ∈ out, ∀ parent ∈ db.prunedParents opts id, parent ∈ walk.seen

/-- What enqueuing parents does: the unseen ones are read, queued and marked as seen. -/
theorem eval_enqueueParents (hheld : db.HoldsHistory opts start) {parents : List Oid}
    {walk : ChronologicalWalk} (hpending : walk.pendingError = none)
    (hreach : ∀ id ∈ parents, Reach (db.prunedParents opts) start id) :
    ∃ walk' fresh, db.eval (enqueueParents db.toStoreInfo opts parents walk) = .ok walk' ∧
      walk'.pendingError = none ∧ walk'.queue = fresh ++ walk.queue ∧
      (∀ id, id ∈ walk'.seen ↔ id ∈ fresh.map TimedCommit.id ∨ id ∈ walk.seen) ∧
      (fresh.map TimedCommit.id).Nodup ∧ (∀ commit ∈ fresh, commit.id ∉ walk.seen) ∧
      (∀ commit ∈ fresh, commit.id ∈ parents) ∧ (∀ id ∈ parents, id ∈ walk'.seen) ∧
      ∀ commit ∈ fresh,
        commit.commitMeta = ⟨db.prunedParents opts commit.id, db.commitTime commit.id⟩ := by
  induction parents generalizing walk with
  | nil => exact ⟨walk, [], rfl, hpending, rfl, by simp⟩
  | cons parent parents ih =>
    have hreach' (id : Oid) (hid : id ∈ parents) : Reach (db.prunedParents opts) start id :=
      hreach id (List.mem_cons_of_mem _ hid)
    by_cases hseen : parent ∈ walk.seen
    · obtain ⟨walk', fresh, heval, hp, hq, hs, hnodup, hfresh, hsub, hall, hmeta⟩ :=
        ih hpending hreach'
      refine ⟨walk', fresh, ?_, hp, hq, hs, hnodup, hfresh,
        fun c hc ↦ List.mem_cons_of_mem _ (hsub c hc), ?_, hmeta⟩
      · rw [enqueueParents, if_pos hseen, heval]
      · intro id hid
        rcases List.mem_cons.mp hid with rfl | hid
        · exact (hs id).mpr (.inr hseen)
        · exact hall id hid
    · obtain ⟨found, hfound⟩ :=
        Option.isSome_iff_exists.mp (hheld parent (hreach parent List.mem_cons_self))
      have hread := ObjectDb.eval_readMeta hfound opts false
      let meta' : CommitMeta := ⟨db.prunedParents opts parent, db.commitTime parent⟩
      let pushed : ChronologicalWalk :=
        push { walk with seen := insert parent walk.seen } parent meta'
      have hpushed : pushed.pendingError = none := hpending
      obtain ⟨walk', fresh, heval, hp, hq, hs, hnodup, hfresh, hsub, hall, hmeta⟩ :=
        ih hpushed hreach'
      have hs' (id : Oid) : id ∈ walk'.seen ↔
          id ∈ fresh.map TimedCommit.id ∨ id = parent ∨ id ∈ walk.seen := by
        rw [hs, show pushed.seen = insert parent walk.seen from rfl, Finset.mem_insert]
      have hparent (c : TimedCommit) (hc : c ∈ fresh) : c.id ≠ parent ∧ c.id ∉ walk.seen := by
        have := hfresh c hc
        rwa [show pushed.seen = insert parent walk.seen from rfl, Finset.mem_insert,
          not_or] at this
      refine ⟨walk', fresh ++ [⟨parent, meta', walk.nextSequence⟩], ?_, hp, ?_, ?_, ?_, ?_, ?_,
        ?_, ?_⟩
      · rw [enqueueParents, if_neg hseen, ObjectDb.eval_bind, ObjectDb.eval_attempt_of_ok hread,
          Outcome.ok_bind]
        exact heval
      · rw [hq, List.append_assoc]
        rfl
      · intro id
        rw [hs' id]
        simp [or_assoc]
      · rw [List.map_append, List.nodup_append_comm]
        refine List.nodup_cons.mpr ⟨?_, hnodup⟩
        intro hmem
        obtain ⟨c, hc, hid⟩ := List.mem_map.mp hmem
        exact (hparent c hc).1 hid
      · intro c hc
        rcases List.mem_append.mp hc with hc | hc
        · exact (hparent c hc).2
        · rw [List.mem_singleton.mp hc]
          exact hseen
      · intro c hc
        rcases List.mem_append.mp hc with hc | hc
        · exact List.mem_cons_of_mem _ (hsub c hc)
        · rw [List.mem_singleton.mp hc]
          exact List.mem_cons_self
      · intro id hid
        rcases List.mem_cons.mp hid with rfl | hid
        · exact (hs' id).mpr (.inr (.inl rfl))
        · exact hall id hid
      · intro c hc
        rcases List.mem_append.mp hc with hc | hc
        · exact hmeta c hc
        · rw [List.mem_singleton.mp hc]

private theorem eval_visit (charge : Bool) : db.eval (visit charge) = .ok () := by
  cases charge <;> rfl

private theorem next_of_empty {walk : ChronologicalWalk} (hpending : walk.pendingError = none)
    (hqueue : walk.queue = []) (charge : Bool) :
    db.eval (walk.next db.toStoreInfo opts charge) = .ok (none, walk) := by
  simp [next, hpending, hqueue, popMax]

/-- One `next` with a commit in the queue. -/
theorem inv_next (hheld : db.HoldsHistory opts start) {walk : ChronologicalWalk} {out : List Oid}
    (h : Inv db opts start walk out) {current : TimedCommit} {queue : List TimedCommit}
    (hpop : popMax TimedCommit.lt walk.queue = some (current, queue)) :
    ∃ walk', (∀ charge, db.eval (walk.next db.toStoreInfo opts charge) =
        .ok (some (.ok ⟨current.id, current.commitMeta.time⟩), walk')) ∧
      Inv db opts start walk' (out ++ [current.id]) := by
  have hperm := perm_of_popMax hpop
  have hcurrent : current ∈ walk.queue := hperm.subset List.mem_cons_self
  have hmeta := h.queued current hcurrent
  have hids : (walk.queue.map TimedCommit.id).Perm (current.id :: queue.map TimedCommit.id) :=
    (hperm.map TimedCommit.id).symm
  have hseen (id : Oid) : id ∈ walk.seen ↔
      id ∈ out ++ [current.id] ∨ id ∈ queue.map TimedCommit.id := by
    rw [h.mem_seen, List.mem_append, hids.mem_iff]
    simp [or_assoc]
  have hin : current.id ∈ walk.seen := (hseen _).mpr (.inl (by simp))
  have hreach (id : Oid) (hid : id ∈ current.commitMeta.parents) :
      Reach (db.prunedParents opts) start id := by
    rw [hmeta] at hid
    exact (h.reach current.id hin).tail hid
  have hpending : ({ walk with queue } : ChronologicalWalk).pendingError = none := h.pending
  obtain ⟨walk', fresh, heval, hp, hq, hs, hnodup, hfresh, hsub, hall, hqueued⟩ :=
    eval_enqueueParents hheld hpending hreach
  refine ⟨walk', fun charge ↦ ?_, ?_⟩
  · rw [h.pending] at heval
    simp [next, h.pending, hpop, ObjectDb.eval_attempt_of_ok (eval_visit charge), heval]
  have hold : (out ++ [current.id] ++ queue.map TimedCommit.id).Nodup := by
    have := ((hids.append_left out).nodup_iff).mp h.nodup
    simpa using this
  constructor
  · exact hp
  · rw [hq, List.map_append, (List.perm_append_comm_assoc _ _ _).nodup_iff, List.nodup_append]
    refine ⟨hnodup, hold, ?_⟩
    rintro id hid _ hmem rfl
    obtain ⟨c, hc, rfl⟩ := List.mem_map.mp hid
    exact hfresh c hc ((hseen _).mpr (List.mem_append.mp hmem))
  · intro id
    rw [hs, show id ∈ ({ walk with queue } : ChronologicalWalk).seen ↔ id ∈ walk.seen from Iff.rfl,
      hseen, hq, List.map_append]
    simp only [List.mem_append]
    tauto
  · intro c hc
    rw [hq] at hc
    rcases List.mem_append.mp hc with hc | hc
    · exact hqueued c hc
    · exact h.queued c (hperm.subset (List.mem_cons_of_mem _ hc))
  · intro id hid
    rcases (hs id).mp hid with hid | hid
    · obtain ⟨c, hc, rfl⟩ := List.mem_map.mp hid
      exact hreach c.id (hsub c hc)
    · exact h.reach id hid
  · exact (hs start).mpr (.inr h.start_mem)
  · intro id hid parent hparent
    rcases List.mem_append.mp hid with hid | hid
    · exact (hs parent).mpr (.inr (h.closed id hid parent hparent))
    · rw [List.mem_singleton.mp hid] at hparent
      exact hall parent (by rw [hmeta]; exact hparent)

/-- The invariant of a chronological walk, as one of `Walk`. -/
def Emitted (db : ObjectDb) (opts : WalkOptions) (start : Oid) : Walk → List Oid → Prop
  | .chronological walk, out => Inv db opts start walk out
  | .ordered _, _ => False

private theorem invariant (hheld : db.HoldsHistory opts start) :
    Walk.Invariant db opts start (Emitted db opts start) where
  nodup {walk out} h := by
    cases walk with
    | chronological walk => exact (List.nodup_append.mp h.nodup).1
    | ordered walk => exact h.elim
  sound {walk out} h id hid := by
    cases walk with
    | chronological walk =>
      exact ObjectDb.mem_reachable.mpr
        (h.reach id ((h.mem_seen id).mpr (List.mem_append_left _ hid)))
    | ordered walk => exact h.elim
  pending {walk out} h := by
    cases walk with
    | chronological walk => exact h.pending
    | ordered walk => exact h.elim
  matching {walk out} h hmatch := by
    cases walk with
    | chronological walk =>
      simp only [Walk.hasMatching, h.pending, Option.isSome_none, Bool.false_eq_true, false_or,
        decide_eq_true_eq, List.any_eq_true] at hmatch
      obtain ⟨commit, hcommit, hwithin⟩ := hmatch
      have hid : commit.id ∈ walk.queue.map TimedCommit.id := List.mem_map_of_mem hcommit
      rw [h.queued commit hcommit] at hwithin
      exact ⟨commit.id, ObjectDb.mem_reachable.mpr
          (h.reach _ ((h.mem_seen _).mpr (List.mem_append_right _ hid))),
        fun hout ↦ List.disjoint_of_nodup_append h.nodup hout hid, hwithin⟩
    | ordered walk => exact h.elim
  advances {walk out} h := by
    cases walk with
    | chronological walk =>
      have h : Inv db opts start walk out := h
      cases hpop : popMax TimedCommit.lt walk.queue with
      | none =>
        have hqueue := popMax_eq_none.mp hpop
        refine .inl ⟨.chronological walk, fun charge ↦ ?_, fun id hid ↦ ?_⟩
        · simp [Walk.next, next_of_empty h.pending hqueue]
        · have hseen (id : Oid) : id ∈ walk.seen ↔ id ∈ out := by
            rw [h.mem_seen, hqueue, List.map_nil, List.append_nil]
          exact (ObjectDb.mem_reachable.mp hid).mem_of_closed ((hseen _).mp h.start_mem)
            fun a ha b hb ↦ (hseen b).mp (h.closed a ha b hb)
      | some popped =>
        obtain ⟨current, queue⟩ := popped
        obtain ⟨walk', hnext, hinv⟩ := inv_next hheld h hpop
        have hmeta := h.queued current ((perm_of_popMax hpop).subset List.mem_cons_self)
        refine .inr ⟨⟨current.id, current.commitMeta.time⟩, .chronological walk', fun charge ↦ ?_,
          ?_, hinv⟩
        · simp [Walk.next, hnext charge]
        · rw [hmeta]
    | ordered walk => exact h.elim

/-- A new chronological walk has emitted nothing and seen its start. -/
theorem eval_new (hheld : db.HoldsHistory opts start) :
    ∃ walk, db.eval (new db.toStoreInfo start opts) = .ok walk ∧ Inv db opts start walk [] := by
  obtain ⟨found, hfound⟩ := Option.isSome_iff_exists.mp (hheld start .refl)
  refine ⟨_, by simp only [new, ObjectDb.eval_bind, ObjectDb.eval_readMeta hfound,
    Outcome.ok_bind, ObjectDb.eval_pure]; rfl, ?_⟩
  constructor
  · rfl
  · simp
  · simp
  · simp
  · intro id hid
    rw [Finset.mem_singleton.mp hid]
    exact .refl
  · simp
  · simp

end ChronologicalWalk

/-! ### The pre-pass of the ordered walks -/

/-- The commits in the queue, in no particular order. -/
def OrderedQueue.ids : OrderedQueue → List Oid
  | .topological stack => stack
  | .date heap => heap.map TimedOid.id

namespace OrderedWalk

/-- Every node carries the pruned parents and the time of its commit. -/
def Faithful (db : ObjectDb) (opts : WalkOptions) (nodes : OrderedNodes) : Prop :=
  ∀ id node, nodes.lookup id = some node →
    node.commitMeta = ⟨db.prunedParents opts id, db.commitTime id⟩

private theorem Faithful.insert {nodes : OrderedNodes} (h : Faithful db opts nodes) (id : Oid)
    (discovery : ℕ) :
    Faithful db opts
      (nodes.insert id ⟨⟨db.prunedParents opts id, db.commitTime id⟩, discovery⟩) := by
  intro id' node hnode
  by_cases hid : id' = id
  · subst hid
    rw [AList.lookup_insert, Option.some.injEq] at hnode
    rw [← hnode]
  · rw [AList.lookup_insert_ne hid] at hnode
    exact h id' node hnode

/-- The state of the pre-pass: everything named so far is reachable, and a parent of a node is
a node or pending. -/
structure Prepass (db : ObjectDb) (opts : WalkOptions) (start : Oid) (pending : List Oid)
    (nodes : OrderedNodes) : Prop where
  faithful : Faithful db opts nodes
  reach : ∀ id, id ∈ nodes ∨ id ∈ pending → Reach (db.prunedParents opts) start id
  start_mem : start ∈ nodes ∨ start ∈ pending
  closed : ∀ id ∈ nodes, ∀ parent ∈ db.prunedParents opts id, parent ∈ nodes ∨ parent ∈ pending

/-- A bound on the iterations the pre-pass still makes: a pending ID costs one, and a commit
that is not a node yet adds its parents. -/
noncomputable def prepassCost (db : ObjectDb) (opts : WalkOptions) (start : Oid)
    (pending : List Oid) (nodes : OrderedNodes) : ℕ :=
  pending.length +
    ∑ id ∈ (db.reachable opts start).filter (· ∉ nodes), (db.prunedParents opts id).length

private theorem mem_pushParents {nodes : OrderedNodes} {parents pending : List Oid} {id : Oid} :
    id ∈ parents.foldr
        (fun parent pending ↦ if parent ∈ nodes then pending else parent :: pending) pending ↔
      (id ∈ parents ∧ id ∉ nodes) ∨ id ∈ pending := by
  induction parents with
  | nil => simp
  | cons parent parents ih =>
    rw [List.foldr_cons]
    by_cases hp : parent ∈ nodes
    · rw [if_pos hp, ih, List.mem_cons]
      grind
    · rw [if_neg hp, List.mem_cons, ih, List.mem_cons]
      grind

private theorem length_pushParents (nodes : OrderedNodes) (parents pending : List Oid) :
    (parents.foldr
        (fun parent pending ↦ if parent ∈ nodes then pending else parent :: pending)
        pending).length ≤ parents.length + pending.length := by
  induction parents with
  | nil => simp
  | cons parent parents ih =>
    rw [List.foldr_cons, List.length_cons]
    split
    · omega
    · rw [List.length_cons]
      omega

private theorem Prepass.skip {pending : List Oid} {nodes : OrderedNodes} {id : Oid}
    (h : Prepass db opts start (id :: pending) nodes) (hid : id ∈ nodes) :
    Prepass db opts start pending nodes where
  faithful := h.faithful
  reach id' hid' := h.reach id' (hid'.imp_right (List.mem_cons_of_mem _))
  start_mem := by
    rcases h.start_mem with hs | hs
    · exact .inl hs
    · rcases List.mem_cons.mp hs with rfl | hs
      · exact .inl hid
      · exact .inr hs
  closed id' hid' parent hparent := by
    rcases h.closed id' hid' parent hparent with hp | hp
    · exact .inl hp
    · rcases List.mem_cons.mp hp with rfl | hp
      · exact .inl hid
      · exact .inr hp

private theorem Prepass.visit {pending : List Oid} {nodes : OrderedNodes} {id : Oid} (discovery : ℕ)
    (h : Prepass db opts start (id :: pending) nodes) :
    Prepass db opts start
      ((db.prunedParents opts id).foldr
        (fun parent pending ↦ if parent ∈ nodes then pending else parent :: pending) pending)
      (nodes.insert id ⟨⟨db.prunedParents opts id, db.commitTime id⟩, discovery⟩) where
  faithful := h.faithful.insert id discovery
  reach id' hid' := by
    rw [AList.mem_insert, mem_pushParents] at hid'
    have hid : Reach (db.prunedParents opts) start id := h.reach id (.inr List.mem_cons_self)
    rcases hid' with (rfl | hid') | ⟨hid', -⟩ | hid'
    · exact hid
    · exact h.reach id' (.inl hid')
    · exact hid.tail hid'
    · exact h.reach id' (.inr (List.mem_cons_of_mem _ hid'))
  start_mem := by
    rw [AList.mem_insert, mem_pushParents]
    rcases h.start_mem with hs | hs
    · exact .inl (.inr hs)
    · rcases List.mem_cons.mp hs with rfl | hs
      · exact .inl (.inl rfl)
      · exact .inr (.inr hs)
  closed id' hid' parent hparent := by
    rw [AList.mem_insert] at hid'
    rw [AList.mem_insert, mem_pushParents]
    rcases hid' with rfl | hid'
    · by_cases hp : parent ∈ nodes
      · exact .inl (.inr hp)
      · exact .inr (.inl ⟨hparent, hp⟩)
    · rcases h.closed id' hid' parent hparent with hp | hp
      · exact .inl (.inr hp)
      · rcases List.mem_cons.mp hp with rfl | hp
        · exact .inl (.inl rfl)
        · exact .inr (.inr hp)

private theorem prepassCost_visit {pending : List Oid} {nodes : OrderedNodes} {id : Oid}
    (node : OrderedNode) (hreach : Reach (db.prunedParents opts) start id) (hid : id ∉ nodes) :
    prepassCost db opts start
        ((db.prunedParents opts id).foldr
          (fun parent pending ↦ if parent ∈ nodes then pending else parent :: pending) pending)
        (nodes.insert id node) < prepassCost db opts start (id :: pending) nodes := by
  have hset : (db.reachable opts start).filter (· ∉ nodes) =
      insert id ((db.reachable opts start).filter (· ∉ nodes.insert id node)) := by
    ext id'
    by_cases h : id' = id
    · subst h
      simp [hid, hreach]
    · simp [h]
  have hlen := length_pushParents nodes (db.prunedParents opts id) pending
  rw [prepassCost, prepassCost, hset, Finset.sum_insert (by simp), List.length_cons]
  omega

/-- With enough fuel the pre-pass collects exactly the reachable commits. -/
theorem eval_prepass (hheld : db.HoldsHistory opts start) {fuel : ℕ} {pending : List Oid}
    {nodes : OrderedNodes} (discovery : ℕ) (h : Prepass db opts start pending nodes)
    (hfuel : prepassCost db opts start pending nodes < fuel) :
    ∃ nodes', db.eval (prepass db.toStoreInfo start opts fuel pending nodes discovery) =
        .ok nodes' ∧
      Faithful db opts nodes' ∧ ∀ id, id ∈ nodes' ↔ id ∈ db.reachable opts start := by
  induction fuel generalizing pending nodes discovery with
  | zero => omega
  | succ fuel ih =>
    cases pending with
    | nil =>
      refine ⟨nodes, rfl, h.faithful, fun id ↦ ?_⟩
      rw [ObjectDb.mem_reachable]
      constructor
      · exact fun hid ↦ h.reach id (.inl hid)
      · intro hid
        exact hid.mem_of_closed (h.start_mem.resolve_right List.not_mem_nil)
          fun a ha b hb ↦ (h.closed a ha b hb).resolve_right List.not_mem_nil
    | cons id pending =>
      by_cases hid : id ∈ nodes
      · rw [prepass, if_pos hid]
        refine ih discovery (h.skip hid) ?_
        rw [prepassCost, List.length_cons] at hfuel
        rw [prepassCost]
        omega
      · have hreach := h.reach id (.inr List.mem_cons_self)
        obtain ⟨found, hfound⟩ := Option.isSome_iff_exists.mp (hheld id hreach)
        obtain ⟨nodes', heval, hnodes⟩ := ih (saturatingAdd discovery 1) (h.visit discovery)
          (Nat.lt_of_lt_of_le (prepassCost_visit _ hreach hid) (Nat.lt_succ_iff.mp hfuel))
        refine ⟨nodes', ?_, hnodes⟩
        rw [prepass, if_neg hid]
        simp only [ObjectDb.eval_bind, Outcome.ok_bind, ObjectDb.eval_readMeta hfound]
        exact heval

/-! ### Child counts -/

private theorem lookup_countChild (counts : AList fun _ : Oid ↦ ℕ) (parent v : Oid) :
    (countChild counts parent).lookup v =
      (counts.lookup v).map (· + if parent = v then 1 else 0) := by
  unfold countChild
  split
  · next count hcount =>
    by_cases hv : v = parent
    · subst hv
      simp [hcount]
    · rw [AList.lookup_insert_ne hv, if_neg (Ne.symm hv)]
      simp
  · next hcount =>
    by_cases hv : parent = v
    · subst hv
      simp [hcount]
    · simp [hv]

private theorem lookup_foldl_countChild (parents : List Oid) (counts : AList fun _ : Oid ↦ ℕ) (v : Oid) :
    (parents.foldl countChild counts).lookup v =
      (counts.lookup v).map (· + parents.count v) := by
  induction parents generalizing counts with
  | nil => simp
  | cons parent parents ih =>
    rw [List.foldl_cons, ih, lookup_countChild, Option.map_map, List.count_cons]
    congr 1
    ext n
    simp only [Function.comp_apply, beq_iff_eq]
    omega

private theorem lookup_foldl_countNode (entries : List (Sigma fun _ : Oid ↦ OrderedNode))
    (counts : AList fun _ : Oid ↦ ℕ) (v : Oid) :
    (entries.foldl (fun counts node ↦ node.2.commitMeta.parents.foldl countChild counts)
        counts).lookup v =
      (counts.lookup v).map
        (· + (entries.map fun node ↦ node.2.commitMeta.parents.count v).sum) := by
  induction entries generalizing counts with
  | nil => simp
  | cons node entries ih =>
    rw [List.foldl_cons, ih, lookup_foldl_countChild, Option.map_map, List.map_cons,
      List.sum_cons]
    congr 1
    ext n
    simp only [Function.comp_apply]
    omega

private theorem lookup_zeroCounts {keys : List Oid} {v : Oid} (hv : v ∈ keys) :
    (keys.foldr (fun id counts ↦ counts.insert id 0) (∅ : AList fun _ : Oid ↦ ℕ)).lookup v =
      some 0 := by
  induction keys with
  | nil => cases hv
  | cons key keys ih =>
    rw [List.foldr_cons]
    by_cases h : v = key
    · rw [h, AList.lookup_insert]
    · rw [AList.lookup_insert_ne h]
      exact ih ((List.mem_cons.mp hv).resolve_left h)

/-- Each reachable commit counts the edges that lead to it. -/
theorem lookup_countChildren {nodes : OrderedNodes} (hfaithful : Faithful db opts nodes)
    (hmem : ∀ id, id ∈ nodes ↔ id ∈ db.reachable opts start) {v : Oid}
    (hv : v ∈ db.reachable opts start) :
    (countChildren nodes).lookup v =
      some (∑ u ∈ db.reachable opts start, (db.prunedParents opts u).count v) := by
  have hkeys : nodes.keys.toFinset = db.reachable opts start := by
    ext id
    rw [List.mem_toFinset, ← hmem, AList.mem_keys]
  have hentries : nodes.entries.map (fun node ↦ node.2.commitMeta.parents.count v) =
      nodes.keys.map fun id ↦ (db.prunedParents opts id).count v := by
    rw [AList.keys, List.keys, List.map_map]
    refine List.map_congr_left fun node hnode ↦ ?_
    rw [hfaithful node.1 node.2 (AList.mem_lookup_iff.mpr hnode), Function.comp_apply]
  rw [countChildren, lookup_foldl_countNode,
    lookup_zeroCounts (AList.mem_keys.mp ((hmem v).mpr hv)), hentries,
    ← hkeys, List.sum_toFinset _ nodes.keys_nodup]
  simp

/-! ### The first ready commits -/

private theorem initial_perm (nodes : OrderedNodes) (counts : AList fun _ : Oid ↦ ℕ) :
    ((initial nodes counts).map Prod.fst).Perm
      (nodes.keys.filter fun id ↦ counts.lookup id = some 0) := by
  rw [initial]
  refine ((List.perm_insertionSort _ _).map Prod.fst).trans ?_
  rw [List.map_map, AList.keys, List.keys, List.filter_map]
  exact .refl _

private theorem ids_dateQueue (nodes : List (Oid × OrderedNode)) :
    ((dateQueue nodes).1.map TimedOid.id).Perm (nodes.map Prod.fst) := by
  have hfold (heap : List TimedOid) (sequence : ℕ) :
      ((nodes.foldl (fun queue node ↦
        (⟨node.1, node.2.commitMeta.time, queue.2⟩ :: queue.1, saturatingAdd queue.2 1))
          (heap, sequence)).1.map TimedOid.id).Perm
        (nodes.map Prod.fst ++ heap.map TimedOid.id) := by
    induction nodes generalizing heap sequence with
    | nil => exact .refl _
    | cons node nodes ih =>
      rw [List.foldl_cons]
      refine (ih _ _).trans ?_
      rw [List.map_cons, List.map_cons]
      exact List.perm_middle
  have hempty := hfold [] 0
  rwa [List.map_nil, List.append_nil] at hempty

/-- An ordered walk over the nodes of the pre-pass, with nothing emitted. -/
theorem ofNodes_eq_some {order : LogOrder} (horder : order ≠ .chronological)
    (nodes : OrderedNodes) :
    ∃ walk, ofNodes order nodes = some walk ∧ walk.nodes = nodes ∧
      walk.childCounts = countChildren nodes ∧ walk.emitted = ∅ ∧ walk.residue = [] ∧
      walk.queue.ids.Perm
        (nodes.keys.filter fun id ↦ (countChildren nodes).lookup id = some 0) := by
  have hinitial := initial_perm nodes (countChildren nodes)
  cases order with
  | chronological => exact absurd rfl horder
  | topological => exact ⟨_, rfl, rfl, rfl, rfl, rfl, (List.reverse_perm _).trans hinitial⟩
  | dateOrder =>
    refine ⟨_, rfl, rfl, rfl, rfl, rfl, (ids_dateQueue _).trans ?_⟩
    rw [List.map_reverse]
    exact (List.reverse_perm _).trans hinitial

/-! ### Emitting ready commits -/

private theorem popReady_eq_none {walk : OrderedWalk} (h : walk.popReady = none) :
    walk.queue.ids = [] := by
  unfold popReady at h
  split at h
  · next hq => rw [hq, OrderedQueue.ids]
  · cases h
  · next heap hq =>
    rw [hq, OrderedQueue.ids, List.map_eq_nil_iff]
    exact popMax_eq_none.mp (Option.map_eq_none_iff.mp h)

private theorem popReady_eq_some {walk walk' : OrderedWalk} {id : Oid}
    (h : walk.popReady = some (id, walk')) :
    walk' = { walk with queue := walk'.queue } ∧ walk.queue.ids.Perm (id :: walk'.queue.ids) := by
  unfold popReady at h
  split at h
  · cases h
  · next stack hq =>
    cases h
    rw [hq]
    exact ⟨rfl, .refl _⟩
  · next heap hq =>
    obtain ⟨⟨entry, rest⟩, hpop, heq⟩ := Option.map_eq_some_iff.mp h
    cases heq
    rw [hq]
    exact ⟨rfl, ((perm_of_popMax hpop).map TimedOid.id).symm⟩

private theorem pushReady_spec {walk : OrderedWalk} {id : Oid} (hid : id ∈ walk.nodes) :
    ∃ walk', walk.pushReady id = some walk' ∧ walk'.queue.ids = id :: walk.queue.ids ∧
      walk'.nodes = walk.nodes ∧ walk'.childCounts = walk.childCounts ∧
      walk'.emitted = walk.emitted ∧ walk'.residue = walk.residue := by
  unfold pushReady
  cases walk.queue with
  | topological stack => exact ⟨_, rfl, rfl, rfl, rfl, rfl, rfl⟩
  | date heap =>
    obtain ⟨node, hnode⟩ := Option.isSome_iff_exists.mp (AList.lookup_isSome.mpr hid)
    rw [hnode]
    exact ⟨_, rfl, rfl, rfl, rfl, rfl, rfl⟩

/-- The child counts are those of Kahn's algorithm, with `left` still to be released. -/
def Counting (db : ObjectDb) (opts : WalkOptions) (start : Oid) (walk : OrderedWalk)
    (out left : List Oid) : Prop :=
  ∃ count, (∀ v ∈ db.reachable opts start, walk.childCounts.lookup v = some (count v)) ∧
    Kahn (db.prunedParents opts) (db.reachable opts start) count walk.queue.ids out left

/-- Releasing the parents of a commit never panics and keeps the counts. -/
theorem releaseParents_spec {parents out : List Oid} {walk : OrderedWalk}
    (hmem : ∀ id, id ∈ walk.nodes ↔ id ∈ db.reachable opts start)
    (hparents : ∀ id ∈ parents, id ∈ db.reachable opts start)
    (h : Counting db opts start walk out parents) :
    ∃ walk', releaseParents parents walk = some walk' ∧ walk'.nodes = walk.nodes ∧
      walk'.emitted = walk.emitted ∧ walk'.residue = walk.residue ∧
      Counting db opts start walk' out [] := by
  induction parents generalizing walk with
  | nil => exact ⟨walk, rfl, rfl, rfl, rfl, h⟩
  | cons parent parents ih =>
    obtain ⟨count, hcount, hkahn⟩ := h
    have hparent := hparents parent List.mem_cons_self
    have hrest (id : Oid) (hid : id ∈ parents) : id ∈ db.reachable opts start :=
      hparents id (List.mem_cons_of_mem _ hid)
    have hrelease := hkahn.release hparent
    have hlookup (v : Oid) (hv : v ∈ db.reachable opts start) :
        (walk.childCounts.insert parent (count parent - 1)).lookup v =
          some (Function.update count parent (count parent - 1) v) := by
      by_cases hvp : v = parent
      · rw [hvp, AList.lookup_insert, Function.update_self]
      · rw [AList.lookup_insert_ne hvp, Function.update_of_ne hvp, hcount v hv]
    let counted : OrderedWalk :=
      { walk with childCounts := walk.childCounts.insert parent (count parent - 1) }
    simp only [releaseParents, hcount parent hparent, Option.bind_eq_bind, Option.bind_some]
    split
    · next hzero =>
      rw [if_pos hzero] at hrelease
      have hnode : parent ∈ counted.nodes := (hmem parent).mpr hparent
      obtain ⟨pushed, hpush, hids, hnodes, hcounts, hemitted, hresidue⟩ := pushReady_spec hnode
      have hmem' (id : Oid) : id ∈ pushed.nodes ↔ id ∈ db.reachable opts start := by
        rw [hnodes]
        exact hmem id
      obtain ⟨walk', hrun, hn, he, hr, hk⟩ := ih hmem' hrest
        ⟨_, fun v hv ↦ by rw [hcounts]; exact hlookup v hv, by rw [hids]; exact hrelease⟩
      refine ⟨walk', ?_, hn.trans hnodes, he.trans hemitted, hr.trans hresidue, hk⟩
      exact (congrArg (·.bind (releaseParents parents)) hpush).trans hrun
    · next hzero =>
      rw [if_neg hzero] at hrelease
      have hcounting : Counting db opts start counted out parents := ⟨_, hlookup, hrelease⟩
      exact ih hmem hrest hcounting

/-- While commits become ready, they are emitted children first. -/
structure Releasing (db : ObjectDb) (opts : WalkOptions) (start : Oid) (walk : OrderedWalk)
    (out : List Oid) : Prop where
  residue : walk.residue = []
  counting : Counting db opts start walk out []
  childrenFirst : ChildrenFirst (db.prunedParents opts) (db.reachable opts start) out

/-- Once none is ready although some are left, the graph has a cycle and the residue is emitted
in the order of its IDs. -/
structure Draining (db : ObjectDb) (opts : WalkOptions) (start : Oid) (walk : OrderedWalk)
    (out : List Oid) : Prop where
  queue : walk.queue.ids = []
  nodup : (out ++ walk.residue).Nodup
  mem_iff : ∀ id, id ∈ out ++ walk.residue ↔ id ∈ db.reachable opts start
  cyclic : ¬ AcyclicFrom (db.prunedParents opts) start

/-- The invariant of an ordered walk. -/
structure Inv (db : ObjectDb) (opts : WalkOptions) (start : Oid) (walk : OrderedWalk)
    (out : List Oid) : Prop where
  faithful : Faithful db opts walk.nodes
  mem_nodes : ∀ id, id ∈ walk.nodes ↔ id ∈ db.reachable opts start
  emitted : walk.emitted = out.toFinset
  phase : Releasing db opts start walk out ∨ Draining db opts start walk out

private theorem Inv.nodup {walk : OrderedWalk} {out : List Oid} (h : Inv db opts start walk out) :
    out.Nodup := by
  rcases h.phase with h | h
  · obtain ⟨count, -, hkahn⟩ := h.counting
    exact (List.nodup_append.mp hkahn.nodup).1
  · exact (List.nodup_append.mp h.nodup).1

private theorem Inv.sound {walk : OrderedWalk} {out : List Oid} (h : Inv db opts start walk out) :
    ∀ id ∈ out, id ∈ db.reachable opts start := by
  intro id hid
  rcases h.phase with h | h
  · obtain ⟨count, -, hkahn⟩ := h.counting
    exact ((hkahn.mem_iff id).mp (List.mem_append_left _ hid)).1
  · exact (h.mem_iff id).mp (List.mem_append_left _ hid)

private theorem Inv.lookup {walk : OrderedWalk} {out : List Oid} (h : Inv db opts start walk out)
    {id : Oid} (hid : id ∈ db.reachable opts start) :
    ∃ node, walk.nodes.lookup id = some node ∧
      node.commitMeta = ⟨db.prunedParents opts id, db.commitTime id⟩ := by
  obtain ⟨node, hnode⟩ :=
    Option.isSome_iff_exists.mp (AList.lookup_isSome.mpr ((h.mem_nodes id).mpr hid))
  exact ⟨node, hnode, h.faithful id node hnode⟩

private theorem toFinset_concat (out : List Oid) (id : Oid) :
    insert id out.toFinset = (out ++ [id]).toFinset := by
  ext
  simp

/-- One `next` with a ready commit. -/
theorem inv_next_ready {walk popped : OrderedWalk} {out : List Oid} {id : Oid}
    (h : Inv db opts start walk out) (hpop : walk.popReady = some (id, popped)) :
    ∃ walk', walk.next = some (some ⟨id, db.commitTime id⟩, walk') ∧
      Inv db opts start walk' (out ++ [id]) := by
  obtain ⟨hpopped, hids⟩ := popReady_eq_some hpop
  have hrel : Releasing db opts start walk out := by
    refine h.phase.resolve_right fun hdrain ↦ ?_
    rw [hdrain.queue] at hids
    exact List.not_mem_nil (hids.symm.subset List.mem_cons_self)
  obtain ⟨count, hcount, hkahn⟩ := hrel.counting
  have hready := hkahn.perm hids
  have hid := ((hready.mem_iff id).mp (List.mem_append_right _ List.mem_cons_self)).1
  obtain ⟨node, hnode, hmeta⟩ := h.lookup hid
  let marked : OrderedWalk := { popped with emitted := insert id popped.emitted }
  have hnodes : marked.nodes = walk.nodes := by rw [show marked.nodes = popped.nodes from rfl, hpopped]
  have hmarked : Counting db opts start marked (out ++ [id]) (db.prunedParents opts id) := by
    refine ⟨count, fun v hv ↦ ?_, hready.pop⟩
    rw [← hcount v hv, show marked.childCounts = popped.childCounts from rfl, hpopped]
  have hparents (p : Oid) (hp : p ∈ db.prunedParents opts id) : p ∈ db.reachable opts start :=
    ObjectDb.mem_reachable.mpr ((ObjectDb.mem_reachable.mp hid).tail hp)
  obtain ⟨walk', hrun, hn, he, hr, hk⟩ :=
    releaseParents_spec (fun v ↦ by rw [hnodes]; exact h.mem_nodes v) hparents hmarked
  refine ⟨walk', ?_, ?_⟩
  · have hnode' : popped.nodes.lookup id = some node := by
      rw [hpopped]
      exact hnode
    have hrun' : releaseParents node.commitMeta.parents marked = some walk' := by
      rw [hmeta]
      exact hrun
    have htime : node.commitMeta.time = db.commitTime id := by rw [hmeta]
    simp only [next, hpop, hnode', Option.bind_eq_bind, Option.bind_some, htime]
    exact congrArg (·.bind fun walk ↦ some (some (⟨id, db.commitTime id⟩ : WalkedCommit), walk)) hrun'
  · refine ⟨?_, fun v ↦ ?_, ?_, .inl ⟨?_, hk, ?_⟩⟩
    · rw [hn, hnodes]
      exact h.faithful
    · rw [hn, hnodes]
      exact h.mem_nodes v
    · rw [he, ← toFinset_concat, ← h.emitted, show marked.emitted = insert id popped.emitted from rfl,
        hpopped]
    · rw [hr, show marked.residue = popped.residue from rfl, hpopped]
      exact hrel.residue
    · exact hrel.childrenFirst.concat fun u hu hv ↦ hready.children_out hu hv

/-- When no commit is ready, the residue holds exactly what is not out; some commit is left only
in a cyclic graph. -/
theorem residue_spec {walk : OrderedWalk} {out : List Oid} (h : Inv db opts start walk out)
    (hids : walk.queue.ids = []) :
    (out ++ walk.fillResidue).Nodup ∧
      (∀ id, id ∈ out ++ walk.fillResidue ↔ id ∈ db.reachable opts start) ∧
      (walk.fillResidue ≠ [] → ¬ AcyclicFrom (db.prunedParents opts) start) := by
  have hkeys : walk.nodes.keys.toFinset = db.reachable opts start := by
    ext id
    rw [List.mem_toFinset, ← h.mem_nodes, AList.mem_keys]
  have hcard : walk.nodes.keys.length = (db.reachable opts start).card := by
    rw [← hkeys, List.toFinset_card_of_nodup walk.nodes.keys_nodup]
  have hout : walk.emitted.card = out.length := by
    rw [h.emitted, List.toFinset_card_of_nodup h.nodup]
  by_cases hfill : walk.residue = [] ∧ walk.emitted.card < walk.nodes.keys.length
  · have hperm : walk.fillResidue.Perm (walk.nodes.keys.filter (· ∉ walk.emitted)) := by
      rw [fillResidue, if_pos hfill]
      exact List.perm_insertionSort _ _
    have hmem (id : Oid) :
        id ∈ walk.fillResidue ↔ id ∈ db.reachable opts start ∧ id ∉ out := by
      rw [hperm.mem_iff, List.mem_filter, h.emitted, ← hkeys]
      simp
    refine ⟨?_, fun id ↦ ?_, fun _ hacyclic ↦ ?_⟩
    · refine List.nodup_append.mpr ⟨h.nodup, ?_, ?_⟩
      · exact hperm.nodup_iff.mpr (walk.nodes.keys_nodup.filter _)
      · rintro id hid _ hid' rfl
        exact ((hmem id).mp hid').2 hid
    · rw [List.mem_append, hmem]
      have := h.sound id
      tauto
    · -- Without a cycle Kahn's algorithm would have emitted everything.
      rcases h.phase with hrel | hdrain
      · obtain ⟨count, -, hkahn⟩ := hrel.counting
        rw [hids] at hkahn
        have hall : db.reachable opts start ⊆ out.toFinset := fun id hid ↦
          List.mem_toFinset.mpr (hkahn.out_of_acyclic
            (fun v hv ↦ hacyclic v (ObjectDb.mem_reachable.mp hv)) hid)
        have := Finset.card_le_card hall
        rw [List.toFinset_card_of_nodup h.nodup] at this
        omega
      · exact hdrain.cyclic hacyclic
  · have heq : walk.fillResidue = walk.residue := by rw [fillResidue, if_neg hfill]
    rw [heq]
    rcases h.phase with hrel | hdrain
    · rw [hrel.residue, List.append_nil]
      refine ⟨h.nodup, fun id ↦ ⟨h.sound id, fun hid ↦ ?_⟩, fun hne ↦ absurd rfl hne⟩
      have hle : (db.reachable opts start).card ≤ out.toFinset.card := by
        rw [List.toFinset_card_of_nodup h.nodup]
        have := not_and.mp hfill hrel.residue
        omega
      have hsub : out.toFinset ⊆ db.reachable opts start := fun id hid ↦
        h.sound id (List.mem_toFinset.mp hid)
      rw [← Finset.eq_of_subset_of_card_le hsub hle] at hid
      exact List.mem_toFinset.mp hid
    · exact ⟨hdrain.nodup, hdrain.mem_iff, fun _ ↦ hdrain.cyclic⟩

/-- One `next` with nothing ready. -/
theorem next_residue {walk : OrderedWalk} {out : List Oid} (h : Inv db opts start walk out)
    (hpop : walk.popReady = none) :
    ((∃ walk', walk.next = some (none, walk')) ∧ ∀ id ∈ db.reachable opts start, id ∈ out) ∨
    ∃ id walk', walk.next = some (some ⟨id, db.commitTime id⟩, walk') ∧
      Inv db opts start walk' (out ++ [id]) := by
  have hids := popReady_eq_none hpop
  obtain ⟨hnodup, hmem, hcyclic⟩ := residue_spec h hids
  rcases List.eq_nil_or_concat walk.fillResidue with hnil | ⟨rest, id, hrest⟩
  · refine .inl ⟨⟨{ walk with residue := [] }, ?_⟩, fun id hid ↦ ?_⟩
    · rw [next, hpop, popResidue, hnil]
      rfl
    · simpa [hnil] using (hmem id).mpr hid
  · rw [List.concat_eq_append] at hrest
    have hid : id ∈ db.reachable opts start := (hmem id).mp (by simp [hrest])
    obtain ⟨node, hnode, hmeta⟩ := h.lookup hid
    refine .inr ⟨id, { walk with residue := rest, emitted := insert id walk.emitted }, ?_, ?_⟩
    · have htime : node.commitMeta.time = db.commitTime id := by rw [hmeta]
      rw [next, hpop, popResidue, hrest, List.getLast?_concat, List.dropLast_concat]
      simp only [hnode, Option.bind_eq_bind, Option.bind_some, htime]
      rfl
    · have hperm : (out ++ walk.fillResidue).Perm (out ++ [id] ++ rest) := by
        rw [hrest, List.append_assoc]
        exact List.perm_append_comm.append_left out
      refine ⟨h.faithful, h.mem_nodes, ?_, .inr ⟨hids, ?_, ?_, hcyclic (by simp [hrest])⟩⟩
      · rw [← toFinset_concat, ← h.emitted]
      · exact hperm.nodup_iff.mp hnodup
      · intro v
        rw [← hmem v, hperm.mem_iff]

/-- The invariant of an ordered walk, as one of `Walk`. -/
def Emitted (db : ObjectDb) (opts : WalkOptions) (start : Oid) : Walk → List Oid → Prop
  | .chronological _, _ => False
  | .ordered walk, out => Inv db opts start walk out

private theorem invariant : Walk.Invariant db opts start (Emitted db opts start) where
  nodup {walk out} h := by
    cases walk with
    | chronological walk => exact h.elim
    | ordered walk => exact Inv.nodup h
  sound {walk out} h := by
    cases walk with
    | chronological walk => exact h.elim
    | ordered walk => exact Inv.sound h
  pending {walk out} h := by
    cases walk with
    | chronological walk => exact h.elim
    | ordered walk => rfl
  matching {walk out} h hmatch := by
    cases walk with
    | chronological walk => exact h.elim
    | ordered walk =>
      have h : Inv db opts start walk out := h
      simp only [Walk.hasMatching, hasMatching, List.any_eq_true, decide_eq_true_eq] at hmatch
      obtain ⟨node, hnode, hemitted, hwithin⟩ := hmatch
      have hlookup : walk.nodes.lookup node.1 = some node.2 := AList.mem_lookup_iff.mpr hnode
      rw [h.faithful node.1 node.2 hlookup] at hwithin
      refine ⟨node.1, (h.mem_nodes _).mp (AList.lookup_isSome.mp (by simp [hlookup])), ?_, hwithin⟩
      rwa [h.emitted, List.mem_toFinset] at hemitted
  advances {walk out} h := by
    cases walk with
    | chronological walk => exact h.elim
    | ordered walk =>
      have h : Inv db opts start walk out := h
      cases hpop : walk.popReady with
      | some popped =>
        obtain ⟨walk', hnext, hinv⟩ := inv_next_ready h hpop
        refine .inr ⟨⟨popped.1, db.commitTime popped.1⟩, .ordered walk', fun charge ↦ ?_, rfl,
          hinv⟩
        rw [Walk.next, hnext]
        rfl
      | none =>
        rcases next_residue h hpop with ⟨⟨walk', hnext⟩, hall⟩ | ⟨id, walk', hnext, hinv⟩
        · refine .inl ⟨.ordered walk', fun charge ↦ ?_, hall⟩
          rw [Walk.next, hnext]
          rfl
        · refine .inr ⟨⟨id, db.commitTime id⟩, .ordered walk', fun charge ↦ ?_, rfl, hinv⟩
          rw [Walk.next, hnext]
          rfl

/-- A new ordered walk has collected the reachable commits and emitted none. -/
theorem eval_new (hheld : db.HoldsHistory opts start) (horder : opts.order ≠ .chronological)
    {fuel : ℕ} (hfuel : prepassCost db opts start [start] ∅ < fuel) :
    ∃ walk, db.eval (new fuel db.toStoreInfo start opts) = .ok walk ∧
      Inv db opts start walk [] := by
  have hprepass : Prepass db opts start [start] ∅ := by
    constructor
    · intro id node hnode
      simp at hnode
    · intro id hid
      rcases hid with hid | hid
      · exact absurd hid (AList.notMem_empty id)
      · rw [List.mem_singleton.mp hid]
        exact .refl
    · exact .inr List.mem_cons_self
    · intro id hid
      exact absurd hid (AList.notMem_empty id)
  obtain ⟨nodes, heval, hfaithful, hmem⟩ := eval_prepass hheld 0 hprepass hfuel
  obtain ⟨walk, hwalk, rfl, hcounts, hemitted, hresidue, hids⟩ := ofNodes_eq_some horder nodes
  refine ⟨walk, ?_, hfaithful, hmem, hemitted, .inl ⟨hresidue, ?_, .nil _ _⟩⟩
  · rw [new, ObjectDb.eval_bind, heval, Outcome.ok_bind, hwalk, ObjectDb.eval_unwrap_some]
  · have hlookup (v : Oid) (hv : v ∈ db.reachable opts start) :=
      lookup_countChildren hfaithful hmem hv
    refine ⟨fun v ↦ ∑ u ∈ db.reachable opts start, (db.prunedParents opts u).count v,
      fun v hv ↦ by rw [hcounts, hlookup v hv], ?_⟩
    have hready : walk.queue.ids.Nodup :=
      hids.nodup_iff.mpr (walk.nodes.keys_nodup.filter _)
    refine Kahn.start hready (fun v ↦ ?_) (fun _ _ ↦ rfl)
    rw [hids.mem_iff, List.mem_filter, ← AList.mem_keys, hmem, decide_eq_true_eq]
    refine and_congr_right fun hv ↦ ?_
    rw [hlookup v hv, Option.some.injEq]

end OrderedWalk

/-! ### All orders -/

namespace Walk

/-- What every walk achieves: the reachable commits, each once and with its time, and in
topological and date order children first unless there is a cycle. -/
structure Complete (db : ObjectDb) (opts : WalkOptions) (start : Oid)
    (walked : List WalkedCommit) : Prop where
  nodup : (walked.map WalkedCommit.id).Nodup
  mem_iff : ∀ id, id ∈ walked.map WalkedCommit.id ↔ Reach (db.prunedParents opts) start id
  time : ∀ commit ∈ walked, commit.time = db.commitTime commit.id
  childrenFirst : opts.order ≠ .chronological → AcyclicFrom (db.prunedParents opts) start →
    ∀ id, Reach (db.prunedParents opts) start id → ∀ parent ∈ db.prunedParents opts id,
      [id, parent].Sublist (walked.map WalkedCommit.id)

/-- A new walk on a store that holds the history runs through all of it. -/
theorem eval_new (hheld : db.HoldsHistory opts start) :
    ∃ bound, ∀ fuel ≥ bound, ∃ walk walked,
      db.eval (new fuel db.toStoreInfo start opts) = .ok walk ∧
      Trace db opts walk walked ∧ Complete db opts start walked := by
  by_cases horder : opts.order = .chronological
  · refine ⟨0, fun fuel _ ↦ ?_⟩
    obtain ⟨walk, heval, hinv⟩ := ChronologicalWalk.eval_new hheld
    have hinv : ChronologicalWalk.Emitted db opts start (.chronological walk) [] := hinv
    obtain ⟨walked, last, htrace, hlast, hall, htime⟩ :=
      (ChronologicalWalk.invariant hheld).trace hinv
    refine ⟨.chronological walk, walked, ?_, htrace,
      (ChronologicalWalk.invariant hheld).nodup hlast, fun id ↦ ?_, htime,
      fun h ↦ absurd horder h⟩
    · rw [new, horder]
      simp [heval]
    · rw [← ObjectDb.mem_reachable]
      exact ⟨(ChronologicalWalk.invariant hheld).sound hlast id, hall id⟩
  · refine ⟨OrderedWalk.prepassCost db opts start [start] ∅ + 1, fun fuel hfuel ↦ ?_⟩
    obtain ⟨walk, heval, hinv⟩ := OrderedWalk.eval_new hheld horder hfuel
    have hinv : OrderedWalk.Emitted db opts start (.ordered walk) [] := hinv
    obtain ⟨walked, last, htrace, hlast, hall, htime⟩ := OrderedWalk.invariant.trace hinv
    refine ⟨.ordered walk, walked, ?_, htrace, OrderedWalk.invariant.nodup hlast, fun id ↦ ?_,
      htime, fun _ hacyclic id hid parent hparent ↦ ?_⟩
    · have hnew : new fuel db.toStoreInfo start opts =
          ordered <$> OrderedWalk.new fuel db.toStoreInfo start opts := by
        unfold new
        split
        · next hchrono => exact absurd hchrono horder
        · rfl
        · rfl
      rw [hnew]
      simp [heval]
    · rw [← ObjectDb.mem_reachable]
      exact ⟨OrderedWalk.invariant.sound hlast id, hall id⟩
    · cases last with
      | chronological last => exact hlast.elim
      | ordered last =>
        have hlast : OrderedWalk.Inv db opts start last (walked.map WalkedCommit.id) := hlast
        rcases hlast.phase with hrel | hdrain
        · exact hrel.childrenFirst.sublist (ObjectDb.mem_reachable.mpr hid) hparent
            (hall parent (ObjectDb.mem_reachable.mpr (hid.tail hparent)))
        · exact absurd hacyclic hdrain.cyclic

/-- An emission with enough fuel returns the commits of its trace. -/
theorem Trace.eval_emitAll {walk : Walk} {walked : List WalkedCommit}
    (h : Trace db opts walk walked) {fuel : ℕ} (hfuel : walked.length < fuel) :
    db.eval (emitAll db.toStoreInfo opts fuel walk) = .ok walked := by
  induction h generalizing fuel with
  | done hnext =>
    cases fuel with
    | zero => cases hfuel
    | succ fuel => rw [emitAll, ObjectDb.eval_bind, hnext true]; rfl
  | step hnext _ _ _ ih =>
    cases fuel with
    | zero => cases hfuel
    | succ fuel =>
      have hrest := ih (Nat.lt_of_succ_lt_succ hfuel)
      rw [emitAll, ObjectDb.eval_bind, hnext true]
      simp [hrest]

/-- A walk that ends yields the same commits with more fuel. -/
theorem eval_emitAll_mono {walk : Walk} {walked : List WalkedCommit} {fuel fuel' : ℕ}
    (h : db.eval (emitAll db.toStoreInfo opts fuel walk) = .ok walked) (hle : fuel ≤ fuel') :
    db.eval (emitAll db.toStoreInfo opts fuel' walk) = .ok walked := by
  induction fuel generalizing fuel' walk walked with
  | zero => cases h
  | succ fuel ih =>
    obtain ⟨fuel', rfl⟩ := Nat.exists_eq_succ_of_ne_zero (Nat.ne_of_gt (Nat.zero_lt_of_lt hle))
    rw [emitAll, ObjectDb.eval_bind] at h ⊢
    obtain ⟨⟨next, walk'⟩, hnext, h⟩ := Outcome.bind_eq_ok.mp h
    rw [hnext, Outcome.ok_bind]
    match next with
    | none => exact h
    | some (.error error) => exact h
    | some (.ok commit) =>
      simp only [ObjectDb.eval_bind, Outcome.bind_eq_ok] at h ⊢
      obtain ⟨rest, hrest, h⟩ := h
      exact ⟨rest, ih hrest (Nat.le_of_succ_le_succ hle), h⟩

/-- A complete walk has as many commits as the graph has reachable ones. -/
theorem Complete.length_eq {walked : List WalkedCommit} (h : Complete db opts start walked) :
    walked.length = (db.reachable opts start).card := by
  rw [← List.length_map WalkedCommit.id, ← List.toFinset_card_of_nodup h.nodup]
  congr 1
  ext id
  rw [List.mem_toFinset, h.mem_iff, ObjectDb.mem_reachable]

/-- On a store that holds the pruned history of `start`, with enough fuel, the walk in any
order emits every reachable commit exactly once and nothing else; in topological and date order
over an acyclic history it emits every commit before each of its parents. -/
theorem emitAll_complete (hheld : db.HoldsHistory opts start) :
    ∃ bound, ∀ fuel ≥ bound, ∃ walked,
      db.eval (do
        let walk ← new fuel db.toStoreInfo start opts
        emitAll db.toStoreInfo opts fuel walk) = .ok walked ∧
      (walked.map WalkedCommit.id).Nodup ∧
      (∀ id, id ∈ walked.map WalkedCommit.id ↔ Reach (db.prunedParents opts) start id) ∧
      (opts.order ≠ .chronological → AcyclicFrom (db.prunedParents opts) start →
        ∀ id, Reach (db.prunedParents opts) start id → ∀ parent ∈ db.prunedParents opts id,
          [id, parent].Sublist (walked.map WalkedCommit.id)) := by
  obtain ⟨bound, hbound⟩ := eval_new hheld
  refine ⟨max bound ((db.reachable opts start).card + 1), fun fuel hfuel ↦ ?_⟩
  obtain ⟨walk, walked, hnew, htrace, hcomplete⟩ := hbound fuel (le_of_max_le_left hfuel)
  have hlen : walked.length < fuel := by
    rw [hcomplete.length_eq]
    exact le_of_max_le_right hfuel
  refine ⟨walked, ?_, hcomplete.nodup, hcomplete.mem_iff, hcomplete.childrenFirst⟩
  rw [ObjectDb.eval_bind, hnew, Outcome.ok_bind, htrace.eval_emitAll hlen]

/-- The topological walk of the sample history. -/
theorem emitAll_complete_sample : ∃ bound, ∀ fuel ≥ bound, ∃ walked,
    sampleHistory.eval (do
      let walk ← new fuel sampleHistory.toStoreInfo (sampleId 1) { order := .topological }
      emitAll sampleHistory.toStoreInfo { order := .topological } fuel walk) = .ok walked ∧
    (walked.map WalkedCommit.id).Nodup ∧
    ∀ id, id ∈ walked.map WalkedCommit.id ↔
      Reach (sampleHistory.prunedParents { order := .topological }) (sampleId 1) id := by
  obtain ⟨bound, hbound⟩ := emitAll_complete (sampleHistory_holds .topological)
  refine ⟨bound, fun fuel hfuel ↦ ?_⟩
  obtain ⟨walked, hwalked, hnodup, hmem, -⟩ := hbound fuel hfuel
  exact ⟨walked, hwalked, hnodup, hmem⟩

end Walk
end Gitility
