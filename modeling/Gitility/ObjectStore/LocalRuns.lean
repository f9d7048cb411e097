import Gitility.Base.ConditionalWrites
import Gitility.ObjectStore.LocalSafety

/-!
# A local object store is a store with conditional writes

Each execution of a commit is one conditional write, of what its task has written, at most once for a
task and never for one that returned a definite error. Between two executions the contents stay as they
are. A `head` or a `get` returns what the store had at some step of its call, and a `get` returns the bytes
that were hashed for its etag.
-/

namespace Gitility.LocalStore

open Gitility.Mirror (encode16)

variable {sha256 : Bytes → Bytes} {past : List (World × Move)} {w w' : World} {i : ℕ} {c : Client}
  {move : Move} {x : World × Move} {hash version : Bytes}

/-! ### What a store has -/

/-- What a store has under the hash of a key. -/
def World.contents (w : World) (hash : Bytes) : Option Meta :=
  (readCurrent w.objects hash).toOption.map Prod.snd

/-- The write of a put. -/
def Client.write (sha256 : Bytes → Bytes) (c : Client) : ConditionalWrite Bytes Meta Bytes :=
  ⟨c.op.hash sha256, c.op.ifMatch, c.info sha256⟩

/-- The task whose commit a step executes. -/
def executed (x : World × Move) : Option ℕ :=
  match x.2 with
  | .serve i none => do
    let _ ← x.1.server
    let c ← x.1.clients[i]?
    match c.queue.head? with
    | some (.commit hash ifMatch version) =>
      (commit x.1.objects hash ifMatch version).toOption.map fun _ ↦ i
    | _ => none
  | _ => none

/-- The task and the write of a step. -/
def writeOf (sha256 : Bytes → Bytes) (x : World × Move) : Option (ℕ × ConditionalWrite Bytes Meta Bytes) := do
  let i ← executed x
  let c ← x.1.clients[i]?
  some (i, c.write sha256)

/-- The writes of a run, each with its task. -/
def history (sha256 : Bytes → Bytes) (past : List (World × Move)) :
    List (ℕ × ConditionalWrite Bytes Meta Bytes) :=
  past.filterMap (writeOf sha256)

/-- At some step while a task ran, a store had `contents`. -/
def Observed (sha256 : Bytes → Bytes) (past : List (World × Move)) (i : ℕ)
    (contents : Bytes → Option Meta) : Prop :=
  ∃ before x after, past = before ++ x :: after ∧ x.1.Running i ∧
    ConditionalWrite.replay Meta.etag ((history sha256 before).map Prod.snd) = some contents

/-! ### Executed commits -/

/-- A task whose commit a step executes, -/
theorem applies_of_executed (h : executed x = some i) : Applies i x := by
  unfold executed at h
  split at h
  · next j hmove =>
    obtain ⟨s, hs, h⟩ := Option.bind_eq_some_iff.mp h
    obtain ⟨c, hc, h⟩ := Option.bind_eq_some_iff.mp h
    split at h
    · next hash ifMatch version hhead =>
      obtain ⟨objects, hobjects, rfl⟩ := Option.map_eq_some_iff.mp h
      cases hcommit : commit x.1.objects hash ifMatch version with
      | ok found => exact ⟨s, c, hash, ifMatch, version, found, hs, hc, hmove, hhead, hcommit⟩
      | error reason => simp [hcommit, Except.toOption] at hobjects
    · cases h
  · cases h

/-- and the other way round. -/
theorem executed_of_applies (h : Applies i x) : executed x = some i := by
  obtain ⟨s, c, hash, ifMatch, version, objects, hs, hc, hmove, hhead, hcommit⟩ := h
  simp [executed, hmove, hs, hc, hhead, hcommit, Except.toOption]

/-- The write of a step is that of a task whose commit it executes, -/
theorem applies_of_writeOf {op : ConditionalWrite Bytes Meta Bytes} (h : writeOf sha256 x = some (i, op)) :
    Applies i x ∧ ∃ c, x.1.clients[i]? = some c ∧ op = c.write sha256 := by
  obtain ⟨j, hj, h⟩ := Option.bind_eq_some_iff.mp h
  obtain ⟨c, hc, h⟩ := Option.bind_eq_some_iff.mp h
  cases h
  exact ⟨applies_of_executed hj, c, hc, rfl⟩

/-- and each such task has its write. -/
theorem writeOf_of_applies (h : Applies i x) (hc : x.1.clients[i]? = some c) :
    writeOf sha256 x = some (i, c.write sha256) := by
  simp [writeOf, executed_of_applies h, hc]

private theorem not_applies_of_writeOf (h : writeOf sha256 x = none) : ¬ Applies i x := by
  intro happlies
  have hcommit := happlies
  obtain ⟨s, c, -, -, -, -, -, hc, -⟩ := hcommit
  cases (writeOf_of_applies happlies hc).symm.trans h

/-- A pointer is read as before if it and its version are the same. -/
theorem readCurrent_congr {before after : Objects} (hcurrent : (after hash).current = (before hash).current)
    (hversions : ∀ version, (before hash).current = some version →
      (after hash).versions version = (before hash).versions version) :
    readCurrent after hash = readCurrent before hash := by
  unfold readCurrent readMeta
  rw [hcurrent]
  cases hpointer : (before hash).current with
  | none => rfl
  | some version => simp only [hversions version hpointer]

private theorem contents_of_currentForCommit {current : Option (Bytes × Meta)}
    (h : currentForCommit w.objects hash = .ok current) : w.contents hash = current.map Prod.snd := by
  unfold currentForCommit at h
  split at h
  · next found hread =>
    cases h
    simp [World.contents, hread, Except.toOption]
  · next hread =>
    cases h
    simp [World.contents, hread, Except.toOption]
  · cases h

section

variable (hinv : Inv sha256 past w)
include hinv

/-- A pointer is that of a put whose commit was executed. -/
theorem Inv.readCurrent_eq (h : (w.objects hash).current = some version) :
    ∃ (i : ℕ) (c : Client), w.clients[i]? = some c ∧ c.version = some version ∧ c.op.hash sha256 = hash ∧
      Applied past i ∧ readCurrent w.objects hash = .ok (version, c.info sha256) := by
  obtain ⟨i, c, dir, x, hc, hversion, hhash, hx, happlies, -, hdir, hmeta, hvalid, hpointer⟩ :=
    hinv.current hash version h
  refine ⟨i, c, hc, hversion, hhash, ⟨x, hx, happlies⟩, ?_⟩
  simp [readCurrent, readMeta, h, hpointer, hdir, hmeta, hvalid, Except.map]

variable (hstep : Step sha256 w move w')
include hstep

/-- A step that does not move the pointer of a key leaves what the key has. -/
theorem Inv.contents_same (h : (w'.objects hash).current = (w.objects hash).current) :
    w'.contents hash = w.contents hash := by
  unfold World.contents
  rw [readCurrent_congr h]
  intro version hcurrent
  have hcommitted := (hinv.current hash version hcurrent).committed
  rcases hstep.versions hash version with hsame | ⟨j, d, d', hd, -, -, hown⟩ |
    ⟨s, removal, -, -, hunused, -⟩
  · exact hsame
  · exact absurd hown (hinv.not_ownDir hcommitted hd)
  · exact absurd hcurrent hunused

/-- A step that executes no commit leaves what a store has, -/
theorem Inv.contents_step (h : ∀ i, ¬ Applies i (w, move)) : w'.contents = w.contents := by
  funext hash
  refine hinv.contents_same hstep ?_
  rcases hstep.current hash with hsame | ⟨i, c, s, ifMatch, version, hc, hs, rfl, hhead, hcommit, -⟩
  · exact hsame
  · exact absurd ⟨s, c, hash, ifMatch, version, _, hs, hc, rfl, hhead, hcommit⟩ (h i)

/-- and one that executes the commit of a put is its write. -/
theorem Inv.contents_write (hc : w.clients[i]? = some c) (h : Applies i (w, move)) :
    (c.write sha256).apply Meta.etag w.contents = some w'.contents := by
  have hinv' := hinv.step hstep
  obtain ⟨s, d, hash, ifMatch, version, objects, hs, hd, hmove, hhead, hcommit⟩ := h
  obtain rfl := Option.some.inj (hc.symm.trans hd)
  dsimp only at hs hmove hhead hcommit
  subst hmove
  have hmem := List.mem_of_mem_head? hhead
  have hq := (hinv.sound i c hc).queued
  obtain ⟨-, rfl, rfl, hversion⟩ := hq.sent _ hmem
  obtain ⟨-, -, ⟨current, hcurrent, hmatch⟩, hobjects⟩ := commit_eq_ok hcommit
  have hafter : w'.objects = objects := by
    cases hstep with
    | task hc h => exact absurd rfl (h.not_serve i none)
    | version hc h => exact absurd rfl (h.not_serve i none)
    | stop h => rcases h with h | h <;> cases h
    | serve fault hs' hc' hhead' =>
      obtain rfl := Option.some.inj (hs.symm.trans hs')
      obtain rfl := Option.some.inj (hc.symm.trans hc')
      obtain rfl := Option.some.inj (hhead.symm.trans hhead')
      simp [Server.answer, Server.handleCall, hcommit]
  have hset : (w'.objects (c.op.hash sha256)).current = some version := by
    rw [hafter, hobjects, Function.update_self]
  -- the version of the new pointer is that of the task
  obtain ⟨c', hc', hchange⟩ := hstep.client hc
  obtain ⟨j, d, hd, hdversion, -, -, hread⟩ := hinv'.readCurrent_eq hset
  obtain rfl := hinv'.distinct i j c' d version hc' hd (hchange.keeps_version hq hversion) hdversion
  obtain rfl := Option.some.inj (hc'.symm.trans hd)
  have hunpublished : c.unpublished = false := by
    by_contra hne
    have := hq.unpublished (by simpa using hne) _ hmem
    simp [Request.isCommit] at this
  have hnew : w'.contents (c.op.hash sha256) = some (c.info sha256) := by
    simp [World.contents, hread, Except.toOption, hchange.info hunpublished]
  have hcondition : (w.contents (c.op.hash sha256)).map Meta.etag = c.op.ifMatch := by
    rw [contents_of_currentForCommit hcurrent, ← hmatch, Option.map_map]
    rfl
  unfold ConditionalWrite.apply Client.write
  rw [if_pos hcondition, Option.some.injEq]
  funext hash
  by_cases hhash : hash = c.op.hash sha256
  · subst hhash
    rw [Function.update_self, hnew]
  · rw [Function.update_of_ne hhash, hinv.contents_same hstep]
    rw [hafter, hobjects, Function.update_of_ne hhash]

end

/-! ### Runs -/

/-- A task keeps what it has written once its commit is executed. -/
theorem kept_of_applies (h : Trace (step sha256) {} past w) (hx : x ∈ past) (happlies : Applies i x)
    (hc : x.1.clients[i]? = some c) :
    c.op.isPut ∧ ∃ c', w.clients[i]? = some c' ∧ c'.op = c.op ∧ c'.written = c.written := by
  have hrun := h.along (P := fun _ _ ↦ True)
    (I := fun past w ↦ Inv sha256 past w ∧ ∀ x ∈ past, ∀ (i : ℕ) (c : Client), Applies i x →
      x.1.clients[i]? = some c →
      c.op.isPut ∧ ∃ c', w.clients[i]? = some c' ∧ c'.op = c.op ∧ c'.written = c.written)
    ⟨Inv.init, by simp⟩ ?_ fun _ _ ↦ trivial
  · exact hrun.1.2 x hx i c happlies hc
  rintro past w move w' ⟨hinv, hkept⟩ - hmove
  have hstep := step_cases hmove
  refine ⟨hinv.step hstep, fun x hx i c happlies hc ↦ ?_⟩
  rcases List.mem_append.mp hx with hx | hx
  · obtain ⟨hput, d, hd, hop, hwritten⟩ := hkept x hx i c happlies hc
    obtain ⟨d', hd', hchange⟩ := hstep.client hd
    have hunpublished := hinv.unpublished_of_applied hd ⟨x, hx, happlies⟩
    exact ⟨hput, d', hd', hchange.op.trans hop, (hchange.written hunpublished).trans hwritten⟩
  · obtain rfl := List.mem_singleton.mp hx
    obtain ⟨r, hhead, hcommit, -⟩ := happlies.head hc
    have hmem := List.mem_of_mem_head? hhead
    have hq := (hinv.sound i c hc).queued
    have hunpublished : c.unpublished = false := by
      by_contra hne
      have := hq.unpublished (by simpa using hne) r hmem
      rw [hcommit] at this
      cases this
    obtain ⟨c', hc', hchange⟩ := hstep.client hc
    refine ⟨?_, c', hc', hchange.op, hchange.written hunpublished⟩
    cases r with
    | commit => exact (hq.sent _ hmem).1
    | _ => cases hcommit

/-- An applied write is in the history. -/
theorem mem_history_of_applied (h : Applied past i) : i ∈ (history sha256 past).map Prod.fst := by
  obtain ⟨x, hx, happlies⟩ := h
  have hcommit := happlies
  obtain ⟨s, c, -, -, -, -, -, hc, -⟩ := hcommit
  exact List.mem_map.mpr ⟨_, List.mem_filterMap.mpr
    ⟨x, hx, writeOf_of_applies happlies hc⟩, rfl⟩

/-- The contents of a store are what its history wrote. -/
theorem replay_history (h : Trace (step sha256) {} past w) :
    ConditionalWrite.replay Meta.etag ((history sha256 past).map Prod.snd) = some w.contents := by
  have hinv := (inv_run h).2
  unfold history
  rw [List.map_filterMap]
  refine h.replay rfl (fun x hx w' hmove hnone ↦ ?_) fun x hx w' op hmove hsome ↦ ?_
  · obtain ⟨before, -, hbefore, -⟩ := hinv x hx
    exact hbefore.contents_step (step_cases hmove) fun i ↦
      not_applies_of_writeOf (Option.map_eq_none_iff.mp hnone)
  · obtain ⟨before, -, hbefore, -⟩ := hinv x hx
    obtain ⟨⟨i, found⟩, hwrite, rfl⟩ := Option.map_eq_some_iff.mp hsome
    obtain ⟨happlies, c, hc, rfl⟩ := applies_of_writeOf hwrite
    exact hbefore.contents_write (step_cases hmove) hc happlies

private theorem observed (h : Trace (step sha256) {} past w) (hx : x ∈ past) (hrunning : x.1.Running i) :
    Observed sha256 past i x.1.contents := by
  obtain ⟨before, after, hsplit⟩ := List.append_of_mem hx
  exact ⟨before, x, after, hsplit, hrunning, replay_history (h.before hsplit)⟩

/-! ### A run -/

/-- A function in place of SHA-256 that keeps 32 bytes. -/
def sampleSha256 (bytes : Bytes) : Bytes := (bytes ++ List.replicate 32 0).take 32

/-- A put, a get that runs beside its end, a put that is refused, and a head of another key. -/
def sampleMoves : List Move :=
  [.boot, .start (.put [1] none []), .send 0, .serve 0 none, .receive 0,
    .create 0 (List.replicate 64 0x61), .send 0, .serve 0 none, .receive 0, .openData 0, .write 0 [7, 8],
    .writeMeta 0, .start (.get [1]), .send 0, .serve 0 none, .send 1, .receive 0, .send 0, .serve 0 none,
    .receive 0, .serve 1 none, .receive 1, .read 1, .send 1, .serve 1 none, .receive 1,
    .start (.put [1] none []), .send 2, .serve 2 none, .receive 2, .create 2 (List.replicate 64 0x62),
    .send 2, .serve 2 none, .receive 2, .openData 2, .writeMeta 2, .send 2, .serve 2 none, .receive 2,
    .discard 2 .complete, .send 2, .serve 2 none, .receive 2, .start (.head [2]), .send 3,
    .serve 3 none, .receive 3]

/-- The etag of the sample's bytes. -/
def sampleEtag : Bytes := encode16 (sampleSha256 [7, 8])

/-- The tasks of the sample: what each calls, and how it ends. -/
def sampleTasks : List (Op × Phase) :=
  [(.put [1] none [], .returned (.put sampleEtag)), (.get [1], .returned (.got sampleEtag [] [7, 8])),
    (.put [1] none [], .returned (.error .preconditionFailed)), (.head [2], .returned (.error .notFound))]

private theorem sample_run : ∃ past w, Trace (step sampleSha256) {} past w ∧
    w.clients.map (fun c ↦ (c.op, c.phase)) = sampleTasks := by
  have htasks : (sampleMoves.foldlM (step sampleSha256) {}).map
      (fun w ↦ w.clients.map fun c ↦ (c.op, c.phase)) = some sampleTasks := by
    decide +kernel
  obtain ⟨w, hw, hclients⟩ := Option.map_eq_some_iff.mp htasks
  obtain ⟨past, hrun, -⟩ := Trace.of_moves hw
  exact ⟨past, w, hrun, hclients⟩

private theorem sample_client (i : ℕ) {op : Op} {phase : Phase}
    (h : w.clients.map (fun c ↦ (c.op, c.phase)) = sampleTasks) (htask : sampleTasks[i]? = some (op, phase)) :
    ∃ c, w.clients[i]? = some c ∧ c.phase = phase ∧ c.op = op := by
  rw [← h, List.getElem?_map] at htask
  obtain ⟨c, hc, hsame⟩ := Option.map_eq_some_iff.mp htask
  cases hsame
  exact ⟨c, hc, rfl, rfl⟩

/-! ### Results -/

/-- What a read returns was in the store at some step of its call, as the history of its writes up to
there made it. A `get` returns the bytes of an executed put whose key has the same hash, with their own
hash as etag. -/
theorem reads_linearizable (h : Trace (step sha256) {} past w) :
    ∀ (i : ℕ) (c : Client), w.clients[i]? = some c →
      (∀ info, c.phase = .returned (.head info) → ∃ contents, Observed sha256 past i contents ∧
        contents (c.op.hash sha256) = some info) ∧
      (∀ etag metadata content, c.phase = .returned (.got etag metadata content) →
        etag = encode16 (sha256 content) ∧
        (∃ contents, Observed sha256 past i contents ∧
          contents (c.op.hash sha256) = some ⟨etag, content.length, metadata⟩) ∧
        ∃ (j : ℕ) (d : Client), w.clients[j]? = some d ∧ j ∈ (history sha256 past).map Prod.fst ∧
          d.op.isPut ∧ d.op.hash sha256 = c.op.hash sha256 ∧ d.written = content) ∧
      (c.phase = .returned (.error .notFound) → ∃ contents, Observed sha256 past i contents ∧
        contents (c.op.hash sha256) = none) := by
  obtain ⟨hinv, hpast⟩ := inv_run h
  intro i c hc
  have hsound := hinv.sound i c hc
  have hsaw : ∀ x ∈ past, ∀ version info, Saw sha256 i c version info x →
      x.1.contents (c.op.hash sha256) = some info := by
    rintro x - version info ⟨-, hread⟩
    simp [World.contents, hread, Except.toOption]
  refine ⟨fun info hphase ↦ ?_, fun etag metadata content hphase ↦ ?_, fun hphase ↦ ?_⟩
  · obtain ⟨x, hx, version, hseen⟩ := hsound.outcome (.head info) (by rw [hphase]; rfl)
    exact ⟨_, observed h hx hseen.1, hsaw x hx version info hseen⟩
  · obtain ⟨x, hx, version, info, hseen, rfl, rfl, hsize, hdata⟩ :=
      hsound.outcome (.got etag metadata content) (by rw [hphase]; rfl)
    obtain ⟨before, after, hsplit⟩ := List.append_of_mem hx
    have hbefore := h.before hsplit
    have hxinv := (inv_run hbefore).1
    obtain ⟨hcurrent, -, -⟩ := readCurrent_eq_ok hseen.2
    -- the version is that of a put, and its files are those that the put wrote
    obtain ⟨j, d, hd, hversion, hhash, happlied, hread⟩ := hxinv.readCurrent_eq hcurrent
    cases hread.symm.trans hseen.2
    obtain ⟨dir, hdir, hcontent⟩ := Option.bind_eq_some_iff.mp hdata
    obtain ⟨j', d', hd', hversion', -, hwritten, -⟩ := hxinv.owned _ version dir hdir
    obtain rfl := hxinv.distinct j j' d d' version hd hd' hversion hversion'
    obtain rfl := Option.some.inj (hd.symm.trans hd')
    rw [hcontent] at hwritten
    obtain rfl : content = d.written := by simpa using hwritten
    obtain ⟨y, hy, happlies⟩ := happlied
    have hcommit := happlies
    obtain ⟨s, d₀, -, -, -, -, -, hd₀, -⟩ := hcommit
    obtain ⟨hput, e, he, hop, hsame⟩ := kept_of_applies hbefore hy happlies hd₀
    obtain rfl := Option.some.inj (hd.symm.trans he)
    have hy' : y ∈ past := hsplit ▸ List.mem_append_left _ hy
    obtain ⟨-, e, he, hop', hsame'⟩ := kept_of_applies h hy' happlies hd₀
    refine ⟨rfl, ⟨_, observed h hx hseen.1, hsaw x hx version _ hseen⟩, j, e, he,
      mem_history_of_applied ⟨y, hy', happlies⟩, by rwa [hop'], ?_, by rw [hsame', hsame]⟩
    rw [hop', ← hop, hhash]
  · obtain ⟨x, hx, hrunning, hcurrent⟩ :=
      (hsound.outcome (.error .notFound) (by rw [hphase]; rfl)).2 rfl
    refine ⟨_, observed h hx hrunning, ?_⟩
    simp [World.contents, readCurrent, hcurrent, Except.toOption]

/-- The theorem at a read of a written key and one of a missing key. -/
theorem reads_linearizable_sample : ∃ past w, Trace (step sampleSha256) {} past w ∧
    (∃ contents, Observed sampleSha256 past 1 contents ∧
      contents (keyHash sampleSha256 [1]) = some ⟨sampleEtag, 2, []⟩) ∧
    ∃ contents, Observed sampleSha256 past 3 contents ∧ contents (keyHash sampleSha256 [2]) = none := by
  obtain ⟨past, w, hrun, htasks⟩ := sample_run
  obtain ⟨c, hc, hphase, hop⟩ := sample_client 1 htasks rfl
  obtain ⟨d, hd, hmissing, hmissed⟩ := sample_client 3 htasks rfl
  obtain ⟨-, hgot, -⟩ := reads_linearizable hrun 1 c hc
  obtain ⟨-, -, hnone⟩ := reads_linearizable hrun 3 d hd
  have hread := (hgot sampleEtag [] [7, 8] hphase).2.1
  have hnothing := hnone hmissing
  rw [Op.hash, hop] at hread
  rw [Op.hash, hmissed] at hnothing
  exact ⟨past, w, hrun, hread, hnothing⟩

end Gitility.LocalStore
