import Gitility.ObjectStore.LocalLeases
import Gitility.ObjectStore.LocalRuns

/-!
# Complete versions of a local object store

No step takes a version away that is current, pinned or claimed. While its server lives, a task that fills
a version keeps the claim of it, and one that reads a version keeps its pin. So in a run in which no server
is killed a pointer never names a version without its bytes, and a `get` reads what it pinned to the end.
-/

namespace Gitility.LocalStore

open Gitility.Mirror (encode16)

variable {sha256 : Bytes → Bytes} {past : List (World × Move)} {w w' : World} {i : ℕ} {c c' : Client}
  {move : Move} {hash version : Bytes}

/-! ### Runs in which no server is killed -/

/-- A version has its bytes. -/
def Full (w : World) (hash version : Bytes) : Prop :=
  ∃ dir, (w.objects hash).versions version = some dir ∧ dir.data ≠ none

/-- What holds while no server is killed. -/
structure Leased (sha256 : Bytes → Bytes) (past : List (World × Move)) (w : World) : Prop where
  ordered : ∀ (i : ℕ) (c : Client), w.clients[i]? = some c → Ordered c
  held : ∀ (i : ℕ) (c : Client), w.clients[i]? = some c → c.Holds →
    ∃ s named, w.server = some s ∧ s.holds.lookup i = some (i, named) ∧ (named = none ∨ named = c.version)
  claimed : ∀ (i : ℕ) (c : Client), w.clients[i]? = some c → c.Claims →
    ∃ s version, w.server = some s ∧ c.version = some version ∧
      s.holds.lookup i = some (i, some version)
  reads : ∀ (i : ℕ) (c : Client) (version : Bytes), w.clients[i]? = some c → c.Reads version →
    ∃ s, w.server = some s ∧ s.PinnedBy version i
  current : ∀ hash version, (w.objects hash).current = some version → Full w hash version
  pinned : ∀ s version, w.server = some s → s.Pins version →
    ∃ hash, Published sha256 past w hash version ∧ Full w hash version

private theorem Step.server_serve {s : Server} {r : Request} {fault : Option AdapterReason}
    (hstep : Step sha256 w (.serve i fault) w') (hs : w.server = some s) (hc : w.clients[i]? = some c)
    (hhead : c.queue.head? = some r) :
    w'.server = some (s.answer w.objects i w.nextMonitor r fault).2.1 := by
  cases hstep with
  | task hc h => exact absurd rfl (h.not_serve i fault)
  | version hc h => exact absurd rfl (h.not_serve i fault)
  | stop h => rcases h with h | h <;> cases h
  | serve fault hs' hc' hhead' =>
    obtain rfl := Option.some.inj (hs.symm.trans hs')
    obtain rfl := Option.some.inj (hc.symm.trans hc')
    obtain rfl := Option.some.inj (hhead.symm.trans hhead')
    rfl

private theorem Client.Holds.live (h : c.Holds) : c.phase.rank < 3 ∧ ¬ c.Ended := by
  rcases h with hphase | hphase | ⟨⟨n, hphase⟩, -⟩ <;> simp [hphase, Phase.rank, Client.Ended]

private theorem Client.Claims.live (h : c.Claims) :
    (c.phase.rank < 3 ∨ ∃ r ∈ c.queue, r.isCommit) ∧ (¬ c.Ended ∨ c.queue ≠ []) := by
  rcases h with hphase | ⟨hphase, -⟩ | ⟨r, hr, hcommit⟩
  · cases hc : c.phase <;> simp_all [Phase.claimed, Phase.rank, Client.Ended]
  · simp [hphase, Phase.rank, Client.Ended]
  · exact ⟨.inr ⟨r, hr, hcommit⟩, .inr (List.ne_nil_of_mem hr)⟩

private theorem Client.Reads.live (h : c.Reads version) : c.phase.rank < 3 ∧ ¬ c.Ended := by
  rcases h with ⟨hphase, -⟩ | ⟨⟨n, hphase⟩, -⟩ <;> simp [hphase, Phase.rank, Client.Ended]

private theorem Full.step (h : Full w hash version)
    (hsame : (w'.objects hash).versions version = (w.objects hash).versions version) :
    Full w' hash version := by
  obtain ⟨dir, hdir, hdata⟩ := h
  exact ⟨dir, hsame.trans hdir, hdata⟩

section

variable (hinv : Inv sha256 past w) (hleased : Leased sha256 past w) (hstep : Step sha256 w move w')
  (hmove : move ≠ .crash)

include hinv hleased hstep hmove

omit hinv hmove in
private theorem Leased.ordered_step (hc' : w'.clients[i]? = some c') : Ordered c' := by
  rcases hstep.client_of hc' with ⟨c, hc, hchange⟩ | ⟨-, op, rfl⟩
  · exact (hleased.ordered i c hc).change hchange
  · exact ordered_start op

private theorem Leased.held_step (hc' : w'.clients[i]? = some c') (hholds : c'.Holds) :
    ∃ s named, w'.server = some s ∧ s.holds.lookup i = some (i, named) ∧
      (named = none ∨ named = c'.version) := by
  rcases hstep.client_of hc' with ⟨c, hc, hchange⟩ | ⟨-, op, rfl⟩
  · have hq := (hinv.sound i c hc).queued
    rcases hchange.holds hq hholds with hold | ⟨s, fault, hs, hhead, rfl, hreply⟩
    · obtain ⟨hrank, hended⟩ := hold.live
      obtain ⟨s, named, hs, hlookup, hnamed⟩ := hleased.held i c hc hold
      have hhead := fun r ↦ (hleased.ordered i c hc).head_lt (.inl hrank) (r := r)
      obtain ⟨s', named', hs', hlookup', hcase⟩ := hstep.lookup_holds hmove hs hc (.inl hended) hhead
        (fun j d hd ↦ (hinv.sound j d hd).queued) hlookup
      refine ⟨s', named', hs', hlookup', ?_⟩
      rcases hcase with rfl | ⟨version, hclaim, rfl, -⟩
      · rcases hnamed with rfl | rfl
        · exact .inl rfl
        · cases hversion : c.version with
          | none => exact .inl rfl
          | some version => exact .inr (hchange.keeps_version hq hversion).symm
      · obtain ⟨-, hversion⟩ := hq.sent _ (List.mem_of_mem_head? hclaim)
        exact .inr (hchange.keeps_version hq hversion).symm
    · exact ⟨_, none, hstep.server_serve hs hc hhead, Server.lookup_holds_of_hold hreply, .inl rfl⟩
  · cases op <;> simp [Client.start, Client.Holds] at hholds

private theorem Leased.claimed_step (hc' : w'.clients[i]? = some c') (hclaims : c'.Claims) :
    ∃ s version, w'.server = some s ∧ c'.version = some version ∧
      s.holds.lookup i = some (i, some version) := by
  rcases hstep.client_of hc' with ⟨c, hc, hchange⟩ | ⟨-, op, rfl⟩
  · have hq := (hinv.sound i c hc).queued
    rcases hchange.claims hq hclaims with hold | ⟨s, version, fault, hs, hversion, hhead, rfl, hreply⟩
    · obtain ⟨hbefore, hlive⟩ := hold.live
      obtain ⟨s, version, hs, hversion, hlookup⟩ := hleased.claimed i c hc hold
      have hhead := fun r ↦ (hleased.ordered i c hc).head_lt hbefore (r := r)
      obtain ⟨s', named, hs', hlookup', hcase⟩ := hstep.lookup_holds hmove hs hc hlive hhead
        (fun j d hd ↦ (hinv.sound j d hd).queued) hlookup
      have hnamed : named = some version := by
        rcases hcase with rfl | ⟨version', hclaim, rfl, -⟩
        · rfl
        · exact (hq.sent _ (List.mem_of_mem_head? hclaim)).2.symm.trans hversion
      exact ⟨s', version, hs', hchange.keeps_version hq hversion, hnamed ▸ hlookup'⟩
    · exact ⟨_, version, hstep.server_serve hs hc hhead, hchange.keeps_version hq hversion,
        Server.lookup_holds_of_claim hreply⟩
  · cases op <;> simp [Client.start, Client.Claims, Phase.claimed] at hclaims

private theorem Leased.reads_step (hc' : w'.clients[i]? = some c') (hreads : c'.Reads version) :
    ∃ s, w'.server = some s ∧ s.PinnedBy version i := by
  rcases hstep.client_of hc' with ⟨c, hc, hchange⟩ | ⟨-, op, rfl⟩
  · have hq := (hinv.sound i c hc).queued
    rcases hchange.reads hq hreads with hold | ⟨s, r, fault, info, hs, hhead, rfl, hreply⟩
    · obtain ⟨hrank, hended⟩ := hold.live
      obtain ⟨s, hs, hpin⟩ := hleased.reads i c version hc hold
      have hhead := fun r ↦ (hleased.ordered i c hc).head_lt (.inl hrank) (r := r)
      exact hstep.pinnedBy hmove hs hc (.inl hended) hhead hpin
    · exact ⟨_, hstep.server_serve hs hc hhead, Server.pinnedBy_of_reply hreply⟩
  · cases op <;> simp [Client.start, Client.Reads] at hreads

omit hmove in
private theorem Leased.current_step (hcurrent : (w'.objects hash).current = some version) :
    Full w' hash version := by
  rcases hstep.current hash with hsame | ⟨i, c, s, ifMatch, version', hc, hs, rfl, hhead, hcommit, hset⟩
  · have hold := hsame.symm.trans hcurrent
    exact (hleased.current hash version hold).step
      (hinv.version_same hstep (hinv.current hash version hold).committed (.inl hold))
  · obtain rfl := Option.some.inj (hcurrent.symm.trans hset)
    have hmem := List.mem_of_mem_head? hhead
    have hqueue : ∃ r ∈ c.queue, r.isCommit := ⟨_, hmem, rfl⟩
    obtain ⟨-, rfl, -, hversion⟩ := (hinv.sound i c hc).queued.sent _ hmem
    -- the server still holds the claim of the version, so nothing has removed its bytes
    obtain ⟨s', version', hs', hversion', hlookup⟩ := hleased.claimed i c hc (.inr (.inr hqueue))
    obtain rfl := Option.some.inj (hversion.symm.trans hversion')
    obtain ⟨d, hd, -, hfilled⟩ := hinv.claimed s' i version hs' ⟨i, hlookup⟩
    obtain rfl := Option.some.inj (hc.symm.trans hd)
    obtain ⟨dir, hdir, hdata⟩ := hfilled (.inr (.inr hqueue))
    obtain ⟨-, -, -, hobjects⟩ := commit_eq_ok hcommit
    refine ⟨dir, ?_, by simp [hdata]⟩
    rw [hobjects, Function.update_self]
    exact hdir

omit hmove in
private theorem Leased.pinned_step {s' : Server} (hs' : w'.server = some s') (hpins : s'.Pins version) :
    ∃ hash, Published sha256 (past ++ [(w, move)]) w' hash version ∧ Full w' hash version := by
  have hkept : ∀ hash, Published sha256 past w hash version → Full w hash version →
      ((w.objects hash).current = some version ∨ ∃ s, w.server = some s ∧ s.Pins version) →
      Published sha256 (past ++ [(w, move)]) w' hash version ∧ Full w' hash version := by
    intro hash hpublished hfull hused
    exact ⟨hinv.published_step hstep hpublished hused,
      hfull.step (hinv.version_same hstep hpublished.committed hused)⟩
  rcases hstep.pins hs' hpins with ⟨s, hs, hpins⟩ | ⟨hash, info, hread⟩
  · obtain ⟨hash, hpublished, hfull⟩ := hleased.pinned s version hs hpins
    exact ⟨hash, hkept hash hpublished hfull (.inr ⟨s, hs, hpins⟩)⟩
  · obtain ⟨hcurrent, -, -⟩ := readCurrent_eq_ok hread
    exact ⟨hash, hkept hash (hinv.current hash version hcurrent) (hleased.current hash version hcurrent)
      (.inl hcurrent)⟩

private theorem Leased.step : Leased sha256 (past ++ [(w, move)]) w' where
  ordered _ _ := hleased.ordered_step hstep
  held _ _ := hleased.held_step hinv hstep hmove
  claimed _ _ := hleased.claimed_step hinv hstep hmove
  reads _ _ _ := hleased.reads_step hinv hstep hmove
  current _ _ := hleased.current_step hinv hstep
  pinned _ _ := hleased.pinned_step hinv hstep

end

private theorem Leased.init : Leased sha256 [] {} := by
  constructor <;> simp

private theorem leased_run (h : Trace (step sha256) {} past w) (hlive : ∀ x ∈ past, x.2 ≠ .crash) :
    Inv sha256 past w ∧ Leased sha256 past w := by
  have hrun := h.along (P := fun _ move ↦ move ≠ .crash)
    (I := fun past w ↦ Inv sha256 past w ∧ Leased sha256 past w) ⟨Inv.init, Leased.init⟩ ?_ hlive
  · exact hrun.1
  rintro past w move w' ⟨hinv, hleased⟩ hmove hstep
  exact ⟨hinv.step (step_cases hstep), hleased.step hinv (step_cases hstep) hmove⟩

/-! ### Results -/

/-- No step removes or changes a version that is current or pinned, and none but the steps of its own task
one that is claimed. -/
theorem used_versions_stay (h : Trace (step sha256) {} past w) {x : World × Move} (hx : x ∈ past)
    (hmove : step sha256 x.1 x.2 = some w') :
    (∀ hash version, (x.1.objects hash).current = some version →
      (w'.objects hash).versions version = (x.1.objects hash).versions version) ∧
    ∀ s version, x.1.server = some s →
      (s.Pins version →
        ∀ hash, (w'.objects hash).versions version = (x.1.objects hash).versions version) ∧
      ∀ ref, s.Claims ref version →
        ∀ hash, (w'.objects hash).versions version = (x.1.objects hash).versions version ∨
          ∃ c c', x.1.clients[ref]? = some c ∧ w'.clients[ref]? = some c' ∧
            OwnDir sha256 x.1 ref x.2 c c' version ((w'.objects hash).versions version) := by
  obtain ⟨before, -, hinv, -⟩ := (inv_run h).2 x hx
  have hstep := step_cases hmove
  refine ⟨fun hash version hcurrent ↦
    hinv.version_same hstep (hinv.current hash version hcurrent).committed (.inl hcurrent),
    fun s version hs ↦ ⟨fun hpins hash ↦ ?_, fun ref hclaims hash ↦ ?_⟩⟩
  · obtain ⟨hash', hpublished⟩ := hinv.pinned s version hs hpins
    rcases hstep.versions hash version with hsame | ⟨j, d, d', hd, -, -, hown⟩ |
      ⟨s', removal, hs', -, -, hunpinned, -⟩
    · exact hsame
    · exact absurd hown (hinv.not_ownDir hpublished.committed hd)
    · obtain rfl := Option.some.inj (hs.symm.trans hs')
      exact absurd hpins hunpinned
  · obtain ⟨c, hc, hversion, -⟩ := hinv.claimed s ref version hs hclaims
    rcases hstep.versions hash version with hsame | ⟨j, d, d', hd, hd', -, hown⟩ |
      ⟨s', removal, hs', -, -, -, hunclaimed, -⟩
    · exact .inl hsame
    · rcases hown.version_eq with heq | hfresh
      · obtain rfl := hinv.distinct ref j c d version hc hd hversion heq
        exact .inr ⟨d, d', hd, hd', hown⟩
      · exact absurd hversion (hfresh c (List.mem_of_getElem? hc))
    · obtain rfl := Option.some.inj (hs.symm.trans hs')
      exact absurd hclaims (hunclaimed ref)

/-- A get has pinned the first version, a put has replaced it by the second, and another put has claimed the
third. -/
def sampleUses : List Move :=
  sampleMoves.take 22 ++
  [.start (.put [1] (some sampleEtag) []), .send 2, .serve 2 none, .receive 2,
    .create 2 (List.replicate 64 0x62), .send 2, .serve 2 none, .receive 2, .openData 2, .write 2 [9],
    .writeMeta 2, .send 2, .serve 2 none, .receive 2, .start (.put [1] none []), .send 3, .serve 3 none,
    .receive 3, .create 3 (List.replicate 64 0x63), .send 3, .serve 3 none, .receive 3]

/-- The first version is pinned, and the hold of the last task claims the third. -/
def sampleLeases (s : Server) : Bool :=
  (s.pins.lookup (List.replicate 64 0x61)).isSome ∧
    s.holds.lookup 3 = some (3, some (List.replicate 64 0x63))

/-- A sweep takes neither the current nor the pinned nor the claimed version. -/
theorem used_versions_stay_sample : ∃ w w' s,
    step sampleSha256 w (.sweep (keyHash sampleSha256 [1]) fun _ ↦ .complete) = some w' ∧
    w.server = some s ∧ (w.objects (keyHash sampleSha256 [1])).current = some (List.replicate 64 0x62) ∧
    s.Pins (List.replicate 64 0x61) ∧ s.Claims 3 (List.replicate 64 0x63) ∧
    ∀ version ∈ [List.replicate 64 0x61, List.replicate 64 0x62, List.replicate 64 0x63],
      ((w.objects (keyHash sampleSha256 [1])).versions version).isSome ∧
      (w'.objects (keyHash sampleSha256 [1])).versions version =
        (w.objects (keyHash sampleSha256 [1])).versions version := by
  have hend : (sampleUses.foldlM (step sampleSha256) {}).map (fun w ↦
      (w.server.map sampleLeases, (w.objects (keyHash sampleSha256 [1])).current,
        [List.replicate 64 0x61, List.replicate 64 0x62, List.replicate 64 0x63].all fun version ↦
          ((w.objects (keyHash sampleSha256 [1])).versions version).isSome)) =
      some (some true, some (List.replicate 64 0x62), true) := by
    decide +kernel
  obtain ⟨w, hw, hfacts⟩ := Option.map_eq_some_iff.mp hend
  obtain ⟨hserver, hfacts⟩ := Prod.mk.inj hfacts
  obtain ⟨hcurrent, hstored⟩ := Prod.mk.inj hfacts
  obtain ⟨s, hs, hleases⟩ := Option.map_eq_some_iff.mp hserver
  obtain ⟨hpins, hhold⟩ := of_decide_eq_true hleases
  have hclaims : s.Claims 3 (List.replicate 64 0x63) := ⟨3, hhold⟩
  obtain ⟨past, hrun, -⟩ := Trace.of_moves hw
  obtain ⟨w', hmove⟩ : ∃ w',
      step sampleSha256 w (.sweep (keyHash sampleSha256 [1]) fun _ ↦ .complete) = some w' :=
    ⟨_, by simp only [step, hs, Option.bind_eq_bind, Option.bind_some]; rfl⟩
  have hlast : (w, .sweep (keyHash sampleSha256 [1]) fun _ ↦ .complete) ∈
      past ++ [(w, .sweep (keyHash sampleSha256 [1]) fun _ ↦ .complete)] := by
    simp
  obtain ⟨hstays, hleased⟩ := used_versions_stay (hrun.move _ hmove) hlast hmove
  refine ⟨w, w', s, hmove, hs, hcurrent, hpins, hclaims, fun version hversion ↦
    ⟨List.all_eq_true.mp hstored version hversion, ?_⟩⟩
  simp only [List.mem_cons, List.not_mem_nil, or_false] at hversion
  rcases hversion with rfl | rfl | rfl
  · exact (hleased s _ hs).1 hpins _
  · exact hstays _ _ hcurrent
  · rcases (hleased s _ hs).2 3 hclaims (keyHash sampleSha256 [1]) with hsame | ⟨c, c', -, -, hown⟩
    · exact hsame
    · cases hown

/-- A version that has its bytes has all that its put wrote. -/
theorem Inv.full_published (hinv : Inv sha256 past w) (hpublished : Published sha256 past w hash version)
    (hfull : Full w hash version) :
    ∃ (i : ℕ) (c : Client), w.clients[i]? = some c ∧ c.version = some version ∧
      c.op.hash sha256 = hash ∧ Applied past i ∧
      (w.objects hash).versions version = some ⟨some c.written, some (c.info sha256)⟩ := by
  obtain ⟨i, c, ⟨data, info⟩, x, hc, hversion, hhash, hx, happlies, -, hdir, rfl, -⟩ := hpublished
  obtain ⟨found, hfound, hdata⟩ := hfull
  obtain rfl := Option.some.inj (hdir.symm.trans hfound)
  obtain ⟨j, d, hd, hdversion, -, hwritten, -⟩ := hinv.owned hash version _ hdir
  obtain rfl := hinv.distinct i j c d version hc hd hversion hdversion
  obtain rfl := Option.some.inj (hc.symm.trans hd)
  obtain rfl : data = some c.written := hwritten.resolve_left hdata
  exact ⟨i, c, hc, hversion, hhash, ⟨x, hx, happlies⟩, hdir⟩

/-- In a run in which the server may stop when it is idle but is not killed, each pointer names a version
with all the bytes that its put wrote, and a `get` whose pin was accepted reads what it pinned to the end. -/
theorem gets_complete (h : Trace (step sha256) {} past w) (hlive : ∀ x ∈ past, x.2 ≠ .crash) :
    (∀ hash version, (w.objects hash).current = some version →
      ∃ (i : ℕ) (c : Client), w.clients[i]? = some c ∧ c.version = some version ∧
        i ∈ (history sha256 past).map Prod.fst ∧ c.op.hash sha256 = hash ∧
        (w.objects hash).versions version = some ⟨some c.written, some (c.info sha256)⟩) ∧
    ∀ (i : ℕ) (c : Client), w.clients[i]? = some c → c.phase = .reading →
      ∃ version info content w' c', c.pinned = some (version, info) ∧ content.length = info.size ∧
        info.etag = encode16 (sha256 content) ∧ step sha256 w (.read i) = some w' ∧
        w'.clients[i]? = some c' ∧ c'.phase = .unpinning (.got info.etag info.metadata content) := by
  obtain ⟨hinv, hleased⟩ := leased_run h hlive
  refine ⟨fun hash version hcurrent ↦ ?_, fun i c hc hphase ↦ ?_⟩
  · obtain ⟨i, c, hc, hversion, hhash, happlied, hdir⟩ :=
      hinv.full_published (hinv.current hash version hcurrent) (hleased.current hash version hcurrent)
    exact ⟨i, c, hc, hversion, mem_history_of_applied happlied, hhash, hdir⟩
  · obtain ⟨version, info, hpinned, ⟨k, e, he, heversion, hehash, -⟩, x, -, ⟨-, hread⟩, hshrinks⟩ :=
      (hinv.sound i c hc).reading hphase
    obtain ⟨s, hs, hpin⟩ := hleased.reads i c version hc (.inl ⟨hphase, info, hpinned⟩)
    obtain ⟨hash, hpublished, hfull⟩ := hleased.pinned s version hs hpin.pins
    obtain ⟨j, d, hd, hdversion, hdhash, -, hdir⟩ := hinv.full_published hpublished hfull
    obtain rfl := hinv.distinct k j e d version he hd heversion hdversion
    obtain rfl := Option.some.inj (he.symm.trans hd)
    obtain rfl : hash = c.op.hash sha256 := hdhash.symm.trans hehash
    -- the version has kept its `meta` file since it was pinned
    obtain ⟨old, hold, -, hmeta⟩ := hshrinks _ hdir
    obtain ⟨-, -, hreadMeta⟩ := readCurrent_eq_ok hread
    obtain ⟨hinfo, -⟩ := readMeta_eq_ok hreadMeta
    rw [hold, Option.bind_some] at hinfo
    obtain rfl : info = e.info sha256 := by
      simpa [hinfo, eq_comm] using hmeta
    have hcopied : c.copied (e.info sha256) e.written =
        { c with phase := .unpinning (.got (e.info sha256).etag (e.info sha256).metadata e.written) } :=
      if_pos rfl
    refine ⟨version, e.info sha256, e.written, w.advance i (c.copied (e.info sha256) e.written),
      c.copied (e.info sha256) e.written, hpinned, rfl, rfl, ?_, clients_advance_self hc, by rw [hcopied]⟩
    simp [step, hc, hphase, hpinned, World.dir, hdir]

/-- The theorem at a read of a pinned version: the read step gives the whole content. -/
theorem gets_complete_sample : ∃ past w c version info content w' c',
    Trace (step sampleSha256) {} past w ∧ w.clients[1]? = some c ∧ c.phase = .reading ∧
    c.pinned = some (version, info) ∧ step sampleSha256 w (.read 1) = some w' ∧
    w'.clients[1]? = some c' ∧ c'.phase = .unpinning (.got info.etag info.metadata content) := by
  have hend : ((sampleMoves.take 22).foldlM (step sampleSha256) {}).map
      (fun w ↦ w.clients[1]?.map Client.phase) = some (some .reading) := by
    decide +kernel
  obtain ⟨w, hw, hclient⟩ := Option.map_eq_some_iff.mp hend
  obtain ⟨c, hc, hphase⟩ := Option.map_eq_some_iff.mp hclient
  obtain ⟨past, hrun, hmoves⟩ := Trace.of_moves hw
  have hlive : ∀ x ∈ past, x.2 ≠ .crash := by
    intro x hx
    have hmem : x.2 ∈ sampleMoves.take 22 := hmoves ▸ List.mem_map_of_mem hx
    rintro hcrash
    rw [hcrash] at hmem
    simp [sampleMoves] at hmem
  obtain ⟨version, info, content, w', c', hpinned, -, -, hread, hc', hphase'⟩ :=
    (gets_complete hrun hlive).2 1 c hc hphase
  exact ⟨past, w, c, version, info, content, w', c', hrun, hc, hphase, hpinned, hread, hc', hphase'⟩

end Gitility.LocalStore
