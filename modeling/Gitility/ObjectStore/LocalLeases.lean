import Gitility.ObjectStore.LocalSafety

/-!
# Holds and pins

The hold of a task stays in the server until its `release`, and its pin until its `unpin`: the server
handles the messages of a task in the order of its phases, and those of other tasks leave them alone.
-/

namespace Gitility.LocalStore

variable {sha256 : Bytes → Bytes} {past : List (World × Move)} {w w' : World} {i : ℕ} {c c' : Client}
  {move : Move} {hash version : Bytes}

/-! ### The order of messages -/

/-- The order in which a task sends its messages. -/
def Request.rank : Request → ℕ
  | hold _ | pin _ => 0
  | claim _ _ => 1
  | commit _ _ _ => 2
  | release _ | unpin _ => 3

/-- The order of the phases of a task. -/
def Phase.rank : Phase → ℕ
  | holding _ | creating | pinning _ | reading => 0
  | claiming | preparing | copying => 1
  | committing | discarding _ => 2
  | releasing _ | unpinning _ | returned _ | killed => 3

/-- The messages of a task are in their order, and none is of a later phase. -/
structure Ordered (c : Client) : Prop where
  sorted : c.queue.Pairwise fun r r' ↦ r.rank ≤ r'.rank
  bounded : ∀ r ∈ c.queue, r.rank ≤ c.phase.rank

private theorem rank_request {r : Request} (h : c.request sha256 i = some r) : r.rank = c.phase.rank := by
  unfold Client.request at h
  split at h <;> rename_i hphase
  all_goals simp only [Option.some.injEq, Option.map_eq_some_iff, reduceCtorEq] at h
  case h_2 | h_3 | h_6 =>
    obtain ⟨found, -, rfl⟩ := h
    simp [Request.rank, Phase.rank, hphase]
  all_goals
    subst h
    simp [Request.rank, Phase.rank, hphase]

private theorem rank_next (reply : Reply) : c.phase.rank ≤ (c.next sha256 reply).rank := by
  unfold Client.next
  split
  case h_10 =>
    split <;> simp [*, Phase.rank]
  all_goals simp [*, Phase.rank]

private theorem Ordered.keep (h : Ordered c) (hqueue : c'.queue.Sublist c.queue)
    (hrank : c.phase.rank ≤ c'.phase.rank) : Ordered c' :=
  ⟨h.sorted.sublist hqueue, fun r hr ↦ (h.bounded r (hqueue.subset hr)).trans hrank⟩

/-- A step keeps the messages of a task in their order. -/
theorem Ordered.change (h : Ordered c) (hchange : Change sha256 w w' i move c c') : Ordered c' := by
  cases hchange with
  | none => exact h
  | served => exact h.keep (List.tail_sublist _) le_rfl
  | disconnect => exact h.keep (List.nil_sublist _) le_rfl
  | ownDir hown =>
    cases hown with
    | create hphase | openData hphase | writeMeta hphase | discard removal hphase =>
      exact h.keep (List.Sublist.refl _) (by simp [hphase, Phase.rank])
    | write => exact h.keep (List.Sublist.refl _) le_rfl
  | task hlocal =>
    cases hlocal with
    | send hr =>
      have hrank := rank_request hr
      refine ⟨List.pairwise_append.mpr ⟨h.sorted, List.pairwise_singleton _ _, ?_⟩, ?_⟩
      · intro r hmem r' hmem'
        obtain rfl := List.mem_singleton.mp hmem'
        exact hrank ▸ h.bounded r hmem
      · intro r hmem
        rcases List.mem_append.mp hmem with hmem | hmem
        · exact h.bounded r hmem
        · obtain rfl := List.mem_singleton.mp hmem
          exact hrank.le
    | refused => exact h.keep (List.Sublist.refl _) le_rfl
    | receive | expire => exact h.keep (List.Sublist.refl _) (rank_next _)
    | openFailed hphase | writeMetaFailed reason hphase | readFailed hphase =>
      exact h.keep (List.Sublist.refl _) (by simp [hphase, Phase.rank])
    | read hphase =>
      unfold Client.copied
      split <;> exact h.keep (List.Sublist.refl _) (by simp [hphase, Phase.rank])
    | fail fault hfail =>
      unfold Client.fail at hfail
      split at hfail <;> cases hfail <;>
        exact h.keep (List.Sublist.refl _) (by simp [*, Phase.rank])
    | kill =>
      refine h.keep (List.Sublist.refl _) ?_
      cases c.phase <;> simp [Phase.rank]

/-- A new task has sent nothing. -/
theorem ordered_start (op : Op) : Ordered (Client.start op) := by
  cases op <;> exact ⟨by simp [Client.start], by simp [Client.start]⟩

/-- The next message is neither a `release` nor an `unpin` before a commit, nor before its phase. -/
theorem Ordered.head_lt (h : Ordered c) (hbefore : c.phase.rank < 3 ∨ ∃ r ∈ c.queue, r.isCommit)
    {r : Request} (hhead : c.queue.head? = some r) : r.rank < 3 := by
  rcases hbefore with hphase | ⟨r', hr', hcommit⟩
  · exact (h.bounded r (List.mem_of_mem_head? hhead)).trans_lt hphase
  · have hrank : r'.rank = 2 := by
      cases r' <;> first | rfl | cases hcommit
    cases hqueue : c.queue with
    | nil => simp [hqueue] at hhead
    | cons first rest =>
      have hsorted := h.sorted
      rw [hqueue] at hhead hr' hsorted
      obtain rfl := Option.some.inj hhead
      rcases List.mem_cons.mp hr' with rfl | hr'
      · omega
      · have := (List.pairwise_cons.mp hsorted).1 r' hr'
        omega

/-! ### Holds -/

/-- The hold that a message is about. -/
def Request.ref : Request → Option ℕ
  | hold ref | claim ref _ | release ref => some ref
  | _ => none

section

variable {s : Server} {objects : Objects} {holder monitor ref : ℕ} {request : Request}
  {fault : Option AdapterReason} {claimed : Option Bytes}

namespace Server

/-- Only messages about a hold change it. -/
theorem lookup_holds_answer_ne (h : request.ref ≠ some ref) :
    (s.answer objects holder monitor request fault).2.1.holds.lookup ref = s.holds.lookup ref := by
  have hne : ∀ ref', request.ref = some ref' → ref ≠ ref' := by
    rintro ref' href rfl
    exact h href
  rcases hanswer : s.answer objects holder monitor request fault with ⟨reply, s', objects'⟩
  cases called_of_answer hanswer with
  | pin => simp [addPin]
  | unpin => simp [removePin]
  | hold => simp [addHold, AList.lookup_insert_ne (hne _ rfl)]
  | claim => exact AList.lookup_insert_ne (hne _ rfl)
  | release ref' =>
    simp only [removeHold, holds_demonitorInactiveHolder]
    split
    · split
      · exact AList.lookup_erase_ne (hne _ rfl)
      · rfl
    · rfl
  | unread | reclaim | commit | uncommitted | refused => rfl

/-- A message other than `release` keeps a hold, and a claim may name its version. -/
theorem lookup_holds_answer (hrank : request.rank < 3) (h : s.holds.lookup ref = some (holder, claimed)) :
    ∃ named, (s.answer objects holder monitor request fault).2.1.holds.lookup ref = some (holder, named) ∧
      (named = claimed ∨ ∃ version, request = .claim ref version ∧ named = some version) := by
  by_cases href : request.ref = some ref
  · rcases hanswer : s.answer objects holder monitor request fault with ⟨reply, s', objects'⟩
    cases called_of_answer hanswer with
    | pin | unread | unpin | commit | uncommitted => cases href
    | release => exact absurd hrank (by simp [Request.rank])
    | hold hfree =>
      obtain rfl := Option.some.inj href
      cases h.symm.trans hfree
    | claim version =>
      obtain rfl := Option.some.inj href
      exact ⟨some version, AList.lookup_insert _, .inr ⟨version, rfl, rfl⟩⟩
    | reclaim | refused => exact ⟨claimed, h, .inl rfl⟩
  · exact ⟨claimed, (lookup_holds_answer_ne href).trans h, .inl rfl⟩

/-- A hold is there when it was accepted, -/
theorem lookup_holds_of_hold
    (h : (s.answer objects holder monitor (.hold ref) fault).1 = .ok) :
    (s.answer objects holder monitor (.hold ref) fault).2.1.holds.lookup ref = some (holder, none) := by
  rcases hanswer : s.answer objects holder monitor (.hold ref) fault with ⟨reply, s', objects'⟩
  rw [hanswer] at h
  cases called_of_answer hanswer with
  | hold => simp [addHold]
  | refused => cases h

/-- and so is a claim. -/
theorem lookup_holds_of_claim
    (h : (s.answer objects holder monitor (.claim ref version) fault).1 = .ok) :
    (s.answer objects holder monitor (.claim ref version) fault).2.1.holds.lookup ref =
      some (holder, some version) := by
  rcases hanswer : s.answer objects holder monitor (.claim ref version) fault with ⟨reply, s', objects'⟩
  rw [hanswer] at h
  cases called_of_answer hanswer with
  | claim => exact AList.lookup_insert _
  | reclaim hlookup => exact hlookup
  | refused => cases h

/-! ### Pins -/

/-- A process pins a version. -/
def PinnedBy (s : Server) (version : Bytes) (holder : ℕ) : Prop :=
  ∃ holders, s.pins.lookup version = some holders ∧ (holders.lookup holder).isSome

/-- What a process pins is pinned. -/
theorem PinnedBy.pins (h : s.PinnedBy version holder) : s.Pins version := by
  obtain ⟨holders, hlookup, -⟩ := h
  simp [Pins, hlookup]

variable {holder' : ℕ} {version' : Bytes}

/-- A pin is held by the process it was added for. -/
theorem pinnedBy_addPin_self : (s.addPin version holder monitor).PinnedBy version holder := by
  unfold PinnedBy Server.addPin
  rw [pins_monitorHolder]
  exact ⟨_, AList.lookup_insert _, by simp⟩

/-- Adding a pin removes none. -/
theorem PinnedBy.addPin (h : s.PinnedBy version holder) :
    (s.addPin version' holder' monitor).PinnedBy version holder := by
  obtain ⟨holders, hlookup, hholder⟩ := h
  unfold PinnedBy Server.addPin
  rw [pins_monitorHolder]
  by_cases hversion : version = version'
  · subst hversion
    refine ⟨_, AList.lookup_insert _, ?_⟩
    rw [hlookup, Option.getD_some]
    by_cases hsame : holder = holder'
    · subst hsame
      simp
    · rwa [AList.lookup_insert_ne hsame]
  · exact ⟨holders, (AList.lookup_insert_ne hversion).trans hlookup, hholder⟩

/-- Another process's `unpin` keeps a pin. -/
theorem PinnedBy.removePin (h : s.PinnedBy version holder) (hne : holder ≠ holder') :
    (s.removePin version' holder').PinnedBy version holder := by
  obtain ⟨holders, hlookup, hholder⟩ := h
  unfold PinnedBy Server.removePin
  rw [pins_demonitorInactiveHolder]
  dsimp only [pinsWithout]
  split
  · next found hfound =>
    split
    · next count hcount =>
      by_cases hversion : version = version'
      · subst hversion
        obtain rfl := Option.some.inj (hlookup.symm.trans hfound)
        have hkept : ((if count = 1 then holders.erase holder'
            else holders.insert holder' (count - 1)).lookup holder).isSome := by
          split
          · rwa [AList.lookup_erase_ne hne]
          · rwa [AList.lookup_insert_ne hne]
        rw [if_neg]
        · exact ⟨_, AList.lookup_insert _, hkept⟩
        · intro hempty
          have hnil := List.isEmpty_iff.mp hempty
          rw [AList.lookup, hnil] at hkept
          cases hkept
      · refine ⟨holders, ?_, hholder⟩
        generalize (if count = 1 then found.erase holder' else found.insert holder' (count - 1)) =
          remaining
        split
        · rwa [AList.lookup_erase_ne hversion]
        · rwa [AList.lookup_insert_ne hversion]
    · exact ⟨holders, hlookup, hholder⟩
  · exact ⟨holders, hlookup, hholder⟩

/-- A message of another process keeps a pin, and so does one other than `unpin`. -/
theorem PinnedBy.answer (h : s.PinnedBy version holder) (hkeeps : holder ≠ holder' ∨ request.rank < 3) :
    (s.answer objects holder' monitor request fault).2.1.PinnedBy version holder := by
  rcases hanswer : s.answer objects holder' monitor request fault with ⟨reply, s', objects'⟩
  cases called_of_answer hanswer with
  | pin => exact h.addPin
  | unpin version' =>
    refine h.removePin (hkeeps.resolve_right ?_)
    simp [Request.rank]
  | hold => simpa [PinnedBy, addHold] using h
  | release => rwa [PinnedBy, pins_removeHold]
  | unread | claim | reclaim | commit | uncommitted | refused => exact h

/-- A version that is given to a process is pinned by it. -/
theorem pinnedBy_of_reply {info : Meta}
    (h : (s.answer objects holder monitor request fault).1 = .pinned version info) :
    (s.answer objects holder monitor request fault).2.1.PinnedBy version holder := by
  rcases hanswer : s.answer objects holder monitor request fault with ⟨reply, s', objects'⟩
  rw [hanswer] at h
  cases called_of_answer hanswer with
  | pin =>
    cases h
    exact pinnedBy_addPin_self
  | _ => cases h

/-- The end of another process keeps a pin. -/
theorem PinnedBy.handleDown (h : s.PinnedBy version holder) (hne : holder ≠ holder') :
    (s.handleDown monitor holder').PinnedBy version holder := by
  by_cases hmonitor : s.monitors.lookup holder' = some monitor
  · obtain ⟨holders, hlookup, hholder⟩ := h
    have hkept : ((holders.erase holder').lookup holder).isSome := by
      rwa [AList.lookup_erase_ne hne]
    refine ⟨holders.erase holder', ?_, hkept⟩
    rw [lookup_pins_handleDown hmonitor, hlookup]
    dsimp only
    rw [if_neg]
    intro hempty
    have hnil := List.isEmpty_iff.mp hempty
    rw [AList.lookup, hnil] at hkept
    cases hkept
  · rwa [handleDown_of_stale hmonitor]

end Server

end

/-! ### Steps of a server that lives -/

private theorem Server.idle_of_hold {s : Server} {ref : ℕ} (h : s.holds.lookup ref ≠ none) : s.idle = false := by
  by_contra hidle
  simp only [Server.idle, Bool.not_eq_false, Bool.and_eq_true, List.isEmpty_iff] at hidle
  exact h (by rw [AList.lookup, hidle.2]; rfl)

private theorem Server.idle_of_pins {s : Server} (h : s.Pins version) : s.idle = false := by
  by_contra hidle
  simp only [Server.idle, Bool.not_eq_false, Bool.and_eq_true, List.isEmpty_iff] at hidle
  unfold Server.Pins at h
  rw [AList.lookup, hidle.1] at h
  cases h

section

variable {s : Server} (hstep : Step sha256 w move w') (hmove : move ≠ .crash) (hs : w.server = some s)
include hstep hmove hs

/-- A server that has a hold or a pin lives on. -/
theorem Step.server_lives (hbusy : s.idle = false) : ∃ s', w'.server = some s' ∧
    (s' = s ∨ (∃ (j : ℕ) (d : Client) (r : Request) (fault : Option AdapterReason),
        w.clients[j]? = some d ∧ d.queue.head? = some r ∧ move = .serve j fault ∧
        s' = (s.answer w.objects j w.nextMonitor r fault).2.1) ∨
      ∃ (j : ℕ) (d : Client) (monitor : ℕ), w.clients[j]? = some d ∧ d.Ended ∧ d.queue = [] ∧
        s' = s.handleDown monitor j) := by
  cases hstep with
  | start | task | version | sweep => exact ⟨s, hs, .inl rfl⟩
  | boot hnone =>
    rw [hnone] at hs
    cases hs
  | stop hstop hidle =>
    obtain ⟨found, hfound, hisidle⟩ := hidle (hstop.resolve_left hmove)
    obtain rfl := Option.some.inj (hs.symm.trans hfound)
    rw [hbusy] at hisidle
    cases hisidle
  | serve fault hs' hc hhead =>
    obtain rfl := Option.some.inj (hs.symm.trans hs')
    exact ⟨_, rfl, .inr (.inl ⟨_, _, _, fault, hc, hhead, rfl, rfl⟩)⟩
  | down monitor hs' hc hended hqueue =>
    obtain rfl := Option.some.inj (hs.symm.trans hs')
    exact ⟨_, rfl, .inr (.inr ⟨_, _, monitor, hc, hended, hqueue, rfl⟩)⟩

variable (hc : w.clients[i]? = some c) (hlive : ¬ c.Ended ∨ c.queue ≠ [])
  (hhead : ∀ r, c.queue.head? = some r → r.rank < 3)
include hc hlive hhead

/-- The hold of a task stays until its `release`. -/
theorem Step.lookup_holds (hqueued : ∀ (j : ℕ) (d : Client), w.clients[j]? = some d → Queued sha256 j d)
    {claimed : Option Bytes} (hhold : s.holds.lookup i = some (i, claimed)) :
    ∃ s' named, w'.server = some s' ∧ s'.holds.lookup i = some (i, named) ∧
      (named = claimed ∨ ∃ version, c.queue.head? = some (.claim i version) ∧ named = some version ∧
        ∃ fault, move = .serve i fault) := by
  obtain ⟨s', hs', rfl | ⟨j, d, r, fault, hd, hr, hserve, rfl⟩ | ⟨j, d, monitor, hd, hended, hempty, rfl⟩⟩ :=
    hstep.server_lives hmove hs (Server.idle_of_hold (by rw [hhold]; simp))
  · exact ⟨_, claimed, hs', hhold, .inl rfl⟩
  · by_cases hj : j = i
    · subst hj
      obtain rfl := Option.some.inj (hc.symm.trans hd)
      obtain ⟨named, hlookup, hsame | ⟨version, rfl, hnamed⟩⟩ :=
        Server.lookup_holds_answer (hhead r hr) hhold
      · exact ⟨_, named, hs', hlookup, .inl hsame⟩
      · exact ⟨_, named, hs', hlookup, .inr ⟨version, hr, hnamed, fault, hserve⟩⟩
    · refine ⟨_, claimed, hs', ?_, .inl rfl⟩
      rw [Server.lookup_holds_answer_ne]
      · exact hhold
      · have hsent := (hqueued j d hd).sent r (List.mem_of_mem_head? hr)
        intro href
        cases r with
        | pin | unpin | commit => cases href
        | hold ref | release ref =>
          exact hj (hsent.symm.trans (Option.some.inj href))
        | claim ref version => exact hj (hsent.1.symm.trans (Option.some.inj href))
  · have hj : i ≠ j := by
      rintro rfl
      obtain rfl := Option.some.inj (hc.symm.trans hd)
      exact hlive.elim (fun h ↦ h hended) fun h ↦ h hempty
    refine ⟨_, claimed, hs', ?_, .inl rfl⟩
    by_cases hmonitor : s.monitors.lookup j = some monitor
    · rw [Server.lookup_holds_handleDown hmonitor, hhold]
      simp [hj]
    · unfold Server.handleDown
      rw [if_neg hmonitor, hhold]

/-- The pin of a task stays until its `unpin`. -/
theorem Step.pinnedBy (hpin : s.PinnedBy version i) : ∃ s', w'.server = some s' ∧ s'.PinnedBy version i := by
  obtain ⟨s', hs', rfl | ⟨j, d, r, fault, hd, hr, -, rfl⟩ | ⟨j, d, monitor, hd, hended, hempty, rfl⟩⟩ :=
    hstep.server_lives hmove hs (Server.idle_of_pins hpin.pins)
  · exact ⟨_, hs', hpin⟩
  · refine ⟨_, hs', hpin.answer ?_⟩
    by_cases hj : i = j
    · subst hj
      obtain rfl := Option.some.inj (hc.symm.trans hd)
      exact .inr (hhead r hr)
    · exact .inl hj
  · refine ⟨_, hs', hpin.handleDown ?_⟩
    rintro rfl
    obtain rfl := Option.some.inj (hc.symm.trans hd)
    exact hlive.elim (fun h ↦ h hended) fun h ↦ h hempty

end

/-! ### Tasks that rely on the server -/

/-- A task whose hold was accepted, before its claim was. -/
def Client.Holds (c : Client) : Prop :=
  c.phase = .creating ∨ c.phase = .claiming ∨ (∃ n, c.phase = .holding n) ∧ c.wait = .answered .ok

/-- A task whose claim was accepted, before its commit was handled. -/
def Client.Claims (c : Client) : Prop :=
  c.phase.claimed ∨ c.phase = .claiming ∧ c.wait = .answered .ok ∨ ∃ r ∈ c.queue, r.isCommit

/-- A task whose pin was accepted, before it read the version. -/
def Client.Reads (c : Client) (version : Bytes) : Prop :=
  c.phase = .reading ∧ (∃ info, c.pinned = some (version, info)) ∨
    (∃ n, c.phase = .pinning n) ∧ ∃ info, c.wait = .answered (.pinned version info)

private theorem resume_holds {reply : Reply} (h : (c.resume sha256 reply).Holds) :
    c.phase = .creating ∨ c.phase = .claiming ∨ (∃ n, c.phase = .holding n) ∧ reply = .ok := by
  rcases h with hphase | hphase | ⟨-, hwait⟩
  · revert hphase
    show c.next sha256 reply = .creating → _
    unfold Client.next
    split
    case h_10 => split <;> simp_all
    all_goals simp_all
  · revert hphase
    show c.next sha256 reply = .claiming → _
    unfold Client.next
    split
    case h_10 => split <;> simp_all
    all_goals simp_all
  · cases hwait

private theorem resume_claims {reply : Reply} (h : (c.resume sha256 reply).Claims) :
    c.phase.claimed ∨ c.phase = .claiming ∧ reply = .ok ∨ ∃ r ∈ c.queue, r.isCommit := by
  rcases h with hphase | ⟨-, hwait⟩ | hqueue
  · revert hphase
    show (c.next sha256 reply).claimed → _
    unfold Client.next
    split
    case h_10 => split <;> simp_all [Phase.claimed]
    all_goals simp_all [Phase.claimed]
  · cases hwait
  · exact .inr (.inr hqueue)

namespace Change

variable (hq : Queued sha256 i c) (h : Change sha256 w w' i move c c')
include hq h

/-- A task holds because the server accepts its hold in this step, or it held before. -/
theorem holds (hholds : c'.Holds) : c.Holds ∨
    ∃ s fault, w.server = some s ∧ c.queue.head? = some (.hold i) ∧ move = .serve i fault ∧
      (s.answer w.objects i w.nextMonitor (.hold i) fault).1 = .ok := by
  cases h with
  | none => exact .inl hholds
  | disconnect =>
    left
    rcases hholds with hphase | hphase | ⟨-, hwait⟩
    · exact .inl hphase
    · exact .inr (.inl hphase)
    · unfold Client.disconnect at hwait
      dsimp only at hwait
      split at hwait <;> cases hwait
  | ownDir hown =>
    left
    cases hown with
    | create hphase => exact .inl hphase
    | write chunk hphase => simp [Client.Holds, hphase] at hholds
    | openData | writeMeta | discard => simp [Client.Holds] at hholds
  | @served s r fault hs hhead hserve =>
    rcases hholds with hphase | hphase | ⟨⟨n, hphase⟩, hwait⟩
    · exact .inl (.inl hphase)
    · exact .inl (.inr (.inl hphase))
    · have hphase' : c.phase = .holding n := hphase
      by_cases hlast : c.wait = .waiting ∧ c.queue.tail = []
      · have hr := hq.request_of_last hlast hhead
        simp only [Client.request, hphase', Option.some.injEq] at hr
        subst hr
        refine .inr ⟨s, fault, hs, hhead, hserve, ?_⟩
        simpa only [Client.served, hlast, and_self, if_true, Wait.answered.injEq] using hwait
      · have hold : c.wait = .answered .ok := by
          simpa only [Client.served, hlast, if_false] using hwait
        exact .inl (.inr (.inr ⟨⟨n, hphase'⟩, hold⟩))
  | task hlocal =>
    left
    cases hlocal with
    | send | refused =>
      rcases hholds with hphase | hphase | ⟨-, hwait⟩
      · exact .inl hphase
      · exact .inr (.inl hphase)
      · cases hwait
    | receive hreply =>
      rcases resume_holds hholds with hphase | hphase | ⟨hphase, rfl⟩
      · exact .inl hphase
      · exact .inr (.inl hphase)
      · exact .inr (.inr ⟨hphase, hreply⟩)
    | expire =>
      rcases resume_holds hholds with hphase | hphase | ⟨-, hreply⟩
      · exact .inl hphase
      · exact .inr (.inl hphase)
      · cases hreply
    | openFailed | writeMetaFailed | readFailed | kill => simp [Client.Holds] at hholds
    | read =>
      unfold Client.copied at hholds
      split at hholds <;> simp [Client.Holds] at hholds
    | fail fault hfail =>
      unfold Client.fail at hfail
      split at hfail <;> cases hfail <;> simp [Client.Holds] at hholds

/-- A task claims because the server accepts its claim in this step, or it claimed before. -/
theorem claims (hclaims : c'.Claims) : c.Claims ∨
    ∃ s version fault, w.server = some s ∧ c.version = some version ∧
      c.queue.head? = some (.claim i version) ∧ move = .serve i fault ∧
      (s.answer w.objects i w.nextMonitor (.claim i version) fault).1 = .ok := by
  cases h with
  | none => exact .inl hclaims
  | disconnect =>
    left
    rcases hclaims with hphase | ⟨-, hwait⟩ | ⟨r, hr, -⟩
    · exact .inl hphase
    · unfold Client.disconnect at hwait
      dsimp only at hwait
      split at hwait <;> cases hwait
    · cases hr
  | ownDir hown =>
    left
    cases hown with
    | create hphase =>
      have hidle := hq.quiet (by simp [Client.request, hphase])
      rcases hclaims with hclaimed | ⟨-, hwait⟩ | hqueue
      · cases hclaimed
      · simp [hidle] at hwait
      · exact .inr (.inr hqueue)
    | openData hphase | write chunk hphase | writeMeta hphase =>
      exact .inl (by simp [hphase, Phase.claimed])
    | discard removal hphase =>
      rcases hclaims with hclaimed | ⟨hclaiming, -⟩ | hqueue
      · cases hclaimed
      · cases hclaiming
      · exact .inr (.inr hqueue)
  | @served s r fault hs hhead hserve =>
    rcases hclaims with hphase | ⟨hphase, hwait⟩ | ⟨r', hr', hcommit⟩
    · exact .inl (.inl hphase)
    · have hphase' : c.phase = .claiming := hphase
      by_cases hlast : c.wait = .waiting ∧ c.queue.tail = []
      · have hr := hq.request_of_last hlast hhead
        simp only [Client.request, hphase', Option.map_eq_some_iff] at hr
        obtain ⟨version, hversion, rfl⟩ := hr
        refine .inr ⟨s, version, fault, hs, hversion, hhead, hserve, ?_⟩
        simpa only [Client.served, hlast, and_self, if_true, Wait.answered.injEq] using hwait
      · have hold : c.wait = .answered .ok := by
          simpa only [Client.served, hlast, if_false] using hwait
        exact .inl (.inr (.inl ⟨hphase', hold⟩))
    · exact .inl (.inr (.inr ⟨r', List.mem_of_mem_tail hr', hcommit⟩))
  | task hlocal =>
    left
    cases hlocal with
    | send hr hidle =>
      rcases hclaims with hphase | ⟨-, hwait⟩ | ⟨r', hr', hcommit⟩
      · exact .inl hphase
      · cases hwait
      · rcases List.mem_append.mp hr' with hr' | hr'
        · exact .inr (.inr ⟨r', hr', hcommit⟩)
        · obtain rfl := List.mem_singleton.mp hr'
          exact .inl (by simp [(sent_request hq hr).2.1 hcommit, Phase.claimed])
    | refused =>
      rcases hclaims with hphase | ⟨-, hwait⟩ | hqueue
      · exact .inl hphase
      · cases hwait
      · exact .inr (.inr hqueue)
    | receive hreply =>
      rcases resume_claims hclaims with hphase | ⟨hphase, rfl⟩ | hqueue
      · exact .inl hphase
      · exact .inr (.inl ⟨hphase, hreply⟩)
      · exact .inr (.inr hqueue)
    | expire =>
      rcases resume_claims hclaims with hphase | ⟨-, hreply⟩ | hqueue
      · exact .inl hphase
      · cases hreply
      · exact .inr (.inr hqueue)
    | openFailed | writeMetaFailed | readFailed | kill =>
      rcases hclaims with hphase | ⟨hphase, -⟩ | hqueue
      · cases hphase
      · cases hphase
      · exact .inr (.inr hqueue)
    | read =>
      unfold Client.copied at hclaims
      split at hclaims
      all_goals
        rcases hclaims with hphase | ⟨hphase, -⟩ | hqueue
        · cases hphase
        · cases hphase
        · exact .inr (.inr hqueue)
    | fail fault hfail =>
      unfold Client.fail at hfail
      split at hfail <;> cases hfail
      all_goals
        rcases hclaims with hphase | ⟨hphase, -⟩ | hqueue
        · cases hphase
        · cases hphase
        · exact .inr (.inr hqueue)

/-- A task reads because the server answers its pin in this step, or it read before. -/
theorem reads (hreads : c'.Reads version) : c.Reads version ∨
    ∃ s r fault info, w.server = some s ∧ c.queue.head? = some r ∧ move = .serve i fault ∧
      (s.answer w.objects i w.nextMonitor r fault).1 = .pinned version info := by
  have hquiet : ∀ reply, c.wait = .answered reply → c.phase ≠ .reading := by
    intro reply hwait hphase
    have := hq.quiet (by simp [Client.request, hphase])
    rw [hwait] at this
    cases this
  cases h with
  | none => exact .inl hreads
  | disconnect =>
    left
    rcases hreads with hreading | ⟨-, info, hwait⟩
    · exact .inl hreading
    · unfold Client.disconnect at hwait
      dsimp only at hwait
      split at hwait <;> cases hwait
  | ownDir hown =>
    cases hown with
    | write chunk hphase => simp [Client.Reads, hphase] at hreads
    | create | openData | writeMeta | discard => simp [Client.Reads] at hreads
  | @served s r fault hs hhead hserve =>
    rcases hreads with hreading | ⟨hphase, info, hwait⟩
    · exact .inl (.inl hreading)
    · by_cases hlast : c.wait = .waiting ∧ c.queue.tail = []
      · refine .inr ⟨s, r, fault, info, hs, hhead, hserve, ?_⟩
        simpa only [Client.served, hlast, and_self, if_true, Wait.answered.injEq] using hwait
      · have hold : c.wait = .answered (.pinned version info) := by
          simpa only [Client.served, hlast, if_false] using hwait
        exact .inl (.inr ⟨hphase, info, hold⟩)
  | task hlocal =>
    left
    cases hlocal with
    | send | refused =>
      rcases hreads with hreading | ⟨-, info, hwait⟩
      · exact .inl hreading
      · cases hwait
    | @receive _ reply hreply =>
      rcases hreads with ⟨hphase, info, hpinned⟩ | ⟨-, info, hwait⟩
      · rcases next_reading hphase with hold | ⟨version', info', rfl⟩
        · exact absurd hold (hquiet _ hreply)
        · cases hpinned
          refine .inr ⟨?_, info, hreply⟩
          revert hphase
          show c.next sha256 (.pinned version info) = .reading → _
          have hnot := hquiet _ hreply
          unfold Client.next
          cases hphase : c.phase <;> simp_all
      · cases hwait
    | expire hrequest =>
      rcases hreads with ⟨hphase, info, hpinned⟩ | ⟨-, info, hwait⟩
      · rcases next_reading hphase with hold | ⟨version', info', hreply⟩
        · simp [Client.request, hold] at hrequest
        · cases hreply
      · cases hwait
    | openFailed | writeMetaFailed | readFailed | kill => simp [Client.Reads] at hreads
    | read =>
      unfold Client.copied at hreads
      split at hreads <;> simp [Client.Reads] at hreads
    | fail fault hfail =>
      unfold Client.fail at hfail
      split at hfail <;> cases hfail <;> simp [Client.Reads] at hreads

end Change

end Gitility.LocalStore
