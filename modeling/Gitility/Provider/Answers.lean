import Gitility.Base.Progress
import Gitility.Provider.Delivery

/-!
# Every request is answered at most once, and none is stranded

What a run has shown of a call agrees with the place of its sender. When the provider is down, the
table keeps only senders whose callers are at their own liveness check, and in a fair run every
caller comes to its end.
-/

namespace Gitility.Provider

variable {Payload : Type}

namespace Event

/-- A message reaches call `r`. -/
def isDelivered (r : ℕ) : Event Payload → Bool
  | .delivered call _ _ => call = r
  | _ => false

/-- The call an event is about. -/
def call : Event Payload → ℕ
  | .taken call _ | .cancelled call | .delivered call _ _ | .ended call _ => call

/-- The events after which a reply no longer finds call `r`. -/
def Closes (r : ℕ) : Event Payload → Prop
  | .taken call _ | .cancelled call | .delivered call _ _ => call = r
  | .ended .. => False

private theorem Silent.not_closes {r : ℕ} {event : Option (Event Payload)} (h : Silent r event)
    {e : Event Payload} (he : e ∈ event.toList) : ¬e.Closes r := by
  obtain rfl : event = some e := by simpa using he
  cases e with
  | taken call id =>
    rintro rfl
    exact (h id none (.error (.new .timeout ""))).1 rfl
  | cancelled call =>
    rintro rfl
    exact (h 0 none (.error (.new .timeout ""))).2.1 rfl
  | delivered call named message =>
    rintro rfl
    exact (h 0 named message).2.2 rfl
  | ended call message => exact id

private theorem not_isDelivered {r : ℕ} {e : Event Payload} (h : ¬e.Closes r) : e.isDelivered r = false := by
  cases e <;> simp_all [Closes, isDelivered]

private theorem Closes.call {r : ℕ} {e : Event Payload} (h : e.Closes r) : e.call = r := by
  cases e <;> simp_all [Closes, Event.call]

private theorem call_of_isDelivered {r : ℕ} {e : Event Payload} (h : e.isDelivered r = true) :
    e.call = r := by
  cases e <;> simp_all [isDelivered, Event.call]

end Event

/-- What a trace says of call `r`, whose sender is at `loc`. -/
structure Recorded (trace : List (Event Payload)) (r : ℕ) (request : Request Payload) (loc : Loc) :
    Prop where
  once : trace.countP (Event.isDelivered r) ≤ if loc = .gone then 1 else 0
  opened : loc = .fresh ∨ loc = .listed → ∀ e ∈ trace, ¬e.Closes r
  named : ∀ id message, .delivered r (some id) message ∈ trace → id = request.id
  buffered : ∀ message, request.buffer = some message → ∃ named, .delivered r named message ∈ trace
  returned : ∀ message, request.result = some message →
    (∃ error, message = .error error) ∨ ∃ named, .delivered r named message ∈ trace

namespace Recorded

variable {trace : List (Event Payload)} {r t : ℕ} {request request' : Request Payload}
  {loc loc' : Loc} {event : Option (Event Payload)}

/-- An event that delivers nothing to the call. -/
theorem quiet (h : Recorded trace r request loc) (hid : request'.id = request.id)
    (hquiet : ∀ e ∈ event.toList, e.isDelivered r = false) (hgone : loc = .gone → loc' = .gone)
    (hopened : loc' = .fresh ∨ loc' = .listed →
      (loc = .fresh ∨ loc = .listed) ∧ ∀ e ∈ event.toList, ¬e.Closes r)
    (hbuffer : ∀ message, request'.buffer = some message → request.buffer = some message)
    (hresult : ∀ message, request'.result = some message →
      request.result = some message ∨ request.buffer = some message ∨
        ∃ error, message = .error error) : Recorded (trace ++ event.toList) r request' loc' where
  once := by
    have hzero : event.toList.countP (Event.isDelivered r) = 0 := by
      rw [List.countP_eq_zero]
      intro e he
      rw [hquiet e he]
      exact Bool.false_ne_true
    rw [List.countP_append, hzero, Nat.add_zero]
    refine h.once.trans ?_
    split
    · next hloc => rw [if_pos (hgone hloc)]
    · exact Nat.zero_le _
  opened hloc e he := by
    obtain ⟨hopen, hnew⟩ := hopened hloc
    rcases List.mem_append.mp he with hold | he
    · exact h.opened hopen e hold
    · exact hnew e he
  named id message hmem := by
    rw [hid]
    rcases List.mem_append.mp hmem with hold | hmem
    · exact h.named id message hold
    · have := hquiet _ hmem
      simp [Event.isDelivered] at this
  buffered message hm := by
    obtain ⟨named, hmem⟩ := h.buffered message (hbuffer message hm)
    exact ⟨named, List.mem_append_left _ hmem⟩
  returned message hm := by
    rcases hresult message hm with hold | hbuf | herror
    · rcases h.returned message hold with herror | ⟨named, hmem⟩
      · exact .inl herror
      · exact .inr ⟨named, List.mem_append_left _ hmem⟩
    · obtain ⟨named, hmem⟩ := h.buffered message hbuf
      exact .inr ⟨named, List.mem_append_left _ hmem⟩
    · exact .inl herror

private theorem shift (h : Recorded trace r request loc)
    (hs : Shift r t event request loc request' loc') :
    Recorded (trace ++ event.toList) r request' loc' := by
  cases hs with
  | keep hevent =>
    have hnot (e : Event Payload) (he : e ∈ event.toList) := hevent.not_closes he
    exact h.quiet rfl (fun e he ↦ Event.not_isDelivered (hnot e he)) id (fun hloc ↦ ⟨hloc, hnot⟩)
      (fun _ ↦ id) (fun _ ↦ .inl)
  | insert =>
    exact h.quiet rfl (by simp) nofun (by simp) (fun _ ↦ id) (fun _ ↦ .inl)
  | drain =>
    exact h.quiet rfl (by simp) nofun (by simp) (fun _ ↦ id) (fun _ ↦ .inl)
  | drop hevent =>
    exact h.quiet rfl (fun e he ↦ Event.not_isDelivered (hevent.not_closes he)) nofun (by simp)
      (fun _ ↦ id) (fun _ ↦ .inl)
  | take =>
    exact h.quiet rfl (by simp [Event.isDelivered]) nofun (by simp) (fun _ ↦ id) (fun _ ↦ .inl)
  | @send request named message hnamed =>
    constructor
    · have hzero := h.once
      rw [if_neg nofun] at hzero
      rw [List.countP_append, if_pos rfl]
      simp only [Option.toList_some, List.countP_singleton, Event.isDelivered, decide_true, if_true]
      omega
    · simp
    · intro id message' hmem
      rcases List.mem_append.mp hmem with hold | hmem
      · exact h.named id message' hold
      · obtain ⟨-, hn, -⟩ : r = r ∧ some id = named ∧ message' = message := by simpa using hmem
        exact hnamed id hn.symm
    · intro message' hm
      cases hm
      exact ⟨named, List.mem_append_right _ (by simp)⟩
    · intro message' hm
      rcases h.returned message' hm with herror | ⟨named', hmem⟩
      · exact .inl herror
      · exact .inr ⟨named', List.mem_append_left _ hmem⟩
  | receive hbuffer =>
    refine h.quiet rfl (by simp [Event.isDelivered]) id (by simp) (by simp) (fun message hm ↦ ?_)
    cases hm
    exact .inr (.inl hbuffer)
  | cancel sender hloc hgone =>
    refine h.quiet rfl (by simp [Event.isDelivered]) hgone (fun hopen ↦ ?_) (fun _ ↦ id)
      (fun message hm ↦ ?_)
    · exact (hopen.elim hloc.1 hloc.2).elim
    · cases hm
      exact .inr (.inr ⟨_, rfl⟩)

end Recorded

/-- What a thread may have before it: one action, or senders to use and the end of `fail_all`. -/
def Agenda (agenda : List (Act Payload)) : Prop :=
  (∃ a, agenda = [a]) ∨ ∀ b ∈ agenda, b.IsLater

namespace Agenda

variable {a : Act Payload} {rest : List (Act Payload)}

private theorem later (h : Agenda (a :: rest)) : ∀ b ∈ rest, b.IsLater := by
  rcases h with ⟨b, hb⟩ | h
  · rw [(List.cons.inj hb).2]
    exact fun _ h ↦ absurd h List.not_mem_nil
  · exact fun b hb ↦ h b (List.mem_cons_of_mem _ hb)

private theorem alone (h : Agenda (a :: rest)) (ha : ¬a.IsLater) : rest = [] := by
  rcases h with ⟨b, hb⟩ | h
  · exact (List.cons.inj hb).2
  · exact absurd (h a List.mem_cons_self) ha

end Agenda

namespace Shared

variable {downError : Error} {s s' : Shared Payload} {failure : Option Error} {a : Act Payload}
  {rest todo : List (Act Payload)} {event : Option (Event Payload)}

@[simp] private theorem length_modify (s : Shared Payload) (call : ℕ)
    (f : Request Payload → Request Payload) :
    (s.modify call f).requests.length = s.requests.length := List.length_modify _ _ _

@[simp] private theorem pending_modify (s : Shared Payload) (call : ℕ)
    (f : Request Payload → Request Payload) : (s.modify call f).pending = s.pending := rfl

@[simp] private theorem length_dropSender (s : Shared Payload) (id : ℕ) :
    (s.dropSender id).requests.length = s.requests.length := by
  unfold dropSender
  split
  · rfl
  · exact length_modify ..

@[simp] private theorem length_giveUp (s : Shared Payload) (call id : ℕ) (error : Error) :
    (s.giveUp call id error).requests.length = s.requests.length := by
  rw [giveUp, length_modify]
  exact length_dropSender s id

@[simp] private theorem alive_dropSender (s : Shared Payload) (id : ℕ) :
    (s.dropSender id).alive = s.alive := by
  unfold dropSender
  split <;> rfl

@[simp] private theorem down_dropSender (s : Shared Payload) (id : ℕ) : (s.dropSender id).down = s.down := by
  unfold dropSender
  split <;> rfl

@[simp] private theorem alive_giveUp (s : Shared Payload) (call id : ℕ) (error : Error) :
    (s.giveUp call id error).alive = s.alive := alive_dropSender s id

@[simp] private theorem down_giveUp (s : Shared Payload) (call id : ℕ) (error : Error) :
    (s.giveUp call id error).down = s.down := down_dropSender s id

/-- Peels an action that reads its own call first. -/
theorem exec_own {call : ℕ} {f : Request Payload → Option (Shared Payload × List (Act Payload) ×
      Option (Event Payload))}
    (h : (s.requests[call]?).bind f = some (s', todo, event)) :
    ∃ own, s.requests[call]? = some own ∧ f own = some (s', todo, event) :=
  Option.bind_eq_some_iff.mp h

private theorem exec_agenda (h : s.exec downError failure a = some (s', todo, event))
    (hagenda : Agenda (a :: rest)) : Agenda (todo ++ rest) := by
  have hlater := hagenda.later
  have hnil (hnot : ¬a.IsLater) (b : Act Payload) : Agenda ([b] ++ rest) := by
    rw [hagenda.alone hnot]
    exact .inl ⟨b, rfl⟩
  cases a with
  | fetchId | skipId | storeDead | finish =>
    cases h
    first | exact hnil id _ | exact .inr hlater
  | ensureAlive call =>
    simp only [exec] at h
    split at h <;> cases h <;> exact hnil id _
  | request call | check call =>
    cases failure <;> cases h <;> exact hnil id _
  | insert call =>
    obtain ⟨own, -, h⟩ := exec_own h
    cases h
    exact hnil id _
  | receive call =>
    obtain ⟨own, -, h⟩ := exec_own h
    split at h
    · cases h
      exact .inr hlater
    · split at h <;> cases h <;> exact hnil id _
  | cancel call error | abandon call =>
    obtain ⟨own, -, h⟩ := exec_own h
    cases h
    exact .inr hlater
  | reply id message =>
    simp only [exec] at h
    split at h <;> cases h
    · exact .inr hlater
    · exact hnil (fun h ↦ h) _
  | send call named message =>
    obtain ⟨own, -, h⟩ := exec_own h
    split at h <;> cases h
    exact .inr hlater
  | drain error =>
    cases h
    rw [hagenda.alone fun h ↦ h, List.append_nil]
    refine .inr fun b hb ↦ ?_
    rcases List.mem_append.mp hb with hb | hb
    · obtain ⟨entry, -, rfl⟩ := List.mem_map.mp hb
      trivial
    · obtain rfl := List.mem_singleton.mp hb
      trivial

/-- The table lists each identifier once, and the table, an agenda and an event name calls that
exist. -/
structure Bounds (s : Shared Payload) (agenda : List (Act Payload)) (event : Option (Event Payload)) :
    Prop where
  keys : (s.pending.map Prod.fst).Nodup
  entries : ∀ entry ∈ s.pending, entry.2 < s.requests.length
  agenda : ∀ b ∈ agenda, ∀ r ∈ b.about, r < s.requests.length
  event : ∀ e ∈ event.toList, e.call < s.requests.length

private theorem exec_bounds (h : s.exec downError failure a = some (s', todo, event))
    (hb : Bounds s [a] none) :
    s.requests.length ≤ s'.requests.length ∧ Bounds s' todo event := by
  obtain ⟨hkeys, hentries, ha, -⟩ := hb
  have ha := ha a List.mem_cons_self
  cases a with
  | fetchId =>
    cases h
    have hlength : (s.requests ++ [(⟨s.nextId, true, none, none⟩ : Request Payload)]).length =
        s.requests.length + 1 := by simp
    refine ⟨by simp, hkeys, fun entry hentry ↦ ?_, ?_, by simp⟩
    · have := hentries entry hentry
      simp only [hlength]
      omega
    · simp [Act.about]
  | skipId | storeDead | finish =>
    cases h
    exact ⟨le_refl _, hkeys, hentries, by simp [Act.about], by simp⟩
  | ensureAlive call =>
    simp only [exec] at h
    split at h <;> cases h <;>
      exact ⟨le_refl _, hkeys, hentries, by simpa [Act.about] using ha, by simp⟩
  | request call | check call =>
    cases failure <;> cases h <;>
      exact ⟨le_refl _, hkeys, hentries, by simpa [Act.about] using ha, by simp⟩
  | insert call =>
    obtain ⟨own, hown, h⟩ := exec_own h
    cases h
    refine ⟨by simp, PendingTable.nodup_insert hkeys, fun entry hentry ↦ ?_, ?_, by simp⟩
    · show entry.2 < (s.dropSender own.id).requests.length
      rw [length_dropSender]
      rcases PendingTable.mem_insert.mp hentry with rfl | hentry
      · exact ha call rfl
      · exact hentries entry (PendingTable.mem_remove.mp hentry).1
    · simpa [Act.about] using ha
  | receive call =>
    obtain ⟨own, hown, h⟩ := exec_own h
    split at h
    · cases h
      refine ⟨by simp, hkeys, ?_, by simp, ?_⟩
      · simpa using hentries
      · simpa [Event.call, Act.about] using ha
    · split at h <;> cases h <;>
        exact ⟨le_refl _, hkeys, hentries, by simpa [Act.about] using ha, by simp⟩
  | cancel call error | abandon call =>
    obtain ⟨own, hown, h⟩ := exec_own h
    cases h
    refine ⟨by simp, PendingTable.nodup_remove hkeys, fun entry hentry ↦ ?_, by simp, ?_⟩
    · rw [length_giveUp]
      exact hentries entry (PendingTable.mem_remove.mp hentry).1
    · simpa [Event.call, Act.about] using ha
  | reply id message =>
    simp only [exec] at h
    cases hget : s.pending.get id with
    | none =>
      rw [hget] at h
      cases h
      exact ⟨le_refl _, hkeys, hentries, by simp, by simp⟩
    | some call =>
      rw [hget] at h
      cases h
      have hcall := hentries _ ((PendingTable.get_eq_some hkeys).mp hget)
      refine ⟨le_refl _, PendingTable.nodup_remove hkeys, fun entry hentry ↦ ?_, ?_, ?_⟩
      · exact hentries entry (PendingTable.mem_remove.mp hentry).1
      · simpa [Act.about] using hcall
      · simpa [Event.call] using hcall
  | send call named message =>
    obtain ⟨own, hown, h⟩ := exec_own h
    split at h <;> cases h
    refine ⟨by simp, hkeys, ?_, by simp, ?_⟩
    · simpa using hentries
    · simpa [Event.call, Act.about] using ha
  | drain error =>
    cases h
    refine ⟨le_refl _, List.nodup_nil, by simp, fun b hb r hr ↦ ?_, by simp⟩
    rcases List.mem_append.mp hb with hb | hb
    · obtain ⟨entry, hentry, rfl⟩ := List.mem_map.mp hb
      cases hr
      exact hentries entry hentry
    · obtain rfl := List.mem_singleton.mp hb
      cases hr

/-- What an action does to the two flags. -/
theorem exec_flags (h : s.exec downError failure a = some (s', todo, event)) :
    (s'.alive = false ↔ s.alive = false ∨ ∃ error, a = .storeDead error) ∧
      (s'.down = true ↔ s.down = true ∨ a = .finish) := by
  cases a with
  | fetchId | skipId | finish | drain | storeDead =>
    cases h
    simp
  | ensureAlive call =>
    simp only [exec] at h
    split at h <;> cases h <;> simp
  | request call | check call =>
    cases failure <;> cases h <;> simp
  | insert call | cancel call error | abandon call =>
    obtain ⟨own, hown, h⟩ := exec_own h
    cases h
    simp
  | receive call =>
    obtain ⟨own, hown, h⟩ := exec_own h
    split at h
    · cases h
      simp [modify]
    · split at h <;> cases h <;> simp
  | reply id message =>
    simp only [exec] at h
    split at h <;> cases h <;> simp
  | send call named message =>
    obtain ⟨own, hown, h⟩ := exec_own h
    split at h <;> cases h
    simp [modify]

/-- Only a new `send_and_wait` adds a call. -/
theorem exec_length (h : s.exec downError failure a = some (s', todo, event)) :
    a = .fetchId ∨ s'.requests.length = s.requests.length := by
  cases a with
  | fetchId => exact .inl rfl
  | skipId | finish | drain | storeDead =>
    cases h
    exact .inr rfl
  | ensureAlive call =>
    simp only [exec] at h
    split at h <;> cases h <;> exact .inr rfl
  | request call | check call =>
    cases failure <;> cases h <;> exact .inr rfl
  | insert call | cancel call error | abandon call =>
    obtain ⟨own, hown, h⟩ := exec_own h
    cases h
    exact .inr (by simp)
  | receive call =>
    obtain ⟨own, hown, h⟩ := exec_own h
    split at h
    · cases h
      exact .inr (length_modify ..)
    · split at h <;> cases h <;> exact .inr rfl
  | reply id message =>
    simp only [exec] at h
    split at h <;> cases h <;> exact .inr rfl
  | send call named message =>
    obtain ⟨own, hown, h⟩ := exec_own h
    split at h <;> cases h
    exact .inr (length_modify ..)

/-- Where the steps of `fail_all` and the entries of the table come from. -/
theorem exec_origin (h : s.exec downError failure a = some (s', todo, event)) :
    (∀ error, .drain error ∈ todo → a = .storeDead error) ∧
      (.finish ∈ todo → (∃ error, a = .drain error) ∧ s'.pending = []) ∧
        ∀ entry ∈ s'.pending,
          entry ∈ s.pending ∨ a = .insert entry.2 ∧ todo = [.ensureAlive entry.2] := by
  cases a with
  | fetchId | skipId | finish | drain | storeDead =>
    cases h
    simp_all
  | ensureAlive call =>
    simp only [exec] at h
    split at h <;> cases h <;> simp_all
  | request call | check call =>
    cases failure <;> cases h <;> simp_all
  | insert call =>
    obtain ⟨own, hown, h⟩ := exec_own h
    cases h
    refine ⟨by simp, by simp, fun entry hentry ↦ ?_⟩
    rcases PendingTable.mem_insert.mp hentry with rfl | hentry
    · exact .inr ⟨rfl, rfl⟩
    · exact .inl (PendingTable.mem_remove.mp hentry).1
  | cancel call error | abandon call =>
    obtain ⟨own, hown, h⟩ := exec_own h
    cases h
    refine ⟨by simp, by simp, fun entry hentry ↦ ?_⟩
    exact .inl (PendingTable.mem_remove.mp hentry).1
  | receive call =>
    obtain ⟨own, hown, h⟩ := exec_own h
    split at h
    · cases h
      simp_all
    · split at h <;> cases h <;> simp_all
  | reply id message =>
    simp only [exec] at h
    split at h <;> cases h
    · simp_all
    · refine ⟨by simp, by simp, fun entry hentry ↦ ?_⟩
      exact .inl (PendingTable.mem_remove.mp hentry).1
  | send call named message =>
    obtain ⟨own, hown, h⟩ := exec_own h
    split at h <;> cases h
    simp_all

end Shared

/-- An idle thread starts a call. -/
theorem Kept.call {threads : ℕ → List (Act Payload)} {table : PendingTable} {r t : ℕ}
    {request : Request Payload} {owner : ℕ} {loc : Loc} (call : Call Payload)
    (h : Kept threads table r request owner loc) (ht : threads t = []) :
    Kept (Function.update threads t [call.act]) table r request owner loc := by
  have hhead (u : ℕ) : HeadOwns r (Function.update threads t [call.act] u) ↔
      HeadOwns r (threads u) := by
    by_cases hu : u = t
    · subst u
      rw [Function.update_self, ht]
      cases call <;> exact Iff.rfl
    · rw [Function.update_of_ne hu]
  have hinsert (u : ℕ) : (Function.update threads t [call.act] u).head? = some (.insert r) ↔
      (threads u).head? = some (.insert r) := by
    by_cases hu : u = t
    · subst u
      rw [Function.update_self, ht]
      cases call <;> simp [Call.act]
    · rw [Function.update_of_ne hu]
  constructor
  · exact fun u hu ↦ h.owned u ((hhead u).mp hu)
  · exact (hhead owner).trans h.waits
  · exact h.fresh.trans (hinsert owner).symm
  · exact h.listed
  · intro u
    rw [← h.held u]
    by_cases hu : u = t
    · subst u
      rw [Function.update_self, ht]
      cases call <;> rfl
    · rw [Function.update_of_ne hu]
  · intro u id message hmem
    by_cases hu : u = t
    · subst u
      rw [Function.update_self, List.mem_singleton] at hmem
      cases call <;> cases hmem
    · rw [Function.update_of_ne hu] at hmem
      exact h.names u id message hmem
  · exact h.sender
  · exact h.buffer

namespace System

/-- The owner of call `r` is at its own liveness check. -/
def Checking (s : System Payload) (r : ℕ) : Prop :=
  ∃ t, (s.threads t).head? = some (.ensureAlive r) ∨ (s.threads t).head? = some (.abandon r)

/-- Some thread has taken everything out of the table after it stored that the provider is dead. -/
def Drained (s : System Payload) : Prop :=
  s.shared.down = true ∨ ∃ t, .finish ∈ s.threads t

/-- The invariant of all runs. -/
structure Inv (trace : List (Event Payload)) (s : System Payload) : Prop where
  agendas : ∀ t, Agenda (s.threads t)
  bounds : ∀ t, Shared.Bounds s.shared (s.threads t) none
  traced : ∀ e ∈ trace, e.call < s.shared.requests.length
  calls : ∀ r request, s.shared.requests[r]? = some request →
    ∃ owner loc, Kept s.threads s.shared.pending r request owner loc ∧ Recorded trace r request loc
  dying : s.shared.alive = false →
    s.Drained ∨ ∃ t error, (s.threads t).head? = some (.drain error)
  draining : ∀ t error, (s.threads t).head? = some (.drain error) → s.shared.alive = false
  drained : s.Drained →
    s.shared.alive = false ∧ ∀ entry ∈ s.shared.pending, s.Checking entry.2

private theorem inv_init : Inv [] (init : System Payload) where
  agendas _ := .inr fun _ h ↦ absurd h List.not_mem_nil
  bounds _ := ⟨List.nodup_nil, fun _ h ↦ absurd h List.not_mem_nil,
    fun _ h ↦ absurd h List.not_mem_nil, fun _ h ↦ absurd h List.not_mem_nil⟩
  traced _ h := absurd h List.not_mem_nil
  calls r request h := by simp [init] at h
  dying h := by simp [init] at h
  draining t error h := by simp [init] at h
  drained h := by simp [init, Drained] at h

section Act

variable {downError : Error} {trace : List (Event Payload)} {s : System Payload} {t : ℕ}
  {a : Act Payload} {rest todo : List (Act Payload)} {failure : Option Error}
  {shared : Shared Payload} {event : Option (Event Payload)}

/-- An entry of the table belongs to the call it names. -/
theorem Inv.entry_id (h : Inv trace s) {id r : ℕ} {request : Request Payload}
    (hentry : (id, r) ∈ s.shared.pending) (hr : s.shared.requests[r]? = some request) :
    id = request.id := by
  obtain ⟨owner, loc, hk, -⟩ := h.calls r request hr
  exact ((hk.listed id).mp hentry).2

private theorem Drained.act (h : s.Drained) (ht : s.threads t = a :: rest)
    (he : s.shared.exec downError failure a = some (shared, todo, event)) :
    Drained ⟨shared, Function.update s.threads t (todo ++ rest)⟩ := by
  rcases h with h | ⟨u, hu⟩
  · exact .inl ((Shared.exec_flags he).2.mpr (.inl h))
  · by_cases hut : u = t
    · subst u
      rw [ht, List.mem_cons] at hu
      rcases hu with hu | hu
      · exact .inl ((Shared.exec_flags he).2.mpr (.inr hu.symm))
      · refine .inr ⟨t, ?_⟩
        simp only [Function.update_self]
        exact List.mem_append_right _ hu
    · refine .inr ⟨u, ?_⟩
      simp only [Function.update_of_ne hut]
      exact hu

/-- A thread that is drained after an action was so before, or has just taken the entries. -/
theorem Drained.of_act (h : Drained ⟨shared, Function.update s.threads t (todo ++ rest)⟩)
    (ht : s.threads t = a :: rest)
    (he : s.shared.exec downError failure a = some (shared, todo, event)) :
    s.Drained ∨ (∃ error, a = .drain error) ∧ shared.pending = [] := by
  rcases h with h | ⟨u, hu⟩
  · rcases (Shared.exec_flags he).2.mp h with h | rfl
    · exact .inl (.inl h)
    · exact .inl (.inr ⟨t, by rw [ht]; exact List.mem_cons_self⟩)
  · by_cases hut : u = t
    · subst u
      simp only [Function.update_self] at hu
      rcases List.mem_append.mp hu with hu | hu
      · exact .inr ((Shared.exec_origin he).2.1 hu)
      · exact .inl (.inr ⟨t, by rw [ht]; exact List.mem_cons_of_mem _ hu⟩)
    · simp only [Function.update_of_ne hut] at hu
      exact .inl (.inr ⟨u, hu⟩)

/-- The owner of an entry that stays in the table does not leave its liveness check. -/
theorem Inv.checking (h : Inv trace s) (ht : s.threads t = a :: rest)
    (he : s.shared.exec downError failure a = some (shared, todo, event))
    (halive : s.shared.alive = false) {entry : ℕ × ℕ} (hold : entry ∈ s.shared.pending)
    (hentry : entry ∈ shared.pending) (hc : s.Checking entry.2) :
    Checking ⟨shared, Function.update s.threads t (todo ++ rest)⟩ entry.2 := by
  obtain ⟨u, hu⟩ := hc
  refine ⟨u, ?_⟩
  by_cases hut : u = t
  · subst u
    simp only [Function.update_self]
    rw [ht] at hu
    rcases hu with hu | hu
    · obtain rfl := Option.some.inj hu
      rw [Shared.exec, if_neg (by rw [halive]; exact Bool.false_ne_true)] at he
      cases he
      exact .inr rfl
    · obtain rfl := Option.some.inj hu
      obtain ⟨own, hown, he⟩ := Shared.exec_own he
      cases he
      exact absurd (h.entry_id hold hown) (PendingTable.mem_remove.mp hentry).2
  · simp only [Function.update_of_ne hut]
    exact hu

/-- A new call belongs to the thread that makes it. -/
theorem Inv.fetchId (h : Inv trace s) (ht : s.threads t = .fetchId :: rest) {id : ℕ} :
    Kept (Function.update s.threads t ([.insert s.shared.requests.length] ++ rest)) s.shared.pending
      s.shared.requests.length (⟨id, true, none, none⟩ : Request Payload) t .fresh ∧
    Recorded trace s.shared.requests.length (⟨id, true, none, none⟩ : Request Payload) .fresh := by
  have hnot (u : ℕ) (b : Act Payload) (hb : b ∈ s.threads u) :
      b.about ≠ some s.shared.requests.length := fun habout ↦
    lt_irrefl _ ((h.bounds u).agenda b hb _ habout)
  have hmem (u : ℕ) (b : Act Payload)
      (hb : b ∈ Function.update s.threads t ([.insert s.shared.requests.length] ++ rest) u) :
      b = .insert s.shared.requests.length ∧ u = t ∨ b.about ≠ some s.shared.requests.length := by
    by_cases hut : u = t
    · subst u
      rw [Function.update_self] at hb
      rcases List.mem_cons.mp hb with hb | hb
      · exact .inl ⟨hb, rfl⟩
      · exact .inr (hnot t b (by rw [ht]; exact List.mem_cons_of_mem _ hb))
    · rw [Function.update_of_ne hut] at hb
      exact .inr (hnot u b hb)
  constructor
  · constructor
    · intro u hu
      by_contra hut
      rw [Function.update_of_ne hut] at hu
      cases hthread : s.threads u with
      | nil =>
        rw [hthread] at hu
        exact hu
      | cons b bs =>
        rw [hthread] at hu
        exact hnot u b (by rw [hthread]; exact List.mem_cons_self) hu.about
    · rw [Function.update_self]
      exact iff_of_true rfl rfl
    · rw [Function.update_self]
      exact iff_of_true rfl rfl
    · intro id'
      refine iff_of_false (fun hentry ↦ ?_) nofun
      exact lt_irrefl _ ((h.bounds t).entries _ hentry)
    · intro u
      rw [if_neg nofun, List.countP_eq_zero]
      intro b hb hsend
      rcases hmem u b hb with ⟨rfl, -⟩ | hne
      · cases hsend
      · exact hne (Act.about_of_isSend hsend)
    · intro u id' message hb
      rcases hmem u _ hb with ⟨heq, -⟩ | hne
      · cases heq
      · exact absurd rfl hne
    · exact iff_of_true rfl nofun
    · exact fun _ ↦ rfl
  · have hclosed (e : Event Payload) (he : e ∈ trace) : e.call ≠ s.shared.requests.length :=
      ne_of_lt (h.traced e he)
    constructor
    · rw [if_neg nofun, Nat.le_zero, List.countP_eq_zero]
      intro e he hdel
      exact hclosed e he (Event.call_of_isDelivered hdel)
    · exact fun _ e he hcloses ↦ hclosed e he hcloses.call
    · exact fun id' message he ↦ absurd rfl (hclosed _ he)
    · exact fun message hm ↦ by cases hm
    · exact fun message hm ↦ by cases hm

/-- One action. -/
theorem Inv.act (h : Inv trace s) (ht : s.threads t = a :: rest)
    (he : s.shared.exec downError failure a = some (shared, todo, event)) :
    Inv (trace ++ event.toList) ⟨shared, Function.update s.threads t (todo ++ rest)⟩ := by
  have hagenda : Agenda (a :: rest) := by
    rw [← ht]
    exact h.agendas t
  have hbt := h.bounds t
  rw [ht] at hbt
  obtain ⟨hle, hb⟩ := Shared.exec_bounds he
    ⟨hbt.keys, hbt.entries, fun b hb ↦ hbt.agenda b (by simp_all), hbt.event⟩
  have halive := (Shared.exec_flags he).1
  have horigin := Shared.exec_origin he
  constructor
  · intro u
    by_cases hut : u = t
    · subst u
      simp only [Function.update_self]
      exact Shared.exec_agenda he hagenda
    · simp only [Function.update_of_ne hut]
      exact h.agendas u
  · refine fun u ↦ ⟨hb.keys, hb.entries, fun b hmem r hr ↦ ?_, by simp⟩
    have hold (hmem : b ∈ s.threads u) : r < shared.requests.length :=
      ((h.bounds u).agenda b hmem r hr).trans_le hle
    by_cases hut : u = t
    · subst u
      simp only [Function.update_self, List.mem_append] at hmem
      rcases hmem with hmem | hmem
      · exact hb.agenda b hmem r hr
      · exact hold (by rw [ht]; exact List.mem_cons_of_mem _ hmem)
    · simp only [Function.update_of_ne hut] at hmem
      exact hold hmem
  · intro e hmem
    rcases List.mem_append.mp hmem with hmem | hmem
    · exact (h.traced e hmem).trans_le hle
    · exact hb.event e hmem
  · intro r request hr
    cases hr' : s.shared.requests[r]? with
    | some old =>
      obtain ⟨owner, loc, hk, hrec⟩ := h.calls r old hr'
      obtain ⟨request', loc', hget, hshift, hk'⟩ :=
        Shared.exec_kept he hbt.keys ht hagenda.later hr' hk
      obtain rfl := Option.some.inj (hr.symm.trans hget)
      exact ⟨owner, loc', hk', hrec.shift hshift⟩
    | none =>
      have hlt := (List.getElem?_eq_some_iff.mp hr).1
      have hge := List.getElem?_eq_none_iff.mp hr'
      rcases Shared.exec_length he with rfl | hlength
      · cases he
        simp only [List.length_append, List.length_singleton] at hlt
        obtain rfl : r = s.shared.requests.length := by omega
        simp only [List.getElem?_concat_length, Option.some.injEq] at hr
        subst hr
        simp only [Option.toList_none, List.append_nil]
        exact ⟨t, .fresh, h.fetchId ht⟩
      · simp only at hlt
        omega
  · intro hdead
    rcases halive.mp hdead with hold | ⟨error, rfl⟩
    · rcases h.dying hold with hd | ⟨u, error, hu⟩
      · exact .inl (hd.act ht he)
      · by_cases hut : u = t
        · subst u
          rw [ht] at hu
          obtain rfl := Option.some.inj hu
          cases he
          refine .inl (.inr ⟨t, ?_⟩)
          simp
        · refine .inr ⟨u, error, ?_⟩
          simp only [Function.update_of_ne hut]
          exact hu
    · cases he
      refine .inr ⟨t, error, ?_⟩
      simp
  · intro u error hu
    by_cases hut : u = t
    · subst u
      simp only [Function.update_self] at hu
      have hmem := List.mem_of_mem_head? (Option.mem_def.mpr hu)
      rcases List.mem_append.mp hmem with hmem | hmem
      · exact halive.mpr (.inr ⟨error, horigin.1 error hmem⟩)
      · exact (hagenda.later _ hmem).elim
    · simp only [Function.update_of_ne hut] at hu
      exact halive.mpr (.inl (h.draining u error hu))
  · intro hd
    rcases hd.of_act ht he with hold | ⟨⟨error, rfl⟩, hnil⟩
    · obtain ⟨hdead, hchecking⟩ := h.drained hold
      refine ⟨halive.mpr (.inl hdead), fun entry hentry ↦ ?_⟩
      rcases horigin.2.2 entry hentry with hmem | ⟨rfl, rfl⟩
      · exact h.checking ht he hdead hmem hentry (hchecking entry hmem)
      · refine ⟨t, .inl ?_⟩
        simp
    · refine ⟨halive.mpr (.inl (h.draining t error ?_)), fun entry hentry ↦ ?_⟩
      · rw [ht]
        rfl
      · simp only [hnil] at hentry
        exact absurd hentry List.not_mem_nil

end Act

variable {downError : Error} {trace : List (Event Payload)} {s s' : System Payload}

/-- An idle thread starts a call. -/
theorem Inv.call (h : Inv trace s) {t : ℕ} (call : Call Payload) (ht : s.threads t = []) :
    Inv trace { s with threads := Function.update s.threads t [call.act] } := by
  have hbusy {u : ℕ} {a : Act Payload} (hu : a ∈ s.threads u) : u ≠ t := by
    rintro rfl
    rw [ht] at hu
    exact absurd hu List.not_mem_nil
  have hhead {u : ℕ} {a : Act Payload} (hu : (s.threads u).head? = some a) :
      (Function.update s.threads t [call.act] u).head? = some a := by
    rw [Function.update_of_ne (hbusy (List.mem_of_mem_head? (Option.mem_def.mpr hu)))]
    exact hu
  -- The first action of a call is none of those that the invariant speaks of.
  have hold {u : ℕ} {a : Act Payload} (hu : a ∈ Function.update s.threads t [call.act] u) :
      a ∈ s.threads u ∨ a = call.act := by
    by_cases hut : u = t
    · subst u
      rw [Function.update_self, List.mem_singleton] at hu
      exact .inr hu
    · rw [Function.update_of_ne hut] at hu
      exact .inl hu
  have hdrained (hd : Drained { s with threads := Function.update s.threads t [call.act] }) :
      s.Drained := by
    rcases hd with hd | ⟨u, hu⟩
    · exact .inl hd
    · rcases hold hu with hu | hu
      · exact .inr ⟨u, hu⟩
      · cases call <;> cases hu
  constructor
  · intro u
    by_cases hut : u = t
    · subst u
      simp only [Function.update_self]
      exact .inl ⟨_, rfl⟩
    · simp only [Function.update_of_ne hut]
      exact h.agendas u
  · refine fun u ↦ ⟨(h.bounds u).keys, (h.bounds u).entries, fun b hb r hr ↦ ?_, by simp⟩
    rcases hold hb with hb | rfl
    · exact (h.bounds u).agenda b hb r hr
    · cases call <;> cases hr
  · exact h.traced
  · intro r request hr
    obtain ⟨owner, loc, hk, hrec⟩ := h.calls r request hr
    exact ⟨owner, loc, hk.call call ht, hrec⟩
  · intro hdead
    rcases h.dying hdead with (hd | ⟨u, hu⟩) | ⟨u, error, hu⟩
    · exact .inl (.inl hd)
    · refine .inl (.inr ⟨u, ?_⟩)
      simp only [Function.update_of_ne (hbusy hu)]
      exact hu
    · exact .inr ⟨u, error, hhead hu⟩
  · intro u error hu
    rcases hold (List.mem_of_mem_head? (Option.mem_def.mpr hu)) with hmem | heq
    · simp only [Function.update_of_ne (hbusy hmem)] at hu
      exact h.draining u error hu
    · cases call <;> cases heq
  · intro hd
    obtain ⟨hdead, hchecking⟩ := h.drained (hdrained hd)
    refine ⟨hdead, fun entry hentry ↦ ?_⟩
    obtain ⟨u, hu⟩ := hchecking entry hentry
    exact ⟨u, hu.imp hhead hhead⟩

/-- A move takes an action, starts a call or does nothing. -/
theorem step_cases {move : Move Payload} {event : Option (Event Payload)}
    (h : s.step downError move = some (s', event)) :
    (∃ t failure a rest shared todo, move = .act t failure ∧ s.threads t = a :: rest ∧
      s.shared.exec downError failure a = some (shared, todo, event) ∧
      s' = ⟨shared, Function.update s.threads t (todo ++ rest)⟩) ∨
    (∃ t call, move = .call t call ∧ s.threads t = [] ∧ event = none ∧
      s' = { s with threads := Function.update s.threads t [call.act] }) ∨
    (move = .pause ∧ event = none ∧ s' = s) := by
  cases move with
  | act t failure =>
    simp only [step] at h
    split at h
    · cases h
    · next a rest ht =>
      simp only [Option.bind_eq_bind, Option.bind_eq_some_iff] at h
      obtain ⟨⟨shared, todo, event'⟩, he, heq⟩ := h
      cases heq
      exact .inl ⟨t, failure, a, rest, shared, todo, rfl, ht, he, rfl⟩
  | call t call =>
    simp only [step] at h
    split at h
    · next ht =>
      cases h
      exact .inr (.inl ⟨t, call, rfl, ht, rfl, rfl⟩)
    · cases h
  | pause =>
    cases h
    exact .inr (.inr ⟨rfl, rfl, rfl⟩)

private theorem Reachable.inv (h : Reachable downError trace s) : Inv trace s := by
  induction h with
  | init => exact inv_init
  | step _ hs ih =>
    rcases step_cases hs with ⟨t, failure, a, rest, shared, todo, -, ht, he, rfl⟩ |
      ⟨t, call, -, ht, rfl, rfl⟩ | ⟨-, rfl, rfl⟩
    · exact ih.act ht he
    · simpa using ih.call call ht
    · simpa using ih

/-- No thread ever has to wait for another one. -/
theorem Inv.enabled (h : Inv trace s) {t : ℕ} (hbusy : s.threads t ≠ []) (failure : Option Error) :
    ∃ s' event, s.step downError (.act t failure) = some (s', event) := by
  obtain ⟨a, rest, ht⟩ := List.exists_cons_of_ne_nil hbusy
  have hget {r : ℕ} (hr : a.about = some r) : ∃ request, s.shared.requests[r]? = some request := by
    have hlt := (h.bounds t).agenda a (by rw [ht]; exact List.mem_cons_self) r hr
    exact ⟨_, List.getElem?_eq_getElem hlt⟩
  have hexec : ∃ x, s.shared.exec downError failure a = some x := by
    cases a with
    | fetchId | skipId | storeDead | drain | finish => exact ⟨_, rfl⟩
    | ensureAlive call =>
      simp only [Shared.exec]
      split <;> exact ⟨_, rfl⟩
    | request call | check call => cases failure <;> exact ⟨_, rfl⟩
    | insert call | cancel call error | abandon call =>
      obtain ⟨own, hown⟩ := hget rfl
      exact ⟨_, by rw [Shared.exec, hown]; rfl⟩
    | receive call =>
      obtain ⟨own, hown⟩ := hget rfl
      simp only [Shared.exec, hown, Option.bind_eq_bind, Option.bind_some]
      split
      · exact ⟨_, rfl⟩
      · split <;> exact ⟨_, rfl⟩
    | reply id message =>
      simp only [Shared.exec]
      split <;> exact ⟨_, rfl⟩
    | send call named message =>
      obtain ⟨own, hown⟩ := hget rfl
      obtain ⟨owner, loc, hk, -⟩ := h.calls call own hown
      have hheld : loc = .held t := by
        have hcount := hk.held t
        rw [ht, List.countP_cons] at hcount
        by_contra hne
        simp [hne, Act.isSend] at hcount
      have hnone := hk.buffer (by rw [hheld]; simp)
      exact ⟨_, by simp only [Shared.exec, hown, Option.bind_eq_bind, Option.bind_some, hnone]; rfl⟩
  obtain ⟨⟨shared, todo, event⟩, he⟩ := hexec
  refine ⟨⟨shared, Function.update s.threads t (todo ++ rest)⟩, event, ?_⟩
  simp only [step, ht, he]
  rfl

/-- The system as it moves on, without its events. -/
def next (downError : Error) (s : System Payload) (move : Move Payload) : Option (System Payload) :=
  (s.step downError move).map Prod.fst

/-- A run in which every thread that has something to do does it at some time. -/
abbrev Fair (Payload : Type) (downError : Error) :=
  FairRun (fun s : System Payload ↦ s.next downError) Move.mover fun t s ↦ s.threads t = []

/-- Call `r` has returned. -/
def Ended (r : ℕ) (s : System Payload) : Prop :=
  ∃ request message, s.shared.requests[r]? = some request ∧ request.result = some message

end System

namespace Act

variable {r : ℕ} {a : Act Payload}

/-- The actions in which a caller waits for an answer. -/
def Waits : Act Payload → Prop
  | .request _ | .check _ | .receive _ => True
  | _ => False

/-- How many actions a caller is from its end, when nothing holds it up. -/
def left : Act Payload → ℕ
  | .insert _ => 6
  | .ensureAlive _ => 5
  | .request _ => 4
  | .check _ => 3
  | .receive _ => 2
  | .cancel .. | .abandon _ => 1
  | _ => 0

end Act

/-- When the provider is dead and a waiting caller's sender is gone, an action of the caller brings
it nearer to its end. -/
theorem Shared.exec_left {downError : Error} {s s' : Shared Payload} {failure : Option Error}
    {a : Act Payload} {todo : List (Act Payload)} {event : Option (Event Payload)} {r : ℕ}
    {request : Request Payload} (h : s.exec downError failure a = some (s', todo, event))
    (hr : s.requests[r]? = some request) (ha : a.Owns r) (halive : s.alive = false)
    (hgone : a.Waits → request.sender = false) :
    (∃ request' message, s'.requests[r]? = some request' ∧ request'.result = some message) ∨
      ∃ b, todo = [b] ∧ b.Owns r ∧ b.left < a.left ∧ (b.Waits → s'.requests[r]? = some request ∧
        request.sender = false) := by
  cases a with
  | fetchId | skipId | storeDead | drain | finish | reply | send => exact ha.elim
  | insert call =>
    obtain ⟨own, hown, h⟩ := exec_own h
    cases h
    exact .inr ⟨_, rfl, ha, by simp [Act.left], fun h ↦ h.elim⟩
  | ensureAlive call =>
    rw [exec, if_neg (by rw [halive]; exact Bool.false_ne_true)] at h
    cases h
    exact .inr ⟨_, rfl, ha, by simp [Act.left], fun h ↦ h.elim⟩
  | request call | check call =>
    cases failure <;> cases h
    · exact .inr ⟨_, rfl, ha, by simp [Act.left], fun _ ↦ ⟨hr, hgone trivial⟩⟩
    · exact .inr ⟨_, rfl, ha, by simp [Act.left], fun h ↦ h.elim⟩
  | receive call =>
    obtain rfl : call = r := ha
    obtain ⟨own, hown, h⟩ := exec_own h
    obtain rfl := Option.some.inj (hown.symm.trans hr)
    split at h
    · cases h
      left
      rw [getElem?_modify, hr, Option.map_some, if_pos rfl]
      exact ⟨_, _, rfl, rfl⟩
    · rw [if_neg (by rw [hgone trivial]; exact Bool.false_ne_true)] at h
      cases h
      exact .inr ⟨_, rfl, rfl, by simp [Act.left], fun h ↦ h.elim⟩
  | cancel call error | abandon call =>
    obtain rfl : call = r := ha
    obtain ⟨own, hown, h⟩ := exec_own h
    cases h
    left
    rw [getElem?_giveUp, hr, Option.map_some]
    simp only [if_true]
    exact ⟨_, _, rfl, rfl⟩

namespace System

variable {downError : Error} {trace : List (Event Payload)} {s s' : System Payload}

private theorem next_cases {move : Move Payload} (h : s.next downError move = some s') :
    ∃ event, s.step downError move = some (s', event) := by
  obtain ⟨⟨s₁, event⟩, hs, rfl⟩ := Option.map_eq_some_iff.mp h
  exact ⟨event, hs⟩

/-- A sender that is gone does not come back. -/
theorem Inv.gone (h : Inv trace s) {move : Move Payload} {event : Option (Event Payload)}
    (hs : s.step downError move = some (s', event)) {r : ℕ} {request : Request Payload}
    (hr : s.shared.requests[r]? = some request) :
    ∃ request', s'.shared.requests[r]? = some request' ∧
      (request.sender = false → request'.sender = false) := by
  rcases step_cases hs with ⟨t, failure, a, rest, shared, todo, -, ht, he, rfl⟩ |
    ⟨t, call, -, ht, rfl, rfl⟩ | ⟨-, rfl, rfl⟩
  · have hagenda : Agenda (a :: rest) := by
      rw [← ht]
      exact h.agendas t
    obtain ⟨owner, loc, hk, -⟩ := h.calls r request hr
    obtain ⟨request', loc', hget, hshift, hk'⟩ :=
      Shared.exec_kept he (h.bounds t).keys ht hagenda.later hr hk
    refine ⟨request', hget, fun hsender ↦ ?_⟩
    have hloc : loc = .gone := by
      by_contra hne
      rw [hk.sender.mpr hne] at hsender
      cases hsender
    have hloc' : loc' = .gone := by
      subst hloc
      cases hshift with
      | keep | receive => rfl
      | cancel _ _ hgone => exact hgone rfl
    by_contra hne
    exact hk'.sender.mp (by simpa using hne) hloc'
  · exact ⟨request, hr, id⟩
  · exact ⟨request, hr, id⟩

private theorem dead_step {move : Move Payload} {event : Option (Event Payload)}
    (hs : s.step downError move = some (s', event)) (h : s.shared.alive = false) :
    s'.shared.alive = false := by
  rcases step_cases hs with ⟨t, failure, a, rest, shared, todo, -, ht, he, rfl⟩ |
    ⟨t, call, -, ht, rfl, rfl⟩ | ⟨-, rfl, rfl⟩
  · exact (Shared.exec_flags he).1.mpr (.inl h)
  · exact h
  · exact h

/-- The next action of the owner `t` of call `r` is not held up by anything. -/
def Ready (t r : ℕ) (s : System Payload) : Prop :=
  ∃ a rest request, s.threads t = a :: rest ∧ a.Owns r ∧ s.shared.requests[r]? = some request ∧
    s.shared.alive = false ∧ (a.Waits → request.sender = false)

/-- How many actions thread `t` is from the end of its call. -/
def left (t : ℕ) (s : System Payload) : ℕ :=
  match s.threads t with
  | [] => 0
  | a :: _ => a.left

/-- A thread keeps its agenda while others move. -/
theorem step_frame {move : Move Payload} {event : Option (Event Payload)}
    (hs : s.step downError move = some (s', event)) {t : ℕ} (ht : s.threads t ≠ [])
    (hmove : move.mover ≠ some t) : s'.threads t = s.threads t := by
  rcases step_cases hs with ⟨u, failure, a, rest, shared, todo, rfl, hu, he, rfl⟩ |
    ⟨u, call, rfl, hu, rfl, rfl⟩ | ⟨rfl, rfl, rfl⟩
  · exact Function.update_of_ne (fun heq ↦ hmove (by rw [heq]; rfl)) _ _
  · refine Function.update_of_ne (fun heq ↦ ht ?_) _ _
    rw [heq]
    exact hu
  · rfl

private theorem Ready.step (h : Reachable downError trace s) {t r : ℕ} (hready : Ready t r s)
    {move : Move Payload} (hn : s.next downError move = some s') :
    Ended r s' ∨ Ready t r s' ∧ left t s' ≤ left t s ∧
      (move.mover = some t → left t s' < left t s) := by
  obtain ⟨event, hs⟩ := next_cases hn
  obtain ⟨a, rest, request, ht, ha, hr, halive, hgone⟩ := hready
  have halive' := dead_step hs halive
  by_cases hmove : move.mover = some t
  · rcases step_cases hs with ⟨u, failure, b, rest', shared, todo, rfl, hu, he, rfl⟩ |
      ⟨u, call, rfl, hu, rfl, rfl⟩ | ⟨rfl, rfl, rfl⟩
    · obtain rfl := Option.some.inj hmove
      obtain ⟨rfl, rfl⟩ := List.cons.inj (ht.symm.trans hu)
      rcases Shared.exec_left he hr ha halive hgone with hend | ⟨b, rfl, hb, hless, hwaits⟩
      · exact .inl hend
      · have hthreads : Function.update s.threads u ([b] ++ rest) u = b :: rest :=
          Function.update_self ..
        have hlt : left u ⟨shared, Function.update s.threads u ([b] ++ rest)⟩ < left u s := by
          simp only [left, hthreads, ht]
          exact hless
        refine .inr ⟨?_, hlt.le, fun _ ↦ hlt⟩
        obtain ⟨request', hr', -⟩ := h.inv.gone hs hr
        refine ⟨b, rest, request', hthreads, hb, hr', halive', fun hw ↦ ?_⟩
        obtain ⟨hsame, hsender⟩ := hwaits hw
        rw [Option.some.inj (hr'.symm.trans hsame)]
        exact hsender
    · cases hmove
    · cases hmove
  · have hframe := step_frame hs (by rw [ht]; exact List.cons_ne_nil _ _) hmove
    obtain ⟨request', hr', hsender⟩ := h.inv.gone hs hr
    refine .inr ⟨⟨a, rest, request', hframe.trans ht, ha, hr', halive', fun hw ↦ ?_⟩, ?_, ?_⟩
    · exact hsender (hgone hw)
    · simp only [left, hframe, le_refl]
    · exact fun h ↦ absurd h hmove

/-- The end of an action that waited behind others leads to the next one. -/
theorem exec_later {shared shared' : Shared Payload} {a : Act Payload} {todo : List (Act Payload)}
    {failure : Option Error} {event : Option (Event Payload)} (ha : a.IsLater)
    (h : shared.exec downError failure a = some (shared', todo, event)) : todo = [] := by
  cases a with
  | send call named message =>
    obtain ⟨own, -, h⟩ := Shared.exec_own h
    split at h <;> cases h
    rfl
  | finish =>
    cases h
    rfl
  | _ => exact ha.elim

/-- Thread `u` holds the sender of call `r`. -/
def Holds (u r : ℕ) (s : System Payload) : Prop :=
  ∃ b ∈ s.threads u, b.isSend r = true

/-- The sender of call `r` is gone. -/
def Gone (r : ℕ) (s : System Payload) : Prop :=
  ∃ request, s.shared.requests[r]? = some request ∧ request.sender = false

private theorem Holds.step (h : Reachable downError trace s) {u r : ℕ} (hholds : Holds u r s)
    {move : Move Payload} (hn : s.next downError move = some s') :
    Gone r s' ∨ Holds u r s' ∧
      (s'.threads u).findIdx (Act.isSend r) ≤ (s.threads u).findIdx (Act.isSend r) ∧
      (move.mover = some u →
        (s'.threads u).findIdx (Act.isSend r) < (s.threads u).findIdx (Act.isSend r)) := by
  obtain ⟨event, hs⟩ := next_cases hn
  obtain ⟨b, hb, hsend⟩ := hholds
  by_cases hmove : move.mover = some u
  · rcases step_cases hs with ⟨t, failure, a, rest, shared, todo, rfl, ht, he, rfl⟩ |
      ⟨t, call, rfl, ht, rfl, rfl⟩ | ⟨rfl, rfl, rfl⟩
    · obtain rfl := Option.some.inj hmove
      have hagenda : Agenda (a :: rest) := by
        rw [← ht]
        exact h.inv.agendas t
      rw [ht, List.mem_cons] at hb
      cases ha : a.isSend r with
      | true =>
        left
        cases a with
        | send call named message =>
          obtain rfl : call = r := by simpa [Act.isSend] using ha
          obtain ⟨own, hown, he⟩ := Shared.exec_own he
          split at he <;> cases he
          refine ⟨{ own with buffer := some message, sender := false }, ?_, rfl⟩
          simp only [Shared.getElem?_modify, hown, Option.map_some, if_true]
        | _ => cases ha
      | false =>
        have hrest : b ∈ rest := by
          rcases hb with rfl | hb
          · rw [hsend] at ha
            cases ha
          · exact hb
        have hlater : a.IsLater := by
          by_contra hnot
          rw [hagenda.alone hnot] at hrest
          exact absurd hrest List.not_mem_nil
        obtain rfl := exec_later hlater he
        have hthreads : Function.update s.threads t ([] ++ rest) t = rest := Function.update_self ..
        have hidx : (s.threads t).findIdx (Act.isSend r) = rest.findIdx (Act.isSend r) + 1 := by
          rw [ht, List.findIdx_cons, ha]
          rfl
        refine .inr ⟨⟨b, ?_, hsend⟩, ?_, fun _ ↦ ?_⟩
        · simp only [hthreads]
          exact hrest
        · simp only [hthreads, hidx]
          omega
        · simp only [hthreads, hidx]
          omega
    · cases hmove
    · cases hmove
  · have hframe := step_frame hs (List.ne_nil_of_mem hb) hmove
    refine .inr ⟨⟨b, by rw [hframe]; exact hb, hsend⟩, by rw [hframe], fun h ↦ absurd h hmove⟩

section Fair

variable (run : Fair Payload downError) {n r : ℕ}

private theorem Reachable.always (h : Reachable downError trace (run.state n)) {m : ℕ} (hm : n ≤ m) :
    ∃ trace', Reachable downError trace' (run.state m) := by
  refine run.always (P := fun s ↦ ∃ trace, Reachable downError trace s) ?_ ⟨trace, h⟩ hm
  rintro s move s' ⟨trace, h⟩ hn
  obtain ⟨event, hs⟩ := next_cases hn
  exact ⟨_, h.step hs⟩

private theorem dead_always (h : (run.state n).shared.alive = false) {m : ℕ} (hm : n ≤ m) :
    (run.state m).shared.alive = false := by
  refine run.always (P := fun s ↦ s.shared.alive = false) (fun s move s' h hn ↦ ?_) h hm
  obtain ⟨event, hs⟩ := next_cases hn
  exact dead_step hs h

/-- Whoever holds a sender uses it. -/
theorem Holds.gone (h : Reachable downError trace (run.state n)) {u : ℕ}
    (hholds : Holds u r (run.state n)) : ∃ m, n ≤ m ∧ Gone r (run.state m) := by
  refine run.reaches u (P := fun s ↦ (∃ trace, Reachable downError trace s) ∧ Holds u r s)
    (fun s ↦ (s.threads u).findIdx (Act.isSend r)) ?_ ?_ ⟨⟨trace, h⟩, hholds⟩
  · rintro s ⟨-, b, hb, -⟩ hidle
    rw [hidle] at hb
    exact absurd hb List.not_mem_nil
  · rintro s move s' ⟨⟨trace, h⟩, hholds⟩ hn
    obtain ⟨event, hs⟩ := next_cases hn
    rcases hholds.step h hn with hgone | ⟨hholds, hrank⟩
    · exact .inl hgone
    · exact .inr ⟨⟨⟨_, h.step hs⟩, hholds⟩, hrank⟩

/-- A caller that nothing holds up comes to its end. -/
theorem Ready.ended (h : Reachable downError trace (run.state n)) {t : ℕ}
    (hready : Ready t r (run.state n)) : ∃ m, n ≤ m ∧ Ended r (run.state m) := by
  refine run.reaches t (P := fun s ↦ (∃ trace, Reachable downError trace s) ∧ Ready t r s) (left t)
    ?_ ?_ ⟨⟨trace, h⟩, hready⟩
  · rintro s ⟨-, a, rest, request, ht, -⟩ hidle
    rw [hidle] at ht
    cases ht
  · rintro s move s' ⟨⟨trace, h⟩, hready⟩ hn
    obtain ⟨event, hs⟩ := next_cases hn
    rcases hready.step h hn with hend | ⟨hready, hrank⟩
    · exact .inl hend
    · exact .inr ⟨⟨⟨_, h.step hs⟩, hready⟩, hrank⟩

/-- A thread that has stored that the provider is dead empties the table. -/
theorem drains (h : Reachable downError trace (run.state n))
    (hdead : (run.state n).shared.alive = false) : ∃ m, n ≤ m ∧ (run.state m).Drained := by
  rcases h.inv.dying hdead with hd | ⟨u, error, hu⟩
  · exact ⟨n, le_refl n, hd⟩
  · refine run.reaches u (P := fun s ↦ (∃ trace, Reachable downError trace s) ∧
      (s.threads u).head? = some (.drain error)) (fun _ ↦ 0) ?_ ?_ ⟨⟨trace, h⟩, hu⟩
    · rintro s ⟨-, hu⟩ hidle
      rw [hidle] at hu
      cases hu
    · rintro s move s' ⟨⟨trace, h⟩, hu⟩ hn
      obtain ⟨event, hs⟩ := next_cases hn
      by_cases hmove : move.mover = some u
      · rcases step_cases hs with ⟨t, failure, a, rest, shared, todo, rfl, ht, he, rfl⟩ |
          ⟨t, call, rfl, ht, rfl, rfl⟩ | ⟨rfl, rfl, rfl⟩
        · obtain rfl := Option.some.inj hmove
          rw [ht] at hu
          obtain rfl := Option.some.inj hu
          cases he
          refine .inl (.inr ⟨t, ?_⟩)
          simp
        · cases hmove
        · cases hmove
      · have hbusy : s.threads u ≠ [] := by
          intro hidle
          rw [hidle] at hu
          cases hu
        refine .inr ⟨⟨⟨_, h.step hs⟩, ?_⟩, le_refl 0, fun h ↦ absurd h hmove⟩
        rw [step_frame hs hbusy hmove]
        exact hu

/-- A caller whose sender is gone or who is not waiting has returned or is held up by nothing. -/
theorem Inv.ready (h : Inv trace s) (hdead : s.shared.alive = false) {request : Request Payload}
    (hr : s.shared.requests[r]? = some request) :
    Ended r s ∨ ∃ t a rest, s.threads t = a :: rest ∧ a.Owns r ∧
      (Ready t r s ∨ a.Waits ∧ request.sender = true) := by
  obtain ⟨owner, loc, hk, -⟩ := h.calls r request hr
  cases hresult : request.result with
  | some message => exact .inl ⟨request, message, hr, hresult⟩
  | none =>
    have hhead := hk.waits.mpr hresult
    cases ht : s.threads owner with
    | nil =>
      rw [ht] at hhead
      exact hhead.elim
    | cons a rest =>
      rw [ht] at hhead
      refine .inr ⟨owner, a, rest, ht, hhead, ?_⟩
      by_cases hwaits : a.Waits ∧ request.sender = true
      · exact .inr hwaits
      · refine .inl ⟨a, rest, request, ht, hhead, hr, hdead, fun hw ↦ ?_⟩
        by_contra hne
        exact hwaits ⟨hw, by simpa using hne⟩

/-- After the table has been emptied a waiting caller's sender is gone or in the hands of a thread. -/
theorem Inv.held (h : Inv trace s) (hd : s.Drained) {request : Request Payload} {t : ℕ}
    {a : Act Payload} {rest : List (Act Payload)} (hr : s.shared.requests[r]? = some request)
    (ht : s.threads t = a :: rest) (ha : a.Owns r) (hwaits : a.Waits)
    (hsender : request.sender = true) : ∃ u, Holds u r s := by
  obtain ⟨owner, loc, hk, -⟩ := h.calls r request hr
  have howner : t = owner := hk.owned t (by rw [ht]; exact ha)
  subst howner
  cases loc with
  | fresh =>
    have hhead := hk.fresh.mp rfl
    rw [ht] at hhead
    obtain rfl := Option.some.inj hhead
    exact hwaits.elim
  | listed =>
    obtain ⟨u, hu⟩ := (h.drained hd).2 _ ((hk.listed request.id).mpr ⟨rfl, rfl⟩)
    have hown : u = t := by
      refine hk.owned u ?_
      cases hthread : s.threads u with
      | nil => simp [hthread] at hu
      | cons b bs =>
        rw [hthread] at hu
        rcases hu with hu | hu <;>
        · obtain rfl := Option.some.inj hu
          rfl
    subst hown
    rw [ht] at hu
    rcases hu with hu | hu <;>
    · obtain rfl := Option.some.inj hu
      exact hwaits.elim
  | held u =>
    have hcount := hk.held u
    rw [if_pos rfl] at hcount
    obtain ⟨b, hb, hsend⟩ := List.countP_pos_iff.mp (by rw [hcount]; exact Nat.one_pos)
    exact ⟨u, b, hb, hsend⟩
  | gone => exact absurd rfl (hk.sender.mp hsender)

/-- A call whose sender is gone returns. -/
theorem Gone.ended (h : Reachable downError trace (run.state n))
    (hdead : (run.state n).shared.alive = false) (hgone : Gone r (run.state n)) :
    ∃ m, n ≤ m ∧ Ended r (run.state m) := by
  obtain ⟨request, hr, hsender⟩ := hgone
  rcases h.inv.ready hdead hr with hend | ⟨t, a, rest, -, -, hready | ⟨-, htrue⟩⟩
  · exact ⟨n, le_refl n, hend⟩
  · exact hready.ended run h
  · rw [hsender] at htrue
    cases htrue

private theorem length_always (h : Reachable downError trace (run.state n))
    (hr : r < (run.state n).shared.requests.length) {m : ℕ} (hm : n ≤ m) :
    r < (run.state m).shared.requests.length := by
  refine (run.always (P := fun s ↦ (∃ trace, Reachable downError trace s) ∧
    r < s.shared.requests.length) ?_ ⟨⟨trace, h⟩, hr⟩ hm).2
  rintro s move s' ⟨⟨trace, h⟩, hr⟩ hn
  obtain ⟨event, hs⟩ := next_cases hn
  obtain ⟨request', hr', -⟩ := h.inv.gone hs (List.getElem?_eq_getElem hr)
  exact ⟨⟨_, h.step hs⟩, (List.getElem?_eq_some_iff.mp hr').1⟩

/-- Once the provider is dead every call returns. -/
theorem ends (h : Reachable downError trace (run.state n))
    (hdead : (run.state n).shared.alive = false)
    (hr : r < (run.state n).shared.requests.length) : ∃ m, n ≤ m ∧ Ended r (run.state m) := by
  obtain ⟨k, hk, hd⟩ := drains run h hdead
  obtain ⟨trace', hreach⟩ := h.always run hk
  have hdead' := dead_always run hdead hk
  have hget := List.getElem?_eq_getElem (length_always run h hr hk)
  rcases hreach.inv.ready hdead' hget with hend | ⟨t, a, rest, ht, ha, hready | ⟨hwaits, hsender⟩⟩
  · exact ⟨k, hk, hend⟩
  · obtain ⟨m, hm, hend⟩ := hready.ended run hreach
    exact ⟨m, hk.trans hm, hend⟩
  · obtain ⟨u, hholds⟩ := hreach.inv.held hd hget ht ha hwaits hsender
    obtain ⟨m, hm, hgone⟩ := hholds.gone run hreach
    obtain ⟨trace'', hreach'⟩ := hreach.always run hm
    obtain ⟨l, hl, hend⟩ := hgone.ended run hreach' (dead_always run hdead' hm)
    exact ⟨l, (hk.trans hm).trans hl, hend⟩

end Fair

/-- What a reply finds: nothing, or a call of that identifier that has been neither answered nor
given up. -/
theorem Inv.reply (h : Inv trace s) {t id : ℕ} {message : Message Payload}
    {rest : List (Act Payload)} (ht : s.threads t = .reply id message :: rest)
    (failure : Option Error) :
    s.step downError (.act t failure) =
        some ({ s with threads := Function.update s.threads t rest }, none) ∨
      ∃ s' r request, s.step downError (.act t failure) = some (s', some (.taken r id)) ∧
        s.shared.requests[r]? = some request ∧ request.id = id ∧ ∀ e ∈ trace, ¬e.Closes r := by
  cases hget : s.shared.pending.get id with
  | none =>
    left
    simp only [step, ht, Shared.exec, hget]
    rfl
  | some r =>
    right
    have hentry := (PendingTable.get_eq_some (h.bounds t).keys).mp hget
    obtain ⟨request, hr⟩ : ∃ request, s.shared.requests[r]? = some request :=
      ⟨_, List.getElem?_eq_getElem ((h.bounds t).entries _ hentry)⟩
    obtain ⟨owner, loc, hk, hrec⟩ := h.calls r request hr
    obtain ⟨hloc, hid⟩ := (hk.listed id).mp hentry
    refine ⟨⟨{ s.shared with pending := s.shared.pending.remove id },
      Function.update s.threads t (.send r (some id) message :: rest)⟩, r, request, ?_, hr, hid.symm,
      hrec.opened (.inr hloc)⟩
    simp only [step, ht, Shared.exec, hget]
    rfl

/-- Each request receives at most one result, a reply reaches only the request it names, and one that
finds no open request does nothing. Once `fail_all` has finished, the table keeps only senders whose
owners are at their own liveness check. No thread ever has to wait, and in every fair run each call
comes to its end after the death of the provider. -/
theorem rendezvous (h : Reachable downError trace s) :
    (∀ r, trace.countP (Event.isDelivered r) ≤ 1) ∧
    (∀ r id message, .delivered r (some id) message ∈ trace →
      ∃ request, s.shared.requests[r]? = some request ∧ request.id = id) ∧
    (∀ t id message rest failure, s.threads t = .reply id message :: rest →
      s.step downError (.act t failure) =
          some ({ s with threads := Function.update s.threads t rest }, none) ∨
        ∃ s' r request, s.step downError (.act t failure) = some (s', some (.taken r id)) ∧
          s.shared.requests[r]? = some request ∧ request.id = id ∧ ∀ e ∈ trace, ¬e.Closes r) ∧
    (s.shared.down = true → ∀ entry ∈ s.shared.pending, s.Checking entry.2) ∧
    (∀ t failure, s.threads t ≠ [] →
      ∃ s' event, s.step downError (.act t failure) = some (s', event)) ∧
    ∀ run : Fair Payload downError, run.state 0 = s → ∀ n r,
      (run.state n).shared.alive = false → r < (run.state n).shared.requests.length →
        ∃ m request message, n ≤ m ∧ (run.state m).shared.requests[r]? = some request ∧
          request.result = some message ∧ (∃ trace', Reachable downError trace' (run.state m)) ∧
          ∀ trace', Reachable downError trace' (run.state m) →
            (∃ error, message = .error error) ∨ ∃ named, .delivered r named message ∈ trace' := by
  have hinv := h.inv
  have hcall (r : ℕ) (hr : ∃ e ∈ trace, e.call = r) :
      ∃ request loc, s.shared.requests[r]? = some request ∧ Recorded trace r request loc := by
    obtain ⟨e, he, rfl⟩ := hr
    have hget := List.getElem?_eq_getElem (hinv.traced e he)
    obtain ⟨owner, loc, -, hrec⟩ := hinv.calls _ _ hget
    exact ⟨_, loc, hget, hrec⟩
  refine ⟨fun r ↦ ?_, fun r id message hmem ↦ ?_, ?_, fun hdown ↦ (hinv.drained (.inl hdown)).2, ?_, ?_⟩
  · rcases Nat.eq_zero_or_pos (trace.countP (Event.isDelivered r)) with hzero | hpos
    · omega
    · obtain ⟨e, he, hdel⟩ := List.countP_pos_iff.mp hpos
      obtain ⟨request, loc, -, hrec⟩ := hcall r ⟨e, he, Event.call_of_isDelivered hdel⟩
      refine hrec.once.trans ?_
      split <;> omega
  · obtain ⟨request, loc, hget, hrec⟩ := hcall r ⟨_, hmem, rfl⟩
    exact ⟨request, hget, (hrec.named id message hmem).symm⟩
  · exact fun t id message rest failure ht ↦ hinv.reply ht failure
  · exact fun t failure hbusy ↦ hinv.enabled hbusy failure
  · rintro run rfl n r hdead hr
    obtain ⟨trace₁, h₁⟩ := h.always run (Nat.zero_le n)
    obtain ⟨m, hm, request, message, hget, hresult⟩ := ends run h₁ hdead hr
    refine ⟨m, request, message, hm, hget, hresult, h₁.always run hm, fun trace' h' ↦ ?_⟩
    obtain ⟨owner, loc, -, hrec⟩ := h'.inv.calls r request hget
    exact hrec.returned message hresult

/-- A request, its reply, the same reply again, the death of the provider and a late request. -/
def sampleMoves : List (Move Unit) :=
  [.call 0 .sendAndWait, .act 0 none, .act 0 none, .act 0 none, .call 1 (.reply 1 (.ok ())),
    .call 2 (.reply 1 (.ok ())), .act 1 none, .act 2 none, .act 1 none,
    .call 1 (.failAll providerDown), .act 1 none, .act 1 none, .act 1 none,
    .call 2 .sendAndWait, .act 2 none, .act 2 none]

/-- The theorem at a provider that goes down after one call was answered and while another checks it. -/
theorem rendezvous_sample : ∃ trace s, init.run providerDown sampleMoves = some (trace, s) ∧
    s.shared.down = true ∧ s.shared.pending = [(2, 1)] ∧ s.Checking 1 ∧
    trace.countP (Event.isDelivered 0) = 1 := by
  obtain ⟨⟨trace, s⟩, hrun⟩ :=
    Option.isSome_iff_exists.mp (show (init.run providerDown sampleMoves).isSome from rfl)
  have hdown : (init.run providerDown sampleMoves).map (·.2.shared.down) = some true := rfl
  have hpending : (init.run providerDown sampleMoves).map (·.2.shared.pending) = some [(2, 1)] := rfl
  have hcount : (init.run providerDown sampleMoves).map (·.1.countP (Event.isDelivered 0)) =
      some 1 := rfl
  rw [hrun] at hdown hpending hcount
  have hpending : s.shared.pending = [(2, 1)] := Option.some.inj hpending
  have hreach := Reachable.init.run hrun
  obtain ⟨-, -, -, hchecking, -⟩ := rendezvous hreach
  refine ⟨trace, s, hrun, Option.some.inj hdown, hpending, ?_, Option.some.inj hcount⟩
  exact hchecking (Option.some.inj hdown) (2, 1) (by rw [hpending]; exact List.mem_singleton_self _)

section Wrap

/-- The provider dies before a request comes, whose owner has looked at the flag but not yet taken
its sender back. -/
def lateMoves : List (Move Unit) :=
  [.call 1 (.failAll providerDown), .act 1 none, .act 1 none, .act 1 none,
    .call 0 .sendAndWait, .act 0 none, .act 0 none, .act 0 none]

/-- A request that is answered. -/
def answerMoves (id : ℕ) : List (Move Unit) :=
  [.call 0 .sendAndWait, .act 0 none, .act 0 none, .act 0 none, .act 0 none, .act 0 none,
    .call 1 (.reply id (.ok ())), .act 1 none, .act 1 none, .act 0 none]

/-- Prefetches draw identifiers and leave nothing behind. -/
theorem Reachable.prefetches {trace : List (Event Unit)} {s : System Unit}
    (h : Reachable downError trace s) (hidle : s.threads 0 = []) (hid : s.shared.nextId < 2 ^ 64)
    (n : ℕ) : Reachable downError trace
      ⟨{ s.shared with nextId := (s.shared.nextId + n) % 2 ^ 64 }, s.threads⟩ := by
  induction n with
  | zero =>
    rw [Nat.add_zero, Nat.mod_eq_of_lt hid]
    exact h
  | succ n ih =>
    have hrun : System.run downError
        ⟨{ s.shared with nextId := (s.shared.nextId + n) % 2 ^ 64 }, s.threads⟩
        [.call 0 .prefetch, .act 0 none] = some ([],
          ⟨{ s.shared with nextId := (s.shared.nextId + (n + 1)) % 2 ^ 64 }, s.threads⟩) := by
      have hback : Function.update (Function.update s.threads 0 [.skipId]) 0 [] = s.threads := by
        rw [Function.update_idem, ← hidle, Function.update_eq_self]
      have hnext : ((s.shared.nextId + n) % 2 ^ 64 + 1) % 2 ^ 64 =
          (s.shared.nextId + (n + 1)) % 2 ^ 64 := by omega
      simp only [System.run, System.step, hidle, Function.update_self, Call.act, Shared.exec,
        Option.bind_eq_bind, Option.bind_some, Option.toList_none, List.append_nil, List.nil_append,
        hnext, pure, hback]
    rw [← List.append_nil trace]
    exact ih.run hrun

/-- A caller that has found the provider dead may still have its sender in the table, and after
`2 ^ 64` identifiers a reply of one name reaches a second request. -/
theorem late_removal : (∃ trace, ∃ s : System Unit, Reachable providerDown trace s ∧
      s.shared.down = true ∧ ∃ entry ∈ s.shared.pending,
        ∀ t, (s.threads t).head? ≠ some (.ensureAlive entry.2)) ∧
    ∃ trace, ∃ s : System Unit, Reachable providerDown trace s ∧
      .delivered 0 (some 1) (.ok ()) ∈ trace ∧ .delivered 1 (some 1) (.ok ()) ∈ trace := by
  constructor
  · have hrun : init.run providerDown lateMoves = some (_, _) := rfl
    refine ⟨_, _, Reachable.init.run hrun, rfl, (1, 0), List.mem_singleton_self _, fun t ↦ ?_⟩
    rcases t with - | - | t <;> exact nofun
  · have hfirst : init.run providerDown (answerMoves 1) = some ([.taken 0 1,
        .delivered 0 (some 1) (.ok ()), .ended 0 (.ok ())], _) := rfl
    have hwrap := (Reachable.init.run hfirst).prefetches rfl (by decide) (2 ^ 64 - 1)
    have hsecond := hwrap.run (show System.run _ _ (answerMoves 1) = some ([.taken 1 1,
      .delivered 1 (some 1) (.ok ()), .ended 1 (.ok ())], _) from rfl)
    refine ⟨_, _, hsecond, ?_, ?_⟩
    · simp
    · simp

end Wrap

end System

end Gitility.Provider
