import Gitility.Provider.Dispatcher

/-!
# Every run of a dispatcher

What has been accepted is what has been handled and then the queue, in the order of arrival; what has been started
is what runs and what has finished. Each helper of the process keeps these two equations.
-/

namespace Gitility.Dispatcher

variable {R : Type}

/-! ### Maps -/

section Maps

variable {V : Type} {m : Std.TreeMap ℕ V} {k : ℕ} {v : V}

private theorem nodup_toList (m : Std.TreeMap ℕ V) : m.toList.Nodup := by
  refine m.ordered_keys_toList.imp fun {a b} hlt heq ↦ ?_
  have hself : compare a.1 b.1 = .eq := heq ▸ Std.ReflCmp.compare_self
  exact absurd (hself.symm.trans hlt) (by decide)

/-- A new key adds its pair. -/
theorem toList_insert_perm (h : m[k]? = none) : (m.insert k v).toList.Perm ((k, v) :: m.toList) := by
  have hnot : (k, v) ∉ m.toList := fun hmem ↦ by
    rw [Std.TreeMap.mem_toList_iff_getElem?_eq_some, h] at hmem
    cases hmem
  rw [List.perm_ext_iff_of_nodup (nodup_toList _) (List.nodup_cons.mpr ⟨hnot, nodup_toList _⟩)]
  rintro ⟨a, w⟩
  rw [List.mem_cons, Std.TreeMap.mem_toList_iff_getElem?_eq_some, Std.TreeMap.getElem?_insert,
    Std.TreeMap.mem_toList_iff_getElem?_eq_some]
  by_cases hk : k = a
  · subst hk
    simp [h, eq_comm]
  · simp [hk, Ne.symm hk]

/-- A key that is erased takes its pair. -/
theorem toList_erase_perm (h : m[k]? = some v) : m.toList.Perm ((k, v) :: (m.erase k).toList) := by
  have hnot : (k, v) ∉ (m.erase k).toList := fun hmem ↦ by
    rw [Std.TreeMap.mem_toList_iff_getElem?_eq_some, Std.TreeMap.getElem?_erase_self] at hmem
    cases hmem
  rw [List.perm_ext_iff_of_nodup (nodup_toList _) (List.nodup_cons.mpr ⟨hnot, nodup_toList _⟩)]
  rintro ⟨a, w⟩
  rw [List.mem_cons, Std.TreeMap.mem_toList_iff_getElem?_eq_some, Std.TreeMap.mem_toList_iff_getElem?_eq_some,
    Std.TreeMap.getElem?_erase]
  by_cases hk : k = a
  · subst hk
    simp [h, eq_comm]
  · simp [hk, Ne.symm hk]

end Maps

/-! ### What a trace says -/

namespace Event

/-- The item that enters the queue. -/
def acceptedItem : Event R → Option (Item R)
  | .accepted item => some item
  | _ => none

/-- The item that a task is started for. -/
def startedItem : Event R → Option (Item R)
  | .started item => some item
  | _ => none

/-- The item that leaves the queue, or passes it by. -/
def handledItem : Event R → Option (Item R)
  | .started item | .startFailed item | .expired item => some item
  | _ => none

/-- The token of a task that is over. -/
def finishedToken : Event R → Option ℕ
  | .finished token => some token
  | _ => none

/-- Events of refreshes and of timeouts. -/
def Aside : Event R → Prop
  | .killed _ | .refreshed .. => True
  | _ => False

end Event

/-- The tokens of the tasks that run. -/
def State.tokens (s : State R) : List ℕ := s.running.toList.map fun running ↦ running.2.token

/-- The two equations, with what is still to be handled. -/
structure Balanced (s : State R) (trace : List (Event R)) (waiting : List (Item R)) : Prop where
  bound : s.running.size ≤ s.concurrency
  fifo : trace.filterMap Event.handledItem ++ waiting = trace.filterMap Event.acceptedItem
  slots : (s.tokens ++ trace.filterMap Event.finishedToken).Perm
    ((trace.filterMap Event.startedItem).map Item.token)
  ascending : ((trace.filterMap Event.acceptedItem).map Item.token).Pairwise (· < ·)
  tokens : ∀ item ∈ trace.filterMap Event.acceptedItem, item.token < s.nextRef
  monitors : ∀ monitor entry, s.running[monitor]? = some entry → monitor < s.nextRef

/-- Between messages the queue waits only for slots. -/
structure Settled (s : State R) (trace : List (Event R)) : Prop extends Balanced s trace s.queue where
  conserving : s.queue = [] ∨ s.running.size = s.concurrency

section Steps

variable {s : State R} {trace : List (Event R)} {waiting : List (Item R)} {item : Item R}

/-- An item that is dropped or could not be started. -/
theorem Balanced.pass {event : Event R} (h : Balanced s trace (item :: waiting))
    (hevent : event = .expired item ∨ event = .startFailed item) : Balanced s (trace ++ [event]) waiting := by
  have hhandled : [event].filterMap Event.handledItem = [item] := by
    rcases hevent with rfl | rfl <;> rfl
  have hquiet : [event].filterMap Event.acceptedItem = [] ∧ [event].filterMap Event.startedItem = [] ∧
      [event].filterMap Event.finishedToken = [] := by
    rcases hevent with rfl | rfl <;> exact ⟨rfl, rfl, rfl⟩
  obtain ⟨haccepted, hstarted, hfinished⟩ := hquiet
  constructor
  · exact h.bound
  · rw [List.filterMap_append, List.filterMap_append, hhandled, haccepted, List.append_nil, List.append_assoc]
    exact h.fifo
  · rw [List.filterMap_append, List.filterMap_append, hfinished, hstarted, List.append_nil, List.append_nil]
    exact h.slots
  · rw [List.filterMap_append, haccepted, List.append_nil]
    exact h.ascending
  · rw [List.filterMap_append, haccepted, List.append_nil]
    exact h.tokens
  · exact h.monitors

/-- `start_request` with a free slot. -/
theorem Balanced.startRequest (world : World R) (h : Balanced s trace (item :: waiting))
    (hfree : s.running.size < s.concurrency) :
    Balanced (s.startRequest world item).1 (trace ++ (s.startRequest world item).2) waiting := by
  rw [State.startRequest]
  cases world.startChild item with
  | none => exact h.pass (.inr rfl)
  | some pid =>
    have hnew : s.running[s.nextRef]? = none := by
      cases hfound : s.running[s.nextRef]? with
      | none => rfl
      | some entry => exact absurd (h.monitors _ _ hfound) (Nat.lt_irrefl _)
    have hperm := toList_insert_perm (v := ⟨item.token, pid, s.nextRef + 1⟩) hnew
    have hsize := hperm.length_eq
    rw [Std.TreeMap.length_toList, List.length_cons, Std.TreeMap.length_toList] at hsize
    have haccepted : (trace ++ [Event.started item]).filterMap Event.acceptedItem =
        trace.filterMap Event.acceptedItem := by
      rw [List.filterMap_append]
      exact List.append_nil _
    have hfinished : (trace ++ [Event.started item]).filterMap Event.finishedToken =
        trace.filterMap Event.finishedToken := by
      rw [List.filterMap_append]
      exact List.append_nil _
    have hhandled : (trace ++ [Event.started item]).filterMap Event.handledItem =
        trace.filterMap Event.handledItem ++ [item] := List.filterMap_append ..
    have hstarted : (trace ++ [Event.started item]).filterMap Event.startedItem =
        trace.filterMap Event.startedItem ++ [item] := List.filterMap_append ..
    dsimp only
    constructor
    · dsimp only
      omega
    · rw [hhandled, haccepted, List.append_assoc]
      exact h.fifo
    · have htokens := hperm.map fun running ↦ running.2.token
      rw [hfinished, hstarted, List.map_append]
      refine ((htokens.append_right _).trans ?_).trans
        (@List.perm_append_comm _ [item.token] ((trace.filterMap Event.startedItem).map Item.token))
      exact h.slots.cons item.token
    · rw [haccepted]
      exact h.ascending
    · rw [haccepted]
      exact fun other hother ↦ Nat.lt_add_right 2 (h.tokens other hother)
    · intro monitor entry hentry
      dsimp only at hentry ⊢
      rw [Std.TreeMap.getElem?_insert] at hentry
      split at hentry
      · next heq =>
        rw [← Std.LawfulEqCmp.eq_of_compare heq]
        omega
      · exact Nat.lt_add_right 2 (h.monitors _ _ hentry)

private theorem startRequest_queue (world : World R) (item : Item R) (s : State R) :
    (s.startRequest world item).1.queue = s.queue ∧
      (s.startRequest world item).1.concurrency = s.concurrency := by
  rw [State.startRequest]
  split <;> exact ⟨rfl, rfl⟩

private theorem of_findRunning_eq_some {token : ℕ} {running : ℕ × Entry} (h : s.findRunning token = some running) :
    s.running[running.1]? = some running.2 ∧ running.2.token = token :=
  ⟨Std.TreeMap.mem_toList_iff_getElem?_eq_some.mp (List.mem_of_find?_eq_some h),
    by simpa using List.find?_some h⟩

private theorem of_findRunning_eq_none {token monitor : ℕ} {entry : Entry} (h : s.findRunning token = none)
    (hentry : s.running[monitor]? = some entry) : entry.token ≠ token := by
  have hmem := Std.TreeMap.mem_toList_iff_getElem?_eq_some.mpr hentry
  simpa using List.find?_eq_none.mp h _ hmem

/-- `drain_queue` from any queue. -/
theorem Balanced.drainFrom (world : World R) {queue : List (Item R)} (h : Balanced s trace queue) :
    Settled (State.drainFrom world queue s).1 (trace ++ (State.drainFrom world queue s).2) ∧
      (State.drainFrom world queue s).1.concurrency = s.concurrency := by
  induction queue generalizing s trace with
  | nil =>
    rw [State.drainFrom, List.append_nil]
    exact ⟨⟨⟨h.bound, h.fifo, h.slots, h.ascending, h.tokens, h.monitors⟩, .inl rfl⟩, rfl⟩
  | cons item queue ih =>
    rw [State.drainFrom]
    split
    · next hfull =>
      rw [List.append_nil]
      exact ⟨⟨⟨h.bound, h.fifo, h.slots, h.ascending, h.tokens, h.monitors⟩,
        .inr (Nat.le_antisymm h.bound hfull)⟩, rfl⟩
    · next hfree =>
      split
      · have hrest := ih (h.pass (.inl rfl))
        rw [List.append_assoc] at hrest
        exact hrest
      · have hrest := ih (h.startRequest world (Nat.lt_of_not_le hfree))
        rw [List.append_assoc, (startRequest_queue world item s).2] at hrest
        exact hrest

/-- A task that leaves `running`, and the drain behind it. -/
theorem Settled.release (world : World R) (h : Settled s trace) {monitor : ℕ} {entry : Entry}
    (hentry : s.running[monitor]? = some entry) :
    Settled (s.release world monitor entry).1 (trace ++ (s.release world monitor entry).2) ∧
      (s.release world monitor entry).1.concurrency = s.concurrency := by
  have hperm := toList_erase_perm hentry
  have hsize := hperm.length_eq
  rw [Std.TreeMap.length_toList, List.length_cons, Std.TreeMap.length_toList] at hsize
  have haccepted : (trace ++ [Event.finished entry.token]).filterMap Event.acceptedItem =
      trace.filterMap Event.acceptedItem := by
    rw [List.filterMap_append]
    exact List.append_nil _
  have hhandled : (trace ++ [Event.finished entry.token]).filterMap Event.handledItem =
      trace.filterMap Event.handledItem := by
    rw [List.filterMap_append]
    exact List.append_nil _
  have hstarted : (trace ++ [Event.finished entry.token]).filterMap Event.startedItem =
      trace.filterMap Event.startedItem := by
    rw [List.filterMap_append]
    exact List.append_nil _
  have hfinished : (trace ++ [Event.finished entry.token]).filterMap Event.finishedToken =
      trace.filterMap Event.finishedToken ++ [entry.token] := List.filterMap_append ..
  have hreleased : Balanced { s with running := s.running.erase monitor } (trace ++ [.finished entry.token])
      s.queue := by
    constructor
    · have hbound := h.bound
      dsimp only
      omega
    · rw [hhandled, haccepted]
      exact h.fifo
    · have htokens := hperm.map fun running ↦ running.2.token
      rw [hfinished, hstarted]
      refine List.Perm.trans ?_ h.slots
      rw [← List.append_assoc]
      exact (@List.perm_append_comm _ _ [entry.token]).trans (htokens.append_right _).symm
    · rw [haccepted]
      exact h.ascending
    · rw [haccepted]
      exact h.tokens
    · intro m e he
      dsimp only at he
      rw [Std.TreeMap.getElem?_erase] at he
      split at he
      · cases he
      · exact h.monitors m e he
  have hdrained := hreleased.drainFrom world
  rw [List.append_assoc] at hdrained
  exact hdrained

/-- References that are given out, and events that are about no request. -/
theorem Settled.aside (h : Settled s trace) {s' : State R} {events : List (Event R)}
    (hqueue : s'.queue = s.queue) (hrunning : s'.running = s.running) (hconcurrency : s'.concurrency = s.concurrency)
    (hnext : s.nextRef ≤ s'.nextRef) (hevents : ∀ event ∈ events, event.Aside) :
    Settled s' (trace ++ events) := by
  have hquiet : ∀ {β : Type} {f : Event R → Option β}, (∀ event : Event R, event.Aside → f event = none) →
      (trace ++ events).filterMap f = trace.filterMap f := by
    intro β f hf
    rw [List.filterMap_append, List.filterMap_eq_nil_iff.mpr fun event he ↦ hf event (hevents event he),
      List.append_nil]
  have haccepted : (trace ++ events).filterMap Event.acceptedItem = trace.filterMap Event.acceptedItem :=
    hquiet fun event he ↦ by cases event <;> first | rfl | exact he.elim
  have hhandled : (trace ++ events).filterMap Event.handledItem = trace.filterMap Event.handledItem :=
    hquiet fun event he ↦ by cases event <;> first | rfl | exact he.elim
  have hstarted : (trace ++ events).filterMap Event.startedItem = trace.filterMap Event.startedItem :=
    hquiet fun event he ↦ by cases event <;> first | rfl | exact he.elim
  have hfinished : (trace ++ events).filterMap Event.finishedToken = trace.filterMap Event.finishedToken :=
    hquiet fun event he ↦ by cases event <;> first | rfl | exact he.elim
  refine ⟨⟨?_, ?_, ?_, ?_, ?_, ?_⟩, ?_⟩
  · rw [hrunning, hconcurrency]
    exact h.bound
  · rw [hhandled, haccepted, hqueue]
    exact h.fifo
  · rw [hfinished, hstarted, State.tokens, hrunning]
    exact h.slots
  · rw [haccepted]
    exact h.ascending
  · rw [haccepted]
    exact fun item hitem ↦ Nat.lt_of_lt_of_le (h.tokens item hitem) hnext
  · rw [hrunning]
    exact fun m e he ↦ Nat.lt_of_lt_of_le (h.monitors m e he) hnext
  · rw [hqueue, hrunning, hconcurrency]
    exact h.conserving

/-- A request joins the queue, or finds it empty and a slot free. -/
theorem Settled.handleRequest (world : World R) (h : Settled s trace) (body : R) :
    Settled (s.handleRequest world body).1 (trace ++ (s.handleRequest world body).2) ∧
      (s.handleRequest world body).1.concurrency = s.concurrency := by
  set item : Item R := ⟨s.nextRef, body, world.arrival⟩ with hitem
  have haccepted : (trace ++ [Event.accepted item]).filterMap Event.acceptedItem =
      trace.filterMap Event.acceptedItem ++ [item] := List.filterMap_append ..
  have hquiet : ∀ {β : Type} {f : Event R → Option β}, f (.accepted item) = none →
      (trace ++ [Event.accepted item]).filterMap f = trace.filterMap f := by
    intro β f hf
    rw [List.filterMap_append, List.filterMap_cons, hf]
    exact List.append_nil _
  have hjoined : Balanced { s with nextRef := s.nextRef + 1 } (trace ++ [.accepted item]) (s.queue ++ [item]) := by
    constructor
    · exact h.bound
    · rw [hquiet rfl, haccepted, ← List.append_assoc, h.fifo]
    · rw [hquiet rfl, hquiet rfl]
      exact h.slots
    · rw [haccepted, List.map_append]
      refine List.pairwise_append.mpr ⟨h.ascending, List.pairwise_singleton _ _, fun a ha b hb ↦ ?_⟩
      obtain ⟨other, hother, rfl⟩ := List.mem_map.mp ha
      obtain rfl := List.mem_singleton.mp hb
      exact h.tokens other hother
    · rw [haccepted]
      intro other hother
      rcases List.mem_append.mp hother with hother | hother
      · exact Nat.lt_succ_of_lt (h.tokens other hother)
      · rw [List.mem_singleton.mp hother]
        exact Nat.lt_succ_self _
    · exact fun m e he ↦ Nat.lt_succ_of_lt (h.monitors m e he)
  have hdispatched :
      Settled (State.dispatchOrQueue world item { s with nextRef := s.nextRef + 1 }).1
          (trace ++ [.accepted item] ++ (State.dispatchOrQueue world item { s with nextRef := s.nextRef + 1 }).2) ∧
        (State.dispatchOrQueue world item { s with nextRef := s.nextRef + 1 }).1.concurrency = s.concurrency := by
    rw [State.dispatchOrQueue]
    split
    · next hfree =>
      have hempty : s.queue = [] := h.conserving.resolve_right (Nat.ne_of_lt hfree)
      rw [hempty, List.nil_append] at hjoined
      have hstarted := hjoined.startRequest world hfree
      obtain ⟨hqueue, hconcurrency⟩ := startRequest_queue world item { s with nextRef := s.nextRef + 1 }
      refine ⟨⟨?_, .inl (hqueue.trans hempty)⟩, hconcurrency⟩
      rw [hqueue, hempty]
      exact hstarted
    · next hfull =>
      rw [List.append_nil]
      exact ⟨⟨⟨hjoined.bound, hjoined.fifo, hjoined.slots, hjoined.ascending, hjoined.tokens, hjoined.monitors⟩,
        .inr (Nat.le_antisymm h.bound (Nat.le_of_not_lt hfull))⟩, rfl⟩
  rw [List.append_assoc] at hdispatched
  exact hdispatched

/-- A message is handled. -/
theorem Settled.handle (world : World R) (h : Settled s trace) (message : Message R) :
    Settled (s.handle world message).1 (trace ++ (s.handle world message).2) ∧
      (s.handle world message).1.concurrency = s.concurrency := by
  have hsame : Settled s (trace ++ []) ∧ s.concurrency = s.concurrency := by
    rw [List.append_nil]
    exact ⟨h, rfl⟩
  cases message with
  | request body => exact h.handleRequest world body
  | control control =>
    cases control with
    | taskDone token =>
      rw [State.handle, State.handleControl]
      cases hfound : s.findRunning token with
      | none => exact hsame
      | some running => exact h.release world (of_findRunning_eq_some hfound).1
    | taskTimeout token =>
      rw [State.handle, State.handleControl]
      cases s.findRunning token with
      | none => exact hsame
      | some running => exact ⟨h.aside rfl rfl rfl (Nat.le_refl _) (by simp [Event.Aside]), rfl⟩
    | down monitor =>
      rw [State.handle, State.handleControl]
      cases hfound : s.running[monitor]? with
      | none =>
        simp only [State.handleRefreshDown]
        split
        · exact hsame
        · exact ⟨h.aside rfl rfl rfl (Nat.le_refl _) (by simp [Event.Aside]), rfl⟩
      | some entry => exact h.release world hfound
    | refresh caller =>
      rw [State.handle, State.handleControl]
      cases world.startRefresh with
      | none => exact ⟨h.aside rfl rfl rfl (Nat.le_succ _) (by simp [Event.Aside]), rfl⟩
      | some pid => exact ⟨h.aside rfl rfl rfl (Nat.le_add_right _ 3) (by simp), rfl⟩
    | refreshDone token ok =>
      rw [State.handle, State.handleControl]
      cases s.refreshes[token]? with
      | none => exact hsame
      | some entry => exact ⟨h.aside rfl rfl rfl (Nat.le_refl _) (by simp [Event.Aside]), rfl⟩
    | refreshTimeout token =>
      rw [State.handle, State.handleControl]
      cases s.refreshes[token]? with
      | none => exact hsame
      | some entry => exact ⟨h.aside rfl rfl rfl (Nat.le_refl _) (by simp [Event.Aside]), rfl⟩
    | ignored => exact hsame

/-- A run keeps the process settled. -/
theorem Settled.run (h : Settled s trace) (messages : List (World R × Message R)) :
    Settled (s.run messages).1 (trace ++ (s.run messages).2) ∧
      (s.run messages).1.concurrency = s.concurrency := by
  induction messages generalizing s trace with
  | nil =>
    rw [State.run, List.append_nil]
    exact ⟨h, rfl⟩
  | cons first messages ih =>
    obtain ⟨hfirst, hsame⟩ := h.handle first.1 first.2
    have hrest := ih hfirst
    rw [List.append_assoc, hsame] at hrest
    exact hrest

end Steps

/-! ### A task that runs -/

section Running

variable {s : State R} {trace : List (Event R)} {monitor : ℕ} {entry : Entry}

/-- A message that ends a task: that it is done, or that its process is down. -/
def Ends (monitor : ℕ) (entry : Entry) : Message R → Prop
  | .control control => control = .taskDone entry.token ∨ control = .down monitor
  | .request _ => False

private theorem startRequest_running (world : World R) (item : Item R) (hentry : s.running[monitor]? = some entry)
    (hold : monitor < s.nextRef) : (s.startRequest world item).1.running[monitor]? = some entry ∧
      monitor < (s.startRequest world item).1.nextRef := by
  rw [State.startRequest]
  split
  · dsimp only
    rw [Std.TreeMap.getElem?_insert, if_neg fun heq ↦ Nat.ne_of_gt hold (Std.LawfulEqCmp.eq_of_compare heq)]
    exact ⟨hentry, Nat.lt_add_right 2 hold⟩
  · exact ⟨hentry, hold⟩

private theorem drainFrom_running (world : World R) (queue : List (Item R)) (hentry : s.running[monitor]? = some entry)
    (hold : monitor < s.nextRef) : (State.drainFrom world queue s).1.running[monitor]? = some entry := by
  induction queue generalizing s with
  | nil => exact hentry
  | cons item queue ih =>
    rw [State.drainFrom]
    split
    · exact hentry
    split
    · exact ih hentry hold
    · obtain ⟨hentry', hold'⟩ := startRequest_running world item hentry hold
      exact ih hentry' hold'

private theorem release_running (world : World R) {other : ℕ} {gone : Entry} (hne : other ≠ monitor)
    (hentry : s.running[monitor]? = some entry) (hold : monitor < s.nextRef) :
    (s.release world other gone).1.running[monitor]? = some entry := by
  refine drainFrom_running world s.queue ?_ hold
  rw [Std.TreeMap.getElem?_erase, if_neg fun heq ↦ hne (Std.LawfulEqCmp.eq_of_compare heq)]
  exact hentry

/-- A task runs until a message ends it. -/
theorem handle_running (world : World R) {message : Message R} (hends : ¬ Ends monitor entry message)
    (hentry : s.running[monitor]? = some entry) (hold : monitor < s.nextRef) :
    (s.handle world message).1.running[monitor]? = some entry := by
  cases message with
  | request body =>
    rw [State.handle, State.handleRequest, State.dispatchOrQueue]
    dsimp only
    split
    · exact (startRequest_running (s := { s with nextRef := s.nextRef + 1 }) world _ hentry
        (Nat.lt_succ_of_lt hold)).1
    · exact hentry
  | control control =>
    have hdone : control ≠ .taskDone entry.token := fun heq ↦ hends (.inl heq)
    have hdown : control ≠ .down monitor := fun heq ↦ hends (.inr heq)
    rw [State.handle]
    cases control with
    | taskDone token =>
      rw [State.handleControl]
      cases hfound : s.findRunning token with
      | none => exact hentry
      | some running =>
        obtain ⟨hmem, htoken⟩ := of_findRunning_eq_some hfound
        refine release_running world (fun heq ↦ hdone ?_) hentry hold
        rw [heq, hentry] at hmem
        rw [Option.some.inj hmem, htoken]
    | taskTimeout token =>
      rw [State.handleControl]
      cases s.findRunning token <;> exact hentry
    | down other =>
      rw [State.handleControl]
      cases s.running[other]? with
      | none =>
        simp only [State.handleRefreshDown]
        split <;> exact hentry
      | some gone => exact release_running world (fun heq ↦ hdown (by rw [heq])) hentry hold
    | refresh caller =>
      rw [State.handleControl]
      cases world.startRefresh <;> exact hentry
    | refreshDone token ok =>
      rw [State.handleControl]
      cases s.refreshes[token]? <;> exact hentry
    | refreshTimeout token =>
      rw [State.handleControl]
      cases s.refreshes[token]? <;> exact hentry
    | ignored => exact hentry

/-- A message that ends a task frees its slot. -/
theorem handle_finishes (world : World R) {message : Message R} (hends : Ends monitor entry message)
    (hentry : s.running[monitor]? = some entry) : .finished entry.token ∈ (s.handle world message).2 := by
  cases message with
  | request body => exact hends.elim
  | control control =>
    rcases hends with rfl | rfl
    · rw [State.handle, State.handleControl]
      cases hfound : s.findRunning entry.token with
      | none => exact absurd rfl (of_findRunning_eq_none hfound hentry)
      | some running =>
        rw [← (of_findRunning_eq_some hfound).2]
        exact List.mem_cons_self
    · rw [State.handle, State.handleControl, hentry]
      exact List.mem_cons_self

private theorem mem_tokens (hentry : s.running[monitor]? = some entry) : entry.token ∈ s.tokens :=
  List.mem_map.mpr ⟨(monitor, entry), Std.TreeMap.mem_toList_iff_getElem?_eq_some.mpr hentry, rfl⟩

/-- What is started has been handled, and what is handled has arrived, each in this order. -/
theorem Balanced.sublist {waiting : List (Item R)} (h : Balanced s trace waiting) :
    (trace.filterMap Event.startedItem).Sublist (trace.filterMap Event.acceptedItem) := by
  have hhandled : (trace.filterMap Event.startedItem).Sublist (trace.filterMap Event.handledItem) := by
    clear h
    induction trace with
    | nil => exact .slnil
    | cons event trace ih =>
      cases event <;> simp [Event.startedItem, Event.handledItem, ih, List.filterMap_cons]
  refine hhandled.trans ?_
  rw [← h.fifo]
  exact List.sublist_append_left _ _

private theorem Balanced.nodup_accepted {waiting : List (Item R)} (h : Balanced s trace waiting) :
    (trace.filterMap Event.acceptedItem).Nodup := by
  refine List.Nodup.of_map Item.token (h.ascending.imp ?_)
  exact Nat.ne_of_lt

/-- A token runs or has finished once. -/
theorem Balanced.nodup_tokens {waiting : List (Item R)} (h : Balanced s trace waiting) :
    (s.tokens ++ trace.filterMap Event.finishedToken).Nodup := by
  rw [h.slots.nodup_iff]
  exact (h.sublist.map Item.token).nodup (h.ascending.imp Nat.ne_of_lt)

private theorem mem_finishedToken {token : ℕ} : token ∈ trace.filterMap Event.finishedToken ↔ .finished token ∈ trace := by
  rw [List.mem_filterMap]
  constructor
  · rintro ⟨event, hmem, h⟩
    cases event <;> cases h
    exact hmem
  · exact fun h ↦ ⟨_, h, rfl⟩

/-- Runs with no message that ends a task leave it running. -/
theorem run_running {messages : List (World R × Message R)} (h : Settled s trace)
    (hentry : s.running[monitor]? = some entry) (hends : ∀ x ∈ messages, ¬ Ends monitor entry x.2) :
    (s.run messages).1.running[monitor]? = some entry := by
  induction messages generalizing s trace with
  | nil => exact hentry
  | cons first messages ih =>
    have hfirst := handle_running first.1 (hends first List.mem_cons_self) hentry (h.monitors _ _ hentry)
    exact ih (h.handle first.1 first.2).1 hfirst fun x hx ↦ hends x (List.mem_cons_of_mem _ hx)

private theorem run_finishes {messages : List (World R × Message R)} (h : Settled s trace)
    (hentry : s.running[monitor]? = some entry) (hends : ∃ x ∈ messages, Ends monitor entry x.2) :
    .finished entry.token ∈ (s.run messages).2 := by
  induction messages generalizing s trace with
  | nil => obtain ⟨x, hx, -⟩ := hends; cases hx
  | cons first messages ih =>
    rw [State.run]
    refine List.mem_append.mpr ?_
    by_cases hfirst : Ends monitor entry first.2
    · exact .inl (handle_finishes first.1 hfirst hentry)
    · obtain ⟨x, hx, hxends⟩ := hends
      rcases List.mem_cons.mp hx with rfl | hx
      · exact absurd hxends hfirst
      · exact .inr (ih (h.handle first.1 first.2).1
          (handle_running first.1 hfirst hentry (h.monitors _ _ hentry)) ⟨x, hx, hxends⟩)

/-- One task frees one slot, at the first of the messages that end it. -/
theorem count_finishedToken (h : Settled s trace) (hentry : s.running[monitor]? = some entry)
    (messages : List (World R × Message R)) :
    ((∀ x ∈ messages, ¬ Ends monitor entry x.2) →
      ((s.run messages).2.filterMap Event.finishedToken).count entry.token = 0) ∧
    ((∃ x ∈ messages, Ends monitor entry x.2) →
      ((s.run messages).2.filterMap Event.finishedToken).count entry.token = 1) := by
  have hnodup := (h.run messages).1.nodup_tokens
  rw [List.filterMap_append, ← List.append_assoc] at hnodup
  obtain ⟨-, hlater, hdisjoint⟩ := List.nodup_append.mp hnodup
  refine ⟨fun hends ↦ List.count_eq_zero.mpr fun hmem ↦ ?_, fun hends ↦ ?_⟩
  · have hruns := mem_tokens (run_running h hentry hends)
    exact hdisjoint _ (List.mem_append_left _ hruns) _ hmem rfl
  · exact List.count_eq_one_of_mem hlater (mem_finishedToken.mpr (run_finishes h hentry hends))

end Running

/-! ### Places -/

/-- Where an accepted request can be. -/
inductive Place where
  | queued
  | running
  | finished
  | expired
  | startFailed
  deriving DecidableEq, Repr

/-- A request is in a place. -/
def State.At (s : State R) (trace : List (Event R)) (item : Item R) : Place → Prop
  | .queued => item ∈ s.queue
  | .running => ∃ (monitor : ℕ) (entry : Entry), s.running[monitor]? = some entry ∧ entry.token = item.token
  | .finished => .finished item.token ∈ trace
  | .expired => .expired item ∈ trace
  | .startFailed => .startFailed item ∈ trace

section Places

variable {s : State R} {trace : List (Event R)} {item : Item R}

private theorem mem_tokens_iff : item.token ∈ s.tokens ↔ s.At trace item .running := by
  rw [State.tokens, List.mem_map]
  constructor
  · rintro ⟨running, hmem, htoken⟩
    exact ⟨running.1, running.2, Std.TreeMap.mem_toList_iff_getElem?_eq_some.mp hmem, htoken⟩
  · rintro ⟨monitor, entry, hentry, htoken⟩
    exact ⟨(monitor, entry), Std.TreeMap.mem_toList_iff_getElem?_eq_some.mpr hentry, htoken⟩

private theorem mem_acceptedItem : item ∈ trace.filterMap Event.acceptedItem ↔ .accepted item ∈ trace := by
  rw [List.mem_filterMap]
  constructor
  · rintro ⟨event, hmem, h⟩
    cases event <;> cases h
    exact hmem
  · exact fun h ↦ ⟨_, h, rfl⟩

/-- An item is handled by one event. -/
theorem eq_of_handledItem {e e' : Event R} (h : (trace.filterMap Event.handledItem).Nodup) (he : e ∈ trace)
    (he' : e' ∈ trace) (hitem : e.handledItem = some item) (hitem' : e'.handledItem = some item) : e = e' := by
  induction trace with
  | nil => cases he
  | cons first trace ih =>
    have hlater : ∀ event ∈ trace, event.handledItem = some item → first.handledItem ≠ some item := by
      intro event hevent hhandled hfirst
      rw [List.filterMap_cons_some hfirst] at h
      exact (List.nodup_cons.mp h).1 (List.mem_filterMap.mpr ⟨event, hevent, hhandled⟩)
    rcases List.mem_cons.mp he with rfl | hmem
    · rcases List.mem_cons.mp he' with rfl | hmem'
      · rfl
      · exact absurd hitem (hlater e' hmem' hitem')
    · rcases List.mem_cons.mp he' with rfl | hmem'
      · exact absurd hitem' (hlater e hmem hitem)
      · refine ih (h.sublist ?_) hmem hmem'
        exact (List.sublist_cons_self first trace).filterMap _

/-- A started request runs or has finished. -/
theorem Settled.started_iff (h : Settled s trace) (hitem : .accepted item ∈ trace) :
    .started item ∈ trace ↔ s.At trace item .running ∨ s.At trace item .finished := by
  have hslots : item.token ∈ (trace.filterMap Event.startedItem).map Item.token ↔
      s.At trace item .running ∨ s.At trace item .finished := by
    rw [← h.slots.mem_iff, List.mem_append, @mem_tokens_iff _ _ trace, mem_finishedToken]
    exact .rfl
  rw [← hslots, List.mem_map]
  constructor
  · exact fun hstarted ↦ ⟨item, List.mem_filterMap.mpr ⟨_, hstarted, rfl⟩, rfl⟩
  · rintro ⟨other, hother, htoken⟩
    have hnodup : ((trace.filterMap Event.acceptedItem).map Item.token).Nodup := h.ascending.imp Nat.ne_of_lt
    obtain rfl := List.inj_on_of_nodup_map hnodup (h.sublist.subset hother) (mem_acceptedItem.mpr hitem) htoken
    obtain ⟨event, hmem, hevent⟩ := List.mem_filterMap.mp hother
    cases event <;> cases hevent
    exact hmem

/-- Every accepted request is in exactly one place. -/
theorem Settled.existsUnique_place (h : Settled s trace) (hitem : .accepted item ∈ trace) :
    ∃! place, s.At trace item place := by
  have hnodup : (trace.filterMap Event.handledItem ++ s.queue).Nodup := h.fifo ▸ h.nodup_accepted
  obtain ⟨hhandled, -, hdisjoint⟩ := List.nodup_append.mp hnodup
  have hstarted := h.started_iff hitem
  -- two events that handle the request are one, and none does while it is in the queue
  have hone : ∀ {e e' : Event R}, e ∈ trace → e' ∈ trace → e.handledItem = some item →
      e'.handledItem = some item → e = e' := eq_of_handledItem hhandled
  have hqueue : ∀ {e : Event R}, e ∈ trace → e.handledItem = some item → item ∉ s.queue :=
    fun hmem hevent hwaits ↦ hdisjoint _ (List.mem_filterMap.mpr ⟨_, hmem, hevent⟩) _ hwaits rfl
  have hslot : ¬ (s.At trace item .running ∧ s.At trace item .finished) := by
    rintro ⟨hruns, hdone⟩
    obtain ⟨-, -, hapart⟩ := List.nodup_append.mp h.nodup_tokens
    exact hapart _ (mem_tokens_iff.mpr hruns) _ (mem_finishedToken.mpr hdone) rfl
  have hmem := mem_acceptedItem.mpr hitem
  rw [← h.fifo, List.mem_append] at hmem
  rcases hmem with hmem | hwaits
  · obtain ⟨event, hevent, hhandles⟩ := List.mem_filterMap.mp hmem
    cases event with
    | started other =>
      obtain rfl := Option.some.inj hhandles
      have hrest : ∀ place, s.At trace other place → place = .running ∨ place = .finished := by
        intro place hplace
        cases place with
        | running => exact .inl rfl
        | finished => exact .inr rfl
        | queued => exact absurd hplace (hqueue hevent rfl)
        | expired => cases hone hevent hplace rfl rfl
        | startFailed => cases hone hevent hplace rfl rfl
      rcases hstarted.mp hevent with hruns | hdone
      · refine ⟨.running, hruns, fun place hplace ↦ (hrest place hplace).resolve_right ?_⟩
        rintro rfl
        exact hslot ⟨hruns, hplace⟩
      · refine ⟨.finished, hdone, fun place hplace ↦ (hrest place hplace).resolve_left ?_⟩
        rintro rfl
        exact hslot ⟨hplace, hdone⟩
    | expired other =>
      obtain rfl := Option.some.inj hhandles
      refine ⟨.expired, hevent, fun place hplace ↦ ?_⟩
      cases place with
      | expired => rfl
      | queued => exact absurd hplace (hqueue hevent rfl)
      | running => cases hone hevent (hstarted.mpr (.inl hplace)) rfl rfl
      | finished => cases hone hevent (hstarted.mpr (.inr hplace)) rfl rfl
      | startFailed => cases hone hevent hplace rfl rfl
    | startFailed other =>
      obtain rfl := Option.some.inj hhandles
      refine ⟨.startFailed, hevent, fun place hplace ↦ ?_⟩
      cases place with
      | startFailed => rfl
      | queued => exact absurd hplace (hqueue hevent rfl)
      | running => cases hone hevent (hstarted.mpr (.inl hplace)) rfl rfl
      | finished => cases hone hevent (hstarted.mpr (.inr hplace)) rfl rfl
      | expired => cases hone hevent hplace rfl rfl
    | accepted other => cases hhandles
    | finished token => cases hhandles
    | killed pid => cases hhandles
    | refreshed caller reply => cases hhandles
  · refine ⟨.queued, hwaits, fun place hplace ↦ ?_⟩
    cases place with
    | queued => rfl
    | running => exact absurd hwaits (hqueue (hstarted.mpr (.inl hplace)) rfl)
    | finished => exact absurd hwaits (hqueue (hstarted.mpr (.inr hplace)) rfl)
    | expired => exact absurd hwaits (hqueue hplace rfl)
    | startFailed => exact absurd hwaits (hqueue hplace rfl)

end Places

/-! ### Runs -/

/-- The request a message brings. -/
def Message.body : Message R → Option R
  | .request body => some body
  | .control _ => none

/-- A dispatcher as `init` leaves it. -/
def State.init (R : Type) (concurrency requestTimeout : ℕ) : State R := { concurrency, requestTimeout }

/-- What the outside answered when something happened to an item: it was started, or it was not, or it was dropped
past its time. -/
def Event.Justified (world : World R) (requestTimeout : ℕ) : Event R → Prop
  | .started item => (world.startChild item).isSome
  | .startFailed item => world.startChild item = none
  | .expired item => requestTimeout ≤ world.now item - item.receivedAt
  | _ => True

/-- What becomes of an item that is not queued. -/
def World.start (world : World R) (item : Item R) : Event R :=
  if (world.startChild item).isSome then .started item else .startFailed item

/-- What a run of a dispatcher with `n` slots keeps: `s` is its state and `trace` what has happened. -/
structure Dispatches (n requestTimeout : ℕ) (messages : List (World R × Message R)) (s : State R)
    (trace : List (Event R)) : Prop where
  bound : s.running.size ≤ n
  conserving : s.queue = [] ∨ s.running.size = n
  arrivals : (trace.filterMap Event.acceptedItem).map Item.body = messages.filterMap fun x ↦ x.2.body
  tokens : ((trace.filterMap Event.acceptedItem).map Item.token).Nodup
  starts : (trace.filterMap Event.startedItem).Sublist (trace.filterMap Event.acceptedItem)
  places : ∀ item, .accepted item ∈ trace → ∃! place, s.At trace item place
  justified : ∀ event ∈ trace, ∃ x ∈ messages, event.Justified x.1 requestTimeout
  free : s.running.size < n → ∀ (world : World R) (body : R),
    (s.handle world (.request body)).2 = [.accepted ⟨s.nextRef, body, world.arrival⟩,
      world.start ⟨s.nextRef, body, world.arrival⟩]
  slots : s.running.size + (trace.filterMap Event.finishedToken).length =
    (trace.filterMap Event.startedItem).length
  releases : ∀ monitor entry, s.running[monitor]? = some entry → ∀ later : List (World R × Message R),
    ((∀ x ∈ later, ¬ Ends monitor entry x.2) →
      ((s.run later).2.filterMap Event.finishedToken).count entry.token = 0) ∧
    ((∃ x ∈ later, Ends monitor entry x.2) →
      ((s.run later).2.filterMap Event.finishedToken).count entry.token = 1)

section Runs

variable {s : State R}

private theorem startRequest_accepts (world : World R) (item : Item R) (s : State R) :
    (s.startRequest world item).2.filterMap Event.acceptedItem = [] := by
  rw [State.startRequest]
  split <;> rfl

/-- A drain accepts nothing. -/
theorem drainFrom_accepts (world : World R) (queue : List (Item R)) (s : State R) :
    (State.drainFrom world queue s).2.filterMap Event.acceptedItem = [] := by
  induction queue generalizing s with
  | nil => rfl
  | cons item queue ih =>
    rw [State.drainFrom]
    split
    · rfl
    split
    · exact ih s
    · exact (List.filterMap_append ..).trans (by rw [startRequest_accepts, ih, List.append_nil])

private theorem handle_accepts (world : World R) (message : Message R) (s : State R) :
    ((s.handle world message).2.filterMap Event.acceptedItem).map Item.body = message.body.toList := by
  cases message with
  | request body =>
    have hdispatch : ∀ (item : Item R) (s : State R),
        (s.dispatchOrQueue world item).2.filterMap Event.acceptedItem = [] := by
      intro item s
      rw [State.dispatchOrQueue]
      split
      · exact startRequest_accepts world item s
      · rfl
    rw [State.handle, State.handleRequest]
    dsimp only
    simp only [List.filterMap_cons, Event.acceptedItem, hdispatch]
    rfl
  | control control =>
    have hrelease : ∀ monitor entry, (s.release world monitor entry).2.filterMap Event.acceptedItem = [] :=
      fun monitor entry ↦ drainFrom_accepts world s.queue { s with running := s.running.erase monitor }
    have hnone : (s.handleControl world control).2.filterMap Event.acceptedItem = [] := by
      cases control with
      | taskDone token =>
        rw [State.handleControl]
        split
        · rfl
        · exact hrelease _ _
      | down monitor =>
        rw [State.handleControl]
        split
        · rw [State.handleRefreshDown]
          split <;> rfl
        · exact hrelease _ _
      | ignored => rfl
      | taskTimeout token | refresh caller | refreshDone token ok | refreshTimeout token =>
        rw [State.handleControl]
        split <;> rfl
    rw [State.handle, hnone]
    rfl

private theorem run_accepts (messages : List (World R × Message R)) (s : State R) :
    ((s.run messages).2.filterMap Event.acceptedItem).map Item.body =
      messages.filterMap fun x ↦ x.2.body := by
  induction messages generalizing s with
  | nil => rfl
  | cons first messages ih =>
    have hfirst := handle_accepts first.1 first.2 s
    rw [State.run, List.filterMap_append, List.map_append, hfirst, ih]
    cases hbody : first.2.body <;> simp [hbody]

/-- An item that is not queued is started, or it is not. -/
theorem startRequest_spec (world : World R) (item : Item R) (s : State R) :
    (s.startRequest world item).2 = [world.start item] ∧
      (s.startRequest world item).1.requestTimeout = s.requestTimeout := by
  rw [State.startRequest, World.start]
  cases world.startChild item <;> exact ⟨rfl, rfl⟩

private theorem justified_start (world : World R) (item : Item R) (requestTimeout : ℕ) :
    (world.start item).Justified world requestTimeout := by
  rw [World.start]
  cases hchild : world.startChild item <;> simp [Event.Justified, hchild]

/-- A drain starts and drops items as the outside answers. -/
theorem justified_drainFrom (world : World R) (queue : List (Item R)) (s : State R) :
    (∀ event ∈ (State.drainFrom world queue s).2, event.Justified world s.requestTimeout) ∧
      (State.drainFrom world queue s).1.requestTimeout = s.requestTimeout := by
  induction queue generalizing s with
  | nil => exact ⟨nofun, rfl⟩
  | cons item queue ih =>
    rw [State.drainFrom]
    split
    · exact ⟨nofun, rfl⟩
    split
    · next hexpired =>
      obtain ⟨hrest, hsame⟩ := ih s
      exact ⟨List.forall_mem_cons.mpr ⟨hexpired, hrest⟩, hsame⟩
    · obtain ⟨hstart, hkept⟩ := startRequest_spec world item s
      obtain ⟨hrest, hsame⟩ := ih (s.startRequest world item).1
      rw [hkept] at hrest hsame
      refine ⟨List.forall_mem_append.mpr ⟨?_, hrest⟩, hsame⟩
      rw [hstart]
      exact List.forall_mem_singleton.mpr (justified_start world item _)

/-- A message is handled as the outside answers. -/
theorem justified_handle (world : World R) (message : Message R) (s : State R) :
    (∀ event ∈ (s.handle world message).2, event.Justified world s.requestTimeout) ∧
      (s.handle world message).1.requestTimeout = s.requestTimeout := by
  have hrelease : ∀ monitor entry,
      (∀ event ∈ (s.release world monitor entry).2, event.Justified world s.requestTimeout) ∧
        (s.release world monitor entry).1.requestTimeout = s.requestTimeout := by
    intro monitor entry
    obtain ⟨hdrain, hsame⟩ := justified_drainFrom world s.queue { s with running := s.running.erase monitor }
    exact ⟨List.forall_mem_cons.mpr ⟨trivial, hdrain⟩, hsame⟩
  cases message with
  | request body =>
    rw [State.handle, State.handleRequest]
    dsimp only
    rw [State.dispatchOrQueue]
    split
    · obtain ⟨hstart, hsame⟩ := startRequest_spec world ⟨s.nextRef, body, world.arrival⟩
        { s with nextRef := s.nextRef + 1 }
      rw [hstart]
      exact ⟨List.forall_mem_cons.mpr ⟨trivial, List.forall_mem_singleton.mpr (justified_start world _ _)⟩, hsame⟩
    · exact ⟨List.forall_mem_singleton.mpr trivial, rfl⟩
  | control control =>
    rw [State.handle]
    cases control with
    | taskDone token =>
      rw [State.handleControl]
      split
      · exact ⟨nofun, rfl⟩
      · exact hrelease _ _
    | down monitor =>
      rw [State.handleControl]
      split
      · rw [State.handleRefreshDown]
        split <;> simp [Event.Justified]
      · exact hrelease _ _
    | ignored => exact ⟨nofun, rfl⟩
    | taskTimeout token | refresh caller | refreshDone token ok | refreshTimeout token =>
      rw [State.handleControl]
      split <;> simp [Event.Justified]

/-- Whatever happens in a run, the outside has answered so for one of its messages. -/
theorem justified_run (messages : List (World R × Message R)) (s : State R) :
    ∀ event ∈ (s.run messages).2, ∃ x ∈ messages, event.Justified x.1 s.requestTimeout := by
  induction messages generalizing s with
  | nil => exact nofun
  | cons first messages ih =>
    obtain ⟨hfirst, hsame⟩ := justified_handle first.1 first.2 s
    have hrest := ih (s.handle first.1 first.2).1
    rw [hsame] at hrest
    refine List.forall_mem_append.mpr ⟨fun event hevent ↦ ⟨first, List.mem_cons_self, hfirst event hevent⟩,
      fun event hevent ↦ ?_⟩
    obtain ⟨x, hx, hjustified⟩ := hrest event hevent
    exact ⟨x, List.mem_cons_of_mem _ hx, hjustified⟩

/-- A request that finds a free slot is not queued. -/
theorem handle_free (hfree : s.running.size < s.concurrency) (world : World R) (body : R) :
    (s.handle world (.request body)).2 = [.accepted ⟨s.nextRef, body, world.arrival⟩,
      world.start ⟨s.nextRef, body, world.arrival⟩] := by
  rw [State.handle, State.handleRequest]
  dsimp only
  rw [State.dispatchOrQueue, if_pos (show ({ s with nextRef := s.nextRef + 1 } : State R).running.size < _ from hfree),
    (startRequest_spec world _ _).1]

/-- The run of a dispatcher from its start. -/
theorem run_dispatches (n requestTimeout : ℕ) (messages : List (World R × Message R)) :
    Dispatches n requestTimeout messages ((State.init R n requestTimeout).run messages).1
      ((State.init R n requestTimeout).run messages).2 := by
  have hinit : Settled (State.init R n requestTimeout) [] := by
    refine ⟨⟨Nat.zero_le _, rfl, .nil, .nil, by simp, fun monitor entry h ↦ ?_⟩, .inl rfl⟩
    simp [State.init] at h
  obtain ⟨h, hsame⟩ := hinit.run messages
  rw [List.nil_append] at h
  have hn : ((State.init R n requestTimeout).run messages).1.concurrency = n := hsame
  have hlength := h.slots.length_eq
  rw [List.length_append, State.tokens, List.length_map, Std.TreeMap.length_toList, List.length_map] at hlength
  exact {
    bound := h.bound.trans_eq hn
    conserving := h.conserving.imp_right fun hsize ↦ hsize.trans hn
    arrivals := run_accepts messages _
    tokens := h.ascending.imp Nat.ne_of_lt
    starts := h.sublist
    places := fun item hitem ↦ h.existsUnique_place hitem
    justified := justified_run messages (State.init R n requestTimeout)
    free := fun hfree world body ↦ handle_free (hfree.trans_eq hn.symm) world body
    slots := hlength
    releases := fun monitor entry hentry later ↦ count_finishedToken h hentry later }

end Runs

end Gitility.Dispatcher

namespace Gitility

open Dispatcher

/-- Both provider processes dispatch their requests in order, to as many slots as they have, whatever messages
come and whatever tasks fail to start. -/
theorem providers_dispatch (n requestTimeout : ℕ) :
    (∀ (config : OdbProvider.Config) (infos : List (World OdbProvider.Body × OdbProvider.Info)),
      Dispatches n requestTimeout (infos.map fun x ↦ (x.1, config.message x.2))
        (config.run (.init _ n requestTimeout) infos).1 (config.run (.init _ n requestTimeout) infos).2) ∧
    ∀ (refreshExported : Bool) (encode64 : Bytes → Bytes) (infos : List (World RefProvider.Body × RefProvider.Info)),
      Dispatches n requestTimeout (infos.map fun x ↦ (x.1, RefProvider.message refreshExported encode64 x.2))
        (RefProvider.run refreshExported encode64 (.init _ n requestTimeout) infos).1
        (RefProvider.run refreshExported encode64 (.init _ n requestTimeout) infos).2 :=
  ⟨fun config infos ↦ run_dispatches n requestTimeout (infos.map fun x ↦ (x.1, config.message x.2)),
    fun refreshExported encode64 infos ↦
      run_dispatches n requestTimeout (infos.map fun x ↦ (x.1, RefProvider.message refreshExported encode64 x.2))⟩

end Gitility
