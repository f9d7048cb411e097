import Mathlib.Data.List.Count
import Gitility.Provider.Rendezvous

/-!
# The sender of a request

The sender of a call is at one place at a time: with the caller, in the table, in the hands of one
thread, or gone. One action moves it at most one place on, and says so.
-/

namespace Gitility.Provider

variable {Payload : Type}

namespace PendingTable

variable {table : PendingTable} {id call : ℕ} {entry : ℕ × ℕ}

/-- A lookup finds the entry of the ID. -/
theorem get_eq_some (hkeys : (table.map Prod.fst).Nodup) :
    table.get id = some call ↔ (id, call) ∈ table := by
  constructor
  · intro h
    obtain ⟨⟨key, value⟩, hfind, rfl⟩ := Option.map_eq_some_iff.mp h
    have hkey : key = id := by simpa using List.find?_some hfind
    rw [← hkey]
    exact List.mem_of_find?_eq_some hfind
  · intro h
    have hany : (table.find? fun entry ↦ entry.1 = id).isSome :=
      List.find?_isSome.mpr ⟨_, h, by simp⟩
    obtain ⟨⟨key, value⟩, hfind⟩ := Option.isSome_iff_exists.mp hany
    have hkey : key = id := by simpa using List.find?_some hfind
    have hmem := List.mem_of_find?_eq_some hfind
    have heq := List.inj_on_of_nodup_map hkeys hmem h hkey
    rw [get, hfind, heq]
    rfl

/-- Removing an ID keeps the entries of the others. -/
theorem mem_remove : entry ∈ table.remove id ↔ entry ∈ table ∧ entry.1 ≠ id := by
  simp [remove]

/-- Inserting replaces the entry of the ID. -/
theorem mem_insert : entry ∈ table.insert id call ↔ entry = (id, call) ∨ entry ∈ table.remove id := by
  rw [insert, (List.perm_orderedInsert _ _ _).mem_iff, List.mem_cons]

/-- No ID is in the table twice after a removal. -/
theorem nodup_remove (h : (table.map Prod.fst).Nodup) : ((table.remove id).map Prod.fst).Nodup :=
  h.sublist (List.filter_sublist.map _)

/-- No ID is in the table twice after an insertion. -/
theorem nodup_insert (h : (table.map Prod.fst).Nodup) :
    ((table.insert id call).map Prod.fst).Nodup := by
  rw [insert, ((List.perm_orderedInsert _ _ _).map Prod.fst).nodup_iff, List.map_cons,
    List.nodup_cons]
  refine ⟨fun hmem ↦ ?_, nodup_remove h⟩
  obtain ⟨entry, hentry, heq⟩ := List.mem_map.mp hmem
  exact (mem_remove.mp hentry).2 heq

end PendingTable

namespace Act

/-- Actions of the thread whose `send_and_wait` is call `r`. -/
def Owns (r : ℕ) : Act Payload → Prop
  | .insert call | .ensureAlive call | .request call | .check call | .receive call
  | .cancel call _ | .abandon call => call = r
  | _ => False

/-- Actions of a thread that holds the sender of call `r`. -/
def isSend (r : ℕ) : Act Payload → Bool
  | .send call _ _ => call = r
  | _ => false

/-- Actions that may wait behind others. -/
def IsLater : Act Payload → Prop
  | .send .. | .finish => True
  | _ => False

/-- The call an action belongs to. -/
def about : Act Payload → Option ℕ
  | .insert call | .ensureAlive call | .request call | .check call | .receive call
  | .cancel call _ | .abandon call | .send call _ _ => some call
  | _ => none

variable {r : ℕ} {a : Act Payload}

private theorem IsLater.not_owns (h : a.IsLater) : ¬a.Owns r := by
  cases a <;> simp_all [IsLater, Owns]

/-- An action of the calling thread is about its call. -/
theorem Owns.about (h : a.Owns r) : a.about = some r := by
  cases a <;> simp_all [Owns, Act.about]

/-- A send is about its call. -/
theorem about_of_isSend (h : a.isSend r = true) : a.about = some r := by
  cases a <;> simp_all [isSend, Act.about]

end Act

/-- Where the sender of a call is. -/
inductive Loc where
  | fresh
  | listed
  | held (thread : ℕ)
  | gone
  deriving DecidableEq

/-- What the next action of an agenda owns. -/
def HeadOwns (r : ℕ) : List (Act Payload) → Prop
  | [] => False
  | a :: _ => a.Owns r

private theorem not_headOwns {r : ℕ} {rest : List (Act Payload)} (h : ∀ b ∈ rest, b.IsLater) :
    ¬HeadOwns r rest := by
  cases rest with
  | nil => exact id
  | cons b rest => exact (h b List.mem_cons_self).not_owns

/-- The sender of call `r` is at `loc`, and the thread `owner` waits for it until the call has
returned. -/
structure Kept (threads : ℕ → List (Act Payload)) (table : PendingTable) (r : ℕ)
    (request : Request Payload) (owner : ℕ) (loc : Loc) : Prop where
  owned : ∀ t, HeadOwns r (threads t) → t = owner
  waits : HeadOwns r (threads owner) ↔ request.result = none
  fresh : loc = .fresh ↔ (threads owner).head? = some (.insert r)
  listed : ∀ id, (id, r) ∈ table ↔ loc = .listed ∧ id = request.id
  held : ∀ t, (threads t).countP (Act.isSend r) = if loc = .held t then 1 else 0
  names : ∀ t id message, .send r (some id) message ∈ threads t → id = request.id
  sender : request.sender = true ↔ loc ≠ .gone
  buffer : loc ≠ .gone → request.buffer = none

/-- One thread takes an action: what has to be shown so that the sender is kept again. -/
theorem Kept.update {threads : ℕ → List (Act Payload)} {table table' : PendingTable} {r t : ℕ}
    {request request' : Request Payload} {owner : ℕ} {loc loc' : Loc} {a : Act Payload}
    {rest todo : List (Act Payload)} (h : Kept threads table r request owner loc)
    (ht : threads t = a :: rest) (hrest : ∀ b ∈ rest, b.IsLater)
    (hid : request'.id = request.id)
    (howns : HeadOwns r (todo ++ rest) ↔ a.Owns r ∧ request'.result = none)
    (hresult : ¬a.Owns r → request'.result = request.result)
    (hinsert : todo.head? ≠ some (.insert r))
    (hfresh : (a.Owns r → loc' ≠ .fresh) ∧ (¬a.Owns r → (loc' = .fresh ↔ loc = .fresh)))
    (hlisted : ∀ id, (id, r) ∈ table' ↔ loc' = .listed ∧ id = request.id)
    (hheld : (∀ u, u ≠ t → (loc' = .held u ↔ loc = .held u)) ∧
      todo.countP (Act.isSend r) + (if loc = .held t then 1 else 0) =
        (a.isSend r).toNat + if loc' = .held t then 1 else 0)
    (hnames : ∀ id message, .send r (some id) message ∈ todo → id = request.id)
    (hsender : request'.sender = true ↔ loc' ≠ .gone)
    (hbuffer : loc' ≠ .gone → request'.buffer = none) :
    Kept (Function.update threads t (todo ++ rest)) table' r request' owner loc' where
  owned u hu := by
    by_cases hut : u = t
    · subst u
      rw [Function.update_self] at hu
      exact h.owned t (by rw [ht]; exact (howns.mp hu).1)
    · rw [Function.update_of_ne hut] at hu
      exact h.owned u hu
  waits := by
    by_cases hto : t = owner
    · subst t
      rw [Function.update_self, howns]
      refine ⟨And.right, fun hnone ↦ ⟨?_, hnone⟩⟩
      by_contra ha
      rw [hresult ha, ← h.waits, ht] at hnone
      exact ha hnone
    · rw [Function.update_of_ne (Ne.symm hto), h.waits, hresult]
      intro ha
      exact hto (h.owned t (by rw [ht]; exact ha))
  fresh := by
    by_cases hto : t = owner
    · subst t
      rw [Function.update_self]
      refine iff_of_false ?_ ?_
      · by_cases ha : a.Owns r
        · exact hfresh.1 ha
        · rw [hfresh.2 ha, h.fresh, ht]
          rintro hhead
          obtain rfl := Option.some.inj hhead
          exact ha rfl
      · cases todo with
        | nil =>
          intro hhead
          exact hrest _ (List.mem_of_mem_head? (Option.mem_def.mpr hhead))
        | cons b todo => exact hinsert
    · have ha : ¬a.Owns r := fun ha ↦ hto (h.owned t (by rw [ht]; exact ha))
      rw [Function.update_of_ne (Ne.symm hto), hfresh.2 ha, h.fresh]
  listed id := by rw [hlisted, hid]
  held u := by
    by_cases hut : u = t
    · subst u
      have hold := h.held t
      rw [ht, List.countP_cons] at hold
      rw [Function.update_self, List.countP_append]
      have hcount := hheld.2
      have htoNat : (a.isSend r).toNat = if a.isSend r = true then 1 else 0 := by
        cases a.isSend r <;> rfl
      omega
    · rw [Function.update_of_ne hut, h.held u]
      simp only [hheld.1 u hut]
  names u id message hmem := by
    rw [hid]
    by_cases hut : u = t
    · subst u
      rw [Function.update_self, List.mem_append] at hmem
      rcases hmem with hmem | hmem
      · exact hnames id message hmem
      · exact h.names t id message (by rw [ht]; exact List.mem_cons_of_mem _ hmem)
    · rw [Function.update_of_ne hut] at hmem
      exact h.names u id message hmem
  sender := hsender
  buffer := hbuffer

/-- An action that leaves the call and the place of its sender alone. -/
theorem Kept.keep {threads : ℕ → List (Act Payload)} {table table' : PendingTable} {r t : ℕ}
    {request : Request Payload} {owner : ℕ} {loc : Loc} {a : Act Payload}
    {rest todo : List (Act Payload)} (h : Kept threads table r request owner loc)
    (ht : threads t = a :: rest) (hrest : ∀ b ∈ rest, b.IsLater)
    (howns : (∃ b ∈ todo.head?, b.Owns r) ↔ a.Owns r) (hnot : a ≠ .insert r)
    (hinsert : todo.head? ≠ some (.insert r))
    (hlisted : ∀ id, (id, r) ∈ table' ↔ (id, r) ∈ table)
    (hsends : todo.countP (Act.isSend r) = (a.isSend r).toNat)
    (hnames : ∀ id message, .send r (some id) message ∈ todo → id = request.id) :
    Kept (Function.update threads t (todo ++ rest)) table' r request owner loc := by
  have hnone (ha : a.Owns r) : t = owner ∧ request.result = none := by
    have htowner := h.owned t (by rw [ht]; exact ha)
    refine ⟨htowner, h.waits.mp ?_⟩
    rw [← htowner, ht]
    exact ha
  have hhead : HeadOwns r (todo ++ rest) ↔ a.Owns r := by
    rw [← howns]
    cases todo with
    | nil =>
      exact iff_of_false (not_headOwns hrest) (by simp)
    | cons b todo => simp [HeadOwns]
  refine h.update ht hrest rfl ?_ (fun _ ↦ rfl) hinsert ⟨fun ha ↦ ?_, fun _ ↦ Iff.rfl⟩
    (fun id ↦ (hlisted id).trans (h.listed id)) ⟨fun _ _ ↦ Iff.rfl, by rw [hsends]⟩ hnames h.sender
    h.buffer
  · exact hhead.trans ⟨fun ha ↦ ⟨ha, (hnone ha).2⟩, And.left⟩
  · rw [ne_eq, h.fresh, ← (hnone ha).1, ht]
    exact fun heq ↦ hnot (Option.some.inj heq)

/-- Another thread drops the sender of the call. -/
theorem Kept.drop {threads : ℕ → List (Act Payload)} {table table' : PendingTable} {r t : ℕ}
    {request : Request Payload} {owner : ℕ} {a : Act Payload} {rest todo : List (Act Payload)}
    (h : Kept threads table r request owner .listed) (ht : threads t = a :: rest)
    (hrest : ∀ b ∈ rest, b.IsLater) (ha : ¬a.Owns r) (hsend : a.isSend r = false)
    (htodo : ∀ b ∈ todo, ¬b.Owns r ∧ b.isSend r = false) (hgone : ∀ id, (id, r) ∉ table') :
    Kept (Function.update threads t (todo ++ rest)) table' r { request with sender := false } owner
      .gone := by
  have hcount : todo.countP (Act.isSend r) = 0 := by
    rw [List.countP_eq_zero]
    intro b hb
    rw [(htodo b hb).2]
    exact Bool.false_ne_true
  refine h.update ht hrest rfl (iff_of_false ?_ fun h ↦ ha h.1) (fun _ ↦ rfl) (fun hhead ↦ ?_)
    ⟨fun h ↦ absurd h ha, fun _ ↦ iff_of_false nofun nofun⟩
    (fun id ↦ iff_of_false (hgone id) nofun) ⟨fun _ _ ↦ iff_of_false nofun nofun, ?_⟩
    (fun id message hmem ↦ ?_) (iff_of_false nofun fun h ↦ h rfl) (fun h ↦ absurd rfl h)
  · cases todo with
    | nil => exact not_headOwns hrest
    | cons b todo => exact (htodo b List.mem_cons_self).1
  · exact (htodo _ (List.mem_of_mem_head? (Option.mem_def.mpr hhead))).1 rfl
  · rw [hcount, hsend]
    rfl
  · have := (htodo _ hmem).2
    simp [Act.isSend] at this

/-- The owner gives the call up. -/
theorem Kept.cancel {threads : ℕ → List (Act Payload)} {table table' : PendingTable} {r t : ℕ}
    {request : Request Payload} {owner : ℕ} {loc loc' : Loc} {a : Act Payload}
    {rest : List (Act Payload)} (h : Kept threads table r request owner loc)
    (ht : threads t = a :: rest) (hrest : ∀ b ∈ rest, b.IsLater) (ha : a.Owns r)
    (hsend : a.isSend r = false) (hgone : ∀ id, (id, r) ∉ table')
    (hloc : loc' ≠ .fresh ∧ loc' ≠ .listed) (hheld : ∀ u, loc' = .held u ↔ loc = .held u)
    (sender : Bool) (hsender : sender = true ↔ loc' ≠ .gone)
    (hbuffer : loc' ≠ .gone → request.buffer = none) (error : Error) :
    Kept (Function.update threads t ([] ++ rest)) table' r
      { request with sender, result := some (.error error) } owner loc' := by
  refine h.update ht hrest rfl (iff_of_false ?_ fun h ↦ by cases h.2) (fun h ↦ absurd ha h) nofun
    ⟨fun _ ↦ hloc.1, fun h ↦ absurd ha h⟩ (fun id ↦ iff_of_false (hgone id) fun h ↦ hloc.2 h.1)
    ⟨fun u _ ↦ hheld u, ?_⟩ (fun _ _ h ↦ absurd h List.not_mem_nil) hsender hbuffer
  · exact not_headOwns hrest
  · rw [hsend]
    simp only [hheld t]
    rfl

/-- Events that say nothing about call `r`. -/
def Event.Silent (r : ℕ) (event : Option (Event Payload)) : Prop :=
  ∀ id named message, event ≠ some (.taken r id) ∧ event ≠ some (.cancelled r) ∧
    event ≠ some (.delivered r named message)

private theorem Event.silent_none {r : ℕ} : Event.Silent r (none : Option (Event Payload)) :=
  fun _ _ _ ↦ ⟨nofun, nofun, nofun⟩

/-- What happens to a call and to its sender. -/
inductive Shift (r t : ℕ) : Option (Event Payload) → Request Payload → Loc → Request Payload →
    Loc → Prop where
  | keep {event : Option (Event Payload)} {request : Request Payload} {loc : Loc}
      (hevent : Event.Silent r event) : Shift r t event request loc request loc
  | insert {request : Request Payload} : Shift r t none request .fresh request .listed
  | drop {event : Option (Event Payload)} {request : Request Payload}
      (hevent : Event.Silent r event) :
      Shift r t event request .listed { request with sender := false } .gone
  | take {request : Request Payload} :
      Shift r t (some (.taken r request.id)) request .listed request (.held t)
  | drain {request : Request Payload} : Shift r t none request .listed request (.held t)
  | send {request : Request Payload} {named : Option ℕ} {message : Message Payload}
      (hnamed : ∀ id ∈ named, id = request.id) :
      Shift r t (some (.delivered r named message)) request (.held t)
        { request with buffer := some message, sender := false } .gone
  | receive {request : Request Payload} {message : Message Payload}
      (hbuffer : request.buffer = some message) :
      Shift r t (some (.ended r message)) request .gone
        { request with buffer := none, result := some message } .gone
  | cancel {request : Request Payload} {loc loc' : Loc} {error : Error} (sender : Bool)
      (hloc : loc' ≠ .fresh ∧ loc' ≠ .listed) (hgone : loc = .gone → loc' = .gone) :
      Shift r t (some (.cancelled r)) request loc
        { request with sender, result := some (.error error) } loc'

namespace Shared

variable {downError : Error} {s s' : Shared Payload} {failure : Option Error} {a : Act Payload}
  {rest todo : List (Act Payload)} {event : Option (Event Payload)} {r t owner : ℕ} {loc : Loc}
  {request : Request Payload} {threads : ℕ → List (Act Payload)}

/-- Only the request of the call is modified. -/
theorem getElem?_modify (s : Shared Payload) (call r : ℕ)
    (f : Request Payload → Request Payload) :
    (s.modify call f).requests[r]? =
      (s.requests[r]?).map fun request ↦ if call = r then f request else request := by
  rw [modify, List.getElem?_modify]
  rfl

private theorem getElem?_dropSender (s : Shared Payload) (id r : ℕ) :
    (s.dropSender id).requests[r]? = (s.requests[r]?).map fun request ↦
      if s.pending.get id = some r then { request with sender := false } else request := by
  unfold dropSender
  cases hget : s.pending.get id with
  | none => simp
  | some call => simp only [getElem?_modify, Option.some.injEq]

@[simp] private theorem pending_giveUp (s : Shared Payload) (call id : ℕ) (error : Error) :
    (s.giveUp call id error).pending = s.pending.remove id := rfl

/-- Giving up drops the sender that the table holds for the ID. -/
theorem getElem?_giveUp (s : Shared Payload) (call id r : ℕ) (error : Error) :
    (s.giveUp call id error).requests[r]? = (s.requests[r]?).map fun request ↦
      let request := if s.pending.get id = some r then { request with sender := false } else request
      if call = r then { request with result := some (.error error) } else request := by
  rw [giveUp, getElem?_modify]
  show ((s.dropSender id).requests[r]?).map _ = _
  rw [getElem?_dropSender, Option.map_map]
  rfl

/-- After the step the sender of call `r` has moved at most one place on and is kept again,
while thread `t` has `agenda` left to do. -/
def KeptOn (threads : ℕ → List (Act Payload)) (t : ℕ) (agenda : List (Act Payload)) (r owner : ℕ)
    (request : Request Payload) (loc : Loc) (s : Shared Payload)
    (event : Option (Event Payload)) : Prop :=
  ∃ request' loc', s.requests[r]? = some request' ∧ Shift r t event request loc request' loc' ∧
    Kept (Function.update threads t agenda) s.pending r request' owner loc'

/-- A call that is given up keeps no sender in the table. -/
theorem giveUp_kept {call : ℕ} {own : Request Payload} (error : Error)
    (hkeys : (s.pending.map Prod.fst).Nodup) (ht : threads t = a :: rest)
    (hrest : ∀ b ∈ rest, b.IsLater) (howns : ∀ r, a.Owns r ↔ call = r)
    (hsend : ∀ r, a.isSend r = false) (hinsert : ∀ r, a ≠ .insert r)
    (hown : s.requests[call]? = some own) (hrequest : s.requests[r]? = some request)
    (hk : Kept threads s.pending r request owner loc) :
    KeptOn threads t ([] ++ rest) r owner request loc (s.giveUp call own.id error)
      (some (.cancelled call)) := by
  have hget : s.pending.get own.id = some r ↔ (own.id, r) ∈ s.pending :=
    PendingTable.get_eq_some hkeys
  have hremoved (id : ℕ) (hlisted : loc = .listed → own.id = request.id) :
      (id, r) ∉ s.pending.remove own.id := by
    rw [PendingTable.mem_remove, hk.listed]
    rintro ⟨⟨hloc, hid⟩, hne⟩
    exact hne (hid.trans (hlisted hloc).symm)
  rw [KeptOn, getElem?_giveUp, hrequest, Option.map_some, pending_giveUp]
  by_cases hr : call = r
  · subst call
    obtain rfl := Option.some.inj (hown.symm.trans hrequest)
    have ha : a.Owns r := (howns r).mpr rfl
    have hfresh : loc ≠ .fresh := by
      rw [ne_eq, hk.fresh, ← hk.owned t (by rw [ht]; exact ha), ht]
      exact fun heq ↦ hinsert r (Option.some.inj heq)
    rw [if_pos rfl]
    by_cases hdrop : s.pending.get own.id = some r
    · rw [if_pos hdrop]
      obtain ⟨rfl, -⟩ := (hk.listed _).mp (hget.mp hdrop)
      refine ⟨_, .gone, rfl, .cancel false ⟨nofun, nofun⟩ nofun, ?_⟩
      refine hk.cancel ht hrest ha (hsend r) (fun id ↦ hremoved id fun _ ↦ rfl) ?_ ?_ false ?_ ?_ error
      · exact ⟨nofun, nofun⟩
      · exact fun _ ↦ iff_of_false nofun nofun
      · exact iff_of_false nofun fun h ↦ h rfl
      · exact fun h ↦ absurd rfl h
    · rw [if_neg hdrop]
      have hlisted : loc ≠ .listed := fun hloc ↦
        hdrop (hget.mpr ((hk.listed _).mpr ⟨hloc, rfl⟩))
      refine ⟨_, loc, rfl, .cancel own.sender ⟨hfresh, hlisted⟩ id, ?_⟩
      exact hk.cancel ht hrest ha (hsend r) (fun id ↦ hremoved id fun _ ↦ rfl) ⟨hfresh, hlisted⟩
        (fun _ ↦ Iff.rfl) own.sender hk.sender hk.buffer error
  · rw [if_neg hr]
    have hsilent : Event.Silent r (some (.cancelled call) : Option (Event Payload)) := by
      simp [Event.Silent, hr]
    have ha : ¬a.Owns r := fun ha ↦ hr ((howns r).mp ha)
    by_cases hdrop : s.pending.get own.id = some r
    · rw [if_pos hdrop]
      obtain ⟨rfl, hid⟩ := (hk.listed _).mp (hget.mp hdrop)
      refine ⟨_, .gone, rfl, .drop hsilent, ?_⟩
      exact hk.drop ht hrest ha (hsend r) (fun _ h ↦ absurd h List.not_mem_nil)
        (fun id ↦ hremoved id fun _ ↦ hid)
    · rw [if_neg hdrop]
      refine ⟨request, loc, rfl, .keep hsilent, ?_⟩
      refine hk.keep ht hrest (by simp [ha]) (hinsert r) nofun (fun id ↦ ?_) (by rw [hsend]; rfl)
        (fun _ _ h ↦ absurd h List.not_mem_nil)
      rw [PendingTable.mem_remove]
      refine ⟨And.left, fun hmem ↦ ⟨hmem, fun hid ↦ hdrop (hget.mpr ?_)⟩⟩
      rw [← show id = own.id from hid]
      exact hmem

/-- A drained table hands out each listed sender once. -/
theorem countP_drain (error : Error) (hkeys : (s.pending.map Prod.fst).Nodup)
    (hk : Kept threads s.pending r request owner loc) :
    (s.pending.map (fun entry : ℕ × ℕ ↦ (Act.send entry.2 none (.error error) : Act Payload)) ++
      [Act.finish]).countP (Act.isSend r) = if loc = .listed then 1 else 0 := by
  have hmap : (s.pending.map fun entry ↦ (.send entry.2 none (.error error) : Act Payload)).countP
      (Act.isSend r) = s.pending.countP fun entry ↦ entry.2 = r := by
    rw [List.countP_map]
    rfl
  rw [List.countP_append, hmap]
  show s.pending.countP (fun entry ↦ entry.2 = r) + 0 = _
  rw [Nat.add_zero]
  split
  · next hloc =>
    have hsame : s.pending.countP (fun entry ↦ entry.2 = r) = s.pending.count (request.id, r) := by
      apply List.countP_congr
      rintro ⟨id, call⟩ hentry
      simp only [decide_eq_true_eq, beq_iff_eq, Prod.mk.injEq]
      refine ⟨fun h ↦ ⟨?_, h⟩, And.right⟩
      subst call
      exact ((hk.listed id).mp hentry).2
    rw [hsame]
    exact List.count_eq_one_of_mem hkeys.of_map ((hk.listed _).mpr ⟨hloc, rfl⟩)
  · next hloc =>
    rw [List.countP_eq_zero]
    rintro ⟨id, call⟩ hentry hcall
    obtain rfl : call = r := by simpa using hcall
    exact hloc ((hk.listed id).mp hentry).1

/-- A new call leaves the senders of the others alone. -/
private theorem kept_fetchId
    (h : s.exec downError failure .fetchId = some (s', todo, event))
    (ht : threads t = .fetchId :: rest) (hrest : ∀ b ∈ rest, b.IsLater)
    (hrequest : s.requests[r]? = some request) (hk : Kept threads s.pending r request owner loc) :
    KeptOn threads t (todo ++ rest) r owner request loc s' event := by
  cases h
  have hlt := (List.getElem?_eq_some_iff.mp hrequest).1
  have hne : s.requests.length ≠ r := by omega
  refine ⟨request, loc, ?_, .keep Event.silent_none, ?_⟩
  · rw [List.getElem?_append_left hlt]
    exact hrequest
  · exact hk.keep ht hrest (by simp [Act.Owns, hne]) nofun (by simp [hne]) (fun _ ↦ Iff.rfl) rfl
      (by simp)

/-- An insertion lists the sender of its call and drops the one its id displaces. -/
private theorem kept_insert {call : ℕ}
    (h : s.exec downError failure (.insert call) = some (s', todo, event))
    (hkeys : (s.pending.map Prod.fst).Nodup) (ht : threads t = .insert call :: rest)
    (hrest : ∀ b ∈ rest, b.IsLater) (hrequest : s.requests[r]? = some request)
    (hk : Kept threads s.pending r request owner loc) :
    KeptOn threads t (todo ++ rest) r owner request loc s' event := by
  simp only [exec, Option.bind_eq_bind, Option.bind_eq_some_iff, pure] at h
  obtain ⟨own, hown, h⟩ := h
  cases h
  have hget : s.pending.get own.id = some r ↔ (own.id, r) ∈ s.pending :=
    PendingTable.get_eq_some hkeys
  by_cases hr : call = r
  · subst call
    obtain rfl := Option.some.inj (hown.symm.trans hrequest)
    have howner := hk.owned t (by rw [ht]; rfl)
    have hfresh : loc = .fresh := by
      rw [hk.fresh, ← howner, ht]
      rfl
    subst hfresh
    have hnot : s.pending.get own.id ≠ some r := by
      rw [ne_eq, hget, hk.listed]
      rintro ⟨h, -⟩
      cases h
    have hnone : own.result = none := by
      rw [← hk.waits, ← howner, ht]
      rfl
    refine ⟨own, .listed, ?_, .insert, ?_⟩
    · rw [getElem?_dropSender, hrequest, Option.map_some, if_neg hnot]
    · refine hk.update ht hrest rfl (iff_of_true rfl ⟨rfl, hnone⟩) (fun h ↦ absurd rfl h) (by simp)
        ⟨fun _ ↦ nofun, fun h ↦ absurd rfl h⟩ (fun id ↦ ?_)
        ⟨fun _ _ ↦ iff_of_false nofun nofun, rfl⟩ (by simp)
        (iff_of_true (hk.sender.mpr nofun) nofun) (fun _ ↦ hk.buffer nofun)
      rw [PendingTable.mem_insert, PendingTable.mem_remove, hk.listed]
      simp
  · by_cases hdrop : s.pending.get own.id = some r
    · obtain ⟨rfl, hid⟩ := (hk.listed _).mp (hget.mp hdrop)
      refine ⟨_, .gone, ?_, .drop Event.silent_none, hk.drop ht hrest hr rfl ?_ fun id hmem ↦ ?_⟩
      · rw [getElem?_dropSender, hrequest, Option.map_some, if_pos hdrop]
      · simp [Act.Owns, Act.isSend, hr]
      · rw [PendingTable.mem_insert, PendingTable.mem_remove, hk.listed] at hmem
        rcases hmem with heq | ⟨⟨-, hid'⟩, hne⟩
        · exact hr (congrArg Prod.snd heq).symm
        · exact hne (hid'.trans hid.symm)
    · refine ⟨request, loc, ?_, .keep Event.silent_none, ?_⟩
      · rw [getElem?_dropSender, hrequest, Option.map_some, if_neg hdrop]
      · refine hk.keep ht hrest (by simp [Act.Owns]) (by simpa using hr) (by simp) (fun id ↦ ?_) rfl
          (by simp)
        rw [PendingTable.mem_insert, PendingTable.mem_remove]
        constructor
        · rintro (heq | ⟨hmem, -⟩)
          · exact absurd (congrArg Prod.snd heq).symm hr
          · exact hmem
        · refine fun hmem ↦ .inr ⟨hmem, fun hid ↦ hdrop (hget.mpr ?_)⟩
          rw [← show id = own.id from hid]
          exact hmem

/-- A call that receives returns what was sent to it. -/
private theorem kept_receive {call : ℕ}
    (h : s.exec downError failure (.receive call) = some (s', todo, event))
    (ht : threads t = .receive call :: rest) (hrest : ∀ b ∈ rest, b.IsLater)
    (hrequest : s.requests[r]? = some request) (hk : Kept threads s.pending r request owner loc) :
    KeptOn threads t (todo ++ rest) r owner request loc s' event := by
  simp only [exec, Option.bind_eq_bind, Option.bind_eq_some_iff, pure] at h
  obtain ⟨own, hown, h⟩ := h
  cases hbuffer : own.buffer with
  | some message =>
    rw [hbuffer] at h
    cases h
    by_cases hr : call = r
    · subst call
      obtain rfl := Option.some.inj (hown.symm.trans hrequest)
      have hgone : loc = .gone := by
        by_contra hne
        rw [hk.buffer hne] at hbuffer
        cases hbuffer
      subst hgone
      refine ⟨_, .gone, by rw [getElem?_modify, hrequest, Option.map_some, if_pos rfl],
        .receive hbuffer, ?_⟩
      refine hk.update ht hrest rfl (iff_of_false ?_ fun h ↦ by cases h.2) (fun h ↦ absurd rfl h)
        nofun ⟨fun _ ↦ nofun, fun h ↦ absurd rfl h⟩ hk.listed ⟨fun _ _ ↦ Iff.rfl, rfl⟩
        (fun _ _ h ↦ absurd h List.not_mem_nil) hk.sender (fun h ↦ absurd rfl h)
      exact not_headOwns hrest
    · refine ⟨request, loc, by rw [getElem?_modify, hrequest, Option.map_some, if_neg hr],
        .keep (by simp [Event.Silent]), ?_⟩
      exact hk.keep ht hrest (by simp [Act.Owns, hr]) nofun (by simp) (fun _ ↦ Iff.rfl) rfl (by simp)
  | none =>
    rw [hbuffer] at h
    dsimp only at h
    split at h <;> cases h
    · refine ⟨request, loc, hrequest, .keep Event.silent_none, ?_⟩
      exact hk.keep ht hrest (by simp [Act.Owns]) nofun (by simp) (fun _ ↦ Iff.rfl) rfl (by simp)
    · refine ⟨request, loc, hrequest, .keep Event.silent_none, ?_⟩
      exact hk.keep ht hrest (by simp [Act.Owns]) nofun (by simp) (fun _ ↦ Iff.rfl) rfl (by simp)

/-- A reply takes the sender its id lists and no other. -/
private theorem kept_reply {id : ℕ} {message : Message Payload}
    (h : s.exec downError failure (.reply id message) = some (s', todo, event))
    (hkeys : (s.pending.map Prod.fst).Nodup) (ht : threads t = .reply id message :: rest)
    (hrest : ∀ b ∈ rest, b.IsLater) (hrequest : s.requests[r]? = some request)
    (hk : Kept threads s.pending r request owner loc) :
    KeptOn threads t (todo ++ rest) r owner request loc s' event := by
  simp only [exec] at h
  cases hget : s.pending.get id with
  | none =>
    rw [hget] at h
    cases h
    refine ⟨request, loc, hrequest, .keep Event.silent_none, ?_⟩
    exact hk.keep ht hrest (by simp [Act.Owns]) nofun (by simp) (fun _ ↦ Iff.rfl) rfl (by simp)
  | some call =>
    rw [hget] at h
    cases h
    have hmem := (PendingTable.get_eq_some hkeys).mp hget
    by_cases hr : call = r
    · subst call
      obtain ⟨rfl, rfl⟩ := (hk.listed _).mp hmem
      refine ⟨request, .held t, hrequest, .take, ?_⟩
      refine hk.update ht hrest rfl (iff_of_false (by simp [HeadOwns, Act.Owns]) fun h ↦ h.1)
        (fun _ ↦ rfl) (by simp) ⟨fun h ↦ h.elim, fun _ ↦ iff_of_false nofun nofun⟩ (fun id ↦ ?_)
        ⟨fun u hu ↦ iff_of_false (fun h ↦ hu (Loc.held.inj h).symm) nofun, ?_⟩ (by simp)
        (iff_of_true (hk.sender.mpr nofun) nofun) (fun _ ↦ hk.buffer nofun)
      · rw [PendingTable.mem_remove, hk.listed]
        refine iff_of_false (fun h ↦ h.2 h.1.2) nofun
      · simp [Act.isSend]
    · refine ⟨request, loc, hrequest, .keep (by simp [Event.Silent, hr]), ?_⟩
      refine hk.keep ht hrest (by simp [Act.Owns]) nofun (by simp) (fun id' ↦ ?_)
        (by simp [Act.isSend, hr]) (by simp [Ne.symm hr])
      rw [PendingTable.mem_remove]
      refine ⟨And.left, fun hmem' ↦ ⟨hmem', fun hid ↦ hr ?_⟩⟩
      exact congrArg Prod.snd (List.inj_on_of_nodup_map hkeys hmem hmem' hid.symm)

/-- A sender that is held fills the buffer of its call and is used up. -/
private theorem kept_send {call : ℕ} {named : Option ℕ} {message : Message Payload}
    (h : s.exec downError failure (.send call named message) = some (s', todo, event))
    (ht : threads t = .send call named message :: rest) (hrest : ∀ b ∈ rest, b.IsLater)
    (hrequest : s.requests[r]? = some request) (hk : Kept threads s.pending r request owner loc) :
    KeptOn threads t (todo ++ rest) r owner request loc s' event := by
  simp only [exec, Option.bind_eq_bind, Option.bind_eq_some_iff, pure] at h
  obtain ⟨own, hown, h⟩ := h
  split at h
  · cases h
  · cases h
    by_cases hr : call = r
    · subst call
      obtain rfl := Option.some.inj (hown.symm.trans hrequest)
      have hheld : loc = .held t := by
        have hcount := hk.held t
        rw [ht, List.countP_cons] at hcount
        by_contra hne
        simp [hne, Act.isSend] at hcount
      subst hheld
      refine ⟨_, .gone, by rw [getElem?_modify, hrequest, Option.map_some, if_pos rfl], .send ?_, ?_⟩
      · rintro id rfl
        exact hk.names t id message (by rw [ht]; exact List.mem_cons_self)
      · refine hk.update ht hrest rfl (iff_of_false (not_headOwns hrest) fun h ↦ h.1)
          (fun _ ↦ rfl) nofun ⟨fun h ↦ h.elim, fun _ ↦ iff_of_false nofun nofun⟩ (fun id ↦ ?_)
          ⟨fun u hu ↦ iff_of_false nofun (fun h ↦ hu (Loc.held.inj h).symm), ?_⟩
          (fun _ _ h ↦ absurd h List.not_mem_nil) (iff_of_false nofun fun h ↦ h rfl)
          (fun h ↦ absurd rfl h)
        · show (id, r) ∈ s.pending ↔ _
          rw [hk.listed]
          exact iff_of_false nofun nofun
        · simp [Act.isSend]
    · refine ⟨request, loc, by rw [getElem?_modify, hrequest, Option.map_some, if_neg hr],
        .keep (by simp [Event.Silent, hr]), ?_⟩
      exact hk.keep ht hrest (by simp [Act.Owns]) nofun (by simp) (fun _ ↦ Iff.rfl)
        (by simp [Act.isSend, hr]) (by simp)

/-- A drain takes every listed sender. -/
private theorem kept_drain {error : Error}
    (h : s.exec downError failure (.drain error) = some (s', todo, event))
    (hkeys : (s.pending.map Prod.fst).Nodup) (ht : threads t = .drain error :: rest)
    (hrest : ∀ b ∈ rest, b.IsLater) (hrequest : s.requests[r]? = some request)
    (hk : Kept threads s.pending r request owner loc) :
    KeptOn threads t (todo ++ rest) r owner request loc s' event := by
  cases h
  have hcount := countP_drain error hkeys hk
  have hhead : ¬HeadOwns r ((s.pending.map (fun entry : ℕ × ℕ ↦
      (Act.send entry.2 none (.error error) : Act Payload)) ++ [Act.finish]) ++ rest) := by
    cases s.pending <;> exact id
  have hnames : ∀ id message, (Act.send r (some id) message : Act Payload) ∉
      s.pending.map (fun entry ↦ Act.send entry.2 none (.error error)) ++ [.finish] := by
    simp
  have hinsert : (s.pending.map (fun entry : ℕ × ℕ ↦
      (Act.send entry.2 none (.error error) : Act Payload)) ++ [Act.finish]).head? ≠
        some (.insert r) := by
    cases s.pending <;> simp
  by_cases hlisted : loc = .listed
  · subst hlisted
    refine ⟨request, .held t, hrequest, .drain, ?_⟩
    refine hk.update ht hrest rfl (iff_of_false hhead fun h ↦ h.1) (fun _ ↦ rfl) hinsert
      ⟨fun h ↦ h.elim, fun _ ↦ iff_of_false nofun nofun⟩
      (fun id ↦ iff_of_false List.not_mem_nil nofun)
      ⟨fun u hu ↦ iff_of_false (fun h ↦ hu (Loc.held.inj h).symm) nofun, ?_⟩
      (fun id message hmem ↦ absurd hmem (hnames id message))
      (iff_of_true (hk.sender.mpr nofun) nofun) (fun _ ↦ hk.buffer nofun)
    rw [hcount]
    simp [Act.isSend]
  · refine ⟨request, loc, hrequest, .keep Event.silent_none, ?_⟩
    rw [if_neg hlisted] at hcount
    refine hk.update ht hrest rfl (iff_of_false hhead fun h ↦ h.1) (fun _ ↦ rfl) hinsert
      ⟨fun h ↦ h.elim, fun _ ↦ Iff.rfl⟩
      (fun id ↦ iff_of_false List.not_mem_nil fun h ↦ hlisted h.1) ⟨fun _ _ ↦ Iff.rfl, ?_⟩
      (fun id message hmem ↦ absurd hmem (hnames id message)) hk.sender hk.buffer
    rw [hcount]
    rfl

/-- One action moves the sender of a call at most one place on. -/
theorem exec_kept (h : s.exec downError failure a = some (s', todo, event))
    (hkeys : (s.pending.map Prod.fst).Nodup) (ht : threads t = a :: rest)
    (hrest : ∀ b ∈ rest, b.IsLater) (hrequest : s.requests[r]? = some request)
    (hk : Kept threads s.pending r request owner loc) :
    KeptOn threads t (todo ++ rest) r owner request loc s' event := by
  cases a with
  | fetchId => exact kept_fetchId h ht hrest hrequest hk
  | ensureAlive call =>
    simp only [exec] at h
    split at h <;> cases h
    · refine ⟨request, loc, hrequest, .keep Event.silent_none, ?_⟩
      exact hk.keep ht hrest (by simp [Act.Owns]) nofun (by simp) (fun _ ↦ Iff.rfl) rfl (by simp)
    · refine ⟨request, loc, hrequest, .keep Event.silent_none, ?_⟩
      exact hk.keep ht hrest (by simp [Act.Owns]) nofun (by simp) (fun _ ↦ Iff.rfl) rfl (by simp)
  | request call | check call =>
    cases failure <;>
    · cases h
      refine ⟨request, loc, hrequest, .keep Event.silent_none, ?_⟩
      exact hk.keep ht hrest (by simp [Act.Owns]) nofun (by simp) (fun _ ↦ Iff.rfl) rfl (by simp)
  | skipId | storeDead | finish =>
    cases h
    refine ⟨request, loc, hrequest, .keep Event.silent_none, ?_⟩
    exact hk.keep ht hrest (by simp [Act.Owns]) nofun (by simp) (fun _ ↦ Iff.rfl) rfl (by simp)
  | insert _ => exact kept_insert h hkeys ht hrest hrequest hk
  | receive _ => exact kept_receive h ht hrest hrequest hk
  | cancel call error | abandon call =>
    simp only [exec, Option.bind_eq_bind, Option.bind_eq_some_iff, pure] at h
    obtain ⟨own, hown, h⟩ := h
    cases h
    exact giveUp_kept _ hkeys ht hrest (fun _ ↦ Iff.rfl) (fun _ ↦ rfl) (fun _ ↦ nofun) hown hrequest hk
  | reply _ _ => exact kept_reply h hkeys ht hrest hrequest hk
  | send _ _ _ => exact kept_send h ht hrest hrequest hk
  | drain _ => exact kept_drain h hkeys ht hrest hrequest hk

end Shared

end Gitility.Provider
