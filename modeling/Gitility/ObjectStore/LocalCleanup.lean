import Mathlib.Algebra.Order.BigOperators.Group.List
import Gitility.Base.Progress
import Gitility.ObjectStore.LocalLeases
import Gitility.ObjectStore.LocalRuns

/-!
# What ended tasks leave

The server monitors exactly the processes that pin or hold. So nothing of a task stays when it has ended:
once its messages and the end of its process are handled, it has no pin and no hold, and a server without
tasks becomes idle.
-/

namespace Gitility.LocalStore

variable {sha256 : Bytes → Bytes} {past : List (World × Move)} {w w' : World} {i : ℕ} {c c' : Client}
  {move : Move} {version version' : Bytes}

/-! ### The server -/

namespace Server

variable {s t : Server} {objects : Objects} {holder monitor ref x : ℕ} {request : Request}
  {fault : Option AdapterReason}

/-- A process pins a version or holds. -/
def Active (s : Server) (holder : ℕ) : Prop :=
  (∃ version, s.PinnedBy version holder) ∨ ∃ ref claimed, s.holds.lookup ref = some (holder, claimed)

/-- What the server keeps of its processes. -/
structure Tidy (s : Server) : Prop where
  monitored : ∀ holder, (s.monitors.lookup holder).isSome ↔ s.Active holder
  pinned : ∀ version holders, s.pins.lookup version = some holders → holders.entries ≠ []
  counted : ∀ version holders holder count, s.pins.lookup version = some holders →
    holders.lookup holder = some count → 0 < count

private theorem holderActive_iff : s.holderActive holder = true ↔ s.Active holder := by
  unfold holderActive Active PinnedBy
  rw [Bool.or_eq_true, List.any_eq_true, List.any_eq_true]
  refine or_congr ⟨?_, ?_⟩ ⟨?_, ?_⟩
  · rintro ⟨⟨version, holders⟩, hmem, hkey⟩
    refine ⟨version, holders, AList.mem_lookup_iff.mpr hmem, AList.lookup_isSome.mpr ?_⟩
    simpa [AList.mem_keys] using hkey
  · rintro ⟨version, holders, hlookup, hholder⟩
    refine ⟨⟨version, holders⟩, AList.mem_lookup_iff.mp hlookup, ?_⟩
    simpa [AList.mem_keys] using AList.lookup_isSome.mp hholder
  · rintro ⟨⟨ref, owner, claimed⟩, hmem, howner⟩
    obtain rfl : owner = holder := by simpa using howner
    exact ⟨ref, claimed, AList.mem_lookup_iff.mpr hmem⟩
  · rintro ⟨ref, claimed, hlookup⟩
    exact ⟨⟨ref, holder, claimed⟩, AList.mem_lookup_iff.mp hlookup, by simp⟩

private theorem Active.congr (h : s.Active x) (hpins : t.pins = s.pins) (hholds : t.holds = s.holds) :
    t.Active x := by
  unfold Active PinnedBy at *
  rwa [hpins, hholds]

/-- A server that takes a process on monitors it. -/
theorem Tidy.monitorHolder (h : s.Tidy) (hmonitors : t.monitors = s.monitors)
    (hactive : ∀ x, t.Active x ↔ s.Active x ∨ x = holder)
    (hpinned : ∀ version holders, t.pins.lookup version = some holders → holders.entries ≠ [])
    (hcounted : ∀ version holders holder count, t.pins.lookup version = some holders →
      holders.lookup holder = some count → 0 < count) : (t.monitorHolder holder monitor).Tidy where
  monitored x := by
    have hsame : (t.monitorHolder holder monitor).Active x ↔ t.Active x :=
      ⟨fun h ↦ h.congr pins_monitorHolder.symm holds_monitorHolder.symm,
        fun h ↦ h.congr pins_monitorHolder holds_monitorHolder⟩
    rw [hsame, hactive, ← h.monitored]
    unfold Server.monitorHolder
    rw [hmonitors]
    by_cases hx : x = holder
    · subst hx
      split
      · next hsome => simp [hmonitors, hsome]
      · simp
    · split
      · simp [hmonitors, hx]
      · simp [AList.lookup_insert_ne hx, hx]
  pinned := by simpa using hpinned
  counted := by simpa using hcounted

/-- A server that lets a process go monitors it while it has something else. -/
theorem Tidy.demonitorInactiveHolder (h : s.Tidy) (hmonitors : t.monitors = s.monitors)
    (hothers : ∀ x, x ≠ holder → (t.Active x ↔ s.Active x)) (hfewer : t.Active holder → s.Active holder)
    (hpinned : ∀ version holders, t.pins.lookup version = some holders → holders.entries ≠ [])
    (hcounted : ∀ version holders holder count, t.pins.lookup version = some holders →
      holders.lookup holder = some count → 0 < count) : (t.demonitorInactiveHolder holder).Tidy where
  monitored x := by
    have hsame : (t.demonitorInactiveHolder holder).Active x ↔ t.Active x :=
      ⟨fun h ↦ h.congr pins_demonitorInactiveHolder.symm holds_demonitorInactiveHolder.symm,
        fun h ↦ h.congr pins_demonitorInactiveHolder holds_demonitorInactiveHolder⟩
    rw [hsame]
    unfold Server.demonitorInactiveHolder
    by_cases hx : x = holder
    · subst hx
      split
      · next hactive =>
        have hkept := holderActive_iff.mp hactive
        simp [hmonitors, h.monitored, hkept, hfewer hkept]
      · next hinactive =>
        have hgone : ¬ t.Active x := fun hkept ↦ hinactive (holderActive_iff.mpr hkept)
        simp [hgone]
    · rw [hothers x hx, ← h.monitored]
      split
      · rw [hmonitors]
      · simp [AList.lookup_erase_ne hx, hmonitors]
  pinned := by simpa using hpinned
  counted := by simpa using hcounted

/-! ### Pins -/

private theorem pinnedBy_addPin : (s.addPin version holder monitor).PinnedBy version' x ↔
    s.PinnedBy version' x ∨ version' = version ∧ x = holder := by
  constructor
  · rintro ⟨holders, hlookup, hholder⟩
    unfold Server.addPin at hlookup
    rw [pins_monitorHolder] at hlookup
    by_cases hversion : version' = version
    · subst hversion
      rw [AList.lookup_insert, Option.some.injEq] at hlookup
      subst hlookup
      by_cases hx : x = holder
      · exact .inr ⟨rfl, hx⟩
      · rw [AList.lookup_insert_ne hx] at hholder
        left
        cases hfound : s.pins.lookup version' with
        | none => simp [hfound] at hholder
        | some found => exact ⟨found, hfound, by simpa [hfound] using hholder⟩
    · rw [AList.lookup_insert_ne hversion] at hlookup
      exact .inl ⟨holders, hlookup, hholder⟩
  · rintro (h | ⟨rfl, rfl⟩)
    · exact h.addPin
    · exact pinnedBy_addPin_self

/-- What an `unpin` leaves of the pins. -/
theorem lookup_pinsWithout {holders : Holders}
    (h : (s.pinsWithout version holder).lookup version' = some holders) :
    s.pins.lookup version' = some holders ∨
      version' = version ∧ ∃ old count, s.pins.lookup version = some old ∧ old.lookup holder = some count ∧
        holders.entries ≠ [] ∧
        (count = 1 ∧ holders = old.erase holder ∨ count ≠ 1 ∧ holders = old.insert holder (count - 1)) := by
  unfold pinsWithout at h
  split at h
  · next old hold =>
    split at h
    · next count hcount =>
      generalize hleft : (if count = 1 then old.erase holder else old.insert holder (count - 1)) = left at h
      by_cases hversion : version' = version
      · subst hversion
        right
        dsimp only at h
        split at h
        · simp at h
        · next hne =>
          rw [AList.lookup_insert, Option.some.injEq] at h
          subst h
          refine ⟨rfl, old, count, hold, hcount, by simpa using hne, ?_⟩
          split at hleft
          · exact .inl ⟨‹_›, hleft.symm⟩
          · exact .inr ⟨‹_›, hleft.symm⟩
      · left
        dsimp only at h
        split at h
        · rwa [AList.lookup_erase_ne hversion] at h
        · rwa [AList.lookup_insert_ne hversion] at h
    · exact .inl h
  · exact .inl h

private theorem pinnedBy_of_removePin (h : (s.removePin version holder).PinnedBy version' x) :
    s.PinnedBy version' x := by
  obtain ⟨holders, hlookup, hholder⟩ := h
  unfold Server.removePin at hlookup
  rw [pins_demonitorInactiveHolder] at hlookup
  rcases lookup_pinsWithout hlookup with hold | ⟨rfl, old, count, hold, hcount, -, hleft⟩
  · exact ⟨holders, hold, hholder⟩
  · refine ⟨old, hold, ?_⟩
    by_cases hx : x = holder
    · subst hx
      rw [hcount]
      rfl
    · rcases hleft with ⟨-, rfl⟩ | ⟨-, rfl⟩
      · rwa [AList.lookup_erase_ne hx] at hholder
      · rwa [AList.lookup_insert_ne hx] at hholder

private theorem Tidy.addPin (h : s.Tidy) : (s.addPin version holder monitor).Tidy := by
  have hpins : ∀ version' holders, (s.addPin version holder monitor).pins.lookup version' = some holders →
      holders.entries ≠ [] ∧ ∀ x count, holders.lookup x = some count → 0 < count := by
    intro version' holders hlookup
    unfold Server.addPin at hlookup
    rw [pins_monitorHolder] at hlookup
    by_cases hversion : version' = version
    · subst hversion
      rw [AList.lookup_insert, Option.some.injEq] at hlookup
      subst hlookup
      refine ⟨by simp, fun x count hcount ↦ ?_⟩
      by_cases hx : x = holder
      · subst hx
        rw [AList.lookup_insert, Option.some.injEq] at hcount
        cases hold : ((s.pins.lookup version').getD ∅).lookup x <;> simp [hold] at hcount <;> omega
      · rw [AList.lookup_insert_ne hx] at hcount
        cases hfound : s.pins.lookup version' with
        | none => simp [hfound] at hcount
        | some found => exact h.counted version' found x count hfound (by simpa [hfound] using hcount)
    · rw [AList.lookup_insert_ne hversion] at hlookup
      exact ⟨h.pinned version' holders hlookup, fun x count ↦ h.counted version' holders x count hlookup⟩
  have hactive : ∀ x, (s.addPin version holder monitor).Active x ↔ s.Active x ∨ x = holder := by
    intro x
    have hholds : (s.addPin version holder monitor).holds = s.holds := holds_monitorHolder
    unfold Active
    rw [hholds]
    simp only [pinnedBy_addPin, exists_or, exists_eq_left]
    exact or_right_comm
  unfold Server.addPin at hpins hactive ⊢
  refine h.monitorHolder rfl (fun x ↦ Iff.trans ?_ (hactive x)) ?_ ?_
  · exact ⟨fun h ↦ h.congr pins_monitorHolder holds_monitorHolder,
      fun h ↦ h.congr pins_monitorHolder.symm holds_monitorHolder.symm⟩
  · intro version' holders hlookup
    exact (hpins version' holders (by rwa [pins_monitorHolder])).1
  · intro version' holders x count hlookup
    exact (hpins version' holders (by rwa [pins_monitorHolder])).2 x count

private theorem Tidy.removePin (h : s.Tidy) : (s.removePin version holder).Tidy := by
  have hactive : ∀ x, Active { s with pins := s.pinsWithout version holder } x →
      s.Active x := by
    rintro x (⟨version', hpinned⟩ | hheld)
    · have hkept : (s.removePin version holder).PinnedBy version' x := by
        unfold Server.removePin PinnedBy
        rwa [pins_demonitorInactiveHolder]
      exact .inl ⟨version', pinnedBy_of_removePin hkept⟩
    · exact .inr hheld
  refine h.demonitorInactiveHolder rfl (fun x hx ↦ ⟨hactive x, ?_⟩) (hactive holder) ?_ ?_
  · rintro (⟨version', hpinned⟩ | hheld)
    · left
      have hkept : (s.removePin version holder).PinnedBy version' x := hpinned.removePin hx
      unfold Server.removePin PinnedBy at hkept
      rw [pins_demonitorInactiveHolder] at hkept
      exact ⟨version', hkept⟩
    · exact .inr hheld
  · intro version' holders hlookup
    rcases lookup_pinsWithout hlookup with hold | ⟨-, old, count, -, -, hne, -⟩
    · exact h.pinned version' holders hold
    · exact hne
  · intro version' holders x count hlookup hcount
    rcases lookup_pinsWithout hlookup with hold | ⟨rfl, old, n, hold, hn, -, hleft⟩
    · exact h.counted version' holders x count hold hcount
    · by_cases hx : x = holder
      · subst hx
        have hpos := h.counted version' old x n hold hn
        rcases hleft with ⟨-, rfl⟩ | ⟨hone, rfl⟩
        · simp at hcount
        · rw [AList.lookup_insert, Option.some.injEq] at hcount
          omega
      · refine h.counted version' old x count hold ?_
        rcases hleft with ⟨-, rfl⟩ | ⟨-, rfl⟩
        · rwa [AList.lookup_erase_ne hx] at hcount
        · rwa [AList.lookup_insert_ne hx] at hcount

/-! ### Holds -/

private theorem Tidy.addHold (h : s.Tidy) (hfree : s.holds.lookup ref = none) :
    (s.addHold ref holder monitor).Tidy := by
  refine h.monitorHolder rfl (fun x ↦ ?_) h.pinned h.counted
  unfold Active PinnedBy
  dsimp only
  constructor
  · rintro (hpinned | ⟨ref', claimed, hlookup⟩)
    · exact .inl (.inl hpinned)
    · by_cases href : ref' = ref
      · subst href
        rw [AList.lookup_insert] at hlookup
        cases hlookup
        exact .inr rfl
      · rw [AList.lookup_insert_ne href] at hlookup
        exact .inl (.inr ⟨ref', claimed, hlookup⟩)
  · rintro ((hpinned | ⟨ref', claimed, hlookup⟩) | rfl)
    · exact .inl hpinned
    · refine .inr ⟨ref', claimed, ?_⟩
      rw [AList.lookup_insert_ne]
      · exact hlookup
      · rintro rfl
        rw [hfree] at hlookup
        cases hlookup
    · exact .inr ⟨ref, none, AList.lookup_insert _⟩

private theorem Tidy.removeHold (h : s.Tidy) : (s.removeHold ref holder).Tidy := by
  unfold Server.removeHold
  split
  · next hold hlookup =>
    split
    · next howner =>
      have hfewer : ∀ x, Active { s with holds := s.holds.erase ref } x → s.Active x := by
        rintro x (hpinned | ⟨ref', claimed, hkept⟩)
        · exact .inl hpinned
        · right
          by_cases href : ref' = ref
          · subst href
            simp at hkept
          · exact ⟨ref', claimed, by simpa [AList.lookup_erase_ne href] using hkept⟩
      refine h.demonitorInactiveHolder rfl (fun x hx ↦ ⟨hfewer x, ?_⟩) (hfewer holder) h.pinned h.counted
      rintro (hpinned | ⟨ref', claimed, hheld⟩)
      · exact .inl hpinned
      · refine .inr ⟨ref', claimed, ?_⟩
        rw [AList.lookup_erase_ne]
        · exact hheld
        · rintro rfl
          obtain rfl := Option.some.inj (hlookup.symm.trans hheld)
          exact hx howner
    · exact h.demonitorInactiveHolder rfl (fun _ _ ↦ Iff.rfl) id h.pinned h.counted
  · exact h.demonitorInactiveHolder rfl (fun _ _ ↦ Iff.rfl) id h.pinned h.counted

private theorem active_claim (hlookup : s.holds.lookup ref = some (holder, none)) :
    Active { s with holds := s.holds.insert ref (holder, some version) } x ↔ s.Active x := by
  unfold Active PinnedBy
  refine or_congr Iff.rfl ⟨?_, ?_⟩
  · rintro ⟨ref', claimed, hkept⟩
    by_cases href : ref' = ref
    · subst href
      rw [AList.lookup_insert] at hkept
      cases hkept
      exact ⟨ref', none, hlookup⟩
    · exact ⟨ref', claimed, by rwa [AList.lookup_insert_ne href] at hkept⟩
  · rintro ⟨ref', claimed, hheld⟩
    by_cases href : ref' = ref
    · subst href
      cases hlookup.symm.trans hheld
      exact ⟨ref', some version, AList.lookup_insert _⟩
    · exact ⟨ref', claimed, by rwa [AList.lookup_insert_ne href]⟩

/-! ### Calls and the end of a process -/

/-- A call keeps the server tidy, -/
theorem Tidy.answer (h : s.Tidy) : (s.answer objects holder monitor request fault).2.1.Tidy := by
  rcases hanswer : s.answer objects holder monitor request fault with ⟨reply, s', objects'⟩
  cases called_of_answer hanswer with
  | pin => exact h.addPin
  | unpin => exact h.removePin
  | hold hfree => exact h.addHold hfree
  | claim version hlookup =>
    exact ⟨fun x ↦ (h.monitored x).trans (active_claim hlookup).symm, h.pinned, h.counted⟩
  | release => exact h.removeHold
  | unread | reclaim | commit | uncommitted | refused => exact h

private theorem active_of_addPin (h : (s.addPin version holder monitor).Active x) : s.Active x ∨ x = holder := by
  rcases h with ⟨version', hpinned⟩ | hheld
  · rcases pinnedBy_addPin.mp hpinned with hpinned | ⟨-, hx⟩
    · exact .inl (.inl ⟨version', hpinned⟩)
    · exact .inr hx
  · unfold Server.addPin at hheld
    rw [holds_monitorHolder] at hheld
    exact .inl (.inr hheld)

/-- and only the process that makes the call may become active. -/
theorem active_of_answer (h : (s.answer objects holder monitor request fault).2.1.Active x) :
    s.Active x ∨ x = holder := by
  rcases hanswer : s.answer objects holder monitor request fault with ⟨reply, s', objects'⟩
  rw [hanswer] at h
  cases called_of_answer hanswer with
  | pin => exact active_of_addPin h
  | unpin =>
    rcases h with ⟨version', hpinned⟩ | hheld
    · exact .inl (.inl ⟨version', pinnedBy_of_removePin hpinned⟩)
    · exact .inl (.inr (by simpa [Server.removePin] using hheld))
  | @hold ref =>
    rcases h with ⟨version', hpinned⟩ | ⟨ref', claimed, hheld⟩
    · exact .inl (.inl ⟨version', by simpa [PinnedBy, Server.addHold] using hpinned⟩)
    · simp only [Server.addHold, holds_monitorHolder] at hheld
      by_cases href : ref' = ref
      · subst href
        rw [AList.lookup_insert] at hheld
        cases hheld
        exact .inr rfl
      · rw [AList.lookup_insert_ne href] at hheld
        exact .inl (.inr ⟨ref', claimed, hheld⟩)
  | claim version hlookup => exact .inl ((active_claim hlookup).mp h)
  | release ref =>
    left
    simp only [Server.removeHold, Active, PinnedBy, pins_demonitorInactiveHolder,
      holds_demonitorInactiveHolder] at h
    split at h
    · split at h
      · refine h.imp_right ?_
        rintro ⟨ref', claimed, hheld⟩
        by_cases href : ref' = ref
        · subst href
          simp at hheld
        · exact ⟨ref', claimed, by simpa [AList.lookup_erase_ne href] using hheld⟩
      · exact h
    · exact h
  | unread | reclaim | commit | uncommitted | refused => exact .inl h

private theorem pinnedBy_handleDown (hmonitor : s.monitors.lookup holder = some monitor) :
    (s.handleDown monitor holder).PinnedBy version x ↔ s.PinnedBy version x ∧ x ≠ holder := by
  constructor
  · rintro ⟨holders, hlookup, hholder⟩
    rw [lookup_pins_handleDown hmonitor] at hlookup
    split at hlookup
    · next found hfound =>
      split at hlookup
      · cases hlookup
      · cases hlookup
        have hx : x ≠ holder := by
          rintro rfl
          simp at hholder
        exact ⟨⟨found, hfound, by rwa [AList.lookup_erase_ne hx] at hholder⟩, hx⟩
    · cases hlookup
  · rintro ⟨hpinned, hx⟩
    exact hpinned.handleDown hx

/-- The end of a process takes all that it had. -/
theorem active_handleDown (hmonitor : s.monitors.lookup holder = some monitor) :
    (s.handleDown monitor holder).Active x ↔ s.Active x ∧ x ≠ holder := by
  unfold Active
  simp only [pinnedBy_handleDown hmonitor, lookup_holds_handleDown hmonitor, Option.filter_eq_some_iff,
    bne_iff_ne]
  constructor
  · rintro (⟨version, hpinned, hx⟩ | ⟨ref, claimed, hheld, hx⟩)
    · exact ⟨.inl ⟨version, hpinned⟩, hx⟩
    · exact ⟨.inr ⟨ref, claimed, hheld⟩, hx⟩
  · rintro ⟨⟨version, hpinned⟩ | ⟨ref, claimed, hheld⟩, hx⟩
    · exact .inl ⟨version, hpinned, hx⟩
    · exact .inr ⟨ref, claimed, hheld, hx⟩

private theorem monitors_handleDown (hmonitor : s.monitors.lookup holder = some monitor) :
    (s.handleDown monitor holder).monitors = s.monitors.erase holder := by
  unfold Server.handleDown
  rw [if_pos hmonitor]

private theorem Tidy.handleDown (h : s.Tidy) : (s.handleDown monitor holder).Tidy := by
  by_cases hmonitor : s.monitors.lookup holder = some monitor
  · have hpins : ∀ version holders, (s.handleDown monitor holder).pins.lookup version = some holders →
        holders.entries ≠ [] ∧ ∃ old, s.pins.lookup version = some old ∧ holders = old.erase holder := by
      intro version holders hlookup
      rw [lookup_pins_handleDown hmonitor] at hlookup
      split at hlookup
      · next old hold =>
        split at hlookup
        · cases hlookup
        · next hne =>
          cases hlookup
          exact ⟨by simpa using hne, old, hold, rfl⟩
      · cases hlookup
    refine ⟨fun x ↦ ?_, fun version holders hlookup ↦ (hpins version holders hlookup).1, ?_⟩
    · rw [active_handleDown hmonitor, monitors_handleDown hmonitor, ← h.monitored]
      by_cases hx : x = holder
      · subst hx
        simp
      · simp [AList.lookup_erase_ne hx, hx]
    · intro version holders x count hlookup hcount
      obtain ⟨-, old, hold, rfl⟩ := hpins version holders hlookup
      have hx : x ≠ holder := by
        rintro rfl
        simp at hcount
      exact h.counted version old x count hold (by rwa [AList.lookup_erase_ne hx] at hcount)
  · rwa [handleDown_of_stale hmonitor]

private theorem active_of_handleDown (h : (s.handleDown monitor holder).Active x) : s.Active x := by
  by_cases hmonitor : s.monitors.lookup holder = some monitor
  · exact ((active_handleDown hmonitor).mp h).1
  · rwa [handleDown_of_stale hmonitor] at h

/-- A tidy server that monitors no process is idle. -/
theorem Tidy.idle (h : s.Tidy) (hmonitors : s.monitors.entries = []) : s.idle := by
  have hinactive : ∀ x, ¬ s.Active x := by
    intro x hx
    have hsome := (h.monitored x).mpr hx
    rw [AList.lookup, hmonitors] at hsome
    cases hsome
  unfold Server.idle
  rw [Bool.and_eq_true, List.isEmpty_iff, List.isEmpty_iff]
  constructor
  · by_contra hne
    obtain ⟨⟨version, holders⟩, hmem⟩ := List.exists_mem_of_ne_nil _ hne
    have hlookup := AList.mem_lookup_iff.mpr hmem
    obtain ⟨⟨x, count⟩, hholder⟩ := List.exists_mem_of_ne_nil _ (h.pinned version holders hlookup)
    have hcount : holders.lookup x = some count := AList.mem_lookup_iff.mpr hholder
    exact hinactive x (.inl ⟨version, holders, hlookup, by rw [hcount]; rfl⟩)
  · by_contra hne
    obtain ⟨⟨ref, x, claimed⟩, hmem⟩ := List.exists_mem_of_ne_nil _ hne
    exact hinactive x (.inr ⟨ref, claimed, AList.mem_lookup_iff.mpr hmem⟩)

end Server

/-! ### Runs -/

/-- The server is tidy, and what it monitors are tasks. -/
def Tidied (w : World) : Prop :=
  ∀ s, w.server = some s → s.Tidy ∧ ∀ holder, s.Active holder → ∃ c, w.clients[holder]? = some c

private theorem Tidied.step (h : Tidied w) (hstep : Step sha256 w move w') : Tidied w' := by
  have hclients : ∀ holder : ℕ, (∃ c : Client, w.clients[holder]? = some c) →
      ∃ c : Client, w'.clients[holder]? = some c := by
    rintro holder ⟨c, hc⟩
    obtain ⟨c', hc', -⟩ := hstep.client hc
    exact ⟨c', hc'⟩
  intro s' hs'
  cases hstep with
  | start | task | version | sweep =>
    obtain ⟨htidy, hactive⟩ := h s' hs'
    exact ⟨htidy, fun holder hholder ↦ hclients holder (hactive holder hholder)⟩
  | boot =>
    obtain rfl := Option.some.inj hs'
    refine ⟨⟨fun x ↦ ?_, by simp, by simp⟩, fun x hx ↦ ?_⟩
    · simp [Server.Active, Server.PinnedBy]
    · simp [Server.Active, Server.PinnedBy] at hx
  | stop => cases hs'
  | serve fault hs hc =>
    obtain rfl := Option.some.inj hs'
    obtain ⟨htidy, hactive⟩ := h _ hs
    refine ⟨htidy.answer, fun holder hholder ↦ hclients holder ?_⟩
    rcases Server.active_of_answer hholder with hholder | rfl
    · exact hactive holder hholder
    · exact ⟨_, hc⟩
  | down monitor hs hc =>
    obtain rfl := Option.some.inj hs'
    obtain ⟨htidy, hactive⟩ := h _ hs
    exact ⟨htidy.handleDown, fun holder hholder ↦ hactive holder (Server.active_of_handleDown hholder)⟩

/-! ### The rest of a run -/

/-- The messages that the server has not handled. -/
def World.unhandled (w : World) : ℕ := (w.clients.map fun c ↦ c.queue.length).sum

private theorem sum_set_add {numbers : List ℕ} {i n m : ℕ} (h : numbers[i]? = some n) :
    (numbers.set i m).sum + n = numbers.sum + m := by
  induction numbers generalizing i with
  | nil => simp at h
  | cons first rest ih =>
    cases i with
    | zero =>
      obtain rfl : first = n := by simpa using h
      simp only [List.set_cons_zero, List.sum_cons]
      omega
    | succ i =>
      have := ih (i := i) (by simpa using h)
      simp only [List.set_cons_succ, List.sum_cons]
      omega

private theorem length_insert_le (entries : AList fun _ : ℕ ↦ ℕ) (key value : ℕ) :
    (entries.insert key value).entries.length ≤ entries.entries.length + 1 := by
  rw [AList.entries_insert, List.length_cons]
  exact Nat.succ_le_succ (List.kerase_sublist key entries.entries).length_le

namespace Server

variable {s : Server} {objects : Objects} {holder monitor : ℕ} {request : Request}
  {fault : Option AdapterReason}

private theorem length_monitorHolder_le :
    (s.monitorHolder holder monitor).monitors.entries.length ≤ s.monitors.entries.length + 1 := by
  unfold monitorHolder
  split
  · exact Nat.le_succ _
  · exact length_insert_le _ _ _

private theorem length_demonitorInactiveHolder_le :
    (s.demonitorInactiveHolder holder).monitors.entries.length ≤ s.monitors.entries.length := by
  unfold demonitorInactiveHolder
  split
  · exact le_rfl
  · exact (List.kerase_sublist _ _).length_le

/-- A call makes the server monitor at most one more process. -/
theorem length_monitors_answer_le :
    (s.answer objects holder monitor request fault).2.1.monitors.entries.length ≤
      s.monitors.entries.length + 1 := by
  rcases hanswer : s.answer objects holder monitor request fault with ⟨reply, s', objects'⟩
  cases called_of_answer hanswer with
  | pin | hold => exact length_monitorHolder_le
  | unpin => exact length_demonitorInactiveHolder_le.trans (Nat.le_succ _)
  | release ref =>
    simp only [removeHold]
    refine length_demonitorInactiveHolder_le.trans ?_
    split
    · split <;> exact Nat.le_succ _
    · exact Nat.le_succ _
  | unread | claim | reclaim | commit | uncommitted | refused => exact Nat.le_succ _

private theorem length_monitors_handleDown (hmonitor : s.monitors.lookup holder = some monitor) :
    (s.handleDown monitor holder).monitors.entries.length < s.monitors.entries.length := by
  rw [monitors_handleDown hmonitor]
  have hmem : holder ∈ s.monitors.entries.keys := by
    rw [← List.dlookup_isSome]
    show (s.monitors.lookup holder).isSome
    rw [hmonitor]
    rfl
  obtain ⟨found, before, after, -, hentries, hkerase⟩ := List.exists_of_kerase hmem
  show (List.kerase holder s.monitors.entries).length < _
  rw [hkerase, hentries]
  simp

end Server

/-- The server lives, and all tasks have ended. -/
structure Ending (w : World) : Prop where
  tidied : Tidied w
  lives : ∃ s, w.server = some s
  ended : ∀ c ∈ w.clients, c.Ended

/-- A server that has handled all messages of ended tasks, and no process of which is left to end, is idle;
one that has not can handle one more. -/
theorem Ending.progress (h : Ending w) (hbusy : ¬ ∃ s, w.server = some s ∧ s.idle ∧ w.unhandled = 0) :
    ∃ move w', ((∃ i, move = .serve i none) ∨ ∃ i monitor, move = .down i monitor) ∧
      step sha256 w move = some w' ∧ Ending w' ∧
      2 * w'.unhandled + (w'.server.elim 0 fun s ↦ s.monitors.entries.length) <
        2 * w.unhandled + w.server.elim 0 fun s ↦ s.monitors.entries.length := by
  obtain ⟨s, hs⟩ := h.lives
  by_cases hunhandled : w.unhandled = 0
  · -- some process is monitored: its task has ended, with no message left
    obtain ⟨htidy, hactive⟩ := h.tidied s hs
    have hmonitors : s.monitors.entries ≠ [] := fun hnone ↦ hbusy ⟨s, hs, htidy.idle hnone, hunhandled⟩
    obtain ⟨⟨holder, monitor⟩, hmem⟩ := List.exists_mem_of_ne_nil _ hmonitors
    have hmonitor : s.monitors.lookup holder = some monitor := AList.mem_lookup_iff.mpr hmem
    obtain ⟨c, hc⟩ := hactive holder ((htidy.monitored holder).mp (by rw [hmonitor]; rfl))
    have hended := h.ended c (List.mem_of_getElem? hc)
    have hqueue : c.queue = [] := by
      have hmem : c.queue.length ∈ w.clients.map fun c ↦ c.queue.length :=
        List.mem_map_of_mem (List.mem_of_getElem? hc)
      have hle := List.single_le_sum (by simp) c.queue.length hmem
      unfold World.unhandled at hunhandled
      exact List.length_eq_zero_iff.mp (by omega)
    have hmove : step sha256 w (.down holder monitor) =
        some { w with server := some (s.handleDown monitor holder) } := by
      simp [step, hs, hc, hended, hqueue, guard]
    refine ⟨_, _, .inr ⟨holder, monitor, rfl⟩, hmove, ⟨h.tidied.step (step_cases hmove), ⟨_, rfl⟩, h.ended⟩,
      ?_⟩
    have hless := Server.length_monitors_handleDown hmonitor
    simp only [hs, Option.elim_some, World.unhandled]
    omega
  · -- some task has a message left
    obtain ⟨n, hn, hpos⟩ : ∃ n ∈ w.clients.map (fun c ↦ c.queue.length), 0 < n := by
      by_contra hnone
      refine hunhandled (List.sum_eq_zero fun n hn ↦ ?_)
      by_contra hne
      exact hnone ⟨n, hn, Nat.pos_of_ne_zero hne⟩
    obtain ⟨i, hi⟩ := List.mem_iff_getElem?.mp hn
    rw [List.getElem?_map] at hi
    obtain ⟨c, hc, rfl⟩ := Option.map_eq_some_iff.mp hi
    obtain ⟨r, hr⟩ : ∃ r, c.queue.head? = some r := by
      cases hqueue : c.queue with
      | nil => simp [hqueue] at hpos
      | cons r rest => exact ⟨r, rfl⟩
    have hmove : step sha256 w (.serve i none) = some
        { objects := (s.answer w.objects i w.nextMonitor r none).2.2
          server := some (s.answer w.objects i w.nextMonitor r none).2.1
          clients := w.clients.set i (c.served (s.answer w.objects i w.nextMonitor r none).1)
          nextMonitor := w.nextMonitor + 1 } := by
      simp [step, hs, hc, hr]
    refine ⟨_, _, .inl ⟨i, rfl⟩, hmove, ⟨h.tidied.step (step_cases hmove), ⟨_, rfl⟩, fun d hd ↦ ?_⟩, ?_⟩
    · rcases List.mem_or_eq_of_mem_set hd with hd | rfl
      · exact h.ended d hd
      · exact h.ended c (List.mem_of_getElem? hc)
    · have hmore : (s.answer w.objects i w.nextMonitor r none).2.1.monitors.entries.length ≤
          s.monitors.entries.length + 1 := Server.length_monitors_answer_le
      have hfewer : ((w.clients.map fun c ↦ c.queue.length).set i c.queue.tail.length).sum +
          c.queue.length = (w.clients.map fun c ↦ c.queue.length).sum + c.queue.tail.length :=
        sum_set_add (by simp [hc])
      have hset : (w.clients.set i (c.served (s.answer w.objects i w.nextMonitor r none).1)).map
          (fun c ↦ c.queue.length) = (w.clients.map fun c ↦ c.queue.length).set i c.queue.tail.length :=
        List.map_set
      have htail : c.queue.tail.length + 1 = c.queue.length := by
        rw [List.length_tail]
        omega
      simp only [hs, Option.elim_some, World.unhandled, hset]
      omega

end Gitility.LocalStore
