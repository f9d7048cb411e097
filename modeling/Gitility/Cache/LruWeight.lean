import Gitility.Cache.LruRefinement

/-!
# The weight bound of the LRU

`used` is kept by saturating additions and subtractions. It is the resident weight as long as the
resident weight fits 64 bits, which eviction sees to unless the capacity is `u64::MAX`: then
`used.saturating_add(weight) > capacity` is never true.
-/

namespace Gitility

variable {K V : Type}

/-- The weight that an operation brings in. -/
def LruOp.weight : LruOp K V → ℕ
  | .insert _ _ weight | .insertCountingEvictions _ _ weight => weight
  | _ => 0

/-- The capacity is not the largest weight, or the other residents leave room for the new entry in
64 bits. -/
def LruOp.Fits [DecidableEq K] (c : LruCache K V) : LruOp K V → Prop
  | .insert key _ weight | .insertCountingEvictions key _ weight =>
    c.capacity < u64Max ∨
      Recency.total (c.residents.filter fun e ↦ e.1 ≠ key) + weight ≤ u64Max
  | _ => True

namespace Recency

/-! ### Weights of the reference -/

private theorem total_append (front back : List (K × V × ℕ)) :
    total (front ++ back) = total front + total back := by
  simp [total]

private theorem total_perm {entries entries' : List (K × V × ℕ)} (h : entries.Perm entries') :
    total entries = total entries' :=
  (h.map _).sum_nat

private theorem total_sublist {entries entries' : List (K × V × ℕ)} (h : entries'.Sublist entries) :
    total entries' ≤ total entries := by
  induction h with
  | slnil => exact Nat.le_refl _
  | cons e _ ih => exact ih.trans (Nat.le_add_left _ _)
  | cons_cons e _ ih => exact Nat.add_le_add_left ih e.2.2

/-- Nothing is shed at the largest capacity. -/
theorem shed_u64Max (weight : ℕ) (entries : List (K × V × ℕ)) :
    shed u64Max weight entries = (0, entries) := by
  cases entries with
  | nil => rfl
  | cons e rest =>
    have hle : saturatingAdd (total (e :: rest)) weight ≤ u64Max := Nat.min_le_right _ _
    rw [shed, if_neg (Nat.not_lt.mpr hle)]

variable [DecidableEq K] {r : Recency K V}

/-- At the largest capacity an insertion only replaces. -/
theorem insert_u64Max (hcapacity : r.capacity = u64Max) (key : K) (value : V) {weight : ℕ}
    (hweight : weight ≤ u64Max) :
    (r.insertCountingEvictions key value weight).2.entries =
      (r.without key).entries ++ [(key, value, weight)] := by
  have hroom : ¬(r.capacity = 0 ∨ weight > r.capacity) := by
    rw [hcapacity]
    have : u64Max ≠ 0 := by decide
    omega
  rw [insertCountingEvictions, if_neg hroom, hcapacity, shed_u64Max]

private theorem total_without_le (r : Recency K V) (key : K) :
    total (r.without key).entries ≤ total r.entries :=
  total_sublist List.filter_sublist

/-- Eviction makes room, short of the largest capacity. -/
theorem total_insert_le_of_lt (hcapacity : r.capacity < u64Max) (hle : total r.entries ≤ r.capacity)
    (key : K) (value : V) (weight : ℕ) :
    total (r.insertCountingEvictions key value weight).2.entries ≤ r.capacity := by
  rw [insertCountingEvictions]
  split
  · exact (total_without_le r key).trans hle
  · next hroom =>
    have hshed := shed_fits (show weight ≤ r.capacity by omega) (r.without key).entries
    rw [saturatingAdd] at hshed
    change total ((shed r.capacity weight (r.without key).entries).2 ++ [(key, value, weight)]) ≤ _
    rw [total_append]
    change _ + weight ≤ _
    omega

/-- An insertion that fits 64 bits stays within the capacity. -/
theorem total_insert_le (hcapacity : r.capacity ≤ u64Max) (hle : total r.entries ≤ r.capacity)
    {key : K} (value : V) {weight : ℕ} (hweight : weight ≤ u64Max)
    (hfits : r.capacity < u64Max ∨ total (r.without key).entries + weight ≤ u64Max) :
    total (r.insertCountingEvictions key value weight).2.entries ≤ r.capacity := by
  rcases Nat.lt_or_ge r.capacity u64Max with hlt | hge
  · exact total_insert_le_of_lt hlt hle key value weight
  · have heq := Nat.le_antisymm hcapacity hge
    rw [insert_u64Max heq key value hweight, total_append, heq]
    exact hfits.resolve_left (Nat.not_lt.mpr hge)

private theorem capacity_insert (r : Recency K V) (key : K) (value : V) (weight : ℕ) :
    (r.insertCountingEvictions key value weight).2.capacity = r.capacity := by
  rw [insertCountingEvictions]
  split <;> rfl

/-- No call changes the capacity. -/
theorem capacity_apply (hnodup : (r.entries.map Prod.fst).Nodup) (op : LruOp K V) :
    (r.apply op).2.capacity = r.capacity := by
  cases op with
  | get key => exact (get_spec hnodup key).2.1
  | insert key value weight => exact capacity_insert r key value weight
  | insertCountingEvictions key value weight => exact capacity_insert r key value weight
  | remove key => rfl
  | popLru =>
    obtain ⟨entries, capacity⟩ := r
    cases entries <;> rfl
  | clear => rfl

private theorem run_concat (r : Recency K V) (ops : List (LruOp K V)) (op : LruOp K V) :
    (r.run (ops ++ [op])).2 = ((r.run ops).2.apply op).2 := by
  induction ops generalizing r with
  | nil => rfl
  | cons first ops ih => exact ih (r.apply first).2

end Recency

namespace LruCache

variable [DecidableEq K] {c c' : LruCache K V} {r : Recency K V} {slots : List ℕ}

/-- The residents other than a key's own, as the reference lists them. -/
theorem Refines.total_others (h : Refines c r slots) (key : K) :
    Recency.total (c.residents.filter fun e ↦ e.1 ≠ key) = Recency.total (r.without key).entries :=
  Recency.total_perm (h.residents_perm.filter _)

private theorem Refines.total_residents (h : Refines c r slots) :
    Recency.total c.residents = Recency.total r.entries :=
  Recency.total_perm h.residents_perm

/-! ### `used` at the largest capacity -/

/-- Removing an indexed entry takes its weight off. -/
theorem Refines.used_removeIndex (h : Refines c r slots) (hused : c.used = Recency.total r.entries)
    {key : K} {i : ℕ} (hl : c.indices.lookup key = some i) {removed : Option (Node K V)}
    (hrun : c.removeIndex i = some (removed, c')) :
    c'.used = Recency.total (r.without key).entries := by
  obtain ⟨left, right, before, after, n, rfl, hentries, hn, -, -⟩ := h.locate hl
  obtain ⟨c₁, hrun₁, -, -, -, hused₁, -, -⟩ := removeIndex_spec h.consistent hn
  obtain ⟨-, rfl⟩ := Prod.mk.inj (Option.some.inj (hrun.symm.trans hrun₁))
  obtain ⟨entries, capacity⟩ := r
  simp only at hentries
  subst hentries
  rw [Recency.without_middle (e := (key, n.value, n.weight)) capacity h.nodup_keys, hused₁, hused]
  simp only [Recency.total, List.map_append, List.map_cons, List.sum_append, List.sum_cons]
  omega

private theorem Refines.used_dropKey (h : Refines c r slots) (hused : c.used = Recency.total r.entries)
    {key : K} (hrun : c.dropKey key = some c') :
    c'.used = Recency.total (r.without key).entries := by
  rw [LruCache.dropKey] at hrun
  cases hl : c.indices.lookup key with
  | none =>
    rw [hl] at hrun
    obtain rfl := Option.some.inj hrun
    have hkeep : (r.without key).entries = r.entries :=
      List.filter_eq_self.mpr fun e he ↦ by simpa using h.lookup_eq_none hl e he
    rw [hkeep, hused]
  | some i =>
    rw [hl] at hrun
    obtain ⟨⟨removed, c₁⟩, hremove, rfl⟩ := Option.map_eq_some_iff.mp hrun
    exact h.used_removeIndex hused hl hremove

private theorem Refines.used_remove (h : Refines c r slots) (hused : c.used = Recency.total r.entries)
    {key : K} {value : Option V} (hrun : c.remove key = some (value, c')) :
    c'.used = Recency.total (r.without key).entries := by
  refine h.used_dropKey hused ?_
  rw [LruCache.remove] at hrun
  rw [LruCache.dropKey]
  cases hl : c.indices.lookup key with
  | none =>
    rw [hl] at hrun
    exact congrArg (Option.map Prod.snd) hrun
  | some i =>
    rw [hl] at hrun
    obtain ⟨⟨removed, c₁⟩, hremove, heq⟩ := Option.bind_eq_some_iff.mp hrun
    obtain ⟨-, rfl⟩ := Prod.mk.inj (Option.some.inj heq)
    simp only [hremove, Option.map_some]

private theorem Refines.used_popLru (h : Refines c r slots) (hused : c.used = Recency.total r.entries)
    {entry : Option (K × V)} (hrun : c.popLru = some (entry, c')) :
    c'.used = Recency.total r.popLru.2.entries := by
  obtain ⟨entries, capacity⟩ := r
  rw [LruCache.popLru, h.consistent.least] at hrun
  cases entries with
  | nil =>
    obtain rfl : slots = [] := by simpa using h.entries
    obtain ⟨-, rfl⟩ := Prod.mk.inj (Option.some.inj hrun)
    exact hused
  | cons e rest =>
    obtain ⟨i, right, rfl, he, -⟩ := List.map_eq_cons_iff.mp h.entries
    obtain ⟨n, hn⟩ := h.consistent.node_of_mem List.mem_cons_self
    rw [LruCache.entryAt, hn, Option.map_some, Option.some.injEq] at he
    subst he
    have hl := h.consistent.lookup_key List.mem_cons_self hn
    obtain ⟨⟨removed, c₁⟩, hremove, heq⟩ := Option.bind_eq_some_iff.mp hrun
    obtain ⟨-, rfl⟩ := Prod.mk.inj (Option.some.inj heq)
    rw [h.used_removeIndex hused hl hremove]
    have hnodup : (([] ++ (n.key, n.value, n.weight) :: rest).map Prod.fst).Nodup := h.nodup_keys
    have hwithout := Recency.without_middle capacity hnodup
    rw [List.nil_append, List.nil_append] at hwithout
    rw [hwithout]
    rfl

private theorem Refines.used_get (h : Refines c r slots) {key : K} {value : Option V}
    (hrun : c.get key = some (value, c')) : c'.used = c.used := by
  rw [LruCache.get] at hrun
  cases hl : c.indices.lookup key with
  | none =>
    rw [hl] at hrun
    obtain ⟨-, rfl⟩ := Prod.mk.inj (Option.some.inj hrun)
    rfl
  | some i =>
    obtain ⟨left, right, before, after, n, rfl, -, -, -, -⟩ := h.locate hl
    obtain ⟨c₁, htouch, hrel, -⟩ := touch_spec h.consistent
    simp only [hl, htouch, bind, Option.bind] at hrun
    split at hrun
    · cases hrun
    · obtain ⟨-, rfl⟩ := Prod.mk.inj (Option.some.inj hrun)
      exact hrel.used

/-- An insertion at the largest capacity adds its weight, and saturates. -/
theorem Refines.used_insert (h : Refines c r slots) (hcapacity : c.capacity = u64Max)
    (hused : c.used = Recency.total r.entries) {key : K} {value : V} {weight evictions : ℕ}
    (hweight : weight ≤ u64Max)
    (hrun : c.insertCountingEvictions key value weight = some (evictions, c')) :
    c'.used = saturatingAdd (Recency.total (r.without key).entries) weight := by
  obtain ⟨c₁, slots₁, hdrop, hr₁⟩ := h.dropKey key
  have hcapacity₁ : c₁.capacity = u64Max := by
    rw [hr₁.capacity, ← hcapacity]
    exact h.capacity.symm
  have hroom : ¬(c₁.capacity = 0 ∨ weight > c₁.capacity) := by
    rw [hcapacity₁]
    have : u64Max ≠ 0 := by decide
    omega
  have hevict : LruCache.evict weight (c₁.nodes.length + 1) c₁ 0 = some (0, c₁) := by
    have hle : saturatingAdd c₁.used weight ≤ u64Max := Nat.min_le_right _ _
    rw [LruCache.evict, hcapacity₁, if_neg (Nat.not_lt.mpr hle)]
  have hk : ∀ e ∈ (r.without key).entries, e.1 ≠ key := fun e he ↦ by
    simpa using (List.mem_filter.mp he).2
  obtain ⟨i, c₂, hpush, -, -, -, -, hused₂, -⟩ :=
    pushNode_spec value weight hr₁.consistent (hr₁.lookup_none_of hk)
  simp only [LruCache.insertCountingEvictions, hdrop, bind, Option.bind, if_neg hroom, hevict, hpush] at hrun
  obtain ⟨-, rfl⟩ := Prod.mk.inj (Option.some.inj hrun)
  rw [hused₂, h.used_dropKey hused hdrop]

/-- At the largest capacity `used` stays the resident weight through every operation that fits. -/
theorem Refines.used_apply (h : Refines c r slots) (hcapacity : c.capacity = u64Max)
    (hused : c.used = Recency.total r.entries) {op : LruOp K V} (hweight : op.weight ≤ u64Max)
    (hfits : op.Fits c) {answer : LruAnswer K V} (hrun : c.apply op = some (answer, c')) :
    c'.used = Recency.total (r.apply op).2.entries := by
  have hinsert {key : K} {value : V} {weight evictions : ℕ} (hweight : weight ≤ u64Max)
      (hfits : c.capacity < u64Max ∨
        Recency.total (c.residents.filter fun e ↦ e.1 ≠ key) + weight ≤ u64Max)
      (hrun : c.insertCountingEvictions key value weight = some (evictions, c')) :
      c'.used = Recency.total (r.insertCountingEvictions key value weight).2.entries := by
    have hsum := hfits.resolve_left (Nat.not_lt.mpr hcapacity.ge)
    rw [h.total_others] at hsum
    rw [Recency.insert_u64Max (h.capacity ▸ hcapacity) key value hweight, Recency.total_append,
      h.used_insert hcapacity hused hweight hrun, saturatingAdd, Nat.min_eq_left hsum]
    rfl
  cases op with
  | get key =>
    obtain ⟨⟨value, c₁⟩, hget, heq⟩ := Option.map_eq_some_iff.mp hrun
    obtain ⟨-, rfl⟩ := Prod.mk.inj heq
    rw [h.used_get hget, hused]
    exact Recency.total_perm (Recency.get_spec h.nodup_keys key).1.symm
  | insert key value weight =>
    obtain ⟨c₁, hinserted, heq⟩ := Option.map_eq_some_iff.mp hrun
    obtain ⟨-, rfl⟩ := Prod.mk.inj heq
    obtain ⟨⟨evictions, c₂⟩, hcounted, rfl⟩ := Option.map_eq_some_iff.mp hinserted
    exact hinsert hweight hfits hcounted
  | insertCountingEvictions key value weight =>
    obtain ⟨⟨evictions, c₁⟩, hcounted, heq⟩ := Option.map_eq_some_iff.mp hrun
    obtain ⟨-, rfl⟩ := Prod.mk.inj heq
    exact hinsert hweight hfits hcounted
  | remove key =>
    obtain ⟨⟨value, c₁⟩, hremove, heq⟩ := Option.map_eq_some_iff.mp hrun
    obtain ⟨-, rfl⟩ := Prod.mk.inj heq
    exact h.used_remove hused hremove
  | popLru =>
    obtain ⟨⟨entry, c₁⟩, hpop, heq⟩ := Option.map_eq_some_iff.mp hrun
    obtain ⟨-, rfl⟩ := Prod.mk.inj heq
    exact h.used_popLru hused hpop
  | clear =>
    obtain ⟨-, rfl⟩ := Prod.mk.inj (Option.some.inj hrun)
    rfl

/-! ### Runs -/

/-- `used` is the weight of the residents and within the capacity. -/
def Exact (c : LruCache K V) : Prop :=
  c.used = Recency.total c.residents ∧ c.used ≤ c.capacity

/-- The reference's entries weigh what `used` says, within the capacity. -/
structure Weighs (c : LruCache K V) (r : Recency K V) (slots : List ℕ) : Prop
    extends Refines c r slots where
  exact : c.used = Recency.total r.entries
  within : Recency.total r.entries ≤ r.capacity

private theorem Weighs.exact_cache (h : Weighs c r slots) : Exact c := by
  refine ⟨by rw [h.exact, h.total_residents], ?_⟩
  rw [h.exact, h.capacity]
  exact h.within

/-- An operation that fits keeps the weights exact. -/
theorem Weighs.apply (h : Weighs c r slots) (hcapacity : r.capacity ≤ u64Max) {op : LruOp K V}
    (hweight : op.weight ≤ u64Max) (hfits : op.Fits c) :
    ∃ c' slots', c.apply op = some ((r.apply op).1, c') ∧ Weighs c' (r.apply op).2 slots' := by
  obtain ⟨c', slots', hrun, hr⟩ := h.toRefines.apply op
  have hsame := Recency.capacity_apply h.nodup_keys op
  refine ⟨c', slots', hrun, hr, ?_, ?_⟩
  · rcases Nat.lt_or_ge c'.capacity u64Max with hlt | hge
    · exact hr.used hlt
    · rw [hr.capacity, hsame] at hge
      exact h.used_apply (h.capacity.trans (Nat.le_antisymm hcapacity hge)) h.exact hweight hfits hrun
  · rw [hsame]
    have hinsert {key : K} {value : V} {weight : ℕ} (hweight : weight ≤ u64Max)
        (hfits : c.capacity < u64Max ∨
          Recency.total (c.residents.filter fun e ↦ e.1 ≠ key) + weight ≤ u64Max) :
        Recency.total (r.insertCountingEvictions key value weight).2.entries ≤ r.capacity := by
      rw [h.capacity, h.total_others] at hfits
      exact Recency.total_insert_le hcapacity h.within value hweight hfits
    cases op with
    | get key => exact (Recency.total_perm (Recency.get_spec h.nodup_keys key).1).trans_le h.within
    | insert key value weight => exact hinsert hweight hfits
    | insertCountingEvictions key value weight => exact hinsert hweight hfits
    | remove key => exact (Recency.total_without_le r key).trans h.within
    | popLru =>
      refine (Recency.total_sublist ?_).trans h.within
      obtain ⟨entries, capacity⟩ := r
      cases entries with
      | nil => exact List.Sublist.refl _
      | cons e rest => exact List.sublist_cons_self e rest
    | clear => exact Nat.zero_le _

private theorem Weighs.new (capacity : ℕ) :
    Weighs (LruCache.new capacity : LruCache K V) ⟨[], capacity⟩ [] :=
  ⟨Refines.new capacity, rfl, Nat.zero_le _⟩

private theorem run_concat (c : LruCache K V) (ops : List (LruOp K V)) (op : LruOp K V) :
    c.run (ops ++ [op]) = (c.run ops).bind fun p ↦
      (p.2.apply op).map fun q ↦ (p.1 ++ [(q.1, q.2.len)], q.2) := by
  induction ops generalizing c with
  | nil =>
    cases hop : c.apply op with
    | none => simp [LruCache.run, hop]
    | some q => simp [LruCache.run, hop]
  | cons first ops ih =>
    simp only [List.cons_append, LruCache.run, bind, Option.bind]
    cases hop : c.apply first with
    | none => rfl
    | some q =>
      simp only [ih]
      cases hrun : q.2.run ops with
      | none => rfl
      | some p => cases hlast : p.2.apply op <;> simp [hlast]

/-- A call that does not fit leaves residents that no capacity allows. -/
theorem Refines.not_exact (h : Refines c r slots) (hcapacity : r.capacity ≤ u64Max)
    {op : LruOp K V} (hweight : op.weight ≤ u64Max) (hfits : ¬op.Fits c) {answer : LruAnswer K V}
    (hrun : c.apply op = some (answer, c')) : ¬Exact c' := by
  obtain ⟨c₁, slots₁, hrun₁, hr₁⟩ := h.apply op
  obtain ⟨-, rfl⟩ := Prod.mk.inj (Option.some.inj (hrun₁.symm.trans hrun))
  have hsame := Recency.capacity_apply h.nodup_keys op
  have hinsert {key : K} (value : V) {weight : ℕ} (hweight : weight ≤ u64Max)
      (hfits : ¬(c.capacity < u64Max ∨
        Recency.total (c.residents.filter fun e ↦ e.1 ≠ key) + weight ≤ u64Max)) :
      u64Max < Recency.total (r.insertCountingEvictions key value weight).2.entries := by
    rw [h.capacity, h.total_others] at hfits
    rw [Recency.insert_u64Max (by omega) key value hweight, Recency.total_append]
    change u64Max < _ + weight
    omega
  rintro ⟨hused, hle⟩
  rw [hused, hr₁.total_residents, hr₁.capacity, hsame] at hle
  cases op with
  | insert key value weight =>
    exact absurd (hle.trans hcapacity) (Nat.not_le.mpr (hinsert value hweight hfits))
  | insertCountingEvictions key value weight =>
    exact absurd (hle.trans hcapacity) (Nat.not_le.mpr (hinsert value hweight hfits))
  | get key => exact hfits True.intro
  | remove key => exact hfits True.intro
  | popLru => exact hfits True.intro
  | clear => exact hfits True.intro

private theorem Refines.capacity_run (h : Refines c r slots) (ops : List (LruOp K V)) :
    (r.run ops).2.capacity = r.capacity := by
  induction ops generalizing c r slots with
  | nil => rfl
  | cons op ops ih =>
    obtain ⟨c', slots', -, hr⟩ := h.apply op
    exact (ih hr).trans (Recency.capacity_apply h.nodup_keys op)

/-- As long as every call fits, the weights stay exact. -/
theorem Weighs.run {capacity : ℕ} (hcapacity : capacity ≤ u64Max) {ops : List (LruOp K V)}
    (hweights : ∀ op ∈ ops, op.weight ≤ u64Max)
    (hfits : ∀ k op, ops[k]? = some op → ∀ answers c,
      (LruCache.new capacity).run (ops.take k) = some (answers, c) → op.Fits c) :
    ∃ answers c slots, (LruCache.new capacity).run ops = some (answers, c) ∧
      Weighs c ((⟨[], capacity⟩ : Recency K V).run ops).2 slots := by
  induction ops using List.reverseRecOn with
  | nil => exact ⟨[], _, [], rfl, Weighs.new capacity⟩
  | append_singleton ops op ih =>
    obtain ⟨answers, c, slots, hrun, hw⟩ := ih (fun op hop ↦ hweights op (by simp [hop]))
      fun k op hk answers c hrun ↦ by
        have hlt := (List.getElem?_eq_some_iff.mp hk).1
        refine hfits k op (by rw [List.getElem?_append_left hlt, hk]) answers c ?_
        rw [List.take_append_of_le_length hlt.le, hrun]
    have hfit : op.Fits c := hfits ops.length op (by simp) answers c (by rw [List.take_left, hrun])
    have hsame := (Refines.new (K := K) (V := V) capacity).capacity_run ops
    obtain ⟨c', slots', happly, hw'⟩ := hw.apply (hsame.trans_le hcapacity) (hweights op (by simp)) hfit
    have hlast : (LruCache.new capacity).run (ops ++ [op]) =
        some (answers ++ [((((⟨[], capacity⟩ : Recency K V).run ops).2.apply op).1, c'.len)], c') := by
      rw [run_concat, hrun, Option.bind_some, happly]
      rfl
    exact ⟨_, c', slots', hlast, (Recency.run_concat _ ops op).symm ▸ hw'⟩

/-- In a run with 64-bit weights `used` is at all times the resident weight and within the
capacity if and only if every insertion at the largest capacity fits 64 bits beside the other
residents. -/
theorem run_exact_iff {capacity : ℕ} (hcapacity : capacity ≤ u64Max) (ops : List (LruOp K V))
    (hweights : ∀ op ∈ ops, op.weight ≤ u64Max) :
    (∀ k ≤ ops.length, ∃ answers c,
        (LruCache.new capacity).run (ops.take k) = some (answers, c) ∧ Exact c) ↔
      ∀ k op, ops[k]? = some op → ∀ answers c,
        (LruCache.new capacity).run (ops.take k) = some (answers, c) → op.Fits c := by
  constructor
  · intro hexact k op hk answers c hrun
    by_contra hfits
    obtain ⟨hlt, rfl⟩ := List.getElem?_eq_some_iff.mp hk
    obtain ⟨c₁, slots, hrun₁, hr⟩ := (Refines.new capacity).run (ops.take k)
    obtain ⟨-, rfl⟩ := Prod.mk.inj (Option.some.inj (hrun₁.symm.trans hrun))
    obtain ⟨answers', c', hrun', hc'⟩ := hexact (k + 1) hlt
    rw [List.take_add_one, hk, Option.toList_some, run_concat, hrun, Option.bind_some] at hrun'
    obtain ⟨⟨answer, c₂⟩, happly, heq⟩ := Option.map_eq_some_iff.mp hrun'
    obtain ⟨-, rfl⟩ := Prod.mk.inj heq
    have hsame := (Refines.new (K := K) (V := V) capacity).capacity_run (ops.take k)
    exact hr.not_exact (hsame.trans_le hcapacity) (hweights _ (List.getElem_mem hlt)) hfits happly hc'
  · intro hfits k hk
    have hprefix : ∀ j op, (ops.take k)[j]? = some op → ∀ answers c,
        (LruCache.new capacity).run ((ops.take k).take j) = some (answers, c) → op.Fits c := by
      intro j op hj answers c hrun
      obtain ⟨hlt, rfl⟩ := List.getElem?_eq_some_iff.mp hj
      rw [List.length_take] at hlt
      refine hfits j _ ?_ answers c ?_
      · rw [List.getElem_take, List.getElem?_eq_getElem]
      · rwa [List.take_take, Nat.min_eq_left (by omega)] at hrun
    obtain ⟨answers, c, slots, hrun, hw⟩ :=
      Weighs.run hcapacity (fun op hop ↦ hweights op (List.mem_of_mem_take hop)) hprefix
    exact ⟨answers, c, hrun, hw.exact_cache⟩

/-- At the largest capacity two entries of weights `u64::MAX` and one both stay, and weigh more. -/
theorem used_saturates :
    ∃ answers c, (LruCache.new u64Max : LruCache ℕ Unit).run
        [.insert 0 () u64Max, .insert 1 () 1] = some (answers, c) ∧
      c.used = u64Max ∧ Recency.total c.residents = u64Max + 1 :=
  ⟨_, _, rfl, by decide +kernel, by decide +kernel⟩

/-- Below the largest capacity everything fits. -/
theorem fits_of_lt {capacity : ℕ} (hcapacity : capacity < u64Max) {ops : List (LruOp K V)}
    (op : LruOp K V) {answers : List (LruAnswer K V × ℕ)}
    (hrun : (LruCache.new capacity).run ops = some (answers, c)) : op.Fits c := by
  obtain ⟨c₁, slots, hrun₁, hr⟩ := (Refines.new capacity).run ops
  obtain ⟨-, rfl⟩ := Prod.mk.inj (Option.some.inj (hrun₁.symm.trans hrun))
  have hsame : c₁.capacity = capacity :=
    hr.capacity.trans ((Refines.new (K := K) (V := V) capacity).capacity_run ops)
  cases op with
  | insert key value weight => exact .inl (hsame.trans_lt hcapacity)
  | insertCountingEvictions key value weight => exact .inl (hsame.trans_lt hcapacity)
  | get key => exact True.intro
  | remove key => exact True.intro
  | popLru => exact True.intro
  | clear => exact True.intro

/-- A run in which the second insertion evicts the first entry. -/
theorem run_exact_evicting :
    ∃ answers c, (LruCache.new 5 : LruCache ℕ Unit).run [.insert 0 () 3, .insert 1 () 4] =
      some (answers, c) ∧ Exact c :=
  (run_exact_iff (by decide) [LruOp.insert 0 () 3, .insert 1 () 4] (by decide)).mpr
    (fun _ op _ _ _ hrun ↦ fits_of_lt (by decide) op hrun) 2 (Nat.le_refl 2)

end LruCache
end Gitility
