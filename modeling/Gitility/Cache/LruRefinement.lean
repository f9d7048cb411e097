import Mathlib.Data.List.Nodup
import Gitility.Cache.LruInvariant

/-!
# The slab LRU as a recency list

The reference is the plain association list `lru.rs` stands for, ordered from least to most
recently used. Every run of the slab cache returns what the reference returns and leaves the
slab consistent.
-/

namespace Gitility

/-- A bounded association list from least to most recently used, with each entry's weight. -/
structure Recency (K V : Type) where
  entries : List (K × V × ℕ)
  capacity : ℕ

namespace Recency

variable {K V : Type}

/-- The resident weight. -/
def total (entries : List (K × V × ℕ)) : ℕ := (entries.map fun e ↦ e.2.2).sum

/-- The least recently used entries dropped until `weight` more fits, and their number. -/
def shed (capacity weight : ℕ) : List (K × V × ℕ) → ℕ × List (K × V × ℕ)
  | [] => (0, [])
  | e :: rest =>
    if saturatingAdd (total (e :: rest)) weight > capacity then
      ((shed capacity weight rest).1 + 1, (shed capacity weight rest).2)
    else (0, e :: rest)

variable [DecidableEq K]

/-- The entry stored for a key. -/
def find (r : Recency K V) (key : K) : Option (K × V × ℕ) :=
  r.entries.find? fun e ↦ e.1 = key

/-- Every entry but the key's own. -/
def without (r : Recency K V) (key : K) : Recency K V :=
  { r with entries := r.entries.filter fun e ↦ e.1 ≠ key }

/-- A lookup moves its entry to the most recent end. -/
def get (r : Recency K V) (key : K) : Option V × Recency K V :=
  match r.find key with
  | none => (none, r)
  | some e => (some e.2.1, { r with entries := (r.without key).entries ++ [e] })

/-- A replaced key is not an eviction, and an entry heavier than the cache is not retained. -/
def insertCountingEvictions (r : Recency K V) (key : K) (value : V) (weight : ℕ) :
    ℕ × Recency K V :=
  let rest := r.without key
  if r.capacity = 0 ∨ weight > r.capacity then (0, rest)
  else
    let (evictions, kept) := shed r.capacity weight rest.entries
    (min evictions u64Max, { r with entries := kept ++ [(key, value, weight)] })

/-- The least recently used entry leaves. -/
def popLru (r : Recency K V) : Option (K × V) × Recency K V :=
  match r.entries with
  | [] => (none, r)
  | e :: rest => (some (e.1, e.2.1), { r with entries := rest })

/-- The key's entry leaves. -/
def remove (r : Recency K V) (key : K) : Option V × Recency K V :=
  ((r.find key).map fun e ↦ e.2.1, r.without key)

end Recency

/-- The calls of `LruCache`'s interface that change it. -/
inductive LruOp (K V : Type) where
  | get (key : K)
  | insert (key : K) (value : V) (weight : ℕ)
  | insertCountingEvictions (key : K) (value : V) (weight : ℕ)
  | remove (key : K)
  | popLru
  | clear

/-- What a call returns. -/
inductive LruAnswer (K V : Type) where
  | value (value : Option V)
  | evictions (count : ℕ)
  | popped (entry : Option (K × V))
  | done

namespace LruCache

variable {K V : Type} [DecidableEq K]

/-- One call on the slab cache. -/
def apply (c : LruCache K V) : LruOp K V → Option (LruAnswer K V × LruCache K V)
  | .get key => (c.get key).map fun (v, c) ↦ (.value v, c)
  | .insert key value weight => (c.insert key value weight).map fun c ↦ (.done, c)
  | .insertCountingEvictions key value weight =>
    (c.insertCountingEvictions key value weight).map fun (n, c) ↦ (.evictions n, c)
  | .remove key => (c.remove key).map fun (v, c) ↦ (.value v, c)
  | .popLru => c.popLru.map fun (e, c) ↦ (.popped e, c)
  | .clear => some (.done, c.clear)

/-- A sequence of calls, with each answer and the `len` read after it. -/
def run (c : LruCache K V) : List (LruOp K V) → Option (List (LruAnswer K V × ℕ) × LruCache K V)
  | [] => some ([], c)
  | op :: ops => do
    let (answer, c) ← c.apply op
    let (answers, c') ← run c ops
    return ((answer, c.len) :: answers, c')

end LruCache

namespace Recency

variable {K V : Type} [DecidableEq K]

/-- One call on the reference. -/
def apply (r : Recency K V) : LruOp K V → LruAnswer K V × Recency K V
  | .get key => (.value (r.get key).1, (r.get key).2)
  | .insert key value weight => (.done, (r.insertCountingEvictions key value weight).2)
  | .insertCountingEvictions key value weight =>
    (.evictions (r.insertCountingEvictions key value weight).1,
      (r.insertCountingEvictions key value weight).2)
  | .remove key => (.value (r.remove key).1, (r.remove key).2)
  | .popLru => (.popped r.popLru.1, r.popLru.2)
  | .clear => (.done, { r with entries := [] })

/-- A sequence of calls on the reference, with the number of entries after each. -/
def run (r : Recency K V) : List (LruOp K V) → List (LruAnswer K V × ℕ) × Recency K V
  | [] => ([], r)
  | op :: ops =>
    let (answer, r) := r.apply op
    let (answers, r') := run r ops
    ((answer, r.entries.length) :: answers, r')

end Recency

namespace LruCache

variable {K V : Type} [DecidableEq K]

/-- The slab cache stands for a recency list: its slots are consistent and hold the entries
in order, and unless the capacity is the largest weight, at which `used` may saturate and is
never compared again, `used` is the resident weight. -/
structure Refines (c : LruCache K V) (r : Recency K V) (slots : List ℕ) : Prop where
  consistent : Consistent c slots
  entries : slots.map c.entryAt = r.entries.map some
  capacity : c.capacity = r.capacity
  used : c.capacity < u64Max → c.used = Recency.total r.entries

namespace Refines

variable {c : LruCache K V} {r : Recency K V} {slots : List ℕ}

private theorem length_slots (h : Refines c r slots) : slots.length = r.entries.length := by
  simpa using congrArg List.length h.entries

/-- A listed slot holds an entry of the reference. -/
theorem entry_of_mem (h : Refines c r slots) {i : ℕ} (hi : i ∈ slots) :
    ∃ e ∈ r.entries, c.entryAt i = some e := by
  have hm : c.entryAt i ∈ r.entries.map some := h.entries ▸ List.mem_map_of_mem hi
  obtain ⟨e, he, heq⟩ := List.mem_map.mp hm
  exact ⟨e, he, heq.symm⟩

/-- An entry of the reference is held by a listed slot, which the index names. -/
theorem lookup_of_mem (h : Refines c r slots) {e : K × V × ℕ} (he : e ∈ r.entries) :
    ∃ i ∈ slots, c.entryAt i = some e ∧ c.indices.lookup e.1 = some i := by
  have hm : some e ∈ slots.map c.entryAt := h.entries ▸ List.mem_map_of_mem he
  obtain ⟨i, hi, heq⟩ := List.mem_map.mp hm
  refine ⟨i, hi, heq, ?_⟩
  rw [entryAt, Option.map_eq_some_iff] at heq
  obtain ⟨n, hn, rfl⟩ := heq
  exact h.consistent.lookup_key hi hn

/-- A key that is not indexed has no entry. -/
theorem lookup_eq_none (h : Refines c r slots) {key : K} (hk : c.indices.lookup key = none) :
    ∀ e ∈ r.entries, e.1 ≠ key := by
  rintro e he rfl
  obtain ⟨i, -, -, hl⟩ := h.lookup_of_mem he
  rw [hk] at hl
  cases hl

/-- No key is stored twice. -/
theorem nodup_keys (h : Refines c r slots) : (r.entries.map Prod.fst).Nodup := by
  have hs : (slots.map fun i ↦ (c.entryAt i).map Prod.fst).Nodup := by
    refine h.consistent.nodup_slots.map_on ?_
    intro i hi j hj heq
    obtain ⟨n, hn⟩ := h.consistent.node_of_mem hi
    obtain ⟨m, hm⟩ := h.consistent.node_of_mem hj
    have hli := h.consistent.lookup_key hi hn
    have hlj := h.consistent.lookup_key hj hm
    simp only [entryAt, hn, hm, Option.map_some, Option.some.injEq] at heq
    rw [heq, hlj] at hli
    exact (Option.some.inj hli).symm
  have he : (slots.map fun i ↦ (c.entryAt i).map Prod.fst) =
      (r.entries.map Prod.fst).map some := by
    have hm := congrArg (List.map (Option.map Prod.fst)) h.entries
    rw [List.map_map, List.map_map] at hm
    rw [List.map_map]
    exact hm
  rw [he] at hs
  exact hs.of_map

/-- `len` counts the entries of the reference. -/
theorem len_eq (h : Refines c r slots) : c.len = r.entries.length := by
  have hp : c.indices.keys.Perm (r.entries.map Prod.fst) := by
    rw [List.perm_ext_iff_of_nodup c.indices.keys_nodup h.nodup_keys]
    intro key
    rw [← AList.mem_keys, ← AList.lookup_isSome, Option.isSome_iff_exists, List.mem_map]
    constructor
    · rintro ⟨i, hi⟩
      obtain ⟨hs, n, hn, rfl⟩ := (h.consistent.index key i).mp hi
      obtain ⟨e, he, heq⟩ := h.entry_of_mem hs
      refine ⟨e, he, ?_⟩
      rw [entryAt, hn, Option.map_some, Option.some.injEq] at heq
      rw [← heq]
    · rintro ⟨e, he, rfl⟩
      obtain ⟨i, -, -, hi⟩ := h.lookup_of_mem he
      exact ⟨i, hi⟩
  have hl := hp.length_eq
  rw [AList.keys, List.length_map] at hl
  simpa [len, List.keys] using hl

/-- A key without entry is not indexed. -/
theorem lookup_none_of (h : Refines c r slots) {key : K} (hk : ∀ e ∈ r.entries, e.1 ≠ key) :
    c.indices.lookup key = none := by
  cases hl : c.indices.lookup key with
  | none => rfl
  | some i =>
    obtain ⟨hs, n, hn, rfl⟩ := (h.consistent.index key i).mp hl
    obtain ⟨e, he, heq⟩ := h.entry_of_mem hs
    rw [entryAt, hn, Option.map_some, Option.some.injEq] at heq
    exact absurd (by rw [← heq]) (hk e he)

/-- The slot the index names for a key splits slots and entries at the same place. -/
theorem locate (h : Refines c r slots) {key : K} {i : ℕ} (hl : c.indices.lookup key = some i) :
    ∃ left right before after n, slots = left ++ i :: right ∧
      r.entries = before ++ (key, n.value, n.weight) :: after ∧ c.node i = some n ∧
      left.map c.entryAt = before.map some ∧ right.map c.entryAt = after.map some := by
  obtain ⟨hs, n, hn, rfl⟩ := (h.consistent.index key i).mp hl
  obtain ⟨left, right, rfl⟩ := List.append_of_mem hs
  have he := h.entries.symm
  rw [List.map_append, List.map_cons, List.map_eq_append_iff] at he
  obtain ⟨before, tail, hb, hleft, ht⟩ := he
  obtain ⟨e, after, rfl, hes, hright⟩ := List.map_eq_cons_iff.mp ht
  rw [entryAt, hn, Option.map_some, Option.some.injEq] at hes
  subst hes
  exact ⟨left, right, before, after, n, rfl, hb, hn, hleft.symm, hright.symm⟩

end Refines
end LruCache

namespace Recency

variable {K V : Type} {before after : List (K × V × ℕ)} {e : K × V × ℕ}

private theorem ne_of_nodup (h : ((before ++ e :: after).map Prod.fst).Nodup) :
    ∀ x ∈ before ++ after, x.1 ≠ e.1 := by
  intro x hx heq
  rw [List.map_append, List.map_cons] at h
  have hn := List.perm_middle.nodup_iff.mp h
  rw [← List.map_append, List.nodup_cons] at hn
  exact hn.1 (List.mem_map.mpr ⟨x, hx, heq⟩)

/-- What is kept is a suffix: eviction starts at the least recently used entry. -/
theorem shed_suffix (capacity weight : ℕ) (entries : List (K × V × ℕ)) :
    (shed capacity weight entries).2 <:+ entries := by
  induction entries with
  | nil => exact List.suffix_refl _
  | cons e rest ih =>
    rw [shed]
    split
    · exact ih.trans (List.suffix_cons e rest)
    · exact List.suffix_refl _

/-- Eviction stops with room for the new weight. -/
theorem shed_fits {capacity weight : ℕ} (hw : weight ≤ capacity) (entries : List (K × V × ℕ)) :
    saturatingAdd (total (shed capacity weight entries).2) weight ≤ capacity := by
  induction entries with
  | nil => exact (Nat.min_le_left _ _).trans (by simpa [shed, total] using hw)
  | cons e rest ih =>
    rw [shed]
    split
    · exact ih
    · next hfit => exact Nat.not_lt.mp hfit

variable [DecidableEq K]

/-- The entry a nodup association list holds at a key. -/
theorem find_middle (capacity : ℕ) (h : ((before ++ e :: after).map Prod.fst).Nodup) :
    (⟨before ++ e :: after, capacity⟩ : Recency K V).find e.1 = some e := by
  have hne := ne_of_nodup h
  rw [find, List.find?_append, List.find?_eq_none.mpr]
  · simp
  · intro x hx
    simpa using hne x (List.mem_append_left _ hx)

/-- Removing a key takes out the one entry that has it. -/
theorem without_middle (capacity : ℕ) (h : ((before ++ e :: after).map Prod.fst).Nodup) :
    (⟨before ++ e :: after, capacity⟩ : Recency K V).without e.1 =
      ⟨before ++ after, capacity⟩ := by
  have hne := ne_of_nodup h
  have hf : (before ++ after).filter (fun x ↦ x.1 ≠ e.1) = before ++ after := by
    rw [List.filter_eq_self]
    intro x hx
    simpa using hne x hx
  rw [List.filter_append] at hf
  simp [without, List.filter_append, ← hf]

end Recency

namespace LruCache

variable {K V : Type} [DecidableEq K] {c : LruCache K V} {r : Recency K V} {slots : List ℕ}

/-- `remove_index` removes the entry at the slot's position of the reference. -/
theorem Refines.removeIndex {left right : List ℕ} {i : ℕ} {before after : List (K × V × ℕ)}
    {n : Node K V} {capacity : ℕ}
    (h : Refines c ⟨before ++ (n.key, n.value, n.weight) :: after, capacity⟩
      (left ++ i :: right))
    (hn : c.node i = some n) (hleft : left.map c.entryAt = before.map some)
    (hright : right.map c.entryAt = after.map some) :
    ∃ c', c.removeIndex i = some (some n, c') ∧
      Refines c' ⟨before ++ after, capacity⟩ (left ++ right) ∧
      c'.nodes.length = c.nodes.length := by
  obtain ⟨c', hrun, hc, he, -, hu, hcap, hlen⟩ := removeIndex_spec h.consistent hn
  refine ⟨c', hrun, ⟨hc, ?_, hcap.trans h.capacity, ?_⟩, hlen⟩
  · rw [List.map_congr_left he, List.map_append, List.map_append, hleft, hright]
  · intro hlt
    have ht := h.used (hcap ▸ hlt)
    simp only [Recency.total, List.map_append, List.map_cons, List.sum_append,
      List.sum_cons] at ht ⊢
    rw [hu, ht]
    omega

private theorem Refines.removeFirst {right : List ℕ} {i : ℕ} {after : List (K × V × ℕ)} {n : Node K V}
    {capacity : ℕ} (h : Refines c ⟨(n.key, n.value, n.weight) :: after, capacity⟩ (i :: right))
    (hn : c.node i = some n) (hright : right.map c.entryAt = after.map some) :
    ∃ c', c.removeIndex i = some (some n, c') ∧ Refines c' ⟨after, capacity⟩ right ∧
      c'.nodes.length = c.nodes.length := by
  rw [← List.nil_append (_ :: after), ← List.nil_append (i :: right)] at h
  exact h.removeIndex hn rfl hright

/-- A full slab and the reference evict on the same condition. -/
theorem Refines.overflows_iff (h : Refines c r slots) (weight : ℕ) :
    saturatingAdd c.used weight > c.capacity ↔
      saturatingAdd (Recency.total r.entries) weight > r.capacity := by
  rw [h.capacity]
  by_cases hlt : r.capacity < u64Max
  · rw [h.used (h.capacity ▸ hlt)]
  · have (used : ℕ) : ¬saturatingAdd used weight > r.capacity := fun hgt ↦
      hlt (Nat.lt_of_lt_of_le hgt (Nat.min_le_right _ _))
    exact iff_of_false (this _) (this _)

private theorem min_saturatingAdd (count shed : ℕ) :
    min (saturatingAdd count 1 + shed) u64Max = min (count + (shed + 1)) u64Max := by
  rw [saturatingAdd]
  generalize u64Max = m
  omega

/-- The eviction loop ends, without a panic, having shed what the reference sheds. -/
theorem Refines.evict (weight : ℕ) {fuel count : ℕ} (h : Refines c r slots)
    (hf : r.entries.length < fuel) (hcount : count ≤ u64Max) :
    ∃ c' slots', LruCache.evict weight fuel c count =
        some (min (count + (Recency.shed r.capacity weight r.entries).1) u64Max, c') ∧
      Refines c' ⟨(Recency.shed r.capacity weight r.entries).2, r.capacity⟩ slots' := by
  obtain ⟨entries, capacity⟩ := r
  induction entries generalizing c slots fuel count with
  | nil =>
    cases fuel with
    | zero => exact absurd hf (Nat.not_lt_zero _)
    | succ fuel =>
      have hl : c.leastRecent = none := by
        rw [h.consistent.least, List.head?_eq_none_iff, ← List.length_eq_zero_iff, h.length_slots]
        rfl
      refine ⟨c, slots, ?_, h⟩
      rw [LruCache.evict, hl]
      simp only [Recency.shed, Nat.add_zero, Nat.min_eq_left hcount, ite_self]
  | cons e rest ih =>
    cases fuel with
    | zero => exact absurd hf (Nat.not_lt_zero _)
    | succ fuel =>
      rw [LruCache.evict, Recency.shed]
      by_cases hover : saturatingAdd (Recency.total (e :: rest)) weight > capacity
      · obtain ⟨i, right, rfl, he, hright⟩ := List.map_eq_cons_iff.mp h.entries
        obtain ⟨n, hn⟩ := h.consistent.node_of_mem List.mem_cons_self
        have hl : c.leastRecent = some i := by rw [h.consistent.least, List.head?_cons]
        rw [LruCache.entryAt, hn, Option.map_some, Option.some.injEq] at he
        subst he
        obtain ⟨c', hrun, hr, -⟩ :=
          Refines.removeFirst h hn hright
        have hc' : saturatingAdd count 1 ≤ u64Max := Nat.min_le_right _ _
        obtain ⟨c'', slots', hev, hr'⟩ := ih hc' hr (Nat.lt_of_succ_lt_succ hf)
        refine ⟨c'', slots', ?_, ?_⟩
        · rw [if_pos ((h.overflows_iff weight).mpr hover), if_pos hover, hl]
          simp only [hrun, bind, Option.bind]
          rw [hev, min_saturatingAdd]
        · rw [if_pos hover]
          exact hr'
      · refine ⟨c, slots, ?_, ?_⟩
        · rw [if_neg (fun h' ↦ hover ((h.overflows_iff weight).mp h')), if_neg hover,
            Nat.add_zero, Nat.min_eq_left hcount]
        · rw [if_neg hover]
          exact h

/-- `get` answers and promotes as the reference does. -/
theorem Refines.get (h : Refines c r slots) (key : K) :
    ∃ c' slots', c.get key = some ((r.get key).1, c') ∧ Refines c' (r.get key).2 slots' := by
  rw [LruCache.get, Recency.get]
  cases hl : c.indices.lookup key with
  | none =>
    have hf : r.find key = none := by
      rw [Recency.find, List.find?_eq_none]
      intro e he
      simpa using h.lookup_eq_none hl e he
    rw [hf]
    exact ⟨c, slots, rfl, h⟩
  | some i =>
    obtain ⟨left, right, before, after, n, rfl, hr, hn, hleft, hright⟩ := h.locate hl
    obtain ⟨entries, capacity⟩ := r
    simp only at hr
    subst hr
    have hnd := h.nodup_keys
    rw [Recency.find_middle (e := (key, n.value, n.weight)) capacity hnd]
    obtain ⟨c', htouch, hrel, hc⟩ := touch_spec h.consistent
    obtain ⟨n', hn', -, hv, -⟩ := hrel.node_eq_some hn
    refine ⟨c', left ++ right ++ [i], ?_, hc, ?_, hrel.capacity.trans h.capacity, ?_⟩
    · rw [node, Option.join_eq_some_iff] at hn'
      simp only [htouch, bind, Option.bind, hn', Option.map_some, hv]
      rfl
    · rw [Recency.without_middle (e := (key, n.value, n.weight)) capacity hnd]
      obtain ⟨-, n₀, hn₀, hk⟩ := (h.consistent.index key i).mp hl
      rw [hn, Option.some.injEq] at hn₀
      have hi : c'.entryAt i = some (key, n.value, n.weight) := by
        rw [hrel.entryAt, LruCache.entryAt, hn, Option.map_some, hn₀, hk]
      have hmap (l : List ℕ) : l.map c'.entryAt = l.map c.entryAt :=
        List.map_congr_left fun j _ ↦ hrel.entryAt j
      simp only [List.map_append, hmap, hleft, hright, List.map_cons, List.map_nil]
      rw [← hrel.entryAt, hi]
    · intro hlt
      rw [hrel.used, h.used (hrel.capacity ▸ hlt),
        Recency.without_middle (e := (key, n.value, n.weight)) capacity hnd]
      simp only [Recency.total, List.map_append, List.map_cons, List.sum_append,
        List.sum_cons, List.map_nil, List.sum_nil]
      omega

/-- Removing an indexed key, or finding it absent, leaves the reference without the key. -/
theorem Refines.removeKey (h : Refines c r slots) (key : K) :
    (c.indices.lookup key = none ∧ r.find key = none ∧ r.without key = r) ∨
    ∃ i n c' slots', c.indices.lookup key = some i ∧ c.removeIndex i = some (some n, c') ∧
      (r.find key).map (fun e ↦ e.2.1) = some n.value ∧ Refines c' (r.without key) slots' := by
  cases hl : c.indices.lookup key with
  | none =>
    have hne := h.lookup_eq_none hl
    refine .inl ⟨rfl, ?_, ?_⟩
    · rw [Recency.find, List.find?_eq_none]
      intro e he
      simpa using hne e he
    · rw [Recency.without, List.filter_eq_self.mpr]
      intro e he
      simpa using hne e he
  | some i =>
    obtain ⟨left, right, before, after, n, rfl, hr, hn, hleft, hright⟩ := h.locate hl
    obtain ⟨-, n₀, hn₀, rfl⟩ := (h.consistent.index key i).mp hl
    rw [hn, Option.some.injEq] at hn₀
    subst hn₀
    obtain ⟨entries, capacity⟩ := r
    simp only at hr
    subst hr
    have hnd := h.nodup_keys
    obtain ⟨c', hrun, hc, -⟩ := h.removeIndex hn hleft hright
    refine .inr ⟨i, n, c', left ++ right, rfl, hrun, ?_, ?_⟩
    · rw [Recency.find_middle (e := (n.key, n.value, n.weight)) capacity hnd]
      rfl
    · rw [Recency.without_middle (e := (n.key, n.value, n.weight)) capacity hnd]
      exact hc

/-- The replacement before an insertion drops the key from the reference. -/
theorem Refines.dropKey (h : Refines c r slots) (key : K) :
    ∃ c' slots', c.dropKey key = some c' ∧ Refines c' (r.without key) slots' := by
  rw [LruCache.dropKey]
  rcases h.removeKey key with ⟨hl, -, hw⟩ | ⟨i, n, c', slots', hl, hrun, -, hr⟩
  · rw [hl, hw]
    exact ⟨c, slots, rfl, h⟩
  · refine ⟨c', slots', ?_, hr⟩
    simp only [hl, hrun, Option.map_some]

/-- `remove` answers as the reference does. -/
theorem Refines.remove (h : Refines c r slots) (key : K) :
    ∃ c' slots', c.remove key = some ((r.remove key).1, c') ∧
      Refines c' (r.remove key).2 slots' := by
  rw [LruCache.remove, Recency.remove]
  rcases h.removeKey key with ⟨hl, hf, hw⟩ | ⟨i, n, c', slots', hl, hrun, hf, hr⟩
  · rw [hl, hf, hw]
    exact ⟨c, slots, rfl, h⟩
  · refine ⟨c', slots', ?_, hr⟩
    rw [hl, hf]
    simp only [hrun, bind, Option.bind, Option.map_some]
    rfl

/-- `pop_lru` answers as the reference does. -/
theorem Refines.popLru (h : Refines c r slots) :
    ∃ c' slots', c.popLru = some (r.popLru.1, c') ∧ Refines c' r.popLru.2 slots' := by
  obtain ⟨entries, capacity⟩ := r
  rw [LruCache.popLru, h.consistent.least]
  cases entries with
  | nil =>
    obtain rfl : slots = [] := by simpa using h.entries
    exact ⟨c, [], rfl, h⟩
  | cons e rest =>
    obtain ⟨i, right, rfl, he, hright⟩ := List.map_eq_cons_iff.mp h.entries
    obtain ⟨n, hn⟩ := h.consistent.node_of_mem List.mem_cons_self
    rw [LruCache.entryAt, hn, Option.map_some, Option.some.injEq] at he
    subst he
    obtain ⟨c', hrun, hr, -⟩ :=
      Refines.removeFirst h hn hright
    refine ⟨c', right, ?_, hr⟩
    simp only [List.head?_cons, hrun, bind, Option.bind, Option.map_some]
    rfl

/-- The tail of an insertion appends the entry once there is room for its weight. -/
theorem Refines.pushNode {key : K} (value : V) {weight : ℕ} (h : Refines c r slots)
    (hk : ∀ e ∈ r.entries, e.1 ≠ key)
    (hfit : saturatingAdd (Recency.total r.entries) weight ≤ r.capacity) :
    ∃ c' slots', c.pushNode key value weight = some c' ∧
      Refines c' { r with entries := r.entries ++ [(key, value, weight)] } slots' := by
  obtain ⟨i, c', hrun, hc, hi, he, -, hu, hcap⟩ :=
    pushNode_spec value weight h.consistent (h.lookup_none_of hk)
  refine ⟨c', slots ++ [i], hrun, hc, ?_, hcap.trans h.capacity, ?_⟩
  · rw [List.map_append, List.map_congr_left he, h.entries, List.map_append, List.map_cons, hi]
    rfl
  · intro hlt
    rw [hcap] at hlt
    have hused := h.used hlt
    rw [h.capacity] at hlt
    have hsum : Recency.total r.entries + weight < u64Max := by
      simp only [saturatingAdd] at hfit
      omega
    rw [hu, hused, saturatingAdd, Nat.min_eq_left hsum.le]
    simp [Recency.total]

/-- `insert_counting_evictions` counts, evicts and stores as the reference does. -/
theorem Refines.insertCountingEvictions (h : Refines c r slots) (key : K) (value : V)
    (weight : ℕ) :
    ∃ c' slots', c.insertCountingEvictions key value weight =
        some ((r.insertCountingEvictions key value weight).1, c') ∧
      Refines c' (r.insertCountingEvictions key value weight).2 slots' := by
  obtain ⟨c₁, slots₁, h₁, hr₁⟩ := h.dropKey key
  have hcap : c₁.capacity = r.capacity := hr₁.capacity
  rw [LruCache.insertCountingEvictions, Recency.insertCountingEvictions]
  simp only [h₁, bind, Option.bind, hcap]
  by_cases hfull : r.capacity = 0 ∨ weight > r.capacity
  · rw [if_pos hfull, if_pos hfull]
    exact ⟨c₁, slots₁, rfl, hr₁⟩
  · rw [if_neg hfull, if_neg hfull]
    have hweight : weight ≤ r.capacity := by omega
    have hfuel : (r.without key).entries.length < c₁.nodes.length + 1 := by
      have ht := hr₁.consistent.tiling.length_eq
      rw [List.length_append, List.length_range, hr₁.length_slots] at ht
      omega
    obtain ⟨c₂, slots₂, h₂, hr₂⟩ := hr₁.evict weight hfuel (Nat.zero_le _)
    have hk : ∀ e ∈ (Recency.shed r.capacity weight (r.without key).entries).2, e.1 ≠ key := by
      intro e he
      have hm := (Recency.shed_suffix _ _ _).subset he
      simpa using (List.mem_filter.mp hm).2
    obtain ⟨c₃, slots₃, h₃, hr₃⟩ := hr₂.pushNode value hk (Recency.shed_fits hweight _)
    refine ⟨c₃, slots₃, ?_, hr₃⟩
    rw [Nat.zero_add] at h₂
    simp only [h₂, h₃]
    rfl

/-- `clear` empties the reference and frees every slot. -/
theorem Refines.clear (h : Refines c r slots) :
    Refines c.clear { r with entries := [] } [] where
  consistent := {
    least := rfl
    most := rfl
    links := True.intro
    tiling := by
      simp only [LruCache.clear, List.nil_append, List.length_map]
      exact List.reverse_perm _
    freed := by
      intro i _
      simp only [LruCache.clear, node, List.getElem?_map]
      cases c.nodes[i]? <;> rfl
    index := by
      intro key i
      simp [LruCache.clear] }
  entries := rfl
  capacity := h.capacity
  used _ := rfl

/-- Every call returns, answers as the reference does and keeps the refinement. -/
theorem Refines.apply (h : Refines c r slots) (op : LruOp K V) :
    ∃ c' slots', c.apply op = some ((r.apply op).1, c') ∧ Refines c' (r.apply op).2 slots' := by
  cases op with
  | get key =>
    obtain ⟨c', slots', hrun, hr⟩ := h.get key
    exact ⟨c', slots', by rw [LruCache.apply, hrun]; rfl, hr⟩
  | insert key value weight =>
    obtain ⟨c', slots', hrun, hr⟩ := h.insertCountingEvictions key value weight
    exact ⟨c', slots', by rw [LruCache.apply, LruCache.insert, hrun]; rfl, hr⟩
  | insertCountingEvictions key value weight =>
    obtain ⟨c', slots', hrun, hr⟩ := h.insertCountingEvictions key value weight
    exact ⟨c', slots', by rw [LruCache.apply, hrun]; rfl, hr⟩
  | remove key =>
    obtain ⟨c', slots', hrun, hr⟩ := h.remove key
    exact ⟨c', slots', by rw [LruCache.apply, hrun]; rfl, hr⟩
  | popLru =>
    obtain ⟨c', slots', hrun, hr⟩ := h.popLru
    exact ⟨c', slots', by rw [LruCache.apply, hrun]; rfl, hr⟩
  | clear => exact ⟨c.clear, [], rfl, h.clear⟩

/-- A run from related states returns what the reference's run returns. -/
theorem Refines.run (h : Refines c r slots) (ops : List (LruOp K V)) :
    ∃ c' slots', c.run ops = some ((r.run ops).1, c') ∧ Refines c' (r.run ops).2 slots' := by
  induction ops generalizing c r slots with
  | nil => exact ⟨c, slots, rfl, h⟩
  | cons op ops ih =>
    obtain ⟨c₁, slots₁, h₁, hr₁⟩ := h.apply op
    obtain ⟨c₂, slots₂, h₂, hr₂⟩ := ih hr₁
    refine ⟨c₂, slots₂, ?_, hr₂⟩
    simp only [LruCache.run, h₁, h₂, bind, Option.bind, hr₁.len_eq]
    rfl

/-- A new cache stands for the empty reference. -/
theorem Refines.new (capacity : ℕ) :
    Refines (LruCache.new capacity : LruCache K V) ⟨[], capacity⟩ [] where
  consistent := ⟨rfl, rfl, True.intro, List.Perm.refl _, by simp [LruCache.new],
    by simp [LruCache.new]⟩
  entries := rfl
  capacity := rfl
  used _ := rfl

/-- Every sequence of calls on a new cache returns, with the answers and lengths of the
recency list, and ends in a consistent slab that holds the reference's entries in order. -/
theorem run_refines_recency (capacity : ℕ) (ops : List (LruOp K V)) :
    ∃ c slots, (LruCache.new capacity).run ops =
        some (((⟨[], capacity⟩ : Recency K V).run ops).1, c) ∧
      Consistent c slots ∧
      slots.map c.entryAt = ((⟨[], capacity⟩ : Recency K V).run ops).2.entries.map some := by
  obtain ⟨c, slots, hrun, hr⟩ := (Refines.new capacity).run ops
  exact ⟨c, slots, hrun, hr.consistent, hr.entries⟩

/-! ### What a reference step does to the entries -/

end LruCache

namespace Recency

variable {K V : Type} [DecidableEq K] {r : Recency K V}

/-- A lookup answers with a stored entry or says that there is none, and only reorders. -/
theorem get_spec (h : (r.entries.map Prod.fst).Nodup) (key : K) :
    (r.get key).2.entries.Perm r.entries ∧ (r.get key).2.capacity = r.capacity ∧
      ∀ value ∈ (r.get key).1, ∃ weight, (key, value, weight) ∈ r.entries := by
  rw [get]
  cases hf : r.find key with
  | none => exact ⟨List.Perm.refl _, rfl, fun _ hv ↦ by cases hv⟩
  | some e =>
    have hm := List.mem_of_find?_eq_some hf
    have hk : e.1 = key := by simpa using List.find?_some hf
    subst hk
    obtain ⟨before, after, he⟩ := List.append_of_mem hm
    obtain ⟨entries, capacity⟩ := r
    simp only at he
    subst he
    rw [without_middle capacity h]
    refine ⟨?_, rfl, fun value hv ↦ ⟨e.2.2, ?_⟩⟩
    · change (before ++ after ++ [e]).Perm (before ++ e :: after)
      rw [List.append_assoc]
      exact List.Perm.append_left before (List.perm_append_singleton e after)
    · obtain rfl := Option.some.inj hv
      exact hm

/-- Removing a key answers with its entry, and drops it. -/
theorem length_without (h : (r.entries.map Prod.fst).Nodup) (key : K) :
    (r.without key).entries.length + ((r.remove key).1.isSome.toNat) = r.entries.length := by
  rw [remove]
  cases hf : r.find key with
  | none =>
    have hne := List.find?_eq_none.mp hf
    rw [without, List.filter_eq_self.mpr]
    · rfl
    · intro e he
      simpa using hne e he
  | some e =>
    have hm := List.mem_of_find?_eq_some hf
    have hk : e.1 = key := by simpa using List.find?_some hf
    subst hk
    obtain ⟨before, after, he⟩ := List.append_of_mem hm
    obtain ⟨entries, capacity⟩ := r
    simp only at he
    subst he
    rw [without_middle capacity h]
    simp
    omega

omit [DecidableEq K] in
/-- Eviction counts what it drops. -/
theorem length_shed (capacity weight : ℕ) (entries : List (K × V × ℕ)) :
    (shed capacity weight entries).2.length + (shed capacity weight entries).1 =
      entries.length := by
  induction entries with
  | nil => rfl
  | cons e rest ih =>
    rw [shed]
    split
    · change (shed capacity weight rest).2.length + ((shed capacity weight rest).1 + 1) = _
      rw [← Nat.add_assoc, ih, List.length_cons]
    · rfl

end Recency

namespace LruCache

variable {K V : Type}

/-- Everything the slab holds. -/
def residents (c : LruCache K V) : List (K × V × ℕ) :=
  (List.range c.nodes.length).filterMap c.entryAt

/-- The slab holds the entries of the reference. -/
theorem Refines.residents_perm [DecidableEq K] {c : LruCache K V} {r : Recency K V}
    {slots : List ℕ} (h : Refines c r slots) : c.residents.Perm r.entries := by
  have hfree : c.free.filterMap c.entryAt = [] := by
    rw [List.filterMap_eq_nil_iff]
    intro i hi
    rw [entryAt, h.consistent.freed i hi]
    rfl
  have hslots : slots.filterMap c.entryAt = r.entries := by
    have hm := congrArg (List.filterMap id) h.entries
    rw [List.filterMap_map, List.filterMap_map] at hm
    simpa using hm
  have hp := (h.consistent.tiling.filterMap c.entryAt).symm
  rw [List.filterMap_append, hfree, hslots, List.append_nil] at hp
  exact hp

/-! ### What all entries have in common -/

section Holds

variable [DecidableEq K] {P : K → V → Prop} {c : LruCache K V}

/-- A working cache in which every entry satisfies `P`. -/
def Holds (P : K → V → Prop) (c : LruCache K V) : Prop :=
  ∃ r slots, Refines c r slots ∧ ∀ e ∈ r.entries, P e.1 e.2.1

/-- A new cache has no entries. -/
theorem holds_new (capacity : ℕ) : Holds P (LruCache.new capacity) :=
  ⟨_, _, Refines.new capacity, fun e he ↦ by cases he⟩

/-- A lookup returns, and what it finds satisfies `P`. -/
theorem Holds.get (h : Holds P c) (key : K) : ∃ found c', c.get key = some (found, c') ∧
    Holds P c' ∧ ∀ value ∈ found, P key value := by
  obtain ⟨r, slots, hr, hall⟩ := h
  obtain ⟨c', slots', hget, hr'⟩ := hr.get key
  obtain ⟨hperm, -, hfound⟩ := Recency.get_spec hr.nodup_keys key
  refine ⟨_, c', hget, ⟨_, slots', hr', fun e he ↦ hall e (hperm.subset he)⟩, ?_⟩
  intro value hvalue
  obtain ⟨weight, hmem⟩ := hfound value hvalue
  exact hall _ hmem

/-- An insertion of what satisfies `P` returns. -/
theorem Holds.insert (h : Holds P c) {key : K} {value : V} (hvalue : P key value) (weight : ℕ) :
    ∃ c', c.insert key value weight = some c' ∧ Holds P c' := by
  obtain ⟨r, slots, hr, hall⟩ := h
  obtain ⟨c', slots', hinsert, hr'⟩ := hr.insertCountingEvictions key value weight
  refine ⟨c', by rw [LruCache.insert, hinsert]; rfl, _, slots', hr', fun e he ↦ ?_⟩
  rw [Recency.insertCountingEvictions] at he
  have hrest {e : K × V × ℕ} (he : e ∈ (r.without key).entries) : P e.1 e.2.1 :=
    hall e (List.mem_of_mem_filter he)
  split at he
  · exact hrest he
  · rcases List.mem_append.mp he with he | he
    · exact hrest ((Recency.shed_suffix _ _ _).subset he)
    · rw [List.mem_singleton.mp he]
      exact hvalue

/-- A weaker predicate holds of the entries as well. -/
theorem Holds.mono (h : Holds P c) {Q : K → V → Prop} (hPQ : ∀ key value, P key value → Q key value) :
    Holds Q c := by
  obtain ⟨r, slots, hr, hall⟩ := h
  exact ⟨r, slots, hr, fun e he ↦ hPQ _ _ (hall e he)⟩

/-- A removal returns. -/
theorem Holds.remove (h : Holds P c) (key : K) :
    ∃ removed c', c.remove key = some (removed, c') ∧ Holds P c' := by
  obtain ⟨r, slots, hr, hall⟩ := h
  obtain ⟨c', slots', hremove, hr'⟩ := hr.remove key
  exact ⟨_, c', hremove, _, slots', hr', fun e he ↦ hall e (List.mem_of_mem_filter he)⟩

/-- A cleared cache has no entries. -/
theorem Holds.clear (h : Holds P c) : Holds P c.clear := by
  obtain ⟨r, slots, hr, -⟩ := h
  exact ⟨_, _, hr.clear, fun e he ↦ by cases he⟩

end Holds

/-! ### The cache that keeps nothing -/

section Idle

variable [DecidableEq K] {c : LruCache K V}

/-- A working cache of capacity zero. -/
def Idle (c : LruCache K V) : Prop := ∃ slots, Refines c ⟨[], 0⟩ slots

/-- A new cache of capacity zero is idle. -/
theorem idle_new : Idle (LruCache.new 0 : LruCache K V) := ⟨_, Refines.new 0⟩

/-- A lookup finds nothing. -/
theorem Idle.get (h : Idle c) (key : K) : ∃ c', c.get key = some (none, c') ∧ Idle c' := by
  obtain ⟨slots, hr⟩ := h
  obtain ⟨c', slots', hget, hr'⟩ := hr.get key
  exact ⟨c', hget, slots', hr'⟩

/-- An insertion keeps nothing. -/
theorem Idle.insert (h : Idle c) (key : K) (value : V) (weight : ℕ) :
    ∃ c', c.insert key value weight = some c' ∧ Idle c' := by
  obtain ⟨slots, hr⟩ := h
  obtain ⟨c', slots', hinsert, hr'⟩ := hr.insertCountingEvictions key value weight
  exact ⟨c', by rw [LruCache.insert, hinsert]; rfl, slots', hr'⟩

end Idle

end LruCache
end Gitility
