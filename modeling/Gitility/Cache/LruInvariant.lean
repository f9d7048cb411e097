import Mathlib.Data.List.Perm.Basic
import Mathlib.Data.List.Range
import Gitility.Cache.Lru

/-!
# The slab invariant

What `lru.rs` keeps between its index, slab, free list and recency links, and that unlinking,
relinking and filling a slot restore it.
-/

namespace Gitility.LruCache

variable {K V : Type}

/-- The recency links of the occupied slots. -/
def linkView (c : LruCache K V) : LinkView := fun i ↦ (c.node i).map fun n ↦ (n.previous, n.next)

/-- Key, value and weight held by a slot. -/
def entryAt (c : LruCache K V) (i : ℕ) : Option (K × V × ℕ) :=
  (c.node i).map fun n ↦ (n.key, n.value, n.weight)

/-- Index, slab, free list and recency list agree, with `slots` the recency list from least
to most recently used: both ends and all links describe `slots`, every slab slot is on
exactly one of `slots` and `free`, free slots are empty, and the index names exactly the
slots of the list under their keys. -/
structure Consistent [DecidableEq K] (c : LruCache K V) (slots : List ℕ) : Prop where
  least : c.leastRecent = slots.head?
  most : c.mostRecent = slots.getLast?
  links : Linked c.linkView none slots none
  tiling : (slots ++ c.free).Perm (List.range c.nodes.length)
  freed : ∀ i ∈ c.free, c.node i = none
  index : ∀ key i, c.indices.lookup key = some i ↔
    i ∈ slots ∧ ∃ n, c.node i = some n ∧ n.key = key

/-! ### Writing one node -/

/-- Two caches that differ only in recency links and list ends. -/
structure Relinks (c c' : LruCache K V) : Prop where
  indices : c'.indices = c.indices
  free : c'.free = c.free
  used : c'.used = c.used
  capacity : c'.capacity = c.capacity
  length : c'.nodes.length = c.nodes.length
  entryAt : ∀ i, c'.entryAt i = c.entryAt i

namespace Relinks

variable {c c' c'' : LruCache K V}

private theorem trans (h : Relinks c c') (h' : Relinks c' c'') : Relinks c c'' where
  indices := h'.indices.trans h.indices
  free := h'.free.trans h.free
  used := h'.used.trans h.used
  capacity := h'.capacity.trans h.capacity
  length := h'.length.trans h.length
  entryAt i := (h'.entryAt i).trans (h.entryAt i)

private theorem refl (c : LruCache K V) : Relinks c c := ⟨rfl, rfl, rfl, rfl, rfl, fun _ ↦ rfl⟩

/-- Relinking neither fills nor empties a slot. -/
theorem node_eq_none (h : Relinks c c') {i : ℕ} (hi : c.node i = none) : c'.node i = none := by
  have he := h.entryAt i
  simpa [LruCache.entryAt, hi] using he

/-- Relinking keeps each occupied slot's key, value and weight. -/
theorem node_eq_some (h : Relinks c c') {i : ℕ} {n : Node K V} (hi : c.node i = some n) :
    ∃ n', c'.node i = some n' ∧ n'.key = n.key ∧ n'.value = n.value ∧ n'.weight = n.weight := by
  have he := h.entryAt i
  simp only [LruCache.entryAt, hi, Option.map_some, Option.map_eq_some_iff] at he
  obtain ⟨n', hn', heq⟩ := he
  simp only [Prod.mk.injEq] at heq
  exact ⟨n', hn', heq.1, heq.2.1, heq.2.2⟩

/-- The relation is symmetric, so facts about slots move both ways. -/
theorem symm (h : Relinks c c') : Relinks c' c where
  indices := h.indices.symm
  free := h.free.symm
  used := h.used.symm
  capacity := h.capacity.symm
  length := h.length.symm
  entryAt i := (h.entryAt i).symm

end Relinks

private theorem lt_of_node {c : LruCache K V} {i : ℕ} {n : Node K V} (h : c.node i = some n) :
    i < c.nodes.length := by
  by_contra hi
  rw [node, List.getElem?_eq_none (Nat.not_lt.mp hi)] at h
  cases h

private theorem node_set (c : LruCache K V) {i : ℕ} (hi : i < c.nodes.length)
    (slot : Option (Node K V)) (j : ℕ) :
    (c.nodes.set i slot)[j]?.join = if i = j then slot else c.node j := by
  rw [List.getElem?_set]
  split
  · simp
  · rfl

/-- Assigning through `node_mut` redirects one slot's links and nothing else. -/
theorem nodeMut_spec {c : LruCache K V} {i : ℕ} {n : Node K V} (h : c.node i = some n)
    (f : Node K V → Node K V)
    (hf : ((f n).key, (f n).value, (f n).weight) = (n.key, n.value, n.weight)) :
    ∃ c', c.nodeMut i f = some c' ∧ Relinks c c' ∧
      c'.linkView = Function.update c.linkView i (some ((f n).previous, (f n).next)) ∧
      c'.leastRecent = c.leastRecent ∧ c'.mostRecent = c.mostRecent := by
  have hi := lt_of_node h
  refine ⟨{ c with nodes := c.nodes.set i (some (f n)) }, ?_, ?_, ?_, rfl, rfl⟩
  · simp only [nodeMut, h, Option.map_some]
  · refine ⟨rfl, rfl, rfl, rfl, by simp, ?_⟩
    intro j
    simp only [entryAt]
    rw [node, node_set c hi]
    split
    · next hj => rw [← hj, h, Option.map_some, Option.map_some, hf]
    · rfl
  · funext j
    simp only [linkView]
    rw [node, node_set c hi]
    by_cases hj : i = j
    · subst j
      simp
    · rw [if_neg hj, Function.update_of_ne (Ne.symm hj)]
      rfl

/-- The links of an occupied slot come from its node. -/
theorem node_of_linkView {c : LruCache K V} {i : ℕ} {links : Option ℕ × Option ℕ}
    (h : c.linkView i = some links) :
    ∃ n, c.node i = some n ∧ n.previous = links.1 ∧ n.next = links.2 := by
  rw [linkView, Option.map_eq_some_iff] at h
  obtain ⟨n, hn, rfl⟩ := h
  exact ⟨n, hn, rfl, rfl⟩

/-! ### Redirecting the neighbours of a slot -/

/-- Pointing whatever ends the segment `left` at `next`. -/
theorem linkNext_spec {c : LruCache K V} {left : List ℕ} {after : Option ℕ}
    (hn : left.Nodup) (hl : Linked c.linkView none left after) (next : Option ℕ) :
    ∃ c', c.linkNext left.getLast? next = some c' ∧ Relinks c c' ∧
      Linked c'.linkView none left next ∧ (∀ i ∉ left, c'.linkView i = c.linkView i) ∧
      c'.leastRecent = (if left = [] then next else c.leastRecent) ∧
      c'.mostRecent = c.mostRecent := by
  rcases List.eq_nil_or_concat' left with rfl | ⟨front, last, rfl⟩
  · refine ⟨{ c with leastRecent := next }, rfl, ?_, True.intro, fun _ _ ↦ rfl, rfl, rfl⟩
    exact ⟨rfl, rfl, rfl, rfl, rfl, fun _ ↦ rfl⟩
  · obtain ⟨n, hnode, hp, -⟩ := node_of_linkView hl.middle
    obtain ⟨c', hc, hr, hv, hle, hm⟩ :=
      nodeMut_spec hnode (fun node ↦ { node with next }) rfl
    refine ⟨c', ?_, hr, ?_, ?_, ?_, hm⟩
    · simpa [linkNext] using hc
    · rw [hv]
      simp only [hp]
      exact hl.setNext hn
    · intro i hi
      rw [hv, Function.update_of_ne]
      rintro rfl
      exact hi (by simp)
    · rw [hle, if_neg (by simp)]

/-- Pointing the slot that starts a segment back at `previous`. -/
theorem linkPrevious_spec {c : LruCache K V} {slot : ℕ} {right : List ℕ} {before : Option ℕ}
    (hn : (slot :: right).Nodup) (hl : Linked c.linkView before (slot :: right) none)
    (previous : Option ℕ) :
    ∃ c', c.nodeMut slot (fun n ↦ { n with previous }) = some c' ∧ Relinks c c' ∧
      Linked c'.linkView previous (slot :: right) none ∧
      (∀ i ∉ slot :: right, c'.linkView i = c.linkView i) ∧
      c'.leastRecent = c.leastRecent ∧ c'.mostRecent = c.mostRecent := by
  obtain ⟨n, hnode, -, hx⟩ := node_of_linkView hl.1
  obtain ⟨c', hc, hr, hv, hle, hm⟩ :=
    nodeMut_spec hnode (fun n ↦ { n with previous }) rfl
  refine ⟨c', hc, hr, ?_, ?_, hle, hm⟩
  · rw [hv]
    simp only [hx]
    exact hl.setPrevious hn
  · intro i hi
    rw [hv, Function.update_of_ne]
    rintro rfl
    exact hi List.mem_cons_self

/-! ### What the invariant gives -/

namespace Consistent

variable [DecidableEq K] {c c' : LruCache K V} {slots left right : List ℕ} {i : ℕ}

private theorem nodup (h : Consistent c slots) : (slots ++ c.free).Nodup :=
  h.tiling.nodup_iff.mpr List.nodup_range

/-- No slot is listed twice. -/
theorem nodup_slots (h : Consistent c slots) : slots.Nodup := h.nodup.of_append_left

/-- Every slot of the recency list is occupied: the `expect` cannot fail there. -/
theorem node_of_mem (h : Consistent c slots) (hi : i ∈ slots) : ∃ n, c.node i = some n := by
  have hs := h.links.isSome hi
  rw [linkView, Option.isSome_map] at hs
  exact Option.isSome_iff_exists.mp hs

/-- Splitting the recency list at one slot: its links and both remaining segments. -/
theorem split (h : Consistent c (left ++ i :: right)) :
    ∃ n, c.node i = some n ∧ n.previous = left.getLast? ∧ n.next = right.head? ∧
      Linked c.linkView none left (some i) ∧ Linked c.linkView (some i) right none ∧
      (i :: (left ++ right)).Nodup := by
  have hl := Linked.append_iff.mp h.links
  obtain ⟨n, hn, hp, hx⟩ := node_of_linkView h.links.middle
  refine ⟨n, hn, ?_, ?_, ?_, hl.2.2, ?_⟩
  · simpa using hp
  · simpa using hx
  · simpa using hl.1
  · exact (List.perm_middle.nodup_iff).mp h.nodup_slots

/-- The key of a listed slot is indexed there. -/
theorem lookup_key (h : Consistent c slots) (hi : i ∈ slots) {n : Node K V}
    (hn : c.node i = some n) : c.indices.lookup n.key = some i :=
  (h.index n.key i).mpr ⟨hi, n, hn, rfl⟩

end Consistent

/-! ### Unlinking, promoting and appending a slot -/

private theorem head?_middle (left right : List ℕ) (i : ℕ) :
    (if left = [] then right.head? else (left ++ i :: right).head?) = (left ++ right).head? := by
  cases left <;> simp

private theorem getLast?_middle {left right : List ℕ} {i : ℕ} (h : right ≠ []) :
    (left ++ i :: right).getLast? = (left ++ right).getLast? := by
  rw [List.getLast?_append, List.getLast?_append, List.getLast?_cons]
  cases hr : right.getLast? with
  | none => exact absurd (List.getLast?_eq_none_iff.mp hr) h
  | some x => rfl

/-- The two assignments that take a slot out of the recency list. -/
private theorem unlink_spec {c : LruCache K V} {left right : List ℕ} {before after : Option ℕ}
    (hl : Linked c.linkView none left after) (hr : Linked c.linkView before right none)
    (hn : (left ++ right).Nodup) :
    ∃ c₁ c₂, c.linkNext left.getLast? right.head? = some c₁ ∧
      (∀ next, right.head? = some next →
        c₁.nodeMut next (fun n ↦ { n with previous := left.getLast? }) = some c₂) ∧
      (right = [] → c₂ = c₁) ∧ Relinks c c₂ ∧ Linked c₂.linkView none (left ++ right) none ∧
      (∀ j ∉ left ++ right, c₂.linkView j = c.linkView j) ∧
      c₂.leastRecent = (if left = [] then right.head? else c.leastRecent) ∧
      c₂.mostRecent = c.mostRecent := by
  have hd := List.disjoint_of_nodup_append hn
  obtain ⟨c₁, h₁, rl₁, l₁, f₁, least₁, most₁⟩ :=
    linkNext_spec hn.of_append_left hl right.head?
  have hr₁ : Linked c₁.linkView before right none := hr.congr fun j hj ↦ (f₁ j fun h ↦ hd h hj).symm
  cases right with
  | nil =>
    refine ⟨c₁, c₁, h₁, by simp, fun _ ↦ rfl, rl₁, by simpa using l₁, ?_, least₁, most₁⟩
    intro j hj
    exact f₁ j (by simpa using hj)
  | cons next rest =>
    obtain ⟨c₂, h₂, rl₂, l₂, f₂, least₂, most₂⟩ :=
      linkPrevious_spec hn.of_append_right hr₁ left.getLast?
    refine ⟨c₁, c₂, h₁, ?_, by simp, rl₁.trans rl₂, ?_, ?_, least₂.trans least₁,
      most₂.trans most₁⟩
    · intro j hj
      obtain rfl : next = j := by simpa using hj
      exact h₂
    · apply Linked.append_iff.mpr
      refine ⟨?_, by simpa using l₂⟩
      have := l₁.congr fun j hj ↦ (f₂ j fun h ↦ hd hj h).symm
      simpa using this
    · intro j hj
      rw [List.mem_append, not_or] at hj
      exact (f₂ j hj.2).trans (f₁ j hj.1)

/-- Relinking the same slots in a new order restores the invariant once the links and both
ends describe that order. -/
private theorem Consistent.relink [DecidableEq K] {c c' : LruCache K V} {slots slots' : List ℕ}
    (h : Consistent c slots) (hr : Relinks c c') (hp : slots'.Perm slots)
    (least : c'.leastRecent = slots'.head?) (most : c'.mostRecent = slots'.getLast?)
    (links : Linked c'.linkView none slots' none) : Consistent c' slots' where
  least := least
  most := most
  links := links
  tiling := by
    rw [hr.free, hr.length]
    exact (hp.append_right c.free).trans h.tiling
  freed i hi := hr.node_eq_none (h.freed i (hr.free ▸ hi))
  index key i := by
    rw [hr.indices, h.index key i, hp.mem_iff]
    constructor
    · rintro ⟨hi, n, hn, rfl⟩
      obtain ⟨n', hn', hk, -⟩ := hr.node_eq_some hn
      exact ⟨hi, n', hn', hk⟩
    · rintro ⟨hi, n, hn, rfl⟩
      obtain ⟨n', hn', hk, -⟩ := hr.symm.node_eq_some hn
      exact ⟨hi, n', hn', hk⟩

/-- `touch` moves a listed slot to the most recent end, without a panic. -/
theorem touch_spec [DecidableEq K] {c : LruCache K V} {left right : List ℕ} {i : ℕ}
    (h : Consistent c (left ++ i :: right)) :
    ∃ c', c.touch i = some c' ∧ Relinks c c' ∧ Consistent c' (left ++ right ++ [i]) := by
  unfold touch
  cases right with
  | nil =>
    have hm : c.mostRecent = some i := by rw [h.most]; simp
    refine ⟨c, by rw [if_pos hm], Relinks.refl c, by simpa using h⟩
  | cons next rest =>
    obtain ⟨n, hn, hp, hx, hl, hr, hnd⟩ := h.split
    obtain ⟨hi, hnd'⟩ := List.nodup_cons.mp hnd
    have hmost : c.mostRecent = (left ++ next :: rest).getLast? := by
      rw [h.most, getLast?_middle (by simp)]
    have hm : c.mostRecent ≠ some i := by
      rw [hmost]
      intro he
      exact hi (List.mem_of_getLast? he)
    rw [if_neg hm]
    obtain ⟨c₁, c₂, h₁, h₂, -, rl₂, l₂, f₂, least₂, most₂⟩ := unlink_spec hl hr hnd'
    obtain ⟨n₂, hn₂, -⟩ := rl₂.node_eq_some hn
    obtain ⟨c₃, h₃, rl₃, v₃, least₃, most₃⟩ := nodeMut_spec hn₂
      (fun n ↦ { n with previous := c₂.mostRecent, next := none }) rfl
    have l₃ : Linked c₃.linkView none (left ++ next :: rest) none := by
      refine l₂.congr fun j hj ↦ ?_
      rw [v₃, Function.update_of_ne]
      rintro rfl
      exact hi hj
    obtain ⟨c₄, h₄, rl₄, l₄, f₄, least₄, most₄⟩ := linkNext_spec hnd' l₃ (some i)
    refine ⟨{ c₄ with mostRecent := some i }, ?_, ?_, ?_⟩
    · rw [List.head?_cons] at h₁ hx
      rw [← hmost, ← most₂] at h₄
      simp only [bind, Option.bind, hn, hp, hx, h₁, h₂ next rfl, h₃, h₄]
      rfl
    · exact ((rl₂.trans rl₃).trans rl₄).trans ⟨rfl, rfl, rfl, rfl, rfl, fun _ ↦ rfl⟩
    · have rl : Relinks c { c₄ with mostRecent := some i } :=
        ((rl₂.trans rl₃).trans rl₄).trans ⟨rfl, rfl, rfl, rfl, rfl, fun _ ↦ rfl⟩
      refine h.relink rl ?_ ?_ (List.getLast?_concat).symm ?_
      · rw [List.append_assoc]
        exact List.Perm.append_left left (List.perm_append_singleton i (next :: rest))
      · change c₄.leastRecent = _
        rw [least₄, if_neg (by simp), least₃, least₂, h.least, head?_middle]
        cases left <;> rfl
      · change Linked c₄.linkView _ _ _
        apply Linked.append_iff.mpr
        refine ⟨by simpa using l₄, ?_, True.intro⟩
        rw [f₄ i hi, v₃, Function.update_self, most₂, hmost]
        simp

private theorem node_take (c : LruCache K V) (i j : ℕ) (h : i ≠ j) :
    ({ c with nodes := c.nodes.set i none } : LruCache K V).node j = c.node j := by
  simp only [node, List.getElem?_set_ne h]

private theorem node_take_self (c : LruCache K V) (i : ℕ) :
    ({ c with nodes := c.nodes.set i none } : LruCache K V).node i = none := by
  simp only [node, List.getElem?_set_self']
  cases c.nodes[i]? <;> rfl

/-- `remove_index` takes a listed slot off the list, the index and the used weight, and frees
it, without a panic. -/
theorem removeIndex_spec [DecidableEq K] {c : LruCache K V} {left right : List ℕ} {i : ℕ}
    {n : Node K V} (h : Consistent c (left ++ i :: right)) (hn : c.node i = some n) :
    ∃ c', c.removeIndex i = some (some n, c') ∧ Consistent c' (left ++ right) ∧
      (∀ j ∈ left ++ right, c'.entryAt j = c.entryAt j) ∧
      c'.indices = c.indices.erase n.key ∧ c'.used = c.used - n.weight ∧
      c'.capacity = c.capacity ∧ c'.nodes.length = c.nodes.length := by
  obtain ⟨n', hn', hp, hx, hl, hr, hnd⟩ := h.split
  obtain rfl : n = n' := by rw [hn] at hn'; exact Option.some.inj hn'
  obtain ⟨hi, hnd'⟩ := List.nodup_cons.mp hnd
  -- The slot is emptied before its neighbours are redirected around it.
  generalize hc₀ : ({ c with nodes := c.nodes.set i none } : LruCache K V) = c₀
  have hnode (j : ℕ) (hj : i ≠ j) : c₀.node j = c.node j := by rw [← hc₀, node_take c i j hj]
  have hframe (j : ℕ) (hj : j ∈ left ++ right) : c.linkView j = c₀.linkView j := by
    rw [linkView, linkView, hnode]
    rintro rfl
    exact hi hj
  have hl₀ : Linked c₀.linkView none left (some i) :=
    hl.congr fun j hj ↦ hframe j (List.mem_append_left _ hj)
  have hr₀ : Linked c₀.linkView (some i) right none :=
    hr.congr fun j hj ↦ hframe j (List.mem_append_right _ hj)
  obtain ⟨c₁, c₂, h₁, h₂, hsame, rl₂, l₂, -, least₂, most₂⟩ := unlink_spec hl₀ hr₀ hnd'
  have hfields : c₀.leastRecent = c.leastRecent ∧ c₀.mostRecent = c.mostRecent ∧
      c₀.indices = c.indices ∧ c₀.free = c.free ∧ c₀.used = c.used ∧
      c₀.capacity = c.capacity ∧ c₀.nodes.length = c.nodes.length := by
    rw [← hc₀]
    simp
  obtain ⟨fl, fm, fi, ff, fu, fc, fn⟩ := hfields
  have hfinal : ∃ most, most = (left ++ right).getLast? ∧
      c.removeIndex i = some (some n, { c₂ with
        mostRecent := most
        indices := c₂.indices.erase n.key
        used := c₂.used - n.weight
        free := i :: c₂.free }) := by
    cases right with
    | nil =>
      refine ⟨left.getLast?, by simp, ?_⟩
      obtain rfl := hsame rfl
      rw [List.head?_nil] at h₁ hx
      simp only [removeIndex, hn, bind, Option.bind, hc₀, hp, hx, h₁]
      rfl
    | cons next rest =>
      refine ⟨c₂.mostRecent, ?_, ?_⟩
      · rw [most₂, fm, h.most, getLast?_middle (by simp)]
      · rw [List.head?_cons] at h₁ hx
        simp only [removeIndex, hn, bind, Option.bind, hc₀, hp, hx, h₁, h₂ next rfl]
        rfl
  obtain ⟨most, hmost, hrun⟩ := hfinal
  have hnone : c₂.node i = none := rl₂.node_eq_none (by rw [← hc₀, node_take_self])
  refine ⟨_, hrun, ⟨?_, hmost, l₂, ?_, ?_, ?_⟩, ?_, ?_, ?_, ?_, ?_⟩
  · change c₂.leastRecent = _
    rw [least₂, fl, h.least, head?_middle]
  · change (left ++ right ++ i :: c₂.free).Perm (List.range c₂.nodes.length)
    rw [rl₂.free, rl₂.length, ff, fn]
    refine List.Perm.trans ?_ h.tiling
    rw [List.append_assoc, List.append_assoc]
    exact List.Perm.append_left left List.perm_middle
  · intro j hj
    rcases List.mem_cons.mp hj with rfl | hfree
    · exact hnone
    · rw [rl₂.free, ff] at hfree
      refine rl₂.node_eq_none ?_
      by_cases hij : i = j
      · rw [← hij, ← hc₀, node_take_self]
      · rw [hnode j hij, h.freed j hfree]
  · intro key j
    change (c₂.indices.erase n.key).lookup key = some j ↔ j ∈ left ++ right ∧
      ∃ n', c₂.node j = some n' ∧ n'.key = key
    rw [rl₂.indices, fi]
    have hslots : j ∈ left ++ i :: right ↔ j = i ∨ j ∈ left ++ right := by
      simp only [List.mem_append, List.mem_cons]
      tauto
    have hkey (hij : i ≠ j) : (∃ n', c₂.node j = some n' ∧ n'.key = key) ↔
        ∃ n', c.node j = some n' ∧ n'.key = key := by
      rw [← hnode j hij]
      constructor
      · rintro ⟨n', hn', rfl⟩
        obtain ⟨m, hm, hk, -⟩ := rl₂.symm.node_eq_some hn'
        exact ⟨m, hm, hk⟩
      · rintro ⟨n', hn', rfl⟩
        obtain ⟨m, hm, hk, -⟩ := rl₂.node_eq_some hn'
        exact ⟨m, hm, hk⟩
    have hself := h.lookup_key (by simp) hn
    by_cases hk : key = n.key
    · subst key
      rw [AList.lookup_erase]
      constructor
      · intro hf
        cases hf
      · rintro ⟨hj, hex⟩
        have hij : i ≠ j := by
          rintro rfl
          exact hi hj
        have := (h.index n.key j).mpr ⟨hslots.mpr (.inr hj), (hkey hij).mp hex⟩
        rw [hself] at this
        exact absurd (Option.some.inj this) hij
    · rw [AList.lookup_erase_ne hk, h.index key j, hslots]
      constructor
      · rintro ⟨rfl | hj, n', hn', rfl⟩
        · rw [hn] at hn'
          exact absurd (congrArg Node.key (Option.some.inj hn').symm) hk
        · refine ⟨hj, (hkey ?_).mpr ⟨n', hn', rfl⟩⟩
          rintro rfl
          exact hi hj
      · rintro ⟨hj, hex⟩
        refine ⟨.inr hj, (hkey ?_).mp hex⟩
        rintro rfl
        exact hi hj
  · intro j hj
    change c₂.entryAt j = _
    rw [rl₂.entryAt j, entryAt, entryAt, hnode]
    rintro rfl
    exact hi hj
  · change c₂.indices.erase n.key = _
    rw [rl₂.indices, fi]
  · change c₂.used - n.weight = _
    rw [rl₂.used, fu]
  · exact rl₂.capacity.trans fc
  · exact rl₂.length.trans fn

/-! ### Filling a slot -/

/-- The slot taken from the free list or grown onto the slab is an empty one off the list. -/
private theorem allocate_spec [DecidableEq K] {c : LruCache K V} {slots : List ℕ}
    (h : Consistent c slots) :
    ∃ i c', c.allocate = (i, c') ∧ (slots ++ i :: c'.free).Perm (List.range c'.nodes.length) ∧
      (∀ j, c'.node j = c.node j) ∧ (∀ j ∈ i :: c'.free, c'.node j = none) ∧
      c'.indices = c.indices ∧ c'.leastRecent = c.leastRecent ∧
      c'.mostRecent = c.mostRecent ∧ c'.used = c.used ∧ c'.capacity = c.capacity := by
  have ht := h.tiling
  unfold allocate
  split
  · next i free hf =>
    refine ⟨i, { c with free }, rfl, ?_, fun _ ↦ rfl, ?_, rfl, rfl, rfl, rfl, rfl⟩
    · rw [hf] at ht
      exact ht
    · intro j hj
      exact h.freed j (hf ▸ hj)
  · next hf =>
    have hnode (j : ℕ) :
        ({ c with nodes := c.nodes ++ [none] } : LruCache K V).node j = c.node j := by
      simp only [node, List.getElem?_append]
      split
      · rfl
      · next hj =>
        rw [List.getElem?_eq_none (Nat.not_lt.mp hj)]
        cases hk : ([none] : List (Option (Node K V)))[j - c.nodes.length]? with
        | none => rfl
        | some slot =>
          obtain rfl := List.mem_singleton.mp (List.mem_of_getElem? hk)
          rfl
    refine ⟨c.nodes.length, _, rfl, ?_, hnode, ?_, rfl, rfl, rfl, rfl, rfl⟩
    · rw [hf, List.append_nil] at ht
      simp only [hf, List.length_append, List.length_singleton]
      rw [List.range_succ]
      exact ht.append_right [c.nodes.length]
    · intro j hj
      rw [hnode]
      rcases List.mem_cons.mp hj with rfl | hfree
      · rw [node, List.getElem?_eq_none (Nat.le_refl _)]
        rfl
      · rw [hf] at hfree
        cases hfree

/-- Filling a slot appends a new key at the most recent end, without a panic. -/
theorem pushNode_spec [DecidableEq K] {c : LruCache K V} {slots : List ℕ} {key : K}
    (value : V) (weight : ℕ) (h : Consistent c slots) (hkey : c.indices.lookup key = none) :
    ∃ i c', c.pushNode key value weight = some c' ∧ Consistent c' (slots ++ [i]) ∧
      c'.entryAt i = some (key, value, weight) ∧ (∀ j ∈ slots, c'.entryAt j = c.entryAt j) ∧
      c'.indices = c.indices.insert key i ∧ c'.used = saturatingAdd c.used weight ∧
      c'.capacity = c.capacity := by
  obtain ⟨i, c₁, ha, ht, hnode₁, hfree, fi, fl, fm, fu, fc⟩ := allocate_spec h
  have hnd : (slots ++ i :: c₁.free).Nodup := ht.nodup_iff.mpr List.nodup_range
  have hi : i ∉ slots := fun hm ↦ List.disjoint_of_nodup_append hnd hm List.mem_cons_self
  have hlt : i < c₁.nodes.length := by
    simpa using ht.mem_iff.mp (List.mem_append_right _ List.mem_cons_self)
  generalize hc₂ : ({ c₁ with
    nodes := c₁.nodes.set i (some ⟨key, value, weight, c₁.mostRecent, none⟩) } :
      LruCache K V) = c₂
  have hnode (j : ℕ) : c₂.node j =
      if i = j then some ⟨key, value, weight, c₁.mostRecent, none⟩ else c.node j := by
    rw [← hc₂, ← hnode₁]
    exact node_set c₁ hlt _ j
  have hother {j : ℕ} (hj : j ∈ slots) : c₂.node j = c.node j := by
    rw [hnode, if_neg]
    rintro rfl
    exact hi hj
  have hl₂ : Linked c₂.linkView none slots none := by
    refine h.links.congr fun j hj ↦ ?_
    rw [linkView, linkView, hother hj]
  obtain ⟨c₃, h₃, rl₃, l₃, f₃, least₃, -⟩ := linkNext_spec h.nodup_slots hl₂ (some i)
  have hfields : c₂.leastRecent = c₁.leastRecent ∧ c₂.indices = c₁.indices ∧
      c₂.free = c₁.free ∧ c₂.used = c₁.used ∧ c₂.capacity = c₁.capacity ∧
      c₂.nodes.length = c₁.nodes.length := by
    rw [← hc₂]
    simp
  obtain ⟨gl, gi, gf, gu, gc, gn⟩ := hfields
  have hself : c₃.entryAt i = some (key, value, weight) := by
    rw [rl₃.entryAt, entryAt, hnode, if_pos rfl]
    rfl
  refine ⟨i, { c₃ with
    mostRecent := some i
    used := saturatingAdd c₃.used weight
    indices := c₃.indices.insert key i }, ?_, ⟨?_, ?_, ?_, ?_, ?_, ?_⟩, hself, ?_, ?_, ?_, ?_⟩
  · have hslot : ∃ slot, c₁.nodes[i]? = some slot := ⟨_, List.getElem?_eq_getElem hlt⟩
    obtain ⟨slot, hslot⟩ := hslot
    rw [← h.most, ← fm] at h₃
    simp only [pushNode, ha, bind, Option.bind, hslot, hc₂, h₃]
    rfl
  · change c₃.leastRecent = _
    rw [least₃, gl, fl, h.least]
    cases slots <;> rfl
  · exact (List.getLast?_concat).symm
  · change Linked c₃.linkView _ _ _
    apply Linked.append_iff.mpr
    refine ⟨by simpa using l₃, ?_, True.intro⟩
    rw [f₃ i hi, linkView, hnode, if_pos rfl, fm, h.most]
    simp
  · change (slots ++ [i] ++ c₃.free).Perm (List.range c₃.nodes.length)
    rw [rl₃.free, rl₃.length, gf, gn, List.append_assoc]
    exact ht
  · intro j hj
    change j ∈ c₃.free at hj
    rw [rl₃.free, gf] at hj
    refine rl₃.node_eq_none ?_
    have hij : i ≠ j := by
      rintro rfl
      exact (List.nodup_cons.mp hnd.of_append_right).1 hj
    rw [hnode, if_neg hij, ← hnode₁, hfree j (List.mem_cons_of_mem _ hj)]
  · intro k j
    change (c₃.indices.insert key i).lookup k = some j ↔ j ∈ slots ++ [i] ∧
      ∃ n, c₃.node j = some n ∧ n.key = k
    rw [rl₃.indices, gi, fi, List.mem_append, List.mem_singleton]
    have hslotkey (hj : j ∈ slots) : (∃ n, c₃.node j = some n ∧ n.key = k) ↔
        ∃ n, c.node j = some n ∧ n.key = k := by
      rw [← hother hj]
      constructor
      · rintro ⟨n, hn, rfl⟩
        obtain ⟨m, hm, hk, -⟩ := rl₃.symm.node_eq_some hn
        exact ⟨m, hm, hk⟩
      · rintro ⟨n, hn, rfl⟩
        obtain ⟨m, hm, hk, -⟩ := rl₃.node_eq_some hn
        exact ⟨m, hm, hk⟩
    have hnew : c₂.node i = some ⟨key, value, weight, c₁.mostRecent, none⟩ := by
      rw [hnode, if_pos rfl]
    obtain ⟨n₃, hn₃, hk₃, -⟩ := rl₃.node_eq_some hnew
    by_cases hk : k = key
    · subst k
      rw [AList.lookup_insert]
      constructor
      · intro hj
        obtain rfl := Option.some.inj hj
        exact ⟨.inr rfl, n₃, hn₃, hk₃⟩
      · rintro ⟨hj | rfl, hex⟩
        · have := (h.index key j).mpr ⟨hj, (hslotkey hj).mp hex⟩
          rw [hkey] at this
          cases this
        · rfl
    · rw [AList.lookup_insert_ne hk, h.index k j]
      constructor
      · rintro ⟨hj, hex⟩
        exact ⟨.inl hj, (hslotkey hj).mpr hex⟩
      · rintro ⟨hj | rfl, hex⟩
        · exact ⟨hj, (hslotkey hj).mp hex⟩
        · obtain ⟨n, hn, rfl⟩ := hex
          rw [hn₃] at hn
          obtain rfl := Option.some.inj hn
          exact absurd hk₃ hk
  · intro j hj
    change c₃.entryAt j = _
    rw [rl₃.entryAt, entryAt, entryAt, hother hj]
  · change c₃.indices.insert key i = _
    rw [rl₃.indices, gi, fi]
  · change saturatingAdd c₃.used weight = _
    rw [rl₃.used, gu, fu]
  · change c₃.capacity = _
    rw [rl₃.capacity, gc, fc]

end Gitility.LruCache
