import Mathlib.Algebra.Order.BigOperators.Group.Finset
import Mathlib.Data.Fintype.EquivFin
import Mathlib.Data.List.Perm.Basic
import Mathlib.Logic.Relation

/-!
# Graph traversal

Support for worklist algorithms over a graph given by successor lists: the reachable set, a
priority queue as a bag with a greatest element, and the invariant of Kahn's algorithm, which
emits a vertex once no edge from an unemitted vertex leads to it.
-/

namespace Gitility

variable {α : Type}

/-! ### Priority queues -/

/-- The greatest element of a bag and the rest: a pop from a priority queue. -/
def popMax (lt : α → α → Bool) : List α → Option (α × List α)
  | [] => none
  | x :: xs =>
    match popMax lt xs with
    | none => some (x, [])
    | some (y, rest) => if lt x y then some (y, x :: rest) else some (x, xs)

/-- Only the empty bag has no greatest element. -/
theorem popMax_eq_none {lt : α → α → Bool} {xs : List α} : popMax lt xs = none ↔ xs = [] := by
  cases xs with
  | nil => simp [popMax]
  | cons x xs =>
    simp only [popMax, reduceCtorEq, iff_false]
    split
    · simp
    · split <;> simp

/-- A pop takes one element out of the bag. -/
theorem perm_of_popMax {lt : α → α → Bool} {xs rest : List α} {x : α}
    (h : popMax lt xs = some (x, rest)) : (x :: rest).Perm xs := by
  induction xs generalizing x rest with
  | nil => cases h
  | cons y ys ih =>
    simp only [popMax] at h
    split at h
    · next hnone =>
      cases h
      rw [popMax_eq_none.mp hnone]
    · next z zs hsome =>
      split at h
      · cases h
        exact (List.Perm.swap y x zs).trans ((ih hsome).cons y)
      · cases h
        exact .refl _

/-! ### Reachability -/

/-- The vertices reachable from `start`. -/
def Reach (next : α → List α) (start : α) : α → Prop :=
  Relation.ReflTransGen (fun a b ↦ b ∈ next a) start

/-- No vertex reachable from `start` reaches itself again. -/
def AcyclicFrom (next : α → List α) (start : α) : Prop :=
  ∀ v, Reach next start v → ¬ Relation.TransGen (fun a b ↦ b ∈ next a) v v

/-- A closed set that holds the start holds every reachable vertex. -/
theorem Reach.mem_of_closed {next : α → List α} {start v : α} {p : α → Prop}
    (h : Reach next start v) (hstart : p start)
    (hnext : ∀ a, p a → ∀ b ∈ next a, p b) : p v := by
  induction h with
  | refl => exact hstart
  | tail _ hb ih => exact hnext _ ih _ hb

/-- Every listed vertex comes after all its children among `nodes`. -/
def ChildrenFirst (next : α → List α) (nodes : Finset α) (out : List α) : Prop :=
  ∀ before v after, out = before ++ v :: after → ∀ u ∈ nodes, v ∈ next u → u ∈ before

/-- No vertices are listed in order. -/
theorem ChildrenFirst.nil (next : α → List α) (nodes : Finset α) :
    ChildrenFirst next nodes [] := by
  intro before v after h
  cases before <;> cases h

/-- A vertex can be listed once its children among the nodes are. -/
theorem ChildrenFirst.concat {next : α → List α} {nodes : Finset α} {out : List α} {v : α}
    (h : ChildrenFirst next nodes out) (hv : ∀ u ∈ nodes, v ∈ next u → u ∈ out) :
    ChildrenFirst next nodes (out ++ [v]) := by
  intro before w after heq u hu hw
  rcases List.eq_nil_or_concat after with rfl | ⟨after, last, rfl⟩
  · obtain ⟨rfl, hlast⟩ := List.append_inj' heq rfl
    cases hlast
    exact hv u hu hw
  · rw [List.concat_eq_append, ← List.cons_append, ← List.append_assoc] at heq
    obtain ⟨rfl, -⟩ := List.append_inj' heq rfl
    exact h before w after rfl u hu hw

/-- A listed vertex stands behind each of its children. -/
theorem ChildrenFirst.sublist {next : α → List α} {nodes : Finset α} {out : List α} {u v : α}
    (h : ChildrenFirst next nodes out) (hu : u ∈ nodes) (hv : v ∈ next u) (hout : v ∈ out) :
    [u, v].Sublist out := by
  obtain ⟨before, after, rfl⟩ := List.append_of_mem hout
  have hbefore := h before v after rfl u hu hv
  exact (List.singleton_sublist.mpr hbefore).append
    (List.singleton_sublist.mpr List.mem_cons_self)

/-! ### Kahn's algorithm -/

variable [DecidableEq α]

/-- The state of Kahn's algorithm: `count` holds for every vertex the edges that lead to it
from vertices not yet in `out`, and those of `left`, the successors of the last emitted vertex
that are still to be released. A vertex whose count is zero is in `out` or in `ready`. -/
structure Kahn (next : α → List α) (nodes : Finset α) (count : α → ℕ)
    (ready out left : List α) : Prop where
  nodup : (out ++ ready).Nodup
  mem_iff : ∀ v, v ∈ out ++ ready ↔ v ∈ nodes ∧ count v = 0
  count_eq : ∀ v ∈ nodes,
    count v = left.count v + ∑ u ∈ nodes \ out.toFinset, (next u).count v

namespace Kahn

variable {next : α → List α} {nodes : Finset α} {count : α → ℕ} {ready ready' out left : List α}
  {v : α}

/-- The order of the ready vertices does not matter. -/
theorem perm (h : Kahn next nodes count ready out left) (hp : ready.Perm ready') :
    Kahn next nodes count ready' out left where
  nodup := ((hp.append_left out).nodup_iff).mp h.nodup
  mem_iff v := by rw [← h.mem_iff, (hp.append_left out).mem_iff]
  count_eq := h.count_eq

/-- Before the first vertex is emitted. -/
theorem start (hready : ready.Nodup) (hmem : ∀ v, v ∈ ready ↔ v ∈ nodes ∧ count v = 0)
    (hcount : ∀ v ∈ nodes, count v = ∑ u ∈ nodes, (next u).count v) :
    Kahn next nodes count ready [] [] where
  nodup := hready
  mem_iff := hmem
  count_eq v hv := by simp [hcount v hv]

/-- Every child of a ready vertex is out. -/
theorem children_out (h : Kahn next nodes count (v :: ready) out []) {u : α} (hu : u ∈ nodes)
    (hv : v ∈ next u) : u ∈ out := by
  by_contra hout
  have hzero := (h.mem_iff v).mp (List.mem_append_right _ List.mem_cons_self)
  have hsum := h.count_eq v hzero.1
  rw [hzero.2, List.count_nil, Nat.zero_add] at hsum
  have hle : (next u).count v ≤ ∑ u ∈ nodes \ out.toFinset, (next u).count v := by
    apply Finset.single_le_sum (f := fun u ↦ (next u).count v) (fun _ _ ↦ Nat.zero_le _)
    simp [hu, hout]
  have hpos := List.count_pos_iff.mpr hv
  omega

/-- Emitting a ready vertex leaves its successors to be released. -/
theorem pop (h : Kahn next nodes count (v :: ready) out []) :
    Kahn next nodes count ready (out ++ [v]) (next v) := by
  have hv := (h.mem_iff v).mp (List.mem_append_right _ List.mem_cons_self)
  have hout : v ∉ out := fun hv' ↦
    List.disjoint_of_nodup_append h.nodup hv' List.mem_cons_self
  refine ⟨by simpa using h.nodup, fun w ↦ by simpa using h.mem_iff w, fun w hw ↦ ?_⟩
  have hset : nodes \ out.toFinset = insert v (nodes \ (out ++ [v]).toFinset) := by
    ext u
    by_cases hu : u = v <;> simp [hu, hv.1, hout]
  rw [h.count_eq w hw, hset, Finset.sum_insert (by simp), List.count_nil, Nat.zero_add]

/-- A vertex that is still to be released is counted, so it is neither ready nor out. -/
theorem count_pos (h : Kahn next nodes count ready out (v :: left)) (hv : v ∈ nodes) :
    0 < count v := by
  rw [h.count_eq v hv, List.count_cons_self]
  omega

/-- Releasing a successor takes one edge off its count and makes it ready when that was the
last one. -/
theorem release (h : Kahn next nodes count ready out (v :: left)) (hv : v ∈ nodes) :
    Kahn next nodes (Function.update count v (count v - 1))
      (if count v - 1 = 0 then v :: ready else ready) out left := by
  have hpos := h.count_pos hv
  have hfresh : v ∉ out ++ ready := fun hm ↦ hpos.ne' ((h.mem_iff v).mp hm).2
  refine ⟨?_, fun w ↦ ?_, fun w hw ↦ ?_⟩
  · split
    · rw [List.nodup_append_comm, List.cons_append, List.nodup_cons, List.nodup_append_comm]
      exact ⟨fun hm ↦ hfresh (by simpa [or_comm] using hm), h.nodup⟩
    · exact h.nodup
  · by_cases hw : w = v
    · subst hw
      rw [Function.update_self]
      split
      · next hz => simp [hv, hz]
      · next hz => simp only [hz, and_false, iff_false]; exact hfresh
    · have hiff := h.mem_iff w
      rw [Function.update_of_ne hw]
      split
      · simpa [hw] using hiff
      · exact hiff
  · have hcount := h.count_eq w hw
    by_cases hwv : w = v
    · subst hwv
      rw [List.count_cons_self] at hcount
      rw [Function.update_self]
      omega
    · rw [List.count_cons_of_ne (Ne.symm hwv)] at hcount
      rw [Function.update_of_ne hwv, hcount]

/-- Without cycles, nothing ready means that everything is out: an unemitted vertex has an
unemitted child, and following children among finitely many vertices closes a cycle. -/
theorem out_of_acyclic (h : Kahn next nodes count [] out [])
    (hacyclic : ∀ v ∈ nodes, ¬ Relation.TransGen (fun a b ↦ b ∈ next a) v v) (hv : v ∈ nodes) :
    v ∈ out := by
  by_contra hout
  let rest := { u : α // u ∈ nodes ∧ u ∉ out }
  have : Finite rest := Finite.of_injective
    (fun u : rest ↦ (⟨u.1, u.2.1⟩ : { u // u ∈ nodes })) fun _ _ hab ↦
      Subtype.ext (Subtype.mk.inj hab)
  let above (a b : rest) : Prop := Relation.TransGen (fun a b ↦ b ∈ next a) a.1 b.1
  have : IsTrans rest above := ⟨fun _ _ _ ↦ Relation.TransGen.trans⟩
  have : Std.Irrefl above := ⟨fun a ↦ hacyclic a.1 a.2.1⟩
  obtain ⟨u, -, hmin⟩ :=
    (Finite.wellFounded_of_trans_of_irrefl above).has_min Set.univ ⟨⟨v, hv, hout⟩, trivial⟩
  have hcount : count u.1 ≠ 0 := fun hz ↦
    u.2.2 (by simpa using (h.mem_iff u.1).mpr ⟨u.2.1, hz⟩)
  rw [h.count_eq u.1 u.2.1, List.count_nil, Nat.zero_add] at hcount
  obtain ⟨w, hw, hpos⟩ := Finset.exists_ne_zero_of_sum_ne_zero hcount
  have hw' : w ∈ nodes ∧ w ∉ out := by simpa using hw
  exact hmin ⟨w, hw'⟩ trivial (.single (List.count_pos_iff.mp (Nat.pos_of_ne_zero hpos)))

end Kahn
end Gitility
