import Mathlib.Algebra.Order.BigOperators.Group.Finset
import Gitility.Base.Traversal

/-!
# Successor chains and depth-first search

`chain` goes along a partial function a number of times. `depthFirst` looks for a vertex depth first, with a
stack of vertices still to be visited and a set of those that were.
-/

namespace Gitility

variable {α : Type}

/-! ### Successor chains -/

/-- The end of a chain of this many successors. -/
def chain (next : α → Option α) : ℕ → α → Option α
  | 0, a => some a
  | n + 1, a => next a >>= chain next n

section Chain

variable {next : α → Option α} {a b c : α} {m n : ℕ}

/-- A chain that starts with an edge goes on from the target of the edge. -/
theorem chain_succ (h : next a = some b) (n : ℕ) : chain next (n + 1) a = chain next n b := by
  rw [chain, h]
  rfl

/-- Chains are followed one after the other. -/
theorem chain_add (m n : ℕ) (a : α) : chain next (m + n) a = chain next m a >>= chain next n := by
  induction m generalizing a with
  | zero => simp [chain]
  | succ m ih =>
    rw [Nat.succ_add, chain, chain]
    cases next a with
    | none => rfl
    | some b => exact ih b

private theorem chain_trans (hm : chain next m a = some b) (hn : chain next n b = some c) :
    chain next (m + n) a = some c := by
  rw [chain_add, hm]
  exact hn

/-- A chain goes through shorter ones. -/
theorem chain_of_le (hle : m ≤ n) (h : chain next n a = some c) :
    ∃ b, chain next m a = some b ∧ chain next (n - m) b = some c := by
  obtain ⟨k, rfl⟩ := Nat.exists_eq_add_of_le hle
  rw [chain_add] at h
  rw [Nat.add_sub_cancel_left]
  exact Option.bind_eq_some_iff.mp h

/-- A chain that comes back goes on forever. -/
theorem chain_of_loop (hlt : m < n) (hm : chain next m a = some b) (hn : chain next n a = some b)
    (k : ℕ) : ∃ c, chain next k a = some c := by
  have hloop : chain next (n - m) b = some b := by
    obtain ⟨b', hb', hrest⟩ := chain_of_le hlt.le hn
    rw [hm] at hb'
    cases hb'
    exact hrest
  have hlong : ∀ k, ∃ n', k ≤ n' ∧ chain next n' a = some b := by
    intro k
    induction k with
    | zero => exact ⟨m, Nat.zero_le m, hm⟩
    | succ k ih =>
      obtain ⟨n', hle, hn'⟩ := ih
      exact ⟨n' + (n - m), by omega, chain_trans hn' hloop⟩
  obtain ⟨n', hle, hn'⟩ := hlong k
  obtain ⟨c, hc, -⟩ := chain_of_le hle hn'
  exact ⟨c, hc⟩

end Chain

/-! ### Depth-first search -/

section Search

/-- What a search has found out: where it can go, and that the target was not on the way. -/
structure Searched (next : α → List α) (start target : α) (pending seen : List α) : Prop where
  start_mem : start ∈ seen
  reach : ∀ v ∈ pending, Reach next start v
  target_notMem : target ∉ seen
  closed : ∀ v ∈ seen, ∀ w ∈ next v, w ∈ seen ∨ w ∈ pending

variable {next : α → List α} {start target v : α} {pending seen : List α} {nodes : Finset α}

namespace Searched

/-- The start, with its successors on the stack. -/
theorem initial (h : target ≠ start) : Searched next start target (next start).reverse [start] where
  start_mem := List.mem_singleton_self start
  reach v hv := .single (List.mem_reverse.mp hv)
  target_notMem := by simpa using h
  closed v hv w hw := by
    rw [List.mem_singleton.mp hv] at hw
    exact .inr (List.mem_reverse.mpr hw)

/-- A vertex that was seen is dropped. -/
theorem drop (h : Searched next start target (v :: pending) seen) (hv : v ∈ seen) :
    Searched next start target pending seen where
  start_mem := h.start_mem
  reach w hw := h.reach w (List.mem_cons_of_mem _ hw)
  target_notMem := h.target_notMem
  closed u hu w hw := by
    rcases h.closed u hu w hw with hseen | hpending
    · exact .inl hseen
    · rcases List.mem_cons.mp hpending with rfl | hpending
      · exact .inl hv
      · exact .inr hpending

/-- Another vertex leaves its successors on the stack. -/
theorem visit (h : Searched next start target (v :: pending) seen) (hv : v ≠ target) :
    Searched next start target ((next v).reverse ++ pending) (v :: seen) where
  start_mem := List.mem_cons_of_mem _ h.start_mem
  reach w hw := by
    rcases List.mem_append.mp hw with hw | hw
    · exact (h.reach v List.mem_cons_self).tail (List.mem_reverse.mp hw)
    · exact h.reach w (List.mem_cons_of_mem _ hw)
  target_notMem hmem := by
    rcases List.mem_cons.mp hmem with heq | hmem
    · exact hv heq.symm
    · exact h.target_notMem hmem
  closed u hu w hw := by
    rcases List.mem_cons.mp hu with rfl | hu
    · exact .inr (List.mem_append_left _ (List.mem_reverse.mpr hw))
    · rcases h.closed u hu w hw with hseen | hpending
      · exact .inl (List.mem_cons_of_mem _ hseen)
      · rcases List.mem_cons.mp hpending with rfl | hpending
        · exact .inl List.mem_cons_self
        · exact .inr (List.mem_append_right _ hpending)

/-- An empty stack leaves nothing that could be the target. -/
theorem not_reach (h : Searched next start target [] seen) : ¬Reach next start target := by
  intro hreach
  refine h.target_notMem (hreach.mem_of_closed (p := (· ∈ seen)) h.start_mem fun u hu w hw ↦ ?_)
  exact (h.closed u hu w hw).resolve_right List.not_mem_nil

end Searched

variable [DecidableEq α]

/-- Whether `target` is found on the way from the vertices of a stack; `none` says that the search is not
over yet. -/
def depthFirst (next : α → List α) (target : α) : ℕ → List α → List α → Option Bool
  | 0, _, _ => none
  | _ + 1, [], _ => some false
  | fuel + 1, v :: pending, seen =>
    if v ∈ seen then depthFirst next target fuel pending seen
    else if v = target then some true
    else depthFirst next target fuel ((next v).reverse ++ pending) (v :: seen)

/-- A search that is over tells whether the target can be reached. -/
theorem depthFirst_eq_some {fuel : ℕ} {found : Bool} (h : Searched next start target pending seen)
    (hsearch : depthFirst next target fuel pending seen = some found) :
    found = true ↔ Reach next start target := by
  induction fuel generalizing pending seen with
  | zero => cases hsearch
  | succ fuel ih =>
    cases pending with
    | nil =>
      cases hsearch
      exact iff_of_false (by decide) h.not_reach
    | cons v pending =>
      rw [depthFirst] at hsearch
      split at hsearch
      · next hv => exact ih (h.drop hv) hsearch
      · split at hsearch
        · next htarget =>
          cases hsearch
          exact iff_of_true rfl (htarget ▸ h.reach v List.mem_cons_self)
        · next htarget => exact ih (h.visit htarget) hsearch

/-- The vertices that a search can still pop, counted with multiplicity. -/
def depthFirstWeight (next : α → List α) (nodes : Finset α) (pending seen : List α) : ℕ :=
  pending.length + ∑ v ∈ nodes \ seen.toFinset, (next v).length

/-- A search among finitely many vertices is over after as many steps as it has pops left. -/
theorem depthFirst_isSome {fuel : ℕ} (hnodes : ∀ v ∈ nodes, ∀ w ∈ next v, w ∈ nodes)
    (hpending : ∀ v ∈ pending, v ∈ nodes) (hfuel : depthFirstWeight next nodes pending seen < fuel) :
    (depthFirst next target fuel pending seen).isSome := by
  induction fuel generalizing pending seen with
  | zero => exact absurd hfuel (Nat.not_lt_zero _)
  | succ fuel ih =>
    cases pending with
    | nil => rfl
    | cons v pending =>
      rw [depthFirst]
      rw [depthFirstWeight, List.length_cons] at hfuel
      have hrest : ∀ w ∈ pending, w ∈ nodes := fun w hw ↦ hpending w (List.mem_cons_of_mem _ hw)
      split
      · refine ih hrest ?_
        rw [depthFirstWeight]
        omega
      · next hv =>
        split
        · rfl
        · have hmem := hpending v List.mem_cons_self
          have hset : nodes \ seen.toFinset = insert v (nodes \ (v :: seen).toFinset) := by
            ext w
            by_cases hw : w = v <;> simp [hw, hmem, hv]
          rw [hset, Finset.sum_insert (by simp)] at hfuel
          refine ih (fun w hw ↦ ?_) ?_
          · rcases List.mem_append.mp hw with hw | hw
            · exact hnodes v hmem w (List.mem_reverse.mp hw)
            · exact hrest w hw
          · rw [depthFirstWeight, List.length_append, List.length_reverse]
            omega

end Search

end Gitility
