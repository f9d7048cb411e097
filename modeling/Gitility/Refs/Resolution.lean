import Gitility.Base.GraphSearch
import Gitility.Bundle.Snapshot

/-!
# Chains of symbolic references

`resolve_with` of `crates/gitility-core/src/refs.rs` looks up at most 16 names, so it follows at most 15
symbolic references: the target of the last name that it looks up is never read. A chain of exactly 16
symbolic references is refused, although the limit names that many.
-/

namespace Gitility.RefDb

/-- The valid name that a symbolic reference points at. -/
def symbolicEdge (store : Store) (name : Bytes) : Option Bytes :=
  match store.find name with
  | .ok (some (.symbolic next)) =>
    match validateFullRefName store next with
    | .ok () => some next
    | .error _ => none
  | _ => none

variable {store : Store} {name next last : Bytes} {seen : List Bytes} {hops k : ℕ}

private theorem symbolicEdge_eq_some : symbolicEdge store name = some next ↔
    store.find name = .ok (some (.symbolic next)) ∧ validateFullRefName store next = .ok () := by
  rw [symbolicEdge]
  constructor
  · intro h
    split at h
    · next target hfind =>
      split at h
      · next hvalid =>
        cases h
        exact ⟨hfind, hvalid⟩
      · cases h
    · cases h
  · rintro ⟨hfind, hvalid⟩
    rw [hfind]
    simp [hvalid]

/-- A chain that ends at a direct or a missing reference, with what the loop then returns. -/
inductive Ends (store : Store) (last : Bytes) : Option (Bytes × Option Bytes) → Prop
  | direct {oid : Bytes} {peeled : Option Bytes} (h : store.find last = .ok (some (.direct oid peeled))) :
      Ends store last (some (oid, peeled))
  | missing (h : store.find last = .ok none) : Ends store last none

private theorem Ends.symbolicEdge {target : Option (Bytes × Option Bytes)} (h : Ends store last target) :
    symbolicEdge store last = none := by
  rw [RefDb.symbolicEdge]
  cases h with
  | direct h => rw [h]
  | missing h => rw [h]

/-- Resolution refuses a name as malformed. -/
def Malformed (result : Except Error (Option (Bytes × Option Bytes))) : Prop :=
  ∃ e, result = .error e ∧ e.code = .malformedRef

/-! ### The loop -/

/-- The lookup of a symbolic reference goes on at its target, unless the name was seen before. -/
theorem resolveHops_symbolic (h : symbolicEdge store name = some next) :
    resolveHops store (hops + 1) name seen =
      if name ∈ seen then .error (symbolicCycle store (name :: seen).reverse)
      else resolveHops store hops next (name :: seen) := by
  obtain ⟨hfind, hvalid⟩ := symbolicEdge_eq_some.mp h
  rw [resolveHops]
  by_cases hseen : name ∈ seen
  · simp [hseen, ensure, bind, Except.bind]
  · simp [hseen, ensure, bind, Except.bind, hfind, hvalid]

/-- The loop returns the end of a chain that is shorter than its hops and that it has not seen. -/
theorem resolveHops_of_ends {target : Option (Bytes × Option Bytes)} (hlt : k < hops)
    (hchain : chain (symbolicEdge store) k name = some last) (hends : Ends store last target)
    (hseen : ∀ i a, chain (symbolicEdge store) i name = some a → a ∉ seen) :
    resolveHops store hops name seen = .ok target := by
  induction k generalizing hops name seen with
  | zero =>
    cases hchain
    obtain ⟨hops, rfl⟩ := Nat.exists_eq_add_one.mpr hlt
    have hname := hseen 0 last rfl
    rw [resolveHops]
    cases hends with
    | direct h => simp [hname, ensure, bind, Except.bind, h, pure, Except.pure]
    | missing h => simp [hname, ensure, bind, Except.bind, h, pure, Except.pure]
  | succ k ih =>
    obtain ⟨next, hedge, hrest⟩ := Option.bind_eq_some_iff.mp hchain
    obtain ⟨hops, rfl⟩ := Nat.exists_eq_add_one.mpr (Nat.zero_lt_of_lt hlt)
    rw [resolveHops_symbolic hedge, if_neg (hseen 0 name rfl)]
    refine ih (Nat.lt_of_succ_lt_succ hlt) hrest fun i a ha hmem ↦ ?_
    have ha' : chain (symbolicEdge store) (i + 1) name = some a := (chain_succ hedge i).trans ha
    rcases List.mem_cons.mp hmem with rfl | hmem
    · -- the chain would come back to the name and never end
      obtain ⟨b, hb⟩ := chain_of_loop (Nat.zero_lt_succ i) rfl ha' (k + 1 + 1)
      rw [chain_add, hchain] at hb
      change symbolicEdge store last >>= _ = some b at hb
      rw [hends.symbolicEdge] at hb
      cases hb
    · exact hseen (i + 1) a ha' hmem

/-- A chain with as many edges as there are hops is refused. -/
theorem resolveHops_of_chain (hchain : chain (symbolicEdge store) hops name = some last) :
    Malformed (resolveHops store hops name seen) := by
  induction hops generalizing name seen with
  | zero => exact ⟨_, rfl, rfl⟩
  | succ hops ih =>
    obtain ⟨next, hedge, hrest⟩ := Option.bind_eq_some_iff.mp hchain
    rw [resolveHops_symbolic hedge]
    split
    · exact ⟨_, rfl, rfl⟩
    · exact ih hrest

/-- A chain to an invalid name is refused. -/
theorem resolveHops_of_invalid (hlt : k < hops) (hchain : chain (symbolicEdge store) k name = some last)
    (hfind : store.find last = .ok (some (.symbolic next)))
    (hinvalid : validateFullRefName store next ≠ .ok ()) :
    Malformed (resolveHops store hops name seen) := by
  induction k generalizing hops name seen with
  | zero =>
    cases hchain
    obtain ⟨hops, rfl⟩ := Nat.exists_eq_add_one.mpr hlt
    rw [resolveHops]
    by_cases hseen : last ∈ seen
    · refine ⟨symbolicCycle store (last :: seen).reverse, ?_, rfl⟩
      simp [hseen, ensure, bind, Except.bind]
    · refine ⟨(Error.new .malformedRef "symbolic reference points to an invalid full ref name").withReason
        s!"symbolic target {store.display next}", ?_, rfl⟩
      cases hvalid : validateFullRefName store next with
      | ok u => exact absurd hvalid hinvalid
      | error e => simp [hseen, ensure, bind, Except.bind, hfind, hvalid]
  | succ k ih =>
    obtain ⟨next, hedge, hrest⟩ := Option.bind_eq_some_iff.mp hchain
    obtain ⟨hops, rfl⟩ := Nat.exists_eq_add_one.mpr (Nat.zero_lt_of_lt hlt)
    rw [resolveHops_symbolic hedge]
    split
    · exact ⟨_, rfl, rfl⟩
    · exact ih (Nat.lt_of_succ_lt_succ hlt) hrest

private theorem resolve_of_valid (hvalid : validateFullRefName store name = .ok ()) :
    resolve store name = resolveHops store maxSymbolicRefHops name [] := by
  rw [resolve, hvalid]
  rfl

/-! ### The documented limit -/

/-- What the limit promises of a name: a chain of at most 16 symbolic references is followed to its end,
and a chain that comes back, names an invalid reference or is longer is malformed. -/
structure FollowsSixteen (store : Store) (name : Bytes) : Prop where
  followed : ∀ k ≤ maxSymbolicRefHops, ∀ last target, chain (symbolicEdge store) k name = some last →
    Ends store last target → resolve store name = .ok target
  cyclic : ∀ i j last, i < j → chain (symbolicEdge store) i name = some last →
    chain (symbolicEdge store) j name = some last → Malformed (resolve store name)
  invalid : ∀ k last next, chain (symbolicEdge store) k name = some last →
    store.find last = .ok (some (.symbolic next)) → validateFullRefName store next ≠ .ok () →
      Malformed (resolve store name)
  long : ∀ k > maxSymbolicRefHops, ∀ last, chain (symbolicEdge store) k name = some last →
    Malformed (resolve store name)

/-- A valid name is resolved as the limit promises if and only if no chain of exactly 16 symbolic
references leads from it to a direct or a missing reference. -/
theorem resolve_follows_iff (hvalid : validateFullRefName store name = .ok ()) :
    FollowsSixteen store name ↔
      ∀ last target, chain (symbolicEdge store) maxSymbolicRefHops name = some last →
        ¬Ends store last target := by
  have hresolve := resolve_of_valid hvalid
  have hlong : ∀ last, chain (symbolicEdge store) maxSymbolicRefHops name = some last →
      Malformed (resolve store name) := by
    intro last hchain
    rw [hresolve]
    exact resolveHops_of_chain hchain
  constructor
  · intro h last target hchain hends
    obtain ⟨e, he, -⟩ := hlong last hchain
    have hok := h.followed maxSymbolicRefHops (Nat.le_refl _) last target hchain hends
    rw [he] at hok
    cases hok
  · intro h
    refine ⟨fun k hk last target hchain hends ↦ ?_, fun i j last hlt hi hj ↦ ?_,
      fun k last next hchain hfind hinvalid ↦ ?_, fun k hk last hchain ↦ ?_⟩
    · have hne : k ≠ maxSymbolicRefHops := by
        rintro rfl
        exact h last target hchain hends
      rw [hresolve]
      exact resolveHops_of_ends (lt_of_le_of_ne hk hne) hchain hends fun _ _ _ ↦ List.not_mem_nil
    · obtain ⟨b, hb⟩ := chain_of_loop hlt hi hj maxSymbolicRefHops
      exact hlong b hb
    · rcases Nat.lt_or_ge k maxSymbolicRefHops with hlt | hge
      · rw [hresolve]
        exact resolveHops_of_invalid hlt hchain hfind hinvalid
      · obtain ⟨b, hb, -⟩ := chain_of_le hge hchain
        exact hlong b hb
    · obtain ⟨b, hb, -⟩ := chain_of_le hk.le hchain
      exact hlong b hb

/-! ### A chain of references -/

/-- References whose names grow by a letter from one to the next, up to a direct one of this length. -/
def sampleChain (length : ℕ) : Store where
  fullName _ := true
  find name := .ok <|
    if name.length < length then some (.symbolic (name ++ [0x61]))
    else if name.length = length then some (.direct (List.replicate 20 7) none)
    else none
  display name := String.ofList (name.map fun byte ↦ Char.ofNat byte.toNat)

/-- The first name of a chain. -/
def sampleName : Bytes := Bytes.ascii "refs/heads/a"

/-- The theorem at a chain of 15 symbolic references. -/
theorem resolve_follows_iff_sample : FollowsSixteen (sampleChain 27) sampleName := by
  refine (resolve_follows_iff (by decide)).mpr fun last target hchain ↦ ?_
  have hnone : chain (symbolicEdge (sampleChain 27)) maxSymbolicRefHops sampleName = none := by
    decide
  rw [hnone] at hchain
  cases hchain

/-- A chain of 16 symbolic references to a direct one is refused. -/
theorem sixteen_edges_refused :
    validateFullRefName (sampleChain 28) sampleName = .ok () ∧
      chain (symbolicEdge (sampleChain 28)) 16 sampleName =
        some (sampleName ++ List.replicate 16 0x61) ∧
      (sampleChain 28).find (sampleName ++ List.replicate 16 0x61) =
        .ok (some (.direct (List.replicate 20 7) none)) ∧
      resolve (sampleChain 28) sampleName =
        .error ((Error.new .malformedRef "symbolic reference exceeds the 16-hop limit").withReason
          ("symbolic chain " ++ displayChain (sampleChain 28)
            ((List.range 16).map fun k ↦ sampleName ++ List.replicate k 0x61))) ∧
      ¬FollowsSixteen (sampleChain 28) sampleName := by
  have hchain : chain (symbolicEdge (sampleChain 28)) 16 sampleName =
      some (sampleName ++ List.replicate 16 0x61) := by decide
  have hresolve : resolve (sampleChain 28) sampleName =
      .error ((Error.new .malformedRef "symbolic reference exceeds the 16-hop limit").withReason
        ("symbolic chain " ++ displayChain (sampleChain 28)
          ((List.range 16).map fun k ↦ sampleName ++ List.replicate k 0x61))) := by rfl
  refine ⟨by rfl, hchain, by rfl, hresolve, fun h ↦ ?_⟩
  have hok := h.followed 16 (Nat.le_refl _) _ _ hchain (.direct (by rfl))
  rw [hresolve] at hok
  cases hok

end Gitility.RefDb
