import Mathlib.Algebra.Order.Ring.Nat
import Mathlib.Data.List.Basic
import Mathlib.Tactic.Cases

/-!
# Merging two sorted lists

Both lists are gone through side by side. What has the same key in both stands together, everything else stands
alone, and each key comes up once.
-/

namespace Gitility

/-- What has one key: an element of the left list, of the right list, or of each. -/
inductive Joined (α : Type) where
  | left (a : α)
  | right (b : α)
  | both (a b : α)
  deriving DecidableEq

namespace Joined

variable {α κ : Type}

/-- The key of what stands together. -/
def key (key : α → κ) : Joined α → κ
  | left a | right a | both a _ => key a

/-- The element of the left list. -/
def left? : Joined α → Option α
  | left a | both a _ => some a
  | right _ => none

/-- The element of the right list. -/
def right? : Joined α → Option α
  | right b | both _ b => some b
  | left _ => none

/-- The weights of what stands together. -/
def weight (w : α → ℕ) : Joined α → ℕ
  | left a | right a => w a
  | both a b => w a + w b

end Joined

variable {α κ : Type}

/-- The full outer join of two lists, by comparing their first elements. -/
def mergeJoin (cmp : α → α → Ordering) : List α → List α → List (Joined α)
  | [], bs => bs.map .right
  | a :: as, [] => .left a :: as.map .left
  | a :: as, b :: bs =>
    match cmp a b with
    | .lt => .left a :: mergeJoin cmp as (b :: bs)
    | .eq => .both a b :: mergeJoin cmp as bs
    | .gt => .right b :: mergeJoin cmp (a :: as) bs
termination_by as bs => as.length + bs.length

variable {cmp : α → α → Ordering} {as bs : List α} {a b : α}

/-- Every element of the left list comes up once, in its order. -/
theorem filterMap_left_mergeJoin (as bs : List α) : (mergeJoin cmp as bs).filterMap Joined.left? = as := by
  fun_induction mergeJoin cmp as bs with
  | case1 bs => simp [Joined.left?, Function.comp_def]
  | case2 a as => simp [Joined.left?, Function.comp_def]
  | case3 a as b bs hlt ih => simp [Joined.left?, ih]
  | case4 a as b bs heq ih => simp [Joined.left?, ih]
  | case5 a as b bs hgt ih => rw [List.filterMap_cons_none rfl, ih]

/-- Every element of the right list comes up once, in its order. -/
theorem filterMap_right_mergeJoin (as bs : List α) :
    (mergeJoin cmp as bs).filterMap Joined.right? = bs := by
  fun_induction mergeJoin cmp as bs with
  | case1 bs => simp [Joined.right?, Function.comp_def]
  | case2 a as => simp [Joined.right?]
  | case3 a as b bs hlt ih => rw [List.filterMap_cons_none rfl, ih]
  | case4 a as b bs heq ih => simp [Joined.right?, ih]
  | case5 a as b bs hgt ih => simp [Joined.right?, ih]

/-- A join weighs as much as both lists. -/
theorem sum_weight_mergeJoin (w : α → ℕ) (as bs : List α) :
    ((mergeJoin cmp as bs).map (Joined.weight w)).sum = (as.map w).sum + (bs.map w).sum := by
  fun_induction mergeJoin cmp as bs with
  | case1 bs => simp [Joined.weight, Function.comp_def]
  | case2 a as => simp [Joined.weight, Function.comp_def]
  | case3 a as b bs hlt ih => simp only [List.map_cons, List.sum_cons, Joined.weight] at ih ⊢; omega
  | case4 a as b bs heq ih => simp only [List.map_cons, List.sum_cons, Joined.weight] at ih ⊢; omega
  | case5 a as b bs hgt ih => simp only [List.map_cons, List.sum_cons, Joined.weight] at ih ⊢; omega

/-- An element of the left list is the left part of a joined element, and conversely. -/
theorem mem_left_iff : a ∈ as ↔ ∃ j ∈ mergeJoin cmp as bs, j.left? = some a := by
  rw [← List.mem_filterMap, filterMap_left_mergeJoin]

/-- An element of the right list is the right part of a joined element, and conversely. -/
theorem mem_right_iff : b ∈ bs ↔ ∃ j ∈ mergeJoin cmp as bs, j.right? = some b := by
  rw [← List.mem_filterMap, filterMap_right_mergeJoin]

variable {key : α → κ}

/-- A joined element has the key of its left part. -/
theorem Joined.key_of_left {j : Joined α} (h : j.left? = some a) : j.key key = key a := by
  cases j <;> simp_all [left?, Joined.key]

/-- Every key of a join is one of either list. -/
theorem exists_key (key : α → κ) {j : Joined α} (hj : j ∈ mergeJoin cmp as bs) :
    (∃ a ∈ as, j.key key = key a) ∨ ∃ b ∈ bs, j.key key = key b := by
  cases j with
  | left a => exact .inl ⟨a, mem_left_iff.mpr ⟨_, hj, rfl⟩, rfl⟩
  | right b => exact .inr ⟨b, mem_right_iff.mpr ⟨_, hj, rfl⟩, rfl⟩
  | both a b => exact .inl ⟨a, mem_left_iff.mpr ⟨_, hj, rfl⟩, rfl⟩

/-! ### Sorted lists -/

variable [LT κ]

/-- The comparison of two lists is that of their keys. -/
structure ComparesKeys (key : α → κ) (cmp : α → α → Ordering) (as bs : List α) : Prop where
  lt : ∀ a ∈ as, ∀ b ∈ bs, cmp a b = .lt → key a < key b
  eq : ∀ a ∈ as, ∀ b ∈ bs, cmp a b = .eq → key a = key b
  gt : ∀ a ∈ as, ∀ b ∈ bs, cmp a b = .gt → key b < key a

/-- The keys of a list ascend. -/
def Ascending (key : α → κ) (as : List α) : Prop := as.Pairwise (key · < key ·)

private theorem ComparesKeys.mono {as' bs' : List α} (h : ComparesKeys key cmp as bs) (has : as' ⊆ as)
    (hbs : bs' ⊆ bs) : ComparesKeys key cmp as' bs' where
  lt a ha b hb := h.lt a (has ha) b (hbs hb)
  eq a ha b hb := h.eq a (has ha) b (hbs hb)
  gt a ha b hb := h.gt a (has ha) b (hbs hb)

private theorem Ascending.map {ι : Type} {f : α → ι} {key' : ι → κ} (h : Ascending key as)
    (hkey : ∀ a, key' (f a) = key a) : Ascending key' (as.map f) :=
  List.pairwise_map.mpr (h.imp fun hlt ↦ by rwa [hkey, hkey])

/-- Elements with some of the keys, in their order, have ascending keys. -/
theorem Ascending.of_map_sublist (h : Ascending key bs) (hsublist : (as.map key).Sublist (bs.map key)) :
    Ascending key as := by
  have hkeys : (bs.map key).Pairwise (· < ·) := List.pairwise_map.mpr h
  exact List.pairwise_map.mp (hkeys.sublist hsublist)

/-- Elements with the same key are the same. -/
theorem Ascending.eq_of_key [Std.Irrefl fun k l : κ ↦ k < l] (h : Ascending key as) (ha : a ∈ as) (hb : b ∈ as)
    (hkey : key a = key b) : a = b := by
  induction as with
  | nil => cases ha
  | cons c as ih =>
    obtain ⟨hc, has⟩ := List.pairwise_cons.mp h
    rcases List.mem_cons.mp ha with rfl | ha' <;> rcases List.mem_cons.mp hb with rfl | hb'
    · rfl
    · exact absurd (hkey ▸ hc b hb') (Std.Irrefl.irrefl _)
    · exact absurd (hkey ▸ hc a ha') (Std.Irrefl.irrefl _)
    · exact ih has ha' hb'

/-- What stands together on the left and the right has one key. -/
theorem key_eq_of_both (hcmp : ComparesKeys key cmp as bs) (h : Joined.both a b ∈ mergeJoin cmp as bs) :
    key a = key b := by
  fun_induction mergeJoin cmp as bs with
  | case1 bs => simp at h
  | case2 a as => simp at h
  | case3 a as b bs hlt ih =>
    rcases List.mem_cons.mp h with heq | h
    · cases heq
    · exact ih (hcmp.mono (List.subset_cons_self _ _) (List.Subset.refl _)) h
  | case4 a as b bs heq ih =>
    rcases List.mem_cons.mp h with h | h
    · cases h
      exact hcmp.eq a List.mem_cons_self b List.mem_cons_self heq
    · exact ih (hcmp.mono (List.subset_cons_self _ _) (List.subset_cons_self _ _)) h
  | case5 a as b bs hgt ih =>
    rcases List.mem_cons.mp h with heq | h
    · cases heq
    · exact ih (hcmp.mono (List.Subset.refl _) (List.subset_cons_self _ _)) h

/-- A joined element has the key of its right part. -/
theorem key_of_right (hcmp : ComparesKeys key cmp as bs) {j : Joined α} (hj : j ∈ mergeJoin cmp as bs)
    (h : j.right? = some b) : j.key key = key b := by
  cases j with
  | left a => cases h
  | right b' => cases h; rfl
  | both a b' => cases h; exact key_eq_of_both hcmp hj

/-- A key that is before all of both lists is before their join. -/
theorem lt_key_of_lt {k : κ} (has : ∀ a ∈ as, k < key a) (hbs : ∀ b ∈ bs, k < key b) :
    ∀ j ∈ mergeJoin cmp as bs, k < j.key key := by
  intro j hj
  rcases exists_key key hj with ⟨a, ha, heq⟩ | ⟨b, hb, heq⟩
  · exact heq ▸ has a ha
  · exact heq ▸ hbs b hb

/-- The keys of a join ascend. -/
theorem ascending_mergeJoin [IsTrans κ (· < ·)] (hcmp : ComparesKeys key cmp as bs) (has : Ascending key as)
    (hbs : Ascending key bs) : Ascending (Joined.key key) (mergeJoin cmp as bs) := by
  fun_induction mergeJoin cmp as bs with
  | case1 bs => exact hbs.map fun _ ↦ rfl
  | case2 a as => exact has.map (f := Joined.left) fun _ ↦ rfl
  | case3 a as b bs hlt ih =>
    have hab := hcmp.lt a List.mem_cons_self b List.mem_cons_self hlt
    obtain ⟨ha, has⟩ := List.pairwise_cons.mp has
    obtain ⟨hb, -⟩ := List.pairwise_cons.mp hbs
    refine List.pairwise_cons.mpr ⟨lt_key_of_lt ha fun c hc ↦ ?_, ih
      (hcmp.mono (List.subset_cons_self _ _) (List.Subset.refl _)) has hbs⟩
    rcases List.mem_cons.mp hc with rfl | hc
    · exact hab
    · exact IsTrans.trans _ _ _ hab (hb c hc)
  | case4 a as b bs heq ih =>
    have hab := hcmp.eq a List.mem_cons_self b List.mem_cons_self heq
    obtain ⟨ha, has⟩ := List.pairwise_cons.mp has
    obtain ⟨hb, hbs⟩ := List.pairwise_cons.mp hbs
    exact List.pairwise_cons.mpr ⟨lt_key_of_lt ha fun c hc ↦ (hab ▸ hb c hc : key a < key c), ih
      (hcmp.mono (List.subset_cons_self _ _) (List.subset_cons_self _ _)) has hbs⟩
  | case5 a as b bs hgt ih =>
    have hba := hcmp.gt a List.mem_cons_self b List.mem_cons_self hgt
    obtain ⟨ha, -⟩ := List.pairwise_cons.mp has
    obtain ⟨hb, hbs⟩ := List.pairwise_cons.mp hbs
    refine List.pairwise_cons.mpr ⟨lt_key_of_lt (fun c hc ↦ ?_) hb, ih
      (hcmp.mono (List.Subset.refl _) (List.subset_cons_self _ _)) has hbs⟩
    rcases List.mem_cons.mp hc with rfl | hc
    · exact hba
    · exact IsTrans.trans _ _ _ hba (ha c hc)

section Members

variable [Std.Irrefl fun k l : κ ↦ k < l] [IsTrans κ (· < ·)]
  (hcmp : ComparesKeys key cmp as bs) (has : Ascending key as) (hbs : Ascending key bs)

include hcmp has hbs

/-- What has the same key in both lists stands together. -/
theorem both_mem_mergeJoin : .both a b ∈ mergeJoin cmp as bs ↔ a ∈ as ∧ b ∈ bs ∧ key a = key b := by
  constructor
  · intro h
    exact ⟨mem_left_iff.mpr ⟨_, h, rfl⟩, mem_right_iff.mpr ⟨_, h, rfl⟩, key_eq_of_both hcmp h⟩
  · rintro ⟨ha, hb, hkey⟩
    obtain ⟨j, hj, hleft⟩ := mem_left_iff.mp ha
    obtain ⟨j', hj', hright⟩ := mem_right_iff.mp hb
    obtain rfl := (ascending_mergeJoin hcmp has hbs).eq_of_key hj hj' <| by
      rw [j.key_of_left hleft, key_of_right hcmp hj' hright, hkey]
    cases j with
    | left a' => cases hright
    | right b' => cases hleft
    | both a' b' => cases hleft; cases hright; exact hj

end Members

end Gitility
