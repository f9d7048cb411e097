import Gitility.Base.Contract
import Gitility.PackFetch.Hydrate
import Gitility.Store.StaticOdb

/-!
# What a hydration can do

The world of a hydration: the budget, the backend, the file system and the opened store answer as they like,
and nothing else works on the destination. All that a hydration changes there is a sequence of moves, each of
them for one descriptor of the manifest.
-/

namespace Gitility.PackFetch

open Provider (Hashers)

/-- A PackFetch instance and its destination. -/
structure Instance (Local : Type) where
  /-- The `objects/pack` of the destination. -/
  dir : Scratch
  /-- The pack directories that `objects/info/alternates` leads to. -/
  alternates : List Scratch
  /-- `verified_packs`. -/
  verified : Finset Bytes
  /-- `local`. -/
  store : Option Local
  stats : HydrationStats
  /-- The ID, pack and index of each pair that passed `verify_pair_bytes` in this instance, the last first. -/
  passed : List (Bytes × Bytes × Bytes)

/-- A new instance over a destination. -/
def Instance.new {Local : Type} (dir : Scratch) (alternates : List Scratch) : Instance Local :=
  ⟨dir, alternates, ∅, none, {}, []⟩

/-- What one call of `hydrate` meets. -/
structure Circumstances (Local : Type) where
  /-- The reply of the range backend. -/
  manifest : Except Error PackManifest
  /-- The names under which the file system may fail to find, measure or read a file. -/
  faulty : Bytes → Prop
  /-- What the opened store answers for a header. -/
  headers : Local → Oid → Except Error (Option ObjectHeader) → Prop

variable {Local : Type}

/-- The descriptors of the manifest. -/
def Circumstances.packs (c : Circumstances Local) : List PackDescriptor :=
  (c.manifest.toOption.map (·.packs)).getD []

/-- How a budget fails. -/
def BudgetError (error : Error) : Prop := error.code ∈ [.cancelled, .timeout, .budgetExceeded]

/-- The content of a regular file. -/
def Regular (dir : Scratch) (name content : Bytes) : Prop := dir name = some (.regular content)

/-- A pair on disk. -/
def Holds (dir : Scratch) (id pack index : Bytes) : Prop :=
  Regular dir (packName id) pack ∧ Regular dir (indexName id) index

section World

variable (hashers : Hashers) (hash : HashKind) (c : Circumstances Local)

/-- The answers of the world. A file operation that fails has changed nothing, except that a failed write has
written something. -/
def world : Program.World (HydrateOp Local) HydrateOp.Ans Error (Instance Local)
  | .check, s, answer, s' | .chargeProviderRequest, s, answer, s' | .chargeProviderBytes _, s, answer, s' =>
    s' = s ∧ ∀ e, answer = .error e → BudgetError e
  | .manifest, s, answer, s' => s' = s ∧ answer = c.manifest
  | .readRangesWindow _, s, _, s' | .createDirAll, s, _, s' | .readDir, s, _, s' | .openObjectsDir, s, _, s' =>
    s' = s
  | .isFile name, s, answer, s' => s' = s ∧ ∃ found, answer = .ok found ∧
      (found = true → ∃ content, Regular s.dir name content) ∧
      (¬ c.faulty name → ∀ content, Regular s.dir name content → found = true)
  | .openFile name, s, answer, s' => s' = s ∧
      (¬ c.faulty name → ∀ content, Regular s.dir name content → answer = .ok ())
  | .fileLength name, s, answer, s' => s' = s ∧ ∀ content, Regular s.dir name content →
      (∀ length, answer = .ok length → length = content.length) ∧
      (¬ c.faulty name → answer = .ok content.length)
  | .readToEnd name, s, answer, s' => s' = s ∧
      (∀ bytes, answer = .ok bytes → Regular s.dir name bytes) ∧
      (¬ c.faulty name → ∀ content, Regular s.dir name content → answer = .ok content)
  | .readExact name length, s, answer, s' => s' = s ∧
      (∀ bytes, answer = .ok bytes →
        ∃ content, Regular s.dir name content ∧ length ≤ content.length ∧ bytes = content.take length) ∧
      (¬ c.faulty name → ∀ content, Regular s.dir name content → length ≤ content.length →
        answer = .ok (content.take length))
  | .removeFile name, s, answer, s' => (∃ e, answer = .error e) ∧ s' = s ∨
      answer = .ok () ∧ s' = { s with dir := Function.update s.dir name none }
  | .nextTempId, s, answer, s' => s' = s ∧ ∃ id, answer = .ok id
  | .createNew name, s, answer, s' => (∃ e, answer = .error e) ∧ s' = s ∨
      s.dir name = none ∧ answer = .ok () ∧
        s' = { s with dir := Function.update s.dir name (some (.regular [])) }
  | .writeAll name bytes, s, answer, s' => ∃ content,
      ((∃ e, answer = .error e) ∨ answer = .ok () ∧ content = bytes) ∧
        s' = { s with dir := Function.update s.dir name (some (.regular content)) }
  | .rename source target, s, answer, s' => (∃ e, answer = .error e) ∧ s' = s ∨
      ∃ file, s.dir source = some file ∧ answer = .ok () ∧
        s' = { s with dir := Function.update (Function.update s.dir target (some file)) source none }
  | .isVerified id, s, answer, s' => s' = s ∧ answer = .ok (decide (id ∈ s.verified))
  | .insertVerified id, s, answer, s' => answer = .ok () ∧ s' = { s with verified := insert id s.verified }
  | .removeVerified id, s, answer, s' => answer = .ok () ∧ s' = { s with verified := s.verified.erase id }
  | .verifyPairBytes pack index id, s, answer, s' =>
    answer = PackFetch.verifyPairBytes hashers pack index id hash ∧
      s' = if answer = .ok () then { s with passed := (id, pack, index) :: s.passed } else s
  | .tryHeader store oid, s, answer, s' => s' = s ∧ c.headers store oid answer
  | .publish store, s, answer, s' => answer = .ok () ∧ s' = { s with store := some store }
  | .setStats stats, s, answer, s' => answer = .ok () ∧ s' = { s with stats }

/-- A part of a hydration as far as it has come. -/
abbrev Runs {α : Type} (p : Hydration Local α) (s : Instance Local) (p' : Hydration Local α)
    (s' : Instance Local) : Prop :=
  Relation.ReflTransGen (Program.Answered (world hashers hash c)) (p, s) (p', s')

end World

/-- The operations that change nothing. -/
def HydrateOp.Quiet : HydrateOp Local → Prop
  | .removeFile _ | .createNew _ | .writeAll _ _ | .rename _ _ | .insertVerified _ | .removeVerified _
  | .verifyPairBytes _ _ _ | .publish _ | .setStats _ => False
  | _ => True

/-! ### The budget -/

/-- A check of the budget fails as the world expects. -/
theorem budgetError_of_check {budget later : Budget} {e : Error}
    (h : Budget.check budget = (.error e, later)) : BudgetError e := by
  simp only [Budget.check, Budget.bind_eq, Budget.get_eq, Budget.lift_eq] at h
  by_cases hcancelled : budget.cancelled = false
  · by_cases hexpired : budget.expired = false
    · simp only [ensure, if_pos hcancelled, if_pos hexpired] at h
      cases h
    · simp only [ensure, if_pos hcancelled, if_neg hexpired] at h
      cases h
      simp [BudgetError, Error.new]
  · simp only [ensure, if_neg hcancelled] at h
    cases h
    simp [BudgetError, Error.new]

/-- A charge to the budget fails as the world expects. -/
theorem budgetError_of_charge {counter : Counter} {amount : ℕ} {budget later : Budget} {e : Error}
    (h : (do Budget.check; Budget.charge counter amount : Charging Unit) budget = (.error e, later)) :
    BudgetError e := by
  rw [Budget.bind_eq] at h
  rcases hcheck : Budget.check budget with ⟨result, checked⟩
  rw [hcheck] at h
  cases result with
  | ok _ =>
    have hcode := Budget.code_of_checkCharge (Prod.mk.inj h).1
    simp [BudgetError, hcode]
  | error e' =>
    cases h
    exact budgetError_of_check hcheck

/-! ### Names -/

/-- IDs that name the same files. -/
def Shares (id id' : Bytes) : Prop := id.map toAsciiLowercase = id'.map toAsciiLowercase

/-- The name of a temporary file. -/
def IsTemp (name : Bytes) : Prop := ∃ pid target id, name = tempName pid target id

variable {id id' name front : Bytes}

/-- Sharing of files is symmetric. -/
theorem Shares.symm (h : Shares id id') : Shares id' id := Eq.symm h

/-- Two packs have one name when their IDs share files. -/
@[simp] theorem packName_inj : packName id = packName id' ↔ Shares id id' := by
  rw [packName, packName, List.append_cancel_right_eq, stem, stem, List.append_cancel_left_eq, Shares]

/-- Two indexes have one name when their IDs share files. -/
@[simp] theorem indexName_inj : indexName id = indexName id' ↔ Shares id id' := by
  rw [indexName, indexName, List.append_cancel_right_eq, stem, stem, List.append_cancel_left_eq, Shares]

/-- The last byte of the name of a pack. -/
theorem getLast?_pack (front : Bytes) : (front ++ Bytes.ascii ".pack").getLast? = some 0x6b := by
  rw [List.getLast?_append]
  rfl

/-- The last byte of the name of an index. -/
theorem getLast?_idx (front : Bytes) : (front ++ Bytes.ascii ".idx").getLast? = some 0x78 := by
  rw [List.getLast?_append]
  rfl

/-- The name of a temporary file ends in a digit. -/
theorem IsTemp.getLast? (h : IsTemp name) : ∃ digit, name.getLast? = some digit ∧ digit ≤ 0x39 := by
  obtain ⟨pid, target, id, rfl⟩ := h
  have hdigits : (toString id).toList = Nat.toDigits 10 id := Nat.toList_repr
  have hne : Bytes.ascii (toString id) ≠ [] := by
    rw [Bytes.ascii, hdigits, Ne, List.map_eq_nil_iff]
    exact Nat.toDigits_ne_nil
  obtain ⟨digit, hlast⟩ := Option.ne_none_iff_exists'.mp fun h ↦ hne (List.getLast?_eq_none_iff.mp h)
  refine ⟨digit, ?_, ?_⟩
  · rw [tempName, List.getLast?_append, hlast]
    rfl
  · obtain ⟨char, hchar, rfl⟩ := List.mem_map.mp (List.mem_of_getLast? hlast)
    rw [hdigits] at hchar
    have hdigit := Nat.isDigit_of_mem_toDigits (by decide) (by decide) hchar
    simp only [Char.isDigit, Bool.and_eq_true, decide_eq_true_eq] at hdigit
    have hlow : 48 ≤ char.toNat := hdigit.1
    have hhigh : char.toNat ≤ 57 := hdigit.2
    rw [UInt8.le_iff_toNat_le]
    simp
    omega

/-- A temporary name does not end in `.pack`. -/
theorem IsTemp.ne_pack (h : IsTemp name) : name ≠ front ++ Bytes.ascii ".pack" := by
  rintro rfl
  obtain ⟨digit, hlast, hdigit⟩ := h.getLast?
  rw [getLast?_pack] at hlast
  cases hlast
  exact absurd hdigit (by decide)

/-- A temporary name does not end in `.idx`. -/
theorem IsTemp.ne_idx (h : IsTemp name) : name ≠ front ++ Bytes.ascii ".idx" := by
  rintro rfl
  obtain ⟨digit, hlast, hdigit⟩ := h.getLast?
  rw [getLast?_idx] at hlast
  cases hlast
  exact absurd hdigit (by decide)

/-- A name that ends in `.pack` does not end in `.idx`. -/
theorem pack_ne_idx {front front' : Bytes} : front ++ Bytes.ascii ".pack" ≠ front' ++ Bytes.ascii ".idx" := by
  intro h
  have hlast := congrArg List.getLast? h
  rw [getLast?_pack, getLast?_idx] at hlast
  cases hlast

/-- No pack is named as an index. -/
theorem packName_ne_indexName : packName id ≠ indexName id' := pack_ne_idx

/-- The name of a multi-pack index. -/
def midxName : Bytes := Bytes.ascii "multi-pack-index"

/-- The name of the multi-pack index does not end in `.pack`. -/
theorem midxName_ne_pack : midxName ≠ front ++ Bytes.ascii ".pack" := by
  intro h
  have hlast := congrArg List.getLast? h
  rw [getLast?_pack] at hlast
  cases hlast

/-- The multi-pack index is named as no index. -/
theorem midxName_ne_indexName : midxName ≠ indexName id := by
  intro h
  have hhead := congrArg List.head? h
  cases hhead

/-- The multi-pack index has no temporary name. -/
theorem IsTemp.ne_midx (h : IsTemp name) : name ≠ midxName := by
  rintro rfl
  obtain ⟨digit, hlast, hdigit⟩ := h.getLast?
  cases hlast
  exact absurd hdigit (by decide)

end Gitility.PackFetch
