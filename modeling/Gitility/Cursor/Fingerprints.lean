import Gitility.Base.Delimited
import Gitility.Bundle.Sections
import Gitility.History.PathHistory
import Gitility.Refs.Listing
import Gitility.Search.Search

/-!
# What a fingerprint is made of

Each paged operation writes the options of its result stream as bytes and hashes them. The bytes can be read in
one way only, also across operations, and the limit, the cursor and `max_result_bytes` leave no trace in them.
-/

namespace Gitility

/-! ### Fields -/

namespace Bytes

/-- A fixed-width field of values that fit. -/
theorem delimited_toLe (n : ℕ) : Delimited (toLe n) (· < 256 ^ n) :=
  .ofLength n (length_toLe n) fun a b ha hb h ↦ by
    rw [← ofLe_toLe_of_lt ha, ← ofLe_toLe_of_lt hb, h]

end Bytes

/-- A byte string behind its 32-bit length. -/
theorem delimited_pushBytes : Delimited ListTree.pushBytes (·.length < 2 ^ 32) := by
  have hmin : ∀ n < 2 ^ 32, min n u32Max = n := fun n hn ↦ Nat.min_eq_left (Nat.le_pred_of_lt hn)
  have hfield : Delimited (fun n ↦ Bytes.toLe 4 (min n u32Max)) (· < 2 ^ 32) := by
    intro a b ha hb s t h
    dsimp only at h
    rw [hmin a ha, hmin b hb] at h
    exact Bytes.delimited_toLe 4 a b ha hb s t h
  exact hfield.framed

private theorem pushBytes_ne_nil (bytes : Bytes) : ListTree.pushBytes bytes ≠ [] := fun h ↦ by
  have hlength := congrArg List.length h
  rw [ListTree.pushBytes, List.length_append, Bytes.length_toLe, List.length_nil] at hlength
  omega

/-- A byte string behind its 64-bit length. -/
theorem delimited_framed64 : Delimited (fun bytes : Bytes ↦ Bytes.toLe 8 bytes.length ++ bytes)
    (·.length < 256 ^ 8) := .framed (Bytes.delimited_toLe 8)

/-- The byte of a flag. -/
theorem flag_inj {a b : Bool} (h : (if a then 1 else 0 : UInt8) = if b then 1 else 0) : a = b := by
  cases a <;> cases b <;> first | rfl | exact absurd h (by decide)

/-- An optional 32-bit field. -/
theorem delimited_depth : Delimited (fun depth : Option ℕ ↦ depth.elim [0] fun depth ↦ 1 :: Bytes.toLe 4 depth)
    (fun depth ↦ ∀ value ∈ depth, value < 256 ^ 4) :=
  (Bytes.delimited_toLe 4).optional (by decide)

/-- The values of a Rust `i64`. -/
def IsI64 (value : ℤ) : Prop := -2 ^ 63 ≤ value ∧ value < 2 ^ 63

instance (value : ℤ) : Decidable (IsI64 value) := inferInstanceAs (Decidable (_ ∧ _))

private theorem delimited_optionalI64 : Delimited Log.optionalI64 (fun value ↦ ∀ time ∈ value, IsI64 time) := by
  have htime : Delimited (fun time : ℤ ↦ Bytes.toLe 8 (time % 2 ^ 64).toNat) IsI64 := by
    refine .ofLength 8 (fun time ↦ Bytes.length_toLe 8 _) fun a b ha hb h ↦ ?_
    have hlt : ∀ time : ℤ, (time % 2 ^ 64).toNat < 256 ^ 8 := by omega
    have heq := (Bytes.delimited_toLe 8 _ _ (hlt a) (hlt b) [] [] (congrArg (· ++ []) h)).1
    obtain ⟨ha, ha'⟩ := ha
    obtain ⟨hb, hb'⟩ := hb
    omega
  have hfield : Log.optionalI64 = fun value ↦ value.elim [0]
      fun time ↦ 1 :: Bytes.toLe 8 (time % 2 ^ 64).toNat := by
    funext value
    cases value <;> rfl
  rw [hfield]
  exact htime.optional (by decide)

/-! ### Serializations -/

/-- The bytes `tree.rs` `option_fingerprint` hashes. -/
def ListTree.canonical (query : TreeQuery) : Bytes :=
  Bytes.ascii "gitility:list_tree:options:v1" ++ [0] ++ pushBytes query.path ++
    [if query.recursive then 1 else 0] ++ (query.depth.elim [0] fun depth ↦ 1 :: Bytes.toLe 4 depth) ++
    [query.types.bits] ++ Bytes.toLe 4 (min query.pathspecs.length u32Max) ++
    query.pathspecs.flatMap pushBytes ++ [if query.includeSize then 1 else 0]

/-- The bytes `search.rs` `option_fingerprint` hashes. -/
def Search.canonical (pattern : Bytes) (query : SearchQuery) : Bytes :=
  Bytes.ascii "gitility:search:options:v1" ++ [0] ++ ListTree.pushBytes pattern ++
    [query.mode.tag, if query.caseSensitive then 1 else 0] ++ ListTree.pushBytes query.path ++
    Bytes.toLe 4 (min query.pathspecs.length u32Max) ++
    (query.pathspecs.mergeSort fun a b ↦ ¬ b < a).flatMap ListTree.pushBytes ++
    [query.binary.tag] ++ Bytes.toLe 4 query.contextLines

/-- The bytes `log.rs` `option_fingerprint` hashes. -/
def Log.canonical (opts : WalkOptions) : Bytes :=
  let order : UInt8 := match opts.order with
    | .chronological => 0
    | .topological => 1
    | .dateOrder => 2
  Bytes.ascii "log-v1" ++ [0, order, if opts.firstParent then 1 else 0] ++
    optionalI64 opts.since ++ optionalI64 opts.untilTime

/-- The bytes `path_history.rs` `option_fingerprint` hashes. -/
def PathHistory.canonical (path : Bytes) (followRenames : Bool) : Bytes :=
  Bytes.ascii "history-v1" ++ [0] ++ Bytes.toLe 8 path.length ++ path ++ [if followRenames then 1 else 0]

/-- The bytes `refs.rs` `ref_query_fingerprint` hashes. -/
def LocalRefDb.canonical (namePrefix : Option Bytes) : Bytes :=
  Bytes.ascii "refs-v1" ++ 0 :: namePrefix.elim [0] fun bytes ↦ 1 :: Bytes.toLe 8 bytes.length ++ bytes

/-- The paged operations. -/
inductive PagedOperation where
  | listTree
  | search
  | log
  | history
  | refs
  deriving DecidableEq, Repr

/-- The tag the serialization of an operation begins with. -/
def PagedOperation.domain : PagedOperation → Bytes
  | .listTree => Bytes.ascii "gitility:list_tree:options:v1" ++ [0]
  | .search => Bytes.ascii "gitility:search:options:v1" ++ [0]
  | .log => Bytes.ascii "log-v1" ++ [0]
  | .history => Bytes.ascii "history-v1" ++ [0]
  | .refs => Bytes.ascii "refs-v1" ++ [0]

/-- No tag begins with another. -/
theorem PagedOperation.eq_of_domain_isPrefix {a b : PagedOperation} (h : a.domain <+: b.domain) : a = b := by
  cases a <;> cases b <;> first | rfl | exact absurd h (by decide)

/-- A request for a page of one of the paged operations. -/
inductive StreamRequest where
  | listTree (opts : TreeOptions)
  | search (pattern : Bytes) (opts : SearchOptions)
  | log (opts : LogOptions)
  | history (path : Bytes) (opts : PathHistory.HistoryOptions)
  | refs (query : RefQuery)

/-- The query has values its Rust type has, with byte strings shorter than `2 ^ 32` bytes. -/
structure TreeQuery.Fits (query : TreeQuery) : Prop where
  path : query.path.length < 2 ^ 32
  depth : ∀ depth ∈ query.depth, depth < 2 ^ 32
  pathspecs : ∀ pattern ∈ query.pathspecs, pattern.length < 2 ^ 32

/-- The query has values its Rust type has, with byte strings shorter than `2 ^ 32` bytes. -/
structure SearchQuery.Fits (query : SearchQuery) : Prop where
  path : query.path.length < 2 ^ 32
  pathspecs : ∀ pathspec ∈ query.pathspecs, pathspec.length < 2 ^ 32
  contextLines : query.contextLines < 2 ^ 32

namespace StreamRequest

/-- The fingerprint the operation puts into its cursors and asks of them. -/
def fingerprint : StreamRequest → UInt64
  | .listTree opts => ListTree.optionFingerprint opts.toTreeQuery
  | .search pattern opts => Search.optionFingerprint pattern opts.toSearchQuery
  | .log opts => Log.optionFingerprint opts.toWalkOptions
  | .history path opts => PathHistory.optionFingerprint path opts.followRenames
  | .refs query => LocalRefDb.refQueryFingerprint query.namePrefix

/-- The bytes the fingerprint is the hash of. -/
def canonical : StreamRequest → Bytes
  | .listTree opts => ListTree.canonical opts.toTreeQuery
  | .search pattern opts => Search.canonical pattern opts.toSearchQuery
  | .log opts => Log.canonical opts.toWalkOptions
  | .history path opts => PathHistory.canonical path opts.followRenames
  | .refs query => LocalRefDb.canonical query.namePrefix

/-- The operation a page is asked of. -/
def operation : StreamRequest → PagedOperation
  | .listTree _ => .listTree
  | .search .. => .search
  | .log _ => .log
  | .history .. => .history
  | .refs _ => .refs

/-- Byte strings are shorter than `2 ^ 32` bytes and integers are those of their Rust types. -/
def Fits : StreamRequest → Prop
  | .listTree opts => opts.toTreeQuery.Fits
  | .search pattern opts => pattern.length < 2 ^ 32 ∧ opts.toSearchQuery.Fits
  | .log opts => (∀ time ∈ opts.since, IsI64 time) ∧ ∀ time ∈ opts.untilTime, IsI64 time
  | .history path _ => path.length < 2 ^ 32
  | .refs query => ∀ name ∈ query.namePrefix, name.length < 2 ^ 32

/-- Pages of one stream: the requests differ in their limit, their cursor and `max_result_bytes` at most, and
the pathspecs of a search come in any order. -/
def SameStream : StreamRequest → StreamRequest → Prop
  | .listTree a, .listTree b => a.toTreeQuery = b.toTreeQuery
  | .search pattern a, .search pattern' b => pattern = pattern' ∧ a.pathspecs.Perm b.pathspecs ∧
      { a.toSearchQuery with pathspecs := [] } = { b.toSearchQuery with pathspecs := [] }
  | .log a, .log b => a.toWalkOptions = b.toWalkOptions
  | .history path a, .history path' b => path = path' ∧ a.followRenames = b.followRenames
  | .refs a, .refs b => a.namePrefix = b.namePrefix
  | _, _ => False

private theorem fingerprint_eq (request : StreamRequest) : request.fingerprint = Cursor.fnv1a64 request.canonical := by
  cases request with
  | listTree opts =>
    rw [fingerprint, ListTree.optionFingerprint, canonical, ListTree.canonical]
    cases opts.depth <;> rfl
  | search pattern opts => rfl
  | log opts => rfl
  | history path opts => rfl
  | refs query => rfl

end StreamRequest

/-! ### Reading them back -/

section ReadBack

private theorem ListTree.canonical_inj {a b : TreeQuery} (ha : a.Fits) (hb : b.Fits) (h : canonical a = canonical b) :
    a = b := by
  simp only [canonical, List.append_assoc, List.cons_append, List.nil_append] at h
  obtain ⟨-, h⟩ := List.cons.inj (List.append_cancel_left h)
  obtain ⟨hpath, h⟩ := delimited_pushBytes _ _ ha.path hb.path _ _ h
  obtain ⟨hrecursive, h⟩ := List.cons.inj h
  obtain ⟨hdepth, h⟩ := delimited_depth _ _ ha.depth hb.depth _ _ h
  obtain ⟨htypes, h⟩ := List.cons.inj h
  have h := List.append_inj_right h ((Bytes.length_toLe 4 _).trans (Bytes.length_toLe 4 _).symm)
  obtain ⟨hspecs, h⟩ := delimited_pushBytes.flatMap pushBytes_ne_nil ha.pathspecs hb.pathspecs
    (List.length_singleton.trans List.length_singleton.symm) h
  have hsize := flag_inj (List.cons.inj h).1
  cases a
  cases b
  simp only [TreeQuery.mk.injEq]
  exact ⟨hpath, flag_inj hrecursive, hdepth, congrArg TypeFilter.mk htypes, hspecs, hsize⟩

private theorem Search.canonical_inj {pattern pattern' : Bytes} {a b : SearchQuery} (hpattern : pattern.length < 2 ^ 32)
    (hpattern' : pattern'.length < 2 ^ 32) (ha : a.Fits) (hb : b.Fits)
    (h : canonical pattern a = canonical pattern' b) :
    pattern = pattern' ∧ a.pathspecs.Perm b.pathspecs ∧
      { a with pathspecs := [] } = { b with pathspecs := [] } := by
  have hsorted : ∀ query : SearchQuery, query.Fits →
      ∀ pathspec ∈ query.pathspecs.mergeSort fun a b ↦ ¬ b < a, pathspec.length < 2 ^ 32 :=
    fun query hquery pathspec hmem ↦ hquery.pathspecs pathspec (List.mem_mergeSort.mp hmem)
  simp only [canonical, List.append_assoc, List.cons_append, List.nil_append] at h
  obtain ⟨-, h⟩ := List.cons.inj (List.append_cancel_left h)
  obtain ⟨heq, h⟩ := delimited_pushBytes _ _ hpattern hpattern' _ _ h
  obtain ⟨hmode, h⟩ := List.cons.inj h
  obtain ⟨hcase, h⟩ := List.cons.inj h
  obtain ⟨hpath, h⟩ := delimited_pushBytes _ _ ha.path hb.path _ _ h
  have h := List.append_inj_right h ((Bytes.length_toLe 4 _).trans (Bytes.length_toLe 4 _).symm)
  obtain ⟨hspecs, h⟩ := delimited_pushBytes.flatMap pushBytes_ne_nil (hsorted a ha) (hsorted b hb)
    (by rw [List.length_cons, List.length_cons, Bytes.length_toLe, Bytes.length_toLe]) h
  obtain ⟨hbinary, h⟩ := List.cons.inj h
  have hlines := (Bytes.delimited_toLe 4 _ _ ha.contextLines hb.contextLines [] [] (congrArg (· ++ []) h)).1
  have hperm : a.pathspecs.Perm b.pathspecs :=
    (List.mergeSort_perm a.pathspecs _).symm.trans (hspecs ▸ List.mergeSort_perm b.pathspecs _)
  have hmodes : a.mode = b.mode := by
    cases hx : a.mode <;> cases hy : b.mode <;> first | rfl | exact absurd (hx ▸ hy ▸ hmode) (by decide)
  have hbinaries : a.binary = b.binary := by
    cases hx : a.binary <;> cases hy : b.binary <;> first | rfl | exact absurd (hx ▸ hy ▸ hbinary) (by decide)
  refine ⟨heq, hperm, ?_⟩
  rw [hmodes, flag_inj hcase, hpath, hbinaries, hlines]

private theorem Log.canonical_inj {a b : WalkOptions} (hsince : ∀ time ∈ a.since, IsI64 time)
    (huntil : ∀ time ∈ a.untilTime, IsI64 time) (hsince' : ∀ time ∈ b.since, IsI64 time)
    (huntil' : ∀ time ∈ b.untilTime, IsI64 time) (h : canonical a = canonical b) : a = b := by
  simp only [canonical, List.append_assoc, List.cons_append, List.nil_append] at h
  obtain ⟨-, h⟩ := List.cons.inj (List.append_cancel_left h)
  obtain ⟨horder, h⟩ := List.cons.inj h
  obtain ⟨hparent, h⟩ := List.cons.inj h
  obtain ⟨hs, h⟩ := delimited_optionalI64 _ _ hsince hsince' _ _ h
  obtain ⟨hu, -⟩ := delimited_optionalI64 _ _ huntil huntil' [] [] (congrArg (· ++ []) h)
  have horders : a.order = b.order := by
    cases hx : a.order <;> cases hy : b.order <;> first | rfl | exact absurd (hx ▸ hy ▸ horder) (by decide)
  cases a
  cases b
  simp only [WalkOptions.mk.injEq]
  exact ⟨horders, flag_inj hparent, hs, hu⟩

private theorem PathHistory.canonical_inj {path path' : Bytes} {followRenames followRenames' : Bool}
    (hpath : path.length < 2 ^ 32) (hpath' : path'.length < 2 ^ 32)
    (h : canonical path followRenames = canonical path' followRenames') :
    path = path' ∧ followRenames = followRenames' := by
  simp only [canonical, List.append_assoc, List.cons_append, List.nil_append] at h
  obtain ⟨-, h⟩ := List.cons.inj (List.append_cancel_left h)
  obtain ⟨heq, h⟩ := delimited_framed64 path path' (by omega) (by omega) _ _
    ((List.append_assoc ..).trans (h.trans (List.append_assoc ..).symm))
  exact ⟨heq, flag_inj (List.cons.inj h).1⟩

private theorem LocalRefDb.canonical_inj {a b : Option Bytes} (ha : ∀ name ∈ a, name.length < 2 ^ 32)
    (hb : ∀ name ∈ b, name.length < 2 ^ 32) (h : canonical a = canonical b) : a = b := by
  obtain ⟨-, h⟩ := List.cons.inj (List.append_cancel_left h)
  have hoption : Delimited (fun name : Option Bytes ↦
      name.elim [0] fun bytes ↦ 1 :: Bytes.toLe 8 bytes.length ++ bytes)
      (fun name ↦ ∀ bytes ∈ name, bytes.length < 256 ^ 8) := delimited_framed64.optional (by decide)
  exact (hoption a b (fun name hname ↦ by have := ha name hname; omega)
    (fun name hname ↦ by have := hb name hname; omega) [] [] (congrArg (· ++ []) h)).1

end ReadBack

/-! ### Sorted pathspecs -/

/-- The order of the pathspecs leaves no trace. -/
theorem mergeSort_eq_of_perm {as bs : List Bytes} (h : as.Perm bs) :
    (as.mergeSort fun a b ↦ ¬ b < a) = bs.mergeSort fun a b ↦ ¬ b < a :=
  Bundle.mergeSort_eq_of_injOn id h fun _ _ _ _ heq ↦ heq

namespace StreamRequest

/-- Each serialization begins with the tag of its operation. -/
theorem domain_isPrefix (request : StreamRequest) :
    request.operation.domain <+: request.canonical := by
  cases request with
  | listTree opts =>
    simp only [canonical, ListTree.canonical, List.append_assoc]
    exact ⟨_, List.append_assoc ..⟩
  | search pattern opts =>
    simp only [canonical, Search.canonical, List.append_assoc]
    exact ⟨_, List.append_assoc ..⟩
  | log opts =>
    simp only [canonical, Log.canonical, List.append_assoc]
    exact ⟨_, List.append_assoc ..⟩
  | history path opts =>
    simp only [canonical, PathHistory.canonical, List.append_assoc]
    exact ⟨_, List.append_assoc ..⟩
  | refs query => exact ⟨_, List.append_assoc ..⟩

/-- Pages of one stream have one serialization. -/
theorem canonical_eq_of_sameStream {a b : StreamRequest} (h : a.SameStream b) : a.canonical = b.canonical := by
  cases a <;> cases b <;> first | exact h.elim | skip
  case listTree.listTree a b => exact congrArg ListTree.canonical h
  case log.log a b => exact congrArg Log.canonical h
  case history.history path a path' b =>
    obtain ⟨rfl, hrenames⟩ := h
    exact congrArg (PathHistory.canonical path) hrenames
  case refs.refs a b => exact congrArg LocalRefDb.canonical h
  case search.search pattern a pattern' b =>
    obtain ⟨rfl, hperm, hquery⟩ := h
    injection hquery with hmode hcase hpath _ hbinary hlines
    rw [canonical, canonical, Search.canonical, Search.canonical, mergeSort_eq_of_perm hperm, hperm.length_eq,
      hmode, hcase, hpath, hbinary, hlines]

/-- Only pages of one stream do. -/
theorem sameStream_of_canonical_eq {a b : StreamRequest} (ha : a.Fits) (hb : b.Fits)
    (h : a.canonical = b.canonical) : a.SameStream b := by
  have hoperation : a.operation = b.operation :=
    (List.prefix_or_prefix_of_prefix a.domain_isPrefix (h ▸ b.domain_isPrefix)).elim
      PagedOperation.eq_of_domain_isPrefix fun hle ↦ (PagedOperation.eq_of_domain_isPrefix hle).symm
  cases a <;> cases b <;> first | cases hoperation; done | skip
  case listTree.listTree a b => exact ListTree.canonical_inj ha hb h
  case search.search pattern a pattern' b => exact Search.canonical_inj ha.1 hb.1 ha.2 hb.2 h
  case log.log a b => exact Log.canonical_inj ha.1 ha.2 hb.1 hb.2 h
  case history.history path a path' b => exact PathHistory.canonical_inj ha hb h
  case refs.refs a b => exact LocalRefDb.canonical_inj ha hb h

/-- A fingerprint is the hash of bytes in which a request's limit, cursor and `max_result_bytes` leave no trace,
and which tell every stream from every other; requests of two streams share a fingerprint only where the hash
collides. -/
theorem fingerprints_bind (a b : StreamRequest) :
    a.fingerprint = Cursor.fnv1a64 a.canonical ∧ b.fingerprint = Cursor.fnv1a64 b.canonical ∧
      (a.SameStream b → a.canonical = b.canonical) ∧
      (a.Fits → b.Fits → a.canonical = b.canonical → a.SameStream b) ∧
      (a.Fits → b.Fits → a.fingerprint = b.fingerprint → ¬ a.SameStream b →
        a.canonical ≠ b.canonical ∧ Cursor.fnv1a64 a.canonical = Cursor.fnv1a64 b.canonical) := by
  refine ⟨a.fingerprint_eq, b.fingerprint_eq, canonical_eq_of_sameStream, sameStream_of_canonical_eq, ?_⟩
  intro ha hb hshared hother
  refine ⟨mt (sameStream_of_canonical_eq ha hb) hother, ?_⟩
  rw [← a.fingerprint_eq, ← b.fingerprint_eq, hshared]

/-- Two pages of one search and a page of another one. -/
theorem fingerprints_bind_sample :
    let first := search [0x78] { pathspecs := [[0x61], [0x62]], limit := 1 }
    let second := search [0x78] { pathspecs := [[0x62], [0x61]], limit := 2, cursor := some [0x01] }
    let other := search [0x78] { pathspecs := [[0x62]], limit := 2 }
    first.canonical = second.canonical ∧
      (first.fingerprint = other.fingerprint → first.canonical ≠ other.canonical) := by
  intro first second other
  have hfits : first.Fits := ⟨by decide, by decide, by decide, by decide⟩
  have hother : other.Fits := ⟨by decide, by decide, by decide, by decide⟩
  obtain ⟨-, -, hsame, -⟩ := fingerprints_bind first second
  obtain ⟨-, -, -, -, hcollision⟩ := fingerprints_bind first other
  exact ⟨hsame ⟨rfl, List.Perm.swap [0x62] [0x61] [], rfl⟩,
    fun hshared ↦ (hcollision hfits hother hshared fun h ↦ by simpa using h.2.1.length_eq).1⟩

end StreamRequest

end Gitility
