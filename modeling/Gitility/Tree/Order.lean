import Gitility.Tree.Entries

/-!
# Walk order

Both tree walks, the one of `list_tree` and the `BlobWalk` of `search`, visit trees in pre-order
and the entries of one tree as they are stored. Git stores them sorted by name, where the name of
a tree counts as if it ended in `/`. A walk over such trees visits its entries in the order of
their full paths, again with a `/` behind the path of a tree.
-/

namespace Gitility

/-- What Git compares when it sorts: a tree counts as if its name ended in `/`. -/
def gitKey (path : Bytes) (kind : TreeItemKind) : Bytes :=
  if kind = .tree then path ++ [0x2f] else path

/-- A tree in canonical order. -/
structure Canonical (entries : List OwnedTreeEntry) : Prop where
  unique : entries.Pairwise (·.name ≠ ·.name)
  sorted : entries.Pairwise fun e f ↦ gitKey e.name e.kind < gitKey f.name f.kind

instance (entries : List OwnedTreeEntry) : Decidable (Canonical entries) :=
  decidable_of_iff
    (entries.Pairwise (·.name ≠ ·.name) ∧
      entries.Pairwise fun e f ↦ gitKey e.name e.kind < gitKey f.name f.kind)
    ⟨fun h ↦ ⟨h.1, h.2⟩, fun h ↦ ⟨h.unique, h.sorted⟩⟩

private theorem Canonical.tail {entry : OwnedTreeEntry} {entries : List OwnedTreeEntry}
    (h : Canonical (entry :: entries)) : Canonical entries :=
  ⟨(List.pairwise_cons.mp h.unique).2, (List.pairwise_cons.mp h.sorted).2⟩

/-! ### Keys and paths -/

section Keys

variable {p q x y : Bytes} {j k : TreeItemKind} {b c : UInt8}

@[simp] private theorem gitKey_tree : gitKey p .tree = p ++ [0x2f] := rfl

/-- A path that is no directory is its own key. -/
theorem gitKey_of_ne (hk : k ≠ .tree) : gitKey p k = p := if_neg hk

@[simp] private theorem gitKey_cons : gitKey (b :: p) k = b :: gitKey p k := by
  unfold gitKey
  split <;> rfl

private theorem gitKey_append : gitKey (p ++ q) k = p ++ gitKey q k := by
  unfold gitKey
  split
  · rw [List.append_assoc]
  · rfl

/-- Keys in order put the paths in order, unless the later path is a tree and the earlier one
goes on behind it with a byte below `/`. -/
theorem lt_of_gitKey_lt (h : gitKey p j < gitKey q k) (hne : p ≠ q) :
    p < q ∨ (k = .tree ∧ ∃ c rest, p = q ++ c :: rest ∧ c < 0x2f) := by
  induction p generalizing q with
  | nil =>
    cases q with
    | nil => exact absurd rfl hne
    | cons b q => exact .inl (List.nil_lt_cons b q)
  | cons a p ih =>
    cases q with
    | nil =>
      by_cases hk : k = .tree
      · subst hk
        rw [gitKey_cons, gitKey_tree, List.nil_append, List.cons_lt_cons_iff] at h
        rcases h with h | ⟨-, h⟩
        · exact .inr ⟨rfl, a, p, rfl, h⟩
        · exact absurd h (List.not_lt_nil _)
      · rw [gitKey_of_ne hk] at h
        exact absurd h (List.not_lt_nil _)
    | cons b q =>
      rw [gitKey_cons, gitKey_cons, List.cons_lt_cons_iff] at h
      rcases h with h | ⟨rfl, h⟩
      · exact .inl (List.cons_lt_cons_iff.mpr (.inl h))
      · rcases ih h (fun he ↦ hne (by rw [he])) with hlt | ⟨hk, c, rest, rfl, hc⟩
        · exact .inl (List.cons_lt_cons_iff.mpr (.inr ⟨rfl, hlt⟩))
        · exact .inr ⟨hk, c, rest, rfl, hc⟩

/-- A path that goes on behind a tree with a byte below `/` comes before the tree. -/
theorem gitKey_lt_tree {rest : Bytes} (hc : c < 0x2f) :
    gitKey (p ++ c :: rest) k < gitKey p .tree := by
  rw [gitKey_append, gitKey_tree, gitKey_cons]
  exact List.append_left_lt (List.cons_lt_cons_iff.mpr (.inl hc))

/-- The order of two names decides the order of everything at and below them. -/
theorem gitKey_append_lt (hq : 0x2f ∉ q) (h : gitKey p j < gitKey q k) (hx : j ≠ .tree → x = []) :
    gitKey p j ++ x < gitKey q k ++ y := by
  induction p generalizing q with
  | nil =>
    by_cases hj : j = .tree
    · subst hj
      cases q with
      | nil =>
        exfalso
        by_cases hk : k = .tree
        · subst hk
          exact List.lt_irrefl _ h
        · rw [gitKey_of_ne hk] at h
          exact List.not_lt_nil _ h
      | cons b q =>
        rw [gitKey_tree, gitKey_cons, List.nil_append, List.cons_lt_cons_iff] at h
        rcases h with h | ⟨rfl, -⟩
        · rw [gitKey_cons]
          exact List.cons_lt_cons_iff.mpr (.inl h)
        · exact absurd List.mem_cons_self hq
    · rw [hx hj, List.append_nil]
      rw [gitKey_of_ne hj] at h ⊢
      cases hkey : gitKey q k with
      | nil =>
        rw [hkey] at h
        exact absurd h (List.not_lt_nil _)
      | cons b rest => exact List.nil_lt_cons _ _
  | cons a p ih =>
    cases q with
    | nil =>
      by_cases hk : k = .tree
      · subst hk
        rw [gitKey_cons, gitKey_tree, List.nil_append, List.cons_lt_cons_iff] at h
        rcases h with h | ⟨-, h⟩
        · rw [gitKey_cons]
          exact List.cons_lt_cons_iff.mpr (.inl h)
        · exact absurd h (List.not_lt_nil _)
      · rw [gitKey_of_ne hk] at h
        exact absurd h (List.not_lt_nil _)
    | cons b q =>
      rw [gitKey_cons, gitKey_cons, List.cons_lt_cons_iff] at h
      rw [gitKey_cons, gitKey_cons, List.cons_append, List.cons_append, List.cons_lt_cons_iff]
      rcases h with h | ⟨rfl, h⟩
      · exact .inl h
      · exact .inr ⟨rfl, ih (fun hm ↦ hq (List.mem_cons_of_mem _ hm)) h⟩

/-- Bytes behind a name are bytes behind the path. -/
theorem joinPath_append (dir name s : Bytes) :
    joinPath dir name ++ s = joinPath dir (name ++ s) := by
  unfold joinPath
  split
  · rfl
  · rw [List.append_assoc, List.cons_append]

/-- Below the root a path is the directory, a slash and the name. -/
theorem joinPath_of_ne {dir : Bytes} (h : dir ≠ []) (name : Bytes) :
    joinPath dir name = dir ++ 0x2f :: name := if_neg h

/-- A path names one name. -/
theorem joinPath_inj {dir p q : Bytes} (h : joinPath dir p = joinPath dir q) : p = q := by
  unfold joinPath at h
  split at h
  · exact h
  · simpa using h

/-- A name makes a path. -/
theorem joinPath_ne_nil {dir name : Bytes} (h : name ≠ []) : joinPath dir name ≠ [] := by
  unfold joinPath
  split
  · exact h
  · simp

private theorem joinPath_lt {dir p q : Bytes} (h : p < q) : joinPath dir p < joinPath dir q := by
  unfold joinPath
  split
  · exact h
  · exact List.append_left_lt (List.cons_lt_cons_iff.mpr (.inr ⟨rfl, h⟩))

private theorem gitKey_joinPath (dir name : Bytes) :
    gitKey (joinPath dir name) k = joinPath dir (gitKey name k) := by
  unfold gitKey
  split
  · rw [joinPath_append]
  · rfl

/-- Names without `/` are told apart by what is at or below them. -/
theorem name_eq_of_append {s t : Bytes} (hp : 0x2f ∉ p) (hq : 0x2f ∉ q)
    (hs : s = [] ∨ ∃ rest, s = 0x2f :: rest) (ht : t = [] ∨ ∃ rest, t = 0x2f :: rest)
    (h : p ++ s = q ++ t) : p = q := by
  induction p generalizing q with
  | nil =>
    cases q with
    | nil => rfl
    | cons b q =>
      rcases hs with rfl | ⟨rest, rfl⟩
      · cases h
      · obtain ⟨rfl, -⟩ := List.cons.inj h
        exact absurd List.mem_cons_self hq
  | cons a p ih =>
    cases q with
    | nil =>
      rcases ht with rfl | ⟨rest, rfl⟩
      · cases h
      · obtain ⟨rfl, -⟩ := List.cons.inj h
        exact absurd List.mem_cons_self hp
    | cons b q =>
      rw [List.cons_append, List.cons_append] at h
      obtain ⟨rfl, htail⟩ := List.cons.inj h
      rw [ih (fun hm ↦ hp (List.mem_cons_of_mem _ hm)) (fun hm ↦ hq (List.mem_cons_of_mem _ hm))
        htail]

end Keys

/-! ### Valid paths -/

private theorem forM_eq_ok {α : Type} {f : α → Except Error Unit} {l : List α} :
    l.forM f = .ok () ↔ ∀ a ∈ l, f a = .ok () := by
  induction l with
  | nil => exact iff_of_true rfl (List.forall_mem_nil _)
  | cons a l ih =>
    unfold List.forM
    rw [Except.bind_eq_ok, List.forall_mem_cons, ← ih]
    constructor
    · rintro ⟨⟨⟩, h, h'⟩
      exact ⟨h, h'⟩
    · rintro ⟨h, h'⟩
      exact ⟨(), h, h'⟩

private theorem validatePath_eq_ok {path : Bytes} : validatePath path = .ok () ↔
    0 ∉ path ∧ (path = [] ∨ ∀ segment ∈ path.splitOn 0x2f, validateSegment segment = .ok ()) := by
  simp only [validatePath, Except.bind_eq_ok, ensure_eq_ok]
  by_cases hpath : path = []
  · subst hpath
    simp [pure, Except.pure]
  · simp only [hpath, if_false, false_or, exists_const]
    exact and_congr_right fun _ ↦ forM_eq_ok

private theorem validateSegment_name {name : Bytes} (h : validateTreeName name = .ok ()) :
    validateSegment name = .ok () := by
  obtain ⟨hne, -, -, hdot, hdots⟩ := ensure_eq_ok.mp h
  rw [validateSegment, Except.bind_eq_ok]
  exact ⟨(), ensure_eq_ok.mpr ⟨hdot, hdots⟩, ensure_eq_ok.mpr hne⟩

/-- A path stays valid when a valid name is joined to it. -/
theorem validatePath_joinPath {dir name : Bytes} (hdir : validatePath dir = .ok ())
    (hname : validateTreeName name = .ok ()) : validatePath (joinPath dir name) = .ok () := by
  have hsegment := validateSegment_name hname
  obtain ⟨-, hnul, hslash, -, -⟩ := ensure_eq_ok.mp hname
  have hone : name.splitOn 0x2f = [name] := List.splitOn_eq_singleton hslash
  rw [validatePath_eq_ok] at hdir ⊢
  obtain ⟨hnul', hsegments⟩ := hdir
  by_cases hd : dir = []
  · subst hd
    refine ⟨hnul, .inr ?_⟩
    intro segment hmem
    rw [joinPath, if_pos rfl, hone] at hmem
    rwa [List.mem_singleton.mp hmem]
  · rw [joinPath_of_ne hd]
    refine ⟨by simp [hnul, hnul'], .inr ?_⟩
    intro segment hmem
    rw [List.splitOn_append_cons_self, hone] at hmem
    rcases List.mem_append.mp hmem with hmem | hmem
    · exact (hsegments.resolve_left hd) segment hmem
    · rwa [List.mem_singleton.mp hmem]

/-- A path below `base` passes the check that it lies inside of it. -/
theorem inside_joinPath {base rest : Bytes} (hrest : rest ≠ []) :
    base = [] ∨ (base.isPrefixOf (joinPath base rest) ∧
      (joinPath base rest)[base.length]? = some 0x2f ∧
      base.length + 1 < (joinPath base rest).length) := by
  by_cases hbase : base = []
  · exact .inl hbase
  · rw [joinPath_of_ne hbase]
    have hpos := List.length_pos_iff.mpr hrest
    refine .inr ⟨by simp, by simp, ?_⟩
    rw [List.length_append, List.length_cons]
    omega

/-! ### Visits -/

/-- Which trees a walk reads, and where it descends. -/
structure TreeWalk where
  read : Oid → List OwnedTreeEntry → Prop
  descends : Bytes → OwnedTreeEntry → ℕ → Bool

namespace TreeWalk

variable (walk : TreeWalk)

/-- The entries, with their paths, that a walk visits from the entries of a directory on. Where
`cut` holds, the walk may leave a directory before its end. -/
inductive Visits (cut : Prop) :
    List OwnedTreeEntry → Bytes → ℕ → List (Bytes × OwnedTreeEntry) → Prop where
  | nil {dir : Bytes} {depth : ℕ} : Visits cut [] dir depth []
  | leave {entries : List OwnedTreeEntry} {dir : Bytes} {depth : ℕ} (hcut : cut) :
      Visits cut entries dir depth []
  | leaf {entry : OwnedTreeEntry} {rest : List OwnedTreeEntry} {dir : Bytes} {depth : ℕ}
      {visited : List (Bytes × OwnedTreeEntry)}
      (hleaf : walk.descends (joinPath dir entry.name) entry depth = false)
      (hrest : Visits cut rest dir depth visited) :
      Visits cut (entry :: rest) dir depth ((joinPath dir entry.name, entry) :: visited)
  | tree {entry : OwnedTreeEntry} {rest children : List OwnedTreeEntry} {dir : Bytes} {depth : ℕ}
      {below visited : List (Bytes × OwnedTreeEntry)}
      (htree : walk.descends (joinPath dir entry.name) entry depth = true)
      (hread : walk.read entry.oid children)
      (hbelow : Visits cut children (joinPath dir entry.name) (min (depth + 1) u32Max) below)
      (hrest : Visits cut rest dir depth visited) :
      Visits cut (entry :: rest) dir depth ((joinPath dir entry.name, entry) :: (below ++ visited))

/-- An entry that a walk reaches from the entries of a directory. -/
inductive Reaches : List OwnedTreeEntry → Bytes → ℕ → Bytes → OwnedTreeEntry → Prop where
  | entry {entries : List OwnedTreeEntry} {dir : Bytes} {depth : ℕ} {entry : OwnedTreeEntry}
      (hmem : entry ∈ entries) : Reaches entries dir depth (joinPath dir entry.name) entry
  | inside {entries children : List OwnedTreeEntry} {dir path : Bytes} {depth : ℕ}
      {tree entry : OwnedTreeEntry} (hmem : tree ∈ entries)
      (hdescends : walk.descends (joinPath dir tree.name) tree depth = true)
      (hread : walk.read tree.oid children)
      (hinside : Reaches children (joinPath dir tree.name) (min (depth + 1) u32Max) path entry) :
      Reaches entries dir depth path entry

/-- Trees that are read have one content, in canonical order and with valid names, and only
trees are descended into. -/
structure Regular : Prop where
  functional : ∀ oid entries entries', walk.read oid entries → walk.read oid entries' →
    entries = entries'
  canonical : ∀ oid entries, walk.read oid entries → Canonical entries
  valid : ∀ oid entries, walk.read oid entries →
    ∀ entry ∈ entries, validateTreeName entry.name = .ok ()
  descends_tree : ∀ path entry depth, walk.descends path entry depth = true → entry.kind = .tree

/-- A visited entry that is `entry` of the directory `dir`, or lies below it. -/
structure Within (dir : Bytes) (entry : OwnedTreeEntry) (visit : Bytes × OwnedTreeEntry) : Prop where
  path : ∃ tail, visit.1 = joinPath dir (entry.name ++ tail) ∧
    (tail = [] ∨ ∃ rest, tail = 0x2f :: rest)
  key : ∃ tail, gitKey visit.1 visit.2.kind = joinPath dir (gitKey entry.name entry.kind ++ tail) ∧
    (entry.kind ≠ .tree → tail = [])

variable {walk} {cut : Prop} {entries : List OwnedTreeEntry} {entry f : OwnedTreeEntry} {dir : Bytes} {depth : ℕ}
  {visited : List (Bytes × OwnedTreeEntry)} {v w : Bytes × OwnedTreeEntry}

private theorem within_self (dir : Bytes) (entry : OwnedTreeEntry) :
    Within dir entry (joinPath dir entry.name, entry) where
  path := ⟨[], by rw [List.append_nil], .inl rfl⟩
  key := ⟨[], by rw [List.append_nil, gitKey_joinPath], fun _ ↦ rfl⟩

/-- A path below a subtree is a path below its directory. -/
theorem joinPath_below {tree : OwnedTreeEntry} (hname : tree.name ≠ []) (p : Bytes) :
    joinPath (joinPath dir tree.name) p = joinPath dir (tree.name ++ 0x2f :: p) := by
  rw [joinPath_of_ne (joinPath_ne_nil hname), joinPath_append]

/-- What lies below an entry of a tree lies below the tree. -/
theorem Within.below {tree : OwnedTreeEntry} (htree : tree.kind = .tree) (hname : tree.name ≠ [])
    (h : Within (joinPath dir tree.name) entry v) : Within dir tree v := by
  obtain ⟨tail, hpath, -⟩ := h.path
  obtain ⟨keyTail, hkey, -⟩ := h.key
  constructor
  · refine ⟨0x2f :: (entry.name ++ tail), ?_, .inr ⟨_, rfl⟩⟩
    rw [hpath, joinPath_below hname]
  · refine ⟨gitKey entry.name entry.kind ++ keyTail, ?_, fun hk ↦ absurd htree hk⟩
    rw [hkey, joinPath_below hname, htree, gitKey_tree, List.append_assoc, List.singleton_append]

/-- What lies below a tree comes behind it. -/
theorem Within.behind {tree : OwnedTreeEntry} (htree : tree.kind = .tree) (hname : tree.name ≠ [])
    (hentry : entry.name ≠ []) (h : Within (joinPath dir tree.name) entry v) :
    gitKey (joinPath dir tree.name) tree.kind < gitKey v.1 v.2.kind ∧
      joinPath dir tree.name ≠ v.1 := by
  obtain ⟨tail, hpath, -⟩ := h.path
  obtain ⟨keyTail, hkey, -⟩ := h.key
  rw [htree, hkey, hpath, gitKey_tree, joinPath_below hname, joinPath_below hname, ← joinPath_append,
    ← joinPath_append]
  constructor
  · refine List.append_left_lt (List.cons_lt_cons_iff.mpr (.inr ⟨rfl, ?_⟩))
    cases hname : entry.name with
    | nil => exact absurd hname hentry
    | cons b rest =>
      rw [gitKey_cons]
      exact List.nil_lt_cons _ _
  · intro he
    have := congrArg List.length he
    rw [List.length_append, List.length_cons] at this
    omega

/-- Two entries of one directory order everything at and below them. -/
theorem Within.lt (hv : Within dir entry v) (hw : Within dir f w) (hf : 0x2f ∉ f.name)
    (hlt : gitKey entry.name entry.kind < gitKey f.name f.kind) :
    gitKey v.1 v.2.kind < gitKey w.1 w.2.kind := by
  obtain ⟨tail, hkey, htail⟩ := hv.key
  obtain ⟨tail', hkey', -⟩ := hw.key
  rw [hkey, hkey']
  exact joinPath_lt (gitKey_append_lt hf hlt htail)

/-- Two entries of one directory keep the paths at and below them apart. -/
theorem Within.ne (hv : Within dir entry v) (hw : Within dir f w) (he : 0x2f ∉ entry.name)
    (hf : 0x2f ∉ f.name) (hne : entry.name ≠ f.name) : v.1 ≠ w.1 := by
  obtain ⟨tail, hpath, htail⟩ := hv.path
  obtain ⟨tail', hpath', htail'⟩ := hw.path
  intro heq
  rw [hpath, hpath'] at heq
  exact hne (name_eq_of_append he hf htail htail' (joinPath_inj heq))

/-- A valid name is not empty. -/
theorem name_ne_nil (h : validateTreeName entry.name = .ok ()) : entry.name ≠ [] :=
  (ensure_eq_ok.mp h).1

/-- A valid name has no slash. -/
theorem not_mem_name (h : validateTreeName entry.name = .ok ()) : 0x2f ∉ entry.name :=
  (ensure_eq_ok.mp h).2.2.1

/-- Every visited entry lies at or below an entry of the directory. -/
theorem Visits.within (hwalk : walk.Regular) (h : walk.Visits cut entries dir depth visited)
    (hvalid : ∀ entry ∈ entries, validateTreeName entry.name = .ok ()) :
    ∀ v ∈ visited, ∃ entry ∈ entries, Within dir entry v := by
  induction h with
  | nil => intro v hv; cases hv
  | leave => intro v hv; cases hv
  | leaf hleaf hrest ih =>
    intro v hv
    rcases List.mem_cons.mp hv with rfl | hv
    · exact ⟨_, List.mem_cons_self, within_self _ _⟩
    · obtain ⟨entry, hentry, hwithin⟩ := ih (fun e he ↦ hvalid e (List.mem_cons_of_mem _ he)) v hv
      exact ⟨entry, List.mem_cons_of_mem _ hentry, hwithin⟩
  | @tree entry rest children dir depth below visited htree hread hbelow hrest ihbelow ih =>
    intro v hv
    rcases List.mem_cons.mp hv with rfl | hv
    · exact ⟨_, List.mem_cons_self, within_self _ _⟩
    · rcases List.mem_append.mp hv with hv | hv
      · obtain ⟨child, -, hwithin⟩ := ihbelow (hwalk.valid _ _ hread) v hv
        refine ⟨entry, List.mem_cons_self, hwithin.below (hwalk.descends_tree _ _ _ htree) ?_⟩
        exact name_ne_nil (hvalid entry List.mem_cons_self)
      · obtain ⟨entry, hentry, hwithin⟩ := ih (fun e he ↦ hvalid e (List.mem_cons_of_mem _ he)) v hv
        exact ⟨entry, List.mem_cons_of_mem _ hentry, hwithin⟩

/-- What a walk over canonical trees visits comes in the order of the keys, and no path twice. -/
def Ordered (visited : List (Bytes × OwnedTreeEntry)) : Prop :=
  visited.Pairwise fun v w ↦ gitKey v.1 v.2.kind < gitKey w.1 w.2.kind ∧ v.1 ≠ w.1

private theorem Within.before (hcanonical : Canonical (entry :: entries))
    (hvalid : ∀ e ∈ entry :: entries, validateTreeName e.name = .ok ())
    (hv : Within dir entry v) (hw : ∃ f ∈ entries, Within dir f w) :
    gitKey v.1 v.2.kind < gitKey w.1 w.2.kind ∧ v.1 ≠ w.1 := by
  obtain ⟨f, hf, hw⟩ := hw
  have hname := not_mem_name (hvalid entry List.mem_cons_self)
  have hfname := not_mem_name (hvalid f (List.mem_cons_of_mem _ hf))
  exact ⟨hv.lt hw hfname ((List.pairwise_cons.mp hcanonical.sorted).1 f hf),
    hv.ne hw hname hfname ((List.pairwise_cons.mp hcanonical.unique).1 f hf)⟩

/-- A walk over canonical trees visits its entries in order. -/
theorem Visits.ordered (hwalk : walk.Regular) (h : walk.Visits cut entries dir depth visited)
    (hcanonical : Canonical entries)
    (hvalid : ∀ entry ∈ entries, validateTreeName entry.name = .ok ()) : Ordered visited := by
  induction h with
  | nil => exact .nil
  | leave => exact .nil
  | @leaf entry rest dir depth visited hleaf hrest ih =>
    have hvalid' := fun e he ↦ hvalid e (List.mem_cons_of_mem _ he)
    refine List.pairwise_cons.mpr ⟨fun w hw ↦ ?_, ih hcanonical.tail hvalid'⟩
    exact (within_self dir entry).before hcanonical hvalid (hrest.within hwalk hvalid' w hw)
  | @tree entry rest children dir depth below visited htree hread hbelow hrest ihbelow ih =>
    have hkind := hwalk.descends_tree _ _ _ htree
    have hname := name_ne_nil (hvalid entry List.mem_cons_self)
    have hvalid' := fun e he ↦ hvalid e (List.mem_cons_of_mem _ he)
    have hchildren := hwalk.valid _ _ hread
    refine List.pairwise_cons.mpr ⟨fun w hw ↦ ?_, ?_⟩
    · rcases List.mem_append.mp hw with hw | hw
      · obtain ⟨child, hchild, hwithin⟩ := hbelow.within hwalk hchildren w hw
        exact hwithin.behind hkind hname (name_ne_nil (hchildren child hchild))
      · exact (within_self dir entry).before hcanonical hvalid (hrest.within hwalk hvalid' w hw)
    · refine List.pairwise_append.mpr ⟨ihbelow (hwalk.canonical _ _ hread) hchildren,
        ih hcanonical.tail hvalid', fun v hv w hw ↦ ?_⟩
      obtain ⟨child, -, hwithin⟩ := hbelow.within hwalk hchildren v hv
      exact (hwithin.below hkind hname).before hcanonical hvalid (hrest.within hwalk hvalid' w hw)

private theorem not_reaches_nil {path : Bytes} : ¬ walk.Reaches [] dir depth path f := by
  intro h
  cases h with
  | entry hmem => cases hmem
  | inside hmem => cases hmem

private theorem reaches_cons_iff {rest : List OwnedTreeEntry} {path : Bytes} :
    walk.Reaches (entry :: rest) dir depth path f ↔
      (path = joinPath dir entry.name ∧ f = entry) ∨
      (walk.descends (joinPath dir entry.name) entry depth = true ∧
        ∃ children, walk.read entry.oid children ∧
          walk.Reaches children (joinPath dir entry.name) (min (depth + 1) u32Max) path f) ∨
      walk.Reaches rest dir depth path f := by
  constructor
  · intro h
    cases h with
    | entry hmem =>
      rcases List.mem_cons.mp hmem with rfl | hmem
      · exact .inl ⟨rfl, rfl⟩
      · exact .inr (.inr (.entry hmem))
    | inside hmem hdescends hread hinside =>
      rcases List.mem_cons.mp hmem with rfl | hmem
      · exact .inr (.inl ⟨hdescends, _, hread, hinside⟩)
      · exact .inr (.inr (.inside hmem hdescends hread hinside))
  · rintro (⟨rfl, rfl⟩ | ⟨hdescends, children, hread, hinside⟩ | h)
    · exact .entry List.mem_cons_self
    · exact .inside List.mem_cons_self hdescends hread hinside
    · cases h with
      | entry hmem => exact .entry (List.mem_cons_of_mem _ hmem)
      | inside hmem hdescends hread hinside =>
        exact .inside (List.mem_cons_of_mem _ hmem) hdescends hread hinside

/-- What a walk reaches has a valid path inside the directory it starts from. -/
theorem Reaches.valid {path : Bytes} (hwalk : walk.Regular)
    (h : walk.Reaches entries dir depth path entry)
    (hvalid : ∀ entry ∈ entries, validateTreeName entry.name = .ok ())
    (hdir : validatePath dir = .ok ()) :
    validatePath path = .ok () ∧ ∃ rest, rest ≠ [] ∧ path = joinPath dir rest := by
  induction h with
  | entry hmem =>
    have hname := hvalid _ hmem
    exact ⟨validatePath_joinPath hdir hname, _, name_ne_nil hname, rfl⟩
  | inside hmem hdescends hread hinside ih =>
    have hname := hvalid _ hmem
    obtain ⟨hpath, rest, -, rfl⟩ := ih (hwalk.valid _ _ hread) (validatePath_joinPath hdir hname)
    refine ⟨hpath, _, ?_, joinPath_below (name_ne_nil hname) rest⟩
    simp

/-- What a walk visits it reaches. -/
theorem Visits.reaches (h : walk.Visits cut entries dir depth visited) (hv : v ∈ visited) :
    walk.Reaches entries dir depth v.1 v.2 := by
  induction h with
  | nil => cases hv
  | leave => cases hv
  | leaf hleaf hrest ih =>
    rw [reaches_cons_iff]
    rcases List.mem_cons.mp hv with rfl | hv
    · exact .inl ⟨rfl, rfl⟩
    · exact .inr (.inr (ih hv))
  | tree htree hread hbelow hrest ihbelow ih =>
    rw [reaches_cons_iff]
    rcases List.mem_cons.mp hv with rfl | hv
    · exact .inl ⟨rfl, rfl⟩
    · rcases List.mem_append.mp hv with hv | hv
      · exact .inr (.inl ⟨htree, _, hread, ihbelow hv⟩)
      · exact .inr (.inr (ih hv))

/-- A finished walk has visited what it reaches. -/
theorem Visits.mem_iff (hwalk : walk.Regular) (h : walk.Visits False entries dir depth visited) :
    v ∈ visited ↔ walk.Reaches entries dir depth v.1 v.2 := by
  induction h with
  | nil => exact iff_of_false List.not_mem_nil not_reaches_nil
  | leave hcut => exact hcut.elim
  | leaf hleaf hrest ih => simp [reaches_cons_iff, hleaf, ih, Prod.ext_iff]
  | tree htree hread hbelow hrest ihbelow ih =>
    have honly : ∀ children', walk.read _ children' → children' = _ :=
      fun children' h ↦ hwalk.functional _ _ _ h hread
    simp only [List.mem_cons, List.mem_append, reaches_cons_iff, htree, ihbelow, ih, Prod.ext_iff,
      true_and]
    refine or_congr_right (or_congr_left ⟨fun h ↦ ⟨_, hread, h⟩, ?_⟩)
    rintro ⟨children', hread', h⟩
    rw [honly children' hread'] at h
    exact h

end TreeWalk

/-! ### The trees of a store -/

/-- Every tree object of the store is in canonical order. -/
def ObjectDb.CanonicalTrees (db : ObjectDb) (gix : Gix) : Prop :=
  ∀ oid payload entries, db.tryFind oid = .ok (some (.tree, payload)) →
    decodeOwnedTreeEntries gix payload db.hashKind = .ok entries → Canonical entries

/-- The trees a walk reads from a store. -/
def ObjectDb.treeWalk (db : ObjectDb) (gix : Gix)
    (descends : Bytes → OwnedTreeEntry → ℕ → Bool) : TreeWalk where
  read oid entries := db.eval (readTreeEntries gix db.toStoreInfo oid) = .ok entries
  descends := descends

section Read

variable {db : ObjectDb} {gix : Gix} {oid : Oid} {entries : List OwnedTreeEntry}

/-- Entries are read exactly when the store has the tree and its payload decodes. -/
theorem ObjectDb.eval_readTreeEntries_eq_ok :
    db.eval (readTreeEntries gix db.toStoreInfo oid) = .ok entries ↔
      ∃ payload, db.tryFind oid = .ok (some (.tree, payload)) ∧
        decodeOwnedTreeEntries gix payload db.hashKind = .ok entries := by
  simp only [readTreeEntries, ObjectDb.eval_bind, ObjectDb.eval_tryFind, ObjectDb.eval_ofExcept]
  cases hfind : db.tryFind oid with
  | error e => simp
  | ok found =>
    rcases found with - | ⟨kind, payload⟩
    · simp [treeEntriesOf]
    · simp [treeEntriesOf, Except.bind_eq_ok]

private theorem ownTreeEntry_valid {remaining : Bytes} {item : Option TreeEntry} {entry : OwnedTreeEntry}
    (h : ownTreeEntry remaining item = .ok entry) : validateTreeName entry.name = .ok () := by
  simp only [ownTreeEntry, Except.bind_eq_ok] at h
  obtain ⟨decoded, -, ⟨⟩, hvalid, kind, -, h⟩ := h
  obtain rfl := Except.ok.inj h
  exact hvalid

/-- Entries of a decoded tree have valid names. -/
theorem mapM_ownTreeEntry_valid {items : List (Bytes × Option TreeEntry)}
    (h : (items.mapM fun (remaining, item) ↦ ownTreeEntry remaining item) = .ok entries) :
    ∀ entry ∈ entries, validateTreeName entry.name = .ok () := by
  intro entry hentry
  have hentries := Except.mapM_eq_ok.mp h
  obtain ⟨i, hi, rfl⟩ := List.mem_iff_getElem.mp hentry
  exact ownTreeEntry_valid (hentries.get (hentries.length_eq ▸ hi) hi)

/-- A walk over a store with canonical trees is regular. -/
theorem ObjectDb.regular_treeWalk (hcanonical : db.CanonicalTrees gix)
    {descends : Bytes → OwnedTreeEntry → ℕ → Bool}
    (hdescends : ∀ path entry depth, descends path entry depth = true → entry.kind = .tree) :
    (db.treeWalk gix descends).Regular where
  functional oid entries entries' h h' := Outcome.ok.inj (h.symm.trans h')
  canonical oid entries h := by
    obtain ⟨payload, hfind, hdecode⟩ := ObjectDb.eval_readTreeEntries_eq_ok.mp h
    exact hcanonical oid payload entries hfind hdecode
  valid oid entries h := by
    obtain ⟨payload, -, hdecode⟩ := ObjectDb.eval_readTreeEntries_eq_ok.mp h
    exact mapM_ownTreeEntry_valid hdecode
  descends_tree := hdescends

/-- The walk reads the entries that a plain read does. -/
theorem ObjectDb.eval_readTreeEntriesForWalk {prefetchChildren : Bool}
    (h : db.eval (readTreeEntriesForWalk gix db.toStoreInfo prefetchChildren oid) = .ok entries) :
    db.eval (readTreeEntries gix db.toStoreInfo oid) = .ok entries := by
  simp only [readTreeEntriesForWalk, ObjectDb.eval_bind, Outcome.bind_eq_ok] at h
  obtain ⟨entries', hread, -, -, h⟩ := h
  rw [hread, ← h, ObjectDb.eval_pure]

end Read

end Gitility
