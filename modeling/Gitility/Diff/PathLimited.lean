import Mathlib.Data.List.Sublists
import Gitility.Diff.ProjectedLeaves

/-!
# Both sides of a path-limited diff

Base and head are projected one after the other into the same maps. The adapter that the diff reads
through finds the subtrees of both, and each side has the selected leaves of its own tree.
-/

namespace Gitility.Diff

variable {scope : Scope} {db : ObjectDb} {oid : Oid} {directory : Bytes} {maps : Maps}

/-! ### Projections that are made -/

/-- The tree is stored with all its subtrees, and is at most this deep. -/
def Complete (gix : Gix) (db : ObjectDb) : ℕ → Oid → Prop
  | 0, _ => False
  | depth + 1, oid => ∃ payload entries, treeOf db oid = some payload ∧
      decodeTree gix oid.kind payload = .ok entries ∧
      ∀ entry ∈ entries, isTree entry.mode → Complete gix db depth entry.oid

/-- An entry is projected where its subtree is. -/
theorem exists_projectEntry {project : Oid → Bytes → Maps → Query (Bytes × Maps)} {kind : HashKind}
    {entry : TreeEntry} (hproject : Remembers scope db project) (hfree : CollisionFree scope db)
    (hmemo : Memo scope db maps) (hkind : entry.oid.kind = kind)
    (hchild : isTree entry.mode → ∀ directory, ∃ output maps',
      db.eval (project entry.oid directory maps) = .ok (output, maps')) :
    ∃ kept maps', db.eval (projectEntry scope project kind directory entry maps) = .ok (kept, maps') := by
  rw [projectEntry]
  by_cases htree : isTree entry.mode
  · rw [if_pos htree]
    by_cases hmay : Pathspec.mayMatchDescendant scope.patterns (joinPath directory entry.name)
    · rw [if_neg (not_not_intro hmay)]
      obtain ⟨output, maps', hrun⟩ := hchild htree (joinPath directory entry.name)
      rw [ObjectDb.eval_bind, hrun, Outcome.ok_bind]
      by_cases hempty : output = []
      · exact ⟨none, maps', by simp [hempty]⟩
      · obtain ⟨-, -, fuel, kept, hselection, rfl, -⟩ := hproject _ _ _ _ _ hmemo hrun
        obtain ⟨id, hid⟩ := hfree.hashes _ _ _ _ hselection
        rw [hkind] at hid
        refine ⟨some { entry with oid := id },
          { maps' with projected := orInsert maps'.projected id (encodeTree kept) }, ?_⟩
        simp [hempty, hid]
    · exact ⟨none, maps, by simp [hmay]⟩
  · rw [if_neg htree]
    by_cases hmatch : Pathspec.matchesPath scope.gix scope.patterns (joinPath directory entry.name)
    · exact ⟨some entry, maps, by simp [hmatch]⟩
    · exact ⟨none, maps, by simp [hmatch]⟩

/-- The entries of a tree are projected where its subtrees are. -/
theorem exists_projectEntries {project : Oid → Bytes → Maps → Query (Bytes × Maps)} {kind : HashKind}
    (hproject : Remembers scope db project) (hfree : CollisionFree scope db)
    {items : List (Bytes × Option TreeEntry)} {entries : List TreeEntry}
    (hkind : ∀ remaining entry, (remaining, some entry) ∈ items → entry.oid.kind = kind)
    (hentries : (items.mapM fun item ↦ decodeTreeItem item.1 item.2) = .ok entries)
    (hchild : ∀ entry ∈ entries, isTree entry.mode → ∀ directory maps, Memo scope db maps →
      ∃ output maps', db.eval (project entry.oid directory maps) = .ok (output, maps'))
    (hmemo : Memo scope db maps) (output : Bytes) :
    ∃ output' maps', db.eval (projectEntries scope project kind directory items output maps) =
      .ok (output', maps') := by
  induction items generalizing entries output maps with
  | nil => exact ⟨output, maps, rfl⟩
  | cons item items ih =>
    obtain ⟨remaining, item⟩ := item
    rw [List.mapM_cons] at hentries
    obtain ⟨entry, hentry, hentries⟩ := Except.bind_eq_ok.mp hentries
    obtain ⟨rest, hrest, hentries⟩ := Except.bind_eq_ok.mp hentries
    cases hentries
    obtain rfl := item_of_decodeTreeItem hentry
    have hkind₁ := hkind remaining entry List.mem_cons_self
    obtain ⟨kept, maps₁, hrun⟩ : ∃ kept maps₁,
        db.eval (projectEntry scope project kind directory entry maps) = .ok (kept, maps₁) :=
      exists_projectEntry hproject hfree hmemo hkind₁ fun htree directory ↦
        hchild entry List.mem_cons_self htree directory maps hmemo
    obtain ⟨hmemo₁, -, -, -⟩ := projectEntry_spec hproject hmemo hkind₁ hrun
    obtain ⟨output', maps', hloop⟩ := ih
      (fun remaining entry hmem ↦ hkind remaining entry (List.mem_cons_of_mem _ hmem)) hrest
      (fun entry hmem ↦ hchild entry (List.mem_cons_of_mem _ hmem)) hmemo₁
      (output ++ (kept.map encodeEntry).getD [])
    refine ⟨output', maps', ?_⟩
    simp only [projectEntries, ObjectDb.eval_bind, ObjectDb.eval_check, ObjectDb.eval_ofExcept, hentry,
      Outcome.ofExcept_ok, Outcome.ok_bind, hrun, hloop]

/-- A complete tree is projected. -/
theorem exists_projectTree (hgix : ReadsTrees scope.gix) (hfree : CollisionFree scope db) {depth fuel : ℕ}
    (hle : depth ≤ fuel) (hcomplete : Complete scope.gix db depth oid) (directory : Bytes)
    (hmemo : Memo scope db maps) :
    ∃ output maps', db.eval (projectTree scope fuel oid directory maps) = .ok (output, maps') := by
  induction fuel generalizing depth oid directory maps with
  | zero =>
    obtain rfl := Nat.le_zero.mp hle
    exact hcomplete.elim
  | succ fuel ih =>
    cases depth with
    | zero => exact hcomplete.elim
    | succ depth =>
      obtain ⟨payload, entries, hpayload, hentries, hinside⟩ := hcomplete
      rw [projectTree]
      cases maps.cache.lookup (oid, directory) with
      | some output => exact ⟨output, maps, rfl⟩
      | none =>
        have hchild : ∀ entry ∈ entries, isTree entry.mode → ∀ directory maps, Memo scope db maps →
            ∃ output maps', db.eval (projectTree scope fuel entry.oid directory maps) = .ok (output, maps') :=
          fun entry hmem htree directory maps hmemo ↦
            ih (Nat.le_of_succ_le_succ hle) (hinside entry hmem htree) directory hmemo
        obtain ⟨output, maps', hloop⟩ : ∃ output maps', db.eval (projectEntries scope
            (projectTree scope fuel) oid.kind directory (scope.gix.treeRefIter oid.kind payload) [] maps) =
              .ok (output, maps') :=
          exists_projectEntries (remembers_projectTree hgix fuel) hfree
            (fun _ _ hmem ↦ hgix.kind _ _ _ _ hmem) hentries hchild hmemo []
        refine ⟨output, { maps' with cache := ((oid, directory), output) :: maps'.cache }, ?_⟩
        simp only [ObjectDb.eval_bind, eval_readRequiredTree.mpr hpayload, Outcome.ok_bind, hloop,
          ObjectDb.eval_pure]

/-! ### Both sides -/

/-- The trees that the diff reads through an adapter. -/
def GixObjectStore.treeOf (adapter : GixObjectStore) (db : ObjectDb) (oid : Oid) : Option Bytes :=
  match db.eval (adapter.tryFind oid) with
  | .ok (.ok (some (.tree, payload)), _) => some payload
  | _ => none

private theorem GixObjectStore.treeOf_of_lookup {adapter : GixObjectStore} {payload : Bytes}
    (h : adapter.projectedTrees.lookup oid = some payload) : adapter.treeOf db oid = some payload := by
  simp [treeOf, tryFind, h]

/-- The subtrees of a tree are found, and each has an entry. -/
def Filled (gix : Gix) (find : Oid → Option Bytes) (kind : HashKind) (payload : Bytes) : Prop :=
  ∃ entries, treeEntries gix kind payload = some entries ∧ ∀ entry ∈ entries, isTree entry.mode →
    ∃ child childEntries, find entry.oid = some child ∧
      treeEntries gix entry.oid.kind child = some childEntries ∧ childEntries ≠ []

/-- A projected root has the leaves of its tree that the pathspecs match, and no empty subtree. -/
structure Projected (scope : Scope) (db : ObjectDb) (find : Oid → Option Bytes) (oid : Oid)
    (output : Bytes) : Prop where
  leaves : ∀ leaf, IsLeaf scope.gix find oid.kind output [] leaf ↔
    HasLeaf scope.gix (treeOf db) oid [] leaf ∧
      Pathspec.matchesPath scope.gix scope.patterns leaf.path
  filled : Filled scope.gix find oid.kind output

section Sides

variable {find : Oid → Option Bytes} {output : Bytes} (hmemo : Memo scope db maps)
  (hgix : ReadsTrees scope.gix)
  (hfind : ∀ oid payload, maps.projected.lookup oid = some payload → find oid = some payload)

include hmemo hgix hfind in
/-- What a projection makes has no empty subtree. -/
theorem Made.filled (h : Made scope db maps.projected oid directory output) :
    Filled scope.gix find oid.kind output := by
  obtain ⟨fuel, kept, hselection, rfl, hresolved⟩ := h
  refine ⟨kept, (readable_of_selection hgix hselection).treeEntries hgix, fun entry hmem htree ↦ ?_⟩
  obtain ⟨child, hchild⟩ := Option.isSome_iff_exists.mp (hresolved entry hmem htree)
  obtain ⟨hne, -, source, directory', hkind, fuel', kept', hselection', rfl, -⟩ :=
    hmemo.projected _ _ hchild
  refine ⟨encodeTree kept', kept', hfind _ _ hchild, ?_, fun h ↦ hne (encodeTree_eq_nil_iff.mpr h)⟩
  rw [← hkind]
  exact (readable_of_selection hgix hselection').treeEntries hgix

include hmemo hgix hfind in
/-- What a projection makes of a root is its projected root. -/
theorem Made.projected (hfree : CollisionFree scope db)
    (hsound : Pathspec.Sound scope.gix scope.patterns) (hroot : NamedRoot scope.gix db oid)
    (h : Made scope db maps.projected oid [] output) : Projected scope db find oid output := by
  refine ⟨fun leaf ↦ ?_, h.filled hmemo hgix hfind⟩
  obtain ⟨fuel, kept, hselection, rfl, hresolved⟩ := h
  rw [← selectsLeaves hmemo hgix hfree hsound hfind hselection hresolved (fun _ ↦ hroot) leaf, isLeaf_iff,
    (readable_of_selection hgix hselection).treeEntries hgix]
  simp

end Sides

/-- Pruning is sound for patterns without backslashes. -/
theorem sound_of_plain {gix : Gix} {patterns : List Bytes} (hgix : Pathspec.FollowsWildmatch gix)
    (hplain : ∀ pattern ∈ patterns, 0x5c ∉ pattern) : Pathspec.Sound gix patterns := by
  refine (Pathspec.sound_iff hgix).mpr fun pattern hpattern escaped hescaped ↦ ?_
  obtain ⟨-, hfixed, hquote⟩ := Pathspec.escapedDirectory_eq_some hescaped
  obtain ⟨⟨more, hsplit⟩, -⟩ := Pathspec.fixedDirectory_eq_some hfixed
  have hstripped : 0x5c ∈ (Pathspec.stripGlob pattern).1 := by
    rw [hsplit]
    exact List.mem_append_left _ hquote
  have hmem : 0x5c ∈ pattern := by
    rw [Pathspec.stripGlob] at hstripped
    split at hstripped
    · exact List.mem_of_mem_drop hstripped
    · exact hstripped
  exact absurd hmem (hplain pattern hpattern)

/-- The projections of both sides of a diff, read through an adapter with the map that they share, have
the leaves of their trees that the pathspecs match, and neither they nor the trees in the map have an
empty subtree; and complete trees are projected. -/
theorem projection_selects {union : UnionObjectDb} {baseOid headOid : Oid} (hgix : ReadsTrees scope.gix)
    (hglob : Pathspec.FollowsWildmatch scope.gix) (hplain : ∀ pattern ∈ scope.patterns, 0x5c ∉ pattern)
    (hfree : CollisionFree scope union.toObjectDb) (hbase : NamedRoot scope.gix union.toObjectDb baseOid)
    (hhead : NamedRoot scope.gix union.toObjectDb headOid) :
    (∀ fuel prepared, union.toObjectDb.eval (projectDiffTrees scope fuel baseOid headOid) = .ok prepared →
      ∀ adapter : GixObjectStore, adapter.projectedTrees = prepared.projected →
        Projected scope union.toObjectDb (adapter.treeOf union.toObjectDb) baseOid prepared.base ∧
        Projected scope union.toObjectDb (adapter.treeOf union.toObjectDb) headOid prepared.head ∧
        ∀ oid tree, prepared.projected.lookup oid = some tree →
          Filled scope.gix (adapter.treeOf union.toObjectDb) oid.kind tree) ∧
    ∀ depth fuel, depth ≤ fuel → Complete scope.gix union.toObjectDb depth baseOid →
      Complete scope.gix union.toObjectDb depth headOid →
        ∃ prepared, union.toObjectDb.eval (projectDiffTrees scope fuel baseOid headOid) = .ok prepared := by
  constructor
  · intro fuel prepared hrun adapter hadapter
    rw [projectDiffTrees, ObjectDb.eval_bind] at hrun
    obtain ⟨⟨base, maps₁⟩, hrunBase, hrun⟩ := Outcome.bind_eq_ok.mp hrun
    rw [ObjectDb.eval_bind] at hrun
    obtain ⟨⟨head, maps₂⟩, hrunHead, hrun⟩ := Outcome.bind_eq_ok.mp hrun
    cases hrun
    obtain ⟨hmemo₁, -, hmadeBase⟩ := remembers_projectTree hgix fuel _ _ _ _ _ memo_empty hrunBase
    obtain ⟨hmemo₂, hextends, hmadeHead⟩ := remembers_projectTree hgix fuel _ _ _ _ _ hmemo₁ hrunHead
    have hfind : ∀ oid payload, maps₂.projected.lookup oid = some payload →
        adapter.treeOf union.toObjectDb oid = some payload := fun oid payload h ↦
      GixObjectStore.treeOf_of_lookup (by rw [hadapter]; exact h)
    have hsound := sound_of_plain hglob hplain
    refine ⟨(hmadeBase.extend hextends).projected hmemo₂ hgix hfind hfree hsound hbase,
      hmadeHead.projected hmemo₂ hgix hfind hfree hsound hhead, fun oid tree hlookup ↦ ?_⟩
    obtain ⟨-, -, source, directory, hkind, hmade⟩ := hmemo₂.projected oid tree hlookup
    rw [← hkind]
    exact hmade.filled hmemo₂ hgix hfind
  · intro depth fuel hle hcompleteBase hcompleteHead
    obtain ⟨base, maps₁, hrunBase⟩ := exists_projectTree hgix hfree hle hcompleteBase [] memo_empty
    obtain ⟨hmemo₁, -, -⟩ := remembers_projectTree hgix fuel _ _ _ _ _ memo_empty hrunBase
    obtain ⟨head, maps₂, hrunHead⟩ := exists_projectTree hgix hfree hle hcompleteHead [] hmemo₁
    refine ⟨⟨base, head, maps₂.projected⟩, ?_⟩
    simp only [projectDiffTrees, ObjectDb.eval_bind, hrunBase, Outcome.ok_bind, hrunHead,
      ObjectDb.eval_pure]

/-! ### A tree that is read again -/

/-- Trees whose entries are plain files and subtrees, under SHA-1. -/
def sampleTreeRefIter : HashKind → Bytes → List (Bytes × Option TreeEntry)
  | .sha1, payload => (sampleTreeEntries payload.length payload).map fun (remaining, item) ↦
      (remaining, item.filter (·.mode ∈ [0o40000, 0o100644]))
  | .sha256, _ => []

private theorem span_ne {byte : UInt8} {front : Bytes} (h : byte ∉ front) (rest : Bytes) :
    (front ++ byte :: rest).span (· ≠ byte) = (front, byte :: rest) := by
  have hfront : ∀ other ∈ front, decide (other ≠ byte) = true := fun other hmem ↦
    decide_eq_true fun heq ↦ h (heq ▸ hmem)
  rw [List.span_eq_takeWhile_dropWhile, List.takeWhile_append_of_pos hfront,
    List.dropWhile_append_of_pos hfront]
  simp

private theorem sampleTreeEntry_encodeEntry {entry : TreeEntry} (hmode : entry.mode ∈ [0o40000, 0o100644])
    (hname : 0 ∉ entry.name) (hkind : entry.oid.kind = .sha1) (rest : Bytes) :
    sampleTreeEntry (encodeEntry entry ++ rest) = some (entry, rest) := by
  obtain ⟨mode, name, ⟨kind, digest, hlength⟩⟩ := entry
  obtain rfl : kind = .sha1 := hkind
  have hspace : 0x20 ∉ Bytes.ascii (String.ofList (Nat.toDigits 8 mode)) := by
    rcases List.mem_cons.mp hmode with rfl | hmode
    · decide
    · obtain rfl := List.mem_singleton.mp hmode
      decide
  have hvalue : (Bytes.ascii (String.ofList (Nat.toDigits 8 mode))).foldl
      (fun value digit ↦ 8 * value + (digit - 0x30).toNat) 0 = mode := by
    rcases List.mem_cons.mp hmode with rfl | hmode
    · decide
    · obtain rfl := List.mem_singleton.mp hmode
      decide
  have hlength' : digest.length = 20 := hlength
  have hbytes : encodeEntry ⟨mode, name, ⟨.sha1, digest, hlength⟩⟩ ++ rest =
      Bytes.ascii (String.ofList (Nat.toDigits 8 mode)) ++ 0x20 :: (name ++ 0 :: (digest ++ rest)) := by
    simp [encodeEntry]
  rw [hbytes, sampleTreeEntry]
  simp only [span_ne hspace, List.drop_succ_cons, List.drop_zero, span_ne hname,
    List.take_left' hlength', List.drop_left' hlength', hlength', dif_pos, hvalue]

private theorem sampleTreeEntries_encodeTree {entries : List TreeEntry} {fuel : ℕ}
    (hfuel : (encodeTree entries).length ≤ fuel)
    (h : ∀ entry ∈ entries, entry.mode ∈ [0o40000, 0o100644] ∧ 0 ∉ entry.name ∧ entry.oid.kind = .sha1) :
    (sampleTreeEntries fuel (encodeTree entries)).map Prod.snd = entries.map some := by
  induction entries generalizing fuel with
  | nil => cases fuel <;> rfl
  | cons entry rest ih =>
    obtain ⟨hmode, hname, hkind⟩ := h entry List.mem_cons_self
    have hcons : encodeTree (entry :: rest) = encodeEntry entry ++ encodeTree rest := rfl
    have hne := encodeEntry_ne_nil entry
    have hpos := List.length_pos_iff.mpr hne
    rw [hcons, List.length_append] at hfuel
    obtain ⟨n, rfl⟩ := Nat.exists_eq_add_one.mpr (hpos.trans_le (Nat.le_of_add_right_le hfuel))
    rw [hcons, sampleTreeEntries, if_neg (by simp [hne]), sampleTreeEntry_encodeEntry hmode hname hkind]
    change _ :: _ = _ :: _
    rw [ih (by omega) fun other hmem ↦ h other (List.mem_cons_of_mem _ hmem)]

/-- What the sample reader yields. -/
theorem mem_sampleTreeEntries {fuel : ℕ} {payload remaining : Bytes} {entry : TreeEntry}
    (h : (remaining, some entry) ∈ sampleTreeEntries fuel payload) :
    entry.oid.kind = .sha1 ∧ 0 ∉ entry.name := by
  induction fuel generalizing payload with
  | zero => cases h
  | succ fuel ih =>
    rw [sampleTreeEntries] at h
    split at h
    · cases h
    · split at h
      · simp at h
      · next other rest hread =>
        rcases List.mem_cons.mp h with heq | hmem
        · obtain ⟨-, heq⟩ := Prod.mk.inj heq
          obtain rfl := Option.some.inj heq
          simp only [sampleTreeEntry] at hread
          split at hread
          · cases hread
            refine ⟨rfl, fun hzero ↦ ?_⟩
            change 0 ∈ (List.span _ _).1 at hzero
            rw [List.span_eq_takeWhile_dropWhile] at hzero
            exact absurd (List.all_eq_true.mp List.all_takeWhile 0 hzero) (by decide)
          · cases hread
        · exact ih hmem

/-- The sample reader, with wildmatch. -/
def sampleDiffGix : Gix := ⟨sampleTreeRefIter, sampleWildmatch⟩

/-- The sample matcher follows the rules of wildmatch. -/
theorem sampleDiffGix_follows : Pathspec.FollowsWildmatch sampleDiffGix :=
  ⟨sampleGlobGix_follows.literal⟩

private theorem mem_sampleTreeRefIter {kind : HashKind} {payload remaining : Bytes} {entry : TreeEntry}
    (h : (remaining, some entry) ∈ sampleDiffGix.treeRefIter kind payload) :
    kind = .sha1 ∧ entry.mode ∈ [0o40000, 0o100644] ∧ 0 ∉ entry.name ∧ entry.oid.kind = .sha1 := by
  cases kind with
  | sha256 => cases h
  | sha1 =>
    obtain ⟨⟨remaining', item⟩, hmem, heq⟩ := List.mem_map.mp h
    obtain ⟨rfl, hfilter⟩ := Prod.mk.inj heq
    obtain ⟨rfl, hmode⟩ := Option.filter_eq_some_iff.mp hfilter
    obtain ⟨hkind, hname⟩ := mem_sampleTreeEntries hmem
    exact ⟨rfl, of_decide_eq_true hmode, hname, hkind⟩

/-- The sample tree reader reads back what is written. -/
theorem sampleDiffGix_reads : ReadsTrees sampleDiffGix where
  kind kind payload remaining entry h := by
    obtain ⟨rfl, -, -, hkind⟩ := mem_sampleTreeRefIter h
    exact hkind
  encoded kind entries h := by
    have hall : ∀ entry ∈ entries, kind = .sha1 ∧ entry.mode ∈ [0o40000, 0o100644] ∧ 0 ∉ entry.name ∧
        entry.oid.kind = .sha1 := by
      intro entry hmem
      obtain ⟨hkind, payload, remaining, oid, hitem⟩ := h entry hmem
      obtain ⟨rfl, hmode, hname, -⟩ := mem_sampleTreeRefIter hitem
      exact ⟨rfl, hmode, hname, hkind⟩
    cases kind with
    | sha256 =>
      cases entries with
      | nil => rfl
      | cons entry rest => cases (hall entry List.mem_cons_self).1
    | sha1 =>
      have hread := sampleTreeEntries_encodeTree (Nat.le_refl _) fun entry hmem ↦ (hall entry hmem).2
      calc (sampleTreeRefIter .sha1 (encodeTree entries)).map Prod.snd
          = ((sampleTreeEntries (encodeTree entries).length (encodeTree entries)).map Prod.snd).map
              (Option.filter (·.mode ∈ [0o40000, 0o100644])) := by
            simp only [sampleTreeRefIter, List.map_map, Function.comp_def]
        _ = (entries.map some).map (Option.filter (·.mode ∈ [0o40000, 0o100644])) := by rw [hread]
        _ = entries.map some := by
            rw [List.map_map]
            refine List.map_congr_left fun entry hmem ↦ Option.filter_eq_some_iff.mpr ⟨rfl, ?_⟩
            exact decide_eq_true (hall entry hmem).2.1

/-! ### Sample trees -/

/-- The SHA-1 ID with this text. -/
def sampleOid (hex : String) : Oid := (Oid.parseHex (Bytes.ascii hex)).toOption.getD (sampleId 0)

/-- The ID of the empty blob. -/
def emptyBlob : Oid := sampleOid "e69de29bb2d1d6434b8b29ae775ad8c2e48c5391"

/-- A tree with the file `x`. -/
def fileTree : List TreeEntry := [⟨0o100644, Bytes.ascii "x", emptyBlob⟩]

/-- The ID of this tree. -/
def fileTreeId : Oid := sampleOid "5805b676e247eb9a8046ad0c4d249cd2fb2513df"

/-- That tree as the entry `d`. -/
def subtree : TreeEntry := ⟨0o40000, Bytes.ascii "d", fileTreeId⟩

/-- The empty blob as the file `z`. -/
def otherFile : TreeEntry := ⟨0o100644, Bytes.ascii "z", emptyBlob⟩

/-- A tree with the file `d/x` and the file `z`. -/
def namedTreeId : Oid := sampleOid "b57ae9379936d8c1eaac254a742fe4fe04e88cbc"

/-- The ID of the blob `a\n`. -/
def letterBlob : Oid := sampleOid "78981922613b2afb6025042ff6bd878ac1994e85"

/-- A tree with the blob as the file `x`. -/
def sourceTree : List TreeEntry := [⟨0o100644, Bytes.ascii "x", letterBlob⟩]

/-- The ID of this tree. -/
def sourceTreeId : Oid := sampleOid "8748a00aa34eacc083824b8ae08ba912f315bf7f"

/-- A tree with the blob as the file `d`. -/
def renamedTree : List TreeEntry := [⟨0o100644, Bytes.ascii "d", letterBlob⟩]

/-- The ID of this tree. -/
def renamedTreeId : Oid := sampleOid "65c3459fe648a6bcc4dbded24afc6623be5ecbc2"

/-- A subtree without a name. -/
def unnamedSubtree : TreeEntry := ⟨0o40000, [], fileTreeId⟩

/-- The ID of a tree with it. -/
def unnamedTreeId : Oid := sampleOid "c9401e3ae16838dd146dceda9030abdb48d29e74"

/-- The stored trees. -/
def sampleTrees : List (Oid × List TreeEntry) :=
  [(fileTreeId, fileTree), (namedTreeId, [subtree, otherFile]), (sourceTreeId, sourceTree),
    (renamedTreeId, renamedTree), (unnamedTreeId, [unnamedSubtree])]

/-- The trees that projections of the stored trees write. -/
def sampleProjections : List (Oid × List TreeEntry) :=
  sampleTrees ++ [(sampleOid "9cbc44e74e032434365f3727e9e7377323f971e2", [subtree]),
    (sampleOid "08c56681eceec443b14ad503fa7ebf1c46652c50", [otherFile]),
    (sampleOid "4b825dc642cb6eb9a060e54bf8d69288fbee4904", [])]

/-- SHA-1 on the trees of the sample. -/
def sampleHashers : Provider.Hashers where
  sha1 bytes := (sampleProjections.find? fun (_, entries) ↦ bytes =
    Bytes.ascii s!"tree {(encodeTree entries).length}" ++ 0 :: encodeTree entries).map (·.1.bytes)
  sha256 _ := []

/-- A projection to the paths `x` and `d`. -/
def sampleScope : Scope := ⟨sampleDiffGix, sampleHashers, [Bytes.ascii "x", Bytes.ascii "d"]⟩

/-- A store of the trees. -/
def sampleDb : ObjectDb :=
  .ofFind .sha1 none fun oid ↦ .ok ((sampleTrees.lookup oid).map fun entries ↦ (.tree, encodeTree entries))

/-- The store as both layers of a union. -/
def sampleUnion : UnionObjectDb := ⟨sampleDb, sampleDb⟩

/-- The union finds the stored trees. -/
theorem treeOf_sampleUnion {oid : Oid} {payload : Bytes}
    (h : treeOf sampleUnion.toObjectDb oid = some payload) :
    ∃ entries, (oid, entries) ∈ sampleTrees ∧ payload = encodeTree entries := by
  have hdb : sampleDb.tryFind oid =
      .ok ((sampleTrees.lookup oid).map fun entries ↦ (.tree, encodeTree entries)) := rfl
  have hfind : sampleUnion.tryFind oid =
      .ok ((sampleTrees.lookup oid).map fun entries ↦ (.tree, encodeTree entries)) := by
    simp only [UnionObjectDb.tryFind, sampleUnion, hdb]
    cases sampleTrees.lookup oid <;> rfl
  rw [treeOf, show sampleUnion.toObjectDb.tryFind oid = _ from hfind] at h
  cases hlookup : sampleTrees.lookup oid with
  | none => simp [hlookup] at h
  | some entries =>
    rw [hlookup] at h
    obtain ⟨before, after, hsplit, -⟩ := List.lookup_eq_some_iff.mp hlookup
    refine ⟨entries, ?_, (Option.some.inj h).symm⟩
    rw [hsplit]
    exact List.mem_append_right _ List.mem_cons_self

/-- What the sample stores: SHA-1 trees that are read back, with the stored file as their only subtree, and whose
parts are all among the projections. -/
theorem sampleTrees_spec : ∀ tree ∈ sampleTrees,
    (tree.1.kind = .sha1 ∧ treeEntries sampleDiffGix .sha1 (encodeTree tree.2) = some tree.2) ∧
    (treeOf sampleUnion.toObjectDb tree.1 = some (encodeTree tree.2) ∧
      (decodeTree sampleDiffGix tree.1.kind (encodeTree tree.2)).toOption = some tree.2) ∧
    (∀ entry ∈ tree.2, isTree entry.mode → entry.oid = fileTreeId) ∧
    (tree.1 = fileTreeId → tree.2 = fileTree) ∧
    ∀ kept ∈ tree.2.sublists, ∃ projection ∈ sampleProjections, projection.2 = kept := by
  decide +kernel

/-- The projections have their own IDs, each another one. -/
theorem sampleProjections_spec : ∀ tree ∈ sampleProjections,
    (sampleScope.treeId .sha1 (encodeTree tree.2)).toOption = some tree.1 ∧
    ∀ tree' ∈ sampleProjections, tree.1 = tree'.1 → tree.2 = tree'.2 := by
  decide +kernel

/-- A stored tree is read back. -/
theorem sampleTrees_read {tree : Oid × List TreeEntry} (h : tree ∈ sampleTrees) : tree.1.kind = .sha1 ∧
    treeEntries sampleDiffGix .sha1 (encodeTree tree.2) = some tree.2 :=
  (sampleTrees_spec tree h).1

/-- The union finds a stored tree, and it decodes. -/
theorem treeOf_sampleUnion_of_mem {tree : Oid × List TreeEntry} (h : tree ∈ sampleTrees) :
    treeOf sampleUnion.toObjectDb tree.1 = some (encodeTree tree.2) ∧
      (decodeTree sampleDiffGix tree.1.kind (encodeTree tree.2)).toOption = some tree.2 :=
  (sampleTrees_spec tree h).2.1

/-- The only stored subtree is that of the file. -/
theorem sampleTrees_subtrees {tree : Oid × List TreeEntry} (h : tree ∈ sampleTrees) :
    ∀ entry ∈ tree.2, isTree entry.mode → entry.oid = fileTreeId :=
  (sampleTrees_spec tree h).2.2.1

/-- Where each entry is left out or kept as it is, so are the entries. -/
theorem sublist_of_selectEntries {select : Oid → Bytes → Option (List TreeEntry)} {kind : HashKind}
    {directory : Bytes} {entries kept : List TreeEntry}
    (hentry : ∀ entry ∈ entries, ∀ selected, selectEntry scope select kind directory entry =
      some selected → selected.toList.Sublist [entry])
    (h : selectEntries scope select kind directory entries = some kept) : kept.Sublist entries := by
  induction entries generalizing kept with
  | nil =>
    cases h
    exact List.Sublist.refl _
  | cons entry rest ih =>
    obtain ⟨first, hfirst, h⟩ := Option.bind_eq_some_iff.mp h
    obtain ⟨others, hothers, h⟩ := Option.bind_eq_some_iff.mp h
    cases h
    exact (hentry entry List.mem_cons_self first hfirst).append
      (ih (fun other hother ↦ hentry other (List.mem_cons_of_mem _ hother)) hothers)

/-- Sample projections leave entries out, and keep the others as they are. -/
theorem sublist_of_selection {fuel : ℕ} {oid : Oid} {directory : Bytes} {kept : List TreeEntry}
    (h : selection sampleScope sampleUnion.toObjectDb fuel oid directory = some kept) :
    ∃ entries, (oid, entries) ∈ sampleTrees ∧ kept.Sublist entries := by
  induction fuel generalizing oid directory kept with
  | zero => cases h
  | succ fuel ih =>
    obtain ⟨n, payload, entries, hn, hpayload, hentries, hselect⟩ := selection_eq_some h
    obtain rfl := Nat.succ.inj hn
    obtain ⟨stored, hmem, rfl⟩ := treeOf_sampleUnion hpayload
    obtain ⟨hkind, hread⟩ := sampleTrees_read hmem
    change oid.kind = .sha1 at hkind
    rw [hkind] at hentries hselect
    obtain rfl := Option.some.inj (hread.symm.trans hentries)
    refine ⟨stored, hmem, ?_⟩
    have hentry : ∀ entry ∈ stored, ∀ selected, selectEntry sampleScope
        (selection sampleScope sampleUnion.toObjectDb fuel) .sha1 directory entry = some selected →
          selected.toList.Sublist [entry] := by
      intro entry hentry selected hselected
      simp only [selectEntry] at hselected
      split at hselected
      · next htree =>
        have hoid := sampleTrees_subtrees hmem entry hentry htree
        split at hselected
        · obtain ⟨child, hchild, hselected⟩ := Option.bind_eq_some_iff.mp hselected
          obtain ⟨source, hsource, hsublist⟩ := ih hchild
          split at hselected
          · cases hselected
            exact List.nil_sublist _
          · next hne =>
            obtain ⟨id, hid, hselected⟩ := Option.bind_eq_some_iff.mp hselected
            cases hselected
            rw [hoid] at hsource
            obtain rfl : source = fileTree := (sampleTrees_spec _ hsource).2.2.2.1 rfl
            obtain rfl : child = fileTree := hsublist.eq_of_length (by
              have hpos := List.length_pos_iff.mpr hne
              have hle := hsublist.length_le
              change child.length ≤ 1 at hle
              change child.length = 1
              omega)
            have hid' := (sampleProjections_spec (fileTreeId, fileTree) (by decide)).1
            change (sampleScope.treeId .sha1 (encodeTree fileTree)).toOption = some fileTreeId at hid'
            obtain rfl := Option.some.inj (hid.symm.trans hid')
            rw [← hoid]
            exact List.Sublist.refl _
        · cases hselected
          exact List.nil_sublist _
      · cases hselected
        split
        · exact List.Sublist.refl _
        · exact List.nil_sublist _
    exact sublist_of_selectEntries hentry hselect

/-- Every selection in the sample is one of the listed projections. -/
theorem sampleProjections_of_selection {fuel : ℕ} {oid : Oid} {directory : Bytes}
    {kept : List TreeEntry}
    (h : selection sampleScope sampleUnion.toObjectDb fuel oid directory = some kept) :
    oid.kind = .sha1 ∧ ∃ id, (id, kept) ∈ sampleProjections ∧
      sampleScope.treeId .sha1 (encodeTree kept) = .ok id := by
  obtain ⟨entries, hmem, hsublist⟩ := sublist_of_selection h
  obtain ⟨⟨id, kept'⟩, hprojection, rfl⟩ :=
    (sampleTrees_spec _ hmem).2.2.2.2 kept (List.mem_sublists.mpr hsublist)
  exact ⟨(sampleTrees_read hmem).1, id, hprojection,
    toOption_eq_some.mp (sampleProjections_spec _ hprojection).1⟩

/-- No two selections of the sample are written under one ID. -/
theorem sampleScope_collisionFree : CollisionFree sampleScope sampleUnion.toObjectDb where
  hashes fuel oid directory kept h := by
    obtain ⟨hkind, id, -, hid⟩ := sampleProjections_of_selection h
    exact ⟨id, by rw [hkind]; exact hid⟩
  injective fuel oid directory kept fuel' oid' directory' kept' kind id h h' hid hid' := by
    cases kind with
    | sha256 => cases hid
    | sha1 =>
      obtain ⟨-, id₁, hmem, hid₁⟩ := sampleProjections_of_selection h
      obtain ⟨-, id₂, hmem', hid₂⟩ := sampleProjections_of_selection h'
      obtain rfl := Except.ok.inj (hid₁.symm.trans hid)
      obtain rfl := Except.ok.inj (hid₂.symm.trans hid')
      exact congrArg encodeTree ((sampleProjections_spec _ hmem).2 _ hmem' rfl)

private theorem complete_sampleUnion : ∀ tree ∈ sampleTrees,
    Complete sampleDiffGix sampleUnion.toObjectDb 2 tree.1 := by
  have hcomplete : ∀ tree ∈ sampleTrees, ∀ depth,
      (∀ entry ∈ tree.2, isTree entry.mode → Complete sampleDiffGix sampleUnion.toObjectDb depth entry.oid) →
        Complete sampleDiffGix sampleUnion.toObjectDb (depth + 1) tree.1 := fun tree hmem depth hinside ↦
    ⟨_, _, (treeOf_sampleUnion_of_mem hmem).1,
      toOption_eq_some.mp (treeOf_sampleUnion_of_mem hmem).2, hinside⟩
  have hfile : (fileTreeId, fileTree) ∈ sampleTrees := List.mem_cons_self
  have hno : ∀ entry ∈ fileTree, ¬isTree entry.mode := by decide
  intro tree hmem
  refine hcomplete tree hmem 1 fun entry hentry htree ↦ ?_
  rw [sampleTrees_subtrees hmem entry hentry htree]
  exact hcomplete _ hfile 0 fun other hother htree' ↦ absurd htree' (hno other hother)

private theorem namedRoot_sampleUnion : ∀ tree ∈ sampleTrees,
    (∀ entry ∈ tree.2, isTree entry.mode → entry.name ≠ []) →
      NamedRoot sampleDiffGix sampleUnion.toObjectDb tree.1 := by
  intro tree hmem hnamed payload entries hpayload hentries
  obtain rfl := Option.some.inj ((treeOf_sampleUnion_of_mem hmem).1.symm.trans hpayload)
  obtain ⟨hkind, hread⟩ := sampleTrees_read hmem
  rw [hkind] at hentries
  obtain rfl := Option.some.inj (hread.symm.trans hentries)
  exact hnamed

/-- Of `d/x` and `z`, the pathspec `d` selects the former. -/
theorem projection_selects_sample : ∃ prepared,
    sampleUnion.toObjectDb.eval (projectDiffTrees sampleScope 2 namedTreeId fileTreeId) = .ok prepared ∧
      ∀ adapter : GixObjectStore, adapter.projectedTrees = prepared.projected →
        Projected sampleScope sampleUnion.toObjectDb (adapter.treeOf sampleUnion.toObjectDb) namedTreeId
          prepared.base ∧
        Projected sampleScope sampleUnion.toObjectDb (adapter.treeOf sampleUnion.toObjectDb) fileTreeId
          prepared.head := by
  have hgix : ReadsTrees sampleScope.gix := sampleDiffGix_reads
  have hglob : Pathspec.FollowsWildmatch sampleScope.gix := sampleDiffGix_follows
  have hmem : (namedTreeId, [subtree, otherFile]) ∈ sampleTrees := by simp [sampleTrees]
  have hmem' : (fileTreeId, fileTree) ∈ sampleTrees := by simp [sampleTrees]
  obtain ⟨hright, hcomplete⟩ := projection_selects hgix hglob (by decide)
    sampleScope_collisionFree (namedRoot_sampleUnion _ hmem (by decide))
    (namedRoot_sampleUnion _ hmem' (by decide))
  obtain ⟨prepared, hrun⟩ := hcomplete 2 2 (Nat.le_refl _) (complete_sampleUnion _ hmem)
    (complete_sampleUnion _ hmem')
  refine ⟨prepared, hrun, fun adapter hadapter ↦ ?_⟩
  obtain ⟨hbase, hhead, -⟩ := hright 2 prepared hrun adapter hadapter
  exact ⟨hbase, hhead⟩

/-- A subtree without a name is left out, although the path of its file is selected. -/
theorem projection_loses_unnamed :
    ReadsTrees sampleDiffGix ∧ Pathspec.FollowsWildmatch sampleDiffGix ∧
      (∀ pattern ∈ sampleScope.patterns, 0x5c ∉ pattern) ∧
      CollisionFree sampleScope sampleUnion.toObjectDb ∧
      ∃ prepared, sampleUnion.toObjectDb.eval
          (projectDiffTrees sampleScope 2 unnamedTreeId fileTreeId) = .ok prepared ∧
        ∃ leaf, HasLeaf sampleDiffGix (treeOf sampleUnion.toObjectDb) unnamedTreeId [] leaf ∧
          Pathspec.matchesPath sampleDiffGix sampleScope.patterns leaf.path ∧
          ∀ find, ¬IsLeaf sampleDiffGix find unnamedTreeId.kind prepared.base [] leaf := by
  have hrun : sampleUnion.toObjectDb.eval (projectDiffTrees sampleScope 2 unnamedTreeId fileTreeId) =
      .ok ⟨[], encodeTree fileTree, []⟩ := by rfl
  have hmem : (unnamedTreeId, [unnamedSubtree]) ∈ sampleTrees := by simp [sampleTrees]
  have hmem' : (fileTreeId, fileTree) ∈ sampleTrees := by simp [sampleTrees]
  have hfile : IsLeaf sampleDiffGix (treeOf sampleUnion.toObjectDb) .sha1 (encodeTree fileTree) []
      ⟨Bytes.ascii "x", 0o100644, emptyBlob⟩ :=
    .entry (sampleTrees_read hmem').2 List.mem_cons_self (by decide)
  refine ⟨sampleDiffGix_reads, sampleDiffGix_follows, by decide, sampleScope_collisionFree, _, hrun,
    ⟨Bytes.ascii "x", 0o100644, emptyBlob⟩, ⟨_, (treeOf_sampleUnion_of_mem hmem).1, ?_⟩, ?_, ?_⟩
  · exact .inside (sampleTrees_read hmem).2 List.mem_cons_self (by decide)
      (treeOf_sampleUnion_of_mem hmem').1 hfile
  · decide
  · intro find hleaf
    obtain ⟨entries, hentries, entry, hentry, -⟩ := isLeaf_iff.mp hleaf
    cases hentries
    cases hentry

end Gitility.Diff
