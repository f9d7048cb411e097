import Gitility.Tree.Listing
import Gitility.Tree.Order

/-!
# Pruning by pathspecs

`may_match_descendant` compares a directory with the bytes of a pattern before the last `/` ahead of
its first metacharacter. The matcher reads the same bytes with their backslashes as quotes, so the
pruning is sound where that part of a pattern has no backslash. Where it has one, a path the pattern
matches starts with fewer bytes than the pattern, and the pruner rejects one of its directories.
-/

namespace Gitility

namespace Pathspec

/-- The bytes that a pattern fixes at the start of what it matches: those before its first
metacharacter that is not quoted, without their quotes. -/
def literalPrefix : Bytes → Bytes
  | [] => []
  | 0x5c :: quoted :: pattern => quoted :: literalPrefix pattern
  | byte :: pattern => if isMeta byte ∨ byte = 0x5c then [] else byte :: literalPrefix pattern

/-- What the pruning relies on of `wildmatch`: a backslash quotes the byte behind it, and all bytes
but metacharacters match themselves only. -/
structure FollowsWildmatch (gix : Gix) : Prop where
  literal : ∀ pattern path, gix.wildmatch pattern path = true → literalPrefix pattern <+: path

/-- The pattern of the matcher, and whether it is a glob. -/
def isGlob (pattern : Bytes) : Bool := (stripGlob pattern).2 || (stripGlob pattern).1.any isMeta

/-- The bytes of a glob before the last `/` ahead of its first metacharacter. -/
def fixedDirectory (pattern : Bytes) : Option Bytes :=
  let fixed := pattern.take ((pattern.findIdx? isMeta).getD pattern.length)
  (Bytes.rposition (· = 0x2f) fixed).map fixed.take

/-- The directory that a pattern keeps open, or a path below or above it; `none` for a glob that keeps
everything open. -/
def keptDirectory (pattern : Bytes) : Option Bytes :=
  if isGlob pattern then fixedDirectory (stripGlob pattern).1 else some (stripGlob pattern).1

/-- The fixed directory of a glob, if it has a backslash. -/
def escapedDirectory (pattern : Bytes) : Option Bytes :=
  if isGlob pattern then (fixedDirectory (stripGlob pattern).1).filter (0x5c ∈ ·) else none

/-- One path is the other, or a directory of it. -/
def Overlap (left right : Bytes) : Prop :=
  left = right ∨ right ++ [0x2f] <+: left ∨ left ++ [0x2f] <+: right

/-- A pattern keeps a directory open. -/
def Keeps (pattern directory : Bytes) : Prop :=
  ∀ kept ∈ keptDirectory pattern, Overlap kept directory

/-! ### The matcher and the pruner -/

private theorem isBelow_iff {path left : Bytes} : isBelow path left ↔ left ++ [0x2f] <+: path := by
  simp only [isBelow, decide_eq_true_eq, List.isPrefixOf_iff_prefix]
  constructor
  · rintro ⟨⟨rest, rfl⟩, hslash⟩
    rw [List.getElem?_append_right (Nat.le_refl _), Nat.sub_self] at hslash
    cases rest with
    | nil => simp at hslash
    | cons byte rest =>
      obtain rfl : byte = 0x2f := by simpa using hslash
      exact ⟨rest, by simp⟩
  · rintro ⟨rest, rfl⟩
    refine ⟨⟨0x2f :: rest, by simp⟩, ?_⟩
    simp

private theorem pathPrefixesOverlap_iff {left right : Bytes} :
    pathPrefixesOverlap left right ↔ Overlap left right := by
  simp only [pathPrefixesOverlap, decide_eq_true_eq, isBelow_iff, Overlap]

private theorem not_isGlob {pattern : Bytes} :
    ¬isGlob pattern ↔ ¬(stripGlob pattern).2 ∧ ¬(stripGlob pattern).1.any isMeta := by
  rw [isGlob, Bool.or_eq_true, not_or]

private theorem patternMayMatchDescendant_iff {directory pattern : Bytes} :
    patternMayMatchDescendant directory pattern ↔ Keeps pattern directory := by
  have hnone : ((stripGlob pattern).1.findIdx? isMeta).isNone ↔
      ¬(stripGlob pattern).1.any isMeta := by
    simp
  simp only [patternMayMatchDescendant, Keeps, keptDirectory]
  by_cases hglob : isGlob pattern
  · rw [if_neg (by rw [hnone, ← not_isGlob]; exact not_not_intro hglob), if_pos hglob, fixedDirectory]
    cases Bytes.rposition _ _ with
    | none => simp
    | some slash => simp [pathPrefixesOverlap_iff]
  · rw [if_pos (by rw [hnone, ← not_isGlob]; exact hglob), if_neg hglob, pathPrefixesOverlap_iff]
    simp

private theorem mayMatchDescendant_iff {patterns : List Bytes} {directory : Bytes} :
    mayMatchDescendant patterns directory ↔
      patterns = [] ∨ ∃ pattern ∈ patterns, Keeps pattern directory := by
  simp [mayMatchDescendant, patternMayMatchDescendant_iff]

private theorem matchesOne_iff {gix : Gix} {path pattern : Bytes} :
    matchesOne gix path pattern ↔ if isGlob pattern then gix.wildmatch (stripGlob pattern).1 path = true
      else path = (stripGlob pattern).1 ∨ (stripGlob pattern).1 ++ [0x2f] <+: path := by
  simp only [matchesOne]
  by_cases hglob : isGlob pattern
  · rw [if_neg (by rw [← not_isGlob]; exact not_not_intro hglob), if_pos hglob]
  · rw [if_pos (not_isGlob.mp hglob), if_neg hglob]
    simp [isBelow_iff]

/-! ### Fixed directories -/

private theorem literalPrefix_of_plain {byte : UInt8} {pattern : Bytes} (hmeta : ¬isMeta byte)
    (hquote : byte ≠ 0x5c) : literalPrefix (byte :: pattern) = byte :: literalPrefix pattern := by
  rw [literalPrefix]
  · rw [if_neg (not_or.mpr ⟨hmeta, hquote⟩)]
  · exact fun _ _ h _ ↦ hquote h

/-- A pattern splits at its fixed directory. -/
theorem fixedDirectory_eq_some {pattern dir : Bytes} (h : fixedDirectory pattern = some dir) :
    (∃ more, pattern = dir ++ 0x2f :: more) ∧ ∀ byte ∈ dir, ¬isMeta byte := by
  obtain ⟨slash, hslash, rfl⟩ := Option.map_eq_some_iff.mp h
  obtain ⟨front, byte, back, hfixed, rfl, hbyte, -⟩ := Bytes.rposition_eq_some.mp hslash
  obtain rfl : byte = 0x2f := by simpa using hbyte
  rw [hfixed, List.take_left]
  constructor
  · refine ⟨back ++ pattern.drop ((pattern.findIdx? isMeta).getD pattern.length), ?_⟩
    conv_lhs => rw [← List.take_append_drop ((pattern.findIdx? isMeta).getD pattern.length) pattern]
    rw [hfixed, List.append_assoc, List.cons_append]
  · intro b hb
    have hmem : b ∈ pattern.take ((pattern.findIdx? isMeta).getD pattern.length) := by
      rw [hfixed]
      exact List.mem_append_left _ hb
    cases hfirst : pattern.findIdx? isMeta with
    | none =>
      rw [Bool.not_eq_true]
      exact List.findIdx?_eq_none_iff.mp hfirst b (List.mem_of_mem_take hmem)
    | some first =>
      obtain ⟨-, -, -, hbefore⟩ := Bytes.findIdx?_eq_some_split hfirst
      rw [Bool.not_eq_true]
      rw [hfirst] at hmem
      exact hbefore b hmem

/-- Induction along a pattern, with what each of its bytes fixes. -/
private theorem literalPrefix_induction {motive : Bytes → Prop} (nil : motive [])
    (quoted : ∀ byte pattern, literalPrefix (0x5c :: byte :: pattern) = byte :: literalPrefix pattern →
      motive pattern → motive (0x5c :: byte :: pattern))
    (stop : ∀ byte pattern, literalPrefix (byte :: pattern) = [] → isMeta byte ∨ byte = 0x5c →
      (byte = 0x5c → pattern = []) → motive (byte :: pattern))
    (plain : ∀ byte pattern, literalPrefix (byte :: pattern) = byte :: literalPrefix pattern →
      ¬isMeta byte → byte ≠ 0x5c → motive pattern → motive (byte :: pattern))
    (pattern : Bytes) : motive pattern := by
  induction pattern using literalPrefix.induct with
  | case1 => exact nil
  | case2 byte pattern ih => exact quoted byte pattern (by rw [literalPrefix]) ih
  | case3 byte pattern hpair hstop =>
    refine stop byte pattern ?_ hstop fun hbyte ↦ ?_
    · rw [literalPrefix, if_pos hstop]
      exact hpair
    · cases pattern with
      | nil => rfl
      | cons quoted pattern => exact (hpair quoted pattern hbyte rfl).elim
  | case4 byte pattern hpair hplain ih =>
    obtain ⟨hmeta, hquote⟩ := not_or.mp hplain
    exact plain byte pattern (literalPrefix_of_plain hmeta hquote) hmeta hquote ih

/-- The bytes fixed by a directory with a `/` behind it. -/
theorem literalPrefix_append {dir : Bytes} (hdir : ∀ byte ∈ dir, ¬isMeta byte) (more : Bytes) :
    literalPrefix (dir ++ 0x2f :: more) = literalPrefix dir ++ 0x2f :: literalPrefix more := by
  induction dir using literalPrefix_induction with
  | nil => exact literalPrefix_of_plain (by decide) (by decide)
  | quoted byte pattern hfixed ih =>
    have hrest : ∀ byte ∈ pattern, ¬isMeta byte := fun byte hbyte ↦
      hdir byte (List.mem_cons_of_mem _ (List.mem_cons_of_mem _ hbyte))
    rw [hfixed, List.cons_append, List.cons_append, literalPrefix, ih hrest, List.cons_append]
  | stop byte pattern hfixed hstop hlast =>
    -- a backslash at the end quotes the slash
    obtain rfl : byte = 0x5c := hstop.resolve_left (hdir byte List.mem_cons_self)
    obtain rfl := hlast rfl
    rfl
  | plain byte pattern hfixed hmeta hquote ih =>
    rw [hfixed, List.cons_append, literalPrefix_of_plain hmeta hquote,
      ih fun byte hbyte ↦ hdir byte (List.mem_cons_of_mem _ hbyte), List.cons_append]

/-- A directory without quotes is fixed as it is. -/
theorem literalPrefix_eq_self {dir : Bytes} (hdir : ∀ byte ∈ dir, ¬isMeta byte) (hquote : 0x5c ∉ dir) :
    literalPrefix dir = dir := by
  induction dir with
  | nil => rfl
  | cons byte dir ih =>
    rw [List.mem_cons, not_or] at hquote
    rw [literalPrefix_of_plain (hdir byte List.mem_cons_self) (Ne.symm hquote.1),
      ih (fun b hb ↦ hdir b (List.mem_cons_of_mem _ hb)) hquote.2]

private theorem length_literalPrefix_le (dir : Bytes) : (literalPrefix dir).length ≤ dir.length := by
  induction dir using literalPrefix_induction with
  | nil => exact Nat.le_refl _
  | quoted byte pattern hfixed ih =>
    rw [hfixed, List.length_cons, List.length_cons, List.length_cons]
    omega
  | stop byte pattern hfixed hstop hlast =>
    rw [hfixed]
    exact Nat.zero_le _
  | plain byte pattern hfixed hmeta hquote ih =>
    rw [hfixed, List.length_cons, List.length_cons]
    omega

/-- Quotes shorten what a directory fixes. -/
theorem length_literalPrefix_lt {dir : Bytes} (hquote : 0x5c ∈ dir) :
    (literalPrefix dir).length < dir.length := by
  induction dir using literalPrefix_induction with
  | nil => cases hquote
  | quoted byte pattern hfixed ih =>
    have hle := length_literalPrefix_le pattern
    rw [hfixed, List.length_cons, List.length_cons, List.length_cons]
    omega
  | stop byte pattern hfixed hstop hlast =>
    rw [hfixed]
    exact Nat.zero_lt_succ _
  | plain byte pattern hfixed hmeta hplain ih =>
    rcases List.mem_cons.mp hquote with rfl | hquote
    · exact absurd rfl hplain
    · rw [hfixed, List.length_cons, List.length_cons]
      exact Nat.succ_lt_succ (ih hquote)

/-- Behind backslashes, a directory never goes on as its own unquoted bytes and a `/`. -/
theorem not_prefix_replicate (dir : Bytes) (n : ℕ) :
    ¬literalPrefix dir ++ [0x2f] <+: List.replicate (n + 1) 0x5c ++ dir := by
  induction dir using literalPrefix_induction generalizing n with
  | nil => simp [literalPrefix, List.replicate_succ]
  | quoted byte pattern hfixed ih =>
    intro h
    rw [hfixed, List.replicate_succ, List.cons_append, List.cons_append, List.cons_prefix_cons] at h
    obtain ⟨rfl, h⟩ := h
    refine ih (n + 1) ?_
    rwa [List.replicate_succ', List.replicate_succ', List.append_assoc, List.append_assoc]
  | stop byte pattern hfixed hstop hlast =>
    rw [hfixed]
    simp [List.replicate_succ]
  | plain byte pattern hfixed hmeta hquote ih =>
    intro h
    rw [hfixed, List.replicate_succ, List.cons_append, List.cons_append, List.cons_prefix_cons] at h
    exact hquote h.1

/-- No directory is its own unquoted bytes with a `/` behind them and something more. -/
theorem not_literalPrefix_prefix {dir : Bytes} (hdir : ∀ byte ∈ dir, ¬isMeta byte)
    (hquote : 0x5c ∈ dir) : ¬literalPrefix dir ++ [0x2f] <+: dir := by
  induction dir using literalPrefix_induction with
  | nil => cases hquote
  | quoted byte pattern hfixed ih =>
    intro h
    rw [hfixed, List.cons_append, List.cons_prefix_cons] at h
    obtain ⟨rfl, h⟩ := h
    exact not_prefix_replicate pattern 0 h
  | stop byte pattern hfixed hstop hlast =>
    obtain rfl := hstop.resolve_left (hdir byte List.mem_cons_self)
    rw [hfixed]
    simp
  | plain byte pattern hfixed hmeta hplain ih =>
    intro h
    rw [hfixed, List.cons_append, List.cons_prefix_cons] at h
    rcases List.mem_cons.mp hquote with rfl | hquote
    · exact hplain rfl
    · exact ih (fun b hb ↦ hdir b (List.mem_cons_of_mem _ hb)) hquote h.2

/-! ### Soundness -/

/-- No directory of a matching path is pruned. -/
def Sound (gix : Gix) (patterns : List Bytes) : Prop :=
  ∀ directory rest, matchesPath gix patterns (directory ++ 0x2f :: rest) →
    mayMatchDescendant patterns directory

/-- Where a pattern with a backslash in its fixed directory matches, the directories of the path that
are not above its fixed directory are kept open by other patterns. -/
def EscapesKept (gix : Gix) (patterns : List Bytes) : Prop :=
  ∀ pattern ∈ patterns, ∀ escaped ∈ escapedDirectory pattern, ∀ directory rest,
    gix.wildmatch (stripGlob pattern).1 (directory ++ 0x2f :: rest) →
      ¬directory ++ [0x2f] <+: escaped → ∃ other ∈ patterns, Keeps other directory

variable {gix : Gix} {pattern directory rest : Bytes} {patterns : List Bytes}

/-- Two directories of one path are the same, or one is in the other. -/
theorem overlap_of_prefix {left right path : Bytes} (hleft : left ++ [0x2f] <+: path)
    (hright : right ++ [0x2f] <+: path) : Overlap left right := by
  have hleft' : left <+: path := (List.prefix_append left [0x2f]).trans hleft
  have hright' : right <+: path := (List.prefix_append right [0x2f]).trans hright
  rcases Nat.lt_trichotomy left.length right.length with hlt | heq | hgt
  · exact .inr (.inr (List.prefix_of_prefix_length_le hleft hright' (by simpa [Nat.succ_le_iff] using hlt)))
  · exact .inl ((List.prefix_of_prefix_length_le hleft' hright' heq.le).eq_of_length heq)
  · exact .inr (.inl (List.prefix_of_prefix_length_le hright hleft' (by simpa [Nat.succ_le_iff] using hgt)))

/-- A pattern without backslashes in a fixed directory keeps the directories of its paths open. -/
theorem keeps_of_matchesOne (hgix : FollowsWildmatch gix)
    (hmatch : matchesOne gix (directory ++ 0x2f :: rest) pattern)
    (hplain : escapedDirectory pattern = none) : Keeps pattern directory := by
  have hdirectory : directory ++ [0x2f] <+: directory ++ 0x2f :: rest := ⟨rest, by simp⟩
  rw [matchesOne_iff] at hmatch
  intro kept hkept
  rw [keptDirectory] at hkept
  rw [escapedDirectory] at hplain
  split at hmatch
  · next hglob =>
    rw [if_pos hglob] at hkept hplain
    obtain ⟨⟨more, hpattern⟩, hmeta⟩ := fixedDirectory_eq_some hkept
    have hquote : 0x5c ∉ kept := by simpa using Option.filter_eq_none_iff.mp hplain kept hkept
    refine overlap_of_prefix ?_ hdirectory
    have hliteral := hgix.literal _ _ hmatch
    rw [hpattern, literalPrefix_append hmeta, literalPrefix_eq_self hmeta hquote] at hliteral
    exact List.IsPrefix.trans ⟨literalPrefix more, by simp⟩ hliteral
  · next hglob =>
    rw [if_neg hglob] at hkept
    obtain rfl := Option.some.inj hkept
    rcases hmatch with heq | hbelow
    · exact .inr (.inl ⟨rest, by simpa using heq⟩)
    · exact overlap_of_prefix hbelow hdirectory

/-- A directory is escaped when the fixed part of a glob has a backslash. -/
theorem escapedDirectory_eq_some {escaped : Bytes} (h : escapedDirectory pattern = some escaped) :
    isGlob pattern ∧ fixedDirectory (stripGlob pattern).1 = some escaped ∧ 0x5c ∈ escaped := by
  rw [escapedDirectory] at h
  split at h
  · next hglob =>
    obtain ⟨hfixed, hquote⟩ := Option.filter_eq_some_iff.mp h
    exact ⟨hglob, hfixed, by simpa using hquote⟩
  · cases h

/-- A path that an escaped pattern matches starts with the unquoted bytes of the fixed directory, and
so not with the directory itself. -/
theorem literalPrefix_of_escaped (hgix : FollowsWildmatch gix) {escaped path : Bytes}
    (hescaped : escapedDirectory pattern = some escaped)
    (hmatch : gix.wildmatch (stripGlob pattern).1 path) :
    literalPrefix escaped ++ [0x2f] <+: path ∧ ¬escaped <+: path := by
  obtain ⟨-, hfixed, hquote⟩ := escapedDirectory_eq_some hescaped
  obtain ⟨⟨more, hpattern⟩, hmeta⟩ := fixedDirectory_eq_some hfixed
  have hliteral := hgix.literal _ _ hmatch
  rw [hpattern, literalPrefix_append hmeta] at hliteral
  have hstart : literalPrefix escaped ++ [0x2f] <+: path :=
    List.IsPrefix.trans ⟨literalPrefix more, by simp⟩ hliteral
  refine ⟨hstart, fun hpath ↦ not_literalPrefix_prefix hmeta hquote ?_⟩
  refine List.prefix_of_prefix_length_le hstart hpath ?_
  rw [List.length_append, List.length_singleton]
  exact length_literalPrefix_lt hquote

/-- A pattern with a backslash in its fixed directory keeps only those directories of its paths open
that are above it. -/
theorem keeps_iff_of_escaped (hgix : FollowsWildmatch gix) {escaped : Bytes}
    (hescaped : escapedDirectory pattern = some escaped)
    (hmatch : gix.wildmatch (stripGlob pattern).1 (directory ++ 0x2f :: rest)) :
    Keeps pattern directory ↔ directory ++ [0x2f] <+: escaped := by
  obtain ⟨hglob, hfixed, -⟩ := escapedDirectory_eq_some hescaped
  obtain ⟨-, hnot⟩ := literalPrefix_of_escaped hgix hescaped hmatch
  have hkeeps : Keeps pattern directory ↔ Overlap escaped directory := by
    simp [Keeps, keptDirectory, if_pos hglob, hfixed]
  rw [hkeeps]
  refine ⟨fun h ↦ ?_, fun h ↦ .inr (.inl h)⟩
  rcases h with rfl | habove | hbelow
  · exact absurd (List.prefix_append _ _) hnot
  · exact habove
  · exact absurd ((List.prefix_append _ _).trans (hbelow.trans (List.prefix_append _ _))) hnot

private theorem matchesPath_iff {path : Bytes} :
    matchesPath gix patterns path ↔ patterns = [] ∨ ∃ pattern ∈ patterns, matchesOne gix path pattern := by
  simp [matchesPath]

/-- Pruning is sound for a list of patterns if and only if other patterns make up for those with a
backslash in their fixed directory. -/
theorem sound_iff (hgix : FollowsWildmatch gix) : Sound gix patterns ↔ EscapesKept gix patterns := by
  constructor
  · intro hsound pattern hpattern escaped hescaped directory rest hmatch _
    obtain ⟨hglob, -, -⟩ := escapedDirectory_eq_some hescaped
    have hone : matchesOne gix (directory ++ 0x2f :: rest) pattern := by
      rw [matchesOne_iff, if_pos hglob]
      exact hmatch
    have hkept := hsound directory rest (matchesPath_iff.mpr (.inr ⟨pattern, hpattern, hone⟩))
    rcases mayMatchDescendant_iff.mp hkept with rfl | hkept
    · cases hpattern
    · exact hkept
  · intro hescapes directory rest hmatch
    rw [mayMatchDescendant_iff]
    refine (matchesPath_iff.mp hmatch).imp_right ?_
    rintro ⟨pattern, hpattern, hone⟩
    cases hescaped : escapedDirectory pattern with
    | none => exact ⟨pattern, hpattern, keeps_of_matchesOne hgix hone hescaped⟩
    | some escaped =>
      have hglob := (escapedDirectory_eq_some hescaped).1
      rw [matchesOne_iff, if_pos hglob] at hone
      by_cases habove : directory ++ [0x2f] <+: escaped
      · exact ⟨pattern, hpattern, (keeps_iff_of_escaped hgix hescaped hone).mpr habove⟩
      · exact hescapes pattern hpattern escaped hescaped directory rest hone habove

/-- For one pattern: it has no backslash in a fixed directory, or matches nothing. -/
theorem sound_singleton_iff (hgix : FollowsWildmatch gix) :
    Sound gix [pattern] ↔ escapedDirectory pattern = none ∨
      ∀ path, gix.wildmatch (stripGlob pattern).1 path = false := by
  constructor
  · intro hsound
    cases hescaped : escapedDirectory pattern with
    | none => exact .inl rfl
    | some escaped =>
      refine .inr fun path ↦ Bool.eq_false_iff.mpr fun hmatch ↦ ?_
      -- the unquoted fixed directory is a directory of every match
      obtain ⟨⟨rest, rfl⟩, hnot⟩ := literalPrefix_of_escaped hgix hescaped hmatch
      obtain ⟨hglob, hfixed, hquote⟩ := escapedDirectory_eq_some hescaped
      rw [List.append_assoc, List.singleton_append] at hmatch
      have hone : matchesOne gix (literalPrefix escaped ++ 0x2f :: rest) pattern := by
        rw [matchesOne_iff, if_pos hglob]
        exact hmatch
      have hkept := hsound _ rest (matchesPath_iff.mpr (.inr ⟨pattern, List.mem_singleton_self _, hone⟩))
      rw [mayMatchDescendant_iff] at hkept
      obtain ⟨other, hother, hkeeps⟩ := hkept.resolve_left (List.cons_ne_nil _ _)
      rw [List.mem_singleton.mp hother, keeps_iff_of_escaped hgix hescaped hmatch] at hkeeps
      exact not_literalPrefix_prefix (fixedDirectory_eq_some hfixed).2 hquote hkeeps
  · intro h
    rw [sound_iff hgix]
    intro other hother escaped hescaped directory rest hmatch
    obtain rfl := List.mem_singleton.mp hother
    rcases h with hnone | hfalse
    · rw [hnone] at hescaped
      cases hescaped
    · rw [hfalse] at hmatch
      cases hmatch

end Pathspec

/-! ### Walks -/

private theorem relativeToScope_joinPath (base rest : Bytes) :
    relativeToScope (joinPath base rest) base = rest := by
  unfold relativeToScope joinPath
  split
  · rfl
  · rw [List.drop_append, List.drop_eq_nil_of_le (by omega)]
    simp

namespace TreeWalk

variable {walk : TreeWalk} {entries : List OwnedTreeEntry} {entry : OwnedTreeEntry}
  {dir path base : Bytes} {depth : ℕ} {gix : Gix} {patterns : List Bytes}

/-- The walk that descends only where the patterns may match. -/
def pruned (walk : TreeWalk) (patterns : List Bytes) (base : Bytes) : TreeWalk where
  read := walk.read
  descends path entry depth := walk.descends path entry depth &&
    Pathspec.mayMatchDescendant patterns (relativeToScope path base)

/-- All trees that are read have entries with names. -/
def Named (walk : TreeWalk) : Prop :=
  ∀ oid entries, walk.read oid entries → ∀ entry ∈ entries, entry.name ≠ []

private theorem Reaches.exists_rest (hnamed : walk.Named) (hentries : ∀ entry ∈ entries, entry.name ≠ [])
    (h : walk.Reaches entries dir depth path entry) : ∃ rest ≠ [], path = joinPath dir rest := by
  induction h with
  | entry hmem => exact ⟨_, hentries _ hmem, rfl⟩
  | @inside entries children dir path depth tree entry hmem hdescends hread hinside ih =>
    obtain ⟨rest, -, rfl⟩ := ih (hnamed _ _ hread)
    exact ⟨tree.name ++ 0x2f :: rest, by simp, joinPath_below (hentries _ hmem) rest⟩

private theorem Reaches.of_pruned (h : (walk.pruned patterns base).Reaches entries dir depth path entry) :
    walk.Reaches entries dir depth path entry := by
  induction h with
  | entry hmem => exact .entry hmem
  | inside hmem hdescends hread hinside ih =>
    exact .inside hmem (Bool.and_eq_true_iff.mp hdescends).1 hread ih

/-- Where pruning is sound, the pruned walk reaches whatever the patterns match. -/
theorem Reaches.pruned (hsound : Pathspec.Sound gix patterns) (hnamed : walk.Named)
    (hentries : ∀ entry ∈ entries, entry.name ≠ [])
    (hdir : dir = base ∨ ∃ rel ≠ [], dir = joinPath base rel)
    (h : walk.Reaches entries dir depth path entry)
    (hmatch : Pathspec.matchesPath gix patterns (relativeToScope path base)) :
    (walk.pruned patterns base).Reaches entries dir depth path entry := by
  induction h with
  | entry hmem => exact .entry hmem
  | @inside entries children dir path depth tree entry hmem hdescends hread hinside ih =>
    have hname := hentries _ hmem
    obtain ⟨rel, hrel, hbelow⟩ : ∃ rel ≠ [], joinPath dir tree.name = joinPath base rel := by
      rcases hdir with rfl | ⟨rel, hrel, rfl⟩
      · exact ⟨_, hname, rfl⟩
      · exact ⟨rel ++ 0x2f :: tree.name, by simp,
          by rw [joinPath_of_ne (joinPath_ne_nil hrel), joinPath_append]⟩
    obtain ⟨rest, -, rfl⟩ := hinside.exists_rest hnamed (hnamed _ _ hread)
    have hopen : Pathspec.mayMatchDescendant patterns (relativeToScope (joinPath dir tree.name) base) := by
      rw [hbelow, relativeToScope_joinPath]
      refine hsound rel rest ?_
      rwa [hbelow, joinPath_of_ne (joinPath_ne_nil hrel), joinPath_append,
        relativeToScope_joinPath] at hmatch
    exact .inside hmem (Bool.and_eq_true_iff.mpr ⟨hdescends, hopen⟩) hread
      (ih (hnamed _ _ hread) (.inr ⟨rel, hrel, hbelow⟩) hmatch)

end TreeWalk

namespace ListTree

/-- The walk of a listing is the pruned walk of the listing without pathspecs. -/
theorem treeWalk_shouldDescend (db : ObjectDb) (gix : Gix) (query : TreeQuery) :
    db.treeWalk gix (shouldDescend query) =
      (db.treeWalk gix (shouldDescend { query with pathspecs := [] })).pruned query.pathspecs
        query.path := by
  have hdescends : shouldDescend query = fun path entry depth ↦
      shouldDescend { query with pathspecs := [] } path entry depth &&
        Pathspec.mayMatchDescendant query.pathspecs (relativeToScope path query.path) := by
    funext path entry depth
    simp [shouldDescend, maxDepth, Pathspec.mayMatchDescendant, Bool.and_assoc]
  rw [TreeWalk.pruned, ObjectDb.treeWalk, hdescends]
  rfl

private theorem named_treeWalk (db : ObjectDb) (gix : Gix) (descends : Bytes → OwnedTreeEntry → ℕ → Bool) :
    (db.treeWalk gix descends).Named := by
  intro oid entries hread entry hentry
  obtain ⟨payload, -, hdecode⟩ := ObjectDb.eval_readTreeEntries_eq_ok.mp hread
  exact TreeWalk.name_ne_nil (mapM_ownTreeEntry_valid hdecode entry hentry)

/-- Pruning is sound if and only if other patterns make up for those with a backslash in their fixed
directory; for a single pattern, if it has none or matches nothing. Then a listing reaches every entry
that it selects, as the walk without pathspecs does. -/
theorem pruning_sound_iff {gix : Gix} (hgix : Pathspec.FollowsWildmatch gix) (patterns : List Bytes) :
    (Pathspec.Sound gix patterns ↔ Pathspec.EscapesKept gix patterns) ∧
      (∀ pattern, patterns = [pattern] → (Pathspec.Sound gix patterns ↔
        Pathspec.escapedDirectory pattern = none ∨
          ∀ path, gix.wildmatch (Pathspec.stripGlob pattern).1 path = false)) ∧
      (Pathspec.EscapesKept gix patterns → ∀ (db : ObjectDb) (query : TreeQuery) oid entries path entry,
        query.pathspecs = patterns →
        db.eval (readTreeEntries gix db.toStoreInfo oid) = .ok entries →
        selects gix query path entry →
        ((db.treeWalk gix (shouldDescend query)).Reaches entries query.path 1 path entry ↔
          (db.treeWalk gix (shouldDescend { query with pathspecs := [] })).Reaches entries query.path 1
            path entry)) := by
  refine ⟨Pathspec.sound_iff hgix, ?_, ?_⟩
  · rintro pattern rfl
    exact Pathspec.sound_singleton_iff hgix
  · rintro hescapes db query oid entries path entry rfl hread hselects
    have hnamed := named_treeWalk db gix (shouldDescend { query with pathspecs := [] })
    rw [treeWalk_shouldDescend]
    refine ⟨TreeWalk.Reaches.of_pruned, fun h ↦ ?_⟩
    refine h.pruned ((Pathspec.sound_iff hgix).mpr hescapes) hnamed (hnamed oid entries hread) (.inl rfl) ?_
    simp only [selects, decide_eq_true_eq] at hselects
    exact hselects.2

end ListTree

/-! ### A matcher of plain bytes, quotes, `?` and single stars -/

/-- Git's wildmatch on patterns without `[` and `**`. -/
def sampleWildmatch : Bytes → Bytes → Bool
  | [], path => path = []
  | byte :: pattern, path =>
    if byte = 0x2a then
      (List.range (path.length + 1)).any fun n ↦
        0x2f ∉ path.take n && sampleWildmatch pattern (path.drop n)
    else match path with
      | [] => false
      | next :: path =>
        if byte = 0x3f then next ≠ 0x2f && sampleWildmatch pattern path
        else if byte = 0x5c then
          match pattern with
          | [] => false
          | quoted :: pattern => quoted = next && sampleWildmatch pattern path
        else byte ≠ 0x5b && byte = next && sampleWildmatch pattern path

/-- The sample tree reader with this matcher. -/
def sampleGlobGix : Gix := { sampleGix with wildmatch := sampleWildmatch }

/-- The sample matcher follows the rules of wildmatch. -/
theorem sampleGlobGix_follows : Pathspec.FollowsWildmatch sampleGlobGix where
  literal pattern path h := by
    change sampleWildmatch pattern path = true at h
    induction pattern using Pathspec.literalPrefix.induct generalizing path with
    | case1 => exact List.nil_prefix
    | case2 quoted pattern ih =>
      rw [Pathspec.literalPrefix]
      cases path with
      | nil => cases h
      | cons next path =>
        obtain ⟨hnext, hrest⟩ := Bool.and_eq_true_iff.mp h
        exact List.cons_prefix_cons.mpr ⟨by simpa using hnext, ih path hrest⟩
    | case3 byte pattern hpair hstop =>
      rw [Pathspec.literalPrefix, if_pos hstop]
      · exact List.nil_prefix
      · exact hpair
    | case4 byte pattern hpair hplain ih =>
      obtain ⟨hmeta, hquote⟩ := not_or.mp hplain
      have hstar : byte ≠ 0x2a := by rintro rfl; exact hmeta (by decide)
      have hone : byte ≠ 0x3f := by rintro rfl; exact hmeta (by decide)
      rw [Pathspec.literalPrefix_of_plain hmeta hquote]
      rw [sampleWildmatch.eq_def] at h
      cases path with
      | nil => simp [hstar] at h
      | cons next path =>
        simp only [hstar, hone, hquote, if_false, Bool.and_eq_true_iff] at h
        exact List.cons_prefix_cons.mpr ⟨by simpa using h.1.2, ih path h.2⟩

/-- Another pattern that keeps everything open makes up for a quoted directory. -/
theorem ListTree.pruning_sound_iff_sample :
    Pathspec.Sound sampleGlobGix [0x5c :: Bytes.ascii "a/b*", Bytes.ascii "*.c"] := by
  refine (pruning_sound_iff sampleGlobGix_follows _).1.mpr ?_
  intro pattern _ escaped _ directory rest _ _
  refine ⟨Bytes.ascii "*.c", by simp, fun kept hkept ↦ ?_⟩
  have hnone : Pathspec.keptDirectory (Bytes.ascii "*.c") = none := by decide
  rw [hnone] at hkept
  cases hkept

/-- A quoted directory is pruned, although a path in it matches. -/
theorem ListTree.pruning_unsound :
    Pathspec.FollowsWildmatch sampleGlobGix ∧
      Pathspec.matchesPath sampleGlobGix [0x5c :: Bytes.ascii "a/b*"] (Bytes.ascii "a/b1") ∧
      Bytes.ascii "a/b1" = Bytes.ascii "a" ++ 0x2f :: Bytes.ascii "b1" ∧
      ¬Pathspec.mayMatchDescendant [0x5c :: Bytes.ascii "a/b*"] (Bytes.ascii "a") :=
  ⟨sampleGlobGix_follows, by decide, by decide +kernel, by decide +kernel⟩

end Gitility
