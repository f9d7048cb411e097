import Gitility.Base.Lines
import Gitility.History.CommitParsers

/-!
# Shallow commits in blame

`without_parent_headers` of `crates/gitility-core/src/blame.rs` takes the parents out of the bytes of a
shallow commit before `gix-blame` reads them; the history queries decode all headers and drop the parents
afterwards.
-/

namespace Gitility

/-- The loop of `without_parent_headers`. -/
def keptLines : Bool → List Bytes → List Bytes
  | _, [] => []
  | inHeaders, line :: rest =>
    let inHeaders := inHeaders && line ≠ [0x0a]
    if inHeaders && (Bytes.ascii "parent ").isPrefixOf line then keptLines inHeaders rest
    else line :: keptLines inHeaders rest

/-- `blame.rs` `without_parent_headers`; `split_inclusive` gives the lines. -/
def withoutParentHeaders (payload : Bytes) : Bytes := (keptLines true (lines 0x0a payload)).flatten

/-- A header line that is not a parent. -/
def notParent (line : Bytes) : Bool := !(Bytes.ascii "parent ").isPrefixOf line

/-! ### The header block as lines -/

/-- The parts of a split have no separator. -/
theorem not_mem_of_mem_splitOn {sep : UInt8} {bytes : Bytes} : ∀ part ∈ bytes.splitOn sep, sep ∉ part := by
  induction bytes using lines_induction sep with
  | hopen last h =>
    rw [List.splitOn_eq_singleton h]
    simpa using h
  | hcut front rest h ih =>
    rw [List.splitOn_append_cons_self_of_not_mem h]
    intro part hpart
    rcases List.mem_cons.mp hpart with rfl | hpart
    · exact h
    · exact ih part hpart

/-- Lines with their ends. -/
def ended (block : List Bytes) : Bytes := (block.map (· ++ [0x0a])).flatten

/-- Joined lines lack only the end of the last one. -/
theorem intercalate_append_end {block : List Bytes} (h : block ≠ []) :
    [0x0a].intercalate block ++ [0x0a] = ended block := by
  induction block with
  | nil => exact absurd rfl h
  | cons line rest ih =>
    cases rest with
    | nil => simp [ended]
    | cons next rest =>
      rw [List.intercalate_cons_cons, List.append_assoc, ih (List.cons_ne_nil next rest)]
      simp [ended]

/-- The lines of ended lines and what follows. -/
theorem lines_ended {block : List Bytes} (h : ∀ line ∈ block, (0x0a : UInt8) ∉ line) (rest : Bytes) :
    lines 0x0a (ended block ++ rest) = block.map (· ++ [0x0a]) ++ lines 0x0a rest := by
  induction block with
  | nil => rfl
  | cons line block ih =>
    have hcut := @lines_cut _ _ _ _ (ended block ++ rest) (h line List.mem_cons_self)
    rw [ih fun l hl ↦ h l (List.mem_cons_of_mem _ hl)] at hcut
    simpa [ended] using hcut

/-- Behind the headers nothing is left out. -/
theorem keptLines_false (ls : List Bytes) : keptLines false ls = ls := by
  induction ls with
  | nil => rfl
  | cons line ls ih => simp [keptLines, ih]

/-- An end does not make a line a parent. -/
theorem isPrefixOf_append_end (line : Bytes) :
    (Bytes.ascii "parent ").isPrefixOf (line ++ [0x0a]) = (Bytes.ascii "parent ").isPrefixOf line := by
  have hend : (0x0a : UInt8) ∉ Bytes.ascii "parent " := by decide
  generalize Bytes.ascii "parent " = pattern at hend
  induction pattern generalizing line with
  | nil => rfl
  | cons a pattern ih =>
    obtain ⟨ha, hpattern⟩ : (0x0a : UInt8) ≠ a ∧ 0x0a ∉ pattern := by simpa using hend
    cases line with
    | nil => simp [List.isPrefixOf, ha.symm]
    | cons b line => simp [List.isPrefixOf, ih line hpattern]

/-- The loop keeps the header lines that are not parents, and all that follows the empty line. -/
theorem keptLines_block {block : List Bytes} (h : ∀ line ∈ block, line ≠ []) (rest : List Bytes) :
    keptLines true (block.map (· ++ [0x0a]) ++ [0x0a] :: rest) =
      (block.filter notParent).map (· ++ [0x0a]) ++ [0x0a] :: rest := by
  induction block with
  | nil => simp [keptLines, keptLines_false]
  | cons line block ih =>
    have hline : line ++ [0x0a] ≠ [0x0a] := fun heq ↦ h line List.mem_cons_self (by simpa using heq)
    have hrest := ih fun l hl ↦ h l (List.mem_cons_of_mem _ hl)
    have hpattern : (Bytes.ascii "parent ").isPrefixOf (line ++ [0x0a]) = !notParent line := by
      rw [isPrefixOf_append_end, notParent, Bool.not_not]
    rw [List.map_cons, List.cons_append, keptLines]
    simp only [hline, ne_eq, not_false_eq_true, decide_true, Bool.and_true, Bool.true_and, hpattern, hrest]
    cases hn : notParent line with
    | true => simp [hn]
    | false => simp [hn]

/-! ### Where the headers end -/

/-- A line is passed over. -/
theorem messageSeparator_line {line rest : Bytes} (hline : (0x0a : UInt8) ∉ line) (hne : line ≠ [])
    (hrest : rest.head? ≠ some 0x0a) :
    messageSeparator (line ++ 0x0a :: rest) = (messageSeparator rest).map (· + (line.length + 1)) := by
  induction line with
  | nil => exact absurd rfl hne
  | cons a line ih =>
    obtain ⟨ha, hline⟩ : (0x0a : UInt8) ≠ a ∧ 0x0a ∉ line := by simpa using hline
    cases line with
    | nil =>
      cases rest with
      | nil => simp [messageSeparator, ha.symm]
      | cons b rest =>
        have hb : b ≠ 0x0a := by simpa using hrest
        simp [messageSeparator, ha.symm, hb, Function.comp_def]
    | cons b line =>
      have ih := ih hline (List.cons_ne_nil b line)
      rw [List.cons_append, List.cons_append, messageSeparator, if_neg fun h ↦ ha h.1.symm]
      rw [List.cons_append] at ih
      rw [ih, Option.map_map]
      rfl

/-- The last line of the block meets the empty line. -/
theorem messageSeparator_last {line message : Bytes} (hline : (0x0a : UInt8) ∉ line) :
    messageSeparator (line ++ 0x0a :: 0x0a :: message) = some line.length := by
  induction line with
  | nil => simp [messageSeparator]
  | cons a line ih =>
    obtain ⟨ha, hline⟩ : (0x0a : UInt8) ≠ a ∧ 0x0a ∉ line := by simpa using hline
    cases line with
    | nil => simp [messageSeparator, ha.symm]
    | cons b line =>
      have ih := ih hline
      rw [List.cons_append, List.cons_append, messageSeparator, if_neg fun h ↦ ha h.1.symm]
      rw [List.cons_append] at ih
      rw [ih]
      rfl

/-- `split_commit` finds the end of a block of lines none of which is empty. -/
theorem splitCommit_block {block : List Bytes} (hne : block ≠ []) (hcut : ∀ line ∈ block, (0x0a : UInt8) ∉ line)
    (hlines : ∀ line ∈ block, line ≠ []) (message : Bytes) :
    splitCommit (ended block ++ 0x0a :: message) = .ok ([0x0a].intercalate block, message) := by
  have hsep : messageSeparator (ended block ++ 0x0a :: message) =
      some ([0x0a].intercalate block).length := by
    induction block with
    | nil => exact absurd rfl hne
    | cons line rest ih =>
      cases rest with
      | nil => simpa [ended] using messageSeparator_last (hcut line List.mem_cons_self)
      | cons next rest =>
        have ih := ih (List.cons_ne_nil next rest) (fun l hl ↦ hcut l (List.mem_cons_of_mem _ hl))
          fun l hl ↦ hlines l (List.mem_cons_of_mem _ hl)
        have hnext : (ended (next :: rest) ++ 0x0a :: message).head? ≠ some 0x0a := by
          have hn := hlines next (by simp)
          have hc := hcut next (by simp)
          cases next with
          | nil => exact absurd rfl hn
          | cons b next =>
            have hb : (0x0a : UInt8) ≠ b := fun heq ↦ hc (heq ▸ List.mem_cons_self)
            simpa [ended] using hb.symm
        have hline := messageSeparator_line (hcut line List.mem_cons_self) (hlines line List.mem_cons_self)
          hnext
        have hblock : ended (line :: next :: rest) ++ 0x0a :: message =
            line ++ 0x0a :: (ended (next :: rest) ++ 0x0a :: message) := by simp [ended]
        rw [hblock, hline, ih, List.intercalate_cons_cons]
        simp only [Option.map_some, List.length_append, List.length_singleton]
        congr 1
        omega
  have hpayload : ended block ++ 0x0a :: message = [0x0a].intercalate block ++ 0x0a :: 0x0a :: message := by
    rw [← intercalate_append_end hne]
    simp
  rw [splitCommit, hsep, hpayload]
  change Except.ok _ = _
  simp [List.take_left', List.drop_append]

/-- Where `messageSeparator` points there are two line ends. -/
theorem messageSeparator_eq_some {payload : Bytes} {n : ℕ} (h : messageSeparator payload = some n) :
    payload = payload.take n ++ 0x0a :: 0x0a :: payload.drop (n + 2) := by
  induction payload using messageSeparator.induct generalizing n with
  | case1 a b rest ha =>
    rw [messageSeparator, if_pos ha] at h
    cases h
    simp [ha.1, ha.2]
  | case2 a b rest ha ih =>
    rw [messageSeparator, if_neg ha, Option.map_eq_some_iff] at h
    obtain ⟨n, hn, rfl⟩ := h
    simpa using ih hn
  | case3 payload hshort =>
    rw [messageSeparator.eq_2 payload hshort] at h
    cases h

/-- What `split_commit` finds is a block of lines, the empty line behind it, and the message. -/
theorem splitCommit_eq_ok {payload headers message : Bytes} (h : splitCommit payload = .ok (headers, message)) :
    payload = ended (headers.splitOn 0x0a) ++ 0x0a :: message := by
  obtain ⟨n, hn, h⟩ := Except.bind_eq_ok.mp h
  cases h
  have hends : ∀ front : Bytes, ended (front.splitOn 0x0a) = front ++ [0x0a] := fun front ↦ by
    rw [← intercalate_append_end (List.splitOn_ne_nil 0x0a front), List.intercalate_splitOn]
  rw [hends, List.append_assoc]
  exact messageSeparator_eq_some (orMalformed_eq_ok.mp hn)

/-! ### The decoded headers -/

/-- A header with a name and a value starts with the name and a space. -/
theorem splitHeader_eq_ok {line name value : Bytes} (h : splitHeader line = .ok (name, value)) :
    (0x20 : UInt8) ∉ name ∧ line = name ++ 0x20 :: value := by
  obtain ⟨n, hn, h⟩ := Except.bind_eq_ok.mp h
  obtain ⟨_, -, h⟩ := Except.bind_eq_ok.mp h
  cases h
  obtain ⟨b, hline, hb, hfirst⟩ := Bytes.findIdx?_eq_some_split (orMalformed_eq_ok.mp hn)
  obtain rfl : b = 0x20 := by simpa using hb
  exact ⟨fun hmem ↦ by simpa using hfirst _ hmem, hline⟩

/-- A line is a parent for the decoder if and only if `without_parent_headers` leaves it out. -/
theorem name_eq_parent_iff {line name value : Bytes} (h : splitHeader line = .ok (name, value)) :
    name = Bytes.ascii "parent" ↔ notParent line = false := by
  obtain ⟨hname, rfl⟩ := splitHeader_eq_ok h
  have hparent : Bytes.ascii "parent " = Bytes.ascii "parent" ++ [0x20] := by decide
  rw [notParent, Bool.not_eq_false', List.isPrefixOf_iff_prefix, hparent]
  constructor
  · rintro rfl
    exact ⟨value, by simp⟩
  · rintro ⟨rest, hrest⟩
    have hcut : Bytes.ascii "parent" ++ 0x20 :: rest = name ++ 0x20 :: value := by simpa using hrest
    exact (cut_inj (by decide) hname hcut).1.symm

/-- A line that is left out adds a parent and nothing else. -/
theorem commitHeader_parent {id : Oid} {found found' : CommitHeaders} {line : Bytes}
    (h : commitHeader id found line = .ok found') (hline : notParent line = false) :
    { found' with parents := [] } = { found with parents := [] } := by
  obtain ⟨⟨name, value⟩, hsplit, h⟩ := Except.bind_eq_ok.mp h
  obtain rfl := (name_eq_parent_iff (atOid_eq_ok.mp hsplit)).mpr hline
  simp only [show Bytes.ascii "parent" ≠ Bytes.ascii "tree" by decide, if_false, if_true] at h
  obtain ⟨parent, -, h⟩ := Except.bind_eq_ok.mp h
  cases h
  rfl

/-- A line that is kept is decoded the same way whatever the parents before it. -/
theorem commitHeader_kept {id : Oid} {found found' : CommitHeaders} {line : Bytes}
    (h : commitHeader id found line = .ok found') (hline : notParent line = true) :
    commitHeader id { found with parents := [] } line = .ok { found' with parents := [] } := by
  obtain ⟨⟨name, value⟩, hsplit, h⟩ := Except.bind_eq_ok.mp h
  have hname : name ≠ Bytes.ascii "parent" := fun heq ↦ by
    rw [(name_eq_parent_iff (atOid_eq_ok.mp hsplit)).mp heq] at hline
    cases hline
  refine Except.bind_eq_ok.mpr ⟨(name, value), hsplit, ?_⟩
  simp only [if_neg hname] at h ⊢
  by_cases htree : name = Bytes.ascii "tree"
  · rw [if_pos htree] at h ⊢
    obtain ⟨tree, htree, h⟩ := Except.bind_eq_ok.mp h
    cases h
    exact Except.bind_eq_ok.mpr ⟨tree, htree, rfl⟩
  rw [if_neg htree] at h ⊢
  by_cases hauthor : name = Bytes.ascii "author"
  · rw [if_pos hauthor] at h ⊢
    obtain ⟨identity, hidentity, h⟩ := Except.bind_eq_ok.mp h
    cases h
    exact Except.bind_eq_ok.mpr ⟨identity, hidentity, rfl⟩
  rw [if_neg hauthor] at h ⊢
  by_cases hcommitter : name = Bytes.ascii "committer"
  · rw [if_pos hcommitter] at h ⊢
    obtain ⟨identity, hidentity, h⟩ := Except.bind_eq_ok.mp h
    cases h
    exact Except.bind_eq_ok.mpr ⟨identity, hidentity, rfl⟩
  rw [if_neg hcommitter] at h ⊢
  by_cases hencoding : name = Bytes.ascii "encoding"
  · rw [if_pos hencoding] at h ⊢
    cases h
    rfl
  rw [if_neg hencoding] at h ⊢
  cases hsignature : isSignatureHeader name with
  | true =>
    simp only [hsignature, if_true] at h ⊢
    cases h
    rfl
  | false =>
    simp only [hsignature, Bool.false_eq_true, if_false] at h ⊢
    cases h
    rfl

/-- Decoding the kept lines gives the same headers without parents. -/
theorem foldlM_kept {id : Oid} {ls : List Bytes} {found found' : CommitHeaders}
    (h : ls.foldlM (commitHeader id) found = .ok found') :
    (ls.filter notParent).foldlM (commitHeader id) { found with parents := [] } =
      .ok { found' with parents := [] } := by
  induction ls generalizing found with
  | nil =>
    cases h
    rfl
  | cons line ls ih =>
    rw [List.foldlM_cons] at h
    obtain ⟨next, hline, hrest⟩ := Except.bind_eq_ok.mp h
    cases hp : notParent line with
    | true =>
      rw [List.filter_cons_of_pos hp, List.foldlM_cons]
      exact Except.bind_eq_ok.mpr ⟨_, commitHeader_kept hline hp, ih hrest⟩
    | false =>
      rw [List.filter_cons_of_neg (by simp [hp]), ← commitHeader_parent hline hp]
      exact ih hrest

/-- No line that is decoded is empty. -/
theorem line_ne_nil {id : Oid} {ls : List Bytes} {found found' : CommitHeaders}
    (h : ls.foldlM (commitHeader id) found = .ok found') : [] ∉ ls := by
  induction ls generalizing found with
  | nil => exact List.not_mem_nil
  | cons line ls ih =>
    rw [List.foldlM_cons] at h
    obtain ⟨next, hline, hrest⟩ := Except.bind_eq_ok.mp h
    rintro (_ | ⟨_, hmem⟩)
    · obtain ⟨_, hsplit, -⟩ := Except.bind_eq_ok.mp hline
      cases atOid_eq_ok.mp hsplit
    · exact ih hrest hmem

/-! ### The payload -/

/-- Taking the parents out of the bytes and decoding what is left gives what decoding a shallow commit
gives. -/
theorem decode_withoutParentHeaders {id : Oid} {payload : Bytes} {shallow : Bool} {commit : LogCommit}
    (h : decodeLogCommit id payload shallow = .ok commit) :
    decodeLogCommit id payload true = .ok { commit with parents := [] } ∧
      decodeLogCommit id (withoutParentHeaders payload) false = .ok { commit with parents := [] } := by
  obtain ⟨⟨headers, message⟩, hsplit, h⟩ := Except.bind_eq_ok.mp h
  obtain ⟨found, hfound, h⟩ := Except.bind_eq_ok.mp h
  obtain ⟨treeId, htree, h⟩ := Except.bind_eq_ok.mp h
  obtain ⟨author, hauthor, h⟩ := Except.bind_eq_ok.mp h
  obtain ⟨committer, hcommitter, h⟩ := Except.bind_eq_ok.mp h
  have hcommit := Except.ok.inj h
  have hlines : ∀ line ∈ headers.splitOn 0x0a, line ≠ [] := by
    rintro line hline rfl
    exact line_ne_nil hfound (List.mem_filter.mpr ⟨hline, by simp⟩)
  have hdecoded := foldlM_kept hfound
  have hcomm : (headerLines headers).filter notParent =
      ((headers.splitOn 0x0a).filter notParent).filter fun line ↦ line.head? ≠ some 0x20 := by
    rw [headerLines, List.filter_filter, List.filter_filter]
    exact List.filter_congr fun _ _ ↦ Bool.and_comm _ _
  rw [hcomm] at hdecoded
  -- The tree is among the lines that are kept.
  have hkept : (headers.splitOn 0x0a).filter notParent ≠ [] := by
    intro hnil
    rw [hnil] at hdecoded
    have hnone : none = found.treeId := congrArg CommitHeaders.treeId (Except.ok.inj hdecoded)
    rw [orMalformedFor_eq_ok, ← hnone] at htree
    cases htree
  have hkeptCut : ∀ line ∈ (headers.splitOn 0x0a).filter notParent, (0x0a : UInt8) ∉ line :=
    fun line hline ↦ not_mem_of_mem_splitOn line (List.mem_filter.mp hline).1
  have hpayload : withoutParentHeaders payload =
      ended ((headers.splitOn 0x0a).filter notParent) ++ 0x0a :: message := by
    have hempty := @lines_cut _ _ _ _ message (List.not_mem_nil (a := (0x0a : UInt8)))
    rw [withoutParentHeaders, splitCommit_eq_ok (atOid_eq_ok.mp hsplit), lines_ended not_mem_of_mem_splitOn,
      ← List.nil_append (0x0a :: message), hempty, List.nil_append, keptLines_block hlines]
    simp [ended]
  have hblock := splitCommit_block hkept hkeptCut (fun line hline ↦ hlines line (List.mem_filter.mp hline).1)
    message
  rw [← List.splitOn_intercalate 0x0a hkeptCut hkept] at hdecoded
  constructor
  · rw [← hcommit]
    exact Except.bind_eq_ok.mpr ⟨_, hsplit, Except.bind_eq_ok.mpr ⟨found, hfound,
      Except.bind_eq_ok.mpr ⟨treeId, htree, Except.bind_eq_ok.mpr ⟨author, hauthor,
        Except.bind_eq_ok.mpr ⟨committer, hcommitter, rfl⟩⟩⟩⟩⟩
  · rw [← hcommit, decodeLogCommit, hpayload, hblock]
    exact Except.bind_eq_ok.mpr ⟨_, rfl, Except.bind_eq_ok.mpr ⟨_, hdecoded,
      Except.bind_eq_ok.mpr ⟨treeId, htree, Except.bind_eq_ok.mpr ⟨author, hauthor,
        Except.bind_eq_ok.mpr ⟨committer, hcommitter, rfl⟩⟩⟩⟩⟩

/-- A merge commit whose signature has a continuation line that looks like a parent. -/
def mergePayload : Bytes :=
  Bytes.ascii "tree 4b825dc642cb6eb9a060e54bf8d69288fbee4904\n" ++
  Bytes.ascii "parent 1111111111111111111111111111111111111111\n" ++
  Bytes.ascii "parent 2222222222222222222222222222222222222222\n" ++
  Bytes.ascii "author A <a> 1 +0000\ncommitter C <c> 2 +0000\n" ++
  Bytes.ascii "gpgsig x\n parent y\n\nparent z\n"

/-- The continuation line and the message stay. -/
theorem decode_withoutParentHeaders_merge :
    ∃ commit, decodeLogCommit (sampleId 1) mergePayload false = .ok commit ∧
      decodeLogCommit (sampleId 1) mergePayload true = .ok { commit with parents := [] } ∧
      decodeLogCommit (sampleId 1) (withoutParentHeaders mergePayload) false =
        .ok { commit with parents := [] } := by
  have hdecode : (decodeLogCommit (sampleId 1) mergePayload false).toOption.isSome := by
    decide +kernel
  cases h : decodeLogCommit (sampleId 1) mergePayload false with
  | error e =>
    rw [h] at hdecode
    cases hdecode
  | ok commit => exact ⟨commit, rfl, decode_withoutParentHeaders h⟩

end Gitility
