import Mathlib.Data.List.TakeWhile
import Gitility.Submodules.Declarations

/-!
# A printed config is read back

Each line of a printed document is followed through the loops of the parser. A loop is described by what it
does with the text in front of it, for every bound that suffices; `Reads` is the outer loop, which reads a rest
of the document to the end.
-/

namespace Gitility.GitConfig

/-! ### Characters -/

variable {c : UInt8} {rest tail : Bytes} {p : Parser}

/-- Text that does not begin in a line end or in the byte that reads as one. -/
def Plain (rest : Bytes) : Prop := ∃ byte tail, rest = byte :: tail ∧ byte ≠ 0x0a ∧ byte ≠ 0xff

private theorem plain_cons {byte : UInt8} (h : byte ≠ 0x0a) (hff : byte ≠ 0xff) (tail : Bytes) :
    Plain (byte :: tail) :=
  ⟨byte, tail, rfl, h, hff⟩

private theorem rawChar_cons (hff : c ≠ 0xff) (tail : Bytes) : rawChar (c :: tail) = (some c, tail) := by
  rw [rawChar, if_neg hff]

private theorem foldCr_cons (hff : c ≠ 0xff) (hcr : c = 0x0d → Plain tail) :
    foldCr (c :: tail) = (some c, tail) := by
  unfold foldCr
  rw [rawChar_cons hff]
  split
  · next rest heq =>
    obtain ⟨hc, rfl⟩ := Prod.mk.inj heq
    obtain rfl : c = 0x0d := Option.some.inj hc
    obtain ⟨byte, tail', rfl, hlf, hbyte⟩ := hcr rfl
    rw [rawChar_cons hbyte]
    split
    · next heq' => exact absurd (Option.some.inj (Prod.mk.inj heq').1) hlf
    · rfl
    · next heq' => cases (Prod.mk.inj heq').1
  · next heq => exact heq.symm

namespace Parser

/-- A character that is no line end is read as it is, unless a CR folds. -/
theorem nextChar_cons (h : p.rest = c :: tail) (hlf : c ≠ 0x0a) (hff : c ≠ 0xff)
    (hcr : c = 0x0d → Plain tail) : p.nextChar = (c, { p with rest := tail }) := by
  rw [nextChar, h, foldCr_cons hff hcr]
  dsimp only
  rw [if_neg hlf]

private theorem nextChar_byte (h : p.rest = c :: tail) (hc : c ∉ [0x0a, 0x0d, 0xff]) :
    p.nextChar = (c, { p with rest := tail }) := by
  simp only [List.mem_cons, List.not_mem_nil, or_false, not_or] at hc
  exact nextChar_cons h hc.1 hc.2.2 fun hcr ↦ absurd hcr hc.2.1

end Parser

end Gitility.GitConfig

namespace Gitility.Submodules

open GitConfig Parser

variable {rest tail : Bytes} {p : Parser} {fuel : ℕ}

private theorem nextChar_lineEnd (lineEnd : LineEnd) (h : p.rest = lineEnd.print ++ tail) :
    p.nextChar = (0x0a, { p with rest := tail }.lineDown) := by
  rw [nextChar, h]
  cases lineEnd <;> rfl

/-! ### Quoted names -/

/-- What a printed name begins with is neither a line end nor `0xff`. -/
theorem plain_escapeName {name : Bytes} (hname : ∀ byte ∈ name, byte ≠ 0x0a ∧ byte ≠ 0 ∧ byte ≠ 0xff)
    (tail : Bytes) : Plain (name.flatMap escapeNameByte ++ 0x22 :: tail) := by
  cases name with
  | nil => exact plain_cons (by decide) (by decide) _
  | cons byte name =>
    obtain ⟨hlf, -, hff⟩ := hname byte List.mem_cons_self
    rw [List.flatMap_cons, escapeNameByte]
    split
    · exact plain_cons (by decide) (by decide) _
    · exact plain_cons hlf hff _

private theorem subsectionName_print {name : Bytes}
    (hname : ∀ byte ∈ name, byte ≠ 0x0a ∧ byte ≠ 0 ∧ byte ≠ 0xff)
    (h : p.rest = name.flatMap escapeNameByte ++ 0x22 :: tail) (hfuel : p.rest.length + 2 ≤ fuel) :
    subsectionName fuel p = .ok { p with rest := tail, name := p.name ++ name } := by
  induction name generalizing p fuel with
  | nil =>
    obtain ⟨fuel, rfl⟩ : ∃ n, fuel = n + 1 := ⟨fuel - 1, by omega⟩
    rw [subsectionName, nextChar_byte h (by decide), List.append_nil]
    rfl
  | cons byte name ih =>
    obtain ⟨fuel, rfl⟩ : ∃ n, fuel = n + 1 := ⟨fuel - 1, by omega⟩
    obtain ⟨hlf, -, hff⟩ := hname byte List.mem_cons_self
    have hrest := fun b hb ↦ hname b (List.mem_cons_of_mem _ hb)
    have hplain := plain_escapeName hrest tail
    have hpush (hroom : (name.flatMap escapeNameByte ++ 0x22 :: tail).length + 2 ≤ fuel) :
        subsectionName fuel (pushName { p with rest := name.flatMap escapeNameByte ++ 0x22 :: tail } byte) =
          .ok { p with rest := tail, name := p.name ++ byte :: name } := by
      rw [ih hrest rfl hroom]
      simp [pushName]
    rw [h] at hfuel
    rw [List.flatMap_cons, List.append_assoc, escapeNameByte] at h hfuel
    rw [subsectionName]
    split at h
    · next hesc =>
      rw [if_pos hesc] at hfuel
      have hnext : nextChar { p with rest := byte :: (name.flatMap escapeNameByte ++ 0x22 :: tail) } =
          (byte, { p with rest := name.flatMap escapeNameByte ++ 0x22 :: tail }) :=
        nextChar_cons rfl hlf hff fun _ ↦ hplain
      have hback : p.nextChar =
          (0x5c, { p with rest := byte :: (name.flatMap escapeNameByte ++ 0x22 :: tail) }) :=
        nextChar_byte h (by decide)
      rw [hback]
      dsimp only
      rw [if_neg (by decide), if_neg (by decide), if_pos rfl, hnext]
      dsimp only
      rw [if_neg hlf]
      exact hpush (by simp only [List.cons_append, List.nil_append, List.length_cons] at hfuel; omega)
    · next hesc =>
      rw [if_neg hesc] at hfuel
      rw [nextChar_cons h hlf hff fun _ ↦ hplain]
      dsimp only
      rw [if_neg hlf, if_neg fun hc ↦ hesc (.inr hc), if_neg fun hc ↦ hesc (.inl hc)]
      exact hpush (by simp only [List.cons_append, List.nil_append, List.length_cons] at hfuel; omega)

/-! ### Headers -/

private theorem parseQuotedSubsection_print {name : Bytes}
    (hname : ∀ byte ∈ name, byte ≠ 0x0a ∧ byte ≠ 0 ∧ byte ≠ 0xff)
    (h : p.rest = 0x22 :: (name.flatMap escapeNameByte ++ 0x22 :: 0x5d :: tail)) :
    parseQuotedSubsection 0x20 p = .ok { p with rest := tail, name := p.name ++ 0x2e :: name } := by
  have hskip : skipSpaces p.bound 0x20 p =
      .ok (0x22, { p with rest := name.flatMap escapeNameByte ++ 0x22 :: 0x5d :: tail }) := by
    rw [bound, skipSpaces, if_neg (by decide), nextChar_byte h (by decide)]
    rfl
  have hquoted := subsectionName_print
    (p := pushName { p with rest := name.flatMap escapeNameByte ++ 0x22 :: 0x5d :: tail } 0x2e) hname rfl
    (Nat.le_refl _)
  rw [parseQuotedSubsection, hskip]
  simp only [Outcome.ok_bind]
  rw [if_neg (by decide), bound, hquoted, Outcome.ok_bind, nextChar_byte rfl (by decide)]
  simp [pushName]

/-- A letter is read as it is. -/
theorem not_mem_of_isAlpha {c : UInt8} (h : isAlpha c = true) :
    c ∉ [0x0a, 0x0d, 0xff, 0x20, 0x09, 0x23, 0x3b, 0x5b, 0x5d] := by
  intro hc
  simp only [List.mem_cons, List.not_mem_nil, or_false] at hc
  rcases hc with rfl | rfl | rfl | rfl | rfl | rfl | rfl | rfl | rfl <;> revert h <;> decide

/-- Lowering the case of a letter gives a letter. -/
theorem isAlpha_of_asciiLower {c : UInt8} (h : isAlpha (asciiLower c) = true) : isAlpha c = true := by
  rw [asciiLower] at h
  split at h
  · next hupper => exact decide_eq_true (.inr hupper)
  · exact h

private theorem isAlpha_of_map {word text : Bytes} (h : word.map asciiLower = text)
    (htext : ∀ byte ∈ text, isAlpha byte = true) : ∀ c ∈ word, isAlpha c = true :=
  fun _ hc ↦ isAlpha_of_asciiLower (htext _ (h ▸ List.mem_map_of_mem hc))

/-- What a letter is for the loops that meet it. -/
theorem isSpace_of_isAlpha {c : UInt8} (h : isAlpha c = true) : isSpace c = false := by
  have hno := not_mem_of_isAlpha h
  simp only [List.mem_cons, List.not_mem_nil, or_false, not_or] at hno
  simp [isSpace, hno]

private theorem isKeyChar_of_isAlpha {c : UInt8} (h : isAlpha c = true) : isKeyChar c = true := by
  simp [isKeyChar, h]

private theorem nextChar_letter {c : UInt8} (h : p.rest = c :: tail) (hc : isAlpha c = true) :
    p.nextChar = (c, { p with rest := tail }) := by
  have hno := not_mem_of_isAlpha hc
  simp only [List.mem_cons, List.not_mem_nil, or_false, not_or] at hno
  exact nextChar_byte h (by simp [hno])

private theorem sectionName_print {word : Bytes} (hword : ∀ c ∈ word, isAlpha c = true)
    (h : p.rest = word ++ 0x20 :: tail) (heof : p.eof = false) (hfuel : p.rest.length + 2 ≤ fuel) :
    sectionName fuel p =
      parseQuotedSubsection 0x20 { p with rest := tail, name := p.name ++ word.map asciiLower } := by
  induction word generalizing p fuel with
  | nil =>
    obtain ⟨fuel, rfl⟩ : ∃ n, fuel = n + 1 := ⟨fuel - 1, by omega⟩
    rw [sectionName, nextChar_byte h (by decide), List.map_nil, List.append_nil]
    simp [heof, isSpace]
  | cons c word ih =>
    obtain ⟨fuel, rfl⟩ : ∃ n, fuel = n + 1 := ⟨fuel - 1, by omega⟩
    have hc := hword c List.mem_cons_self
    have hclose : c ≠ 0x5d := fun heq ↦ not_mem_of_isAlpha hc (by simp [heq])
    have hroom : (word ++ 0x20 :: tail).length + 2 ≤ fuel := by
      rw [h, List.cons_append, List.length_cons] at hfuel
      omega
    rw [sectionName, nextChar_letter h hc]
    dsimp only
    rw [heof, if_neg Bool.false_ne_true, if_neg hclose, if_neg (by simp [isSpace_of_isAlpha hc]),
      if_neg (by simp [isKeyChar_of_isAlpha hc]),
      ih (fun _ hc ↦ hword _ (List.mem_cons_of_mem _ hc)) rfl rfl hroom]
    simp [pushName]

/-- A printed header, behind its bracket. -/
theorem parseSectionHeader_print {word name : Bytes} (hword : word.map asciiLower = Bytes.ascii "submodule")
    (hname : ∀ byte ∈ name, byte ≠ 0x0a ∧ byte ≠ 0 ∧ byte ≠ 0xff)
    (h : p.rest = word ++ (Bytes.ascii " \"" ++ (name.flatMap escapeNameByte ++ (Bytes.ascii "\"]" ++ tail))))
    (heof : p.eof = false) (hempty : p.name = []) :
    parseSectionHeader p = .ok { p with rest := tail, name := submoduleDot ++ name } := by
  have halpha := isAlpha_of_map hword (by decide +kernel)
  rw [parseSectionHeader, bound, sectionName_print halpha h heof (Nat.le_refl _),
    parseQuotedSubsection_print hname rfl, hword, hempty]
  simp [submoduleDot, Bytes.ascii]

/-! ### Quoted values -/

private theorem plain_escapeValue {value : Bytes} (hvalue : ∀ byte ∈ value, byte ≠ 0 ∧ byte ≠ 0xff) (tail : Bytes) :
    Plain (value.flatMap escapeValueByte ++ 0x22 :: tail) := by
  cases value with
  | nil => exact plain_cons (by decide) (by decide) _
  | cons byte value =>
    obtain ⟨-, hff⟩ := hvalue byte List.mem_cons_self
    rw [List.flatMap_cons, escapeValueByte]
    split
    · exact plain_cons (by decide) (by decide) _
    split
    · exact plain_cons (by decide) (by decide) _
    split
    · exact plain_cons (by decide) (by decide) _
    split
    · exact plain_cons (by decide) (by decide) _
    · next hlf _ _ => exact plain_cons hlf hff _

/-- A byte of a value is printed as it is, or as an escape that stands for it. -/
theorem escapeValueByte_cases (byte : UInt8) :
    (escapeValueByte byte = [byte] ∧ byte ∉ [0x0a, 0x5c, 0x22]) ∨
      ∃ c, escapeValueByte byte = [0x5c, c] ∧ unescape c = some byte ∧ c ∉ [0x0a, 0x0d, 0xff] := by
  unfold escapeValueByte
  split
  · next h => right; rcases h with rfl | rfl <;> exact ⟨_, rfl, by decide, by decide⟩
  split
  · next h => right; subst h; exact ⟨_, rfl, by decide, by decide⟩
  split
  · next h => right; subst h; exact ⟨_, rfl, by decide, by decide⟩
  split
  · next h => right; subst h; exact ⟨_, rfl, by decide, by decide⟩
  · next hquote hlf _ _ =>
    left
    rw [not_or] at hquote
    exact ⟨rfl, by simp [hlf, hquote]⟩

/-- The rest of a line behind the opening quote of a value. -/
theorem valueLoop_print {value : Bytes} (hvalue : ∀ byte ∈ value, byte ≠ 0 ∧ byte ≠ 0xff) (lineEnd : LineEnd)
    (h : p.rest = value.flatMap escapeValueByte ++ 0x22 :: (lineEnd.print ++ tail))
    (hfuel : p.rest.length + 2 ≤ fuel) :
    valueLoop fuel true false 0 p = .ok { p with rest := tail, value := p.value ++ value }.lineDown := by
  induction value generalizing p fuel with
  | nil =>
    obtain ⟨fuel, rfl⟩ : ∃ n, fuel = n + 2 := ⟨fuel - 2, by omega⟩
    rw [valueLoop, nextChar_byte h (by decide)]
    dsimp only
    rw [if_neg (by decide), if_neg (by decide), if_neg (by decide), if_neg (by decide), if_neg (by decide),
      if_pos rfl, valueLoop, nextChar_lineEnd lineEnd rfl]
    simp
  | cons byte value ih =>
    obtain ⟨fuel, rfl⟩ : ∃ n, fuel = n + 1 := ⟨fuel - 1, by omega⟩
    obtain ⟨-, hff⟩ := hvalue byte List.mem_cons_self
    have hrest := fun b hb ↦ hvalue b (List.mem_cons_of_mem _ hb)
    have hplain := plain_escapeValue hrest (lineEnd.print ++ tail)
    have hpush (hroom : (value.flatMap escapeValueByte ++ 0x22 :: (lineEnd.print ++ tail)).length + 2 ≤ fuel) :
        valueLoop fuel true false 0
            (pushValue { p with rest := value.flatMap escapeValueByte ++ 0x22 :: (lineEnd.print ++ tail) } byte) =
          .ok { p with rest := tail, value := p.value ++ byte :: value }.lineDown := by
      rw [ih hrest rfl hroom]
      simp [pushValue]
    rw [h] at hfuel
    rw [List.flatMap_cons, List.append_assoc] at h hfuel
    rw [valueLoop]
    rcases escapeValueByte_cases byte with ⟨hself, hbyte⟩ | ⟨c, hescape, hunescape, hc⟩
    · simp only [List.mem_cons, List.not_mem_nil, or_false, not_or] at hbyte
      rw [hself] at h hfuel
      rw [nextChar_cons h hbyte.1 hff fun _ ↦ hplain]
      dsimp only
      rw [if_neg hbyte.1, if_neg Bool.false_ne_true, if_neg (by simp), if_neg (by simp), if_neg hbyte.2.1,
        if_neg hbyte.2.2]
      exact hpush (by simp only [List.cons_append, List.nil_append, List.length_cons] at hfuel; omega)
    · rw [hescape] at h hfuel
      have hback : p.nextChar = (0x5c,
          { p with rest := c :: (value.flatMap escapeValueByte ++ 0x22 :: (lineEnd.print ++ tail)) }) :=
        nextChar_byte h (by decide)
      have hlf : c ≠ 0x0a := fun heq ↦ hc (by simp [heq])
      rw [hback]
      dsimp only
      rw [if_neg (by decide), if_neg Bool.false_ne_true, if_neg (by simp), if_neg (by simp), if_pos rfl,
        nextChar_byte rfl hc]
      dsimp only
      rw [if_neg hlf, hunescape]
      exact hpush (by simp only [List.cons_append, List.nil_append, List.length_cons] at hfuel; omega)

/-- A printed value, behind its `=`. -/
theorem parseValue_print {value : Bytes} (hvalue : ∀ byte ∈ value, byte ≠ 0 ∧ byte ≠ 0xff) (lineEnd : LineEnd)
    (h : p.rest = 0x20 :: 0x22 :: (value.flatMap escapeValueByte ++ 0x22 :: (lineEnd.print ++ tail))) :
    parseValue p = .ok { p with rest := tail, value }.lineDown := by
  have hspace : nextChar { p with value := [] } =
      (0x20, { p with
        rest := 0x22 :: (value.flatMap escapeValueByte ++ 0x22 :: (lineEnd.print ++ tail)), value := [] }) :=
    nextChar_byte h (by decide)
  have hlength : p.bound =
      (value.flatMap escapeValueByte ++ 0x22 :: (lineEnd.print ++ tail)).length + 2 + 1 + 1 := by
    rw [bound, h]
    rfl
  rw [parseValue, hlength, valueLoop, hspace]
  dsimp only
  rw [if_neg (by decide), if_neg Bool.false_ne_true, if_pos (by decide), if_pos rfl, if_neg (by simp), valueLoop,
    nextChar_byte rfl (by decide)]
  dsimp only
  rw [if_neg (by decide), if_neg Bool.false_ne_true, if_neg (by decide), if_neg (by decide), if_neg (by decide),
    if_pos rfl]
  exact valueLoop_print hvalue lineEnd rfl (Nat.le_refl _)

/-! ### Entries -/

private theorem entryName_print {word : Bytes} (hword : ∀ c ∈ word, isAlpha c = true)
    (h : p.rest = word ++ 0x20 :: tail) (heof : p.eof = false) (hfuel : p.rest.length + 2 ≤ fuel) :
    entryName fuel p = .ok (0x20, { p with rest := tail, name := p.name ++ word.map asciiLower }) := by
  induction word generalizing p fuel with
  | nil =>
    obtain ⟨fuel, rfl⟩ : ∃ n, fuel = n + 1 := ⟨fuel - 1, by omega⟩
    rw [entryName, nextChar_byte h (by decide), List.map_nil, List.append_nil]
    exact if_pos (.inr (by decide))
  | cons c word ih =>
    obtain ⟨fuel, rfl⟩ : ∃ n, fuel = n + 1 := ⟨fuel - 1, by omega⟩
    have hc := hword c List.mem_cons_self
    have hroom : (word ++ 0x20 :: tail).length + 2 ≤ fuel := by
      rw [h, List.cons_append, List.length_cons] at hfuel
      omega
    rw [entryName, nextChar_letter h hc]
    dsimp only
    rw [heof, if_neg (by simp [isKeyChar_of_isAlpha hc]),
      ih (fun _ hc ↦ hword _ (List.mem_cons_of_mem _ hc)) rfl rfl hroom]
    simp [pushName]

/-- A printed entry, behind the first letter of its key. -/
theorem parseEntry_print {word value : Bytes} (hword : ∀ c ∈ word, isAlpha c = true)
    (hvalue : ∀ byte ∈ value, byte ≠ 0 ∧ byte ≠ 0xff) (lineEnd : LineEnd)
    (h : p.rest = word ++ (Bytes.ascii " = \"" ++ (value.flatMap escapeValueByte ++
      0x22 :: (lineEnd.print ++ tail))))
    (heof : p.eof = false) :
    ∃ q, parseEntry p = .ok (q, cString (p.name ++ word.map asciiLower), some (cString value)) ∧
      q.rest = tail ∧ q.eof = false ∧ q.name = p.name ++ word.map asciiLower ∧ q.baseLen = p.baseLen := by
  have hblanks : ∀ q : Parser, q.rest = 0x3d :: 0x20 :: 0x22 :: (value.flatMap escapeValueByte ++
      0x22 :: (lineEnd.print ++ tail)) →
      skipBlanks q.bound 0x20 q = .ok (0x3d, { q with
        rest := 0x20 :: 0x22 :: (value.flatMap escapeValueByte ++ 0x22 :: (lineEnd.print ++ tail)) }) := by
    intro q hq
    rw [bound, skipBlanks, if_pos (.inl rfl), nextChar_byte hq (by decide)]
    rfl
  rw [parseEntry, bound, entryName_print hword h heof (Nat.le_refl _), Outcome.ok_bind]
  dsimp only
  rw [hblanks _ rfl, Outcome.ok_bind]
  dsimp only
  rw [if_neg (by decide), if_neg (by decide), parseValue_print hvalue lineEnd rfl, Outcome.ok_bind]
  exact ⟨_, rfl, rfl, heof, rfl, rfl⟩

/-! ### Documents -/

/-- The outer loop reads a rest to its end, at the start of a line or inside one that is passed over. -/
def Reads (comment : Bool) (base rest : Bytes) (visited result : List (Bytes × Option Bytes)) : Prop :=
  ∀ (p : Parser) (fuel : ℕ), p.rest = rest → p.eof = false → p.baseLen = base.length → base <+: p.name →
    rest.length + 2 ≤ fuel → parseLoop fuel comment p visited = .ok result

section Reads

variable {comment : Bool} {base : Bytes} {visited result : List (Bytes × Option Bytes)}

private theorem reads_nil : Reads comment base [] visited visited := by
  intro p fuel h _ _ _ hfuel
  obtain ⟨fuel, rfl⟩ : ∃ n, fuel = n + 1 := ⟨fuel - 1, by omega⟩
  rw [parseLoop, nextChar, h]
  rfl

private theorem Reads.lineEnd (lineEnd : LineEnd) (h : Reads false base tail visited result) :
    Reads comment base (lineEnd.print ++ tail) visited result := by
  intro p fuel hrest heof hlen hbase hfuel
  obtain ⟨fuel, rfl⟩ : ∃ n, fuel = n + 1 := ⟨fuel - 1, by omega⟩
  have hpos : 0 < lineEnd.print.length := by cases lineEnd <;> decide
  rw [List.length_append] at hfuel
  rw [parseLoop, nextChar_lineEnd lineEnd hrest]
  dsimp only
  rw [if_pos rfl, eof_lineDown, heof, if_neg Bool.false_ne_true]
  exact h _ fuel rfl rfl hlen hbase (by omega)

/-- A byte that is passed over. -/
theorem Reads.skip {byte : UInt8} (hlf : byte ≠ 0x0a) (hff : byte ≠ 0xff) (hcr : byte = 0x0d → Plain tail)
    (hskip : comment = true ∨ isSpace byte = true) (h : Reads comment base tail visited result) :
    Reads comment base (byte :: tail) visited result := by
  intro p fuel hrest heof hlen hbase hfuel
  obtain ⟨fuel, rfl⟩ : ∃ n, fuel = n + 1 := ⟨fuel - 1, by omega⟩
  rw [List.length_cons] at hfuel
  have hgo := h { p with rest := tail } fuel rfl heof hlen hbase (by omega)
  rw [parseLoop, nextChar_cons hrest hlf hff hcr]
  dsimp only
  rw [if_neg hlf]
  split
  · exact hgo
  · next hcomment => rw [if_pos (hskip.resolve_left hcomment), hgo]

/-- Text that is passed over up to the end of its line. -/
theorem Reads.text {text : Bytes} (lineEnd : LineEnd) (htext : ∀ byte ∈ text, byte ≠ 0x0a ∧ byte ≠ 0xff)
    (hskip : ∀ byte ∈ text, comment = true ∨ isSpace byte = true) (h : Reads false base tail visited result) :
    Reads comment base (text ++ (lineEnd.print ++ tail)) visited result := by
  induction text with
  | nil => exact h.lineEnd lineEnd
  | cons byte text ih =>
    have hrest := ih (fun b hb ↦ htext b (List.mem_cons_of_mem _ hb))
      fun b hb ↦ hskip b (List.mem_cons_of_mem _ hb)
    obtain ⟨hlf, hff⟩ := htext byte List.mem_cons_self
    -- a CR in front of the LF that ends the line folds into it
    by_cases hfold : byte = 0x0d ∧ text = [] ∧ lineEnd = .lf
    · obtain ⟨rfl, rfl, rfl⟩ := hfold
      exact h.lineEnd .crlf
    · refine hrest.skip hlf hff (fun hcr ↦ ?_) (hskip byte List.mem_cons_self)
      cases text with
      | nil =>
        cases lineEnd with
        | lf => exact absurd ⟨hcr, rfl, rfl⟩ hfold
        | crlf => exact plain_cons (by decide) (by decide) _
      | cons b text =>
        obtain ⟨hlf', hff'⟩ := htext b (List.mem_cons_of_mem _ List.mem_cons_self)
        exact plain_cons hlf' hff' _

private theorem Blank.ne {byte : UInt8} (h : Blank byte) : byte ≠ 0x0a ∧ byte ≠ 0xff ∧ isSpace byte = true := by
  rcases h with rfl | rfl | rfl <;> decide

/-- The indentation of a line. -/
theorem Reads.blanks {blanks : Bytes} (hblanks : ∀ byte ∈ blanks, Blank byte) (hplain : Plain tail)
    (h : Reads comment base tail visited result) : Reads comment base (blanks ++ tail) visited result := by
  induction blanks with
  | nil => exact h
  | cons byte blanks ih =>
    have hrest := fun b hb ↦ hblanks b (List.mem_cons_of_mem _ hb)
    obtain ⟨hlf, hff, hspace⟩ := (hblanks byte List.mem_cons_self).ne
    refine (ih hrest).skip hlf hff (fun _ ↦ ?_) (.inr hspace)
    cases blanks with
    | nil => exact hplain
    | cons b blanks =>
      obtain ⟨hlf', hff', -⟩ := (hrest b List.mem_cons_self).ne
      exact plain_cons hlf' hff' _

/-- The mark of a comment. -/
theorem Reads.mark {byte : UInt8} (hmark : byte = 0x23 ∨ byte = 0x3b)
    (h : Reads true base tail visited result) : Reads false base (byte :: tail) visited result := by
  intro p fuel hrest heof hlen hbase hfuel
  obtain ⟨fuel, rfl⟩ : ∃ n, fuel = n + 1 := ⟨fuel - 1, by omega⟩
  rw [List.length_cons] at hfuel
  have hgo := h { p with rest := tail } fuel rfl heof hlen hbase (by omega)
  have hnext : p.nextChar = (byte, { p with rest := tail }) :=
    nextChar_byte hrest (by rcases hmark with rfl | rfl <;> decide)
  rw [parseLoop, hnext]
  rcases hmark with rfl | rfl <;> exact hgo

private theorem Reads.noise (noise : Noise) (h : Reads false base tail visited result) :
    Reads false base (noise.print ++ tail) visited result := by
  rw [Noise.print, List.append_assoc]
  cases hcomment : noise.comment with
  | none =>
    exact Reads.text noise.lineEnd (fun b hb ↦ ⟨(noise.blank b hb).ne.1, (noise.blank b hb).ne.2.1⟩)
      (fun b hb ↦ .inr (noise.blank b hb).ne.2.2) h
  | some comment =>
    have hmark := noise.mark comment hcomment
    obtain ⟨hlf, hff⟩ := noise.text comment hcomment
    have htext : ∀ byte ∈ comment.2, byte ≠ 0x0a ∧ byte ≠ 0xff :=
      fun b hb ↦ ⟨fun heq ↦ hlf (heq ▸ hb), fun heq ↦ hff (heq ▸ hb)⟩
    rw [Option.elim_some, List.append_assoc]
    refine Reads.blanks noise.blank ?_ (.mark hmark (.text noise.lineEnd htext (fun _ _ ↦ .inl rfl) h))
    rcases hmark with hm | hm <;> rw [hm] <;> exact plain_cons (by decide) (by decide) _

/-- A header starts a section whatever came before it. -/
theorem Reads.header (part : Section)
    (h : Reads false (submoduleDot ++ part.name ++ [0x2e]) (part.lines.flatMap Line.print ++ tail) visited
      result) :
    Reads false base (part.print ++ tail) visited result := by
  have hprint : part.print ++ tail = part.indent ++ 0x5b :: (part.word ++ (Bytes.ascii " \"" ++
      (part.name.flatMap escapeNameByte ++ (Bytes.ascii "\"]" ++ (part.lineEnd.print ++
        (part.lines.flatMap Line.print ++ tail)))))) := by
    simp [Section.print]
  rw [hprint]
  refine Reads.blanks part.blank (plain_cons (by decide) (by decide) _) ?_
  intro p fuel hrest heof hlen hbase hfuel
  obtain ⟨fuel, rfl⟩ : ∃ n, fuel = n + 1 := ⟨fuel - 1, by omega⟩
  have hheader := parseSectionHeader_print
    (p := { p with
      rest := part.word ++ (Bytes.ascii " \"" ++ (part.name.flatMap escapeNameByte ++ (Bytes.ascii "\"]" ++
        (part.lineEnd.print ++ (part.lines.flatMap Line.print ++ tail)))))
      name := [] })
    part.spells part.name_ne rfl heof rfl
  rw [parseLoop, nextChar_byte hrest (by decide)]
  dsimp only
  rw [if_neg (by decide), if_neg Bool.false_ne_true, if_neg (by decide), if_neg (by decide), if_pos rfl, hheader]
  dsimp only
  rw [if_neg (by simp [submoduleDot, Bytes.ascii])]
  refine h.lineEnd part.lineEnd _ fuel rfl heof (by simp [Nat.add_assoc]) (by simp [pushName]) ?_
  simp only [List.length_append, List.length_cons] at hfuel ⊢
  omega

private theorem Field.isAlpha_text (field : Field) : ∀ byte ∈ field.text, isAlpha byte = true := by
  cases field <;> decide +kernel

private theorem Field.text_ne_nil (field : Field) : field.text ≠ [] := by
  cases field <;> decide

/-- An entry is visited with the name of its section in front. -/
theorem Reads.entry (entry : Entry)
    (h : Reads false base tail (visited ++ [(cString (base ++ entry.field.text), some (cString entry.value))])
      result) :
    Reads false base (entry.print ++ tail) visited result := by
  have hprint : entry.print ++ tail = entry.indent ++ (entry.word ++ (Bytes.ascii " = \"" ++
      (entry.value.flatMap escapeValueByte ++ 0x22 :: (entry.lineEnd.print ++ tail)))) := by
    simp [Entry.print]
  have halpha := isAlpha_of_map entry.spells entry.field.isAlpha_text
  have hspells := entry.spells
  rw [hprint]
  cases hword : entry.word with
  | nil =>
    rw [hword] at hspells
    exact absurd hspells.symm entry.field.text_ne_nil
  | cons c word =>
    rw [hword] at halpha hspells
    have hc := halpha c List.mem_cons_self
    have hno := not_mem_of_isAlpha hc
    simp only [List.mem_cons, List.not_mem_nil, or_false, not_or] at hno
    refine Reads.blanks entry.blank (plain_cons hno.1 hno.2.2.1 _) ?_
    intro p fuel hrest heof hlen hbase hfuel
    obtain ⟨fuel, rfl⟩ : ∃ n, fuel = n + 1 := ⟨fuel - 1, by omega⟩
    rw [List.cons_append] at hrest
    have hname : p.name.take p.baseLen = base := by
      rw [hlen]
      exact (List.prefix_iff_eq_take.mp hbase).symm
    obtain ⟨q, hentry, hq, hqeof, hqname, hqlen⟩ := parseEntry_print
      (p := pushName { p with
        rest := word ++ (Bytes.ascii " = \"" ++ (entry.value.flatMap escapeValueByte ++
          0x22 :: (entry.lineEnd.print ++ tail)))
        name := p.name.take p.baseLen } (asciiLower c))
      (fun b hb ↦ halpha b (List.mem_cons_of_mem _ hb)) entry.value_ne entry.lineEnd rfl heof
    have hkey : base ++ [asciiLower c] ++ word.map asciiLower = base ++ entry.field.text := by
      rw [← hspells, List.map_cons, List.append_assoc, List.singleton_append]
    simp only [pushName, hname, hkey] at hentry hqname hqlen
    rw [parseLoop, nextChar_letter hrest hc]
    dsimp only
    rw [if_neg hno.1, if_neg Bool.false_ne_true, if_neg (by simp [isSpace_of_isAlpha hc]), if_neg (by simp [hno]),
      if_neg (by simp [hno]), if_neg (by simp [hc])]
    simp only [pushName, hname, hentry]
    refine h q fuel hq hqeof (hqlen.trans hlen) (hqname ▸ List.prefix_append _ _) ?_
    simp only [List.length_append, List.length_cons] at hfuel ⊢
    omega

/-- What a line makes the parser visit. -/
def Line.visit (base : Bytes) : Line → Option (Bytes × Option Bytes)
  | .noise _ => none
  | .entry line => some (cString (base ++ line.field.text), some (cString line.value))

private theorem Reads.lines {lines : List Line}
    (h : Reads false base tail (visited ++ lines.filterMap (Line.visit base)) result) :
    Reads false base (lines.flatMap Line.print ++ tail) visited result := by
  induction lines generalizing visited with
  | nil => simpa using h
  | cons line lines ih =>
    rw [List.flatMap_cons, List.append_assoc]
    cases line with
    | noise line => exact (ih (by simpa [List.filterMap_cons, Line.visit] using h)).noise line
    | entry line => exact (ih (by simpa [List.filterMap_cons, Line.visit] using h)).entry line

/-- What a section makes the parser visit. -/
def Section.visits (part : Section) : List (Bytes × Option Bytes) :=
  part.lines.filterMap (Line.visit (submoduleDot ++ part.name ++ [0x2e]))

private theorem reads_sections (sections : List Section) (visited : List (Bytes × Option Bytes)) (base : Bytes) :
    Reads false base (sections.flatMap Section.print) visited (visited ++ sections.flatMap Section.visits) := by
  induction sections generalizing visited base with
  | nil => simpa using reads_nil
  | cons part sections ih =>
    rw [List.flatMap_cons, List.flatMap_cons, ← List.append_assoc]
    exact (ih (visited ++ part.visits) _).lines.header part

private theorem reads_document (doc : Document) : Reads false [] doc.print [] (doc.sections.flatMap Section.visits) := by
  have hsections := reads_sections doc.sections [] []
  rw [List.nil_append] at hsections
  rw [Document.print]
  induction doc.leading with
  | nil => exact hsections
  | cons line leading ih =>
    rw [List.flatMap_cons, List.append_assoc]
    exact ih.noise line

end Reads

/-- The bytes of a C string that holds no NUL. -/
theorem cString_eq_self {bytes : Bytes} (h : (0 : UInt8) ∉ bytes) : cString bytes = bytes :=
  List.takeWhile_eq_self_iff.mpr fun _ hbyte ↦ decide_eq_true fun heq ↦ h (heq ▸ hbyte)

/-- The key of a field of a name. -/
def declarationKey (name : Bytes) (field : Field) : Bytes := submoduleDot ++ name ++ [0x2e] ++ field.text

/-- What writing a value makes the parser visit. -/
def visitOf (write : Bytes × Field × Bytes) : Bytes × Option Bytes :=
  (declarationKey write.1 write.2.1, some write.2.2)

private theorem Section.visits_eq (part : Section) :
    part.visits = (part.lines.filterMap (Line.write part.name)).map visitOf := by
  rw [Section.visits, List.map_filterMap]
  refine List.filterMap_congr fun line _ ↦ ?_
  cases line with
  | noise line => rfl
  | entry line =>
    have hname : (0 : UInt8) ∉ part.name := fun h ↦ (part.name_ne 0 h).2.1 rfl
    have hvalue : (0 : UInt8) ∉ line.value := fun h ↦ (line.value_ne 0 h).1 rfl
    have hdot : (0 : UInt8) ∉ submoduleDot := by decide +kernel
    have hfield : (0 : UInt8) ∉ line.field.text := by cases line.field <;> decide +kernel
    have hkey : (0 : UInt8) ∉ submoduleDot ++ part.name ++ [0x2e] ++ line.field.text := by
      simp [hname, hdot, hfield]
    simp only [Line.visit, Line.write, Option.map_some, visitOf, declarationKey, cString_eq_self hkey,
      cString_eq_self hvalue]

/-- The parser visits what a document writes. -/
theorem parse_print (doc : Document) : parse doc.print = .ok (doc.writes.map visitOf) := by
  have hvisits : doc.sections.flatMap Section.visits = doc.writes.map visitOf := by
    rw [Document.writes, List.map_flatMap]
    exact List.flatMap_congr fun part _ ↦ part.visits_eq
  rw [← hvisits]
  exact reads_document doc _ _ rfl rfl rfl List.nil_prefix (Nat.le_refl _)

/-! ### Declarations -/

/-- A key is split at its last dot, whatever the name holds. -/
theorem submoduleKey_declarationKey (name : Bytes) (field : Field) :
    submoduleKey (declarationKey name field) = some (name, field) := by
  have hkey : declarationKey name field = submoduleDot ++ (name ++ 0x2e :: field.text) := by
    simp [declarationKey]
  have hdot : submoduleDot.isPrefixOf (submoduleDot ++ (name ++ 0x2e :: field.text)) = true := by
    rw [List.isPrefixOf_iff_prefix]
    exact List.prefix_append _ _
  have hlength : (name ++ 0x2e :: field.text).length - (field.text.length + 1) = name.length := by
    simp
  have hself : field.text.length + 1 ≤ (name ++ 0x2e :: field.text).length ∧
      (name ++ 0x2e :: field.text)[(name ++ 0x2e :: field.text).length - (field.text.length + 1)]? = some 0x2e ∧
      (name ++ 0x2e :: field.text).drop ((name ++ 0x2e :: field.text).length - field.text.length) =
        field.text := by
    refine ⟨by simp, by simp, ?_⟩
    have hdrop : (name ++ 0x2e :: field.text).length - field.text.length = (name ++ [0x2e]).length := by
      simp only [List.length_append, List.length_cons, List.length_nil]
      omega
    rw [hdrop, List.append_cons name 0x2e field.text, List.drop_left]
  -- no field is the end of another one
  have hother : ∀ other : Field, other ≠ field → other.text.length ≤ field.text.length + 1 →
      ¬ (name ++ 0x2e :: field.text).drop ((name ++ 0x2e :: field.text).length - other.text.length) =
        other.text := by
    intro other hne hle heq
    have hsuffix : other.text <:+ 0x2e :: field.text :=
      List.suffix_of_suffix_length_le (heq ▸ List.drop_suffix _ _) (List.suffix_append name _) hle
    revert hsuffix hne
    cases other <;> cases field <;> decide +kernel
  rw [hkey, submoduleKey, if_pos hdot, List.drop_left]
  simp only [List.findSome?_cons]
  cases field with
  | path => rw [if_pos hself, hlength, List.take_left]
  | url =>
    rw [if_neg fun h ↦ hother .path (by decide) (by decide) h.2.2]
    simp only
    rw [if_pos hself, hlength, List.take_left]
  | branch =>
    rw [if_neg fun h ↦ hother .path (by decide) (by decide) h.2.2]
    simp only
    rw [if_neg fun h ↦ hother .url (by decide) (by decide) h.2.2]
    simp only
    rw [if_pos hself, hlength, List.take_left]

private theorem lastWritten_append (writes : List (Bytes × Field × Bytes)) (write : Bytes × Field × Bytes)
    (name : Bytes) (field : Field) : lastWritten (writes ++ [write]) name field =
      if write.1 = name ∧ write.2.1 = field then some write.2.2 else lastWritten writes name field := by
  rw [lastWritten, List.filter_append]
  split
  · next h => rw [List.filter_singleton, decide_eq_true h, cond_true, List.getLast?_concat]; rfl
  · next h => rw [List.filter_singleton, decide_eq_false h, cond_false, List.append_nil]; rfl

/-- What is pending for a name when writes have been visited. -/
def pending (writes : List (Bytes × Field × Bytes)) (name : Bytes) : PendingDeclaration :=
  ⟨lastWritten writes name .path, lastWritten writes name .url, lastWritten writes name .branch⟩

private theorem set_pending (writes : List (Bytes × Field × Bytes)) (name value : Bytes) (field : Field) :
    (pending writes name).set (some value) field = pending (writes ++ [(name, field, value)]) name := by
  cases field <;> simp [pending, PendingDeclaration.set, lastWritten_append]

/-- The visitor keeps the last value of each field of each name. -/
theorem getD_foldl_visitKey (writes : List (Bytes × Field × Bytes)) (name : Bytes) :
    ((writes.map visitOf).foldl visitKey ∅).getD name {} = pending writes name := by
  induction writes using List.reverseRecOn generalizing name with
  | nil => rfl
  | append_singleton writes write ih =>
    obtain ⟨written, field, value⟩ := write
    rw [List.map_append, List.foldl_append, List.map_singleton, List.foldl_cons, List.foldl_nil, visitKey,
      visitOf, submoduleKey_declarationKey]
    dsimp only
    rw [Std.TreeMap.getD_insert, ih, set_pending]
    split
    · next heq => rw [Std.LawfulEqCmp.eq_of_compare heq]
    · next hne =>
      have hname : ¬ written = name := fun heq ↦ hne (heq ▸ Std.ReflCmp.compare_self)
      rw [ih]
      simp [pending, lastWritten_append, hname]

private theorem declare_eq_some {name : Bytes} {declaration : PendingDeclaration} {d : Declaration} :
    declaration.declare name = some d ↔ name = d.name ∧ declaration.path = some d.path ∧
      declaration.url = d.url ∧ declaration.branch = d.branch := by
  obtain ⟨path, url, branch⟩ := declaration
  obtain ⟨name', path', url', branch'⟩ := d
  cases path <;> simp [PendingDeclaration.declare]

/-- What is declared is what is pending with a path. -/
theorem mem_declare {declarations : Std.TreeMap Bytes PendingDeclaration} {d : Declaration} :
    d ∈ declarations.toList.filterMap (fun entry ↦ entry.2.declare entry.1) ↔
      (declarations.getD d.name {}).declare d.name = some d := by
  rw [List.mem_filterMap, Std.TreeMap.getD_eq_getD_getElem?]
  constructor
  · rintro ⟨⟨name, declaration⟩, hmem, hd⟩
    obtain ⟨rfl, -⟩ := declare_eq_some.mp hd
    rw [Std.TreeMap.mem_toList_iff_getElem?_eq_some.mp hmem]
    exact hd
  · intro hd
    cases hfound : declarations[d.name]? with
    | none =>
      rw [hfound] at hd
      cases hd
    | some declaration =>
      rw [hfound] at hd
      exact ⟨(d.name, declaration), Std.TreeMap.mem_toList_iff_getElem?_eq_some.mpr hfound, hd⟩

/-- Declarations come in the order of their names. -/
theorem pairwise_declare (declarations : Std.TreeMap Bytes PendingDeclaration) :
    (declarations.toList.filterMap fun entry ↦ entry.2.declare entry.1).Pairwise fun a b ↦ a.name < b.name := by
  rw [List.pairwise_filterMap]
  refine declarations.ordered_keys_toList.imp fun {a b} hab c hc d hd ↦ ?_
  rw [← (declare_eq_some.mp hc).1, ← (declare_eq_some.mp hd).1]
  exact Bytes.compare_eq_lt.mp hab

/-- The declarations are in the order of their names. -/
theorem pairwise_parseDeclarations {payload : Bytes} {declarations : List Declaration}
    (h : parseDeclarations payload = .ok declarations) : declarations.Pairwise fun a b ↦ a.name < b.name := by
  unfold parseDeclarations at h
  split at h
  · exact Outcome.ok.inj h ▸ pairwise_declare _
  · cases h
  · cases h

/-- Reading a printed `.gitmodules` gives, in the order of their names, the names with a path and the last value
of each of their fields; and the parser comes to an end on every byte string. -/
theorem parseDeclarations_print :
    (∀ doc : Document, ∃ declarations, parseDeclarations doc.print = .ok declarations ∧
      declarations.Pairwise (fun a b ↦ a.name < b.name) ∧
      ∀ d, d ∈ declarations ↔ doc.last d.name .path = some d.path ∧ doc.last d.name .url = d.url ∧
        doc.last d.name .branch = d.branch) ∧
    ∀ input, parse input ≠ .diverged ∧ parseDeclarations input ≠ .diverged := by
  refine ⟨fun doc ↦ ⟨_, ?_, pairwise_declare ((doc.writes.map visitOf).foldl visitKey ∅), fun d ↦ ?_⟩,
    fun input ↦ ⟨(parse_ends input).ne_diverged, parseDeclarations_ne_diverged input⟩⟩
  · rw [parseDeclarations, parse_print]
  · rw [mem_declare, getD_foldl_visitKey, declare_eq_some]
    exact ⟨fun h ↦ h.2, fun h ↦ ⟨rfl, h⟩⟩

/-- A document with a comment, line ends of both kinds, a quoted name with a dot, and a path written twice. -/
def sampleDocument : Document where
  leading := [⟨[], some (0x23, Bytes.ascii " vendored"), .crlf, by decide +kernel, by simp, by decide +kernel⟩]
  sections := [{
    indent := []
    word := Bytes.ascii "Submodule"
    name := Bytes.ascii "libs/a.\"b\""
    lineEnd := .crlf
    lines := [
      .entry ⟨[0x09], Bytes.ascii "path", .path, Bytes.ascii "old", .lf,
        by decide +kernel, by decide +kernel, by decide +kernel⟩,
      .noise ⟨[0x20], some (0x3b, Bytes.ascii " moved"), .lf, by decide +kernel, by simp, by decide +kernel⟩,
      .entry ⟨[0x09], Bytes.ascii "Path", .path, Bytes.ascii "libs/a\t\\b", .crlf,
        by decide +kernel, by decide +kernel, by decide +kernel⟩,
      .entry ⟨[], Bytes.ascii "URL", .url, Bytes.ascii "../b.git # x", .lf,
        by decide +kernel, by decide +kernel, by decide +kernel⟩]
    blank := by decide +kernel
    spells := by decide +kernel
    name_ne := by decide +kernel }]

example : sampleDocument.print = Bytes.ascii ("# vendored\r\n[Submodule \"libs/a.\\\"b\\\"\"]\r\n" ++
    "\tpath = \"old\"\n ; moved\n\tPath = \"libs/a\\t\\\\b\"\r\nURL = \"../b.git # x\"\n") := by
  decide +kernel

example : parseDeclarations sampleDocument.print =
    .ok [⟨Bytes.ascii "libs/a.\"b\"", Bytes.ascii "libs/a\t\\b", some (Bytes.ascii "../b.git # x"), none⟩] := by
  decide +kernel

end Gitility.Submodules
