import Gitility.Base.Object
import Gitility.Base.Program

/-!
# The config parser

`crates/gitility-core/src/git_config.rs`, the byte grammar of Git's config blobs. A character of the source is
an `i16`: a byte, or `-1` at the end of the input and for the byte `0xff`. The loops are written with a bound
on their iterations, which the bytes that are left determine.
-/

namespace Gitility.GitConfig

/-- `ParseError`. -/
structure ParseError where
  line : ℕ
  deriving DecidableEq, Repr

/-- `Parser`; `rest` is what `position` has not passed yet. -/
structure Parser where
  rest : Bytes
  line : ℕ := 1
  eof : Bool := false
  name : Bytes := []
  value : Bytes := []
  baseLen : ℕ := 0
  deriving DecidableEq, Repr

/-! ### Characters -/

/-- `is_alpha`. -/
def isAlpha (c : UInt8) : Bool := 0x61 ≤ c ∧ c ≤ 0x7a ∨ 0x41 ≤ c ∧ c ≤ 0x5a

/-- `is_key_char`. -/
def isKeyChar (c : UInt8) : Bool := isAlpha c ∨ 0x30 ≤ c ∧ c ≤ 0x39 ∨ c = 0x2d

/-- `is_space`. -/
def isSpace (c : UInt8) : Bool := c = 9 ∨ c = 10 ∨ c = 13 ∨ c = 32

/-- `ascii_lower`. -/
def asciiLower (byte : UInt8) : UInt8 := if 0x41 ≤ byte ∧ byte ≤ 0x5a then byte + 0x20 else byte

/-- `c_string_len`, applied: the bytes before the first NUL. -/
def cString (bytes : Bytes) : Bytes := bytes.takeWhile (· ≠ 0)

/-- `raw_char`; `none` is `-1`. -/
def rawChar : Bytes → Option UInt8 × Bytes
  | [] => (none, [])
  | byte :: rest => (if byte = 0xff then none else some byte, rest)

/-- The first half of `next_char`, which folds a CR before an LF into it. -/
def foldCr (input : Bytes) : Option UInt8 × Bytes :=
  match rawChar input with
  | (some 0x0d, rest) =>
    match rawChar rest with
    | (some 0x0a, rest) => (some 0x0a, rest)
    | (some _, _) => (some 0x0d, rest)
    | (none, rest) => (some 0x0d, rest)
  | (c, rest) => (c, rest)

namespace Parser

/-- `self.line = self.line.saturating_add(1)`. -/
def lineDown (p : Parser) : Parser := { p with line := min (p.line + 1) u32Max }

/-- `self.line = self.line.saturating_sub(1)`. -/
def lineUp (p : Parser) : Parser := { p with line := p.line - 1 }

/-- `self.name.push(byte)`. -/
def pushName (p : Parser) (byte : UInt8) : Parser := { p with name := p.name ++ [byte] }

/-- `self.value.push(byte)`. -/
def pushValue (p : Parser) (byte : UInt8) : Parser := { p with value := p.value ++ [byte] }

/-- `next_char`: the end of the input reads as a line end. -/
def nextChar (p : Parser) : UInt8 × Parser :=
  match foldCr p.rest with
  | (none, rest) => (0x0a, { p with rest, eof := true }.lineDown)
  | (some c, rest) => (c, if c = 0x0a then { p with rest }.lineDown else { p with rest })

/-- The bound of a loop that starts here. -/
def bound (p : Parser) : ℕ := p.rest.length + 2

/-! ### Headers -/

/-- The first loop of `parse_quoted_subsection`. -/
def skipSpaces : ℕ → UInt8 → Parser → Outcome Parser (UInt8 × Parser)
  | 0, _, _ => .diverged
  | fuel + 1, c, p =>
    if c = 0x0a then .error p.lineUp
    else
      let (c, p) := p.nextChar
      if isSpace c then skipSpaces fuel c p else .ok (c, p)

/-- The second loop of `parse_quoted_subsection`. -/
def subsectionName : ℕ → Parser → Outcome Parser Parser
  | 0, _ => .diverged
  | fuel + 1, p =>
    let (c, p) := p.nextChar
    if c = 0x0a then .error p.lineUp
    else if c = 0x22 then .ok p
    else if c = 0x5c then
      let (c, p) := p.nextChar
      if c = 0x0a then .error p.lineUp else subsectionName fuel (p.pushName c)
    else subsectionName fuel (p.pushName c)

/-- `parse_quoted_subsection`. -/
def parseQuotedSubsection (c : UInt8) (p : Parser) : Outcome Parser Parser := do
  let (c, p) ← skipSpaces p.bound c p
  if c ≠ 0x22 then .error p
  else do
    let p := p.pushName 0x2e
    let p ← subsectionName p.bound p
    let (c, p) := p.nextChar
    if c ≠ 0x5d then .error p else return p

/-- The loop of `parse_section_header`. -/
def sectionName : ℕ → Parser → Outcome Parser Parser
  | 0, _ => .diverged
  | fuel + 1, p =>
    let (c, p) := p.nextChar
    if p.eof then .error p
    else if c = 0x5d then .ok p
    else if isSpace c then parseQuotedSubsection c p
    else if ¬ isKeyChar c ∧ c ≠ 0x2e then .error p
    else sectionName fuel (p.pushName (asciiLower c))

/-- `parse_section_header`. -/
def parseSectionHeader (p : Parser) : Outcome Parser Parser := sectionName p.bound p

/-! ### Entries -/

/-- The character an escape in a value stands for. -/
def unescape (c : UInt8) : Option UInt8 :=
  if c = 0x74 then some 0x09
  else if c = 0x62 then some 0x08
  else if c = 0x6e then some 0x0a
  else if c = 0x5c ∨ c = 0x22 then some c
  else none

/-- The loop of `parse_value`. -/
def valueLoop : ℕ → Bool → Bool → ℕ → Parser → Outcome Parser Parser
  | 0, _, _, _, _ => .diverged
  | fuel + 1, quoted, comment, trimLen, p =>
    let (c, p) := p.nextChar
    if c = 0x0a then
      if quoted then .error p.lineUp
      else .ok (if trimLen ≠ 0 then { p with value := p.value.take trimLen } else p)
    else if comment then valueLoop fuel quoted comment trimLen p
    else if isSpace c ∧ ¬ quoted then
      let trimLen := if trimLen = 0 then p.value.length else trimLen
      valueLoop fuel quoted comment trimLen (if p.value ≠ [] then p.pushValue c else p)
    else if ¬ quoted ∧ (c = 0x3b ∨ c = 0x23) then valueLoop fuel quoted true trimLen p
    else if c = 0x5c then
      let (c, p) := p.nextChar
      if c = 0x0a then valueLoop fuel quoted comment 0 p
      else match unescape c with
        | some c => valueLoop fuel quoted comment 0 (p.pushValue c)
        | none => .error p
    else if c = 0x22 then valueLoop fuel (!quoted) comment 0 p
    else valueLoop fuel quoted comment 0 (p.pushValue c)

/-- `parse_value`. -/
def parseValue (p : Parser) : Outcome Parser Parser :=
  valueLoop p.bound false false 0 { p with value := [] }

/-- The first loop of `parse_entry`. -/
def entryName : ℕ → Parser → Outcome Parser (UInt8 × Parser)
  | 0, _ => .diverged
  | fuel + 1, p =>
    let (c, p) := p.nextChar
    if p.eof ∨ ¬ isKeyChar c then .ok (c, p) else entryName fuel (p.pushName (asciiLower c))

/-- The second loop of `parse_entry`. -/
def skipBlanks : ℕ → UInt8 → Parser → Outcome Parser (UInt8 × Parser)
  | 0, _, _ => .diverged
  | fuel + 1, c, p =>
    if c = 0x20 ∨ c = 0x09 then
      let (c, p) := p.nextChar
      skipBlanks fuel c p
    else .ok (c, p)

/-- `parse_entry`, with the visited key and value. -/
def parseEntry (p : Parser) : Outcome Parser (Parser × Bytes × Option Bytes) := do
  let (c, p) ← entryName p.bound p
  let (c, p) ← skipBlanks p.bound c p
  if c = 0x0a then return (p.lineUp.lineDown, cString p.name, none)
  else if c ≠ 0x3d then .error p
  else do
    let p ← parseValue p
    return (p.lineUp.lineDown, cString p.name, some (cString p.value))

/-- The loop of `parse`, with what has been visited. -/
def parseLoop : ℕ → Bool → Parser → List (Bytes × Option Bytes) →
    Outcome ParseError (List (Bytes × Option Bytes))
  | 0, _, _, _ => .diverged
  | fuel + 1, comment, p, visited =>
    let (c, p) := p.nextChar
    if c = 0x0a then if p.eof then .ok visited else parseLoop fuel false p visited
    else if comment then parseLoop fuel comment p visited
    else if isSpace c then parseLoop fuel comment p visited
    else if c = 0x23 ∨ c = 0x3b then parseLoop fuel true p visited
    else if c = 0x5b then
      match parseSectionHeader { p with name := [] } with
      | .ok p =>
        if p.name = [] then .error ⟨p.line⟩
        else parseLoop fuel comment { p.pushName 0x2e with baseLen := p.name.length + 1 } visited
      | .error p => .error ⟨p.line⟩
      | .diverged => .diverged
    else if ¬ isAlpha c then .error ⟨p.line⟩
    else
      match parseEntry ({ p with name := p.name.take p.baseLen }.pushName (asciiLower c)) with
      | .ok (p, visit) => parseLoop fuel comment p (visited ++ [visit])
      | .error p => .error ⟨p.line⟩
      | .diverged => .diverged

end Parser

/-- `git_config.rs` `parse`: the keys and values it visits, in order. -/
def parse (input : Bytes) : Outcome ParseError (List (Bytes × Option Bytes)) :=
  Parser.parseLoop (Parser.bound ⟨input, 1, false, [], [], 0⟩) false ⟨input, 1, false, [], [], 0⟩ []

/-! ### The loops end -/

/-- A character is read from at least one byte, or is the end of the input. -/
theorem length_foldCr (input : Bytes) :
    (foldCr input).2.length < input.length ∨ input = [] ∧ foldCr input = (none, []) := by
  cases input with
  | nil => exact .inr ⟨rfl, rfl⟩
  | cons byte rest =>
    refine .inl ?_
    have hraw : (rawChar (byte :: rest)).2 = rest := rfl
    have hmore : ∀ input, (rawChar input).2.length ≤ input.length := by
      rintro (_ | ⟨b, tail⟩)
      · exact Nat.le_refl _
      · exact Nat.le_succ _
    unfold foldCr
    split
    · next rest' heq =>
      rw [heq] at hraw
      obtain rfl : rest' = rest := hraw
      have hle := hmore rest'
      split
      · next more hm =>
        rw [hm] at hle
        exact Nat.lt_succ_of_le hle
      · exact Nat.lt_succ_self _
      · next more hm =>
        rw [hm] at hle
        exact Nat.lt_succ_of_le hle
    · next c rest' _ heq =>
      rw [heq] at hraw
      obtain rfl : rest' = rest := hraw
      exact Nat.lt_succ_self _

namespace Parser

variable {p : Parser}

/-- Counting a line keeps the end of the input. -/
@[simp] private theorem rest_lineDown : p.lineDown.rest = p.rest := rfl
@[simp] private theorem rest_lineUp : p.lineUp.rest = p.rest := rfl
@[simp] theorem eof_lineDown : p.lineDown.eof = p.eof := rfl
@[simp] private theorem rest_pushName (byte : UInt8) : (p.pushName byte).rest = p.rest := rfl
@[simp] private theorem rest_pushValue (byte : UInt8) : (p.pushValue byte).rest = p.rest := rfl

/-- `next_char` leaves less to read, or is at the end. -/
theorem nextChar_cases {c : UInt8} {p' : Parser} (h : p.nextChar = (c, p')) :
    p'.rest.length < p.rest.length ∨ c = 0x0a ∧ p'.eof = true ∧ p'.rest = [] := by
  rw [nextChar] at h
  rcases length_foldCr p.rest with hlt | ⟨-, hend⟩
  · left
    split at h
    · next rest heq =>
      obtain ⟨-, rfl⟩ := Prod.mk.inj h
      rw [heq] at hlt
      exact hlt
    · next c' rest heq =>
      obtain ⟨-, rfl⟩ := Prod.mk.inj h
      rw [heq] at hlt
      split
      · exact hlt
      · exact hlt
  · right
    rw [hend] at h
    obtain ⟨rfl, rfl⟩ := Prod.mk.inj h
    exact ⟨rfl, rfl, rfl⟩

/-- A parser that has not gone back. -/
def Within (p p' : Parser) : Prop := p'.rest.length ≤ p.rest.length

private theorem nextChar_within {c : UInt8} {p' : Parser} (h : p.nextChar = (c, p')) : Within p p' := by
  rcases nextChar_cases h with hlt | ⟨-, -, hempty⟩
  · exact hlt.le
  · rw [Within, hempty]
    exact Nat.zero_le _

private theorem Within.trans {p₁ p₂ p₃ : Parser} (h₁ : Within p₁ p₂) (h₂ : Within p₂ p₃) : Within p₁ p₃ :=
  Nat.le_trans h₂ h₁

private theorem skipSpaces_ends {fuel : ℕ} {c : UInt8} (h : p.rest.length + 2 ≤ fuel) :
    (skipSpaces fuel c p).Ends fun out ↦ Within p out.2 := by
  induction fuel generalizing c p with
  | zero => omega
  | succ fuel ih =>
    rw [skipSpaces]
    rcases hn : p.nextChar with ⟨c', p'⟩
    split
    · trivial
    dsimp only
    rcases nextChar_cases hn with hlt | ⟨rfl, -, -⟩
    · split
      · exact (ih (by omega)).mono fun out ↦ (nextChar_within hn).trans
      · exact hlt.le
    · obtain ⟨n, rfl⟩ : ∃ n, fuel = n + 1 := ⟨fuel - 1, by omega⟩
      trivial

private theorem subsectionName_ends {fuel : ℕ} (h : p.rest.length + 2 ≤ fuel) :
    (subsectionName fuel p).Ends (Within p) := by
  induction fuel generalizing p with
  | zero => omega
  | succ fuel ih =>
    rw [subsectionName]
    rcases hn : p.nextChar with ⟨c', p'⟩
    rcases hn' : p'.nextChar with ⟨c'', p''⟩
    dsimp only
    have hw := nextChar_within hn
    have hw' := nextChar_within hn'
    rcases nextChar_cases hn with hlt | ⟨rfl, -, -⟩
    · have hgo : ∀ {q : Parser}, Within p' q → (subsectionName fuel q).Ends (Within p) :=
        fun hq ↦ (ih (by rw [Within] at hq; omega)).mono fun out ↦ (hw.trans hq).trans
      split
      · trivial
      split
      · exact hw
      split
      · simp only [hn']
        split
        · trivial
        · exact hgo hw'
      · exact hgo (Nat.le_refl _)
    · trivial

private theorem parseQuotedSubsection_ends (c : UInt8) (p : Parser) :
    (parseQuotedSubsection c p).Ends (Within p) := by
  refine (skipSpaces_ends (Nat.le_refl _)).bind fun ⟨c, p'⟩ hp' ↦ ?_
  dsimp only
  split
  · trivial
  · refine (subsectionName_ends (Nat.le_refl _)).bind fun p'' hp'' ↦ ?_
    rcases hn : p''.nextChar with ⟨c', q⟩
    dsimp only
    split
    · trivial
    · exact (hp'.trans hp'').trans (nextChar_within hn)

private theorem sectionName_ends {fuel : ℕ} (h : p.rest.length + 2 ≤ fuel) :
    (sectionName fuel p).Ends (Within p) := by
  induction fuel generalizing p with
  | zero => omega
  | succ fuel ih =>
    rw [sectionName]
    rcases hn : p.nextChar with ⟨c', p'⟩
    dsimp only
    have hw := nextChar_within hn
    rcases nextChar_cases hn with hlt | ⟨-, heof, -⟩
    · split
      · trivial
      split
      · exact hw
      split
      · exact (parseQuotedSubsection_ends _ _).mono fun out ↦ hw.trans
      split
      · trivial
      · exact (ih (by simp only [rest_pushName]; omega)).mono fun out ↦ hw.trans
    · rw [if_pos heof]
      trivial

private theorem valueLoop_ends {fuel trimLen : ℕ} {quoted comment : Bool} (h : p.rest.length + 2 ≤ fuel) :
    (valueLoop fuel quoted comment trimLen p).Ends (Within p) := by
  induction fuel generalizing p quoted comment trimLen with
  | zero => omega
  | succ fuel ih =>
    rw [valueLoop]
    rcases hn : p.nextChar with ⟨c', p'⟩
    rcases hn' : p'.nextChar with ⟨c'', p''⟩
    dsimp only
    have hw := nextChar_within hn
    have hw' := nextChar_within hn'
    split
    · split
      · trivial
      · split
        · exact hw
        · exact hw
    · next hc =>
      obtain hlt : p'.rest.length < p.rest.length :=
        (nextChar_cases hn).resolve_right fun h' ↦ hc h'.1
      have hgo : ∀ {q : Parser} {quoted comment : Bool} {trimLen : ℕ}, Within p' q →
          (valueLoop fuel quoted comment trimLen q).Ends (Within p) :=
        fun hq ↦ (ih (by rw [Within] at hq; omega)).mono fun out ↦ (hw.trans hq).trans
      split
      · exact hgo (Nat.le_refl _)
      split
      · refine hgo ?_
        split
        · exact Nat.le_refl _
        · exact Nat.le_refl _
      split
      · exact hgo (Nat.le_refl _)
      split
      · simp only [hn']
        split
        · exact hgo hw'
        · split
          · exact hgo hw'
          · trivial
      split
      · exact hgo (Nat.le_refl _)
      · exact hgo (Nat.le_refl _)

private theorem entryName_ends {fuel : ℕ} (h : p.rest.length + 2 ≤ fuel) :
    (entryName fuel p).Ends fun out ↦ Within p out.2 := by
  induction fuel generalizing p with
  | zero => omega
  | succ fuel ih =>
    rw [entryName]
    rcases hn : p.nextChar with ⟨c', p'⟩
    dsimp only
    have hw := nextChar_within hn
    rcases nextChar_cases hn with hlt | ⟨-, heof, -⟩
    · split
      · exact hw
      · exact (ih (by simp only [rest_pushName]; omega)).mono fun out ↦ hw.trans
    · rw [if_pos (.inl heof)]
      exact hw

private theorem skipBlanks_ends {fuel : ℕ} {c : UInt8} (h : p.rest.length + 2 ≤ fuel) :
    (skipBlanks fuel c p).Ends fun out ↦ Within p out.2 := by
  induction fuel generalizing c p with
  | zero => omega
  | succ fuel ih =>
    rw [skipBlanks]
    rcases hn : p.nextChar with ⟨c', p'⟩
    dsimp only
    have hw := nextChar_within hn
    split
    · rcases nextChar_cases hn with hlt | ⟨rfl, -, -⟩
      · exact (ih (by omega)).mono fun out ↦ hw.trans
      · obtain ⟨n, rfl⟩ : ∃ n, fuel = n + 1 := ⟨fuel - 1, by omega⟩
        exact hw
    · exact Nat.le_refl _

private theorem parseEntry_ends (p : Parser) : (parseEntry p).Ends fun out ↦ Within p out.1 := by
  refine (entryName_ends (Nat.le_refl _)).bind fun ⟨c, p₁⟩ h₁ ↦ ?_
  refine (skipBlanks_ends (Nat.le_refl _)).bind fun ⟨c', p₂⟩ h₂ ↦ ?_
  have hw : Within p p₂ := Within.trans h₁ h₂
  dsimp only
  split
  · exact hw
  split
  · trivial
  · exact (valueLoop_ends (Nat.le_refl _)).bind fun p₃ h₃ ↦ hw.trans h₃

/-- Every turn of the outer loop reads on. -/
theorem parseLoop_ends {fuel : ℕ} {comment : Bool} {visited : List (Bytes × Option Bytes)}
    (h : p.rest.length + 2 ≤ fuel) : (parseLoop fuel comment p visited).Ends fun _ ↦ True := by
  induction fuel generalizing p comment visited with
  | zero => omega
  | succ fuel ih =>
    rw [parseLoop]
    rcases hn : p.nextChar with ⟨c', p'⟩
    dsimp only
    rcases nextChar_cases hn with hlt | ⟨rfl, heof, -⟩
    · have hgo : ∀ {q : Parser} {comment : Bool} {visited : List (Bytes × Option Bytes)},
          Within p' q → (parseLoop fuel comment q visited).Ends fun _ ↦ True :=
        fun hq ↦ ih (by rw [Within] at hq; omega)
      split
      · split
        · trivial
        · exact hgo (Nat.le_refl _)
      split
      · exact hgo (Nat.le_refl _)
      split
      · exact hgo (Nat.le_refl _)
      split
      · exact hgo (Nat.le_refl _)
      split
      · have hheader := sectionName_ends (p := { p' with name := [] }) (Nat.le_refl _)
        rw [parseSectionHeader, bound]
        split
        · next q heq =>
          rw [heq] at hheader
          split
          · trivial
          · exact hgo hheader
        · trivial
        · next heq =>
          rw [heq] at hheader
          exact hheader
      split
      · trivial
      · have hentry := parseEntry_ends
          ({ p' with name := p'.name.take p'.baseLen }.pushName (asciiLower c'))
        split
        · next q visit heq =>
          rw [heq] at hentry
          exact hgo hentry
        · trivial
        · next heq =>
          rw [heq] at hentry
          exact hentry
    · rw [if_pos rfl, if_pos heof]
      trivial

end Parser

/-- The parser ends on every input. -/
theorem parse_ends (input : Bytes) : (parse input).Ends fun _ ↦ True :=
  Parser.parseLoop_ends (Nat.le_refl _)

end Gitility.GitConfig
