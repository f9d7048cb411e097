import Gitility.Submodules.GitConfig

/-!
# Submodule declarations

`crates/gitility-core/src/submodules.rs`, the reading of a `.gitmodules` payload: `submodule_key` and
`parse_declarations`. A config that is printed with quoted names and values is read back as it was meant: what
it declares is stated on the printed document, `Document.last`, and compared with what the parser finds.
-/

namespace Gitility.Submodules

/-- `Declaration`. -/
structure Declaration where
  name : Bytes
  path : Bytes
  url : Option Bytes
  branch : Option Bytes
  deriving DecidableEq, Repr

/-- `PendingDeclaration`. -/
structure PendingDeclaration where
  path : Option Bytes := none
  url : Option Bytes := none
  branch : Option Bytes := none
  deriving DecidableEq, Repr

/-- The retained fields of `submodule_key`. -/
inductive Field where
  | path
  | url
  | branch
  deriving DecidableEq, Repr

/-- The key of a field. -/
def Field.text : Field → Bytes
  | .path => Bytes.ascii "path"
  | .url => Bytes.ascii "url"
  | .branch => Bytes.ascii "branch"

/-- `b"submodule."`. -/
def submoduleDot : Bytes := Bytes.ascii "submodule."

/-- `submodule_key`: the name and the field, which the last dot separates. -/
def submoduleKey (key : Bytes) : Option (Bytes × Field) :=
  if submoduleDot.isPrefixOf key then
    let rest := key.drop submoduleDot.length
    [Field.path, .url, .branch].findSome? fun field ↦
      let suffixLen := field.text.length + 1
      if suffixLen ≤ rest.length ∧ rest[rest.length - suffixLen]? = some 0x2e ∧
          rest.drop (rest.length - field.text.length) = field.text then
        some (rest.take (rest.length - suffixLen), field)
      else none
  else none

/-- `match field { .. }` of the visitor. -/
def PendingDeclaration.set (declaration : PendingDeclaration) (value : Option Bytes) :
    Field → PendingDeclaration
  | .path => { declaration with path := value }
  | .url => { declaration with url := value }
  | .branch => { declaration with branch := value }

/-- The visitor of `parse_declarations`. -/
def visitKey (declarations : Std.TreeMap Bytes PendingDeclaration) (visit : Bytes × Option Bytes) :
    Std.TreeMap Bytes PendingDeclaration :=
  match submoduleKey visit.1 with
  | none => declarations
  | some (name, field) => declarations.insert name ((declarations.getD name {}).set visit.2 field)

/-- `malformed_gitmodules`. -/
def malformedGitmodules (message : String) : Error :=
  (Error.new .malformedObject message).withFile .gitmodules

/-- The `filter_map` of `parse_declarations`. -/
def PendingDeclaration.declare (name : Bytes) (declaration : PendingDeclaration) : Option Declaration :=
  declaration.path.map fun path ↦ ⟨name, path, declaration.url, declaration.branch⟩

/-- `parse_declarations`. -/
def parseDeclarations (payload : Bytes) : Outcome Error (List Declaration) :=
  match GitConfig.parse payload with
  | .ok visited => .ok ((visited.foldl visitKey ∅).toList.filterMap fun entry ↦ entry.2.declare entry.1)
  | .error error =>
    .error (((malformedGitmodules "snapshot .gitmodules is malformed").withReason
      "git_config_parse_error").withLine error.line)
  | .diverged => .diverged

example : parseDeclarations (Bytes.ascii "[Submodule \"a.path\"]\r\n\tPath = \"x\\\"y\"\nurl = z # note") =
    .ok [⟨Bytes.ascii "a.path", Bytes.ascii "x\"y", some (Bytes.ascii "z"), none⟩] := by decide +kernel

/-- A payload is read to an end. -/
theorem parseDeclarations_ne_diverged (payload : Bytes) : parseDeclarations payload ≠ .diverged := by
  have h := GitConfig.parse_ends payload
  unfold parseDeclarations
  split
  · nofun
  · nofun
  · next heq =>
    rw [heq] at h
    exact h.elim

/-! ### Printed documents -/

/-- A line end. -/
inductive LineEnd where
  | lf
  | crlf
  deriving DecidableEq, Repr

/-- The bytes of a line end. -/
def LineEnd.print : LineEnd → Bytes
  | .lf => [0x0a]
  | .crlf => [0x0d, 0x0a]

/-- A byte that is passed over in front of a line. -/
def Blank (byte : UInt8) : Prop := byte = 0x09 ∨ byte = 0x0d ∨ byte = 0x20

instance : DecidablePred Blank := fun _ ↦ inferInstanceAs (Decidable (_ ∨ _))

/-- A blank or comment line. -/
structure Noise where
  blanks : Bytes
  comment : Option (UInt8 × Bytes)
  lineEnd : LineEnd
  blank : ∀ byte ∈ blanks, Blank byte
  mark : ∀ text, comment = some text → text.1 = 0x23 ∨ text.1 = 0x3b
  text : ∀ text, comment = some text → (0x0a : UInt8) ∉ text.2 ∧ (0xff : UInt8) ∉ text.2

/-- A blank or comment line as printed. -/
def Noise.print (noise : Noise) : Bytes :=
  noise.blanks ++ ((noise.comment.elim [] fun text ↦ text.1 :: text.2) ++ noise.lineEnd.print)

/-- A byte of a quoted name. -/
def escapeNameByte (byte : UInt8) : Bytes := if byte = 0x5c ∨ byte = 0x22 then [0x5c, byte] else [byte]

/-- A byte of a quoted value. -/
def escapeValueByte (byte : UInt8) : Bytes :=
  if byte = 0x5c ∨ byte = 0x22 then [0x5c, byte]
  else if byte = 0x0a then [0x5c, 0x6e]
  else if byte = 0x09 then [0x5c, 0x74]
  else if byte = 0x08 then [0x5c, 0x62]
  else [byte]

/-- `key = "value"`, in any case of the key. -/
structure Entry where
  indent : Bytes
  word : Bytes
  field : Field
  value : Bytes
  lineEnd : LineEnd
  blank : ∀ byte ∈ indent, Blank byte
  spells : word.map GitConfig.asciiLower = field.text
  value_ne : ∀ byte ∈ value, byte ≠ 0 ∧ byte ≠ 0xff

/-- An entry as printed. -/
def Entry.print (entry : Entry) : Bytes :=
  entry.indent ++ (entry.word ++ (Bytes.ascii " = \"" ++ (entry.value.flatMap escapeValueByte ++
    0x22 :: entry.lineEnd.print)))

/-- A line below a header. -/
inductive Line where
  | noise (noise : Noise)
  | entry (entry : Entry)

/-- A line as printed. -/
def Line.print : Line → Bytes
  | .noise line => line.print
  | .entry line => line.print

/-- `[submodule "name"]`, in any case of the word, and the lines below it. -/
structure Section where
  indent : Bytes
  word : Bytes
  name : Bytes
  lineEnd : LineEnd
  lines : List Line
  blank : ∀ byte ∈ indent, Blank byte
  spells : word.map GitConfig.asciiLower = Bytes.ascii "submodule"
  name_ne : ∀ byte ∈ name, byte ≠ 0x0a ∧ byte ≠ 0 ∧ byte ≠ 0xff

/-- A section as printed. -/
def Section.print (part : Section) : Bytes :=
  part.indent ++ 0x5b :: (part.word ++ (Bytes.ascii " \"" ++ (part.name.flatMap escapeNameByte ++
    (Bytes.ascii "\"]" ++ (part.lineEnd.print ++ part.lines.flatMap Line.print)))))

/-- A printed `.gitmodules`. -/
structure Document where
  leading : List Noise
  sections : List Section

/-- A document as printed. -/
def Document.print (doc : Document) : Bytes :=
  doc.leading.flatMap Noise.print ++ doc.sections.flatMap Section.print

/-- The value a line writes. -/
def Line.write (name : Bytes) : Line → Option (Bytes × Field × Bytes)
  | .noise _ => none
  | .entry line => some (name, line.field, line.value)

/-- The values of a document, in the order in which they are written. -/
def Document.writes (doc : Document) : List (Bytes × Field × Bytes) :=
  doc.sections.flatMap fun part ↦ part.lines.filterMap (Line.write part.name)

/-- The last value written for a field of a name. -/
def lastWritten (writes : List (Bytes × Field × Bytes)) (name : Bytes) (field : Field) : Option Bytes :=
  (writes.filter fun write ↦ write.1 = name ∧ write.2.1 = field).getLast?.map (·.2.2)

/-- The last value a document writes for a field of a name. -/
def Document.last (doc : Document) (name : Bytes) (field : Field) : Option Bytes :=
  lastWritten doc.writes name field

end Gitility.Submodules
