import Gitility.Base.Bytes

/-!
# Object identities and the normalized error

`crates/gitility-core/src/object.rs` and `crates/gitility-core/src/error.rs`.
An `Oid` carries its algorithm and exactly that algorithm's digest bytes; the zero padding
of the Rust inline array is not represented.
-/

namespace Gitility

/-- `object.rs` `HashKind`. -/
inductive HashKind where
  | sha1
  | sha256
  deriving DecidableEq, Repr

/-- `object.rs` `HashKind::digest_len`. -/
def HashKind.digestLen : HashKind → ℕ
  | .sha1 => 20
  | .sha256 => 32

/-- `{:?}` of a `HashKind`. -/
def HashKind.debugName : HashKind → String
  | .sha1 => "Sha1"
  | .sha256 => "Sha256"

/-- `object.rs` `Oid`: `bytes` is what `as_bytes` returns. -/
structure Oid where
  kind : HashKind
  bytes : Bytes
  length_bytes : bytes.length = kind.digestLen
  deriving DecidableEq

/-- `object.rs` `ObjectKind`. -/
inductive ObjectKind where
  | commit
  | tree
  | blob
  | tag
  deriving DecidableEq, Repr

/-- `object.rs` `ObjectHeader`. -/
structure ObjectHeader where
  kind : ObjectKind
  size : ℕ
  deriving DecidableEq, Repr

/-- `error.rs` `ErrorCode`. -/
inductive ErrorCode where
  | invalidArgument | invalidOid | invalidPath | invalidCursor | unsupportedHash
  | unsupportedOperation | unsupportedRegex | notACommit | notATree | notABlob | refNotFound
  | ambiguousPrefix | notFound | missingObject | shallowBoundary | malformedObject
  | malformedBundle | malformedRef | hashMismatch | packChecksumMismatch
  | indexChecksumMismatch | objectTooLarge | budgetExceeded | resultTooLarge | timeout
  | awaitTimeout | cancelled | busy | conflict | authenticationFailed | networkError
  | cleanupFailed | credentialsUnavailable | providerDown | providerTimeout
  | providerProtocolError | backendError | runtimeMismatch | internalError
  deriving DecidableEq, Repr

/-- `error.rs` `ErrorOrder`. -/
inductive ErrorOrder where
  | topological
  | date
  deriving DecidableEq, Repr

/-- `error.rs` `ErrorOrder::as_str`. -/
def ErrorOrder.asStr : ErrorOrder → String
  | .topological => "topological"
  | .date => "date"

/-- `error.rs` `ErrorFile`. -/
inductive ErrorFile where
  | shallow
  | gitmodules
  deriving DecidableEq, Repr

/-- `error.rs` `ErrorLine`. -/
inductive ErrorLine where
  | count (lineCount : ℕ)
  | source (line : ℕ)
  deriving DecidableEq, Repr

/-- `error.rs` `Error`. -/
structure Error where
  code : ErrorCode
  message : String
  retryable : Bool := false
  limit : Option String := none
  layer : Option ℕ := none
  objectOid : Option Oid := none
  order : Option ErrorOrder := none
  reason : Option String := none
  file : Option ErrorFile := none
  line : Option ErrorLine := none
  deriving DecidableEq

namespace Error

/-- `Error::new`. -/
def new (code : ErrorCode) (message : String) : Error := { code, message }

/-- `Error::with_limit`. -/
def withLimit (error : Error) (limit : String) : Error := { error with limit := some limit }

/-- `Error::with_layer`. -/
def withLayer (error : Error) (layer : ℕ) : Error := { error with layer := some layer }

/-- `Error::with_oid`. -/
def withOid (error : Error) (oid : Oid) : Error := { error with objectOid := some oid }

/-- `Error::with_oid_if_none`: keeps an object ID a lower layer already supplied. -/
def withOidIfNone (error : Error) (oid : Oid) : Error :=
  { error with objectOid := some (error.objectOid.getD oid) }

/-- `Error::with_order`. -/
def withOrder (error : Error) (order : ErrorOrder) : Error := { error with order := some order }

/-- `Error::with_reason`. -/
def withReason (error : Error) (reason : String) : Error := { error with reason := some reason }

/-- `Error::with_file`. -/
def withFile (error : Error) (file : ErrorFile) : Error := { error with file := some file }

/-- `Error::with_line`. -/
def withLine (error : Error) (line : ℕ) : Error := { error with line := some (.source line) }

end Error

/-- `decode.rs` `malformed`. -/
def malformed (message : String) : Error := .new .malformedObject message

/-- The guard `if !p { return Err(error) }`. -/
def ensure (p : Prop) [Decidable p] (error : Error) : Except Error Unit :=
  if p then .ok () else .error error

/-- The check passes exactly when its condition holds. -/
@[simp] theorem ensure_eq_ok {p : Prop} [Decidable p] {error : Error} {u : Unit} :
    ensure p error = .ok u ↔ p := by
  by_cases h : p <;> simp [ensure, h]

/-- A sequence of fallible steps succeeds when each step does. -/
theorem Except.bind_eq_ok {ε α β : Type} {x : Except ε α} {f : α → Except ε β} {r : β} :
    (x >>= f) = .ok r ↔ ∃ a, x = .ok a ∧ f a = .ok r := by
  cases x with
  | error e => simp [bind, Except.bind]
  | ok a => simp [bind, Except.bind]

/-- Mapping a fallible step succeeds when each of its steps does. -/
theorem Except.mapM_eq_ok {ε α β : Type} {f : α → Except ε β} {items : List α} {results : List β} :
    items.mapM f = .ok results ↔ List.Forall₂ (fun a b ↦ f a = .ok b) items results := by
  induction items generalizing results with
  | nil => exact ⟨fun h ↦ by cases h; exact .nil, fun h ↦ by cases h; rfl⟩
  | cons a items ih =>
    rw [List.mapM_cons, Except.bind_eq_ok, List.forall₂_cons_left_iff]
    refine exists_congr fun b ↦ ?_
    rw [Except.bind_eq_ok]
    constructor
    · rintro ⟨ha, rest, hrest, h⟩
      cases h
      exact ⟨rest, ha, ih.mp hrest, rfl⟩
    · rintro ⟨rest, ha, hrest, rfl⟩
      exact ⟨ha, rest, ih.mpr hrest, rfl⟩

/-- The check fails with its own error, exactly when its condition does not hold. -/
@[simp] theorem ensure_eq_error {p : Prop} [Decidable p] {error e : Error} :
    ensure p error = .error e ↔ ¬ p ∧ e = error := by
  by_cases h : p <;> simp [ensure, h, eq_comm]

/-- A sequence of fallible steps fails when one of them does. -/
theorem Except.bind_eq_error {ε α β : Type} {x : Except ε α} {f : α → Except ε β} {e : ε} :
    (x >>= f) = .error e ↔ x = .error e ∨ ∃ a, x = .ok a ∧ f a = .error e := by
  cases x with
  | error e' => simp [bind, Except.bind]
  | ok a => simp [bind, Except.bind]

namespace Oid

/-- `Oid::new`: a digest must have exactly its algorithm's length. -/
def new (kind : HashKind) (digest : Bytes) : Except Error Oid :=
  if h : digest.length = kind.digestLen then .ok ⟨kind, digest, h⟩
  else .error
    { code := .invalidOid
      message := s!"{kind.debugName} digest must be {kind.digestLen} bytes, got {digest.length}" }

/-- `object.rs` `hex_val`. -/
def hexVal (c : UInt8) : Except Error UInt8 :=
  if 0x30 ≤ c ∧ c ≤ 0x39 then .ok (c - 0x30)
  else if 0x61 ≤ c ∧ c ≤ 0x66 then .ok (c - 0x61 + 10)
  else if 0x41 ≤ c ∧ c ≤ 0x46 then .ok (c - 0x41 + 10)
  else .error { code := .invalidOid, message := "object ID contains a non-hex character" }

/-- The `chunks_exact(2)` loop of `Oid::parse_hex`. -/
def hexDigest : Bytes → Except Error Bytes
  | hi :: lo :: rest => do
    let hi ← hexVal hi
    let lo ← hexVal lo
    return (hi <<< 4 ||| lo) :: (← hexDigest rest)
  | _ => .ok []

/-- `Oid::parse_hex`: the length of the text selects the algorithm. -/
def parseHex (hex : Bytes) : Except Error Oid :=
  if hex.length = 40 then do Oid.new .sha1 (← hexDigest hex)
  else if hex.length = 64 then do Oid.new .sha256 (← hexDigest hex)
  else .error
    { code := .invalidOid, message := "expected a full 40- or 64-character hex object ID" }

/-- One lowercase hexadecimal digit. -/
def hexDigit (nibble : ℕ) : Char := "0123456789abcdef".toList.getD nibble '0'

/-- `Oid::to_hex`, which is also the `Display` form used in messages. -/
def toHex (oid : Oid) : String :=
  String.ofList
    (oid.bytes.flatMap fun byte ↦ [hexDigit (byte.toNat / 16), hexDigit (byte.toNat % 16)])

instance : ToString Oid where toString := toHex

/-- Building an ID from its own digest returns it. -/
@[simp] theorem new_bytes (oid : Oid) : Oid.new oid.kind oid.bytes = .ok oid := by
  simp [Oid.new, oid.length_bytes]

end Oid

/-- An object ID whose digest repeats one byte. -/
def sampleId (byte : UInt8) : Oid := ⟨.sha1, List.replicate 20 byte, rfl⟩

end Gitility
