import Mathlib.Data.FinEnum
import Mathlib.Data.List.Basic
import Mathlib.Data.List.TakeDrop
import Mathlib.Data.Nat.Notation
import Mathlib.Tactic.Ring

/-!
# Byte strings and little-endian fields

Byte strings are lists of `UInt8`. Fixed-width integers are written low byte first,
as Rust's `to_le_bytes` does, and read back by `ofLe`.
-/

namespace Gitility

/-- Raw bytes: Rust's `Vec<u8>` and `&[u8]`. -/
abbrev Bytes := List UInt8

instance Bytes.lawfulBEq : LawfulBEq Bytes := inferInstance

/-- `u32::MAX`. -/
def u32Max : ℕ := 2 ^ 32 - 1

namespace Bytes

/-- The bytes of an ASCII literal: Rust's `b"..."`. -/
def ascii (text : String) : Bytes := text.toList.map fun c ↦ UInt8.ofNat c.toNat

/-- `iter().rposition(p)`: the last index whose byte satisfies `p`. -/
def rposition (p : UInt8 → Bool) (bytes : Bytes) : Option ℕ :=
  (bytes.reverse.findIdx? p).map (bytes.length - 1 - ·)

/-- The low `n` bytes of a natural number, low byte first. -/
def toLe : ℕ → ℕ → Bytes
  | 0, _ => []
  | n + 1, value => UInt8.ofNat (value % 256) :: toLe n (value / 256)

/-- The number a little-endian byte string denotes. -/
def ofLe : Bytes → ℕ
  | [] => 0
  | byte :: rest => byte.toNat + 256 * ofLe rest

/-- A fixed-width field has its width. -/
@[simp] theorem length_toLe (n value : ℕ) : (toLe n value).length = n := by
  induction n generalizing value with
  | zero => rfl
  | succ n ih => simp [toLe, ih]

/-- Rust's `cmp` of byte strings is their lexicographic order. -/
theorem compare_eq_lt {a b : Bytes} : compare a b = .lt ↔ a < b := by
  induction a generalizing b with
  | nil => cases b <;> simp
  | cons x a ih =>
    cases b with
    | nil => simp
    | cons y b =>
      rw [List.compare_eq_compareLex, List.compareLex_cons_cons, ← List.compare_eq_compareLex,
        Ordering.then_eq_lt, ih, List.cons_lt_cons_iff, Std.compare_eq_lt, Std.compare_eq_iff_eq]

/-- Reading a field back keeps the value up to its width. -/
theorem ofLe_toLe (n value : ℕ) : ofLe (toLe n value) = value % 256 ^ n := by
  induction n generalizing value with
  | zero => simp [toLe, ofLe, Nat.mod_one]
  | succ n ih =>
    have hb : (UInt8.ofNat (value % 256)).toNat = value % 256 := by
      simp
    rw [toLe, ofLe, ih, hb, Nat.pow_succ, Nat.mul_comm (256 ^ n), Nat.mod_mul]

/-- Reading a field back is exact for a value that fits. -/
theorem ofLe_toLe_of_lt {n value : ℕ} (h : value < 256 ^ n) : ofLe (toLe n value) = value := by
  rw [ofLe_toLe, Nat.mod_eq_of_lt h]

/-- Writing what was read restores the bytes. -/
theorem toLe_ofLe (bytes : Bytes) : toLe bytes.length (ofLe bytes) = bytes := by
  induction bytes with
  | nil => rfl
  | cons byte rest ih =>
    have hb : byte.toNat < 256 := byte.toNat_lt
    have hm : (byte.toNat + 256 * ofLe rest) % 256 = byte.toNat := by omega
    have hd : (byte.toNat + 256 * ofLe rest) / 256 = ofLe rest := by omega
    rw [List.length_cons, ofLe, toLe, hm, hd, ih]
    simp

/-- A little-endian byte string denotes a number below its width. -/
theorem ofLe_lt (bytes : Bytes) : ofLe bytes < 256 ^ bytes.length := by
  induction bytes with
  | nil => simp [ofLe]
  | cons byte rest ih =>
    have hb : byte.toNat < 256 := byte.toNat_lt
    rw [List.length_cons, ofLe, Nat.pow_succ]
    omega

/-! ### Positions -/

section Positions

variable {p : UInt8 → Bool} {bytes : Bytes} {i : ℕ}

/-- A byte string splits at the first byte that satisfies `p`. -/
theorem findIdx?_eq_some_split (h : bytes.findIdx? p = some i) :
    ∃ byte, bytes = bytes.take i ++ byte :: bytes.drop (i + 1) ∧ p byte = true ∧
      ∀ b ∈ bytes.take i, p b = false := by
  obtain ⟨hlt, hp, hbefore⟩ := List.findIdx?_eq_some_iff_getElem.mp h
  refine ⟨bytes[i], ?_, hp, fun b hb ↦ ?_⟩
  · rw [List.getElem_cons_drop, List.take_append_drop]
  · obtain ⟨j, hj, rfl⟩ := List.mem_iff_getElem.mp hb
    rw [List.length_take] at hj
    rw [List.getElem_take]
    exact Bool.not_eq_true _ ▸ hbefore j (by omega)

/-- The last position splits a byte string, with no such byte behind it. -/
theorem rposition_eq_some : rposition p bytes = some i ↔
    ∃ front byte back, bytes = front ++ byte :: back ∧ front.length = i ∧ p byte = true ∧
      ∀ b ∈ back, p b = false := by
  constructor
  · intro h
    obtain ⟨j, hj, rfl⟩ := Option.map_eq_some_iff.mp h
    obtain ⟨byte, hsplit, hp, hbefore⟩ := findIdx?_eq_some_split hj
    have hlt := (List.findIdx?_eq_some_iff_getElem.mp hj).1
    refine ⟨(bytes.reverse.drop (j + 1)).reverse, byte, (bytes.reverse.take j).reverse, ?_, ?_, hp,
      by simpa using hbefore⟩
    · rw [← List.reverse_reverse bytes]
      conv_lhs => rw [hsplit]
      simp
    · simp
      omega
  · rintro ⟨front, byte, back, rfl, rfl, hp, hback⟩
    have hfind : (front ++ byte :: back).reverse.findIdx? p = some back.length := by
      rw [List.reverse_append, List.reverse_cons, List.append_assoc, List.findIdx?_append,
        List.findIdx?_eq_none_iff.mpr (by simpa using hback), Option.none_or, List.length_reverse,
        List.singleton_append, List.findIdx?_cons, if_pos hp]
      simp
    rw [rposition, hfind]
    simp

end Positions

end Bytes
end Gitility
