import Mathlib.Algebra.Order.Ring.Nat
import Gitility.Base.Bytes

/-!
# Long arithmetic on byte strings

A little-endian byte string is multiplied by a small number, and divided by one, byte by byte.
-/

namespace Gitility.Bytes

/-- Multiplies by `m` and adds `carry`; what does not fit is carried out. -/
def mulAdd (m : ℕ) : Bytes → ℕ → Bytes × ℕ
  | [], carry => ([], carry)
  | slot :: rest, carry =>
    let value := slot.toNat * m + carry
    let (rest, carry) := mulAdd m rest (value / 256)
    (UInt8.ofNat (value % 256) :: rest, carry)

/-- Divides by `d`; the remainder is carried from the high bytes to the low ones. -/
def divMod (d : ℕ) : Bytes → Bytes × ℕ
  | [] => ([], 0)
  | slot :: rest =>
    let (rest, remainder) := divMod d rest
    let dividend := remainder * 256 + slot.toNat
    (UInt8.ofNat (dividend / d) :: rest, dividend % d)

variable {m d carry : ℕ} {bytes bytes' : Bytes}

/-- Multiplication and addition keep the number of bytes. -/
@[simp] theorem length_mulAdd : (mulAdd m bytes carry).1.length = bytes.length := by
  induction bytes generalizing carry with
  | nil => rfl
  | cons slot rest ih => simp [mulAdd, ih]

/-- The product with what is carried out of it. -/
theorem ofLe_mulAdd (m : ℕ) (bytes : Bytes) (carry : ℕ) :
    ofLe (mulAdd m bytes carry).1 + 256 ^ bytes.length * (mulAdd m bytes carry).2 =
      m * ofLe bytes + carry := by
  induction bytes generalizing carry with
  | nil => simp [mulAdd, ofLe]
  | cons slot rest ih =>
    have hrest := ih ((slot.toNat * m + carry) / 256)
    have hlow : (UInt8.ofNat ((slot.toNat * m + carry) % 256)).toNat = (slot.toNat * m + carry) % 256 := by
      simp
    have hsplit := Nat.mod_add_div (slot.toNat * m + carry) 256
    simp only [mulAdd, ofLe, hlow, List.length_cons, Nat.pow_succ]
    calc _ = (slot.toNat * m + carry) % 256 +
          256 * (ofLe (mulAdd m rest ((slot.toNat * m + carry) / 256)).1 +
          256 ^ rest.length * (mulAdd m rest ((slot.toNat * m + carry) / 256)).2) := by ring
      _ = (slot.toNat * m + carry) % 256 + 256 * (m * ofLe rest + (slot.toNat * m + carry) / 256) := by
        rw [hrest]
      _ = (slot.toNat * m + carry) % 256 + 256 * ((slot.toNat * m + carry) / 256) +
          256 * (m * ofLe rest) := by ring
      _ = _ := by
        rw [hsplit]
        ring

/-- A product that fits carries nothing out. -/
theorem mulAdd_of_lt (h : m * ofLe bytes + carry < 256 ^ bytes.length) :
    (mulAdd m bytes carry).2 = 0 ∧ ofLe (mulAdd m bytes carry).1 = m * ofLe bytes + carry := by
  have hvalue := ofLe_mulAdd m bytes carry
  have hzero : (mulAdd m bytes carry).2 = 0 := by
    by_contra hne
    have hpos := Nat.le_mul_of_pos_right (256 ^ bytes.length) (Nat.pos_of_ne_zero hne)
    omega
  rw [hzero] at hvalue
  exact ⟨hzero, by omega⟩

/-- Quotient and remainder. -/
theorem ofLe_divMod (hd : 0 < d) (bytes : Bytes) :
    ofLe bytes = d * ofLe (divMod d bytes).1 + (divMod d bytes).2 ∧ (divMod d bytes).2 < d := by
  induction bytes with
  | nil => exact ⟨rfl, hd⟩
  | cons slot rest ih =>
    obtain ⟨hrest, hlt⟩ := ih
    have hslot := slot.toNat_lt
    have hdividend : (divMod d rest).2 * 256 + slot.toNat < d * 256 := by omega
    have hdigit : (UInt8.ofNat (((divMod d rest).2 * 256 + slot.toNat) / d)).toNat =
        ((divMod d rest).2 * 256 + slot.toNat) / d := by
      have hquot := Nat.div_lt_of_lt_mul hdividend
      simpa using hquot
    have hsplit := Nat.mod_add_div ((divMod d rest).2 * 256 + slot.toNat) d
    simp only [divMod, ofLe, hdigit]
    refine ⟨?_, Nat.mod_lt _ hd⟩
    rw [hrest]
    calc _ = (divMod d rest).2 * 256 + slot.toNat + 256 * (d * ofLe (divMod d rest).1) := by ring
      _ = ((divMod d rest).2 * 256 + slot.toNat) % d +
          d * (((divMod d rest).2 * 256 + slot.toNat) / d) + 256 * (d * ofLe (divMod d rest).1) := by
        rw [hsplit]
      _ = _ := by ring

/-- Numbers of one width tell their bytes. -/
theorem ofLe_inj (hlength : bytes.length = bytes'.length) (h : ofLe bytes = ofLe bytes') :
    bytes = bytes' := by
  rw [← toLe_ofLe bytes, ← toLe_ofLe bytes', hlength, h]

/-- A number is zero when all its bytes are. -/
theorem ofLe_eq_zero : ofLe bytes = 0 ↔ ∀ byte ∈ bytes, byte = 0 := by
  induction bytes with
  | nil => simp [ofLe]
  | cons byte rest ih =>
    rw [List.forall_mem_cons, ← ih, ofLe, ← UInt8.toNat_inj]
    simp

/-- Zero bytes are the number zero. -/
theorem ofLe_replicate_zero (n : ℕ) : ofLe (List.replicate n 0) = 0 :=
  ofLe_eq_zero.mpr fun _ h ↦ List.eq_of_mem_replicate h

end Gitility.Bytes
