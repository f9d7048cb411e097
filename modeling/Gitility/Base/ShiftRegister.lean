import Mathlib.Logic.Function.Iterate
import Gitility.Base.Bytes

/-!
# Shift registers with feedback

A register of `w` bits moves down one place at a time; the bit that leaves it feeds a polynomial back.
Bytes enter at the low end. The register is linear in exclusive or, so a run of bytes no longer than the
register can be read back from the state that it leads to.
-/

namespace Gitility.ShiftRegister

variable {w : ℕ} {poly : BitVec w}

/-- One place down. -/
def shift (poly x : BitVec w) : BitVec w :=
  (x >>> 1) ^^^ (if x.getLsbD 0 then poly else 0)

/-- A byte enters, and eight places down. -/
def feed (poly x : BitVec w) (byte : UInt8) : BitVec w :=
  (shift poly)^[8] (x ^^^ BitVec.ofNat w byte.toNat)

/-! ### Linearity -/

private theorem shift_xor (x y : BitVec w) : shift poly (x ^^^ y) = shift poly x ^^^ shift poly y := by
  have hcancel : (x >>> 1 ^^^ poly) ^^^ (y >>> 1 ^^^ poly) = x >>> 1 ^^^ y >>> 1 := by
    rw [BitVec.xor_comm (y >>> 1), BitVec.xor_assoc, ← BitVec.xor_assoc poly, BitVec.xor_self,
      BitVec.zero_xor]
  unfold shift
  rw [BitVec.getLsbD_xor, BitVec.ushiftRight_xor_distrib]
  cases x.getLsbD 0 <;> cases y.getLsbD 0
  · simp
  · simp [BitVec.xor_assoc]
  · simp only [Bool.xor_false, if_true, Bool.false_eq_true, if_false, BitVec.ofNat_eq_ofNat,
      BitVec.xor_zero]
    ac_rfl
  · simp [hcancel]

private theorem shift_iterate_xor (n : ℕ) (x y : BitVec w) :
    (shift poly)^[n] (x ^^^ y) = (shift poly)^[n] x ^^^ (shift poly)^[n] y := by
  induction n generalizing x y with
  | zero => rfl
  | succ n ih => rw [Function.iterate_succ_apply, shift_xor, ih]; rfl

/-- Nothing is lost when the polynomial feeds back into the place that the shift leaves empty. -/
theorem shift_injective (hpoly : poly.msb = true) : Function.Injective (shift poly) := by
  intro x y h
  have hw : 0 < w := by
    rcases Nat.eq_zero_or_pos w with rfl | hw
    · simp [BitVec.msb, BitVec.getMsbD] at hpoly
    · exact hw
  -- The highest bit after the shift is the lowest bit before it.
  have htop (z : BitVec w) : (shift poly z).msb = z.getLsbD 0 := by
    have hempty : (z >>> 1).msb = false := by simp [BitVec.msb_ushiftRight]
    unfold shift
    rw [BitVec.msb_xor, hempty]
    cases z.getLsbD 0 <;> simp [hpoly]
  have hlow : x.getLsbD 0 = y.getLsbD 0 := by rw [← htop, ← htop, h]
  have hrest : x >>> 1 = y >>> 1 := by
    unfold shift at h
    rw [hlow] at h
    simpa using h
  apply BitVec.eq_of_getLsbD_eq
  intro i hi
  cases i with
  | zero => exact hlow
  | succ i =>
    have hbit := congrArg (fun z ↦ z.getLsbD i) hrest
    simpa [BitVec.getLsbD_ushiftRight, Nat.add_comm] using hbit

/-- A value that `n` free places stand below only moves down through `n` shifts. -/
theorem shift_iterate_shiftLeft (n : ℕ) {x : BitVec w} (h : ∀ i, w ≤ i + n → x.getLsbD i = false) :
    (shift poly)^[n] (x <<< n) = x := by
  induction n with
  | zero => simp
  | succ n ih =>
    have hstep : shift poly (x <<< (n + 1)) = x <<< n := by
      have hlow : (x <<< (n + 1)).getLsbD 0 = false := by simp
      unfold shift
      rw [hlow]
      apply BitVec.eq_of_getLsbD_eq
      intro i hi
      simp only [Bool.false_eq_true, if_false, BitVec.ofNat_eq_ofNat, BitVec.xor_zero,
        BitVec.getLsbD_ushiftRight, BitVec.getLsbD_shiftLeft, hi, decide_true, Bool.true_and]
      rw [show 1 + i - (n + 1) = i - n by omega]
      by_cases htop : 1 + i < w
      · simp [htop, show (1 + i < n + 1) = (i < n) by rw [Nat.add_comm 1 i, Nat.add_lt_add_iff_right]]
      · by_cases hn : i < n
        · simp [htop, hn]
        · simp [htop, h (i - n) (by omega)]
    rw [Function.iterate_succ_apply, hstep]
    exact ih fun i hi ↦ h i (by omega)

/-! ### Runs of bytes -/

/-- The bits of a little-endian field. -/
theorem ofNat_ofLe_cons (byte : UInt8) (bytes : Bytes) :
    BitVec.ofNat w (Bytes.ofLe (byte :: bytes)) =
      BitVec.ofNat w byte.toNat ^^^ BitVec.ofNat w (Bytes.ofLe bytes) <<< 8 := by
  have hbyte : byte.toNat < 2 ^ 8 := byte.toNat_lt
  apply BitVec.eq_of_getLsbD_eq
  intro i hi
  have hsum : Bytes.ofLe (byte :: bytes) = 2 ^ 8 * Bytes.ofLe bytes + byte.toNat := by
    rw [Bytes.ofLe, Nat.add_comm]
    rfl
  simp only [BitVec.getLsbD_xor, BitVec.getLsbD_shiftLeft, BitVec.getLsbD_ofNat, hi, decide_true,
    Bool.true_and, hsum, Nat.testBit_two_pow_mul_add _ hbyte]
  by_cases hlow : i < 8
  · simp [hlow]
  · have hclear : byte.toNat.testBit i = false :=
      Nat.testBit_lt_two_pow (Nat.lt_of_lt_of_le hbyte (Nat.pow_le_pow_right (by omega) (by omega)))
    have hi' : i - 8 < w := by omega
    simp [hlow, hclear, hi']

/-- A run no longer than the register enters as one field. -/
theorem foldl_feed (x : BitVec w) {bytes : Bytes} (hlen : 8 * bytes.length ≤ w) :
    bytes.foldl (feed poly) x =
      (shift poly)^[8 * bytes.length] (x ^^^ BitVec.ofNat w (Bytes.ofLe bytes)) := by
  induction bytes generalizing x with
  | nil => simp [Bytes.ofLe]
  | cons byte bytes ih =>
    rw [List.length_cons] at hlen
    have hfree : ∀ i, w ≤ i + 8 → (BitVec.ofNat w (Bytes.ofLe bytes)).getLsbD i = false := by
      intro i hi
      rw [BitVec.getLsbD_ofNat, Nat.testBit_lt_two_pow, Bool.and_false]
      refine Nat.lt_of_lt_of_le (Bytes.ofLe_lt bytes) ?_
      rw [show 256 = 2 ^ 8 from rfl, ← Nat.pow_mul]
      exact Nat.pow_le_pow_right (by omega) (by omega)
    rw [List.foldl_cons, ih _ (by omega), List.length_cons, Nat.mul_succ, Function.iterate_add_apply,
      ofNat_ofLe_cons, ← BitVec.xor_assoc, shift_iterate_xor 8, shift_iterate_shiftLeft 8 hfree]
    rfl

/-- A run of bytes takes different states to different states. -/
theorem foldl_feed_injective (hpoly : poly.msb = true) (bytes : Bytes) :
    Function.Injective fun x ↦ bytes.foldl (feed poly) x := by
  induction bytes with
  | nil => exact fun x y h ↦ h
  | cons byte bytes ih =>
    intro x y h
    have hfeed : feed poly x byte = feed poly y byte := ih h
    simpa using (shift_injective hpoly).iterate 8 hfeed

/-- Runs no longer than the register are told apart by the state that they lead to. -/
theorem eq_of_foldl_feed (hpoly : poly.msb = true) {x : BitVec w} {run run' : Bytes}
    (hlen : 8 * run.length ≤ w) (heq : run.length = run'.length)
    (h : run.foldl (feed poly) x = run'.foldl (feed poly) x) : run = run' := by
  rw [foldl_feed x hlen, foldl_feed x (heq ▸ hlen), ← heq] at h
  have hfield : BitVec.ofNat w (Bytes.ofLe run) = BitVec.ofNat w (Bytes.ofLe run') := by
    simpa using (shift_injective hpoly).iterate _ h
  have hlt (bytes : Bytes) (hbytes : 8 * bytes.length ≤ w) : Bytes.ofLe bytes < 2 ^ w := by
    refine Nat.lt_of_lt_of_le (Bytes.ofLe_lt bytes) ?_
    rw [show 256 = 2 ^ 8 from rfl, ← Nat.pow_mul]
    exact Nat.pow_le_pow_right (by omega) hbytes
  have hvalue : Bytes.ofLe run = Bytes.ofLe run' := by
    have hnat := congrArg BitVec.toNat hfield
    rwa [BitVec.toNat_ofNat, BitVec.toNat_ofNat, Nat.mod_eq_of_lt (hlt run hlen),
      Nat.mod_eq_of_lt (hlt run' (heq ▸ hlen))] at hnat
  rw [← Bytes.toLe_ofLe run, ← Bytes.toLe_ofLe run', hvalue, heq]

end Gitility.ShiftRegister
