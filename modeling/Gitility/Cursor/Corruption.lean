import Gitility.Base.ShiftRegister
import Gitility.Cursor.Codec

/-!
# Corrupted cursors

The checksum of `crates/gitility-core/src/cursor.rs` is a shift register that every byte of a cursor
passes through, the stored checksum included: every encoding leaves the register in one and the same
state. Four bytes are no longer than the register, so two encodings do not differ in one window of four.
-/

namespace Gitility.Cursor

open ShiftRegister

/-- The polynomial of `crc32`. -/
def crcPolynomial : BitVec 32 := 0xedb88320#32

/-- `u32::MAX`, with which `crc32` starts. -/
def crcStart : BitVec 32 := BitVec.allOnes 32

/-! ### The register of the checksum -/

private theorem toBitVec_crcBit (crc : UInt32) : (crcBit crc).toBitVec = shift crcPolynomial crc.toBitVec := by
  have hlow : (crc &&& 1).toBitVec = BitVec.setWidth 32 (BitVec.ofBool (crc.toBitVec.getLsbD 0)) := by
    rw [UInt32.toBitVec_and]
    exact BitVec.and_one_eq_setWidth_ofBool_getLsbD
  have hmask : (0 - (crc &&& 1)).toBitVec = if crc.toBitVec.getLsbD 0 then BitVec.allOnes 32 else 0 := by
    rw [UInt32.toBitVec_sub, hlow]
    cases crc.toBitVec.getLsbD 0 <;> rfl
  simp only [crcBit, UInt32.toBitVec_xor, UInt32.toBitVec_and, hmask, shift]
  cases crc.toBitVec.getLsbD 0
  · simp
  · simp only [if_true, BitVec.and_allOnes]
    rfl

private theorem toBitVec_crcByte (crc : UInt32) (byte : UInt8) :
    (crcByte crc byte).toBitVec = feed crcPolynomial crc.toBitVec byte := by
  have hiterate (n : ℕ) (x : UInt32) :
      ((crcBit^[n]) x).toBitVec = (shift crcPolynomial)^[n] x.toBitVec := by
    induction n generalizing x with
    | zero => rfl
    | succ n ih => rw [Function.iterate_succ_apply, Function.iterate_succ_apply, ih, toBitVec_crcBit]
  have hbyte : byte.toUInt32.toBitVec = BitVec.ofNat 32 byte.toNat := by
    apply BitVec.eq_of_toNat_eq
    simp
  rw [crcByte, hiterate, UInt32.toBitVec_xor, hbyte, feed]

private theorem toBitVec_foldl_crcByte (crc : UInt32) (bytes : Bytes) :
    (bytes.foldl crcByte crc).toBitVec = bytes.foldl (feed crcPolynomial) crc.toBitVec := by
  induction bytes generalizing crc with
  | nil => rfl
  | cons byte bytes ih => rw [List.foldl_cons, List.foldl_cons, ih, toBitVec_crcByte]

private theorem toBitVec_crc32 (bytes : Bytes) :
    (crc32 bytes).toBitVec = ~~~(bytes.foldl (feed crcPolynomial) crcStart) := by
  rw [crc32, UInt32.toBitVec_not, toBitVec_foldl_crcByte]
  rfl

/-- Every encoding leaves the register in the same state. -/
theorem foldl_feed_encode (cursor : Cursor) :
    cursor.encode.foldl (feed crcPolynomial) crcStart = (shift crcPolynomial)^[32] crcStart := by
  have hstored : BitVec.ofNat 32 (Bytes.ofLe (Bytes.toLe crcBytes (crc32 cursor.body).toNat)) =
      (crc32 cursor.body).toBitVec := by
    have hlt : (crc32 cursor.body).toNat < 256 ^ crcBytes := (crc32 cursor.body).toNat_lt
    rw [Bytes.ofLe_toLe_of_lt hlt]
    apply BitVec.eq_of_toNat_eq
    simp
  have hlen : (Bytes.toLe crcBytes (crc32 cursor.body).toNat).length = 4 := Bytes.length_toLe _ _
  rw [encode, List.foldl_append, ShiftRegister.foldl_feed _ (by rw [hlen]), hlen, hstored,
    toBitVec_crc32]
  congr 1
  rw [← BitVec.not_xor_right, BitVec.xor_self]
  rfl

/-! ### Windows -/

/-- Two byte strings that agree outside a window split into a common front, two windows and a common
back. -/
theorem split_of_agree {bytes bytes' : Bytes} {i n : ℕ} (hlen : bytes.length = bytes'.length)
    (hagree : ∀ j, j < i ∨ i + n ≤ j → bytes[j]? = bytes'[j]?) :
    bytes = bytes.take i ++ ((bytes.drop i).take n ++ bytes.drop (i + n)) ∧
    bytes' = bytes.take i ++ ((bytes'.drop i).take n ++ bytes.drop (i + n)) ∧
    ((bytes.drop i).take n).length = ((bytes'.drop i).take n).length := by
  have hsplit (l : Bytes) : l = l.take i ++ ((l.drop i).take n ++ l.drop (i + n)) := by
    rw [← List.drop_drop, List.take_append_drop, List.take_append_drop]
  have hfront : bytes.take i = bytes'.take i := by
    apply List.ext_getElem?
    intro j
    rw [List.getElem?_take, List.getElem?_take]
    split
    · exact hagree j (.inl ‹_›)
    · rfl
  have hback : bytes.drop (i + n) = bytes'.drop (i + n) := by
    apply List.ext_getElem?
    intro j
    rw [List.getElem?_drop, List.getElem?_drop]
    exact hagree _ (.inr (Nat.le_add_right _ _))
  refine ⟨hsplit bytes, ?_, by simp [hlen]⟩
  rw [hfront, hback]
  exact hsplit bytes'

/-- Two encodings of one length that agree outside four consecutive bytes are the same. -/
theorem encode_eq_of_agree {cursor cursor' : Cursor} {i : ℕ}
    (hlen : cursor.encode.length = cursor'.encode.length)
    (hagree : ∀ j, j < i ∨ i + 4 ≤ j → cursor.encode[j]? = cursor'.encode[j]?) :
    cursor.encode = cursor'.encode := by
  obtain ⟨hsplit, hsplit', hwindow⟩ := split_of_agree hlen hagree
  have hstate := (foldl_feed_encode cursor).trans (foldl_feed_encode cursor').symm
  rw [hsplit, hsplit', List.foldl_append, List.foldl_append, List.foldl_append, List.foldl_append] at hstate
  have hshort : ((cursor.encode.drop i).take 4).length ≤ 4 := List.length_take_le _ _
  have hpoly : crcPolynomial.msb = true := by decide
  have heq := eq_of_foldl_feed hpoly (by omega) hwindow (foldl_feed_injective hpoly _ hstate)
  rw [hsplit, hsplit', heq]

/-! ### Rejection -/

/-- A check whose only failure is an invalid cursor. -/
def Rejects {α : Type} (x : Except Error α) : Prop := ∀ e, x = .error e → e.code = .invalidCursor

namespace Rejects

variable {α β : Type}

private theorem bind {x : Except Error α} {f : α → Except Error β} (hx : Rejects x)
    (hf : ∀ a, Rejects (f a)) : Rejects (x >>= f) := by
  intro e h
  rcases Except.bind_eq_error.mp h with h | ⟨a, -, h⟩
  · exact hx e h
  · exact hf a e h

private theorem ensure {p : Prop} [Decidable p] (message : String) :
    Rejects (Gitility.ensure p (invalid message)) := by
  intro e h
  obtain ⟨-, rfl⟩ := ensure_eq_error.mp h
  rfl

private theorem orInvalid (value : Option α) (message : String) :
    Rejects (Cursor.orInvalid value message) := by
  intro e h
  cases value with
  | none => cases h; rfl
  | some _ => cases h

end Rejects

/-- Every error of `decode` is an invalid cursor. -/
theorem rejects_decode (bytes : Bytes) (expected : Expected) : Rejects (decode bytes expected) := by
  unfold decode
  refine .bind (.ensure _) fun _ ↦ .bind (.ensure _) fun _ ↦ .bind (.orInvalid _ _) fun _ ↦
    .bind (.ensure _) fun _ ↦ .bind (.ensure _) fun _ ↦ .bind (.ensure _) fun _ ↦ ?_
  refine .bind (.ensure _) fun _ ↦ .bind (.orInvalid _ _) fun (_, _) ↦ .bind (.ensure _) fun _ ↦ ?_
  refine .bind (.orInvalid _ _) fun (_, _) ↦ .bind (.orInvalid _ _) fun _ ↦ .bind (.ensure _) fun _ ↦ ?_
  refine .bind (.orInvalid _ _) fun (_, _) ↦ .bind (.orInvalid _ _) fun _ ↦ .bind (.ensure _) fun _ ↦ ?_
  refine .bind (.orInvalid _ _) fun (_, _) ↦ .bind (.orInvalid _ _) fun _ ↦
    .bind (.orInvalid _ _) fun (_, _) ↦ ?_
  refine .bind (.orInvalid _ _) fun (_, _) ↦ .bind (.orInvalid _ _) fun _ ↦
    .bind (.orInvalid _ _) fun (_, _) ↦ .bind (.ensure _) fun _ ↦ ?_
  intro e h
  cases h

/-- Corruption inside four consecutive bytes of an encoded cursor is detected under every expected
identity. -/
theorem decode_corrupted {cursor : Cursor} {bytes : Bytes} {i : ℕ}
    (hlen : bytes.length = cursor.encode.length) (hne : bytes ≠ cursor.encode)
    (hagree : ∀ j, j < i ∨ i + 4 ≤ j → bytes[j]? = cursor.encode[j]?) (expected : Expected) :
    ∃ e, decode bytes expected = .error e ∧ e.code = .invalidCursor := by
  cases hdecode : decode bytes expected with
  | error e => exact ⟨e, rfl, rejects_decode bytes expected e hdecode⟩
  | ok found =>
    obtain ⟨rfl, -⟩ := encode_of_decode hdecode
    exact absurd (encode_eq_of_agree hlen hagree) hne

/-- The last byte of the sample's body and the second byte of its checksum, cleared. -/
theorem decode_corrupted_sample :
    ∃ e, decode ((sample.encode.set 59 0).set 61 0) sample.toExpected = .error e ∧
      e.code = .invalidCursor := by
  have hlen : ((sample.encode.set 59 0).set 61 0).length = sample.encode.length := by simp
  have hne : (sample.encode.set 59 0).set 61 0 ≠ sample.encode := by decide +kernel
  refine decode_corrupted hlen hne (fun j (hj : j < 59 ∨ 59 + 4 ≤ j) ↦ ?_) _
  rw [List.getElem?_set_ne (by omega), List.getElem?_set_ne (by omega)]

end Gitility.Cursor
