import Mathlib.Data.Nat.Digits.Lemmas
import Gitility.Base.LongArithmetic
import Gitility.Refs.Cursor

/-!
# Reference cursors come back

The 215 bytes that reference names consist of are numbered. A block of 32 of them is a number below
`215 ^ 32`, which is below `256 ^ 31`, so that 31 bytes hold it and nothing is ever carried out of them.
-/

namespace Gitility.RefCursor

variable {bytes block packed position encoded : Bytes} {rank byte seen : UInt8} {carry : ℕ}

/-! ### The alphabet -/

/-- The bytes of the alphabet below `0x80`. -/
def lowAlphabet : Bytes :=
  ((List.range' 0x21 94).map UInt8.ofNat).filter fun byte ↦ ¬ isForbiddenRefByte byte

private theorem rank_lowAlphabet : ∀ item ∈ lowAlphabet.zipIdx,
    refNameAlphabetRank item.1 = some (UInt8.ofNat item.2) ∧ item.2 < 87 ∧ item.1 < 0x80 := by
  decide

/-- The loop counts the bytes that are not forbidden. -/
theorem findRank_eq (hbound : seen.toNat + bytes.length < 256) (hle : seen ≤ rank) :
    findRank rank bytes seen =
      (bytes.filter fun byte ↦ ¬ isForbiddenRefByte byte)[rank.toNat - seen.toNat]? := by
  have hle' : seen.toNat ≤ rank.toNat := UInt8.le_iff_toNat_le.mp hle
  induction bytes generalizing seen with
  | nil => rfl
  | cons byte bytes ih =>
    rw [List.length_cons] at hbound
    rw [findRank]
    by_cases hforbidden : isForbiddenRefByte byte = true
    · rw [if_pos hforbidden, List.filter_cons_of_neg (by simp [hforbidden]), ih (by omega) hle hle']
    · rw [if_neg hforbidden, List.filter_cons_of_pos (by simp [hforbidden])]
      by_cases hseen : seen = rank
      · simp [hseen]
      · have hne : seen.toNat ≠ rank.toNat := fun h ↦ hseen (UInt8.toNat_inj.mp h)
        have hnext : (seen + 1).toNat = seen.toNat + 1 := by
          rw [UInt8.toNat_add]
          simp
          omega
        have hindex : rank.toNat - seen.toNat = rank.toNat - (seen + 1).toNat + 1 := by omega
        rw [if_neg hseen, ih (by omega) (UInt8.le_iff_toNat_le.mpr (by omega)) (by omega), hindex,
          List.getElem?_cons_succ]

private theorem refNameAlphabetByte_low (h : rank.toNat < 87) :
    refNameAlphabetByte rank = lowAlphabet[rank.toNat]? := by
  have hlt : ¬ 87 ≤ rank := by
    rw [UInt8.le_iff_toNat_le]
    simpa using h
  have hloop : findRank rank ((List.range' 0x21 94).map UInt8.ofNat) 0 = _ :=
    findRank_eq (by simp) (UInt8.le_iff_toNat_le.mpr (by simp))
  rw [refNameAlphabetByte, if_neg hlt, hloop]
  rfl

private theorem rank_of_lowAlphabet {k : ℕ} (h : lowAlphabet[k]? = some byte) :
    refNameAlphabetRank byte = some (UInt8.ofNat k) ∧ k < 87 := by
  obtain ⟨hrank, hlt, -⟩ := rank_lowAlphabet (byte, k) (List.mk_mem_zipIdx_iff_getElem?.mpr h)
  exact ⟨hrank, hlt⟩

private theorem mem_lowAlphabet (h : ¬ (¬ (0x21 ≤ byte ∧ byte ≤ 0x7e) ∨ isForbiddenRefByte byte)) :
    byte ∈ lowAlphabet := by
  obtain ⟨hrange, hforbidden⟩ := not_or.mp h
  obtain ⟨hlow, hhigh⟩ := not_not.mp hrange
  have hlow' : 0x21 ≤ byte.toNat := UInt8.le_iff_toNat_le.mp hlow
  have hhigh' : byte.toNat ≤ 0x7e := UInt8.le_iff_toNat_le.mp hhigh
  refine List.mem_filter.mpr ⟨List.mem_map.mpr ⟨byte.toNat, ?_, UInt8.ofNat_toNat⟩, ?_⟩
  · rw [List.mem_range'_1]
    omega
  · simpa using hforbidden

/-- Above `0x80` the ranks are an interval. -/
theorem high_rank (h : 0x80 ≤ byte) : (87 + (byte - 0x80)).toNat = byte.toNat - 41 ∧ 128 ≤ byte.toNat := by
  have hle : 128 ≤ byte.toNat := UInt8.le_iff_toNat_le.mp h
  have hlt := byte.toNat_lt
  rw [UInt8.toNat_add, UInt8.toNat_sub_of_le _ _ h]
  simp
  omega

private theorem high_byte (h : 87 ≤ rank) (h' : rank ≤ 214) :
    (0x80 + (rank - 87)).toNat = rank.toNat + 41 ∧ 87 ≤ rank.toNat ∧ rank.toNat ≤ 214 := by
  have hle : 87 ≤ rank.toNat := UInt8.le_iff_toNat_le.mp h
  have hle' : rank.toNat ≤ 214 := UInt8.le_iff_toNat_le.mp h'
  rw [UInt8.toNat_add, UInt8.toNat_sub_of_le _ _ h]
  simp
  omega

private theorem byte_of_rank (h : refNameAlphabetRank byte = some rank) :
    refNameAlphabetByte rank = some byte ∧ rank.toNat < 215 := by
  rw [refNameAlphabetRank] at h
  split at h
  · next hhigh =>
    obtain rfl := Option.some.inj h
    obtain ⟨hrank, hbyte⟩ := high_rank hhigh
    have hlt := byte.toNat_lt
    have hle : 87 ≤ 87 + (byte - 0x80) := by
      rw [UInt8.le_iff_toNat_le, hrank]
      simp
      omega
    have hle' : 87 + (byte - 0x80) ≤ 214 := by
      rw [UInt8.le_iff_toNat_le, hrank]
      simp
      omega
    have hback := (high_byte hle hle').1
    rw [refNameAlphabetByte, if_pos hle, if_pos hle']
    exact ⟨congrArg some (UInt8.toNat_inj.mp (by omega)), by omega⟩
  · split at h
    · cases h
    · next hlow =>
      obtain ⟨k, hk⟩ := List.mem_iff_getElem?.mp (mem_lowAlphabet hlow)
      obtain ⟨hrank, hlt⟩ := rank_of_lowAlphabet hk
      rw [refNameAlphabetRank, if_neg ‹_›, if_neg hlow, h] at hrank
      obtain rfl := Option.some.inj hrank
      have hvalue : (UInt8.ofNat k).toNat = k := by
        simp
        omega
      rw [refNameAlphabetByte_low (by omega), hvalue]
      exact ⟨hk, by omega⟩

private theorem rank_of_byte (h : refNameAlphabetByte rank = some byte) : refNameAlphabetRank byte = some rank := by
  by_cases hhigh : 87 ≤ rank
  · rw [refNameAlphabetByte, if_pos hhigh] at h
    split at h
    · next hle =>
      obtain rfl := Option.some.inj h
      obtain ⟨hbyte, hrank, hrank'⟩ := high_byte hhigh hle
      have hlow : 0x80 ≤ 0x80 + (rank - 87) := by
        rw [UInt8.le_iff_toNat_le, hbyte]
        simp
        omega
      have hback := (high_rank hlow).1
      rw [refNameAlphabetRank, if_pos hlow]
      exact congrArg some (UInt8.toNat_inj.mp (by omega))
    · cases h
  · have hlow : rank.toNat < 87 := UInt8.lt_iff_toNat_lt.mp (UInt8.not_le.mp hhigh)
    rw [refNameAlphabetByte_low hlow] at h
    rw [(rank_of_lowAlphabet h).1, UInt8.ofNat_toNat]

/-! ### Blocks -/

/-- The bytes of a block with their ranks. -/
abbrev Ranked (block ranks : Bytes) : Prop :=
  List.Forall₂ (fun byte rank ↦ refNameAlphabetRank byte = some rank) block ranks

/-- The number that a block denotes, its first rank the highest digit. -/
def blockValue (ranks : Bytes) : ℕ := Nat.ofDigits refNameAlphabetLen (ranks.map UInt8.toNat).reverse

private theorem blockValue_cons (rank : UInt8) (ranks : Bytes) :
    blockValue (rank :: ranks) = refNameAlphabetLen ^ ranks.length * rank.toNat + blockValue ranks := by
  rw [blockValue, List.map_cons, List.reverse_cons, Nat.ofDigits_append, Nat.ofDigits_singleton,
    List.length_reverse, List.length_map, Nat.add_comm]
  rfl

private theorem blockValue_concat (ranks : Bytes) (rank : UInt8) :
    blockValue (ranks ++ [rank]) = rank.toNat + refNameAlphabetLen * blockValue ranks := by
  rw [blockValue, List.map_append, List.map_singleton, List.reverse_append, List.reverse_singleton,
    List.singleton_append, Nat.ofDigits_cons]
  rfl

/-- Equally many ranks are told apart by their number. -/
theorem blockValue_inj {ranks ranks' : Bytes} (hlength : ranks.length = ranks'.length)
    (h : ∀ rank ∈ ranks, rank.toNat < refNameAlphabetLen)
    (h' : ∀ rank ∈ ranks', rank.toNat < refNameAlphabetLen) (heq : blockValue ranks = blockValue ranks') :
    ranks = ranks' := by
  have hdigits := Nat.ofDigits_inj_of_len_eq (b := refNameAlphabetLen) (by decide) (by simpa using hlength)
    (by simpa using h) (by simpa using h') heq
  exact List.map_injective_iff.mpr (fun a b hab ↦ UInt8.toNat_inj.mp hab) (List.reverse_injective hdigits)

private theorem rank_lt_of_ranked {ranks : Bytes} (h : Ranked block ranks) :
    ∀ rank ∈ ranks, rank.toNat < refNameAlphabetLen := by
  induction h with
  | nil => simp
  | cons hrank _ ih => exact List.forall_mem_cons.mpr ⟨(byte_of_rank hrank).2, ih⟩

/-- A symbol is added without overflow. -/
theorem addSymbol_eq (hcarry : carry < 256) :
    addSymbol packed carry = .ok (Bytes.mulAdd refNameAlphabetLen packed carry) := by
  induction packed generalizing carry with
  | nil => rfl
  | cons slot rest ih =>
    have hslot := slot.toNat_lt
    have hlen : refNameAlphabetLen = 215 := rfl
    have hproduct : slot.toNat * refNameAlphabetLen < 2 ^ 16 := by
      rw [hlen]
      omega
    have hvalue : slot.toNat * refNameAlphabetLen + carry < 2 ^ 16 := by
      rw [hlen]
      omega
    have hnext : (slot.toNat * refNameAlphabetLen + carry) >>> 8 =
        (slot.toNat * refNameAlphabetLen + carry) / 256 := Nat.shiftRight_eq_div_pow _ 8
    have hlow : UInt8.ofNat (slot.toNat * refNameAlphabetLen + carry) =
        UInt8.ofNat ((slot.toNat * refNameAlphabetLen + carry) % 256) := UInt8.toNat_inj.mp (by simp)
    have hsmall : (slot.toNat * refNameAlphabetLen + carry) / 256 < 256 := by omega
    rw [addSymbol, checkedU16, if_pos hproduct, Outcome.ok_bind, checkedU16, if_pos hvalue, Outcome.ok_bind,
      hnext, ih hsmall, Outcome.ok_bind, Bytes.mulAdd, hlow]
    rfl

/-- A block of up to 32 symbols fits. -/
theorem power_le {k : ℕ} (h : k ≤ compactRefBlockSymbols) :
    refNameAlphabetLen ^ k ≤ 256 ^ compactRefBlockBytes :=
  (Nat.pow_le_pow_right (by decide) h).trans (by decide)

private theorem addSymbol_fits {k : ℕ} (hlength : packed.length = compactRefBlockBytes)
    (hvalue : Bytes.ofLe packed < refNameAlphabetLen ^ k) (hk : k < compactRefBlockSymbols)
    (hrank : rank.toNat < refNameAlphabetLen) :
    ∃ next, addSymbol packed rank.toNat = .ok (next, 0) ∧ next.length = compactRefBlockBytes ∧
      Bytes.ofLe next = refNameAlphabetLen * Bytes.ofLe packed + rank.toNat ∧
      Bytes.ofLe next < refNameAlphabetLen ^ (k + 1) := by
  have hnext : refNameAlphabetLen * Bytes.ofLe packed + rank.toNat < refNameAlphabetLen ^ (k + 1) := by
    calc refNameAlphabetLen * Bytes.ofLe packed + rank.toNat
        < refNameAlphabetLen * Bytes.ofLe packed + refNameAlphabetLen := Nat.add_lt_add_left hrank _
      _ = refNameAlphabetLen * (Bytes.ofLe packed + 1) := (Nat.mul_succ _ _).symm
      _ ≤ refNameAlphabetLen * refNameAlphabetLen ^ k := Nat.mul_le_mul_left _ hvalue
      _ = refNameAlphabetLen ^ (k + 1) := (Nat.pow_succ').symm
  have hfits : refNameAlphabetLen * Bytes.ofLe packed + rank.toNat < 256 ^ packed.length := by
    rw [hlength]
    exact hnext.trans_le (power_le hk)
  obtain ⟨hcarry, hpacked⟩ := Bytes.mulAdd_of_lt hfits
  refine ⟨(Bytes.mulAdd refNameAlphabetLen packed rank.toNat).1, ?_, ?_, hpacked, by rwa [hpacked]⟩
  · rw [addSymbol_eq rank.toNat_lt, ← hcarry]
  · rw [Bytes.length_mulAdd, hlength]

/-- The symbols of a block become its number. -/
theorem packSymbols_ranked {ranks : Bytes} {k : ℕ} (h : Ranked block ranks)
    (hlength : packed.length = compactRefBlockBytes) (hvalue : Bytes.ofLe packed < refNameAlphabetLen ^ k)
    (hk : k + block.length ≤ compactRefBlockSymbols) :
    ∃ result, packSymbols block packed = .ok result ∧ result.length = compactRefBlockBytes ∧
      Bytes.ofLe result = refNameAlphabetLen ^ ranks.length * Bytes.ofLe packed + blockValue ranks := by
  induction h generalizing packed k with
  | nil => exact ⟨packed, rfl, hlength, by simp [blockValue]⟩
  | @cons byte rank block ranks hrank hranks ih =>
    rw [List.length_cons] at hk
    obtain ⟨next, hadd, hnext, hsum, hbound⟩ :=
      addSymbol_fits hlength hvalue (by omega) (byte_of_rank hrank).2
    obtain ⟨result, hpack, hresult, hnumber⟩ := ih hnext hbound (by omega)
    refine ⟨result, ?_, hresult, ?_⟩
    · rw [packSymbols, hrank]
      change (addSymbol packed rank.toNat >>= _) = _
      rw [hadd, Outcome.ok_bind]
      exact hpack
    · rw [hnumber, hsum, blockValue_cons, List.length_cons, Nat.pow_succ]
      ring

/-- Packing neither overflows nor leaves a carry, whatever the bytes are. -/
theorem packSymbols_ne_diverged {k : ℕ} (hlength : packed.length = compactRefBlockBytes)
    (hvalue : Bytes.ofLe packed < refNameAlphabetLen ^ k)
    (hk : k + block.length ≤ compactRefBlockSymbols) :
    packSymbols block packed ≠ .diverged := by
  induction block generalizing packed k with
  | nil => exact fun h ↦ by cases h
  | cons byte block ih =>
    rw [List.length_cons] at hk
    rw [packSymbols]
    cases hrank : refNameAlphabetRank byte with
    | none => exact fun h ↦ by cases h
    | some rank =>
      obtain ⟨next, hadd, hnext, -, hbound⟩ :=
        addSymbol_fits hlength hvalue (by omega) (byte_of_rank hrank).2
      change (addSymbol packed rank.toNat >>= _) ≠ _
      rw [hadd, Outcome.ok_bind]
      exact ih hnext hbound (by omega)

/-- Only bytes of the alphabet are packed. -/
theorem exists_ranked_of_packSymbols {result : Bytes} (h : packSymbols block packed = .ok result) :
    ∃ ranks, Ranked block ranks := by
  induction block generalizing packed with
  | nil => exact ⟨[], .nil⟩
  | cons byte block ih =>
    rw [packSymbols, Outcome.bind_eq_ok] at h
    obtain ⟨rank, hrank, h⟩ := h
    obtain ⟨added, -, h⟩ := Outcome.bind_eq_ok.mp h
    dsimp only at h
    split at h
    · obtain ⟨ranks, hranked⟩ := ih h
      exact ⟨rank :: ranks, .cons (Cursor.orInvalid_eq_ok.mp (Outcome.ofExcept_eq_ok.mp hrank)) hranked⟩
    · cases h

/-- A block of the alphabet becomes 31 bytes with its number. -/
theorem packBlock_ranked {ranks : Bytes} (h : Ranked block ranks)
    (hblock : block.length = compactRefBlockSymbols) :
    ∃ packed, packBlock block = .ok packed ∧ packed.length = compactRefBlockBytes ∧
      Bytes.ofLe packed = blockValue ranks := by
  have hzero : Bytes.ofLe (List.replicate compactRefBlockBytes 0) < refNameAlphabetLen ^ 0 := by
    rw [Bytes.ofLe_replicate_zero]
    exact Nat.one_pos
  obtain ⟨packed, hpack, hlength, hvalue⟩ :=
    packSymbols_ranked h List.length_replicate hzero (by rw [hblock, Nat.zero_add])
  rw [Bytes.ofLe_replicate_zero, Nat.mul_zero, Nat.zero_add] at hvalue
  exact ⟨packed, hpack, hlength, hvalue⟩

private theorem packBlock_ne_diverged (h : block.length ≤ compactRefBlockSymbols) :
    packBlock block ≠ .diverged := by
  have hzero : Bytes.ofLe (List.replicate compactRefBlockBytes 0) < refNameAlphabetLen ^ 0 := by
    rw [Bytes.ofLe_replicate_zero]
    exact Nat.one_pos
  exact packSymbols_ne_diverged List.length_replicate hzero (by rwa [Nat.zero_add])

/-- A step of the division is one of long division, without overflow. -/
theorem divideBlock_eq (bytes : Bytes) : divideBlock bytes = Bytes.divMod refNameAlphabetLen bytes := by
  induction bytes with
  | nil => rfl
  | cons slot rest ih =>
    have hlt : (Bytes.divMod refNameAlphabetLen rest).2 < 215 := (Bytes.ofLe_divMod (by decide) rest).2
    have hslot : slot.toNat < 2 ^ 8 := slot.toNat_lt
    have hshift : (Bytes.divMod refNameAlphabetLen rest).2 <<< 8 =
        (Bytes.divMod refNameAlphabetLen rest).2 * 256 := Nat.shiftLeft_eq _ 8
    have hword : ((Bytes.divMod refNameAlphabetLen rest).2 <<< 8) % 2 ^ 16 ||| slot.toNat =
        (Bytes.divMod refNameAlphabetLen rest).2 * 256 + slot.toNat := by
      rw [Nat.mod_eq_of_lt (by omega), ← Nat.shiftLeft_add_eq_or_of_lt hslot, hshift]
    rw [divideBlock, ih]
    dsimp only
    rw [hword]
    rfl

/-- The divisions take the digits off a number. -/
theorem unpackRanks_spec (n : ℕ) (bytes : Bytes) :
    (unpackRanks n bytes).1.length = n ∧
      (∀ rank ∈ (unpackRanks n bytes).1, rank.toNat < refNameAlphabetLen) ∧
      Bytes.ofLe bytes = refNameAlphabetLen ^ n * Bytes.ofLe (unpackRanks n bytes).2 +
        blockValue (unpackRanks n bytes).1 := by
  induction n generalizing bytes with
  | zero => simp [unpackRanks, blockValue]
  | succ n ih =>
    obtain ⟨hvalue, hlt⟩ := Bytes.ofLe_divMod (show 0 < refNameAlphabetLen by decide) bytes
    obtain ⟨hlength, hranks, hrest⟩ := ih (Bytes.divMod refNameAlphabetLen bytes).1
    have hrank : (UInt8.ofNat (Bytes.divMod refNameAlphabetLen bytes).2).toNat =
        (Bytes.divMod refNameAlphabetLen bytes).2 := by
      have hlen : refNameAlphabetLen = 215 := rfl
      rw [UInt8.toNat_ofNat', Nat.mod_eq_of_lt (by omega)]
    rw [unpackRanks, divideBlock_eq]
    dsimp only
    refine ⟨by rw [List.length_append, hlength, List.length_singleton], ?_, ?_⟩
    · intro rank hmem
      rcases List.mem_append.mp hmem with hmem | hmem
      · exact hranks rank hmem
      · rw [List.mem_singleton.mp hmem, hrank]
        exact hlt
    · rw [blockValue_concat, hrank, hvalue, hrest, Nat.pow_succ]
      ring

private theorem blockValue_lt {ranks : Bytes} (h : ∀ rank ∈ ranks, rank.toNat < refNameAlphabetLen) :
    blockValue ranks < refNameAlphabetLen ^ ranks.length := by
  have hlt := Nat.ofDigits_lt_base_pow_length (show 1 < refNameAlphabetLen by decide)
    (l := (ranks.map UInt8.toNat).reverse) (by simpa using h)
  rwa [List.length_reverse, List.length_map] at hlt

/-- A block is accepted when it is the number of 32 ranks, and gives their bytes. -/
theorem unpackBlock_eq_ok : unpackBlock packed = .ok block ↔
    ∃ ranks, Ranked block ranks ∧ ranks.length = compactRefBlockSymbols ∧
      blockValue ranks = Bytes.ofLe packed := by
  obtain ⟨hlength, hranks, hvalue⟩ := unpackRanks_spec compactRefBlockSymbols packed
  have hspec : unpackBlock packed = .ok block ↔
      Bytes.ofLe (unpackRanks compactRefBlockSymbols packed).2 = 0 ∧
      Ranked block (unpackRanks compactRefBlockSymbols packed).1 := by
    simp only [unpackBlock, Except.bind_eq_ok, ensure_eq_ok, exists_const, Except.mapM_eq_ok,
      ← Bytes.ofLe_eq_zero]
    refine and_congr_right fun _ ↦ ?_
    constructor
    · exact fun h ↦ h.flip.imp fun byte rank hbyte ↦ rank_of_byte (Cursor.orInvalid_eq_ok.mp hbyte)
    · exact fun h ↦ h.flip.imp fun rank byte hrank ↦ Cursor.orInvalid_eq_ok.mpr (byte_of_rank hrank).1
  rw [hspec]
  constructor
  · rintro ⟨hrest, hranked⟩
    rw [hrest, Nat.mul_zero, Nat.zero_add] at hvalue
    exact ⟨_, hranked, hlength, hvalue.symm⟩
  · rintro ⟨ranks, hranked, hcount, heq⟩
    have hlt := blockValue_lt (rank_lt_of_ranked hranked)
    rw [heq, hcount, hvalue] at hlt
    -- The ranks leave no room for a rest.
    have hrest : Bytes.ofLe (unpackRanks compactRefBlockSymbols packed).2 = 0 := by
      by_contra hne
      have hpos := Nat.le_mul_of_pos_right (refNameAlphabetLen ^ compactRefBlockSymbols)
        (Nat.pos_of_ne_zero hne)
      omega
    rw [hrest, Nat.mul_zero, Nat.zero_add, ← heq] at hvalue
    have hsame := blockValue_inj (hcount.trans hlength.symm) (rank_lt_of_ranked hranked) hranks hvalue
    exact ⟨hrest, hsame ▸ hranked⟩

/-- Packing and unpacking a block invert each other. -/
theorem unpackBlock_iff_packBlock (hpacked : packed.length = compactRefBlockBytes) :
    unpackBlock packed = .ok block ↔
      packBlock block = .ok packed ∧ block.length = compactRefBlockSymbols := by
  rw [unpackBlock_eq_ok]
  constructor
  · rintro ⟨ranks, hranked, hcount, hvalue⟩
    have hblock := hranked.length_eq.trans hcount
    obtain ⟨packed', hpack, hlength, hvalue'⟩ := packBlock_ranked hranked hblock
    rw [← Bytes.ofLe_inj (hlength.trans hpacked.symm) (hvalue'.trans hvalue)]
    exact ⟨hpack, hblock⟩
  · rintro ⟨hpack, hblock⟩
    obtain ⟨ranks, hranked⟩ := exists_ranked_of_packSymbols hpack
    obtain ⟨packed', hpack', -, hvalue⟩ := packBlock_ranked hranked hblock
    rw [hpack] at hpack'
    cases hpack'
    exact ⟨ranks, hranked, hranked.length_eq.symm.trans hblock, hvalue.symm⟩

private theorem length_of_packBlock (h : packBlock block = .ok packed)
    (hblock : block.length = compactRefBlockSymbols) : packed.length = compactRefBlockBytes := by
  obtain ⟨ranks, hranked⟩ := exists_ranked_of_packSymbols h
  obtain ⟨packed', hpack', hlength, -⟩ := packBlock_ranked hranked hblock
  rw [h] at hpack'
  cases hpack'
  exact hlength

/-! ### Positions -/

private theorem packBlocks_ne_diverged (n : ℕ) (position : Bytes) : packBlocks n position ≠ .diverged := by
  induction n generalizing position with
  | zero => exact fun h ↦ by cases h
  | succ n ih =>
    rw [packBlocks]
    cases hblock : packBlock (position.take compactRefBlockSymbols) with
    | diverged => exact absurd hblock (packBlock_ne_diverged (List.length_take_le _ _))
    | error e => exact fun h ↦ by cases h
    | ok packed =>
      rw [Outcome.ok_bind]
      cases hrest : packBlocks n (position.drop compactRefBlockSymbols) with
      | diverged => exact absurd hrest (ih _)
      | error e => exact fun h ↦ by cases h
      | ok rest => exact fun h ↦ by cases h

/-- Unpacked blocks are packed to what they came from. -/
theorem packBlocks_of_unpackBlocks {n : ℕ} (h : unpackBlocks n encoded = .ok position)
    (hlength : n * compactRefBlockBytes ≤ encoded.length) (tail : Bytes) :
    position.length = n * compactRefBlockSymbols ∧
      packBlocks n (position ++ tail) = .ok (encoded.take (n * compactRefBlockBytes)) := by
  induction n generalizing encoded position with
  | zero =>
    cases h
    simp [packBlocks]
  | succ n ih =>
    rw [Nat.succ_mul] at hlength
    simp only [unpackBlocks, Except.bind_eq_ok] at h
    obtain ⟨block, hblock, rest, hrest, h⟩ := h
    cases h
    have hfirst : (encoded.take compactRefBlockBytes).length = compactRefBlockBytes :=
      List.length_take_of_le (by omega)
    obtain ⟨hpack, hcount⟩ := (unpackBlock_iff_packBlock hfirst).mp hblock
    obtain ⟨hrestLength, hpackRest⟩ := ih hrest (by rw [List.length_drop]; omega)
    refine ⟨by rw [List.length_append, hcount, hrestLength, Nat.succ_mul, Nat.add_comm], ?_⟩
    rw [packBlocks, List.append_assoc, List.take_left' hcount, List.drop_left' hcount, hpack,
      Outcome.ok_bind, hpackRest, Outcome.ok_bind, Nat.succ_mul, Nat.add_comm _ compactRefBlockBytes,
      List.take_add]
    rfl

/-- Packed blocks are unpacked to what they came from. -/
theorem unpackBlocks_of_packBlocks {n : ℕ} (h : packBlocks n position = .ok packed)
    (hlength : n * compactRefBlockSymbols ≤ position.length) (tail : Bytes) :
    packed.length = n * compactRefBlockBytes ∧
      unpackBlocks n (packed ++ tail) = .ok (position.take (n * compactRefBlockSymbols)) := by
  induction n generalizing position packed with
  | zero =>
    cases h
    simp [unpackBlocks]
  | succ n ih =>
    rw [Nat.succ_mul] at hlength
    simp only [packBlocks, Outcome.bind_eq_ok] at h
    obtain ⟨first, hfirst, rest, hrest, h⟩ := h
    cases h
    have hblock : (position.take compactRefBlockSymbols).length = compactRefBlockSymbols :=
      List.length_take_of_le (by omega)
    have hcount := length_of_packBlock hfirst hblock
    have hunpack := (unpackBlock_iff_packBlock hcount).mpr ⟨hfirst, hblock⟩
    obtain ⟨hrestLength, hunpackRest⟩ := ih hrest (by rw [List.length_drop]; omega)
    refine ⟨by rw [List.length_append, hcount, hrestLength, Nat.succ_mul, Nat.add_comm], ?_⟩
    have hblocks : unpackBlocks (n + 1) (first ++ (rest ++ tail)) =
        .ok (position.take compactRefBlockSymbols ++
          (position.drop compactRefBlockSymbols).take (n * compactRefBlockSymbols)) := by
      simp only [unpackBlocks, Except.bind_eq_ok]
      rw [List.take_left' hcount, List.drop_left' hcount]
      exact ⟨_, hunpack, _, hunpackRest, rfl⟩
    rw [List.append_assoc, hblocks, Nat.succ_mul, Nat.add_comm _ compactRefBlockSymbols, List.take_add]

/-- A byte that Git allows in a reference name: no control byte, no blank and none of `*:?[\^~`. -/
def GitRefByte (byte : UInt8) : Prop := 0x20 < byte ∧ byte ≠ 0x7f ∧ byte ∉ forbiddenRefBytes
  deriving Decidable

private theorem exists_rank (h : GitRefByte byte) : ∃ rank, refNameAlphabetRank byte = some rank := by
  obtain ⟨hlow, hdel, hforbidden⟩ := h
  rw [refNameAlphabetRank]
  split
  · exact ⟨_, rfl⟩
  · next hhigh =>
    have hrange : 0x21 ≤ byte ∧ byte ≤ 0x7e := by
      have hlow' : 0x20 < byte.toNat := UInt8.lt_iff_toNat_lt.mp hlow
      have hhigh' : byte.toNat < 0x80 := UInt8.lt_iff_toNat_lt.mp (UInt8.not_le.mp hhigh)
      have hdel' : byte.toNat ≠ 0x7f := fun heq ↦ hdel (UInt8.toNat_inj.mp heq)
      exact ⟨UInt8.le_iff_toNat_le.mpr hlow', UInt8.le_iff_toNat_le.mpr (by simp; omega)⟩
    have hallowed : isForbiddenRefByte byte = false := by simpa [isForbiddenRefByte] using hforbidden
    rw [if_neg (by simp [hrange, hallowed])]
    exact ⟨_, rfl⟩

private theorem exists_ranked (h : ∀ byte ∈ block, GitRefByte byte) : ∃ ranks, Ranked block ranks := by
  induction block with
  | nil => exact ⟨[], .nil⟩
  | cons byte block ih =>
    obtain ⟨hbyte, hblock⟩ := List.forall_mem_cons.mp h
    obtain ⟨rank, hrank⟩ := exists_rank hbyte
    obtain ⟨ranks, hranks⟩ := ih hblock
    exact ⟨rank :: ranks, .cons hrank hranks⟩

private theorem exists_packBlocks {n : ℕ} (h : ∀ byte ∈ position, GitRefByte byte)
    (hlength : n * compactRefBlockSymbols ≤ position.length) :
    ∃ packed, packBlocks n position = .ok packed := by
  induction n generalizing position with
  | zero => exact ⟨[], rfl⟩
  | succ n ih =>
    rw [Nat.succ_mul] at hlength
    obtain ⟨ranks, hranked⟩ := exists_ranked fun byte hbyte ↦
      h byte (List.mem_of_mem_take (i := compactRefBlockSymbols) hbyte)
    obtain ⟨first, hfirst, -⟩ := packBlock_ranked hranked (List.length_take_of_le (by omega))
    have hroom : n * compactRefBlockSymbols ≤ (position.drop compactRefBlockSymbols).length := by
      rw [List.length_drop]
      omega
    obtain ⟨rest, hrest⟩ := ih (fun byte hbyte ↦ h byte (List.mem_of_mem_drop hbyte)) hroom
    exact ⟨first ++ rest, by rw [packBlocks, hfirst, Outcome.ok_bind, hrest]; rfl⟩

private theorem encodeCompactRefPosition_ne_diverged (position : Bytes) :
    encodeCompactRefPosition position ≠ .diverged := by
  rw [encodeCompactRefPosition]
  by_cases hlength : position.length ≤ 65535
  · rw [ensure, if_pos hlength, Outcome.ofExcept_ok, Outcome.ok_bind]
    dsimp only
    cases hblocks : packBlocks (position.length / compactRefBlockSymbols) position with
    | diverged => exact absurd hblocks (packBlocks_ne_diverged _ _)
    | error e => exact fun h ↦ by cases h
    | ok blocks => exact fun h ↦ by cases h
  · rw [ensure, if_neg hlength]
    exact fun h ↦ by cases h

/-- A name is split into blocks and a tail. -/
theorem blocks_le (position : Bytes) :
    position.length / compactRefBlockSymbols * compactRefBlockSymbols ≤ position.length :=
  Nat.div_mul_le_self _ _

/-- A name of the alphabet is packed, and comes back. -/
theorem decode_encodeCompactRefPosition (hbytes : ∀ byte ∈ position, GitRefByte byte)
    (hlength : position.length ≤ RefDb.maxRefNameBytes) :
    ∃ compact, encodeCompactRefPosition position = .ok compact ∧
      compact.length = 2 + position.length / compactRefBlockSymbols * compactRefBlockBytes +
        position.length % compactRefBlockSymbols ∧
      decodeCompactRefPosition compact = .ok position := by
  have hmax : position.length ≤ 4096 := hlength
  obtain ⟨blocks, hpack⟩ := exists_packBlocks hbytes (blocks_le position)
  have htail : (position.drop (position.length / compactRefBlockSymbols * compactRefBlockSymbols)).length =
      position.length % compactRefBlockSymbols := by
    rw [List.length_drop, Nat.mod_eq_sub_div_mul]
  obtain ⟨hcount, hunpack⟩ := unpackBlocks_of_packBlocks hpack (blocks_le position)
    (position.drop (position.length / compactRefBlockSymbols * compactRefBlockSymbols))
  have hfield : Bytes.ofLe (Bytes.toLe 2 position.length) = position.length :=
    Bytes.ofLe_toLe_of_lt (by omega)
  have htwo : (Bytes.toLe 2 position.length).length = 2 := Bytes.length_toLe 2 _
  refine ⟨Bytes.toLe 2 position.length ++ (blocks ++
    position.drop (position.length / compactRefBlockSymbols * compactRefBlockSymbols)), ?_, ?_, ?_⟩
  · rw [encodeCompactRefPosition, ensure, if_pos (by omega), Outcome.ofExcept_ok, Outcome.ok_bind]
    dsimp only
    rw [hpack, Outcome.ok_bind, List.append_assoc]
    rfl
  · rw [List.length_append, List.length_append, htwo, hcount, htail, Nat.add_assoc]
  · have hwhole : (Bytes.toLe 2 position.length ++ (blocks ++ position.drop (position.length /
        compactRefBlockSymbols * compactRefBlockSymbols))).length =
        2 + position.length / compactRefBlockSymbols * compactRefBlockBytes +
          position.length % compactRefBlockSymbols := by
      rw [List.length_append, List.length_append, htwo, hcount, htail, Nat.add_assoc]
    simp only [decodeCompactRefPosition, Except.bind_eq_ok, ensure_eq_ok, exists_const]
    rw [List.take_left' htwo, List.drop_left' htwo, hfield]
    refine ⟨by omega, hlength, hwhole, _, hunpack, ?_⟩
    rw [← List.drop_drop, List.drop_left' htwo, List.drop_left' hcount]
    exact congrArg Except.ok (List.take_append_drop _ _)

/-- Only what the encoder writes is accepted. -/
theorem encode_decodeCompactRefPosition (h : decodeCompactRefPosition encoded = .ok position) :
    encodeCompactRefPosition position = .ok encoded := by
  simp only [decodeCompactRefPosition, Except.bind_eq_ok, ensure_eq_ok, exists_const] at h
  obtain ⟨htwo, hmax, hlength, blocks, hblocks, h⟩ := h
  have hmax' : Bytes.ofLe (encoded.take 2) ≤ 4096 := hmax
  have hfield : (encoded.take 2).length = 2 := List.length_take_of_le htwo
  have hroom : Bytes.ofLe (encoded.take 2) / compactRefBlockSymbols * compactRefBlockBytes ≤
      (encoded.drop 2).length := by
    rw [List.length_drop]
    omega
  obtain ⟨hcount, hpack⟩ := packBlocks_of_unpackBlocks hblocks hroom
    (encoded.drop (2 + Bytes.ofLe (encoded.take 2) / compactRefBlockSymbols * compactRefBlockBytes))
  cases h
  have hsize : (blocks ++ encoded.drop (2 + Bytes.ofLe (encoded.take 2) / compactRefBlockSymbols *
      compactRefBlockBytes)).length = Bytes.ofLe (encoded.take 2) := by
    have hsplit := Nat.div_add_mod' (Bytes.ofLe (encoded.take 2)) compactRefBlockSymbols
    rw [List.length_append, hcount, List.length_drop]
    omega
  rw [encodeCompactRefPosition, hsize, ensure, if_pos (by omega), Outcome.ofExcept_ok, Outcome.ok_bind]
  dsimp only
  have hwrite := Bytes.toLe_ofLe (encoded.take 2)
  rw [hfield] at hwrite
  rw [hpack, Outcome.ok_bind, List.drop_left' hcount, hwrite, ← List.drop_drop, List.append_assoc,
    List.take_append_drop, List.take_append_drop]
  rfl

/-! ### Cursors -/

private theorem length_identity (hash : HashKind) :
    (cursorIdentity hash).length = hash.digestLen ∧ hash.digestLen ≤ 32 := by
  cases hash
  · exact ⟨List.length_replicate, by decide⟩
  · exact ⟨List.length_replicate, by decide⟩

/-- What is encoded under one's own identity is decoded. -/
theorem decodeRefCursor_encode {store : RefDb.Store} {name generation : Bytes} {cursor : Cursor}
    (hash : HashKind) (fingerprint : UInt64) (hvalid : RefDb.validateFullRefName store name = .ok ())
    (hcursor : cursor = ⟨expected hash fingerprint, generation, position⟩)
    (hfits : cursor.encode.length ≤ Cursor.maxCursorBytes) (hposition : decodePosition cursor = .ok name) :
    decodeRefCursor store cursor.encode hash fingerprint = .ok name := by
  subst hcursor
  have hdigest : (expected hash fingerprint).snapshotDigest.length = hash.digestLen :=
    (length_identity hash).1
  have hdecode := Cursor.decode_encode_of_le hdigest hfits
  simp only [decodeRefCursor, Except.bind_eq_ok]
  exact ⟨_, hdecode, name, hposition, (), by rw [hvalid]; rfl, rfl⟩

/-- A reference cursor is written and read back. -/
theorem exists_encodeRefCursor {store : RefDb.Store} {name : Bytes} (hash : HashKind) (fingerprint : UInt64)
    (hvalid : RefDb.validateFullRefName store name = .ok ()) (hbytes : ∀ byte ∈ name, GitRefByte byte) :
    ∃ encoded, encodeRefCursor hash fingerprint name = .ok encoded ∧
      encoded.length ≤ Cursor.maxCursorBytes ∧
      decodeRefCursor store encoded hash fingerprint = .ok name := by
  have hname : name.length ≤ RefDb.maxRefNameBytes := by
    simp only [RefDb.validateFullRefName, Except.bind_eq_ok, ensure_eq_ok, exists_const] at hvalid
    exact hvalid.1
  by_cases hplain : (Cursor.mk (expected hash fingerprint) [] name).encode.length ≤ Cursor.maxCursorBytes
  · refine ⟨(Cursor.mk (expected hash fingerprint) [] name).encode, ?_, hplain,
      decodeRefCursor_encode hash fingerprint hvalid rfl hplain rfl⟩
    rw [encodeRefCursor]
    dsimp only
    rw [if_neg (Nat.not_lt.mpr hplain), Outcome.pure_eq, Outcome.ok_bind, ensure, if_pos hplain]
    rfl
  · obtain ⟨compact, hencode, hlength, hdecode⟩ := decode_encodeCompactRefPosition hbytes hname
    have hfits : (Cursor.mk (expected hash fingerprint) compactCursorGeneration compact).encode.length ≤
        Cursor.maxCursorBytes := by
      have hsize := Cursor.length_encode
        (Cursor.mk (expected hash fingerprint) compactCursorGeneration compact)
      have hidentity : (expected hash fingerprint).snapshotDigest.length = hash.digestLen :=
        (length_identity hash).1
      have hdigest := (length_identity hash).2
      have hone : compactCursorGeneration.length = 1 := rfl
      have hmax : name.length ≤ 4096 := hname
      have hblocks : name.length / compactRefBlockSymbols ≤ 128 := Nat.div_le_of_le_mul hmax
      have htail : name.length % compactRefBlockSymbols < 32 := Nat.mod_lt _ (by decide)
      have hbytes : compactRefBlockBytes = 31 := rfl
      have hcursor : Cursor.maxCursorBytes = 4096 := rfl
      rw [hbytes] at hlength
      dsimp only at hsize
      omega
    refine ⟨(Cursor.mk (expected hash fingerprint) compactCursorGeneration compact).encode, ?_, hfits,
      decodeRefCursor_encode hash fingerprint hvalid rfl hfits hdecode⟩
    rw [encodeRefCursor]
    dsimp only
    rw [if_pos (Nat.not_le.mp hplain), hencode, Outcome.ok_bind, Outcome.pure_eq, Outcome.ok_bind, ensure,
      if_pos hfits]
    rfl

/-- Every valid full reference name has a cursor of at most 4096 bytes that is read back as the name, for
both hash kinds and every fingerprint. Packing neither overflows nor leaves a carry, and only what packing
writes is unpacked. -/
theorem refCursor_roundTrip :
    (∀ (store : RefDb.Store) (hash : HashKind) (fingerprint : UInt64) (name : Bytes),
      RefDb.validateFullRefName store name = .ok () → (∀ byte ∈ name, GitRefByte byte) →
        ∃ encoded, encodeRefCursor hash fingerprint name = .ok encoded ∧
          encoded.length ≤ Cursor.maxCursorBytes ∧
          decodeRefCursor store encoded hash fingerprint = .ok name) ∧
    (∀ block : Bytes, block.length ≤ compactRefBlockSymbols → packBlock block ≠ .diverged) ∧
    (∀ position : Bytes, encodeCompactRefPosition position ≠ .diverged) ∧
    (∀ encoded position : Bytes, decodeCompactRefPosition encoded = .ok position →
      encodeCompactRefPosition position = .ok encoded) :=
  ⟨fun _ hash fingerprint _ hvalid hbytes ↦ exists_encodeRefCursor hash fingerprint hvalid hbytes,
    fun _ hblock ↦ packBlock_ne_diverged hblock, encodeCompactRefPosition_ne_diverged,
    fun _ _ h ↦ encode_decodeCompactRefPosition h⟩

/-- A store that accepts every name below `refs/`. -/
def permissiveStore : RefDb.Store := ⟨fun _ ↦ true, fun _ ↦ .ok none, fun _ ↦ ""⟩

/-- A branch name of 4096 bytes. -/
def longName : Bytes := Bytes.ascii "refs/heads/" ++ List.replicate 4085 0x61

/-- The theorem at the longest name, with the largest digits and the shortest position. -/
theorem refCursor_roundTrip_longName :
    (∃ encoded, encodeRefCursor .sha256 7 longName = .ok encoded ∧ encoded.length ≤ Cursor.maxCursorBytes ∧
      decodeRefCursor permissiveStore encoded .sha256 7 = .ok longName) ∧
    packBlock (List.replicate 32 0xff) ≠ .diverged ∧
    encodeCompactRefPosition [0x61] = .ok [1, 0, 0x61] := by
  have hlength : longName.length ≤ RefDb.maxRefNameBytes := by
    rw [longName, List.length_append, List.length_replicate]
    decide
  have hvalid : RefDb.validateFullRefName permissiveStore longName = .ok () := by
    have hscope : Bytes.ascii "refs/" <+: longName :=
      List.IsPrefix.trans (by decide : Bytes.ascii "refs/" <+: Bytes.ascii "refs/heads/")
        (List.prefix_append _ _)
    simp only [RefDb.validateFullRefName, Except.bind_eq_ok, ensure_eq_ok, exists_const]
    exact ⟨hlength, .inr (List.isPrefixOf_iff_prefix.mpr hscope), rfl⟩
  have hbytes : ∀ byte ∈ longName, GitRefByte byte := by
    intro byte hbyte
    rcases List.mem_append.mp hbyte with hbyte | hbyte
    · have hascii : Bytes.ascii "refs/heads/" =
          [0x72, 0x65, 0x66, 0x73, 0x2f, 0x68, 0x65, 0x61, 0x64, 0x73, 0x2f] := by decide
      rw [hascii] at hbyte
      simp only [List.mem_cons, List.not_mem_nil, or_false] at hbyte
      rcases hbyte with rfl | rfl | rfl | rfl | rfl | rfl | rfl | rfl | rfl | rfl | rfl <;> decide
    · rw [List.eq_of_mem_replicate hbyte]
      decide
  exact ⟨refCursor_roundTrip.1 permissiveStore .sha256 7 longName hvalid hbytes,
    refCursor_roundTrip.2.1 (List.replicate 32 0xff) (by decide),
    refCursor_roundTrip.2.2.2 [1, 0, 0x61] [0x61] rfl⟩

end Gitility.RefCursor
