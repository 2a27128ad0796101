import FsCore.BitFields
import FsCore.CanDecoder
import Mathlib.Data.Int.ModEq

namespace FsCore

/-- The bytes of a payload that count; what lies beyond reads as zero. -/
def payloadBytes (data : Vector UInt8 64) (dataLen : Nat) : List UInt8 := data.toList.take dataLen

/-- Bit `bp % 8` of byte `bp / 8`. -/
def wireBit (payload : List UInt8) (bp : Nat) : Bool := (payload.getD (bp / 8) 0).toNat.testBit (bp % 8)

/-- Position of a start bit in the payload read as a big-endian string of bits. -/
def bigEndianPosition (startBit : Nat) : Nat := 8 * (startBit / 8) + 7 - startBit % 8

/-- The unsigned number that a signal's bits stand for. -/
def fieldValue (data : Vector UInt8 64) (dataLen : Nat) (sig : SignalDef) : Nat :=
  if sig.byteOrder = 0 then
    ofBytes (payloadBytes data dataLen) / 2 ^ sig.startBit.toNat % 2 ^ sig.bitLength.toNat
  else
    bitsToNat ((List.range sig.bitLength.toNat).map fun k =>
      (bigEndianBits (payloadBytes data dataLen)).getD (bigEndianPosition sig.startBit.toNat + k) false)

section Loops

variable (data : Vector UInt8 64) {dataLen : Nat}

theorem payloadBytes_getD (hd : dataLen ≤ 64) (k : Nat) : (payloadBytes data dataLen).getD k 0 =
    if h : k < dataLen then data[k] else 0 := by
  rw [payloadBytes, List.getD_eq_getElem?_getD, List.getElem?_take]
  by_cases hk : k < dataLen
  · have inside : k < data.toList.length := by
      rw [Vector.length_toList]
      omega
    rw [if_pos hk, dif_pos hk, List.getElem?_eq_getElem inside, Option.getD_some]
    exact Vector.getElem_toList inside
  · rw [if_neg hk, dif_neg hk]
    rfl

theorem orBit_bits (hd : dataLen ≤ 64) {i : Nat} (hi : i < 64) (bp : Nat) (raw : BitVec 64) :
    ∃ raw', orBit data dataLen bp i raw = some raw' ∧ ∀ j, raw'.getLsbD j =
      (raw.getLsbD j || (decide (j = i) && wireBit (payloadBytes data dataLen) bp)) := by
  unfold orBit
  by_cases hbp : bp / 8 < dataLen
  · have low : bp / 8 < 64 := by omega
    refine ⟨_, by rw [if_pos hbp, dif_pos low, if_pos hi], fun j => ?_⟩
    have read : wireBit (payloadBytes data dataLen) bp = (data[bp / 8].toNat).testBit (bp % 8) := by
      rw [wireBit, payloadBytes_getD data hd, dif_pos hbp]
    have bit : data[bp / 8].toNat / 2 ^ (bp % 8) % 2 =
      (wireBit (payloadBytes data dataLen) bp).toNat := by
      rw [read, Nat.testBit_eq_decide_div_mod_eq]
      rcases Nat.mod_two_eq_zero_or_one (data[bp / 8].toNat / 2 ^ (bp % 8)) with h |
        h <;> rw [h] <;> rfl
    rw [bit, BitVec.getLsbD_or, BitVec.getLsbD_shiftLeft, BitVec.getLsbD_ofNat, toNat_testBit_eq]
    congr 1
    by_cases hj : j = i
    · subst j
      simp [hi]
    · by_cases below : j < i
      · simp [hj, below]
      · simp [hj, show j - i ≠ 0 by omega]
  · refine ⟨raw, by rw [if_neg hbp], fun j => ?_⟩
    have read : wireBit (payloadBytes data dataLen) bp = false := by
      rw [wireBit, payloadBytes_getD data hd, dif_neg hbp]
      simp
    simp [read]

theorem extractSignalLe_bits (hd : dataLen ≤ 64) (startBit : Nat) {n : Nat} (hn : n ≤ 64) :
    ∃ raw, extractSignalLe data dataLen startBit n = some raw ∧
      ∀ j, raw.getLsbD j = (decide (j < n) && wireBit (payloadBytes data dataLen) (startBit + j)) := by
  induction n with
  | zero => exact ⟨0, rfl, fun j => by simp⟩
  | succ n ih =>
    obtain ⟨raw, run, bits⟩ := ih (by omega)
    obtain ⟨raw', step, bits'⟩ := orBit_bits data hd (show n < 64 by omega) (startBit + n) raw
    refine ⟨raw', ?_, fun j => ?_⟩
    · rw [extractSignalLe, List.range_succ, List.foldlM_append]
      rw [extractSignalLe] at run
      rw [run]
      show (orBit data dataLen (startBit + n) n raw).bind pure = _
      rw [step]
      rfl
    · rw [bits', bits]
      by_cases hj : j = n
      · subst j
        simp
      · by_cases below : j < n
        · simp [hj, below, show j < n + 1 by omega]
        · simp [hj, below, show ¬ j < n + 1 by omega]

/-- The bit position of place `p` of the big-endian string. -/
def sawtooth (p : Nat) : Nat := 8 * (p / 8) + 7 - p % 8

theorem sawtooth_bigEndianPosition (startBit : Nat) :
    sawtooth (bigEndianPosition startBit) = startBit := by
  unfold sawtooth bigEndianPosition
  omega

theorem sawtooth_step (p : Nat) : (if sawtooth p % 8 = 0 then sawtooth p + 15 else sawtooth p - 1) =
    sawtooth (p + 1) := by
  unfold sawtooth
  split <;> omega

theorem wireBit_sawtooth (payload : List UInt8) (p : Nat) :
    wireBit payload (sawtooth p) = (bigEndianBits payload).getD p false := by
  have byte : sawtooth p / 8 = p / 8 := by
    unfold sawtooth
    omega
  have bit : sawtooth p % 8 = 7 - p % 8 := by
    unfold sawtooth
    omega
  rw [wireBit, bigEndianBits_getD, byte, bit]

theorem extractBeLoop_bits (hd : dataLen ≤ 64) {n : Nat} (hn : n ≤ 64) (p : Nat) (raw : BitVec 64) :
    ∃ raw', extractBeLoop data dataLen n (sawtooth p) raw = some raw' ∧ ∀ j, raw'.getLsbD j =
      (raw.getLsbD j ||
        (decide (j < n) && (bigEndianBits (payloadBytes data dataLen)).getD
          (p + (n - 1 - j)) false)) := by
  induction n generalizing p raw with
  | zero => exact ⟨raw, rfl, fun j => by simp⟩
  | succ n ih =>
    obtain ⟨mid, step, bits⟩ := orBit_bits data hd (show n < 64 by omega) (sawtooth p) raw
    obtain ⟨raw', run, bits'⟩ := ih (by omega) (p + 1) mid
    refine ⟨raw', ?_, fun j => ?_⟩
    · rw [extractBeLoop, step, sawtooth_step]
      exact run
    · rw [bits', bits, wireBit_sawtooth]
      by_cases hj : j = n
      · subst j
        simp
      · by_cases below : j < n
        · have place : p + 1 + (n - 1 - j) = p + (n + 1 - 1 - j) := by omega
          simp [hj, below, place, show j < n + 1 by omega]
        · simp [hj, below, show ¬ j < n + 1 by omega]

/-- Both loops collect the field, as an unsigned number. -/
theorem extractLoops_eq_field (hd : dataLen ≤ 64) (sig : SignalDef) (hn : sig.bitLength.toNat ≤ 64) :
    ∃ raw, (if sig.byteOrder =
      0 then extractSignalLe data dataLen sig.startBit.toNat sig.bitLength.toNat
        else extractSignalBe data dataLen sig.startBit.toNat sig.bitLength.toNat) = some raw ∧
      raw.toNat = fieldValue data dataLen sig := by
  by_cases order : sig.byteOrder = 0
  · obtain ⟨raw, run, bits⟩ := extractSignalLe_bits data hd sig.startBit.toNat hn
    refine ⟨raw, by rw [if_pos order, run], ?_⟩
    rw [fieldValue, if_pos order]
    apply Nat.eq_of_testBit_eq
    intro j
    rw [BitVec.testBit_toNat, bits, Nat.testBit_mod_two_pow, Nat.testBit_div_two_pow,
      ofBytes_testBit, wireBit, Nat.add_comm j]
  · obtain ⟨raw, run, bits⟩ := extractBeLoop_bits data hd hn (bigEndianPosition sig.startBit.toNat) 0
    rw [sawtooth_bigEndianPosition] at run
    refine ⟨raw, by rw [if_neg order, extractSignalBe, run], ?_⟩
    rw [fieldValue, if_neg order]
    apply Nat.eq_of_testBit_eq
    intro j
    rw [BitVec.testBit_toNat, bits, bitsToNat_testBit, List.length_map, List.length_range]
    by_cases hj : j < sig.bitLength.toNat
    · have place : sig.bitLength.toNat - 1 - j < sig.bitLength.toNat := by omega
      rw [List.getD_eq_getElem?_getD (l := List.map _ _), List.getElem?_map, List.getElem?_range place]
      simp [hj]
    · simp [hj]

end Loops

theorem fieldValue_lt (data : Vector UInt8 64) (dataLen : Nat) (sig : SignalDef) :
    fieldValue data dataLen sig < 2 ^ sig.bitLength.toNat := by
  unfold fieldValue
  split
  · exact Nat.mod_lt _ (Nat.two_pow_pos _)
  · refine Nat.lt_of_lt_of_eq (bitsToNat_lt _) ?_
    rw [List.length_map, List.length_range]

/-- The sign bit is set from half of the range on. -/
theorem signBit_iff {raw : BitVec 64} {n : Nat} (hn : n < 64) (h : raw.toNat < 2 ^ (n + 1)) :
    raw &&& (1#64 <<< n) ≠ 0 ↔ 2 ^ n ≤ raw.toNat := by
  have bit : raw.getLsbD n = decide (2 ^ n ≤ raw.toNat) := by
    rw [← BitVec.testBit_toNat, Nat.testBit_eq_decide_div_mod_eq]
    have quotient : raw.toNat / 2 ^ n < 2 := Nat.div_lt_of_lt_mul (by rwa [pow_succ] at h)
    by_cases half : 2 ^ n ≤ raw.toNat
    · have one : 1 ≤ raw.toNat / 2 ^ n := (Nat.one_le_div_iff (Nat.two_pow_pos n)).mpr half
      simp [half, show raw.toNat / 2 ^ n = 1 by omega]
    · simp [half, Nat.div_eq_of_lt (Nat.lt_of_not_le half)]
  constructor
  · intro set
    by_contra low
    apply set
    apply BitVec.eq_of_getLsbD_eq
    intro j hj
    rw [BitVec.getLsbD_and, BitVec.getLsbD_shiftLeft]
    by_cases he : j = n
    · subst j
      simp [bit, low]
    · by_cases below : j < n
      · simp [below]
      · simp [show j - n ≠ 0 by omega]
  · intro half clear
    have read : raw.getLsbD n = false := by
      have zero := congrArg (fun x => BitVec.getLsbD x n) clear
      simpa [hn] using zero
    rw [bit, decide_eq_false_iff_not] at read
    exact read half

theorem signFill_toNat {m : Nat} (hm : m < 64) : (~~~((1#64 <<< m) - 1)).toNat =
    2 ^ m * (2 ^ (64 - m) - 1) := by
  have split : 2 ^ m * 2 ^ (64 - m) = 2 ^ 64 := by rw [← pow_add, show m + (64 - m) = 64 by omega]
  have low : 2 ^ m ≤ 2 ^ 63 := Nat.pow_le_pow_right (by omega) (by omega)
  have one : (1#64 <<< m).toNat = 2 ^ m := by
    rw [BitVec.toNat_shiftLeft, BitVec.toNat_ofNat, Nat.one_mod_eq_one.mpr (by omega),
      Nat.shiftLeft_eq, one_mul]
    exact Nat.mod_eq_of_lt (by omega)
  have positive : 0 < 2 ^ m := Nat.two_pow_pos m
  have less : ((1#64 <<< m) - 1).toNat = 2 ^ m - 1 := by
    rw [BitVec.toNat_sub, one]
    show (2 ^ 64 - 1 + 2 ^ m) % 2 ^ 64 = 2 ^ m - 1
    omega
  rw [BitVec.toNat_not, less, Nat.mul_sub, split, Nat.mul_one]
  omega

theorem signExtend_toInt {raw : BitVec 64} {n : Nat} (hn : n < 64) (h : raw.toNat < 2 ^ (n + 1)) :
    (signExtend raw (n + 1)).toInt =
      if 2 ^ n ≤ raw.toNat then (raw.toNat : Int) - (2 ^ (n + 1) : Nat) else raw.toNat := by
  have double : 2 ^ (n + 1) = 2 ^ n * 2 := pow_succ 2 n
  unfold signExtend
  by_cases wide : n + 1 = 64
  · obtain rfl : n = 63 := by omega
    rw [if_neg (by omega), BitVec.toInt_eq_toNat_cond]
    split <;> split <;> omega
  · rw [if_pos (by omega), Nat.add_sub_cancel]
    by_cases half : 2 ^ n ≤ raw.toNat
    · have small : 2 ^ (n + 1) ≤ 2 ^ 63 := Nat.pow_le_pow_right (by omega) (by omega)
      have filled : (raw ||| ~~~((1#64 <<< (n + 1)) - 1)).toNat =
        raw.toNat + (2 ^ 64 - 2 ^ (n + 1)) := by
        have split : 2 ^ (n + 1) * 2 ^ (64 - (n + 1)) = 2 ^ 64 := by
          rw [← pow_add, show n + 1 + (64 - (n + 1)) = 64 by omega]
        rw [BitVec.toNat_or, signFill_toNat (by omega), Nat.or_comm,
          ← Nat.two_pow_add_eq_or_of_lt h, Nat.mul_sub, split, Nat.mul_one, Nat.add_comm]
      rw [if_pos ((signBit_iff hn h).mpr half), if_pos half, BitVec.toInt_eq_toNat_cond, filled,
        if_neg (by omega)]
      omega
    · have small : 2 ^ n ≤ 2 ^ 62 := Nat.pow_le_pow_right (by omega) (by omega)
      rw [if_neg (fun set => half ((signBit_iff hn h).mp set)), if_neg half, BitVec.toInt_eq_toNat_cond,
        if_pos (by omega)]

/-- The sign step reads the bits as a two's complement number of their length. -/
theorem signExtend_spec {raw : BitVec 64} {n : Nat} (hn : n < 64) (h : raw.toNat < 2 ^ (n + 1)) :
    (signExtend raw (n + 1)).toInt ≡ raw.toNat [ZMOD 2 ^ (n + 1)] ∧
      -2 ^ n ≤ (signExtend raw (n + 1)).toInt ∧ (signExtend raw (n + 1)).toInt < 2 ^ n := by
  have double : 2 ^ (n + 1) = 2 ^ n * 2 := pow_succ 2 n
  have value := signExtend_toInt hn h
  have cast : ((2 ^ n : Nat) : Int) = 2 ^ n := by push_cast; rfl
  rw [← cast]
  refine ⟨?_, ?_, ?_⟩
  · rw [value]
    split
    · rw [Int.modEq_iff_dvd]
      refine ⟨1, ?_⟩
      push_cast
      omega
    · rfl
  · rw [value]
    split <;> omega
  · rw [value]
    split <;> omega

theorem extractSignal_eq_map (data : Vector UInt8 64) (dataLen : Nat) (sig : SignalDef) :
    extractSignal data dataLen sig =
      (if sig.byteOrder = 0 then extractSignalLe data dataLen sig.startBit.toNat sig.bitLength.toNat
        else extractSignalBe data dataLen sig.startBit.toNat sig.bitLength.toNat).map
        fun raw => if sig.isSigned ≠ 0 then signExtend raw sig.bitLength.toNat else raw := by
  unfold extractSignal
  by_cases order : sig.byteOrder = 0
  · rw [if_pos order, if_pos order, Option.map_eq_bind]
    rfl
  · rw [if_neg order, if_neg order, Option.map_eq_bind]
    rfl

/-- A signal of at most 64 bits is extracted; the result is its field as an `int64_t`. An unsigned
field of 64 bits keeps its bits, and so its value only below `2 ^ 63`. -/
theorem extractSignal_eq_field (data : Vector UInt8 64) {dataLen : Nat} (hd : dataLen ≤ 64)
    (sig : SignalDef) (hpos : 1 ≤ sig.bitLength.toNat) (hn : sig.bitLength.toNat ≤ 64) :
    ∃ raw, extractSignal data dataLen sig = some raw ∧
      (sig.isSigned = 0 → raw.toNat = fieldValue data dataLen sig ∧
        (sig.bitLength.toNat < 64 ∨ fieldValue data dataLen sig < 2 ^ 63 →
          raw.toInt = fieldValue data dataLen sig)) ∧
      (sig.isSigned ≠ 0 → raw.toInt ≡ fieldValue data dataLen sig [ZMOD 2 ^ sig.bitLength.toNat] ∧
        -2 ^ (sig.bitLength.toNat - 1) ≤ raw.toInt ∧ raw.toInt < 2 ^ (sig.bitLength.toNat - 1)) := by
  obtain ⟨bits, run, value⟩ := extractLoops_eq_field data hd sig hn
  have bound := fieldValue_lt data dataLen sig
  refine ⟨if sig.isSigned ≠ 0 then signExtend bits sig.bitLength.toNat else bits, ?_, ?_, ?_⟩
  · rw [extractSignal_eq_map, run]
    rfl
  · intro unsigned
    rw [if_neg (fun h => h unsigned)]
    refine ⟨value, fun fits => ?_⟩
    have low : fieldValue data dataLen sig < 2 ^ 63 := by
      rcases fits with short | low
      · exact Nat.lt_of_lt_of_le bound (Nat.pow_le_pow_right (by omega) (by omega))
      · exact low
    rw [BitVec.toInt_eq_toNat_cond, value, if_pos (by omega)]
  · intro signed
    obtain ⟨n, length⟩ : ∃ n, sig.bitLength.toNat = n + 1 := ⟨sig.bitLength.toNat - 1, by omega⟩
    rw [length] at bound hn
    rw [if_pos signed, length, Nat.add_sub_cancel, ← value]
    exact signExtend_spec (by omega) (by rwa [value])

/-- A 64-bit unsigned signal over the first eight bytes. -/
def wholeWord : SignalDef := ⟨0, 64, 0, 0, .zero, .zero⟩

theorem extractSignal_eq_field_wholeWord : 8 ≤ 64 ∧ 1 ≤ wholeWord.bitLength.toNat ∧
    wholeWord.bitLength.toNat ≤ 64 ∧
    ∃ raw, extractSignal (Vector.replicate 64 1) 8 wholeWord = some raw ∧
      raw.toInt = fieldValue (Vector.replicate 64 1) 8 wholeWord ∧ raw.toInt = 0x0101010101010101 := by
  obtain ⟨raw, run, unsigned, -⟩ := extractSignal_eq_field (Vector.replicate 64 1)
    (show 8 ≤ 64 by decide) wholeWord (by decide) (by decide)
  have low : fieldValue (Vector.replicate 64 1) 8 wholeWord = 0x0101010101010101 := by decide
  have exact := (unsigned rfl).2 (Or.inr (by omega))
  exact ⟨by decide, by decide, by decide, raw, run, exact, by omega⟩

/-- The result is an `int64_t`: it cannot hold every unsigned field of 64 bits. -/
theorem extractSignal_wholeWord_negative :
    ∃ raw, extractSignal (Vector.replicate 64 255) 8 wholeWord = some raw ∧
    raw.toInt = -1 ∧ fieldValue (Vector.replicate 64 255) 8 wholeWord = 2 ^ 64 - 1 ∧
    raw.toInt ≠ fieldValue (Vector.replicate 64 255) 8 wholeWord :=
  ⟨-1, by decide +kernel, by decide, by decide +kernel, by decide +kernel⟩

end FsCore
