import FsCore.LittleEndian

namespace FsCore

/-- Bits read with the most significant one first. -/
def bitsToNat : List Bool → Nat
  | [] => 0
  | b :: bits => b.toNat * 2 ^ bits.length + bitsToNat bits

def byteBits (b : UInt8) : List Bool := (List.range 8).map fun k => b.toNat.testBit (7 - k)

/-- Bytes as a string of bits, the most significant bit of the first byte first. -/
def bigEndianBits (bytes : List UInt8) : List Bool := bytes.flatMap byteBits

theorem toNat_testBit_eq {b : Bool} {j : Nat} : b.toNat.testBit j = (decide (j = 0) && b) := by
  cases b with
  | false => simp
  | true =>
    rw [Bool.and_true, Bool.toNat_true, Bool.eq_iff_iff, Nat.testBit_one_eq_true_iff_self_eq_zero]
    simp

theorem bitsToNat_lt (bits : List Bool) : bitsToNat bits < 2 ^ bits.length := by
  induction bits with
  | nil => exact Nat.one_pos
  | cons b bits ih =>
    have bit : b.toNat * 2 ^ bits.length ≤ 1 * 2 ^ bits.length :=
      Nat.mul_le_mul_right _ (Bool.toNat_le b)
    rw [bitsToNat, List.length_cons, pow_succ]
    omega

theorem bitsToNat_testBit (bits : List Bool) (j : Nat) :
    (bitsToNat bits).testBit j =
      (decide (j < bits.length) && bits.getD (bits.length - 1 - j) false) := by
  induction bits with
  | nil => simp [bitsToNat]
  | cons b bits ih =>
    rw [bitsToNat, Nat.mul_comm, Nat.testBit_two_pow_mul_add _ (bitsToNat_lt bits), List.length_cons]
    by_cases hj : j < bits.length
    · have later : bits.length + 1 - 1 - j = bits.length - 1 - j + 1 := by omega
      rw [if_pos hj, ih, later, List.getD_cons_succ]
      simp [hj, show j < bits.length + 1 by omega]
    · rw [if_neg hj, toNat_testBit_eq]
      by_cases he : j = bits.length
      · simp [he]
      · simp [show j - bits.length ≠ 0 by omega, show ¬ j < bits.length + 1 by omega]

theorem ofBytes_testBit (bytes : List UInt8) (p : Nat) :
    (ofBytes bytes).testBit p = (bytes.getD (p / 8) 0).toNat.testBit (p % 8) := by
  induction bytes generalizing p with
  | nil => simp [ofBytes]
  | cons b bytes ih =>
    have shape : ofBytes (b :: bytes) = 2 ^ 8 * ofBytes bytes + b.toNat := by
      rw [ofBytes]
      omega
    rw [shape, Nat.testBit_two_pow_mul_add _ b.toNat_lt]
    by_cases hp : p < 8
    · rw [if_pos hp, Nat.div_eq_of_lt hp, Nat.mod_eq_of_lt hp]
      rfl
    · have index : p / 8 = (p - 8) / 8 + 1 := by omega
      have inside : p % 8 = (p - 8) % 8 := by omega
      rw [if_neg hp, ih, index, inside]
      rfl

theorem bigEndianBits_getD (bytes : List UInt8) (p : Nat) :
    (bigEndianBits bytes).getD p false = (bytes.getD (p / 8) 0).toNat.testBit (7 - p % 8) := by
  induction bytes generalizing p with
  | nil => simp [bigEndianBits]
  | cons b bytes ih =>
    have split : bigEndianBits (b :: bytes) = byteBits b ++ bigEndianBits bytes := rfl
    have width : (byteBits b).length = 8 := rfl
    rw [split, List.getD_eq_getElem?_getD]
    by_cases hp : p < 8
    · rw [List.getElem?_append_left (by omega), Nat.div_eq_of_lt hp, Nat.mod_eq_of_lt hp]
      simp [byteBits, hp]
    · have index : p / 8 = (p - 8) / 8 + 1 := by omega
      have inside : p % 8 = (p - 8) % 8 := by omega
      rw [List.getElem?_append_right (by omega), width, ← List.getD_eq_getElem?_getD, ih, index, inside]
      rfl

end FsCore
