import Mathlib.Algebra.Ring.Int.Defs
import Mathlib.Algebra.Ring.Nat
import Mathlib.Data.Nat.Log
import Mathlib.Order.Basic

namespace FsCore

/-- An IEEE 754 binary64 value, by its 64 bits. -/
structure Binary64 where
  bits : BitVec 64
deriving DecidableEq

namespace Binary64

/-- The magnitude bits of the infinities; every larger magnitude is a NaN. -/
def infinite : Nat := 2047 * 2 ^ 52

def negative (x : Binary64) : Bool := x.bits.msb

def magnitude (x : Binary64) : Nat := x.bits.toNat % 2 ^ 63

def ofMagnitude (negative : Bool) (m : Nat) : Binary64 :=
  ⟨BitVec.ofNat 64 (if negative then 2 ^ 63 + m else m)⟩

def zero : Binary64 := ⟨0⟩

def nan : Binary64 := ⟨0x7ff8000000000000⟩

def isNaN (x : Binary64) : Bool := infinite < x.magnitude

/-- A finite magnitude as a multiple of the least positive value. -/
def units (m : Nat) : Nat :=
  if m < 2 ^ 52 then m else (2 ^ 52 + m % 2 ^ 52) * 2 ^ (m / 2 ^ 52 - 1)

/-- The least positive value is one over this. -/
def unitsPerOne : Nat := 2 ^ 1074

def roundHalfEven (num den : Nat) : Nat :=
  let q := num / den
  let r := num % den
  if 2 * r < den ∨ 2 * r = den ∧ q % 2 = 0 then q else q + 1

/-- The magnitude nearest to `num / den` units, ties to even, overflow to infinity. -/
def roundUnits (num den : Nat) : Nat :=
  let k := (num / den).log2 - 52
  min (k * 2 ^ 52 + roundHalfEven num (den * 2 ^ k)) infinite

def ofUnits (i : Int) : Binary64 := ofMagnitude (i < 0) (roundUnits i.natAbs 1)

def toUnits (x : Binary64) : Int :=
  if x.negative then -(units x.magnitude : Int) else units x.magnitude

def ofInt (i : Int) : Binary64 := ofUnits (i * unitsPerOne)

def add (x y : Binary64) : Binary64 :=
  if x.isNaN || y.isNaN then nan
  else if x.magnitude = infinite then
    if y.magnitude = infinite ∧ x.negative ≠ y.negative then nan else x
  else if y.magnitude = infinite then y
  else if x.toUnits + y.toUnits = 0 then ofMagnitude (x.negative && y.negative) 0
  else ofUnits (x.toUnits + y.toUnits)

def mul (x y : Binary64) : Binary64 :=
  let negative := x.negative != y.negative
  if x.isNaN || y.isNaN then nan
  else if x.magnitude = infinite ∨ y.magnitude = infinite then
    if x.magnitude = 0 ∨ y.magnitude = 0 then nan else ofMagnitude negative infinite
  else ofMagnitude negative (roundUnits (units x.magnitude * units y.magnitude) unitsPerOne)

def div (x y : Binary64) : Binary64 :=
  let negative := x.negative != y.negative
  if x.isNaN || y.isNaN then nan
  else if x.magnitude = infinite then
    if y.magnitude = infinite then nan else ofMagnitude negative infinite
  else if y.magnitude = infinite then ofMagnitude negative 0
  else if y.magnitude = 0 then
    if x.magnitude = 0 then nan else ofMagnitude negative infinite
  else ofMagnitude negative (roundUnits (units x.magnitude * unitsPerOne) (units y.magnitude))

/-- Orders the values that are not NaN; both zeros have key zero. -/
def key (x : Binary64) : Int := if x.negative then -(x.magnitude : Int) else x.magnitude

def le (x y : Binary64) : Bool := !x.isNaN && !y.isNaN && decide (x.key ≤ y.key)

/-- The decimal `digits / 10 ^ scale`; none where the C library reports a range
error, on overflow and on an inexact result below the normal numbers. -/
def ofDecimal (digits scale : Nat) : Option Binary64 :=
  let num := digits * unitsPerOne
  let m := roundUnits num (10 ^ scale)
  if m = infinite then none
  else if m < 2 ^ 52 ∧ num % 10 ^ scale ≠ 0 then none
  else some (ofMagnitude false m)

section Rounding

/-- A magnitude is the rounding of the units it stands for. -/
theorem roundUnits_units {m : Nat} (finite : m ≤ infinite) : roundUnits (units m) 1 = m := by
  have even (n : Nat) {d : Nat} (hd : 0 < d) : roundHalfEven (n * d) d = n := by
    simp [roundHalfEven, Nat.mul_div_cancel n hd, hd]
  by_cases small : m < 2 ^ 52
  · have low : m.log2 - 52 = 0 := by
      by_cases zero : m = 0
      · rw [zero]
        rfl
      · have := (Nat.log2_lt zero).mpr small
        omega
    have whole := even m Nat.one_pos
    rw [Nat.mul_one] at whole
    simp only [units, if_pos small, roundUnits, Nat.div_one, low, Nat.pow_zero,
      Nat.mul_one, Nat.zero_mul, Nat.zero_add, whole]
    exact min_eq_left finite
  · let e := m / 2 ^ 52 - 1
    let f := 2 ^ 52 + m % 2 ^ 52
    have parts : (e + 1) * 2 ^ 52 + m % 2 ^ 52 = m := by
      have := Nat.div_add_mod m (2 ^ 52)
      have : 1 ≤ m / 2 ^ 52 := by omega
      omega
    have range : 2 ^ 52 ≤ f ∧ f < 2 ^ 53 := by
      have := Nat.mod_lt m (show 0 < 2 ^ 52 by decide)
      omega
    have pos : 0 < 2 ^ e := Nat.two_pow_pos e
    have exponent : (f * 2 ^ e).log2 = 52 + e := by
      rw [Nat.log2_eq_iff (by have := Nat.mul_pos (show 0 < f by omega) pos; omega), pow_add,
        show 52 + e + 1 = 53 + e by omega, pow_add]
      exact ⟨Nat.mul_le_mul_right _ range.1, Nat.mul_lt_mul_of_pos_right range.2 pos⟩
    have value : units m = f * 2 ^ e := by rw [units, if_neg small]
    have whole : e * 2 ^ 52 + f = m := by
      rw [show f = 2 ^ 52 + m % 2 ^ 52 from rfl, ← Nat.add_assoc, ← Nat.succ_mul]
      exact parts
    simp only [value, roundUnits, Nat.div_one, exponent, Nat.add_sub_cancel_left, Nat.one_mul,
      even f pos, whole]
    exact min_eq_left finite

theorem units_eq_zero {m : Nat} (h : units m = 0) : m = 0 := by
  rw [units] at h
  split at h
  next => exact h
  next =>
    have := Nat.mul_pos (show 0 < 2 ^ 52 + m % 2 ^ 52 by omega) (Nat.two_pow_pos (m / 2 ^ 52 - 1))
    omega

theorem ofMagnitude_isNaN {m : Nat} (h : m ≤ infinite) : (ofMagnitude false m).isNaN = false := by
  have bound : m < 2 ^ 63 := h.trans_lt (by decide)
  have magnitude : (ofMagnitude false m).magnitude = m := by
    simp only [ofMagnitude, Binary64.magnitude, Bool.false_eq_true, if_false, BitVec.toNat_ofNat]
    omega
  rw [isNaN, magnitude]
  exact decide_eq_false (by omega)

theorem ofDecimal_isNaN {digits scale : Nat} {t : Binary64} (h : ofDecimal digits scale = some t) :
    t.isNaN = false := by
  simp only [ofDecimal] at h
  split at h
  next => cases h
  next =>
    split at h
    next => cases h
    next =>
      cases h
      exact ofMagnitude_isNaN (min_le_right _ _)

/-- Adding zero to a finite value without a sign. -/
theorem ofMagnitude_add_zero {m : Nat} (finite : m < infinite) :
    (ofMagnitude false m).add zero = ofMagnitude false m := by
  have bound : m < 2 ^ 63 := finite.trans (by decide)
  have magnitude : (ofMagnitude false m).magnitude = m := by
    simp only [ofMagnitude, Binary64.magnitude, Bool.false_eq_true, if_false, BitVec.toNat_ofNat]
    omega
  have positive : (ofMagnitude false m).negative = false := by
    simp only [ofMagnitude, Binary64.negative, Bool.false_eq_true, if_false, BitVec.msb_eq_decide,
      BitVec.toNat_ofNat, decide_eq_false_iff_not]
    omega
  have number : (ofMagnitude false m).isNaN = false := by
    rw [isNaN, magnitude]
    exact decide_eq_false (by omega)
  have zeroUnits : zero.toUnits = 0 := by decide +kernel
  have zeroNaN : zero.isNaN = false := by decide +kernel
  have zeroMagnitude : zero.magnitude = 0 := by decide +kernel
  have value : (ofMagnitude false m).toUnits = units m := by
    rw [toUnits, positive, magnitude]
    rfl
  have finite' : ¬ zero.magnitude = infinite := by rw [zeroMagnitude]; decide
  rw [add, number, zeroNaN, magnitude, value, zeroUnits, Int.add_zero, if_neg (by decide),
    if_neg (by omega), if_neg finite']
  split
  next none =>
    rw [units_eq_zero (Int.natCast_eq_zero.mp none)]
    rfl
  next =>
    rw [ofUnits, Int.natAbs_natCast, roundUnits_units finite.le, decide_eq_false (by omega)]

theorem ofDecimal_add_zero {digits scale : Nat} {t : Binary64} (h : ofDecimal digits scale = some t) :
    t.add zero = t := by
  simp only [ofDecimal] at h
  split at h
  next => cases h
  next finite =>
    split at h
    next => cases h
    next =>
      cases h
      refine ofMagnitude_add_zero (lt_of_le_of_ne ?_ finite)
      exact min_le_right _ _

end Rounding

example : ofInt 1 = ⟨0x3ff0000000000000⟩ := by decide +kernel

example : ofDecimal 2345 3 = some ⟨0x4002c28f5c28f5c3⟩ := by decide +kernel

end Binary64

end FsCore
