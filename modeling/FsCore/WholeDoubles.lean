import FsCore.Binary64

namespace FsCore

namespace Binary64

section Scale

/-- Rounding looks at the quotient only. -/
theorem roundHalfEven_scale (num den : Nat) {c : Nat} (pos : 0 < c) :
    roundHalfEven (num * c) (den * c) = roundHalfEven num den := by
  have quotient : num * c / (den * c) = num / den := Nat.mul_div_mul_right num den pos
  have remainder : num * c % (den * c) = num % den * c := Nat.mul_mod_mul_right c num den
  have less : 2 * (num % den * c) < den * c ↔ 2 * (num % den) < den := by
    rw [← Nat.mul_assoc]
    exact Nat.mul_lt_mul_right pos
  have half : 2 * (num % den * c) = den * c ↔ 2 * (num % den) = den := by
    rw [← Nat.mul_assoc]
    exact Nat.mul_left_inj pos.ne'
  simp only [roundHalfEven, quotient, remainder, less, half]

theorem roundUnits_scale (num den : Nat) {c : Nat} (pos : 0 < c) :
    roundUnits (num * c) (den * c) = roundUnits num den := by
  have quotient : num * c / (den * c) = num / den := Nat.mul_div_mul_right num den pos
  simp only [roundUnits, quotient, Nat.mul_right_comm den c, roundHalfEven_scale _ _ pos]

end Scale

theorem unitsPerOne_pos : 0 < unitsPerOne := by decide +kernel

/-- A magnitude that stands for a whole number. -/
structure Whole (n m : Nat) : Prop where
  finite : m < infinite
  value : units m = n * unitsPerOne

/-- Every whole number of at most 53 bits has one. -/
theorem exists_whole {n : Nat} (small : n < 2 ^ 53) : ∃ m, Whole n m := by
  by_cases zero : n = 0
  · subst zero
    exact ⟨0, by decide, by rw [Nat.zero_mul]; rfl⟩
  · have range := (Nat.log2_eq_iff zero).mp rfl
    have log : n.log2 ≤ 52 := Nat.lt_succ_iff.mp ((Nat.log2_lt zero).mpr small)
    have shift : 2 ^ n.log2 * 2 ^ (52 - n.log2) = 2 ^ 52 := by rw [← pow_add]; congr 1; omega
    have low : 2 ^ 52 ≤ n * 2 ^ (52 - n.log2) := shift ▸ Nat.mul_le_mul_right _ range.1
    have high : n * 2 ^ (52 - n.log2) < 2 ^ 53 := by
      have twice : 2 ^ (n.log2 + 1) * 2 ^ (52 - n.log2) = 2 ^ 53 := by rw [← pow_add]; congr 1; omega
      exact twice ▸ Nat.mul_lt_mul_of_pos_right range.2 (Nat.two_pow_pos _)
    generalize hf : n * 2 ^ (52 - n.log2) = f at low high
    -- the significand has 53 bits, and the exponent makes up for the shift
    have exponent : ((1023 + n.log2) * 2 ^ 52 + (f - 2 ^ 52)) / 2 ^ 52 = 1023 + n.log2 := by
      rw [Nat.mul_comm, Nat.mul_add_div (Nat.two_pow_pos 52), Nat.div_eq_of_lt (by omega), Nat.add_zero]
    have fraction : ((1023 + n.log2) * 2 ^ 52 + (f - 2 ^ 52)) % 2 ^ 52 = f - 2 ^ 52 := by
      rw [Nat.mul_comm, Nat.mul_add_mod, Nat.mod_eq_of_lt (by omega)]
    refine ⟨(1023 + n.log2) * 2 ^ 52 + (f - 2 ^ 52), ?_, ?_⟩
    · have : (1023 + n.log2) * 2 ^ 52 ≤ 1075 * 2 ^ 52 := Nat.mul_le_mul_right _ (by omega)
      have : 1076 * 2 ^ 52 < infinite := by decide
      omega
    · rw [units, if_neg (by omega), exponent, fraction, show 2 ^ 52 + (f - 2 ^ 52) = f by omega,
        ← hf, unitsPerOne,
        Nat.mul_assoc, ← pow_add, show 52 - n.log2 + (1023 + n.log2 - 1) = 1074 by omega]

theorem Whole.round {n m : Nat} (h : Whole n m) : roundUnits (n * unitsPerOne) 1 = m := by
  rw [← h.value, roundUnits_units h.finite.le]

theorem Whole.pos {n m : Nat} (h : Whole n m) (ne : n ≠ 0) : m ≠ 0 := by
  intro zero
  have value := h.value
  rw [zero] at value
  have none : n * unitsPerOne = 0 := value.symm.trans rfl
  exact (Nat.mul_ne_zero ne unitsPerOne_pos.ne') none

section Signless

variable {m : Nat}

theorem magnitude_ofMagnitude (h : m ≤ infinite) : (ofMagnitude false m).magnitude = m := by
  have bound : m < 2 ^ 63 := h.trans_lt (by decide)
  simp only [ofMagnitude, Binary64.magnitude, Bool.false_eq_true, if_false, BitVec.toNat_ofNat]
  omega

theorem negative_ofMagnitude (h : m ≤ infinite) : (ofMagnitude false m).negative = false := by
  have bound : m < 2 ^ 63 := h.trans_lt (by decide)
  simp only [ofMagnitude, Binary64.negative, Bool.false_eq_true, if_false, BitVec.msb_eq_decide,
    BitVec.toNat_ofNat, decide_eq_false_iff_not]
  omega

end Signless

section Whole

variable {a b m k : Nat}

theorem ofInt_natCast (h : Whole a m) : ofInt a = ofMagnitude false m := by
  have units : ((a : Int) * (unitsPerOne : Int)).natAbs = a * unitsPerOne := by
    rw [← Int.natCast_mul, Int.natAbs_natCast]
  rw [ofInt, ofUnits, units, h.round, decide_eq_false]
  exact not_lt.mpr (Int.mul_nonneg (Int.natCast_nonneg _) (Int.natCast_nonneg _))

theorem toUnits_whole (h : Whole a m) : (ofMagnitude false m).toUnits = (a : Int) * unitsPerOne := by
  rw [toUnits, negative_ofMagnitude h.finite.le, magnitude_ofMagnitude h.finite.le, h.value]
  exact Int.natCast_mul a unitsPerOne

/-- Whole numbers of at most 53 bits are added exactly. -/
theorem ofInt_add (hsum : a + b < 2 ^ 53) : (ofInt a).add (ofInt b) = ofInt (a + b : Nat) := by
  obtain ⟨m, hm⟩ := exists_whole (show a < 2 ^ 53 by omega)
  obtain ⟨k, hk⟩ := exists_whole (show b < 2 ^ 53 by omega)
  have units : (ofMagnitude false m).toUnits + (ofMagnitude false k).toUnits =
    ((a + b : Nat) : Int) * unitsPerOne := by
    rw [toUnits_whole hm, toUnits_whole hk, Int.natCast_add, Int.add_mul]
  rw [ofInt_natCast hm, ofInt_natCast hk, add, ofMagnitude_isNaN hm.finite.le,
    ofMagnitude_isNaN hk.finite.le,
    magnitude_ofMagnitude hm.finite.le, magnitude_ofMagnitude hk.finite.le, if_neg (by decide),
    if_neg hm.finite.ne, if_neg hk.finite.ne, units]
  split
  next none =>
    have none : a + b = 0 := by
      rcases Int.mul_eq_zero.mp none with zero | zero
      · omega
      · exact absurd (Int.natCast_eq_zero.mp zero) unitsPerOne_pos.ne'
    rw [none, negative_ofMagnitude hm.finite.le]
    obtain ⟨z, hz⟩ := exists_whole (show 0 < 2 ^ 53 by decide)
    have zero : z = 0 := units_eq_zero (hz.value.trans (Nat.zero_mul _))
    rw [ofInt_natCast hz, zero]
    rfl
  next => rfl

/-- Whole numbers of at most 53 bits are multiplied exactly. -/
theorem ofInt_mul (ha : a < 2 ^ 53) (hb : b < 2 ^ 53) (hprod : a * b < 2 ^ 53) :
    (ofInt a).mul (ofInt b) = ofInt (a * b : Nat) := by
  obtain ⟨m, hm⟩ := exists_whole ha
  obtain ⟨k, hk⟩ := exists_whole hb
  obtain ⟨p, hp⟩ := exists_whole hprod
  have units : a * unitsPerOne * (b * unitsPerOne) = a * b * unitsPerOne * unitsPerOne := by
    rw [Nat.mul_mul_mul_comm, ← Nat.mul_assoc]
  have product : roundUnits (a * unitsPerOne * (b * unitsPerOne)) unitsPerOne = p := by
    have scaled := roundUnits_scale (a * b * unitsPerOne) 1 unitsPerOne_pos
    rw [Nat.one_mul] at scaled
    rw [units]
    exact scaled.trans hp.round
  rw [ofInt_natCast hm, ofInt_natCast hk, ofInt_natCast hp, mul, ofMagnitude_isNaN hm.finite.le,
    ofMagnitude_isNaN hk.finite.le, magnitude_ofMagnitude hm.finite.le,
      magnitude_ofMagnitude hk.finite.le,
    negative_ofMagnitude hm.finite.le, negative_ofMagnitude hk.finite.le, hm.value, hk.value, product,
    if_neg (by decide), if_neg (not_or.mpr ⟨hm.finite.ne, hk.finite.ne⟩)]
  rfl

/-- A quotient of whole numbers is the decimal nearest to it. -/
theorem ofInt_div (ha : a < 2 ^ 53) (hb : b < 2 ^ 53) (ne : b ≠ 0) :
    (ofInt a).div (ofInt b) = ofMagnitude false (roundUnits (a * unitsPerOne) b) := by
  obtain ⟨m, hm⟩ := exists_whole ha
  obtain ⟨k, hk⟩ := exists_whole hb
  rw [ofInt_natCast hm, ofInt_natCast hk, div, ofMagnitude_isNaN hm.finite.le,
    ofMagnitude_isNaN hk.finite.le,
    magnitude_ofMagnitude hm.finite.le, magnitude_ofMagnitude hk.finite.le,
      negative_ofMagnitude hm.finite.le,
    negative_ofMagnitude hk.finite.le, hm.value, hk.value, roundUnits_scale _ _ unitsPerOne_pos,
    if_neg (by decide), if_neg hm.finite.ne, if_neg hk.finite.ne, if_neg (hk.pos ne)]
  rfl

end Whole

section Fractions

theorem roundHalfEven_le (num den : Nat) : roundHalfEven num den ≤ num / den + 1 := by
  unfold roundHalfEven
  dsimp only
  split <;> omega

/-- A fraction of at most fifteen digits is a normal number below one. -/
theorem fraction_log2 {n k : Nat} (ne : n ≠ 0) (below : n < 10 ^ k) (short : k ≤ 15) :
    53 ≤ (n * unitsPerOne / 10 ^ k).log2 ∧ (n * unitsPerOne / 10 ^ k).log2 < 1074 := by
  have pos : 0 < 10 ^ k := Nat.pow_pos (by decide)
  have den : 10 ^ k ≤ 2 ^ 50 := (Nat.pow_le_pow_right (by decide) short).trans (by decide)
  have many : unitsPerOne ≤ n * unitsPerOne := Nat.le_mul_of_pos_left _ (Nat.pos_of_ne_zero ne)
  have enough : 2 ^ 50 ≤ unitsPerOne := by decide +kernel
  have filled : n * unitsPerOne / 10 ^ k ≠ 0 := (Nat.div_pos (den.trans (enough.trans many)) pos).ne'
  constructor
  · have room : 2 ^ 53 * 2 ^ 50 ≤ unitsPerOne := by decide +kernel
    rw [Nat.le_log2 filled, Nat.le_div_iff_mul_le pos]
    exact (Nat.mul_le_mul_left _ den).trans (room.trans many)
  · have high : n * unitsPerOne / 10 ^ k < unitsPerOne := by
      rw [Nat.div_lt_iff_lt_mul pos, Nat.mul_comm]
      exact (Nat.mul_lt_mul_left unitsPerOne_pos).mpr below
    rw [Nat.log2_eq_log_two]
    refine Nat.log_lt_of_lt_pow filled (high.trans_eq ?_)
    rw [unitsPerOne]

/-- Such a fraction is neither too small nor too large to be converted. -/
theorem ofDecimal_fraction {n k : Nat} (below : n < 10 ^ k) (short : k ≤ 15) :
    ofDecimal n k = some (ofMagnitude false (roundUnits (n * unitsPerOne) (10 ^ k))) := by
  by_cases zero : n = 0
  · have none : roundUnits (n * unitsPerOne) (10 ^ k) = 0 := by
      rw [zero, Nat.zero_mul]
      simp [roundUnits, roundHalfEven]
    simp only [ofDecimal, none]
    rw [if_neg (by decide), if_neg (by simp [zero])]
  · obtain ⟨low, high⟩ := fraction_log2 zero below short
    generalize hq : n * unitsPerOne / 10 ^ k = q at low high
    have rounded : roundHalfEven (n * unitsPerOne) (10 ^ k * 2 ^ (q.log2 - 52)) ≤ 2 ^ 53 := by
      refine (roundHalfEven_le _ _).trans (Nat.succ_le_of_lt ?_)
      rw [← Nat.div_div_eq_div_mul, hq, Nat.div_lt_iff_lt_mul (Nat.pow_pos (by decide)), ← pow_add,
        show 53 + (q.log2 - 52) = q.log2 + 1 by omega]
      exact Nat.lt_log2_self
    have room : 1022 * 2 ^ 52 + 2 ^ 53 < infinite := by decide
    have bounds : 2 ^ 52 ≤ (q.log2 - 52) * 2 ^ 52 ∧ (q.log2 - 52) * 2 ^ 52 ≤ 1022 * 2 ^ 52 :=
      ⟨Nat.le_mul_of_pos_left _ (by omega), Nat.mul_le_mul_right _ (by omega)⟩
    have value : roundUnits (n * unitsPerOne) (10 ^ k) = (q.log2 - 52) * 2 ^ 52 +
        roundHalfEven (n * unitsPerOne) (10 ^ k * 2 ^ (q.log2 - 52)) := by
      rw [roundUnits, hq]
      exact min_eq_left (by omega)
    simp only [ofDecimal]
    rw [if_neg (by omega), if_neg (by omega)]

end Fractions

end Binary64

end FsCore
