import FsCore.CText

namespace FsCore

theorem digitValue_digitChar {d : Nat} (h : d < 16) : digitValue d.digitChar = d := by
  have every : ∀ d < 16, digitValue d.digitChar = d := by decide
  exact every d h

/-- Every number has a numeral. -/
theorem exists_numeral {base : Nat} (h : 2 ≤ base) (small : base ≤ 16) (value : Nat) :
    ∃ token, IsNumeral base token value := by
  by_cases zero : value = 0
  · subst zero
    exact ⟨['0'], by simp, by simpa using lt_of_lt_of_le (by decide : digitValue '0' < 2) h, rfl⟩
  · have digit (d : Nat) (hd : d ∈ Nat.digits base value) : d < base := Nat.digits_lt_base h hd
    have values : ((Nat.digits base value).map Nat.digitChar).map digitValue =
      Nat.digits base value := by
      rw [List.map_map]
      conv_rhs => rw [← List.map_id (Nat.digits base value)]
      exact List.map_congr_left fun d hd => digitValue_digitChar ((digit d hd).trans_le small)
    refine ⟨((Nat.digits base value).map Nat.digitChar).reverse, ?_, ?_, ?_⟩
    · simpa [Nat.digits_ne_nil_iff_ne_zero] using zero
    · intro c hc
      obtain ⟨d, hd, rfl⟩ := List.mem_map.mp (List.mem_reverse.mp hc)
      rw [digitValue_digitChar ((digit d hd).trans_le small)]
      exact digit d hd
    · rw [List.map_reverse, List.reverse_reverse, values, Nat.ofDigits_digits]

/-- Decimal digits read as hexadecimal ones give the same number only below ten. -/
theorem ofDigits_hex_iff {digits : List Nat} (h : ∀ d ∈ digits, d < 10) :
    Nat.ofDigits 16 digits = Nat.ofDigits 10 digits ↔ Nat.ofDigits 10 digits < 10 := by
  induction digits with
  | nil => simp
  | cons d digits ih =>
    obtain ⟨hd, rest⟩ := List.forall_mem_cons.mp h
    have larger : Nat.ofDigits 10 digits ≤ Nat.ofDigits 16 digits :=
      Nat.ofDigits_monotone digits (by decide)
    have small := ih rest
    simp only [Nat.ofDigits_cons]
    omega

variable {token : List Char}

theorem integerPrefix_negative {base : Nat} {n : IntegerPrefix}
    (h : integerPrefix base token = some n) : n.negative = isNegative token := by
  simp only [integerPrefix, Option.ite_none_left_eq_some] at h
  rw [← Option.some.inj h.2, isNegative]

/-- The digits of a whole decimal token, for `std::stoul` in either base. -/
theorem stoul_hex {value : Nat} (dec : stoul 10 token = some (value, token.length)) :
    ∃ digits, (∀ d ∈ digits, d < 10) ∧ Nat.ofDigits 10 digits < 2 ^ 64 ∧
      (∃ n, integerPrefix 10 token = some n ∧ n.magnitude = Nat.ofDigits 10 digits) ∧
      value = (if isNegative token then (2 ^ 64 - Nat.ofDigits 10 digits) % 2 ^ 64
        else Nat.ofDigits 10 digits) ∧
      stoul 16 token = if 2 ^ 64 ≤ Nat.ofDigits 16 digits then none
        else some (if isNegative token then (2 ^ 64 - Nat.ofDigits 16 digits) % 2 ^ 64
          else Nat.ofDigits 16 digits, token.length) := by
  unfold stoul at dec
  split at dec
  next => cases dec
  next n hn =>
    split at dec
    next => cases dec
    next small =>
      obtain ⟨hvalue, whole⟩ := Prod.mk.inj (Option.some.inj dec)
      obtain ⟨digits, digit, magnitude, negative, hex⟩ := integerPrefix_hex hn whole
      refine ⟨digits, digit, by omega, ⟨n, hn, magnitude⟩, ?_, ?_⟩
      · rw [← hvalue, negative, magnitude]
      · rw [stoul, hex]

/-- A whole decimal token has its value in the other base too exactly below ten. -/
theorem stoul_hex_iff {value : Nat} (dec : stoul 10 token = some (value, token.length)) :
    stoul 16 token = some (value, token.length) ↔ ∃ n, integerPrefix 10 token = some n ∧
      n.magnitude < 10 := by
  obtain ⟨digits, digit, small, ⟨n, hn, magnitude⟩, rfl, hex⟩ := stoul_hex dec
  have same := ofDigits_hex_iff digit
  have below : (∃ n, integerPrefix 10 token = some n ∧ n.magnitude < 10) ↔
    Nat.ofDigits 10 digits < 10 := by
    rw [hn, ← magnitude]
    simp
  rw [below, hex, ← same]
  constructor
  · intro h
    split at h
    next => cases h
    next fits =>
      have equal := (Prod.mk.inj (Option.some.inj h)).1
      split at equal
      next => omega
      next => exact equal
  · intro h
    rw [h, if_neg (not_le.mpr small)]

theorem stoi_sign {base : Nat} {value : Int} (h : stoi base token = some value) :
    if isNegative token then value ≤ 0 else 0 ≤ value := by
  unfold stoi at h
  split at h
  next => cases h
  next n hn =>
    rw [Option.ite_none_right_eq_some] at h
    rw [← Option.some.inj h.2, integerPrefix_negative hn]
    cases isNegative token with
    | true => simp
    | false => simp

end FsCore
