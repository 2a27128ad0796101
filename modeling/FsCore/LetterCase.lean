import FsCore.CText
import FsCore.Words
import Mathlib

namespace FsCore

section Characters

variable {c d : Char}

theorem toLower_of_not_alpha (h : c.isAlpha = false) : c.toLower = c := by
  rw [Char.isAlpha, Bool.or_eq_false_iff] at h
  exact Char.toLower_eq_of_not_isUpper (by simp [h.1])

/-- A character that is no letter has one case. -/
theorem toLower_eq_iff (h : d.isAlpha = false) : c.toLower = d ↔ c = d := by
  cases letter : c.isAlpha with
  | false => rw [toLower_of_not_alpha letter]
  | true =>
    refine iff_of_false ?_ ?_
    · rintro rfl
      rw [Char.isAlpha_toLower_eq_isAlpha, letter] at h
      cases h
    · rintro rfl
      rw [letter] at h
      cases h

theorem pred_toLower {p : Char → Bool} (h : ∀ c, c.isAlpha = true → p c = false) (c : Char) :
    p c.toLower = p c := by
  cases letter : c.isAlpha with
  | false => rw [toLower_of_not_alpha letter]
  | true => rw [h c letter, h c.toLower (by rw [Char.isAlpha_toLower_eq_isAlpha, letter])]

theorem eq_or_of_toLower (h : c.toLower = d) : c = d ∨ c = d.toUpper := by
  cases upper : c.isUpper with
  | false => exact Or.inl ((Char.toLower_eq_of_not_isUpper (by simp [upper])).symm.trans h)
  | true =>
    have same : c.toUpper = c := Char.toUpper_eq_of_not_isLower (Char.not_isLower_of_isUpper upper)
    right
    rw [← h, Char.toUpper_toLower_eq_toUpper, same]

theorem isAlpha_range (h : c.isAlpha = true) : 65 ≤ c.toNat := by
  simp only [Char.isAlpha, Char.isUpper, Char.isLower, Bool.or_eq_true, Bool.and_eq_true,
    decide_eq_true_eq, UInt32.le_iff_toNat_le] at h
  rcases h with ⟨low, -⟩ | ⟨low, -⟩
  · exact low
  · exact (show 65 ≤ 97 by decide).trans low

theorem isDigit_toLower (c : Char) : c.toLower.isDigit = c.isDigit := by
  refine pred_toLower (fun c letter => Bool.eq_false_iff.mpr fun digit => ?_) c
  have low := isAlpha_range letter
  have high : c.toNat ≤ 57 :=
    UInt32.le_iff_toNat_le.mp (of_decide_eq_true ((Bool.and_eq_true _ _).mp digit).2)
  omega

theorem isSpace_toLower_eq (c : Char) : isSpace c.toLower = isSpace c := by
  refine pred_toLower (fun c letter => Bool.eq_false_iff.mpr fun space => ?_) c
  have low := isAlpha_range letter
  simp only [isSpace, Bool.or_eq_true, Bool.and_eq_true, decide_eq_true_eq] at space
  rcases space with rfl | ⟨-, high⟩
  · exact absurd low (by decide)
  · omega

theorem digitValue_toLower (c : Char) : digitValue c.toLower = digitValue c := by
  unfold digitValue
  rw [isDigit_toLower, Char.isAlpha_toLower_eq_isAlpha, Char.toLower_toLower_eq_toLower]
  split
  next digit =>
    have other : c.isAlpha = false := by
      refine Bool.eq_false_iff.mpr fun letter => ?_
      have low := isAlpha_range letter
      have high : c.toNat ≤ 57 :=
        UInt32.le_iff_toNat_le.mp (of_decide_eq_true ((Bool.and_eq_true _ _).mp digit).2)
      omega
    rw [toLower_of_not_alpha other]
  next => rfl

end Characters

section Numerals

theorem integerPrefix_toLower (base : Nat) (s : List Char) :
    integerPrefix base (s.map Char.toLower) = integerPrefix base s :=
  integerPrefix_map isSpace_toLower_eq digitValue_toLower
    (fun c d h => toLower_eq_iff (by rcases h with rfl | rfl | rfl <;> decide))
      Char.toLower_toLower_eq_toLower base s

theorem stoul_toLower (base : Nat) (s : List Char) : stoul base (s.map Char.toLower) =
    stoul base s := by
  rw [stoul, stoul, integerPrefix_toLower]

theorem stoi_toLower (base : Nat) (s : List Char) : stoi base (s.map Char.toLower) = stoi base s := by
  rw [stoi, stoi, integerPrefix_toLower]

theorem stod_toLower (s : List Char) : stod (s.map Char.toLower) = stod s := by
  unfold stod
  dsimp only
  rw [takeWhile_map isDigit_toLower, dropWhile_map isDigit_toLower]
  cases s.dropWhile Char.isDigit with
  | nil => rfl
  | cons c fraction =>
    by_cases point : c = '.'
    · have all : (fraction.map Char.toLower).all Char.isDigit = fraction.all Char.isDigit := by
        rw [List.all_map, show Char.isDigit ∘ Char.toLower = Char.isDigit from funext isDigit_toLower]
      simp only [point, List.map_cons, show '.'.toLower = '.' by decide, ← List.map_append,
        map_digitValue digitValue_toLower, List.length_map, all, ne_eq, List.map_eq_nil_iff]
    · have other : c.toLower ≠ '.' := mt (toLower_eq_iff (by decide)).mp point
      simp [point, other]

end Numerals

end FsCore
