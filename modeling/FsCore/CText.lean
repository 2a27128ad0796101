import FsCore.Binary64
import FsCore.Words
import Mathlib.Data.List.TakeWhile
import Mathlib.Data.Nat.Digits.Defs

namespace FsCore

/-- `isspace` of the C locale. -/
def isSpace (c : Char) : Bool := c = ' ' || (9 ≤ c.toNat && c.toNat ≤ 13)

/-- Letters stand for ten and on, in either case. -/
def digitValue (c : Char) : Nat :=
  if c.isDigit then c.toNat - '0'.toNat
  else if c.isAlpha then c.toLower.toNat - 'a'.toNat + 10
  else 36

/-- What `strtol` reads at the beginning of a text. -/
structure IntegerPrefix where
  negative : Bool
  magnitude : Nat
  length : Nat

def integerPrefix (base : Nat) (s : List Char) : Option IntegerPrefix :=
  let blanks := (s.takeWhile isSpace).length
  let sign := if (s.drop blanks).head? = some '-' ∨ (s.drop blanks).head? = some '+' then 1 else 0
  let radix := match s.drop (blanks + sign) with
    | '0' :: x :: d :: _ => if base = 16 ∧ x.toLower = 'x' ∧ digitValue d < 16 then 2 else 0
    | _ => 0
  let start := blanks + sign + radix
  let digits := (s.drop start).takeWhile (fun c => digitValue c < base)
  if digits = [] then none
  else some ⟨(s.drop blanks).head? = some '-', Nat.ofDigits base (digits.map digitValue).reverse,
    start + digits.length⟩

/-- The value and the position after it; none where `std::stoul` throws. -/
def stoul (base : Nat) (s : List Char) : Option (Nat × Nat) :=
  match integerPrefix base s with
  | none => none
  | some n =>
    if 2 ^ 64 ≤ n.magnitude then none
    else some (if n.negative then (2 ^ 64 - n.magnitude) % 2 ^ 64 else n.magnitude, n.length)

def stoi (base : Nat) (s : List Char) : Option Int :=
  match integerPrefix base s with
  | none => none
  | some n =>
    let value : Int := if n.negative then -(n.magnitude : Int) else n.magnitude
    if -2 ^ 31 ≤ value ∧ value < 2 ^ 31 then some value else none

/-- `std::stod` of digits, a point and digits. -/
def stod (s : List Char) : Option Binary64 :=
  let whole := s.takeWhile Char.isDigit
  match s.dropWhile Char.isDigit with
  | '.' :: fraction =>
    if whole ≠ [] ∧ fraction ≠ [] ∧ fraction.all Char.isDigit then
      Binary64.ofDecimal (Nat.ofDigits 10 ((whole ++ fraction).map digitValue).reverse) fraction.length
    else none
  | _ => none

/-- `static_cast<int>` of a size -/
def intOfSize (n : Nat) : Int := (n : Int).bmod (2 ^ 32)

theorem intOfSize_le (n : Nat) : intOfSize n ≤ n := by
  unfold intOfSize Int.bmod
  dsimp only
  split <;> omega

theorem intOfSize_of_lt {n : Nat} (h : n < 2 ^ 31) : intOfSize n = n := by
  unfold intOfSize Int.bmod
  dsimp only
  split <;> omega

theorem intOfSize_neg {n : Nat} (low : 2 ^ 31 ≤ n) (high : n < 2 ^ 32) : intOfSize n < 0 := by
  unfold intOfSize Int.bmod
  dsimp only
  split <;> omega

/-- The lines that `std::getline` delivers. -/
def getLines : List Char → List (List Char)
  | [] => []
  | c :: rest =>
    if c = '\n' then [] :: getLines rest
    else
      match getLines rest with
      | [] => [[c]]
      | line :: lines => (c :: line) :: lines

/-- A token of digits that stand for a number. -/
structure IsNumeral (base : Nat) (token : List Char) (value : Nat) : Prop where
  ne : token ≠ []
  digits : ∀ c ∈ token, digitValue c < base
  value : Nat.ofDigits base (token.map digitValue).reverse = value

instance (base value : Nat) (token : List Char) : Decidable (IsNumeral base token value) :=
  decidable_of_iff (token ≠ [] ∧ token.all (fun c => digitValue c < base) = true ∧
      Nat.ofDigits base (token.map digitValue).reverse = value) <| by
    simp only [List.all_eq_true, decide_eq_true_eq]
    exact ⟨fun ⟨ne, digits, value⟩ => ⟨ne, digits, value⟩, fun h => ⟨h.ne, h.digits, h.value⟩⟩

theorem digitValue_ranges {c : Char} (h : digitValue c < 16) :
    (48 ≤ c.toNat ∧ c.toNat ≤ 57) ∨ (65 ≤ c.toNat ∧ c.toNat ≤ 70) ∨ (97 ≤ c.toNat ∧ c.toNat ≤ 102) := by
  have val : c.val.toNat = c.toNat := rfl
  unfold digitValue at h
  split at h
  next digit =>
    simp only [Char.isDigit, Bool.and_eq_true, decide_eq_true_eq, ge_iff_le,
      UInt32.le_iff_toNat_le, val] at digit
    exact Or.inl digit
  next =>
    split at h
    next alpha =>
      unfold Char.isAlpha Char.isUpper Char.isLower at alpha
      simp only [Bool.or_eq_true, Bool.and_eq_true, decide_eq_true_eq, ge_iff_le,
        UInt32.le_iff_toNat_le, val] at alpha
      change (65 ≤ c.toNat ∧ c.toNat ≤ 90) ∨ (97 ≤ c.toNat ∧ c.toNat ≤ 122) at alpha
      change c.toLower.toNat - 97 + 10 < 16 at h
      unfold Char.toLower at h
      split at h
      next upper =>
        have high : c.toNat ≤ 90 := UInt32.le_iff_toNat_le.mp upper.2
        have sum : (c.val + ('a'.val - 'A'.val)).toNat = c.toNat + 32 := by
          rw [UInt32.toNat_add, val]
          exact Nat.mod_eq_of_lt (by simp; omega)
        change (c.val + ('a'.val - 'A'.val)).toNat - 97 + 10 < 16 at h
        rw [sum] at h
        omega
      next lower =>
        simp only [ge_iff_le, UInt32.le_iff_toNat_le, val] at lower
        change ¬ (65 ≤ c.toNat ∧ c.toNat ≤ 90) at lower
        omega
    next => omega

theorem digitValue_ne {c a : Char} (h : digitValue c < 16) (ha : 16 ≤ digitValue a) : c ≠ a := by
  rintro rfl
  omega

theorem isSpace_eq_false {c : Char} (h : digitValue c < 16) : isSpace c = false := by
  have ranges := digitValue_ranges h
  have blank : c ≠ ' ' := digitValue_ne h (by decide)
  simp only [isSpace, Bool.or_eq_false_iff, Bool.and_eq_false_imp, decide_eq_true_eq,
    decide_eq_false_iff_not]
  exact ⟨blank, fun _ => by omega⟩

theorem toLower_le {c : Char} (h : digitValue c < 16) : c.toLower.toNat ≤ 102 := by
  have ranges := digitValue_ranges h
  unfold Char.toLower
  split
  next upper =>
    have sum : (c.val + ('a'.val - 'A'.val)).toNat = (c.toNat + 32) % 2 ^ 32 := UInt32.toNat_add _ _
    have low : c.toNat ≤ 90 := UInt32.le_iff_toNat_le.mp upper.2
    change (c.val + ('a'.val - 'A'.val)).toNat ≤ 102
    omega
  next => omega

/-- The letter of the radix prefix is no digit. -/
theorem toLower_ne_x {c : Char} (h : digitValue c < 16) : c.toLower ≠ 'x' := by
  intro eq
  have small := toLower_le h
  rw [eq] at small
  exact absurd small (by decide)

section Numerals

variable {base value : Nat} {token : List Char}

theorem IsNumeral.isSpace (h : IsNumeral base token value) (small : base ≤ 16) :
    ∀ c ∈ token, isSpace c = false :=
  fun c hc => isSpace_eq_false (lt_of_lt_of_le (h.digits c hc) small)

theorem integerPrefix_numeral (h : IsNumeral base token value) (small : base ≤ 16) :
    integerPrefix base token = some ⟨false, value, token.length⟩ := by
  have digit : ∀ c ∈ token, digitValue c < 16 := fun c hc => lt_of_lt_of_le (h.digits c hc) small
  have blanks : token.takeWhile FsCore.isSpace = [] := by
    cases token with
    | nil => rfl
    | cons c rest => exact List.takeWhile_cons_of_neg (by simp [isSpace_eq_false (digit c (by simp))])
  have sign {a : Char} (ha : 16 ≤ digitValue a) : (token.head? = some a) = False :=
    eq_false fun first => digitValue_ne (digit _ (List.mem_of_mem_head? first)) ha rfl
  have minus := sign (a := '-') (by decide)
  have plus := sign (a := '+') (by decide)
  have all : token.takeWhile (fun c => decide (digitValue c < base)) = token :=
    List.takeWhile_eq_self_iff.mpr fun c hc => decide_eq_true (h.digits c hc)
  have radix : (match token with
      | '0' :: x :: d :: _ => if base = 16 ∧ x.toLower = 'x' ∧ digitValue d < 16 then 2 else 0
      | _ => 0) = 0 := by
    split
    next x d rest => rw [if_neg fun h => toLower_ne_x (digit x (by simp)) h.2.1]
    next => rfl
  simp only [integerPrefix, blanks, List.length_nil, List.drop_zero, minus, plus, or_self,
    if_false, Nat.add_zero, radix, all, if_neg h.ne, h.value, decide_false, Nat.zero_add]

theorem stoul_numeral (h : IsNumeral base token value) (small : base ≤ 16) (bound : value < 2 ^ 64) :
    stoul base token = some (value, token.length) := by
  simp only [stoul, integerPrefix_numeral h small, if_neg (not_le.mpr bound),
    Bool.false_eq_true, if_false]

theorem stoi_numeral (h : IsNumeral base token value) (small : base ≤ 16) (bound : value < 2 ^ 31) :
    stoi base token = some (value : Int) := by
  simp only [stoi, integerPrefix_numeral h small, Bool.false_eq_true, if_false]
  rw [if_pos ⟨by omega, by omega⟩]

end Numerals

section Prefix

/-- What stands behind the blanks and the sign. -/
def unsigned (s : List Char) : List Char :=
  let blanks := (s.takeWhile isSpace).length
  s.drop (blanks + if (s.drop blanks).head? = some '-' ∨ (s.drop blanks).head? = some '+' then 1 else 0)

def isNegative (s : List Char) : Bool := (s.drop (s.takeWhile isSpace).length).head? = some '-'

/-- A numeral without the prefix of hexadecimal ones. -/
theorem integerPrefix_plain {base : Nat} {s : List Char}
    (plain : ∀ x d rest, unsigned s = '0' :: x :: d :: rest →
      ¬ (base = 16 ∧ x.toLower = 'x' ∧ digitValue d < 16)) :
    ∃ start, start + (unsigned s).length = s.length ∧ integerPrefix base s =
      if (unsigned s).takeWhile (fun c => digitValue c < base) = [] then none
      else some ⟨isNegative s,
        Nat.ofDigits base (((unsigned s).takeWhile (fun c => digitValue c < base)).map
          digitValue).reverse,
        start + ((unsigned s).takeWhile (fun c => digitValue c < base)).length⟩ := by
  have radix : (match unsigned s with
      | '0' :: x :: d :: _ => if base = 16 ∧ x.toLower = 'x' ∧ digitValue d < 16 then 2 else 0
      | _ => 0) = 0 := by
    split
    next x d rest h => exact if_neg (plain x d rest h)
    next => rfl
  simp only [unsigned] at radix
  simp only [integerPrefix, radix, Nat.add_zero]
  refine ⟨_, ?_, rfl⟩
  have blanks : (s.takeWhile FsCore.isSpace).length ≤ s.length := (List.takeWhile_prefix _).length_le
  simp only [unsigned, List.length_drop]
  split
  next sign =>
    have more : s.drop (s.takeWhile FsCore.isSpace).length ≠ [] := by
      intro none
      rw [none] at sign
      rcases sign with h | h <;> cases h
    have := List.length_pos_iff.mpr more
    rw [List.length_drop] at this
    omega
  next => omega

/-- A text that is a decimal numeral as a whole is a hexadecimal one too. -/
theorem integerPrefix_hex {token : List Char} {n : IntegerPrefix} (h : integerPrefix 10 token = some n)
    (whole : n.length = token.length) : ∃ digits, (∀ d ∈ digits, d < 10) ∧
      n.magnitude = Nat.ofDigits 10 digits ∧ n.negative = isNegative token ∧
      integerPrefix 16 token = some ⟨isNegative token, Nat.ofDigits 16 digits, token.length⟩ := by
  obtain ⟨start, size, dec⟩ := @integerPrefix_plain 10 token fun _ _ _ _ h => absurd h.1 (by decide)
  rw [dec] at h
  split at h
  next => cases h
  next ne =>
    cases h
    have all : (unsigned token).takeWhile (fun c => decide (digitValue c < 10)) = unsigned token := by
      refine (List.takeWhile_prefix _).eq_of_length ?_
      dsimp only at whole
      omega
    have digit : ∀ c ∈ unsigned token, digitValue c < 10 := fun c hc =>
      of_decide_eq_true (List.takeWhile_eq_self_iff.mp all c hc)
    have hexAll : (unsigned token).takeWhile (fun c => decide (digitValue c < 16)) = unsigned token :=
      List.takeWhile_eq_self_iff.mpr fun c hc => decide_eq_true ((digit c hc).trans (by decide))
    obtain ⟨start', size', hex⟩ := @integerPrefix_plain 16 token fun x d rest eq h =>
      toLower_ne_x ((digit x (by simp [eq])).trans (by decide)) h.2.1
    rw [all] at ne ⊢
    rw [hexAll, if_neg ne, size'] at hex
    refine ⟨((unsigned token).map digitValue).reverse, fun d hd => ?_, rfl, rfl, hex⟩
    obtain ⟨c, hc, rfl⟩ := List.mem_map.mp (List.mem_reverse.mp hd)
    exact digit c hc

end Prefix

section Map

variable {f : Char → Char}

theorem map_digitValue (digit : ∀ c, digitValue (f c) = digitValue c) (digits : List Char) :
    (digits.map f).map digitValue = digits.map digitValue := by
  rw [List.map_map]
  exact List.map_congr_left fun c _ => digit c

/-- Characters that `strtol` does not tell apart may be exchanged. -/
theorem integerPrefix_map (space : ∀ c, isSpace (f c) = isSpace c)
    (digit : ∀ c, digitValue (f c) = digitValue c)
    (mark : ∀ c d, d = '0' ∨ d = '-' ∨ d = '+' → (f c = d ↔ c = d))
    (fold : ∀ c, (f c).toLower = c.toLower) (base : Nat) (s : List Char) :
    integerPrefix base (s.map f) = integerPrefix base s := by
  have first {o : Option Char} {d : Char} (hd : d = '0' ∨ d = '-' ∨ d = '+') : o.map f = some d ↔
    o = some d := by
    cases o with
    | none => simp
    | some c => simp [mark c d hd]
  have digits (s : List Char) : (s.map f).takeWhile (fun c => decide (digitValue c < base)) =
      (s.takeWhile (fun c => decide (digitValue c < base))).map f :=
    takeWhile_map (fun c => by rw [digit]) s
  have radix (s : List Char) : (match s.map f with
        | '0' :: x :: d :: _ => if base = 16 ∧ x.toLower = 'x' ∧ digitValue d < 16 then 2 else 0
        | _ => 0) =
      match s with
        | '0' :: x :: d :: _ => if base = 16 ∧ x.toLower = 'x' ∧ digitValue d < 16 then 2 else 0
        | _ => 0 := by
    rcases s with _ | ⟨a, _ | ⟨x, _ | ⟨d, rest⟩⟩⟩
    · rfl
    · simp
    · simp
    · by_cases zero : a = '0'
      · subst zero
        have same : f '0' = '0' := (mark _ _ (.inl rfl)).mpr rfl
        simp only [List.map_cons, same, fold, digit]
      · have other : f a ≠ '0' := mt (mark a '0' (.inl rfl)).mp zero
        simp [zero, other]
  simp only [integerPrefix, takeWhile_map space, List.length_map, ← List.map_drop, List.head?_map,
    first (.inr (.inl rfl)), first (.inr (.inr rfl)), radix, digits, List.map_eq_nil_iff,
      map_digitValue digit]

end Map

section Plain

/-- The token begins with a digit, and the radix prefix is not there: neither a sign nor
`0x` stands before the digits. -/
def PlainStart (base : Nat) (token : List Char) : Prop :=
  (∃ c ∈ token.head?, digitValue c < base) ∧ (token.drop 1).head?.map Char.toLower ≠ some 'x'

/-- Nothing stands behind the numeral that the token begins with. -/
def WholeNumeral (base : Nat) (token : List Char) : Prop :=
  ∃ n, integerPrefix base token = some n ∧ n.length = token.length

variable {base value : Nat} {token : List Char}

theorem IsNumeral.plainStart (h : IsNumeral base token value) (small : base ≤ 16) :
    PlainStart base token := by
  cases token with
  | nil => exact absurd rfl h.ne
  | cons c rest =>
    refine ⟨⟨c, rfl, h.digits c (by simp)⟩, fun second => ?_⟩
    obtain ⟨x, hx, eq⟩ := Option.map_eq_some_iff.mp second
    have digit := h.digits x (List.mem_of_mem_drop (List.mem_of_mem_head? hx))
    exact toLower_ne_x (lt_of_lt_of_le digit small) eq

theorem IsNumeral.whole (h : IsNumeral base token value) (small : base ≤ 16) :
    WholeNumeral base token :=
  ⟨_, integerPrefix_numeral h small, rfl⟩

/-- A numeral without a sign and a prefix that is the token as a whole. -/
theorem PlainStart.numeral {n : IntegerPrefix} (plain : PlainStart base token) (small : base ≤ 16)
    (h : integerPrefix base token = some n) (whole : n.length = token.length) :
    n.negative = false ∧ IsNumeral base token n.magnitude := by
  obtain ⟨⟨c, hc, digit⟩, second⟩ := plain
  cases token with
  | nil => cases hc
  | cons a rest =>
    obtain rfl : a = c := by simpa using hc
    have digit' : digitValue a < 16 := lt_of_lt_of_le digit small
    have blanks : ((a :: rest).takeWhile isSpace).length = 0 := by
      rw [List.takeWhile_cons_of_neg (by simp [isSpace_eq_false digit'])]
      rfl
    have minus : a ≠ '-' := digitValue_ne digit' (by decide)
    have plus : a ≠ '+' := digitValue_ne digit' (by decide)
    have start : unsigned (a :: rest) = a :: rest := by
      simp [unsigned, blanks, minus, plus]
    have positive : isNegative (a :: rest) = false := by
      simp [isNegative, blanks, minus]
    obtain ⟨k, size, read⟩ := @integerPrefix_plain base (a :: rest) fun x d more eq prefixed => by
      rw [start] at eq
      rw [eq] at second
      exact second (congrArg some prefixed.2.1)
    rw [start] at size read
    rw [read] at h
    split at h
    next => cases h
    next ne =>
      cases h
      dsimp only at whole
      have all : (a :: rest).takeWhile (fun c => decide (digitValue c < base)) = a :: rest :=
        (List.takeWhile_prefix _).eq_of_length (by omega)
      refine ⟨positive, by simp, fun c hc => ?_, by rw [all]⟩
      exact of_decide_eq_true (List.takeWhile_eq_self_iff.mp all c hc)

theorem IsNumeral.unique {value' : Nat} (h : IsNumeral base token value)
    (h' : IsNumeral base token value') : value = value' := h.value.symm.trans h'.value

/-- What `std::stoul` takes as a whole is a numeral unless there is a sign or a prefix. -/
theorem stoul_numeral_iff (small : base ≤ 16) (h : stoul base token = some (value, token.length)) :
    IsNumeral base token value ↔ PlainStart base token := by
  refine ⟨fun numeral => numeral.plainStart small, fun plain => ?_⟩
  unfold stoul at h
  split at h
  next => cases h
  next n read =>
    split at h
    next => cases h
    next =>
      obtain ⟨value, whole⟩ := Prod.mk.inj (Option.some.inj h)
      obtain ⟨positive, numeral⟩ := plain.numeral small read whole
      rw [positive, if_neg Bool.false_ne_true] at value
      rwa [← value]

/-- What `std::stoi` converts is a numeral if it is all of the token, with neither sign nor prefix. -/
theorem stoi_numeral_iff {v : Int} (small : base ≤ 16) (h : stoi base token = some v) :
    (∃ n, IsNumeral base token n ∧ (n : Int) = v) ↔ PlainStart base token ∧
      WholeNumeral base token := by
  unfold stoi at h
  split at h
  next => cases h
  next n read =>
    dsimp only at h
    rw [Option.ite_none_right_eq_some] at h
    obtain ⟨-, h⟩ := h
    cases h
    constructor
    · intro h
      obtain ⟨k, numeral, -⟩ := h
      exact ⟨numeral.plainStart small, numeral.whole small⟩
    · intro h
      obtain ⟨plain, n', read', whole⟩ := h
      cases Option.some.inj (read.symm.trans read')
      obtain ⟨positive, numeral⟩ := plain.numeral small read whole
      exact ⟨_, numeral, by rw [positive, if_neg Bool.false_ne_true]⟩

end Plain

/-- A token that `std::stod` converts has a value that a start time of zero does not change. -/
theorem stod_add_zero {token : List Char} {t : Binary64} (h : stod token = some t) :
    t.add Binary64.zero = t := by
  unfold stod at h
  dsimp only at h
  split at h
  next =>
    split at h
    next => exact Binary64.ofDecimal_add_zero h
    next => cases h
  next => cases h

theorem stod_isNaN {token : List Char} {t : Binary64} (h : stod token = some t) : t.isNaN = false := by
  unfold stod at h
  dsimp only at h
  split at h
  next =>
    split at h
    next => exact Binary64.ofDecimal_isNaN h
    next => cases h
  next => cases h

example : stoul 16 "0x1fz".toList = some (31, 4) := by decide

example : stoi 10 "-12 ".toList = some (-12) := by decide

example : getLines "a\n\nb".toList = ["a".toList, [], "b".toList] := by decide

end FsCore
