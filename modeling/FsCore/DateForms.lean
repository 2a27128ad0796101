import FsCore.DateTimes

namespace FsCore

section Fractions

/-- The number that digits stand for. -/
def numeral (w : Text) : Nat := Nat.ofDigits 10 (w.map digitValue).reverse

theorem numeral_append (w : Text) (c : Char) : numeral (w ++ [c]) = numeral w * 10 + digitValue c := by
  simp [numeral, Nat.ofDigits_cons, Nat.mul_comm, Nat.add_comm]

theorem digitValue_digit {c : Char} (h : c.isDigit = true) :
    digitValue c < 10 ∧ ((c.toNat : Int) - ('0'.toNat : Nat) : Int) = digitValue c := by
  have range : 48 ≤ c.toNat ∧ c.toNat ≤ 57 := by
    simp only [Char.isDigit, Bool.and_eq_true, decide_eq_true_eq, ge_iff_le,
      UInt32.le_iff_toNat_le] at h
    exact h
  have zero : '0'.toNat = 48 := rfl
  rw [digitValue, if_pos h, zero]
  omega

theorem numeral_lt {w : Text} (h : ∀ c ∈ w, c.isDigit = true) : numeral w < 10 ^ w.length := by
  have all := Nat.ofDigits_lt_base_pow_length (b := 10) (by decide)
    (l := (w.map digitValue).reverse) (by
    intro x hx
    obtain ⟨c, hc, rfl⟩ := List.mem_map.mp (List.mem_reverse.mp hx)
    exact (digitValue_digit (h c hc)).1)
  simpa [numeral] using all

/-- The loop counts exactly: its sums and its scale are whole numbers of at most 53 bits. -/
theorem fractional_loop {w : Text} (h : ∀ c ∈ w, c.isDigit = true) (short : w.length ≤ 15) :
    w.foldl fractionalStep (Binary64.zero, Binary64.ofInt 1) =
      (Binary64.ofInt (numeral w), Binary64.ofInt (10 ^ w.length : Nat)) := by
  induction w using List.reverseRecOn with
  | nil => exact Prod.ext (by decide +kernel) rfl
  | append_singleton w c ih =>
    rw [List.length_append, List.length_singleton] at short
    have digit := digitValue_digit (h c (by simp))
    have front : ∀ c ∈ w, c.isDigit = true := fun c hc => h c (List.mem_append_left _ hc)
    have value := numeral_lt front
    have scale : 10 ^ w.length ≤ 10 ^ 14 := Nat.pow_le_pow_right (by decide) (by omega)
    have ten : Binary64.ofInt 10 = Binary64.ofInt ((10 : Nat) : Int) := rfl
    have times := @Binary64.ofInt_mul (numeral w) 10 (by omega) (by decide) (by omega)
    have plus := @Binary64.ofInt_add (numeral w * 10) (digitValue c) (by omega)
    have power := @Binary64.ofInt_mul (10 ^ w.length) 10 (by omega) (by decide) (by omega)
    rw [List.foldl_append, ih front (by omega), List.foldl_cons, List.foldl_nil, fractionalStep,
      digit.2, ten, times,
      plus, power, numeral_append, List.length_append, List.length_singleton, pow_succ]

/-- The fraction of a second has the value that the same digits have behind a zero and a point. -/
theorem stod_fraction {w : Text} (ne : w ≠ []) (h : ∀ c ∈ w, c.isDigit = true) (short : w.length ≤ 15) :
    stod ('0' :: '.' :: w) = some (fractionalToSeconds w) := by
  have whole : ('0' :: '.' :: w).takeWhile Char.isDigit = ['0'] := rfl
  have point : ('0' :: '.' :: w).dropWhile Char.isDigit = '.' :: w := rfl
  have zero : Nat.ofDigits 10 ((['0'] ++ w).map digitValue).reverse = numeral w := by
    simp [numeral, Nat.ofDigits_append, digitValue]
  have value := numeral_lt h
  have scale : 10 ^ w.length ≤ 10 ^ 15 := Nat.pow_le_pow_right (by decide) short
  have quotient : fractionalToSeconds w =
      Binary64.ofMagnitude false
        (Binary64.roundUnits (numeral w * Binary64.unitsPerOne) (10 ^ w.length)) := by
    rw [fractionalToSeconds, if_neg ne]
    simp only [fractional_loop h short]
    exact Binary64.ofInt_div (by omega) (by omega) (Nat.pow_pos (by decide)).ne'
  simp only [stod, whole, point, zero]
  rw [if_pos ⟨by decide, ne, List.all_eq_true.mpr h⟩, quotient]
  exact Binary64.ofDecimal_fraction value short

end Fractions

/-- The four patterns by what they ask for. -/
def datePattern (fraction half : Bool) : List (Piece Char) :=
  dateFront ++ ((if fraction then dateFraction else []) ++
    ((if half then dateHalf else []) ++ dateYear))

/-- A date in the order in which its parts stand: blanks are part of it. -/
structure DateText where
  month : Text
  gap1 : Text
  day : Text
  gap2 : Text
  hour : Text
  minute : Text
  second : Text
  fraction : Option Text
  half : Option (Text × Text × Text)
  gap3 : Text
  year : Text

namespace DateText

variable (d : DateText)

def fractionWords : List Text :=
  match d.fraction with
  | none => []
  | some digits => [['.'], digits]

/-- The half of the day, in two letters. -/
def halfWords : List Text :=
  match d.half with
  | none => []
  | some (gap, half, m) => [gap, half, m]

/-- What follows the month. -/
def later : List Text :=
  [d.gap1, d.day, d.gap2, d.hour, [':'], d.minute, [':'], d.second] ++
    (d.fractionWords ++ (d.halfWords ++ [d.gap3, d.year]))

def render : Text := (d.month :: d.later).flatten

/-- The parts are as the patterns ask. -/
structure WellFormed : Prop where
  month : (digits 1 2).Fits d.month
  gap1 : blanks.Fits d.gap1
  day : (digits 1 2).Fits d.day
  gap2 : blanks.Fits d.gap2
  hour : (digits 1 2).Fits d.hour
  minute : (digits 2 2).Fits d.minute
  second : (digits 2 2).Fits d.second
  fraction : ∀ w ∈ d.fraction, (digits 1 6).Fits w
  half : ∀ w ∈ d.half, blanks.Fits w.1 ∧ (oneOf "AaPp").Fits w.2.1 ∧ (oneOf "Mm").Fits w.2.2
  gap3 : blanks.Fits d.gap3
  year : (digits 4 4).Fits d.year

def form : List (Piece Char) := datePattern d.fraction.isSome d.half.isSome

/-- The hour of the day, with twelve o'clock in its half. -/
def hourOfDay : Int :=
  match d.half with
  | none => numeral d.hour
  | some (_, half, m) => hour12h (half ++ m) (numeral d.hour)

def seconds : Binary64 :=
  match d.fraction with
  | none => Binary64.zero
  | some digits => (stod ('0' :: '.' :: digits)).getD Binary64.zero

def parsed : ParsedDateTime :=
  ⟨numeral d.year, numeral d.month, numeral d.day, d.hourOfDay, numeral d.minute,
    numeral d.second, d.seconds⟩

end DateText

section Forms

theorem digits_apart_blanks (least most : Nat) : (digits least most).Apart blanks := by
  intro c hc
  have ranges := digitValue_digit hc
  exact isSpace_eq_false (ranges.1.trans (by decide))

theorem Piece.Apart.symm {α : Type} {p q : Piece α} (h : p.Apart q) : q.Apart p := by
  intro a ha
  cases hp : p.accepts a with
  | false => rfl
  | true =>
    rw [h a hp] at ha
    cases ha

theorem oneOf_accepts {cs : String} {c : Char} (h : (oneOf cs).accepts c = true) : c ∈ cs.toList := by
  simpa [oneOf] using h

/-- A few characters none of which another class has. -/
theorem oneOf_apart {cs : String} {q : Piece Char} (h : cs.toList.all (fun c => !q.accepts c) = true) :
    (oneOf cs).Apart q := by
  intro c hc
  simpa using List.all_eq_true.mp h c (oneOf_accepts hc)

theorem oneOf_apart_digits {cs : String} (h : cs.toList.all (fun c => !c.isDigit) = true)
    (least most : Nat) : (oneOf cs).Apart (digits least most) := oneOf_apart h

/-- The classes of a date tell its words apart. -/
theorem datePattern_separate (fraction half : Bool) : Separate (datePattern fraction half) := by
  have blank (least most : Nat) : (digits least most).Apart blanks := digits_apart_blanks least most
  have number (least most : Nat) : blanks.Apart (digits least most) :=
    (digits_apart_blanks least most).symm
  have colon (least most : Nat) : (oneOf ":").Apart (digits least most) :=
    oneOf_apart_digits (by decide) _ _
  have toColon (least most : Nat) : (digits least most).Apart (oneOf ":") := (colon least most).symm
  have point (least most : Nat) : (oneOf ".").Apart (digits least most) :=
    oneOf_apart_digits (by decide) _ _
  have toPoint (least most : Nat) : (digits least most).Apart (oneOf ".") := (point least most).symm
  have inHalf : blanks.Apart (oneOf "AaPp") := (oneOf_apart (q := blanks) (by decide)).symm
  have letters : (oneOf "AaPp").Apart (oneOf "Mm") := oneOf_apart (by decide)
  have year : (oneOf "Mm").Apart blanks := oneOf_apart (by decide)
  cases fraction <;> cases half <;>
    refine ⟨by decide, ?_⟩ <;>
    simp [datePattern, dateFront, dateFraction, dateHalf, dateYear, List.isChain_cons_cons,
      blank, number, colon, toColon, point, toPoint, inHalf, letters, year]

/-- A date has one form only: the other patterns do not match it. -/
theorem datePattern_inj {fraction half fraction' half' : Bool} {ws vs : List Text}
    (hw : List.Forall₂ Piece.Fits (datePattern fraction half) ws)
    (hv : List.Forall₂ Piece.Fits (datePattern fraction' half') vs) (same : ws.flatten = vs.flatten) :
    fraction = fraction' ∧ half = half' := by
  have point : (oneOf ".").Apart blanks := oneOf_apart (by decide)
  have letter : (oneOf "AaPp").Apart (digits 4 4) := oneOf_apart_digits (by decide) _ _
  -- after the seconds stands a point or a blank, after the blanks a letter or a digit
  have part {f h f' h' : Bool} {ws vs : List Text} (hw : List.Forall₂ Piece.Fits (datePattern f h) ws)
      (hv : List.Forall₂ Piece.Fits (datePattern f' h') vs)
        (same : ws.flatten = vs.flatten) (hf : f = true)
      (hf' : f' = false) : False := by
    subst hf hf'
    have hps := datePattern_separate true h
    have hqs := datePattern_separate false h'
    cases h' with
    | true => exact @fits_apart _ dateFront _ _ _ _ _ _ hps hqs point hw hv same
    | false => exact @fits_apart _ dateFront _ _ _ _ _ _ hps hqs point hw hv same
  have partHalf {f h h' : Bool} {ws vs : List Text} (hw : List.Forall₂ Piece.Fits (datePattern f h) ws)
      (hv : List.Forall₂ Piece.Fits (datePattern f h') vs)
        (same : ws.flatten = vs.flatten) (hh : h = true)
      (hh' : h' = false) : False := by
    subst hh hh'
    have hps := datePattern_separate f true
    have hqs := datePattern_separate f false
    cases f with
    | true =>
      exact @fits_apart _
        (dateFront ++ dateFraction ++ [blanks]) _ _ _ _ _ _ hps hqs letter hw hv same
    | false => exact @fits_apart _ (dateFront ++ [blanks]) _ _ _ _ _ _ hps hqs letter hw hv same
  obtain rfl : fraction = fraction' := by
    cases fraction <;> cases fraction'
    · rfl
    · exact (part hv hw same.symm rfl rfl).elim
    · exact (part hw hv same rfl rfl).elim
    · rfl
  refine ⟨rfl, ?_⟩
  cases half <;> cases half'
  · rfl
  · exact (partHalf hv hw same.symm rfl rfl).elim
  · exact (partHalf hw hv same rfl rfl).elim
  · rfl

theorem fits_mark {c : Char} {cs : String} (h : cs.toList = [c]) {w : Text} :
    (oneOf cs).Fits w ↔ w = [c] := by
  constructor
  · intro fits
    have one : w.length = 1 := le_antisymm (fits.most 1 rfl) fits.least
    obtain ⟨a, rfl⟩ := List.length_eq_one_iff.mp one
    have mem := oneOf_accepts (fits.all a (by simp))
    rw [h, List.mem_singleton] at mem
    rw [mem]
  · intro eq
    subst eq
    exact ⟨by simp [oneOf, h], le_rfl, by simp [oneOf]⟩

theorem wellFormed_iff {d : DateText} : d.WellFormed ↔
    List.Forall₂ Piece.Fits d.form (d.month :: d.later) := by
  have colon : (oneOf ":").Fits [':'] := (fits_mark rfl).mpr rfl
  have point : (oneOf ".").Fits ['.'] := (fits_mark rfl).mpr rfl
  obtain ⟨month, gap1, day, gap2, hour, minute, second, fraction, half, gap3, year⟩ := d
  constructor
  · intro h
    obtain ⟨hmonth, hgap1, hday, hgap2, hhour, hminute, hsecond, hfraction, hhalf, hgap3, hyear⟩ := h
    have front {ps : List (Piece Char)} {ws : List Text} (rest : List.Forall₂ Piece.Fits ps ws) :
        List.Forall₂ Piece.Fits (dateFront ++ ps)
          ([month, gap1, day, gap2, hour, [':'], minute, [':'], second] ++ ws) :=
      .cons hmonth (.cons hgap1 (.cons hday (.cons hgap2 (.cons hhour (.cons colon (.cons hminute
        (.cons colon (.cons hsecond rest))))))))
    have last : List.Forall₂ Piece.Fits dateYear [gap3, year] := .cons hgap3 (.cons hyear .nil)
    refine front (List.rel_append ?_ (List.rel_append ?_ last))
    · cases fraction with
      | none => exact .nil
      | some w => exact .cons point (.cons (hfraction w rfl) .nil)
    · cases half with
      | none => exact .nil
      | some w =>
        obtain ⟨gap, letter, m⟩ := hhalf w rfl
        exact .cons gap (.cons letter (.cons m .nil))
  · intro h
    cases fraction <;> cases half <;>
      simp only [DateText.form, datePattern, dateFront, dateFraction, dateHalf,
        dateYear, DateText.later,
        DateText.fractionWords, DateText.halfWords, Option.isSome_none, Option.isSome_some,
          if_true, if_false,
        Bool.false_eq_true, List.cons_append, List.nil_append, List.forall₂_cons, List.Forall₂.nil] at h
    · obtain ⟨hmonth, hgap1, hday, hgap2, hhour, -, hminute, -, hsecond, hgap3, hyear, -⟩ := h
      exact ⟨hmonth, hgap1, hday, hgap2, hhour, hminute, hsecond, by simp, by simp, hgap3, hyear⟩
    · obtain ⟨hmonth, hgap1, hday, hgap2, hhour, -, hminute, -, hsecond, gap, letter, m,
        hgap3, hyear, -⟩ := h
      exact ⟨hmonth, hgap1, hday, hgap2, hhour, hminute,
        hsecond, by simp, by simp [gap, letter, m], hgap3, hyear⟩
    · obtain ⟨hmonth, hgap1, hday, hgap2, hhour, -, hminute, -, hsecond, -, w, hgap3, hyear, -⟩ := h
      exact ⟨hmonth, hgap1, hday, hgap2, hhour, hminute, hsecond, by simp [w], by simp, hgap3, hyear⟩
    · obtain ⟨hmonth, hgap1, hday, hgap2, hhour, -, hminute, -, hsecond, -, w, gap, letter, m,
        hgap3, hyear, -⟩ := h
      exact ⟨hmonth, hgap1, hday, hgap2, hhour, hminute,
        hsecond, by simp [w], by simp [gap, letter, m], hgap3, hyear⟩

theorem match_render {d : DateText} (h : d.WellFormed) (fraction half : Bool) :
    matchPieces (datePattern fraction half) d.render =
      if fraction = d.fraction.isSome ∧
        half = d.half.isSome then some (d.month :: d.later) else none := by
  split
  next form =>
    obtain ⟨rfl, rfl⟩ := form
    exact (matchPieces_eq_some_iff (datePattern_separate _ _)).mpr ⟨wellFormed_iff.mp h, rfl⟩
  next other =>
    cases hm : matchPieces (datePattern fraction half) d.render with
    | none => rfl
    | some ws =>
      obtain ⟨fits, flat⟩ := matchPieces_sound hm
      exact absurd (datePattern_inj fits (wellFormed_iff.mp h) flat) other

theorem stoi_digits {least most : Nat} {w : Text} (fits : (digits least most).Fits w) (pos : 0 < least)
    (short : most ≤ 9) : stoi 10 w = some (numeral w : Int) := by
  have size : w.length ≤ 9 := (fits.most most rfl).trans short
  have all : ∀ c ∈ w, c.isDigit = true := fits.all
  have bound : numeral w < 10 ^ 9 := (numeral_lt all).trans_le (Nat.pow_le_pow_right (by decide) size)
  refine stoi_numeral ⟨?_, fun c hc => (digitValue_digit (all c hc)).1, rfl⟩ (by decide)
    (bound.trans (by decide))
  exact List.length_pos_iff.mp (pos.trans_le fits.least)

theorem parsedDateTime_eq {d : DateText} (h : d.WellFormed) (hourOf : Int → Int) (fraction : Binary64) :
    parsedDateTime hourOf d.month d.day d.hour d.minute d.second d.year fraction =
      .ok ⟨numeral d.year, numeral d.month, numeral d.day, hourOf (numeral d.hour), numeral d.minute,
        numeral d.second, fraction⟩ := by
  rw [parsedDateTime, stoi_digits h.hour (by decide) (by decide),
    stoi_digits h.month (by decide) (by decide),
    stoi_digits h.day (by decide) (by decide), stoi_digits h.minute (by decide) (by decide),
    stoi_digits h.second (by decide) (by decide), stoi_digits h.year (by decide) (by decide)]
  rfl

theorem orElsePattern_of_none {a b : Text → Parse (Option ParsedDateTime)} {s : Text}
    (h : a s = .ok none) : orElsePattern a b s = b s := by
  rw [orElsePattern, h]
  rfl

theorem orElsePattern_of_some {a b : Text → Parse (Option ParsedDateTime)} {s : Text}
    {dt : ParsedDateTime} (h : a s = .ok (some dt)) : orElsePattern a b s = .ok (some dt) := by
  rw [orElsePattern, h]
  rfl

section Patterns

variable {s : Text}

theorem pattern12hWithFrac_none (h : matchPieces (datePattern true true) s = none) :
    parsePattern12hWithFrac s = .ok none := by
  rw [parsePattern12hWithFrac, show pattern12hWithFrac = datePattern true true from rfl, h]
  rfl

theorem pattern12hNoFrac_none (h : matchPieces (datePattern false true) s = none) :
    parsePattern12hNoFrac s = .ok none := by
  rw [parsePattern12hNoFrac, show pattern12hNoFrac = datePattern false true from rfl, h]
  rfl

theorem pattern24hWithFrac_none (h : matchPieces (datePattern true false) s = none) :
    parsePattern24hWithFrac s = .ok none := by
  rw [parsePattern24hWithFrac, show pattern24hWithFrac = datePattern true false from rfl, h]
  rfl

theorem pattern24hNoFrac_none (h : matchPieces (datePattern false false) s = none) :
    parsePattern24hNoFrac s = .ok none := by
  rw [parsePattern24hNoFrac, show pattern24hNoFrac = datePattern false false from rfl, h]
  rfl

end Patterns

/-- A date is read by the pattern of its form, whichever patterns are tried before it. -/
theorem parsePatterns_render {d : DateText} (h : d.WellFormed) :
    parsePatterns d.render = .ok (some d.parsed) := by
  have full := match_render h true true
  have noFrac := match_render h false true
  have noHalf := match_render h true false
  have plain := match_render h false false
  have result := parsedDateTime_eq h
  obtain ⟨month, gap1, day, gap2, hour, minute, second, fraction, half, gap3, year⟩ := d
  have seconds {w : Text} (hw : fraction = some w) : (stod ('0' :: '.' :: w)).getD Binary64.zero =
    fractionalToSeconds w := by
    have fits := h.fraction w hw
    have size : w.length ≤ 6 := fits.most 6 rfl
    rw [stod_fraction (List.length_pos_iff.mp fits.least) fits.all (by omega), Option.getD_some]
  unfold parsePatterns
  cases fraction with
  | none =>
    simp only [Option.isSome_none, Bool.true_eq_false, false_and, true_and,
      if_false] at full noFrac noHalf plain
    rw [orElsePattern_of_none (pattern12hWithFrac_none full)]
    cases half with
    | none =>
      simp only [Option.isSome_none, Bool.true_eq_false, if_false, if_true] at noFrac plain
      rw [orElsePattern_of_none (pattern12hNoFrac_none noFrac),
        orElsePattern_of_none (pattern24hWithFrac_none noHalf),
        parsePattern24hNoFrac, show pattern24hNoFrac = datePattern false false from rfl, plain]
      exact congrArg (some <$> ·) (result id Binary64.zero)
    | some w =>
      simp only [Option.isSome_some, if_true] at noFrac
      refine orElsePattern_of_some ?_
      rw [parsePattern12hNoFrac, show pattern12hNoFrac = datePattern false true from rfl, noFrac]
      exact congrArg (some <$> ·) (result (hour12h (w.2.1 ++ w.2.2)) Binary64.zero)
  | some w =>
    simp only [Option.isSome_some, Bool.false_eq_true, false_and, true_and,
      if_false] at full noFrac noHalf plain
    cases half with
    | none =>
      simp only [Option.isSome_none, Bool.true_eq_false, if_false, if_true] at full noHalf
      rw [orElsePattern_of_none (pattern12hWithFrac_none full),
        orElsePattern_of_none (pattern12hNoFrac_none noFrac)]
      refine orElsePattern_of_some ?_
      rw [parsePattern24hWithFrac, show pattern24hWithFrac = datePattern true false from rfl, noHalf]
      refine (congrArg (some <$> ·) (result id (fractionalToSeconds w))).trans ?_
      simp only [DateText.parsed, DateText.seconds, seconds rfl]
      rfl
    | some v =>
      simp only [Option.isSome_some, if_true] at full
      refine orElsePattern_of_some ?_
      rw [parsePattern12hWithFrac, show pattern12hWithFrac = datePattern true true from rfl, full]
      refine (congrArg (some <$> ·)
        (result (hour12h (v.2.1 ++ v.2.2)) (fractionalToSeconds w))).trans ?_
      simp only [DateText.parsed, DateText.seconds, seconds rfl]
      rfl

/-- The words up to the seconds, to which any rest makes a date. -/
theorem exists_front {ps : List (Piece Char)} {ws : List Text}
    (fits : List.Forall₂ Piece.Fits (dateFront ++ ps) ws) :
    ∃ month gap1 day gap2 hour minute second rest,
      ws = [month, gap1, day, gap2, hour, [':'], minute, [':'], second] ++ rest ∧
      List.Forall₂ Piece.Fits ps rest ∧
        ∀ fraction half gap3 year, (∀ w ∈ fraction, (digits 1 6).Fits w) →
        (∀ w ∈ half, blanks.Fits w.1 ∧ (oneOf "AaPp").Fits w.2.1 ∧ (oneOf "Mm").Fits w.2.2) →
          blanks.Fits gap3 →
        (digits 4 4).Fits year →
        (⟨month, gap1, day, gap2, hour, minute, second, fraction, half, gap3,
          year⟩ : DateText).WellFormed := by
  simp only [dateFront, List.cons_append, List.nil_append] at fits
  obtain _ | ⟨month, _ | ⟨gap1, _ | ⟨day, _ | ⟨gap2, fits⟩⟩⟩⟩ := fits
  obtain _ | ⟨hour, _ | ⟨colon, _ | ⟨minute, _ | ⟨colon', _ | ⟨second, rest⟩⟩⟩⟩⟩ := fits
  obtain rfl := (fits_mark rfl).mp colon
  obtain rfl := (fits_mark rfl).mp colon'
  exact ⟨_, _, _, _, _, _, _, _, rfl, rest, fun _ _ _ _ fraction half gap3 year =>
    ⟨month, gap1, day, gap2, hour, minute, second, fraction, half, gap3, year⟩⟩

/-- The words of a match are the parts of a date. -/
theorem exists_date {fraction half : Bool} {ws : List Text}
    (fits : List.Forall₂ Piece.Fits (datePattern fraction half) ws) :
    ∃ d : DateText, d.WellFormed ∧ d.render = ws.flatten := by
  obtain ⟨_, _, _, _, _, _, _, rest, rfl, fits, wellFormed⟩ := exists_front fits
  cases fraction <;> cases half <;>
    simp only [dateFraction, dateHalf, dateYear, if_true, if_false, Bool.false_eq_true,
      List.cons_append, List.nil_append] at fits
  · obtain _ | ⟨gap3, _ | ⟨year, _ | _⟩⟩ := fits
    exact ⟨_, wellFormed none none _ _ (by simp) (by simp) gap3 year, rfl⟩
  · obtain _ | ⟨gap, _ | ⟨letter, _ | ⟨m, _ | ⟨gap3, _ | ⟨year, _ | _⟩⟩⟩⟩⟩ := fits
    exact ⟨_, wellFormed none (some (_, _, _)) _ _ (by simp) (by simp [gap, letter, m]) gap3 year, rfl⟩
  · obtain _ | ⟨point, _ | ⟨w, _ | ⟨gap3, _ | ⟨year, _ | _⟩⟩⟩⟩ := fits
    obtain rfl := (fits_mark rfl).mp point
    exact ⟨_, wellFormed (some _) none _ _ (by simp [w]) (by simp) gap3 year, rfl⟩
  · obtain _ | ⟨point, _ | ⟨w, _ | ⟨gap, _ | ⟨letter, _ | ⟨m, _ | ⟨gap3, _ | ⟨year, _ | _⟩⟩⟩⟩⟩⟩⟩ := fits
    obtain rfl := (fits_mark rfl).mp point
    exact ⟨_, wellFormed (some _) (some (_, _, _)) _ _ (by simp [w])
      (by simp [gap, letter, m]) gap3 year, rfl⟩

theorem parsePatterns_other {s : Text} (other : ¬ ∃ d : DateText, d.WellFormed ∧ d.render = s) :
    parsePatterns s = .ok none := by
  have unmatched (fraction half : Bool) : matchPieces (datePattern fraction half) s = none := by
    cases hm : matchPieces (datePattern fraction half) s with
    | none => rfl
    | some ws =>
      obtain ⟨fits, flat⟩ := matchPieces_sound hm
      obtain ⟨d, wellFormed, render⟩ := exists_date fits
      exact absurd ⟨d, wellFormed, render.trans flat⟩ other
  rw [parsePatterns, orElsePattern_of_none (pattern12hWithFrac_none (unmatched true true)),
    orElsePattern_of_none (pattern12hNoFrac_none (unmatched false true)),
    orElsePattern_of_none (pattern24hWithFrac_none (unmatched true false)),
    pattern24hNoFrac_none (unmatched false false)]

theorem datetimeToTimestamp_render (mktime : Tm → Int) {s : Text} {d : DateText}
    (wellFormed : d.WellFormed) (render : d.render = normalizeDate s) : datetimeToTimestamp mktime s =
      if mktime d.parsed.tm = -1 then throwText "Incompatible datetime string".toList
      else .ok ((Binary64.ofInt (mktime d.parsed.tm)).add d.seconds) := by
  rw [datetimeToTimestamp, ← render, parsePatterns_render wellFormed]
  rfl

/-- A text is a timestamp exactly when it is a date in one of the four forms once its month
names are numbers; of a date that the platform refuses and of any other text the error says so. -/
theorem datetimeToTimestamp_cases (mktime : Tm → Int) (s : Text) :
    (∀ d : DateText, d.WellFormed → d.render = normalizeDate s → datetimeToTimestamp mktime s =
      if mktime d.parsed.tm = -1 then throwText "Incompatible datetime string".toList
      else .ok ((Binary64.ofInt (mktime d.parsed.tm)).add d.seconds)) ∧
    ((¬ ∃ d : DateText, d.WellFormed ∧ d.render = normalizeDate s) → datetimeToTimestamp mktime s =
      throwText ("Incompatible datetime string ".toList ++ s)) := by
  constructor
  · intro d wellFormed render
    exact datetimeToTimestamp_render mktime wellFormed render
  · intro other
    rw [datetimeToTimestamp, parsePatterns_other other]
    rfl

example : (parsePatterns (normalizeDate "Apr 28 10:44:52.502 pm 2023".toList)).toOption.join.map
    ParsedDateTime.tm =
    some ⟨123, 3, 28, 22, 44, 52⟩ := by decide +kernel

end Forms

end FsCore
