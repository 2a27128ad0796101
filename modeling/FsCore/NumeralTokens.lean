import FsCore.RenderedFrames
import FsCore.WellFormedRecords

namespace FsCore

/-- The bytes of the record are the values of its first tokens, a numeral each. -/
def KeepsBytes (base : Base) (r : LogRecord) (tokens : List Text) : Prop :=
  ∀ i (_ : i < 64), i < r.dataLen.toNat → ∃ token, tokens[i]? = some token ∧
    IsNumeral base.radix token r.data[i].toNat

/-- Every numeric token that the frame uses is a numeral as a whole, and the record keeps its
value. The tokens of a payload are counted in an int. -/
def FrameText.Keeps (base : Base) (r : LogRecord) : FrameText → Prop
  | .errorFrame => True
  | .remote _ canId dlc => IsNumeral base.radix (withoutX canId) r.canId.toNat ∧
      ∀ dlcStr ∈ dlc, ∃ v : Nat,
        IsNumeral base.radix dlcStr v ∧ (r.dataLen.toNat : Int) = dlc2lenCompat v
  | .data _ canId dlcStr bytes => IsNumeral base.radix (withoutX canId) r.canId.toNat ∧
      (∃ v : Nat, IsNumeral base.radix dlcStr v ∧
        (r.dataLen.toNat : Int) = min (min 8 (dlc2lenCompat v))
          (intOfSize (splitWhitespace bytes).length)) ∧
      KeepsBytes base r (splitWhitespace bytes)
  | .fd _ canId fields => IsNumeral base.radix (withoutX canId) r.canId.toNat ∧
      (∃ v, IsNumeral base.radix fields.dlcStr v) ∧
      (∃ n : Nat, IsNumeral 10 fields.dataLengthStr n ∧
        (r.dataLen.toNat : Int) = min (n : Int) (intOfSize (splitWhitespace fields.data).length)) ∧
      KeepsBytes base r (splitWhitespace fields.data)

def KeepsNumerals (base : Base) (raw : Text) (r : LogRecord) : Prop :=
  ∀ t ∈ recordText (trimCopy raw), t.frame.Keeps base r

/-- What extract_can_id does not check. -/
def PlainId (base : Base) (canId : Text) : Prop :=
  PlainStart base.radix (withoutX canId) ∧
    ∀ parsed pos, stoul base.radix (withoutX canId) = some (parsed, pos) → parsed < 2 ^ 32

/-- What the conversion of a DLC or of a length does not check. -/
def PlainCount (radix : Nat) (token : Text) : Prop := PlainStart radix token ∧ WholeNumeral radix token

/-- What the conversions leave unchecked: a sign or a prefix of an id or a byte, also what stands
behind the digits of a DLC or a length, and the size of an id and of a remote length. -/
def FrameText.Plain (base : Base) : FrameText → Prop
  | .errorFrame => True
  | .remote _ canId dlc => PlainId base canId ∧
      ∀ dlcStr ∈ dlc, ∀ v ∈ stoi base.radix dlcStr, dlc2lenCompat v < 2 ^ 8
  | .data _ canId dlcStr bytes => PlainId base canId ∧ PlainCount base.radix dlcStr ∧
      0 ≤ intOfSize (splitWhitespace bytes).length ∧
      ∀ n ∈ classicCount base dlcStr bytes, ∀ token ∈ (splitWhitespace bytes).take n.toNat,
        PlainStart base.radix token
  | .fd _ canId fields => PlainId base canId ∧ PlainCount base.radix fields.dlcStr ∧
      PlainCount 10 fields.dataLengthStr ∧ 0 ≤ intOfSize (splitWhitespace fields.data).length ∧
      ∀ n ∈ stoi 10 fields.dataLengthStr,
        ∀ token ∈ (splitWhitespace fields.data).take (fdCount fields n).toNat,
        PlainStart base.radix token

def PlainNumerals (base : Base) (raw : Text) : Prop := ∀ t ∈ recordText (trimCopy raw),
    t.frame.Plain base

section Tokens

variable {base : Base}

theorem canIdOf_numeral_iff {canId : Text} {id : UInt32} (h : canIdOf base canId = some id) :
    IsNumeral base.radix (withoutX canId) id.toNat ↔ PlainId base canId := by
  obtain ⟨parsed, read, rfl⟩ := canIdOf_eq_some_iff.mp h
  have small : (UInt32.ofNat parsed).toNat = parsed % 2 ^ 32 := UInt32.toNat_ofNat'
  constructor
  · intro numeral
    have same := stoul_numeral numeral base.small (by omega)
    rw [read] at same
    obtain ⟨value, -⟩ := Prod.mk.inj (Option.some.inj same)
    refine ⟨numeral.plainStart base.small, fun parsed' pos read' => ?_⟩
    obtain ⟨rfl, -⟩ := Prod.mk.inj (Option.some.inj (read.symm.trans read'))
    omega
  · intro found
    obtain ⟨plain, bound⟩ := found
    have := bound parsed _ read
    rw [small, Nat.mod_eq_of_lt this]
    exact (stoul_numeral_iff base.small read).mpr plain

theorem dataByte_numeral_iff {token : Text} {b : UInt8} (h : dataByte base token = .ok b) :
    IsNumeral base.radix token b.toNat ↔ PlainStart base.radix token := by
  obtain ⟨value, read, small, rfl⟩ := dataByte_ok_iff.mp h
  have same : (UInt8.ofNat value).toNat = value := by
    rw [UInt8.toNat_ofNat']
    omega
  rw [same]
  exact stoul_numeral_iff base.small read

/-- A count that the code converts is kept if nothing but its digits is there. -/
theorem count_numeral_iff {radix : Nat} {token : Text} {v : Int} (small : radix ≤ 16)
    (h : stoi radix token = some v) {p : Int → Prop} : (∃ n : Nat, IsNumeral radix token n ∧ p n) ↔
      PlainCount radix token ∧ p v := by
  constructor
  · intro found
    obtain ⟨n, numeral, hp⟩ := found
    have plain : PlainCount radix token := ⟨numeral.plainStart small, numeral.whole small⟩
    obtain ⟨m, numeral', rfl⟩ := (stoi_numeral_iff small h).mpr plain
    rw [numeral.unique numeral'] at hp
    exact ⟨plain, hp⟩
  · intro found
    obtain ⟨plain, hp⟩ := found
    obtain ⟨n, numeral, rfl⟩ := (stoi_numeral_iff small h).mpr plain
    exact ⟨n, numeral, hp⟩

theorem keepsBytes_iff {tokens : List Text} {n : Int} {r : LogRecord} (few : n ≤ tokens.length)
    (stored : storeBytes base (tokens.take n.toNat) 0 (Vector.replicate 64 0) = .ok r.data)
    (len : (r.dataLen.toNat : Int) = n) :
    KeepsBytes base r tokens ↔ ∀ token ∈ tokens.take n.toNat, PlainStart base.radix token := by
  obtain ⟨fits, bytes, -⟩ := (storeBytes_ok_iff (by omega)).mp stored
  have size : (tokens.take n.toNat).length = r.dataLen.toNat := by
    rw [List.length_take]
    omega
  have first (i : Nat) (hi : i < r.dataLen.toNat) :
      ∃ token, tokens[i]? = some token ∧ (tokens.take n.toNat)[i]? = some token ∧
        ∃ _ : i < 64, dataByte base token = .ok r.data[i] := by
    have byte := bytes i (by omega) (by omega)
    have own : i < tokens.length := by omega
    rw [List.getElem_take] at byte
    simp only [Nat.zero_add] at byte
    refine ⟨tokens[i], List.getElem?_eq_getElem own, ?_, by omega, byte⟩
    rw [List.getElem?_take_of_lt (by omega), List.getElem?_eq_getElem own]
  constructor
  · intro keeps token mem
    obtain ⟨i, hi⟩ := List.mem_iff_getElem?.mp mem
    obtain ⟨hi', -⟩ := List.getElem?_eq_some_iff.mp hi
    obtain ⟨own, ht, ht', inside, byte⟩ := first i (by omega)
    obtain ⟨token', same, numeral⟩ := keeps i inside (by omega)
    cases Option.some.inj (ht.symm.trans same)
    cases Option.some.inj (ht'.symm.trans hi)
    exact (dataByte_numeral_iff byte).mp numeral
  · intro plain i hi inside
    obtain ⟨token, ht, ht', _, byte⟩ := first i inside
    exact ⟨token, ht, (dataByte_numeral_iff byte).mpr (plain token (List.mem_of_getElem? ht'))⟩

theorem ofInt_eq_iff {n : Int} : ((UInt8.ofInt n).toNat : Int) = n ↔ 0 ≤ n ∧ n < 2 ^ 8 := by
  rw [toNat_ofInt]
  omega

/-- A payload and the token that declares its length, of which `f` may be taken. -/
theorem keepsPayload_iff {radix : Nat} {token : Text} {tokens : List Text} {raw n : Int} {f : Int → Int}
    {r : LogRecord} (small : radix ≤ 16) (read : stoi radix token = some raw)
    (positive : 0 ≤ raw → 0 ≤ f raw) (count : min (f raw) (intOfSize tokens.length) = n)
    (fits : n < 2 ^ 8) (len : r.dataLen = UInt8.ofInt n)
    (stored : storeBytes base (tokens.take n.toNat) 0 (Vector.replicate 64 0) = .ok r.data) :
    (∃ v : Nat, IsNumeral radix token v ∧
      (r.dataLen.toNat : Int) = min (f v) (intOfSize tokens.length)) ∧
        KeepsBytes base r tokens ↔
      PlainCount radix token ∧ 0 ≤ intOfSize tokens.length ∧
        ∀ t ∈ tokens.take n.toNat, PlainStart base.radix t := by
  have size := intOfSize_le tokens.length
  rw [count_numeral_iff small read (p :=
    fun v => (r.dataLen.toNat : Int) = min (f v) (intOfSize tokens.length)), and_assoc]
  refine and_congr_right fun plain => ?_
  obtain ⟨m, -, rfl⟩ := (stoi_numeral_iff small read).mpr plain
  have sign := positive (by omega)
  have kept : (r.dataLen.toNat : Int) = n ↔ 0 ≤ intOfSize tokens.length := by
    rw [len, ofInt_eq_iff]
    omega
  rw [count, kept]
  exact and_congr_right fun counted => keepsBytes_iff (by omega) stored (kept.mpr counted)

/-- Digits are a numeral in either base. -/
theorem exists_numeral_of_isDigits {token : Text} (h : isDigits token = true) :
    ∃ v, IsNumeral base.radix token v := by
  rw [isDigits, Bool.and_eq_true, Bool.not_eq_true', List.isEmpty_eq_false_iff, List.all_eq_true] at h
  have large : 10 ≤ base.radix := by cases base <;> decide
  exact ⟨_, h.1, fun c hc => (digitValue_of_isDigit (h.2 c hc)).trans_le large, rfl⟩

end Tokens

section Frames

variable {base : Base} {msg r : LogRecord}

theorem read_keeps_iff {t : FrameText} (h : t.read base msg = .ok r)
    (digits : ∀ direction canId dlcStr, t = .remote direction canId (some dlcStr) →
      isDigits dlcStr = true) : t.Keeps base r ↔ t.Plain base := by
  cases t with
  | errorFrame => exact iff_of_true trivial trivial
  | remote direction canId dlc =>
    obtain ⟨id, len, hid, hlen, rfl⟩ := read_remote_iff.mp h
    refine and_congr (canIdOf_numeral_iff hid) ?_
    cases dlc with
    | none => exact iff_of_true (fun _ h => by cases h) (fun _ h => by cases h)
    | some dlcStr =>
      obtain ⟨raw, hraw, rfl⟩ := Option.map_eq_some_iff.mp hlen
      obtain ⟨v, numeral⟩ := @exists_numeral_of_isDigits base _ (digits direction canId dlcStr rfl)
      obtain ⟨m, numeral', rfl⟩ := (stoi_numeral_iff base.small hraw).mpr
        ⟨numeral.plainStart base.small, numeral.whole base.small⟩
      have positive := (@dlc2lenCompat_sign m).2 (by omega)
      have len : ((UInt8.ofInt (dlc2lenCompat m)).toNat : Int) = dlc2lenCompat m ↔
        dlc2lenCompat m < 2 ^ 8 := by
        rw [ofInt_eq_iff]
        omega
      simp only [Option.mem_def, Option.some.injEq, forall_eq', hraw, ← len]
      constructor
      · intro found
        obtain ⟨k, other, length⟩ := found
        rwa [other.unique numeral'] at length
      · exact fun length => ⟨m, numeral', length⟩
  | data direction canId dlcStr bytes =>
    obtain ⟨id, n, v, hid, hn, hv, rfl⟩ := read_data_iff.mp h
    obtain ⟨raw, hraw, count⟩ := Option.map_eq_some_iff.mp hn
    have small := classicCount_le hn
    refine and_congr (canIdOf_numeral_iff hid) ((keepsPayload_iff base.small hraw
      (f := fun raw => min 8 (dlc2lenCompat raw)) (fun sign => ?_) count (by omega) rfl hv).trans ?_)
    · have := dlc2lenCompat_sign.2 sign
      omega
    · simp only [Option.mem_def, hn, Option.some.injEq, forall_eq']
  | fd direction canId fields =>
    obtain ⟨id, dlc, n, v, hid, hdlc, hn, hv, rfl⟩ := read_fd_iff.mp h
    have small := fdCount_le hv
    have capped : min (fdCount fields n) 64 = fdCount fields n := by omega
    have dlcToken : (∃ v, IsNumeral base.radix fields.dlcStr v) ↔
      PlainCount base.radix fields.dlcStr := by
      simpa using count_numeral_iff base.small hdlc (p := fun _ => True)
    refine and_congr (canIdOf_numeral_iff hid) (and_congr dlcToken ((keepsPayload_iff (by decide) hn
      (f := fun n => n) (fun sign => sign) rfl (lt_of_le_of_lt small (by decide)) ?_ hv).trans ?_))
    · exact congrArg UInt8.ofInt capped
    · simp only [Option.mem_def, hn, Option.some.injEq, forall_eq', fdCount]

end Frames

section Lines

variable {reader : AscReader} {startTime : Binary64} {raw : Text} {r : LogRecord}

theorem record_keepsNumerals_iff (h : reader.parseLine startTime raw = .record r) :
    KeepsNumerals reader.base raw r ↔ PlainNumerals reader.base raw := by
  obtain ⟨t, ts, ht, -, hr⟩ := record_frame h
  have digits : ∀ direction canId dlcStr, t.frame = .remote direction canId (some dlcStr) →
    isDigits dlcStr = true :=
    fun _ _ _ => recordText_remote_digits ht
  simp only [KeepsNumerals, PlainNumerals, ht, Option.mem_def, Option.some.injEq, forall_eq',
    read_keeps_iff hr digits]

/-- A record keeps the numerals of its line as they stand there, and a line without a record is
skipped. -/
def NumeralsChecked (reader : AscReader) (startTime : Binary64) (raw : Text) : Prop :=
  (∀ r, reader.parseLine startTime raw = .record r → KeepsNumerals reader.base raw r) ∧
    ((∀ r, reader.parseLine startTime raw ≠ .record r) → Skips (reader.parseLine startTime raw))

/-- The numerals are checked exactly on the lines that do not leave the payload and, when they
are accepted, show nothing of what the conversions leave unchecked. -/
theorem numeralsChecked_iff : NumeralsChecked reader startTime raw ↔
    ¬ Overlong reader.base raw ∧ (Accepted reader.base raw → PlainNumerals reader.base raw) := by
  constructor
  · intro h
    obtain ⟨keeps, skips⟩ := h
    constructor
    · intro overlong
      have none : ∀ r, reader.parseLine startTime raw ≠ .record r :=
        fun r read => record_not_overlong read overlong
      exact (skips none).not_overlong overlong
    · intro accepted
      obtain ⟨r, read⟩ := (@parseLine_isRecord_iff startTime reader raw).mpr accepted
      exact (record_keepsNumerals_iff read).mp (keeps r read)
  · intro h
    obtain ⟨inside, plain⟩ := h
    constructor
    · intro r read
      exact (record_keepsNumerals_iff read).mpr (plain (parseLine_isRecord_iff.mp ⟨r, read⟩))
    · intro none
      refine skips_of inside fun accepted => ?_
      obtain ⟨r, read⟩ := (@parseLine_isRecord_iff startTime reader raw).mpr accepted
      exact none r read

end Lines

def numeralPrefix : Text := "0.5 1 10 Rx d 1z 7".toList

/-- The DLC 1z is read as 1. -/
theorem numeral_prefix_accepted : ¬ ∀ (reader : AscReader) (startTime : Binary64) (raw : Text),
    NumeralsChecked reader startTime raw := by
  intro all
  obtain ⟨r, read, -⟩ : ∃ r,
    AscReader.parseLine ⟨.hex, true, fun _ => none⟩ .zero numeralPrefix = .record r ∧
      r.dataLen = 1 :=
    LineOutcome.exists_record (by decide +kernel)
  obtain ⟨t, ht, layout⟩ : ∃ t, recordText (trimCopy numeralPrefix) = some t ∧
      t.frame = .data "Rx".toList "10".toList "1z".toList "7".toList :=
    ⟨⟨"0.5".toList, false, "1".toList, .data "Rx".toList "10".toList "1z".toList "7".toList⟩, rfl, rfl⟩
  have keeps := (all _ _ _).1 r read t ht
  rw [layout] at keeps
  obtain ⟨-, ⟨v, numeral, -⟩, -⟩ := keeps
  exact absurd (numeral.digits 'z' (by decide)) (by decide)

end FsCore
