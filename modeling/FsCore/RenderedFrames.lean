import FsCore.RecordText
import FsCore.NumeralBases
import Mathlib.Algebra.Order.BigOperators.Group.List

namespace FsCore

/-- The id in the digits of a base, with an x behind an extended one. -/
def IdToken (base : Base) (f : LogRecord) (token : Text) : Prop :=
  ∃ numeral, IsNumeral base.radix numeral f.canId.toNat ∧
    token = if f.isExtendedId then numeral ++ ['x'] else numeral

def IsDirection (token : Text) : Prop := token = "Tx".toList ∨ token = "Rx".toList

def flag (b : Bool) : Text := if b then "1".toList else "0".toList

/-- A numeral for each byte of the payload; beyond it the record is zero. -/
structure PayloadTokens (base : Base) (f : LogRecord) (bytes : List Text) : Prop where
  length : bytes.length = f.dataLen.toNat
  byte : ∀ i (_ : i < bytes.length) (_ : i < 64), IsNumeral base.radix bytes[i] f.data[i].toNat
  zero : ∀ i (_ : i < 64), f.dataLen.toNat ≤ i → f.data[i] = 0

/-- A channel of at most 15 characters, which the record pads with zeros. -/
structure ChannelToken (f : LogRecord) (token : Text) : Prop where
  ne : token ≠ []
  noSpace : ∀ c ∈ token, isSpace c = false
  noNul : nul ∉ token
  short : token.length ≤ 15
  padded : f.channel.toList = token ++ List.replicate (16 - token.length) nul

/-- A token that stands for a time. -/
structure TimeToken (f : LogRecord) (token : Text) : Prop where
  stamp : IsTimestamp token
  value : stod token = some f.timestamp

/-- The fields that a frame of every kind has. -/
def LogRecord.blank (f : LogRecord) : LogRecord :=
  { LogRecord.zero with timestamp := f.timestamp, isFd := f.isFd, channel := f.channel }

/-- Equal in every field but the direction. -/
def LogRecord.SameFrame (r f : LogRecord) : Prop := { r with direction := f.direction } = f

/-- The tokens behind the channel of a classic frame. The reader counts the tokens of a
payload, and what follows them, in an int. -/
inductive ClassicTokens (base : Base) (f : LogRecord) : List Text → Prop
  | errorFrame (more : List Text) (fields : { f.blank with isErrorFrame := true }.SameFrame f) :
    ClassicTokens base f ("ErrorFrame".toList :: more)
  | remote {canId direction dlcStr : Text} (more : List Text)
    (fields : { f.blank with
      isRemoteFrame := true, canId := f.canId, isExtendedId := f.isExtendedId, dataLen :=
        f.dataLen }.SameFrame f)
    (id : IdToken base f canId) (dir : IsDirection direction)
    (dlc : IsNumeral base.radix dlcStr f.dataLen.toNat) (short : f.dataLen.toNat ≤ 8) :
    ClassicTokens base f (canId :: direction :: "r".toList :: dlcStr :: more)
  | data {canId direction dlcStr : Text} {bytes more : List Text}
    (fields : { f.blank with
      canId := f.canId, isExtendedId := f.isExtendedId, dataLen := f.dataLen, data :=
        f.data }.SameFrame f)
    (id : IdToken base f canId) (dir : IsDirection direction)
    (dlc : IsNumeral base.radix dlcStr f.dataLen.toNat) (short : f.dataLen.toNat ≤ 8)
    (payload : PayloadTokens base f bytes) (few : (bytes ++ more).length < 2 ^ 31) :
    ClassicTokens base f (canId :: direction :: "d".toList :: dlcStr :: (bytes ++ more))

/-- The tokens behind the channel of a CAN FD frame, whose name is optional. -/
inductive FdTokens (base : Base) (f : LogRecord) : List Text → Prop
  | errorFrame (more : List Text) (fields : { f.blank with isErrorFrame := true }.SameFrame f) :
    FdTokens base f ("ErrorFrame".toList :: more)
  | data {canId direction dlcStr len : Text} {name bytes more : List Text} {dlc : Nat}
    (fields : { f.blank with
      canId := f.canId, isExtendedId := f.isExtendedId, bitrateSwitch := f.bitrateSwitch,
      errorStateIndicator := f.errorStateIndicator, dataLen := f.dataLen, data := f.data }.SameFrame f)
    (id : IdToken base f canId) (dir : IsDirection direction) (one : name.length ≤ 1)
    (named : ∀ n ∈ name, isDigits n = false) (hdlc : IsNumeral base.radix dlcStr dlc)
      (small : dlc < 2 ^ 31)
    (positive : 1 ≤ f.dataLen.toNat) (fits : f.dataLen.toNat ≤ 64)
      (hlen : IsNumeral 10 len f.dataLen.toNat)
    (payload : PayloadTokens base f bytes) (few : (bytes ++ more).length < 2 ^ 31) :
    FdTokens base f (direction :: canId :: (name ++
      flag f.bitrateSwitch :: flag f.errorStateIndicator :: dlcStr :: len :: (bytes ++ more)))

/-- The tokens of a line that a frame is written as. -/
inductive AscTokens (base : Base) (f : LogRecord) : List Text → Prop
  | classic {time channel : Text} {tokens : List Text} (stamp : TimeToken f time)
      (kind : f.isFd = false)
    (name : ChannelToken f channel) (digits : isDigits channel = true)
      (frame : ClassicTokens base f tokens) : AscTokens base f (time :: channel :: tokens)
  | fd {time channel : Text} {tokens : List Text} (stamp : TimeToken f time) (kind : f.isFd = true)
    (name : ChannelToken f channel) (frame : FdTokens base f tokens) :
    AscTokens base f (time :: "CANFD".toList :: channel :: tokens)

/-- The frames that a line can stand for. -/
inductive LogRecord.IsFrame (f : LogRecord) : Prop
  | errorFrame (fields : { f.blank with isErrorFrame := true }.SameFrame f)
  | remote (kind : f.isFd = false)
    (fields : { f.blank with
      isRemoteFrame := true, canId := f.canId, isExtendedId := f.isExtendedId, dataLen :=
        f.dataLen }.SameFrame f)
    (short : f.dataLen.toNat ≤ 8)
  | classic (kind : f.isFd = false)
    (fields : { f.blank with
      canId := f.canId, isExtendedId := f.isExtendedId, dataLen := f.dataLen, data :=
        f.data }.SameFrame f)
    (short : f.dataLen.toNat ≤ 8) (zero : ∀ i (_ : i < 64), f.dataLen.toNat ≤ i → f.data[i] = 0)
  | fd (kind : f.isFd = true)
    (fields : { f.blank with
      canId := f.canId, isExtendedId := f.isExtendedId, bitrateSwitch := f.bitrateSwitch,
      errorStateIndicator := f.errorStateIndicator, dataLen := f.dataLen, data := f.data }.SameFrame f)
    (positive : 1 ≤ f.dataLen.toNat) (fits : f.dataLen.toNat ≤ 64)
    (zero : ∀ i (_ : i < 64), f.dataLen.toNat ≤ i → f.data[i] = 0)

theorem Base.small (base : Base) : base.radix ≤ 16 := by cases base <;> decide

theorem Base.numeral (base : Base) (value : Nat) : ∃ token, IsNumeral base.radix token value :=
  exists_numeral (by cases base <;> decide) base.small value

section Tokens

variable {base : Base} {f msg : LogRecord}

theorem exists_idToken (base : Base) (f : LogRecord) : ∃ token, IdToken base f token := by
  obtain ⟨numeral, hn⟩ := base.numeral f.canId.toNat
  exact ⟨_, numeral, hn, rfl⟩

theorem exists_payloadTokens (base : Base) (fits : f.dataLen.toNat ≤ 64)
    (zero : ∀ i (_ : i < 64), f.dataLen.toNat ≤ i → f.data[i] = 0) :
    ∃ bytes, PayloadTokens base f bytes ∧ (bytes ++ []).length < 2 ^ 31 := by
  choose numeral hn using base.numeral
  refine ⟨List.ofFn fun i : Fin f.dataLen.toNat => numeral (f.data.get (i.castLE fits)).toNat,
    ⟨?_, ?_, zero⟩, ?_⟩
  · rw [List.length_ofFn]
  · intro i hi _
    rw [List.getElem_ofFn]
    exact hn _
  · rw [List.append_nil, List.length_ofFn]
    omega

/-- Every frame can be written, behind any time and channel that stand for its own. -/
theorem LogRecord.IsFrame.tokens {time channel : Text} (h : f.IsFrame) (base : Base)
    (stamp : TimeToken f time) (name : ChannelToken f channel)
    (digits : f.isFd = false → isDigits channel = true) : ∃ tokens, AscTokens base f tokens := by
  obtain ⟨id, hid⟩ := exists_idToken base f
  obtain ⟨dlc, hdlc⟩ := base.numeral f.dataLen.toNat
  cases h with
  | errorFrame fields =>
    cases kind : f.isFd with
    | false => exact ⟨_, .classic stamp kind name (digits kind) (.errorFrame [] fields)⟩
    | true => exact ⟨_, .fd stamp kind name (.errorFrame [] fields)⟩
  | remote kind fields short =>
    exact ⟨_, .classic stamp kind name (digits kind) (.remote [] fields hid (.inr rfl) hdlc short)⟩
  | classic kind fields short zero =>
    obtain ⟨bytes, payload, few⟩ := exists_payloadTokens base (short.trans (by decide)) zero
    exact ⟨_, .classic stamp kind name (digits kind)
      (.data fields hid (.inr rfl) hdlc short payload few)⟩
  | fd kind fields positive fits zero =>
    obtain ⟨bytes, payload, few⟩ := exists_payloadTokens base fits zero
    have unnamed : ([] : List Text).length ≤ 1 := by simp
    obtain ⟨len, hlen⟩ := exists_numeral (by decide : 2 ≤ 10) (by decide) f.dataLen.toNat
    exact ⟨_, .fd stamp kind name
      (.data fields hid (.inr rfl) unnamed (by simp) hdlc (by omega) positive
      fits hlen payload few)⟩

/-- Hexadecimal digits, and the x of an extended id. -/
def IdChars (token : Text) : Prop := token ≠ [] ∧ ∀ c ∈ token, digitValue c < 16 ∨ c = 'x' ∨ c = 'X'

theorem idChars_of_numeral {canId : Text} {n : Nat} (h : IsNumeral base.radix (withoutX canId) n) :
    IdChars canId := by
  have digit : ∀ c ∈ withoutX canId, digitValue c < 16 :=
    fun c hc => lt_of_lt_of_le (h.digits c hc) base.small
  have ne := h.ne
  unfold withoutX at digit ne
  split at digit
  next marked =>
    rw [hasX] at marked
    cases hl : canId.getLast? with
    | none =>
      rw [hl] at marked
      cases marked
    | some c =>
      obtain ⟨numeral, rfl⟩ := List.getLast?_eq_some_iff.mp hl
      rw [hl] at marked
      have mark : c = 'x' ∨ c = 'X' := by simpa using marked
      rw [List.dropLast_concat] at digit
      refine ⟨by simp, fun c' hc => ?_⟩
      rcases List.mem_append.mp hc with hc | hc
      · exact Or.inl (digit c' hc)
      · rw [List.mem_singleton.mp hc]
        exact Or.inr mark
  next plain =>
    rw [if_neg plain] at ne
    exact ⟨ne, fun c hc => Or.inl (digit c hc)⟩

theorem hasX_numeral {numeral : Text} {value : Nat} (h : IsNumeral base.radix numeral value) :
    hasX numeral = false := by
  rw [hasX]
  cases hl : numeral.getLast? with
  | none => rfl
  | some c =>
    have digit := lt_of_lt_of_le (h.digits c (List.mem_of_getLast? hl)) base.small
    have low : c ≠ 'x' := digitValue_ne digit (by decide)
    have up : c ≠ 'X' := digitValue_ne digit (by decide)
    simp [low, up]

/-- What remains of the token without its mark is the numeral. -/
theorem IdToken.numeral {token : Text} (h : IdToken base f token) :
    IsNumeral base.radix (withoutX token) f.canId.toNat ∧ hasX token = f.isExtendedId := by
  obtain ⟨numeral, hn, rfl⟩ := h
  cases f.isExtendedId with
  | true =>
    have marked : hasX (numeral ++ ['x']) = true := by simp [hasX]
    rw [if_pos rfl, withoutX, if_pos marked, List.dropLast_concat]
    exact ⟨hn, marked⟩
  | false =>
    have plain := hasX_numeral hn
    rw [if_neg Bool.false_ne_true, withoutX, if_neg (Bool.eq_false_iff.mp plain)]
    exact ⟨hn, plain⟩

theorem IdToken.chars {token : Text} (h : IdToken base f token) : IdChars token :=
  idChars_of_numeral h.numeral.1

theorem extractCanId_token {token : Text} (h : IdToken base f token) :
    extractCanId base token msg =
      .ok { msg with isExtendedId := f.isExtendedId, canId := f.canId } := by
  obtain ⟨numeral, mark⟩ := h.numeral
  have bound : f.canId.toNat < 2 ^ 64 := f.canId.toNat_lt.trans (by decide)
  have id : canIdOf base token = some f.canId :=
    canIdOf_eq_some_iff.mpr ⟨_, stoul_numeral numeral base.small bound, UInt32.ofNat_toNat⟩
  exact extractCanId_ok_iff.mpr ⟨_, id, by rw [mark]⟩

theorem dataByte_token {token : Text} {b : UInt8} (h : IsNumeral base.radix token b.toNat) :
    dataByte base token = .ok b := by
  have small : b.toNat < 256 := b.toNat_lt
  exact dataByte_ok_iff.mpr ⟨_, stoul_numeral h base.small (by omega), by omega, UInt8.ofNat_toNat⟩

/-- The loop of process_data_string reaches a payload that agrees with the tokens. -/
theorem storeBytes_tokens {v data : Vector UInt8 64} {tokens : List Text} {i : Nat}
    (fits : i + tokens.length ≤ 64)
    (byte : ∀ k (_ : k < tokens.length) (_ : i + k < 64),
      IsNumeral base.radix tokens[k] v[i + k].toNat) (before : ∀ j (_ : j < 64), j < i → data[j] = v[j])
    (after : ∀ j (_ : j < 64), i + tokens.length ≤ j → data[j] = v[j]) :
    storeBytes base tokens i data = .ok v := by
  refine (storeBytes_ok_iff (by omega)).mpr ⟨fits, fun k hk hik => dataByte_token (byte k hk hik),
    fun j hj out => ?_⟩
  rcases out with low | high
  · exact (before j hj low).symm
  · exact (after j hj high).symm

theorem processDataString_tokens (msg : LogRecord) {dataStr : Text} {bytes more : List Text}
    (h : PayloadTokens base f bytes) (fits : f.dataLen.toNat ≤ 64)
    (split : splitWhitespace dataStr = bytes ++ more) (few : (bytes ++ more).length < 2 ^ 31) :
    processDataString base dataStr f.dataLen.toNat msg =
      .ok { msg with data := f.data, dataLen := f.dataLen } := by
  have count : min (f.dataLen.toNat : Int) (intOfSize (bytes ++ more).length) = f.dataLen.toNat := by
    rw [intOfSize_of_lt few, List.length_append, h.length]
    omega
  have taken : (bytes ++ more).take f.dataLen.toNat = bytes := List.take_left' h.length
  have stored : storeBytes base bytes 0 (Vector.replicate 64 0) = .ok f.data := by
    refine storeBytes_tokens (by rw [h.length]; omega) (fun k hk hik => ?_) (fun j hj low => by omega)
      (fun j hj high => ?_)
    · simpa only [Nat.zero_add] using h.byte k hk (by omega)
    · rw [h.length, Nat.zero_add] at high
      rw [Vector.getElem_replicate, h.zero j hj high]
  have length : UInt8.ofInt (min (f.dataLen.toNat : Int) 64) = f.dataLen := by
    have byte : ((f.dataLen.toNat : Int) % 2 ^ 8).toNat = f.dataLen.toNat := by omega
    rw [min_eq_left (by omega), UInt8.ofInt, byte, UInt8.ofNat_toNat]
  simp only [processDataString, split, count, Int.toNat_natCast, taken, stored, length]
  rfl

theorem dlc2lenCompat_of_le {n : Nat} (h : n ≤ 8) : dlc2lenCompat n = n := by
  have all : ∀ n ≤ 8, dlc2lenCompat (n : Nat) = n := by decide
  exact all n h

theorem isDigit_of_digitValue {c : Char} (h : digitValue c ≤ 9) : c.isDigit = true := by
  unfold digitValue at h
  split at h
  next digit => exact digit
  next => split at h <;> omega

/-- The digits of a number below ten are decimal ones. -/
theorem isDigits_numeral {token : Text} {value : Nat} (h : IsNumeral base.radix token value)
    (small : value ≤ 9) : isDigits token = true := by
  have radix : 1 ≤ base.radix := by cases base <;> decide
  rw [isDigits, Bool.and_eq_true, Bool.not_eq_true', List.isEmpty_eq_false_iff, List.all_eq_true]
  refine ⟨h.ne, fun c hc => isDigit_of_digitValue ?_⟩
  have mem : digitValue c ∈ (token.map digitValue).reverse :=
    List.mem_reverse.mpr (List.mem_map_of_mem hc)
  calc digitValue c
      ≤ (token.map digitValue).reverse.sum := List.single_le_sum (fun _ _ => Nat.zero_le _) _ mem
    _ ≤ Nat.ofDigits base.radix (token.map digitValue).reverse := Nat.sum_le_ofDigits _ radix
    _ ≤ 9 := h.value.le.trans small

theorem classicData_tokens {dlcStr dataStr : Text} {bytes more : List Text}
    (h : PayloadTokens base f bytes) (dlc : IsNumeral base.radix dlcStr f.dataLen.toNat)
    (short : f.dataLen.toNat ≤ 8) (split : splitWhitespace dataStr = bytes ++ more)
    (few : (bytes ++ more).length < 2 ^ 31) :
    classicData base dlcStr dataStr msg = .ok { msg with data := f.data, dataLen := f.dataLen } := by
  have read := stoi_numeral dlc base.small (by omega)
  have length : min (8 : Int) f.dataLen.toNat = f.dataLen.toNat := min_eq_right (by omega)
  have stored (m : LogRecord) := processDataString_tokens m h (by omega) split few
  simp only [classicData, read, convert, bind, Except.bind, dlc2lenCompat_of_le short, length, stored]

theorem remoteLength_token {dlcStr : Text} (dlc : IsNumeral base.radix dlcStr f.dataLen.toNat)
    (short : f.dataLen.toNat ≤ 8) :
    remoteLength base (some dlcStr) msg = .ok { msg with dataLen := f.dataLen } := by
  have read := stoi_numeral dlc base.small (by omega)
  have byte : ((f.dataLen.toNat : Int) % 2 ^ 8).toNat = f.dataLen.toNat := by omega
  simp only [remoteLength, read, convert, bind, Except.bind, dlc2lenCompat_of_le short,
    UInt8.ofInt, byte, UInt8.ofNat_toNat]
  rfl

theorem flag_iff {b : Bool} : (flag b = "1".toList) = (b = true) := by
  cases b <;> simp [flag]

/-- A frame of CAN FD is not a remote one: its length is not zero. -/
theorem fdPayload_tokens (msg : LogRecord) (fields : FdFields) {canId : Text} {dlc : Nat}
    {bytes more : List Text} (id : IdToken base f canId) (h : PayloadTokens base f bytes)
    (one : 1 ≤ f.dataLen.toNat) (fits : f.dataLen.toNat ≤ 64) (brs : fields.brs = flag f.bitrateSwitch)
    (esi : fields.esi = flag f.errorStateIndicator) (hdlc : IsNumeral base.radix fields.dlcStr dlc)
    (small : dlc < 2 ^ 31) (len : IsNumeral 10 fields.dataLengthStr f.dataLen.toNat)
    (split : splitWhitespace fields.data = bytes ++ more) (few : (bytes ++ more).length < 2 ^ 31) :
    fdPayload base canId fields msg = .ok { msg with
      isExtendedId := f.isExtendedId, canId := f.canId, bitrateSwitch := f.bitrateSwitch,
      errorStateIndicator := f.errorStateIndicator, data := f.data, dataLen := f.dataLen } := by
  have readDlc := stoi_numeral hdlc base.small small
  have readLen := stoi_numeral len (by decide) (by omega)
  have positive : ((f.dataLen.toNat : Int) = 0) = False := eq_false (by omega)
  have stored (m : LogRecord) := processDataString_tokens m h fits split few
  simp only [fdPayload, extractCanId_token id, readDlc, readLen, convert, brs, esi, flag_iff,
    Bool.decide_eq_true, bind, Except.bind, positive, if_false, stored]

theorem channelOf_token {token : Text} (h : ChannelToken f token) : channelOf token = f.channel := by
  have whole : token.takeWhile (· ≠ nul) = token :=
    List.takeWhile_eq_self_iff.mpr fun c hc => decide_eq_true fun eq => h.noNul (eq ▸ hc)
  have short := h.short
  refine Vector.ext fun i hi => ?_
  have inside : i < (token ++ List.replicate (16 - token.length) nul).length := by
    simp
    omega
  have padded : f.channel[i] = (token ++ List.replicate (16 - token.length) nul)[i] := by
    simp only [← h.padded, Vector.getElem_toList]
  rw [padded, channelOf, Vector.getElem_ofFn, whole]
  dsimp only
  by_cases early : i < token.length
  · have low : i < 15 := by omega
    rw [if_pos low, List.getElem_append_left early, List.getD_eq_getElem?_getD,
      List.getElem?_eq_getElem early, Option.getD_some]
  · rw [List.getElem_append_right (by omega), List.getElem_replicate, List.getD_eq_getElem?_getD,
      List.getElem?_eq_none (by omega), Option.getD_none, ite_self]

theorem IdChars.not_errorFrame {token : Text} (h : IdChars token) :
    toLowerAscii (token.take 10) ≠ "errorframe".toList := by
  intro eq
  have mem : 'o' ∈ toLowerAscii (token.take 10) := by
    rw [eq]
    decide
  obtain ⟨c, hc, lower⟩ := List.mem_map.mp mem
  rcases h.2 c (List.mem_of_mem_take hc) with digit | rfl | rfl
  · have small := toLower_le digit
    rw [lower] at small
    exact absurd small (by decide)
  · exact absurd lower (by decide)
  · exact absurd lower (by decide)

theorem IsDirection.not_errorFrame {token : Text} (h : IsDirection token) :
    toLowerAscii (token.take 10) ≠ "errorframe".toList := by
  rcases h with rfl | rfl <;> decide

section Frames

theorem IdChars.wordChars {token : Text} (h : IdChars token) :
    token ∈ (Regex.plus Regex.wordChar).language := by
  refine Regex.mem_plus_one_iff.mpr ⟨h.1, fun c hc => ?_⟩
  rcases h.2 c hc with digit | rfl | rfl
  · simp only [Bool.or_eq_true, Char.isAlphanum]
    unfold digitValue at digit
    split at digit
    next decimal => exact Or.inl (Or.inr decimal)
    next =>
      split at digit
      next alpha => exact Or.inl (Or.inl alpha)
      next => omega
  · decide
  · decide

theorem directed_form {frame canId direction : Text} {ws : List Text} (id : IdChars canId)
    (dir : IsDirection direction) (tight : frame.dropWhile isSpace = frame)
    (split : splitWhitespace frame = canId :: direction :: ws) :
    ∃ body tail, frame = body ++ tail ∧ body ∈ (Regex.alt (Regex.sequence [Regex.plus Regex.wordChar,
      Regex.plus Regex.space, Regex.alt (Regex.icase "Tx") (Regex.icase "Rx")])
        (Regex.icase "ErrorFrame")).language := by
  obtain ⟨gap, rest, rfl, hgap, tight', hrest, ne⟩ := words_eq_cons_split tight split
  obtain ⟨gap', tail, rfl, -⟩ := words_eq_cons_split tight' hrest
  have known : direction ∈ (Regex.alt (Regex.icase "Tx") (Regex.icase "Rx")).language := by
    rcases dir with rfl | rfl <;> decide
  refine ⟨canId ++ (gap ++ (direction ++ [])), gap' ++ tail, by simp, Regex.mem_alt_iff.mpr (Or.inl ?_)⟩
  exact append_mem_sequence id.wordChars
    (append_mem_sequence (Regex.mem_plus_one_iff.mpr ⟨ne (by simp), hgap⟩)
    (append_mem_sequence known (mem_sequence_nil.mpr rfl)))

theorem ClassicTokens.hasForm {channel rest : Text} {tokens : List Text}
    (h : ClassicTokens base f tokens) (digits : isDigits channel = true)
    (tight : rest.dropWhile isSpace = rest) (split : splitWhitespace rest = channel :: tokens) :
    HasForm rest := by
  cases h with
  | errorFrame more fields =>
    refine hasForm_classic digits tight split fun frame tight' split' => ?_
    obtain ⟨gap, tail, rfl, -⟩ := words_eq_cons_split tight' split'
    exact ⟨"ErrorFrame".toList, gap ++ tail, rfl, Regex.mem_alt_iff.mpr (Or.inr (by decide))⟩
  | remote more fields id dir dlc short =>
    exact hasForm_classic digits tight split fun frame tight' split' =>
      directed_form id.chars dir tight' split'
  | data fields id dir dlc short payload few =>
    exact hasForm_classic digits tight split fun frame tight' split' =>
      directed_form id.chars dir tight' split'

theorem ClassicTokens.read {line : Text} {tokens : List Text} (h : ClassicTokens base f tokens)
    (tight : line.dropWhile isSpace = line) (split : splitWhitespace line = tokens) :
    ∃ t, classicText line = some t ∧ ∃ r, t.read base f.blank = .ok r ∧ r.SameFrame f := by
  cases h with
  | errorFrame more fields => exact ⟨_, classicText_errorFrame tight split, _, rfl, fields⟩
  | remote more fields id dir dlc short =>
    refine ⟨_, classicText_remote tight split (isDigits_numeral dlc (by omega))
      id.chars.not_errorFrame, ?_⟩
    simp only [FrameText.read, extractCanId_token id, bind, Except.bind, remoteLength_token dlc short]
    exact ⟨_, rfl, fields⟩
  | data fields id dir dlc short payload few =>
    obtain ⟨bytes, text, hbytes⟩ := classicText_data tight split (by decide) id.chars.not_errorFrame
    refine ⟨_, text, ?_⟩
    simp only [FrameText.read, extractCanId_token id, bind, Except.bind,
      classicData_tokens payload dlc short hbytes few]
    exact ⟨_, rfl, fields⟩

/-- A payload that is not empty begins the rest of the line. -/
theorem PayloadTokens.ne {bytes : List Text} (h : PayloadTokens base f bytes)
    (positive : 1 ≤ f.dataLen.toNat) (more : List Text) : ∃ w ws, bytes ++ more = w :: ws := by
  cases bytes with
  | nil =>
    have length := h.length
    rw [List.length_nil] at length
    omega
  | cons w ws => exact ⟨w, ws ++ more, rfl⟩

theorem isDigits_flag (b : Bool) : isDigits (flag b) = true := by
  cases b <;> rfl

/-- With a name and without one the same fields are found. -/
theorem fdText_named {line direction canId dlcStr len : Text} {name : List Text} {brs esi : Bool}
    {ws : List Text} (dir : IsDirection direction) (one : name.length ≤ 1)
    (named : ∀ n ∈ name, isDigits n = false) (ne : ∃ w rest, ws = w :: rest)
    (tight : line.dropWhile isSpace = line)
    (split : splitWhitespace line = direction :: canId ::
      (name ++ flag brs :: flag esi :: dlcStr :: len :: ws)) :
    ∃ bytes, fdText line = some (.fd direction canId ⟨flag brs, flag esi, dlcStr, len, bytes⟩) ∧
      splitWhitespace bytes = ws := by
  obtain ⟨w, rest, rfl⟩ := ne
  rcases name with _ | ⟨n, _ | _⟩
  · obtain ⟨fields, hfields, text⟩ := fdText_fields tight split dir.not_errorFrame
    obtain ⟨bytes, read, hbytes⟩ := fdFields_plain (isDigits_flag brs) hfields
    refine ⟨bytes, ?_, hbytes⟩
    rw [text, read]
    rfl
  · obtain ⟨fields, hfields, text⟩ := fdText_fields tight split dir.not_errorFrame
    obtain ⟨bytes, read, hbytes⟩ := fdFields_named (named n (by simp)) hfields
    refine ⟨bytes, ?_, hbytes⟩
    rw [text, read]
    rfl
  · simp at one

theorem FdTokens.read {line : Text} {tokens : List Text} (h : FdTokens base f tokens)
    (tight : line.dropWhile isSpace = line) (split : splitWhitespace line = tokens) :
    ∃ t, fdText line = some t ∧ ∃ r, t.read base f.blank = .ok r ∧ r.SameFrame f := by
  cases h with
  | errorFrame more fields => exact ⟨_, fdText_errorFrame tight split, _, rfl, fields⟩
  | data fields id dir one named hdlc small positive fits hlen payload few =>
    obtain ⟨data, text, hdata⟩ := fdText_named dir one named (payload.ne positive _) tight split
    have read (msg : LogRecord) :=
      fdPayload_tokens msg ⟨_, _, _, _, data⟩ id payload positive fits rfl rfl hdlc small hlen hdata few
    exact ⟨_, text, _, read _, fields⟩

theorem ClassicTokens.ne {tokens : List Text} (h : ClassicTokens base f tokens) :
    ∃ w ws, tokens = w :: ws := by
  cases h <;> exact ⟨_, _, rfl⟩

theorem FdTokens.ne {tokens : List Text} (h : FdTokens base f tokens) : ∃ w ws, tokens = w :: ws := by
  cases h <;> exact ⟨_, _, rfl⟩

theorem TimeToken.start {t : RecordText} (h : TimeToken f t.time) (kind : t.isFd = f.isFd)
    (name : ChannelToken f t.channel) : t.read base Binary64.zero = t.frame.read base f.blank := by
  rw [RecordText.read, h.value]
  change t.frame.read base { LogRecord.zero with
    timestamp := f.timestamp.add Binary64.zero, isFd := t.isFd, channel := channelOf t.channel } = _
  rw [stod_add_zero h.value, kind, channelOf_token name]
  rfl

/-- A line of a frame, in whatever spacing, is read as the frame. -/
theorem parseLine_rendered {reader : AscReader} {raw : Text} {tokens : List Text}
    (h : AscTokens reader.base f tokens) (split : splitWhitespace raw = tokens) :
    ∃ r, reader.parseLine Binary64.zero raw = .record r ∧ r.SameFrame f := by
  have trimmed := (splitWhitespace_trimCopy raw).trans split
  cases h with
  | @classic time channel tokens stamp kind name digits frame =>
    obtain ⟨w, ws, rfl⟩ := frame.ne
    have other : channel ≠ "Start".toList := by
      rintro rfl
      cases digits
    obtain ⟨rest, tight, hrest, text⟩ := recordText_classic digits trimmed
    obtain ⟨t, ht, r, read, same⟩ := frame.read tight hrest
    rw [ht, Option.map_some] at text
    refine ⟨r, parseLine_record_iff.mpr ⟨?_, _, text, ?_⟩, same⟩
    · exact isRecordLine_of stamp.stamp other split fun rest tight hrest =>
        frame.hasForm digits tight hrest
    · exact (TimeToken.start stamp kind.symm name).trans read
  | @fd time channel tokens stamp kind name frame =>
    obtain ⟨w, ws, rfl⟩ := frame.ne
    obtain ⟨rest, tight, hrest, text⟩ := recordText_fd trimmed
    obtain ⟨t, ht, r, read, same⟩ := frame.read tight hrest
    rw [ht, Option.map_some] at text
    refine ⟨r, parseLine_record_iff.mpr ⟨?_, _, text, ?_⟩, same⟩
    · exact isRecordLine_of stamp.stamp (by decide) split fun rest tight hrest => hasForm_fd tight hrest
    · exact (TimeToken.start stamp kind.symm name).trans read

end Frames

end Tokens

/-- Parsing undoes rendering: in the base of the reader, a line in any spacing gives its frame back. -/
theorem readAll_rendered {reader : AscReader}
    (relative : reader.relativeTimestamp = true) {f : LogRecord} {parts : List (Text × Text)}
    {tail ending : Text} (spacing : WellSpaced isSpace parts tail) (one : '\n' ∉ spaced parts tail)
    (ends : ending = [] ∨ ending = ['\n']) (frame : AscTokens reader.base f (parts.map Prod.snd)) :
    ∃ r, reader.readAll (spaced parts tail ++ ending) = .ok [r] ∧ r.SameFrame f := by
  obtain ⟨r, read, same⟩ := parseLine_rendered frame (words_spaced spacing)
  refine ⟨r, ?_, same⟩
  have lines : getLines (spaced parts tail ++ ending) = [spaced parts tail] := by
    rcases ends with rfl | rfl
    · rw [List.append_nil]
      refine getLines_line (fun none => ?_) one
      have ws := words_spaced spacing
      rw [none] at ws
      rw [← ws] at frame
      cases frame
    · exact getLines_cons one []
  rw [AscReader.readAll_relative relative, lines, AscReader.lineRecords, read]
  rfl

def renderedFrame (timestamp : Binary64) : LogRecord :=
  { LogRecord.zero with
    timestamp := timestamp
    canId := 31
    isExtendedId := true
    dataLen := 2
    data := ((Vector.replicate 64 0).set 0 10).set 1 255
    channel := channelOf "1".toList }

def renderedParts : List (Text × Text) :=
  [("  ".toList, "0.50".toList), ("\t".toList, "1".toList), (" ".toList, "1Fx".toList),
    (" ".toList, "Tx".toList),
    (" ".toList, "d".toList), (" ".toList, "02".toList), ("  ".toList, "0a".toList),
      (" ".toList, "ff".toList),
    (" ".toList, "Length".toList)]

theorem renderedFrame_tokens {t : Binary64} (ht : stod "0.50".toList = some t) :
    AscTokens .hex (renderedFrame t) (renderedParts.map Prod.snd) := by
  have first : IsNumeral 16 "0a".toList 10 := by decide
  have second : IsNumeral 16 "ff".toList 255 := by decide
  have payload : PayloadTokens .hex (renderedFrame t) ["0a".toList, "ff".toList] := by
    refine ⟨rfl, fun i hi _ => ?_, fun i hi past => ?_⟩
    · match i, hi with
      | 0, _ => exact first
      | 1, _ => exact second
    · have past : 2 ≤ i := past
      change (((Vector.replicate 64 (0 : UInt8)).set 0 10).set 1 255)[i] = 0
      rw [Vector.getElem_set_ne _ _ (by omega), Vector.getElem_set_ne _ _ (by omega),
        Vector.getElem_replicate]
  have numeral : IsNumeral 16 "1F".toList 31 := by decide
  have id : IdToken .hex (renderedFrame t) "1Fx".toList := ⟨"1F".toList, numeral, rfl⟩
  have dlc : IsNumeral 16 "02".toList 2 := by decide
  have stamp : TimeToken (renderedFrame t) "0.50".toList :=
    ⟨⟨"0".toList, "50".toList, rfl, rfl, rfl⟩, ht⟩
  have channel : ChannelToken (renderedFrame t) "1".toList := by
    refine ⟨by decide, fun c hc => ?_, by decide, by decide, rfl⟩
    rw [List.mem_singleton.mp hc]
    rfl
  have short : (2 : UInt8).toNat ≤ 8 := by decide
  have frame := @ClassicTokens.data .hex (renderedFrame t) _ _ _ _ ["Length".toList] rfl id
    (.inl rfl) dlc short payload
    (by decide)
  exact .classic stamp rfl channel rfl frame

theorem readAll_rendered_sample : ∃ t r, stod "0.50".toList = some t ∧
    (⟨.hex, true, fun _ => none⟩ : AscReader).readAll (spaced renderedParts "\r".toList ++ ['\n']) =
    .ok [r] ∧
    r.SameFrame (renderedFrame t) := by
  have converts : (stod "0.50".toList).isSome = true := by decide +kernel
  obtain ⟨t, ht⟩ := Option.isSome_iff_exists.mp converts
  have spacing : WellSpaced isSpace renderedParts "\r".toList := by decide
  obtain ⟨r, read, same⟩ :=
    @readAll_rendered ⟨.hex, true, fun _ => none⟩ rfl _ _ _ _ spacing (by decide)
    (.inr rfl) (renderedFrame_tokens ht)
  exact ⟨t, r, ht, read, same⟩

end FsCore
