import FsCore.AscReader

namespace FsCore

/-- The Python values of a pickled tuple. -/
inductive PyObject where
  | float (value : Binary64)
  | int (value : Int)
  | bytes (value : List UInt8)
  | str (value : String)

/-- What pickling ends with instead of a value: a cast_error, a UnicodeDecodeError, an IndexError, or an
access behind the end of an array. -/
inductive PyError where
  | cast
  | unicode
  | index
  | undefined
deriving DecidableEq

def bytesOf (s : Text) : List UInt8 := s.map fun c => UInt8.ofNat c.toNat

def textOf (bytes : List UInt8) : Text := bytes.map fun b => Char.ofNat b.toNat

/-- `py::str` of a C++ string: it is decoded. -/
def pyStr (s : Text) : Except PyError PyObject :=
  match String.fromUTF8? ⟨(bytesOf s).toArray⟩ with
  | some value => .ok (.str value)
  | none => .error .unicode

/-- `tup[i]` -/
def item (tup : List PyObject) (i : Nat) : Except PyError PyObject :=
  match tup[i]? with
  | some x => .ok x
  | none => .error .index

/-- `cast<int>` -/
def PyObject.castInt : PyObject → Except PyError Int
  | .int value => if -2 ^ 31 ≤ value ∧ value < 2 ^ 31 then .ok value else .error .cast
  | _ => .error .cast

/-- `cast<double>` also takes an integer that is not too large. -/
def PyObject.castDouble : PyObject → Except PyError Binary64
  | .float value => .ok value
  | .int value =>
    if (Binary64.ofInt value).magnitude < Binary64.infinite then .ok (.ofInt value) else .error .cast
  | _ => .error .cast

/-- `cast<std::string>`: the bytes, or the UTF-8 of a text. -/
def PyObject.castString : PyObject → Except PyError (List UInt8)
  | .bytes value => .ok value
  | .str value => .ok value.toUTF8.data.toList
  | _ => .error .cast

/-- The first data_len bytes of the payload. -/
def LogRecord.dataBytes (p : LogRecord) : Except PyError PyObject :=
  if 64 < p.dataLen.toNat then .error .undefined
  else .ok (.bytes (p.data.toList.take p.dataLen.toNat))

/-- The payload after memset and memcpy. -/
def copyData (dataLen : UInt8) (data : List UInt8) : Except PyError (Vector UInt8 64) :=
  let copyN := min dataLen.toNat data.length
  if 64 < copyN then .error .undefined
  else .ok (Vector.ofFn fun i => if i.val < copyN then data.getD i.val 0 else 0)

namespace LogRecord

/-- The members as they are assigned from the casts. -/
def assigned (timestamp : Binary64) (canId direction dataLen : Int) (data : Vector UInt8 64)
    (channel : List UInt8) : LogRecord where
  timestamp := timestamp
  canId := UInt32.ofInt canId
  direction := UInt8.ofInt direction
  dataLen := UInt8.ofInt dataLen
  data := data
  -- not in the tuple: these keep their initializers
  isExtendedId := false
  isErrorFrame := false
  isRemoteFrame := false
  bitrateSwitch := false
  errorStateIndicator := false
  isFd := false
  channel := channelOf (textOf channel)

def getState (p : LogRecord) : Except PyError (List PyObject) := do
  let dataBytes ← p.dataBytes
  let channelStr ← pyStr p.channelText
  return [.float p.timestamp, .int p.canId.toNat, .int p.direction.toNat, dataBytes, channelStr,
    .int p.dataLen.toNat]

def setState (tup : List PyObject) : Except PyError LogRecord := do
  let timestamp ← (← item tup 0).castDouble
  let canId ← (← item tup 1).castInt
  let direction ← (← item tup 2).castInt
  let data ← (← item tup 3).castString
  let channel ← (← item tup 4).castString
  let dataLen ← (← item tup 5).castInt
  let stored ← copyData (UInt8.ofInt dataLen) data
  return assigned timestamp canId direction dataLen stored channel

/-- Pickled, and restored from the tuple. -/
def restored (p : LogRecord) : Except PyError LogRecord := p.getState >>= setState

end LogRecord

namespace ParsedEntry

def getState (p : ParsedEntry) : Except PyError (List PyObject) := do
  let dataBytes ← p.dataBytes
  let channelStr ← pyStr p.channelText
  return [.float p.timestamp, .int p.canId.toNat, .int p.direction.toNat, dataBytes, channelStr,
    .int p.dataLen.toNat, .int p.lineNumber.toNat, .float p.lastTimestamp, .int p.changed.toNat]

def setState (tup : List PyObject) : Except PyError ParsedEntry := do
  let timestamp ← (← item tup 0).castDouble
  let canId ← (← item tup 1).castInt
  let direction ← (← item tup 2).castInt
  let data ← (← item tup 3).castString
  let channel ← (← item tup 4).castString
  let dataLen ← (← item tup 5).castInt
  let lineNumber ← (← item tup 6).castInt
  let lastTimestamp ← (← item tup 7).castDouble
  let changed ← (← item tup 8).castInt
  let stored ← copyData (UInt8.ofInt dataLen) data
  return {
    toLogRecord := .assigned timestamp canId direction dataLen stored channel
    lineNumber := UInt32.ofInt lineNumber
    lastTimestamp := lastTimestamp
    changed := UInt8.ofInt changed
    prevSameCan := kInvalidRow
    nextSameCan := kInvalidRow }

def restored (p : ParsedEntry) : Except PyError ParsedEntry := p.getState >>= setState

end ParsedEntry

/-- The records whose round trip is asked for: the payload is zero from data_len on, and the channel
is a C string of valid UTF-8. -/
structure LogRecord.Picklable (p : LogRecord) : Prop where
  short : p.dataLen.toNat ≤ 64
  zeros : ∀ i : Fin 64, p.dataLen.toNat ≤ i.val → p.data[i] = 0
  terminated : nul ∈ p.channel
  chars : ∀ c ∈ p.channel, c.toNat < 256
  utf8 : ByteArray.IsValidUTF8 ⟨(bytesOf p.channelText).toArray⟩

/-- None of the six flags is set. -/
def LogRecord.Unflagged (p : LogRecord) : Prop :=
  p.isExtendedId = false ∧ p.isErrorFrame = false ∧ p.isRemoteFrame = false ∧ p.bitrateSwitch = false ∧
    p.errorStateIndicator = false ∧ p.isFd = false

/-- A row in no chain, whose line number is an `int`. -/
structure ParsedEntry.Unlinked (p : ParsedEntry) : Prop where
  lineNumber : p.lineNumber.toNat < 2 ^ 31
  prevSameCan : p.prevSameCan = kInvalidRow
  nextSameCan : p.nextSameCan = kInvalidRow

/-- Nothing stands behind the terminator of the channel. -/
def LogRecord.Padded (p : LogRecord) : Prop := ∀ c ∈ p.channel.toList.drop p.channelText.length, c = nul

/-- The record with nothing behind the terminator. -/
def LogRecord.padded (p : LogRecord) : LogRecord := { p with channel := channelOf p.channelText }

def ParsedEntry.padded (p : ParsedEntry) : ParsedEntry := { p with toLogRecord := p.toLogRecord.padded }

section RoundTrip

theorem ok_bind {α β : Type} (a : α) (f : α → Except PyError β) : Except.ok a >>= f = f a := rfl

theorem ite_ok_iff {α : Type} {c : Prop} [Decidable c] {a b : α} {e : PyError} :
    (if c then Except.ok a else .error e) = .ok b ↔ c ∧ a = b := by
  by_cases hc : c
  · rw [if_pos hc, Except.ok.injEq]
    exact (and_iff_right hc).symm
  · rw [if_neg hc]
    exact ⟨fun none => (nomatch none), fun both => absurd both.1 hc⟩

theorem textOf_bytesOf {s : Text} (chars : ∀ c ∈ s, c.toNat < 256) : textOf (bytesOf s) = s := by
  rw [textOf, bytesOf, List.map_map]
  calc s.map ((fun b => Char.ofNat b.toNat) ∘ fun c => UInt8.ofNat c.toNat)
      = s.map id := List.map_congr_left fun c hc => by
        rw [Function.comp_apply, UInt8.toNat_ofNat_of_lt' (chars c hc), Char.ofNat_toNat, id]
    _ = s := List.map_id s

/-- A text that can be decoded is encoded to the same bytes. -/
theorem pyStr_cast {s : Text} (utf8 : ByteArray.IsValidUTF8 ⟨(bytesOf s).toArray⟩) :
    ∃ x, pyStr s = .ok x ∧ x.castString = .ok (bytesOf s) := by
  refine ⟨.str (String.fromUTF8 _ utf8), ?_, rfl⟩
  rw [pyStr, String.fromUTF8?, dif_pos utf8]

theorem copyData_dataBytes {p : LogRecord} (short : p.dataLen.toNat ≤ 64)
    (zeros : ∀ i : Fin 64, p.dataLen.toNat ≤ i.val → p.data[i] = 0) :
    copyData p.dataLen (p.data.toList.take p.dataLen.toNat) = .ok p.data := by
  have length : min p.dataLen.toNat (p.data.toList.take p.dataLen.toNat).length = p.dataLen.toNat := by
    simp [short]
  rw [copyData, length, if_neg (Nat.not_lt.mpr short)]
  refine congrArg Except.ok (Vector.ext fun i hi => ?_)
  rw [Vector.getElem_ofFn]
  dsimp only
  split
  next inside =>
    rw [List.getD_eq_getElem?_getD, List.getElem?_take_of_lt inside,
      List.getElem?_eq_getElem (by simpa using hi), Option.getD_some, Vector.getElem_toList]
  next past => exact (zeros ⟨i, hi⟩ (Nat.not_lt.mp past)).symm

theorem castInt_natCast (n : Nat) :
    (PyObject.int n).castInt = if n < 2 ^ 31 then .ok (n : Int) else .error .cast := by
  have range : (-2 ^ 31 ≤ (n : Int) ∧ (n : Int) < 2 ^ 31) ↔ n < 2 ^ 31 := by omega
  simp only [PyObject.castInt, range]

theorem castInt_byte (b : UInt8) : (PyObject.int b.toNat).castInt = .ok (b.toNat : Int) := by
  have small := b.toNat_lt
  rw [castInt_natCast, if_pos (by omega)]

theorem ofInt_toNat_byte (b : UInt8) : UInt8.ofInt b.toNat = b := by
  have small := b.toNat_lt
  rw [UInt8.ofInt, Int.emod_eq_of_lt (by omega) (by omega), Int.toNat_natCast, UInt8.ofNat_toNat]

theorem ofInt_toNat_word (w : UInt32) : UInt32.ofInt w.toNat = w := by
  have small := w.toNat_lt
  rw [UInt32.ofInt, Int.emod_eq_of_lt (by omega) (by omega), Int.toNat_natCast, UInt32.ofNat_toNat]

namespace LogRecord

variable {p : LogRecord}

theorem Picklable.chars_text (h : p.Picklable) : ∀ c ∈ p.channelText, c.toNat < 256 :=
  fun c hc => h.chars c (Vector.mem_toList_iff.mp ((List.takeWhile_subset _) hc))

/-- What comes back of a record. -/
def carried (p : LogRecord) : LogRecord :=
  { p.padded with
    isExtendedId := false
    isErrorFrame := false
    isRemoteFrame := false
    bitrateSwitch := false
    errorStateIndicator := false
    isFd := false }

theorem assigned_eq (h : p.Picklable) :
    assigned p.timestamp p.canId.toNat p.direction.toNat p.dataLen.toNat p.data
      (bytesOf p.channelText) =
      p.carried := by
  rw [assigned, ofInt_toNat_word, ofInt_toNat_byte, ofInt_toNat_byte, textOf_bytesOf h.chars_text,
    carried, padded]

/-- The payload and the channel of the tuple. -/
theorem items_eq (h : p.Picklable) : ∃ channelStr, channelStr.castString = .ok (bytesOf p.channelText) ∧
    p.dataBytes = .ok (.bytes (p.data.toList.take p.dataLen.toNat)) ∧
      pyStr p.channelText = .ok channelStr := by
  obtain ⟨channelStr, encoded, decoded⟩ := pyStr_cast h.utf8
  refine ⟨channelStr, decoded, ?_, encoded⟩
  rw [dataBytes, if_neg (Nat.not_lt.mpr h.short)]

theorem stored_eq (h : p.Picklable) :
    copyData (UInt8.ofInt p.dataLen.toNat) (p.data.toList.take p.dataLen.toNat) = .ok p.data := by
  rw [ofInt_toNat_byte]
  exact copyData_dataBytes h.short h.zeros

section Tuples

variable {timestamp : Binary64} {canId direction channel dataLen : PyObject} {data : List UInt8}

theorem setState_tuple :
    setState [.float timestamp, canId, direction, .bytes data, channel, dataLen] = (do
    let canId ← canId.castInt
    let direction ← direction.castInt
    let channel ← channel.castString
    let dataLen ← dataLen.castInt
    let stored ← copyData (UInt8.ofInt dataLen) data
    return assigned timestamp canId direction dataLen stored channel) := rfl

theorem setState_ok {c d n : Int} {s : List UInt8} {stored : Vector UInt8 64}
    (hc : canId.castInt = .ok c) (hd : direction.castInt = .ok d) (hs : channel.castString = .ok s)
    (hn : dataLen.castInt = .ok n) (hdata : copyData (UInt8.ofInt n) data = .ok stored) :
    setState [.float timestamp, canId, direction, .bytes data, channel, dataLen] =
      .ok (assigned timestamp c d n stored s) := by
  rw [setState_tuple, hc, hd, hs, hn]
  simp only [ok_bind, hdata]
  rfl

theorem setState_canId {e : PyError} (hc : canId.castInt = .error e) :
    setState [.float timestamp, canId, direction, .bytes data, channel, dataLen] = .error e := by
  rw [setState_tuple, hc]
  rfl

end Tuples

theorem restored_eq (h : p.Picklable) :
    p.restored = if p.canId.toNat < 2 ^ 31 then .ok p.carried else .error .cast := by
  obtain ⟨channelStr, decoded, dataBytes, encoded⟩ := items_eq h
  have state : p.getState = .ok [.float p.timestamp, .int p.canId.toNat, .int p.direction.toNat,
      .bytes (p.data.toList.take p.dataLen.toNat), channelStr, .int p.dataLen.toNat] := by
    rw [getState, dataBytes, encoded]
    rfl
  have canId := castInt_natCast p.canId.toNat
  rw [restored, state, ok_bind]
  by_cases small : p.canId.toNat < 2 ^ 31
  · rw [if_pos small] at canId
    rw [if_pos small, setState_ok canId (castInt_byte _) decoded (castInt_byte _) (stored_eq h),
      assigned_eq h]
  · rw [if_neg small] at canId
    rw [if_neg small, setState_canId canId]

end LogRecord

namespace ParsedEntry

variable {p : ParsedEntry}

def carried (p : ParsedEntry) : ParsedEntry :=
  { p with
    toLogRecord := p.toLogRecord.carried
    prevSameCan := kInvalidRow
    nextSameCan := kInvalidRow }

section Tuples

variable {timestamp lastTimestamp : Binary64}
  {canId direction channel dataLen lineNumber changed : PyObject}
  {data : List UInt8} {c d n l x : Int} {s : List UInt8}

theorem setState_tuple :
    setState [.float timestamp, canId, direction, .bytes data, channel, dataLen, lineNumber,
      .float lastTimestamp, changed] = (do
    let canId ← canId.castInt
    let direction ← direction.castInt
    let channel ← channel.castString
    let dataLen ← dataLen.castInt
    let lineNumber ← lineNumber.castInt
    let changed ← changed.castInt
    let stored ← copyData (UInt8.ofInt dataLen) data
    return { toLogRecord := .assigned timestamp canId direction dataLen stored channel,
             lineNumber := UInt32.ofInt lineNumber, lastTimestamp := lastTimestamp, changed :=
  UInt8.ofInt changed,
             prevSameCan := kInvalidRow, nextSameCan := kInvalidRow }) := rfl

theorem setState_ok {stored : Vector UInt8 64} (hc : canId.castInt = .ok c)
    (hd : direction.castInt = .ok d) (hs : channel.castString = .ok s)
    (hn : dataLen.castInt = .ok n) (hl : lineNumber.castInt = .ok l) (hx : changed.castInt = .ok x)
    (hdata : copyData (UInt8.ofInt n) data = .ok stored) :
    setState [.float timestamp, canId, direction, .bytes data, channel, dataLen, lineNumber,
      .float lastTimestamp, changed] =
      .ok { toLogRecord := .assigned timestamp c d n stored s, lineNumber := UInt32.ofInt l,
            lastTimestamp := lastTimestamp, changed := UInt8.ofInt x, prevSameCan := kInvalidRow,
            nextSameCan := kInvalidRow } := by
  rw [setState_tuple, hc, hd, hs, hn, hl, hx]
  simp only [ok_bind, hdata]
  rfl

theorem setState_canId {e : PyError} (hc : canId.castInt = .error e) :
    setState [.float timestamp, canId, direction, .bytes data, channel, dataLen, lineNumber,
      .float lastTimestamp, changed] = .error e := by
  rw [setState_tuple, hc]
  rfl

theorem setState_lineNumber {e : PyError} (hc : canId.castInt = .ok c) (hd : direction.castInt = .ok d)
    (hs : channel.castString = .ok s) (hn : dataLen.castInt = .ok n)
    (hl : lineNumber.castInt = .error e) :
    setState [.float timestamp, canId, direction, .bytes data, channel, dataLen, lineNumber,
      .float lastTimestamp, changed] = .error e := by
  rw [setState_tuple, hc, hd, hs, hn, hl]
  rfl

end Tuples

theorem restored_eq (h : p.toLogRecord.Picklable) : p.restored =
    if p.canId.toNat < 2 ^ 31 ∧ p.lineNumber.toNat < 2 ^ 31 then .ok p.carried else .error .cast := by
  obtain ⟨channelStr, decoded, dataBytes, encoded⟩ := p.toLogRecord.items_eq h
  have state : p.getState = .ok [.float p.timestamp, .int p.canId.toNat, .int p.direction.toNat,
      .bytes (p.data.toList.take p.dataLen.toNat), channelStr, .int p.dataLen.toNat,
        .int p.lineNumber.toNat,
      .float p.lastTimestamp, .int p.changed.toNat] := by
    rw [getState, dataBytes, encoded]
    rfl
  have canId := castInt_natCast p.canId.toNat
  have lineNumber := castInt_natCast p.lineNumber.toNat
  have stored := LogRecord.stored_eq h
  rw [restored, state, ok_bind]
  by_cases small : p.canId.toNat < 2 ^ 31
  · rw [if_pos small] at canId
    by_cases line : p.lineNumber.toNat < 2 ^ 31
    · rw [if_pos line] at lineNumber
      rw [if_pos ⟨small, line⟩,
        setState_ok canId (castInt_byte _) decoded (castInt_byte _) lineNumber (castInt_byte _)
        stored, LogRecord.assigned_eq h, ofInt_toNat_word, ofInt_toNat_byte]
      rfl
    · rw [if_neg line] at lineNumber
      rw [if_neg fun both => line both.2,
        setState_lineNumber canId (castInt_byte _) decoded (castInt_byte _) lineNumber]
  · rw [if_neg small] at canId
    rw [if_neg fun both => small both.1, setState_canId canId]

end ParsedEntry

section Channel

variable {p : LogRecord}

/-- A terminated channel is its text and at least one more character. -/
theorem channel_split (terminated : nul ∈ p.channel) :
    ∃ rest, p.channel.toList = p.channelText ++ rest ∧
    rest.length = 16 - p.channelText.length ∧ p.channelText.length < 16 := by
  have whole : p.channel.toList = p.channelText ++ p.channel.toList.dropWhile (· ≠ nul) :=
    List.takeWhile_append_dropWhile.symm
  have length := congrArg List.length whole
  rw [List.length_append, Vector.length_toList] at length
  have more : p.channel.toList.dropWhile (· ≠ nul) ≠ [] := by
    intro none
    have all := List.dropWhile_eq_nil_iff.mp none nul (Vector.mem_toList_iff.mpr terminated)
    simp at all
  have := List.length_pos_iff.mpr more
  exact ⟨_, whole, by omega, by omega⟩

theorem channelText_plain {c : Char} (hc : c ∈ p.channelText) : decide (c ≠ nul) = true := by
  unfold LogRecord.channelText at hc
  simpa using List.mem_takeWhile_imp hc

theorem takeWhile_channelText (p : LogRecord) : p.channelText.takeWhile (· ≠ nul) = p.channelText :=
  List.takeWhile_eq_self_iff.mpr fun _ hc => channelText_plain hc

theorem channelOf_channelText (terminated : nul ∈ p.channel) :
    (channelOf p.channelText).toList =
      p.channelText ++ List.replicate (16 - p.channelText.length) nul := by
  obtain ⟨_, _, _, short⟩ := channel_split terminated
  rw [channelOf_toList, takeWhile_channelText, List.take_of_length_le (by omega)]

theorem padded_iff (terminated : nul ∈ p.channel) : channelOf p.channelText = p.channel ↔ p.Padded := by
  obtain ⟨rest, whole, length, _⟩ := channel_split terminated
  have same : channelOf p.channelText = p.channel ↔ (channelOf p.channelText).toList =
    p.channel.toList :=
    Vector.toList_inj.symm
  rw [same, channelOf_channelText terminated, whole, List.append_cancel_left_eq, eq_comm,
    List.eq_replicate_iff, LogRecord.Padded, whole, List.drop_left]
  exact and_iff_right length

theorem channelText_padded (terminated : nul ∈ p.channel) : p.padded.channelText = p.channelText := by
  obtain ⟨_, _, _, short⟩ := channel_split terminated
  calc p.padded.channelText
      = (p.channelText.takeWhile (· ≠ nul)).take 15 := takeWhile_channelOf p.channelText
    _ = p.channelText := by rw [takeWhile_channelText, List.take_of_length_le (by omega)]

end Channel

namespace LogRecord

variable {p : LogRecord}

theorem carried_eq_padded : p.carried = p.padded ↔ p.Unflagged := by
  simp only [carried, padded, Unflagged, LogRecord.mk.injEq, true_and, and_true, @eq_comm Bool false]

theorem padded_eq (terminated : nul ∈ p.channel) : p.padded = p ↔ p.Padded := by
  rw [← padded_iff terminated]
  obtain ⟨⟩ := p
  simp [padded, LogRecord.mk.injEq]

theorem carried_eq (terminated : nul ∈ p.channel) : p.carried = p ↔ p.Unflagged ∧ p.Padded := by
  rw [← padded_eq terminated]
  constructor
  · intro same
    have own : p.padded = p := by
      have channel := congrArg LogRecord.channel same
      rw [padded, show channelOf p.channelText = p.channel from channel]
    exact ⟨carried_eq_padded.mp (same.trans own.symm), own⟩
  · intro h
    exact (carried_eq_padded.mpr h.1).trans h.2

theorem carried_padded (terminated : nul ∈ p.channel) : p.carried.padded = p.carried := by
  have channel : p.carried.channel = p.padded.channel := by rw [carried]
  have text : p.carried.channelText = p.padded.channelText :=
    congrArg (fun c => c.toList.takeWhile (· ≠ nul)) channel
  rw [padded, text, channelText_padded terminated, carried, padded]

theorem restored_ok_iff (h : p.Picklable) {q : LogRecord} :
    p.restored = .ok q ↔ p.canId.toNat < 2 ^ 31 ∧ p.carried = q := by
  rw [restored_eq h, ite_ok_iff]

theorem restored_same_iff (h : p.Picklable) :
    p.restored = .ok p ↔ p.Unflagged ∧ p.canId.toNat < 2 ^ 31 ∧ p.Padded := by
  rw [restored_ok_iff h, carried_eq h.terminated, and_left_comm]

theorem restored_text_iff (h : p.Picklable) :
    (∃ q, p.restored = .ok q ∧ q.padded = p.padded) ↔ p.Unflagged ∧ p.canId.toNat < 2 ^ 31 := by
  constructor
  · intro read
    obtain ⟨q, hq, same⟩ := read
    obtain ⟨small, rfl⟩ := (restored_ok_iff h).mp hq
    rw [carried_padded h.terminated] at same
    exact ⟨carried_eq_padded.mp same, small⟩
  · intro kept
    obtain ⟨flags, small⟩ := kept
    refine ⟨p.carried, (restored_ok_iff h).mpr ⟨small, rfl⟩, ?_⟩
    rw [carried_padded h.terminated, carried_eq_padded.mpr flags]

end LogRecord

namespace ParsedEntry

variable {p : ParsedEntry}

theorem restored_ok_iff (h : p.toLogRecord.Picklable) {q : ParsedEntry} :
    p.restored = .ok q ↔ (p.canId.toNat < 2 ^ 31 ∧ p.lineNumber.toNat < 2 ^ 31) ∧ p.carried = q := by
  rw [restored_eq h, ite_ok_iff]

/-- The tuple has no links: they come back unset. -/
theorem links_iff {r s : LogRecord} :
    ({ p with toLogRecord := r, prevSameCan := kInvalidRow, nextSameCan := kInvalidRow } :
        ParsedEntry) = { p with toLogRecord := s } ↔
      r = s ∧ p.prevSameCan = kInvalidRow ∧ p.nextSameCan = kInvalidRow := by
  simp only [ParsedEntry.mk.injEq, true_and, @eq_comm UInt32 kInvalidRow]

theorem restored_same_iff (h : p.toLogRecord.Picklable) :
    p.restored = .ok p ↔ (p.Unflagged ∧ p.canId.toNat < 2 ^ 31 ∧ p.Padded) ∧ p.Unlinked := by
  rw [restored_ok_iff h, show p.carried = p ↔ _ from links_iff, LogRecord.carried_eq h.terminated]
  constructor
  · intro kept
    obtain ⟨⟨small, line⟩, ⟨flags, padded⟩, prev, next⟩ := kept
    exact ⟨⟨flags, small, padded⟩, line, prev, next⟩
  · intro kept
    obtain ⟨⟨flags, small, padded⟩, line, prev, next⟩ := kept
    exact ⟨⟨small, line⟩, ⟨flags, padded⟩, prev, next⟩

theorem restored_text_iff (h : p.toLogRecord.Picklable) :
    (∃ q, p.restored = .ok q ∧ q.padded = p.padded) ↔
      (p.Unflagged ∧ p.canId.toNat < 2 ^ 31) ∧ p.Unlinked := by
  have own : p.carried.padded = p.carried := by
    rw [padded, show p.carried.toLogRecord.padded =
      p.carried.toLogRecord from LogRecord.carried_padded h.terminated]
  constructor
  · intro read
    obtain ⟨q, hq, same⟩ := read
    obtain ⟨⟨small, line⟩, rfl⟩ := (restored_ok_iff h).mp hq
    rw [own] at same
    obtain ⟨record, prev, next⟩ := links_iff.mp same
    exact ⟨⟨LogRecord.carried_eq_padded.mp record, small⟩, line, prev, next⟩
  · intro kept
    obtain ⟨⟨flags, small⟩, line, prev, next⟩ := kept
    refine ⟨p.carried, (restored_ok_iff h).mpr ⟨⟨small, line⟩, rfl⟩, own.trans ?_⟩
    exact links_iff.mpr ⟨LogRecord.carried_eq_padded.mpr flags, prev, next⟩

end ParsedEntry

end RoundTrip

/-- What a pickled record or row comes back as itself for; and up to what stands behind the
terminator of its channel. -/
theorem pickle_roundTrips_iff (p : LogRecord) (h : p.Picklable) :
    ((p.restored = .ok p ↔ p.Unflagged ∧ p.canId.toNat < 2 ^ 31 ∧ p.Padded) ∧
      ((∃ q, p.restored = .ok q ∧ q.padded = p.padded) ↔ p.Unflagged ∧ p.canId.toNat < 2 ^ 31)) ∧
    ∀ e : ParsedEntry, e.toLogRecord = p →
      (e.restored = .ok e ↔ (p.Unflagged ∧ p.canId.toNat < 2 ^ 31 ∧ p.Padded) ∧ e.Unlinked) ∧
      ((∃ f, e.restored = .ok f ∧ f.padded = e.padded) ↔ (p.Unflagged ∧ p.canId.toNat < 2 ^ 31) ∧
        e.Unlinked) := by
  refine ⟨⟨LogRecord.restored_same_iff h, LogRecord.restored_text_iff h⟩, ?_⟩
  intro e own
  subst own
  exact ⟨ParsedEntry.restored_same_iff h, ParsedEntry.restored_text_iff h⟩

theorem mem_channelOf {s : Text} {c : Char} (h : c ∈ channelOf s) : c ∈ s ∨ c = nul := by
  rw [← Vector.mem_toList_iff, channelOf_toList] at h
  rcases List.mem_append.mp h with text | rest
  · exact .inl (List.takeWhile_subset _ (List.mem_of_mem_take text))
  · exact .inr (List.eq_of_mem_replicate rest)

/-- A record on channel 1. -/
def onChannelOne : LogRecord := { sampleRecord with channel := channelOf "1".toList }

theorem onChannelOne_text : onChannelOne.channelText = ['1'] :=
  (takeWhile_channelOf "1".toList).trans (by decide)

theorem onChannelOne_picklable : onChannelOne.Picklable where
  short := by decide
  zeros := fun _ _ => Vector.getElem_replicate ..
  terminated := Vector.mem_toList_iff.mp (nul_mem_channelOf _)
  chars := by
    intro c hc
    rcases mem_channelOf hc with one | rfl
    · rw [List.mem_singleton.mp one]
      decide
    · decide
  utf8 := by
    rw [onChannelOne_text]
    exact ⟨['1'], by decide⟩

theorem pickle_roundTrips_iff_sample :
    ((onChannelOne.restored = .ok onChannelOne ↔
        onChannelOne.Unflagged ∧ onChannelOne.canId.toNat < 2 ^ 31 ∧ onChannelOne.Padded) ∧
      ((∃ q, onChannelOne.restored = .ok q ∧ q.padded = onChannelOne.padded) ↔
        onChannelOne.Unflagged ∧ onChannelOne.canId.toNat < 2 ^ 31)) ∧
    ∀ e : ParsedEntry, e.toLogRecord = onChannelOne →
      (e.restored = .ok e ↔
        (onChannelOne.Unflagged ∧ onChannelOne.canId.toNat < 2 ^ 31 ∧ onChannelOne.Padded) ∧
          e.Unlinked) ∧
      ((∃ f, e.restored = .ok f ∧ f.padded = e.padded) ↔
        (onChannelOne.Unflagged ∧ onChannelOne.canId.toNat < 2 ^ 31) ∧ e.Unlinked) :=
  pickle_roundTrips_iff onChannelOne onChannelOne_picklable

def extendedFrame : LogRecord := { onChannelOne with isExtendedId := true }

/-- An extended frame comes back as a standard one. -/
theorem pickle_loses_flag : ¬ ∀ p : LogRecord, p.Picklable → p.restored = .ok p := by
  intro keeps
  have same := onChannelOne_picklable
  have picklable : extendedFrame.Picklable :=
    ⟨same.short, same.zeros, same.terminated, same.chars, same.utf8⟩
  have kept := (LogRecord.restored_same_iff picklable).mp (keeps extendedFrame picklable)
  exact absurd kept.1.1 (by decide)

end FsCore
