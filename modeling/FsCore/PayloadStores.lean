import FsCore.RecordText

namespace FsCore

/-- The whole token is a numeral below 256. -/
def ByteToken (base : Base) (token : Text) : Prop :=
  ∃ value, stoul base.radix token = some (value, token.length) ∧ value ≤ 0xff

/-- The whole token without its x is a numeral. -/
def CanIdToken (base : Base) (token : Text) : Prop :=
  ∃ value, stoul base.radix (withoutX token) = some (value, (withoutX token).length)

/-- The line declares more than 64 bytes, carries more than 64 tokens, and the first
65 of them are bytes. -/
def OverlongPayload (base : Base) (dlcStr dataLengthStr : Text) (data : List Text) : Prop :=
  (stoi base.radix dlcStr).isSome ∧ (∃ n, stoi 10 dataLengthStr = some n ∧ 64 < n) ∧
    64 < intOfSize data.length ∧ ∀ t ∈ data.take 65, ByteToken base t

def OverlongFields (base : Base) : List Text → Prop
  | _ :: dlcStr :: dataLengthStr :: data => OverlongPayload base dlcStr dataLengthStr data
  | _ => False

/-- The tokens from the id on. -/
def OverlongMessage (base : Base) : List Text → Prop
  | canId :: name :: fields =>
    CanIdToken base canId ∧ OverlongFields base (if isDigits name then fields else fields.tail)
  | _ => False

/-- The tokens from the direction on. -/
def OverlongFrame (base : Base) : List Text → Prop
  | direction :: message =>
    toLowerAscii (direction.take 10) ≠ "errorframe".toList ∧ OverlongMessage base message
  | [] => False

/-- A record line that makes the parser write past the payload. -/
def Overlong (base : Base) (raw : Text) : Prop :=
  trimCopy raw ∉ kAscTriggerRegex.language ∧ trimCopy raw ∉ kStartOfMeasurementRegex.language ∧
    trimCopy raw ∈ kLogRecordRegex.language ∧
    match splitWhitespace (trimCopy raw) with
    | time :: kind :: _ :: frame =>
      (stod time).isSome ∧ kind = "CANFD".toList ∧ OverlongFrame base frame
    | _ => False

section Stops

variable {α β : Type} {i j : Nat} {base : Base}

@[simp] theorem throwText_ne {what : Text} : throwText (α := α) what ≠ .error (.outOfBounds i) := nofun

@[simp] theorem parse_pure_ne {a : α} : (pure a : Parse α) ≠ .error (.outOfBounds i) := nofun

theorem parse_bind_iff {m : Parse α} {f : α → Parse β} : m >>= f = .error (.outOfBounds i) ↔
    m = .error (.outOfBounds i) ∨ ∃ a, m = .ok a ∧ f a = .error (.outOfBounds i) := by
  cases m with
  | ok a =>
    constructor
    · exact fun h => .inr ⟨a, rfl, h⟩
    · rintro (h | ⟨_, h, hf⟩)
      · cases h
      · cases h
        exact hf
  | error e =>
    constructor
    · intro h
      cases h
      exact .inl rfl
    · rintro (h | ⟨_, h, _⟩)
      · cases h
        rfl
      · cases h

theorem parse_map_iff {m : Parse α} {f : α → β} :
    f <$> m = .error (.outOfBounds i) ↔ m = .error (.outOfBounds i) := by
  cases m with
  | ok a => exact iff_of_false nofun nofun
  | error e => exact ⟨fun h => by cases h; rfl, fun h => by cases h; rfl⟩

@[simp] theorem convert_bind_iff {name : String} {o : Option α} {f : α → Parse β} :
    convert name o >>= f = .error (.outOfBounds i) ↔ ∃ a, o = some a ∧
      f a = .error (.outOfBounds i) := by
  cases o with
  | none => simpa [convert, parse_bind_iff] using fun _ h => nomatch h
  | some a =>
    constructor
    · exact fun h => ⟨a, rfl, h⟩
    · intro h
      obtain ⟨_, h, hf⟩ := h
      cases h
      exact hf

theorem dataByte_ne {token : Text} : dataByte base token ≠ .error (.outOfBounds i) := by
  unfold dataByte
  split
  next => exact throwText_ne
  next =>
    split
    next => exact throwText_ne
    next => exact parse_pure_ne

theorem dataByte_ok {token : Text} : (∃ b, dataByte base token = .ok b) ↔ ByteToken base token := by
  simp only [dataByte_ok_iff]
  constructor
  · intro h
    obtain ⟨_, value, read, small, _⟩ := h
    exact ⟨value, read, small⟩
  · intro h
    obtain ⟨value, read, small⟩ := h
    exact ⟨_, value, read, small, rfl⟩

/-- The loop leaves the payload at the 65th token that it converts. -/
theorem storeBytes_iff {tokens : List Text} {data : Vector UInt8 64} (hi : i ≤ 64) :
    storeBytes base tokens i data = .error (.outOfBounds j) ↔
      j = 64 ∧ 64 < i + tokens.length ∧ ∀ t ∈ tokens.take (65 - i), ByteToken base t := by
  induction tokens generalizing i data with
  | nil =>
    constructor
    · intro h
      cases h
    · intro h
      obtain ⟨_, long, _⟩ := h
      simp only [List.length_nil] at long
      omega
  | cons token tokens ih =>
    rw [storeBytes, parse_bind_iff, or_iff_right dataByte_ne, List.length_cons,
      show 65 - i = 64 - i + 1 by omega, List.take_succ_cons]
    by_cases inside : i < 64
    · have rest : ∀ b, storeBytes base tokens (i + 1) (data.set i b) = .error (.outOfBounds j) ↔
          j = 64 ∧ 64 < i + (tokens.length + 1) ∧ ∀ t ∈ tokens.take (64 - i), ByteToken base t := by
        intro b
        rw [ih (by omega), show 65 - (i + 1) = 64 - i by omega,
          show i + 1 + tokens.length = i + (tokens.length + 1) by omega]
      simp only [inside, dif_pos, rest, List.forall_mem_cons, ← dataByte_ok]
      constructor
      · intro h
        obtain ⟨b, hb, hj, long, all⟩ := h
        exact ⟨hj, long, ⟨b, hb⟩, all⟩
      · intro h
        obtain ⟨hj, long, ⟨b, hb⟩, all⟩ := h
        exact ⟨b, hb, hj, long, all⟩
    · have last : i = 64 := by omega
      subst last
      simp only [Nat.lt_irrefl, dif_neg, not_false_iff, Nat.sub_self, List.take_zero,
        List.forall_mem_cons, ← dataByte_ok]
      constructor
      · intro h
        obtain ⟨b, hb, h⟩ := h
        cases h
        exact ⟨rfl, by omega, ⟨b, hb⟩, by simp⟩
      · rintro ⟨rfl, -, ⟨b, hb⟩, -⟩
        exact ⟨b, hb, rfl⟩

theorem processDataString_iff {dataStr : Text} {n : Int} {msg : LogRecord} :
    processDataString base dataStr n msg = .error (.outOfBounds j) ↔
      j = 64 ∧ 64 < n ∧ 64 < intOfSize (splitWhitespace dataStr).length ∧
        ∀ t ∈ (splitWhitespace dataStr).take 65, ByteToken base t := by
  have size := intOfSize_le (splitWhitespace dataStr).length
  rw [processDataString, parse_bind_iff, storeBytes_iff (by omega)]
  constructor
  · rintro (⟨hj, long, all⟩ | ⟨_, _, h⟩)
    · rw [List.length_take] at long
      rw [List.take_take, min_eq_left (by omega)] at all
      exact ⟨hj, by omega, by omega, all⟩
    · cases h
  · intro h
    obtain ⟨hj, long, tokens, all⟩ := h
    refine .inl ⟨hj, ?_, ?_⟩
    · rw [List.length_take]
      omega
    · rw [List.take_take, min_eq_left (by omega)]
      exact all

theorem extractCanId_ne {token : Text} {msg : LogRecord} :
    extractCanId base token msg ≠ .error (.outOfBounds i) := by
  unfold extractCanId
  dsimp only
  split
  next => exact throwText_ne
  next =>
    split
    next => exact throwText_ne
    next => exact parse_pure_ne

theorem canIdOf_isSome_iff {token : Text} : (∃ id, canIdOf base token = some id) ↔
    CanIdToken base token := by
  simp only [canIdOf_eq_some_iff]
  constructor
  · intro h
    obtain ⟨_, parsed, read, _⟩ := h
    exact ⟨parsed, read⟩
  · intro h
    obtain ⟨parsed, read⟩ := h
    exact ⟨_, parsed, read, rfl⟩

theorem extractCanId_ok {token : Text} (msg : LogRecord) :
    (∃ r, extractCanId base token msg = .ok r) ↔ CanIdToken base token := by
  rw [← canIdOf_isSome_iff]
  simp only [extractCanId_ok_iff]
  constructor
  · intro h
    obtain ⟨_, id, hid, _⟩ := h
    exact ⟨id, hid⟩
  · intro h
    obtain ⟨id, hid⟩ := h
    exact ⟨_, id, hid, rfl⟩

/-- The classic path caps the length before it hands it over. -/
theorem classicData_ne {dlcStr data : Text} {msg : LogRecord} :
    classicData base dlcStr data msg ≠ .error (.outOfBounds i) := by
  rw [classicData, ne_eq, convert_bind_iff]
  intro h
  obtain ⟨dlcRaw, _, h⟩ := h
  obtain ⟨-, long, -⟩ := processDataString_iff.mp h
  omega

theorem classicRemote_ne {rest : Text} {msg : LogRecord} :
    classicRemote base rest msg ≠ .error (.outOfBounds i) := by
  unfold classicRemote
  split
  next =>
    split
    next =>
      rw [ne_eq, convert_bind_iff]
      intro h
      obtain ⟨dlcRaw, _, h⟩ := h
      cases h
    next => exact parse_pure_ne
  next => exact parse_pure_ne

theorem processClassicCanFrame_ne {line : Text} {msg : LogRecord} :
    processClassicCanFrame base line msg ≠ .error (.outOfBounds i) := by
  unfold processClassicCanFrame
  split
  next => exact parse_pure_ne
  next =>
    split
    next =>
      rw [ne_eq, parse_bind_iff, or_iff_right extractCanId_ne]
      intro h
      obtain ⟨r, _, h⟩ := h
      split at h
      next => exact classicRemote_ne h
      next =>
        split at h
        next => exact classicData_ne h
        next => exact classicData_ne h
        next => exact throwText_ne h
    next => exact throwText_ne

theorem fdPayload_iff {canIdStr : Text} {f : FdFields} {msg : LogRecord} :
    fdPayload base canIdStr f msg = .error (.outOfBounds j) ↔
      j = 64 ∧ CanIdToken base canIdStr ∧
        OverlongPayload base f.dlcStr f.dataLengthStr (splitWhitespace f.data) := by
  rw [fdPayload, parse_bind_iff, or_iff_right extractCanId_ne, ← extractCanId_ok msg]
  simp only [convert_bind_iff, processDataString_iff]
  constructor
  · intro h
    obtain ⟨r, hr, dlc, hdlc, n, hn, hj, long, tokens, all⟩ := h
    exact ⟨hj, ⟨r, hr⟩, by simp [hdlc], ⟨n, hn, long⟩, tokens, all⟩
  · intro h
    obtain ⟨hj, ⟨r, hr⟩, dlc, ⟨n, hn, long⟩, tokens, all⟩ := h
    obtain ⟨dlc, hdlc⟩ := Option.isSome_iff_exists.mp dlc
    exact ⟨r, hr, dlc, hdlc, n, hn, hj, long, tokens, all⟩

theorem not_overlongPayload_nil {dlcStr len : Text} : ¬ OverlongPayload base dlcStr len [] := by
  intro h
  obtain ⟨_, _, long, _⟩ := h
  exact absurd long (by decide)

theorem not_overlongFields {ws : List Text} (short : ws.length ≤ 3) : ¬ OverlongFields base ws := by
  rcases ws with _ | ⟨_, _ | ⟨_, _ | ⟨_, _ | ⟨_, _⟩⟩⟩⟩
  · exact id
  · exact id
  · exact id
  · exact not_overlongPayload_nil
  · simp only [List.length_cons] at short
    omega

/-- The layout has the payload of a frame whose fields it can tell apart. -/
def LaidOut (base : Base) (layout : Parse FdFields) : Prop :=
  ∃ f, layout = .ok f ∧ OverlongPayload base f.dlcStr f.dataLengthStr (splitWhitespace f.data)

theorem not_laidOut_throwText {what : Text} : ¬ LaidOut base (throwText what) := nofun

theorem fdLayout_ne {brs : Text} {parts : List Text} :
    fdLayout brs parts ≠ .error (.outOfBounds i) := by
  unfold fdLayout
  split
  next =>
    split
    next => exact parse_pure_ne
    next => exact throwText_ne
  next => exact parse_pure_ne
  next => exact throwText_ne

theorem fdLayout_short {brs : Text} {parts : List Text} (short : parts.length ≤ 3) :
    ¬ LaidOut base (fdLayout brs parts) := by
  intro h
  obtain ⟨f, hf, payload⟩ := h
  unfold fdLayout at hf
  split at hf
  next =>
    split at hf
    next =>
      cases hf
      exact not_overlongPayload_nil payload
    next => cases hf
  next =>
    simp only [List.length_cons] at short
    omega
  next => cases hf

theorem fdLayout_long {brs esi dlcStr len data : Text} :
    LaidOut base (fdLayout brs [esi, dlcStr, len, data]) ↔
      OverlongPayload base dlcStr len (splitWhitespace data) := by
  constructor
  · intro h
    obtain ⟨f, hf, payload⟩ := h
    cases hf
    exact payload
  · exact fun payload => ⟨_, rfl, payload⟩

theorem exists_three {ws : List Text} (long : 3 < ws.length) :
    ∃ a b c, ws.take 3 = [a, b, c] ∧ ws = a :: b :: c :: ws.drop 3 := by
  rcases ws with _ | ⟨a, _ | ⟨b, _ | ⟨c, rest⟩⟩⟩
  · cases long
  · simp at long
  · simp at long
  · exact ⟨a, b, c, rfl, rfl⟩

theorem fdFields_ne {name rest : Text} : fdFields name rest ≠ .error (.outOfBounds i) := by
  unfold fdFields
  split
  next => exact fdLayout_ne
  next =>
    split
    next => exact fdLayout_ne
    next => exact throwText_ne

theorem fdFields_iff (base : Base) (name rest : Text) : LaidOut base (fdFields name rest) ↔
    OverlongFields base (if isDigits name then splitWhitespace rest
      else (splitWhitespace rest).tail) := by
  unfold fdFields
  cases isDigits name with
  | true =>
    rw [if_pos rfl, if_pos rfl]
    rcases Nat.lt_or_ge 3 (splitWhitespace rest).length with long | short
    · obtain ⟨tail, split, htail, -⟩ := splitWhitespaceLimit_of_lt rfl long
      obtain ⟨esi, dlcStr, len, three, ws⟩ := exists_three long
      rw [split, three, ws, OverlongFields, ← htail]
      exact fdLayout_long
    · rw [splitWhitespaceLimit_of_le rfl short]
      exact iff_of_false (fdLayout_short short) (not_overlongFields short)
  | false =>
    rw [if_neg Bool.false_ne_true, if_neg Bool.false_ne_true]
    cases hw : splitWhitespace rest with
    | nil =>
      rw [splitWhitespaceLimit_of_le hw (Nat.zero_le 4)]
      exact iff_of_false not_laidOut_throwText id
    | cons brs ws =>
      rcases Nat.lt_or_ge 3 ws.length with long | short
      · obtain ⟨tail, split, htail, -⟩ := splitWhitespaceLimit_of_lt hw (Nat.succ_lt_succ long)
        obtain ⟨esi, dlcStr, len, three, hws⟩ := exists_three long
        rw [List.drop_succ_cons] at htail
        rw [split, List.take_succ_cons, three, List.tail_cons, hws, OverlongFields, ← htail]
        exact fdLayout_long
      · rw [splitWhitespaceLimit_of_le hw (Nat.succ_le_succ short)]
        exact iff_of_false (fdLayout_short short) (not_overlongFields short)

theorem not_overlongMessage {ws : List Text} (short : ws.length ≤ 2) : ¬ OverlongMessage base ws := by
  rcases ws with _ | ⟨_, _ | ⟨name, _ | ⟨_, _⟩⟩⟩
  · exact id
  · exact id
  · intro h
    obtain ⟨_, fields⟩ := h
    exact not_overlongFields (by split <;> simp) fields
  · simp only [List.length_cons] at short
    omega

theorem fdMessage_iff {rest : Text} {msg : LogRecord} :
    fdMessage base rest msg = .error (.outOfBounds j) ↔
      j = 64 ∧ OverlongMessage base (splitWhitespace rest) := by
  unfold fdMessage
  rcases hw : splitWhitespace rest with _ | ⟨canId, _ | ⟨name, _ | ⟨field, fields⟩⟩⟩
  · rw [splitWhitespaceLimit_of_le hw (by simp)]
    exact iff_of_false throwText_ne fun h => h.2
  · rw [splitWhitespaceLimit_of_le hw (by simp)]
    exact iff_of_false throwText_ne fun h => h.2
  · rw [splitWhitespaceLimit_of_le hw (by simp)]
    exact iff_of_false throwText_ne fun h => not_overlongMessage (by simp) h.2
  · obtain ⟨tail, split, htail, -⟩ := splitWhitespaceLimit_of_lt hw (k := 2) (by simp)
    have laid := fdFields_iff base name tail
    rw [htail] at laid
    rw [split]
    change fdFields name tail >>= _ = _ ↔ _ ∧ _ ∧
      OverlongFields base (if isDigits name then field :: fields else _)
    rw [parse_bind_iff, or_iff_right fdFields_ne]
    simp only [fdPayload_iff]
    constructor
    · intro h
      obtain ⟨f, hf, hj, id, payload⟩ := h
      exact ⟨hj, id, laid.mp ⟨f, hf, payload⟩⟩
    · intro h
      obtain ⟨hj, id, fields⟩ := h
      obtain ⟨f, hf, payload⟩ := laid.mpr fields
      exact ⟨f, hf, hj, id, payload⟩

theorem fdFrame_iff {frame : Text} {msg : LogRecord} (tight : frame.dropWhile isSpace = frame) :
    fdFrame base frame msg = .error (.outOfBounds j) ↔
      j = 64 ∧ OverlongFrame base (splitWhitespace frame) := by
  unfold fdFrame
  rcases hw : splitWhitespace frame with _ | ⟨direction, message⟩
  · split
    next => exact iff_of_false parse_pure_ne fun h => h.2
    next =>
      rw [splitWhitespaceLimit_of_le hw (by simp)]
      exact iff_of_false throwText_ne fun h => h.2
  · split
    next errorFrame =>
      exact iff_of_false parse_pure_ne fun h => h.2.1 ((isErrorFrame_eq tight hw).mp errorFrame)
    next dataFrame =>
      have first := mt (isErrorFrame_eq tight hw).mpr dataFrame
      cases message with
      | nil =>
        rw [splitWhitespaceLimit_of_le hw (by simp)]
        exact iff_of_false throwText_ne fun h => h.2.2
      | cons canId message =>
        obtain ⟨rest, split, hrest, -⟩ := splitWhitespaceLimit_of_lt hw (k := 1) (by simp)
        rw [split]
        refine fdMessage_iff.trans (and_congr_right fun _ => ?_)
        rw [hrest]
        exact ⟨fun h => ⟨first, h⟩, fun h => h.2⟩

theorem processFdCanFrame_iff {line : Text} {msg : LogRecord} :
    processFdCanFrame base line msg = .error (.outOfBounds j) ↔
      j = 64 ∧ OverlongFrame base (splitWhitespace line).tail := by
  unfold processFdCanFrame
  rcases hw : splitWhitespace line with _ | ⟨channel, _ | ⟨direction, message⟩⟩
  · rw [splitWhitespaceLimit_of_le hw (by simp)]
    exact iff_of_false throwText_ne fun h => h.2
  · rw [splitWhitespaceLimit_of_le hw (by simp)]
    exact iff_of_false throwText_ne fun h => h.2
  · obtain ⟨frame, split, hframe, tight⟩ := splitWhitespaceLimit_of_lt hw (k := 1) (by simp)
    rw [split]
    refine (fdFrame_iff tight).trans (and_congr_right fun _ => ?_)
    rw [hframe]
    rfl

end Stops

section Lines

variable {reader : AscReader} {startTime : Binary64} {j : Nat}

theorem recordLine_iff {line : Text} :
    reader.recordLine startTime line = .error (.outOfBounds j) ↔ j = 64 ∧
      match splitWhitespace line with
      | time :: kind :: _ :: frame =>
        (stod time).isSome ∧ kind = "CANFD".toList ∧ OverlongFrame reader.base frame
      | _ => False := by
  unfold AscReader.recordLine
  rcases hw : splitWhitespace line with _ | ⟨time, _ | ⟨kind, _ | ⟨channel, frame⟩⟩⟩
  · rw [splitWhitespaceLimit_of_le hw (by simp)]
    exact iff_of_false throwText_ne fun h => h.2
  · rw [splitWhitespaceLimit_of_le hw (by simp)]
    exact iff_of_false throwText_ne fun h => h.2
  · rw [splitWhitespaceLimit_of_le hw (by simp)]
    exact iff_of_false throwText_ne fun h => h.2
  · obtain ⟨rest, split, hrest, -⟩ := splitWhitespaceLimit_of_lt hw (k := 2) (by simp)
    rw [split]
    refine convert_bind_iff.trans ?_
    dsimp only
    rw [Option.isSome_iff_exists]
    split
    next canfd =>
      simp only [parse_map_iff, processFdCanFrame_iff, hrest, List.drop_succ_cons,
        List.drop_zero, List.tail_cons]
      constructor
      · intro h
        obtain ⟨ts, hts, hj, h⟩ := h
        exact ⟨hj, ⟨ts, hts⟩, canfd, h⟩
      · intro h
        obtain ⟨hj, ⟨ts, hts⟩, _, h⟩ := h
        exact ⟨ts, hts, hj, h⟩
    next other =>
      refine iff_of_false ?_ fun h => other h.2.2.1
      intro h
      obtain ⟨ts, _, h⟩ := h
      split at h
      next => exact processClassicCanFrame_ne (parse_map_iff.mp h)
      next => exact parse_pure_ne h

/-- One line: the parser leaves the payload, at its 65th byte, exactly on an overlong line. -/
theorem parseLine_iff {raw : Text} :
    reader.parseLine startTime raw = .outOfBounds j ↔ j = 64 ∧ Overlong reader.base raw := by
  unfold AscReader.parseLine Overlong
  dsimp only
  split
  next trigger => exact iff_of_false nofun fun h => h.2.1 trigger
  next noTrigger =>
    split
    next start => exact iff_of_false nofun fun h => h.2.2.1 start
    next noStart =>
      split
      next recordLine =>
        have stop : reader.recordLine startTime (trimCopy raw) = .error (.outOfBounds j) ↔
          _ := recordLine_iff
        constructor
        · intro h
          split at h
          next => cases h
          next => cases h
          next => cases h
          next index failed =>
            cases h
            obtain ⟨hj, overlong⟩ := stop.mp failed
            exact ⟨hj, noTrigger, noStart, recordLine, overlong⟩
        · intro h
          obtain ⟨hj, _, _, _, overlong⟩ := h
          rw [stop.mpr ⟨hj, overlong⟩]
      next other => exact iff_of_false nofun fun h => other h.2.2.2.1

/-- What a call of `next` tells about the lines that it reads. -/
def NextTells (base : Base) (lines : List Text) :
    Except Nat (Option (LogRecord × Binary64 × List Text)) → Prop
  | .error _ => ∃ raw ∈ lines, Overlong base raw
  | .ok none => ∀ raw ∈ lines, ¬ Overlong base raw
  | .ok (some (_, _, rest)) =>
    ∃ done, lines = done ++ rest ∧ done ≠ [] ∧ ∀ raw ∈ done, ¬ Overlong base raw

theorem NextTells.cons {base : Base} {raw : Text} {lines : List Text}
    {result : Except Nat (Option (LogRecord × Binary64 × List Text))} (inside : ¬ Overlong base raw)
    (h : NextTells base lines result) : NextTells base (raw :: lines) result := by
  rcases result with i | _ | ⟨r, t, rest⟩
  · obtain ⟨line, mem, overlong⟩ := h
    exact ⟨line, by simp [mem], overlong⟩
  · exact List.forall_mem_cons.mpr ⟨inside, h⟩
  · obtain ⟨done, rfl, -, all⟩ := h
    exact ⟨raw :: done, rfl, by simp, List.forall_mem_cons.mpr ⟨inside, all⟩⟩

theorem next_tells {lines : List Text} :
    NextTells reader.base lines (reader.next startTime lines) := by
  induction lines generalizing startTime with
  | nil => exact fun raw h => nomatch h
  | cons raw lines ih =>
    have inside (h : ∀ i, reader.parseLine startTime raw ≠ .outOfBounds i) :
        ¬ Overlong reader.base raw :=
      fun overlong => h 64 (parseLine_iff.mpr ⟨rfl, overlong⟩)
    rw [AscReader.next]
    cases hl : reader.parseLine startTime raw with
    | startTime t => exact ih.cons (inside (by simp [hl]))
    | skipped => exact ih.cons (inside (by simp [hl]))
    | record r =>
      exact ⟨[raw], rfl, by simp, List.forall_mem_singleton.mpr (inside (by simp [hl]))⟩
    | outOfBounds i => exact ⟨raw, by simp, (parseLine_iff.mp hl).2⟩

theorem nextLoop_iff {fuel : Nat} {lines : List Text} (h : lines.length < fuel) :
    (∃ i, reader.nextLoop fuel startTime lines = .error i) ↔
      ∃ raw ∈ lines, Overlong reader.base raw := by
  induction fuel generalizing startTime lines with
  | zero => cases h
  | succ fuel ih =>
    have tells : NextTells reader.base lines (reader.next startTime lines) := next_tells
    rw [AscReader.nextLoop]
    rcases hn : reader.next startTime lines with i | _ | ⟨r, t, rest⟩ <;> rw [hn] at tells
    · exact iff_of_true ⟨i, rfl⟩ tells
    · refine iff_of_false (fun h => by obtain ⟨_, h⟩ := h; cases h) ?_
      intro h
      obtain ⟨raw, mem, overlong⟩ := h
      exact tells raw mem overlong
    · obtain ⟨done, rfl, ne, all⟩ := tells
      have shorter : rest.length < fuel := by
        have := List.length_pos_iff.mpr ne
        rw [List.length_append] at h
        omega
      have loop : (∃ i, reader.nextLoop fuel t rest = .error i) ↔
          ∃ i, (reader.nextLoop fuel t rest >>= fun records => pure (r :: records)) = .error i := by
        cases reader.nextLoop fuel t rest <;> simp [bind, Except.bind, pure, Except.pure]
      refine (loop.symm.trans (ih shorter)).trans ?_
      constructor
      · intro h
        obtain ⟨raw, mem, overlong⟩ := h
        exact ⟨raw, by simp [mem], overlong⟩
      · intro h
        obtain ⟨raw, mem, overlong⟩ := h
        rcases List.mem_append.mp mem with early | late
        · exact absurd overlong (all raw early)
        · exact ⟨raw, late, overlong⟩

end Lines

/-- Reading a text leaves the payload exactly on its overlong lines. -/
theorem payload_stores_inside_iff {reader : AscReader} {text : Text} :
    (∀ i, reader.readAll text ≠ .error i) ↔ ∀ raw ∈ getLines text, ¬ Overlong reader.base raw := by
  have loop : (∃ i, reader.readAll text = .error i) ↔ ∃ raw ∈ getLines text, Overlong reader.base raw :=
    nextLoop_iff (Nat.lt_succ_self _)
  rw [← not_exists, loop]
  push Not
  rfl

def overlongSample : Text :=
  "0.1 CANFD 1 Rx 12 1 0 f 65".toList ++ (List.replicate 65 " 00".toList).flatten

theorem payload_store_outside : ¬ ∀ (reader : AscReader) (text : Text) (i : Nat),
    reader.readAll text ≠ .error i := by
  intro h
  have outside := h ⟨.hex, true, fun _ => none⟩ overlongSample 64
  revert outside
  decide +kernel

end FsCore
