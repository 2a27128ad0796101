import FsCore.AscLines

namespace FsCore

/-- What stands in a frame before any of its numerals is read. -/
inductive FrameText where
  | errorFrame
  | remote (direction canId : Text) (dlc : Option Text)
  | data (direction canId dlcStr bytes : Text)
  | fd (direction canId : Text) (fields : FdFields)

/-- The tokens of a record line: its time, whether it is CAN FD, its channel, and the frame. -/
structure RecordText where
  time : Text
  isFd : Bool
  channel : Text
  frame : FrameText

def remoteDlc (rest : Text) : Option Text :=
  match splitWhitespace rest with
  | _ :: dlcStr :: _ => if isDigits dlcStr then some dlcStr else none
  | _ => none

def classicText (line : Text) : Option FrameText :=
  if isErrorFrame line then some .errorFrame
  else
    match splitWhitespaceLimit line 2 with
    | [canId, direction, rest] =>
      if rest.head?.map Char.toLower = some 'r' then some (.remote direction canId (remoteDlc rest))
      else
        match splitWhitespaceLimit rest 2 with
        | [_, dlcStr, data] => some (.data direction canId dlcStr data)
        | [_, dlcStr] => some (.data direction canId dlcStr [])
        | _ => none
    | _ => none

def fdText (frame : Text) : Option FrameText :=
  if isErrorFrame frame then some .errorFrame
  else
    match splitWhitespaceLimit frame 1 with
    | [direction, rest] =>
      match splitWhitespaceLimit rest 2 with
      | [canId, name, frameRest] => (fdFields name frameRest).toOption.map (.fd direction canId)
      | _ => none
    | _ => none

def recordText (line : Text) : Option RecordText :=
  match splitWhitespaceLimit line 2 with
  | [time, kind, rest] =>
    if kind = "CANFD".toList then
      match splitWhitespaceLimit rest 1 with
      | [channel, frame] => (fdText frame).map (⟨time, true, channel, ·⟩)
      | _ => none
    else if isDigits kind then (classicText rest).map (⟨time, false, kind, ·⟩)
    else none
  | _ => none

/-- The id that a token stands for, if it is a numeral as a whole. -/
def canIdOf (base : Base) (token : Text) : Option UInt32 :=
  match stoul base.radix (withoutX token) with
  | none => none
  | some (parsed, pos) => if pos = (withoutX token).length then some (UInt32.ofNat parsed) else none

def remoteLength (base : Base) (dlc : Option Text) (msg : LogRecord) : Parse LogRecord :=
  match dlc with
  | none => pure msg
  | some dlcStr => do
    let dlcRaw ← convert "stoi" (stoi base.radix dlcStr)
    pure { msg with dataLen := UInt8.ofInt (dlc2lenCompat dlcRaw) }

/-- The frame in the digits of a base. -/
def FrameText.read (base : Base) (msg : LogRecord) : FrameText → Parse LogRecord
  | .errorFrame => pure { msg with isErrorFrame := true }
  | .remote direction canId dlc => do
    let msg ← extractCanId base canId { msg with direction := if direction = "Tx".toList then 1 else 0 }
    remoteLength base dlc { msg with isRemoteFrame := true }
  | .data direction canId dlcStr bytes => do
    let msg ← extractCanId base canId { msg with direction := if direction = "Tx".toList then 1 else 0 }
    classicData base dlcStr bytes msg
  | .fd direction canId fields =>
    fdPayload base canId fields { msg with direction := if direction = "Tx".toList then 1 else 0 }

/-- What the filters of `next` let through. -/
def IsRecordLine (raw : Text) : Prop :=
  trimCopy raw ∉ kAscTriggerRegex.language ∧ trimCopy raw ∉ kStartOfMeasurementRegex.language ∧
    trimCopy raw ∈ kLogRecordRegex.language

instance (raw : Text) : Decidable (IsRecordLine raw) := inferInstanceAs (Decidable (_ ∧ _ ∧ _))

def RecordText.read (base : Base) (startTime : Binary64) (t : RecordText) : Parse LogRecord := do
  let ts ← convert "stod" (stod t.time)
  t.frame.read base
    { LogRecord.zero with
      timestamp := ts.add startTime
      isFd := t.isFd
      channel := channelOf t.channel }

section Read

variable {base : Base} {msg r : LogRecord}

theorem error_ne_ok {α : Type} {stop : ParseStop} {a : α} : (.error stop : Parse α) ≠ .ok a := by
  intro h
  cases h

theorem not_exists_none {α : Type} {p : α → Prop} : ¬ ∃ a, (none : Option α) = some a ∧ p a := by
  intro h
  obtain ⟨_, h, _⟩ := h
  cases h

theorem parse_bind_ok {α β : Type} {m : Parse α} {f : α → Parse β} {b : β} :
    m >>= f = .ok b ↔ ∃ a, m = .ok a ∧ f a = .ok b := by
  cases m with
  | ok a =>
    constructor
    · exact fun h => ⟨a, rfl, h⟩
    · intro h
      obtain ⟨_, h, hf⟩ := h
      cases h
      exact hf
  | error e =>
    refine iff_of_false error_ne_ok fun h => ?_
    obtain ⟨_, h, _⟩ := h
    cases h

theorem parse_bind_throw {α β : Type} {m : Parse α} {what : Text} {b : β} :
    (m >>= fun _ => throwText what) ≠ .ok b := by
  intro h
  obtain ⟨_, _, h⟩ := parse_bind_ok.mp h
  cases h

theorem convert_ok_iff {α : Type} {name : String} {o : Option α} {a : α} : convert name o = .ok a ↔
    o = some a := by
  cases o with
  | none => exact iff_of_false error_ne_ok (fun h => by cases h)
  | some b => exact ⟨fun h => by cases h; rfl, fun h => by cases h; rfl⟩

theorem canIdOf_eq_some_iff {token : Text} {id : UInt32} : canIdOf base token = some id ↔
    ∃ parsed, stoul base.radix (withoutX token) = some (parsed, (withoutX token).length) ∧
      UInt32.ofNat parsed = id := by
  unfold canIdOf
  cases stoul base.radix (withoutX token) with
  | none => exact iff_of_false (fun h => by cases h) (fun h => by obtain ⟨_, h, _⟩ := h; cases h)
  | some read =>
    obtain ⟨parsed, pos⟩ := read
    rw [Option.ite_none_right_eq_some]
    constructor
    · intro h
      obtain ⟨rfl, h⟩ := h
      exact ⟨parsed, rfl, Option.some.inj h⟩
    · intro h
      obtain ⟨_, h, rfl⟩ := h
      cases h
      exact ⟨rfl, rfl⟩

theorem extractCanId_ok_iff {token : Text} : extractCanId base token msg = .ok r ↔
    ∃ id, canIdOf base token = some id ∧ r = { msg with isExtendedId := hasX token, canId := id } := by
  unfold extractCanId canIdOf
  dsimp only
  cases stoul base.radix (withoutX token) with
  | none => exact iff_of_false error_ne_ok not_exists_none
  | some read =>
    obtain ⟨parsed, pos⟩ := read
    dsimp only
    by_cases whole : pos = (withoutX token).length
    · rw [if_neg (not_not.mpr whole), if_pos whole]
      constructor
      · intro h
        cases h
        exact ⟨_, rfl, rfl⟩
      · intro h
        obtain ⟨_, h, rfl⟩ := h
        cases h
        rfl
    · rw [if_pos whole, if_neg whole]
      exact iff_of_false error_ne_ok not_exists_none

theorem dataByte_ok_iff {token : Text} {b : UInt8} : dataByte base token = .ok b ↔
    ∃ value, stoul base.radix token = some (value, token.length) ∧ value ≤ 0xff ∧
      UInt8.ofNat value = b := by
  unfold dataByte
  cases h : stoul base.radix token with
  | none => exact iff_of_false error_ne_ok (fun h => by obtain ⟨_, h, _⟩ := h; cases h)
  | some read =>
    obtain ⟨value, pos⟩ := read
    dsimp only
    split
    next bad =>
      refine iff_of_false error_ne_ok fun h => ?_
      obtain ⟨_, h, small, _⟩ := h
      cases h
      rcases bad with length | large
      · exact length rfl
      · exact absurd small (Nat.not_le.mpr large)
    next good =>
      obtain ⟨length, small⟩ := not_or.mp good
      rw [not_not.mp length]
      constructor
      · intro h
        cases h
        exact ⟨value, rfl, Nat.not_lt.mp small, rfl⟩
      · intro h
        obtain ⟨_, h, _, rfl⟩ := h
        cases h
        rfl

/-- The loop of process_data_string stores the bytes one after another and nothing else. -/
theorem storeBytes_ok_iff {tokens : List Text} {i : Nat} {data v : Vector UInt8 64} (hi : i ≤ 64) :
    storeBytes base tokens i data = .ok v ↔ i + tokens.length ≤ 64 ∧
      (∀ k (_ : k < tokens.length) (_ : i + k < 64), dataByte base tokens[k] = .ok v[i + k]) ∧
      ∀ j (_ : j < 64), j < i ∨ i + tokens.length ≤ j → v[j] = data[j] := by
  induction tokens generalizing i data with
  | nil =>
    constructor
    · intro h
      cases h
      exact ⟨hi, fun _ hk _ => (Nat.not_lt_zero _ hk).elim, fun _ _ _ => rfl⟩
    · intro h
      obtain ⟨_, _, same⟩ := h
      have all : data = v := Vector.ext fun j hj => (same j hj (Nat.lt_or_ge j i)).symm
      rw [all]
      rfl
  | cons token tokens ih =>
    have size : (token :: tokens).length = tokens.length + 1 := rfl
    rw [storeBytes, parse_bind_ok]
    constructor
    · intro h
      obtain ⟨b, hb, h⟩ := h
      split at h
      next inside =>
        obtain ⟨fits, bytes, same⟩ := (ih (by omega)).mp h
        have own : v[i] = b := by
          rw [same i inside (.inl (by omega))]
          exact Vector.getElem_set_self inside
        refine ⟨by omega, fun k hk hik => ?_, fun j hj out => ?_⟩
        · cases k with
          | zero => simpa only [Nat.add_zero, List.getElem_cons_zero, own] using hb
          | succ k =>
            have here := bytes k (by simpa using hk) (by omega)
            simpa only [List.getElem_cons_succ, show i + (k + 1) = i + 1 + k by omega] using here
        · rw [same j hj (by omega), Vector.getElem_set_ne inside hj (by omega)]
      next => cases h
    · intro h
      obtain ⟨fits, bytes, same⟩ := h
      have inside : i < 64 := by omega
      refine ⟨v[i], bytes 0 (by simp) (by omega), ?_⟩
      rw [dif_pos inside, ih (by omega)]
      refine ⟨by omega, fun k hk hik => ?_, fun j hj out => ?_⟩
      · have here := bytes (k + 1) (by simpa using hk) (by omega)
        simpa only [List.getElem_cons_succ, show i + (k + 1) = i + 1 + k by omega] using here
      · by_cases own : j = i
        · subst own
          exact (Vector.getElem_set_self inside).symm
        · rw [Vector.getElem_set_ne inside hj (Ne.symm own)]
          exact same j hj (by omega)

theorem classicRemote_eq {rest : Text} :
    classicRemote base rest msg = remoteLength base (remoteDlc rest) msg := by
  unfold classicRemote remoteDlc
  rcases splitWhitespace rest with _ | ⟨_, _ | ⟨dlcStr, _⟩⟩
  · rfl
  · rfl
  · dsimp only
    cases isDigits dlcStr <;> rfl

theorem classic_ok_iff {line : Text} : processClassicCanFrame base line msg = .ok r ↔
    ∃ t, classicText line = some t ∧ t.read base msg = .ok r := by
  unfold processClassicCanFrame classicText
  cases isErrorFrame line with
  | true => simp only [if_true, Option.some.injEq, exists_eq_left', FrameText.read]
  | false =>
    simp only [Bool.false_eq_true, if_false]
    rcases splitWhitespaceLimit line 2 with _ | ⟨canId, _ | ⟨direction, _ | ⟨rest, _ | _⟩⟩⟩
    · exact iff_of_false error_ne_ok not_exists_none
    · exact iff_of_false error_ne_ok not_exists_none
    · exact iff_of_false error_ne_ok not_exists_none
    · dsimp only
      by_cases remote : rest.head?.map Char.toLower = some 'r'
      · simp only [if_pos remote, Option.some.injEq, exists_eq_left', FrameText.read, classicRemote_eq]
      · simp only [if_neg remote]
        rcases splitWhitespaceLimit rest 2 with _ | ⟨_, _ | ⟨dlcStr, _ | ⟨bytes, _ | _⟩⟩⟩
        · exact iff_of_false parse_bind_throw not_exists_none
        · exact iff_of_false parse_bind_throw not_exists_none
        · simp only [Option.some.injEq, exists_eq_left', FrameText.read]
        · simp only [Option.some.injEq, exists_eq_left', FrameText.read]
        · exact iff_of_false parse_bind_throw not_exists_none
    · exact iff_of_false error_ne_ok not_exists_none

theorem fd_ok_iff {frame : Text} : fdFrame base frame msg = .ok r ↔
    ∃ t, fdText frame = some t ∧ t.read base msg = .ok r := by
  unfold fdFrame fdText
  cases isErrorFrame frame with
  | true => simp only [if_true, Option.some.injEq, exists_eq_left', FrameText.read]
  | false =>
    simp only [Bool.false_eq_true, if_false]
    rcases splitWhitespaceLimit frame 1 with _ | ⟨direction, _ | ⟨rest, _ | _⟩⟩
    · exact iff_of_false error_ne_ok not_exists_none
    · exact iff_of_false error_ne_ok not_exists_none
    · dsimp only
      unfold fdMessage
      rcases splitWhitespaceLimit rest 2 with _ | ⟨canId, _ | ⟨name, _ | ⟨frameRest, _ | _⟩⟩⟩
      · exact iff_of_false error_ne_ok not_exists_none
      · exact iff_of_false error_ne_ok not_exists_none
      · exact iff_of_false error_ne_ok not_exists_none
      · dsimp only
        cases fdFields name frameRest with
        | ok f =>
          simp only [Except.toOption, Option.map_some, Option.some.injEq,
            exists_eq_left', FrameText.read]
          rfl
        | error e => exact iff_of_false error_ne_ok not_exists_none
      · exact iff_of_false error_ne_ok not_exists_none
    · exact iff_of_false error_ne_ok not_exists_none

theorem parse_some_ok {m : Parse LogRecord} : Option.some <$> m = .ok (some r) ↔ m = .ok r := by
  cases m with
  | ok a => exact ⟨fun h => by cases h; rfl, fun h => by cases h; rfl⟩
  | error e => exact iff_of_false error_ne_ok (fun h => by cases h)

theorem read_map_iff {startTime : Binary64} {frame : Option FrameText}
    {time channel : Text} {isFd : Bool} :
    (∃ t, frame.map (fun f => ⟨time, isFd, channel, f⟩ : FrameText → RecordText) = some t ∧
      t.read base startTime = .ok r) ↔
    ∃ ts, convert "stod" (stod time) = .ok ts ∧ ∃ f, frame = some f ∧ f.read base { LogRecord.zero with
      timestamp := ts.add startTime, isFd := isFd, channel := channelOf channel } = .ok r := by
  cases frame with
  | none => exact iff_of_false not_exists_none (fun h => by obtain ⟨_, _, _, h, _⟩ := h; cases h)
  | some f =>
    simp only [Option.map_some, Option.some.injEq, exists_eq_left', RecordText.read]
    exact parse_bind_ok

/-- A line without its numerals decides whether it is a record in any base. -/
theorem recordLine_ok_iff {reader : AscReader} {startTime : Binary64} {line : Text} :
    reader.recordLine startTime line = .ok (some r) ↔
      ∃ t, recordText line = some t ∧ t.read reader.base startTime = .ok r := by
  unfold AscReader.recordLine recordText
  rcases splitWhitespaceLimit line 2 with _ | ⟨time, _ | ⟨kind, _ | ⟨rest, _ | _⟩⟩⟩
  · exact iff_of_false error_ne_ok not_exists_none
  · exact iff_of_false error_ne_ok not_exists_none
  · exact iff_of_false error_ne_ok not_exists_none
  · dsimp only
    rw [parse_bind_ok]
    by_cases canfd : kind = "CANFD".toList
    · simp only [if_pos canfd, parse_some_ok]
      unfold processFdCanFrame
      rcases splitWhitespaceLimit rest 1 with _ | ⟨channel, _ | ⟨frame, _ | _⟩⟩
      · exact iff_of_false (fun h => by obtain ⟨_, _, h⟩ := h; cases h) not_exists_none
      · exact iff_of_false (fun h => by obtain ⟨_, _, h⟩ := h; cases h) not_exists_none
      · simp only [fd_ok_iff, read_map_iff]
      · exact iff_of_false (fun h => by obtain ⟨_, _, h⟩ := h; cases h) not_exists_none
    · simp only [if_neg canfd]
      cases isDigits kind with
      | false => exact iff_of_false (fun h => by obtain ⟨_, _, h⟩ := h; cases h) not_exists_none
      | true => simp only [if_true, parse_some_ok, classic_ok_iff, read_map_iff]; rfl
  · exact iff_of_false error_ne_ok not_exists_none

theorem parseLine_record_iff {reader : AscReader} {startTime : Binary64} {raw : Text} :
    reader.parseLine startTime raw = .record r ↔ IsRecordLine raw ∧
      ∃ t, recordText (trimCopy raw) = some t ∧ t.read reader.base startTime = .ok r := by
  rw [← recordLine_ok_iff]
  unfold AscReader.parseLine IsRecordLine
  dsimp only
  split
  next trigger => exact iff_of_false (fun h => by cases h) fun h => h.1.1 trigger
  next noTrigger =>
    split
    next start => exact iff_of_false (fun h => by cases h) fun h => h.1.2.1 start
    next noStart =>
      split
      next line =>
        rw [and_iff_right ⟨noTrigger, noStart, line⟩]
        cases reader.recordLine startTime (trimCopy raw) with
        | ok o => cases o <;> simp
        | error e => cases e <;> exact iff_of_false (fun h => by cases h) (fun h => by cases h)
      next other => exact iff_of_false (fun h => by cases h) fun h => other h.1.2.2

end Read

section Shapes

open Regex

/-- The text begins as the record regex asks behind the timestamp. -/
def HasForm (rest : Text) : Prop :=
  ∃ body tail, rest = body ++ tail ∧ body ∈ (alt (sequence [plus digit, plus space,
    alt (sequence [plus wordChar, plus space, alt (icase "Tx") (icase "Rx")]) (icase "ErrorFrame")])
    (icase "CANFD")).language

variable {line : Text} {direction canId dlcStr : Text} {ws : List Text}

theorem head_of_words {rest w : Text} (tight : rest.dropWhile isSpace = rest) (ne : w ≠ [])
    (h : splitWhitespace rest = w :: ws) : rest.head? = w.head? := by
  obtain ⟨gap, after, rfl, -⟩ := words_eq_cons_split tight h
  exact List.head?_append_of_ne_nil _ ne

theorem classicText_errorFrame (tight : line.dropWhile isSpace = line)
    (h : splitWhitespace line = "ErrorFrame".toList :: ws) : classicText line = some .errorFrame :=
  if_pos ((isErrorFrame_eq tight h).mpr (by decide))

theorem classicText_remote (tight : line.dropWhile isSpace = line)
    (h : splitWhitespace line = canId :: direction :: "r".toList :: dlcStr :: ws)
    (digits : isDigits dlcStr = true) (data : toLowerAscii (canId.take 10) ≠ "errorframe".toList) :
    classicText line = some (.remote direction canId (some dlcStr)) := by
  obtain ⟨rest, split, hrest, tight'⟩ := splitWhitespaceLimit_of_lt h (k := 2) (by simp)
  have first : rest.head? = some 'r' := head_of_words tight' (by decide) hrest
  have dlc : remoteDlc rest = some dlcStr := by
    have same : splitWhitespace rest = "r".toList :: dlcStr :: ws := hrest
    simp only [remoteDlc, same, digits, if_true]
  rw [classicText, if_neg (mt (isErrorFrame_eq tight h).mp data), split]
  simp only [List.take_succ_cons, List.take_zero, List.cons_append, List.nil_append, first, dlc]
  rfl

/-- A name that begins with r is taken for the mark of a remote frame. -/
theorem classicText_remoteName {name : Text} (tight : line.dropWhile isSpace = line)
    (h : splitWhitespace line = canId :: direction :: name :: ws)
    (mark : name.head?.map Char.toLower = some 'r')
    (data : toLowerAscii (canId.take 10) ≠ "errorframe".toList) :
    ∃ dlc, classicText line = some (.remote direction canId dlc) := by
  obtain ⟨rest, split, hrest, tight'⟩ := splitWhitespaceLimit_of_lt h (k := 2) (by simp)
  have ne : name ≠ [] := by
    rintro rfl
    cases mark
  have first : rest.head? = name.head? := head_of_words tight' ne hrest
  refine ⟨remoteDlc rest, ?_⟩
  rw [classicText, if_neg (mt (isErrorFrame_eq tight h).mp data), split]
  simp only [List.take_succ_cons, List.take_zero, List.cons_append, List.nil_append,
    first, mark, if_true]

theorem classicText_data {name : Text} (tight : line.dropWhile isSpace = line)
    (h : splitWhitespace line = canId :: direction :: name :: dlcStr :: ws)
    (other : name.head?.map Char.toLower ≠ some 'r')
    (data : toLowerAscii (canId.take 10) ≠ "errorframe".toList) :
    ∃ bytes, classicText line = some (.data direction canId dlcStr bytes) ∧
      splitWhitespace bytes = ws := by
  obtain ⟨rest, split, hrest, tight'⟩ := splitWhitespaceLimit_of_lt h (k := 2) (by simp)
  have same : splitWhitespace rest = name :: dlcStr :: ws := hrest
  have ne : name ≠ [] := (mem_words (s := rest) (same ▸ List.mem_cons_self)).1
  have first : rest.head? = name.head? := head_of_words tight' ne hrest
  have remote : ¬ (rest.head?.map Char.toLower = some 'r') := by
    rwa [first]
  rw [classicText, if_neg (mt (isErrorFrame_eq tight h).mp data), split]
  simp only [List.take_succ_cons, List.take_zero, List.cons_append, List.nil_append, if_neg remote]
  cases ws with
  | nil =>
    rw [splitWhitespaceLimit_of_le same (by simp)]
    exact ⟨[], rfl, rfl⟩
  | cons w ws =>
    obtain ⟨bytes, split', hbytes, -⟩ := splitWhitespaceLimit_of_lt same (k := 2) (by simp)
    rw [split']
    exact ⟨bytes, rfl, hbytes⟩

theorem fdText_errorFrame (tight : line.dropWhile isSpace = line)
    (h : splitWhitespace line = "ErrorFrame".toList :: ws) : fdText line = some .errorFrame :=
  if_pos ((isErrorFrame_eq tight h).mpr (by decide))

theorem fdText_fields {name w : Text} (tight : line.dropWhile isSpace = line)
    (h : splitWhitespace line = direction :: canId :: name :: w :: ws)
    (data : toLowerAscii (direction.take 10) ≠ "errorframe".toList) :
    ∃ rest, splitWhitespace rest = w :: ws ∧
      fdText line = (fdFields name rest).toOption.map (.fd direction canId) := by
  obtain ⟨message, split, hmessage, -⟩ := splitWhitespaceLimit_of_lt h (k := 1) (by simp)
  have same : splitWhitespace message = canId :: name :: w :: ws := hmessage
  obtain ⟨rest, split', hrest, -⟩ := splitWhitespaceLimit_of_lt same (k := 2) (by simp)
  refine ⟨rest, hrest, ?_⟩
  rw [fdText, if_neg (mt (isErrorFrame_eq tight h).mp data), split]
  simp only [List.take_succ_cons, List.take_zero, List.cons_append, List.nil_append, split']

theorem fdFields_plain {brs esi len w rest : Text} (digits : isDigits brs = true)
    (h : splitWhitespace rest = esi :: dlcStr :: len :: w :: ws) :
    ∃ bytes, fdFields brs rest = .ok ⟨brs, esi, dlcStr, len, bytes⟩ ∧
      splitWhitespace bytes = w :: ws := by
  obtain ⟨bytes, split, hbytes, -⟩ := splitWhitespaceLimit_of_lt h (k := 3) (by simp)
  refine ⟨bytes, ?_, hbytes⟩
  rw [fdFields, if_pos digits, split]
  rfl

theorem fdFields_named {name brs esi len w rest : Text} (other : isDigits name = false)
    (h : splitWhitespace rest = brs :: esi :: dlcStr :: len :: w :: ws) :
    ∃ bytes, fdFields name rest = .ok ⟨brs, esi, dlcStr, len, bytes⟩ ∧
      splitWhitespace bytes = w :: ws := by
  obtain ⟨bytes, split, hbytes, -⟩ := splitWhitespaceLimit_of_lt h (k := 4) (by simp)
  refine ⟨bytes, ?_, hbytes⟩
  rw [fdFields, other, if_neg Bool.false_ne_true, split]
  rfl

theorem recordText_classic {time kind w : Text} (digits : isDigits kind = true)
    (h : splitWhitespace line = time :: kind :: w :: ws) :
    ∃ rest, rest.dropWhile isSpace = rest ∧ splitWhitespace rest = w :: ws ∧
      recordText line = (classicText rest).map (⟨time, false, kind, ·⟩) := by
  obtain ⟨rest, split, hrest, tight⟩ := splitWhitespaceLimit_of_lt h (k := 2) (by simp)
  have classic : kind ≠ "CANFD".toList := by
    rintro rfl
    cases digits
  refine ⟨rest, tight, hrest, ?_⟩
  rw [recordText, split]
  simp only [List.take_succ_cons, List.take_zero, List.cons_append, List.nil_append,
    if_neg classic, if_pos digits]

theorem recordText_fd {time channel w : Text}
    (h : splitWhitespace line = time :: "CANFD".toList :: channel :: w :: ws) :
    ∃ frame, frame.dropWhile isSpace = frame ∧ splitWhitespace frame = w :: ws ∧
      recordText line = (fdText frame).map (⟨time, true, channel, ·⟩) := by
  obtain ⟨rest, split, hrest, -⟩ := splitWhitespaceLimit_of_lt h (k := 2) (by simp)
  have same : splitWhitespace rest = channel :: w :: ws := hrest
  obtain ⟨frame, split', hframe, tight⟩ := splitWhitespaceLimit_of_lt same (k := 1) (by simp)
  refine ⟨frame, tight, hframe, ?_⟩
  rw [recordText, split]
  simp only [List.take_succ_cons, List.take_zero, List.cons_append, List.nil_append, if_true, split']

theorem splitWhitespace_trimCopy (raw : Text) : splitWhitespace (trimCopy raw) =
    splitWhitespace raw := by
  rw [splitWhitespace, trimCopy, words_rdropWhile, words_dropWhile]
  rfl

theorem trimCopy_tight (raw : Text) : (trimCopy raw).dropWhile isSpace = trimCopy raw := by
  have first := List.head?_dropWhile_not isSpace raw
  have start : trimCopy raw <+: raw.dropWhile isSpace := List.rdropWhile_prefix isSpace _
  cases h : trimCopy raw with
  | nil => rfl
  | cons c rest =>
    obtain ⟨tail, whole⟩ := start
    rw [← whole, h] at first
    exact List.dropWhile_cons_of_neg (by simpa using first)

theorem isRecordLine_of {raw time kind w : Text} (stamp : IsTimestamp time)
    (other : kind ≠ "Start".toList) (h : splitWhitespace raw = time :: kind :: w :: ws)
    (form : ∀ rest, rest.dropWhile isSpace = rest → splitWhitespace rest = kind :: w ::
      ws → HasForm rest) : IsRecordLine raw := by
  have same := (splitWhitespace_trimCopy raw).trans h
  obtain ⟨gap, rest, split, hgap, tight, hrest, ne⟩ := words_eq_cons_split (trimCopy_tight raw) same
  obtain ⟨body, tail, rfl, hbody⟩ := form rest tight hrest
  refine ⟨?_, not_mem_startOfMeasurement same other, ?_⟩
  · obtain ⟨c, time', rfl, digit⟩ := stamp.head
    rw [split]
    exact not_mem_trigger digit
  · rw [split]
    exact mem_logRecord stamp ⟨ne (by simp), hgap⟩ hbody

theorem hasForm_fd {rest : Text} (tight : rest.dropWhile isSpace = rest)
    (h : splitWhitespace rest = "CANFD".toList :: ws) : HasForm rest := by
  obtain ⟨gap, after, rfl, -⟩ := words_eq_cons_split tight h
  exact ⟨"CANFD".toList, gap ++ after, rfl, mem_alt_iff.mpr (Or.inr (by decide))⟩

theorem hasForm_classic {rest channel w : Text} (digits : isDigits channel = true)
    (tight : rest.dropWhile isSpace = rest) (h : splitWhitespace rest = channel :: w :: ws)
    (body : ∀ frame, frame.dropWhile isSpace = frame → splitWhitespace frame = w :: ws →
      ∃ body tail, frame = body ++ tail ∧ body ∈ (alt (sequence [plus wordChar,
        plus space, alt (icase "Tx") (icase "Rx")])
        (icase "ErrorFrame")).language) : HasForm rest := by
  obtain ⟨gap, frame, rfl, hgap, tight', hframe, ne⟩ := words_eq_cons_split tight h
  obtain ⟨body, tail, rfl, hbody⟩ := body frame tight' hframe
  refine ⟨channel ++ (gap ++ (body ++ [])), tail, by simp, mem_alt_iff.mpr (Or.inl ?_)⟩
  exact append_mem_sequence (isDigits_iff.mp digits) (append_mem_sequence
    (mem_plus_one_iff.mpr ⟨ne (by simp), hgap⟩) (append_mem_sequence hbody (mem_sequence_nil.mpr rfl)))

end Shapes

end FsCore
