import FsCore.FrameFields
import FsCore.LetterCase

namespace FsCore

section Tokens

variable {base : Base}

theorem toLowerAscii_length (s : Text) : (toLowerAscii s).length = s.length := List.length_map _

theorem toLowerAscii_eq_iff {s w : Text} (plain : w.all (fun c => !c.isAlpha) = true) :
    toLowerAscii s = w ↔ s = w := by
  induction s generalizing w with
  | nil => exact Iff.rfl
  | cons c s ih =>
    cases w with
    | nil => exact iff_of_false (fun h => by cases h) (fun h => by cases h)
    | cons d w =>
      rw [List.all_cons, Bool.and_eq_true, Bool.not_eq_true'] at plain
      change c.toLower :: toLowerAscii s = d :: w ↔ c :: s = d :: w
      rw [List.cons.injEq, List.cons.injEq, toLower_eq_iff plain.1, ih plain.2]

theorem splitWhitespace_lower (s : Text) : splitWhitespace (toLowerAscii s) =
    (splitWhitespace s).map toLowerAscii :=
  words_map isSpace_toLower_eq s

theorem splitWhitespaceLimit_lower (s : Text) (k : Nat) :
    splitWhitespaceLimit (toLowerAscii s) k = (splitWhitespaceLimit s k).map toLowerAscii :=
  splitLimit_map isSpace_toLower_eq s k

theorem trimCopy_lower (s : Text) : trimCopy (toLowerAscii s) = toLowerAscii (trimCopy s) := by
  simp only [trimCopy, toLowerAscii, dropWhile_map isSpace_toLower_eq, List.rdropWhile,
    ← List.map_reverse]

theorem isDigits_lower (s : Text) : isDigits (toLowerAscii s) = isDigits s := by
  rw [isDigits, isDigits, toLowerAscii, List.all_map,
    show Char.isDigit ∘ Char.toLower = Char.isDigit from funext isDigit_toLower, List.isEmpty_map]

theorem isErrorFrame_lower (s : Text) : isErrorFrame (toLowerAscii s) = isErrorFrame s := by
  have again (s : Text) : toLowerAscii (toLowerAscii s) = toLowerAscii s := by
    simp only [toLowerAscii, List.map_map]
    exact List.map_congr_left fun c _ => Char.toLower_toLower_eq_toLower c
  have first : (toLowerAscii (trimCopy s)).take 10 = toLowerAscii ((trimCopy s).take 10) :=
    List.map_take.symm
  rw [isErrorFrame, isErrorFrame, trimCopy_lower, first, again]

theorem hasX_lower (s : Text) : hasX (toLowerAscii s) = hasX s := by
  rw [hasX, hasX, toLowerAscii, List.getLast?_map]
  cases s.getLast? with
  | none => rfl
  | some c =>
    have upper : c.toLower ≠ 'X' := by
      intro eq
      have := Char.isUpper_toLower_eq_false c
      rw [eq] at this
      cases this
    have mark : c.toLower = 'x' ↔ c = 'x' ∨ c = 'X' := by
      refine ⟨eq_or_of_toLower, ?_⟩
      rintro (rfl | rfl) <;> decide
    simp [mark, upper]

theorem withoutX_lower (s : Text) : withoutX (toLowerAscii s) = toLowerAscii (withoutX s) := by
  rw [withoutX, withoutX, hasX_lower]
  split
  next => exact List.map_dropLast.symm
  next => rfl

theorem canIdOf_lower (token : Text) : canIdOf base (toLowerAscii token) = canIdOf base token := by
  rw [canIdOf, canIdOf, withoutX_lower, toLowerAscii_length, toLowerAscii, stoul_toLower]

theorem dataByte_lower_iff {token : Text} {b : UInt8} :
    dataByte base (toLowerAscii token) = .ok b ↔ dataByte base token = .ok b := by
  rw [dataByte_ok_iff, dataByte_ok_iff, toLowerAscii_length, toLowerAscii, stoul_toLower]

theorem storeBytes_lower_iff {tokens : List Text} {i : Nat} {data v : Vector UInt8 64} (hi : i ≤ 64) :
    storeBytes base (tokens.map toLowerAscii) i data = .ok v ↔
      storeBytes base tokens i data = .ok v := by
  rw [storeBytes_ok_iff hi, storeBytes_ok_iff hi]
  simp only [List.length_map, List.getElem_map, dataByte_lower_iff]

theorem classicCount_lower (dlcStr bytes : Text) :
    classicCount base (toLowerAscii dlcStr) (toLowerAscii bytes) = classicCount base dlcStr bytes := by
  rw [classicCount, classicCount, splitWhitespace_lower, List.length_map, toLowerAscii, stoi_toLower]

theorem remoteCount_lower (dlc : Option Text) (len : UInt8) :
    remoteCount base (dlc.map toLowerAscii) len = remoteCount base dlc len := by
  cases dlc with
  | none => rfl
  | some dlcStr => rw [Option.map_some, remoteCount, remoteCount, toLowerAscii, stoi_toLower]

end Tokens

/-- The layout in lower case. -/
def FdFields.lower (f : FdFields) : FdFields where
  brs := toLowerAscii f.brs
  esi := toLowerAscii f.esi
  dlcStr := toLowerAscii f.dlcStr
  dataLengthStr := toLowerAscii f.dataLengthStr
  data := toLowerAscii f.data

def FrameText.lower : FrameText → FrameText
  | .errorFrame => .errorFrame
  | .remote direction canId dlc =>
    .remote (toLowerAscii direction) (toLowerAscii canId) (dlc.map toLowerAscii)
  | .data direction canId dlcStr bytes =>
    .data (toLowerAscii direction) (toLowerAscii canId) (toLowerAscii dlcStr) (toLowerAscii bytes)
  | .fd direction canId fields => .fd (toLowerAscii direction) (toLowerAscii canId) fields.lower

def RecordText.lower (t : RecordText) : RecordText where
  time := toLowerAscii t.time
  isFd := t.isFd
  channel := toLowerAscii t.channel
  frame := t.frame.lower

section Layouts

theorem remoteDlc_lower (rest : Text) : remoteDlc (toLowerAscii rest) =
    (remoteDlc rest).map toLowerAscii := by
  rw [remoteDlc, remoteDlc, splitWhitespace_lower]
  rcases splitWhitespace rest with _ | ⟨_, _ | ⟨dlcStr, _⟩⟩
  · rfl
  · rfl
  · simp only [List.map_cons, isDigits_lower]
    cases isDigits dlcStr <;> rfl

theorem head_lower (s : Text) :
    (toLowerAscii s).head?.map Char.toLower = s.head?.map Char.toLower := by
  rw [toLowerAscii, List.head?_map, Option.map_map]
  exact Option.map_congr fun c _ => Char.toLower_toLower_eq_toLower c

theorem classicText_lower (line : Text) : classicText (toLowerAscii line) =
    (classicText line).map FrameText.lower := by
  rw [classicText, classicText, isErrorFrame_lower, splitWhitespaceLimit_lower]
  cases isErrorFrame line with
  | true => rfl
  | false =>
    simp only [Bool.false_eq_true, if_false]
    rcases splitWhitespaceLimit line 2 with _ | ⟨canId, _ | ⟨direction, _ | ⟨rest, _ | _⟩⟩⟩
    · rfl
    · rfl
    · rfl
    · simp only [List.map_cons, List.map_nil, head_lower, splitWhitespaceLimit_lower, remoteDlc_lower]
      by_cases remote : rest.head?.map Char.toLower = some 'r'
      · simp only [if_pos remote]
        rfl
      · simp only [if_neg remote]
        rcases splitWhitespaceLimit rest 2 with _ | ⟨_, _ | ⟨dlcStr, _ | ⟨bytes, _ | _⟩⟩⟩
        · rfl
        · rfl
        · rfl
        · rfl
        · rfl
    · rfl

theorem fdLayout_lower (brs : Text) (parts : List Text) :
    (fdLayout (toLowerAscii brs) (parts.map toLowerAscii)).toOption =
      (fdLayout brs parts).toOption.map FdFields.lower := by
  rcases parts with _ | ⟨esi, _ | ⟨dlcStr, _ | ⟨len, _ | ⟨data, _ | _⟩⟩⟩⟩
  · rfl
  · rfl
  · rfl
  · simp only [List.map_cons, List.map_nil, fdLayout, toLowerAscii_eq_iff (w := "0".toList) (by decide)]
    split <;> rfl
  · rfl
  · rfl

theorem fdFields_lower (name rest : Text) :
    (fdFields (toLowerAscii name) (toLowerAscii rest)).toOption =
      (fdFields name rest).toOption.map FdFields.lower := by
  simp only [fdFields, isDigits_lower, splitWhitespaceLimit_lower]
  cases isDigits name with
  | true => exact fdLayout_lower name _
  | false =>
    simp only [Bool.false_eq_true, if_false]
    cases splitWhitespaceLimit rest 4 with
    | nil => rfl
    | cons brs parts => exact fdLayout_lower brs parts

theorem fdText_lower (frame : Text) :
    fdText (toLowerAscii frame) = (fdText frame).map FrameText.lower := by
  rw [fdText, fdText, isErrorFrame_lower, splitWhitespaceLimit_lower]
  cases isErrorFrame frame with
  | true => rfl
  | false =>
    simp only [Bool.false_eq_true, if_false]
    rcases splitWhitespaceLimit frame 1 with _ | ⟨direction, _ | ⟨rest, _ | _⟩⟩
    · rfl
    · rfl
    · simp only [List.map_cons, List.map_nil, splitWhitespaceLimit_lower]
      rcases splitWhitespaceLimit rest 2 with _ | ⟨canId, _ | ⟨name, _ | ⟨frameRest, _ | _⟩⟩⟩
      · rfl
      · rfl
      · rfl
      · simp only [List.map_cons, List.map_nil, fdFields_lower, Option.map_map]
        rfl
      · rfl
    · rfl

end Layouts

/-- The channel in lower case. -/
def LogRecord.lower (r : LogRecord) : LogRecord := { r with channel := r.channel.map Char.toLower }

/-- What the case of a line cannot change. -/
def LogRecord.caseless (r : LogRecord) : LogRecord := { r.lower with direction := 0 }

section Frames

variable {base : Base} {msg r q : LogRecord}

theorem toLowerAscii_ne_tx (s : Text) : toLowerAscii s ≠ "Tx".toList := by
  cases s with
  | nil => exact fun h => by cases h
  | cons c s =>
    intro h
    have upper := Char.isUpper_toLower_eq_false c
    rw [(List.cons.inj h).1] at upper
    cases upper

theorem caseless_directed (msg : LogRecord) (direction : Text) :
    msg.caseless.directed (toLowerAscii direction) = (msg.directed direction).caseless := by
  rw [LogRecord.directed, if_neg (toLowerAscii_ne_tx direction)]
  rfl

/-- A frame in lower case is read as the frame is, but for its direction. -/
theorem read_lower_iff {t : FrameText} :
    t.lower.read base msg.caseless = .ok q ↔ ∃ r, t.read base msg = .ok r ∧ r.caseless = q := by
  cases t with
  | errorFrame =>
    constructor
    · intro h
      cases h
      exact ⟨_, rfl, rfl⟩
    · intro h
      obtain ⟨r, h, rfl⟩ := h
      cases h
      rfl
  | remote direction canId dlc =>
    have len : msg.caseless.dataLen = msg.dataLen := rfl
    simp only [FrameText.lower, read_remote_iff, canIdOf_lower, remoteCount_lower, hasX_lower,
      caseless_directed, len]
    constructor
    · intro h
      obtain ⟨id, len, hid, hlen, rfl⟩ := h
      exact ⟨_, ⟨id, len, hid, hlen, rfl⟩, rfl⟩
    · intro h
      obtain ⟨_, ⟨id, len, hid, hlen, rfl⟩, rfl⟩ := h
      exact ⟨id, len, hid, hlen, rfl⟩
  | data direction canId dlcStr bytes =>
    simp only [FrameText.lower, read_data_iff, canIdOf_lower, classicCount_lower, hasX_lower,
      caseless_directed,
      splitWhitespace_lower, ← List.map_take, storeBytes_lower_iff (Nat.zero_le 64)]
    constructor
    · intro h
      obtain ⟨id, n, v, hid, hn, hv, rfl⟩ := h
      exact ⟨_, ⟨id, n, v, hid, hn, hv, rfl⟩, rfl⟩
    · intro h
      obtain ⟨_, ⟨id, n, v, hid, hn, hv, rfl⟩, rfl⟩ := h
      exact ⟨id, n, v, hid, hn, hv, rfl⟩
  | fd direction canId fields =>
    have count (n : Int) : fdCount fields.lower n = fdCount fields n := by
      rw [fdCount, fdCount, FdFields.lower, splitWhitespace_lower, List.length_map]
    have brs : (fields.lower.brs = "1".toList) = (fields.brs = "1".toList) :=
      propext (toLowerAscii_eq_iff (by decide))
    have esi : (fields.lower.esi = "1".toList) = (fields.esi = "1".toList) :=
      propext (toLowerAscii_eq_iff (by decide))
    have dlc : stoi base.radix fields.lower.dlcStr = stoi base.radix fields.dlcStr := stoi_toLower _ _
    have len : stoi 10 fields.lower.dataLengthStr = stoi 10 fields.dataLengthStr := stoi_toLower _ _
    have bytes : splitWhitespace fields.lower.data = (splitWhitespace fields.data).map toLowerAscii :=
      splitWhitespace_lower _
    simp only [FrameText.lower, read_fd_iff, canIdOf_lower, hasX_lower, caseless_directed, count,
      brs, esi, dlc, len, bytes, ← List.map_take, storeBytes_lower_iff (Nat.zero_le 64)]
    constructor
    · intro h
      obtain ⟨id, dlc, n, v, hid, hdlc, hn, hv, rfl⟩ := h
      exact ⟨_, ⟨id, dlc, n, v, hid, hdlc, hn, hv, rfl⟩, rfl⟩
    · intro h
      obtain ⟨_, ⟨id, dlc, n, v, hid, hdlc, hn, hv, rfl⟩, rfl⟩ := h
      exact ⟨id, dlc, n, v, hid, hdlc, hn, hv, rfl⟩

theorem channelOf_lower (s : Text) : channelOf (toLowerAscii s) = (channelOf s).map Char.toLower := by
  have cut : (toLowerAscii s).takeWhile (· ≠ nul) = (s.takeWhile (· ≠ nul)).map Char.toLower := by
    refine takeWhile_map (fun c => ?_) s
    rw [decide_eq_decide, not_iff_not]
    exact toLower_eq_iff (by decide)
  have blank : nul.toLower = nul := by decide
  refine Vector.ext fun i hi => ?_
  simp only [channelOf, Vector.getElem_map, Vector.getElem_ofFn, cut]
  split
  next =>
    have read := List.getD_map (s.takeWhile (· ≠ nul)) nul (n := i) Char.toLower
    rwa [blank] at read
  next => exact blank.symm

end Frames

section Filters

open Regex

theorem respects_plus {r : Regex Char} (h : r.Respects Char.toLower) :
    (plus r).Respects Char.toLower := ⟨h, h⟩

theorem respects_icase (s : String) : (icase s).Respects Char.toLower :=
  respects_word (fun a b => by rw [Char.toLower_toLower_eq_toLower]) _

theorem respects_digit : digit.Respects Char.toLower := isDigit_toLower

theorem respects_space : space.Respects Char.toLower := isSpace_toLower_eq

theorem respects_wordChar : wordChar.Respects Char.toLower := by
  intro c
  simp only [Char.isAlphanum, Char.isAlpha_toLower_eq_isAlpha, isDigit_toLower,
    toLower_eq_iff (d := '_') (by decide)]

theorem respects_dot : dot.Respects Char.toLower := by
  intro c
  simp only [toLower_eq_iff (d := '\n') (by decide), toLower_eq_iff (d := '\r') (by decide)]

theorem respects_point : (exactly ".").Respects Char.toLower := by
  refine ⟨fun c => ?_, trivial⟩
  rw [decide_eq_decide, eq_comm, toLower_eq_iff (by decide), eq_comm]

theorem trigger_respects : kAscTriggerRegex.Respects Char.toLower :=
  ⟨respects_icase _, respects_plus respects_space, respects_icase _, respects_plus respects_space,
    respects_plus respects_wordChar, respects_plus respects_space, respects_plus respects_dot, trivial⟩

theorem logRecord_respects : kLogRecordRegex.Respects Char.toLower := by
  have directed :
      (sequence [plus wordChar, plus space, alt (icase "Tx") (icase "Rx")]).Respects Char.toLower :=
    ⟨respects_plus respects_wordChar, respects_plus respects_space,
      ⟨respects_icase _, respects_icase _⟩, trivial⟩
  have classic : (sequence [plus digit, plus space, alt (sequence [plus wordChar, plus space,
      alt (icase "Tx") (icase "Rx")]) (icase "ErrorFrame")]).Respects Char.toLower :=
    ⟨respects_plus respects_digit, respects_plus respects_space, ⟨directed, respects_icase _⟩, trivial⟩
  exact ⟨respects_plus respects_digit, respects_point, respects_plus respects_digit,
    respects_plus respects_space, ⟨classic, respects_icase _⟩, fun _ => rfl, trivial⟩

end Filters

/-- The texts differ in the case of letters only. -/
def SameCase (a b : Text) : Prop := toLowerAscii a = toLowerAscii b

/-- The record type is written alike: the code compares it with CANFD letter by letter. -/
def SameKind (a b : Text) : Prop :=
  (splitWhitespace a)[1]? = some "CANFD".toList ↔ (splitWhitespace b)[1]? = some "CANFD".toList

/-- The direction, which the code compares with Tx letter by letter. -/
def SameDirection (a b : Text) : Prop :=
  ∀ t ∈ recordText (trimCopy a), ∀ u ∈ recordText (trimCopy b),
    (t.frame.direction = some "Tx".toList ↔ u.frame.direction = some "Tx".toList)

/-- Both lines are skipped, or give records equal in every field, the channel text without case. -/
def CaseIgnored (reader : AscReader) (startTime : Binary64) (a b : Text) : Prop :=
  Skips (reader.parseLine startTime a) ∧ Skips (reader.parseLine startTime b) ∨
    ∃ r r', reader.parseLine startTime a = .record r ∧ reader.parseLine startTime b = .record r' ∧
      r.lower = r'.lower

section Lines

variable {a b : Text} {t u : RecordText}

theorem SameCase.symm (same : SameCase a b) : SameCase b a := Eq.symm same

theorem SameCase.trimCopy (same : SameCase a b) : SameCase (trimCopy a) (trimCopy b) := by
  rw [SameCase, ← trimCopy_lower, ← trimCopy_lower, same]

theorem SameCase.split (same : SameCase a b) (k : Nat) :
    (splitWhitespaceLimit a k).map toLowerAscii = (splitWhitespaceLimit b k).map toLowerAscii := by
  rw [← splitWhitespaceLimit_lower, ← splitWhitespaceLimit_lower, same]

theorem SameCase.isDigits (same : SameCase a b) : isDigits a = isDigits b := by
  rw [← isDigits_lower, same, isDigits_lower]

theorem split_one {x y : Text} (same : SameCase a b) (h : splitWhitespaceLimit a 1 = [x, y]) :
    ∃ x' y', splitWhitespaceLimit b 1 = [x', y'] ∧ SameCase x x' ∧ SameCase y y' := by
  have parts := same.split 1
  rw [h] at parts
  obtain ⟨x', l, hb, hx, parts⟩ := List.map_eq_cons_iff.mp parts.symm
  obtain ⟨y', l, rfl, hy, parts⟩ := List.map_eq_cons_iff.mp parts
  rw [List.map_eq_nil_iff.mp parts] at hb
  exact ⟨x', y', hb, hx.symm, hy.symm⟩

theorem split_two {x y z : Text} (same : SameCase a b) (h : splitWhitespaceLimit a 2 = [x, y, z]) :
    ∃ x' y' z', splitWhitespaceLimit b 2 = [x', y', z'] ∧ SameCase x x' ∧ SameCase y y' ∧
      SameCase z z' := by
  have parts := same.split 2
  rw [h] at parts
  obtain ⟨x', l, hb, hx, parts⟩ := List.map_eq_cons_iff.mp parts.symm
  obtain ⟨y', l, rfl, hy, parts⟩ := List.map_eq_cons_iff.mp parts
  obtain ⟨z', l, rfl, hz, parts⟩ := List.map_eq_cons_iff.mp parts
  rw [List.map_eq_nil_iff.mp parts] at hb
  exact ⟨x', y', z', hb, hx.symm, hy.symm, hz.symm⟩

theorem classicText_sameCase {f : FrameText} (same : SameCase a b) (h : classicText a = some f) :
    ∃ g, classicText b = some g ∧ g.lower = f.lower := by
  have both := classicText_lower b
  rw [← same, classicText_lower, h] at both
  exact Option.map_eq_some_iff.mp both.symm

theorem fdText_sameCase {f : FrameText} (same : SameCase a b) (h : fdText a = some f) :
    ∃ g, fdText b = some g ∧ g.lower = f.lower := by
  have both := fdText_lower b
  rw [← same, fdText_lower, h] at both
  exact Option.map_eq_some_iff.mp both.symm

theorem recordText_sameCase (same : SameCase a b) (kind : SameKind a b) (h : recordText a = some t) :
    ∃ u, recordText b = some u ∧ u.lower = t.lower := by
  rcases recordText_cases h with ⟨time, channel, rest, f, split, digits, hf, rfl⟩ |
    ⟨time, rest, channel, frame, f, split, inner, hf, rfl⟩
  · obtain ⟨time', channel', rest', splitB, stime, schannel, srest⟩ := split_two same split
    obtain ⟨g, hg, sg⟩ := classicText_sameCase srest hf
    have digits' : isDigits channel' = true := schannel.isDigits.symm.trans digits
    have classic : channel' ≠ "CANFD".toList := by
      rintro rfl
      cases digits'
    refine ⟨⟨time', false, channel', g⟩, ?_, ?_⟩
    · rw [recordText, splitB]
      simp only [if_neg classic, if_pos digits', hg]
      rfl
    · rw [RecordText.lower, RecordText.lower, sg, ← stime, ← schannel]
  · obtain ⟨time', kind', rest', splitB, stime, -, srest⟩ := split_two same split
    obtain ⟨channel', frame', innerB, schannel, sframe⟩ := split_one srest inner
    obtain ⟨g, hg, sg⟩ := fdText_sameCase sframe hf
    have canfd : kind' = "CANFD".toList := by
      have second : (splitWhitespace b)[1]? = some "CANFD".toList :=
        kind.mp (by rw [splitWhitespaceLimit_two split]; rfl)
      rw [splitWhitespaceLimit_two splitB] at second
      exact Option.some.inj second
    refine ⟨⟨time', true, channel', g⟩, ?_, ?_⟩
    · rw [recordText, splitB]
      simp only [if_pos canfd, innerB, hg]
      rfl
    · rw [RecordText.lower, RecordText.lower, sg, ← stime, ← schannel]

/-- No token of digits is CANFD in another case. -/
theorem not_canfd_of_digits {time kind rest time' rest' : Text} (same : SameCase a b)
    (split : splitWhitespaceLimit a 2 = [time, kind, rest]) (digits : isDigits kind = true) :
    splitWhitespaceLimit b 2 ≠ [time', "CANFD".toList, rest'] := by
  intro canfd
  obtain ⟨_, _, _, split', -, alike, -⟩ := split_two same split
  rw [split'] at canfd
  cases canfd
  rw [alike.isDigits] at digits
  cases digits

/-- Two record lines that differ in case only are of the same type. -/
theorem sameKind_of_recordText (same : SameCase a b) (ha : recordText a = some t)
    (hb : recordText b = some u) : SameKind a b := by
  rw [SameKind]
  rcases recordText_cases ha with ⟨_, kind, _, _, split, digits, _, rfl⟩ |
    ⟨_, _, _, _, _, split, _, _, rfl⟩ <;>
    rcases recordText_cases hb with ⟨_, kind', _, _, splitB, digits', _, rfl⟩ |
      ⟨_, _, _, _, _, splitB, _, _, rfl⟩ <;>
    rw [splitWhitespaceLimit_two split, splitWhitespaceLimit_two splitB]
  · refine iff_of_false (fun h => ?_) (fun h => ?_)
    · rw [Option.some.inj h] at digits
      cases digits
    · rw [Option.some.inj h] at digits'
      cases digits'
  · exact absurd splitB (not_canfd_of_digits same split digits)
  · exact absurd split (not_canfd_of_digits same.symm splitB digits')
  · exact Iff.rfl

theorem isRecordLine_sameCase (same : SameCase a b) (h : IsRecordLine a)
    (hu : recordText (trimCopy b) = some u) : IsRecordLine b := by
  obtain ⟨noTrigger, -, line⟩ := h
  refine ⟨?_, ?_, ?_⟩
  · rwa [← trigger_respects.mem_map_iff, ← toLowerAscii, ← same.trimCopy, toLowerAscii,
      trigger_respects.mem_map_iff]
  · rcases recordText_cases hu with ⟨_, kind, _, _, split, digits, _, _⟩ |
      ⟨_, _, _, _, _, split, _, _, _⟩
    · refine not_mem_startOfMeasurement (splitWhitespaceLimit_two split) ?_
      rintro rfl
      cases digits
    · exact not_mem_startOfMeasurement (splitWhitespaceLimit_two split) (by decide)
  · rwa [← logRecord_respects.mem_map_iff, ← toLowerAscii, ← same.trimCopy, toLowerAscii,
      logRecord_respects.mem_map_iff]

end Lines

section Records

variable {reader : AscReader} {startTime : Binary64} {a b : Text} {r r' : LogRecord}

theorem sameKind_trimCopy : SameKind (trimCopy a) (trimCopy b) ↔ SameKind a b := by
  rw [SameKind, SameKind, splitWhitespace_trimCopy, splitWhitespace_trimCopy]

theorem record_sameKind (same : SameCase a b) (ha : reader.parseLine startTime a = .record r)
    (hb : reader.parseLine startTime b = .record r') : SameKind a b := by
  obtain ⟨t, ts, ht, -, -⟩ := record_frame ha
  obtain ⟨u, us, hu, -, -⟩ := record_frame hb
  exact sameKind_trimCopy.mp (sameKind_of_recordText same.trimCopy ht hu)

/-- A line of the same type is a record too, equal but for its direction. -/
theorem record_sameCase (same : SameCase a b) (kind : SameKind a b)
    (h : reader.parseLine startTime a = .record r) :
    ∃ r', reader.parseLine startTime b = .record r' ∧ r'.caseless = r.caseless := by
  obtain ⟨line, -⟩ := parseLine_record_iff.mp h
  obtain ⟨t, ts, ht, hts, hr⟩ := record_frame h
  obtain ⟨u, hu, lower⟩ := recordText_sameCase same.trimCopy (sameKind_trimCopy.mpr kind) ht
  have time : stod u.time = some ts := by
    have both : toLowerAscii u.time = toLowerAscii t.time := congrArg RecordText.time lower
    rw [← stod_toLower, ← toLowerAscii, both, toLowerAscii, stod_toLower, hts]
  have channel : (channelOf u.channel).map Char.toLower = (channelOf t.channel).map Char.toLower := by
    have both : toLowerAscii u.channel = toLowerAscii t.channel := congrArg RecordText.channel lower
    rw [← channelOf_lower, ← channelOf_lower, both]
  have isFd : u.lower.isFd = t.lower.isFd := congrArg RecordText.isFd lower
  change u.isFd = t.isFd at isFd
  have frame : u.frame.lower = t.frame.lower := congrArg RecordText.frame lower
  have cleared : LogRecord.caseless { LogRecord.zero with
        timestamp := ts.add startTime, isFd := u.isFd, channel := channelOf u.channel } =
      LogRecord.caseless { LogRecord.zero with
        timestamp := ts.add startTime, isFd := t.isFd, channel := channelOf t.channel } := by
    simp only [LogRecord.caseless, LogRecord.lower, channel, isFd]
  have read := read_lower_iff.mpr ⟨r, hr, rfl⟩
  rw [← cleared, ← frame] at read
  obtain ⟨r', hr', same'⟩ := read_lower_iff.mp read
  refine ⟨r', parseLine_record_iff.mpr ⟨isRecordLine_sameCase same line hu, u, hu, ?_⟩, same'⟩
  exact parse_bind_ok.mpr ⟨ts, convert_ok_iff.mpr time, hr'⟩

theorem record_direction_eq {t : RecordText} (h : reader.parseLine startTime a = .record r)
    (ht : recordText (trimCopy a) = some t) :
    r.direction = if t.frame.direction = some "Tx".toList then 1 else 0 := by
  cases hd : t.frame.direction with
  | some direction =>
    rw [(record_direction h ht hd).2]
    simp only [Option.some.injEq]
  | none =>
    obtain ⟨ts, hr⟩ := record_frame_of h ht
    cases hf : t.frame with
    | errorFrame =>
      rw [hf] at hr
      cases hr
      rfl
    | remote direction canId dlc => rw [hf] at hd; cases hd
    | data direction canId dlcStr bytes => rw [hf] at hd; cases hd
    | fd direction canId fields => rw [hf] at hd; cases hd

theorem lower_eq_iff : r.lower = r'.lower ↔ r.caseless = r'.caseless ∧ r.direction = r'.direction := by
  constructor
  · intro h
    have direction : r.lower.direction = r'.lower.direction := congrArg LogRecord.direction h
    refine ⟨?_, direction⟩
    rw [LogRecord.caseless, LogRecord.caseless, h]
  · intro h
    obtain ⟨rest, direction⟩ := h
    have all (r : LogRecord) : r.lower = { r.caseless with direction := r.direction } := rfl
    rw [all, all, rest, direction]

theorem direction_eq_iff (ha : reader.parseLine startTime a = .record r)
    (hb : reader.parseLine startTime b = .record r') :
    r.direction = r'.direction ↔ SameDirection a b := by
  obtain ⟨t, ts, ht, -, -⟩ := record_frame ha
  obtain ⟨u, us, hu, -, -⟩ := record_frame hb
  simp only [record_direction_eq ha ht, record_direction_eq hb hu, SameDirection, ht,
    hu, Option.mem_def, Option.some.injEq, forall_eq']
  have codes (p q : Prop) [Decidable p] [Decidable q] :
      ((if p then 1 else 0 : UInt8) = if q then 1 else 0) ↔ (p ↔ q) := by
    by_cases hp : p <;> by_cases hq : q <;> simp [hp, hq]
  exact codes _ _

/-- Case is ignored but for the words CANFD and Tx. -/
theorem caseIgnored_iff (same : SameCase a b) : CaseIgnored reader startTime a b ↔
    ¬ Overlong reader.base a ∧ ¬ Overlong reader.base b ∧
      (Accepted reader.base a ∨ Accepted reader.base b → SameKind a b ∧ SameDirection a b) := by
  constructor
  · rintro (⟨skipA, skipB⟩ | ⟨r, r', ha, hb, lower⟩)
    · refine ⟨skipA.not_overlong, skipB.not_overlong, ?_⟩
      rintro (accepted | accepted)
      · exact absurd accepted skipA.not_accepted
      · exact absurd accepted skipB.not_accepted
    · refine ⟨record_not_overlong ha, record_not_overlong hb, fun _ => ⟨record_sameKind same ha hb, ?_⟩⟩
      exact (direction_eq_iff ha hb).mp (lower_eq_iff.mp lower).2
  · intro h
    obtain ⟨insideA, insideB, alike⟩ := h
    by_cases accepted : Accepted reader.base a ∨ Accepted reader.base b
    · obtain ⟨kind, direction⟩ := alike accepted
      right
      obtain ⟨r, ha⟩ : ∃ r, reader.parseLine startTime a = .record r := by
        rcases accepted with accepted | accepted
        · exact parseLine_isRecord_iff.mpr accepted
        · obtain ⟨r', hb⟩ := (@parseLine_isRecord_iff startTime reader b).mpr accepted
          obtain ⟨r, ha, -⟩ := record_sameCase same.symm kind.symm hb
          exact ⟨r, ha⟩
      obtain ⟨r', hb, caseless⟩ := record_sameCase same kind ha
      exact ⟨r, r', ha, hb, lower_eq_iff.mpr ⟨caseless.symm, (direction_eq_iff ha hb).mpr direction⟩⟩
    · obtain ⟨noA, noB⟩ := not_or.mp accepted
      exact Or.inl ⟨skips_of insideA noA, skips_of insideB noB⟩

end Records

def fdLine (kind : String) : Text := "0.5 ".toList ++ kind.toList ++ " 1 Rx 10 1 0 1 1 7".toList

theorem caseIgnored_iff_sample :
    CaseIgnored ⟨.hex, true, fun _ => none⟩ .zero (fdLine "CANFD") (fdLine "canfd") ↔
    ¬ Overlong .hex (fdLine "CANFD") ∧ ¬ Overlong .hex (fdLine "canfd") ∧
      (Accepted .hex (fdLine "CANFD") ∨ Accepted .hex (fdLine "canfd") →
        SameKind (fdLine "CANFD") (fdLine "canfd") ∧
          SameDirection (fdLine "CANFD") (fdLine "canfd")) := by
  have same : SameCase (fdLine "CANFD") (fdLine "canfd") := by
    unfold SameCase
    decide
  exact caseIgnored_iff same

/-- The regex takes canfd, and the comparison behind it does not. -/
theorem canfd_dropped : ¬ ∀ (reader : AscReader) (startTime : Binary64) (a b : Text),
    SameCase a b → CaseIgnored reader startTime a b := by
  intro all
  have same : SameCase (fdLine "CANFD") (fdLine "canfd") := by
    unfold SameCase
    decide
  obtain ⟨r, upper, -⟩ : ∃ r,
      AscReader.parseLine ⟨.hex, true, fun _ => none⟩ .zero (fdLine "CANFD") = .record r ∧
        r.isFd = true :=
    LineOutcome.exists_record (by decide +kernel)
  have lower : AscReader.parseLine ⟨.hex, true, fun _ => none⟩ .zero (fdLine "canfd") = .skipped := by
    decide +kernel
  rcases all _ _ _ _ same with ⟨skips, -⟩ | ⟨_, r', -, record, -⟩
  · rw [upper] at skips
    rcases skips with h | ⟨_, h⟩ <;> cases h
  · rw [lower] at record
    cases record

end FsCore
