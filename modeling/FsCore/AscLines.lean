import FsCore.AscReader

namespace FsCore

def LineOutcome.toRecord : LineOutcome → Option LogRecord
  | .record r => some r
  | _ => none

theorem LineOutcome.exists_record {α : Type} {outcome : LineOutcome} {f : LogRecord → α} {a : α}
    (h : outcome.toRecord.map f = some a) : ∃ r, outcome = .record r ∧ f r = a := by
  obtain ⟨r, hr, rfl⟩ := Option.map_eq_some_iff.mp h
  cases outcome with
  | record r' =>
    cases hr
    exact ⟨r, rfl, rfl⟩
  | startTime t => cases hr
  | skipped => cases hr
  | outOfBounds i => cases hr

namespace AscReader

variable {reader : AscReader}

/-- The records of lines that are read with start time zero. -/
def lineRecords (reader : AscReader) : List Text → Except Nat (List LogRecord)
  | [] => .ok []
  | raw :: lines =>
    match reader.parseLine Binary64.zero raw with
    | .startTime _ => reader.lineRecords lines
    | .skipped => reader.lineRecords lines
    | .record r => do
      let records ← reader.lineRecords lines
      pure (r :: records)
    | .outOfBounds index => .error index

theorem startTime_relative (relative : reader.relativeTimestamp = true) {raw : Text} {t : Binary64}
    (h : reader.parseLine Binary64.zero raw = .startTime t) : t = Binary64.zero := by
  unfold parseLine at h
  dsimp only at h
  split at h
  next =>
    cases h
    exact if_pos relative
  next =>
    split at h
    next => cases h
    next =>
      split at h
      next => split at h <;> cases h
      next => cases h

theorem nextLoop_cons {fuel : Nat} {startTime : Binary64} {raw : Text} {lines : List Text} :
    reader.nextLoop (fuel + 1) startTime (raw :: lines) =
      match reader.parseLine startTime raw with
      | .startTime t => reader.nextLoop (fuel + 1) t lines
      | .skipped => reader.nextLoop (fuel + 1) startTime lines
      | .record r => do
        let records ← reader.nextLoop fuel startTime lines
        pure (r :: records)
      | .outOfBounds index => .error index := by
  rw [nextLoop, next]
  cases reader.parseLine startTime raw <;> rfl

theorem nextLoop_relative (relative : reader.relativeTimestamp = true) {lines : List Text} {fuel : Nat}
    (h : lines.length < fuel) : reader.nextLoop fuel Binary64.zero lines =
      reader.lineRecords lines := by
  induction lines generalizing fuel with
  | nil =>
    cases fuel with
    | zero => cases h
    | succ fuel => rfl
  | cons raw lines ih =>
    rw [List.length_cons] at h
    cases fuel with
    | zero => cases h
    | succ fuel =>
      rw [nextLoop_cons, lineRecords]
      cases hl : reader.parseLine Binary64.zero raw with
      | startTime t =>
        rw [startTime_relative relative hl]
        exact ih (by omega)
      | skipped => exact ih (by omega)
      | record r =>
        dsimp only
        rw [ih (by omega)]
      | outOfBounds i => rfl

/-- With relative timestamps no line changes how the other lines are read. -/
theorem readAll_relative (relative : reader.relativeTimestamp = true) (text : Text) :
    reader.readAll text = reader.lineRecords (getLines text) :=
  nextLoop_relative relative (Nat.lt_succ_self _)

theorem parseLine_other {startTime : Binary64} {raw : Text}
    (h : trimCopy raw ∉ kLogRecordRegex.language) :
    reader.parseLine startTime raw = .skipped ∨ ∃ t, reader.parseLine startTime raw = .startTime t := by
  unfold parseLine
  dsimp only
  split
  next => exact Or.inr ⟨_, rfl⟩
  next =>
    split
    next => exact Or.inl rfl
    next => exact Or.inl rfl

theorem lineRecords_other {raw : Text} (h : trimCopy raw ∉ kLogRecordRegex.language)
    (lines : List Text) :
    reader.lineRecords (raw :: lines) = reader.lineRecords lines := by
  rw [lineRecords]
  rcases @parseLine_other reader Binary64.zero raw h with skipped | ⟨t, start⟩
  · rw [skipped]
  · rw [start]

theorem lineRecords_append (lines more : List Text) :
    reader.lineRecords (lines ++ more) = (do
      let first ← reader.lineRecords lines
      let rest ← reader.lineRecords more
      pure (first ++ rest)) := by
  induction lines with
  | nil =>
    change reader.lineRecords more = reader.lineRecords more >>= fun rest => pure rest
    rw [bind_pure]
  | cons raw lines ih =>
    rw [List.cons_append, lineRecords, lineRecords]
    cases reader.parseLine Binary64.zero raw with
    | startTime t => exact ih
    | skipped => exact ih
    | record r =>
      dsimp only
      rw [ih]
      simp only [bind_assoc, pure_bind, List.cons_append]
    | outOfBounds i => rfl

/-- A blank line is no record. -/
theorem lineRecords_nil_line (lines : List Text) : reader.lineRecords ([] :: lines) =
    reader.lineRecords lines :=
  lineRecords_other (by decide) lines

end AscReader

theorem getLines_line {line : Text} (ne : line ≠ []) (one : '\n' ∉ line) : getLines line = [line] := by
  induction line with
  | nil => exact absurd rfl ne
  | cons c rest ih =>
    have hc : c ≠ '\n' := fun eq => one (by simp [eq])
    rw [getLines, if_neg hc]
    cases rest with
    | nil => rfl
    | cons d rest =>
      rw [ih (List.cons_ne_nil _ _) (fun mem => one (List.mem_cons_of_mem _ mem))]

theorem getLines_cons {line : Text} (one : '\n' ∉ line) (text : Text) :
    getLines (line ++ '\n' :: text) = line :: getLines text := by
  induction line with
  | nil => exact if_pos rfl
  | cons c rest ih =>
    have hc : c ≠ '\n' := fun eq => one (by simp [eq])
    rw [List.cons_append, getLines, if_neg hc, ih (fun mem => one (List.mem_cons_of_mem _ mem))]

theorem getLines_ne {s : Text} (h : s ≠ []) : getLines s ≠ [] := by
  cases s with
  | nil => exact absurd rfl h
  | cons c rest =>
    rw [getLines]
    split
    next => exact List.cons_ne_nil _ _
    next => split <;> exact List.cons_ne_nil _ _

theorem getLines_append (s t : Text) :
    getLines (s ++ '\n' :: t) = getLines (s ++ ['\n']) ++ getLines t := by
  induction s with
  | nil => rfl
  | cons c rest ih =>
    rw [List.cons_append, List.cons_append, getLines, getLines, ih]
    split
    next => rfl
    next =>
      cases h : getLines (rest ++ ['\n']) with
      | nil => exact absurd h (getLines_ne (by simp))
      | cons line lines => rfl

/-- A newline at the end of a text ends its last line, or adds a blank one. -/
theorem getLines_newline (s : Text) : getLines (s ++ ['\n']) = getLines s ∨
    getLines (s ++ ['\n']) = getLines s ++ [[]] := by
  induction s with
  | nil => exact Or.inr rfl
  | cons c rest ih =>
    rw [List.cons_append, getLines, getLines]
    split
    next =>
      rcases ih with ih | ih
      · exact Or.inl (by rw [ih])
      · exact Or.inr (by rw [ih]; rfl)
    next =>
      cases rest with
      | nil => exact Or.inl rfl
      | cons d rest =>
        cases h : getLines (d :: rest) with
        | nil => exact absurd h (getLines_ne (by simp))
        | cons line lines =>
          rw [h] at ih
          rcases ih with ih | ih
          · exact Or.inl (by rw [ih])
          · exact Or.inr (by rw [ih]; rfl)

theorem not_mem_getLines {s raw : Text} (h : raw ∈ getLines s) : '\n' ∉ raw := by
  induction s generalizing raw with
  | nil => cases h
  | cons c rest ih =>
    rw [getLines] at h
    split at h
    next =>
      rcases List.mem_cons.mp h with rfl | h
      · simp
      · exact ih h
    next other =>
      split at h
      next =>
        rw [List.mem_singleton.mp h]
        simpa using Ne.symm other
      next line lines hl =>
        rw [hl] at ih
        rcases List.mem_cons.mp h with rfl | h
        · rw [List.mem_cons, not_or]
          exact ⟨Ne.symm other, ih (by simp)⟩
        · exact ih (List.mem_cons_of_mem _ h)

theorem trimCopy_append {s blanks : Text} (h : ∀ c ∈ blanks, isSpace c = true) :
    trimCopy (s ++ blanks) = trimCopy s := by
  induction blanks using List.reverseRecOn with
  | nil => rw [List.append_nil]
  | append_singleton blanks c ih =>
    rw [← ih fun d hd => h d (List.mem_append_left _ hd)]
    have blank : isSpace c = true := h c (by simp)
    rw [← List.append_assoc, trimCopy, trimCopy, List.dropWhile_append]
    split
    next none =>
      rw [List.isEmpty_iff.mp none, List.dropWhile_cons_of_pos blank]
      rfl
    next => rw [List.rdropWhile_concat_pos _ _ _ blank]

theorem isSpace_toLower {c : Char} (h : isSpace c = true) : c.toLower = c := by
  have small : c.toNat ≤ 32 := by
    simp only [isSpace, Bool.or_eq_true, Bool.and_eq_true, decide_eq_true_eq] at h
    rcases h with rfl | ⟨-, h⟩
    · decide
    · omega
  unfold Char.toLower
  split
  next upper =>
    have large : 65 ≤ c.val.toNat := UInt32.le_iff_toNat_le.mp upper.1
    exact absurd (large.trans small) (by decide)
  next => rfl

/-- The error frame test looks at the first token only. -/
theorem isErrorFrame_eq {frame first : Text} {ws : List Text} (tight : frame.dropWhile isSpace = frame)
    (h : splitWhitespace frame = first :: ws) :
    isErrorFrame frame = true ↔ toLowerAscii (first.take 10) = "errorframe".toList := by
  have word : first = (trimCopy frame).takeWhile (fun c => !isSpace c) := by
    rw [trimCopy, tight, takeWhile_rdropWhile]
    exact words_eq_cons tight h
  rw [isErrorFrame, decide_eq_true_iff, word]
  suffices same : toLowerAscii ((trimCopy frame).take 10) = "errorframe".toList ∨
      toLowerAscii (((trimCopy frame).takeWhile (fun c => !isSpace c)).take 10) = "errorframe".toList →
      ((trimCopy frame).takeWhile (fun c => !isSpace c)).take 10 = (trimCopy frame).take 10 by
    constructor
    · exact fun h => (congrArg toLowerAscii (same (.inl h))).trans h
    · exact fun h => (congrArg toLowerAscii (same (.inr h))).symm.trans h
  rintro (h | h)
  · refine take_takeWhile_of_forall fun c hc => Bool.eq_false_iff.mpr fun space => ?_
    have mem : c.toLower ∈ "errorframe".toList := h ▸ List.mem_map_of_mem hc
    rw [isSpace_toLower space] at mem
    have letters : "errorframe".toList.any isSpace = false := by decide
    exact List.any_eq_false.mp letters _ mem space
  · apply take_takeWhile_of_length
    rw [← List.length_map (f := Char.toLower)]
    exact congrArg List.length h

section Recognized

open Regex

theorem mem_sequence_nil {w : Text} : w ∈ (sequence []).language ↔ w = [] := Language.mem_one w

theorem mem_sequence_cons {r : Regex Char} {parts : List (Regex Char)} {w : Text} :
    w ∈ (sequence (r :: parts)).language ↔
      ∃ u v, u ∈ r.language ∧ v ∈ (sequence parts).language ∧ w = u ++ v := mem_seq_iff

theorem append_mem_sequence {r : Regex Char} {parts : List (Regex Char)} {u v : Text}
    (hu : u ∈ r.language) (hv : v ∈ (sequence parts).language) :
    u ++ v ∈ (sequence (r :: parts)).language :=
  mem_sequence_cons.mpr ⟨u, v, hu, hv, rfl⟩

theorem mem_exactly_iff {s : String} {w : Text} : w ∈ (exactly s).language ↔ w = s.toList := by
  rw [exactly, mem_word_iff]
  simp only [decide_eq_true_eq, List.forall₂_eq_eq_eq]
  exact eq_comm

theorem isDigits_iff {w : Text} : isDigits w = true ↔ w ∈ (plus digit).language := by
  rw [digit, mem_plus_one_iff, isDigits, Bool.and_eq_true, Bool.not_eq_true', List.isEmpty_eq_false_iff,
    List.all_eq_true]

theorem digitValue_of_isDigit {c : Char} (h : c.isDigit = true) : digitValue c < 10 := by
  have low := (Bool.and_eq_true _ _).mp h
  have high : c.toNat ≤ 57 := UInt32.le_iff_toNat_le.mp (of_decide_eq_true low.2)
  rw [digitValue, if_pos h]
  change c.toNat - 48 < 10
  omega

theorem isDigits_isSpace {w : Text} (h : isDigits w = true) : w ≠ [] ∧ ∀ c ∈ w, isSpace c = false := by
  rw [isDigits, Bool.and_eq_true, Bool.not_eq_true', List.isEmpty_eq_false_iff, List.all_eq_true] at h
  exact ⟨h.1, fun c hc => isSpace_eq_false ((digitValue_of_isDigit (h.2 c hc)).trans (by decide))⟩

/-- Digits, a point and digits. -/
def IsTimestamp (token : Text) : Prop :=
  ∃ whole fraction, token = whole ++ ('.' :: fraction) ∧ isDigits whole = true ∧
    isDigits fraction = true

theorem IsTimestamp.isSpace {token : Text} (h : IsTimestamp token) :
    token ≠ [] ∧ ∀ c ∈ token, isSpace c = false := by
  obtain ⟨whole, fraction, rfl, hw, hf⟩ := h
  obtain ⟨-, whole⟩ := isDigits_isSpace hw
  obtain ⟨-, fraction⟩ := isDigits_isSpace hf
  refine ⟨by simp, fun c hc => ?_⟩
  rcases List.mem_append.mp hc with hc | hc
  · exact whole c hc
  · rcases List.mem_cons.mp hc with rfl | hc
    · decide
    · exact fraction c hc

theorem IsTimestamp.head {token : Text} (h : IsTimestamp token) : ∃ c rest, token = c :: rest ∧
    c.isDigit = true := by
  obtain ⟨whole, fraction, rfl, hw, -⟩ := h
  rw [isDigits, Bool.and_eq_true, List.all_eq_true] at hw
  cases whole with
  | nil => cases hw.1
  | cons c rest => exact ⟨c, rest ++ ('.' :: fraction), rfl, hw.2 c (by simp)⟩

theorem toLower_digit {c : Char} (hc : c.isDigit = true) : c.toLower = c := by
  refine dif_neg fun upper => ?_
  have low : 65 ≤ c.toNat := UInt32.le_iff_toNat_le.mp upper.1
  have high : c.toNat ≤ 57 :=
    UInt32.le_iff_toNat_le.mp (of_decide_eq_true ((Bool.and_eq_true _ _).mp hc).2)
  omega

/-- A word in any case begins with a letter of it. -/
theorem icase_head {s : String} {a : Char} {as w : Text} (hs : s.toList = a :: as)
    (letter : a.toLower.isDigit = false) (h : w ∈ (icase s).language) : ∃ c rest, w = c :: rest ∧
      c.isDigit = false := by
  rw [icase, hs, mem_word_iff] at h
  cases h with
  | @cons _ c _ rest same _ =>
    refine ⟨c, rest, rfl, Bool.eq_false_iff.mpr fun hc => ?_⟩
    rw [decide_eq_true_eq, toLower_digit hc] at same
    rw [same, hc] at letter
    cases letter

/-- A line that begins with a digit opens no trigger block. -/
theorem not_mem_trigger {c : Char} {rest : Text} (hc : c.isDigit = true) :
    c :: rest ∉ kAscTriggerRegex.language := by
  intro h
  obtain ⟨u, v, hu, -, eq⟩ := mem_sequence_cons.mp h
  obtain ⟨b, u', rfl, hb⟩ := icase_head rfl (by decide) hu
  rw [(List.cons.inj eq).1, hb] at hc
  cases hc

/-- The start of measurement has its own second word. -/
theorem not_mem_startOfMeasurement {line time kind : Text} {more : List Text}
    (h : splitWhitespace line = time :: kind :: more) (other : kind ≠ "Start".toList) :
    line ∉ kStartOfMeasurementRegex.language := by
  intro mem
  obtain ⟨whole, a, hw, ha, rfl⟩ := mem_sequence_cons.mp mem
  obtain ⟨point, b, hp, hb, rfl⟩ := mem_sequence_cons.mp ha
  obtain ⟨fraction, d, hf, hd, rfl⟩ := mem_sequence_cons.mp hb
  obtain ⟨gap, e, hg, he, rfl⟩ := mem_sequence_cons.mp hd
  obtain ⟨text, last, ht, hlast, rfl⟩ := mem_sequence_cons.mp he
  rw [mem_sequence_nil] at hlast
  rw [mem_exactly_iff] at hp ht
  rw [space, mem_plus_one_iff] at hg
  subst hlast hp ht
  have stamp : IsTimestamp (whole ++ ('.' :: fraction)) :=
    ⟨whole, fraction, rfl, isDigits_iff.mpr hw, isDigits_iff.mpr hf⟩
  have split : splitWhitespace
    (whole ++ (".".toList ++ (fraction ++ (gap ++ ("Start of measurement".toList ++ []))))) =
      (whole ++ ('.' :: fraction)) :: ["Start".toList, "of".toList, "measurement".toList] := by
    have joined :
      whole ++ (".".toList ++ (fraction ++ (gap ++ ("Start of measurement".toList ++ [])))) =
        (whole ++ ('.' :: fraction)) ++ (gap ++ "Start of measurement".toList) := by
      simp
    have stop : ∀ c ∈ (gap ++ "Start of measurement".toList).head?, isSpace c = true := by
      intro c hc
      rw [List.head?_append_of_ne_nil _ hg.1] at hc
      exact hg.2 c (List.mem_of_mem_head? hc)
    rw [joined, splitWhitespace, words_word stamp.isSpace.1 stamp.isSpace.2 stop, words_gap hg.2]
    rfl
  rw [split] at h
  cases h
  exact other rfl

/-- A record line: its timestamp, a gap, and one of the three forms. -/
theorem mem_logRecord {time gap body tail : Text} (stamp : IsTimestamp time)
    (hgap : gap ≠ [] ∧ ∀ c ∈ gap, isSpace c = true)
    (hbody : body ∈ (alt (sequence [plus digit, plus space,
      alt (sequence [plus wordChar, plus space, alt (icase "Tx") (icase "Rx")]) (icase "ErrorFrame")])
      (icase "CANFD")).language) : time ++ (gap ++ (body ++ tail)) ∈ kLogRecordRegex.language := by
  obtain ⟨whole, fraction, rfl, hw, hf⟩ := stamp
  have any : tail ∈ (star (one fun _ : Char => true)).language := mem_star_one_iff.mpr fun _ _ => rfl
  have last : tail ∈ (sequence [star (one fun _ : Char => true)]).language := by
    rw [← List.append_nil tail]
    exact append_mem_sequence any (mem_sequence_nil.mpr rfl)
  have rest := append_mem_sequence (mem_plus_one_iff.mpr hgap) (append_mem_sequence hbody last)
  have point : ".".toList ∈ (exactly ".").language := mem_exactly_iff.mpr rfl
  have all := append_mem_sequence (isDigits_iff.mp hw)
    (append_mem_sequence point (append_mem_sequence (isDigits_iff.mp hf) rest))
  rw [List.append_assoc]
  exact all

end Recognized

end FsCore
