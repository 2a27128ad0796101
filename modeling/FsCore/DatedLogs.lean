import FsCore.MonthNames
import FsCore.StartTimes

namespace FsCore

section Spaced

variable {α : Type} {p : α → Bool}

/-- One round of the splitting loop takes the word behind a gap. -/
theorem splitLoop_word {k : Nat} {gap w rest : List α} (blank : ∀ c ∈ gap, p c = true) (ne : w ≠ [])
    (word : ∀ c ∈ w, p c = false) (stop : ∀ c ∈ rest.head?, p c = true) :
    splitLoop p (k + 1) (gap ++ (w ++ rest)) =
      (w :: (splitLoop p k rest).1, (splitLoop p k rest).2) := by
  cases w with
  | nil => exact absurd rfl ne
  | cons a as =>
    have first : p a = false := word a (by simp)
    have drop : (gap ++ (a :: as ++ rest)).dropWhile p = a :: (as ++ rest) := by
      rw [List.dropWhile_append_of_pos blank, List.cons_append,
        List.dropWhile_cons_of_neg (by simp [first])]
    have all : ∀ c ∈ a :: as, (!p c) = true := fun c hc => by simp [word c hc]
    have take : (a :: (as ++ rest)).takeWhile (fun c => !p c) = a :: as := by
      have stopped : rest.takeWhile (fun c => !p c) = [] := by
        cases rest with
        | nil => rfl
        | cons b bs => exact List.takeWhile_cons_of_neg (by simp [stop b (by simp)])
      rw [← List.cons_append, List.takeWhile_append_of_pos all, stopped, List.append_nil]
    have left : (a :: (as ++ rest)).dropWhile (fun c => !p c) = rest := by
      have stopped : rest.dropWhile (fun c => !p c) = rest := by
        cases rest with
        | nil => rfl
        | cons b bs => exact List.dropWhile_cons_of_neg (by simp [stop b (by simp)])
      rw [← List.cons_append, List.dropWhile_append_of_pos all, stopped]
    rw [splitLoop_succ_cons drop, take, left]

end Spaced

/-- The parts of a line that opens a trigger block, with the blanks between them and around it. -/
structure TriggerText where
  lead : Text
  first : Text
  gap1 : Text
  second : Text
  gap2 : Text
  word : Text
  gap3 : Text
  date : Text
  tail : Text

namespace TriggerText

def line (t : TriggerText) : Text :=
  t.first ++ (t.gap1 ++ (t.second ++ (t.gap2 ++ (t.word ++ (t.gap3 ++ t.date)))))

def render (t : TriggerText) : Text := t.lead ++ (t.line ++ t.tail)

/-- The date is any text that stands on one line and neither begins nor ends with a blank. -/
structure WellFormed (t : TriggerText) : Prop where
  lead : ∀ c ∈ t.lead, isSpace c = true
  first : t.first ∈ (Regex.icase "begin").language
  gap1 : t.gap1 ∈ (Regex.plus Regex.space).language
  second : t.second ∈ (Regex.icase "triggerblock").language
  gap2 : t.gap2 ∈ (Regex.plus Regex.space).language
  word : t.word ∈ (Regex.plus Regex.wordChar).language
  gap3 : t.gap3 ∈ (Regex.plus Regex.space).language
  date : t.date ∈ (Regex.plus Regex.dot).language
  head : ∀ c ∈ t.date.head?, isSpace c = false
  last : ∀ c ∈ t.date.getLast?, isSpace c = false
  tail : ∀ c ∈ t.tail, isSpace c = true

end TriggerText

section Trigger

variable {t : TriggerText}

theorem icase_isSpace {s : String} (plain : s.toList.all (fun a => !isSpace a.toLower) = true)
    {w : Text} (h : w ∈ (Regex.icase s).language) : ∀ c ∈ w, isSpace c = false := by
  have letters : ∀ a ∈ s.toList, isSpace a.toLower = false := by simpa using List.all_eq_true.mp plain
  clear plain
  rw [Regex.icase, Regex.mem_word_iff] at h
  generalize s.toList = as at h letters
  induction h with
  | nil => exact fun c hc => (List.not_mem_nil hc).elim
  | @cons a b as bs same _ ih =>
    refine List.forall_mem_cons.mpr ⟨?_, ih fun c hc => letters c (List.mem_cons_of_mem _ hc)⟩
    cases blank : isSpace b with
    | false => rfl
    | true =>
      have lower : a.toLower = b := (of_decide_eq_true same).trans (isSpace_toLower blank)
      rw [← letters a List.mem_cons_self, lower, blank]

theorem wordChar_isSpace {c : Char} (h : (c.isAlphanum || c = '_') = true) : isSpace c = false := by
  cases blank : isSpace c with
  | false => rfl
  | true =>
    have small : c.toNat ≤ 32 := by
      simp only [isSpace, Bool.or_eq_true, Bool.and_eq_true, decide_eq_true_eq] at blank
      rcases blank with rfl | ⟨-, high⟩
      · decide
      · omega
    unfold Char.isAlphanum Char.isAlpha Char.isUpper Char.isLower Char.isDigit at h
    simp only [Bool.or_eq_true, Bool.and_eq_true, decide_eq_true_eq, ge_iff_le,
      UInt32.le_iff_toNat_le] at h
    have val : c.val.toNat = c.toNat := rfl
    rw [val] at h
    rcases h with ((⟨low, -⟩ | ⟨low, -⟩) | ⟨low, -⟩) | rfl
    · exact absurd (low.trans small) (by decide)
    · exact absurd (low.trans small) (by decide)
    · exact absurd (low.trans small) (by decide)
    · exact absurd blank (by decide)

theorem trigger_words (h : t.WellFormed) : (∀ c ∈ t.first, isSpace c = false) ∧
    (∀ c ∈ t.second, isSpace c = false) ∧
    ∀ c ∈ t.word, isSpace c = false := by
  refine ⟨icase_isSpace (by decide) h.first, icase_isSpace (by decide) h.second, fun c hc => ?_⟩
  exact wordChar_isSpace ((Regex.mem_plus_one_iff.mp h.word).2 c hc)

theorem trimCopy_render (h : t.WellFormed) : trimCopy t.render = t.line := by
  obtain ⟨first, -, -⟩ := trigger_words h
  have ne : t.first ≠ [] := by
    intro none
    have mem := h.first
    rw [none] at mem
    exact absurd mem (by decide)
  obtain ⟨dateNe, -⟩ := Regex.mem_plus_one_iff.mp h.date
  have start : t.line.dropWhile isSpace = t.line := by
    cases hf : t.first with
    | nil => exact absurd hf ne
    | cons c rest =>
      have plain : isSpace c = false := first c (by simp [hf])
      rw [TriggerText.line, hf, List.cons_append, List.dropWhile_cons_of_neg (by simp [plain])]
  have stop : t.line.rdropWhile isSpace = t.line := by
    have last := List.dropLast_append_getLast dateNe
    have plain : isSpace (t.date.getLast dateNe) = false :=
      h.last _ (List.getLast?_eq_some_getLast dateNe)
    rw [TriggerText.line, ← last]
    simp only [← List.append_assoc]
    exact List.rdropWhile_concat_neg _ _ _ (by simp [plain])
  rw [TriggerText.render, ← List.append_assoc, trimCopy_append h.tail, trimCopy,
    List.dropWhile_append_of_pos h.lead, start, stop]

theorem trigger_render (h : t.WellFormed) : AscReader.IsTrigger t.render := by
  have date : t.date ∈ (Regex.sequence [Regex.plus Regex.dot]).language := by
    have last := append_mem_sequence h.date (mem_sequence_nil.mpr rfl)
    rwa [List.append_nil] at last
  rw [AscReader.IsTrigger, trimCopy_render h]
  exact append_mem_sequence h.first (append_mem_sequence h.gap1 (append_mem_sequence h.second
    (append_mem_sequence h.gap2 (append_mem_sequence h.word (append_mem_sequence h.gap3 date)))))

/-- The fourth part of the line is the date, whatever blanks are in it. -/
theorem splitWhitespaceLimit_line (h : t.WellFormed) :
    splitWhitespaceLimit t.line 3 = [t.first, t.second, t.word, t.date] := by
  obtain ⟨first, second, word⟩ := trigger_words h
  have gap {g : Text} (hg : g ∈ (Regex.plus Regex.space).language) : g ≠ [] ∧
    ∀ c ∈ g, isSpace c = true :=
    Regex.mem_plus_one_iff.mp hg
  have filled {s : String} {w : Text} (some' : [] ∉ (Regex.icase s).language)
    (hw : w ∈ (Regex.icase s).language) : w ≠ [] := fun none => some' (none ▸ hw)
  have stop {g : Text} (rest : Text) (hg : g ∈ (Regex.plus Regex.space).language) :
      ∀ c ∈ (g ++ rest).head?, isSpace c = true := by
    intro c hc
    rw [List.head?_append_of_ne_nil _ (gap hg).1] at hc
    exact (gap hg).2 c (List.mem_of_mem_head? hc)
  have dateNe : t.date ≠ [] := (Regex.mem_plus_one_iff.mp h.date).1
  have loop : splitLoop isSpace 3 t.line = ([t.first, t.second, t.word], t.gap3 ++ t.date) := by
    have one := @splitLoop_word Char isSpace 2 [] t.first _ (by simp) (filled (by decide) h.first) first
      (stop (t.second ++ (t.gap2 ++ (t.word ++ (t.gap3 ++ t.date)))) h.gap1)
    have two := @splitLoop_word Char isSpace 1 t.gap1 t.second _ (gap h.gap1).2
      (filled (by decide) h.second) second
      (stop (t.word ++ (t.gap3 ++ t.date)) h.gap2)
    have three := @splitLoop_word Char isSpace 0 t.gap2 t.word _ (gap h.gap2).2
      (Regex.mem_plus_one_iff.mp h.word).1
      word (stop t.date h.gap3)
    rw [two, three] at one
    exact one
  rw [splitWhitespaceLimit, splitLimit, loop]
  cases hd : t.date with
  | nil => exact absurd hd dateNe
  | cons c rest =>
    have plain : isSpace c = false := h.head c (by simp [hd])
    simp only [List.dropWhile_append_of_pos (gap h.gap3).2,
      List.dropWhile_cons_of_neg (show ¬ isSpace c = true by simp [plain])]
    rfl

/-- A trigger line sets the start time to that of its date, and to zero where the date is none. -/
theorem triggerTime_line (base : Base) (mktime : Tm → Int) (h : t.WellFormed) :
    (platformReader base false mktime).triggerTime (trimCopy t.render) =
      (datetimeToTimestamp mktime t.date).toOption.getD Binary64.zero := by
  simp only [trimCopy_render h, AscReader.triggerTime, platformReader, splitWhitespaceLimit_line h,
    Bool.false_eq_true, if_false, List.getElem?_cons_succ, List.getElem?_cons_zero, Option.bind_some]

end Trigger

namespace AscReader

variable {reader : AscReader}

theorem startTimes_untriggered {before lines : List Text} (none : ∀ raw ∈ lines, ¬ IsTrigger raw) :
    ∀ t ∈ reader.startTimes before lines, t = reader.startTimeAfter before := by
  induction lines generalizing before with
  | nil => exact fun t ht => (List.not_mem_nil ht).elim
  | cons raw lines ih =>
    obtain ⟨first, rest⟩ := List.forall_mem_cons.mp none
    have same : reader.startTimeAfter (before ++ [raw]) = reader.startTimeAfter before := by
      simp [startTimeAfter, first]
    have later := @ih (before ++ [raw]) rest
    rw [same] at later
    simp only [startTimes]
    split
    next => exact List.forall_mem_cons.mpr ⟨rfl, later⟩
    next => exact later

theorem zipWith_since_of_forall {times : List Binary64} {records : List LogRecord} {time : Binary64}
    (size : times.length = records.length) (same : ∀ t ∈ times, t = time) :
    List.zipWith LogRecord.since times records = records.map (LogRecord.since time) := by
  induction times generalizing records with
  | nil => rw [List.length_eq_zero_iff.mp size.symm, List.zipWith_nil_left, List.map_nil]
  | cons t times ih =>
    cases records with
    | nil => cases size
    | cons r records =>
      obtain ⟨first, rest⟩ := List.forall_mem_cons.mp same
      rw [List.zipWith_cons_cons, List.map_cons, first, ih (Nat.succ.inj size) rest]

/-- A trigger line in front of lines that open no other block moves all their records. -/
theorem readAll_trigger {raw text : Text} (line : '\n' ∉ raw) (trigger : IsTrigger raw)
    (once : ∀ raw ∈ getLines text, ¬ IsTrigger raw) : reader.readAll (raw ++ '\n' :: text) =
      (reader.relative.readAll text).map
        (List.map (LogRecord.since (reader.triggerTime (trimCopy raw)))) := by
  have outcome : reader.relative.parseLine Binary64.zero raw =
      .startTime (reader.relative.triggerTime (trimCopy raw)) :=
        parseLine_startTime_iff.mpr ⟨trigger, rfl⟩
  have first : reader.relative.readAll (raw ++ '\n' :: text) = reader.relative.readAll text := by
    rw [readAll_relative rfl, readAll_relative rfl, getLines_cons line, lineRecords, outcome]
  obtain ⟨since, size⟩ := @nextLoop_since reader [] (getLines (raw ++ '\n' :: text)) _
    (Nat.lt_succ_self _)
  rw [← @readAll_relative reader.relative rfl, first] at since size
  have times : ∀ time ∈ reader.startTimes [] (getLines (raw ++ '\n' :: text)), time =
    reader.triggerTime (trimCopy raw) := by
    have last : reader.startTimeAfter [raw] = reader.triggerTime (trimCopy raw) := by
      simp [startTimeAfter, trigger]
    have later := @startTimes_untriggered reader [raw] (getLines text) once
    rw [last] at later
    rw [getLines_cons line, startTimes, outcome]
    exact later
  refine since.trans ?_
  cases read : reader.relative.readAll text with
  | error i => rfl
  | ok records => exact congrArg Except.ok (zipWith_since_of_forall (size records read) times)

end AscReader

section Logs

variable {t : TriggerText}

/-- A log whose only trigger line is its first: every record is moved by the time of the date,
however far into the log it stands. -/
theorem dated_log (base : Base) (mktime : Tm → Int) (h : t.WellFormed)
    (line : '\n' ∉ t.render) {text : Text} (once : ∀ raw ∈ getLines text, ¬ AscReader.IsTrigger raw) :
    (platformReader base false mktime).readAll (t.render ++ '\n' :: text) =
      ((platformReader base true mktime).readAll text).map (List.map (LogRecord.since
        ((datetimeToTimestamp mktime t.date).toOption.getD Binary64.zero))) := by
  have relative : (platformReader base false mktime).relative = platformReader base true mktime := by
    simp only [AscReader.relative, platformReader]
  rw [AscReader.readAll_trigger line (trigger_render h) once, relative, triggerTime_line base mktime h]

/-- The line as the tools write it, with the carriage return of a file from Windows. -/
def sampleTrigger : TriggerText :=
  ⟨[], "Begin".toList, [' '], "Triggerblock".toList, [' '], "Thu".toList, [' '],
    "Apr 28 10:44:52.502 am 2023".toList, ['\r']⟩

theorem dated_log_sample : (platformReader .hex false fun _ => 1682664292).readAll
      (sampleTrigger.render ++ '\n' :: "0.1 1 123 Rx d 1 01".toList) =
    ((platformReader .hex true fun _ => 1682664292).readAll "0.1 1 123 Rx d 1 01".toList).map
      (List.map (LogRecord.since
        ((datetimeToTimestamp (fun _ => 1682664292) sampleTrigger.date).toOption.getD
          Binary64.zero))) :=
  dated_log .hex _ ⟨by simp [sampleTrigger], by decide +kernel, by decide +kernel, by decide +kernel,
    by decide +kernel, by decide +kernel, by decide +kernel, by decide +kernel,
    by simp [sampleTrigger]; decide, by simp [sampleTrigger]; decide,
    by simp [sampleTrigger]; decide⟩
    (by decide +kernel) (by decide +kernel)

end Logs

end FsCore
