import FsCore.DateForms

namespace FsCore

/-- A text without one of the characters of a word does not contain the word. -/
theorem not_infix_of_mem {α : Type} {word text : List α} {a : α} (mem : a ∈ word) (absent : a ∉ text) :
    ¬ word <:+: text := fun h => absent (h.subset mem)

theorem substitute_of_not_infix {α : Type} [DecidableEq α] {old new text : List α}
    (h : ¬ old <:+: text) : substitute old new 0 text = text :=
  substitute_none fun i _ here => h (here.isInfix.trans (List.drop_suffix i text).isInfix)

theorem replaceAllCopy_eq {old : Text} (ne : old ≠ []) (text new : Text) :
    replaceAllCopy text old new = substitute old new 0 text := by
  rw [replaceAllCopy, if_neg ne, replaceLoop_eq ne (Nat.zero_le _) (by omega),
    List.take_zero, List.drop_zero, List.nil_append]

section Names

/-- What the table of names gives to every replacement: a name begins with a character that stands
behind the first place of no name, none begins with another one, and the numbers are digits. -/
theorem monthNames_apart : ∀ name ∈ monthNames, name.1 ≠ [] ∧ name.2 ≠ [] ∧
    name.1.all (fun c => !c.isDigit) = true ∧ name.2.all Char.isDigit = true ∧
    ∀ other ∈ monthNames, name.1.head?.all (fun c => !other.1.tail.contains c) = true ∧
      (name.1 <+: other.1 ∨ other.1 <+: name.1 → name = other) := by
  decide +kernel

theorem not_mem_number {name other : Text × Text} (hn : name ∈ monthNames) (ho : other ∈ monthNames) :
    ∀ c ∈ name.1, c ∉ other.2 := by
  obtain ⟨-, -, letters, -⟩ := monthNames_apart name hn
  obtain ⟨-, -, -, numbers, -⟩ := monthNames_apart other ho
  intro c hc mem
  have digit := List.all_eq_true.mp numbers c mem
  simpa [digit] using List.all_eq_true.mp letters c hc

theorem replaceNames_no_name {names : List (Text × Text)}
    (known : ∀ name ∈ names, name ∈ monthNames) {text : Text} {name : Text × Text}
    (hn : name ∈ monthNames) (h : name ∈ names ∨ ¬ name.1 <:+: text) :
    ¬ name.1 <:+: replaceNames names text := by
  induction names generalizing text with
  | nil => exact h.resolve_left List.not_mem_nil
  | cons other names ih =>
    have ho := known other List.mem_cons_self
    obtain ⟨old, new, -⟩ := monthNames_apart other ho
    refine ih (fun n hn => known n (List.mem_cons_of_mem _ hn)) ?_
    dsimp only
    rw [replaceAllCopy_eq old]
    rcases h with h | h
    · rcases List.mem_cons.mp h with rfl | later
      · exact .inr (not_infix_substitute new old (not_mem_number hn ho))
      · exact .inl later
    · obtain ⟨word, -⟩ := monthNames_apart name hn
      exact .inr fun found => h (infix_of_infix_substitute new word (not_mem_number hn ho) found)

/-- No month name is left in a text once the names are replaced, whatever the text was. -/
theorem normalizeDate_no_name (s : Text) {name : Text × Text} (hn : name ∈ monthNames) :
    ¬ name.1 <:+: normalizeDate s :=
  replaceNames_no_name (fun _ h => h) hn (.inl hn)

/-- A text in which every name misses a character. -/
def Nameless (text : Text) : Prop := ∀ name ∈ monthNames, ∃ c ∈ name.1, c ∉ text

theorem replaceAllCopy_nameless {name : Text × Text} (hn : name ∈ monthNames) {text : Text}
    (none : Nameless text) : replaceAllCopy text name.1 name.2 = text := by
  obtain ⟨c, mem, absent⟩ := none name hn
  obtain ⟨word, -⟩ := monthNames_apart name hn
  rw [replaceAllCopy_eq word, substitute_of_not_infix (not_infix_of_mem mem absent)]

theorem replaceNames_nameless {names : List (Text × Text)}
    (known : ∀ name ∈ names, name ∈ monthNames) {text : Text} (none : Nameless text) :
    replaceNames names text = text := by
  induction names with
  | nil => rfl
  | cons other names ih =>
    have first := replaceAllCopy_nameless (known other List.mem_cons_self) none
    rw [replaceNames, List.foldl_cons, first]
    exact ih fun n hn => known n (List.mem_cons_of_mem _ hn)

/-- The replacement of one name passes over another one. -/
theorem replaceAllCopy_other {name other : Text × Text} (hn : name ∈ monthNames)
    (ho : other ∈ monthNames) (ne : other ≠ name) {tail : Text} (none : Nameless tail) :
    replaceAllCopy (name.1 ++ tail) other.1 other.2 = name.1 ++ tail := by
  obtain ⟨word, -, -, -, apart⟩ := monthNames_apart other ho
  obtain ⟨head, same⟩ := apart name hn
  obtain ⟨c, mem, absent⟩ := none other ho
  rw [replaceAllCopy_eq word, substitute_before, substitute_of_not_infix (not_infix_of_mem mem absent)]
  intro i hi here
  cases i with
  | zero => exact ne (same (List.prefix_or_prefix_of_prefix here (List.prefix_append _ _)))
  | succ i =>
    rw [List.drop_append_of_le_length hi.le, List.drop_eq_getElem_cons hi, List.cons_append] at here
    cases hw : other.1 with
    | nil => exact word hw
    | cons a as =>
      rw [hw] at here
      have first : a = name.1[i + 1] := (List.cons_prefix_cons.mp here).1
      have inside : a ∈ name.1.tail :=
        List.mem_of_getElem? (by rw [List.getElem?_tail, List.getElem?_eq_getElem hi, first])
      simp [hw, inside] at head

/-- A name in front of a text without names is replaced, by its own number. -/
theorem normalizeDate_name {name : Text × Text} (hn : name ∈ monthNames) {tail : Text}
    (none : Nameless tail) (number : Nameless (name.2 ++ tail)) : normalizeDate (name.1 ++ tail) =
      name.2 ++ tail := by
  suffices all : ∀ names, (∀ n ∈ names, n ∈ monthNames) → name ∈ names →
      replaceNames names (name.1 ++ tail) = name.2 ++ tail from all monthNames (fun _ h => h) hn
  intro names
  induction names with
  | nil => exact fun _ mem => absurd mem List.not_mem_nil
  | cons other names ih =>
    intro known mem
    have later : ∀ n ∈ names, n ∈ monthNames := fun n hn => known n (List.mem_cons_of_mem _ hn)
    rw [replaceNames, List.foldl_cons]
    by_cases same : other = name
    · subst same
      obtain ⟨word, -⟩ := monthNames_apart other hn
      obtain ⟨c, inside, absent⟩ := none other hn
      rw [replaceAllCopy_eq word, substitute_here word,
        substitute_of_not_infix (not_infix_of_mem inside absent)]
      exact replaceNames_nameless later number
    · rw [replaceAllCopy_other hn (known other List.mem_cons_self) same none]
      exact ih later ((List.mem_cons.mp mem).resolve_left (Ne.symm same))

end Names

section Dates

/-- The characters of a date whose month is a number. -/
def dateChar (c : Char) : Bool := c.isDigit || isSpace c || ":.AaPpMm".toList.contains c

def Dated (p : Piece Char) : Prop := ∀ c, p.accepts c = true → dateChar c = true

theorem datePattern_dated (fraction half : Bool) : ∀ p ∈ datePattern fraction half, Dated p := by
  have digit (least most : Nat) : Dated (digits least most) := by
    intro c h
    have h : c.isDigit = true := h
    simp [dateChar, h]
  have blank : Dated blanks := by
    intro c h
    have h : isSpace c = true := h
    simp [dateChar, h]
  have letter (cs : String) (all : cs.toList.all dateChar = true) : Dated (oneOf cs) :=
    fun c h => List.all_eq_true.mp all c (oneOf_accepts h)
  have colon := letter ":" (by decide)
  have point := letter "." (by decide)
  have first := letter "AaPp" (by decide)
  have second := letter "Mm" (by decide)
  cases fraction <;> cases half <;>
    simp [datePattern, dateFront, dateFraction, dateHalf, dateYear, digit, blank, colon,
      point, first, second]

theorem nameless_of_dateChar {text : Text} (h : ∀ c ∈ text, dateChar c = true) : Nameless text := by
  have rare : ∀ name ∈ monthNames, name.1.any (fun c => !dateChar c) = true := by decide +kernel
  intro name hn
  obtain ⟨c, mem, other⟩ := List.any_eq_true.mp (rare name hn)
  exact ⟨c, mem, fun inside => by simp [h c inside] at other⟩

theorem render_dateChar {d : DateText} (h : d.WellFormed) : ∀ c ∈ d.render, dateChar c = true :=
  fits_flatten (datePattern_dated _ _) (wellFormed_iff.mp h)

/-- The time of a date on a platform. -/
def DateText.timestamp (mktime : Tm → Int) (d : DateText) : Parse Binary64 :=
  if mktime d.parsed.tm = -1 then throwText "Incompatible datetime string".toList
  else .ok ((Binary64.ofInt (mktime d.parsed.tm)).add d.seconds)

/-- A date in any of the forms, its month a number or a name of that number in either language,
with whatever blanks, is read as the time of that date. -/
theorem rendered_date_timestamp (mktime : Tm → Int) {d : DateText} (h : d.WellFormed) :
    datetimeToTimestamp mktime d.render = d.timestamp mktime ∧
      ∀ name ∈ monthNames, name.2 = d.month →
        datetimeToTimestamp mktime ({ d with month := name.1 } : DateText).render =
          d.timestamp mktime := by
  have chars := render_dateChar h
  have plain : normalizeDate d.render = d.render :=
    replaceNames_nameless (fun _ hn => hn) (nameless_of_dateChar chars)
  refine ⟨datetimeToTimestamp_render mktime h plain.symm, fun name hn number => ?_⟩
  have later : Nameless d.later.flatten :=
    nameless_of_dateChar fun c hc => chars c (List.mem_append_right _ hc)
  have named : normalizeDate ({ d with month := name.1 } : DateText).render = d.render := by
    have whole : d.render = name.2 ++ d.later.flatten := by
      rw [number]
      rfl
    rw [whole]
    exact normalizeDate_name hn later (whole ▸ nameless_of_dateChar chars)
  exact datetimeToTimestamp_render mktime h named.symm

/-- The seventh of March, in the afternoon. -/
def sampleDate : DateText :=
  ⟨"03".toList, [' '], "7".toList, "  ".toList, "2".toList, "05".toList, "09".toList, some "25".toList,
    some ([' '], ['P'], ['m']), [' '], "2023".toList⟩

theorem rendered_date_sample :
    datetimeToTimestamp (fun _ => 1678197909) sampleDate.render = sampleDate.timestamp
      (fun _ => 1678197909) ∧
      ∀ name ∈ monthNames, name.2 = sampleDate.month →
        datetimeToTimestamp (fun _ => 1678197909)
          ({ sampleDate with month := name.1 } : DateText).render =
          sampleDate.timestamp (fun _ => 1678197909) :=
  rendered_date_timestamp _
    ⟨by decide, by decide, by decide, by decide, by decide, by decide, by decide, by decide,
    by decide, by decide, by decide⟩

end Dates

end FsCore
