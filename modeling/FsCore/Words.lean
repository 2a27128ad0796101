import Mathlib.Data.List.DropRight

namespace FsCore

variable {α : Type} (p : α → Bool)

/-- Scans up to `k` words off a list, skipping separators before each of them;
with what is left after the last word. -/
def splitLoop : Nat → List α → List (List α) × List α
  | 0, s => ([], s)
  | k + 1, s =>
    match s.dropWhile p with
    | [] => ([], [])
    | a :: t =>
      let rest := splitLoop k ((a :: t).dropWhile (fun c => !p c))
      ((a :: t).takeWhile (fun c => !p c) :: rest.1, rest.2)

/-- All words of a list: there are no more than it has elements. -/
def words (s : List α) : List (List α) := (splitLoop p s.length s).1

/-- At most `k` words and then the rest in one piece. -/
def splitLimit (s : List α) (k : Nat) : List (List α) :=
  match (splitLoop p k s).2.dropWhile p with
  | [] => (splitLoop p k s).1
  | a :: rest => (splitLoop p k s).1 ++ [a :: rest]

variable {p}

theorem splitLoop_succ_nil {k : Nat} {s : List α} (h : s.dropWhile p = []) :
    splitLoop p (k + 1) s = ([], []) := by
  rw [splitLoop, h]

theorem splitLoop_succ_cons {k : Nat} {s t : List α} {a : α} (h : s.dropWhile p = a :: t) :
    splitLoop p (k + 1) s =
      ((a :: t).takeWhile (fun c => !p c) :: (splitLoop p k ((a :: t).dropWhile (fun c => !p c))).1,
        (splitLoop p k ((a :: t).dropWhile (fun c => !p c))).2) := by
  rw [splitLoop, h]

theorem not_sep_of_dropWhile {s t : List α} {a : α} (h : s.dropWhile p = a :: t) : p a = false := by
  have sep := List.head?_dropWhile_not p s
  rw [h] at sep
  simpa using sep

/-- A word that is taken off makes the list shorter. -/
theorem length_after_word {s t : List α} {a : α} (h : s.dropWhile p = a :: t) :
    ((a :: t).dropWhile (fun c => !p c)).length < s.length := by
  have sep := not_sep_of_dropWhile h
  have short : (t.dropWhile (fun c => !p c)).length ≤ t.length := (List.dropWhile_suffix _).length_le
  have long : t.length + 1 ≤ s.length := by
    have := (List.dropWhile_suffix (l := s) p).length_le
    rwa [h] at this
  rw [List.dropWhile_cons, sep]
  simp only [Bool.not_false, if_true]
  omega

theorem splitLoop_add (j k : Nat) (s : List α) :
    splitLoop p (j + k) s = ((splitLoop p j s).1 ++ (splitLoop p k (splitLoop p j s).2).1,
      (splitLoop p k (splitLoop p j s).2).2) := by
  induction j generalizing s with
  | zero => simp [splitLoop]
  | succ j ih =>
    rw [show j + 1 + k = j + k + 1 by omega]
    cases h : s.dropWhile p with
    | nil =>
      rw [splitLoop_succ_nil h, splitLoop_succ_nil h]
      cases k <;> rfl
    | cons a t => rw [splitLoop_succ_cons h, splitLoop_succ_cons h, ih, List.cons_append]

theorem splitLoop_blank {s : List α} (h : s.dropWhile p = []) (k : Nat) :
    (splitLoop p k s).1 = [] := by
  cases k with
  | zero => rfl
  | succ k => rw [splitLoop_succ_nil h]

theorem splitLoop_snd_length (k : Nat) (s : List α) : (splitLoop p k s).2.length ≤ s.length := by
  induction k generalizing s with
  | zero => exact le_rfl
  | succ k ih =>
    cases h : s.dropWhile p with
    | nil => simp [splitLoop_succ_nil h]
    | cons a t =>
      rw [splitLoop_succ_cons h]
      exact (ih _).trans (length_after_word h).le

/-- With a step for each element nothing but separators is left. -/
theorem splitLoop_snd_of_le {k : Nat} {s : List α} (h : s.length ≤ k) :
    (splitLoop p k s).2.dropWhile p = [] := by
  induction k generalizing s with
  | zero => rw [List.length_eq_zero_iff.mp (Nat.le_zero.mp h)]; rfl
  | succ k ih =>
    cases hs : s.dropWhile p with
    | nil => rw [splitLoop_succ_nil hs]; rfl
    | cons a t =>
      rw [splitLoop_succ_cons hs]
      exact ih (by have := length_after_word hs; omega)

theorem splitLoop_fst_of_le {k : Nat} {s : List α} (h : s.length ≤ k) :
    (splitLoop p k s).1 = words p s := by
  rw [← Nat.add_sub_cancel' h, splitLoop_add, splitLoop_blank (splitLoop_snd_of_le le_rfl),
    List.append_nil, words]

theorem words_eq_append (k : Nat) (s : List α) :
    words p s = (splitLoop p k s).1 ++ words p (splitLoop p k s).2 := by
  rw [← splitLoop_fst_of_le (Nat.le_add_left s.length k), splitLoop_add,
    splitLoop_fst_of_le (splitLoop_snd_length k s)]

/-- The loop stops early only at the end of the list. -/
theorem splitLoop_length (k : Nat) (s : List α) :
    (splitLoop p k s).1.length = k ∨ (splitLoop p k s).1.length ≤ k ∧ (splitLoop p k s).2 = [] := by
  induction k generalizing s with
  | zero => exact .inl rfl
  | succ k ih =>
    cases h : s.dropWhile p with
    | nil => exact .inr (by simp [splitLoop_succ_nil h])
    | cons a t =>
      rw [splitLoop_succ_cons h]
      simpa using ih _

theorem words_dropWhile (s : List α) : words p (s.dropWhile p) = words p s := by
  rw [← splitLoop_fst_of_le (List.dropWhile_suffix (l := s) p).length_le, words]
  cases hs : s.length with
  | zero => rfl
  | succ n =>
    cases h : s.dropWhile p with
    | nil => rw [splitLoop_succ_nil h, splitLoop_succ_nil rfl]
    | cons a t =>
      have again : (a :: t).dropWhile p = a :: t := by
        rw [← h]
        exact List.dropWhile_idempotent ..
      rw [splitLoop_succ_cons h, splitLoop_succ_cons again]

theorem words_eq_nil_iff {s : List α} : words p s = [] ↔ s.dropWhile p = [] := by
  cases h : s.dropWhile p with
  | nil => simp [words, splitLoop_blank h]
  | cons a t =>
    have long : 0 < s.length := by
      have := length_after_word h
      omega
    rw [words, show s.length = s.length - 1 + 1 by omega, splitLoop_succ_cons h]
    simp

/-- The first word of a list that begins with one. -/
theorem words_eq_cons {s w : List α} {ws : List (List α)} (tight : s.dropWhile p = s)
    (h : words p s = w :: ws) : w = s.takeWhile (fun c => !p c) := by
  cases s with
  | nil => cases h
  | cons a t =>
    rw [words, List.length_cons, splitLoop_succ_cons tight] at h
    exact (List.cons.inj h).1.symm

/-- A list begins with a gap and a word, or there is no word in it. -/
theorem word_split (s : List α) : s.dropWhile p = [] ∨ ∃ gap w rest, s = gap ++ (w ++ rest) ∧
    (∀ c ∈ gap, p c = true) ∧ w ≠ [] ∧ (∀ c ∈ w, p c = false) ∧ (∀ c ∈ rest.head?, p c = true) ∧
    rest.length < s.length := by
  cases h : s.dropWhile p with
  | nil => exact Or.inl rfl
  | cons a t =>
    refine Or.inr ⟨s.takeWhile p, (a :: t).takeWhile (fun c => !p c),
      (a :: t).dropWhile (fun c => !p c), ?_,
      fun c hc => List.mem_takeWhile_imp hc, ?_, fun c hc => ?_, ?_, length_after_word h⟩
    · rw [List.takeWhile_append_dropWhile, ← h, List.takeWhile_append_dropWhile]
    · rw [List.takeWhile_cons_of_pos (by simp [not_sep_of_dropWhile h])]
      simp
    · simpa using List.mem_takeWhile_imp hc
    · have sep := List.head?_dropWhile_not (fun c => !p c) (a :: t)
      intro c hc
      rw [Option.mem_def.mp hc] at sep
      simpa using sep

theorem words_gap {gap s : List α} (hgap : ∀ c ∈ gap, p c = true) : words p (gap ++ s) = words p s := by
  rw [← words_dropWhile (gap ++ s), List.dropWhile_append_of_pos hgap, words_dropWhile]

theorem words_word {w rest : List α} (ne : w ≠ []) (hw : ∀ c ∈ w, p c = false)
    (hrest : ∀ c ∈ rest.head?, p c = true) : words p (w ++ rest) = w :: words p rest := by
  have all (c : α) (hc : c ∈ w) : (!p c) = true := by rw [hw c hc]; rfl
  have stop : rest.takeWhile (fun c => !p c) = [] := by
    cases rest with
    | nil => rfl
    | cons c rest => exact List.takeWhile_cons_of_neg (by simp [hrest c rfl])
  have whole : (w ++ rest).takeWhile (fun c => !p c) = w := by
    rw [List.takeWhile_append_of_pos all, stop, List.append_nil]
  have left : (w ++ rest).dropWhile (fun c => !p c) = rest := by
    have both := List.takeWhile_append_dropWhile (p := fun c => !p c) (l := w ++ rest)
    rw [whole] at both
    exact List.append_cancel_left both
  cases w with
  | nil => exact absurd rfl ne
  | cons a t =>
    have tight : (a :: t ++ rest).dropWhile p = a :: (t ++ rest) := by
      rw [List.cons_append, List.dropWhile_cons_of_neg (by simp [hw a (by simp)])]
    rw [List.cons_append] at whole left tight
    rw [words, List.cons_append, List.length_cons, splitLoop_succ_cons tight, whole, left,
      splitLoop_fst_of_le (by simp)]

theorem mem_words {s w : List α} (h : w ∈ words p s) : w ≠ [] ∧ ∀ c ∈ w, p c = false := by
  induction hn : s.length using Nat.strong_induction_on generalizing s with
  | _ n ih =>
    rcases word_split (p := p) s with blank | ⟨gap, first, rest, rfl, hgap, ne, hw, hrest, short⟩
    · rw [words_eq_nil_iff.mpr blank] at h
      cases h
    · rw [words_gap hgap, words_word ne hw hrest] at h
      rcases List.mem_cons.mp h with rfl | h
      · exact ⟨ne, hw⟩
      · exact ih rest.length (by omega) h rfl

/-- Separators at the end are not seen. -/
theorem words_append_gap {s gap : List α} (hgap : ∀ c ∈ gap, p c = true) :
    words p (s ++ gap) = words p s := by
  induction hn : s.length using Nat.strong_induction_on generalizing s with
  | _ n ih =>
    rcases word_split (p := p) s with blank | ⟨before, w, rest, rfl, hbefore, ne, hw, hrest, short⟩
    · have all : ∀ c ∈ s, p c = true := List.dropWhile_eq_nil_iff.mp blank
      rw [words_gap all, words_eq_nil_iff.mpr blank, words_eq_nil_iff, List.dropWhile_eq_nil_iff]
      exact hgap
    · have hrest' : ∀ c ∈ (rest ++ gap).head?, p c = true := by
        intro c hc
        cases rest with
        | nil => exact hgap c (List.mem_of_mem_head? hc)
        | cons a rest => exact hrest c hc
      rw [List.append_assoc, List.append_assoc, words_gap hbefore, words_gap hbefore,
        words_word ne hw hrest', words_word ne hw hrest, ih rest.length (by omega) rfl]

theorem words_rdropWhile (s : List α) : words p (s.rdropWhile p) = words p s := by
  have both : s.rdropWhile p ++ s.rtakeWhile p = s := List.rdropWhile_append_rtakeWhile
  have hgap : ∀ c ∈ s.rtakeWhile p, p c = true := fun c hc => List.mem_rtakeWhile_imp hc
  calc words p (s.rdropWhile p)
      = words p (s.rdropWhile p ++ s.rtakeWhile p) := (words_append_gap hgap).symm
    _ = words p s := by rw [both]

theorem splitLimit_of_le {s : List α} {k : Nat} (h : (words p s).length ≤ k) :
    splitLimit p s k = words p s := by
  have split := words_eq_append (p := p) k s
  have none : words p (splitLoop p k s).2 = [] := by
    rcases splitLoop_length (p := p) k s with full | ⟨-, rest⟩
    · rw [split, List.length_append, full] at h
      exact List.length_eq_zero_iff.mp (by omega)
    · rw [rest]
      rfl
  rw [splitLimit, words_eq_nil_iff.mp none, split, none, List.append_nil]

/-- The words that are taken off are those of the list before the rest. -/
theorem splitLoop_before (k : Nat) (s : List α) : ∃ before, s = before ++ (splitLoop p k s).2 ∧
    words p before = (splitLoop p k s).1 := by
  induction k generalizing s with
  | zero => exact ⟨[], rfl, rfl⟩
  | succ k ih =>
    cases h : s.dropWhile p with
    | nil =>
      rw [splitLoop_succ_nil h]
      exact ⟨s, (List.append_nil s).symm, words_eq_nil_iff.mpr h⟩
    | cons a t =>
      obtain ⟨before, whole, front⟩ := ih ((a :: t).dropWhile fun c => !p c)
      have first : (a :: t).takeWhile (fun c => !p c) ≠ [] := by
        rw [List.takeWhile_cons_of_pos (by simp [not_sep_of_dropWhile h])]
        exact List.cons_ne_nil _ _
      have tight : ∀ c ∈ (a :: t).takeWhile (fun c => !p c), p c = false := fun c hc => by
        simpa using List.mem_takeWhile_imp hc
      have stop : ∀ c ∈ before.head?, p c = true := by
        intro c hc
        have sep := List.head?_dropWhile_not (fun c => !p c) (a :: t)
        rw [whole, List.head?_append, Option.mem_def.mp hc] at sep
        simpa using sep
      rw [splitLoop_succ_cons h]
      refine ⟨s.takeWhile p ++ ((a :: t).takeWhile (fun c => !p c) ++ before), ?_, ?_⟩
      · rw [List.append_assoc, List.append_assoc, ← whole, List.takeWhile_append_dropWhile, ← h,
          List.takeWhile_append_dropWhile]
      · rw [words_gap fun c hc => List.mem_takeWhile_imp hc, words_word first tight stop, front]

/-- Where there are more words the rest begins with the next of them. -/
theorem splitLimit_suffix {s : List α} {k : Nat} (h : k < (words p s).length) :
    ∃ before rest, s = before ++ rest ∧ words p before = (words p s).take k ∧
      splitLimit p s k = (words p s).take k ++ [rest] ∧ words p rest = (words p s).drop k ∧
      rest.dropWhile p = rest := by
  have split := words_eq_append (p := p) k s
  rcases splitLoop_length (p := p) k s with full | ⟨short, empty⟩
  · obtain ⟨before, whole, front⟩ := splitLoop_before (p := p) k s
    let after := (splitLoop p k s).2
    refine ⟨before ++ after.takeWhile p, after.dropWhile p, ?_, ?_, ?_, ?_,
      List.dropWhile_idempotent ..⟩
    · rw [List.append_assoc, List.takeWhile_append_dropWhile, ← whole]
    · rw [words_append_gap fun c hc => List.mem_takeWhile_imp hc, front, split, List.take_left' full]
    · rw [splitLimit, split, List.take_left' full]
      cases hr : (splitLoop p k s).2.dropWhile p with
      | nil =>
        rw [split, words_eq_nil_iff.mpr hr, List.append_nil, full] at h
        exact absurd h (Nat.lt_irrefl k)
      | cons a t => rfl
    · rw [words_dropWhile, split, List.drop_left' full]
  · rw [split, empty] at h
    simp only [words, List.length_nil, splitLoop, List.append_nil] at h
    omega

theorem splitLimit_of_lt {s : List α} {k : Nat} (h : k < (words p s).length) :
    ∃ rest, splitLimit p s k = (words p s).take k ++ [rest] ∧ words p rest = (words p s).drop k ∧
      rest.dropWhile p = rest := by
  obtain ⟨_, rest, _, _, limit⟩ := splitLimit_suffix h
  exact ⟨rest, limit⟩

/-- What a split into `k` words and a rest tells about the words. -/
theorem splitLimit_eq {s rest : List α} (front : List (List α)) {k : Nat}
    (h : splitLimit p s k = front ++ [rest]) (full : front.length = k) :
    words p s = front ++ words p rest ∧ words p rest ≠ [] ∧ rest.dropWhile p = rest := by
  rcases Nat.lt_or_ge k (words p s).length with long | short
  · obtain ⟨rest', split, hrest, tight⟩ := splitLimit_of_lt long
    rw [split] at h
    obtain ⟨rfl, same⟩ := List.append_inj' h rfl
    cases same
    refine ⟨by rw [hrest, List.take_append_drop], fun none => ?_, tight⟩
    have := congrArg List.length none
    rw [hrest, List.length_drop, List.length_nil] at this
    omega
  · rw [splitLimit_of_le short] at h
    rw [h, List.length_append, full, List.length_singleton] at short
    omega

/-- Words one after another, each behind its gap. -/
def spaced : List (List α × List α) → List α → List α
  | [], tail => tail
  | (gap, word) :: parts, tail => gap ++ (word ++ spaced parts tail)

/-- The words can be told apart. -/
structure WellSpaced (p : α → Bool) (parts : List (List α × List α)) (tail : List α) : Prop where
  word : ∀ part ∈ parts, part.2 ≠ [] ∧ ∀ c ∈ part.2, p c = false
  gap : ∀ part ∈ parts, ∀ c ∈ part.1, p c = true
  between : ∀ part ∈ parts.tail, part.1 ≠ []
  tail : ∀ c ∈ tail, p c = true

instance (parts : List (List α × List α)) (tail : List α) : Decidable (WellSpaced p parts tail) :=
  decidable_of_iff ((∀ part ∈ parts, part.2 ≠ [] ∧ part.2.all (fun c => !p c) = true) ∧
      (∀ part ∈ parts, part.1.all p = true) ∧ (∀ part ∈ parts.tail, part.1 ≠ []) ∧
        tail.all p = true) <| by
    simp only [List.all_eq_true, Bool.not_eq_true']
    exact ⟨fun ⟨word, gap, between, tail⟩ => ⟨word, gap, between, tail⟩,
      fun h => ⟨h.word, h.gap, h.between, h.tail⟩⟩

theorem words_spaced {parts : List (List α × List α)} {tail : List α} (h : WellSpaced p parts tail) :
    words p (spaced parts tail) = parts.map Prod.snd := by
  induction parts with
  | nil => exact words_eq_nil_iff.mpr (List.dropWhile_eq_nil_iff.mpr h.tail)
  | cons part parts ih =>
    obtain ⟨gap, w⟩ := part
    obtain ⟨ne, hw⟩ := h.word (gap, w) (by simp)
    have rest : WellSpaced p parts tail :=
      ⟨fun q hq => h.word q (by simp [hq]), fun q hq => h.gap q (by simp [hq]),
        fun q hq => h.between q (List.mem_of_mem_tail hq), h.tail⟩
    have stop : ∀ c ∈ (spaced parts tail).head?, p c = true := by
      intro c hc
      cases parts with
      | nil => exact h.tail c (List.mem_of_mem_head? hc)
      | cons part parts =>
        obtain ⟨gap', w'⟩ := part
        have ne' : gap' ≠ [] := h.between (gap', w') (by simp)
        rw [spaced, List.head?_append_of_ne_nil _ ne'] at hc
        exact h.gap (gap', w') (by simp) c (List.mem_of_mem_head? hc)
    rw [spaced, words_gap (h.gap (gap, w) (by simp)), words_word ne hw stop, ih rest, List.map_cons]

/-- What stands before and behind the first gap of a list that begins with a word. -/
theorem words_eq_cons_split {s w : List α} {ws : List (List α)} (tight : s.dropWhile p = s)
    (h : words p s = w :: ws) : ∃ gap rest, s = w ++ (gap ++ rest) ∧ (∀ c ∈ gap, p c = true) ∧
      rest.dropWhile p = rest ∧ words p rest = ws ∧ (ws ≠ [] → gap ≠ []) := by
  let after := s.dropWhile (fun c => !p c)
  have first := words_eq_cons tight h
  have whole : s = w ++ after := by rw [first, List.takeWhile_append_dropWhile]
  have stop : ∀ c ∈ after.head?, p c = true := by
    intro c hc
    have sep := List.head?_dropWhile_not (fun c => !p c) s
    rw [Option.mem_def.mp hc] at sep
    simpa using sep
  have hw : w ≠ [] ∧ ∀ c ∈ w, p c = false := by
    refine ⟨fun none => ?_, fun c hc => ?_⟩
    · rw [none, List.nil_append] at whole
      have blank : after.dropWhile p = after := by rw [← whole, tight]
      have empty : s = [] := by
        cases ha : after with
        | nil => rw [whole, ha]
        | cons c rest =>
          rw [ha, List.dropWhile_cons_of_pos (stop c (by rw [ha]; rfl))] at blank
          have := congrArg List.length blank
          have := (List.dropWhile_suffix (l := rest) p).length_le
          simp only [List.length_cons] at *
          omega
      rw [empty] at h
      cases h
    · rw [first] at hc
      simpa using List.mem_takeWhile_imp hc
  refine ⟨after.takeWhile p, after.dropWhile p, ?_, fun c hc => List.mem_takeWhile_imp hc,
    List.dropWhile_idempotent .., ?_, fun more => ?_⟩
  · rw [List.takeWhile_append_dropWhile, ← whole]
  · rw [whole, words_word hw.1 hw.2 stop] at h
    rw [words_dropWhile, (List.cons.inj h).2]
  · cases ha : after with
    | nil =>
      rw [whole, words_word hw.1 hw.2 stop, ha] at h
      exact absurd (List.cons.inj h).2.symm more
    | cons c rest =>
      rw [List.takeWhile_cons_of_pos (stop c (by rw [ha]; rfl))]
      exact List.cons_ne_nil _ _

/-- Separators at the end do not change the word at the beginning. -/
theorem takeWhile_rdropWhile (s : List α) :
    (s.rdropWhile p).takeWhile (fun c => !p c) = s.takeWhile (fun c => !p c) := by
  induction s using List.reverseRecOn with
  | nil => rfl
  | append_singleton s c ih =>
    by_cases sep : p c
    · rw [List.rdropWhile_concat_pos _ _ _ sep, ih, List.takeWhile_append]
      split
      next whole =>
        rw [List.takeWhile_cons_of_neg (by simp [sep]), List.append_nil]
        exact List.IsPrefix.eq_of_length (List.takeWhile_prefix _) whole
      next => rfl
    · rw [List.rdropWhile_concat_neg _ _ _ sep]

/-- A word of a known length decides whether a list begins with it. -/
theorem take_takeWhile_of_length {s : List α} {n : Nat}
    (h : ((s.takeWhile (fun c => !p c)).take n).length = n) :
    (s.takeWhile (fun c => !p c)).take n = s.take n := by
  have long : n ≤ (s.takeWhile (fun c => !p c)).length := by
    rw [List.length_take] at h
    omega
  calc (s.takeWhile (fun c => !p c)).take n
      = (s.takeWhile (fun c => !p c) ++ s.dropWhile (fun c => !p c)).take n :=
        (List.take_append_of_le_length long).symm
    _ = s.take n := by rw [List.takeWhile_append_dropWhile]

theorem take_takeWhile_of_forall {s : List α} {n : Nat} (h : ∀ c ∈ s.take n, p c = false) :
    (s.takeWhile (fun c => !p c)).take n = s.take n := by
  induction s generalizing n with
  | nil => rfl
  | cons a s ih =>
    cases n with
    | zero => rfl
    | succ n =>
      rw [List.take_succ_cons] at h
      rw [List.takeWhile_cons_of_pos (by simp [h a (by simp)]), List.take_succ_cons,
        List.take_succ_cons, ih fun c hc => h c (by simp [hc])]

section Map

variable {f : α → α}

theorem dropWhile_map (keeps : ∀ a, p (f a) = p a) (s : List α) :
    (s.map f).dropWhile p = (s.dropWhile p).map f := by
  rw [List.dropWhile_map, show p ∘ f = p from funext keeps]

theorem takeWhile_map (keeps : ∀ a, p (f a) = p a) (s : List α) :
    (s.map f).takeWhile p = (s.takeWhile p).map f := by
  rw [List.takeWhile_map, show p ∘ f = p from funext keeps]

theorem splitLoop_map (keeps : ∀ a, p (f a) = p a) (k : Nat) (s : List α) :
    splitLoop p k (s.map f) = ((splitLoop p k s).1.map (List.map f), (splitLoop p k s).2.map f) := by
  induction k generalizing s with
  | zero => rfl
  | succ k ih =>
    have keeps' (a : α) : (!p (f a)) = !p a := by rw [keeps]
    cases h : s.dropWhile p with
    | nil =>
      have h' : (s.map f).dropWhile p = [] := by rw [dropWhile_map keeps, h]; rfl
      rw [splitLoop_succ_nil h, splitLoop_succ_nil h']
      rfl
    | cons a t =>
      have h' : (s.map f).dropWhile p = f a :: t.map f := by rw [dropWhile_map keeps, h]; rfl
      rw [splitLoop_succ_cons h, splitLoop_succ_cons h', ← List.map_cons, takeWhile_map keeps',
        dropWhile_map keeps', ih]
      rfl

theorem words_map (keeps : ∀ a, p (f a) = p a) (s : List α) :
    words p (s.map f) = (words p s).map (List.map f) := by
  rw [words, List.length_map, splitLoop_map keeps, words]

theorem splitLimit_map (keeps : ∀ a, p (f a) = p a) (s : List α) (k : Nat) :
    splitLimit p (s.map f) k = (splitLimit p s k).map (List.map f) := by
  unfold splitLimit
  rw [splitLoop_map keeps, dropWhile_map keeps]
  cases (splitLoop p k s).2.dropWhile p with
  | nil => rfl
  | cons a rest => simp

end Map

end FsCore
