import Mathlib.Computability.Language

namespace FsCore

open Computability

/-- Regular expressions over character classes. -/
inductive Regex (α : Type) where
  | none
  | empty
  | one (p : α → Bool)
  | seq (r s : Regex α)
  | alt (r s : Regex α)
  | star (r : Regex α)

namespace Regex

variable {α : Type}

def language : Regex α → Language α
  | none => 0
  | empty => 1
  | one p => {w | ∃ a, p a = true ∧ w = [a]}
  | seq r s => r.language * s.language
  | alt r s => r.language + s.language
  | star r => r.language∗

def plus (r : Regex α) : Regex α := seq r (star r)

/-- A fixed word, character by character. -/
def word (same : α → α → Bool) (w : List α) : Regex α :=
  w.foldr (fun a r => seq (one (same a)) r) empty

def nullable : Regex α → Bool
  | none => false
  | empty => true
  | one _ => false
  | seq r s => r.nullable && s.nullable
  | alt r s => r.nullable || s.nullable
  | star _ => true

/-- A sequence, without the parts that make it trivial. -/
def join : Regex α → Regex α → Regex α
  | none, _ => none
  | empty, s => s
  | r, s => seq r s

def either : Regex α → Regex α → Regex α
  | none, s => s
  | r, none => r
  | r, s => alt r s

/-- What remains to be matched after a character. -/
def derivative (a : α) : Regex α → Regex α
  | none => none
  | empty => none
  | one p => if p a then empty else none
  | seq r s =>
    if r.nullable then either (join (r.derivative a) s) (s.derivative a) else join (r.derivative a) s
  | alt r s => either (r.derivative a) (s.derivative a)
  | star r => join (r.derivative a) (star r)

def accepts (r : Regex α) : List α → Bool
  | [] => r.nullable
  | a :: w => (r.derivative a).accepts w

theorem language_join (r s : Regex α) : (join r s).language = r.language * s.language := by
  cases r <;> simp [join, language]

theorem language_either (r s : Regex α) : (either r s).language = r.language + s.language := by
  unfold either
  split
  next => exact (zero_add s.language).symm
  next => exact (add_zero r.language).symm
  next => rfl

theorem nullable_iff (r : Regex α) : r.nullable = true ↔ [] ∈ r.language := by
  induction r with
  | none => simp [nullable, language]
  | empty => simp [nullable, language]
  | one p =>
    constructor
    · intro h
      cases h
    · intro h
      obtain ⟨a, _, h⟩ := h
      cases h
  | seq r s hr hs =>
    rw [nullable, Bool.and_eq_true, hr, hs, language, Language.mem_mul]
    constructor
    · exact fun ⟨hr, hs⟩ => ⟨[], hr, [], hs, rfl⟩
    · intro h
      obtain ⟨u, hu, v, hv, h⟩ := h
      obtain ⟨rfl, rfl⟩ := List.append_eq_nil_iff.mp h
      exact ⟨hu, hv⟩
  | alt r s hr hs => rw [nullable, Bool.or_eq_true, hr, hs, language, Language.mem_add]
  | star r _ => simp [nullable, language, Language.nil_mem_kstar]

/-- A nonempty word of a repetition begins with a nonempty word of its body. -/
theorem cons_mem_kstar {l : Language α} {a : α} {w : List α} :
    a :: w ∈ l∗ ↔ ∃ u v, a :: u ∈ l ∧ v ∈ l∗ ∧ w = u ++ v := by
  rw [Language.mem_kstar_iff_exists_nonempty]
  constructor
  · intro h
    obtain ⟨words, flat, all⟩ := h
    cases words with
    | nil => cases flat
    | cons first rest =>
      obtain ⟨hl, ne⟩ := all first (by simp)
      cases first with
      | nil => exact absurd rfl ne
      | cons b u =>
        rw [List.flatten_cons, List.cons_append, List.cons.injEq] at flat
        obtain ⟨rfl, rfl⟩ := flat
        exact ⟨u, rest.flatten, hl,
          Language.join_mem_kstar fun y hy => (all y (by simp [hy])).1, rfl⟩
  · rintro ⟨u, v, hu, hv, rfl⟩
    obtain ⟨words, rfl, all⟩ := Language.mem_kstar_iff_exists_nonempty.mp hv
    refine ⟨(a :: u) :: words, rfl, fun y hy => ?_⟩
    rcases List.mem_cons.mp hy with rfl | hy
    · exact ⟨hu, by simp⟩
    · exact all y hy

/-- The first character of a product belongs to the first word that is not empty. -/
theorem cons_mem_mul {l m : Language α} {a : α} {w : List α} : a :: w ∈ l * m ↔
    [] ∈ l ∧ a :: w ∈ m ∨ ∃ u v, a :: u ∈ l ∧ v ∈ m ∧ w = u ++ v := by
  rw [Language.mem_mul]
  constructor
  · intro h
    obtain ⟨u, hu, v, hv, h⟩ := h
    cases u with
    | nil => exact .inl ⟨hu, h ▸ hv⟩
    | cons b u =>
      rw [List.cons_append, List.cons.injEq] at h
      obtain ⟨rfl, rfl⟩ := h
      exact .inr ⟨u, v, hu, hv, rfl⟩
  · intro h
    obtain ⟨hl, hm⟩ | ⟨u, v, hu, hv, rfl⟩ := h
    · exact ⟨[], hl, a :: w, hm, rfl⟩
    · exact ⟨a :: u, hu, v, hv, rfl⟩

theorem mem_join_iff {d r s : Regex α} {a : α} (hd : ∀ u, u ∈ d.language ↔ a :: u ∈ r.language)
    {w : List α} : w ∈ (join d s).language ↔
      ∃ u v, a :: u ∈ r.language ∧ v ∈ s.language ∧ w = u ++ v := by
  rw [language_join, Language.mem_mul]
  constructor
  · intro h
    obtain ⟨u, hu, v, hv, h⟩ := h
    exact ⟨u, v, (hd u).mp hu, hv, h.symm⟩
  · intro h
    obtain ⟨u, v, hu, hv, h⟩ := h
    exact ⟨u, (hd u).mpr hu, v, hv, h.symm⟩

theorem derivative_one_iff {p : α → Bool} {a : α} {w : List α} :
    w ∈ ((one p).derivative a).language ↔ a :: w ∈ (one p).language := by
  rw [derivative]
  split
  next hp =>
    constructor
    · intro h
      exact ⟨a, hp, by rw [(Language.mem_one w).mp h]⟩
    · intro h
      obtain ⟨b, _, h⟩ := h
      cases h
      exact Language.nil_mem_one
  next hp =>
    refine ⟨fun h => absurd h (Language.notMem_zero w), ?_⟩
    intro h
    obtain ⟨b, hb, h⟩ := h
    cases h
    exact absurd hb hp

theorem derivative_iff (r : Regex α) (a : α) (w : List α) :
    w ∈ (r.derivative a).language ↔ a :: w ∈ r.language := by
  induction r generalizing w with
  | none => simp [derivative, language]
  | empty => simp [derivative, language]
  | one p => exact derivative_one_iff
  | seq r s hr hs =>
    rw [language, cons_mem_mul, derivative]
    split
    next hn =>
      rw [language_either, Language.mem_add, mem_join_iff hr, hs, ← nullable_iff]
      simp [hn, or_comm]
    next hn =>
      rw [mem_join_iff hr, ← nullable_iff]
      simp [hn]
  | alt r s hr hs =>
    rw [derivative, language_either, language, Language.mem_add, Language.mem_add, hr, hs]
  | star r hr =>
    rw [derivative, mem_join_iff hr]
    exact cons_mem_kstar.symm

theorem accepts_iff (r : Regex α) (w : List α) : r.accepts w = true ↔ w ∈ r.language := by
  induction w generalizing r with
  | nil => exact r.nullable_iff
  | cons a w ih => exact (ih (r.derivative a)).trans (r.derivative_iff a w)

theorem mem_seq_iff {r s : Regex α} {w : List α} :
    w ∈ (seq r s).language ↔ ∃ u v, u ∈ r.language ∧ v ∈ s.language ∧ w = u ++ v := by
  rw [language, Language.mem_mul]
  constructor
  · intro h
    obtain ⟨u, hu, v, hv, h⟩ := h
    exact ⟨u, v, hu, hv, h.symm⟩
  · intro h
    obtain ⟨u, v, hu, hv, h⟩ := h
    exact ⟨u, hu, v, hv, h.symm⟩

theorem mem_alt_iff {r s : Regex α} {w : List α} :
    w ∈ (alt r s).language ↔ w ∈ r.language ∨ w ∈ s.language := Language.mem_add _ _ _

theorem mem_star_one_iff {p : α → Bool} {w : List α} : w ∈ (star (one p)).language ↔
    ∀ a ∈ w, p a = true := by
  induction w with
  | nil => exact iff_of_true (Language.nil_mem_kstar _) nofun
  | cons a w ih =>
    rw [language, cons_mem_kstar, List.forall_mem_cons]
    constructor
    · intro h
      obtain ⟨u, v, ⟨b, hb, eq⟩, hv, rfl⟩ := h
      obtain ⟨rfl, rfl⟩ := List.cons.inj eq
      exact ⟨hb, ih.mp hv⟩
    · intro h
      exact ⟨[], w, ⟨a, h.1, rfl⟩, ih.mpr h.2, rfl⟩

theorem mem_plus_one_iff {p : α → Bool} {w : List α} :
    w ∈ (plus (one p)).language ↔ w ≠ [] ∧ ∀ a ∈ w, p a = true := by
  rw [plus, mem_seq_iff]
  constructor
  · intro h
    obtain ⟨u, v, ⟨a, ha, rfl⟩, hv, rfl⟩ := h
    exact ⟨List.cons_ne_nil _ _, List.forall_mem_cons.mpr ⟨ha, mem_star_one_iff.mp hv⟩⟩
  · intro h
    cases w with
    | nil => exact absurd rfl h.1
    | cons a w =>
      obtain ⟨ha, hw⟩ := List.forall_mem_cons.mp h.2
      exact ⟨[a], w, ⟨a, ha, rfl⟩, mem_star_one_iff.mpr hw, rfl⟩

theorem mem_word_iff {same : α → α → Bool} {a w : List α} :
    w ∈ (word same a).language ↔ List.Forall₂ (fun a c => same a c = true) a w := by
  induction a generalizing w with
  | nil =>
    rw [List.forall₂_nil_left_iff]
    exact Language.mem_one w
  | cons a as ih =>
    rw [word, List.foldr_cons, ← word, mem_seq_iff]
    constructor
    · intro h
      obtain ⟨u, v, ⟨c, hc, rfl⟩, hv, rfl⟩ := h
      exact List.Forall₂.cons hc (ih.mp hv)
    · intro h
      cases h with
      | @cons _ c _ w hc hw => exact ⟨[c], w, ⟨c, hc, rfl⟩, ih.mpr hw, rfl⟩

instance (r : Regex α) (w : List α) : Decidable (w ∈ r.language) :=
  decidable_of_iff _ (r.accepts_iff w)

section Respects

variable {f : α → α}

/-- The expression does not tell a character from its image. -/
def Respects (f : α → α) : Regex α → Prop
  | none => True
  | empty => True
  | one p => ∀ a, p (f a) = p a
  | seq r s => r.Respects f ∧ s.Respects f
  | alt r s => r.Respects f ∧ s.Respects f
  | star r => r.Respects f

theorem Respects.join {r s : Regex α} (hr : r.Respects f) (hs : s.Respects f) :
    (join r s).Respects f := by
  cases r <;> first | exact hs | exact ⟨hr, hs⟩ | trivial

theorem Respects.either {r s : Regex α} (hr : r.Respects f) (hs : s.Respects f) :
    (either r s).Respects f := by
  unfold Regex.either
  split
  next => exact hs
  next => exact hr
  next => exact ⟨hr, hs⟩

theorem Respects.derivative {r : Regex α} (h : r.Respects f) (a : α) : (r.derivative a).Respects f := by
  induction r with
  | none => trivial
  | empty => trivial
  | one p =>
    rw [Regex.derivative]
    split <;> trivial
  | seq r s hr hs =>
    rw [Regex.derivative]
    split
    next => exact ((hr h.1).join h.2).either (hs h.2)
    next => exact (hr h.1).join h.2
  | alt r s hr hs => exact (hr h.1).either (hs h.2)
  | star r hr => exact (hr h).join h

theorem Respects.derivative_eq {r : Regex α} (h : r.Respects f) (a : α) :
    r.derivative (f a) = r.derivative a := by
  induction r with
  | none => rfl
  | empty => rfl
  | one p => rw [Regex.derivative, Regex.derivative, h a]
  | seq r s hr hs => rw [Regex.derivative, Regex.derivative, hr h.1, hs h.2]
  | alt r s hr hs => rw [Regex.derivative, Regex.derivative, hr h.1, hs h.2]
  | star r hr => rw [Regex.derivative, Regex.derivative, hr h]

theorem Respects.mem_map_iff {r : Regex α} (h : r.Respects f) {w : List α} : w.map f ∈ r.language ↔
    w ∈ r.language := by
  induction w generalizing r with
  | nil => exact Iff.rfl
  | cons a w ih =>
    rw [List.map_cons, ← derivative_iff, ← derivative_iff, h.derivative_eq, ih (h.derivative a)]

theorem respects_word {same : α → α → Bool} (keeps : ∀ a b, same a (f b) = same a b) (w : List α) :
    (word same w).Respects f := by
  induction w with
  | nil => trivial
  | cons a w ih => exact ⟨keeps a, ih⟩

end Respects

end Regex

end FsCore
