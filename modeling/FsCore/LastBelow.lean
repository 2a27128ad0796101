import Mathlib.Order.Basic

namespace FsCore

/-- The greatest number below a bound that satisfies a predicate. -/
def lastBelow? (p : Nat → Bool) : Nat → Option Nat
  | 0 => none
  | n + 1 => if p n then some n else lastBelow? p n

theorem lastBelow?_eq_some_iff {p : Nat → Bool} {n j : Nat} : lastBelow? p n = some j ↔
    j < n ∧ p j = true ∧ ∀ k, j < k → k < n → p k = false := by
  induction n with
  | zero => simp [lastBelow?]
  | succ n ih =>
    rw [lastBelow?]
    split
    next hn =>
      constructor
      · rintro h
        cases h
        exact ⟨by omega, hn, fun k _ _ => by omega⟩
      · intro h
        obtain ⟨hj, _, above⟩ := h
        have : j = n := by
          by_contra ne
          have := above n (by omega) (by omega)
          simp [hn] at this
        rw [this]
    next hn =>
      rw [ih]
      constructor
      · intro h
        obtain ⟨hj, hp, above⟩ := h
        refine ⟨by omega, hp, fun k hk hkn => ?_⟩
        by_cases eq : k = n
        · simpa [eq] using hn
        · exact above k hk (by omega)
      · intro h
        obtain ⟨hj, hp, above⟩ := h
        have ne : j ≠ n := fun eq => hn (eq ▸ hp)
        exact ⟨by omega, hp, fun k hk hkn => above k hk (by omega)⟩

theorem lastBelow?_lt {p : Nat → Bool} {n j : Nat} (h : lastBelow? p n = some j) : j < n :=
  (lastBelow?_eq_some_iff.mp h).1

theorem lastBelow?_eq_none_iff {p : Nat → Bool} {n : Nat} :
    lastBelow? p n = none ↔ ∀ k, k < n → p k = false := by
  induction n with
  | zero => simp [lastBelow?]
  | succ n ih =>
    rw [lastBelow?]
    split
    next hn =>
      constructor
      · intro h
        cases h
      · intro h
        simp [h n (by omega)] at hn
    next hn =>
      rw [ih]
      constructor
      · intro h k hk
        by_cases eq : k = n
        · simpa [eq] using hn
        · exact h k (by omega)
      · exact fun h k hk => h k (by omega)

theorem lastBelow?_congr {p q : Nat → Bool} {n : Nat} (h : ∀ k, k < n → p k = q k) :
    lastBelow? p n = lastBelow? q n := by
  induction n with
  | zero => rfl
  | succ n ih => rw [lastBelow?, lastBelow?, h n (by omega), ih (fun k hk => h k (by omega))]

end FsCore
