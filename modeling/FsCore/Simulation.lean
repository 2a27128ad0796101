import FsCore.Effect

namespace FsCore

/-- From two states, two programs end alike: with the same result, in states that are related. -/
def Effect.Agrees {σ τ ε α : Type} (R : σ → τ → Prop) (m : Effect σ ε α) (n : Effect τ ε α) (s : σ)
    (t : τ) : Prop :=
  (m s).1 = (n t).1 ∧ R (m s).2 (n t).2

/-- From all related states. -/
def Effect.Simulates {σ τ ε α : Type} (R : σ → τ → Prop) (m : Effect σ ε α) (n : Effect τ ε α) : Prop :=
  ∀ s t, R s t → Effect.Agrees R m n s t

section Simulation

variable {σ τ ε α β : Type} {R Q : σ → τ → Prop} {m : Effect σ ε α} {n : Effect τ ε α} {s : σ} {t : τ}

theorem Effect.Agrees.pure (a : α) (h : R s t) :
    Effect.Agrees R (Pure.pure a : Effect σ ε α) (Pure.pure a : Effect τ ε α) s t := ⟨rfl, h⟩

theorem Effect.Agrees.raise (e : ε) (h : R s t) :
    Effect.Agrees R (Effect.raise e : Effect σ ε α) (Effect.raise e : Effect τ ε α) s t := ⟨rfl, h⟩

theorem Effect.Agrees.modify {f : σ → σ} {g : τ → τ} (h : R (f s) (g t)) :
    Effect.Agrees R (Effect.modify f : Effect σ ε Unit)
      (Effect.modify g : Effect τ ε Unit) s t := ⟨rfl, h⟩

theorem Effect.Agrees.weaken (h : Effect.Agrees R m n s t) (sub : ∀ s t, R s t → Q s t) :
    Effect.Agrees Q m n s t := ⟨h.1, sub _ _ h.2⟩

theorem Effect.Agrees.read {f : σ → Effect σ ε α} {g : τ → Effect τ ε α}
    (h : Effect.Agrees R (f s) (g t) s t) :
    Effect.Agrees R (Effect.read >>= f) (Effect.read >>= g) s t := h

theorem Effect.Agrees.ite {p q : Prop} [Decidable p] [Decidable q] {m' : Effect σ ε α}
    {n' : Effect τ ε α} (same : p ↔ q) (yes : q → Effect.Agrees R m n s t)
    (no : ¬ q → Effect.Agrees R m' n' s t) :
    Effect.Agrees R (if p then m else m') (if q then n else n') s t := by
  by_cases h : q
  · rw [if_pos h, if_pos (same.mpr h)]
    exact yes h
  · rw [if_neg h, if_neg (mt same.mp h)]
    exact no h

/-- Programs in sequence: the second ones start where the first ones returned the same value. -/
theorem Effect.Agrees.bind {f : α → Effect σ ε β} {g : α → Effect τ ε β}
    (first : Effect.Agrees R m n s t) (then' : ∀ a s' t', m s = (.ok a, s') → n t = (.ok a, t') →
      R s' t' → Effect.Agrees R (f a) (g a) s' t') : Effect.Agrees R (m >>= f) (n >>= g) s t := by
  obtain ⟨same, related⟩ := first
  rcases hm : m s with ⟨r, s'⟩
  rcases hn : n t with ⟨r', t'⟩
  rw [hm, hn] at same related
  obtain rfl : r = r' := same
  unfold Effect.Agrees
  cases r with
  | ok a =>
    rw [Effect.bind_of_ok hm, Effect.bind_of_ok hn]
    exact then' a s' t' hm hn related
  | error e =>
    rw [Effect.bind_of_error hm, Effect.bind_of_error hn]
    exact ⟨rfl, related⟩

theorem Effect.Simulates.bind {f : α → Effect σ ε β} {g : α → Effect τ ε β}
    (first : Effect.Simulates R m n) (then' : ∀ a, Effect.Simulates R (f a) (g a)) :
    Effect.Simulates R (m >>= f) (n >>= g) :=
  fun s t related => (first s t related).bind fun a s' t' _ _ later => then' a s' t' later

/-- What one program answers the other one answers. -/
theorem Effect.Agrees.ok {a : α} {s' : σ} (h : Effect.Agrees R m n s t) (run : m s = (.ok a, s')) :
    n t = (.ok a, (n t).2) :=
  pair_of_fst (h.1.symm.trans (congrArg Prod.fst run))

theorem Effect.Agrees.avoids {e : ε} (h : Effect.Agrees R m n s t) (other : Effect.Avoids e n t) :
    Effect.Avoids e m s := by
  unfold Effect.Avoids at other ⊢
  rwa [h.1]

end Simulation

end FsCore
