import Mathlib.Data.List.Basic

namespace FsCore

/-- Stateful code that may throw: the state reached before a throw survives it. -/
def Effect (σ ε α : Type) : Type := σ → Except ε α × σ

instance {σ ε : Type} : Monad (Effect σ ε) where
  pure a := fun s => (.ok a, s)
  bind m f := fun s =>
    match m s with
    | (.ok a, t) => f a t
    | (.error e, t) => (.error e, t)

def Effect.raise {σ ε α : Type} (e : ε) : Effect σ ε α := fun s => (.error e, s)

def Effect.read {σ ε : Type} : Effect σ ε σ := fun s => (.ok s, s)

def Effect.modify {σ ε : Type} (f : σ → σ) : Effect σ ε Unit := fun s => (.ok (), f s)

def Effect.forEach {σ ε α : Type} (f : α → Effect σ ε Unit) : List α → Effect σ ε Unit
  | [] => pure ()
  | x :: xs => do
    f x
    Effect.forEach f xs

/-- Runs code and catches what it throws. -/
def Effect.attempt {σ ε α : Type} (m : Effect σ ε α) : Effect σ ε (Except ε α) :=
  fun s => (.ok (m s).1, (m s).2)

/-- Runs code on one component of a larger state. -/
def Effect.zoom {σ τ ε α : Type} (get : τ → σ) (set : σ → τ → τ) (m : Effect σ ε α) :
    Effect τ ε α :=
  fun t => ((m (get t)).1, set (m (get t)).2 t)

theorem pair_of_fst {α β : Type} {p : α × β} {a : α} (h : p.1 = a) : p = (a, p.2) := h ▸ rfl

@[simp] theorem Effect.pure_apply {σ ε α : Type} (a : α) (s : σ) :
    (pure a : Effect σ ε α) s = (.ok a, s) := rfl

@[simp] theorem Effect.raise_apply {σ ε α : Type} (e : ε) (s : σ) :
    (Effect.raise e : Effect σ ε α) s = (.error e, s) := rfl

@[simp] theorem Effect.modify_apply {σ ε : Type} (f : σ → σ) (s : σ) :
    (Effect.modify f : Effect σ ε Unit) s = (.ok (), f s) := rfl

@[simp] theorem Effect.read_bind {σ ε α : Type} (f : σ → Effect σ ε α) (s : σ) :
    (Effect.read >>= f) s = f s s := rfl

@[simp] theorem Effect.modify_bind {σ ε α : Type} (g : σ → σ) (f : Unit → Effect σ ε α) (s : σ) :
    (Effect.modify g >>= f) s = f () (g s) := rfl

@[simp] theorem Effect.pure_bind_apply {σ ε α β : Type} (a : α) (f : α → Effect σ ε β) (s : σ) :
    ((pure a : Effect σ ε α) >>= f) s = f a s := rfl

@[simp] theorem Effect.raise_bind {σ ε α β : Type} (e : ε) (f : α → Effect σ ε β) (s : σ) :
    ((Effect.raise e : Effect σ ε α) >>= f) s = (.error e, s) := rfl

theorem Effect.bind_of_ok {σ ε α β : Type} {m : Effect σ ε α} {f : α → Effect σ ε β} {s t : σ}
    {a : α} (h : m s = (.ok a, t)) : (m >>= f) s = f a t := by
  change (match m s with | (.ok a, t) => f a t | (.error e, t) => (.error e, t)) = f a t
  rw [h]

theorem Effect.bind_of_error {σ ε α β : Type} {m : Effect σ ε α} {f : α → Effect σ ε β} {s t : σ}
    {e : ε} (h : m s = (.error e, t)) : (m >>= f) s = (.error e, t) := by
  change (match m s with | (.ok a, t) => f a t | (.error e, t) => (.error e, t)) = _
  rw [h]

theorem Effect.bind_eq_ok_iff {σ ε α β : Type} {m : Effect σ ε α} {f : α → Effect σ ε β}
    {s u : σ} {b : β} :
    (m >>= f) s = (.ok b, u) ↔ ∃ a t, m s = (.ok a, t) ∧ f a t = (.ok b, u) := by
  rcases hm : m s with ⟨r, t⟩
  cases r with
  | ok a =>
    rw [Effect.bind_of_ok hm]
    simp
  | error e =>
    rw [Effect.bind_of_error hm]
    simp

/-- The two outcomes of a composition that throws. -/
theorem Effect.bind_eq_error_iff {σ ε α β : Type} {m : Effect σ ε α} {f : α → Effect σ ε β}
    {s u : σ} {e : ε} :
    (m >>= f) s = (.error e, u) ↔
      m s = (.error e, u) ∨ ∃ a t, m s = (.ok a, t) ∧ f a t = (.error e, u) := by
  rcases hm : m s with ⟨r, t⟩
  cases r with
  | ok a =>
    rw [Effect.bind_of_ok hm]
    simp
  | error e =>
    rw [Effect.bind_of_error hm]
    simp

theorem Effect.bind_pure_unit {σ ε : Type} (m : Effect σ ε Unit) (s : σ) :
    (m >>= fun _ => pure ()) s = m s := by
  rcases hm : m s with ⟨r, t⟩
  cases r with
  | ok a => exact Effect.bind_of_ok hm
  | error e => exact Effect.bind_of_error hm

theorem Effect.bind_pure_map {σ ε α β : Type} (m : Effect σ ε α) (f : α → β) (s : σ) :
    (m >>= fun a => pure (f a)) s = ((m s).1.map f, (m s).2) := by
  rcases hm : m s with ⟨r, t⟩
  cases r with
  | ok a => exact Effect.bind_of_ok hm
  | error e => exact Effect.bind_of_error hm

theorem Effect.bind_assoc {σ ε α β γ : Type} (m : Effect σ ε α) (f : α → Effect σ ε β)
    (g : β → Effect σ ε γ) : m >>= f >>= g = m >>= fun a => f a >>= g := by
  funext s
  rcases hm : m s with ⟨r, t⟩
  cases r with
  | ok a =>
    have inner : (m >>= f) s = f a t := Effect.bind_of_ok hm
    rw [Effect.bind_of_ok hm]
    rcases hf : f a t with ⟨r, u⟩
    cases r with
    | ok b => rw [Effect.bind_of_ok (inner.trans hf), Effect.bind_of_ok hf]
    | error e => rw [Effect.bind_of_error (inner.trans hf), Effect.bind_of_error hf]
  | error e => rw [Effect.bind_of_error hm, Effect.bind_of_error (Effect.bind_of_error hm)]

/-- What holds between the states before and after, however a composition ends. -/
theorem Effect.bind_frame {σ ε α β : Type} {R : σ → σ → Prop} {m : Effect σ ε α}
    {f : α → Effect σ ε β} {s : σ} (trans : ∀ a b c, R a b → R b c → R a c) (first : R s (m s).2)
    (then' : ∀ a t, m s = (.ok a, t) → R t (f a t).2) : R s ((m >>= f) s).2 := by
  rcases hm : m s with ⟨r, t⟩
  rw [hm] at first
  cases r with
  | ok a =>
    rw [Effect.bind_of_ok hm]
    exact trans _ _ _ first (then' a t hm)
  | error e =>
    rw [Effect.bind_of_error hm]
    exact first

/-- An invariant that code keeps however it ends. -/
def Effect.Keeps {σ ε α : Type} (inv : σ → Prop) (m : Effect σ ε α) : Prop := ∀ s, inv s → inv (m s).2

theorem Effect.Keeps.bind {σ ε α β : Type} {inv : σ → Prop} {m : Effect σ ε α} {f : α → Effect σ ε β}
    (first : m.Keeps inv) (then' : ∀ a, (f a).Keeps inv) : Effect.Keeps inv (m >>= f) := fun s hs =>
  Effect.bind_frame (R := fun s t => inv s → inv t) (fun _ _ _ h g => g ∘ h) (first s)
    (fun a t _ => then' a t) hs

theorem Effect.Keeps.forEach {σ ε α : Type} {inv : σ → Prop} {f : α → Effect σ ε Unit} {xs : List α}
    (each : ∀ x ∈ xs, (f x).Keeps inv) : (Effect.forEach f xs).Keeps inv := by
  induction xs with
  | nil => exact fun s hs => hs
  | cons x xs ih => exact (each x (by simp)).bind fun _ => ih fun y hy => each y (by simp [hy])

/-- An error that code does not end with. -/
def Effect.Avoids {σ ε α : Type} (e : ε) (m : Effect σ ε α) (s : σ) : Prop := (m s).1 ≠ .error e

theorem Effect.Avoids.bind {σ ε α β : Type} {e : ε} {m : Effect σ ε α} {f : α → Effect σ ε β} {s : σ}
    (first : Effect.Avoids e m s) (then' : ∀ a t, m s = (.ok a, t) → Effect.Avoids e (f a) t) :
    Effect.Avoids e (m >>= f) s := by
  unfold Effect.Avoids at first ⊢
  rcases hm : m s with ⟨r, t⟩
  rw [hm] at first
  cases r with
  | ok a =>
    rw [Effect.bind_of_ok hm]
    exact then' a t hm
  | error thrown =>
    rw [Effect.bind_of_error hm]
    exact fun raised => first (congrArg Except.error (Except.error.inj raised))

/-- Loop rule for what a loop that returns has done: `inv` speaks of the
elements already processed. -/
theorem Effect.forEach_ok {σ ε α : Type} {f : α → Effect σ ε Unit} {xs : List α} {s t : σ}
    (inv : List α → σ → Prop)
    (step : ∀ done x s t, inv done s → f x s = (.ok (), t) → inv (done ++ [x]) t)
    (start : inv [] s) (h : Effect.forEach f xs s = (.ok (), t)) : inv xs t := by
  suffices loop : ∀ done s, inv done s → Effect.forEach f xs s = (.ok (), t) → inv (done ++ xs) t from
    loop [] s start h
  clear start h
  induction xs with
  | nil =>
    intro done s hs h
    cases h
    simpa using hs
  | cons x xs ih =>
    intro done s hs h
    obtain ⟨_, mid, hx, h⟩ := Effect.bind_eq_ok_iff.mp h
    have := ih (done ++ [x]) mid (step done x s mid hs hx) h
    simpa using this

/-- Loop rule for progress: a loop returns when every round can run. -/
theorem Effect.forEach_returns {σ ε α : Type} {f : α → Effect σ ε Unit} {inv : σ → Prop}
    {xs : List α} (step : ∀ x ∈ xs, ∀ s, inv s → ∃ t, f x s = (.ok (), t) ∧ inv t)
    {s : σ} (start : inv s) : ∃ t, Effect.forEach f xs s = (.ok (), t) ∧ inv t := by
  induction xs generalizing s with
  | nil => exact ⟨s, rfl, start⟩
  | cons x xs ih =>
    obtain ⟨mid, hx, hmid⟩ := step x (by simp) s start
    obtain ⟨t, hxs, ht⟩ := ih (fun y hy => step y (by simp [hy])) hmid
    exact ⟨t, (Effect.bind_of_ok hx).trans hxs, ht⟩

theorem Effect.forEach_append_ok_iff {σ ε α : Type} {f : α → Effect σ ε Unit} {xs ys : List α}
    {s u : σ} : Effect.forEach f (xs ++ ys) s = (.ok (), u) ↔
      ∃ t, Effect.forEach f xs s = (.ok (), t) ∧ Effect.forEach f ys t = (.ok (), u) := by
  induction xs generalizing s with
  | nil =>
    constructor
    · exact fun h => ⟨s, rfl, h⟩
    · intro h
      obtain ⟨t, h, hys⟩ := h
      cases h
      exact hys
  | cons x xs ih =>
    constructor
    · intro h
      obtain ⟨_, mid, hx, h⟩ := Effect.bind_eq_ok_iff.mp h
      obtain ⟨t, hxs, hys⟩ := ih.mp h
      exact ⟨t, (Effect.bind_of_ok hx).trans hxs, hys⟩
    · intro h
      obtain ⟨t, h, hys⟩ := h
      obtain ⟨_, mid, hx, h⟩ := Effect.bind_eq_ok_iff.mp h
      exact (Effect.bind_of_ok hx).trans (ih.mpr ⟨t, h, hys⟩)

end FsCore
