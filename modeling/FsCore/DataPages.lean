import FsCore.DataStore
import FsCore.DecodeRun

namespace FsCore

/-- What read_page is for: the rows from `offset` up to `offset + count`, or an error where
`offset` is past the end. -/
def Session.ReadsPage (s : Session) (log : List ParsedEntry) (offset count : Nat) : Prop :=
  if 0 < count ∧ log.length < offset then ∃ what, (readPage offset count s).1 = .error (.mmap what)
  else (readPage offset count s).1 = .ok ((log.take (offset + count)).drop offset)

/-- The pages of `c` rows from page `k` on, one after the other. -/
def readPages (c k : Nat) : Nat → StoreM (List ParsedEntry)
  | 0 => pure []
  | n + 1 => do
    let page ← readPage (k * c) c
    let rest ← readPages c (k + 1) n
    pure (page ++ rest)

section Pages

variable {s : Session} {log : List ParsedEntry}

theorem readRowsFrom_maps (h : s.Holds log) (noFault : s.faults = []) {row n : Nat}
    (within : row + n ≤ log.length) : ∃ mapped, readRowsFrom row n s =
      (.ok ((log.drop row).take n), { s with readMapped := mapped }) := by
  induction n generalizing s row with
  | zero => exact ⟨s.readMapped, rfl⟩
  | succ n ih =>
    have counted : row < log.length := by omega
    obtain ⟨mapped, first⟩ := readAt_maps h noFault (List.getElem?_eq_getElem counted)
    have later : ({ s with readMapped := mapped } : Session).Holds log := ⟨h.count, h.bounded, h.rows⟩
    obtain ⟨mapped', rest⟩ := ih later noFault (show row + 1 + n ≤ log.length by omega)
    refine ⟨mapped', (Effect.bind_of_ok first).trans ((Effect.bind_of_ok rest).trans ?_)⟩
    rw [List.drop_eq_getElem_cons counted, List.take_succ_cons]
    rfl

/-- The page that the code cuts: it ends at the sum as the unsigned addition gives it. -/
theorem readPage_maps (h : s.Holds log) (noFault : s.faults = []) {offset count : Nat} (pos : 0 < count)
    (inside : offset ≤ log.length) : ∃ mapped, readPage offset count s =
      (.ok ((log.take ((offset + count) % 2 ^ 64)).drop offset), { s with readMapped := mapped }) := by
  let sum := (offset + count) % 2 ^ 64
  have ends : (if log.length < sum then log.length else sum) - offset =
    min log.length sum - offset := by
    split <;> omega
  obtain ⟨mapped, run⟩ :=
    readRowsFrom_maps h noFault (show offset + (min log.length sum - offset) ≤ log.length by omega)
  refine ⟨mapped, ?_⟩
  simp only [readPage, Effect.read_bind, if_neg pos.ne', h.count, if_neg (not_lt.mpr inside)]
  change readRowsFrom offset ((if log.length < sum then log.length else sum) - offset) s = _
  rw [ends, run, List.drop_take]
  have cut : (log.drop offset).take (min log.length sum - offset) =
    (log.drop offset).take (sum - offset) := by
    rw [List.take_eq_take_iff, List.length_drop]
    omega
  rw [cut]

theorem readPage_refused (h : s.Holds log) {offset count : Nat} (pos : 0 < count)
    (past : log.length < offset) :
    ∃ what, (readPage offset count s).1 = .error (.mmap what) := by
  simp only [readPage, Effect.read_bind, if_neg pos.ne', h.count, if_pos past]
  exact ⟨_, rfl⟩

/-- Where the sum wraps it is below the offset, and the page is empty. -/
theorem take_wrapped_iff {offset count : Nat} (count64 : count < 2 ^ 64) (pos : 0 < count)
    (small : log.length < 2 ^ 64) (inside : offset ≤ log.length) :
    (log.take ((offset + count) % 2 ^ 64)).drop offset = (log.take (offset + count)).drop offset ↔
      log.length ≤ offset ∨ offset + count < 2 ^ 64 := by
  rcases Nat.lt_or_ge (offset + count) (2 ^ 64) with exact | wraps
  · rw [Nat.mod_eq_of_lt exact]
    exact ⟨fun _ => Or.inr exact, fun _ => rfl⟩
  · have below : (offset + count) % 2 ^ 64 < offset := by omega
    have empty : (log.take ((offset + count) % 2 ^ 64)).drop offset = [] := by
      rw [List.drop_eq_nil_iff, List.length_take]
      omega
    rw [empty, eq_comm, List.drop_eq_nil_iff, List.length_take]
    omega

theorem readsPage_iff (h : s.Holds log) (noFault : s.faults = []) {offset count : Nat}
    (count64 : count < 2 ^ 64) :
    s.ReadsPage log offset count ↔ count = 0 ∨ log.length ≤ offset ∨ offset + count < 2 ^ 64 := by
  have small : log.length < 2 ^ 64 := lt_trans h.bounded (by decide)
  unfold Session.ReadsPage
  rcases Nat.eq_zero_or_pos count with rfl | pos
  · rw [if_neg (by omega), Nat.add_zero, List.drop_eq_nil_of_le (List.length_take_le offset log)]
    simp [readPage]
  · rcases Nat.lt_or_ge log.length offset with past | inside
    · rw [if_pos ⟨pos, past⟩]
      exact ⟨fun _ => Or.inr (Or.inl past.le), fun _ => readPage_refused h pos past⟩
    · obtain ⟨mapped, run⟩ := readPage_maps h noFault pos inside
      rw [if_neg (by omega), run, Except.ok.injEq, take_wrapped_iff count64 pos small inside]
      exact ⟨Or.inr, fun holds => holds.resolve_left pos.ne'⟩

theorem readPages_maps (h : s.Holds log) (noFault : s.faults = []) {c k n : Nat} (pos : 0 < c)
    (c64 : c < 2 ^ 64) (last : k + n = log.length / c + 1) :
    (readPages c k n s).1 = .ok (log.drop (k * c)) := by
  induction n generalizing s k with
  | zero =>
    have past : log.length ≤ k * c := by
      rw [Nat.add_zero] at last
      rw [last]
      exact (Nat.lt_mul_of_div_lt (Nat.lt_succ_self _) pos).le
    rw [List.drop_eq_nil_of_le past]
    rfl
  | succ n ih =>
    have inside : k * c ≤ log.length := (Nat.le_div_iff_mul_le pos).mp (by omega)
    -- a later page starts at `c` or behind it, so its sum is at most twice the number of rows
    have exact : k * c + c < 2 ^ 64 := by
      rcases Nat.eq_zero_or_pos k with rfl | later
      · omega
      · have := Nat.le_mul_of_pos_left c later
        have := h.bounded
        omega
    obtain ⟨mapped, page⟩ := readPage_maps h noFault pos inside
    have later : ({ s with readMapped := mapped } : Session).Holds log := ⟨h.count, h.bounded, h.rows⟩
    have rest := ih (k := k + 1) later noFault (by omega)
    rw [readPages, Effect.bind_of_ok page, Effect.bind_pure_map, rest,
      Nat.mod_eq_of_lt exact, Nat.add_mul, Nat.one_mul]
    refine congrArg Except.ok ?_
    rw [List.drop_take, Nat.add_sub_cancel_left, ← List.drop_drop]
    exact List.take_append_drop c (log.drop (k * c))

end Pages

/-- Which pages are right, for each offset and count; pages that follow each other always are. -/
theorem readPage_spec_iff {s : Session} {log : List ParsedEntry} (h : s.Holds log)
    (noFault : s.faults = []) : (∀ offset count : Nat, offset < 2 ^ 64 → count < 2 ^ 64 →
      (s.ReadsPage log offset count ↔ count = 0 ∨ log.length ≤ offset ∨ offset + count < 2 ^ 64)) ∧
    ∀ c : Nat, 0 < c → c < 2 ^ 64 → (readPages c 0 (log.length / c + 1) s).1 = .ok log := by
  refine ⟨fun offset count _ count64 => readsPage_iff h noFault count64, fun c pos c64 => ?_⟩
  have pages := readPages_maps h noFault pos c64 (Nat.zero_add (log.length / c + 1))
  rwa [Nat.zero_mul, List.drop_zero] at pages

/-- Two rows, as the writer leaves them. -/
def twoRows : Session :=
  (DataCall.exec (.append ParsedEntry.zero)
    (DataCall.exec (.append ParsedEntry.zero) (openWriter Session.fresh).2).2).2

theorem twoRows_logged : Logged [ParsedEntry.zero, ParsedEntry.zero] twoRows := by
  have opened : Logged [] (openWriter Session.fresh).2 := @Logged.opened [] _ rfl
  have first : Logged [ParsedEntry.zero] _ :=
    @Logged.returned [] _ _ (.append ParsedEntry.zero) (some 0) opened (by decide) rfl
  exact @Logged.returned [ParsedEntry.zero] _ _ (.append ParsedEntry.zero)
    (some 1) first (by decide) rfl

theorem readPage_spec_iff_sample : twoRows.Holds [ParsedEntry.zero, ParsedEntry.zero] ∧
    twoRows.faults = [] ∧
    (readPages 2 0 2 twoRows).1 = .ok [ParsedEntry.zero, ParsedEntry.zero] := by
  have holds := twoRows_logged.appends.toHolds
  exact ⟨holds, rfl, (readPage_spec_iff holds rfl).2 2 (by decide) (by decide)⟩

/-- The page from row 1 on with the count that a caller's -1 becomes has no rows. -/
theorem readPage_wraps : ¬ ∀ (s : Session) (log : List ParsedEntry), s.Holds log → s.faults = [] →
    ∀ offset count : Nat, offset < 2 ^ 64 → count < 2 ^ 64 → s.ReadsPage log offset count := by
  intro claim
  have page := claim twoRows _ twoRows_logged.appends.toHolds rfl 1 (asUInt64 (-1))
    (by decide) (by decide)
  have empty : (readPage 1 (asUInt64 (-1)) twoRows).1 = .ok [] := rfl
  rw [Session.ReadsPage, if_neg (by decide), empty] at page
  exact absurd (Except.ok.inj page) (by decide)

end FsCore
