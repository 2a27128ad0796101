import Mathlib.Data.List.Basic
import Mathlib.Data.List.Nodup
import Mathlib.Data.List.Range
import Mathlib.Data.List.Sort
import Mathlib.Logic.Function.Basic
import Mathlib.Order.Basic

namespace FsCore

/-- A relation with a primary key: its rows in key order, each key once. -/
structure Table (κ ν : Type) [LinearOrder κ] where
  rows : List (κ × ν)
  sorted : rows.Pairwise (fun a b => a.1 < b.1)

/-- Inserts a row or rewrites the row that has the key already. -/
def upsertRows {κ ν : Type} [LinearOrder κ] (k : κ) (f : Option ν → ν) :
    List (κ × ν) → List (κ × ν)
  | [] => [(k, f none)]
  | (x, v) :: rest =>
    if k < x then (k, f none) :: (x, v) :: rest
    else if k = x then (k, f (some v)) :: rest
    else (x, v) :: upsertRows k f rest

theorem upsertRows_mem_key {κ ν : Type} [LinearOrder κ] {k : κ} {f : Option ν → ν}
    {rows : List (κ × ν)} {r : κ × ν} (h : r ∈ upsertRows k f rows) :
    r.1 = k ∨ ∃ s ∈ rows, s.1 = r.1 := by
  induction rows with
  | nil =>
    left
    simpa [upsertRows] using congrArg Prod.fst (List.mem_singleton.mp h)
  | cons s rest ih =>
    obtain ⟨x, v⟩ := s
    simp only [upsertRows] at h
    split at h
    next =>
      rcases List.mem_cons.mp h with rfl | h
      · exact Or.inl rfl
      · exact Or.inr ⟨r, h, rfl⟩
    next =>
      split at h
      next =>
        rcases List.mem_cons.mp h with rfl | h
        · exact Or.inl rfl
        · exact Or.inr ⟨r, List.mem_cons_of_mem _ h, rfl⟩
      next =>
        rcases List.mem_cons.mp h with rfl | h
        · exact Or.inr ⟨(x, v), by simp, rfl⟩
        · rcases ih h with eq | ⟨s, hs, eq⟩
          · exact Or.inl eq
          · exact Or.inr ⟨s, List.mem_cons_of_mem _ hs, eq⟩

theorem upsertRows_sorted {κ ν : Type} [LinearOrder κ] (k : κ) (f : Option ν → ν)
    {rows : List (κ × ν)} (h : rows.Pairwise (fun a b => a.1 < b.1)) :
    (upsertRows k f rows).Pairwise (fun a b => a.1 < b.1) := by
  induction rows with
  | nil => simp [upsertRows]
  | cons s rest ih =>
    obtain ⟨x, v⟩ := s
    have hc := List.pairwise_cons.mp h
    simp only [upsertRows]
    split
    next lt =>
      apply List.pairwise_cons.mpr
      refine ⟨?_, h⟩
      intro r hr
      rcases List.mem_cons.mp hr with rfl | hr
      · exact lt
      · exact lt.trans (hc.1 r hr)
    next nlt =>
      split
      next eq =>
        subst eq
        exact List.pairwise_cons.mpr ⟨fun r hr => hc.1 r hr, hc.2⟩
      next ne =>
        apply List.pairwise_cons.mpr
        refine ⟨?_, ih hc.2⟩
        intro r hr
        have gt : x < k := lt_of_le_of_ne (not_lt.mp nlt) (Ne.symm ne)
        rcases upsertRows_mem_key hr with eq | ⟨s, hs, eq⟩
        · simpa [eq] using gt
        · simpa [eq] using hc.1 s hs

namespace Table

variable {κ ν : Type} [LinearOrder κ]

def empty : Table κ ν := ⟨[], List.Pairwise.nil⟩

def find? (t : Table κ ν) (k : κ) : Option ν := t.rows.lookup k

def keys (t : Table κ ν) : List κ := t.rows.map Prod.fst

def count (t : Table κ ν) : Nat := t.rows.length

def upsert (t : Table κ ν) (k : κ) (f : Option ν → ν) : Table κ ν :=
  ⟨upsertRows k f t.rows, upsertRows_sorted k f t.sorted⟩

/-- Rewrites the row with the given key, if there is one. -/
def update (t : Table κ ν) (k : κ) (f : ν → ν) : Table κ ν where
  rows := t.rows.map (fun r => (r.1, if r.1 = k then f r.2 else r.2))
  sorted := List.pairwise_map.mpr t.sorted

/-- The rows that satisfy a condition, in key order. -/
def select (t : Table κ ν) (p : κ → ν → Bool) : List (κ × ν) :=
  t.rows.filter (fun r => p r.1 r.2)

theorem lookup_none_of_lt {k : κ} {rows : List (κ × ν)} (h : ∀ r ∈ rows, k < r.1) :
    rows.lookup k = none := by
  induction rows with
  | nil => rfl
  | cons r rest ih =>
    have ne : k ≠ r.1 := ne_of_lt (h r (by simp))
    rw [List.lookup_cons, beq_eq_false_iff_ne.mpr ne]
    exact ih (fun s hs => h s (by simp [hs]))

@[simp] theorem find?_empty (k : κ) : (empty : Table κ ν).find? k = none := rfl

theorem find?_upsert (t : Table κ ν) (k j : κ) (f : Option ν → ν) :
    (t.upsert k f).find? j = if j = k then some (f (t.find? k)) else t.find? j := by
  obtain ⟨rows, sorted⟩ := t
  simp only [find?, upsert]
  induction rows with
  | nil =>
    by_cases eq : j = k
    · simp [upsertRows, eq]
    · simp [upsertRows, List.lookup_cons, beq_eq_false_iff_ne.mpr eq, eq]
  | cons s rest ih =>
    obtain ⟨x, v⟩ := s
    have hc := List.pairwise_cons.mp sorted
    simp only [upsertRows]
    split
    next lt =>
      have fresh : List.lookup k ((x, v) :: rest) = none := by
        apply lookup_none_of_lt
        intro r hr
        rcases List.mem_cons.mp hr with rfl | hr
        · exact lt
        · exact lt.trans (hc.1 r hr)
      rw [List.lookup_cons, fresh]
      by_cases eq : j = k
      · simp [eq]
      · simp [beq_eq_false_iff_ne.mpr eq, eq]
    next nlt =>
      split
      next eq =>
        subst eq
        by_cases eq : j = k
        · simp [eq]
        · simp [List.lookup_cons, beq_eq_false_iff_ne.mpr eq, eq]
      next ne =>
        by_cases hx : j = x
        · subst hx
          simp [Ne.symm ne]
        · simp only [List.lookup_cons, beq_eq_false_iff_ne.mpr hx, beq_eq_false_iff_ne.mpr ne]
          exact ih hc.2

theorem find?_update (t : Table κ ν) (k j : κ) (f : ν → ν) :
    (t.update k f).find? j = if j = k then (t.find? k).map f else t.find? j := by
  obtain ⟨rows, sorted⟩ := t
  simp only [find?, update]
  clear sorted
  induction rows with
  | nil => simp
  | cons s rest ih =>
    obtain ⟨x, v⟩ := s
    simp only [List.map_cons, List.lookup_cons]
    by_cases hx : j = x
    · subst hx
      by_cases hk : j = k
      · simp [hk]
      · simp [hk]
    · simp only [beq_eq_false_iff_ne.mpr hx, ih]
      by_cases hk : j = k
      · subst hk
        simp [beq_eq_false_iff_ne.mpr hx]
      · simp [hk]

theorem mem_rows_iff {t : Table κ ν} {k : κ} {v : ν} : (k, v) ∈ t.rows ↔ t.find? k = some v := by
  obtain ⟨rows, sorted⟩ := t
  simp only [find?]
  induction rows with
  | nil => simp
  | cons s rest ih =>
    obtain ⟨x, w⟩ := s
    have hc := List.pairwise_cons.mp sorted
    rw [List.mem_cons, List.lookup_cons]
    by_cases hx : k = x
    · subst hx
      have fresh : (k, v) ∉ rest := fun hm => lt_irrefl k (hc.1 (k, v) hm)
      simp [fresh, eq_comm]
    · simp only [beq_eq_false_iff_ne.mpr hx, Prod.mk.injEq, hx, false_and, false_or]
      exact ih hc.2

theorem mem_keys_iff {t : Table κ ν} {k : κ} : k ∈ t.keys ↔ ∃ v, t.find? k = some v := by
  simp only [keys, List.mem_map, Prod.exists, exists_and_right, exists_eq_right, mem_rows_iff]

theorem mem_keys_upsert {t : Table κ ν} {k j : κ} {f : Option ν → ν} :
    j ∈ (t.upsert k f).keys ↔ j = k ∨ j ∈ t.keys := by
  rw [mem_keys_iff, mem_keys_iff, find?_upsert]
  by_cases h : j = k
  · simp [h]
  · simp [h]

theorem rows_nodup (t : Table κ ν) : t.rows.Nodup :=
  t.sorted.imp (fun h eq => absurd (congrArg Prod.fst eq) (ne_of_lt h))

theorem keys_sorted (t : Table κ ν) : t.keys.Pairwise (· < ·) :=
  List.pairwise_map.mpr t.sorted

/-- The rows under a key. -/
theorem filter_key [DecidableEq κ] (t : Table κ ν) (k : κ) :
    t.rows.filter (fun r => r.1 = k) = (t.find? k).toList.map fun v => (k, v) := by
  cases hf : t.find? k with
  | none =>
    refine List.filter_eq_nil_iff.mpr ?_
    rintro ⟨j, v⟩ hr same
    have eq : j = k := by simpa using same
    rw [mem_rows_iff, eq, hf] at hr
    cases hr
  | some v =>
    refine List.perm_singleton.mp
      ((List.perm_ext_iff_of_nodup (t.rows_nodup.filter _) (by simp)).mpr ?_)
    intro h
    obtain ⟨j, u⟩ := h
    rw [List.mem_filter, mem_rows_iff]
    constructor
    · intro h
      obtain ⟨hj, same⟩ := h
      have eq : j = k := by simpa using same
      rw [eq, hf] at hj
      simp [eq, Option.some.inj hj]
    · intro h
      obtain ⟨rfl, rfl⟩ := Prod.mk.inj (List.mem_singleton.mp h)
      exact ⟨hf, by simp⟩

/-- Two tables that answer every key alike have the same rows. -/
theorem ext_find? {t u : Table κ ν} (h : ∀ k, t.find? k = u.find? k) : t = u := by
  have perm : t.rows.Perm u.rows := by
    apply (List.perm_ext_iff_of_nodup t.rows_nodup u.rows_nodup).mpr
    intro h
    obtain ⟨k, v⟩ := h
    rw [mem_rows_iff, mem_rows_iff, h]
  have eq : t.rows = u.rows :=
    perm.eq_of_pairwise (fun a b _ _ hab hba => absurd (hab.trans hba) (lt_irrefl _)) t.sorted u.sorted
  cases t
  cases u
  simpa using eq

theorem upsert_of_same {t : Table κ ν} {k : κ} {f : Option ν → ν} {v : ν} (h : t.find? k = some v)
    (same : f (some v) = v) : t.upsert k f = t := by
  apply ext_find?
  intro j
  rw [find?_upsert, h, same]
  split
  next eq => rw [eq, h]
  next => rfl

/-- The table whose keys are an initial segment of the naturals. -/
def ofRange {ν : Type} (n : Nat) (g : Nat → ν) : Table Nat ν where
  rows := (List.range n).map (fun i => (i, g i))
  sorted := List.pairwise_map.mpr List.pairwise_lt_range

theorem find?_ofRange {ν : Type} (n : Nat) (g : Nat → ν) (k : Nat) :
    (ofRange n g).find? k = if k < n then some (g k) else none := by
  by_cases hk : k < n
  · rw [if_pos hk]
    apply mem_rows_iff.mp
    exact List.mem_map.mpr ⟨k, List.mem_range.mpr hk, rfl⟩
  · rw [if_neg hk]
    apply Option.eq_none_iff_forall_ne_some.mpr
    intro v hv
    obtain ⟨i, hi, eq⟩ := List.mem_map.mp (mem_rows_iff.mpr hv)
    have : i = k := congrArg Prod.fst eq
    exact hk (this ▸ List.mem_range.mp hi)

theorem eq_ofRange {ν : Type} {t : Table Nat ν} {n : Nat} {g : Nat → ν}
    (h : ∀ k, t.find? k = if k < n then some (g k) else none) : t = ofRange n g :=
  ext_find? (fun k => (h k).trans (find?_ofRange n g k).symm)

@[simp] theorem count_ofRange {ν : Type} (n : Nat) (g : Nat → ν) : (ofRange n g).count = n := by
  simp [count, ofRange]

@[simp] theorem keys_ofRange {ν : Type} (n : Nat) (g : Nat → ν) :
    (ofRange n g).keys = List.range n := by
  simp [keys, ofRange, Function.comp_def]

theorem select_ofRange {ν : Type} (n : Nat) (g : Nat → ν) (p : Nat → ν → Bool) :
    ((ofRange n g).select p).map Prod.fst = (List.range n).filter (fun i => p i (g i)) := by
  simp [select, ofRange, List.filter_map, Function.comp_def]

theorem keys_eq_range_iff {ν : Type} {t : Table Nat ν} {n : Nat} :
    t.keys = List.range n ↔ ∀ k, k ∈ t.keys ↔ k < n := by
  constructor
  · intro h k
    rw [h, List.mem_range]
  · intro h
    have nodup : t.keys.Nodup := t.keys_sorted.imp ne_of_lt
    have perm : t.keys.Perm (List.range n) :=
      (List.perm_ext_iff_of_nodup nodup List.nodup_range).mpr fun k => (h k).trans List.mem_range.symm
    exact perm.eq_of_pairwise
      (fun a b _ _ hab hba => absurd (hab.trans hba) (lt_irrefl _)) t.keys_sorted
      List.pairwise_lt_range

theorem ofRange_congr {ν : Type} {n : Nat} {g h : Nat → ν} (eq : ∀ i, i < n → g i = h i) :
    ofRange n g = ofRange n h := by
  apply eq_ofRange
  intro k
  rw [find?_ofRange]
  split
  next hk => rw [eq k hk]
  next => rfl

theorem upsert_ofRange {ν : Type} (n : Nat) (g : Nat → ν) (v : ν) :
    (ofRange n g).upsert n (fun _ => v) = ofRange (n + 1) (Function.update g n v) := by
  apply eq_ofRange
  intro k
  rw [find?_upsert, find?_ofRange, Function.update_apply]
  by_cases hk : k = n
  · simp [hk]
  · have bound : k < n + 1 ↔ k < n := by omega
    simp [hk, bound]

theorem update_ofRange {ν : Type} (n k : Nat) (g : Nat → ν) (v : ν) :
    (ofRange n g).update k (fun _ => v) = ofRange n (Function.update g k v) := by
  apply eq_ofRange
  intro j
  rw [find?_update, find?_ofRange, find?_ofRange, Function.update_apply]
  by_cases hj : j = k
  · subst hj
    by_cases hn : j < n <;> simp [hn]
  · simp [hj]

/-- The set of the keys in a list. -/
def ofKeys (ks : List κ) : Table κ Unit := ks.foldl (fun t k => t.upsert k (fun _ => ())) empty

theorem find?_foldl_upsert {ks : List κ} {t : Table κ Unit} {k : κ} :
    (ks.foldl (fun t k => t.upsert k (fun _ => ())) t).find? k = some () ↔
      k ∈ ks ∨ t.find? k = some () := by
  induction ks generalizing t with
  | nil => simp
  | cons x xs ih =>
    rw [List.foldl_cons, ih, find?_upsert, List.mem_cons]
    by_cases hx : k = x
    · simp [hx]
    · simp [hx]

theorem mem_keys_ofKeys {ks : List κ} {k : κ} : k ∈ (ofKeys ks).keys ↔ k ∈ ks := by
  rw [mem_keys_iff]
  constructor
  · intro h
    obtain ⟨_, h⟩ := h
    simpa using find?_foldl_upsert.mp h
  · exact fun h => ⟨(), find?_foldl_upsert.mpr (Or.inl h)⟩

theorem ofKeys_append_singleton (ks : List κ) (k : κ) :
    ofKeys (ks ++ [k]) = (ofKeys ks).upsert k (fun _ => ()) := by
  simp [ofKeys, List.foldl_append]

end Table

end FsCore
