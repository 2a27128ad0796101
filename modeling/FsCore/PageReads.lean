import FsCore.DecodeRun
import Mathlib.Data.List.Nodup
import Mathlib.Data.List.Range
import Mathlib.Logic.Function.Basic

namespace FsCore

/-- Pages of the loop over a store. -/
def pageCount (n : Nat) : Nat := (n + (kReadChunkSize - 1)) / kReadChunkSize

/-- The rows of a chunk. -/
def chunkRows (n k : Nat) : List Nat :=
  List.range' (k * kReadChunkSize) (min (k * kReadChunkSize + kReadChunkSize) n - k * kReadChunkSize)

/-- The rows that the loop reads for a chunk: it passes the index of the last row as a count. -/
def pageRows (n k : Nat) : List Nat :=
  List.range' (k * kReadChunkSize)
    (min n (k * kReadChunkSize + (min (k * kReadChunkSize + kReadChunkSize) n - 1)) -
      k * kReadChunkSize)

def rowsRead (n : Nat) : List Nat := (List.range (pageCount n)).flatMap (pageRows n)

/-- Rows that are left out or read again: the last row of the first page, and every
row from the third page on but one. -/
def Misread (n r : Nat) : Prop :=
  n ≤ kReadChunkSize ∧ r + 1 = n ∨
    kReadChunkSize < n ∧ (r + 1 = kReadChunkSize ∨ 2 * kReadChunkSize ≤ r ∧ r + 1 ≠ 3 * kReadChunkSize)

theorem lt_pageCount_iff {n k : Nat} : k < pageCount n ↔ k * kReadChunkSize < n := by
  simp only [pageCount, kReadChunkSize]
  omega

theorem flatMap_chunkRows (n m : Nat) :
    (List.range m).flatMap (chunkRows n) = List.range (min (m * kReadChunkSize) n) := by
  induction m with
  | zero => simp
  | succ m ih =>
    rw [List.range_succ, List.flatMap_append, ih, List.flatMap_singleton, chunkRows,
      List.range_eq_range', List.range_eq_range']
    rcases Nat.lt_or_ge n (m * kReadChunkSize) with past | within
    · have empty : min (m * kReadChunkSize + kReadChunkSize) n - m * kReadChunkSize = 0 := by omega
      have whole : min ((m + 1) * kReadChunkSize) n = min (m * kReadChunkSize) n := by
        simp only [kReadChunkSize] at *
        omega
      rw [empty, whole, List.range'_zero, List.append_nil]
    · have split := List.range'_append_1 (s := 0) (m := m * kReadChunkSize)
        (n := min (m * kReadChunkSize + kReadChunkSize) n - m * kReadChunkSize)
      rw [Nat.zero_add] at split
      rw [min_eq_left within, split]
      congr 1
      simp only [kReadChunkSize] at *
      omega

theorem flatMap_chunkRows_pageCount (n : Nat) :
    (List.range (pageCount n)).flatMap (chunkRows n) = List.range n := by
  rw [flatMap_chunkRows, min_eq_right]
  simp only [pageCount, kReadChunkSize]
  omega

theorem filter_range'_le {p : Nat → Bool} {s a b : Nat} (h : a ≤ b)
    (none : ∀ r, s + a ≤ r → r < s + b → p r = false) :
    (List.range' s a).filter p = (List.range' s b).filter p := by
  have split := List.range'_append_1 (s := s) (m := a) (n := b - a)
  rw [Nat.add_sub_cancel' h] at split
  have rest : (List.range' (s + a) (b - a)).filter p = [] := by
    refine List.filter_eq_nil_iff.mpr fun r hr => ?_
    obtain ⟨low, high⟩ := List.mem_range'_1.mp hr
    simp [none r low (by omega)]
  rw [← split, List.filter_append, rest, List.append_nil]

/-- A page and its chunk differ in misread rows only. -/
theorem filter_pageRows {p : Nat → Bool} {n k : Nat} (hk : k < pageCount n)
    (none : ∀ r, r < n → Misread n r → p r = false) :
    (pageRows n k).filter p = (chunkRows n k).filter p := by
  rw [lt_pageCount_iff] at hk
  simp only [Misread] at none
  unfold pageRows chunkRows
  rcases Nat.eq_zero_or_pos k with rfl | later
  · refine filter_range'_le (by omega) fun r low high => none r (by omega) ?_
    simp only [kReadChunkSize] at *
    omega
  · refine (filter_range'_le ?_ fun r low high => none r ?_ ?_).symm
    · simp only [kReadChunkSize] at *
      omega
    · simp only [kReadChunkSize] at *
      omega
    · simp only [kReadChunkSize] at *
      omega

theorem filter_rowsRead {p : Nat → Bool} {n : Nat} (none : ∀ r, r < n → Misread n r → p r = false) :
    (rowsRead n).filter p = (List.range n).filter p := by
  rw [← flatMap_chunkRows_pageCount n, rowsRead, List.filter_flatMap, List.filter_flatMap]
  refine List.flatMap_congr fun k hk => ?_
  exact filter_pageRows (List.mem_range.mp hk) none

theorem mem_pageRows {n k r : Nat} : r ∈ pageRows n k ↔ k * kReadChunkSize ≤ r ∧ r < n ∧
    r < k * kReadChunkSize + (min (k * kReadChunkSize + kReadChunkSize) n - 1) := by
  rw [pageRows, List.mem_range'_1]
  omega

theorem mem_rowsRead_lt {n r : Nat} (h : r ∈ rowsRead n) : r < n := by
  obtain ⟨k, -, hr⟩ := List.mem_flatMap.mp h
  exact (mem_pageRows.mp hr).2.1

/-- Every row that is not left out is read. -/
theorem mem_rowsRead {n r : Nat} (hr : r < n) (regular : ¬ Misread n r) : r ∈ rowsRead n := by
  refine List.mem_flatMap.mpr ⟨r / kReadChunkSize, List.mem_range.mpr (lt_pageCount_iff.mpr ?_), ?_⟩
  · simp only [kReadChunkSize]
    omega
  · rw [mem_pageRows]
    simp only [Misread, kReadChunkSize] at *
    omega

theorem filter_rowsRead_ne {p : Nat → Bool} {n r : Nat} (hr : r < n) (misread : Misread n r)
    (hp : p r = true) : (rowsRead n).filter p ≠ (List.range n).filter p := by
  intro eq
  have mem : r ∈ (rowsRead n).filter p := eq ▸ List.mem_filter.mpr ⟨List.mem_range.mpr hr, hp⟩
  obtain ⟨k, hk, own⟩ := List.mem_flatMap.mp (List.mem_filter.mp mem).1
  rw [mem_pageRows] at own
  have nodup : ((rowsRead n).filter p).Nodup := eq ▸ List.nodup_range.filter p
  rw [rowsRead, List.filter_flatMap, List.nodup_flatMap] at nodup
  -- no page reads the rows that are left out; the others are read by the page before theirs too
  have again : 0 < r / kReadChunkSize ∧ r ∈ pageRows n (r / kReadChunkSize) ∧
      r ∈ pageRows n (r / kReadChunkSize - 1) := by
    rw [mem_pageRows, mem_pageRows]
    simp only [Misread, kReadChunkSize] at *
    omega
  obtain ⟨later, here, before⟩ := again
  have count : r / kReadChunkSize < pageCount n := by
    rw [lt_pageCount_iff]
    simp only [kReadChunkSize]
    omega
  have disjoint := List.pairwise_iff_getElem.mp nodup.2 (r / kReadChunkSize - 1) (r / kReadChunkSize)
    (by rw [List.length_range]; omega) (by rw [List.length_range]; omega) (by omega)
  rw [List.getElem_range, List.getElem_range] at disjoint
  exact disjoint (List.mem_filter.mpr ⟨before, hp⟩) (List.mem_filter.mpr ⟨here, hp⟩)

end FsCore
