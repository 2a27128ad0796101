import FsCore.LittleEndian
import Mathlib.Data.List.GetD
import Mathlib.Logic.Function.Basic

namespace FsCore

/-- Values of a type as blocks of bytes of one width. -/
structure Codec (α : Type) where
  width : Nat
  encode : α → List UInt8
  decode : List UInt8 → α
  Fits : α → Prop
  encode_length : ∀ a, (encode a).length = width
  decode_encode : ∀ a, Fits a → decode (encode a) = a

namespace Codec

variable {α β : Type}

attribute [simp] Codec.encode_length

def byte : Codec UInt8 where
  width := 1
  encode b := [b]
  decode bytes := bytes.headD 0
  Fits _ := True
  encode_length _ := rfl
  decode_encode _ _ := rfl

/-- A number in `w` bytes, the lowest first. -/
def word (w : Nat) : Codec Nat where
  width := w
  encode := toBytes w
  decode := ofBytes
  Fits v := v < 256 ^ w
  encode_length := toBytes_length w
  decode_encode _ fits := ofBytes_toBytes fits

/-- One value after another, without padding. -/
def pair (c : Codec α) (d : Codec β) : Codec (α × β) where
  width := c.width + d.width
  encode p := c.encode p.1 ++ d.encode p.2
  decode bytes := (c.decode (bytes.take c.width), d.decode (bytes.drop c.width))
  Fits p := c.Fits p.1 ∧ d.Fits p.2
  encode_length p := by rw [List.length_append, c.encode_length, d.encode_length]
  decode_encode p fits := by
    rw [List.take_left' (c.encode_length p.1), List.drop_left' (c.encode_length p.1),
      c.decode_encode _ fits.1, d.decode_encode _ fits.2]

/-- Values that stand for values of another type. -/
def along (c : Codec α) (f : β → α) (g : α → β) (inverse : ∀ b, g (f b) = b) : Codec β where
  width := c.width
  encode b := c.encode (f b)
  decode bytes := g (c.decode bytes)
  Fits b := c.Fits (f b)
  encode_length b := c.encode_length (f b)
  decode_encode b fits := by rw [c.decode_encode _ fits, inverse]

/-- The values `f s`, `f (s + 1)` and on, `n` of them, without padding. -/
def cells (c : Codec α) (f : Nat → α) (s : Nat) : Nat → List UInt8
  | 0 => []
  | n + 1 => c.encode (f s) ++ c.cells f (s + 1) n

/-- The cell at an index of an array of cells. -/
def load (c : Codec α) (i : Nat) (bytes : List UInt8) : α :=
  c.decode ((bytes.drop (i * c.width)).take c.width)

def store (c : Codec α) (i : Nat) (a : α) (bytes : List UInt8) : List UInt8 :=
  bytes.take (i * c.width) ++ c.encode a ++ bytes.drop ((i + 1) * c.width)

section Cells

variable (c : Codec α) {f g : Nat → α}

@[simp] theorem cells_length (f : Nat → α) (s n : Nat) : (c.cells f s n).length = n * c.width := by
  induction n generalizing s with
  | zero => rw [cells, List.length_nil, Nat.zero_mul]
  | succ n ih => rw [cells, List.length_append, encode_length, ih, Nat.succ_mul, Nat.add_comm]

theorem cells_append (f : Nat → α) (s m n : Nat) :
    c.cells f s (m + n) = c.cells f s m ++ c.cells f (s + m) n := by
  induction m generalizing s with
  | zero => rw [Nat.zero_add, cells, List.nil_append, Nat.add_zero]
  | succ m ih => rw [Nat.succ_add, cells, ih, cells, List.append_assoc, Nat.succ_add_eq_add_succ]

theorem cells_congr {s t n : Nat} (h : ∀ i < n, f (s + i) = g (t + i)) :
    c.cells f s n = c.cells g t n := by
  induction n generalizing s t with
  | zero => rfl
  | succ n ih =>
    have later : c.cells f (s + 1) n = c.cells g (t + 1) n := ih fun i hi => by
      rw [Nat.succ_add_eq_add_succ, Nat.succ_add_eq_add_succ]
      exact h (i + 1) (Nat.succ_lt_succ hi)
    rw [cells, cells, later, show f s = g t from h 0 n.succ_pos]

/-- An array up to a cell, the cell, and the array behind it. -/
theorem cells_split (f : Nat → α) {i n : Nat} (h : i < n) :
    c.cells f 0 n = c.cells f 0 i ++ c.encode (f i) ++ c.cells f (i + 1) (n - (i + 1)) := by
  have whole := c.cells_append f 0 i (n - i)
  rw [Nat.add_sub_cancel' h.le, Nat.zero_add, show n - i = n - (i + 1) + 1 by omega, cells] at whole
  rw [whole, List.append_assoc]

theorem load_cells {i n : Nat} (h : i < n) (fits : c.Fits (f i)) : c.load i (c.cells f 0 n) = f i := by
  rw [load, c.cells_split f h, List.append_assoc, List.drop_left' (c.cells_length f 0 i),
    List.take_left' (c.encode_length (f i)), c.decode_encode _ fits]

theorem store_cells {i n : Nat} (h : i < n) (a : α) :
    c.store i a (c.cells f 0 n) = c.cells (Function.update f i a) 0 n := by
  have front : c.cells (Function.update f i a) 0 i = c.cells f 0 i :=
    c.cells_congr fun j hj => Function.update_of_ne (by omega) _ _
  have back : c.cells (Function.update f i a) (i + 1) (n - (i + 1)) = c.cells f (i + 1) (n - (i + 1)) :=
    c.cells_congr fun j _ => Function.update_of_ne (by omega) _ _
  have upTo : (c.cells f 0 i ++ c.encode (f i)).length = (i + 1) * c.width := by
    rw [List.length_append, cells_length, encode_length, Nat.succ_mul]
  rw [c.cells_split (Function.update f i a) h, Function.update_self, front, back, store,
    c.cells_split f h,
    List.drop_left' upTo, List.append_assoc (c.cells f 0 i), List.take_left' (c.cells_length f 0 i)]

theorem load_encode {a : α} (fits : c.Fits a) : c.load 0 (c.encode a) = a := by
  have cell := c.load_cells (f := fun _ => a) Nat.one_pos fits
  rwa [cells, cells, List.append_nil] at cell

theorem store_encode (a b : α) : c.store 0 b (c.encode a) = c.encode b := by
  have cell := c.store_cells (f := fun _ => a) Nat.one_pos b
  rwa [cells, cells, List.append_nil, cells, cells, List.append_nil, Function.update_self] at cell

/-- Zero bytes are an array of the value that is all zero. -/
theorem cells_zero {zero : α} (h : c.encode zero = List.replicate c.width 0) (s n : Nat) :
    c.cells (fun _ => zero) s n = List.replicate (n * c.width) 0 := by
  induction n generalizing s with
  | zero => rw [cells, Nat.zero_mul, List.replicate_zero]
  | succ n ih => rw [cells, ih, h, List.replicate_append_replicate, Nat.succ_mul, Nat.add_comm]

/-- The cells of an array are those of the list of its values. -/
theorem cells_list (xs : List α) {s : Nat} (h : ∀ i x, xs[i]? = some x → f (s + i) = x) :
    c.cells f s xs.length = xs.flatMap c.encode := by
  induction xs generalizing s with
  | nil => rfl
  | cons x xs ih =>
    have later : c.cells f (s + 1) xs.length = xs.flatMap c.encode := ih fun i y hy => by
      rw [Nat.succ_add_eq_add_succ]
      exact h (i + 1) y hy
    rw [List.length_cons, cells, later, List.flatMap_cons, show f s = x from h 0 x rfl]

end Cells

/-- A fixed number of values, as a vector. -/
def vector (c : Codec α) (n : Nat) : Codec (Vector α n) where
  width := n * c.width
  encode v := v.toList.flatMap c.encode
  decode bytes := Vector.ofFn fun i => c.load i bytes
  Fits v := ∀ a ∈ v.toList, c.Fits a
  encode_length v := by
    rw [List.length_flatMap, List.map_congr_left fun a _ => c.encode_length a, List.map_const',
      List.sum_replicate_nat, Vector.length_toList]
  decode_encode v fits := by
    refine Vector.ext fun i hi => ?_
    have cells : c.cells (fun j => if h : j < n then v[j] else v[i]) 0 n =
      v.toList.flatMap c.encode := by
      have list := c.cells_list (f := fun j => if h : j < n then v[j] else v[i]) v.toList (s := 0)
        fun j x hj => by
        obtain ⟨inside, rfl⟩ := List.getElem?_eq_some_iff.mp hj
        have inside : j < n := by simpa using inside
        simp [inside]
      rwa [Vector.length_toList] at list
    rw [Vector.getElem_ofFn, ← cells, c.load_cells hi] <;> simp only [dif_pos hi]
    exact fits _ (by simp)

theorem vector_zero {c : Codec α} {zero : α} (h : c.encode zero = List.replicate c.width 0) (n : Nat) :
    (c.vector n).encode (Vector.replicate n zero) = List.replicate (c.vector n).width 0 := by
  have cells := c.cells_list (f := fun _ => zero) (List.replicate n zero) (s := 0) fun i x hx => by
    simpa using (List.eq_of_mem_replicate (List.mem_of_getElem? hx)).symm
  rw [List.length_replicate, c.cells_zero h] at cells
  simp only [vector, Vector.toList_replicate]
  exact cells.symm

end Codec

end FsCore
