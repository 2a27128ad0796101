import Mathlib.Algebra.Order.Group.Nat
import Mathlib.Data.List.Range

namespace FsCore

/-- The `w` low bytes of a number, lowest first. -/
def toBytes : Nat → Nat → List UInt8
  | 0, _ => []
  | w + 1, v => UInt8.ofNat v :: toBytes w (v / 256)

def ofBytes : List UInt8 → Nat
  | [] => 0
  | b :: bs => b.toNat + 256 * ofBytes bs

/-- Values of a fixed width one after the other. -/
def toBlob (w : Nat) (values : List Nat) : List UInt8 := values.flatMap (toBytes w)

/-- As many whole values as there are. -/
def blobToValues (w : Nat) (blob : List UInt8) : List Nat :=
  (List.range (blob.length / w)).map fun i => ofBytes ((blob.drop (i * w)).take w)

@[simp] theorem toBytes_length (w v : Nat) : (toBytes w v).length = w := by
  induction w generalizing v with
  | zero => rfl
  | succ w ih => rw [toBytes, List.length_cons, ih]

theorem ofBytes_toBytes {w v : Nat} (h : v < 256 ^ w) : ofBytes (toBytes w v) = v := by
  induction w generalizing v with
  | zero =>
    rw [pow_zero] at h
    exact (Nat.lt_one_iff.mp h).symm
  | succ w ih =>
    have high : v / 256 < 256 ^ w := Nat.div_lt_of_lt_mul (by rwa [pow_succ'] at h)
    rw [toBytes, ofBytes, ih high, UInt8.toNat_ofNat']
    exact Nat.mod_add_div v 256

theorem toBlob_append (w : Nat) (xs ys : List Nat) : toBlob w (xs ++ ys) = toBlob w xs ++ toBlob w ys :=
  List.flatMap_append

theorem toBlob_length (w : Nat) (values : List Nat) : (toBlob w values).length = values.length * w := by
  induction values with
  | nil => rw [toBlob, List.flatMap_nil, List.length_nil, List.length_nil, Nat.zero_mul]
  | cons v values ih =>
    rw [toBlob, List.flatMap_cons, List.length_append, toBytes_length, List.length_cons,
      Nat.succ_mul, Nat.add_comm]
    congr 1

@[simp] theorem blobToValues_length (w : Nat) (blob : List UInt8) :
    (blobToValues w blob).length = blob.length / w := by
  rw [blobToValues, List.length_map, List.length_range]

theorem blobToValues_toBlob {w : Nat} (hw : 0 < w) {values : List Nat} (h : ∀ v ∈ values, v < 256 ^ w) :
    blobToValues w (toBlob w values) = values := by
  induction values with
  | nil =>
    rw [toBlob, List.flatMap_nil, blobToValues, List.length_nil, Nat.zero_div,
      List.range_zero, List.map_nil]
  | cons v values ih =>
    have count : (toBlob w (v :: values)).length / w = (toBlob w values).length / w + 1 := by
      rw [toBlob, List.flatMap_cons, List.length_append, toBytes_length, Nat.add_comm,
        Nat.add_div_right _ hw]
      rfl
    have later (i : Nat) : (toBlob w (v :: values)).drop ((i + 1) * w) =
      (toBlob w values).drop (i * w) := by
      rw [show (i + 1) * w = w + i * w by rw [Nat.succ_mul, Nat.add_comm], ← List.drop_drop, toBlob,
        List.flatMap_cons, List.drop_left' (toBytes_length w v)]
      rfl
    rw [blobToValues, count, List.range_succ_eq_map, List.map_cons, List.map_map]
    congr 1
    · rw [Nat.zero_mul, List.drop_zero, toBlob, List.flatMap_cons, List.take_left' (toBytes_length w v)]
      exact ofBytes_toBytes (h v (by simp))
    · calc
        _ = blobToValues w (toBlob w values) := List.map_congr_left fun i _ => by
          rw [Function.comp_apply, Nat.succ_eq_add_one, later]
        _ = values := ih fun x hx => h x (by simp [hx])

end FsCore
