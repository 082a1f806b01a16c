import Mathlib.Data.List.Basic
import Mathlib.Logic.Function.Basic

/-!
# Rows of one array

Rows of `width` cells, one behind the other in an array. `row` is the beginning of a
row that is in use. Writing the next cell of a row appends to it
(`row_update_next`) and leaves the others (`row_update_of_ne`).
-/

namespace RayPlatform.Lib.Rows

variable {α : Type*} {width i i' j j' : Nat}

/-- Where cell `j` of row `i` is in the array. -/
def position (width i j : Nat) : Nat :=
  i * width + j

/-- The first `n` cells of row `i`. -/
def row (data : Nat → α) (width i n : Nat) : List α :=
  (List.range n).map fun j => data (position width i j)

theorem position_lt {rows : Nat} (hi : i < rows) (hj : j < width) :
    position width i j < width * rows :=
  calc i * width + j < (i + 1) * width := by rw [Nat.succ_mul]; omega
    _ ≤ rows * width := Nat.mul_le_mul_right width hi
    _ = width * rows := Nat.mul_comm _ _

theorem position_ne_of_lt (hlt : i < i') (hj : j < width) :
    position width i j ≠ position width i' j' := by
  have hrow := position_lt hlt hj
  rw [Nat.mul_comm] at hrow
  unfold position at *
  omega

theorem position_ne (hne : i ≠ i') (hj : j < width) (hj' : j' < width) :
    position width i j ≠ position width i' j' := by
  rcases Nat.lt_or_gt_of_ne hne with hlt | hlt
  · exact position_ne_of_lt hlt hj
  · exact (position_ne_of_lt hlt hj').symm

@[simp] theorem length_row (data : Nat → α) (width i n : Nat) :
    (row data width i n).length = n := by
  simp [row]

@[simp] theorem row_zero (data : Nat → α) (width i : Nat) : row data width i 0 = [] := rfl

theorem row_congr {data data' : Nat → α} {n : Nat}
    (h : ∀ j < n, data' (position width i j) = data (position width i j)) :
    row data' width i n = row data width i n :=
  List.map_congr_left fun j hj => h j (List.mem_range.mp hj)

theorem row_update_next (data : Nat → α) (width i n : Nat) (x : α) :
    row (Function.update data (position width i n) x) width i (n + 1) =
      row data width i n ++ [x] := by
  have hsame : row (Function.update data (position width i n) x) width i n =
      row data width i n := by
    refine row_congr fun j hj => Function.update_of_ne ?_ _ _
    unfold position
    omega
  rw [← hsame]
  simp [row, List.range_succ]

theorem row_update_of_ne (data : Nat → α) {n : Nat} (x : α) (hne : i ≠ i') (hn : n ≤ width)
    (hj' : j' < width) :
    row (Function.update data (position width i' j') x) width i n = row data width i n :=
  row_congr fun _ hj => Function.update_of_ne (position_ne hne (Nat.lt_of_lt_of_le hj hn) hj') _ _

end RayPlatform.Lib.Rows
