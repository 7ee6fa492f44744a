import EbpfIsp.Device.Nvme

/-! # The matrix sum kernel

`npsum.c` sums a matrix of 64 blocks along the first axis or the second axis
into the map page, or all of it into the returned value. The lemmas give the
result for data that is present; the page is accumulated into, not overwritten.
-/

namespace EbpfIsp.Kernels
open Library Device

def axis0Length : ℕ := 64

def axis1Length : ℕ := 1024

/-- `for (i < rows) for (j < cols) result_array[j] += array[i*cols + j];` -/
def sumRows {n : ℕ} (rows cols : ℕ) (array : Region n CInt) (page : Region 1024 CInt) :
    Option (Region 1024 CInt) :=
  forLoop rows (fun i page =>
    forLoop cols (fun j page =>
      (array.load (i * cols + j)).bind fun x => page.addAt j x) page) page

def npsum : Kernel 1024 CInt := fun axis _ _ array resultArray =>
  if axis = 0 then
    (sumRows axis0Length axis1Length array resultArray).map fun page => (0, page)
  else if axis = 1 then
    (sumRows axis1Length axis0Length array resultArray).map fun page => (0, page)
  else
    (forLoop (axis0Length * axis1Length) (fun i ret =>
      (array.load i).map fun x => ret + x) 0).map fun ret => (ret, resultArray)

section Spec
variable {n : ℕ} {array : Region n CInt} {x : ℕ → CInt}

def colSums (x : ℕ → CInt) (rows cols : ℕ) : Region 1024 CInt :=
  fun w => if w.val < cols then ∑ i ∈ Finset.range rows, x (i * cols + w.val) else 0

theorem colSums_zero (x : ℕ → CInt) (cols : ℕ) : colSums x 0 cols = 0 := by
  funext w
  simp [colSums]

theorem colSums_succ (x : ℕ → CInt) (rows cols : ℕ) (page : Region 1024 CInt) :
    addSpan (page + colSums x rows cols) 0 cols (fun j => x (rows * cols + j)) =
      page + colSums x (rows + 1) cols := by
  funext w
  simp only [addSpan, Pi.add_apply, colSums, Nat.zero_le, true_and, Nat.zero_add, Nat.sub_zero]
  split_ifs with h
  · rw [Finset.sum_range_succ, add_assoc]
  · rw [add_zero]

/-- The column sums are added to the page. -/
theorem sumRows_eq {rows cols : ℕ} (hcols : cols ≤ 1024)
    (hx : ∀ w < rows * cols, array.load w = some (x w)) (page : Region 1024 CInt) :
    sumRows rows cols array page = some (page + colSums x rows cols) := by
  have hloop := forLoop_eq (fun i => page + colSums x i cols) rows
    (fun i page => forLoop cols (fun j page =>
      (array.load (i * cols + j)).bind fun x => page.addAt j x) page) (by
      intro i hi
      rw [forLoop_addSpan _ 0 cols (fun j => j) _ (fun j => x (i * cols + j)) (by omega)
        (fun j _ => (Nat.zero_add j).symm) ?_, colSums_succ]
      · rfl
      · intro j hj
        exact hx _ (rowMajor_lt hi hj))
  rw [colSums_zero, add_zero] at hloop
  exact hloop

variable (hx : ∀ w < 64 * 1024, array.load w = some (x w)) (p : CInt) (page : Region 1024 CInt)
include hx

theorem npsum_axis0 : npsum 0 p n array page = some (0, page + colSums x 64 1024) := by
  rw [npsum, if_pos rfl, axis0Length, axis1Length, sumRows_eq le_rfl hx]
  rfl

theorem npsum_axis1 : npsum 1 p n array page = some (0, page + colSums x 1024 64) := by
  rw [npsum, if_neg (by decide), if_pos rfl, axis0Length, axis1Length,
    sumRows_eq (by decide) (fun w hw => hx w (by omega))]
  rfl

/-- Any other axis sums the whole matrix and leaves the page. -/
theorem npsum_noaxis {axis : CInt} (h₀ : axis ≠ 0) (h₁ : axis ≠ 1) :
    npsum axis p n array page = some (∑ i ∈ Finset.range (64 * 1024), x i, page) := by
  have hloop := forLoop_eq (fun i => ∑ k ∈ Finset.range i, x k) (64 * 1024)
    (fun i ret => (array.load i).map fun x => ret + x) (by
      intro i hi
      rw [hx i hi, Finset.sum_range_succ]
      rfl)
  rw [npsum, if_neg h₀, if_neg h₁, axis0Length, axis1Length]
  rw [Finset.sum_range_zero] at hloop
  rw [hloop]
  rfl

end Spec

end EbpfIsp.Kernels
