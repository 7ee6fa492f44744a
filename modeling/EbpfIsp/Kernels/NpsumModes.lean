import EbpfIsp.Library.Chunks
import EbpfIsp.Kernels.Npsum

/-! # The three modes of the matrix sum

All modes of `npsum` add up the same 65536 words, so the totals agree. They do
not agree on what a row is: along the second axis the kernel takes the words as
1024 rows of 64, so slot `r` collects the columns congruent to `r` modulo 64 of
the 64 rows of 1024 that the first axis has.
-/

namespace EbpfIsp.Kernels
open Library Device Finset

def matrixOf (array : Region 65536 CInt) (w : ℕ) : CInt := (array.load w).getD 0

theorem load_matrixOf (array : Region 65536 CInt) :
    ∀ w < 64 * 1024, array.load w = some (matrixOf array w) :=
  fun _ hw => array.load_eq_some_getD hw 0

/-- The column sums add up to all words, whatever the shape. -/
theorem sum_colSums (x : ℕ → CInt) {rows cols : ℕ} (hcols : cols ≤ 1024) :
    ∑ w, colSums x rows cols w = ∑ k ∈ range (rows * cols), x k := by
  have hpage : ∑ w, colSums x rows cols w =
      ∑ w ∈ range 1024, if w < cols then ∑ i ∈ range rows, x (i * cols + w) else 0 :=
    Fin.sum_univ_eq_sum_range
      (fun w => if w < cols then ∑ i ∈ range rows, x (i * cols + w) else 0) 1024
  have hcut : ∑ w ∈ range cols, (if w < cols then ∑ i ∈ range rows, x (i * cols + w) else 0) =
      ∑ w ∈ range 1024, if w < cols then ∑ i ∈ range rows, x (i * cols + w) else 0 := by
    apply sum_subset (range_mono hcols)
    intro w _ hw
    exact if_neg (fun h => hw (mem_range.mpr h))
  calc ∑ w, colSums x rows cols w
      = ∑ w ∈ range cols, if w < cols then ∑ i ∈ range rows, x (i * cols + w) else 0 := by
        rw [hpage, hcut]
    _ = ∑ w ∈ range cols, ∑ i ∈ range rows, x (i * cols + w) :=
        sum_congr rfl fun w hw => if_pos (mem_range.mp hw)
    _ = ∑ i ∈ range rows, ∑ w ∈ range cols, x (i * cols + w) := sum_comm
    _ = ∑ k ∈ range (rows * cols), x k := sum_range_chunks x cols rows

theorem npsum_isSome (array : Region 65536 CInt) (axis p : CInt) (page : Region 1024 CInt) :
    (npsum axis p _ array page).isSome := by
  have hx := load_matrixOf array
  by_cases h₀ : axis = 0
  · rw [h₀, npsum_axis0 hx, Option.isSome_some]
  by_cases h₁ : axis = 1
  · rw [h₁, npsum_axis1 hx, Option.isSome_some]
  · rw [npsum_noaxis hx p page h₀ h₁, Option.isSome_some]

theorem sum_matrixOf (array : Region 65536 CInt) :
    ∑ k ∈ range (64 * 1024), matrixOf array k = ∑ k, array k := by
  rw [← Fin.sum_univ_eq_sum_range (matrixOf array)]
  apply Fintype.sum_congr
  intro k
  rw [matrixOf, Region.load_of_lt _ k.isLt, Option.getD_some]

/-- Every mode conserves the total of the matrix: along an axis in the page, otherwise as the
returned value. None of them leaves the 65536 words of the matrix or the 1024 words of the page:
there an access has no result. -/
theorem npsum_modes_total (array : Region 65536 CInt) (p : CInt) :
    (∃ page₀ page₁ : Region 1024 CInt, npsum 0 p _ array 0 = some (0, page₀) ∧
      npsum 1 p _ array 0 = some (0, page₁) ∧
      ∑ w, page₀ w = ∑ k, array k ∧ ∑ w, page₁ w = ∑ k, array k) ∧
    (∀ axis, axis ≠ 0 → axis ≠ 1 → npsum axis p _ array 0 = some (∑ k, array k, 0)) ∧
    (∀ page : Region 1024 CInt, ∃ page', npsum 1 p _ array page = some (0, page') ∧
      ∀ w : Fin 1024, 64 ≤ w.val → page' w = page w) ∧
    ∀ (axis : CInt) (page : Region 1024 CInt), (npsum axis p _ array page).isSome := by
  have hx := load_matrixOf array
  refine ⟨⟨_, _, npsum_axis0 hx p 0, npsum_axis1 hx p 0, ?_, ?_⟩, ?_, ?_, fun axis page =>
    npsum_isSome array axis p page⟩
  · rw [zero_add, sum_colSums _ le_rfl, sum_matrixOf]
  · rw [zero_add, sum_colSums _ (by decide), Nat.mul_comm, sum_matrixOf]
  · intro axis h₀ h₁
    rw [npsum_noaxis hx p 0 h₀ h₁, sum_matrixOf]
  · intro page
    refine ⟨_, npsum_axis1 hx p page, fun w hw => ?_⟩
    rw [Pi.add_apply, colSums, if_neg (Nat.not_lt.mpr hw), add_zero]

def wordNumbers : Region 65536 CInt := fun k => k.val

theorem sum_wordNumbers : ∑ k, wordNumbers k = 2147450880 := by
  have htotal : ∑ k ∈ range 65536, k = 2147450880 := by rw [sum_range_id]
  calc ∑ k, wordNumbers k
      = ∑ k ∈ range 65536, (k : CInt) := Fin.sum_univ_eq_sum_range (fun k => (k : CInt)) 65536
    _ = ((∑ k ∈ range 65536, k : ℕ) : CInt) := (Nat.cast_sum _ _).symm
    _ = 2147450880 := by rw [htotal]; rfl

theorem npsum_modes_total_wordNumbers : ∃ page₀ page₁ : Region 1024 CInt,
    npsum 0 0 65536 wordNumbers 0 = some (0, page₀) ∧ ∑ w, page₀ w = 2147450880 ∧
      npsum 1 0 65536 wordNumbers 0 = some (0, page₁) ∧ ∑ w, page₁ w = 2147450880 ∧
      npsum 2 0 65536 wordNumbers 0 = some (2147450880, 0) := by
  obtain ⟨⟨page₀, page₁, h₀, h₁, hsum₀, hsum₁⟩, hother, -⟩ := npsum_modes_total wordNumbers 0
  rw [← sum_wordNumbers]
  exact ⟨page₀, page₁, h₀, hsum₀, h₁, hsum₁, hother 2 (by decide) (by decide)⟩

/-! ### Rows of the second axis -/

/-- Element `(r, c)` of the matrix of 64 rows and 1024 columns. -/
def element (array : Region 65536 CInt) (r c : ℕ) : CInt := matrixOf array (r * 1024 + c)

/-- What slot `r` of the page collects along the second axis. -/
theorem axis1_slot (array : Region 65536 CInt) {r : ℕ} (hr : r < 64) :
    (colSums (matrixOf array) 1024 64).load r =
      some (∑ ρ ∈ range 64, ∑ q ∈ range 16, element array ρ (q * 64 + r)) := by
  rw [Region.load_of_lt _ (by omega), colSums, if_pos hr]
  apply congrArg some
  rw [← sum_range_chunks (fun i => matrixOf array (i * 64 + r)) 16 64]
  apply sum_congr rfl
  intro ρ _
  apply sum_congr rfl
  intro q _
  rw [element]
  congr 1
  ring

/-- The page holds the row sums of the matrix. -/
def RowSums (array : Region 65536 CInt) (page : Region 1024 CInt) : Prop :=
  ∀ r < 64, page.load r = some (∑ c ∈ range 1024, element array r c)

theorem rowSums_axis1_iff (array : Region 65536 CInt) :
    RowSums array (colSums (matrixOf array) 1024 64) ↔
      ∀ r < 64, ∑ ρ ∈ range 64, ∑ q ∈ range 16, element array ρ (q * 64 + r) =
        ∑ c ∈ range 1024, element array r c := by
  apply forall₂_congr
  intro r hr
  rw [axis1_slot array hr, Option.some_inj]

/-- The second axis gives the row sums exactly for the matrices in which the
columns congruent to `r` modulo 64 add up to row `r`. -/
theorem npsum_axis1_rowSums_iff (array : Region 65536 CInt) (p : CInt) :
    (∃ ret page, npsum 1 p _ array 0 = some (ret, page) ∧ RowSums array page) ↔
      ∀ r < 64, ∑ ρ ∈ range 64, ∑ q ∈ range 16, element array ρ (q * 64 + r) =
        ∑ c ∈ range 1024, element array r c := by
  rw [npsum_axis1 (load_matrixOf array), zero_add, ← rowSums_axis1_iff]
  constructor
  · rintro ⟨ret, page, hrun, hrows⟩
    cases hrun
    exact hrows
  · intro hrows
    exact ⟨0, _, rfl, hrows⟩

def singleOne : Region 65536 CInt := fun w => if w.val = 1 then 1 else 0

theorem matrixOf_singleOne {w : ℕ} (hw : w < 65536) :
    matrixOf singleOne w = if w = 1 then 1 else 0 := by
  rw [matrixOf, Region.load_of_lt _ hw, Option.getD_some, singleOne]

/-- The one is counted in row 1: slot 0 is left at 0. -/
theorem npsum_axis1_singleOne : ∃ ret page, npsum 1 0 _ singleOne 0 = some (ret, page) ∧
    page.load 0 = some 0 ∧ ∑ c ∈ range 1024, element singleOne 0 c = 1 ∧
      ¬ RowSums singleOne page := by
  have hslot : (colSums (matrixOf singleOne) 1024 64).load 0 = some 0 := by
    rw [Region.load_of_lt _ (by decide), colSums, if_pos (by decide)]
    apply congrArg some
    apply sum_eq_zero
    intro i hi
    rw [mem_range] at hi
    change matrixOf singleOne (i * 64 + 0) = 0
    rw [matrixOf_singleOne (by omega), if_neg (by omega)]
  have hrow : ∑ c ∈ range 1024, element singleOne 0 c = 1 := by
    rw [sum_eq_single_of_mem 1 (mem_range.mpr (by decide))]
    · rw [element, matrixOf_singleOne (by decide), if_pos rfl]
    · intro c hc hne
      rw [mem_range] at hc
      rw [element, matrixOf_singleOne (by omega), if_neg (by omega)]
  refine ⟨0, _, npsum_axis1 (load_matrixOf _) 0 0, ?_⟩
  rw [zero_add]
  refine ⟨hslot, hrow, fun hrows => ?_⟩
  have h := hrows 0 (by decide)
  rw [hslot, hrow, Option.some_inj] at h
  exact absurd h (by decide)

end EbpfIsp.Kernels
