import EbpfIsp.Device.Nvme

/-! # Matrices on flash

`generate_random_matrix.c` writes 1024 matrices of 65536 numbers below 1024,
64 blocks each, from block 1024 on. All programs of `npsum/` address matrix `i`
at block `1024 + i * 64`.
-/

namespace EbpfIsp.Npsum
open Library Device HostProgram

def numMatrix : ℕ := 1024

def matrixElements : ℕ := 65536

def randomRange : CInt := 1024

def matrixWord (f : Flash 1024 CInt) (i w : ℕ) : CInt :=
  f (1024 + i * 64 + w / 1024) ⟨w % 1024, word_lt w⟩

def matrixSlba (i : ℕ) : CInt := 1024 + BitVec.ofNat 32 i * 64

theorem matrixSlba_toNat {i : ℕ} (hi : i < numMatrix) : (matrixSlba i).toNat = 1024 + i * 64 := by
  have h1024 : (1024 : CInt).toNat = 1024 := rfl
  have h64 : (64 : CInt).toNat = 64 := rfl
  rw [numMatrix] at hi
  rw [matrixSlba, CInt.toNat_add_ofNat_mul _ _ (by omega) (by rw [h1024, h64]; omega), h1024, h64]

theorem matrixSlba_signExtend {i : ℕ} (hi : i < numMatrix) :
    ((matrixSlba i).signExtend 64).toNat = 1024 + i * 64 := by
  have hv := matrixSlba_toNat hi
  rw [numMatrix] at hi
  rw [CInt.toNat_signExtend_of_lt (by omega), hv]

theorem matrix_window (f : Flash 1024 CInt) (i : ℕ) {w : ℕ} (hw : w < matrixElements) :
    (f.window (1024 + i * 64) (63 + 1)).load w = some (matrixWord f i w) := by
  rw [matrixElements] at hw
  rw [Flash.window_load _ _ _ (by omega), Region.load_of_lt _ (word_lt w)]
  rfl

/-- The number that `rand() % RANDOM_RANGE` puts at word `w` of matrix `i`. -/
def matrixEntry (rand : ℕ → ℕ → CInt) (i w : ℕ) : CInt := (rand i w).srem randomRange

/-- One iteration of `generate_random_matrix.c`: `rand it w` is the random number drawn for
word `w` of matrix `it`. -/
def writeMatrix (rand : ℕ → ℕ → CInt) (it : ℕ) (buf : ℕ → CInt) : Host CInt (ℕ → CInt) := do
  let buf := fill (matrixEntry rand it) matrixElements buf
  let r ← issue (.submitIo ⟨.write, 63, buf, (1024 + 64 * BitVec.ofNat 32 it : CInt).signExtend 64⟩)
  printfIf (r.ret ≠ 0) "error %d occured while writing matrix %d\n" [r.ret, BitVec.ofNat 32 it]
  return buf

/-- `main` of `generate_random_matrix.c`; `fresh` is the allocated buffer. -/
def generateRandomMatrix (fresh : ℕ → CInt) (rand : ℕ → ℕ → CInt) : Host CInt Unit := do
  let _ ← loop numMatrix (writeMatrix rand) fresh
  return ()

section Generate
variable (kernel : Kernel 1024 CInt) {rand : ℕ → ℕ → CInt}

theorem generateSlba (it : ℕ) : (1024 + 64 * BitVec.ofNat 32 it : CInt) = matrixSlba it := by
  rw [matrixSlba, BitVec.mul_comm]

theorem matrixWord_overwrite_self (f : Flash 1024 CInt) (i : ℕ) (buf : ℕ → CInt) {w : ℕ}
    (hw : w < matrixElements) :
    matrixWord (f.overwrite (1024 + i * 64) (63 + 1) buf) i w = buf w := by
  rw [matrixElements] at hw
  rw [matrixWord, Flash.overwrite_of_mem _ _ (by omega), Nat.add_sub_cancel_left]
  congr 1
  exact Nat.div_add_mod' w 1024

theorem matrixWord_overwrite_of_ne (f : Flash 1024 CInt) {i i' : ℕ} (hne : i' ≠ i) (buf : ℕ → CInt)
    {w : ℕ} (hw : w < matrixElements) :
    matrixWord (f.overwrite (1024 + i * 64) (63 + 1) buf) i' w = matrixWord f i' w := by
  rw [matrixElements] at hw
  rw [matrixWord, Flash.overwrite_of_not_mem _ _ (by omega)]
  rfl

theorem writeMatrix_run {it : ℕ} (hit : it < numMatrix) (d : Ssd 1024 CInt) (buf : ℕ → CInt) :
    (writeMatrix rand it buf).run (Ssd.exec kernel) d =
      some (d.overwrite (1024 + it * 64) (63 + 1)
        (fill (matrixEntry rand it) matrixElements buf), [],
        fill (matrixEntry rand it) matrixElements buf) := by
  rw [writeMatrix, generateSlba, run_issue_bind _ (Ssd.exec_write kernel d _ _ _),
    matrixSlba_signExtend hit]
  exact run_bind_of _ (printfIf_run _ (fun h => h rfl) _ _ _) (run_done _ _ _)

/-- All writes succeeding, flash holds the matrices and the map pages are as before. -/
theorem generateRandomMatrix_run (rand : ℕ → ℕ → CInt) (d : Ssd 1024 CInt) (fresh : ℕ → CInt) :
    ∃ d', (generateRandomMatrix fresh rand).run (Ssd.exec kernel) d = some (d', [], ()) ∧
      d'.mapPage = d.mapPage ∧
      ∀ i < numMatrix, ∀ w < matrixElements, matrixWord d'.flash i w = matrixEntry rand i w := by
  obtain ⟨d', os, buf, hrun, rfl, hpage, hwords⟩ := run_loop (Ssd.exec kernel)
    (fun n d' os (_ : ℕ → CInt) => os = [] ∧ d'.mapPage = d.mapPage ∧
      ∀ i < n, ∀ w < matrixElements, matrixWord d'.flash i w = matrixEntry rand i w) numMatrix
    (writeMatrix rand) d fresh ⟨rfl, rfl, by simp⟩ (by
      rintro it hit d₁ _ buf ⟨rfl, hpage, hwords⟩
      refine ⟨_, _, _, writeMatrix_run kernel hit d₁ buf, rfl, hpage, ?_⟩
      intro i hi w hw
      rw [Ssd.overwrite_flash]
      by_cases hin : i = it
      · subst hin
        rw [matrixWord_overwrite_self _ _ _ hw, fill_apply, if_pos hw]
      · rw [matrixWord_overwrite_of_ne _ hin _ hw]
        exact hwords i (by omega) w hw)
  refine ⟨d', ?_, hpage, hwords⟩
  rw [generateRandomMatrix]
  exact run_bind_of _ hrun (run_done _ _ _)

/-- Entries are below the range when the random numbers are not negative. -/
theorem matrixEntry_range {i w : ℕ} (h : 0 ≤ (rand i w).toInt) :
    0 ≤ (matrixEntry rand i w).toInt ∧ (matrixEntry rand i w).toInt ≤ 1023 := by
  have hr : randomRange.toInt = 1024 := by decide
  rw [matrixEntry, CInt.toInt_srem_of_nonneg h, hr]
  omega

end Generate

end EbpfIsp.Npsum
