import EbpfIsp.Library.Accumulator
import EbpfIsp.Npsum.Agreement

/-! # Overflow of the host accumulators

`host_axis0.c` and `host_axis1.c` add the column sums of 1024 matrices to
`result`, 32 times over and without a reset. Along the first axis each slot
gets 64 numbers of a matrix, along the second one 1024. For numbers below 1024
the first fits into an `int` in every case; the second does not.
-/

namespace EbpfIsp.Npsum
open Library Device HostProgram Finset

def accumulateRows (buf : ℕ → CInt) (rows cols : ℕ) (a : Accumulators 32) : Accumulators 32 :=
  forPure rows (fun idx a => forPure cols (fun jdx a => a.add jdx (buf (idx * cols + jdx))) a) a

def hostAxisMatrix (rows cols i : ℕ) (mem : (ℕ → CInt) × Accumulators 32) :
    Host CInt ((ℕ → CInt) × Accumulators 32) := do
  let r ← issue (.submitIo ⟨.read, 63, mem.1, (matrixSlba i).signExtend 64⟩)
  let buf := r.into mem.1
  if r.ret ≠ 0 then
    printf "iteration %d: err %d\n" [BitVec.ofNat 32 i, r.ret]
    return (buf, mem.2)
  else
    return (buf, accumulateRows buf rows cols mem.2)

/-- The iterations of an axis program, which share the result array. -/
def hostAxis (rows cols itTime : ℕ) (freshBuf result : ℕ → CInt) :
    Host CInt (Accumulators 32) := do
  let mem ← loop itTime (fun _ => loop numMatrix (hostAxisMatrix rows cols))
    (freshBuf, ⟨result, []⟩)
  printf "---- Test end ----\n" []
  return mem.2

/-- `host_axis0.c`; the result array at the end, with all additions made to it. -/
def hostAxis0 (freshBuf result : ℕ → CInt) : Host CInt (Accumulators 32) :=
  hostAxis 64 1024 32 freshBuf result

def hostAxis1 (freshBuf result : ℕ → CInt) : Host CInt (Accumulators 32) :=
  hostAxis 1024 64 32 freshBuf result

theorem slots_accumulateRows (buf : ℕ → CInt) (rows cols : ℕ) (a : Accumulators 32) :
    (accumulateRows buf rows cols a).slots = hostSumRows buf rows cols a.slots := by
  apply forPure_map Accumulators.slots
  intro idx a
  apply forPure_map Accumulators.slots
  intro jdx a
  rfl

/-- All reads succeeding, the program ends and no addition has left the `int` range. -/
def NoOverflow (kernel : Kernel 1024 CInt) (d : Ssd 1024 CInt)
    (program : Host CInt (Accumulators 32)) : Prop :=
  ∃ os a, program.run (Ssd.exec kernel) d = some (d, os, a) ∧ a.InRange

section Totals
variable {kernel : Kernel 1024 CInt} {d : Ssd 1024 CInt} {rows cols : ℕ}

def EntriesInRange (f : Flash 1024 CInt) : Prop :=
  ∀ i < numMatrix, ∀ w < matrixElements,
    0 ≤ (matrixWord f i w).toInt ∧ (matrixWord f i w).toInt < 1024

/-- This is what `generate_random_matrix.c` leaves, `rand()` being non-negative. -/
theorem generateRandomMatrix_entriesInRange (d : Ssd 1024 CInt) (fresh : ℕ → CInt)
    {rand : ℕ → ℕ → CInt} (hrand : ∀ i w, 0 ≤ (rand i w).toInt) :
    ∃ d', (generateRandomMatrix fresh rand).run (Ssd.exec kernel) d = some (d', [], ()) ∧
      EntriesInRange d'.flash := by
  obtain ⟨d', hrun, -, hwords⟩ := generateRandomMatrix_run kernel rand d fresh
  refine ⟨d', hrun, fun i hi w hw => ?_⟩
  have hentry := matrixEntry_range (hrand i w)
  rw [hwords i hi w hw]
  omega

theorem EntriesInRange.toNat_lt {f : Flash 1024 CInt} (h : EntriesInRange f) {i w : ℕ}
    (hi : i < numMatrix) (hw : w < matrixElements) : (matrixWord f i w).toNat < 1024 := by
  have hentry := h i hi w hw
  have hcast := CInt.natCast_toNat hentry.1
  omega

def slotSum (f : Flash 1024 CInt) (rows cols i j : ℕ) : ℕ :=
  if j < cols then ∑ idx ∈ range rows, (matrixWord f i (idx * cols + j)).toNat else 0

theorem accumulateRows_tracks {f : Flash 1024 CInt} (hf : EntriesInRange f)
    (hshape : rows * cols = matrixElements) {i : ℕ} (hi : i < numMatrix) {buf : ℕ → CInt}
    (hbuf : ∀ w < matrixElements, buf w = matrixWord f i w) {a : Accumulators 32} {P : ℕ → ℕ}
    (ha : a.Tracks P) :
    (accumulateRows buf rows cols a).Tracks fun j => P j + slotSum f rows cols i j := by
  have hrows := forPure_invariant
    (fun n (a : Accumulators 32) => a.Tracks fun j => P j +
      if j < cols then ∑ idx ∈ range n, (matrixWord f i (idx * cols + j)).toNat else 0) rows
    (fun idx a => forPure cols (fun jdx a => a.add jdx (buf (idx * cols + jdx))) a) a
    (by simpa using ha) (by
      intro idx hidx a ha
      have hlt : ∀ j < cols, idx * cols + j < matrixElements := fun j hj =>
        hshape ▸ rowMajor_lt hidx hj
      have hrow := ha.addRow (by decide) (v := fun j => buf (idx * cols + j)) (n := cols) (by
        intro j hj
        have hentry := hf.toNat_lt hi (hlt j hj)
        rw [hbuf _ (hlt j hj)]
        omega)
      convert hrow using 1
      funext j
      split_ifs with hj
      · rw [sum_range_succ, hbuf _ (hlt j hj), Nat.add_assoc]
      · rfl)
  exact hrows

theorem hostAxisMatrix_run (hf : EntriesInRange d.flash) (hshape : rows * cols = matrixElements)
    {i : ℕ} (hi : i < numMatrix) {mem : (ℕ → CInt) × Accumulators 32} {P : ℕ → ℕ}
    (hmem : mem.2.Tracks P) :
    ∃ mem', (hostAxisMatrix rows cols i mem).run (Ssd.exec kernel) d = some (d, [], mem') ∧
      mem'.2.Tracks fun j => P j + slotSum d.flash rows cols i j := by
  rw [hostAxisMatrix, run_issue_bind _ (exec_readMatrix d kernel hi mem.1)]
  refine ⟨_, run_done _ _ _, ?_⟩
  exact accumulateRows_tracks hf hshape hi (fun w hw => readMatrix_into d.flash mem.1 hw) hmem

def slotTotal (f : Flash 1024 CInt) (rows cols j : ℕ) : ℕ :=
  ∑ i ∈ range numMatrix, slotSum f rows cols i j

theorem hostAxisIteration_run (hf : EntriesInRange d.flash) (hshape : rows * cols = matrixElements)
    {mem : (ℕ → CInt) × Accumulators 32} {P : ℕ → ℕ} (hmem : mem.2.Tracks P) :
    ∃ mem', (loop numMatrix (hostAxisMatrix rows cols) mem).run (Ssd.exec kernel) d =
        some (d, [], mem') ∧
      mem'.2.Tracks fun j => P j + slotTotal d.flash rows cols j := by
  obtain ⟨_, _, mem', hrun, rfl, rfl, hmem'⟩ := run_loop (Ssd.exec kernel)
    (fun n d' os mem => d' = d ∧ os = [] ∧
      mem.2.Tracks fun j => P j + ∑ i ∈ range n, slotSum d.flash rows cols i j)
    numMatrix (hostAxisMatrix rows cols) d mem ⟨rfl, rfl, by simpa using hmem⟩ (by
      rintro i hi _ _ mem ⟨rfl, rfl, hmem⟩
      obtain ⟨mem', hrun, hmem'⟩ := hostAxisMatrix_run hf hshape hi hmem
      refine ⟨_, _, mem', hrun, rfl, rfl, ?_⟩
      simp only [sum_range_succ]
      simpa only [Nat.add_assoc] using hmem')
  exact ⟨mem', hrun, hmem'⟩

/-- The whole program: every iteration contributes the same totals. -/
theorem hostAxis_run (hf : EntriesInRange d.flash) (hshape : rows * cols = matrixElements)
    (itTime : ℕ) (freshBuf : ℕ → CInt) :
    ∃ a, (hostAxis rows cols itTime freshBuf fun _ => 0).run (Ssd.exec kernel) d =
        some (d, [⟨"---- Test end ----\n", []⟩], a) ∧
      a.Tracks fun j => itTime * slotTotal d.flash rows cols j := by
  obtain ⟨_, _, mem, hrun, rfl, rfl, hmem⟩ := run_loop (Ssd.exec kernel)
    (fun t d' os mem => d' = d ∧ os = [] ∧
      mem.2.Tracks fun j => t * slotTotal d.flash rows cols j)
    itTime (fun _ => loop numMatrix (hostAxisMatrix rows cols)) d (freshBuf, ⟨fun _ => 0, []⟩)
    ⟨rfl, rfl, by simpa using Accumulators.tracks_zero⟩ (by
      rintro t ht _ _ mem ⟨rfl, rfl, hmem⟩
      obtain ⟨mem', hrun, hmem'⟩ := hostAxisIteration_run hf hshape hmem
      refine ⟨_, _, mem', hrun, rfl, rfl, ?_⟩
      simpa only [Nat.succ_mul] using hmem')
  exact ⟨mem.2, run_bind_of _ hrun (run_bind_of _ (run_say _ _ _) (run_done _ _ _)), hmem⟩

/-- There is no overflow exactly if all totals fit. -/
theorem noOverflow_hostAxis_iff (hf : EntriesInRange d.flash)
    (hshape : rows * cols = matrixElements) (itTime : ℕ) (freshBuf : ℕ → CInt) :
    NoOverflow kernel d (hostAxis rows cols itTime freshBuf fun _ => 0) ↔
      ∀ j, itTime * slotTotal d.flash rows cols j < 2 ^ 31 := by
  obtain ⟨a, hrun, ha⟩ := hostAxis_run hf hshape itTime freshBuf
  rw [NoOverflow, hrun]
  constructor
  · rintro ⟨os, a', hrun', hrange⟩
    cases hrun'
    exact ha.inRange.mp hrange
  · intro hfits
    exact ⟨_, a, rfl, ha.inRange.mpr hfits⟩

/-- A slot collects `rows` numbers of each matrix. -/
theorem slotTotal_le (hf : EntriesInRange d.flash) (hshape : rows * cols = matrixElements) (j : ℕ) :
    slotTotal d.flash rows cols j ≤ 1024 * (rows * 1023) := by
  have hslot : ∀ i ∈ range numMatrix, slotSum d.flash rows cols i j ≤ rows * 1023 := by
    intro i hi
    rw [slotSum]
    split_ifs with hj
    · have hentry : ∀ idx ∈ range rows,
          (matrixWord d.flash i (idx * cols + j)).toNat ≤ 1023 := by
        intro idx hidx
        have hlt : idx * cols + j < matrixElements := hshape ▸ rowMajor_lt (mem_range.mp hidx) hj
        exact Nat.le_of_lt_succ (hf.toNat_lt (mem_range.mp hi) hlt)
      have hsum := sum_le_card_nsmul _ _ _ hentry
      rwa [card_range, smul_eq_mul] at hsum
    · exact Nat.zero_le _
  have hsum := sum_le_card_nsmul _ _ _ hslot
  rwa [card_range, smul_eq_mul] at hsum

theorem slotTotal_of_lt (f : Flash 1024 CInt) {j : ℕ} (hj : j < cols) : slotTotal f rows cols j =
    ∑ i ∈ range 1024, ∑ idx ∈ range rows, (matrixWord f i (idx * cols + j)).toNat :=
  sum_congr rfl fun _ _ => if_pos hj

theorem slotTotal_of_le (f : Flash 1024 CInt) {j : ℕ} (hj : cols ≤ j) :
    slotTotal f rows cols j = 0 :=
  sum_eq_zero fun _ _ => if_neg (Nat.not_lt.mpr hj)

theorem noOverflow_hostAxis1_iff (hf : EntriesInRange d.flash) (freshBuf : ℕ → CInt) :
    NoOverflow kernel d (hostAxis1 freshBuf fun _ => 0) ↔
      ∀ j < 64, 32 * ∑ i ∈ range 1024, ∑ idx ∈ range 1024,
        (matrixWord d.flash i (idx * 64 + j)).toNat < 2 ^ 31 := by
  rw [hostAxis1, noOverflow_hostAxis_iff hf rfl]
  constructor
  · intro h j hj
    rw [← slotTotal_of_lt d.flash hj]
    exact h j
  · intro h j
    by_cases hj : j < 64
    · rw [slotTotal_of_lt d.flash hj]
      exact h j hj
    · rw [slotTotal_of_le d.flash (Nat.not_lt.mp hj)]
      decide

end Totals

/-- With entries in `[0, 1024)` the first axis never overflows. Both axes stay in range
exactly if 32 times each total of the second axis fits. -/
theorem hostAxis_noOverflow_iff (kernel : Kernel 1024 CInt) (d : Ssd 1024 CInt)
    (freshBuf : ℕ → CInt) (hf : EntriesInRange d.flash) :
    NoOverflow kernel d (hostAxis0 freshBuf fun _ => 0) ∧
    (NoOverflow kernel d (hostAxis0 freshBuf fun _ => 0) ∧
        NoOverflow kernel d (hostAxis1 freshBuf fun _ => 0) ↔
      ∀ j < 64, 32 * ∑ i ∈ range 1024, ∑ idx ∈ range 1024,
        (matrixWord d.flash i (idx * 64 + j)).toNat < 2 ^ 31) := by
  have haxis0 : NoOverflow kernel d (hostAxis0 freshBuf fun _ => 0) := by
    apply (noOverflow_hostAxis_iff hf rfl 32 freshBuf).mpr
    intro j
    have hle : slotTotal d.flash 64 1024 j ≤ 1024 * (64 * 1023) := slotTotal_le hf rfl j
    omega
  refine ⟨haxis0, ?_⟩
  rw [and_iff_right haxis0]
  exact noOverflow_hostAxis1_iff hf freshBuf

def constantMatrices (x : CInt) : Ssd 1024 CInt := ⟨fun _ _ => x, fun _ => 0⟩

theorem entriesInRange_constant {x : CInt} (hlo : 0 ≤ x.toInt) (hhi : x.toInt < 1024) :
    EntriesInRange (constantMatrices x).flash := fun _ _ _ _ => ⟨hlo, hhi⟩

theorem hostAxis_noOverflow_sixtyThree :
    NoOverflow Kernels.npsum (constantMatrices 63) (hostAxis0 (fun _ => 0) fun _ => 0) ∧
      NoOverflow Kernels.npsum (constantMatrices 63) (hostAxis1 (fun _ => 0) fun _ => 0) := by
  apply (hostAxis_noOverflow_iff Kernels.npsum (constantMatrices 63) (fun _ => 0)
    (entriesInRange_constant (by decide) (by decide))).2.mpr
  intro j _
  have hentry : ∀ i w, (matrixWord (constantMatrices 63).flash i w).toNat = 63 := fun _ _ => rfl
  simp only [hentry, sum_const, card_range, smul_eq_mul]
  omega

/-- With all entries 64 every slot of the second axis ends at `2 ^ 31`. -/
theorem hostAxis1_overflow : EntriesInRange (constantMatrices 64).flash ∧
    ¬ NoOverflow Kernels.npsum (constantMatrices 64) (hostAxis1 (fun _ => 0) fun _ => 0) := by
  have hf := entriesInRange_constant (x := 64) (by decide) (by decide)
  refine ⟨hf, fun h => ?_⟩
  have hfits := (noOverflow_hostAxis1_iff hf _).mp h 0 (by decide)
  have hentry : ∀ i w, (matrixWord (constantMatrices 64).flash i w).toNat = 64 := fun _ _ => rfl
  simp only [hentry, sum_const, card_range, smul_eq_mul] at hfits
  omega

end EbpfIsp.Npsum
