import EbpfIsp.Npsum.Programs

/-! # In-storage and host sums agree

With all commands succeeding, each program leaves the device as it found it and
prints the same numbers for every matrix: the total, or the first 64 column
sums. For the generated matrices these are the exact integers.
-/

namespace EbpfIsp.Npsum
open Library Device Kernels HostProgram

section Loops

theorem sumInts_eq (buf : ℕ → CInt) (n : ℕ) : sumInts buf n = ∑ i ∈ Finset.range n, buf i := by
  have hloop := forPure_eq (fun i => ∑ k ∈ Finset.range i, buf k) n
    (fun i sum => sum + buf i) (fun i _ => (Finset.sum_range_succ _ _).symm)
  rw [Finset.sum_range_zero] at hloop
  exact hloop

theorem addRow_eq (v : ℕ → CInt) (n : ℕ) (result : ℕ → CInt) :
    forPure n (fun j result => Function.update result j (result j + v j)) result =
      fun w => result w + if w < n then v w else 0 := by
  have hloop := forPure_eq (fun i w => result w + if w < i then v w else 0) n
    (fun j result => Function.update result j (result j + v j)) (by
      intro j _
      funext w
      by_cases hw : w = j
      · subst hw
        simp
      · have hiff : w < j + 1 ↔ w < j := by omega
        rw [Function.update_of_ne hw]
        simp only [hiff])
  simpa using hloop

theorem hostSumRows_eq (buf : ℕ → CInt) (rows cols : ℕ) (result : ℕ → CInt) (w : ℕ) :
    hostSumRows buf rows cols result w = result w +
      if w < cols then ∑ i ∈ Finset.range rows, buf (i * cols + w) else 0 := by
  have hloop := forPure_eq
    (fun i w => result w + if w < cols then ∑ k ∈ Finset.range i, buf (k * cols + w) else 0) rows
    (fun idx result => forPure cols (fun jdx result =>
      Function.update result jdx (result jdx + buf (idx * cols + jdx))) result) (by
      intro i _
      rw [addRow_eq (fun j => buf (i * cols + j))]
      funext w
      split_ifs
      · rw [Finset.sum_range_succ, add_assoc]
      · simp)
  simp only [Finset.sum_range_zero, ite_self, add_zero] at hloop
  exact congrFun hloop w

end Loops

section Commands
variable (d : Ssd 1024 CInt) {i : ℕ}

def total (f : Flash 1024 CInt) (i : ℕ) : CInt :=
  ∑ w ∈ Finset.range matrixElements, matrixWord f i w

/-- Sum of column `j` of matrix `i`, as 64 rows of 1024 words. -/
def columnSum (f : Flash 1024 CInt) (i j : ℕ) : CInt :=
  ∑ r ∈ Finset.range 64, matrixWord f i (r * 1024 + j)

theorem exec_ispCmd (hi : i < numMatrix) (axis : CInt) :
    d.exec npsum (.ioCmd (ispCmd axis i)) =
      (npsum axis 0 _ (d.flash.window (1024 + i * 64) (63 + 1)) (d.mapPage 0)).map fun out =>
        (d.setPage 0 out.2, ⟨0, out.1, fun _ => none⟩) := by
  have hop : (ispCmd axis i).opcode = .ispRead := rfl
  have hnlb : (ispCmd axis i).cdw12.toNat = 63 := rfl
  have hpage : (ispCmd axis i).cdw15.toNat = 0 := rfl
  rw [d.exec_ispRun npsum hop (matrixSlba_toNat hi) hnlb hpage]
  simp only [ispCmd]

theorem exec_ispCmd_noaxis (hi : i < numMatrix) :
    d.exec npsum (.ioCmd (ispCmd 3 i)) = some (d, ⟨0, total d.flash i, fun _ => none⟩) := by
  rw [exec_ispCmd d hi, npsum_noaxis (fun w hw => matrix_window d.flash i hw) _ _ (by decide)
    (by decide), Option.map_some, Ssd.setPage_same, total,
    show (64 * 1024 : ℕ) = matrixElements from rfl]

theorem exec_ispCmd_axis0 (hi : i < numMatrix) :
    d.exec npsum (.ioCmd (ispCmd 0 i)) =
      some (d.setPage 0 (d.mapPage 0 + colSums (matrixWord d.flash i) 64 1024),
        ⟨0, 0, fun _ => none⟩) := by
  rw [exec_ispCmd d hi, npsum_axis0 (fun w hw => matrix_window d.flash i hw)]
  rfl

theorem exec_ispCmd_axis1 (hi : i < numMatrix) :
    d.exec npsum (.ioCmd (ispCmd 1 i)) =
      some (d.setPage 0 (d.mapPage 0 + colSums (matrixWord d.flash i) 1024 64),
        ⟨0, 0, fun _ => none⟩) := by
  rw [exec_ispCmd d hi, npsum_axis1 (fun w hw => matrix_window d.flash i hw)]
  rfl

theorem exec_pageReadCmd (kernel : Kernel 1024 CInt) :
    d.exec kernel (.ioCmd pageReadCmd) = some (d, ⟨0, 0, (d.mapPage 0).load⟩) := rfl

theorem exec_cmdClear (kernel : Kernel 1024 CInt) :
    d.exec kernel (.ioCmd cmdClear) = some (d.setPage 0 0, ⟨0, 0, fun _ => none⟩) := rfl

theorem exec_readMatrix (kernel : Kernel 1024 CInt) (hi : i < numMatrix) (buf : ℕ → CInt) :
    d.exec kernel (.submitIo ⟨.read, 63, buf, (matrixSlba i).signExtend 64⟩) =
      some (d, ⟨0, 0, (d.flash.window (1024 + i * 64) (63 + 1)).load⟩) := by
  rw [Ssd.exec_read, matrixSlba_signExtend hi]

theorem readMatrix_into (f : Flash 1024 CInt) (buf : ℕ → CInt) {w : ℕ} (hw : w < matrixElements) :
    Completion.into ⟨0, 0, (f.window (1024 + i * 64) (63 + 1)).load⟩ buf w = matrixWord f i w := by
  simp only [Completion.into, matrix_window f i hw, Option.getD_some]

theorem colSums_columnSum (f : Flash 1024 CInt) {j : ℕ} (hj : j < 1024) :
    (colSums (matrixWord f i) 64 1024).load j = some (columnSum f i j) := by
  rw [Region.load_of_lt _ hj, colSums, if_pos hj]
  rfl

end Commands

section Runs
variable (kernel : Kernel 1024 CInt) (d : Ssd 1024 CInt) {i : ℕ}

def sumLines (lo hi sum : CInt) : List Printf :=
  (if sum.slt lo ∨ hi.slt sum then [⟨"Warning: sum out of range: %d\n", [sum]⟩] else []) ++
    [⟨"%d\n", [sum]⟩]

def rowLines (row : ℕ → CInt) : List Printf :=
  (List.range 64).map (fun j => ⟨"%d ", [row j]⟩) ++ [⟨"\n", []⟩]

theorem reportSum_run (lo hi sum : CInt) :
    (reportSum lo hi sum).run (Ssd.exec kernel) d = some (d, sumLines lo hi sum, ()) :=
  run_bind_of _ (printfIf_lines _ _ _ _ _) (run_say _ _ _)

theorem printRow_run (row : ℕ → CInt) :
    (printRow row).run (Ssd.exec kernel) d = some (d, rowLines row, ()) := by
  obtain ⟨_, hrun, -⟩ := run_loop_outputs (Ssd.exec kernel) (fun _ : Unit => True) 64
    (fun j _ => printf "%d " [row j]) d () (fun j => [⟨"%d ", [row j]⟩]) trivial
    (fun j _ _ _ => ⟨(), run_say _ _ _, trivial⟩)
  rw [printRow, rowLines, List.map_eq_flatMap]
  exact run_bind_of _ hrun (run_say _ _ _)

theorem exec_stats (kernel : Kernel 1024 CInt) :
    d.exec kernel (.ioCmd cmdStats) = some (d, ⟨0, 0, fun _ => none⟩) := rfl

theorem exec_statsClear (kernel : Kernel 1024 CInt) :
    d.exec kernel (.ioCmd cmdStatsClear) = some (d, ⟨0, 0, fun _ => none⟩) := rfl

theorem statistics_run {σ β : Type} {exec : σ → Request CInt → Option (σ × Completion CInt)}
    {r : Completion CInt} (hstats : ∀ s, exec s (.ioCmd cmdStats) = some (s, r))
    (hclear : ∀ s, exec s (.ioCmd cmdStatsClear) = some (s, r)) {iteration : Host CInt β} {s s' : σ}
    {os : List Printf} {t : β} (h : iteration.run exec s = some (s', os, t)) :
    (do let t ← iteration
        let _ ← issue (.ioCmd cmdStats)
        let _ ← issue (.ioCmd cmdStatsClear)
        return t : Host CInt β).run exec s = some (s', os, t) := by
  rw [← List.append_nil os]
  apply run_bind_of _ h
  rw [run_issue_bind _ (hstats s'), run_issue_bind _ (hclear s')]
  exact run_done _ _ _

theorem withStats_one_run {β : Type} {iteration : β → Host CInt β} {t t' : β} {os : List Printf}
    (h : (iteration t).run (Ssd.exec kernel) d = some (d, os, t')) :
    (withStats 1 iteration t).run (Ssd.exec kernel) d = some (d, os, t') := by
  rw [withStats, run_issue_bind _ (exec_statsClear d kernel), loop_one]
  exact statistics_run (fun d => exec_stats d kernel) (fun d => exec_statsClear d kernel) h

theorem ispDebug_run : ispDebug.run (Ssd.exec npsum) d = some (d,
    (List.range numMatrix).flatMap fun i => sumLines 30000000 40000000 (total d.flash i), ()) := by
  obtain ⟨_, hrun, -⟩ := run_loop_outputs (Ssd.exec npsum) (fun _ : Unit => True) numMatrix
    (fun i _ => ispDebugMatrix i) d ()
    (fun i => sumLines 30000000 40000000 (total d.flash i)) trivial (by
      intro i hi _ _
      refine ⟨(), ?_, trivial⟩
      rw [ispDebugMatrix, run_issue_bind _ (exec_ispCmd_noaxis d hi), if_neg (fun h => h rfl)]
      dsimp only
      exact reportSum_run npsum d 30000000 40000000 (total d.flash i))
  exact withStats_one_run npsum d hrun

theorem hostDebugMatrix_run (hi : i < numMatrix) (buf : ℕ → CInt) :
    ∃ buf', (hostDebugMatrix i buf).run (Ssd.exec kernel) d =
      some (d, sumLines 33000000 34000000 (total d.flash i), buf') := by
  have hsum : ∀ buf, sumInts (Completion.into
      ⟨0, 0, (d.flash.window (1024 + i * 64) (63 + 1)).load⟩ buf) matrixElements =
        total d.flash i := by
    intro buf
    rw [sumInts_eq, total]
    apply Finset.sum_congr rfl
    intro w hw
    exact readMatrix_into d.flash buf (Finset.mem_range.mp hw)
  refine ⟨Completion.into ⟨0, 0, (d.flash.window (1024 + i * 64) (63 + 1)).load⟩ buf, ?_⟩
  rw [hostDebugMatrix, run_issue_bind _ (exec_readMatrix d kernel hi buf)]
  dsimp only
  rw [if_neg (fun h => h rfl), hsum, ← List.append_nil (sumLines _ _ _)]
  exact run_bind_of _ (reportSum_run kernel d 33000000 34000000 (total d.flash i)) (run_done _ _ _)

theorem hostDebug_run (fresh : ℕ → CInt) : (hostDebug fresh).run (Ssd.exec kernel) d = some (d,
    (List.range numMatrix).flatMap fun i => sumLines 33000000 34000000 (total d.flash i), ()) := by
  obtain ⟨_, hrun, -⟩ := run_loop_outputs (Ssd.exec kernel) (fun _ : ℕ → CInt => True) numMatrix
    hostDebugMatrix d fresh (fun i => sumLines 33000000 34000000 (total d.flash i)) trivial (by
      intro i hi buf _
      obtain ⟨buf', hrun⟩ := hostDebugMatrix_run kernel d hi buf
      exact ⟨buf', hrun, trivial⟩)
  rw [hostDebug, loop_one, ← List.append_nil (List.flatMap _ _)]
  exact run_bind_of _ hrun (run_done _ _ _)

theorem rowLines_congr {row row' : ℕ → CInt} (h : ∀ j < 64, row j = row' j) :
    rowLines row = rowLines row' := by
  rw [rowLines, rowLines]
  congr 1
  apply List.map_congr_left
  intro j hj
  rw [h j (List.mem_range.mp hj)]

/-- From a zeroed map page, one matrix prints its column sums and leaves a zeroed page. -/
theorem ispAxisMatrix_run (hpage : d.mapPage 0 = 0) (hi : i < numMatrix) (mapPage : ℕ → CInt) :
    ∃ mapPage', (ispAxisMatrix 0 printRow i mapPage).run (Ssd.exec npsum) d =
      some (d, rowLines (columnSum d.flash i), mapPage') := by
  set cols := colSums (matrixWord d.flash i) 64 1024 with hcols
  have hexec : d.exec npsum (.ioCmd (ispCmd 0 i)) =
      some (d.setPage 0 cols, ⟨0, 0, fun _ => none⟩) := by
    rw [exec_ispCmd_axis0 d hi, hpage, zero_add]
  have hrow : rowLines (Completion.into ⟨0, 0, ((d.setPage 0 cols).mapPage 0).load⟩ mapPage) =
      rowLines (columnSum d.flash i) := by
    apply rowLines_congr
    intro j hj
    simp only [Completion.into, Ssd.setPage_self, hcols,
      colSums_columnSum d.flash (show j < 1024 by omega), Option.getD_some]
  have hclear : (d.setPage 0 cols).setPage 0 0 = d := by
    rw [Ssd.setPage_setPage, ← hpage, Ssd.setPage_same]
  refine ⟨Completion.into ⟨0, 0, ((d.setPage 0 cols).mapPage 0).load⟩ mapPage, ?_⟩
  rw [ispAxisMatrix, run_issue_bind _ hexec, if_neg (fun h => h rfl),
    run_issue_bind _ (exec_pageReadCmd _ npsum)]
  dsimp only
  rw [if_neg (fun h => h rfl), ← hrow, ← List.append_nil (rowLines _)]
  apply run_bind_of _ (printRow_run npsum (d.setPage 0 cols) _)
  rw [run_issue_bind _ (exec_cmdClear _ npsum), hclear]
  exact run_bind_of _ (printfIf_run _ (fun h => h rfl) _ _ _) (run_done _ _ _)

theorem ispDebugAxis0_run (hpage : d.mapPage 0 = 0) (fresh : ℕ → CInt) :
    (ispDebugAxis0 fresh).run (Ssd.exec npsum) d = some (d,
      (List.range numMatrix).flatMap fun i => rowLines (columnSum d.flash i), ()) := by
  obtain ⟨_, hrun, -⟩ := run_loop_outputs (Ssd.exec npsum) (fun _ : ℕ → CInt => True) numMatrix
    (ispAxisMatrix 0 printRow) d (fill (fun _ => 0) 1024 fresh)
    (fun i => rowLines (columnSum d.flash i)) trivial (by
      intro i hi mapPage _
      obtain ⟨mapPage', hrun⟩ := ispAxisMatrix_run d hpage hi mapPage
      exact ⟨mapPage', hrun, trivial⟩)
  rw [ispDebugAxis0, ispAxisLoops, ← List.append_nil (List.flatMap _ _)]
  exact run_bind_of _ (withStats_one_run npsum d hrun) (run_done _ _ _)

theorem hostDebugAxis0Matrix_run (hi : i < numMatrix) (mem : (ℕ → CInt) × (ℕ → CInt)) :
    ∃ mem', (hostDebugAxis0Matrix i mem).run (Ssd.exec kernel) d =
      some (d, rowLines (columnSum d.flash i), mem') := by
  set buf := Completion.into ⟨0, 0, (d.flash.window (1024 + i * 64) (63 + 1)).load⟩ mem.1 with hbuf
  have hrow : rowLines (hostSumRows buf 64 1024 (fill (fun _ => 0) 1024 mem.2)) =
      rowLines (columnSum d.flash i) := by
    apply rowLines_congr
    intro j hj
    rw [hostSumRows_eq, fill_apply, if_pos (by omega), if_pos (by omega), zero_add, columnSum]
    apply Finset.sum_congr rfl
    intro r hr
    have hr64 := Finset.mem_range.mp hr
    exact readMatrix_into d.flash mem.1 (by rw [matrixElements]; omega)
  refine ⟨(buf, hostSumRows buf 64 1024 (fill (fun _ => 0) 1024 mem.2)), ?_⟩
  rw [hostDebugAxis0Matrix, run_issue_bind _ (exec_readMatrix d kernel hi mem.1)]
  dsimp only
  rw [← hbuf, if_neg (fun h => h rfl), ← hrow, ← List.append_nil (rowLines _)]
  exact run_bind_of _ (printRow_run kernel d _) (run_done _ _ _)

theorem hostDebugAxis0_run (freshBuf freshResult : ℕ → CInt) :
    (hostDebugAxis0 freshBuf freshResult).run (Ssd.exec kernel) d = some (d,
      (List.range numMatrix).flatMap fun i => rowLines (columnSum d.flash i), ()) := by
  obtain ⟨_, hrun, -⟩ := run_loop_outputs (Ssd.exec kernel)
    (fun _ : (ℕ → CInt) × (ℕ → CInt) => True) numMatrix hostDebugAxis0Matrix d
    (freshBuf, fill (fun _ => 0) 1024 freshResult) (fun i => rowLines (columnSum d.flash i))
    trivial (by
      intro i hi mem _
      obtain ⟨mem', hrun⟩ := hostDebugAxis0Matrix_run kernel d hi mem
      exact ⟨mem', hrun, trivial⟩)
  rw [hostDebugAxis0, loop_one, ← List.append_nil (List.flatMap _ _)]
  exact run_bind_of _ hrun (run_done _ _ _)

end Runs

/-- The lines of the output that hold a sum. -/
def printedSums (os : List Printf) : List Printf := os.filter fun o => o.fmt = "%d\n"

theorem printedSums_sumLines (lo hi : CInt) (sum : ℕ → CInt) (n : ℕ) :
    printedSums ((List.range n).flatMap fun i => sumLines lo hi (sum i)) =
      (List.range n).map fun i => ⟨"%d\n", [sum i]⟩ := by
  rw [printedSums, List.filter_flatMap, List.map_eq_flatMap]
  congr 1
  funext i
  rw [sumLines]
  split_ifs <;> rfl

section Exact
variable {rand : ℕ → ℕ → CInt} {f : Flash 1024 CInt} {i : ℕ}

/-- No part of a matrix sum leaves the range of `int`. -/
theorem matrixEntry_sum (hrand : ∀ i w, 0 ≤ (rand i w).toInt) (i : ℕ) {n : ℕ}
    (hn : n ≤ matrixElements) (w : ℕ → ℕ) :
    (∑ k ∈ Finset.range n, matrixEntry rand i (w k)).toInt =
        ∑ k ∈ Finset.range n, (matrixEntry rand i (w k)).toInt ∧
      ∑ k ∈ Finset.range n, (matrixEntry rand i (w k)).toInt < 2 ^ 31 := by
  rw [matrixElements] at hn
  obtain ⟨hsum, -, hle⟩ := CInt.toInt_sum_of_range (x := fun k => matrixEntry rand i (w k)) (n := n)
    (c := 1023) (fun k _ => matrixEntry_range (hrand i (w k))) (by omega)
  exact ⟨hsum, by push_cast at hle; omega⟩

theorem total_toInt (hrand : ∀ i w, 0 ≤ (rand i w).toInt)
    (hwords : ∀ w < matrixElements, matrixWord f i w = matrixEntry rand i w) :
    (total f i).toInt = ∑ w ∈ Finset.range matrixElements, (matrixEntry rand i w).toInt := by
  have hsum : total f i = ∑ w ∈ Finset.range matrixElements, matrixEntry rand i w :=
    Finset.sum_congr rfl fun w hw => hwords w (Finset.mem_range.mp hw)
  rw [hsum, (matrixEntry_sum hrand i le_rfl fun w => w).1]

theorem columnSum_toInt (hrand : ∀ i w, 0 ≤ (rand i w).toInt)
    (hwords : ∀ w < matrixElements, matrixWord f i w = matrixEntry rand i w) {j : ℕ} (hj : j < 64) :
    (columnSum f i j).toInt = ∑ r ∈ Finset.range 64, (matrixEntry rand i (r * 1024 + j)).toInt := by
  have hsum : columnSum f i j = ∑ r ∈ Finset.range 64, matrixEntry rand i (r * 1024 + j) := by
    apply Finset.sum_congr rfl
    intro r hr
    have hr64 := Finset.mem_range.mp hr
    exact hwords _ (by rw [matrixElements]; omega)
  rw [hsum, (matrixEntry_sum hrand i (by decide) fun r => r * 1024 + j).1]

end Exact

/-- After the matrices were generated, the in-storage and the host program print the same sums
and the same rows, which are the exact totals and the exact first 64 column sums. -/
theorem npsum_programs_agree {d₀ : Ssd 1024 CInt} (hpage : d₀.mapPage 0 = 0) {rand : ℕ → ℕ → CInt}
    (hrand : ∀ i w, 0 ≤ (rand i w).toInt) (b₀ b₁ b₂ b₃ b₄ : ℕ → CInt) :
    ∃ d o₁ o₂ o₃ o₄, (generateRandomMatrix b₀ rand).run (Ssd.exec npsum) d₀ = some (d, [], ()) ∧
      ispDebug.run (Ssd.exec npsum) d = some (d, o₁, ()) ∧
      (hostDebug b₁).run (Ssd.exec npsum) d = some (d, o₂, ()) ∧
      (ispDebugAxis0 b₂).run (Ssd.exec npsum) d = some (d, o₃, ()) ∧
      (hostDebugAxis0 b₃ b₄).run (Ssd.exec npsum) d = some (d, o₄, ()) ∧
      (∃ sum : ℕ → CInt, printedSums o₁ = (List.range numMatrix).map (fun i => ⟨"%d\n", [sum i]⟩) ∧
        printedSums o₂ = (List.range numMatrix).map (fun i => ⟨"%d\n", [sum i]⟩) ∧
        ∀ i < numMatrix, (sum i).toInt =
          ∑ w ∈ Finset.range matrixElements, (matrixEntry rand i w).toInt) ∧
      (∃ col : ℕ → ℕ → CInt, o₃ = (List.range numMatrix).flatMap (fun i => rowLines (col i)) ∧
        o₄ = (List.range numMatrix).flatMap (fun i => rowLines (col i)) ∧
        ∀ i < numMatrix, ∀ j < 64, (col i j).toInt =
          ∑ r ∈ Finset.range 64, (matrixEntry rand i (r * 1024 + j)).toInt) ∧
      ∀ i < numMatrix, ∀ n ≤ matrixElements,
        ∑ w ∈ Finset.range n, (matrixEntry rand i w).toInt < 2 ^ 31 := by
  obtain ⟨d, hgen, hmap, hwords⟩ := generateRandomMatrix_run npsum rand d₀ b₀
  have hzero : d.mapPage 0 = 0 := by rw [hmap, hpage]
  refine ⟨d, _, _, _, _, hgen, ispDebug_run d, hostDebug_run npsum d b₁,
    ispDebugAxis0_run d hzero b₂, hostDebugAxis0_run npsum d b₃ b₄, ⟨total d.flash, ?_, ?_, ?_⟩,
    ⟨columnSum d.flash, rfl, rfl, ?_⟩, ?_⟩
  · exact printedSums_sumLines _ _ _ _
  · exact printedSums_sumLines _ _ _ _
  · intro i hi
    exact total_toInt hrand (hwords i hi)
  · intro i hi j hj
    exact columnSum_toInt hrand (hwords i hi) hj
  · intro i _ n hn
    exact (matrixEntry_sum hrand i hn fun w => w).2

/-- Matrices of fives on a zeroed device: both programs print the total 327680 for each. -/
theorem npsum_programs_agree_fives :
    (∀ i w : ℕ, 0 ≤ ((fun _ _ => 5 : ℕ → ℕ → CInt) i w).toInt) ∧
    ∃ d o₁ o₂, (generateRandomMatrix (fun _ => 0) fun _ _ => 5).run (Ssd.exec npsum)
        ⟨fun _ => 0, fun _ => 0⟩ = some (d, [], ()) ∧
      ispDebug.run (Ssd.exec npsum) d = some (d, o₁, ()) ∧
      (hostDebug fun _ => 0).run (Ssd.exec npsum) d = some (d, o₂, ()) ∧
      ∃ sum : ℕ → CInt, printedSums o₁ = (List.range numMatrix).map (fun i => ⟨"%d\n", [sum i]⟩) ∧
        printedSums o₂ = (List.range numMatrix).map (fun i => ⟨"%d\n", [sum i]⟩) ∧
        ∀ i < numMatrix, (sum i).toInt = 327680 := by
  have hrand : ∀ i w : ℕ, 0 ≤ ((fun _ _ => 5 : ℕ → ℕ → CInt) i w).toInt := by
    intro _ _
    exact (by decide : (0 : ℤ) ≤ (5 : CInt).toInt)
  have hentry : ∀ i w, (matrixEntry (fun _ _ => 5) i w).toInt = 5 := by
    intro _ _
    exact (by decide : ((5 : CInt).srem randomRange).toInt = 5)
  refine ⟨hrand, ?_⟩
  obtain ⟨d, o₁, o₂, o₃, o₄, hgen, hisp, hhost, -, -, ⟨sum, h₁, h₂, hsum⟩, -⟩ :=
    npsum_programs_agree (show (⟨fun _ => 0, fun _ => 0⟩ : Ssd 1024 CInt).mapPage 0 = 0 from rfl)
      hrand (fun _ => 0) (fun _ => 0)
      (fun _ => 0) (fun _ => 0) fun _ => 0
  refine ⟨d, o₁, o₂, hgen, hisp, hhost, sum, h₁, h₂, ?_⟩
  intro i hi
  rw [hsum i hi, Finset.sum_congr rfl fun w _ => hentry i w, Finset.sum_const, Finset.card_range,
    matrixElements]
  rfl

end EbpfIsp.Npsum
