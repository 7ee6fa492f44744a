import EbpfIsp.Npsum.Agreement

/-! # Failing commands and the accumulator

The map page accumulates across kernel runs and is cleared by the last of three
commands only. An iteration that ends early after its page read failed leaves
its sums behind, and the next page read that succeeds returns them too. A
kernel run that fails leaves nothing. `ISP_axis0.c` and `ISP_axis1.c` differ in
the shape in which the kernel takes a matrix, and in nothing else here.
-/

namespace EbpfIsp.Npsum
open Library Device Kernels HostProgram

/-- Which command of an iteration fails, with its nonzero error. -/
inductive Outcome where
  | runFails (err : CInt) (h : err ≠ 0)
  | readFails (err : CInt) (h : err ≠ 0)
  | succeeds

/-- A device that fails by a pattern. It counts kernel runs, remembers the block of the last
one, and keeps each page it returned with the block of the run before it. -/
structure FaultyDevice where
  ssd : Ssd 1024 CInt
  runs : ℕ
  slba : CInt
  reads : List (CInt × Completion CInt)

namespace FaultyDevice

/-- `F a` is the outcome of the iteration that issues kernel run number `a`. -/
def exec (F : ℕ → Outcome) (s : FaultyDevice) (c : Request CInt) :
    Option (FaultyDevice × Completion CInt) :=
  match c with
  | .ioCmd cmd =>
    match cmd.opcode with
    | .ispRead =>
      match F s.runs with
      | .runFails err _ => some ({ s with runs := s.runs + 1, slba := cmd.cdw10 }, .failed err)
      | _ => (s.ssd.exec npsum c).map fun out =>
          ({ s with ssd := out.1, runs := s.runs + 1, slba := cmd.cdw10 }, out.2)
    | .ispPageRead =>
      match F (s.runs - 1) with
      | .readFails err _ => some (s, .failed err)
      | _ => (s.ssd.exec npsum c).map fun out =>
          ({ s with ssd := out.1, reads := s.reads ++ [(s.slba, out.2)] }, out.2)
    | _ => (s.ssd.exec npsum c).map fun out => ({ s with ssd := out.1 }, out.2)
  | _ => (s.ssd.exec npsum c).map fun out => ({ s with ssd := out.1 }, out.2)

end FaultyDevice

/-- Along an axis the kernel adds up the columns of a matrix of `rows` rows. -/
inductive Shape : CInt → ℕ → ℕ → Prop where
  | axis0 : Shape 0 64 1024
  | axis1 : Shape 1 1024 64

theorem Shape.exec {axis : CInt} {rows cols : ℕ} (h : Shape axis rows cols) (d : Ssd 1024 CInt)
    {i : ℕ} (hi : i < numMatrix) : d.exec npsum (.ioCmd (ispCmd axis i)) =
      some (d.setPage 0 (d.mapPage 0 + colSums (matrixWord d.flash i) rows cols),
        ⟨0, 0, fun _ => none⟩) := by
  cases h with
  | axis0 => exact exec_ispCmd_axis0 d hi
  | axis1 => exact exec_ispCmd_axis1 d hi

theorem Shape.cols_pos {axis : CInt} {rows cols : ℕ} (h : Shape axis rows cols) : 0 < cols := by
  cases h <;> decide

theorem Shape.cols_le {axis : CInt} {rows cols : ℕ} (h : Shape axis rows cols) : cols ≤ 1024 := by
  cases h <;> decide

theorem Shape.rows_range {axis : CInt} {rows cols : ℕ} (h : Shape axis rows cols) :
    0 < rows ∧ rows ≤ 1024 := by
  cases h <;> decide

def iterationSums (rows cols : ℕ) (f : Flash 1024 CInt) (a : ℕ) : Region 1024 CInt :=
  colSums (matrixWord f (a % numMatrix)) rows cols

def pageBefore (rows cols : ℕ) (F : ℕ → Outcome) (f : Flash 1024 CInt) : ℕ → Region 1024 CInt
  | 0 => 0
  | a + 1 => match F a with
    | .runFails _ _ => pageBefore rows cols F f a
    | .readFails _ _ => pageBefore rows cols F f a + iterationSums rows cols f a
    | .succeeds => 0

/-- Failed page reads since the last iteration that succeeded. -/
def pending (F : ℕ → Outcome) : ℕ → ℕ
  | 0 => 0
  | a + 1 => match F a with
    | .runFails _ _ => pending F a
    | .readFails _ _ => pending F a + 1
    | .succeeds => 0

def readAt (rows cols : ℕ) (F : ℕ → Outcome) (f : Flash 1024 CInt) (a : ℕ) :
    List (CInt × Completion CInt) :=
  match F a with
  | .succeeds => [(matrixSlba (a % numMatrix),
      ⟨0, 0, (pageBefore rows cols F f a + iterationSums rows cols f a).load⟩)]
  | _ => []

structure Before (rows cols : ℕ) (F : ℕ → Outcome) (f : Flash 1024 CInt) (a : ℕ)
    (s : FaultyDevice) : Prop where
  flash : s.ssd.flash = f
  page : s.ssd.mapPage 0 = pageBefore rows cols F f a
  runs : s.runs = a
  reads : s.reads = (List.range a).flatMap (readAt rows cols F f)

section Iteration
variable {axis : CInt} {rows cols : ℕ} {F : ℕ → Outcome} {f : Flash 1024 CInt} {a i : ℕ}
  {s : FaultyDevice}

def FaultyDevice.afterRun (rows cols : ℕ) (s : FaultyDevice) (i : ℕ) : FaultyDevice where
  ssd := s.ssd.setPage 0 (s.ssd.mapPage 0 + colSums (matrixWord s.ssd.flash i) rows cols)
  runs := s.runs + 1
  slba := matrixSlba i
  reads := s.reads

def FaultyDevice.afterClear (rows cols : ℕ) (s : FaultyDevice) (i : ℕ) : FaultyDevice where
  ssd := (s.afterRun rows cols i).ssd.setPage 0 0
  runs := s.runs + 1
  slba := matrixSlba i
  reads := s.reads ++ [(matrixSlba i, ⟨0, 0, ((s.afterRun rows cols i).ssd.mapPage 0).load⟩)]

theorem exec_run_fails {err : CInt} {herr : err ≠ 0} (hF : F s.runs = .runFails err herr) (i : ℕ) :
    FaultyDevice.exec F s (.ioCmd (ispCmd axis i)) =
      some ({ s with runs := s.runs + 1, slba := matrixSlba i }, .failed err) := by
  simp only [FaultyDevice.exec, ispCmd, hF]

theorem exec_run_succeeds (hshape : Shape axis rows cols)
    (hF : ∀ err h, F s.runs ≠ .runFails err h) (hi : i < numMatrix) :
    FaultyDevice.exec F s (.ioCmd (ispCmd axis i)) =
      some (s.afterRun rows cols i, ⟨0, 0, fun _ => none⟩) := by
  have hop : (ispCmd axis i).opcode = .ispRead := rfl
  have hslba : (ispCmd axis i).cdw10 = matrixSlba i := rfl
  simp only [FaultyDevice.exec, hop, hslba]
  cases h : F s.runs with
  | runFails err herr => exact absurd h (hF err herr)
  | readFails err herr =>
    simp only [hshape.exec _ hi, Option.map_some, FaultyDevice.afterRun]
  | succeeds => simp only [hshape.exec _ hi, Option.map_some, FaultyDevice.afterRun]

theorem exec_read_fails {err : CInt} {herr : err ≠ 0} (hF : F s.runs = .readFails err herr) :
    FaultyDevice.exec F (s.afterRun rows cols i) (.ioCmd pageReadCmd) =
      some (s.afterRun rows cols i, .failed err) := by
  have hop : pageReadCmd.opcode = .ispPageRead := rfl
  have hruns : (s.afterRun rows cols i).runs - 1 = s.runs := rfl
  simp only [FaultyDevice.exec, hop, hruns, hF]

theorem exec_read_succeeds (hF : F s.runs = .succeeds) :
    FaultyDevice.exec F (s.afterRun rows cols i) (.ioCmd pageReadCmd) =
      some ({ s.afterRun rows cols i with reads := (s.afterClear rows cols i).reads },
        ⟨0, 0, ((s.afterRun rows cols i).ssd.mapPage 0).load⟩) := by
  have hop : pageReadCmd.opcode = .ispPageRead := rfl
  have hruns : (s.afterRun rows cols i).runs - 1 = s.runs := rfl
  simp only [FaultyDevice.exec, hop, hruns, hF, exec_pageReadCmd, Option.map_some]
  rfl

theorem exec_clear : FaultyDevice.exec F s (.ioCmd cmdClear) =
    some ({ s with ssd := s.ssd.setPage 0 0 }, ⟨0, 0, fun _ => none⟩) := rfl

theorem run_fails_run {err : CInt} {herr : err ≠ 0} (hF : F s.runs = .runFails err herr) (i : ℕ)
    (mapPage : ℕ → CInt) :
    (ispAxisMatrix axis (fun _ => return ()) i mapPage).run (FaultyDevice.exec F) s =
      some ({ s with runs := s.runs + 1, slba := matrixSlba i },
        [⟨"ISP request: err %d\n", [err]⟩], mapPage) := by
  have hret : (Completion.failed err : Completion CInt).ret ≠ 0 := herr
  rw [ispAxisMatrix, run_issue_bind _ (exec_run_fails hF i), if_pos hret]
  exact run_bind_of _ (run_say _ _ _) (run_done _ _ _)

/-- After a page read that failed the sums stay on the page. -/
theorem read_fails_run (hshape : Shape axis rows cols) {err : CInt} {herr : err ≠ 0}
    (hF : F s.runs = .readFails err herr) (hi : i < numMatrix) (mapPage : ℕ → CInt) :
    (ispAxisMatrix axis (fun _ => return ()) i mapPage).run (FaultyDevice.exec F) s =
      some (s.afterRun rows cols i, [⟨"Map page read: err %d\n", [err]⟩],
        Completion.into (.failed err) mapPage) := by
  have hret : (Completion.failed err : Completion CInt).ret ≠ 0 := herr
  have hrun := exec_run_succeeds (F := F) hshape (by rw [hF]; intro _ _ h; cases h) hi
  rw [ispAxisMatrix, run_issue_bind _ hrun, if_neg (fun h => h rfl),
    run_issue_bind _ (exec_read_fails hF)]
  dsimp only
  rw [if_pos hret]
  exact run_bind_of _ (run_say _ _ _) (run_done _ _ _)

theorem succeeds_run (hshape : Shape axis rows cols) (hF : F s.runs = .succeeds)
    (hi : i < numMatrix) (mapPage : ℕ → CInt) :
    (ispAxisMatrix axis (fun _ => return ()) i mapPage).run (FaultyDevice.exec F) s =
      some (s.afterClear rows cols i, [],
        Completion.into ⟨0, 0, ((s.afterRun rows cols i).ssd.mapPage 0).load⟩ mapPage) := by
  have hrun := exec_run_succeeds (F := F) hshape (by rw [hF]; intro _ _ h; cases h) hi
  rw [ispAxisMatrix, run_issue_bind _ hrun, if_neg (fun h => h rfl),
    run_issue_bind _ (exec_read_succeeds hF)]
  dsimp only
  rw [if_neg (fun h => h rfl), ← List.append_nil []]
  apply run_bind_of _ (run_done _ _ _)
  rw [run_issue_bind _ exec_clear]
  exact run_bind_of _ (printfIf_run _ (fun h => h rfl) _ _ _) (run_done _ _ _)

theorem reads_succ (F : ℕ → Outcome) (f : Flash 1024 CInt) (a : ℕ) :
    (List.range (a + 1)).flatMap (readAt rows cols F f) =
      (List.range a).flatMap (readAt rows cols F f) ++ readAt rows cols F f a := by
  rw [List.range_succ, List.flatMap_append, List.flatMap_singleton]

/-- One iteration, in each of its outcomes. -/
theorem ispAxisMatrix_faulty (hshape : Shape axis rows cols) (h : Before rows cols F f a s)
    (mapPage : ℕ → CInt) :
    ∃ s' os mapPage', (ispAxisMatrix axis (fun _ => return ()) (a % numMatrix) mapPage).run
        (FaultyDevice.exec F) s = some (s', os, mapPage') ∧
      Before rows cols F f (a + 1) s' := by
  have hi : a % numMatrix < numMatrix := Nat.mod_lt _ (by decide)
  cases hF : F a with
  | runFails err herr =>
    refine ⟨_, _, _, run_fails_run (by rw [h.runs, hF]) _ mapPage, ?_⟩
    exact
      { flash := h.flash
        page := by simp only [pageBefore, hF, h.page]
        runs := by simp only [h.runs]
        reads := by simp only [reads_succ, readAt, hF, List.append_nil, h.reads] }
  | readFails err herr =>
    refine ⟨_, _, _, read_fails_run hshape (by rw [h.runs, hF]) hi mapPage, ?_⟩
    exact
      { flash := h.flash
        page := by
          simp only [FaultyDevice.afterRun, Ssd.setPage_self, pageBefore, hF, h.page, h.flash,
            iterationSums]
        runs := by simp only [FaultyDevice.afterRun, h.runs]
        reads := by
          simp only [FaultyDevice.afterRun, reads_succ, readAt, hF, List.append_nil, h.reads] }
  | succeeds =>
    refine ⟨_, _, _, succeeds_run hshape (by rw [h.runs, hF]) hi mapPage, ?_⟩
    exact
      { flash := h.flash
        page := by simp only [FaultyDevice.afterClear, Ssd.setPage_self, pageBefore, hF]
        runs := by simp only [FaultyDevice.afterClear, h.runs]
        reads := by
          simp only [FaultyDevice.afterClear, FaultyDevice.afterRun, reads_succ, readAt, hF,
            h.reads,
            Ssd.setPage_self, h.page, h.flash, iterationSums] }

end Iteration

section Program
variable {axis : CInt} {rows cols : ℕ} {F : ℕ → Outcome} {f : Flash 1024 CInt} {t : ℕ}
  {s : FaultyDevice}

theorem iteration_number {i : ℕ} (hi : i < numMatrix) : (t * numMatrix + i) % numMatrix = i := by
  rw [Nat.mul_add_mod_self_right, Nat.mod_eq_of_lt hi]

/-- The matrices of one outer iteration. -/
theorem matrices_faulty (hshape : Shape axis rows cols)
    (h : Before rows cols F f (t * numMatrix) s) (mapPage : ℕ → CInt) :
    ∃ s' os mapPage', (loop numMatrix (ispAxisMatrix axis (fun _ => return ())) mapPage).run
        (FaultyDevice.exec F) s = some (s', os, mapPage') ∧
      Before rows cols F f ((t + 1) * numMatrix) s' := by
  rw [Nat.succ_mul]
  apply run_loop (FaultyDevice.exec F) (fun i s' _ _ => Before rows cols F f (t * numMatrix + i) s')
  · simpa only [Nat.add_zero] using h
  · intro i hi s' _ mapPage' hs'
    have hstep := ispAxisMatrix_faulty hshape hs' mapPage'
    rw [iteration_number hi, Nat.add_assoc] at hstep
    exact hstep

theorem withStats_faulty {β : Type} (n : ℕ) (iteration : β → Host CInt β) (start : β)
    (hinit : Before rows cols F f 0 s)
    (hstep : ∀ t < n, ∀ s b, Before rows cols F f (t * numMatrix) s → ∃ s' os b',
      (iteration b).run (FaultyDevice.exec F) s = some (s', os, b') ∧
        Before rows cols F f ((t + 1) * numMatrix) s') :
    ∃ s' os b', (withStats n iteration start).run (FaultyDevice.exec F) s = some (s', os, b') ∧
      Before rows cols F f (n * numMatrix) s' := by
  have hstats : ∀ s, FaultyDevice.exec F s (.ioCmd cmdStats) = some (s, ⟨0, 0, fun _ => none⟩) :=
    fun _ => rfl
  have hclear : ∀ s, FaultyDevice.exec F s (.ioCmd cmdStatsClear) =
      some (s, ⟨0, 0, fun _ => none⟩) := fun _ => rfl
  rw [withStats, run_issue_bind _ (hclear s)]
  apply run_loop (FaultyDevice.exec F) (fun t s' _ _ => Before rows cols F f (t * numMatrix) s')
  · rw [Nat.zero_mul]
    exact hinit
  · intro t ht s' _ b hs'
    obtain ⟨s₁, os, b', hrun, hs₁⟩ := hstep t ht s' b hs'
    exact ⟨s₁, os, b', statistics_run hstats hclear hrun, hs₁⟩

def iterations : ℕ := 32 * numMatrix

theorem ispAxis_faulty (hshape : Shape axis rows cols) (hinit : Before rows cols F f 0 s)
    (fresh : ℕ → CInt) : ∃ s' os, (ispAxis axis fresh).run (FaultyDevice.exec F) s =
        some (s', os, ()) ∧ Before rows cols F f iterations s' := by
  obtain ⟨s', os, mapPage, hrun, hs'⟩ := withStats_faulty 32 (fun mapPage =>
    loop numMatrix (ispAxisMatrix axis fun _ => return ()) (fill (fun _ => 0) 1024 mapPage)) fresh
    hinit (fun t _ s b hs => matrices_faulty hshape hs _)
  refine ⟨s', os ++ [⟨"---- Test end ----\n", []⟩], ?_, hs'⟩
  rw [ispAxis, ispAxisLoops]
  exact run_bind_of _ hrun (run_say _ _ _)

end Program

def FaultyDevice.start (d : Ssd 1024 CInt) : FaultyDevice := ⟨d, 0, 0, []⟩

def alongSum (rows cols : ℕ) (f : Flash 1024 CInt) (i j : ℕ) : CInt :=
  ∑ r ∈ Finset.range rows, matrixWord f i (r * cols + j)

/-- Every page that was returned holds the sums of the matrix it was read for. -/
def ReadsExactAlong (axis : CInt) (rows cols : ℕ) (F : ℕ → Outcome) (d : Ssd 1024 CInt)
    (fresh : ℕ → CInt) : Prop :=
  ∃ s' os, (ispAxis axis fresh).run (FaultyDevice.exec F) (.start d) = some (s', os, ()) ∧
    ∀ i < numMatrix, ∀ r, (matrixSlba i, r) ∈ s'.reads →
      ∀ j < cols, r.transfer j = some (alongSum rows cols d.flash i j)

section Contamination
variable {axis : CInt} {rows cols : ℕ} {F : ℕ → Outcome} {f : Flash 1024 CInt} {a b : ℕ}

theorem start_before {d : Ssd 1024 CInt} (hpage : d.mapPage 0 = 0) :
    Before rows cols F d.flash 0 (.start d) where
  flash := rfl
  page := hpage
  runs := rfl
  reads := rfl

theorem matrixSlba_inj {i i' : ℕ} (hi : i < numMatrix) (hi' : i' < numMatrix)
    (h : matrixSlba i = matrixSlba i') : i = i' := by
  have hnat := congrArg BitVec.toNat h
  rw [matrixSlba_toNat hi, matrixSlba_toNat hi'] at hnat
  omega

/-- The pages are those of the iterations that succeed. -/
theorem mem_reads_iff {n : ℕ} {e : CInt × Completion CInt} :
    e ∈ (List.range n).flatMap (readAt rows cols F f) ↔ ∃ a < n, F a = .succeeds ∧
      e = (matrixSlba (a % numMatrix),
        ⟨0, 0, (pageBefore rows cols F f a + iterationSums rows cols f a).load⟩) := by
  simp only [List.mem_flatMap, List.mem_range]
  refine exists_congr fun a => and_congr_right fun _ => ?_
  unfold readAt
  split <;> rename_i h
  · simp [h]
  · simp only [List.not_mem_nil, false_iff, not_and]
    exact fun hs => absurd hs h

/-- The reads are exact when the page is zero before every iteration that succeeds. -/
theorem readsExactAlong_of_page (hshape : Shape axis rows cols) {d : Ssd 1024 CInt}
    (hpage : d.mapPage 0 = 0)
    (h : ∀ b < iterations, F b = .succeeds → pageBefore rows cols F d.flash b = 0)
    (fresh : ℕ → CInt) : ReadsExactAlong axis rows cols F d fresh := by
  obtain ⟨s', os, hrun, hs'⟩ := ispAxis_faulty hshape (start_before (F := F) hpage) fresh
  refine ⟨s', os, hrun, ?_⟩
  intro i hi r hr j hj
  rw [hs'.reads, mem_reads_iff] at hr
  obtain ⟨b, hb, hF, he⟩ := hr
  obtain ⟨hslba, rfl⟩ := Prod.ext_iff.mp he
  obtain rfl := matrixSlba_inj hi (Nat.mod_lt _ (by decide)) hslba
  rw [h b hb hF, zero_add]
  change (iterationSums rows cols d.flash b).load j = _
  rw [Region.load_of_lt _ (hj.trans_le hshape.cols_le), iterationSums, colSums, if_pos hj]
  rfl

theorem pageBefore_of_pending (h : pending F b = 0) : pageBefore rows cols F f b = 0 := by
  induction b with
  | zero => rfl
  | succ b ih =>
    rw [pending] at h
    rw [pageBefore]
    cases hF : F b with
    | runFails err herr =>
      rw [hF] at h
      exact ih h
    | readFails err herr =>
      rw [hF] at h
      exact absurd h (Nat.succ_ne_zero _)
    | succeeds => rfl

theorem pending_le (b : ℕ) : pending F b ≤ b := by
  induction b with
  | zero => exact le_rfl
  | succ b ih =>
    rw [pending]
    cases F b <;> dsimp only <;> omega

theorem pending_eq_zero (h : ∀ a < b, ∀ err herr, F a ≠ .readFails err herr) : pending F b = 0 := by
  induction b with
  | zero => rfl
  | succ b ih =>
    rw [pending]
    cases hF : F b with
    | runFails err herr => exact ih fun a ha => h a (by omega)
    | readFails err herr => exact absurd hF (h b (by omega) err herr)
    | succeeds => rfl

/-- What a failed read left is pending until an iteration succeeds. -/
theorem pending_pos {err : CInt} {herr : err ≠ 0} (ha : F a = .readFails err herr) (hab : a + 1 ≤ b)
    (hbetween : ∀ c, a < c → c < b → F c ≠ .succeeds) : 0 < pending F b := by
  induction b, hab using Nat.le_induction with
  | base =>
    rw [pending, ha]
    exact Nat.succ_pos _
  | succ b hab ih =>
    have hb := ih fun c hac hcb => hbetween c hac (by omega)
    rw [pending]
    cases hF : F b with
    | runFails err herr => exact hb
    | readFails err herr => exact Nat.succ_pos _
    | succeeds => exact absurd hF (hbetween b (by omega) (by omega))

/-- Nothing is pending at a success exactly when no success follows a failed read. -/
theorem nothing_pending_iff (F : ℕ → Outcome) (n : ℕ) :
    (∀ b < n, F b = .succeeds → pending F b = 0) ↔
      ∀ a b, a < b → b < n → (∃ err herr, F a = .readFails err herr) → F b ≠ .succeeds := by
  constructor
  · rintro h a b hab hb ⟨err, herr, ha⟩ hFb
    -- the first success after the failed read
    have hex : ∃ c, a < c ∧ F c = .succeeds := ⟨b, hab, hFb⟩
    classical
    obtain ⟨hac, hFc⟩ := Nat.find_spec hex
    have hcb : Nat.find hex ≤ b := Nat.find_min' hex ⟨hab, hFb⟩
    have hpos := pending_pos ha hac fun c hc hlt hF => Nat.find_min hex hlt ⟨hc, hF⟩
    have hzero := h _ (by omega) hFc
    omega
  · intro h b hb hFb
    apply pending_eq_zero
    intro a ha err herr hFa
    exact h a b ha hb ⟨err, herr, hFa⟩ hFb

def onesDevice : Ssd 1024 CInt := ⟨fun _ _ => 1, fun _ => 0⟩

theorem alongSum_ones (i j : ℕ) :
    alongSum rows cols onesDevice.flash i j = BitVec.ofNat 32 rows := by
  simp [alongSum, matrixWord, onesDevice]

def onesPage (rows cols k : ℕ) : Region 1024 CInt :=
  fun w => if w.val < cols then BitVec.ofNat 32 (rows * k) else 0

theorem onesPage_succ (k : ℕ) :
    onesPage rows cols (k + 1) = onesPage rows cols k + onesPage rows cols 1 := by
  funext w
  simp only [onesPage, Pi.add_apply]
  split_ifs
  · rw [← BitVec.ofNat_add, Nat.mul_add]
  · rfl

theorem iterationSums_ones (a : ℕ) :
    iterationSums rows cols onesDevice.flash a = onesPage rows cols 1 := by
  funext w
  rw [iterationSums, colSums, onesPage, Nat.mul_one]
  split_ifs
  · exact alongSum_ones (a % numMatrix) w.val
  · rfl

theorem pageBefore_ones (b : ℕ) :
    pageBefore rows cols F onesDevice.flash b = onesPage rows cols (pending F b) := by
  induction b with
  | zero =>
    funext w
    simp [pageBefore, pending, onesPage]
  | succ b ih =>
    rw [pageBefore, pending]
    cases hF : F b with
    | runFails err herr => exact ih
    | readFails err herr =>
      dsimp only
      rw [ih, iterationSums_ones, ← onesPage_succ]
    | succeeds =>
      funext w
      simp [onesPage]

theorem ones_read_mem (hb : b < iterations) (hF : F b = .succeeds) {s' : FaultyDevice}
    (hs' : Before rows cols F onesDevice.flash iterations s') :
    (matrixSlba (b % numMatrix), ⟨0, 0, (onesPage rows cols (pending F b + 1)).load⟩) ∈
      s'.reads := by
  rw [hs'.reads, mem_reads_iff]
  refine ⟨b, hb, hF, ?_⟩
  rw [pageBefore_ones, iterationSums_ones, ← onesPage_succ]

theorem load_onesPage (hshape : Shape axis rows cols) (k : ℕ) :
    (onesPage rows cols k).load 0 = some (BitVec.ofNat 32 (rows * k)) := by
  rw [Region.load_of_lt _ (by decide), onesPage, if_pos hshape.cols_pos]

theorem pending_of_readsExact (hshape : Shape axis rows cols)
    (h : ReadsExactAlong axis rows cols F onesDevice fun _ => 0) (hb : b < iterations)
    (hF : F b = .succeeds) : pending F b = 0 := by
  obtain ⟨s', os, hrun, hreads⟩ := h
  obtain ⟨s₁, os₁, hrun₁, hs₁⟩ :=
    ispAxis_faulty hshape (start_before (F := F) (d := onesDevice) rfl) fun _ => 0
  rw [hrun₁] at hrun
  obtain ⟨rfl, -⟩ := Prod.ext_iff.mp (Option.some.inj hrun)
  have hread := hreads _ (Nat.mod_lt _ (by decide)) _ (ones_read_mem hb hF hs₁) 0 hshape.cols_pos
  rw [alongSum_ones] at hread
  have hsum : (BitVec.ofNat 32 (rows * (pending F b + 1))).toNat = (BitVec.ofNat 32 rows).toNat :=
    congrArg BitVec.toNat (Option.some.inj ((load_onesPage hshape _).symm.trans hread))
  have hle := pending_le (F := F) b
  obtain ⟨hpos, hrows⟩ := hshape.rows_range
  rw [iterations, numMatrix] at hb
  have hbig : rows * (pending F b + 1) < 2 ^ 32 :=
    (Nat.mul_le_mul hrows (show pending F b + 1 ≤ 32 * 1024 by omega)).trans_lt (by decide)
  rw [BitVec.toNat_ofNat, BitVec.toNat_ofNat, Nat.mod_eq_of_lt hbig,
    Nat.mod_eq_of_lt (by omega)] at hsum
  have hone : pending F b + 1 = 1 := Nat.eq_of_mul_eq_mul_left hpos (by rw [hsum, Nat.mul_one])
  omega

theorem readsExactAlong_iff (hshape : Shape axis rows cols) (F : ℕ → Outcome) :
    (∀ d : Ssd 1024 CInt, d.mapPage 0 = 0 → ∀ fresh, ReadsExactAlong axis rows cols F d fresh) ↔
      ∀ a b, a < b → b < iterations → (∃ err herr, F a = .readFails err herr) →
        F b ≠ .succeeds := by
  rw [← nothing_pending_iff]
  constructor
  · intro h b hb hF
    exact pending_of_readsExact hshape (h onesDevice rfl _) hb hF
  · intro h d hpage fresh
    exact readsExactAlong_of_page hshape hpage
      (fun b hb hF => pageBefore_of_pending (h b hb hF)) fresh

end Contamination

/-- Every page that `ISP_axis0.c` has read holds the column sums of the matrix it was read for. -/
def ReadsExact (F : ℕ → Outcome) (d : Ssd 1024 CInt) (fresh : ℕ → CInt) : Prop :=
  ∃ s' os, (ispAxis0 fresh).run (FaultyDevice.exec F) (.start d) = some (s', os, ()) ∧
    ∀ i < numMatrix, ∀ r, (matrixSlba i, r) ∈ s'.reads →
      ∀ j < 1024, r.transfer j = some (columnSum d.flash i j)

/-- A failure pattern contaminates no later result, whatever is on flash, exactly when no page
read succeeds after one that failed. Failed kernel runs are harmless. -/
theorem axis0_reads_exact_iff (F : ℕ → Outcome) :
    (∀ d : Ssd 1024 CInt, d.mapPage 0 = 0 → ∀ fresh, ReadsExact F d fresh) ↔
      ∀ a b, a < b → b < iterations → (∃ err herr, F a = .readFails err herr) →
        F b ≠ .succeeds :=
  readsExactAlong_iff .axis0 F

def firstReadFails : ℕ → Outcome
  | 0 => .readFails 1 (by decide)
  | _ => .succeeds

/-- With every number 1, the page read for matrix 1 returns 128 for a column whose sum is 64. -/
theorem failed_read_contaminates_next :
    (∃ s' os r, (ispAxis0 fun _ => 0).run (FaultyDevice.exec firstReadFails) (.start onesDevice) =
        some (s', os, ()) ∧ (matrixSlba 1, r) ∈ s'.reads ∧ r.transfer 0 = some 128) ∧
      columnSum onesDevice.flash 1 0 = 64 ∧ ¬ ReadsExact firstReadFails onesDevice fun _ => 0 := by
  refine ⟨?_, alongSum_ones 1 0, ?_⟩
  · obtain ⟨s', os, hrun, hs'⟩ :=
      ispAxis_faulty .axis0 (start_before (F := firstReadFails) (d := onesDevice) rfl) fun _ => 0
    exact ⟨s', os, _, hrun, ones_read_mem (b := 1) (by decide) rfl hs', rfl⟩
  · intro h
    exact absurd (pending_of_readsExact .axis0 h (b := 1) (by decide) rfl) (by decide)

/-- The same for `ISP_axis1.c` and the 64 words that its kernel runs add to. -/
theorem axis1_reads_exact_iff (F : ℕ → Outcome) :
    (∀ d : Ssd 1024 CInt, d.mapPage 0 = 0 → ∀ fresh, ∃ s' os,
      (ispAxis1 fresh).run (FaultyDevice.exec F) (.start d) = some (s', os, ()) ∧
      ∀ i < numMatrix, ∀ r, (matrixSlba i, r) ∈ s'.reads →
        ∀ j < 64, r.transfer j = some (alongSum 1024 64 d.flash i j)) ↔
      ∀ a b, a < b → b < iterations → (∃ err herr, F a = .readFails err herr) →
        F b ≠ .succeeds :=
  readsExactAlong_iff .axis1 F

end EbpfIsp.Npsum
