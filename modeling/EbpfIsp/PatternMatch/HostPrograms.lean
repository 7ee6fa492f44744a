import EbpfIsp.PatternMatch.Scan

/-! # Scanning in chunks and at once

`hostside_pm_ioctl.c` and `hostside_pm_pread.c` read the 32 MiB from block 1024
on in 128 chunks of 64 blocks and scan each chunk separately. `hostread_pm.c`
reads all of it and scans once. The counts differ by the occurrences that cross
a chunk boundary. Times are not modelled.
-/

namespace EbpfIsp.PatternMatch
open Library Device HostProgram

def oneReadBlk : ℕ := 64

def oneReadSize : ℕ := 4096 * oneReadBlk

def numReads : ℕ := 8 * 1024 / oneReadBlk

def dataSize : ℕ := 4096 * 8 * 1024

def readSlba (i : ℕ) : CInt := 1024 + BitVec.ofNat 32 i * 64

def ioctlRead (i : ℕ) (mem : (ℕ → CChar) × CInt) : Host CChar ((ℕ → CChar) × CInt) := do
  let r ← issue (.submitIo ⟨.read, oneReadBlk - 1, mem.1, (readSlba i).signExtend 64⟩)
  let data := r.into mem.1
  if r.ret ≠ 0 then
    printf "iteration %d: err %d\n" [BitVec.ofNat 32 i, r.ret]
    return (data, mem.2)
  else
    return (data, scan data oneReadSize mem.2)

def ioctlIteration (data : ℕ → CChar) : Host CChar ((ℕ → CChar) × CInt) :=
  loop numReads ioctlRead (data, 0)

def hostsidePmIoctl : Host CChar Unit := do
  let _ ← loop 16 (fun _ data => do
    let mem ← ioctlIteration data
    return mem.1) (fun _ => 0)
  printf "---- Test end ----\n" []

/-- One read of `hostside_pm_pread.c`. A short read ends the program; nothing is carried on. -/
def preadRead (i : ℕ) : Option ((ℕ → CChar) × CInt) → Host CChar (Option ((ℕ → CChar) × CInt))
  | none => return none
  | some mem => do
    let r ← issue (.pread oneReadSize ((readSlba i * 4096).signExtend 64).toNat)
    let data := r.into mem.1
    if r.ret ≠ BitVec.ofNat 32 oneReadSize then
      printf "iteration %d: err %d\n" [BitVec.ofNat 32 i, r.ret]
      printf "ERROR: %s\n" []
      return none
    else
      return some (data, scan data oneReadSize mem.2)

def preadIteration (data : ℕ → CChar) : Host CChar (Option ((ℕ → CChar) × CInt)) :=
  loop numReads preadRead (some (data, 0))

def preadStep : Option (ℕ → CChar) → Host CChar (Option (ℕ → CChar))
  | none => return none
  | some data => do
    match ← preadIteration data with
    | none => return none
    | some mem =>
      printf "Result: %d\n" [mem.2]
      return some mem.1

/-- `hostside_pm_pread.c`; `fresh` is the allocated buffer. -/
def hostsidePmPread (fresh : ℕ → CChar) : Host CChar Unit := do
  let _ ← loop 16 (fun _ => preadStep) (some (fill (fun _ => 0) dataSize fresh))
  return ()

/-- `hostread_pm.c`; the return value of `pread` is not looked at. -/
def hostreadPm (fresh : ℕ → CChar) : Host CChar Unit := do
  let data := fill (fun _ => 0) dataSize fresh
  let r ← issue (.pread dataSize (1024 * 4096))
  let cnt := scan (r.into data) dataSize 0
  printf "Result: %d\n" [cnt]

section Data
variable (f : Flash 4096 CChar) {i k : ℕ}

def dataByte (k : ℕ) : CChar := f (1024 + k / 4096) ⟨k % 4096, Nat.mod_lt _ (by decide)⟩

theorem cell_dataByte (k : ℕ) : f.cell (1024 * 4096 + k) = some (dataByte f k) := by
  have hdiv : (1024 * 4096 + k) / 4096 = 1024 + k / 4096 := by omega
  have hmod : (1024 * 4096 + k) % 4096 = k % 4096 := by omega
  rw [Flash.cell, hdiv, hmod, Region.load_of_lt _ (Nat.mod_lt _ (by decide))]
  rfl

theorem window_dataByte (i : ℕ) (hk : k < oneReadSize) :
    (f.window (1024 + i * 64) (oneReadBlk - 1 + 1)).load k =
      some (dataByte f (i * oneReadSize + k)) := by
  have hdiv : 1024 + i * 64 + k / 4096 = 1024 + (i * oneReadSize + k) / 4096 := by
    rw [oneReadSize, oneReadBlk]
    omega
  have hmod : k % 4096 = (i * oneReadSize + k) % 4096 := by
    rw [oneReadSize, oneReadBlk]
    omega
  rw [Flash.window_load _ _ _ (by rw [oneReadSize] at hk; rw [oneReadBlk] at *; omega), hdiv, hmod,
    Region.load_of_lt _ (Nat.mod_lt _ (by decide))]
  rfl

theorem readSlba_toNat (hi : i < numReads) : (readSlba i).toNat = 1024 + i * 64 := by
  have h1024 : (1024 : CInt).toNat = 1024 := rfl
  have h64 : (64 : CInt).toNat = 64 := rfl
  have hi' : i < 128 := hi
  rw [readSlba, CInt.toNat_add_ofNat_mul _ _ (by omega) (by rw [h1024, h64]; omega), h1024, h64]

theorem preadOffset_toNat (hi : i < numReads) :
    ((readSlba i * 4096).signExtend 64).toNat = 1024 * 4096 + i * oneReadSize := by
  have h4096 : (4096 : CInt).toNat = 4096 := rfl
  have hi' : i < 128 := hi
  have hmul : (readSlba i * 4096).toNat = 1024 * 4096 + i * oneReadSize := by
    rw [BitVec.toNat_mul, readSlba_toNat hi, h4096, oneReadSize, oneReadBlk]
    omega
  have hlt : (readSlba i * 4096).toNat < 2 ^ 31 := by
    rw [hmul, oneReadSize, oneReadBlk]
    omega
  rw [CInt.toNat_signExtend_of_lt hlt, hmul]

end Data

section Runs
variable (kernel : Kernel 4096 CChar) (d : Ssd 4096 CChar) {i : ℕ}

def readStarts : ℕ := oneReadSize - targetLen + 1

def foundBy (f : Flash 4096 CChar) (n : ℕ) : ℕ :=
  chunkCount (Occurs (dataByte f)) oneReadSize readStarts n

theorem scan_read {f : Flash 4096 CChar} {data : ℕ → CChar}
    (h : ∀ k < oneReadSize, data k = dataByte f (i * oneReadSize + k)) :
    scan data oneReadSize (BitVec.ofNat 32 (foundBy f i)) =
      BitVec.ofNat 32 (foundBy f (i + 1)) := by
  have hpart := count_occurs_part (m := readStarts) h
  rw [scan_eq, ← readStarts, hpart, foundBy, foundBy, chunkCount_succ, BitVec.ofNat_add]

theorem exec_ioctlRead (hi : i < numReads) (data : ℕ → CChar) :
    d.exec kernel (.submitIo ⟨.read, oneReadBlk - 1, data, (readSlba i).signExtend 64⟩) =
      some (d, ⟨0, 0, (d.flash.window (1024 + i * 64) (oneReadBlk - 1 + 1)).load⟩) := by
  have hi' : i < 128 := hi
  have hslba := readSlba_toNat hi
  rw [Ssd.exec_read, CInt.toNat_signExtend_of_lt (by omega), hslba]

theorem ioctlRead_run (hi : i < numReads) (data : ℕ → CChar) :
    ∃ data', (ioctlRead i (data, BitVec.ofNat 32 (foundBy d.flash i))).run (Ssd.exec kernel) d =
      some (d, [], (data', BitVec.ofNat 32 (foundBy d.flash (i + 1)))) := by
  set data' := Completion.into
    ⟨0, 0, (d.flash.window (1024 + i * 64) (oneReadBlk - 1 + 1)).load⟩ data with hdata
  have hbytes : ∀ k < oneReadSize, data' k = dataByte d.flash (i * oneReadSize + k) := by
    intro k hk
    simp only [hdata, Completion.into, window_dataByte d.flash i hk, Option.getD_some]
  refine ⟨data', ?_⟩
  rw [ioctlRead, run_issue_bind _ (exec_ioctlRead kernel d hi data)]
  dsimp only
  rw [if_neg (fun h => h rfl), ← hdata, scan_read hbytes]
  exact run_done _ _ _

theorem ioctlIteration_run (data : ℕ → CChar) :
    ∃ data', (ioctlIteration data).run (Ssd.exec kernel) d =
      some (d, [], (data', BitVec.ofNat 32 (foundBy d.flash numReads))) := by
  obtain ⟨d', os, mem, hrun, rfl, rfl, hcnt⟩ := run_loop (Ssd.exec kernel)
    (fun n d' os mem => d' = d ∧ os = [] ∧ mem.2 = BitVec.ofNat 32 (foundBy d.flash n)) numReads
    ioctlRead d (data, 0) ⟨rfl, rfl, rfl⟩ (by
      rintro i hi _ _ ⟨data, cnt⟩ ⟨rfl, rfl, rfl⟩
      obtain ⟨data', hrun⟩ := ioctlRead_run kernel _ hi data
      exact ⟨_, _, _, hrun, rfl, rfl, rfl⟩)
  exact ⟨mem.1, by rw [ioctlIteration, hrun, ← hcnt]⟩

theorem hostsidePmIoctl_run : hostsidePmIoctl.run (Ssd.exec kernel) d =
    some (d, [⟨"---- Test end ----\n", []⟩], ()) := by
  obtain ⟨_, hrun, -⟩ := run_loop_outputs (Ssd.exec kernel) (fun _ => True) 16 (fun _ data => do
    let mem ← ioctlIteration data
    return mem.1) d (fun _ => 0) (fun _ => []) trivial (by
      intro _ _ data _
      obtain ⟨data', hiter⟩ := ioctlIteration_run kernel d data
      exact ⟨data', run_bind_of _ hiter (run_done _ _ _), trivial⟩)
  exact run_bind_of _ hrun (run_say _ _ _)

/-- What a `pread` of `count` bytes at byte `a` of the data leaves in the buffer. -/
theorem pread_into {f : Flash 4096 CChar} {offset a count k : ℕ} (ret : CInt)
    (hoff : offset = 1024 * 4096 + a) (hk : k < count) (data : ℕ → CChar) :
    Completion.into ⟨ret, 0, fun k => if k < count then f.cell (offset + k) else none⟩ data k =
      dataByte f (a + k) := by
  subst hoff
  simp only [Completion.into, if_pos hk, Nat.add_assoc, cell_dataByte, Option.getD_some]

theorem preadRead_run (hi : i < numReads) (data : ℕ → CChar) :
    ∃ data', (preadRead i (some (data, BitVec.ofNat 32 (foundBy d.flash i)))).run
      (Ssd.exec kernel) d =
        some (d, [], some (data', BitVec.ofNat 32 (foundBy d.flash (i + 1)))) := by
  have hoff := preadOffset_toNat hi
  set offset := ((readSlba i * 4096).signExtend 64).toNat with hoffset
  set r : Completion CChar := ⟨BitVec.ofNat 32 oneReadSize, 0,
    fun k => if k < oneReadSize then d.flash.cell (offset + k) else none⟩ with hr
  have hexec : d.exec kernel (.pread oneReadSize offset) = some (d, r) := rfl
  have hbytes : ∀ k < oneReadSize, r.into data k = dataByte d.flash (i * oneReadSize + k) :=
    fun k hk => pread_into _ hoff hk data
  refine ⟨r.into data, ?_⟩
  rw [preadRead, ← hoffset, run_issue_bind _ hexec]
  dsimp only
  rw [if_neg (fun h => h rfl), scan_read hbytes]
  exact run_done _ _ _

theorem preadIteration_run (data : ℕ → CChar) :
    ∃ data', (preadIteration data).run (Ssd.exec kernel) d =
      some (d, [], some (data', BitVec.ofNat 32 (foundBy d.flash numReads))) := by
  obtain ⟨d', os, mem, hrun, rfl, rfl, data', rfl⟩ := run_loop (Ssd.exec kernel)
    (fun n d' os mem => d' = d ∧ os = [] ∧
      ∃ data', mem = some (data', BitVec.ofNat 32 (foundBy d.flash n))) numReads
    preadRead d (some (data, 0)) ⟨rfl, rfl, data, rfl⟩ (by
      rintro i hi _ _ _ ⟨rfl, rfl, data, rfl⟩
      obtain ⟨data', hrun⟩ := preadRead_run kernel _ hi data
      exact ⟨_, _, _, hrun, rfl, rfl, data', rfl⟩)
  exact ⟨data', hrun⟩

theorem hostsidePmPread_run (fresh : ℕ → CChar) :
    (hostsidePmPread fresh).run (Ssd.exec kernel) d =
      some (d, (List.range 16).map fun _ =>
        ⟨"Result: %d\n", [BitVec.ofNat 32 (foundBy d.flash numReads)]⟩, ()) := by
  obtain ⟨_, hrun, -⟩ := run_loop_outputs (Ssd.exec kernel)
    (fun data? => ∃ data, data? = some data) 16
    (fun _ => preadStep) d (some (fill (fun _ => 0) dataSize fresh))
    (fun _ => [⟨"Result: %d\n", [BitVec.ofNat 32 (foundBy d.flash numReads)]⟩]) ⟨_, rfl⟩ (by
      rintro _ _ _ ⟨data, rfl⟩
      obtain ⟨data', hiter⟩ := preadIteration_run kernel d data
      refine ⟨some data', ?_, data', rfl⟩
      rw [preadStep, ← List.nil_append [_]]
      exact run_bind_of _ hiter (run_bind_of _ (run_say _ _ _) (run_done _ _ _)))
  rw [hostsidePmPread, List.map_eq_flatMap, ← List.append_nil (List.flatMap _ _)]
  exact run_bind_of _ hrun (run_done _ _ _)

def dataStarts : ℕ := dataSize - targetLen + 1

theorem dataStarts_eq : dataStarts = (numReads - 1) * oneReadSize + readStarts := rfl

theorem hostreadPm_run (fresh : ℕ → CChar) :
    (hostreadPm fresh).run (Ssd.exec kernel) d =
      some (d, [⟨"Result: %d\n",
        [BitVec.ofNat 32 (Nat.count (Occurs (dataByte d.flash)) dataStarts)]⟩], ()) := by
  set r : Completion CChar := ⟨BitVec.ofNat 32 dataSize, 0,
    fun k => if k < dataSize then d.flash.cell (1024 * 4096 + k) else none⟩ with hr
  have hexec : d.exec kernel (.pread dataSize (1024 * 4096)) = some (d, r) := rfl
  have hbytes : ∀ data, ∀ k < dataSize, r.into data k = dataByte d.flash (0 + k) :=
    fun data k hk => pread_into (a := 0) _ rfl hk data
  have hcount : ∀ data, Nat.count (Occurs (r.into data)) dataStarts =
      Nat.count (Occurs (dataByte d.flash)) dataStarts := by
    intro data
    have hpart := count_occurs_part (m := dataStarts) (hbytes data)
    simpa only [Nat.zero_add] using hpart
  rw [hostreadPm]
  dsimp only
  rw [run_issue_bind _ hexec, scan_eq, ← dataStarts, hcount, zero_add]
  exact run_say _ _ _

end Runs

section Agreement
variable (kernel : Kernel 4096 CChar) (d : Ssd 4096 CChar)

/-- One iteration of each chunked program accumulates the count that `hostread_pm.c` prints. -/
def CountsAgree (data₁ data₂ fresh : ℕ → CChar) : Prop :=
  ∃ cnt data₁' data₂',
    (ioctlIteration data₁).run (Ssd.exec kernel) d = some (d, [], (data₁', cnt)) ∧
    (preadIteration data₂).run (Ssd.exec kernel) d = some (d, [], some (data₂', cnt)) ∧
    (hostreadPm fresh).run (Ssd.exec kernel) d = some (d, [⟨"Result: %d\n", [cnt]⟩], ())

theorem ofNat_count_inj {a b : ℕ} (ha : a ≤ dataStarts) (hb : b ≤ dataStarts) :
    BitVec.ofNat 32 a = BitVec.ofNat 32 b ↔ a = b := by
  have hlt : dataStarts < 2 ^ 32 := by decide
  constructor
  · intro h
    have hnat := congrArg BitVec.toNat h
    rwa [CInt.toNat_ofNat_of_lt (by omega), CInt.toNat_ofNat_of_lt (by omega)] at hnat
  · exact congrArg _

/-- One scan finds what the chunks find and what crosses a boundary. -/
theorem count_eq_foundBy (f : Flash 4096 CChar) :
    Nat.count (Occurs (dataByte f)) dataStarts = foundBy f numReads +
      gapCount (Occurs (dataByte f)) oneReadSize readStarts (numReads - 1) := by
  rw [dataStarts_eq]
  exact count_eq_chunkCount_add_gapCount _ (by decide) (numReads - 1)

theorem foundBy_le (f : Flash 4096 CChar) : foundBy f numReads ≤ dataStarts := by
  have hcount := count_eq_foundBy f
  have hle := Nat.count_le (Occurs (dataByte f)) (n := dataStarts)
  omega

theorem countsAgree_iff_found (data₁ data₂ fresh : ℕ → CChar) :
    CountsAgree kernel d data₁ data₂ fresh ↔
      foundBy d.flash numReads = Nat.count (Occurs (dataByte d.flash)) dataStarts := by
  obtain ⟨b₁, h₁⟩ := ioctlIteration_run kernel d data₁
  obtain ⟨b₂, h₂⟩ := preadIteration_run kernel d data₂
  have h₃ := hostreadPm_run kernel d fresh
  rw [← ofNat_count_inj (foundBy_le _) (Nat.count_le _)]
  constructor
  · rintro ⟨cnt, b₁', b₂', h₁', -, h₃'⟩
    rw [h₁] at h₁'
    rw [h₃] at h₃'
    have hfound : BitVec.ofNat 32 (foundBy d.flash numReads) = cnt :=
      congrArg (fun x => x.2.2.2) (Option.some.inj h₁')
    have hprinted := congrArg (fun x => x.2.1) (Option.some.inj h₃')
    simp only [List.cons.injEq, Printf.mk.injEq, and_true, true_and] at hprinted
    rw [hfound, hprinted]
  · intro h
    rw [← h] at h₃
    exact ⟨_, b₁, b₂, h₁, h₂, h₃⟩

end Agreement

/-- The chunked programs count what `hostread_pm.c` counts exactly when the target does not
start in the last four bytes of a chunk that another chunk follows. -/
theorem chunked_count_iff (kernel : Kernel 4096 CChar) (d : Ssd 4096 CChar)
    (data₁ data₂ fresh : ℕ → CChar) :
    CountsAgree kernel d data₁ data₂ fresh ↔
      ∀ c < numReads - 1, ∀ k < targetLen - 1,
        ¬ Occurs (dataByte d.flash) ((c + 1) * oneReadSize - (targetLen - 1) + k) := by
  have hpos : ∀ c k, (c + 1) * oneReadSize - (targetLen - 1) + k =
      c * oneReadSize + readStarts + k := by
    intro c k
    rw [Nat.succ_mul, readStarts, oneReadSize, oneReadBlk, targetLen]
    omega
  simp only [hpos]
  rw [countsAgree_iff_found, count_eq_foundBy, Nat.left_eq_add, gapCount_eq_zero_iff]
  rfl

section Crossing

def pass : Kernel 4096 CChar := fun _ _ _ _ page => some (1, page)

def crossingByte (k : ℕ) : CChar :=
  if oneReadSize - 2 ≤ k then targetData (k - (oneReadSize - 2)) else 0

def crossingDevice : Ssd 4096 CChar :=
  ⟨fun b k => crossingByte (b * 4096 + k.val - 1024 * 4096), fun _ => 0⟩

theorem dataByte_crossing : dataByte crossingDevice.flash = crossingByte := by
  funext k
  have hk : (1024 + k / 4096) * 4096 + k % 4096 - 1024 * 4096 = k := by omega
  simp only [dataByte, crossingDevice, hk]

theorem occurs_crossing_iff (i : ℕ) : Occurs crossingByte i ↔ i = oneReadSize - 2 :=
  occurs_placed_iff (oneReadSize - 2) i

theorem count_crossing : Nat.count (Occurs (dataByte crossingDevice.flash)) dataStarts = 1 := by
  rw [dataByte_crossing, Nat.count_eq_card_filter_range]
  simp only [occurs_crossing_iff]
  rw [Finset.filter_eq', if_pos (Finset.mem_range.mpr (by decide)), Finset.card_singleton]

/-- No chunk holds the target. -/
theorem foundBy_crossing : foundBy crossingDevice.flash numReads = 0 := by
  have hcount := count_eq_foundBy crossingDevice.flash
  have hgap : gapCount (Occurs (dataByte crossingDevice.flash)) oneReadSize readStarts
      (numReads - 1) ≠ 0 := by
    rw [Ne, gapCount_eq_zero_iff, dataByte_crossing]
    intro h
    apply h 0 (by decide) 2 (by decide)
    rw [occurs_crossing_iff]
    decide
  rw [count_crossing] at hcount
  omega

end Crossing

/-- One occurrence across the first boundary: `hostread_pm.c` prints 1, the others count 0. -/
theorem crossing_match_lost :
    (∃ data, (ioctlIteration fun _ => 0).run (Ssd.exec pass) crossingDevice =
      some (crossingDevice, [], (data, 0))) ∧
    (∃ data, (preadIteration fun _ => 0).run (Ssd.exec pass) crossingDevice =
      some (crossingDevice, [], some (data, 0))) ∧
    (hostreadPm fun _ => 0).run (Ssd.exec pass) crossingDevice =
      some (crossingDevice, [⟨"Result: %d\n", [1]⟩], ()) ∧
    ¬ CountsAgree pass crossingDevice (fun _ => 0) (fun _ => 0) fun _ => 0 := by
  refine ⟨?_, ?_, ?_, ?_⟩
  · have hrun := ioctlIteration_run pass crossingDevice fun _ => 0
    rw [foundBy_crossing] at hrun
    exact hrun
  · have hrun := preadIteration_run pass crossingDevice fun _ => 0
    rw [foundBy_crossing] at hrun
    exact hrun
  · rw [hostreadPm_run, count_crossing]
    rfl
  · rw [countsAgree_iff_found, foundBy_crossing, count_crossing]
    decide

end EbpfIsp.PatternMatch
