import EbpfIsp.PatternMatch.Scan

/-! # The filter that runs on the device

`strfilter.c` counts the target in 128 pages by a loop of its own: a test of
the first character, then a comparison that breaks at the first difference. Its
bound leaves out the last position at which the target fits, so it differs from
the scan of the host programs on exactly the buffers that end with the target.
-/

namespace EbpfIsp.PatternMatch
open Library Device

def filterSize : ℕ := 4096 * 128

/-- One position: the first character, then `for(j=0;j<target_len;j++)` with its `break`. -/
def filterStep {n : ℕ} (it : Region n CChar) (i : ℕ) (cnt : CInt) : Option CInt :=
  (it.load i).bind fun c =>
    if c = targetData 0 then
      (forBreak (fun j => (it.load (i + j)).map fun c => decide (c ≠ targetData j))
        targetLen 0).map fun j => if j = targetLen then cnt + 1 else cnt
    else some cnt

def strfilter : Kernel 4096 CChar := fun _ _ _ it mapPage =>
  (forLoop (filterSize - targetLen) (filterStep it) 0).map fun cnt => (cnt, mapPage)

section Spec
variable {n i : ℕ} {it : Region n CChar} {data : ℕ → CChar}

theorem filterStep_eq (hdata : ∀ k < n, it.load k = some (data k)) (hi : i + targetLen ≤ n)
    (cnt : CInt) : filterStep it i cnt = some (if Occurs data i then cnt + 1 else cnt) := by
  have hlen : targetLen = 5 := rfl
  rw [filterStep, hdata i (by omega), Option.bind_some]
  by_cases hfirst : data i = targetData 0
  · obtain ⟨r, hr, hiff⟩ := forBreak_spec
      (fun j => (it.load (i + j)).map fun c => decide (c ≠ targetData j))
      (fun j => data (i + j) = targetData j) (k := targetLen) (j := 0) (by
        intro j _ hj
        rw [hdata (i + j) (by omega), Option.map_some])
    have hocc : r = targetLen ↔ Occurs data i := by
      simpa [Occurs] using hiff
    rw [if_pos hfirst, hr, Option.map_some]
    simp only [hocc]
  · have hocc : ¬ Occurs data i := fun h => hfirst (h 0 (by decide))
    rw [if_neg hfirst, if_neg hocc]

/-- The filter returns the number of occurrences before its bound. -/
theorem strfilter_eq (hdata : ∀ k < n, it.load k = some (data k)) (hn : filterSize ≤ n)
    (p q : CInt) (page : Region 4096 CChar) :
    strfilter p q n it page =
      some (BitVec.ofNat 32 (Nat.count (Occurs data) (filterSize - targetLen)), page) := by
  have hlen : targetLen = 5 := rfl
  have hstep : ∀ i < filterSize - targetLen,
      filterStep it i (BitVec.ofNat 32 (Nat.count (Occurs data) i)) =
        some (BitVec.ofNat 32 (Nat.count (Occurs data) (i + 1))) := by
    intro i hi
    rw [filterStep_eq hdata (by omega), Nat.count_succ]
    split_ifs with hocc
    · rw [BitVec.ofNat_add]
      rfl
    · rfl
  have hloop : forLoop (filterSize - targetLen) (filterStep it) 0 =
      some (BitVec.ofNat 32 (Nat.count (Occurs data) (filterSize - targetLen))) :=
    forLoop_eq (fun i => BitVec.ofNat 32 (Nat.count (Occurs data) i)) _ _ hstep
  rw [strfilter, hloop, Option.map_some]

end Spec

section Agreement
variable (p q : CInt) (it : Region filterSize CChar) (page : Region 4096 CChar) (rest : ℕ → CChar)

/-- The buffer of a host program that holds the same bytes, with any memory behind them. -/
def hostBuffer (k : ℕ) : CChar := (it.load k).getD (rest k)

/-- The filter returns what the host scan of the same bytes yields, the number of
positions at which the target occurs. -/
def FilterAgrees : Prop :=
  (strfilter p q filterSize it page).map Prod.fst = some (scan (hostBuffer it rest) filterSize 0) ∧
    (scan (hostBuffer it rest) filterSize 0).toNat =
      Nat.count (Occurs (hostBuffer it rest)) (filterSize - targetLen + 1)

theorem load_hostBuffer {k : ℕ} (hk : k < filterSize) :
    it.load k = some (hostBuffer it rest k) :=
  it.load_eq_some_getD hk _

theorem count_toNat (data : ℕ → CChar) {m : ℕ} (hm : m ≤ filterSize) :
    (BitVec.ofNat 32 (Nat.count (Occurs data) m)).toNat = Nat.count (Occurs data) m := by
  have hle := Nat.count_le (Occurs data) (n := m)
  have hsize : filterSize = 524288 := rfl
  exact CInt.toNat_ofNat_of_lt (by omega)

end Agreement

/-- The filter agrees with the host scan exactly on the buffers that do not end with the target. -/
theorem filter_agrees_iff (p q : CInt) (it : Region filterSize CChar) (page : Region 4096 CChar)
    (rest : ℕ → CChar) : FilterAgrees p q it page rest ↔
      ¬ Occurs (hostBuffer it rest) (filterSize - targetLen) := by
  have hcount := count_toNat (hostBuffer it rest) (m := filterSize - targetLen) (by decide)
  have hcount' := count_toNat (hostBuffer it rest) (m := filterSize - targetLen + 1) (by decide)
  rw [FilterAgrees, strfilter_eq (fun k hk => load_hostBuffer it rest hk) le_rfl, scan_eq, zero_add,
    Option.map_some, and_iff_left hcount', Option.some_inj]
  rw [BitVec.toNat_eq, hcount, hcount', Nat.count_succ]
  split_ifs with hocc
  · simp [hocc]
  · simp [hocc]

def endingByte (k : ℕ) : CChar :=
  if filterSize - targetLen ≤ k then targetData (k - (filterSize - targetLen)) else 0

theorem hostBuffer_ending : hostBuffer (fun k => endingByte k.val) endingByte = endingByte := by
  funext k
  by_cases hk : k < filterSize
  · rw [hostBuffer, Region.load_of_lt _ hk, Option.getD_some]
  · rw [hostBuffer, Region.load_eq_none _ (not_lt.mp hk), Option.getD_none]

theorem count_ending (m : ℕ) :
    Nat.count (Occurs endingByte) m = if filterSize - targetLen < m then 1 else 0 :=
  count_placed (filterSize - targetLen) m

/-- On these bytes the filter returns 0 and the host counts 1. -/
theorem last_match_lost :
    strfilter 0 0 filterSize (fun k => endingByte k.val) 0 = some (0, 0) ∧
      scan endingByte filterSize 0 = 1 ∧
      ¬ FilterAgrees 0 0 (fun k => endingByte k.val) 0 endingByte := by
  have hload : ∀ k < filterSize,
      Region.load (fun k : Fin filterSize => endingByte k.val) k = some (endingByte k) :=
    fun k hk => Region.load_of_lt _ hk
  have hfilter : strfilter 0 0 filterSize (fun k => endingByte k.val) 0 = some (0, 0) := by
    rw [strfilter_eq hload le_rfl, count_ending, if_neg (lt_irrefl _)]
    rfl
  have hscan : scan endingByte filterSize 0 = 1 := by
    rw [scan_eq, count_ending, if_pos (Nat.lt_succ_self _)]
    rfl
  refine ⟨hfilter, hscan, ?_⟩
  rw [FilterAgrees, hostBuffer_ending, hscan, hfilter]
  rintro ⟨h, -⟩
  exact absurd h (by decide)

end EbpfIsp.PatternMatch
