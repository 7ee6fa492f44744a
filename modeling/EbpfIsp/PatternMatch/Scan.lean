import EbpfIsp.Device.Nvme
import EbpfIsp.Library.Chunks

/-! # The scanning loop of the pattern matchers

The host programs count the positions of `"Lorem"` in a buffer by a test of the
first character and `strncmp`. The loop finds every occurrence that lies in the
buffer.
-/

namespace EbpfIsp.PatternMatch
open Library Device

abbrev CChar := BitVec 8

/-- `char target_data[MAX_TARGET_LEN] = "Lorem";` -/
def targetData (i : ℕ) : CChar := [0x4c, 0x6f, 0x72, 0x65, 0x6d].getD i 0

def targetLen : ℕ := 5

def strncmp (s t : ℕ → CChar) : ℕ → ℤ
  | 0 => 0
  | n + 1 =>
    if s 0 ≠ t 0 then (s 0).toNat - (t 0).toNat
    else if s 0 = 0 then 0
    else strncmp (fun i => s (i + 1)) (fun i => t (i + 1)) n

def scan (data : ℕ → CChar) (size : ℕ) (cnt : CInt) : CInt :=
  forPure (size - targetLen + 1) (fun i cnt =>
    if data i = targetData 0 then
      if strncmp (fun k => data (i + k)) targetData targetLen = 0 then cnt + 1 else cnt
    else cnt) cnt

def Occurs (data : ℕ → CChar) (i : ℕ) : Prop := ∀ k < targetLen, data (i + k) = targetData k

instance (data : ℕ → CChar) : DecidablePred (Occurs data) := fun i =>
  inferInstanceAs (Decidable (∀ k < targetLen, data (i + k) = targetData k))

section Spec
variable {s t data data' : ℕ → CChar} {n size : ℕ}

/-- With no terminator in `t`, `strncmp` compares all `n` characters. -/
theorem strncmp_eq_zero_iff (ht : ∀ i < n, t i ≠ 0) :
    strncmp s t n = 0 ↔ ∀ i < n, s i = t i := by
  induction n generalizing s t with
  | zero => simp [strncmp]
  | succ n ih =>
    rw [strncmp, Nat.forall_lt_succ_left]
    split_ifs with hne h0
    · have hdiff : ((s 0).toNat : ℤ) - (t 0).toNat ≠ 0 := by
        rw [Ne, BitVec.toNat_eq] at hne
        omega
      exact ⟨fun h => absurd h hdiff, fun h => absurd h.1 hne⟩
    · exact absurd (not_not.mp hne ▸ h0) (ht 0 (Nat.succ_pos n))
    · rw [ih fun i hi => ht (i + 1) (Nat.succ_lt_succ hi)]
      exact (and_iff_right (not_not.mp hne)).symm

theorem targetData_ne_zero : ∀ i < targetLen, targetData i ≠ 0 := by decide

theorem strncmp_occurs {i : ℕ} :
    strncmp (fun k => data (i + k)) targetData targetLen = 0 ↔ Occurs data i :=
  strncmp_eq_zero_iff targetData_ne_zero

/-- The loop adds the number of occurrences in the buffer. -/
theorem scan_eq (data : ℕ → CChar) (size : ℕ) (cnt : CInt) :
    scan data size cnt =
      cnt + BitVec.ofNat 32 (Nat.count (Occurs data) (size - targetLen + 1)) := by
  have hloop := forPure_eq (fun i => cnt + BitVec.ofNat 32 (Nat.count (Occurs data) i))
    (size - targetLen + 1) (fun i cnt =>
      if data i = targetData 0 then
        if strncmp (fun k => data (i + k)) targetData targetLen = 0 then cnt + 1 else cnt
      else cnt) (by
      intro i _
      simp only [strncmp_occurs]
      rw [Nat.count_succ]
      by_cases hocc : Occurs data i
      · have hfirst : data i = targetData 0 := hocc 0 (by decide)
        rw [if_pos hfirst, if_pos hocc, if_pos hocc, BitVec.ofNat_add, BitVec.add_assoc]
        rfl
      · rw [if_neg hocc, if_neg hocc, ite_self, Nat.add_zero])
  rw [Nat.count_zero, BitVec.add_zero] at hloop
  exact hloop

theorem occurs_congr {i j : ℕ} (h : ∀ k < targetLen, data (i + k) = data' (j + k)) :
    Occurs data i ↔ Occurs data' j := by
  apply forall₂_congr
  intro k hk
  rw [h k hk]

theorem count_occurs_part {m a : ℕ} (h : ∀ k < m + targetLen - 1, data k = data' (a + k)) :
    Nat.count (Occurs data) m = Nat.count (fun i => Occurs data' (a + i)) m := by
  have hiff : ∀ i < m, Occurs data i ↔ Occurs data' (a + i) := by
    intro i hi
    apply occurs_congr
    intro k hk
    rw [h (i + k) (by omega), Nat.add_assoc]
  apply le_antisymm
  · exact Nat.count_mono_left fun i hi => (hiff i hi).mp
  · exact Nat.count_mono_left fun i hi => (hiff i hi).mpr

theorem targetData_first {j : ℕ} (h : targetData j = targetData 0) : j = 0 := by
  by_contra hne
  by_cases hj : j < targetLen
  · have hall : ∀ j < targetLen, j ≠ 0 → targetData j ≠ targetData 0 := by decide
    exact hall j hj hne h
  · rw [targetData, List.getD_eq_getElem?_getD,
      List.getElem?_eq_none (by simpa [targetLen] using hj)] at h
    exact absurd h (by decide)

/-- A buffer of zeroes with the target from byte `a` on holds it there only. -/
theorem occurs_placed_iff (a i : ℕ) :
    Occurs (fun k => if a ≤ k then targetData (k - a) else 0) i ↔ i = a := by
  constructor
  · intro h
    have hfirst := h 0 (by decide)
    dsimp only at hfirst
    split_ifs at hfirst with hi
    · have hzero := targetData_first hfirst
      omega
    · exact absurd hfirst (by decide)
  · rintro rfl k _
    dsimp only
    rw [if_pos (Nat.le_add_right i k), Nat.add_sub_cancel_left]

theorem count_placed (a m : ℕ) :
    Nat.count (Occurs fun k => if a ≤ k then targetData (k - a) else 0) m =
      if a < m then 1 else 0 := by
  rw [Nat.count_eq_card_filter_range]
  simp only [occurs_placed_iff]
  rw [Finset.filter_eq']
  simp only [Finset.mem_range]
  split_ifs
  · rfl
  · rfl

end Spec

end EbpfIsp.PatternMatch
