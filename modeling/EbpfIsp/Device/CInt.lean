import Mathlib.Data.BitVec
import Mathlib.Tactic

/-! # The 32-bit `int` of the host and device programs

Host programs and device kernels are compiled for two's complement machines,
so an `int` is a bit vector with wrapping arithmetic and truncating division.
The lemmas give the value of an expression that stays in range.
-/

namespace EbpfIsp.Device

/-- A C `int`, also read as `unsigned int` where the source does so. -/
abbrev CInt := BitVec 32

namespace CInt

/-- Division raises a signal for a zero divisor and where the quotient does not fit. -/
def Divides (a b : CInt) : Prop := b ≠ 0 ∧ ¬ (a = BitVec.intMin 32 ∧ b = -1)

instance (a b : CInt) : Decidable (Divides a b) :=
  inferInstanceAs (Decidable (b ≠ 0 ∧ ¬ (a = BitVec.intMin 32 ∧ b = -1)))

def div (a b : CInt) : Option CInt := if Divides a b then some (a.sdiv b) else none

def rem (a b : CInt) : Option CInt := if Divides a b then some (a.srem b) else none

variable {a b : CInt}

theorem divides_of_pos (hb : 0 < b.toInt) : Divides a b := by
  refine ⟨?_, ?_⟩
  · rintro rfl
    exact absurd hb (by decide)
  · rintro ⟨-, rfl⟩
    exact absurd hb (by decide)

theorem div_of_ne_zero (ha : a ≠ BitVec.intMin 32) (hb : b ≠ 0) : div a b = some (a.sdiv b) :=
  if_pos ⟨hb, fun h => ha h.1⟩

theorem div_of_pos (hb : 0 < b.toInt) : div a b = some (a.sdiv b) := if_pos (divides_of_pos hb)

theorem rem_of_pos (hb : 0 < b.toInt) : rem a b = some (a.srem b) := if_pos (divides_of_pos hb)

theorem bmod_of_range {x : ℤ} (hlo : -2 ^ 31 ≤ x) (hhi : x < 2 ^ 31) : x.bmod (2 ^ 32) = x := by
  apply Int.bmod_eq_of_le <;> omega

theorem toInt_range (a : CInt) : -2 ^ 31 ≤ a.toInt ∧ a.toInt < 2 ^ 31 :=
  ⟨a.le_toInt, a.toInt_lt⟩

theorem toInt_add_of_range (hlo : -2 ^ 31 ≤ a.toInt + b.toInt) (hhi : a.toInt + b.toInt < 2 ^ 31) :
    (a + b).toInt = a.toInt + b.toInt := by
  rw [BitVec.toInt_add, bmod_of_range hlo hhi]

theorem toInt_mul_of_range (hlo : -2 ^ 31 ≤ a.toInt * b.toInt) (hhi : a.toInt * b.toInt < 2 ^ 31) :
    (a * b).toInt = a.toInt * b.toInt := by
  rw [BitVec.toInt_mul, bmod_of_range hlo hhi]

theorem toInt_sdiv_of_nonneg (ha : 0 ≤ a.toInt) (hb : 0 < b.toInt) :
    (a.sdiv b).toInt = a.toInt / b.toInt := by
  have hle : a.toInt / b.toInt ≤ a.toInt := Int.ediv_le_self _ ha
  have hnn : 0 ≤ a.toInt / b.toInt := Int.ediv_nonneg ha hb.le
  have hr := toInt_range a
  rw [BitVec.toInt_sdiv, Int.tdiv_eq_ediv_of_nonneg ha, bmod_of_range (by omega) (by omega)]

theorem toInt_srem_of_nonneg (ha : 0 ≤ a.toInt) : (a.srem b).toInt = a.toInt % b.toInt := by
  rw [BitVec.toInt_srem, Int.tmod_eq_emod_of_nonneg ha]

theorem natCast_toNat (ha : 0 ≤ a.toInt) : (a.toNat : ℤ) = a.toInt := by
  have hlt := a.isLt
  rw [BitVec.toInt_eq_toNat_cond] at ha ⊢
  split_ifs at ha ⊢ <;> omega

theorem toInt_ofNat_of_lt {k : ℕ} (hk : k < 2 ^ 31) : (BitVec.ofNat 32 k : CInt).toInt = k := by
  rw [BitVec.toInt_ofNat', bmod_of_range (by omega) (by exact_mod_cast hk)]

theorem toNat_ofNat_of_lt {k : ℕ} (hk : k < 2 ^ 32) : (BitVec.ofNat 32 k : CInt).toNat = k := by
  rw [BitVec.toNat_ofNat, Nat.mod_eq_of_lt hk]

/-- The address of item `i` in an array of blocks, where it fits. -/
theorem toNat_add_ofNat_mul (a c : CInt) {i : ℕ} (hi : i < 2 ^ 32)
    (h : a.toNat + i * c.toNat < 2 ^ 32) :
    (a + BitVec.ofNat 32 i * c).toNat = a.toNat + i * c.toNat := by
  rw [BitVec.toNat_add, BitVec.toNat_mul, toNat_ofNat_of_lt hi, Nat.add_mod_mod, Nat.mod_eq_of_lt h]

/-- A sum of small non-negative numbers does not overflow, nor does a part of it. -/
theorem toInt_sum_of_range {x : ℕ → CInt} {n c : ℕ}
    (hx : ∀ i < n, 0 ≤ (x i).toInt ∧ (x i).toInt ≤ c) (hc : n * c < 2 ^ 31) :
    (∑ i ∈ Finset.range n, x i).toInt = ∑ i ∈ Finset.range n, (x i).toInt ∧
      0 ≤ ∑ i ∈ Finset.range n, (x i).toInt ∧ ∑ i ∈ Finset.range n, (x i).toInt ≤ n * c := by
  induction n with
  | zero => simp
  | succ n ih =>
    rw [Nat.add_mul, Nat.one_mul] at hc
    obtain ⟨hsum, hlo, hhi⟩ := ih (fun i hi => hx i (Nat.lt_succ_of_lt hi)) (by omega)
    obtain ⟨hxlo, hxhi⟩ := hx n (Nat.lt_succ_self n)
    have hcast : ((n * c + c : ℕ) : ℤ) < 2 ^ 31 := by exact_mod_cast hc
    push_cast at hcast ⊢
    rw [Finset.sum_range_succ, Finset.sum_range_succ, add_mul, one_mul,
      toInt_add_of_range (by omega) (by omega), hsum]
    omega

/-- Assigning an `int` to a `u64` extends the sign; a non-negative value is kept. -/
theorem toNat_signExtend (ha : 0 ≤ a.toInt) : (a.signExtend 64).toNat = a.toNat := by
  have hm : a.msb = false := by
    rw [BitVec.msb_eq_toInt]
    simpa using ha
  have hlt := a.isLt
  rw [BitVec.toNat_signExtend, hm, BitVec.toNat_setWidth, Nat.mod_eq_of_lt (by omega)]
  simp

theorem toNat_signExtend_of_lt (ha : a.toNat < 2 ^ 31) : (a.signExtend 64).toNat = a.toNat := by
  apply toNat_signExtend
  rw [BitVec.toInt_eq_toNat_of_lt (by omega)]
  omega

end CInt

end EbpfIsp.Device
