import EbpfIsp.Device.Nvme
import EbpfIsp.Library.Rows

/-! # Block arithmetic of the embedding table driver

`unvme_embed_lib.c` stores table `t` from block `slba + t * table_stride` on
and computes block numbers in `int`. Reader and in-storage request use the same
expression for the block of a row; the writer counts pages. The lemmas give
the values of these expressions where they do not overflow, and the position
of a row of a contiguous table inside its page.
-/

namespace EbpfIsp.Driver
open Library Device

def slba : CInt := 1024

/-- Tables are 1GB apart; the stride is in logical blocks of 4KB. -/
def tableStride : CInt := 250000

def attributeSize : CInt := 4

/-- `slba + (table_id * table_stride) + i`, the block of the `i`-th written page. -/
def writeBlock (tableId : CInt) (i : ℕ) : CInt :=
  slba + tableId * tableStride + BitVec.ofNat 32 i

/-- `slba + (table_id * table_stride) + ((attribute_size * vector_length * embedidx) / 4096)` -/
def embeddingBlock (tableId vectorLength embedidx : CInt) : CInt :=
  slba + tableId * tableStride + (attributeSize * vectorLength * embedidx).sdiv 4096

/-- `(4 * vector_length * table_length) / PGSIZE`, the number of pages written. -/
def tablePages (vectorLength tableLength : CInt) : CInt :=
  (4 * vectorLength * tableLength).sdiv 4096

def tableBase (t : ℕ) : ℕ := 1024 + t * 250000

theorem toNat_tableBase (t page : ℕ) :
    (1024 + (t : ℤ) * 250000 + page).toNat = tableBase t + page := by
  rw [tableBase]
  omega

section Values
variable {t vl e n : CInt}

theorem slba_toInt : slba.toInt = 1024 := by decide

theorem tableStride_toInt : tableStride.toInt = 250000 := by decide

theorem attributeSize_toInt : attributeSize.toInt = 4 := by decide

theorem attributeSize_mul_toInt (hlo : -2 ^ 31 ≤ 4 * vl.toInt * e.toInt)
    (hhi : 4 * vl.toInt * e.toInt < 2 ^ 31) :
    (attributeSize * vl * e).toInt = 4 * vl.toInt * e.toInt := by
  calc (attributeSize * vl * e).toInt
      = ((4 * vl.toInt).bmod (2 ^ 32) * e.toInt).bmod (2 ^ 32) := by
        rw [BitVec.toInt_mul, BitVec.toInt_mul]
        rfl
    _ = 4 * vl.toInt * e.toInt := by
        rw [Int.bmod_mul_bmod, CInt.bmod_of_range hlo hhi]

theorem embeddingPage_toInt (hvl : 0 ≤ vl.toInt) (he : 0 ≤ e.toInt)
    (h : 4 * vl.toInt * e.toInt < 2 ^ 31) :
    ((attributeSize * vl * e).sdiv 4096).toInt = 4 * vl.toInt * e.toInt / 4096 := by
  have hnn : 0 ≤ 4 * vl.toInt * e.toInt := by positivity
  have hv := attributeSize_mul_toInt (by omega) h
  rw [CInt.toInt_sdiv_of_nonneg (by rw [hv]; exact hnn) (by decide), hv]
  rfl

/-- A negative size writes no page. -/
theorem tablePages_toNat (hlo : -2 ^ 31 ≤ 4 * vl.toInt * n.toInt)
    (hhi : 4 * vl.toInt * n.toInt < 2 ^ 31) :
    (tablePages vl n).toInt.toNat = (4 * vl.toInt * n.toInt / 4096).toNat := by
  have hv : (4 * vl * n).toInt = 4 * vl.toInt * n.toInt := attributeSize_mul_toInt hlo hhi
  have h4096 : (4096 : CInt).toInt = 4096 := by decide
  rw [tablePages, BitVec.toInt_sdiv, hv, h4096]
  generalize 4 * vl.toInt * n.toInt = x at hlo hhi
  rcases le_total 0 x with hx | hx
  · rw [Int.tdiv_eq_ediv_of_nonneg hx, CInt.bmod_of_range (by omega) (by omega)]
  · obtain ⟨y, rfl⟩ : ∃ y, x = -y := ⟨-x, by omega⟩
    rw [Int.neg_tdiv, Int.tdiv_eq_ediv_of_nonneg (by omega),
      CInt.bmod_of_range (by omega) (by omega)]
    omega

/-- Blocks are affine in the page number; only the final value has to fit. -/
theorem block_toInt {x : CInt} (hlo : -2 ^ 31 ≤ 1024 + t.toInt * 250000 + x.toInt)
    (hhi : 1024 + t.toInt * 250000 + x.toInt < 2 ^ 31) :
    (slba + t * tableStride + x).toInt = 1024 + t.toInt * 250000 + x.toInt := by
  rw [BitVec.toInt_add, BitVec.toInt_add, BitVec.toInt_mul, slba_toInt, tableStride_toInt,
    Int.bmod_add_bmod, add_assoc, add_comm ((t.toInt * 250000).bmod (2 ^ 32)), ← add_assoc,
    Int.add_bmod_bmod, add_right_comm, CInt.bmod_of_range hlo hhi]

theorem writeBlock_toInt {i : ℕ} (hi : i < 2 ^ 31) (hlo : -2 ^ 31 ≤ 1024 + t.toInt * 250000 + i)
    (hhi : 1024 + t.toInt * 250000 + i < 2 ^ 31) :
    (writeBlock t i).toInt = 1024 + t.toInt * 250000 + i := by
  have hx := CInt.toInt_ofNat_of_lt hi
  rw [writeBlock, block_toInt (by rw [hx]; exact hlo) (by rw [hx]; exact hhi), hx]

theorem embeddingBlock_toInt (hvl : 0 ≤ vl.toInt) (he : 0 ≤ e.toInt)
    (h : 4 * vl.toInt * e.toInt < 2 ^ 31)
    (hlo : -2 ^ 31 ≤ 1024 + t.toInt * 250000 + 4 * vl.toInt * e.toInt / 4096)
    (hhi : 1024 + t.toInt * 250000 + 4 * vl.toInt * e.toInt / 4096 < 2 ^ 31) :
    (embeddingBlock t vl e).toInt = 1024 + t.toInt * 250000 + 4 * vl.toInt * e.toInt / 4096 := by
  have hx := embeddingPage_toInt hvl he h
  rw [embeddingBlock, block_toInt (by rw [hx]; exact hlo) (by rw [hx]; exact hhi), hx]

theorem writeBlock_toNat {i : ℕ} (ht : 0 ≤ t.toInt) (hhi : 1024 + t.toInt * 250000 + i < 2 ^ 31) :
    ((writeBlock t i).signExtend 64).toNat = tableBase t.toNat + i := by
  have hv : (writeBlock t i).toInt = 1024 + t.toInt * 250000 + i :=
    writeBlock_toInt (by omega) (by omega) hhi
  have hnn : 0 ≤ (writeBlock t i).toInt := by omega
  have hc := CInt.natCast_toNat hnn
  have ht' := CInt.natCast_toNat ht
  rw [CInt.toNat_signExtend hnn, tableBase]
  omega

theorem embeddingBlock_natCast (hvl : 0 ≤ vl.toInt) (he : 0 ≤ e.toInt)
    (h : 4 * vl.toInt * e.toInt < 2 ^ 31)
    (hlo : 0 ≤ 1024 + t.toInt * 250000 + 4 * vl.toInt * e.toInt / 4096)
    (hhi : 1024 + t.toInt * 250000 + 4 * vl.toInt * e.toInt / 4096 < 2 ^ 31) :
    0 ≤ (embeddingBlock t vl e).toInt ∧ ((embeddingBlock t vl e).toNat : ℤ) =
      1024 + t.toInt * 250000 + 4 * vl.toInt * e.toInt / 4096 := by
  have hv := embeddingBlock_toInt (t := t) hvl he h (by omega) hhi
  have hnn : 0 ≤ (embeddingBlock t vl e).toInt := by
    rw [hv]
    exact hlo
  exact ⟨hnn, by rw [CInt.natCast_toNat hnn, hv]⟩

theorem embeddingBlock_toNat (hvl : 0 ≤ vl.toInt) (he : 0 ≤ e.toInt) (ht : 0 ≤ t.toInt)
    (h : 4 * vl.toInt * e.toInt < 2 ^ 31)
    (hhi : 1024 + t.toInt * 250000 + 4 * vl.toInt * e.toInt / 4096 < 2 ^ 31) :
    ((embeddingBlock t vl e).signExtend 64).toNat =
      tableBase t.toNat + 4 * vl.toNat * e.toNat / 4096 := by
  have hpage : 0 ≤ 4 * vl.toInt * e.toInt / 4096 := by positivity
  obtain ⟨hnn, hv⟩ := embeddingBlock_natCast (t := t) hvl he h (by omega) hhi
  rw [CInt.toNat_signExtend hnn, tableBase]
  zify
  rw [hv, CInt.natCast_toNat hvl, CInt.natCast_toNat he, CInt.natCast_toNat ht]

end Values

section Rows
variable {vl : ℕ}

theorem byte_page (w : ℕ) : 4 * w / 4096 = w / 1024 := Nat.mul_div_mul_left w 1024 (by decide)

theorem pos_of_dvd_page (hvl : vl ∣ 1024) : 0 < vl := Nat.pos_of_dvd_of_pos hvl (by decide)

/-- Word `j` of row `e` of a contiguous table is on the page the driver addresses, -/
theorem row_page (hvl : vl ∣ 1024) (e : ℕ) {j : ℕ} (hj : j < vl) :
    (vl * e + j) / 1024 = 4 * vl * e / 4096 := by
  rw [row_div (pos_of_dvd_page hvl) hvl e hj, Nat.mul_assoc, byte_page]

/-- and at the offset it uses within that page. -/
theorem row_offset (hvl : vl ∣ 1024) (e : ℕ) {j : ℕ} (hj : j < vl) :
    (vl * e + j) % 1024 = vl * (e % (4096 / (4 * vl))) + j := by
  rw [row_mod (pos_of_dvd_page hvl) hvl (by decide) e hj, show (4096 : ℕ) = 4 * 1024 from rfl,
    Nat.mul_div_mul_left _ _ (by decide)]

def tableWord (f : Flash 1024 CInt) (t : CInt) (w : ℕ) : CInt :=
  f (1024 + t.toInt * 250000 + (w / 1024 : ℕ)).toNat ⟨w % 1024, word_lt w⟩

/-- A row of a table is in one block, at the offset of its first word. -/
theorem tableWord_row (hvl : vl ∣ 1024) (f : Flash 1024 CInt) (t : CInt) (e : ℕ) {j : ℕ}
    (hj : j < vl) : some (tableWord f t (vl * e + j)) =
      (f (1024 + t.toInt * 250000 + (4 * vl * e / 4096 : ℕ)).toNat).load
        (vl * (e % (4096 / (4 * vl))) + j) := by
  have hlt : vl * (e % (4096 / (4 * vl))) + j < 1024 := by
    rw [← row_offset hvl e hj]
    exact word_lt _
  rw [Region.load_of_lt _ hlt]
  simp only [tableWord, row_page hvl e hj, row_offset hvl e hj]

end Rows

end EbpfIsp.Driver
