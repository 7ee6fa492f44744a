import Mathlib.Tactic

/-! # Rows of a contiguous table cut into blocks

A table with rows of `vl` cells is stored contiguously in blocks of `bs` cells.
When `vl` divides `bs`, no row crosses a block: row `e` starts in block
`vl * e / bs`, at the offset given by `e` modulo the rows of one block.
-/

namespace EbpfIsp.Library

variable {vl bs : ℕ}

/-- A cell of row `e` is in no other row. -/
theorem row_unique {e e' j : ℕ} (hj : j < vl) (hlo : vl * e' ≤ vl * e + j)
    (hhi : vl * e + j < vl * e' + vl) : e' = e := by
  have hcell : (vl * e + j) / vl = e := by
    rw [Nat.mul_add_div (by omega), Nat.div_eq_of_lt hj, Nat.add_zero]
  have hrow : (vl * e + j) / vl = e' := by
    apply Nat.div_eq_of_lt_le
    · rw [Nat.mul_comm]
      exact hlo
    · rw [Nat.succ_mul, Nat.mul_comm e']
      exact hhi
  omega

/-- The block of every cell of row `e` is the block of its first cell. -/
theorem row_div (hpos : 0 < vl) (hvl : vl ∣ bs) (e : ℕ) {j : ℕ} (hj : j < vl) :
    (vl * e + j) / bs = vl * e / bs := by
  obtain ⟨k, rfl⟩ := hvl
  have hr : (vl * e + j) / vl = e := by
    rw [Nat.mul_add_div hpos, Nat.div_eq_of_lt hj, Nat.add_zero]
  rw [← Nat.div_div_eq_div_mul, hr, Nat.mul_div_mul_left _ _ hpos]

/-- Row `e` starts at offset `vl * (e % (bs / vl))` of its block. -/
theorem row_mod (hpos : 0 < vl) (hvl : vl ∣ bs) (hbs : 0 < bs) (e : ℕ) {j : ℕ} (hj : j < vl) :
    (vl * e + j) % bs = vl * (e % (bs / vl)) + j := by
  obtain ⟨k, rfl⟩ := hvl
  have hk : 0 < k := Nat.pos_of_mul_pos_left hbs
  have hlt : vl * (e % k) + j < vl * k := by
    have hm := Nat.mod_lt e hk
    calc vl * (e % k) + j < vl * (e % k) + vl := by omega
      _ = vl * (e % k + 1) := by ring
      _ ≤ vl * k := Nat.mul_le_mul_left _ hm
  have hsplit : vl * e + j = vl * (e % k) + j + vl * k * (e / k) := by
    have hdm : vl * (e % k) + vl * k * (e / k) = vl * e := by
      rw [Nat.mul_assoc, ← Nat.mul_add, Nat.mod_add_div]
    omega
  rw [Nat.mul_div_cancel_left k hpos, hsplit, Nat.add_mul_mod_self_left, Nat.mod_eq_of_lt hlt]

/-- A row that is placed by the rows of one block ends inside the block. -/
theorem row_end_le (hpos : 0 < vl) (hle : vl ≤ bs) (e : ℕ) : vl * (e % (bs / vl)) + vl ≤ bs := by
  have hrows : 0 < bs / vl := Nat.div_pos hle hpos
  have hlt := Nat.mod_lt e hrows
  calc vl * (e % (bs / vl)) + vl = vl * (e % (bs / vl) + 1) := by ring
    _ ≤ vl * (bs / vl) := Nat.mul_le_mul_left _ hlt
    _ ≤ bs := Nat.mul_div_le bs vl

/-- Every row of a table of `n` rows starts in one of its whole blocks exactly when the
table fills whole blocks. -/
theorem rows_in_whole_blocks (hpos : 0 < vl) (hvl : vl ∣ bs) (hbs : 0 < bs) {n : ℕ} (hn : 0 < n) :
    (∀ e < n, vl * e / bs < vl * n / bs) ↔ bs ∣ vl * n := by
  obtain ⟨k, rfl⟩ := hvl
  have hk : 0 < k := Nat.pos_of_mul_pos_left hbs
  simp only [Nat.mul_div_mul_left _ _ hpos, Nat.mul_dvd_mul_iff_left hpos]
  constructor
  · intro h
    by_contra hdvd
    obtain ⟨m, rfl⟩ : ∃ m, n = m + 1 := ⟨n - 1, by omega⟩
    have hlast := h m (Nat.lt_succ_self m)
    rw [Nat.succ_div_of_not_dvd hdvd] at hlast
    exact Nat.lt_irrefl _ hlast
  · rintro ⟨m, rfl⟩ e he
    rw [Nat.mul_div_cancel_left m hk, Nat.div_lt_iff_lt_mul hk, Nat.mul_comm m k]
    exact he

/-- The block of the contiguous layout and the offset of the layout by rows of one block
name the first cell of every row exactly when rows do not cross blocks. -/
theorem rows_at_offsets_iff (hpos : 0 < vl) (hle : vl ≤ bs) {n : ℕ} (hn : 0 < n)
    (hdvd : bs ∣ vl * n) :
    (∀ e < n, vl * e / bs * bs + vl * (e % (bs / vl)) = vl * e) ↔ vl ∣ bs := by
  constructor
  · intro h
    by_contra hvl
    -- the first row behind those of block 0 still starts in block 0
    have hstart : vl * (bs / vl) < bs := by
      apply lt_of_le_of_ne (Nat.mul_div_le bs vl)
      intro heq
      exact hvl (Dvd.intro _ heq)
    have hend : bs ≤ vl * n := Nat.le_of_dvd (Nat.mul_pos hpos hn) hdvd
    have hlt : bs / vl < n := Nat.lt_of_mul_lt_mul_left (lt_of_lt_of_le hstart hend)
    have hzero := h (bs / vl) hlt
    rw [Nat.div_eq_of_lt hstart, Nat.mod_self, Nat.zero_mul, Nat.mul_zero] at hzero
    have hpos' := Nat.mul_pos hpos (Nat.div_pos hle hpos)
    omega
  · intro hvl e _
    have hdm := Nat.div_add_mod' (vl * e) bs
    rw [← Nat.add_zero (vl * e), row_mod hpos hvl (by omega) e hpos, Nat.add_zero,
      Nat.add_zero] at hdm
    exact hdm

end EbpfIsp.Library
