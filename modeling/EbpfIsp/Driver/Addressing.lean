import EbpfIsp.Driver.Table

/-! # Rows of a written table at the addresses of the reader

`unvme_write_table` lays the table out contiguously. `unvme_read_embedding`
takes the page of a row from that layout and the offset inside the page from
the number of whole rows that fit in a page. The two name the same words
exactly when the vector length divides the page. Block numbers are compared as
the wrapped `int` values that both functions compute, so no bound on the table
id is needed.
-/

namespace EbpfIsp.Driver
open Library Device Kernels HostProgram

def pageBlock (t : CInt) (i : ℕ) : ℕ := ((writeBlock t i).signExtend 64).toNat

theorem pageBlock_inj {t : CInt} {i j : ℕ} (hi : i < 2 ^ 32) (hj : j < 2 ^ 32)
    (h : pageBlock t i = pageBlock t j) : i = j := by
  have hsext : (writeBlock t i).signExtend 64 = (writeBlock t j).signExtend 64 :=
    BitVec.eq_of_toNat_eq h
  have hint : (writeBlock t i).toInt = (writeBlock t j).toInt := by
    rw [← BitVec.toInt_signExtend_of_le (v := 64) (by decide), hsext,
      BitVec.toInt_signExtend_of_le (by decide)]
  have hblock : writeBlock t i = writeBlock t j := BitVec.eq_of_toInt_eq hint
  rw [writeBlock, writeBlock, BitVec.add_right_inj] at hblock
  have hnat := congrArg BitVec.toNat hblock
  rw [BitVec.toNat_ofNat, BitVec.toNat_ofNat, Nat.mod_eq_of_lt hi, Nat.mod_eq_of_lt hj] at hnat
  exact hnat

section Written
variable (kernel : Kernel 1024 CInt) {vl n t e : CInt}

def PagesWritten (d : Ssd 1024 CInt) (t : CInt) (i : ℕ) (table : ℕ → CInt) : Prop :=
  ∀ j < i, ∀ k : Fin 1024, d.flash (pageBlock t j) k = table (j * 1024 + k)

/-- Writing the next page keeps the earlier ones. -/
theorem PagesWritten.succ {d : Ssd 1024 CInt} {i : ℕ} {table : ℕ → CInt} (hi : i < 2 ^ 32)
    (h : PagesWritten d t i table) :
    PagesWritten (d.overwrite (pageBlock t i) 1 fun k => table (i * 1024 + k)) t (i + 1) table := by
  intro j hj k
  rw [Ssd.overwrite_flash]
  by_cases hji : j = i
  · subst hji
    rw [Flash.overwrite_of_mem _ _ (by omega)]
    simp
  · have hne : pageBlock t j ≠ pageBlock t i := by
      intro heq
      exact hji (pageBlock_inj (by omega) hi heq)
    rw [Flash.overwrite_of_not_mem _ _ (by omega)]
    exact h j (by omega) k

theorem PagesWritten.congr {d : Ssd 1024 CInt} {i : ℕ} {table table' : ℕ → CInt}
    (h : PagesWritten d t i table) (htable : ∀ k < i * 1024, table k = table' k) :
    PagesWritten d t i table' := by
  intro j hj k
  rw [h j hj k, htable _ (by omega)]

/-- All commands succeeding, the whole pages of the table are on flash, for every table id. -/
theorem unvmeWriteTable_pages (d : Ssd 1024 CInt) (fresh table : ℕ → CInt)
    (hlo : -2 ^ 31 ≤ 4 * vl.toInt * n.toInt) (hhi : 4 * vl.toInt * n.toInt < 2 ^ 31) :
    ∃ d' os, (unvmeWriteTable fresh table vl n t).run (Ssd.exec kernel) d = some (d', os, ()) ∧
      PagesWritten d' t (4 * vl.toInt * n.toInt / 4096).toNat table := by
  set buf := fill table (vl * n).toInt.toNat fresh with hbuf
  have hcopy : ∀ k < (4 * vl.toInt * n.toInt / 4096).toNat * 1024, buf k = table k := by
    intro k hk
    rw [hbuf, fill_apply, if_pos (copied_of_lt_pages hlo hhi hk)]
  obtain ⟨d', os, u, hrun, hpages⟩ := run_loop (Ssd.exec kernel)
    (fun i d' _ (_ : Unit) => PagesWritten d' t i buf) (4 * vl.toInt * n.toInt / 4096).toNat
    (fun i _ => do
      let r ← issue (.submitIo ⟨.write, 0, fun k => buf (i * 1024 + k),
        (writeBlock t i).signExtend 64⟩)
      printfIf (r.ret ≠ 0) "write_table %d err : %d\n" [t, r.ret]) d ()
    (fun j hj => absurd hj (Nat.not_lt_zero j)) (by
      intro i hi d' os u hpages
      exact ⟨_, _, _, writePage_run kernel d' buf i, hpages.succ (by omega)⟩)
  rw [unvmeWriteTable, tablePages_toNat hlo hhi]
  exact ⟨d', _, run_bind_of _ (run_say _ _ _) hrun, hpages.congr hcopy⟩

/-- The reader's block of a row is the block of the page that holds the first word of the row. -/
theorem embeddingBlock_eq_writeBlock (hvl : 0 ≤ vl.toInt) (he : 0 ≤ e.toInt)
    (h : 4 * vl.toInt * e.toInt < 2 ^ 31) :
    embeddingBlock t vl e = writeBlock t (vl.toNat * e.toNat / 1024) := by
  have hpage : 4 * vl.toInt * e.toInt / 4096 = (vl.toNat * e.toNat / 1024 : ℕ) := by
    rw [← CInt.natCast_toNat hvl, ← CInt.natCast_toNat he, ← byte_page, ← Nat.mul_assoc]
    norm_cast
  rw [embeddingBlock, writeBlock, BitVec.add_right_inj]
  apply BitVec.eq_of_toInt_eq
  rw [embeddingPage_toInt hvl he h, hpage, CInt.toInt_ofNat_of_lt (by omega)]

end Written

section Addressing
variable (kernel : Kernel 1024 CInt) {vl n t e : CInt}

/-- A table of rows no longer than a page that fills whole pages, at most 1GB of them. -/
structure WholePages (vl n : CInt) : Prop where
  vl_pos : 1 ≤ vl.toInt
  vl_le : vl.toInt ≤ 1024
  rows : 0 ≤ n.toInt
  whole : 4096 ∣ 4 * vl.toInt * n.toInt
  size : 4 * vl.toInt * n.toInt ≤ 250000 * 4096

/-- After the write, the block and the offset of `unvme_read_embedding` address every row of
the table, all of it inside that block. -/
def AddressesRows (d : Ssd 1024 CInt) (fresh table : ℕ → CInt) (vl n t : CInt) : Prop :=
  ∃ d' os, (unvmeWriteTable fresh table vl n t).run (Ssd.exec kernel) d = some (d', os, ()) ∧
    ∀ e : CInt, 0 ≤ e.toInt → e.toInt < n.toInt → ∃ offset, embeddingOffset e vl = some offset ∧
      ∀ j < vl.toNat, (d'.flash ((embeddingBlock t vl e).signExtend 64).toNat).load
        (offset.toNat / 4 + j) = some (table (e.toNat * vl.toNat + j))

namespace WholePages

theorem vl_toNat (h : WholePages vl n) : 0 < vl.toNat ∧ vl.toNat ≤ 1024 := by
  have hpos := h.vl_pos
  have hle := h.vl_le
  have hnat := CInt.natCast_toNat (a := vl) (by omega)
  omega

theorem pages (h : WholePages vl n) :
    (4 * vl.toInt * n.toInt / 4096).toNat * 1024 = vl.toNat * n.toNat := by
  have hvl := CInt.natCast_toNat (a := vl) (by have := h.vl_pos; omega)
  have hn := CInt.natCast_toNat h.rows
  have hwhole := h.whole
  rw [← hvl, ← hn, mul_assoc] at hwhole ⊢
  norm_cast at hwhole ⊢
  omega

/-- The word that the reader finds `j` words behind its address of row `e`. -/
theorem addressed_word (h : WholePages vl n) {d : Ssd 1024 CInt} {table : ℕ → CInt}
    (hpages : PagesWritten d t (4 * vl.toInt * n.toInt / 4096).toNat table) (he : 0 ≤ e.toInt)
    (hen : e.toInt < n.toInt) {offset : CInt} (hoff : offset.toNat = 4 * targetVector vl.toNat e)
    {j : ℕ} (hj : j < vl.toNat) :
    (d.flash ((embeddingBlock t vl e).signExtend 64).toNat).load (offset.toNat / 4 + j) =
      some (table (vl.toNat * e.toNat / 1024 * 1024 +
        vl.toNat * (e.toNat % (1024 / vl.toNat)) + j)) := by
  obtain ⟨hpos, hle⟩ := h.vl_toNat
  have hsize := h.size
  have hvl := h.vl_pos
  have hmul : 4 * vl.toInt * e.toInt ≤ 4 * vl.toInt * n.toInt := by gcongr
  have hrow : vl.toNat * e.toNat < vl.toNat * n.toNat := by
    apply Nat.mul_lt_mul_of_pos_left _ hpos
    have hen' := CInt.natCast_toNat he
    have hn' := CInt.natCast_toNat h.rows
    omega
  have hpage : vl.toNat * e.toNat / 1024 < (4 * vl.toInt * n.toInt / 4096).toNat := by
    rw [Nat.div_lt_iff_lt_mul (by decide), h.pages]
    exact hrow
  have hend := targetVector_end_le hpos hle e
  rw [targetVector_eq] at hend
  rw [hoff, Nat.mul_div_cancel_left _ (by decide), targetVector_eq,
    embeddingBlock_eq_writeBlock (by omega) he (by omega), Region.load_of_lt _ (by omega)]
  have hword := hpages _ hpage ⟨vl.toNat * (e.toNat % (1024 / vl.toNat)) + j, by omega⟩
  rw [pageBlock] at hword
  rw [hword, Nat.add_assoc]

theorem run_write (h : WholePages vl n) (d : Ssd 1024 CInt) (fresh table : ℕ → CInt) (t : CInt) :
    ∃ d' os, (unvmeWriteTable fresh table vl n t).run (Ssd.exec kernel) d = some (d', os, ()) ∧
      PagesWritten d' t (4 * vl.toInt * n.toInt / 4096).toNat table := by
  have hsize := h.size
  have hvl := h.vl_pos
  have hrows := h.rows
  have hnn : 0 ≤ 4 * vl.toInt * n.toInt := by positivity
  apply unvmeWriteTable_pages
  · omega
  · omega

/-- For one table: every word at the address of a row equals the word of the row. -/
theorem addressesRows_iff (h : WholePages vl n) (d : Ssd 1024 CInt) (fresh table : ℕ → CInt)
    (t : CInt) : AddressesRows kernel d fresh table vl n t ↔
      ∀ k < n.toNat, ∀ j < vl.toNat,
        table (vl.toNat * k / 1024 * 1024 + vl.toNat * (k % (1024 / vl.toNat)) + j) =
          table (k * vl.toNat + j) := by
  obtain ⟨d', os, hrun, hpages⟩ := h.run_write kernel d fresh table t
  obtain ⟨hpos, hle⟩ := h.vl_toNat
  have hn := CInt.natCast_toNat h.rows
  constructor
  · rintro ⟨d'', os', hrun', hread⟩ k hk j hj
    rw [hrun] at hrun'
    cases hrun'
    have hrange := CInt.toInt_range n
    have hnat : (BitVec.ofNat 32 k : CInt).toNat = k := CInt.toNat_ofNat_of_lt (by omega)
    have hint : (BitVec.ofNat 32 k : CInt).toInt = k := CInt.toInt_ofNat_of_lt (by omega)
    obtain ⟨offset, hsome, hword⟩ := hread (BitVec.ofNat 32 k) (by omega) (by omega)
    obtain ⟨offset', hsome', hoff⟩ := exists_embeddingOffset hpos hle (e := BitVec.ofNat 32 k)
      (by omega)
    obtain rfl : offset = offset' := Option.some.inj (hsome.symm.trans hsome')
    have hrow := hword j hj
    rw [h.addressed_word hpages (by omega) (by omega) hoff hj, hnat] at hrow
    exact Option.some.inj hrow
  · intro hwords
    refine ⟨d', os, hrun, ?_⟩
    intro e he hen
    obtain ⟨offset, hsome, hoff⟩ := exists_embeddingOffset hpos hle he
    refine ⟨offset, hsome, ?_⟩
    intro j hj
    have he' := CInt.natCast_toNat he
    rw [h.addressed_word hpages he hen hoff hj, hwords e.toNat (by omega) j hj]

end WholePages

/-- The reader addresses the rows of every written table exactly when the vector length
divides the page. -/
theorem rows_addressed_iff (h : WholePages vl n) (t : CInt) :
    (∀ d fresh table, AddressesRows kernel d fresh table vl n t) ↔ vl.toNat ∣ 1024 ∨ n = 0 := by
  obtain ⟨hpos, hle⟩ := h.vl_toNat
  simp only [h.addressesRows_iff]
  by_cases hzero : n = 0
  · simp [hzero]
  have hn : 0 < n.toNat := by
    rw [Nat.pos_iff_ne_zero]
    intro h0
    exact hzero (BitVec.eq_of_toNat_eq h0)
  have hdvd : 1024 ∣ vl.toNat * n.toNat := Dvd.intro_left _ h.pages
  rw [or_iff_left hzero, ← rows_at_offsets_iff hpos hle hn hdvd]
  constructor
  · intro haddr k hk
    -- a table that marks the first word of row `k` and no other
    have hword := haddr ⟨fun _ _ => 0, fun _ => 0⟩ (fun _ => 0)
      (fun w => if w = vl.toNat * k then 1 else 0) k hk 0 hpos
    rw [Nat.mul_comm k, Nat.add_zero, Nat.add_zero, if_pos rfl] at hword
    by_contra hne
    rw [if_neg hne] at hword
    exact absurd hword (by decide)
  · intro hoffset _ _ table k hk j _
    rw [hoffset k hk, Nat.mul_comm]

theorem rows_addressed_full_page : WholePages 32 32 ∧
    ∀ d fresh table, AddressesRows embedding32 d fresh table 32 32 0 := by
  have hwhole : WholePages 32 32 := ⟨by decide, by decide, by decide, by decide, by decide⟩
  exact ⟨hwhole, (rows_addressed_iff embedding32 hwhole 0).mpr (Or.inl (by decide))⟩

/-- With 48 words a row, 21 rows fit in a page: row 21 starts at word 1008 of page 0 but is
looked for at word 0. -/
theorem row_21_not_addressed : WholePages 48 64 ∧
    ¬ AddressesRows embedding32 ⟨fun _ _ => 0, fun _ => 0⟩ (fun _ => 0)
      (fun w => BitVec.ofNat 32 w) 48 64 0 := by
  have hwhole : WholePages 48 64 := ⟨by decide, by decide, by decide, by decide, by decide⟩
  refine ⟨hwhole, ?_⟩
  rw [hwhole.addressesRows_iff]
  intro hwords
  have hword := hwords 21 (by decide) 0 (by decide)
  exact absurd hword (by decide)

end Addressing

end EbpfIsp.Driver
