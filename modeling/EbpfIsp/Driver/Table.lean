import EbpfIsp.Driver.SparseLengthSum

/-! # Writing a table and reading its rows

`unvme_write_table` copies the table and writes it page by page;
`unvme_read_embedding` reads the page of one row into the shared buffer and
returns a pointer into it. Only whole pages are written, so the rows behind the
last page boundary are lost.
-/

namespace EbpfIsp.Driver
open Library Device Kernels HostProgram

/-- `unvme_write_table(table, vector_length, table_length, table_id)`; `fresh` is the
content of the allocation before the copy. -/
def unvmeWriteTable (fresh table : ℕ → CInt) (vectorLength tableLength tableId : CInt) :
    Host CInt Unit := do
  let buf := fill table (vectorLength * tableLength).toInt.toNat fresh
  printf "vector_length: %d / table_length: %d\n" [vectorLength, tableLength]
  loop (tablePages vectorLength tableLength).toInt.toNat (fun i _ => do
    let r ← issue (.submitIo ⟨.write, 0, fun k => buf (i * 1024 + k),
      (writeBlock tableId i).signExtend 64⟩)
    printfIf (r.ret ≠ 0) "write_table %d err : %d\n" [tableId, r.ret]) ()

theorem unvmeWriteTable_returns (fresh table : ℕ → CInt) (vectorLength tableLength tableId : CInt) :
    Returns (unvmeWriteTable fresh table vectorLength tableLength tableId) := by
  apply (Emits.say _).returns.bind
  intro _
  apply Returns.loop
  intro i _
  exact (Returns.issue _).bind fun r => (printfIf_emits _ _ _).returns

/-- A pointer into `fromPageAlloc`, with the contents of the buffer. -/
structure EmbeddingPtr where
  byteOffset : CInt
  fromPage : ℕ → CInt

def EmbeddingPtr.get (p : EmbeddingPtr) (i : ℕ) : CInt := p.fromPage (p.byteOffset.toNat / 4 + i)

/-- `(embedidx % (4096 / (attribute_size * vector_length))) * (attribute_size * vector_length)`;
no row per page, or no word per row, and one of the divisors is zero. -/
def embeddingOffset (embedidx vectorLength : CInt) : Option CInt := do
  let rowsPerPage ← CInt.div 4096 (attributeSize * vectorLength)
  let row ← CInt.rem embedidx rowsPerPage
  return row * (attributeSize * vectorLength)

/-- `unvme_read_embedding(embedidx, vector_length, table_id, qid)`; the elapsed time is
stored in the slot behind the row. -/
def unvmeReadEmbedding (fromPage : ℕ → CInt) (elapsed embedidx vectorLength tableId _qid : CInt) :
    Host CInt EmbeddingPtr := do
  let embedding ← ofOption (embeddingOffset embedidx vectorLength)
  let r ← issue (.submitIo ⟨.read, 0, fromPage,
    (embeddingBlock tableId vectorLength embedidx).signExtend 64⟩)
  printfIf (r.ret ≠ 0) "read_embedding err : %d\n" [r.ret]
  return ⟨embedding,
    Function.update (r.into fromPage) (embedding.toNat / 4 + vectorLength.toNat) elapsed⟩

section Run
variable (kernel : Kernel 1024 CInt) {vl n t e : CInt}

theorem toInt_nonneg_of_dvd (hvl : vl.toNat ∣ 1024) : 0 ≤ vl.toInt ∧ vl.toInt ≤ 1024 := by
  have hle : vl.toNat ≤ 1024 := Nat.le_of_dvd (by decide) hvl
  rw [BitVec.toInt_eq_toNat_of_lt (by omega)]
  omega

theorem writePage_run (d : Ssd 1024 CInt) (buf : ℕ → CInt) (i : ℕ) :
    (do let r ← issue (.submitIo ⟨.write, 0, fun k => buf (i * 1024 + k),
          (writeBlock t i).signExtend 64⟩)
        printfIf (r.ret ≠ 0) "write_table %d err : %d\n" [t, r.ret] : Host CInt Unit).run
      (Ssd.exec kernel) d =
        some (d.overwrite ((writeBlock t i).signExtend 64).toNat 1 (fun k => buf (i * 1024 + k)),
          [], ()) := by
  rw [run_issue_bind _ (Ssd.exec_write kernel d _ _ _)]
  exact printfIf_run _ (fun h => h rfl) _ _ _

/-- The pages that are written lie inside the copied part of the buffer. -/
theorem copied_of_lt_pages (hlo : -2 ^ 31 ≤ 4 * vl.toInt * n.toInt)
    (hhi : 4 * vl.toInt * n.toInt < 2 ^ 31) {k : ℕ}
    (hk : k < (4 * vl.toInt * n.toInt / 4096).toNat * 1024) : k < (vl * n).toInt.toNat := by
  have hmul : (vl * n).toInt = vl.toInt * n.toInt := by
    rw [mul_assoc] at hlo hhi
    exact CInt.toInt_mul_of_range (by omega) (by omega)
  rw [hmul]
  rw [mul_assoc] at hk
  omega

/-- All commands succeeding, the whole pages of the table are on flash afterwards. -/
theorem unvmeWriteTable_run (d : Ssd 1024 CInt) (fresh table : ℕ → CInt)
    (hlo : -2 ^ 31 ≤ 4 * vl.toInt * n.toInt) (hhi : 4 * vl.toInt * n.toInt < 2 ^ 31)
    (ht : 0 ≤ t.toInt)
    (hov : ∀ i < (4 * vl.toInt * n.toInt / 4096).toNat, 1024 + t.toInt * 250000 + i < 2 ^ 31) :
    (unvmeWriteTable fresh table vl n t).run (Ssd.exec kernel) d =
      some (d.overwrite (tableBase t.toNat) (4 * vl.toInt * n.toInt / 4096).toNat table,
        [⟨"vector_length: %d / table_length: %d\n", [vl, n]⟩], ()) := by
  set pages := (4 * vl.toInt * n.toInt / 4096).toNat with hpages
  set buf := fill table (vl * n).toInt.toNat fresh with hbuf
  obtain ⟨d', os, u, hrun, rfl, rfl⟩ := run_loop (Ssd.exec kernel)
    (fun i d' os (_ : Unit) => d' = d.overwrite (tableBase t.toNat) i buf ∧ os = []) pages
    (fun i _ => do
      let r ← issue (.submitIo ⟨.write, 0, fun k => buf (i * 1024 + k),
        (writeBlock t i).signExtend 64⟩)
      printfIf (r.ret ≠ 0) "write_table %d err : %d\n" [t, r.ret]) d ()
    ⟨(d.overwrite_zero _ _).symm, rfl⟩ (by
      rintro i hi _ _ _ ⟨rfl, rfl⟩
      refine ⟨_, _, _, writePage_run kernel _ buf i, ?_, rfl⟩
      rw [writeBlock_toNat ht (hov i hi)]
      exact d.overwrite_succ _ _ _)
  have hcopy : d.overwrite (tableBase t.toNat) pages buf =
      d.overwrite (tableBase t.toNat) pages table := by
    rw [Ssd.overwrite, Ssd.overwrite, Flash.overwrite_congr]
    intro k hk
    rw [hbuf, fill_apply, if_pos (copied_of_lt_pages hlo hhi hk)]
  rw [unvmeWriteTable, tablePages_toNat hlo hhi, ← hcopy]
  exact run_bind_of _ (run_say _ _ _) hrun

def readPtr (fromPage : ℕ → CInt) (elapsed offset vl : CInt) (block : Page) : EmbeddingPtr where
  byteOffset := offset
  fromPage := Function.update (fun i => (block.load i).getD (fromPage i))
    (offset.toNat / 4 + vl.toNat) elapsed

theorem unvmeReadEmbedding_run {offset : CInt} (hoff : embeddingOffset e vl = some offset)
    (d : Ssd 1024 CInt) (fromPage : ℕ → CInt) (elapsed q : CInt) :
    (unvmeReadEmbedding fromPage elapsed e vl t q).run (Ssd.exec kernel) d =
      some (d, [], readPtr fromPage elapsed offset vl
        (d.flash ((embeddingBlock t vl e).signExtend 64).toNat)) := by
  rw [unvmeReadEmbedding, hoff]
  apply run_bind_of _ (run_done _ _ _)
  rw [run_issue_bind _ (Ssd.exec_read kernel d _ _ _), Flash.window_one_load]
  exact run_bind_of _ (printfIf_run _ (fun h => h rfl) _ _ _) (run_done _ _ _)

theorem unvmeReadEmbedding_killed (hoff : embeddingOffset e vl = none) (d : Ssd 1024 CInt)
    (fromPage : ℕ → CInt) (elapsed q : CInt) :
    (unvmeReadEmbedding fromPage elapsed e vl t q).run (Ssd.exec kernel) d = none := by
  rw [unvmeReadEmbedding, hoff]
  rfl

/-- For rows that fit in a page the divisions succeed, and the pointer points to the row that
the kernel would select. -/
theorem exists_embeddingOffset (hpos : 0 < vl.toNat) (hmax : vl.toNat ≤ 1024) (he : 0 ≤ e.toInt) :
    ∃ offset, embeddingOffset e vl = some offset ∧ offset.toNat = 4 * targetVector vl.toNat e := by
  have hvl := BitVec.toInt_eq_toNat_of_lt (x := vl) (by omega)
  have hvl0 : 0 ≤ vl.toInt := by omega
  have hsize : (attributeSize * vl).toInt = 4 * vl.toInt :=
    CInt.toInt_mul_of_range (a := attributeSize) (by rw [attributeSize_toInt]; omega)
      (by rw [attributeSize_toInt]; omega)
  have hsizepos : 0 < (attributeSize * vl).toInt := by omega
  have hrows : (BitVec.sdiv 4096 (attributeSize * vl)).toInt = (4096 / (4 * vl.toNat) : ℕ) := by
    rw [CInt.toInt_sdiv_of_nonneg (by decide) hsizepos, hsize, ← CInt.natCast_toNat hvl0]
    norm_cast
  have hrowspos : 0 < (BitVec.sdiv 4096 (attributeSize * vl)).toInt := by
    rw [hrows, Int.natCast_pos]
    exact Nat.div_pos (by omega) (by omega)
  have hrem : (e.srem (BitVec.sdiv 4096 (attributeSize * vl))).toInt =
      (e.toNat % (4096 / (4 * vl.toNat)) : ℕ) := by
    rw [CInt.toInt_srem_of_nonneg he, hrows, ← CInt.natCast_toNat he]
    norm_cast
  have hoff : (e.srem (BitVec.sdiv 4096 (attributeSize * vl))).toInt * (attributeSize * vl).toInt =
      (4 * targetVector vl.toNat e : ℕ) := by
    rw [hrem, hsize, ← CInt.natCast_toNat hvl0, targetVector]
    push_cast
    ring
  have hle := targetVector_end_le hpos hmax e
  refine ⟨e.srem (BitVec.sdiv 4096 (attributeSize * vl)) * (attributeSize * vl), ?_, ?_⟩
  · simp only [embeddingOffset, CInt.div_of_pos hsizepos, CInt.rem_of_pos hrowspos,
      Option.bind_eq_bind, Option.bind_some, Option.pure_def]
  · have hval := CInt.toInt_mul_of_range (by rw [hoff]; omega) (by rw [hoff]; omega)
    have hcast := CInt.natCast_toNat
      (a := e.srem (BitVec.sdiv 4096 (attributeSize * vl)) * (attributeSize * vl)) (by omega)
    omega

theorem exists_embeddingOffset_of_dvd (hvl : vl.toNat ∣ 1024) (he : 0 ≤ e.toInt) :
    ∃ offset, embeddingOffset e vl = some offset ∧ offset.toNat = 4 * targetVector vl.toNat e :=
  exists_embeddingOffset (pos_of_dvd_page hvl) (Nat.le_of_dvd (by decide) hvl) he

/-- The vector that is returned is the row of the block that was read. -/
theorem readPtr_get (hvl : vl.toNat ∣ 1024) {offset : CInt}
    (hoff : offset.toNat = 4 * targetVector vl.toNat e) (fromPage : ℕ → CInt) (elapsed : CInt)
    (block : Page) {i : ℕ} (hi : i < vl.toNat) :
    some ((readPtr fromPage elapsed offset vl block).get i) =
      block.load (targetVector vl.toNat e + i) := by
  have hle := targetVector_add_le hvl e
  have hword : offset.toNat / 4 = targetVector vl.toNat e := by omega
  simp only [EmbeddingPtr.get, readPtr, hword]
  rw [Function.update_of_ne (by omega), Region.load_of_lt _ (by omega), Option.getD_some]

end Run

section ReadBack
variable (kernel : Kernel 1024 CInt) {vl n t e : CInt}

/-- A table of the promised sizes: whole rows per page, at most 1GB, and no overflow in the
block number of its last row. -/
structure TableFits (vl n t : CInt) : Prop where
  dvd : vl.toNat ∣ 1024
  pos : 1 ≤ n.toInt
  size : 4 * vl.toInt * n.toInt ≤ 250000 * 4096
  id : 0 ≤ t.toInt
  block : 1024 + t.toInt * 250000 + 4 * vl.toInt * (n.toInt - 1) / 4096 < 2 ^ 31

def ReadsBack (d : Ssd 1024 CInt) (fresh table : ℕ → CInt) (vl n t : CInt) : Prop :=
  ∃ d' os, (unvmeWriteTable fresh table vl n t).run (Ssd.exec kernel) d = some (d', os, ()) ∧
    ∀ (e : CInt) (fromPage : ℕ → CInt) (elapsed q : CInt), 0 ≤ e.toInt → e.toInt < n.toInt →
      ∃ d'' os' p, (unvmeReadEmbedding fromPage elapsed e vl t q).run (Ssd.exec kernel) d' =
          some (d'', os', p) ∧
        ∀ i < vl.toNat, p.get i = table (e.toNat * vl.toNat + i)

namespace TableFits

theorem pages_toNat (h : TableFits vl n t) :
    (4 * vl.toInt * n.toInt / 4096).toNat = vl.toNat * n.toNat / 1024 := by
  have hn : 0 ≤ n.toInt := by have := h.pos; omega
  rw [← CInt.natCast_toNat (toInt_nonneg_of_dvd h.dvd).1, ← CInt.natCast_toNat hn]
  have hdiv : 4 * vl.toNat * n.toNat / 4096 = vl.toNat * n.toNat / 1024 := by
    rw [Nat.mul_assoc, byte_page]
  rw [← hdiv]
  norm_cast

theorem run_write (h : TableFits vl n t) (d : Ssd 1024 CInt) (fresh table : ℕ → CInt) :
    (unvmeWriteTable fresh table vl n t).run (Ssd.exec kernel) d =
      some (d.overwrite (tableBase t.toNat) (vl.toNat * n.toNat / 1024) table,
        [⟨"vector_length: %d / table_length: %d\n", [vl, n]⟩], ()) := by
  obtain ⟨hvl0, hvl1⟩ := toInt_nonneg_of_dvd h.dvd
  have hpos := h.pos
  have hsize := h.size
  have hblock := h.block
  have hnn : 0 ≤ 4 * vl.toInt * n.toInt := by positivity
  have hlast : 4 * vl.toInt * n.toInt = 4 * vl.toInt * (n.toInt - 1) + 4 * vl.toInt := by ring
  rw [unvmeWriteTable_run kernel d fresh table (by omega) (by omega) h.id (by omega), h.pages_toNat]

theorem block_toNat (h : TableFits vl n t) (he : 0 ≤ e.toInt) (hen : e.toInt < n.toInt) :
    ((embeddingBlock t vl e).signExtend 64).toNat =
      tableBase t.toNat + vl.toNat * e.toNat / 1024 := by
  obtain ⟨hvl0, -⟩ := toInt_nonneg_of_dvd h.dvd
  have hsize := h.size
  have hblock := h.block
  have hlt : 4 * vl.toInt * e.toInt ≤ 4 * vl.toInt * (n.toInt - 1) := by gcongr; omega
  have hlast : 4 * vl.toInt * n.toInt = 4 * vl.toInt * (n.toInt - 1) + 4 * vl.toInt := by ring
  rw [embeddingBlock_toNat hvl0 he h.id (by omega) (by omega), Nat.mul_assoc 4, byte_page]

/-- A row on a whole page is on flash after the write; behind the last whole page flash
is as before. -/
theorem row_after_write (h : TableFits vl n t) (he : 0 ≤ e.toInt) (hen : e.toInt < n.toInt)
    (d : Ssd 1024 CInt) (table : ℕ → CInt) {i : ℕ} (hi : i < vl.toNat) :
    ((d.overwrite (tableBase t.toNat) (vl.toNat * n.toNat / 1024) table).flash
        ((embeddingBlock t vl e).signExtend 64).toNat).load (targetVector vl.toNat e + i) =
      if vl.toNat * e.toNat / 1024 < vl.toNat * n.toNat / 1024 then
        some (table (vl.toNat * e.toNat + i))
      else (d.flash ((embeddingBlock t vl e).signExtend 64).toNat).load
        (targetVector vl.toNat e + i) := by
  have hle := targetVector_add_le h.dvd e
  have hcell : vl.toNat * e.toNat / 1024 * 1024 + (targetVector vl.toNat e + i) =
      vl.toNat * e.toNat + i := by
    have hdm := Nat.div_add_mod' (vl.toNat * e.toNat + i) 1024
    rw [row_offset h.dvd _ hi, row_div (pos_of_dvd_page h.dvd) h.dvd _ hi] at hdm
    exact hdm
  rw [h.block_toNat he hen, Ssd.overwrite_flash, Region.load_of_lt _ (by omega)]
  by_cases hpage : vl.toNat * e.toNat / 1024 < vl.toNat * n.toNat / 1024
  · rw [if_pos hpage, Flash.overwrite_of_mem _ _ (by omega), Nat.add_sub_cancel_left, hcell]
  · rw [if_neg hpage, Flash.overwrite_of_not_mem _ _ (by omega), Region.load_of_lt _ (by omega)]

end TableFits

/-- What reading back says of flash after the write. -/
theorem ReadsBack.row {kernel : Kernel 1024 CInt} {d : Ssd 1024 CInt} {fresh table : ℕ → CInt}
    (hback : ReadsBack kernel d fresh table vl n t) (h : TableFits vl n t) (he : 0 ≤ e.toInt)
    (hen : e.toInt < n.toInt) {i : ℕ} (hi : i < vl.toNat) :
    ((d.overwrite (tableBase t.toNat) (vl.toNat * n.toNat / 1024) table).flash
        ((embeddingBlock t vl e).signExtend 64).toNat).load (targetVector vl.toNat e + i) =
      some (table (e.toNat * vl.toNat + i)) := by
  obtain ⟨d', os, hrun, hread⟩ := hback
  rw [h.run_write] at hrun
  obtain ⟨rfl, -⟩ := Prod.mk.inj (Option.some.inj hrun)
  obtain ⟨d'', os', p, hp, hget⟩ := hread e (fun _ => 0) 0 0 he hen
  obtain ⟨offset, hoff, hword⟩ := exists_embeddingOffset_of_dvd h.dvd he
  rw [unvmeReadEmbedding_run kernel hoff] at hp
  obtain ⟨-, hp⟩ := Prod.mk.inj (Option.some.inj hp)
  obtain ⟨-, rfl⟩ := Prod.mk.inj hp
  rw [← hget i hi, readPtr_get h.dvd hword _ _ _ hi]

/-- A row behind the last whole page is not read back from a flash that held other words. -/
theorem not_readsBack (h : TableFits vl n t) (he : 0 ≤ e.toInt) (hen : e.toInt < n.toInt)
    (hpage : vl.toNat * n.toNat / 1024 ≤ vl.toNat * e.toNat / 1024) {table : ℕ → CInt} {w : CInt}
    (hw : w ≠ table (e.toNat * vl.toNat)) (fresh : ℕ → CInt) :
    ¬ ReadsBack kernel ⟨fun _ _ => w, fun _ => 0⟩ fresh table vl n t := by
  intro hback
  have hpos := pos_of_dvd_page h.dvd
  have hle := targetVector_add_le h.dvd e
  have hrow := hback.row h he hen hpos
  rw [h.row_after_write he hen _ _ hpos, if_neg (by omega), Region.load_of_lt _ (by omega)] at hrow
  exact hw (Option.some.inj hrow)

/-- Exactly the tables that fill whole pages are read back, whatever flash held before. -/
theorem table_reads_back_iff (h : TableFits vl n t) (table : ℕ → CInt) :
    (∀ d fresh, ReadsBack kernel d fresh table vl n t) ↔ 4096 ∣ 4 * vl.toNat * n.toNat := by
  have hpos := h.pos
  have hn := CInt.natCast_toNat (a := n) (by omega)
  rw [Nat.mul_assoc, show (4096 : ℕ) = 4 * 1024 from rfl, Nat.mul_dvd_mul_iff_left (by decide),
    ← rows_in_whole_blocks (pos_of_dvd_page h.dvd) h.dvd (by decide) (by omega)]
  constructor
  · intro hback k hk
    by_contra hpage
    have hrange := CInt.toInt_range n
    have hnat : (BitVec.ofNat 32 k : CInt).toNat = k := CInt.toNat_ofNat_of_lt (by omega)
    have hint : (BitVec.ofNat 32 k : CInt).toInt = k := CInt.toInt_ofNat_of_lt (by omega)
    exact not_readsBack kernel h (e := BitVec.ofNat 32 k) (w := table (k * vl.toNat) + 1)
      (by omega) (by omega) (by rw [hnat]; omega) (by rw [hnat]; simp) (fun _ => 0) (hback _ _)
  · intro hpage d fresh
    refine ⟨_, _, h.run_write kernel d fresh table, ?_⟩
    intro e fromPage elapsed q he hen
    obtain ⟨offset, hoff, hword⟩ := exists_embeddingOffset_of_dvd h.dvd he
    refine ⟨_, _, _, unvmeReadEmbedding_run kernel hoff _ fromPage elapsed q, ?_⟩
    intro i hi
    apply Option.some.inj
    have hnat := CInt.natCast_toNat he
    rw [readPtr_get h.dvd hword _ _ _ hi, h.row_after_write he hen _ _ hi,
      if_pos (hpage _ (by omega)), Nat.mul_comm]

theorem table_reads_back_full_page : TableFits 32 32 0 ∧
    ∀ d fresh, ReadsBack embedding32 d fresh (fun k => BitVec.ofNat 32 k) 32 32 0 := by
  have hfits : TableFits 32 32 0 := ⟨by decide, by decide, by decide, by decide, by decide⟩
  exact ⟨hfits, (table_reads_back_iff embedding32 hfits _).mpr (by decide)⟩

/-- Of 33 rows of 32 words the last one is behind the page boundary; a table of ones is not
read back from a zeroed flash. -/
theorem last_row_not_read_back : TableFits 32 33 0 ∧
    ¬ ReadsBack embedding32 ⟨fun _ _ => 0, fun _ => 0⟩ (fun _ => 0) (fun _ => 1) 32 33 0 := by
  have hfits : TableFits 32 33 0 := ⟨by decide, by decide, by decide, by decide, by decide⟩
  exact ⟨hfits, not_readsBack embedding32 hfits (e := 32) (by decide) (by decide) (by decide)
    (by decide) _⟩

end ReadBack

end EbpfIsp.Driver
