import EbpfIsp.Driver.Table

/-! # Tables on flash do not interfere

The block stride of a table is compared with sizes in bytes. A write covers
whole pages from the base of its table on, a read and an in-storage request
address one block; the three expressions stay inside the window of their own
table, so a write never reaches a row of another one.
-/

namespace EbpfIsp.Driver
open Library Device HostProgram

structure TableWrite where
  fresh : ℕ → CInt
  table : ℕ → CInt
  vectorLength : CInt
  tableLength : CInt
  tableId : CInt

namespace TableWrite

def call (c : TableWrite) : Host CInt Unit :=
  unvmeWriteTable c.fresh c.table c.vectorLength c.tableLength c.tableId

def pages (c : TableWrite) : ℕ := (4 * c.vectorLength.toInt * c.tableLength.toInt / 4096).toNat

/-- Whole rows per page, at most one stride of pages, and no overflow in the size or in the
number of a written block. -/
structure Valid (c : TableWrite) : Prop where
  dvd : c.vectorLength.toNat ∣ 1024
  noOverflow : -2 ^ 31 ≤ 4 * c.vectorLength.toInt * c.tableLength.toInt
  size : 4 * c.vectorLength.toInt * c.tableLength.toInt ≤ 250000 * 4096
  id : 0 ≤ c.tableId.toInt
  block : ∀ page < c.pages, 1024 + c.tableId.toInt * 250000 + page < 2 ^ 31

end TableWrite

def writeTables : List TableWrite → Host CInt Unit
  | [] => pure ()
  | c :: cs => do
    c.call
    writeTables cs

section Run
variable (kernel : Kernel 1024 CInt) {c : TableWrite}

theorem TableWrite.Valid.run (hc : c.Valid) (d : Ssd 1024 CInt) :
    c.call.run (Ssd.exec kernel) d = some (d.overwrite (tableBase c.tableId.toNat) c.pages c.table,
      [⟨"vector_length: %d / table_length: %d\n", [c.vectorLength, c.tableLength]⟩], ()) := by
  have hsize := hc.size
  exact unvmeWriteTable_run kernel d c.fresh c.table hc.noOverflow (by omega) hc.id hc.block

/-- A sequence of valid calls runs to its end. -/
theorem writeTables_run (calls : List TableWrite) (h : ∀ c ∈ calls, c.Valid) (d : Ssd 1024 CInt) :
    ∃ d' os, (writeTables calls).run (Ssd.exec kernel) d = some (d', os, ()) := by
  induction calls generalizing d with
  | nil => exact ⟨d, [], rfl⟩
  | cons c cs ih =>
    obtain ⟨d', os, hrun⟩ := ih (fun c hc => h c (List.mem_cons_of_mem _ hc))
      (d.overwrite (tableBase c.tableId.toNat) c.pages c.table)
    exact ⟨d', _, run_bind_of _ ((h c List.mem_cons_self).run kernel d) hrun⟩

end Run

section Blocks
variable {c : TableWrite} {vl t e : CInt}

/-- A block number of another table's window is not written. -/
theorem TableWrite.Valid.not_written (hc : c.Valid) (hne : t ≠ c.tableId) {page : ℤ}
    (hlo : 0 ≤ page) (hhi : page < 250000) {b : ℕ}
    (hb : b < 2 ^ 31 → (b : ℤ) = 1024 + t.toInt * 250000 + page) :
    ¬ (tableBase c.tableId.toNat ≤ b ∧ b < tableBase c.tableId.toNat + c.pages) := by
  rintro ⟨hle, hlt⟩
  have hid := CInt.natCast_toNat hc.id
  have hsize := hc.size
  have hlast := hc.block (b - tableBase c.tableId.toNat) (by omega)
  have hpages : c.pages ≤ 250000 := by
    rw [TableWrite.pages]
    omega
  rw [tableBase] at hle hlt hlast
  have hval := hb (by omega)
  apply hne
  apply BitVec.eq_of_toInt_eq
  omega

theorem embeddingBlock_of_lt (hvl : 0 ≤ vl.toInt) (he : 0 ≤ e.toInt)
    (hsize : 4 * vl.toInt * e.toInt < 250000 * 4096)
    (hlo : -2 ^ 31 ≤ 1024 + t.toInt * 250000 + 4 * vl.toInt * e.toInt / 4096)
    (hhi : 1024 + t.toInt * 250000 + 4 * vl.toInt * e.toInt / 4096 < 2 ^ 31) :
    (((embeddingBlock t vl e).signExtend 64).toNat < 2 ^ 31 →
      (((embeddingBlock t vl e).signExtend 64).toNat : ℤ) =
        1024 + t.toInt * 250000 + 4 * vl.toInt * e.toInt / 4096) ∧
    ((embeddingBlock t vl e).toNat < 2 ^ 31 → ((embeddingBlock t vl e).toNat : ℤ) =
        1024 + t.toInt * 250000 + 4 * vl.toInt * e.toInt / 4096) := by
  have hv := embeddingBlock_toInt (t := t) hvl he (by omega) hlo hhi
  constructor
  · intro h
    rw [← BitVec.toInt_eq_toNat_of_lt (by omega), BitVec.toInt_signExtend_of_le (by decide), hv]
  · intro h
    rw [← BitVec.toInt_eq_toNat_of_lt (by omega), hv]

end Blocks

/-- Row `e` of table `t` is the same for a read and for an in-storage request: the read has the
same outcome, which for rows that fit in a page is the same pointer into the same buffer, and the
request has the same completion and leaves the same map pages. -/
structure SameRow (kernel : Kernel 1024 CInt) (d d' : Ssd 1024 CInt) (vl t e : CInt) : Prop where
  read : ∀ (fromPage : ℕ → CInt) (elapsed q : CInt),
    ((unvmeReadEmbedding fromPage elapsed e vl t q).run (Ssd.exec kernel) d).map Prod.snd =
      ((unvmeReadEmbedding fromPage elapsed e vl t q).run (Ssd.exec kernel) d').map Prod.snd
  returns : 0 < vl.toNat → vl.toNat ≤ 1024 → ∀ (fromPage : ℕ → CInt) (elapsed q : CInt), ∃ p,
    (unvmeReadEmbedding fromPage elapsed e vl t q).run (Ssd.exec kernel) d = some (d, [], p) ∧
    (unvmeReadEmbedding fromPage elapsed e vl t q).run (Ssd.exec kernel) d' = some (d', [], p)
  accumulate : ∀ (a : SlsArgs) (q : CInt) (i : ℕ), a.vectorLength = vl → a.tableId = t →
    a.flatInd (i * 2 + 1) = e →
      (d.exec kernel (.ioCmd (ispRequest a q i))).map (fun out => (out.1.mapPage, out.2)) =
      (d'.exec kernel (.ioCmd (ispRequest a q i))).map (fun out => (out.1.mapPage, out.2))

theorem SameRow.of_blocks {kernel : Kernel 1024 CInt} {d d' : Ssd 1024 CInt} {vl t e : CInt}
    (he : 0 ≤ e.toInt) (hpage : d'.mapPage = d.mapPage)
    (hread : d'.flash ((embeddingBlock t vl e).signExtend 64).toNat =
      d.flash ((embeddingBlock t vl e).signExtend 64).toNat)
    (hisp : d'.flash (embeddingBlock t vl e).toNat = d.flash (embeddingBlock t vl e).toNat) :
    SameRow kernel d d' vl t e where
  read fromPage elapsed q := by
    cases hoff : embeddingOffset e vl with
    | none => rw [unvmeReadEmbedding_killed kernel hoff, unvmeReadEmbedding_killed kernel hoff]
    | some offset =>
      rw [unvmeReadEmbedding_run kernel hoff, unvmeReadEmbedding_run kernel hoff, hread]
      rfl
  returns hpos hle fromPage elapsed q := by
    obtain ⟨offset, hoff, -⟩ := exists_embeddingOffset hpos hle he
    refine ⟨_, unvmeReadEmbedding_run kernel hoff d fromPage elapsed q, ?_⟩
    rw [unvmeReadEmbedding_run kernel hoff, hread]
  accumulate := by
    rintro a q i rfl rfl rfl
    have hwin :
        d'.flash.window (ispRequest a q i).cdw10.toNat ((ispRequest a q i).cdw12.toNat + 1) =
        d.flash.window (ispRequest a q i).cdw10.toNat ((ispRequest a q i).cdw12.toNat + 1) := by
      apply Flash.window_congr
      intro k hk
      obtain rfl : k = 0 := by
        have h₀ : (ispRequest a q i).cdw12.toNat = 0 := rfl
        omega
      rw [Nat.add_zero]
      exact hisp
    have hop : (ispRequest a q i).opcode = .ispRead := rfl
    simp only [Ssd.exec, Ssd.execIsp, hop, hwin, hpage, Option.map_map]
    congr 1
    funext out
    simp only [Function.comp_apply, Ssd.setPage, hpage]

/-- A call in any sequence of calls leaves every row of every other table unchanged. -/
theorem tables_do_not_interfere (kernel : Kernel 1024 CInt) (d₀ : Ssd 1024 CInt)
    (pre : List TableWrite) (hpre : ∀ c ∈ pre, c.Valid) (c : TableWrite) (hc : c.Valid) :
    ∃ d os d' os', (writeTables pre).run (Ssd.exec kernel) d₀ = some (d, os, ()) ∧
      c.call.run (Ssd.exec kernel) d = some (d', os', ()) ∧
      ∀ vl t e : CInt, t ≠ c.tableId → 0 ≤ vl.toInt → 0 ≤ e.toInt →
        4 * vl.toInt * e.toInt < 250000 * 4096 →
        -2 ^ 31 ≤ 1024 + t.toInt * 250000 + 4 * vl.toInt * e.toInt / 4096 →
        1024 + t.toInt * 250000 + 4 * vl.toInt * e.toInt / 4096 < 2 ^ 31 →
        SameRow kernel d d' vl t e := by
  obtain ⟨d, os, hd⟩ := writeTables_run kernel pre hpre d₀
  refine ⟨d, os, _, _, hd, hc.run kernel d, ?_⟩
  intro vl t e hne hvl he hsize hlo hhi
  have hnn : 0 ≤ 4 * vl.toInt * e.toInt := by positivity
  obtain ⟨hread, hisp⟩ := embeddingBlock_of_lt hvl he hsize hlo hhi
  apply SameRow.of_blocks he (Ssd.overwrite_mapPage _ _ _ _)
  · exact Flash.overwrite_of_not_mem _ _ (hc.not_written hne (by omega) (by omega) hread)
  · exact Flash.overwrite_of_not_mem _ _ (hc.not_written hne (by omega) (by omega) hisp)

/-- Two tables of 64 rows: writing the second leaves row 5 of the first. -/
theorem tables_do_not_interfere_two :
    ∃ d os d' os', (writeTables [⟨fun _ => 0, fun _ => 1, 32, 64, 0⟩]).run
        (Ssd.exec Kernels.embedding32) ⟨fun _ _ => 0, fun _ => 0⟩ = some (d, os, ()) ∧
      (TableWrite.call ⟨fun _ => 0, fun _ => 2, 32, 64, 1⟩).run (Ssd.exec Kernels.embedding32) d =
        some (d', os', ()) ∧ SameRow Kernels.embedding32 d d' 32 0 5 := by
  have h₀ : TableWrite.Valid ⟨fun _ => 0, fun _ => 1, 32, 64, 0⟩ :=
    ⟨by decide, by decide, by decide, by decide, by decide⟩
  have h₁ : TableWrite.Valid ⟨fun _ => 0, fun _ => 2, 32, 64, 1⟩ :=
    ⟨by decide, by decide, by decide, by decide, by decide⟩
  obtain ⟨d, os, d', os', hd, hd', hrow⟩ := tables_do_not_interfere Kernels.embedding32
    ⟨fun _ _ => 0, fun _ => 0⟩ [⟨fun _ => 0, fun _ => 1, 32, 64, 0⟩]
    (by simpa using h₀) ⟨fun _ => 0, fun _ => 2, 32, 64, 1⟩ h₁
  exact ⟨d, os, d', os', hd, hd', hrow 32 0 5 (by decide) (by decide) (by decide) (by decide)
    (by decide) (by decide)⟩

end EbpfIsp.Driver
