import EbpfIsp.Driver.Table
import EbpfIsp.Recsys.Slsload

/-! # The page buffer of the embedding reads

`open_unvme` allocates 4096 bytes for `fromPageAlloc`. A read transfers one
page into it, stores the elapsed time in the slot behind the selected row and
returns a pointer to the row, of which `slsload` copies one slot more than the
row has. Here the buffer has its 1024 slots, and an access to any other slot
has no result.
-/

namespace EbpfIsp.Recsys
open Library Device Kernels Driver HostProgram

def embeddingRead (fromPage : Page) (embedidx vectorLength tableId : CInt) : Request CInt :=
  .submitIo ⟨.read, 0, fun k => (fromPage.load k).getD 0,
    (embeddingBlock tableId vectorLength embedidx).signExtend 64⟩

def pagePtr (fromPage : Page) (elapsed embedding vectorLength : CInt) (r : Completion CInt) :
    Option (CInt × Page) :=
  let transferred : Page := fun k => (r.transfer k).getD (fromPage k)
  (transferred.store (embedding.toNat / 4 + vectorLength.toNat) elapsed).map fun page =>
    (embedding, page)

/-- `unvme_read_embedding` with the bounds of its buffer. -/
def readEmbeddingInPage (fromPage : Page) (elapsed embedidx vectorLength tableId _qid : CInt) :
    Host CInt (Option (CInt × Page)) := do
  let embedding ← ofOption (embeddingOffset embedidx vectorLength)
  let r ← issue (embeddingRead fromPage embedidx vectorLength tableId)
  printfIf (r.ret ≠ 0) "read_embedding err : %d\n" [r.ret]
  return pagePtr fromPage elapsed embedding vectorLength r

/-- `for h in xrange(m_spa+1): list_embedding.append(read_embedding[h])` -/
def copyEmbedding (mSpa : ℕ) (ptr : CInt × Page) : Option (List CInt) :=
  forLoop (mSpa + 1) (fun h listEmbedding =>
    (ptr.2.load (ptr.1.toNat / 4 + h)).map fun x => listEmbedding ++ [x]) []

section Refinement
variable {fromPage : Page} {elapsed e vl t q offset : CInt}
  {log : List (Request CInt × Completion CInt)}

theorem readEmbeddingInPage_path (hoff : embeddingOffset e vl = some offset)
    {out : Option (CInt × Page)} :
    Path (readEmbeddingInPage fromPage elapsed e vl t q) log out ↔
      ∃ r, log = [(embeddingRead fromPage e vl t, r)] ∧
        out = pagePtr fromPage elapsed offset vl r := by
  rw [readEmbeddingInPage, hoff]
  exact path_request_iff

theorem pagePtr_isSome {r : Completion CInt} :
    (pagePtr fromPage elapsed offset vl r).isSome ↔ offset.toNat / 4 + vl.toNat < 1024 := by
  rw [pagePtr, Option.isSome_map]
  constructor
  · exact Region.store_isSome
  · intro h
    rw [Region.store_of_lt _ h, Option.isSome_some]

theorem pagePtr_fst {r : Completion CInt} {ptr : CInt × Page}
    (h : pagePtr fromPage elapsed offset vl r = some ptr) : ptr.1 = offset := by
  obtain ⟨page, -, rfl⟩ := Option.map_eq_some_iff.mp h
  rfl

/-- Within its bounds the buffer is the memory of `unvmeReadEmbedding`. -/
theorem readEmbeddingInPage_refines (hoff : embeddingOffset e vl = some offset) {ptr : CInt × Page}
    (h : Path (readEmbeddingInPage fromPage elapsed e vl t q) log (some ptr)) :
    ∃ p, Path (unvmeReadEmbedding (fun k => (fromPage.load k).getD 0) elapsed e vl t q) log p ∧
      p.byteOffset = ptr.1 ∧ ∀ k (hk : k < 1024), p.fromPage k = ptr.2 ⟨k, hk⟩ := by
  obtain ⟨r, rfl, hout⟩ := (readEmbeddingInPage_path hoff).mp h
  rw [unvmeReadEmbedding, hoff]
  refine ⟨_, path_request_iff.mpr ⟨r, rfl, rfl⟩, ?_⟩
  have hslot := pagePtr_isSome.mp (by rw [← hout, Option.isSome_some])
  rw [pagePtr, Region.store_of_lt _ hslot] at hout
  cases hout
  refine ⟨rfl, fun k hk => ?_⟩
  by_cases hk' : k = offset.toNat / 4 + vl.toNat
  · subst hk'
    simp
  · dsimp only
    rw [Function.update_of_ne hk', Function.update_of_ne (fun h => hk' (Fin.ext_iff.mp h)),
      Completion.into, Region.load_of_lt _ hk, Option.getD_some]

theorem copyEmbedding_eq {mSpa : ℕ} {ptr : CInt × Page} {p : EmbeddingPtr}
    (hoff : p.byteOffset = ptr.1) (hpage : ∀ k (hk : k < 1024), p.fromPage k = ptr.2 ⟨k, hk⟩)
    (h : ptr.1.toNat / 4 + mSpa < 1024) :
    copyEmbedding mSpa ptr = some ((List.range (mSpa + 1)).map p.get) := by
  apply forLoop_eq (fun n => (List.range n).map p.get)
  intro i hi
  rw [Region.load_of_lt _ (by omega), ← hpage, ← hoff, List.range_succ, List.map_append]
  rfl

end Refinement

/-! ### Which rows stay in the buffer -/

/-- The read of row `e` is not killed, and in every run of it, whatever the device answers, the
slots that the transfer, the driver and the copy of the row touch are slots of the page. -/
def StaysInPage (e vl : CInt) : Prop :=
  (embeddingOffset e vl).isSome ∧ ∀ (fromPage : Page) (elapsed t q : CInt)
    (log : List (Request CInt × Completion CInt)) (out : Option (CInt × Page)),
    Path (readEmbeddingInPage fromPage elapsed e vl t q) log out →
    (∀ c r, (c, r) ∈ log → ∃ (kernel : Kernel 1024 CInt) (d d' : Ssd 1024 CInt),
      d.Serves kernel (fun _ => True) c r d') →
    (∀ c r, (c, r) ∈ log → ∀ k, (r.transfer k).isSome → k < 1024) ∧
      ∃ ptr, out = some ptr ∧ (copyEmbedding vl.toNat ptr).isSome

variable {e vl : CInt}

/-- The device transfers at most the page that was asked for. -/
theorem transfer_lt {kernel : Kernel 1024 CInt} {d d' : Ssd 1024 CInt} {fromPage : Page} {t : CInt}
    {r : Completion CInt} (h : d.Serves kernel (fun _ => True) (embeddingRead fromPage e vl t) r d')
    {k : ℕ} (hk : (r.transfer k).isSome) : k < 1024 := by
  rcases h.cases (Ssd.exec_read kernel d _ _ _) with ⟨rfl, -⟩ | ⟨-, -, err, -, rfl⟩
  · exact Region.load_isSome hk
  · cases hk

/-- Everything stays in the page if the slot behind the row does. -/
theorem staysInPage_iff_slot {offset : CInt} (hoff : embeddingOffset e vl = some offset) :
    StaysInPage e vl ↔ offset.toNat / 4 + vl.toNat < 1024 := by
  constructor
  · rintro ⟨-, h⟩
    let d : Ssd 1024 CInt := ⟨fun _ => 0, fun _ => 0⟩
    let kernel : Kernel 1024 CInt := fun _ _ _ _ _ => none
    have hread := Ssd.exec_read kernel d 0 (fun k => ((0 : Page).load k).getD 0)
      ((embeddingBlock 0 vl e).signExtend 64)
    obtain ⟨-, ptr, hptr, -⟩ := h 0 0 0 0 _ _
      ((readEmbeddingInPage_path hoff).mpr ⟨_, rfl, rfl⟩) (by
      intro c r hc
      cases List.mem_singleton.mp hc
      exact ⟨kernel, d, _, Ssd.Serves.of_exec hread⟩)
    exact pagePtr_isSome.mp (by rw [hptr, Option.isSome_some])
  · intro hslot
    refine ⟨by rw [hoff, Option.isSome_some], ?_⟩
    intro fromPage elapsed t q log out hpath hserved
    obtain ⟨r, rfl, rfl⟩ := (readEmbeddingInPage_path hoff).mp hpath
    constructor
    · intro c r' hc k hk
      obtain ⟨kernel, d, d', hd⟩ := hserved c r' hc
      cases List.mem_singleton.mp hc
      exact transfer_lt hd hk
    · obtain ⟨ptr, hptr⟩ := Option.isSome_iff_exists.mp (pagePtr_isSome.mpr hslot)
      obtain ⟨p, -, hoff, hpage⟩ := readEmbeddingInPage_refines hoff (hptr ▸ hpath)
      have hcopy := copyEmbedding_eq hoff hpage (by rw [pagePtr_fst hptr]; exact hslot)
      exact ⟨ptr, hptr, by rw [hcopy, Option.isSome_some]⟩

/-- A read stays in the buffer exactly if its row is not the last one of its page: the slot
behind the last row is slot 1024. -/
theorem staysInPage_iff (hvl : vl.toNat ∣ 1024) (he : 0 ≤ e.toInt) :
    StaysInPage e vl ↔ e.toNat % (1024 / vl.toNat) + 1 < 1024 / vl.toNat := by
  have hpos := pos_of_dvd_page hvl
  obtain ⟨offset, hoff, hword⟩ := exists_embeddingOffset_of_dvd hvl he
  have hslot : offset.toNat / 4 + vl.toNat = vl.toNat * (e.toNat % (1024 / vl.toNat) + 1) := by
    rw [hword, Nat.mul_div_cancel_left _ (by decide), targetVector_eq, Nat.mul_succ]
  have hpage : vl.toNat * (1024 / vl.toNat) = 1024 := Nat.mul_div_cancel' hvl
  rw [staysInPage_iff_slot hoff, hslot]
  constructor
  · intro h
    exact Nat.lt_of_mul_lt_mul_left (h.trans_eq hpage.symm)
  · intro h
    calc vl.toNat * (e.toNat % (1024 / vl.toNat) + 1) < vl.toNat * (1024 / vl.toNat) :=
          Nat.mul_lt_mul_of_pos_left h hpos
      _ = 1024 := hpage

theorem staysInPage_iff_first : StaysInPage 0 32 :=
  (staysInPage_iff (by decide) (by decide)).mpr (by decide)

/-- Row 31 of a table of 32 columns is the last one of page 0; the slot behind it is 1024. -/
theorem not_staysInPage_last : ¬ StaysInPage 31 32 ∧
    (embeddingOffset 31 32).map (fun offset => offset.toNat / 4 + (32 : CInt).toNat) =
      some 1024 := by
  have hoff : embeddingOffset 31 32 = some 3968 := by decide
  refine ⟨fun h => ?_, by decide⟩
  exact absurd ((staysInPage_iff_slot hoff).mp h) (by decide)

end EbpfIsp.Recsys
