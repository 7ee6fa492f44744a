import EbpfIsp.Driver.Layout
import EbpfIsp.Kernels.Embedding

/-! # The in-storage sparse length sum

`unvme_sparse_length_sum` submits one in-storage request per input embedding,
reads the map page of its queue and clears it. The requests do not depend on
the responses, so the program emits a fixed list of commands, unless the range
check behind a request divides by zero. The buffer it returns is allocated at
the start and not written afterwards.
-/

namespace EbpfIsp.Driver
open Library Device Kernels HostProgram

/-- Arguments of one call, without the queue id. `flatInd` alternates result and
embedding ids. -/
structure SlsArgs where
  flatInd : ℕ → CInt
  vectorLength : CInt
  batchsize : CInt
  embedPerResult : CInt
  tableId : CInt
  inputEmbeddings : CInt

/-- What `malloc` returned for `map_page` and `convert_float`: arbitrary contents. -/
structure SlsHeap where
  mapPage : ℕ → CInt
  convertFloat : ℕ → CInt

/-- A host allocation and its contents in words. -/
structure HostBuf where
  bytes : BitVec 64
  word : ℕ → CInt

def buffersize (a : SlsArgs) : CInt :=
  if (4 * 2 * a.inputEmbeddings + 20).slt (4 * a.vectorLength * a.batchsize) then
    4 * a.vectorLength * a.batchsize
  else 4 * 2 * a.inputEmbeddings + 20

def ispRequest (a : SlsArgs) (qid : CInt) (i : ℕ) : PassthruCmd where
  opcode := .ispRead
  cdw2 := a.flatInd (i * 2)
  cdw3 := a.flatInd (i * 2 + 1)
  cdw10 := embeddingBlock a.tableId a.vectorLength (a.flatInd (i * 2 + 1))
  cdw12 := 0
  cdw15 := qid

def cmdPageRead (qid : CInt) : PassthruCmd := { opcode := .ispPageRead, cdw15 := qid }

def cmdClear (qid : CInt) : PassthruCmd := { opcode := .ispClear, cdw15 := qid }

/-- `unvme_sparse_length_sum(flatInd, vector_length, batchsize, embed_per_result, table_id,
qid, input_embeddings)` -/
def unvmeSparseLengthSum (heap : SlsHeap) (a : SlsArgs) (qid : CInt) : Host CInt HostBuf := do
  let convertFloat : HostBuf := ⟨(buffersize a).signExtend 64 + 4, heap.convertFloat⟩
  let _ ← loop a.inputEmbeddings.toInt.toNat (fun i _ => do
    let r ← issue (.ioCmd (ispRequest a qid i))
    printfIf (r.ret ≠ 0) "ISP request err : %d\n" [r.ret]
    let results ← ofOption (CInt.div 4096 (a.vectorLength * attributeSize))
    printfIf (results.sle (a.flatInd (i * 2)))
      "WARNING: access beyond range: %d\n" [a.flatInd (i * 2)]) ()
  let r ← issue (.ioCmd (cmdPageRead qid))
  let _mapPage := r.into heap.mapPage
  printfIf (r.ret ≠ 0) "Page read err : %d\n" [r.ret]
  let r ← issue (.ioCmd (cmdClear qid))
  printfIf (r.ret ≠ 0) "Clear err : %d\n" [r.ret]
  -- `result_ptr = convert_float; free(map_page);`
  return convertFloat

/-- The commands of a call, in order. -/
def slsCommands (a : SlsArgs) (qid : CInt) : List (Request CInt) :=
  (List.range a.inputEmbeddings.toInt.toNat).map (fun i => .ioCmd (ispRequest a qid i)) ++
    [.ioCmd (cmdPageRead qid), .ioCmd (cmdClear qid)]

theorem unvmeSparseLengthSum_emits (heap : SlsHeap) {a : SlsArgs}
    (hvl : a.vectorLength * attributeSize ≠ 0) (qid : CInt) :
    Emits (unvmeSparseLengthSum heap a qid) (slsCommands a qid) := by
  have hdiv : CInt.div 4096 (a.vectorLength * attributeSize) =
      some (BitVec.sdiv 4096 (a.vectorLength * attributeSize)) :=
    CInt.div_of_ne_zero (by decide) hvl
  have hbody : ∀ i (_ : Unit), Emits (do
      let r ← issue (.ioCmd (ispRequest a qid i))
      printfIf (r.ret ≠ 0) "ISP request err : %d\n" [r.ret]
      let results ← ofOption (CInt.div 4096 (a.vectorLength * attributeSize))
      printfIf (results.sle (a.flatInd (i * 2)))
        "WARNING: access beyond range: %d\n" [a.flatInd (i * 2)] : Host CInt Unit)
      [.ioCmd (ispRequest a qid i)] := by
    intro i _
    rw [hdiv]
    apply Emits.issue_bind
    intro r
    exact (printfIf_emits _ _ _).silent_bind fun _ => printfIf_emits _ _ _
  apply (Emits.loop _ a.inputEmbeddings.toInt.toNat () hbody).bind
  intro _
  apply Emits.issue_bind
  intro r
  apply (printfIf_emits _ _ _).silent_bind
  intro _
  apply Emits.issue_bind
  intro r
  exact (printfIf_emits _ _ _).silent_bind fun _ => .done _

/-- Whatever the device answers, the call returns its own fresh allocation. -/
theorem unvmeSparseLengthSum_path {heap : SlsHeap} {a : SlsArgs} {qid : CInt}
    {log : List (Request CInt × Completion CInt)} {b : HostBuf}
    (h : Path (unvmeSparseLengthSum heap a qid) log b) : b.word = heap.convertFloat := by
  obtain ⟨_, _, _, -, h, -⟩ := h.of_bind
  obtain ⟨_, _, _, -, h, -⟩ := h.of_bind
  obtain ⟨_, _, _, -, h, -⟩ := h.of_bind
  obtain ⟨_, _, _, -, h, -⟩ := h.of_bind
  obtain ⟨_, _, _, -, h, -⟩ := h.of_bind
  cases h
  rfl

def ReadsPage (qid : CInt) (page : Page) (log : List (Request CInt × Completion CInt)) : Prop :=
  ∃ r, (.ioCmd (cmdPageRead qid), r) ∈ log ∧ r.ret = 0 ∧ r.transfer = page.load

/-- Every word of every result reaches the caller: the call can return after reading the page,
and whenever it does the returned array holds the word. -/
def Delivers (heap : SlsHeap) (a : SlsArgs) (qid : CInt) (page : Page) : Prop :=
  ∀ r < a.batchsize.toInt.toNat, ∀ j < a.vectorLength.toInt.toNat,
    (∃ log b, Path (unvmeSparseLengthSum heap a qid) log b ∧ ReadsPage qid page log) ∧
    ∀ log b, Path (unvmeSparseLengthSum heap a qid) log b → ReadsPage qid page log →
      page.load (r * a.vectorLength.toInt.toNat + j) =
        some (b.word (r * a.vectorLength.toInt.toNat + j))

theorem exists_readsPage (heap : SlsHeap) {a : SlsArgs} (hvl : a.vectorLength * attributeSize ≠ 0)
    (qid : CInt) (page : Page) :
    ∃ log b, Path (unvmeSparseLengthSum heap a qid) log b ∧ ReadsPage qid page log := by
  have hemits := unvmeSparseLengthSum_emits heap hvl qid
  obtain ⟨log, b, hp, hall⟩ :=
    hemits.returns.exists_path (fun _ => (⟨0, 0, page.load⟩ : Completion CInt))
  have hcmds := hemits.path hp
  have hmem : (.ioCmd (cmdPageRead qid) : Request CInt) ∈ log.map Prod.fst := by
    rw [hcmds, slsCommands]
    simp
  obtain ⟨e, he, hc⟩ := List.mem_map.mp hmem
  refine ⟨log, b, hp, e.2, ?_, ?_, ?_⟩
  · rw [← hc]
    exact he
  · rw [hall e he]
  · rw [hall e he]

/-- If the allocation happens to differ from the page at word zero, no call delivers the page. -/
theorem not_delivers {heap : SlsHeap} {a : SlsArgs} {qid : CInt} {page : Page}
    (hbs : 0 < a.batchsize.toInt) (hvl : 0 < a.vectorLength.toInt)
    (hne : heap.convertFloat 0 ≠ page 0) : ¬ Delivers heap a qid page := by
  intro h
  obtain ⟨⟨log, b, hp, hr⟩, hword⟩ := h 0 (by omega) 0 (by omega)
  have hw := hword log b hp hr
  rw [unvmeSparseLengthSum_path hp, Nat.zero_mul, Nat.zero_add,
    page.load_of_lt (by decide), Option.some_inj] at hw
  exact hne hw.symm

/-- Whatever memory `malloc` returned, the page reaches the caller exactly when the
call has no result word at all. -/
theorem delivers_iff (a : SlsArgs) (qid : CInt) (page : Page) :
    (∀ heap, Delivers heap a qid page) ↔ a.batchsize.toInt ≤ 0 ∨ a.vectorLength.toInt ≤ 0 := by
  constructor
  · intro h
    by_contra hn
    push Not at hn
    let heap : SlsHeap := ⟨fun _ => 0, fun _ => page 0 + 1⟩
    have hne : heap.convertFloat 0 ≠ page 0 := by simp [heap]
    exact not_delivers hn.1 hn.2 hne (h heap)
  · intro h heap r hr j hj
    omega

/-- One result of 32 words, a page of ones and a zeroed allocation: the page is read and not
delivered. -/
theorem zero_heap_not_delivered :
    let a : SlsArgs := ⟨fun _ => 0, 32, 1, 1, 0, 1⟩
    (∃ log b, Path (unvmeSparseLengthSum ⟨fun _ => 0, fun _ => 0⟩ a 0) log b ∧
      ReadsPage 0 (fun _ => 1) log) ∧
    ¬ Delivers ⟨fun _ => 0, fun _ => 0⟩ a 0 (fun _ => 1) :=
  ⟨exists_readsPage _ (by decide) _ _, not_delivers (by decide) (by decide) (by decide)⟩

end EbpfIsp.Driver
