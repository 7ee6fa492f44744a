import EbpfIsp.Network.Predictions

/-! # Tables in flash

The batch loop of the program: `slsload` reads the embeddings through the
library and `run` feeds them to the network. In `base` mode the predictions are
those of a network in which every table has the pooled rows of the last one.
-/

namespace EbpfIsp.Network
open Library Recsys Dataflow

section Batches
variable {α : Type} {m : ℕ} {L : Cache ℕ (IntRow m)}

/-- One iteration of the batch loop; its queue id is 0. -/
def Dlrm.runBatch (caffe2 : Caffe2 α m) (lib : FlashRec) (b g : ℕ)
    (state : SlsState L × Dlrm α m) (batch : Batch (Tensor α)) :
    Except NetError (SlsState L × Dlrm α m) := do
  let (s, dlrm) := state
  let ((listResult, _), s) ← (slsload dlrm.args.slsType lib 0 batch.sIndices
    dlrm.args.archEmbeddingSize.length b g s).mapError .python
  let dlrm ← dlrm.runTurn caffe2 ⟨batch, listResult⟩
  return (s, dlrm)

def Dlrm.runBatches (caffe2 : Caffe2 α m) (lib : FlashRec) (b g : ℕ)
    (batches : List (Batch (Tensor α))) (state : SlsState L × Dlrm α m) :
    Except NetError (SlsState L × Dlrm α m) :=
  batches.foldlM (Dlrm.runBatch caffe2 lib b g) state

structure BatchFits (args : Args) (b g : ℕ) (batch : Batch (Tensor α)) : Prop where
  dense : batch.X.inner = [args.archMlpBot.getD 0 0]
  size : batch.X.rows.length = b
  tables : batch.sLengths.length = args.archEmbeddingSize.length
  lookups : ∀ i < args.archEmbeddingSize.length, b * g ≤ (batch.sIndices i).length

/-- The predictions with the pooled rows of table `i` in place of every table. -/
def flashPredictions (A : Arithmetic α) (draws : Draws α) (args : Args) (m : ℕ) (lib : FlashRec)
    (b g i : ℕ) (batch : Batch (Tensor α)) : List (List α) :=
  (List.range b).map fun j => predictRow A draws args m (batch.X.row j) fun _ =>
    List.ofFn fun h => A.float32 (pooledRow lib 0 m (batch.sIndices i) g i j h)

variable {A : Arithmetic α} {caffe2 : Caffe2 α m} {kernel : OpKernel α m} {draws : Draws α}
  {args : Args} {dlrm : Dlrm α m} {lib : FlashRec} {b g last : ℕ} {s : SlsState L}

theorem rowsTensor_pooled (indices : List ℕ) (i : ℕ) {j : ℕ} (hj : j < b) :
    (rowsTensor A (pooledRows lib 0 m indices b g i)).row j =
      List.ofFn fun h => A.float32 (pooledRow lib 0 m indices g i j h) := by
  exact Tensor.row_of_rows
    (f := fun j => List.ofFn fun h => A.float32 (pooledRow lib 0 m indices g i j h))
    List.map_map hj

theorem Ready.runBatch_base (h : Ready draws caffe2 args dlrm) (hexec : caffe2.Executes kernel)
    (hker : kernel.Computes A) (hfits : args.Fits m) (hqueue : args.queue = false)
    (hbase : args.slsType = .base) (htables : args.archEmbeddingSize.length = last + 1)
    (hs : s.Coherent lib 0) (hpos : 0 < b * g) {batch : Batch (Tensor α)}
    (hbatch : BatchFits args b g batch) :
    ∃ s' dlrm', Dlrm.runBatch caffe2 lib b g (s, dlrm) batch = .ok (s', dlrm') ∧
      s'.Coherent lib 0 ∧ Ready draws caffe2 args dlrm' ∧
      ∃ t, dlrm'.net.ws Blob.probClick.name = some (.dense t) ∧
        t.rows = flashPredictions A draws args m lib b g last batch := by
  have hne : args.archEmbeddingSize ≠ [] := by
    rintro hnil
    simp [hnil] at htables
  have hsls : args.slsType ≠ .dram := by simp [hbase]
  obtain ⟨rate, s', hload, hs'⟩ := slsload_base hs batch.sIndices last b g
    (htables ▸ hbatch.lookups) hpos
  obtain ⟨rows, hrows⟩ : ∃ rows, rows = pooledRows lib 0 m (batch.sIndices last) b g last :=
    ⟨_, rfl⟩
  have hturn : Turn.Fits args ⟨batch, some (.ndarray rows)⟩ :=
    ⟨hqueue, hbatch.dense, hbatch.tables, fun hdram => absurd hdram hsls, fun _ =>
      ⟨_, rfl, by rw [hbatch.size, hrows, ListResult.rows, pooledRows]; simp⟩⟩
  obtain ⟨dlrm', hrun, hready, t, ht, htrows⟩ := h.runTurn_spec hexec hker hfits hne hturn
  refine ⟨s', dlrm', ?_, hs', hready, t, ht, htrows.trans ?_⟩
  · rw [Dlrm.runBatch, h.args_eq, hbase, htables, hload, ← hrows]
    change (dlrm.runTurn caffe2 ⟨batch, some (.ndarray rows)⟩ >>= _) = _
    rw [hrun]
    rfl
  · rw [Turn.predictions, flashPredictions, hbatch.size]
    apply List.map_congr_left
    intro j hj
    congr 1
    funext i
    rw [Turn.embRow, if_neg hsls, hrows]
    exact rowsTensor_pooled _ _ (List.mem_range.mp hj)

/-- The caches stay coherent and the network ready over all batches. -/
theorem Ready.runBatches_base (h : Ready draws caffe2 args dlrm) (hexec : caffe2.Executes kernel)
    (hker : kernel.Computes A) (hfits : args.Fits m) (hqueue : args.queue = false)
    (hbase : args.slsType = .base) (htables : args.archEmbeddingSize.length = last + 1)
    (hs : s.Coherent lib 0) (hpos : 0 < b * g) {batches : List (Batch (Tensor α))}
    (hbatches : ∀ batch ∈ batches, BatchFits args b g batch) :
    ∃ s' dlrm', Dlrm.runBatches caffe2 lib b g batches (s, dlrm) = .ok (s', dlrm') ∧
      s'.Coherent lib 0 ∧ Ready draws caffe2 args dlrm' := by
  obtain ⟨⟨s', dlrm'⟩, hruns, hs', hready'⟩ := foldlM_invariant (s := (s, dlrm))
    (f := Dlrm.runBatch caffe2 lib b g) (l := batches)
    (fun state => state.1.Coherent lib 0 ∧ Ready draws caffe2 args state.2)
    (fun batch hmem state hstate => by
      obtain ⟨s', dlrm', hrun, hs', hready', -⟩ := hstate.2.runBatch_base hexec hker hfits hqueue
        hbase htables hstate.1 hpos (hbatches batch hmem)
      exact ⟨(s', dlrm'), hrun, hs', hready'⟩) ⟨hs, h⟩
  exact ⟨s', dlrm', hruns, hs', hready'⟩

variable [Zero α]

/-- The batch loop in `base` mode: after any number of batches the output of a created network
holds the predictions for the last batch with the pooled rows of the last table in place of every
table. -/
theorem base_network_predicts (hexec : caffe2.Executes kernel) (hker : kernel.Computes A)
    (h : Created caffe2 draws args dlrm) (hqueue : args.queue = false)
    (hbase : args.slsType = .base) (htables : args.archEmbeddingSize.length = last + 1)
    (hs : s.Coherent lib 0) (hpos : 0 < b * g) (batches : List (Batch (Tensor α)))
    (batch : Batch (Tensor α)) (hbatches : ∀ j ∈ batches ++ [batch], BatchFits args b g j) :
    ∃ s' dlrm' t, Dlrm.runBatches caffe2 lib b g (batches ++ [batch]) (s, dlrm) = .ok (s', dlrm') ∧
      dlrm'.net.ws dlrm'.lastOutput = some (.dense t) ∧
      t.rows = flashPredictions A draws args m lib b g last batch := by
  obtain ⟨hfits, hready⟩ := h.ready
  rw [List.forall_mem_append, List.forall_mem_singleton] at hbatches
  obtain ⟨s₁, dlrm₁, hruns, hs₁, hready₁⟩ := hready.runBatches_base hexec hker hfits hqueue hbase
    htables hs hpos hbatches.1
  obtain ⟨s', dlrm', hrun, -, hready', t, ht, hrows⟩ := hready₁.runBatch_base hexec hker hfits
    hqueue hbase htables hs₁ hpos hbatches.2
  exact ⟨s', dlrm', t, foldlM_append_ok hruns hrun, by rw [hready'.lastOutput, ht], hrows⟩

end Batches

section Defaults

def threeTables : FlashRec := ⟨fun _ _ t _ _ => (t + 1) * 1000000, fun _ _ => []⟩

def defaultBatch (x : ℚ) : Batch (Tensor ℚ) :=
  ⟨⟨[4], [[x, 0, 0, 0], [0, 0, 0, 0]], by simp⟩, [[1, 1], [1, 1], [1, 1]], fun _ => [0, 1]⟩

theorem defaultBatch_fits (x : ℚ) : BatchFits (defaultArgs .base) 2 1 (defaultBatch x) where
  dense := rfl
  size := rfl
  tables := rfl
  lookups _ _ := le_rfl

def newCaches : SlsState (Lru.recent : Lru ℕ (IntRow 2)).toCache :=
  ⟨fun _ => Lru.recent.new 2000, 0, 0, 0, 0, []⟩

theorem newCaches_coherent (lib : FlashRec) : newCaches.Coherent lib 0 :=
  fun _ => Cache.agrees_new _ _ _

theorem base_network_predicts_default : ∃ dlrm : Dlrm ℚ 2,
    Created (reference rational) (fun _ _ _ => 1) (defaultArgs .base) dlrm ∧
    ∃ s' dlrm' t, Dlrm.runBatches (reference rational) threeTables 2 1
        ([defaultBatch 5] ++ [defaultBatch 2]) (newCaches, dlrm) = .ok (s', dlrm') ∧
      dlrm'.net.ws dlrm'.lastOutput = some (.dense t) ∧ t.rows = [[2043 / 2], [1083 / 2]] := by
  obtain ⟨dlrm, h⟩ := exists_created (defaultArgs_fits .base)
  obtain ⟨s', dlrm', t, hrun, hout, hrows⟩ := base_network_predicts
    (reference_executes rational) (referenceKernel_computes rational) h rfl rfl
    (rfl : (defaultArgs .base).archEmbeddingSize.length = 2 + 1)
    (newCaches_coherent threeTables) (by decide : 0 < 2 * 1) [defaultBatch 5] (defaultBatch 2)
    (by simpa using ⟨defaultBatch_fits 5, defaultBatch_fits 2⟩)
  exact ⟨dlrm, h, s', dlrm', t, hrun, hout, hrows.trans (by decide +kernel)⟩

end Defaults

end EbpfIsp.Network
