import EbpfIsp.Network.Meaning

/-! # Predictions

`run` feeds one batch and runs the net. Whatever batches came before, it ends
with the predictions for this batch: the weights are never written, and nothing
of an earlier batch is read. The order in which Caffe2 takes the operators makes
no difference, whatever the operators compute, since every blob has one writer.
-/

namespace EbpfIsp.Network
open Library Recsys Dataflow

section Feeding
variable {α : Type} {m : ℕ}

structure Turn (α : Type) (m : ℕ) where
  batch : Batch (Tensor α)
  listResult : Option (ListResult m)

def Dlrm.runTurn (caffe2 : Caffe2 α m) (dlrm : Dlrm α m) (turn : Turn α m) :
    Except NetError (Dlrm α m) :=
  dlrm.run caffe2 turn.batch.X turn.batch.sLengths turn.batch.sIndices turn.listResult

def rowFeeds (X : Tensor α) (rows : Option (List (FloatRow m))) (k : ℕ) : Blob → Option (Value α m)
  | .denseIn => some (.dense X)
  | .sls i .z => if i < k then some (.rows rows) else none
  | _ => none

theorem rowFeeds_succ (X : Tensor α) (rows : Option (List (FloatRow m))) (k : ℕ) (c : Blob)
    (v : Option (Value α m)) : (rowFeeds X rows (k + 1) c).or v =
      if c = .sls k .z then some (.rows rows) else (rowFeeds X rows k c).or v := by
  cases c with
  | sls i s =>
    by_cases hi : i = k
    · subst hi
      cases s <;> simp [rowFeeds]
    · have hiff : i < k + 1 ↔ i < k := by omega
      cases s <;> simp [rowFeeds, hi, hiff]
  | _ => simp [rowFeeds]

def Turn.feeds (args : Args) (turn : Turn α m) : Blob → Option (Value α m) :=
  match args.slsType with
  | .dram => inputFeeds turn.batch.X turn.batch.sLengths turn.batch.sIndices
      args.archEmbeddingSize.length
  | .base | .ndp => rowFeeds turn.batch.X (turn.listResult.map ListResult.rows)
      turn.batch.sLengths.length

theorem feedLoop_dram (X : Tensor α) {sLengths : List (List ℕ)} (sIndices : ℕ → List ℕ)
    (ws : Workspace (Tensor α) m) {n : ℕ} (hlen : n ≤ sLengths.length) :
    ∃ ws', (forLoop n (fun i ws =>
        let ws := feedBlobWrapper ws (Blob.sls i .i).name (.ints (sIndices i))
        match sLengths[i]? with
        | none => throw .indexError
        | some l => return feedBlobWrapper ws (Blob.sls i .l).name (.ints l))
        (feedBlobWrapper ws Blob.denseIn.name (.dense X)) : Py (Workspace (Tensor α) m)) =
          .ok ws' ∧
      ∀ c : Blob, ws' c.name = (inputFeeds X sLengths sIndices n c).or (ws c.name) := by
  refine forLoop_invariant (M := Py) (fun k (ws' : Workspace (Tensor α) m) => ∀ c : Blob,
    ws' c.name = (inputFeeds X sLengths sIndices k c).or (ws c.name)) n _ _ ?_ ?_
  · intro c
    rw [feed_name]
    cases c with
    | sls i s => cases s <;> simp [inputFeeds]
    | _ => simp [inputFeeds]
  · intro k hk ws' hws
    have hl : sLengths[k]? = some sLengths[k] := List.getElem?_eq_getElem (by omega)
    refine ⟨_, by simp only [hl]; rfl, fun c => ?_⟩
    rw [inputFeeds_succ X sIndices hl, ← hws c, feed_name, feed_name]
    -- the two blobs of a table are fed in the other order here
    by_cases hc : c = .sls k .l
    · simp [hc]
    · simp [hc]

theorem feedLoop_rows (X : Tensor α) (rows : Option (List (FloatRow m)))
    (ws : Workspace (Tensor α) m) (n : ℕ) :
    ∃ ws', forLoop n (fun i ws => (return feedBlobWrapper ws (Blob.sls i .z).name (.rows rows) :
        Py (Workspace (Tensor α) m))) (feedBlobWrapper ws Blob.denseIn.name (.dense X)) = .ok ws' ∧
      ∀ c : Blob, ws' c.name = (rowFeeds X rows n c).or (ws c.name) := by
  refine forLoop_invariant (M := Py) (fun k (ws' : Workspace (Tensor α) m) => ∀ c : Blob,
    ws' c.name = (rowFeeds X rows k c).or (ws c.name)) n _ _ ?_ ?_
  · intro c
    rw [feed_name]
    cases c with
    | sls i s => cases s <;> simp [rowFeeds]
    | _ => simp [rowFeeds]
  · intro k hk ws' hws
    refine ⟨_, rfl, fun c => ?_⟩
    rw [rowFeeds_succ, ← hws c, feed_name]

variable {caffe2 : Caffe2 α m} {draws : Draws α} {args : Args} {dlrm : Dlrm α m}

theorem Ready.feeder_run (h : Ready draws caffe2 args dlrm) (hqueue : args.queue = false)
    (turn : Turn α m)
    (hlen : args.archEmbeddingSize.length ≤ turn.batch.sLengths.length) :
    ∃ ws, dlrm.feeder.feed turn.batch.X turn.batch.sLengths turn.batch.sIndices turn.listResult
        dlrm.net.ws = .ok ws ∧
      ∀ c : Blob, ws c.name = (turn.feeds args c).or (dlrm.net.ws c.name) := by
  have htables : dlrm.embL.length = args.archEmbeddingSize.length := by
    simp [h.embL, embBlob]
  have hfeeder : dlrm.feeder = ⟨false, args.slsType, args.archEmbeddingSize.length, "emb",
      "dense_in"⟩ := by
    rw [Dlrm.feeder, h.args_eq, h.tags_eq, htables, hqueue]
  rw [hfeeder]
  cases hsls : args.slsType with
  | dram =>
    simp only [Turn.feeds, hsls]
    exact feedLoop_dram _ _ _ hlen
  | base =>
    simp only [Turn.feeds, hsls]
    exact feedLoop_rows _ _ _ _
  | ndp =>
    simp only [Turn.feeds, hsls]
    exact feedLoop_rows _ _ _ _

end Feeding

section Turns
variable {α : Type} {m : ℕ} (A : Arithmetic α) (draws : Draws α) (args : Args)

/-- The batch has the dimensions that the network expects. -/
structure Turn.Fits (turn : Turn α m) : Prop where
  queue : args.queue = false
  dense : turn.batch.X.inner = [args.archMlpBot.getD 0 0]
  tables : turn.batch.sLengths.length = args.archEmbeddingSize.length
  pooled : args.slsType = .dram → ∀ i < args.archEmbeddingSize.length,
    (turn.batch.sLengths.getD i []).length = turn.batch.X.rows.length ∧
    (turn.batch.sLengths.getD i []).sum = (turn.batch.sIndices i).length ∧
    ∀ k ∈ turn.batch.sIndices i, k < args.archEmbeddingSize.getD i 0
  rows : args.slsType ≠ .dram → ∃ r, turn.listResult = some r ∧
    r.rows.length = turn.batch.X.rows.length

def Turn.embRow (turn : Turn α m) (i j : ℕ) : List α :=
  if args.slsType = .dram then
    Tensor.sumRows A.toRowOps (tableWeight draws m args.archEmbeddingSize i)
      ((Tensor.segments (turn.batch.sLengths.getD i []) (turn.batch.sIndices i)).getD j [])
  else (rowsTensor A ((turn.listResult.map ListResult.rows).getD [])).row j

def Turn.predictions (turn : Turn α m) : List (List α) :=
  (List.range turn.batch.X.rows.length).map fun j =>
    predictRow A draws args m (turn.batch.X.row j) fun i => turn.embRow A draws args i j

variable {A draws args} {turn : Turn α m} {caffe2 : Caffe2 α m} {kernel : OpKernel α m}
  {dlrm : Dlrm α m}

theorem stage_of_params {c : Blob} {v : Value α m} (hv : args.params draws c = some v) :
    stage c = 0 := by
  cases c with
  | fc l i s => cases l <;> cases s <;> first | rfl | simp [Args.params, mlpFeeds] at hv
  | sls i s => cases s <;> first | rfl | simp [Args.params, mlpFeeds] at hv
  | int s => cases s <;> first | rfl | simp [Args.params, mlpFeeds] at hv
  | _ => first | rfl | simp [Args.params, mlpFeeds] at hv

theorem Turn.feeds_of_params (turn : Turn α m) {c : Blob} {v : Value α m}
    (hv : args.params draws c = some v) : turn.feeds args c = none := by
  cases hsls : args.slsType <;> simp only [Turn.feeds, hsls] <;> cases c with
  | fc l i s => rfl
  | sls i s => cases s <;> first | rfl | simp [Args.params, mlpFeeds] at hv
  | int s => rfl
  | _ => first | rfl | simp [Args.params, mlpFeeds] at hv

theorem Turn.Fits.embInput_dram (hturn : turn.Fits args) (hsls : args.slsType = .dram)
    {ws : Workspace (Tensor α) m} {old : Blob → Option (Value α m)}
    (hws : ∀ c : Blob, ws c.name = (turn.feeds args c).or (old c)) {i : ℕ}
    (hi : i < args.archEmbeddingSize.length) :
    EmbInput A draws args ws turn.batch.X.rows.length i (turn.embRow A draws args i) := by
  rw [EmbInput, if_pos hsls]
  obtain ⟨hB, hsum, hlt⟩ := hturn.pooled hsls i hi
  have hl : turn.batch.sLengths[i]? = some (turn.batch.sLengths.getD i []) := by
    rw [List.getD_eq_getElem?_getD, List.getElem?_eq_getElem (hturn.tables ▸ hi),
      Option.getD_some]
  refine ⟨turn.batch.sIndices i, turn.batch.sLengths.getD i [], ?_, ?_, hsum, hlt, ?_⟩
  · rw [hws]
    simp [Turn.feeds, hsls, inputFeeds, hi]
  · rw [hws]
    simp only [Turn.feeds, hsls, inputFeeds, if_pos hi, hl]
    rfl
  · rw [Tensor.map_segments, hB]
    apply List.map_congr_left
    intro j _
    rw [Turn.embRow, if_pos hsls]

theorem Turn.Fits.embInput_rows (hturn : turn.Fits args) (hsls : args.slsType ≠ .dram)
    {ws : Workspace (Tensor α) m} {old : Blob → Option (Value α m)}
    (hws : ∀ c : Blob, ws c.name = (turn.feeds args c).or (old c)) {i : ℕ}
    (hi : i < args.archEmbeddingSize.length) :
    EmbInput A draws args ws turn.batch.X.rows.length i (turn.embRow A draws args i) := by
  rw [EmbInput, if_neg hsls]
  obtain ⟨r, hr, hB⟩ := hturn.rows hsls
  have hfed : turn.feeds args (.sls i .z) = some (.rows (some r.rows)) := by
    cases htype : args.slsType with
    | dram => exact absurd htype hsls
    | base => simp [Turn.feeds, htype, rowFeeds, hturn.tables, hi, hr]
    | ndp => simp [Turn.feeds, htype, rowFeeds, hturn.tables, hi, hr]
  rw [hws, hfed]
  refine ⟨_, rowsTensor A r.rows, rfl, rfl, rfl, ?_⟩
  have hlen : (rowsTensor A r.rows).rows.length = turn.batch.X.rows.length := by
    rw [← hB]
    exact List.length_map _
  rw [(rowsTensor A r.rows).rows_eq_range, hlen]
  apply List.map_congr_left
  intro j _
  rw [Turn.embRow, if_neg hsls, hr]
  rfl

theorem Ready.inputs (h : Ready draws caffe2 args dlrm) (hturn : turn.Fits args)
    {ws : Workspace (Tensor α) m}
    (hws : ∀ c : Blob, ws c.name = (turn.feeds args c).or (dlrm.net.ws c.name)) :
    Inputs A draws args ws turn.batch.X.rows.length turn.batch.X.row
      (turn.embRow A draws args) where
  params c v hv := by
    rw [hws, turn.feeds_of_params hv, Option.none_or, h.fed c v hv]
  dense := by
    have hfed : turn.feeds args .denseIn = some (.dense turn.batch.X) := by
      cases hsls : args.slsType <;> simp [Turn.feeds, hsls, inputFeeds, rowFeeds]
    rw [hws, hfed]
    exact hasRows_dense hturn.dense
  emb i hi := by
    by_cases hsls : args.slsType = .dram
    · exact hturn.embInput_dram hsls hws hi
    · exact hturn.embInput_rows hsls hws hi

/-- A call of `run` on a batch that fits succeeds, leaves the predictions in its last blob and the
network ready for the next batch. -/
theorem Ready.runTurn_spec (h : Ready draws caffe2 args dlrm) (hexec : caffe2.Executes kernel)
    (hker : kernel.Computes A) (hfits : args.Fits m) (hne : args.archEmbeddingSize ≠ [])
    (hturn : turn.Fits args) :
    ∃ dlrm', dlrm.runTurn caffe2 turn = .ok dlrm' ∧ Ready draws caffe2 args dlrm' ∧
      ∃ t, dlrm'.net.ws Blob.probClick.name = some (.dense t) ∧
        t.rows = turn.predictions A draws args := by
  obtain ⟨ws, hfeed, hws⟩ := h.feeder_run hturn.queue turn hturn.tables.ge
  have hin : Inputs A draws args ws _ _ _ := h.inputs hturn hws
  obtain ⟨out, hrun, hout⟩ : ∃ out, caffe2.runNet dlrm.net.ops ws = .ok out ∧
      ∀ c : Blob, out c.name = netValue A draws args ws turn.batch.X.rows.length
        turn.batch.X.row (turn.embRow A draws args) c := by
    rw [h.ops]
    exact ⟨_, hin.runNet_eq hker hfits hne hexec h.created, fun c =>
      Blob.name_injective.extend_apply _ _ c⟩
  -- the weights are not written, so they are there for the next batch
  refine ⟨{ dlrm with net := ⟨dlrm.net.ops, out⟩ }, ?_,
    ⟨h.args_eq, h.tags_eq, h.embL, h.lastOutput, h.ops, h.created, ?_⟩, ?_⟩
  · rw [Dlrm.runTurn, Dlrm.run, hfeed]
    change (caffe2.runNet dlrm.net.ops ws >>= _) = _
    rw [hrun]
    rfl
  · intro c v hv
    exact (hout c).trans (hin.netValue_params (stage_of_params hv) hv)
  · have hwritten : Written args.graph .probClick :=
      written_top (written_out (List.length_pos_iff.mpr hfits.top))
    have hlen : ∀ j < turn.batch.X.rows.length,
        (predictRow A draws args m (turn.batch.X.row j) fun i =>
          turn.embRow A draws args i j).length = (args.dims m .probClick).prod := by
      intro j _
      rw [hfits.length_predictRow, Args.dims, List.prod_singleton]
    obtain ⟨t, ht, -, hrows⟩ := batchOf_eq_some (m := m) hlen
    exact ⟨t, (hout _).trans ((netValue_written hwritten).trans ht), hrows⟩

def Dlrm.runTurns (caffe2 : Caffe2 α m) (turns : List (Turn α m)) (dlrm : Dlrm α m) :
    Except NetError (Dlrm α m) :=
  turns.foldlM (Dlrm.runTurn caffe2) dlrm

theorem Ready.runTurns_spec (h : Ready draws caffe2 args dlrm) (hexec : caffe2.Executes kernel)
    (hker : kernel.Computes A) (hfits : args.Fits m) (hne : args.archEmbeddingSize ≠ [])
    (turns : List (Turn α m)) (hturns : ∀ turn ∈ turns, turn.Fits args) :
    ∃ dlrm', dlrm.runTurns caffe2 turns = .ok dlrm' ∧ Ready draws caffe2 args dlrm' := by
  apply foldlM_invariant (Ready draws caffe2 args) ?_ h
  intro turn hmem dlrm hready
  obtain ⟨dlrm', hrun, hready', -⟩ :=
    hready.runTurn_spec hexec hker hfits hne (hturns turn hmem)
  exact ⟨dlrm', hrun, hready'⟩

end Turns

section Executors
variable {α : Type} {m : ℕ} {caffe2 : Caffe2 α m} {kernel : OpKernel α m} {args : Args}
  {dlrm : Dlrm α m} {turn : Turn α m}
  {runNet : List Op → Workspace (Tensor α) m → Except NetError (Workspace (Tensor α) m)}

theorem returns_graph (hker : kernel.Arity) :
    ∀ op ∈ args.graph.map (rename Blob.name), Returns kernel op := by
  intro op hop xs ys hys
  obtain ⟨a, ha, rfl⟩ := List.mem_map.mp hop
  rw [hker _ _ _ hys, rename, List.length_map, length_outputs ha]

/-- Two executors of one net agree where the first succeeds. -/
theorem runNet_agree (hker : kernel.Arity) (hexec : caffe2.Executes kernel)
    (hexec' : { caffe2 with runNet := runNet }.Executes kernel)
    (hcreated : ∃ ws, caffe2.createNet (args.graph.map (rename Blob.name)) ws = .ok ())
    {ws ws' : Workspace (Tensor α) m}
    (hrun : caffe2.runNet (args.graph.map (rename Blob.name)) ws = .ok ws') :
    runNet (args.graph.map (rename Blob.name)) ws = .ok ws' := by
  obtain ⟨ws₀, hcreate⟩ := hcreated
  have hord : InOrder (args.graph.map (rename Blob.name)) :=
    (inOrder_netOps _ _ _ _ _).map Blob.name_injective
  have hsingle : SingleAssignment (args.graph.map (rename Blob.name)) :=
    (singleAssignment_netOps _ _ _ _ _).map Blob.name_injective
  obtain ⟨l, missing, hl, heq⟩ := hexec _ ws₀ hcreate hord ws
  obtain ⟨l', missing', hl', heq'⟩ := hexec' _ ws₀ hcreate hord ws
  rw [heq] at hrun
  exact heq'.trans (hl.runOps_congr hl' (returns_graph hker) hsingle missing' hrun)

/-- What holds of the network after every call, whether or not the batch fits. -/
structure Accepted (caffe2 : Caffe2 α m) (args : Args) (dlrm : Dlrm α m) : Prop where
  ops : dlrm.net.ops = args.graph.map (rename Blob.name)
  created : ∃ ws, caffe2.createNet (args.graph.map (rename Blob.name)) ws = .ok ()

theorem Accepted.runTurn_agree (h : Accepted caffe2 args dlrm) (hker : kernel.Arity)
    (hexec : caffe2.Executes kernel) (hexec' : { caffe2 with runNet := runNet }.Executes kernel)
    {dlrm' : Dlrm α m} (hrun : dlrm.runTurn caffe2 turn = .ok dlrm') :
    dlrm.runTurn { caffe2 with runNet := runNet } turn = .ok dlrm' ∧
      Accepted caffe2 args dlrm' := by
  obtain ⟨ws, hfeed, hrun⟩ := bind_eq_ok hrun
  obtain ⟨out, hnet, hdlrm'⟩ := bind_eq_ok hrun
  cases hdlrm'
  refine ⟨?_, h.ops, h.created⟩
  rw [h.ops] at hnet
  have hagree := runNet_agree hker hexec hexec' h.created hnet
  rw [Dlrm.runTurn, Dlrm.run, hfeed]
  change (runNet dlrm.net.ops ws >>= _) = _
  rw [h.ops, hagree]
  rfl

theorem Accepted.runTurns_agree (h : Accepted caffe2 args dlrm) (hker : kernel.Arity)
    (hexec : caffe2.Executes kernel) (hexec' : { caffe2 with runNet := runNet }.Executes kernel)
    {turns : List (Turn α m)} {dlrm' : Dlrm α m}
    (hrun : dlrm.runTurns caffe2 turns = .ok dlrm') :
    dlrm.runTurns { caffe2 with runNet := runNet } turns = .ok dlrm' := by
  induction turns generalizing dlrm with
  | nil => exact hrun
  | cons turn turns ih =>
    rw [Dlrm.runTurns, List.foldlM_cons] at hrun ⊢
    obtain ⟨dlrm₁, hfirst, hrest⟩ := bind_eq_ok hrun
    obtain ⟨hfirst', hnext⟩ := h.runTurn_agree hker hexec hexec' hfirst
    rw [hfirst']
    exact ih hnext hrest

end Executors

section Networks
variable {α : Type} [Zero α] {m : ℕ} {caffe2 : Caffe2 α m} {kernel : OpKernel α m}
  {draws : Draws α} {args : Args} {dlrm : Dlrm α m}

/-- After any number of batches that fit, the output of a created network holds the predictions
for the last batch. -/
theorem created_network_predicts {A : Arithmetic α} (hexec : caffe2.Executes kernel)
    (hker : kernel.Computes A) (h : Created caffe2 draws args dlrm)
    (hne : args.archEmbeddingSize ≠ []) (turns : List (Turn α m)) (turn : Turn α m)
    (hturns : ∀ t ∈ turns ++ [turn], t.Fits args) :
    ∃ dlrm' t, dlrm.runTurns caffe2 (turns ++ [turn]) = .ok dlrm' ∧
      dlrm'.net.ws dlrm'.lastOutput = some (.dense t) ∧
      t.rows = turn.predictions A draws args := by
  obtain ⟨hfits, hready⟩ := h.ready
  rw [List.forall_mem_append, List.forall_mem_singleton] at hturns
  obtain ⟨dlrm₁, hruns, hready₁⟩ := hready.runTurns_spec hexec hker hfits hne turns hturns.1
  obtain ⟨dlrm', hrun, hready', t, ht, hrows⟩ :=
    hready₁.runTurn_spec hexec hker hfits hne hturns.2
  exact ⟨dlrm', t, foldlM_append_ok hruns hrun, by rw [hready'.lastOutput, ht], hrows⟩

def defaultTurn (x : ℚ) : Turn ℚ 2 :=
  ⟨⟨⟨[4], [[x, 0, 0, 0]], by simp⟩, [[1], [1], [2]], ([[3], [2], [0, 1]].getD · [])⟩, none⟩

theorem defaultTurn_fits (x : ℚ) : (defaultTurn x).Fits (defaultArgs .dram) where
  queue := rfl
  dense := rfl
  tables := rfl
  pooled _ := by
    intro i hi
    have hi' : i < 3 := hi
    interval_cases i <;> simp [defaultTurn, defaultArgs]
  rows h := absurd rfl h

theorem created_network_predicts_default : ∃ dlrm : Dlrm ℚ 2,
    Created (reference rational) (fun _ _ _ => 1) (defaultArgs .dram) dlrm ∧
    ∃ dlrm' t,
      dlrm.runTurns (reference rational) ([defaultTurn 5] ++ [defaultTurn 2]) = .ok dlrm' ∧
      dlrm'.net.ws dlrm'.lastOutput = some (.dense t) ∧ t.rows = [[891 / 2]] := by
  obtain ⟨dlrm, h⟩ := exists_created (defaultArgs_fits .dram)
  obtain ⟨dlrm', t, hrun, hout, hrows⟩ := created_network_predicts (reference_executes rational)
    (referenceKernel_computes rational) h (by simp [defaultArgs]) [defaultTurn 5] (defaultTurn 2)
    (by simpa using ⟨defaultTurn_fits 5, defaultTurn_fits 2⟩)
  exact ⟨dlrm, h, dlrm', t, hrun, hout, hrows.trans (by decide +kernel)⟩

/-- Two executors that take the operators in different orders end in the same workspace after
every sequence of batches, or neither gets through it, whatever the operators compute. -/
theorem executors_agree (hker : kernel.Arity) (hexec : caffe2.Executes kernel)
    {runNet : List Op → Workspace (Tensor α) m → Except NetError (Workspace (Tensor α) m)}
    (hexec' : { caffe2 with runNet := runNet }.Executes kernel)
    (h : Created caffe2 draws args dlrm) (turns : List (Turn α m)) (dlrm' : Dlrm α m) :
    dlrm.runTurns caffe2 turns = .ok dlrm' ↔
      dlrm.runTurns { caffe2 with runNet := runNet } turns = .ok dlrm' := by
  obtain ⟨-, hready⟩ := h.ready
  have haccepted : Accepted caffe2 args dlrm := ⟨hready.ops, hready.created⟩
  constructor
  · exact haccepted.runTurns_agree hker hexec hexec'
  · have hother : Accepted { caffe2 with runNet := runNet } args dlrm :=
      ⟨hready.ops, hready.created⟩
    exact hother.runTurns_agree hker hexec' hexec

def bottomFirst : List BlobOp := botOps 2 ++ tableOps .dram 3 ++ intOps 3 .dot ++ topOps 3

theorem schedule_bottomFirst : Schedule (defaultArgs .dram).graph bottomFirst :=
  ⟨(List.perm_append_comm.append_right _).append_right _,
    ⟨by simp [bottomFirst, botOps, topOps, mlpOps, layerOps, tableOps, embOps, intOps, embBlob,
        Before, zBlob, List.range_succ],
      by simp [bottomFirst, botOps, topOps, mlpOps, layerOps, tableOps, embOps, intOps, embBlob,
        Before, zBlob, List.range_succ]⟩⟩

theorem executors_agree_default : ∃ dlrm dlrm' : Dlrm ℚ 2,
    Created (reference rational) (fun _ _ _ => 1) (defaultArgs .dram) dlrm ∧
    dlrm.runTurns (reference rational) [defaultTurn 5, defaultTurn 2] = .ok dlrm' ∧
    dlrm.runTurns { reference rational with
      runNet := reordered rational ((defaultArgs .dram).graph.map (rename Blob.name))
        (bottomFirst.map (rename Blob.name)) } [defaultTurn 5, defaultTurn 2] = .ok dlrm' := by
  obtain ⟨dlrm, h⟩ := exists_created (defaultArgs_fits .dram)
  obtain ⟨hfits, hready⟩ := h.ready
  obtain ⟨dlrm', hruns, -⟩ := hready.runTurns_spec (reference_executes rational)
    (referenceKernel_computes rational) hfits (by simp [defaultArgs])
    [defaultTurn 5, defaultTurn 2] (by simpa using ⟨defaultTurn_fits 5, defaultTurn_fits 2⟩)
  exact ⟨dlrm, dlrm', h, hruns, (executors_agree (referenceKernel_arity rational)
    (reference_executes rational)
    (reordered_executes rational (schedule_bottomFirst.map Blob.name_injective)) h _ _).mp hruns⟩

end Networks

end EbpfIsp.Network
