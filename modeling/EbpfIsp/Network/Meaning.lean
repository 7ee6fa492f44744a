import EbpfIsp.Network.Batches
import EbpfIsp.Network.Construction

/-! # What the network computes

For every sample the network puts the dense features through the bottom layers,
joins the result with the embeddings by dot products or by concatenation, and
puts this through the top layers. If the operators compute what they are for,
every execution of the net ends with these values, and a net that was created
cannot fail on a batch that fits.
-/

namespace EbpfIsp.Network
open Library Recsys Dataflow

section Rows
variable {α : Type} (A : Arithmetic α) (draws : Draws α)

def activate (sigmoidLayer : ℤ) (i : ℕ) : α → α :=
  if (i : ℤ) = sigmoidLayer then A.sigmoid else A.relu

def preRow (l : Mlp) (ln : List ℕ) (i : ℕ) (z : List α) : List α :=
  A.layer (layerWeight draws l ln i) (layerBias draws l ln i) z

def mlpRow (l : Mlp) (ln : List ℕ) (sigmoidLayer : ℤ) (x : List α) : ℕ → List α
  | 0 => x
  | i + 1 => (preRow A draws l ln (i + 1) (mlpRow l ln sigmoidLayer x i)).map
      (activate A sigmoidLayer (i + 1))

/-- The dot products of the features, each with those before it (and with itself). -/
def pairRow (itself : Bool) (feature : ℕ → List α) (numFea : ℕ) : List α :=
  (List.range numFea).flatMap fun i =>
    (List.range (i + if itself then 1 else 0)).map fun j => A.dot (feature i) (feature j)

/-- The dense feature is number 0, then come the tables. -/
def featureOf (x : List α) (e : ℕ → List α) : ℕ → List α
  | 0 => x
  | i + 1 => e i

def interactRow (op : InteractionOp) (itself : Bool) (tables : ℕ) (x : List α) (e : ℕ → List α) :
    List α :=
  match op with
  | .dot => x ++ pairRow A itself (featureOf x e) (tables + 1)
  | .cat => x ++ ((List.range tables).map e).flatten
  | .other _ => []

def bottomRow (args : Args) (x : List α) : List α :=
  mlpRow A draws .bot args.archMlpBot (-1) x (args.archMlpBot.length - 1)

def topInput (args : Args) (x : List α) (e : ℕ → List α) : List α :=
  interactRow A args.archInteractionOp args.archInteractionItself args.archEmbeddingSize.length
    (bottomRow A draws args x) e

/-- The prediction for the dense features `x` and the embeddings `e`. -/
def predictRow (args : Args) (m : ℕ) (x : List α) (e : ℕ → List α) : List α :=
  mlpRow A draws .top (args.lnTop m) args.archMlpTop.length (topInput A draws args x e)
    args.archMlpTop.length

variable {draws}

theorem length_rows_layerWeight (l : Mlp) (ln : List ℕ) (i : ℕ) :
    (layerWeight draws l ln i).rows.length = ln.getD i 0 := by
  simp [layerWeight, weight]

theorem length_preRow (l : Mlp) (ln : List ℕ) (i : ℕ) (z : List α) :
    (preRow A draws l ln i z).length = ln.getD i 0 := by
  rw [preRow, A.length_layer, length_rows_layerWeight]

theorem length_mlpRow_succ (l : Mlp) (ln : List ℕ) (sigmoidLayer : ℤ) (x : List α) (i : ℕ) :
    (mlpRow A draws l ln sigmoidLayer x (i + 1)).length = ln.getD (i + 1) 0 := by
  rw [mlpRow, List.length_map, length_preRow]

theorem length_trilIndices (itself : Bool) (numFea : ℕ) :
    (trilIndices itself numFea).length =
      if itself then numFea * (numFea + 1) / 2 else numFea * (numFea - 1) / 2 := by
  have hsum : ∀ offset n : ℕ, ((List.range n).flatMap fun i =>
      (List.range (i + offset)).map fun j => j + i * numFea).length * 2 =
        n * (n - 1) + 2 * (n * offset) := by
    intro offset n
    induction n with
    | zero => simp
    | succ n ih =>
      rw [List.range_succ, List.flatMap_append, List.length_append, Nat.add_mul, ih]
      cases n with
      | zero => simp; ring
      | succ n => simp; ring
  have h := hsum (if itself then 1 else 0) numFea
  cases itself with
  | true =>
    have hcalc : numFea * (numFea - 1) + 2 * (numFea * 1) = numFea * (numFea + 1) := by
      cases numFea with
      | zero => rfl
      | succ n => simp; ring
    simp only [if_true] at h ⊢
    rw [hcalc] at h
    rw [trilIndices]
    simp only [if_true]
    omega
  | false =>
    simp only [Bool.false_eq_true, if_false] at h ⊢
    rw [trilIndices]
    simp only [Bool.false_eq_true, if_false]
    omega

theorem length_pairRow (itself : Bool) (feature : ℕ → List α) (numFea : ℕ) :
    (pairRow A itself feature numFea).length = (trilIndices itself numFea).length := by
  simp [pairRow, trilIndices, List.length_flatMap]

/-- Gathering the indices from all products leaves the pairs. -/
theorem gather_pairs (itself : Bool) {feature : ℕ → List α} {numFea m : ℕ}
    (hlen : ∀ i < numFea, (feature i).length = m) :
    ((trilIndices itself numFea).map fun i => chunk 1 i
      (Tensor.products A.toRowOps numFea numFea m ((List.range numFea).map feature).flatten
        ((List.range numFea).map feature).flatten)).flatten =
      pairRow A itself feature numFea := by
  rw [Tensor.products_flatten _ hlen, trilIndices, pairRow, ← List.flatMap_def, List.flatMap_assoc]
  apply List.flatMap_congr
  intro i hi
  rw [List.flatMap_map]
  refine (List.flatMap_congr ?_).trans List.map_eq_flatMap.symm
  intro j hj
  have hin : i < numFea := List.mem_range.mp hi
  have hjn : j < numFea := by
    have hji := List.mem_range.mp hj
    split at hji <;> omega
  exact chunk_one_flatten hin hjn _

theorem trilIndices_lt {itself : Bool} {numFea k : ℕ} (h : k ∈ trilIndices itself numFea) :
    k < numFea * numFea := by
  simp only [trilIndices, List.mem_flatMap, List.mem_map, List.mem_range] at h
  obtain ⟨i, hi, j, hj, rfl⟩ := h
  have hle : (i + 1) * numFea ≤ numFea * numFea := Nat.mul_le_mul_right _ hi
  have hjn : j < numFea := by split at hj <;> omega
  rw [Nat.add_mul] at hle
  omega

end Rows

section Layers
variable {α : Type} {A : Arithmetic α} {m B : ℕ} {kernel : OpKernel α m}
  {W : Blob → Option (Value α m)} {l : Mlp} {n : ℕ} {inp out : Blob} {sigmoidLayer : ℤ}

theorem solves_mlpOps (hker : kernel.Computes A) (draws : Draws α) (ln : List ℕ) (x : ℕ → List α)
    (hinp : HasRows A B (W inp) [ln.getD 0 0] x)
    (hw : ∀ k < n, W (.fc l (k + 1) .w) = some (.dense (layerWeight draws l ln (k + 1))))
    (hb : ∀ k < n, W (.fc l (k + 1) .b) = some (.dense (layerBias draws l ln (k + 1))))
    (hy : ∀ k < n, W (.fc l (k + 1) .y) = batchOf B [ln.getD (k + 1) 0] fun j =>
      preRow A draws l ln (k + 1) (mlpRow A draws l ln sigmoidLayer (x j) k))
    (hz : ∀ k < n, W (zBlob l n inp out (k + 1)) = batchOf B [ln.getD (k + 1) 0] fun j =>
      mlpRow A draws l ln sigmoidLayer (x j) (k + 1)) :
    Solves kernel (mlpOps l n inp out sigmoidLayer n) W := by
  have hin : ∀ k ≤ n, HasRows A B (W (zBlob l n inp out k)) [ln.getD k 0] fun j =>
      mlpRow A draws l ln sigmoidLayer (x j) k := by
    intro k hk
    cases k with
    | zero => exact hinp
    | succ k =>
      rw [hz k hk]
      exact hasRows_batchOf fun j _ => by simp [length_mlpRow_succ]
  intro op hop
  obtain ⟨k, hmem, hop⟩ := List.mem_flatMap.mp hop
  have hk : k < n := List.mem_range.mp hmem
  simp only [layerOps, List.mem_cons, List.not_mem_nil, or_false] at hop
  rcases hop with rfl | rfl
  · apply solvesOp_fc hker (hin k hk.le) (hw k hk) (hb k hk)
    · simp [layerWeight, weight]
    · rfl
    · simp [layerBias, bias, layerWeight, weight]
    · rw [length_rows_layerWeight]
      exact hy k hk
  · have hrows : HasRows A B (W (.fc l (k + 1) .y)) [ln.getD (k + 1) 0] fun j =>
        preRow A draws l ln (k + 1) (mlpRow A draws l ln sigmoidLayer (x j) k) := by
      rw [hy k hk]
      exact hasRows_batchOf fun j _ => by simp [length_preRow]
    refine solvesOp_map hrows ?_ (hz k hk)
    intro v t ht
    rw [activation, activate]
    split_ifs
    · exact hker.sigmoid ht
    · exact hker.relu ht

end Layers

section Values
variable {α : Type} {m : ℕ} (A : Arithmetic α) (draws : Draws α) (args : Args)

def featureRow (x : List α) (e : ℕ → List α) : List α :=
  ((List.range (args.archEmbeddingSize.length + 1)).map
    (featureOf (bottomRow A draws args x) e)).flatten

/-- What a blob holds for one sample. -/
def blobRow (m : ℕ) (x : List α) (e : ℕ → List α) : Blob → List α
  | .fc .bot i .y => preRow A draws .bot args.archMlpBot i
      (mlpRow A draws .bot args.archMlpBot (-1) x (i - 1))
  | .fc .bot i _ => mlpRow A draws .bot args.archMlpBot (-1) x i
  | .denseOut => bottomRow A draws args x
  | .sls i _ => e i
  | .int .catAxis0 => featureRow A draws args x e
  | .int .matmul | .int .flattenAll =>
    Tensor.products A.toRowOps (args.archEmbeddingSize.length + 1)
      (args.archEmbeddingSize.length + 1) m (featureRow A draws args x e)
      (featureRow A draws args x e)
  | .int .flatten => pairRow A args.archInteractionItself
      (featureOf (bottomRow A draws args x) e) (args.archEmbeddingSize.length + 1)
  | .int _ => topInput A draws args x e
  | .fc .top i .y => preRow A draws .top (args.lnTop m) i
      (mlpRow A draws .top (args.lnTop m) args.archMlpTop.length
        (topInput A draws args x e) (i - 1))
  | .fc .top i _ => mlpRow A draws .top (args.lnTop m) args.archMlpTop.length
      (topInput A draws args x e) i
  | .probClick => predictRow A draws args m x e
  | _ => x

def Args.dims (m : ℕ) : Blob → List ℕ
  | .fc .bot i _ => [args.archMlpBot.getD i 0]
  | .fc .top i _ => [(args.lnTop m).getD i 0]
  | .denseOut | .sls _ _ => [m]
  | .int .catAxis0 => [args.archEmbeddingSize.length + 1, m]
  | .int .matmul => [args.archEmbeddingSize.length + 1, args.archEmbeddingSize.length + 1]
  | .int .flattenAll =>
    [(args.archEmbeddingSize.length + 1) * (args.archEmbeddingSize.length + 1)]
  | .int .flatten =>
    [(trilIndices args.archInteractionItself (args.archEmbeddingSize.length + 1)).length]
  | .int _ => [args.interactions m]
  | .probClick => [(args.lnTop m).getD args.archMlpTop.length 0]
  | _ => [args.archMlpBot.getD 0 0]

def Args.partSizes (m : ℕ) : List ℕ :=
  match args.archInteractionOp with
  | .dot =>
    [m, (trilIndices args.archInteractionItself (args.archEmbeddingSize.length + 1)).length]
  | .cat => List.replicate (args.archEmbeddingSize.length + 1) m
  | .other _ => []

/-- What the net writes to a blob for a batch of `B` samples. -/
def blobValue (B : ℕ) (x : ℕ → List α) (e : ℕ → ℕ → List α) : Blob → Option (Value α m)
  | .int .infoCatAxis0 => some (.ints (List.replicate (args.archEmbeddingSize.length + 1) 1))
  | .int .info => some (.ints (args.partSizes m))
  | c => batchOf B (args.dims m c) fun j => blobRow A draws args m (x j) (fun i => e i j) c

instance (ops : List BlobOp) (c : Blob) : Decidable (Written ops c) :=
  inferInstanceAs (Decidable (∃ op ∈ ops, c ∈ op.outputs))

def netValue (ws : Workspace (Tensor α) m) (B : ℕ) (x : ℕ → List α) (e : ℕ → ℕ → List α)
    (c : Blob) : Option (Value α m) :=
  if Written args.graph c then blobValue A draws args B x e c else ws c.name

/-- The embeddings of table `i` are fed, or the indices to pool them are. -/
def EmbInput (ws : Workspace (Tensor α) m) (B i : ℕ) (f : ℕ → List α) : Prop :=
  if args.slsType = .dram then
    ∃ idx lengths, ws (Blob.sls i .i).name = some (.ints idx) ∧
      ws (Blob.sls i .l).name = some (.ints lengths) ∧ lengths.sum = idx.length ∧
      (∀ k ∈ idx, k < args.archEmbeddingSize.getD i 0) ∧
      (Tensor.segments lengths idx).map
        (Tensor.sumRows A.toRowOps (tableWeight draws m args.archEmbeddingSize i)) =
          (List.range B).map f
  else HasRows A B (ws (Blob.sls i .z).name) [m] f

/-- A workspace with the weights and a batch of `B` samples. -/
structure Inputs (ws : Workspace (Tensor α) m) (B : ℕ) (x : ℕ → List α) (e : ℕ → ℕ → List α) :
    Prop where
  params : ∀ c v, args.params draws c = some v → ws c.name = some v
  dense : HasRows A B (ws Blob.denseIn.name) [args.archMlpBot.getD 0 0] x
  emb : ∀ i < args.archEmbeddingSize.length, EmbInput A draws args ws B i (e i)

end Values

section Lengths
variable {α : Type} {A : Arithmetic α} {m B : ℕ} {draws : Draws α} {args : Args}
  {ws : Workspace (Tensor α) m} {x : ℕ → List α} {e : ℕ → ℕ → List α}

theorem EmbInput.length {i : ℕ} {f : ℕ → List α} (h : EmbInput A draws args ws B i f) {j : ℕ}
    (hj : j < B) : (f j).length = m := by
  rw [EmbInput] at h
  split_ifs at h with hsls
  · obtain ⟨idx, lengths, -, -, -, -, hseg⟩ := h
    have hmem : f j ∈ (List.range B).map f := List.mem_map_of_mem (List.mem_range.mpr hj)
    rw [← hseg] at hmem
    obtain ⟨seg, -, heq⟩ := List.mem_map.mp hmem
    rw [← heq, Tensor.sumRows, A.length_sum]
    simp [tableWeight, weight]
  · simpa using h.length hj

theorem Args.Fits.getD_last (h : args.Fits m) :
    args.archMlpBot.getD (args.archMlpBot.length - 1) 0 = m := by
  rw [List.getD_eq_getElem?_getD, ← List.getLast?_eq_getElem?, h.width, Option.getD_some]

theorem Args.Fits.length_bottomRow (h : args.Fits m) (x : List α) :
    (bottomRow A draws args x).length = m := by
  obtain ⟨n, hn⟩ : ∃ n, args.archMlpBot.length - 1 = n + 1 :=
    ⟨args.archMlpBot.length - 2, by have := h.bot; omega⟩
  rw [bottomRow, hn, length_mlpRow_succ, ← hn, h.getD_last]

theorem Args.Fits.length_featureOf (h : args.Fits m) (x : List α) {e : ℕ → List α}
    (he : ∀ i < args.archEmbeddingSize.length, (e i).length = m) :
    ∀ i < args.archEmbeddingSize.length + 1,
      (featureOf (bottomRow A draws args x) e i).length = m := by
  intro i hi
  cases i with
  | zero => exact h.length_bottomRow x
  | succ i => exact he i (Nat.lt_of_succ_lt_succ hi)

theorem Args.Fits.length_featureRow (h : args.Fits m) (x : List α) {e : ℕ → List α}
    (he : ∀ i < args.archEmbeddingSize.length, (e i).length = m) :
    (featureRow A draws args x e).length = (args.archEmbeddingSize.length + 1) * m := by
  rw [featureRow, length_flatten_map _ _ fun i hi =>
    h.length_featureOf x he i (List.mem_range.mp hi), List.length_range]

theorem Args.Fits.length_topInput (h : args.Fits m) (x : List α) {e : ℕ → List α}
    (he : ∀ i < args.archEmbeddingSize.length, (e i).length = m) :
    (topInput A draws args x e).length = args.interactions m := by
  simp only [topInput, interactRow.eq_def, Args.interactions]
  cases hop : args.archInteractionOp with
  | dot =>
    simp only [List.length_append, h.length_bottomRow, length_pairRow, length_trilIndices]
    exact Nat.add_comm _ _
  | cat =>
    simp only [List.length_append, h.length_bottomRow]
    rw [length_flatten_map _ _ fun i hi => he i (List.mem_range.mp hi), List.length_range,
      Nat.add_mul, Nat.one_mul, Nat.add_comm]
  | other name => exact absurd hop (h.supported name)

theorem Args.Fits.length_predictRow (h : args.Fits m) (x : List α) (e : ℕ → List α) :
    (predictRow A draws args m x e).length =
      (args.lnTop m).getD args.archMlpTop.length 0 := by
  obtain ⟨n, hn⟩ : ∃ n, args.archMlpTop.length = n + 1 :=
    Nat.exists_eq_succ_of_ne_zero (by simpa using h.top)
  rw [predictRow, hn, length_mlpRow_succ]

theorem Args.Fits.length_blobRow_int (h : args.Fits m) (x : List α) {e : ℕ → List α}
    (he : ∀ i < args.archEmbeddingSize.length, (e i).length = m) (k : IntBlob) :
    (blobRow A draws args m x e (.int k)).length = (args.dims m (.int k)).prod := by
  cases k <;> simp [blobRow, Args.dims, h.length_featureRow x he, h.length_topInput x he,
    Tensor.length_products, length_pairRow]

end Lengths

section Solution
variable {α : Type} {A : Arithmetic α} {m B : ℕ} {draws : Draws α} {args : Args}
  {ws : Workspace (Tensor α) m} {x : ℕ → List α} {e : ℕ → ℕ → List α} {kernel : OpKernel α m}

theorem netValue_written {c : Blob} (hc : Written args.graph c) :
    netValue A draws args ws B x e c = blobValue A draws args B x e c := if_pos hc

theorem netValue_external {c : Blob} (hc : ¬ Written args.graph c) :
    netValue A draws args ws B x e c = ws c.name := if_neg hc

theorem Inputs.netValue_params (h : Inputs A draws args ws B x e) {c : Blob} (hc : stage c = 0)
    {v : Value α m} (hv : args.params draws c = some v) :
    netValue A draws args ws B x e c = some v := by
  rw [netValue_external (not_written_of_stage hc), h.params c v hv]

theorem Inputs.hasRows_emb (h : Inputs A draws args ws B x e) {i : ℕ}
    (hi : i < args.archEmbeddingSize.length) :
    HasRows A B (netValue A draws args ws B x e (.sls i .z)) [m] (e i) := by
  have hemb := h.emb i hi
  by_cases hsls : args.slsType = .dram
  · rw [netValue_written (Args.written_sls hsls hi)]
    exact hasRows_batchOf fun j hj => (hemb.length hj).trans (List.prod_singleton).symm
  · rw [netValue_external (not_written_sls hsls i)]
    rwa [EmbInput, if_neg hsls] at hemb

theorem Inputs.solves_tableOps (h : Inputs A draws args ws B x e) (hker : kernel.Computes A) :
    Solves kernel (tableOps args.slsType args.archEmbeddingSize.length)
      (netValue A draws args ws B x e) := by
  cases hsls : args.slsType with
  | dram =>
    intro op hop
    obtain ⟨i, hmem, rfl⟩ := List.mem_map.mp hop
    have hi : i < args.archEmbeddingSize.length := List.mem_range.mp hmem
    have hemb := h.emb i hi
    rw [EmbInput, if_pos hsls] at hemb
    obtain ⟨idx, lengths, hidx, hl, hsum, hlt, hseg⟩ := hemb
    have hw : args.params draws (.sls i .w) =
        some (.dense (tableWeight draws m args.archEmbeddingSize i)) := if_pos ⟨hsls, hi⟩
    apply solvesOp_sparseLengthsSum hker (h.netValue_params rfl hw)
      ((netValue_external (not_written_of_stage rfl)).trans hidx)
      ((netValue_external (not_written_of_stage rfl)).trans hl) hsum ?_ hseg
    · rw [netValue_written (Args.written_sls hsls hi)]
      rfl
    · simpa [tableWeight, weight] using hlt
  | base => simp [tableOps, Solves]
  | ndp => simp [tableOps, Solves]

theorem Inputs.solves_botOps (h : Inputs A draws args ws B x e) (hker : kernel.Computes A)
    (hfits : args.Fits m) :
    Solves kernel (botOps (args.archMlpBot.length - 1))
      (netValue A draws args ws B x e) := by
  apply solves_mlpOps hker draws args.archMlpBot x
  · rw [netValue_external (not_written_of_stage rfl)]
    exact h.dense
  · intro k hk
    exact h.netValue_params rfl (by simp [Args.params, mlpFeeds, hk])
  · intro k hk
    exact h.netValue_params rfl (by simp [Args.params, mlpFeeds, hk])
  · intro k hk
    rw [netValue_written (written_bot (written_y hk))]
    rfl
  · intro k hk
    rw [netValue_written (written_bot (written_z hk)), zBlob, if_neg (Nat.succ_ne_zero k)]
    split_ifs with hlast
    · rw [hlast, hfits.getD_last]
      rfl
    · rfl

theorem Inputs.hasRows_int (h : Inputs A draws args ws B x e) (hfits : args.Fits m) {k : IntBlob}
    (hk : Written args.graph (.int k))
    (hval : (blobValue A draws args B x e (.int k) : Option (Value α m)) =
      batchOf B (args.dims m (.int k)) fun j =>
        blobRow A draws args m (x j) (fun i => e i j) (.int k)) :
    HasRows A B (netValue A draws args ws B x e (.int k)) (args.dims m (.int k)) fun j =>
      blobRow A draws args m (x j) (fun i => e i j) (.int k) := by
  rw [netValue_written hk, hval]
  exact hasRows_batchOf fun j hj =>
    hfits.length_blobRow_int (x j) (fun i hi => (h.emb i hi).length hj) k

theorem written_denseOut (hfits : args.Fits m) : Written args.graph .denseOut :=
  written_bot (written_out (by have := hfits.bot; omega))

theorem Inputs.hasRows_feature (h : Inputs A draws args ws B x e) (hfits : args.Fits m) :
    ∀ c ∈ Blob.denseOut :: embBlob args.archEmbeddingSize.length,
      HasRows A B (netValue A draws args ws B x e c) [m] fun j =>
        blobRow A draws args m (x j) (fun i => e i j) c := by
  intro c hc
  simp only [embBlob, List.mem_cons, List.mem_map, List.mem_range] at hc
  rcases hc with rfl | ⟨i, hi, rfl⟩
  · rw [netValue_written (written_denseOut hfits)]
    exact hasRows_batchOf fun j _ =>
      (hfits.length_bottomRow (x j)).trans (List.prod_singleton).symm
  · exact h.hasRows_emb hi

theorem map_features (x : List α) (e : ℕ → List α) :
    (Blob.denseOut :: embBlob args.archEmbeddingSize.length).map
        (blobRow A draws args m x e) =
      (List.range (args.archEmbeddingSize.length + 1)).map
        (featureOf (bottomRow A draws args x) e) := by
  rw [List.range_succ_eq_map, List.map_cons, List.map_cons, List.map_map, embBlob, List.map_map]
  rfl

theorem length_features : (Blob.denseOut :: embBlob args.archEmbeddingSize.length).length =
    args.archEmbeddingSize.length + 1 := by
  simp [embBlob]

theorem trilValue_eq_ints {itself : Bool} {numFea : ℕ} (h : 1 < numFea) :
    (trilValue itself numFea : Value α m) = .ints (trilIndices itself numFea) := by
  have hne : trilIndices itself numFea ≠ [] := by
    intro hnil
    have hmem : 0 + 1 * numFea ∈ trilIndices itself numFea := by
      simp only [trilIndices, List.mem_flatMap, List.mem_map, List.mem_range]
      exact ⟨1, h, 0, by omega, rfl⟩
    rw [hnil] at hmem
    cases hmem
  obtain ⟨i, is, hcons⟩ := List.exists_cons_of_ne_nil hne
  rw [trilValue, hcons]

theorem Inputs.solves_dot (h : Inputs A draws args ws B x e) (hker : kernel.Computes A)
    (hfits : args.Fits m)
    (hne : args.archEmbeddingSize ≠ []) (hop : args.archInteractionOp = .dot) :
    Solves kernel (intOps args.archEmbeddingSize.length .dot)
      (netValue A draws args ws B x e) := by
  have hwritten : ∀ {c}, Written (intOps args.archEmbeddingSize.length .dot) c →
      Written args.graph c := by
    intro c hc
    exact written_int (hop ▸ hc)
  have hcat : Written args.graph (.int .catAxis0) := hwritten (by simp [Written, intOps])
  have hmul : Written args.graph (.int .matmul) := hwritten (by simp [Written, intOps])
  have hflat : Written args.graph (.int .flattenAll) := hwritten (by simp [Written, intOps])
  have hpairs : Written args.graph (.int .flatten) := hwritten (by simp [Written, intOps])
  intro op hmem
  simp only [intOps, List.mem_cons, List.not_mem_nil, or_false] at hmem
  rcases hmem with rfl | rfl | rfl | rfl | rfl
  -- the features of a sample become the rows of one matrix
  · apply solvesOp_concat hker (D := fun _ => [m]) [m]
      (List.replicate (args.archEmbeddingSize.length + 1) 1) (h.hasRows_feature hfits)
    · intro c _
      rfl
    · simp only [if_true, List.map_const', length_features]
    · rw [netValue_written hcat, List.sum_replicate, smul_eq_mul, Nat.mul_one]
      simp only [map_features]
      rfl
    · rw [netValue_written (hwritten (by simp [Written, intOps]))]
      rfl
  · apply solvesOp_batchMatMul hker (h.hasRows_int hfits hcat rfl)
    rw [netValue_written hmul]
    rfl
  · apply solvesOp_flatten hker (h.hasRows_int hfits hmul rfl)
    rw [netValue_written hflat]
    simp [blobValue, Args.dims]
    rfl
  -- of all products only those below the diagonal are kept
  · have htril : args.params draws (.int .trilIndices) =
        some (.ints (trilIndices args.archInteractionItself
          (args.archEmbeddingSize.length + 1)) : Value α m) := by
      rw [Args.params, trilValue_eq_ints]
      have := List.length_pos_iff.mpr hne
      omega
    apply solvesOp_batchGather hker (h.hasRows_int hfits hflat rfl) (h.netValue_params rfl htril)
      fun i hi => trilIndices_lt hi
    rw [netValue_written hpairs]
    apply batchOf_congr
    intro j hj
    exact (gather_pairs A _ (hfits.length_featureOf (x j) fun i hi => (h.emb i hi).length hj)).symm
  · apply solvesOp_concat hker (D := args.dims m) [] (args.partSizes m)
      (F := fun c j => blobRow A draws args m (x j) (fun i => e i j) c)
    · simp only [List.mem_cons, List.not_mem_nil, or_false, forall_eq_or_imp, forall_eq]
      exact ⟨h.hasRows_feature hfits _ List.mem_cons_self, h.hasRows_int hfits hpairs rfl⟩
    · simp [JoinsTo, Args.dims]
    · simp [Args.dims, Args.partSizes, hop]
    · rw [netValue_written (hwritten (by simp [Written, intOps]))]
      have hdims : args.dims m (.int .out) = (args.partSizes m).sum :: [] := by
        simp [Args.dims, Args.partSizes, hop, Args.interactions, length_trilIndices, Nat.add_comm]
      rw [← hdims]
      apply batchOf_congr
      intro j hj
      simp [blobRow, topInput, hop, interactRow]
    · rw [netValue_written (hwritten (by simp [Written, intOps]))]
      rfl

theorem Inputs.solves_cat (h : Inputs A draws args ws B x e) (hker : kernel.Computes A)
    (hfits : args.Fits m)
    (hop : args.archInteractionOp = .cat) :
    Solves kernel (intOps args.archEmbeddingSize.length .cat)
      (netValue A draws args ws B x e) := by
  have hwritten : ∀ {c}, Written (intOps args.archEmbeddingSize.length .cat) c →
      Written args.graph c := by
    intro c hc
    exact written_int (hop ▸ hc)
  intro op hmem
  simp only [intOps, List.mem_cons, List.not_mem_nil, or_false] at hmem
  subst hmem
  apply solvesOp_concat hker (D := fun _ => [m]) [] (args.partSizes m) (h.hasRows_feature hfits)
  · simp [JoinsTo]
  · simp only [Args.partSizes, hop, Bool.false_eq_true, if_false, List.headD_cons, List.map_const',
      length_features]
  · rw [netValue_written (hwritten (by simp [Written, intOps]))]
    have hdims : args.dims m (.int .out) = (args.partSizes m).sum :: [] := by
      simp [Args.dims, Args.partSizes, hop, Args.interactions]
    rw [← hdims]
    apply batchOf_congr
    intro j hj
    simp only [map_features]
    simp [blobRow, topInput, hop, interactRow, List.range_succ_eq_map, featureOf,
      Function.comp_def]
  · rw [netValue_written (hwritten (by simp [Written, intOps]))]
    rfl

theorem Inputs.solves_topOps (h : Inputs A draws args ws B x e) (hker : kernel.Computes A)
    (hfits : args.Fits m)
    (hout : Written args.graph (.int .out)) :
    Solves kernel (topOps args.archMlpTop.length)
      (netValue A draws args ws B x e) := by
  apply solves_mlpOps hker draws (args.lnTop m) fun j => topInput A draws args (x j) fun i => e i j
  · exact h.hasRows_int hfits hout rfl
  · intro k hk
    exact h.netValue_params rfl (by simp [Args.params, mlpFeeds, hk])
  · intro k hk
    exact h.netValue_params rfl (by simp [Args.params, mlpFeeds, hk])
  · intro k hk
    rw [netValue_written (written_top (written_y hk))]
    rfl
  · intro k hk
    rw [netValue_written (written_top (written_z hk)), zBlob, if_neg (Nat.succ_ne_zero k)]
    split_ifs with hlast
    · rw [hlast]
      rfl
    · rfl

/-- The values solve the net. -/
theorem Inputs.solves (h : Inputs A draws args ws B x e) (hker : kernel.Computes A)
    (hfits : args.Fits m)
    (hne : args.archEmbeddingSize ≠ []) :
    Solves kernel args.graph (netValue A draws args ws B x e) := by
  have hint : Solves kernel (intOps args.archEmbeddingSize.length args.archInteractionOp)
      (netValue A draws args ws B x e) ∧ Written args.graph (.int .out) := by
    cases hop : args.archInteractionOp with
    | dot =>
      refine ⟨h.solves_dot hker hfits hne hop, written_int ?_⟩
      simp [hop, Written, intOps]
    | cat =>
      refine ⟨h.solves_cat hker hfits hop, written_int ?_⟩
      simp [hop, Written, intOps]
    | other name => exact absurd hop (hfits.supported name)
  exact (((h.solves_tableOps hker).append (h.solves_botOps hker hfits)).append hint.1).append
    (h.solves_topOps hker hfits hint.2)

/-- Every execution of the net ends with these values. -/
theorem Inputs.runNet_eq (h : Inputs A draws args ws B x e) (hker : kernel.Computes A)
    (hfits : args.Fits m) (hne : args.archEmbeddingSize ≠ []) {caffe2 : Caffe2 α m}
    (hexec : caffe2.Executes kernel)
    (hcreated : ∃ ws, caffe2.createNet (args.graph.map (rename Blob.name)) ws = .ok ()) :
    caffe2.runNet (args.graph.map (rename Blob.name)) ws =
      .ok (Function.extend Blob.name (netValue A draws args ws B x e) ws) := by
  obtain ⟨ws₀, hcreate⟩ := hcreated
  obtain ⟨l, missing, hl, hrun⟩ := hexec _ ws₀ hcreate
    ((inOrder_netOps _ _ _ _ _).map Blob.name_injective) ws
  rw [hrun]
  apply hl.runOps_rename Blob.name_injective _ (h.solves hker hfits hne)
  intro c hc
  apply netValue_external
  rintro ⟨op, hop, hout⟩
  exact hc op hop hout

end Solution

end EbpfIsp.Network
