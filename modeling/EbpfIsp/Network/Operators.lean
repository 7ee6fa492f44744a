import EbpfIsp.Library.Dataflow
import EbpfIsp.Library.Tensor
import EbpfIsp.Recsys.Run

/-! # Operators of the network

`DLRM_Net` builds a net of operators on named blobs and leaves the rest to
Caffe2, which is not part of the repository: whether a net is created, in which
order its operators run and what they compute are parameters. What a result
assumes of them is a property of these parameters with a name. The numbers are
a parameter too. The last section shows that the assumptions can be met.
-/

namespace EbpfIsp.Network
open Library Recsys Dataflow

/-- What the operators do to one sample, and the conversion of the rows from `slsload`. -/
structure Arithmetic (α : Type) extends RowOps α where
  float32 : ℚ → α

abbrev Value (α : Type) (m : ℕ) := BlobValue (Tensor α) m

section Values
variable {α : Type} {m : ℕ} (A : Arithmetic α)

def rowsTensor (rows : List (FloatRow m)) : Tensor α :=
  ⟨[m], rows.map fun r => List.ofFn fun h => A.float32 (r h), by simp⟩

def Value.tensor : Value α m → Option (Tensor α)
  | .dense t => some t
  | .rows r => r.map (rowsTensor A)
  | .ints _ => none

def Value.indices : Value α m → Option (List ℕ)
  | .ints xs => some xs
  | _ => none

end Values

inductive Kind where
  | fc
  | relu
  | sigmoid
  | concat (addAxis : Bool)
  | batchMatMul
  | flatten
  | batchGather
  | sparseLengthsSum
  deriving DecidableEq

def Kind.outputs : Kind → ℕ
  | .concat _ => 2
  | _ => 1

abbrev Op := OpDef Kind String

inductive NetError where
  | python (e : PyError)
  | systemExit (message : String)
  | caffe2 (message : String)

abbrev OpKernel (α : Type) (m : ℕ) := Kind → List (Value α m) → Except NetError (List (Value α m))

structure Caffe2 (α : Type) (m : ℕ) where
  createNet : List Op → Workspace (Tensor α) m → Except NetError Unit
  runNet : List Op → Workspace (Tensor α) m → Except NetError (Workspace (Tensor α) m)

section Assumptions
variable {α : Type} {m : ℕ}

/-- A net is created if every input is in the workspace or an output of an earlier operator. -/
def Caffe2.AcceptsComplete (caffe2 : Caffe2 α m) : Prop :=
  ∀ ops ws, Complete (fun b => (ws b).isSome) ops → caffe2.createNet ops ws = .ok ()

/-- A net that was created runs its operators one after the other, in some order in which none
comes after a reader of its outputs. -/
def Caffe2.Executes (caffe2 : Caffe2 α m) (kernel : OpKernel α m) : Prop :=
  ∀ ops ws₀, caffe2.createNet ops ws₀ = .ok () → InOrder ops → ∀ ws, ∃ l missing,
    Schedule ops l ∧ caffe2.runNet ops ws = runOps kernel missing l ws

def OpKernel.Arity (kernel : OpKernel α m) : Prop :=
  ∀ kind xs ys, kernel kind xs = .ok ys → ys.length = kind.outputs

/-- On inputs whose dimensions fit, the operators succeed and work sample by sample. -/
structure OpKernel.Computes (kernel : OpKernel α m) (A : Arithmetic α) : Prop where
  fc {x w b : Value α m} {tx tw tb y : Tensor α} (hx : x.tensor A = some tx)
    (hw : w.tensor A = some tw) (hb : b.tensor A = some tb)
    (hin : tw.inner.prod = tx.inner.prod) (hbias : tb.inner = [])
    (hlen : tb.rows.length = tw.rows.length) (hinner : y.inner = [tw.rows.length])
    (hrows : y.rows = tx.rows.map (A.layer tw tb)) : kernel .fc [x, w, b] = .ok [.dense y]
  relu {x : Value α m} {t : Tensor α} (hx : x.tensor A = some t) :
    kernel .relu [x] = .ok [.dense (t.map A.relu)]
  sigmoid {x : Value α m} {t : Tensor α} (hx : x.tensor A = some t) :
    kernel .sigmoid [x] = .ok [.dense (t.map A.sigmoid)]
  concat {addAxis : Bool} {xs : List (Value α m)} {t y : Tensor α} {ts : List (Tensor α)}
    (hxs : xs.mapM (Value.tensor A) = some (t :: ts))
    (hfits : ∀ u ∈ t :: ts, Tensor.Fits addAxis t u)
    (hinner : y.inner = (Tensor.axisSizes addAxis (t :: ts)).sum :: Tensor.outerInner addAxis t)
    (hrows : y.rows = (List.range t.rows.length).map (Tensor.joined (t :: ts))) :
    kernel (.concat addAxis) xs = .ok [.dense y, .ints (Tensor.axisSizes addAxis (t :: ts))]
  batchMatMul {x y : Value α m} {tx ty z : Tensor α} {n n' k : ℕ} (hx : x.tensor A = some tx)
    (hy : y.tensor A = some ty) (hxin : tx.inner = [n, k]) (hyin : ty.inner = [n', k])
    (hlen : tx.rows.length = ty.rows.length) (hinner : z.inner = [n, n'])
    (hrows : z.rows = (List.range tx.rows.length).map fun j =>
      Tensor.products A.toRowOps n n' k (tx.row j) (ty.row j)) :
    kernel .batchMatMul [x, y] = .ok [.dense z]
  flatten {x : Value α m} {t : Tensor α} (hx : x.tensor A = some t) :
    kernel .flatten [x] = .ok [.dense t.flatten]
  batchGather {x i : Value α m} {t y : Tensor α} {idx : List ℕ} {d : ℕ}
    (hx : x.tensor A = some t) (hi : i.indices = some idx) (ht : t.inner = [d])
    (hidx : ∀ i ∈ idx, i < d) (hinner : y.inner = [idx.length])
    (hrows : y.rows = t.rows.map fun r => (idx.map fun i => chunk 1 i r).flatten) :
    kernel .batchGather [x, i] = .ok [.dense y]
  sparseLengthsSum {w i l : Value α m} {t y : Tensor α} {idx lengths : List ℕ}
    (hw : w.tensor A = some t) (hi : i.indices = some idx) (hl : l.indices = some lengths)
    (hsum : lengths.sum = idx.length) (hidx : ∀ i ∈ idx, i < t.rows.length)
    (hinner : y.inner = t.inner)
    (hrows : y.rows = (Tensor.segments lengths idx).map (Tensor.sumRows A.toRowOps t)) :
    kernel .sparseLengthsSum [w, i, l] = .ok [.dense y]

end Assumptions

section Reference
variable {α : Type} {m : ℕ} (A : Arithmetic α)

def compute : Kind → List (Value α m) → Option (List (Value α m))
  | .fc, [x, w, b] => do
    let y ← Tensor.fc A.toRowOps (← x.tensor A) (← w.tensor A) (← b.tensor A)
    return [.dense y]
  | .relu, [x] => do return [.dense ((← x.tensor A).map A.relu)]
  | .sigmoid, [x] => do return [.dense ((← x.tensor A).map A.sigmoid)]
  | .concat addAxis, xs => do
    let (y, info) ← Tensor.concat addAxis (← xs.mapM (Value.tensor A))
    return [.dense y, .ints info]
  | .batchMatMul, [x, y] => do
    let z ← Tensor.batchMatMul A.toRowOps (← x.tensor A) (← y.tensor A)
    return [.dense z]
  | .flatten, [x] => do return [.dense (← x.tensor A).flatten]
  | .batchGather, [x, idx] => do
    let y ← Tensor.batchGather (← x.tensor A) (← idx.indices)
    return [.dense y]
  | .sparseLengthsSum, [table, idx, lengths] => do
    let y ← Tensor.sparseLengthsSum A.toRowOps (← table.tensor A) (← idx.indices)
      (← lengths.indices)
    return [.dense y]
  | _, _ => none

/-- An executable Caffe2: operators that check their inputs, in the order of the net. -/
def referenceKernel : OpKernel α m := fun kind xs =>
  match compute A kind xs with
  | some ys => .ok ys
  | none => .error (.caffe2 "the inputs do not fit")

def reference : Caffe2 α m where
  createNet ops ws :=
    if Complete (fun b => (ws b).isSome) ops then .ok () else .error (.caffe2 "a missing input")
  runNet := runOps (referenceKernel A) .caffe2

theorem referenceKernel_eq_ok {kind : Kind} {xs ys : List (Value α m)}
    (h : compute A kind xs = some ys) : referenceKernel A kind xs = .ok ys := by
  rw [referenceKernel, h]

theorem referenceKernel_computes : (referenceKernel A : OpKernel α m).Computes A where
  fc hx hw hb hin hbias hlen hinner hrows := referenceKernel_eq_ok A (by
    simp [compute, hx, hw, hb, Tensor.fc_eq_some _ hin hbias hlen hinner hrows])
  relu hx := referenceKernel_eq_ok A (by simp [compute, hx])
  sigmoid hx := referenceKernel_eq_ok A (by simp [compute, hx])
  concat hxs hfits hinner hrows := referenceKernel_eq_ok A (by
    simp [compute, hxs, Tensor.concat_eq_some hfits hinner hrows])
  batchMatMul hx hy hxin hyin hlen hinner hrows := referenceKernel_eq_ok A (by
    simp [compute, hx, hy, Tensor.batchMatMul_eq_some _ hxin hyin hlen hinner hrows])
  flatten hx := referenceKernel_eq_ok A (by simp [compute, hx])
  batchGather hx hi ht hidx hinner hrows := referenceKernel_eq_ok A (by
    simp [compute, hx, hi, Tensor.batchGather_eq_some ht hidx hinner hrows])
  sparseLengthsSum hw hi hl hsum hidx hinner hrows := referenceKernel_eq_ok A (by
    simp [compute, hw, hi, hl, Tensor.sparseLengthsSum_eq_some _ hsum hidx hinner hrows])

theorem compute_arity {kind : Kind} {xs ys : List (Value α m)} (h : compute A kind xs = some ys) :
    ys.length = kind.outputs := by
  unfold compute at h
  split at h
  all_goals
    first
    | cases h
    | (simp only [Option.bind_eq_bind, Option.bind_eq_some_iff, Option.pure_def,
          Option.some.injEq] at h
       grind [Kind.outputs])

theorem referenceKernel_arity : (referenceKernel A : OpKernel α m).Arity := by
  intro kind xs ys h
  rw [referenceKernel] at h
  split at h
  · rename_i ys' hys
    cases h
    exact compute_arity A hys
  · cases h

theorem reference_acceptsComplete : (reference A : Caffe2 α m).AcceptsComplete :=
  fun _ _ h => if_pos h

theorem reference_executes : (reference A : Caffe2 α m).Executes (referenceKernel A) :=
  fun ops _ _ hord _ => ⟨ops, .caffe2, Schedule.refl hord, rfl⟩

/-- An executor that takes the operators of one net in another order. -/
def reordered (net l : List Op) (ops : List Op) (ws : Workspace (Tensor α) m) :
    Except NetError (Workspace (Tensor α) m) :=
  runOps (referenceKernel A) .caffe2 (if ops = net then l else ops) ws

theorem reordered_executes {net l : List Op} (hl : Schedule net l) :
    ({ reference A with runNet := reordered A net l } : Caffe2 α m).Executes
      (referenceKernel A) := by
  intro ops ws₀ _ hord ws
  refine ⟨if ops = net then l else ops, .caffe2, ?_, rfl⟩
  split_ifs with h
  · exact h ▸ hl
  · exact Schedule.refl hord

/-- Exact numbers, with a simple function in place of the logistic one. -/
def rational : Arithmetic ℚ := { RowOps.rational fun a => a / 2 with float32 := id }

end Reference

end EbpfIsp.Network
