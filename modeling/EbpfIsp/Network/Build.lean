import EbpfIsp.Network.Operators

/-! # Building the network

`DLRM_Net.__init__` checks the dimensions of its arguments and adds the
operators of the embeddings, the bottom layers, the interactions and the top
layers to one net. The layers depend on each other by the names of their blobs
only. `create` feeds the first inputs and creates the net. The program does not
pass queues of inputs to `__init__`, so `id_qs`, `len_qs` and `fc_q` are `None`.
-/

namespace EbpfIsp.Network
open Library Recsys

inductive InteractionOp where
  | dot
  | cat
  | other (name : String)
  deriving DecidableEq

/-- The arguments that `DLRM_Net` reads. `--arch_sparse_feature_size` is the width `m` of the
rows in the workspace. -/
structure Args where
  archMlpBot : List ℕ
  archMlpTop : List ℕ
  archEmbeddingSize : List ℕ
  archInteractionOp : InteractionOp
  archInteractionItself : Bool
  slsType : SlsType
  queue : Bool

structure Tags where
  ttop : String := "top"
  tbot : String := "bot"
  temb : String := "emb"
  tdin : String := "dense_in"
  tdout : String := "dense_out"
  tint : String := "interaction"
  ttar : String := "target"
  tout : String := "prob_click"

structure Net (α : Type) (m : ℕ) where
  ops : List Op
  ws : Workspace (Tensor α) m

section Build
variable {α : Type} {m : ℕ}

def Net.feed (net : Net α m) (tag : String) (val : Value α m) : Net α m :=
  { net with ws := feedBlobWrapper net.ws tag val }

def Net.add (net : Net α m) (kind : Kind) (inputs outputs : List String) : Net α m :=
  { net with ops := net.ops ++ [⟨kind, inputs, outputs⟩] }

/-- The random numbers for the element in row `i` and column `j` of the blob with a given tag. -/
abbrev Draws (α : Type) := String → ℕ → ℕ → α

def weight (draws : Draws α) (tag : String) (rows cols : ℕ) : Tensor α :=
  ⟨[cols], (List.range rows).map fun i => (List.range cols).map (draws tag i), by simp⟩

def bias (draws : Draws α) (tag : String) (rows : ℕ) : Tensor α :=
  ⟨[], (List.range rows).map fun i => [draws tag i 0], by simp⟩

variable (draws : Draws α)

structure MlpLoop (α : Type) (m : ℕ) where
  net : Net α m
  tagIn : String
  layers : List String

def createMlp (ln : List ℕ) (sigmoidLayer : ℤ) (tagLayer tagIn tagOut : String) (net : Net α m) :
    Net α m × List String :=
  let out := forPure (ln.length - 1) (fun k acc =>
    let i := k + 1
    let n := ln.getD (i - 1) 0
    let m := ln.getD i 0
    let tagFcW := tagLayer ++ ":::" ++ "fc" ++ toString i ++ "_w"
    let tagFcB := tagLayer ++ ":::" ++ "fc" ++ toString i ++ "_b"
    let tagFcY := tagLayer ++ ":::" ++ "fc" ++ toString i ++ "_y"
    let tagFcZ := if i = ln.length - 1 then tagOut
      else tagLayer ++ ":::" ++ "fc" ++ toString i ++ "_z"
    let net := acc.net.feed tagFcW (.dense (weight draws tagFcW m n))
    let net := net.feed tagFcB (.dense (bias draws tagFcB m))
    -- with `--queue` too, since `fc_q` is `None`
    let net := net.add .fc [acc.tagIn, tagFcW, tagFcB] [tagFcY]
    let net := net.add (if (i : ℤ) = sigmoidLayer then .sigmoid else .relu) [tagFcY] [tagFcZ]
    ⟨net, tagFcZ, acc.layers ++ [tagFcY, tagFcZ]⟩) (⟨net, tagIn, []⟩ : MlpLoop α m)
  (out.net, out.layers)

def slsTag (tagLayer : String) (i : ℕ) (suffix : String) : String :=
  tagLayer ++ ":::" ++ "sls" ++ toString i ++ suffix

def createEmb (queue : Bool) (ln : List ℕ) (tagLayer : String) (net : Net α m) :
    Except NetError (Net α m × List String) :=
  forLoop ln.length (fun i acc =>
    let n := ln.getD i 0
    let lenS := slsTag tagLayer i "_l"
    let indS := slsTag tagLayer i "_i"
    let tblS := slsTag tagLayer i "_w"
    let sumS := slsTag tagLayer i "_z"
    let net := acc.1.feed tblS (.dense (weight draws tblS n m))
    -- `id_qs[i]` of `None`
    if queue then .error (.python .typeError)
    else .ok (net.add .sparseLengthsSum [tblS, indS, lenS] [sumS], acc.2 ++ [sumS])) (net, [])

def zeroTensor [Zero α] : Tensor α := ⟨[1], [[0]], by simp⟩

/-- The blobs of the tables that are read through the library; the table itself is written by
`unvme_write_table`. -/
def embBlobs [Zero α] (tables : ℕ) (tagLayer : String) (net : Net α m) : Net α m × List String :=
  forPure tables (fun i acc =>
    let sumS := slsTag tagLayer i "_z"
    (acc.1.feed sumS (.dense zeroTensor), acc.2 ++ [sumS])) (net, [])

def unsupported (name : String) : NetError :=
  .systemExit ("ERROR: --arch-interaction-op=" ++ name ++ " is not supported")

def createInteractions (op : InteractionOp) (x ly : List String) (tagIntOut : String)
    (net : Net α m) : Except NetError (Net α m × String) :=
  let tagIntOutInfo := tagIntOut ++ "_info"
  match op with
  | .dot =>
    let T := tagIntOut ++ "_cat_axis0"
    let Z := tagIntOut ++ "_matmul"
    let ZflatAll := tagIntOut ++ "_flatten_all"
    let Zflat := tagIntOut ++ "_flatten"
    let net := net.add (.concat true) (x ++ ly) [T, tagIntOutInfo ++ "_cat_axis0"]
    let net := net.add .batchMatMul [T, T] [Z]
    let net := net.add .flatten [Z] [ZflatAll]
    let net := net.add .batchGather [ZflatAll, tagIntOut ++ "_tril_indices"] [Zflat]
    .ok (net.add (.concat false) (x ++ [Zflat]) [tagIntOut, tagIntOutInfo], tagIntOut)
  | .cat => .ok (net.add (.concat false) (x ++ ly) [tagIntOut, tagIntOutInfo], tagIntOut)
  | .other name => .error (unsupported name)

def lastOf {α : Type} (l : List α) : Except NetError α :=
  match l.getLast? with
  | some a => .ok a
  | none => .error (.python .indexError)

/-- The attributes of `DLRM_Net`; `net` is the net with the workspace. -/
structure Dlrm (α : Type) (m : ℕ) where
  args : Args
  tags : Tags
  lnTop : List ℕ
  embL : List String
  lastOutput : String
  net : Net α m

/-- The embeddings: operators of the net for tables in memory, blobs to be fed otherwise. -/
def createTables [Zero α] (args : Args) (temb : String) (net : Net α m) :
    Except NetError (Net α m × List String) :=
  match args.slsType with
  | .dram => createEmb draws args.queue args.archEmbeddingSize temb net
  | .base | .ndp => .ok (embBlobs args.archEmbeddingSize.length temb net)

def createSequentialForwardOps [Zero α] (args : Args) (tags : Tags) (lnTop : List ℕ)
    (net : Net α m) : Except NetError (Dlrm α m) := do
  let emb ← createTables draws args tags.temb net
  let bot := createMlp draws args.archMlpBot (-1) tags.tbot tags.tdin tags.tdout emb.1
  let x ← lastOf bot.2
  let int ← createInteractions args.archInteractionOp [x] emb.2 tags.tint bot.1
  let top := createMlp draws lnTop (lnTop.length - 1) tags.ttop int.2 tags.tout int.1
  let last ← lastOf top.2
  return ⟨args, tags, lnTop, emb.2, last, top.1⟩

/-- The number of features that the top layers receive. -/
def numInt (args : Args) (mDenOut : ℕ) : Except NetError ℕ :=
  let numFea := args.archEmbeddingSize.length + 1
  match args.archInteractionOp with
  | .dot =>
    if args.archInteractionItself then .ok (numFea * (numFea + 1) / 2 + mDenOut)
    else .ok (numFea * (numFea - 1) / 2 + mDenOut)
  | .cat => .ok (numFea * mDenOut)
  | .other name => .error (unsupported name)

/-- The checks of `__init__`, in their order; `num` and `lnTop` are its `num_int` and `ln_top`. -/
def checkDims (mSpa mDen mDenOut num : ℕ) (lnBot lnTop : List ℕ) : Except NetError Unit := do
  if mDen ≠ lnBot.headD 0 then
    throw (.systemExit ("ERROR: arch-dense-feature-size " ++ toString mDen ++
      " does not match first dim of bottom mlp " ++ toString (lnBot.headD 0)))
  if mSpa ≠ mDenOut then
    throw (.systemExit ("ERROR: arch-sparse-feature-size " ++ toString mSpa ++
      " does not match last dim of bottom mlp " ++ toString mDenOut))
  if num ≠ lnTop.headD 0 then
    throw (.systemExit ("ERROR: # of feature interactions " ++ toString num ++
      " does not match first dim of top mlp " ++ toString (lnTop.headD 0)))

def firstOf {α : Type} (l : List α) : Except NetError α :=
  match l.head? with
  | some a => .ok a
  | none => .error (.python .indexError)

/-- `DLRM_Net.__init__` with a new model -/
def Dlrm.init [Zero α] (args : Args) (ws : Workspace (Tensor α) m) :
    Except NetError (Dlrm α m) := do
  let mDen ← firstOf args.archMlpBot
  let mDenOut ← lastOf args.archMlpBot
  let num ← numInt args mDenOut
  let lnTop := num :: args.archMlpTop
  checkDims m mDen mDenOut num args.archMlpBot lnTop
  createSequentialForwardOps draws args {} lnTop ⟨[], ws⟩

end Build

section Create
variable {α : Type} {m : ℕ}

/-- The lengths and indices of table `i`. -/
def feedTable (temb : String) (sLengths sIndices : List (List ℕ)) (i : ℕ) (net : Net α m) :
    Except NetError (Net α m) :=
  match sLengths[i]?, sIndices[i]? with
  | some l, some idx =>
    .ok ((net.feed (slsTag temb i "_l") (.ints l)).feed (slsTag temb i "_i") (.ints idx))
  | _, _ => .error (.python .indexError)

def Dlrm.createInput [Zero α] (dlrm : Dlrm α m) (X : Tensor α) (sLengths sIndices : List (List ℕ))
    (T : Option (Tensor α)) : Except NetError (Dlrm α m) := do
  let net ← forLoop dlrm.embL.length (feedTable dlrm.tags.temb sLengths sIndices)
    (dlrm.net.feed dlrm.tags.tdin (.dense X))
  match T with
  | none => return { dlrm with net := net }
  | some T => return { dlrm with net := net.feed dlrm.tags.ttar (.dense (T.map fun _ => 0)) }

def trilIndices (itself : Bool) (numFea : ℕ) : List ℕ :=
  let offset := if itself then 1 else 0
  (List.range numFea).flatMap fun i => (List.range (i + offset)).map fun j => j + i * numFea

/-- `np.array` of the indices; without an element it is an array of floats. -/
def trilValue (itself : Bool) (numFea : ℕ) : Value α m :=
  match trilIndices itself numFea with
  | [] => .dense ⟨[], [], by simp⟩
  | i :: is => .ints (i :: is)

def Dlrm.createModel (caffe2 : Caffe2 α m) (dlrm : Dlrm α m) (T : Option (Tensor α)) :
    Except NetError (Dlrm α m) := do
  let numFea := dlrm.embL.length + 1
  let net := dlrm.net.feed (dlrm.tags.tint ++ "_tril_indices")
    (trilValue dlrm.args.archInteractionItself numFea)
  match T with
  | none => return { dlrm with net := net }
  | some _ => do
    caffe2.createNet net.ops net.ws
    return { dlrm with net := net }

def Dlrm.create [Zero α] (caffe2 : Caffe2 α m) (dlrm : Dlrm α m) (X : Tensor α)
    (sLengths sIndices : List (List ℕ)) (T : Option (Tensor α)) : Except NetError (Dlrm α m) := do
  let dlrm ← dlrm.createInput X sLengths sIndices T
  dlrm.createModel caffe2 T

def Dlrm.feeder (dlrm : Dlrm α m) : DlrmNet where
  queue := dlrm.args.queue
  slsType := dlrm.args.slsType
  embL := dlrm.embL.length
  temb := dlrm.tags.temb
  tdin := dlrm.tags.tdin

/-- `DLRM_Net.run` -/
def Dlrm.run (caffe2 : Caffe2 α m) (dlrm : Dlrm α m) (X : Tensor α) (sLengths : List (List ℕ))
    (sIndices : ℕ → List ℕ) (listResult : Option (ListResult m)) : Except NetError (Dlrm α m) := do
  let ws ← (dlrm.feeder.feed X sLengths sIndices listResult dlrm.net.ws).mapError .python
  let ws ← caffe2.runNet dlrm.net.ops ws
  return { dlrm with net := ⟨dlrm.net.ops, ws⟩ }

end Create

end EbpfIsp.Network
