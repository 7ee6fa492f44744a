import EbpfIsp.Network.Blobs

/-! # The graph of the network

The net that `__init__` builds, written with blobs in place of names: the
embeddings, the bottom layers, the interactions and the top layers. Every
stage reads its own outputs and those of the stages before it, so the operators
are in order, and no blob has two writers.
-/

namespace EbpfIsp.Network
open Library Recsys Dataflow

abbrev BlobOp := OpDef Kind Blob

section Ops

/-- The output of layer `i` of `n` layers; there is an input instead of a layer 0. -/
def zBlob (l : Mlp) (n : ℕ) (inp out : Blob) (i : ℕ) : Blob :=
  if i = 0 then inp else if i = n then out else .fc l i .z

def activation (sigmoidLayer : ℤ) (i : ℕ) : Kind :=
  if (i : ℤ) = sigmoidLayer then .sigmoid else .relu

def layerOps (l : Mlp) (n : ℕ) (inp out : Blob) (sigmoidLayer : ℤ) (k : ℕ) : List BlobOp :=
  [⟨.fc, [zBlob l n inp out k, .fc l (k + 1) .w, .fc l (k + 1) .b], [.fc l (k + 1) .y]⟩,
    ⟨activation sigmoidLayer (k + 1), [.fc l (k + 1) .y], [zBlob l n inp out (k + 1)]⟩]

def mlpOps (l : Mlp) (n : ℕ) (inp out : Blob) (sigmoidLayer : ℤ) (k : ℕ) : List BlobOp :=
  (List.range k).flatMap (layerOps l n inp out sigmoidLayer)

def embOps (tables : ℕ) : List BlobOp :=
  (List.range tables).map fun i =>
    ⟨.sparseLengthsSum, [.sls i .w, .sls i .i, .sls i .l], [.sls i .z]⟩

def embBlob (tables : ℕ) : List Blob := (List.range tables).map fun i => .sls i .z

def intOps (tables : ℕ) : InteractionOp → List BlobOp
  | .dot =>
    [⟨.concat true, .denseOut :: embBlob tables, [.int .catAxis0, .int .infoCatAxis0]⟩,
      ⟨.batchMatMul, [.int .catAxis0, .int .catAxis0], [.int .matmul]⟩,
      ⟨.flatten, [.int .matmul], [.int .flattenAll]⟩,
      ⟨.batchGather, [.int .flattenAll, .int .trilIndices], [.int .flatten]⟩,
      ⟨.concat false, [.denseOut, .int .flatten], [.int .out, .int .info]⟩]
  | .cat => [⟨.concat false, .denseOut :: embBlob tables, [.int .out, .int .info]⟩]
  | .other _ => []

def tableOps (slsType : SlsType) (tables : ℕ) : List BlobOp :=
  match slsType with
  | .dram => embOps tables
  | .base | .ndp => []

def botOps (n : ℕ) : List BlobOp := mlpOps .bot n .denseIn .denseOut (-1) n

def topOps (n : ℕ) : List BlobOp := mlpOps .top n (.int .out) .probClick n n

/-- The whole net; `nb` and `nt` are the numbers of bottom and top layers. -/
def netOps (slsType : SlsType) (op : InteractionOp) (tables nb nt : ℕ) : List BlobOp :=
  tableOps slsType tables ++ botOps nb ++ intOps tables op ++ topOps nt

end Ops

section Order

/-- The stage that writes a blob; 0 is fed from outside. -/
def stage : Blob → ℕ
  | .sls _ .z => 1
  | .fc .bot _ .y | .fc .bot _ .z | .denseOut => 2
  | .int .trilIndices => 0
  | .int _ => 3
  | .fc .top _ .y | .fc .top _ .z | .probClick => 4
  | _ => 0

/-- The operators write in stage `s` and read nothing later. -/
def InStage (s : ℕ) (ops : List BlobOp) : Prop :=
  ∀ op ∈ ops, (∀ b ∈ op.inputs, stage b ≤ s) ∧ ∀ b ∈ op.outputs, stage b = s

theorem InStage.before {s s' : ℕ} (hs : s < s') {ops ops' : List BlobOp} (h : InStage s ops)
    (h' : InStage s' ops') : ∀ a ∈ ops, ∀ c ∈ ops', Before a c := by
  intro a ha c hc b hb hout
  have hle := (h a ha).1 b hb
  have heq := (h' c hc).2 b hout
  omega

theorem inStage_tableOps (slsType : SlsType) (tables : ℕ) :
    InStage 1 (tableOps slsType tables) := by
  cases slsType <;> simp [InStage, tableOps, embOps, stage]

theorem inStage_mlpOps {s : ℕ} {l : Mlp} {n k : ℕ} {inp out : Blob} {sigmoidLayer : ℤ}
    (hl : ∀ i, stage (.fc l i .w) ≤ s ∧ stage (.fc l i .b) ≤ s ∧ stage (.fc l i .y) = s ∧
      stage (.fc l i .z) = s) (hinp : stage inp ≤ s) (hout : stage out = s) :
    InStage s (mlpOps l n inp out sigmoidLayer k) := by
  have hz : ∀ i, stage (zBlob l n inp out i) ≤ s := by
    intro i
    rw [zBlob]
    split_ifs
    · exact hinp
    · exact hout.le
    · exact (hl i).2.2.2.le
  have hz' : ∀ i, stage (zBlob l n inp out (i + 1)) = s := by
    intro i
    rw [zBlob, if_neg (Nat.succ_ne_zero i)]
    split_ifs
    · exact hout
    · exact (hl _).2.2.2
  intro op hop
  obtain ⟨i, -, hi⟩ := List.mem_flatMap.mp hop
  simp only [layerOps, List.mem_cons, List.not_mem_nil, or_false] at hi
  obtain ⟨hw, hb, hy, -⟩ := hl (i + 1)
  rcases hi with rfl | rfl
  · simp [hz i, hw, hb, hy]
  · simp [hy, hz' i]

theorem inStage_botOps (n : ℕ) : InStage 2 (botOps n) :=
  inStage_mlpOps (by simp [stage]) (by simp [stage]) rfl

theorem inStage_topOps (n : ℕ) : InStage 4 (topOps n) :=
  inStage_mlpOps (by simp [stage]) (by simp [stage]) rfl

theorem inStage_intOps (tables : ℕ) (op : InteractionOp) : InStage 3 (intOps tables op) := by
  cases op <;> simp [InStage, intOps, embBlob, stage]

theorem inOrder_tableOps (slsType : SlsType) (tables : ℕ) :
    InOrder (tableOps slsType tables) := by
  cases slsType with
  | dram =>
    constructor
    · simp [tableOps, embOps, Before]
    · simp [tableOps, embOps, Before, List.pairwise_map, List.pairwise_of_forall]
  | base => exact InOrder.nil
  | ndp => exact InOrder.nil

theorem inOrder_intOps (tables : ℕ) (op : InteractionOp) : InOrder (intOps tables op) := by
  cases op with
  | dot => constructor <;> simp [intOps, Before, embBlob]
  | cat => constructor <;> simp [intOps, Before, embBlob]
  | other name => exact InOrder.nil

section Layers
variable {l : Mlp} {n i j : ℕ} {inp out : Blob} (sigmoidLayer : ℤ)

/-- The input and the last output are not blobs of the layers. -/
structure Ends (l : Mlp) (inp out : Blob) : Prop where
  inp_ne : ∀ i k, inp ≠ .fc l i k
  out_ne : ∀ i k, out ≠ .fc l i k
  ne : inp ≠ out

theorem Ends.zBlob_ne (h : Ends l inp out) (hij : i < j) (hj : j ≤ n) :
    zBlob l n inp out i ≠ zBlob l n inp out j := by
  rw [zBlob, zBlob, if_neg (by omega : j ≠ 0)]
  split_ifs with h0 h1 h2 h3
  · exact h.ne
  · exact h.inp_ne _ _
  · omega
  · exact h.out_ne _ _
  · exact fun heq => h.out_ne _ _ heq.symm
  · intro heq
    obtain rfl : i = j := by simpa using heq
    omega

theorem Ends.zBlob_ne_fc (h : Ends l inp out) {k : FcBlob} (hk : k ≠ .z) :
    zBlob l n inp out i ≠ .fc l j k := by
  rw [zBlob]
  split_ifs
  · exact h.inp_ne _ _
  · exact h.out_ne _ _
  · simp [hk.symm]

theorem Ends.fc_before (h : Ends l inp out) (hij : i ≤ j) (hj : j < n) :
    ∀ c ∈ layerOps l n inp out sigmoidLayer j,
      Before ⟨.fc, [zBlob l n inp out i, .fc l (i + 1) .w, .fc l (i + 1) .b], [.fc l (i + 1) .y]⟩
        c := by
  intro c hc
  simp only [layerOps, List.mem_cons, List.not_mem_nil, or_false] at hc
  rcases hc with rfl | rfl
  · simp [Before, h.zBlob_ne_fc]
  · have hz := h.zBlob_ne (n := n) (Nat.lt_succ_of_le hij) hj
    have hw := h.zBlob_ne_fc (n := n) (i := j + 1) (j := i + 1) (k := .w) (by decide)
    have hb := h.zBlob_ne_fc (n := n) (i := j + 1) (j := i + 1) (k := .b) (by decide)
    simp [Before, hz, hw.symm, hb.symm]

theorem Ends.activation_before (h : Ends l inp out) (kind : Kind) :
    Before ⟨kind, [.fc l (i + 1) .y], [zBlob l n inp out (i + 1)]⟩
      ⟨activation sigmoidLayer (j + 1), [.fc l (j + 1) .y], [zBlob l n inp out (j + 1)]⟩ := by
  have hy := h.zBlob_ne_fc (n := n) (i := j + 1) (j := i + 1) (k := .y) (by decide)
  simp [Before, hy.symm]

theorem Ends.layer_before (h : Ends l inp out) (hij : i < j) (hj : j < n) :
    ∀ a ∈ layerOps l n inp out sigmoidLayer i, ∀ c ∈ layerOps l n inp out sigmoidLayer j,
      Before a c := by
  intro a ha c hc
  simp only [layerOps, List.mem_cons, List.not_mem_nil, or_false] at ha
  rcases ha with rfl | rfl
  · exact h.fc_before sigmoidLayer hij.le hj c hc
  · simp only [layerOps, List.mem_cons, List.not_mem_nil, or_false] at hc
    rcases hc with rfl | rfl
    · simp [Before]
      omega
    · exact h.activation_before sigmoidLayer _

theorem Ends.inOrder_layerOps (h : Ends l inp out) (hj : j < n) :
    InOrder (layerOps l n inp out sigmoidLayer j) where
  self op hop := by
    have hmem := hop
    simp only [layerOps, List.mem_cons, List.not_mem_nil, or_false] at hop
    rcases hop with rfl | rfl
    · exact h.fc_before sigmoidLayer le_rfl hj _ hmem
    · exact h.activation_before sigmoidLayer _
  pairwise := by
    apply List.Pairwise.cons
    · intro c hc
      exact h.fc_before sigmoidLayer le_rfl hj c (List.mem_cons_of_mem _ hc)
    · exact List.pairwise_singleton _ _

theorem Ends.inOrder_mlpOps (h : Ends l inp out) {k : ℕ} (hk : k ≤ n) :
    InOrder (mlpOps l n inp out sigmoidLayer k) := by
  induction k with
  | zero => exact InOrder.nil
  | succ k ih =>
    rw [mlpOps, List.range_succ, List.flatMap_append, List.flatMap_singleton]
    apply (ih (by omega)).append (h.inOrder_layerOps sigmoidLayer hk)
    intro a ha
    obtain ⟨i, hi, hmem⟩ := List.mem_flatMap.mp ha
    exact h.layer_before sigmoidLayer (List.mem_range.mp hi) hk a hmem

end Layers

theorem inOrder_netOps (slsType : SlsType) (op : InteractionOp) (tables nb nt : ℕ) :
    InOrder (netOps slsType op tables nb nt) := by
  have htable := inStage_tableOps slsType tables
  have hbot := inStage_botOps nb
  have hint := inStage_intOps tables op
  have htop := inStage_topOps nt
  have hbotOrder : InOrder (botOps nb) :=
    Ends.inOrder_mlpOps _ ⟨by simp, by simp, by simp⟩ le_rfl
  have htopOrder : InOrder (topOps nt) :=
    Ends.inOrder_mlpOps _ ⟨by simp, by simp, by simp⟩ le_rfl
  apply InOrder.append _ htopOrder
  · intro a ha
    simp only [List.mem_append] at ha
    rcases ha with (ha | ha) | ha
    · exact htable.before (by decide) htop a ha
    · exact hbot.before (by decide) htop a ha
    · exact hint.before (by decide) htop a ha
  · apply InOrder.append _ (inOrder_intOps tables op)
    · intro a ha
      rcases List.mem_append.mp ha with ha | ha
      · exact htable.before (by decide) hint a ha
      · exact hbot.before (by decide) hint a ha
    · exact (inOrder_tableOps slsType tables).append hbotOrder (htable.before (by decide) hbot)

/-- Stages have different outputs. -/
theorem InStage.disjoint {s s' : ℕ} (hs : s ≠ s') {ops ops' : List BlobOp} (h : InStage s ops)
    (h' : InStage s' ops') :
    ∀ b ∈ ops.flatMap OpDef.outputs, ∀ b' ∈ ops'.flatMap OpDef.outputs, b ≠ b' := by
  rintro b hb _ hb' rfl
  obtain ⟨op, hop, hout⟩ := List.mem_flatMap.mp hb
  obtain ⟨op', hop', hout'⟩ := List.mem_flatMap.mp hb'
  exact hs (((h op hop).2 b hout).symm.trans ((h' op' hop').2 b hout'))

theorem singleAssignment_tableOps (slsType : SlsType) (tables : ℕ) :
    SingleAssignment (tableOps slsType tables) := by
  cases slsType with
  | dram =>
    have houtputs : (tableOps .dram tables).flatMap OpDef.outputs =
        (List.range tables).map fun i => Blob.sls i .z := by
      rw [tableOps, embOps, List.flatMap_map]
      exact List.map_eq_flatMap.symm
    rw [SingleAssignment, houtputs]
    exact List.nodup_range.map fun i j h => by simpa using h
  | base => exact List.nodup_nil
  | ndp => exact List.nodup_nil

theorem singleAssignment_intOps (tables : ℕ) (op : InteractionOp) :
    SingleAssignment (intOps tables op) := by
  cases op <;> simp [SingleAssignment, intOps]

theorem Ends.singleAssignment_mlpOps {l : Mlp} {inp out : Blob} (h : Ends l inp out) (n : ℕ)
    (sigmoidLayer : ℤ) : SingleAssignment (mlpOps l n inp out sigmoidLayer n) := by
  have houtputs : ∀ k, (layerOps l n inp out sigmoidLayer k).flatMap OpDef.outputs =
      [.fc l (k + 1) .y, zBlob l n inp out (k + 1)] := fun k => rfl
  rw [SingleAssignment, mlpOps, List.flatMap_assoc, List.nodup_flatMap]
  simp only [houtputs]
  constructor
  · intro k _
    simpa using (h.zBlob_ne_fc (k := .y) (by decide)).symm
  · apply List.pairwise_lt_range.imp_of_mem
    intro i j _ hj hij
    have hz := h.zBlob_ne (n := n) (Nat.succ_lt_succ hij) (List.mem_range.mp hj)
    have hzy := h.zBlob_ne_fc (n := n) (i := i + 1) (j := j + 1) (k := .y) (by decide)
    have hyz := h.zBlob_ne_fc (n := n) (i := j + 1) (j := i + 1) (k := .y) (by decide)
    simp [Function.onFun, hij.ne', hz.symm, hyz, hzy.symm]

/-- Every blob has one writer. -/
theorem singleAssignment_netOps (slsType : SlsType) (op : InteractionOp) (tables nb nt : ℕ) :
    SingleAssignment (netOps slsType op tables nb nt) := by
  have htable := inStage_tableOps slsType tables
  have hbot := inStage_botOps nb
  have hint := inStage_intOps tables op
  have htop := inStage_topOps nt
  have hbotSingle : SingleAssignment (botOps nb) :=
    Ends.singleAssignment_mlpOps ⟨by simp, by simp, by simp⟩ nb _
  have htopSingle : SingleAssignment (topOps nt) :=
    Ends.singleAssignment_mlpOps ⟨by simp, by simp, by simp⟩ nt _
  simp only [SingleAssignment, netOps, List.flatMap_append, List.nodup_append, List.mem_append]
  refine ⟨⟨⟨singleAssignment_tableOps slsType tables, hbotSingle, htable.disjoint (by decide) hbot⟩,
    singleAssignment_intOps tables op, ?_⟩, htopSingle, ?_⟩
  · rintro b (hb | hb)
    · exact htable.disjoint (by decide) hint b hb
    · exact hbot.disjoint (by decide) hint b hb
  · rintro b ((hb | hb) | hb)
    · exact htable.disjoint (by decide) htop b hb
    · exact hbot.disjoint (by decide) htop b hb
    · exact hint.disjoint (by decide) htop b hb

theorem length_outputs_mlpOps {l : Mlp} {n k : ℕ} {inp out : Blob} {sigmoidLayer : ℤ} {a : BlobOp}
    (ha : a ∈ mlpOps l n inp out sigmoidLayer k) : a.outputs.length = a.kind.outputs := by
  obtain ⟨i, -, hi⟩ := List.mem_flatMap.mp ha
  simp only [layerOps, List.mem_cons, List.not_mem_nil, or_false] at hi
  rcases hi with rfl | rfl
  · rfl
  · rw [activation]
    split_ifs <;> rfl

theorem length_outputs {slsType : SlsType} {op : InteractionOp} {tables nb nt : ℕ} {a : BlobOp}
    (ha : a ∈ netOps slsType op tables nb nt) : a.outputs.length = a.kind.outputs := by
  simp only [netOps, List.mem_append] at ha
  rcases ha with ((ha | ha) | ha) | ha
  · cases slsType with
    | dram =>
      obtain ⟨i, -, rfl⟩ := List.mem_map.mp ha
      rfl
    | base => cases ha
    | ndp => cases ha
  · exact length_outputs_mlpOps ha
  · cases op with
    | dot =>
      simp only [intOps, List.mem_cons, List.not_mem_nil, or_false] at ha
      rcases ha with rfl | rfl | rfl | rfl | rfl <;> rfl
    | cat =>
      obtain rfl := List.mem_singleton.mp ha
      rfl
    | other name => cases ha
  · exact length_outputs_mlpOps ha

end Order

section Written
variable {l : Mlp} {n k : ℕ} {inp out : Blob} {sigmoidLayer : ℤ} {slsType : SlsType}
  {op : InteractionOp} {tables nb nt : ℕ}

def Written (ops : List BlobOp) (c : Blob) : Prop := ∃ op ∈ ops, c ∈ op.outputs

theorem written_y (hk : k < n) : Written (mlpOps l n inp out sigmoidLayer n) (.fc l (k + 1) .y) :=
  ⟨_, List.mem_flatMap.mpr ⟨k, List.mem_range.mpr hk, List.mem_cons_self⟩,
    List.mem_singleton_self _⟩

theorem written_z (hk : k < n) :
    Written (mlpOps l n inp out sigmoidLayer n) (zBlob l n inp out (k + 1)) :=
  ⟨_, List.mem_flatMap.mpr ⟨k, List.mem_range.mpr hk,
    List.mem_cons_of_mem _ (List.mem_singleton_self _)⟩, List.mem_singleton_self _⟩

theorem written_out (hn : 0 < n) : Written (mlpOps l n inp out sigmoidLayer n) out := by
  obtain ⟨k, rfl⟩ : ∃ k, n = k + 1 := ⟨n - 1, by omega⟩
  have h : Written (mlpOps l (k + 1) inp out sigmoidLayer (k + 1))
      (zBlob l (k + 1) inp out (k + 1)) := written_z (Nat.lt_succ_self k)
  rwa [zBlob, if_neg (Nat.succ_ne_zero k), if_pos rfl] at h

theorem mem_inputs_mlpOps {a : BlobOp} (ha : a ∈ mlpOps l n inp out sigmoidLayer n) {b : Blob}
    (hb : b ∈ a.inputs) : ∃ k < n, b = zBlob l n inp out k ∨ b = .fc l (k + 1) .w ∨
      b = .fc l (k + 1) .b ∨ b = .fc l (k + 1) .y := by
  obtain ⟨k, hk, hmem⟩ := List.mem_flatMap.mp ha
  refine ⟨k, List.mem_range.mp hk, ?_⟩
  simp only [layerOps, List.mem_cons, List.not_mem_nil, or_false] at hmem
  rcases hmem with rfl | rfl
  · simp only [List.mem_cons, List.not_mem_nil, or_false] at hb
    tauto
  · exact .inr (.inr (.inr (List.mem_singleton.mp hb)))

theorem Written.append_left {ops : List BlobOp} {c : Blob} (h : Written ops c)
    (ops' : List BlobOp) : Written (ops ++ ops') c := by
  obtain ⟨op, hop, hc⟩ := h
  exact ⟨op, List.mem_append_left _ hop, hc⟩

theorem Written.append_right {ops : List BlobOp} {c : Blob} (h : Written ops c)
    (ops' : List BlobOp) : Written (ops' ++ ops) c := by
  obtain ⟨op, hop, hc⟩ := h
  exact ⟨op, List.mem_append_right _ hop, hc⟩

theorem written_bot {c : Blob} (h : Written (botOps nb) c) :
    Written (netOps slsType op tables nb nt) c :=
  ((h.append_right _).append_left _).append_left _

theorem written_top {c : Blob} (h : Written (topOps nt) c) :
    Written (netOps slsType op tables nb nt) c := h.append_right _

theorem written_int {c : Blob} (h : Written (intOps tables op) c) :
    Written (netOps slsType op tables nb nt) c := (h.append_right _).append_left _

theorem written_table {i : ℕ} (hi : i < tables) :
    Written (netOps .dram op tables nb nt) (.sls i .z) := by
  apply Written.append_left
  apply Written.append_left
  apply Written.append_left
  exact ⟨_, List.mem_map.mpr ⟨i, List.mem_range.mpr hi, rfl⟩, List.mem_singleton_self _⟩

theorem not_written_of_stage {c : Blob} (hc : stage c = 0) :
    ¬ Written (netOps slsType op tables nb nt) c := by
  rintro ⟨a, ha, hout⟩
  have hpos : 0 < stage c := by
    simp only [netOps, List.mem_append] at ha
    rcases ha with ((ha | ha) | ha) | ha
    · rw [(inStage_tableOps slsType tables a ha).2 c hout]
      decide
    · rw [(inStage_botOps nb a ha).2 c hout]
      decide
    · rw [(inStage_intOps tables op a ha).2 c hout]
      decide
    · rw [(inStage_topOps nt a ha).2 c hout]
      decide
  omega

theorem not_written_sls (hsls : slsType ≠ .dram) (i : ℕ) :
    ¬ Written (netOps slsType op tables nb nt) (.sls i .z) := by
  rintro ⟨a, ha, hout⟩
  have hnil : tableOps slsType tables = [] := by
    cases slsType with
    | dram => exact absurd rfl hsls
    | base => rfl
    | ndp => rfl
  simp only [netOps, hnil, List.mem_append, List.not_mem_nil, false_or] at ha
  rcases ha with (ha | ha) | ha
  · exact absurd ((inStage_botOps nb a ha).2 _ hout) (by simp [stage])
  · exact absurd ((inStage_intOps tables op a ha).2 _ hout) (by simp [stage])
  · exact absurd ((inStage_topOps nt a ha).2 _ hout) (by simp [stage])

end Written

end EbpfIsp.Network
