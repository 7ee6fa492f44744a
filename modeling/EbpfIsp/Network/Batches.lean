import EbpfIsp.Network.Graph

/-! # Operators on batches

Every operator of the network works sample by sample. A blob holds a batch if
row `j` of its tensor is a given function of `j`; for each kind of operator
there is the function of the output in terms of those of the inputs.
-/

namespace EbpfIsp.Network
open Library Recsys Dataflow

section Batch
variable {α : Type} {A : Arithmetic α} {m B : ℕ} {v : Option (Value α m)} {inner : List ℕ}
  {f : ℕ → List α}

/-- The value is a tensor with the rows `f 0, …, f (B - 1)`. -/
def HasRows (A : Arithmetic α) (B : ℕ) (v : Option (Value α m)) (inner : List ℕ)
    (f : ℕ → List α) : Prop :=
  ∃ v' t, v = some v' ∧ v'.tensor A = some t ∧ t.inner = inner ∧ t.rows = (List.range B).map f

def batchOf (B : ℕ) (inner : List ℕ) (f : ℕ → List α) : Option (Value α m) :=
  (Tensor.ofFn inner B f).map .dense

theorem batchOf_eq_some (h : ∀ j < B, (f j).length = inner.prod) : ∃ t : Tensor α,
    (batchOf B inner f : Option (Value α m)) = some (.dense t) ∧ t.inner = inner ∧
      t.rows = (List.range B).map f := by
  obtain ⟨t, ht, hinner, hrows⟩ := Tensor.ofFn_eq_some h
  exact ⟨t, by rw [batchOf, ht, Option.map_some], hinner, hrows⟩

theorem batchOf_congr {g : ℕ → List α} (h : ∀ j < B, f j = g j) :
    (batchOf B inner f : Option (Value α m)) = batchOf B inner g := by
  have hmap : (List.range B).map f = (List.range B).map g :=
    List.map_congr_left fun j hj => h j (List.mem_range.mp hj)
  simp only [batchOf, Tensor.ofFn, hmap]

theorem hasRows_dense {t : Tensor α} (hinner : t.inner = inner) :
    HasRows A (m := m) t.rows.length (some (.dense t)) inner t.row :=
  ⟨_, t, rfl, rfl, hinner, t.rows_eq_range⟩

theorem hasRows_batchOf (h : ∀ j < B, (f j).length = inner.prod) :
    HasRows A (m := m) B (batchOf B inner f) inner f := by
  obtain ⟨t, ht, hinner, hrows⟩ := batchOf_eq_some h
  exact ⟨_, t, ht, rfl, hinner, hrows⟩

theorem HasRows.length (h : HasRows A B v inner f) {j : ℕ} (hj : j < B) :
    (f j).length = inner.prod := by
  obtain ⟨-, t, -, -, hinner, hrows⟩ := h
  rw [← hinner]
  apply t.length_row
  rw [hrows]
  exact List.mem_map_of_mem (List.mem_range.mpr hj)

end Batch

section Kinds
variable {α : Type} {A : Arithmetic α} {m B : ℕ} {kernel : OpKernel α m}
  {W : Blob → Option (Value α m)} {inner : List ℕ}
  {f : ℕ → List α} {a b w y : Blob}

theorem solvesOp_fc (hk : kernel.Computes A) {tw tb : Tensor α} (ha : HasRows A B (W a) inner f)
    (hw : W w = some (.dense tw)) (hb : W b = some (.dense tb))
    (hin : tw.inner.prod = inner.prod) (hbias : tb.inner = [])
    (hlen : tb.rows.length = tw.rows.length)
    (hy : W y = batchOf B [tw.rows.length] fun j => A.layer tw tb (f j)) :
    SolvesOp kernel W ⟨.fc, [a, w, b], [y]⟩ := by
  have hrow : ∀ j < B, (A.layer tw tb (f j)).length = [tw.rows.length].prod := by
    intro j _
    rw [A.length_layer, List.prod_singleton]
  obtain ⟨v, t, hv, ht, htin, htrows⟩ := ha
  obtain ⟨u, hu, huin, hurows⟩ := batchOf_eq_some (m := m) hrow
  have hfc : kernel .fc [v, .dense tw, .dense tb] = .ok [.dense u] := by
    apply hk.fc ht rfl rfl (by rw [hin, htin]) hbias hlen huin
    rw [hurows, htrows, List.map_map]
    rfl
  refine ⟨_, _, ?_, hfc, ?_⟩
  · simp [hv, hw, hb]
  · simp [hy, hu]

theorem solvesOp_map {kind : Kind} {g : α → α} (ha : HasRows A B (W a) inner f)
    (hkind : ∀ (v : Value α m) t, v.tensor A = some t → kernel kind [v] = .ok [.dense (t.map g)])
    (hy : W y = batchOf B inner fun j => (f j).map g) :
    SolvesOp kernel W ⟨kind, [a], [y]⟩ := by
  have hlen : ∀ j < B, ((f j).map g).length = inner.prod := by
    intro j hj
    rw [List.length_map, ha.length hj]
  obtain ⟨v, t, hv, ht, htin, htrows⟩ := ha
  obtain ⟨u, hu, huin, hurows⟩ := batchOf_eq_some (m := m) hlen
  have hmap : t.map g = u := by
    apply Tensor.ext
    · exact htin.trans huin.symm
    · change t.rows.map (List.map g) = u.rows
      rw [hurows, htrows, List.map_map]
      rfl
  refine ⟨[v], [.dense u], ?_, ?_, ?_⟩
  · simp [hv]
  · rw [hkind v t ht, hmap]
  · simp [hy, hu]

theorem solvesOp_batchMatMul (hk : kernel.Computes A) {n k : ℕ} (ha : HasRows A B (W a) [n, k] f)
    (hy : W y = batchOf B [n, n] fun j => Tensor.products A.toRowOps n n k (f j) (f j)) :
    SolvesOp kernel W ⟨.batchMatMul, [a, a], [y]⟩ := by
  have hlen : ∀ j < B, (Tensor.products A.toRowOps n n k (f j) (f j)).length = [n, n].prod := by
    intro j _
    rw [Tensor.length_products, List.prod_cons, List.prod_singleton]
  obtain ⟨v, t, hv, ht, htin, htrows⟩ := ha
  obtain ⟨u, hu, huin, hurows⟩ := batchOf_eq_some (m := m) hlen
  have hmul : kernel .batchMatMul [v, v] = .ok [.dense u] := by
    apply hk.batchMatMul ht ht htin htin rfl huin
    have hB : t.rows.length = B := by simp [htrows]
    rw [hurows, hB]
    apply List.map_congr_left
    intro j hj
    rw [Tensor.row_of_rows htrows (List.mem_range.mp hj)]
  refine ⟨_, _, ?_, hmul, ?_⟩
  · simp [hv]
  · simp [hy, hu]

theorem solvesOp_flatten (hk : kernel.Computes A) (ha : HasRows A B (W a) inner f)
    (hy : W y = batchOf B [inner.prod] f) : SolvesOp kernel W ⟨.flatten, [a], [y]⟩ := by
  have hlen : ∀ j < B, (f j).length = [inner.prod].prod := by
    intro j hj
    rw [List.prod_singleton, ha.length hj]
  obtain ⟨v, t, hv, ht, htin, htrows⟩ := ha
  obtain ⟨u, hu, huin, hurows⟩ := batchOf_eq_some (m := m) hlen
  have hflat : t.flatten = u := by
    apply Tensor.ext
    · rw [huin, ← htin]
      rfl
    · rw [hurows, ← htrows]
      rfl
  refine ⟨_, _, ?_, hk.flatten ht, ?_⟩
  · simp [hv]
  · simp [hy, hu, hflat]

theorem solvesOp_batchGather (hk : kernel.Computes A) {d : ℕ} {idx : List ℕ}
    (ha : HasRows A B (W a) [d] f) (hidx : W b = some (.ints idx)) (hlt : ∀ i ∈ idx, i < d)
    (hy : W y = batchOf B [idx.length] fun j => (idx.map fun i => chunk 1 i (f j)).flatten) :
    SolvesOp kernel W ⟨.batchGather, [a, b], [y]⟩ := by
  have hlen : ∀ j < B, ((idx.map fun i => chunk 1 i (f j)).flatten).length = [idx.length].prod := by
    intro j hj
    have hd : (f j).length = d * 1 := by simpa using ha.length hj
    rw [length_flatten_map idx _ fun i hi => length_chunk hd (hlt i hi), List.prod_singleton,
      Nat.mul_one]
  obtain ⟨v, t, hv, ht, htin, htrows⟩ := ha
  obtain ⟨u, hu, huin, hurows⟩ := batchOf_eq_some (m := m) hlen
  have hgather : kernel .batchGather [v, .ints idx] = .ok [.dense u] := by
    apply hk.batchGather ht rfl htin hlt huin
    rw [hurows, htrows, List.map_map]
    rfl
  refine ⟨_, _, ?_, hgather, ?_⟩
  · simp [hv, hidx]
  · simp [hy, hu]

theorem solvesOp_sparseLengthsSum (hk : kernel.Computes A) {t : Tensor α} {idx lengths : List ℕ}
    (hw : W w = some (.dense t)) (ha : W a = some (.ints idx)) (hb : W b = some (.ints lengths))
    (hsum : lengths.sum = idx.length) (hlt : ∀ i ∈ idx, i < t.rows.length)
    (hf : (Tensor.segments lengths idx).map (Tensor.sumRows A.toRowOps t) = (List.range B).map f)
    (hy : W y = batchOf B t.inner f) :
    SolvesOp kernel W ⟨.sparseLengthsSum, [w, a, b], [y]⟩ := by
  have hlen : ∀ j < B, (f j).length = t.inner.prod := by
    intro j hj
    have hmem : f j ∈ (Tensor.segments lengths idx).map (Tensor.sumRows A.toRowOps t) := by
      rw [hf]
      exact List.mem_map_of_mem (List.mem_range.mpr hj)
    obtain ⟨seg, -, heq⟩ := List.mem_map.mp hmem
    rw [← heq, Tensor.sumRows, A.length_sum]
  obtain ⟨u, hu, huin, hurows⟩ := batchOf_eq_some (m := m) hlen
  have hsls : kernel .sparseLengthsSum [.dense t, .ints idx, .ints lengths] = .ok [.dense u] :=
    hk.sparseLengthsSum rfl rfl rfl hsum hlt huin (hurows.trans hf.symm)
  refine ⟨_, _, ?_, hsls, ?_⟩
  · simp [hw, ha, hb]
  · simp [hy, hu]

end Kinds

section Concat
variable {α : Type} {A : Arithmetic α} {m B : ℕ} {kernel : OpKernel α m}
  {W : Blob → Option (Value α m)} {D : Blob → List ℕ}
  {F : Blob → ℕ → List α} {cs : List Blob}

theorem exists_tensors (h : ∀ c ∈ cs, HasRows A B (W c) (D c) (F c)) :
    ∃ (vs : List (Value α m)) (ts : List (Tensor α)), cs.map W = vs.map some ∧
      vs.mapM (Value.tensor A) = some ts ∧
      List.Forall₂ (fun c t => t.inner = D c ∧ t.rows = (List.range B).map (F c)) cs ts := by
  induction cs with
  | nil => exact ⟨[], [], rfl, rfl, .nil⟩
  | cons c cs ih =>
    obtain ⟨v, t, hv, ht, hinner, hrows⟩ := h c List.mem_cons_self
    obtain ⟨vs, ts, hvs, hts, hall⟩ := ih fun c' hc' => h c' (List.mem_cons_of_mem _ hc')
    refine ⟨v :: vs, t :: ts, ?_, ?_, .cons ⟨hinner, hrows⟩ hall⟩
    · rw [List.map_cons, List.map_cons, hv, hvs]
    · simp [List.mapM_cons, ht, hts]

theorem joined_eq {ts : List (Tensor α)} {j : ℕ} (hj : j < B)
    (h : List.Forall₂ (fun c t => t.inner = D c ∧ t.rows = (List.range B).map (F c)) cs ts) :
    Tensor.joined ts j = (cs.map fun c => F c j).flatten := by
  rw [Tensor.joined]
  congr 1
  induction h with
  | nil => rfl
  | cons hct _ ih => rw [List.map_cons, List.map_cons, ih, Tensor.row_of_rows hct.2 hj]

theorem axisSizes_eq (addAxis : Bool) {ts : List (Tensor α)}
    (h : List.Forall₂ (fun c t => t.inner = D c ∧ t.rows = (List.range B).map (F c)) cs ts) :
    Tensor.axisSizes addAxis ts = cs.map fun c => if addAxis then 1 else (D c).headD 0 := by
  rw [Tensor.axisSizes]
  induction h with
  | nil => rfl
  | cons hct _ ih => rw [List.map_cons, List.map_cons, ih, hct.1]

theorem forall_tensors {P : List ℕ → Prop} {ts : List (Tensor α)}
    (h : List.Forall₂ (fun c t => t.inner = D c ∧ t.rows = (List.range B).map (F c)) cs ts)
    (hcs : ∀ c ∈ cs, P (D c)) : ∀ t ∈ ts, t.rows.length = B ∧ P t.inner := by
  induction h with
  | nil => simp
  | @cons c t cs ts hct _ ih =>
    rw [List.forall_mem_cons] at hcs ⊢
    refine ⟨⟨by simp [hct.2], ?_⟩, ih hcs.2⟩
    rw [hct.1]
    exact hcs.1

/-- The dimensions fit to a concatenation with the dimensions `outer` behind the joined one. -/
def JoinsTo (addAxis : Bool) (outer dims : List ℕ) : Prop :=
  if addAxis then dims = outer else dims ≠ [] ∧ dims.tail = outer

theorem solvesOp_concat (hk : kernel.Computes A) {addAxis : Bool} {c y info : Blob}
    (outer sizes : List ℕ)
    (h : ∀ c' ∈ c :: cs, HasRows A B (W c') (D c') (F c'))
    (hfits : ∀ c' ∈ c :: cs, JoinsTo addAxis outer (D c'))
    (hsizes : ((c :: cs).map fun c' => if addAxis then 1 else (D c').headD 0) = sizes)
    (hy : W y = batchOf B (sizes.sum :: outer) fun j => ((c :: cs).map fun c' => F c' j).flatten)
    (hinfo : W info = some (.ints sizes)) :
    SolvesOp kernel W ⟨.concat addAxis, c :: cs, [y, info]⟩ := by
  obtain ⟨vs, ts, hvs, hts, hall⟩ := exists_tensors h
  have hjoins := forall_tensors hall hfits
  have haxis := (axisSizes_eq addAxis hall).trans hsizes
  have hjoined := fun j (hj : j < B) => joined_eq hj hall
  obtain ⟨t, ts, rfl⟩ : ∃ t ts', ts = t :: ts' := by
    cases hall
    exact ⟨_, _, rfl⟩
  obtain ⟨hB, ht⟩ := hjoins t List.mem_cons_self
  have houter : Tensor.outerInner addAxis t = outer := by
    cases addAxis with
    | true => exact ht
    | false => exact ht.2
  have hfit : ∀ u ∈ t :: ts, Tensor.Fits addAxis t u := by
    intro u hu
    obtain ⟨huB, hu'⟩ := hjoins u hu
    refine ⟨huB.trans hB.symm, ?_⟩
    cases addAxis with
    | true => exact hu'.trans (Eq.symm ht)
    | false => exact ⟨hu'.1, hu'.2.trans ht.2.symm⟩
  have hlen : ∀ j < B,
      ((c :: cs).map fun c' => F c' j).flatten.length = (sizes.sum :: outer).prod := by
    intro j hj
    rw [← hjoined j hj, Tensor.length_joined hfit (hB.symm ▸ hj), haxis, houter, List.prod_cons]
  obtain ⟨u, hu, huin, hurows⟩ := batchOf_eq_some (m := m) hlen
  have hconcat : kernel (.concat addAxis) vs = .ok [.dense u, .ints sizes] := by
    rw [← haxis] at huin ⊢
    apply hk.concat hts hfit
    · rw [huin, houter]
    · rw [hurows, hB]
      apply List.map_congr_left
      intro j hj
      exact (hjoined j (List.mem_range.mp hj)).symm
  refine ⟨vs, _, hvs, hconcat, ?_⟩
  change [W y, W info] = _
  rw [hy, hu, hinfo]
  rfl

end Concat

end EbpfIsp.Network
