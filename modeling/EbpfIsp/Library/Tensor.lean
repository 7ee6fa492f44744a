import Mathlib.Algebra.BigOperators.Group.List.Basic
import Mathlib.Data.List.GetD
import Mathlib.Tactic

/-! # Tensors by rows

A tensor is a list of rows, one per index of its first dimension, each in
row-major order over the other dimensions. The operations are those of a
network with the batch in the first dimension: all of them work row by row, and
all of them are partial, since the dimensions have to fit. What is done to one
row is a parameter, with no laws but those on lengths, so the numbers may round.
-/

namespace EbpfIsp.Library

@[ext]
structure Tensor (α : Type) where
  /-- The dimensions after the first. -/
  inner : List ℕ
  rows : List (List α)
  length_row : ∀ r ∈ rows, r.length = inner.prod

section Parts
variable {α : Type} {k : ℕ} {parts : List (List α)}

/-- Part `i` of a row that is cut into parts of length `k`. -/
def chunk (k i : ℕ) (r : List α) : List α := (r.drop (i * k)).take k

theorem length_chunk {r : List α} {i n : ℕ} (hr : r.length = n * k) (hi : i < n) :
    (chunk k i r).length = k := by
  have hle : (i + 1) * k ≤ n * k := Nat.mul_le_mul_right k hi
  rw [Nat.add_mul] at hle
  rw [chunk, List.length_take, List.length_drop]
  omega

theorem length_flatten_of_forall (h : ∀ p ∈ parts, p.length = k) :
    parts.flatten.length = parts.length * k := by
  rw [List.length_flatten, List.map_congr_left h, List.map_const', List.sum_replicate, smul_eq_mul]

theorem chunk_flatten (h : ∀ p ∈ parts, p.length = k) {i : ℕ} (hi : i < parts.length) :
    chunk k i parts.flatten = parts.getD i [] := by
  induction parts generalizing i with
  | nil => cases hi
  | cons p parts ih =>
    have hp : p.length = k := h p List.mem_cons_self
    cases i with
    | zero =>
      rw [chunk, Nat.zero_mul, List.drop_zero, List.flatten_cons, List.getD_cons_zero]
      exact List.take_left' hp
    | succ i =>
      have hdrop : (p ++ parts.flatten).drop ((i + 1) * k) = parts.flatten.drop (i * k) := by
        rw [Nat.add_mul, Nat.one_mul, Nat.add_comm, ← List.drop_drop, ← hp, List.drop_left]
      rw [chunk, List.flatten_cons, hdrop, List.getD_cons_succ]
      exact ih (fun q hq => h q (List.mem_cons_of_mem _ hq)) (Nat.lt_of_succ_lt_succ hi)

theorem length_flatten_map {β : Type} (l : List β) (f : β → List α)
    (h : ∀ b ∈ l, (f b).length = k) : (l.map f).flatten.length = l.length * k := by
  rw [length_flatten_of_forall (by simpa using h), List.length_map]

theorem chunk_flatten_range {n : ℕ} {f : ℕ → List α} (h : ∀ i < n, (f i).length = k) {i : ℕ}
    (hi : i < n) : chunk k i ((List.range n).map f).flatten = f i := by
  rw [chunk_flatten (by simpa using h) (by simpa using hi)]
  simp [List.getD_eq_getElem?_getD, hi]

theorem chunk_one_flatten {n i j : ℕ} (hi : i < n) (hj : j < n) (g : ℕ → ℕ → α) :
    chunk 1 (j + i * n) ((List.range n).map fun i => (List.range n).map (g i)).flatten =
      [g i j] := by
  have hrow : chunk n i ((List.range n).map fun i => (List.range n).map (g i)).flatten =
      (List.range n).map (g i) := chunk_flatten_range (by simp) hi
  have hsplit : ∀ r : List α, chunk 1 (j + i * n) r = chunk 1 j (chunk n i r) := by
    intro r
    rw [chunk, chunk, chunk, Nat.mul_one, Nat.mul_one, List.drop_take, List.drop_drop,
      List.take_take, Nat.min_eq_left (by omega), Nat.add_comm]
  rw [hsplit, hrow, chunk, Nat.mul_one, List.take_one_drop_eq_of_lt_length (by simpa using hj)]
  simp

end Parts

/-- What the operations do to the rows of one sample. -/
structure RowOps (α : Type) where
  layer (weights bias : Tensor α) (x : List α) : List α
  relu : α → α
  sigmoid : α → α
  dot : List α → List α → α
  sum (n : ℕ) (rows : List (List α)) : List α
  length_layer (w b : Tensor α) (x : List α) : (layer w b x).length = w.rows.length
  length_sum (n : ℕ) (rows : List (List α)) : (sum n rows).length = n

namespace Tensor

variable {α : Type}

def row (t : Tensor α) (j : ℕ) : List α := t.rows.getD j []

theorem length_row_of_lt (t : Tensor α) {j : ℕ} (hj : j < t.rows.length) :
    (t.row j).length = t.inner.prod := by
  rw [row, List.getD_eq_getElem _ _ hj]
  exact t.length_row _ (List.getElem_mem hj)

theorem rows_eq_range (t : Tensor α) : t.rows = (List.range t.rows.length).map t.row := by
  apply List.ext_getElem
  · simp
  · intro j hj _
    simp [row, List.getElem?_eq_getElem hj]

/-- A tensor with given rows, if these have the length that the dimensions ask for. -/
def ofFn (inner : List ℕ) (n : ℕ) (f : ℕ → List α) : Option (Tensor α) :=
  if h : ∀ r ∈ (List.range n).map f, r.length = inner.prod then
    some ⟨inner, (List.range n).map f, h⟩
  else none

theorem ofFn_eq_some {inner : List ℕ} {n : ℕ} {f : ℕ → List α}
    (h : ∀ j < n, (f j).length = inner.prod) :
    ∃ t : Tensor α, ofFn inner n f = some t ∧ t.inner = inner ∧ t.rows = (List.range n).map f :=
  ⟨_, dif_pos (by simpa using h), rfl, rfl⟩

theorem row_of_rows {t : Tensor α} {n : ℕ} {f : ℕ → List α} (h : t.rows = (List.range n).map f)
    {j : ℕ} (hj : j < n) : t.row j = f j := by
  rw [row, h]
  simp [List.getD_eq_getElem?_getD, hj]

section Elementwise

def map (f : α → α) (t : Tensor α) : Tensor α :=
  ⟨t.inner, t.rows.map (List.map f), by simpa using t.length_row⟩

def flatten (t : Tensor α) : Tensor α := ⟨[t.inner.prod], t.rows, by simpa using t.length_row⟩

end Elementwise

section Product
variable (ops : RowOps α)

def fc (x w b : Tensor α) : Option (Tensor α) :=
  if w.inner.prod = x.inner.prod ∧ b.inner = [] ∧ b.rows.length = w.rows.length then
    some ⟨[w.rows.length], x.rows.map (ops.layer w b), by simp [ops.length_layer]⟩
  else none

theorem fc_eq_some {x w b y : Tensor α} (hin : w.inner.prod = x.inner.prod) (hb : b.inner = [])
    (hlen : b.rows.length = w.rows.length) (hinner : y.inner = [w.rows.length])
    (hrows : y.rows = x.rows.map (ops.layer w b)) : fc ops x w b = some y := by
  rw [fc, if_pos ⟨hin, hb, hlen⟩]
  exact congrArg some (Tensor.ext hinner.symm hrows.symm)

def products (m n k : ℕ) (x y : List α) : List α :=
  ((List.range m).map fun i => (List.range n).map fun l =>
    ops.dot (chunk k i x) (chunk k l y)).flatten

theorem length_products (m n k : ℕ) (x y : List α) : (products ops m n k x y).length = m * n := by
  rw [products, length_flatten_map (k := n) _ _ (by simp), List.length_range]

/-- The products of a batch of matrices with the transposes of another. -/
def batchMatMul (x y : Tensor α) : Option (Tensor α) :=
  match x.inner, y.inner with
  | [m, k], [n, k'] =>
    if k = k' ∧ x.rows.length = y.rows.length then
      some ⟨[m, n], (List.range x.rows.length).map fun j =>
        products ops m n k (x.row j) (y.row j), by simp [length_products]⟩
    else none
  | _, _ => none

theorem batchMatMul_eq_some {x y z : Tensor α} {m n k : ℕ} (hx : x.inner = [m, k])
    (hy : y.inner = [n, k]) (hlen : x.rows.length = y.rows.length) (hinner : z.inner = [m, n])
    (hrows : z.rows = (List.range x.rows.length).map fun j =>
      products ops m n k (x.row j) (y.row j)) : batchMatMul ops x y = some z := by
  simp only [batchMatMul, hx, hy, true_and, if_pos hlen]
  exact congrArg some (Tensor.ext hinner.symm hrows.symm)

/-- The products of the parts of two rows, with one part per index. -/
theorem products_flatten {n k : ℕ} {f : ℕ → List α} (hf : ∀ i < n, (f i).length = k) :
    products ops n n k ((List.range n).map f).flatten ((List.range n).map f).flatten =
      ((List.range n).map fun i => (List.range n).map fun l => ops.dot (f i) (f l)).flatten := by
  rw [products]
  congr 1
  apply List.map_congr_left
  intro i hi
  apply List.map_congr_left
  intro l hl
  rw [chunk_flatten_range hf (List.mem_range.mp hi), chunk_flatten_range hf (List.mem_range.mp hl)]

end Product

section Concat

/-- Whether a tensor fits to the first of a concatenation along the second dimension. -/
def Fits (addAxis : Bool) (t u : Tensor α) : Prop :=
  u.rows.length = t.rows.length ∧
    if addAxis then u.inner = t.inner else u.inner ≠ [] ∧ u.inner.tail = t.inner.tail

instance (addAxis : Bool) (t u : Tensor α) : Decidable (Fits addAxis t u) :=
  inferInstanceAs (Decidable (_ ∧ ite _ _ _))

/-- The sizes of the parts along the second dimension; with `addAxis` every part is one slice of
a new dimension. -/
def axisSizes (addAxis : Bool) (ts : List (Tensor α)) : List ℕ :=
  ts.map fun u => if addAxis then 1 else u.inner.headD 0

def outerInner (addAxis : Bool) (t : Tensor α) : List ℕ :=
  if addAxis then t.inner else t.inner.tail

def joined (ts : List (Tensor α)) (j : ℕ) : List α := (ts.map fun u => u.row j).flatten

theorem length_joined {addAxis : Bool} {t : Tensor α} {ts : List (Tensor α)}
    (h : ∀ u ∈ ts, Fits addAxis t u) {j : ℕ} (hj : j < t.rows.length) :
    (joined ts j).length = (axisSizes addAxis ts).sum * (outerInner addAxis t).prod := by
  induction ts with
  | nil => simp [joined, axisSizes]
  | cons u ts ih =>
    have hrest := ih fun v hv => h v (List.mem_cons_of_mem _ hv)
    have hu := h u List.mem_cons_self
    have hlen := u.length_row_of_lt (hu.1 ▸ hj)
    have hprod : u.inner.prod =
        (if addAxis then 1 else u.inner.headD 0) * (outerInner addAxis t).prod := by
      cases addAxis with
      | true =>
        have heq : u.inner = t.inner := hu.2
        simp [outerInner, heq]
      | false =>
        obtain ⟨hne, htail⟩ : u.inner ≠ [] ∧ u.inner.tail = t.inner.tail := hu.2
        obtain ⟨d, rest, hd⟩ := List.exists_cons_of_ne_nil hne
        rw [hd] at htail
        simp [outerInner, ← htail, hd]
    simp only [joined, axisSizes, List.map_cons, List.flatten_cons, List.length_append,
      List.sum_cons, Nat.add_mul] at hrest ⊢
    rw [hrest, hlen, hprod]

def concat (addAxis : Bool) : List (Tensor α) → Option (Tensor α × List ℕ)
  | [] => none
  | t :: ts =>
    if h : ∀ u ∈ t :: ts, Fits addAxis t u then
      some (⟨(axisSizes addAxis (t :: ts)).sum :: outerInner addAxis t,
        (List.range t.rows.length).map (joined (t :: ts)), by
          simpa using fun j hj => length_joined h hj⟩, axisSizes addAxis (t :: ts))
    else none

theorem concat_eq_some {addAxis : Bool} {t y : Tensor α} {ts : List (Tensor α)}
    (h : ∀ u ∈ t :: ts, Fits addAxis t u)
    (hinner : y.inner = (axisSizes addAxis (t :: ts)).sum :: outerInner addAxis t)
    (hrows : y.rows = (List.range t.rows.length).map (joined (t :: ts))) :
    concat addAxis (t :: ts) = some (y, axisSizes addAxis (t :: ts)) := by
  rw [concat, dif_pos h]
  exact congrArg (fun y => some (y, axisSizes addAxis (t :: ts)))
    (Tensor.ext hinner.symm hrows.symm)

end Concat

section Gather

def batchGather (t : Tensor α) (idx : List ℕ) : Option (Tensor α) :=
  match hinner : t.inner with
  | [] => none
  | d :: rest =>
    if h : ∀ i ∈ idx, i < d then
      some ⟨idx.length :: rest, t.rows.map fun r => (idx.map fun i => chunk rest.prod i r).flatten,
        by
          simp only [List.mem_map, forall_exists_index, and_imp, forall_apply_eq_imp_iff₂]
          intro r hr
          have hlen := t.length_row r hr
          rw [hinner, List.prod_cons] at hlen
          rw [length_flatten_map idx _ fun i hi => length_chunk hlen (h i hi), List.prod_cons]⟩
    else none

theorem batchGather_eq_some {t y : Tensor α} {idx : List ℕ} {d : ℕ} (ht : t.inner = [d])
    (hidx : ∀ i ∈ idx, i < d) (hinner : y.inner = [idx.length])
    (hrows : y.rows = t.rows.map fun r => (idx.map fun i => chunk 1 i r).flatten) :
    batchGather t idx = some y := by
  unfold batchGather
  split
  · rename_i hnil
    rw [ht] at hnil
    cases hnil
  · rename_i d' rest hcons
    obtain ⟨rfl, rfl⟩ : d = d' ∧ [] = rest := by simpa [ht] using hcons
    rw [dif_pos hidx]
    exact congrArg some (Tensor.ext hinner.symm hrows.symm)

end Gather

section Segments

def segments : List ℕ → List ℕ → List (List ℕ)
  | [], _ => []
  | l :: ls, idx => idx.take l :: segments ls (idx.drop l)

theorem length_segments (ls idx : List ℕ) : (segments ls idx).length = ls.length := by
  induction ls generalizing idx with
  | nil => rfl
  | cons l ls ih => rw [segments, List.length_cons, ih, List.length_cons]

theorem map_segments {β : Type} (f : List ℕ → β) (ls idx : List ℕ) : (segments ls idx).map f =
    (List.range ls.length).map fun j => f ((segments ls idx).getD j []) := by
  apply List.ext_getElem
  · simp [length_segments]
  · intro j hj _
    rw [List.length_map] at hj
    simp [List.getElem?_eq_getElem hj]

variable (ops : RowOps α)

def sumRows (t : Tensor α) (idx : List ℕ) : List α := ops.sum t.inner.prod (idx.map t.row)

def sparseLengthsSum (t : Tensor α) (idx lengths : List ℕ) : Option (Tensor α) :=
  if lengths.sum = idx.length ∧ ∀ i ∈ idx, i < t.rows.length then
    some ⟨t.inner, (segments lengths idx).map (sumRows ops t), by simp [sumRows, ops.length_sum]⟩
  else none

theorem sparseLengthsSum_eq_some {t y : Tensor α} {idx lengths : List ℕ}
    (hsum : lengths.sum = idx.length) (hidx : ∀ i ∈ idx, i < t.rows.length)
    (hinner : y.inner = t.inner) (hrows : y.rows = (segments lengths idx).map (sumRows ops t)) :
    sparseLengthsSum ops t idx lengths = some y := by
  rw [sparseLengthsSum, if_pos ⟨hsum, hidx⟩]
  exact congrArg some (Tensor.ext hinner.symm hrows.symm)

end Segments

end Tensor

def RowOps.rational (sigmoid : ℚ → ℚ) : RowOps ℚ where
  layer w b x := (List.range w.rows.length).map fun i =>
    (List.zipWith (· * ·) x (w.row i)).sum + (b.row i).headD 0
  relu a := max a 0
  sigmoid := sigmoid
  dot x y := (List.zipWith (· * ·) x y).sum
  sum n rows := (List.range n).map fun k => (rows.map fun r => r.getD k 0).sum
  length_layer _ _ _ := by simp
  length_sum _ _ := by simp

end EbpfIsp.Library
