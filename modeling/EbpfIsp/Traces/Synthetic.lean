import EbpfIsp.Recsys.HitRates
import EbpfIsp.Traces.RoundTrip

/-! # Synthetic inputs

`generate_synthetic_input_data` generates a trace for every table, throws its
first half away and cuts the rest into groups of `num_indices_per_lookup`
indices. A group with an index outside the table is reduced modulo the size of
the table. The size of the last group is the size of the next one, in all
loops, so a short group would change all later cuts; none is short.
-/

namespace EbpfIsp.Traces
open Library

def astypeInt32 (x : ℤ) : ℤ := (BitVec.ofInt 32 x).toInt

structure TableInput where
  size : ℕ
  lineAccesses : List ℕ
  listSd : List ℕ
  cummSd : List ℚ

/-- The guarded indices of one group; `np.min` of nothing raises. -/
def sparseGroup (size : ℕ) (r : List ℕ) : Py (List ℤ) :=
  let group := r.map fun x : ℕ => astypeInt32 x
  match group.min?, group.max? with
  | some minsg, some maxsg =>
    if minsg < 0 ∨ (size : ℤ) ≤ maxsg then return group.map fun x => astypeInt32 (x % size)
    else return group
  | _, _ => throw .valueError

structure Groups where
  sparseGroupSize : ℕ
  lengths : List ℕ
  indices : List ℤ

/-- The samples of batch `j` for one table. -/
def batchTable (size : ℕ) (perTable : List ℕ) (miniBatchSize j sparseGroupSize : ℕ) : Py Groups :=
  forLoop miniBatchSize (fun k acc => do
    let base := j * (miniBatchSize * acc.sparseGroupSize)
    let r := (perTable.take (base + (k + 1) * acc.sparseGroupSize)).drop
      (base + k * acc.sparseGroupSize)
    let group ← sparseGroup size r
    return ⟨group.length, acc.lengths ++ [group.length], acc.indices ++ group⟩)
    ⟨sparseGroupSize, [], []⟩

structure Inputs where
  sparseGroupSize : ℕ
  lSLengths : List (List ℕ)
  lSIndices : List (List ℤ)

def batchTables (miniBatchSize j : ℕ) (tables : List (ℕ × List ℕ)) (sparseGroupSize : ℕ) :
    Py Inputs :=
  tables.foldlM (fun acc t => do
    let groups ← batchTable t.1 t.2 miniBatchSize j acc.sparseGroupSize
    return ⟨groups.sparseGroupSize, acc.lSLengths ++ [groups.lengths],
      acc.lSIndices ++ [groups.indices]⟩) ⟨sparseGroupSize, [], []⟩

def tableTrace (numBatches miniBatchSize numIndicesPerLookup : ℕ) (fixed enablePadding : Bool)
    (t : TableInput) (u : ℕ → ℚ) : Py (List ℕ) :=
  let total := numBatches * numIndicesPerLookup * miniBatchSize
  if fixed then do
    let indices ← DLRMDataGenerator.traceGenerateLru numIndicesPerLookup t.lineAccesses t.listSd
      t.cummSd (2 * total) enablePadding u
    return indices.drop total
  else throw .nameError

/-- `generate_synthetic_input_data` without the dense features: the lengths and indices by batch
and table. `u i` are the draws for table `i`. -/
def generateSyntheticInputData (numBatches miniBatchSize numIndicesPerLookup : ℕ)
    (fixed enablePadding : Bool) (tables : List TableInput) (u : ℕ → ℕ → ℚ) :
    Py (List (List (List ℕ)) × List (List (List ℤ))) := do
  let traces ← tables.zipIdx.mapM fun t =>
    tableTrace numBatches miniBatchSize numIndicesPerLookup fixed enablePadding t.1 (u t.2)
  let perTable := (tables.map TableInput.size).zip traces
  let out ← forLoop numBatches (fun j acc => do
    let inputs ← batchTables miniBatchSize j perTable acc.1
    return (inputs.sparseGroupSize, acc.2.1 ++ [inputs.lSLengths], acc.2.2 ++ [inputs.lSIndices]))
    (numIndicesPerLookup, [], [])
  return out.2

section Groups
variable {size : ℕ} {r : List ℕ}

def guarded (size : ℕ) (r : List ℕ) : List ℤ :=
  let group := r.map fun x : ℕ => astypeInt32 x
  if ∃ x ∈ group, x < 0 ∨ (size : ℤ) ≤ x then group.map fun x => astypeInt32 (x % size) else group

theorem sparseGroup_eq (hr : r ≠ []) : sparseGroup size r = .ok (guarded size r) := by
  have hne : (r.map fun x : ℕ => astypeInt32 x) ≠ [] := by simpa using hr
  rw [sparseGroup, guarded]
  generalize r.map (fun x : ℕ => astypeInt32 x) = group at hne
  obtain ⟨lo, hlo⟩ := Option.ne_none_iff_exists'.mp (mt List.min?_eq_none_iff.mp hne)
  obtain ⟨hi, hhi⟩ := Option.ne_none_iff_exists'.mp (mt List.max?_eq_none_iff.mp hne)
  obtain ⟨hlomem, hlole⟩ := List.min?_eq_some_iff.mp hlo
  obtain ⟨hhimem, hhile⟩ := List.max?_eq_some_iff.mp hhi
  have hiff : (lo < 0 ∨ (size : ℤ) ≤ hi) ↔ ∃ x ∈ group, x < 0 ∨ (size : ℤ) ≤ x := by
    constructor
    · rintro (h | h)
      · exact ⟨lo, hlomem, .inl h⟩
      · exact ⟨hi, hhimem, .inr h⟩
    · rintro ⟨x, hx, h | h⟩
      · exact .inl ((hlole x hx).trans_lt h)
      · exact .inr (h.trans (hhile x hx))
  simp only [hlo, hhi, hiff]
  split_ifs <;> rfl

theorem length_guarded (size : ℕ) (r : List ℕ) : (guarded size r).length = r.length := by
  simp only [guarded]
  split_ifs <;> simp

theorem astypeInt32_of_lt {x : ℤ} (h0 : 0 ≤ x) (h : x < 2 ^ 31) : astypeInt32 x = x := by
  rw [astypeInt32, BitVec.toInt_ofInt]
  exact Int.bmod_eq_of_le (by omega) (by omega)

/-- Every stored index is a row of the table. -/
theorem mem_guarded (hpos : 0 < size) (hsize : size ≤ 2 ^ 31) {e : ℤ} (he : e ∈ guarded size r) :
    0 ≤ e ∧ e < size := by
  simp only [guarded] at he
  split_ifs at he with hbad
  · obtain ⟨x, -, rfl⟩ := List.mem_map.mp he
    have h0 := Int.emod_nonneg x (b := (size : ℤ)) (by omega)
    have h1 := Int.emod_lt_of_pos x (b := (size : ℤ)) (by omega)
    rw [astypeInt32_of_lt h0 (by omega)]
    exact ⟨h0, h1⟩
  · push Not at hbad
    exact hbad e he

/-- Indices inside the table are stored as they are. -/
theorem guarded_eq (hsize : size ≤ 2 ^ 31) (hr : ∀ x ∈ r, x < size) :
    guarded size r = r.map fun x : ℕ => (x : ℤ) := by
  have hmap : (r.map fun x : ℕ => astypeInt32 x) = r.map fun x : ℕ => (x : ℤ) := by
    apply List.map_congr_left
    intro x hx
    have := hr x hx
    exact astypeInt32_of_lt (by omega) (by omega)
  simp only [guarded, hmap]
  rw [if_neg]
  rintro ⟨x, hx, hbad⟩
  obtain ⟨y, hy, rfl⟩ := List.mem_map.mp hx
  have := hr y hy
  omega

end Groups

section Blocks
variable {n g : ℕ} {size : ℕ} {perTable : List ℕ}

/-- Group number `q` of a table. -/
def group (perTable : List ℕ) (g q : ℕ) : List ℕ := (perTable.drop (q * g)).take g

def block (size : ℕ) (perTable : List ℕ) (n g j : ℕ) : List ℤ :=
  (List.range n).flatMap fun k => guarded size (group perTable g (j * n + k))

theorem length_group {q : ℕ} (h : (q + 1) * g ≤ perTable.length) :
    (group perTable g q).length = g := by
  rw [group, List.length_take, List.length_drop, min_eq_left]
  rw [Nat.add_mul] at h
  omega

theorem slice_eq_group (j k : ℕ) :
    (perTable.take (j * (n * g) + (k + 1) * g)).drop (j * (n * g) + k * g) =
      group perTable g (j * n + k) := by
  have hbase : j * (n * g) + k * g = (j * n + k) * g := by ring
  have hend : j * (n * g) + (k + 1) * g = (j * n + k) * g + g := by ring
  rw [hbase, hend, group, List.drop_take, Nat.add_sub_cancel_left]

/-- The group size stays, because no group is short. -/
theorem batchTable_eq (size : ℕ) (hg : 0 < g) {j : ℕ} (hlen : (j + 1) * n * g ≤ perTable.length) :
    batchTable size perTable n j g = .ok ⟨g, List.replicate n g, block size perTable n g j⟩ := by
  refine forLoop_eq (M := Py) (fun k => (⟨g, List.replicate k g,
    (List.range k).flatMap fun k => guarded size (group perTable g (j * n + k))⟩ : Groups)) n _ ?_
  intro k hk
  have hfull : (group perTable g (j * n + k)).length = g := by
    apply length_group
    refine le_trans (Nat.mul_le_mul_right g ?_) hlen
    rw [Nat.add_mul]
    omega
  have hne : group perTable g (j * n + k) ≠ [] := by
    intro hnil
    rw [hnil, List.length_nil] at hfull
    omega
  dsimp only
  rw [slice_eq_group, sparseGroup_eq hne]
  refine congrArg Except.ok ?_
  rw [length_guarded, hfull, List.replicate_succ', List.range_succ, List.flatMap_append,
    List.flatMap_singleton]

theorem batchTables_eq (hg : 0 < g) {j : ℕ} (tables : List (ℕ × List ℕ))
    (hlen : ∀ t ∈ tables, (j + 1) * n * g ≤ t.2.length) :
    batchTables n j tables g = .ok ⟨g, List.replicate tables.length (List.replicate n g),
      tables.map fun t => block t.1 t.2 n g j⟩ := by
  induction tables using List.reverseRecOn with
  | nil => rfl
  | append_singleton tables t ih =>
    have htable := batchTable_eq t.1 hg (hlen t (by simp))
    rw [batchTables] at ih ⊢
    rw [List.foldlM_append, ih fun t ht => hlen t (by simp [ht])]
    change (batchTable t.1 t.2 n j g >>= _) >>= _ = _
    rw [htable, List.length_append, List.length_singleton, List.replicate_succ', List.map_append]
    rfl

theorem blocks_eq (nb : ℕ) : (List.range nb).flatMap (block size perTable n g) =
    (List.range (nb * n)).flatMap fun q => guarded size (group perTable g q) := by
  induction nb with
  | zero => simp
  | succ nb ih =>
    rw [List.range_succ, List.flatMap_append, ih, List.flatMap_singleton, Nat.add_mul, Nat.one_mul,
      List.range_add, List.flatMap_append, List.flatMap_map, block]

theorem groups_eq (m : ℕ) : (List.range m).flatMap (group perTable g) = perTable.take (m * g) := by
  induction m with
  | zero => simp
  | succ m ih =>
    rw [List.range_succ, List.flatMap_append, ih, List.flatMap_singleton, Nat.add_mul, Nat.one_mul,
      List.take_add]
    rfl

theorem length_block {j : ℕ} (hlen : (j + 1) * n * g ≤ perTable.length) :
    (block size perTable n g j).length = n * g := by
  have hgroups : ∀ k ∈ List.range n, (guarded size (group perTable g (j * n + k))).length = g := by
    intro k hk
    have hk' := List.mem_range.mp hk
    rw [length_guarded]
    apply length_group
    refine le_trans (Nat.mul_le_mul_right g ?_) hlen
    rw [Nat.add_mul]
    omega
  rw [block, List.length_flatMap, List.map_congr_left hgroups]
  simp

end Blocks

section Inputs
variable {numBatches n g : ℕ} {enablePadding : Bool}

/-- A table whose file holds enough lines for the multiplied distances. -/
structure TableInput.Valid (t : TableInput) (g : ℕ) : Prop where
  dist : ∃ d : Distribution, t.listSd = d.listSd ∧ t.cummSd = d.cummSd ∧
    d.maxSd * g ≤ 2 * t.lineAccesses.length
  nodup : t.lineAccesses.Nodup
  lines : 0 < t.lineAccesses.length
  size_pos : 0 < t.size
  size_le : t.size ≤ 2 ^ 31

theorem TableInput.Valid.tableTrace_eq {t : TableInput} (h : t.Valid g) {u : ℕ → ℚ}
    (hu : ∀ k, 0 ≤ u k ∧ u k ≤ 1) : ∃ trace,
      tableTrace numBatches n g true enablePadding t u = .ok trace ∧
      trace.length = numBatches * g * n ∧ ∀ x ∈ trace, ∃ line ∈ t.lineAccesses, line * 128 = x := by
  obtain ⟨d, hsd, hcumm, hmax⟩ := h.dist
  obtain ⟨refs, sds, s, -, hsds, hrun, hgen⟩ := exists_generated g 128 d enablePadding h.nodup
    h.lines hmax (2 * (numBatches * g * n)) fun k _ => hu k
  have hlen : s.ztrace.length = 2 * (numBatches * g * n) := by
    rw [hgen.ztrace, List.length_map, hgen.length_eq, hsds]
  refine ⟨s.ztrace.drop (numBatches * g * n), ?_, ?_, ?_⟩
  · simp only [tableTrace, if_true, DLRMDataGenerator.traceGenerateLru, hsd, hcumm, hrun]
    rfl
  · rw [List.length_drop, hlen]
    omega
  · intro x hx
    have hmem := List.mem_of_mem_drop hx
    rw [hgen.ztrace] at hmem
    obtain ⟨ref, href, rfl⟩ := List.mem_map.mp hmem
    exact ⟨ref, hgen.mem ref href, rfl⟩

def resultOf {α : Type} (x : Py (List α)) : List α :=
  match x with
  | .ok y => y
  | .error _ => []

theorem mapM_eq_map {α β : Type} {f : α → Py (List β)} {l : List α}
    (h : ∀ x ∈ l, ∃ y, f x = .ok y) : l.mapM f = .ok (l.map fun x => resultOf (f x)) := by
  induction l with
  | nil => rfl
  | cons x l ih =>
    obtain ⟨y, hy⟩ := h x List.mem_cons_self
    rw [List.mapM_cons, hy, ih fun z hz => h z (List.mem_cons_of_mem x hz), List.map_cons, hy]
    rfl

def perTableOf (numBatches n g : ℕ) (enablePadding : Bool) (tables : List TableInput)
    (u : ℕ → ℕ → ℚ) : List (ℕ × List ℕ) :=
  tables.zipIdx.map fun t =>
    (t.1.size, resultOf (tableTrace numBatches n g true enablePadding t.1 (u t.2)))

def syntheticIndices (numBatches n g : ℕ) (enablePadding : Bool) (tables : List TableInput)
    (u : ℕ → ℕ → ℚ) : List (List (List ℤ)) :=
  (List.range numBatches).map fun j =>
    (perTableOf numBatches n g enablePadding tables u).map fun t => block t.1 t.2 n g j

def syntheticLengths (numBatches n g tables : ℕ) : List (List (List ℕ)) :=
  List.replicate numBatches (List.replicate tables (List.replicate n g))

theorem generateSyntheticInputData_eq (hg : 0 < g) {tables : List TableInput}
    (hvalid : ∀ t ∈ tables, t.Valid g) {u : ℕ → ℕ → ℚ} (hu : ∀ i k, 0 ≤ u i k ∧ u i k ≤ 1) :
    generateSyntheticInputData numBatches n g true enablePadding tables u =
      .ok (syntheticLengths numBatches n g tables.length,
        syntheticIndices numBatches n g enablePadding tables u) := by
  have htrace : ∀ t ∈ tables.zipIdx, ∃ trace,
      tableTrace numBatches n g true enablePadding t.1 (u t.2) = .ok trace ∧
      trace.length = numBatches * g * n := by
    intro t ht
    obtain ⟨trace, hrun, hlen, -⟩ :=
      (hvalid t.1 (List.fst_mem_of_mem_zipIdx ht)).tableTrace_eq (hu t.2)
    exact ⟨trace, hrun, hlen⟩
  have hzip : (tables.map TableInput.size).zip (tables.zipIdx.map fun t =>
      resultOf (tableTrace numBatches n g true enablePadding t.1 (u t.2))) =
      perTableOf numBatches n g enablePadding tables u := by
    have hsizes : tables.map TableInput.size = tables.zipIdx.map fun t => t.1.size := by
      conv_lhs => rw [← List.zipIdx_map_fst 0 tables, List.map_map]
      rfl
    rw [hsizes, List.zip_map']
    rfl
  have hlen : ∀ j < numBatches, ∀ t ∈ perTableOf numBatches n g enablePadding tables u,
      (j + 1) * n * g ≤ t.2.length := by
    intro j hj t ht
    obtain ⟨t', ht', rfl⟩ := List.mem_map.mp ht
    obtain ⟨trace, hrun, htotal⟩ := htrace t' ht'
    dsimp only
    rw [hrun]
    change _ ≤ trace.length
    rw [htotal, Nat.mul_right_comm numBatches g n]
    exact Nat.mul_le_mul_right g (Nat.mul_le_mul_right n hj)
  have hloop : forLoop numBatches
      (fun j (acc : ℕ × List (List (List ℕ)) × List (List (List ℤ))) => do
      let inputs ← batchTables n j (perTableOf numBatches n g enablePadding tables u) acc.1
      return (inputs.sparseGroupSize, acc.2.1 ++ [inputs.lSLengths], acc.2.2 ++ [inputs.lSIndices]))
      (g, [], []) =
      (.ok (g, syntheticLengths numBatches n g tables.length,
        syntheticIndices numBatches n g enablePadding tables u) : Py _) := by
    refine forLoop_eq (M := Py) (fun j => (g,
      List.replicate j (List.replicate tables.length (List.replicate n g)),
      (List.range j).map fun j =>
        (perTableOf numBatches n g enablePadding tables u).map fun t => block t.1 t.2 n g j))
      numBatches _ ?_
    intro j hj
    dsimp only
    rw [batchTables_eq hg _ (hlen j hj), List.replicate_succ', List.range_succ, List.map_append]
    refine congrArg Except.ok ?_
    simp [perTableOf]
  rw [generateSyntheticInputData, mapM_eq_map fun t ht => (htrace t ht).imp fun _ h => h.1, ok_bind]
  dsimp only
  rw [hzip, hloop]
  rfl

/-- The sparse inputs of batch `j` as the main program passes them on. -/
def syntheticBatches (lengths : List (List (List ℕ))) (indices : List (List (List ℤ))) (j : ℕ) :
    Recsys.Batch Unit :=
  ⟨(), lengths.getD j [], fun i => ((indices.getD j []).getD i []).map Int.toNat⟩

theorem sIndices_syntheticBatches {tables : List TableInput} {u : ℕ → ℕ → ℚ} {i j : ℕ}
    (hi : i < tables.length) (hj : j < numBatches) (lengths : List (List (List ℕ)))
    {trace : List ℕ}
    (htrace : tableTrace numBatches n g true enablePadding tables[i] (u i) = .ok trace) :
    (syntheticBatches lengths
      (syntheticIndices numBatches n g enablePadding tables u) j).sIndices i =
        (block tables[i].size trace n g j).map Int.toNat := by
  have htable : (perTableOf numBatches n g enablePadding tables u)[i]? =
      some (tables[i].size, trace) := by
    rw [perTableOf, List.getElem?_map, List.getElem?_zipIdx, List.getElem?_eq_getElem hi,
      Option.map_some, Option.map_some, Nat.zero_add, htrace]
    rfl
  have hbatch : (syntheticIndices numBatches n g enablePadding tables u).getD j [] =
      (perTableOf numBatches n g enablePadding tables u).map fun t => block t.1 t.2 n g j := by
    rw [syntheticIndices, List.getD_eq_getElem?_getD, List.getElem?_map, List.getElem?_range hj]
    rfl
  rw [syntheticBatches]
  dsimp only
  rw [hbatch, List.getD_eq_getElem?_getD, List.getElem?_map, htable]
  rfl

theorem epochLookups_synthetic {batches : ℕ → Recsys.Batch Unit} {size i : ℕ} {trace : List ℕ}
    (hlen : trace.length = numBatches * g * n)
    (hbatches : ∀ j < numBatches, (batches j).sIndices i = (block size trace n g j).map Int.toNat) :
    Recsys.epochLookups batches numBatches n g i = ((List.range (numBatches * n)).flatMap fun q =>
      guarded size (group trace g q)).map Int.toNat := by
  rw [← blocks_eq, List.map_flatMap, Recsys.epochLookups, Recsys.tableLookups]
  apply List.flatMap_congr
  intro j hj
  have hj' := List.mem_range.mp hj
  have hblock : (block size trace n g j).length = n * g := by
    apply length_block
    rw [hlen, Nat.mul_right_comm numBatches g n]
    exact Nat.mul_le_mul_right g (Nat.mul_le_mul_right n hj')
  rw [hbatches j hj', List.take_of_length_le (by simp [hblock])]

/-- What the batches hold for one table: full lists of rows, and the second half of its trace if
the lines lie inside the table. -/
structure HoldsTrace (numBatches n g : ℕ) (enablePadding : Bool) (t : TableInput) (u : ℕ → ℚ)
    (batches : ℕ → Recsys.Batch Unit) (i : ℕ) (trace : List ℕ) : Prop where
  generated : tableTrace numBatches n g true enablePadding t u = .ok trace
  full : ∀ j < numBatches, ((batches j).sIndices i).length = n * g
  rows : ∀ e ∈ Recsys.epochLookups batches numBatches n g i, e < t.size
  lookups : (∀ line ∈ t.lineAccesses, line * 128 < t.size) →
    Recsys.epochLookups batches numBatches n g i = trace

variable (numBatches n enablePadding) in
theorem exists_holdsTrace {tables : List TableInput} {u : ℕ → ℕ → ℚ} {i : ℕ}
    (hi : i < tables.length) (ht : tables[i].Valid g) (hu : ∀ k, 0 ≤ u i k ∧ u i k ≤ 1)
    (lengths : List (List (List ℕ))) : ∃ trace,
      HoldsTrace numBatches n g enablePadding tables[i] (u i)
        (syntheticBatches lengths (syntheticIndices numBatches n g enablePadding tables u)) i
        trace := by
  obtain ⟨trace, htrace, hlen, hlines⟩ : ∃ trace,
      tableTrace numBatches n g true enablePadding tables[i] (u i) = .ok trace ∧
      trace.length = numBatches * g * n ∧ ∀ x ∈ trace, ∃ line ∈ tables[i].lineAccesses,
        line * 128 = x := ht.tableTrace_eq hu
  have hbatches := fun j (hj : j < numBatches) => sIndices_syntheticBatches hi hj lengths htrace
  have hlookups := epochLookups_synthetic hlen hbatches
  refine ⟨trace, htrace, ?_, ?_, ?_⟩
  · intro j hj
    rw [hbatches j hj, List.length_map]
    apply length_block
    rw [hlen, Nat.mul_right_comm numBatches g n]
    exact Nat.mul_le_mul_right g (Nat.mul_le_mul_right n hj)
  · intro e he
    rw [hlookups] at he
    obtain ⟨e', he', rfl⟩ := List.mem_map.mp he
    obtain ⟨q, -, hq⟩ := List.mem_flatMap.mp he'
    have hrange := mem_guarded ht.size_pos ht.size_le hq
    omega
  · intro hinside
    have hplain : ∀ q ∈ List.range (numBatches * n), guarded tables[i].size (group trace g q) =
        (group trace g q).map fun x : ℕ => (x : ℤ) := by
      intro q _
      apply guarded_eq ht.size_le
      intro x hx
      obtain ⟨line, hline, rfl⟩ := hlines x (List.mem_of_mem_drop (List.mem_of_mem_take hx))
      exact hinside line hline
    rw [hlookups, List.flatMap_congr hplain, ← List.map_flatMap, List.map_map, groups_eq,
      List.take_of_length_le (by rw [hlen, Nat.mul_right_comm])]
    simp [Function.comp_def]

end Inputs

section Errors
variable {numBatches n g : ℕ} {enablePadding : Bool} {tables : List TableInput} {u : ℕ → ℕ → ℚ}

end Errors

def fourLines : TableInput := ⟨512, [0, 1, 2, 3], thirds.listSd, thirds.cummSd⟩

theorem fourLines_valid : fourLines.Valid 2 where
  dist := ⟨thirds, rfl, rfl, by decide⟩
  nodup := by decide
  lines := by decide
  size_pos := by decide
  size_le := by decide

/-- The program in `base` mode on synthetic inputs whose lines lie inside the tables: it returns,
and its hits are the accesses of the traces at a depth of at most 2000, each trace repeated in
every epoch after the kept keys of the fill. -/
theorem synthetic_base_run {m : ℕ} {L : Lru ℕ (Recsys.IntRow m)} (hL : L.MovesToFront)
    (order : Recsys.DictOrder) (net : Recsys.DlrmNet) (hbase : net.slsType = .base)
    (runNet : Recsys.Workspace Unit m → Py (Recsys.Workspace Unit m))
    (hnet : ∀ ws, ∃ ws', runNet ws = .ok ws') (lib : Recsys.FlashRec) (W : Recsys.Table m)
    (numBatches n g : ℕ) (hn : 0 < n) (hg : 0 < g) (enablePadding : Bool)
    (tables : List TableInput) (hne : tables ≠ [])
    (hvalid : ∀ t ∈ tables, t.Valid g)
    (hinside : ∀ t ∈ tables, ∀ line ∈ t.lineAccesses, line * 128 < t.size)
    (hW : ∀ t ∈ tables, t.size ≤ W.n) (u : ℕ → ℕ → ℚ) (hu : ∀ i k, 0 ≤ u i k ∧ u i k ≤ 1)
    (nepochs : ℕ) (hruns : 0 < nepochs * numBatches) (ws : Recsys.Workspace Unit m) :
    ∃ lengths indices, ∃ traces : ℕ → List ℕ, ∃ r expectedHits,
      generateSyntheticInputData numBatches n g true enablePadding tables u =
        .ok (lengths, indices) ∧
      (∀ i (hi : i < tables.length),
        tableTrace numBatches n g true enablePadding tables[i] (u i) = .ok (traces i)) ∧
      Recsys.runProgram L order net runNet lib W tables.length n g
        (syntheticBatches lengths indices) nepochs numBatches ws = .ok (r, expectedHits) ∧
      r.sls.hits = ∑ i ∈ Finset.range tables.length,
        LruStack.hitCount 2000 (Recsys.keptKeys order (traces i))
          (List.replicate nepochs (traces i)).flatten ∧
      r.sls.hits + r.sls.misses = nepochs * numBatches * (tables.length * (n * g)) := by
  have hheld : ∀ i, ∃ trace, ∀ hi : i < tables.length,
      HoldsTrace numBatches n g enablePadding tables[i] (u i)
        (syntheticBatches (syntheticLengths numBatches n g tables.length)
          (syntheticIndices numBatches n g enablePadding tables u)) i trace := by
    intro i
    by_cases hi : i < tables.length
    · obtain ⟨trace, htrace⟩ := exists_holdsTrace numBatches n enablePadding hi
        (hvalid _ (List.getElem_mem hi)) (hu i) (syntheticLengths numBatches n g tables.length)
      exact ⟨trace, fun _ => htrace⟩
    · exact ⟨[], fun h => absurd h hi⟩
  choose traces htraces using hheld
  have hpos : 0 < tables.length * (n * g) :=
    Nat.mul_pos (List.length_pos_of_ne_nil hne) (Nat.mul_pos hn hg)
  have hrows : ∀ i < tables.length, Recsys.StoresRows W (Recsys.epochLookups
      (syntheticBatches (syntheticLengths numBatches n g tables.length)
        (syntheticIndices numBatches n g enablePadding tables u)) numBatches n g i) := by
    intro i hi e he _
    exact ((htraces i hi).rows e he).trans_le (hW _ (List.getElem_mem hi))
  obtain ⟨r, e, hrun, hhits, hlookups⟩ := Recsys.runProgram_allLookedUp hL order hbase hnet lib hpos
    hruns (fun j hj i hi => ((htraces i hi).full j hj).ge) hrows ws
  refine ⟨_, _, traces, r, e, generateSyntheticInputData_eq hg hvalid hu,
    fun i hi => (htraces i hi).generated, hrun, ?_, hlookups⟩
  rw [hhits]
  apply Finset.sum_congr rfl
  intro i hi
  have hi' := Finset.mem_range.mp hi
  rw [Recsys.runLookups, (htraces i hi').lookups (hinside _ (List.getElem_mem hi'))]

theorem synthetic_base_run_small : ∃ lengths indices r expectedHits,
    generateSyntheticInputData 2 1 2 true false [fourLines, fourLines] (fun _ _ => 1 / 2) =
      .ok (lengths, indices) ∧
    Recsys.runProgram Lru.recent .insertion (Recsys.baseNet 2) pure
        ⟨fun _ _ _ _ _ => 0, fun _ _ => []⟩ (Recsys.zeroTable 512) 2 1 2
        (syntheticBatches lengths indices) 2 2 (fun _ => none) = .ok (r, expectedHits) ∧
      r.sls.hits + r.sls.misses = 16 := by
  obtain ⟨lengths, indices, traces, r, e, hinputs, -, hrun, -, hcount⟩ := synthetic_base_run
    Lru.recentMovesToFront .insertion (Recsys.baseNet 2) rfl pure (fun ws => ⟨ws, rfl⟩)
    ⟨fun _ _ _ _ _ => 0, fun _ _ => []⟩ (Recsys.zeroTable 512) 2 1 2 (by decide) (by decide) false
    [fourLines, fourLines] (by simp) (by simpa using fourLines_valid) (by decide) (by decide)
    (fun _ _ => 1 / 2) (by intros; norm_num) 2 (by decide) (fun _ => none)
  exact ⟨lengths, indices, r, e, hinputs, hrun, hcount⟩

end EbpfIsp.Traces
