import EbpfIsp.Driver.SparseLengthSum
import EbpfIsp.Library.Lru
import EbpfIsp.Library.Python
import Mathlib.Data.List.GetD

/-! # Loading embeddings for one batch

`slsload` of `dlrm_s_caffe2.py`, in its two modes. In `base` mode the host
reads every row through the cache of its table and sums on the host. In `ndp`
mode cached rows are separated and the remaining pairs go to the device in one
call per chunk of 128 samples. Floats are exact rationals; an exception ends
the function.
-/

namespace EbpfIsp.Recsys
open Library Device Driver

inductive SlsType where
  | dram
  | base
  | ndp
  deriving DecidableEq

def cInt (n : ℕ) : CInt := BitVec.ofNat 32 n

/-- `libflashrec.so` as called from Python. `unvme_read_embedding` returns a pointer into the
page buffer of the library, and `unvme_sparse_length_sum` an array of its own. -/
structure FlashRec where
  unvmeReadEmbedding : (embedidx vectorLength tableId qid : CInt) → ℕ → CInt
  unvmeSparseLengthSum : SlsArgs → (qid : CInt) → List CInt

abbrev IntRow (m : ℕ) := Fin m → CInt

abbrev FloatRow (m : ℕ) := Fin m → ℚ

/-- The row behind the pointer that `unvme_read_embedding` returns. -/
def FlashRec.row (lib : FlashRec) (qid : CInt) (m i embedidx : ℕ) : IntRow m :=
  fun h => lib.unvmeReadEmbedding (cInt embedidx) (cInt m) (cInt i) qid h.val

/-- `row.astype(np.float32) / 1000000.0` -/
def scaled {m : ℕ} (row : IntRow m) : FloatRow m := fun h => (row h).toInt / 1000000

/-- The value of `listResult`: a list while it is built, an array afterwards. -/
inductive ListResult (m : ℕ) where
  | list (rows : List (FloatRow m))
  | ndarray (rows : List (FloatRow m))

namespace ListResult

variable {m : ℕ}

def rows : ListResult m → List (FloatRow m)
  | list rows | ndarray rows => rows

/-- Arrays have no method `append`; that is noticed before the argument is evaluated. -/
def append (l : ListResult m) (row : Py (FloatRow m)) : Py (ListResult m) :=
  match l with
  | list rows => do return list (rows ++ [← row])
  | ndarray _ => throw .attributeError

def asArray (l : ListResult m) : ListResult m := ndarray l.rows

/-- `listResult[r] = np.add(listResult[r], embed)` on an array -/
def addRow (l : ListResult m) (r : ℕ) (embed : IntRow m) : Py (ListResult m) :=
  match l.rows[r]? with
  | none => throw .indexError
  | some row => return ndarray (l.rows.set r fun h => row h + (embed h).toInt)

end ListResult

/-- The caches of all tables, the global counters, and the counters of one call with its
calls of `unvme_sparse_length_sum`. -/
structure SlsState {m : ℕ} (L : Cache ℕ (IntRow m)) where
  lru : ℕ → L.Carrier
  hits : ℕ := 0
  misses : ℕ := 0
  localhits : ℕ := 0
  localmisses : ℕ := 0
  calls : List SlsArgs := []

section Lookup
variable {m : ℕ} {L : Cache ℕ (IntRow m)}

def SlsState.hit (s : SlsState L) (i embedidx : ℕ) : SlsState L :=
  { s with
    lru := Function.update s.lru i (L.touch (s.lru i) embedidx)
    hits := s.hits + 1
    localhits := s.localhits + 1 }

def SlsState.miss (s : SlsState L) : SlsState L :=
  { s with misses := s.misses + 1, localmisses := s.localmisses + 1 }

def SlsState.store (s : SlsState L) (i embedidx : ℕ) (row : IntRow m) : SlsState L :=
  { s with lru := Function.update s.lru i (L.set (s.lru i) embedidx row) }

def SlsState.start (s : SlsState L) : SlsState L :=
  { s with localhits := 0, localmisses := 0, calls := [] }

def SlsState.called (s : SlsState L) (a : SlsArgs) : SlsState L :=
  { s with calls := s.calls ++ [a] }

def SlsState.localLookups (s : SlsState L) : ℕ := s.localhits + s.localmisses

end Lookup

section Base
variable {m : ℕ} {L : Cache ℕ (IntRow m)} (lib : FlashRec) (qid : CInt)

/-- Row `embedidx` of table `i` as the library reads it; `m_spa + 1` words are copied and
the last one is cut off. -/
def readRow (m : ℕ) (i embedidx : ℕ) : IntRow m :=
  let readEmbedding : Fin (m + 1) → CInt := fun h =>
    lib.unvmeReadEmbedding (cInt embedidx) (cInt m) (cInt i) qid h.val
  fun h => readEmbedding h.castSucc

theorem readRow_eq (m i embedidx : ℕ) : readRow lib qid m i embedidx = lib.row qid m i embedidx :=
  rfl

def baseLookup (i embedidx : ℕ) (s : SlsState L) : IntRow m × SlsState L :=
  match L.get? (s.lru i) embedidx with
  | some row => (row, s.hit i embedidx)
  | none =>
    let row := readRow lib qid m i embedidx
    (row, s.miss.store i embedidx row)

def baseSample (indices : List ℕ) (g i j : ℕ) (s : SlsState L) : Py (FloatRow m × SlsState L) :=
  forLoop g (fun k acc =>
    match indices[j * g + k]? with
    | none => throw .indexError
    | some embedidx =>
      let out := baseLookup lib qid i embedidx acc.2
      return (acc.1 + scaled out.1, out.2)) (0, s)

def baseTable (indices : List ℕ) (b g i : ℕ) (s : SlsState L) :
    Py (List (FloatRow m) × SlsState L) :=
  forLoop b (fun j acc => do
    let out ← baseSample lib qid indices g i j acc.2
    return (acc.1 ++ [out.1], out.2)) ([], s)

/-- The `base` branch; `listResult` starts anew for every table. -/
def slsloadBase (sIndices : ℕ → List ℕ) (tables b g : ℕ) (s : SlsState L) :
    Py (Option (ListResult m) × SlsState L) :=
  forLoop tables (fun i acc => do
    let out ← baseTable lib qid (sIndices i) b g i acc.2
    return (some (.ndarray out.1), out.2)) (none, s)

/-- Every cached entry is the row that the library returns for its index. -/
def SlsState.Coherent (s : SlsState L) : Prop :=
  ∀ i, L.Agrees (lib.row qid m i) (s.lru i)

/-- What sample `j` of table `i` should be: the scaled sum of its rows. -/
def pooledRow (m : ℕ) (indices : List ℕ) (g i j : ℕ) : FloatRow m :=
  ∑ k ∈ Finset.range g, scaled (lib.row qid m i (indices.getD (j * g + k) 0))

def pooledRows (m : ℕ) (indices : List ℕ) (b g i : ℕ) : List (FloatRow m) :=
  (List.range b).map (pooledRow lib qid m indices g i)

variable {lib qid} {s : SlsState L}

/-- From `s` to `s'` there were `n` lookups in table `i`. Its cache is correct and those of the
other tables are untouched. -/
structure TableRead (lib : FlashRec) (qid : CInt) (i : ℕ) (s s' : SlsState L) (n : ℕ) : Prop where
  agrees : L.Agrees (lib.row qid m i) (s'.lru i)
  frame : ∀ i' ≠ i, s'.lru i' = s.lru i'
  lookups : s'.localLookups = s.localLookups + n

section TableRead
variable {i n k : ℕ} {s' s'' : SlsState L}

theorem TableRead.refl (h : L.Agrees (lib.row qid m i) (s.lru i)) :
    TableRead lib qid i s s 0 := ⟨h, fun _ _ => rfl, rfl⟩

theorem TableRead.trans (h : TableRead lib qid i s s' n) (h' : TableRead lib qid i s' s'' k) :
    TableRead lib qid i s s'' (n + k) where
  agrees := h'.agrees
  frame i' hi := (h'.frame i' hi).trans (h.frame i' hi)
  lookups := by rw [h'.lookups, h.lookups, Nat.add_assoc]

theorem SlsState.Coherent.read (h : s.Coherent lib qid) (hr : TableRead lib qid i s s' n) :
    s'.Coherent lib qid := by
  intro i'
  by_cases hi : i' = i
  · subst hi
    exact hr.agrees
  · rw [hr.frame i' hi]
    exact h i'

end TableRead

/-- A lookup through a correct cache yields the row. -/
theorem baseLookup_spec {i : ℕ} (h : L.Agrees (lib.row qid m i) (s.lru i)) (e : ℕ) :
    (baseLookup lib qid i e s).1 = lib.row qid m i e ∧
      TableRead lib qid i s (baseLookup lib qid i e s).2 1 := by
  rw [baseLookup]
  cases hget : L.get? (s.lru i) e with
  | some row =>
    refine ⟨h e row hget, ?_, ?_, ?_⟩
    · simpa [SlsState.hit] using h.touch e
    · intro i' hi
      simp [SlsState.hit, hi]
    · simp only [SlsState.localLookups, SlsState.hit]
      omega
  | none =>
    refine ⟨rfl, ?_, ?_, ?_⟩
    · simpa [SlsState.store, SlsState.miss, readRow_eq] using h.set e
    · intro i' hi
      simp [SlsState.store, SlsState.miss, hi]
    · simp only [SlsState.localLookups, SlsState.store, SlsState.miss]
      omega

theorem baseSample_spec {i : ℕ} (h : L.Agrees (lib.row qid m i) (s.lru i)) {indices : List ℕ}
    {g j : ℕ} (hlen : (j + 1) * g ≤ indices.length) :
    ∃ s', baseSample lib qid indices g i j s = pure (pooledRow lib qid m indices g i j, s') ∧
      TableRead lib qid i s s' g := by
  obtain ⟨⟨row, s'⟩, hrun, rfl, hread⟩ := forLoop_invariant
    (fun k (acc : FloatRow m × SlsState L) =>
      acc.1 = ∑ k' ∈ Finset.range k, scaled (lib.row qid m i (indices.getD (j * g + k') 0)) ∧
      TableRead lib qid i s acc.2 k) g
    (fun k acc => (match indices[j * g + k]? with
      | none => throw .indexError
      | some embedidx =>
        let out := baseLookup lib qid i embedidx acc.2
        return (acc.1 + scaled out.1, out.2) : Py (FloatRow m × SlsState L))) (0, s)
    ⟨by simp, .refl h⟩ (by
      rintro k hk ⟨row, t⟩ ⟨hrow, hread⟩
      have hlt : j * g + k < indices.length := by
        rw [Nat.add_mul] at hlen
        omega
      obtain ⟨h₁, h₂⟩ := baseLookup_spec hread.agrees (indices[j * g + k])
      refine ⟨_, by rw [List.getElem?_eq_getElem hlt], ?_, hread.trans h₂⟩
      rw [Finset.sum_range_succ, ← hrow, h₁, List.getD_eq_getElem _ _ hlt])
  exact ⟨s', hrun, hread⟩

theorem baseTable_spec {i : ℕ} (h : L.Agrees (lib.row qid m i) (s.lru i)) {indices : List ℕ}
    {b g : ℕ} (hlen : b * g ≤ indices.length) :
    ∃ s', baseTable lib qid indices b g i s = pure (pooledRows lib qid m indices b g i, s') ∧
      TableRead lib qid i s s' (b * g) := by
  obtain ⟨⟨rows, s'⟩, hrun, rfl, hread⟩ := forLoop_invariant
    (fun j (acc : List (FloatRow m) × SlsState L) =>
      acc.1 = (List.range j).map (pooledRow lib qid m indices g i) ∧
      TableRead lib qid i s acc.2 (j * g)) b
    (fun j acc => (do
      let out ← baseSample lib qid indices g i j acc.2
      return (acc.1 ++ [out.1], out.2) : Py (List (FloatRow m) × SlsState L))) ([], s)
    ⟨rfl, by simpa using TableRead.refl h⟩ (by
      rintro j hj ⟨rows, t⟩ ⟨hrows, hread⟩
      obtain ⟨t', hrun, hread'⟩ := baseSample_spec hread.agrees
        ((Nat.mul_le_mul_right g hj).trans hlen)
      refine ⟨_, by rw [hrun, pure_bind], ?_, ?_⟩
      · rw [List.range_succ, List.map_append, ← hrows]
        rfl
      · rw [Nat.add_mul, Nat.one_mul]
        exact hread.trans hread')
  exact ⟨s', hrun, hread⟩

/-- The `base` branch returns the pooled rows of the last table. -/
theorem slsloadBase_spec (h : s.Coherent lib qid) (sIndices : ℕ → List ℕ) (tables b g : ℕ)
    (hlen : ∀ i < tables, b * g ≤ (sIndices i).length) :
    ∃ s', slsloadBase lib qid sIndices tables b g s =
        pure ((List.range tables).getLast?.map fun i =>
          .ndarray (pooledRows lib qid m (sIndices i) b g i), s') ∧
      s'.Coherent lib qid ∧ s'.localLookups = s.localLookups + tables * (b * g) := by
  obtain ⟨⟨res, s'⟩, hrun, rfl, hco, hcount⟩ := forLoop_invariant
    (fun i (acc : Option (ListResult m) × SlsState L) =>
      acc.1 = (List.range i).getLast?.map (fun i =>
        .ndarray (pooledRows lib qid m (sIndices i) b g i)) ∧
      acc.2.Coherent lib qid ∧ acc.2.localLookups = s.localLookups + i * (b * g)) tables
    (fun i acc => (do
      let out ← baseTable lib qid (sIndices i) b g i acc.2
      return (some (.ndarray out.1), out.2) : Py (Option (ListResult m) × SlsState L))) (none, s)
    ⟨rfl, h, by simp⟩ (by
      rintro i hi ⟨res, t⟩ ⟨-, hco, hcount⟩
      obtain ⟨t', hrun, hread⟩ := baseTable_spec (hco i) (hlen i hi)
      refine ⟨_, by rw [hrun, pure_bind], ?_, hco.read hread, ?_⟩
      · simp [List.range_succ]
      · rw [hread.lookups, hcount, Nat.add_mul, Nat.one_mul, Nat.add_assoc])
  exact ⟨s', hrun, hco, hcount⟩

end Base

section Ndp
variable {m : ℕ} {L : Cache ℕ (IntRow m)}

/-- `zip((j for k in xrange(embed_per_result) for j in xrange(batchsize)), indices)` -/
def pairInd (b g : ℕ) (indices : List ℕ) : List (ℕ × ℕ) :=
  ((List.range g).flatMap fun _ => List.range b).zip indices

/-- Pairs for the device, and cached rows with the pair they were found for. -/
structure Partition (L : Cache ℕ (IntRow m)) where
  filteredPairInd : List (ℕ × ℕ)
  cachedEmbPair : List ((ℕ × ℕ) × IntRow m)
  st : SlsState L

def Partition.step (i : ℕ) (p : Partition L) (pair : ℕ × ℕ) : Partition L :=
  match L.get? (p.st.lru i) pair.2 with
  | some row => { p with
      cachedEmbPair := p.cachedEmbPair ++ [(pair, row)]
      st := p.st.hit i pair.2 }
  | none => { p with
      filteredPairInd := p.filteredPairInd ++ [pair]
      st := p.st.miss }

def partitionPairs (i : ℕ) (pairs : List (ℕ × ℕ)) (s : SlsState L) : Partition L :=
  pairs.foldl (Partition.step i) ⟨[], [], s⟩

theorem partitionPairs_concat (i : ℕ) (pairs : List (ℕ × ℕ)) (pair : ℕ × ℕ) (s : SlsState L) :
    partitionPairs i (pairs ++ [pair]) s = (partitionPairs i pairs s).step i pair := by
  rw [partitionPairs, List.foldl_append, ← partitionPairs, List.foldl_cons, List.foldl_nil]

/-- `np.array(sorted(filteredPairInd, key=(lambda x: x[1]))).flatten()` -/
def flatInd (pairs : List (ℕ × ℕ)) : List ℕ :=
  (pairs.mergeSort fun x y => x.2 ≤ y.2).flatMap fun p => [p.1, p.2]

def ndpArgs (m b g i : ℕ) (pairs : List (ℕ × ℕ)) : SlsArgs where
  flatInd n := cInt ((flatInd pairs).getD n 0)
  vectorLength := cInt m
  batchsize := cInt b
  embedPerResult := cInt g
  tableId := cInt i
  inputEmbeddings := cInt pairs.length

/-- Row `k` of a device result, with the index that the code uses; `ctypes` does not check it. -/
def decodeRow (m b : ℕ) (result : List CInt) (k : ℕ) : Py (FloatRow m) :=
  if ∀ j < m, k * b + j < result.length then
    return fun j => (result.getD (k * b + j.val) 0).toInt / 1000000
  else throw .behindArray

/-- One chunk of the `ndp` branch. -/
def ndpChunk (lib : FlashRec) (qid : CInt) (b g i : ℕ) (acc : ListResult m × SlsState L)
    (indices : List ℕ) : Py (ListResult m × SlsState L) := do
  let p := partitionPairs i (pairInd b g indices) acc.2
  let args := ndpArgs m b g i p.filteredPairInd
  let result := lib.unvmeSparseLengthSum args qid
  let rows ← forLoop b (fun k rows => rows.append (decodeRow m b result k)) acc.1
  let rows ← p.cachedEmbPair.foldlM (fun rows c => rows.addRow c.1.1 c.2) rows.asArray
  return (rows, p.st.called args)

/-- `np.array_split`: the first `length % n` parts have one element more. -/
def arraySplit (xs : List ℕ) (n : ℕ) : List (List ℕ) :=
  let start := fun k => k * (xs.length / n) + min k (xs.length % n)
  (List.range n).map fun k => (xs.drop (start k)).take (start (k + 1) - start k)

/-- `np.split(xs, sections)` with a float: the length modulo `sections` must be zero, and
`int(sections)` parts are returned. -/
def npSplit (xs : List ℕ) (sections : ℚ) : Py (List (List ℕ)) :=
  if ((xs.length : ℚ) / sections).den = 1 then return arraySplit xs sections.floor.toNat
  else throw .valueError

/-- The chunks of a table and the batch size per chunk; `/` is true division here. -/
def ndpSplit (indices : List ℕ) (b g : ℕ) : Py (List (List ℕ) × ℕ) := do
  let cut := indices.take (b * g)
  if b > 128 then
    let split ← npSplit cut ((b : ℚ) / 128)
    return (split, 128)
  else return ([cut], b)

def ndpTable (lib : FlashRec) (qid : CInt) (indices : List ℕ) (b g i : ℕ) (s : SlsState L) :
    Py (ListResult m × SlsState L) := do
  let (split, batchsize) ← ndpSplit indices b g
  split.foldlM (ndpChunk lib qid batchsize g i) (.list [], s)

def slsloadNdp (lib : FlashRec) (qid : CInt) (sIndices : ℕ → List ℕ) (tables b g : ℕ)
    (s : SlsState L) : Py (Option (ListResult m) × SlsState L) :=
  forLoop tables (fun i acc => do
    let out ← ndpTable lib qid (sIndices i) b g i acc.2
    return (some out.1, out.2)) (none, s)

end Ndp

/-- `slsload`: the result of the last table, the hit rate of this call in percent, and the
state it leaves. -/
def slsload {m : ℕ} {L : Cache ℕ (IntRow m)} (slsType : SlsType) (lib : FlashRec) (qid : CInt)
    (sIndices : ℕ → List ℕ) (tables b g : ℕ) (s : SlsState L) :
    Py ((Option (ListResult m) × ℚ) × SlsState L) := do
  let (listResult, s) ← match slsType with
    | .base => slsloadBase lib qid sIndices tables b g s.start
    | .ndp => slsloadNdp lib qid sIndices tables b g s.start
    | .dram => pure (none, s.start)
  if s.localLookups = 0 then throw .zeroDivisionError
  return ((listResult, s.localhits / s.localLookups * 100), s)

end EbpfIsp.Recsys
