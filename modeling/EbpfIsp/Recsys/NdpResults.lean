import EbpfIsp.Recsys.Pooling

/-! # What the `ndp` branch makes of device results

The branch decodes an array that the kernel has written row by row, adds the
cached rows on the host, and splits batches of more than 128 samples. Each step
has its flaw: the row stride is the batch size, cached rows are added without
the scaling of the others, and the second chunk appends to an array.
-/

namespace EbpfIsp.Recsys
open Library Device Driver

section Decoding
variable {m : ℕ}

theorem asArray_list (rows : List (FloatRow m)) : (ListResult.list rows).asArray = .ndarray rows :=
  rfl

def appendRows (m b : ℕ) (result : List CInt) (l : ListResult m) : Py (ListResult m) :=
  forLoop b (fun k rows => rows.append (decodeRow m b result k)) l

theorem ndpChunk_eq {L : Cache ℕ (IntRow m)} (lib : FlashRec) (qid : CInt) (b g i : ℕ)
    (acc : ListResult m × SlsState L) (indices : List ℕ) :
    ndpChunk lib qid b g i acc indices = (do
      let p := partitionPairs i (pairInd b g indices) acc.2
      let args := ndpArgs m b g i p.filteredPairInd
      let rows ← appendRows m b (lib.unvmeSparseLengthSum args qid) acc.1
      let rows ← p.cachedEmbPair.foldlM (fun rows c => rows.addRow c.1.1 c.2) rows.asArray
      return (rows, p.st.called args)) := rfl

/-- The words that the loop reads are words of the array. -/
def ReadsInside (m b : ℕ) (result : List CInt) : Prop :=
  ∀ k < b, ∀ j < m, k * b + j < result.length

def decodedRow (m b : ℕ) (result : List CInt) (k : ℕ) : FloatRow m :=
  fun j => (result.getD (k * b + j.val) 0).toInt / 1000000

/-- Row `k` where the kernel stores it: component `j` at word `k * m_spa + j`. -/
def storedRow (m : ℕ) (result : List CInt) (k : ℕ) : FloatRow m :=
  fun j => (result.getD (k * m + j.val) 0).toInt / 1000000

def DecodesRows (m b : ℕ) (result : List CInt) : Prop :=
  appendRows m b result (.list []) = .ok (.list ((List.range b).map (storedRow m result)))

theorem appendRows_until {b n : ℕ} {result : List CInt}
    (h : ∀ k < n, ∀ j < m, k * b + j < result.length) (rows : List (FloatRow m)) :
    forLoop n (fun k rows => rows.append (decodeRow m b result k)) (.list rows) =
      (.ok (.list (rows ++ (List.range n).map (decodedRow m b result))) : Py (ListResult m)) := by
  have hloop := forLoop_eq (M := Py)
    (fun n => ListResult.list (rows ++ (List.range n).map (decodedRow m b result))) n
    (fun k rows => rows.append (decodeRow m b result k)) (by
      intro k hk
      rw [decodeRow, if_pos (h k hk), List.range_succ, List.map_append, ← List.append_assoc]
      rfl)
  rw [List.range_zero, List.map_nil, List.append_nil] at hloop
  exact hloop

theorem appendRows_list {b : ℕ} {result : List CInt} (h : ReadsInside m b result)
    (rows : List (FloatRow m)) : appendRows m b result (.list rows) =
      .ok (.list (rows ++ (List.range b).map (decodedRow m b result))) :=
  appendRows_until h rows

theorem appendRows_behind {b : ℕ} {result : List CInt} (h : ¬ ReadsInside m b result)
    (rows : List (FloatRow m)) : appendRows m b result (.list rows) = .error .behindArray := by
  have hex : ∃ k, k < b ∧ ¬ ∀ j < m, k * b + j < result.length := by
    rw [ReadsInside] at h
    push Not at h ⊢
    exact h
  obtain ⟨hlt, hrow⟩ := Nat.find_spec hex
  have hin : ∀ k < Nat.find hex, ∀ j < m, k * b + j < result.length := by
    intro k hk
    by_contra hout
    exact Nat.find_min hex hk ⟨hk.trans hlt, hout⟩
  apply forLoop_error (appendRows_until hin rows) _ hlt
  rw [decodeRow, if_neg hrow]
  rfl

theorem scaled_word_inj {x y : CInt} :
    (x.toInt : ℚ) / 1000000 = (y.toInt : ℚ) / 1000000 ↔ x = y := by
  rw [div_left_inj' (by norm_num), Int.cast_inj, BitVec.toInt_inj]

theorem getElem?_inj_getD {result : List CInt} {n n' : ℕ} (hn : n < result.length)
    (hn' : n' < result.length) :
    result[n]? = result[n']? ↔ result.getD n 0 = result.getD n' 0 := by
  rw [List.getElem?_eq_getElem hn, List.getElem?_eq_getElem hn', List.getD_eq_getElem _ _ hn,
    List.getD_eq_getElem _ _ hn', Option.some_inj]

/-- An array with room for `b` rows is decoded exactly when the words that are read agree with
those that were stored; reading behind the array is no agreement. -/
theorem decodesRows_iff {b : ℕ} {result : List CInt} (hlen : b * m ≤ result.length) :
    DecodesRows m b result ↔ ∀ k < b, ∀ j < m, result[k * b + j]? = result[k * m + j]? := by
  have hstored : ∀ k < b, ∀ j < m, k * m + j < result.length :=
    fun k hk j hj => (rowMajor_lt hk hj).trans_le hlen
  rw [DecodesRows]
  by_cases hin : ReadsInside m b result
  · rw [appendRows_list hin, List.nil_append]
    simp only [Except.ok.injEq, ListResult.list.injEq, List.map_inj_left, List.mem_range,
      funext_iff, decodedRow, storedRow, scaled_word_inj]
    constructor
    · intro h k hk j hj
      rw [getElem?_inj_getD (hin k hk j hj) (hstored k hk j hj)]
      exact h k hk ⟨j, hj⟩
    · intro h k hk j
      rw [← getElem?_inj_getD (hin k hk j j.isLt) (hstored k hk j j.isLt)]
      exact h k hk j j.isLt
  · rw [appendRows_behind hin]
    refine iff_of_false (by simp) fun h => hin ?_
    intro k hk j hj
    have hword := h k hk j hj
    rw [List.getElem?_eq_getElem (hstored k hk j hj)] at hword
    exact (List.getElem?_eq_some_iff.mp hword).1

/-- All arrays in the kernel's layout are decoded exactly when the batch size is the vector
length, or there is at most one row or no component. For one array the words that are read
must happen to agree. -/
theorem ndp_decodes_rows_iff (m b : ℕ) :
    ((∀ result : List CInt, b * m ≤ result.length → DecodesRows m b result) ↔
        b = m ∨ b ≤ 1 ∨ m = 0) ∧
      ∀ result : List CInt, b * m ≤ result.length → (DecodesRows m b result ↔
        ∀ k < b, ∀ j < m, result[k * b + j]? = result[k * m + j]?) := by
  refine ⟨⟨?_, ?_⟩, fun result hlen => decodesRows_iff hlen⟩
  · intro h
    by_contra hne
    push Not at hne
    -- word `b` is where the second row is looked for, word `m` where it is
    have hlen : b * m ≤ ((List.range (b * m + b + 1)).map fun n =>
        if n = b then (1 : CInt) else 0).length := by
      simp
      omega
    have hword := (decodesRows_iff hlen).mp (h _ hlen) 1 (by omega) 0 (by omega)
    have hm : m < b * m + b + 1 := by nlinarith
    simp [hm, hne.1.symm] at hword
  · intro h result hlen
    rw [decodesRows_iff hlen]
    intro k hk j hj
    rcases h with rfl | hb | rfl
    · rfl
    · obtain rfl : k = 0 := by omega
      simp
    · omega

/-- Two results of 32 words: the second row is read from word 2 on. -/
theorem ndp_decodes_wrong_word : 2 * 32 ≤ 1024 ∧
    ¬ DecodesRows 32 2 ((List.range 65).map fun n => if n = 2 then 1 else 0) := by
  refine ⟨by decide, fun h => ?_⟩
  have hword := (decodesRows_iff (by decide)).mp h 1 (by decide) 0 (by decide)
  exact absurd hword (by decide)

end Decoding

section AddedRows
variable {m : ℕ}

theorem set_map_range {α : Type} (b r : ℕ) (f : ℕ → α) (x : α) :
    ((List.range b).map f).set r x = (List.range b).map (Function.update f r x) := by
  apply List.ext_getElem
  · simp
  · intro n hn _
    by_cases h : r = n
    · simp [h]
    · simp [h, Function.update_of_ne (Ne.symm h)]

/-- What the cached rows add to component `j` of result `r`. -/
def cachedAdd (cached : List ((ℕ × ℕ) × IntRow m)) (r : ℕ) (j : Fin m) : ℚ :=
  ((cached.filter (·.1.1 = r)).map fun c => ((c.2 j).toInt : ℚ)).sum

theorem cachedAdd_cons (c : (ℕ × ℕ) × IntRow m) (cached : List ((ℕ × ℕ) × IntRow m)) (r : ℕ)
    (j : Fin m) : cachedAdd (c :: cached) r j =
      (if c.1.1 = r then ((c.2 j).toInt : ℚ) else 0) + cachedAdd cached r j := by
  by_cases h : c.1.1 = r <;> simp [cachedAdd, h]

theorem foldlM_addRow {b : ℕ} (f : ℕ → FloatRow m) (cached : List ((ℕ × ℕ) × IntRow m))
    (hlt : ∀ c ∈ cached, c.1.1 < b) :
    cached.foldlM (fun rows c => rows.addRow c.1.1 c.2) (.ndarray ((List.range b).map f)) =
      (.ok (.ndarray ((List.range b).map fun r j => f r j + cachedAdd cached r j)) :
        Py (ListResult m)) := by
  induction cached generalizing f with
  | nil => simp [cachedAdd, pure, Except.pure]
  | cons c cached ih =>
    have hrow : ((List.range b).map f)[c.1.1]? = some (f c.1.1) := by
      simp [hlt c List.mem_cons_self]
    have hadd : ListResult.addRow (.ndarray ((List.range b).map f)) c.1.1 c.2 =
        .ok (.ndarray ((List.range b).map
          (Function.update f c.1.1 fun h => f c.1.1 h + (c.2 h).toInt))) := by
      simp only [ListResult.addRow, ListResult.rows, hrow, set_map_range]
      rfl
    rw [List.foldlM_cons, hadd, ok_bind, ih _ fun c' hc' => hlt c' (List.mem_cons_of_mem _ hc')]
    congr 3
    ext r j
    rw [cachedAdd_cons]
    by_cases h : c.1.1 = r
    · subst h
      simp [add_assoc]
    · simp [h, Function.update_of_ne (Ne.symm h)]

theorem fst_lt_of_mem_pairInd {b g : ℕ} {indices : List ℕ} {p : ℕ × ℕ}
    (hp : p ∈ pairInd b g indices) : p.1 < b := by
  have hmem := (List.of_mem_zip hp).1
  simp only [List.mem_flatMap, List.mem_range] at hmem
  exact hmem.choose_spec.2

def chunkResult {L : Cache ℕ (IntRow m)} (lib : FlashRec) (qid : CInt) (b g i : ℕ) (s : SlsState L)
    (indices : List ℕ) : List CInt :=
  lib.unvmeSparseLengthSum
    (ndpArgs m b g i (partitionPairs i (pairInd b g indices) s).filteredPairInd) qid

/-- A chunk that starts from a list ends with an array of one row per result. -/
theorem ndpChunk_list {L : Cache ℕ (IntRow m)} {lib : FlashRec} {qid : CInt} {b g i : ℕ}
    {s : SlsState L} {indices : List ℕ}
    (hin : ReadsInside m b (chunkResult lib qid b g i s indices)) :
    let p := partitionPairs i (pairInd b g indices) s
    ndpChunk lib qid b g i (.list [], s) indices =
      .ok (.ndarray ((List.range b).map fun r j =>
        decodedRow m b (chunkResult lib qid b g i s indices) r j + cachedAdd p.cachedEmbPair r j),
        p.st.called (ndpArgs m b g i p.filteredPairInd)) := by
  intro p
  have hlt : ∀ c ∈ p.cachedEmbPair, c.1.1 < b := by
    intro c hc
    have hmem : c.1 ∈ pairInd b g indices := by
      apply (partitionPairs_perm i (pairInd b g indices) s).subset
      exact List.mem_append_right _ (List.mem_map_of_mem hc)
    exact fst_lt_of_mem_pairInd hmem
  have hrows := foldlM_addRow (decodedRow m b (chunkResult lib qid b g i s indices))
    p.cachedEmbPair hlt
  rw [ndpChunk_eq]
  change (appendRows m b (chunkResult lib qid b g i s indices) (.list []) >>=
    fun rows : ListResult m =>
    p.cachedEmbPair.foldlM (fun rows c => rows.addRow c.1.1 c.2) rows.asArray >>= fun rows =>
      (pure (rows, p.st.called (ndpArgs m b g i p.filteredPairInd)) :
        Py (ListResult m × SlsState L))) = _
  rw [appendRows_list hin, ok_bind, List.nil_append, asArray_list, hrows, ok_bind]
  rfl

theorem ndpChunk_behind {L : Cache ℕ (IntRow m)} {lib : FlashRec} {qid : CInt} {b g i : ℕ}
    {s : SlsState L} {indices : List ℕ}
    (hin : ¬ ReadsInside m b (chunkResult lib qid b g i s indices)) :
    ndpChunk lib qid b g i (.list [], s) indices = .error .behindArray := by
  have hrows := appendRows_behind hin []
  rw [chunkResult] at hrows
  rw [ndpChunk_eq]
  dsimp only
  rw [hrows]
  rfl

/-- A chunk is only completed if its reads stay in the array. -/
theorem readsInside_of_ndpChunk_ok {L : Cache ℕ (IntRow m)} {lib : FlashRec} {qid : CInt}
    {b g i : ℕ}
    {s : SlsState L} {indices : List ℕ} {out : ListResult m × SlsState L}
    (h : ndpChunk lib qid b g i (.list [], s) indices = .ok out) :
    ReadsInside m b (chunkResult lib qid b g i s indices) := by
  by_contra hin
  rw [ndpChunk_behind hin] at h
  cases h

theorem ndpTable_of_le {L : Cache ℕ (IntRow m)} {b : ℕ} (hb : b ≤ 128) (lib : FlashRec)
    (qid : CInt) (indices : List ℕ) (g i : ℕ) (s : SlsState L) :
    ndpTable lib qid indices b g i s =
      ndpChunk lib qid b g i (.list [], s) (indices.take (b * g)) := by
  rw [ndpTable, ndpSplit_of_le hb, pure_bind]
  simp

end AddedRows

section Partition
variable {m : ℕ}

def isCached (L : Lru ℕ (IntRow m)) (s : SlsState L.toCache) (i : ℕ) (p : ℕ × ℕ) : Bool :=
  (L.get? (s.lru i) p.2).isSome

variable {L : Lru ℕ (IntRow m)} {i : ℕ} {s : SlsState L.toCache}

/-- Reading marks entries as used, so membership is that before the loop. -/
theorem partitionPairs_st (i : ℕ) (s : SlsState L.toCache) (pairs : List (ℕ × ℕ)) (i' e : ℕ) :
    L.get? ((partitionPairs i pairs s).st.lru i') e = L.get? (s.lru i') e := by
  induction pairs using List.reverseRecOn with
  | nil => rfl
  | append_singleton pairs pair ih =>
    rw [partitionPairs_concat, Partition.step]
    cases L.get? ((partitionPairs i pairs s).st.lru i) pair.2 with
    | some row =>
      by_cases hi : i' = i
      · subst hi
        simp [SlsState.hit, L.get?_touch, ih]
      · simp [SlsState.hit, hi, ih]
    | none => exact ih

theorem partitionPairs_filtered (pairs : List (ℕ × ℕ)) :
    (partitionPairs i pairs s).filteredPairInd = pairs.filter fun p => !isCached L s i p := by
  induction pairs using List.reverseRecOn with
  | nil => rfl
  | append_singleton pairs pair ih =>
    have hst := partitionPairs_st i s pairs i pair.2
    rw [partitionPairs_concat, Partition.step, List.filter_append, ← ih]
    cases hget : L.get? (s.lru i) pair.2 with
    | some row => simp [hst, hget, isCached]
    | none => simp [hst, hget, isCached]

theorem partitionPairs_cached {row : ℕ → IntRow m} (hrow : L.Agrees row (s.lru i))
    (pairs : List (ℕ × ℕ)) : (partitionPairs i pairs s).cachedEmbPair =
      (pairs.filter (isCached L s i)).map fun p => (p, row p.2) := by
  induction pairs using List.reverseRecOn with
  | nil => rfl
  | append_singleton pairs pair ih =>
    have hst := partitionPairs_st i s pairs i pair.2
    rw [partitionPairs_concat, Partition.step, List.filter_append, List.map_append, ← ih]
    cases hget : L.get? (s.lru i) pair.2 with
    | some r => simp [hst, hget, isCached, hrow _ _ hget]
    | none => simp [hst, hget, isCached]

end Partition

section Transparency
variable {m : ℕ}

def rowSum (row : ℕ → IntRow m) (pairs : List (ℕ × ℕ)) (r : ℕ) (j : Fin m) : ℤ :=
  ((pairs.filter (·.1 = r)).map fun p => (row p.2 j).toInt).sum

/-- The words that `slsload` reads from the result of the call for `pairs` are words of the array
and the exact sums of the rows. -/
def ExactSums (lib : FlashRec) (qid : CInt) (row : ℕ → IntRow m) (b g i : ℕ)
    (pairs : List (ℕ × ℕ)) : Prop :=
  ∀ k < b, ∀ j : Fin m,
    ((lib.unvmeSparseLengthSum (ndpArgs m b g i pairs) qid)[k * b + j.val]?).map BitVec.toInt =
      some (rowSum row pairs k j)

instance (lib : FlashRec) (qid : CInt) (row : ℕ → IntRow m) (b g i : ℕ) (pairs : List (ℕ × ℕ)) :
    Decidable (ExactSums lib qid row b g i pairs) :=
  inferInstanceAs (Decidable (∀ k < b, ∀ j : Fin m,
    ((lib.unvmeSparseLengthSum (ndpArgs m b g i pairs) qid)[k * b + j.val]?).map BitVec.toInt =
      some (rowSum row pairs k j)))

theorem ExactSums.readsInside {lib : FlashRec} {qid : CInt} {row : ℕ → IntRow m} {b g i : ℕ}
    {pairs : List (ℕ × ℕ)} (h : ExactSums lib qid row b g i pairs) :
    ReadsInside m b (lib.unvmeSparseLengthSum (ndpArgs m b g i pairs) qid) := by
  intro k hk j hj
  obtain ⟨w, hw, -⟩ := Option.map_eq_some_iff.mp (h k hk ⟨j, hj⟩)
  exact (List.getElem?_eq_some_iff.mp hw).1

theorem ExactSums.decodedRow_eq {lib : FlashRec} {qid : CInt} {row : ℕ → IntRow m} {b g i : ℕ}
    {pairs : List (ℕ × ℕ)} (h : ExactSums lib qid row b g i pairs) {k : ℕ} (hk : k < b)
    (j : Fin m) :
    decodedRow m b (lib.unvmeSparseLengthSum (ndpArgs m b g i pairs) qid) k j =
      (rowSum row pairs k j : ℚ) / 1000000 := by
  obtain ⟨w, hw, hsum⟩ := Option.map_eq_some_iff.mp (h k hk j)
  rw [decodedRow, List.getD_eq_getElem?_getD, hw, Option.getD_some, hsum]

/-- The pairs of one table: the lookups with the results they are added to. -/
def lookupPairs (indices : List ℕ) (b g : ℕ) : List (ℕ × ℕ) := pairInd b g (indices.take (b * g))

theorem rowSum_nil (row : ℕ → IntRow m) (r : ℕ) (j : Fin m) : rowSum row [] r j = 0 := rfl

theorem unscaled_eq_iff {f c : ℤ} :
    (f : ℚ) / 1000000 + c = ((f + c : ℤ) : ℚ) / 1000000 ↔ c = 0 := by
  rw [Int.cast_add, add_div, add_right_inj, eq_div_iff (by norm_num)]
  constructor
  · intro h
    have hc : (c : ℚ) = 0 := by linarith
    exact_mod_cast hc
  · rintro rfl
    simp

theorem rowSum_filter (row : ℕ → IntRow m) (pairs : List (ℕ × ℕ)) (c : ℕ × ℕ → Bool) (r : ℕ)
    (j : Fin m) : rowSum row (pairs.filter fun p => !c p) r j + rowSum row (pairs.filter c) r j =
      rowSum row pairs r j := by
  have hperm : (pairs.filter c ++ pairs.filter fun p => !c p).Perm pairs :=
    List.filter_append_perm c pairs
  have hsum := ((hperm.filter (·.1 = r)).map fun p => (row p.2 j).toInt).sum_eq
  rw [List.filter_append, List.map_append, List.sum_append, add_comm] at hsum
  exact hsum

theorem cachedAdd_rows (row : ℕ → IntRow m) (pairs : List (ℕ × ℕ)) (r : ℕ) (j : Fin m) :
    cachedAdd (pairs.map fun p => (p, row p.2)) r j = rowSum row pairs r j := by
  simp [cachedAdd, rowSum, List.filter_map, Function.comp_def, Int.cast_list_sum]

variable {L : Lru ℕ (IntRow m)} {i b g : ℕ} {lib : FlashRec} {qid : CInt} {row : ℕ → IntRow m}
  {s s₀ : SlsState L.toCache}

/-- The result of one table: device sums are scaled, cached rows are not. -/
theorem ndpTable_eq (hb : b ≤ 128) (indices : List ℕ) (hrow : L.Agrees row (s.lru i))
    (hsums : ExactSums lib qid row b g i
      ((lookupPairs indices b g).filter fun p => !isCached L s i p)) :
    ∃ st, ndpTable lib qid indices b g i s = .ok (.ndarray ((List.range b).map fun r j =>
      (rowSum row ((lookupPairs indices b g).filter fun p => !isCached L s i p) r j : ℚ) / 1000000 +
        rowSum row ((lookupPairs indices b g).filter (isCached L s i)) r j), st) := by
  have hresult : chunkResult lib qid b g i s (indices.take (b * g)) = lib.unvmeSparseLengthSum
      (ndpArgs m b g i ((lookupPairs indices b g).filter fun p => !isCached L s i p)) qid := by
    rw [chunkResult, partitionPairs_filtered, lookupPairs]
  have hchunk := ndpChunk_list (by rw [hresult]; exact hsums.readsInside)
  simp only [hresult, partitionPairs_cached hrow, cachedAdd_rows] at hchunk
  rw [ndpTable_of_le hb, hchunk]
  refine ⟨_, congrArg (fun rows => Except.ok (ListResult.ndarray rows, _)) ?_⟩
  apply List.map_congr_left
  intro r hr
  ext j
  rw [hsums.decodedRow_eq (List.mem_range.mp hr), lookupPairs]

def CacheTransparent (lib : FlashRec) (qid : CInt) (indices : List ℕ) (b g i : ℕ)
    (s s₀ : SlsState L.toCache) : Prop :=
  ∃ listResult st st₀, ndpTable lib qid indices b g i s = .ok (listResult, st) ∧
    ndpTable lib qid indices b g i s₀ = .ok (listResult, st₀)

section Exact
variable {indices : List ℕ} (hb : b ≤ 128) (hrow : L.Agrees row (s.lru i))
  (hempty : ∀ e, L.get? (s₀.lru i) e = none)
  (hsums : ExactSums lib qid row b g i
    ((lookupPairs indices b g).filter fun p => !isCached L s i p))
  (hsums₀ : ExactSums lib qid row b g i (lookupPairs indices b g))
include hb hrow hempty hsums hsums₀

theorem cacheTransparent_iff_rows : CacheTransparent lib qid indices b g i s s₀ ↔
    ∀ r < b, ∀ j,
      (rowSum row ((lookupPairs indices b g).filter fun p => !isCached L s i p) r j : ℚ) / 1000000 +
        rowSum row ((lookupPairs indices b g).filter (isCached L s i)) r j =
      (rowSum row (lookupPairs indices b g) r j : ℚ) / 1000000 := by
  have hnone : isCached L s₀ i = fun _ => false := by
    ext p
    simp [isCached, hempty]
  have hrow₀ : L.Agrees row (s₀.lru i) := fun e v hv => by simp [hempty] at hv
  obtain ⟨st, hs⟩ := ndpTable_eq hb indices hrow hsums
  obtain ⟨st₀, hs₀⟩ := ndpTable_eq hb indices hrow₀ (by simpa [hnone] using hsums₀)
  simp only [hnone, Bool.not_false, List.filter_true, List.filter_false, rowSum_nil, Int.cast_zero,
    add_zero] at hs₀
  simp only [CacheTransparent, hs, hs₀, Except.ok.injEq, Prod.mk.injEq]
  constructor
  · rintro ⟨_, _, _, ⟨rfl, -⟩, heq, -⟩ r hr j
    have hrows := ListResult.ndarray.inj heq
    exact (congrFun (List.map_inj_left.mp hrows r (List.mem_range.mpr hr)) j).symm
  · intro hcells
    refine ⟨_, st, st₀, ⟨rfl, rfl⟩, ?_, rfl⟩
    congr 1
    apply List.map_congr_left
    intro r hr
    ext j
    exact (hcells r (List.mem_range.mp hr) j).symm

theorem not_cacheTransparent {r : ℕ} (hr : r < b) {j : Fin m}
    (hne : rowSum row ((lookupPairs indices b g).filter (isCached L s i)) r j ≠ 0) :
    ¬ CacheTransparent lib qid indices b g i s s₀ := by
  intro h
  have hcell := (cacheTransparent_iff_rows hb hrow hempty hsums hsums₀).mp h r hr j
  rw [← rowSum_filter row (lookupPairs indices b g) (isCached L s i)] at hcell
  exact hne (unscaled_eq_iff.mp hcell)

end Exact

/-- With coherent entries and exact device sums, the result is that of an empty cache exactly
when the cached rows of every result add up to zero. -/
theorem ndp_cache_transparent_iff (lib : FlashRec) (qid : CInt) (row : ℕ → IntRow m)
    (indices : List ℕ) (hb : b ≤ 128) (s s₀ : SlsState L.toCache)
    (hrow : L.Agrees row (s.lru i)) (hempty : ∀ e, L.get? (s₀.lru i) e = none)
    (hsums : ExactSums lib qid row b g i
      ((lookupPairs indices b g).filter fun p => !isCached L s i p))
    (hsums₀ : ExactSums lib qid row b g i (lookupPairs indices b g)) :
    CacheTransparent lib qid indices b g i s s₀ ↔ ∀ r < b, ∀ j,
      rowSum row ((lookupPairs indices b g).filter (isCached L s i)) r j = 0 := by
  constructor
  · intro h r hr j
    by_contra hne
    exact not_cacheTransparent hb hrow hempty hsums hsums₀ hr hne h
  · intro hzero
    rw [cacheTransparent_iff_rows hb hrow hempty hsums hsums₀]
    intro r hr j
    rw [← rowSum_filter row (lookupPairs indices b g) (isCached L s i)]
    exact unscaled_eq_iff.mpr (hzero r hr j)

def noRows : SlsState (Lru.recent : Lru ℕ (IntRow 1)).toCache :=
  ⟨fun _ => Lru.recent.new 2000, 0, 0, 0, 0, []⟩

def rowZero (v : CInt) : SlsState (Lru.recent : Lru ℕ (IntRow 1)).toCache :=
  noRows.store 0 0 fun _ => v

theorem rowZero_agrees (row : ℕ → IntRow 1) {v : CInt} (h : row 0 = fun _ => v) :
    (Lru.recent : Lru ℕ (IntRow 1)).Agrees row ((rowZero v).lru 0) := by
  have hset := ((Lru.recent : Lru ℕ (IntRow 1)).agrees_new row 2000).set 0
  rwa [h] at hset

theorem ndp_cache_transparent_zero : CacheTransparent ⟨fun _ _ _ _ _ => 0, fun _ _ => [7]⟩ 0
    [0, 1] 1 2 0 (rowZero 0) noRows :=
  (ndp_cache_transparent_iff _ _ (fun e _ => if e = 0 then 0 else 7) _ (by decide) _ _
    (rowZero_agrees _ rfl) (fun _ => rfl) (by decide) (by decide)).mpr (by decide)

/-- One lookup of the row 1.0 in fixed point: from the device it counts 1, from the cache
1000000. -/
theorem ndp_cached_row_unscaled :
    let lib : FlashRec := ⟨fun _ _ _ _ _ => 0,
      fun a _ => if a.inputEmbeddings = 0 then [0] else [1000000]⟩
    let row : ℕ → IntRow 1 := fun _ _ => 1000000
    (Lru.recent : Lru ℕ (IntRow 1)).Agrees row ((rowZero 1000000).lru 0) ∧
      ExactSums lib 0 row 1 1 0 [] ∧ ExactSums lib 0 row 1 1 0 (lookupPairs [0] 1 1) ∧
      ¬ CacheTransparent lib 0 [0] 1 1 0 (rowZero 1000000) noRows := by
  intro lib row
  have hrow := rowZero_agrees row (v := 1000000) rfl
  have hnil : ExactSums lib 0 row 1 1 0 [] := by decide
  have hone : ExactSums lib 0 row 1 1 0 (lookupPairs [0] 1 1) := by decide
  refine ⟨hrow, hnil, hone, ?_⟩
  exact not_cacheTransparent (r := 0) (j := 0) (by decide) hrow (fun _ => rfl) hnil hone (by decide)
    (by decide)

end Transparency

section Split
variable {m : ℕ} {L : Cache ℕ (IntRow m)} {b g : ℕ}

/-- A later chunk appends to the array that the first one left. -/
theorem ndpChunk_ndarray (lib : FlashRec) (qid : CInt) (hb : 0 < b) (g i : ℕ)
    (rows : List (FloatRow m)) (s : SlsState L) (indices : List ℕ) :
    ndpChunk lib qid b g i (.ndarray rows, s) indices = .error .attributeError := by
  rw [ndpChunk_eq]
  dsimp only
  rw [appendRows, forLoop_error (k := 0) rfl rfl hb]
  rfl

theorem ndpSplit_of_gt (hb : 128 < b) {indices : List ℕ} (hlen : indices.length = b * g) :
    ndpSplit indices b g = .ok (arraySplit indices (b / 128), 128) := by
  have htake : indices.take (b * g) = indices := List.take_of_length_le hlen.le
  have hb0 : (b : ℚ) ≠ 0 := by
    have : 0 < b := by omega
    positivity
  have hden : ((indices.length : ℚ) / ((b : ℚ) / 128)).den = 1 := by
    have hq : (indices.length : ℚ) / ((b : ℚ) / 128) = ((g * 128 : ℕ) : ℚ) := by
      rw [hlen]
      push_cast
      field_simp
    rw [hq, Rat.den_natCast]
  have hfloor : ((b : ℚ) / 128).floor.toNat = b / 128 :=
    congrArg Int.toNat (Rat.floor_natCast_div_natCast b 128)
  rw [ndpSplit, if_pos hb, npSplit, htake, if_pos hden, hfloor]
  rfl

theorem arraySplit_one (xs : List ℕ) : arraySplit xs 1 = [xs] := by
  simp [arraySplit, Nat.mod_one]

theorem arraySplit_length (xs : List ℕ) (n : ℕ) : (arraySplit xs n).length = n := by
  simp [arraySplit]

section Table
variable (lib : FlashRec) (qid : CInt) (i : ℕ) (s : SlsState L) {indices : List ℕ}

theorem ndpTable_of_lt_256 (hb : 128 < b) (hb' : b < 256) (hlen : indices.length = b * g) :
    ndpTable lib qid indices b g i s = ndpChunk lib qid 128 g i (.list [], s) indices := by
  rw [ndpTable, ndpSplit_of_gt hb hlen, show b / 128 = 1 by omega, arraySplit_one, ok_bind]
  simp only [List.foldlM_cons, List.foldlM_nil, bind_pure]

/-- Between 128 and 256 samples there is one chunk, and its zip stops after 128 results. -/
theorem ndpTable_one_chunk (hb : 128 < b) (hb' : b < 256) (hlen : indices.length = b * g)
    (hin : ReadsInside m 128 (chunkResult lib qid 128 g i s indices)) :
    ∃ rows st, ndpTable lib qid indices b g i s = .ok (.ndarray rows, st) ∧ rows.length = 128 := by
  rw [ndpTable_of_lt_256 lib qid i s hb hb' hlen, ndpChunk_list hin]
  exact ⟨_, _, rfl, by simp⟩

theorem ndpChunks_attributeError (hb : 0 < b) {first second : List ℕ} {split : List (List ℕ)}
    (hin : ReadsInside m b (chunkResult lib qid b g i s first)) :
    (first :: second :: split).foldlM (ndpChunk lib qid b g i) (.list [], s) =
      .error .attributeError := by
  rw [List.foldlM_cons, ndpChunk_list hin, ok_bind, List.foldlM_cons, ndpChunk_ndarray _ _ hb]
  rfl

/-- Two chunks never complete; the second one fails if the first does not. -/
theorem ndpChunks_error (hb : 0 < b) (first second : List ℕ) (split : List (List ℕ)) :
    (first :: second :: split).foldlM (ndpChunk lib qid b g i) (.list [], s) =
      .error .behindArray ∨
    (first :: second :: split).foldlM (ndpChunk lib qid b g i) (.list [], s) =
      .error .attributeError := by
  by_cases hin : ReadsInside m b (chunkResult lib qid b g i s first)
  · exact .inr (ndpChunks_attributeError lib qid i s hb hin)
  · left
    rw [List.foldlM_cons, ndpChunk_behind hin]
    rfl

theorem arraySplit_two (xs : List ℕ) {n : ℕ} (hn : 2 ≤ n) :
    ∃ first second split, arraySplit xs n = first :: second :: split := by
  have hlen := arraySplit_length xs n
  match hsplit : arraySplit xs n with
  | [] | [_] =>
    rw [hsplit] at hlen
    simp at hlen
    omega
  | first :: second :: split => exact ⟨first, second, split, rfl⟩

/-- From 256 samples on there are at least two chunks. -/
theorem ndpTable_two_chunks (hb : 256 ≤ b) (hlen : indices.length = b * g) :
    ndpTable lib qid indices b g i s = .error .behindArray ∨
      ndpTable lib qid indices b g i s = .error .attributeError := by
  obtain ⟨first, second, split, hsplit⟩ := arraySplit_two indices (n := b / 128) (by omega)
  rw [ndpTable, ndpSplit_of_gt (by omega) hlen, hsplit, ok_bind]
  exact ndpChunks_error lib qid i s (by decide) first second split

/-- The branch completes with one row per sample, and every lookup position is handed on
exactly once. The positions are followed by splitting the list of positions. -/
def SplitsWhole (lib : FlashRec) (qid : CInt) (indices : List ℕ) (b g i : ℕ) (s : SlsState L) :
    Prop :=
  (∃ listResult st, ndpTable lib qid indices b g i s = .ok (listResult, st) ∧
    listResult.rows.length = b) ∧
  ∃ split batchsize, ndpSplit (List.range (b * g)) b g = .ok (split, batchsize) ∧
    (split.flatMap fun chunk => (pairInd batchsize g chunk).map Prod.snd).Perm (List.range (b * g))

/-- What is returned for more than 128 samples is the table of one chunk. -/
theorem ndpTable_ok_of_gt (hb : 128 < b) (hlen : indices.length = b * g)
    {out : ListResult m × SlsState L} (h : ndpTable lib qid indices b g i s = .ok out) :
    b < 256 ∧ out.1.rows.length = 128 := by
  rcases Nat.lt_or_ge b 256 with hb' | hb'
  · refine ⟨hb', ?_⟩
    rw [ndpTable_of_lt_256 lib qid i s hb hb' hlen] at h
    rw [ndpChunk_list (readsInside_of_ndpChunk_ok h)] at h
    cases h
    simp [ListResult.rows]
  · rcases ndpTable_two_chunks lib qid i s hb' hlen with herr | herr
    · rw [herr] at h
      cases h
    · rw [herr] at h
      cases h

theorem not_splitsWhole (hb : 128 < b) (hlen : indices.length = b * g) :
    ¬ SplitsWhole lib qid indices b g i s := by
  rintro ⟨⟨listResult, st, hrun, hrows⟩, -⟩
  obtain ⟨hb', hrows'⟩ := ndpTable_ok_of_gt lib qid i s hb hlen hrun
  dsimp only at hrows'
  omega

end Table

/-- Splitting never succeeds: whatever is returned has 128 rows. While the reads stay in the
arrays of the library, such a table is returned up to 255 samples, and larger batches raise an
exception. -/
theorem ndp_split_never_whole (lib : FlashRec) (qid : CInt) (indices : List ℕ) (b g i : ℕ)
    (s : SlsState L) (hb : 128 < b) (hlen : indices.length = b * g) :
    ¬ SplitsWhole lib qid indices b g i s ∧
    (∀ listResult st, ndpTable lib qid indices b g i s = .ok (listResult, st) →
      listResult.rows.length = 128) ∧
    ((∀ a, ReadsInside m 128 (lib.unvmeSparseLengthSum a qid)) →
      (b < 256 → ∃ rows st, ndpTable lib qid indices b g i s = .ok (.ndarray rows, st) ∧
        rows.length = 128) ∧
      (256 ≤ b → ndpTable lib qid indices b g i s = .error .attributeError)) := by
  refine ⟨not_splitsWhole lib qid i s hb hlen, ?_, ?_⟩
  · intro listResult st h
    exact (ndpTable_ok_of_gt lib qid i s hb hlen h).2
  · intro hin
    constructor
    · intro hb'
      exact ndpTable_one_chunk lib qid i s hb hb' hlen (hin _)
    · intro hb'
      obtain ⟨first, second, split, hsplit⟩ :=
        arraySplit_two indices (n := b / 128) (by omega)
      rw [ndpTable, ndpSplit_of_gt hb hlen, hsplit, ok_bind]
      exact ndpChunks_attributeError lib qid i s (by decide) (hin _)

/-- 256 samples of one lookup; the arrays have room for 128 rows of one word. -/
theorem ndp_split_never_whole_256 :
    ndpTable ⟨fun _ _ _ _ _ => 0, fun _ _ => List.replicate 16384 0⟩ 0 (List.range 256) 256 1 0
      noRows = .error .attributeError :=
  ((ndp_split_never_whole _ _ _ 256 1 0 _ (by decide) (by simp)).2.2 (by
    intro a k hk j hj
    rw [List.length_replicate]
    omega)).2 le_rfl

/-- A batch of 129 samples with one lookup each gets 128 rows. -/
theorem ndp_split_drops_sample :
    ¬ SplitsWhole ⟨fun _ _ _ _ _ => 0, fun _ _ => List.replicate 16384 0⟩ 0 (List.range 129) 129 1 0
      noRows :=
  not_splitsWhole _ _ _ _ (by decide) (by simp)

end Split

end EbpfIsp.Recsys
