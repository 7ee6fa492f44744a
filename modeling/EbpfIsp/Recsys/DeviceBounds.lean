import EbpfIsp.Recsys.NdpResults
import EbpfIsp.Recsys.Run

/-! # Memory accesses of the device program in `ndp` mode

A command carries the result id of its pair, and the kernel adds to the map
page at the vector length times that id. Result ids go up to 127, while a page
has room for 32 or 16 results. The warning of the driver is printed after the
command has been submitted.
-/

namespace EbpfIsp.Recsys
open Library Device Kernels Driver

section Calls
variable {m : ℕ} {L : Cache ℕ (IntRow m)} {lib : FlashRec} {qid : CInt} {indices : List ℕ}
  {b g i : ℕ} {s : SlsState L}

theorem ndpSplit_ok {batchsize : ℕ} {split : List (List ℕ)}
    (h : ndpSplit indices b g = .ok (split, batchsize)) :
    (b ≤ 128 ∧ split = [indices.take (b * g)] ∧ batchsize = b) ∨
      (128 < b ∧ split = arraySplit (indices.take (b * g)) (b / 128) ∧ batchsize = 128) := by
  rcases Nat.lt_or_ge 128 b with hb | hb
  · right
    rw [ndpSplit, if_pos hb] at h
    obtain ⟨parts, hparts, hret⟩ := bind_eq_ok h
    cases hret
    rw [npSplit] at hparts
    split_ifs at hparts
    cases hparts
    exact ⟨hb, congrArg _ (congrArg Int.toNat (Rat.floor_natCast_div_natCast b 128)), rfl⟩
  · left
    rw [ndpSplit_of_le hb] at h
    cases h
    exact ⟨hb, rfl, rfl⟩

theorem ndpChunk_of_table_ok {out : ListResult m × SlsState L}
    (h : ndpTable lib qid indices b g i s = .ok out) :
    ndpChunk lib qid (min b 128) g i (.list [], s) (indices.take (b * g)) = .ok out := by
  obtain ⟨⟨split, batchsize⟩, hsplit, hchunks⟩ := bind_eq_ok h
  dsimp only at hchunks
  rcases ndpSplit_ok hsplit with ⟨hb, rfl, rfl⟩ | ⟨hb, rfl, rfl⟩
  · rw [Nat.min_eq_left hb]
    simpa only [List.foldlM_cons, List.foldlM_nil, bind_pure] using hchunks
  · rw [Nat.min_eq_right hb.le]
    rcases Nat.lt_or_ge b 256 with hb' | hb'
    · rw [show b / 128 = 1 by omega, arraySplit_one] at hchunks
      simpa only [List.foldlM_cons, List.foldlM_nil, bind_pure] using hchunks
    · obtain ⟨first, second, split, htwo⟩ :=
        arraySplit_two (indices.take (b * g)) (n := b / 128) (by omega)
      rw [htwo] at hchunks
      rcases ndpChunks_error lib qid i s (g := g) (b := 128) (by decide) first second
        split with herr | herr
      · rw [herr] at hchunks
        cases hchunks
      · rw [herr] at hchunks
        cases hchunks

theorem ndpChunk_st {acc out : ListResult m × SlsState L} {chunk : List ℕ}
    (h : ndpChunk lib qid b g i acc chunk = .ok out) :
    out.2 = (partitionPairs i (pairInd b g chunk) acc.2).st.called
      (ndpArgs m b g i (partitionPairs i (pairInd b g chunk) acc.2).filteredPairInd) := by
  rw [ndpChunk_eq] at h
  obtain ⟨rows, -, hrest⟩ := bind_eq_ok h
  obtain ⟨rows', -, hret⟩ := bind_eq_ok hrest
  cases hret
  rfl

theorem partitionPairs_calls (i : ℕ) (pairs : List (ℕ × ℕ)) (s : SlsState L) :
    (partitionPairs i pairs s).st.calls = s.calls := by
  induction pairs using List.reverseRecOn with
  | nil => rfl
  | append_singleton pairs pair ih =>
    rw [partitionPairs_concat, Partition.step]
    cases L.get? ((partitionPairs i pairs s).st.lru i) pair.2 with
    | some row => exact ih
    | none => exact ih

end Calls

section Bounds
variable {m b g i : ℕ} {qid ret : CInt} {pairs : List (ℕ × ℕ)}

/-- The command makes the kernel touch its data and its map page only. -/
def InBounds (kernel : Kernel 1024 CInt) (c : Request CInt) : Prop :=
  ∀ d : Ssd 1024 CInt, (d.exec kernel c).isSome

theorem getD_flatMap_pair (l : List (ℕ × ℕ)) (n : ℕ) :
    (l.flatMap fun p => [p.1, p.2]).getD (n * 2) 0 = (l.getD n (0, 0)).1 := by
  induction l generalizing n with
  | nil => simp
  | cons p l ih =>
    cases n with
    | zero => simp
    | succ n =>
      rw [Nat.succ_mul]
      simpa using ih n

/-- The kernel run of a pair stays inside exactly when the slot of its result does. -/
theorem ispRequest_inBounds_iff (hm : m ∣ 1024) (a : SlsArgs) (n : ℕ) :
    InBounds (embedding m ret) (.ioCmd (ispRequest a qid n)) ↔
      mapPtr m (a.flatInd (n * 2)) + m ≤ 1024 := by
  have hpos : 0 < m := Nat.pos_of_dvd_of_pos hm (by decide)
  have hsrc := targetVector_add_le hm (a.flatInd (n * 2 + 1))
  have hexec (d : Ssd 1024 CInt) : (d.exec (embedding m ret) (.ioCmd (ispRequest a qid n))).isSome ↔
      mapPtr m (a.flatInd (n * 2)) + m ≤ 1024 := by
    rw [Ssd.exec_ispRun (embedding m ret) d rfl rfl (show (0 : CInt).toNat = 0 from rfl) rfl,
      Option.isSome_map, embedding_isSome_iff hpos]
    exact ⟨fun h => h.2, fun h => ⟨by simpa [ispRequest] using hsrc, h⟩⟩
  constructor
  · exact fun h => (hexec ⟨0, 0⟩).mp (h _)
  · exact fun h d => (hexec d).mpr h

theorem mapPtr_le_iff (hm : m ∣ 1024) {r : ℕ} (hr : r < 128) :
    mapPtr m (cInt r) + m ≤ 1024 ↔ r < 1024 / m := by
  have hpos : 0 < m := Nat.pos_of_dvd_of_pos hm (by decide)
  have hle : m ≤ 1024 := Nat.le_of_dvd (by decide) hm
  have hnat : (cInt r).toNat = r := by
    rw [cInt, BitVec.toNat_ofNat]
    omega
  have hlt : m * (cInt r).toNat < 2 ^ 32 := by
    rw [hnat]
    calc m * r ≤ 1024 * 128 := Nat.mul_le_mul hle hr.le
      _ < 2 ^ 32 := by decide
  rw [mapPtr_of_lt hlt, hnat, ← Nat.succ_le_iff, Nat.le_div_iff_mul_le hpos, Nat.succ_mul,
    Nat.mul_comm]

/-- Command `n` of a call carries the result id of the `n`-th pair in the order of the indices. -/
theorem ndpCommand_inBounds_iff (hm : m ∣ 1024) (hpairs : ∀ p ∈ pairs, p.1 < 128) {n : ℕ}
    (hn : n < pairs.length) :
    InBounds (embedding m ret) (.ioCmd (ispRequest (ndpArgs m b g i pairs) qid n)) ↔
      ((pairs.mergeSort fun x y => x.2 ≤ y.2).getD n (0, 0)).1 < 1024 / m := by
  have hmem : (pairs.mergeSort fun x y => x.2 ≤ y.2).getD n (0, 0) ∈ pairs := by
    rw [List.getD_eq_getElem _ _ (by rw [List.length_mergeSort]; exact hn)]
    exact List.mem_mergeSort.mp (List.getElem_mem _)
  rw [ispRequest_inBounds_iff hm, ← mapPtr_le_iff hm (hpairs _ hmem), ← getD_flatMap_pair]
  rfl

/-- All commands of one call; the number of pairs is passed as an `int`. -/
theorem call_inBounds_iff (hm : m ∣ 1024) (hpairs : ∀ p ∈ pairs, p.1 < 128)
    (hcount : pairs.length < 2 ^ 31) :
    (∀ c ∈ slsCommands (ndpArgs m b g i pairs) qid, InBounds (embedding m ret) c) ↔
      ∀ p ∈ pairs, p.1 < 1024 / m := by
  have hsubmitted : (ndpArgs m b g i pairs).inputEmbeddings.toInt.toNat = pairs.length := by
    rw [ndpArgs, cInt_toInt hcount, Int.toNat_natCast]
  set sorted := pairs.mergeSort fun x y => x.2 ≤ y.2 with hsorted
  have hlen : sorted.length = pairs.length := List.length_mergeSort _
  constructor
  · intro h p hp
    obtain ⟨n, hn, rfl⟩ := List.getElem_of_mem (List.mem_mergeSort.mpr hp : p ∈ sorted)
    rw [hlen] at hn
    have hcmd := h _ (List.mem_append_left _ (List.mem_map.mpr
      ⟨n, List.mem_range.mpr (by rwa [hsubmitted]), rfl⟩))
    rw [← List.getD_eq_getElem _ (0, 0)]
    exact (ndpCommand_inBounds_iff hm hpairs hn).mp hcmd
  · intro h c hc
    rcases List.mem_append.mp hc with hc | hc
    · obtain ⟨n, hn, rfl⟩ := List.mem_map.mp hc
      rw [List.mem_range, hsubmitted] at hn
      apply (ndpCommand_inBounds_iff hm hpairs hn).mpr
      apply h
      rw [← hsorted, List.getD_eq_getElem _ _ (by omega)]
      exact List.mem_mergeSort.mp (List.getElem_mem _)
    · simp only [List.mem_cons, List.not_mem_nil, or_false] at hc
      rcases hc with rfl | rfl
      · exact fun d => rfl
      · exact fun d => rfl

end Bounds

section Accepted
variable {m b g tables : ℕ} {L : Lru ℕ (IntRow m)} {s : SlsState L.toCache}

/-- The pairs of table `i` that are not in its cache. -/
def uncachedPairs (L : Lru ℕ (IntRow m)) (s : SlsState L.toCache) (indices : List ℕ) (b g i : ℕ) :
    List (ℕ × ℕ) :=
  (pairInd (min b 128) g (indices.take (b * g))).filter fun p => !isCached L s i p

theorem fst_lt_of_mem_uncachedPairs {indices : List ℕ} {i : ℕ} {p : ℕ × ℕ}
    (hp : p ∈ uncachedPairs L s indices b g i) : p.1 < 128 := by
  have hlt := fst_lt_of_mem_pairInd (List.mem_of_mem_filter hp)
  exact hlt.trans_le (Nat.min_le_right _ _)

theorem length_uncachedPairs_le (indices : List ℕ) (i : ℕ) :
    (uncachedPairs L s indices b g i).length ≤ min (b * g) indices.length := by
  calc (uncachedPairs L s indices b g i).length
      ≤ (pairInd (min b 128) g (indices.take (b * g))).length := List.length_filter_le _ _
    _ ≤ (indices.take (b * g)).length := by
        rw [pairInd, List.length_zip]
        exact Nat.min_le_right _ _
    _ = min (b * g) indices.length := List.length_take

theorem mem_pairInd {n : ℕ} {chunk : List ℕ} {x : ℕ × ℕ} :
    x ∈ pairInd n g chunk ↔ ∃ p < n * g, x.1 = p % n ∧ chunk[p]? = some x.2 := by
  rw [pairInd, generator_eq, Nat.mul_comm g n]
  constructor
  · intro hx
    obtain ⟨p, hp, rfl⟩ := List.getElem_of_mem hx
    rw [List.length_zip, List.length_map, List.length_range] at hp
    refine ⟨p, by omega, by simp, ?_⟩
    rw [List.getElem_zip, List.getElem?_eq_getElem (by omega)]
  · rintro ⟨p, hp, hfst, hsnd⟩
    obtain ⟨hlt, hget⟩ := List.getElem?_eq_some_iff.mp hsnd
    refine List.mem_iff_getElem.mpr ⟨p, by simp; omega, ?_⟩
    rw [List.getElem_zip]
    ext
    · simp [hfst]
    · exact hget

/-- The uncached pairs stay in the page exactly if the positions that do not look up a cached
index. -/
theorem uncachedPairs_lt_iff {indices : List ℕ} {i : ℕ} :
    (∀ x ∈ uncachedPairs L s indices b g i, x.1 < 1024 / m) ↔
      ∀ p e, indices[p]? = some e → p < min b 128 * g → 1024 / m ≤ p % min b 128 →
        (L.get? (s.lru i) e).isSome := by
  have hmem : ∀ x, x ∈ uncachedPairs L s indices b g i ↔ ∃ p < min b 128 * g,
      x.1 = p % min b 128 ∧ indices[p]? = some x.2 ∧ L.get? (s.lru i) x.2 = none := by
    intro x
    rw [uncachedPairs, List.mem_filter, mem_pairInd, isCached]
    constructor
    · rintro ⟨⟨p, hp, hfst, hsnd⟩, hnone⟩
      refine ⟨p, hp, hfst, ?_, by simpa using hnone⟩
      rw [List.getElem?_take] at hsnd
      split_ifs at hsnd
      exact hsnd
    · rintro ⟨p, hp, hfst, hsnd, hnone⟩
      have hlt : p < b * g := hp.trans_le (Nat.mul_le_mul_right g (Nat.min_le_left _ _))
      exact ⟨⟨p, hp, hfst, by rw [List.getElem?_take, if_pos hlt, hsnd]⟩, by simp [hnone]⟩
  constructor
  · intro h p e hget hp hrow
    by_contra hnone
    have hlt := h (p % min b 128, e) ((hmem _).mpr ⟨p, hp, rfl, hget, by simpa using hnone⟩)
    dsimp only at hlt
    omega
  · intro h x hx
    obtain ⟨p, hp, hfst, hget, hnone⟩ := (hmem x).mp hx
    by_contra hout
    have hsome := h p x.2 hget hp (by omega)
    rw [hnone] at hsome
    cases hsome

/-- An accepted call of `slsload` calls the library once per table, with the pairs that were not
cached before. -/
theorem accepted_calls {lib : FlashRec} {qid : CInt} {sIndices : ℕ → List ℕ}
    {out : (Option (ListResult m) × ℚ) × SlsState L.toCache}
    (h : slsload .ndp lib qid sIndices tables b g s = .ok out) :
    out.2.calls = (List.range tables).map fun i =>
      ndpArgs m (min b 128) g i (uncachedPairs L s (sIndices i) b g i) := by
  obtain ⟨⟨res, st⟩, hres, hrate⟩ := bind_eq_ok h
  have hout : out.2 = st := by
    dsimp only at hrate
    split_ifs at hrate
    · cases hrate
    · cases hrate
      rfl
  have hloop : st.calls = (List.range tables).map (fun i =>
      ndpArgs m (min b 128) g i (uncachedPairs L s (sIndices i) b g i)) ∧
      ∀ i e, L.get? (st.lru i) e = L.get? (s.lru i) e := by
    refine forLoop_ok (fun n (acc : Option (ListResult m) × SlsState L.toCache) =>
      acc.2.calls = (List.range n).map (fun i =>
        ndpArgs m (min b 128) g i (uncachedPairs L s (sIndices i) b g i)) ∧
      ∀ i e, L.get? (acc.2.lru i) e = L.get? (s.lru i) e) hres ⟨rfl, fun _ _ => rfl⟩ ?_
    rintro n hn ⟨_, t⟩ acc' ⟨hcalls, hst⟩ hbody
    obtain ⟨table, htable, hret⟩ := bind_eq_ok hbody
    cases hret
    dsimp only at hcalls hst htable ⊢
    have hcached : isCached L t n = isCached L s n := by
      ext p
      rw [isCached, isCached, hst]
    rw [ndpChunk_st (ndpChunk_of_table_ok htable)]
    constructor
    · rw [SlsState.called, partitionPairs_calls, partitionPairs_filtered, hcached, hcalls,
        List.range_succ, List.map_append]
      rfl
    · intro i e
      exact (partitionPairs_st n t _ i e).trans (hst i e)
  rw [hout]
  exact hloop.1

end Accepted

/-- The device program for rows of `m` words: `embedding32.c` or `embedding64.c`. -/
def deviceProgram (m : ℕ) : Kernel 1024 CInt := if m = 32 then embedding32 else embedding64

theorem deviceProgram_eq {m : ℕ} (hm : m = 32 ∨ m = 64) :
    ∃ ret, deviceProgram m = embedding m ret := by
  rcases hm with rfl | rfl
  · exact ⟨0, rfl⟩
  · exact ⟨4, rfl⟩

theorem accepted_inBounds_iff {m : ℕ} (hm : m = 32 ∨ m = 64) {L : Lru ℕ (IntRow m)} {lib : FlashRec}
    {qid : CInt} {sIndices : ℕ → List ℕ} {tables b g : ℕ}
    (hcount : ∀ i < tables, min (b * g) (sIndices i).length < 2 ^ 31)
    {s : SlsState L.toCache} {out : (Option (ListResult m) × ℚ) × SlsState L.toCache}
    (haccepted : slsload .ndp lib qid sIndices tables b g s = .ok out) :
    (∀ a ∈ out.2.calls, ∀ c ∈ slsCommands a qid, InBounds (deviceProgram m) c) ↔
      ∀ i < tables, ∀ p e, (sIndices i)[p]? = some e → p < min b 128 * g →
        1024 / m ≤ p % min b 128 → (L.get? (s.lru i) e).isSome := by
  obtain ⟨ret, hret⟩ := deviceProgram_eq hm
  have hdvd : m ∣ 1024 := by
    rcases hm with rfl | rfl <;> decide
  have hcall (i : ℕ) (hi : i < tables) : (∀ c ∈ slsCommands (ndpArgs m (min b 128) g i
      (uncachedPairs L s (sIndices i) b g i)) qid, InBounds (embedding m ret) c) ↔
      ∀ p ∈ uncachedPairs L s (sIndices i) b g i, p.1 < 1024 / m :=
    call_inBounds_iff hdvd (fun p hp => fst_lt_of_mem_uncachedPairs hp)
      ((length_uncachedPairs_le _ _).trans_lt (hcount i hi))
  rw [accepted_calls haccepted, hret]
  simp only [List.mem_map, List.mem_range, forall_exists_index, and_imp, forall_apply_eq_imp_iff₂]
  exact forall₂_congr fun i hi => (hcall i hi).trans uncachedPairs_lt_iff

/-- All commands of an accepted call of `slsload` in `ndp` mode stay inside their pages exactly
when every lookup position whose result has no room in a map page looks up a cached index. The
result of position `p` is `p % b`, or `p % 128` for more than 128 samples. -/
theorem isp_commands_in_bounds_iff {m : ℕ} (hm : m = 32 ∨ m = 64) (L : Lru ℕ (IntRow m))
    (lib : FlashRec) (qid : CInt) (sIndices : ℕ → List ℕ) (tables b g : ℕ)
    (hcount : ∀ i < tables, min (b * g) (sIndices i).length < 2 ^ 31)
    (s : SlsState L.toCache) (out : (Option (ListResult m) × ℚ) × SlsState L.toCache)
    (haccepted : slsload .ndp lib qid sIndices tables b g s = .ok out) :
    (∀ a ∈ out.2.calls, ∀ c ∈ slsCommands a qid, InBounds (deviceProgram m) c) ↔
      ∀ i < tables, ∀ p e, (sIndices i)[p]? = some e → p < min b 128 * g →
        1024 / m ≤ p % min b 128 → (L.get? (s.lru i) e).isSome :=
  accepted_inBounds_iff hm hcount haccepted

section Acceptance
variable {m : ℕ} {L : Cache ℕ (IntRow m)}

theorem partitionPairs_lookups (i : ℕ) (pairs : List (ℕ × ℕ)) (s : SlsState L) :
    (partitionPairs i pairs s).st.localLookups = s.localLookups + pairs.length := by
  induction pairs using List.reverseRecOn with
  | nil => rfl
  | append_singleton pairs pair ih =>
    rw [partitionPairs_concat, Partition.step, List.length_append, List.length_singleton,
      ← Nat.add_assoc, ← ih]
    cases L.get? ((partitionPairs i pairs s).st.lru i) pair.2 with
    | some row =>
      simp only [SlsState.localLookups, SlsState.hit]
      omega
    | none =>
      simp only [SlsState.localLookups, SlsState.miss]
      omega

theorem accepted_of_le {b g : ℕ} (hb : b ≤ 128) {indices : List ℕ}
    (hne : lookupPairs indices b g ≠ []) {lib : FlashRec} {qid : CInt} {s : SlsState L}
    (hin : ReadsInside m b (chunkResult lib qid b g 0 s.start (indices.take (b * g)))) :
    ∃ out, slsload .ndp lib qid (fun _ => indices) 1 b g s = .ok out := by
  set p := partitionPairs 0 (pairInd b g (indices.take (b * g))) s.start with hp
  set st := p.st.called (ndpArgs m b g 0 p.filteredPairInd) with hst
  obtain ⟨rows, hchunk⟩ : ∃ rows, ndpChunk lib qid b g 0 (.list [], s.start)
      (indices.take (b * g)) = .ok (.ndarray rows, st) := ⟨_, ndpChunk_list hin⟩
  have hlookups : st.localLookups ≠ 0 := by
    have hpos := List.length_pos_of_ne_nil hne
    change p.st.localLookups ≠ 0
    rw [hp, partitionPairs_lookups, ← lookupPairs]
    omega
  have hload : slsloadNdp lib qid (fun _ => indices) 1 b g s.start = (do
      let out ← ndpTable lib qid indices b g 0 s.start
      return (some out.1, out.2)) := rfl
  refine ⟨((some (.ndarray rows), st.localhits / st.localLookups * 100), st), ?_⟩
  simp only [slsload, hload, ndpTable_of_le hb, hchunk, ok_bind, pure_bind, if_neg hlookups]
  rfl

end Acceptance

def zeroLib : FlashRec where
  unvmeReadEmbedding _ _ _ _ _ := 0
  unvmeSparseLengthSum a _ := words ⟨(buffersize a).signExtend 64 + 4, fun _ => 0⟩

def rowSeven : SlsState (Lru.recent : Lru ℕ (IntRow 64)).toCache :=
  SlsState.store ⟨fun _ => Lru.recent.new 2000, 0, 0, 0, 0, []⟩ 0 7 0

/-- 17 samples of two lookups; the last sample, for which the page has no room, looks up the
cached index only. -/
def seventeenSamples : List ℕ := List.range 16 ++ [7] ++ List.range 16 ++ [7]

theorem seventeenSamples_accepted :
    ∃ out, slsload .ndp zeroLib 0 (fun _ => seventeenSamples) 1 17 2 rowSeven = .ok out := by
  have hlen :
      (chunkResult zeroLib 0 17 2 0 rowSeven.start (seventeenSamples.take (17 * 2))).length =
      1089 := by decide +kernel
  apply accepted_of_le (by decide) (by decide)
  intro k hk j hj
  rw [hlen]
  omega

theorem isp_commands_in_bounds_cached : ∃ out,
    slsload .ndp zeroLib 0 (fun _ => seventeenSamples) 1 17 2 rowSeven = .ok out ∧
    ∀ a ∈ out.2.calls, ∀ c ∈ slsCommands a 0, InBounds (deviceProgram 64) c := by
  obtain ⟨out, hout⟩ := seventeenSamples_accepted
  refine ⟨out, hout,
    (isp_commands_in_bounds_iff (.inr rfl) _ _ _ _ _ _ _ (by decide) _ _ hout).mpr ?_⟩
  intro i hi p e hget hp hrow
  obtain rfl : i = 0 := by omega
  obtain rfl : e = 7 := by
    have hlt : p < 34 := hp
    have hslot : 16 ≤ p % 17 := hrow
    have hlast : p = 16 ∨ p = 33 := by omega
    rcases hlast with rfl | rfl
    · exact (Option.some.inj hget).symm
    · exact (Option.some.inj hget).symm
  rfl

/-- 17 samples of one lookup each, with nothing cached: the last result starts at word 1024 of
the page. -/
theorem isp_command_leaves_page :
    let s : SlsState (Lru.recent : Lru ℕ (IntRow 64)).toCache :=
      ⟨fun _ => Lru.recent.new 2000, 0, 0, 0, 0, []⟩
    ∃ out, slsload .ndp zeroLib 0 (fun _ => List.range 17) 1 17 1 s = .ok out ∧
      ¬ ∀ a ∈ out.2.calls, ∀ c ∈ slsCommands a 0, InBounds (deviceProgram 64) c := by
  intro s
  have hlen : (chunkResult zeroLib 0 17 1 0 s.start ((List.range 17).take (17 * 1))).length =
      1089 := by decide +kernel
  obtain ⟨out, hout⟩ : ∃ out,
      slsload .ndp zeroLib 0 (fun _ => List.range 17) 1 17 1 s = .ok out := by
    apply accepted_of_le (by decide) (by decide)
    intro k hk j hj
    rw [hlen]
    omega
  refine ⟨out, hout, fun h => ?_⟩
  have hcached := (accepted_inBounds_iff (.inr rfl) (by decide) hout).mp h 0 (by decide) 16 16
    (by decide) (by decide) (by decide)
  exact absurd hcached (by decide)

end EbpfIsp.Recsys
