import EbpfIsp.Library.LruStack
import EbpfIsp.Recsys.HotIndices
import EbpfIsp.Recsys.Run

/-! # The hit rate of a run

The main program fills the caches, runs every batch once per epoch and prints
the hit rate of all lookups. In `base` mode a lookup fills the cache of its
table, so the count can be told from the indices alone: a lookup is a hit if
fewer than 2000 other indices of the table were used since its last use, where
the keys of the fill count as used before the first batch. The times that the
program prints and plots are left out, but not the division by the number of
iterations.
-/

namespace EbpfIsp.Recsys
open Library

section Program
variable {δ : Type} {m : ℕ}

structure RunState (δ : Type) {m : ℕ} (L : Cache ℕ (IntRow m)) where
  sls : SlsState L
  ws : Workspace δ m
  batchhitrate : ℕ → ℚ

def runOne {L : Cache ℕ (IntRow m)} (net : DlrmNet) (runNet : Workspace δ m → Py (Workspace δ m))
    (lib : FlashRec) (tables b g : ℕ) (batches : ℕ → Batch δ) (i : ℕ) (r : RunState δ L) :
    Py (RunState δ L) := do
  let ((listResult, localhitrate), s) ←
    slsload net.slsType lib 0 (batches i).sIndices tables b g r.sls
  let ws ← net.run runNet (batches i).X (batches i).sLengths (batches i).sIndices listResult r.ws
  return ⟨s, ws, Function.update r.batchhitrate i localhitrate⟩

def runNetworks {L : Cache ℕ (IntRow m)} (net : DlrmNet)
    (runNet : Workspace δ m → Py (Workspace δ m)) (lib : FlashRec) (tables b g : ℕ)
    (batches : ℕ → Batch δ) (nepochs nbatches : ℕ) (r : RunState δ L) : Py (RunState δ L) :=
  forLoop nepochs (fun _ r => forLoop nbatches (runOne net runNet lib tables b g batches) r) r

def epochLookups (batches : ℕ → Batch δ) (nbatches b g i : ℕ) : List ℕ :=
  tableLookups (fun k i => (batches k).sIndices i) nbatches (b * g) i

def runLookups (batches : ℕ → Batch δ) (nepochs nbatches b g i : ℕ) : List ℕ :=
  (List.replicate nepochs (epochLookups batches nbatches b g i)).flatten

/-- The main program from the fill on: `W` is the attribute that the creation of the network
has left, and `runNet` is its `RunNet`. The second result is `expected_hits`. -/
def runProgram (L : Lru ℕ (IntRow m)) (order : DictOrder) (net : DlrmNet)
    (runNet : Workspace δ m → Py (Workspace δ m)) (lib : FlashRec) (W : Table m)
    (tables b g : ℕ) (batches : ℕ → Batch δ) (nepochs nbatches : ℕ) (ws : Workspace δ m) :
    Py (RunState δ L.toCache × ℕ) := do
  let (lru, expectedHits) ← if net.slsType = .dram then pure (fun _ => L.new 2000, 0)
    else staticPartitioning L order (some W) tables (epochLookups batches nbatches b g)
  let start : RunState δ L.toCache := ⟨⟨lru, 0, 0, 0, 0, []⟩, ws, fun _ => 0⟩
  let r ← runNetworks net runNet lib tables b g batches nepochs nbatches start
  -- `(total_time - dload_time) / (args.nepochs * nbatches)`
  if nepochs * nbatches = 0 then throw .zeroDivisionError
  return (r, expectedHits)

/-- The printed hit rate in percent; nothing is printed without a lookup. -/
def SlsState.cacheHitrate {L : Cache ℕ (IntRow m)} (s : SlsState L) : Option ℚ :=
  if s.hits + s.misses ≠ 0 then some ((s.hits : ℚ) / (s.hits + s.misses : ℕ) * 100) else none

theorem SlsState.cacheHitrate_of_no_miss {L : Cache ℕ (IntRow m)} {s : SlsState L}
    (hmiss : s.misses = 0) (hhits : 0 < s.hits) : s.cacheHitrate = some 100 := by
  have hne : (s.hits : ℚ) ≠ 0 := by positivity
  rw [cacheHitrate, hmiss, Nat.add_zero, if_pos (Nat.ne_of_gt hhits), div_self hne, one_mul]

end Program

section Lookups
variable {m : ℕ} {L : Lru ℕ (IntRow m)} {hL : L.MovesToFront} {c i : ℕ} {st : List ℕ}
  {s s' s'' : SlsState L.toCache}

/-- From `s` to `s'` the indices `w` were looked up in table `i`, whose cache held the top of
the stack `st`. -/
structure LookedUp (hL : L.MovesToFront) (c i : ℕ) (st w : List ℕ) (s s' : SlsState L.toCache) :
    Prop where
  holds : hL.Holds c (w.foldl LruStack.touch st) (s'.lru i)
  frame : ∀ i' ≠ i, s'.lru i' = s.lru i'
  hits : s'.hits = s.hits + LruStack.hitCount c st w
  localhits : s'.localhits = s.localhits + LruStack.hitCount c st w
  lookups : s'.hits + s'.misses = s.hits + s.misses + w.length
  localLookups : s'.localLookups = s.localLookups + w.length

theorem LookedUp.refl (h : hL.Holds c st (s.lru i)) : LookedUp hL c i st [] s s :=
  ⟨h, fun _ _ => rfl, rfl, rfl, rfl, rfl⟩

theorem LookedUp.trans {w w' : List ℕ} (h : LookedUp hL c i st w s s')
    (h' : LookedUp hL c i (w.foldl LruStack.touch st) w' s' s'') :
    LookedUp hL c i st (w ++ w') s s'' where
  holds := by
    rw [List.foldl_append]
    exact h'.holds
  frame i' hi := (h'.frame i' hi).trans (h.frame i' hi)
  hits := by rw [h'.hits, h.hits, LruStack.hitCount_append, Nat.add_assoc]
  localhits := by rw [h'.localhits, h.localhits, LruStack.hitCount_append, Nat.add_assoc]
  lookups := by rw [h'.lookups, h.lookups, List.length_append, Nat.add_assoc]
  localLookups := by rw [h'.localLookups, h.localLookups, List.length_append, Nat.add_assoc]

/-- A lookup is a hit if its index is within the top `c` of the stack. -/
theorem baseLookup_lookedUp (h : hL.Holds c st (s.lru i)) (hc : 0 < c) (lib : FlashRec)
    (qid : Device.CInt) (e : ℕ) :
    LookedUp hL c i st [e] s (baseLookup lib qid i e s).2 := by
  have hsome := h.isSome_iff e
  have haccess := h.access hc (readRow lib qid m i) e
  have hone := LruStack.hitCount_singleton c st e
  rw [baseLookup]
  cases hget : L.get? (s.lru i) e with
  | some row =>
    rw [if_pos (hsome.mp (by rw [hget]; rfl))] at hone
    rw [Lru.access, hget] at haccess
    refine ⟨?_, ?_, ?_, ?_, ?_, ?_⟩
    · simpa [SlsState.hit] using haccess
    · intro i' hi
      simp [SlsState.hit, hi]
    · rw [hone]
      rfl
    · rw [hone]
      rfl
    · simp only [SlsState.hit, List.length_singleton]
      omega
    · simp only [SlsState.hit, SlsState.localLookups, List.length_singleton]
      omega
  | none =>
    have hnot : e ∉ st.take c := by
      intro hmem
      have hin := hsome.mpr hmem
      rw [hget] at hin
      cases hin
    rw [if_neg hnot] at hone
    rw [Lru.access, hget] at haccess
    refine ⟨?_, ?_, ?_, ?_, ?_, ?_⟩
    · simpa [SlsState.store, SlsState.miss] using haccess
    · intro i' hi
      simp [SlsState.store, SlsState.miss, hi]
    · rw [hone]
      rfl
    · rw [hone]
      rfl
    · simp only [SlsState.store, SlsState.miss, List.length_singleton]
      omega
    · simp only [SlsState.store, SlsState.miss, SlsState.localLookups, List.length_singleton]
      omega

variable (lib : FlashRec) (qid : Device.CInt) {indices : List ℕ} {b g j : ℕ}

theorem baseSample_lookedUp (h : hL.Holds c st (s.lru i)) (hc : 0 < c)
    (hlen : (j + 1) * g ≤ indices.length) :
    ∃ out, baseSample lib qid indices g i j s = .ok out ∧
      LookedUp hL c i st ((indices.drop (j * g)).take g) s out.2 := by
  refine forLoop_invariant
    (fun k (acc : FloatRow m × SlsState L.toCache) =>
      LookedUp hL c i st ((indices.drop (j * g)).take k) s acc.2) g _ (0, s)
    (by simpa using LookedUp.refl h) ?_
  rintro k hk ⟨row, t⟩ hread
  have hlt : j * g + k < indices.length := by
    rw [Nat.add_mul] at hlen
    omega
  have hnext : (indices.drop (j * g)).take (k + 1) =
      (indices.drop (j * g)).take k ++ [indices[j * g + k]] := by
    rw [List.take_add_one, List.getElem?_drop, List.getElem?_eq_getElem hlt]
    rfl
  refine ⟨_, by rw [List.getElem?_eq_getElem hlt], ?_⟩
  rw [hnext]
  exact hread.trans (baseLookup_lookedUp hread.holds hc lib qid _)

/-- The lookups of a table are its first `b * g` indices. -/
theorem baseTable_lookedUp (h : hL.Holds c st (s.lru i)) (hc : 0 < c)
    (hlen : b * g ≤ indices.length) :
    ∃ out, baseTable lib qid indices b g i s = .ok out ∧
      LookedUp hL c i st (indices.take (b * g)) s out.2 := by
  refine forLoop_invariant
    (fun j (acc : List (FloatRow m) × SlsState L.toCache) =>
      LookedUp hL c i st (indices.take (j * g)) s acc.2) b _ ([], s)
    (by simpa using LookedUp.refl h) ?_
  rintro j hj ⟨rows, t⟩ hread
  obtain ⟨out, hrun, hsample⟩ := baseSample_lookedUp lib qid hread.holds hc
    ((Nat.mul_le_mul_right g hj).trans hlen)
  refine ⟨_, by rw [hrun, ok_bind], ?_⟩
  rw [Nat.add_mul, Nat.one_mul, List.take_add]
  exact hread.trans hsample

end Lookups

section Calls
variable {m : ℕ} {L : Lru ℕ (IntRow m)} {hL : L.MovesToFront} {c tables : ℕ} {st : ℕ → List ℕ}
  {s s' s'' : SlsState L.toCache} {w w' : ℕ → List ℕ}

def AllHold (hL : L.MovesToFront) (c tables : ℕ) (st : ℕ → List ℕ) (s : SlsState L.toCache) :
    Prop :=
  ∀ i < tables, hL.Holds c (st i) (s.lru i)

structure AllLookedUp (hL : L.MovesToFront) (c tables : ℕ) (st w : ℕ → List ℕ)
    (s s' : SlsState L.toCache) : Prop where
  holds : AllHold hL c tables (fun i => (w i).foldl LruStack.touch (st i)) s'
  hits : s'.hits = s.hits + ∑ i ∈ Finset.range tables, LruStack.hitCount c (st i) (w i)
  lookups : s'.hits + s'.misses = s.hits + s.misses + ∑ i ∈ Finset.range tables, (w i).length

theorem AllLookedUp.refl (h : AllHold hL c tables st s) :
    AllLookedUp hL c tables st (fun _ => []) s s :=
  ⟨h, by simp [LruStack.hitCount, LruStack.distances], by simp⟩

theorem AllLookedUp.trans (h : AllLookedUp hL c tables st w s s')
    (h' : AllLookedUp hL c tables (fun i => (w i).foldl LruStack.touch (st i)) w' s' s'') :
    AllLookedUp hL c tables st (fun i => w i ++ w' i) s s'' where
  holds i hi := by
    simp only [List.foldl_append]
    exact h'.holds i hi
  hits := by
    rw [h'.hits, h.hits, Nat.add_assoc, ← Finset.sum_add_distrib]
    simp only [LruStack.hitCount_append]
  lookups := by
    rw [h'.lookups, h.lookups, Nat.add_assoc, ← Finset.sum_add_distrib]
    simp only [List.length_append]

variable (lib : FlashRec) (qid : Device.CInt) {sIndices : ℕ → List ℕ} {b g : ℕ}

theorem slsloadBase_allLookedUp (h : AllHold hL c tables st s) (hc : 0 < c)
    (hlen : ∀ i < tables, b * g ≤ (sIndices i).length) :
    ∃ out, slsloadBase lib qid sIndices tables b g s = .ok out ∧
      AllLookedUp hL c tables st (fun i => (sIndices i).take (b * g)) s out.2 ∧
      out.2.localhits = s.localhits +
        ∑ i ∈ Finset.range tables, LruStack.hitCount c (st i) ((sIndices i).take (b * g)) ∧
      out.2.localLookups = s.localLookups + tables * (b * g) := by
  -- the tables from `n` on are still untouched
  have hloop := forLoop_invariant (M := Py)
    (fun n (acc : Option (ListResult m) × SlsState L.toCache) =>
      AllLookedUp hL c n st (fun i => (sIndices i).take (b * g)) s acc.2 ∧
      (∀ i, n ≤ i → acc.2.lru i = s.lru i) ∧
      acc.2.localhits = s.localhits +
        ∑ i ∈ Finset.range n, LruStack.hitCount c (st i) ((sIndices i).take (b * g)) ∧
      acc.2.localLookups = s.localLookups + n * (b * g)) tables
    (fun i acc => do
      let out ← baseTable lib qid (sIndices i) b g i acc.2
      return (some (.ndarray out.1), out.2)) (none, s)
    ⟨⟨fun i hi => absurd hi (Nat.not_lt_zero i), rfl, rfl⟩, fun _ _ => rfl, rfl, by simp⟩ (by
      rintro n hn ⟨res, t⟩ ⟨hall, hrest, hlocal, hlook⟩
      have hst : hL.Holds c (st n) (t.lru n) := by
        rw [hrest n le_rfl]
        exact h n hn
      obtain ⟨out, hrun, hout⟩ := baseTable_lookedUp lib qid hst hc (hlen n hn)
      have hcut : ((sIndices n).take (b * g)).length = b * g := by
        rw [List.length_take, min_eq_left (hlen n hn)]
      refine ⟨_, by rw [hrun, ok_bind], ⟨?_, ?_, ?_⟩, ?_, ?_, ?_⟩
      · intro i hi
        rcases Nat.lt_succ_iff_lt_or_eq.mp hi with hlt | rfl
        · dsimp only
          rw [hout.frame i (Nat.ne_of_lt hlt)]
          exact hall.holds i hlt
        · exact hout.holds
      · rw [hout.hits, hall.hits, Finset.sum_range_succ, Nat.add_assoc]
      · rw [hout.lookups, hall.lookups, Finset.sum_range_succ, Nat.add_assoc]
      · intro i hi
        rw [hout.frame i (by omega)]
        exact hrest i (by omega)
      · rw [hout.localhits, hlocal, Finset.sum_range_succ, Nat.add_assoc]
      · rw [hout.localLookups, hlook, hcut, Nat.add_mul, Nat.one_mul, Nat.add_assoc])
  obtain ⟨out, hrun, hall, -, hlocal, hlook⟩ := hloop
  exact ⟨out, hrun, hall, hlocal, hlook⟩

/-- A call of `slsload` in `base` mode and the hit rate that it returns. -/
theorem slsload_base_allLookedUp (h : AllHold hL c tables st s) (hc : 0 < c)
    (hlen : ∀ i < tables, b * g ≤ (sIndices i).length) (hpos : 0 < tables * (b * g)) :
    ∃ res rate s', slsload .base lib qid sIndices tables b g s = .ok ((res, rate), s') ∧
      rate = (∑ i ∈ Finset.range tables,
        LruStack.hitCount c (st i) ((sIndices i).take (b * g)) : ℕ) / (tables * (b * g) : ℕ) * 100 ∧
      AllLookedUp hL c tables st (fun i => (sIndices i).take (b * g)) s s' := by
  have hstart : AllHold hL c tables st s.start := h
  obtain ⟨⟨res, s'⟩, hrun, hall, hlocal, hlook⟩ := slsloadBase_allLookedUp lib qid hstart hc hlen
  have hzero : s.start.localLookups = 0 := rfl
  have hne : s'.localLookups ≠ 0 := by
    dsimp only at hlook
    omega
  refine ⟨res, _, s', ?_, rfl, hall.holds, hall.hits, hall.lookups⟩
  have hhits : s'.localhits =
      ∑ i ∈ Finset.range tables, LruStack.hitCount c (st i) ((sIndices i).take (b * g)) := by
    rw [hlocal]
    exact Nat.zero_add _
  have hlooks : s'.localLookups = tables * (b * g) := by rw [hlook, hzero, Nat.zero_add]
  simp only [slsload, hrun, ok_bind, if_neg hne]
  rw [hhits, hlooks]
  rfl

end Calls

section Runs
variable {δ : Type} {m : ℕ} {L : Lru ℕ (IntRow m)} {hL : L.MovesToFront} {c tables b g : ℕ}
  {st : ℕ → List ℕ} {net : DlrmNet} {runNet : Workspace δ m → Py (Workspace δ m)}
  {batches : ℕ → Batch δ} {r : RunState δ L.toCache}

theorem feed_returns (hnet : net.slsType ≠ .dram) (X : δ) (sLengths : List (List ℕ))
    (sIndices : ℕ → List ℕ) (listResult : Option (ListResult m)) (ws : Workspace δ m) :
    ∃ ws', net.feed X sLengths sIndices listResult ws = .ok ws' := by
  rw [DlrmNet.feed]
  split
  · exact ⟨ws, rfl⟩
  · have hfeed : ∀ ws : Workspace δ m, ∃ ws', forLoop sLengths.length
        (fun i ws => (pure (feedBlobWrapper ws (net.slsBlob i "_z")
          (.rows (listResult.map ListResult.rows))) : Py (Workspace δ m))) ws = .ok ws' := by
      intro ws
      obtain ⟨ws', hws, -⟩ := forLoop_invariant (M := Py) (fun _ _ => True) sLengths.length
        (fun i ws => pure (feedBlobWrapper ws (net.slsBlob i "_z")
          (.rows (listResult.map ListResult.rows)))) ws trivial
        (fun _ _ _ _ => ⟨_, rfl, trivial⟩)
      exact ⟨ws', hws⟩
    cases hmode : net.slsType with
    | dram => exact absurd hmode hnet
    | base => exact hfeed _
    | ndp => exact hfeed _

theorem run_returns (hnet : net.slsType ≠ .dram) (hrun : ∀ ws, ∃ ws', runNet ws = .ok ws') (X : δ)
    (sLengths : List (List ℕ)) (sIndices : ℕ → List ℕ) (listResult : Option (ListResult m))
    (ws : Workspace δ m) : ∃ ws', net.run runNet X sLengths sIndices listResult ws = .ok ws' := by
  obtain ⟨ws₁, hfeed⟩ := feed_returns hnet X sLengths sIndices listResult ws
  obtain ⟨ws₂, hrun⟩ := hrun ws₁
  exact ⟨ws₂, by rw [DlrmNet.run, hfeed, ok_bind, hrun]⟩

theorem runOne_allLookedUp (hbase : net.slsType = .base)
    (hnet : ∀ ws, ∃ ws', runNet ws = .ok ws') (lib : FlashRec) (hc : 0 < c)
    (hpos : 0 < tables * (b * g)) {k : ℕ}
    (hlen : ∀ i < tables, b * g ≤ ((batches k).sIndices i).length)
    (h : AllHold hL c tables st r.sls) :
    ∃ r', runOne net runNet lib tables b g batches k r = .ok r' ∧
      AllLookedUp hL c tables st (fun i => ((batches k).sIndices i).take (b * g)) r.sls r'.sls := by
  obtain ⟨res, rate, s', hload, -, hall⟩ := slsload_base_allLookedUp lib 0 h hc hlen hpos
  obtain ⟨ws', hfeed⟩ := run_returns (by rw [hbase]; decide) hnet (batches k).X (batches k).sLengths
    (batches k).sIndices res r.ws
  refine ⟨⟨s', ws', Function.update r.batchhitrate k rate⟩, ?_, hall⟩
  rw [runOne, hbase, hload, ok_bind]
  dsimp only
  rw [hfeed]
  rfl

theorem epoch_allLookedUp (hbase : net.slsType = .base)
    (hnet : ∀ ws, ∃ ws', runNet ws = .ok ws') (lib : FlashRec) (hc : 0 < c)
    (hpos : 0 < tables * (b * g)) {nbatches : ℕ}
    (hlen : ∀ k < nbatches, ∀ i < tables, b * g ≤ ((batches k).sIndices i).length)
    (h : AllHold hL c tables st r.sls) :
    ∃ r', forLoop nbatches (runOne net runNet lib tables b g batches) r = .ok r' ∧
      AllLookedUp hL c tables st (epochLookups batches nbatches b g) r.sls r'.sls := by
  refine forLoop_invariant (fun n (r' : RunState δ L.toCache) =>
    AllLookedUp hL c tables st (epochLookups batches n b g) r.sls r'.sls) nbatches _ r
    (.refl h) ?_
  intro n hn t ht
  obtain ⟨t', hrun, hall⟩ := runOne_allLookedUp hbase hnet lib hc hpos (hlen n hn) ht.holds
  refine ⟨t', hrun, ?_⟩
  have hnext : epochLookups batches (n + 1) b g = fun i =>
      epochLookups batches n b g i ++ ((batches n).sIndices i).take (b * g) := by
    funext i
    simp [epochLookups, tableLookups, List.range_succ]
  rw [hnext]
  exact ht.trans hall

theorem runNetworks_allLookedUp (hbase : net.slsType = .base)
    (hnet : ∀ ws, ∃ ws', runNet ws = .ok ws') (lib : FlashRec) (hc : 0 < c)
    (hpos : 0 < tables * (b * g)) {nbatches : ℕ}
    (hlen : ∀ k < nbatches, ∀ i < tables, b * g ≤ ((batches k).sIndices i).length) (nepochs : ℕ)
    (h : AllHold hL c tables st r.sls) :
    ∃ r', runNetworks net runNet lib tables b g batches nepochs nbatches r = .ok r' ∧
      AllLookedUp hL c tables st (runLookups batches nepochs nbatches b g) r.sls r'.sls := by
  refine forLoop_invariant (fun n (r' : RunState δ L.toCache) =>
    AllLookedUp hL c tables st (runLookups batches n nbatches b g) r.sls r'.sls) nepochs _ r
    (.refl h) ?_
  intro n hn t ht
  obtain ⟨t', hrun, hall⟩ := epoch_allLookedUp hbase hnet lib hc hpos hlen ht.holds
  refine ⟨t', hrun, ?_⟩
  have hnext : runLookups batches (n + 1) nbatches b g = fun i =>
      runLookups batches n nbatches b g i ++ epochLookups batches nbatches b g i := by
    funext i
    simp [runLookups, List.replicate_succ']
  rw [hnext]
  exact ht.trans hall

theorem length_epochLookups {nbatches i : ℕ}
    (hlen : ∀ k < nbatches, b * g ≤ ((batches k).sIndices i).length) :
    (epochLookups batches nbatches b g i).length = nbatches * (b * g) := by
  induction nbatches with
  | zero => simp [epochLookups, tableLookups]
  | succ n ih =>
    have hn := ih fun k hk => hlen k (by omega)
    simp only [epochLookups, tableLookups] at hn
    simp only [epochLookups, tableLookups, List.range_succ, List.flatMap_append,
      List.flatMap_singleton, List.length_append, hn, List.length_take,
      min_eq_left (hlen n (Nat.lt_succ_self n))]
    ring

theorem length_runLookups (nepochs : ℕ) {nbatches i : ℕ}
    (hlen : ∀ k < nbatches, b * g ≤ ((batches k).sIndices i).length) :
    (runLookups batches nepochs nbatches b g i).length = nepochs * nbatches * (b * g) := by
  rw [runLookups, List.length_flatten, List.map_replicate, List.sum_replicate,
    length_epochLookups hlen, smul_eq_mul, Nat.mul_assoc]

theorem mem_epochLookups_of_run {nepochs nbatches i e : ℕ}
    (h : e ∈ runLookups batches nepochs nbatches b g i) :
    e ∈ epochLookups batches nbatches b g i := by
  obtain ⟨l, hl, he⟩ := List.mem_flatten.mp h
  rwa [List.eq_of_mem_replicate hl] at he

theorem staticPartitioning_holds (hL : L.MovesToFront) {order : DictOrder} {W : Table m}
    {count : ℕ} {lookups : ℕ → List ℕ} {out : (ℕ → L.Carrier) × ℕ}
    (h : staticPartitioning L order (some W) count lookups = .ok out) {i : ℕ} (hi : i < count) :
    hL.Holds 2000 (keptKeys order (lookups i)) (out.1 i) where
  nodup := keptKeys_nodup order _
  cap := by
    obtain ⟨e, e', hfill⟩ := staticPartitioning_ok h hi
    rw [show out.1 i = _ from fillLru_eq (Nat.zero_le _) hfill]
    generalize ((sortedProfile order (lookups i)).take (2001 - 0)).map Prod.fst = ks
    have hset : ∀ s : L.Carrier, hL.cap (ks.foldl (fun s key => L.set s key (W.row key)) s) =
        hL.cap s := by
      induction ks with
      | nil => exact fun _ => rfl
      | cons k ks ih => exact fun s => (ih _).trans (hL.cap_set s k _)
    rw [hset]
    exact hL.cap_new 2000
  keys := by
    rw [keys_staticPartitioning hL.toEvictsOldest h hi, List.take_of_length_le]
    rw [length_keptKeys]
    exact min_le_left _ _

/-- The main program in a mode with caches: the fill, the epochs, and the division. -/
theorem runProgram_eq (hmode : net.slsType ≠ .dram) {L : Lru ℕ (IntRow m)} {order : DictOrder}
    {lib : FlashRec} {W : Table m} {nepochs nbatches : ℕ} (hruns : 0 < nepochs * nbatches)
    {out : (ℕ → L.Carrier) × ℕ}
    (hpart : staticPartitioning L order (some W) tables (epochLookups batches nbatches b g) =
      .ok out)
    {ws : Workspace δ m} {r : RunState δ L.toCache}
    (hrun : runNetworks net runNet lib tables b g batches nepochs nbatches
      ⟨⟨out.1, 0, 0, 0, 0, []⟩, ws, fun _ => 0⟩ = .ok r) :
    runProgram L order net runNet lib W tables b g batches nepochs nbatches ws =
      .ok (r, out.2) := by
  rw [runProgram, if_neg hmode, hpart, ok_bind]
  dsimp only
  rw [hrun, ok_bind, if_neg (by omega)]
  rfl

/-- A program run in `base` mode returns, with all lookups on the caches of the fill. -/
theorem runProgram_allLookedUp (hL : L.MovesToFront) (order : DictOrder)
    (hbase : net.slsType = .base) (hnet : ∀ ws, ∃ ws', runNet ws = .ok ws') (lib : FlashRec)
    {W : Table m} (hpos : 0 < tables * (b * g)) {nepochs nbatches : ℕ}
    (hruns : 0 < nepochs * nbatches)
    (hlen : ∀ k < nbatches, ∀ i < tables, b * g ≤ ((batches k).sIndices i).length)
    (hrows : ∀ i < tables, StoresRows W (epochLookups batches nbatches b g i))
    (ws : Workspace δ m) :
    ∃ r expectedHits,
      runProgram L order net runNet lib W tables b g batches nepochs nbatches ws =
        .ok (r, expectedHits) ∧
      r.sls.hits = ∑ i ∈ Finset.range tables,
        LruStack.hitCount 2000 (keptKeys order (epochLookups batches nbatches b g i))
          (runLookups batches nepochs nbatches b g i) ∧
      r.sls.hits + r.sls.misses = nepochs * nbatches * (tables * (b * g)) := by
  obtain ⟨out, hpart⟩ := staticPartitioning_returns L order fun i hi e he =>
    (hrows i hi).rankedKeys order he
  have hhold : AllHold hL 2000 tables
      (fun i => keptKeys order (epochLookups batches nbatches b g i)) ⟨out.1, 0, 0, 0, 0, []⟩ :=
    fun i hi => staticPartitioning_holds hL hpart hi
  obtain ⟨r, hrun, hall⟩ := runNetworks_allLookedUp (r := ⟨⟨out.1, 0, 0, 0, 0, []⟩, ws, fun _ => 0⟩)
    hbase hnet lib (by decide) hpos hlen nepochs hhold
  have hlength : ∀ i ∈ Finset.range tables, (runLookups batches nepochs nbatches b g i).length =
      nepochs * nbatches * (b * g) :=
    fun i hi => length_runLookups nepochs fun k hk => hlen k hk i (Finset.mem_range.mp hi)
  refine ⟨r, out.2, runProgram_eq (by rw [hbase]; decide) hruns hpart hrun,
    hall.hits.trans (Nat.zero_add _), ?_⟩
  rw [hall.lookups, Finset.sum_congr rfl hlength, Finset.sum_const, Finset.card_range, smul_eq_mul]
  ring

end Runs

/-- The hits of a whole program run in `base` mode, for any order of equal counts: the lookups
of a table whose index is among the 2000 most recently used ones, starting from the kept keys
of the fill. With at most 2000 distinct indices per table the printed rate is 100. -/
theorem base_run_hits {δ : Type} {m : ℕ} {L : Lru ℕ (IntRow m)} (hL : L.MovesToFront)
    (order : DictOrder) (net : DlrmNet) (hbase : net.slsType = .base)
    (runNet : Workspace δ m → Py (Workspace δ m)) (hnet : ∀ ws, ∃ ws', runNet ws = .ok ws')
    (lib : FlashRec) (W : Table m) (tables b g : ℕ) (hpos : 0 < tables * (b * g))
    (batches : ℕ → Batch δ) (nepochs nbatches : ℕ) (hruns : 0 < nepochs * nbatches)
    (hlen : ∀ k < nbatches, ∀ i < tables, b * g ≤ ((batches k).sIndices i).length)
    (hrows : ∀ i < tables, StoresRows W (epochLookups batches nbatches b g i))
    (ws : Workspace δ m) :
    ∃ r expectedHits,
      runProgram L order net runNet lib W tables b g batches nepochs nbatches ws =
        .ok (r, expectedHits) ∧
      r.sls.hits = ∑ i ∈ Finset.range tables,
        LruStack.hitCount 2000 (keptKeys order (epochLookups batches nbatches b g i))
          (runLookups batches nepochs nbatches b g i) ∧
      r.sls.hits + r.sls.misses = nepochs * nbatches * (tables * (b * g)) ∧
      ((∀ i < tables, (epochLookups batches nbatches b g i).dedup.length ≤ 2000) →
        r.sls.cacheHitrate = some 100) := by
  obtain ⟨r, e, hrun, hhits, hlookups⟩ :=
    runProgram_allLookedUp hL order hbase hnet lib hpos hruns hlen hrows ws
  refine ⟨r, e, hrun, hhits, hlookups, ?_⟩
  intro hfew
  have hevery : ∀ i ∈ Finset.range tables,
      LruStack.hitCount 2000 (keptKeys order (epochLookups batches nbatches b g i))
        (runLookups batches nepochs nbatches b g i) = nepochs * nbatches * (b * g) := by
    intro i hi
    have hi' := Finset.mem_range.mp hi
    rw [← length_runLookups nepochs fun k hk => hlen k hk i hi']
    apply LruStack.hitCount_eq_length (keptKeys_nodup order _)
    · intro e he
      rw [mem_keptKeys_of_le order (hfew i hi')]
      exact mem_epochLookups_of_run he
    · rw [length_keptKeys]
      exact min_le_left _ _
  have hall : r.sls.hits = nepochs * nbatches * (tables * (b * g)) := by
    rw [hhits, Finset.sum_congr rfl hevery, Finset.sum_const, Finset.card_range, smul_eq_mul]
    ring
  have hsome : 0 < nepochs * nbatches * (tables * (b * g)) := Nat.mul_pos hruns hpos
  apply SlsState.cacheHitrate_of_no_miss <;> omega

/-- Two tables, the second of four rows, and two epochs of two batches. -/
theorem base_run_hits_small :
    let batches : ℕ → Batch Unit := fun k => ⟨(), [[1, 1], [1, 1]], fun i => [i, 3 - k]⟩
    ∃ r expectedHits,
      runProgram Lru.recent .insertion (baseNet 2) pure ⟨fun _ _ _ _ _ => 0, fun _ _ => []⟩
        (zeroTable 4) 2 2 1 batches 2 2 (fun _ => none) = .ok (r, expectedHits) ∧
      r.sls.hits + r.sls.misses = 16 ∧ r.sls.cacheHitrate = some 100 := by
  intro batches
  have hlookups : ∀ i < 2, epochLookups batches 2 2 1 i = [i, 3, i, 2] := by
    intro i _
    simp [epochLookups, tableLookups, batches, List.range_succ]
  obtain ⟨r, e, hrun, -, hcount, hrate⟩ := base_run_hits Lru.recentMovesToFront .insertion
    (baseNet 2) rfl pure (fun ws => ⟨ws, rfl⟩) ⟨fun _ _ _ _ _ => 0, fun _ _ => []⟩ (zeroTable 4)
    2 2 1 (by decide) batches 2 2 (by decide) (by simp [batches]) (by
      intro i hi e hmem _
      rw [hlookups i hi] at hmem
      simp only [List.mem_cons, List.not_mem_nil, or_false] at hmem
      change e < 4
      omega) (fun _ => none)
  refine ⟨r, e, hrun, hcount, hrate ?_⟩
  intro i hi
  rw [hlookups i hi]
  exact (List.dedup_sublist _).length_le.trans (by simp)

end EbpfIsp.Recsys
