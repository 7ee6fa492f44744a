import EbpfIsp.Traces.RoundTrip
import Mathlib.Algebra.BigOperators.Group.List.Lemmas

/-! # From a trace to its synthetic traces

The main program of `trace_profile.py` turns the distances of a trace into a
distribution, and `trace_generator.py` generates traces from it. Probabilities
are exact here. The distribution is always one that the generator can use, and
the profiled trace itself is one of the traces that can come out.
-/

namespace EbpfIsp.Traces
open Library Recsys

section Distribution
variable (sds : List ℕ)

/-- `sorted(collections.Counter(stack_distances).items(), key=operator.itemgetter(0))` -/
def dc : List (ℕ × ℕ) := (profile sds).mergeSort fun x y => x.1 ≤ y.1

def listSd : List ℕ := (dc sds).map Prod.fst

def cummSd : List ℚ := (dc sds).foldl (fun cumm p =>
  match cumm.getLast? with
  | none => cumm ++ [(p.2 : ℚ) / sds.length]
  | some c => cumm ++ [c + (p.2 : ℚ) / sds.length]) []

theorem dc_perm : (dc sds).Perm (profile sds) := List.mergeSort_perm _ _

theorem listSd_perm : (listSd sds).Perm sds.dedup :=
  ((dc_perm sds).map Prod.fst).trans (keys_profile_perm sds)

theorem mem_listSd {sd : ℕ} : sd ∈ listSd sds ↔ sd ∈ sds := by
  rw [(listSd_perm sds).mem_iff, List.mem_dedup]

theorem listSd_sorted : (listSd sds).Pairwise (· < ·) := by
  have hle : (dc sds).Pairwise fun x y => x.1 ≤ y.1 := by
    have h : (dc sds).Pairwise fun x y => decide (x.1 ≤ y.1) = true := by
      apply List.pairwise_mergeSort
      · intro a b c hab hbc
        rw [decide_eq_true_iff] at hab hbc ⊢
        exact hab.trans hbc
      · intro a b
        rw [Bool.or_eq_true, decide_eq_true_iff, decide_eq_true_iff]
        exact Nat.le_total a.1 b.1
    simpa using h
  have hne : (listSd sds).Nodup := (listSd_perm sds).nodup_iff.mpr sds.nodup_dedup
  rw [listSd, List.pairwise_map]
  rw [listSd, List.Nodup, List.pairwise_map] at hne
  exact hle.imp₂ (fun _ _ h hn => Nat.lt_of_le_of_ne h hn) hne

def cumulative (k : ℕ) : ℚ := (((dc sds).take k).map fun p => (p.2 : ℚ) / sds.length).sum

theorem cummSd_eq :
    cummSd sds = (List.range (dc sds).length).map fun k => cumulative sds (k + 1) := by
  have hloop : ∀ ps : List (ℕ × ℕ), ps.foldl (fun cumm p =>
      match cumm.getLast? with
      | none => cumm ++ [(p.2 : ℚ) / sds.length]
      | some c => cumm ++ [c + (p.2 : ℚ) / sds.length]) [] = (List.range ps.length).map fun k =>
        ((ps.take (k + 1)).map fun p => (p.2 : ℚ) / sds.length).sum := by
    intro ps
    induction ps using List.reverseRecOn with
    | nil => rfl
    | append_singleton ps p ih =>
      have hold : (List.range ps.length).map (fun k =>
          (((ps ++ [p]).take (k + 1)).map fun p => (p.2 : ℚ) / sds.length).sum) =
          (List.range ps.length).map fun k =>
            ((ps.take (k + 1)).map fun p => (p.2 : ℚ) / sds.length).sum := by
        apply List.map_congr_left
        intro k hk
        rw [List.take_append_of_le_length (List.mem_range.mp hk)]
      rw [List.foldl_append, ih, List.foldl_cons, List.foldl_nil, List.length_append,
        List.length_singleton, List.range_succ, List.map_append, hold]
      cases ps using List.reverseRecOn with
      | nil => simp
      | append_singleton ps q => simp [List.range_succ, List.take_of_length_le, add_assoc]
  exact hloop (dc sds)

theorem count_pos {p : ℕ × ℕ} (hp : p ∈ dc sds) : 0 < p.2 := by
  have hp' := (dc_perm sds).mem_iff.mp hp
  rw [snd_profile hp', List.count_pos_iff]
  exact mem_profile hp'

/-- The counts of all distances are the number of accesses. -/
theorem cumulative_length (hne : sds ≠ []) : cumulative sds (dc sds).length = 1 := by
  have hpos := List.length_pos_of_ne_nil hne
  have hsum : ((dc sds).map Prod.snd).sum = sds.length := by
    rw [← List.sum_map_count_dedup_eq_length sds, ← ((listSd_perm sds).map _).sum_eq, listSd,
      List.map_map]
    congr 1
    apply List.map_congr_left
    intro p hp
    exact snd_profile ((dc_perm sds).mem_iff.mp hp)
  have hdiv : ∀ ps : List (ℕ × ℕ), (ps.map fun p => (p.2 : ℚ) / sds.length).sum =
      ((ps.map Prod.snd).sum : ℕ) / sds.length := by
    intro ps
    induction ps with
    | nil => simp
    | cons p ps ih => simp [ih, add_div]
  rw [cumulative, List.take_length, hdiv, hsum]
  exact div_self (by positivity)

theorem cumulative_lt (hne : sds ≠ []) {j k : ℕ} (hjk : j < k) (hk : k ≤ (dc sds).length) :
    cumulative sds j < cumulative sds k := by
  have hpos := List.length_pos_of_ne_nil hne
  induction k with
  | zero => exact absurd hjk (Nat.not_lt_zero j)
  | succ k ih =>
    have hprob : 0 < ((dc sds)[k].2 : ℚ) / sds.length := by
      have hcount := count_pos sds (List.getElem_mem (l := dc sds) hk)
      positivity
    have hstep : cumulative sds (k + 1) = cumulative sds k + ((dc sds)[k].2 : ℚ) / sds.length := by
      rw [cumulative, List.take_add_one, List.getElem?_eq_getElem hk, Option.toList_some,
        List.map_append, List.sum_append, List.map_singleton, List.sum_singleton]
      rfl
    rw [hstep]
    rcases Nat.lt_succ_iff_lt_or_eq.mp hjk with hlt | rfl
    · exact (ih hlt (Nat.le_of_succ_le hk)).trans (lt_add_of_pos_right _ hprob)
    · exact lt_add_of_pos_right _ hprob

theorem cumulative_zero : cumulative sds 0 = 0 := rfl

theorem length_cummSd : (cummSd sds).length = (dc sds).length := by simp [cummSd_eq]

theorem getElem?_cummSd {k : ℕ} (hk : k < (dc sds).length) :
    (cummSd sds)[k]? = some (cumulative sds (k + 1)) := by
  simp [cummSd_eq, hk]

variable {sds}

theorem dc_ne_nil (hne : sds ≠ []) : dc sds ≠ [] := by
  intro hnil
  have hperm := dc_perm sds
  rw [hnil] at hperm
  exact profile_ne_nil hne (List.nil_perm.mp hperm)

/-- The distribution of the distances of a trace, in which every trace has a first access. -/
def distributionOf (sds : List ℕ) (hzero : 0 ∈ sds) : Distribution where
  listSd := listSd sds
  cummSd := cummSd sds
  lengths := by rw [length_cummSd, listSd, List.length_map]
  sorted := listSd_sorted sds
  zero := by
    obtain ⟨k, hk, hget⟩ := List.getElem_of_mem ((mem_listSd sds).mpr hzero)
    cases k with
    | zero => rw [List.getElem?_eq_getElem hk, hget]
    | succ k =>
      have hsorted := List.pairwise_iff_getElem.mp (listSd_sorted sds)
      have hlt := hsorted 0 (k + 1) (by omega) hk (by omega)
      omega
  nonneg := by
    have hne := List.ne_nil_of_mem hzero
    intro c hc
    rw [cummSd_eq] at hc
    obtain ⟨k, hk, rfl⟩ := List.mem_map.mp hc
    have hlow := cumulative_lt sds hne (Nat.succ_pos k) (List.mem_range.mp hk)
    rw [cumulative_zero] at hlow
    exact hlow.le
  last := by
    have hne := List.ne_nil_of_mem hzero
    have hlen := List.length_pos_of_ne_nil (dc_ne_nil hne)
    refine ⟨1, ?_, le_rfl⟩
    rw [List.getLast?_eq_getElem?, length_cummSd, getElem?_cummSd sds (by omega),
      Nat.sub_add_cancel hlen, cumulative_length sds hne]

end Distribution

section Draws
variable {sds : List ℕ}

def middle (sds : List ℕ) (j : ℕ) : ℚ := (cumulative sds j + cumulative sds (j + 1)) / 2

theorem selectDistance_middle (hzero : 0 ∈ sds) {j : ℕ} (hj : j < (listSd sds).length) :
    selectDistance (listSd sds) (cummSd sds) (middle sds j) = .ok (some (listSd sds)[j]) := by
  have hne := List.ne_nil_of_mem hzero
  have hj' : j < (dc sds).length := by rwa [listSd, List.length_map] at hj
  have hlt := cumulative_lt sds hne (Nat.lt_succ_self j) hj'
  apply (distributionOf sds hzero).selectDistance_eq hj
  rw [List.findIdx?_eq_some_iff_getElem]
  have hget : ∀ k (hk : k < (cummSd sds).length), (cummSd sds)[k] = cumulative sds (k + 1) := by
    intro k hk
    have := getElem?_cummSd sds (length_cummSd sds ▸ hk)
    rwa [List.getElem?_eq_getElem hk, Option.some.injEq] at this
  have hjc : j < (cummSd sds).length := by rwa [length_cummSd]
  refine ⟨hjc, ?_, ?_⟩
  · rw [decide_eq_true_iff]
    change middle sds j ≤ (cummSd sds)[j]
    rw [hget, middle]
    linarith
  · intro k hk
    have hkc := hk.trans hjc
    rw [decide_eq_true_iff, not_le]
    change (cummSd sds)[k] < middle sds j
    rw [hget, middle]
    have hle : cumulative sds (k + 1) ≤ cumulative sds j := by
      rcases Nat.lt_or_eq_of_le (Nat.succ_le_of_lt hk) with h | h
      · exact (cumulative_lt sds hne h hj'.le).le
      · exact (congrArg (cumulative sds) h).le
    linarith

/-- Every distance up to the number of new references can be drawn. -/
theorem exists_draw (hzero : 0 ∈ sds) {sd i : ℕ} (hsd : sd ∈ sds) (hi : sd ≤ i) :
    ∃ u : ℚ, (0 ≤ u ∧ u < 1) ∧
      generateStackDistance (listSd sds) (cummSd sds) (distributionOf sds hzero).maxSd i false u =
        .ok (some sd) := by
  have hne := List.ne_nil_of_mem hzero
  obtain ⟨j, hj, rfl⟩ := List.getElem_of_mem ((mem_listSd sds).mpr hsd)
  have hj' : j < (dc sds).length := by rwa [listSd, List.length_map] at hj
  have hlt := cumulative_lt sds hne (Nat.lt_succ_self j) hj'
  have hlow : 0 ≤ cumulative sds j := by
    rcases Nat.eq_zero_or_pos j with rfl | hpos
    · exact le_rfl
    · exact (cumulative_lt sds hne hpos hj'.le).le
  have hselect := selectDistance_middle hzero hj
  have hmid : 0 ≤ middle sds j ∧ middle sds j < cumulative sds (j + 1) := by
    constructor <;> rw [middle] <;> linarith
  have hunit : ∀ {k : ℕ}, j ≤ k → k < (dc sds).length →
      cumulative sds (j + 1) ≤ cumulative sds (k + 1) := by
    intro k hjk hk
    rcases Nat.lt_or_eq_of_le hjk with h | rfl
    · exact (cumulative_lt sds hne (Nat.succ_lt_succ h) hk).le
    · exact le_rfl
  rcases Nat.lt_or_ge i (distributionOf sds hzero).maxSd with hlt' | hge
  · -- the draw is shrunk by the sum `c` at a position from `j` on
    obtain ⟨k, c, hk, hc, -, hmax, hremap⟩ :=
      (distributionOf sds hzero).remapDraw_of_lt hlt' false
    have hk' : k < (dc sds).length := by
      change k < (listSd sds).length at hk
      rwa [listSd, List.length_map] at hk
    obtain rfl : cumulative sds (k + 1) = c := by
      have hget := getElem?_cummSd sds hk'
      exact Option.some.inj (hget.symm.trans hc)
    have hle := hunit (hmax j hj hi) hk'
    have hpos : 0 < cumulative sds (k + 1) := by linarith
    refine ⟨middle sds j / cumulative sds (k + 1), ⟨div_nonneg hmid.1 hpos.le, ?_⟩, ?_⟩
    · rw [div_lt_one hpos]
      linarith
    · have hdraw := hremap (middle sds j / cumulative sds (k + 1))
      rw [div_mul_cancel₀ _ hpos.ne'] at hdraw
      rw [generateStackDistance]
      change (remapDraw (distributionOf sds hzero).listSd (distributionOf sds hzero).cummSd _ i
        false _ >>= _) = _
      rw [hdraw]
      exact hselect
  · refine ⟨middle sds j, ⟨hmid.1, ?_⟩, ?_⟩
    · have hlen := List.length_pos_of_ne_nil (dc_ne_nil hne)
      have hlast := hunit (k := (dc sds).length - 1) (by omega) (by omega)
      rw [Nat.sub_add_cancel hlen, cumulative_length sds hne] at hlast
      linarith
    · rw [generateStackDistance, remapDraw, if_neg (Nat.not_lt.mpr hge)]
      exact hselect

theorem exists_draws (hzero : 0 ∈ sds)
    (hbound : ∀ k (hk : k < sds.length), sds[k] ≤ newRefs 1 (sds.take k)) :
    ∃ u : ℕ → ℚ, (∀ k, 0 ≤ u k ∧ u k < 1) ∧
      ∀ n ≤ sds.length,
        drawDistances 1 (distributionOf sds hzero) false u n = .ok (sds.take n) := by
  have hdraw : ∀ k, ∃ v : ℚ, (0 ≤ v ∧ v < 1) ∧ ∀ hk : k < sds.length,
      generateStackDistance (listSd sds) (cummSd sds) (distributionOf sds hzero).maxSd
        (newRefs 1 (sds.take k)) false v = .ok (some sds[k]) := by
    intro k
    by_cases hk : k < sds.length
    · obtain ⟨v, hv, hdraw⟩ := exists_draw hzero (List.getElem_mem hk) (hbound k hk)
      exact ⟨v, hv, fun _ => hdraw⟩
    · exact ⟨0, ⟨le_rfl, one_pos⟩, fun h => absurd h hk⟩
  choose u hu hdraws using hdraw
  exact ⟨u, hu, fun n hn => drawDistances_eq 1 (distributionOf sds hzero) false u hdraws hn⟩

end Draws

section Profile
variable (trace : List ℕ) (window : ℕ)

theorem zero_mem_profile {trace : List ℕ} (hne : trace ≠ []) :
    0 ∈ (traceProfile trace window).1 := by
  obtain ⟨x, rest, rfl⟩ := List.exists_cons_of_ne_nil hne
  have hfirst : traceTmp (x :: rest) window 0 = [] :=
    List.suffix_nil.mp (traceTmp_suffix (x :: rest) window 0)
  rw [traceProfile_eq, List.zipIdx_cons, List.map_cons, recorded, hfirst, if_neg List.not_mem_nil]
  exact List.mem_cons_self

/-- No recorded distance is larger than the window or the number of distinct indices. -/
theorem le_of_mem_profile {sd : ℕ} (hsd : sd ∈ (traceProfile trace window).1) :
    sd ≤ min window trace.dedup.length := by
  rw [traceProfile_eq] at hsd
  obtain ⟨⟨x, i⟩, -, rfl⟩ := List.mem_map.mp hsd
  dsimp only
  rw [recorded]
  split_ifs with hx
  · refine le_min ?_ ?_
    · obtain ⟨pre, hpre⟩ := traceTmp_suffix trace window i
      obtain ⟨a, b, hab, hb⟩ := exists_last_access hx
      have hlen := length_traceTmp_le trace window i
      rw [hab, List.length_append] at hlen
      rw [← hpre, hab, ← List.append_assoc, List.foldl_append, LruStack.distance_foldl_touch _ hb]
      exact (List.dedup_sublist _).length_le.trans (le_of_add_le_right hlen)
    · refine (LruStack.distance_le_length _ x).trans ?_
      have hsub : (trace.take i).foldl LruStack.touch [] ⊆ trace.dedup := by
        intro y hy
        rcases LruStack.mem_foldl_touch.mp hy with hmem | hnil
        · exact List.mem_dedup.mpr (List.mem_of_mem_take hmem)
        · cases hnil
      have hnodup := LruStack.nodup_foldl_touch List.nodup_nil (trace.take i)
      exact (List.subperm_of_subset hnodup hsub).length_le
  · exact Nat.zero_le _

theorem maxSd_le {trace : List ℕ} (hne : trace ≠ []) :
    (distributionOf (traceProfile trace window).1 (zero_mem_profile window hne)).maxSd ≤
      min window trace.dedup.length := by
  apply le_of_mem_profile trace window
  rw [← mem_listSd]
  exact List.getLast_mem _

end Profile

theorem traceGenerateLru_generated (d : Distribution) {tableSize : ℕ} (hpos : 0 < tableSize)
    (hmax : d.maxSd ≤ 2 * tableSize) {sample : List ℕ}
    (hsample : sample.Perm (List.range tableSize)) (n : ℕ) (enablePadding : Bool) {u : ℕ → ℚ}
    (hu : ∀ k < n, 0 ≤ u k ∧ u k ≤ 1) :
    ∃ refs sds s, drawDistances 1 d enablePadding u n = .ok sds ∧ sds.length = n ∧
      traceGenerateLru sample d.listSd d.cummSd n enablePadding u = .ok refs ∧
      Generated 1 1 sample refs sds s := by
  have hlen : sample.length = tableSize := by rw [hsample.length_eq, List.length_range]
  obtain ⟨refs, sds, s, hdraw, hsds, hrun, hgen⟩ := exists_generated 1 1 d enablePadding
    (hsample.nodup_iff.mpr List.nodup_range) (hlen ▸ hpos) (by rwa [hlen, Nat.mul_one]) n hu
  refine ⟨refs, sds, s, hdraw, hsds, ?_, hgen⟩
  rw [traceGenerateLru, hrun]
  refine congrArg Except.ok (hgen.ztrace.trans ?_)
  simp

/-- Profiling and generating: whatever trace is profiled, the generator returns a trace for every
order of the lines and for all draws, of the wanted length and inside the table, if the table has
at least half as many rows as the window positions or the trace distinct indices. -/
theorem generates_from_profile {trace : List ℕ} (hne : trace ≠ []) (window : ℕ) {tableSize : ℕ}
    (hpos : 0 < tableSize) (hsize : min window trace.dedup.length ≤ 2 * tableSize)
    {sample : List ℕ} (hsample : sample.Perm (List.range tableSize)) (n : ℕ) (enablePadding : Bool)
    (u : ℕ → ℚ) (hu : ∀ k < n, 0 ≤ u k ∧ u k ≤ 1) :
    ∃ refs, traceGenerateLru sample (listSd (traceProfile trace window).1)
        (cummSd (traceProfile trace window).1) n enablePadding u = .ok refs ∧
      refs.length = n ∧ ∀ ref ∈ refs, ref < tableSize := by
  let d := distributionOf (traceProfile trace window).1 (zero_mem_profile window hne)
  obtain ⟨refs, sds, s, -, hsds, hrun, hgen⟩ := traceGenerateLru_generated d hpos
    ((maxSd_le window hne).trans hsize) hsample n enablePadding hu
  refine ⟨refs, hrun, hgen.length_eq.trans hsds, ?_⟩
  intro ref href
  exact List.mem_range.mp (hsample.mem_iff.mp (hgen.mem ref href))

/-- A trace of three indices up to 9 and a window of four accesses, for a table of two rows. -/
theorem generates_from_profile_small : ∃ refs,
    traceGenerateLru [1, 0] (listSd (traceProfile [9, 5, 7, 9] 4).1)
      (cummSd (traceProfile [9, 5, 7, 9] 4).1) 4 true (fun _ => 1 / 2) = .ok refs ∧
    refs.length = 4 ∧ ∀ ref ∈ refs, ref < 2 :=
  generates_from_profile (by decide) 4 (by decide) (by decide) (by decide) 4 true (fun _ => 1 / 2)
    (by intros; norm_num)

section Regenerate
variable (accesses : List ℕ) (tableSize : ℕ)

/-- The lines in the order in which the trace first uses them, then the others. -/
def sampleOf : List ℕ :=
  accesses.reverse.foldl LruStack.touch [] ++ (List.range tableSize).filter (· ∉ accesses)

theorem sampleOf_perm (hlt : ∀ x ∈ accesses, x < tableSize) :
    (sampleOf accesses tableSize).Perm (List.range tableSize) := by
  have hnodup : (sampleOf accesses tableSize).Nodup := by
    rw [sampleOf, List.nodup_append]
    refine ⟨LruStack.nodup_foldl_touch List.nodup_nil _, List.nodup_range.filter _, ?_⟩
    intro x hx y hy hxy
    subst hxy
    simp only [LruStack.mem_foldl_touch, List.mem_reverse, List.not_mem_nil, or_false] at hx
    simp only [List.mem_filter, decide_eq_true_eq] at hy
    exact hy.2 hx
  rw [List.perm_ext_iff_of_nodup hnodup List.nodup_range]
  intro x
  simp only [sampleOf, List.mem_append, LruStack.mem_foldl_touch, List.mem_reverse,
    List.not_mem_nil, or_false, List.mem_filter, List.mem_range, decide_eq_true_eq]
  constructor
  · rintro (hx | ⟨hx, -⟩)
    · exact hlt x hx
    · exact hx
  · intro hx
    by_cases hmem : x ∈ accesses
    · exact .inl hmem
    · exact .inr ⟨hx, hmem⟩

/-- The next line that was not used is the one that the trace uses next. -/
theorem filter_sampleOf {t v : List ℕ} {x : ℕ} (hx : x ∉ t) :
    ∃ rest, (sampleOf (t ++ x :: v) tableSize).filter (· ∉ t) = x :: rest := by
  obtain ⟨w, hw⟩ : ∃ w, (v.reverse ++ [x]).foldl LruStack.touch [] = x :: w := by
    rw [List.foldl_append, List.foldl_cons, List.foldl_nil, LruStack.touch]
    exact ⟨_, rfl⟩
  rw [sampleOf, List.reverse_append, List.reverse_cons, List.foldl_append, hw, LruStack.foldl_touch,
    List.filter_append, List.filter_append]
  have hold : (t.reverse.dedup.reverse).filter (· ∉ t) = [] := by
    rw [List.filter_eq_nil_iff]
    simp
  rw [hold, List.nil_append, List.filter_cons_of_pos (by simpa using hx),
    List.filter_cons_of_pos (by simpa using hx)]
  exact ⟨_, rfl⟩

theorem sampleOf_reverse_nodup (hlt : ∀ x ∈ accesses, x < tableSize) :
    (sampleOf accesses tableSize).reverse.Nodup :=
  List.nodup_reverse.mpr ((sampleOf_perm accesses tableSize hlt).nodup_iff.mpr List.nodup_range)

theorem length_foldl_touch_sampleOf (hlt : ∀ x ∈ accesses, x < tableSize) (k : ℕ) :
    ((accesses.take k).foldl LruStack.touch (sampleOf accesses tableSize).reverse).length =
      tableSize := by
  have hperm := sampleOf_perm accesses tableSize hlt
  have hmem : ∀ x ∈ accesses.take k, x ∈ (sampleOf accesses tableSize).reverse := fun x hx =>
    List.mem_reverse.mpr
      (hperm.mem_iff.mpr (List.mem_range.mpr (hlt x (List.mem_of_mem_take hx))))
  rw [(LruStack.perm_foldl_touch (sampleOf_reverse_nodup _ _ hlt) hmem).length_eq,
    List.length_reverse, hperm.length_eq, List.length_range]

/-- An access to a line that was used: both stacks start with the lines that were used. -/
theorem distance_sampleOf_of_mem (hlt : ∀ x ∈ accesses, x < tableSize) {k : ℕ}
    (hk : k < accesses.length) (hseen : accesses[k] ∈ accesses.take k) :
    LruStack.distance ((accesses.take k).foldl LruStack.touch
        (sampleOf accesses tableSize).reverse) accesses[k] =
      depth tableSize
        (LruStack.distance ((accesses.take k).foldl LruStack.touch []) accesses[k]) := by
  have hcold := LruStack.distance_foldl_touch_nil (sampleOf accesses tableSize).reverse
    (accesses.take k) accesses[k]
  have hne : LruStack.distance ((accesses.take k).foldl LruStack.touch []) accesses[k] ≠ 0 := by
    rw [Ne, LruStack.distance_eq_zero_iff, not_not, LruStack.mem_foldl_touch]
    exact .inl hseen
  have hwarm := LruStack.distance_le_length
    ((accesses.take k).foldl LruStack.touch (sampleOf accesses tableSize).reverse) accesses[k]
  rw [length_foldl_touch_sampleOf _ _ hlt] at hwarm
  split_ifs at hcold with hle
  · rw [hcold, depth_of_le (hcold ▸ hne) hwarm]
  · exact absurd hcold hne

/-- A first access: its line is the last one on the stack. -/
theorem distance_sampleOf_of_notMem (hlt : ∀ x ∈ accesses, x < tableSize) {k : ℕ}
    (hk : k < accesses.length) (hseen : accesses[k] ∉ accesses.take k) :
    LruStack.distance ((accesses.take k).foldl LruStack.touch
        (sampleOf accesses tableSize).reverse) accesses[k] =
      depth tableSize
        (LruStack.distance ((accesses.take k).foldl LruStack.touch []) accesses[k]) := by
  have hzero : LruStack.distance ((accesses.take k).foldl LruStack.touch []) accesses[k] = 0 := by
    rw [LruStack.distance_eq_zero_iff, LruStack.mem_foldl_touch]
    rintro (h | h)
    · exact hseen h
    · cases h
  have hsplit : accesses = accesses.take k ++ accesses[k] :: accesses.drop (k + 1) := by
    rw [← List.drop_eq_getElem_cons hk, List.take_append_drop]
  obtain ⟨rest, hrest⟩ : ∃ rest, (sampleOf accesses tableSize).filter (· ∉ accesses.take k) =
      accesses[k] :: rest := by
    have hfilter := filter_sampleOf tableSize (v := accesses.drop (k + 1)) hseen
    rwa [← hsplit] at hfilter
  have hstack : (accesses.take k).foldl LruStack.touch (sampleOf accesses tableSize).reverse =
      (accesses.take k).dedup.reverse ++ rest.reverse ++ [accesses[k]] := by
    rw [LruStack.foldl_touch, List.filter_reverse, hrest]
    simp
  have hlen := length_foldl_touch_sampleOf _ _ hlt k
  have hfold := LruStack.nodup_foldl_touch (sampleOf_reverse_nodup _ _ hlt) (accesses.take k)
  rw [hstack] at hlen hfold ⊢
  have hnot : accesses[k] ∉ (accesses.take k).dedup.reverse ++ rest.reverse := by
    have := List.nodup_middle.mp hfold
    rw [List.append_nil] at this
    exact (List.nodup_cons.mp this).1
  rw [LruStack.distance_append_cons hnot, hzero, depth, if_pos rfl]
  simpa [Nat.add_assoc] using hlen

/-- On the stack of these lines the depth of an access is its distance in the trace, or the whole
table for a first access. -/
theorem distances_sampleOf (hlt : ∀ x ∈ accesses, x < tableSize) :
    LruStack.distances (sampleOf accesses tableSize).reverse accesses =
      (LruStack.distances [] accesses).map (depth tableSize) := by
  apply List.ext_getElem?
  intro k
  rw [List.getElem?_map]
  rcases Nat.lt_or_ge k accesses.length with hk | hk
  · rw [LruStack.getElem_distances _ accesses hk, LruStack.getElem_distances [] accesses hk,
      Option.map_some]
    congr 1
    by_cases hseen : accesses[k] ∈ accesses.take k
    · exact distance_sampleOf_of_mem _ _ hlt hk hseen
    · exact distance_sampleOf_of_notMem _ _ hlt hk hseen
  · rw [List.getElem?_eq_none (by simpa using hk), List.getElem?_eq_none (by simpa using hk)]
    rfl

/-- A distance is at most the number of first accesses before it. -/
theorem distances_bounded {k : ℕ} (hk : k < (LruStack.distances [] accesses).length) :
    (LruStack.distances [] accesses)[k] ≤
      newRefs 1 ((LruStack.distances [] accesses).take k) := by
  have hk' : k < accesses.length := by simpa using hk
  have htake : (LruStack.distances [] accesses).take k =
      LruStack.distances [] (accesses.take k) := by
    conv_lhs => rw [← List.take_append_drop k accesses, LruStack.distances_append]
    rw [List.take_append_of_le_length (by simp [hk'.le]), List.take_of_length_le (by simp)]
  have hget := LruStack.getElem_distances [] accesses hk'
  rw [List.getElem?_eq_getElem hk, Option.some.injEq] at hget
  rw [hget, newRefs_one, htake, LruStack.count_zero_distances]
  refine (LruStack.distance_le_length _ _).trans ?_
  simp [LruStack.foldl_touch]

end Regenerate

/-- A trace that was profiled with a large enough window is itself one of the traces that the
generator can return: there are an order of the lines and draws for it. -/
theorem regenerates_trace {trace : List ℕ} (hne : trace ≠ []) {window : ℕ}
    (hwindow : trace.length ≤ window) {tableSize : ℕ} (hlt : ∀ x ∈ trace, x < tableSize) :
    ∃ sample, sample.Perm (List.range tableSize) ∧ ∃ u : ℕ → ℚ, (∀ k, 0 ≤ u k ∧ u k < 1) ∧
      traceGenerateLru sample (listSd (traceProfile trace window).1)
        (cummSd (traceProfile trace window).1) trace.length false u = .ok trace := by
  have hzero := zero_mem_profile window hne
  have hmax : (distributionOf _ hzero).maxSd ≤ 2 * tableSize := by
    have hsub : trace.dedup ⊆ List.range tableSize := fun x hx =>
      List.mem_range.mpr (hlt x (List.mem_dedup.mp hx))
    have hle := (List.subperm_of_subset trace.nodup_dedup hsub).length_le
    rw [List.length_range] at hle
    exact (maxSd_le window hne).trans ((min_le_right _ _).trans (by omega))
  have hpos : 0 < tableSize := by
    obtain ⟨x, hx⟩ := List.exists_mem_of_ne_nil trace hne
    exact Nat.zero_lt_of_lt (hlt x hx)
  simp only [traceProfile_of_length_le trace hwindow] at hzero hmax ⊢
  obtain ⟨u, hu, hdraw⟩ := exists_draws hzero fun k hk => distances_bounded trace hk
  have hsample := sampleOf_perm trace tableSize hlt
  have hlen : (sampleOf trace tableSize).length = tableSize := by
    rw [hsample.length_eq, List.length_range]
  refine ⟨sampleOf trace tableSize, hsample, u, hu, ?_⟩
  obtain ⟨refs, sds, s, hdraws, -, hrun, hgen⟩ :=
    traceGenerateLru_generated (distributionOf _ hzero) hpos hmax hsample trace.length false
      fun k _ => ⟨(hu k).1, (hu k).2.le⟩
  have hsds : sds = LruStack.distances [] trace := by
    have heq := hdraw trace.length (by simp)
    rw [hdraws, Except.ok.injEq, List.take_of_length_le (by simp)] at heq
    exact heq
  -- distances on a stack that holds all lines determine the accesses
  have hrefs : refs = trace := by
    apply LruStack.distances_inj (s := (sampleOf trace tableSize).reverse)
    · exact fun x hx => List.mem_reverse.mpr (hgen.mem x hx)
    · exact fun x hx => List.mem_reverse.mpr (hsample.mem_iff.mpr (List.mem_range.mpr (hlt x hx)))
    · rw [hgen.distances, hsds, distances_sampleOf trace tableSize hlt, hlen]
      simp
  rw [hrefs] at hrun
  exact hrun

theorem regenerates_trace_small : ∃ sample, sample.Perm (List.range 3) ∧
    ∃ u : ℕ → ℚ, (∀ k, 0 ≤ u k ∧ u k < 1) ∧
      traceGenerateLru sample (listSd (traceProfile [2, 0, 2, 1] 9).1)
        (cummSd (traceProfile [2, 0, 2, 1] 9).1) 4 false u = .ok [2, 0, 2, 1] :=
  regenerates_trace (by decide) (by decide) (by decide)

end EbpfIsp.Traces
