import EbpfIsp.Library.LruStack
import EbpfIsp.Library.Loop
import EbpfIsp.Library.Python
import Mathlib.Data.List.GetD

/-! # Generating a trace

`trace_generate_lru` turns random draws into stack distances and stack
distances into accesses. The lines of the table stand in a list with the least
recently used one first; distance `sd` takes the line at `l - sd`, and distance
0 the first one. Two copies exist: that of `trace_generator.py`, and that of
the class `DLRMDataGenerator`, which multiplies distances by
`num_indices_per_lookup` and lines by 128.
-/

namespace EbpfIsp.Traces
open Library

section Python
variable {α : Type}

/-- The position that a Python index means; negative ones count from the end. -/
def pyIndex (l : List α) (i : ℤ) : Py ℕ :=
  if 0 ≤ i ∧ i < l.length then return i.toNat
  else if i < 0 ∧ -l.length ≤ i then return (l.length + i).toNat
  else throw .indexError

def pyGet (l : List α) (i : ℤ) : Py α := do
  let k ← pyIndex l i
  match l[k]? with
  | some x => return x
  | none => throw .indexError

def pyPop (l : List α) (i : ℤ) : Py (α × List α) := do
  let k ← pyIndex l i
  match l[k]? with
  | some x => return (x, l.eraseIdx k)
  | none => throw .indexError

variable {l : List α} {i : ℤ} {k : ℕ}

theorem pyIndex_natCast (h : k < l.length) : pyIndex l k = .ok k := by
  rw [pyIndex, if_pos (by omega)]
  rfl

theorem pyIndex_neg (hpos : 0 < k) (h : k ≤ l.length) : pyIndex l (-k) = .ok (l.length - k) := by
  rw [pyIndex, if_neg (by omega), if_pos (by omega)]
  exact congrArg Except.ok (by omega)

theorem pyIndex_error (h : i < -l.length) : pyIndex l i = .error .indexError := by
  rw [pyIndex, if_neg (by omega), if_neg (by omega)]
  rfl

theorem pyGet_eq (hi : pyIndex l i = .ok k) (hk : k < l.length) : pyGet l i = .ok l[k] := by
  rw [pyGet, hi, ok_bind, List.getElem?_eq_getElem hk]
  rfl

theorem pyPop_eq (hi : pyIndex l i = .ok k) (hk : k < l.length) :
    pyPop l i = .ok (l[k], l.eraseIdx k) := by
  rw [pyPop, hi, ok_bind, List.getElem?_eq_getElem hk]
  rfl

theorem pyGet_natCast (h : k < l.length) : pyGet l k = .ok l[k] := pyGet_eq (pyIndex_natCast h) h

theorem pyGet_neg_one (h : l ≠ []) : pyGet l (-1) = .ok (l.getLast h) := by
  have hpos := List.length_pos_of_ne_nil h
  rw [List.getLast_eq_getElem]
  exact pyGet_eq (pyIndex_neg Nat.one_pos hpos) (by omega)

end Python

section Bisect

/-- The loop of `bisect.bisect` between `lo` and `hi`; every round halves the interval. -/
def bisectLoop (a : List ℕ) (x : ℕ) : ℕ → ℕ → ℕ → ℕ
  | 0, lo, _ => lo
  | fuel + 1, lo, hi =>
    if lo < hi then
      let mid := (lo + hi) / 2
      if x < a.getD mid 0 then bisectLoop a x fuel lo mid else bisectLoop a x fuel (mid + 1) hi
    else lo

def bisect (a : List ℕ) (x : ℕ) : ℕ := bisectLoop a x a.length 0 a.length

end Bisect

/-- The draw on the part of the distribution that is used: no distance above the number `i` of
new references, or no new reference once there are enough. -/
def remapDraw (cummVal : List ℕ) (cummDist : List ℚ) (maxI i : ℕ) (enablePadding : Bool) (u : ℚ) :
    Py ℚ :=
  if i < maxI then do
    let fi ← pyGet cummDist ((bisect cummVal i : ℤ) - 1)
    return u * fi
  else if enablePadding then do
    let fi ← pyGet cummDist 0
    return (1 - fi) * u + fi
  else return u

/-- The distance at the first sum that is not below the draw; the loop may end without one. -/
def selectDistance (cummVal : List ℕ) (cummDist : List ℚ) (u : ℚ) : Py (Option ℕ) :=
  match cummDist.findIdx? (u ≤ ·) with
  | some j => some <$> pyGet cummVal j
  | none => return none

/-- `generate_stack_distance`, with the draw `u` of `ra.rand(1)`. -/
def generateStackDistance (cummVal : List ℕ) (cummDist : List ℚ) (maxI i : ℕ)
    (enablePadding : Bool) (u : ℚ) : Py (Option ℕ) := do
  let u ← remapDraw cummVal cummDist maxI i enablePadding u
  selectDistance cummVal cummDist u

/-- The lines, the number of new references, and the trace so far. -/
structure GenState where
  lineAccesses : List ℕ
  i : ℕ
  ztrace : List ℕ

/-- One access at stack distance `sd`, where `l` is the number of lines. -/
def GenState.access (cacheLineSize l : ℕ) (s : GenState) (sd : ℕ) : Py GenState :=
  if sd = 0 then do
    let (lineRef, rest) ← pyPop s.lineAccesses 0
    return ⟨rest ++ [lineRef], s.i + 1, s.ztrace ++ [lineRef * cacheLineSize]⟩
  else do
    let lineRef ← pyGet s.lineAccesses ((l : ℤ) - sd)
    let (_, rest) ← pyPop s.lineAccesses ((l : ℤ) - sd)
    return ⟨rest ++ [lineRef], s.i, s.ztrace ++ [lineRef * cacheLineSize]⟩

/-- The body of the loop: a distance is drawn and multiplied; arithmetic with `None` raises. -/
def generateStep (scale cacheLineSize l : ℕ) (listSd : List ℕ) (cummSd : List ℚ) (maxSd : ℕ)
    (enablePadding : Bool) (u : ℚ) (s : GenState) : Py GenState := do
  match ← generateStackDistance listSd cummSd maxSd s.i enablePadding u with
  | some sd => s.access cacheLineSize l (sd * scale)
  | none => throw .typeError

def generateLru (scale cacheLineSize : ℕ) (lineAccesses listSd : List ℕ) (cummSd : List ℚ)
    (outTraceLen : ℕ) (enablePadding : Bool) (u : ℕ → ℚ) : Py GenState := do
  let maxSd ← pyGet listSd (-1)
  forLoop outTraceLen (fun n s =>
    generateStep scale cacheLineSize lineAccesses.length listSd cummSd maxSd enablePadding (u n) s)
    ⟨lineAccesses, 0, []⟩

/-- `trace_generate_lru` of `trace_generator.py`; `sample` is what `random.sample` has drawn
from `range(table_size)`. -/
def traceGenerateLru (sample listSd : List ℕ) (cummSd : List ℚ) (outTraceLen : ℕ)
    (enablePadding : Bool) (u : ℕ → ℚ) : Py (List ℕ) :=
  GenState.ztrace <$> generateLru 1 1 sample listSd cummSd outTraceLen enablePadding u

def DLRMDataGenerator.traceGenerateLru (numIndicesPerLookup : ℕ) (lineAccesses listSd : List ℕ)
    (cummSd : List ℚ) (outTraceLen : ℕ) (enablePadding : Bool) (u : ℕ → ℚ) : Py (List ℕ) :=
  GenState.ztrace <$>
    generateLru numIndicesPerLookup 128 lineAccesses listSd cummSd outTraceLen enablePadding u

section Bisect
variable {a : List ℕ} {x : ℕ}

structure Between (a : List ℕ) (x lo hi : ℕ) : Prop where
  le : lo ≤ hi
  le_length : hi ≤ a.length
  below : ∀ k (hk : k < a.length), k < lo → a[k] ≤ x
  above : ∀ k (hk : k < a.length), hi ≤ k → x < a[k]

theorem bisectLoop_between (hs : a.Pairwise (· ≤ ·)) {fuel lo hi : ℕ} (h : Between a x lo hi)
    (hfuel : hi ≤ lo + fuel) :
    Between a x (bisectLoop a x fuel lo hi) (bisectLoop a x fuel lo hi) := by
  induction fuel generalizing lo hi with
  | zero =>
    obtain rfl : lo = hi := Nat.le_antisymm h.le hfuel
    exact h
  | succ fuel ih =>
    rw [bisectLoop]
    split
    next hlt =>
      have hmid : (lo + hi) / 2 < a.length := by
        have := h.le_length
        omega
      have hsorted : ∀ j k (hj : j ≤ k) (hk : k < a.length), a[j] ≤ a[k] := by
        intro j k hj hk
        rcases Nat.lt_or_eq_of_le hj with hlt | rfl
        · exact List.pairwise_iff_getElem.mp hs j k (hlt.trans hk) hk hlt
        · exact le_rfl
      simp only [List.getD_eq_getElem a 0 hmid]
      split
      next hgt =>
        refine ih ⟨by omega, hmid.le, h.below, ?_⟩ (by omega)
        intro k hk hle
        exact hgt.trans_le (hsorted _ k hle hk)
      next hle =>
        refine ih ⟨by omega, h.le_length, ?_, h.above⟩ (by omega)
        intro k hk hlt'
        exact (hsorted k _ (by omega) hmid).trans (Nat.le_of_not_lt hle)
    next hge =>
      obtain rfl : lo = hi := Nat.le_antisymm h.le (Nat.le_of_not_lt hge)
      exact h

/-- On a sorted list the result is the number of elements up to `x`. -/
theorem bisect_between (hs : a.Pairwise (· ≤ ·)) (x : ℕ) :
    Between a x (bisect a x) (bisect a x) :=
  bisectLoop_between hs ⟨Nat.zero_le _, le_rfl, fun _ _ h => absurd h (Nat.not_lt_zero _),
    fun _ hk h => absurd hk (Nat.not_lt.mpr h)⟩ (by omega)

theorem lt_bisect_iff (hs : a.Pairwise (· ≤ ·)) {k : ℕ} (hk : k < a.length) :
    k < bisect a x ↔ a[k] ≤ x := by
  have hb := bisect_between hs x
  constructor
  · exact hb.below k hk
  · intro hle
    by_contra hge
    have := hb.above k hk (Nat.le_of_not_lt hge)
    omega

end Bisect

/-- A distribution of stack distances as the generators need it: the distances rise from 0, and
the sums of the probabilities reach 1. With rounding they may end above it. -/
structure Distribution where
  listSd : List ℕ
  cummSd : List ℚ
  lengths : cummSd.length = listSd.length
  sorted : listSd.Pairwise (· < ·)
  zero : listSd[0]? = some 0
  nonneg : ∀ c ∈ cummSd, 0 ≤ c
  last : ∃ c, cummSd.getLast? = some c ∧ 1 ≤ c

namespace Distribution

variable (d : Distribution)

theorem listSd_ne_nil : d.listSd ≠ [] := by
  intro h
  have hzero := d.zero
  rw [h] at hzero
  cases hzero

theorem length_pos : 0 < d.listSd.length := List.length_pos_of_ne_nil d.listSd_ne_nil

def maxSd : ℕ := d.listSd.getLast d.listSd_ne_nil

theorem sorted_le : d.listSd.Pairwise (· ≤ ·) := d.sorted.imp Nat.le_of_lt

theorem getElem_le {j k : ℕ} (hjk : j ≤ k) (hk : k < d.listSd.length) :
    d.listSd[j] ≤ d.listSd[k] := by
  rcases Nat.lt_or_eq_of_le hjk with hlt | rfl
  · exact List.pairwise_iff_getElem.mp d.sorted_le j k (hlt.trans hk) hk hlt
  · exact le_rfl

theorem getElem_le_maxSd {k : ℕ} (hk : k < d.listSd.length) : d.listSd[k] ≤ d.maxSd := by
  rw [maxSd, List.getLast_eq_getElem]
  exact d.getElem_le (by omega) _

theorem le_maxSd {sd : ℕ} (h : sd ∈ d.listSd) : sd ≤ d.maxSd := by
  obtain ⟨k, hk, rfl⟩ := List.getElem_of_mem h
  exact d.getElem_le_maxSd hk

theorem getElem_zero (h : 0 < d.listSd.length) : d.listSd[0] = 0 := by
  have hzero := d.zero
  rwa [List.getElem?_eq_getElem h, Option.some.injEq] at hzero

theorem selectDistance_eq {v : ℚ} {j : ℕ} (hj : j < d.listSd.length)
    (h : d.cummSd.findIdx? (v ≤ ·) = some j) :
    selectDistance d.listSd d.cummSd v = .ok (some d.listSd[j]) := by
  rw [selectDistance, h]
  dsimp only
  rw [pyGet_natCast hj]
  rfl

/-- If the sum at position `k` is not below the draw, a distance up to there is taken. -/
theorem selectDistance_spec {v c : ℚ} {k : ℕ} (hc : d.cummSd[k]? = some c) (hv : v ≤ c) :
    ∃ j, ∃ hj : j < d.listSd.length, j ≤ k ∧
      selectDistance d.listSd d.cummSd v = .ok (some d.listSd[j]) := by
  obtain ⟨hk, rfl⟩ := List.getElem?_eq_some_iff.mp hc
  cases hfind : d.cummSd.findIdx? (v ≤ ·) with
  | none =>
    rw [List.findIdx?_eq_none_iff] at hfind
    have hno := hfind d.cummSd[k] (List.getElem_mem hk)
    simp only [decide_eq_false_iff_not] at hno
    exact absurd hv hno
  | some j =>
    obtain ⟨hj, -, hmin⟩ := List.findIdx?_eq_some_iff_getElem.mp hfind
    have hjk : j ≤ k := by
      by_contra hlt
      have hno := hmin k (Nat.lt_of_not_le hlt)
      simp only [decide_eq_true_eq] at hno
      exact hno hv
    exact ⟨j, d.lengths ▸ hj, hjk, d.selectDistance_eq _ hfind⟩

/-- Below the largest distance the draw is shrunk to the sums up to distance `i`. -/
theorem remapDraw_of_lt {i : ℕ} (hi : i < d.maxSd) (enablePadding : Bool) :
    ∃ k c, ∃ hk : k < d.listSd.length, d.cummSd[k]? = some c ∧ d.listSd[k] ≤ i ∧
      (∀ j (hj : j < d.listSd.length), d.listSd[j] ≤ i → j ≤ k) ∧
      ∀ u, remapDraw d.listSd d.cummSd d.maxSd i enablePadding u = .ok (u * c) := by
  have hpos : 0 < bisect d.listSd i := by
    rw [lt_bisect_iff d.sorted_le d.length_pos, d.getElem_zero]
    exact Nat.zero_le i
  have hle := (bisect_between d.sorted_le i).le_length
  have hk : bisect d.listSd i - 1 < d.listSd.length := by omega
  have hk' : bisect d.listSd i - 1 < d.cummSd.length := d.lengths ▸ hk
  refine ⟨bisect d.listSd i - 1, d.cummSd[bisect d.listSd i - 1], hk,
    List.getElem?_eq_getElem hk', ?_, ?_, ?_⟩
  · rw [← lt_bisect_iff d.sorted_le hk]
    omega
  · intro j hj hji
    have := (lt_bisect_iff d.sorted_le hj).mpr hji
    omega
  · intro u
    have hcast : (bisect d.listSd i : ℤ) - 1 = ((bisect d.listSd i - 1 : ℕ) : ℤ) := by omega
    rw [remapDraw, if_pos hi, hcast, pyGet_natCast hk']
    rfl

/-- From the largest distance on no draw is above all sums. -/
theorem remapDraw_of_ge {i : ℕ} (hi : d.maxSd ≤ i) (enablePadding : Bool) {u : ℚ}
    (hu : 0 ≤ u ∧ u ≤ 1) : ∃ v c, ∃ k : ℕ, d.cummSd[k]? = some c ∧ v ≤ c ∧
      remapDraw d.listSd d.cummSd d.maxSd i enablePadding u = .ok v := by
  obtain ⟨last, hlast, hone⟩ := d.last
  rw [List.getLast?_eq_getElem?] at hlast
  cases enablePadding with
  | false =>
    refine ⟨u, last, _, hlast, hu.2.trans hone, ?_⟩
    rw [remapDraw, if_neg (Nat.not_lt.mpr hi)]
    rfl
  | true =>
    have hpos : 0 < d.cummSd.length := d.lengths ▸ d.length_pos
    have hget : pyGet d.cummSd 0 = .ok d.cummSd[0] := pyGet_natCast hpos
    have hremap : remapDraw d.listSd d.cummSd d.maxSd i true u =
        .ok (((1 : ℚ) - d.cummSd[0]) * u + d.cummSd[0]) := by
      rw [remapDraw, if_neg (Nat.not_lt.mpr hi), if_pos rfl, hget]
      rfl
    rcases le_total d.cummSd[0] 1 with hle | hge
    · have hmul := mul_le_of_le_one_right (sub_nonneg.mpr hle) hu.2
      exact ⟨_, last, _, hlast, by linarith, hremap⟩
    · -- a first sum above 1 is not exceeded
      have hmul := mul_nonneg (sub_nonneg.mpr hge) hu.1
      exact ⟨_, _, 0, List.getElem?_eq_getElem hpos, by linarith, hremap⟩

/-- Every draw gives a distance of the list, never more than the number of new references. -/
theorem generateStackDistance_spec {u : ℚ} (hu : 0 ≤ u ∧ u ≤ 1) (i : ℕ) (enablePadding : Bool) :
    ∃ sd ∈ d.listSd, sd ≤ i ∧
      generateStackDistance d.listSd d.cummSd d.maxSd i enablePadding u = .ok (some sd) := by
  rcases Nat.lt_or_ge i d.maxSd with hlt | hge
  · obtain ⟨k, c, hk, hc, hki, -, hremap⟩ := d.remapDraw_of_lt hlt enablePadding
    have hnonneg := d.nonneg c (List.mem_of_getElem? hc)
    obtain ⟨j, hj, hjk, hselect⟩ := d.selectDistance_spec hc (mul_le_of_le_one_left hnonneg hu.2)
    refine ⟨d.listSd[j], List.getElem_mem hj, (d.getElem_le hjk hk).trans hki, ?_⟩
    rw [generateStackDistance, hremap]
    exact hselect
  · obtain ⟨v, c, k, hc, hv, hremap⟩ := d.remapDraw_of_ge hge enablePadding hu
    obtain ⟨j, hj, -, hselect⟩ := d.selectDistance_spec hc hv
    refine ⟨d.listSd[j], List.getElem_mem hj, (d.getElem_le_maxSd hj).trans hge, ?_⟩
    rw [generateStackDistance, hremap]
    exact hselect

end Distribution

end EbpfIsp.Traces
