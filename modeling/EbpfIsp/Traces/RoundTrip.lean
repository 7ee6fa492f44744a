import EbpfIsp.Traces.Generator
import EbpfIsp.Traces.Profile

/-! # Drawn distances and distances of the trace

The list of lines is an LRU stack with all lines on it, so that an access at
distance `sd` takes the line at depth `sd`. A distance above the number of lines
is an index below 0, which Python counts from the end, up to twice the number of
lines; beyond that it raises. In the trace itself only the lines seen so far are
on the stack. `trace_generator.py` never draws a distance that reaches below
them, and profiling its trace gives the drawn distances back. The class
multiplies the distances afterwards and loses this property.
-/

namespace EbpfIsp.Traces
open Library

section Access

/-- The depth of the line that is taken for distance `sd`; a new reference is the deepest one. -/
def depth (l sd : ℕ) : ℕ := if sd = 0 then l else if sd ≤ l then sd else sd - l

variable (cacheLineSize : ℕ) {s : GenState}

theorem pyIndex_sub {l : List ℕ} {sd : ℕ} (hpos : 0 < sd) (hsd : sd ≤ 2 * l.length) :
    pyIndex l (l.length - sd) = .ok (l.length - depth l.length sd) := by
  rw [depth, if_neg hpos.ne']
  split_ifs with hle
  · have hcast : (l.length : ℤ) - sd = ((l.length - sd : ℕ) : ℤ) := by omega
    rw [hcast, pyIndex_natCast (by omega)]
  · have hcast : (l.length : ℤ) - sd = -((sd - l.length : ℕ) : ℤ) := by omega
    rw [hcast, pyIndex_neg (by omega) (by omega)]

theorem depth_pos {l : ℕ} (sd : ℕ) (hl : 0 < l) : 0 < depth l sd := by
  rw [depth]
  split_ifs <;> omega

theorem depth_le {l sd : ℕ} (hsd : sd ≤ 2 * l) : depth l sd ≤ l := by
  rw [depth]
  split_ifs <;> omega

theorem depth_of_le {l sd : ℕ} (hne : sd ≠ 0) (hle : sd ≤ l) : depth l sd = sd := by
  rw [depth, if_neg hne, if_pos hle]

/-- Both branches move one line to the end, that at index `l - depth`. -/
theorem access_eq {sd : ℕ} (hpos : 0 < s.lineAccesses.length)
    (hsd : sd ≤ 2 * s.lineAccesses.length) :
    ∃ k, ∃ hk : k < s.lineAccesses.length,
      k + depth s.lineAccesses.length sd = s.lineAccesses.length ∧
      s.access cacheLineSize s.lineAccesses.length sd =
        .ok ⟨s.lineAccesses.eraseIdx k ++ [s.lineAccesses[k]], s.i + if sd = 0 then 1 else 0,
          s.ztrace ++ [s.lineAccesses[k] * cacheLineSize]⟩ := by
  have hdepth := depth_pos sd hpos
  have hle := depth_le hsd
  have hk : s.lineAccesses.length - depth s.lineAccesses.length sd < s.lineAccesses.length := by
    omega
  refine ⟨_, hk, Nat.sub_add_cancel hle, ?_⟩
  rw [GenState.access]
  split_ifs with hzero
  · have hidx : pyIndex s.lineAccesses 0 =
        .ok (s.lineAccesses.length - depth s.lineAccesses.length sd) := by
      rw [depth, if_pos hzero, Nat.sub_self]
      exact pyIndex_natCast hpos
    rw [pyPop_eq hidx hk]
    rfl
  · have hidx := pyIndex_sub (Nat.pos_of_ne_zero hzero) hsd
    rw [pyGet_eq hidx hk, pyPop_eq hidx hk]
    rfl

theorem access_error {sd : ℕ} (hsd : 2 * s.lineAccesses.length < sd) :
    s.access cacheLineSize s.lineAccesses.length sd = .error .indexError := by
  rw [GenState.access, if_neg (by omega), pyGet, pyIndex_error (by omega)]
  rfl

/-- One access: the line at the depth of `sd` comes to the top of the stack. -/
theorem access_spec {sd : ℕ} (hnodup : s.lineAccesses.Nodup) (hpos : 0 < s.lineAccesses.length)
    (hsd : sd ≤ 2 * s.lineAccesses.length) : ∃ ref ∈ s.lineAccesses, ∃ lines : List ℕ,
      s.access cacheLineSize s.lineAccesses.length sd =
        .ok ⟨lines, s.i + if sd = 0 then 1 else 0, s.ztrace ++ [ref * cacheLineSize]⟩ ∧
      lines.reverse = LruStack.touch s.lineAccesses.reverse ref ∧
      LruStack.distance s.lineAccesses.reverse ref = depth s.lineAccesses.length sd := by
  obtain ⟨k, hk, hdepth, hrun⟩ := access_eq cacheLineSize hpos hsd
  refine ⟨s.lineAccesses[k], List.getElem_mem hk, _, hrun,
    LruStack.reverse_eraseIdx_append hnodup hk, ?_⟩
  have hk' : s.lineAccesses.length - 1 - k < s.lineAccesses.reverse.length := by
    rw [List.length_reverse]
    omega
  have hget : s.lineAccesses.reverse[s.lineAccesses.length - 1 - k] = s.lineAccesses[k] := by
    rw [List.getElem_reverse]
    congr 1
    omega
  rw [← hget, LruStack.distance_getElem (List.nodup_reverse.mpr hnodup) hk']
  omega

end Access

section Runs
variable (scale cacheLineSize : ℕ) (d : Distribution) (enablePadding : Bool) (u : ℕ → ℚ)

def newRefs (sds : List ℕ) : ℕ := sds.countP fun sd => sd * scale = 0

theorem newRefs_one (sds : List ℕ) : newRefs 1 sds = sds.count 0 := by
  rw [newRefs, List.count]
  apply List.countP_congr
  simp

def drawDistances (n : ℕ) : Py (List ℕ) :=
  forLoop n (fun k sds => do
    let i := newRefs scale sds
    match ← generateStackDistance d.listSd d.cummSd d.maxSd i enablePadding (u k) with
    | some sd => return sds ++ [sd]
    | none => throw .typeError) []

variable {scale d enablePadding u} in
theorem drawDistances_succ {n sd : ℕ} {sds : List ℕ}
    (hdraws : drawDistances scale d enablePadding u n = .ok sds)
    (hdraw : generateStackDistance d.listSd d.cummSd d.maxSd (newRefs scale sds) enablePadding
      (u n) = .ok (some sd)) :
    drawDistances scale d enablePadding u (n + 1) = .ok (sds ++ [sd]) := by
  rw [drawDistances] at hdraws ⊢
  rw [forLoop, hdraws, ok_bind]
  dsimp only
  rw [hdraw]
  rfl

theorem drawDistances_eq {sds : List ℕ} (h : ∀ k (hk : k < sds.length),
    generateStackDistance d.listSd d.cummSd d.maxSd (newRefs scale (sds.take k)) enablePadding
      (u k) = .ok (some sds[k])) {n : ℕ} (hn : n ≤ sds.length) :
    drawDistances scale d enablePadding u n = .ok (sds.take n) := by
  induction n with
  | zero => rfl
  | succ n ih =>
    rw [drawDistances_succ (ih (Nat.le_of_succ_le hn)) (h n hn), List.take_add_one,
      List.getElem?_eq_getElem hn]
    rfl

/-- Distances of the list, none above the number of new references before it. -/
structure Drawn (sds : List ℕ) : Prop where
  mem : ∀ sd ∈ sds, sd ∈ d.listSd
  bounded : ∀ k (hk : k < sds.length), sds[k] ≤ newRefs scale (sds.take k)

/-- After the distances `sds` the generator has accessed the lines `refs`. -/
structure Generated (lines refs sds : List ℕ) (s : GenState) : Prop where
  stack : s.lineAccesses.reverse = refs.foldl LruStack.touch lines.reverse
  ztrace : s.ztrace = refs.map (· * cacheLineSize)
  news : s.i = newRefs scale sds
  distances : LruStack.distances lines.reverse refs =
    sds.map fun sd => depth lines.length (sd * scale)
  mem : ∀ ref ∈ refs, ref ∈ lines

variable {scale cacheLineSize d enablePadding u} {lines refs sds : List ℕ} {s : GenState} {sd : ℕ}
  {v : ℚ}

theorem Drawn.concat (h : Drawn scale d sds) (hmem : sd ∈ d.listSd) (hle : sd ≤ newRefs scale sds) :
    Drawn scale d (sds ++ [sd]) where
  mem sd' hsd' := by
    rcases List.mem_append.mp hsd' with hold | hnew
    · exact h.mem sd' hold
    · rwa [List.mem_singleton.mp hnew]
  bounded k hk := by
    rw [List.length_append, List.length_singleton] at hk
    rcases Nat.lt_succ_iff_lt_or_eq.mp hk with hlt | rfl
    · rw [List.getElem_append_left hlt, List.take_append_of_le_length hlt.le]
      exact h.bounded k hlt
    · rw [List.getElem_concat_length rfl, List.take_left]
      exact hle

theorem Generated.length_eq (h : Generated scale cacheLineSize lines refs sds s) :
    refs.length = sds.length := by
  have hlen := congrArg List.length h.distances
  rwa [LruStack.length_distances, List.length_map] at hlen

theorem Generated.perm (h : Generated scale cacheLineSize lines refs sds s)
    (hnodup : lines.Nodup) : s.lineAccesses.Perm lines := by
  have hperm := LruStack.perm_foldl_touch (List.nodup_reverse.mpr hnodup)
    (fun ref href => List.mem_reverse.mpr (h.mem ref href))
  rw [← h.stack] at hperm
  exact (List.reverse_perm _).symm.trans (hperm.trans (List.reverse_perm _))

theorem generated_nil (lines : List ℕ) :
    Generated scale cacheLineSize lines [] [] ⟨lines, 0, []⟩ :=
  ⟨rfl, rfl, rfl, rfl, by simp⟩

section Step
variable (h : Generated scale cacheLineSize lines refs sds s) (hnodup : lines.Nodup)
  (hdraw : generateStackDistance d.listSd d.cummSd d.maxSd (newRefs scale sds) enablePadding v =
    .ok (some sd))

include h hdraw in
theorem Generated.step_eq : generateStep scale cacheLineSize lines.length d.listSd d.cummSd d.maxSd
    enablePadding v s = s.access cacheLineSize lines.length (sd * scale) := by
  rw [← h.news] at hdraw
  rw [generateStep, hdraw]
  rfl

include h hnodup hdraw

theorem Generated.step (hpos : 0 < lines.length) (hsd : sd * scale ≤ 2 * lines.length) :
    ∃ ref s', generateStep scale cacheLineSize lines.length d.listSd d.cummSd d.maxSd enablePadding
        v s = .ok s' ∧
      Generated scale cacheLineSize lines (refs ++ [ref]) (sds ++ [sd]) s' := by
  have hlen := (h.perm hnodup).length_eq
  obtain ⟨ref, href, lines', hrun, hlines, hdist⟩ := access_spec cacheLineSize
    ((h.perm hnodup).nodup_iff.mpr hnodup) (hlen ▸ hpos) (hlen ▸ hsd)
  rw [hlen] at hrun hdist
  refine ⟨ref, _, (h.step_eq hdraw).trans hrun, ?_, ?_, ?_, ?_, ?_⟩
  · rw [List.foldl_append, ← h.stack]
    exact hlines
  · simp [h.ztrace]
  · rw [h.news, newRefs, newRefs, List.countP_append, List.countP_singleton]
    simp only [decide_eq_true_eq]
  · rw [LruStack.distances_append, h.distances, ← h.stack, List.map_append]
    simp [LruStack.distances, hdist]
  · intro ref' href'
    rcases List.mem_append.mp href' with hold | hnew
    · exact h.mem ref' hold
    · rw [List.mem_singleton.mp hnew]
      exact (h.perm hnodup).mem_iff.mp href

theorem Generated.step_error (hsd : 2 * lines.length < sd * scale) :
    generateStep scale cacheLineSize lines.length d.listSd d.cummSd d.maxSd enablePadding v s =
      .error .indexError := by
  have hlen := (h.perm hnodup).length_eq
  rw [h.step_eq hdraw, ← hlen]
  exact access_error cacheLineSize (hlen ▸ hsd)

end Step

/-- What comes of the drawn distances: a trace, or an `IndexError` if one of them is too large for
the lines. -/
inductive Outcome (scale cacheLineSize : ℕ) (lines sds : List ℕ) : Py GenState → Prop where
  | generated {refs : List ℕ} {s : GenState} (hle : ∀ sd ∈ sds, sd * scale ≤ 2 * lines.length)
      (h : Generated scale cacheLineSize lines refs sds s) :
      Outcome scale cacheLineSize lines sds (.ok s)
  | raised (hlt : ∃ sd ∈ sds, 2 * lines.length < sd * scale) :
      Outcome scale cacheLineSize lines sds (.error .indexError)

theorem Outcome.step {r : Py GenState} (hout : Outcome scale cacheLineSize lines sds r)
    (hnodup : lines.Nodup) (hpos : 0 < lines.length)
    (hdraw : generateStackDistance d.listSd d.cummSd d.maxSd (newRefs scale sds) enablePadding v =
      .ok (some sd)) :
    Outcome scale cacheLineSize lines (sds ++ [sd]) (r >>= generateStep scale cacheLineSize
      lines.length d.listSd d.cummSd d.maxSd enablePadding v) := by
  cases hout with
  | generated hle h =>
    rw [ok_bind]
    rcases Nat.lt_or_ge (2 * lines.length) (sd * scale) with hlt | hge
    · rw [h.step_error hnodup hdraw hlt]
      exact .raised ⟨sd, by simp, hlt⟩
    · obtain ⟨ref, s', hstep, h'⟩ := h.step hnodup hdraw hpos hge
      rw [hstep]
      refine .generated ?_ h'
      intro sd' hsd'
      rcases List.mem_append.mp hsd' with hold | hnew
      · exact hle sd' hold
      · rwa [List.mem_singleton.mp hnew]
  | raised hlt =>
    obtain ⟨sd', hmem, hlt⟩ := hlt
    rw [error_bind]
    exact .raised ⟨sd', List.mem_append_left _ hmem, hlt⟩

variable (scale cacheLineSize d enablePadding) in
theorem generateLru_outcome (hnodup : lines.Nodup) (hpos : 0 < lines.length) {n : ℕ}
    (hu : ∀ k < n, 0 ≤ u k ∧ u k ≤ 1) : ∃ sds,
      drawDistances scale d enablePadding u n = .ok sds ∧ sds.length = n ∧ Drawn scale d sds ∧
      Outcome scale cacheLineSize lines sds
        (generateLru scale cacheLineSize lines d.listSd d.cummSd n enablePadding u) := by
  have hlast : pyGet d.listSd (-1) = .ok d.maxSd := pyGet_neg_one d.listSd_ne_nil
  rw [generateLru, hlast, ok_bind]
  induction n with
  | zero => exact ⟨[], rfl, rfl, ⟨by simp, by simp⟩, .generated (by simp) (generated_nil lines)⟩
  | succ n ih =>
    obtain ⟨sds, hdraws, hlen, hdrawn, hout⟩ := ih fun k hk => hu k (Nat.lt_succ_of_lt hk)
    obtain ⟨sd, hmem, hle, hdraw⟩ :=
      d.generateStackDistance_spec (hu n (Nat.lt_succ_self n)) (newRefs scale sds) enablePadding
    exact ⟨sds ++ [sd], drawDistances_succ hdraws hdraw, by simp [hlen], hdrawn.concat hmem hle,
      hout.step hnodup hpos hdraw⟩

variable (scale cacheLineSize d enablePadding) in
/-- With enough lines for the largest distance the loop never fails. -/
theorem exists_generated (hnodup : lines.Nodup) (hpos : 0 < lines.length)
    (hmax : d.maxSd * scale ≤ 2 * lines.length) (n : ℕ) (hu : ∀ k < n, 0 ≤ u k ∧ u k ≤ 1) :
    ∃ refs sds s, drawDistances scale d enablePadding u n = .ok sds ∧ sds.length = n ∧
      generateLru scale cacheLineSize lines d.listSd d.cummSd n enablePadding u = .ok s ∧
      Generated scale cacheLineSize lines refs sds s := by
  obtain ⟨sds, hdraws, hlen, hdrawn, hout⟩ :=
    generateLru_outcome scale cacheLineSize d enablePadding hnodup hpos hu
  generalize hrun : generateLru scale cacheLineSize lines d.listSd d.cummSd n enablePadding u = r
    at hout
  cases hout with
  | generated _ h => exact ⟨_, sds, _, hdraws, hlen, rfl, h⟩
  | raised hlt =>
    obtain ⟨sd, hsd, hlt⟩ := hlt
    have hle := Nat.mul_le_mul_right scale (d.le_maxSd (hdrawn.mem sd hsd))
    omega

/-- Depth and line of the access at position `k`. -/
theorem Generated.distance_at (h : Generated scale cacheLineSize lines refs sds s) {k : ℕ}
    (hk : k < refs.length) (hk' : k < sds.length) :
    LruStack.distance ((refs.take k).foldl LruStack.touch lines.reverse) refs[k] =
      depth lines.length (sds[k] * scale) := by
  have hget := LruStack.getElem_distances lines.reverse refs hk
  rw [h.distances, List.getElem?_map, List.getElem?_eq_getElem hk'] at hget
  exact (Option.some.inj hget).symm

/-- An access is to a line seen before if its depth is within the lines seen. -/
theorem Generated.seen_iff (h : Generated scale cacheLineSize lines refs sds s)
    (hpos : 0 < lines.length) {k : ℕ} (hk : k < refs.length) (hk' : k < sds.length) :
    refs[k] ∈ refs.take k ↔ depth lines.length (sds[k] * scale) ≤ (refs.take k).dedup.length := by
  have hcold := LruStack.distance_foldl_touch_nil lines.reverse (refs.take k) refs[k]
  have hmem := LruStack.mem_foldl_touch (s := []) (t := refs.take k) (x := refs[k])
  have hdepth : 0 < depth lines.length (sds[k] * scale) := depth_pos _ hpos
  rw [h.distance_at hk hk', LruStack.distance] at hcold
  simp only [hmem, List.not_mem_nil, or_false] at hcold
  by_cases hseen : refs[k] ∈ refs.take k
  · rw [if_pos hseen] at hcold
    refine iff_of_true hseen ?_
    by_contra hlt
    rw [if_neg hlt] at hcold
    omega
  · rw [if_neg hseen] at hcold
    refine iff_of_false hseen ?_
    intro hle
    rw [if_pos hle] at hcold
    omega

end Runs

section Unscaled
variable {cacheLineSize : ℕ} {d : Distribution} {lines refs sds : List ℕ} {s : GenState}
  (h : Generated 1 cacheLineSize lines refs sds s) (hdrawn : Drawn 1 d sds)
  (hpos : 0 < lines.length) (hle : ∀ sd ∈ sds, sd ≤ 2 * lines.length)
include h hdrawn hpos hle

/-- Without the factor every new reference is a new line while there is one, and nothing else is. -/
theorem Generated.seen_eq {k : ℕ} (hk : k ≤ sds.length) :
    (refs.take k).dedup.length = min (newRefs 1 (sds.take k)) lines.length := by
  induction k with
  | zero => simp [newRefs]
  | succ k ih =>
    have hks : k < sds.length := hk
    have hkr : k < refs.length := h.length_eq ▸ hks
    have hprev := ih hks.le
    have hseen := h.seen_iff hpos hkr hks
    have hbound := hdrawn.bounded k hks
    have hsd := hle _ (List.getElem_mem hks)
    rw [List.take_add_one, List.take_add_one, List.getElem?_eq_getElem hkr,
      List.getElem?_eq_getElem hks, Option.toList_some, Option.toList_some,
      LruStack.dedup_length_concat, newRefs, List.countP_append, List.countP_singleton, ← newRefs]
    simp only [hseen, hprev, Nat.mul_one, depth, decide_eq_true_eq]
    split_ifs <;> omega

theorem Generated.distances_nil : LruStack.distances [] refs = sds.zipIdx.map fun p =>
    if p.1 = 0 then if lines.length ≤ (sds.take p.2).count 0 then lines.length else 0
    else if p.1 ≤ lines.length then p.1 else p.1 - lines.length := by
  rw [LruStack.distances_nil lines.reverse refs, h.distances, List.zipIdx_map, List.map_map]
  apply List.map_congr_left
  rintro ⟨sd, k⟩ hp
  obtain ⟨hk, rfl⟩ : ∃ hk : k < sds.length, sds[k] = sd := by
    have hget := List.mem_zipIdx_iff_getElem?.mp hp
    exact List.getElem?_eq_some_iff.mp hget
  have hseen := h.seen_eq hdrawn hpos hle hk.le
  have hbound := hdrawn.bounded k hk
  have hsd := hle _ (List.getElem_mem hk)
  rw [newRefs_one] at hseen hbound
  simp only [Function.comp_apply, Prod.map_apply, id_eq, Nat.mul_one, depth, hseen]
  split_ifs <;> omega

end Unscaled

/-- The trace of `trace_generator.py`, for all draws and every order of the lines. If no drawn
distance is above twice the table size, it stays inside the table, and profiling it returns the
drawn distances: a new reference after all lines were used has the distance of the whole table,
and a distance above the table size is less by the table size. Otherwise the generation raises. -/
theorem profile_generated (d : Distribution) (tableSize : ℕ) (hpos : 0 < tableSize)
    (sample : List ℕ) (hsample : sample.Perm (List.range tableSize)) (n : ℕ) (enablePadding : Bool)
    (u : ℕ → ℚ) (hu : ∀ k < n, 0 ≤ u k ∧ u k ≤ 1) (window : ℕ) (hwindow : n ≤ window) : ∃ sds,
      drawDistances 1 d enablePadding u n = .ok sds ∧ sds.length = n ∧
      (∀ sd ∈ sds, sd ∈ d.listSd) ∧
      if ∀ sd ∈ sds, sd ≤ 2 * tableSize then ∃ refs,
        traceGenerateLru sample d.listSd d.cummSd n enablePadding u = .ok refs ∧
        refs.length = n ∧ (∀ ref ∈ refs, ref < tableSize) ∧
        (traceProfile refs window).1 = sds.zipIdx.map fun p =>
          if p.1 = 0 then if tableSize ≤ (sds.take p.2).count 0 then tableSize else 0
          else if p.1 ≤ tableSize then p.1 else p.1 - tableSize
      else traceGenerateLru sample d.listSd d.cummSd n enablePadding u = .error .indexError := by
  have hlen : sample.length = tableSize := by rw [hsample.length_eq, List.length_range]
  subst hlen
  obtain ⟨sds, hdraws, hsds, hdrawn, hout⟩ := generateLru_outcome 1 1 d enablePadding
    (hsample.nodup_iff.mpr List.nodup_range) hpos hu
  refine ⟨sds, hdraws, hsds, hdrawn.mem, ?_⟩
  rw [traceGenerateLru]
  generalize generateLru 1 1 sample d.listSd d.cummSd n enablePadding u = r at hout
  cases hout with
  | @generated refs s hle h =>
    simp only [Nat.mul_one] at hle
    have hrefs : s.ztrace = refs := by simp [h.ztrace]
    have hn : refs.length = n := h.length_eq.trans hsds
    rw [if_pos hle]
    refine ⟨refs, congrArg Except.ok hrefs, hn, ?_, ?_⟩
    · intro ref href
      exact List.mem_range.mp (hsample.mem_iff.mp (h.mem ref href))
    · rw [traceProfile_of_length_le refs (hn ▸ hwindow), h.distances_nil hdrawn hpos hle]
  | raised hlt =>
    obtain ⟨sd, hsd, hlt⟩ := hlt
    rw [if_neg fun hle => absurd (hle sd hsd) (by omega)]
    rfl

def thirds : Distribution where
  listSd := [0, 1, 2]
  cummSd := [1 / 3, 2 / 3, 1]
  lengths := rfl
  sorted := by decide
  zero := rfl
  nonneg := by
    intro c hc
    simp only [List.mem_cons, List.not_mem_nil, or_false] at hc
    rcases hc with rfl | rfl | rfl <;> norm_num
  last := ⟨1, rfl, le_rfl⟩

def olderLine (k : ℕ) : ℚ := if k < 2 then 0 else 1

theorem profile_generated_thirds : ∃ refs,
    drawDistances 1 thirds false olderLine 3 = .ok [0, 0, 2] ∧
    traceGenerateLru [2, 0, 1] thirds.listSd thirds.cummSd 3 false olderLine = .ok refs ∧
    (∀ ref ∈ refs, ref < 3) ∧ (traceProfile refs 3).1 = [0, 0, 2] := by
  have hdraw' : drawDistances 1 thirds false olderLine 3 = .ok [0, 0, 2] := by decide +kernel
  obtain ⟨sds, hdraw, -, -, hout⟩ := profile_generated thirds 3 (by decide) [2, 0, 1] (by decide) 3
    false olderLine (by intro k _; rw [olderLine]; split_ifs <;> norm_num) 3 le_rfl
  obtain rfl : sds = [0, 0, 2] := Except.ok.inj (hdraw.symm.trans hdraw')
  rw [if_pos (by decide)] at hout
  obtain ⟨refs, hrun, -, hlt, hprofile⟩ := hout
  exact ⟨refs, hdraw, hrun, hlt, hprofile⟩

/-- The generator of the class, for any lines without repetition: it raises if a multiplied
distance is above twice their number. Otherwise a distance that was drawn and multiplied is a
distance of the trace only if enough lines have been used before; if not, the access is the first
to its line, although it does not count as a new reference. -/
theorem class_profile_generated (numIndicesPerLookup : ℕ) (d : Distribution) (lines : List ℕ)
    (hnodup : lines.Nodup) (hpos : 0 < lines.length) (n : ℕ) (enablePadding : Bool)
    (u : ℕ → ℚ) (hu : ∀ k < n, 0 ≤ u k ∧ u k ≤ 1) (window : ℕ) (hwindow : n ≤ window) : ∃ sds,
      drawDistances numIndicesPerLookup d enablePadding u n = .ok sds ∧ sds.length = n ∧
      (∀ sd ∈ sds, sd ∈ d.listSd) ∧
      if ∀ sd ∈ sds, sd * numIndicesPerLookup ≤ 2 * lines.length then ∃ refs,
        DLRMDataGenerator.traceGenerateLru numIndicesPerLookup lines d.listSd d.cummSd n
          enablePadding u = .ok (refs.map (· * 128)) ∧
        refs.length = n ∧ (∀ ref ∈ refs, ref ∈ lines) ∧
        (traceProfile refs window).1 = sds.zipIdx.map fun p =>
          let depth := depth lines.length (p.1 * numIndicesPerLookup)
          if depth ≤ (refs.take p.2).dedup.length then depth else 0
      else DLRMDataGenerator.traceGenerateLru numIndicesPerLookup lines d.listSd d.cummSd n
        enablePadding u = .error .indexError := by
  obtain ⟨sds, hdraws, hsds, hdrawn, hout⟩ := generateLru_outcome numIndicesPerLookup 128 d
    enablePadding hnodup hpos hu
  refine ⟨sds, hdraws, hsds, hdrawn.mem, ?_⟩
  rw [DLRMDataGenerator.traceGenerateLru]
  generalize generateLru numIndicesPerLookup 128 lines d.listSd d.cummSd n enablePadding u = r
    at hout
  cases hout with
  | @generated refs s hle h =>
    have hn : refs.length = n := h.length_eq.trans hsds
    rw [if_pos hle]
    refine ⟨refs, congrArg Except.ok h.ztrace, hn, h.mem, ?_⟩
    rw [traceProfile_of_length_le refs (hn ▸ hwindow), LruStack.distances_nil lines.reverse refs,
      h.distances, List.zipIdx_map, List.map_map]
    rfl
  | raised hlt =>
    obtain ⟨sd, hsd, hlt⟩ := hlt
    rw [if_neg fun hle => absurd (hle sd hsd) (by omega)]
    rfl

/-- Two lookups per sample: the second access draws distance 1, but no second line was used. -/
theorem class_profile_generated_two : ∃ refs,
    drawDistances 2 thirds false (fun k => k) 2 = .ok [0, 1] ∧
    DLRMDataGenerator.traceGenerateLru 2 [0, 1, 2, 3] thirds.listSd thirds.cummSd 2 false
      (fun k => k) = .ok (refs.map (· * 128)) ∧
    (traceProfile refs 2).1 = [0, 0] := by
  have hdraw' : drawDistances 2 thirds false (fun k => k) 2 = .ok [0, 1] := by decide +kernel
  obtain ⟨sds, hdraw, -, -, hout⟩ := class_profile_generated 2 thirds [0, 1, 2, 3] (by decide)
    (by decide) 2 false (fun k => k) (by intro k hk; interval_cases k <;> norm_num) 2 le_rfl
  obtain rfl : sds = [0, 1] := Except.ok.inj (hdraw.symm.trans hdraw')
  rw [if_pos (by decide)] at hout
  obtain ⟨refs, hrun, hlen, -, hprofile⟩ := hout
  obtain ⟨x, y, rfl⟩ := List.length_eq_two.mp hlen
  exact ⟨[x, y], hdraw, hrun, hprofile.trans rfl⟩

end EbpfIsp.Traces
