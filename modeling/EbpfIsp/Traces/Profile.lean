import EbpfIsp.Library.LruStack
import EbpfIsp.Recsys.HotIndices

/-! # Profiling a trace

`trace_profile.py` measures the stack distance of every access of a trace. It
searches the last access to the same index among the `max_stack_distance`
accesses before, and counts the distinct indices from there on. The window is
one of positions, not of distinct indices, so a distance is only right if the
last access is near enough; otherwise the access counts as a new reference.
-/

namespace EbpfIsp.Traces
open Library Recsys

/-- The accesses before position `i` that are searched. -/
def traceTmp (trace : List ℕ) (maxStackDistance i : ℕ) : List ℕ :=
  if i < maxStackDistance then trace.take i else (trace.take i).drop (i - maxStackDistance)

def whereEq (x : ℕ) (l : List ℕ) : List ℕ := (List.range l.length).filter fun k => l[k]? = some x

def profileStep (trace : List ℕ) (maxStackDistance : ℕ) (acc : List ℕ × List ℕ) (p : ℕ × ℕ) :
    List ℕ × List ℕ :=
  let (x, i) := p
  let tmp := traceTmp trace maxStackDistance i
  match (whereEq x tmp).getLast? with
  | some lastIdx => (acc.1 ++ [((tmp.take i).drop lastIdx).dedup.length], acc.2)
  | none => (acc.1 ++ [0], acc.2 ++ [x])

/-- `trace_profile`: the distances, and the indices that were counted as new. -/
def traceProfile (trace : List ℕ) (maxStackDistance : ℕ) : List ℕ × List ℕ :=
  trace.zipIdx.foldl (profileStep trace maxStackDistance) ([], [])

section Search

theorem whereEq_concat (x y : ℕ) (l : List ℕ) :
    whereEq x (l ++ [y]) = whereEq x l ++ if y = x then [l.length] else [] := by
  have hold : (List.range l.length).filter (fun k => decide ((l ++ [y])[k]? = some x)) =
      whereEq x l := by
    apply List.filter_congr
    intro k hk
    rw [List.getElem?_append_left (List.mem_range.mp hk)]
  rw [whereEq, List.length_append, List.length_singleton, List.range_succ, List.filter_append, hold]
  by_cases h : y = x <;> simp [h]

theorem whereEq_of_notMem {x : ℕ} {l : List ℕ} (h : x ∉ l) : whereEq x l = [] := by
  induction l using List.reverseRecOn with
  | nil => rfl
  | append_singleton l y ih =>
    rw [List.mem_append, List.mem_singleton, not_or] at h
    rw [whereEq_concat, ih h.1, if_neg (Ne.symm h.2)]
    rfl

theorem getLast?_whereEq (a : List ℕ) {b : List ℕ} {x : ℕ} (h : x ∉ b) :
    (whereEq x (a ++ x :: b)).getLast? = some a.length := by
  induction b using List.reverseRecOn with
  | nil => simp [whereEq_concat]
  | append_singleton b y ih =>
    rw [List.mem_append, List.mem_singleton, not_or] at h
    rw [← List.cons_append, ← List.append_assoc, whereEq_concat, if_neg (Ne.symm h.2),
      List.append_nil, ih h.1]

theorem exists_last_access {x : ℕ} {l : List ℕ} (h : x ∈ l) : ∃ a b, l = a ++ x :: b ∧ x ∉ b := by
  obtain ⟨b, a, hab, hb⟩ := List.eq_append_cons_of_mem (List.mem_reverse.mpr h)
  refine ⟨a.reverse, b.reverse, ?_, by simpa using hb⟩
  rw [← List.reverse_reverse l, hab]
  simp

end Search

section Step
variable (accesses : List ℕ) (maxStackDistance : ℕ)

theorem traceTmp_suffix (i : ℕ) : traceTmp accesses maxStackDistance i <:+ accesses.take i := by
  rw [traceTmp]
  split
  · exact List.suffix_refl _
  · exact List.drop_suffix _ _

theorem length_traceTmp_le (i : ℕ) :
    (traceTmp accesses maxStackDistance i).length ≤ maxStackDistance := by
  rw [traceTmp]
  split_ifs with h
  · exact (List.length_take_le i accesses).trans h.le
  · rw [List.length_drop, List.length_take]
    omega

variable {accesses} in
theorem mem_take {x i : ℕ} : x ∈ accesses.take i ↔ ∃ k < i, accesses[k]? = some x := by
  simp only [List.mem_iff_getElem?, List.getElem?_take, Option.ite_none_right_eq_some]

theorem mem_traceTmp {x i : ℕ} : x ∈ traceTmp accesses maxStackDistance i ↔
    ∃ k < i, i ≤ k + maxStackDistance ∧ accesses[k]? = some x := by
  have hdrop : traceTmp accesses maxStackDistance i =
      (accesses.take i).drop (i - maxStackDistance) := by
    rw [traceTmp]
    split_ifs with h
    · rw [Nat.sub_eq_zero_of_le h.le, List.drop_zero]
    · rfl
  rw [hdrop, List.mem_iff_getElem?]
  simp only [List.getElem?_drop, List.getElem?_take]
  constructor
  · rintro ⟨j, hj⟩
    split_ifs at hj with hlt
    exact ⟨i - maxStackDistance + j, hlt, by omega, hj⟩
  · rintro ⟨k, hk, hwindow, hget⟩
    refine ⟨k - (i - maxStackDistance), ?_⟩
    rw [Nat.add_sub_cancel' (by omega), if_pos hk, hget]

theorem notMem_traceTmp {x i : ℕ} : x ∉ traceTmp accesses maxStackDistance i ↔
    ∀ k < i, accesses[k]? = some x → k + maxStackDistance < i := by
  rw [mem_traceTmp]
  push Not
  exact forall₂_congr fun k _ => ⟨fun h hget => not_le.mp fun hle => h hle hget,
    fun h hle hget => absurd (h hget) (not_lt.mpr hle)⟩

/-- The distance that is recorded for the access to `x` at position `i`: the stack distance, or
0 if the last access is not in the window. -/
def recorded (x i : ℕ) : ℕ :=
  if x ∈ traceTmp accesses maxStackDistance i then
    LruStack.distance ((accesses.take i).foldl LruStack.touch []) x
  else 0

theorem profileStep_eq (acc : List ℕ × List ℕ) (x i : ℕ) :
    profileStep accesses maxStackDistance acc (x, i) =
      (acc.1 ++ [recorded accesses maxStackDistance x i],
        acc.2 ++ if x ∈ traceTmp accesses maxStackDistance i then [] else [x]) := by
  obtain ⟨pre, hpre⟩ := traceTmp_suffix accesses maxStackDistance i
  by_cases hx : x ∈ traceTmp accesses maxStackDistance i
  · obtain ⟨a, b, hab, hb⟩ := exists_last_access hx
    have hlen : (a ++ x :: b).length ≤ i := by
      have hle := (traceTmp_suffix accesses maxStackDistance i).length_le
      rw [hab] at hle
      exact hle.trans (List.length_take_le i accesses)
    have hdist : LruStack.distance ((accesses.take i).foldl LruStack.touch []) x =
        (x :: b).dedup.length := by
      rw [← hpre, hab, ← List.append_assoc, List.foldl_append, LruStack.distance_foldl_touch _ hb]
    rw [recorded, if_pos hx, if_pos hx, hdist]
    simp only [profileStep, hab, getLast?_whereEq a hb, List.take_of_length_le hlen,
      List.drop_left, List.append_nil]
  · rw [recorded, if_neg hx, if_neg hx]
    simp only [profileStep, whereEq_of_notMem hx, List.getLast?_nil]

/-- Every access is recorded once; the accesses without a predecessor in the window are the
new references. -/
theorem traceProfile_eq : traceProfile accesses maxStackDistance =
    (accesses.zipIdx.map fun p => recorded accesses maxStackDistance p.1 p.2,
      (accesses.zipIdx.filter fun p =>
        p.1 ∉ traceTmp accesses maxStackDistance p.2).map Prod.fst) := by
  rw [traceProfile]
  generalize accesses.zipIdx = ps
  induction ps using List.reverseRecOn with
  | nil => rfl
  | append_singleton ps p ih =>
    rw [List.foldl_append, ih, List.foldl_cons, List.foldl_nil, profileStep_eq]
    by_cases hp : p.1 ∈ traceTmp accesses maxStackDistance p.2 <;> simp [hp]

end Step

section Exact
variable (accesses : List ℕ)

theorem traceProfile_of_length_le {maxStackDistance : ℕ} (h : accesses.length ≤ maxStackDistance) :
    (traceProfile accesses maxStackDistance).1 = LruStack.distances [] accesses := by
  rw [traceProfile_eq, LruStack.distances_eq_zipIdx]
  apply List.map_congr_left
  rintro ⟨x, i⟩ hp
  have hlt : i < accesses.length := by simpa using List.snd_lt_of_mem_zipIdx hp
  have hi : i < maxStackDistance := hlt.trans_le h
  rw [recorded, traceTmp, if_pos hi]
  split_ifs with hx
  · rfl
  · rw [LruStack.distance_of_notMem]
    rw [LruStack.mem_foldl_touch]
    rintro (hmem | hnil)
    · exact hx hmem
    · cases hnil

variable (maxStackDistance : ℕ)

theorem traceProfile_exact :
    (traceProfile accesses maxStackDistance).1 = LruStack.distances [] accesses ↔
    ∀ p ∈ accesses.zipIdx, p.1 ∈ accesses.take p.2 →
      p.1 ∈ traceTmp accesses maxStackDistance p.2 := by
  rw [traceProfile_eq, LruStack.distances_eq_zipIdx]
  simp only [List.map_inj_left]
  apply forall₂_congr
  rintro ⟨x, i⟩ -
  rw [recorded]
  dsimp only
  split_ifs with hx
  · exact iff_of_true rfl fun _ => hx
  · constructor
    · intro hzero hmem
      have hpos := LruStack.mem_take_iff (s := (accesses.take i).foldl LruStack.touch []) (x := x)
        (c := ((accesses.take i).foldl LruStack.touch []).length)
      rw [List.take_length, LruStack.mem_foldl_touch, ← hzero] at hpos
      exact absurd (hpos.mp (.inl hmem)).1 (lt_irrefl 0)
    · intro himp
      rw [LruStack.distance_of_notMem]
      rw [LruStack.mem_foldl_touch]
      rintro (hmem | hnil)
      · exact hx (himp hmem)
      · cases hnil

/-- The profile is exact if and only if every index that is used again is used again within
`max_stack_distance` accesses. A use without one in the window before is recorded as distance 0,
and these uses are the new references. -/
theorem traceProfile_exact_iff :
    ((traceProfile accesses maxStackDistance).1 = LruStack.distances [] accesses ↔
      ∀ i x, accesses[i]? = some x → (∃ k < i, accesses[k]? = some x) →
        ∃ k < i, i ≤ k + maxStackDistance ∧ accesses[k]? = some x) ∧
    (∀ i x, accesses[i]? = some x → (∀ k < i, accesses[k]? = some x → k + maxStackDistance < i) →
      (traceProfile accesses maxStackDistance).1[i]? = some 0) ∧
    (traceProfile accesses maxStackDistance).2 = (accesses.zipIdx.filter fun p =>
      ∀ k < p.2, accesses[k]? = some p.1 → k + maxStackDistance < p.2).map Prod.fst := by
  refine ⟨?_, ?_, ?_⟩
  · rw [traceProfile_exact]
    simp only [Prod.forall, List.mem_zipIdx_iff_getElem?, mem_traceTmp]
    rw [forall_comm]
    refine forall₃_congr fun i x _ => ?_
    rw [mem_take]
  · intro i x hget hfar
    rw [traceProfile_eq]
    have hx := (notMem_traceTmp accesses maxStackDistance).mpr hfar
    simp [List.getElem?_map, List.getElem?_zipIdx, hget, recorded, hx]
  · rw [traceProfile_eq]
    refine congrArg (List.map Prod.fst) (List.filter_congr fun p _ => ?_)
    rw [decide_eq_decide]
    exact notMem_traceTmp accesses maxStackDistance

end Exact

end EbpfIsp.Traces
