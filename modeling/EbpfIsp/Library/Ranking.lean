import Mathlib.Data.List.Count
import Mathlib.Data.List.Nodup
import Mathlib.Tactic

/-! # The first and the last of a ranking

A list is ranked by a weight, the heaviest element first. Of its first `n + 1`
elements all but the very first are kept. What is kept are heaviest elements
exactly if the first and the last of the `n + 1` weigh the same, that is, if
more than `n` elements have the largest weight. The first `n` elements have the
largest sum of weights that `n` elements can have.

A stable sort by the weight yields such a list. An element is among the first
`n + 1` only if at most `n` are heavier, and it is one of them if it was the
first before the sort.
-/

namespace EbpfIsp.Library
variable {α : Type*} {f : α → ℕ} {l : List α} {n : ℕ}

/-- The heaviest elements come first. -/
def Ranked (f : α → ℕ) (l : List α) : Prop := l.Pairwise fun x y => f y ≤ f x

theorem Ranked.getElem_le (h : Ranked f l) {i j : ℕ} (hij : i ≤ j) (hj : j < l.length) :
    f l[j] ≤ f l[i] := by
  rcases Nat.lt_or_eq_of_le hij with hlt | rfl
  · exact List.pairwise_iff_getElem.mp h i j (hlt.trans hj) hj hlt
  · exact le_rfl

theorem Ranked.le_first (h : Ranked f l) (hl : 0 < l.length) {x : α} (hx : x ∈ l) :
    f x ≤ f l[0] := by
  obtain ⟨i, hi, rfl⟩ := List.getElem_of_mem hx
  exact h.getElem_le (Nat.zero_le i) hi

theorem mem_tail_take_iff {x : α} (hn : n < l.length) :
    x ∈ (l.take (n + 1)).tail ↔ ∃ i, ∃ h : i < l.length, 0 < i ∧ i ≤ n ∧ l[i] = x := by
  have htail : (l.take (n + 1)).tail = (l.drop 1).take n := by
    rw [← List.drop_one, List.drop_take, Nat.add_sub_cancel]
  rw [htail, List.mem_take_iff_getElem]
  constructor
  · rintro ⟨i, hi, rfl⟩
    rw [List.length_drop] at hi
    exact ⟨1 + i, by omega, by omega, by omega, List.getElem_drop.symm⟩
  · rintro ⟨i, hi, hpos, hin, rfl⟩
    refine ⟨i - 1, ?_, ?_⟩
    · rw [List.length_drop]
      omega
    · rw [List.getElem_drop]
      congr 1
      omega

/-- No dropped element is heavier than a kept one exactly if the first of the `n + 1`
elements is not heavier than the last. -/
theorem Ranked.tail_take_heaviest_iff (h : Ranked f l) (hnodup : l.Nodup) (hn : n < l.length) :
    (∀ x ∈ l, x ∉ (l.take (n + 1)).tail → ∀ y ∈ (l.take (n + 1)).tail, f x ≤ f y) ↔
      f l[0] ≤ f l[n] := by
  simp only [mem_tail_take_iff hn]
  constructor
  · intro hkeep
    rcases Nat.eq_zero_or_pos n with rfl | hpos
    · exact le_rfl
    · apply hkeep l[0] (List.getElem_mem _)
      · rintro ⟨i, hi, hipos, -, heq⟩
        have hzero := hnodup.getElem_inj_iff.mp heq
        omega
      · exact ⟨n, hn, hpos, le_rfl, rfl⟩
  · rintro hle x hx - y ⟨i, hi, -, hin, rfl⟩
    calc f x ≤ f l[0] := h.le_first (by omega) hx
      _ ≤ f l[n] := hle
      _ ≤ f l[i] := h.getElem_le hin hn

theorem Ranked.lt_countP (h : Ranked f l) (hn : n < l.length) (hle : f l[0] ≤ f l[n]) :
    n < l.countP fun x => f x = f l[0] := by
  have hall : ∀ x ∈ l.take (n + 1), decide (f x = f l[0]) = true := by
    intro x hx
    obtain ⟨i, hi, rfl⟩ := List.mem_take_iff_getElem.mp hx
    have hfirst := h.getElem_le (Nat.zero_le i) (by omega)
    have hlast := h.getElem_le (i := i) (j := n) (by omega) hn
    rw [decide_eq_true_iff]
    omega
  calc n < (l.take (n + 1)).length := by rw [List.length_take]; omega
    _ = (l.take (n + 1)).countP fun x => f x = f l[0] := (List.countP_eq_length.mpr hall).symm
    _ ≤ l.countP fun x => f x = f l[0] := (List.take_sublist _ _).countP_le

/-- The elements that are heavier than the one at position `n` stand before it. -/
theorem Ranked.countP_lt_le (h : Ranked f l) (hn : n < l.length) :
    l.countP (fun x => f l[n] < f x) ≤ n := by
  have hdrop : (l.drop n).countP (fun x => f l[n] < f x) = 0 := by
    rw [List.countP_eq_zero]
    intro x hx
    obtain ⟨i, hi, rfl⟩ := List.getElem_of_mem hx
    rw [List.length_drop] at hi
    have hle := h.getElem_le (i := n) (j := n + i) (by omega) (by omega)
    rw [List.getElem_drop, decide_eq_true_iff]
    omega
  calc l.countP (fun x => f l[n] < f x)
      = (l.take n).countP (fun x => f l[n] < f x) +
          (l.drop n).countP (fun x => f l[n] < f x) := by
        rw [← List.countP_append, List.take_append_drop]
    _ = (l.take n).countP fun x => f l[n] < f x := by rw [hdrop, Nat.add_zero]
    _ ≤ (l.take n).length := List.countP_le_length
    _ ≤ n := List.length_take_le n l

theorem Ranked.countP_le (h : Ranked f l) (hn : n < l.length) {M : ℕ} (hM : f l[n] < M) :
    l.countP (fun x => f x = M) ≤ n := by
  refine (List.countP_mono_left fun x _ hx => ?_).trans (h.countP_lt_le hn)
  rw [decide_eq_true_iff] at hx ⊢
  rwa [hx]

theorem Ranked.countP_lt_le_of_mem_take (h : Ranked f l) {x : α} (hx : x ∈ l.take (n + 1)) :
    l.countP (fun y => f x < f y) ≤ n := by
  obtain ⟨i, hi, rfl⟩ := List.mem_take_iff_getElem.mp hx
  exact (h.countP_lt_le (by omega)).trans (by omega)

/-- The first `n + 1` elements weigh the same exactly if more than `n` elements have the
largest weight. -/
theorem Ranked.first_le_iff (h : Ranked f l) (hn : n < l.length) :
    f l[0] ≤ f l[n] ↔ ∃ M, (∀ x ∈ l, f x ≤ M) ∧ n < l.countP fun x => f x = M := by
  constructor
  · intro hle
    exact ⟨f l[0], fun x hx => h.le_first (by omega) hx, h.lt_countP hn hle⟩
  · rintro ⟨M, hM, hcount⟩
    by_contra hlt
    have hfirst := hM l[0] (List.getElem_mem _)
    have hle := h.countP_le hn (M := M) (by omega)
    omega

section Sorting
variable (f)

theorem weight_trans (x y z : α) (hxy : decide (f y ≤ f x) = true)
    (hyz : decide (f z ≤ f y) = true) : decide (f z ≤ f x) = true := by
  rw [decide_eq_true_iff] at hxy hyz ⊢
  exact hyz.trans hxy

theorem weight_total (x y : α) : (decide (f y ≤ f x) || decide (f x ≤ f y)) = true := by
  rw [Bool.or_eq_true, decide_eq_true_iff, decide_eq_true_iff]
  exact Nat.le_total _ _

theorem ranked_mergeSort (l : List α) : Ranked f (l.mergeSort fun x y => f y ≤ f x) := by
  have h := List.pairwise_mergeSort (weight_trans f) (weight_total f) l
  simpa only [Ranked, decide_eq_true_iff] using h

/-- The sort is stable: only heavier elements overtake the first one. -/
theorem mem_take_mergeSort_cons {x : α} {l : List α}
    (h : (x :: l).countP (fun y => f x < f y) ≤ n) :
    x ∈ ((x :: l).mergeSort fun x y => f y ≤ f x).take (n + 1) := by
  obtain ⟨before, after, hsort, -, hheavy⟩ :=
    List.mergeSort_cons (weight_trans f) (weight_total f) x l
  have hall : ∀ y ∈ before, decide (f x < f y) = true := by
    intro y hy
    simpa using hheavy y hy
  have hlen : before.length ≤ n :=
    calc before.length = before.countP fun y => f x < f y :=
          (List.countP_eq_length.mpr hall).symm
      _ ≤ ((x :: l).mergeSort fun x y => f y ≤ f x).countP fun y => f x < f y := by
          rw [hsort]
          exact (List.sublist_append_left _ _).countP_le
      _ = (x :: l).countP fun y => f x < f y := (List.mergeSort_perm _ _).countP_eq _
      _ ≤ n := h
  rw [hsort, List.take_append, Nat.succ_sub hlen, List.take_succ_cons]
  exact List.mem_append_right _ List.mem_cons_self

end Sorting

end EbpfIsp.Library
