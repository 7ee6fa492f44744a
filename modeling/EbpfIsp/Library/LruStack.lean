import EbpfIsp.Library.Lru
import Mathlib.Data.List.Dedup
import Mathlib.Data.List.Basic

/-! # Stack distances

The elements of a trace, ordered by their last access, form a stack. The
distance of an access is the depth at which it finds its element: the number of
distinct elements accessed since, the element itself included. A cache that
evicts the least recently used key holds the top of the stack, so that an access
is a hit exactly if its distance is at most the capacity.
-/

namespace EbpfIsp.Library

namespace LruStack

variable {α : Type} [DecidableEq α]

/-- Access `x`: it becomes the most recent element. -/
def touch (s : List α) (x : α) : List α := x :: s.filter (· ≠ x)

@[simp] theorem mem_touch {s : List α} {x y : α} : y ∈ touch s x ↔ y = x ∨ y ∈ s := by
  by_cases h : y = x <;> simp [touch, h]

theorem nodup_touch {s : List α} (h : s.Nodup) (x : α) : (touch s x).Nodup := by
  rw [touch, List.nodup_cons]
  exact ⟨by simp, h.filter _⟩

theorem touch_of_notMem {s : List α} {x : α} (h : x ∉ s) : touch s x = x :: s := by
  rw [touch, List.filter_eq_self.mpr]
  intro y hy
  rw [decide_eq_true_iff]
  rintro rfl
  exact h hy

/-- An element is taken from its place and put on top. -/
theorem touch_append_cons {a b : List α} {x : α} (h : (a ++ x :: b).Nodup) :
    touch (a ++ x :: b) x = x :: (a ++ b) := by
  have hx := (List.nodup_middle.mp h).notMem
  rw [List.mem_append, not_or] at hx
  have hkeep : ∀ l : List α, x ∉ l → l.filter (· ≠ x) = l := by
    intro l hl
    exact List.cons.inj (touch_of_notMem hl) |>.2
  rw [touch, List.filter_append, List.filter_cons_of_neg (by simp), hkeep a hx.1, hkeep b hx.2]

theorem nodup_foldl_touch {s : List α} (h : s.Nodup) (t : List α) : (t.foldl touch s).Nodup := by
  induction t generalizing s with
  | nil => exact h
  | cons x t ih => exact ih (nodup_touch h x)

/-- The stack after a trace: its distinct elements by last access, then those of the old stack
that the trace did not access. -/
theorem foldl_touch (s t : List α) :
    t.foldl touch s = t.dedup.reverse ++ s.filter (· ∉ t) := by
  induction t generalizing s with
  | nil => simp
  | cons x t ih =>
    have hrest : (s.filter (· ≠ x)).filter (· ∉ t) = s.filter (· ∉ x :: t) := by
      rw [List.filter_filter]
      apply List.filter_congr
      intro y _
      rw [← Bool.decide_and, decide_eq_decide, List.mem_cons, not_or]
      exact and_comm
    rw [List.foldl_cons, ih, touch]
    by_cases hx : x ∈ t
    · rw [List.filter_cons_of_neg (by simpa using hx), hrest, List.dedup_cons_of_mem hx]
    · rw [List.filter_cons_of_pos (by simpa using hx), hrest, List.dedup_cons_of_notMem hx]
      simp

@[simp] theorem mem_foldl_touch {s t : List α} {x : α} :
    x ∈ t.foldl touch s ↔ x ∈ t ∨ x ∈ s := by
  rw [foldl_touch]
  by_cases hx : x ∈ t <;> simp [hx]

theorem perm_foldl_touch {s t : List α} (hs : s.Nodup) (h : ∀ x ∈ t, x ∈ s) :
    (t.foldl touch s).Perm s := by
  rw [List.perm_ext_iff_of_nodup (nodup_foldl_touch hs t) hs]
  intro x
  rw [mem_foldl_touch]
  exact ⟨fun hx => hx.elim (h x) id, .inr⟩

/-- Depth of `x` from 1 on; 0 for an element that was not accessed before. -/
def distance (s : List α) (x : α) : ℕ := if x ∈ s then s.idxOf x + 1 else 0

theorem distance_of_notMem {s : List α} {x : α} (h : x ∉ s) : distance s x = 0 := if_neg h

theorem distance_append_cons {a b : List α} {x : α} (h : x ∉ a) :
    distance (a ++ x :: b) x = a.length + 1 := by
  rw [distance, if_pos (by simp), List.idxOf_append_of_notMem h, List.idxOf_cons_self]

/-- The distance counts the distinct elements since the last access to `x`. -/
theorem distance_foldl_touch (s : List α) {b : List α} {x : α} (h : x ∉ b) :
    distance ((x :: b).foldl touch s) x = (x :: b).dedup.length := by
  rw [foldl_touch, List.dedup_cons_of_notMem h, List.reverse_cons, List.append_assoc,
    List.singleton_append, distance_append_cons (by simpa using h)]
  simp

/-- The distance on an empty stack is that on a stack `s`, as long as it does not reach down to
elements that the trace has not accessed. -/
theorem distance_foldl_touch_nil (s t : List α) (x : α) :
    distance (t.foldl touch []) x = if distance (t.foldl touch s) x ≤ t.dedup.length then
      distance (t.foldl touch s) x else 0 := by
  rw [foldl_touch, foldl_touch, List.filter_nil, List.append_nil]
  by_cases ht : x ∈ t
  · have hmem : x ∈ t.dedup.reverse := by simpa using ht
    have hlt := List.idxOf_lt_length_iff.mpr hmem
    rw [List.length_reverse] at hlt
    rw [distance, distance, if_pos hmem, if_pos (List.mem_append_left _ hmem),
      List.idxOf_append_of_mem hmem, if_pos (Nat.succ_le_of_lt hlt)]
  · have hnot : x ∉ t.dedup.reverse := by simpa using ht
    rw [distance_of_notMem hnot]
    by_cases hs : x ∈ t.dedup.reverse ++ s.filter (· ∉ t)
    · rw [distance, if_pos hs, List.idxOf_append_of_notMem hnot, List.length_reverse,
        if_neg (by omega)]
    · rw [distance_of_notMem hs, if_pos (Nat.zero_le _)]

theorem distance_getElem {s : List α} (hs : s.Nodup) {k : ℕ} (hk : k < s.length) :
    distance s s[k] = k + 1 := by
  rw [distance, if_pos (List.getElem_mem hk), hs.idxOf_getElem]

theorem mem_take_iff {s : List α} {x : α} {c : ℕ} :
    x ∈ s.take c ↔ 0 < distance s x ∧ distance s x ≤ c := by
  by_cases hx : x ∈ s
  · rw [List.mem_take_iff_idxOf_lt hx, distance, if_pos hx]
    omega
  · rw [distance_of_notMem hx]
    exact iff_of_false (fun h => hx (List.mem_of_mem_take h)) (fun h => absurd h.1 (lt_irrefl 0))

def distances : List α → List α → List ℕ
  | _, [] => []
  | s, x :: t => distance s x :: distances (touch s x) t

theorem distances_append (s t u : List α) :
    distances s (t ++ u) = distances s t ++ distances (t.foldl touch s) u := by
  induction t generalizing s with
  | nil => rfl
  | cons x t ih => simp [distances, ih]

@[simp] theorem length_distances (s t : List α) : (distances s t).length = t.length := by
  induction t generalizing s with
  | nil => rfl
  | cons x t ih => simp [distances, ih]

theorem distances_eq_zipIdx (s t : List α) :
    distances s t = t.zipIdx.map fun p => distance ((t.take p.2).foldl touch s) p.1 := by
  induction t using List.reverseRecOn with
  | nil => rfl
  | append_singleton t x ih =>
    rw [distances_append, ih, List.zipIdx_append, List.map_append]
    congr 1
    · apply List.map_congr_left
      rintro ⟨y, k⟩ hy
      have hk := List.snd_lt_of_mem_zipIdx hy
      rw [List.take_append_of_le_length (by simpa using hk.le)]
    · simp [distances]

theorem getElem_distances (s t : List α) {k : ℕ} (hk : k < t.length) :
    (distances s t)[k]? = some (distance ((t.take k).foldl touch s) t[k]) := by
  rw [distances_eq_zipIdx, List.getElem?_map, List.getElem?_zipIdx, List.getElem?_eq_getElem hk]
  simp

/-- The distances on an empty stack, from those on a stack that holds other elements. -/
theorem distances_nil (s t : List α) : distances [] t = (distances s t).zipIdx.map fun p =>
    if p.1 ≤ (t.take p.2).dedup.length then p.1 else 0 := by
  apply List.ext_getElem?
  intro k
  rw [List.getElem?_map, List.getElem?_zipIdx]
  rcases Nat.lt_or_ge k t.length with hk | hk
  · rw [getElem_distances [] t hk, getElem_distances s t hk, distance_foldl_touch_nil s]
    simp
  · rw [List.getElem?_eq_none (by simpa using hk), List.getElem?_eq_none (by simpa using hk)]
    rfl

/-- Accesses to elements of the stack are determined by their distances. -/
theorem distances_inj {s t t' : List α} (ht : ∀ x ∈ t, x ∈ s) (ht' : ∀ x ∈ t', x ∈ s)
    (h : distances s t = distances s t') : t = t' := by
  induction t generalizing s t' with
  | nil =>
    have hlen := congrArg List.length h
    rw [length_distances, length_distances] at hlen
    exact (List.length_eq_zero_iff.mp hlen.symm).symm
  | cons x t ih =>
    cases t' with
    | nil => cases h
    | cons y t' =>
      have hx := ht x List.mem_cons_self
      have hy := ht' y List.mem_cons_self
      rw [distances, distances, List.cons.injEq] at h
      have hidx : s.idxOf x = s.idxOf y := by
        have hdist := h.1
        rw [distance, distance, if_pos hx, if_pos hy] at hdist
        omega
      obtain rfl := (List.idxOf_inj hx).mp hidx
      rw [ih (fun z hz => mem_touch.mpr (.inr (ht z (List.mem_cons_of_mem x hz))))
        (fun z hz => mem_touch.mpr (.inr (ht' z (List.mem_cons_of_mem x hz)))) h.2]

theorem dedup_length_concat (t : List α) (x : α) :
    (t ++ [x]).dedup.length = if x ∈ t then t.dedup.length else t.dedup.length + 1 := by
  have hlen : ∀ t : List α, t.dedup.length = (t.foldl touch []).length := by
    intro t
    simp [foldl_touch]
  rw [hlen, List.foldl_append, List.foldl_cons, List.foldl_nil, hlen]
  split_ifs with hx
  · obtain ⟨a, b, hab⟩ := List.append_of_mem (mem_foldl_touch.mpr (.inl hx) : x ∈ t.foldl touch [])
    have hnodup := nodup_foldl_touch List.nodup_nil t
    rw [hab] at hnodup ⊢
    rw [touch_append_cons hnodup]
    simp only [List.length_cons, List.length_append]
    omega
  · rw [touch_of_notMem (by simpa using hx), List.length_cons]

theorem distance_eq_zero_iff {s : List α} {x : α} : distance s x = 0 ↔ x ∉ s := by
  rw [distance]
  split_ifs with h <;> simp [h]

theorem distance_le_length (s : List α) (x : α) : distance s x ≤ s.length := by
  rw [distance]
  split_ifs with h
  · exact List.idxOf_lt_length_iff.mpr h
  · exact Nat.zero_le _

/-- The first accesses are those at distance 0. -/
theorem count_zero_distances (t : List α) : (distances [] t).count 0 = t.dedup.length := by
  induction t using List.reverseRecOn with
  | nil => rfl
  | append_singleton t x ih =>
    rw [distances_append, List.count_append, ih, dedup_length_concat, distances, distances,
      List.count_singleton]
    simp only [beq_iff_eq, distance_eq_zero_iff, mem_foldl_touch, List.not_mem_nil, or_false]
    split_ifs <;> rfl

/-- Number of accesses at a depth of at most `c`. -/
def hitCount (c : ℕ) (s t : List α) : ℕ := (distances s t).countP fun d => 0 < d ∧ d ≤ c

theorem hitCount_append (c : ℕ) (s t u : List α) :
    hitCount c s (t ++ u) = hitCount c s t + hitCount c (t.foldl touch s) u := by
  rw [hitCount, distances_append, List.countP_append]
  rfl

theorem hitCount_singleton (c : ℕ) (s : List α) (x : α) :
    hitCount c s [x] = if x ∈ s.take c then 1 else 0 := by
  rw [hitCount, distances, distances, List.countP_singleton]
  simp only [mem_take_iff, decide_eq_true_eq]

theorem length_touch {s : List α} (hs : s.Nodup) {x : α} (h : x ∈ s) :
    (touch s x).length = s.length := by
  obtain ⟨a, b, rfl⟩ := List.append_of_mem h
  rw [touch_append_cons hs]
  simp only [List.length_cons, List.length_append]
  omega

/-- If the whole stack fits and holds all accessed elements, every access is a hit. -/
theorem hitCount_eq_length {c : ℕ} {s t : List α} (hs : s.Nodup) (hmem : ∀ x ∈ t, x ∈ s)
    (hlen : s.length ≤ c) : hitCount c s t = t.length := by
  induction t generalizing s with
  | nil => rfl
  | cons x t ih =>
    have hx := hmem x List.mem_cons_self
    have hrest := ih (nodup_touch hs x)
      (fun y hy => mem_touch.mpr (.inr (hmem y (List.mem_cons_of_mem x hy))))
      (by rwa [length_touch hs hx])
    have hsplit := hitCount_append c s [x] t
    rw [List.singleton_append, hitCount_singleton, List.take_of_length_le hlen, if_pos hx] at hsplit
    rw [hsplit, List.foldl_cons, List.foldl_nil, hrest, List.length_cons, Nat.add_comm]

theorem take_touch_of_mem {s : List α} (hs : s.Nodup) {x : α} {c : ℕ} (h : x ∈ s.take c) :
    (touch s x).take c = touch (s.take c) x := by
  obtain ⟨a, b, hab⟩ := List.append_of_mem h
  have hsplit : s = a ++ x :: (b ++ s.drop c) := by
    conv_lhs => rw [← List.take_append_drop c s, hab]
    simp
  have hlen : a.length + (b.length + 1) ≤ c := by
    have hle := List.length_take_le c s
    rwa [hab, List.length_append, List.length_cons] at hle
  have htake : (a ++ x :: b).Nodup := hab ▸ hs.sublist (List.take_sublist c s)
  rw [hab, touch_append_cons htake]
  rw [hsplit] at hs hab ⊢
  rw [touch_append_cons hs]
  obtain ⟨c, rfl⟩ : ∃ c', c = c' + 1 := ⟨c - 1, by omega⟩
  rw [List.take_append, List.take_of_length_le (by omega : a.length ≤ c + 1),
    List.append_cancel_left_eq, show c + 1 - a.length = (c - a.length) + 1 by omega,
    List.take_succ_cons, List.cons.injEq] at hab
  rw [List.take_succ_cons, List.take_append, List.take_of_length_le (by omega : a.length ≤ c),
    hab.2]

theorem take_touch_of_notMem {s : List α} {x : α} {c : ℕ} (h : x ∉ s.take c) (hc : 0 < c) :
    (touch s x).take c = (x :: s.take c).take c := by
  obtain ⟨c, rfl⟩ : ∃ c', c = c' + 1 := ⟨c - 1, by omega⟩
  have hfilter : (s.filter (· ≠ x)).take c = s.take c := by
    have hdrop := List.take_append_drop (c + 1) s
    have hkeep : (s.take (c + 1)).filter (· ≠ x) = s.take (c + 1) :=
      List.cons.inj (touch_of_notMem h) |>.2
    rw [← hdrop, List.filter_append, hkeep]
    by_cases hlen : c + 1 ≤ s.length
    · rw [List.take_append_of_le_length (by simp; omega),
        List.take_append_of_le_length (by simp; omega)]
    · rw [List.drop_eq_nil_of_le (by omega)]
      simp
  rw [touch, List.take_succ_cons, List.take_succ_cons, hfilter, List.take_take]
  simp

/-- An array with the oldest element first: moving an element to the end. -/
theorem reverse_eraseIdx_append {l : List α} (hl : l.Nodup) {i : ℕ} (hi : i < l.length) :
    (l.eraseIdx i ++ [l[i]]).reverse = touch l.reverse l[i] := by
  have hsplit : l.reverse = (l.drop (i + 1)).reverse ++ l[i] :: (l.take i).reverse := by
    conv_lhs => rw [← List.take_append_drop i l, List.drop_eq_getElem_cons hi]
    simp
  have hnodup : ((l.drop (i + 1)).reverse ++ l[i] :: (l.take i).reverse).Nodup := by
    rw [← hsplit]
    exact List.nodup_reverse.mpr hl
  rw [hsplit, touch_append_cons hnodup, List.eraseIdx_eq_take_drop_succ]
  simp

end LruStack

namespace Lru

variable {K V : Type} [DecidableEq K] {L : Lru K V}

/-- A cache that evicts the least recently used key: reading moves a key to the front. -/
structure MovesToFront (L : Lru K V) extends L.EvictsOldest where
  cap_touch : ∀ s k, cap (L.touch s k) = cap s
  keys_touch : ∀ s k, k ∈ keys s → keys (L.touch s k) = LruStack.touch (keys s) k

def access (L : Lru K V) (row : K → V) (s : L.Carrier) (k : K) : L.Carrier :=
  match L.get? s k with
  | some _ => L.touch s k
  | none => L.set s k (row k)

structure MovesToFront.Holds (hL : L.MovesToFront) (c : ℕ) (st : List K) (s : L.Carrier) :
    Prop where
  nodup : st.Nodup
  cap : hL.cap s = c
  keys : hL.keys s = st.take c

namespace MovesToFront

variable {hL : L.MovesToFront} {c : ℕ} {st : List K} {s : L.Carrier}

/-- A hit is an access at a depth of at most the capacity. -/
theorem Holds.isSome_iff (h : hL.Holds c st s) (k : K) :
    (L.get? s k).isSome ↔ k ∈ st.take c := by
  rw [hL.isSome_get?_iff, h.keys]

theorem Holds.access (h : hL.Holds c st s) (hc : 0 < c) (row : K → V) (k : K) :
    hL.Holds c (LruStack.touch st k) (L.access row s k) where
  nodup := LruStack.nodup_touch h.nodup k
  cap := by
    rw [Lru.access]
    split
    · rw [hL.cap_touch, h.cap]
    · rw [hL.cap_set, h.cap]
  keys := by
    have hsome := h.isSome_iff k
    rw [Lru.access]
    split
    next v hv =>
      have hmem : k ∈ st.take c := hsome.mp (by rw [hv]; rfl)
      rw [hL.keys_touch s k (by rwa [h.keys]), h.keys, LruStack.take_touch_of_mem h.nodup hmem]
    next hv =>
      have hnot : k ∉ st.take c := fun hmem => by
        have := hsome.mpr hmem
        rw [hv] at this
        cases this
      rw [hL.keys_set, h.cap, h.keys, LruStack.take_touch_of_notMem hnot hc]
      · rwa [h.keys]
      · rw [h.keys, h.cap]
        exact List.length_take_le _ _
      · rwa [h.cap]

end MovesToFront

namespace Recent

theorem cap_touch (s : Recent K V) (k : K) : (s.touch k).cap = s.cap := by
  rw [touch]
  split <;> rfl

theorem keys_touch (s : Recent K V) {k : K} (h : k ∈ s.entries.map Prod.fst) :
    (s.touch k).entries.map Prod.fst = LruStack.touch (s.entries.map Prod.fst) k := by
  rw [touch]
  split
  next p hp =>
    have hpk : p.1 = k := by simpa using List.find?_some hp
    rw [List.map_cons, LruStack.touch, hpk, List.filter_map]
    rfl
  next hnone =>
    obtain ⟨p, hp, rfl⟩ := List.mem_map.mp h
    exact absurd (List.find?_eq_none.mp hnone p hp) (by simp)

end Recent

def recentMovesToFront : (recent : Lru K V).MovesToFront where
  toEvictsOldest := recentEvictsOldest
  cap_touch := Recent.cap_touch
  keys_touch s _ hk := Recent.keys_touch s hk

end Lru

end EbpfIsp.Library
