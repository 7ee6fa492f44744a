import EbpfIsp.Recsys.Slsload

/-! # Which sample a lookup is pooled into

The `base` branch takes the `g` lookups of a sample from consecutive positions.
The `ndp` branch numbers the positions by the inner of two nested generators,
so position `p` goes to result `p % b`. The split by cache membership and the
sort by index only reorder the pairs.
-/

namespace EbpfIsp.Recsys
open Library

variable {m : ℕ} {L : Cache ℕ (IntRow m)}

/-- The embedding indices that a partition attributes to result `r`, for the device or from
the cache. -/
def Partition.attributed (p : Partition L) (r : ℕ) : Multiset ℕ :=
  (((p.filteredPairInd ++ p.cachedEmbPair.map Prod.fst).filter (·.1 = r)).map Prod.snd : List ℕ)

def baseIndices (indices : List ℕ) (g r : ℕ) : Multiset ℕ :=
  ((List.range g).map fun k => indices.getD (r * g + k) 0 : List ℕ)

/-- The `ndp` branch handles the table in one chunk and attributes to every result the
indices that the `base` branch sums into that sample. -/
def PoolsAsBase (i b g : ℕ) (indices : List ℕ) (s : SlsState L) : Prop :=
  ∃ chunk, ndpSplit indices b g = pure ([chunk], b) ∧
    ∀ r < b, (partitionPairs i (pairInd b g chunk) s).attributed r = baseIndices indices g r

theorem ndpSplit_of_le {b : ℕ} (hb : b ≤ 128) (indices : List ℕ) (g : ℕ) :
    ndpSplit indices b g = pure ([indices.take (b * g)], b) := by
  rw [ndpSplit, if_neg (by omega)]

/-- Cache membership splits the pairs without loss. -/
theorem partitionPairs_perm (i : ℕ) (pairs : List (ℕ × ℕ)) (s : SlsState L) :
    ((partitionPairs i pairs s).filteredPairInd ++
      (partitionPairs i pairs s).cachedEmbPair.map Prod.fst).Perm pairs := by
  induction pairs using List.reverseRecOn with
  | nil => exact .refl _
  | append_singleton pairs pair ih =>
    rw [partitionPairs_concat, Partition.step]
    cases L.get? ((partitionPairs i pairs s).st.lru i) pair.2 with
    | some row =>
      simp only [List.map_append, List.map_cons, List.map_nil, ← List.append_assoc]
      exact ih.append_right _
    | none =>
      simp only [List.append_assoc]
      exact (List.perm_append_comm.append_left _).trans
        ((List.append_assoc _ _ _).symm ▸ ih.append_right _)

theorem generator_eq (b g : ℕ) :
    ((List.range g).flatMap fun _ => List.range b) = (List.range (g * b)).map (· % b) := by
  induction g with
  | zero => simp
  | succ g ih =>
    have hmod : ∀ x ∈ List.range b, ((· % b) ∘ (g * b + ·)) x = x := by
      intro x hx
      rw [Function.comp_apply, Nat.mul_comm, Nat.mul_add_mod,
        Nat.mod_eq_of_lt (List.mem_range.mp hx)]
    rw [List.range_succ, List.flatMap_append, ih, Nat.succ_mul, List.range_add, List.map_append,
      List.map_map, List.map_congr_left hmod, List.map_id']
    simp

/-- Position `p` of a full chunk goes to result `p % b`. -/
theorem pairInd_eq {b g : ℕ} {chunk : List ℕ} (hlen : chunk.length = b * g) :
    pairInd b g chunk = (List.range (b * g)).map fun p => (p % b, chunk.getD p 0) := by
  rw [pairInd, generator_eq, Nat.mul_comm g b]
  apply List.ext_getElem
  · simp [hlen]
  · intro p hp _
    have hp' : p < chunk.length := by
      rw [hlen]
      simpa [hlen] using hp
    rw [List.getElem_map, List.getElem_range, List.getD_eq_getElem _ _ hp']
    simp

theorem getD_take {n p : ℕ} (hp : p < n) (indices : List ℕ) :
    (indices.take n).getD p 0 = indices.getD p 0 := by
  simp [List.getD_eq_getElem?_getD, hp]

/-- The attribution does not depend on the cache. -/
theorem attributed_eq {b g : ℕ} {indices : List ℕ} (hlen : b * g ≤ indices.length) (i : ℕ)
    (s : SlsState L) (r : ℕ) :
    (partitionPairs i (pairInd b g (indices.take (b * g))) s).attributed r =
      (((List.range (b * g)).filter (· % b = r)).map fun p => indices.getD p 0 : List ℕ) := by
  have htake : (indices.take (b * g)).length = b * g := by simpa using hlen
  have hperm := partitionPairs_perm i (pairInd b g (indices.take (b * g))) s
  rw [Partition.attributed, Multiset.coe_eq_coe.mpr ((hperm.filter _).map _), pairInd_eq htake,
    List.filter_map, List.map_map]
  congr 1
  apply List.map_congr_left
  intro p hp
  have hlt : p < b * g := List.mem_range.mp (List.mem_of_mem_filter hp)
  exact getD_take hlt indices

theorem poolsAsBase_iff {b g : ℕ} (hb : b ≤ 128) {indices : List ℕ}
    (hlen : b * g ≤ indices.length) (i : ℕ) (s : SlsState L) :
    PoolsAsBase i b g indices s ↔ ∀ r < b,
      ((((List.range (b * g)).filter (· % b = r)).map fun p => indices.getD p 0 : List ℕ) :
        Multiset ℕ) = baseIndices indices g r := by
  rw [PoolsAsBase, ndpSplit_of_le hb]
  constructor
  · rintro ⟨chunk, hchunk, hpool⟩ r hr
    obtain rfl : indices.take (b * g) = chunk := by simpa [pure, Except.pure] using hchunk
    rw [← attributed_eq hlen i s r, hpool r hr]
  · intro hpool
    refine ⟨_, rfl, ?_⟩
    intro r hr
    rw [attributed_eq hlen, hpool r hr]

theorem poolsAsBase_of_one {b g : ℕ} (hb : b ≤ 128) (h : b = 1 ∨ g = 1) {indices : List ℕ}
    (hlen : b * g ≤ indices.length) (i : ℕ) (s : SlsState L) : PoolsAsBase i b g indices s := by
  rw [poolsAsBase_iff hb hlen]
  intro r hr
  rw [baseIndices]
  rcases h with rfl | rfl
  · obtain rfl : r = 0 := by omega
    simp [Nat.mod_one]
  · have hone : (List.range (b * 1)).filter (· % b = r) = [r] := by
      have hcongr : ∀ p ∈ List.range b, decide (p % b = r) = decide (p = r) := by
        intro p hp
        rw [Nat.mod_eq_of_lt (List.mem_range.mp hp)]
      rw [Nat.mul_one, List.filter_congr hcongr, List.filter_eq,
        List.count_eq_one_of_mem List.nodup_range (List.mem_range.mpr hr)]
      rfl
    rw [hone]
    simp

/-- Otherwise position 1 is pooled into sample 0 by one branch and into sample 1 by the
other, and an index list without repetition shows it. -/
theorem not_poolsAsBase {b g : ℕ} (hb : b ≤ 128) (hb2 : 2 ≤ b) (hg2 : 2 ≤ g) {indices : List ℕ}
    (hlen : b * g ≤ indices.length) (hnodup : (indices.take (b * g)).Nodup) (i : ℕ)
    (s : SlsState L) : ¬ PoolsAsBase i b g indices s := by
  rw [poolsAsBase_iff hb hlen]
  intro hpool
  have hpos : 1 < b * g := by nlinarith
  have hmem : indices.getD 1 0 ∈ baseIndices indices g 0 := by
    rw [baseIndices, Multiset.mem_coe]
    exact List.mem_map.mpr ⟨1, List.mem_range.mpr (by omega), by simp⟩
  rw [← hpool 0 (by omega), Multiset.mem_coe] at hmem
  obtain ⟨p, hp, hpe⟩ := List.mem_map.mp hmem
  obtain ⟨hplt, hp0⟩ : p < b * g ∧ p % b = 0 := by simpa using hp
  have hlt : ∀ q < b * g, q < (indices.take (b * g)).length := by
    intro q hq
    simpa using ⟨hq, by omega⟩
  rw [← getD_take hplt, ← getD_take hpos, List.getD_eq_getElem _ _ (hlt p hplt),
    List.getD_eq_getElem _ _ (hlt 1 hpos)] at hpe
  obtain rfl : p = 1 := (List.Nodup.getElem_inj_iff hnodup).mp hpe
  rw [Nat.mod_eq_of_lt (by omega)] at hp0
  omega

/-- The `ndp` branch pools as the `base` branch for all index lists and cache contents exactly
when there is one sample or one lookup per sample. On an index list without repetition this is
exact for the list by itself. -/
theorem ndp_pools_as_base_iff (L : Cache ℕ (IntRow m)) {b g : ℕ} (hb1 : 1 ≤ b) (hb : b ≤ 128)
    (hg : 1 ≤ g) (i : ℕ) :
    ((∀ (indices : List ℕ) (s : SlsState L), b * g ≤ indices.length →
        PoolsAsBase i b g indices s) ↔ b = 1 ∨ g = 1) ∧
      ∀ (indices : List ℕ) (s : SlsState L), b * g ≤ indices.length →
        (indices.take (b * g)).Nodup → (PoolsAsBase i b g indices s ↔ b = 1 ∨ g = 1) := by
  have hexact : ∀ (indices : List ℕ) (s : SlsState L), b * g ≤ indices.length →
      (indices.take (b * g)).Nodup → (PoolsAsBase i b g indices s ↔ b = 1 ∨ g = 1) := by
    intro indices s hlen hnodup
    constructor
    · intro hpool
      by_contra hne
      exact not_poolsAsBase hb (by omega) (by omega) hlen hnodup i s hpool
    · intro h
      exact poolsAsBase_of_one hb h hlen i s
  refine ⟨⟨?_, ?_⟩, hexact⟩
  · intro hpool
    have hlen : b * g ≤ (List.range (b * g)).length := by simp
    apply (hexact (List.range (b * g)) ⟨fun _ => L.new 2000, 0, 0, 0, 0, []⟩ hlen ?_).mp
      (hpool _ _ hlen)
    exact (List.nodup_range).sublist (List.take_sublist _ _)
  · intro h indices s hlen
    exact poolsAsBase_of_one hb h hlen i s

theorem ndp_pools_as_base_single : 2 ≤ [5, 7].length ∧
    PoolsAsBase 0 1 2 [5, 7] (L := (Lru.recent : Lru ℕ (IntRow 4)).toCache)
      ⟨fun _ => Lru.recent.new 2000, 0, 0, 0, 0, []⟩ :=
  ⟨by decide, ((ndp_pools_as_base_iff _ (by decide) (by decide) (by decide) 0).1.mpr (.inl rfl)) _ _
    (by decide)⟩

/-- Two samples of two lookups: the second lookup of sample 0 goes to result 1. -/
theorem ndp_mixes_samples : 2 * 2 ≤ [0, 1, 2, 3].length ∧
    ¬ PoolsAsBase 0 2 2 [0, 1, 2, 3] (L := (Lru.recent : Lru ℕ (IntRow 4)).toCache)
      ⟨fun _ => Lru.recent.new 2000, 0, 0, 0, 0, []⟩ :=
  ⟨by decide, not_poolsAsBase (by decide) (by decide) (by decide) (by decide) (by decide) _ _⟩

end EbpfIsp.Recsys
