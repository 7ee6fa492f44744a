import EbpfIsp.Library.Ranking
import EbpfIsp.Recsys.StaticPartitioning

/-! # Which indices the static partitioning caches

The fill stores the indices of a table in the order of their counts, the
largest first, and ends after item number 2000. That is one item more than
the cache holds. If there are more than 2000 distinct indices, the last store
evicts the oldest key, which is the most frequent index.
-/

namespace EbpfIsp.Recsys
open Library

section Counts

def countIn (l : List (ℕ × ℕ)) (e : ℕ) : ℕ := ((l.find? (·.1 = e)).map Prod.snd).getD 0

theorem countIn_bump (index : ℕ) (l : List (ℕ × ℕ)) (e : ℕ) :
    countIn (bump index l) e = countIn l e + if e = index then 1 else 0 := by
  induction l with
  | nil =>
    by_cases he : e = index
    · simp [countIn, bump, he]
    · simp [countIn, bump, he, Ne.symm he]
  | cons p rest ih =>
    obtain ⟨key, value⟩ := p
    rw [bump]
    by_cases hkey : key = index
    · subst hkey
      by_cases he : e = key
      · simp [countIn, he]
      · simp [countIn, he, Ne.symm he]
    · rw [if_neg hkey]
      by_cases he : key = e
      · subst he
        simp [countIn, hkey]
      · simpa [countIn, he] using ih

theorem keys_bump (index : ℕ) (l : List (ℕ × ℕ)) : (bump index l).map Prod.fst =
    if index ∈ l.map Prod.fst then l.map Prod.fst else l.map Prod.fst ++ [index] := by
  induction l with
  | nil => simp [bump]
  | cons p rest ih =>
    obtain ⟨key, value⟩ := p
    rw [bump]
    by_cases hkey : key = index
    · simp [hkey]
    · rw [if_neg hkey, List.map_cons, ih]
      by_cases hmem : index ∈ rest.map Prod.fst
      · simp [hmem]
      · simp [hmem, Ne.symm hkey]

theorem countIn_profile (lookups : List ℕ) (e : ℕ) :
    countIn (profile lookups) e = lookups.count e := by
  induction lookups using List.reverseRecOn with
  | nil => rfl
  | append_singleton lookups index ih =>
    rw [profile_concat, countIn_bump, ih, List.count_append]
    by_cases he : e = index
    · simp [he]
    · simp [he, Ne.symm he]

theorem keys_profile_nodup (lookups : List ℕ) : ((profile lookups).map Prod.fst).Nodup := by
  induction lookups using List.reverseRecOn with
  | nil => exact List.nodup_nil
  | append_singleton lookups index ih =>
    rw [profile_concat, keys_bump]
    split_ifs with hmem
    · exact ih
    · rw [← List.concat_eq_append]
      exact ih.concat hmem

theorem mem_keys_profile {lookups : List ℕ} {e : ℕ} :
    e ∈ (profile lookups).map Prod.fst ↔ e ∈ lookups := by
  induction lookups using List.reverseRecOn with
  | nil => simp [profile]
  | append_singleton lookups index ih =>
    rw [profile_concat, keys_bump, List.mem_append, List.mem_singleton, ← ih]
    split_ifs with hmem
    · constructor
      · exact .inl
      · rintro (h | rfl)
        · exact h
        · exact hmem
    · rw [List.mem_append, List.mem_singleton]

/-- The keys of the profile are the distinct indices. -/
theorem keys_profile_perm (lookups : List ℕ) :
    ((profile lookups).map Prod.fst).Perm lookups.dedup := by
  rw [List.perm_ext_iff_of_nodup (keys_profile_nodup lookups) lookups.nodup_dedup]
  intro e
  rw [mem_keys_profile, List.mem_dedup]

theorem snd_eq_countIn {l : List (ℕ × ℕ)} (hnodup : (l.map Prod.fst).Nodup) {p : ℕ × ℕ}
    (hp : p ∈ l) : p.2 = countIn l p.1 := by
  induction l with
  | nil => cases hp
  | cons q rest ih =>
    rw [List.map_cons, List.nodup_cons] at hnodup
    rcases List.mem_cons.mp hp with rfl | hp
    · simp [countIn]
    · have hne : q.1 ≠ p.1 := fun he => hnodup.1 (he ▸ List.mem_map_of_mem hp)
      simpa [countIn, hne] using ih hnodup.2 hp

theorem snd_profile {lookups : List ℕ} {p : ℕ × ℕ} (hp : p ∈ profile lookups) :
    p.2 = lookups.count p.1 := by
  rw [snd_eq_countIn (keys_profile_nodup lookups) hp, countIn_profile]

end Counts

section Ranking
variable (order : DictOrder) (lookups : List ℕ)

def rankedKeys : List ℕ := (sortedProfile order lookups).map Prod.fst

theorem rankedKeys_perm : (rankedKeys order lookups).Perm lookups.dedup :=
  ((sortedProfile_perm order lookups).map Prod.fst).trans (keys_profile_perm lookups)

theorem rankedKeys_nodup : (rankedKeys order lookups).Nodup :=
  (rankedKeys_perm order lookups).nodup_iff.mpr lookups.nodup_dedup

theorem mem_rankedKeys {e : ℕ} : e ∈ rankedKeys order lookups ↔ e ∈ lookups := by
  rw [(rankedKeys_perm order lookups).mem_iff, List.mem_dedup]

theorem rankedKeys_ranked : Ranked lookups.count (rankedKeys order lookups) := by
  have hsorted : Ranked Prod.snd (sortedProfile order lookups) := ranked_mergeSort _ _
  rw [Ranked, rankedKeys, List.pairwise_map]
  refine hsorted.imp_of_mem fun hx hy hle => ?_
  rw [← snd_profile ((sortedProfile_perm order lookups).mem_iff.mp hx),
    ← snd_profile ((sortedProfile_perm order lookups).mem_iff.mp hy)]
  exact hle

/-- The keys that are present after the fill: of the first 2001 the last 2000. -/
def keptKeys : List ℕ := ((rankedKeys order lookups).take 2001).reverse.take 2000

theorem keptKeys_nodup : (keptKeys order lookups).Nodup := by
  have htake := (rankedKeys_nodup order lookups).sublist (List.take_sublist 2001 _)
  exact (List.nodup_reverse.mpr htake).sublist (List.take_sublist 2000 _)

theorem length_keptKeys : (keptKeys order lookups).length = min 2000 lookups.dedup.length := by
  rw [keptKeys, List.length_take, List.length_reverse, List.length_take,
    (rankedKeys_perm order lookups).length_eq]
  omega

variable {lookups}

theorem mem_keptKeys_of_le (h : lookups.dedup.length ≤ 2000) {e : ℕ} :
    e ∈ keptKeys order lookups ↔ e ∈ lookups := by
  have hlen : (rankedKeys order lookups).length ≤ 2000 := by
    rwa [(rankedKeys_perm order lookups).length_eq]
  have hall : keptKeys order lookups = (rankedKeys order lookups).reverse := by
    rw [keptKeys, List.take_of_length_le (hlen.trans (Nat.le_succ _)),
      List.take_of_length_le (by rwa [List.length_reverse])]
  rw [hall, List.mem_reverse, mem_rankedKeys]

/-- Of more than 2000 distinct indices the first one is lost. -/
theorem mem_keptKeys_of_lt (h : 2000 < lookups.dedup.length) {e : ℕ} :
    e ∈ keptKeys order lookups ↔ e ∈ ((rankedKeys order lookups).take (2000 + 1)).tail := by
  have hlen : ((rankedKeys order lookups).take 2001).length = 2001 := by
    rw [List.length_take, (rankedKeys_perm order lookups).length_eq]
    omega
  rw [keptKeys, List.take_reverse, hlen, List.mem_reverse, ← List.drop_one]

theorem count_eq_zero_of_not_mem {e : ℕ} (h : e ∉ rankedKeys order lookups) :
    lookups.count e = 0 :=
  List.count_eq_zero.mpr fun hmem => h ((mem_rankedKeys order lookups).mpr hmem)

/-- Indices that were never looked up need no attention. -/
theorem forall_count_le_iff {p : ℕ → Prop} {c : ℕ} :
    (∀ e ∈ rankedKeys order lookups, p e → lookups.count e ≤ c) ↔
      ∀ e, p e → lookups.count e ≤ c := by
  constructor
  · intro h e he
    by_cases hmem : e ∈ rankedKeys order lookups
    · exact h e hmem he
    · rw [count_eq_zero_of_not_mem order hmem]
      exact Nat.zero_le c
  · exact fun h e _ => h e

theorem keptKeys_hottest_of_le (h : lookups.dedup.length ≤ 2000) {e e' : ℕ}
    (he : e ∉ keptKeys order lookups) : lookups.count e ≤ lookups.count e' := by
  rw [mem_keptKeys_of_le order h] at he
  rw [List.count_eq_zero.mpr he]
  exact Nat.zero_le _

/-- With more than 2000 distinct indices the first one is lost, and the ranking decides. -/
theorem keptKeys_hottest_iff_of_lt (h : 2000 < lookups.dedup.length) :
    (∀ e' ∈ keptKeys order lookups, ∀ e, e ∉ keptKeys order lookups →
      lookups.count e ≤ lookups.count e') ↔
    ∃ M, (∀ e, lookups.count e ≤ M) ∧
      2000 < lookups.dedup.countP fun e => lookups.count e = M := by
  have hlen : 2000 < (rankedKeys order lookups).length := by
    rwa [(rankedKeys_perm order lookups).length_eq]
  have hranked := rankedKeys_ranked order lookups
  have hfirst := (hranked.tail_take_heaviest_iff (rankedKeys_nodup order lookups) hlen).trans
    (hranked.first_le_iff hlen)
  have hcount : ∀ M, (rankedKeys order lookups).countP (fun e => lookups.count e = M) =
      lookups.dedup.countP fun e => lookups.count e = M :=
    fun M => (rankedKeys_perm order lookups).countP_eq _
  simp only [hcount] at hfirst
  simp only [mem_keptKeys_of_lt order h]
  constructor
  · intro hhot
    obtain ⟨M, hM, hmost⟩ := hfirst.mp fun e _ he e' he' => hhot e' he' e he
    refine ⟨M, fun e => ?_, hmost⟩
    exact (forall_count_le_iff order (p := fun _ => True)).mp (fun e he _ => hM e he) e trivial
  · rintro ⟨M, hM, hmost⟩ e' he'
    apply (forall_count_le_iff order).mp
    intro e hmem he
    exact hfirst.mpr ⟨M, fun e _ => hM e, hmost⟩ e hmem he e' he'

/-- What is kept are most frequent indices exactly if nothing is lost or the counts of the
first 2001 indices are equal. -/
theorem keptKeys_hottest_iff :
    (∀ e e', e ∉ keptKeys order lookups → e' ∈ keptKeys order lookups →
      lookups.count e ≤ lookups.count e') ↔
    lookups.dedup.length ≤ 2000 ∨ ∃ M, (∀ e, lookups.count e ≤ M) ∧
      2000 < lookups.dedup.countP fun e => lookups.count e = M := by
  rcases Nat.lt_or_ge 2000 lookups.dedup.length with hmany | hfew
  · rw [or_iff_right (Nat.not_le.mpr hmany), ← keptKeys_hottest_iff_of_lt order hmany]
    exact ⟨fun h e' he' e he => h e e' he he', fun h e e' he he' => h e' he' e he⟩
  · exact iff_of_true (fun e e' he _ => keptKeys_hottest_of_le order hfew he) (.inl hfew)

end Ranking

section Returns
variable {m : ℕ} {L : Lru ℕ (IntRow m)} {W : Table m}

/-- The fill of a table looks at no item behind number 2000. -/
theorem fillLru_returns {items : List (ℕ × ℕ)} {k : ℕ} (hk : k ≤ 2000)
    (h : ∀ p ∈ items.take (2001 - k), p.1 < W.n) (acc : L.Carrier × ℕ) :
    ∃ out, fillLru L W k items acc = .ok out := by
  induction items generalizing k acc with
  | nil => exact ⟨acc, rfl⟩
  | cons p rest ih =>
    rw [show 2001 - k = 2001 - (k + 1) + 1 by omega, List.take_succ_cons] at h
    rw [fillLru, if_pos (h p List.mem_cons_self)]
    split
    next => exact ⟨_, rfl⟩
    next => exact ih (by omega) (fun q hq => h q (List.mem_cons_of_mem p hq)) _

theorem fillLru_raises {items : List (ℕ × ℕ)} {k : ℕ} (hk : k ≤ 2000)
    (h : ¬ ∀ p ∈ items.take (2001 - k), p.1 < W.n) (acc : L.Carrier × ℕ) :
    fillLru L W k items acc = .error .indexError := by
  induction items generalizing k acc with
  | nil => simp at h
  | cons p rest ih =>
    rw [show 2001 - k = 2001 - (k + 1) + 1 by omega, List.take_succ_cons, List.forall_mem_cons] at h
    rw [fillLru]
    split
    next hp =>
      split
      next hlast =>
        subst hlast
        simp [hp] at h
      next => exact ih (by omega) (fun hrest => h ⟨hp, hrest⟩) _
    next => rfl

variable (L) (order : DictOrder) {count : ℕ} {lookups : ℕ → List ℕ}

theorem forall_rankedKeys_iff {lookups : List ℕ} :
    (∀ e ∈ (rankedKeys order lookups).take 2001, e < W.n) ↔
      ∀ p ∈ (sortedProfile order lookups).take (2001 - 0), p.1 < W.n := by
  rw [rankedKeys, ← List.map_take, List.forall_mem_map]

theorem staticPartitioning_returns
    (h : ∀ i < count, ∀ e ∈ (rankedKeys order (lookups i)).take 2001, e < W.n) :
    ∃ out, staticPartitioning L order (some W) count lookups = .ok out := by
  obtain ⟨out, hrun, -⟩ := forLoop_invariant (M := Py) (fun _ _ => True) count
    (fun i (acc : (ℕ → L.Carrier) × ℕ) => do
      let out ← fillLru L W 0 (sortedProfile order (lookups i)) (L.new 2000, acc.2)
      return (Function.update acc.1 i out.1, out.2)) (fun _ => L.new 2000, 0) trivial (by
      intro i hi acc _
      obtain ⟨fill, hfill⟩ := fillLru_returns (L := L) (Nat.zero_le 2000)
        ((forall_rankedKeys_iff order).mp (h i hi)) (L.new 2000, acc.2)
      exact ⟨_, by rw [hfill]; rfl, trivial⟩)
  exact ⟨out, hrun⟩

theorem staticPartitioning_raises {i : ℕ} (hi : i < count)
    (h : ¬ ∀ e ∈ (rankedKeys order (lookups i)).take 2001, e < W.n) :
    staticPartitioning L order (some W) count lookups = .error .indexError := by
  apply forLoop_error_of_lt _ hi
  · intro acc
    rw [forall_rankedKeys_iff] at h
    dsimp only
    rw [fillLru_raises (Nat.zero_le 2000) h]
    rfl
  · intro k hk acc
    dsimp only
    by_cases hk' : ∀ e ∈ (rankedKeys order (lookups k)).take 2001, e < W.n
    · obtain ⟨fill, hfill⟩ := fillLru_returns (L := L) (Nat.zero_le 2000)
        ((forall_rankedKeys_iff order).mp hk') (L.new 2000, acc.2)
      exact .inl ⟨_, by rw [hfill]; rfl⟩
    · right
      rw [forall_rankedKeys_iff] at hk'
      rw [fillLru_raises (Nat.zero_le 2000) hk']
      rfl

theorem staticPartitioning_returns_or_raises :
    (∃ out, staticPartitioning L order (some W) count lookups = .ok out) ∨
      staticPartitioning L order (some W) count lookups = .error .indexError := by
  by_cases h : ∀ i < count, ∀ e ∈ (rankedKeys order (lookups i)).take 2001, e < W.n
  · exact .inl (staticPartitioning_returns L order h)
  · push Not at h
    obtain ⟨i, hi, e, he, hle⟩ := h
    exact .inr (staticPartitioning_raises L order hi fun hrows => hle.not_gt (hrows e he))

end Returns

section Candidates
variable {m : ℕ} {lookups : List ℕ} {e : ℕ}

/-- An index of `lookups` that at most 2000 others exceed in their count is a row of `W`. -/
def StoresRows (W : Table m) (lookups : List ℕ) : Prop :=
  ∀ e ∈ lookups, (lookups.dedup.countP fun k => lookups.count e < lookups.count k) ≤ 2000 → e < W.n

theorem StoresRows.rankedKeys {W : Table m} (h : StoresRows W lookups) (order : DictOrder)
    (he : e ∈ (rankedKeys order lookups).take 2001) : e < W.n := by
  refine h e ((mem_rankedKeys order lookups).mp (List.mem_of_mem_take he)) ?_
  rw [← (rankedKeys_perm order lookups).countP_eq]
  exact (rankedKeys_ranked order lookups).countP_lt_le_of_mem_take he

/-- The items in an order with `p` first. -/
def DictOrder.first (p : ℕ × ℕ) : DictOrder where
  items l := if p ∈ l then p :: l.erase p else l
  perm l := by
    split_ifs with hp
    · exact (List.perm_cons_erase hp).symm
    · exact .refl l

theorem mem_profile_of_mem (he : e ∈ lookups) : (e, lookups.count e) ∈ profile lookups := by
  obtain ⟨p, hp, rfl⟩ := List.mem_map.mp (mem_keys_profile.mpr he)
  rwa [← snd_profile hp]

theorem countP_profile (c : ℕ) : ((profile lookups).countP fun p => c < p.2) =
    lookups.dedup.countP fun k => c < lookups.count k := by
  rw [← (keys_profile_perm lookups).countP_eq, List.countP_map]
  apply List.countP_congr
  intro p hp
  rw [snd_profile hp, Function.comp_apply]

/-- Every candidate is stored if the dictionary yields it before the others of its count. -/
theorem mem_rankedKeys_first (he : e ∈ lookups)
    (hfew : (lookups.dedup.countP fun k => lookups.count e < lookups.count k) ≤ 2000) :
    e ∈ (rankedKeys (.first (e, lookups.count e)) lookups).take 2001 := by
  have hmem := mem_profile_of_mem he
  have hcount : ((e, lookups.count e) :: (profile lookups).erase (e, lookups.count e)).countP
      (fun p => lookups.count e < p.2) ≤ 2000 := by
    rwa [← (List.perm_cons_erase hmem).countP_eq, countP_profile]
  have hsorted := mem_take_mergeSort_cons Prod.snd (x := (e, lookups.count e)) hcount
  rw [rankedKeys, ← List.map_take, sortedProfile, DictOrder.first]
  dsimp only
  rw [if_pos hmem]
  exact List.mem_map_of_mem (f := Prod.fst) hsorted

end Candidates

/-- Whatever the device answers, the fill returns for every order of equal counts exactly if in
every table the indices that at most 2000 others exceed in their count are rows of the last
table. Where it does not return, it ends with an `IndexError`. -/
theorem static_fill_returns_iff {m : ℕ} (L : Lru ℕ (IntRow m))
    (fresh : ℕ → ℕ → Device.CInt) (tables : ℕ → Table m) (last : ℕ) (lookups : ℕ → List ℕ) :
    ((∀ order log out, HostProgram.Path (prepare L order fresh tables (last + 1) lookups) log out →
        ∃ caches, out = .ok caches) ↔
      ∀ i < last + 1, StoresRows (tables last) (lookups i)) ∧
    ∀ order log out, HostProgram.Path (prepare L order fresh tables (last + 1) lookups) log out →
      (∃ caches, out = .ok caches) ∨ out = .error .indexError := by
  refine ⟨⟨?_, ?_⟩, ?_⟩
  · intro hok i hi e he hfew
    by_contra hrow
    -- the order that lets the fill reach `e`
    have hreached := mem_rankedKeys_first he hfew
    obtain ⟨log, out, hpath, -⟩ := (prepare_returns (L := L) (.first (e, (lookups i).count e)) fresh
      tables (last + 1) lookups).exists_path fun _ => ⟨0, 0, fun _ => none⟩
    obtain ⟨caches, rfl⟩ := hok _ _ _ hpath
    have hraise := staticPartitioning_raises L _ hi fun hrows => hrow (hrows e hreached)
    rw [← prepare_path hpath] at hraise
    cases hraise
  · intro hrows order log out hpath
    rw [prepare_path hpath]
    exact staticPartitioning_returns L order fun i hi e he => (hrows i hi).rankedKeys order he
  · intro order log out hpath
    rw [prepare_path hpath]
    exact staticPartitioning_returns_or_raises L order

/-- Tables of 4, 3 and 2 rows, the default sizes: a lookup of the last row of the first table
is enough. -/
theorem static_fill_returns_default : ∃ order log out,
    HostProgram.Path (prepare (Lru.recent : Lru ℕ (IntRow 2)) order (fun _ _ => 0)
      (fun i => ⟨4 - i, fun _ _ => 0⟩) 3 (fun i => if i = 0 then [3] else [1])) log out ∧
    out = .error .indexError := by
  obtain ⟨hiff, hcases⟩ := static_fill_returns_iff (Lru.recent : Lru ℕ (IntRow 2)) (fun _ _ => 0)
    (fun i => ⟨4 - i, fun _ _ => 0⟩) 2 (fun i => if i = 0 then [3] else [1])
  have hnot : ¬ ∀ i < 3, StoresRows (⟨4 - 2, fun _ _ => 0⟩ : Table 2)
      (if i = 0 then [3] else [1]) :=
    fun hrows => absurd (hrows 0 (by decide) 3 (by decide) (by decide)) (by decide)
  have hraise := mt hiff.mp hnot
  push Not at hraise
  obtain ⟨order, log, out, hpath, hne⟩ := hraise
  exact ⟨order, log, out, hpath, (hcases order log out hpath).resolve_left (by simpa using hne)⟩

section Fill
variable {m : ℕ} {L : Lru ℕ (IntRow m)} {W : Table m}

/-- A completed fill has stored the first 2001 items. -/
theorem fillLru_eq {items : List (ℕ × ℕ)} {k : ℕ} (hk : k ≤ 2000) {acc out : L.Carrier × ℕ}
    (h : fillLru L W k items acc = .ok out) :
    out.1 = ((items.take (2001 - k)).map Prod.fst).foldl (fun s key => L.set s key (W.row key))
      acc.1 := by
  induction items generalizing k acc with
  | nil =>
    cases h
    simp
  | cons p rest ih =>
    obtain ⟨key, value⟩ := p
    have hsucc : 2001 - k = 2001 - (k + 1) + 1 := by omega
    rw [fillLru] at h
    rw [hsucc, List.take_succ_cons, List.map_cons, List.foldl_cons]
    split at h
    next =>
      split at h
      next hlast =>
        cases h
        simp [hlast]
      next hlast => exact ih (by omega) h
    next => cases h

variable {order : DictOrder} {count : ℕ} {lookups : ℕ → List ℕ} {out : (ℕ → L.Carrier) × ℕ}

theorem keys_staticPartitioning (hL : L.EvictsOldest)
    (h : staticPartitioning L order (some W) count lookups = .ok out) {i : ℕ} (hi : i < count) :
    hL.keys (out.1 i) = keptKeys order (lookups i) := by
  obtain ⟨e, e', hfill⟩ := staticPartitioning_ok h hi
  have hkeys : hL.keys (L.new 2000) = [] := hL.keys_new 2000
  have hcap : hL.cap (L.new 2000) = 2000 := hL.cap_new 2000
  have hout : out.1 i = (((sortedProfile order (lookups i)).take 2001).map Prod.fst).foldl
      (fun s key => L.set s key (W.row key)) (L.new 2000) := fillLru_eq (Nat.zero_le _) hfill
  rw [hout, hL.keys_foldl_set, hkeys, hcap, List.append_nil, keptKeys, rankedKeys, List.map_take]
  · rw [List.map_take]
    exact (rankedKeys_nodup order (lookups i)).sublist (List.take_sublist _ _)
  · intro k _
    rw [hkeys]
    exact List.not_mem_nil
  · rw [hkeys]
    exact Nat.zero_le _
  · rw [hcap]
    decide

/-- The cache `s` holds the hottest of the indices that were looked up: no absent index was
looked up more often than a present one, and the cache is as full as it can be. -/
structure HoldsHottest (L : Lru ℕ (IntRow m)) (s : L.Carrier) (lookups : List ℕ) : Prop where
  hottest : ∀ e e', L.get? s e = none → (L.get? s e').isSome → lookups.count e ≤ lookups.count e'
  size : Set.ncard {e | (L.get? s e).isSome} = min 2000 lookups.dedup.length

theorem hottest_iff (hL : L.EvictsOldest)
    (h : staticPartitioning L order (some W) count lookups = .ok out) {i : ℕ} (hi : i < count) :
    (∀ e e', L.get? (out.1 i) e = none → (L.get? (out.1 i) e').isSome →
      (lookups i).count e ≤ (lookups i).count e') ↔
    (lookups i).dedup.length ≤ 2000 ∨ ∃ M, (∀ e, (lookups i).count e ≤ M) ∧
      2000 < (lookups i).dedup.countP fun e => (lookups i).count e = M := by
  have hkeys := keys_staticPartitioning hL h hi
  have habsent : ∀ e, L.get? (out.1 i) e = none ↔ e ∉ keptKeys order (lookups i) := by
    intro e
    rw [← hkeys, ← hL.isSome_get?_iff, Option.not_isSome_iff_eq_none]
  simp only [habsent, hL.isSome_get?_iff, hkeys]
  exact keptKeys_hottest_iff order

theorem ncard_present (hL : L.EvictsOldest)
    (h : staticPartitioning L order (some W) count lookups = .ok out) {i : ℕ} (hi : i < count) :
    Set.ncard {e | (L.get? (out.1 i) e).isSome} = min 2000 (lookups i).dedup.length := by
  have hset : {e | (L.get? (out.1 i) e).isSome} = ↑(keptKeys order (lookups i)).toFinset := by
    ext e
    rw [Set.mem_ofPred_eq, hL.isSome_get?_iff, keys_staticPartitioning hL h hi, List.coe_toFinset,
      Set.mem_ofPred_eq]
  rw [hset, Set.ncard_coe_finset, List.toFinset_card_of_nodup (keptKeys_nodup order _),
    length_keptKeys]

/-- The cache of a table holds the hottest indices exactly if there are at most 2000 distinct
ones or more than 2000 of them share the largest count. -/
theorem holdsHottest_iff (hL : L.EvictsOldest)
    (h : staticPartitioning L order (some W) count lookups = .ok out) {i : ℕ} (hi : i < count) :
    HoldsHottest L (out.1 i) (lookups i) ↔
    (lookups i).dedup.length ≤ 2000 ∨ ∃ M, (∀ e, (lookups i).count e ≤ M) ∧
      2000 < (lookups i).dedup.countP fun e => (lookups i).count e = M := by
  rw [← hottest_iff hL h hi]
  exact ⟨fun hh => hh.hottest, fun hh => ⟨hh, ncard_present hL h hi⟩⟩

end Fill

section Instances

def zeroTable (n : ℕ) : Table 1 := ⟨n, fun _ _ => 0⟩

theorem staticPartitioning_single (n : ℕ) (lookups : List ℕ) (h : ∀ e ∈ lookups, e < n) :
    ∃ out, staticPartitioning Lru.recent .insertion (some (zeroTable n)) 1 (fun _ => lookups) =
      .ok out := by
  have hdone : ∃ out, staticPartitioning Lru.recent .insertion (some (zeroTable n)) (0 + 1)
      (fun _ => lookups) = .ok out ∧ ∀ i < 0 + 1, Lru.recent.Agrees (zeroTable n).row (out.1 i) :=
    staticPartitioning_agrees .insertion (fun _ => zeroTable n) h
      fun i hi => absurd hi (Nat.not_lt_zero i)
  obtain ⟨out, hrun, -⟩ := hdone
  exact ⟨out, hrun⟩

theorem holdsHottest_iff_small : ∃ out,
    staticPartitioning Lru.recent .insertion (some (zeroTable 4)) 1 (fun _ => [0, 3, 0]) = .ok out ∧
      HoldsHottest Lru.recent (out.1 0) [0, 3, 0] := by
  obtain ⟨out, hrun⟩ := staticPartitioning_single 4 [0, 3, 0] (by decide)
  exact ⟨out, hrun, (holdsHottest_iff Lru.recentEvictsOldest hrun Nat.one_pos).mpr
    (.inl (by decide))⟩

/-- The indices 0 to 2000, with index 0 looked up twice. -/
def oneTooMany : List ℕ := 0 :: List.range 2001

theorem oneTooMany_dedup : oneTooMany.dedup = List.range 2001 := by
  rw [oneTooMany, List.dedup_cons_of_mem (List.mem_range.mpr (by decide)),
    List.nodup_range.dedup]

theorem oneTooMany_count_zero : 2 ≤ oneTooMany.count 0 := by
  have hmem : 0 ∈ List.range 2001 := List.mem_range.mpr (by decide)
  rw [oneTooMany, List.count_cons_self, List.nodup_range.count, if_pos hmem]

theorem oneTooMany_count_of_ne {e : ℕ} (he : e ≠ 0) : oneTooMany.count e ≤ 1 := by
  rw [oneTooMany, List.count_cons_of_ne he.symm]
  exact List.nodup_iff_count_le_one.mp List.nodup_range e

/-- There are 2001 distinct indices, and only index 0 has the largest count. -/
theorem oneTooMany_spread : ¬ (oneTooMany.dedup.length ≤ 2000 ∨
    ∃ M, (∀ e, oneTooMany.count e ≤ M) ∧
      2000 < oneTooMany.dedup.countP fun e => oneTooMany.count e = M) := by
  rw [oneTooMany_dedup]
  rintro (hlen | ⟨M, hM, hmost⟩)
  · rw [List.length_range] at hlen
    omega
  · have htwo := oneTooMany_count_zero.trans (hM 0)
    have hle : (List.range 2001).countP (fun e => oneTooMany.count e = M) ≤
        (List.range 2001).count 0 := by
      rw [List.count_eq_countP]
      apply List.countP_mono_left
      intro e _ he
      rw [decide_eq_true_iff] at he
      by_contra hne
      have hone := oneTooMany_count_of_ne (e := e) (by simpa using hne)
      omega
    have hone : (List.range 2001).count 0 ≤ 1 :=
      List.nodup_iff_count_le_one.mp List.nodup_range 0
    omega

/-- An index that is absent was looked up more often than one that is present. -/
theorem oneTooMany_not_hottest : ∃ out,
    staticPartitioning Lru.recent .insertion (some (zeroTable 2001)) 1 (fun _ => oneTooMany) =
        .ok out ∧
      (∃ e e', Lru.recent.get? (out.1 0) e = none ∧ (Lru.recent.get? (out.1 0) e').isSome ∧
        oneTooMany.count e' < oneTooMany.count e) ∧
      ¬ HoldsHottest Lru.recent (out.1 0) oneTooMany := by
  obtain ⟨out, hrun⟩ := staticPartitioning_single 2001 oneTooMany (by
    intro e he
    rcases List.mem_cons.mp he with rfl | he
    · decide
    · exact List.mem_range.mp he)
  have hcold := (hottest_iff Lru.recentEvictsOldest hrun Nat.one_pos).not.mpr oneTooMany_spread
  refine ⟨out, hrun, ?_, fun h => hcold h.hottest⟩
  push Not at hcold
  exact hcold

end Instances

end EbpfIsp.Recsys
