import Mathlib.Tactic

/-! # Bounded caches

A cache forgets entries by itself but never changes one. Its users may rely on
that alone: a cache that is filled with the values of a function agrees with
the function, whatever it evicts. Which keys are present is known for caches
that evict the oldest key. Lists ordered by last use are an instance of both.
-/

namespace EbpfIsp.Library

/-- A map that may forget entries at any operation, but returns for a present key the value
that was stored last. -/
structure Cache (K V : Type) where
  Carrier : Type
  new : ℕ → Carrier
  get? : Carrier → K → Option V
  touch : Carrier → K → Carrier
  set : Carrier → K → V → Carrier
  get?_new : ∀ cap k, get? (new cap) k = none
  get?_of_touch : ∀ s k k' w, get? (touch s k) k' = some w → get? s k' = some w
  get?_of_set : ∀ s k v k' w, get? (set s k v) k' = some w →
    (k' = k ∧ w = v) ∨ (k' ≠ k ∧ get? s k' = some w)

/-- A bounded map. Reading an entry only marks it as used; storing one may evict others. -/
structure Lru (K V : Type) extends Cache K V where
  get?_touch : ∀ s k k', get? (touch s k) k' = get? s k'
  get?_set_self : ∀ s k v, get? (set s k v) k = some v

namespace Cache

variable {K V : Type} (L : Cache K V)

/-- Every cached value is the value of `row` at its key. -/
def Agrees (row : K → V) (s : L.Carrier) : Prop := ∀ k v, L.get? s k = some v → v = row k

theorem agrees_new (row : K → V) (cap : ℕ) : L.Agrees row (L.new cap) := by
  intro k v h
  simp [L.get?_new] at h

variable {L} {row : K → V} {s : L.Carrier}

theorem Agrees.touch (h : L.Agrees row s) (k : K) : L.Agrees row (L.touch s k) := by
  intro k' v hv
  exact h k' v (L.get?_of_touch _ _ _ _ hv)

theorem Agrees.set (h : L.Agrees row s) (k : K) : L.Agrees row (L.set s k (row k)) := by
  intro k' v hv
  rcases L.get?_of_set _ _ _ _ _ hv with ⟨rfl, rfl⟩ | ⟨-, hold⟩
  · rfl
  · exact h k' v hold

end Cache

namespace Lru

variable {K V : Type} {L : Lru K V} {row : K → V} {s : L.Carrier}

/-- The last stored entry decides whether a filled cache can agree with `row`. -/
theorem eq_of_agrees_set {k : K} {v : V} (h : L.Agrees row (L.set s k v)) : v = row k :=
  h k v (L.get?_set_self s k v)

/-- A cache that drops its oldest key when a new key is stored at capacity. `keys` lists the
keys by the time they were last stored or used, the most recent one first. Reading an entry and
storing a present key again are left open. -/
structure EvictsOldest (L : Lru K V) where
  cap : L.Carrier → ℕ
  keys : L.Carrier → List K
  cap_new : ∀ c, cap (L.new c) = c
  cap_set : ∀ s k v, cap (L.set s k v) = cap s
  keys_new : ∀ c, keys (L.new c) = []
  isSome_get?_iff : ∀ s k, (L.get? s k).isSome ↔ k ∈ keys s
  keys_set_of_lt : ∀ s k v, k ∉ keys s → (keys s).length < cap s → keys (L.set s k v) = k :: keys s
  keys_set_of_full : ∀ s k v, k ∉ keys s → (keys s).length = cap s →
    keys (L.set s k v) = k :: (keys s).dropLast

namespace EvictsOldest

variable (hL : L.EvictsOldest)

theorem keys_set {k : K} {v : V} (hnew : k ∉ hL.keys s) (hlen : (hL.keys s).length ≤ hL.cap s)
    (hcap : 0 < hL.cap s) : hL.keys (L.set s k v) = (k :: hL.keys s).take (hL.cap s) := by
  rcases Nat.lt_or_eq_of_le hlen with hlt | hfull
  · rw [hL.keys_set_of_lt s k v hnew hlt, List.take_of_length_le (by simpa using hlt)]
  · rw [hL.keys_set_of_full s k v hnew hfull, List.dropLast_eq_take, ← List.take_succ_cons, hfull,
      Nat.sub_add_cancel hcap]

/-- After new keys were stored one after the other, the last ones are present. -/
theorem keys_foldl_set {ks : List K} (hnodup : ks.Nodup) (hnew : ∀ k ∈ ks, k ∉ hL.keys s)
    (hlen : (hL.keys s).length ≤ hL.cap s) (hcap : 0 < hL.cap s) :
    hL.keys (ks.foldl (fun s k => L.set s k (row k)) s) =
      (ks.reverse ++ hL.keys s).take (hL.cap s) := by
  induction ks generalizing s with
  | nil => simp [List.take_of_length_le hlen]
  | cons k ks ih =>
    have hset := hL.keys_set (v := row k) (hnew k List.mem_cons_self) hlen hcap
    rw [List.nodup_cons] at hnodup
    rw [List.foldl_cons, ih hnodup.2, hL.cap_set, hset]
    · simp [List.take_append, List.take_take]
    · intro k' hk' hmem
      rw [hset] at hmem
      rcases List.mem_cons.mp (List.mem_of_mem_take hmem) with rfl | hold
      · exact hnodup.1 hk'
      · exact hnew k' (List.mem_cons_of_mem _ hk') hold
    · rw [hset, hL.cap_set]
      exact List.length_take_le _ _
    · rw [hL.cap_set]
      exact hcap

end EvictsOldest

section List
variable [DecidableEq K]

/-- Entries by last use, the most recent one first. -/
structure Recent (K V : Type) where
  cap : ℕ
  entries : List (K × V)

namespace Recent

def get? (s : Recent K V) (k : K) : Option V := (s.entries.find? (·.1 = k)).map Prod.snd

def touch (s : Recent K V) (k : K) : Recent K V :=
  match s.entries.find? (·.1 = k) with
  | some p => { s with entries := p :: s.entries.filter (·.1 ≠ k) }
  | none => s

/-- A cache holds at least one entry. -/
def set (s : Recent K V) (k : K) (v : V) : Recent K V :=
  { s with entries := (k, v) :: (s.entries.filter (·.1 ≠ k)).take (s.cap - 1) }

theorem find?_filter_ne {k k' : K} (h : k' ≠ k) (l : List (K × V)) :
    (l.filter (·.1 ≠ k)).find? (·.1 = k') = l.find? (·.1 = k') := by
  induction l with
  | nil => rfl
  | cons p l ih =>
    by_cases hp : p.1 = k
    · have hne : ¬ p.1 = k' := fun he => h (he.symm.trans hp)
      rw [List.filter_cons_of_neg (by simp [hp]), ih, List.find?_cons_of_neg (by simp [hne])]
    · rw [List.filter_cons_of_pos (by simp [hp])]
      by_cases hp' : p.1 = k'
      · rw [List.find?_cons_of_pos (by simp [hp']), List.find?_cons_of_pos (by simp [hp'])]
      · rw [List.find?_cons_of_neg (by simp [hp']), List.find?_cons_of_neg (by simp [hp']), ih]

theorem get?_touch (s : Recent K V) (k k' : K) : (s.touch k).get? k' = s.get? k' := by
  rw [touch]
  split
  next p hp =>
    have hpk : p.1 = k := by simpa using List.find?_some hp
    by_cases hk : k' = k
    · subst hk
      rw [get?, get?, hp, List.find?_cons_of_pos (by simp [hpk])]
    · have hne : ¬ p.1 = k' := fun he => hk (he.symm.trans hpk)
      rw [get?, get?, List.find?_cons_of_neg (by simp [hne]), find?_filter_ne hk]
  next => rfl

theorem get?_set_self (s : Recent K V) (k : K) (v : V) : (s.set k v).get? k = some v := by
  simp [get?, set]

theorem get?_set_other (s : Recent K V) {k k' : K} {v w : V} (hk : k' ≠ k)
    (h : (s.set k v).get? k' = some w) : s.get? k' = some w := by
  obtain ⟨p, hp, rfl⟩ := Option.map_eq_some_iff.mp h
  rw [set, List.find?_cons_of_neg (by simpa using hk.symm)] at hp
  rw [get?, ← find?_filter_ne hk, (List.take_prefix _ _).find?_eq_some hp]
  rfl

theorem isSome_get?_iff (s : Recent K V) (k : K) :
    (s.get? k).isSome ↔ k ∈ s.entries.map Prod.fst := by
  simp [get?, List.find?_isSome]

/-- Storing a new key leaves the entries before it up to the capacity. -/
theorem keys_set (s : Recent K V) {k : K} (v : V) (h : k ∉ s.entries.map Prod.fst) :
    (s.set k v).entries.map Prod.fst = k :: (s.entries.map Prod.fst).take (s.cap - 1) := by
  have hfilter : s.entries.filter (·.1 ≠ k) = s.entries := by
    rw [List.filter_eq_self]
    intro p hp
    have hne : p.1 ≠ k := fun he => h (he ▸ List.mem_map_of_mem hp)
    simpa using hne
  rw [set, hfilter, List.map_cons, List.map_take]

end Recent

def recent : Lru K V where
  Carrier := Recent K V
  new cap := ⟨cap, []⟩
  get? := Recent.get?
  touch := Recent.touch
  set := Recent.set
  get?_new _ _ := rfl
  get?_of_touch s k k' w h := by rwa [Recent.get?_touch] at h
  get?_of_set s k v k' w h := by
    by_cases hk : k' = k
    · subst hk
      rw [Recent.get?_set_self] at h
      exact .inl ⟨rfl, (Option.some.inj h).symm⟩
    · exact .inr ⟨hk, s.get?_set_other hk h⟩
  get?_touch := Recent.get?_touch
  get?_set_self := Recent.get?_set_self

def recentEvictsOldest : (recent : Lru K V).EvictsOldest where
  cap := Recent.cap
  keys s := s.entries.map Prod.fst
  cap_new _ := rfl
  cap_set _ _ _ := rfl
  keys_new _ := rfl
  isSome_get?_iff s k := s.isSome_get?_iff k
  keys_set_of_lt s k v hnew hlt :=
    (s.keys_set v hnew).trans (congrArg _ (List.take_of_length_le (Nat.le_sub_one_of_lt hlt)))
  keys_set_of_full s k v hnew hfull := by
    rw [List.dropLast_eq_take, hfull]
    exact s.keys_set v hnew

end List

end Lru

end EbpfIsp.Library
