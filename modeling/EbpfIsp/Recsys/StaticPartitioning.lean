import EbpfIsp.Driver.Table
import EbpfIsp.Recsys.Slsload

/-! # Filling the caches before the first batch

`create_sequential_forward_ops` generates the tables one after the other, keeps
each in the attribute `W` and writes it to its table id. The static
partitioning at the start of the program counts the lookups of each table and
fills the cache of the table with rows of `W`, the hottest index first. By then
`W` is the last table.
-/

namespace EbpfIsp.Recsys
open Library Device Driver HostProgram

structure Table (m : ℕ) where
  n : ℕ
  row : ℕ → IntRow m

def Table.flatten {m : ℕ} (W : Table m) (k : ℕ) : CInt :=
  if h : k % m < m then W.row (k / m) ⟨k % m, h⟩ else 0

/-- The table loop of `create_sequential_forward_ops`; the result is the attribute `W`. -/
def createSequentialForwardOps {m : ℕ} (fresh : ℕ → ℕ → CInt) (tables : ℕ → Table m)
    (count : ℕ) : Host CInt (Option (Table m)) :=
  loop count (fun i _ => do
    unvmeWriteTable (fresh i) (tables i).flatten (cInt m) (cInt (tables i).n) (cInt i)
    return some (tables i)) none

/-- `dict.items()`: every item once, in an order that the language does not promise. -/
structure DictOrder where
  items : List (ℕ × ℕ) → List (ℕ × ℕ)
  perm : ∀ l, (items l).Perm l

def DictOrder.insertion : DictOrder := ⟨id, fun _ => .refl _⟩

/-- `profile[index] += 1`, or `profile[index] = 1` for a new index. -/
def bump (index : ℕ) : List (ℕ × ℕ) → List (ℕ × ℕ)
  | [] => [(index, 1)]
  | (key, value) :: rest =>
    if key = index then (key, value + 1) :: rest else (key, value) :: bump index rest

def tableLookups (lSi : ℕ → ℕ → List ℕ) (nbatches numLookupsPerBatch i : ℕ) : List ℕ :=
  (List.range nbatches).flatMap fun b => (lSi b i).take numLookupsPerBatch

def profile (lookups : List ℕ) : List (ℕ × ℕ) := lookups.foldl (fun p index => bump index p) []

/-- `sorted(profile.items(), key=lambda x: x[1], reverse=True)`, a stable sort. -/
def sortedProfile (order : DictOrder) (lookups : List ℕ) : List (ℕ × ℕ) :=
  (order.items (profile lookups)).mergeSort fun x y => y.2 ≤ x.2

section Fill
variable {m : ℕ} (L : Lru ℕ (IntRow m))

/-- The fill loop from the `k`-th item on, with the cache and `expected_hits`. It ends after
item 2000. -/
def fillLru (W : Table m) : ℕ → List (ℕ × ℕ) → L.Carrier × ℕ → Py (L.Carrier × ℕ)
  | _, [], acc => return acc
  | k, (key, value) :: rest, acc =>
    if key < W.n then
      let acc := (L.set acc.1 key (W.row key), acc.2 + value)
      if k = 2000 then return acc else fillLru W (k + 1) rest acc
    else throw .indexError

/-- The caches after the static partitioning, and `expected_hits`. -/
def staticPartitioning (order : DictOrder) (W : Option (Table m)) (count : ℕ)
    (lookups : ℕ → List ℕ) : Py ((ℕ → L.Carrier) × ℕ) :=
  forLoop count (fun i acc =>
    match W with
    | none => throw .attributeError
    | some W => do
      let out ← fillLru L W 0 (sortedProfile order (lookups i)) (L.new 2000, acc.2)
      return (Function.update acc.1 i out.1, out.2)) (fun _ => L.new 2000, 0)

def prepare (order : DictOrder) (fresh : ℕ → ℕ → CInt) (tables : ℕ → Table m) (count : ℕ)
    (lookups : ℕ → List ℕ) : Host CInt (Py ((ℕ → L.Carrier) × ℕ)) := do
  let W ← createSequentialForwardOps fresh tables count
  return staticPartitioning L order W count lookups

/-- Whatever the device answers, the fill completes and every cached row is the row of its
table that was passed to `unvme_write_table`. -/
def FillCoherent (order : DictOrder) (fresh : ℕ → ℕ → CInt) (tables : ℕ → Table m) (count : ℕ)
    (lookups : ℕ → List ℕ) : Prop :=
  ∀ log out, Path (prepare L order fresh tables count lookups) log out →
    ∃ lru expectedHits, out = .ok (lru, expectedHits) ∧ ∀ i < count, L.Agrees (tables i).row (lru i)

end Fill

section Profile

theorem mem_bump {index : ℕ} {l : List (ℕ × ℕ)} {p : ℕ × ℕ} (h : p ∈ bump index l) :
    p.1 = index ∨ ∃ q ∈ l, p.1 = q.1 := by
  induction l with
  | nil => exact .inl (by simp [List.mem_singleton.mp h])
  | cons q rest ih =>
    obtain ⟨key, value⟩ := q
    rw [bump] at h
    split at h
    next hkey =>
      rcases List.mem_cons.mp h with rfl | h
      · exact .inl hkey
      · exact .inr ⟨p, List.mem_cons_of_mem _ h, rfl⟩
    next =>
      rcases List.mem_cons.mp h with rfl | h
      · exact .inr ⟨_, List.mem_cons_self, rfl⟩
      · rcases ih h with h | ⟨q, hq, he⟩
        · exact .inl h
        · exact .inr ⟨q, List.mem_cons_of_mem _ hq, he⟩

theorem profile_concat (lookups : List ℕ) (index : ℕ) :
    profile (lookups ++ [index]) = bump index (profile lookups) := by
  simp [profile]

theorem mem_profile {lookups : List ℕ} {p : ℕ × ℕ} (h : p ∈ profile lookups) : p.1 ∈ lookups := by
  induction lookups using List.reverseRecOn generalizing p with
  | nil => simp [profile] at h
  | append_singleton lookups index ih =>
    rw [profile_concat] at h
    rcases mem_bump h with h | ⟨q, hq, h⟩
    · simp [h]
    · simp [h, ih hq]

theorem bump_ne_nil (index : ℕ) (l : List (ℕ × ℕ)) : bump index l ≠ [] := by
  cases l with
  | nil => simp [bump]
  | cons p rest =>
    rw [bump]
    split <;> simp

theorem profile_ne_nil {lookups : List ℕ} (h : lookups ≠ []) : profile lookups ≠ [] := by
  induction lookups using List.reverseRecOn with
  | nil => exact absurd rfl h
  | append_singleton lookups index _ =>
    rw [profile_concat]
    exact bump_ne_nil _ _

variable (order : DictOrder) {lookups : List ℕ}

theorem sortedProfile_perm (lookups : List ℕ) :
    (sortedProfile order lookups).Perm (profile lookups) :=
  (List.mergeSort_perm _ _).trans (order.perm _)

theorem mem_sortedProfile {p : ℕ × ℕ} (h : p ∈ sortedProfile order lookups) : p.1 ∈ lookups :=
  mem_profile ((sortedProfile_perm order lookups).mem_iff.mp h)

theorem sortedProfile_nil : sortedProfile order [] = [] :=
  List.perm_nil.mp (sortedProfile_perm order [])

theorem sortedProfile_ne_nil (h : lookups ≠ []) : sortedProfile order lookups ≠ [] := by
  intro hnil
  have hperm := sortedProfile_perm order lookups
  rw [hnil] at hperm
  exact profile_ne_nil h (List.nil_perm.mp hperm)

end Profile

section FillSpec
variable {m : ℕ} {L : Lru ℕ (IntRow m)} {W : Table m}

/-- A fill from valid keys completes, and the cache agrees with `W`. -/
theorem fillLru_agrees {items : List (ℕ × ℕ)} (hkeys : ∀ p ∈ items, p.1 < W.n) (k : ℕ)
    {acc : L.Carrier × ℕ} (hacc : L.Agrees W.row acc.1) :
    ∃ out, fillLru L W k items acc = .ok out ∧ L.Agrees W.row out.1 := by
  induction items generalizing k acc with
  | nil => exact ⟨acc, rfl, hacc⟩
  | cons p rest ih =>
    obtain ⟨key, value⟩ := p
    have hset := hacc.set key
    rw [fillLru, if_pos (hkeys _ List.mem_cons_self)]
    split
    next => exact ⟨_, rfl, hset⟩
    next => exact ih (fun p hp => hkeys p (List.mem_cons_of_mem _ hp)) (k + 1) hset

/-- The last stored entry of a fill is a row of `W`. -/
theorem fillLru_last {items : List (ℕ × ℕ)} (hne : items ≠ []) (k : ℕ) {acc out : L.Carrier × ℕ}
    (h : fillLru L W k items acc = .ok out) : ∃ c key, out.1 = L.set c key (W.row key) := by
  induction items generalizing k acc with
  | nil => exact absurd rfl hne
  | cons p rest ih =>
    obtain ⟨key, value⟩ := p
    rw [fillLru] at h
    split at h
    next =>
      cases rest with
      | nil =>
        have hout : (L.set acc.1 key (W.row key), acc.2 + value) = out := by
          split at h <;> simpa [fillLru, pure, Except.pure] using h
        exact ⟨acc.1, key, by rw [← hout]⟩
      | cons q rest =>
        split at h
        next =>
          have hout : (L.set acc.1 key (W.row key), acc.2 + value) = out := by
            simpa [pure, Except.pure] using h
          exact ⟨acc.1, key, by rw [← hout]⟩
        next => exact ih (List.cons_ne_nil _ _) (k + 1) h
    next => cases h

theorem staticPartitioning_ok {order : DictOrder} {count : ℕ} {lookups : ℕ → List ℕ}
    {out : (ℕ → L.Carrier) × ℕ} (h : staticPartitioning L order (some W) count lookups = .ok out)
    {i : ℕ} (hi : i < count) :
    ∃ e e', fillLru L W 0 (sortedProfile order (lookups i)) (L.new 2000, e) =
      .ok (out.1 i, e') := by
  refine forLoop_ok (fun n (acc : (ℕ → L.Carrier) × ℕ) => ∀ i < n, ∃ e e',
    fillLru L W 0 (sortedProfile order (lookups i)) (L.new 2000, e) = .ok (acc.1 i, e')) h
    (by simp) ?_ i hi
  rintro n - ⟨lru, e⟩ acc' hacc hbody i hi
  obtain ⟨out, hfill, hout⟩ := bind_eq_ok hbody
  obtain rfl : (Function.update lru n out.1, out.2) = acc' := by
    simpa [pure, Except.pure] using hout
  by_cases hin : i = n
  · subst hin
    exact ⟨e, out.2, by simpa using hfill⟩
  · dsimp only
    rw [Function.update_of_ne hin]
    exact hacc i (by omega)

theorem staticPartitioning_agrees (order : DictOrder) (tables : ℕ → Table m) {last : ℕ}
    {lookups : ℕ → List ℕ} (hlast : ∀ e ∈ lookups last, e < (tables last).n)
    (hempty : ∀ i < last, lookups i = []) :
    ∃ out, staticPartitioning L order (some (tables last)) (last + 1) lookups = .ok out ∧
      ∀ i < last + 1, L.Agrees (tables i).row (out.1 i) := by
  obtain ⟨out, hrun, hout⟩ := forLoop_invariant
    (fun n (acc : (ℕ → L.Carrier) × ℕ) => ∀ i < n, L.Agrees (tables i).row (acc.1 i)) (last + 1)
    (fun i acc => (do
      let out ← fillLru L (tables last) 0 (sortedProfile order (lookups i)) (L.new 2000, acc.2)
      return (Function.update acc.1 i out.1, out.2) : Py ((ℕ → L.Carrier) × ℕ)))
    (fun _ => L.new 2000, 0) (by simp) (by
      rintro n hn ⟨lru, e⟩ hacc
      obtain ⟨fill, hfill, hagrees⟩ : ∃ fill,
          fillLru L (tables last) 0 (sortedProfile order (lookups n)) (L.new 2000, e) = .ok fill ∧
            L.Agrees (tables n).row fill.1 := by
        rcases Nat.lt_succ_iff_lt_or_eq.mp hn with hlt | rfl
        · rw [hempty n hlt, sortedProfile_nil]
          exact ⟨_, rfl, L.agrees_new _ _⟩
        · exact fillLru_agrees (fun p hp => hlast _ (mem_sortedProfile order hp)) 0
            (L.agrees_new _ _)
      refine ⟨_, by rw [hfill]; rfl, ?_⟩
      intro i hi
      dsimp only
      by_cases hin : i = n
      · subst hin
        rwa [Function.update_self]
      · rw [Function.update_of_ne hin]
        exact hacc i (by omega))
  exact ⟨out, hrun, hout⟩

theorem prepare_returns (order : DictOrder) (fresh : ℕ → ℕ → CInt) (tables : ℕ → Table m)
    (count : ℕ) (lookups : ℕ → List ℕ) : Returns (prepare L order fresh tables count lookups) := by
  apply Returns.bind
  · apply Returns.loop
    intro i _
    exact (unvmeWriteTable_returns _ _ _ _ _).bind fun _ => .done _
  · exact fun W => .done _

/-- After the table loop the attribute is the last table, whatever the device answered. -/
theorem createSequentialForwardOps_path {fresh : ℕ → ℕ → CInt} {tables : ℕ → Table m} {last : ℕ}
    {log : List (Request CInt × Completion CInt)} {W : Option (Table m)}
    (h : Path (createSequentialForwardOps fresh tables (last + 1)) log W) :
    W = some (tables last) := by
  obtain ⟨_, _, _, -, hbody, -⟩ := Path.of_bind h
  obtain ⟨_, _, _, -, hdone, -⟩ := Path.of_bind hbody
  cases hdone
  rfl

theorem prepare_path {order : DictOrder} {fresh : ℕ → ℕ → CInt} {tables : ℕ → Table m} {last : ℕ}
    {lookups : ℕ → List ℕ} {log : List (Request CInt × Completion CInt)}
    {out : Py ((ℕ → L.Carrier) × ℕ)}
    (h : Path (prepare L order fresh tables (last + 1) lookups) log out) :
    out = staticPartitioning L order (some (tables last)) (last + 1) lookups := by
  obtain ⟨W, _, _, hW, hdone, -⟩ := Path.of_bind h
  rw [createSequentialForwardOps_path hW] at hdone
  cases hdone
  rfl

/-- A lookup in an earlier table puts a row of the last table into its cache, or fails. -/
theorem not_fillCoherent (hm : 0 < m) {order : DictOrder} {fresh : ℕ → ℕ → CInt} {sizes : ℕ → ℕ}
    {last i : ℕ} (hi : i < last) {lookups : ℕ → List ℕ} (hne : lookups i ≠ []) :
    ¬ FillCoherent L order fresh (fun k => ⟨sizes k, fun _ _ => if k = last then 1 else 0⟩)
      (last + 1) lookups := by
  intro hco
  obtain ⟨log, out, hpath, -⟩ := (prepare_returns (L := L) order fresh
    (fun k => ⟨sizes k, fun _ _ => if k = last then 1 else 0⟩) (last + 1)
    lookups).exists_path fun _ => ⟨0, 0, fun _ => none⟩
  obtain ⟨lru, e, rfl, hagrees⟩ := hco log out hpath
  obtain ⟨_, _, hfill⟩ := staticPartitioning_ok (prepare_path hpath).symm (Nat.lt_succ_of_lt hi)
  obtain ⟨c, key, hlast⟩ := fillLru_last (sortedProfile_ne_nil order hne) 0 hfill
  have hcache := hagrees i (Nat.lt_succ_of_lt hi)
  rw [show lru i = _ from hlast] at hcache
  have hrow := congrFun (Lru.eq_of_agrees_set hcache) ⟨0, hm⟩
  simp [Nat.ne_of_lt hi] at hrow

end FillSpec

/-- For fixed table sizes and lookups the fill is coherent for all table contents exactly when
no table but the last is looked up. -/
theorem static_fill_coherent_iff {m : ℕ} (hm : 0 < m) (L : Lru ℕ (IntRow m)) (order : DictOrder)
    (fresh : ℕ → ℕ → CInt) {count : ℕ} (hcount : 1 ≤ count) (sizes : ℕ → ℕ)
    (lSi : ℕ → ℕ → List ℕ) (nbatches numLookups : ℕ)
    (hvalid : ∀ i < count, ∀ e ∈ tableLookups lSi nbatches numLookups i, e < sizes i) :
    (∀ rows : ℕ → ℕ → IntRow m, FillCoherent L order fresh (fun i => ⟨sizes i, rows i⟩) count
        (tableLookups lSi nbatches numLookups)) ↔
      ∀ i, i + 1 < count → tableLookups lSi nbatches numLookups i = [] := by
  obtain ⟨last, rfl⟩ : ∃ last, count = last + 1 := ⟨count - 1, by omega⟩
  constructor
  · intro hco i hi
    by_contra hne
    exact not_fillCoherent hm (by omega) hne (hco _)
  · intro hempty rows log out hpath
    obtain ⟨⟨lru, e⟩, hrun, hagrees⟩ := staticPartitioning_agrees (L := L) order
      (fun i => ⟨sizes i, rows i⟩) (hvalid last (Nat.lt_succ_self last))
      (fun i hi => hempty i (by omega))
    exact ⟨lru, e, (prepare_path hpath).trans hrun, hagrees⟩

theorem static_fill_coherent_single : 1 ≤ 1 ∧ ∀ rows : ℕ → ℕ → IntRow 32,
    FillCoherent Lru.recent .insertion (fun _ _ => 0) (fun i => ⟨64, rows i⟩) 1
      (tableLookups (fun _ _ => [0, 3]) 1 2) := by
  refine ⟨le_rfl, ?_⟩
  exact (static_fill_coherent_iff (by decide) Lru.recent .insertion (fun _ _ => 0) le_rfl
    (fun _ => 64)
    (fun _ _ => [0, 3]) 1 2 (by simp [tableLookups])).mpr (by intro i hi; omega)

/-- Two tables of 64 rows, zeros and ones, each looked up at 0: the cache of the first table
is filled with ones. -/
theorem static_fill_uses_last_table :
    (∀ i < 2, (tableLookups (fun _ _ => [0]) 1 1 i).dedup.length < 2000) ∧
      ¬ FillCoherent (Lru.recent : Lru ℕ (IntRow 32)) .insertion (fun _ _ => 0)
        (fun k => ⟨64, fun _ _ => if k = 1 then 1 else 0⟩) 2
        (tableLookups (fun _ _ => [0]) 1 1) := by
  refine ⟨by decide, ?_⟩
  exact not_fillCoherent (by decide) (i := 0) (by decide) (by decide)

end EbpfIsp.Recsys
