import EbpfIsp.Recsys.Slsload

/-! # Runs of the `base` branch over one table

A run is any sequence of calls of `slsload` in `base` mode. The cache is kept
from call to call and may evict what it likes. If it starts with rows of the
flash and the library returns rows of the flash, every call pools rows of the
flash and the cache holds nothing else.
-/

namespace EbpfIsp.Recsys
open Library Device Driver

variable {m : ℕ} {L : Cache ℕ (IntRow m)}

structure BaseCall where
  lib : FlashRec
  qid : CInt
  indices : List ℕ
  b : ℕ
  g : ℕ

/-- The results of the calls, each with the state that it leaves. -/
def runCalls : List BaseCall → SlsState L → Py (List (Option (ListResult m) × SlsState L))
  | [], _ => return []
  | c :: cs, s => do
    let ((listResult, _), s) ← slsload .base c.lib c.qid (fun _ => c.indices) 1 c.b c.g s
    let outs ← runCalls cs s
    return (listResult, s) :: outs

/-- `unvme_read_embedding` returns a pointer to the row of the flash. -/
def BaseCall.ReadsFlash (c : BaseCall) (flash : ℕ → IntRow m) : Prop :=
  ∀ e (h : Fin m), c.lib.unvmeReadEmbedding (cInt e) (cInt m) (cInt 0) c.qid h.val = flash e h

/-- Sample `j`: the exact sum of its rows, divided by a million. -/
def flashSum (flash : ℕ → IntRow m) (indices : List ℕ) (g j : ℕ) : FloatRow m := fun h =>
  ((∑ k ∈ Finset.range g, (flash (indices.getD (j * g + k) 0) h).toInt : ℤ) : ℚ) / 1000000

/-- The call has read inside its index list, returned the sums, and left a correct cache. -/
structure PoolsFlash (flash : ℕ → IntRow m) (c : BaseCall)
    (out : Option (ListResult m) × SlsState L) : Prop where
  inRange : c.b * c.g ≤ c.indices.length
  rows : out.1 = some (.ndarray ((List.range c.b).map (flashSum flash c.indices c.g)))
  coherent : L.Agrees flash (out.2.lru 0)

section Call
variable {lib : FlashRec} {qid : CInt} {indices : List ℕ} {b g i j : ℕ} {s : SlsState L}

theorem baseSample_ok {out : FloatRow m × SlsState L}
    (h : baseSample lib qid indices g i j s = .ok out) : ∀ k < g, j * g + k < indices.length := by
  apply forLoop_ok (fun n _ => ∀ k < n, j * g + k < indices.length) h
  · simp
  · intro n hn acc acc' hacc hbody k hk
    cases hget : indices[j * g + n]? with
    | none =>
      rw [hget] at hbody
      cases hbody
    | some e =>
      rcases Nat.lt_succ_iff_lt_or_eq.mp hk with hlt | rfl
      · exact hacc k hlt
      · exact (List.getElem?_eq_some_iff.mp hget).1

theorem baseTable_ok {out : List (FloatRow m) × SlsState L}
    (h : baseTable lib qid indices b g i s = .ok out) : b * g ≤ indices.length := by
  apply forLoop_ok (fun n _ => n * g ≤ indices.length) h
  · simp
  · intro n hn acc acc' hacc hbody
    obtain ⟨sample, hsample, -⟩ := bind_eq_ok hbody
    have hin := baseSample_ok hsample
    cases g with
    | zero => simp
    | succ g =>
      have hlast := hin g (Nat.lt_succ_self g)
      rw [Nat.add_mul]
      omega

theorem slsloadBase_one : slsloadBase lib qid (fun _ => indices) 1 b g s = (do
    let out ← baseTable lib qid indices b g 0 s
    return (some (.ndarray out.1), out.2)) := rfl

theorem slsload_one (h : L.Agrees (lib.row qid m 0) (s.lru 0))
    (hlen : b * g ≤ indices.length) (hpos : 0 < b * g) :
    ∃ rate s', slsload .base lib qid (fun _ => indices) 1 b g s =
        .ok ((some (.ndarray (pooledRows lib qid m indices b g 0)), rate), s') ∧
      L.Agrees (lib.row qid m 0) (s'.lru 0) := by
  have hstart : L.Agrees (lib.row qid m 0) (s.start.lru 0) := h
  obtain ⟨s', hrun, hread⟩ := baseTable_spec hstart hlen
  have hne : s'.localLookups ≠ 0 := by
    rw [hread.lookups]
    omega
  refine ⟨s'.localhits / s'.localLookups * 100, s', ?_, hread.agrees⟩
  simp only [slsload, slsloadBase_one, hrun, pure_bind, if_neg hne]
  rfl

/-- A call returns only if it has lookups and all of them are in range. -/
theorem slsload_one_ok (h : L.Agrees (lib.row qid m 0) (s.lru 0))
    {out : (Option (ListResult m) × ℚ) × SlsState L}
    (hrun : slsload .base lib qid (fun _ => indices) 1 b g s = .ok out) :
    b * g ≤ indices.length ∧ 0 < b * g := by
  obtain ⟨res, hres, hrate⟩ := bind_eq_ok hrun
  rw [slsloadBase_one] at hres
  obtain ⟨table, htable, hret⟩ := bind_eq_ok hres
  cases hret
  have hlen := baseTable_ok htable
  have hstart : L.Agrees (lib.row qid m 0) (s.start.lru 0) := h
  obtain ⟨s', htable', hread⟩ := baseTable_spec hstart hlen
  rw [htable] at htable'
  cases htable'
  refine ⟨hlen, Nat.pos_of_ne_zero fun hzero => ?_⟩
  have hlookups : s'.localLookups = 0 := by
    rw [hread.lookups, hzero]
    rfl
  simp only [if_pos hlookups] at hrate
  cases hrate

end Call

section Runs
variable {flash : ℕ → IntRow m} {c : BaseCall} {s : SlsState L}

theorem BaseCall.ReadsFlash.row_eq (h : c.ReadsFlash flash) : c.lib.row c.qid m 0 = flash := by
  funext e x
  exact h e x

theorem pooledRows_flash (h : c.ReadsFlash flash) :
    pooledRows c.lib c.qid m c.indices c.b c.g 0 =
      (List.range c.b).map (flashSum flash c.indices c.g) := by
  apply List.map_congr_left
  intro j _
  ext x
  simp only [pooledRow, h.row_eq, flashSum, scaled, Finset.sum_apply, Int.cast_sum,
    Finset.sum_div]

theorem BaseCall.ReadsFlash.pools (h : c.ReadsFlash flash) (hs : L.Agrees flash (s.lru 0))
    {r : Option (ListResult m)} {rate : ℚ} {s' : SlsState L}
    (hrun : slsload .base c.lib c.qid (fun _ => c.indices) 1 c.b c.g s = .ok ((r, rate), s')) :
    PoolsFlash flash c (r, s') := by
  rw [← h.row_eq] at hs
  obtain ⟨hlen, hpos⟩ := slsload_one_ok hs hrun
  obtain ⟨rate', s₁, hrun', hagrees⟩ := slsload_one hs hlen hpos
  rw [hrun] at hrun'
  cases hrun'
  refine ⟨hlen, ?_, ?_⟩
  · rw [pooledRows_flash h]
  · rwa [h.row_eq] at hagrees

theorem BaseCall.ReadsFlash.returns (h : c.ReadsFlash flash) (hs : L.Agrees flash (s.lru 0))
    (hpos : 0 < c.b * c.g) (hlen : c.b * c.g ≤ c.indices.length) :
    ∃ r rate s', slsload .base c.lib c.qid (fun _ => c.indices) 1 c.b c.g s = .ok ((r, rate), s') ∧
      L.Agrees flash (s'.lru 0) := by
  rw [← h.row_eq] at hs ⊢
  obtain ⟨rate, s', hcall, hagrees⟩ := slsload_one hs hlen hpos
  exact ⟨_, rate, s', hcall, hagrees⟩

/-- The calls of a run that returns, one after the other; the cache stays correct. -/
theorem runCalls_pools {calls : List BaseCall} (hs : L.Agrees flash (s.lru 0))
    (hlib : ∀ c ∈ calls, c.ReadsFlash flash) {outs : List (Option (ListResult m) × SlsState L)}
    (hrun : runCalls calls s = .ok outs) : List.Forall₂ (PoolsFlash flash) calls outs := by
  induction calls generalizing s outs with
  | nil =>
    cases hrun
    exact .nil
  | cons c cs ih =>
    obtain ⟨⟨⟨r, rate⟩, s₁⟩, hcall, hrest⟩ := bind_eq_ok hrun
    obtain ⟨outs₁, houts, hret⟩ := bind_eq_ok hrest
    cases hret
    have hpool := (hlib c List.mem_cons_self).pools hs hcall
    have hcs : ∀ c' ∈ cs, c'.ReadsFlash flash := fun c' hm => hlib c' (List.mem_cons_of_mem c hm)
    exact .cons hpool (ih hpool.coherent hcs houts)

theorem runCalls_returns {calls : List BaseCall} (hs : L.Agrees flash (s.lru 0))
    (hlib : ∀ c ∈ calls, c.ReadsFlash flash)
    (hvalid : ∀ c ∈ calls, 0 < c.b * c.g ∧ c.b * c.g ≤ c.indices.length) :
    ∃ outs, runCalls calls s = .ok outs := by
  induction calls generalizing s with
  | nil => exact ⟨[], rfl⟩
  | cons c cs ih =>
    obtain ⟨hpos, hlen⟩ := hvalid c List.mem_cons_self
    obtain ⟨r, rate, s₁, hcall, hagrees⟩ := (hlib c List.mem_cons_self).returns hs hpos hlen
    obtain ⟨outs, hrest⟩ := ih hagrees (fun c' hm => hlib c' (List.mem_cons_of_mem c hm))
      fun c' hm => hvalid c' (List.mem_cons_of_mem c hm)
    refine ⟨(r, s₁) :: outs, ?_⟩
    rw [runCalls, hcall, ok_bind]
    dsimp only
    rw [hrest]
    rfl

end Runs

/-- Every sequence of `base` calls on a cache that holds rows of the flash: each call that
returns pools rows of the flash and leaves such a cache, and calls with lookups in range all
return. -/
theorem base_runs_pool_flash (L : Cache ℕ (IntRow m)) (flash : ℕ → IntRow m)
    (calls : List BaseCall) (s : SlsState L) (hs : L.Agrees flash (s.lru 0))
    (hlib : ∀ c ∈ calls, c.ReadsFlash flash) :
    (∀ outs, runCalls calls s = .ok outs → List.Forall₂ (PoolsFlash flash) calls outs) ∧
      ((∀ c ∈ calls, 0 < c.b * c.g ∧ c.b * c.g ≤ c.indices.length) →
        ∃ outs, runCalls calls s = .ok outs) := by
  constructor
  · intro outs hrun
    exact runCalls_pools hs hlib hrun
  · intro hvalid
    exact runCalls_returns hs hlib hvalid

/-- Component `h` of row `e` is `10 * e + h`; the word behind a row is the elapsed time. -/
def tensLib : FlashRec where
  unvmeReadEmbedding e _ _ _ h := if h < 2 then 10 * e + BitVec.ofNat 32 h else 99
  unvmeSparseLengthSum _ _ := []

def tensFlash (e : ℕ) : IntRow 2 := fun h => 10 * cInt e + BitVec.ofNat 32 h.val

theorem flashSum_tens (indices : List ℕ) (g j : ℕ) (x y : ℤ)
    (hx : ∑ k ∈ Finset.range g, (tensFlash (indices.getD (j * g + k) 0) 0).toInt = x)
    (hy : ∑ k ∈ Finset.range g, (tensFlash (indices.getD (j * g + k) 0) 1).toInt = y) :
    flashSum tensFlash indices g j = ![(x : ℚ) / 1000000, (y : ℚ) / 1000000] := by
  funext h
  fin_cases h
  · simp [flashSum, ← hx]
  · simp [flashSum, ← hy]

/-- Three samples in two calls with repeated indices, on a cache with room for one entry that
holds row 3. -/
theorem base_runs_pool_flash_evicting :
    let calls : List BaseCall := [⟨tensLib, 0, [3, 4], 1, 2⟩, ⟨tensLib, 1, [4, 3], 2, 1⟩]
    let lru := (Lru.recent : Lru ℕ (IntRow 2)).set (Lru.recent.new 1) 3 (tensFlash 3)
    ∃ outs,
      runCalls calls (⟨fun _ => lru, 0, 0, 0, 0, []⟩ : SlsState Lru.recent.toCache) = .ok outs ∧
      outs.map Prod.fst = [some (.ndarray [![70 / 1000000, 72 / 1000000]]),
        some (.ndarray [![40 / 1000000, 41 / 1000000], ![30 / 1000000, 31 / 1000000]])] := by
  intro calls lru
  have hlib : ∀ c ∈ calls, c.ReadsFlash tensFlash := by
    intro c hc e h
    rcases List.mem_pair.mp hc with rfl | rfl
    · exact if_pos h.isLt
    · exact if_pos h.isLt
  obtain ⟨hpools, hreturns⟩ := base_runs_pool_flash Lru.recent.toCache tensFlash calls
    ⟨fun _ => lru, 0, 0, 0, 0, []⟩ ((Cache.agrees_new _ _ _).set 3) hlib
  obtain ⟨outs, houts⟩ := hreturns (by simp [calls])
  refine ⟨outs, houts, ?_⟩
  obtain ⟨o₁, _, h₁, hrest, rfl⟩ := List.forall₂_cons_left_iff.mp (hpools outs houts)
  obtain ⟨o₂, _, h₂, hnil, rfl⟩ := List.forall₂_cons_left_iff.mp hrest
  obtain rfl := List.forall₂_nil_left_iff.mp hnil
  have hone : flashSum tensFlash [3, 4] 2 0 = ![70 / 1000000, 72 / 1000000] :=
    flashSum_tens _ _ _ 70 72 (by decide) (by decide)
  have htwo : flashSum tensFlash [4, 3] 1 0 = ![40 / 1000000, 41 / 1000000] :=
    flashSum_tens _ _ _ 40 41 (by decide) (by decide)
  have hthree : flashSum tensFlash [4, 3] 1 1 = ![30 / 1000000, 31 / 1000000] :=
    flashSum_tens _ _ _ 30 31 (by decide) (by decide)
  rw [List.map_cons, List.map_singleton, h₁.rows, h₂.rows]
  simp [List.range_succ, hone, htwo, hthree]

end EbpfIsp.Recsys
