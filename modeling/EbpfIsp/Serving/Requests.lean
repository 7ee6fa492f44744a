import Mathlib.Tactic

/-! # Requests of the serving benchmark

The packets that travel between the load generator and the inference engines,
the queues they travel on, and how a request is cut into sub-requests.
-/

namespace EbpfIsp.Serving

/-- The command line arguments that the load generator and the engines read.
`possibleArrivalRates` is `np.logspace(.., num=arr_steps)`, with exact rationals. -/
structure Args where
  inferenceEngines : ℕ
  numBatches : ℕ
  nepochs : ℕ
  maxMiniBatchSize : ℤ
  subTaskBatchSize : ℤ
  numIndicesPerLookup : ℤ
  modelGpu : Bool
  tuneBatchQps : Bool
  tuneGpuQps : Bool
  batchConfigs : List ℤ
  gpuConfigs : List ℤ
  schedTimeout : ℤ
  possibleArrivalRates : List ℚ
  avgArrivalRate : ℚ
  targetLatency : ℚ
  stableRegion : ℚ

def Args.arrSteps (args : Args) : ℕ := args.possibleArrivalRates.length

structure ServiceRequest (Time : Type) where
  batchId : ℕ
  epoch : ℕ
  arrivalTime : Time
  batchSize : ℤ
  subId : ℕ
  totalSubBatches : ℕ
  expPacket : Bool
  deriving DecidableEq

structure ServiceResponse (Time : Type) where
  consumerId : ℕ
  epoch : ℕ
  batchId : ℕ
  batchSize : ℤ
  arrivalTime : Time
  queueStartTime : Time
  queueEndTime : Time
  inferenceEndTime : Option Time
  outBatchSize : Option ℚ
  totalSubBatches : ℕ
  expPacket : Bool
  subId : Option ℕ
  deriving DecidableEq

def ServiceRequest.untimed {Time : Type} (r : ServiceRequest Time) : ServiceRequest Unit :=
  { r with arrivalTime := () }

/-- The queues of the benchmark. Engine `i` has an internal queue for responses in progress
and the blob queues of its model. -/
inductive Queue (n : ℕ) (β : Type) where
  | request
  | gpuRequest
  | ready
  | pid
  | generatorReturn
  | response
  | logging (i : Fin n)
  | blob (i : Fin n) (b : β)
  deriving DecidableEq

/-- What the queues carry; `none` is the signal that no more requests come. -/
abbrev Message (Time Tensor : Type) {n : ℕ} {β : Type} : Queue n β → Type
  | .request | .gpuRequest => Option (ServiceRequest Time)
  | .ready => Unit
  | .pid => ℚ
  | .generatorReturn => ℕ × ℕ × ℕ
  | .response | .logging _ => Option (ServiceResponse Time)
  | .blob _ _ => Tensor

/-! ## Sizes of requests -/

/-- One entry of `model_batch_size_distribution`, for the value drawn: it is cut to the
allowed range and truncated. -/
def modelBatchSize (args : Args) (draw : ℚ) : ℤ := ⌊max (min draw args.maxMiniBatchSize) 1⌋

theorem one_le_modelBatchSize (args : Args) (draw : ℚ) : 1 ≤ modelBatchSize args draw := by
  apply Int.le_floor.mpr
  simp

/-! ## Sub-requests -/

def partitionLoop (subTaskBatchSize : ℤ) : ℕ → ℤ → List ℤ → Option (List ℤ)
  | 0, _, _ => none
  | fuel + 1, batchSize, batchSizes =>
    if batchSize > 0 then
      let miniBatchSize := min subTaskBatchSize batchSize
      partitionLoop subTaskBatchSize fuel (batchSize - miniBatchSize)
        (batchSizes ++ [miniBatchSize])
    else some batchSizes

/-- `partition_requests`; `none` if the loop does not end. A round that makes progress takes
away at least one sample, so `batch_size` rounds are as good as any number. -/
def partitionRequests (subTaskBatchSize batchSize : ℤ) : Option (List ℤ) :=
  partitionLoop subTaskBatchSize (batchSize.toNat + 1) batchSize []

/-- Full pieces and a last one for what remains. -/
def pieces (piece total : ℤ) : List ℤ :=
  if total ≤ 0 then [] else
    List.replicate (total / piece).toNat piece ++ if total % piece = 0 then [] else [total % piece]

theorem pieces_of_nonpos {piece total : ℤ} (h : total ≤ 0) : pieces piece total = [] := by
  simp [pieces, h]

/-- The first piece is as large as possible. -/
theorem pieces_cons {piece total : ℤ} (hp : 0 < piece) (ht : 0 < total) :
    pieces piece total = min piece total :: pieces piece (total - min piece total) := by
  rcases lt_or_ge total piece with h | h
  · rw [min_eq_right h.le, sub_self, pieces_of_nonpos le_rfl]
    have hmod : total % piece = total := Int.emod_eq_of_lt ht.le h
    have hdiv : total / piece = 0 := Int.ediv_eq_zero_of_lt ht.le h
    simp [pieces, hmod, hdiv, ht.ne', not_le.mpr ht]
  · rw [min_eq_left h]
    have hdiv : (total / piece).toNat = ((total - piece) / piece).toNat + 1 := by
      have hsub : (total - piece) / piece = total / piece - 1 := by
        rw [Int.sub_ediv_of_dvd _ dvd_rfl, Int.ediv_self hp.ne']
      have hpos : 1 ≤ total / piece := (Int.le_ediv_iff_mul_le hp).mpr (by simpa using h)
      omega
    rcases h.lt_or_eq with hlt | rfl
    · have hrest : 0 < total - piece := by omega
      simp [pieces, not_le.mpr ht, not_le.mpr hrest, hdiv, List.replicate_succ]
    · simp [pieces, not_le.mpr hp, hp.ne']

/-- With a positive sub-task size, enough rounds give the pieces. -/
theorem partitionLoop_pieces {sub : ℤ} (hsub : 0 < sub) {fuel : ℕ} {batchSize : ℤ}
    (hfuel : batchSize.toNat < fuel) (acc : List ℤ) :
    partitionLoop sub fuel batchSize acc = some (acc ++ pieces sub batchSize) := by
  induction fuel generalizing batchSize acc with
  | zero => omega
  | succ fuel ih =>
    by_cases h : 0 < batchSize
    · have hless : (batchSize - min sub batchSize).toNat < fuel := by omega
      simp only [partitionLoop, gt_iff_lt, h, if_true]
      rw [ih hless, pieces_cons hsub h]
      simp
    · simp [partitionLoop, h, pieces_of_nonpos (not_lt.mp h)]

/-- A sub-task size that is not positive takes nothing away: the loop goes on for ever. -/
theorem partitionLoop_none {sub : ℤ} (hsub : sub ≤ 0) {batchSize : ℤ} (h : 0 < batchSize)
    (fuel : ℕ) (acc : List ℤ) : partitionLoop sub fuel batchSize acc = none := by
  induction fuel generalizing batchSize acc with
  | zero => rfl
  | succ fuel ih =>
    have hmin : min sub batchSize = sub := min_eq_left (hsub.trans h.le)
    simp only [partitionLoop, gt_iff_lt, h, if_true, hmin]
    exact ih (by omega) _

theorem partitionLoop_eq_some {sub batchSize : ℤ} {fuel : ℕ} {acc sizes : List ℤ}
    (h : partitionLoop sub fuel batchSize acc = some sizes) :
    (0 < sub ∨ batchSize ≤ 0) ∧ sizes = acc ++ pieces sub batchSize := by
  induction fuel generalizing batchSize acc with
  | zero => simp [partitionLoop] at h
  | succ fuel ih =>
    by_cases hb : 0 < batchSize
    · have hsub : 0 < sub := by
        by_contra hsub
        rw [partitionLoop_none (not_lt.mp hsub) hb] at h
        cases h
      simp only [partitionLoop, gt_iff_lt, hb, if_true] at h
      obtain ⟨-, rfl⟩ := ih h
      exact ⟨.inl hsub, by rw [pieces_cons hsub hb]; simp⟩
    · simp only [partitionLoop, gt_iff_lt, hb, if_false, Option.some.injEq] at h
      exact ⟨.inr (not_lt.mp hb), by simp [pieces_of_nonpos (not_lt.mp hb), h]⟩

theorem partitionRequests_eq_some_iff {sub batchSize : ℤ} {sizes : List ℤ} :
    partitionRequests sub batchSize = some sizes ↔
      (0 < sub ∨ batchSize ≤ 0) ∧ sizes = pieces sub batchSize := by
  constructor
  · intro h
    simpa using partitionLoop_eq_some h
  · rintro ⟨hsub | hb, rfl⟩
    · exact partitionLoop_pieces hsub (Nat.lt_succ_self _) []
    · simp [partitionRequests, partitionLoop, not_lt.mpr hb, pieces_of_nonpos hb]

theorem sum_pieces {piece total : ℤ} (hp : 0 < piece) (ht : 0 ≤ total) :
    (pieces piece total).sum = total := by
  rcases ht.lt_or_eq with ht | rfl
  · have hsplit : total / piece * piece + total % piece = total := Int.ediv_mul_add_emod _ _
    have hdiv : max (total / piece) 0 = total / piece := max_eq_left (Int.ediv_nonneg ht.le hp.le)
    by_cases hm : total % piece = 0 <;> simp [pieces, not_le.mpr ht, hm, hdiv] <;> linarith
  · simp [pieces]

theorem mem_pieces {piece total size : ℤ} (hp : 0 < piece) (h : size ∈ pieces piece total) :
    1 ≤ size ∧ size ≤ piece := by
  by_cases ht : total ≤ 0
  · simp [pieces, ht] at h
  · simp only [pieces, ht, if_false, List.mem_append, List.mem_replicate] at h
    rcases h with ⟨-, rfl⟩ | h
    · exact ⟨hp, le_rfl⟩
    · by_cases hm : total % piece = 0
      · simp [hm] at h
      · simp only [hm, if_false, List.mem_singleton] at h
        have := Int.emod_nonneg total hp.ne'
        have := Int.emod_lt_of_pos total hp
        omega

theorem eq_of_mem_dropLast_pieces {piece total size : ℤ}
    (h : size ∈ (pieces piece total).dropLast) : size = piece := by
  by_cases ht : total ≤ 0
  · simp [pieces, ht] at h
  · by_cases hm : total % piece = 0
    · simp only [pieces, ht, if_false, hm, if_true, List.append_nil] at h
      exact List.eq_of_mem_replicate (List.mem_of_mem_dropLast h)
    · simp only [pieces, ht, if_false, hm, List.dropLast_concat] at h
      exact List.eq_of_mem_replicate h

theorem length_pieces {piece total : ℤ} (hp : 0 < piece) (ht : 0 < total) :
    ((pieces piece total).length : ℤ) = (total + piece - 1) / piece := by
  have hsplit : total / piece * piece + total % piece = total := Int.ediv_mul_add_emod _ _
  have hdiv : max (total / piece) 0 = total / piece := max_eq_left (Int.ediv_nonneg ht.le hp.le)
  have hnonneg := Int.emod_nonneg total hp.ne'
  have hlt := Int.emod_lt_of_pos total hp
  symm
  by_cases hm : total % piece = 0
  · simp only [pieces, not_le.mpr ht, if_false, hm, if_true, List.append_nil,
      List.length_replicate, Int.ofNat_toNat, hdiv]
    rw [Int.ediv_eq_iff_of_pos hp]
    constructor <;> linarith
  · simp only [pieces, not_le.mpr ht, if_false, hm, List.length_append, List.length_replicate,
      List.length_singleton, Nat.cast_add, Int.ofNat_toNat, hdiv, Nat.cast_one]
    rw [Int.ediv_eq_iff_of_pos hp]
    constructor <;> linarith [Int.add_one_le_iff.mpr (lt_of_le_of_ne hnonneg (Ne.symm hm))]

/-- A request is cut exactly. `partition_requests` returns if and only if the sub-task size
is positive or there is nothing to cut. What it returns are full pieces and a last one: they
add up to the request, none is empty or larger than the sub-task size, and there are no more
of them than needed. -/
theorem partition_exact (sub batchSize : ℤ) :
    ((∃ fuel sizes, partitionLoop sub fuel batchSize [] = some sizes) ↔
      0 < sub ∨ batchSize ≤ 0) ∧
    ∀ fuel sizes, partitionLoop sub fuel batchSize [] = some sizes →
      partitionRequests sub batchSize = some sizes ∧
      sizes.sum = max batchSize 0 ∧
      (∀ size ∈ sizes, 1 ≤ size ∧ size ≤ sub) ∧
      (∀ size ∈ sizes.dropLast, size = sub) ∧
      (sizes.length : ℤ) = if 0 < batchSize then (batchSize + sub - 1) / sub else 0 := by
  constructor
  · constructor
    · rintro ⟨fuel, sizes, h⟩
      exact (partitionLoop_eq_some h).1
    · intro h
      exact ⟨_, _, partitionRequests_eq_some_iff.mpr ⟨h, rfl⟩⟩
  · intro fuel sizes h
    have hspec := partitionLoop_eq_some h
    rw [List.nil_append] at hspec
    refine ⟨partitionRequests_eq_some_iff.mpr hspec, ?_⟩
    obtain ⟨hsub, rfl⟩ := hspec
    by_cases hb : 0 < batchSize
    · have hsub : 0 < sub := hsub.resolve_right (not_le.mpr hb)
      refine ⟨?_, fun _ hs => mem_pieces hsub hs, fun _ hs => eq_of_mem_dropLast_pieces hs, ?_⟩
      · rw [sum_pieces hsub hb.le, max_eq_left hb.le]
      · rw [if_pos hb, length_pieces hsub hb]
    · simp [pieces_of_nonpos (not_lt.mp hb), hb, not_lt.mp hb]

end EbpfIsp.Serving
