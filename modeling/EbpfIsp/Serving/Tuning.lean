import EbpfIsp.Serving.Protocol

/-! # Tuning

`HillClimbing` is called for every measured latency. It moves through the list
of arrival rates, and after a fixed number of calls it records a rate for the
configuration and sets up the next one; when all are measured it chooses one
with the least rate. The generator runs it over the sizes of sub-requests, then
over the thresholds for the GPU.

The invariants below hold along every run of the generator, whatever latencies
it is told and whenever.
-/

namespace EbpfIsp.Serving
open Library Library.Queues

variable {n : ℕ} {β Time Tensor : Type} {args : Args} {draws : ℕ → ℚ}

/-! ## The least entry -/

theorem exists_least {l : List ℚ} (h : l ≠ []) : ∃ x ∈ l, ∀ y ∈ l, x ≤ y := by
  induction l with
  | nil => exact absurd rfl h
  | cons a l ih =>
    by_cases hl : l = []
    · exact ⟨a, .head _, by simp [hl]⟩
    · obtain ⟨x, hx, hmin⟩ := ih hl
      rcases le_total a x with hax | hxa
      · refine ⟨a, .head _, fun y hy => ?_⟩
        rcases List.mem_cons.mp hy with rfl | hy
        · exact le_rfl
        · exact hax.trans (hmin y hy)
      · refine ⟨x, .tail _ hx, fun y hy => ?_⟩
        rcases List.mem_cons.mp hy with rfl | hy
        · exact hxa
        · exact hmin y hy

theorem argmin_lt {l : List ℚ} (h : l ≠ []) : argmin l < l.length := by
  obtain ⟨x, hx, hmin⟩ := exists_least h
  exact List.findIdx_lt_length_of_exists ⟨x, hx, by simpa using hmin⟩

theorem Args.startArrId_lt (h : args.possibleArrivalRates ≠ []) :
    args.startArrId < args.arrSteps := by
  have := argmin_lt (l := args.possibleArrivalRates.map fun r => |r - args.avgArrivalRate|)
    (by simpa using h)
  simpa [Args.startArrId, Args.arrSteps] using this

/-! ## One call -/

namespace Climb

def config (c : Climb) : Sweep → ℤ
  | .batch => c.subTaskBatchSize
  | .gpu => c.gpuRequestSizeThres

def flag (c : Climb) : Sweep → Bool
  | .batch => c.tuningBatchQps
  | .gpu => c.tuningGpuQps

end Climb

def Sweep.other : Sweep → Sweep
  | .batch => .gpu
  | .gpu => .batch

/-- A sweep that is not over: one rate is recorded for every configuration before the current
one. -/
structure Measuring (args : Args) (configs : List ℤ) (w : Sweep) (c : Climb) : Prop where
  arrId : c.arrId < args.arrSteps
  recorded : c.configQps.length = c.configAttempt
  attempt : c.configAttempt < configs.length
  flag : c.flag w = true
  exclusive : c.flag w.other = false

theorem nextArrId_spec {arrId : ℕ} (h : arrId < args.arrSteps) (latency : ℚ) :
    (∃ k < args.arrSteps, nextArrId args arrId latency = .ok k) ∨
      args.stableRegion = -1 ∧ nextArrId args arrId latency = .error .zeroDivisionError := by
  unfold nextArrId
  split_ifs with h₁ h₂ h₃ h₄
  · exact .inl ⟨_, by omega, rfl⟩
  · exact .inl ⟨_, h, rfl⟩
  · exact .inr ⟨by linarith, rfl⟩
  · exact .inl ⟨_, by omega, rfl⟩
  · exact .inl ⟨_, h, rfl⟩

/-- What a call of `HillClimbing` returns: it goes on with the configuration, begins the next
one, or has measured all of them and chooses. -/
inductive Outcome (configs : List ℤ) (w : Sweep) (c c' : Climb) : Bool → Prop
  | go (hflag : c'.flag w = true) (hconfig : c'.config w = c.config w)
      (hqps : c'.configQps = c.configQps) (hattempt : c'.configAttempt = c.configAttempt) :
      Outcome configs w c c' false
  | next (hflag : c'.flag w = true)
      (hconfig : configs[c.configAttempt + 1]? = some (c'.config w))
      (hqps : c'.configQps.length = c.configAttempt + 1)
      (hattempt : c'.configAttempt = c.configAttempt + 1) :
      Outcome configs w c c' true
  | choose (hflag : c'.flag w = false)
      (hconfig : configs[argmin c'.configQps]? = some (c'.config w))
      (hqps : c'.configQps.length = configs.length) :
      Outcome configs w c c' true

theorem finishConfig_spec {configs : List ℤ} {w : Sweep} {c : Climb}
    (h : Measuring args configs w c) (hrates : args.possibleArrivalRates ≠ []) :
    ∃ c', finishConfig args configs c = .ok c' ∧ c'.arrId < args.arrSteps ∧
      c'.config w.other = c.config w.other ∧ c'.flag w.other = c.flag w.other ∧
      Outcome configs w c c' true := by
  obtain ⟨harr, hrec, hatt, hflag, hexcl⟩ := h
  generalize hq : median (c.triedArrivalRates.drop (c.triedArrivalRates.length - args.arrSteps)) = q
  by_cases hlast : c.configAttempt + 1 = configs.length
  · -- all configurations are measured
    have hlen : (c.configQps ++ [q]).length = configs.length := by simp [hrec, hlast]
    have hlt : argmin (c.configQps ++ [q]) < configs.length := by
      rw [← hlen]
      exact argmin_lt (by simp)
    have hget := item_eq_ok (List.getElem?_eq_getElem hlt)
    have hfin : finishConfig args configs c = .ok
        { ({ c with
              configQps := c.configQps ++ [q]
              configAttempt := c.configAttempt + 1
              qpsTried := 0 }.setConfig configs[argmin (c.configQps ++ [q])]).stopTuning with
          arrivalRate := (c.configQps ++ [q]).min?.getD 0 } := by
      simp only [finishConfig, hq, hlen, if_true, hget]
      rfl
    refine ⟨_, hfin, ?_, ?_, ?_, .choose ?_ ?_ ?_⟩ <;> cases w <;>
      simp_all [Climb.setConfig, Climb.stopTuning, Climb.flag, Climb.config, Sweep.other]
  · have hlen : ¬ (c.configQps ++ [q]).length = configs.length := by simp [hrec, hlast]
    have hlt : c.configAttempt + 1 < configs.length := by omega
    have hget := item_eq_ok (List.getElem?_eq_getElem hlt)
    have hfin : finishConfig args configs c = .ok
        { { c with
              configQps := c.configQps ++ [q]
              configAttempt := c.configAttempt + 1
              qpsTried := 0 }.setConfig configs[c.configAttempt + 1] with
          triedArrivalRates := []
          arrivalRate := args.avgArrivalRate
          arrId := args.startArrId } := by
      simp only [finishConfig, hq, hlen, if_false, hget]
      rfl
    have hstart := Args.startArrId_lt hrates
    refine ⟨_, hfin, ?_, ?_, ?_, .next ?_ ?_ ?_ ?_⟩ <;> cases w <;>
      simp_all [Climb.setConfig, Climb.flag, Climb.config, Sweep.other]

/-- What a call of `HillClimbing` does while a sweep is running. -/
theorem hillClimbing_spec {configs : List ℤ} {w : Sweep} {c : Climb}
    (h : Measuring args configs w c) (latency : ℚ) :
    (∃ c' drain, hillClimbing args configs c latency = .ok (c', drain) ∧
      c'.arrId < args.arrSteps ∧ c'.config w.other = c.config w.other ∧
      c'.flag w.other = c.flag w.other ∧ Outcome configs w c c' drain) ∨
    args.stableRegion = -1 ∧ hillClimbing args configs c latency = .error .zeroDivisionError := by
  rcases nextArrId_spec h.arrId latency with ⟨k, hlt, hnext⟩ | ⟨hregion, hnext⟩
  · have hget : item args.possibleArrivalRates k = .ok (args.possibleArrivalRates[k]) :=
      item_eq_ok (List.getElem?_eq_getElem hlt)
    have hrates : args.possibleArrivalRates ≠ [] :=
      List.ne_nil_of_length_pos (Nat.zero_lt_of_lt hlt)
    generalize args.possibleArrivalRates[k] = rate at hget
    let c₁ : Climb := { c with
      arrId := k
      arrivalRate := rate
      triedArrivalRates := c.triedArrivalRates ++ [rate]
      qpsTried := c.qpsTried + 1 }
    have hm : Measuring args configs w c₁ := by
      refine ⟨hlt, h.recorded, h.attempt, ?_, ?_⟩
      · cases w <;> exact h.flag
      · cases w <;> exact h.exclusive
    refine .inl ?_
    by_cases htime : ((c.qpsTried + 1 : ℕ) : ℤ) > args.schedTimeout
    · obtain ⟨c', hfin, harr, hother, hflag, hout⟩ := finishConfig_spec hm hrates
      refine ⟨c', true, ?_, harr, ?_, ?_, ?_⟩
      · rw [hillClimbing, hnext, ok_bind, hget, ok_bind]
        dsimp only
        rw [if_pos htime]
        change (finishConfig args configs c₁ >>= _) = _
        rw [hfin]
        rfl
      · cases w <;> exact hother
      · cases w <;> exact hflag
      · cases hout with
        | next hf hc hq ha => exact .next hf hc hq ha
        | choose hf hc hq => exact .choose hf hc hq
    · refine ⟨c₁, false, ?_, hlt, ?_, ?_, .go hm.flag ?_ rfl rfl⟩
      · rw [hillClimbing, hnext, ok_bind, hget, ok_bind]
        dsimp only
        rw [if_neg htime]
        rfl
      · cases w <;> rfl
      · cases w <;> rfl
      · cases w <;> rfl
  · refine .inr ⟨hregion, ?_⟩
    rw [hillClimbing, hnext, error_bind]

/-! ## Whole runs -/

def GenPc.sweep : GenPc Time → Option Sweep
  | .climb w _ | .drainRequests w _ | .dropRequest w _ | .drainGpu w _ | .dropGpu w _
  | .awaitRequests w _ | .awaitGpu w _ | .drainPid w _ | .dropPid w _ | .climbed w _ => some w
  | _ => none

/-- The invariant of a generator that tunes. The first threshold measured is the initial one,
1024, and not the first of the list. -/
structure Tuned (args : Args) (s : Gen Time) : Prop where
  raised : s.pc = .raised → args.stableRegion = -1
  arrId : s.arrId < args.arrSteps
  ready : ∀ k, s.pc = .ready k → s.batchConfigAttempt = 0 ∧ s.tuningBatchQps = true
  fresh : s.tuningBatchQps = true ∨ s.pc.sweep = some .batch →
    s.gpuConfigQps = [] ∧ s.tuningGpuQps = false ∧ s.gpuRequestSizeThres = 1024
  climbBatch : ∀ b, s.pc = .climb .batch b → s.tuningBatchQps = true
  climbGpu : ∀ b, s.pc = .climb .gpu b → s.tuningGpuQps = true
  batch : s.tuningBatchQps = true →
    s.batchConfigQps.length = s.batchConfigAttempt ∧
    s.batchConfigAttempt < args.batchConfigs.length ∧
    ((∀ k, s.pc ≠ .ready k) →
      args.batchConfigs[s.batchConfigAttempt]? = some s.subTaskBatchSize)
  chosen : s.tuningBatchQps = false →
    s.batchConfigQps.length = args.batchConfigs.length ∧
    args.batchConfigs[argmin s.batchConfigQps]? = some s.subTaskBatchSize
  gpu : s.tuningGpuQps = true →
    s.gpuConfigQps.length = s.gpuConfigAttempt ∧
    s.gpuConfigAttempt < args.gpuConfigs.length ∧
    (if s.gpuConfigAttempt = 0 then s.gpuRequestSizeThres = 1024
      else args.gpuConfigs[s.gpuConfigAttempt]? = some s.gpuRequestSizeThres)

section Runs
variable {s s' : Gen Time} {a : Act (Queue n β) (Message Time Tensor)}

theorem Tuned.start (ht : args.tuneBatchQps = true) (hb : args.batchConfigs ≠ [])
    (hr : args.possibleArrivalRates ≠ []) : Tuned args (args.start : Gen Time) where
  raised := by simp [Args.start]
  arrId := Args.startArrId_lt hr
  ready _ _ := ⟨rfl, ht⟩
  fresh _ := ⟨rfl, rfl, rfl⟩
  climbBatch := by simp [Args.start]
  climbGpu := by simp [Args.start]
  batch _ := ⟨rfl, List.length_pos_iff.mpr hb, fun h => absurd rfl (h 0)⟩
  chosen h := by simp [Args.start, ht] at h
  gpu h := by simp [Args.start] at h

theorem Tuned.keep (h : Tuned args s) {t : Gen Time} (hclimb : t.toClimb = s.toClimb)
    (hraised : t.pc = .raised → args.stableRegion = -1) (hnot : ∀ k, s.pc ≠ .ready k)
    (hready : ∀ k, t.pc ≠ .ready k)
    (hsweep : t.pc.sweep = some .batch → s.tuningBatchQps = true ∨ s.pc.sweep = some .batch)
    (hbatch : ∀ b, t.pc = .climb .batch b → s.tuningBatchQps = true)
    (hgpu : ∀ b, t.pc = .climb .gpu b → s.tuningGpuQps = true) : Tuned args t := by
  have hb := congrFun hclimb .batch
  have hg := congrFun hclimb .gpu
  simp only [Gen.toClimb, Climb.mk.injEq] at hb hg
  obtain ⟨hsub, hthres, -, harr, -, hbq, hba, htb, htg, -⟩ := hb
  obtain ⟨-, -, -, -, -, hgq, hga, -, -, -⟩ := hg
  obtain ⟨-, h₁, h₂, h₃, h₄, h₅, h₆, h₇, h₈⟩ := h
  refine ⟨hraised, ?_, fun k hk => absurd hk (hready k), ?_, ?_, ?_, ?_, ?_, ?_⟩
  · rw [harr]; exact h₁
  · rw [hgq, htg, hthres, htb]
    exact fun h => h₃ (h.elim .inl hsweep)
  · rw [htb]; exact hbatch
  · rw [htg]; exact hgpu
  · rw [htb, hbq, hba, hsub]
    intro ht
    obtain ⟨hlen, hlt, hconfig⟩ := h₆ ht
    exact ⟨hlen, hlt, fun _ => hconfig hnot⟩
  · rw [htb, hbq, hsub]; exact h₇
  · rw [htg, hgq, hga, hthres]; exact h₈

theorem Tuned.goto (h : Tuned args s) {pc : GenPc Time}
    (hraised : pc = .raised → args.stableRegion = -1)
    (hnot : ∀ k, s.pc ≠ .ready k) (hready : ∀ k, pc ≠ .ready k)
    (hsweep : pc.sweep = none ∨ pc.sweep = s.pc.sweep ∧ ∀ w b, pc ≠ .climb w b) :
    Tuned args (s.goto pc) := by
  refine h.keep rfl hraised hnot hready ?_ ?_ ?_
  · intro hs
    rcases hsweep with hnone | ⟨hsame, -⟩
    · simp [Gen.goto, hnone] at hs
    · exact .inr (hsame ▸ hs)
  · intro b hb
    simp only [Gen.goto] at hb
    rcases hsweep with hnone | ⟨-, hne⟩
    · simp [hb, GenPc.sweep] at hnone
    · exact absurd hb (hne _ _)
  · intro b hb
    simp only [Gen.goto] at hb
    rcases hsweep with hnone | ⟨-, hne⟩
    · simp [hb, GenPc.sweep] at hnone
    · exact absurd hb (hne _ _)

theorem Tuned.climbed_batch (h : Tuned args s) {b : ℕ} (hpc : s.pc = .climb .batch b)
    {c : Climb} {drain : Bool} (harr : c.arrId < args.arrSteps)
    (hother : c.config .gpu = (s.toClimb .batch).config .gpu)
    (hflag : c.flag .gpu = (s.toClimb .batch).flag .gpu)
    (hout : Outcome args.batchConfigs .batch (s.toClimb .batch) c drain) :
    Tuned args ((s.ofClimb .batch c).goto
      (if drain then .drainRequests .batch b else .climbed .batch b)) := by
  have ht := h.climbBatch b hpc
  obtain ⟨hq, hg, hthres⟩ := h.fresh (.inl ht)
  obtain ⟨hlen, hlt, hconfig⟩ := h.batch ht
  have hconfig := hconfig (by simp [hpc])
  simp only [Climb.config, Climb.flag, Gen.toClimb] at hother hflag
  refine ⟨?_, harr, ?_, fun _ => ⟨hq, hflag.trans hg, hother.trans hthres⟩, ?_, ?_, ?_, ?_, ?_⟩
  · cases drain <;> simp [Gen.goto]
  · cases drain <;> simp [Gen.goto]
  · cases drain <;> simp [Gen.goto]
  · cases drain <;> simp [Gen.goto]
  · intro ht'
    cases hout with
    | go hf hc hqps ha =>
      simp only [Climb.config, Gen.toClimb] at hc hqps ha
      simp only [Gen.goto, Gen.ofClimb, hc, hqps, ha]
      exact ⟨hlen, hlt, fun _ => hconfig⟩
    | next hf hc hqps ha =>
      simp only [Climb.config, Gen.toClimb] at hc hqps ha
      simp only [Gen.goto, Gen.ofClimb, hqps, ha]
      exact ⟨trivial, (List.getElem?_eq_some_iff.mp hc).1, fun _ => hc⟩
    | choose hf hc hqps => exact absurd ht' (by simpa [Gen.goto, Gen.ofClimb, Climb.flag] using hf)
  · intro hf'
    cases hout with
    | go hf hc hqps ha => exact absurd hf (by simpa [Gen.goto, Gen.ofClimb, Climb.flag] using hf')
    | next hf hc hqps ha => exact absurd hf (by simpa [Gen.goto, Gen.ofClimb, Climb.flag] using hf')
    | choose hf hc hqps => exact ⟨hqps, hc⟩
  · intro hg'
    simp only [Gen.goto, Gen.ofClimb, hflag, hg] at hg'
    cases hg'

theorem Tuned.climbed_gpu (h : Tuned args s) {b : ℕ} (hpc : s.pc = .climb .gpu b)
    {c : Climb} {drain : Bool} (harr : c.arrId < args.arrSteps)
    (hother : c.config .batch = (s.toClimb .gpu).config .batch)
    (hflag : c.flag .batch = (s.toClimb .gpu).flag .batch)
    (hout : Outcome args.gpuConfigs .gpu (s.toClimb .gpu) c drain) :
    Tuned args ((s.ofClimb .gpu c).goto
      (if drain then .drainRequests .gpu b else .climbed .gpu b)) := by
  have ht := h.climbGpu b hpc
  have hbatch : s.tuningBatchQps = false := by
    by_contra hb
    have := (h.fresh (.inl (Bool.eq_true_of_not_eq_false hb))).2.1
    rw [ht] at this
    cases this
  obtain ⟨hlen, hlt, hconfig⟩ := h.gpu ht
  simp only [Climb.config, Climb.flag, Gen.toClimb] at hother hflag
  refine ⟨?_, harr, ?_, ?_, ?_, ?_, ?_, ?_, ?_⟩
  · cases drain <;> simp [Gen.goto]
  · cases drain <;> simp [Gen.goto]
  · rintro (hb | hs)
    · simp only [Gen.goto, Gen.ofClimb, hflag, hbatch] at hb
      cases hb
    · cases drain <;> simp [Gen.goto, GenPc.sweep] at hs
  · cases drain <;> simp [Gen.goto]
  · cases drain <;> simp [Gen.goto]
  · intro hb
    simp only [Gen.goto, Gen.ofClimb, hflag, hbatch] at hb
    cases hb
  · intro _
    simp only [Gen.goto, Gen.ofClimb, hother]
    exact h.chosen hbatch
  · intro ht'
    cases hout with
    | go hf hc hqps ha =>
      simp only [Climb.config, Gen.toClimb] at hc hqps ha
      simp only [Gen.goto, Gen.ofClimb, hc, hqps, ha]
      exact ⟨hlen, hlt, hconfig⟩
    | next hf hc hqps ha =>
      simp only [Climb.config, Gen.toClimb] at hc hqps ha
      simp only [Gen.goto, Gen.ofClimb, hqps, ha]
      exact ⟨trivial, (List.getElem?_eq_some_iff.mp hc).1, by simpa using hc⟩
    | choose hf hc hqps => exact absurd ht' (by simpa [Gen.goto, Gen.ofClimb, Climb.flag] using hf)

theorem Tuned.measuring (h : Tuned args s) {w : Sweep} {b : ℕ} (hpc : s.pc = .climb w b) :
    Measuring args (args.configs w) w (s.toClimb w) := by
  cases w with
  | batch =>
    have ht := h.climbBatch b hpc
    obtain ⟨hlen, hlt, -⟩ := h.batch ht
    exact ⟨h.arrId, hlen, hlt, ht, (h.fresh (.inl ht)).2.1⟩
  | gpu =>
    have ht := h.climbGpu b hpc
    obtain ⟨hlen, hlt, -⟩ := h.gpu ht
    refine ⟨h.arrId, hlen, hlt, ht, ?_⟩
    by_contra hb
    have hfresh := (h.fresh (.inl (Bool.eq_true_of_not_eq_false hb))).2.1
    rw [ht] at hfresh
    cases hfresh

theorem Tuned.step (h : Tuned args s) (hb : args.batchConfigs ≠ []) (hg : args.gpuConfigs ≠ [])
    (hr : args.possibleArrivalRates ≠ []) (hs : GenStep args draws s a s') : Tuned args s' := by
  cases hs with
  | ready hpc hk =>
    obtain ⟨hatt, ht⟩ := h.ready _ hpc
    exact ⟨by simp [Gen.goto], h.arrId, fun _ _ => ⟨hatt, ht⟩, fun _ => h.fresh (.inl ht),
      by simp [Gen.goto], by simp [Gen.goto],
      fun ht => ⟨(h.batch ht).1, (h.batch ht).2.1, fun hne => absurd rfl (hne _)⟩,
      h.chosen, h.gpu⟩
  | begin hpc hk =>
    obtain ⟨hatt, ht⟩ := h.ready _ hpc
    obtain ⟨config, rest, hc⟩ := List.exists_cons_of_ne_nil hb
    have hget : args.batchConfigs[0]? = some config := by rw [hc]; rfl
    have hne : args.possibleArrivalRates.isEmpty = false := by simpa using hr
    have hbegin : s.begin args = { s with subTaskBatchSize := config, pc := .outer } := by
      simp [Gen.begin, hne, ht, hget]
    rw [hbegin]
    exact ⟨by simp, h.arrId, by simp, fun _ => h.fresh (.inl ht), by simp, by simp,
      fun ht => ⟨(h.batch ht).1, (h.batch ht).2.1, fun _ => by rw [hatt, hget]⟩,
      fun hf => absurd ht (by simp_all), h.gpu⟩
  | @climb w b latency c drain hpc hc =>
    rcases hillClimbing_spec (h.measuring hpc) latency with
      ⟨c', drain', hc', harr, hother, hflag, hout⟩ | ⟨-, hc'⟩
    · rw [hc, Except.ok.injEq, Prod.mk.injEq] at hc'
      obtain ⟨rfl, rfl⟩ := hc'
      cases w with
      | batch => exact h.climbed_batch hpc harr hother hflag hout
      | gpu => exact h.climbed_gpu hpc harr hother hflag hout
    · rw [hc] at hc'
      cases hc'
  | @raise w b latency e hpc hc =>
    rcases hillClimbing_spec (h.measuring hpc) latency with ⟨c', drain', hc', -⟩ | ⟨hregion, -⟩
    · rw [hc] at hc'
      cases hc'
    · exact h.goto (fun _ => hregion) (by simp [hpc]) (by simp) (.inl rfl)
  | @climbedBatch b hpc =>
    split_ifs with ht
    · exact h.goto (by simp) (by simp [hpc]) (by simp) (.inl rfl)
    · -- the second sweep begins
      have hf : s.tuningBatchQps = false := Bool.eq_false_iff.mpr ht
      obtain ⟨hq, hgf, hthres⟩ := h.fresh (.inr (by rw [hpc]; rfl))
      refine ⟨by simp [Gen.goto], Args.startArrId_lt hr, by simp [Gen.goto], ?_, by simp [Gen.goto],
        by simp [Gen.goto], fun ht' => absurd ht' ht, h.chosen, ?_⟩
      · rintro (ht' | hs)
        · exact absurd ht' ht
        · simp [Gen.goto, GenPc.sweep] at hs
      · exact fun _ => ⟨rfl, List.length_pos_iff.mpr hg, hthres⟩
  | @probe b hpc hlt ht size =>
    split_ifs
    · exact h.keep rfl (by simp [Gen.goto]) (by simp [hpc]) (by simp [Gen.goto])
        (fun _ => .inl ht) (fun _ _ => ht) (by simp [Gen.goto])
    · exact h.goto (by simp) (by simp [hpc]) (by simp) (.inl rfl)
  | @probeGpu b hpc hmodel ht size =>
    split_ifs
    · exact h.keep rfl (by simp [Gen.goto]) (by simp [hpc]) (by simp [Gen.goto])
        (by simp [Gen.goto, GenPc.sweep]) (by simp [Gen.goto]) (fun _ _ => ht)
    · exact h.goto (by simp) (by simp [hpc]) (by simp) (.inl rfl)
  | drainRequests hpc size | drainGpu hpc size | awaitRequests hpc size | awaitGpu hpc size
  | drainPid hpc size =>
    split_ifs <;>
      exact h.goto (by simp) (by simp [hpc]) (by simp) (.inr (by simp [hpc, GenPc.sweep]))
  | dropRequest hpc | dropGpu hpc | dropPid hpc =>
    exact h.goto (by simp) (by simp [hpc]) (by simp) (.inr (by simp [hpc, GenPc.sweep]))
  | spin => exact h
  | dispatchGpu hpc | stamp hpc | sent hpc | endEpoch hpc =>
    exact h.keep rfl (by simp) (by simp [hpc]) (by simp) (by simp [GenPc.sweep]) (by simp) (by simp)
  | epoch hpc | finish hpc | skip hpc | lastBatch hpc | climbedGpu hpc | skipGpu hpc | cut hpc
  | enqueueGpu hpc | enqueue hpc | signalGpu hpc | signal hpc | signalled hpc | report hpc =>
    exact h.goto (by simp) (by simp [hpc]) (by simp) (.inl rfl)

end Runs

end EbpfIsp.Serving
