import EbpfIsp.Serving.Protocol

/-! # Runs of the load generator

What the generator has sent when it returns. Whatever it was told while it ran,
the requests of every epoch are sent in order and completely, and the counters
that it returns are right. If it does not tune, its surroundings have no
influence at all: what it sends is known beforehand, and so is a bound on the
number of its steps.
-/

namespace EbpfIsp.Serving
open Library.Queues

variable {n : ℕ} {β Time Tensor : Type} [DecidableEq β] {args : Args} {draws : ℕ → ℚ}
  {as : List (Act (Queue n β) (Message Time Tensor))} {s s' : Gen Time}
  {a : Act (Queue n β) (Message Time Tensor)}

/-! ## All requests of all epochs -/

/-- What the generator has sent when it returns, however it was tuned. Request by request and
epoch by epoch, every request of the data set is sent, to the GPU or as its sub-requests in
order; the samples sent are those of all epochs; then come the signals. The counters that are
returned count the sub-requests, the requests that were cut and those for the GPU. -/
theorem generator_output (h : Trace (loadGenerator args draws) args.start as s)
    (hret : s.pc = .returned) :
    args.nepochs ≤ s.epoch ∧ ∃ (ds : List Dispatch) (rs gs : List (ServiceRequest Time)),
      (∀ d ∈ ds, d.Valid args draws) ∧
      ds.map (fun d => (d.epoch, d.batchId)) =
        (List.range (s.epoch * args.numBatches)).map
          (fun id => (id / args.numBatches, id % args.numBatches)) ∧
      rs.map ServiceRequest.untimed = ds.flatMap (Dispatch.cpuRequests args draws) ∧
      gs.map ServiceRequest.untimed = ds.flatMap (Dispatch.gpuRequests args draws) ∧
      (rs.map ServiceRequest.batchSize).sum + (gs.map ServiceRequest.batchSize).sum =
        s.epoch * ((List.range args.numBatches).map fun b => modelBatchSize args (draws b)).sum ∧
      puts .request as =
        rs.map some ++ List.replicate (args.cpuSignals args.inferenceEngines) none ∧
      puts .gpuRequest as =
        gs.map some ++ List.replicate (args.gpuSignals args.inferenceEngines) none ∧
      puts .generatorReturn as =
        [(rs.length, ds.countP (!·.gpu args draws), ds.countP (·.gpu args draws))] := by
  obtain ⟨ds, rs, gs, hs⟩ := sent_of_trace h
  have hlen : ds.length = s.epoch * args.numBatches := by
    simpa [hret, GenPc.inEpoch] using hs.count
  have hpend : s.pending = [] := by simp [hret, Gen.pending]
  have hpendGpu : s.pendingGpu = [] := by simp [hret, Gen.pendingGpu]
  refine ⟨nepochs_le_of_trace h (by rw [hret]; trivial), ds, rs, gs, hs.valid, hlen ▸ hs.pairs, ?_,
    ?_, ?_, ?_, ?_, ?_⟩
  · simpa [hpend] using hs.sent
  · simpa [hpendGpu] using hs.sentGpu
  · exact hs.samples hpend hpendGpu hlen
  · simpa [hret, GenPc.signals] using hs.request
  · simpa [hret, GenPc.signals] using hs.gpuRequest
  · have hsub := hs.cpuSub
    have hcpu := hs.cpu
    simp only [hret, GenPc.stamped, GenPc.open_, Nat.add_zero] at hsub hcpu
    rw [hs.reported, Gen.reports, hret, hsub, hcpu, hs.gpu]

theorem generator_output_small :
    ∃ (ds : List Dispatch) (rs gs : List (ServiceRequest Unit)),
      ds.map (fun d => (d.epoch, d.batchId)) = [(0, 0)] ∧
      (rs.map ServiceRequest.batchSize).sum + (gs.map ServiceRequest.batchSize).sum = 3 ∧
      puts .generatorReturn (Setup.smallEnd.1.own .generator) = [(rs.length, 1, 0)] := by
  obtain ⟨-, ds, rs, gs, -, hds, -, -, hsum, -, -, hret⟩ :=
    generator_output (Setup.smallEnd.2.trace .generator) rfl
  have hreported : puts .generatorReturn (Setup.smallEnd.1.own .generator) = [(2, 1, 0)] := by
    decide +kernel
  refine ⟨ds, rs, gs, hds, hsum.trans (by decide +kernel), ?_⟩
  rw [hreported] at hret ⊢
  simp_all

/-! ## Runs without tuning -/

/-- Where a generator that does not tune can stand in epoch `e`. -/
def GenPc.Plain (args : Args) (e : ℕ) : GenPc Time → Prop
  | .ready _ | .outer => e ≤ args.nepochs
  | .batch _ | .gpuTuning _ | .dispatch _ | .enqueueGpu _ _ _ | .send _ _ _ _
  | .enqueue _ _ _ _ _ _ | .endEpoch => e < args.nepochs
  | .signal _ | .report | .returned => e = args.nepochs
  | .raised => args.possibleArrivalRates = []
  | _ => False

/-- The state of a generator that does not tune: the configuration is the initial one. -/
structure Untuned (args : Args) (s : Gen Time) : Prop where
  batch : s.tuningBatchQps = false
  gpu : s.tuningGpuQps = false
  subTask : s.subTaskBatchSize = args.subTaskBatchSize
  thres : s.gpuRequestSizeThres = 1024
  epochs : s.expEpochs = s.epoch
  plain : s.pc.Plain args s.epoch

theorem Untuned.start (h : args.tuneBatchQps = false) : Untuned args (args.start : Gen Time) :=
  ⟨h, rfl, rfl, rfl, rfl, Nat.zero_le _⟩

theorem Untuned.goto (h : Untuned args s) {pc : GenPc Time} (hpc : pc.Plain args s.epoch) :
    Untuned args (s.goto pc) :=
  ⟨h.batch, h.gpu, h.subTask, h.thres, h.epochs, hpc⟩

def Args.batchSteps (args : Args) (draws : ℕ → ℚ) (b : ℕ) : ℕ :=
  2 * (pieces args.subTaskBatchSize (modelBatchSize args (draws b))).length + 4

def Args.stepsFrom (args : Args) (draws : ℕ → ℚ) (b : ℕ) : ℕ :=
  ∑ b ∈ Finset.Ico b args.numBatches, args.batchSteps draws b + 2

theorem Args.stepsFrom_succ (args : Args) (draws : ℕ → ℚ) {b : ℕ} (h : b < args.numBatches) :
    args.stepsFrom draws b = args.batchSteps draws b + args.stepsFrom draws (b + 1) := by
  rw [stepsFrom, Finset.sum_eq_sum_Ico_succ_bot h, stepsFrom, Nat.add_assoc]

def Args.stepsFromEpoch (args : Args) (draws : ℕ → ℚ) (e : ℕ) : ℕ :=
  (args.nepochs - e) * (args.stepsFrom draws 0 + 1) + args.inferenceEngines + 3

theorem Args.stepsFromEpoch_succ (args : Args) (draws : ℕ → ℚ) {e : ℕ} (h : e < args.nepochs) :
    args.stepsFromEpoch draws e =
      args.stepsFrom draws 0 + 1 + args.stepsFromEpoch draws (e + 1) := by
  have he : args.nepochs - e = args.nepochs - (e + 1) + 1 := by omega
  rw [stepsFromEpoch, he, stepsFromEpoch]
  ring

/-- The steps that a generator without tuning has left, at most. -/
def Gen.left (args : Args) (draws : ℕ → ℚ) (s : Gen Time) : ℕ :=
  let epochs := args.stepsFromEpoch draws (s.epoch + 1)
  match s.pc with
  | .ready k => args.inferenceEngines - k + 1 + args.stepsFromEpoch draws s.epoch
  | .outer => args.stepsFromEpoch draws s.epoch
  | .batch b => args.stepsFrom draws b + epochs
  | .gpuTuning b => args.batchSteps draws b - 1 + args.stepsFrom draws (b + 1) + epochs
  | .dispatch b => args.batchSteps draws b - 2 + args.stepsFrom draws (b + 1) + epochs
  | .enqueueGpu b _ _ => 1 + args.stepsFrom draws (b + 1) + epochs
  | .send b _ _ rest => 2 * rest.length + 1 + args.stepsFrom draws (b + 1) + epochs
  | .enqueue b _ _ _ rest _ => 2 * rest.length + 2 + args.stepsFrom draws (b + 1) + epochs
  | .endEpoch => 1 + epochs
  | .signal i => args.inferenceEngines - i + 2
  | .report => 1
  | _ => 0

attribute [local simp] Gen.left Gen.goto

omit [DecidableEq β] in
/-- One step of a generator without tuning. If requests can be cut, it comes closer to its
end. -/
theorem Untuned.step (h : Untuned args s) (hs : GenStep args draws s a s') :
    Untuned args s' ∧
      (0 < args.subTaskBatchSize → s'.left args draws < s.left args draws) := by
  have hp := h.plain
  cases hs with
  | ready hpc hk =>
    rw [hpc] at hp
    exact ⟨h.goto hp, fun _ => by simp [hpc]; omega⟩
  | begin hpc hk =>
    rw [hpc] at hp
    simp only [Gen.begin, h.batch, Bool.false_eq_true, if_false]
    split_ifs with hrates
    · exact ⟨h.goto (by simpa [GenPc.Plain] using hrates), fun _ => by simp [hpc]⟩
    · exact ⟨h.goto hp, fun _ => by simp [hpc]⟩
  | epoch hpc he =>
    have hlt : s.epoch < args.nepochs := by simpa [h.batch, h.epochs] using he
    exact ⟨h.goto hlt, fun _ => by simp [hpc, args.stepsFromEpoch_succ draws hlt]⟩
  | finish hpc ht he =>
    rw [hpc] at hp
    rw [h.epochs] at he
    exact ⟨h.goto (le_antisymm hp he), fun _ => by simp [hpc, Args.stepsFromEpoch]⟩
  | probe hpc hb ht size => simp [h.batch] at ht
  | skip hpc hb ht =>
    rw [hpc] at hp
    exact ⟨h.goto hp, fun _ => by simp [hpc, args.stepsFrom_succ draws hb, Args.batchSteps]⟩
  | lastBatch hpc hb =>
    rw [hpc] at hp
    exact ⟨h.goto hp, fun _ => by simp [hpc, Args.stepsFrom]⟩
  | probeGpu hpc hg ht size => simp [h.gpu] at ht
  | skipGpu hpc =>
    rw [hpc] at hp
    exact ⟨h.goto hp, fun _ => by simp [hpc, Args.batchSteps]⟩
  | dispatchGpu hpc hg hsize t =>
    rw [hpc] at hp
    exact ⟨⟨h.batch, h.gpu, h.subTask, h.thres, h.epochs, hp⟩, fun _ => by
      simp [hpc, Args.batchSteps]⟩
  | cut hpc hg hsub =>
    rw [hpc] at hp
    exact ⟨h.goto hp, fun _ => by simp [hpc, Args.batchSteps, h.subTask]⟩
  | spin hpc hsub =>
    rw [h.subTask] at hsub
    exact ⟨h, fun hpos => absurd hpos (not_lt.mpr hsub)⟩
  | enqueueGpu hpc | enqueue hpc | report hpc =>
    rw [hpc] at hp
    exact ⟨h.goto hp, fun _ => by simp [hpc]⟩
  | sent hpc =>
    rw [hpc] at hp
    exact ⟨⟨h.batch, h.gpu, h.subTask, h.thres, h.epochs, hp⟩, fun _ => by simp [hpc]⟩
  | stamp hpc t =>
    rw [hpc] at hp
    exact ⟨⟨h.batch, h.gpu, h.subTask, h.thres, h.epochs, hp⟩, fun _ => by simp [hpc]; omega⟩
  | endEpoch hpc =>
    rw [hpc] at hp
    exact ⟨⟨h.batch, h.gpu, h.subTask, h.thres, by simp [h.batch, h.gpu, h.epochs], hp⟩,
      fun _ => by simp [hpc]⟩
  | signalGpu hpc hi hg | signal hpc hi hg =>
    rw [hpc] at hp
    exact ⟨h.goto hp, fun _ => by simp [hpc]; omega⟩
  | signalled hpc hi =>
    rw [hpc] at hp
    exact ⟨h.goto hp, fun _ => by simp [hpc]⟩
  | climb hpc | raise hpc | drainRequests hpc | dropRequest hpc | drainGpu hpc | dropGpu hpc
  | awaitRequests hpc | awaitGpu hpc | drainPid hpc | dropPid hpc | climbedBatch hpc
  | climbedGpu hpc =>
    rw [hpc] at hp
    exact hp.elim

omit [DecidableEq β] in
/-- How long a generator without tuning runs. -/
theorem length_le_left (hargs : args.tuneBatchQps = false) (hsub : 0 < args.subTaskBatchSize)
    (h : Trace (loadGenerator args draws) args.start as s) :
    as.length + s.left args draws ≤ (args.start : Gen Time).left args draws := by
  refine (h.invariant (I := fun as s => Untuned args s ∧
    as.length + s.left args draws ≤ (args.start : Gen Time).left args draws)
    ⟨.start hargs, ?_⟩ ?_).2
  · rw [List.length_nil, Nat.zero_add]
  · rintro as s a s' ⟨hun, hle⟩ hl
    obtain ⟨hun', hless⟩ := hun.step (GenStep.of_local hl)
    have := hless hsub
    exact ⟨hun', by rw [List.length_append, List.length_singleton]; omega⟩

def Args.plan (args : Args) : List Dispatch :=
  (List.range (args.nepochs * args.numBatches)).map fun id =>
    { epoch := id / args.numBatches
      batchId := id % args.numBatches
      subTaskBatchSize := args.subTaskBatchSize
      gpuRequestSizeThres := 1024
      expPacket := false }

theorem eq_plan_of_pairs {ds : List Dispatch}
    (hpairs : ds.map (fun d => (d.epoch, d.batchId)) =
      (List.range (args.nepochs * args.numBatches)).map
        fun id => (id / args.numBatches, id % args.numBatches))
    (hconfig : ∀ d ∈ ds, d.subTaskBatchSize = args.subTaskBatchSize ∧
      d.gpuRequestSizeThres = 1024 ∧ d.expPacket = false) : ds = args.plan := by
  have hds : ds = (ds.map fun d => (d.epoch, d.batchId)).map
      fun e => ⟨e.1, e.2, args.subTaskBatchSize, 1024, false⟩ := by
    rw [List.map_map]
    refine (List.map_id ds).symm.trans (List.map_congr_left fun d hd => ?_)
    obtain ⟨hsub, hthres, hexp⟩ := hconfig d hd
    simp [← hsub, ← hthres, ← hexp]
  rw [hds, hpairs, List.map_map]
  rfl

/-- Without tuning, what the generator has sent when it returns depends on nothing but its
arguments and the drawn sizes: up to the time stamps it is the plan, request by request, and
then the signals. -/
theorem plan_sent (hargs : args.tuneBatchQps = false)
    (h : Trace (loadGenerator args draws) args.start as s) (hret : s.pc = .returned) :
    ∃ rs gs : List (ServiceRequest Time),
      rs.map ServiceRequest.untimed = args.plan.flatMap (Dispatch.cpuRequests args draws) ∧
      gs.map ServiceRequest.untimed = args.plan.flatMap (Dispatch.gpuRequests args draws) ∧
      puts .request as =
        rs.map some ++ List.replicate (args.cpuSignals args.inferenceEngines) none ∧
      puts .gpuRequest as =
        gs.map some ++ List.replicate (args.gpuSignals args.inferenceEngines) none := by
  obtain ⟨hun, ds, rs, gs, hs, hds⟩ :=
    sent_of_trace_with h (Untuned.start hargs) fun _ _ _ h hl => (h.step hl).1
  have hepoch : s.epoch = args.nepochs := by simpa [hret, GenPc.Plain] using hun.plain
  have hlen : ds.length = args.nepochs * args.numBatches := by
    simpa [hret, hepoch, GenPc.inEpoch] using hs.count
  have hplan : ds = args.plan := by
    refine eq_plan_of_pairs (hlen ▸ hs.pairs) fun d hd => ?_
    obtain ⟨t, b, ht, rfl⟩ := hds d hd
    exact ⟨ht.subTask, ht.thres, by simp [Gen.dispatched, Gen.expPacket, ht.batch, ht.gpu]⟩
  refine ⟨rs, gs, ?_, ?_, ?_, ?_⟩
  · simpa [hret, Gen.pending, hplan] using hs.sent
  · simpa [hret, Gen.pendingGpu, hplan] using hs.sentGpu
  · simpa [hret, GenPc.signals] using hs.request
  · simpa [hret, GenPc.signals] using hs.gpuRequest

theorem plan_sent_small :
    ∃ rs gs : List (ServiceRequest Unit),
      rs.map ServiceRequest.untimed = [⟨0, 0, (), 2, 0, 2, false⟩, ⟨0, 0, (), 1, 1, 2, false⟩] ∧
      puts .request (Setup.smallEnd.1.own .generator) = rs.map some ++ [none] ∧
      puts .gpuRequest (Setup.smallEnd.1.own .generator) = gs.map some := by
  have hplain : Setup.smallArgs.tuneBatchQps = false := rfl
  obtain ⟨rs, gs, hrs, -, hreq, hgpu⟩ :=
    plan_sent hplain (Setup.smallEnd.2.trace .generator) rfl
  exact ⟨rs, gs, hrs.trans (by decide +kernel), hreq, hgpu.trans (List.append_nil _)⟩

end EbpfIsp.Serving
