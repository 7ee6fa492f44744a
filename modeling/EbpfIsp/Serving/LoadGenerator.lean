import EbpfIsp.Library.Loop
import EbpfIsp.Library.Python
import EbpfIsp.Library.Queues
import EbpfIsp.Serving.Requests

/-! # The load generator

`loadGenerator` waits until the engines are ready, sends the requests of all
epochs and at last one signal per engine. In between it may tune the size of
sub-requests: `HillClimbing` follows the measured latencies, and whenever it is
done with a configuration it drains the request queues.

The program counter names the next operation on a queue; what Python computes
between two operations is one step.
-/

namespace EbpfIsp.Serving
open Library Library.Queues

/-! ## Hill climbing -/

/-- `np.argmin`: the first index of a least entry. -/
def argmin (l : List ℚ) : ℕ := l.findIdx fun x => l.all (x ≤ ·)

def median (l : List ℚ) : ℚ :=
  let s := l.mergeSort (· ≤ ·)
  if s.length % 2 = 1 then s.getD (s.length / 2) 0
  else (s.getD (s.length / 2 - 1) 0 + s.getD (s.length / 2) 0) / 2

def Args.startArrId (args : Args) : ℕ :=
  argmin (args.possibleArrivalRates.map fun r => |r - args.avgArrivalRate|)

inductive Sweep where
  | batch
  | gpu
  deriving DecidableEq

/-- The variables that `HillClimbing` receives and returns. The fields of `args` that it
assigns are among them. -/
structure Climb where
  subTaskBatchSize : ℤ
  gpuRequestSizeThres : ℤ
  arrivalRate : ℚ
  arrId : ℕ
  triedArrivalRates : List ℚ
  configQps : List ℚ
  configAttempt : ℕ
  tuningBatchQps : Bool
  tuningGpuQps : Bool
  qpsTried : ℕ

/-- One step up or down in the list of arrival rates. -/
def nextArrId (args : Args) (arrId : ℕ) (runningLatency : ℚ) : Py ℕ :=
  if runningLatency > args.targetLatency * (1 + args.stableRegion) then
    return min (args.arrSteps - 1) (arrId + 1)
  else if runningLatency ≥ args.targetLatency then return arrId
  else if 1 + args.stableRegion = 0 then throw .zeroDivisionError
  else if runningLatency < args.targetLatency / (1 + args.stableRegion) then return arrId - 1
  else return arrId

def item {α : Type} (l : List α) (i : ℕ) : Py α :=
  match l[i]? with
  | some x => return x
  | none => throw .indexError

theorem item_eq_ok {α : Type} {l : List α} {i : ℕ} {x : α} (h : l[i]? = some x) :
    item l i = .ok x := by
  rw [item, h]
  rfl

def Climb.setConfig (c : Climb) (config : ℤ) : Climb :=
  if c.tuningBatchQps then { c with subTaskBatchSize := config }
  else if c.tuningGpuQps then { c with gpuRequestSizeThres := config }
  else c

def Climb.stopTuning (c : Climb) : Climb :=
  if c.tuningBatchQps then { c with tuningBatchQps := false }
  else if c.tuningGpuQps then { c with tuningGpuQps := false }
  else c

/-- A configuration has been measured long enough: its rate is recorded, and either the best
configuration is chosen or the next one is set up. -/
def finishConfig (args : Args) (configs : List ℤ) (c : Climb) : Py Climb := do
  let arrivalRate :=
    median (c.triedArrivalRates.drop (c.triedArrivalRates.length - args.arrSteps))
  let c := { c with
    configQps := c.configQps ++ [arrivalRate]
    configAttempt := c.configAttempt + 1
    qpsTried := 0 }
  if c.configQps.length = configs.length then
    let config ← item configs (argmin c.configQps)
    return { (c.setConfig config).stopTuning with arrivalRate := c.configQps.min?.getD 0 }
  else
    let config ← item configs c.configAttempt
    return { c.setConfig config with
      triedArrivalRates := []
      arrivalRate := args.avgArrivalRate
      arrId := args.startArrId }

/-- `HillClimbing` without the draining of the queues; the second result says whether they
are drained. -/
def hillClimbing (args : Args) (configs : List ℤ) (c : Climb) (runningLatency : ℚ) :
    Py (Climb × Bool) := do
  let arrId ← nextArrId args c.arrId runningLatency
  let arrivalRate ← item args.possibleArrivalRates arrId
  let c := { c with
    arrId := arrId
    arrivalRate := arrivalRate
    triedArrivalRates := c.triedArrivalRates ++ [arrivalRate]
    qpsTried := c.qpsTried + 1 }
  if c.qpsTried > args.schedTimeout then
    let c ← finishConfig args configs c
    return (c, true)
  else
    return (c, false)

/-! ## The program -/

variable {n : ℕ} {β Time Tensor : Type}

/-- Where the generator stands. `send` has the sizes of the sub-requests that are still to
be sent, `enqueue` a sub-request that has its time stamp. -/
inductive GenPc (Time : Type) where
  | ready (readyEngines : ℕ)
  | outer
  | batch (batchId : ℕ)
  | climb (w : Sweep) (batchId : ℕ)
  | drainRequests (w : Sweep) (batchId : ℕ)
  | dropRequest (w : Sweep) (batchId : ℕ)
  | drainGpu (w : Sweep) (batchId : ℕ)
  | dropGpu (w : Sweep) (batchId : ℕ)
  | awaitRequests (w : Sweep) (batchId : ℕ)
  | awaitGpu (w : Sweep) (batchId : ℕ)
  | drainPid (w : Sweep) (batchId : ℕ)
  | dropPid (w : Sweep) (batchId : ℕ)
  | climbed (w : Sweep) (batchId : ℕ)
  | gpuTuning (batchId : ℕ)
  | dispatch (batchId : ℕ)
  | enqueueGpu (batchId : ℕ) (size : ℤ) (arrivalTime : Time)
  | send (batchId i total : ℕ) (rest : List ℤ)
  | enqueue (batchId i total : ℕ) (size : ℤ) (rest : List ℤ) (arrivalTime : Time)
  | endEpoch
  | signal (i : ℕ)
  | report
  | returned
  | raised
  deriving DecidableEq

structure Gen (Time : Type) where
  pc : GenPc Time
  subTaskBatchSize : ℤ
  gpuRequestSizeThres : ℤ
  arrivalRate : ℚ
  arrId : ℕ
  triedArrivalRates : List ℚ
  qpsTried : ℕ
  tuningBatchQps : Bool
  tuningGpuQps : Bool
  batchConfigQps : List ℚ
  batchConfigAttempt : ℕ
  gpuConfigQps : List ℚ
  gpuConfigAttempt : ℕ
  epoch : ℕ
  expEpochs : ℕ
  cpuSubRequests : ℕ
  cpuRequests : ℕ
  gpuRequests : ℕ

namespace Gen

def goto (s : Gen Time) (pc : GenPc Time) : Gen Time := { s with pc := pc }

def toClimb (s : Gen Time) (w : Sweep) : Climb where
  subTaskBatchSize := s.subTaskBatchSize
  gpuRequestSizeThres := s.gpuRequestSizeThres
  arrivalRate := s.arrivalRate
  arrId := s.arrId
  triedArrivalRates := s.triedArrivalRates
  configQps := match w with
    | .batch => s.batchConfigQps
    | .gpu => s.gpuConfigQps
  configAttempt := match w with
    | .batch => s.batchConfigAttempt
    | .gpu => s.gpuConfigAttempt
  tuningBatchQps := s.tuningBatchQps
  tuningGpuQps := s.tuningGpuQps
  qpsTried := s.qpsTried

def ofClimb (s : Gen Time) (w : Sweep) (c : Climb) : Gen Time :=
  let s := { s with
    subTaskBatchSize := c.subTaskBatchSize
    gpuRequestSizeThres := c.gpuRequestSizeThres
    arrivalRate := c.arrivalRate
    arrId := c.arrId
    triedArrivalRates := c.triedArrivalRates
    tuningBatchQps := c.tuningBatchQps
    tuningGpuQps := c.tuningGpuQps
    qpsTried := c.qpsTried }
  match w with
  | .batch => { s with batchConfigQps := c.configQps, batchConfigAttempt := c.configAttempt }
  | .gpu => { s with gpuConfigQps := c.configQps, gpuConfigAttempt := c.configAttempt }

/-- Before the first request: `args.sub_task_batch_size` is the first configuration if there
is a sweep. `argmin` of no arrival rates and the first of no configurations raise. -/
def begin (args : Args) (s : Gen Time) : Gen Time :=
  if args.possibleArrivalRates.isEmpty then s.goto .raised
  else if s.tuningBatchQps then
    match args.batchConfigs[0]? with
    | none => s.goto .raised
    | some config => { s with subTaskBatchSize := config, pc := .outer }
  else s.goto .outer

/-- The sweep over the sub-request sizes has just ended: the variables are reset for the
sweep over the threshold. -/
def startGpuSweep (args : Args) (s : Gen Time) : Gen Time :=
  { s with
    qpsTried := 0
    arrId := args.startArrId
    triedArrivalRates := []
    gpuConfigQps := []
    gpuConfigAttempt := 0
    tuningGpuQps := s.tuningGpuQps || args.modelGpu && args.tuneGpuQps }

def expPacket (s : Gen Time) : Bool := s.tuningBatchQps || s.tuningGpuQps

end Gen

def Args.start (args : Args) : Gen Time where
  pc := .ready 0
  subTaskBatchSize := args.subTaskBatchSize
  gpuRequestSizeThres := 1024
  arrivalRate := args.avgArrivalRate
  arrId := args.startArrId
  triedArrivalRates := []
  qpsTried := 0
  tuningBatchQps := args.tuneBatchQps
  tuningGpuQps := false
  batchConfigQps := []
  batchConfigAttempt := 0
  gpuConfigQps := []
  gpuConfigAttempt := 0
  epoch := 0
  expEpochs := 0
  cpuSubRequests := 0
  cpuRequests := 0
  gpuRequests := 0

def Args.configs (args : Args) : Sweep → List ℤ
  | .batch => args.batchConfigs
  | .gpu => args.gpuConfigs

def continueWith (s : Gen Time) : Op (Queue n β) (Message Time Tensor) Time (Gen Time) :=
  .choose fun _ => s

/-- `loadGenerator`, for the batch sizes `draws` of the chosen distribution. -/
def loadGenerator (args : Args) (draws : ℕ → ℚ) (s : Gen Time) :
    Op (Queue n β) (Message Time Tensor) Time (Gen Time) :=
  match s.pc with
  | .ready readyEngines =>
    if readyEngines < args.inferenceEngines then
      .get .ready fun _ => s.goto (.ready (readyEngines + 1))
    else continueWith (s.begin args)
  | .outer =>
    if s.tuningBatchQps || s.expEpochs < args.nepochs then continueWith (s.goto (.batch 0))
    else continueWith (s.goto (.signal 0))
  | .batch batchId =>
    if batchId < args.numBatches then
      if s.tuningBatchQps then
        .size .pid fun size =>
          s.goto (if size > 0 then .climb .batch batchId else .gpuTuning batchId)
      else continueWith (s.goto (.gpuTuning batchId))
    else continueWith (s.goto .endEpoch)
  | .climb w batchId =>
    .get .pid fun runningLatency =>
      match hillClimbing args (args.configs w) (s.toClimb w) runningLatency with
      | .error _ => s.goto .raised
      | .ok (c, drain) =>
        (s.ofClimb w c).goto (if drain then .drainRequests w batchId else .climbed w batchId)
  | .drainRequests w batchId =>
    .size .request fun size =>
      s.goto (if size > 500 then .dropRequest w batchId else .drainGpu w batchId)
  | .dropRequest w batchId => .get .request fun _ => s.goto (.drainRequests w batchId)
  | .drainGpu w batchId =>
    .size .gpuRequest fun size =>
      s.goto (if size > 500 then .dropGpu w batchId else .awaitRequests w batchId)
  | .dropGpu w batchId => .get .gpuRequest fun _ => s.goto (.drainGpu w batchId)
  | .awaitRequests w batchId =>
    .size .request fun size =>
      s.goto (if size > 0 then .awaitRequests w batchId else .awaitGpu w batchId)
  | .awaitGpu w batchId =>
    .size .gpuRequest fun size =>
      s.goto (if size > 0 then .awaitGpu w batchId else .drainPid w batchId)
  | .drainPid w batchId =>
    .size .pid fun size =>
      s.goto (if size > 0 then .dropPid w batchId else .climbed w batchId)
  | .dropPid w batchId => .get .pid fun _ => s.goto (.drainPid w batchId)
  | .climbed .batch batchId =>
    let s := if s.tuningBatchQps then s else s.startGpuSweep args
    continueWith (s.goto (.gpuTuning batchId))
  | .climbed .gpu batchId => continueWith (s.goto (.dispatch batchId))
  | .gpuTuning batchId =>
    if args.modelGpu && s.tuningGpuQps then
      .size .pid fun size =>
        s.goto (if size > 0 then .climb .gpu batchId else .dispatch batchId)
    else continueWith (s.goto (.dispatch batchId))
  | .dispatch batchId =>
    let requestSize := modelBatchSize args (draws batchId)
    if args.modelGpu && decide (requestSize ≥ s.gpuRequestSizeThres) then
      .choose fun arrivalTime =>
        { s with
          gpuRequests := s.gpuRequests + 1
          pc := .enqueueGpu batchId requestSize arrivalTime }
    else
      match partitionRequests s.subTaskBatchSize requestSize with
      | none => continueWith s
      | some sizes => continueWith (s.goto (.send batchId 0 sizes.length sizes))
  | .enqueueGpu batchId size arrivalTime =>
    .put .gpuRequest
      (some
        { batchId := batchId
          epoch := s.epoch
          arrivalTime := arrivalTime
          batchSize := size
          subId := 0
          totalSubBatches := 1
          expPacket := s.expPacket })
      (s.goto (.batch (batchId + 1)))
  | .send batchId i total rest =>
    match rest with
    | [] =>
      continueWith { s with cpuRequests := s.cpuRequests + 1, pc := .batch (batchId + 1) }
    | size :: rest =>
      .choose fun arrivalTime =>
        { s with
          cpuSubRequests := s.cpuSubRequests + 1
          pc := .enqueue batchId i total size rest arrivalTime }
  | .enqueue batchId i total size rest arrivalTime =>
    .put .request
      (some
        { batchId := batchId
          epoch := s.epoch
          arrivalTime := arrivalTime
          batchSize := size
          subId := i
          totalSubBatches := total
          expPacket := s.expPacket })
      (s.goto (.send batchId (i + 1) total rest))
  | .endEpoch =>
    continueWith
      { s with
        epoch := s.epoch + 1
        expEpochs := if !s.tuningBatchQps && !s.tuningGpuQps then s.expEpochs + 1 else s.expEpochs
        pc := .outer }
  | .signal i =>
    if i < args.inferenceEngines then
      if args.modelGpu && i == args.inferenceEngines - 1 then
        .put .gpuRequest none (s.goto (.signal (i + 1)))
      else .put .request none (s.goto (.signal (i + 1)))
    else continueWith (s.goto .report)
  | .report =>
    .put .generatorReturn (s.cpuSubRequests, s.cpuRequests, s.gpuRequests) (s.goto .returned)
  | .returned => .stop
  | .raised => .stop

/-! ## The steps of the program -/

inductive GenStep (args : Args) (draws : ℕ → ℚ) (s : Gen Time) :
    Act (Queue n β) (Message Time Tensor) → Gen Time → Prop
  | ready {k : ℕ} (h : s.pc = .ready k) (hk : k < args.inferenceEngines) :
      GenStep args draws s (.get .ready ()) (s.goto (.ready (k + 1)))
  | begin {k : ℕ} (h : s.pc = .ready k) (hk : args.inferenceEngines ≤ k) :
      GenStep args draws s .tau (s.begin args)
  | epoch (h : s.pc = .outer)
      (he : s.tuningBatchQps = true ∨ s.expEpochs < args.nepochs) :
      GenStep args draws s .tau (s.goto (.batch 0))
  | finish (h : s.pc = .outer) (ht : s.tuningBatchQps = false)
      (he : args.nepochs ≤ s.expEpochs) : GenStep args draws s .tau (s.goto (.signal 0))
  | probe {b : ℕ} (h : s.pc = .batch b) (hb : b < args.numBatches)
      (ht : s.tuningBatchQps = true) (size : ℕ) :
      GenStep args draws s (.look .pid size)
        (s.goto (if size > 0 then .climb .batch b else .gpuTuning b))
  | skip {b : ℕ} (h : s.pc = .batch b) (hb : b < args.numBatches)
      (ht : s.tuningBatchQps = false) : GenStep args draws s .tau (s.goto (.gpuTuning b))
  | lastBatch {b : ℕ} (h : s.pc = .batch b) (hb : args.numBatches ≤ b) :
      GenStep args draws s .tau (s.goto .endEpoch)
  | climb {w : Sweep} {b : ℕ} {latency : ℚ} {c : Climb} {drain : Bool} (h : s.pc = .climb w b)
      (hc : hillClimbing args (args.configs w) (s.toClimb w) latency = .ok (c, drain)) :
      GenStep args draws s (.get .pid latency)
        ((s.ofClimb w c).goto (if drain then .drainRequests w b else .climbed w b))
  | raise {w : Sweep} {b : ℕ} {latency : ℚ} {e : PyError} (h : s.pc = .climb w b)
      (hc : hillClimbing args (args.configs w) (s.toClimb w) latency = .error e) :
      GenStep args draws s (.get .pid latency) (s.goto .raised)
  | drainRequests {w : Sweep} {b : ℕ} (h : s.pc = .drainRequests w b) (size : ℕ) :
      GenStep args draws s (.look .request size)
        (s.goto (if size > 500 then .dropRequest w b else .drainGpu w b))
  | dropRequest {w : Sweep} {b : ℕ} (h : s.pc = .dropRequest w b)
      (m : Option (ServiceRequest Time)) :
      GenStep args draws s (.get .request m) (s.goto (.drainRequests w b))
  | drainGpu {w : Sweep} {b : ℕ} (h : s.pc = .drainGpu w b) (size : ℕ) :
      GenStep args draws s (.look .gpuRequest size)
        (s.goto (if size > 500 then .dropGpu w b else .awaitRequests w b))
  | dropGpu {w : Sweep} {b : ℕ} (h : s.pc = .dropGpu w b) (m : Option (ServiceRequest Time)) :
      GenStep args draws s (.get .gpuRequest m) (s.goto (.drainGpu w b))
  | awaitRequests {w : Sweep} {b : ℕ} (h : s.pc = .awaitRequests w b) (size : ℕ) :
      GenStep args draws s (.look .request size)
        (s.goto (if size > 0 then .awaitRequests w b else .awaitGpu w b))
  | awaitGpu {w : Sweep} {b : ℕ} (h : s.pc = .awaitGpu w b) (size : ℕ) :
      GenStep args draws s (.look .gpuRequest size)
        (s.goto (if size > 0 then .awaitGpu w b else .drainPid w b))
  | drainPid {w : Sweep} {b : ℕ} (h : s.pc = .drainPid w b) (size : ℕ) :
      GenStep args draws s (.look .pid size)
        (s.goto (if size > 0 then .dropPid w b else .climbed w b))
  | dropPid {w : Sweep} {b : ℕ} (h : s.pc = .dropPid w b) (latency : ℚ) :
      GenStep args draws s (.get .pid latency) (s.goto (.drainPid w b))
  | climbedBatch {b : ℕ} (h : s.pc = .climbed .batch b) :
      GenStep args draws s .tau
        ((if s.tuningBatchQps then s else s.startGpuSweep args).goto (.gpuTuning b))
  | climbedGpu {b : ℕ} (h : s.pc = .climbed .gpu b) :
      GenStep args draws s .tau (s.goto (.dispatch b))
  | probeGpu {b : ℕ} (h : s.pc = .gpuTuning b) (hg : args.modelGpu = true)
      (ht : s.tuningGpuQps = true) (size : ℕ) :
      GenStep args draws s (.look .pid size)
        (s.goto (if size > 0 then .climb .gpu b else .dispatch b))
  | skipGpu {b : ℕ} (h : s.pc = .gpuTuning b) : GenStep args draws s .tau (s.goto (.dispatch b))
  | dispatchGpu {b : ℕ} (h : s.pc = .dispatch b) (hg : args.modelGpu = true)
      (hsize : s.gpuRequestSizeThres ≤ modelBatchSize args (draws b)) (t : Time) :
      GenStep args draws s .tau
        { s with
          gpuRequests := s.gpuRequests + 1
          pc := .enqueueGpu b (modelBatchSize args (draws b)) t }
  | cut {b : ℕ} (h : s.pc = .dispatch b)
      (hg : args.modelGpu = true → modelBatchSize args (draws b) < s.gpuRequestSizeThres)
      (hsub : 0 < s.subTaskBatchSize) :
      GenStep args draws s .tau
        (s.goto (.send b 0 (pieces s.subTaskBatchSize (modelBatchSize args (draws b))).length
          (pieces s.subTaskBatchSize (modelBatchSize args (draws b)))))
  | spin {b : ℕ} (h : s.pc = .dispatch b) (hsub : s.subTaskBatchSize ≤ 0) :
      GenStep args draws s .tau s
  | enqueueGpu {b : ℕ} {size : ℤ} {t : Time} (h : s.pc = .enqueueGpu b size t) :
      GenStep args draws s (.put .gpuRequest (some ⟨b, s.epoch, t, size, 0, 1, s.expPacket⟩))
        (s.goto (.batch (b + 1)))
  | stamp {b i total : ℕ} {size : ℤ} {rest : List ℤ} (h : s.pc = .send b i total (size :: rest))
      (t : Time) :
      GenStep args draws s .tau
        { s with
          cpuSubRequests := s.cpuSubRequests + 1
          pc := .enqueue b i total size rest t }
  | sent {b i total : ℕ} (h : s.pc = .send b i total []) :
      GenStep args draws s .tau { s with cpuRequests := s.cpuRequests + 1, pc := .batch (b + 1) }
  | enqueue {b i total : ℕ} {size : ℤ} {rest : List ℤ} {t : Time}
      (h : s.pc = .enqueue b i total size rest t) :
      GenStep args draws s (.put .request (some ⟨b, s.epoch, t, size, i, total, s.expPacket⟩))
        (s.goto (.send b (i + 1) total rest))
  | endEpoch (h : s.pc = .endEpoch) :
      GenStep args draws s .tau
        { s with
          epoch := s.epoch + 1
          expEpochs := if !s.tuningBatchQps && !s.tuningGpuQps then s.expEpochs + 1 else s.expEpochs
          pc := .outer }
  | signalGpu {i : ℕ} (h : s.pc = .signal i) (hi : i < args.inferenceEngines)
      (hg : (args.modelGpu && i == args.inferenceEngines - 1) = true) :
      GenStep args draws s (.put .gpuRequest none) (s.goto (.signal (i + 1)))
  | signal {i : ℕ} (h : s.pc = .signal i) (hi : i < args.inferenceEngines)
      (hg : (args.modelGpu && i == args.inferenceEngines - 1) = false) :
      GenStep args draws s (.put .request none) (s.goto (.signal (i + 1)))
  | signalled {i : ℕ} (h : s.pc = .signal i) (hi : args.inferenceEngines ≤ i) :
      GenStep args draws s .tau (s.goto .report)
  | report (h : s.pc = .report) :
      GenStep args draws s
        (.put .generatorReturn (s.cpuSubRequests, s.cpuRequests, s.gpuRequests)) (s.goto .returned)

theorem GenStep.of_local {args : Args} {draws : ℕ → ℚ} {s s' : Gen Time}
    {a : Act (Queue n β) (Message Time Tensor)} (hl : Local (loadGenerator args draws) s a s') :
    GenStep args draws s a s' := by
  cases h : s.pc with
  | ready k =>
    by_cases hk : k < args.inferenceEngines
    · obtain ⟨m, rfl, rfl⟩ := hl.get_inv (by simp only [loadGenerator, h, hk, if_true]; rfl)
      exact .ready h hk
    · obtain ⟨c, rfl, rfl⟩ := hl.choose_inv (by simp only [loadGenerator, h, hk, if_false]; rfl)
      exact .begin h (not_lt.mp hk)
  | outer =>
    by_cases he : (s.tuningBatchQps || decide (s.expEpochs < args.nepochs)) = true
    · obtain ⟨c, rfl, rfl⟩ := hl.choose_inv (by simp only [loadGenerator, h, he, if_true]; rfl)
      exact .epoch h (by simpa using he)
    · obtain ⟨c, rfl, rfl⟩ := hl.choose_inv (by simp only [loadGenerator, h, he]; rfl)
      simp only [Bool.or_eq_true, decide_eq_true_eq, not_or, Bool.not_eq_true, not_lt] at he
      exact .finish h he.1 he.2
  | batch b =>
    by_cases hb : b < args.numBatches
    · cases ht : s.tuningBatchQps with
      | true =>
        obtain ⟨k, rfl, rfl⟩ := hl.size_inv (by simp only [loadGenerator, h, hb, ht, if_true]; rfl)
        exact .probe h hb ht k
      | false =>
        obtain ⟨c, rfl, rfl⟩ := hl.choose_inv (by
          simp only [loadGenerator, h, hb, ht, if_true]; rfl)
        exact .skip h hb ht
    · obtain ⟨c, rfl, rfl⟩ := hl.choose_inv (by simp only [loadGenerator, h, hb, if_false]; rfl)
      exact .lastBatch h (not_lt.mp hb)
  | climb w b =>
    obtain ⟨m, rfl, rfl⟩ := hl.get_inv (by simp only [loadGenerator, h]; rfl)
    split
    · exact .raise h ‹_›
    · exact .climb h ‹_›
  | drainRequests w b =>
    obtain ⟨k, rfl, rfl⟩ := hl.size_inv (by simp only [loadGenerator, h]; rfl)
    exact .drainRequests h k
  | dropRequest w b =>
    obtain ⟨m, rfl, rfl⟩ := hl.get_inv (by simp only [loadGenerator, h]; rfl)
    exact .dropRequest h m
  | drainGpu w b =>
    obtain ⟨k, rfl, rfl⟩ := hl.size_inv (by simp only [loadGenerator, h]; rfl)
    exact .drainGpu h k
  | dropGpu w b =>
    obtain ⟨m, rfl, rfl⟩ := hl.get_inv (by simp only [loadGenerator, h]; rfl)
    exact .dropGpu h m
  | awaitRequests w b =>
    obtain ⟨k, rfl, rfl⟩ := hl.size_inv (by simp only [loadGenerator, h]; rfl)
    exact .awaitRequests h k
  | awaitGpu w b =>
    obtain ⟨k, rfl, rfl⟩ := hl.size_inv (by simp only [loadGenerator, h]; rfl)
    exact .awaitGpu h k
  | drainPid w b =>
    obtain ⟨k, rfl, rfl⟩ := hl.size_inv (by simp only [loadGenerator, h]; rfl)
    exact .drainPid h k
  | dropPid w b =>
    obtain ⟨m, rfl, rfl⟩ := hl.get_inv (by simp only [loadGenerator, h]; rfl)
    exact .dropPid h m
  | climbed w b =>
    cases w with
    | batch =>
      obtain ⟨c, rfl, rfl⟩ := hl.choose_inv (by simp only [loadGenerator, h]; rfl)
      exact .climbedBatch h
    | gpu =>
      obtain ⟨c, rfl, rfl⟩ := hl.choose_inv (by simp only [loadGenerator, h]; rfl)
      exact .climbedGpu h
  | gpuTuning b =>
    by_cases ht : (args.modelGpu && s.tuningGpuQps) = true
    · obtain ⟨k, rfl, rfl⟩ := hl.size_inv (by simp only [loadGenerator, h, ht, if_true]; rfl)
      rw [Bool.and_eq_true] at ht
      exact .probeGpu h ht.1 ht.2 k
    · obtain ⟨c, rfl, rfl⟩ := hl.choose_inv (by simp only [loadGenerator, h, ht]; rfl)
      exact .skipGpu h
  | dispatch b =>
    by_cases hg : (args.modelGpu &&
        decide (modelBatchSize args (draws b) ≥ s.gpuRequestSizeThres)) = true
    · obtain ⟨t, rfl, rfl⟩ := hl.choose_inv (by simp only [loadGenerator, h, hg, if_true]; rfl)
      rw [Bool.and_eq_true, decide_eq_true_eq] at hg
      exact .dispatchGpu h hg.1 hg.2 t
    · cases hp : partitionRequests s.subTaskBatchSize (modelBatchSize args (draws b)) with
      | none =>
        obtain ⟨c, rfl, rfl⟩ := hl.choose_inv (by simp only [loadGenerator, h, hg, hp]; rfl)
        refine .spin h (not_lt.mp fun hsub => ?_)
        -- a positive size always cuts
        rw [partitionRequests_eq_some_iff.mpr ⟨.inl hsub, rfl⟩] at hp
        cases hp
      | some sizes =>
        obtain ⟨c, rfl, rfl⟩ := hl.choose_inv (by simp only [loadGenerator, h, hg, hp]; rfl)
        obtain ⟨hsub, rfl⟩ := partitionRequests_eq_some_iff.mp hp
        refine .cut h (by simpa using hg) ?_
        exact hsub.resolve_right (not_le.mpr (one_le_modelBatchSize args (draws b)))
  | enqueueGpu b size t =>
    obtain ⟨rfl, rfl⟩ := hl.put_inv (by simp only [loadGenerator, h]; rfl)
    exact .enqueueGpu h
  | send b i total rest =>
    cases rest with
    | nil =>
      obtain ⟨c, rfl, rfl⟩ := hl.choose_inv (by simp only [loadGenerator, h]; rfl)
      exact .sent h
    | cons size rest =>
      obtain ⟨t, rfl, rfl⟩ := hl.choose_inv (by simp only [loadGenerator, h]; rfl)
      exact .stamp h t
  | enqueue b i total size rest t =>
    obtain ⟨rfl, rfl⟩ := hl.put_inv (by simp only [loadGenerator, h]; rfl)
    exact .enqueue h
  | endEpoch =>
    obtain ⟨c, rfl, rfl⟩ := hl.choose_inv (by simp only [loadGenerator, h]; rfl)
    exact .endEpoch h
  | signal i =>
    by_cases hi : i < args.inferenceEngines
    · cases hg : args.modelGpu && i == args.inferenceEngines - 1 with
      | true =>
        obtain ⟨rfl, rfl⟩ := hl.put_inv (by simp only [loadGenerator, h, hi, hg, if_true]; rfl)
        exact .signalGpu h hi hg
      | false =>
        obtain ⟨rfl, rfl⟩ := hl.put_inv (by simp only [loadGenerator, h, hi, hg, if_true]; rfl)
        exact .signal h hi hg
    · obtain ⟨c, rfl, rfl⟩ := hl.choose_inv (by simp only [loadGenerator, h, hi, if_false]; rfl)
      exact .signalled h (not_lt.mp hi)
  | report =>
    obtain ⟨rfl, rfl⟩ := hl.put_inv (by simp only [loadGenerator, h]; rfl)
    exact .report h
  | returned => exact (hl.stop_inv (by simp only [loadGenerator, h])).elim
  | raised => exact (hl.stop_inv (by simp only [loadGenerator, h])).elim

theorem loadGenerator_put {args : Args} {draws : ℕ → ℚ} {s s' : Gen Time} {q : Queue n β}
    {m : Message Time Tensor q} (h : loadGenerator args draws s = .put q m s') :
    q = .request ∨ q = .gpuRequest ∨ q = .generatorReturn := by
  unfold loadGenerator at h
  split at h <;> (try dsimp only [continueWith] at h) <;> (try split at h) <;> (try split at h) <;>
    cases h <;> simp

theorem loadGenerator_get {args : Args} {draws : ℕ → ℚ} {s : Gen Time} {q : Queue n β}
    {next : Message Time Tensor q → Gen Time} (h : loadGenerator args draws s = .get q next) :
    q = .ready ∨ q = .pid ∨ q = .request ∨ q = .gpuRequest := by
  unfold loadGenerator at h
  split at h <;> (try dsimp only [continueWith] at h) <;> (try split at h) <;> (try split at h) <;>
    cases h <;> simp

end EbpfIsp.Serving
