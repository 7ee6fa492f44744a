import EbpfIsp.Serving.LoadGenerator

/-! # What the load generator sends

In every state of the generator the messages it has put on its queues are
determined by the requests it has dispatched so far: the sub-requests of each
in order, then the signals, and the counters it returns count them. The
surroundings decide how long it tunes and with which sizes it cuts.
-/

namespace EbpfIsp.Serving
open Library.Queues

variable {n : ℕ} {β Time Tensor : Type}

/-- A request that the generator has decided to send, with the configuration at that time. -/
structure Dispatch where
  epoch : ℕ
  batchId : ℕ
  subTaskBatchSize : ℤ
  gpuRequestSizeThres : ℤ
  expPacket : Bool

def subRequests (batchId epoch total : ℕ) (expPacket : Bool) :
    ℕ → List ℤ → List (ServiceRequest Unit)
  | _, [] => []
  | i, size :: rest =>
    ⟨batchId, epoch, (), size, i, total, expPacket⟩ ::
      subRequests batchId epoch total expPacket (i + 1) rest

namespace Dispatch

def requestId (args : Args) (d : Dispatch) : ℕ := d.epoch * args.numBatches + d.batchId

def requestSize (args : Args) (draws : ℕ → ℚ) (d : Dispatch) : ℤ :=
  modelBatchSize args (draws d.batchId)

/-- Large requests go to the GPU as a whole, the others are cut. -/
def gpu (args : Args) (draws : ℕ → ℚ) (d : Dispatch) : Bool :=
  args.modelGpu && decide (d.requestSize args draws ≥ d.gpuRequestSizeThres)

def sizes (args : Args) (draws : ℕ → ℚ) (d : Dispatch) : List ℤ :=
  pieces d.subTaskBatchSize (d.requestSize args draws)

def cpuRequests (args : Args) (draws : ℕ → ℚ) (d : Dispatch) : List (ServiceRequest Unit) :=
  if d.gpu args draws then []
  else subRequests d.batchId d.epoch (d.sizes args draws).length d.expPacket 0 (d.sizes args draws)

def gpuRequests (args : Args) (draws : ℕ → ℚ) (d : Dispatch) : List (ServiceRequest Unit) :=
  if d.gpu args draws then [⟨d.batchId, d.epoch, (), d.requestSize args draws, 0, 1, d.expPacket⟩]
  else []

/-- A request of the data set that can be cut. -/
structure Valid (args : Args) (draws : ℕ → ℚ) (d : Dispatch) : Prop where
  batchId_lt : d.batchId < args.numBatches
  cut : d.gpu args draws = true ∨ 0 < d.subTaskBatchSize

end Dispatch

def Gen.dispatched (s : Gen Time) (batchId : ℕ) : Dispatch where
  epoch := s.epoch
  batchId := batchId
  subTaskBatchSize := s.subTaskBatchSize
  gpuRequestSizeThres := s.gpuRequestSizeThres
  expPacket := s.expPacket

/-- The sub-requests of the current request that are not sent yet. -/
def Gen.pending (s : Gen Time) : List (ServiceRequest Unit) :=
  match s.pc with
  | .send batchId i total rest => subRequests batchId s.epoch total s.expPacket i rest
  | .enqueue batchId i total size rest _ =>
    subRequests batchId s.epoch total s.expPacket i (size :: rest)
  | _ => []

def Gen.pendingGpu (s : Gen Time) : List (ServiceRequest Unit) :=
  match s.pc with
  | .enqueueGpu batchId size _ => [⟨batchId, s.epoch, (), size, 0, 1, s.expPacket⟩]
  | _ => []

def Gen.reports (s : Gen Time) : List (ℕ × ℕ × ℕ) :=
  match s.pc with
  | .returned => [(s.cpuSubRequests, s.cpuRequests, s.gpuRequests)]
  | _ => []

namespace GenPc

def At (batchId : ℕ) : GenPc Time → Prop
  | .batch b | .climb _ b | .drainRequests _ b | .dropRequest _ b | .drainGpu _ b | .dropGpu _ b
  | .awaitRequests _ b | .awaitGpu _ b | .drainPid _ b | .dropPid _ b | .climbed _ b
  | .gpuTuning b | .dispatch b => b = batchId
  | _ => False

def inEpoch (args : Args) : GenPc Time → ℕ
  | .batch b | .climb _ b | .drainRequests _ b | .dropRequest _ b | .drainGpu _ b | .dropGpu _ b
  | .awaitRequests _ b | .awaitGpu _ b | .drainPid _ b | .dropPid _ b | .climbed _ b
  | .gpuTuning b | .dispatch b => b
  | .enqueueGpu b _ _ | .send b _ _ _ | .enqueue b _ _ _ _ _ => b + 1
  | .endEpoch => args.numBatches
  | _ => 0

def signals (args : Args) : GenPc Time → ℕ
  | .signal i => i
  | .report | .returned => args.inferenceEngines
  | _ => 0

/-- Whether a sub-request is counted but not sent yet. -/
def stamped : GenPc Time → ℕ
  | .enqueue .. => 1
  | _ => 0

/-- Whether a request is cut but not counted yet. -/
def open_ : GenPc Time → ℕ
  | .send .. | .enqueue .. => 1
  | _ => 0

def Bounded (args : Args) : GenPc Time → Prop
  | .batch b => b ≤ args.numBatches
  | .climb _ b | .drainRequests _ b | .dropRequest _ b | .drainGpu _ b | .dropGpu _ b
  | .awaitRequests _ b | .awaitGpu _ b | .drainPid _ b | .dropPid _ b | .climbed _ b
  | .gpuTuning b | .dispatch b | .enqueueGpu b _ _ | .send b _ _ _
  | .enqueue b _ _ _ _ _ => b < args.numBatches
  | .signal i => i ≤ args.inferenceEngines
  | _ => True

end GenPc

/-- How many of the first `i` signals go to the engines on the CPU, and to the GPU. -/
def Args.cpuSignals (args : Args) (i : ℕ) : ℕ :=
  (List.range i).countP fun j => !(args.modelGpu && j == args.inferenceEngines - 1)

def Args.gpuSignals (args : Args) (i : ℕ) : ℕ :=
  (List.range i).countP fun j => args.modelGpu && j == args.inferenceEngines - 1

theorem Args.cpuSignals_succ (args : Args) (i : ℕ) :
    args.cpuSignals (i + 1) =
      args.cpuSignals i + if args.modelGpu && i == args.inferenceEngines - 1 then 0 else 1 := by
  cases h : args.modelGpu && i == args.inferenceEngines - 1 <;>
    simp only [Args.cpuSignals, List.range_succ, List.countP_append, List.countP_singleton, h] <;>
    rfl

theorem Args.gpuSignals_succ (args : Args) (i : ℕ) :
    args.gpuSignals (i + 1) =
      args.gpuSignals i + if args.modelGpu && i == args.inferenceEngines - 1 then 1 else 0 := by
  simp only [Args.gpuSignals, List.range_succ, List.countP_append, List.countP_singleton]

def Gen.counters (s : Gen Time) : ℕ × ℕ × ℕ × ℕ :=
  (s.epoch, s.cpuSubRequests, s.cpuRequests, s.gpuRequests)

section Sent
variable [DecidableEq β] {args : Args} {draws : ℕ → ℚ}

/-- The dispatched requests `ds` and the messages `rs` and `gs` sent for them. -/
structure Sent (args : Args) (draws : ℕ → ℚ) (ds : List Dispatch)
    (rs gs : List (ServiceRequest Time)) (as : List (Act (Queue n β) (Message Time Tensor)))
    (s : Gen Time) : Prop where
  valid : ∀ d ∈ ds, d.Valid args draws
  ids : ds.map (Dispatch.requestId args) = List.range ds.length
  count : s.pc = .raised ∨ ds.length = s.epoch * args.numBatches + s.pc.inEpoch args
  bounded : s.pc.Bounded args
  request : puts .request as =
    rs.map some ++ List.replicate (args.cpuSignals (s.pc.signals args)) none
  gpuRequest : puts .gpuRequest as =
    gs.map some ++ List.replicate (args.gpuSignals (s.pc.signals args)) none
  sent : rs.map ServiceRequest.untimed ++ s.pending = ds.flatMap (Dispatch.cpuRequests args draws)
  sentGpu : gs.map ServiceRequest.untimed ++ s.pendingGpu =
    ds.flatMap (Dispatch.gpuRequests args draws)
  cpuSub : s.cpuSubRequests = rs.length + s.pc.stamped
  cpu : s.cpuRequests + s.pc.open_ = ds.countP (!·.gpu args draws)
  gpu : s.gpuRequests = ds.countP (·.gpu args draws)
  reported : puts .generatorReturn as = s.reports

variable {ds : List Dispatch} {rs gs : List (ServiceRequest Time)}
  {as : List (Act (Queue n β) (Message Time Tensor))} {s s' : Gen Time}
  {a : Act (Queue n β) (Message Time Tensor)}

structure Quiet (args : Args) (s s' : Gen Time) : Prop where
  count : s'.pc = .raised ∨ s.pc ≠ .raised ∧
    s.epoch * args.numBatches + s.pc.inEpoch args =
      s'.epoch * args.numBatches + s'.pc.inEpoch args
  bounded : s'.pc.Bounded args
  signals : s'.pc.signals args = s.pc.signals args
  pending : s'.pending = s.pending
  pendingGpu : s'.pendingGpu = s.pendingGpu
  reports : s'.reports = s.reports
  cpuSub : s'.cpuSubRequests + s.pc.stamped = s.cpuSubRequests + s'.pc.stamped
  cpu : s'.cpuRequests + s'.pc.open_ = s.cpuRequests + s.pc.open_
  gpu : s'.gpuRequests = s.gpuRequests

theorem Sent.quiet (h : Sent args draws ds rs gs as s) (hq : Quiet args s s')
    (ha : ∀ q, a.putOn q = none) : Sent args draws ds rs gs (as ++ [a]) s' where
  valid := h.valid
  ids := h.ids
  count := by
    rcases hq.count with hr | ⟨hne, he⟩
    · exact .inl hr
    · exact .inr ((h.count.resolve_left hne).trans he)
  bounded := hq.bounded
  request := by simpa [ha, hq.signals] using h.request
  gpuRequest := by simpa [ha, hq.signals] using h.gpuRequest
  sent := by simpa [hq.pending] using h.sent
  sentGpu := by simpa [hq.pendingGpu] using h.sentGpu
  cpuSub := by have := hq.cpuSub; have := h.cpuSub; omega
  cpu := hq.cpu.trans h.cpu
  gpu := hq.gpu.trans h.gpu
  reported := by simpa [ha, hq.reports] using h.reported

/-- What a step can do to the dispatched requests `ds`: it keeps them or adds one. -/
def Next (args : Args) (draws : ℕ → ℚ) (ds : List Dispatch)
    (as : List (Act (Queue n β) (Message Time Tensor))) (s : Gen Time)
    (a : Act (Queue n β) (Message Time Tensor)) (s' : Gen Time) : Prop :=
  ∃ ds' rs gs, Sent args draws ds' rs gs (as ++ [a]) s' ∧
    (ds' = ds ∨ ∃ b, ds' = ds ++ [s.dispatched b])

theorem Sent.keep (h : Sent args draws ds rs gs as s) (hq : Quiet args s s')
    (ha : ∀ q, a.putOn q = none) : Next args draws ds as s a s' :=
  ⟨ds, rs, gs, h.quiet hq ha, .inl rfl⟩

theorem GenPc.At.idle (args : Args) {b : ℕ} (h : s.pc.At b) :
    s.pc ≠ .raised ∧ s.pc.inEpoch args = b ∧ s.pc.signals args = 0 ∧ s.pc.stamped = 0 ∧
      s.pc.open_ = 0 ∧ s.pending = [] ∧ s.pendingGpu = [] ∧ s.reports = [] := by
  cases hpc : s.pc <;> rw [hpc] at h <;>
    simp_all [GenPc.At, GenPc.inEpoch, GenPc.signals, GenPc.stamped, GenPc.open_, Gen.pending,
      Gen.pendingGpu, Gen.reports]

/-- Steps between two requests change no counter. -/
theorem Quiet.between {b : ℕ} (hs : s.pc.At b) (hs' : s'.pc.At b) (hb : s'.pc.Bounded args)
    (hc : s'.counters = s.counters) : Quiet args s s' := by
  obtain ⟨hne, hin, hsig, hst, hop, hpend, hpendGpu, hrep⟩ := hs.idle args
  obtain ⟨hne', hin', hsig', hst', hop', hpend', hpendGpu', hrep'⟩ := hs'.idle args
  simp only [Gen.counters, Prod.mk.injEq] at hc
  obtain ⟨he, hsub, hcpu, hgpu⟩ := hc
  constructor
  · exact .inr ⟨hne, by rw [he, hin, hin']⟩
  · exact hb
  · rw [hsig, hsig']
  · rw [hpend, hpend']
  · rw [hpendGpu, hpendGpu']
  · rw [hrep, hrep']
  · rw [hst, hst', hsub]
  · rw [hop, hop', hcpu]
  · exact hgpu

theorem Quiet.goto {b : ℕ} {pc : GenPc Time} (hs : s.pc.At b) (hs' : pc.At b)
    (hb : pc.Bounded args) : Quiet args s (s.goto pc) := .between hs hs' hb rfl

theorem subRequests_cons (batchId epoch total i : ℕ) (expPacket : Bool) (size : ℤ)
    (rest : List ℤ) :
    subRequests batchId epoch total expPacket i (size :: rest) =
      ⟨batchId, epoch, (), size, i, total, expPacket⟩ ::
        subRequests batchId epoch total expPacket (i + 1) rest := rfl

theorem Sent.dispatch (h : Sent args draws ds rs gs as s) {b : ℕ}
    (hpc : s.pc = .dispatch b) (ha : ∀ q, a.putOn q = none)
    (hd : (s.dispatched b).Valid args draws) (hb : s'.pc.Bounded args)
    (hcount : s'.epoch * args.numBatches + s'.pc.inEpoch args =
      s.epoch * args.numBatches + b + 1)
    (hsig : s'.pc.signals args = 0)
    (hpend : s'.pending = (s.dispatched b).cpuRequests args draws)
    (hpendGpu : s'.pendingGpu = (s.dispatched b).gpuRequests args draws) (hrep : s'.reports = [])
    (hsub : s'.cpuSubRequests = s.cpuSubRequests) (hst : s'.pc.stamped = 0)
    (hcpu : s'.cpuRequests + s'.pc.open_ =
      s.cpuRequests + if (s.dispatched b).gpu args draws then 0 else 1)
    (hgpu : s'.gpuRequests =
      s.gpuRequests + if (s.dispatched b).gpu args draws then 1 else 0) :
    Sent args draws (ds ++ [s.dispatched b]) rs gs (as ++ [a]) s' := by
  obtain ⟨hne, hin, hsig₀, hst₀, hop₀, hpend₀, hpendGpu₀, hrep₀⟩ :=
    GenPc.At.idle (s := s) args (show s.pc.At b by rw [hpc]; rfl)
  have hlen : ds.length = s.epoch * args.numBatches + b := by
    rw [← hin]
    exact h.count.resolve_left hne
  have hid : (s.dispatched b).requestId args = ds.length := hlen.symm
  exact {
    valid := by
      intro e he
      rcases List.mem_append.mp he with he | he
      · exact h.valid e he
      · rw [List.mem_singleton.mp he]
        exact hd
    ids := by simp [h.ids, hid, List.range_succ]
    count := .inr (by rw [hcount, List.length_append, hlen, List.length_singleton])
    bounded := hb
    request := by simpa [ha, hsig, hsig₀] using h.request
    gpuRequest := by simpa [ha, hsig, hsig₀] using h.gpuRequest
    sent := by
      have := h.sent
      rw [hpend₀, List.append_nil] at this
      rw [hpend, List.flatMap_append, ← this, List.flatMap_singleton]
    sentGpu := by
      have := h.sentGpu
      rw [hpendGpu₀, List.append_nil] at this
      rw [hpendGpu, List.flatMap_append, ← this, List.flatMap_singleton]
    cpuSub := by rw [hsub, hst, h.cpuSub, hst₀]
    cpu := by
      have := h.cpu
      rw [hop₀, Nat.add_zero] at this
      cases hg : (s.dispatched b).gpu args draws <;> simp [hcpu, this, hg]
    gpu := by cases hg : (s.dispatched b).gpu args draws <;> simp [hgpu, h.gpu, hg]
    reported := by simpa [ha, hrep, hrep₀] using h.reported }

/-- A step that puts a message dispatches nothing, and what it sends was pending. -/
theorem Sent.put (h : Sent args draws ds rs gs as s) (rs' gs' : List (ServiceRequest Time))
    {pc : GenPc Time} (hne : s.pc ≠ .raised) (hin : pc.inEpoch args = s.pc.inEpoch args)
    (hb : pc.Bounded args)
    (hreq : puts .request (as ++ [a]) =
      rs'.map some ++ List.replicate (args.cpuSignals (pc.signals args)) none)
    (hgreq : puts .gpuRequest (as ++ [a]) =
      gs'.map some ++ List.replicate (args.gpuSignals (pc.signals args)) none)
    (hsent : rs'.map ServiceRequest.untimed ++ (s.goto pc).pending =
      rs.map ServiceRequest.untimed ++ s.pending)
    (hsentGpu : gs'.map ServiceRequest.untimed ++ (s.goto pc).pendingGpu =
      gs.map ServiceRequest.untimed ++ s.pendingGpu)
    (hsub : rs'.length + pc.stamped = rs.length + s.pc.stamped) (hopen : pc.open_ = s.pc.open_)
    (hrep : puts .generatorReturn (as ++ [a]) = (s.goto pc).reports) :
    Next args draws ds as s a (s.goto pc) :=
  ⟨ds, rs', gs', {
    valid := h.valid
    ids := h.ids
    count := .inr ((h.count.resolve_left hne).trans (by rw [← hin]; rfl))
    bounded := hb
    request := hreq
    gpuRequest := hgreq
    sent := hsent.trans h.sent
    sentGpu := hsentGpu.trans h.sentGpu
    cpuSub := h.cpuSub.trans hsub.symm
    cpu := by
      rw [← h.cpu, ← hopen]
      rfl
    gpu := h.gpu
    reported := hrep }, .inl rfl⟩

attribute [local simp] GenPc.At GenPc.inEpoch GenPc.signals GenPc.stamped GenPc.open_
  GenPc.Bounded Gen.pending Gen.pendingGpu Gen.reports Gen.counters Gen.goto

theorem Sent.step (h : Sent args draws ds rs gs as s) (hs : GenStep args draws s a s') :
    Next args draws ds as s a s' := by
  have hbd := h.bounded
  cases hs with
  | @ready k hpc hk => exact h.keep (by constructor <;> simp [hpc]) (by simp)
  | @begin k hpc hk =>
    refine h.keep ?_ (by simp)
    unfold Gen.begin
    split_ifs
    · constructor <;> simp [hpc]
    · split <;> constructor <;> simp [hpc]
    · constructor <;> simp [hpc]
  | epoch hpc | finish hpc => exact h.keep (by constructor <;> simp [hpc]) (by simp)
  | @probe b hpc hb ht size =>
    refine h.keep (.goto (b := b) (by simp [hpc]) ?_ ?_) (by simp) <;> split_ifs <;>
      first | rfl | exact hb
  | @skip b hpc hb => exact h.keep (.goto (b := b) (by simp [hpc]) rfl hb) (by simp)
  | @lastBatch b hpc hb =>
    rw [hpc] at hbd
    have hb : b = args.numBatches := le_antisymm hbd hb
    exact h.keep (by constructor <;> simp [hpc, hb]) (by simp)
  | @climb w b latency c drain hpc hc =>
    rw [hpc] at hbd
    refine h.keep (.between (b := b) (by simp [hpc]) ?_ ?_ ?_) (by simp)
    · cases drain <;> simp
    · cases drain <;> exact hbd
    · cases w <;> rfl
  | raise hpc => exact h.keep (by constructor <;> simp [hpc]) (by simp)
  | @drainRequests w b hpc size | @drainGpu w b hpc size | @awaitRequests w b hpc size
  | @awaitGpu w b hpc size | @drainPid w b hpc size =>
    rw [hpc] at hbd
    refine h.keep (.goto (b := b) (by simp [hpc]) ?_ ?_) (by simp) <;> split_ifs <;>
      first | rfl | exact hbd
  | @dropRequest w b hpc m | @dropGpu w b hpc m | @dropPid w b hpc m =>
    rw [hpc] at hbd
    exact h.keep (.goto (b := b) (by simp [hpc]) rfl hbd) (by simp)
  | @climbedBatch b hpc =>
    rw [hpc] at hbd
    refine h.keep (.between (b := b) (by simp [hpc]) rfl hbd ?_) (by simp)
    split_ifs <;> rfl
  | @climbedGpu b hpc | @skipGpu b hpc =>
    rw [hpc] at hbd
    exact h.keep (.goto (b := b) (by simp [hpc]) rfl hbd) (by simp)
  | @probeGpu b hpc hg ht size =>
    rw [hpc] at hbd
    refine h.keep (.goto (b := b) (by simp [hpc]) ?_ ?_) (by simp) <;> split_ifs <;>
      first | rfl | exact hbd
  | @dispatchGpu b hpc hg hsize t =>
    rw [hpc] at hbd
    have hgpu : (s.dispatched b).gpu args draws = true := by
      rw [Dispatch.gpu, hg, Bool.true_and]
      exact decide_eq_true hsize
    refine ⟨_, rs, gs, h.dispatch hpc (by simp) ⟨hbd, .inl hgpu⟩ hbd ?_ rfl ?_ ?_ rfl rfl rfl ?_ ?_,
      .inr ⟨b, rfl⟩⟩
    · simp [Nat.add_assoc]
    · rw [Dispatch.cpuRequests, if_pos hgpu]; rfl
    · rw [Dispatch.gpuRequests, if_pos hgpu]; rfl
    · rw [if_pos hgpu]; rfl
    · rw [if_pos hgpu]
  | @cut b hpc hg hsub =>
    rw [hpc] at hbd
    have hgpu : ¬ (s.dispatched b).gpu args draws = true := by
      rw [Dispatch.gpu, Bool.and_eq_true, decide_eq_true_eq]
      exact fun h => not_le.mpr (hg h.1) h.2
    refine ⟨_, rs, gs, h.dispatch hpc (by simp) ⟨hbd, .inr hsub⟩ hbd ?_ rfl ?_ ?_ rfl rfl rfl ?_ ?_,
      .inr ⟨b, rfl⟩⟩
    · simp [Nat.add_assoc]
    · rw [Dispatch.cpuRequests, if_neg hgpu]; rfl
    · rw [Dispatch.gpuRequests, if_neg hgpu]; rfl
    · rw [if_neg hgpu]; rfl
    · rw [if_neg hgpu]; rfl
  | @spin b hpc hsub =>
    exact h.keep (.between (b := b) (by simp [hpc]) (by simp [hpc]) hbd rfl) (by simp)
  | @enqueueGpu b size t hpc =>
    rw [hpc] at hbd
    refine h.put rs (gs ++ [⟨b, s.epoch, t, size, 0, 1, s.expPacket⟩]) (by simp [hpc])
      (by simp [hpc]) hbd ?_ ?_ ?_ ?_ ?_ ?_ ?_
    · simpa [hpc] using h.request
    · simp [h.gpuRequest, hpc, Args.gpuSignals]
    · simp [hpc]
    · simp [hpc, ServiceRequest.untimed]
    · simp [hpc]
    · simp [hpc]
    · simpa [hpc] using h.reported
  | stamp hpc t =>
    rw [hpc] at hbd
    refine h.keep ?_ (by simp)
    constructor <;> simp [hpc, Gen.expPacket]
    exact hbd
  | sent hpc =>
    rw [hpc] at hbd
    refine h.keep ?_ (by simp)
    constructor <;> simp [hpc, subRequests]
    exact hbd
  | @enqueue b i total size rest t hpc =>
    rw [hpc] at hbd
    refine h.put (rs ++ [⟨b, s.epoch, t, size, i, total, s.expPacket⟩]) gs (by simp [hpc])
      (by simp [hpc]) hbd ?_ ?_ ?_ ?_ ?_ ?_ ?_
    · simp [h.request, hpc, Args.cpuSignals]
    · simpa [hpc] using h.gpuRequest
    · simp [hpc, ServiceRequest.untimed, subRequests_cons, Gen.expPacket]
    · simp [hpc]
    · simp [hpc]
    · simp [hpc]
    · simpa [hpc] using h.reported
  | endEpoch hpc =>
    refine h.keep ?_ (by simp)
    constructor <;> simp [hpc, Nat.add_mul]
  | @signalGpu i hpc hi hg =>
    refine h.put rs gs (by simp [hpc]) (by simp [hpc]) hi ?_ ?_ ?_ ?_ ?_ ?_ ?_
    · simp [h.request, hpc, Args.cpuSignals_succ, -Bool.and_eq_true, hg]
    · simp [h.gpuRequest, hpc, Args.gpuSignals_succ, -Bool.and_eq_true, hg,
        List.replicate_succ']
    · simp [hpc]
    · simp [hpc]
    · simp [hpc]
    · simp [hpc]
    · simpa [hpc] using h.reported
  | @signal i hpc hi hg =>
    refine h.put rs gs (by simp [hpc]) (by simp [hpc]) hi ?_ ?_ ?_ ?_ ?_ ?_ ?_
    · simp [h.request, hpc, Args.cpuSignals_succ, hg, List.replicate_succ']
    · simp [h.gpuRequest, hpc, Args.gpuSignals_succ, hg]
    · simp [hpc]
    · simp [hpc]
    · simp [hpc]
    · simp [hpc]
    · simpa [hpc] using h.reported
  | @signalled i hpc hi =>
    rw [hpc] at hbd
    have hi : i = args.inferenceEngines := le_antisymm hbd hi
    exact h.keep (by constructor <;> simp [hpc, hi]) (by simp)
  | report hpc =>
    refine h.put rs gs (by simp [hpc]) (by simp [hpc]) trivial ?_ ?_ ?_ ?_ ?_ ?_ ?_
    · simpa [hpc] using h.request
    · simpa [hpc] using h.gpuRequest
    · simp [hpc]
    · simp [hpc]
    · simp [hpc]
    · simp [hpc]
    · simp [h.reported, hpc]

/-- Every trace of the generator sends the requests it has dispatched. A dispatch has the
configuration of a state on the way, of which any invariant `I` of the generator holds. -/
theorem sent_of_trace_with (h : Trace (loadGenerator args draws) args.start as s)
    {I : Gen Time → Prop} (h₀ : I args.start)
    (hI : ∀ s (a : Act (Queue n β) (Message Time Tensor)) s', I s →
      GenStep args draws s a s' → I s') :
    I s ∧ ∃ ds rs gs, Sent args draws ds rs gs as s ∧
      ∀ d ∈ ds, ∃ (t : Gen Time) (b : ℕ), I t ∧ d = t.dispatched b := by
  refine h.invariant (I := fun as s => I s ∧ ∃ ds rs gs, Sent args draws ds rs gs as s ∧
    ∀ d ∈ ds, ∃ (t : Gen Time) (b : ℕ), I t ∧ d = t.dispatched b) ?_ ?_
  · refine ⟨h₀, [], [], [], ?_, by simp⟩
    constructor <;> simp [Args.start, Args.cpuSignals, Args.gpuSignals]
  · rintro as s a s' ⟨hs, ds, rs, gs, hsent, hds⟩ hl
    have hstep := GenStep.of_local hl
    obtain ⟨ds', rs', gs', hsent', rfl | ⟨b, rfl⟩⟩ := hsent.step hstep
    · exact ⟨hI _ _ _ hs hstep, _, _, _, hsent', hds⟩
    · refine ⟨hI _ _ _ hs hstep, _, _, _, hsent', ?_⟩
      intro d hd
      rcases List.mem_append.mp hd with hd | hd
      · exact hds d hd
      · exact ⟨s, b, hs, List.mem_singleton.mp hd⟩

theorem sent_of_trace (h : Trace (loadGenerator args draws) args.start as s) :
    ∃ ds rs gs, Sent args draws ds rs gs as s := by
  obtain ⟨-, ds, rs, gs, hsent, -⟩ :=
    sent_of_trace_with h (I := fun _ => True) trivial fun _ _ _ _ _ => trivial
  exact ⟨ds, rs, gs, hsent⟩

/-- A generator that waits for engines has taken one message per engine it has counted, and
has sent nothing. -/
theorem ready_of_trace (h : Trace (loadGenerator args draws) args.start as s) {k : ℕ}
    (hk : s.pc = .ready k) : (gets .ready as).length = k ∧ puts .request as = [] := by
  refine h.invariant (I := fun as s => ∀ k, s.pc = .ready k →
    (gets .ready as).length = k ∧ puts .request as = []) ?_ ?_ k hk
  · intro k hk
    simpa [Args.start] using hk
  · intro as s a s' ih hl k hk
    cases GenStep.of_local hl with
    | ready hpc =>
      simp only [Gen.goto, GenPc.ready.injEq] at hk
      simp [ih _ hpc, hk]
    | begin hpc =>
      unfold Gen.begin at hk
      split_ifs at hk
      · cases hk
      · split at hk <;> cases hk
      · cases hk
    | spin hpc => simp [hpc] at hk
    | climb hpc hc => simp only [Gen.goto] at hk; split_ifs at hk
    | probe hpc hb ht size | drainRequests hpc size | drainGpu hpc size | awaitRequests hpc size
    | awaitGpu hpc size | drainPid hpc size | probeGpu hpc hg ht size =>
      simp only [Gen.goto] at hk
      split_ifs at hk
    | _ => cases hk

theorem mem_subRequests {batchId epoch total i : ℕ} {expPacket : Bool} {sizes : List ℤ}
    {r : ServiceRequest Unit} (h : r ∈ subRequests batchId epoch total expPacket i sizes) :
    r.batchId = batchId ∧ r.batchSize ∈ sizes := by
  induction sizes generalizing i with
  | nil => cases h
  | cons size rest ih =>
    rcases List.mem_cons.mp h with rfl | h
    · exact ⟨rfl, .head _⟩
    · exact ⟨(ih h).1, .tail _ (ih h).2⟩

/-- All requests are about batches of the data set. -/
theorem Sent.batchId_lt (h : Sent args draws ds rs gs as s) {r : ServiceRequest Time}
    (hr : r ∈ rs) : r.batchId < args.numBatches := by
  have hmem : r.untimed ∈ ds.flatMap (Dispatch.cpuRequests args draws) := by
    rw [← h.sent]
    exact List.mem_append_left _ (List.mem_map_of_mem hr)
  obtain ⟨d, hd, hmem⟩ := List.mem_flatMap.mp hmem
  have hid : r.batchId = d.batchId := by
    rw [Dispatch.cpuRequests] at hmem
    split_ifs at hmem
    · cases hmem
    · exact (mem_subRequests hmem).1
  rw [hid]
  exact (h.valid d hd).batchId_lt

/-! ## All requests of all epochs -/

theorem sum_subRequests (batchId epoch total i : ℕ) (expPacket : Bool) (sizes : List ℤ) :
    ((subRequests batchId epoch total expPacket i sizes).map ServiceRequest.batchSize).sum =
      sizes.sum := by
  induction sizes generalizing i with
  | nil => rfl
  | cons size rest ih => simp [subRequests, ih]

/-- The sub-requests of a request, or the one to the GPU, have its samples. -/
theorem Dispatch.Valid.sum_batchSize {d : Dispatch} (hd : d.Valid args draws) :
    ((d.cpuRequests args draws).map ServiceRequest.batchSize).sum +
        ((d.gpuRequests args draws).map ServiceRequest.batchSize).sum =
      d.requestSize args draws := by
  rw [Dispatch.cpuRequests, Dispatch.gpuRequests]
  split_ifs with hg
  · simp
  · have hsub : 0 < d.subTaskBatchSize := hd.cut.resolve_left hg
    have hsize : 1 ≤ d.requestSize args draws := one_le_modelBatchSize _ _
    rw [sum_subRequests, Dispatch.sizes, sum_pieces hsub (by omega)]
    simp

/-- Numbering the requests is a bijection to epochs and batches. -/
theorem Dispatch.Valid.eq_div_mod {d : Dispatch} (hd : d.Valid args draws) {id : ℕ}
    (h : d.requestId args = id) :
    d.epoch = id / args.numBatches ∧ d.batchId = id % args.numBatches := by
  subst h
  have hlt := hd.batchId_lt
  rw [Dispatch.requestId, Nat.mul_comm]
  constructor
  · rw [Nat.mul_add_div (by omega), Nat.div_eq_of_lt hlt, Nat.add_zero]
  · rw [Nat.mul_add_mod, Nat.mod_eq_of_lt hlt]

theorem Sent.pairs (h : Sent args draws ds rs gs as s) :
    ds.map (fun d => (d.epoch, d.batchId)) =
      (List.range ds.length).map fun id => (id / args.numBatches, id % args.numBatches) := by
  apply List.ext_getElem
  · simp
  · intro k hk hk'
    simp only [List.length_map] at hk
    have hid : (ds[k]).requestId args = k := by
      have := congrArg (fun l => l[k]?) h.ids
      simpa [hk] using this
    obtain ⟨he, hb⟩ := (h.valid _ (List.getElem_mem hk)).eq_div_mod hid
    simp [he, hb]

theorem sum_epochs (epochs numBatches : ℕ) (size : ℕ → ℤ) :
    ((List.range (epochs * numBatches)).map fun id => size (id % numBatches)).sum =
      epochs * ((List.range numBatches).map size).sum := by
  induction epochs with
  | zero => simp
  | succ epochs ih =>
    have hlast : ((List.range numBatches).map fun b =>
        size ((epochs * numBatches + b) % numBatches)) = (List.range numBatches).map size := by
      apply List.map_congr_left
      intro b hb
      rw [Nat.mul_comm, Nat.mul_add_mod, Nat.mod_eq_of_lt (List.mem_range.mp hb)]
    rw [Nat.succ_mul, List.range_add, List.map_append, List.sum_append, ih, List.map_map]
    simp only [Function.comp_def, hlast]
    push_cast
    ring

theorem sum_map_flatMap {A B : Type} (f : A → List B) (g : B → ℤ) (l : List A) :
    ((l.flatMap f).map g).sum = (l.map fun x => ((f x).map g).sum).sum := by
  induction l with
  | nil => rfl
  | cons x l ih => simp [ih]

theorem map_batchSize_untimed (rs : List (ServiceRequest Time)) :
    rs.map ServiceRequest.batchSize =
      (rs.map ServiceRequest.untimed).map ServiceRequest.batchSize := by
  simp [ServiceRequest.untimed]

/-- When `epochs` epochs are sent, so are their samples. -/
theorem Sent.samples (h : Sent args draws ds rs gs as s) (hpend : s.pending = [])
    (hpendGpu : s.pendingGpu = []) {epochs : ℕ} (hlen : ds.length = epochs * args.numBatches) :
    (rs.map ServiceRequest.batchSize).sum + (gs.map ServiceRequest.batchSize).sum =
      epochs * ((List.range args.numBatches).map fun b => modelBatchSize args (draws b)).sum := by
  have hds : (ds.map fun d => ((d.cpuRequests args draws).map ServiceRequest.batchSize).sum +
      ((d.gpuRequests args draws).map ServiceRequest.batchSize).sum) =
        (ds.map fun d => (d.epoch, d.batchId)).map fun e => modelBatchSize args (draws e.2) := by
    rw [List.map_map]
    exact List.map_congr_left fun d hd => (h.valid d hd).sum_batchSize
  have hsent := h.sent
  have hsentGpu := h.sentGpu
  rw [hpend, List.append_nil] at hsent
  rw [hpendGpu, List.append_nil] at hsentGpu
  rw [map_batchSize_untimed rs, map_batchSize_untimed gs, hsent, hsentGpu, sum_map_flatMap,
    sum_map_flatMap, ← List.sum_map_add, hds, h.pairs, hlen, List.map_map]
  exact sum_epochs epochs args.numBatches fun b => modelBatchSize args (draws b)

def GenPc.Finishing : GenPc Time → Prop
  | .signal _ | .report | .returned => True
  | _ => False

omit [DecidableEq β] in
/-- The main loop is not left before all epochs are done. -/
theorem nepochs_le_of_trace (h : Trace (loadGenerator args draws) args.start as s)
    (hpc : s.pc.Finishing) : args.nepochs ≤ s.epoch := by
  have hinv : s.expEpochs ≤ s.epoch ∧ (s.pc.Finishing → args.nepochs ≤ s.expEpochs) := by
    refine h.invariant (I := fun _ s => s.expEpochs ≤ s.epoch ∧
      (s.pc.Finishing → args.nepochs ≤ s.expEpochs)) ⟨le_rfl, fun h => h.elim⟩ ?_
    rintro as s a s' ⟨hle, hfin⟩ hl
    cases GenStep.of_local hl with
    | finish hpc ht he => exact ⟨hle, fun _ => he⟩
    | signalGpu hpc | signal hpc | signalled hpc | report hpc =>
      exact ⟨hle, fun _ => hfin (by rw [hpc]; trivial)⟩
    | endEpoch hpc =>
      refine ⟨?_, fun h => h.elim⟩
      dsimp only
      split_ifs <;> omega
    | spin => exact ⟨hle, hfin⟩
    | begin hpc =>
      unfold Gen.begin
      split_ifs
      · exact ⟨hle, fun h => h.elim⟩
      · split <;> exact ⟨hle, fun h => h.elim⟩
      · exact ⟨hle, fun h => h.elim⟩
    | @climb w b latency c drain hpc hc =>
      cases w <;> cases drain <;> exact ⟨hle, fun h => h.elim⟩
    | climbedBatch hpc => split_ifs <;> exact ⟨hle, fun h => h.elim⟩
    | probe hpc hb ht size | drainRequests hpc size | drainGpu hpc size | awaitRequests hpc size
    | awaitGpu hpc size | drainPid hpc size | probeGpu hpc hg ht size =>
      split_ifs <;> exact ⟨hle, fun h => h.elim⟩
    | _ => exact ⟨hle, fun h => h.elim⟩
  exact (hinv.2 hpc).trans hinv.1

end Sent

end EbpfIsp.Serving
