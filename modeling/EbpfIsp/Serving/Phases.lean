import EbpfIsp.Serving.Protocol

/-! # The phases of a run

The load generator orders the run of the whole benchmark. It sends nothing
before every engine has announced itself. When it changes the size of
sub-requests it first waits until the request queue is empty, so that no
measurement mixes two configurations.
-/

namespace EbpfIsp.Serving
open Library Library.Queues

variable {n : ℕ} {Row β Time Tensor E : Type} [DecidableEq β]

namespace Setup

variable {U : Setup n Row β Time Tensor E}
  {S : Config (Party n) (Queue n β) (Message Time Tensor) (Party.State Row β Time Tensor E)}

/-! ## The barrier at the start -/

/-- The engines that have announced themselves, when the generator has counted enough. -/
theorem announced_of_counted (hn : U.args.inferenceEngines = n)
    (henv : NeverPuts U.env .ready ∧ NeverGets U.env .ready) (hS : U.network.Reachable S) {k : ℕ}
    (hpc : (S.agent .generator).pc = .ready k) (hk : U.args.inferenceEngines ≤ k) (i : Fin n) :
    puts .ready (S.own (.engine i)) ≠ [] := by
  obtain ⟨hcount, hsent⟩ := ready_of_trace (hS.trace .generator) hpc
  have hfifo := congrArg List.length (hS.fifo .ready)
  rw [length_puts_ready hS, (hS.trace .surroundings).puts_eq_nil henv.1, gets_ready hS henv.2,
    List.length_append, hcount, List.length_nil] at hfifo
  -- no engine has taken a request yet, so none has announced itself twice
  have hone : ∀ j : Fin n, (puts .ready (S.own (.engine j))).length ≤ 1 := by
    intro j
    obtain ⟨ws, hw⟩ := worked_of_trace (hS.trace (.engine j))
    have hnone := hS.gets_sublist .request (.engine j)
    rw [puts_request hS, hsent, List.sublist_nil, hw.request, List.append_eq_nil_iff,
      List.map_eq_nil_iff] at hnone
    rw [hw.ready, hnone.1]
    cases S.agent (.engine j) <;> simp [Engine.announced]
  intro hzero
  have hlt : ∑ j : Fin n, (puts .ready (S.own (.engine j))).length < ∑ _j : Fin n, 1 := by
    refine Finset.sum_lt_sum (fun j _ => hone j) ⟨i, Finset.mem_univ i, ?_⟩
    rw [hzero]
    exact Nat.zero_lt_one
  simp at hlt
  omega

/-- Nothing starts before all are ready: once the generator has left its first loop, and so
whenever a request is sent, every engine has announced itself. -/
theorem ready_barrier (hn : U.args.inferenceEngines = n)
    (henv : NeverPuts U.env .ready ∧ NeverGets U.env .ready) (hS : U.network.Reachable S)
    (hpc : ∀ k, (S.agent .generator).pc ≠ .ready k) (i : Fin n) :
    puts .ready (S.own (.engine i)) ≠ [] := by
  refine (hS.invariant (I := fun S => (∀ k, (S.agent .generator).pc ≠ .ready k) →
    puts .ready (S.own (.engine i)) ≠ []) ?_ ?_ ?_) hpc
  · intro h
    exact absurd rfl (h 0)
  · intro S k a s qs hS ih hl he hpc
    dsimp only at hpc
    have hkeep : puts .ready (S.own (.engine i)) ≠ [] →
        puts .ready (Config.own
          (⟨Function.update S.agent k s, qs, S.killed, S.log ++ [(k, a)]⟩ : Config _ _ _ _)
          (.engine i)) ≠ [] := by
      intro h
      rw [own_snoc]
      split_ifs
      · rw [puts_snoc]
        exact List.append_ne_nil_of_left_ne_nil h _
      · simpa using h
    apply hkeep
    by_cases hold : ∃ j, (S.agent .generator).pc = .ready j
    · -- the generator leaves the loop in this step
      obtain ⟨j, hj⟩ := hold
      by_cases hk : k = .generator
      · subst hk
        simp only [Function.update_self] at hpc
        cases GenStep.of_local hl with
        | ready hpc' => exact absurd rfl (hpc _)
        | begin hpc' hcount => exact announced_of_counted hn henv hS hpc' hcount i
        | _ hpc' => rw [hj] at hpc'; cases hpc'
      · rw [Function.update_of_ne (Ne.symm hk)] at hpc
        exact absurd hj (hpc j)
    · exact ih fun j hj => hold ⟨j, hj⟩
  · exact fun S k _ ih => ih

theorem ready_barrier_small :
    (sent smallEnd.1).length = 2 ∧ puts .ready (smallEnd.1.own (.engine 0)) ≠ [] :=
  ⟨by decide +kernel, ready_barrier (U := small smallArgs smallWrapper) rfl
    ⟨fun s => by cases s <;> simp [small], fun s => by cases s <;> simp [small]⟩ smallEnd.2
    (fun _ h => by cases h) 0⟩

end Setup

/-! ## One configuration at a time -/

/-- The generator waits until the request queue is empty. -/
def GenPc.Draining : GenPc Time → Prop
  | .drainRequests _ _ | .dropRequest _ _ | .drainGpu _ _ | .dropGpu _ _
  | .awaitRequests _ _ => True
  | _ => False

/-- A sub-request that was cut with the size `sub`: it is the piece of its number. -/
structure CutWith (args : Args) (draws : ℕ → ℚ) (sub : ℤ) (r : ServiceRequest Time) : Prop where
  size : (pieces sub (modelBatchSize args (draws r.batchId)))[r.subId]? = some r.batchSize
  total : r.totalSubBatches = (pieces sub (modelBatchSize args (draws r.batchId))).length

def Gen.Cutting (args : Args) (draws : ℕ → ℚ) (s : Gen Time) : Prop :=
  match s.pc with
  | .send b i total rest =>
    total = (pieces s.subTaskBatchSize (modelBatchSize args (draws b))).length ∧
      rest = (pieces s.subTaskBatchSize (modelBatchSize args (draws b))).drop i
  | .enqueue b i total size rest _ =>
    total = (pieces s.subTaskBatchSize (modelBatchSize args (draws b))).length ∧
      size :: rest = (pieces s.subTaskBatchSize (modelBatchSize args (draws b))).drop i
  | _ => True

section Steps
variable {args : Args} {draws : ℕ → ℚ} {s s' : Gen Time}
  {a : Act (Queue n β) (Message Time Tensor)}

omit [DecidableEq β] in
theorem Gen.Cutting.step (h : s.Cutting args draws) (hs : GenStep args draws s a s') :
    s'.Cutting args draws := by
  cases hs with
  | cut hpc => exact ⟨rfl, rfl⟩
  | stamp hpc => simpa [Gen.Cutting, hpc] using h
  | enqueue hpc =>
    simp only [Gen.Cutting, hpc] at h
    refine ⟨h.1, ?_⟩
    rw [← List.drop_drop, Gen.goto, ← h.2]
    rfl
  | begin hpc =>
    unfold Gen.begin
    split_ifs
    · trivial
    · split <;> trivial
    · trivial
  | spin => exact h
  | probe hpc hb ht size | drainRequests hpc size | drainGpu hpc size | awaitRequests hpc size
  | awaitGpu hpc size | drainPid hpc size | probeGpu hpc hg ht size =>
    simp only [Gen.goto]
    split_ifs <;> trivial
  | climb hpc hc =>
    simp only [Gen.goto]
    split_ifs <;> trivial
  | _ => trivial

/-- Only a call that drains the queues changes the configuration. -/
theorem hillClimbing_keeps {configs : List ℤ} {c c' : Climb} {latency : ℚ}
    (h : hillClimbing args configs c latency = .ok (c', false)) :
    c'.subTaskBatchSize = c.subTaskBatchSize := by
  rw [hillClimbing] at h
  obtain ⟨arrId, -, h⟩ := bind_eq_ok h
  obtain ⟨rate, -, h⟩ := bind_eq_ok h
  dsimp only at h
  split_ifs at h
  · obtain ⟨c₁, -, h⟩ := bind_eq_ok h
    cases h
  · cases h
    rfl

omit [DecidableEq β] in
/-- A step that puts no request on the queue keeps the size, unless it is the first one or a
draining phase begins; and such a phase ends when the queue was seen empty. -/
theorem subTask_of_step (hs : GenStep args draws s a s') (hpc : ¬ s'.pc.Draining) :
    (∃ k, s.pc = .ready k) ∨ a = .look .request 0 ∨
      (¬ s.pc.Draining ∧ s'.subTaskBatchSize = s.subTaskBatchSize) := by
  cases hs with
  | ready h | begin h => exact .inl ⟨_, h⟩
  | @climb w b latency c drain h hc =>
    cases drain with
    | true => exact absurd trivial hpc
    | false =>
      refine .inr (.inr ⟨by simp [h, GenPc.Draining], ?_⟩)
      have hkeeps := hillClimbing_keeps hc
      cases w <;> exact hkeeps
  | awaitRequests h size =>
    by_cases hsize : size = 0
    · exact .inr (.inl (by rw [hsize]))
    · simp [Gen.goto, Nat.pos_of_ne_zero hsize, GenPc.Draining] at hpc
  | drainRequests h size | drainGpu h size =>
    simp only [Gen.goto] at hpc
    split_ifs at hpc <;> exact absurd trivial hpc
  | dropRequest h | dropGpu h => exact absurd trivial hpc
  | climbedBatch h =>
    refine .inr (.inr ⟨by simp [h, GenPc.Draining], ?_⟩)
    split_ifs <;> rfl
  | spin h => exact .inr (.inr ⟨hpc, rfl⟩)
  | epoch h | finish h | probe h | skip h | lastBatch h | raise h | awaitGpu h | drainPid h
  | dropPid h | climbedGpu h | probeGpu h | skipGpu h | dispatchGpu h | cut h | enqueueGpu h
  | stamp h | sent h | enqueue h | endEpoch h | signalGpu h | signal h | signalled h | report h =>
    exact .inr (.inr ⟨by simp [h, GenPc.Draining], rfl⟩)

theorem cutWith_of_step (h : s.Cutting args draws) (hs : GenStep args draws s a s')
    {r : ServiceRequest Time} (ha : a.putOn .request = some (some r)) :
    CutWith args draws s'.subTaskBatchSize r := by
  cases hs with
  | @enqueue b i total size rest t hpc =>
    simp only [Act.putOn_put, Option.some.injEq] at ha
    subst ha
    simp only [Gen.Cutting, hpc] at h
    refine ⟨?_, h.1⟩
    have hhead := congrArg List.head? h.2
    rw [List.head?_drop] at hhead
    exact hhead.symm
  | _ => simp at ha

end Steps

namespace Setup

variable {U : Setup n Row β Time Tensor E}
  {S : Config (Party n) (Queue n β) (Message Time Tensor) (Party.State Row β Time Tensor E)}

theorem request_queue_of_ready (hS : U.network.Reachable S) {k : ℕ}
    (hpc : (S.agent .generator).pc = .ready k) : S.queue .request = [] := by
  have hfifo := hS.fifo .request
  rw [puts_request hS, (ready_of_trace (hS.trace .generator) hpc).2] at hfifo
  exact (List.append_eq_nil_iff.mp hfifo.symm).2

/-- Configurations do not mix: unless the generator is waiting for the queue to drain, every
waiting request was cut with the size that is in force. -/
theorem config_isolated (hS : U.network.Reachable S)
    (hpc : ¬ (S.agent .generator).pc.Draining) (r : ServiceRequest Time)
    (hr : some r ∈ S.queue .request) :
    CutWith U.args U.draws (S.agent .generator).subTaskBatchSize r := by
  refine (hS.invariant (I := fun S => (S.agent .generator).Cutting U.args U.draws ∧
    (¬ (S.agent .generator).pc.Draining → ∀ r, some r ∈ S.queue .request →
      CutWith U.args U.draws (S.agent .generator).subTaskBatchSize r)) ?_ ?_ ?_).2 hpc r hr
  · exact ⟨trivial, fun _ r hr => by cases hr⟩
  · rintro S k a s qs hS ⟨hcut, hqueue⟩ hl he
    dsimp only
    by_cases hk : k = .generator
    · subst hk
      have hs := GenStep.of_local hl
      rw [Function.update_self]
      refine ⟨hcut.step hs, fun hpc r hr => ?_⟩
      rcases he.mem hr with hold | hnew
      · rcases subTask_of_step hs hpc with ⟨j, hj⟩ | rfl | ⟨hnot, hsub⟩
        · rw [request_queue_of_ready hS hj] at hold
          cases hold
        · -- the queue was seen empty
          generalize hzero : 0 = m at he
          cases he
          rw [List.eq_nil_of_length_eq_zero hzero.symm] at hold
          cases hold
        · rw [hsub]
          exact hqueue hnot r hold
      · exact cutWith_of_step hcut hs hnew
    · rw [Function.update_of_ne (Ne.symm hk)]
      refine ⟨hcut, fun hpc r hr => hqueue hpc r ?_⟩
      refine (he.mem hr).resolve_right fun hnew => ?_
      exact absurd hnew (by simp [putOn_request_of_ne hk hl])
  · exact fun S k _ ih => ih

def retunedArgs : Args := { smallArgs with tuneBatchQps := true, schedTimeout := 0 }

/-- The generator is told a latency, goes from the size 2 to the size 1, and sends the first
sub-request. -/
def retunedSchedule : List (Party 1 × Unit) :=
  smallSchedule.take 1 ++ (.surroundings, ()) :: List.replicate 15 (.generator, ())

def retuned :=
  (small retunedArgs smallWrapper).network.after retunedSchedule (by decide +kernel)

theorem config_isolated_retuned :
    (retuned.1.agent .generator).batchConfigAttempt = 1 ∧
    some ⟨0, 0, (), 1, 0, 3, true⟩ ∈ retuned.1.queue .request ∧
    CutWith retunedArgs (fun _ => 3) 1 (⟨0, 0, (), 1, 0, 3, true⟩ : ServiceRequest Unit) := by
  have hmem : some ⟨0, 0, (), 1, 0, 3, true⟩ ∈ retuned.1.queue .request := by decide +kernel
  have hpc : (retuned.1.agent .generator).pc = .send 0 1 3 [1, 1] := by decide +kernel
  have hsub : (retuned.1.agent .generator).subTaskBatchSize = 1 := by decide +kernel
  have hcut := config_isolated retuned.2 (by rw [hpc]; exact id) _ hmem
  rw [hsub] at hcut
  exact ⟨by decide +kernel, hmem, hcut⟩

end Setup

end EbpfIsp.Serving
