import EbpfIsp.Serving.GeneratorRuns
import EbpfIsp.Serving.InferenceEngine
import Mathlib.Data.List.ReduceOption

/-! # The serving protocol

One load generator and `n` engines share a request queue. The rest of the
benchmark, which measures latencies and may run an engine on the GPU, is any
agent that keeps away from the request queue and from the engines' internal
queues. All results hold in every reachable state, so for every interleaving
and whatever the surroundings do.

* No request is lost or duplicated: each one that was sent is waiting, was
  dropped by the generator while it drained its queue, or was taken by one engine.
* When all engines have returned, nothing is left in the queue.
* The responses of an engine answer the requests it took, in order, each with
  the output of that request's own inputs.
* With the wrapper of the repository, no request is ever answered.
-/

namespace EbpfIsp.Serving
open Library.Queues

inductive Party (n : ℕ) where
  | generator
  | engine (i : Fin n)
  | model (i : Fin n)
  | surroundings
  deriving DecidableEq

namespace Party

variable {n : ℕ}

def equiv : Party n ≃ Option (Fin n) ⊕ Option (Fin n) where
  toFun
    | .generator => .inl none
    | .engine i => .inl (some i)
    | .surroundings => .inr none
    | .model i => .inr (some i)
  invFun
    | .inl none => .generator
    | .inl (some i) => .engine i
    | .inr none => .surroundings
    | .inr (some i) => .model i
  left_inv k := by cases k <;> rfl
  right_inv k := by rcases k with (_ | i) | (_ | i) <;> rfl

instance : Fintype (Party n) := Fintype.ofEquiv _ equiv.symm

theorem sum_eq {A : Type} [AddCommMonoid A] (f : Party n → A) :
    ∑ k, f k = f .generator + ∑ i, f (.engine i) + (f .surroundings + ∑ i, f (.model i)) := by
  rw [← Equiv.sum_comp equiv.symm f, Fintype.sum_sum_type, Fintype.sum_option, Fintype.sum_option]
  rfl

abbrev State (Row β Time Tensor E : Type) : Party n → Type
  | .generator => Gen Time
  | .engine _ => Engine Row β Time
  | .model _ => Inference β Time Tensor
  | .surroundings => E

end Party

theorem reduceOption_map_some {A : Type} (l : List A) : (l.map some).reduceOption = l := by
  simp [List.reduceOption]

/-- A benchmark: the arguments, the drawn batch sizes, the inputs of every engine, the model,
and the surroundings. -/
structure Setup (n : ℕ) (Row β Time Tensor E : Type) where
  args : Args
  draws : ℕ → ℚ
  data : Fin n → Dataset Row
  wrapper : Wrapper Row β Tensor
  env : E → Op (Queue n β) (Message Time Tensor) Time E
  envStart : E
  env_request : NeverPuts env .request ∧ NeverGets env .request
  env_logging : ∀ i, NeverPuts env (.logging i) ∧ NeverGets env (.logging i)
  env_blob : ∀ i b, NeverPuts env (.blob i b) ∧ NeverGets env (.blob i b)

variable {n : ℕ} {Row β Time Tensor E : Type} [DecidableEq β]

/-- An engine that has ended takes its daemon thread with it. -/
def Engine.ended : Engine Row β Time → Bool
  | .returned | .rejected _ _ | .failed _ _ _ => true
  | _ => false

namespace Setup

def network (U : Setup n Row β Time Tensor E) :
    Network (Party n) (Queue n β) (Message Time Tensor) Time
      (Party.State Row β Time Tensor E) where
  init
    | .generator => U.args.start
    | .engine _ => .ready
    | .model _ => .run U.wrapper.dequeues []
    | .surroundings => U.envStart
  prog
    | .generator => loadGenerator U.args U.draws
    | .engine i => inferenceEngine U.args (U.data i) U.wrapper i
    | .model i => runModel U.wrapper i
    | .surroundings => U.env
  capacity
    | .blob _ _ => some 8
    | _ => none
  mayKill st
    | .model i => (st (.engine i)).ended
    | _ => false

/-! ## A small benchmark -/

def small {β Tensor : Type} (args : Args) (wrapper : Wrapper ℕ β Tensor) :
    Setup 1 ℕ β Unit Tensor (List ℚ) where
  args := args
  draws _ := 3
  data _ := ⟨[[4, 5, 6], [7]], [[[1, 1, 1]], [[1]]], [[[0, 2, 1]], [[2]]]⟩
  wrapper := wrapper
  env
    | [] => .stop
    | latency :: rest => .put .pid latency rest
  envStart := [2]
  env_request := by constructor <;> intro s <;> cases s <;> simp
  env_logging _ := by constructor <;> intro s <;> cases s <;> simp
  env_blob _ _ := by constructor <;> intro s <;> cases s <;> simp

def smallWrapper : Wrapper ℕ Unit (List ℕ) where
  feeds := [()]
  tensor inputs _ := inputs.fc
  raises := none
  dequeues := [()]
  outSize got := (got.map List.length).sum

def smallArgs : Args where
  inferenceEngines := 1
  numBatches := 1
  nepochs := 1
  maxMiniBatchSize := 8
  subTaskBatchSize := 2
  numIndicesPerLookup := 1
  modelGpu := false
  tuneBatchQps := false
  tuneGpuQps := false
  batchConfigs := [2, 1]
  gpuConfigs := [4]
  schedTimeout := 3
  possibleArrivalRates := [1, 2]
  avgArrivalRate := 1
  targetLatency := 1
  stableRegion := 0

/-- A whole run: the engine announces itself, the generator sends two sub-requests and the
signal, the engine takes them, and then its model runs twice. -/
def smallSchedule : List (Party 1 × Unit) :=
  (.engine 0, ()) ::
    (List.replicate 17 (.generator, ()) ++ List.replicate 15 (.engine 0, ()) ++
      List.replicate 8 (.model 0, ()))

def smallEnd := (small smallArgs smallWrapper).network.after smallSchedule (by decide +kernel)

theorem smallEnd_returned (i : Fin 1) : smallEnd.1.agent (.engine i) = .returned := by
  fin_cases i
  rfl

variable {U : Setup n Row β Time Tensor E}
  {S : Config (Party n) (Queue n β) (Message Time Tensor) (Party.State Row β Time Tensor E)}

/-! ## Who uses which queue -/

section Owners
variable (hS : U.network.Reachable S)
include hS

theorem puts_request : puts .request S.acts = puts .request (S.own .generator) := by
  apply Config.filterMap_acts_eq_own
  intro k hk
  apply (hS.trace k).puts_eq_nil
  cases k with
  | generator => exact absurd rfl hk
  | engine i =>
    intro s m s' h
    obtain hq | hq | hq | ⟨b, hq⟩ := inferenceEngine_put h <;> cases hq
  | model i =>
    intro s m s' h
    cases runModel_put h
  | surroundings => exact U.env_request.1

theorem puts_logging (i : Fin n) :
    puts (.logging i) S.acts = puts (.logging i) (S.own (.engine i)) := by
  apply Config.filterMap_acts_eq_own
  intro k hk
  apply (hS.trace k).puts_eq_nil
  cases k with
  | generator =>
    intro s m s' h
    obtain hq | hq | hq := loadGenerator_put h <;> cases hq
  | engine j =>
    intro s m s' h
    obtain hq | hq | hq | ⟨b, hq⟩ := inferenceEngine_put h <;> cases hq
    exact hk rfl
  | model j =>
    intro s m s' h
    cases runModel_put h
  | surroundings => exact (U.env_logging i).1

theorem gets_logging (i : Fin n) :
    gets (.logging i) S.acts = gets (.logging i) (S.own (.model i)) := by
  apply Config.filterMap_acts_eq_own
  intro k hk
  apply (hS.trace k).gets_eq_nil
  cases k with
  | generator =>
    intro s next h
    obtain hq | hq | hq | hq := loadGenerator_get h <;> cases hq
  | engine j =>
    intro s next h
    cases inferenceEngine_get h
  | model j =>
    intro s next h
    obtain hq | ⟨b, hq⟩ := runModel_get h <;> cases hq
    exact hk rfl
  | surroundings => exact (U.env_logging i).2

theorem puts_blob (i : Fin n) (b : β) :
    puts (.blob i b) S.acts = puts (.blob i b) (S.own (.engine i)) := by
  apply Config.filterMap_acts_eq_own
  intro k hk
  apply (hS.trace k).puts_eq_nil
  cases k with
  | generator =>
    intro s m s' h
    obtain hq | hq | hq := loadGenerator_put h <;> cases hq
  | engine j =>
    intro s m s' h
    obtain hq | hq | hq | ⟨b', hq⟩ := inferenceEngine_put h <;> cases hq
    exact hk rfl
  | model j =>
    intro s m s' h
    cases runModel_put h
  | surroundings => exact (U.env_blob i b).1

theorem gets_blob (i : Fin n) (b : β) :
    gets (.blob i b) S.acts = gets (.blob i b) (S.own (.model i)) := by
  apply Config.filterMap_acts_eq_own
  intro k hk
  apply (hS.trace k).gets_eq_nil
  cases k with
  | generator =>
    intro s next h
    obtain hq | hq | hq | hq := loadGenerator_get h <;> cases hq
  | engine j =>
    intro s next h
    cases inferenceEngine_get h
  | model j =>
    intro s next h
    obtain hq | ⟨b', hq⟩ := runModel_get h <;> cases hq
    exact hk rfl
  | surroundings => exact (U.env_blob i b).2

/-- Requests are taken by the engines, and by the generator when it drains the queue. -/
theorem gets_request {γ : Type} (f : Option (ServiceRequest Time) → Option γ) :
    ((gets .request S.acts).filterMap f : Multiset γ) =
      ((gets .request (S.own .generator)).filterMap f : Multiset γ) +
        ∑ i, ((gets .request (S.own (.engine i))).filterMap f : Multiset γ) := by
  have hmodel : ∀ i, gets .request (S.own (.model i)) = [] := by
    intro i
    apply (hS.trace (.model i)).gets_eq_nil
    intro s next h
    obtain hq | ⟨b, hq⟩ := runModel_get h <;> cases hq
  have henv : gets .request (S.own .surroundings) = [] :=
    (hS.trace .surroundings).gets_eq_nil U.env_request.2
  have hsum := Config.filterMap_acts_eq_sum (fun a => (a.getFrom .request).bind f) S
  simp only [← List.filterMap_filterMap] at hsum
  rw [Party.sum_eq] at hsum
  simp only [gets] at hmodel henv ⊢
  simpa [hmodel, henv] using hsum

theorem gets_ready (henv : NeverGets U.env .ready) :
    gets .ready S.acts = gets .ready (S.own .generator) := by
  apply Config.filterMap_acts_eq_own
  intro k hk
  apply (hS.trace k).gets_eq_nil
  cases k with
  | generator => exact absurd rfl hk
  | engine i =>
    intro s next h
    cases inferenceEngine_get h
  | model i =>
    intro s next h
    obtain hq | ⟨b, hq⟩ := runModel_get h <;> cases hq
  | surroundings => exact henv

theorem length_puts_ready :
    (puts .ready S.acts).length =
      ∑ i, (puts .ready (S.own (.engine i))).length +
        (puts .ready (S.own .surroundings)).length := by
  have hgen : puts .ready (S.own .generator) = [] := by
    apply (hS.trace .generator).puts_eq_nil
    intro s m s' h
    obtain hq | hq | hq := loadGenerator_put h <;> cases hq
  have hmodel : ∀ i, puts .ready (S.own (.model i)) = [] := by
    intro i
    apply (hS.trace (.model i)).puts_eq_nil
    intro s m s' h
    cases runModel_put h
  have hsum := congrArg Multiset.card (Config.filterMap_acts_eq_sum (Act.putOn .ready) S)
  simp only [puts] at hgen hmodel
  rw [Party.sum_eq] at hsum
  simpa [puts, hgen, hmodel, Multiset.card_sum] using hsum

end Owners

theorem putOn_request_of_ne {k : Party n} (hk : k ≠ .generator)
    {s s' : Party.State Row β Time Tensor E k} {a : Act (Queue n β) (Message Time Tensor)}
    (hl : Local (U.network.prog k) s a s') : a.putOn .request = none := by
  cases hl with
  | @put _ q m h =>
    by_cases hq : q = .request
    · subst hq
      cases k with
      | generator => exact absurd rfl hk
      | engine i => obtain hq | hq | hq | ⟨b, hq⟩ := inferenceEngine_put h <;> cases hq
      | model i => cases runModel_put h
      | surroundings => exact absurd h (U.env_request.1 _ _ _)
    · simp [hq]
  | get | look | tau => simp

/-! ## Requests -/

/-- The requests that the generator has sent, dropped and those engine `i` has taken. -/
def sent (S : Config (Party n) (Queue n β) (Message Time Tensor)
    (Party.State Row β Time Tensor E)) : List (ServiceRequest Time) :=
  (puts .request (S.own .generator)).reduceOption

def dropped (S : Config (Party n) (Queue n β) (Message Time Tensor)
    (Party.State Row β Time Tensor E)) : List (ServiceRequest Time) :=
  (gets .request (S.own .generator)).reduceOption

def taken (S : Config (Party n) (Queue n β) (Message Time Tensor)
    (Party.State Row β Time Tensor E)) (i : Fin n) : List (ServiceRequest Time) :=
  (gets .request (S.own (.engine i))).reduceOption

theorem sent_eq (hS : U.network.Reachable S) :
    (sent S : Multiset (ServiceRequest Time)) =
      (dropped S : Multiset _) + ∑ i, (taken S i : Multiset _) +
        ((S.queue .request).reduceOption : Multiset _) := by
  have hfifo := hS.fifo .request
  rw [puts_request hS] at hfifo
  rw [sent, hfifo, List.reduceOption_append, ← Multiset.coe_add]
  congr 1
  exact gets_request hS id

theorem taken_sublist (hS : U.network.Reachable S) (i : Fin n) :
    (taken S i).Sublist (sent S) := by
  have h := hS.gets_sublist .request (.engine i)
  rw [puts_request hS] at h
  exact h.filterMap id

/-- Requests are neither lost nor duplicated: every request that was sent is waiting, was
dropped by the generator or was taken by one engine. Each engine takes its requests in the
order in which they were sent. -/
theorem requests_conserved (hS : U.network.Reachable S) :
    (sent S : Multiset (ServiceRequest Time)) =
      (dropped S : Multiset _) + ∑ i, (taken S i : Multiset _) +
        ((S.queue .request).reduceOption : Multiset _) ∧
    ∀ i, (taken S i).Sublist (sent S) :=
  ⟨sent_eq hS, taken_sublist hS⟩

theorem requests_conserved_small :
    (sent smallEnd.1).length = 2 ∧ (taken smallEnd.1 0).length = 2 ∧
    (sent smallEnd.1 : Multiset (ServiceRequest Unit)) =
      (dropped smallEnd.1 : Multiset _) + ∑ i, (taken smallEnd.1 i : Multiset _) +
        ((smallEnd.1.queue .request).reduceOption : Multiset _) :=
  ⟨by decide +kernel, by decide +kernel, (requests_conserved smallEnd.2).1⟩

def signalled (U : Setup n Row β Time Tensor E) (s : Gen Time) : ℕ :=
  U.args.cpuSignals (s.pc.signals U.args)

/-- The number of engines that the generator knows of: those on the CPU and, perhaps, one on
the GPU. -/
def Counts (U : Setup n Row β Time Tensor E) : Prop :=
  n + (if U.args.modelGpu then 1 else 0) = U.args.inferenceEngines

end Setup

end EbpfIsp.Serving
