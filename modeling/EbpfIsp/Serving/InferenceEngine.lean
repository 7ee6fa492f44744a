import EbpfIsp.Library.Python
import EbpfIsp.Library.Queues
import EbpfIsp.Serving.Requests

/-! # The inference engines

An engine is a process with two threads. The main thread of `inferenceEngine`
takes a request, feeds the model's input queues and notes a response in
progress; the thread `run_model` runs the network on what it finds in the input
queues, then takes the next response in progress and completes it. Nothing but
the order of the queues says which response belongs to which inputs.

The model is a parameter, as only one of the wrappers that the engine can run
is part of the repository.
-/

namespace EbpfIsp.Serving
open Library Library.Queues

variable {n : ℕ} {Row β Time Tensor : Type}

/-- The generated inputs: for every batch the rows of dense features, and for every table the
lengths and the indices. -/
structure Dataset (Row : Type) where
  lX : List (List Row)
  lSl : List (List (List ℤ))
  lSi : List (List (List ℤ))

def upTo {α : Type} (k : ℤ) (l : List α) : List α :=
  if 0 ≤ k then l.take k.toNat else l.take (l.length - (-k).toNat)

structure Inputs (Row : Type) where
  ids : List (List ℤ)
  lengths : List (List ℤ)
  fc : List Row
  batchSize : ℤ

/-- The part of a batch that a request is about; `none` is an `IndexError`. The rows of
lengths and of indices are cut for each table. -/
def Dataset.inputs (data : Dataset Row) (numIndicesPerLookup : ℤ) (request : ServiceRequest Time) :
    Option (Inputs Row) := do
  let lSl ← data.lSl[request.batchId]?
  let lSi ← data.lSi[request.batchId]?
  let lX ← data.lX[request.batchId]?
  return {
    ids := lSi.map (upTo (request.batchSize * numIndicesPerLookup))
    lengths := lSl.map (upTo request.batchSize)
    fc := upTo request.batchSize lX
    batchSize := request.batchSize }

/-- A model with its input queues. A call of `run_queues` puts one tensor on each queue of
`feeds` and may fail after that. A run of the network takes one from each queue of
`dequeues`; `outSize` is the size of its output over the width of the last layer. -/
structure Wrapper (Row β Tensor : Type) where
  feeds : List β
  tensor : Inputs Row → β → Tensor
  raises : Option PyError
  dequeues : List β
  outSize : List Tensor → ℚ

/-- The response that the main thread notes when the inputs are fed. The engine does not
pass `sub_id` on. -/
def progressResponse (i : Fin n) (request : ServiceRequest Time) (startTime endTime : Time) :
    ServiceResponse Time where
  consumerId := i
  epoch := request.epoch
  batchId := request.batchId
  batchSize := request.batchSize
  arrivalTime := request.arrivalTime
  queueStartTime := startTime
  queueEndTime := endTime
  inferenceEndTime := none
  outBatchSize := none
  totalSubBatches := request.totalSubBatches
  expPacket := request.expPacket
  subId := none

/-- The main thread: `feed` has the queues that are still to be fed. -/
inductive Engine (Row β Time : Type) where
  | ready
  | receive
  | slice (request : ServiceRequest Time)
  | feed (request : ServiceRequest Time) (inputs : Inputs Row) (startTime : Time) (rest : List β)
  | log (request : ServiceRequest Time) (inputs : Inputs Row) (startTime endTime : Time)
  | logDone
  | respondDone
  | returned
  | rejected (request : ServiceRequest Time) (e : PyError)
  | failed (request : ServiceRequest Time) (inputs : Inputs Row) (e : PyError)

def inferenceEngine (args : Args) (data : Dataset Row) (w : Wrapper Row β Tensor) (i : Fin n) :
    Engine Row β Time → Op (Queue n β) (Message Time Tensor) Time (Engine Row β Time)
  | .ready => .put .ready () .receive
  | .receive =>
    .get .request fun
      | none => .logDone
      | some request => .slice request
  | .slice request =>
    match data.inputs args.numIndicesPerLookup request with
    | none => .choose fun _ => .rejected request .indexError
    | some inputs => .choose fun startTime => .feed request inputs startTime w.feeds
  | .feed request inputs startTime (b :: rest) =>
    .put (.blob i b) (w.tensor inputs b) (.feed request inputs startTime rest)
  | .feed request inputs startTime [] =>
    match w.raises with
    | some e => .choose fun _ => .failed request inputs e
    | none => .choose fun endTime => .log request inputs startTime endTime
  | .log request _ startTime endTime =>
    .put (.logging i) (some (progressResponse i request startTime endTime)) .ready
  | .logDone => .put (.logging i) none .respondDone
  | .respondDone => .put .response none .returned
  | .returned | .rejected _ _ | .failed _ _ _ => .stop

/-- The thread of the model: `run` has the queues that the current run has not read yet and
what it has read. -/
inductive Inference (β Time Tensor : Type) where
  | run (rest : List β) (got : List Tensor)
  | complete (response : ServiceResponse Time) (got : List Tensor)
  | respond (response : ServiceResponse Time) (got : List Tensor) (endTime : Time)
  | returned (got : List Tensor)

def finalResponse (w : Wrapper Row β Tensor) (response : ServiceResponse Time)
    (got : List Tensor) (endTime : Time) : ServiceResponse Time :=
  { response with inferenceEndTime := some endTime, outBatchSize := some (w.outSize got) }

def runModel (w : Wrapper Row β Tensor) (i : Fin n) :
    Inference β Time Tensor →
      Op (Queue n β) (Message Time Tensor) Time (Inference β Time Tensor)
  | .run (b :: rest) got => .get (.blob i b) fun tensor => .run rest (got ++ [tensor])
  | .run [] got =>
    .get (.logging i) fun
      | none => .returned got
      | some response => .complete response got
  | .complete response got => .choose fun endTime => .respond response got endTime
  | .respond response got endTime =>
    .put .response (some (finalResponse w response got endTime)) (.run w.dequeues [])
  | .returned _ => .stop

/-! ## Who uses which queue -/

theorem inferenceEngine_put {args : Args} {data : Dataset Row} {w : Wrapper Row β Tensor}
    {i : Fin n} {s s' : Engine Row β Time} {q : Queue n β} {m : Message Time Tensor q}
    (h : inferenceEngine args data w i s = .put q m s') :
    q = .ready ∨ q = .response ∨ q = .logging i ∨ ∃ b, q = .blob i b := by
  unfold inferenceEngine at h
  split at h <;> (try split at h) <;> cases h <;> simp

theorem inferenceEngine_get {args : Args} {data : Dataset Row} {w : Wrapper Row β Tensor}
    {i : Fin n} {s : Engine Row β Time} {q : Queue n β}
    {next : Message Time Tensor q → Engine Row β Time}
    (h : inferenceEngine args data w i s = .get q next) : q = .request := by
  unfold inferenceEngine at h
  split at h <;> (try split at h) <;> cases h
  rfl

theorem runModel_put {w : Wrapper Row β Tensor} {i : Fin n} {s s' : Inference β Time Tensor}
    {q : Queue n β} {m : Message Time Tensor q} (h : runModel w i s = .put q m s') :
    q = .response := by
  unfold runModel at h
  split at h <;> cases h
  rfl

theorem runModel_get {w : Wrapper Row β Tensor} {i : Fin n} {s : Inference β Time Tensor}
    {q : Queue n β} {next : Message Time Tensor q → Inference β Time Tensor}
    (h : runModel w i s = .get q next) : q = .logging i ∨ ∃ b, q = .blob i b := by
  unfold runModel at h
  split at h <;> cases h <;> simp

/-! ## The wrapper of the recommendation model -/

inductive DlrmBlob where
  | fc
  | id (table : ℕ)
  | len (table : ℕ)
  deriving DecidableEq

inductive DlrmTensor (Row : Type) where
  | dense (rows : List Row)
  | sparse (values : List ℤ)

/-- `DLRM_Wrapper` for `tables` tables. `run_queues` feeds the dense features and the indices
of the first table; the next statement names the module `Workspace`, which does not exist.
The network reads the queues of each table and then the dense features. -/
def dlrmWrapper (tables : ℕ) (outSize : List (DlrmTensor Row) → ℚ) :
    Wrapper Row DlrmBlob (DlrmTensor Row) where
  feeds := .fc :: if tables = 0 then [] else [.id 0]
  tensor inputs
    | .fc => .dense inputs.fc
    | .id t => .sparse (inputs.ids.getD t [])
    | .len t => .sparse (inputs.lengths.getD t [])
  raises := if tables = 0 then none else some .nameError
  dequeues := (List.range tables).flatMap (fun t => [.id t, .len t]) ++ [.fc]
  outSize := outSize

/-! ## What the main thread does -/

section Main
variable [DecidableEq β] {args : Args} {data : Dataset Row} {w : Wrapper Row β Tensor} {i : Fin n}

/-- A request that is fed and noted. -/
structure Work (Row Time : Type) where
  request : ServiceRequest Time
  inputs : Inputs Row
  startTime : Time
  endTime : Time

namespace Engine

def taken : Engine Row β Time → List (Option (ServiceRequest Time))
  | .ready | .receive => []
  | .slice r | .feed r _ _ _ | .log r _ _ _ | .rejected r _ | .failed r _ _ => [some r]
  | .logDone | .respondDone | .returned => [none]

def feeding : Engine Row β Time → List (Inputs Row)
  | .feed _ inputs _ _ | .log _ inputs _ _ | .failed _ inputs _ => [inputs]
  | _ => []

def unfed : Engine Row β Time → List β
  | .feed _ _ _ rest => rest
  | _ => []

def noted : Engine Row β Time → List (Option (ServiceResponse Time))
  | .respondDone | .returned => [none]
  | _ => []

def answered : Engine Row β Time → List (Option (ServiceResponse Time))
  | .returned => [none]
  | _ => []

def announced : Engine Row β Time → ℕ
  | .ready => 0
  | _ => 1

/-- What the place in the program says about the model and the inputs. -/
def Control (args : Args) (data : Dataset Row) (w : Wrapper Row β Tensor) :
    Engine Row β Time → Prop
  | .log _ _ _ _ => w.raises = none
  | .rejected r e => data.inputs args.numIndicesPerLookup r = none ∧ e = .indexError
  | .failed _ _ e => w.raises = some e
  | _ => True

end Engine

def Wrapper.tensors (w : Wrapper Row β Tensor) (bs : List β) (b : β) (inputs : Inputs Row) :
    List Tensor :=
  (bs.filter (· = b)).map (w.tensor inputs)

/-- What the main thread has done: the requests `ws` and the one it works on. -/
structure Worked (args : Args) (data : Dataset Row) (w : Wrapper Row β Tensor) (i : Fin n)
    (ws : List (Work Row Time)) (as : List (Act (Queue n β) (Message Time Tensor)))
    (s : Engine Row β Time) : Prop where
  inputs : ∀ x ∈ ws, data.inputs args.numIndicesPerLookup x.request = some x.inputs
  current : ∀ r inputs, s.taken = [some r] → s.feeding = [inputs] →
    data.inputs args.numIndicesPerLookup r = some inputs
  control : s.Control args data w
  completes : ws ≠ [] → w.raises = none
  unfed : s.unfed.Sublist w.feeds
  request : gets .request as = ws.map (fun x => some x.request) ++ s.taken
  logging : puts (.logging i) as =
    ws.map (fun x => some (progressResponse i x.request x.startTime x.endTime)) ++ s.noted
  blob : ∀ b, puts (.blob i b) as ++ s.feeding.flatMap (w.tensors s.unfed b) =
    (ws.map Work.inputs ++ s.feeding).flatMap (w.tensors w.feeds b)
  ready : (puts .ready as).length = ws.length + s.announced
  response : puts .response as = s.answered

variable {ws : List (Work Row Time)} {as : List (Act (Queue n β) (Message Time Tensor))}
  {s s' : Engine Row β Time} {a : Act (Queue n β) (Message Time Tensor)}

theorem Worked.start : Worked args data w i ([] : List (Work Row Time)) [] .ready := by
  constructor <;> simp [Engine.taken, Engine.feeding, Engine.noted, Engine.announced,
    Engine.answered, Engine.Control, Engine.unfed]

attribute [local simp] Engine.taken Engine.feeding Engine.unfed Engine.noted Engine.answered
  Engine.announced Engine.Control

theorem Worked.step (h : Worked args data w i ws as s)
    (hl : Local (inferenceEngine args data w i) s a s') :
    ∃ ws, Worked args data w i ws (as ++ [a]) s' := by
  obtain ⟨hin, hcur, hctl, hdone, hunfed, hreq, hlog, hblob, hready, hresp⟩ := h
  cases s with
  | ready =>
    obtain ⟨rfl, rfl⟩ := hl.put_inv rfl
    refine ⟨ws, hin, ?_, ?_, hdone, ?_, ?_, ?_, ?_, ?_, ?_⟩ <;> simp_all
  | receive =>
    obtain ⟨m, rfl, rfl⟩ := hl.get_inv rfl
    cases m with
    | none => refine ⟨ws, hin, ?_, ?_, hdone, ?_, ?_, ?_, ?_, ?_, ?_⟩ <;> simp_all
    | some r => refine ⟨ws, hin, ?_, ?_, hdone, ?_, ?_, ?_, ?_, ?_, ?_⟩ <;> simp_all
  | slice r =>
    cases hd : data.inputs args.numIndicesPerLookup r with
    | none =>
      obtain ⟨c, rfl, rfl⟩ := hl.choose_inv (by simp only [inferenceEngine, hd]; rfl)
      refine ⟨ws, hin, ?_, ?_, hdone, ?_, ?_, ?_, ?_, ?_, ?_⟩ <;> simp_all
    | some inputs =>
      obtain ⟨c, rfl, rfl⟩ := hl.choose_inv (by simp only [inferenceEngine, hd]; rfl)
      refine ⟨ws, hin, ?_, ?_, hdone, ?_, ?_, ?_, ?_, ?_, ?_⟩ <;> simp_all
  | feed r inputs t rest =>
    cases rest with
    | nil =>
      cases hr : w.raises with
      | none =>
        obtain ⟨c, rfl, rfl⟩ := hl.choose_inv (by simp only [inferenceEngine, hr]; rfl)
        refine ⟨ws, hin, ?_, ?_, hdone, ?_, ?_, ?_, ?_, ?_, ?_⟩ <;> simp_all
      | some e =>
        obtain ⟨c, rfl, rfl⟩ := hl.choose_inv (by simp only [inferenceEngine, hr]; rfl)
        refine ⟨ws, hin, ?_, ?_, hdone, ?_, ?_, ?_, ?_, ?_, ?_⟩ <;> simp_all
    | cons b rest =>
      obtain ⟨rfl, rfl⟩ := hl.put_inv rfl
      refine ⟨ws, hin, hcur, trivial, hdone, ?_, ?_, ?_, ?_, ?_, ?_⟩
      · exact (List.sublist_cons_self _ _).trans hunfed
      · simpa using hreq
      · simpa using hlog
      · intro b'
        refine Eq.trans ?_ (hblob b')
        by_cases hb : b = b'
        · subst hb
          simp [Wrapper.tensors]
        · simp [Wrapper.tensors, hb]
      · simpa using hready
      · simpa using hresp
  | log r inputs t t' =>
    obtain ⟨rfl, rfl⟩ := hl.put_inv rfl
    refine ⟨ws ++ [⟨r, inputs, t, t'⟩], ?_, ?_, trivial, fun _ => hctl, ?_, ?_, ?_, ?_, ?_, ?_⟩
    · intro x hx
      rcases List.mem_append.mp hx with hx | hx
      · exact hin x hx
      · rw [List.mem_singleton.mp hx]
        exact hcur r inputs rfl rfl
    · simp
    · simp
    · simpa using hreq
    · simpa using hlog
    · simpa [Wrapper.tensors] using hblob
    · simpa using hready
    · simpa using hresp
  | logDone =>
    obtain ⟨rfl, rfl⟩ := hl.put_inv rfl
    refine ⟨ws, hin, ?_, ?_, hdone, ?_, ?_, ?_, ?_, ?_, ?_⟩ <;> simp_all
  | respondDone =>
    obtain ⟨rfl, rfl⟩ := hl.put_inv rfl
    refine ⟨ws, hin, ?_, ?_, hdone, ?_, ?_, ?_, ?_, ?_, ?_⟩ <;> simp_all
  | returned | rejected r e | failed r inputs e => exact (hl.stop_inv rfl).elim

theorem worked_of_trace (h : Trace (inferenceEngine args data w i) .ready as s) :
    ∃ ws, Worked args data w i ws as s := by
  refine h.invariant (I := fun as s => ∃ ws, Worked args data w i ws as s) ⟨[], .start⟩ ?_
  rintro as s a s' ⟨ws, hw⟩ hl
  exact hw.step hl

end Main

/-! ## What the thread of the model does -/

section Model
variable [DecidableEq β] {w : Wrapper Row β Tensor} {i : Fin n}

/-- A completed run of the network: what it read, the response it took and when it ended. -/
structure Inferred (Time Tensor : Type) where
  got : List Tensor
  response : ServiceResponse Time
  endTime : Time

namespace Inference

def reading : Inference β Time Tensor → List Tensor
  | .run _ got | .complete _ got | .respond _ got _ | .returned got => got

def completing : Inference β Time Tensor → List (Option (ServiceResponse Time))
  | .run _ _ => []
  | .complete r _ | .respond r _ _ => [some r]
  | .returned _ => [none]

def unread : Inference β Time Tensor → List β
  | .run rest _ => rest
  | _ => []

end Inference

def Wrapper.readFrom (w : Wrapper Row β Tensor) (b : β) (got : List Tensor) : List Tensor :=
  ((w.dequeues.zip got).filter (·.1 = b)).map Prod.snd

/-- What the thread of the model has done: the runs `cs` and the current one. -/
structure Ran (w : Wrapper Row β Tensor) (i : Fin n) (cs : List (Inferred Time Tensor))
    (as : List (Act (Queue n β) (Message Time Tensor))) (s : Inference β Time Tensor) : Prop where
  full : ∀ c ∈ cs, c.got.length = w.dequeues.length
  current : w.dequeues.drop s.reading.length = s.unread
  bounded : s.reading.length ≤ w.dequeues.length
  blob : ∀ b, gets (.blob i b) as =
    cs.flatMap (fun c => w.readFrom b c.got) ++ w.readFrom b s.reading
  logging : gets (.logging i) as = cs.map (fun c => some c.response) ++ s.completing
  response : puts .response as =
    cs.map fun c => some (finalResponse w c.response c.got c.endTime)

variable {cs : List (Inferred Time Tensor)} {as : List (Act (Queue n β) (Message Time Tensor))}
  {s s' : Inference β Time Tensor} {a : Act (Queue n β) (Message Time Tensor)}

theorem Ran.start : Ran w i ([] : List (Inferred Time Tensor)) [] (.run w.dequeues []) := by
  constructor <;> simp [Inference.reading, Inference.unread, Inference.completing,
    Wrapper.readFrom]

theorem Wrapper.readFrom_snoc {got : List Tensor} {b : β} {rest : List β}
    (h : w.dequeues.drop got.length = b :: rest) (b' : β) (t : Tensor) :
    w.readFrom b' (got ++ [t]) = w.readFrom b' got ++ if b = b' then [t] else [] := by
  have hlen : got.length < w.dequeues.length := by
    by_contra hge
    rw [List.drop_eq_nil_of_le (not_lt.mp hge)] at h
    cases h
  have hsplit : w.dequeues = w.dequeues.take got.length ++ b :: rest := by
    rw [← h, List.take_append_drop]
  have htake : (w.dequeues.take got.length).length = got.length :=
    List.length_take_of_le hlen.le
  have hzip : w.dequeues.zip (got ++ [t]) = w.dequeues.zip got ++ [(b, t)] := by
    have hold : (w.dequeues.take got.length ++ b :: rest).zip (got ++ []) =
        (w.dequeues.take got.length).zip got ++ (b :: rest).zip [] := List.zip_append htake
    have hnew : (w.dequeues.take got.length ++ b :: rest).zip (got ++ [t]) =
        (w.dequeues.take got.length).zip got ++ (b :: rest).zip [t] := List.zip_append htake
    rw [← hsplit] at hold hnew
    simp only [List.append_nil, List.zip_nil_right] at hold
    rw [hnew, hold]
    simp
  by_cases hb : b = b' <;> simp [Wrapper.readFrom, hzip, hb]

attribute [local simp] Inference.reading Inference.completing Inference.unread

theorem Ran.step (h : Ran w i cs as s) (hl : Local (runModel w i) s a s') :
    ∃ cs, Ran w i cs (as ++ [a]) s' := by
  obtain ⟨hfull, hcur, hbd, hblob, hlog, hresp⟩ := h
  cases s with
  | run rest got =>
    cases rest with
    | cons b rest =>
      obtain ⟨t, rfl, rfl⟩ := hl.get_inv rfl
      simp only [Inference.reading, Inference.unread] at hcur hbd hblob
      have hlen : got.length < w.dequeues.length := by
        by_contra hge
        rw [List.drop_eq_nil_of_le (not_lt.mp hge)] at hcur
        cases hcur
      refine ⟨cs, hfull, ?_, ?_, ?_, ?_, ?_⟩
      · simp [← List.drop_drop, hcur]
      · simpa using hlen
      · intro b'
        by_cases hb : b = b'
        · subst hb
          simp [hblob, Wrapper.readFrom_snoc hcur]
        · simp [hblob, Wrapper.readFrom_snoc hcur, hb]
      · simpa using hlog
      · simpa using hresp
    | nil =>
      obtain ⟨m, rfl, rfl⟩ := hl.get_inv rfl
      cases m with
      | none => refine ⟨cs, hfull, ?_, ?_, ?_, ?_, ?_⟩ <;> simp_all
      | some r => refine ⟨cs, hfull, ?_, ?_, ?_, ?_, ?_⟩ <;> simp_all
  | complete r got =>
    obtain ⟨c, rfl, rfl⟩ := hl.choose_inv rfl
    refine ⟨cs, hfull, ?_, ?_, ?_, ?_, ?_⟩ <;> simp_all
  | respond r got t =>
    obtain ⟨rfl, rfl⟩ := hl.put_inv rfl
    simp only [Inference.reading, Inference.unread, Inference.completing] at hcur hbd hblob hlog
    refine ⟨cs ++ [⟨got, r, t⟩], ?_, ?_, ?_, ?_, ?_, ?_⟩
    · intro c hc
      rcases List.mem_append.mp hc with hc | hc
      · exact hfull c hc
      · rw [List.mem_singleton.mp hc]
        exact le_antisymm hbd (List.drop_eq_nil_iff.mp hcur)
    · simp
    · simp
    · intro b
      simp [hblob b, Wrapper.readFrom]
    · simpa using hlog
    · simp [hresp]
  | returned got => exact (hl.stop_inv rfl).elim

theorem ran_of_trace (h : Trace (runModel w i) (.run w.dequeues []) as s) :
    ∃ cs : List (Inferred Time Tensor), Ran w i cs as s := by
  refine h.invariant
    (I := fun as s => ∃ cs : List (Inferred Time Tensor), Ran w i cs as s) ⟨[], .start⟩ ?_
  rintro as s a s' ⟨cs, hr⟩ hl
  exact hr.step hl

end Model

end EbpfIsp.Serving
