import EbpfIsp.Serving.Protocol

/-! # Responses

The thread of the model never sees a request. It reads tensors from the input
queues and responses in progress from the internal queue, and completes the
`j`-th response with the output of its `j`-th run. That this is the output for
the `j`-th request rests on the order of all these queues.
-/

namespace EbpfIsp.Serving
open Library Library.Queues

variable {n : ℕ} {Row β Time Tensor E : Type} [DecidableEq β]

/-- A wrapper whose `run_queues`, if it completes, has fed each input queue once; a run of the
network reads each of them once, in any order. -/
structure Wrapper.Lawful (w : Wrapper Row β Tensor) : Prop where
  feeds_nodup : w.raises = none → w.feeds.Nodup
  dequeues_perm : w.raises = none → w.dequeues.Perm w.feeds

omit [DecidableEq β] in
theorem Wrapper.Lawful.dequeues_nodup {w : Wrapper Row β Tensor} (hw : w.Lawful)
    (hr : w.raises = none) : w.dequeues.Nodup :=
  (hw.dequeues_perm hr).nodup_iff.mpr (hw.feeds_nodup hr)

/-- A run of the network reads some input queue, and no less often than `run_queues` feeds it. -/
def Wrapper.NeedsInputs (w : Wrapper Row β Tensor) : Prop :=
  ∃ b ∈ w.dequeues, w.feeds.count b ≤ w.dequeues.count b

/-- `DLRM_Wrapper` never comes to feed the lengths of the first table. -/
theorem dlrmWrapper_needsInputs {tables : ℕ} (htables : 0 < tables)
    (outSize : List (DlrmTensor Row) → ℚ) : (dlrmWrapper tables outSize).NeedsInputs := by
  refine ⟨.len 0, ?_, ?_⟩
  · simp [dlrmWrapper, htables]
  · simp [dlrmWrapper, htables.ne']

theorem Wrapper.length_readFrom (w : Wrapper Row β Tensor) (b : β) {got : List Tensor}
    (h : got.length = w.dequeues.length) : (w.readFrom b got).length = w.dequeues.count b := by
  have hfst : (w.dequeues.zip got).map Prod.fst = w.dequeues := List.map_fst_zip h.ge
  conv_rhs => rw [← hfst]
  rw [Wrapper.readFrom, List.length_map, ← List.countP_eq_length_filter, List.count,
    List.countP_map]
  apply List.countP_congr
  simp

theorem flatMap_eq_map {A B : Type} {l : List A} {f : A → List B} {g : A → B}
    (h : ∀ x ∈ l, f x = [g x]) : l.flatMap f = l.map g := by
  rw [List.map_eq_flatMap]
  exact List.flatMap_congr h

theorem zip_filter_of_nodup {l : List β} (hl : l.Nodup) {p : ℕ} {b : β} (hp : l[p]? = some b)
    (got : List Tensor) :
    ((l.zip got).filter (·.1 = b)).map Prod.snd = got[p]?.toList := by
  induction l generalizing p got with
  | nil => simp at hp
  | cons x xs ih =>
    obtain ⟨hx, hxs⟩ := List.nodup_cons.mp hl
    cases got with
    | nil => simp
    | cons t ts =>
      cases p with
      | zero =>
        obtain rfl : x = b := by simpa using hp
        have hnil : (xs.zip ts).filter (·.1 = x) = [] := by
          apply List.filter_eq_nil_iff.mpr
          intro e he
          have hmem := (List.of_mem_zip he).1
          have hne : e.1 ≠ x := fun h => hx (h ▸ hmem)
          simpa using hne
        simp [hnil]
      | succ p =>
        have hmem : b ∈ xs := List.mem_of_getElem? (by simpa using hp)
        have hne : x ≠ b := fun h => hx (h ▸ hmem)
        simpa [hne] using ih hxs (by simpa using hp) ts

theorem Wrapper.Lawful.tensors_eq {w : Wrapper Row β Tensor} (hw : w.Lawful)
    (hr : w.raises = none) {b : β} (hb : b ∈ w.feeds) (inputs : Inputs Row) :
    w.tensors w.feeds b inputs = [w.tensor inputs b] := by
  have hfilter : w.feeds.filter (· = b) = List.replicate (w.feeds.count b) b :=
    List.filter_beq b
  rw [Wrapper.tensors, hfilter, List.count_eq_one_of_mem (hw.feeds_nodup hr) hb]
  rfl

omit [DecidableEq β] in
theorem Engine.eq_none_of_mem_noted {s : Engine Row β Time} {m : Option (ServiceResponse Time)}
    (h : m ∈ s.noted) : m = none := by
  cases s <;> simp_all [Engine.noted]

omit [DecidableEq β] in
/-- With a `run_queues` that raises `e`, an engine that has taken a request is still before the
failing statement, or has failed. -/
theorem Engine.place_of_raises {args : Args} {data : Dataset Row} {w : Wrapper Row β Tensor}
    {s : Engine Row β Time} (hctl : s.Control args data w) {e : PyError} (he : w.raises = some e)
    {r : ServiceRequest Time} (hr : r ∈ s.taken.reduceOption) :
    s = .slice r ∨ (∃ inputs t rest, s = .feed r inputs t rest) ∨ s = .rejected r .indexError ∨
      ∃ inputs, s = .failed r inputs e := by
  have hmem : some r ∈ s.taken := List.reduceOption_mem_iff.mp hr
  cases s with
  | slice r' =>
    obtain rfl : r = r' := by simpa [Engine.taken] using hmem
    exact .inl rfl
  | feed r' inputs t rest =>
    obtain rfl : r = r' := by simpa [Engine.taken] using hmem
    exact .inr (.inl ⟨inputs, t, rest, rfl⟩)
  | rejected r' e' =>
    obtain rfl : r = r' := by simpa [Engine.taken] using hmem
    obtain ⟨-, rfl⟩ := hctl
    exact .inr (.inr (.inl rfl))
  | failed r' inputs e' =>
    obtain rfl : r = r' := by simpa [Engine.taken] using hmem
    rw [Engine.Control, he, Option.some.injEq] at hctl
    exact .inr (.inr (.inr ⟨inputs, by rw [hctl]⟩))
  | log r' inputs t t' =>
    rw [Engine.Control, he] at hctl
    cases hctl
  | _ => simp [Engine.taken] at hmem

namespace Setup

variable {U : Setup n Row β Time Tensor E}
  {S : Config (Party n) (Queue n β) (Message Time Tensor) (Party.State Row β Time Tensor E)}

def answers (S : Config (Party n) (Queue n β) (Message Time Tensor)
    (Party.State Row β Time Tensor E)) (i : Fin n) : List (Option (ServiceResponse Time)) :=
  puts .response (S.own (.model i))

/-- The internal queue of an engine, between its two threads. -/
theorem logging_fifo (hS : U.network.Reachable S) {i : Fin n} {ws : List (Work Row Time)}
    {cs : List (Inferred Time Tensor)}
    (hw : Worked U.args (U.data i) U.wrapper i ws (S.own (.engine i)) (S.agent (.engine i)))
    (hc : Ran U.wrapper i cs (S.own (.model i)) (S.agent (.model i))) :
    ws.map (fun x => some (progressResponse i x.request x.startTime x.endTime)) ++
        (S.agent (.engine i)).noted =
      cs.map (fun c => some c.response) ++ (S.agent (.model i)).completing ++
        S.queue (.logging i) := by
  rw [← hw.logging, ← hc.logging, ← puts_logging hS, ← gets_logging hS]
  exact hS.fifo (.logging i)

theorem response_of_run (hS : U.network.Reachable S) {i : Fin n} {ws : List (Work Row Time)}
    {cs : List (Inferred Time Tensor)}
    (hw : Worked U.args (U.data i) U.wrapper i ws (S.own (.engine i)) (S.agent (.engine i)))
    (hc : Ran U.wrapper i cs (S.own (.model i)) (S.agent (.model i))) {j : ℕ}
    {c : Inferred Time Tensor} (hj : cs[j]? = some c) :
    ∃ x, ws[j]? = some x ∧ c.response = progressResponse i x.request x.startTime x.endTime := by
  have hlt : j < cs.length := (List.getElem?_eq_some_iff.mp hj).1
  have hlog := congrArg (fun l => l[j]?) (logging_fifo hS hw hc)
  simp only [List.append_assoc, List.getElem?_append, List.length_map, hlt, if_true,
    List.getElem?_map, hj, Option.map_some] at hlog
  by_cases hws : j < ws.length
  · rw [if_pos hws, List.getElem?_eq_getElem hws, Option.map_some, Option.some.injEq,
      Option.some.injEq] at hlog
    exact ⟨ws[j], List.getElem?_eq_getElem hws, hlog.symm⟩
  · rw [if_neg hws] at hlog
    cases Engine.eq_none_of_mem_noted (List.mem_of_getElem? hlog)

/-- Run `j` read the inputs of request `j`. -/
theorem got_of_run (hU : U.wrapper.Lawful) (hS : U.network.Reachable S) {i : Fin n}
    {ws : List (Work Row Time)} {cs : List (Inferred Time Tensor)}
    (hw : Worked U.args (U.data i) U.wrapper i ws (S.own (.engine i)) (S.agent (.engine i)))
    (hc : Ran U.wrapper i cs (S.own (.model i)) (S.agent (.model i))) {j : ℕ}
    {c : Inferred Time Tensor} (hj : cs[j]? = some c) {x : Work Row Time}
    (hx : ws[j]? = some x) : c.got = U.wrapper.dequeues.map (U.wrapper.tensor x.inputs) := by
  have hr : U.wrapper.raises = none := hw.completes (List.ne_nil_of_mem (List.mem_of_getElem? hx))
  have hnodup := hU.dequeues_nodup hr
  have hfull := hc.full c (List.mem_of_getElem? hj)
  apply List.ext_getElem?
  intro p
  by_cases hp : p < U.wrapper.dequeues.length
  · -- queue `b` is number `p` in the order in which the network reads
    obtain ⟨b, hb⟩ : ∃ b, U.wrapper.dequeues[p]? = some b := ⟨_, List.getElem?_eq_getElem hp⟩
    have hfeeds : b ∈ U.wrapper.feeds := (hU.dequeues_perm hr).subset (List.mem_of_getElem? hb)
    obtain ⟨t, ht⟩ : ∃ t, c.got[p]? = some t := ⟨_, List.getElem?_eq_getElem (by omega)⟩
    have hread : cs.flatMap (fun c => U.wrapper.readFrom b c.got) =
        cs.map fun c => c.got.getD p t := by
      apply flatMap_eq_map
      intro c' hc'
      have hlt : p < c'.got.length := by rw [hc.full c' hc']; exact hp
      rw [Wrapper.readFrom, zip_filter_of_nodup hnodup hb, List.getD_eq_getElem?_getD,
        List.getElem?_eq_getElem hlt]
      rfl
    have hfed : ((ws.map Work.inputs ++ (S.agent (.engine i)).feeding).flatMap
        (U.wrapper.tensors U.wrapper.feeds b)) =
          (ws.map Work.inputs ++ (S.agent (.engine i)).feeding).map (U.wrapper.tensor · b) := by
      exact flatMap_eq_map fun inputs _ => hU.tensors_eq hr hfeeds inputs
    have hfifo := hS.fifo (.blob i b)
    rw [puts_blob hS, gets_blob hS, hc.blob b, hread] at hfifo
    have hall := hw.blob b
    rw [hfifo, hfed] at hall
    have hlt : j < cs.length := (List.getElem?_eq_some_iff.mp hj).1
    have hlt' : j < ws.length := (List.getElem?_eq_some_iff.mp hx).1
    have hat := congrArg (fun l => l[j]?) hall
    simp only [List.append_assoc, List.map_append, List.getElem?_append, List.length_map, hlt, hlt',
      if_true, List.getElem?_map, hj, hx, Option.map_some] at hat
    rw [ht, List.getElem?_map, hb, Option.map_some, ← hat, List.getD_eq_getElem?_getD, ht]
    rfl
  · rw [List.getElem?_eq_none (by omega), List.getElem?_eq_none (by simpa using hp)]

theorem taken_eq {i : Fin n} {ws : List (Work Row Time)}
    (hw : Worked U.args (U.data i) U.wrapper i ws (S.own (.engine i)) (S.agent (.engine i))) :
    taken S i = ws.map Work.request ++ (S.agent (.engine i)).taken.reduceOption := by
  have hmap : ws.map (fun x => some x.request) = (ws.map Work.request).map some := by simp
  rw [taken, hw.request, List.reduceOption_append, hmap, reduceOption_map_some]

/-- The `j`-th answer of an engine answers the `j`-th request it took. It carries the request's
fields, but for the number of the sub-request, and its output size is that of a run on this
request's own inputs. -/
theorem answers_match_requests (hU : U.wrapper.Lawful) (hS : U.network.Reachable S) (i : Fin n)
    (j : ℕ) (m : Option (ServiceResponse Time)) (hj : (answers S i)[j]? = some m) :
    ∃ r inputs t₀ t₁ t₂,
      (taken S i)[j]? = some r ∧
      (U.data i).inputs U.args.numIndicesPerLookup r = some inputs ∧
      m = some {
        consumerId := i
        epoch := r.epoch
        batchId := r.batchId
        batchSize := r.batchSize
        arrivalTime := r.arrivalTime
        queueStartTime := t₀
        queueEndTime := t₁
        inferenceEndTime := some t₂
        outBatchSize := some (U.wrapper.outSize (U.wrapper.dequeues.map (U.wrapper.tensor inputs)))
        totalSubBatches := r.totalSubBatches
        expPacket := r.expPacket
        subId := none } := by
  obtain ⟨ws, hw⟩ := worked_of_trace (hS.trace (.engine i))
  obtain ⟨cs, hc⟩ := ran_of_trace (hS.trace (.model i))
  rw [answers, hc.response, List.getElem?_map] at hj
  obtain ⟨c, hcj, rfl⟩ := Option.map_eq_some_iff.mp hj
  obtain ⟨x, hx, hresp⟩ := response_of_run hS hw hc hcj
  have hgot := got_of_run hU hS hw hc hcj hx
  have hlt : j < ws.length := (List.getElem?_eq_some_iff.mp hx).1
  refine ⟨x.request, x.inputs, x.startTime, x.endTime, c.endTime, ?_, ?_, ?_⟩
  · rw [taken_eq hw, List.getElem?_append_left (by simpa using hlt), List.getElem?_map, hx]
    rfl
  · exact hw.inputs x (List.mem_of_getElem? hx)
  · rw [hresp, hgot]
    rfl

theorem smallWrapper_lawful : smallWrapper.Lawful := ⟨fun _ => by decide, fun _ => by decide⟩

theorem answers_match_requests_small :
    (taken smallEnd.1 0)[1]? = some ⟨0, 0, (), 1, 1, 2, false⟩ ∧
    (answers smallEnd.1 0)[1]? =
      some (some ⟨0, 0, 0, 1, (), (), (), some (), some 1, 2, false, none⟩) := by
  obtain ⟨m, hm⟩ : ∃ m, (answers smallEnd.1 0)[1]? = some m := ⟨_, rfl⟩
  obtain ⟨r, inputs, t₀, t₁, t₂, hr, hin, hanswer⟩ :=
    answers_match_requests (U := small smallArgs smallWrapper) smallWrapper_lawful smallEnd.2 0 1 m
      hm
  have htaken : (taken smallEnd.1 0)[1]? = some ⟨0, 0, (), 1, 1, 2, false⟩ := by decide +kernel
  cases htaken.symm.trans hr
  cases hin
  refine ⟨htaken, ?_⟩
  rw [hm, hanswer]
  rfl

/-! ## Balances -/

theorem length_tensors (w : Wrapper Row β Tensor) (bs : List β) (b : β) (inputs : Inputs Row) :
    (w.tensors bs b inputs).length = bs.count b := by
  have hfilter : bs.filter (· = b) = List.replicate (bs.count b) b := List.filter_beq b
  rw [Wrapper.tensors, hfilter, List.length_map, List.length_replicate]

theorem length_flatMap_tensors (w : Wrapper Row β Tensor) (bs : List β) (b : β)
    (l : List (Inputs Row)) : (l.flatMap (w.tensors bs b)).length = l.length * bs.count b := by
  simp [List.length_flatMap, length_tensors]

theorem logging_balance (hS : U.network.Reachable S) {i : Fin n} {ws : List (Work Row Time)}
    {cs : List (Inferred Time Tensor)}
    (hw : Worked U.args (U.data i) U.wrapper i ws (S.own (.engine i)) (S.agent (.engine i)))
    (hc : Ran U.wrapper i cs (S.own (.model i)) (S.agent (.model i))) :
    ws.length + (S.agent (.engine i)).noted.length =
      cs.length + (S.agent (.model i)).completing.length + (S.queue (.logging i)).length := by
  have := congrArg List.length (logging_fifo hS hw hc)
  simpa [Nat.add_assoc] using this

omit [DecidableEq β] in
theorem feeding_of_noted {s : Engine Row β Time} (h : s.noted ≠ []) : s.feeding = [] := by
  cases s <;> simp_all [Engine.feeding, Engine.noted]

omit [DecidableEq β] in
theorem length_noted_le (s : Engine Row β Time) : s.noted.length ≤ 1 := by
  cases s <;> simp [Engine.noted]

/-- A thread that has returned has completed one run more than the engine has noted responses. -/
theorem balance_of_returned (hS : U.network.Reachable S) {i : Fin n} {got : List Tensor}
    (hret : S.agent (.model i) = .returned got) {ws : List (Work Row Time)}
    {cs : List (Inferred Time Tensor)}
    (hw : Worked U.args (U.data i) U.wrapper i ws (S.own (.engine i)) (S.agent (.engine i)))
    (hc : Ran U.wrapper i cs (S.own (.model i)) (S.agent (.model i))) :
    cs.length = ws.length ∧ (S.agent (.engine i)).feeding = [] ∧
      got.length = U.wrapper.dequeues.length := by
  have hcur := hc.current
  have hbd := hc.bounded
  simp only [hret, Inference.reading, Inference.unread, List.drop_eq_nil_iff] at hcur hbd
  have hbal := logging_balance hS hw hc
  simp only [hret, Inference.completing, List.length_singleton] at hbal
  have hone := length_noted_le (S.agent (.engine i))
  have hat := congrArg (fun l => l[cs.length]?) (logging_fifo hS hw hc)
  simp only [hret, Inference.completing, List.append_assoc, List.getElem?_append, List.length_map,
    lt_self_iff_false, if_false, Nat.sub_self, List.length_singleton, Nat.zero_lt_one, if_true,
    List.getElem?_cons_zero] at hat
  by_cases hlt : cs.length < ws.length
  · simp [hlt] at hat
  · have hnoted : (S.agent (.engine i)).noted ≠ [] := by
      intro hnil
      simp [hlt, hnil] at hat
    exact ⟨by omega, feeding_of_noted hnoted, le_antisymm hbd hcur⟩

theorem model_not_returned (hU : U.wrapper.NeedsInputs) (hS : U.network.Reachable S) (i : Fin n)
    (got : List Tensor) : S.agent (.model i) ≠ .returned got := by
  intro hret
  obtain ⟨ws, hw⟩ := worked_of_trace (hS.trace (.engine i))
  obtain ⟨cs, hc⟩ := ran_of_trace (hS.trace (.model i))
  obtain ⟨hlen, hfeeding, hgot⟩ := balance_of_returned hS hret hw hc
  obtain ⟨b, hb, hcount⟩ := hU
  -- the runs have read more from queue `b` than was fed
  have hputs := congrArg List.length (hw.blob b)
  simp only [hfeeding, List.flatMap_nil, List.append_nil, length_flatMap_tensors,
    List.length_map] at hputs
  have hruns : (cs.flatMap fun c => U.wrapper.readFrom b c.got).length =
      cs.length * U.wrapper.dequeues.count b := by
    have hmap : (cs.map fun c => (U.wrapper.readFrom b c.got).length) =
        cs.map fun _ => U.wrapper.dequeues.count b :=
      List.map_congr_left fun c hmem => U.wrapper.length_readFrom b (hc.full c hmem)
    rw [List.length_flatMap, hmap]
    simp
  have hgets := congrArg List.length (hc.blob b)
  rw [List.length_append, hruns, hret, Inference.reading, U.wrapper.length_readFrom b hgot] at hgets
  have hfifo := congrArg List.length (hS.fifo (.blob i b))
  rw [puts_blob hS, gets_blob hS, List.length_append, hputs, hgets, hlen] at hfifo
  have hle := Nat.mul_le_mul_left ws.length hcount
  have hpos := List.count_pos_iff.mpr hb
  omega

/-- The thread of a model never returns. The signal that would end it comes after the last
response, but before it looks for a response the thread runs the network once more, and no
inputs are fed for that run. When the engine has returned, the signal is still unread. -/
theorem done_signal_unread (hU : U.wrapper.NeedsInputs) (hS : U.network.Reachable S) (i : Fin n) :
    (∀ got, S.agent (.model i) ≠ .returned got) ∧
    (S.agent (.engine i) = .returned → none ∈ S.queue (.logging i)) := by
  have hnot := model_not_returned hU hS i
  refine ⟨hnot, fun hret => ?_⟩
  obtain ⟨ws, hw⟩ := worked_of_trace (hS.trace (.engine i))
  obtain ⟨cs, hc⟩ := ran_of_trace (hS.trace (.model i))
  have hmem : none ∈ cs.map (fun c => some c.response) ++ (S.agent (.model i)).completing ++
      S.queue (.logging i) := by
    rw [← logging_fifo hS hw hc, hret]
    exact List.mem_append_right _ (.head _)
  rcases List.mem_append.mp hmem with hmem | hmem
  · rcases List.mem_append.mp hmem with hmem | hmem
    · simp at hmem
    · cases hs : S.agent (.model i) with
      | returned got => exact absurd hs (hnot got)
      | _ => simp [hs, Inference.completing] at hmem
  · exact hmem

theorem smallWrapper_needsInputs : smallWrapper.NeedsInputs := ⟨(), by decide, by decide⟩

theorem done_signal_unread_small :
    (answers smallEnd.1 0).length = 2 ∧ smallEnd.1.agent (.model 0) = .run [()] [] ∧
    none ∈ smallEnd.1.queue (.logging 0) :=
  ⟨by decide +kernel, rfl,
    (done_signal_unread (U := small smallArgs smallWrapper) smallWrapper_needsInputs smallEnd.2
      0).2 (smallEnd_returned 0)⟩

/-! ## Accounts -/

/-- With the wrapper of the repository no request is ever answered. `run_queues` fails on
every call, so an engine dies with the first request that it takes: it is still on the way to
the failing statement, or has failed there or before, on a batch without data. -/
theorem dlrm_never_answers {U : Setup n Row DlrmBlob Time (DlrmTensor Row) E}
    {S : Config (Party n) (Queue n DlrmBlob) (Message Time (DlrmTensor Row))
      (Party.State Row DlrmBlob Time (DlrmTensor Row) E)} {tables : ℕ}
    {outSize : List (DlrmTensor Row) → ℚ} (htables : 0 < tables)
    (hU : U.wrapper = dlrmWrapper tables outSize) (hS : U.network.Reachable S) (i : Fin n) :
    answers S i = [] ∧ (taken S i).length ≤ 1 ∧
      (taken S i ≠ [] → S.agent (.engine i) ≠ .returned) ∧
      (∀ r ∈ taken S i, S.agent (.engine i) = .slice r ∨
        (∃ inputs t rest, S.agent (.engine i) = .feed r inputs t rest) ∨
        S.agent (.engine i) = .rejected r .indexError ∨
        ∃ inputs, S.agent (.engine i) = .failed r inputs .nameError) ∧
      ∀ got, S.agent (.model i) ≠ .returned got := by
  obtain ⟨ws, hw⟩ := worked_of_trace (hS.trace (.engine i))
  obtain ⟨cs, hc⟩ := ran_of_trace (hS.trace (.model i))
  have hraises : U.wrapper.raises = some .nameError := by simp [hU, dlrmWrapper, htables.ne']
  obtain rfl : ws = [] := by
    by_contra hne
    simp [hw.completes hne] at hraises
  have htaken := taken_eq hw
  rw [List.map_nil, List.nil_append] at htaken
  refine ⟨?_, ?_, ?_, ?_, model_not_returned (hU ▸ dlrmWrapper_needsInputs htables outSize) hS i⟩
  · -- a completed run would have taken a response that was never noted
    have hcs : cs = [] := by
      by_contra hne
      obtain ⟨c, rest, rfl⟩ := List.exists_cons_of_ne_nil hne
      obtain ⟨x, hx, -⟩ := response_of_run hS hw hc (j := 0) rfl
      simp at hx
    rw [answers, hc.response, hcs]
    rfl
  · rw [htaken]
    cases S.agent (.engine i) <;> simp [Engine.taken, List.reduceOption]
  · intro hne hret
    rw [htaken, hret] at hne
    exact hne rfl
  · intro r hr
    rw [htaken] at hr
    exact Engine.place_of_raises hw.control hraises hr

def dlrmEnd := (small smallArgs (dlrmWrapper 1 fun _ => 0)).network.after
  (smallSchedule.take 23) (by decide +kernel)

theorem dlrm_never_answers_small :
    (taken dlrmEnd.1 0).length = 1 ∧ answers dlrmEnd.1 0 = [] ∧
    ∃ r inputs, dlrmEnd.1.agent (.engine 0) = .failed r inputs .nameError := by
  obtain ⟨hnone, -, -, hplace, -⟩ := dlrm_never_answers Nat.one_pos rfl dlrmEnd.2 0
  have hlen : (taken dlrmEnd.1 0).length = 1 := by decide +kernel
  refine ⟨hlen, hnone, ?_⟩
  obtain ⟨r, hr⟩ := List.length_eq_one_iff.mp hlen
  rcases hplace r (by rw [hr]; exact .head _) with h | ⟨inputs, t, rest, h⟩ | h | ⟨inputs, h⟩
  · cases h
  · cases h
  · cases h
  · exact ⟨r, inputs, h⟩

end Setup

end EbpfIsp.Serving
