import EbpfIsp.PatternMatch.HostPrograms

/-! # The multi-process pattern matcher

`mtssd_pm.c` forks one child for every chunk of every iteration. The child runs
the loaded program on its chunk and exits; the parent waits for all children
and prints `cnt`. A child whose `ioctl` fails does not exit. It continues in
the loop of its parent, forks children of its own, and later waits and prints
as the original process does. `cnt` is copied by `fork`, so what a child adds
to it is not seen by the parent.
-/

namespace EbpfIsp.PatternMatch
open Library Device ForkProgram Machine

/-- What `mtssd_pm.c` submits: iteration, chunk and command. -/
abbrev MtssdSubmission := (ℕ × ℕ) × PassthruCmd

abbrev Mtssd (β : Type) := Forking MtssdSubmission CChar β

def mtssdCmd (i : ℕ) : PassthruCmd where
  opcode := .ispRead
  cdw10 := readSlba i
  cdw12 := BitVec.ofNat 32 (oneReadBlk - 1)

/-- The part that is guarded by `fork() == 0`. -/
def mtssdChild (t i : ℕ) (cnt : CInt) : Mtssd CInt := do
  let r ← issue ((t, i), mtssdCmd i)
  if r.ret ≠ 0 then
    say ⟨"iteration %d: err %d\n", [BitVec.ofNat 32 i, r.ret]⟩
    -- `continue`: the child goes on in the loop over the chunks
    return cnt
  else
    if r.result ≠ BitVec.ofNat 32 oneReadBlk then
      say ⟨"iteration %d: result error: %d\n", [BitVec.ofNat 32 i, r.result]⟩
    -- the copy of the child, which ends here
    let _cnt := cnt + r.result
    exit

def mtssdChunk (t i : ℕ) (cnt : CInt) : Mtssd CInt := do
  if ← forked then mtssdChild t i cnt else return cnt

def mtssdIteration (t : ℕ) : Mtssd Unit := do
  say ⟨"Iteration %d\n", [BitVec.ofNat 32 t]⟩
  let cnt ← loop numReads (mtssdChunk t) 0
  waitAll
  say ⟨"Result: %d\n", [cnt]⟩

def mtssdPm : Mtssd Unit := do
  loop 16 (fun t _ => mtssdIteration t) ()
  say ⟨"---- Test end ----\n", []⟩

abbrev MtssdEvent := Event MtssdSubmission (Completion CChar) Printf

/-- A run of `mtssd_pm.c` on a device; any `ioctl` of any process may fail. -/
abbrev MtssdRun (kernel : Kernel 4096 CChar) (d : Ssd 4096 CChar) :
    Machine (Ssd 4096 CChar) MtssdSubmission (Completion CChar) Printf Unit → Prop :=
  Reachable (Ssd.Answers kernel fun c => .ioCmd c.2) (initial d mtssdPm)

def Succeeds (r : Completion CChar) : Prop := r.ret = 0

def submissions (log : List (ℕ × MtssdEvent)) (t i : ℕ) :
    List (ℕ × MtssdSubmission × Completion CChar) :=
  (calls log).filter fun e => e.2.1.1 = (t, i)

/-- The wait and print part of the loop over the iterations. -/
def WaitPrint : MtssdEvent → Prop
  | .wait => True
  | .print o => o.fmt = "Result: %d\n"
  | .call _ _ => False

/-- Only the original process executes the wait and print part. -/
def OnlyOriginal (log : List (ℕ × MtssdEvent)) : Prop :=
  ∀ e ∈ log, WaitPrint e.2 → e.1 = 0

section Submissions

def chunkRequest (t i : ℕ) : MtssdSubmission := ((t, i), mtssdCmd i)

/-- A child whose `ioctl` succeeds makes one request and exits. -/
theorem mtssdChild_exits (t i : ℕ) (cnt : CInt) :
    Exits Succeeds (mtssdChild t i cnt) {chunkRequest t i} := by
  refine ⟨?_⟩
  unfold mtssdChild
  rw [wp_bind, wp_issue]
  intro r hr
  have hret : r.ret = 0 := hr
  refine ⟨0, rfl, ?_⟩
  rw [if_neg (fun h => h hret)]
  split
  · exact ⟨0, rfl, rfl⟩
  · exact rfl

theorem mtssdChunk_consumes (t i : ℕ) (cnt : CInt) :
    Consumes Succeeds (mtssdChunk t i cnt) {chunkRequest t i} := by
  unfold mtssdChunk
  exact (mtssdChild_exits t i cnt).forked cnt

theorem mtssdIteration_consumes (t : ℕ) : Consumes Succeeds (mtssdIteration t)
    (∑ i ∈ Finset.range numReads, {chunkRequest t i}) := by
  have hloop := Consumes.loop numReads (0 : CInt) (mtssdChunk_consumes t)
  have hrest (cnt : CInt) : Consumes Succeeds (do
      waitAll
      say ⟨"Result: %d\n", [cnt]⟩ : Mtssd Unit) 0 :=
    Consumes.waitAll.silent_bind fun _ => Consumes.say _
  unfold mtssdIteration
  refine (Consumes.say _).silent_bind fun _ => ?_
  simpa using hloop.bind hrest

def allRequests : Multiset MtssdSubmission :=
  ∑ t ∈ Finset.range 16, ∑ i ∈ Finset.range numReads, {chunkRequest t i}

theorem mtssdPm_consumes : Consumes Succeeds mtssdPm allRequests := by
  have hloop := Consumes.loop 16 () fun t _ => mtssdIteration_consumes t
  unfold mtssdPm allRequests
  simpa using hloop.bind fun _ => Consumes.say ⟨"---- Test end ----\n", []⟩

end Submissions

section OwnLogs
variable {ok : Completion CChar → Prop} {allow : Bool → MtssdEvent → Prop}
  {E : Bool × List MtssdEvent → Prop} {Q : CInt → Bool × List MtssdEvent → Prop}
  {t i : ℕ} {cnt : CInt} {x : Bool × List MtssdEvent}

/-- One pass of the loop, by what happens to the child. It exits after a success and stays in
the loop after a failure; the parent only forks. -/
theorem mtssdChunk_wp (hallow : ∀ e, ¬ WaitPrint e → allow false e)
    (hexit : ∀ r os, Succeeds r → (∀ c r, Event.call c r ∉ os) →
      E (false, .call (chunkRequest t i) r :: os))
    (hcont : ∀ r o, ok r → ¬ Succeeds r →
      Q cnt (false, [.call (chunkRequest t i) r, .print o]))
    (hx : Q cnt x) : (mtssdChunk t i cnt).Wp (.own ok allow) E Q x := by
  have hcall (r : Completion CChar) : allow false (.call (chunkRequest t i) r) := hallow _ id
  have herr (args : List CInt) : allow false (.print ⟨"iteration %d: err %d\n", args⟩) :=
    hallow _ (by decide : "iteration %d: err %d\n" ≠ "Result: %d\n")
  have hresult (args : List CInt) :
      allow false (.print ⟨"iteration %d: result error: %d\n", args⟩) :=
    hallow _ (by decide : "iteration %d: result error: %d\n" ≠ "Result: %d\n")
  simp only [mtssdChunk, wp_bind, wp_forked, Ghost.own_fork]
  refine ⟨(false, []), x, ⟨rfl, rfl⟩, ?_, hx⟩
  simp only [mtssdChild, if_true, wp_bind, wp_issue, Ghost.own_expects, Ghost.own_event]
  intro r hr
  refine ⟨_, ⟨hcall r, rfl⟩, ?_⟩
  by_cases hret : Succeeds r
  · rw [if_neg (fun h => h hret)]
    split
    · exact ⟨_, ⟨hresult _, rfl⟩, hexit r _ hret (by simp)⟩
    · exact hexit r [] hret (by simp)
  · rw [if_pos (show r.ret ≠ 0 from hret)]
    exact ⟨_, ⟨herr _, rfl⟩, hcont r _ hr hret⟩

end OwnLogs

section Original

/-- The wait and print part is for the original process. -/
def originalOnly (b : Bool) (e : MtssdEvent) : Prop := WaitPrint e → b = true

def originalIteration (t : ℕ) : List MtssdEvent :=
  [.print ⟨"Iteration %d\n", [BitVec.ofNat 32 t]⟩, .wait, .print ⟨"Result: %d\n", [0]⟩]

def originalEvents : List MtssdEvent :=
  (List.range 16).flatMap originalIteration ++ [.print ⟨"---- Test end ----\n", []⟩]

theorem chunks_original (E : Bool × List MtssdEvent → Prop) (hE : ∀ l, E (false, l)) (t : ℕ)
    (l : List MtssdEvent) :
    (loop numReads (mtssdChunk t) 0).Wp (.own Succeeds originalOnly) E
      (fun cnt x => cnt = 0 ∧ x = (true, l)) (true, l) := by
  apply wp_loop (fun _ cnt x => cnt = 0 ∧ x = (true, l))
  · intro i _ cnt x hx
    apply mtssdChunk_wp
    · exact fun e he h => absurd h he
    · exact fun r os _ _ => hE _
    · exact fun r o hr hn => absurd hr hn
    · exact hx
  · exact fun _ _ h => h
  · exact ⟨rfl, rfl⟩

/-- Without failures the original process alone stays in the loops. -/
theorem mtssdPm_original : mtssdPm.Wp (.own Succeeds originalOnly)
    (fun x => x.1 = true → x.2 = originalEvents)
    (fun _ x => x.1 = true → x.2 = originalEvents) (true, []) := by
  unfold mtssdPm
  rw [wp_bind]
  apply wp_loop (fun t _ x => x = (true, (List.range t).flatMap originalIteration))
  · rintro t _ _ _ rfl
    simp only [mtssdIteration, wp_bind, wp_say, Ghost.own_event, wp_waitAll]
    refine ⟨_, ⟨fun h => rfl, rfl⟩, (chunks_original _ (by simp) t _).mono ?_⟩
    rintro cnt x ⟨rfl, rfl⟩
    refine ⟨_, ⟨fun _ => rfl, rfl⟩, _, ⟨fun _ => rfl, rfl⟩, ?_⟩
    simp [List.range_succ, originalIteration]
  · rintro _ _ rfl
    exact ⟨_, ⟨fun _ => rfl, rfl⟩, fun _ => rfl⟩
  · rfl

end Original

section Failures

/-- The original process makes no calls. -/
def OriginalSilent (x : Bool × List MtssdEvent) : Prop :=
  x.1 = true → ∀ c r, Event.call c r ∉ x.2

/-- A process that has seen a failure has waited for children since. -/
def FailedWaits (x : Bool × List MtssdEvent) : Prop :=
  .wait ∈ x.2 ∨ ∀ c r, Event.call c r ∈ x.2 → Succeeds r

theorem OriginalSilent.append {b : Bool} {l : List MtssdEvent} {e : MtssdEvent}
    (h : OriginalSilent (b, l)) (he : ∀ c r, e ≠ .call c r) : OriginalSilent (b, l ++ [e]) := by
  intro hb c r hm
  rcases List.mem_append.mp hm with hm | hm
  · exact h hb c r hm
  · exact he c r (List.mem_singleton.mp hm).symm

theorem chunks_silent (t : ℕ) {x : Bool × List MtssdEvent} (hx : OriginalSilent x) :
    (loop numReads (mtssdChunk t) 0).Wp (.own (fun _ => True) fun _ _ => True)
      (fun x => OriginalSilent x ∧ FailedWaits x) (fun _ x => OriginalSilent x) x := by
  apply wp_loop (fun _ _ x => OriginalSilent x)
  · intro i _ cnt x hx
    apply mtssdChunk_wp
    · exact fun _ _ => trivial
    · intro r os hr hos
      refine ⟨by simp [OriginalSilent], Or.inr fun c r' h => ?_⟩
      rcases List.mem_cons.mp h with h | h
      · cases h
        exact hr
      · exact absurd h (hos c r')
    · exact fun _ _ _ _ => by simp [OriginalSilent]
    · exact hx
  · exact fun _ _ h => h
  · exact hx

/-- A process whose `ioctl` fails is a child and comes to the wait part. -/
theorem mtssdPm_failed : mtssdPm.Wp (.own (fun _ => True) fun _ _ => True)
    (fun x => OriginalSilent x ∧ FailedWaits x) (fun _ x => OriginalSilent x ∧ FailedWaits x)
    (true, []) := by
  unfold mtssdPm
  rw [wp_bind]
  apply wp_loop (fun _ _ x => OriginalSilent x ∧ FailedWaits x)
  · rintro t _ _ ⟨b, l⟩ ⟨hx, -⟩
    simp only [mtssdIteration, wp_bind, wp_say, Ghost.own_event, wp_waitAll]
    refine ⟨_, ⟨trivial, rfl⟩, (chunks_silent t (hx.append (by simp))).mono ?_⟩
    rintro cnt ⟨b, l⟩ hx
    refine ⟨_, ⟨trivial, rfl⟩, _, ⟨trivial, rfl⟩, ?_, ?_⟩
    · exact (hx.append (by simp)).append (by simp)
    · simp [FailedWaits]
  · rintro _ ⟨b, l⟩ ⟨hx, hw⟩
    refine ⟨_, ⟨trivial, rfl⟩, hx.append (by simp), ?_⟩
    simpa [FailedWaits] using hw
  · simp [OriginalSilent, FailedWaits]

end Failures

section Counting
variable (log : List (ℕ × MtssdEvent)) (t i : ℕ)

theorem submissions_length :
    (submissions log t i).length = (submitted log).countP (fun c => c.1 = (t, i)) := by
  rw [submissions, submitted, Multiset.coe_countP, List.countP_map, List.countP_eq_length_filter]
  rfl

theorem countP_allRequests : allRequests.countP (fun c => c.1 = (t, i)) =
    if t < 16 ∧ i < numReads then 1 else 0 := by
  have hone (t' i' : ℕ) : Multiset.countPAddMonoidHom (fun c : MtssdSubmission => c.1 = (t, i))
      {chunkRequest t' i'} = if t' = t then if i' = i then 1 else 0 else 0 := by
    simp [chunkRequest, ← Multiset.cons_zero, Multiset.countP_cons, ite_and]
  rw [← Multiset.coe_countPAddMonoidHom, allRequests]
  simp only [map_sum, hone]
  by_cases ht : t < 16 <;> by_cases hi : i < numReads <;> simp [Finset.sum_ite_eq', ht, hi]

theorem opcode_of_mem : ∀ c ∈ allRequests, c.2.opcode = .ispRead := by
  simp only [allRequests, Multiset.mem_sum, Multiset.mem_singleton]
  rintro _ ⟨_, _, _, _, rfl⟩
  rfl

end Counting

section Runs
variable {kernel : Kernel 4096 CChar} {d : Ssd 4096 CChar}
  {S : Machine (Ssd 4096 CChar) MtssdSubmission (Completion CChar) Printf Unit}

theorem MtssdRun.submissions_le (h : MtssdRun kernel d S) (hok : S.Answered Succeeds) (t i : ℕ) :
    (submissions S.log t i).length ≤ 1 := by
  obtain ⟨rest, hrest⟩ := (submitted_reachable mtssdPm_consumes h hok).1
  have hcount := countP_allRequests t i
  rw [← hrest, Multiset.countP_add, ← submissions_length] at hcount
  split_ifs at hcount <;> omega

theorem MtssdRun.submissions_eq (h : MtssdRun kernel d S) (hok : S.Answered Succeeds)
    (hS : S.Finished) {t i : ℕ} (ht : t < 16) (hi : i < numReads) :
    (submissions S.log t i).length = 1 := by
  rw [submissions_length, (submitted_reachable mtssdPm_consumes h hok).2 hS, countP_allRequests,
    if_pos ⟨ht, hi⟩]

theorem MtssdRun.onlyOriginal (h : MtssdRun kernel d S) (hok : S.Answered Succeeds) :
    OnlyOriginal S.log := by
  intro e he hw
  simpa using (own_reachable mtssdPm_original h hok).1 e he hw

/-- A process whose `ioctl` failed is not the original one and executes the wait part. -/
theorem MtssdRun.failed_waits (h : MtssdRun kernel d S) (hS : S.Finished) {p : ℕ}
    {c : MtssdSubmission} {r : Completion CChar} (hm : (p, Event.call c r) ∈ S.log)
    (hr : ¬ Succeeds r) : p ≠ 0 ∧ (p, Event.wait) ∈ S.log := by
  obtain ⟨hsilent, hwaits⟩ := ((own_reachable mtssdPm_failed h fun _ _ _ _ => trivial).2 hS).2 _ hm
  constructor
  · rintro rfl
    exact hsilent rfl c r (mem_own.mpr hm)
  · rcases hwaits with hw | hw
    · exact mem_own.mp hw
    · exact absurd (hw c r (mem_own.mpr hm)) hr

end Runs

section Faults
variable (v : CInt) (bad : ℕ × ℕ → Bool)

def returns : Kernel 4096 CChar := fun _ _ _ _ page => some (v, page)

/-- The device fails the submissions of the pairs in `bad` and no others. -/
def FaultyAnswers (d : Ssd 4096 CChar) (c : MtssdSubmission) (r : Completion CChar)
    (d' : Ssd 4096 CChar) : Prop :=
  if bad c.1 then r = .failed 1 ∧ d' = d else d.exec (returns v) (.ioCmd c.2) = some (d', r)

theorem exec_returns (d : Ssd 4096 CChar) (cmd : PassthruCmd) : ∃ d' r,
    d.exec (returns v) (.ioCmd cmd) = some (d', r) ∧ r.ret = 0 ∧
      (cmd.opcode = .ispRead → r.result = v) := by
  rcases h : cmd.opcode <;> simp [Ssd.exec, Ssd.execIsp, returns, h]

theorem FaultyAnswers.total (d : Ssd 4096 CChar) (c : MtssdSubmission) :
    ∃ r d', FaultyAnswers v bad d c r d' := by
  obtain ⟨d', r, hexec, -⟩ := exec_returns v d c.2
  by_cases hb : bad c.1 = true
  · exact ⟨.failed 1, d, by simp [FaultyAnswers, hb]⟩
  · exact ⟨r, d', by simpa [FaultyAnswers, hb] using hexec⟩

variable {v bad} {d d' : Ssd 4096 CChar} {c : MtssdSubmission} {r : Completion CChar}

theorem FaultyAnswers.answers (h : FaultyAnswers v bad d c r d') :
    d.Answers (returns v) (fun c => .ioCmd c.2) c r d' := by
  obtain ⟨d₁, r₁, hexec, -⟩ := exec_returns v d c.2
  by_cases hb : bad c.1 = true
  · obtain ⟨rfl, rfl⟩ : r = .failed 1 ∧ d' = d := by simpa [FaultyAnswers, hb] using h
    have hfail : ∃ err ≠ 0, Completion.failed 1 = (Completion.failed err : Completion CChar) :=
      ⟨1, by decide, rfl⟩
    simpa [Ssd.Answers, Ssd.Serves, hexec] using Or.inr hfail
  · exact Ssd.Serves.of_exec (by simpa [FaultyAnswers, hb] using h)

theorem FaultyAnswers.succeeds_iff (h : FaultyAnswers v bad d c r d') :
    Succeeds r ↔ bad c.1 = false := by
  obtain ⟨d₁, r₁, hexec, hret, -⟩ := exec_returns v d c.2
  by_cases hb : bad c.1 = true
  · obtain ⟨rfl, rfl⟩ : r = .failed 1 ∧ d' = d := by simpa [FaultyAnswers, hb] using h
    simp [hb, Succeeds, Completion.failed]
  · obtain ⟨rfl, rfl⟩ : d₁ = d' ∧ r₁ = r := by simpa [FaultyAnswers, hb, hexec] using h
    simpa [hb, Succeeds] using hret

theorem FaultyAnswers.result (h : FaultyAnswers v bad d c r d') (hr : Succeeds r)
    (hop : c.2.opcode = .ispRead) : r.result = v := by
  obtain ⟨d₁, r₁, hexec, -, hresult⟩ := exec_returns v d c.2
  have hb := h.succeeds_iff.mp hr
  obtain ⟨rfl, rfl⟩ : d₁ = d' ∧ r₁ = r := by simpa [FaultyAnswers, hb, hexec] using h
  exact hresult hop

/-- A finished run in which exactly the submissions of the pairs in `bad` fail. -/
theorem exists_faulty_run (v : CInt) (bad : ℕ × ℕ → Bool) (d : Ssd 4096 CChar) :
    ∃ S, MtssdRun (returns v) d S ∧ S.Finished ∧ ∀ p c r, (p, Event.call c r) ∈ S.log →
      (Succeeds r ↔ bad c.1 = false) ∧ (Succeeds r → c.2.opcode = .ispRead → r.result = v) := by
  obtain ⟨S, hreach, hS⟩ := Reachable.exists_finished (s := d) (p := mtssdPm) .refl
    (FaultyAnswers.total v bad)
  refine ⟨S, hreach.mono fun _ _ _ _ => FaultyAnswers.answers, hS, fun p c r hm => ?_⟩
  obtain ⟨log, hlog, hcalls⟩ := hreach.log
  rw [initial, List.nil_append] at hlog
  obtain ⟨s, s', hs⟩ := hcalls p c r (hlog ▸ hm)
  exact ⟨hs.succeeds_iff, hs.result⟩

end Faults

section SubmittedOnce

/-- In every run of `mtssd_pm.c`, as long as no `ioctl` fails each pair of iteration and chunk
is submitted at most once and the original process alone waits and prints. In a finished run
every pair is submitted exactly once, and by the original process alone the wait and print
part is executed, if and only if no `ioctl` failed. Every run can be finished. -/
theorem mtssd_submits_once_iff (kernel : Kernel 4096 CChar) (d : Ssd 4096 CChar)
    (S : Machine (Ssd 4096 CChar) MtssdSubmission (Completion CChar) Printf Unit)
    (h : MtssdRun kernel d S) :
    (S.Answered Succeeds →
      (∀ t i, (submissions S.log t i).length ≤ 1) ∧ OnlyOriginal S.log) ∧
    (S.Finished →
      ((∀ t < 16, ∀ i < numReads, (submissions S.log t i).length = 1) ∧ OnlyOriginal S.log ↔
        S.Answered Succeeds)) ∧
    ∃ S', Reachable (Ssd.Answers kernel fun c => .ioCmd c.2) S S' ∧ S'.Finished := by
  refine ⟨fun hok => ⟨h.submissions_le hok, h.onlyOriginal hok⟩, fun hS => ⟨?_, ?_⟩, ?_⟩
  · rintro ⟨-, honly⟩ p c r hm
    by_contra hr
    obtain ⟨hp, hw⟩ := h.failed_waits hS hm hr
    exact hp (honly _ hw trivial)
  · intro hok
    exact ⟨fun t ht i hi => h.submissions_eq hok hS ht hi, h.onlyOriginal hok⟩
  · exact h.exists_finished (Ssd.Answers.total kernel _)

theorem mtssd_submits_once_no_failure : ∃ S, MtssdRun (returns 64) ⟨0, 0⟩ S ∧ S.Finished ∧
    (∀ t < 16, ∀ i < numReads, (submissions S.log t i).length = 1) ∧ OnlyOriginal S.log := by
  obtain ⟨S, h, hS, hcalls⟩ := exists_faulty_run 64 (fun _ => false) ⟨0, 0⟩
  have hok : S.Answered Succeeds := fun p c r hm => (hcalls p c r hm).1.mpr rfl
  exact ⟨S, h, hS, ((mtssd_submits_once_iff _ _ S h).2.1 hS).mpr hok⟩

/-- The submission of chunk 0 in iteration 0 fails and no other: its process stays in the
loop, waits and prints. -/
theorem mtssd_failed_child_goes_on : ∃ S, MtssdRun (returns 64) ⟨0, 0⟩ S ∧ S.Finished ∧
    (∀ p c r, (p, Event.call c r) ∈ S.log → (Succeeds r ↔ c.1 ≠ (0, 0))) ∧
    ¬ ((∀ t < 16, ∀ i < numReads, (submissions S.log t i).length = 1) ∧ OnlyOriginal S.log) := by
  obtain ⟨S, h, hS, hcalls⟩ := exists_faulty_run 64 (fun p => p = (0, 0)) ⟨0, 0⟩
  refine ⟨S, h, hS, fun p c r hm => by simpa using (hcalls p c r hm).1, ?_⟩
  rintro ⟨honce, honly⟩
  obtain ⟨e, he⟩ := List.length_eq_one_iff.mp (honce 0 (by decide) 0 (by decide))
  obtain ⟨p, c, r⟩ := e
  have hmem : (p, c, r) ∈ submissions S.log 0 0 := by simp [he]
  rw [submissions, List.mem_filter, mem_calls] at hmem
  obtain ⟨hm, hc⟩ := hmem
  have hfail : ¬ Succeeds r := by simpa [(hcalls p c r hm).1] using hc
  obtain ⟨hp, hw⟩ := h.failed_waits hS hm hfail
  exact hp (honly _ hw trivial)

end SubmittedOnce

section Counts

def returned (log : List (ℕ × MtssdEvent)) (t i : ℕ) : List CInt :=
  (submissions log t i).map fun e => e.2.2.result

def returnedSum (log : List (ℕ × MtssdEvent)) (t : ℕ) : CInt :=
  ∑ i ∈ Finset.range numReads, (returned log t i).sum

def printed (l : List MtssdEvent) : List Printf :=
  l.filterMap fun e => match e with
    | .print o => some o
    | _ => none

/-- The output of the original process when each iteration reports `count t`. -/
def output (count : ℕ → CInt) : List Printf :=
  (List.range 16).flatMap (fun t =>
    [⟨"Iteration %d\n", [BitVec.ofNat 32 t]⟩, ⟨"Result: %d\n", [count t]⟩]) ++
      [⟨"---- Test end ----\n", []⟩]

def counts (os : List Printf) : List CInt :=
  os.flatMap fun o => if o.fmt = "Result: %d\n" then o.args else []

theorem counts_output (count : ℕ → CInt) : counts (output count) = (List.range 16).map count := by
  simp [counts, output, List.flatMap_assoc, List.map_eq_flatMap]

theorem output_congr {count count' : ℕ → CInt} (h : ∀ t < 16, count t = count' t) :
    output count = output count' := by
  have hlines : ∀ t ∈ List.range 16,
      [(⟨"Iteration %d\n", [BitVec.ofNat 32 t]⟩ : Printf), ⟨"Result: %d\n", [count t]⟩] =
        [⟨"Iteration %d\n", [BitVec.ofNat 32 t]⟩, ⟨"Result: %d\n", [count' t]⟩] := by
    intro t ht
    rw [h t (List.mem_range.mp ht)]
  rw [output, output, List.flatMap_congr hlines]

theorem printed_originalEvents : printed originalEvents = output fun _ => 0 := by
  simp [printed, originalEvents, output, originalIteration, List.filterMap_flatMap]

theorem reported_zero {count : ℕ → CInt} (h : output (fun _ => 0) = output count) :
    ∀ t < 16, count t = 0 := by
  intro t ht
  have hmap := congrArg counts h
  rw [counts_output, counts_output, List.map_inj_left] at hmap
  exact (hmap t (List.mem_range.mpr ht)).symm

/-- The counter of the original process is 0 whatever its children have found. -/
theorem MtssdRun.printed_original {kernel : Kernel 4096 CChar} {d : Ssd 4096 CChar}
    {S : Machine (Ssd 4096 CChar) MtssdSubmission (Completion CChar) Printf Unit}
    (h : MtssdRun kernel d S) (hS : S.Finished) (hok : S.Answered Succeeds) :
    printed (own S.log 0) = output fun _ => 0 := by
  have hlog : own S.log 0 = originalEvents :=
    ((own_reachable mtssdPm_original h hok).2 hS).1 rfl
  rw [hlog, printed_originalEvents]

/-- A finished run without failures in which every chunk returns `v`. -/
theorem exists_counting_run (v : CInt) : ∃ S, MtssdRun (returns v) ⟨0, 0⟩ S ∧ S.Finished ∧
    S.Answered Succeeds ∧ ∀ t < 16, returnedSum S.log t = numReads • v := by
  obtain ⟨S, h, hS, hcalls⟩ := exists_faulty_run v (fun _ => false) ⟨0, 0⟩
  have hok : S.Answered Succeeds := fun p c r hm => (hcalls p c r hm).1.mpr rfl
  refine ⟨S, h, hS, hok, fun t ht => ?_⟩
  have hall := (submitted_reachable mtssdPm_consumes h hok).2 hS
  have hone : ∀ i ∈ Finset.range numReads, (returned S.log t i).sum = v := by
    intro i hi
    obtain ⟨⟨p, c, r⟩, he⟩ := List.length_eq_one_iff.mp
      (h.submissions_eq hok hS ht (Finset.mem_range.mp hi))
    have hm : (p, Event.call c r) ∈ S.log := by
      rw [← mem_calls]
      exact List.mem_of_mem_filter (he ▸ List.mem_singleton_self (p, c, r))
    have hop : c.2.opcode = .ispRead := by
      apply opcode_of_mem
      rw [← hall, submitted, Multiset.mem_coe, List.mem_map]
      exact ⟨_, mem_calls.mpr hm, rfl⟩
    rw [returned, he]
    simpa using (hcalls p c r hm).2 (hok p c r hm) hop
  rw [returnedSum, Finset.sum_congr rfl hone, Finset.sum_const, Finset.card_range]

/-- When all calls succeed, the original process of a finished run reports in every iteration
the sum of the 128 returned values if and only if that sum is 0 in every iteration. -/
theorem mtssd_reports_counts_iff (kernel : Kernel 4096 CChar) (d : Ssd 4096 CChar)
    (S : Machine (Ssd 4096 CChar) MtssdSubmission (Completion CChar) Printf Unit)
    (h : MtssdRun kernel d S) (hS : S.Finished) (hok : S.Answered Succeeds) :
    (∀ t < 16, ∀ i < numReads, (returned S.log t i).length = 1) ∧
    (printed (own S.log 0) = output (returnedSum S.log) ↔ ∀ t < 16, returnedSum S.log t = 0) := by
  constructor
  · intro t ht i hi
    rw [returned, List.length_map]
    exact h.submissions_eq hok hS ht hi
  · rw [h.printed_original hS hok]
    exact ⟨reported_zero, fun hzero => (output_congr hzero).symm⟩

theorem mtssd_reports_no_counts : ∃ S, MtssdRun (returns 0) ⟨0, 0⟩ S ∧ S.Finished ∧
    S.Answered Succeeds ∧ printed (own S.log 0) = output (returnedSum S.log) := by
  obtain ⟨S, h, hS, hok, hsum⟩ := exists_counting_run 0
  exact ⟨S, h, hS, hok, (mtssd_reports_counts_iff _ _ S h hS hok).2.mpr (by simpa using hsum)⟩

/-- Each chunk returns 64. The original process prints 0, not 8192. -/
theorem mtssd_loses_counts : ∃ S, MtssdRun (returns 64) ⟨0, 0⟩ S ∧ S.Finished ∧
    S.Answered Succeeds ∧ (∀ t < 16, returnedSum S.log t = 8192) ∧
    printed (own S.log 0) = output (fun _ => 0) ∧
    printed (own S.log 0) ≠ output (returnedSum S.log) := by
  obtain ⟨S, h, hS, hok, hsum⟩ := exists_counting_run 64
  have hout := h.printed_original hS hok
  have h8192 : ∀ t < 16, returnedSum S.log t = 8192 := fun t ht => (hsum t ht).trans (by decide)
  refine ⟨S, h, hS, hok, h8192, hout, fun heq => ?_⟩
  have hzero := reported_zero (hout.symm.trans heq) 0 (by decide)
  rw [h8192 0 (by decide)] at hzero
  exact absurd hzero (by decide)

end Counts

end EbpfIsp.PatternMatch
