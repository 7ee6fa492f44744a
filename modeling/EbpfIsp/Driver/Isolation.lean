import EbpfIsp.Driver.SparseLengthSum
import EbpfIsp.Library.Interleaving

/-! # Concurrent callers of the sparse length sum

Every caller owns one queue id and with it one map page. The page holds zero
between calls; inside a call it holds what the call's own successful requests
have added. Both facts survive failing requests and page reads, because the
clear command is issued whatever happened before it.
-/

namespace EbpfIsp.Driver
open Library Device Kernels HostProgram

abbrev SlsLog := List (Request CInt × Completion CInt)

/-- Arguments in range: result ids inside the map page, embedding ids
non-negative, and no overflow in the byte offset or the block number. -/
structure SlsArgs.Valid (vl : ℕ) (a : SlsArgs) : Prop where
  vectorLength : a.vectorLength = BitVec.ofNat 32 vl
  pairs : ∀ i < a.inputEmbeddings.toInt.toNat,
    (0 ≤ (a.flatInd (i * 2)).toInt ∧ (a.flatInd (i * 2)).toInt < (1024 / vl : ℕ)) ∧
    (0 ≤ (a.flatInd (i * 2 + 1)).toInt ∧ 4 * vl * (a.flatInd (i * 2 + 1)).toInt < 2 ^ 31) ∧
    0 ≤ 1024 + a.tableId.toInt * 250000 + 4 * vl * (a.flatInd (i * 2 + 1)).toInt / 4096 ∧
    1024 + a.tableId.toInt * 250000 + 4 * vl * (a.flatInd (i * 2 + 1)).toInt / 4096 < 2 ^ 31

/-- The `i`-th command of the log is an in-storage request that succeeded. -/
def added (log : SlsLog) (i : ℕ) : Bool :=
  match log[i]? with
  | some (.ioCmd cmd, c) => cmd.opcode = .ispRead ∧ c.ret = 0
  | _ => false

/-- The words a request adds, read from its block. -/
def requestRow (f : Flash 1024 CInt) (vl : ℕ) (cmd : PassthruCmd) (i : ℕ) : CInt :=
  ((f cmd.cdw10.toNat).load (targetVector vl cmd.cdw3 + i)).getD 0

/-- The owner's map page after one of its commands. -/
def pageStep (f : Flash 1024 CInt) (vl : ℕ) (page : Page) (ev : Request CInt × Completion CInt) :
    Page :=
  match ev.1 with
  | .ioCmd cmd => if ev.2.ret = 0 then
      match cmd.opcode with
      | .ispRead => addSpan page (mapPtr vl cmd.cdw2) vl (requestRow f vl cmd)
      | .ispClear => 0
      | _ => page
    else page
  | _ => page

/-- The owner's map page after a log that started from a zeroed page. -/
def pageAfter (f : Flash 1024 CInt) (vl : ℕ) (log : SlsLog) : Page :=
  log.foldl (pageStep f vl) 0

theorem pageStep_failed (f : Flash 1024 CInt) (vl : ℕ) (page : Page)
    {ev : Request CInt × Completion CInt} (h : ev.2.ret ≠ 0) : pageStep f vl page ev = page := by
  obtain ⟨c, r⟩ := ev
  cases c with
  | ioCmd cmd => exact if_neg h
  | submitIo io => rfl
  | pread count offset => rfl

theorem pageStep_clear (f : Flash 1024 CInt) (vl : ℕ) (page : Page) (q : CInt)
    {r : Completion CInt} (h : r.ret = 0) : pageStep f vl page (.ioCmd (cmdClear q), r) = 0 :=
  if_pos h

theorem pageStep_ispRequest (f : Flash 1024 CInt) (vl : ℕ) (page : Page) (a : SlsArgs) (q : CInt)
    (i : ℕ) {r : Completion CInt} (h : r.ret = 0) :
    pageStep f vl page (.ioCmd (ispRequest a q i), r) =
      addSpan page (mapPtr vl (a.flatInd (i * 2))) vl (requestRow f vl (ispRequest a q i)) :=
  if_pos h

def NotClear (c : Request CInt) : Prop := ∀ q, c ≠ .ioCmd (cmdClear q)

theorem notClear_ispRequest (a : SlsArgs) (q : CInt) (i : ℕ) :
    NotClear (.ioCmd (ispRequest a q i)) := by
  intro q'
  simp [ispRequest, cmdClear]

section Command
variable {vl : ℕ} {ret : CInt} {a : SlsArgs} {qid : CInt}

/-- What is needed of a request: one block, and a result slot inside the map page. -/
structure SlotInRange (vl : ℕ) (cmd : PassthruCmd) : Prop where
  blocks : cmd.cdw12 = 0
  slot : mapPtr vl cmd.cdw2 + vl ≤ 1024

theorem requestRow_load (hvl : vl ∣ 1024) (f : Flash 1024 CInt) {cmd : PassthruCmd}
    (hb : cmd.cdw12 = 0) {i : ℕ} (hi : i < vl) :
    (f.window cmd.cdw10.toNat (cmd.cdw12.toNat + 1)).load (targetVector vl cmd.cdw3 + i) =
      some (requestRow f vl cmd i) := by
  have hle := targetVector_add_le hvl cmd.cdw3
  have hlt : targetVector vl cmd.cdw3 + i < 1024 := by omega
  have hwin : targetVector vl cmd.cdw3 + i < (cmd.cdw12.toNat + 1) * 1024 := by
    rw [hb]
    simpa using hlt
  rw [Flash.window_load _ _ _ hwin, Nat.div_eq_of_lt hlt, Nat.mod_eq_of_lt hlt, Nat.add_zero,
    requestRow, Region.load_of_lt _ hlt]
  rfl

/-- A request that succeeds adds its row to the map page it names. -/
theorem exec_ispRead (hvl : vl ∣ 1024) (d : Ssd 1024 CInt) {cmd : PassthruCmd}
    (hop : cmd.opcode = .ispRead) (h : SlotInRange vl cmd) :
    d.exec (embedding vl ret) (.ioCmd cmd) =
      some (d.setPage cmd.cdw15.toNat (addSpan (d.mapPage cmd.cdw15.toNat) (mapPtr vl cmd.cdw2) vl
        (requestRow d.flash vl cmd)), ⟨0, ret, fun _ => none⟩) := by
  rw [Ssd.exec, Ssd.execIsp, hop]
  simp only
  rw [embedding_eq _ _ (requestRow d.flash vl cmd) h.slot
    (fun i hi => requestRow_load hvl d.flash h.blocks hi)]
  rfl

theorem exec_pageRead (kernel : Kernel 1024 CInt) (d : Ssd 1024 CInt) (q : CInt) :
    d.exec kernel (.ioCmd (cmdPageRead q)) = some (d, ⟨0, 0, (d.mapPage q.toNat).load⟩) := rfl

theorem exec_clear (kernel : Kernel 1024 CInt) (d : Ssd 1024 CInt) (q : CInt) :
    d.exec kernel (.ioCmd (cmdClear q)) =
      some (d.setPage q.toNat 0, ⟨0, 0, fun _ => none⟩) := rfl

theorem SlsArgs.Valid.divisor (ha : a.Valid vl) (hvl : vl ∣ 1024) :
    a.vectorLength * attributeSize ≠ 0 := by
  have hpos := pos_of_dvd_page hvl
  have hle : vl ≤ 1024 := Nat.le_of_dvd (by decide) hvl
  have hmul : (a.vectorLength * attributeSize).toNat = vl * 4 := by
    rw [ha.vectorLength, BitVec.toNat_mul, CInt.toNat_ofNat_of_lt (by omega)]
    exact Nat.mod_eq_of_lt (by change vl * 4 < 2 ^ 32; omega)
  intro h
  rw [h] at hmul
  simp at hmul
  omega

theorem SlsArgs.Valid.slot (ha : a.Valid vl) {i : ℕ} (hi : i < a.inputEmbeddings.toInt.toNat) :
    (a.flatInd (i * 2)).toNat < 1024 / vl ∧
      mapPtr vl (a.flatInd (i * 2)) = vl * (a.flatInd (i * 2)).toNat ∧
      vl * (a.flatInd (i * 2)).toNat + vl ≤ 1024 := by
  obtain ⟨⟨hr, hlt⟩, -⟩ := ha.pairs i hi
  rw [← CInt.natCast_toNat hr] at hlt
  have hlt' : (a.flatInd (i * 2)).toNat < 1024 / vl := by exact_mod_cast hlt
  have hle : vl * (a.flatInd (i * 2)).toNat + vl ≤ 1024 := by
    calc vl * (a.flatInd (i * 2)).toNat + vl = vl * ((a.flatInd (i * 2)).toNat + 1) := by ring
      _ ≤ vl * (1024 / vl) := Nat.mul_le_mul_left _ hlt'
      _ ≤ 1024 := Nat.mul_div_le _ _
  exact ⟨hlt', mapPtr_of_lt (by omega), hle⟩

theorem SlsArgs.Valid.slotInRange (ha : a.Valid vl) {i : ℕ}
    (hi : i < a.inputEmbeddings.toInt.toNat) : SlotInRange vl (ispRequest a qid i) := by
  obtain ⟨-, hptr, hle⟩ := ha.slot hi
  exact ⟨rfl, by rw [ispRequest, hptr]; exact hle⟩

theorem mem_slsCommands {c : Request CInt} (h : c ∈ slsCommands a qid) :
    (∃ i < a.inputEmbeddings.toInt.toNat, c = .ioCmd (ispRequest a qid i)) ∨
      c = .ioCmd (cmdPageRead qid) ∨ c = .ioCmd (cmdClear qid) := by
  simp only [slsCommands, List.mem_append, List.mem_map, List.mem_range, List.mem_cons,
    List.not_mem_nil, or_false] at h
  rcases h with ⟨i, hi, rfl⟩ | h
  · exact .inl ⟨i, hi, rfl⟩
  · exact .inr h

/-- What one command of a call does, whether it succeeds or fails: flash and the pages of
the other queues stay, the own page follows `pageStep`, a page read returns that page, and
a clear does not fail. -/
structure CommandEffect (vl : ℕ) (qid : CInt) (d : Ssd 1024 CInt) (c : Request CInt)
    (r : Completion CInt) (d' : Ssd 1024 CInt) : Prop where
  flash : d'.flash = d.flash
  page : d'.mapPage qid.toNat = pageStep d.flash vl (d.mapPage qid.toNat) (c, r)
  others : ∀ q ≠ qid.toNat, d'.mapPage q = d.mapPage q
  read : c = .ioCmd (cmdPageRead qid) → r.ret = 0 → r.transfer = (d.mapPage qid.toNat).load
  clear : c = .ioCmd (cmdClear qid) → r.ret = 0

theorem CommandEffect.of_failed {d : Ssd 1024 CInt} {c : Request CInt} {err : CInt}
    (herr : err ≠ 0) (hc : NotClear c) : CommandEffect vl qid d c (.failed err) d where
  flash := rfl
  page := (pageStep_failed _ _ _ herr).symm
  others _ _ := rfl
  read _ h := absurd h herr
  clear h := absurd h (hc qid)

theorem serves_commandEffect (hvl : vl ∣ 1024) (ha : a.Valid vl) {d d' : Ssd 1024 CInt}
    {c : Request CInt} {r : Completion CInt} (hc : c ∈ slsCommands a qid)
    (h : d.Serves (embedding vl ret) NotClear c r d') : CommandEffect vl qid d c r d' := by
  rcases mem_slsCommands hc with ⟨i, hi, rfl⟩ | rfl | rfl
  · rcases h.cases (exec_ispRead hvl d rfl (ha.slotInRange hi)) with
      ⟨rfl, rfl⟩ | ⟨hm, rfl, err, he, rfl⟩
    · exact ⟨rfl, Ssd.setPage_self .., fun q hq => Ssd.setPage_of_ne _ hq _,
        fun h => by simp [ispRequest, cmdPageRead] at h,
        fun h => by simp [ispRequest, cmdClear] at h⟩
    · exact .of_failed he hm
  · rcases h.cases (exec_pageRead _ d qid) with ⟨rfl, rfl⟩ | ⟨hm, rfl, err, he, rfl⟩
    · exact ⟨rfl, rfl, fun _ _ => rfl, fun _ _ => rfl, fun _ => rfl⟩
    · exact .of_failed he hm
  · rcases h.cases (exec_clear _ d qid) with ⟨rfl, rfl⟩ | ⟨hm, rfl, err, he, rfl⟩
    · exact ⟨rfl, Ssd.setPage_self .., fun q hq => Ssd.setPage_of_ne _ hq _,
        fun h => by simp [cmdPageRead, cmdClear] at h, fun _ => rfl⟩
    · exact .of_failed he hm

end Command

section Spec
variable {κ : Type} {vl : ℕ} (f : Flash 1024 CInt) (qid : κ → CInt)

def ReadsExact (vl : ℕ) (q : CInt) (log : SlsLog) : Prop :=
  ∀ pre r post, log = pre ++ (.ioCmd (cmdPageRead q), r) :: post → r.ret = 0 →
    r.transfer = (pageAfter f vl pre).load

theorem pageAfter_concat (vl : ℕ) (log : SlsLog) (ev : Request CInt × Completion CInt) :
    pageAfter f vl (log ++ [ev]) = pageStep f vl (pageAfter f vl log) ev := by
  simp [pageAfter]

theorem ReadsExact.concat {q : CInt} {log : SlsLog} {c : Request CInt} {r : Completion CInt}
    (h : ReadsExact f vl q log)
    (hr : c = .ioCmd (cmdPageRead q) → r.ret = 0 → r.transfer = (pageAfter f vl log).load) :
    ReadsExact f vl q (log ++ [(c, r)]) := by
  intro pre r' post he hret
  rcases List.eq_nil_or_concat post with rfl | ⟨post', ev, rfl⟩
  · obtain ⟨rfl, hev⟩ := List.append_inj' he rfl
    obtain ⟨rfl, rfl⟩ : c = .ioCmd (cmdPageRead q) ∧ r = r' := by simpa using hev
    exact hr rfl hret
  · rw [List.concat_eq_append, ← List.cons_append, ← List.append_assoc] at he
    exact h pre r' post' (List.append_inj' he rfl).1 hret

/-- A call that has issued all its commands has cleared its page. -/
theorem pageAfter_complete {a : SlsArgs} {q : CInt} {log : SlsLog}
    (hcs : slsCommands a q = log.map Prod.fst)
    (hcl : ∀ ev ∈ log, ev.1 = .ioCmd (cmdClear q) → ev.2.ret = 0) : pageAfter f vl log = 0 := by
  rw [slsCommands, List.append_cons] at hcs
  obtain ⟨init, last, rfl, -, hlast⟩ := List.map_eq_append_iff.mp hcs.symm
  obtain ⟨⟨c, r⟩, rfl, rfl⟩ : ∃ ev, last = [ev] ∧ ev.1 = .ioCmd (cmdClear q) := by
    simpa [List.map_eq_singleton_iff] using hlast
  have hret : r.ret = 0 := hcl (.ioCmd (cmdClear q), r) (by simp) rfl
  rw [pageAfter_concat, pageStep_clear _ _ _ _ hret]

def slsSpec (ret : CInt) (hvl : vl ∣ 1024) (hq : Function.Injective qid) :
    LocalSpec (Ssd.Serves (embedding vl ret) NotClear)
      (fun k a p => ∃ heap, p = unvmeSparseLengthSum heap a (qid k))
      (fun d k => (d.flash, d.mapPage (qid k).toNat)) where
  Idle _ v := v = (f, 0)
  Busy k a p log v := a.Valid vl ∧ v = (f, pageAfter f vl log) ∧
    (∃ rest, slsCommands a (qid k) = log.map Prod.fst ++ rest ∧ Emits p rest) ∧
    ReadsExact f vl (qid k) log ∧ ∀ ev ∈ log, ev.1 = .ioCmd (cmdClear (qid k)) → ev.2.ret = 0
  Good k a log := a.Valid vl ∧ log.map Prod.fst <+: slsCommands a (qid k) ∧
    ReadsExact f vl (qid k) log
  Allowed _ a := a.Valid vl
  begin := by
    rintro k a p v ha rfl ⟨heap, rfl⟩
    refine ⟨ha, rfl, ⟨_, rfl, unvmeSparseLengthSum_emits heap (ha.divisor hvl) (qid k)⟩, ?_,
      by simp⟩
    intro pre r post he
    simp at he
  call := by
    rintro k a c next log d r d' ⟨ha, hv, ⟨rest, hcs, hem⟩, hre, hcl⟩ hs
    obtain ⟨rest', rfl, hnext⟩ := hem.call_inv
    obtain ⟨rfl, hpage⟩ := Prod.mk.inj hv
    have heff := serves_commandEffect hvl ha (by rw [hcs]; simp) hs
    refine ⟨ha, ?_, ⟨rest', by simp [hcs], hnext r⟩, ?_, ?_⟩
    · rw [pageAfter_concat, heff.flash, heff.page, hpage]
    · apply hre.concat
      intro hc hret
      rw [heff.read hc hret, hpage]
    · intro ev hev
      rcases List.mem_append.mp hev with h | h
      · exact hcl ev h
      · rw [List.mem_singleton.mp h]
        exact heff.clear
  frame := by
    rintro k a c next log d r d' k' ⟨ha, hv, ⟨rest, hcs, hem⟩, hre, hcl⟩ hs hk
    obtain ⟨rest', rfl, -⟩ := hem.call_inv
    have heff := serves_commandEffect hvl ha (by rw [hcs]; simp) hs
    have hne : (qid k').toNat ≠ (qid k).toNat := fun h => hk (hq (BitVec.eq_of_toNat_eq h))
    rw [heff.flash, heff.others _ hne]
  print := by
    rintro k a o next log v ⟨ha, hv, ⟨rest, hcs, hem⟩, hre, hcl⟩
    exact ⟨ha, hv, ⟨rest, hcs, hem.print_inv⟩, hre, hcl⟩
  finish := by
    rintro k a b log v ⟨ha, rfl, ⟨rest, hcs, hem⟩, hre, hcl⟩
    obtain rfl := hem.done_inv
    rw [List.append_nil] at hcs
    rw [pageAfter_complete f hcs hcl]
  good := by
    rintro k a p log v ⟨ha, -, ⟨rest, hcs, -⟩, hre, -⟩
    exact ⟨ha, ⟨rest, hcs.symm⟩, hre⟩

end Spec

section Exact
variable {vl : ℕ} {a : SlsArgs} {q : CInt} (f : Flash 1024 CInt)

/-- The words of a request are the words of its row of the table. -/
theorem requestRow_eq_tableWord (hvl : vl ∣ 1024) (ha : a.Valid vl) {i : ℕ}
    (hi : i < a.inputEmbeddings.toInt.toNat) {j : ℕ} (hj : j < vl) :
    requestRow f vl (ispRequest a q i) j =
      tableWord f a.tableId (vl * (a.flatInd (i * 2 + 1)).toNat + j) := by
  obtain ⟨-, ⟨he, hmul⟩, hlo, hhi⟩ := ha.pairs i hi
  have hle : vl ≤ 1024 := Nat.le_of_dvd (by decide) hvl
  have hvlInt : a.vectorLength.toInt = vl := by
    rw [ha.vectorLength, CInt.toInt_ofNat_of_lt (by omega)]
  have hnat := CInt.natCast_toNat he
  set e := a.flatInd (i * 2 + 1) with hedef
  have hnn : 0 ≤ a.vectorLength.toInt := by
    rw [hvlInt]
    positivity
  rw [← hvlInt] at hmul hlo hhi
  obtain ⟨-, hblock⟩ := embeddingBlock_natCast hnn he hmul hlo hhi
  rw [hvlInt] at hblock
  have hb : (embeddingBlock a.tableId a.vectorLength e).toNat =
      (1024 + a.tableId.toInt * 250000 + (4 * vl * e.toNat / 4096 : ℕ)).toNat := by
    rw [← Int.toNat_natCast (embeddingBlock _ _ _).toNat, hblock, ← hnat]
    norm_cast
  rw [requestRow]
  simp only [ispRequest, ← hedef, hb, targetVector]
  rw [← tableWord_row hvl f _ _ hj, Option.getD_some]

theorem added_concat_of_lt {log : SlsLog} {ev : Request CInt × Completion CInt} {i : ℕ}
    (hi : i < log.length) : added (log ++ [ev]) i = added log i := by
  rw [added, List.getElem?_append_left hi, ← added]

theorem added_concat_length (log : SlsLog) (i : ℕ) (c : Completion CInt) :
    added (log ++ [(.ioCmd (ispRequest a q i), c)]) log.length = decide (c.ret = 0) := by
  rw [added, List.getElem?_concat_length]
  simp [ispRequest]

theorem pageStep_word (hvl : vl ∣ 1024) (ha : a.Valid vl) (page : Page) {i : ℕ}
    (hi : i < a.inputEmbeddings.toInt.toNat) (c : Completion CInt) {r j : ℕ} (hj : j < vl)
    (hw : vl * r + j < 1024) :
    pageStep f vl page (.ioCmd (ispRequest a q i), c) ⟨vl * r + j, hw⟩ = page ⟨vl * r + j, hw⟩ +
      if (a.flatInd (i * 2)).toNat = r ∧ c.ret = 0 then
        tableWord f a.tableId (vl * (a.flatInd (i * 2 + 1)).toNat + j) else 0 := by
  by_cases hret : c.ret = 0
  · obtain ⟨-, hptr, -⟩ := ha.slot hi
    rw [pageStep_ispRequest _ _ _ _ _ _ hret, addSpan, hptr]
    congr 1
    -- rows of different results do not overlap
    by_cases hr : (a.flatInd (i * 2)).toNat = r
    · subst hr
      rw [if_pos (by dsimp only; omega), if_pos ⟨rfl, hret⟩,
        ← requestRow_eq_tableWord f (q := q) hvl ha hi hj]
      simp
    · rw [if_neg fun h => hr (row_unique hj h.1 h.2), if_neg fun h => hr h.1]
  · rw [pageStep_failed _ _ _ hret, if_neg fun h => hret h.2, add_zero]

/-- The page after the first `n` requests, at every word of every result. -/
theorem pageAfter_requests (hvl : vl ∣ 1024) (ha : a.Valid vl) {n : ℕ}
    (hn : n ≤ a.inputEmbeddings.toInt.toNat) {log : SlsLog}
    (hlog : log.map Prod.fst = (List.range n).map fun i => .ioCmd (ispRequest a q i)) {r j : ℕ}
    (hj : j < vl) (hw : vl * r + j < 1024) :
    pageAfter f vl log ⟨vl * r + j, hw⟩ =
      ∑ i ∈ Finset.range n with (a.flatInd (i * 2)).toNat = r ∧ added log i,
        tableWord f a.tableId (vl * (a.flatInd (i * 2 + 1)).toNat + j) := by
  rw [Finset.sum_filter]
  induction n generalizing log with
  | zero =>
    obtain rfl : log = [] := by simpa using hlog
    rfl
  | succ n ih =>
    rw [List.range_succ, List.map_append] at hlog
    obtain ⟨log, last, rfl, hinit, hlast⟩ := List.map_eq_append_iff.mp hlog
    obtain ⟨⟨_, c⟩, rfl, rfl⟩ : ∃ ev, last = [ev] ∧ ev.1 = .ioCmd (ispRequest a q n) := by
      simpa [List.map_eq_singleton_iff] using hlast
    have hlen : log.length = n := by simpa using congrArg List.length hinit
    rw [pageAfter_concat, pageStep_word f hvl ha _ hn c hj hw, ih (by omega) hinit,
      Finset.sum_range_succ]
    congr 1
    · apply Finset.sum_congr rfl
      intro i hi
      rw [added_concat_of_lt (by rw [hlen]; exact Finset.mem_range.mp hi)]
    · conv_rhs => rw [← hlen, added_concat_length, hlen]
      simp

/-- The commands before the page read are all requests of the call. -/
theorem requests_before_read {pre post : SlsLog} {r : Completion CInt}
    (h : (pre ++ (.ioCmd (cmdPageRead q), r) :: post).map Prod.fst <+: slsCommands a q) :
    pre.map Prod.fst = (List.range a.inputEmbeddings.toInt.toNat).map
      fun i => .ioCmd (ispRequest a q i) := by
  obtain ⟨rest, hrest⟩ := h
  rw [List.map_append, List.append_assoc, slsCommands] at hrest
  rcases List.append_eq_append_iff.mp hrest with ⟨mid, hmid, hend⟩ | ⟨mid, hmid, hend⟩
  · -- a page read is not a request
    rcases mid with _ | ⟨c, mid⟩
    · rw [hmid, List.append_nil]
    · obtain ⟨rfl, -⟩ : .ioCmd (cmdPageRead q) = c ∧ _ := by simpa using hend
      have hmem : (.ioCmd (cmdPageRead q) : Request CInt) ∈
          (List.range a.inputEmbeddings.toInt.toNat).map fun i => .ioCmd (ispRequest a q i) := by
        rw [hmid]
        simp
      simp [ispRequest, cmdPageRead] at hmem
  · -- nor does a page read follow the clear
    rcases mid with _ | ⟨c, _ | ⟨c', mid⟩⟩
    · rw [hmid, List.append_nil]
    · simp [cmdPageRead, cmdClear] at hend
    · simp at hend

theorem result_word_lt {r j : ℕ} (hr : r < 1024 / vl) (hj : j < vl) : vl * r + j < 1024 := by
  calc vl * r + j < vl * (r + 1) := by rw [Nat.mul_add]; omega
    _ ≤ vl * (1024 / vl) := Nat.mul_le_mul_left _ hr
    _ ≤ 1024 := Nat.mul_div_le _ _

end Exact

/-- In every interleaving of callers with pairwise distinct queue ids, and for every pattern
of failing requests and page reads: before a successful page read of a call all its requests
were submitted, and the page holds for each result the sum of exactly the table rows that this
call's pairs name for it, leaving out those whose request failed. -/
theorem sparse_length_sum_isolated {κ : Type} [DecidableEq κ] {vl : ℕ} {kernel : Kernel 1024 CInt}
    (hk : (vl = 32 ∧ kernel = embedding32) ∨ (vl = 64 ∧ kernel = embedding64))
    (flash : Flash 1024 CInt) (qid : κ → CInt) (hq : Function.Injective qid)
    (calls : κ → List SlsArgs) (hvalid : ∀ k, ∀ a ∈ calls k, a.Valid vl)
    {S : System κ SlsArgs (Ssd 1024 CInt) (Request CInt) (Completion CInt) Printf HostBuf}
    (hS : Reachable (Ssd.Serves kernel NotClear)
      (fun k a p => ∃ heap, p = unvmeSparseLengthSum heap a (qid k))
      (System.initial ⟨flash, fun _ => 0⟩ calls) S)
    {k : κ} {a : SlsArgs} {log : SlsLog} (hlog : (a, log) ∈ (S.worker k).history)
    {pre post : SlsLog} {c : Completion CInt}
    (hread : log = pre ++ (.ioCmd (cmdPageRead (qid k)), c) :: post) (hok : c.ret = 0) :
    pre.map Prod.fst = (List.range a.inputEmbeddings.toInt.toNat).map
        (fun i => .ioCmd (ispRequest a (qid k) i)) ∧
      ∀ r < 1024 / vl, ∀ j < vl, c.transfer (r * vl + j) =
        some (∑ i ∈ Finset.range a.inputEmbeddings.toInt.toNat with
          (a.flatInd (i * 2)).toNat = r ∧ added pre i,
          tableWord flash a.tableId ((a.flatInd (i * 2 + 1)).toNat * vl + j)) := by
  have hvl : vl ∣ 1024 := by rcases hk with ⟨rfl, -⟩ | ⟨rfl, -⟩ <;> decide
  obtain ⟨ret, rfl⟩ : ∃ ret, kernel = embedding vl ret := by
    rcases hk with ⟨rfl, rfl⟩ | ⟨rfl, rfl⟩
    · exact ⟨0, rfl⟩
    · exact ⟨4, rfl⟩
  have hidle : ∀ k, (slsSpec flash qid ret hvl hq).Idle k (flash, 0) := fun _ => rfl
  obtain ⟨ha, hpre, hexact⟩ := (slsSpec flash qid ret hvl hq).history_good hvalid hidle hS hlog
  subst hread
  have hreq := requests_before_read hpre
  refine ⟨hreq, ?_⟩
  intro r hr j hj
  have hw := result_word_lt hr hj
  rw [hexact pre c post rfl hok, Nat.mul_comm r vl, Region.load_of_lt _ hw,
    pageAfter_requests flash hvl ha le_rfl hreq hj hw]
  simp only [Nat.mul_comm]

def fourRequests : SlsArgs :=
  ⟨fun k => [0, 1, 1, 2, 0, 3, 0, 5].getD k 0, 32, 2, 2, 0, 4⟩

theorem fourRequests_valid : fourRequests.Valid 32 where
  vectorLength := rfl
  pairs := by
    intro i hi
    have hi' : i < 4 := hi
    interval_cases i <;> decide

/-- Row `e` of every table holds the words from `32 * e` on. -/
def countingSsd : Ssd 1024 CInt := ⟨fun _ w => BitVec.ofNat 32 w.val, fun _ => 0⟩

def qidOf (k : Bool) : CInt := if k then 1 else 0

def thirdFailed : SlsLog :=
  [(.ioCmd (ispRequest fourRequests 1 0), ⟨0, 0, fun _ => none⟩),
    (.ioCmd (ispRequest fourRequests 1 1), ⟨0, 0, fun _ => none⟩),
    (.ioCmd (ispRequest fourRequests 1 2), .failed 5),
    (.ioCmd (ispRequest fourRequests 1 3), ⟨0, 0, fun _ => none⟩)]

theorem fourRequests_run : ∃ S c,
    Reachable (Ssd.Serves embedding32 NotClear)
      (fun (k : Bool) (a : SlsArgs) p => ∃ heap, p = unvmeSparseLengthSum heap a (qidOf k))
      (System.initial countingSsd fun _ => [fourRequests]) S ∧
    (fourRequests, thirdFailed ++ [(.ioCmd (cmdPageRead 1), c)]) ∈ (S.worker true).history ∧
    (S.worker false).current ≠ none ∧ c.ret = 0 := by
  have hserve : ∀ (d : Ssd 1024 CInt) q i, i < 4 → ∃ d', d.Serves embedding32 NotClear
      (.ioCmd (ispRequest fourRequests q i)) ⟨0, 0, fun _ => none⟩ d' := fun d q i hi =>
    ⟨_, .of_exec (exec_ispRead (by decide) d rfl (fourRequests_valid.slotInRange hi))⟩
  obtain ⟨d₀, hs₀⟩ := hserve countingSsd 1 0 (by decide)
  obtain ⟨d₀', hs₀'⟩ := hserve d₀ 0 0 (by decide)
  obtain ⟨d₁, hs₁⟩ := hserve d₀' 1 1 (by decide)
  obtain ⟨d₃, hs₃⟩ := hserve d₁ 1 3 (by decide)
  have h₀ : Reachable (Ssd.Serves embedding32 NotClear)
    (fun (k : Bool) (a : SlsArgs) p => ∃ heap, p = unvmeSparseLengthSum heap a (qidOf k))
    (System.initial countingSsd fun _ => [fourRequests])
    (System.initial countingSsd fun _ => [fourRequests]) := .refl
  have h₁ := h₀.tail (.begin (k := false) rfl ⟨⟨fun _ => 0, fun _ => 0⟩, rfl⟩)
  have h₂ := h₁.tail (.begin (k := true) rfl ⟨⟨fun _ => 0, fun _ => 0⟩, rfl⟩)
  have h₃ := h₂.tail (.call (k := true) rfl hs₀)
  have h₄ := h₃.tail (.call (k := false) rfl hs₀')
  have h₅ := h₄.tail (.call (k := true) rfl hs₁)
  have h₆ := h₅.tail (.call (k := true) rfl
    (.of_failed 5 (by decide) (notClear_ispRequest _ 1 2)))
  have h₇ := h₆.tail (.print (k := true) rfl)
  have h₈ := h₇.tail (.call (k := true) rfl hs₃)
  have h₉ := h₈.tail (.call (k := true) rfl (.of_exec (exec_pageRead _ _ 1)))
  exact ⟨_, _, h₉, .head _, Option.some_ne_none _, rfl⟩

theorem fourRequests_sums : ∀ j < 32,
    (∑ i ∈ Finset.range fourRequests.inputEmbeddings.toInt.toNat with
          (fourRequests.flatInd (i * 2)).toNat = 0 ∧ added thirdFailed i,
        tableWord countingSsd.flash fourRequests.tableId
          ((fourRequests.flatInd (i * 2 + 1)).toNat * 32 + j)) =
      BitVec.ofNat 32 (192 + 2 * j) ∧
    (∑ i ∈ Finset.range fourRequests.inputEmbeddings.toInt.toNat with
          (fourRequests.flatInd (i * 2)).toNat = 1 ∧ added thirdFailed i,
        tableWord countingSsd.flash fourRequests.tableId
          ((fourRequests.flatInd (i * 2 + 1)).toNat * 32 + j)) =
      BitVec.ofNat 32 (64 + j) := by
  decide +kernel

/-- The row of the failed request is missing from result 0, and the other caller's request
changes nothing. -/
theorem sparse_length_sum_isolated_thirdFailed :
    ∃ (S : System Bool SlsArgs (Ssd 1024 CInt) (Request CInt) (Completion CInt) Printf HostBuf)
      (c : Completion CInt),
      Reachable (Ssd.Serves embedding32 NotClear)
        (fun (k : Bool) (a : SlsArgs) p => ∃ heap, p = unvmeSparseLengthSum heap a (qidOf k))
        (System.initial countingSsd fun _ => [fourRequests]) S ∧
      (fourRequests, thirdFailed ++ [(.ioCmd (cmdPageRead 1), c)]) ∈ (S.worker true).history ∧
      (S.worker false).current ≠ none ∧ c.ret = 0 ∧
      ∀ j < 32, c.transfer j = some (BitVec.ofNat 32 (192 + 2 * j)) ∧
        c.transfer (32 + j) = some (BitVec.ofNat 32 (64 + j)) := by
  obtain ⟨S, c, hS, hlog, hcur, hok⟩ := fourRequests_run
  obtain ⟨-, hsum⟩ := sparse_length_sum_isolated (.inl ⟨rfl, rfl⟩) countingSsd.flash qidOf
    (by decide) (fun _ => [fourRequests]) (by simpa using fourRequests_valid) hS hlog rfl hok
  refine ⟨S, c, hS, hlog, hcur, hok, ?_⟩
  intro j hj
  obtain ⟨hzero, hone⟩ := fourRequests_sums j hj
  constructor
  · rw [← hzero]
    simpa only [Nat.zero_mul, Nat.zero_add] using hsum 0 (by decide) j hj
  · rw [← hone]
    simpa only [Nat.one_mul] using hsum 1 (by decide) j hj

end EbpfIsp.Driver
