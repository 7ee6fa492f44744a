import EbpfIsp.PatternMatch.Strfilter
import EbpfIsp.PatternMatch.Mtssd

/-! # Requested blocks and scanned blocks

The drivers run `strfilter.c` on requests of different lengths: 1 block in
`offloaded_pm.c`, 64 in `mtssd_pm.c` and 128 in `ssdside_pm.c`. The filter
scans 128 pages of its buffer whatever was requested, so a shorter request also
counts what is left in the buffer behind it.
-/

namespace EbpfIsp.PatternMatch
open Library Device HostProgram

def offloadedCmd (slba nlb : CInt) (param : ℕ → CInt) : PassthruCmd where
  opcode := .ispRead
  cdw2 := param 0
  cdw3 := param 1
  cdw10 := slba
  cdw12 := nlb - 1

/-- `callprog` of `offloaded_pm.c`; a failure is reported and `cmd.result` returned all the same. -/
def offloadedCallprog (slba nlb : CInt) (param : ℕ → CInt) : Host CChar CInt := do
  let r ← issue (.ioCmd (offloadedCmd slba nlb param))
  printfIf (r.ret ≠ 0) "ioctl issued err %d\n" [r.ret]
  return r.result

def offloadedLoop (n : ℕ) : Host CChar (CInt × CInt) :=
  loop n (fun _ s => do
    let result ← offloadedCallprog s.2 1 fun _ => 0
    return (s.1 + result, s.2 + 1)) (0, 1024)

def offloadedPm : Host CChar Unit := do
  let s ← offloadedLoop (8 * 1024)
  printf "result: %d\n" [s.1]

def ssdsideCmd (i : ℕ) : PassthruCmd where
  opcode := .ispRead
  cdw10 := 1024 + BitVec.ofNat 32 i * 128
  cdw12 := 128 - 1

def ssdsideChunk (i : ℕ) (cnt : CInt) : Host CChar CInt := do
  let r ← issue (.ioCmd (ssdsideCmd i))
  if r.ret ≠ 0 then
    printf "iteration %d: err %d\n" [BitVec.ofNat 32 i, r.ret]
    return cnt
  else
    return cnt + r.result

/-- `ssdside_pm.c`, with its single iteration. -/
def ssdsidePm : Host CChar Unit := do
  let _ ← loop 1 (fun _ _ => loop (8 * 1024 / 128) ssdsideChunk 0) 0
  printf "---- Test end ----\n" []

/-! ### What the drivers request -/

theorem offloadedLoop_requests {n : ℕ} {log : List (Request CChar × Completion CChar)}
    {s : CInt × CInt} (h : Path (offloadedLoop n) log s) :
    log.map Prod.fst =
      (List.range n).map fun i =>
        .ioCmd (offloadedCmd (1024 + BitVec.ofNat 32 i) 1 fun _ => 0) := by
  refine (Path.of_loop (fun i s => s.2 = 1024 + BitVec.ofNat 32 i)
    (fun i => .ioCmd (offloadedCmd (1024 + BitVec.ofNat 32 i) 1 fun _ => 0)) rfl ?_ h).2
  rintro i - ⟨cnt, _⟩ t' log rfl hbody
  obtain ⟨result, log₁, log₂, hcall, hdone, rfl⟩ := Path.of_bind hbody
  obtain ⟨r, rfl, -⟩ := path_request_iff.mp hcall
  cases hdone
  refine ⟨?_, rfl⟩
  rw [BitVec.ofNat_add, ← BitVec.add_assoc]
  rfl

theorem offloadedPm_requests {log : List (Request CChar × Completion CChar)} {u : Unit}
    (h : Path offloadedPm log u) {c : Request CChar} (hc : c ∈ log.map Prod.fst) :
    ∃ i, c = .ioCmd (offloadedCmd (1024 + BitVec.ofNat 32 i) 1 fun _ => 0) := by
  obtain ⟨s, log₁, log₂, hloop, hprint, rfl⟩ := Path.of_bind h
  cases hprint with
  | print hdone =>
    cases hdone
    rw [List.append_nil, offloadedLoop_requests hloop, List.mem_map] at hc
    obtain ⟨i, -, rfl⟩ := hc
    exact ⟨i, rfl⟩

theorem ssdsideChunk_emits (i : ℕ) (cnt : CInt) :
    Emits (ssdsideChunk i cnt) [.ioCmd (ssdsideCmd i)] := by
  apply Emits.issue_bind
  intro r
  split
  · exact .print (.done _)
  · exact .done _

theorem ssdsidePm_emits :
    Emits ssdsidePm ((List.range (8 * 1024 / 128)).map fun i => .ioCmd (ssdsideCmd i)) := by
  have hchunks : Emits (loop (8 * 1024 / 128) ssdsideChunk 0)
      ((List.range (8 * 1024 / 128)).map fun i => .ioCmd (ssdsideCmd i)) :=
    Emits.loop _ _ _ ssdsideChunk_emits
  have h := hchunks.bind fun _ => Emits.say (⟨"---- Test end ----\n", []⟩ : Printf)
  rw [List.append_nil] at h
  rw [ssdsidePm, loop_one]
  exact h

/-! ### What the filter depends on -/

def requestedBytes (cmd : PassthruCmd) : ℕ := (cmd.cdw12.toNat + 1) * 4096

/-- On any two buffers that the filter can scan and that agree on the requested blocks it returns
the same count. -/
def DependsOnRequest (cmd : PassthruCmd) : Prop :=
  ∀ (n n' : ℕ) (it : Region n CChar) (it' : Region n' CChar) (page page' : Region 4096 CChar),
    filterSize ≤ n → filterSize ≤ n' →
    (∀ k < requestedBytes cmd, it.load k = it'.load k) →
    ∃ cnt, (strfilter cmd.cdw2 cmd.cdw3 n it page).map Prod.fst = some cnt ∧
      (strfilter cmd.cdw2 cmd.cdw3 n' it' page').map Prod.fst = some cnt

def bytesOf {n : ℕ} (it : Region n CChar) (k : ℕ) : CChar := (it.load k).getD 0

theorem strfilter_count {n : ℕ} (it : Region n CChar) (hn : filterSize ≤ n) (p q : CInt)
    (page : Region 4096 CChar) : (strfilter p q n it page).map Prod.fst =
      some (BitVec.ofNat 32 (Nat.count (Occurs (bytesOf it)) (filterSize - targetLen))) := by
  have hdata : ∀ k < n, it.load k = some (bytesOf it k) := fun k hk => it.load_eq_some_getD hk 0
  rw [strfilter_eq hdata hn, Option.map_some]

/-- A request of all scanned blocks determines the count. -/
theorem dependsOnRequest_of_le {cmd : PassthruCmd} (h : filterSize ≤ requestedBytes cmd) :
    DependsOnRequest cmd := by
  intro n n' it it' page page' hn hn' hagree
  refine ⟨_, strfilter_count it hn _ _ page, ?_⟩
  have hlen : targetLen = 5 := rfl
  have hsize : filterSize = 524288 := rfl
  have hcount : Nat.count (Occurs (bytesOf it')) (filterSize - targetLen) =
      Nat.count (fun i => Occurs (bytesOf it) (0 + i)) (filterSize - targetLen) := by
    apply count_occurs_part
    intro k hk
    rw [Nat.zero_add, bytesOf, bytesOf, hagree k (by omega)]
  rw [strfilter_count it' hn' _ _ page', hcount]
  simp only [Nat.zero_add]

def placedAt (a : ℕ) : Region filterSize CChar :=
  fun k => if a ≤ k.val then targetData (k.val - a) else 0

theorem targetData_eq_zero {j : ℕ} (h : targetLen ≤ j) : targetData j = 0 := by
  rw [targetData, List.getD_eq_getElem?_getD, List.getElem?_eq_none h, Option.getD_none]

theorem bytesOf_placedAt {a : ℕ} (ha : a + targetLen ≤ filterSize) :
    bytesOf (placedAt a) = fun k => if a ≤ k then targetData (k - a) else 0 := by
  funext k
  by_cases hk : k < filterSize
  · rw [bytesOf, Region.load_of_lt _ hk, Option.getD_some, placedAt]
  · rw [bytesOf, Region.load_eq_none _ (Nat.not_lt.mp hk), Option.getD_none, if_pos (by omega),
      targetData_eq_zero (by omega)]

theorem count_placedAt {a : ℕ} (ha : a < filterSize - targetLen) :
    Nat.count (Occurs (bytesOf (placedAt a))) (filterSize - targetLen) = 1 := by
  rw [bytesOf_placedAt (by omega), count_placed, if_pos ha]

theorem bytesOf_zero : bytesOf (0 : Region filterSize CChar) = fun _ => 0 := by
  funext k
  by_cases hk : k < filterSize
  · rw [bytesOf, Region.load_of_lt _ hk]
    rfl
  · rw [bytesOf, Region.load_eq_none _ (Nat.not_lt.mp hk), Option.getD_none]

theorem count_zeroes (m : ℕ) :
    Nat.count (Occurs (bytesOf (0 : Region filterSize CChar))) m = 0 := by
  rw [bytesOf_zero, Nat.count_iff_forall_not]
  intro i _ hocc
  have hfirst : (0 : CChar) = targetData 0 := hocc 0 (by decide)
  exact absurd hfirst (by decide)

/-- Two buffers that agree before byte `a` and get the counts 0 and 1. -/
theorem stale_counts {a : ℕ} (ha : a < filterSize - targetLen) (p q : CInt)
    (page : Region 4096 CChar) :
    (∀ k < a, (0 : Region filterSize CChar).load k = (placedAt a).load k) ∧
      (strfilter p q filterSize 0 page).map Prod.fst = some 0 ∧
      (strfilter p q filterSize (placedAt a) page).map Prod.fst = some 1 := by
  refine ⟨?_, ?_, ?_⟩
  · intro k hk
    rw [Region.load_of_lt _ (by omega), Region.load_of_lt _ (by omega), placedAt,
      if_neg (Nat.not_le.mpr hk)]
    rfl
  · rw [strfilter_count _ le_rfl, count_zeroes]
    rfl
  · rw [strfilter_count _ le_rfl, count_placedAt ha]
    rfl

/-- Behind a shorter request the filter counts other bytes of its 128 pages. -/
theorem not_dependsOnRequest {cmd : PassthruCmd} (h : requestedBytes cmd < filterSize - targetLen) :
    ¬ DependsOnRequest cmd := by
  intro hdep
  obtain ⟨hagree, hzero, hone⟩ := stale_counts h cmd.cdw2 cmd.cdw3 0
  obtain ⟨cnt, h₀, h₁⟩ := hdep _ _ 0 (placedAt (requestedBytes cmd)) 0 0 le_rfl le_rfl hagree
  rw [hzero, Option.some_inj] at h₀
  rw [hone, Option.some_inj, ← h₀] at h₁
  exact absurd h₁ (by decide)

/-- The count depends on the requested blocks alone exactly for requests of 128 blocks. -/
theorem dependsOnRequest_iff {cmd : PassthruCmd} {nlb : ℕ} (hmin : 1 ≤ nlb) (hmax : nlb ≤ 128)
    (hcmd : cmd.cdw12 = BitVec.ofNat 32 nlb - 1) : DependsOnRequest cmd ↔ nlb = 128 := by
  have hblocks : cmd.cdw12.toNat + 1 = nlb := by
    rw [hcmd]
    bv_omega
  have hbytes : requestedBytes cmd = nlb * 4096 := by rw [requestedBytes, hblocks]
  have hsize : filterSize = 128 * 4096 := rfl
  have hlen : targetLen = 5 := rfl
  constructor
  · intro hdep
    by_contra hne
    exact not_dependsOnRequest (by omega) hdep
  · rintro rfl
    exact dependsOnRequest_of_le (by omega)

theorem dependsOnRequest_iff_ssdside : DependsOnRequest (ssdsideCmd 0) :=
  (dependsOnRequest_iff (by decide) le_rfl (by decide)).mpr rfl

/-- A request of 64 blocks, on a buffer of zeroes and on one with the target right behind them. -/
theorem stale_block_counted : requestedBytes (mtssdCmd 0) = 64 * 4096 ∧
    (∀ k < 64 * 4096, (0 : Region filterSize CChar).load k = (placedAt (64 * 4096)).load k) ∧
    (strfilter 0 0 filterSize 0 0).map Prod.fst = some 0 ∧
    (strfilter 0 0 filterSize (placedAt (64 * 4096)) 0).map Prod.fst = some 1 ∧
    ¬ DependsOnRequest (mtssdCmd 0) :=
  have hcounts := stale_counts (a := 64 * 4096) (by decide) 0 0 0
  ⟨rfl, hcounts.1, hcounts.2.1, hcounts.2.2, not_dependsOnRequest (by decide)⟩

/-- Of the drivers only `ssdside_pm.c` requests as much as is scanned. -/
theorem drivers_dependsOnRequest :
    (∀ log u c, Path offloadedPm log u → c ∈ log.map Prod.fst →
      ∃ cmd, c = .ioCmd cmd ∧ ¬ DependsOnRequest cmd) ∧
    (∀ i, ¬ DependsOnRequest (mtssdCmd i)) ∧
    ∀ log u c, Path ssdsidePm log u → c ∈ log.map Prod.fst →
      ∃ cmd, c = .ioCmd cmd ∧ DependsOnRequest cmd := by
  refine ⟨?_, ?_, ?_⟩
  · intro log u c hpath hc
    obtain ⟨i, rfl⟩ := offloadedPm_requests hpath hc
    refine ⟨_, rfl, not_dependsOnRequest ?_⟩
    change ((1 - 1 : CInt).toNat + 1) * 4096 < filterSize - targetLen
    decide
  · intro i
    apply not_dependsOnRequest
    change ((BitVec.ofNat 32 (oneReadBlk - 1)).toNat + 1) * 4096 < filterSize - targetLen
    decide
  · intro log u c hpath hc
    rw [ssdsidePm_emits.path hpath, List.mem_map] at hc
    obtain ⟨i, -, rfl⟩ := hc
    refine ⟨_, rfl, dependsOnRequest_of_le ?_⟩
    change filterSize ≤ ((128 - 1 : CInt).toNat + 1) * 4096
    decide

end EbpfIsp.PatternMatch
