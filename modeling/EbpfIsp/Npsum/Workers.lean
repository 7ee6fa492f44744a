import EbpfIsp.Library.Chunks
import EbpfIsp.Npsum.Programs

/-! # Matrix sums by several worker processes

`ISP_noaxis_mt.c` and `host_noaxis_mt.c` fork `num_threads` workers in every
iteration. Worker `t` handles `NUM_MATRIX / num_threads` consecutive matrices
and exits; the parent waits. The division truncates, so the workers never
handle a matrix twice, but together they handle all of them only when
`num_threads` divides `NUM_MATRIX`. `ISP_noaxis.c` and `host_noaxis.c` do the
same work in one process. Any request of any process may fail.
-/

namespace EbpfIsp.Npsum
open Library Device ForkProgram Machine

/-- A request of type `ρ` with the iteration it belongs to, `none` before the first and
between iterations. -/
abbrev Submission (ρ : Type) := Option ℕ × ρ

abbrev Workers (ρ β : Type) := Forking (Submission ρ) CInt β

def sumCmd (slba : CInt) : PassthruCmd where
  opcode := .ispRead
  cdw2 := 3
  cdw10 := slba
  cdw12 := 64 - 1

/-- The read of a matrix. The device fills the buffer behind `addr` and does not look at its
content. -/
def readIo (slba : CInt) : UserIo CInt := ⟨.read, 64 - 1, fun _ => 0, slba.signExtend 64⟩

def warnSum {ρ : Type} (lo hi sum : CInt) : Workers ρ Unit := do
  if sum.slt lo ∨ hi.slt sum then say ⟨"Warning: sum out of range: %d\n", [sum]⟩

/-- The body of the loop over the matrices of `ISP_noaxis.c` and `ISP_noaxis_mt.c`. -/
def ispSum (it i : ℕ) (slba : CInt) : Workers PassthruCmd Unit := do
  let r ← issue (some it, sumCmd slba)
  if r.ret ≠ 0 then say ⟨"iteration %d: err %d\n", [BitVec.ofNat 32 i, r.ret]⟩
  else warnSum 30000000 40000000 r.result

/-- The body of the loop over the matrices of `host_noaxis.c` and `host_noaxis_mt.c`, with
the buffer. -/
def hostSum (it i : ℕ) (slba : CInt) (buf : ℕ → CInt) : Workers (UserIo CInt) (ℕ → CInt) := do
  let r ← issue (some it, readIo slba)
  let buf := r.into buf
  if r.ret ≠ 0 then
    say ⟨"iteration %d: err %d\n", [BitVec.ofNat 32 i, r.ret]⟩
    return buf
  else
    warnSum 33000000 34000000 (sumInts buf matrixElements)
    return buf

def ispNoaxis : Workers PassthruCmd Unit := do
  let _ ← issue (none, cmdStatsClear)
  loop 32 (fun it _ => do
    loop numMatrix (fun i _ => ispSum it i (matrixSlba i)) ()
    let _ ← issue (none, cmdStats)
    let _ ← issue (none, cmdStatsClear)
    return ()) ()
  say ⟨"---- Test end ----\n", []⟩

/-- `host_noaxis.c`; `fresh` is the allocated buffer. -/
def hostNoaxis (fresh : ℕ → CInt) : Workers (UserIo CInt) Unit := do
  let _ ← loop 16 (fun it => loop numMatrix fun i => hostSum it i (matrixSlba i)) fresh
  say ⟨"---- Test end ----\n", []⟩

def share (numThreads : CInt) : CInt := BitVec.sdiv 1024 numThreads

/-- `1024 + i*64 + (NUM_MATRIX / num_threads) * 64 *t` -/
def targetSlba (numThreads : CInt) (t i : ℕ) : CInt :=
  1024 + BitVec.ofNat 32 i * 64 + share numThreads * 64 * BitVec.ofNat 32 t

/-- `1024+i*64+t*64*(NUM_MATRIX/num_threads)` -/
def readSlba (numThreads : CInt) (t i : ℕ) : CInt :=
  1024 + BitVec.ofNat 32 i * 64 + BitVec.ofNat 32 t * 64 * share numThreads

/-- The loops of the two programs with workers. A worker starts from the memory `s` of the
parent, which its own loop does not change. -/
def workers {ρ τ : Type} (itTime : ℕ) (numThreads : CInt) (body : ℕ → ℕ → ℕ → τ → Workers ρ τ)
    (s : τ) : Workers ρ Unit :=
  loop itTime (fun it _ => do
    loop numThreads.toInt.toNat (fun t _ => do
      if ← forked then
        let _ ← loop (share numThreads).toInt.toNat (body it t) s
        exit
      else return ()) ()
    waitAll) ()

/-- `ISP_noaxis_mt.c`; the argument is `atoi(argv[1])` if there is one. -/
def ispNoaxisMt : Option CInt → Workers PassthruCmd Unit
  | none => say ⟨"usage: ./a.out [num_threads]\n", []⟩
  | some numThreads => do
    let _ ← issue (none, cmdStatsClear)
    workers 16 numThreads (fun it t i _ => ispSum it i (targetSlba numThreads t i)) ()
    say ⟨"---- Test end ----\n", []⟩

/-- `host_noaxis_mt.c`; without an argument it goes on with one worker. -/
def hostNoaxisMt (fresh : ℕ → CInt) (arg : Option CInt) : Workers (UserIo CInt) Unit := do
  if arg = none then say ⟨"usage: ./a.out [num_threads]\n", []⟩
  let numThreads := arg.getD 1
  workers 32 numThreads (fun it t i => hostSum it i (readSlba numThreads t i)) fresh
  say ⟨"---- Test end ----\n", []⟩

section Blocks
variable {ρ : Type}

def cmdBlock (cmd : PassthruCmd) : ℕ := cmd.cdw10.toNat

def ioBlock (io : UserIo CInt) : ℕ := io.slba.toNat

/-- The multiset of starting blocks of the requests that belong to iteration `it`. -/
def blocksOf (block : ρ → ℕ) (m : Multiset (Submission ρ)) (it : ℕ) : Multiset ℕ :=
  (m.filter fun c => c.1 = some it).map fun c => block c.2

def startBlocks (block : ρ → ℕ) (log : List (ℕ × Event (Submission ρ) (Completion CInt) Printf))
    (it : ℕ) : Multiset ℕ :=
  blocksOf block (submitted log) it

def matrixBlocks (k : ℕ) : Multiset ℕ := (Multiset.range k).map fun m => 1024 + 64 * m

end Blocks

section Requests
variable {ρ τ : Type} {body : ℕ → ℕ → ℕ → τ → Workers ρ τ}

/-- A request in every one of the loops, whatever the answers are. -/
theorem workers_consumes (req : ℕ → ℕ → ρ)
    (hbody : ∀ it t i s, Consumes (fun _ => True) (body it t i s) {(some it, req t i)})
    (itTime : ℕ) (n : CInt) (s : τ) :
    Consumes (fun _ => True) (workers itTime n body s)
      (∑ it ∈ Finset.range itTime, ∑ t ∈ Finset.range n.toInt.toNat,
        ∑ i ∈ Finset.range (share n).toInt.toNat, {(some it, req t i)}) := by
  unfold workers
  apply Consumes.loop
  intro it _
  have hfork := Consumes.loop n.toInt.toNat () fun t _ =>
    (Consumes.loop (share n).toInt.toNat s (hbody it t)).exits.forked ()
  simpa using hfork.bind fun _ => Consumes.waitAll

theorem warnSum_consumes (lo hi sum : CInt) :
    Consumes (fun _ => True) (warnSum lo hi sum : Workers ρ Unit) 0 := by
  unfold warnSum
  split
  · exact Consumes.say _
  · exact Consumes.pure _

theorem ispSum_consumes (it i : ℕ) (slba : CInt) :
    Consumes (fun _ => True) (ispSum it i slba) {(some it, sumCmd slba)} := by
  unfold ispSum
  rw [← add_zero {_}]
  apply Consumes.issue_bind
  intro r _
  split
  · exact Consumes.say _
  · exact warnSum_consumes _ _ _

theorem hostSum_consumes (it i : ℕ) (slba : CInt) (buf : ℕ → CInt) :
    Consumes (fun _ => True) (hostSum it i slba buf) {(some it, readIo slba)} := by
  unfold hostSum
  rw [← add_zero {_}]
  apply Consumes.issue_bind
  intro r _
  split
  · exact (Consumes.say _).silent_bind fun _ => Consumes.pure _
  · exact (warnSum_consumes _ _ _).silent_bind fun _ => Consumes.pure _

end Requests

section Values
variable {n : CInt} {t i : ℕ}

theorem share_toNat (hn : 1 ≤ n.toInt) : (share n).toInt.toNat = 1024 / n.toNat := by
  have h1024 : (1024 : CInt).toInt = 1024 := by decide
  rw [share, CInt.toInt_sdiv_of_nonneg (by decide) (by omega), h1024,
    ← CInt.natCast_toNat (a := n) (by omega)]
  norm_cast

theorem share_eq (hn : 1 ≤ n.toInt) : share n = BitVec.ofNat 32 (1024 / n.toNat) := by
  apply BitVec.eq_of_toInt_eq
  have hle : 1024 / n.toNat ≤ 1024 := Nat.div_le_self _ _
  have hshare := share_toNat hn
  have h1024 : (1024 : CInt).toInt = 1024 := by decide
  have hnn : 0 ≤ (share n).toInt := by
    rw [share, CInt.toInt_sdiv_of_nonneg (by decide) (by omega), h1024]
    positivity
  rw [CInt.toInt_ofNat_of_lt (by omega)]
  omega

/-- Matrix `i` of worker `t` is one of the matrices of the single process. -/
theorem targetSlba_eq (hn : 1 ≤ n.toInt) :
    targetSlba n t i = matrixSlba (t * (1024 / n.toNat) + i) := by
  rw [targetSlba, matrixSlba, share_eq hn, BitVec.ofNat_add, BitVec.ofNat_mul]
  ring

theorem readSlba_eq (hn : 1 ≤ n.toInt) :
    readSlba n t i = matrixSlba (t * (1024 / n.toNat) + i) := by
  rw [readSlba, matrixSlba, share_eq hn, BitVec.ofNat_add, BitVec.ofNat_mul]
  ring

theorem cmdBlock_sumCmd (hi : i < numMatrix) :
    cmdBlock (sumCmd (matrixSlba i)) = 1024 + 64 * i := by
  rw [cmdBlock, sumCmd, matrixSlba_toNat hi, Nat.mul_comm]

theorem ioBlock_readIo (hi : i < numMatrix) : ioBlock (readIo (matrixSlba i)) = 1024 + 64 * i := by
  rw [ioBlock, readIo, matrixSlba_signExtend hi, Nat.mul_comm]

/-- The workers together handle no more matrices than there are. -/
theorem handled_le (n : ℕ) : n * (1024 / n) ≤ numMatrix := Nat.mul_div_le 1024 n

end Values

section Budget
variable {ρ : Type} (block : ρ → ℕ) (it : ℕ)

theorem blocksOf_zero : blocksOf block 0 it = 0 := rfl

theorem blocksOf_add (m m' : Multiset (Submission ρ)) :
    blocksOf block (m + m') it = blocksOf block m it + blocksOf block m' it := by
  simp [blocksOf]

theorem blocksOf_sum (k : ℕ) (m : ℕ → Multiset (Submission ρ)) :
    blocksOf block (∑ i ∈ Finset.range k, m i) it =
      ∑ i ∈ Finset.range k, blocksOf block (m i) it := by
  induction k with
  | zero => simp [blocksOf_zero]
  | succ k ih => rw [Finset.sum_range_succ, Finset.sum_range_succ, blocksOf_add, ih]

theorem blocksOf_none (c : ρ) : blocksOf block {(none, c)} it = 0 := by
  simp [blocksOf, Multiset.filter_singleton]

theorem blocksOf_some (it' : ℕ) (c : ρ) :
    blocksOf block {(some it', c)} it = if it' = it then {block c} else 0 := by
  by_cases h : it' = it
  · simp [blocksOf, Multiset.filter_singleton, h]
  · simp [blocksOf, Multiset.filter_singleton, h]

theorem matrixBlocks_eq_sum (k : ℕ) :
    ∑ i ∈ Finset.range k, {1024 + 64 * i} = matrixBlocks k := by
  induction k with
  | zero => rfl
  | succ k ih =>
    rw [Finset.sum_range_succ, ih, matrixBlocks, matrixBlocks, Multiset.range_succ,
      Multiset.map_cons, ← Multiset.singleton_add, add_comm]

def matrixRequests (cmd : CInt → ρ) (itTime k : ℕ) : Multiset (Submission ρ) :=
  ∑ it ∈ Finset.range itTime, ∑ i ∈ Finset.range k, {(some it, cmd (matrixSlba i))}

variable {block} {cmd : CInt → ρ} {itTime k : ℕ} {it}

theorem blocksOf_matrixRequests
    (hblock : ∀ i < numMatrix, block (cmd (matrixSlba i)) = 1024 + 64 * i) (hk : k ≤ numMatrix)
    (hit : it < itTime) : blocksOf block (matrixRequests cmd itTime k) it = matrixBlocks k := by
  have hone (it' : ℕ) : blocksOf block (∑ i ∈ Finset.range k, {(some it', cmd (matrixSlba i))}) it =
      if it' = it then matrixBlocks k else 0 := by
    rw [blocksOf_sum, ← matrixBlocks_eq_sum]
    simp only [blocksOf_some]
    split_ifs
    · apply Finset.sum_congr rfl
      intro i hi
      rw [hblock i (lt_of_lt_of_le (Finset.mem_range.mp hi) hk)]
    · exact Finset.sum_const_zero
  rw [matrixRequests, blocksOf_sum]
  simp only [hone]
  rw [Finset.sum_ite_eq', if_pos (Finset.mem_range.mpr hit)]

theorem sum_shares {n : CInt} (hn : 1 ≤ n.toInt) {req : ℕ → ℕ → ρ}
    (hreq : ∀ t i, req t i = cmd (matrixSlba (t * (1024 / n.toNat) + i))) :
    (∑ it ∈ Finset.range itTime, ∑ t ∈ Finset.range n.toInt.toNat,
      ∑ i ∈ Finset.range (share n).toInt.toNat, {(some it, req t i)} : Multiset (Submission ρ)) =
        matrixRequests cmd itTime (n.toNat * (1024 / n.toNat)) := by
  have hnat : n.toInt.toNat = n.toNat := by
    have hcast := CInt.natCast_toNat (a := n) (by omega)
    omega
  rw [matrixRequests, share_toNat hn, hnat]
  apply Finset.sum_congr rfl
  intro it _
  simp only [hreq]
  exact sum_range_chunks (fun k => {(some it, cmd (matrixSlba k))}) _ _

theorem ispNoaxisMt_consumes {n : CInt} (hn : 1 ≤ n.toInt) :
    Consumes (fun _ => True) (ispNoaxisMt (some n))
      ({(none, cmdStatsClear)} + matrixRequests sumCmd 16 (n.toNat * (1024 / n.toNat))) := by
  have hworkers := workers_consumes (fun t i => sumCmd (targetSlba n t i))
    (fun it t i (_ : Unit) => ispSum_consumes it i (targetSlba n t i)) 16 n ()
  rw [sum_shares hn fun t i => by rw [targetSlba_eq hn]] at hworkers
  unfold ispNoaxisMt
  apply Consumes.issue_bind
  intro r _
  simpa using hworkers.bind fun _ => Consumes.say ⟨"---- Test end ----\n", []⟩

theorem hostNoaxisMt_consumes {n : CInt} (hn : 1 ≤ n.toInt) (fresh : ℕ → CInt) :
    Consumes (fun _ => True) (hostNoaxisMt fresh (some n))
      (matrixRequests readIo 32 (n.toNat * (1024 / n.toNat))) := by
  have hworkers := workers_consumes (fun t i => readIo (readSlba n t i))
    (fun it t i buf => hostSum_consumes it i (readSlba n t i) buf) 32 n fresh
  rw [sum_shares hn fun t i => by rw [readSlba_eq hn]] at hworkers
  unfold hostNoaxisMt
  rw [if_neg (Option.some_ne_none n)]
  simpa using hworkers.bind fun _ => Consumes.say ⟨"---- Test end ----\n", []⟩

theorem hostNoaxis_consumes (fresh : ℕ → CInt) :
    Consumes (fun _ => True) (hostNoaxis fresh) (matrixRequests readIo 16 numMatrix) := by
  have hloop := Consumes.loop 16 fresh fun it buf => Consumes.loop numMatrix buf
    fun i buf => hostSum_consumes it i (matrixSlba i) buf
  unfold hostNoaxis matrixRequests
  simpa using hloop.bind fun _ => Consumes.say ⟨"---- Test end ----\n", []⟩

def statsRequests : Multiset (Submission PassthruCmd) :=
  {(none, cmdStatsClear)} +
    ∑ _it ∈ Finset.range 32, ({(none, cmdStats)} + {(none, cmdStatsClear)})

theorem ispNoaxis_consumes : Consumes (fun _ => True) ispNoaxis
    (statsRequests + matrixRequests sumCmd 32 numMatrix) := by
  have hiter (it : ℕ) := Consumes.loop numMatrix () fun i (_ : Unit) =>
    ispSum_consumes it i (matrixSlba i)
  have hstats : Consumes (fun _ => True) (do
      let _ ← issue (none, cmdStats)
      let _ ← issue (none, cmdStatsClear)
      return () : Workers PassthruCmd Unit) ({(none, cmdStats)} + {(none, cmdStatsClear)}) := by
    apply Consumes.issue_bind
    intro _ _
    rw [← add_zero {(none, cmdStatsClear)}]
    apply Consumes.issue_bind
    intro _ _
    exact Consumes.pure ()
  have hloop := Consumes.loop 32 () fun it (_ : Unit) => (hiter it).bind fun _ => hstats
  have hsum : statsRequests + matrixRequests sumCmd 32 numMatrix = {(none, cmdStatsClear)} +
      ∑ it ∈ Finset.range 32, (∑ i ∈ Finset.range numMatrix, {(some it, sumCmd (matrixSlba i))} +
        ({(none, cmdStats)} + {(none, cmdStatsClear)})) := by
    rw [Finset.sum_add_distrib, statsRequests, matrixRequests]
    abel
  unfold ispNoaxis
  rw [hsum]
  apply Consumes.issue_bind
  intro _ _
  simpa using hloop.bind fun _ => Consumes.say ⟨"---- Test end ----\n", []⟩

end Budget

section Runs
variable {ρ : Type} {serve : Ssd 1024 CInt → Submission ρ → Completion CInt → Ssd 1024 CInt → Prop}
  {d : Ssd 1024 CInt} {prog : Workers ρ Unit} {m : Multiset (Submission ρ)}
  {S : Machine (Ssd 1024 CInt) (Submission ρ) (Completion CInt) Printf Unit}

/-- What the processes have submitted is part of what the program makes, and all of it at the
end. -/
theorem blocks_reachable (block : ρ → ℕ) (hp : Consumes (fun _ => True) prog m)
    (h : Reachable serve (initial d prog) S) (it : ℕ) :
    (∃ rest, startBlocks block S.log it + rest = blocksOf block m it) ∧
      (S.Finished → startBlocks block S.log it = blocksOf block m it) := by
  obtain ⟨⟨rest, hrest⟩, hfin⟩ := submitted_reachable hp h fun _ _ _ _ => trivial
  constructor
  · refine ⟨blocksOf block rest it, ?_⟩
    rw [startBlocks, ← blocksOf_add, hrest]
  · intro hS
    rw [startBlocks, hfin hS]

theorem matrixBlocks_add {k : ℕ} (hk : k ≤ numMatrix) :
    ∃ rest, matrixBlocks k + rest = matrixBlocks numMatrix := by
  obtain ⟨j, hj⟩ := Nat.exists_eq_add_of_le hk
  refine ⟨((Multiset.range j).map (k + ·)).map fun m => 1024 + 64 * m, ?_⟩
  rw [hj, matrixBlocks, matrixBlocks, Multiset.range_add, Multiset.map_add]

theorem matrixBlocks_inj {k j : ℕ} (h : matrixBlocks k = matrixBlocks j) : k = j := by
  have hcard := congrArg Multiset.card h
  simpa [matrixBlocks] using hcard

/-- All matrices are handled exactly when the number of workers divides their number. -/
theorem matrixBlocks_shares_iff (n : ℕ) :
    matrixBlocks (n * (1024 / n)) = matrixBlocks numMatrix ↔ n ∣ 1024 := by
  constructor
  · intro h
    exact Dvd.intro _ (matrixBlocks_inj h)
  · intro h
    rw [Nat.mul_div_cancel' h, numMatrix]

end Runs

section Coverage
variable {ρ : Type} (block : ρ → ℕ)

/-- Whatever the answers are, the program makes in each iteration one request for each of the
first `k` matrices. -/
def Handles (prog : Workers ρ Unit) (itTime k : ℕ) : Prop :=
  ∃ m, Consumes (fun _ => True) prog m ∧ ∀ it < itTime, blocksOf block m it = matrixBlocks k

/-- The starting blocks of each iteration are those of all matrices, each once. -/
def CoversMatrices (itTime : ℕ)
    (log : List (ℕ × Event (Submission ρ) (Completion CInt) Printf)) : Prop :=
  ∀ it < itTime, startBlocks block log it = matrixBlocks numMatrix

variable {block} {serve : Ssd 1024 CInt → Submission ρ → Completion CInt → Ssd 1024 CInt → Prop}
  {d : Ssd 1024 CInt} {prog : Workers ρ Unit} {itTime k : ℕ}
  {S : Machine (Ssd 1024 CInt) (Submission ρ) (Completion CInt) Printf Unit}

theorem Handles.startBlocks_eq (hp : Handles block prog itTime k)
    (h : Reachable serve (initial d prog) S) (hS : S.Finished) {it : ℕ} (hit : it < itTime) :
    startBlocks block S.log it = matrixBlocks k := by
  obtain ⟨m, hm, hblocks⟩ := hp
  rw [(blocks_reachable block hm h it).2 hS, hblocks it hit]

/-- In every state that is reached, no matrix was requested twice in an iteration and no
block outside of the matrices. -/
theorem Handles.startBlocks_add (hp : Handles block prog itTime k) (hk : k ≤ numMatrix)
    (h : Reachable serve (initial d prog) S) {it : ℕ} (hit : it < itTime) :
    ∃ rest, startBlocks block S.log it + rest = matrixBlocks numMatrix := by
  obtain ⟨m, hm, hblocks⟩ := hp
  obtain ⟨rest, hrest⟩ := (blocks_reachable block hm h it).1
  obtain ⟨rest', hrest'⟩ := matrixBlocks_add hk
  refine ⟨rest + rest', ?_⟩
  rw [← add_assoc, hrest, hblocks it hit, hrest']

theorem Handles.covers_iff (hp : Handles block prog itTime k) (hpos : 0 < itTime)
    (h : Reachable serve (initial d prog) S) (hS : S.Finished) :
    CoversMatrices block itTime S.log ↔ matrixBlocks k = matrixBlocks numMatrix := by
  constructor
  · intro hcover
    rw [← hp.startBlocks_eq h hS hpos, hcover 0 hpos]
  · intro hall it hit
    rw [hp.startBlocks_eq h hS hit, hall]

theorem ispNoaxisMt_handles {n : CInt} (hn : 1 ≤ n.toInt) :
    Handles cmdBlock (ispNoaxisMt (some n)) 16 (n.toNat * (1024 / n.toNat)) := by
  refine ⟨_, ispNoaxisMt_consumes hn, ?_⟩
  intro it hit
  rw [blocksOf_add, blocksOf_none, zero_add,
    blocksOf_matrixRequests (fun i hi => cmdBlock_sumCmd hi) (handled_le _) hit]

theorem hostNoaxisMt_handles {n : CInt} (hn : 1 ≤ n.toInt) (fresh : ℕ → CInt) :
    Handles ioBlock (hostNoaxisMt fresh (some n)) 32 (n.toNat * (1024 / n.toNat)) := by
  refine ⟨_, hostNoaxisMt_consumes hn fresh, ?_⟩
  intro it hit
  exact blocksOf_matrixRequests (fun i hi => ioBlock_readIo hi) (handled_le _) hit

theorem ispNoaxis_handles : Handles cmdBlock ispNoaxis 32 numMatrix := by
  refine ⟨_, ispNoaxis_consumes, ?_⟩
  intro it hit
  have hstats : blocksOf cmdBlock statsRequests it = 0 := by
    simp only [statsRequests, blocksOf_add, blocksOf_sum, blocksOf_none, add_zero,
      Finset.sum_const_zero]
  rw [blocksOf_add, hstats, zero_add,
    blocksOf_matrixRequests (fun i hi => cmdBlock_sumCmd hi) le_rfl hit]

theorem hostNoaxis_handles (fresh : ℕ → CInt) :
    Handles ioBlock (hostNoaxis fresh) 16 numMatrix := by
  refine ⟨_, hostNoaxis_consumes fresh, ?_⟩
  intro it hit
  exact blocksOf_matrixRequests (fun i hi => ioBlock_readIo hi) le_rfl hit

end Coverage

abbrev IspRun (kernel : Kernel 1024 CInt) (d : Ssd 1024 CInt) (prog : Workers PassthruCmd Unit) :
    Machine (Ssd 1024 CInt) (Submission PassthruCmd) (Completion CInt) Printf Unit → Prop :=
  Reachable (Ssd.Answers kernel fun c => .ioCmd c.2) (initial d prog)

abbrev HostRun (kernel : Kernel 1024 CInt) (d : Ssd 1024 CInt)
    (prog : Workers (UserIo CInt) Unit) :
    Machine (Ssd 1024 CInt) (Submission (UserIo CInt)) (Completion CInt) Printf Unit → Prop :=
  Reachable (Ssd.Answers kernel fun c => .submitIo c.2) (initial d prog)

/-- In no run of either program do the workers submit a starting block twice in one iteration
or a block that starts no matrix. In a finished run they submit all of them exactly when the
number of workers divides the number of matrices, and every run can be finished. One process
alone always submits all of them. -/
theorem workers_cover_iff (kernel : Kernel 1024 CInt) (n : CInt) (hn : 1 ≤ n.toInt)
    (d d' : Ssd 1024 CInt) (fresh : ℕ → CInt)
    (S : Machine (Ssd 1024 CInt) (Submission PassthruCmd) (Completion CInt) Printf Unit)
    (H : Machine (Ssd 1024 CInt) (Submission (UserIo CInt)) (Completion CInt) Printf Unit)
    (hS : IspRun kernel d (ispNoaxisMt (some n)) S)
    (hH : HostRun kernel d' (hostNoaxisMt fresh (some n)) H) :
    ((∀ it < 16, ∃ rest, startBlocks cmdBlock S.log it + rest = matrixBlocks numMatrix) ∧
      (S.Finished → (CoversMatrices cmdBlock 16 S.log ↔ n.toNat ∣ 1024)) ∧
      ∃ S', Reachable (Ssd.Answers kernel fun c => .ioCmd c.2) S S' ∧ S'.Finished) ∧
    ((∀ it < 32, ∃ rest, startBlocks ioBlock H.log it + rest = matrixBlocks numMatrix) ∧
      (H.Finished → (CoversMatrices ioBlock 32 H.log ↔ n.toNat ∣ 1024)) ∧
      ∃ H', Reachable (Ssd.Answers kernel fun c => .submitIo c.2) H H' ∧ H'.Finished) ∧
    (∀ d₀ S₀, IspRun kernel d₀ ispNoaxis S₀ → S₀.Finished → CoversMatrices cmdBlock 32 S₀.log) ∧
    (∀ d₀ fresh₀ H₀, HostRun kernel d₀ (hostNoaxis fresh₀) H₀ → H₀.Finished →
      CoversMatrices ioBlock 16 H₀.log) := by
  have hisp := ispNoaxisMt_handles hn
  have hhost := hostNoaxisMt_handles hn fresh
  refine ⟨⟨?_, ?_, ?_⟩, ⟨?_, ?_, ?_⟩, ?_, ?_⟩
  · exact fun it hit => hisp.startBlocks_add (handled_le _) hS hit
  · intro hfin
    rw [hisp.covers_iff (by decide) hS hfin, matrixBlocks_shares_iff]
  · exact hS.exists_finished (Ssd.Answers.total kernel _)
  · exact fun it hit => hhost.startBlocks_add (handled_le _) hH hit
  · intro hfin
    rw [hhost.covers_iff (by decide) hH hfin, matrixBlocks_shares_iff]
  · exact hH.exists_finished (Ssd.Answers.total kernel _)
  · intro d₀ S₀ hrun hfin
    rw [ispNoaxis_handles.covers_iff (by decide) hrun hfin]
  · intro d₀ fresh₀ H₀ hrun hfin
    rw [(hostNoaxis_handles fresh₀).covers_iff (by decide) hrun hfin]

theorem exists_runs (kernel : Kernel 1024 CInt) (d : Ssd 1024 CInt) (n : CInt) : ∃ S H,
    IspRun kernel d (ispNoaxisMt (some n)) S ∧ S.Finished ∧
      HostRun kernel d (hostNoaxisMt (fun _ => 0) (some n)) H ∧ H.Finished := by
  obtain ⟨S, hS, hSfin⟩ := Reachable.exists_finished (s := d) (p := ispNoaxisMt (some n)) .refl
    (Ssd.Answers.total kernel fun c => .ioCmd c.2)
  obtain ⟨H, hH, hHfin⟩ := Reachable.exists_finished (s := d)
    (p := hostNoaxisMt (fun _ => 0) (some n)) .refl
    (Ssd.Answers.total kernel fun c => .submitIo c.2)
  exact ⟨S, H, hS, hSfin, hH, hHfin⟩

theorem four_workers_cover : ∃ S H,
    IspRun Kernels.npsum ⟨0, 0⟩ (ispNoaxisMt (some 4)) S ∧ S.Finished ∧
      HostRun Kernels.npsum ⟨0, 0⟩ (hostNoaxisMt (fun _ => 0) (some 4)) H ∧ H.Finished ∧
      CoversMatrices cmdBlock 16 S.log ∧ CoversMatrices ioBlock 32 H.log := by
  obtain ⟨S, H, hS, hSfin, hH, hHfin⟩ := exists_runs Kernels.npsum ⟨0, 0⟩ 4
  obtain ⟨⟨-, hisp, -⟩, ⟨-, hhost, -⟩, -⟩ :=
    workers_cover_iff Kernels.npsum 4 (by decide) ⟨0, 0⟩ ⟨0, 0⟩ (fun _ => 0) S H hS hH
  exact ⟨S, H, hS, hSfin, hH, hHfin, (hisp hSfin).mpr (by decide), (hhost hHfin).mpr (by decide)⟩

/-- Three workers handle 341 matrices each; the last matrix, at block 66496, is left out. -/
theorem three_workers_miss : ∃ S H,
    IspRun Kernels.npsum ⟨0, 0⟩ (ispNoaxisMt (some 3)) S ∧ S.Finished ∧
      HostRun Kernels.npsum ⟨0, 0⟩ (hostNoaxisMt (fun _ => 0) (some 3)) H ∧ H.Finished ∧
      (∀ it < 16, startBlocks cmdBlock S.log it = matrixBlocks 1023) ∧
      (∀ it < 32, startBlocks ioBlock H.log it = matrixBlocks 1023) ∧
      ¬ CoversMatrices cmdBlock 16 S.log ∧ ¬ CoversMatrices ioBlock 32 H.log := by
  obtain ⟨S, H, hS, hSfin, hH, hHfin⟩ := exists_runs Kernels.npsum ⟨0, 0⟩ 3
  have hisp := ispNoaxisMt_handles (n := 3) (by decide)
  have hhost := hostNoaxisMt_handles (n := 3) (by decide) fun _ => 0
  have hmiss : matrixBlocks 1023 ≠ matrixBlocks numMatrix := by
    intro h
    exact absurd (matrixBlocks_inj h) (by decide)
  refine ⟨S, H, hS, hSfin, hH, hHfin, ?_, ?_, ?_, ?_⟩
  · exact fun it hit => hisp.startBlocks_eq hS hSfin hit
  · exact fun it hit => hhost.startBlocks_eq hH hHfin hit
  · rw [hisp.covers_iff (by decide) hS hSfin]
    exact hmiss
  · rw [hhost.covers_iff (by decide) hH hHfin]
    exact hmiss

end EbpfIsp.Npsum
