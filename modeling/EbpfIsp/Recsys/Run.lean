import EbpfIsp.Driver.Table
import EbpfIsp.Recsys.Slsload

/-! # Feeding the pooled rows to the network

`DLRM_Net.run` feeds one value, the `listResult` of `slsload`, into the blob of
every table. `slsload` keeps the rows of the last table only, so the blobs are
right when there is one table. The last section reads rows through the driver
model and shows that they are the rows of the tables on flash.
-/

namespace EbpfIsp.Recsys
open Library Device Kernels Driver HostProgram

inductive BlobValue (δ : Type) (m : ℕ) where
  | dense (x : δ)
  | ints (xs : List ℕ)
  | rows (r : Option (List (FloatRow m)))

abbrev Workspace (δ : Type) (m : ℕ) := String → Option (BlobValue δ m)

def feedBlobWrapper {δ : Type} {m : ℕ} (ws : Workspace δ m) (tag : String) (val : BlobValue δ m) :
    Workspace δ m := Function.update ws tag (some val)

/-- The attributes of `DLRM_Net` that `run` reads. -/
structure DlrmNet where
  queue : Bool
  slsType : SlsType
  embL : ℕ
  temb : String := "emb"
  tdin : String := "dense_in"

def DlrmNet.slsBlob (net : DlrmNet) (i : ℕ) (suffix : String) : String :=
  net.temb ++ ":::" ++ "sls" ++ toString i ++ suffix

/-- The first part of `DLRM_Net.run`: the inputs of the network. -/
def DlrmNet.feed {δ : Type} {m : ℕ} (net : DlrmNet) (X : δ) (sLengths : List (List ℕ))
    (sIndices : ℕ → List ℕ) (listResult : Option (ListResult m)) (ws : Workspace δ m) :
    Py (Workspace δ m) :=
  if net.queue then return ws
  else
    let ws := feedBlobWrapper ws net.tdin (.dense X)
    match net.slsType with
    | .dram => forLoop net.embL (fun i ws =>
        let ws := feedBlobWrapper ws (net.slsBlob i "_i") (.ints (sIndices i))
        match sLengths[i]? with
        | none => throw .indexError
        | some l => return feedBlobWrapper ws (net.slsBlob i "_l") (.ints l)) ws
    | .base | .ndp => forLoop sLengths.length (fun i ws =>
        return feedBlobWrapper ws (net.slsBlob i "_z") (.rows (listResult.map ListResult.rows))) ws

/-- `DLRM_Net.run`; `runNet` stands for `workspace.RunNet(self.model.net)`. -/
def DlrmNet.run {δ : Type} {m : ℕ} (net : DlrmNet) (runNet : Workspace δ m → Py (Workspace δ m))
    (X : δ) (sLengths : List (List ℕ)) (sIndices : ℕ → List ℕ) (listResult : Option (ListResult m))
    (ws : Workspace δ m) : Py (Workspace δ m) := do
  let ws ← net.feed X sLengths sIndices listResult ws
  runNet ws

structure Batch (δ : Type) where
  X : δ
  sLengths : List (List ℕ)
  sIndices : ℕ → List ℕ

section Batch
variable {δ : Type} {m : ℕ} {L : Cache ℕ (IntRow m)}

/-- One iteration of the batch loop, until the network runs; the queue id is 0. -/
def runBatch (net : DlrmNet) (lib : FlashRec) (tables b g : ℕ) (batch : Batch δ)
    (s : SlsState L) (ws : Workspace δ m) : Py (SlsState L × Workspace δ m) := do
  let ((listResult, _), s) ← slsload net.slsType lib 0 batch.sIndices tables b g s
  let ws ← net.feed batch.X batch.sLengths batch.sIndices listResult ws
  return (s, ws)

/-- The inputs are fed, and the blob of every table holds the pooled rows of that table. -/
def BlobsPooled (net : DlrmNet) (lib : FlashRec) (tables b g : ℕ) (batch : Batch δ)
    (s : SlsState L) (ws : Workspace δ m) : Prop :=
  ∃ s' ws', runBatch net lib tables b g batch s ws = .ok (s', ws') ∧
    ∀ i < tables, ws' (net.slsBlob i "_z") =
      some (.rows (some (pooledRows lib 0 m (batch.sIndices i) b g i)))

theorem feed_blobs {net : DlrmNet} (hq : net.queue = false) (hbase : net.slsType = .base) (X : δ)
    (sLengths : List (List ℕ)) (sIndices : ℕ → List ℕ) (listResult : Option (ListResult m))
    (ws : Workspace δ m) :
    ∃ ws', net.feed X sLengths sIndices listResult ws = .ok ws' ∧
      ∀ i < sLengths.length, ws' (net.slsBlob i "_z") =
        some (.rows (listResult.map ListResult.rows)) := by
  obtain ⟨ws', hrun, hblobs⟩ := forLoop_invariant
    (fun n (ws : Workspace δ m) => ∀ i < n, ws (net.slsBlob i "_z") =
      some (.rows (listResult.map ListResult.rows))) sLengths.length
    (fun i ws => (pure (feedBlobWrapper ws (net.slsBlob i "_z")
      (.rows (listResult.map ListResult.rows))) : Py (Workspace δ m)))
    (feedBlobWrapper ws net.tdin (.dense X)) (by simp) (by
      intro n hn ws hws
      refine ⟨_, rfl, ?_⟩
      intro i hi
      rw [feedBlobWrapper, Function.update_apply]
      split_ifs with heq
      · rfl
      · have hne : i ≠ n := by
          rintro rfl
          exact heq rfl
        exact hws i (by omega))
  refine ⟨ws', ?_, hblobs⟩
  rw [DlrmNet.feed, hq, hbase]
  exact hrun

section Load
variable {lib : FlashRec} {qid : CInt} {s : SlsState L}

theorem SlsState.Coherent.start (h : s.Coherent lib qid) : s.start.Coherent lib qid := h

/-- `slsload` in `base` mode returns the pooled rows of the last table. -/
theorem slsload_base (h : s.Coherent lib qid) (sIndices : ℕ → List ℕ) (last b g : ℕ)
    (hlen : ∀ i < last + 1, b * g ≤ (sIndices i).length) (hpos : 0 < b * g) :
    ∃ rate s', slsload .base lib qid sIndices (last + 1) b g s =
        .ok ((some (.ndarray (pooledRows lib qid m (sIndices last) b g last)), rate), s') ∧
      s'.Coherent lib qid := by
  obtain ⟨s', hrun, hco, hcount⟩ := slsloadBase_spec h.start sIndices (last + 1) b g hlen
  have hne : s'.localLookups ≠ 0 := by
    have hlookups : 0 < (last + 1) * (b * g) := Nat.mul_pos (Nat.succ_pos last) hpos
    omega
  refine ⟨s'.localhits / s'.localLookups * 100, s', ?_, hco⟩
  simp only [slsload, hrun, pure_bind, if_neg hne, List.range_succ, List.getLast?_append,
    List.getLast?_singleton, Option.some_or, Option.map_some]
  rfl

theorem slsload_base_no_lookup (h : s.Coherent lib qid) (sIndices : ℕ → List ℕ) (tables b g : ℕ)
    (hzero : b * g = 0) :
    slsload .base lib qid sIndices tables b g s = .error .zeroDivisionError := by
  obtain ⟨s', hrun, -, hcount⟩ := slsloadBase_spec h.start sIndices tables b g (by simp [hzero])
  have hz : s'.localLookups = 0 := by
    rw [hcount, hzero]
    rfl
  simp only [slsload, hrun, pure_bind, if_pos hz]
  rfl

end Load

section Pooled
variable {net : DlrmNet} {lib : FlashRec} {s : SlsState L} {batch : Batch δ} {last b g : ℕ}

/-- A batch with lookups runs, and every blob holds the pooled rows of the last table. -/
theorem runBatch_base (hq : net.queue = false) (hbase : net.slsType = .base)
    (h : s.Coherent lib 0) (hS : batch.sLengths.length = last + 1)
    (hlen : ∀ i < last + 1, b * g ≤ (batch.sIndices i).length) (hpos : 0 < b * g)
    (ws : Workspace δ m) : ∃ s' ws',
      runBatch net lib (last + 1) b g batch s ws = .ok (s', ws') ∧
      ∀ i < last + 1, ws' (net.slsBlob i "_z") =
        some (.rows (some (pooledRows lib 0 m (batch.sIndices last) b g last))) := by
  obtain ⟨rate, s', hload, -⟩ := slsload_base h batch.sIndices last b g hlen hpos
  obtain ⟨ws', hfeed, hblobs⟩ := feed_blobs hq hbase batch.X batch.sLengths batch.sIndices
    (some (.ndarray (pooledRows lib 0 m (batch.sIndices last) b g last))) ws
  rw [hS] at hblobs
  refine ⟨s', ws', ?_, hblobs⟩
  rw [runBatch, hbase, hload]
  change (net.feed batch.X batch.sLengths batch.sIndices _ ws >>= fun ws => pure (s', ws)) = _
  rw [hfeed]
  rfl

/-- The blobs are right when every table has the pooled rows of the last one. -/
theorem blobsPooled_iff (hq : net.queue = false) (hbase : net.slsType = .base)
    (h : s.Coherent lib 0) (hS : batch.sLengths.length = last + 1)
    (hlen : ∀ i < last + 1, b * g ≤ (batch.sIndices i).length) (ws : Workspace δ m) :
    BlobsPooled net lib (last + 1) b g batch s ws ↔ 0 < b * g ∧ ∀ i < last + 1,
      pooledRows lib 0 m (batch.sIndices last) b g last =
        pooledRows lib 0 m (batch.sIndices i) b g i := by
  rcases Nat.eq_zero_or_pos (b * g) with hzero | hpos
  · refine iff_of_false ?_ (fun hand => absurd hand.1 (by omega))
    rintro ⟨s', ws', hrun, -⟩
    rw [runBatch, hbase, slsload_base_no_lookup h _ _ _ _ hzero] at hrun
    cases hrun
  · obtain ⟨s', ws', hrun, hblobs⟩ := runBatch_base hq hbase h hS hlen hpos ws
    constructor
    · rintro ⟨s₁, ws₁, hrun₁, hpooled⟩
      obtain ⟨rfl, rfl⟩ : s' = s₁ ∧ ws' = ws₁ := by simpa using hrun.symm.trans hrun₁
      refine ⟨hpos, ?_⟩
      intro i hi
      have heq := (hblobs i hi).symm.trans (hpooled i hi)
      simpa using heq
    · rintro ⟨-, heq⟩
      refine ⟨s', ws', hrun, ?_⟩
      intro i hi
      rw [hblobs i hi, ← heq i hi]

theorem pooledRow_const {qid c : CInt} {i : ℕ} (hrow : ∀ e, lib.row qid m i e = fun _ => c)
    (indices : List ℕ) (g j : ℕ) (h : Fin m) :
    pooledRow lib qid m indices g i j h = g * (c.toInt / 1000000) := by
  simp [pooledRow, scaled, hrow, Finset.sum_apply]

theorem pooledRow_of_rows {qid : CInt} {indices indices' : List ℕ} {i i' : ℕ}
    (h : pooledRows lib qid m indices b g i = pooledRows lib qid m indices' b g i') {j : ℕ}
    (hj : j < b) : pooledRow lib qid m indices g i j = pooledRow lib qid m indices' g i' j :=
  List.map_inj_left.mp h j (List.mem_range.mpr hj)

def onesIn (last : ℕ) : FlashRec :=
  ⟨fun _ _ t _ _ => if t = cInt last then 1 else 0, fun _ _ => []⟩

theorem pooledRow_onesIn_ne {last : ℕ} (hlast : 0 < last) (hm : 0 < m) (hg : 0 < g)
    (indices indices' : List ℕ) (j : ℕ) : pooledRow (onesIn last) 0 m indices g last j ≠
      pooledRow (onesIn last) 0 m indices' g (last - 1) j := by
  have hid : cInt (last - 1) ≠ cInt last := by
    intro he
    have hmod := congrArg BitVec.toNat he
    simp only [cInt, BitVec.toNat_ofNat] at hmod
    omega
  have hones : ∀ e, (onesIn last).row 0 m last e = fun _ => 1 :=
    fun e => funext fun _ => if_pos rfl
  have hzeros : ∀ e, (onesIn last).row 0 m (last - 1) e = fun _ => 0 :=
    fun e => funext fun _ => if_neg hid
  intro heq
  have hsum := congrFun heq ⟨0, hm⟩
  have hgq : (g : ℚ) ≠ 0 := by positivity
  rw [pooledRow_const hones, pooledRow_const hzeros] at hsum
  norm_num [hgq] at hsum
  exact absurd hsum (by decide)

end Pooled

/-- With coherent caches, all flash contents give every blob its own table's rows exactly when
there is one table (and there is a lookup at all). -/
theorem blobs_pooled_iff (hm : 0 < m) (L : Cache ℕ (IntRow m)) {net : DlrmNet}
    (hq : net.queue = false) (hbase : net.slsType = .base) {tables b g : ℕ} (ht : 1 ≤ tables)
    {batch : Batch δ} (hS : batch.sLengths.length = tables)
    (hlen : ∀ i < tables, b * g ≤ (batch.sIndices i).length) :
    (∀ (lib : FlashRec) (s : SlsState L) (ws : Workspace δ m), s.Coherent lib 0 →
        BlobsPooled net lib tables b g batch s ws) ↔ tables = 1 ∧ 0 < b ∧ 0 < g := by
  obtain ⟨last, rfl⟩ : ∃ last, tables = last + 1 := ⟨tables - 1, by omega⟩
  constructor
  · intro hall
    let s : SlsState L := ⟨fun _ => L.new 2000, 0, 0, 0, 0, []⟩
    have hco : s.Coherent (onesIn last) 0 := fun i => L.agrees_new _ _
    obtain ⟨hpos, heq⟩ := (blobsPooled_iff hq hbase hco hS hlen (fun _ => none)).mp (hall _ _ _ hco)
    have hb : 0 < b := Nat.pos_of_mul_pos_right hpos
    have hg : 0 < g := Nat.pos_of_mul_pos_left hpos
    refine ⟨?_, hb, hg⟩
    by_contra hne
    exact pooledRow_onesIn_ne (by omega) hm hg _ _ 0
      (pooledRow_of_rows (heq (last - 1) (by omega)) hb)
  · rintro ⟨hone, hb, hg⟩ lib s ws hco
    obtain rfl : last = 0 := by omega
    rw [blobsPooled_iff hq hbase hco hS hlen]
    refine ⟨Nat.mul_pos hb hg, ?_⟩
    intro i hi
    obtain rfl : i = 0 := by omega
    rfl

end Batch

section Device
variable (kernel : Kernel 1024 CInt) (d : Ssd 1024 CInt)

def words (b : HostBuf) : List CInt := (List.range (b.bytes.toNat / 4)).map b.word

/-- The library on top of a device; a call that is killed leaves nothing to read. -/
def libFlashRec (fromPage : ℕ → CInt) (elapsed : CInt) (heap : SlsHeap) : FlashRec where
  unvmeReadEmbedding e vl t q :=
    ((unvmeReadEmbedding fromPage elapsed e vl t q).run (Ssd.exec kernel) d).elim (fun _ => 0)
      fun out => out.2.2.get
  unvmeSparseLengthSum a q :=
    ((unvmeSparseLengthSum heap a q).run (Ssd.exec kernel) d).elim [] fun out => words out.2.2

theorem cInt_toInt {k : ℕ} (hk : k < 2 ^ 31) : (cInt k).toInt = k := CInt.toInt_ofNat_of_lt hk

theorem cInt_toNat {k : ℕ} (hk : k < 2 ^ 31) : (cInt k).toNat = k :=
  CInt.toNat_ofNat_of_lt (by omega)

theorem embeddingBlock_cInt {m i e : ℕ} (hm : m ∣ 1024) (hsize : 4 * m * e < 2 ^ 31)
    (hblock : 1024 + i * 250000 + 4 * m * e / 4096 < 2 ^ 31) :
    ((embeddingBlock (cInt i) (cInt m) (cInt e)).signExtend 64).toNat =
      (1024 + (cInt i).toInt * 250000 + (4 * m * e / 4096 : ℕ)).toNat := by
  have hmle : m ≤ 1024 := Nat.le_of_dvd (by decide) hm
  have he : e ≤ 4 * m * e := Nat.le_mul_of_pos_left e (by have := pos_of_dvd_page hm; omega)
  have hm' : (cInt m).toInt = m := cInt_toInt (by omega)
  have he' : (cInt e).toInt = e := cInt_toInt (by omega)
  have hi' : (cInt i).toInt = i := cInt_toInt (by omega)
  have hbyte : 4 * (cInt m).toInt * (cInt e).toInt = (4 * m * e : ℕ) := by
    rw [hm', he']
    push_cast
    rfl
  rw [embeddingBlock_toNat (by omega) (by omega) (by omega) (by omega) (by omega),
    cInt_toNat (by omega), cInt_toNat (by omega), cInt_toNat (by omega), hi', toNat_tableBase]

/-- The rows that the library reads are the rows of the tables on flash. -/
theorem libFlashRec_row (fromPage : ℕ → CInt) (elapsed : CInt) (heap : SlsHeap) (q : CInt)
    {m i e : ℕ} (hm : m ∣ 1024) (hsize : 4 * m * e < 2 ^ 31)
    (hblock : 1024 + i * 250000 + 4 * m * e / 4096 < 2 ^ 31) (h : Fin m) :
    (libFlashRec kernel d fromPage elapsed heap).row q m i e h =
      tableWord d.flash (cInt i) (m * e + h.val) := by
  have hmpos := pos_of_dvd_page hm
  have hmle : m ≤ 1024 := Nat.le_of_dvd (by decide) hm
  have he : e ≤ 4 * m * e := Nat.le_mul_of_pos_left e (by omega)
  have hm' : (cInt m).toNat = m := cInt_toNat (by omega)
  have he' : (cInt e).toNat = e := cInt_toNat (by omega)
  have hvl : (cInt m).toNat ∣ 1024 := by rwa [hm']
  apply Option.some.inj
  rw [tableWord_row hm _ _ _ h.isLt, ← embeddingBlock_cInt hm hsize hblock]
  obtain ⟨offset, hoff, hword⟩ := exists_embeddingOffset_of_dvd hvl (e := cInt e)
    (by rw [cInt_toInt (by omega)]; omega)
  have hget := readPtr_get hvl hword fromPage elapsed
    (d.flash ((embeddingBlock (cInt i) (cInt m) (cInt e)).signExtend 64).toNat)
    (i := h.val) (by rw [hm']; exact h.isLt)
  rw [targetVector, hm', he'] at hget
  simp only [FlashRec.row, libFlashRec, unvmeReadEmbedding_run kernel hoff, Option.elim_some]
  exact hget

end Device

section Instances

def baseNet (tables : ℕ) : DlrmNet := { queue := false, slsType := .base, embL := tables }

def emptyCaches : SlsState (Lru.recent : Lru ℕ (IntRow 32)).toCache :=
  ⟨fun _ => Lru.recent.new 2000, 0, 0, 0, 0, []⟩

def twoTables : FlashRec :=
  libFlashRec embedding32 ⟨fun b _ => if b < 251024 then 0 else 1, fun _ => 0⟩ (fun _ => 0) 0
    ⟨fun _ => 0, fun _ => 0⟩

theorem emptyCaches_coherent (lib : FlashRec) : emptyCaches.Coherent lib 0 :=
  fun _ => Cache.agrees_new _ _ _

theorem blobs_pooled_single_table : emptyCaches.Coherent twoTables 0 ∧
    BlobsPooled (baseNet 1) twoTables 1 1 2 ⟨(), [[2]], fun _ => [0, 5]⟩ emptyCaches
      (fun _ => none) :=
  ⟨emptyCaches_coherent _, (blobs_pooled_iff (by decide) _ rfl rfl le_rfl rfl (by simp)).mpr
    ⟨rfl, by decide, by decide⟩ _ _ _ (emptyCaches_coherent _)⟩

/-- Two tables, one lookup each: the blob of table 0 receives the ones of table 1. -/
theorem blob_of_first_table_wrong : emptyCaches.Coherent twoTables 0 ∧
    ¬ BlobsPooled (baseNet 2) twoTables 2 1 1 ⟨(), [[1], [1]], fun _ => [0]⟩ emptyCaches
      (fun _ => none) := by
  refine ⟨emptyCaches_coherent _, ?_⟩
  rw [blobsPooled_iff rfl rfl (emptyCaches_coherent _) rfl (by simp)]
  rintro ⟨-, heq⟩
  have hrow := congrFun (pooledRow_of_rows (heq 0 (by decide)) (by decide : 0 < 1)) 0
  have h₀ : twoTables.row 0 32 0 0 0 = 0 :=
    (libFlashRec_row _ _ _ _ _ _ (by decide) (by decide) (by decide) 0).trans (by decide)
  have h₁ : twoTables.row 0 32 1 0 0 = 1 :=
    (libFlashRec_row _ _ _ _ _ _ (by decide) (by decide) (by decide) 0).trans (by decide)
  have hword : (twoTables.row 0 32 1 0 0).toInt = (twoTables.row 0 32 0 0 0).toInt := by
    simpa [pooledRow, scaled] using hrow
  rw [h₀, h₁] at hword
  exact absurd hword (by decide)

end Instances

end EbpfIsp.Recsys
