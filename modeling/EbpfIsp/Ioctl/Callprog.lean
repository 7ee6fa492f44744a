import EbpfIsp.Device.Nvme
import EbpfIsp.Library.Packing

/-! # Calling a device program with four parameters

`embedding.c`, `embedding_backup.c` and `submit_op.c` call the loaded program
with parameters from the command line. The first two have fields of their own
in the command. The other two share a 64-bit field: `addr` in `embedding.c`,
`metadata` in the other two programs. The packers are written differently, and
each has pairs of parameters that it does not tell apart.
-/

namespace EbpfIsp.Ioctl
open Library Device HostProgram

structure NvmePassthruCmd where
  opcode : BitVec 8
  flags : BitVec 8 := 0
  rsvd1 : BitVec 16 := 0
  nsid : CInt
  cdw2 : CInt
  cdw3 : CInt
  metadata : BitVec 64 := 0
  addr : BitVec 64 := 0
  metadataLen : CInt := 0
  dataLen : CInt := 0
  cdw10 : CInt
  cdw11 : CInt := 0
  cdw12 : CInt
  cdw13 : CInt := 0
  cdw14 : CInt := 0
  cdw15 : CInt := 0
  timeoutMs : CInt := 0
  result : CInt
  deriving DecidableEq

/-- The three statements on `param23` in `embedding.c`. -/
def param23 (param : Region 5 CInt) : BitVec 64 :=
  let param23 := (param 2).signExtend 64
  -- `param23<<32;` is an expression statement, its value is dropped
  let _ := param23 <<< 32
  param23 ||| (param 3).signExtend 64

/-- `(__u64)param[2] <<32 | param[3]`; the `int` on the right is converted to `__u64`. -/
def metadataWord (param : Region 5 CInt) : BitVec 64 :=
  (param 2).signExtend 64 <<< 32 ||| (param 3).signExtend 64

/-- The command of `callprog` in `embedding.c`; its argument `slba` is not used. -/
def embeddingCmd (nlb : CInt) (param : Region 5 CInt) : NvmePassthruCmd :=
  { opcode := 0x82, nsid := 1, cdw2 := param 0, cdw3 := param 1, addr := param23 param,
    cdw10 := 1024, cdw12 := nlb - 1, result := -1 }

def embeddingBackupCmd (data : BitVec 64) (nlb : CInt) (param : Region 5 CInt) : NvmePassthruCmd :=
  { opcode := 0x82, nsid := 1, cdw2 := param 0, cdw3 := param 1, metadata := metadataWord param,
    addr := data, dataLen := 4096 * nlb, cdw10 := 1024, cdw12 := nlb - 1, result := 123 }

def submitOpCmd (nlb : CInt) (param : Region 5 CInt) : NvmePassthruCmd :=
  { opcode := 0x82, nsid := 1, cdw2 := param 0, cdw3 := param 1, metadata := metadataWord param,
    cdw10 := 1024, cdw12 := nlb - 1, result := 123 }

/-! ### The programs -/

structure IoctlResult where
  ret : CInt
  result : CInt

abbrev IoctlHost (β : Type) := HostProgram NvmePassthruCmd IoctlResult Printf β

/-- `callprog` once its command is built. -/
def callprog (cmd : NvmePassthruCmd) : IoctlHost CInt := do
  let r ← issue cmd
  say ⟨"eBPF result: %d\n", [r.result]⟩
  return r.ret

/-- `param[i-1] = atoi(argv[i])` for all arguments. The array has five elements, and a
store behind it has no result. -/
def readParams (args : List CInt) : Option (Region 5 CInt) :=
  forLoop args.length (fun i param => param.store i (args.getD i 0)) 0

/-- `main` of `embedding.c` and `embedding_backup.c`, on the numbers of the command line. -/
def mainWith (cmd : Region 5 CInt → NvmePassthruCmd) (message : CInt → Printf) (args : List CInt) :
    Option (IoctlHost Unit) :=
  if args.length < 2 then
    some (say ⟨"usage: ./embedding [param0] [param1] ...\n", []⟩)
  else
    (readParams args).map fun param => do
      let err ← callprog (cmd param)
      say (message err)

def embeddingMain (args : List CInt) : Option (IoctlHost Unit) :=
  mainWith (embeddingCmd 1) (fun err => ⟨"error code: 0x%x\n", [err]⟩) args

def embeddingBackupMain (data : BitVec 64) (args : List CInt) : Option (IoctlHost Unit) :=
  mainWith (embeddingBackupCmd data 1) (fun err => ⟨"error code: %d - %x\n", [err, err]⟩) args

/-- `main` of `submit_op.c`, with its constant parameters. -/
def submitOpMain : IoctlHost Unit := do
  let err ← callprog (submitOpCmd 1 ![0, 1, 0, 0, 0])
  say ⟨"error code: %d\n", [err]⟩

def paramsOf (args : List CInt) : Region 5 CInt := fun i => args.getD i 0

theorem readParams_eq {args : List CInt} (h : args.length ≤ 5) :
    readParams args = some (paramsOf args) := by
  have hloop := forLoop_eq (fun n (i : Fin 5) => if i.val < n then args.getD i 0 else 0) args.length
    (fun i (param : Region 5 CInt) => param.store i (args.getD i 0)) (by
      intro i hi
      rw [Region.store_of_lt _ (by omega)]
      apply congrArg some
      funext j
      by_cases hj : j.val = i
      · simp [Function.update, Fin.ext_iff, hj]
      · have hlt : j.val < i + 1 ↔ j.val < i := by omega
        simp only [Function.update, Fin.ext_iff, hj, dite_false, hlt])
  have hzero : (fun i : Fin 5 => if i.val < 0 then args.getD i 0 else 0) = (0 : Region 5 CInt) := by
    funext i
    exact if_neg (Nat.not_lt_zero _)
  rw [hzero] at hloop
  rw [readParams, hloop]
  apply congrArg some
  funext i
  rw [paramsOf]
  split_ifs with hi
  · rfl
  · rw [List.getD_eq_getElem?_getD, List.getElem?_eq_none (Nat.not_lt.mp hi), Option.getD_none]

theorem callprog_emits (cmd : NvmePassthruCmd) : Emits (callprog cmd) [cmd] :=
  .call fun _ => .print (.done _)

theorem mainWith_emits (cmd : Region 5 CInt → NvmePassthruCmd) (message : CInt → Printf)
    {args : List CInt} (hmin : 2 ≤ args.length) (hmax : args.length ≤ 5) :
    ∃ p, mainWith cmd message args = some p ∧ Emits p [cmd (paramsOf args)] := by
  rw [mainWith, if_neg (Nat.not_lt.mpr hmin), readParams_eq hmax]
  exact ⟨_, rfl, (callprog_emits _).bind fun err => .say (message err)⟩

/-- Command lines for which the same command is built cannot be told apart by the device. -/
theorem mainWith_emits_same (cmd : Region 5 CInt → NvmePassthruCmd) (message : CInt → Printf)
    {args args' : List CInt} (hlen : args.length = 4) (hlen' : args'.length = 4)
    (h : cmd (paramsOf args) = cmd (paramsOf args')) :
    ∃ p p', mainWith cmd message args = some p ∧ mainWith cmd message args' = some p' ∧
      ∃ sent, Emits p [sent] ∧ Emits p' [sent] := by
  obtain ⟨p, hp, hemits⟩ := mainWith_emits cmd message
    (show 2 ≤ args.length by omega) (by omega)
  obtain ⟨p', hp', hemits'⟩ := mainWith_emits cmd message
    (show 2 ≤ args'.length by omega) (by omega)
  exact ⟨p, p', hp, hp', _, hemits, h ▸ hemits'⟩

/-! ### What the packed words tell apart -/

section Packing
variable (param param' : Region 5 CInt)

theorem param23_eq_iff :
    param23 param = param23 param' ↔ param 2 ||| param 3 = param' 2 ||| param' 3 :=
  or_signExtend_inj (by decide)

theorem metadataWord_eq_iff : metadataWord param = metadataWord param' ↔
    param 3 = param' 3 ∧ (0 ≤ (param 3).toInt → param 2 = param' 2) := by
  have hsign : (param 3).msb = false ↔ 0 ≤ (param 3).toInt := by
    rw [BitVec.msb_eq_toInt, decide_eq_false_iff_not, Int.not_lt]
  rw [← hsign]
  exact shiftLeft_or_inj (by decide)

theorem submitOpCmd_eq_iff (nlb : CInt) : submitOpCmd nlb param = submitOpCmd nlb param' ↔
    param 0 = param' 0 ∧ param 1 = param' 1 ∧ metadataWord param = metadataWord param' := by
  simp [submitOpCmd]

/-- All three packers tell two different pairs apart exactly if the `or` of the pairs
differs and the pairs do not share a negative last parameter. -/
theorem packed_ne_iff (nlb nlb' : CInt) (data data' : BitVec 64)
    (h : (param 2, param 3) ≠ (param' 2, param' 3)) :
    ((embeddingCmd nlb param).addr ≠ (embeddingCmd nlb' param').addr ∧
      (embeddingBackupCmd data nlb param).metadata ≠
        (embeddingBackupCmd data' nlb' param').metadata ∧
      (submitOpCmd nlb param).metadata ≠ (submitOpCmd nlb' param').metadata) ↔
    (param 2 ||| param 3 ≠ param' 2 ||| param' 3 ∧
      (param 3 = param' 3 → 0 ≤ (param 3).toInt)) := by
  have hmeta : metadataWord param ≠ metadataWord param' ↔
      (param 3 = param' 3 → 0 ≤ (param 3).toInt) := by
    rw [Ne, metadataWord_eq_iff, not_and]
    apply imp_congr_right
    intro h₃
    have h₂ : param 2 ≠ param' 2 := fun h₂ => h (by rw [h₂, h₃])
    rw [Classical.not_imp, and_iff_left h₂]
  have hor : param23 param ≠ param23 param' ↔ param 2 ||| param 3 ≠ param' 2 ||| param' 3 :=
    (param23_eq_iff param param').not
  rw [← hmeta, ← hor]
  exact ⟨fun hall => ⟨hall.1, hall.2.1⟩, fun hall => ⟨hall.1, hall.2, hall.2⟩⟩

end Packing

theorem packed_ne_iff_small :
    (embeddingCmd 1 ![0, 1, 2, 0, 0]).addr ≠ (embeddingCmd 1 ![0, 1, 0, 1, 0]).addr ∧
      (embeddingBackupCmd 0 1 ![0, 1, 2, 0, 0]).metadata ≠
        (embeddingBackupCmd 0 1 ![0, 1, 0, 1, 0]).metadata ∧
      (submitOpCmd 1 ![0, 1, 2, 0, 0]).metadata ≠ (submitOpCmd 1 ![0, 1, 0, 1, 0]).metadata :=
  (packed_ne_iff ![0, 1, 2, 0, 0] ![0, 1, 0, 1, 0] 1 1 0 0 (by decide)).mpr
    ⟨by decide, by decide⟩

/-- The parameters that `submit_op.c` passes can be read back from the command it sends. -/
theorem submitOpMain_emits : ∃ sent, Emits submitOpMain [sent] ∧
    ∀ param, submitOpCmd 1 param = sent ↔
      param 0 = 0 ∧ param 1 = 1 ∧ param 2 = 0 ∧ param 3 = 0 := by
  refine ⟨_, (callprog_emits _).bind fun err => .say (⟨"error code: %d\n", [err]⟩ : Printf), ?_⟩
  intro param
  rw [submitOpCmd_eq_iff, metadataWord_eq_iff]
  refine and_congr_right fun _ => and_congr_right fun _ => ?_
  constructor
  · rintro ⟨h₃, h₂⟩
    exact ⟨h₂ (by rw [h₃]; decide), h₃⟩
  · rintro ⟨h₂, h₃⟩
    exact ⟨h₃, fun _ => h₂⟩

/-- `embedding 0 1 1 0` and `embedding 0 1 0 1` send the same command, and so do
`embedding_backup 0 1 0 -1` and `embedding_backup 0 1 1 -1`. -/
theorem packing_collision :
    (∃ p p', embeddingMain [0, 1, 1, 0] = some p ∧ embeddingMain [0, 1, 0, 1] = some p' ∧
      ∃ sent, Emits p [sent] ∧ Emits p' [sent]) ∧
    (∀ data, ∃ p p', embeddingBackupMain data [0, 1, 0, -1] = some p ∧
      embeddingBackupMain data [0, 1, 1, -1] = some p' ∧
      ∃ sent, Emits p [sent] ∧ Emits p' [sent]) ∧
    (submitOpCmd 1 ![0, 1, 0, -1, 0]).metadata = (submitOpCmd 1 ![0, 1, 1, -1, 0]).metadata := by
  have hor : param23 (paramsOf [0, 1, 1, 0]) = param23 (paramsOf [0, 1, 0, 1]) := by decide
  have hshift : metadataWord (paramsOf [0, 1, 0, -1]) = metadataWord (paramsOf [0, 1, 1, -1]) := by
    decide
  refine ⟨mainWith_emits_same _ _ rfl rfl ?_, fun data => mainWith_emits_same _ _ rfl rfl ?_,
    by decide⟩
  · rw [embeddingCmd, embeddingCmd, hor]
    rfl
  · rw [embeddingBackupCmd, embeddingBackupCmd, hshift]
    rfl

end EbpfIsp.Ioctl
