import EbpfIsp.Device.CInt
import EbpfIsp.Library.Loop
import EbpfIsp.Library.HostProgram
import EbpfIsp.Library.Fork

/-! # The in-storage processing device seen from its commands

Flash is an array of logical blocks and every map page has the size of one
block. A block holds `bs` cells: 1024 words for the numeric programs, 4096
bytes for the pattern matchers. The firmware is not part of the repository;
`exec` records what the host code relies on. A command is atomic, a failed
command has no effect, and the loaded kernel sees the requested blocks and one
map page. A kernel that leaves its memory has no result.
-/

namespace EbpfIsp.Device

open Library

/-- Vendor opcodes of `struct nvme_passthru_cmd`: `0x82` runs the loaded program, `0x84`
copies a map page to the host, `0x85` zeroes it, `0x86` and `0x87` are statistics. -/
inductive IspOpcode where
  | ispRead
  | ispPageRead
  | ispClear
  | stats
  | statsClear
  deriving DecidableEq

/-- The fields of `struct nvme_passthru_cmd` that the device interprets: two parameters,
the first block, the zero-based number of blocks and the map page number. -/
structure PassthruCmd where
  opcode : IspOpcode
  cdw2 : CInt := 0
  cdw3 : CInt := 0
  cdw10 : CInt := 0
  cdw12 : CInt := 0
  cdw15 : CInt := 0
  deriving DecidableEq

/-- `0x01` and `0x02` of `struct nvme_user_io`. -/
inductive IoOpcode where
  | write
  | read
  deriving DecidableEq

/-- The fields of `struct nvme_user_io`; `addr` is the host memory it points to. -/
structure UserIo (α : Type) where
  opcode : IoOpcode
  nblocks : ℕ
  addr : ℕ → α
  slba : BitVec 64

/-- The system calls on the device file: `ioctl` with `NVME_IOCTL_IO_CMD`, `ioctl` with
`NVME_IOCTL_SUBMIT_IO`, and `pread`. -/
inductive Request (α : Type) where
  | ioCmd (cmd : PassthruCmd)
  | submitIo (io : UserIo α)
  | pread (count offset : ℕ)

/-- What a system call leaves behind: its return value, `cmd.result`, and the cells
copied to the host buffer. -/
structure Completion (α : Type) where
  ret : CInt
  result : CInt
  transfer : ℕ → Option α

def Completion.into {α : Type} (r : Completion α) (buf : ℕ → α) : ℕ → α :=
  fun i => (r.transfer i).getD (buf i)

/-- A call that failed with a nonzero return value; `cmd.result` keeps its `-1`. -/
def Completion.failed {α : Type} (err : CInt) : Completion α := ⟨err, -1, fun _ => none⟩

structure Printf where
  fmt : String
  args : List CInt
  deriving DecidableEq

abbrev Host (α β : Type) := HostProgram (Request α) (Completion α) Printf β

def printf {α : Type} (fmt : String) (args : List CInt) : Host α Unit :=
  HostProgram.say ⟨fmt, args⟩

def printfIf {α : Type} (c : Prop) [Decidable c] (fmt : String) (args : List CInt) : Host α Unit :=
  if c then printf fmt args else pure ()

theorem printfIf_emits {α : Type} (c : Prop) [Decidable c] (fmt : String) (args : List CInt) :
    HostProgram.Emits (printfIf c fmt args : Host α Unit) [] := by
  unfold printfIf
  split
  · exact .say _
  · exact .done _

theorem printfIf_lines {α σ : Type} (exec : σ → Request α → Option (σ × Completion α)) (c : Prop)
    [Decidable c] (fmt : String) (args : List CInt) (s : σ) :
    (printfIf c fmt args : Host α Unit).run exec s =
      some (s, if c then [⟨fmt, args⟩] else [], ()) := by
  unfold printfIf
  split <;> rfl

theorem printfIf_run {α σ : Type} (exec : σ → Request α → Option (σ × Completion α)) {c : Prop}
    [Decidable c] (h : ¬ c) (fmt : String) (args : List CInt) (s : σ) :
    (printfIf c fmt args : Host α Unit).run exec s = some (s, [], ()) := by
  rw [printfIf_lines, if_neg h]

/-- A diagnostic makes no request. -/
theorem path_printfIf_iff {α β : Type} {c : Prop} [Decidable c] {fmt : String} {args : List CInt}
    {b out : β} {log : List (Request α × Completion α)} :
    HostProgram.Path ((printfIf c fmt args : Host α Unit).bind fun _ => .done b) log out ↔
      log = [] ∧ out = b := by
  by_cases hc : c
  · rw [printfIf, if_pos hc]
    constructor
    · intro h
      cases h with
      | print h => cases h; exact ⟨rfl, rfl⟩
    · rintro ⟨rfl, rfl⟩
      exact .print (.done _)
  · rw [printfIf, if_neg hc]
    constructor
    · intro h
      cases h
      exact ⟨rfl, rfl⟩
    · rintro ⟨rfl, rfl⟩
      exact .done _

/-- A program that makes one request, reports its failure and returns follows a path for
each answer. -/
theorem path_request_iff {α β : Type} {c : Request α} {fmt : String} {f : Completion α → β}
    {log : List (Request α × Completion α)} {out : β} :
    HostProgram.Path (do
      let r ← HostProgram.issue c
      printfIf (r.ret ≠ 0) fmt [r.ret]
      return f r : Host α β) log out ↔ ∃ r, log = [(c, r)] ∧ out = f r := by
  constructor
  · intro h
    cases h with
    | @call _ _ r rest _ h =>
      obtain ⟨rfl, rfl⟩ := path_printfIf_iff.mp h
      exact ⟨r, rfl, rfl⟩
  · rintro ⟨r, rfl, rfl⟩
    exact .call (path_printfIf_iff.mpr ⟨rfl, rfl⟩)

/-- A program whose processes fork. What it submits is described by `κ`: a request with
the loop counters of the process that makes it, which the device does not see. -/
abbrev Forking (κ α β : Type) := ForkProgram κ (Completion α) Printf β

abbrev Flash (bs : ℕ) (α : Type) := ℕ → Region bs α

theorem word_lt (w : ℕ) : w % 1024 < 1024 := Nat.mod_lt w (by decide)

/-- A loaded eBPF program: two parameters, the requested data and one map page give the
returned value and the new map page. -/
abbrev Kernel (bs : ℕ) (α : Type) :=
  CInt → CInt → (n : ℕ) → Region n α → Region bs α → Option (CInt × Region bs α)

/-- Flash content and the map pages by number. -/
structure Ssd (bs : ℕ) (α : Type) where
  flash : Flash bs α
  mapPage : ℕ → Region bs α

namespace Flash

variable {bs : ℕ} {α : Type}

def window (f : Flash bs α) (slba n : ℕ) : Region (n * bs) α :=
  fun i => f (slba + i.divNat.val) i.modNat

def cell (f : Flash bs α) (c : ℕ) : Option α := (f (c / bs)).load (c % bs)

/-- Overwrite `n` blocks from `slba` on with consecutive cells of host memory. -/
def overwrite (f : Flash bs α) (slba n : ℕ) (buf : ℕ → α) : Flash bs α :=
  fun b => if slba ≤ b ∧ b < slba + n then fun k => buf ((b - slba) * bs + k.val) else f b

theorem window_load (f : Flash bs α) (slba n : ℕ) {i : ℕ} (h : i < n * bs) :
    (f.window slba n).load i = (f (slba + i / bs)).load (i % bs) := by
  have hbs : 0 < bs := Nat.pos_of_ne_zero (by rintro rfl; simp at h)
  rw [Region.load_of_lt _ h, Region.load_of_lt _ (Nat.mod_lt i hbs)]
  rfl

theorem window_congr {f f' : Flash bs α} {slba n : ℕ}
    (h : ∀ i < n, f (slba + i) = f' (slba + i)) : f.window slba n = f'.window slba n := by
  funext i
  exact congrFun (h i.divNat.val i.divNat.isLt) i.modNat

theorem window_one_load (f : Flash bs α) (b : ℕ) : (f.window b (0 + 1)).load = (f b).load := by
  funext i
  by_cases hi : i < bs
  · rw [window_load _ _ _ (by omega), Nat.div_eq_of_lt hi, Nat.mod_eq_of_lt hi, Nat.add_zero]
  · rw [Region.load_eq_none _ (by omega), Region.load_eq_none _ (by omega)]

theorem overwrite_of_mem (f : Flash bs α) {slba n b : ℕ} (buf : ℕ → α)
    (h : slba ≤ b ∧ b < slba + n) (k : Fin bs) :
    f.overwrite slba n buf b k = buf ((b - slba) * bs + k.val) := by
  simp only [overwrite, if_pos h]

theorem overwrite_of_not_mem (f : Flash bs α) {slba n b : ℕ} (buf : ℕ → α)
    (h : ¬ (slba ≤ b ∧ b < slba + n)) : f.overwrite slba n buf b = f b := by
  simp only [overwrite, if_neg h]

/-- Overwriting one more block extends an overwritten range. -/
theorem overwrite_succ (f : Flash bs α) (slba n : ℕ) (buf : ℕ → α) :
    (f.overwrite slba n buf).overwrite (slba + n) 1 (fun k => buf (n * bs + k)) =
      f.overwrite slba (n + 1) buf := by
  funext b k
  rcases Nat.lt_trichotomy b (slba + n) with h | rfl | h
  · rw [overwrite_of_not_mem _ _ (by omega)]
    by_cases hb : slba ≤ b
    · rw [overwrite_of_mem _ _ ⟨hb, h⟩, overwrite_of_mem _ _ ⟨hb, by omega⟩]
    · rw [overwrite_of_not_mem _ _ (by omega), overwrite_of_not_mem _ _ (by omega)]
  · rw [overwrite_of_mem _ _ ⟨le_rfl, by omega⟩, overwrite_of_mem _ _ ⟨by omega, by omega⟩]
    simp
  · rw [overwrite_of_not_mem _ _ (by omega), overwrite_of_not_mem _ _ (by omega),
      overwrite_of_not_mem _ _ (by omega)]

theorem overwrite_congr (f : Flash bs α) (slba n : ℕ) {buf buf' : ℕ → α}
    (h : ∀ k < n * bs, buf k = buf' k) : f.overwrite slba n buf = f.overwrite slba n buf' := by
  funext b k
  by_cases hb : slba ≤ b ∧ b < slba + n
  · rw [overwrite_of_mem _ _ hb, overwrite_of_mem _ _ hb]
    exact h _ (rowMajor_lt (by omega) k.isLt)
  · rw [overwrite_of_not_mem _ _ hb, overwrite_of_not_mem _ _ hb]

end Flash

namespace Ssd

variable {bs : ℕ} {α : Type}

def setPage (d : Ssd bs α) (q : ℕ) (page : Region bs α) : Ssd bs α :=
  { d with mapPage := Function.update d.mapPage q page }

@[simp] theorem setPage_self (d : Ssd bs α) (q : ℕ) (page : Region bs α) :
    (d.setPage q page).mapPage q = page := Function.update_self ..

theorem setPage_of_ne (d : Ssd bs α) {q q' : ℕ} (h : q' ≠ q) (page : Region bs α) :
    (d.setPage q page).mapPage q' = d.mapPage q' := Function.update_of_ne h ..

theorem setPage_same (d : Ssd bs α) (q : ℕ) : d.setPage q (d.mapPage q) = d := by
  rw [setPage, Function.update_eq_self]

theorem setPage_setPage (d : Ssd bs α) (q : ℕ) (page page' : Region bs α) :
    (d.setPage q page).setPage q page' = d.setPage q page' := by
  simp only [setPage, Function.update_idem]

/-- Overwrite `n` blocks from `slba` on. -/
def overwrite (d : Ssd bs α) (slba n : ℕ) (buf : ℕ → α) : Ssd bs α :=
  { d with flash := d.flash.overwrite slba n buf }

@[simp] theorem overwrite_flash (d : Ssd bs α) (slba n : ℕ) (buf : ℕ → α) :
    (d.overwrite slba n buf).flash = d.flash.overwrite slba n buf := rfl

@[simp] theorem overwrite_mapPage (d : Ssd bs α) (slba n : ℕ) (buf : ℕ → α) :
    (d.overwrite slba n buf).mapPage = d.mapPage := rfl

theorem overwrite_zero (d : Ssd bs α) (slba : ℕ) (buf : ℕ → α) : d.overwrite slba 0 buf = d := by
  have h : d.flash.overwrite slba 0 buf = d.flash :=
    funext fun b => Flash.overwrite_of_not_mem _ _ (by omega)
  rw [overwrite, h]

theorem overwrite_succ (d : Ssd bs α) (slba n : ℕ) (buf : ℕ → α) :
    (d.overwrite slba n buf).overwrite (slba + n) 1 (fun k => buf (n * bs + k)) =
      d.overwrite slba (n + 1) buf := by
  simp only [overwrite, Flash.overwrite_succ]

/-- Effect of a vendor command that succeeds. -/
def execIsp [Zero α] (kernel : Kernel bs α) (d : Ssd bs α) (cmd : PassthruCmd) :
    Option (Ssd bs α × Completion α) :=
  match cmd.opcode with
  | .ispRead =>
    (kernel cmd.cdw2 cmd.cdw3 _ (d.flash.window cmd.cdw10.toNat (cmd.cdw12.toNat + 1))
      (d.mapPage cmd.cdw15.toNat)).map fun out =>
        (d.setPage cmd.cdw15.toNat out.2, ⟨0, out.1, fun _ => none⟩)
  | .ispPageRead => some (d, ⟨0, 0, (d.mapPage cmd.cdw15.toNat).load⟩)
  | .ispClear => some (d.setPage cmd.cdw15.toNat 0, ⟨0, 0, fun _ => none⟩)
  | .stats | .statsClear => some (d, ⟨0, 0, fun _ => none⟩)

def execIo (d : Ssd bs α) (io : UserIo α) : Ssd bs α × Completion α :=
  match io.opcode with
  | .write => (d.overwrite io.slba.toNat (io.nblocks + 1) io.addr, ⟨0, 0, fun _ => none⟩)
  | .read => (d, ⟨0, 0, (d.flash.window io.slba.toNat (io.nblocks + 1)).load⟩)

/-- Effect of a system call that succeeds. `pread` returns the number of cells it read. -/
def exec [Zero α] (kernel : Kernel bs α) (d : Ssd bs α) :
    Request α → Option (Ssd bs α × Completion α)
  | .ioCmd cmd => d.execIsp kernel cmd
  | .submitIo io => some (d.execIo io)
  | .pread count offset => some (d, ⟨BitVec.ofNat 32 count, 0,
      fun i => if i < count then d.flash.cell (offset + i) else none⟩)

theorem exec_ispRun [Zero α] (kernel : Kernel bs α) (d : Ssd bs α) {cmd : PassthruCmd}
    (hop : cmd.opcode = .ispRead) {slba n q : ℕ} (hslba : cmd.cdw10.toNat = slba)
    (hn : cmd.cdw12.toNat = n) (hq : cmd.cdw15.toNat = q) :
    d.exec kernel (.ioCmd cmd) =
      (kernel cmd.cdw2 cmd.cdw3 _ (d.flash.window slba (n + 1)) (d.mapPage q)).map fun out =>
        (d.setPage q out.2, ⟨0, out.1, fun _ => none⟩) := by
  subst hslba hn hq
  simp only [exec, execIsp, hop]

theorem exec_write [Zero α] (kernel : Kernel bs α) (d : Ssd bs α) (n : ℕ) (buf : ℕ → α)
    (b : BitVec 64) : d.exec kernel (.submitIo ⟨.write, n, buf, b⟩) =
      some (d.overwrite b.toNat (n + 1) buf, ⟨0, 0, fun _ => none⟩) := rfl

theorem exec_read [Zero α] (kernel : Kernel bs α) (d : Ssd bs α) (n : ℕ) (buf : ℕ → α)
    (b : BitVec 64) : d.exec kernel (.submitIo ⟨.read, n, buf, b⟩) =
      some (d, ⟨0, 0, (d.flash.window b.toNat (n + 1)).load⟩) := rfl

/-- The device may answer request `c` by `r` and move to `d'`. Requests in `mayFail` also
fail, without an effect. Nothing is known once a kernel has left its memory. -/
def Serves [Zero α] (kernel : Kernel bs α) (mayFail : Request α → Prop) (d : Ssd bs α)
    (c : Request α) (r : Completion α) (d' : Ssd bs α) : Prop :=
  match d.exec kernel c with
  | none => True
  | some out => (r = out.2 ∧ d' = out.1) ∨ (mayFail c ∧ d' = d ∧ ∃ err ≠ 0, r = .failed err)

theorem Serves.of_exec [Zero α] {kernel : Kernel bs α} {mayFail : Request α → Prop}
    {d d' : Ssd bs α} {c : Request α} {r : Completion α} (h : d.exec kernel c = some (d', r)) :
    d.Serves kernel mayFail c r d' := by
  simp [Serves, h]

theorem Serves.of_failed [Zero α] {kernel : Kernel bs α} {mayFail : Request α → Prop}
    {d : Ssd bs α} {c : Request α} (err : CInt) (herr : err ≠ 0) (hc : mayFail c) :
    d.Serves kernel mayFail c (.failed err) d := by
  rw [Serves]
  split
  · trivial
  · exact .inr ⟨hc, rfl, err, herr, rfl⟩

theorem Serves.cases [Zero α] {kernel : Kernel bs α} {mayFail : Request α → Prop}
    {d d' d₁ : Ssd bs α} {c : Request α} {r r₁ : Completion α}
    (h : d.Serves kernel mayFail c r d') (he : d.exec kernel c = some (d₁, r₁)) :
    (r = r₁ ∧ d' = d₁) ∨ (mayFail c ∧ d' = d ∧ ∃ err ≠ 0, r = .failed err) := by
  simpa only [Serves, he] using h

/-- The answers to a forking program; any request may fail. -/
def Answers [Zero α] {κ : Type} (kernel : Kernel bs α) (request : κ → Request α) (d : Ssd bs α)
    (c : κ) (r : Completion α) (d' : Ssd bs α) : Prop :=
  d.Serves kernel (fun _ => True) (request c) r d'

theorem Answers.total [Zero α] {κ : Type} (kernel : Kernel bs α) (request : κ → Request α)
    (d : Ssd bs α) (c : κ) : ∃ r d', d.Answers kernel request c r d' := by
  cases h : d.exec kernel (request c) with
  | none => exact ⟨.failed 1, d, by simp [Answers, Serves, h]⟩
  | some out => exact ⟨out.2, out.1, Serves.of_exec h⟩

end Ssd

end EbpfIsp.Device
