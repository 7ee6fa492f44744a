import EbpfIsp.Kernels.Npsum
import EbpfIsp.Npsum.Matrices

/-! # The host programs of the matrix sums

The programs come in two shapes. With in-storage processing they issue one
kernel run per matrix, and for an axis sum a page read and a clear of the map
page after it; a command that fails ends the iteration early. On the host they
read the matrix and sum it in memory. Times are not modelled.
-/

namespace EbpfIsp.Npsum
open Library Device HostProgram

def cmdStats : PassthruCmd := { opcode := .stats }

def cmdStatsClear : PassthruCmd := { opcode := .statsClear }

/-- The `0x82` command for matrix `i`; `64 - 1` is the zero-based number of blocks. -/
def ispCmd (axis : CInt) (i : ℕ) : PassthruCmd where
  opcode := .ispRead
  cdw2 := axis
  cdw10 := matrixSlba i
  cdw12 := 64 - 1

def pageReadCmd : PassthruCmd := { opcode := .ispPageRead }

def cmdClear : PassthruCmd := { opcode := .ispClear }

/-- The range check and the printed line of the two sum programs. -/
def reportSum (lo hi sum : CInt) : Host CInt Unit := do
  printfIf (sum.slt lo ∨ hi.slt sum) "Warning: sum out of range: %d\n" [sum]
  printf "%d\n" [sum]

def ispDebugMatrix (i : ℕ) : Host CInt Unit := do
  let r ← issue (.ioCmd (ispCmd 3 i))
  if r.ret ≠ 0 then printf "iteration %d: err %d\n" [BitVec.ofNat 32 i, r.ret]
  else reportSum 30000000 40000000 r.result

/-- Statistics commands at the start, and after each of the `itTime` iterations. -/
def withStats {β : Type} (itTime : ℕ) (iteration : β → Host CInt β) (start : β) : Host CInt β := do
  let _ ← issue (.ioCmd cmdStatsClear)
  loop itTime (fun _ t => do
    let t ← iteration t
    let _ ← issue (.ioCmd cmdStats)
    let _ ← issue (.ioCmd cmdStatsClear)
    return t) start

def ispDebug : Host CInt Unit :=
  withStats 1 (loop numMatrix fun i _ => ispDebugMatrix i) ()

def sumInts (buf : ℕ → CInt) (n : ℕ) : CInt := forPure n (fun i sum => sum + buf i) 0

def hostDebugMatrix (i : ℕ) (buf : ℕ → CInt) : Host CInt (ℕ → CInt) := do
  let r ← issue (.submitIo ⟨.read, 63, buf, (matrixSlba i).signExtend 64⟩)
  let buf := r.into buf
  if r.ret ≠ 0 then
    printf "iteration %d: err %d\n" [BitVec.ofNat 32 i, r.ret]
    return buf
  else
    reportSum 33000000 34000000 (sumInts buf matrixElements)
    return buf

def hostDebug (fresh : ℕ → CInt) : Host CInt Unit := do
  let _ ← loop 1 (fun _ => loop numMatrix hostDebugMatrix) fresh
  return ()

/-- One matrix of an axis program: kernel run, page read and clear. What is done with the
page is `display`. -/
def ispAxisMatrix (axis : CInt) (display : (ℕ → CInt) → Host CInt Unit) (i : ℕ)
    (mapPage : ℕ → CInt) : Host CInt (ℕ → CInt) := do
  let r ← issue (.ioCmd (ispCmd axis i))
  if r.ret ≠ 0 then
    printf "ISP request: err %d\n" [r.ret]
    return mapPage
  else
    let r ← issue (.ioCmd pageReadCmd)
    let mapPage := r.into mapPage
    if r.ret ≠ 0 then
      printf "Map page read: err %d\n" [r.ret]
      return mapPage
    else
      display mapPage
      let r ← issue (.ioCmd cmdClear)
      printfIf (r.ret ≠ 0) "Map page clear: err %d\n" [r.ret]
      return mapPage

/-- The loops of an axis program; `memset(map_page, 0, 4096)` starts every iteration. -/
def ispAxisLoops (itTime : ℕ) (axis : CInt) (display : (ℕ → CInt) → Host CInt Unit)
    (fresh : ℕ → CInt) : Host CInt (ℕ → CInt) :=
  withStats itTime (fun mapPage =>
    loop numMatrix (ispAxisMatrix axis display) (fill (fun _ => 0) 1024 mapPage)) fresh

def printRow (page : ℕ → CInt) : Host CInt Unit := do
  let _ ← loop 64 (fun idx _ => printf "%d " [page idx]) ()
  printf "\n" []

def ispDebugAxis0 (fresh : ℕ → CInt) : Host CInt Unit := do
  let _ ← ispAxisLoops 1 0 printRow fresh
  return ()

/-- `main` of the axis programs that print nothing. -/
def ispAxis (axis : CInt) (fresh : ℕ → CInt) : Host CInt Unit := do
  let _ ← ispAxisLoops 32 axis (fun _ => return ()) fresh
  printf "---- Test end ----\n" []

def ispAxis0 : (ℕ → CInt) → Host CInt Unit := ispAxis 0

def ispAxis1 : (ℕ → CInt) → Host CInt Unit := ispAxis 1

/-- `for (idx < rows) for (jdx < cols) result[jdx] += buf[idx*cols+jdx];` -/
def hostSumRows (buf : ℕ → CInt) (rows cols : ℕ) (result : ℕ → CInt) : ℕ → CInt :=
  forPure rows (fun idx result =>
    forPure cols (fun jdx result =>
      Function.update result jdx (result jdx + buf (idx * cols + jdx))) result) result

def hostDebugAxis0Matrix (i : ℕ) (mem : (ℕ → CInt) × (ℕ → CInt)) :
    Host CInt ((ℕ → CInt) × (ℕ → CInt)) := do
  let result := fill (fun _ => 0) 1024 mem.2
  let r ← issue (.submitIo ⟨.read, 63, mem.1, (matrixSlba i).signExtend 64⟩)
  let buf := r.into mem.1
  if r.ret ≠ 0 then
    printf "iteration %d: err %d\n" [BitVec.ofNat 32 i, r.ret]
    return (buf, result)
  else
    let result := hostSumRows buf 64 1024 result
    printRow result
    return (buf, result)

def hostDebugAxis0 (freshBuf freshResult : ℕ → CInt) : Host CInt Unit := do
  let _ ← loop 1 (fun _ => loop numMatrix hostDebugAxis0Matrix)
    (freshBuf, fill (fun _ => 0) 1024 freshResult)
  return ()

end EbpfIsp.Npsum
