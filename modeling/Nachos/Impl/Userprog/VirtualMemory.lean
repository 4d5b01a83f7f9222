import Nachos.Impl.Lib.Bitmap
import Nachos.Impl.Machine.Translate
import Nachos.Impl.Threads.Thread

/-!
# Virtual memory

Everything that touches the page tables, the TLB, `mmBitmap` and main memory:
`machine/translate.cc`, the exceptions and `SC_Exit` of `userprog/exception.cc`,
`loadPageFrame`, `SaveAThread` and `LoadAThread` of `threads/thread.cc`, and
the part of `Scheduler::Run` that changes them. `Config` chooses between the
inverted page table (`USE_RPT`) and one linear table for each address space.

`machine->pt` points to the table of the running thread's address space
(`RestoreState`), so the linear functions take the table from there. The name
of the swap file, which the constructor of `AddrSpace` keeps as a pointer to
its own stack, is taken to be intact.
-/

namespace Nachos

/-- `enum ExceptionType`, those of a memory access. -/
inductive ExceptionType
  | pageFault
  | tlbMiss
  | readOnly
  | busError
  | addressError
  deriving DecidableEq

/-- An executable: its bytes, `code.inFileAddr` of its header, and the number
of pages that the header's sizes give. -/
structure Program where
  executable : List Byte
  inFileAddr : Int
  numPages : Nat
  deriving DecidableEq

/-- `class AddrSpace`; `vmFile` is the file `vmFileName`. -/
structure AddrSpace where
  program : Program
  pt : Table
  vmFile : List Byte

/-- `AddrSpace::AddrSpace`. -/
def AddrSpace.new (cfg : Config) (program : Program) : AddrSpace where
  program := program
  pt := if cfg.useRPT then [] else List.replicate program.numPages .reset
  vmFile := []

/-- A thread, as far as virtual memory goes. `saved` is the file it was
suspended to; `exited` says that it called `Finish`. -/
structure UserThread where
  space : Option AddrSpace
  saved : Option (List Byte)
  exited : Bool

/-- The machine and the threads, by their `threadID`. -/
structure Vm where
  mmBitmap : Bitmap
  mainMemory : Nat → Byte
  pt : Table
  tlb : Table
  threadArray : List (Option UserThread)
  currentThread : Nat

/-- What the code reads and nobody wrote: behind a table, and in `buf[100]` on
the stack. -/
structure Env where
  stray : Int → TranslationEntry
  buf : List Byte
  length_buf : buf.length = 100

/-- The memory with `src` stored from `a` on. -/
def blit (m : Nat → Byte) (a : Nat) (src : List Byte) : Nat → Byte :=
  fun x => if a ≤ x then src.getD (x - a) (m x) else m x

namespace Vm

/-- The thread with an id. -/
def thread (s : Vm) (tid : Nat) : Option UserThread := (s.threadArray[tid]?).join

/-- `thread->space`, which must not be `NULL`. -/
def space (s : Vm) (tid : Nat) : Except Abort AddrSpace :=
  match (s.thread tid).bind UserThread.space with
  | none => .error .undefined
  | some sp => .ok sp

def setThread (s : Vm) (tid : Nat) (f : UserThread → UserThread) : Vm :=
  { s with threadArray := s.threadArray.modify tid (Option.map f) }

def setSpace (s : Vm) (tid : Nat) (sp : AddrSpace) : Vm :=
  s.setThread tid fun t => { t with space := some sp }

/-- `n` bytes of `mainMemory` from `addr` on. -/
def fetch (s : Vm) (addr : Int) (n : Nat) : Except Abort (List Byte) := do
  defined (0 ≤ addr ∧ addr + n ≤ memorySize)
  return (List.range n).map fun i => s.mainMemory (addr.toNat + i)

/-- A store to `mainMemory`. -/
def store (s : Vm) (addr : Int) (src : List Byte) : Except Abort Vm := do
  defined (0 ≤ addr ∧ addr + src.length ≤ memorySize)
  return { s with mainMemory := blit s.mainMemory addr.toNat src }

section
variable (cfg : Config) (env : Env)

/-- `Machine::pageTableTranslation` with `USE_RPT`. -/
def rptTranslation (s : Vm) (vpn : Int) : Except ExceptionType (Int × TranslationEntry) :=
  match s.pt.findIdx? fun e => e.vpn = vpn && e.tID = (s.currentThread : Int) with
  | none => .error .pageFault
  | some i => .ok (i, s.pt.nth i)

/-- The swap branch of `Machine::pageTableTranslation`, for a page that is not
valid and has a frame: the page that is in the frame now goes to the swap file
and this one comes back. -/
def swap (s : Vm) (sp : AddrSpace) (vpn ppn : Int) : Except Abort (Vm × AddrSpace) := do
  let sp ← (match (sp.pt.view env.stray sp.program.numPages).findIdx?
      fun e => e.valid && e.ppn = ppn with
    | none => return sp
    | some j => do
      let page ← s.fetch (ppn * pageSize) pageSize
      let vmFile ← Unix.writeAt sp.vmFile page (j * pageSize)
      let pt ← sp.pt.upd j fun e => { e with valid := false }
      return { sp with pt := pt, vmFile := vmFile })
  let pt ← sp.pt.upd vpn fun e => { e with valid := true }
  let page ← Unix.readAt sp.vmFile pageSize (vpn * pageSize)
  let s ← s.store (ppn * pageSize) page
  return (s, { sp with pt := pt })

/-- `Machine::pageTableTranslation` without `USE_RPT`. -/
def linearTranslation (s : Vm) (vpn : Int) :
    Except Abort (Vm × Except ExceptionType (Int × TranslationEntry)) := do
  let sp ← s.space s.currentThread
  if vpn ≥ sp.program.numPages then return (s, .error .addressError)
  else
    let e := sp.pt.entry env.stray vpn
    if e.valid then return (s, .ok (e.ppn, e))
    else if e.ppn ≠ -1 then
      let (s, sp) ← s.swap env sp vpn e.ppn
      let e := sp.pt.entry env.stray vpn
      return (s.setSpace s.currentThread sp, .ok (e.ppn, e))
    else return (s, .error .pageFault)

/-- `Machine::pageTableTranslation`: an exception, or the frame and the
entry. -/
def pageTableTranslation (s : Vm) (vpn : Int) :
    Except Abort (Vm × Except ExceptionType (Int × TranslationEntry)) :=
  if cfg.useRPT then return (s, s.rptTranslation vpn) else s.linearTranslation env vpn

/-- The lookup of `Machine::Translate`, in the TLB or in the page table: the
frame, the entry and its place in the TLB. -/
def lookup (s : Vm) (vpn : Int) :
    Except Abort (Vm × Except ExceptionType (Int × TranslationEntry × Option Nat)) :=
  if cfg.useTLB then
    match s.tlb.findIdx? fun e => e.valid && e.vpn = vpn with
    | none => return (s, .error .tlbMiss)
    | some k =>
      let e := s.tlb.nth k
      return (s, .ok (e.ppn, e, some k))
  else do
    let (s, r) ← s.pageTableTranslation cfg env vpn
    return (s, r.map fun (pageFrame, e) => (pageFrame, e, none))

/-- The page table's part of `updateLRUFlag` in `Machine::Translate`. -/
def touch (s : Vm) (vpn pageFrame : Int) : Except Abort Vm :=
  if cfg.lruReplace then
    if cfg.useRPT then do
      let pt ← s.pt.updateLRUFlag env.stray pageFrame numPhysPages
      return { s with pt := pt }
    else do
      let sp ← s.space s.currentThread
      let pt ← sp.pt.updateLRUFlag env.stray vpn sp.program.numPages
      return s.setSpace s.currentThread { sp with pt := pt }
  else return s

/-- The TLB's part. -/
def touchTLB (s : Vm) : Option Nat → Except Abort Vm
  | none => return s
  | some k =>
    if cfg.lruReplace then do
      let tlb ← s.tlb.updateLRUFlag env.stray k tlbSize
      return { s with tlb := tlb }
    else return s

/-- `Machine::Translate`: an exception, or the physical address. The use and
dirty bits are set in a copy of the entry that is then dropped. -/
def translate (s : Vm) (virtAddr : Int) (size : Nat) (writing : Bool) :
    Except Abort (Vm × Except ExceptionType Int) := do
  if (size = 4 ∧ virtAddr % 4 ≠ 0) ∨ (size = 2 ∧ virtAddr % 2 ≠ 0) then
    return (s, .error .addressError)
  else
    let vpn := virtAddr.tdiv pageSize
    let offset := virtAddr.tmod pageSize
    let (s, r) ← s.lookup cfg env vpn
    match r with
    | .error e => return (s, .error e)
    | .ok (pageFrame, e, k) =>
      if e.readOnly && writing then return (s, .error .readOnly)
      else if pageFrame ≥ numPhysPages ∨ pageFrame < 0 then return (s, .error .busError)
      else
        let s ← s.touch cfg env vpn pageFrame
        let physAddr := pageFrame * pageSize + offset
        assert (0 ≤ physAddr ∧ physAddr + 4 ≤ memorySize)
        let s ← s.touchTLB cfg env k
        return (s, .ok physAddr)

/-- The table's part of `Thread::loadPageFrame` with `USE_RPT`. -/
def mapRPT (s : Vm) (tid : Nat) (vpn ppn : Int) : Except Abort Vm := do
  let pt ← s.pt.upd ppn fun e => { e with tID := tid, vpn := vpn, valid := true, ppn := ppn }
  let pt ← (if cfg.fifoReplace then pt.updateFIFOFlag env.stray ppn numPhysPages else return pt)
  return { s with pt := pt }

/-- The table's part of `Thread::loadPageFrame` without `USE_RPT`. The flag is
computed over as many entries as the running thread's table has. -/
def mapLinear (s : Vm) (tid : Nat) (vpn ppn : Int) : Except Abort Vm := do
  let cur ← s.space s.currentThread
  let sp ← s.space tid
  let pt ← sp.pt.upd vpn fun e => { e with vpn := vpn, ppn := ppn, valid := true }
  let pt ← (if cfg.fifoReplace then pt.updateFIFOFlag env.stray vpn cur.program.numPages
    else return pt)
  let s := s.setSpace tid { sp with pt := pt }
  if (pt.entry env.stray vpn).dirty then
    let cur ← s.space s.currentThread
    let page ← s.fetch (ppn * pageSize) pageSize
    let vmFile ← Unix.writeAt cur.vmFile page (vpn * pageSize)
    return s.setSpace s.currentThread { cur with vmFile := vmFile }
  else return s

/-- `Thread::loadPageFrame` of the thread `tid`, from the file `f`. -/
def loadPageFrame (s : Vm) (tid : Nat) (vpn ppn fileAddr : Int) (f : List Byte) :
    Except Abort Vm := do
  let s ← (if cfg.useRPT then s.mapRPT cfg env tid vpn ppn else s.mapLinear cfg env tid vpn ppn)
  let page ← Unix.readAt f pageSize fileAddr
  s.store (ppn * pageSize) page

/-- `findOneToReplace(kernel->machine->pt, 0)`. -/
def victim (s : Vm) : Except Abort Nat :=
  if cfg.useRPT then return s.pt.findOneToReplace cfg
  else do
    let sp ← s.space s.currentThread
    return sp.pt.findOneToReplace cfg

/-- A frame to load a page into: a free one, or one to replace. -/
def pageFrame (s : Vm) : Except Abort (Vm × Int) := do
  let (i, b) ← s.mmBitmap.findAndSet
  let s := { s with mmBitmap := b }
  if i = -1 then
    let v : Nat ← s.victim cfg
    return (s, (v : Int))
  else return (s, i)

/-- `ExceptionHandler(PageFaultException)`. -/
def pageFaultHandler (s : Vm) (vaddr : Int) : Except Abort Vm := do
  let vpn := vaddr.tdiv pageSize
  let (s, ppn) ← s.pageFrame cfg
  let sp ← s.space s.currentThread
  let fileAddr ← i32 (sp.program.inFileAddr + vpn * pageSize)
  s.loadPageFrame cfg env s.currentThread vpn ppn fileAddr sp.program.executable

/-- `ExceptionHandler` for the exceptions of a memory access. -/
def exceptionHandler (s : Vm) (which : ExceptionType) (vaddr : Int) : Except Abort Vm :=
  match which with
  | .pageFault => s.pageFaultHandler cfg env vaddr
  | .tlbMiss => do
    let (s, r) ← s.pageTableTranslation cfg env (vaddr.tdiv pageSize)
    match r with
    | .error .pageFault => s.pageFaultHandler cfg env vaddr
    | .error _ => .error .assert
    | .ok (_, entry) =>
      let tlb ← s.tlb.updateTLB cfg env.stray entry
      return { s with tlb := tlb }
  | _ => .error .assert

/-- The value that `size` bytes are: a `char`, or an unsigned short or int in
little-endian order. -/
def value : List Byte → Int
  | [b] => b.toInt
  | [b₀, b₁] => (b₁ ++ b₀).toNat
  | [b₀, b₁, b₂, b₃] => (b₃ ++ b₂ ++ b₁ ++ b₀).toInt
  | _ => 0

/-- The low `size` bytes of a value. -/
def bytes (size : Nat) (value : Int) : List Byte :=
  (List.range size).map fun i => BitVec.ofInt 8 (value / 256 ^ i)

/-- `Machine::ReadMem`: the value read, or `none` after an exception. -/
def readMem (s : Vm) (addr : Int) (size : Nat) : Except Abort (Vm × Option Int) := do
  let (s, r) ← s.translate cfg env addr size false
  match r with
  | .error e =>
    let s ← s.exceptionHandler cfg env e addr
    return (s, none)
  | .ok physAddr =>
    assert (size = 1 ∨ size = 2 ∨ size = 4)
    let data ← s.fetch physAddr size
    return (s, some (value data))

/-- `Machine::WriteMem`: whether it wrote. -/
def writeMem (s : Vm) (addr : Int) (size : Nat) (value : Int) : Except Abort (Vm × Bool) := do
  let (s, r) ← s.translate cfg env addr size true
  match r with
  | .error e =>
    let s ← s.exceptionHandler cfg env e addr
    return (s, false)
  | .ok physAddr =>
    assert (size = 1 ∨ size = 2 ∨ size = 4)
    let s ← s.store physAddr (bytes size value)
    return (s, true)

end

end Vm

end Nachos
