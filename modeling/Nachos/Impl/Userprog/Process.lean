import Nachos.Impl.Userprog.VirtualMemory

/-!
# User threads: creation, switching, exit and suspension

The operations on whole threads that change virtual memory, and `next`, which
takes one operation of any kind. A thread leaves `threadArray` when the next
thread has run `CheckToBeDestroyed`.

`SaveAThread` writes, as text in four bytes each, the number of resident pages
and before each page its number; `LoadAThread` reads them back.
-/

namespace Nachos.Vm

/-- `sizeof(int)`. -/
def sizeofInt : Nat := 4

section
variable (cfg : Config) (env : Env)

/-- `new Thread`, and for a user program its address space. -/
def create (s : Vm) (program : Option Program) : Except Abort Vm := do
  let some (_, a) := addAThread s.threadArray ⟨program.map (AddrSpace.new cfg), none, false⟩
    | throw .assert
  return { s with threadArray := a }

/-- `Scheduler::Run` and `CheckToBeDestroyed`. -/
def run (s : Vm) (nextThread : Nat) : Vm :=
  let s := if cfg.useTLB then { s with tlb := s.tlb.map fun _ => .reset } else s
  let exited := (s.thread s.currentThread).any UserThread.exited
  { s with
    currentThread := nextThread
    threadArray := if exited then removeAThread s.threadArray s.currentThread else s.threadArray }

/-- The loop of `SC_Exit` with `USE_RPT`, over the frames `is`. -/
def exitRPT (s : Vm) : List Nat → Except Abort Vm
  | [] => return s
  | i :: is =>
    if (s.pt.nth i).tID = s.currentThread then do
      let b ← s.mmBitmap.clear i
      exitRPT { s with mmBitmap := b, pt := s.pt.set i .reset } is
    else exitRPT s is

/-- The loop of `SC_Exit` without `USE_RPT`, over the entries of the page
table. -/
def clearFrames (b : Bitmap) : Table → Except Abort Bitmap
  | [] => return b
  | e :: es => do
    let b ← (if e.valid then b.clear e.ppn else return b)
    clearFrames b es

/-- The part of `SC_Exit` before `Finish`. A kernel thread only finishes. -/
def exitClean (s : Vm) : Except Abort Vm :=
  match (s.thread s.currentThread).bind UserThread.space with
  | none => return s
  | some sp =>
    if cfg.useRPT then do
      let s ← s.exitRPT (List.range numPhysPages)
      return { s with tlb := s.tlb.map fun e => if e.tID = (s.currentThread : Int) then .reset else e }
    else do
      let b ← clearFrames s.mmBitmap sp.pt
      return { s with mmBitmap := b, tlb := s.tlb.map fun _ => .reset }

/-- `SC_Exit`. -/
def exit (s : Vm) : Except Abort Vm := do
  let s ← s.exitClean cfg
  return s.setThread s.currentThread fun t => { t with exited := true }

/-- The file that `SaveAThread` writes, and its buffer. -/
structure Dump where
  file : List Byte
  buf : List Byte

/-- `sprintf(buf, "%d", n)` and a `WriteAt` of `sizeof(int)` bytes of it. -/
def Dump.number (d : Dump) (n : Int) (offset : Nat) : Except Abort Dump := do
  let buf := sprintf d.buf n
  let file ← Unix.writeAt d.file (buf.take sizeofInt) offset
  return ⟨file, buf⟩

/-- A page's number and its contents. -/
def Dump.page (d : Dump) (s : Vm) (vpn ppn : Int) (offset : Nat) : Except Abort Dump := do
  let d ← d.number vpn offset
  let page ← s.fetch (ppn * pageSize) pageSize
  let file ← Unix.writeAt d.file page (offset + sizeofInt : Nat)
  return { d with file := file }

/-- The loop of `SaveAThread` with `USE_RPT`, over the frames `is`. -/
def saveRPT (tid : Nat) (s : Vm) (d : Dump) (offset : Nat) : List Nat → Except Abort (Vm × Dump)
  | [] => return (s, d)
  | i :: is =>
    let e := s.pt.nth i
    if e.tID = tid && e.valid then do
      let b ← s.mmBitmap.clear i
      let s := { s with pt := s.pt.set i { e with valid := false }, mmBitmap := b }
      let d ← d.page s e.vpn i offset
      saveRPT tid s d (offset + sizeofInt + pageSize) is
    else saveRPT tid s d offset is

/-- The loop of `SaveAThread` without `USE_RPT`, at page `i` of the rest of
the page table: the new page table too. -/
def saveLinear (s : Vm) (d : Dump) (offset i : Nat) : Table → Except Abort (Vm × Dump × Table)
  | [] => return (s, d, [])
  | e :: es =>
    if e.valid then do
      let b ← s.mmBitmap.clear e.ppn
      let s := { s with mmBitmap := b }
      let d ← d.page s i e.ppn offset
      let (s, d, es) ← saveLinear s d (offset + sizeofInt + pageSize) (i + 1) es
      return (s, d, { e with valid := false } :: es)
    else do
      let (s, d, es) ← saveLinear s d offset (i + 1) es
      return (s, d, e :: es)

/-- `Thread::SaveAThread`, into an empty file. -/
def saveAThread (s : Vm) (tid : Nat) : Except Abort (Vm × List Byte) :=
  let d : Dump := ⟨[], env.buf⟩
  if cfg.useRPT then do
    let d ← d.number (s.pt.countP fun e => e.tID = (tid : Int) && e.valid) 0
    let (s, d) ← s.saveRPT tid d sizeofInt (List.range numPhysPages)
    return (s, d.file)
  else do
    let sp ← s.space tid
    let d ← d.number (sp.pt.countP fun e => e.valid) 0
    let (s, d, pt) ← s.saveLinear d sizeofInt 0 sp.pt
    return (s.setSpace tid { sp with pt := pt }, d.file)

/-- `ReadAt` of `sizeof(int)` bytes into a buffer, and `atoi` of it. -/
def readNumber (f buf : List Byte) (offset : Nat) : Except Abort (Int × List Byte) := do
  let b ← Unix.readAt f sizeofInt offset
  let buf := b ++ buf.drop b.length
  let n ← i32 (atoi buf)
  return (n, buf)

/-- The loop of `LoadAThread`, with `n` pages to go. -/
def loadPages (tid : Nat) (f : List Byte) (s : Vm) (buf : List Byte) (offset : Nat) :
    Nat → Except Abort Vm
  | 0 => return s
  | n + 1 => do
    let (vpn, buf) ← readNumber f buf offset
    let (s, ppn) ← s.pageFrame cfg
    let s ← s.loadPageFrame cfg env tid vpn ppn (offset + sizeofInt : Nat) f
    loadPages tid f s buf (offset + sizeofInt + pageSize) n

/-- `Thread::LoadAThread`. -/
def loadAThread (s : Vm) (tid : Nat) (f : List Byte) : Except Abort Vm := do
  let (numPages, buf) ← readNumber f env.buf 0
  s.loadPages cfg env tid f buf sizeofInt numPages.toNat

/-- `Scheduler::suspendAThread`, for the blocked thread `tid`. -/
def suspend (s : Vm) (tid : Nat) : Except Abort Vm := do
  let (s, f) ← s.saveAThread cfg env tid
  return s.setThread tid fun t => { t with saved := some f }

/-- `Scheduler::restoreAThread`, for the suspended thread `tid`. -/
def restore (s : Vm) (tid : Nat) : Except Abort Vm :=
  match (s.thread tid).bind UserThread.saved with
  | none => .error .assert
  | some f => do
    let s ← s.loadAThread cfg env tid f
    return s.setThread tid fun t => { t with saved := none }

end

/-- The operations. -/
inductive Op
  | create (program : Option Program)
  | run (nextThread : Nat)
  | read (addr : Int) (size : Nat)
  | write (addr : Int) (size : Nat) (value : Int)
  | exit
  | suspend (tid : Nat)
  | restore (tid : Nat)

/-- A thread that can run. -/
def runnable (s : Vm) (tid : Nat) : Bool :=
  (s.thread tid).any fun t => t.saved.isNone && !t.exited

/-- A thread with an address space. -/
def isUser (s : Vm) (tid : Nat) : Bool := ((s.thread tid).bind UserThread.space).isSome

/-- The processor runs a user program. -/
def inUser (s : Vm) : Bool := s.runnable s.currentThread && s.isUser s.currentThread

/-- When an operation can happen. A user thread is suspended while another one
runs, and does not run before it is restored. -/
def enabled (s : Vm) : Op → Bool
  | .create _ | .exit => s.runnable s.currentThread
  | .run t => s.runnable t
  | .read .. | .write .. => s.inUser
  | .suspend t => s.inUser && s.runnable t && s.isUser t && t ≠ s.currentThread
  | .restore t => s.inUser && ((s.thread t).bind UserThread.saved).isSome

/-- What an operation does. -/
def exec (cfg : Config) (env : Env) (s : Vm) : Op → Except Abort Vm
  | .create program => s.create cfg program
  | .run t => return s.run cfg t
  | .read addr size => do
    let (s, _) ← s.readMem cfg env addr size
    return s
  | .write addr size v => do
    let (s, _) ← s.writeMem cfg env addr size v
    return s
  | .exit => s.exit cfg
  | .suspend t => s.suspend cfg env t
  | .restore t => s.restore cfg env t

/-- One operation, and what it happens to read; one that cannot happen changes
nothing. -/
def next (cfg : Config) (s : Vm) (op : Op × Env) : Except Abort Vm :=
  if s.enabled op.1 then s.exec cfg op.2 op.1 else .ok s

/-- The machine after `Kernel::Initialize`: `main` is the only thread. -/
def start (cfg : Config) : Vm where
  mmBitmap := .new numPhysPages
  mainMemory _ := 0
  pt := if cfg.useRPT then List.replicate numPhysPages .reset else []
  tlb := if cfg.useTLB then List.replicate tlbSize .reset else []
  threadArray := (List.replicate maxThreadNum none).set 0 (some ⟨none, none, false⟩)
  currentThread := 0

end Nachos.Vm
