import Nachos.Impl.Machine.Mipssim
import Nachos.Impl.Userprog.Context
import Nachos.Impl.Userprog.Process

/-!
# Exceptions and the run of user programs

`ExceptionHandler` of `userprog/exception.cc` with its system calls, and `SysAdd`
of `userprog/ksyscall.h`. `Userland` is all that user programs run on: the
processor, main memory, and the registers that are saved in the threads. Its
operations are a turn of the loop of `Machine::Run`, `AddrSpace::Execute`,
`Scheduler::Run`, and what `CheckIfDue` does to the processor before it calls a
handler. The messages and the debugging hooks of `Run` are left out.

A thread that made the system call `SC_Exit` runs no more; `Scheduler::Run` takes
it from the processor.
-/

namespace Nachos

/-- `SC_Halt`. -/
def scHalt : BitVec 32 := 0

/-- `SC_Exit`. -/
def scExit : BitVec 32 := 1

/-- `SC_Add`. -/
def scAdd : BitVec 32 := 42

/-- A general register. -/
def Reg.general (i : Fin 32) : Reg := ⟨i.val, Nat.lt_trans i.isLt (by decide)⟩

/-- The number of a system call. -/
def Registers.syscallType (r : Registers) : BitVec 32 := r (Reg.general 2)

/-- `SC_Add`: the result, and the return point. -/
def Registers.sysAdd (r : Registers) : Registers :=
  let r := r.write (Reg.general 2) (r (Reg.general 4) + r (Reg.general 5))
  let r := r.write Reg.prevPC (r Reg.pc)
  let r := r.write Reg.pc (r Reg.pc + 4)
  r.write Reg.nextPC (r Reg.pc + 4)

/-- What `ExceptionHandler` comes to: it returns, the thread finishes, or the
machine halts. -/
inductive Handled
  | returns
  | finishes
  | halts
  deriving DecidableEq

section
variable (cfg : Config) (env : Env)

/-- `ExceptionHandler`. -/
def Cpu.exceptionHandler (c : Cpu) : Trap → Except Abort (Cpu × Handled)
  | .syscall =>
    let type := c.registers.syscallType
    if type = scHalt then return (c, .halts)
    else if type = scExit then do
      let m ← c.memory.exit cfg
      return ({ c with memory := m }, .finishes)
    else if type = scAdd then return ({ c with registers := c.registers.sysAdd }, .returns)
    else throw .assert
  | .memory which => do
    let m ← c.memory.exceptionHandler cfg env which (c.registers Reg.badVAddr).toInt
    return ({ c with memory := m }, .returns)
  | .overflow | .illegalInstr => throw .assert

end

/-- What user programs run on. `userRegisters` are those of the threads that have
been in `Execute`, by `threadID`. -/
structure Userland extends Cpu where
  userRegisters : Nat → Option Registers
  halted : Bool

namespace Userland

/-- The operations. `interrupt` is `CheckIfDue` before the handlers, and `finish`
the end of a kernel thread. -/
inductive Op
  | create (program : Option Program)
  | execute
  | instruction
  | interrupt
  | finish
  | run (nextThread : Nat)

/-- The thread on the processor. -/
def current (u : Userland) : Nat := u.memory.currentThread

/-- The registers of a thread that is in its user program. -/
def registersOf (u : Userland) (t : Nat) : Option Registers :=
  (u.userRegisters t).map fun r => if t = u.current then u.registers else r

/-- When an operation can happen. -/
def enabled (u : Userland) (op : Op) : Bool :=
  !u.halted && match op with
    | .create _ => u.memory.runnable u.current
    | .execute => u.memory.inUser && (u.userRegisters u.current).isNone
    | .instruction => u.memory.inUser && (u.userRegisters u.current).isSome
    | .interrupt => true
    | .finish => u.memory.runnable u.current && !u.memory.isUser u.current
    | .run t => u.memory.runnable t

section
variable (cfg : Config) (env : Env)

/-- `AddrSpace::Execute`, up to `machine->Run`. -/
def execute (u : Userland) : Except Abort Userland := do
  let sp ← u.memory.space u.current
  let r := SpaceState.initRegisters ⟨(), sp.program.numPages, (), ()⟩
  return { u with
    registers := r
    userRegisters := Function.update u.userRegisters u.current (some r) }

/-- A turn of the loop of `Machine::Run`, up to `OneTick`. -/
def instruction (u : Userland) : Except Abort Userland := do
  let (c, which) ← u.toCpu.oneInstruction cfg env
  match which with
  | none => return { u with toCpu := c }
  | some which =>
    let (c, handled) ← c.exceptionHandler cfg env which
    return { u with toCpu := c, halted := handled = .halts }

/-- `Scheduler::Run`, with `CheckToBeDestroyed`: the registers of a thread that has
finished are gone. -/
def run (u : Userland) (t : Nat) : Userland :=
  let saved := Function.update u.userRegisters u.current
    (if u.memory.runnable u.current then u.registersOf u.current else none)
  { u with
    registers := (saved t).getD u.registers
    memory := u.memory.run cfg t
    userRegisters := saved }

/-- What an operation does. -/
def exec (u : Userland) : Op → Except Abort Userland
  | .create program => do
    let m ← u.memory.create cfg program
    return { u with memory := m }
  | .execute => u.execute
  | .instruction => u.instruction cfg env
  | .interrupt => do
    let r ← u.registers.delayedLoad 0 0
    return { u with registers := r }
  | .finish => do
    let m ← u.memory.exit cfg
    return { u with memory := m }
  | .run t => return u.run cfg t

end

/-- One operation; one that cannot happen changes nothing. -/
def next (cfg : Config) (u : Userland) (op : Op × Env) : Except Abort Userland :=
  if u.enabled op.1 then u.exec cfg op.2 op.1 else .ok u

/-- The machine after `Kernel::Initialize`, with any contents of the registers. -/
def start (cfg : Config) (r : Registers) : Userland where
  registers := r
  memory := Vm.start cfg
  userRegisters _ := none
  halted := false

end Userland

end Nachos
