import Nachos.Framework.System
import Nachos.Impl.Userprog.Exception

/-!
# A user program alone

What a user program should see of the machine: its registers, and a memory of
its own, which has a byte at every virtual address and in which nothing is ever
missing. An instruction is that of `OneInstruction`, without translation; `SC_Add`
is an instruction too. Between two instructions a pending load may arrive early
(`flush`): an interrupt or an exception finishes it.
-/

namespace Nachos

open Framework

/-- The registers, and the memory by virtual address. -/
structure Solo where
  registers : Registers
  memory : Int → Byte

/-- The access is aligned to its size. -/
def Aligned (addr : BitVec 32) (size : Nat) : Prop :=
  ¬ ((size = 4 ∧ addr.toInt % 4 ≠ 0) ∨ (size = 2 ∧ addr.toInt % 2 ≠ 0))

instance (addr : BitVec 32) (size : Nat) : Decidable (Aligned addr size) :=
  inferInstanceAs (Decidable (¬ _))

namespace Solo

/-- What is at an address. -/
def read (m : Solo) (addr : BitVec 32) (size : Nat) : BitVec 32 :=
  .ofInt 32 (Vm.value ((List.range size).map fun i : Nat => m.memory (addr.toInt + i)))

/-- The memory with `bs` stored from `addr` on. -/
def stored (memory : Int → Byte) (addr : Int) (bs : List Byte) : Int → Byte := fun a =>
  if addr ≤ a then (bs[(a - addr).toNat]?).getD (memory a) else memory a

/-- The state after an instruction, or the one in which it ended in an exception. -/
abbrev Ended := Solo × Option Trap

/-- An exception: the pending load arrives. -/
def raise (m : Solo) (which : Trap) (badVAddr : BitVec 32) : Except Abort Ended := do
  let r ← (m.registers.write Reg.badVAddr badVAddr).delayedLoad 0 0
  return ({ m with registers := r }, some which)

/-- The end of an instruction. -/
def advance (m : Solo) (pcAfter nextLoadReg nextLoadValue : BitVec 32) : Except Abort Ended := do
  let r ← m.registers.delayedLoad nextLoadReg nextLoadValue
  let r := r.write Reg.prevPC (r Reg.pc)
  let r := r.write Reg.pc (r Reg.nextPC)
  return ({ m with registers := r.write Reg.nextPC pcAfter }, none)

/-- A load and what follows. -/
def readMem (m : Solo) (addr : BitVec 32) (size : Nat) (rest : BitVec 32 → Except Abort Ended) :
    Except Abort Ended :=
  if Aligned addr size then rest (m.read addr size) else m.raise (.memory .addressError) addr

/-- A store and what follows. -/
def writeMem (m : Solo) (addr : BitVec 32) (size : Nat) (value : BitVec 32)
    (rest : Solo → Except Abort Ended) : Except Abort Ended :=
  if Aligned addr size then
    rest { m with memory := stored m.memory addr.toInt (Vm.bytes size value.toInt) }
  else m.raise (.memory .addressError) addr

/-- An instruction. -/
def execute (m : Solo) (instr : Instruction) : Except Abort Ended :=
  let r := m.registers
  let pcAfter := r Reg.nextPC + 4
  let tmp := r instr.rs + instr.extra
  let byte := tmp &&& 3
  let load (value : BitVec 32) := m.advance pcAfter (.ofNat 32 instr.rt) value
  let done (m : Solo) := m.advance pcAfter 0 0
  match instr.opCode with
  | .lb => m.readMem tmp 1 fun value =>
      load (if value &&& 0x80 ≠ 0 then value ||| 0xffffff00 else value &&& 0xff)
  | .lbu => m.readMem tmp 1 fun value => load (value &&& 0xff)
  | .lh =>
    if tmp &&& 1 ≠ 0 then m.raise (.memory .addressError) tmp
    else m.readMem tmp 2 fun value =>
      load (if value &&& 0x8000 ≠ 0 then value ||| 0xffff0000 else value &&& 0xffff)
  | .lhu =>
    if tmp &&& 1 ≠ 0 then m.raise (.memory .addressError) tmp
    else m.readMem tmp 2 fun value => load (value &&& 0xffff)
  | .lw =>
    if tmp &&& 3 ≠ 0 then m.raise (.memory .addressError) tmp
    else m.readMem tmp 4 load
  | .lwl => m.readMem (tmp - byte) 4 fun value =>
      load (mergeLeft byte (forwarded r instr.rt) value)
  | .lwr => m.readMem (tmp - byte) 4 fun value =>
      load (mergeRight byte (forwarded r instr.rt) value)
  | .sb => m.writeMem tmp 1 (r instr.rt) done
  | .sh => m.writeMem tmp 2 (r instr.rt) done
  | .sw => m.writeMem tmp 4 (r instr.rt) done
  | .swl => m.readMem (tmp - byte) 4 fun value =>
      m.writeMem (tmp - byte) 4 (storeLeft byte (r instr.rt) value) done
  | .swr => m.readMem (tmp - byte) 4 fun value =>
      m.writeMem (tmp - byte) 4 (storeRight byte (r instr.rt) value) done
  | _ => do
    let (r, x) ← operate instr r
    let m := { m with registers := r }
    match x with
    | .error which => m.raise which 0
    | .ok pcAfter => m.advance pcAfter 0 0

/-- The instruction at `PCReg`. -/
def oneInstruction (m : Solo) : Except Abort Ended :=
  m.readMem (m.registers Reg.pc) 4 fun raw => m.execute (.decode raw)

/-- What happens to a program. -/
inductive Event
  | instruction
  | flush (badVAddr : Option (BitVec 32))
  deriving DecidableEq

/-- One event. The program ends where it makes any other system call or an
exception. -/
def next (m : Solo) : Event → Except Abort Solo
  | .instruction => do
    let (m, which) ← m.oneInstruction
    match which with
    | none => return m
    | some .syscall =>
      assert (m.registers.syscallType = scAdd)
      return { m with registers := m.registers.sysAdd }
    | some _ => throw .assert
  | .flush badVAddr => do
    let r := badVAddr.elim m.registers (m.registers.write Reg.badVAddr)
    let r ← r.delayedLoad 0 0
    return { m with registers := r }

/-- The registers at the start of a program. -/
def initRegisters (p : Program) : Registers := SpaceState.initRegisters ⟨(), p.numPages, (), ()⟩

/-- The runs of a program from a first memory. -/
def system (p : Program) (memory : Int → Byte) : System Solo Event :=
  .ofFun ⟨initRegisters p, memory⟩ next

end Solo

/-- The memory has the bytes of the executable, where a page fault reads any. -/
def Program.Image (p : Program) (memory : Int → Byte) : Prop :=
  ∀ (a : Int) (b : Byte), 0 ≤ p.inFileAddr + a / pageSize * pageSize →
    p.executable[(p.inFileAddr + a).toNat]? = some b → memory a = b

end Nachos
