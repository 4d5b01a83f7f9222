import Nachos.Impl.Machine.Mipssim

/-!
# The reference machine

A MIPS with its two delays. A branch that is taken is remembered until the
instruction behind it, in the delay slot, has been executed. What an instruction
loads arrives at the end of the next one, which does not see it, and then
replaces what that one has set. `R0` reads as zero whatever is written there.

Arithmetic is that of `operate`; memory is a `Vm`. With `linkFirst` an
instruction that links writes the link before it reads its operand, which
matters where both are the same register.
-/

namespace Nachos

/-- A state between two instructions. -/
structure Mips where
  /-- The general registers, `HiReg` and `LoReg`. -/
  regs : Registers
  pc : BitVec 32
  /-- The target of the branch or jump that was taken just before. -/
  branch : Option (BitVec 32)
  /-- What was loaded just before, and for which register. -/
  load : Option (Reg × BitVec 32)
  memory : Vm

namespace Mips

/-- The value that an instruction sees of a register. -/
def read (m : Mips) (i : Reg) : BitVec 32 := if i = Reg.zero then 0 else m.regs i

/-- The address of the following instruction. -/
def next (m : Mips) : BitVec 32 := m.branch.getD (m.pc + 4)

/-- The address that a call links: behind its delay slot. -/
def link (m : Mips) : BitVec 32 :=
  match m.branch with
  | none => m.pc + 8
  | some target => target + 4

/-- The value that `LWL` and `LWR` merge into. -/
def merged (m : Mips) (i : Reg) : BitVec 32 :=
  match m.load with
  | none => m.read i
  | some (l, v) => if l = i then v else m.read i

/-- The end of an instruction that has set `regs`: the load before it arrives. -/
def retire (m : Mips) (regs : Registers) (branch : Option (BitVec 32))
    (load : Option (Reg × BitVec 32)) : Mips where
  regs :=
    match m.load with
    | none => regs
    | some (l, v) => regs.write l v
  pc := m.next
  branch := branch
  load := load
  memory := m.memory

/-- The branches and jumps: the register that gets the link, and the target if
the branch is taken. -/
def control (linkFirst : Bool) (m : Mips) (instr : Instruction) :
    Option (Option Reg × Option (BitVec 32)) :=
  let rs := m.read instr.rs
  let rt := m.read instr.rt
  let source (l : Reg) := if linkFirst && instr.rs = l then m.link else rs
  let relative (taken : Bool) := if taken then some (m.next + indexToAddr instr.extra) else none
  let absolute := m.link &&& 0xf0000000 ||| indexToAddr instr.extra
  match instr.opCode with
  | .beq => some (none, relative (rs == rt))
  | .bne => some (none, relative (rs != rt))
  | .bgez => some (none, relative (!rs.msb))
  | .bgtz => some (none, relative (BitVec.slt 0 rs))
  | .blez => some (none, relative (rs.sle 0))
  | .bltz => some (none, relative rs.msb)
  | .bgezal => some (some Reg.retAddr, relative (!(source Reg.retAddr).msb))
  | .bltzal => some (some Reg.retAddr, relative (source Reg.retAddr).msb)
  | .j => some (none, some absolute)
  | .jal => some (some Reg.retAddr, some absolute)
  | .jr => some (none, some rs)
  | .jalr => some (some instr.rd, some (source instr.rd))
  | _ => none

/-- The registers with the link, if the instruction has one. -/
def linked (m : Mips) : Option Reg → Registers
  | none => m.regs
  | some l => m.regs.write l m.link

/-- An instruction that does not access memory, or `none` if it ends in an
exception. -/
def compute (linkFirst : Bool) (m : Mips) (instr : Instruction) : Except Abort (Option Mips) :=
  match m.control linkFirst instr with
  | some (l, target) => .ok (some (m.retire (m.linked l) target none))
  | none => do
    let (regs, x) ← operate instr m.read
    match x with
    | .error _ => return none
    | .ok _ => return some (m.retire regs none none)

section
variable (linkFirst : Bool) (cfg : Config) (env : Env)

/-- A load from memory and what follows, or `none` after an exception. -/
def readMem (m : Mips) (addr : BitVec 32) (size : Nat)
    (rest : Mips → BitVec 32 → Except Abort (Option Mips)) : Except Abort (Option Mips) := do
  let (memory, x) ← m.memory.load cfg env addr.toInt size
  match x with
  | .error _ => return none
  | .ok value => rest { m with memory := memory } value

/-- A store to memory and what follows. -/
def writeMem (m : Mips) (addr : BitVec 32) (size : Nat) (value : BitVec 32)
    (rest : Mips → Except Abort (Option Mips)) : Except Abort (Option Mips) := do
  let (memory, x) ← m.memory.save cfg env addr.toInt size value
  match x with
  | .error _ => return none
  | .ok () => rest { m with memory := memory }

/-- An instruction. -/
def perform (m : Mips) (instr : Instruction) : Except Abort (Option Mips) :=
  let addr := m.read instr.rs + instr.extra
  let byte := addr &&& 3
  let load (m : Mips) (value : BitVec 32) :=
    .ok (some (m.retire m.regs none (some (instr.rt, value))))
  let done (m : Mips) := .ok (some (m.retire m.regs none none))
  match instr.opCode with
  | .lb => m.readMem cfg env addr 1 fun m v => load m ((v.setWidth 8).signExtend 32)
  | .lbu => m.readMem cfg env addr 1 fun m v => load m ((v.setWidth 8).setWidth 32)
  | .lh =>
    if addr &&& 1 ≠ 0 then .ok none
    else m.readMem cfg env addr 2 fun m v => load m ((v.setWidth 16).signExtend 32)
  | .lhu =>
    if addr &&& 1 ≠ 0 then .ok none
    else m.readMem cfg env addr 2 fun m v => load m ((v.setWidth 16).setWidth 32)
  | .lw => if addr &&& 3 ≠ 0 then .ok none else m.readMem cfg env addr 4 load
  | .lwl => m.readMem cfg env (addr - byte) 4 fun m v =>
      load m (mergeLeft byte (m.merged instr.rt) v)
  | .lwr => m.readMem cfg env (addr - byte) 4 fun m v =>
      load m (mergeRight byte (m.merged instr.rt) v)
  | .sb => m.writeMem cfg env addr 1 (m.read instr.rt) done
  | .sh => m.writeMem cfg env addr 2 (m.read instr.rt) done
  | .sw => m.writeMem cfg env addr 4 (m.read instr.rt) done
  | .swl => m.readMem cfg env (addr - byte) 4 fun m v =>
      m.writeMem cfg env (addr - byte) 4 (storeLeft byte (m.read instr.rt) v) done
  | .swr => m.readMem cfg env (addr - byte) 4 fun m v =>
      m.writeMem cfg env (addr - byte) 4 (storeRight byte (m.read instr.rt) v) done
  | _ => m.compute linkFirst instr

/-- The instruction at `pc`. -/
def step (m : Mips) : Except Abort (Option Mips) :=
  m.readMem cfg env m.pc 4 fun m raw => m.perform linkFirst cfg env (.decode raw)

end

/-- As many instructions as there are environments, none of which ends in an
exception. -/
def run (linkFirst : Bool) (cfg : Config) (m : Mips) : List Env → Option Mips
  | [] => some m
  | env :: envs =>
    match m.step linkFirst cfg env with
    | .ok (some m') => m'.run linkFirst cfg envs
    | _ => none

end Mips

end Nachos
