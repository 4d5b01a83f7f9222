import Nachos.Impl.Machine.Machine
import Nachos.Impl.Userprog.VirtualMemory

/-!
# The MIPS simulator

`Instruction::Decode`, `Machine::OneInstruction` and `DelayedLoad` of
`machine/mipssim.cc` (built with `SIM_FIX`), and `RaiseException` of
`machine/machine.cc` up to the call of `ExceptionHandler`. `if (!ReadMem(...))
return;` is `Cpu.readMem` with the rest of the function as its last argument.
Arithmetic on registers wraps around, as the overflow checks of the code expect.
-/

namespace Nachos

/-- The op codes of `machine/mipssim.h`. -/
inductive OpCode
  | add | addi | addiu | addu | and | andi | beq | bgez | bgezal | bgtz | blez | bltz | bltzal | bne
  | div | divu | j | jal | jalr | jr | lb | lbu | lh | lhu | lui | lw | lwl | lwr | mfhi | mflo
  | mthi | mtlo | mult | multu | nor | or | ori | rfe | sb | sh | sll | sllv | slt | slti | sltiu
  | sltu | sra | srav | srl | srlv | sub | subu | sw | swl | swr | xor | xori | syscall | unimp | res
  deriving DecidableEq

/-- `opCode` of `struct OpInfo`: an op code, or `SPECIAL` or `BCOND`. -/
inductive OpInfo
  | op (opCode : OpCode)
  | special
  | bcond

/-- `IFMT`, `JFMT` and `RFMT`. -/
inductive Format
  | i
  | j
  | r

/-- `opTable`. -/
def opTable : List (OpInfo × Format) :=
  [(.special, .r), (.bcond, .i), (.op .j, .j), (.op .jal, .j)] ++
  ([.beq, .bne, .blez, .bgtz,
    .addi, .addiu, .slti, .sltiu, .andi, .ori, .xori, .lui,
    .unimp, .unimp, .unimp, .unimp, .res, .res, .res, .res,
    .res, .res, .res, .res, .res, .res, .res, .res,
    .lb, .lh, .lwl, .lw, .lbu, .lhu, .lwr, .res,
    .sb, .sh, .swl, .sw, .res, .res, .swr, .res,
    .unimp, .unimp, .unimp, .unimp, .res, .res, .res, .res,
    .unimp, .unimp, .unimp, .unimp, .res, .res, .res, .res] : List OpCode).map
    fun c => (.op c, .i)

/-- `specialTable`. -/
def specialTable : List OpCode :=
  [.sll, .res, .srl, .sra, .sllv, .res, .srlv, .srav,
    .jr, .jalr, .res, .res, .syscall, .unimp, .res, .res,
    .mfhi, .mthi, .mflo, .mtlo, .res, .res, .res, .res,
    .mult, .multu, .div, .divu, .res, .res, .res, .res,
    .add, .addu, .sub, .subu, .and, .or, .xor, .nor,
    .res, .res, .slt, .sltu, .res, .res, .res, .res,
    .res, .res, .res, .res, .res, .res, .res, .res,
    .res, .res, .res, .res, .res, .res, .res, .res]

/-- `class Instruction`, decoded. -/
structure Instruction where
  opCode : OpCode
  rs : Reg
  rt : Reg
  rd : Reg
  extra : BitVec 32

namespace Instruction

/-- A field of five bits, the number of a general register. -/
def reg (value : BitVec 32) (shift : Nat) : Reg :=
  ⟨(value.extractLsb' shift 5).toNat, Nat.lt_trans (BitVec.isLt _) (by decide)⟩

/-- `Instruction::Decode`. -/
def decode (value : BitVec 32) : Instruction :=
  let (info, format) := opTable.getD (value >>> 26).toNat (.op .res, .i)
  { rs := reg value 21
    rt := reg value 16
    rd := reg value 11
    extra :=
      match format with
      | .i => (value.setWidth 16).signExtend 32
      | .r => value >>> 6 &&& 0x1f
      | .j => value &&& 0x3ffffff
    opCode :=
      match info with
      | .op opCode => opCode
      | .special => specialTable.getD (value &&& 0x3f).toNat .res
      | .bcond =>
        let i := value &&& 0x1f0000
        if i = 0 then .bltz
        else if i = 0x10000 then .bgez
        else if i = 0x100000 then .bltzal
        else if i = 0x110000 then .bgezal
        else .unimp }

end Instruction

/-- `enum ExceptionType`: those of a memory access, and those of the
instructions themselves. -/
inductive Trap
  | memory (which : ExceptionType)
  | overflow
  | illegalInstr
  | syscall
  deriving DecidableEq

/-- The processor and the memory. -/
structure Cpu where
  registers : Registers
  memory : Vm

/-- `Machine::DelayedLoad`. -/
def Registers.delayedLoad (r : Registers) (nextReg nextValue : BitVec 32) :
    Except Abort Registers :=
  if h : (r Reg.load).toNat < numTotalRegs then
    let r := r.write ⟨_, h⟩ (r Reg.loadValue)
    let r := r.write Reg.load nextReg
    let r := r.write Reg.loadValue nextValue
    .ok (r.write Reg.zero 0)
  else .error .undefined

/-- The loop of `Mult`, with `n` rounds to go. -/
def multLoop : Nat → (a bLo bHi lo hi : BitVec 32) → BitVec 32 × BitVec 32
  | 0, _, _, _, lo, hi => (hi, lo)
  | n + 1, a, bLo, bHi, lo, hi =>
    let odd : Bool := a &&& 1 ≠ 0
    let sum := lo + bLo
    let carry := (if sum < bLo then hi + 1 else hi) + bHi
    if odd && a &&& 0xfffffffe = 0 then (carry, sum)
    else
      let bHi := if bLo &&& 0x80000000 ≠ 0 then bHi <<< 1 ||| 1 else bHi <<< 1
      multLoop n (a.sshiftRight 1) (bLo <<< 1) bHi (if odd then sum else lo)
        (if odd then carry else hi)

/-- `Mult`: `*hiPtr` and `*loPtr`. -/
def mult (a b : BitVec 32) (signedArith : Bool) : BitVec 32 × BitVec 32 :=
  if a = 0 ∨ b = 0 then (0, 0)
  else
    let negative := signedArith && (a.msb != b.msb)
    let a := if signedArith && a.msb then -a else a
    let b := if signedArith && b.msb then -b else b
    let (hi, lo) := multLoop 32 a b 0 0 0
    if negative then
      let lo := ~~~ lo + 1
      (if lo = 0 then ~~~ hi + 1 else ~~~ hi, lo)
    else (hi, lo)

/-- `IndexToAddr`. -/
def indexToAddr (x : BitVec 32) : BitVec 32 := x <<< 2

/-- The cases of the switch of `OneInstruction` that do not access memory: the
registers and `pcAfter`, or the exception that is raised. -/
def operate (instr : Instruction) (r : Registers) :
    Except Abort (Registers × Except Trap (BitVec 32)) :=
  let rs := r instr.rs
  let rt := r instr.rt
  let next := r Reg.nextPC
  let jump (r : Registers) (pcAfter : BitVec 32) := .ok (r, .ok pcAfter)
  let branch (r : Registers) (taken : Bool) :=
    jump r (if taken then next + indexToAddr instr.extra else next + 4)
  let setRd (v : BitVec 32) := jump (r.write instr.rd v) (next + 4)
  let setRt (v : BitVec 32) := jump (r.write instr.rt v) (next + 4)
  let setHiLo (hi lo : BitVec 32) := jump ((r.write Reg.hi hi).write Reg.lo lo) (next + 4)
  let raise (which : Trap) := .ok (r, .error which)
  match instr.opCode with
  | .add =>
    let sum := rs + rt
    if !(rs ^^^ rt).msb && (rs ^^^ sum).msb then raise .overflow else setRd sum
  | .addi =>
    let sum := rs + instr.extra
    if !(rs ^^^ instr.extra).msb && (instr.extra ^^^ sum).msb then raise .overflow else setRt sum
  | .addiu => setRt (rs + instr.extra)
  | .addu => setRd (rs + rt)
  | .and => setRd (rs &&& rt)
  | .andi => setRt (rs &&& (instr.extra &&& 0xffff))
  | .beq => branch r (rs == rt)
  | .bgezal =>
    let r := r.write Reg.retAddr (next + 4)
    branch r (!(r instr.rs).msb)
  | .bgez => branch r (!rs.msb)
  | .bgtz => branch r (BitVec.slt 0 rs)
  | .blez => branch r (rs.sle 0)
  | .bltzal =>
    let r := r.write Reg.retAddr (next + 4)
    branch r (r instr.rs).msb
  | .bltz => branch r rs.msb
  | .bne => branch r (rs != rt)
  | .div =>
    if rt = 0 then setHiLo 0 0
    else do
      -- The only quotient that is not an `int`.
      defined (¬ (rs = 0x80000000 ∧ rt = -1))
      setHiLo (rs.srem rt) (rs.sdiv rt)
  | .divu => if rt = 0 then setHiLo 0 0 else setHiLo (rs % rt) (rs / rt)
  | .jal => jump (r.write Reg.retAddr (next + 4))
      ((next + 4) &&& 0xf0000000 ||| indexToAddr instr.extra)
  | .j => jump r ((next + 4) &&& 0xf0000000 ||| indexToAddr instr.extra)
  | .jalr =>
    let r := r.write instr.rd (next + 4)
    jump r (r instr.rs)
  | .jr => jump r rs
  | .lui => setRt (instr.extra <<< 16)
  | .mfhi => setRd (r Reg.hi)
  | .mflo => setRd (r Reg.lo)
  | .mthi => jump (r.write Reg.hi rs) (next + 4)
  | .mtlo => jump (r.write Reg.lo rs) (next + 4)
  | .mult => setHiLo (mult rs rt true).1 (mult rs rt true).2
  | .multu => setHiLo (mult rs rt false).1 (mult rs rt false).2
  | .nor => setRd (~~~ (rs ||| rt))
  | .or => setRd (rs ||| rt)
  | .ori => setRt (rs ||| (instr.extra &&& 0xffff))
  | .sll => setRd (rt <<< instr.extra.toNat)
  | .sllv => setRd (rt <<< (rs &&& 0x1f).toNat)
  | .slt => setRd (if rs.slt rt then 1 else 0)
  | .slti => setRt (if rs.slt instr.extra then 1 else 0)
  | .sltiu => setRt (if rs < instr.extra then 1 else 0)
  | .sltu => setRd (if rs < rt then 1 else 0)
  | .sra => setRd (rt.sshiftRight instr.extra.toNat)
  | .srav => setRd (rt.sshiftRight (rs &&& 0x1f).toNat)
  -- `tmp` is an `int`: the shift is arithmetic here too.
  | .srl => setRd (rt.sshiftRight instr.extra.toNat)
  | .srlv => setRd (rt.sshiftRight (rs &&& 0x1f).toNat)
  | .sub =>
    let diff := rs - rt
    if (rs ^^^ rt).msb && (rs ^^^ diff).msb then raise .overflow else setRd diff
  | .subu => setRd (rs - rt)
  | .syscall => raise .syscall
  | .xor => setRd (rs ^^^ rt)
  | .xori => setRt (rs ^^^ (instr.extra &&& 0xffff))
  | .res | .unimp => raise .illegalInstr
  | _ => .error .assert

/-- What `LWL` makes of the register `old` and the word `value`. -/
def mergeLeft (byte old value : BitVec 32) : BitVec 32 :=
  match (3 - byte).toNat with
  | 0 => value
  | 1 => old &&& 0xff ||| value <<< 8
  | 2 => old &&& 0xffff ||| value <<< 16
  | _ => old &&& 0xffffff ||| value <<< 24

/-- What `LWR` makes of them. -/
def mergeRight (byte old value : BitVec 32) : BitVec 32 :=
  match (3 - byte).toNat with
  | 0 => old &&& 0xffffff00 ||| value >>> 24
  | 1 => old &&& 0xffff0000 ||| value >>> 16
  | 2 => old &&& 0xff000000 ||| value >>> 8
  | _ => value

/-- What `SWL` stores of the register `rt` in the word `value`. -/
def storeLeft (byte rt value : BitVec 32) : BitVec 32 :=
  match (3 - byte).toNat with
  | 0 => rt
  | 1 => value &&& 0xff000000 ||| rt >>> 8
  | 2 => value &&& 0xffff0000 ||| rt >>> 16
  | _ => value &&& 0xffffff00 ||| rt >>> 24

/-- What `SWR` stores. -/
def storeRight (byte rt value : BitVec 32) : BitVec 32 :=
  match (3 - byte).toNat with
  | 0 => value &&& 0xffffff ||| rt <<< 24
  | 1 => value &&& 0xffff ||| rt <<< 16
  | 2 => value &&& 0xff ||| rt <<< 8
  | _ => rt

/-- The register that `LWL` and `LWR` merge into: the load that is pending for
it, if there is one. -/
def forwarded (r : Registers) (rt : Reg) : BitVec 32 :=
  if (r Reg.load).toInt = rt.val then r Reg.loadValue else r rt

section
variable (cfg : Config) (env : Env)

/-- `Machine::ReadMem` without `RaiseException`. -/
def Vm.load (s : Vm) (addr : Int) (size : Nat) :
    Except Abort (Vm × Except ExceptionType (BitVec 32)) := do
  let (s, r) ← s.translate cfg env addr size false
  match r with
  | .error e => return (s, .error e)
  | .ok physAddr =>
    assert (size = 1 ∨ size = 2 ∨ size = 4)
    let data ← s.fetch physAddr size
    return (s, .ok (BitVec.ofInt 32 (value data)))

/-- `Machine::WriteMem` without `RaiseException`. -/
def Vm.save (s : Vm) (addr : Int) (size : Nat) (v : BitVec 32) :
    Except Abort (Vm × Except ExceptionType Unit) := do
  let (s, r) ← s.translate cfg env addr size true
  match r with
  | .error e => return (s, .error e)
  | .ok physAddr =>
    assert (size = 1 ∨ size = 2 ∨ size = 4)
    let s ← s.store physAddr (bytes size v.toInt)
    return (s, .ok ())

/-- The state after an instruction, or the one in which `ExceptionHandler` is
called, with the exception. -/
abbrev Ended := Cpu × Option Trap

namespace Cpu

/-- `Machine::RaiseException`, up to `ExceptionHandler`. -/
def raiseException (c : Cpu) (which : Trap) (badVAddr : BitVec 32) : Except Abort Ended := do
  let r ← (c.registers.write Reg.badVAddr badVAddr).delayedLoad 0 0
  return ({ c with registers := r }, some which)

/-- The end of `OneInstruction`. -/
def advance (c : Cpu) (pcAfter nextLoadReg nextLoadValue : BitVec 32) : Except Abort Ended := do
  let r ← c.registers.delayedLoad nextLoadReg nextLoadValue
  let r := r.write Reg.prevPC (r Reg.pc)
  let r := r.write Reg.pc (r Reg.nextPC)
  return ({ c with registers := r.write Reg.nextPC pcAfter }, none)

/-- `if (!ReadMem(addr, size, &value)) return;` and the rest. -/
def readMem (c : Cpu) (addr : BitVec 32) (size : Nat) (rest : Cpu → BitVec 32 → Except Abort Ended) :
    Except Abort Ended := do
  let (m, x) ← c.memory.load cfg env addr.toInt size
  let c := { c with memory := m }
  match x with
  | .error which => c.raiseException (.memory which) addr
  | .ok value => rest c value

/-- `if (!WriteMem(addr, size, value)) return;` and the rest. -/
def writeMem (c : Cpu) (addr : BitVec 32) (size : Nat) (value : BitVec 32)
    (rest : Cpu → Except Abort Ended) : Except Abort Ended := do
  let (m, x) ← c.memory.save cfg env addr.toInt size value
  let c := { c with memory := m }
  match x with
  | .error which => c.raiseException (.memory which) addr
  | .ok () => rest c

/-- The switch of `OneInstruction` and what follows it. -/
def execute (c : Cpu) (instr : Instruction) : Except Abort Ended :=
  let r := c.registers
  let pcAfter := r Reg.nextPC + 4
  let tmp := r instr.rs + instr.extra
  let byte := tmp &&& 3
  let load (c : Cpu) (value : BitVec 32) := c.advance pcAfter (.ofNat 32 instr.rt) value
  let done (c : Cpu) := c.advance pcAfter 0 0
  match instr.opCode with
  | .lb => c.readMem cfg env tmp 1 fun c value =>
      load c (if value &&& 0x80 ≠ 0 then value ||| 0xffffff00 else value &&& 0xff)
  | .lbu => c.readMem cfg env tmp 1 fun c value => load c (value &&& 0xff)
  | .lh =>
    if tmp &&& 1 ≠ 0 then c.raiseException (.memory .addressError) tmp
    else c.readMem cfg env tmp 2 fun c value =>
      load c (if value &&& 0x8000 ≠ 0 then value ||| 0xffff0000 else value &&& 0xffff)
  | .lhu =>
    if tmp &&& 1 ≠ 0 then c.raiseException (.memory .addressError) tmp
    else c.readMem cfg env tmp 2 fun c value => load c (value &&& 0xffff)
  | .lw =>
    if tmp &&& 3 ≠ 0 then c.raiseException (.memory .addressError) tmp
    else c.readMem cfg env tmp 4 load
  | .lwl => c.readMem cfg env (tmp - byte) 4 fun c value =>
      load c (mergeLeft byte (forwarded c.registers instr.rt) value)
  | .lwr => c.readMem cfg env (tmp - byte) 4 fun c value =>
      load c (mergeRight byte (forwarded c.registers instr.rt) value)
  | .sb => c.writeMem cfg env tmp 1 (r instr.rt) done
  | .sh => c.writeMem cfg env tmp 2 (r instr.rt) done
  | .sw => c.writeMem cfg env tmp 4 (r instr.rt) done
  | .swl => c.readMem cfg env (tmp - byte) 4 fun c value =>
      c.writeMem cfg env (tmp - byte) 4 (storeLeft byte (c.registers instr.rt) value) done
  | .swr => c.readMem cfg env (tmp - byte) 4 fun c value =>
      c.writeMem cfg env (tmp - byte) 4 (storeRight byte (c.registers instr.rt) value) done
  | _ => do
    let (r, x) ← operate instr r
    let c := { c with registers := r }
    match x with
    | .error which => c.raiseException which 0
    | .ok pcAfter => c.advance pcAfter 0 0

/-- `Machine::OneInstruction`. -/
def oneInstruction (c : Cpu) : Except Abort Ended :=
  c.readMem cfg env (c.registers Reg.pc) 4 fun c raw => c.execute cfg env (.decode raw)

end Cpu

end

end Nachos
