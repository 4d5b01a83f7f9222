import Mathlib.Logic.Function.Basic

/-!
# The processor's registers

`registers[NumTotalRegs]` of `machine/machine.h`: the general registers of MIPS
and those that hold what is pending between two instructions.
-/

namespace Nachos

/-- `NumTotalRegs`. -/
def numTotalRegs : Nat := 40

/-- The index of a register. -/
abbrev Reg := Fin numTotalRegs

/-- `machine->registers`. -/
abbrev Registers := Reg → BitVec 32

namespace Reg

/-- `R0`, which stays zero. -/
def zero : Reg := (0 : Fin 40)

/-- `StackReg`. -/
def stack : Reg := (29 : Fin 40)

/-- `RetAddrReg`. -/
def retAddr : Reg := (31 : Fin 40)

/-- `HiReg`. -/
def hi : Reg := (32 : Fin 40)

/-- `LoReg`. -/
def lo : Reg := (33 : Fin 40)

/-- `PCReg`. -/
def pc : Reg := (34 : Fin 40)

/-- `NextPCReg`. -/
def nextPC : Reg := (35 : Fin 40)

/-- `PrevPCReg`. -/
def prevPC : Reg := (36 : Fin 40)

/-- `LoadReg`. -/
def load : Reg := (37 : Fin 40)

/-- `LoadValueReg`. -/
def loadValue : Reg := (38 : Fin 40)

/-- `BadVAddrReg`. -/
def badVAddr : Reg := (39 : Fin 40)

end Reg

/-- `Machine::WriteRegister`. -/
def Registers.write (r : Registers) (i : Reg) (v : BitVec 32) : Registers := Function.update r i v

end Nachos
