import Nachos.Framework.Memory

/-!
# Machine-dependent context switch

`SWITCH` and `ThreadRoot` of `threads/switch.s` for the x86, in AT&T order, with the
offsets and register names of `threads/switch.h`, and `Thread::StackAllocate`. The
instructions are those that this code uses.

A call runs code that is not here. It returns as the C calling convention says
(`Returns`), or never.
-/

namespace Nachos

open Framework

namespace X86

/-- The general registers. -/
inductive Gpr
  | eax
  | ebx
  | ecx
  | edx
  | esi
  | edi
  | ebp
  | esp
  deriving DecidableEq

/-- The processor and memory. -/
structure State where
  eax : BitVec 32
  ebx : BitVec 32
  ecx : BitVec 32
  edx : BitVec 32
  esi : BitVec 32
  edi : BitVec 32
  ebp : BitVec 32
  esp : BitVec 32
  eip : BitVec 32
  memory : Memory

/-- `r`, `disp(base)`, or a symbol. -/
inductive Operand
  | reg (r : Gpr)
  | at (disp : Nat) (base : Gpr)
  | sym (address : BitVec 32)

/-- The instructions; `call` is indirect. -/
inductive Instr
  | movl (src dst : Operand)
  | pushl (r : Gpr)
  | popl (r : Gpr)
  | call (r : Gpr)
  | ret

namespace State

def get (s : State) : Gpr → BitVec 32
  | .eax => s.eax
  | .ebx => s.ebx
  | .ecx => s.ecx
  | .edx => s.edx
  | .esi => s.esi
  | .edi => s.edi
  | .ebp => s.ebp
  | .esp => s.esp

def set (s : State) (v : BitVec 32) : Gpr → State
  | .eax => { s with eax := v }
  | .ebx => { s with ebx := v }
  | .ecx => { s with ecx := v }
  | .edx => { s with edx := v }
  | .esi => { s with esi := v }
  | .edi => { s with edi := v }
  | .ebp => { s with ebp := v }
  | .esp => { s with esp := v }

def load (s : State) : Operand → BitVec 32
  | .reg r => s.get r
  | .at disp base => s.memory.read (s.get base + BitVec.ofNat 32 disp)
  | .sym a => s.memory.read a

def store (s : State) (v : BitVec 32) : Operand → State
  | .reg r => s.set v r
  | .at disp base => { s with memory := s.memory.write (s.get base + BitVec.ofNat 32 disp) v }
  | .sym a => { s with memory := s.memory.write a v }

def push (s : State) (v : BitVec 32) : State :=
  { s with esp := s.esp - 4, memory := s.memory.write (s.esp - 4) v }

/-- An instruction; the next one is at `next`. -/
def step (s : State) (next : BitVec 32) : Instr → State
  | .movl src dst => { s.store (s.load src) dst with eip := next }
  | .pushl r => { s.push (s.get r) with eip := next }
  | .popl r => { { s with esp := s.esp + 4 }.set (s.memory.read s.esp) r with eip := next }
  | .call r => { s.push next with eip := s.get r }
  | .ret => { s with esp := s.esp + 4, eip := s.memory.read s.esp }

/-- Instructions one after the other; the `i`th one is at `text i`. -/
def run (text : Nat → BitVec 32) : Nat → State → List Instr → State
  | _, s, [] => s
  | i, s, c :: cs => run text (i + 1) (s.step (text (i + 1)) c) cs

/-- The routine that was called in `entry` has returned, in `s`. It keeps the registers
that a routine keeps, and of its caller's frame all but the `params` bytes of its
parameters. -/
structure Returns (params frame : Nat) (entry s : State) : Prop where
  eip : s.eip = entry.memory.read entry.esp
  esp : s.esp = entry.esp + 4
  ebx : s.ebx = entry.ebx
  esi : s.esi = entry.esi
  edi : s.edi = entry.edi
  ebp : s.ebp = entry.ebp
  frame : ∀ a, Memory.Within (entry.esp + 4 + BitVec.ofNat 32 params) (frame - params) a →
    s.memory a = entry.memory a

/-- Instructions with calls: the states in which they enter routines, and where they
are: at the end, or in a routine, maybe for ever. `params` are the bytes of the
parameters that the routine at an address has, and the caller's frame has 8 bytes. -/
inductive Exec (text : Nat → BitVec 32) (params : BitVec 32 → Nat) :
    Nat → State → List Instr → List State → State → Prop
  | done {i : Nat} {s : State} : Exec text params i s [] [] s
  | step {i : Nat} {s s' : State} {c : Instr} {cs : List Instr} {es : List State}
      (hc : ∀ r, c ≠ .call r) (h : Exec text params (i + 1) (s.step (text (i + 1)) c) cs es s') :
      Exec text params i s (c :: cs) es s'
  | inside {i : Nat} {s : State} {r : Gpr} {cs : List Instr} (entry : State)
      (he : entry = s.step (text (i + 1)) (.call r)) :
      Exec text params i s (.call r :: cs) [entry] entry
  | returned {i : Nat} {s s₁ s' : State} {r : Gpr} {cs : List Instr} {es : List State}
      (entry : State) (he : entry = s.step (text (i + 1)) (.call r))
      (hr : Returns (params entry.eip) 8 entry s₁) (h : Exec text params (i + 1) s₁ cs es s') :
      Exec text params i s (.call r :: cs) (entry :: es) s'

end State

end X86

open X86

/-- `_ESP`. -/
def offESP : Nat := 0
/-- `_EAX`. -/
def offEAX : Nat := 4
/-- `_EBX`. -/
def offEBX : Nat := 8
/-- `_ECX`. -/
def offECX : Nat := 12
/-- `_EDX`. -/
def offEDX : Nat := 16
/-- `_EBP`. -/
def offEBP : Nat := 20
/-- `_ESI`. -/
def offESI : Nat := 24
/-- `_EDI`. -/
def offEDI : Nat := 28
/-- `_PC`. -/
def offPC : Nat := 32

/-- `InitialPC`. -/
def initialPC : Gpr := .esi
/-- `InitialArg`. -/
def initialArg : Gpr := .edx
/-- `WhenDonePC`. -/
def whenDonePC : Gpr := .edi
/-- `StartupPC`. -/
def startupPC : Gpr := .ecx

/-- `SWITCH`; `save` is the address of `_eax_save`. -/
def switchCode (save : BitVec 32) : List Instr := [
  .movl (.reg .eax) (.sym save),
  .movl (.at 4 .esp) (.reg .eax),
  .movl (.reg .ebx) (.at offEBX .eax),
  .movl (.reg .ecx) (.at offECX .eax),
  .movl (.reg .edx) (.at offEDX .eax),
  .movl (.reg .esi) (.at offESI .eax),
  .movl (.reg .edi) (.at offEDI .eax),
  .movl (.reg .ebp) (.at offEBP .eax),
  .movl (.reg .esp) (.at offESP .eax),
  .movl (.sym save) (.reg .ebx),
  .movl (.reg .ebx) (.at offEAX .eax),
  .movl (.at 0 .esp) (.reg .ebx),
  .movl (.reg .ebx) (.at offPC .eax),
  .movl (.at 8 .esp) (.reg .eax),
  .movl (.at offEAX .eax) (.reg .ebx),
  .movl (.reg .ebx) (.sym save),
  .movl (.at offEBX .eax) (.reg .ebx),
  .movl (.at offECX .eax) (.reg .ecx),
  .movl (.at offEDX .eax) (.reg .edx),
  .movl (.at offESI .eax) (.reg .esi),
  .movl (.at offEDI .eax) (.reg .edi),
  .movl (.at offEBP .eax) (.reg .ebp),
  .movl (.at offESP .eax) (.reg .esp),
  .movl (.at offPC .eax) (.reg .eax),
  .movl (.reg .eax) (.at 4 .esp),
  .movl (.sym save) (.reg .eax),
  .ret]

/-- `ThreadRoot`. -/
def threadRootCode : List Instr := [
  .pushl .ebp,
  .movl (.reg .esp) (.reg .ebp),
  .pushl initialArg,
  .call startupPC,
  .call initialPC,
  .call whenDonePC,
  .movl (.reg .ebp) (.reg .esp),
  .popl .ebp,
  .ret]

/-- `StackSize`, in words. -/
def stackSize : Nat := 8 * 1024

/-- `STACK_FENCEPOST`. -/
def stackFencepost : BitVec 32 := 0xdedbeef

/-- The addresses of the routines that `StackAllocate` names. -/
structure Symbols where
  threadRoot : BitVec 32
  threadBegin : BitVec 32
  threadFinish : BitVec 32

/-- `stackTop = stack + StackSize - 4`, less the word for `ThreadRoot`. -/
def stackTop (stack : BitVec 32) : BitVec 32 := stack + BitVec.ofNat 32 (4 * (stackSize - 4) - 4)

/-- `Thread::StackAllocate`, for the thread at `tcb`, with the array `stack`. -/
def stackAllocate (sym : Symbols) (m : Memory) (tcb stack func arg : BitVec 32) : Memory :=
  let m := m.write (stackTop stack) sym.threadRoot
  let m := m.write (tcb + BitVec.ofNat 32 offESP) (stackTop stack)
  let m := m.write (stack + BitVec.ofNat 32 0) stackFencepost
  let m := m.write (tcb + BitVec.ofNat 32 offPC) sym.threadRoot
  let m := m.write (tcb + BitVec.ofNat 32 offECX) sym.threadBegin
  let m := m.write (tcb + BitVec.ofNat 32 offESI) func
  let m := m.write (tcb + BitVec.ofNat 32 offEDX) arg
  m.write (tcb + BitVec.ofNat 32 offEDI) sym.threadFinish

end Nachos
