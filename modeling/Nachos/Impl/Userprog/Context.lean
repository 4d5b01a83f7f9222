import Nachos.Impl.Machine.Machine
import Nachos.Impl.Machine.Translate

/-!
# The user context of a thread

What `Scheduler::Run` saves before `SWITCH` and restores behind it:
`Thread::SaveUserState` and `RestoreUserState` of `threads/thread.cc`, and
`SaveState`, `RestoreState` and `InitRegisters` of `userprog/addrspace.cc`. With
`USE_RPT` (`useRPT`) there is one page table, and the two leave it alone.

`A` are pointers to page tables, `F` to open files, and `H` is `NoffHeader`.
-/

namespace Nachos

variable {A F H : Type}

/-- `class AddrSpace`, as far as a switch reads and writes it. -/
structure SpaceState (A F H : Type) where
  pt : A
  numPages : Int
  currentOpenedFile : F
  currentNoffHeader : H

/-- The registers and the fields of `class Machine` that belong to a thread. -/
structure Processor (A F H : Type) where
  registers : Registers
  pt : A
  pageTableSize : Int
  currentOpenedFile : F
  currentNoffHeader : H

/-- The fields of `class Thread` for user programs. -/
structure UserContext (A F H : Type) where
  userRegisters : Registers
  space : Option (SpaceState A F H)

/-- `AddrSpace::SaveState`. -/
def SpaceState.saveState (useRPT : Bool) (m : Processor A F H) (sp : SpaceState A F H) :
    SpaceState A F H where
  pt := if useRPT then sp.pt else m.pt
  numPages := if useRPT then sp.numPages else m.pageTableSize
  currentOpenedFile := m.currentOpenedFile
  currentNoffHeader := m.currentNoffHeader

/-- `AddrSpace::RestoreState`. -/
def SpaceState.restoreState (useRPT : Bool) (sp : SpaceState A F H) (m : Processor A F H) :
    Processor A F H where
  registers := m.registers
  pt := if useRPT then m.pt else sp.pt
  pageTableSize := if useRPT then m.pageTableSize else sp.numPages
  currentOpenedFile := sp.currentOpenedFile
  currentNoffHeader := sp.currentNoffHeader

/-- `AddrSpace::InitRegisters`. -/
def SpaceState.initRegisters (sp : SpaceState A F H) : Registers :=
  let r : Registers := fun _ => 0
  let r := r.write Reg.pc 0
  let r := r.write Reg.nextPC 4
  r.write Reg.stack (BitVec.ofInt 32 (sp.numPages * pageSize - 16))

/-- `Scheduler::Run`, before `SWITCH`. -/
def UserContext.save (useRPT : Bool) (m : Processor A F H) (u : UserContext A F H) :
    UserContext A F H :=
  match u.space with
  | none => u
  | some sp => ⟨m.registers, some (sp.saveState useRPT m)⟩

/-- `Scheduler::Run`, behind `SWITCH` and `CheckToBeDestroyed`. -/
def UserContext.restore (useRPT : Bool) (u : UserContext A F H) (m : Processor A F H) :
    Processor A F H :=
  match u.space with
  | none => m
  | some sp => sp.restoreState useRPT { m with registers := u.userRegisters }

/-- `AddrSpace::Execute`, up to `machine->Run`. -/
def SpaceState.execute (useRPT : Bool) (sp : SpaceState A F H) (u : UserContext A F H)
    (m : Processor A F H) : UserContext A F H × Processor A F H :=
  ({ u with space := some sp }, sp.restoreState useRPT { m with registers := sp.initRegisters })

end Nachos
