import Nachos.Impl.Machine.Device
import Nachos.Impl.Threads.Sync

/-!
# Synchronous drivers

`SynchDisk::ReadSector` and `WriteSector` of `filesys/synchdisk.cc` and
`SynchConsoleOutput::PutChar` of `userprog/synchconsole.cc` are the same code over
a device: with the lock held they make the request and wait for the semaphore
that the device's interrupt calls `V` of. Requests, interrupts, the return of `P`
and of the call are logged. `SynchConsoleInput::GetChar` waits for input first, and
the characters it returns are logged.
-/

namespace Nachos

inductive DriverEvent (T R O : Type)
  | request (t : T) (r : R) (o : O)
  | callBack
  | woken (t : T)
  | ret (t : T)
  deriving DecidableEq

/-- What a call does besides the lock and the semaphore. -/
inductive DriverAct (R : Type)
  | request (r : R)
  | woken
  | ret

/-- The device, the number of its interrupts that are scheduled, and the log. -/
structure Driver (T R O D : Type) where
  device : D
  pending : Nat
  log : List (DriverEvent T R O)

abbrev DriverStmt (R : Type) := SyncStmt Unit Unit (DriverAct R)

namespace Driver

variable {T R O D : Type} [DecidableEq T]

def act (dev : Device R O D) (t : T) (d : Driver T R O D) : DriverAct R → Except Abort (Driver T R O D)
  | .request r => do
    let (x, o) ← dev.request d.device r
    return ⟨x, d.pending + 1, d.log ++ [.request t r o]⟩
  | .woken => return { d with log := d.log ++ [.woken t] }
  | .ret => return { d with log := d.log ++ [.ret t] }

/-- The device's `CallBack`, which calls the driver's: `V`. -/
def interrupt (dev : Device R O D) (_ : Unit) (d : Driver T R O D) :
    Except Abort (Option (Driver T R O D × Option Unit)) :=
  if d.pending = 0 then return none
  else return some (⟨dev.callBack d.device, d.pending - 1, d.log ++ [.callBack]⟩, some ())

/-- `SynchDisk::ReadSector`, `SynchDisk::WriteSector`, `SynchConsoleOutput::PutChar`. -/
def call (r : R) : List (DriverStmt R) :=
  Sync.acquire () ++ [.act (.request r), .p (), .act .woken] ++ Sync.release () ++ [.act .ret]

abbrev Config (T R O D : Type) :=
  Framework.Threads.Config (Sync T Unit Unit (Driver T R O D)) (List (DriverStmt R)) T

/-- Thread `t` makes the calls `calls t`. -/
def start (d : D) (calls : T → List R) : Config T R O D :=
  Sync.start (fun _ => 0) ⟨d, 0, []⟩ fun t => ((calls t).map call).flatten

/-- A step of a thread, or the device's interrupt. -/
def next (dev : Device R O D) (c : Config T R O D) (j : T ⊕ Unit) : Except Abort (Config T R O D) :=
  Sync.next (act dev) (interrupt dev) c j

end Driver

/-- The keyboard, and the characters that calls of `GetChar` returned. -/
structure SynchConsoleInput (T : Type) where
  consoleInput : ConsoleInput
  got : List (T × Byte)

abbrev GetCharStmt := SyncStmt Unit Unit Unit

namespace SynchConsoleInput

variable {T : Type} [DecidableEq T]

/-- `consoleInput->GetChar()`. -/
def act (t : T) (d : SynchConsoleInput T) (_ : Unit) : Except Abort (SynchConsoleInput T) :=
  return ⟨d.consoleInput.getChar.1, d.got ++ [(t, d.consoleInput.getChar.2)]⟩

/-- `ConsoleInput::CallBack`, which calls `SynchConsoleInput::CallBack`: `V`. -/
def interrupt (ready : Bool) (d : SynchConsoleInput T) :
    Except Abort (Option (SynchConsoleInput T × Option Unit)) :=
  if d.consoleInput.polls = 0 then return none
  else do
    let (x, b) ← d.consoleInput.callBack ready
    return some ({ d with consoleInput := x }, if b then some () else none)

/-- `SynchConsoleInput::GetChar`. -/
def getChar : List GetCharStmt :=
  Sync.acquire () ++ [.p (), .act ()] ++ Sync.release ()

abbrev Config (T : Type) :=
  Framework.Threads.Config (Sync T Unit Unit (SynchConsoleInput T)) (List GetCharStmt) T

/-- Thread `t` makes `calls t` calls. -/
def start (file : List Byte) (calls : T → Nat) : Config T :=
  Sync.start (fun _ => 0) ⟨.new file, []⟩ fun t => (List.replicate (calls t) getChar).flatten

/-- A step of a thread, or an interrupt of the keyboard. -/
def next (c : Config T) (j : T ⊕ Bool) : Except Abort (Config T) := Sync.next act interrupt c j

end SynchConsoleInput

end Nachos
