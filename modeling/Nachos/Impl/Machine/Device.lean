import Nachos.Impl.Machine.Disk

/-!
# Devices

The disk of `machine/disk.cc` and the display of `machine/console.cc`: a request
is refused while another is in progress, and schedules the interrupt that will
end it. The keyboard of `machine/console.cc` looks for input when an interrupt that
it has scheduled comes. The latency and the statistics are left out.
-/

namespace Nachos

/-- A device: what a request and the interrupt at its end do. `R` are the requests
and `O` what they return at once. -/
structure Device (R O D : Type) where
  request : D → R → Except Abort (D × O)
  callBack : D → D

/-- `class Disk`. -/
structure DiskDevice where
  active : Bool
  sectors : Disk

inductive DiskRequest
  | read (sectorNumber : Int)
  | write (sectorNumber : Int) (data : List Byte)
  deriving DecidableEq

namespace DiskDevice

/-- `Disk::ReadRequest`. -/
def readRequest (d : DiskDevice) (sectorNumber : Int) : Except Abort (DiskDevice × List Byte) := do
  assert (d.active = false)
  let data ← d.sectors.readSector sectorNumber
  return ({ d with active := true }, data)

/-- `Disk::WriteRequest`. -/
def writeRequest (d : DiskDevice) (sectorNumber : Int) (data : List Byte) :
    Except Abort (DiskDevice × List Byte) := do
  assert (d.active = false)
  let sectors ← d.sectors.writeSector sectorNumber data
  return (⟨true, sectors⟩, [])

/-- `Disk::CallBack`, before it calls `callWhenDone`. -/
def callBack (d : DiskDevice) : DiskDevice := { d with active := false }

def device : Device DiskRequest (List Byte) DiskDevice where
  request d
    | .read sectorNumber => d.readRequest sectorNumber
    | .write sectorNumber data => d.writeRequest sectorNumber data
  callBack := callBack

end DiskDevice

/-- `class ConsoleOutput`, and what was written to the file. -/
structure ConsoleOutput where
  putBusy : Bool
  file : List Byte

namespace ConsoleOutput

/-- `ConsoleOutput::PutChar`. -/
def putChar (d : ConsoleOutput) (ch : Byte) : Except Abort (ConsoleOutput × Unit) := do
  assert (d.putBusy = false)
  return (⟨true, d.file ++ [ch]⟩, ())

/-- `ConsoleOutput::CallBack`, before it calls `callWhenDone`. -/
def callBack (d : ConsoleOutput) : ConsoleOutput := { d with putBusy := false }

def device : Device Byte Unit ConsoleOutput := ⟨putChar, callBack⟩

end ConsoleOutput

/-- `EOF`. -/
def eof : Int := -1

/-- `class ConsoleInput`, the number of its interrupts that are scheduled, and what is
left of the file. A `char` is signed. -/
structure ConsoleInput where
  incoming : Byte
  polls : Nat
  file : List Byte

namespace ConsoleInput

/-- `ConsoleInput::ConsoleInput`. -/
def new (file : List Byte) : ConsoleInput := ⟨BitVec.ofInt 8 eof, 1, file⟩

/-- `ConsoleInput::CallBack` where `PollFile` returns `ready`: what it does when one was
scheduled, and whether it calls `callWhenAvail`. -/
def callBack (d : ConsoleInput) (ready : Bool) : Except Abort (ConsoleInput × Bool) := do
  assert (d.incoming.toInt = eof)
  if ready then
    match d.file with
    | [] => return ({ d with polls := d.polls - 1 }, true)
    | c :: file => return (⟨c, d.polls - 1, file⟩, true)
  else return ({ d with polls := d.polls - 1 + 1 }, false)

/-- `ConsoleInput::GetChar`. -/
def getChar (d : ConsoleInput) : ConsoleInput × Byte :=
  ({ d with
    incoming := BitVec.ofInt 8 eof
    polls := if d.incoming.toInt ≠ eof then d.polls + 1 else d.polls }, d.incoming)

end ConsoleInput

end Nachos
