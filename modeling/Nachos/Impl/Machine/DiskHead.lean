import Nachos.Impl.Machine.Disk

/-!
# The disk head

How long a request takes: `Disk::TimeToSeek`, `ModuloDiff`, `ComputeLatency` and
`UpdateLast` of `machine/disk.cc`, with the track buffer. `totalTicks` is
`kernel->stats->totalTicks`.
-/

namespace Nachos

/-- `SectorsPerTrack`. -/
def sectorsPerTrack : Int := 32

/-- `RotationTime`. -/
def rotationTime : Int := 500

/-- `SeekTime`. -/
def seekTime : Int := 500

/-- `class Disk`, without the file and `active`: the previous request, and when
the track buffer started being loaded. -/
structure DiskHead where
  lastSector : Int
  bufferInit : Int

namespace DiskHead

/-- `Disk::Disk`. -/
def new : DiskHead := ⟨0, 0⟩

/-- `Disk::TimeToSeek`: the time of the seek, and `*rotation`. -/
def timeToSeek (d : DiskHead) (totalTicks newSector : Int) : Except Abort (Int × Int) := do
  let newTrack := newSector.tdiv sectorsPerTrack
  let oldTrack := d.lastSector.tdiv sectorsPerTrack
  let seek ← i32 ((newTrack - oldTrack).natAbs * seekTime)
  let after ← i32 (totalTicks + seek)
  let over' := after.tmod rotationTime
  return (seek, if over' > 0 then rotationTime - over' else 0)

/-- `Disk::ModuloDiff`. -/
def moduloDiff (toSector fromSector : Int) : Int :=
  let toOffset := toSector.tmod sectorsPerTrack
  let fromOffset := fromSector.tmod sectorsPerTrack
  ((toOffset - fromOffset) + sectorsPerTrack).tmod sectorsPerTrack

/-- Whether the track buffer applies, the `if` of `Disk::ComputeLatency`. -/
def buffered (d : DiskHead) (newSector : Int) (writing : Bool) (seek timeAfter : Int) :
    Except Abort Bool :=
  if writing = false ∧ seek = 0 then do
    let loaded ← i32 (timeAfter - d.bufferInit)
    return loaded.tdiv rotationTime > moduloDiff newSector (d.bufferInit.tdiv rotationTime)
  else return false

/-- `Disk::ComputeLatency`. -/
def computeLatency (d : DiskHead) (totalTicks newSector : Int) (writing : Bool) :
    Except Abort Int := do
  let (seek, rotation) ← d.timeToSeek totalTicks newSector
  let timeAfter ← i32 (totalTicks + seek + rotation)
  let fromBuffer ← d.buffered newSector writing seek timeAfter
  if fromBuffer then return rotationTime
  else
    let rotation ← i32 (rotation + moduloDiff newSector (timeAfter.tdiv rotationTime) * rotationTime)
    i32 (seek + rotation + rotationTime)

/-- `Disk::UpdateLast`. -/
def updateLast (d : DiskHead) (totalTicks newSector : Int) : Except Abort DiskHead := do
  let (seek, rotate) ← d.timeToSeek totalTicks newSector
  if seek ≠ 0 then
    let bufferInit ← i32 (totalTicks + seek + rotate)
    return ⟨newSector, bufferInit⟩
  else return ⟨newSector, d.bufferInit⟩

/-- `Disk::ReadRequest` and `Disk::WriteRequest`, as far as the head goes: the delay
of the interrupt. -/
def request (d : DiskHead) (totalTicks newSector : Int) (writing : Bool) :
    Except Abort (DiskHead × Int) := do
  let ticks ← d.computeLatency totalTicks newSector writing
  assert (0 ≤ newSector ∧ newSector < numSectors)
  let d ← d.updateLast totalTicks newSector
  return (d, ticks)

end DiskHead

end Nachos
