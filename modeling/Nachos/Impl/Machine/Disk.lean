import Nachos.Framework.Codec
import Nachos.Impl.Lib.Sysdep

/-!
# The disk

`machine/disk.cc` as `filesys/synchdisk.cc` makes it synchronous: sectors are
read and written as a whole. The file system copies its objects to sectors as
they lie in memory, so this is also where an `unsigned` and an `int` get their
four bytes, in little-endian order.
-/

namespace Nachos

/-- `SectorSize`. -/
def sectorSize : Nat := 128

/-- `NumSectors`, 32 tracks of 32 sectors. -/
def numSectors : Nat := 32 * 32

/-- The bytes of each sector. -/
abbrev Disk := Nat → Nat → Byte

namespace Disk

/-- A sector. -/
def sector (d : Disk) (i : Nat) : List Byte := (List.range sectorSize).map (d i)

/-- `SynchDisk::ReadSector`. -/
def readSector (d : Disk) (sectorNumber : Int) : Except Abort (List Byte) := do
  assert (0 ≤ sectorNumber ∧ sectorNumber < numSectors)
  return d.sector sectorNumber.toNat

/-- `SynchDisk::WriteSector` of the bytes at `data`. -/
def writeSector (d : Disk) (sectorNumber : Int) (data : List Byte) : Except Abort Disk := do
  assert (0 ≤ sectorNumber ∧ sectorNumber < numSectors)
  defined (sectorSize ≤ data.length)
  return fun i o => if i = sectorNumber.toNat then data.getD o (d i o) else d i o

end Disk

/-- An `unsigned int`. -/
def word : Framework.Codec Byte (BitVec 32) where
  width := 4
  encode w := [w.extractLsb' 0 8, w.extractLsb' 8 8, w.extractLsb' 16 8, w.extractLsb' 24 8]
  decode
    | [b₀, b₁, b₂, b₃] => b₃ ++ b₂ ++ b₁ ++ b₀
    | _ => 0

/-- An `int`. -/
def int : Framework.Codec Byte Int where
  width := 4
  encode x := word.encode (BitVec.ofInt 32 x)
  decode bs := (word.decode bs).toInt

end Nachos
