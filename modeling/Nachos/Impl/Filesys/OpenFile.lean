import Nachos.Impl.Lib.Bitmap
import Nachos.Impl.Machine.Disk

/-!
# Files on the disk

`filesys/filehdr.cc` and `filesys/openfile.cc`. A file is a header, which is
one sector and lists the sectors of the file. `ReadAt` and `WriteAt` transfer
whole sectors to and from a buffer. What a fresh object or buffer holds is a
parameter.
-/

namespace Nachos

/-- `NumDirect`. -/
def numDirect : Nat := (sectorSize - 2 * int.width) / int.width

/-- `MaxFileSize`. -/
def maxFileSize : Nat := numDirect * sectorSize

/-- What a block of memory holds before the code stores to it. -/
abbrev Fresh := Nat → Byte

/-- A buffer of `n` bytes. -/
def Fresh.take (m : Fresh) (n : Nat) : List Byte := (List.range n).map m

/-- `n` bytes of a buffer from `i` on. -/
def slice (buf : List Byte) (i n : Int) : Except Abort (List Byte) := do
  defined (0 ≤ i ∧ 0 ≤ n ∧ i + n ≤ buf.length)
  return (buf.drop i.toNat).take n.toNat

/-- A copy of `src` to a buffer, from `i` on. -/
def bcopy (src buf : List Byte) (i : Int) : Except Abort (List Byte) := do
  defined (0 ≤ i ∧ i + src.length ≤ buf.length)
  return buf.take i.toNat ++ src ++ buf.drop (i.toNat + src.length)

/-- `class FileHeader`. -/
structure FileHeader where
  numBytes : Int
  numSectors : Int
  dataSectors : List Int

namespace FileHeader

/-- The object in memory. -/
def encode (h : FileHeader) : List Byte := int.encodeAll (h.numBytes :: h.numSectors :: h.dataSectors)

def decode (bs : List Byte) : FileHeader where
  numBytes := int.decode (bs.take 4)
  numSectors := int.decode ((bs.drop 4).take 4)
  dataSectors := int.decodeAll numDirect (bs.drop 8)

/-- `new FileHeader`. -/
def new (m : Fresh) : FileHeader := decode (m.take sectorSize)

/-- The loop of `FileHeader::Allocate`, at index `i` with `n` sectors to go. -/
def allocateFrom (h : FileHeader) (freeMap : Bitmap) (i : Nat) :
    Nat → Except Abort (FileHeader × Bitmap)
  | 0 => return (h, freeMap)
  | n + 1 => do
    let (sector, freeMap) ← freeMap.findAndSet
    defined (i < h.dataSectors.length)
    let h := { h with dataSectors := h.dataSectors.set i sector }
    assert (sector ≥ 0)
    h.allocateFrom freeMap (i + 1) n

/-- `FileHeader::Allocate`. -/
def allocate (h : FileHeader) (freeMap : Bitmap) (fileSize : Int) :
    Except Abort (Bool × FileHeader × Bitmap) := do
  let numSectors := fileSize.tdiv sectorSize + if fileSize.tmod sectorSize > 0 then 1 else 0
  let h := { h with numBytes := fileSize, numSectors := numSectors }
  let numClear ← freeMap.numClear
  if numClear < numSectors then return (false, h, freeMap)
  else
    let (h, freeMap) ← h.allocateFrom freeMap 0 numSectors.toNat
    return (true, h, freeMap)

/-- The loop of `FileHeader::Deallocate`. -/
def deallocateFrom (h : FileHeader) (freeMap : Bitmap) (i : Nat) : Nat → Except Abort Bitmap
  | 0 => return freeMap
  | n + 1 => do
    defined (i < h.dataSectors.length)
    let sector := h.dataSectors.getD i 0
    let t ← freeMap.test sector
    assert (t = true)
    let freeMap ← freeMap.clear sector
    h.deallocateFrom freeMap (i + 1) n

/-- `FileHeader::Deallocate`. -/
def deallocate (h : FileHeader) (freeMap : Bitmap) : Except Abort Bitmap :=
  h.deallocateFrom freeMap 0 h.numSectors.toNat

/-- `FileHeader::FetchFrom`. -/
def fetchFrom (d : Disk) (sector : Int) : Except Abort FileHeader := do
  let data ← d.readSector sector
  return decode data

/-- `FileHeader::WriteBack`. -/
def writeBack (h : FileHeader) (d : Disk) (sector : Int) : Except Abort Disk :=
  d.writeSector sector h.encode

/-- `FileHeader::ByteToSector`. -/
def byteToSector (h : FileHeader) (offset : Int) : Except Abort Int := do
  let i := offset.tdiv sectorSize
  defined (0 ≤ i ∧ i < h.dataSectors.length)
  return h.dataSectors.getD i.toNat 0

/-- `FileHeader::FileLength`. -/
def fileLength (h : FileHeader) : Int := h.numBytes

/-- The loop of `ReadAt`, over `n` sectors from the `i`th on. -/
def readSectors (h : FileHeader) (d : Disk) (i : Int) : Nat → Except Abort (List Byte)
  | 0 => return []
  | n + 1 => do
    let sector ← h.byteToSector (i * sectorSize)
    let data ← d.readSector sector
    let rest ← h.readSectors d (i + 1) n
    return data ++ rest

/-- The loop of `WriteAt`. -/
def writeSectors (h : FileHeader) (d : Disk) (i : Int) (buf : List Byte) : Nat → Except Abort Disk
  | 0 => return d
  | n + 1 => do
    let sector ← h.byteToSector (i * sectorSize)
    let d ← d.writeSector sector (buf.take sectorSize)
    h.writeSectors d (i + 1) (buf.drop sectorSize) n

end FileHeader

/-- `class OpenFile`. -/
structure OpenFile where
  hdr : FileHeader
  seekPosition : Int

namespace OpenFile

/-- `OpenFile::OpenFile`. -/
def new (d : Disk) (sector : Int) : Except Abort OpenFile := do
  let hdr ← FileHeader.fetchFrom d sector
  return ⟨hdr, 0⟩

/-- The part of a request that is inside the file. -/
def clamp (f : OpenFile) (numBytes position : Int) : Except Abort Int := do
  let last ← i32 (position + numBytes)
  return if last > f.hdr.fileLength then f.hdr.fileLength - position else numBytes

/-- `OpenFile::ReadAt`: the bytes it copies. -/
def readAt (f : OpenFile) (d : Disk) (numBytes position : Int) : Except Abort (List Byte) := do
  if numBytes ≤ 0 ∨ position ≥ f.hdr.fileLength then return []
  else
    let numBytes ← f.clamp numBytes position
    let firstSector := position.tdiv sectorSize
    let lastSector := (position + numBytes - 1).tdiv sectorSize
    let numSectors := 1 + lastSector - firstSector
    let _ ← i32 (numSectors * sectorSize)
    let buf ← f.hdr.readSectors d firstSector numSectors.toNat
    slice buf (position - firstSector * sectorSize) numBytes

/-- `OpenFile::WriteAt`: the disk and the number of bytes written. -/
def writeAt (f : OpenFile) (d : Disk) (m : Fresh) (src : List Byte) (numBytes position : Int) :
    Except Abort (Disk × Int) := do
  if numBytes ≤ 0 ∨ position ≥ f.hdr.fileLength then return (d, 0)
  else
    let numBytes ← f.clamp numBytes position
    let firstSector := position.tdiv sectorSize
    let lastSector := (position + numBytes - 1).tdiv sectorSize
    let numSectors := 1 + lastSector - firstSector
    let size ← i32 (numSectors * sectorSize)
    let buf := m.take size.toNat
    let firstAligned : Bool := position = firstSector * sectorSize
    let lastAligned : Bool := position + numBytes = (lastSector + 1) * sectorSize
    -- The sectors that are written in part are read first.
    let buf ← (if !firstAligned then do
        let data ← f.readAt d sectorSize (firstSector * sectorSize)
        bcopy data buf 0
      else return buf)
    let buf ← (if !lastAligned && (firstSector ≠ lastSector || firstAligned) then do
        let data ← f.readAt d sectorSize (lastSector * sectorSize)
        bcopy data buf ((lastSector - firstSector) * sectorSize)
      else return buf)
    let data ← slice src 0 numBytes
    let buf ← bcopy data buf (position - firstSector * sectorSize)
    let d ← f.hdr.writeSectors d firstSector buf numSectors.toNat
    return (d, numBytes)

/-- `OpenFile::Seek`. -/
def seek (f : OpenFile) (position : Int) : OpenFile := { f with seekPosition := position }

/-- `OpenFile::Read`. -/
def read (f : OpenFile) (d : Disk) (numBytes : Int) : Except Abort (OpenFile × List Byte) := do
  let data ← f.readAt d numBytes f.seekPosition
  let position ← i32 (f.seekPosition + data.length)
  return (f.seek position, data)

/-- `OpenFile::Write`. -/
def write (f : OpenFile) (d : Disk) (m : Fresh) (src : List Byte) (numBytes : Int) :
    Except Abort (OpenFile × Disk × Int) := do
  let (d, result) ← f.writeAt d m src numBytes f.seekPosition
  let position ← i32 (f.seekPosition + result)
  return (f.seek position, d, result)

end OpenFile

end Nachos
