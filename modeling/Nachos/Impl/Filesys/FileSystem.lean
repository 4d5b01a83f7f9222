import Nachos.Impl.Filesys.OpenFile

/-!
# The file system

`filesys/directory.cc`, `filesys/pbitmap.cc` and `filesys/filesys.cc`. The
directory and the map of free sectors are files, whose headers are in the
sectors 0 and 1; both are read for each operation, and written back when it
succeeds.
-/

namespace Nachos

/-- `FileNameMaxLen`. -/
def fileNameMaxLen : Nat := 9

/-- A file name: a C string without its 0. -/
abbrev Name := { cs : List Byte // (0 : Byte) ∉ cs }

/-- `!strncmp(a, b, n)`. -/
def strncmpEq : Nat → List Byte → List Byte → Bool
  | 0, _, _ => true
  | n + 1, a :: as, b :: bs => a = b && (a = 0 || strncmpEq n as bs)
  | _ + 1, _, _ => false

/-- `strncpy(dst, name, n)`. -/
def strncpy (dst : List Byte) (name : Name) (n : Nat) : List Byte :=
  name.1.take n ++ List.replicate (n - name.1.length) 0 ++ dst.drop n

/-- The C string at the head of the memory `bs`. -/
def cString (bs : List Byte) : Except Abort (List Byte) :=
  if (0 : Byte) ∈ bs then .ok (bs.takeWhile (· ≠ 0)) else .error .undefined

/-- `class DirectoryEntry`, with the bytes between and behind its fields. -/
structure DirectoryEntry where
  inUse : Bool
  pad₁ : List Byte
  sector : Int
  name : List Byte
  pad₂ : List Byte

/-- A `DirectoryEntry` in memory. -/
def dirEntry : Framework.Codec Byte DirectoryEntry where
  width := 20
  encode e := (if e.inUse then 1 else 0) :: e.pad₁ ++ int.encode e.sector ++ e.name ++ e.pad₂
  decode bs :=
    { inUse := bs.getD 0 0 ≠ 0
      pad₁ := (bs.drop 1).take 3
      sector := int.decode ((bs.drop 4).take 4)
      name := (bs.drop 8).take 10
      pad₂ := (bs.drop 18).take 2 }

/-- `NumDirEntries`. -/
def numDirEntries : Nat := 10

/-- `DirectoryFileSize`. -/
def directoryFileSize : Nat := dirEntry.width * numDirEntries

/-- `FreeMapFileSize`. -/
def freeMapFileSize : Nat := numSectors / 8

/-- `FreeMapSector`. -/
def freeMapSector : Nat := 0

/-- `DirectorySector`. -/
def directorySector : Nat := 1

/-- `class Directory`. -/
abbrev Directory := List DirectoryEntry

namespace Directory

/-- `Directory::Directory(NumDirEntries)`. -/
def new (m : Fresh) : Directory :=
  (dirEntry.decodeAll numDirEntries (m.take directoryFileSize)).map fun e => { e with inUse := false }

/-- `Directory::FetchFrom`. -/
def fetchFrom (t : Directory) (d : Disk) (file : OpenFile) : Except Abort Directory := do
  let data ← file.readAt d directoryFileSize 0
  return dirEntry.decodeAll numDirEntries (data ++ (dirEntry.encodeAll t).drop data.length)

/-- `Directory::WriteBack`. -/
def writeBack (t : Directory) (d : Disk) (m : Fresh) (file : OpenFile) : Except Abort Disk := do
  let (d, _) ← file.writeAt d m (dirEntry.encodeAll t) directoryFileSize 0
  return d

/-- `Directory::FindIndex`. -/
def findIndex (t : Directory) (name : Name) : Option Nat :=
  t.findIdx? fun e => e.inUse && strncmpEq fileNameMaxLen e.name (name.1 ++ [0])

/-- `Directory::Find`. -/
def find (t : Directory) (name : Name) : Int :=
  match t.findIndex name with
  | none => -1
  | some i => (t[i]?.map DirectoryEntry.sector).getD (-1)

/-- `Directory::Add`: `none` when it returns `FALSE`. -/
def add (t : Directory) (name : Name) (newSector : Int) : Option Directory :=
  if (t.findIndex name).isSome then none
  else (t.findIdx? fun e => !e.inUse).map fun i => t.modify i fun e =>
    { e with inUse := true, name := strncpy e.name name fileNameMaxLen, sector := newSector }

/-- `Directory::Remove`. -/
def remove (t : Directory) (name : Name) : Directory :=
  match t.findIndex name with
  | none => t
  | some i => t.modify i fun e => { e with inUse := false }

/-- `Directory::List`: the lines of the entries in use. The memory behind an
entry is that of the next ones, which `printf` reads where a name has no 0. -/
def list : Directory → Except Abort (List (List Byte))
  | [] => return []
  | e :: t => do
    if e.inUse then
      let line ← cString ((dirEntry.encodeAll (e :: t)).drop 8)
      let lines ← list t
      return line :: lines
    else list t

end Directory

namespace PersistentBitmap

/-- `PersistentBitmap::PersistentBitmap` from a file. -/
def fetch (d : Disk) (file : OpenFile) (numItems : Nat) : Except Abort Bitmap := do
  let b := Bitmap.new numItems
  let data ← file.readAt d (b.map.length * word.width : Nat) 0
  return { b with
    map := word.decodeAll b.map.length (data ++ (word.encodeAll b.map).drop data.length) }

/-- `PersistentBitmap::WriteBack`. -/
def writeBack (b : Bitmap) (d : Disk) (m : Fresh) (file : OpenFile) : Except Abort Disk := do
  let (d, _) ← file.writeAt d m (word.encodeAll b.map) (b.map.length * word.width : Nat) 0
  return d

end PersistentBitmap

/-- `class FileSystem`, and the disk it is on. -/
structure FileSystem where
  disk : Disk
  freeMapFile : OpenFile
  directoryFile : OpenFile

namespace FileSystem

/-- `FileSystem::FileSystem(FALSE)`. -/
def mount (d : Disk) : Except Abort FileSystem := do
  let freeMapFile ← OpenFile.new d freeMapSector
  let directoryFile ← OpenFile.new d directorySector
  return ⟨d, freeMapFile, directoryFile⟩

section
variable (m : Nat → Fresh)

/-- `FileSystem::FileSystem(TRUE)`, where `m` is the fresh memory of one
object or buffer after the other. -/
def format (d : Disk) : Except Abort FileSystem := do
  let freeMap := Bitmap.new numSectors
  let directory := Directory.new (m 0)
  let freeMap ← freeMap.mark freeMapSector
  let freeMap ← freeMap.mark directorySector
  let (ok, mapHdr, freeMap) ← (FileHeader.new (m 1)).allocate freeMap freeMapFileSize
  assert (ok = true)
  let (ok, dirHdr, freeMap) ← (FileHeader.new (m 2)).allocate freeMap directoryFileSize
  assert (ok = true)
  let d ← mapHdr.writeBack d freeMapSector
  let d ← dirHdr.writeBack d directorySector
  let fs ← mount d
  let d ← PersistentBitmap.writeBack freeMap d (m 3) fs.freeMapFile
  let d ← directory.writeBack d (m 4) fs.directoryFile
  return { fs with disk := d }

/-- `FileSystem::Create`. -/
def create (fs : FileSystem) (name : Name) (initialSize : Int) : Except Abort (FileSystem × Bool) := do
  let directory ← (Directory.new (m 0)).fetchFrom fs.disk fs.directoryFile
  if directory.find name ≠ -1 then return (fs, false)
  else
    let freeMap ← PersistentBitmap.fetch fs.disk fs.freeMapFile numSectors
    let (sector, freeMap) ← freeMap.findAndSet
    if sector = -1 then return (fs, false)
    else
      match directory.add name sector with
      | none => return (fs, false)
      | some directory =>
        let (ok, hdr, freeMap) ← (FileHeader.new (m 1)).allocate freeMap initialSize
        if !ok then return (fs, false)
        else
          let d ← hdr.writeBack fs.disk sector
          let d ← directory.writeBack d (m 2) fs.directoryFile
          let d ← PersistentBitmap.writeBack freeMap d (m 3) fs.freeMapFile
          return ({ fs with disk := d }, true)

/-- `FileSystem::Open`. -/
def openFile (fs : FileSystem) (name : Name) : Except Abort (Option OpenFile) := do
  let directory ← (Directory.new (m 0)).fetchFrom fs.disk fs.directoryFile
  let sector := directory.find name
  if sector ≥ 0 then
    let f ← OpenFile.new fs.disk sector
    return some f
  else return none

/-- `FileSystem::Remove`. -/
def remove (fs : FileSystem) (name : Name) : Except Abort (FileSystem × Bool) := do
  let directory ← (Directory.new (m 0)).fetchFrom fs.disk fs.directoryFile
  let sector := directory.find name
  if sector = -1 then return (fs, false)
  else
    let fileHdr ← FileHeader.fetchFrom fs.disk sector
    let freeMap ← PersistentBitmap.fetch fs.disk fs.freeMapFile numSectors
    let freeMap ← fileHdr.deallocate freeMap
    let freeMap ← freeMap.clear sector
    let directory := directory.remove name
    let d ← PersistentBitmap.writeBack freeMap fs.disk (m 1) fs.freeMapFile
    let d ← directory.writeBack d (m 2) fs.directoryFile
    return ({ fs with disk := d }, true)

/-- `FileSystem::List`. -/
def list (fs : FileSystem) : Except Abort (List (List Byte)) := do
  let directory ← (Directory.new (m 0)).fetchFrom fs.disk fs.directoryFile
  directory.list

end

end FileSystem

end Nachos
