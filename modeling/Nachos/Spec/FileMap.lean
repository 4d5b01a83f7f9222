import Mathlib.Logic.Function.Basic
import Nachos.Framework.Blocks
import Nachos.Framework.System
import Nachos.Impl.Filesys.FileSystem
import Nachos.Proof.Lib.Bitmap

/-!
# A file system as a finite map

What a file system is for: names, of which the first `FileNameMaxLen`
characters count, are mapped to byte arrays of a fixed length. A file is
created with any contents; from then on it has the bytes that were last
written. `Session` is a program that uses the code's file system through
handles, with the same operations.
-/

namespace Nachos

open Framework

/-- The part of a name that counts. -/
def Name.key (name : Name) : List Byte := name.1.take fileNameMaxLen

/-- The operations of a program. Handles are numbered in the order of their
`open`. -/
inductive FileOp
  | create (name : Name) (size : Int)
  | openFile (name : Name)
  | remove (name : Name)
  | readAt (handle : Nat) (numBytes position : Int)
  | writeAt (handle : Nat) (src : List Byte) (numBytes position : Int)
  | mount

/-- What an operation returns. -/
inductive FileResult
  | success (b : Bool)
  | handle (h : Option Nat)
  | bytes (bs : List Byte)
  | count (n : Int)
  | mounted

/-- The files, and for each handle the name of its file until this is
removed. -/
structure FileMap where
  files : List Byte → Option (List Byte)
  handles : List (Option (List Byte))

namespace FileMap

/-- No files and no handles. -/
def empty : FileMap := ⟨fun _ => none, []⟩

/-- The handle is one of the file `f` with the name `k`. -/
def At (m : FileMap) (h : Nat) (k f : List Byte) : Prop :=
  m.handles[h]? = some (some k) ∧ m.files k = some f

/-- The handles of the file `k` are of no use any more. -/
def close (k : List Byte) (handles : List (Option (List Byte))) : List (Option (List Byte)) :=
  handles.map fun h => if h = some k then none else h

/-- What an operation may return and do. -/
def Step (m : FileMap) : FileOp × FileResult → FileMap → Prop
  | (.create name size, .success true), m' => m.files name.key = none ∧
    ∃ f : List Byte, (f.length : Int) = size ∧
      m' = { m with files := Function.update m.files name.key (some f) }
  | (.create _ _, .success false), m' => m' = m
  | (.openFile name, .handle none), m' => m.files name.key = none ∧ m' = m
  | (.openFile name, .handle (some h)), m' => m.files name.key ≠ none ∧ h = m.handles.length ∧
    m' = { m with handles := m.handles ++ [some name.key] }
  | (.remove name, .success true), m' => m.files name.key ≠ none ∧
    m' = ⟨Function.update m.files name.key none, close name.key m.handles⟩
  | (.remove name, .success false), m' => m.files name.key = none ∧ m' = m
  | (.readAt h numBytes position, .bytes bs), m' => m' = m ∧ ∃ k f, m.At h k f ∧
    bs = (f.drop position.toNat).take numBytes.toNat
  | (.writeAt h src numBytes position, .count n), m' => ∃ k f w, m.At h k f ∧
    w = (src.take numBytes.toNat).take (f.length - position.toNat) ∧ n = w.length ∧
    m' = { m with files := Function.update m.files k (some (Blocks.overwrite f position.toNat w)) }
  | (.mount, .mounted), m' => m' = m
  | _, _ => False

/-- The finite map as a system. -/
def system : System FileMap (FileOp × FileResult) where
  init m := m = empty
  step := Step

end FileMap

/-- A handle: the open file, and its name until the file is removed. -/
structure Handle where
  file : OpenFile
  name : Option (List Byte)

/-- A request at positions of an `int`, for a file that was not removed. -/
def Handle.Request (f : Handle) (numBytes position : Int) : Prop :=
  f.name ≠ none ∧ 0 ≤ position ∧ (position + numBytes < 2 ^ 31 ∨ f.file.hdr.fileLength ≤ position)

/-- The file system and the handles of a program. -/
structure Session where
  fs : FileSystem
  handles : List Handle

namespace Session

/-- An operation, which finds `m` in fresh memory. -/
def exec (m : Nat → Fresh) (s : Session) : FileOp → Except Abort (Session × FileResult)
  | .create name size => do
    let (fs, ok) ← s.fs.create m name size
    return ({ s with fs := fs }, .success ok)
  | .openFile name => do
    match ← s.fs.openFile m name with
    | none => return (s, .handle none)
    | some f =>
      return ({ s with handles := s.handles ++ [⟨f, some name.key⟩] }, .handle (some s.handles.length))
  | .remove name => do
    let (fs, ok) ← s.fs.remove m name
    let handles := if ok then
        s.handles.map fun h => if h.name = some name.key then { h with name := none } else h
      else s.handles
    return (⟨fs, handles⟩, .success ok)
  | .readAt h numBytes position =>
    match s.handles[h]? with
    | none => .error .undefined
    | some h => do
      let bs ← h.file.readAt s.fs.disk numBytes position
      return (s, .bytes bs)
  | .writeAt h src numBytes position =>
    match s.handles[h]? with
    | none => .error .undefined
    | some h => do
      let (d, n) ← h.file.writeAt s.fs.disk (m 0) src numBytes position
      return ({ s with fs := { s.fs with disk := d } }, .count n)
  | .mount => do
    let fs ← FileSystem.mount s.fs.disk
    return ({ s with fs := fs }, .mounted)

/-- The operations that a program may use. The buffer of a `WriteAt` is long
enough. -/
def Proper (s : Session) : FileOp → Prop
  | .create _ size => 0 ≤ size ∧ size ≤ maxFileSize
  | .openFile _ | .remove _ | .mount => True
  | .readAt h numBytes position => ∃ f, s.handles[h]? = some f ∧ f.Request numBytes position
  | .writeAt h src numBytes position => numBytes ≤ src.length ∧
    ∃ f, s.handles[h]? = some f ∧ f.Request numBytes position

/-- All operations but those through the handle of a removed file: the size of
a new file is any `int`, and so are the positions. -/
def Usable (s : Session) : FileOp → Prop
  | .create _ size => -2 ^ 31 ≤ size ∧ size < 2 ^ 31
  | .openFile _ | .remove _ | .mount => True
  | .readAt h _ _ => ∃ f, s.handles[h]? = some f ∧ f.name ≠ none
  | .writeAt h src numBytes _ => numBytes ≤ src.length ∧
    ∃ f, s.handles[h]? = some f ∧ f.name ≠ none

/-- The runs of all such operations, as long as they return. -/
def anySystem : System Session (FileOp × FileResult) where
  init s := s.handles = [] ∧ ∃ m d, FileSystem.format m d = .ok s.fs
  step s a s' := s.Usable a.1 ∧ ∃ m, s.exec m a.1 = .ok (s', a.2)

/-- The runs of programs from a formatted disk. -/
def system : System Session (FileOp × FileResult) where
  init s := s.handles = [] ∧ ∃ m d, FileSystem.format m d = .ok s.fs
  step s a s' := s.Proper a.1 ∧ ∃ m, s.exec m a.1 = .ok (s', a.2)

end Session

/-! ## What is on the disk -/

namespace FileHeader

/-- The data sectors of the file. -/
def sectors (h : FileHeader) : List Int := h.dataSectors.take h.numSectors.toNat

/-- The bytes of the file. -/
def contents (h : FileHeader) (d : Disk) : List Byte :=
  Blocks.contents sectorSize d (h.sectors.map Int.toNat) h.numBytes.toNat

end FileHeader

/-- The part of the name that counts. -/
def DirectoryEntry.key (e : DirectoryEntry) : List Byte :=
  (e.name.take fileNameMaxLen).takeWhile (· ≠ 0)

namespace Disk

/-- The header in a sector. -/
def header (d : Disk) (sector : Int) : FileHeader := .decode (d.sector sector.toNat)

/-- The bytes of the file with its header in a sector. -/
def fileAt (d : Disk) (sector : Int) : List Byte := (d.header sector).contents d

/-- The directory. -/
def table (d : Disk) : Directory := dirEntry.decodeAll numDirEntries (d.fileAt directorySector)

/-- The directory entries in use. -/
def live (d : Disk) : List DirectoryEntry := d.table.filter DirectoryEntry.inUse

/-- The map of free sectors. -/
def freeMap (d : Disk) : Bitmap :=
  ⟨numSectors, word.decodeAll (numSectors / bitsInWord) (d.fileAt freeMapSector)⟩

/-- The file with a name. -/
def files (d : Disk) (k : List Byte) : Option (List Byte) :=
  (d.live.find? fun e => e.key = k).map fun e => d.fileAt e.sector

/-- The sectors of the two system files and of all other ones. -/
def allocated (d : Disk) : List Int :=
  [(freeMapSector : Int), (directorySector : Int)] ++ (d.header freeMapSector).sectors ++
    (d.header directorySector).sectors ++
    d.live.flatMap fun e => e.sector :: (d.header e.sector).sectors

/-- There is a file with the name, there is no place for a new one, or there
are not enough sectors for its header and its data. -/
def Refuses (d : Disk) (name : Name) (size : Int) : Prop :=
  d.files name.key ≠ none ∨ d.freeMap.free = ∅ ∨ (∀ e ∈ d.table, e.inUse = true) ∨
    d.freeMap.free.card - 1 < divRoundUp size.toNat sectorSize

/-- Each sector that is in use is marked, once. -/
structure Accounted (d : Disk) : Prop where
  nodup : d.allocated.Nodup
  bound : ∀ i ∈ d.allocated, 0 ≤ i ∧ i < numSectors
  bits : ∀ i : Nat, i < numSectors → (d.freeMap.bit i = true ↔ (i : Int) ∈ d.allocated)

end Disk

/-- The finite map that is on the disk. -/
def Session.view (s : Session) : FileMap := ⟨s.fs.disk.files, s.handles.map Handle.name⟩

end Nachos
