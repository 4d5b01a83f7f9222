import Nachos.Impl.Filesys.FileSystem

/-!
# Copy and Print

The two commands of `threads/main.cc` that move a whole file, a part after the
other. A UNIX file is its bytes; `ReadPartial` may return fewer of them than it
is asked for. `fileCommands` is what `main` does for its options on files, from
the `FileSystem` of `Kernel::Initialize` on.
-/

namespace Nachos

/-- `TransferSize`. -/
def transferSize : Nat := 128

/-- What one `ReadPartial` of `numBytes` bytes after the other may return, until
there are no bytes left. -/
def Unix.PartialReads (file : List Byte) (numBytes : Nat) (reads : List (List Byte)) : Prop :=
  reads.flatten = file ∧ ∀ r ∈ reads, 0 < r.length ∧ r.length ≤ numBytes

namespace OpenFile

/-- `Write` of one part after the other. -/
def writeParts (f : OpenFile) (d : Disk) (m : Nat → Fresh) :
    List (List Byte) → Except Abort (OpenFile × Disk)
  | [] => return (f, d)
  | part :: parts => do
    let (f, d, _) ← f.write d (m 0) part part.length
    f.writeParts d (fun i => m (i + 1)) parts

/-- `Read` of one size after the other until it returns 0, for at most `fuel`
calls: the bytes it returned. -/
def readParts (f : OpenFile) (d : Disk) (sizes : Nat → Int) : Nat → Except Abort (Option (List Byte))
  | 0 => return none
  | fuel + 1 => do
    let (f, data) ← f.read d (sizes 0)
    if data.length > 0 then
      let rest ← f.readParts d (fun i => sizes (i + 1)) fuel
      return rest.map (data ++ ·)
    else return some []

end OpenFile

/-- The ends of `Copy`, by their messages. -/
inductive CopyResult
  | noInput
  | noOutput
  | copied
  deriving DecidableEq

/-- `Copy` of the UNIX file `input`, if it can be opened, of which `ReadPartial`
returns `reads`. -/
def copy (m : Nat → Nat → Fresh) (fs : FileSystem) (input : Option (List Byte))
    (reads : List (List Byte)) (toName : Name) : Except Abort (FileSystem × CopyResult) := do
  match input with
  | none => return (fs, .noInput)
  | some bytes =>
    let (fs, success) ← fs.create (m 0) toName bytes.length
    if !success then return (fs, .noOutput)
    else
      match ← fs.openFile (m 1) toName with
      | none => .error .assert
      | some openFile =>
        let (_, d) ← openFile.writeParts fs.disk (m 2) reads
        return ({ fs with disk := d }, .copied)

/-- The ends of `Print`. -/
inductive PrintResult
  | notOpened
  | printed (bytes : List Byte)
  deriving DecidableEq

/-- `Print`, with at most `fuel` calls of `Read`. -/
def print (m : Nat → Fresh) (fs : FileSystem) (name : Name) (fuel : Nat) :
    Except Abort (Option PrintResult) := do
  match ← fs.openFile m name with
  | none => return some .notOpened
  | some openFile =>
    let bytes ← openFile.readParts fs.disk (fun _ => transferSize) fuel
    return bytes.map .printed

/-- The options `-f`, `-r`, `-cp`, with the UNIX file as for `copy`, `-l` and `-p`. -/
structure FileFlags where
  formatFlag : Bool
  removeFileName : Option Name
  copyFile : Option (Option (List Byte) × List (List Byte) × Name)
  dirListFlag : Bool
  printFileName : Option Name

/-- What `Copy`, `List` and `Print` show, where they are called. -/
structure FileOutput where
  copied : Option CopyResult
  listed : Option (List (List Byte))
  printed : Option PrintResult

namespace FileFlags

variable (flags : FileFlags) (fs : FileSystem)

/-- `new FileSystem(formatFlag)`, on the disk of the last run. -/
def fileSystem (m : Nat → Fresh) (d : Disk) : Except Abort FileSystem :=
  if flags.formatFlag then FileSystem.format m d else FileSystem.mount d

/-- `-r`. -/
def remove (m : Nat → Fresh) : Except Abort FileSystem :=
  match flags.removeFileName with
  | none => return fs
  | some name => do
    let (fs, _) ← fs.remove m name
    return fs

/-- `-cp`. -/
def copy (m : Nat → Nat → Fresh) : Except Abort (FileSystem × Option CopyResult) :=
  match flags.copyFile with
  | none => return (fs, none)
  | some (input, reads, name) => do
    let (fs, result) ← Nachos.copy m fs input reads name
    return (fs, some result)

/-- `-l`. -/
def list (m : Nat → Fresh) : Except Abort (Option (List (List Byte))) :=
  if flags.dirListFlag then do
    let lines ← fs.list m
    return some lines
  else return none

/-- `-p`, with at most `fuel` calls of `Read`. -/
def print (m : Nat → Fresh) (fuel : Nat) : Except Abort (Option PrintResult) :=
  match flags.printFileName with
  | none => return none
  | some name => Nachos.print m fs name fuel

end FileFlags

/-- `main`, from the `FileSystem` of `Kernel::Initialize` on, without `-D`. -/
def fileCommands (m : Nat → Nat → Nat → Fresh) (d : Disk) (flags : FileFlags) (fuel : Nat) :
    Except Abort (Disk × FileOutput) := do
  let fs ← flags.fileSystem (m 0 0) d
  let fs ← flags.remove fs (m 1 0)
  let (fs, copied) ← flags.copy fs (m 2)
  let listed ← flags.list fs (m 3 0)
  let printed ← flags.print fs (m 4 0) fuel
  return (fs.disk, ⟨copied, listed, printed⟩)

end Nachos
