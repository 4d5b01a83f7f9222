import Nachos.Framework.Threads
import Nachos.Impl.Threads.Synch

/-!
# Readers and writers

`MyReader` and `MyWriter` of `threads/kernel.cc`, one step a statement
(`Lock::Acquire` and `Lock::Release` are two, see `Synch`). The loop variable
`i` runs from `which` to any `stop`; the code's is `which + 10`. Messages to
`cerr` are left out.
-/

namespace Nachos

open Framework.Threads

/-- The next statement of `MyReader`; those of its exit section are primed
where the entry section has the same. -/
inductive ReaderPc
  | top
  | acquireMutex
  | setMutex
  | increment
  | testFirst
  | acquireWrite
  | setWrite
  | releaseMutex
  | postMutex
  | read
  | acquireMutex'
  | setMutex'
  | decrement
  | testLast
  | releaseWrite
  | postWrite
  | releaseMutex'
  | postMutex'
  deriving DecidableEq

/-- The next statement of `MyWriter`. -/
inductive WriterPc
  | top
  | acquireWrite
  | setWrite
  | write
  | releaseWrite
  | postWrite
  deriving DecidableEq

/-- A thread in `MyReader` or `MyWriter`. -/
inductive RWLocal
  | reader (pc : ReaderPc) (i stop : Int)
  | writer (pc : WriterPc) (i stop : Int)

/-- The global variables of the readers-writers test. -/
structure RWShared (T : Type) where
  wLock : Lock T
  rwMutex : Lock T
  readerCount : Int
  readContent : Int → Int

variable {T : Type} [DecidableEq T]

/-- The effect of a `P` that returned (`true`) or slept. -/
def ofP : Bool → Effect T
  | true => .go
  | false => .sleep

/-- `MyReader`. -/
def myReader (t : T) (s : RWShared T) (pc : ReaderPc) (i stop : Int) :
    Except Abort (RWShared T × RWLocal × Effect T) :=
  match pc with
  | .top => return (s, .reader (if i < stop then .acquireMutex else .top) i stop, .go)
  | .acquireMutex => do
    let (l, b) ← s.rwMutex.acquireP t
    return ({ s with rwMutex := l }, .reader (if b then .setMutex else .acquireMutex) i stop, ofP b)
  | .setMutex =>
    return ({ s with rwMutex := s.rwMutex.acquireSet t }, .reader .increment i stop, .go)
  | .increment =>
    return ({ s with readerCount := s.readerCount + 1 }, .reader .testFirst i stop, .go)
  | .testFirst =>
    return (s, .reader (if s.readerCount = 1 then .acquireWrite else .releaseMutex) i stop, .go)
  | .acquireWrite => do
    let (l, b) ← s.wLock.acquireP t
    return ({ s with wLock := l }, .reader (if b then .setWrite else .acquireWrite) i stop, ofP b)
  | .setWrite =>
    return ({ s with wLock := s.wLock.acquireSet t }, .reader .releaseMutex i stop, .go)
  | .releaseMutex => do
    let l ← s.rwMutex.releaseCheck t
    return ({ s with rwMutex := l }, .reader .postMutex i stop, .go)
  | .postMutex =>
    return ({ s with rwMutex := s.rwMutex.releaseV.1 }, .reader .read i stop,
      .wake s.rwMutex.releaseV.2)
  | .read => return (s, .reader .acquireMutex' i stop, .go)
  | .acquireMutex' => do
    let (l, b) ← s.rwMutex.acquireP t
    return ({ s with rwMutex := l }, .reader (if b then .setMutex' else .acquireMutex') i stop,
      ofP b)
  | .setMutex' =>
    return ({ s with rwMutex := s.rwMutex.acquireSet t }, .reader .decrement i stop, .go)
  | .decrement =>
    return ({ s with readerCount := s.readerCount - 1 }, .reader .testLast i stop, .go)
  | .testLast =>
    return (s, .reader (if s.readerCount = 0 then .releaseWrite else .releaseMutex') i stop, .go)
  | .releaseWrite => do
    let l ← s.wLock.releaseCheck t
    return ({ s with wLock := l }, .reader .postWrite i stop, .go)
  | .postWrite =>
    return ({ s with wLock := s.wLock.releaseV.1 }, .reader .releaseMutex' i stop,
      .wake s.wLock.releaseV.2)
  | .releaseMutex' => do
    let l ← s.rwMutex.releaseCheck t
    return ({ s with rwMutex := l }, .reader .postMutex' i stop, .go)
  | .postMutex' =>
    return ({ s with rwMutex := s.rwMutex.releaseV.1 }, .reader .top (i + 1) stop,
      .wake s.rwMutex.releaseV.2)

/-- `MyWriter`. -/
def myWriter (t : T) (s : RWShared T) (pc : WriterPc) (i stop : Int) :
    Except Abort (RWShared T × RWLocal × Effect T) :=
  match pc with
  | .top => return (s, .writer (if i < stop then .acquireWrite else .top) i stop, .go)
  | .acquireWrite => do
    let (l, b) ← s.wLock.acquireP t
    return ({ s with wLock := l }, .writer (if b then .setWrite else .acquireWrite) i stop, ofP b)
  | .setWrite => return ({ s with wLock := s.wLock.acquireSet t }, .writer .write i stop, .go)
  | .write =>
    return ({ s with readContent := Function.update s.readContent i (i * 2 + 1) },
      .writer .releaseWrite i stop, .go)
  | .releaseWrite => do
    let l ← s.wLock.releaseCheck t
    return ({ s with wLock := l }, .writer .postWrite i stop, .go)
  | .postWrite =>
    return ({ s with wLock := s.wLock.releaseV.1 }, .writer .top (i + 1) stop,
      .wake s.wLock.releaseV.2)

/-- One statement of a reader or a writer. -/
def rwExec (t : T) (s : RWShared T) : RWLocal → Except Abort (RWShared T × RWLocal × Effect T)
  | .reader pc i stop => myReader t s pc i stop
  | .writer pc i stop => myWriter t s pc i stop

/-- `MyReaderWriter`, before the threads run: `isReader` says who runs
`MyReader`, `which` and `stop` give each thread's loop. -/
def myReaderWriter (isReader : T → Bool) (which stop : T → Int) :
    Framework.Threads.Config (RWShared T) RWLocal T where
  shared := ⟨.new, .new, 0, fun i => i + 1⟩
  loc t := if isReader t then .reader .top (which t) (stop t) else .writer .top (which t) (stop t)
  asleep _ := false

end Nachos
