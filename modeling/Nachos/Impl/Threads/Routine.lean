import Nachos.Impl.Machine.Interrupt
import Nachos.Impl.Threads.Scheduler
import Nachos.Impl.Threads.Synch

/-!
# The kernel's routines and the interrupt level

`Semaphore::P` and `V`, `Lock::Acquire` and `Release`, `Thread::Yield`, `Fork`,
`Begin`, `Sleep` and `Finish`, and `Scheduler::Run`, statement by statement, with
the interrupt level they set and assert. Every thread has a stack of what is left
of the routines it is in (`Frame`), with the old levels they saved; enabling
interrupts runs `OneTick` and the handlers on the stack of the thread that runs,
and a time slice puts `Yield` on top of it.

A lock is named by its semaphore. `C` are the pointers to `CallBackObj`, `S` those
to semaphores, and `D` is the state of the devices.
-/

namespace Nachos

/-- The routines that are to return with the level of the call. -/
inductive Routine (P S : Type)
  | p (s : S)
  | v (s : S)
  | acquire (s : S)
  | release (s : S)
  | yield
  | fork (t : P)
  deriving DecidableEq

/-- What is left of a routine. `ret` is its return; it remembers the level of
the call. -/
inductive Frame (P S : Type)
  | call (f : Routine P S)
  | ret (f : Routine P S) (level : IntStatus)
  | setLevel (now : IntStatus)
  | setStatus (status : MachineStatus)
  | p (s : S)
  | sleep (finishing : Bool)
  | resume
  | begin
  | setHolder (s : S)
  | forkRest
  deriving DecidableEq

/-- The kernel, the semaphores, the holders of the locks, and the devices. -/
structure World (P S D : Type) where
  kernel : Kernel P
  semaphore : S → Semaphore P
  lockHolder : S → Option P
  device : D

/-- The whole machine; `delivered` are the handlers called so far. -/
structure Machine (P S C D : Type) where
  world : World P S D
  int : Interrupt C
  stack : P → List (Frame P S)
  delivered : List (Delivery C)

variable {P S C D : Type} [DecidableEq P] [DecidableEq S] [DecidableEq C]

/-- What the handlers of the devices do, under `getStatus()`: they change the
devices and the threads' fields (`Alarm` counts down the time slice), and call. -/
abbrev DeviceHandlers (P S C D : Type) :=
  MachineStatus → C → World P S D → (D × (P → Thread)) × List (HandlerCall C S)

/-- `Semaphore::V` between its two `SetLevel`, with the assertion of
`ReadyToRun`. -/
def World.v (typeno : Policy) (level : IntStatus) (s : S) (w : World P S D) :
    Except Fault (World P S D) := do
  let (x, t) := (w.semaphore s).v
  let w := { w with semaphore := Function.update w.semaphore s x }
  match t with
  | none => return w
  | some t =>
    assertLevel (level = .off)
    let k ← liftAbort (w.kernel.readyToRun typeno t)
    return { w with kernel := k }

/-- The handlers, over the kernel. -/
def handlers (typeno : Policy) (cb : DeviceHandlers P S C D) : Handlers C S (World P S D) where
  callBack status c w :=
    let ((d, thread), calls) := cb status c w
    ({ w with device := d, kernel := { w.kernel with thread := thread } }, calls)
  v := World.v typeno

namespace Machine

variable (typeno : Policy) (cb : DeviceHandlers P S C D)

/-- `kernel->currentThread`. -/
def current (m : Machine P S C D) : P := m.world.kernel.currentThread

/-- The thread `t` goes on with these frames. -/
def goOn (m : Machine P S C D) (t : P) (fs : List (Frame P S)) : Machine P S C D :=
  { m with stack := Function.update m.stack t fs }

/-- An update of the kernel's state. -/
def setKernel (m : Machine P S C D) (k : Kernel P) : Machine P S C D :=
  { m with world := { m.world with kernel := k } }

/-- `OneTick` of the running thread, which goes on with `fs`. -/
def oneTick (m : Machine P S C D) (fs : List (Frame P S)) : Except Fault (Machine P S C D) := do
  let oldStatus := m.int.status
  let (i, w, ds, b) ← m.int.oneTick (handlers typeno cb) m.world
  let m' := { m with int := i, world := w, delivered := m.delivered ++ ds }
  return m'.goOn m.current (if b then .call .yield :: .setStatus oldStatus :: fs else fs)

/-- `SetLevel`. -/
def setLevel (m : Machine P S C D) (now : IntStatus) (fs : List (Frame P S)) :
    Except Fault (Machine P S C D) := do
  let (i, _, tick) ← m.int.setLevel now
  if tick then oneTick typeno cb { m with int := i } fs
  else return { m with int := i }.goOn m.current fs

/-- `Sleep`, up to its loop. -/
def sleep (m : Machine P S C D) (finishing : Bool) (fs : List (Frame P S)) :
    Except Fault (Machine P S C D) := do
  assertLevel (m.int.level = .off)
  let k ← liftAbort m.world.kernel.sleep
  return (m.setKernel k).goOn m.current (.sleep finishing :: fs)

/-- `Scheduler::Run`, up to `SWITCH`; the thread comes back in front of `fs`. -/
def run (m : Machine P S C D) (nextThread : P) (finishing : Bool) (fs : List (Frame P S)) :
    Except Fault (Machine P S C D) := do
  assertLevel (m.int.level = .off)
  let k ← liftAbort (m.world.kernel.run nextThread finishing)
  return (m.setKernel k).goOn m.current (.resume :: fs)

/-- `FindNextToRun`. -/
def findNextToRun (m : Machine P S C D) : Except Fault (Option (P × Machine P S C D)) := do
  assertLevel (m.int.level = .off)
  return (m.world.kernel.findNextToRun typeno).map fun r => (r.1, m.setKernel r.2)

/-- `ReadyToRun`. -/
def readyToRun (m : Machine P S C D) (t : P) : Except Fault (Machine P S C D) := do
  assertLevel (m.int.level = .off)
  let k ← liftAbort (m.world.kernel.readyToRun typeno t)
  return m.setKernel k

/-- `Yield` behind its first `SetLevel`; `oldLevel` is what that returned. -/
def yield (m : Machine P S C D) (oldLevel : IntStatus) (fs : List (Frame P S)) :
    Except Fault (Machine P S C D) := do
  match ← m.findNextToRun typeno with
  | none => return m.goOn m.current (.setLevel oldLevel :: fs)
  | some (nextThread, m) =>
    let m ← m.readyToRun typeno m.current
    m.run nextThread false (.setLevel oldLevel :: fs)

/-- The start of a routine, up to the end of its first atomic part. -/
def enter (m : Machine P S C D) (fs : List (Frame P S)) :
    Routine P S → Except Fault (Machine P S C D)
  | .p s => do
    let (i, oldLevel, _) ← m.int.setLevel .off
    return { m with int := i }.goOn m.current (.p s :: .setLevel oldLevel :: fs)
  | .v s => do
    let (i, oldLevel, _) ← m.int.setLevel .off
    let w ← World.v typeno i.level s m.world
    return { m with int := i, world := w }.goOn m.current (.setLevel oldLevel :: fs)
  | .acquire s => return m.goOn m.current (.call (.p s) :: .setHolder s :: fs)
  | .release s => do
    liftAbort (assert (m.world.lockHolder s = some m.current))
    let w := { m.world with lockHolder := Function.update m.world.lockHolder s none }
    return { m with world := w }.goOn m.current (.call (.v s) :: fs)
  | .yield => do
    let (i, oldLevel, _) ← m.int.setLevel .off
    yield typeno { m with int := i } oldLevel fs
  | .fork t => do
    let (i, oldLevel, _) ← m.int.setLevel .off
    assertLevel (i.level = .off)
    let k ← liftAbort (m.world.kernel.fork typeno t)
    let m' := { m with int := i }.setKernel k
    return (m'.goOn t [.begin]).goOn m.current (.setLevel oldLevel :: .forkRest :: fs)

/-- One statement of the running thread, in front of `fs`. -/
def exec (m : Machine P S C D) (fs : List (Frame P S)) :
    Frame P S → Except Fault (Machine P S C D)
  | .call f => enter typeno m (.ret f m.int.level :: fs) f
  | .ret _ _ => return m.goOn m.current fs
  | .setLevel now => setLevel typeno cb m now fs
  | .setStatus status => return { m with int := { m.int with status := status } }.goOn m.current fs
  | .p s => do
    let (x, b) ← liftAbort ((m.world.semaphore s).p m.current)
    let w := { m.world with semaphore := Function.update m.world.semaphore s x }
    if b then return { m with world := w }.goOn m.current fs
    else sleep { m with world := w } false (.p s :: fs)
  | .sleep finishing => do
    match ← m.findNextToRun typeno with
    | some (nextThread, m) => m.run nextThread finishing fs
    | none =>
      let (i, w, ds, b) ← m.int.idle (handlers typeno cb) m.world
      if b then return { m with int := i, world := w, delivered := m.delivered ++ ds }
      else throw .halt
  | .resume => do
    assertLevel (m.int.level = .off)
    let k ← liftAbort m.world.kernel.checkToBeDestroyed
    return (m.setKernel k).goOn m.current fs
  | .begin => do
    let k ← liftAbort m.world.kernel.checkToBeDestroyed
    return (m.setKernel k).goOn m.current (.setLevel .on :: fs)
  | .setHolder s =>
    let w := { m.world with lockHolder := Function.update m.world.lockHolder s (some m.current) }
    return { m with world := w }.goOn m.current fs
  | .forkRest =>
    if typeno = .priority then
      match m.world.kernel.getReadyListFront typeno with
      | none => .error (.abort .undefined)
      | some t =>
        if (m.world.kernel.thread t).priority < (m.world.kernel.thread m.current).priority then
          return m.goOn m.current (.call .yield :: fs)
        else return m.goOn m.current fs
    else return m.goOn m.current fs

end Machine

end Nachos
