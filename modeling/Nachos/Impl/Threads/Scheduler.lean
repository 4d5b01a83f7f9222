import Mathlib.Logic.Function.Basic
import Nachos.Impl.Lib.List
import Nachos.Impl.Threads.Thread

/-!
# The scheduler

`threads/scheduler.cc` and the operations of `threads/thread.cc` that call it,
over one kernel state: the threads by pointer, `threadArray`, `currentThread`
and the scheduler's lists. Saving and loading the user state in `Run`, the
pages that `suspendAThread` saves and `restoreAThread` loads, the interrupt
level and the printing are left out.

`Thread::Sleep` is cut at the head of its loop: `sleep` blocks the thread and
`dispatch` is one turn of `while ((nextThread = FindNextToRun()) == NULL)`.
`Thread::Fork` is cut where it enables interrupts. `SWITCH` ends an operation;
what the next thread does first is `checkToBeDestroyed`.
-/

namespace Nachos

/-- `typeno`: 0, 1, 2 and 3. -/
inductive Policy
  | fifo
  | priority
  | timeSlice
  | feedback
  deriving DecidableEq

/-- `QueueNum`. -/
def queueNum : Nat := 5

/-- `timeSlice`. -/
def timeSlice : Int := 3

/-- `threadArrTimeSlice`. -/
def threadArrTimeSlice : List Int := [3, 4, 5, 6, 7]

/-- The fields that `Thread::Thread` sets. Those it does not set for this
`typeno` keep what is at the address. -/
def Thread.new (typeno : Policy) (threadID : Nat) (mem : Thread) : Thread where
  threadID := threadID
  priority := match typeno with
    | .priority => 8
    | .feedback => -1
    | _ => mem.priority
  timeSliceRemain := match typeno with
    | .priority => timeSlice
    | _ => mem.timeSliceRemain
  status := .justCreated
  stack := false

@[simp] theorem Thread.new_threadID (typeno : Policy) (i : Nat) (mem : Thread) :
    (new typeno i mem).threadID = i := rfl

@[simp] theorem Thread.new_status (typeno : Policy) (i : Nat) (mem : Thread) :
    (new typeno i mem).status = .justCreated := rfl

@[simp] theorem Thread.new_stack (typeno : Policy) (i : Nat) (mem : Thread) :
    (new typeno i mem).stack = false := rfl

/-- The scheduler's and the kernel's fields. -/
structure Kernel (P : Type) where
  thread : P → Thread
  threadArray : List (Option P)
  currentThread : P
  readyList : List P
  sortedReadyList : List P
  threadArrQueue : List (List P)
  suspendList : List P
  blockList : List P
  toBeDestroyed : Option P

namespace Kernel

variable {P : Type} [DecidableEq P] (typeno : Policy)

/-- An update of one thread's fields. -/
def setThread (k : Kernel P) (t : P) (f : Thread → Thread) : Kernel P :=
  { k with thread := Function.update k.thread t (f (k.thread t)) }

/-- `cmp`. -/
def cmp (k : Kernel P) (t₁ t₂ : P) : Int :=
  if (k.thread t₁).priority < (k.thread t₂).priority then -1
  else if (k.thread t₁).priority > (k.thread t₂).priority then 1
  else 0

/-- The branches of `Scheduler::ReadyToRun`. -/
def enqueue (k : Kernel P) (t : P) : Except Abort (Kernel P) :=
  match typeno with
  | .priority => do
    let q ← NList.insert k.cmp k.sortedReadyList t
    return { k with sortedReadyList := q }
  | .fifo => do
    let q ← NList.append k.readyList t
    return { k with readyList := q }
  | .timeSlice => do
    let k := k.setThread t fun th => { th with timeSliceRemain := timeSlice }
    let q ← NList.append k.readyList t
    return { k with readyList := q }
  | .feedback => do
    let p := (k.thread t).priority
    let p := if p ≠ queueNum - 1 then p + 1 else p
    defined (0 ≤ p ∧ p.toNat < k.threadArrQueue.length)
    let k := k.setThread t fun th =>
      { th with priority := p, timeSliceRemain := threadArrTimeSlice.getD p.toNat 0 }
    let q ← NList.append (k.threadArrQueue.getD p.toNat []) t
    return { k with threadArrQueue := k.threadArrQueue.set p.toNat q }

/-- `Scheduler::ReadyToRun`. -/
def readyToRun (k : Kernel P) (t : P) : Except Abort (Kernel P) := do
  let b ← (if t ∈ k.blockList then NList.remove k.blockList t else pure k.blockList)
  let k := { k with blockList := b }
  enqueue typeno (k.setThread t fun th => { th with status := .ready }) t

/-- The search of `FindNextToRun` through `threadArrQueue`. -/
def firstQueued : List (List P) → Option (P × List (List P))
  | [] => none
  | [] :: qs => (firstQueued qs).map fun r => (r.1, [] :: r.2)
  | (t :: q) :: qs => some (t, q :: qs)

/-- `Scheduler::FindNextToRun`, with the state when a thread is found. -/
def findNextToRun (k : Kernel P) : Option (P × Kernel P) :=
  match typeno with
  | .fifo | .timeSlice => match k.readyList with
    | [] => none
    | t :: q => some (t, { k with readyList := q })
  | .priority => match k.sortedReadyList with
    | [] => none
    | t :: q => some (t, { k with sortedReadyList := q })
  | .feedback => (firstQueued k.threadArrQueue).map fun r => (r.1, { k with threadArrQueue := r.2 })

/-- `Scheduler::getReadyListFront`. -/
def getReadyListFront (k : Kernel P) : Option P :=
  match typeno with
  | .fifo | .timeSlice => k.readyList.head?
  | .priority => k.sortedReadyList.head?
  | .feedback => (firstQueued k.threadArrQueue).map Prod.fst

/-- `Scheduler::isReadyListEmpty`. -/
def isReadyListEmpty (k : Kernel P) : Bool :=
  match typeno with
  | .fifo | .timeSlice => k.readyList.isEmpty
  | .priority => k.sortedReadyList.isEmpty
  | .feedback => k.threadArrQueue.all List.isEmpty

/-- `Scheduler::Run`, up to `SWITCH`. -/
def run (k : Kernel P) (nextThread : P) (finishing : Bool) : Except Abort (Kernel P) := do
  let k ← (if finishing then do
      assert (k.toBeDestroyed = none)
      return { k with toBeDestroyed := some k.currentThread }
    else return k)
  return { k with currentThread := nextThread }.setThread nextThread
    fun th => { th with status := .running }

/-- `Scheduler::blockAThread`. -/
def blockAThread (k : Kernel P) (t : P) : Except Abort (Kernel P) := do
  let k := k.setThread t fun th => { th with status := .blocked }
  let b ← NList.append k.blockList t
  return { k with blockList := b }

/-- `Scheduler::awakeAThead`. -/
def awakeAThead (k : Kernel P) : Except Abort (Kernel P) := do
  let (t, b) ← NList.removeFront k.blockList
  let k := { k with blockList := b }.setThread t fun th => { th with status := .ready }
  let q ← NList.append k.readyList t
  return { k with readyList := q }

/-- `Scheduler::suspendAThread`. -/
def suspendAThread (k : Kernel P) : Except Abort (Kernel P) := do
  let (t, b) ← NList.removeFront k.blockList
  let q ← NList.append k.suspendList t
  return { k with blockList := b, suspendList := q }.setThread t
    fun th => { th with status := .suspended }

/-- `Scheduler::restoreAThread`. -/
def restoreAThread (k : Kernel P) : Except Abort (Kernel P) := do
  let (t, q) ← NList.removeFront k.suspendList
  let r ← NList.append k.readyList t
  return { k with suspendList := q, readyList := r }.setThread t
    fun th => { th with status := .ready }

/-- `Scheduler::CheckToBeDestroyed`, with `Thread::~Thread`. -/
def checkToBeDestroyed (k : Kernel P) : Except Abort (Kernel P) :=
  match k.toBeDestroyed with
  | none => return k
  | some t => do
    assert (t ≠ k.currentThread)
    return { k with
      threadArray := removeAThread k.threadArray (k.thread t).threadID
      toBeDestroyed := none }

/-- `Thread::Thread`, at the address `t`. -/
def newThread (k : Kernel P) (t : P) : Except Abort (Kernel P) := do
  let some (i, a) := addAThread k.threadArray t | throw .assert
  return { k with threadArray := a }.setThread t (Thread.new typeno i)

/-- `Thread::Fork`, up to where it enables interrupts. -/
def fork (k : Kernel P) (t : P) : Except Abort (Kernel P) :=
  readyToRun typeno (k.setThread t fun th => { th with stack := true }) t

/-- `Thread::Yield`: whether it reached `SWITCH`. -/
def yield (k : Kernel P) : Except Abort (Kernel P × Bool) :=
  match k.findNextToRun typeno with
  | none => return (k, false)
  | some (nextThread, k) => do
    let k ← k.readyToRun typeno k.currentThread
    let k ← k.run nextThread false
    return (k, true)

/-- The rest of `Thread::Fork`. -/
def forkRest (k : Kernel P) : Except Abort (Kernel P × Bool) :=
  if typeno = .priority then
    match k.getReadyListFront typeno with
    | none => .error .undefined
    | some t =>
      if (k.thread t).priority < (k.thread k.currentThread).priority then k.yield typeno
      else return (k, false)
  else return (k, false)

/-- `Thread::Sleep`, up to its loop. -/
def sleep (k : Kernel P) : Except Abort (Kernel P) := k.blockAThread k.currentThread

/-- One turn of the loop of `Thread::Sleep`: whether it reached `SWITCH`. -/
def dispatch (k : Kernel P) (finishing : Bool) : Except Abort (Kernel P × Bool) :=
  match k.findNextToRun typeno with
  | none => return (k, false)
  | some (nextThread, k) => do
    let k ← k.run nextThread finishing
    return (k, true)

/-- `Kernel::Initialize`: `main` is the only thread and takes the first slot,
over the contents `mem` of the addresses of threads. Its `setPriority(8)`
repeats the constructor's. -/
def initializeKernel (mem : P → Thread) (main : P) : Kernel P where
  thread := Function.update mem main { Thread.new typeno 0 (mem main) with status := .running }
  threadArray := (List.replicate maxThreadNum none).set 0 (some main)
  currentThread := main
  readyList := []
  sortedReadyList := []
  threadArrQueue := List.replicate queueNum []
  suspendList := []
  blockList := []
  toBeDestroyed := none

end Kernel

end Nachos
