import Nachos.Framework.Threads
import Nachos.Impl.Lib.Sysdep
import Nachos.Impl.Threads.Synch

/-!
# Condition variables

`class Condition` of `threads/synch.cc`, with the lock that its callers hold.
A method is the list of its statements (`Stmt`); a thread's local state is
what it has still to run, and `exec` runs the first statement, so a thread may
be switched out between any two. A test of `if` or `while` puts the branch it
takes in front of the rest.

`waiter = new Semaphore("condition", 0)` is local to one call of `Wait`, so a
thread has at most one; `waitQueue`, a list of semaphores, has the thread of
each.

What callers do between `Acquire` and `Release` is any list of calls
(`Call`). Their own statements act on data of their own, and say which calls
come next.
-/

namespace Nachos

open Framework.Threads

variable {T A D : Type}

/-- The statements of `Lock` and `Condition`, and those of a caller. -/
inductive Stmt (T A : Type)
  /-- `semaphore->P()` of `Lock::Acquire`. -/
  | acquireP
  /-- `lockHolder = kernel->currentThread`. -/
  | acquireSet
  /-- `ASSERT(IsHeldByCurrentThread())` and `lockHolder = NULL` of `Lock::Release`. -/
  | releaseCheck
  /-- `semaphore->V()`. -/
  | releaseV
  /-- `ASSERT(conditionLock->IsHeldByCurrentThread())`. -/
  | assertHeld
  /-- `waiter = new Semaphore("condition", 0)`. -/
  | newWaiter
  /-- `waitQueue->Append(waiter)`. -/
  | enqueue
  /-- `waiter->P()`. -/
  | waiterP
  /-- `delete waiter`. -/
  | deleteWaiter
  /-- `if (!waitQueue->IsEmpty())` of `Signal`. -/
  | signal
  /-- `waiter = waitQueue->RemoveFront()`. -/
  | removeFront
  /-- `waiter->V()`, for the waiter of `u`. -/
  | waiterV (u : T)
  /-- The call of `Broadcast`. -/
  | broadcast
  /-- `while (!waitQueue->IsEmpty())` of `Broadcast`. -/
  | broadcastLoop
  | caller (a : A)
  deriving DecidableEq

/-- What a caller does with the lock held. -/
inductive Call (A : Type)
  | wait
  | signal
  | broadcast
  | caller (a : A)

namespace Lock

/-- `Lock::Acquire`. -/
def acquire : List (Stmt T A) := [.acquireP, .acquireSet]

/-- `Lock::Release`. -/
def release : List (Stmt T A) := [.releaseCheck, .releaseV]

end Lock

namespace Condition

/-- `Condition::Wait`. -/
def wait : List (Stmt T A) :=
  [.assertHeld, .newWaiter, .enqueue] ++ Lock.release ++ [.waiterP] ++ Lock.acquire ++
    [.deleteWaiter]

/-- `Condition::Signal`. -/
def signal : List (Stmt T A) := [.assertHeld, .signal]

/-- `Condition::Broadcast`. -/
def broadcast : List (Stmt T A) := [.broadcast]

end Condition

/-- The statements of a call. -/
def Call.code : Call A → List (Stmt T A)
  | .wait => Condition.wait
  | .signal => Condition.signal
  | .broadcast => Condition.broadcast
  | .caller a => [.caller a]

/-- The calls between an `Acquire` and its `Release`. -/
def critical (calls : List (Call A)) : List (Stmt T A) :=
  Lock.acquire ++ calls.flatMap Call.code ++ Lock.release

/-- `BARRIER_NUM`. -/
def barrierNum : Nat := 5

/-- The statements of `Condition::Barrier`. -/
inductive BarrierStmt
  /-- `++barrierNum`. -/
  | increment
  /-- `if(barrierNum == BARRIER_NUM)`. -/
  | test
  deriving DecidableEq

namespace Condition

/-- `Condition::Barrier`. -/
def barrier : List (Call BarrierStmt) := [.caller .increment, .caller .test]

/-- Its statements. The field `barrierNum`, here `n`, is used by no other
method. -/
def barrierStep (_ : T) (n : Int) : BarrierStmt → Except Abort (Int × List (Call BarrierStmt))
  | .increment => do
    let n ← i32 (n + 1)
    return (n, [])
  | .test => return (n, if n = barrierNum then [.broadcast] else [.wait])

end Condition

/-- The lock, the condition variable and the callers' data. `waiter t` is the
semaphore that `t` has allocated in `Wait`. -/
structure Monitor (T D : Type) where
  lock : Lock T
  waitQueue : List T
  waiter : T → Option (Semaphore T)
  data : D

namespace Monitor

/-- A new lock and a new condition variable. -/
def new (d : D) : Monitor T D := ⟨.new, [], fun _ => none, d⟩

variable [DecidableEq T]

/-- The first statement of thread `t`. -/
def exec (caller : T → D → A → Except Abort (D × List (Call A))) (t : T) (m : Monitor T D) :
    List (Stmt T A) → Except Abort (Monitor T D × List (Stmt T A) × Effect T)
  | [] => return (m, [], .go)
  | .acquireP :: c => do
    let (l, b) ← m.lock.acquireP t
    return ({ m with lock := l }, if b then c else .acquireP :: c, if b then .go else .sleep)
  | .acquireSet :: c => return ({ m with lock := m.lock.acquireSet t }, c, .go)
  | .releaseCheck :: c => do
    let l ← m.lock.releaseCheck t
    return ({ m with lock := l }, c, .go)
  | .releaseV :: c => return ({ m with lock := m.lock.releaseV.1 }, c, .wake m.lock.releaseV.2)
  | .assertHeld :: c => do
    assert (m.lock.isHeldBy t)
    return (m, c, .go)
  | .newWaiter :: c =>
    return ({ m with waiter := Function.update m.waiter t (some (.new 0)) }, c, .go)
  | .enqueue :: c => do
    let q ← NList.append m.waitQueue t
    return ({ m with waitQueue := q }, c, .go)
  | .waiterP :: c =>
    match m.waiter t with
    | none => .error .undefined
    | some s => do
      let (s, b) ← s.p t
      return ({ m with waiter := Function.update m.waiter t (some s) },
        if b then c else .waiterP :: c, if b then .go else .sleep)
  | .deleteWaiter :: c => return ({ m with waiter := Function.update m.waiter t none }, c, .go)
  | .signal :: c => return (m, if m.waitQueue = [] then c else .removeFront :: c, .go)
  | .removeFront :: c => do
    let (u, q) ← NList.removeFront m.waitQueue
    return ({ m with waitQueue := q }, .waiterV u :: c, .go)
  | .waiterV u :: c =>
    match m.waiter u with
    | none => .error .undefined
    | some s => return ({ m with waiter := Function.update m.waiter u (some s.v.1) }, c, .wake s.v.2)
  | .broadcast :: c => return (m, .broadcastLoop :: c, .go)
  | .broadcastLoop :: c =>
    return (m, if m.waitQueue = [] then c else Condition.signal ++ .broadcastLoop :: c, .go)
  | .caller a :: c => do
    let (d, calls) ← caller t m.data a
    return ({ m with data := d }, calls.flatMap Call.code ++ c, .go)

/-- Each thread `t` is about to run the critical sections `prog t`, one after
the other. -/
def start (d : D) (prog : T → List (List (Call A))) :
    Framework.Threads.Config (Monitor T D) (List (Stmt T A)) T where
  shared := .new d
  loc t := (prog t).flatMap critical
  asleep _ := false

end Monitor

end Nachos
