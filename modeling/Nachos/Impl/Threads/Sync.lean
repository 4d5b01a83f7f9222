import Nachos.Framework.Threads
import Nachos.Impl.Threads.Synch

/-!
# Code over locks and semaphores

The code of threads that share locks, semaphores and other data, as a list of
the statements that are left (`SyncStmt`): the steps of `Acquire`, `Release`,
`P` and `V`, between which a thread may be switched out, and actions on the data,
in which it is not. Interrupt handlers act on the data and call `V`.
-/

namespace Nachos

open Framework.Threads

/-- A statement. `K` are the locks, `S` the semaphores and `A` the actions. -/
inductive SyncStmt (K S A : Type)
  | acquireP (l : K)
  | acquireSet (l : K)
  | releaseCheck (l : K)
  | releaseV (l : K)
  | p (s : S)
  | v (s : S)
  | act (a : A)
  deriving DecidableEq

/-- The locks, the semaphores and the data that threads share. -/
structure Sync (T K S D : Type) where
  lock : K → Lock T
  sem : S → Semaphore T
  data : D

namespace Sync

variable {T K S A D I : Type} [DecidableEq T] [DecidableEq K] [DecidableEq S]

/-- `Lock::Acquire`. -/
def acquire (l : K) : List (SyncStmt K S A) := [.acquireP l, .acquireSet l]

/-- `Lock::Release`. -/
def release (l : K) : List (SyncStmt K S A) := [.releaseCheck l, .releaseV l]

def setLock (m : Sync T K S D) (l : K) (x : Lock T) : Sync T K S D :=
  { m with lock := Function.update m.lock l x }

def setSem (m : Sync T K S D) (s : S) (x : Semaphore T) : Sync T K S D :=
  { m with sem := Function.update m.sem s x }

/-- One statement of thread `t`: what is left, and whether it sleeps or wakes
another. -/
def exec (act : T → D → A → Except Abort D) (t : T) (m : Sync T K S D) :
    List (SyncStmt K S A) → Except Abort (Sync T K S D × List (SyncStmt K S A) × Effect T)
  | [] => return (m, [], .go)
  | .acquireP l :: c => do
    let (x, b) ← (m.lock l).acquireP t
    return (m.setLock l x, if b then c else .acquireP l :: c, if b then .go else .sleep)
  | .acquireSet l :: c => return (m.setLock l ((m.lock l).acquireSet t), c, .go)
  | .releaseCheck l :: c => do
    let x ← (m.lock l).releaseCheck t
    return (m.setLock l x, c, .go)
  | .releaseV l :: c => return (m.setLock l (m.lock l).releaseV.1, c, .wake (m.lock l).releaseV.2)
  | .p s :: c => do
    let (x, b) ← (m.sem s).p t
    return (m.setSem s x, if b then c else .p s :: c, if b then .go else .sleep)
  | .v s :: c => return (m.setSem s (m.sem s).v.1, c, .wake (m.sem s).v.2)
  | .act a :: c => do
    let d ← act t m.data a
    return ({ m with data := d }, c, .go)

/-- All threads, and the interrupts: `interrupt i d` is the handler of `i`, if it
is pending, and the semaphore it calls `V` of. -/
def next (act : T → D → A → Except Abort D) (interrupt : I → D → Except Abort (Option (D × Option S)))
    (c : Framework.Threads.Config (Sync T K S D) (List (SyncStmt K S A)) T) :
    T ⊕ I → Except Abort (Framework.Threads.Config (Sync T K S D) (List (SyncStmt K S A)) T)
  | .inl t => Framework.Threads.next (exec act) c t
  | .inr i => do
    match ← interrupt i c.shared.data with
    | none => return c
    | some (d, none) => return { c with shared := { c.shared with data := d } }
    | some (d, some s) =>
      return { c with
        shared := ({ c.shared with data := d } : Sync T K S D).setSem s (c.shared.sem s).v.1
        asleep := match (c.shared.sem s).v.2 with
          | none => c.asleep
          | some u => Function.update c.asleep u false }

/-- All locks are free, the semaphores have their first values, and no thread
has started. -/
def start (v : S → Int) (d : D) (prog : T → List (SyncStmt K S A)) :
    Framework.Threads.Config (Sync T K S D) (List (SyncStmt K S A)) T where
  shared := ⟨fun _ => .new, fun s => .new (v s), d⟩
  loc := prog
  asleep _ := false

end Sync

end Nachos
