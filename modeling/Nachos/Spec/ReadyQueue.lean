import Mathlib.Data.Int.Order.Basic
import Nachos.Framework.StableQueue
import Nachos.Framework.System

/-!
# What the ready threads are for

Threads are made ready and taken again, the oldest of the smallest key first.
The key of a thread may depend on how often it was made ready.
-/

namespace Nachos

open Framework

variable {T : Type} [DecidableEq T]

/-- What happens to the ready threads. -/
inductive QueueEvent (T : Type)
  /-- `t` is made ready. -/
  | ready (t : T)
  /-- `t` is taken, or none. -/
  | found (t : Option T)
  deriving DecidableEq

/-- The threads in the order in which they were made ready, and how often each
was. -/
structure ReadyQueue (T : Type) where
  queue : List T
  times : T → Nat

namespace ReadyQueue

omit [DecidableEq T] in
def empty : ReadyQueue T := ⟨[], fun _ => 0⟩

/-- What may happen, if the key of a thread made ready `n` times is
`key t n`. -/
def Step (key : T → Nat → Int) (q : ReadyQueue T) : QueueEvent T → ReadyQueue T → Prop
  | .ready t, q' => t ∉ q.queue ∧
    q' = ⟨q.queue ++ [t], Function.update q.times t (q.times t + 1)⟩
  | .found none, q' => q.queue = [] ∧ q' = q
  | .found (some t), q' => ∃ rest, StableQueue.Takes (fun u => key u (q.times u)) q.queue t rest ∧
    q' = { q with queue := rest }

/-- The ready threads as a system. -/
def system (key : T → Nat → Int) : System (ReadyQueue T) (QueueEvent T) where
  init q := q = empty
  step := Step key

end ReadyQueue

end Nachos
