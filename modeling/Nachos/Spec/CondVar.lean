import Mathlib.Data.Finset.Basic
import Nachos.Framework.System

/-!
# What a condition variable is for

Threads wait in a queue, and each `Signal` releases the one that waits the
longest. The rules of `Step` are on events of a run, with the two windows that
an implementation has: a `Signal` that finds a waiter releases one before the
queue changes otherwise, and from the begin of a `Broadcast` to its end no
thread is queued and all that were are released.
-/

namespace Nachos

open Framework

variable {T E : Type} [DecidableEq T]

/-- What happens at a condition variable. `E` are other events. -/
inductive CondEvent (T E : Type)
  /-- `t` is queued in `Wait`. -/
  | wait (t : T)
  /-- `t`, in `Signal`, finds the queue not empty. -/
  | found (t : T)
  /-- `t` releases `u`. -/
  | signal (t u : T)
  /-- `Wait` returns to `t`. -/
  | ret (t : T)
  /-- `t` begins a `Broadcast`. -/
  | broadcast (t : T)
  /-- The `Broadcast` of `t` ends. -/
  | done (t : T)
  | other (e : E)
  deriving DecidableEq

/-- The threads that wait, in the order of their `Wait`; those released that
have not returned from it; and who is in a `Signal` that found a waiter, and in
a `Broadcast`. -/
structure CondVar (T : Type) where
  queue : List T
  woken : Finset T
  signaller : Option T
  sweeper : Option T

namespace CondVar

omit [DecidableEq T] in
def empty : CondVar T := ⟨[], ∅, none, none⟩

/-- What may happen. -/
def Step (v : CondVar T) : CondEvent T E → CondVar T → Prop
  | .wait t, v' => t ∉ v.queue ∧ t ∉ v.woken ∧ v.signaller = none ∧ v.sweeper = none ∧
    v' = { v with queue := v.queue ++ [t] }
  | .found t, v' => v.queue ≠ [] ∧ v.signaller = none ∧ (v.sweeper = none ∨ v.sweeper = some t) ∧
    v' = { v with signaller := some t }
  | .signal t u, v' => v.signaller = some t ∧ ∃ q, v.queue = u :: q ∧
    v' = { v with queue := q, woken := insert u v.woken, signaller := none }
  | .ret t, v' => t ∈ v.woken ∧ v' = { v with woken := v.woken.erase t }
  | .broadcast t, v' => v.signaller = none ∧ v.sweeper = none ∧ v' = { v with sweeper := some t }
  | .done t, v' => v.signaller = none ∧ v.sweeper = some t ∧ v.queue = [] ∧
    v' = { v with sweeper := none }
  | .other _, v' => v' = v

/-- A condition variable as a system. -/
def system (T E : Type) [DecidableEq T] : System (CondVar T) (CondEvent T E) where
  init v := v = empty
  step := Step

end CondVar

end Nachos
