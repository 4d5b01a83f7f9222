import Nachos.Impl.Lib.List

/-!
# Semaphores and locks

`threads/synch.cc`. The body of `Semaphore::P` from `SetLevel(IntOff)` to
either its return or its `Sleep`, and the body of `Semaphore::V`, each run
with interrupts off and so in one step (`p`, `v`). A thread that slept in `P`
runs `p` again when it is dispatched: its loop tests `value` again.

`Lock::Acquire` and `Lock::Release` are two steps each: `lockHolder` is set
and cleared outside the semaphore's atomic body, where the thread may be
switched out.
-/

namespace Nachos

/-- `class Semaphore`. -/
structure Semaphore (T : Type) where
  value : Int
  queue : List T

namespace Semaphore

variable {T : Type} [DecidableEq T]

/-- `Semaphore::Semaphore`. -/
def new (initialValue : Int) : Semaphore T := ⟨initialValue, []⟩

/-- `Semaphore::P` for the current thread `t`: `true` when it returns, `false`
when the thread is queued and goes to sleep. -/
def p (s : Semaphore T) (t : T) : Except Abort (Semaphore T × Bool) :=
  if s.value = 0 then do
    let q ← NList.append s.queue t
    return ({ s with queue := q }, false)
  else
    return ({ s with value := s.value - 1 }, true)

/-- `Semaphore::V`, with the thread it makes ready, if any. -/
def v (s : Semaphore T) : Semaphore T × Option T :=
  match s.queue with
  | [] => ({ s with value := s.value + 1 }, none)
  | t :: q => ({ value := s.value + 1, queue := q }, some t)

/-- What `P` does: it takes a nonzero value, or queues the thread. -/
theorem p_cases {s s' : Semaphore T} {t : T} {b : Bool} (h : s.p t = .ok (s', b)) :
    (b = true ∧ s.value ≠ 0 ∧ s' = { s with value := s.value - 1 }) ∨
    (b = false ∧ s.value = 0 ∧ t ∉ s.queue ∧ s' = { s with queue := s.queue ++ [t] }) := by
  unfold p at h
  split at h
  · rename_i h0
    obtain ⟨q, hq, h⟩ := bind_eq_ok.mp h
    obtain ⟨ht, rfl⟩ := NList.append_eq_ok.mp hq
    simp only [pure_eq_ok, Except.ok.injEq, Prod.mk.injEq] at h
    exact .inr ⟨h.2.symm, h0, ht, h.1.symm⟩
  · rename_i h0
    simp only [pure_eq_ok, Except.ok.injEq, Prod.mk.injEq] at h
    exact .inl ⟨h.2.symm, h0, h.1.symm⟩

/-- `P` does not abort for a thread that is not queued. -/
theorem p_ok {s : Semaphore T} {t : T} (h : t ∉ s.queue) : ∃ r, s.p t = .ok r := by
  unfold p
  split
  · rw [NList.append_eq_ok.mpr ⟨h, rfl⟩]
    exact ⟨_, rfl⟩
  · exact ⟨_, rfl⟩

omit [DecidableEq T] in
/-- What `V` does: it increments the value and takes the first waiter off the
queue. -/
theorem v_eq (s : Semaphore T) : s.v = (⟨s.value + 1, s.queue.tail⟩, s.queue.head?) := by
  unfold v
  split <;> rename_i h <;> simp [h]

end Semaphore

/-- `class Lock`. -/
structure Lock (T : Type) where
  lockHolder : Option T
  semaphore : Semaphore T

namespace Lock

variable {T : Type} [DecidableEq T]

/-- `Lock::Lock`. -/
def new : Lock T := ⟨none, .new 1⟩

/-- `Lock::IsHeldByCurrentThread` for the current thread `t`. -/
def isHeldBy (l : Lock T) (t : T) : Bool := l.lockHolder = some t

/-- `Lock::Acquire`, first step: `semaphore->P()`. -/
def acquireP (l : Lock T) (t : T) : Except Abort (Lock T × Bool) := do
  let (s, b) ← l.semaphore.p t
  return ({ l with semaphore := s }, b)

/-- `Lock::Acquire`, second step: `lockHolder = kernel->currentThread`. -/
def acquireSet (l : Lock T) (t : T) : Lock T := { l with lockHolder := some t }

/-- `Lock::Release`, first step: the `ASSERT`, then `lockHolder = NULL`. -/
def releaseCheck (l : Lock T) (t : T) : Except Abort (Lock T) := do
  assert (l.isHeldBy t)
  return { l with lockHolder := none }

/-- `Lock::Release`, second step: `semaphore->V()`. -/
def releaseV (l : Lock T) : Lock T × Option T :=
  ({ l with semaphore := l.semaphore.v.1 }, l.semaphore.v.2)

end Lock

end Nachos
