import Nachos.Impl.Threads.Routine

/-!
# The alarm

`Timer::SetInterrupt` and `Timer::CallBack` of `machine/timer.cc`, and
`Alarm::CallBack` of `threads/alarm.cc`, which the timer calls. The timer is
itself a handler, at the pointer `ptr`; `random` is what `RandomNumber` returns.
-/

namespace Nachos

/-- `TimerTicks`. -/
def timerTicks : Nat := 100

/-- `class Timer`. -/
structure Timer where
  randomize : Bool
  disable : Bool

/-- `Alarm::CallBack`: the kernel, and whether it calls `YieldOnReturn`. -/
def Kernel.alarm {P : Type} [DecidableEq P] (typeno : Policy) (status : MachineStatus) (k : Kernel P) :
    Kernel P × Bool :=
  let k := k.setThread k.currentThread fun th => { th with timeSliceRemain := th.timeSliceRemain - 1 }
  (k, match typeno with
    | .priority => true
    | .timeSlice | .feedback =>
      status ≠ .idleMode ∧ (k.thread k.currentThread).timeSliceRemain ≤ 0
    | .fifo => false)

namespace Timer

variable {P S C : Type} [DecidableEq P]

/-- The delay of the next interrupt. -/
def delay (t : Timer) (random : Nat) : Nat :=
  if t.randomize then 1 + random % (timerTicks * 2) else timerTicks

/-- `Timer::SetInterrupt`. -/
def setInterrupt (t : Timer) (ptr : C) (random : Nat) : List (HandlerCall C S) :=
  if t.disable then [] else [.schedule ptr (t.delay random) .timerInt]

/-- `Timer::CallBack`. -/
def callBack (typeno : Policy) (t : Timer) (ptr : C) (random : Nat) (status : MachineStatus)
    (k : Kernel P) : Kernel P × List (HandlerCall C S) :=
  let (k, yield) := k.alarm typeno status
  (k, (if yield then [.yieldOnReturn] else []) ++ t.setInterrupt ptr random)

end Timer

end Nachos
