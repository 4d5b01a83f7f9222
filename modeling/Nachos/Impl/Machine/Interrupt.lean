import Mathlib.Algebra.Group.Int.Defs
import Nachos.Impl.Lib.List

/-!
# Simulated interrupts

`machine/interrupt.cc`: the interrupt level, the clock, and the queue of the
interrupts that the devices have scheduled. The printing, the statistics but
`totalTicks`, and the delayed load before a handler are left out.

The handlers are those of the devices (`Handlers`): a handler changes the state
`W` of the devices and the kernel, and schedules further interrupts, calls
`Semaphore::V` or asks for a context switch. `oneTick` ends where it would call
`Yield`.
-/

namespace Nachos

/-- Why an operation stopped: a false `ASSERT` on the interrupt level or on
`inHandler`, `Halt`, or anything else. -/
inductive Fault
  | level
  | halt
  | abort (a : Abort)
  deriving DecidableEq

/-- Code that does not look at the interrupt level. -/
def liftAbort {α : Type} (x : Except Abort α) : Except Fault α := x.mapError .abort

/-- `ASSERT(condition)`, the condition being on the level. -/
def assertLevel (p : Prop) [Decidable p] : Except Fault Unit :=
  if p then .ok () else .error .level

section
variable {α : Type} {x : Except Abort α} {p : Prop} [Decidable p]

theorem liftAbort_ok (a : α) : liftAbort (.ok a) = .ok a := rfl

theorem liftAbort_error (e : Abort) : liftAbort (.error e : Except Abort α) = .error (.abort e) := rfl

@[simp] theorem liftAbort_eq_ok {a : α} : liftAbort x = .ok a ↔ x = .ok a := by
  cases x <;> simp [liftAbort_ok, liftAbort_error]

theorem liftAbort_ne_level : liftAbort x ≠ .error .level := by
  cases x <;> simp [liftAbort_ok, liftAbort_error]

@[simp] theorem assertLevel_eq_ok {u : Unit} : assertLevel p = .ok u ↔ p := by
  simp [assertLevel]

theorem assertLevel_of (h : p) : assertLevel p = .ok () := assertLevel_eq_ok.mpr h

end

/-- `enum IntStatus`. -/
inductive IntStatus
  | off
  | on
  deriving DecidableEq

/-- `enum MachineStatus`. -/
inductive MachineStatus
  | idleMode
  | systemMode
  | userMode
  deriving DecidableEq

/-- `enum IntType`. -/
inductive IntType
  | timerInt
  | diskInt
  | consoleWriteInt
  | consoleReadInt
  | networkSendInt
  | networkRecvInt
  deriving DecidableEq

/-- `UserTick`. -/
def userTick : Int := 1

/-- `SystemTick`. -/
def systemTick : Int := 10

/-- `class PendingInterrupt`; `ptr` is its address, which says how many were made
before it. `C` are the pointers to `CallBackObj`. -/
structure PendingInterrupt (C : Type) where
  ptr : Nat
  callOnInterrupt : C
  when : Int
  type : IntType
  deriving DecidableEq

/-- `PendingCompare`. -/
def pendingCompare {C : Type} (x y : PendingInterrupt C) : Int :=
  if x.when < y.when then -1
  else if x.when > y.when then 1
  else 0

/-- `class Interrupt`, with `stats->totalTicks` and the number of interrupts
made. -/
structure Interrupt (C : Type) where
  level : IntStatus
  pending : List (PendingInterrupt C)
  inHandler : Bool
  yieldOnReturn : Bool
  status : MachineStatus
  totalTicks : Int
  made : Nat

/-- What a handler calls. `S` are the pointers to semaphores. -/
inductive HandlerCall (C S : Type)
  | schedule (toCall : C) (fromNow : Int) (type : IntType)
  | v (s : S)
  | yieldOnReturn

/-- The handlers: `callBack` is `CallBack` of an object, under `getStatus()`, and
`v` the body of `Semaphore::V` between its two `SetLevel`, under the level. -/
structure Handlers (C S W : Type) where
  callBack : MachineStatus → C → W → W × List (HandlerCall C S)
  v : IntStatus → S → W → Except Fault W

/-- A handler was called: for which interrupt, when, and under which level and
status. -/
structure Delivery (C : Type) where
  interrupt : PendingInterrupt C
  ticks : Int
  level : IntStatus
  status : MachineStatus
  deriving DecidableEq

namespace Interrupt

variable {C S W : Type} [DecidableEq C] (H : Handlers C S W)

/-- `Interrupt::Interrupt`. -/
def new : Interrupt C where
  level := .off
  pending := []
  inHandler := false
  yieldOnReturn := false
  status := .systemMode
  totalTicks := 0
  made := 0

/-- `Interrupt::ChangeLevel`. -/
def changeLevel (i : Interrupt C) (now : IntStatus) : Interrupt C := { i with level := now }

/-- `Interrupt::SetLevel`, up to where it calls `OneTick`: the old level, and
whether it calls it. -/
def setLevel (i : Interrupt C) (now : IntStatus) :
    Except Fault (Interrupt C × IntStatus × Bool) := do
  assertLevel (now = .off ∨ i.inHandler = false)
  return (i.changeLevel now, i.level, now = .on ∧ i.level = .off)

/-- `Interrupt::YieldOnReturn`. -/
def setYieldOnReturn (i : Interrupt C) : Except Fault (Interrupt C) := do
  assertLevel (i.inHandler = true)
  return { i with yieldOnReturn := true }

/-- `Interrupt::Schedule`. The sum is defined while it fits in an `int`. -/
def schedule (i : Interrupt C) (toCall : C) (fromNow : Int) (type : IntType) :
    Except Fault (Interrupt C) := do
  liftAbort (defined (i.totalTicks + fromNow < 2 ^ 31))
  let toOccur : PendingInterrupt C := ⟨i.made, toCall, i.totalTicks + fromNow, type⟩
  liftAbort (assert (fromNow > 0))
  let q ← liftAbort (NList.insert pendingCompare i.pending toOccur)
  return { i with pending := q, made := i.made + 1 }

/-- One call of a handler. `V` sets the level it found: in a handler
`SetLevel` does not get to `OneTick`. -/
def call (i : Interrupt C) (w : W) : HandlerCall C S → Except Fault (Interrupt C × W)
  | .schedule toCall fromNow type => do
    let i ← i.schedule toCall fromNow type
    return (i, w)
  | .v s => do
    let (i, oldLevel, _) ← i.setLevel .off
    let w ← H.v i.level s w
    let (i, _, _) ← i.setLevel oldLevel
    return (i, w)
  | .yieldOnReturn => do
    let i ← i.setYieldOnReturn
    return (i, w)

/-- The calls of a handler, one after the other. -/
def calls (i : Interrupt C) (w : W) : List (HandlerCall C S) → Except Fault (Interrupt C × W)
  | [] => return (i, w)
  | c :: cs => do
    let (i, w) ← i.call H w c
    i.calls w cs

/-- The front is due. -/
def isDue (i : Interrupt C) : Bool := i.pending.head?.any fun next => next.when ≤ i.totalTicks

/-- `n` turns of the loop of `CheckIfDue` at most, with the handlers called. -/
def deliver : Nat → Interrupt C → W → Except Fault (Interrupt C × W × List (Delivery C))
  | 0, i, w => return (i, w, [])
  | n + 1, i, w => do
    let (next, q) ← liftAbort (NList.removeFront i.pending)
    let d : Delivery C := ⟨next, i.totalTicks, i.level, i.status⟩
    let (w, cs) := H.callBack i.status next.callOnInterrupt w
    let (i, w) ← { i with pending := q }.calls H w cs
    if i.isDue then
      let (i, w, ds) ← deliver n i w
      return (i, w, d :: ds)
    else return (i, w, [d])

/-- `Interrupt::CheckIfDue` with at most `n` turns of the loop: whether it called
a handler, and which. -/
def checkIfDueWithin (n : Nat) (advanceClock : Bool) (i : Interrupt C) (w : W) :
    Except Fault (Interrupt C × W × List (Delivery C) × Bool) := do
  assertLevel (i.level = .off)
  match i.pending with
  | [] => return (i, w, [], false)
  | next :: _ =>
    if next.when > i.totalTicks ∧ advanceClock = false then return (i, w, [], false)
    else
      let i := if next.when > i.totalTicks then { i with totalTicks := next.when } else i
      let (i, w, ds) ← deliver H n { i with inHandler := true } w
      return ({ i with inHandler := false }, w, ds, true)

/-- `Interrupt::CheckIfDue`: there are no more turns than pending interrupts. -/
def checkIfDue (advanceClock : Bool) (i : Interrupt C) (w : W) :
    Except Fault (Interrupt C × W × List (Delivery C) × Bool) :=
  checkIfDueWithin H i.pending.length advanceClock i w

/-- `Interrupt::OneTick`, up to where it calls `Yield`: whether it does. -/
def oneTick (i : Interrupt C) (w : W) :
    Except Fault (Interrupt C × W × List (Delivery C) × Bool) := do
  let ticks := i.totalTicks + if i.status = .systemMode then systemTick else userTick
  liftAbort (defined (ticks < 2 ^ 31))
  let i := { i with totalTicks := ticks }.changeLevel .off
  let (i, w, ds, _) ← i.checkIfDue H false w
  let i := i.changeLevel .on
  if i.yieldOnReturn then
    return ({ i with yieldOnReturn := false, status := .systemMode }, w, ds, true)
  else return (i, w, ds, false)

/-- `Interrupt::Idle`: `false` when it halts the machine. -/
def idle (i : Interrupt C) (w : W) : Except Fault (Interrupt C × W × List (Delivery C) × Bool) := do
  let (i, w, ds, b) ← { i with status := .idleMode }.checkIfDue H true w
  if b then return ({ i with status := .systemMode }, w, ds, true)
  else return (i, w, ds, false)

end Interrupt

end Nachos
