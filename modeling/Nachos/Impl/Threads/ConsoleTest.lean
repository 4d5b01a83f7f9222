import Nachos.Impl.Threads.Driver

/-!
# The console test

`Kernel::ConsoleTest` of `threads/kernel.cc`: one thread echoes what the keyboard
delivers on the display, until `GetChar` returns `EOF`. The two consoles share
nothing, so each has a state of its own, with what is left of the thread's call.
-/

namespace Nachos

/-- Where the loop is. -/
inductive EchoPhase
  | getChar
  | putChar
  | done
  deriving DecidableEq

structure ConsoleTest where
  phase : EchoPhase
  synchConsoleIn : SynchConsoleInput.Config Unit
  synchConsoleOut : Driver.Config Unit Byte Unit ConsoleOutput

namespace ConsoleTest

/-- `ch`, what the last `GetChar` returned. -/
def ch (c : ConsoleTest) : Option Byte := c.synchConsoleIn.shared.data.got.getLast?.map Prod.snd

/-- A statement of the thread: of the call that it is in, or of the loop. -/
def thread (c : ConsoleTest) : Except Abort ConsoleTest :=
  match c.phase with
  | .getChar =>
    match c.synchConsoleIn.loc () with
    | _ :: _ => do
      let x ← SynchConsoleInput.next c.synchConsoleIn (.inl ())
      return { c with synchConsoleIn := x }
    | [] =>
      match c.ch with
      | none => .error .undefined
      | some ch =>
        if ch.toInt ≠ eof then
          return { c with
            phase := .putChar
            synchConsoleOut := { c.synchConsoleOut with loc := fun _ => Driver.call ch } }
        else return { c with phase := .done }
  | .putChar =>
    match c.synchConsoleOut.loc () with
    | _ :: _ => do
      let x ← Driver.next ConsoleOutput.device c.synchConsoleOut (.inl ())
      return { c with synchConsoleOut := x }
    | [] =>
      return { c with
        phase := .getChar
        synchConsoleIn := { c.synchConsoleIn with loc := fun _ => SynchConsoleInput.getChar } }
  | .done => return c

/-- The thread, and the interrupts of the keyboard and of the display. -/
inductive Event
  | thread
  | keyboard (ready : Bool)
  | display

def next (c : ConsoleTest) : Event → Except Abort ConsoleTest
  | .thread => c.thread
  | .keyboard ready => do
    let x ← SynchConsoleInput.next c.synchConsoleIn (.inr ready)
    return { c with synchConsoleIn := x }
  | .display => do
    let x ← Driver.next ConsoleOutput.device c.synchConsoleOut (.inr ())
    return { c with synchConsoleOut := x }

/-- The start, with what will be typed. -/
def start (file : List Byte) : ConsoleTest :=
  ⟨.getChar, SynchConsoleInput.start file fun _ => 1, Driver.start ⟨false, []⟩ fun _ => []⟩

end ConsoleTest

end Nachos
