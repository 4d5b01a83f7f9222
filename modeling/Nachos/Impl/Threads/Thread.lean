import Nachos.Impl.Lib.Debug

/-!
# Thread control blocks and the table of threads

`class Thread` of `threads/thread.h` as far as the scheduler reads it, and
`kernel->threadArray`, the table of the threads that exist. `P` is the type of
pointers to threads.
-/

namespace Nachos

/-- `MaxThreadNum`. -/
def maxThreadNum : Nat := 128

/-- `enum ThreadStatus`. -/
inductive ThreadStatus
  | justCreated
  | running
  | ready
  | blocked
  | suspended
  deriving DecidableEq

/-- `class Thread`; `stack` says that `Fork` has allocated one. -/
structure Thread where
  threadID : Nat
  priority : Int
  timeSliceRemain : Int
  status : ThreadStatus
  stack : Bool

/-- `Thread::addAThread`: the first free slot, or `none` for -1. -/
def addAThread {P : Type} (threadArray : List (Option P)) (t : P) :
    Option (Nat × List (Option P)) :=
  (threadArray.findIdx? Option.isNone).map fun i => (i, threadArray.set i (some t))

/-- `Thread::removeAThread`. -/
def removeAThread {P : Type} (threadArray : List (Option P)) (tid : Nat) : List (Option P) :=
  threadArray.set tid none

theorem addAThread_eq_some {P : Type} {a a' : List (Option P)} {t : P} {i : Nat}
    (h : addAThread a t = some (i, a')) : a[i]? = some none ∧ a' = a.set i (some t) := by
  obtain ⟨j, hj, he⟩ := Option.map_eq_some_iff.mp h
  simp only [Prod.mk.injEq] at he
  obtain ⟨rfl, rfl⟩ := he
  obtain ⟨hlt, hn, -⟩ := List.findIdx?_eq_some_iff_getElem.mp hj
  refine ⟨?_, rfl⟩
  rw [List.getElem?_eq_getElem hlt, Option.isNone_iff_eq_none.mp hn]

end Nachos
