import Mathlib.Logic.Basic

/-!
# Aborting the simulation

`ASSERT` of `lib/debug.h` ends the simulation when its condition is false.
The code can also reach an undefined operation, such as a store outside an
array. Functions that may do either return in `Except Abort`.
-/

namespace Nachos

/-- Why the simulation stopped: a false `ASSERT`, or an operation whose
behaviour C++ leaves undefined. -/
inductive Abort
  | assert
  | undefined
  deriving DecidableEq, Repr

/-- `ASSERT(condition)`. -/
def assert (p : Prop) [Decidable p] : Except Abort Unit :=
  if p then .ok () else .error .assert

/-- An operation defined only when `p`. -/
def defined (p : Prop) [Decidable p] : Except Abort Unit :=
  if p then .ok () else .error .undefined

variable {ε α β : Type} {p : Prop} [Decidable p]

@[simp] theorem ok_bind (a : α) (f : α → Except ε β) : (Except.ok a >>= f) = f a := rfl

@[simp] theorem error_bind (e : ε) (f : α → Except ε β) :
    ((Except.error e : Except ε α) >>= f) = .error e := rfl

@[simp] theorem pure_eq_ok (a : α) : (pure a : Except ε α) = .ok a := rfl

/-- A computation that does not abort, peeled apart at its first step. -/
theorem bind_eq_ok {x : Except ε α} {f : α → Except ε β} {b : β} :
    (x >>= f) = .ok b ↔ ∃ a, x = .ok a ∧ f a = .ok b := by
  cases x <;> simp

theorem bind_ne_error {x : Except ε α} {f : α → Except ε β} {e : ε}
    (hx : x ≠ .error e) (hf : ∀ a, x = .ok a → f a ≠ .error e) : (x >>= f) ≠ .error e := by
  cases x with
  | error e' => exact fun h => hx (congrArg _ (Except.error.inj h))
  | ok a => exact hf a rfl

@[simp] theorem assert_eq_ok {u : Unit} : assert p = .ok u ↔ p := by
  simp [assert]

@[simp] theorem defined_eq_ok {u : Unit} : defined p = .ok u ↔ p := by
  simp [defined]

theorem assert_of (h : p) : assert p = .ok () := assert_eq_ok.mpr h

theorem defined_of (h : p) : defined p = .ok () := defined_eq_ok.mpr h

end Nachos
