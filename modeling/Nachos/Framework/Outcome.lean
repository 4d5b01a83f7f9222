import Mathlib.Logic.Basic

/-!
# Computations that do not fail in one way

`Never e x Q`: the computation `x` does not stop with the error `e`, and what it
returns has `Q`. It may stop with any other error. The rules follow the
computation: one for a return, one for an error, one for a sequence.
-/

namespace Framework

universe u

variable {ε : Type*} {α β : Type u}

/-- `x` does not fail with `e`, and its result has `Q`. -/
def Never (e : ε) (x : Except ε α) (Q : α → Prop) : Prop :=
  x ≠ .error e ∧ ∀ a, x = .ok a → Q a

namespace Never

variable {e : ε} {x : Except ε α} {f : α → Except ε β} {Q R : α → Prop} {Q' : β → Prop}

theorem ok {a : α} (h : Q a) : Never e (.ok a) Q := by
  refine ⟨by simp, ?_⟩
  rintro _ ⟨⟩
  exact h

theorem error {e' : ε} (h : e' ≠ e) : Never e (.error e' : Except ε α) Q :=
  ⟨fun he => h (Except.error.inj he), by simp⟩

theorem mono (h : Never e x R) (hQ : ∀ a, R a → Q a) : Never e x Q :=
  ⟨h.1, fun a ha => hQ a (h.2 a ha)⟩

theorem bind (h : Never e x R) (hf : ∀ a, R a → Never e (f a) Q') : Never e (x >>= f) Q' := by
  cases x with
  | error e' => exact error fun he => h.1 (congrArg _ he)
  | ok a => exact hf a (h.2 a rfl)

theorem ite {c : Prop} [Decidable c] {y : Except ε α} (h₁ : c → Never e x Q)
    (h₂ : ¬ c → Never e y Q) : Never e (if c then x else y) Q := by
  split
  · rename_i hc
    exact h₁ hc
  · rename_i hc
    exact h₂ hc

end Never

end Framework
