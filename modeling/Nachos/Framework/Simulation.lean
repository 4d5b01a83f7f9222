import Mathlib.Tactic.Common

/-!
# Operations with results

`runAll` does one operation after the other and collects what they return. If
every operation that the abstract state allows has the same result on the
concrete state, and leaves the two related, then so does every list of
operations that the abstract state allows (`runAll_simulates`).
-/

namespace Framework

universe u

variable {σ τ β ε : Type u} {α : Type*}

/-- The last state, and the results in order. -/
def runAll {M : Type u → Type u} [Monad M] (step : σ → α → M (σ × β)) : σ → List α → M (σ × List β)
  | s, [] => pure (s, [])
  | s, a :: as => do
    let (s, b) ← step s a
    let (s, bs) ← runAll step s as
    pure (s, b :: bs)

theorem runAll_simulates {R : σ → τ → Prop} {step : σ → α → Except ε (σ × β)}
    {abstract : τ → α → Option (τ × β)}
    (hstep : ∀ s t a t' b, R s t → abstract t a = some (t', b) → ∃ s', step s a = .ok (s', b) ∧ R s' t')
    {as : List α} {s : σ} {t t' : τ} {bs : List β} (h : R s t)
    (hr : runAll (M := Option) abstract t as = some (t', bs)) :
    ∃ s', runAll (M := Except ε) step s as = .ok (s', bs) ∧ R s' t' := by
  induction as generalizing s t bs with
  | nil =>
    cases hr
    exact ⟨s, rfl, h⟩
  | cons a as ih =>
    obtain ⟨⟨t₁, b⟩, ha, hr⟩ := Option.bind_eq_some_iff.mp hr
    obtain ⟨⟨t₂, bs'⟩, has, hr⟩ := Option.bind_eq_some_iff.mp hr
    cases hr
    obtain ⟨s₁, hs₁, h₁⟩ := hstep s t a t₁ b h ha
    obtain ⟨s₂, hs₂, h₂⟩ := ih h₁ has
    refine ⟨s₂, ?_, h₂⟩
    simp only [runAll, hs₁, hs₂, bind, Except.bind, pure, Except.pure]

end Framework
