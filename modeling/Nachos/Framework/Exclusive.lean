import Mathlib.Logic.Function.Basic
import Mathlib.Tactic.Common

/-!
# Exclusive holders

Keys hold values, and a value in use is marked. `Inv` says that no two keys
hold the same value and that the marked values are those that are held. It is
kept when a key takes a value that is not in use (`Inv.take`) and when some
keys release theirs (`Inv.release`).
-/

namespace Framework.Exclusive

variable {K F : Type} {held : K → Option F} {used : F → Prop}

structure Inv (held : K → Option F) (used : F → Prop) : Prop where
  unique : ∀ k k' f, held k = some f → held k' = some f → k = k'
  used : ∀ f, used f ↔ ∃ k, held k = some f

/-- Nothing is held. -/
theorem inv_empty (h : ∀ k, held k = none) (hu : ∀ f, ¬ used f) : Inv held used where
  unique k _ f hk := by
    rw [h k] at hk
    cases hk
  used f := by
    refine ⟨fun hf => absurd hf (hu f), ?_⟩
    rintro ⟨k, hk⟩
    rw [h k] at hk
    cases hk

/-- The key `k`, which holds nothing, takes `f`. -/
theorem Inv.take {held' : K → Option F} {used' : F → Prop} (h : Inv held used) {k : K} {f : F}
    (hk : held k = none) (hf : ¬ used f) (hself : held' k = some f)
    (hne : ∀ k' ≠ k, held' k' = held k') (hu : ∀ g, used' g ↔ g = f ∨ used g) :
    Inv held' used' where
  unique k₁ k₂ g h₁ h₂ := by
    have hnew : ∀ k' ≠ k, held' k' = some f → False := fun k' e hk' =>
      hf ((h.used f).mpr ⟨k', (hne k' e).symm.trans hk'⟩)
    by_cases e₁ : k₁ = k <;> by_cases e₂ : k₂ = k
    · rw [e₁, e₂]
    · subst e₁
      rw [hself] at h₁
      cases h₁
      exact (hnew k₂ e₂ h₂).elim
    · subst e₂
      rw [hself] at h₂
      cases h₂
      exact (hnew k₁ e₁ h₁).elim
    · exact h.unique k₁ k₂ g ((hne k₁ e₁).symm.trans h₁) ((hne k₂ e₂).symm.trans h₂)
  used g := by
    rw [hu, h.used]
    constructor
    · rintro (rfl | ⟨k', hk'⟩)
      · exact ⟨k, hself⟩
      · have e : k' ≠ k := by
          rintro rfl
          rw [hk] at hk'
          cases hk'
        exact ⟨k', (hne k' e).trans hk'⟩
    · rintro ⟨k', hk'⟩
      by_cases e : k' = k
      · subst e
        rw [hself] at hk'
        cases hk'
        exact .inl rfl
      · exact .inr ⟨k', (hne k' e).symm.trans hk'⟩

/-- The keys with `q` release what they hold. -/
theorem Inv.release {held' : K → Option F} {used' : F → Prop} (h : Inv held used) {q : K → Prop}
    (hq : ∀ k, q k → held' k = none) (hne : ∀ k, ¬ q k → held' k = held k)
    (hu : ∀ g, used' g ↔ used g ∧ ∀ k, q k → held k ≠ some g) : Inv held' used' := by
  have hkeep : ∀ k g, held' k = some g → ¬ q k ∧ held k = some g := fun k g hk => by
    have hnq : ¬ q k := fun hc => by
      rw [hq k hc] at hk
      cases hk
    exact ⟨hnq, (hne k hnq).symm.trans hk⟩
  refine ⟨fun k k' g hk hk' => h.unique k k' g (hkeep k g hk).2 (hkeep k' g hk').2, fun g => ?_⟩
  rw [hu, h.used]
  constructor
  · rintro ⟨⟨k, hk⟩, hfree⟩
    exact ⟨k, (hne k fun hc => hfree k hc hk).trans hk⟩
  · rintro ⟨k, hk⟩
    obtain ⟨hnq, hk⟩ := hkeep k g hk
    refine ⟨⟨k, hk⟩, fun k' hq' hk' => ?_⟩
    rw [h.unique k' k g hk' hk] at hq'
    exact hnq hq'

end Framework.Exclusive
