import Mathlib.Tactic.Common

/-!
# Counters that tell an order

Cells carry counters, and each was touched last at some time. `Tells` says that
the counters of some of the cells are in the order of these times. It is kept
when a cell is touched and gets a counter above the others (`Tells.touch`), and
for fewer cells (`Tells.mono`). The cell with the least counter is then the one
that was touched first (`Tells.first`).
-/

namespace Framework.Recency

variable {ι α τ : Type*} [LT α] [LT τ]

/-- The counters of the cells in `S` are in the order of the times. -/
def Tells (S : ι → Prop) (counter : ι → α) (time : ι → τ) : Prop :=
  ∀ i j, S i → S j → i ≠ j → time i < time j ∧ counter i < counter j ∨
    time j < time i ∧ counter j < counter i

variable {S S' : ι → Prop} {counter counter' : ι → α} {time time' : ι → τ}

/-- Fewer cells, with the counters and times that they had. -/
theorem Tells.mono (h : Tells S counter time)
    (hS : ∀ i, S' i → S i ∧ counter' i = counter i ∧ time' i = time i) :
    Tells S' counter' time' := by
  intro i j hi hj hne
  obtain ⟨hi, hci, hti⟩ := hS i hi
  obtain ⟨hj, hcj, htj⟩ := hS j hj
  rw [hci, hti, hcj, htj]
  exact h i j hi hj hne

/-- The cell `k` is touched. -/
theorem Tells.touch (h : Tells S counter time) (k : ι)
    (hS : ∀ i, S' i → i ≠ k → S i ∧ counter' i = counter i ∧ time' i = time i)
    (hk : ∀ i, S' i → i ≠ k → counter' i < counter' k ∧ time' i < time' k) :
    Tells S' counter' time' := by
  intro i j hi hj hne
  by_cases ei : i = k
  · subst ei
    obtain ⟨hc, ht⟩ := hk j hj hne.symm
    exact .inr ⟨ht, hc⟩
  by_cases ej : j = k
  · subst ej
    obtain ⟨hc, ht⟩ := hk i hi hne
    exact .inl ⟨ht, hc⟩
  obtain ⟨hi, hci, hti⟩ := hS i hi ei
  obtain ⟨hj, hcj, htj⟩ := hS j hj ej
  rw [hci, hti, hcj, htj]
  exact h i j hi hj hne

/-- A least counter belongs to the cell that was touched first. -/
theorem Tells.first (h : Tells S counter time) {k i : ι} (hk : S k) (hi : S i) (hne : i ≠ k)
    (hle : ¬ counter i < counter k) : time k < time i := by
  rcases h k i hk hi hne.symm with ⟨ht, -⟩ | ⟨-, hc⟩
  · exact ht
  · exact absurd hc hle

end Framework.Recency
