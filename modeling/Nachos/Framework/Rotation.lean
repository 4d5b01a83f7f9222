import Mathlib.Data.Int.ModEq

/-!
# Rotation

A wheel with `n` places turns by one place in each slot of time: in slot `k` the
place `k` modulo `n` passes. `ahead n p t` is how many slots from `t` on pass before
the next one of the place `p` (`add_ahead_modEq`, `add_ahead_le`), so it decides if
the place has passed in a range of slots (`exists_slot_iff`). With `p = 0` it rounds
up to a multiple of `n` (`dvd_add_ahead`).
-/

namespace Framework.Rotation

variable {n p b t k : Int}

/-- The slots from `t` on before the next one of the place `p`. -/
def ahead (n p t : Int) : Int := (p - t) % n

theorem ahead_nonneg (hn : 0 < n) : 0 ≤ ahead n p t := Int.emod_nonneg _ hn.ne'

theorem ahead_lt (hn : 0 < n) : ahead n p t < n := Int.emod_lt_of_pos _ hn

/-- It is a slot of the place. -/
theorem add_ahead_modEq : t + ahead n p t ≡ p [ZMOD n] := by
  have h : t + (p - t) % n ≡ t + (p - t) [ZMOD n] := (Int.mod_modEq (p - t) n).add_left t
  rwa [add_sub_cancel] at h

/-- It is the first one. -/
theorem add_ahead_le (hn : 0 < n) (htk : t ≤ k) (hk : k ≡ p [ZMOD n]) : t + ahead n p t ≤ k := by
  have hsame : ahead n p t = (k - t) % n := hk.symm.sub_right t
  have hsplit : (k - t) % n + n * ((k - t) / n) = k - t := Int.emod_add_mul_ediv (k - t) n
  have hturns : 0 ≤ n * ((k - t) / n) := Int.mul_nonneg hn.le (Int.ediv_nonneg (by omega) hn.le)
  omega

/-- The place has passed between the slots `b` and `t`. -/
theorem exists_slot_iff (hn : 0 < n) :
    (∃ k, b ≤ k ∧ k < t ∧ k ≡ p [ZMOD n]) ↔ b + ahead n p b < t := by
  constructor
  · rintro ⟨k, hbk, hkt, hk⟩
    exact Int.lt_of_le_of_lt (add_ahead_le hn hbk hk) hkt
  · intro h
    have hpos : 0 ≤ ahead n p b := ahead_nonneg hn
    exact ⟨b + ahead n p b, by omega, h, add_ahead_modEq⟩

/-- The next multiple of `n`. -/
theorem dvd_add_ahead : n ∣ t + ahead n 0 t := Int.modEq_zero_iff_dvd.mp add_ahead_modEq

/-- With remainders that are not negative, as C++ has them. -/
theorem ahead_eq_of_emod : ahead n p t = ((p % n - t % n) + n) % n := by
  rw [Int.add_emod_right, ahead, Int.sub_emod]

theorem ahead_zero (hn : 0 < n) : ahead n 0 t = if t % n > 0 then n - t % n else 0 := by
  have h0 : 0 ≤ t % n := Int.emod_nonneg _ hn.ne'
  have hlt : t % n < n := Int.emod_lt_of_pos _ hn
  rw [ahead_eq_of_emod, Int.zero_emod]
  split
  · rw [Int.emod_eq_of_lt (by omega) (by omega)]
    omega
  · have hz : t % n = 0 := by omega
    rw [hz, Int.sub_zero, Int.zero_add, Int.emod_self]

end Framework.Rotation
