import Mathlib.Tactic.Ring

/-!
# Numbers in two words

`hi ++ lo` is a number of twice the width. What a word-by-word program computes
on the two halves is stated as the operation on the whole: addition with a
carry (`append_add`), doubling (`append_double`), two's complement
(`append_neg`). `sshiftRight_mod` reads a number bit by bit.
-/

namespace Nachos.DoubleWord

variable {w : Nat}

theorem toNat_append {v : Nat} (hi : BitVec v) (lo : BitVec w) :
    (hi ++ lo).toNat = hi.toNat * 2 ^ w + lo.toNat := by
  rw [BitVec.toNat_append, ← Nat.shiftLeft_add_eq_or_of_lt lo.isLt, Nat.shiftLeft_eq]

/-- A number that is `h` words and a word `l` less than two words, in two. -/
theorem append_of_toNat {x : BitVec (w + w)} {hi lo : BitVec w} {h l : Nat}
    (hx : x.toNat = (h * 2 ^ w + l) % 2 ^ (w + w))
    (hlo : lo.toNat = l % 2 ^ w) (hhi : hi.toNat = (h + l / 2 ^ w) % 2 ^ w) : x = hi ++ lo := by
  refine BitVec.eq_of_toNat_eq ?_
  have hw : 0 < 2 ^ w := Nat.two_pow_pos w
  rw [toNat_append, hx, hlo, hhi, Nat.pow_add, Nat.mod_mul]
  rw [Nat.add_comm (h * 2 ^ w) l, Nat.add_mul_mod_self_right, Nat.add_mul_div_right _ _ hw,
    Nat.add_comm (l / 2 ^ w) h, Nat.mul_comm (2 ^ w)]
  exact Nat.add_comm _ _

/-- The sum of two words is less than one of them exactly when there is a
carry. -/
theorem carry (a b : BitVec w) :
    (a.toNat + b.toNat) / 2 ^ w = if a + b < b then 1 else 0 := by
  have ha := a.isLt
  have hb := b.isLt
  have hs : (a + b).toNat = (a.toNat + b.toNat) % 2 ^ w := BitVec.toNat_add a b
  by_cases h : a.toNat + b.toNat < 2 ^ w
  · rw [Nat.mod_eq_of_lt h] at hs
    rw [Nat.div_eq_of_lt h, if_neg (by rw [BitVec.lt_def]; omega)]
  · rw [Nat.mod_eq_sub_mod (by omega), Nat.mod_eq_of_lt (by omega)] at hs
    rw [if_pos (by rw [BitVec.lt_def]; omega)]
    exact Nat.div_eq_of_lt_le (by omega) (by omega)

theorem append_add (hi lo bHi bLo : BitVec w) :
    (hi ++ lo) + (bHi ++ bLo) =
      ((if lo + bLo < bLo then hi + 1 else hi) + bHi) ++ (lo + bLo) := by
  refine append_of_toNat (h := hi.toNat + bHi.toNat) (l := lo.toNat + bLo.toNat) ?_ ?_ ?_
  · rw [BitVec.toNat_add, toNat_append, toNat_append]
    congr 1
    ring
  · rw [BitVec.toNat_add]
  · rw [carry]
    split
    · simp only [BitVec.toNat_add, BitVec.toNat_ofNat, BitVec.ofNat_eq_ofNat, Nat.add_mod_mod,
        Nat.mod_add_mod]
      congr 1
      omega
    · simp only [BitVec.toNat_add, Nat.add_zero]

/-- The top bit is what a shift by one carries out. -/
theorem add_self_lt (a : BitVec w) : a + a < a ↔ a.msb = true := by
  have ha := a.isLt
  have h := carry a a
  rw [BitVec.msb_eq_decide, decide_eq_true_eq]
  cases w with
  | zero => simp [BitVec.of_length_zero]
  | succ w =>
    have hp : 2 ^ (w + 1) = 2 ^ w * 2 := Nat.pow_succ 2 w
    by_cases hc : a + a < a
    · rw [if_pos hc] at h
      have := Nat.div_mul_le_self (a.toNat + a.toNat) (2 ^ (w + 1))
      rw [h] at this
      simp only [Nat.add_sub_cancel]
      exact ⟨fun _ => by omega, fun _ => hc⟩
    · rw [if_neg hc] at h
      have := (Nat.div_eq_zero_iff_lt (Nat.two_pow_pos _)).mp h
      simp only [Nat.add_sub_cancel]
      exact ⟨fun h => absurd h hc, fun _ => by omega⟩

theorem shiftLeft_one (a : BitVec w) : a <<< 1 = a + a := by
  rw [BitVec.shiftLeft_eq_mul_twoPow]
  refine BitVec.eq_of_toNat_eq ?_
  simp only [BitVec.toNat_mul, BitVec.toNat_twoPow, BitVec.toNat_add, Nat.mul_mod_mod]
  congr 1
  omega

theorem shiftLeft_one_or (a : BitVec w) : a <<< 1 ||| 1 = a + a + 1 := by
  rw [← shiftLeft_one, BitVec.add_eq_or_of_and_eq_zero]
  ext i hi
  simp only [BitVec.getElem_and, BitVec.getElem_shiftLeft, BitVec.getElem_zero]
  cases i <;> simp

theorem append_double (hi lo : BitVec w) :
    (hi ++ lo) + (hi ++ lo) = (if lo.msb then hi <<< 1 ||| 1 else hi <<< 1) ++ (lo <<< 1) := by
  rw [append_add, shiftLeft_one lo, shiftLeft_one_or, shiftLeft_one]
  congr 1
  by_cases h : lo.msb = true
  · rw [if_pos ((add_self_lt lo).mpr h), if_pos h, BitVec.add_assoc, BitVec.add_comm 1,
      ← BitVec.add_assoc]
  · rw [if_neg (mt (add_self_lt lo).mp h), if_neg h]

theorem append_neg (hi lo : BitVec w) :
    -(hi ++ lo) = (if ~~~ lo + 1 = 0 then ~~~ hi + 1 else ~~~ hi) ++ (~~~ lo + 1) := by
  cases w with
  | zero => exact BitVec.eq_of_toNat_eq (by simp [BitVec.of_length_zero])
  | succ w =>
    have one : 1#(w + 1 + (w + 1)) = 0#(w + 1) ++ 1#(w + 1) := by
      refine BitVec.eq_of_toNat_eq ?_
      rw [toNat_append]
      simp
    rw [BitVec.neg_eq_not_add, BitVec.not_append, one, append_add, BitVec.add_zero]
    congr 1
    exact if_congr (BitVec.lt_one_iff (Nat.succ_pos w)) rfl rfl

/-- Testing a bit by a mask. -/
theorem and_twoPow_ne_zero (a : BitVec w) {k : Nat} (hk : k < w) :
    a &&& BitVec.twoPow w k ≠ 0 ↔ a.getLsbD k = true := by
  have hne : BitVec.twoPow w k ≠ 0 := fun h => by
    have := congrArg (·.getLsbD k) h
    simp [hk] at this
  rw [BitVec.and_twoPow]
  cases a.getLsbD k
  · simp
  · simpa using hne

/-- The low `n + 1` bits of a number, from its lowest bit and from the number
shifted right, whatever fills it from the left. -/
theorem sshiftRight_mod {n : Nat} (hn : n < w) (a : BitVec w) :
    a.toNat % 2 ^ (n + 1) = a.toNat % 2 + 2 * ((a.sshiftRight 1).toNat % 2 ^ n) := by
  have hs : (a.sshiftRight 1).toNat % 2 ^ n = a.toNat / 2 % 2 ^ n := by
    rw [← BitVec.toNat_setWidth, ← Nat.shiftRight_eq_div_pow a.toNat 1,
      ← BitVec.toNat_ushiftRight, ← BitVec.toNat_setWidth]
    congr 1
    ext i hi
    simp only [BitVec.getElem_setWidth, BitVec.getLsbD_sshiftRight, BitVec.getLsbD_ushiftRight]
    rw [if_pos (by omega)]
    simp only [show ¬ w ≤ i by omega, decide_false, Bool.not_false, Bool.true_and]
  rw [hs, Nat.pow_succ', Nat.mod_mul]

end Nachos.DoubleWord
